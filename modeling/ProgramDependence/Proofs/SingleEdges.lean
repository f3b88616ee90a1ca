import ProgramDependence.Proofs.Intact

/-!
# Parameter edges that differ in their ends

The calls of a system are joined to their callees after each root, so the same call is gone over
again and again.  A parameter edge is added only where there is none of its kind between its ends;
so no two parameter edges of one kind have the same ends (`Graph.Single`), and the edges inside a
unit are no parameter edges.
-/

namespace ProgramDependence

open List

def Edge.ends (e : Edge) : Id × Id :=
  (e.src, e.dst)

def Graph.endsOf (g : Graph) (s : DependenceSort) : List (Id × Id) :=
  (g.edges.filter (·.isSort s)).map Edge.ends

/-- The parameter edges of each kind differ in their ends. -/
def Graph.Single (g : Graph) : Prop :=
  ∀ s : DependenceSort, s.isParameter = true → (g.endsOf s).Nodup

namespace Graph

variable {g g' : Graph} {s : DependenceSort}
variable {es : List Edge}

theorem endsOf_append (hedges : g'.edges = g.edges ++ es) (s : DependenceSort) :
    g'.endsOf s = g.endsOf s ++ (es.filter (·.isSort s)).map Edge.ends := by
  rw [endsOf, hedges, filter_append, map_append]
  rfl

theorem endsOf_eq (hedges : g'.edges = g.edges ++ es) (hes : ∀ e ∈ es, e.isSort s = false) :
    g'.endsOf s = g.endsOf s := by
  have hnone : es.filter (·.isSort s) = [] := filter_eq_nil_iff.2 fun e he => by simp [hes e he]
  rw [endsOf_append hedges, hnone, map_nil, append_nil]

theorem Single.append (h : g.Single) (hedges : g'.edges = g.edges ++ es)
    (hes : ∀ e ∈ es, ∀ s : DependenceSort, s.isParameter = true → e.isSort s = false) : g'.Single := by
  intro s hs
  rw [endsOf_eq hedges fun e he => hes e he s hs]
  exact h s hs

/-- A parameter edge may be added where there is none of its kind. -/
theorem Single.appendEdge (h : g.Single) {e : Edge}
    (hnew : ∀ s : DependenceSort, s.isParameter = true → e.isSort s = true → e.ends ∉ g.endsOf s) :
    (g.appendEdge e).Single := by
  intro s hs
  have hedges : (g.appendEdge e).edges = g.edges ++ [e] := rfl
  rw [endsOf_append hedges]
  cases hsort : e.isSort s with
  | false =>
    rw [filter_cons_of_neg (by simp [hsort]), filter_nil, map_nil, append_nil]
    exact h s hs
  | true =>
    rw [filter_cons_of_pos (by exact hsort)]
    apply nodup_append.2
    refine ⟨h s hs, nodup_singleton _, ?_⟩
    intro w hw w' hw' heq
    rw [heq, mem_singleton.1 hw'] at hw
    exact hnew s hs hsort hw

end Graph

theorem Edge.isSort_of_isInner {e : Edge} (h : e.isInner = true) {s : DependenceSort}
    (hs : s.isParameter = true) : e.isSort s = false := by
  unfold Edge.isInner at h
  unfold Edge.isSort
  cases hsort : e.dependenceSort? with
  | none => rfl
  | some t =>
    rw [hsort, Option.all_some, DependenceSort.isInner] at h
    rw [decide_eq_false_iff_not, Option.some.injEq]
    rintro rfl
    rw [hs] at h
    cases h

end ProgramDependence
