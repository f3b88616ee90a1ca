import Mathlib.Data.List.Nodup
import Mathlib.Data.List.Perm.Subperm
import Mathlib.Logic.Relation
import ProgramDependence.Search

/-!
# Exploration is exact

A worklist search finds exactly what can be reached, whichever way new elements are put on the
worklist.  The fuel is counted against the elements that are not found yet: every expansion takes
one element from the worklist, and an element gets there only by leaving the list of those not yet
found.

* `run_spec` says what a search has done when it stops: it found new elements, expanded the worklist and
  all of them, and everything one step away is found.
* `Done.mem_iff` turns this into reachability along steps that avoid what was found before.
* `lists_run` is the case of a search that starts from nothing, and `run_swept` that of a search that may not
  enter some elements.
-/

namespace ProgramDependence

open List Relation

namespace Search

variable {α : Type}

/-- A step of a search that may not enter what is among `skip`. -/
def Step (next : α → List α) (skip : List α) (x y : α) : Prop :=
  y ∈ next x ∧ y ∉ skip

theorem perm_push (discipline : Discipline) (new todo : List α) :
    (discipline.push new todo).Perm (todo ++ new) := by
  cases discipline with
  | queue => exact .refl _
  | stack => exact ((reverse_perm new).append_right todo).trans perm_append_comm

/-- What a finished search has done, beyond what was `found` and `visited` before. -/
structure Done (next : α → List α) (todo found visited : List α) (trace : Trace α) (new : List α) : Prop where
  found_eq : trace.found = found ++ new
  visited_perm : trace.visited.Perm (visited ++ (todo ++ new))
  nodup : new.Nodup
  not_found : ∀ x ∈ new, x ∉ found
  closed : ∀ x ∈ todo ++ new, ∀ y ∈ next x, y ∈ found ++ new
  reached : ∀ y ∈ new, ∃ x ∈ todo, ReflTransGen (Step next found) x y

theorem Done.mem_iff {next : α → List α} {todo found visited : List α} {trace : Trace α}
    {new : List α} (hdone : Done next todo found visited trace new) {y : α} :
    y ∈ todo ++ new ↔ ∃ x ∈ todo, ReflTransGen (Step next found) x y := by
  constructor
  · intro hy
    rcases mem_append.1 hy with hy | hy
    · exact ⟨y, hy, .refl⟩
    · exact hdone.reached y hy
  · rintro ⟨x, hx, hreach⟩
    induction hreach with
    | refl => exact mem_append_left _ hx
    | tail _ hstep ih =>
      rcases mem_append.1 (hdone.closed _ ih _ hstep.1) with hf | hn
      · exact absurd hf hstep.2
      · exact mem_append_right _ hn

variable [DecidableEq α]

theorem length_fresh_le (seen xs : List α) : (fresh seen xs).length ≤ xs.length := by
  induction xs generalizing seen with
  | nil => simp [fresh]
  | cons y ys ih =>
    by_cases hy : y ∈ seen
    · simp only [fresh, hy]
      exact Nat.le_succ_of_le (ih seen)
    · simp only [fresh, hy]
      exact Nat.succ_le_succ (ih _)

variable {domain : List α}

theorem length_fresh_append {found new : List α} (hnodup : new.Nodup) (hmem : ∀ x ∈ new, x ∈ domain)
    (hnew : ∀ x ∈ new, x ∉ found) :
    new.length + (fresh (found ++ new) domain).length ≤ (fresh found domain).length := by
  have hdisjoint : List.Disjoint new (fresh (found ++ new) domain) := by
    intro x hx hf
    exact (mem_fresh.1 hf).2 (mem_append_right _ hx)
  have hall : (new ++ fresh (found ++ new) domain).Nodup :=
    hnodup.append (nodup_fresh _ _) hdisjoint
  have hsubset : new ++ fresh (found ++ new) domain ⊆ fresh found domain := by
    intro x hx
    rcases mem_append.1 hx with hx | hx
    · exact mem_fresh.2 ⟨hmem x hx, hnew x hx⟩
    · obtain ⟨hu, hs⟩ := mem_fresh.1 hx
      exact mem_fresh.2 ⟨hu, fun h => hs (mem_append_left _ h)⟩
  have hlength := (subperm_of_subset hall hsubset).length_le
  rwa [length_append] at hlength

/-- A search with enough fuel finishes: the fuel has to cover the worklist and the elements that are
not found yet. -/
theorem run_spec (discipline : Discipline) (next : α → List α) (hnext : ∀ x, ∀ y ∈ next x, y ∈ domain) :
    ∀ (fuel : Nat) (todo found visited : List α), todo.length + (fresh found domain).length ≤ fuel →
      ∃ new, Done next todo found visited (run discipline next fuel todo found visited) new := by
  intro fuel
  induction fuel with
  | zero =>
    intro todo found visited hfuel
    have htodo : todo = [] := length_eq_zero_iff.1 (by omega)
    subst htodo
    exact ⟨[], by simp [run], by simp [run], by simp, by simp, by simp, by simp⟩
  | succ fuel ih =>
    intro todo found visited hfuel
    cases todo with
    | nil => exact ⟨[], by simp [run], by simp [run], by simp, by simp, by simp, by simp⟩
    | cons x todo =>
      let first := fresh found (next x)
      have hfirst : ∀ y, y ∈ first ↔ y ∈ next x ∧ y ∉ found := fun y => mem_fresh
      have hcount : first.length + (fresh (found ++ first) domain).length ≤
          (fresh found domain).length :=
        length_fresh_append (nodup_fresh found (next x))
          (fun y hy => hnext x y ((hfirst y).1 hy).1) (fun y hy => ((hfirst y).1 hy).2)
      have hpush : (discipline.push first todo).Perm (todo ++ first) :=
        perm_push discipline first todo
      have hlength : (discipline.push first todo).length = todo.length + first.length := by
        rw [hpush.length_eq, length_append]
      obtain ⟨new, hdone⟩ := ih (discipline.push first todo) (found ++ first)
        (visited ++ [x]) (by
          simp only [length_cons] at hfuel
          omega)
      refine ⟨first ++ new, ?_, ?_, ?_, ?_, ?_, ?_⟩
      · rw [show run discipline next (fuel + 1) (x :: todo) found visited =
            run discipline next fuel (discipline.push first todo) (found ++ first)
              (visited ++ [x]) from rfl, hdone.found_eq, append_assoc]
      · refine hdone.visited_perm.trans ?_
        have hrest : (discipline.push first todo ++ new).Perm (todo ++ (first ++ new)) := by
          rw [← append_assoc]
          exact hpush.append_right new
        rw [append_assoc]
        exact (hrest.cons x).append_left visited
      · refine (nodup_fresh found (next x)).append hdone.nodup ?_
        intro y hy hn
        exact hdone.not_found y hn (mem_append_right _ hy)
      · intro y hy
        rcases mem_append.1 hy with hy | hy
        · exact ((hfirst y).1 hy).2
        · exact fun hf => hdone.not_found y hy (mem_append_left _ hf)
      · intro z hz y hy
        rw [← append_assoc]
        rcases mem_cons.1 hz with rfl | hz
        · by_cases hf : y ∈ found
          · exact mem_append_left _ (mem_append_left _ hf)
          · exact mem_append_left _ (mem_append_right _ ((hfirst y).2 ⟨hy, hf⟩))
        · refine hdone.closed z ?_ y hy
          have hz' : z ∈ todo ++ first ++ new := by
            rw [append_assoc]
            exact hz
          rcases mem_append.1 hz' with hz | hz
          · exact mem_append_left _ (hpush.mem_iff.2 hz)
          · exact mem_append_right _ hz
      · intro y hy
        rcases mem_append.1 hy with hy | hy
        · exact ⟨x, by simp, .single ((hfirst y).1 hy)⟩
        · obtain ⟨z, hz, hreach⟩ := hdone.reached y hy
          have hwider : ReflTransGen (Step next found) z y :=
            .mono
              (fun _ _ h => ⟨h.1, fun hf => h.2 (mem_append_left _ hf)⟩) z y hreach
          rcases mem_append.1 (hpush.mem_iff.1 hz) with hz | hz
          · exact ⟨z, mem_cons_of_mem _ hz, hwider⟩
          · exact ⟨x, by simp, .head ((hfirst z).1 hz) hwider⟩

/-- A search from some elements lists them first, and then everything else that they reach once. -/
structure Lists (step : α → α → Prop) (starts found : List α) : Prop where
  first : ∃ new, found = starts ++ new
  nodup : found.Nodup
  mem_iff : ∀ y, y ∈ found ↔ ∃ x ∈ starts, ReflTransGen step x y

variable {next : α → List α} {bound : Nat}

theorem lists_run (discipline : Discipline) (hnext : ∀ x, ∀ y ∈ next x, y ∈ domain)
    (hbound : domain.length ≤ bound) {starts : List α} (hstarts : starts.Nodup) :
    Lists (fun x y => y ∈ next x) starts
      (run discipline next (starts.length + bound) starts starts []).found := by
  obtain ⟨new, hdone⟩ := run_spec discipline next hnext (starts.length + bound) starts starts []
    (by have := length_fresh_le starts domain; omega)
  rw [hdone.found_eq]
  refine ⟨⟨new, rfl⟩, hstarts.append hdone.nodup fun y hy hn => hdone.not_found y hn hy, fun y => ⟨?_, ?_⟩⟩
  · intro hy
    obtain ⟨x, hx, hreach⟩ := hdone.mem_iff.1 hy
    exact ⟨x, hx, .mono (fun _ _ h => h.1) x y hreach⟩
  · rintro ⟨x, hx, hreach⟩
    induction hreach with
    | refl => exact mem_append_left _ hx
    | tail _ hstep ih => exact hdone.closed _ ih _ hstep

theorem mem_reach_iff (hnext : ∀ x, ∀ y ∈ next x, y ∈ domain) (hbound : domain.length ≤ bound)
    {starts : List α} {y : α} :
    y ∈ reach next bound starts ↔ ∃ x ∈ starts, ReflTransGen (fun a b => b ∈ next a) x y := by
  refine ((lists_run .queue hnext hbound (nodup_fresh [] starts)).mem_iff y).trans ?_
  simp only [mem_fresh, not_mem_nil, not_false_eq_true, and_true]

/-- What a search expands that starts anew and may not enter `skip`: what its starts reach, as far
as it is not cut off by what is skipped. -/
structure Swept (next : α → List α) (skip starts swept : List α) : Prop where
  nodup : swept.Nodup
  not_skipped : ∀ y ∈ swept, y ∉ skip
  reached : ∀ y ∈ swept, ∃ x ∈ starts, ReflTransGen (fun a b => b ∈ next a) x y
  starts_mem : ∀ x ∈ starts, x ∈ skip ++ swept
  closed : ∀ x ∈ swept, ∀ y ∈ next x, y ∈ skip ++ swept

/-- A search that may not enter `skip` sweeps what its starts reach. -/
theorem run_swept (discipline : Discipline) (hnext : ∀ x, ∀ y ∈ next x, y ∈ domain)
    (hbound : domain.length ≤ bound) (skip starts : List α) :
    Swept next skip starts (run discipline next ((fresh skip starts).length + bound)
      (fresh skip starts) (skip ++ fresh skip starts) []).visited := by
  have hfirst : ∀ x, x ∈ fresh skip starts ↔ x ∈ starts ∧ x ∉ skip := fun x => mem_fresh
  generalize hfresh : fresh skip starts = first at hfirst
  have hnodup : first.Nodup := hfresh ▸ nodup_fresh skip starts
  obtain ⟨new, hdone⟩ := run_spec discipline next hnext (first.length + bound) first
    (skip ++ first) [] (by have := length_fresh_le (skip ++ first) domain; omega)
  have hvisited := hdone.visited_perm
  rw [nil_append] at hvisited
  have hclosed : ∀ {y : α}, y ∈ skip ++ first ++ new →
      y ∈ skip ++ (run discipline next (first.length + bound) first (skip ++ first) []).visited := by
    intro y hy
    rw [append_assoc] at hy
    rcases mem_append.1 hy with hy | hy
    · exact mem_append_left _ hy
    · exact mem_append_right _ (hvisited.mem_iff.2 hy)
  constructor
  · refine hvisited.nodup_iff.2 (hnodup.append hdone.nodup ?_)
    intro y hy hn
    exact hdone.not_found y hn (mem_append_right _ hy)
  · intro y hy
    rcases mem_append.1 (hvisited.mem_iff.1 hy) with hy | hy
    · exact ((hfirst y).1 hy).2
    · exact fun hs => hdone.not_found y hy (mem_append_left _ hs)
  · intro y hy
    obtain ⟨x, hx, hreach⟩ := hdone.mem_iff.1 (hvisited.mem_iff.1 hy)
    exact ⟨x, ((hfirst x).1 hx).1, .mono (fun _ _ h => h.1) x y hreach⟩
  · intro x hx
    refine hclosed (mem_append_left _ ?_)
    by_cases hs : x ∈ skip
    · exact mem_append_left _ hs
    · exact mem_append_right _ ((hfirst x).2 ⟨hx, hs⟩)
  · intro x hx y hy
    exact hclosed (hdone.closed x (hvisited.mem_iff.1 hx) y hy)

end Search

end ProgramDependence
