import ProgramDependence.Proofs.BackwardClosure

/-!
# Slices by name

A criterion that gives its variable by name means every variable of that name, so it accepts more
than one that gives the variable itself.  With that a node that only uses the variable may turn out
to define another one of its name, and the slice becomes one on a definition.  Either way the slice
by name has everything that the slice on the variable has, and it has nothing else if the name is
not used for another variable at the node (`of_named_contains`).
-/

namespace ProgramDependence

open List Relation Tracked

namespace Slice

variable {source : Graph} {c : Criterion} {n : Node} {s t : Subject}

/-- Which nodes are in the slice on a criterion. -/
def HasNode (source : Graph) (c : Criterion) (id : Id) : Prop :=
  if c.isDefined then ReflTransGen (source.Arrow isFollowed) id c.node.id
  else c.isUsed = true ∧ (id = c.node.id ∨ Behind source c (source.edgesInto c.node.id) id)

/-- Which edges are in the slice on a criterion. -/
def HasEdge (source : Graph) (c : Criterion) (e : Edge) : Prop :=
  if c.isDefined then isFollowed e = true ∧ ReflTransGen (source.Arrow isFollowed) e.dst c.node.id
  else c.isUsed = true ∧ (isFollowed e = true ∧ Behind source c (source.edgesInto c.node.id) e.dst ∨
    e.dst = c.node.id ∧ carries c e = true)

theorem build_spec (hsource : source.Coherent) (hdep : ∀ e ∈ source.edges, e.isDependence = true)
    (hc : c.node ∈ source.nodes) : ∃ part notices, build source c = (.ok part, notices) ∧
      (∀ m, m ∈ part.nodes ↔ m ∈ source.nodes ∧ HasNode source c m.id) ∧
      ∀ e, e ∈ part.edges ↔ e ∈ source.edges ∧ HasEdge source c e := by
  unfold HasNode HasEdge
  cases hdefined : c.isDefined with
  | true =>
    obtain ⟨part, hbuild, hclosure⟩ := build_of_definition hsource hc hdefined
    exact ⟨part, [], hbuild, by simpa using hclosure.nodes, by simpa using hclosure.edges⟩
  | false =>
    cases hused : c.isUsed with
    | true =>
      obtain ⟨part, hbuild, hpart⟩ := build_of_use hsource hdep hc hdefined hused
      exact ⟨part, [], hbuild, by simpa using hpart.nodes, by simpa using hpart.mem_edges_iff hsource⟩
    | false =>
      obtain ⟨notices, hbuild⟩ : ∃ notices, build source c = (.ok (.empty .slice), notices) := by
        simp [build, hasNode_of_mem hc, hdefined, hused]
      exact ⟨_, notices, hbuild, by simp [Graph.empty], by simp [Graph.empty]⟩

theorem returns_of {σ : Type} {part : Graph} {notices : List Notice}
    (hbuild : build source c = (.ok part, notices)) (p : σ × Trail) :
    Returns (Slice.of source c) p fun s _ => s.nodes = part.nodes ∧
    s.edges = part.edges := by
  simp only [Slice.of, hbuild, ends_bind]
  refine (ends_forIn (fun _ _ => True) (fun _ _ _ _ => ?_) trivial).imp fun _ _ _ => ?_
  · exact trivial
  · exact ⟨rfl, rfl⟩

/-- The variables that decide what is in the slices on a node. -/
def mentioned (source : Graph) (n : Node) : List Variable :=
  n.defs ++ n.uses ++ (source.edgesInto n.id).filterMap (·.var?)

theorem isFollowed_of_carries {e : Edge} (h : carries c e = true) : isFollowed e = true := by
  unfold carries at h
  unfold isFollowed
  cases he : e.dependenceSort? with
  | none => simp [he] at h
  | some sort => cases sort <;> simp_all
    [DependenceSort.isDefUse, DependenceSort.isParameter, DependenceSort.isData]

section Wider

variable (hwider : ∀ w ∈ mentioned source n, s.isMet w = true → t.isMet w = true)
include hwider

theorem isDefined_wider (h : (Criterion.mk n s).isDefined = true) : (Criterion.mk n t).isDefined = true := by
  obtain ⟨w, hw, hmet⟩ := any_eq_true.1 h
  exact any_eq_true.2 ⟨w, hw, hwider w (mem_append_left _ (mem_append_left _ hw)) hmet⟩

theorem isUsed_wider (h : (Criterion.mk n s).isUsed = true) : (Criterion.mk n t).isUsed = true := by
  obtain ⟨w, hw, hmet⟩ := any_eq_true.1 h
  exact any_eq_true.2 ⟨w, hw, hwider w (mem_append_left _ (mem_append_right _ hw)) hmet⟩

theorem carries_wider {e : Edge} (he : e ∈ source.edgesInto n.id) (h : carries ⟨n, s⟩ e = true) :
    carries ⟨n, t⟩ e = true := by
  rw [carries, Bool.and_eq_true] at h ⊢
  refine ⟨h.1, ?_⟩
  obtain ⟨w, hw, hmet⟩ := (Option.any_eq_true _ _).1 h.2
  exact (Option.any_eq_true _ _).2
    ⟨w, hw, hwider w (mem_append_right _ (mem_filterMap.2 ⟨e, he, hw⟩)) hmet⟩

theorem behind_wider {id : Id} (h : Behind source ⟨n, s⟩ (source.edgesInto n.id) id) :
    Behind source ⟨n, t⟩ (source.edgesInto n.id) id := by
  obtain ⟨e, he, hcarries, hpath⟩ := h
  exact ⟨e, he, carries_wider hwider he hcarries, hpath⟩

omit hwider in
theorem behind_reaches (hsource : source.Coherent) {id : Id}
    (h : Behind source c (source.edgesInto c.node.id) id) :
    ReflTransGen (source.Arrow isFollowed) id c.node.id := by
  obtain ⟨e, he, hcarries, hpath⟩ := h
  obtain ⟨hmem, hdst⟩ := hsource.mem_edgesInto.1 he
  exact .tail (.mono (fun _ _ h => h.1) _ _ hpath) ⟨e, hmem, isFollowed_of_carries hcarries, rfl, hdst⟩

theorem hasNode_wider (hsource : source.Coherent) {id : Id} (h : HasNode source ⟨n, s⟩ id) :
    HasNode source ⟨n, t⟩ id := by
  unfold HasNode at h ⊢
  by_cases hdefined : (Criterion.mk n s).isDefined = true
  · rw [if_pos hdefined] at h
    rwa [if_pos (isDefined_wider hwider hdefined)]
  · rw [if_neg hdefined] at h
    split
    · rcases h.2 with rfl | hbehind
      · exact .refl
      · exact behind_reaches (c := ⟨n, s⟩) hsource hbehind
    · exact ⟨isUsed_wider hwider h.1, h.2.imp_right (behind_wider hwider)⟩

theorem hasEdge_wider (hsource : source.Coherent) {e : Edge} (he : e ∈ source.edges)
    (h : HasEdge source ⟨n, s⟩ e) : HasEdge source ⟨n, t⟩ e := by
  unfold HasEdge at h ⊢
  by_cases hdefined : (Criterion.mk n s).isDefined = true
  · rw [if_pos hdefined] at h
    rwa [if_pos (isDefined_wider hwider hdefined)]
  · rw [if_neg hdefined] at h
    split
    · rcases h.2 with ⟨hok, hbehind⟩ | ⟨hdst, hcarries⟩
      · exact ⟨hok, behind_reaches (c := ⟨n, s⟩) hsource hbehind⟩
      · exact ⟨isFollowed_of_carries hcarries, by rw [hdst]⟩
    · refine ⟨isUsed_wider hwider h.1, h.2.imp (.imp_right (behind_wider hwider)) fun hinto => ?_⟩
      exact ⟨hinto.1, carries_wider hwider (hsource.mem_edgesInto.2 ⟨he, hinto.1⟩) hinto.2⟩

end Wider

/-- **Slicing by name over-approximates slicing by variable.**  The two slices have the same nodes
and edges if all variables of the name at the node are the variable. -/
theorem of_named_contains {σ τ : Type} (hsource : source.Coherent)
    (hdep : ∀ e ∈ source.edges, e.isDependence = true)
    (hn : n ∈ source.nodes) (v : Variable) (p : σ × Trail) (q : τ × Trail) :
    Returns (Slice.of source ⟨n, .exactly v⟩) p fun s _ =>
    Returns (Slice.of source ⟨n, .named v.name⟩) q fun t _ =>
      s.nodes ⊆ t.nodes ∧ s.edges ⊆ t.edges ∧
      ((∀ w ∈ mentioned source n, w.name = v.name → w.same v = true) → t.nodes ⊆ s.nodes ∧
      t.edges ⊆ s.edges) := by
  have hcontains : ∀ {s t : Subject} {a b : Graph},
      (∀ w ∈ mentioned source n, s.isMet w = true → t.isMet w = true) →
      (∀ m, m ∈ a.nodes ↔ m ∈ source.nodes ∧ HasNode source ⟨n, s⟩ m.id) →
      (∀ e, e ∈ a.edges ↔ e ∈ source.edges ∧ HasEdge source ⟨n, s⟩ e) →
      (∀ m, m ∈ b.nodes ↔ m ∈ source.nodes ∧ HasNode source ⟨n, t⟩ m.id) →
      (∀ e, e ∈ b.edges ↔ e ∈ source.edges ∧ HasEdge source ⟨n, t⟩ e) →
      a.nodes ⊆ b.nodes ∧ a.edges ⊆ b.edges := by
    intro s t a b hwider hnodes hedges hnodes' hedges'
    constructor
    · intro m hm
      obtain ⟨hmem, hhas⟩ := (hnodes m).1 hm
      exact (hnodes' m).2 ⟨hmem, hasNode_wider hwider hsource hhas⟩
    · intro e he
      obtain ⟨hmem, hhas⟩ := (hedges e).1 he
      exact (hedges' e).2 ⟨hmem, hasEdge_wider hwider hsource hmem hhas⟩
  obtain ⟨a, _, hbuild, hnodes, hedges⟩ := build_spec (c := ⟨n, .exactly v⟩) hsource hdep hn
  obtain ⟨b, _, hbuild', hnodes', hedges'⟩ := build_spec (c := ⟨n, .named v.name⟩) hsource hdep hn
  refine (returns_of hbuild p).imp fun s _ hs => (returns_of hbuild' q).imp fun t _ ht => ?_
  rw [hs.1, hs.2, ht.1, ht.2]
  have hname : ∀ w : Variable, w.same v = true → w.name = v.name := fun w h =>
    congrArg VariableIdentity.name (Variable.same_iff.1 h)
  obtain ⟨hsub, hsub'⟩ := hcontains (s := .exactly v) (t := .named v.name)
    (fun w _ h => decide_eq_true (hname w h)) hnodes hedges hnodes' hedges'
  refine ⟨hsub, hsub', fun hsame => ?_⟩
  exact hcontains (s := .named v.name) (t := .exactly v)
    (fun w hw h => hsame w hw (of_decide_eq_true h)) hnodes' hedges' hnodes hedges

/-- At the condition of the counting loop the counter has no namesake. -/
theorem countingLoop_slice_named : countingLoop.Coherent ∧
    (∀ e ∈ countingLoop.edges, e.isDependence = true) ∧ condition ∈ countingLoop.nodes ∧
    Returns (Slice.of countingLoop ⟨condition, .exactly { name := "i" }⟩) ((), { next := 7 }) fun s _ =>
      Returns (Slice.of countingLoop ⟨condition, .named "i"⟩) ((), { next := 7 }) fun t _ =>
        s.nodes ⊆ t.nodes ∧ t.nodes ⊆ s.nodes := by
  refine ⟨coherent_countingLoop, by decide, condition_mem, ?_⟩
  refine (of_named_contains coherent_countingLoop (by decide) condition_mem { name := "i" }
    ((), { next := 7 }) ((), { next := 7 })).imp fun s _ h => h.imp fun t _ h => ?_
  exact ⟨h.1, (h.2.2 (by decide)).1⟩

end Slice

end ProgramDependence
