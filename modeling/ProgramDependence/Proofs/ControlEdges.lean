import ProgramDependence.Proofs.KnownForms
import ProgramDependence.Proofs.PostDominance
import ProgramDependence.Proofs.Shape
import ProgramDependence.Proofs.Traversal

/-!
# Control dependence in terms of paths

A node depends on an edge that leaves a branch iff it post-dominates the target of the edge but not
the branch.  With the arguments and results of calls, what post-dominates the successor of the
entry, and what no true or false branch and no call controls, these are all control dependences of a
unit, each drawn once (`Pdg.built_controlExact`).  The construction finds them by climbing the tree
of immediate post-dominators.
-/

namespace ProgramDependence

open List Findings NodeSort Edge
variable {context : Context} {σ : Type}

namespace NodeSort

variable {s : NodeSort}

theorem isStatement_of_forks (h : s.forks = true) : s.isStatement = true := by
  cases s with
  | statement _ => rfl
  | _ => cases h

theorem isStatement_of_jumps (h : s.jumps = true) : s.isStatement = true := by
  cases s with
  | statement _ => rfl
  | _ => cases h

theorem isStatement_of_isCall (h : s.isCall = true) : s.isStatement = true := by
  cases s with
  | statement _ => rfl
  | _ => cases h

theorem isDependenceNode_of_isStatement (h : s.isStatement = true) : s.isDependenceNode = true := by
  simp [isDependenceNode, h]

theorem isDependenceNode_of_isParameter (h : s.isParameter = true) : s.isDependenceNode = true := by
  simp [isDependenceNode, h]

theorem isExit_of_isDependenceNode (h : s.isDependenceNode = true) : s.isExit = false := by
  cases s with
  | exit _ => cases h
  | _ => rfl

end NodeSort

/-! ## The nodes of a dependence graph -/

namespace Pdg

theorem mem_nodeIds_foldl_appendNode (ns : List Node) {g : Graph} {id : Id} :
    id ∈ (ns.foldl (fun g n => if g.hasNode n.id then g else g.appendNode n) g).nodeIds ↔
      id ∈ g.nodeIds ∨ ∃ n ∈ ns, n.id = id := by
  induction ns generalizing g with
  | nil => simp
  | cons n ns ih =>
    rw [foldl_cons, ih, exists_mem_cons_iff]
    by_cases hn : g.hasNode n.id = true
    · have hmem := (Graph.hasNode_iff g n.id).1 hn
      simp only [hn]
      constructor
      · rintro (h | h)
        · exact .inl h
        · exact .inr (.inr h)
      · rintro (h | rfl | h)
        · exact .inl h
        · exact .inl hmem
        · exact .inr h
    · have hmem : id ∈ (g.appendNode n).nodeIds ↔ id ∈ g.nodeIds ∨ n.id = id := by
        simp [Graph.nodeIds, Graph.appendNode, eq_comm]
      rw [if_neg hn, hmem, or_assoc]

theorem mem_nodeIds_nodesOf {c : Cfg} {id : Id} : id ∈ (nodesOf c).nodeIds ↔
    id = c.entry.id ∨ ∃ n ∈ c.nodes, n.sort.isDependenceNode = true ∧ n.id = id := by
  rw [nodesOf, mem_nodeIds_foldl_appendNode]
  simp [Graph.nodeIds, Graph.appendNode, Graph.empty, and_assoc]

end Pdg

namespace Cfg.Realizes

variable {c : Cfg} {u : Plan}

theorem token_eq_exit (h : c.Realizes u) {n : Node} (hn : n ∈ c.nodes) (hid : n.id = c.exit.id) :
    n.token = u.exit := by
  have hmem : n.token ∈ u.nodes := h.tokens_perm.mem_iff.1 (mem_map_of_mem hn)
  have hexit : u.exit ∈ u.nodes := by simp [Plan.nodes]
  exact inj_on_of_nodup_map h.nodup hmem hexit (hid.trans h.exit_id)

theorem entry_ne_exit (h : c.Realizes u) : c.entry.id ≠ c.exit.id := by
  have hnodup := h.nodup
  rw [Plan.nodes, map_cons, nodup_cons] at hnodup
  rw [h.entry_id, h.exit_id]
  intro heq
  exact hnodup.1 (heq ▸ mem_map_of_mem (by simp))

theorem exit_not_mem_nodesOf (h : c.Realizes u) (hfits : u.Fits) : c.exit.id ∉ (Pdg.nodesOf c).nodeIds := by
  rw [Pdg.mem_nodeIds_nodesOf]
  rintro (heq | ⟨n, hn, hsort, hid⟩)
  · exact h.entry_ne_exit heq.symm
  · exact ne_exit hfits (isExit_of_isDependenceNode hsort) (h.token_eq_exit hn hid)

theorem length_sortsOut (c : Cfg) (id : Id) : (c.sortsOut id).length = (c.edgesOutOf id).length :=
  length_map _

theorem isStatement_of_branch (h : c.Realizes u) (hfits : u.Fits) {n : Node} (hn : n ∈ c.nodes)
    (hbranch : 1 < (c.edgesOutOf n.id).length) : n.sort.isStatement = true := by
  have hshaped := h.shaped hfits
  rw [← length_sortsOut] at hbranch
  by_cases hforks : n.sort.forks = true
  · exact isStatement_of_forks hforks
  by_cases hjumps : n.sort.jumps = true
  · exact isStatement_of_jumps hjumps
  have hne : n.id ≠ c.exit.id := by
    intro heq
    rw [heq, hshaped.exit] at hbranch
    simp at hbranch
  rw [Bool.not_eq_true] at hforks hjumps
  rcases hshaped.others n hn hne hforks hjumps with hsorts | hsorts
  · simp [hsorts] at hbranch
  · simp [hsorts] at hbranch

theorem edgesOutOf_entry (h : c.Realizes u) (hfits : u.Fits) : ∃ e, c.edgesOutOf c.entry.id = [e] := by
  have hsort : c.entry.sort.isEntry = true := by
    rw [show c.entry.sort = u.entry.label.sort from congrArg (·.label.sort) h.entry_eq]
    exact hfits.entry
  have hpass : c.entry.sort.forks = false ∧ c.entry.sort.jumps = false := by
    cases hs : c.entry.sort with
    | entry _ => exact ⟨rfl, rfl⟩
    | _ =>
      rw [hs] at hsort
      cases hsort
  refine length_eq_one_iff.1 ?_
  rw [← length_sortsOut]
  rcases (h.shaped hfits).others c.entry h.entry_mem h.entry_ne_exit hpass.1 hpass.2 with hsorts | hsorts
  · rw [hsorts]
    rfl
  · rw [hsorts]
    rfl

theorem leadsOut_dst (h : c.Realizes u) {e : Edge} (he : e ∈ c.edges) :
    Relation.ReflTransGen c.Flow e.dst c.exit.id :=
  h.leadsOut e.dst (h.coherent.dst_mem e he)

end Cfg.Realizes

/-- A flow graph that realizes a plan that fits, in which what a node lists are parameters of its
own. -/
structure Cfg.Proper (c : Cfg) (u : Plan) : Prop extends c.Realizes u where
  fits : u.Fits
  owned : ∀ k ∈ c.nodes, ∀ i ∈ k.payload.listed, Owned c.nodes i k.id

namespace ControlDependence

variable {settings : Settings} {c : Cfg} {u : Plan} {ids : List Id} {l : Link}

/-! ## The four sorts of control dependence -/

/-- A branch controls the node: the node post-dominates the target of one of its edges, and not the
branch. -/
structure OfBranch (settings : Settings) (c : Cfg) (ids : List Id) (l : Link) : Prop where
  branch : l.src ≠ c.entry.id ∧ 1 < (c.edgesOutOf l.src).length
  target : l.dst ∈ ids ∧ l.dst ≠ l.src
  edge : ∃ e ∈ c.edgesOutOf l.src, e.flowSort?.map sortOf = some l.sort ∧
    PostDominates c.Flow c.exit.id l.dst e.dst
  partially : ¬ PostDominates c.Flow c.exit.id l.dst l.src
  wanted : l.sort = .controlFall → settings.excludeFallThroughCd.truthy = false

/-- A call controls its arguments and results. -/
def OfCall (c : Cfg) (l : Link) : Prop :=
  ∃ n ∈ c.callNodes, ∃ m ins outs x, n.payload = .call m ins outs x ∧
    l.src = n.id ∧ l.dst ∈ ins ++ outs ∧ l.sort = .controlTrue

/-- The entry controls what is always executed: the node post-dominates the successor of the entry. -/
structure OfEntry (c : Cfg) (ids : List Id) (l : Link) : Prop where
  src_eq : l.src = c.entry.id
  target : l.dst ∈ ids ∧ l.dst ≠ c.entry.id
  always : ∃ e ∈ c.edgesOutOf c.entry.id, PostDominates c.Flow c.exit.id l.dst e.dst
  sort_eq : l.sort = .controlTrue

/-- Whether a true or false dependence on a branch or a call leads to the node. -/
def Controlled (settings : Settings) (c : Cfg) (ids : List Id) (n : Id) : Prop :=
  ∃ l : Link, l.dst = n ∧ (l.sort = .controlTrue ∨ l.sort = .controlFalse) ∧
    (OfBranch settings c ids l ∨ OfCall c l)

/-- The entry controls the other nodes that no true or false branch and no call controls. -/
structure Left (settings : Settings) (c : Cfg) (ids : List Id) (l : Link) : Prop where
  src_eq : l.src = c.entry.id
  target : l.dst ∈ ids ∧ l.dst ≠ c.entry.id
  other : ¬ OfEntry c ids l
  free : ¬ Controlled settings c ids l.dst
  sort_eq : l.sort = .controlTrue

/-! ## Branches -/

variable {g : Graph} {n : Id} {ls : List Link}

theorem isBranch_iff : g.isBranch n = true ↔ 1 < (g.edgesOutOf n).length := by
  rw [Graph.isBranch, Graph.outDegree, decide_eq_true_eq]

/-- Climbing stops at the post-dominators of the branch. -/
theorem mem_wayUp_of_branch (h : c.Realizes u) {e : Edge} {m : Id} (he : e ∈ c.edgesOutOf n)
    (hne : m ≠ n) : m ∈ wayUp c c.postDominatorTree (c.postDominatorTree.find? n) e.dst ↔
      PostDominates c.Flow c.exit.id m e.dst ∧ m ≠ c.exit.id ∧ ¬ PostDominates c.Flow c.exit.id m n := by
  have hc := h.coherent
  obtain ⟨hmem, rfl⟩ := hc.mem_edgesOutOf.1 he
  have hreach : Relation.ReflTransGen c.Flow e.src c.exit.id := h.leadsOut e.src (hc.src_mem e hmem)
  have hexit : e.src ≠ c.exit.id := by
    intro heq
    have hnone := h.sortsOut_exit
    rw [Cfg.sortsOut, ← heq, map_eq_nil_iff] at hnone
    rw [hnone] at he
    cases he
  obtain ⟨d, hd⟩ := exists_immediatelyPostDominates hreach hexit
  have hstep : c.Flow e.src e.dst := ⟨e, hmem, rfl, rfl, rfl⟩
  rw [(c.postDominatorTable.find hreach hexit).2 hd, mem_wayUp c.postDominatorTable (h.leadsOut_dst hmem)]
  · simp only [Option.mem_some_iff, forall_eq']
    -- A node other than the branch post-dominates the branch iff it does so from the next one on.
    have hiff : PostDominates c.Flow c.exit.id m d ↔ PostDominates c.Flow c.exit.id m e.src :=
      ⟨fun hm => hm.trans hd.dominates, hd.nearest m hne⟩
    rw [hiff]
  · intro s hs
    rw [← Option.some.inj hs]
    exact hd.dominates.of_step hd.ne hstep

theorem mem_ofBranchEdge {tree : Table Id Id} {e : Edge} :
    l ∈ (ofBranchEdge c tree n e).found ↔ l.src = n ∧ l.dst ∈ wayUp c tree (tree.find? n) e.dst ∧
      e.flowSort?.map sortOf = some l.sort := by
  obtain ⟨src, dst, sort⟩ := l
  have hlist : ∀ s : FlowSort, (⟨src, dst, sort⟩ : Link) ∈
      (wayUp c tree (tree.find? n) e.dst).map (fun m => ⟨n, m, sortOf s⟩) ↔
        src = n ∧ dst ∈ wayUp c tree (tree.find? n) e.dst ∧ some (sortOf s) = some sort := by
    intro s
    simp only [mem_map, Link.mk.injEq, Option.some.injEq]
    constructor
    · rintro ⟨m, hm, rfl, rfl, rfl⟩
      exact ⟨rfl, hm, rfl⟩
    · rintro ⟨rfl, hdst, rfl⟩
      exact ⟨dst, hdst, rfl, rfl, rfl⟩
  unfold ofBranchEdge flowSort?
  cases e.label with
  | plain s => exact hlist s
  | flow s _ => exact hlist s
  | dependence s _ _ =>
    simp only [Option.map_none, reduceCtorEq, and_false, iff_false]
    split <;> simp [breakOff]

/-- What is found for branches is what post-dominance says. -/
theorem mem_ofBranches (h : c.Realizes u) (hfault : (ofBranches c c.postDominatorTree).fault = none)
    (hexit : l.dst ≠ c.exit.id) (hne : l.dst ≠ l.src) : l ∈ (ofBranches c c.postDominatorTree).found ↔
      (l.src ≠ c.entry.id ∧ 1 < (c.edgesOutOf l.src).length) ∧
        (∃ e ∈ c.edgesOutOf l.src, e.flowSort?.map sortOf = some l.sort ∧
        PostDominates c.Flow c.exit.id l.dst e.dst) ∧ ¬ PostDominates c.Flow c.exit.id l.dst l.src := by
  unfold ofBranches at hfault ⊢
  rw [fault_overAll] at hfault
  rw [found_overAll hfault, mem_flatMap]
  have hinner : ∀ n ∈ c.nodeIds.filter (fun n => n ≠ c.entry.id && c.isBranch n),
      (l ∈ (overAll (ofBranchEdge c c.postDominatorTree n) (c.edgesOutOf n)).found ↔
        l.src = n ∧ ∃ e ∈ c.edgesOutOf l.src, e.flowSort?.map sortOf = some l.sort ∧
          PostDominates c.Flow c.exit.id l.dst e.dst ∧
          ¬ PostDominates c.Flow c.exit.id l.dst l.src) := by
    intro n hn
    rw [found_overAll ((fault_overAll _ _).1 (hfault n hn)), mem_flatMap]
    constructor
    · rintro ⟨e, he, hl⟩
      obtain ⟨rfl, hway, hsort⟩ := mem_ofBranchEdge.1 hl
      obtain ⟨hdom, -, hnot⟩ := (mem_wayUp_of_branch h he hne).1 hway
      exact ⟨rfl, e, he, hsort, hdom, hnot⟩
    · rintro ⟨rfl, e, he, hsort, hdom, hnot⟩
      exact ⟨e, he, mem_ofBranchEdge.2 ⟨rfl, (mem_wayUp_of_branch h he hne).2 ⟨hdom, hexit, hnot⟩, hsort⟩⟩
  constructor
  · rintro ⟨n, hn, hl⟩
    obtain ⟨rfl, e, he, hsort, hdom, hnot⟩ := (hinner n hn).1 hl
    obtain ⟨-, hbranch⟩ := mem_filter.1 hn
    rw [Bool.and_eq_true, decide_eq_true_eq, isBranch_iff] at hbranch
    exact ⟨hbranch, ⟨e, he, hsort, hdom⟩, hnot⟩
  · rintro ⟨⟨hentry, hbranch⟩, ⟨e, he, hsort, hdom⟩, hnot⟩
    obtain ⟨hmem, hsrc⟩ := h.coherent.mem_edgesOutOf.1 he
    have hn : l.src ∈ c.nodeIds.filter (fun n => n ≠ c.entry.id && c.isBranch n) := by
      refine mem_filter.2 ⟨hsrc ▸ h.coherent.src_mem e hmem, ?_⟩
      rw [Bool.and_eq_true, decide_eq_true_eq, isBranch_iff]
      exact ⟨hentry, hbranch⟩
    exact ⟨l.src, hn, (hinner _ hn).2 ⟨rfl, e, he, hsort, hdom, hnot⟩⟩

/-! ## Calls and the entry -/

theorem mem_ofCall {call : Node} : l ∈ (ofCall call).found ↔ ∃ m ins outs x,
    call.payload = .call m ins outs x ∧ l.src = call.id ∧ l.dst ∈ ins ++ outs ∧ l.sort = .controlTrue := by
  obtain ⟨src, dst, sort⟩ := l
  unfold ofCall
  cases call.payload with
  | call m ins outs x =>
    simp only [found_ofList, mem_map, Link.mk.injEq, Payload.call.injEq]
    constructor
    · rintro ⟨i, hi, rfl, rfl, rfl⟩
      exact ⟨m, ins, outs, x, ⟨rfl, rfl, rfl, rfl⟩, rfl, hi, rfl⟩
    · rintro ⟨_, _, _, _, ⟨rfl, rfl, rfl, rfl⟩, rfl, hi, rfl⟩
      exact ⟨dst, hi, rfl, rfl, rfl⟩
  | _ => simp [breakOff]

theorem mem_ofEntry (h : c.Realizes u) (hexit : l.dst ≠ c.exit.id) :
    l ∈ ofEntry c c.postDominatorTree ↔ l.src = c.entry.id ∧ l.sort = .controlTrue ∧
      ∃ e ∈ c.edgesOutOf c.entry.id, PostDominates c.Flow c.exit.id l.dst e.dst := by
  obtain ⟨src, dst, sort⟩ := l
  have hway : ∀ e ∈ c.edgesOutOf c.entry.id,
      (dst ∈ wayUp c c.postDominatorTree none e.dst ↔ PostDominates c.Flow c.exit.id dst e.dst) := by
    intro e he
    rw [mem_wayUp c.postDominatorTable (h.leadsOut_dst (h.coherent.mem_edgesOutOf.1 he).1) (by simp)]
    simp [show dst ≠ c.exit.id from hexit]
  simp only [ofEntry, mem_flatMap, mem_map, Link.mk.injEq]
  constructor
  · rintro ⟨e, he, m, hm, rfl, rfl, rfl⟩
    exact ⟨rfl, rfl, e, he, (hway e he).1 hm⟩
  · rintro ⟨rfl, rfl, e, he, hdom⟩
    exact ⟨e, he, dst, (hway e he).2 hdom, rfl, rfl, rfl⟩

theorem OfCall.ends_mem (h : c.Proper u) (hl : OfCall c l) :
    l.src ∈ (Pdg.nodesOf c).nodeIds ∧ l.dst ∈ (Pdg.nodesOf c).nodeIds ∧ l.dst ≠ l.src := by
  obtain ⟨n, hn, m, ins, outs, x, hpayload, hsrc, hdst, -⟩ := hl
  obtain ⟨hmem, hcall⟩ := mem_filter.1 hn
  obtain ⟨k, hk, hid, hparameter, -⟩ := (h.owned n hmem l.dst (by rw [hpayload]; exact hdst)).exists_node
  have hstatement := isStatement_of_isCall hcall
  rw [Pdg.mem_nodeIds_nodesOf, Pdg.mem_nodeIds_nodesOf]
  refine ⟨.inr ⟨n, hmem, isDependenceNode_of_isStatement hstatement, hsrc.symm⟩,
    .inr ⟨k, hk, isDependenceNode_of_isParameter hparameter, hid⟩, fun heq => ?_⟩
  have hsame : k = n := inj_on_of_nodup_map h.coherent.nodup_nodes hk hmem
    (by rw [hid, heq, hsrc])
  rw [hsame] at hparameter
  cases hs : n.sort with
  | statement _ =>
    rw [hs] at hparameter
    cases hparameter
  | _ =>
    rw [hs] at hstatement
    cases hstatement

/-! ## All of them -/

theorem isKept_iff : isKept settings g l = true ↔ l.dst ≠ l.src ∧ l.dst ∈ g.nodeIds ∧ l.src ∈ g.nodeIds ∧
      (l.sort = .controlFall → settings.excludeFallThroughCd.truthy = false) := by
  simp only [isKept, Bool.and_eq_true, decide_eq_true_eq, Graph.hasNode_iff, Bool.not_eq_true',
    Bool.and_eq_false_imp, and_assoc, ne_comm]

theorem mem_structural_parts (hfault : (structural settings g c).fault = none) :
    (ofBranches c c.postDominatorTree).fault = none ∧
    (l ∈ (structural settings g c).found ↔ (l ∈ (ofBranches c c.postDominatorTree).found ∨ OfCall c l ∨
      l ∈ ofEntry c c.postDominatorTree) ∧ isKept settings g l = true) := by
  rw [mem_structural]
  simp only [structural, fault_select, fault_append] at hfault
  obtain ⟨⟨hbranches, hcalls⟩, -⟩ := hfault
  refine ⟨hbranches, and_congr_left fun _ => ?_⟩
  rw [found_append (by rw [fault_append]; exact ⟨hbranches, hcalls⟩),
    found_append hbranches, found_overAll ((fault_overAll _ _).1 hcalls),
    mem_append, mem_append, mem_flatMap, or_assoc]
  refine or_congr_right (or_congr_left ?_)
  exact exists_congr fun n => and_congr_right fun _ => mem_ofCall

/-- Three sorts of control dependence are found exactly. -/
theorem mem_structural_iff (h : c.Proper u) (hfault : (structural settings (Pdg.nodesOf c) c).fault = none) :
    l ∈ (structural settings (Pdg.nodesOf c) c).found ↔ OfBranch settings c (Pdg.nodesOf c).nodeIds l ∨
        OfCall c l ∨ OfEntry c (Pdg.nodesOf c).nodeIds l := by
  obtain ⟨hbranches, hparts⟩ := mem_structural_parts (l := l) hfault
  have hexit : l.dst ∈ (Pdg.nodesOf c).nodeIds → l.dst ≠ c.exit.id :=
    fun hmem heq => h.exit_not_mem_nodesOf h.fits (heq ▸ hmem)
  rw [hparts, isKept_iff]
  constructor
  · rintro ⟨hl, hne, hdst, hsrc, hwanted⟩
    rcases hl with hl | hl | hl
    · obtain ⟨hbranch, hedge, hnot⟩ := (mem_ofBranches h.toRealizes hbranches (hexit hdst) hne).1 hl
      exact .inl ⟨hbranch, ⟨hdst, hne⟩, hedge, hnot, hwanted⟩
    · exact .inr (.inl hl)
    · obtain ⟨hentry, hsort, halways⟩ := (mem_ofEntry h.toRealizes (hexit hdst)).1 hl
      exact .inr (.inr ⟨hentry, ⟨hdst, hentry ▸ hne⟩, halways, hsort⟩)
  · rintro (hl | hl | hl)
    · obtain ⟨hdst, hne⟩ := hl.target
      refine ⟨.inl
        ((mem_ofBranches h.toRealizes hbranches (hexit hdst) hne).2 ⟨hl.branch, hl.edge, hl.partially⟩),
        hne, hdst, ?_, hl.wanted⟩
      obtain ⟨e, he, -⟩ := hl.edge
      obtain ⟨hmem, hsrc⟩ := h.coherent.mem_edgesOutOf.1 he
      obtain ⟨n, hn, hid⟩ := mem_map.1 (h.coherent.src_mem e hmem)
      have hstatement := h.isStatement_of_branch h.fits hn (by rw [hid, hsrc]; exact hl.branch.2)
      exact Pdg.mem_nodeIds_nodesOf.2 (.inr ⟨n, hn,
        isDependenceNode_of_isStatement hstatement, hid.trans hsrc⟩)
    · obtain ⟨hsrc, hdst, hne⟩ := hl.ends_mem h
      obtain ⟨_, _, _, _, _, _, _, _, _, hsort⟩ := id hl
      exact ⟨.inr (.inl hl), hne, hdst, hsrc, by simp [hsort]⟩
    · obtain ⟨hsrc, ⟨hdst, hne⟩, halways, hsort⟩ := hl
      refine ⟨.inr (.inr ((mem_ofEntry h.toRealizes (hexit hdst)).2 ⟨hsrc, hsort, halways⟩)), hsrc ▸ hne,
        hdst, ?_, by simp [hsort]⟩
      exact Pdg.mem_nodeIds_nodesOf.2 (.inl hsrc)

/-! ## What is left to the entry -/

theorem isControlled_iff (hg : g.Coherent) (h : g.edges.map joint = ls.map Link.joint) :
    isControlled g n = true ↔ ∃ l ∈ ls, l.dst = n ∧ (l.sort = .controlTrue ∨ l.sort = .controlFalse) := by
  let controls (j : Id × Id × EdgeLabel) : Prop :=
    let e : Edge := ⟨0, j.1, j.2.1, j.2.2⟩
    e.dst = n ∧ (e.isSort .controlTrue = true ∨ e.isSort .controlFalse = true)
  calc isControlled g n = true
      ↔ ∃ e ∈ g.edges, controls e.joint := by
        simp only [isControlled, any_eq_true, hg.mem_edgesInto, Bool.or_eq_true, and_assoc]
        rfl
    _ ↔ ∃ j ∈ g.edges.map joint, controls j := by simp
    _ ↔ ∃ j ∈ ls.map Link.joint, controls j := by rw [h]
    _ ↔ _ := by simp [controls, Link.joint, isSort, dependenceSort?]

/-- The entry gets what nothing else controls. -/
theorem mem_orphans (hg : g.Coherent) (hedges : g.edges.map joint = ls.map Link.joint)
    (hentry : c.entry.id ∈ g.nodeIds)
    (hls : ∀ l, l ∈ ls ↔ OfBranch settings c g.nodeIds l ∨ OfCall c l ∨ OfEntry c g.nodeIds l) :
    l ∈ orphans settings g c ls ↔ Left settings c g.nodeIds l := by
  have hcontrolled : ∀ n, isControlled g n = true ↔
      Controlled settings c g.nodeIds n ∨ OfEntry c g.nodeIds ⟨c.entry.id, n, .controlTrue⟩ := by
    intro n
    rw [isControlled_iff hg hedges]
    constructor
    · rintro ⟨l, hl, hdst, hsort⟩
      rcases (hls l).1 hl with hl | hl | hl
      · exact .inl ⟨l, hdst, hsort, .inl hl⟩
      · exact .inl ⟨l, hdst, hsort, .inr hl⟩
      · subst hdst
        exact .inr ⟨rfl, hl.target, hl.always, rfl⟩
    · rintro (⟨l, hdst, hsort, hl⟩ | hl)
      · exact ⟨l, (hls l).2 (hl.imp_right .inl), hdst, hsort⟩
      · exact ⟨_, (hls _).2 (.inr (.inr hl)), rfl, .inl rfl⟩
  obtain ⟨src, dst, sort⟩ := l
  rw [orphans, mem_filter, mem_map]
  constructor
  · rintro ⟨⟨n, hn, heq⟩, hkept⟩
    cases heq
    obtain ⟨hmem, hfree⟩ := mem_filter.1 hn
    rw [Bool.and_eq_true, decide_eq_true_eq, Bool.not_eq_true', ← Bool.not_eq_true, hcontrolled,
      not_or] at hfree
    exact ⟨rfl, ⟨hmem, hfree.1⟩, hfree.2.2, hfree.2.1, rfl⟩
  · rintro ⟨rfl, ⟨hmem, hne⟩, hother, hfree, rfl⟩
    have hn : isControlled g dst ≠ true := by
      rw [Ne, hcontrolled, not_or]
      exact ⟨hfree, hother⟩
    have hnew : (⟨c.entry.id, dst, .controlTrue⟩ : Link) ∉ ls := fun hl =>
      hn ((isControlled_iff hg hedges).2 ⟨_, hl, rfl, .inl rfl⟩)
    refine ⟨⟨dst, mem_filter.2 ⟨hmem, ?_⟩, rfl⟩, ?_⟩
    · simpa using ⟨hne, by simpa using hn⟩
    · rw [Bool.and_eq_true, isKept_iff, decide_eq_true_eq]
      exact ⟨⟨hne, hmem, hentry, by simp⟩, hnew⟩

theorem nodup_orphans (hg : g.Coherent) : (orphans settings g c ls).Nodup := by
  refine ((hg.nodup_nodes.filter _).map ?_).filter _
  intro a b h
  injection h

end ControlDependence

/-! ## The control dependences of a dependence graph -/

def Edge.controlLink? (e : Edge) : Option ControlDependence.Link :=
  e.dependenceSort?.map fun sort => ⟨e.src, e.dst, sort⟩

namespace Pdg

open ControlDependence

/-- The control dependences without their ids. -/
def controlLinks (d : Pdg) : List Link :=
  d.controlEdges.filterMap controlLink?

def controlOfJoint : Id × Id × EdgeLabel → Option Link
  | (src, dst, .dependence sort _ _) => if sort.isControl then some ⟨src, dst, sort⟩ else none
  | _ => none

theorem controlLinks_eq_joints (d : Pdg) : d.controlLinks = (d.edges.map joint).filterMap controlOfJoint := by
  rw [controlLinks, controlEdges, filterMap_filter, filterMap_map]
  refine filterMap_congr fun e _ => ?_
  obtain ⟨id, src, dst, label⟩ := e
  cases label <;> rfl

theorem controlLinks_of_edges {d : Pdg} {ls : List Link} (ds : List DataDependence.Link)
    (hedges : d.edges.map joint = ls.map Link.joint ++ ds.map DataDependence.Link.joint)
    (hls : ∀ l ∈ ls, l.sort.isControl = true) (hds : ∀ l ∈ ds, l.sort ∈ DataDependence.innerSorts) :
    d.controlLinks = ls := by
  have hcontrol : (ls.map Link.joint).filterMap controlOfJoint = ls := by
    rw [filterMap_map]
    refine (filterMap_congr (g := some) fun l hl => ?_).trans (filterMap_some)
    simp [controlOfJoint, Link.joint, hls l hl]
  have hdata : (ds.map DataDependence.Link.joint).filterMap controlOfJoint = [] := by
    rw [filterMap_map, filterMap_eq_nil_iff]
    intro l hl
    have hsort := hds l hl
    simp only [DataDependence.innerSorts, mem_cons, not_mem_nil, or_false] at hsort
    rcases hsort with hsort | hsort | hsort | hsort | hsort <;>
      simp [controlOfJoint, DataDependence.Link.joint, hsort, DependenceSort.isControl]
  rw [controlLinks_eq_joints, hedges, filterMap_append, hcontrol, hdata, append_nil]

/-- The control dependences are exactly those of branches, calls and the entry, each once. -/
structure ControlExact (settings : Settings) (d : Pdg) (c : Cfg) : Prop where
  nodup : d.controlLinks.Nodup
  mem_iff : ∀ l, l ∈ d.controlLinks ↔ OfBranch settings c d.nodeIds l ∨ OfCall c l ∨
    OfEntry c d.nodeIds l ∨ Left settings c d.nodeIds l
  successor : ∃ e, c.edgesOutOf c.entry.id = [e]

/-- What is derived from a proper flow graph is exact. -/
theorem Derived.controlExact {c : Cfg} {u : Plan} {d : Pdg} (h : c.Proper u)
    (hd : Derived context c d) : d.ControlExact context.settings c := by
  obtain ⟨between, after, hcontrol, hdata⟩ := hd.edges_eq
  have hids : d.nodeIds = (nodesOf c).nodeIds := by rw [Graph.nodeIds, Graph.nodeIds, hd.nodes_eq]
  have hbetween : between.nodeIds = (nodesOf c).nodeIds := hcontrol.first.nodeIds_eq
  have hfirst : between.edges.map joint =
      (structural context.settings (nodesOf c) c).found.map Link.joint := by
    rw [hcontrol.first.joints_eq, edges_nodesOf]
    rfl
  have hfound : ∀ l, l ∈ (structural context.settings (nodesOf c) c).found ↔
      OfBranch context.settings c (nodesOf c).nodeIds l ∨ OfCall c l ∨ OfEntry c (nodesOf c).nodeIds l :=
    fun l => mem_structural_iff h hcontrol.complete
  have hrest : ∀ l, l ∈ orphans context.settings between c (structural context.settings (nodesOf c) c).found ↔
      Left context.settings c (nodesOf c).nodeIds l := by
    intro l
    rw [← hbetween]
    refine mem_orphans hcontrol.coherent hfirst ?_ (by rwa [hbetween])
    rw [hbetween]
    exact mem_nodeIds_nodesOf.2 (.inl rfl)
  have hlinks : d.controlLinks = (structural context.settings (nodesOf c) c).found ++
      orphans context.settings between c (structural context.settings (nodesOf c) c).found := by
    refine controlLinks_of_edges (DataDependence.links context.program (nodesOf c) c).found ?_ ?_
      DataDependence.sort_mem_of_mem_links
    · rw [hdata.joints_eq, hcontrol.rest.joints_eq, hfirst, map_append]
    · intro l hl
      rcases mem_append.1 hl with hl | hl
      · exact isControl_of_mem_structural l hl
      · rw [((hrest l).1 hl).sort_eq]
        rfl
  refine ⟨?_, fun l => ?_, h.edgesOutOf_entry h.fits⟩
  · rw [hlinks]
    refine (Search.nodup_fresh _ _).append (nodup_orphans hcontrol.coherent) fun l hl hl' => ?_
    have hnew := (mem_filter.1 hl').2
    rw [Bool.and_eq_true, decide_eq_true_eq] at hnew
    exact hnew.2 hl
  · rw [hlinks, hids, mem_append, hfound, hrest, or_assoc, or_assoc]

end Pdg

/-- Whether no switch of a unit has several default cases. -/
def Program.singleDefaults (P : Program) : UnitRef → Bool
  | .method r => (P.method? r).all (·.body.singleDefaults)
  | .field _ => true

namespace Cfg

open Tracked

/-- **The flow graph of a unit is proper.** -/
theorem ends_ofUnit (context : Context) (unit : UnitRef) (p : σ × Trail) :
    Ends (ofUnit context unit) p (fun c _ => c.entry.element = .ofUnit unit ∧ ∃ u, c.Proper u ∧
      (context.program.singleDefaults unit = true → u.body.singleDefaults = true)) (fun _ _ => True) := by
  have hplan : Ends (ofUnit context unit) p (fun c _ => ∃ u sort, c.Realizes u ∧ u.Fits ∧
      u.entry.label = ⟨.entry sort, .ofUnit unit⟩ ∧
      (context.program.singleDefaults unit = true → u.body.singleDefaults = true)) (fun _ _ => True) := by
    cases unit with
    | method r =>
      simp only [ofUnit, Program.singleDefaults]
      cases context.program.method? r with
      | none => simp
      | some m =>
        refine (ends_ofMethod context r m p).partly ?_
        rintro c _ ⟨u, hrealizes, hmethod, hentry, hexit⟩
        exact ⟨u, _, hrealizes, hmethod.plan_fits hentry hexit, hentry, hmethod.mirrors.defaults⟩
    | field r =>
      simp only [ofUnit]
      split
      · refine (ends_ofField context r _ p).partly ?_
        rintro c _ ⟨u, hrealizes, hfield, sort, hentry, hexit⟩
        obtain ⟨l, hbody⟩ := hfield.body
        exact ⟨u, sort, hrealizes, hfield.plan_fits hentry hexit, hentry, fun _ => by rw [hbody]; rfl⟩
      · simp
  refine (hplan.and (ends_ofUnit_made context unit p)).partly ?_
  rintro c q ⟨⟨u, sort, hrealizes, hfits, hentry, hsingle⟩, -, hmade⟩
  refine ⟨?_, u, ⟨hrealizes, hfits, fun k hk i hi => hmade.owned hk hi⟩, hsingle⟩
  rw [show c.entry.element = u.entry.label.element from congrArg (·.label.element) hrealizes.entry_eq, hentry]

theorem ends_ofUnits (context : Context) {good : Cfg → Prop}
    (hunit : ∀ (unit : UnitRef) (p : σ × Trail),
      Ends (ofUnit context unit) p (fun c _ => good c) fun _ _ => True)
    (units : List UnitRef) {built : List Cfg} (failures : Table String Error)
    (hbuilt : ∀ c ∈ built, good c) (p : σ × Trail) :
    Ends (ofUnits context units built failures) p (fun r _ => ∀ c ∈ r.1, good c) (fun _ _ => True) := by
  induction units generalizing built failures p with
  | nil => exact hbuilt
  | cons unit units ih =>
    simp only [ofUnits, catching, ends_bind, ends_tryCatch]
    refine (hunit unit p).mono ?_ ?_
    · intro c q hc
      refine ih _ ?_ q
      exact forall_mem_append.2 ⟨hbuilt, forall_mem_singleton.2 hc⟩
    · intro e q _
      cases e with
      | construction _ _ => exact ih _ hbuilt _
      | _ => trivial

end Cfg

namespace Pdg

open Tracked

theorem ends_ofCfg_controlExact (context : Context) {c : Cfg} {u : Plan} (hc : c.Proper u)
    (p : σ × Trail) : Ends (ofCfg context c) p
      (fun d _ => ∃ c, d.cfg = some c ∧ d.ControlExact context.settings c) (fun _ _ => True) := by
  refine (ends_ofCfg context c p).partly ?_
  intro d _ hd
  exact ⟨c, hd.cfg_eq, hd.controlExact hc⟩

theorem ends_ofCfgs_forall {good : Cfg → Prop} {result : Pdg → Prop}
    (hcfg : ∀ (c : Cfg) (p : σ × Trail), good c →
      Ends (ofCfg context c) p (fun d _ => result d) fun _ _ => True)
    (cs : List Cfg) (hcs : ∀ c ∈ cs, good c) (p : σ × Trail) :
    Ends (ofCfgs context cs) p (fun ds _ => ∀ d ∈ ds, result d) (fun _ _ => True) := by
  induction cs generalizing p with
  | nil => simp [ofCfgs]
  | cons c cs ih =>
    rw [forall_mem_cons] at hcs
    simp only [ofCfgs, ends_bind]
    apply (hcfg c p hcs.1).partly
    intro d q hd
    apply (ih hcs.2 q).partly
    exact fun ds _ hds => forall_mem_cons.2 ⟨hd, hds⟩

theorem ends_ofClass_forall {good : UnitRef → Cfg → Prop} {result : Pdg → Prop}
    (hunit : ∀ (u : UnitRef) (p : σ × Trail),
      Ends (Cfg.ofUnit context u) p (fun c _ => good u c) fun _ _ => True)
    (hcfg : ∀ (u : UnitRef) (c : Cfg) (p : σ × Trail), good u c →
      Ends (ofCfg context c) p (fun d _ => result d) fun _ _ => True) (r : ClassRef) (p : σ × Trail) :
    Ends (ofClass context r) p (fun a _ => ∀ d ∈ a.1, result d) (fun _ _ => True) := by
  have hsome : ∀ (u : UnitRef) (p : σ × Trail),
      Ends (Cfg.ofUnit context u) p (fun c _ => ∃ u, good u c) fun _ _ => True :=
    fun u p => (hunit u p).imp fun _ _ hc => ⟨u, hc⟩
  simp only [ofClass, ends_bind]
  apply (Cfg.ends_ofUnits context hsome _ _ (forall_mem_nil _) p).partly
  exact fun a q ha => ends_ofCfgs_forall (fun c p hc => hc.elim fun u hc => hcfg u c p hc) a.1 ha q

theorem ends_ofUnit_controlExact (context : Context) (unit : UnitRef) (p : σ × Trail) :
    Ends (ofUnit context unit) p
      (fun d _ => ∃ c, d.cfg = some c ∧ d.ControlExact context.settings c) (fun _ _ => True) := by
  simp only [ofUnit, ends_bind]
  refine (Cfg.ends_ofUnit context unit p).partly ?_
  rintro c q ⟨-, u, hproper, -⟩
  exact ends_ofCfg_controlExact context hproper q

theorem ends_ofClass_controlExact (context : Context) (r : ClassRef) (p : σ × Trail) :
    Ends (ofClass context r) p
      (fun a _ => ∀ d ∈ a.1, ∃ c, d.cfg = some c ∧ d.ControlExact context.settings c) (fun _ _ => True) := by
  refine ends_ofClass_forall (Cfg.ends_ofUnit context) ?_ r p
  rintro unit c p ⟨-, u, hproper, -⟩
  exact ends_ofCfg_controlExact context hproper p

/-- **Control dependence is what post-dominance says.**  In the dependence graph of a method or
field, built alone or with its class, the control dependences are those of branches, calls and the
entry, each once. -/
theorem built_controlExact {σ : Type} (context : Context) (p : σ × Trail) :
    (∀ (unit : UnitRef) (d : Pdg) (q : σ × Trail),
      ((ofUnit context unit).run p : Except Error Pdg × σ × Trail) = (.ok d, q) →
        ∃ c, d.cfg = some c ∧ d.ControlExact context.settings c) ∧
    (∀ (r : ClassRef) (ds : List Pdg) (failures : Table String Error) (q : σ × Trail),
      ((ofClass context r).run p : Except Error (List Pdg × Table String Error) × σ × Trail) =
        (.ok (ds, failures), q) → ∀ d ∈ ds, ∃ c, d.cfg = some c ∧ d.ControlExact context.settings c) := by
  constructor
  · intro unit d q hrun
    exact (ends_iff_of_run hrun).1 (ends_ofUnit_controlExact context unit p)
  · intro r ds failures q hrun
    exact (ends_iff_of_run hrun).1 (ends_ofClass_controlExact context r p)

/-- A loop that is left by a jump, with a statement behind the jump. -/
def leavingLoop : Method :=
  { name := "search"
    body := .whileLoop (.literal "true" "boolean" 1) (.ifElse (.literal "true" "boolean" 2)
      (.block [.breakJump none 3, .empty 4] 3) (.continueJump none 5) 2) 1 }

def leavingProgram : Program :=
  { methods := [leavingLoop], classes := [{ qualifiedName := "Search", methods := [⟨0⟩] }] }

/-- The statement behind the jump is controlled by the jump, which falls through to it, and by the
entry, as no true or false branch controls it. -/
theorem leavingLoop_controlExact :
    (∃ d q, ((ofUnit { program := leavingProgram } (.method ⟨0⟩)).run ((), { next := 1 }) :
        Except Error Pdg × Unit × Trail) = (.ok d, q) ∧
      ⟨7, 9, .controlFall⟩ ∈ d.controlLinks ∧ ⟨1, 9, .controlTrue⟩ ∈ d.controlLinks ∧
      ∃ c, d.cfg = some c ∧ d.ControlExact {} c) ∧
    (∃ ds failures q, ((ofClass { program := leavingProgram } ⟨0⟩).run ((), { next := 1 }) :
        Except Error (List Pdg × Table String Error) × Unit × Trail) = (.ok (ds, failures), q) ∧
      ds.length = 1 ∧ ∀ d ∈ ds, ∃ c, d.cfg = some c ∧ d.ControlExact {} c) := by
  obtain ⟨hunit, hclass⟩ := built_controlExact { program := leavingProgram } ((), { next := 1 })
  constructor
  · obtain ⟨d, q, hrun, hfall, htrue⟩ := (by decide +kernel :
      Returns (ofUnit { program := leavingProgram } (.method ⟨0⟩)) ((), { next := 1 })
        fun d _ => ⟨7, 9, .controlFall⟩ ∈ d.controlLinks ∧ ⟨1, 9, .controlTrue⟩ ∈ d.controlLinks).exists_run
    exact ⟨d, q, hrun, hfall, htrue, hunit _ d q hrun⟩
  · obtain ⟨⟨ds, failures⟩, q, hrun, hlength⟩ := (by decide +kernel :
      Returns (ofClass { program := leavingProgram } ⟨0⟩) ((), { next := 1 })
        fun found _ => found.1.length = 1).exists_run
    exact ⟨ds, failures, q, hrun, hlength, hclass _ ds failures q hrun⟩

end Pdg

end ProgramDependence
