import ProgramDependence.Proofs.ControlEdges

/-!
# Dependence graphs as they are built

The dependence graph of a unit has control and data dependences inside the unit and no others, its
calls and its entry list parameter nodes of their own, and all its ids were drawn while it was built
(`Pdg.ends_ofUnit_intact`).
-/

namespace ProgramDependence

open List

/-- Neither parameter passing nor a summary. -/
def DependenceSort.isInner (s : DependenceSort) : Bool :=
  !s.isParameter && s ≠ .summary

/-- An edge that is neither a parameter edge nor a summary. -/
def Edge.isInner (e : Edge) : Bool :=
  e.dependenceSort?.all (·.isInner)

namespace Pdg

/-- What holds of a dependence graph as it is built. -/
structure Intact (d : Pdg) : Prop where
  coherent : d.toGraph.Coherent
  inner : ∀ e ∈ d.edges, e.isInner = true
  calls : ∀ k ∈ d.nodes, k.sort.isCall = true → k.payload.isCall = true
  lists : ∀ k ∈ d.nodes, k.payload.listed.Nodup
  owned : ∀ k ∈ d.nodes, ∀ i ∈ k.payload.listed, Owned d.nodes i k.id
  entry_mem : d.entry ∈ d.nodes
  entry_payload : d.entry.payload.isEntry = true

/-- All ids of a dependence graph lie in a range. -/
structure Between (lo hi : Id) (d : Pdg) : Prop where
  nodes : ∀ n ∈ d.nodes, lo ≤ n.id ∧ n.id < hi
  edges : ∀ e ∈ d.edges, lo ≤ e.id ∧ e.id < hi

/-! ## Nodes -/

theorem mem_foldl_appendNode {n : Node} (ns : List Node) {g : Graph}
    (hn : n ∈ (ns.foldl (fun g n => if g.hasNode n.id then g else g.appendNode n) g).nodes) : n ∈ g.nodes ∨
    n ∈ ns := by
  induction ns generalizing g with
  | nil => exact .inl hn
  | cons k ns ih =>
    rcases ih hn with hn | hn
    · dsimp only at hn
      split at hn
      · exact .inl hn
      · rcases mem_append.1 hn with hn | hn
        · exact .inl hn
        · exact .inr (mem_singleton.1 hn ▸ mem_cons_self)
    · exact .inr (mem_cons_of_mem _ hn)

section

variable {c : Cfg} (hentry : c.entry ∈ c.nodes)

include hentry

theorem mem_nodes_of_nodesOf {n : Node} (hn : n ∈ (nodesOf c).nodes) :
    n ∈ c.nodes := by
  rcases mem_foldl_appendNode _ hn with hn | hn
  · rw [show n = c.entry from mem_singleton.1 hn]
    exact hentry
  · exact (mem_filter.1 hn).1

theorem mem_nodesOf (hnodup : (c.nodes.map (·.id)).Nodup) {n : Node}
    (hn : n ∈ c.nodes) (hid : n.id ∈ (nodesOf c).nodeIds) : n ∈ (nodesOf c).nodes := by
  obtain ⟨k, hk, heq⟩ := mem_map.1 hid
  rw [← inj_on_of_nodup_map hnodup (mem_nodes_of_nodesOf hentry hk) hn heq]
  exact hk

/-- A parameter of the flow graph is one of the dependence graph. -/
theorem owned_nodesOf (hnodup : (c.nodes.map (·.id)).Nodup) {i owner : Id}
    (h : Owned c.nodes i owner) : Owned (nodesOf c).nodes i owner := by
  obtain ⟨t, ordinal, hmem⟩ := h
  obtain ⟨j, hj, hmark⟩ := mem_map.1 hmem
  have hsort : j.sort.isParameter = true := by
    rw [Node.sort_of_mark hmark]
    rfl
  have hid : j.id ∈ (nodesOf c).nodeIds :=
    mem_nodeIds_nodesOf.2 (.inr ⟨j, hj, NodeSort.isDependenceNode_of_isParameter hsort, rfl⟩)
  exact ⟨t, ordinal, hmark ▸ mem_map_of_mem (mem_nodesOf hentry hnodup hj hid)⟩

end

/-! ## Edges -/

theorem Derived.isInner {context : Context} {c : Cfg} {d : Pdg} (hd : Derived context c d) :
    ∀ e ∈ d.edges, e.isInner = true := by
  intro e he
  obtain ⟨s, hs, hderived⟩ := hd.sort_isDerived e he
  rw [Edge.isInner, hs]
  cases s with
  | parameterIn | parameterOut | summary => cases hderived
  | _ => rfl

open Tracked

/-- **The dependence graph of a unit is intact, and its ids are new.** -/
theorem ends_ofUnit_intact {σ : Type} (context : Context) (unit : UnitRef) (p : σ × Trail) :
    Ends (ofUnit context unit) p (fun d q => d.Intact ∧ d.Between p.2.next q.2.next ∧ q.1 = p.1 ∧
      p.2.next ≤ q.2.next) (fun _ => Kept p) := by
  simp only [ofUnit, ends_bind]
  refine ((Cfg.ends_ofUnit context unit p).and (Cfg.ends_ofUnit_made context unit p)).mono ?_
    fun _ _ h => h.2
  rintro c q ⟨⟨-, u, hproper, -⟩, hstate, hmade⟩
  have hnumbered := hmade.numbered
  refine (ends_ofCfg_laid context c q).mono ?_
    fun _ _ h => ⟨h.2.1.trans hstate, Int.le_trans hnumbered.le h.2.2⟩
  rintro d r ⟨hd, ⟨hstate', hle⟩, hnext⟩
  have hedges := hnext ▸ hd.bounds
  have hentry := hproper.entry_mem
  have hmem : ∀ {n}, n ∈ d.nodes → n ∈ c.nodes := fun hn =>
    mem_nodes_of_nodesOf hentry (hd.nodes_eq ▸ hn)
  have hsort : c.entry.sort.isEntry = true := by
    rw [show c.entry.sort = u.entry.label.sort from congrArg (·.label.sort) hproper.entry_eq]
    exact hproper.fits.entry
  refine ⟨⟨hd.coherent, hd.isInner, ?_, ?_, ?_, ?_, ?_⟩, ⟨?_, ?_⟩, hstate'.trans hstate, Int.le_trans
    hnumbered.le hle⟩
  · exact fun k hk hcall => (hmade.forall_nodes lasting_kind k (hmem hk)).1.trans hcall
  · exact fun k hk => (hmade.forall_nodes lasting_refs k (hmem hk)).2
  · intro k hk i hi
    rw [hd.nodes_eq]
    exact owned_nodesOf hentry hmade.nodup (hproper.owned k (hmem hk) i hi)
  · rw [hd.entry_eq, hd.nodes_eq]
    exact mem_nodesOf hentry hmade.nodup hentry (mem_nodeIds_nodesOf.2 (.inl rfl))
  · rw [hd.entry_eq]
    exact (hmade.forall_nodes lasting_kind c.entry hentry).2.trans hsort
  · intro n hn
    have hrange := hnumbered.nodes n.id (mem_map_of_mem (hmem hn))
    exact ⟨hrange.1, Int.lt_of_lt_of_le hrange.2 hle⟩
  · intro e he
    exact ⟨Int.le_trans hnumbered.le (hedges e he).1, (hedges e he).2⟩

/-! ## Looking up parameters -/

namespace Intact

variable {d : Pdg}

variable (h : d.Intact)
variable {call : Node} {outs : List Id}
include h

theorem mapM_getNode {ids : List Id} (hids : ∀ i ∈ ids, i ∈ d.nodeIds) :
    ∃ ns, ids.mapM d.getNode = .ok ns ∧ ns.map (·.id) = ids ∧ ∀ n ∈ ns, n ∈ d.nodes := by
  induction ids with
  | nil => exact ⟨[], rfl, rfl, by simp⟩
  | cons i ids ih =>
    rw [forall_mem_cons] at hids
    obtain ⟨ns, hmap, heq, hmem⟩ := ih hids.2
    obtain ⟨n, hn, rfl⟩ := mem_map.1 hids.1
    have hget : d.getNode n.id = .ok n := by rw [Graph.getNode, h.coherent.node?_eq_some hn]
    refine ⟨n :: ns, ?_, by rw [map_cons, heq], forall_mem_cons.2 ⟨hn, hmem⟩⟩
    rw [mapM_cons, hget, hmap]
    rfl

theorem mem_nodeIds_of_listed {k : Node} (hk : k ∈ d.nodes) : ∀ i ∈ k.payload.listed, i ∈ d.nodeIds := by
  intro i hi
  obtain ⟨j, hj, rfl, -⟩ := (h.owned k hk i hi).exists_node
  exact mem_map_of_mem hj

theorem exists_formals : ∃ ins outs, d.formalIns = .ok ins ∧ d.formalOuts = .ok outs ∧
    d.entry.payload = .entry (ins.map (·.id)) (outs.map (·.id)) ∧
    (∀ n ∈ ins, n ∈ d.nodes) ∧ (∀ n ∈ outs, n ∈ d.nodes) := by
  have hlisted := h.mem_nodeIds_of_listed h.entry_mem
  have hpayload := h.entry_payload
  cases hp : d.entry.payload with
  | entry ins outs =>
    rw [hp] at hlisted
    obtain ⟨ns, hins, hns, hns'⟩ := h.mapM_getNode fun i hi => hlisted i (mem_append_left _ hi)
    obtain ⟨ms, houts, hms, hms'⟩ := h.mapM_getNode fun i hi => hlisted i (mem_append_right _ hi)
    refine ⟨ns, ms, ?_, ?_, by rw [hns, hms], hns', hms'⟩
    · rw [formalIns, hp]
      exact hins
    · rw [formalOuts, hp]
      exact houts
  | _ =>
    rw [hp] at hpayload
    cases hpayload

theorem exists_call (hcall : call ∈ d.callNodes) : ∃ m ins outs x, call.payload = .call m ins outs x := by
  obtain ⟨hmem, hsort⟩ := mem_filter.1 hcall
  have hpayload := h.calls call hmem hsort
  cases hp : call.payload with
  | call m ins outs x => exact ⟨m, ins, outs, x, rfl⟩
  | _ =>
    rw [hp] at hpayload
    cases hpayload

theorem exists_actualIns (hcall : call ∈ d.callNodes) {m : MethodRef}
    {ins : List Id} {x : Bool} (hpayload : call.payload = .call m ins outs x) :
    ∃ ains, d.actualIns call = .ok ains ∧ ains.map (·.id) = ins ∧ ∀ n ∈ ains, n ∈ d.nodes := by
  have hlisted := h.mem_nodeIds_of_listed (mem_filter.1 hcall).1
  rw [hpayload] at hlisted
  rw [actualIns, hpayload]
  exact h.mapM_getNode fun i hi => hlisted i (mem_append_left _ hi)

theorem exists_findResult (houts : ∀ i ∈ outs, ∃ owner, Owned d.nodes i owner) :
    ∃ result, d.findResult outs = .ok result ∧ ∀ r ∈ result, r ∈ d.nodes ∧ r.id ∈ outs := by
  induction outs with
  | nil => exact ⟨none, rfl, by simp⟩
  | cons i outs ih =>
    rw [forall_mem_cons] at houts
    obtain ⟨result, hfind, hmem⟩ := ih houts.2
    obtain ⟨owner, howner⟩ := houts.1
    obtain ⟨j, hj, rfl, -, ordinal, hp⟩ := howner.exists_node
    have hget : d.getNode j.id = .ok j := by rw [Graph.getNode, h.coherent.node?_eq_some hj]
    cases ordinal with
    | result =>
      refine ⟨some j, ?_, ?_⟩
      · simp only [findResult, hget, bind, Except.bind, hp]
        rfl
      · rintro r ⟨⟩
        exact ⟨hj, mem_cons_self⟩
    | argument position =>
      refine ⟨result, ?_, fun r hr => ⟨(hmem r hr).1, mem_cons_of_mem _ (hmem r hr).2⟩⟩
      simp only [findResult, hget, bind, Except.bind, hp]
      exact hfind

theorem exists_returnActualOut (hcall : call ∈ d.callNodes) {m : MethodRef}
    {ins : List Id} {x : Bool} (hpayload : call.payload = .call m ins outs x) :
    ∃ result, d.returnActualOut call = .ok result ∧ ∀ r ∈ result, r ∈ d.nodes ∧ r.id ∈ outs := by
  rw [returnActualOut, hpayload]
  refine h.exists_findResult fun i hi => ⟨call.id, h.owned call (mem_filter.1 hcall).1 i ?_⟩
  rw [hpayload]
  exact mem_append_right _ hi

theorem call_eq {call' : Node} (hcall : call ∈ d.nodes) (hcall' : call' ∈ d.nodes) {i : Id}
    (hi : i ∈ call.payload.listed) (hi' : i ∈ call'.payload.listed) : call = call' := by
  obtain ⟨j, hj, hid, -, ordinal, howner⟩ := (h.owned call hcall i hi).exists_node
  obtain ⟨j', hj', hid', -, ordinal', howner'⟩ := (h.owned call' hcall' i hi').exists_node
  have hsame : j = j' := inj_on_of_nodup_map h.coherent.nodup_nodes hj hj' (hid.trans hid'.symm)
  rw [hsame, howner'] at howner
  exact inj_on_of_nodup_map h.coherent.nodup_nodes hcall hcall' (Payload.parameter.inj howner).2.symm

end Intact

end Pdg

end ProgramDependence
