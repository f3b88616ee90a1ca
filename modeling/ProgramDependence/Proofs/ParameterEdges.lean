import Mathlib.Data.List.Find
import ProgramDependence.Proofs.SystemUnits

/-!
# The parameter edges of a system

A system has one edge for each argument of each expanded call whose callee is in it, to the
parameter that receives the argument, and one edge from the value that the callee returns to the
result of the call, unless the callee is void.  It has no other parameter edges
(`ParametersExact`).  The callee of a call is the unit that the system has under its name; where
names identify units it is the method that is called.

That a call has a result, and a method a value it returns, exactly if the method is not void is read
off the way their units came about (`Made.returned_iff`).
-/

namespace ProgramDependence

open List Graph

/-- Whether a node is the result of a call or the value that a method returns. -/
def Graph.isResult (g : Graph) (i : Id) : Bool :=
  g.nodes.any fun n => decide (n.id = i) && decide (n.payload.place?.map (·.1) = some .result)

namespace SystemGraph

/-- The expanded calls whose callee is in the system, with the callee. -/
def expandedCalls (P : Program) (g : SystemGraph) : List (Node × Pdg) :=
  g.callNodes.filterMap fun k =>
    match k.payload with
    | .call m _ _ true => (g.pdgs.find? (P.methodName m)).map fun d => (k, d)
    | _ => none

/-- The arguments of a call, each with the parameter of the callee that receives it: the one at its
position, or the last one. -/
def argumentEnds (k : Node) (d : Pdg) : List (Id × Id) :=
  match k.payload, d.entry.payload with
  | .call _ ins _ _, .entry formals _ =>
    ins.zipIdx.filterMap fun a => formals[min a.2 (formals.length - 1)]?.map fun f => (a.1, f)
  | _, _ => []

/-- The first value that the callee returns, and the result of the call. -/
def resultEnds (g : SystemGraph) (k : Node) (d : Pdg) : Option Id × Option Id :=
  match k.payload, d.entry.payload with
  | .call _ _ outs _, .entry _ returned => (returned.head?, outs.find? g.isResult)
  | _, _ => (none, none)

/-- Whether the callee of a call is not void. -/
def callsValue (P : Program) (k : Node) : Bool :=
  match k.payload with
  | .call m _ _ _ => (P.method? m).any fun m => !m.isVoid
  | _ => false

/-- Whether a unit has a node for the value that it returns. -/
def returnsValue (d : Pdg) : Bool :=
  match d.entry.payload with
  | .entry _ returned => !returned.isEmpty
  | _ => false

/-- The parameter edges are those of the expanded calls: one for each argument, and one for each
result. -/
structure ParametersExact (P : Program) (g : SystemGraph) : Prop where
  arguments : (g.endsOf .parameterIn).Perm ((g.expandedCalls P).flatMap fun c => argumentEnds c.1 c.2)
  results : ((g.endsOf .parameterOut).map fun e => (some e.1, some e.2)).Perm
    (((g.expandedCalls P).filter fun c => callsValue P c.1 && returnsValue c.2).map fun c =>
    g.resultEnds c.1 c.2)
  /-- Where names identify units, a callee that is not void has a node for the value that it returns. -/
  callee : P.Named → ∀ c ∈ g.expandedCalls P, callsValue P c.1 = true → returnsValue c.2 = true

end SystemGraph

/-! ## Results in a dependence graph -/

namespace Graph

variable {g : Graph}

theorem isResult_iff {i : Id} :
    g.isResult i = true ↔ ∃ n ∈ g.nodes, n.id = i ∧ n.payload.place?.map (·.1) = some .result := by
  simp only [isResult, any_eq_true, Bool.and_eq_true, decide_eq_true_eq]

end Graph

namespace Pdg

open Tracked

variable {context : Context} {u : UnitRef} {d : Pdg}

theorem Of.exists_made (h : Of context u d) :
    ∃ lo ns es next, Made context.program lo [] ns es next ∧ ∀ k ∈ d.nodes, k ∈ ns := by
  obtain ⟨c, p, q, hrun, hlaid⟩ := h.exists_laid
  obtain ⟨-, plan, hproper, -⟩ := (ends_iff_of_run hrun).1 (Cfg.ends_ofUnit context u p)
  obtain ⟨-, hmade⟩ := (ends_iff_of_run hrun).1 (Cfg.ends_ofUnit_made context u p)
  refine ⟨_, _, _, _, hmade, fun k hk => ?_⟩
  exact mem_nodes_of_nodesOf hproper.entry_mem (hlaid.nodes_eq ▸ hk)

theorem Of.entry_element (h : Of context u d) : d.entry.element = .ofUnit u := by
  obtain ⟨c, p, q, hrun, hlaid⟩ := h.exists_laid
  rw [hlaid.entry_eq]
  exact ((ends_iff_of_run hrun).1 (Cfg.ends_ofUnit context u p)).1

/-- **A call or a method has a result exactly if it is not void.** -/
theorem Of.isResult_iff (h : Of context u d) {k : Node} (hk : k ∈ d.nodes) {a : Account}
    (haccount : k.account? = some a) : ∃ m, context.program.method? a.method = some m ∧
      ((∃ i ∈ k.payload.outs, d.isResult i = true) ↔ m.isVoid = false) := by
  obtain ⟨lo, ns, es, next, hmade, hmem⟩ := h.exists_made
  obtain ⟨m, hm, hreturned⟩ := hmade.returned_iff (hmem k hk) haccount
  refine ⟨m, hm, .trans ?_ hreturned⟩
  constructor
  · rintro ⟨i, hi, hresult⟩
    obtain ⟨j, hj, rfl, hplace⟩ := Graph.isResult_iff.1 hresult
    exact ⟨j, hmem j hj, hi, hplace⟩
  · rintro ⟨j, hj, hout, hplace⟩
    -- what a node of the graph lists is a node of the graph
    have howned := h.intact.owned k hk j.id (Payload.outs_subset _ hout)
    obtain ⟨j', hj', hid, -⟩ := howned.exists_node
    obtain rfl := inj_on_of_nodup_map hmade.nodup (hmem j' hj') hj hid
    exact ⟨j'.id, hout, Graph.isResult_iff.2 ⟨j', hj', rfl, hplace⟩⟩

/-- A method that is not void has a node for the value that it returns. -/
theorem Of.returnsValue {r : MethodRef} {m : Method} (h : Of context (.method r) d)
    (hm : context.program.method? r = some m) (hvoid : m.isVoid = false) :
    SystemGraph.returnsValue d = true := by
  have hentry := h.intact.entry_payload
  cases hpayload : d.entry.payload with
  | entry ins outs =>
    have haccount : d.entry.account? = some ⟨d.entry.id, r, .formalOut, .method r⟩ := by
      rw [Node.account?, hpayload, h.entry_element]
      rfl
    obtain ⟨m', hm', hresult⟩ := h.isResult_iff h.intact.entry_mem haccount
    obtain rfl := Option.some.inj (hm.symm.trans hm')
    obtain ⟨i, hi, -⟩ := hresult.2 hvoid
    rw [hpayload] at hi
    simpa [SystemGraph.returnsValue, hpayload] using (ne_nil_of_mem hi : outs ≠ [])
  | _ =>
    rw [hpayload] at hentry
    cases hentry

theorem findResult_eq (h : d.Intact) {outs : List Id} (houts : ∀ i ∈ outs, ∃ owner, Owned d.nodes i owner)
    {result : Option Node} (hfind : d.findResult outs = .ok result) :
    result.map (·.id) = outs.find? d.isResult := by
  induction outs with
  | nil =>
    cases hfind
    rfl
  | cons i outs ih =>
    rw [forall_mem_cons] at houts
    obtain ⟨owner, howner⟩ := houts.1
    obtain ⟨j, hj, rfl, -, ordinal, hp⟩ := howner.exists_node
    have hget : d.getNode j.id = .ok j := by rw [getNode, h.coherent.node?_eq_some hj]
    simp only [findResult, hget, bind, Except.bind, hp] at hfind
    cases ordinal with
    | result =>
      cases hfind
      rw [find?_cons_of_pos]
      · rfl
      · exact isResult_iff.2 ⟨j, hj, rfl, by rw [hp]; rfl⟩
    | argument position =>
      rw [find?_cons_of_neg]
      · exact ih houts.2 hfind
      · intro hresult
        obtain ⟨j', hj', hid, hplace⟩ := isResult_iff.1 hresult
        obtain rfl := inj_on_of_nodup_map h.coherent.nodup_nodes hj' hj hid
        rw [hp] at hplace
        cases hplace

end Pdg

namespace SystemGraph

open Tracked

variable {context : Context} {roots : UnitRef → Prop} {P : Program} {cache : BuildCache Pdg} {next : Id}
  {g g' : SystemGraph} {l l' : Link}

/-! ## The ends of the edges of a call -/

theorem received_ids (formals : List Node) (position : Nat) (ains : List Node) :
    (received formals position ains).map (fun pair => (pair.1.id, pair.2.id)) =
      ((ains.map (·.id)).zipIdx position).filterMap fun a =>
        (formals.map (·.id))[min a.2 ((formals.map (·.id)).length - 1)]?.map fun f => (a.1, f) := by
  induction ains generalizing position with
  | nil => rfl
  | cons ain rest ih =>
    rw [received, map_append, ih, map_cons, zipIdx_cons, filterMap_cons]
    simp only [receiver?, getElem?_map, length_map]
    cases formals[min position (formals.length - 1)]? with
    | none => rfl
    | some fin => rfl

theorem Composed.passed_ids (h : Composed P cache next g) (hl : Linked P g l) :
    l.passed.map (fun pair => (pair.1.id, pair.2.id)) = argumentEnds l.call l.callee := by
  obtain ⟨formals, ains, outs, result, hparts⟩ := hl.exists_parts h.housed
  obtain ⟨m, outs', hpayload, -⟩ := hparts.call
  rw [hparts.passed_eq, received_ids, argumentEnds, hpayload, hparts.entry]

theorem Composed.isResult_eq (h : Composed P cache next g) {d : Pdg} (hd : d ∈ g.pdgs.values)
    {i : Id} (hi : i ∈ d.nodeIds) : g.isResult i = d.isResult i := by
  rw [Bool.eq_iff_iff, isResult_iff, isResult_iff]
  constructor
  · rintro ⟨n, hn, hid, hplace⟩
    obtain ⟨d', hd', hn'⟩ := (h.nodes n).1 hn
    obtain rfl := h.unit_eq hd' hd (hid ▸ mem_map_of_mem hn') hi
    exact ⟨n, hn', hid, hplace⟩
  · rintro ⟨n, hn, hrest⟩
    exact ⟨n, (h.nodes n).2 ⟨d, hd, hn⟩, hrest⟩

/-! ## Calls -/

section

variable (h : Composed P cache next g)
include h

theorem Composed.mem_expandedCalls {c : Node × Pdg} :
    c ∈ g.expandedCalls P ↔ ∃ l, Linked P g l ∧ (l.call, l.callee) = c := by
  rw [expandedCalls, mem_filterMap]
  constructor
  · rintro ⟨k, hk, hc⟩
    obtain ⟨caller, hcaller, hcall⟩ := h.mem_callNodes_iff.1 hk
    obtain ⟨m, ins, outs, x, hpayload⟩ := (h.intact caller hcaller).exists_call hcall
    rw [hpayload] at hc
    cases x with
    | false => cases hc
    | true =>
      obtain ⟨callee, hfind, rfl⟩ := Option.map_eq_some_iff.1 hc
      exact ⟨⟨k, caller, callee⟩,
        ⟨hcaller, hcall, m, ins, outs, hpayload, (Table.find?_eq_some_iff h.nodup).1 hfind⟩, rfl⟩
  · rintro ⟨l, hl, hc⟩
    obtain ⟨m, ins, outs, hpayload, hcallee⟩ := hl.expanded
    refine ⟨l.call, h.mem_callNodes_iff.2 ⟨l.caller, hl.caller_mem, hl.call_mem⟩, ?_⟩
    rw [hpayload, ← hc]
    simp only [(Table.find?_eq_some_iff h.nodup).2 hcallee, Option.map_some]

theorem Composed.nodup_expandedCalls : (g.expandedCalls P).Nodup := by
  have hcalls : g.callNodes.Nodup :=
    .filter _ (.of_map _ h.growing.coherent.nodup_nodes)
  refine hcalls.filterMap ?_
  intro k k' c hc hc'
  have hfst : ∀ {k : Node}, c ∈ (match k.payload with
      | .call m _ _ true => (g.pdgs.find? (P.methodName m)).map fun d => (k, d)
      | _ => none) → c.1 = k := by
    intro k hk
    split at hk
    · obtain ⟨d, -, rfl⟩ := Option.map_eq_some_iff.1 hk
      rfl
    · cases hk
  exact (hfst hc).symm.trans (hfst hc')

theorem Composed.listed_of_argument (hl : Linked P g l) {e : Id × Id}
    (he : e ∈ argumentEnds l.call l.callee) : e.1 ∈ l.call.payload.listed := by
  rw [← h.passed_ids hl] at he
  obtain ⟨pair, hpair, rfl⟩ := mem_map.1 he
  obtain ⟨⟨m, ins, outs, hpayload, hmem⟩, -⟩ := h.passed_mem hl hpair
  rw [hpayload]
  exact mem_append_left _ hmem

theorem Composed.nodup_argumentEnds (hl : Linked P g l) : (argumentEnds l.call l.callee).Nodup := by
  obtain ⟨formals, ains, outs, result, hparts⟩ := hl.exists_parts h.housed
  obtain ⟨m, outs', hpayload, -⟩ := hparts.call
  have hlists := (h.intact l.caller hl.caller_mem).lists l.call (mem_filter.1 hl.call_mem).1
  rw [hpayload] at hlists
  have hains : (ains.map (·.id)).Nodup := (nodup_append.1 hlists).1
  apply List.Nodup.of_map Prod.fst
  rw [← h.passed_ids hl, hparts.passed_eq, map_map]
  have hsublist := (fst_received_sublist formals 0 ains).map (·.id)
  rw [map_map] at hsublist
  exact hsublist.nodup hains

/-- **The edges for arguments are those of the expanded calls.** -/
theorem Composed.perm_arguments (hconnected : Composed.Connected P g) :
    (g.endsOf .parameterIn).Perm ((g.expandedCalls P).flatMap fun c => argumentEnds c.1 c.2) := by
  apply (perm_ext_iff_of_nodup (h.single _ rfl) ?_).2
  · intro e
    rw [mem_flatMap, ← joined_iff]
    constructor
    · intro hjoined
      obtain ⟨l, hl, pair, hpair, hsrc, hdst⟩ := h.exists_passed hjoined
      refine ⟨(l.call, l.callee), h.mem_expandedCalls.2 ⟨l, hl, rfl⟩, ?_⟩
      rw [← h.passed_ids hl]
      exact mem_map.2 ⟨pair, hpair, Prod.ext hsrc hdst⟩
    · rintro ⟨c, hc, he⟩
      obtain ⟨l, hl, rfl⟩ := h.mem_expandedCalls.1 hc
      rw [← h.passed_ids hl] at he
      obtain ⟨pair, hpair, rfl⟩ := mem_map.1 he
      exact (hconnected l hl).passed pair hpair
  · apply nodup_flatMap.2
    constructor
    · intro c hc
      obtain ⟨l, hl, rfl⟩ := h.mem_expandedCalls.1 hc
      exact h.nodup_argumentEnds hl
    · apply h.nodup_expandedCalls.pairwise_of_forall_ne
      intro c hc c' hc' hne e he he'
      obtain ⟨l, hl, rfl⟩ := h.mem_expandedCalls.1 hc
      obtain ⟨l', hl', rfl⟩ := h.mem_expandedCalls.1 hc'
      obtain rfl := h.link_eq hl hl' (h.listed_of_argument hl he) (h.listed_of_argument hl' he')
      exact hne rfl

end

/-! ## Results -/

variable {p : BuildCache Pdg × Trail}

theorem Composed.result_ids (h : Composed P cache next g) (hl : Linked P g l) {m : MethodRef}
    {ins outs : List Id} (hpayload : l.call.payload = .call m ins outs true) {result : Option Node}
    (hresult : l.caller.returnActualOut l.call = .ok result) :
    result.map (·.id) = outs.find? g.isResult ∧ outs.find? l.caller.isResult = outs.find? g.isResult := by
  have hcaller := h.intact l.caller hl.caller_mem
  have houts : ∀ i ∈ outs, Owned l.caller.nodes i l.call.id := by
    intro i hi
    apply hcaller.owned l.call (mem_filter.1 hl.call_mem).1
    rw [hpayload]
    exact mem_append_right _ hi
  have hsame : outs.find? l.caller.isResult = outs.find? g.isResult := by
    apply find?_congr
    intro i hi
    obtain ⟨j, hj, rfl, -⟩ := (houts i hi).exists_node
    exact (h.isResult_eq hl.caller_mem (mem_map_of_mem hj)).symm
  rw [Pdg.returnActualOut, hpayload] at hresult
  rw [← hsame]
  exact ⟨Pdg.findResult_eq hcaller (fun i hi => ⟨_, houts i hi⟩) hresult, rfl⟩

/-- The callee of a call is the method that is called, where names identify units. -/
theorem Sourced.of_callee (h : Sourced context p g) (hnamed : context.program.Named)
    (hl : Linked context.program g l) (hvalue : callsValue context.program l.call = true) :
    returnsValue l.callee = true := by
  obtain ⟨r, ins, outs, hpayload, hcallee⟩ := hl.expanded
  simp only [callsValue, hpayload, Option.any_eq_true, Bool.not_eq_true'] at hvalue
  obtain ⟨m, hm, hvoid⟩ := hvalue
  have hr : context.program.Has (.method r) := by
    rw [Program.Has, hm]
    rfl
  obtain ⟨u, hname, hof⟩ := h.units _ hcallee
  obtain rfl := hnamed u (.method r) hof.has hr hname
  exact hof.returnsValue hm hvoid

/-- **A call is linked to the value of its callee exactly if both have a node for it.** -/
theorem Sourced.returned_eq (h : Sourced context p g) (hl : Linked context.program g l) :
    ((callsValue context.program l.call && returnsValue l.callee) = true ∧ ∃ pair, l.returned = some pair ∧
        g.resultEnds l.call l.callee = (some pair.1.id, some pair.2.id)) ∨
      (callsValue context.program l.call && returnsValue l.callee) = false ∧ l.returned = none := by
  obtain ⟨formals, ains, outs, result, hparts⟩ := hl.exists_parts h.composed.housed
  obtain ⟨r, ins, outs', hpayload, hcallee⟩ := hl.expanded
  obtain ⟨hfind, hsame⟩ := h.composed.result_ids hl hpayload hparts.result_eq
  obtain ⟨e, he, hcaller⟩ := mem_map.1 hl.caller_mem
  obtain ⟨u, -, hof⟩ := h.units e he
  rw [hcaller] at hof
  have haccount : l.call.account? = some ⟨l.call.id, r, .actualOut, l.call.element⟩ := by
    rw [Node.account?, hpayload]
    rfl
  obtain ⟨m, hm, hresult⟩ := hof.isResult_iff (mem_filter.1 hl.call_mem).1 haccount
  rw [hpayload] at hresult
  have hvalue : callsValue context.program l.call = !m.isVoid := by
    rw [callsValue, hpayload]
    simp only [show context.program.method? r = some m from hm, Option.any_some]
  have hreturns : returnsValue l.callee = !outs.isEmpty := by
    simp [returnsValue, hparts.entry]
  rw [hvalue, hreturns, hparts.returned_eq]
  cases hvoid : m.isVoid with
  | true =>
    right
    have hnone : outs'.find? l.caller.isResult = none := by
      apply find?_eq_none.2
      intro i hi his
      have hnot := hresult.1 ⟨i, hi, his⟩
      rw [hvoid] at hnot
      cases hnot
    rw [hsame] at hnone
    rw [hnone, Option.map_eq_none_iff] at hfind
    rw [hfind]
    exact ⟨rfl, by cases outs.head? <;> rfl⟩
  | false =>
    obtain ⟨i, hi, his⟩ := hresult.2 hvoid
    obtain ⟨a, ha⟩ : ∃ a, outs'.find? l.caller.isResult = some a :=
      Option.isSome_iff_exists.1 (find?_isSome.2 ⟨i, hi, his⟩)
    rw [hsame] at ha
    rw [ha] at hfind
    obtain ⟨aout, rfl, haout⟩ := Option.map_eq_some_iff.1 hfind
    cases outs with
    | nil => exact .inr ⟨rfl, rfl⟩
    | cons fout rest =>
      refine .inl ⟨rfl, (fout, aout), rfl, ?_⟩
      simp only [resultEnds, hpayload, hparts.entry, ha, haout]
      rfl

/-- **The edges for results are those of the expanded calls that call a value.** -/
theorem Sourced.perm_results (h : Sourced context p g) (hconnected : Composed.Connected context.program g) :
    ((g.endsOf .parameterOut).map fun e => (some e.1, some e.2)).Perm
      (((g.expandedCalls context.program).filter fun c =>
        callsValue context.program c.1 && returnsValue c.2).map fun c => g.resultEnds c.1 c.2) := by
  have hcomposed := h.composed
  have hmem : ∀ {c}, c ∈ (g.expandedCalls context.program).filter
        (fun c => callsValue context.program c.1 && returnsValue c.2) ↔
      ∃ l, Linked context.program g l ∧ (l.call, l.callee) = c ∧ ∃ pair, l.returned = some pair ∧
        g.resultEnds c.1 c.2 = (some pair.1.id, some pair.2.id) := by
    intro c
    rw [mem_filter, hcomposed.mem_expandedCalls]
    constructor
    · rintro ⟨⟨l, hl, hc⟩, hvalue⟩
      subst hc
      rcases h.returned_eq hl with ⟨-, hreturned⟩ | ⟨hvalue', -⟩
      · exact ⟨l, hl, rfl, hreturned⟩
      · rw [hvalue'] at hvalue
        cases hvalue
    · rintro ⟨l, hl, hc, pair, hpair, _⟩
      subst hc
      rcases h.returned_eq hl with ⟨hvalue, -⟩ | ⟨-, hnone⟩
      · exact ⟨⟨l, hl, rfl⟩, hvalue⟩
      · rw [hnone] at hpair
        cases hpair
  apply (perm_ext_iff_of_nodup ?_ ?_).2
  · intro e
    simp only [mem_map]
    constructor
    · rintro ⟨w, hw, he⟩
      obtain ⟨l, hl, pair, hpair, hsrc, hdst⟩ := hcomposed.exists_returned (joined_iff.2 hw)
      rcases h.returned_eq hl with ⟨-, pair', hpair', hends⟩ | ⟨-, hnone⟩
      · refine ⟨(l.call, l.callee), hmem.2 ⟨l, hl, rfl, pair', hpair', hends⟩, ?_⟩
        rw [hpair'] at hpair
        cases hpair
        rw [← he, ← hsrc, ← hdst]
        exact hends
      · rw [hnone] at hpair
        cases hpair
    · rintro ⟨c, hc, he⟩
      obtain ⟨l, hl, rfl, pair, hpair, hends⟩ := hmem.1 hc
      refine ⟨(pair.1.id, pair.2.id), joined_iff.1 ((hconnected l hl).returned pair hpair), ?_⟩
      rw [← he, hends]
  · apply List.Nodup.map _ (hcomposed.single _ rfl)
    intro w w' heq
    exact Prod.ext (Option.some.inj (congrArg Prod.fst heq)) (Option.some.inj (congrArg Prod.snd heq))
  · apply List.Nodup.map_on _ (hcomposed.nodup_expandedCalls.filter _)
    intro c hc c' hc' heq
    obtain ⟨l, hl, rfl, pair, hpair, hends⟩ := hmem.1 hc
    obtain ⟨l', hl', rfl, pair', hpair', hends'⟩ := hmem.1 hc'
    have hid : pair.2.id = pair'.2.id := by
      rw [hends, hends'] at heq
      exact Option.some.inj (congrArg Prod.snd heq)
    have hlisted := (hcomposed.returned_mem hl hpair).2.1
    have hlisted' := (hcomposed.returned_mem hl' hpair').2.1
    rw [← hid] at hlisted'
    rw [hcomposed.link_eq hl hl' hlisted hlisted']

/-! ## Finished systems -/

theorem ParametersExact.summarized {p q : SystemGraph × Trail} {es : List Edge}
    (h : ParametersExact P p.1) (hgains : SummaryGains p q es) : ParametersExact P q.1 := by
  have hends : ∀ s : DependenceSort, s.isParameter = true → q.1.endsOf s = p.1.endsOf s := by
    intro s hs
    apply endsOf_eq hgains.edges_eq
    intro e he
    rw [Edge.isSort, hgains.sort e he]
    cases s with
    | parameterIn | parameterOut => rfl
    | _ => cases hs
  have hcalls : q.1.expandedCalls P = p.1.expandedCalls P := by
    simp only [expandedCalls, callNodes, hgains.nodes_eq, hgains.toGains.pdgs_eq]
  have hresult : q.1.isResult = p.1.isResult := by
    funext i
    rw [isResult, isResult, hgains.nodes_eq]
  have hresults : q.1.resultEnds = p.1.resultEnds := by
    funext k d
    rw [resultEnds, resultEnds, hresult]
  constructor
  · rw [hends _ rfl, hcalls]
    exact h.arguments
  · rw [hends _ rfl, hcalls, hresults]
    exact h.results
  · rw [hcalls]
    exact h.callee

theorem Sourced.parametersExact (h : Sourced context p g)
    (hconnected : Composed.Connected context.program g) : ParametersExact context.program g := by
  refine ⟨h.composed.perm_arguments hconnected, h.perm_results hconnected, fun hnamed c hc hvalue => ?_⟩
  obtain ⟨l, hl, rfl⟩ := h.composed.mem_expandedCalls.1 hc
  exact h.of_callee hnamed hl hvalue

/-- **The parameter edges of a system are those of its expanded calls.**  Whatever units a system is
built of, in any order, and whatever systems were built before it, it has one edge for each argument
of each expanded call whose callee is in it, one for each result of such a call unless the callee is
void, and no others.  Where names identify units, the system of any units that are declared is
built. -/
theorem parameterEdges_exact (h : FilledFor context p) (name : String) (us : List UnitRef) :
    (∀ g q, ((ofUnits context name us).run p : Except Error SystemGraph × BuildCache Pdg × Trail) =
      (.ok g, q) → ParametersExact context.program g) ∧
    (context.program.Named → (∀ u ∈ us, context.program.Has u) → ∃ g q,
      ((ofUnits context name us).run p : Except Error SystemGraph × BuildCache Pdg × Trail) =
      (.ok g, q)) := by
  constructor
  · intro g q hrun
    obtain ⟨-, g', r, hsourced, hconnected, t, es, hgains⟩ :=
      (ends_iff_of_run hrun).1 (ends_ofUnits_sourced name us h.filled.tidy h.sound)
    exact (hsourced.parametersExact hconnected).summarized hgains
  · intro hnamed hus
    obtain ⟨g, q, hrun, -⟩ := ofUnits_comprises hnamed h name hus
    exact ⟨g, q, hrun⟩

/-- A call of a method with the value `x` as each of some arguments, as a statement. -/
def callWith (owner name : String) (r : MethodRef) (count : Nat) : Stmt :=
  .expression
    (.methodCall name (List.replicate count (.name (passedValue "x" owner) "x" 2)) .absent (some r) true 2) 2

/-- `send` calls `note`, which is void, with one argument too many, `pick` with one argument too
many, `stray`, which has a statement of unknown form, and itself. -/
def sending : Program :=
  { methods := [
      { name := "send", parameters := [passedValue "x" "send"], returnType := "int"
        body :=
        .block [callWith "send" "note" ⟨1⟩ 2, callWith "send" "pick" ⟨2⟩ 3, callWith "send" "stray" ⟨3⟩ 1,
          callWith "send" "send" ⟨0⟩ 1, .returnJump (.name (passedValue "x" "send") "x" 3) 3] 1 },
      { name := "note", parameters := [passedValue "x" "note"], body := .empty 4 },
      { name := "pick", parameters := [passedValue "x" "pick", passedValue "y" "pick"], returnType := "int"
        body := .returnJump (.name (passedValue "x" "pick") "x" 5) 5 },
      { name := "stray", parameters := [passedValue "x" "stray"], body := .other "goto_statement" 6 }] }

/-- The last parameters of `note` and `pick` receive the arguments that are left over, only `pick`
returns a value, and neither `stray`, which fails, nor the call of `send` by itself, which is not
expanded, has any edges. -/
theorem sending_parameters : FilledFor { program := sending } ({}, { next := 1 }) ∧ ∃ g q,
    ((ofUnits { program := sending } "all" [.method ⟨2⟩, .method ⟨0⟩]).run ({}, { next := 1 }) :
      Except Error SystemGraph × BuildCache Pdg × Trail) = (.ok g, q) ∧ ParametersExact sending g ∧
    g.endsOf .parameterIn = [(24, 99), (25, 99), (32, 3), (33, 5), (34, 5)] ∧
    g.endsOf .parameterOut = [(9, 35)] := by
  have hnamed : sending.Named := named_of_nodup (by decide +kernel)
  have hus : ∀ u ∈ [UnitRef.method ⟨2⟩, .method ⟨0⟩], sending.Has u := by decide +kernel
  obtain ⟨hexact, hbuilt⟩ := @parameterEdges_exact { program := sending } _ (.start { next := 1 })
    "all" [.method ⟨2⟩, .method ⟨0⟩]
  obtain ⟨g, q, hrun⟩ := hbuilt hnamed hus
  exact ⟨.start _, g, q, hrun, hexact g q hrun, of_run hrun (by decide +kernel)⟩

end SystemGraph

end ProgramDependence
