import ProgramDependence.Proofs.Composed

/-!
# Summary edges

A value that is passed to a call may come back as its result: it enters the callee through a
parameter edge, flows inside it along data dependences and through the calls it makes in turn, and
returns through the parameter edge to the result of the same call (`SystemGraph.Balanced`).  The
summary edges of a finished system are exactly such ways, one edge for each argument and result
(`SystemGraph.Summarized`).

The rounds that add them only ever add ways that are balanced, whatever was added before; when a
round adds nothing, all are there, by induction on how calls are nested.  Every round but the last
uses up an argument.
-/

namespace ProgramDependence

open List

namespace SystemGraph

open Tracked Composed

variable {P : Program} {g : SystemGraph}

/-! ## Balanced ways -/

/-- An argument and the result of an expanded call in a unit. -/
structure Passes (d : Pdg) (call : Node) (a r : Id) : Prop where
  argument : ∃ m ins outs, call.payload = .call m ins outs true ∧ a ∈ ins
  result : ∃ n, d.returnActualOut call = .ok (some n) ∧ n.id = r

/-- Whether these are an argument and the result of an expanded call. -/
def passes (d : Pdg) (call : Node) (a r : Id) : Bool :=
  match call.payload, d.returnActualOut call with
  | .call _ ins _ true, .ok (some n) => ins.contains a && n.id == r
  | _, _ => false

theorem passes_iff {d : Pdg} {call : Node} {a r : Id} : passes d call a r = true ↔ Passes d call a r := by
  constructor
  · intro h
    unfold passes at h
    split at h
    · rename_i m ins outs n hpayload hresult
      rw [Bool.and_eq_true, contains_iff_mem, beq_iff_eq] at h
      exact ⟨⟨m, ins, outs, hpayload, h.1⟩, n, hresult, h.2⟩
    · cases h
  · rintro ⟨⟨m, ins, outs, hpayload, ha⟩, n, hresult, rfl⟩
    simp [passes, hpayload, hresult, ha]

instance (d : Pdg) (call : Node) (a r : Id) : Decidable (Passes d call a r) :=
  decidable_of_iff _ passes_iff

/-- Parameter edges lead from an argument to a parameter of the callee, and from a value it returns
back to the result of the same call. -/
structure Crosses (P : Program) (g : SystemGraph) (l : Link) (a fin fout r : Id) : Prop where
  linked : Linked P g l
  passes : Passes l.caller l.call a r
  formals : ∃ ins outs, l.callee.entry.payload = .entry ins outs ∧ fin ∈ ins ∧ fout ∈ outs
  into : g.Joined .parameterIn a fin
  back : g.Joined .parameterOut fout r

/-- Values flow inside a unit, along data dependences and through calls that return. -/
inductive Flows (P : Program) (g : SystemGraph) : Pdg → Id → Id → Prop where
  | stay (d : Pdg) (n : Id) : Flows P g d n n
  | step {d : Pdg} {a b c : Id} {s : DependenceSort} (sort : s.isDefUse = true) (src : a ∈ d.nodeIds)
      (dst : b ∈ d.nodeIds) (edge : g.Joined s a b) (rest : Flows P g d b c) : Flows P g d a c
  | through {d : Pdg} {l : Link} {a fin fout r c : Id} (caller : l.caller = d)
      (crosses : Crosses P g l a fin fout r) (inside : Flows P g l.callee fin fout)
      (rest : Flows P g d r c) : Flows P g d a c

/-- A value that is passed to a call of a unit may come back as its result. -/
def Balanced (P : Program) (g : SystemGraph) (d : Pdg) (call : Node) (a r : Id) : Prop :=
  ∃ callee fin fout, Crosses P g ⟨call, d, callee⟩ a fin fout r ∧ Flows P g callee fin fout

def summaryEnds (g : SystemGraph) : List (Id × Id) :=
  g.summaryEdges.map Edge.ends

/-- The summary edges are the balanced ways through the calls of the system, one edge each. -/
structure Summarized (P : Program) (g : SystemGraph) : Prop where
  calls : ∀ call ∈ g.callNodes, ∃ d ∈ g.pdgs.values, call ∈ d.callNodes
  once : g.summaryEnds.Nodup
  mem_iff : ∀ d ∈ g.pdgs.values, ∀ call ∈ d.callNodes, ∀ a r, Passes d call a r →
    ((a, r) ∈ g.summaryEnds ↔ Balanced P g d call a r)
  only : ∀ w ∈ g.summaryEnds, ∃ d ∈ g.pdgs.values, ∃ call ∈ d.callNodes, Passes d call w.1 w.2

/-! ## The edges of a system -/

namespace Composed

variable {cache : BuildCache Pdg} {next : Id} {l l' : Link}

variable (h : Composed P cache next g)
include h

theorem call_eq {d d' : Pdg} {call call' : Node} (hd : d ∈ g.pdgs.values)
    (hd' : d' ∈ g.pdgs.values) (hcall : call ∈ d.callNodes) (hcall' : call' ∈ d'.callNodes) {i : Id}
    (hi : i ∈ call.payload.listed) (hi' : i ∈ call'.payload.listed) : d = d' ∧ call = call' := by
  have hmem : call ∈ d.nodes := (mem_filter.1 hcall).1
  have hmem' : call' ∈ d'.nodes := (mem_filter.1 hcall').1
  have hunits : d = d' := h.unit_eq hd hd' ((h.intact d hd).mem_nodeIds_of_listed hmem i hi)
    ((h.intact d' hd').mem_nodeIds_of_listed hmem' i hi')
  subst hunits
  exact ⟨rfl, (h.intact d hd).call_eq hmem hmem' hi hi'⟩

/-- A node that a call lists tells which call it is. -/
theorem link_eq (hl : Linked P g l) (hl' : Linked P g l') {i : Id}
    (hi : i ∈ l.call.payload.listed) (hi' : i ∈ l'.call.payload.listed) : l = l' := by
  obtain ⟨call, caller, callee⟩ := l
  obtain ⟨call', caller', callee'⟩ := l'
  obtain ⟨rfl, rfl⟩ : caller = caller' ∧ call = call' :=
    h.call_eq hl.caller_mem hl'.caller_mem hl.call_mem hl'.call_mem hi hi'
  obtain ⟨m, ins, outs, hpayload, -⟩ := hl.expanded
  cases (h.find?_callee hl hpayload).2.symm.trans (h.find?_callee hl' hpayload).2
  rfl

/-- An edge of a kind that no unit has was drawn for a call. -/
theorem exists_drawn {s : DependenceSort} {a b : Id} (hj : g.Joined s a b) (hs : s.isInner = false) :
    ∃ l, Linked P g l ∧ (s = .parameterIn ∧ (∃ pair ∈ l.passed, pair.1.id = a ∧ pair.2.id = b) ∨
      s = .parameterOut ∧ ∃ pair ∈ l.returned, pair.1.id = a ∧ pair.2.id = b) := by
  obtain ⟨e, he, rfl, rfl, hsort⟩ := hj
  rcases h.edges e he with ⟨d, hd, hmem⟩ | ⟨l, hl, hdraws⟩
  · have hinner := (h.intact d hd).inner e hmem
    rw [Edge.isInner, hsort, Option.all_some, hs] at hinner
    cases hinner
  · refine ⟨l, hl, ?_⟩
    cases hdraws with
    | passed pair hpair hsrc hdst hsort' =>
      exact .inl ⟨Option.some.inj (hsort.symm.trans hsort'), pair, hpair, hsrc.symm, hdst.symm⟩
    | returned pair hpair hsrc hdst hsort' =>
      exact .inr ⟨Option.some.inj (hsort.symm.trans hsort'), pair, hpair, hsrc.symm, hdst.symm⟩

theorem not_joined_summary (a b : Id) : ¬ g.Joined .summary a b := by
  intro hj
  obtain ⟨l, -, ⟨hsort, -⟩ | ⟨hsort, -⟩⟩ := h.exists_drawn hj rfl <;> cases hsort

theorem exists_passed {a b : Id} (hj : g.Joined .parameterIn a b) :
    ∃ l, Linked P g l ∧ ∃ pair ∈ l.passed, pair.1.id = a ∧ pair.2.id = b := by
  obtain ⟨l, hl, ⟨-, hpair⟩ | ⟨hsort, -⟩⟩ := h.exists_drawn hj rfl
  · exact ⟨l, hl, hpair⟩
  · cases hsort

theorem exists_returned {a b : Id} (hj : g.Joined .parameterOut a b) :
    ∃ l, Linked P g l ∧ ∃ pair ∈ l.returned, pair.1.id = a ∧ pair.2.id = b := by
  obtain ⟨l, hl, ⟨hsort, -⟩ | ⟨-, hpair⟩⟩ := h.exists_drawn hj rfl
  · cases hsort
  · exact ⟨l, hl, hpair⟩

theorem passed_mem (hl : Linked P g l) {pair : Node × Node} (hpair : pair ∈ l.passed) :
    (∃ m ins outs, l.call.payload = .call m ins outs true ∧ pair.1.id ∈ ins) ∧
      ∃ ins outs, l.callee.entry.payload = .entry ins outs ∧ pair.2.id ∈ ins := by
  obtain ⟨formals, ains, outs, result, hparts⟩ := hl.exists_parts h.housed
  rw [hparts.passed_eq] at hpair
  have hain : pair.1 ∈ ains := (fst_received_sublist formals 0 ains).subset (mem_map_of_mem hpair)
  obtain ⟨m, outs', hpayload, -⟩ := hparts.call
  exact ⟨⟨m, _, outs', hpayload, mem_map_of_mem hain⟩, _, _, hparts.entry, mem_map_of_mem
    (snd_mem_of_received hpair)⟩

theorem returned_mem (hl : Linked P g l) {pair : Node × Node}
    (hpair : pair ∈ l.returned) : l.caller.returnActualOut l.call = .ok (some pair.2) ∧
      pair.2.id ∈ l.call.payload.listed ∧ pair.1.id ∈ l.callee.nodeIds ∧
      ∃ ins outs, l.callee.entry.payload = .entry ins outs ∧ pair.1.id ∈ outs := by
  obtain ⟨formals, ains, outs, result, hparts⟩ := hl.exists_parts h.housed
  rw [hparts.returned_eq] at hpair
  obtain ⟨fout, hfout, hmap⟩ := Option.bind_eq_some_iff.1 hpair
  obtain ⟨aout, rfl, rfl⟩ := Option.map_eq_some_iff.1 hmap
  have hmem : fout ∈ outs := mem_of_mem_head? hfout
  obtain ⟨m, outs', hpayload, houts'⟩ := hparts.call
  refine ⟨hparts.result_eq, ?_, mem_map_of_mem (hparts.outs_mem fout hmem), _, _, hparts.entry,
    mem_map_of_mem hmem⟩
  rw [hpayload]
  exact mem_append_right _ (houts' aout rfl)

theorem listed_of_passes {d : Pdg} (hd : d ∈ g.pdgs.values) {call : Node} (hcall : call ∈ d.callNodes)
    {a r : Id} (hpasses : Passes d call a r) : a ∈ call.payload.listed ∧ r ∈ call.payload.listed := by
  obtain ⟨m, ins, outs, hpayload, ha⟩ := hpasses.argument
  obtain ⟨n, hn, rfl⟩ := hpasses.result
  obtain ⟨result, hresult, hmem⟩ := (h.intact d hd).exists_returnActualOut hcall hpayload
  rw [hn] at hresult
  cases hresult
  rw [hpayload]
  exact ⟨mem_append_left _ ha, mem_append_right _ (hmem n rfl).2⟩

theorem listed_of_crosses {a fin fout r : Id} (hcrosses : Crosses P g l a fin fout r) :
    a ∈ l.call.payload.listed ∧ r ∈ l.call.payload.listed :=
  h.listed_of_passes hcrosses.linked.caller_mem hcrosses.linked.call_mem hcrosses.passes

/-- **Ways into a callee and back** are what was passed and returned at one call. -/
theorem crosses_iff (hg : Connected P g) (hl : Linked P g l) {a fin fout r : Id} :
    Crosses P g l a fin fout r ↔ ∃ pair ∈ l.passed, ∃ ret ∈ l.returned,
      pair.1.id = a ∧ pair.2.id = fin ∧ ret.1.id = fout ∧ ret.2.id = r := by
  constructor
  · intro hcrosses
    obtain ⟨ha, hr⟩ := h.listed_of_crosses hcrosses
    obtain ⟨l₁, hl₁, pair, hpair, rfl, rfl⟩ := h.exists_passed hcrosses.into
    obtain ⟨l₂, hl₂, ret, hret, rfl, rfl⟩ := h.exists_returned hcrosses.back
    obtain ⟨m, ins, outs, hpayload, hin⟩ := (h.passed_mem hl₁ hpair).1
    have hin' : pair.1.id ∈ l₁.call.payload.listed := by
      rw [hpayload]
      exact mem_append_left _ hin
    have heq₁ : l₁ = l := h.link_eq hl₁ hl hin' ha
    have heq₂ : l₂ = l := h.link_eq hl₂ hl (h.returned_mem hl₂ hret).2.1 hr
    exact ⟨pair, heq₁ ▸ hpair, ret, heq₂ ▸ hret, rfl, rfl, rfl, rfl⟩
  · rintro ⟨pair, hpair, ret, hret, rfl, rfl, rfl, rfl⟩
    obtain ⟨hargument, ins, outs, hentry, hin⟩ := h.passed_mem hl hpair
    obtain ⟨hresult, -, -, ins', outs', hentry', hout⟩ := h.returned_mem hl hret
    rw [hentry] at hentry'
    cases hentry'
    exact ⟨hl, ⟨hargument, ret.2, hresult, rfl⟩, ⟨ins, outs, hentry, hin, hout⟩,
      (hg l hl).passed pair hpair, (hg l hl).returned ret hret⟩

end Composed

/-! ## Adding summaries -/

/-- Values reach a node inside a unit along dependences and summaries. -/
theorem mem_reaching_iff (hg : g.toGraph.Coherent) {inside : List Id} {target y : Id} :
    y ∈ g.reaching inside target ↔
    Relation.ReflTransGen (fun b a => g.Arrow isIntra a b ∧ a ∈ inside) target y := by
  have hsteps : ∀ b a, a ∈ (g.neighbours false isIntra b).filter inside.contains ↔
      g.Arrow isIntra a b ∧ a ∈ inside := by
    intro b a
    rw [mem_filter, Graph.mem_neighbours_back hg, contains_iff_mem]
  have hnext : ∀ b, ∀ a ∈ (g.neighbours false isIntra b).filter inside.contains, a ∈ g.edges.map (·.src) := by
    intro b a ha
    obtain ⟨⟨e, he, -, hsrc, -⟩, -⟩ := (hsteps b a).1 ha
    exact hsrc ▸ mem_map_of_mem he
  rw [reaching, Search.mem_reach_iff hnext (Nat.le_of_eq (length_map _))]
  simp only [mem_singleton, exists_eq_left, hsteps]

/-- Summary edges that a system gains, one between two nodes. -/
structure SummaryGains (p q : SystemGraph × Trail) (es : List Edge) : Prop extends Gains p q es where
  sort : ∀ e ∈ es, e.dependenceSort? = some .summary
  nodup : (es.map Edge.ends).Nodup
  new : ∀ e ∈ es, ¬ p.1.Joined .summary e.src e.dst

namespace SummaryGains

variable {p q r : SystemGraph × Trail} {es fs : List Edge}

theorem refl (h : p.1.toGraph.Growing p.2.next) : SummaryGains p p [] :=
  ⟨.refl h, by simp, nodup_nil, by simp⟩

variable (h : SummaryGains p q es)
include h

theorem joined_of_mem {e : Edge} (he : e ∈ es) : q.1.Joined .summary e.src e.dst :=
  ⟨e, by rw [h.edges_eq]; exact mem_append_right _ he, rfl, rfl, h.sort e he⟩

theorem trans (h' : SummaryGains q r fs) : SummaryGains p r (es ++ fs) where
  toGains := h.toGains.trans h'.toGains
  sort := forall_mem_append.2 ⟨h.sort, h'.sort⟩
  nodup := by
    rw [map_append]
    refine h.nodup.append h'.nodup fun w hw hw' => ?_
    obtain ⟨e, he, rfl⟩ := mem_map.1 hw
    obtain ⟨f, hf, heq⟩ := mem_map.1 hw'
    have hjoined := h.joined_of_mem he
    rw [← show f.src = e.src from congrArg Prod.fst heq, ← show f.dst = e.dst from congrArg Prod.snd heq]
      at hjoined
    exact h'.new f hf hjoined
  new := forall_mem_append.2 ⟨h.new, fun f hf hjoined => h'.new f hf (h.toGains.joined hjoined)⟩

theorem joined_iff {s : DependenceSort} {a b : Id} :
    q.1.Joined s a b ↔ p.1.Joined s a b ∨ s = .summary ∧ (a, b) ∈ es.map Edge.ends := by
  constructor
  · rintro ⟨e, he, rfl, rfl, hsort⟩
    rw [h.edges_eq] at he
    rcases mem_append.1 he with he | he
    · exact .inl ⟨e, he, rfl, rfl, hsort⟩
    · rw [h.sort e he] at hsort
      exact .inr ⟨(Option.some.inj hsort).symm, mem_map_of_mem he⟩
  · rintro (hjoined | ⟨rfl, hmem⟩)
    · exact h.toGains.joined hjoined
    · obtain ⟨e, he, heq⟩ := mem_map.1 hmem
      cases heq
      exact h.joined_of_mem he

end SummaryGains

variable {p b : SystemGraph × Trail} {cache : BuildCache Pdg}

theorem ends_summarizeArguments (formals : List Node) (sources : List Id) {result : Id}
    (position : Nat) (ains : List Node) (h : p.1.toGraph.Growing p.2.next)
    (hresult : result ∈ p.1.nodeIds) (hains : ∀ n ∈ ains, n.id ∈ p.1.nodeIds) :
    Returns (summarizeArguments formals sources result position ains) p
      fun n q => ∃ es, SummaryGains p q es ∧ es.length = n ∧
        (∀ e ∈ es, e.dst = result ∧ ∃ pair ∈ received formals position ains, pair.1.id = e.src ∧
        pair.2.id ∈ sources) ∧ (n = 0 → q = p ∧ ∀ pair ∈ received formals position ains, pair.2.id ∈ sources →
          p.1.Joined .summary pair.1.id result) := by
  induction ains generalizing position p with
  | nil => exact ⟨[], .refl h, rfl, by simp, fun _ => ⟨rfl, fun pair hpair => nomatch hpair⟩⟩
  | cons ain rest ih =>
    rw [forall_mem_cons] at hains
    simp only [summarizeArguments, ends_bind, ends_state]
    split
    · rename_i hnew
      rw [Bool.and_eq_true, Bool.not_eq_true', Option.any_eq_true] at hnew
      obtain ⟨⟨fin, hfin, hsource⟩, hlinked⟩ := hnew
      have hpair : (ain, fin) ∈ received formals position (ain :: rest) := by
        rw [received, hfin]
        exact mem_cons_self
      simp only [ends_bind]
      refine (ends_addDependence h hains.1 hresult _ fun hparameter => Bool.noConfusion hparameter).imp ?_
      intro _ q hgains
      have hids := hgains.nodeIds_eq
      refine (ih (position + 1) hgains.growing (by rwa [hids]) (by rw [hids]; exact hains.2)).imp ?_
      rintro n r ⟨es, hes, rfl, hends, -⟩
      have hfirst :
        SummaryGains p q [⟨p.2.next, ain.id, result, .dependence .summary ain.defs.head? none⟩] := by
        refine ⟨hgains, forall_mem_singleton.2 rfl, nodup_singleton _, forall_mem_singleton.2 ?_⟩
        rw [← isLinked_iff h.coherent, hlinked]
        exact Bool.false_ne_true
      refine ⟨_, hfirst.trans hes, Nat.add_comm _ _, ?_, fun hzero => absurd hzero (by simp)⟩
      refine forall_mem_cons.2 ⟨⟨rfl, (ain, fin), hpair, rfl, ?_⟩, fun e he => ?_⟩
      · simpa using hsource
      · obtain ⟨hdst, pair, hmem, hrest⟩ := hends e he
        exact ⟨hdst, pair, mem_append_right _ hmem, hrest⟩
    · rename_i hold
      refine (ih (position + 1) h hresult hains.2).imp ?_
      rintro n q ⟨es, hes, hlength, hends, hzero⟩
      refine ⟨es, hes, hlength, fun e he => ?_, fun hn => ⟨(hzero hn).1, fun pair hpair hsource => ?_⟩⟩
      · obtain ⟨hdst, pair, hmem, hrest⟩ := hends e he
        exact ⟨hdst, pair, mem_append_right _ hmem, hrest⟩
      · rcases mem_append.1 hpair with hpair | hpair
        · obtain ⟨fin, hfin, rfl⟩ := Option.map_eq_some_iff.1 (Option.mem_toList.1 hpair)
          rw [← isLinked_iff h.coherent]
          by_contra hlinked
          refine hold ?_
          rw [Bool.and_eq_true, Option.any_eq_true]
          exact ⟨⟨fin, hfin, by simpa using hsource⟩, by simpa using hlinked⟩
        · exact (hzero hn).2 pair hpair hsource

/-- What a call yields in a state of the system: an argument whose value reaches what the callee
returns. -/
def Link.Yields (l : Link) (g : SystemGraph) (a r : Id) : Prop :=
  ∃ pair ∈ l.passed, ∃ ret ∈ l.returned, pair.1.id = a ∧ ret.2.id = r ∧
    pair.2.id ∈ g.reaching l.callee.nodeIds ret.1.id

/-- All that a call yields is summarized. -/
def Link.Settled (l : Link) (g : SystemGraph) : Prop :=
  ∀ a r, l.Yields g a r → g.Joined .summary a r

/-- A call gets summaries; if none is new, it was settled. -/
theorem ends_summarizeCall {l : Link} (h : p.1.toGraph.Growing p.2.next) (hg : p.1.Housed)
    (hl : Linked P p.1 l) : Returns (summarizeCall l) p fun n q => ∃ es, SummaryGains p q es ∧ es.length = n ∧
      (∀ e ∈ es, l.Yields p.1 e.src e.dst) ∧ (n = 0 → q = p ∧ l.Settled p.1) := by
  obtain ⟨formals, ains, outs, result, hparts⟩ := hl.exists_parts hg
  have hpassed := hparts.passed_eq
  have hreturned := hparts.returned_eq
  have hnone : (l.passed = [] ∨ l.returned = none) → Returns (return 0 : Tracked SystemGraph Nat) p
      fun n q => ∃ es, SummaryGains p q es ∧ es.length = n ∧
        (∀ e ∈ es, l.Yields p.1 e.src e.dst) ∧ (n = 0 → q = p ∧ l.Settled p.1) := by
    intro hempty
    refine ⟨[], .refl h, rfl, by simp, fun _ => ⟨rfl, ?_⟩⟩
    rintro a r ⟨pair, hpair, ret, hret, -⟩
    rcases hempty with hempty | hempty
    · rw [hempty] at hpair
      cases hpair
    · rw [hempty] at hret
      cases hret
  simp only [summarizeCall, hparts.formals_eq, hparts.ains_eq, hparts.outs_eq, hparts.result_eq, lift_ok]
  cases result with
  | none => exact hnone (.inr (by rw [hreturned]; cases outs <;> rfl))
  | some aout =>
    cases outs with
    | nil => exact hnone (.inr hreturned)
    | cons fout outs =>
      cases formals with
      | nil => exact hnone (.inl (by rw [hpassed, received_nil]))
      | cons fin formals =>
        have hcaller : ∀ n ∈ l.caller.nodes, n.id ∈ p.1.nodeIds := hg.nodes l.caller hl.caller_mem
        simp only [ends_bind]
        refine (ends_summarizeArguments _ _ 0 ains h (hcaller aout (hparts.result_mem aout rfl))
          fun n hn => hcaller n (hparts.ains_mem n hn)).imp ?_
        rw [← hpassed]
        rintro n q ⟨es, hes, hlength, hends, hzero⟩
        refine ⟨es, hes, hlength, fun e he => ?_, fun hn => ⟨(hzero hn).1, ?_⟩⟩
        · obtain ⟨hdst, pair, hpair, hsrc, hsource⟩ := hends e he
          exact ⟨pair, hpair, (fout, aout), hreturned, hsrc, hdst.symm, hsource⟩
        · rintro a r ⟨pair, hpair, ret, hret, rfl, rfl, hsource⟩
          rw [hreturned] at hret
          cases hret
          exact (hzero hn).2 pair hpair hsource

/-! ## What is added is balanced, and nothing is missing in the end -/

/-- A value that is passed to some call may come back as its result. -/
def Realized (P : Program) (g : SystemGraph) (l : Link) (a r : Id) : Prop :=
  ∃ fin fout, Crosses P g l a fin fout r ∧ Flows P g l.callee fin fout

/-- A finished system `b` to which summaries of balanced ways were added. -/
structure Summing (P : Program) (cache : BuildCache Pdg) (b q : SystemGraph × Trail)
    (es : List Edge) : Prop extends SummaryGains b q es where
  composed : Composed P cache b.2.next b.1
  connected : Connected P b.1
  realized : ∀ e ∈ es, ∃ l, Realized P b.1 l e.src e.dst

namespace Summing

variable {cache : BuildCache Pdg} {b q : SystemGraph × Trail} {es : List Edge} {l : Link} {d : Pdg}
    {a r c : Id}

section

variable (h : Summing P cache b q es)
include h

theorem mem_caller (hcrosses : Realized P b.1 l a r) : a ∈ l.caller.nodeIds := by
  obtain ⟨fin, fout, hcrosses, -⟩ := hcrosses
  have hl := hcrosses.linked
  exact (h.composed.intact l.caller hl.caller_mem).mem_nodeIds_of_listed
    (mem_filter.1 hl.call_mem).1 a (h.composed.listed_of_crosses hcrosses).1

/-- **Values that reach a node inside a unit flow there,** through whatever was summarized so far. -/
theorem flows_of_reaching (hd : d ∈ b.1.pdgs.values) (hc : c ∈ d.nodeIds)
    (hreach : a ∈ q.1.reaching d.nodeIds c) : Flows P b.1 d a c := by
  rw [mem_reaching_iff h.growing.coherent] at hreach
  -- The search goes backwards, so each further step is put in front of the way found so far.
  suffices hflows : a ∈ d.nodeIds ∧ Flows P b.1 d a c from hflows.2
  induction hreach with
  | refl => exact ⟨hc, .stay d c⟩
  | tail _ hstep ih =>
    obtain ⟨⟨e, he, hintra, rfl, rfl⟩, hsrc⟩ := hstep
    obtain ⟨hdst, hflows⟩ := ih
    refine ⟨hsrc, ?_⟩
    obtain ⟨s, hsort, hs⟩ := (Option.any_eq_true _ _).1 hintra
    rw [Bool.or_eq_true, decide_eq_true_eq] at hs
    rw [h.edges_eq] at he
    rcases mem_append.1 he with he | he
    · rcases hs with hs | rfl
      · exact .step hs hsrc hdst ⟨e, he, rfl, rfl, hsort⟩ hflows
      · exact absurd ⟨e, he, rfl, rfl, hsort⟩ (h.composed.not_joined_summary e.src e.dst)
    · obtain ⟨l, hl⟩ := h.realized e he
      have hmem := h.mem_caller hl
      obtain ⟨fin, fout, hcrosses, hinside⟩ := hl
      exact .through (h.composed.unit_eq hcrosses.linked.caller_mem hd hmem hsrc) hcrosses hinside hflows

/-- What a call yields comes back to it. -/
theorem realized_of_yields (hl : Linked P b.1 l) (hyields : l.Yields q.1 a r) : Realized P b.1 l a r := by
  obtain ⟨pair, hpair, ret, hret, rfl, rfl, hreach⟩ := hyields
  refine ⟨pair.2.id, ret.1.id, (h.composed.crosses_iff h.connected hl).2
    ⟨pair, hpair, ret, hret, rfl, rfl, rfl, rfl⟩, ?_⟩
  exact h.flows_of_reaching hl.callee_mem (h.composed.returned_mem hl hret).2.2.1 hreach

theorem append {q' : SystemGraph × Trail} {fs : List Edge} (hgains : SummaryGains q q' fs)
    (hl : Linked P b.1 l) (hfs : ∀ e ∈ fs, l.Yields q.1 e.src e.dst) : Summing P cache b q' (es ++ fs) :=
  { h with
    toSummaryGains := h.toSummaryGains.trans hgains
    realized := forall_mem_append.2 ⟨h.realized, fun e he => ⟨l, h.realized_of_yields hl (hfs e he)⟩⟩ }

end

section Settled

variable (hsettled : ∀ l, Linked P b.1 l → l.Settled q.1)

include hsettled

variable (h : Summing P cache b q es)
include h

/-- Once all calls are settled, values that come back at a call are summarized. -/
theorem joined_of_crosses {fin fout : Id} (hcrosses : Crosses P b.1 l a fin fout r)
    (hreach : fin ∈ q.1.reaching l.callee.nodeIds fout) : q.1.Joined .summary a r := by
  obtain ⟨pair, hpair, ret, hret, rfl, rfl, rfl, rfl⟩ :=
    (h.composed.crosses_iff h.connected hcrosses.linked).1 hcrosses
  exact hsettled l hcrosses.linked _ _ ⟨pair, hpair, ret, hret, rfl, rfl, hreach⟩

/-- **Once all calls are settled, values that flow inside a unit are found.** -/
theorem reaching_of_flows (hflows : Flows P b.1 d a c) : a ∈ q.1.reaching d.nodeIds c := by
  simp only [mem_reaching_iff h.growing.coherent]
  induction hflows with
  | stay d n => exact .refl
  | step hs hsrc hdst hedge hrest ih =>
    obtain ⟨e, he, rfl, rfl, hsort⟩ := h.toGains.joined hedge
    refine ih.tail ⟨⟨e, he, ?_, rfl, rfl⟩, hsrc⟩
    simp [isIntra, hsort, hs]
  | through hcaller hcrosses hinside hrest ihinside ihrest =>
    subst hcaller
    obtain ⟨e, he, rfl, rfl, hsort⟩ := h.joined_of_crosses hsettled hcrosses
      ((mem_reaching_iff h.growing.coherent).2 ihinside)
    refine ihrest.tail ⟨⟨e, he, ?_, rfl, rfl⟩, h.mem_caller ⟨_, _, hcrosses, hinside⟩⟩
    simp [isIntra, hsort]

/-- Once calls are settled, values that come back are summarized. -/
theorem joined_of_realized (hl : Realized P b.1 l a r) : q.1.Joined .summary a r := by
  obtain ⟨fin, fout, hcrosses, hinside⟩ := hl
  exact h.joined_of_crosses hsettled hcrosses (h.reaching_of_flows hsettled hinside)

end Settled

/-! ## Counting rounds -/

variable (h : Summing P cache b q es)
include h

theorem link_eq_of_realized {l' : Link} {r' : Id} (hl : Realized P b.1 l a r)
    (hl' : Realized P b.1 l' a r') : l = l' := by
  obtain ⟨fin, fout, hcrosses, -⟩ := hl
  obtain ⟨fin', fout', hcrosses', -⟩ := hl'
  exact h.composed.link_eq hcrosses.linked hcrosses'.linked
    (h.composed.listed_of_crosses hcrosses).1 (h.composed.listed_of_crosses hcrosses').1

theorem result_eq_of_realized {l' : Link} {r' : Id} (hl : Realized P b.1 l a r)
    (hl' : Realized P b.1 l' a r') : r = r' := by
  have heq := h.link_eq_of_realized hl hl'
  subst heq
  obtain ⟨fin, fout, hcrosses, -⟩ := hl
  obtain ⟨fin', fout', hcrosses', -⟩ := hl'
  obtain ⟨n, hn, rfl⟩ := hcrosses.passes.result
  obtain ⟨n', hn', rfl⟩ := hcrosses'.passes.result
  rw [hn] at hn'
  cases hn'
  rfl

theorem nodup_src : (es.map (·.src)).Nodup := by
  have hmap : es.map (·.src) = (es.map Edge.ends).map (·.1) := by
    rw [map_map]
    rfl
  rw [hmap]
  refine .map_on ?_ h.nodup
  intro w hw w' hw' hsrc
  obtain ⟨e, he, rfl⟩ := mem_map.1 hw
  obtain ⟨e', he', rfl⟩ := mem_map.1 hw'
  obtain ⟨l, hl⟩ := h.realized e he
  obtain ⟨l', hl'⟩ := h.realized e' he'
  rw [← show e.src = e'.src from hsrc] at hl'
  exact Prod.ext hsrc (h.result_eq_of_realized hl hl')

/-- The summaries that were added are no more than the arguments of all calls. -/
theorem length_le : es.length ≤ b.1.argumentCount := by
  rw [← length_map (f := fun e : Edge => e.src)]
  refine (h.nodup_src.subperm fun i hi => ?_).length_le
  obtain ⟨e, he, rfl⟩ := mem_map.1 hi
  obtain ⟨l, fin, fout, hcrosses, -⟩ := h.realized e he
  obtain ⟨m, ins, outs, hpayload, hmem⟩ := hcrosses.passes.argument
  refine mem_flatMap.2 ⟨l.call, h.composed.mem_callNodes_iff.2
    ⟨l.caller, hcrosses.linked.caller_mem, hcrosses.linked.call_mem⟩, ?_⟩
  simp only [hpayload]
  exact hmem

end Summing

theorem link?_congr {g' : SystemGraph} (hpdgs : g'.pdgs = g.pdgs) (howner : g'.owner = g.owner)
    (call : Node) : g'.link? P call = g.link? P call := by
  rw [link?, link?, pdgOf?, pdgOf?, hpdgs, howner]

theorem ends_summarizeCalls (calls : List Node) {es : List Edge} (h : Summing P cache b p es)
    (hcalls : calls ⊆ b.1.callNodes) :
    Returns (summarizeCalls P calls) p fun n q => ∃ fs, Summing P cache b q (es ++ fs) ∧
      fs.length = n ∧ (n = 0 → q = p ∧ ∀ l, l.call ∈ calls → Linked P b.1 l → l.Settled p.1) := by
  induction calls generalizing p es with
  | nil => exact ⟨[], by simpa using h, rfl, fun _ => ⟨rfl, fun l hl => absurd hl not_mem_nil⟩⟩
  | cons call rest ih =>
    obtain ⟨hcall, hrest⟩ := cons_subset.1 hcalls
    obtain ⟨r, hlink, hr⟩ := h.composed.exists_link hcall
    rw [← link?_congr h.pdgs_eq h.owner_eq] at hlink
    simp only [summarizeCalls, ends_bind, ends_state, hlink, lift_ok, ends_pure]
    -- What the rest of the round does after this call.
    have hgo : ∀ (fs : List Edge) {q : SystemGraph × Trail}, Summing P cache b q (es ++ fs) →
        (fs.length = 0 → q = p ∧ ∀ l, r = some l → l.Settled p.1) →
        Returns (summarizeCalls P rest) q fun n q => ∃ gs, Summing P cache b q (es ++ gs) ∧
          gs.length = fs.length + n ∧ (fs.length + n = 0 → q = p ∧
            ∀ l, l.call ∈ call :: rest → Linked P b.1 l → l.Settled p.1) := by
      intro fs q hq hzero
      refine (ih hq hrest).imp ?_
      rintro n q' ⟨gs, hgs, rfl, hzero'⟩
      refine ⟨fs ++ gs, by rwa [← append_assoc], length_append, fun hsum => ?_⟩
      obtain ⟨hfs, hgs⟩ := Nat.add_eq_zero_iff.1 hsum
      obtain ⟨rfl, hfirst⟩ := hzero hfs
      obtain ⟨rfl, hothers⟩ := hzero' hgs
      refine ⟨rfl, fun l hl hlinked => ?_⟩
      rcases mem_cons.1 hl with hl | hl
      · exact hfirst l ((hr l).2 ⟨hl, hlinked⟩)
      · exact hothers l hl hlinked
    cases r with
    | none =>
      have hnone := hgo [] (by simpa using h) fun _ => ⟨rfl, by simp⟩
      simpa using hnone
    | some l =>
      have hlinked := ((hr l).1 rfl).2
      have hhoused : p.1.Housed := h.composed.housed.gains h.toGains
      simp only [ends_bind]
      refine (ends_summarizeCall h.growing hhoused (hlinked.congr (h.pdgs_eq ▸ .refl _))).imp ?_
      rintro n q ⟨fs, hfs, rfl, hyields, hzero⟩
      refine hgo fs (h.append hfs hlinked hyields) fun hn => ⟨(hzero hn).1, ?_⟩
      rintro l' ⟨⟩
      exact (hzero hn).2

/-- **The rounds end with all calls settled,** since each round but the last uses up an argument. -/
theorem ends_summarizeRounds (fuel : Nat) {es : List Edge} (h : Summing P cache b p es)
    (hfuel : b.1.argumentCount < fuel + es.length) :
    Returns (summarizeRounds P fuel) p fun _ q => ∃ fs, Summing P cache b q fs ∧
      ∀ l, Linked P b.1 l → l.Settled q.1 := by
  induction fuel generalizing p es with
  | zero =>
    have hle := h.length_le
    omega
  | succ fuel ih =>
    have hcalls : p.1.callNodes = b.1.callNodes := by rw [Graph.callNodes, h.nodes_eq, Graph.callNodes]
    simp only [summarizeRounds, ends_bind, ends_state, hcalls]
    refine (ends_summarizeCalls b.1.callNodes h (.refl _)).imp ?_
    rintro n q ⟨fs, hfs, rfl, hzero⟩
    split
    · rename_i hn
      obtain ⟨rfl, hsettled⟩ := hzero hn
      refine ⟨es, h, fun l hl => hsettled l ?_ hl⟩
      exact h.composed.mem_callNodes_iff.2 ⟨l.caller, hl.caller_mem, hl.call_mem⟩
    · simp only [ends_bind]
      refine ih hfs ?_
      rw [length_append]
      omega

/-! ## The finished system -/

section Congr

variable {g' : SystemGraph} (hpdgs : g.pdgs = g'.pdgs)
  (hjoined : ∀ s a b, s ≠ .summary → g.Joined s a b → g'.Joined s a b)

include hpdgs hjoined

theorem Crosses.congr {l : Link} {a fin fout r : Id} (h : Crosses P g l a fin fout r) :
    Crosses P g' l a fin fout r :=
  { h with
    linked := h.linked.congr (hpdgs ▸ .refl _)
    into := hjoined _ _ _ (by decide) h.into
    back := hjoined _ _ _ (by decide) h.back }

theorem Flows.congr {d : Pdg} {a c : Id} (h : Flows P g d a c) : Flows P g' d a c := by
  induction h with
  | stay d n => exact .stay d n
  | step hs hsrc hdst hedge hrest ih =>
    refine .step hs hsrc hdst (hjoined _ _ _ ?_ hedge) ih
    rintro rfl
    cases hs
  | through hcaller hcrosses hinside hrest ihinside ihrest =>
    exact .through hcaller (hcrosses.congr hpdgs hjoined) ihinside ihrest

theorem Balanced.congr {d : Pdg} {call : Node} {a r : Id} (h : Balanced P g d call a r) :
    Balanced P g' d call a r := by
  obtain ⟨callee, fin, fout, hcrosses, hflows⟩ := h
  exact ⟨callee, fin, fout, hcrosses.congr hpdgs hjoined, hflows.congr hpdgs hjoined⟩

end Congr

namespace Summing

variable {cache : BuildCache Pdg} {b q : SystemGraph × Trail} {es : List Edge}

theorem summaryEnds_eq (h : Summing P cache b q es) : q.1.summaryEnds = es.map Edge.ends := by
  have hbase : b.1.edges.filter (fun e => e.dependenceSort?.any [DependenceSort.summary].contains) = [] := by
    rw [filter_eq_nil_iff]
    intro e he hsort
    obtain ⟨s, hs, hmem⟩ := (Option.any_eq_true _ _).1 hsort
    rw [contains_iff_mem, mem_singleton] at hmem
    subst hmem
    exact h.composed.not_joined_summary e.src e.dst ⟨e, he, rfl, rfl, hs⟩
  have hadded : es.filter (fun e => e.dependenceSort?.any [DependenceSort.summary].contains) = es := by
    rw [filter_eq_self]
    intro e he
    rw [h.sort e he]
    rfl
  rw [summaryEnds, summaryEdges, Graph.edgesOfDependence, h.edges_eq, filter_append, hbase,
    hadded, nil_append]

/-- **When all calls are settled, the system is summarized.** -/
theorem summarized (h : Summing P cache b q es) (hsettled : ∀ l, Linked P b.1 l → l.Settled q.1) :
    Summarized P q.1 where
  calls := by
    rw [h.pdgs_eq, Graph.callNodes, h.nodes_eq]
    exact fun call hcall => h.composed.mem_callNodes_iff.1 hcall
  once := by
    rw [h.summaryEnds_eq]
    exact h.nodup
  mem_iff := by
    rw [h.pdgs_eq, h.summaryEnds_eq]
    intro d hd call hcall a r hpasses
    constructor
    · intro hmem
      obtain ⟨e, he, heq⟩ := mem_map.1 hmem
      cases heq
      obtain ⟨l, fin, fout, hcrosses, hflows⟩ := h.realized e he
      have hl := hcrosses.linked
      obtain ⟨rfl, rfl⟩ := h.composed.call_eq hd hl.caller_mem hcall hl.call_mem
        (h.composed.listed_of_passes hd hcall hpasses).1 (h.composed.listed_of_crosses hcrosses).1
      exact .congr h.pdgs_eq.symm (fun s a b _ => h.toGains.joined)
        ⟨l.callee, fin, fout, hcrosses, hflows⟩
    · intro hbalanced
      have hbase : Balanced P b.1 d call a r := hbalanced.congr h.pdgs_eq fun s a b hs hj =>
        (h.joined_iff.1 hj).resolve_right fun hsummary => hs hsummary.1
      obtain ⟨callee, hrealized⟩ := hbase
      have hj := h.joined_of_realized hsettled (l := ⟨call, d, callee⟩) hrealized
      exact ((h.joined_iff.1 hj).resolve_left (h.composed.not_joined_summary a r)).2
  only := by
    rw [h.pdgs_eq, h.summaryEnds_eq]
    intro w hw
    obtain ⟨e, he, rfl⟩ := mem_map.1 hw
    obtain ⟨l, fin, fout, hcrosses, -⟩ := h.realized e he
    exact ⟨l.caller, hcrosses.linked.caller_mem, l.call, hcrosses.linked.call_mem, hcrosses.passes⟩

end Summing

/-! ## Settled systems stay as they are -/

theorem ends_summarizeArguments_settled (hg : p.1.toGraph.Coherent) (formals : List Node)
    (sources : List Id) {result : Id} (position : Nat) (ains : List Node)
    (h : ∀ pair ∈ received formals position ains, pair.2.id ∈ sources →
      p.1.Joined .summary pair.1.id result) :
    Returns (summarizeArguments formals sources result position ains) p fun n q => n = 0 ∧ q = p := by
  induction ains generalizing position with
  | nil => exact ⟨rfl, rfl⟩
  | cons ain rest ih =>
    obtain ⟨hfirst, hrest⟩ := forall_mem_append.1 h
    simp only [summarizeArguments, ends_bind, ends_state]
    rw [if_neg]
    · exact ih (position + 1) hrest
    · rw [Bool.and_eq_true, Bool.not_eq_true', Option.any_eq_true]
      rintro ⟨⟨fin, hfin, hsource⟩, hlinked⟩
      have hjoined := hfirst (ain, fin) (by simp [hfin]) (by simpa using hsource)
      rw [← isLinked_iff hg, hlinked] at hjoined
      cases hjoined

theorem ends_summarizeCall_settled (hg : p.1.toGraph.Coherent) (hhoused : p.1.Housed) {l : Link}
    (hl : Linked P p.1 l) (h : l.Settled p.1) : Returns (summarizeCall l) p fun n q => n = 0 ∧ q = p := by
  obtain ⟨formals, ains, outs, result, hparts⟩ := hl.exists_parts hhoused
  simp only [summarizeCall, hparts.formals_eq, hparts.ains_eq, hparts.outs_eq, hparts.result_eq,
    lift_ok, pure_bind]
  split
  · simp only [ends_bind]
    refine ends_summarizeArguments_settled hg _ _ 0 ains fun pair hpair hsource => ?_
    refine h _ _ ⟨pair, ?_, _, hparts.returned_eq, rfl, rfl, hsource⟩
    rw [hparts.passed_eq]
    exact hpair
  · exact ⟨rfl, rfl⟩

theorem ends_summarizeCalls_settled (hg : p.1.toGraph.Coherent) (hhoused : p.1.Housed) (calls : List Node)
    (h : ∀ call ∈ calls, ∃ r, p.1.link? P call = .ok r ∧ ∀ l, r = some l → Linked P p.1 l ∧ l.Settled p.1) :
    Returns (summarizeCalls P calls) p fun n q => n = 0 ∧ q = p := by
  induction calls with
  | nil => exact ⟨rfl, rfl⟩
  | cons call rest ih =>
    rw [forall_mem_cons] at h
    obtain ⟨⟨r, hlink, hr⟩, hrest⟩ := h
    simp only [summarizeCalls, ends_bind, ends_state, hlink, lift_ok, ends_pure]
    cases r with
    | none =>
      simp only [ends_bind]
      refine (ih hrest).imp ?_
      rintro n q ⟨rfl, rfl⟩
      exact ⟨rfl, rfl⟩
    | some l =>
      obtain ⟨hl, hsettled⟩ := hr l rfl
      simp only [ends_bind]
      refine (ends_summarizeCall_settled hg hhoused hl hsettled).imp ?_
      rintro _ q ⟨rfl, rfl⟩
      refine (ih hrest).imp ?_
      rintro n q ⟨rfl, rfl⟩
      exact ⟨rfl, rfl⟩

/-- Adding summaries to a system whose calls are settled adds none, whichever ids come next. -/
theorem Summing.addSummaries_settled {q : SystemGraph × Trail} {es : List Edge}
    (h : Summing P cache b q es) (hsettled : ∀ l, Linked P b.1 l → l.Settled q.1) (t : Trail) :
    (addSummaries P).run (q.1, t) = (.ok 0, q.1, t) := by
  have hhoused : q.1.Housed := h.composed.housed.gains h.toGains
  have hround : Returns (addSummaries P) (q.1, t) fun n r => n = 0 ∧ r = (q.1, t) := by
    simp only [addSummaries, summarizeRounds, ends_bind]
    refine (ends_summarizeCalls_settled (p := (q.1, t)) h.growing.coherent hhoused _
      fun call hcall => ?_).imp ?_
    · rw [Graph.callNodes, h.nodes_eq] at hcall
      obtain ⟨r, hlink, hr⟩ := h.composed.exists_link hcall
      refine ⟨r, by rw [link?_congr h.pdgs_eq h.owner_eq, hlink], fun l hl => ?_⟩
      obtain ⟨-, hlinked⟩ := (hr l).1 hl
      exact ⟨hlinked.congr (h.pdgs_eq ▸ .refl _), hsettled l hlinked⟩
    · rintro _ r ⟨rfl, rfl⟩
      exact ⟨rfl, rfl⟩
  obtain ⟨n, r, hrun, rfl, rfl⟩ := hround.exists_run
  exact hrun

/-! ## Systems of one run -/

/-- Caches as they are filled in the course of one run: ids are handed out once. -/
inductive Filled : BuildCache Pdg × Trail → Prop where
  | start (t : Trail) : Filled ({}, t)
  | later {p : BuildCache Pdg × Trail} {t : Trail} (filled : Filled p) (le : p.2.next ≤ t.next) :
      Filled (p.1, t)
  | unit {p : BuildCache Pdg × Trail} (filled : Filled p) (context : Context) (u : UnitRef) :
      Filled ((cachedPdg context u).run p : Except Error Pdg × BuildCache Pdg × Trail).2
  | system {p : BuildCache Pdg × Trail} (filled : Filled p) (context : Context) (name : String)
      (us : List UnitRef) :
      Filled ((ofUnits context name us).run p : Except Error SystemGraph × BuildCache Pdg × Trail).2

/-- **A system that is put together is summarized.** -/
theorem ends_complete (context : Context) {p : BuildCache Pdg × Trail}
    (h : Composed context.program p.1 p.2.next g) (hg : Connected context.program g) :
    Returns (complete context g) p fun g' q => (Grown p q ∧ q.1 = p.1) ∧
      (∃ t es, SummaryGains (g, p.2) (g', t) es ∧ t.next = q.2.next) ∧ Summarized context.program g' ∧
      ∀ t, (addSummaries context.program).run (g', t) = (.ok 0, g', t) := by
  have hstart : Summing context.program p.1 (g, p.2) (g, p.2) [] :=
    ⟨.refl h.growing, h, hg, fun e he => nomatch he⟩
  have hfuel : g.argumentCount < g.argumentCount + g.edges.length + 1 + ([] : List Edge).length := by
    omega
  simp only [complete, ends_bind, ends_within]
  refine (ends_summarizeRounds _ hstart hfuel).imp ?_
  rintro n q ⟨es, hq, hsettled⟩
  have hgrown : ∀ log, Grown p (p.1, { q.2 with log := log }) := fun _ => .of_same rfl hq.le
  have hdone := hq.summarized hsettled
  have hagain := hq.addSummaries_settled hsettled
  have hgains : ∃ t es, SummaryGains (g, p.2) (q.1, t) es ∧ t.next = q.2.next :=
    ⟨q.2, es, hq.toSummaryGains, rfl⟩
  split <;> split <;> simp only [ends_bind, ends_report, ends_pure] <;>
    exact ⟨⟨hgrown _, trivial⟩, hgains, hdone, hagain⟩

theorem ends_ofUnits (context : Context) (name : String) (us : List UnitRef) {p : BuildCache Pdg × Trail}
    (h : p.1.Tidy p.2.next) : Ends (ofUnits context name us) p (fun g q => Grown p q ∧
      Summarized context.program g ∧ ∀ t, (addSummaries context.program).run (g, t) = (.ok 0, g, t))
      (fun e q => Grown p q ∧ (integrateEach context us (ofName name)).run p = (.error e, q)) := by
  simp only [ofUnits, ends_bind]
  refine ((ends_integrateEach context name us h).and (ends_run _ p)).imp ?_
  rintro g q ⟨⟨hgrown, hcomposed, hconnected⟩, -⟩
  exact (ends_complete context hcomposed hconnected).always fun _ _ hr => ⟨hgrown.trans hr.1.1, hr.2.2⟩

theorem Filled.tidy {p : BuildCache Pdg × Trail} (h : Filled p) : p.1.Tidy p.2.next := by
  induction h with
  | start t => exact .empty t.next
  | later _ hle ih => exact .subset ih (.refl _) hle
  | unit _ context u ih =>
    exact ((ends_cachedPdg context u _).mono (fun _ _ hq => hq.1.tidy ih) fun _ _ hq => hq.tidy ih).last
  | system _ context name us ih =>
    exact ((ends_ofUnits context name us ih).mono (fun _ _ hq => hq.1.tidy ih) fun _ _ hq =>
      hq.1.tidy ih).last

/-- **Summary edges are the balanced ways.**  When the units of a system were put together, adding
summaries comes to an end; the system then has one summary edge for each argument that comes back as
the result of its call and no other, and adding summaries again, under whichever ids, adds none and
changes nothing. -/
theorem built_summarized (context : Context) (name : String) (us : List UnitRef) {p : BuildCache Pdg × Trail}
    (h : Filled p) : (∀ g q, ((integrateEach context us (ofName name)).run p :
        Except Error SystemGraph × BuildCache Pdg × Trail) = (.ok g, q) →
      ∃ g' q', ((ofUnits context name us).run p : Except Error SystemGraph × BuildCache Pdg × Trail) =
      (.ok g', q')) ∧
    ∀ g q, ((ofUnits context name us).run p : Except Error SystemGraph × BuildCache Pdg × Trail) =
      (.ok g, q) → Summarized context.program g ∧
        ∀ t, ((addSummaries context.program).run (g, t) : Except Error Nat × SystemGraph × Trail) =
        (.ok 0, g, t) := by
  have hends := ends_ofUnits context name us h.tidy
  constructor
  · intro g q hrun
    have hfails := hends.mono (fun _ _ _ => trivial) fun e r hr => by
      rw [hrun] at hr
      exact (nomatch hr.2 : False)
    obtain ⟨g', q', hrun', -⟩ := hfails.exists_run
    exact ⟨g', q', hrun'⟩
  · intro g q hrun
    exact ((ends_iff_of_run hrun).1 hends).2

def passedValue (name owner : String) : Variable :=
  { name := name, type := "int", owner := owner, kind := .parameter }

/-- A method that returns its argument. -/
def echo : Method :=
  { name := "echo", parameters := [passedValue "x" "echo"], returnType := "int"
    body := .returnJump (.name (passedValue "x" "echo") "x" 2) 2 }

/-- A method that returns the first of its arguments, by way of `echo`. -/
def first : Method :=
  { name := "first", parameters := [passedValue "y" "first", passedValue "z" "first"], returnType := "int"
    body := .returnJump
      (.methodCall "echo" [.name (passedValue "y" "first") "y" 3] .absent (some ⟨0⟩) false 3) 3 }

/-- A method that passes its arguments on to `first`. -/
def relay : Method :=
  { name := "relay", parameters := [passedValue "v" "relay", passedValue "w" "relay"], returnType := "int"
    body := .returnJump (.methodCall "first" [.name (passedValue "v" "relay") "v" 4,
      .name (passedValue "w" "relay") "w" 4] .absent (some ⟨1⟩) false 4) 4 }

def relaying : Program :=
  { methods := [echo, first, relay] }

/-- The first argument of the outer call comes back through both calls; the second argument does
not. -/
theorem relay_summarized : Filled ({}, { next := 1 }) ∧ ∃ g q,
    ((ofUnits { program := relaying } "relay" [.method ⟨2⟩]).run ({}, { next := 1 }) :
      Except Error SystemGraph × BuildCache Pdg × Trail) = (.ok g, q) ∧
    Summarized relaying g ∧ g.summaryEnds = [(43, 44), (9, 11)] ∧
    ∃ d ∈ g.pdgs.values, ∃ call ∈ d.callNodes,
      Balanced relaying g d call 9 11 ∧ ¬ Balanced relaying g d call 10 11 := by
  obtain ⟨g, q, hrun, hends, d, hd, call, hcall, hfirst, hsecond⟩ := (by decide +kernel :
    Returns (ofUnits { program := relaying } "relay" [.method ⟨2⟩]) ({}, { next := 1 })
      fun g _ => g.summaryEnds = [(43, 44), (9, 11)] ∧
        ∃ d ∈ g.pdgs.values, ∃ call ∈ d.callNodes, Passes d call 9 11 ∧ Passes d call 10 11).exists_run
  have hsummarized :=
    ((built_summarized { program := relaying } "relay" [.method ⟨2⟩] (.start _)).2 g q hrun).1
  refine ⟨.start _, g, q, hrun, hsummarized, hends, d, hd, call, hcall, ?_, ?_⟩
  · rw [← hsummarized.mem_iff d hd call hcall 9 11 hfirst, hends]
    decide
  · rw [← hsummarized.mem_iff d hd call hcall 10 11 hsecond, hends]
    decide

end SystemGraph

end ProgramDependence
