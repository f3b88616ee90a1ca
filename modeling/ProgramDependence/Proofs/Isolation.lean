import ProgramDependence.Proofs.Alone
import ProgramDependence.Proofs.ClassTree
import ProgramDependence.Proofs.ClassUnion

/-!
# Members that fail

The members of a class are built one after the other.  A member that cannot be built is listed with
its error, and the others come out as if they were built alone: none is lost, none is changed, and
their order stays.  The dependence graphs are derived when all flow graphs are there, and the class
graph takes them in with summaries of their calls; neither step fails.
-/

namespace ProgramDependence

open List

open Tracked

/-- No statement of the unit is of an unknown form. -/
def Program.isKnown (P : Program) (u : UnitRef) : Bool :=
  (P.unknowns u).isEmpty

/-- A unit is listed by name, with the error that building it alone gives. -/
def Fails (context : Context) (u : UnitRef) (failure : String × Error) : Prop :=
  failure.1 = context.program.unitName u ∧
    ∀ {τ : Type} (numbering : Nat) (p : τ × Trail), Ends (Cfg.ofUnit (context.under numbering) u) p
      (fun _ _ => False) (fun e _ => e = failure.2)

/-- What building some units gives: results for those of known form and errors for the others, both
in the order of the units. -/
structure Isolated {α : Type} (context : Context) (us : List UnitRef) (result : UnitRef → α → Prop)
    (xs : List α) (failures : Table String Error) : Prop where
  built : List.Forall₂ result (us.filter context.program.isKnown) xs
  failed : List.Forall₂ (Fails context) (us.filter fun u => !context.program.isKnown u) failures.entries

namespace Isolated

variable {α : Type} {context : Context} {u : UnitRef} {us : List UnitRef}
    {result result' : UnitRef → α → Prop}
  {x : α} {xs : List α} {failures : Table String Error}

variable (h : Isolated context us result xs failures)
include h

theorem mono (hresult : ∀ u x, result u x → result' u x) : Isolated context us result' xs failures :=
  ⟨h.built.imp hresult, h.failed⟩

theorem cons_built (hu : context.program.isKnown u = true) (hx : result u x) :
    Isolated context (u :: us) result (x :: xs) failures where
  built := by
    rw [filter_cons_of_pos hu]
    exact .cons hx h.built
  failed := by
    rw [filter_cons_of_neg (by simp [hu])]
    exact h.failed

theorem cons_failed {failure : String × Error} (hu : context.program.isKnown u = false)
    (hfails : Fails context u failure) :
    Isolated context (u :: us) result xs ⟨failure :: failures.entries⟩ where
  built := by
    rw [filter_cons_of_neg (by simp [hu])]
    exact h.built
  failed := by
    rw [filter_cons_of_pos (by simp [hu])]
    exact .cons hfails h.failed

end Isolated

/-! ## Flow graphs -/

namespace Cfg

variable {σ : Type} {context : Context}

/-- The flow graph of a unit was built before an id was issued. -/
def BuiltBefore (σ : Type) (context : Context) (hi : Id) (u : UnitRef) (c : Cfg) : Prop :=
  context.program.Has u ∧ ∃ p q : σ × Trail,
    ((ofUnit context u).run p : Except Error Cfg × σ × Trail) = (.ok c, q) ∧ q.2.next ≤ hi

/-- A flow graph belongs to a unit and is built as if alone. -/
def MemberOf (context : Context) (u : UnitRef) (c : Cfg) : Prop :=
  c.entry.element = .ofUnit u ∧ c.AsAlone context u

section

variable {hi : Id} {u : UnitRef} {c : Cfg} (h : BuiltBefore σ context hi u c)

include h

theorem BuiltBefore.memberOf :
    c.MemberOf context u := by
  obtain ⟨hu, p, q, hrun, -⟩ := h
  exact ⟨((ends_iff_of_run hrun).1 (ends_ofUnit_readable hu p)).2.2, asAlone_of_run hrun⟩

theorem BuiltBefore.readable : c.Readable := by
  obtain ⟨hu, p, q, hrun, -⟩ := h
  exact ((ends_iff_of_run hrun).1 (ends_ofUnit_readable hu p)).1

end

theorem BuiltBefore.later {hi hi' : Id} {u : UnitRef} {c : Cfg} (h : BuiltBefore σ context hi u c)
    (hle : hi ≤ hi') : BuiltBefore σ context hi' u c := by
  obtain ⟨hu, p, q, hrun, hnext⟩ := h
  exact ⟨hu, p, q, hrun, Int.le_trans hnext hle⟩

/-- **Units are built one after the other, whether others fail or not.** -/
theorem ends_ofUnits_isolated (us : List UnitRef) (hhas : ∀ u ∈ us, context.program.Has u) (built : List Cfg)
    (failures : Table String Error) (hnames : (failures.keys ++ us.map context.program.unitName).Nodup)
    (p : σ × Trail) : Returns (ofUnits context us built failures) p
      fun a q => p.2.next ≤ q.2.next ∧ ∃ cs fs, a.1 = built ++ cs ∧ a.2.entries = failures.entries ++ fs ∧
        Isolated context us (BuiltBefore σ context q.2.next) cs ⟨fs⟩ := by
  induction us generalizing built failures p with
  | nil => exact ⟨Int.le_refl _, [], [], (append_nil _).symm, (append_nil _).symm, .nil, .nil⟩
  | cons u us ih =>
    rw [forall_mem_cons] at hhas
    simp only [ofUnits, catching, ends_bind, ends_tryCatch]
    apply (((ends_ofUnit_readable hhas.1 p).and (ends_run _ p)).and (ends_ofUnit_issued context u p)).mono
    · rintro c q ⟨⟨⟨-, hknown, -⟩, hrun⟩, -, -, hissued⟩
      have hrest := hnames.sublist ((sublist_cons_self _ _).append_left failures.keys)
      apply (ih hhas.2 (built ++ [c]) failures hrest q).imp
      rintro a r ⟨hle, cs, fs, hbuilt, hfailures, hisolated⟩
      refine ⟨Int.le_trans hissued.le hle, c :: cs, fs, ?_, hfailures, ?_⟩
      · rw [hbuilt, append_assoc, singleton_append]
      · apply hisolated.cons_built _ ⟨hhas.1, p, q, hrun, hle⟩
        rw [Program.isKnown, hknown]
        rfl
    · rintro e q ⟨⟨⟨hunknown, fault, rfl⟩, hrun⟩, -, hle⟩
      have hnew : failures.contains (context.program.unitName u) = false := by
        rw [← Bool.not_eq_true, Table.contains_iff]
        exact fun hmem => (nodup_append.1 hnames).2.2 _ hmem _ mem_cons_self rfl
      have hentries := Table.entries_insert_of_not_contains hnew
        (.construction (context.program.unitName u) fault)
      simp only [ends_pure, ends_bind, ends_report]
      refine (ih hhas.2 built _ ?_ _).imp ?_
      · rw [Table.keys, hentries, map_append, append_assoc]
        exact hnames
      rintro a r ⟨hle', cs, fs, hbuilt, hfailures, hisolated⟩
      refine ⟨Int.le_trans hle hle', cs, (context.program.unitName u, _) :: fs, hbuilt, ?_,
        hisolated.cons_failed ?_ ⟨rfl, fun numbering p' => ends_ofUnit_refused hrun numbering p'⟩⟩
      · rw [hfailures, hentries, append_assoc, singleton_append]
      · rw [Program.isKnown, isEmpty_eq_false_iff]
        exact hunknown

theorem ends_ofClass_isolated {r : ClassRef} {us : List UnitRef} (hmembers : context.program.Members r us)
    (hnames : (us.map context.program.unitName).Nodup) (p : σ × Trail) :
    Returns (ofClass context r) p fun a q =>
    Isolated context us (BuiltBefore σ context q.2.next) a.1 a.2 := by
  rw [ofClass, hmembers.memberUnits_eq]
  apply (ends_ofUnits_isolated us hmembers.has [] {} hnames p).imp
  rintro ⟨cs, failures⟩ q ⟨-, cs', fs, rfl, hfailures, hisolated⟩
  exact ⟨hisolated.built, hfailures ▸ hisolated.failed⟩

end Cfg

/-! ## Dependence graphs -/

namespace Pdg

variable {σ : Type} {context : Context} {u : UnitRef} {d d' : Pdg}

/-- A dependence graph of a unit was derived, under the ids that were left, from a flow graph built
before. -/
def DerivedOf (σ : Type) (context : Context) (u : UnitRef) (d : Pdg) : Prop :=
  ∃ c lo, Cfg.BuiltBefore σ context lo u c ∧ Laid context c lo d

/-- A dependence graph belongs to a unit and is built as if alone. -/
def MemberOf (context : Context) (u : UnitRef) (d : Pdg) : Prop :=
  d.entry.element = .ofUnit u ∧ d.AsAlone context u

theorem DerivedOf.memberOf (h : DerivedOf σ context u d) : d.MemberOf context u := by
  obtain ⟨c, lo, hbuilt, hlaid⟩ := h
  refine ⟨?_, ?_⟩
  · rw [hlaid.entry_eq]
    exact hbuilt.memberOf.1
  · obtain ⟨hu, p, q, hrun, hle⟩ := hbuilt
    exact hlaid.asAlone hu hrun hle

theorem Derived.intact {c : Cfg} (h : Derived context c d) (h' : Derived context c d')
    (hintact : d.Intact) : d'.Intact := by
  have hnodes : d'.nodes = d.nodes := h'.nodes_eq.trans h.nodes_eq.symm
  have hentry : d'.entry = d.entry := h'.entry_eq.trans h.entry_eq.symm
  refine ⟨h'.coherent, h'.isInner, ?_, ?_, ?_, ?_, ?_⟩
  · rw [hnodes]
    exact hintact.calls
  · rw [hnodes]
    exact hintact.lists
  · rw [hnodes]
    exact hintact.owned
  · rw [hnodes, hentry]
    exact hintact.entry_mem
  · rw [hentry]
    exact hintact.entry_payload

theorem DerivedOf.intact (h : DerivedOf σ context u d) : d.Intact := by
  obtain ⟨c, lo, hbuilt, hlaid⟩ := h
  have hreadable := hbuilt.readable
  obtain ⟨-, p, q, hrun, -⟩ := hbuilt
  have hends := ends_ofUnit_intact context u p
  rw [ofUnit, ends_bind, ends_iff_of_run hrun] at hends
  obtain ⟨d₀, -, -, ⟨hintact, -⟩, hlaid₀, -⟩ := ((hends.and (ends_ofCfg_readable hreadable q)).mono
    (fun _ _ hd => hd) fun _ _ hbad => hbad.2).exists_run
  exact hlaid₀.intact hlaid.toDerived hintact

theorem DerivedOf.unfrozen (h : DerivedOf σ context u d) : d.frozen = false := by
  obtain ⟨c, lo, -, hlaid⟩ := h
  exact congrArg (·.2.1) hlaid.frame_eq

theorem ends_ofCfgs_derivedOf {hi : Id} {us : List UnitRef} {cs : List Cfg}
    (h : List.Forall₂ (Cfg.BuiltBefore σ context hi) us cs) {p : σ × Trail} (hhi : hi ≤ p.2.next) :
    Returns (ofCfgs context cs) p fun ds _ => List.Forall₂ (DerivedOf σ context) us ds := by
  induction h generalizing p with
  | nil => exact .nil
  | @cons u c us cs hbuilt _ ih =>
    simp only [ofCfgs, ends_bind]
    apply (ends_ofCfg_readable hbuilt.readable p).imp
    rintro d q ⟨hlaid, -, hle⟩
    apply (ih (Int.le_trans hhi hle)).imp
    intro ds _ hds
    exact .cons ⟨c, p.2.next, hbuilt.later hhi, hlaid⟩ hds

theorem ends_ofClass_isolated {r : ClassRef} {us : List UnitRef} (hmembers : context.program.Members r us)
    (hnames : (us.map context.program.unitName).Nodup) (p : σ × Trail) :
    Returns (ofClass context r) p fun a _ => Isolated context us (DerivedOf σ context) a.1 a.2 := by
  simp only [ofClass, ends_bind]
  apply (Cfg.ends_ofClass_isolated hmembers hnames p).imp
  rintro ⟨cs, failures⟩ q hisolated
  apply (ends_ofCfgs_derivedOf hisolated.built (Int.le_refl _)).imp
  exact fun ds _ hds => ⟨hds, hisolated.failed⟩

/-! ## Summaries of calls -/

/-- A dependence graph that gained summaries of calls, if the settings ask for them, and nothing
else. -/
structure SummedUp (context : Context) (d d' : Pdg) : Prop where
  entry_eq : d'.entry = d.entry
  name_eq : d'.name = d.name
  cfg_eq : d'.cfg = d.cfg
  frame_eq : d'.toGraph.frame = d.toGraph.frame
  nodes_eq : d'.nodes = d.nodes
  edges_eq : ∃ es, d'.edges = d.edges ++ es ∧ ∀ e ∈ es, e.isSort .summary = true
  coherent : d'.toGraph.Coherent
  same : context.settings.conservativeSummaries.truthy = false → d' = d

theorem summaryEnds_congr (h : d'.nodes = d.nodes) (call : Node) :
    d'.summaryEnds call = d.summaryEnds call := by
  have hget : d'.getNode = d.getNode := by
    funext i
    rw [Graph.getNode, Graph.getNode, Graph.node?, Graph.node?, h]
  have hresult : ∀ ids, d'.findResult ids = d.findResult ids := by
    intro ids
    induction ids with
    | nil => rfl
    | cons i ids ih => rw [findResult, findResult, hget, ih]
  unfold summaryEnds returnActualOut actualIns
  simp only [hget, hresult]

theorem Intact.exists_summaryEnds (h : d.Intact) {call : Node} (hcall : call ∈ d.callNodes) :
    ∃ found, d.summaryEnds call = .ok found ∧ ∀ x ∈ found, x.1 ∈ d.nodeIds ∧ ∀ n ∈ x.2, n.id ∈ d.nodeIds := by
  obtain ⟨m, ins, outs, x, hpayload⟩ := h.exists_call hcall
  obtain ⟨result, hresult, hmem⟩ := h.exists_returnActualOut hcall hpayload
  obtain ⟨ains, hains, -, hmem'⟩ := h.exists_actualIns hcall hpayload
  rw [summaryEnds, hpayload]
  cases x with
  | false => exact ⟨none, rfl, by simp⟩
  | true =>
    simp only [hresult, hains]
    cases result with
    | none => exact ⟨none, rfl, by simp⟩
    | some r =>
      refine ⟨some (r.id, ains), rfl, ?_⟩
      rintro x ⟨⟩
      exact ⟨mem_map_of_mem (hmem r rfl).1, fun n hn => mem_map_of_mem (hmem' n hn)⟩

theorem ends_summarize_growing {result : Id} (ains : List Node) {p : Pdg × Trail}
    (h : p.1.toGraph.Growing p.2.next) (hresult : result ∈ p.1.nodeIds)
    (hains : ∀ n ∈ ains, n.id ∈ p.1.nodeIds) : Returns (summarize result ains) p
      fun _ q => q.1.toGraph.Growing q.2.next ∧ q.1.toGraph.frame = p.1.toGraph.frame := by
  induction ains generalizing p with
  | nil => exact ⟨h, rfl⟩
  | cons ain rest ih =>
    rw [forall_mem_cons] at hains
    have hadd := Graph.addEdge_eq (e := ⟨p.2.next, ain.id, result, .dependence .summary ain.defs.head? none⟩)
      h.unfrozen h.not_mem hains.1 hresult
    simp only [summarize, ends_bind, ends_freshId, ends_attempt]
    simp only [hadd]
    exact ih (h.appendEdge hains.1 hresult _) hresult hains.2

theorem ends_summarizeCalls_growing (hd : d.Intact) {calls : List Node} (hcalls : calls ⊆ d.callNodes)
    {p : Pdg × Trail} (hnodes : p.1.nodes = d.nodes) (h : p.1.toGraph.Growing p.2.next) :
    Returns (summarizeCalls calls) p
      fun _ q => q.1.toGraph.Growing q.2.next ∧ q.1.toGraph.frame = p.1.toGraph.frame := by
  induction calls generalizing p with
  | nil => exact ⟨h, rfl⟩
  | cons call rest ih =>
    rw [cons_subset] at hcalls
    obtain ⟨found, hfound, hmem⟩ := hd.exists_summaryEnds hcalls.1
    have hids : p.1.nodeIds = d.nodeIds := by rw [Graph.nodeIds, Graph.nodeIds, hnodes]
    simp only [summarizeCalls, ends_bind, ends_state, summaryEnds_congr hnodes, hfound]
    cases found with
    | none => exact ih hcalls.2 hnodes h
    | some ends =>
      obtain ⟨hresult, hains⟩ := hmem ends rfl
      rw [← hids] at hresult hains
      simp only [ends_bind]
      apply ((ends_summarize_growing ends.2 h hresult hains).and (ends_summarize ends.1 ends.2 p)).mono _
        fun _ _ hbad => hbad.1
      rintro _ q ⟨⟨hgrowing, hframe⟩, hsummed⟩
      apply (ih hcalls.2 (hsummed.nodes_eq.trans hnodes) hgrowing).imp
      rintro _ r ⟨hgrowing', hframe'⟩
      exact ⟨hgrowing', hframe'.trans hframe⟩

/-- **An intact dependence graph takes the summaries that the settings ask for.** -/
theorem Intact.ends_summaries (hd : d.Intact) {t : Trail} (h : d.toGraph.Growing t.next) :
    Returns (do
        if context.settings.conservativeSummaries.truthy then
          let _ ← addConservativeSummaries) (d, t)
      fun _ q => Summed (d, t) q ∧ d.SummedUp context q.1 := by
  cases hsettings : context.settings.conservativeSummaries.truthy with
  | false =>
    exact ⟨.refl _, rfl, rfl, rfl, rfl, rfl, ⟨[], (append_nil _).symm, by simp⟩, hd.coherent, fun _ => rfl⟩
  | true =>
    simp only [if_true, ends_bind]
    apply ((ends_summarizeCalls_growing hd (.refl _) (p := (d, t)) rfl h).and
      (ends_summarizeCalls _ _)).mono _ fun _ _ hbad => hbad.1
    rintro _ q ⟨⟨hgrowing, hframe⟩, hsummed⟩
    obtain ⟨es, hedges, hsorts, -⟩ := hsummed.edges
    refine ⟨hsummed, ?_, ?_, ?_, hframe, hsummed.nodes_eq, ⟨es, hedges, hsorts⟩, hgrowing.coherent, ?_⟩
    · rw [hsummed.same]
    · rw [hsummed.same]
    · rw [hsummed.same]
    · intro hfalse
      rw [hsettings] at hfalse
      cases hfalse

/-- A dependence graph belongs to a unit and is built as if alone, apart from summaries of calls. -/
def SummedMemberOf (context : Context) (u : UnitRef) (d : Pdg) : Prop :=
  ∃ d₀ : Pdg, d₀.MemberOf context u ∧ d₀.SummedUp context d

end Pdg

/-! ## Class graphs -/

namespace ClassGraph

variable {σ : Type} {context : Context}

/-- **Members are taken in one after the other without fail.** -/
theorem ends_addPdgs_derivedOf {lo : Id} {flows : List Part} {us : List UnitRef} {ds : List Pdg}
    (hds : List.Forall₂ (Pdg.DerivedOf σ context) us ds) {p : ClassGraph × Trail}
    (h : Gathering lo p.2.next flows p.1 ds) : Returns (addPdgs context ds) p
      fun _ q => ∃ ds', q.1.pdgs = p.1.pdgs ++ ds' ∧
        List.Forall₂ (Pdg.SummedMemberOf context) us ds' ∧ q.1.failures = p.1.failures := by
  induction hds generalizing p with
  | nil => exact ⟨[], (append_nil _).symm, .nil, rfl⟩
  | @cons u d us ds hderived _ ih =>
    have hgrowing : d.toGraph.Growing p.2.next := by
      refine ⟨hderived.intact.coherent, hderived.unfrozen, fun e he => ?_⟩
      exact (h.issued.bounds (.edge e)
        (mem_append_right _ (mem_flatMap.2 ⟨d, mem_cons_self, mem_map_of_mem he⟩))).2
    simp only [addPdgs, ends_bind, ends_within]
    apply (hderived.intact.ends_summaries hgrowing).imp
    rintro _ q ⟨hsummed, hsummedUp⟩
    apply (h.ends_addPdg hsummed).imp
    rintro _ r ⟨hgathers, hpdgs, hfailures, -, -⟩
    apply (ih hgathers).imp
    rintro _ s ⟨ds', hpdgs', hsummeds, hfailures'⟩
    refine ⟨q.1 :: ds', ?_, .cons ⟨d, hderived.memberOf, hsummedUp⟩ hsummeds, hfailures'.trans hfailures⟩
    rw [hpdgs', hpdgs, append_assoc, singleton_append]

theorem ends_ofClass_isolated {r : ClassRef} {us : List UnitRef} (hmembers : context.program.Members r us)
    (hnames : (us.map context.program.unitName).Nodup) (decl : ClassDecl) (p : σ × Trail) :
    Returns (ofClass context r decl) p
      fun g _ => Isolated context us (Pdg.SummedMemberOf context) g.pdgs g.failures := by
  simp only [ofClass, ends_bind, ends_within]
  apply ((Pdg.ends_ofClass_isolated hmembers hnames _).and (Pdg.ends_ofClass_issued context r _)).mono
  · rintro ⟨ds, failures⟩ q ⟨hisolated, -, hovers, mid, hflows, hedges⟩
    apply (ends_addPdgs_derivedOf hisolated.built (.start rfl hovers hflows hedges)).imp
    rintro _ s ⟨ds', hpdgs, hsummeds, hfailures⟩
    have hresult : Isolated context us (Pdg.SummedMemberOf context) s.1.pdgs s.1.failures := by
      rw [hpdgs, hfailures]
      exact ⟨hsummeds, hisolated.failed⟩
    split
    · exact hresult
    · exact hresult
  · exact fun _ _ hbad => hbad.1

end ClassGraph

/-- **Members that fail do not disturb the others.**  Of a class tree whose members have different
names, flow graphs, dependence graphs and the class graph are built whatever the members contain.
The members are the fields and methods of the class, followed by those of the classes inside it.
Those with a statement of an unknown form are listed with the error that building them alone gives;
all others are built as if alone, in order. -/
theorem members_isolated {σ : Type} (context : Context) {r : ClassRef} {us : List UnitRef}
    (hmembers : context.program.Members r us) (hnames : (us.map context.program.unitName).Nodup)
    (p : σ × Trail) :
    (∃ cs failures q,
      ((Cfg.ofClass context r).run p : Except Error (List Cfg × Table String Error) × σ × Trail) =
        (.ok (cs, failures), q) ∧ Isolated context us (Cfg.MemberOf context) cs failures) ∧
      (∃ ds failures q,
      ((Pdg.ofClass context r).run p : Except Error (List Pdg × Table String Error) × σ × Trail) =
        (.ok (ds, failures), q) ∧ Isolated context us (Pdg.MemberOf context) ds failures) ∧
      ∀ decl : ClassDecl, ∃ g q,
      ((ClassGraph.ofClass context r decl).run p : Except Error ClassGraph × σ × Trail) =
        (.ok g, q) ∧ Isolated context us (Pdg.SummedMemberOf context) g.pdgs g.failures := by
  refine ⟨?_, ?_, fun decl => (ClassGraph.ends_ofClass_isolated hmembers hnames decl p).exists_run⟩
  · obtain ⟨⟨cs, failures⟩, q, hrun, hisolated⟩ := (Cfg.ends_ofClass_isolated hmembers hnames p).exists_run
    exact ⟨cs, failures, q, hrun, hisolated.mono fun _ _ hbuilt => hbuilt.memberOf⟩
  · obtain ⟨⟨ds, failures⟩, q, hrun, hisolated⟩ := (Pdg.ends_ofClass_isolated hmembers hnames p).exists_run
    exact ⟨ds, failures, q, hrun, hisolated.mono fun _ _ hderived => hderived.memberOf⟩

/-- A class with an inner one.  `add` calls `twice`, and `halt` has a statement of an unknown form. -/
def register : Program :=
  { fields := [
      { name := "total", type := "int", initializer := .literal "0" "int" 1, declaring := some ⟨0⟩ },
      { name := "key", type := "int", declaring := some ⟨1⟩ }]
    methods := [
      { name := "twice", returnType := "int", declaring := some ⟨0⟩
        parameters := [{ name := "x", type := "int", owner := "Register#twice(int)", kind := .parameter }]
        body := .returnJump (.literal "2" "int" 3) 3 },
      { name := "halt", body := .other "goto_statement" 4, declaring := some ⟨0⟩ },
      { name := "add", declaring := some ⟨0⟩
        body := .expression (.methodCall "twice" [.literal "1" "int" 5] .absent (some ⟨0⟩) false 5) 5 },
      { name := "clear", body := .empty 8, declaring := some ⟨1⟩ }]
    classes := [
      { qualifiedName := "Register", fields := [⟨0⟩], methods := [⟨0⟩, ⟨1⟩, ⟨2⟩], inner := [⟨1⟩] },
      { qualifiedName := "Register.Entry", fields := [⟨1⟩], methods := [⟨3⟩] }] }

def registerMembers : List UnitRef :=
  [.field ⟨0⟩, .method ⟨0⟩, .method ⟨1⟩, .method ⟨2⟩, .field ⟨1⟩, .method ⟨3⟩]

/-- `halt` fails, the members before and after it are built, and the call gains a summary in the
class graph. -/
theorem register_isolated : register.Members ⟨0⟩ registerMembers ∧
    (registerMembers.map register.unitName).Nodup ∧
    (∃ cs failures q, ((Cfg.ofClass { program := register } ⟨0⟩).run ((), { next := 1 }) :
        Except Error (List Cfg × Table String Error) × Unit × Trail) = (.ok (cs, failures), q) ∧
      failures.keys = ["Register#halt()"] ∧
      Isolated { program := register } registerMembers (Cfg.MemberOf { program := register }) cs failures) ∧
    ∃ g q, ((ClassGraph.ofClass { program := register } ⟨0⟩ { qualifiedName := "Register" }).run
        ((), { next := 1 }) : Except Error ClassGraph × Unit × Trail) = (.ok g, q) ∧
      g.pdgs.map (·.name) = ["Register#total", "Register#twice(int)", "Register#add()", "Register.Entry#key",
        "Register.Entry#clear()"] ∧
      g.pdgs.map (fun d => (d.edges.filter (·.isSort .summary)).length) = [0, 0, 1, 0, 0] ∧
      Isolated { program := register } registerMembers (Pdg.SummedMemberOf { program := register }) g.pdgs
        g.failures := by
  have hinner : register.Members ⟨1⟩ [.field ⟨1⟩, .method ⟨3⟩] := by
    apply Program.Members.intro
      (c := { qualifiedName := "Register.Entry", fields := [⟨1⟩], methods := [⟨3⟩] }) rfl
    · exact forall_mem_singleton.2 rfl
    · exact forall_mem_singleton.2 rfl
    · exact .nil
  have hmembers : register.Members ⟨0⟩ registerMembers := by
    apply Program.Members.intro
      (c := { qualifiedName := "Register", fields := [⟨0⟩], methods := [⟨0⟩, ⟨1⟩, ⟨2⟩],
                                        inner := [⟨1⟩] }) rfl
    · exact forall_mem_singleton.2 rfl
    · simp [Program.Has, register, Program.method?]
    · exact .cons hinner .nil
  have hnames : (registerMembers.map register.unitName).Nodup := by decide +kernel
  obtain ⟨⟨cs, failures, q, hrun, hisolated⟩, -, hclass⟩ :=
    members_isolated { program := register } hmembers hnames ((), { next := 1 })
  obtain ⟨g, q', hrun', hisolated'⟩ := hclass { qualifiedName := "Register" }
  have hkeys := (ends_iff_of_run hrun).1 (by decide +kernel :
    Returns (Cfg.ofClass { program := register } ⟨0⟩) ((), { next := 1 }) fun a _ =>
    a.2.keys = ["Register#halt()"])
  refine ⟨hmembers, hnames, ⟨cs, failures, q, hrun, hkeys, hisolated⟩, g, q', hrun', and_assoc.1
    ⟨?_, hisolated'⟩⟩
  exact of_run hrun' (by decide +kernel)

end ProgramDependence
