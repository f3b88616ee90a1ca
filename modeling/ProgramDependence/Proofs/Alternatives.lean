import ProgramDependence.Proofs.Statements

/-!
# Switches, exceptions, and all statements

The cases of a switch and the clauses of a try statement are lowered one after the other.  With them
every form of statement is covered: `lowerable` says that lowering follows the source.
-/

namespace ProgramDependence

open List Line

namespace Lowering

open Tracked Graph

variable {scope : Scope} {p q r : State × Trail} {pending out mid : Pending}
variable {line : Int} {cs : List SwitchCase} {arms : Arms Token} {l : Line Token}

/-! ## Switches -/

theorem ends_lowerDefault (switch : Id) (c : SwitchCase) (hp : Sane p) : Returns (lowerDefault switch c) p
      fun node q => Created ⟨node, c.label .switchDefault⟩ p q ∧ notesOf q = notesOf p ∧
        q.1.pendingLabel = p.1.pendingLabel := by
  have hcreated := created_newNode hp.fit (c.label .switchDefault) .none
  rw [lowerDefault, returns_bind, ends_newNode, ends_bind, ends_changeNode, ends_pure]
  exact ⟨hcreated.retouch switch fun n => by split <;> rfl, rfl, rfl⟩

theorem token_foldl {f : Node → Variable → Node} (hf : ∀ n v, (f n v).token = n.token)
    (vs : List Variable) (n : Node) : (vs.foldl f n).token = n.token := by
  induction vs generalizing n with
  | nil => rfl
  | cons v vs ih =>
    rw [foldl_cons]
    exact (ih _).trans (hf n v)

theorem ends_lowerGuard (switch : Id) (c : SwitchCase) (hp : Sane p) (hpending : Sound p.1 pending) :
    Returns (lowerGuard scope switch c pending) p fun node q => ∃ l, Laid l pending p q ∧
        l.node.id = node ∧ Reads scope l (c.label .switchCase) [c.guard] p q := by
  have hcreated := created_newNode hp.fit (c.label .switchCase) .none
  rw [lowerGuard, returns_bind, ends_newNode, ends_bind, ends_state]
  have hrest : ∀ q, Created ⟨p.2.next, c.label .switchCase⟩ p q → Returns (do
      visitNode scope p.2.next [c.guard]
      chain pending
      return p.2.next) q
      fun node q => ∃ l, Laid l pending p q ∧ l.node.id = node ∧
        Reads scope l (c.label .switchCase) [c.guard] p q := by
    intro q hq
    refine ends_visitChain [c.guard] hq hpending fun l u hlaid hnode _ hreads => ?_
    exact ⟨l, hlaid, by rw [hnode], hreads⟩
  split
  · rename_i s _
    rw [ends_bind]
    exact hrest _ (hcreated.retouch p.2.next fun n =>
      (token_foldl token_addUse s.uses _).trans (token_foldl token_addDef s.defs n))
  · exact hrest _ hcreated

/-- What the cases of structured control share with the cases of their source. -/
structure MirrorsCases (cs : List SwitchCase) (arms : Arms Token) : Prop where
  tests : ∀ t ∈ arms.tests, t.label.sort.isLoop = true
  fits : ∀ x next missed, ∀ d ∈ arms.ways x next missed, d.Fits
  defaults : casesSingle cs = true → arms.singleDefaults = true
  length_eq : arms.defaults.length = (cs.filter (·.guard.isAbsent)).length
  known : casesUnknowns cs = []

/-- Lowering the cases of a switch lowers the cases of structured control. -/
def LowerableCases (scope : Scope) (cs : List SwitchCase) : Prop :=
  ∀ ⦃p : State × Trail⦄ ⦃switch : Id⦄ (progress : CaseProgress), Sane p →
    Anchored p.1.graph progress.guard → Anchored p.1.graph progress.fall →
    Ends (lowerCases scope switch cs progress) p
      (fun progress' q => ∃ arms,
        LoweredArms arms progress.guard progress.fall progress'.guard progress'.fall p q ∧
        progress'.default = (arms.defaults.getLast?.map (·.id)).or progress.default ∧
        MirrorsCases cs arms ∧ (casesRegular cs = true → p.1.pendingLabel = none →
          Tells (arms.map Token.label) q (armsOf scope cs (notesOf p)) none))
      (fun e _ => Stuck scope (casesUnknowns cs) e)

theorem lowerableCases_nil : LowerableCases scope [] :=
  fun _ _ _ hp _ _ => ⟨.nil, .nil hp, rfl,
    ⟨by simp [Arms.tests], by simp [Arms.ways], fun _ => rfl, rfl, rfl⟩, fun _ hnone => ⟨rfl, rfl, hnone⟩⟩

theorem MirrorsCases.cons {g : Expr} {ss : List Stmt}
    {body : Control Token} {arms' : Arms Token} (hbody : Reflects (allSingle ss) (allUnknowns ss) body)
    (harms : MirrorsCases cs arms) (htests : arms'.tests = body.tests ++ arms.tests)
    (hfits : ∀ x next missed, ∀ d ∈ arms'.ways x next missed, d.Fits ∨
      d ∈ body.ways x (arms.bodyEntry next) ++ arms.ways (x.forget body.labels) next missed)
    (hdefaults : arms'.singleDefaults = (body.singleDefaults && arms.singleDefaults))
    (hlength : arms'.defaults.length = (if g.isAbsent then 1 else 0) + arms.defaults.length) :
    MirrorsCases (.mk g ss line :: cs) arms' := by
  refine ⟨fun t ht => ?_, fun x next missed d hd => ?_, fun hs => ?_, ?_,
    append_eq_nil_iff.2 ⟨hbody.known, harms.known⟩⟩
  · rw [htests] at ht
    exact (mem_append.1 ht).elim (hbody.tests t) (harms.tests t)
  · refine (hfits x next missed d hd).elim id fun hd => ?_
    exact (mem_append.1 hd).elim (hbody.fits _ _ d) (harms.fits _ _ _ d)
  · rw [casesSingle, Bool.and_eq_true] at hs
    rw [hdefaults, hbody.defaults hs.1, harms.defaults hs.2, Bool.and_true]
  · have hguard : (SwitchCase.mk g ss line).guard = g := rfl
    rw [hlength, harms.length_eq, filter_cons, hguard]
    split
    · rw [length_cons, Nat.add_comm]
    · rw [Nat.zero_add]

/-- A case is lowered before those after it. -/
theorem LowerableAll.consCase {g : Expr} {ss : List Stmt}
    (hss : LowerableAll scope ss) (hcs : LowerableCases scope cs) :
    LowerableCases scope (.mk g ss line :: cs) := by
  intro p switch progress hp hguard hfall
  by_cases hg : g.isAbsent = true
  · rw [lowerCases]
    simp only [hg, if_true, ends_bind]
    refine (ends_lowerDefault switch (.mk g ss line) hp).always ?_
    rintro node q ⟨hcreated, hnotes, hlabel⟩
    have hq : Sane q := hp.grow hcreated.grows hcreated.sameParked
    have hopen : Anchored q.1.graph (onward node ++ progress.fall) := Anchored.append_iff.2
      ⟨Anchored.onward_iff.2 (hcreated.grows.mem_nodeIds.2 (.inr (by simp))),
      hfall.mono hcreated.grows.subset⟩
    refine (hss hq hopen.sound).mono ?_ fun _ _ h => h.left _
    rintro fall r ⟨body, hbody, hmirrors, hfollows⟩
    have hguard' : Anchored r.1.graph progress.guard :=
      (hguard.mono hcreated.grows.subset).mono hbody.subset
    refine (hcs ⟨progress.guard, fall, some node⟩ hbody.sane hguard'
      (hbody.anchor hopen)).mono ?_ fun _ _ h => h.right _
    rintro progress' u ⟨arms, harms, hdefault, hmirrors', hfollows'⟩
    refine ⟨_, .defaulted hcreated hfall hbody harms, ?_,
      .cons hmirrors hmirrors' rfl (fun x next missed d hd => ?_) rfl
        (by simp [Arms.defaults, hg, Nat.add_comm]), fun hregular hnone => ?_⟩
    · rw [hdefault, Arms.defaults, getLast?_cons]
      cases arms.defaults.getLast? <;> rfl
    · rcases mem_cons.1 hd with rfl | hd
      · exact .inl rfl
      · exact .inr hd
    · simp only [casesRegular, Bool.and_eq_true] at hregular
      obtain ⟨hb₁, hb₂, hb₃⟩ := hfollows hregular.1 (hlabel.trans hnone)
      obtain ⟨ha₁, ha₂, ha₃⟩ := hfollows' hregular.2 hb₃
      rw [hnotes] at hb₁ hb₂
      rw [hb₂] at ha₁ ha₂
      rw [armsOf, if_pos hg, Arms.map, hb₁, ha₁]
      exact ⟨rfl, ha₂, ha₃⟩
  · rw [lowerCases]
    simp only [hg, Bool.false_eq_true, if_false, ends_bind]
    refine (ends_lowerGuard switch (.mk g ss line) hp hguard.sound).always ?_
    rintro node q ⟨l, hlaid, rfl, hlabels, hnotes⟩
    have hopen : Anchored q.1.graph (onward l.node.id ++ progress.fall) := Anchored.append_iff.2
      ⟨Anchored.onward_iff.2 hlaid.node_mem, hfall.mono hlaid.grows.subset⟩
    refine (hss (hlaid.sane hp) hopen.sound).mono ?_ fun _ _ h => h.left _
    rintro fall r ⟨body, hbody, hmirrors, hfollows⟩
    have hleave : Anchored r.1.graph [leave l.node.id .false] := by
      simpa using hbody.subset hlaid.node_mem
    refine (hcs ⟨[leave l.node.id .false], fall, progress.default⟩ hbody.sane hleave
      (hbody.anchor hopen)).mono ?_ fun _ _ h => h.right _
    rintro progress' u ⟨arms, harms, hdefault, hmirrors', hfollows'⟩
    refine ⟨_, .guarded hlaid hguard hfall hbody harms, hdefault,
      .cons hmirrors hmirrors' rfl (fun x next missed d hd => ?_) rfl (by simp [Arms.defaults, hg]),
      fun hregular hnone => ?_⟩
    · rcases mem_append.1 hd with hd | hd
      · exact .inl (Stands.fits (.fork _ _) (hlabels ▸ lineOf_stands rfl) d hd)
      · exact .inr hd
    simp only [casesRegular, Bool.and_eq_true] at hregular
    obtain ⟨hb₁, hb₂, hb₃⟩ := hfollows hregular.1 (hlaid.pendingLabel_eq.trans hnone)
    obtain ⟨ha₁, ha₂, ha₃⟩ := hfollows' hregular.2 hb₃
    rw [hnotes] at hb₁ hb₂
    rw [hb₂] at ha₁ ha₂
    rw [armsOf, if_neg hg, Arms.map, hlabels, hb₁, ha₁]
    exact ⟨rfl, ha₂, ha₃⟩

variable {good : Unit → State × Trail → Prop} {bad : Error → State × Trail → Prop}

theorem ends_enter_switch : Ends (enter .switch none) p good bad ↔ good () (entered .switch none p) :=
  .rfl

/-- The edge after the last guard goes to the last default case, if there is one, and lowering goes
on. -/
theorem ends_missed {α : Type} {guard fall guard' fall' : Pending} {default : Option Id}
    (harms : LoweredArms arms guard fall guard' fall' p q) (hguard : Anchored q.1.graph guard')
    (hdefault : default = arms.defaults.getLast?.map (·.id)) {rest : Pending → Lower α}
    {good : α → State × Trail → Prop}
    (hrest : ∀ open' r, Missed arms guard' open' q r → Ends (rest open') r good bad) :
    Ends (match default with
      | some d => do
          connect guard' d none
          let open' ← pure []
          rest open'
      | none => do
          let open' ← pure guard'
          rest open') q good bad := by
  cases hlast : arms.defaults.getLast? with
  | none =>
    rw [hdefault, hlast]
    exact hrest guard' q (.inr ⟨hlast, rfl, rfl⟩)
  | some d =>
    obtain ⟨planned, hgrows, -⟩ := harms.balance
    have hmem : d ∈ arms.defaults := mem_of_getLast? hlast
    have hd : d.id ∈ q.1.graph.nodeIds :=
      hgrows.mem_nodeIds.2 (.inr (mem_map_of_mem (by simp [hmem])))
    rw [hdefault, hlast]
    simp only [Option.map_some, ends_bind]
    have hclear : Clear q.1.graph guard' d.id := .of_not_wired fun w hw =>
      harms.default_not_wired hmem hw
    refine (ends_connect none harms.sane.fit hd hguard.sound hclear).always ?_
    exact fun _ r hr => hrest [] r (.inl ⟨d, hlast, hr, rfl⟩)

theorem MirrorsCases.switch {e : Expr} (h : MirrorsCases cs arms)
    (hl : (l.map Token.label).Stands (·.forks = true)) :
    Mirrors (Stmt.switch e cs line).singleDefaults (.switch l arms) := by
  refine ⟨h.tests, fun x next d hd => ?_, fun hs => ?_⟩
  · rcases mem_append.1 hd with hd | hd
    · exact Stands.fits (.fork _ _) hl d hd
    · exact h.fits _ _ _ d hd
  simp only [Stmt.singleDefaults, Bool.and_eq_true, decide_eq_true_eq] at hs
  simp [Control.singleDefaults, h.length_eq, hs.1, h.defaults hs.2]

/-- **A switch is lowered by its cases.** -/
theorem LowerableCases.switch {e : Expr} (hcs : LowerableCases scope cs) :
    Lowerable scope (.switch e cs line) := by
  intro p pending hp hpending
  have hcreated := created_newNode hp.fit ((Stmt.switch e cs line).label .switch) (.switch none)
  rw [lower, ends_bind, ends_newNode]
  refine ends_visitChain [e] hcreated hpending fun l q hlaid hnode _ hvisited => ?_
  obtain ⟨hlabels, hnotes⟩ := hvisited
  have hid : p.2.next = l.node.id := by rw [hnode]
  have hq := (hlaid.sane hp).entered .switch none
  have honward : Anchored (entered .switch none q).1.graph (onward l.node.id) :=
    Anchored.onward_iff.2 hlaid.node_mem
  rw [hid, ends_bind, ends_enter_switch, ends_bind]
  refine (hcs ⟨onward l.node.id, [], none⟩ hq honward .nil).imp ?_
  rintro progress r ⟨arms, harms, hdefault, hmirrors, hfollows⟩
  rw [Option.or_none] at hdefault
  refine ends_missed harms (harms.guards honward) hdefault fun open' u hmissed => ?_
  have hswitch := Lowered.switch hlaid harms hmissed
  rw [ends_bind, ends_exit]
  refine (ends_lowerMerge _ _ hswitch.sane (hswitch.sound hpending)).always ?_
  rintro _ v ⟨t, hlabel, hlaid', rfl, hnotes'⟩
  refine ⟨_, hswitch.seq (.line hswitch.sane hlaid'),
    ⟨(hmirrors.switch (hlabels ▸ lineOf_stands rfl)).seq (.line (stands_join hlabel)), hmirrors.known⟩,
    fun hregular hown => ?_⟩
  obtain ⟨ha₁, ha₂, ha₃⟩ := hfollows hregular rfl
  have hstart : notesOf (entered .switch none q) = notesOf q := rfl
  have hkept : u.1 = { r.1 with graph := u.1.graph, heads := u.1.heads } := by
    rcases hmissed with ⟨d, -, hconnect, -⟩ | ⟨-, rfl, -⟩
    · exact hconnect.kept
    · rfl
  have hleft : notesOf (left u) = notesOf r := by
    simp only [notesOf, left]
    rw [hkept]
  have hlabel' : (left u).1.pendingLabel = r.1.pendingLabel := by
    simp only [left]
    rw [hkept]
  rw [hstart, hnotes] at ha₁ ha₂
  refine ⟨?_, hnotes'.trans (hleft.trans ha₂), hlaid'.pendingLabel_eq.trans (hlabel'.trans ha₃)⟩
  simp only [Control.map, hlabels, ha₁, map_single, hlabel]
  rfl

/-! ## Exceptions -/

theorem Laid.retouch (h : Laid l pending p q) (id : Id) {f : Node → Node} (hf : ∀ n, (f n).token = n.token) :
    Laid l pending p ({ q.1 with graph := q.1.graph.modifyNode id f }, q.2) := by
  refine ⟨by rw [h.kept], ?_, h.settles, h.reports⟩
  have hgrows := h.grows.trans (.modifyNode h.grows.fit id hf)
  rwa [append_nil, append_nil] at hgrows

theorem Laid.ends_changeNode (h : Laid l pending p q) (id : Id) {f : Node → Node}
    (hf : ∀ n, (f n).token = n.token) (hgood : ∀ r, Laid l pending p r → notesOf r = notesOf q → good () r) :
    Ends (changeNode id f) q good bad :=
  hgood _ (h.retouch id hf) rfl

theorem Created.received {n t : Token} {u : State × Trail} {v : Variable} (specials : Nat)
    (h : Created t p q) (hu : u.1 = { q.1 with specials, graph := u.1.graph })
    (hgrows : Grows (q.1.graph.modifyNode t.id (·.addUse v)) u.1.graph q.2.next u.2.next []
      [⟨n.id, t.id, .true, none⟩]) :
    Laid (.single t) (onward n.id) p u := by
  have huse := Grows.modifyNode h.grows.fit t.id fun n => token_addUse n v
  refine ⟨?_, ?_, ?_, ?_⟩
  · rw [hu, h.kept]
  · have hall := h.grows.trans (huse.trans hgrows)
    simpa [Line.single, Line.all, Line.first, links, Target.wire, Token.target] using hall
  · have hheads : u.1.heads = p.1.heads := by rw [hu, h.kept]
    rw [hheads]
    exact .idle fun i _ hw => by simp [Waits, onward, leave] at hw
  · rw [hu]
    exact h.reports

theorem ends_lowerCatch (tryNode : Id) (c : CatchClause) (hp : Sane p)
    (hpending : Sound p.1 pending) : Returns (lowerCatch scope tryNode c pending) p
      fun ids q => ∃ (n t : Token) (r : State × Trail), ids = (n.id, t.id) ∧
        n.label = c.label (.statement .catchClause) ∧ t.label = c.label (.parameter .formalIn) ∧
        Laid (.single n) pending p r ∧ Laid (.single t) (onward n.id) r q ∧
        notesOf q = (notesOf p).special := by
  have hcreated := created_newNode hp.fit (c.label (.statement .catchClause)) .none
  rw [lowerCatch, returns_bind, ends_newNode, ends_bind]
  refine (hcreated.ends_connect hpending).imp ?_
  rintro _ o ⟨hlaid₀, hnotes₀⟩
  rw [ends_bind]
  refine hlaid₀.ends_changeNode tryNode (fun n => by split <;> rfl) fun q hlaid hnotes => ?_
  have hq := hlaid.sane hp
  have hparam := created_newNode hq.fit (c.label (.parameter .formalIn)) (.parameter (.argument 0) p.2.next)
  rw [ends_bind, ends_newNode]
  refine hparam.declare c.exception q.2.next rfl fun r hr => ?_
  rw [ends_bind, ends_specialVariable, ends_bind, ends_use, ends_bind]
  let v := madeUp scope (r.1.specials + 1) "" ((c.exception.map (·.type)).getD "")
  have huse := Grows.modifyNode hr.grows.fit q.2.next fun n => token_addUse n v
  have hnode : p.2.next ∈ (r.1.graph.modifyNode q.2.next (·.addUse v)).nodeIds :=
    huse.subset (hr.grows.subset hlaid.node_mem)
  have hself : q.2.next ∈ (r.1.graph.modifyNode q.2.next (·.addUse v)).nodeIds :=
    huse.mem_nodeIds.2 (.inl (hr.grows.mem_nodeIds.2 (.inr (by simp))))
  have hfree : ∀ w ∈ (r.1.graph.modifyNode q.2.next (·.addUse v)).wires, w.src = p.2.next →
      w.dst = q.2.next → (w.sort = .fallThrough ↔ FlowSort.true = .fallThrough) := fun w hw _ hdst =>
    absurd hdst (hr.grows.not_wired (mem_singleton_self _) hw).2
  refine (ends_addFlow (p := ({ r.1 with
    specials := r.1.specials + 1, graph := r.1.graph.modifyNode q.2.next (·.addUse v) }, r.2))
      huse.fit hnode hself none hfree).imp ?_
  rintro _ u ⟨hkept, hgrows⟩
  rw [ends_pure]
  refine ⟨_, _, _, rfl, rfl, rfl, hlaid, hr.received (r.1.specials + 1) hkept hgrows, ?_⟩
  have hspecials : u.1.specials = r.1.specials + 1 := by rw [hkept]
  have hverdicts : u.1.verdicts = r.1.verdicts := by rw [hkept]
  have hr' : notesOf r = notesOf p := by
    rw [← hnotes₀, ← hnotes]
    simp only [notesOf]
    rw [hr.kept]
  simp only [notesOf, Notes.special, hspecials, hverdicts]
  exact congrArg Notes.special hr'

/-- Lowering the catch clauses of a try statement lowers structured control, beside what was open
before. -/
def LowerableCatches (scope : Scope) (cs : List CatchClause) : Prop :=
  ∀ ⦃p : State × Trail⦄ ⦃tryNode : Id⦄ ⦃guard exits : Pending⦄, Sane p → Anchored p.1.graph guard →
    Ends (lowerCatches scope tryNode cs guard exits) p
      (fun result q => ∃ k out, result = exits ++ out ∧ Lowered k guard out p q ∧
        Reflects (catchesSingle cs) (catchesUnknowns cs) k ∧
        (catchesRegular cs = true → p.1.pendingLabel = none →
          Tells (k.map Token.label) q (handlersOf scope cs (notesOf p)) none))
      (fun e _ => Stuck scope (catchesUnknowns cs) e)

theorem lowerableCatches_nil : LowerableCatches scope [] :=
  fun _ _ _ _ hp _ =>
    ⟨.skip, _, rfl, .skip hp, ⟨.skip, rfl⟩, fun _ hnone => ⟨rfl, rfl, hnone⟩⟩

theorem Lowerable.consCatch {v : Option Variable} {b : Stmt} {cs : List CatchClause}
    (hb : Lowerable scope b) (hcs : LowerableCatches scope cs) :
    LowerableCatches scope (.mk v b line :: cs) := by
  intro p tryNode guard exits hp hguard
  rw [lowerCatches, ends_bind]
  refine (ends_lowerCatch tryNode (.mk v b line) hp hguard.sound).always ?_
  rintro _ q ⟨n, t, r, rfl, hn, ht, hlaid, hlaid', hnotes⟩
  have hreceive := Lowered.line (hlaid.sane hp) hlaid'
  have hopen : Anchored q.1.graph (onward t.id) := Anchored.onward_iff.2 hlaid'.node_mem
  rw [ends_bind]
  refine (hb hreceive.sane hopen.sound).mono ?_ fun _ _ h => h.left _
  rintro out u ⟨k, hk, hmirrors, hfollows⟩
  have hleave : Anchored u.1.graph [leave n.id .false] := Anchored.leave_iff.2
    ⟨hk.subset (hreceive.subset hlaid.node_mem), .nil⟩
  refine (hcs hk.sane hleave).mono ?_ fun _ _ h => h.right _
  rintro _ w ⟨rest, out', rfl, hrest, hmirrors', hfollows'⟩
  refine ⟨_, out ++ out', append_assoc _ _ _, .branch hlaid (hreceive.seq hk) hrest,
    ⟨(Mirrors.seq (.line ?_) (hmirrors.left _)).branch (hmirrors'.right _) ?_, hmirrors.both hmirrors'⟩, ?_⟩
  · rw [map_single, ht]
    exact ⟨by simp [single], rfl⟩
  · rw [map_single, hn]
    exact ⟨by simp [single], rfl⟩
  intro hregular hnone
  simp only [catchesRegular, Bool.and_eq_true] at hregular
  obtain ⟨hk₁, hk₂, hk₃⟩ := hfollows.none hregular.1
    (hlaid'.pendingLabel_eq.trans (hlaid.pendingLabel_eq.trans hnone))
  obtain ⟨hr₁, hr₂, hr₃⟩ := hfollows' hregular.2 hk₃
  rw [hnotes] at hk₁ hk₂
  rw [hk₂] at hr₁ hr₂
  refine ⟨?_, hr₂, hr₃⟩
  simp only [Control.map, map_single, hn, ht, hk₁, hr₁]
  rfl

theorem ends_lowerFinally (tryNode : Id) (s : Stmt) (hp : Sane p) (hpending : Sound p.1 pending) :
    Returns (lowerFinally tryNode s pending) p fun node q => ∃ t : Token, t.id = node ∧
        t.label = s.label .finallyPart ∧ Laid (.single t) pending p q ∧ notesOf q = notesOf p := by
  have hcreated := created_newNode hp.fit (s.label .finallyPart) .none
  rw [lowerFinally, returns_bind, ends_newNode, ends_bind]
  rw [ends_changeNode, ends_bind]
  refine ((hcreated.retouch tryNode fun n => by split <;> rfl).ends_connect hpending).imp ?_
  rintro _ q ⟨hlaid, hnotes⟩
  exact ⟨_, rfl, rfl, hlaid, hnotes⟩

theorem unknowns_of_isAbsent {s : Stmt} (h : s.isAbsent = true) : s.unknowns = [] := by
  cases s with
  | absent => rfl
  | bare e => exact if_pos h
  | _ => cases h

/-- **A try statement is lowered by its parts.** -/
theorem Lowerable.tryCatch {b f : Stmt} {cs : List CatchClause} (hb : Lowerable scope b)
    (hcs : LowerableCatches scope cs) (hf : Lowerable scope f) : Lowerable scope (.tryCatch b cs f line) := by
  intro p pending hp hpending
  have hcreated := created_newNode hp.fit ((Stmt.tryCatch b cs f line).label .tryCatch) (.tryCatch [] none)
  rw [lower, ends_bind, ends_newNode, ends_bind]
  refine (hcreated.ends_connect hpending).always ?_
  rintro _ q ⟨hlaid, hnotes⟩
  have hopen : Anchored q.1.graph (onward p.2.next) := Anchored.onward_iff.2 hlaid.node_mem
  rw [ends_bind]
  refine (hb (hlaid.sane hp) hopen.sound).mono ?_ fun _ _ h => h.left _
  rintro yes r ⟨k, hk, hmk, hfollows⟩
  have hleave : Anchored r.1.graph [leave p.2.next .false] :=
    Anchored.leave_iff.2 ⟨hk.subset hlaid.node_mem, Anchored.nil⟩
  rw [ends_bind]
  refine (hcs hk.sane hleave).mono ?_ fun _ _ h => (h.left _).right _
  rintro _ u ⟨handlers, no, rfl, hhandlers, hmh, hfollows'⟩
  have hparts := Lowered.branch hlaid hk hhandlers
  have hmirrors : Mirrors (Stmt.tryCatch b cs f line).singleDefaults
      (.branch (.single ⟨p.2.next, (Stmt.tryCatch b cs f line).label .tryCatch⟩) k handlers) :=
    (hmk.left _).branch ((hmh.left _).right _) ⟨by simp [Line.single, Line.map], rfl⟩
  have hread : b.isRegular = true → catchesRegular cs = true → p.1.pendingLabel = none →
      k.map Token.label = (controlOf scope none b (notesOf p)).1 ∧
        handlers.map Token.label = (handlersOf scope cs (controlOf scope none b (notesOf p)).2).1 ∧
        notesOf u = (handlersOf scope cs (controlOf scope none b (notesOf p)).2).2 ∧
        u.1.pendingLabel = none := by
    intro hb hcs hnone
    obtain ⟨hk₁, hk₂, hk₃⟩ := hfollows.none hb (hlaid.pendingLabel_eq.trans hnone)
    obtain ⟨hr₁, hr₂, hr₃⟩ := hfollows' hcs hk₃
    rw [hnotes] at hk₁ hk₂
    rw [hk₂] at hr₁ hr₂
    exact ⟨hk₁, hr₁, hr₂, hr₃⟩
  by_cases habsent : f.isAbsent = true
  · simp only [habsent, if_true]
    refine (ends_lowerMerge _ _ hparts.sane (hparts.sound hpending)).always ?_
    rintro _ v ⟨t, hlabel, hlaid', rfl, hnotes'⟩
    refine ⟨_, hparts.seq (Lowered.line hparts.sane hlaid'), ⟨hmirrors.seq (.line (stands_join hlabel)),
      append_eq_nil_iff.2 ⟨hmk.known, append_eq_nil_iff.2 ⟨hmh.known, unknowns_of_isAbsent habsent⟩⟩⟩,
      fun hregular hown => ?_⟩
    simp only [Stmt.isRegular, Bool.and_eq_true] at hregular
    have hnone := label_none hown rfl
    obtain ⟨hk₁, hr₁, hr₂, hr₃⟩ := hread hregular.1 hregular.2.1 hnone
    simp only [controlOf, habsent, if_true]
    refine ⟨?_, hnotes'.trans hr₂, hlaid'.pendingLabel_eq.trans hr₃⟩
    simp only [Control.map, Line.map_single, hk₁, hr₁, hlabel]
  · simp only [habsent, Bool.false_eq_true, if_false, ends_bind]
    refine (ends_lowerFinally _ f hparts.sane (hparts.sound hpending)).always ?_
    rintro _ v ⟨t, rfl, hlabel, hlaid', hnotes'⟩
    have hline := Lowered.line hparts.sane hlaid'
    have hfinally : Anchored v.1.graph (onward t.id) := Anchored.onward_iff.2 hlaid'.node_mem
    refine (hf hline.sane hfinally.sound).mono ?_ fun _ _ h => (h.right _).right _
    rintro exits w ⟨last, hlast, hml, hfollows''⟩
    refine (ends_lowerMerge _ _ hlast.sane (hlast.anchor hfinally).sound).always ?_
    rintro _ z ⟨m, hlabel', hlaid'', rfl, hnotes''⟩
    refine ⟨_, hparts.seq ((hline.seq hlast).seq (Lowered.line hlast.sane hlaid'')),
      ⟨hmirrors.seq ((Mirrors.seq (.line ?_) ((hml.right _).right _)).seq (.line (stands_join hlabel'))),
        append_eq_nil_iff.2 ⟨hmk.known, hmh.both hml⟩⟩,
      fun hregular hown => ?_⟩
    · rw [Line.map_single, hlabel]
      exact ⟨by simp [Line.single], rfl⟩
    simp only [Stmt.isRegular, Bool.and_eq_true] at hregular
    have hnone := label_none hown rfl
    obtain ⟨hk₁, hr₁, hr₂, hr₃⟩ := hread hregular.1 hregular.2.1 hnone
    obtain ⟨hf₁, hf₂, hf₃⟩ := hfollows''.none hregular.2.2 (hlaid'.pendingLabel_eq.trans hr₃)
    rw [hnotes', hr₂] at hf₁ hf₂
    simp only [controlOf, habsent, Bool.false_eq_true, if_false]
    refine ⟨?_, hnotes''.trans hf₂, hlaid''.pendingLabel_eq.trans hf₃⟩
    simp only [Control.map, Line.map_single, hk₁, hr₁, hf₁, hlabel, hlabel']

/-! ## All statements -/

mutual

/-- **Every statement can be lowered**, by its recursion. -/
theorem lowerable (scope : Scope) : ∀ s : Stmt, Lowerable scope s
  | .absent | .typeDeclaration _ _ => fun _ _ hp _ =>
    ⟨.skip, Lowered.skip hp, ⟨.skip, rfl⟩, fun _ hown => ⟨rfl, rfl, label_none hown rfl⟩⟩
  | .bare e => by
    intro p pending hp _
    by_cases he : e.isAbsent = true
    · simp only [lower, he, if_true, ends_pure]
      exact ⟨.skip, Lowered.skip hp, ⟨.skip, if_pos he⟩, fun _ hown => ⟨rfl, rfl, label_none hown rfl⟩⟩
    · simp only [lower, he, Bool.false_eq_true, if_false, ends_throw]
      exact ⟨e.tag, by simp [Stmt.unknowns, he], rfl⟩
  | .other tag _ => fun _ _ _ _ => ⟨tag, mem_singleton_self _, rfl⟩
  | .block ss _ => (lowerableAll scope ss).block
  | .empty _ | .expression _ _ | .assertion _ _ _ => lowerable_line rfl rfl rfl (fun _ => rfl) fun _ => rfl
  | .declaration fs line => lowerable_declaration fs line
  | .ifElse _ y n _ => (lowerable scope y).ifElse (lowerable scope n)
  | .whileLoop _ b _ => (lowerable scope b).whileLoop
  | .doLoop b _ _ => (lowerable scope b).doLoop
  | .forLoop is _ _ b _ => Lowerable.forLoop (lowerableInitializers scope is) (lowerable scope b)
  | .eachLoop _ _ b _ => (lowerable scope b).eachLoop
  | .switch _ cs _ => (lowerableCases scope cs).switch
  | .breakJump l _ => lowerable_jump (j := .breakTo l) rfl rfl (lostJumps_concat rfl) (fun _ => rfl)
      (fun _ => rfl) fun hp hnode => ends_jumpBreak l hp hnode
  | .continueJump l _ => lowerable_jump (j := .continueTo l) rfl rfl (lostJumps_concat rfl)
      (fun _ => rfl) (fun _ => rfl) fun hp hnode => ends_jumpContinue l hp hnode
  | .returnJump e line => lowerable_return e line
  | .throwJump e line => lowerable_throw e line
  | .synchronized _ b _ => (lowerable scope b).synchronized
  | .tryCatch b cs f _ => (lowerable scope b).tryCatch (lowerableCatches scope cs) (lowerable scope f)
  | .labeled _ b _ => (lowerable scope b).labeled

theorem lowerableAll (scope : Scope) : ∀ ss : List Stmt, LowerableAll scope ss
  | [] => lowerableAll_nil
  | s :: ss => (lowerable scope s).cons (lowerableAll scope ss)

theorem lowerableInitializers (scope : Scope) : ∀ ss : List Stmt, LowerableInitializers scope ss
  | [] => lowerableInitializers_nil
  | s :: ss => by
    have hrest := lowerableInitializers scope ss
    by_cases hbare : ∃ e, s = .bare e
    · obtain ⟨e, rfl⟩ := hbare
      exact hrest.bare
    · exact (lowerable scope s).initializer (fun e h => hbare ⟨e, h⟩) hrest

theorem lowerableCases (scope : Scope) : ∀ cs : List SwitchCase, LowerableCases scope cs
  | [] => lowerableCases_nil
  | .mk _ ss _ :: cs => (lowerableAll scope ss).consCase (lowerableCases scope cs)

theorem lowerableCatches (scope : Scope) : ∀ cs : List CatchClause, LowerableCatches scope cs
  | [] => lowerableCatches_nil
  | .mk _ b _ :: cs => (lowerable scope b).consCatch (lowerableCatches scope cs)

end

end Lowering

end ProgramDependence
