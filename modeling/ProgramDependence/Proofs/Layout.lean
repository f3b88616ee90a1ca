import ProgramDependence.Proofs.Alternatives

/-!
# The layout of a flow graph

A `Plan` says what the flow graph of a unit consists of: the entry, the nodes of the parameters, the
structured control of the body, the node of the returned value, and the exit.  `Cfg.Realizes`: a
flow graph has the nodes of a plan, and its wires as far as they are drawn.

Every flow graph that is built realizes a plan, and the plan follows the source.
-/

namespace ProgramDependence

open List

open Lowering

structure Plan where
  entry : Token
  formals : List Token
  body : Control Token
  result : Option Token
  exit : Token

namespace Plan

/-- The wires from a node through the parameters to what comes after them. -/
def prelude : Token → List Token → Target → List Wire
  | t, [], next => [next.wire t.id .true]
  | t, t' :: ts, next => ⟨t.id, t'.id, .parameter, none⟩ :: prelude t' ts next

/-- Where the body leads: the node of the returned value, or the exit. -/
def last (u : Plan) : Target :=
  (u.result.getD u.exit).target

/-- Where the jumps of the body lead: those that throw pass the returned value by. -/
def exits (u : Plan) : Exits :=
  ⟨[], u.last, u.exit.target⟩

def inner (u : Plan) : List Token :=
  u.formals ++ (u.body.nodes ++ u.result.toList)

/-- All nodes, each before those it leads to without closing a loop. -/
def nodes (u : Plan) : List Token :=
  u.entry :: (u.inner ++ [u.exit])

def wires (u : Plan) : List Wire :=
  prelude u.entry u.formals (u.body.entry u.last) ++
    (u.body.wires u.exits u.last ++ u.result.toList.map fun t => u.exit.target.wire t.id .true)

/-- The plan of a method follows its source. -/
structure OfMethod (scope : Scope) (r : MethodRef) (m : Method) (u : Plan) : Prop where
  formals : u.formals.map Token.label = m.parameters.map fun v => ⟨.parameter .formalIn, .var v⟩
  result : u.result.toList.map Token.label = m.returned r
  mirrors : Reflects m.body.singleDefaults m.body.unknowns u.body
  body : m.body.isRegular = true → u.body.map Token.label =
    (controlOf scope none m.body { specials := m.parameters.length }).1

/-- The plan of a field is a line that declares it. -/
structure OfField (u : Plan) : Prop where
  formals : u.formals = []
  result : u.result = none
  body : ∃ l, u.body = .line l
  fits : ∀ x next, ∀ d ∈ u.body.ways x next, d.Fits

end Plan

/-- A flow graph has the nodes of a plan, and its wires as far as they are drawn.  The jumps that
find no target are reported. -/
structure Cfg.Realizes (c : Cfg) (u : Plan) : Prop where
  fit : ∃ next, c.toGraph.Fit next
  tokens_perm : c.tokens.Perm u.nodes
  wires : Attached [] c.wires u.wires
  entry_eq : c.entry.token = u.entry
  entry_mem : c.entry ∈ c.nodes
  exit_eq : c.exit.token = u.exit
  reports : lostJumps c.unresolved = elementsOf (strays u.body [])

namespace Cfg

open Tracked Graph

variable {scope : Scope} {p q : State × Trail} {pending : Pending}

/-! ## Parameters and the returned value -/

theorem laid_of_special {l : Line Token} {specials : Nat}
    (h : Laid l pending ({ p.1 with specials }, p.2) q) : Laid l pending p q :=
  ⟨by rw [h.kept], h.grows, h.settles, h.reports⟩

theorem mem_wires_or_fresh {k : Control Token} {out : Pending} (h : Lowered k pending out p q)
    {w : Wire} (hw : w ∈ q.1.graph.wires) : w ∈ p.1.graph.wires ∨ p.2.next ≤ w.dst :=
  (h.drawn (encloses_control k) hw).imp_right fun hends => h.fresh hends.1

theorem ends_receive (t : Token) (entry : Id) {f : Node → Node} {specials : Nat}
    {good : Unit → State × Trail → Prop}
    (hcreated : Created t ({ p.1 with specials }, p.2) q) (hpending : Sound p.1 pending)
    (hf : ∀ n, (f n).token = n.token)
    (hgood : ∀ r, Laid (.single t) pending p r → notesOf r = { notesOf p with specials } → good () r) :
    Returns (connect pending t.id none) q fun _ r => Returns (changeNode entry f) r good := by
  refine (hcreated.ends_connect hpending).imp ?_
  rintro _ r ⟨hlaid, hnotes⟩
  exact hgood _ (laid_of_special (hlaid.retouch entry hf)) hnotes

/-- The parameters form a chain behind the entry. -/
theorem ends_lowerParameters (entry : Id) (vs : List Variable) (ordinal : Nat) {t : Token}
    (hp : Sane p) (ht : t.id ∈ p.1.graph.nodeIds) : Returns (lowerParameters scope entry ordinal vs
        [leave t.id (if vs.isEmpty then .true else .parameter)]) p fun out q => ∃ formals planned,
        formals.map Token.label = vs.map (fun v => ⟨.parameter .formalIn, .var v⟩) ∧
        Grows p.1.graph q.1.graph p.2.next q.2.next formals planned ∧
        (∀ next, (planned ++ wiresTo out next).Perm (Plan.prelude t formals next)) ∧
        Anchored q.1.graph out ∧ q.1 = { p.1 with
          graph := q.1.graph, unresolved := q.1.unresolved, heads := q.1.heads,
          specials := q.1.specials, sequence := q.1.sequence, verdicts := q.1.verdicts } ∧
        notesOf q = { notesOf p with specials := p.1.specials + vs.length } ∧
        lostJumps q.1.unresolved = lostJumps p.1.unresolved ∧
        ∀ w ∈ q.1.graph.wires, w ∈ p.1.graph.wires ∨ p.2.next ≤ w.dst := by
  induction vs generalizing ordinal t p with
  | nil =>
    refine ⟨[], [], rfl, .refl hp.fit, fun next => ?_, by simpa using ht, rfl, rfl, rfl,
      fun w hw => .inl hw⟩
    exact .refl _
  | cons v vs ih =>
    have hcreated := created_newNode (p := ({ p.1 with specials := p.1.specials + 1 }, p.2)) hp.fit
      ⟨.parameter .formalIn, .var v⟩ (.parameter (.argument ordinal) entry)
    have hopen : Sound p.1 [leave t.id (if (v :: vs).isEmpty then .true else .parameter)] :=
      (Anchored.leave_iff.2 ⟨ht, .nil⟩).sound
    have hready := (hcreated.addDef p.2.next v).retouch p.2.next
      fun n => token_addUse n (madeUp scope (p.1.specials + 1) "" v.type)
    simp only [lowerParameters, ends_bind]
    refine ends_receive ⟨p.2.next, ⟨.parameter .formalIn, .var v⟩⟩ entry hready hopen
      (fun n => by split <;> rfl) fun r hlaid hnotes => ?_
    refine (ih (ordinal + 1) (t := ⟨p.2.next, ⟨.parameter .formalIn, .var v⟩⟩) (hlaid.sane hp)
      hlaid.node_mem).imp ?_
    rintro out q ⟨formals, planned, hlabels, hgrows, hlaw, hout, hkept, hnotes', hreports, hlands⟩
    refine ⟨⟨p.2.next, ⟨.parameter .formalIn, .var v⟩⟩ :: formals, _, by rw [map_cons, hlabels]; rfl,
      hlaid.grows.trans hgrows, fun next => ?_, hout, by rw [hkept, hlaid.kept], ?_,
      hreports.trans hlaid.reports, fun w hw => ?_⟩
    · simpa [Plan.prelude, Line.single, Line.all, Line.first, links, Target.wire, Token.target]
        using hlaw next
    · have hspecials : r.1.specials = p.1.specials + 1 := congrArg Notes.specials hnotes
      rw [hnotes', hnotes, hspecials, length_cons, Nat.add_assoc, Nat.add_comm 1]
    · rcases hlands w hw with hw | hdst
      · exact mem_wires_or_fresh (.line hp hlaid) hw
      · exact .inr (Int.le_trans hlaid.grows.le hdst)

theorem ends_lowerResult (entry : Id) (r : MethodRef) (m : Method) (hp : Sane p)
    (hpending : Sound p.1 pending) : Returns (lowerResult scope entry r m pending) p
      fun out q => ∃ t : Token, t.label = ⟨.parameter .formalOut, .method r⟩ ∧
        Laid (.single t) pending p q ∧ out = onward t.id := by
  have hcreated := created_newNode (p := ({ p.1 with specials := p.1.specials + 1 }, p.2)) hp.fit
    ⟨.parameter .formalOut, .method r⟩ (.parameter .result entry)
  have hready := (hcreated.addDef p.2.next (madeUp scope (p.1.specials + 1) "" m.returnType)).retouch
    p.2.next fun n => token_addUse n (scope.context.program.returnVariable m)
  simp only [lowerResult, ends_bind]
  exact ends_receive ⟨p.2.next, ⟨.parameter .formalOut, .method r⟩⟩ entry hready hpending
    (fun n => by split <;> rfl) fun q hlaid _ => ⟨_, rfl, hlaid, rfl⟩

/-! ## Methods and fields -/

/-- The state before a unit is lowered: it has an entry and an exit, and nothing is open. -/
structure Starts (entry exit : Token) (p : State × Trail) : Prop where
  sane : Sane p
  tokens_eq : p.1.graph.tokens = [entry, exit]
  wires_eq : p.1.graph.wires = []
  jumps : p.1.jumps = []
  returns : p.1.returns = []
  throws : p.1.throws = []
  pendingLabel : p.1.pendingLabel = none
  notes : notesOf p = {}
  reports : lostJumps p.1.unresolved = []

/-- Between two states a plan was carried out. -/
structure Carried (u : Plan) (entry exit : Token) (p q : State × Trail) : Prop where
  grows : Grows p.1.graph q.1.graph p.2.next q.2.next u.inner u.wires
  entry_eq : u.entry = entry
  exit_eq : u.exit = exit
  reports : lostJumps q.1.unresolved = lostJumps p.1.unresolved ++ elementsOf (strays u.body [])

variable {entry exit : Token}

theorem Starts.entry_mem (h : Starts entry exit p) : entry.id ∈ p.1.graph.nodeIds := by
  simp [nodeIds_eq_tokens, h.tokens_eq]

theorem Starts.exit_mem (h : Starts entry exit p) : exit.id ∈ p.1.graph.nodeIds := by
  simp [nodeIds_eq_tokens, h.tokens_eq]

theorem Starts.clear_exit (h : Starts entry exit p) (hnew : ∀ w ∈ q.1.graph.wires, p.2.next ≤ w.dst)
    (pending : Pending) : Clear q.1.graph pending exit.id :=
  .of_not_wired fun w hw hdst =>
    absurd (h.sane.fit.lt_of_mem h.exit_mem) (Int.not_lt.2 (hdst ▸ hnew w hw))

theorem due_unit (last exit : Target) (s : State) :
    due ⟨[], last, exit⟩ s = wiresTo s.returns last ++ wiresTo s.throws exit := by
  simp [due, framesDue]

/-- **A method is lowered to a plan of it.** -/
theorem ends_lowerMethod (r : MethodRef) (m : Method) (hp : Starts entry exit p) :
    Ends (lowerMethod scope r m entry.id exit.id) p
      (fun _ q => ∃ u : Plan, Carried u entry exit p q ∧ u.OfMethod scope r m)
      (fun e _ => Stuck scope m.body.unknowns e) := by
  simp only [lowerMethod, ends_bind]
  refine (ends_lowerParameters entry.id m.parameters 0 hp.sane hp.entry_mem).always ?_
  rintro pending q ⟨formals, planned, hlabels, hgrows, hlaw, hpending, hkept, hnotes, hreports, hlands⟩
  have hq : Sane q := hp.sane.grow hgrows (by constructor <;> rw [hkept])
  have hjumps : q.1.jumps = [] := by rw [hkept, hp.jumps]
  have hdue : ∀ last exit, due ⟨[], last, exit⟩ q.1 = [] := by
    intro last exit
    rw [due_unit, hkept, hp.returns, hp.throws]
    rfl
  refine (lowerable scope m.body hq hpending.sound).imp ?_
  rintro out v ⟨k, hk, hmirrors, hfollows⟩
  obtain ⟨planned', hgrows', hlaw'⟩ := hk.balance
  have hbody : m.body.isRegular = true → k.map Token.label =
      (controlOf scope none m.body { specials := m.parameters.length }).1 := by
    intro hregular
    have hspecials : p.1.specials = 0 := congrArg Notes.specials hp.notes
    have hstart : notesOf q = { specials := m.parameters.length } := by
      rw [hnotes, hp.notes, hspecials, Nat.zero_add]
    rw [← hstart]
    exact (hfollows.none hregular (by rw [hkept, hp.pendingLabel])).1
  have hmatches : ∀ last exit, Matches ⟨[], last, exit⟩ q.1.jumps := fun _ _ => by
    rw [hjumps]
    rfl
  have hexit : exit.id ∈ v.1.graph.nodeIds :=
    hk.subset (hgrows.subset hp.exit_mem)
  have hreturned : Anchored v.1.graph (v.1.returns ++ out) :=
    Anchored.append_iff.2 ⟨hk.sane.returns, hk.anchor hpending⟩
  have hnew : ∀ w ∈ v.1.graph.wires, p.2.next ≤ w.dst := by
    intro w hw
    rcases mem_wires_or_fresh hk hw with hw | hdst
    · exact (hlands w hw).elim (fun h => by simp [hp.wires_eq] at h) id
    · exact Int.le_trans hgrows.le hdst
  have hstrays : lostJumps v.1.unresolved = lostJumps p.1.unresolved ++ elementsOf (strays k []) := by
    rw [hk.reports, hreports, shapesOf, hjumps, map_nil]
  by_cases hvoid : m.isVoid = true
  · simp only [hvoid]
    refine (ends_connect none hk.sane.fit hexit
      (Anchored.append_iff.2 ⟨hk.sane.throws, hreturned⟩).sound (hp.clear_exit hnew _)).always ?_
    intro _ w hw
    refine ⟨⟨entry, formals, k, none, exit⟩, ⟨?_, rfl, rfl, by rw [hw.kept]; exact hstrays⟩, hlabels, ?_,
      hmirrors, hbody⟩
    · refine (hgrows.trans (hgrows'.trans hw.grows)).perm (by simp [Plan.inner]) ?_
      refine perm_iff_count.2 fun x => ?_
      have c₁ := (hlaw (k.entry exit.target)).count_eq x
      have c₂ := (hlaw' ⟨[], exit.target, exit.target⟩ exit.target (hmatches _ _)).count_eq x
      simp only [Plan.wires, Plan.last, Plan.exits, Option.getD_none, Option.toList_none, map_nil,
        hdue, due_unit, wiresTo_append, entry_eq, append_nil, nil_append] at c₁ c₂ ⊢
      simp only [count_append] at c₁ c₂ ⊢
      have htarget : exit.target = ⟨exit.id, none⟩ := rfl
      rw [← htarget]
      omega
    · simp [Method.returned, hvoid]
  · simp only [hvoid, Bool.false_eq_true, if_false, ends_bind]
    refine (ends_lowerResult entry.id r m hk.sane hreturned.sound).always ?_
    rintro _ y ⟨t, hlabel, hlaid, rfl⟩
    have hopen : Anchored y.1.graph (y.1.throws ++ onward t.id) := Anchored.append_iff.2
      ⟨(hlaid.sane hk.sane).throws, Anchored.onward_iff.2 hlaid.node_mem⟩
    have hthrows : y.1.throws = v.1.throws := by rw [hlaid.kept]
    have hnew' : ∀ w ∈ y.1.graph.wires, p.2.next ≤ w.dst := by
      intro w hw
      rcases mem_wires_or_fresh (Lowered.line hk.sane hlaid) hw with hw | hdst
      · exact hnew w hw
      · exact Int.le_trans (Int.le_trans hgrows.le hk.le) hdst
    refine (ends_connect none hlaid.grows.fit (hlaid.grows.subset hexit) hopen.sound
      (hp.clear_exit hnew' _)).always ?_
    intro _ w hw
    refine ⟨⟨entry, formals, k, some t, exit⟩,
      ⟨?_, rfl, rfl, by rw [hw.kept]; exact hlaid.reports.trans hstrays⟩, hlabels, ?_, hmirrors, hbody⟩
    · refine (hgrows.trans (hgrows'.trans (hlaid.grows.trans hw.grows))).perm
        (by simp [Plan.inner, Line.single, Line.all]) ?_
      refine perm_iff_count.2 fun x => ?_
      have c₁ := (hlaw (k.entry t.target)).count_eq x
      have c₂ := (hlaw' ⟨[], t.target, exit.target⟩ t.target (hmatches _ _)).count_eq x
      simp only [Plan.wires, Plan.last, Plan.exits, Option.getD_some, Option.toList_some, map_cons,
        map_nil, hdue, due_unit, wiresTo_append, wiresTo_onward, entry_eq, append_nil,
        nil_append, Line.single, Line.all, Line.first, headD_nil, links, hthrows] at c₁ c₂ ⊢
      simp only [count_append] at c₁ c₂ ⊢
      have htarget : exit.target = ⟨exit.id, none⟩ := rfl
      rw [← htarget]
      omega
    · simp [Method.returned, hvoid, hlabel]

theorem ends_lowerField (r : FieldRef) (f : Field) (hp : Starts entry exit p) :
    Returns (lowerField scope r f entry.id exit.id) p fun _ q => ∃ u : Plan, Carried u entry exit p q ∧
    u.OfField := by
  have hcreated := (created_newNode (p := p) hp.sane.fit
    ⟨.statement .fieldDeclaration, .field r⟩ .none).addDef p.2.next
    (scope.context.program.fieldVariable r f)
  have hopen : Anchored p.1.graph (onward entry.id) := Anchored.onward_iff.2 hp.entry_mem
  rw [lowerField, returns_bind, ends_newNode]
  refine ends_visitChain [f.initializer] hcreated hopen.sound fun l v hlaid hnode _ hreads => ?_
  have hid : p.2.next = l.node.id := by rw [hnode]
  have hexit : exit.id ∈ v.1.graph.nodeIds := hlaid.grows.subset hp.exit_mem
  rw [hid]
  have hnew : ∀ w ∈ v.1.graph.wires, p.2.next ≤ w.dst := fun w hw =>
    (mem_wires_or_fresh (.line hp.sane hlaid) hw).elim (fun h => by simp [hp.wires_eq] at h) id
  refine (ends_connect none hlaid.grows.fit hexit (Anchored.onward_iff.2 hlaid.node_mem).sound
    (hp.clear_exit hnew _)).imp ?_
  intro _ w hw
  have hmirrors : Mirrors true (.line l) := .line (hreads.1 ▸ lineOf_stands rfl)
  refine ⟨⟨entry, [], .line l, none, exit⟩, ⟨?_, rfl, rfl, ?_⟩, rfl, rfl, ⟨l, rfl⟩, hmirrors.fits⟩
  rotate_left
  · rw [hw.kept]
    exact hlaid.reports.trans (append_nil _).symm
  refine (hlaid.grows.trans hw.grows).perm (by simp [Plan.inner, Control.nodes]) ?_
  simp [Plan.wires, Plan.prelude, Plan.last, Control.wires, Control.entry, Control.first?, Token.target]

/-! ## Building -/

theorem starts_startState {entry exit : Node} {trail : Trail} (hexit : exit.id = entry.id + 1)
    (hnext : trail.next = entry.id + 1 + 1) :
    Starts entry.token exit.token (startState entry exit, trail) := by
  have hone := Grows.appendNode (fit_empty entry.id) (n := entry) rfl
  have htwo := Grows.appendNode hone.fit hexit
  have hnew : ((Graph.empty .flow).appendNode entry).hasNode exit.id = false := by
    rw [← Bool.not_eq_true, Graph.hasNode_iff, hexit]
    exact hone.fit.not_mem
  have hgraph : (startState entry exit).graph = ((Graph.empty .flow).appendNode entry).appendNode exit := by
    simp [startState, ofEnds, hnew]
  refine ⟨⟨?_, ?_, ?_, ?_, .nil, .nil⟩, ?_, ?_, rfl, rfl, rfl, rfl, rfl, rfl⟩
  · rw [hgraph, hnext]
    exact htwo.fit
  · simp [startState]
  · simp [startState]
  · simp [startState]
  · rw [hgraph]
    rfl
  · rw [hgraph]
    rfl

/-- Validation fails exactly if the exit is not reached. -/
theorem ends_validate {σ : Type} (c : Cfg) (p : σ × Trail) :
    Ends c.validate p
      (fun _ q => c.exit.id ∈ c.reachable c.entry.id true true none ∧ q.1 = p.1 ∧ q.2.next = p.2.next)
      (fun e q => (c.exit.id ∉ c.reachable c.entry.id true true none ∧
        e = .construction c.name .exitUnreachable) ∧ q.1 = p.1 ∧ q.2.next = p.2.next) := by
  by_cases hexit : c.exit.id ∈ c.reachable c.entry.id true true none
  · have hcontains : (c.reachable c.entry.id true true none).contains c.exit.id = true := by
      simpa using hexit
    simp only [validate, hcontains, Bool.not_true, Bool.false_eq_true, if_false]
    split
    · exact ⟨hexit, rfl, rfl⟩
    · exact ⟨hexit, rfl, rfl⟩
  · simp [validate, hexit]

/-- The flow graph of a plan that was carried out realizes it. -/
theorem realizes_ofState {entry exit : Node} {u : Plan} (numbering : Nat) (name : String)
    (hp : Starts entry.token exit.token p) (h : Carried u entry.token exit.token p q) :
    (ofState numbering name entry exit q.1).Realizes u := by
  have hgrows := h.grows
  have htokens : q.1.graph.tokens.Perm u.nodes := by
    refine hgrows.tokens_perm.trans ?_
    rw [hp.tokens_eq, Plan.nodes, h.entry_eq, h.exit_eq]
    have hcomm : ([exit.token] ++ u.inner).Perm (u.inner ++ [exit.token]) := perm_append_comm
    exact hcomm.cons _
  have hmem : entry.token ∈ q.1.graph.tokens :=
    htokens.mem_iff.2 (by rw [Plan.nodes, h.entry_eq]; exact mem_cons_self)
  obtain ⟨n, hn, htoken⟩ := mem_map.1 hmem
  have hid : n.id = entry.id := id_of_token htoken
  have hfind : q.1.graph.node? entry.id = some n := by
    rw [← hid]
    exact hgrows.fit.growing.coherent.node?_eq_some hn
  have hentry : (ofState numbering name entry exit q.1).entry = n := by
    simp [ofState, hfind]
  refine ⟨⟨_, hgrows.fit⟩, htokens, ?_, ?_, ?_, h.exit_eq.symm, ?_⟩
  · have hwires := hgrows.wires
    rwa [hp.wires_eq] at hwires
  · rw [hentry, htoken, h.entry_eq]
  · rw [hentry]
    exact hn
  · have hreports := h.reports
    rwa [hp.reports] at hreports

theorem ends_build {σ : Type} {sort : ScopeSort} {element : Element} {body : Id → Id → Lower Unit}
    {good : Plan → Prop} {bad : Error → Prop}
    (hbody : ∀ {entry exit : Token} {p : State × Trail}, Starts entry exit p →
      Ends (body entry.id exit.id) p (fun _ q => ∃ u, Carried u entry exit p q ∧ good u) (fun e _ => bad e))
    (p : σ × Trail) : Ends (build scope sort element body) p
      (fun c _ => ∃ u, c.Realizes u ∧ good u ∧ u.entry.label = ⟨.entry sort, element⟩ ∧
        u.exit.label = ⟨.exit sort, element⟩) (fun e _ => bad e ∨ ∃ (c : Cfg) (u : Plan),
        c.Realizes u ∧ c.exit.id ∉ c.reachable c.entry.id true true none) := by
  let entry : Node := { id := p.2.next, sort := .entry sort, element, payload := .entry [] [] }
  let exit : Node := { id := p.2.next + 1, sort := .exit sort, element }
  have hstarts : Starts entry.token exit.token
      (startState entry exit, { p.2 with next := p.2.next + 1 + 1 }) :=
    starts_startState rfl rfl
  simp only [build, ends_bind, ends_within]
  refine (hbody hstarts).mono ?_ fun _ _ h => .inl h
  rintro _ q ⟨u, hcarried, hgood⟩
  have hrealizes := realizes_ofState scope.context.numbering scope.name hstarts hcarried
  refine (ends_validate _ _).mono ?_ fun _ _ h => .inr ⟨_, u, hrealizes, h.1.1⟩
  intro _ v _
  refine ⟨u, hrealizes, hgood, ?_, ?_⟩
  · rw [hcarried.entry_eq]
    rfl
  · rw [hcarried.exit_eq]
    rfl

end Cfg

end ProgramDependence
