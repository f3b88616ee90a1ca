import ProgramDependence.Proofs.MadeUnits
import ProgramDependence.Proofs.Shifting

/-!
# Going through lowering

Lowering is gone through once, for two things at a time.  Each of its steps is one of the ways in
which `Made` says that nodes and edges come about, and the calls of the graph grow by those of the
source; and each step, run on what is moved to other ids and under another numbering, does what it
does otherwise.  So the nodes and edges of a unit come about in the ways of `Made`
(`Cfg.ends_ofUnit_made`), and a unit that is lowered from a later id on comes out the same, with all
its ids moved by one amount (`Cfg.endsShifted_ofUnit`).
-/

namespace ProgramDependence

open List

namespace Lowering

open Tracked

variable {α β γ ε : Type} {δ : Int} {scope : Scope} {n : Nat} {lo : Id} {Γ : Knowledge} {i : Id}

/-- A step of lowering and the same step on what is moved.  The first one makes nodes and edges in
the ways of `Made` and leaves certain knowledge behind, and the second one does the same. -/
structure MakesShifted (δ : Int) (scope : Scope) (lo : Id) (Γ : Knowledge) (v : α → β) (x : Lower α)
    (x' : Lower β) (Δ : α → Knowledge) : Prop where
  makes : Makes scope lo Γ x Δ
  shifts : Shifts δ v x x'

/-- A step after which the same is known as before. -/
abbrev KeepsShifted (δ : Int) (scope : Scope) (lo : Id) (Γ : Knowledge) (v : α → β) (x : Lower α)
    (x' : Lower β) : Prop :=
  MakesShifted δ scope lo Γ v x x' fun _ => Γ

/-- A step that lowers calls, after which nothing else is known than before. -/
abbrev EnrollsShifted (δ : Int) (scope : Scope) (lo : Id) (Γ : Knowledge) (v : α → β) (x : Lower α)
    (x' : Lower β) (calls : List (Expr × MethodRef)) : Prop :=
  MakesShifted δ scope lo Γ v x x' fun _ => Γ.enroll calls

namespace MakesShifted

variable {v : α → β} {w : γ → ε} {x y : Lower α} {x' y' : Lower β} {Δ : α → Knowledge} {Θ : γ → Knowledge}
  {f : α → Lower γ} {f' : β → Lower ε} {calls rest : List (Expr × MethodRef)}

theorem bind (hx : MakesShifted δ scope lo Γ v x x' Δ)
    (hf : ∀ a, MakesShifted δ scope lo (Δ a) w (f a) (f' (v a)) Θ) :
    MakesShifted δ scope lo Γ w (x >>= f) (x' >>= f') Θ :=
  ⟨hx.makes.bind fun a => (hf a).makes, hx.shifts.bind fun a => (hf a).shifts⟩

theorem pure (a : α) : KeepsShifted δ scope lo Γ v (Pure.pure a) (Pure.pure (v a)) :=
  ⟨Keeps.pure a, .pure a⟩

theorem throw (e : Error) : MakesShifted δ scope lo Γ v (MonadExcept.throw e) (MonadExcept.throw e) Δ :=
  ⟨.throw e, .throw e⟩

theorem state {f : State → Lower α} {f' : State → Lower β}
    (hf : ∀ s, MakesShifted δ scope lo Γ v (f s) (f' (s.shift δ)) Δ) :
    MakesShifted δ scope lo Γ v (Tracked.state >>= f) (Tracked.state >>= f') Δ :=
  ⟨.state fun s => (hf s).makes, Shifts.state.bind fun s => (hf s).shifts⟩

theorem ite {c : Prop} [Decidable c] (hx : MakesShifted δ scope lo Γ v x x' Δ)
    (hy : MakesShifted δ scope lo Γ v y y' Δ) :
    MakesShifted δ scope lo Γ v (if c then x else y) (if c then x' else y') Δ := by
  split
  · exact hx
  · exact hy

theorem forget {k : Mark} (hx : MakesShifted δ scope lo (Γ.learn k) v x x' fun a => (Δ a).learn k) :
    MakesShifted δ scope lo (Γ.learn k) v x x' Δ :=
  ⟨.forget hx.makes, hx.shifts⟩

theorem seq (hx : EnrollsShifted δ scope lo Γ v x x' calls)
    (hf : ∀ a, EnrollsShifted δ scope lo (Γ.enroll calls) w (f a) (f' (v a)) rest) :
    EnrollsShifted δ scope lo Γ w (x >>= f) (x' >>= f') (calls ++ rest) :=
  ⟨hx.makes.seq fun a => (hf a).makes, hx.shifts.bind fun a => (hf a).shifts⟩

theorem quiet (hx : KeepsShifted δ scope lo Γ v x x') : EnrollsShifted δ scope lo Γ v x x' [] :=
  ⟨hx.makes.quiet, hx.shifts⟩

end MakesShifted

theorem keepsShifted_update {f f' : State → State} (hf : ∀ s, f' (s.shift δ) = (f s).shift δ)
    (hgraph : ∀ s, (f s).graph = s.graph) (hverdicts : ∀ s, (f s).verdicts = s.verdicts) :
    KeepsShifted δ scope lo Γ id (Tracked.update f) (Tracked.update f') := by
  refine ⟨fun p h => ⟨?_, ?_, ?_⟩, .update hf⟩
  · rw [hgraph]
    exact h.made
  · rw [hgraph]
    exact h.nodes
  · rw [hgraph, hverdicts]
    exact h.calls

theorem keepsShifted_changeNode (hi : Γ.Has i) {f f' : Node → Node}
    (hf : ∀ ids : List Id, (∀ j, Γ.Has j → j ∈ ids) → ∀ k : Node, k.Retouched ids (f k))
    (hf' : ∀ k, f' (k.rename (.shift δ)) = (f k).rename (.shift δ)) :
    KeepsShifted δ scope lo Γ id (changeNode i f) (changeNode (i + δ) f') :=
  ⟨keeps_changeNode hi hf, shifts_changeNode i hf'⟩

theorem keepsShifted_define (hi : Γ.Has i) (v : Variable) :
    KeepsShifted δ scope lo Γ id (define i v) (define (i + δ) v) :=
  ⟨keeps_define hi v, shifts_define i v⟩

theorem keepsShifted_use (hi : Γ.Has i) (v : Variable) :
    KeepsShifted δ scope lo Γ id (use i v) (use (i + δ) v) :=
  ⟨keeps_use hi v, shifts_use i v⟩

theorem keepsShifted_reportUnresolved (t : Tree) :
    KeepsShifted δ scope lo Γ id (reportUnresolved scope t) (reportUnresolved (scope.under n) t) :=
  ⟨keeps_reportUnresolved t, shifts_reportUnresolved t⟩

/-- A node defines its variable, or the absence of one is reported, and lowering goes on. -/
theorem makesShifted_declare {v : β → γ} {rest : Lower β} {rest' : Lower γ} {Δ : β → Knowledge} {t : Tree}
    (hi : Γ.Has i) (var : Option Variable) (hrest : MakesShifted δ scope lo Γ v rest rest' Δ) :
    MakesShifted δ scope lo Γ v
      (match var with
        | some var => do define i var; rest
        | none => do reportUnresolved scope t; rest)
      (match var with
        | some var => do define (i + δ) var; rest'
        | none => do reportUnresolved (scope.under n) t; rest') Δ := by
  cases var with
  | some var => exact (keepsShifted_define hi var).bind fun _ => hrest
  | none => exact (keepsShifted_reportUnresolved t).bind fun _ => hrest

theorem keepsShifted_connect (pending : Pending) (target : Id) (loop : Option Id) :
    KeepsShifted δ scope lo Γ id
    (connect pending target loop) (connect (pending.shift δ) (target + δ) (loop.map (· + δ))) :=
  ⟨(connects_connect pending target loop).keeps, shifts_connect pending target loop⟩

theorem keepsShifted_chain (pending : Pending) :
    KeepsShifted δ scope lo Γ id (chain pending) (chain (pending.shift δ)) :=
  ⟨(connects_chain pending).keeps, shifts_chain pending⟩

theorem keepsShifted_exit : KeepsShifted δ scope lo Γ (JumpTarget.shift δ) exit exit :=
  ⟨keeps_exit, shifts_exit⟩

theorem keepsShifted_enter (kind : JumpKind) (label : Option String) :
    KeepsShifted δ scope lo Γ id (enter kind label) (enter kind label) := by
  refine keepsShifted_update (fun _ => ?_) (fun _ => rfl) fun _ => rfl
  rfl

/-! ## Expressions -/

theorem keepsShifted_charge (hi : Γ.Has i) (defining : Bool) (v : Variable) :
    KeepsShifted δ scope lo Γ id (charge i defining v) (charge (i + δ) defining v) := by
  cases defining with
  | true => exact keepsShifted_define hi v
  | false => exact keepsShifted_use hi v

theorem keepsShifted_chargeResolved (hi : Γ.Has i) (defining : Bool) (e : Expr)
    (var : Option Variable) : KeepsShifted δ scope lo Γ id (chargeResolved scope i defining e var)
      (chargeResolved (scope.under n) (i + δ) defining e var) := by
  cases var with
  | some v => exact keepsShifted_charge hi defining v
  | none => exact keepsShifted_reportUnresolved _

/-- A call that is resolved is begun, and what follows ends it. -/
theorem enrollsShifted_call {sort : StatementSort} {current : Id}
    (hsort : (NodeSort.statement sort).isCall = true)
    (hcurrent : Γ.Has current) (e : Expr) {inner : List (Expr × MethodRef)}
    {rest rest' : Option CallSite → Lower Unit}
    (hnone : ∀ {Γ : Knowledge}, KeepsShifted δ scope lo Γ id (rest none) (rest' none))
    (hsome : ∀ {Γ : Knowledge} (call : Id) (callee : Method) (expanded : Bool), Γ.Has current →
      MakesShifted δ scope lo
      (Γ.calling sort ⟨call, current, callee, expanded⟩ [] ((Element.ofExpr e).arguments callee)) id
        (rest (some ⟨call, current, callee, expanded⟩))
        (rest' (some ⟨call + δ, current + δ, callee, expanded⟩))
        fun _ => Γ.enroll inner) :
    EnrollsShifted δ scope lo Γ id (beginCall scope current sort e >>= rest)
      (beginCall (scope.under n) (current + δ) sort e >>= rest')
      (scope.context.program.callThen e inner) := by
  refine ⟨enrolls_call hsort hcurrent e hnone.makes fun call callee expanded hi =>
    (hsome call callee expanded hi).makes, ?_⟩
  unfold beginCall
  rw [show (scope.under n).context.program = scope.context.program from rfl]
  cases e.binding?.bind fun b => (scope.context.program.method? b).map (b, ·) with
  | none =>
    simp only [bind_assoc, pure_bind]
    exact (shifts_reportUnresolved _).bind fun _ => (hnone (Γ := Γ)).shifts
  | some callee =>
    obtain ⟨b, m⟩ := callee
    simp only [bind_assoc]
    refine (shifts_shouldExpand b).bind fun expanded => ?_
    refine (shifts_newNode _ _ (.call b [] [] expanded)).bind fun call => ?_
    have hrest := (hsome (Γ := Γ) call m expanded hcurrent).shifts
    cases expanded with
    | true => exact hrest
    | false =>
      simp only [id, Bool.not_false, if_true, bind_assoc, pure_bind]
      exact (shifts_splice call current).bind fun _ => hrest

theorem makesShifted_endCall {sort : StatementSort} {site : CallSite}
    (hcurrent : Γ.Has site.current) (taken : List Element) (e : Expr) :
    MakesShifted δ scope lo (Γ.calling sort site taken []) id (endCall scope site e)
      (endCall (scope.under n) (site.shift δ) e) fun _ => Γ :=
  ⟨makes_endCall hcurrent taken e, shifts_endCall site e⟩

mutual

/-- Visiting an expression enrolls its calls in order. -/
theorem enrollsShifted_visit :
    ∀ (e : Expr) {Γ : Knowledge} {current : Id} (_ : Γ.Has current) (defining : Bool),
    EnrollsShifted δ scope lo Γ id (visit scope current defining e)
      (visit (scope.under n) (current + δ) defining e) (e.loweredCalls scope.context.program)
  | .absent, _, _, _, _ | .literal _ _ _, _, _, _, _ => (MakesShifted.pure ()).quiet
  | .name v _ _, _, _, hi, d => (keepsShifted_chargeResolved hi d _ v).quiet
  | .fieldAccess r v _ _, _, _, hi, d =>
    (enrollsShifted_visit r hi false).bind fun _ => keepsShifted_chargeResolved (hi.enroll _) d _ v
  | .self c _, _, _, hi, d => (keepsShifted_charge hi d _).quiet
  | .assignment t v op _, _, _, hi, _ => by
    refine (enrollsShifted_visit t hi true).seq fun _ => ?_
    dsimp only
    split
    · exact (enrollsShifted_visit t (hi.enroll _) false).seq fun _ =>
        enrollsShifted_visit v ((hi.enroll _).enroll _) false
    · exact enrollsShifted_visit v (hi.enroll _) false
  | .unary op x _ _, _, _, hi, _ => by
    refine (enrollsShifted_visit x hi false).seq fun _ => ?_
    split
    · exact enrollsShifted_visit x (hi.enroll _) true
    · exact (MakesShifted.pure ()).quiet
  | .binary l _ r _, _, _, hi, _ => (enrollsShifted_visit l hi false).seq fun _ =>
    enrollsShifted_visit r (hi.enroll _) false
  | .instanceOf x _ _, _, _, hi, _ | .cast _ x _, _, _, hi, _ => enrollsShifted_visit x hi false
  | .conditional c p n _, _, _, hi, _ => (enrollsShifted_visit c hi false).seq fun _ =>
    (enrollsShifted_visit p (hi.enroll _) false).seq fun _ =>
      enrollsShifted_visit n ((hi.enroll _).enroll _) false
  | .arrayAccess a i _, _, _, hi, d => (enrollsShifted_visit a hi d).seq fun _ =>
    enrollsShifted_visit i (hi.enroll _) false
  | .arrayInitializer es _, _, _, hi, _ | .other _ es _, _, _, hi, _ => enrollsShifted_visitAll es hi
  | .arrayCreation _ ds i _, _, _, hi, _ => (enrollsShifted_visitAll ds hi).seq fun _ =>
    enrollsShifted_visit i (hi.enroll _) false
  | .methodCall _ as r _ _ _, _, _, hi, _ | .instanceCreation _ as _ r _, _, _, hi, _ => by
    refine enrollsShifted_call rfl hi _ (MakesShifted.pure ()) fun {Γ} call callee expanded hi => ?_
    rw [← Γ.enroll_enroll]
    exact (makesShifted_visitArguments as _ ⟨call, _, callee, expanded⟩ [] hi).bind fun _ =>
      (makesShifted_endCall (hi.enroll _) _ _).bind fun _ => enrollsShifted_visit r (hi.enroll _) false
  | .constructorCall as _ _ _, _, _, hi, _ =>
    enrollsShifted_call rfl hi _ (MakesShifted.pure ()) fun call callee expanded hi =>
    (makesShifted_visitArguments as _ ⟨call, _, callee, expanded⟩ [] hi).bind fun _ =>
      makesShifted_endCall (hi.enroll _) _ _

theorem enrollsShifted_visitAll : ∀ (es : List Expr) {Γ : Knowledge} {current : Id} (_ : Γ.Has current),
    EnrollsShifted δ scope lo Γ id (visitAll scope current es) (visitAll (scope.under n) (current + δ) es)
      (loweredCallsOf scope.context.program es)
  | [], _, _, _ => (MakesShifted.pure ()).quiet
  | e :: es, _, _, hi => (enrollsShifted_visit e hi false).seq fun _ =>
    enrollsShifted_visitAll es (hi.enroll _)

theorem makesShifted_visitArguments :
    ∀ (es : List Expr) {Γ : Knowledge} (sort : StatementSort) (site : CallSite)
    (taken : List Element) (_ : Γ.Has site.current),
    MakesShifted δ scope lo (Γ.calling sort site taken (es.map .ofExpr)) id
    (visitArguments scope site taken.length es)
      (visitArguments (scope.under n) (site.shift δ) taken.length es)
      fun _ =>
      (Γ.enroll (loweredCallsOf scope.context.program es)).calling sort site (taken ++ es.map .ofExpr) []
  | [], Γ, _, _, taken, _ => by
    rw [loweredCallsOf, Γ.enroll_nil, map_nil, append_nil]
    exact MakesShifted.pure ()
  | e :: es, Γ, sort, ⟨call, current, callee, expanded⟩, taken, hcurrent => by
    have hrest := makesShifted_visitArguments es (Γ := Γ.enroll (e.loweredCalls scope.context.program)) sort
      ⟨call, current, callee, expanded⟩ (taken ++ [.ofExpr e]) hcurrent
    rw [length_append, length_singleton, append_assoc, singleton_append] at hrest
    have hcall : (Γ.learn ⟨call, .statement sort, none⟩).Has call := Γ.has_learn rfl
    rw [loweredCallsOf, ← Γ.enroll_enroll]
    cases expanded with
    | true =>
      refine .bind ⟨makes_newActualIn ⟨call, current, callee, true⟩ hcall taken _ e,
        shifts_newActualIn callee call current taken.length e⟩ fun host => ?_
      exact (MakesShifted.forget (enrollsShifted_visit e (Knowledge.has_learn _ rfl) false)).bind
        fun _ => hrest
    | false => exact (enrollsShifted_visit e hcall false).bind fun _ => hrest

end

theorem enrollsShifted_visitNode {node : Id} (hi : Γ.Has node) (es : List Expr) :
    EnrollsShifted δ scope lo Γ id (visitNode scope node es) (visitNode (scope.under n) (node + δ) es)
      (loweredCallsOf scope.context.program es) := by
  refine .bind (keepsShifted_update (fun _ => ?_) (fun _ => rfl) fun _ => rfl) fun _ =>
    enrollsShifted_visitAll es hi
  rfl

/-! ## Statements -/

section Statement

variable {sort : StatementSort} {v : β → γ} {rest : Id → Lower β} {rest' : Id → Lower γ}

variable (hcall : (NodeSort.statement sort).isCall = false)

include hcall

variable (element : Element)

include element

/-- A statement whose node is known only to what follows. -/
theorem makesShifted_statement {payload : Payload}
    (hpayload : payload.isCall = false ∧ payload.isEntry = false) (hrefs : payload.refs = [])
    {Δ : β → Knowledge} (hrest : ∀ node, (Γ.learn ⟨node, .statement sort, none⟩).Has node →
      MakesShifted δ scope lo (Γ.learn ⟨node, .statement sort, none⟩) v (rest node) (rest' (node + δ))
        fun b => (Δ b).learn ⟨node, .statement sort, none⟩) :
    MakesShifted δ scope lo Γ v (newNode (.statement sort) element payload >>= rest)
      (newNode (.statement sort) element (payload.rename (.shift δ)) >>= rest') Δ :=
  .bind ⟨makes_newStatement element hcall hpayload hrefs, shifts_newNode _ _ payload⟩ fun node =>
    .forget (hrest node (Γ.has_learn rfl))

theorem makesShifted_lowerSimple (es : List Expr) (pending : Pending) :
    MakesShifted δ scope lo Γ (· + δ) (lowerSimple scope sort element es pending)
      (lowerSimple (scope.under n) sort element es (pending.shift δ))
      fun node => (Γ.enroll (loweredCallsOf scope.context.program es)).learn ⟨node, .statement sort, none⟩ :=
  .bind ⟨makes_newStatement element hcall ⟨rfl, rfl⟩ rfl, shifts_newNode _ _ .none⟩ fun node =>
    (enrollsShifted_visitNode (Γ.has_learn rfl) es).bind fun _ => (keepsShifted_chain pending).bind fun _ =>
      ⟨.pure (Δ := fun node => (Γ.enroll _).learn ⟨node, .statement sort, none⟩) node, .pure node⟩

theorem enrollsShifted_simple (es : List Expr) (pending : Pending)
    (hrest : ∀ {Γ : Knowledge} node, KeepsShifted δ scope lo Γ v (rest node) (rest' (node + δ))) :
    EnrollsShifted δ scope lo Γ v (lowerSimple scope sort element es pending >>= rest)
      (lowerSimple (scope.under n) sort element es (pending.shift δ) >>= rest')
      (loweredCallsOf scope.context.program es) :=
  (makesShifted_lowerSimple hcall element es pending).bind fun node => .forget (hrest node)

theorem enrollsShifted_simple_seq (es : List Expr) (pending : Pending) {calls : List (Expr × MethodRef)}
    (hrest : ∀ {Γ : Knowledge} node, Γ.Has node →
      EnrollsShifted δ scope lo Γ v (rest node) (rest' (node + δ)) calls) :
    EnrollsShifted δ scope lo Γ v (lowerSimple scope sort element es pending >>= rest)
      (lowerSimple (scope.under n) sort element es (pending.shift δ) >>= rest')
      (loweredCallsOf scope.context.program es ++ calls) := by
  rw [EnrollsShifted, ← Γ.enroll_enroll]
  exact (makesShifted_lowerSimple hcall element es pending).bind fun node =>
    .forget (hrest node (Knowledge.has_learn _ rfl))

end Statement

theorem enrollsShifted_lowerExpression (e : Expr) (pending : Pending) :
    EnrollsShifted δ scope lo Γ (Pending.shift δ)
    (lowerExpression scope e pending) (lowerExpression (scope.under n) e (pending.shift δ))
    (loweredCallsOf scope.context.program [e]) :=
  enrollsShifted_simple rfl _ _ _ fun node => .pure (onward node)

theorem enrollsShifted_lowerExpressions : ∀ (es : List Expr) {Γ : Knowledge} (pending : Pending),
    EnrollsShifted δ scope lo Γ (Pending.shift δ) (lowerExpressions scope es pending)
      (lowerExpressions (scope.under n) es (pending.shift δ)) (loweredCallsOf scope.context.program es)
  | [], _, pending => (MakesShifted.pure pending).quiet
  | e :: es, _, pending => by
    rw [loweredCallsOf_cons]
    exact (enrollsShifted_lowerExpression e pending).seq fun out => enrollsShifted_lowerExpressions es out

theorem enrollsShifted_lowerFragments (whole : Option Stmt) :
    ∀ (fs : List Fragment) {Γ : Knowledge} (pending : Pending),
    EnrollsShifted δ scope lo Γ (Pending.shift δ) (lowerFragments scope whole fs pending)
      (lowerFragments (scope.under n) whole fs (pending.shift δ))
      (loweredCallsOf scope.context.program (fs.map (·.initializer)))
  | [], _, pending => (MakesShifted.pure pending).quiet
  | f :: fs, Γ, pending => by
    rw [map_cons, loweredCallsOf_cons]
    refine makesShifted_statement rfl _ ⟨rfl, rfl⟩ rfl fun node hnode => ?_
    exact makesShifted_declare hnode f.var
      ((enrollsShifted_visitNode hnode _).seq fun _ => (keepsShifted_chain pending).bind fun _ =>
      enrollsShifted_lowerFragments whole fs (onward node))

theorem keepsShifted_lowerJump {sort : StatementSort} (hcall : (NodeSort.statement sort).isCall = false)
    (s : Stmt) {resolve : Id → Lower Bool} (pending : Pending)
    (hresolve : ∀ {Γ : Knowledge} node, KeepsShifted δ scope lo Γ id (resolve node) (resolve (node + δ))) :
    KeepsShifted δ scope lo Γ (Pending.shift δ) (lowerJump scope sort s resolve pending)
      (lowerJump (scope.under n) sort s resolve (pending.shift δ)) := by
  refine makesShifted_statement hcall _ ⟨rfl, rfl⟩ rfl fun node _ => ?_
  refine (keepsShifted_connect pending node none).bind fun _ => (hresolve node).bind fun found => ?_
  exact .ite ((keepsShifted_reportUnresolved _).bind fun _ => .pure [leave node .fallThrough])
    (.pure [leave node .fallThrough])

theorem keepsShifted_closeLoop (loop entry : Id) (back : Pending) :
    KeepsShifted δ scope lo Γ (Pending.shift δ)
    (closeLoop loop entry back) (closeLoop (loop + δ) (entry + δ) (back.shift δ)) :=
  (keepsShifted_connect back entry (some loop)).bind fun _ =>
    keepsShifted_exit.bind fun target => .pure (leave loop .false :: target.breaks)

theorem keepsShifted_continuesSoFar :
    KeepsShifted δ scope lo Γ (Pending.shift δ) continuesSoFar continuesSoFar :=
  ⟨keeps_continuesSoFar, shifts_continuesSoFar⟩

/-- What comes after the body of a loop and its continues. -/
theorem keepsShifted_closeBody (loop entry : Id) (out : Pending) : KeepsShifted δ scope lo Γ (Pending.shift δ)
    (do closeLoop loop entry (out ++ (← continuesSoFar)))
    (do closeLoop (loop + δ) (entry + δ) (out.shift δ ++ (← continuesSoFar))) := by
  refine keepsShifted_continuesSoFar.bind fun continues => ?_
  rw [← map_append]
  exact keepsShifted_closeLoop loop entry (out ++ continues)

theorem keepsShifted_entryOfSequence (node : Id) :
    KeepsShifted δ scope lo Γ (· + δ) (entryOfSequence node) (entryOfSequence (node + δ)) :=
  ⟨keeps_entryOfSequence node, shifts_entryOfSequence node⟩

theorem keepsShifted_lowerDefault {switch : Id} (hi : Γ.Has switch) (c : SwitchCase) :
    KeepsShifted δ scope lo Γ (· + δ) (lowerDefault switch c) (lowerDefault (switch + δ) c) := by
  refine makesShifted_statement rfl _ ⟨rfl, rfl⟩ rfl fun node hnode => ?_
  refine .bind (keepsShifted_changeNode (hi.learn _) (fun ids hids k => ?_) fun k => ?_) fun _ => .pure node
  · split
    · rename_i hpayload
      refine .loose (by rw [hpayload]; rfl) rfl fun j hj => .inr ?_
      rw [mem_singleton.1 hj]
      exact hids node hnode
    · exact .refl ids k
  · obtain ⟨_, _, _, _ | _, _⟩ := k <;> simp [Node.rename, Node.mapIds, Payload.mapIds, Renaming.shift]

theorem enrollsShifted_lowerGuard (switch : Id) (c : SwitchCase) (pending : Pending) :
    EnrollsShifted δ scope lo Γ (· + δ) (lowerGuard scope switch c pending)
      (lowerGuard (scope.under n) (switch + δ) c (pending.shift δ))
      (loweredCallsOf scope.context.program [c.guard]) := by
  refine makesShifted_statement rfl _ ⟨rfl, rfl⟩ rfl fun node hnode => .state fun s => ?_
  have hrest : EnrollsShifted δ scope lo (Γ.learn ⟨node, .statement .switchCase, none⟩) (· + δ) (do
      visitNode scope node [c.guard]
      chain pending
      return node) (do
      visitNode (scope.under n) (node + δ) [c.guard]
      chain (pending.shift δ)
      return node + δ) (loweredCallsOf scope.context.program [c.guard]) :=
    (enrollsShifted_visitNode hnode _).bind fun _ => (keepsShifted_chain pending).bind fun _ => .pure node
  rw [node?_shift]
  cases s.graph.node? switch with
  | none => exact hrest
  | some k =>
    refine .bind (keepsShifted_changeNode hnode (fun ids _ => retouched_addAll ids _ _) fun k => ?_)
      fun _ => hrest
    rw [Node.rename_uses, Node.rename_defs, foldl_hom (Node.rename (.shift δ)) fun n v => n.rename_addDef _ v,
      foldl_hom (Node.rename (.shift δ)) fun n v => n.rename_addUse _ v]

theorem keepsShifted_lowerCatch {tryNode : Id} (hi : Γ.Has tryNode) (c : CatchClause) (guard : Pending) :
    KeepsShifted δ scope lo Γ (fun r => (r.1 + δ, r.2 + δ)) (lowerCatch scope tryNode c guard)
      (lowerCatch (scope.under n) (tryNode + δ) c (guard.shift δ)) := by
  refine makesShifted_statement rfl _ ⟨rfl, rfl⟩ rfl fun node hnode =>
    (keepsShifted_connect guard node none).bind fun _ => ?_
  refine .bind (keepsShifted_changeNode (hi.learn _) (fun ids hids k => ?_) fun k => ?_) fun _ => ?_
  · split
    · rename_i cs f hpayload
      refine .loose (by rw [hpayload]; rfl) rfl fun j hj => ?_
      rw [hpayload]
      simp only [Payload.refs, append_assoc, mem_append, mem_singleton] at hj ⊢
      rcases hj with hj | rfl | hj
      · exact .inl (.inl hj)
      · exact .inr (hids j hnode)
      · exact .inl (.inr hj)
    · exact .refl ids k
  · obtain ⟨_, _, _, _ | _, _⟩ := k <;> simp [Node.rename, Node.mapIds, Payload.mapIds, Renaming.shift]
  · have hrefs : ∀ i ∈ (Payload.parameter (.argument 0) node).refs,
        (Γ.learn ⟨node, .statement .catchClause, none⟩).Has i := by
      intro i hi
      rw [mem_singleton.1 hi]
      exact hnode
    refine .bind
      ⟨makes_newNode _ rfl rfl rfl ⟨rfl, rfl⟩ hrefs (.inr ⟨rfl, ⟨_, _, rfl, mem_cons_self⟩, by simp⟩),
      shifts_newNode _ _ (.parameter (.argument 0) node)⟩ fun parameter => .forget ?_
    have hparameter := Knowledge.has_learn (Γ.learn ⟨node, .statement .catchClause, none⟩)
      (w := .ofParameter parameter .formalIn (.argument 0) node) rfl
    refine makesShifted_declare hparameter c.exception
      (.bind ⟨keeps_specialVariable _ _, shifts_specialVariable _ _⟩ fun v =>
      (keepsShifted_use hparameter v).bind fun _ => .bind ⟨(connects_addFlow _ _ _ _).keeps,
        shifts_addFlow node parameter .true none⟩ fun _ => .pure (node, parameter))

theorem keepsShifted_lowerFinally {tryNode : Id} (hi : Γ.Has tryNode) (s : Stmt) (exits : Pending) :
    KeepsShifted δ scope lo Γ (· + δ) (lowerFinally tryNode s exits)
      (lowerFinally (tryNode + δ) s (exits.shift δ)) := by
  refine makesShifted_statement rfl _ ⟨rfl, rfl⟩ rfl fun node hnode => ?_
  refine .bind (keepsShifted_changeNode (hi.learn _) (fun ids hids k => ?_) fun k => ?_) fun _ => ?_
  · split
    · rename_i cs f hpayload
      refine .loose (by rw [hpayload]; rfl) rfl fun j hj => ?_
      rw [hpayload]
      simp only [Payload.refs, Option.toList_some, mem_append, mem_singleton] at hj ⊢
      rcases hj with hj | rfl
      · exact .inl (.inl hj)
      · exact .inr (hids j hnode)
    · exact .refl ids k
  · obtain ⟨_, _, _, _ | _, _⟩ := k <;> simp [Node.rename, Node.mapIds, Payload.mapIds, Renaming.shift]
  · exact (keepsShifted_connect exits node none).bind fun _ => .pure node

theorem keepsShifted_lowerMerge {branch : Id} (hi : Γ.Has branch) (s : Stmt) (pending : Pending) :
    KeepsShifted δ scope lo Γ (Pending.shift δ) (lowerMerge s branch pending)
      (lowerMerge s (branch + δ) (pending.shift δ)) := by
  have hrefs : ∀ i ∈ (Payload.merge branch).refs, Γ.Has i := by
    intro i hi'
    rw [mem_singleton.1 hi']
    exact hi
  refine .bind
    ⟨makes_newNode _ rfl rfl rfl ⟨rfl, rfl⟩ hrefs (.inl ⟨rfl, rfl⟩), shifts_newNode _ _ (.merge branch)⟩
    fun node => .forget ?_
  exact (keepsShifted_connect pending node none).bind fun _ => .pure (onward node)

mutual

/-- Lowering a statement enrolls its calls, by recursion. -/
theorem enrollsShifted_lower :
    ∀ (s : Stmt) {Γ : Knowledge} (pending : Pending), EnrollsShifted δ scope lo Γ (Pending.shift δ)
    (lower scope s pending) (lower (scope.under n) s (pending.shift δ)) (s.loweredCalls scope.context.program)
  | .absent, _, pending => (MakesShifted.pure pending).quiet
  | .bare e, _, pending => .ite (MakesShifted.pure pending).quiet (MakesShifted.throw _)
  | .other tag _, _, _ => MakesShifted.throw _
  | .typeDeclaration _ _, _, pending => (MakesShifted.pure pending).quiet
  | .block ss _, _, pending => enrollsShifted_lowerAll ss pending
  | .empty _, _, _ => enrollsShifted_simple rfl _ [] _ fun node => .pure (onward node)
  | .expression e _, _, _ => enrollsShifted_simple rfl _ [e] _ fun node => .pure (onward node)
  | .assertion e m _, _, _ => enrollsShifted_simple rfl _ [e, m] _ fun node => .pure (onward node)
  | .declaration fs _, _, pending => enrollsShifted_lowerFragments _ fs pending
  | .ifElse c p n l, _, pending => by
    refine enrollsShifted_simple_seq rfl _ [c] pending fun node hnode => ?_
    refine (enrollsShifted_lower p [leave node .true]).seq fun positive => ?_
    refine (enrollsShifted_lower n [leave node .false]).bind fun negative => ?_
    rw [← map_append]
    exact keepsShifted_lowerMerge ((hnode.enroll _).enroll _) (.ifElse c p n l) (positive ++ negative)
  | .whileLoop c b _, _, pending => by
    refine enrollsShifted_simple_seq rfl _ [c] pending fun node _ => ?_
    refine (keepsShifted_entryOfSequence node).bind fun entry =>
      (keepsShifted_enter .loop none).bind fun _ => ?_
    exact (enrollsShifted_lower b (onward node)).bind fun out => keepsShifted_closeBody node entry out
  | .doLoop b c _, _, pending => by
    refine .bind ⟨keeps_openHead, shifts_openHead⟩ fun head =>
      (keepsShifted_enter .loop none).bind fun _ => ?_
    refine (enrollsShifted_lower b [⟨.head head, .true⟩]).seq fun out =>
      keepsShifted_continuesSoFar.bind fun continues => ?_
    rw [← map_append]
    refine enrollsShifted_simple rfl _ [c] (out ++ continues) fun node => ?_
    refine .bind ⟨keeps_headOf head, shifts_headOf head⟩ fun first =>
      (keepsShifted_connect pending first none).bind fun _ => ?_
    refine .bind ⟨(connects_addFlow _ _ _ _).keeps, shifts_addFlow node first .true (some node)⟩ fun _ => ?_
    exact keepsShifted_exit.bind fun target => .pure (leave node .false :: target.breaks)
  | .forLoop is c us b _, _, pending => by
    refine (enrollsShifted_lowerInitializers is pending).seq fun pending =>
      enrollsShifted_simple_seq rfl _ [c] pending fun node _ => ?_
    refine (keepsShifted_entryOfSequence node).bind fun entry =>
      (keepsShifted_enter .loop none).bind fun _ => ?_
    refine (enrollsShifted_lower b (onward node)).seq fun out =>
      keepsShifted_continuesSoFar.bind fun continues => ?_
    rw [← map_append]
    exact (enrollsShifted_lowerExpressions us (out ++ continues)).bind fun back =>
      keepsShifted_closeLoop node entry back
  | .eachLoop v i b _, Γ, pending => by
    refine makesShifted_statement rfl _ ⟨rfl, rfl⟩ rfl fun node hnode => ?_
    exact makesShifted_declare hnode v
      ((enrollsShifted_visitNode hnode [i]).seq fun _ => (keepsShifted_chain pending).bind fun _ =>
      (keepsShifted_enter .loop none).bind fun _ => (enrollsShifted_lower b (onward node)).bind fun out =>
        keepsShifted_closeBody node node out)
  | .switch e cs l, Γ, pending => by
    refine makesShifted_statement rfl _ ⟨rfl, rfl⟩ rfl fun node hnode => ?_
    refine (enrollsShifted_visitNode hnode [e]).seq fun _ => (keepsShifted_chain pending).bind fun _ =>
      (keepsShifted_enter .switch none).bind fun _ =>
        (enrollsShifted_lowerCases cs (hnode.enroll _) ⟨onward node, [], none⟩).bind fun progress => ?_
    obtain ⟨guard, fall, default⟩ := progress
    have hrest : ∀ {Γ : Knowledge} (_ : Γ.Has node) (waiting : Pending),
      KeepsShifted δ scope lo Γ (Pending.shift δ) (do
        let target ← exit
        lowerMerge (.switch e cs l) node (fall ++ target.breaks ++ waiting ++ [leave node .false])) (do
        let target ← exit
        lowerMerge (.switch e cs l) (node + δ) (fall.shift δ ++ target.breaks ++ waiting.shift δ ++
          [leave (node + δ) .false])) := by
      intro Γ hnode waiting
      refine keepsShifted_exit.bind fun target => ?_
      have hall : (fall ++ target.breaks ++ waiting ++ [leave node .false]).map (·.shift δ) =
          fall.shift δ ++ (target.shift δ).breaks ++ waiting.shift δ ++ [leave (node + δ) .false] := by
        rw [map_append, map_append, map_append]
        rfl
      rw [← hall]
      exact keepsShifted_lowerMerge hnode (.switch e cs l) _
    cases default with
    | none => exact hrest ((hnode.enroll _).enroll _) guard
    | some d => exact (keepsShifted_connect guard d none).bind fun _ => hrest ((hnode.enroll _).enroll _) []
  | .breakJump l _, _, pending =>
    (keepsShifted_lowerJump rfl _ pending fun node => ⟨keeps_jumpBreak l node, shifts_jumpBreak l node⟩).quiet
  | .continueJump l _, _, pending =>
    (keepsShifted_lowerJump rfl _ pending fun node =>
      ⟨keeps_jumpContinue l node, shifts_jumpContinue l node⟩).quiet
  | .returnJump e _, Γ, pending => by
    refine makesShifted_statement rfl _ ⟨rfl, rfl⟩ rfl fun node hnode => ?_
    have hrest :
      EnrollsShifted δ scope lo (Γ.learn ⟨node, .statement .returnJump, none⟩) (Pending.shift δ) (do
        visitNode scope node [e]
        chain pending
        .update fun st => { st with returns := st.returns ++ onward node }
        return [leave node .fallThrough]) (do
        visitNode (scope.under n) (node + δ) [e]
        chain (pending.shift δ)
        .update fun st => { st with returns := st.returns ++ onward (node + δ) }
        return [leave (node + δ) .fallThrough]) (loweredCallsOf scope.context.program [e]) := by
      refine (enrollsShifted_visitNode hnode [e]).bind fun _ => (keepsShifted_chain pending).bind fun _ => ?_
      refine .bind (keepsShifted_update (fun st => ?_) (fun _ => rfl) fun _ => rfl) fun _ =>
        .pure [leave node .fallThrough]
      exact congrArg (fun returns => { st.shift δ with returns := returns })
        (map_shift_append_onward st.returns node)
    dsimp only
    rw [show (scope.under n).method = scope.method from rfl]
    cases scope.method with
    | none => exact hrest
    | some m => exact .ite ((keepsShifted_define hnode _).bind fun _ => hrest) hrest
  | .throwJump e _, _, pending => by
    refine enrollsShifted_simple rfl _ [e] pending fun node => ?_
    refine .bind (keepsShifted_update (fun st => ?_) (fun _ => rfl) fun _ => rfl) fun _ =>
      .pure [leave node .fallThrough]
    exact congrArg (fun throws => { st.shift δ with throws := throws })
      (map_shift_append_onward st.throws node)
  | .synchronized e b _, _, pending =>
    enrollsShifted_simple_seq rfl _ [e] pending fun node _ => enrollsShifted_lower b (onward node)
  | .tryCatch b cs f l, Γ, pending => by
    refine makesShifted_statement rfl _ ⟨rfl, rfl⟩ rfl fun node hnode => ?_
    refine (keepsShifted_connect pending node none).bind fun _ =>
      (enrollsShifted_lower b (onward node)).seq fun out =>
      (enrollsShifted_lowerCatches cs (hnode.enroll _) [leave node .false] out).seq fun exits => ?_
    split
    · rename_i habsent
      rw [loweredCalls_of_isAbsent habsent]
      exact (keepsShifted_lowerMerge ((hnode.enroll _).enroll _) (.tryCatch b cs f l) exits).quiet
    · refine (keepsShifted_lowerFinally ((hnode.enroll _).enroll _) f exits).bind fun finallyNode => ?_
      exact (enrollsShifted_lower f (onward finallyNode)).bind fun exits =>
        keepsShifted_lowerMerge (((hnode.enroll _).enroll _).enroll _) (.tryCatch b cs f l) exits
  | .labeled l b _, Γ, pending => by
    refine makesShifted_statement rfl _ ⟨rfl, rfl⟩ rfl fun node _ =>
      (keepsShifted_connect pending node none).bind fun _ => ?_
    split
    · refine .bind (keepsShifted_update (fun _ => ?_) (fun _ => rfl) fun _ => rfl) fun _ =>
        enrollsShifted_lower b (onward node)
      rfl
    · refine (keepsShifted_enter .label (some l)).bind fun _ =>
        (enrollsShifted_lower b (onward node)).bind fun out =>
        keepsShifted_exit.bind fun target => ?_
      have hout : (out ++ target.breaks).map (·.shift δ) = out.shift δ ++ (target.shift δ).breaks :=
        map_append
      rw [← hout]
      exact .pure (out ++ target.breaks)

theorem enrollsShifted_lowerAll : ∀ (ss : List Stmt) {Γ : Knowledge} (pending : Pending),
    EnrollsShifted δ scope lo Γ (Pending.shift δ) (lowerAll scope ss pending)
      (lowerAll (scope.under n) ss (pending.shift δ)) (allLoweredCalls scope.context.program ss)
  | [], _, pending => (MakesShifted.pure pending).quiet
  | s :: ss, _, pending => (enrollsShifted_lower s pending).seq fun out => enrollsShifted_lowerAll ss out

theorem enrollsShifted_lowerInitializers : ∀ (ss : List Stmt) {Γ : Knowledge} (pending : Pending),
    EnrollsShifted δ scope lo Γ (Pending.shift δ) (lowerInitializers scope ss pending)
      (lowerInitializers (scope.under n) ss (pending.shift δ))
      (initializersLoweredCalls scope.context.program ss)
  | [], _, pending => (MakesShifted.pure pending).quiet
  | s :: ss, _, pending => by
    by_cases hbare : ∃ e, s = .bare e
    · obtain ⟨e, rfl⟩ := hbare
      exact (enrollsShifted_lowerExpression e pending).seq fun out => enrollsShifted_lowerInitializers ss out
    · have hstatement : ∀ e, s ≠ .bare e := fun e h => hbare ⟨e, h⟩
      rw [lowerInitializers, lowerInitializers, initializersLoweredCalls_cons hstatement]
      · exact (enrollsShifted_lower s pending).seq fun out => enrollsShifted_lowerInitializers ss out
      · exact hstatement
      · exact hstatement

theorem enrollsShifted_lowerCases : ∀ (cs : List SwitchCase) {Γ : Knowledge} {switch : Id} (_ : Γ.Has switch)
    (progress : CaseProgress),
    EnrollsShifted δ scope lo Γ (CaseProgress.shift δ) (lowerCases scope switch cs progress)
      (lowerCases (scope.under n) (switch + δ) cs (progress.shift δ))
      (casesLoweredCalls scope.context.program cs)
  | [], _, _, _, progress => (MakesShifted.pure progress).quiet
  | .mk g ss l :: cs, _, switch, hi, progress => by
    rw [lowerCases, lowerCases, casesLoweredCalls]
    split
    · rename_i habsent
      have hnone : loweredCallsOf scope.context.program [g] = [] := by
        cases g with
        | absent => rfl
        | _ => cases habsent
      rw [hnone]
      refine (keepsShifted_lowerDefault hi (.mk g ss l)).bind fun node => ?_
      rw [onward_append_shift]
      exact (enrollsShifted_lowerAll ss (onward node ++ progress.fall)).seq fun fall =>
        enrollsShifted_lowerCases cs (hi.enroll _) ⟨progress.guard, fall, some node⟩
    · refine (enrollsShifted_lowerGuard switch (.mk g ss l) progress.guard).seq fun node => ?_
      rw [onward_append_shift]
      exact (enrollsShifted_lowerAll ss (onward node ++ progress.fall)).seq fun fall =>
        enrollsShifted_lowerCases cs ((hi.enroll _).enroll _) ⟨[leave node .false], fall, progress.default⟩

theorem enrollsShifted_lowerCatches :
    ∀ (cs : List CatchClause) {Γ : Knowledge} {tryNode : Id} (_ : Γ.Has tryNode)
    (guard exits : Pending),
    EnrollsShifted δ scope lo Γ (Pending.shift δ) (lowerCatches scope tryNode cs guard exits)
      (lowerCatches (scope.under n) (tryNode + δ) cs (guard.shift δ) (exits.shift δ))
      (catchesLoweredCalls scope.context.program cs)
  | [], _, _, _, guard, exits => by
    rw [lowerCatches, lowerCatches, ← map_append]
    exact (MakesShifted.pure (exits ++ guard)).quiet
  | .mk v b l :: cs, _, _, hi, guard, exits => by
    rw [lowerCatches, lowerCatches]
    refine (keepsShifted_lowerCatch hi (.mk v b l) guard).bind fun r => ?_
    obtain ⟨node, parameter⟩ := r
    refine (enrollsShifted_lower b (onward parameter)).seq fun out => ?_
    rw [← map_append]
    exact enrollsShifted_lowerCatches cs (hi.enroll _) [leave node .false] (exits ++ out)

end

end Lowering

/-! ## Units -/

namespace Cfg

open Tracked Lowering

variable {δ : Int} {scope : Scope} {n : Nat} {lo : Id} {Γ : Knowledge}

/-- A method that is lowered gets its parameters and its result. -/
theorem makesShifted_lowerMethod {entry : Id} (hi : Γ.Has entry) (r : MethodRef) (m : Method) (exit : Id) :
    MakesShifted δ scope lo (Γ.owe (entryDebt entry m [] m.parameters)) id (lowerMethod scope r m entry exit)
      (lowerMethod (scope.under n) r m (entry + δ) (exit + δ))
      fun _ => Γ.enroll (m.body.loweredCalls scope.context.program) := by
  have hlast : ∀ {Γ : Knowledge} (last : Pending), KeepsShifted δ scope lo Γ id
      (do connect ((← .state).throws ++ last) exit none)
      (do connect ((← .state).throws ++ last.shift δ) (exit + δ) none) := by
    intro Γ last
    refine .state fun s => ?_
    have hall : (s.throws ++ last).map (·.shift δ) = (s.shift δ).throws ++ last.shift δ := map_append
    rw [← hall]
    exact keepsShifted_connect (s.throws ++ last) exit none
  refine .bind ⟨makes_lowerParameters _ hi [] _, shifts_lowerParameters entry 0 m.parameters _⟩
    fun pending => (enrollsShifted_lower m.body pending).bind fun pending => .state fun s => ?_
  have hreturned : (s.shift δ).returns ++ pending.shift δ = (s.returns ++ pending).map (·.shift δ) :=
    map_append.symm
  rw [hreturned]
  cases hvoid : m.isVoid with
  | true =>
    exact ⟨fun p h => (hlast (s.returns ++ pending)).makes p ⟨h.made.silent rfl hvoid, h.nodes, h.calls⟩,
      (hlast (Γ := Γ) (s.returns ++ pending)).shifts⟩
  | false =>
    exact .bind
      ⟨makes_lowerResult (hi.enroll _) r hvoid _, shifts_lowerResult entry r m (s.returns ++ pending)⟩ hlast

theorem enrollsShifted_lowerField (r : FieldRef) (f : Field) (entry exit : Id) :
    EnrollsShifted δ scope lo Γ id (lowerField scope r f entry exit)
    (lowerField (scope.under n) r f (entry + δ) (exit + δ))
      (loweredCallsOf scope.context.program [f.initializer]) :=
  makesShifted_statement rfl _ ⟨rfl, rfl⟩ rfl fun node hnode => (keepsShifted_define hnode _).bind fun _ =>
    (enrollsShifted_visitNode hnode _).bind fun _ => (keepsShifted_chain (onward entry)).bind fun _ =>
      keepsShifted_connect (onward node) exit none

theorem ends_ofMethod_made {σ : Type} {context : Context} {r : MethodRef} {m : Method}
    (hm : context.program.method? r = some m) (p : σ × Trail) : Ends (ofMethod context r m) p
      (fun c q => q.1 = p.1 ∧ Made context.program p.2.next [] c.nodes c.edges q.2.next ∧
        (context.program.Named →
          c.callMarks = (m.body.loweredCalls context.program).map (scopeOf context m).markOf))
      (fun _ => Kept p) := by
  refine ends_build_made (fun lo => [entryDebt lo m [] m.parameters]) (fun _ => Made.start.entry hm _)
    (fun lo => ?_) p
  exact (makesShifted_lowerMethod (δ := 0) (n := 0) (Γ := ⟨[], [⟨lo, .entry (methodScope m.kind), none⟩], []⟩)
    ⟨_, mem_singleton_self _, rfl, rfl⟩ r m (lo + 1)).makes

/-- **The nodes and edges of a flow graph come about in the ways of `Made`, and no result is left to
come.** -/
theorem ends_ofUnit_made {σ : Type} (context : Context) (unit : UnitRef) (p : σ × Trail) :
    Ends (ofUnit context unit) p
      (fun c q => q.1 = p.1 ∧
      Made context.program p.2.next [] c.nodes c.edges q.2.next) (fun _ => Kept p) := by
  cases unit with
  | method r =>
    simp only [ofUnit]
    split
    · rename_i m hm
      exact (ends_ofMethod_made hm p).imp fun _ _ hq => ⟨hq.1, hq.2.1⟩
    · exact ⟨rfl, Int.le_refl p.2.next⟩
  | field r =>
    simp only [ofUnit]
    split
    · rename_i f _
      exact (ends_build_made (fun _ => []) (fun _ => Made.start.fieldEntry r _)
        (fun lo => (enrollsShifted_lowerField (δ := 0) (n := 0) r f lo (lo + 1)).makes) p).imp fun _ _ hq =>
        ⟨hq.1, hq.2.1⟩
    · exact ⟨rfl, Int.le_refl p.2.next⟩

variable {σ τ : Type}

/-- **The flow graph of a unit does not depend on where its numbering starts,** except that its ids
are moved.  It remembers which numbering that is. -/
theorem endsShifted_ofUnit (context : Context) (u : UnitRef) (n : Nat) (p : σ × Trail) (p' : τ × Trail) :
    EndsShifted (p'.2.next - p.2.next) n (ofUnit context u) (ofUnit (context.under n) u) p p' := by
  have h : p'.2.next = p.2.next + (p'.2.next - p.2.next) := by
    rw [Int.add_comm, Int.sub_add_cancel]
  have hnext : ∀ e : Error, EndsShifted (p'.2.next - p.2.next) n (throw e) (throw e) p p' :=
    fun _ => ⟨fun _ _ _ => rfl, h⟩
  have hprogram : (context.under n).program = context.program := rfl
  cases u with
  | method r =>
    simp only [ofUnit, hprogram]
    cases context.program.method? r with
    | none => exact hnext _
    | some m =>
      let scope : Scope := ⟨context, context.program.nameOfMethod m, some m⟩
      refine endsShifted_build scope _ _ (fun entry exit => ?_) h
      have hshifted : MakesShifted (p'.2.next - p.2.next) scope 0 _ id _ _ _ :=
        makesShifted_lowerMethod (n := n) (Γ := ⟨[], [⟨entry, .dummy, none⟩], []⟩)
          ⟨_, mem_singleton_self _, rfl, rfl⟩ r m exit
      exact hshifted.shifts
  | field r =>
    simp only [ofUnit, hprogram]
    cases context.program.field? r with
    | none => exact hnext _
    | some f =>
      let scope : Scope := ⟨context, context.program.nameOfField f, none⟩
      refine endsShifted_build scope _ _ (fun entry exit => ?_) h
      have hshifted : EnrollsShifted (p'.2.next - p.2.next) scope 0 ⟨[], [], []⟩ id _ _ _ :=
        enrollsShifted_lowerField (n := n) r f entry exit
      exact hshifted.shifts

end Cfg

end ProgramDependence
