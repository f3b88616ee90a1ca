import ProgramDependence.Proofs.SystemUnits

/-!
# Expansion is bounded by recursion

The flow graph of a method has a node for each resolved call that is lowered, and the call is
expanded iff the settings ask for it, the callee is in the project and no chain of calls leads from
the callee back to the method.  What is lowered is written in the body, so an expanded call is a
link of such chains; therefore expanding calls, and the calls of their callees, comes to an end
(`Cfg.calls_expanded_iff`).
-/

namespace ProgramDependence

open List Tree

open Tracked Lowering

variable {P : Program}
variable {m : Method}

/-! ## What is lowered is written down -/

/-- The calls are among some pieces of source, and bound to their callees. -/
def Written (P : Program) (written : List Tree) (calls : List (Expr × MethodRef)) : Prop :=
  ∀ call ∈ calls, expr call.1 ∈ written ∧ P.callee? call.1 = some call.2

namespace Written

variable {ts us : List Tree} {calls rest : List (Expr × MethodRef)}

theorem nil (ts : List Tree) : Written P ts [] :=
  fun _ h => absurd h not_mem_nil

theorem mono (h : Written P ts calls) (hsub : ts ⊆ us) : Written P us calls :=
  fun call hcall => ⟨hsub (h call hcall).1, (h call hcall).2⟩

theorem cons (t : Tree) (h : Written P ts calls) : Written P (t :: ts) calls :=
  h.mono (subset_cons_self _ _)

variable (h : Written P ts calls)
include h

theorem both (h' : Written P ts rest) : Written P ts (calls ++ rest) :=
  forall_mem_append.2 ⟨h, h'⟩

theorem append (h' : Written P us rest) : Written P (ts ++ us) (calls ++ rest) :=
  (h.mono (subset_append_left _ _)).both (h'.mono (subset_append_right _ _))

theorem callThen {e : Expr} : Written P (.expr e :: ts) (P.callThen e calls) := by
  unfold Program.callThen
  split
  · rename_i b hb
    exact forall_mem_cons.2 ⟨⟨mem_cons_self, hb⟩, h.cons _⟩
  · exact .nil _

end Written

mutual

/-- What is lowered is written in the expression. -/
theorem written_loweredCalls : ∀ e : Expr, Written P (walkExpr e) (e.loweredCalls P)
  | .absent | .name _ _ _ | .self _ _ | .literal _ _ _ => by
    rw [Expr.loweredCalls]
    exact .nil _
  | .assignment t v op _ => by
    have ht := (written_loweredCalls t).mono (subset_append_left _ (walkExpr v))
    have hv := (written_loweredCalls v).mono (subset_append_right (walkExpr t) _)
    rw [Expr.loweredCalls, walkExpr, Expr.walk, map_cons, map_append]
    refine .cons _ (ht.both (.both ?_ hv))
    split
    · exact ht
    · exact .nil _
  | .unary op x _ _ => by
    rw [Expr.loweredCalls, walkExpr, Expr.walk]
    refine .cons _ ((written_loweredCalls x).both ?_)
    split
    · exact written_loweredCalls x
    · exact .nil _
  | .binary l _ r _ | .arrayAccess l r _ => by
    rw [Expr.loweredCalls, walkExpr, Expr.walk, map_cons, map_append]
    exact ((written_loweredCalls l).append (written_loweredCalls r)).cons _
  | .fieldAccess x _ _ _ | .instanceOf x _ _ | .cast _ x _ => by
    rw [Expr.loweredCalls, walkExpr, Expr.walk]
    exact (written_loweredCalls x).cons _
  | .conditional c p n _ => by
    rw [Expr.loweredCalls, walkExpr, Expr.walk, append_assoc, map_cons, map_append, map_append]
    exact ((written_loweredCalls c).append ((written_loweredCalls p).append (written_loweredCalls n))).cons _
  | .arrayInitializer es _ | .other _ es _ => by
    rw [Expr.loweredCalls, walkExpr, Expr.walk]
    exact (written_loweredCallsOf es).cons _
  | .arrayCreation _ ds i _ => by
    rw [Expr.loweredCalls, walkExpr, Expr.walk, map_cons, map_append]
    exact ((written_loweredCallsOf ds).append (written_loweredCalls i)).cons _
  | .methodCall _ as r _ _ _ | .instanceCreation _ as _ r _ => by
    rw [Expr.loweredCalls, walkExpr, Expr.walk, map_cons, map_append]
    exact ((written_loweredCallsOf as).append (written_loweredCalls r)).callThen
  | .constructorCall as _ _ _ => by
    rw [Expr.loweredCalls, walkExpr, Expr.walk]
    exact (written_loweredCallsOf as).callThen

theorem written_loweredCallsOf :
    ∀ es : List Expr, Written P ((Expr.walkAll es).map .expr) (loweredCallsOf P es)
  | [] => .nil _
  | e :: es => by
    rw [loweredCallsOf, Expr.walkAll, map_append]
    exact (written_loweredCalls e).append (written_loweredCallsOf es)

end

theorem written_one (e : Expr) : Written P (walkExpr e) (loweredCallsOf P [e]) := by
  rw [loweredCallsOf, loweredCallsOf, append_nil]
  exact written_loweredCalls e

theorem written_each {α : Type} (f : α → Expr) (xs : List α) :
    Written P (xs.flatMap fun x => walkExpr (f x)) (loweredCallsOf P (xs.map f)) := by
  induction xs with
  | nil => exact .nil _
  | cons x xs ih =>
    exact (written_loweredCalls (f x)).append ih

mutual

theorem Stmt.written_loweredCalls : ∀ s : Stmt, Written P (walkStmt s) (s.loweredCalls P)
  | .absent | .bare _ | .other _ _ | .typeDeclaration _ _ | .empty _ | .breakJump _ _
  | .continueJump _ _ => by
    rw [Stmt.loweredCalls]
    exact .nil _
  | .block ss _ => by
    rw [Stmt.loweredCalls, walkStmt]
    exact (written_allLoweredCalls ss).cons _
  | .expression e _ | .returnJump e _ | .throwJump e _ => by
    rw [Stmt.loweredCalls, walkStmt]
    exact (written_one e).cons _
  | .assertion e m _ => by
    rw [Stmt.loweredCalls, walkStmt, loweredCallsOf]
    exact ((ProgramDependence.written_loweredCalls e).append (written_one m)).cons _
  | .declaration fs _ => by
    rw [Stmt.loweredCalls, walkStmt]
    refine Written.cons _ ((written_each Fragment.initializer fs).mono fun t ht => ?_)
    obtain ⟨f, hf, ht⟩ := mem_flatMap.1 ht
    exact mem_flatMap.2 ⟨f, hf, mem_cons_of_mem _ ht⟩
  | .ifElse c p n _ => by
    rw [Stmt.loweredCalls, walkStmt, append_assoc]
    exact ((written_one c).append (p.written_loweredCalls.append n.written_loweredCalls)).cons _
  | .whileLoop c b _ | .eachLoop _ c b _ | .synchronized c b _ => by
    rw [Stmt.loweredCalls, walkStmt]
    exact ((written_one c).append b.written_loweredCalls).cons _
  | .doLoop b c _ => by
    rw [Stmt.loweredCalls, walkStmt]
    exact (b.written_loweredCalls.append (written_one c)).cons _
  | .forLoop is c us b line => by
    have hus : Written P (us.flatMap walkExpr) (loweredCallsOf P us) := by
      simpa using written_each id us
    rw [Stmt.loweredCalls, walkStmt]
    refine .mono (((written_initializersLoweredCalls is).append
      ((written_one c).append (b.written_loweredCalls.append hus))).cons (.stmt (.forLoop is c us b line))) ?_
    grind
  | .switch e cs _ => by
    rw [Stmt.loweredCalls, walkStmt]
    exact ((written_one e).append (written_casesLoweredCalls cs)).cons _
  | .tryCatch b cs f _ => by
    rw [Stmt.loweredCalls, walkStmt, append_assoc]
    exact (b.written_loweredCalls.append
      ((written_catchesLoweredCalls cs).append f.written_loweredCalls)).cons _
  | .labeled _ b _ => by
    rw [Stmt.loweredCalls, walkStmt]
    exact b.written_loweredCalls.cons _

theorem written_allLoweredCalls : ∀ ss : List Stmt, Written P (walkStmts ss) (allLoweredCalls P ss)
  | [] => .nil _
  | s :: ss => by
    rw [allLoweredCalls, walkStmts]
    exact s.written_loweredCalls.append (written_allLoweredCalls ss)

theorem written_initializersLoweredCalls : ∀ ss : List Stmt,
    Written P (walkStmts ss) (initializersLoweredCalls P ss)
  | [] => .nil _
  | s :: ss => by
    by_cases hbare : ∃ e, s = .bare e
    · obtain ⟨e, rfl⟩ := hbare
      rw [initializersLoweredCalls, walkStmts, walkStmt]
      exact (written_one e).append (written_initializersLoweredCalls ss)
    · rw [initializersLoweredCalls_cons fun e h => hbare ⟨e, h⟩, walkStmts]
      exact s.written_loweredCalls.append (written_initializersLoweredCalls ss)

theorem written_casesLoweredCalls : ∀ cs : List SwitchCase, Written P (walkCases cs) (casesLoweredCalls P cs)
  | [] => .nil _
  | .mk g ss _ :: cs => by
    rw [casesLoweredCalls, walkCases, ← append_assoc]
    exact (((written_one g).append (written_allLoweredCalls ss)).cons _).append
      (written_casesLoweredCalls cs)

theorem written_catchesLoweredCalls : ∀ cs : List CatchClause,
    Written P (walkCatches cs) (catchesLoweredCalls P cs)
  | [] => .nil _
  | .mk _ b _ :: cs => by
    rw [catchesLoweredCalls, walkCatches]
    exact (b.written_loweredCalls.cons _).append (written_catchesLoweredCalls cs)

end

theorem Program.exists_mem_distinctMethods (seen : List String) {rs : List MethodRef}
    {r : MethodRef} (hr : r ∈ rs) (hnew : P.methodName r ∉ seen) :
    ∃ s ∈ P.distinctMethods seen rs, P.methodName s = P.methodName r := by
  induction rs generalizing seen with
  | nil => cases hr
  | cons t rs ih =>
    rw [distinctMethods]
    by_cases hname : P.methodName t = P.methodName r
    · rw [if_neg (hname ▸ hnew)]
      exact ⟨t, mem_cons_self, hname⟩
    · have hmem : r ∈ rs := (mem_cons.1 hr).resolve_left fun h => hname (h ▸ rfl)
      split
      · exact ih seen hmem hnew
      · obtain ⟨s, hs, heq⟩ := ih (P.methodName t :: seen) hmem
          fun h => (mem_cons.1 h).elim (fun h => hname h.symm) hnew
        exact ⟨s, mem_cons_of_mem _ hs, heq⟩

theorem Program.calls_of_lowered (hnamed : P.Named) {r : MethodRef} (hm : P.method? r = some m)
    {call : Expr × MethodRef} (hcall : call ∈ m.body.loweredCalls P) : P.Calls r call.2 := by
  obtain ⟨hwritten, hcallee⟩ := m.body.written_loweredCalls call hcall
  obtain ⟨hbinding, hhas⟩ := Option.filter_eq_some_iff.1 hcallee
  have hmem : call.2 ∈ ((walkStmt m.body).filterMap binding?).filter
      fun b => (P.method? b).isSome :=
    mem_filter.2 ⟨mem_filterMap.2 ⟨_, hwritten, hbinding⟩, hhas⟩
  obtain ⟨s, hs, hname⟩ := exists_mem_distinctMethods [] hmem not_mem_nil
  have hhas' := (mem_filter.1 ((nodup_distinctMethods [] _).2 s hs).1).2
  have hsame := hnamed (.method s) (.method call.2) hhas' hhas hname
  cases hsame
  exact ⟨m, hm, hs⟩

/-! ## Flow graphs -/

namespace Cfg

variable {context : Context} {r b : MethodRef}

theorem ends_ofMethod_callMarks {σ : Type} (hnamed : context.program.Named)
    (hm : context.program.method? r = some m) (p : σ × Trail) : Ends (ofMethod context r m) p
      (fun c _ => c.callMarks = (m.body.loweredCalls context.program).map (scopeOf context m).markOf)
      (fun _ _ => True) :=
  (ends_ofMethod_made hm p).partly fun _ _ hq => hq.2.2 hnamed

/-! ## Expanded calls -/

/-- Whether a call is to be expanded inside a method: the settings ask for it, the callee is in the
project, and no chain of calls leads from it back to the method. -/
def Expandable (context : Context) (m : Method) (b : MethodRef) : Prop :=
  context.settings.createActualNodes.truthy = true ∧ context.program.unitInProject
    (.method b) = true ∧ ¬ context.program.LeadsTo b (context.program.nameOfMethod m)

theorem expands_iff (hnamed : context.program.Named) :
    (scopeOf context m).expands b = true ↔ Expandable context m b := by
  simp only [Scope.expands, Scope.returnsTo, Bool.and_eq_true, Bool.not_eq_true', and_assoc]
  refine and_congr_right fun _ => and_congr_right fun hproject => ?_
  rw [← Program.reachesName_iff hnamed (Program.has_of_inProject hproject), Bool.not_eq_true]

/-- The flow graph of one method has an expanded call of another. -/
def Expands (context : Context) (r b : MethodRef) : Prop :=
  ∃ p q c, ((ofUnit context (.method r)).run p : Except Error Cfg × Unit × Trail) = (.ok c, q) ∧
    ∃ k ∈ c.nodes, ∃ ins outs, k.payload = .call b ins outs true

/-- An expanded call is a call, and its callee does not lead back. -/
theorem Expands.spec (hnamed : context.program.Named) (h : Expands context r b) :
    context.program.Calls r b ∧ ∃ m, context.program.method? r = some m ∧ Expandable context m b := by
  obtain ⟨p, q, c, hrun, k, hk, ins, outs, hpayload⟩ := h
  cases hm : context.program.method? r with
  | none =>
    rw [ofUnit, hm] at hrun
    cases hrun
  | some m =>
    rw [ofUnit, hm] at hrun
    have hmarks := (ends_iff_of_run hrun).1 (ends_ofMethod_callMarks hnamed hm p)
    have hmark : (⟨k.element, b, true⟩ : CallMark) ∈ c.callMarks :=
      mem_filterMap.2 ⟨k, hk, by rw [Node.callMark?, hpayload]⟩
    rw [hmarks] at hmark
    obtain ⟨call, hcall, heq⟩ := mem_map.1 hmark
    have hcallee : call.2 = b := congrArg CallMark.callee heq
    have hexpanded : (scopeOf context m).expands call.2 = true := congrArg CallMark.expanded heq
    rw [hcallee] at hexpanded
    exact ⟨hcallee ▸ Program.calls_of_lowered hnamed hm hcall, m, rfl, (expands_iff hnamed).1 hexpanded⟩

theorem leadsTo_of_expands (hnamed : context.program.Named)
    (h : Relation.ReflTransGen (Expands context) b r) :
    context.program.LeadsTo b (context.program.methodName r) := by
  induction h using Relation.ReflTransGen.head_induction_on with
  | refl => exact Program.leadsTo_iff.2 (.inl rfl)
  | head hstep _ ih =>
    obtain ⟨hcalls, m, -, -, hproject, -⟩ := hstep.spec hnamed
    exact Program.leadsTo_iff.2 (.inr ⟨_, hcalls, .inr ⟨hproject, ih⟩⟩)

/-- **Expansion is bounded by recursion.**  In a program whose names identify units, the calls of
the flow graph of a method are the resolved calls lowered with its body, in order, and each is
expanded iff the settings ask for it, its callee is in the project, and no chain of calls leads from
the callee back to the method.  So no method is expanded within itself, however indirectly. -/
theorem calls_expanded_iff {σ : Type} (context : Context) (hnamed : context.program.Named) :
    (∀ r m, context.program.method? r = some m → ∀ p : σ × Trail,
      (∀ e q, ((ofUnit context (.method r)).run p : Except Error Cfg × σ × Trail) = (.error e, q) →
        m.body.unknowns ≠ []) ∧
      ∀ c q, ((ofUnit context (.method r)).run p : Except Error Cfg × σ × Trail) = (.ok c, q) →
        List.Forall₂ (fun call mark => mark.element = .ofExpr call.1 ∧ mark.callee = call.2 ∧
            (mark.expanded = true ↔ Expandable context m call.2)) (m.body.loweredCalls context.program)
            c.callMarks) ∧
    ∀ r, ¬ Relation.TransGen (Expands context) r r := by
  constructor
  · intro r m hm p
    rw [ofUnit, hm]
    constructor
    · intro e q hrun
      obtain ⟨-, tag, htag, -⟩ := (ends_iff_of_error hrun).1 (ends_ofMethod context r m p)
      exact ne_nil_of_mem htag
    · intro c q hrun
      rw [(ends_iff_of_run hrun).1 (ends_ofMethod_callMarks hnamed hm p), forall₂_map_right_iff, forall₂_same]
      exact fun call _ => ⟨rfl, rfl, expands_iff hnamed⟩
  · intro r hcycle
    obtain ⟨b, hstep, hback⟩ := Relation.TransGen.head'_iff.1 hcycle
    obtain ⟨-, m, hm, -, -, hnone⟩ := hstep.spec hnamed
    have hname : context.program.methodName r = context.program.nameOfMethod m := by
      rw [Program.methodName, hm]
    exact hnone (hname ▸ leadsTo_of_expands hnamed hback)

theorem expandable_of_marks {call : Expr × MethodRef}
    (hcalls : m.body.loweredCalls context.program = [call]) (hcallee : call.2 = b) {marks : List CallMark}
    {expanded : Bool}
    (h : List.Forall₂ (fun call mark => mark.element = .ofExpr call.1 ∧ mark.callee = call.2 ∧
      (mark.expanded = true ↔ Expandable context m call.2)) (m.body.loweredCalls context.program) marks)
    (hmarks : marks.map (·.expanded) = [expanded]) : expanded = true ↔ Expandable context m b := by
  rw [hcalls] at h
  obtain ⟨mark, rest, ⟨-, -, hiff⟩, hrest, rfl⟩ := forall₂_cons_left_iff.1 h
  obtain rfl : mark.expanded = expanded := (List.cons.inj hmarks).1
  exact hcallee ▸ hiff

open SystemGraph in
/-- `launch` expands its call of `again`, which does not expand the call of itself. -/
theorem launching_calls_expanded : launching.Named ∧ Expandable { program := launching } launch ⟨0⟩ ∧
    ¬ Expandable { program := launching } again ⟨0⟩ ∧
    ¬ Relation.TransGen (Expands { program := launching }) ⟨1⟩ ⟨1⟩ := by
  have hnamed : launching.Named := named_of_nodup (by decide +kernel)
  have hlaunch : launching.method? ⟨1⟩ = some launch := rfl
  have hagain : launching.method? ⟨0⟩ = some again := rfl
  obtain ⟨hcalls, hcycle⟩ := calls_expanded_iff (σ := Unit) { program := launching } hnamed
  obtain ⟨c, q, hrun, hmarks⟩ := Ends.exists_run (by decide +kernel :
    Returns (ofUnit { program := launching } (.method ⟨1⟩)) ((), { next := 1 })
      fun c _ => c.callMarks.map (·.expanded) = [true])
  obtain ⟨c', q', hrun', hmarks'⟩ := Ends.exists_run (by decide +kernel :
    Returns (ofUnit { program := launching } (.method ⟨0⟩)) ((), { next := 1 })
      fun c _ => c.callMarks.map (·.expanded) = [false])
  have hexpanded := (hcalls ⟨1⟩ launch hlaunch _).2 c q hrun
  have hmerged := (hcalls ⟨0⟩ again hagain _).2 c' q' hrun'
  obtain ⟨call, hcall, hcallee⟩ :
      ∃ call, launch.body.loweredCalls launching = [call] ∧ call.2 = ⟨0⟩ := ⟨_, rfl, rfl⟩
  obtain ⟨call', hcall', hcallee'⟩ :
      ∃ call, again.body.loweredCalls launching = [call] ∧ call.2 = ⟨0⟩ := ⟨_, rfl, rfl⟩
  refine ⟨hnamed, (expandable_of_marks hcall hcallee hexpanded hmarks).1 rfl, fun h => ?_, hcycle ⟨1⟩⟩
  cases (expandable_of_marks hcall' hcallee' hmerged hmarks').2 h

end Cfg

end ProgramDependence
