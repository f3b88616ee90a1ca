import ProgramDependence.Proofs.CallChains
import ProgramDependence.Proofs.Visiting

/-!
# Calls and their expansion

Lowering a method makes a node for each resolved call it meets, in the order of
`Stmt.loweredCalls`.  Whether a call is expanded depends on its callee alone: the settings ask for
it, the callee is in the project, and no chain of calls leads from the callee back to the method
(`Scope.Expandable`).  The verdicts that lowering keeps by name do not change that, for names
identify methods.

`Scope.Enrolled` says that the calls of a graph are given calls of the source.  What lowering does
to its nodes, other than to make a call, leaves that as it is.
-/

namespace ProgramDependence

variable {P : Program} {b : MethodRef}

/-! ## Calls of a graph and of a source -/

/-- What a graph shows of a call. -/
structure CallMark where
  element : Element
  callee : MethodRef
  expanded : Bool

/-- The call that a node stands for. -/
def Node.callMark? (n : Node) : Option CallMark :=
  match n.payload with
  | .call callee _ _ expanded => some ⟨n.element, callee, expanded⟩
  | _ => none

def Graph.callMarks (g : Graph) : List CallMark :=
  g.nodes.filterMap Node.callMark?

/-- The method a call is bound to, provided that there is one. -/
def Program.callee? (P : Program) (e : Expr) : Option MethodRef :=
  e.binding?.filter fun b => (P.method? b).isSome

/-- A call, before the calls that are lowered with it.  A call that is not resolved hides them. -/
def Program.callThen (P : Program) (e : Expr) (inner : List (Expr × MethodRef)) : List (Expr × MethodRef) :=
  match P.callee? e with
  | some b => (e, b) :: inner
  | none => []

open Lowering (isIncrement)

mutual

/-- The resolved calls that are lowered with an expression, each with its callee.  What is both read
and written is lowered twice. -/
def Expr.loweredCalls (P : Program) : Expr → List (Expr × MethodRef)
  | .absent | .name _ _ _ | .self _ _ | .literal _ _ _ => []
  | .fieldAccess r _ _ _ => r.loweredCalls P
  | .assignment t v op _ =>
    t.loweredCalls P ++ ((if op ≠ "=" then t.loweredCalls P else []) ++ v.loweredCalls P)
  | .unary op x _ _ => x.loweredCalls P ++ (if isIncrement op then x.loweredCalls P else [])
  | .binary l _ r _ => l.loweredCalls P ++ r.loweredCalls P
  | .instanceOf x _ _ | .cast _ x _ => x.loweredCalls P
  | .conditional c p n _ => c.loweredCalls P ++ (p.loweredCalls P ++ n.loweredCalls P)
  | .arrayAccess a i _ => a.loweredCalls P ++ i.loweredCalls P
  | .arrayInitializer es _ => loweredCallsOf P es
  | .arrayCreation _ ds i _ => loweredCallsOf P ds ++ i.loweredCalls P
  | e@(.methodCall _ as r _ _ _) => P.callThen e (loweredCallsOf P as ++ r.loweredCalls P)
  | e@(.constructorCall as _ _ _) => P.callThen e (loweredCallsOf P as)
  | e@(.instanceCreation _ as _ o _) => P.callThen e (loweredCallsOf P as ++ o.loweredCalls P)
  | .other _ ps _ => loweredCallsOf P ps

def loweredCallsOf (P : Program) : List Expr → List (Expr × MethodRef)
  | [] => []
  | e :: es => e.loweredCalls P ++ loweredCallsOf P es

end

mutual

/-- The resolved calls that are lowered with a statement, in the order their nodes are made. -/
def Stmt.loweredCalls (P : Program) : Stmt → List (Expr × MethodRef)
  | .absent | .bare _ | .other _ _ | .typeDeclaration _ _ | .empty _
  | .breakJump _ _ | .continueJump _ _ => []
  | .block ss _ => allLoweredCalls P ss
  | .expression e _ | .returnJump e _ | .throwJump e _ => loweredCallsOf P [e]
  | .assertion e m _ => loweredCallsOf P [e, m]
  | .declaration fs _ => loweredCallsOf P (fs.map (·.initializer))
  | .ifElse c p n _ => loweredCallsOf P [c] ++ (p.loweredCalls P ++ n.loweredCalls P)
  | .whileLoop c b _ => loweredCallsOf P [c] ++ b.loweredCalls P
  | .doLoop b c _ => b.loweredCalls P ++ loweredCallsOf P [c]
  | .forLoop is c us b _ =>
    initializersLoweredCalls P is ++ (loweredCallsOf P [c] ++ (b.loweredCalls P ++ loweredCallsOf P us))
  | .eachLoop _ i b _ => loweredCallsOf P [i] ++ b.loweredCalls P
  | .switch e cs _ => loweredCallsOf P [e] ++ casesLoweredCalls P cs
  | .tryCatch b cs f _ => b.loweredCalls P ++ (catchesLoweredCalls P cs ++ f.loweredCalls P)
  | .synchronized e b _ => loweredCallsOf P [e] ++ b.loweredCalls P
  | .labeled _ b _ => b.loweredCalls P

def allLoweredCalls (P : Program) : List Stmt → List (Expr × MethodRef)
  | [] => []
  | s :: ss => s.loweredCalls P ++ allLoweredCalls P ss

def initializersLoweredCalls (P : Program) : List Stmt → List (Expr × MethodRef)
  | [] => []
  | .bare e :: ss => loweredCallsOf P [e] ++ initializersLoweredCalls P ss
  | s :: ss => s.loweredCalls P ++ initializersLoweredCalls P ss

def casesLoweredCalls (P : Program) : List SwitchCase → List (Expr × MethodRef)
  | [] => []
  | .mk g ss _ :: cs => loweredCallsOf P [g] ++ (allLoweredCalls P ss ++ casesLoweredCalls P cs)

def catchesLoweredCalls (P : Program) : List CatchClause → List (Expr × MethodRef)
  | [] => []
  | .mk _ b _ :: cs => b.loweredCalls P ++ catchesLoweredCalls P cs

end

theorem callThen_unresolved {e : Expr} (h : (e.binding?.bind fun b => (P.method? b).map (b, ·)) = none)
    (inner : List (Expr × MethodRef)) : P.callThen e inner = [] := by
  unfold Program.callThen Program.callee?
  cases hbinding : e.binding? with
  | none => rfl
  | some b =>
    rw [hbinding, Option.bind_some, Option.map_eq_none_iff] at h
    simp [Option.filter_some, h]

theorem callThen_resolved {e : Expr} {callee : Method}
    (h : (e.binding?.bind fun b => (P.method? b).map (b, ·)) = some (b, callee))
    (inner : List (Expr × MethodRef)) : P.callThen e inner = (e, b) :: inner := by
  obtain ⟨b', hbinding, hmethod⟩ := Option.bind_eq_some_iff.1 h
  obtain ⟨m, hm, heq⟩ := Option.map_eq_some_iff.1 hmethod
  cases heq
  simp [Program.callThen, Program.callee?, hbinding, Option.filter_some, hm]

theorem initializersLoweredCalls_cons {s : Stmt} (h : ∀ e, s ≠ .bare e) (ss : List Stmt) :
    initializersLoweredCalls P (s :: ss) = s.loweredCalls P ++ initializersLoweredCalls P ss := by
  cases s with
  | bare e => exact absurd rfl (h e)
  | _ => rw [initializersLoweredCalls]; exact nofun

theorem loweredCalls_of_isAbsent {s : Stmt} (h : s.isAbsent = true) : s.loweredCalls P = [] := by
  cases s with
  | absent | bare => rw [Stmt.loweredCalls]
  | _ => cases h

namespace Lowering

open Tracked

/-! ## Verdicts -/

/-- Whether calling a method can lead back to the unit that is lowered. -/
def Scope.returnsTo (scope : Scope) (b : MethodRef) : Bool :=
  match scope.method with
  | some m => scope.context.program.reachesName b (scope.context.program.nameOfMethod m)
  | none => false

def Scope.expands (scope : Scope) (b : MethodRef) : Bool :=
  scope.context.settings.createActualNodes.truthy &&
    scope.context.program.unitInProject (.method b) && !scope.returnsTo b

def Scope.markOf (scope : Scope) (call : Expr × MethodRef) : CallMark :=
  ⟨.ofExpr call.1, call.2, scope.expands call.2⟩

/-- The verdicts are right about every method of the name. -/
def Scope.Judged (scope : Scope) (verdicts : Table String Bool) : Prop :=
  ∀ b, scope.context.program.Has (.method b) → ∀ verdict,
    verdicts.find? (scope.context.program.methodName b) = some verdict → verdict = scope.returnsTo b

variable {scope : Scope}

/-- A verdict that is noted is the one a search gives. -/
theorem Scope.Judged.leadsBack (hnamed : scope.context.program.Named)
    (hb : scope.context.program.Has (.method b)) {n : Notes} (h : scope.Judged n.verdicts) :
    (n.leadsBack scope b).1 = scope.returnsTo b ∧ scope.Judged (n.leadsBack scope b).2.verdicts := by
  unfold Notes.leadsBack Scope.returnsTo
  cases hmethod : scope.method with
  | none => exact ⟨rfl, h⟩
  | some m =>
    dsimp only
    split
    · rename_i hown
      refine ⟨?_, h⟩
      rw [Program.reachesName, decide_eq_true hown, Bool.true_or]
    · split
      · rename_i verdict hverdict
        have hright := h b hb verdict hverdict
        rw [Scope.returnsTo, hmethod] at hright
        exact ⟨hright, h⟩
      · refine ⟨rfl, ?_⟩
        intro c hc verdict hverdict
        simp only [Table.find?_insert] at hverdict
        split at hverdict
        · rename_i hname
          have hsame := hnamed (.method c) (.method b) hc hb hname
          cases hsame
          rw [Scope.returnsTo, hmethod]
          exact (Option.some.inj hverdict).symm
        · exact h c hc verdict hverdict

theorem Scope.Judged.expands (hnamed : scope.context.program.Named) (b : MethodRef) {n : Notes}
    (h : scope.Judged n.verdicts) :
    (n.expands scope b).1 = scope.expands b ∧ scope.Judged (n.expands scope b).2.verdicts := by
  unfold Notes.expands Scope.expands
  split
  · rename_i hasked
    have hb := Program.has_of_inProject (Bool.and_eq_true_iff.1 hasked).2
    obtain ⟨hback, hjudged⟩ := h.leadsBack hnamed hb
    rw [hasked]
    exact ⟨congrArg not hback, hjudged⟩
  · rename_i hasked
    rw [Bool.eq_false_iff.2 hasked]
    exact ⟨rfl, h⟩

/-! ## Calls that are enrolled -/

/-- The calls among the nodes are the given ones, and the verdicts are right. -/
structure Scope.Enrolled (scope : Scope) (calls : List (Expr × MethodRef))
    (verdicts : Table String Bool) (ns : List Node) : Prop where
  judged : scope.Judged verdicts
  marks : ns.filterMap Node.callMark? = calls.map scope.markOf

namespace Scope.Enrolled

variable {calls : List (Expr × MethodRef)} {verdicts : Table String Bool} {ns : List Node}

variable (h : scope.Enrolled calls verdicts ns)
include h

theorem node {k : Node} (hk : k.callMark? = none) : scope.Enrolled calls verdicts (ns ++ [k]) := by
  refine ⟨h.judged, ?_⟩
  rw [List.filterMap_append, h.marks, List.filterMap_cons_none hk, List.filterMap_nil, List.append_nil]

theorem call {expanded : Bool}
    (hexpanded : expanded = scope.expands b) (id : Id) (sort : NodeSort) (e : Expr) :
    scope.Enrolled (calls ++ [(e, b)]) verdicts
      (ns ++ [{ id, sort, element := .ofExpr e, payload := .call b [] [] expanded }]) := by
  refine ⟨h.judged, ?_⟩
  rw [List.filterMap_append, h.marks, List.map_append, hexpanded]
  rfl

theorem changed {f : Node → Node} (hf : ∀ k, (f k).callMark? = k.callMark?) (i : Id) :
    scope.Enrolled calls verdicts (changed ns i f) := by
  refine ⟨h.judged, ?_⟩
  rw [← h.marks, ProgramDependence.changed, List.filterMap_map]
  refine List.filterMap_congr fun k _ => ?_
  simp only [Function.comp]
  split
  · exact hf k
  · rfl

end Scope.Enrolled

end Lowering

theorem Node.callMark?_of_not_isCall {k : Node} (h : k.payload.isCall = false) : k.callMark? = none := by
  unfold callMark?
  cases hpayload : k.payload with
  | call =>
    rw [hpayload] at h
    cases h
  | _ => rfl

theorem Node.Retouched.callMark? {ids : List Id} {k k' : Node} (h : k.Retouched ids k') :
    k'.callMark? = k.callMark? := by
  rcases h.payload with heq | ⟨hloose, hloose', -⟩
  · rw [Node.callMark?, Node.callMark?, heq, h.element]
  · rw [callMark?_of_not_isCall (Payload.isCall_of_isLoose hloose),
      callMark?_of_not_isCall (Payload.isCall_of_isLoose hloose')]

theorem ParameterSort.callMark?_enlist (s : ParameterSort) (a : Id) (k : Node) :
    (s.enlist a k).callMark? = k.callMark? := by
  cases hpayload : k.payload <;> cases s <;> simp [enlist, Node.callMark?, hpayload]

end ProgramDependence
