import ProgramDependence.Proofs.Charges

/-!
# Runs of source programs

What a method does when it runs, told from its source alone.  A run shows of each node its `Label`:
the kind of the node and the piece of source it stands for.

Expressions show through the calls in them.  `tally` walks an expression on behalf of a host node
and lists the bills of its calls, arguments and results in the order they are executed: the label of
each, and what is charged to it.  It also lists what is charged to the host and what is not
resolved, and keeps count of the made-up variables and of the callees judged so far.  So a variable
made up for a result is the same on the bill of the node that defines it and among the charges of
the node that uses it.

`controlOf` gives a statement its structured control, whose runs are the runs of the statement.
-/

namespace ProgramDependence

open Lowering

/-- What a run shows of a node. -/
structure Label where
  sort : NodeSort
  element : Element

def Node.label (n : Node) : Label :=
  ⟨n.sort, n.element⟩

/-! ## Expressions -/

/-- What is remembered from one expression to the next: the number of made-up variables, and whether
the callees met so far lead back to the unit. -/
structure Notes where
  specials : Nat := 0
  verdicts : Table String Bool := {}

namespace Notes

def special (n : Notes) : Notes :=
  { n with specials := n.specials + 1 }

/-- Whether calling a method can lead back to the method that runs, by the verdict on its name. -/
def leadsBack (scope : Scope) (callee : MethodRef) (n : Notes) : Bool × Notes :=
  match scope.method with
  | none => (false, n)
  | some m =>
    let own := scope.context.program.nameOfMethod m
    let name := scope.context.program.methodName callee
    if name = own then (true, n)
    else match n.verdicts.find? name with
      | some verdict => (verdict, n)
      | none =>
        let verdict := scope.context.program.reachesName callee own
        (verdict, { n with verdicts := n.verdicts.insert name verdict })

/-- Whether a call shows its arguments and its result. -/
def expands (scope : Scope) (callee : MethodRef) (n : Notes) : Bool × Notes :=
  if scope.context.settings.createActualNodes.truthy &&
      scope.context.program.unitInProject (.method callee) then
    (!(n.leadsBack scope callee).1, (n.leadsBack scope callee).2)
  else (false, n)

end Notes

/-- The made-up variable of a number. -/
def madeUp (scope : Scope) (number : Nat) (suffix type : String) : Variable :=
  { name := "$" ++ Nat.repr number ++ suffix, type, owner := scope.name, kind := .special }

/-- A node that is executed on behalf of an expression, and what is charged to it. -/
structure Bill where
  label : Label
  charges : List Charge

namespace Bill

/-- The variables that the node uses if it pays its charges. -/
def uses (b : Bill) : List Variable :=
  (b.charges.filterMap Charge.used?).foldl Variable.adjoin []

def defs (b : Bill) : List Variable :=
  (b.charges.filterMap Charge.defined?).foldl Variable.adjoin []

end Bill

/-- The state of a walk through an expression: the bills of the nodes executed so far, the charges
to the host, and the parts that are not resolved. -/
structure Tally where
  bills : List Bill := []
  charges : List Charge := []
  lost : List Expr := []
  notes : Notes

namespace Tally

def labels (t : Tally) : List Label :=
  t.bills.map (·.label)

def emit (label : Label) (charges : List Charge) (t : Tally) : Tally :=
  { t with bills := t.bills ++ [⟨label, charges⟩] }

def charge (c : Charge) (t : Tally) : Tally :=
  { t with charges := t.charges ++ [c] }

def lose (e : Expr) (t : Tally) : Tally :=
  { t with lost := t.lost ++ [e] }

/-- Charge the variable of an expression to the host; one that is not resolved is lost. -/
def chargeResolved (defining : Bool) (e : Expr) (v : Option Variable) (t : Tally) : Tally :=
  match v with
  | some v => t.charge (.of defining v)
  | none => t.lose e

/-- Begin the walk through an argument, on behalf of a node of its own that defines a made-up
variable. -/
def openArgument (scope : Scope) (callee : Method) (position : Nat) (t : Tally) : Tally :=
  { t with
    charges := [.define (madeUp scope (t.notes.specials + 1) "" (parameterType callee position))]
    notes := t.notes.special }

/-- An argument that is exactly one object is handed back: the object is defined by what the
argument defined. -/
def handBack (t : Tally) (argument : Bill) : Tally :=
  match argument.uses, argument.defs with
  | [u], d :: _ =>
    if u.isPrimitive then t else t.emit ⟨.parameter .actualOut, argument.label.element⟩ [.define u, .use d]
  | _, _ => t

/-- Show the result of a call, which the host uses. -/
def result (scope : Scope) (e : Expr) (callee : Method) (t : Tally) : Tally :=
  if callee.isVoid then t
  else
    let defined := madeUp scope (t.notes.specials + 1) "" callee.returnType
    let used := madeUp scope (t.notes.specials + 1 + 1) ("!" ++ e.callName) callee.returnType
    let t := t.emit ⟨.parameter .actualOut, .ofExpr e⟩ [.define defined, .use used]
    { t with notes := t.notes.special.special }.charge (.use defined)

/-- Execute a call after its arguments were evaluated. -/
def closeExpanded (scope : Scope) (sort : StatementSort) (e : Expr) (callee : Method)
    (host : List Charge) (done : Tally × List Bill) : Tally :=
  (done.2.foldl handBack ({ done.1 with charges := host }.emit ⟨.statement sort, .ofExpr e⟩ [])).result
    scope e callee

/-- Execute a call that evaluated its arguments itself: it defines its result, which the host uses. -/
def closeMerged (scope : Scope) (sort : StatementSort) (e : Expr) (callee : Method)
    (host : List Charge) (done : Tally) : Tally :=
  let returned := madeUp scope (done.notes.specials + 1) ("!" ++ e.callName) callee.returnType
  let t := done.emit ⟨.statement sort, .ofExpr e⟩ (done.charges ++ [.define returned])
  { t with charges := host, notes := t.notes.special }.charge (.use returned)

/-- Evaluate the arguments of a call and execute it; `actuals` and `merged` walk through the
arguments, on behalf of nodes of their own or of the call. -/
def call (scope : Scope) (sort : StatementSort) (e : Expr) (b : MethodRef) (callee : Method)
    (actuals : Tally → List Bill → Tally × List Bill) (merged : Tally → Tally) (t : Tally) : Tally :=
  let expanded := (t.notes.expands scope b).1
  let t := { t with notes := (t.notes.expands scope b).2 }
  if expanded then closeExpanded scope sort e callee t.charges (actuals t [])
  else closeMerged scope sort e callee t.charges (merged { t with charges := [] })

end Tally

/-- The method a call is bound to, if it is known. -/
def calleeOf (scope : Scope) (e : Expr) : Option (MethodRef × Method) :=
  e.binding?.bind fun b => (scope.context.program.method? b).map (b, ·)

mutual

/-- Walk through an expression on behalf of a host. -/
def tally (scope : Scope) (defining : Bool) : Expr → Tally → Tally
  | .absent, t => t
  | e@(.name v _ _), t => t.chargeResolved defining e v
  | e@(.fieldAccess r v _ _), t => (tally scope false r t).chargeResolved defining e v
  | .self c _, t => t.charge (.of defining (thisVariable c))
  | .literal _ _ _, t => t
  | .assignment target value op _, t =>
    let t := tally scope true target t
    let t := if op ≠ "=" then tally scope false target t else t
    tally scope false value t
  | .unary op x _ _, t =>
    let t := tally scope false x t
    if isIncrement op then tally scope true x t else t
  | .binary l _ r _, t => tally scope false r (tally scope false l t)
  | .instanceOf x _ _, t => tally scope false x t
  | .conditional c p n _, t => tally scope false n (tally scope false p (tally scope false c t))
  | .cast _ x _, t => tally scope false x t
  | .arrayAccess a i _, t => tally scope false i (tally scope defining a t)
  | .arrayInitializer es _, t => tallyAll scope es t
  | .arrayCreation _ ds i _, t => tally scope false i (tallyAll scope ds t)
  | e@(.methodCall _ as r _ _ _), t =>
    match calleeOf scope e with
    | none => t.lose e
    | some (b, callee) => tally scope false r
        (t.call scope .methodCall e b callee (tallyActuals scope callee as) (tallyAll scope as))
  | e@(.constructorCall as _ _ _), t =>
    match calleeOf scope e with
    | none => t.lose e
    | some (b, callee) =>
      t.call scope .constructorCall e b callee (tallyActuals scope callee as) (tallyAll scope as)
  | e@(.instanceCreation _ as _ o _), t =>
    match calleeOf scope e with
    | none => t.lose e
    | some (b, callee) => tally scope false o
        (t.call scope .instanceCreation e b callee (tallyActuals scope callee as) (tallyAll scope as))
  | .other _ ps _, t => tallyAll scope ps t

def tallyAll (scope : Scope) : List Expr → Tally → Tally
  | [], t => t
  | e :: es, t => tallyAll scope es (tally scope false e t)

/-- Walk through the arguments of an expanded call, each on behalf of a node of its own; `done` are
the bills of the arguments before. -/
def tallyActuals (scope : Scope) (callee : Method) : List Expr → Tally → List Bill → Tally × List Bill
  | [], t, done => (t, done)
  | e :: es, t, done =>
    let inner := tally scope false e (t.openArgument scope callee done.length)
    let bill : Bill := ⟨⟨.parameter .actualIn, .ofExpr e⟩, inner.charges⟩
    tallyActuals scope callee es (inner.emit bill.label bill.charges) (done ++ [bill])

end

/-! ## Statements -/

/-- The line of a statement node that evaluates expressions. -/
def lineOf (scope : Scope) (label : Label) (es : List Expr) (n : Notes) : Line Label × Notes :=
  let t := tallyAll scope es { notes := n }
  (⟨t.labels, label⟩, t.notes)

def Stmt.label (sort : StatementSort) (s : Stmt) : Label :=
  ⟨.statement sort, .ofStmt s⟩

/-- The label of the place where the branches of a statement meet. -/
def Stmt.joinLabel (s : Stmt) : Label :=
  ⟨.merge, .ofStmt s⟩

def SwitchCase.label (sort : StatementSort) (c : SwitchCase) : Label :=
  ⟨.statement sort, .tree (.switchCase c)⟩

/-- The label of a catch clause or of the exception it receives. -/
def CatchClause.label (sort : NodeSort) (c : CatchClause) : Label :=
  ⟨sort, .tree (.catchClause c)⟩

/-- The element of a declared name: a single one stands for its declaration. -/
def Fragment.elementIn (whole : Option Stmt) (f : Fragment) : Element :=
  match whole with
  | some s => .ofStmt s
  | none => .tree (.fragment f)

variable {α : Type}

def Control.series : List α → Control α
  | [] => .skip
  | x :: xs => .seq (.line (.single x)) (Control.series xs)

def Control.lines : List (Line α) → Control α
  | [] => .skip
  | l :: ls => .seq (.line l) (Control.lines ls)

def updatersOf (scope : Scope) : List Expr → Notes → List (Line Label) × Notes
  | [], n => ([], n)
  | e :: es, n =>
    let (l, n) := lineOf scope ⟨.statement .assignment, .ofExpr e⟩ [e] n
    let (ls, n) := updatersOf scope es n
    (l :: ls, n)

/-- The names a declaration declares. -/
def fragmentsOf (scope : Scope) (whole : Option Stmt) : List Fragment → Notes → List (Line Label) × Notes
  | [], n => ([], n)
  | f :: fs, n =>
    let (l, n) := lineOf scope ⟨.statement .localDeclaration, f.elementIn whole⟩ [f.initializer] n
    let (ls, n) := fragmentsOf scope whole fs n
    (l :: ls, n)

/-- A declaration, a line for each name. -/
def declarationOf (scope : Scope) (s : Stmt) (fs : List Fragment) (n : Notes) : Control Label × Notes :=
  let (ls, n) := fragmentsOf scope (if fs.length = 1 then some s else none) fs n
  (.lines ls, n)

mutual

/-- The structured control of a statement; `own` is the label of a loop that carries one. -/
def controlOf (scope : Scope) (own : Option String) : Stmt → Notes → Control Label × Notes
  | .absent, n | .bare _, n | .other _ _, n | .typeDeclaration _ _, n => (.skip, n)
  | .block ss _, n => controlOfAll scope ss n
  | s@(.empty _), n =>
    let (l, n) := lineOf scope (s.label .empty) [] n
    (.line l, n)
  | s@(.expression e _), n =>
    let (l, n) := lineOf scope (s.label .assignment) [e] n
    (.line l, n)
  | s@(.assertion e m _), n =>
    let (l, n) := lineOf scope (s.label .assertion) [e, m] n
    (.line l, n)
  | s@(.declaration fs _), n => declarationOf scope s fs n
  | s@(.ifElse c p q _), n =>
    let (t, n) := lineOf scope (s.label .ifElse) [c] n
    let (a, n) := controlOf scope none p n
    let (b, n) := controlOf scope none q n
    (.seq (.branch t a b) (.line (.single s.joinLabel)), n)
  | s@(.whileLoop c b _), n =>
    let (t, n) := lineOf scope (s.label .whileLoop) [c] n
    let (k, n) := controlOf scope none b n
    (.loop own t k [], n)
  | s@(.doLoop b c _), n =>
    let (k, n) := controlOf scope none b n
    let (t, n) := lineOf scope (s.label .doLoop) [c] n
    (.doLoop own k t, n)
  | s@(.forLoop is c us b _), n =>
    let (i, n) := initializersOf scope is n
    let (t, n) := lineOf scope (s.label .forLoop) [c] n
    let (k, n) := controlOf scope none b n
    let (u, n) := updatersOf scope us n
    (.seq i (.loop own t k u), n)
  | s@(.eachLoop _ i b _), n =>
    -- The calls of the iterable are made once, the loop node is executed in every round.
    let (t, n) := lineOf scope (s.label .forLoop) [i] n
    let (k, n) := controlOf scope none b n
    (.seq (.series t.before) (.loop own (.single t.node) k []), n)
  | s@(.switch e cs _), n =>
    let (t, n) := lineOf scope (s.label .switch) [e] n
    let (arms, n) := armsOf scope cs n
    (.seq (.switch t arms) (.line (.single s.joinLabel)), n)
  | s@(.breakJump l _), n => (.jump (.single (s.label .breakJump)) (.breakTo l), n)
  | s@(.continueJump l _), n => (.jump (.single (s.label .continueJump)) (.continueTo l), n)
  | s@(.returnJump e _), n =>
    let (l, n) := lineOf scope (s.label .returnJump) [e] n
    (.jump l .returning, n)
  | s@(.throwJump e _), n =>
    let (l, n) := lineOf scope (s.label .throwJump) [e] n
    (.jump l .throwing, n)
  | s@(.synchronized e b _), n =>
    let (l, n) := lineOf scope (s.label .synchronized) [e] n
    let (k, n) := controlOf scope none b n
    (.seq (.line l) k, n)
  | s@(.tryCatch b cs f _), n =>
    let (k, n) := controlOf scope none b n
    let (handlers, n) := handlersOf scope cs n
    let parts := Control.branch (.single (s.label .tryCatch)) k handlers
    if f.isAbsent then (.seq parts (.line (.single s.joinLabel)), n)
    else
      let (finish, n) := controlOf scope none f n
      (.seq parts
        (.seq (.seq (.line (.single (f.label .finallyPart))) finish) (.line (.single s.joinLabel))), n)
  | s@(.labeled l b _), n =>
    let head := Control.line (.single (s.label .label))
    if b.isLoop then
      let (k, n) := controlOf scope (some l) b n
      (.seq head k, n)
    else
      let (k, n) := controlOf scope none b n
      (.seq head (.labeled l k), n)

def controlOfAll (scope : Scope) : List Stmt → Notes → Control Label × Notes
  | [], n => (.skip, n)
  | s :: ss, n =>
    let (a, n) := controlOf scope none s n
    let (b, n) := controlOfAll scope ss n
    (.seq a b, n)

/-- The initializers of a for loop: expressions, or statements. -/
def initializersOf (scope : Scope) : List Stmt → Notes → Control Label × Notes
  | [], n => (.skip, n)
  | .bare e :: ss, n =>
    let (l, n) := lineOf scope ⟨.statement .assignment, .ofExpr e⟩ [e] n
    let (b, n) := initializersOf scope ss n
    (.seq (.line l) b, n)
  | s :: ss, n =>
    let (a, n) := controlOf scope none s n
    let (b, n) := initializersOf scope ss n
    (.seq a b, n)

def armsOf (scope : Scope) : List SwitchCase → Notes → Arms Label × Notes
  | [], n => (.nil, n)
  | c@(.mk g ss _) :: cs, n =>
    if g.isAbsent then
      let (k, n) := controlOfAll scope ss n
      let (rest, n) := armsOf scope cs n
      (.default (c.label .switchDefault) k rest, n)
    else
      let (t, n) := lineOf scope (c.label .switchCase) [g] n
      let (k, n) := controlOfAll scope ss n
      let (rest, n) := armsOf scope cs n
      (.guard t k rest, n)

/-- The catch clauses of a try statement: one after the other is tried, and the exception goes to
the first that takes it. -/
def handlersOf (scope : Scope) : List CatchClause → Notes → Control Label × Notes
  | [], n => (.skip, n)
  | c@(.mk _ b _) :: cs, n =>
    let (k, n) := controlOf scope none b n.special
    let (rest, n) := handlersOf scope cs n
    (.branch (.single (c.label (.statement .catchClause)))
      (.seq (.line (.single (c.label (.parameter .formalIn)))) k) rest, n)

end

/-! ## Methods -/

abbrev Cfg.scopeOf (context : Context) (m : Method) : Scope :=
  ⟨context, context.program.nameOfMethod m, some m⟩

/-- What comes after the body of a method: the returned value, unless the method is void or fails. -/
def Method.returned (r : MethodRef) (m : Method) : List Label :=
  if m.isVoid then [] else [⟨.parameter .formalOut, .method r⟩]

/-- A complete run of a method: the entry, the parameters in order, a run of the body that ends
normally or by returning or throwing, the returned value, and the exit. -/
def Method.Runs (context : Context) (r : MethodRef) (m : Method) (labels : List Label) : Prop :=
  let scope : Scope := ⟨context, context.program.nameOfMethod m, some m⟩
  let body := (controlOf scope none m.body { specials := m.parameters.length }).1
  ∃ xs o, body.runs xs o ∧
    labels = ⟨.entry (Cfg.methodScope m.kind), .method r⟩ ::
      (m.parameters.map (fun v => ⟨.parameter .formalIn, .var v⟩) ++ xs ++
        (if o = .jumped .throwing then [] else m.returned r) ++
        [⟨.exit (Cfg.methodScope m.kind), .method r⟩]) ∧
    (o = .normal ∨ o = .jumped .returning ∨ o = .jumped .throwing)

end ProgramDependence
