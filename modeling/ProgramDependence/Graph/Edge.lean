import ProgramDependence.Graph.Node

/-!
# Edges

An edge joins two nodes by id.  It is a control-flow edge, a dependence edge, or a plain edge
without further meaning.  A control-flow edge that closes a loop names the loop; a loop-carried
dependence names the loop that carries it.
-/

namespace ProgramDependence

inductive FlowSort where
  | true
  | false
  | fallThrough
  | parameter
  deriving DecidableEq, Repr, Inhabited

inductive DependenceSort where
  | controlTrue
  | controlFalse
  | controlFall
  | loopIndependent
  | loopCarried
  | defOrder
  | output
  | anti
  | parameterIn
  | parameterOut
  | summary
  | classMember
  deriving DecidableEq, Repr, Inhabited

def FlowSort.word : FlowSort → String
  | .true => "true"
  | .false => "false"
  | .fallThrough => "fall"
  | .parameter => "param"

def FlowSort.ofWord? : String → Option FlowSort
  | "true" => some .true
  | "false" => some .false
  | "fall" => some .fallThrough
  | "param" => some .parameter
  | _ => none

namespace DependenceSort

def word : DependenceSort → String
  | controlTrue => "T"
  | controlFalse => "F"
  | controlFall => "Fall"
  | loopIndependent => "LIDD"
  | loopCarried => "LCDD"
  | defOrder => "DefOrder"
  | output => "Output"
  | anti => "Anti"
  | parameterIn => "ParamIn"
  | parameterOut => "ParamOut"
  | summary => "Summary"
  | classMember => "ClassMember"

/-- The name of a kind of dependence in messages. -/
def constantName : DependenceSort → String
  | controlTrue => "CD_TRUE"
  | controlFalse => "CD_FALSE"
  | controlFall => "CD_FALL"
  | loopIndependent => "LIDD"
  | loopCarried => "LCDD"
  | defOrder => "DEF_ORDER"
  | output => "OUTPUT"
  | anti => "ANTI"
  | parameterIn => "PARAMETER_IN"
  | parameterOut => "PARAMETER_OUT"
  | summary => "SUMMARY"
  | classMember => "CLASS_MEMBER"

def ofWord? : String → Option DependenceSort
  | "T" => some controlTrue
  | "F" => some controlFalse
  | "Fall" => some controlFall
  | "LIDD" => some loopIndependent
  | "LCDD" => some loopCarried
  | "DefOrder" => some defOrder
  | "Output" => some output
  | "Anti" => some anti
  | "ParamIn" => some parameterIn
  | "ParamOut" => some parameterOut
  | "Summary" => some summary
  | "ClassMember" => some classMember
  | _ => none

def isControl : DependenceSort → Bool
  | controlTrue | controlFalse | controlFall => true
  | _ => false

/-- From a definition to a use. -/
def isDefUse : DependenceSort → Bool
  | loopIndependent | loopCarried => true
  | _ => false

def isParameter : DependenceSort → Bool
  | parameterIn | parameterOut => true
  | _ => false

def isData : DependenceSort → Bool
  | loopIndependent | loopCarried | defOrder | output | anti | parameterIn | parameterOut
  | summary => true
  | _ => false

end DependenceSort

inductive EdgeLabel where
  | plain (sort : FlowSort)
  | flow (sort : FlowSort) (loopBack : Option Id)
  | dependence (sort : DependenceSort) (var : Option Variable) (carrier : Option Id)
  deriving DecidableEq, Repr, Inhabited

structure Edge where
  id : Id
  src : Id
  dst : Id
  label : EdgeLabel
  deriving DecidableEq, Repr, Inhabited

namespace Edge

def word (e : Edge) : String :=
  match e.label with
  | .plain s | .flow s _ => s.word
  | .dependence s _ _ => s.word

/-- The kind of control flow; dependence edges have none. -/
def flowSort? (e : Edge) : Option FlowSort :=
  match e.label with
  | .plain s | .flow s _ => some s
  | .dependence .. => none

/-- The kind of dependence; other edges have none. -/
def dependenceSort? (e : Edge) : Option DependenceSort :=
  match e.label with
  | .dependence s _ _ => some s
  | _ => none

def var? (e : Edge) : Option Variable :=
  match e.label with
  | .dependence _ v _ => v
  | _ => none

def loopBack? (e : Edge) : Option Id :=
  match e.label with
  | .flow _ l => l
  | _ => none

def carrier? (e : Edge) : Option Id :=
  match e.label with
  | .dependence _ _ c => c
  | _ => none

def isFlow (e : Edge) : Bool :=
  match e.label with
  | .flow .. => true
  | _ => false

def isDependence (e : Edge) : Bool :=
  match e.label with
  | .dependence .. => true
  | _ => false

def isLoopBack (e : Edge) : Bool :=
  e.loopBack?.isSome

/-- The edge leads to the statement that follows a jump in the text only. -/
def isFallThrough (e : Edge) : Bool :=
  e.flowSort? = some .fallThrough

/-- The edge leads straight on: the true branch, or the flow between parameters. -/
def isStraight (e : Edge) : Bool :=
  e.flowSort? = some .true || e.flowSort? = some .parameter

def isSort (e : Edge) (s : DependenceSort) : Bool :=
  e.dependenceSort? = some s

def reverse (e : Edge) : Edge :=
  { e with src := e.dst, dst := e.src }

/-- The edge under another id and between other ends; a given loop replaces the one it names. -/
def relabel (e : Edge) (id src dst : Id) (loop : Option Id) : Edge :=
  { id, src, dst,
    label := match e.label with
      | .plain s => .plain s
      | .flow s l => .flow s (loop.orElse fun _ => l)
      | .dependence s v c => .dependence s v (loop.orElse fun _ => c) }

def describe (e : Edge) : String :=
  let ends := "(" ++ Text.decimal e.id ++ ": " ++ Text.decimal e.src ++ " -> " ++
    Text.decimal e.dst ++ ", " ++ e.word
  let loop (l : Option Id) : String :=
    match l with
    | some l => ", loop=" ++ Text.decimal l
    | none => ""
  match e.label with
  | .plain _ => "Edge" ++ ends ++ ")"
  | .flow _ l => "ControlFlow" ++ ends ++ loop l ++ ")"
  | .dependence _ v c =>
    let var := match v with
      | some v => ", " ++ v.name
      | none => ""
    "Dependence" ++ ends ++ var ++ loop c ++ ")"

def properties (e : Edge) : List String :=
  let all : List (String × Bool) := match e.label with
    | .plain _ => []
    | .flow s _ =>
      [("true", s == .true), ("false", s == .false),
        ("fall_through", s == .fallThrough), ("parameter", s == .parameter),
        ("loop_back", e.isLoopBack)]
    | .dependence s _ _ =>
      [("parameter", s.isParameter), ("cd", s.isControl), ("dd", s.isData),
        ("def_use", s.isDefUse), ("loop_carried", s == .loopCarried),
        ("summary", s == .summary)]
  (all.filter (·.2)).map (·.1)

end Edge

end ProgramDependence
