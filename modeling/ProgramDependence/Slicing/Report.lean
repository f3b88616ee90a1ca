import ProgramDependence.Slicing.Slice
import ProgramDependence.Sorted

/-!
# Reports on slices

The nodes and source lines of a slice in the order of the source, and the texts that show them.
-/

namespace ProgramDependence

namespace Slice

/-- The nodes by source line and id. -/
def nodesByLine (p : Program) (s : Slice) : List Node :=
  sortByTwo (Node.line p) (·.id) s.nodes

/-- The source lines of the nodes, increasing and each once. -/
def lines (p : Program) (s : Slice) : List Int :=
  sortBy id (Search.fresh [] ((s.nodes.map (Node.line p)).filter (0 < ·)))

def dump (p : Program) (s : Slice) : String :=
  Text.join "\n" <|
    ["----- Slice (" ++ Text.decimal s.criterion.node.id ++ ", " ++ s.criterion.subject.name ++
      ") -----"] ++
    (sortBy (·.id) s.nodes).map (Node.dump p) ++ [Text.rule 30]

def splitLines (text : String) : List String :=
  text.splitOn "\n"

def lineAt? (source : List String) (number : Int) : Option String :=
  if number < 1 then none else source[number.toNat - 1]?

/-- The report on a slice: the source lines it holds if the text is given, and its nodes otherwise. -/
def format (p : Program) (s : Slice) (code : Option String) : String :=
  let head := "切片准则: 节点 " ++ Text.decimal s.criterion.node.id ++ " (" ++
    s.criterion.node.text p ++ "), 变量 " ++ s.criterion.subject.name
  let body := match s.nodes, code with
    | [], _ => ["切片为空"]
    | _, some code =>
      let source := splitLines code
      let numbers := s.lines p
      ["切片包含 " ++ Nat.repr numbers.length ++ " 行代码:", Text.rule 40] ++
        numbers.filterMap fun n =>
          (lineAt? source n).map fun l => "行" ++ Text.column 3 n ++ ": " ++ l
    | ns, none =>
      ["切片包含 " ++ Nat.repr ns.length ++ " 个节点:", Text.rule 40] ++
        (s.nodesByLine p).map fun n =>
          "行" ++ Text.column 3 (n.line p) ++ ": [" ++ n.sort.word ++ "] " ++ n.text p
  Text.join "\n" (head :: body)

end Slice

end ProgramDependence
