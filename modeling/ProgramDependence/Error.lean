import ProgramDependence.Graph.Edge

/-!
# Errors

Every way in which an operation can fail, and the text that reports it.
-/

namespace ProgramDependence

inductive GraphKind where
  | plain
  | flow
  | dependence
  | classDependence
  | system
  | slice
  | closure
  deriving DecidableEq, Repr, Inhabited

def GraphKind.word : GraphKind → String
  | .plain => "Graph"
  | .flow => "CFG"
  | .dependence => "PDG"
  | .classDependence => "ClDG"
  | .system => "SDG"
  | .slice => "Slice"
  | .closure => "DDClosure"

/-- Why a flow graph cannot be built. -/
inductive FlowFault where
  | unknownStatement (tag : String)
  /-- A do loop whose body never got a first node. -/
  | openBody
  | exitUnreachable
  deriving DecidableEq, Repr, Inhabited

def FlowFault.message : FlowFault → String
  | .unknownStatement tag => "未知的语句类型: " ++ tag
  | .openBody => "do循环体入口未确定"
  | .exitUnreachable => "出口节点不可达"

inductive Error where
  | construction (unit : String) (fault : FlowFault)
  | frozen (kind : GraphKind)
  | danglingEdge (edge : Edge)
  | noCarrier (src dst : Id)
  | sharedByBlocks (node : Id)
  | reentrant (key : String)
  /-- A thread waits for a build that no thread will end. -/
  | blocked (key : String)
  | noNode (id : Id)
  | unmapped (id : Id)
  | noFlowKind (sort : DependenceSort)
  | unknownName (name : String)
  | settingsMissing
  | settingsMalformed
  /-- The name of an environment variable is not allowed. -/
  | illegalVariable
  | nullCharacter
  | buildFailed (reason : String)
  /-- The operation makes no sense for its operand. -/
  | undefined
  deriving DecidableEq, Repr, Inhabited

def Error.message : Error → String
  | .construction unit fault =>
    if unit = "" then fault.message else unit ++ ": " ++ fault.message
  | .frozen kind => kind.word ++ " 已冻结，不允许修改"
  | .danglingEdge e => "边 " ++ e.describe ++ " 的端点不在图中"
  | .noCarrier s d =>
    "循环携带依赖 " ++ Text.decimal s ++ " -> " ++ Text.decimal d ++ " 缺少循环节点"
  | .sharedByBlocks n => "节点 " ++ Text.decimal n ++ " 同时属于多个基本块"
  | .reentrant key => key ++ " 的PDG构建发生重入"
  | .noNode id => "Node with id " ++ Text.decimal id ++ " not found"
  | .unmapped id => Text.decimal id
  | .noFlowKind s => "DependenceSort." ++ s.constantName
  | .unknownName name => name
  | .settingsMissing => "配置文件不存在"
  | .settingsMalformed => "配置文件格式错误"
  | .illegalVariable => "illegal environment variable name"
  | .nullCharacter => "embedded null byte"
  | .buildFailed reason => reason
  | .blocked _ | .undefined => ""

end ProgramDependence
