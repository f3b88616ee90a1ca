import ProgramDependence.Flow.Cfg

/-!
# Basic blocks

A leader is the node after the entry, a node where edges meet, a node that only fall-through edges
enter, or a node after a branch.  A block runs from its leader straight on to the next leader or the
exit.
-/

namespace ProgramDependence

namespace Cfg

/-- Whether a node starts a basic block, where `first` is the node after the entry.  The edge into a
node where none meet has to be a control-flow edge. -/
def isLeader (c : Cfg) (first : Option Id) (node : Id) : Except Error Bool :=
  if first = some node || c.isJoin node then .ok true
  else if !(c.edgesInto node).all (·.isFlow) then .error .undefined
  else .ok <|
    (c.edgesInto node).all (·.isFallThrough) ||
      ((c.predecessors node).filter (· ≠ c.entry.id)).any c.isBranch

def leadersAmong (c : Cfg) (first : Option Id) : List Id → Except Error (List Id)
  | [] => .ok []
  | n :: ns => do
    let leads ← c.isLeader first n
    let rest ← c.leadersAmong first ns
    return if leads then n :: rest else rest

/-- The leaders, by increasing id; entry and exit are in no block. -/
def leaders (c : Cfg) : Except Error (List Id) := do
  let first ← c.straightSuccessor c.entry.id
  c.leadersAmong first <|
    (sortBy id c.nodeIds).filter fun n => n ≠ c.entry.id && n ≠ c.exit.id

/-- The nodes straight on from a node, up to the next leader or the exit.  `taken` are the nodes
that have a block already. -/
def straightRun (c : Cfg) (leaders : List Id) : Nat → List Id → Option Id → Except Error (List Id)
  | 0, _, _ => .ok []
  | _ + 1, _, none => .ok []
  | fuel + 1, taken, some n =>
    if n ∈ leaders || n = c.exit.id then .ok []
    else if n ∈ taken then .error (.sharedByBlocks n)
    else do
      let next ← c.straightSuccessor n
      return n :: (← c.straightRun leaders fuel (n :: taken) next)

/-- One block per leader, numbered from `number` on. -/
def blocksFrom (c : Cfg) (leaders : List Id) : Nat → List Id → List Id → Except Error (List Block)
  | _, _, [] => .ok []
  | number, taken, l :: ls =>
    if l ∈ taken then .error (.sharedByBlocks l)
    else do
      let next ← c.straightSuccessor l
      let rest ← c.straightRun leaders (c.nodes.length + 1) (l :: taken) next
      let others ← c.blocksFrom leaders (number + 1) (rest.reverse ++ l :: taken) ls
      return ⟨number, l, l :: rest⟩ :: others

def partition (c : Cfg) : Except Error (List Block) := do
  let leaders ← c.leaders
  c.blocksFrom leaders 1 [] leaders

/-- The basic blocks, computed on first request and kept until a control-flow edge is added. -/
def getBlocks (c : Cfg) : Except Error (Cfg × List Block) :=
  match c.blocks with
  | some bs => .ok (c, bs)
  | none => do
    let bs ← c.partition
    return ({ c with blocks := some bs }, bs)

end Cfg

end ProgramDependence
