import Mathlib.Data.List.Perm.Subperm
import ProgramDependence.Proofs.Semantics

/-!
# The wires of structured control

Structured control over tokens, nodes with their labels, says which edges a flow graph has.  A
`Wire` is an edge without its id.  Where a part of the control leads is given from outside: `next`
is where it goes on, and `Exits` are the targets of its jumps.  A target may close a loop, and every
wire to it is tagged with that loop.
-/

namespace ProgramDependence

open Control

open Lowering

variable {α : Type}

/-- A node as a flow graph has it. -/
structure Token where
  id : Id
  label : Label

def Node.token (n : Node) : Token :=
  ⟨n.id, n.label⟩

/-- An edge of control flow apart from its id. -/
structure Wire where
  src : Id
  dst : Id
  sort : FlowSort
  loop : Option Id := none
  deriving DecidableEq, Repr

def Edge.wire (e : Edge) : Wire :=
  ⟨e.src, e.dst, e.flowSort?.getD .true, e.loopBack?⟩

/-- Where control goes on, and the loop it closes by going there. -/
structure Target where
  node : Id
  loop : Option Id := none

def Target.wire (t : Target) (src : Id) (sort : FlowSort) : Wire :=
  ⟨src, t.node, sort, t.loop⟩

/-- An enclosing loop, switch or labelled statement, with the targets of the jumps that lead to it. -/
structure Frame where
  kind : JumpKind
  label : Option String
  breaks : Target
  continues : Target

def Frame.shape (f : Frame) : JumpTarget :=
  { kind := f.kind, label := f.label }

/-- Where a part of a unit can be left to by jumps. -/
structure Exits where
  frames : List Frame
  returns : Target
  throws : Target

namespace Exits

/-- Where a jump leads; it may lead nowhere. -/
def resolve (x : Exits) : Jump → Option Target
  | .breakTo l => (x.frames.find? fun f => takesBreak l f.shape).map (·.breaks)
  | .continueTo l =>
    (x.frames.find? fun f => takesContinue l f.shape).bind fun f =>
      if f.kind = .loop then some f.continues else none
  | .returning => some x.returns
  | .throwing => some x.throws

def push (f : Frame) (x : Exits) : Exits :=
  { x with frames := f :: x.frames }

/-- After statements of some labels: these are no longer known. -/
def forget (labels : List String) (x : Exits) : Exits :=
  { x with frames := x.frames.map fun f =>
      if f.label.any labels.contains then { f with label := none } else f }

end Exits

/-! ## Parts of structured control -/

/-- The node where control is entered, if it has any node. -/
def Control.first? : Control α → Option α
  | .skip => none
  | .seq a b => a.first?.or b.first?
  | .line l | .jump l _ | .branch l _ _ | .loop _ l _ _ | .switch l _ => some l.first
  | .doLoop _ body t => some (body.first?.getD t.first)
  | .labeled _ body => body.first?

mutual

def Control.labels : Control α → List String
  | .skip | .line _ | .jump _ _ => []
  | .seq a b | .branch _ a b => a.labels ++ b.labels
  | .loop label _ body _ | .doLoop label body _ => body.labels ++ label.toList
  | .switch _ arms => arms.labels
  | .labeled l body => body.labels ++ [l]

def Arms.labels : Arms α → List String
  | .nil => []
  | .guard _ body rest | .default _ body rest => body.labels ++ rest.labels

end

mutual

theorem Control.labels_map {β : Type} (f : α → β) : ∀ k : Control α, (k.map f).labels = k.labels
  | .skip | .line _ | .jump _ _ => rfl
  | .seq a b | .branch _ a b => by
    simp only [map, labels, a.labels_map f, b.labels_map f]
  | .loop _ _ body _ | .doLoop _ body _ | .labeled _ body => by
    simp only [map, labels, body.labels_map f]
  | .switch _ arms => arms.labels_map f

theorem Arms.labels_map {β : Type} (f : α → β) : ∀ arms : Arms α, (arms.map f).labels = arms.labels
  | .nil => rfl
  | .guard _ body rest | .default _ body rest => by
    simp only [Arms.map, Arms.labels, body.labels_map f, rest.labels_map f]

end

def Arms.defaults : Arms α → List α
  | .nil => []
  | .guard _ _ rest => rest.defaults
  | .default n _ rest => n :: rest.defaults

mutual

/-- All nodes, each before those it leads to without closing a loop. -/
def Control.nodes : Control α → List α
  | .skip => []
  | .line l | .jump l _ => l.all
  | .seq a b => a.nodes ++ b.nodes
  | .branch t a b => t.all ++ (a.nodes ++ b.nodes)
  | .loop _ t body update => t.all ++ (body.nodes ++ update.flatMap Line.all)
  | .doLoop _ body t => body.nodes ++ t.all
  | .switch s arms => s.all ++ (arms.guards ++ arms.defaults ++ arms.bodies)
  | .labeled _ body => body.nodes

def Arms.bodies : Arms α → List α
  | .nil => []
  | .guard _ body rest | .default _ body rest => body.nodes ++ rest.bodies

end

def Arms.nodes (arms : Arms α) : List α :=
  arms.guards ++ arms.defaults ++ arms.bodies

theorem Line.node_mem (l : Line α) : l.node ∈ l.all := by
  simp [Line.all]

theorem Line.first_mem (l : Line α) : l.first ∈ l.all := by
  obtain ⟨rest, hall⟩ := l.exists_all_eq
  simp [hall]

/-- The first node of structured control is one of its nodes. -/
theorem Control.first?_mem {t : α} : ∀ k : Control α, k.first? = some t → t ∈ k.nodes
  | .skip, h => by simp [first?] at h
  | .seq a b, h => by
    rw [first?, Option.or_eq_some_iff] at h
    rw [nodes, List.mem_append]
    rcases h with h | ⟨-, h⟩
    · exact .inl (first?_mem a h)
    · exact .inr (first?_mem b h)
  | .line l, h | .jump l _, h | .branch l _ _, h | .loop _ l _ _, h | .switch l _, h => by
    obtain ⟨rest, hall⟩ := l.exists_all_eq
    simp only [first?, Option.some.injEq] at h
    simp [nodes, hall, h]
  | .doLoop _ body l, h => by
    obtain ⟨rest, hall⟩ := l.exists_all_eq
    simp only [first?, Option.some.injEq] at h
    rw [nodes, List.mem_append]
    cases hbody : body.first? with
    | none => exact .inr (by simp [hall, ← h, hbody])
    | some t' =>
      rw [hbody] at h
      exact .inl (h ▸ first?_mem body hbody)
  | .labeled _ body, h => first?_mem body h

mutual

/-- The nodes that decide whether a loop goes on. -/
def Control.tests : Control α → List α
  | .skip | .line _ | .jump _ _ => []
  | .seq a b | .branch _ a b => a.tests ++ b.tests
  | .loop _ t body _ | .doLoop _ body t => t.node :: body.tests
  | .switch _ arms => arms.tests
  | .labeled _ body => body.tests

def Arms.tests : Arms α → List α
  | .nil => []
  | .guard _ body rest | .default _ body rest => body.tests ++ rest.tests

end

mutual

/-- Whether no switch has two default cases. -/
def Control.singleDefaults : Control α → Bool
  | .skip | .line _ | .jump _ _ => true
  | .seq a b | .branch _ a b => a.singleDefaults && b.singleDefaults
  | .loop _ _ body _ | .doLoop _ body _ | .labeled _ body => body.singleDefaults
  | .switch _ arms => arms.defaults.length ≤ 1 && arms.singleDefaults

def Arms.singleDefaults : Arms α → Bool
  | .nil => true
  | .guard _ body rest | .default _ body rest => body.singleDefaults && rest.singleDefaults

end

/-! ## Wires -/

/-- Consecutive nodes are joined. -/
def links : List Token → List Wire
  | a :: b :: rest => ⟨a.id, b.id, .true, none⟩ :: links (b :: rest)
  | _ => []

def Token.target (t : Token) : Target :=
  ⟨t.id, none⟩

/-- Where control goes that goes on with `k`. -/
def Control.entry (k : Control Token) (next : Target) : Target :=
  (k.first?.map Token.target).getD next

theorem Control.entry_seq (a b : Control Token) (next : Target) :
    (seq a b).entry next = a.entry (b.entry next) := by
  simp only [entry, first?]
  cases a.first? <;> rfl

theorem Control.entry_doLoop (label : Option String) (body : Control Token) (t : Line Token)
    (next : Target) : (doLoop label body t).entry next = body.entry t.first.target := by
  simp only [entry, first?]
  cases body.first? <;> rfl

def linesEntry (ls : List (Line Token)) (next : Target) : Target :=
  (ls.head?.map fun l => l.first.target).getD next

def linesWires : List (Line Token) → Target → List Wire
  | [], _ => []
  | l :: ls, next =>
    links l.all ++ (linesEntry ls next).wire l.node.id .true :: linesWires ls next

/-- The target of the false edge of the last guard: the last default case, or past the switch. -/
def Arms.missed (arms : Arms Token) (next : Target) : Target :=
  (arms.defaults.getLast?.map Token.target).getD next

/-- The first guard of some cases, or `missed` where there is none. -/
def Arms.guardEntry (missed : Target) : Arms Token → Target
  | .nil => missed
  | .guard t _ _ => t.first.target
  | .default _ _ rest => rest.guardEntry missed

def Arms.bodyEntry (next : Target) : Arms Token → Target
  | .nil => next
  | .guard _ body rest | .default _ body rest => body.entry (rest.bodyEntry next)

mutual

def Control.wires : Control Token → Exits → Target → List Wire
  | .skip, _, _ => []
  | .seq a b, x, next => a.wires x (b.entry next) ++ b.wires (x.forget a.labels) next
  | .line l, _, next => links l.all ++ [next.wire l.node.id .true]
  | .jump l j, x, next =>
    links l.all ++ next.wire l.node.id .fallThrough ::
      ((x.resolve j).map (·.wire l.node.id .true)).toList
  | .branch t a b, x, next =>
    links t.all ++ (a.entry next).wire t.node.id .true :: (b.entry next).wire t.node.id .false ::
      (a.wires x next ++ b.wires (x.forget a.labels) next)
  | .loop label t body update, x, next =>
    let back : Target := ⟨t.first.id, some t.node.id⟩
    let onward := linesEntry update back
    links t.all ++ (body.entry onward).wire t.node.id .true :: next.wire t.node.id .false ::
      (body.wires (x.push ⟨.loop, label, next, onward⟩) onward ++ linesWires update back)
  | .doLoop label body t, x, next =>
    let onward := t.first.target
    body.wires (x.push ⟨.loop, label, next, onward⟩) onward ++ (links t.all ++
      [⟨t.node.id, (body.entry onward).node, .true, some t.node.id⟩, next.wire t.node.id .false])
  | .switch s arms, x, next =>
    links s.all ++ (arms.guardEntry (arms.missed next)).wire s.node.id .true ::
      next.wire s.node.id .false ::
      arms.wires (x.push ⟨.switch, none, next, next⟩) next (arms.missed next)
  | .labeled l body, x, next => body.wires (x.push ⟨.label, some l, next, next⟩) next

/-- The wires of the cases of a switch; `missed` is where control goes after the last guard. -/
def Arms.wires : Arms Token → Exits → Target → Target → List Wire
  | .nil, _, _, _ => []
  | .guard t body rest, x, next, missed =>
    links t.all ++ (body.entry (rest.bodyEntry next)).wire t.node.id .true ::
      (rest.guardEntry missed).wire t.node.id .false ::
      (body.wires x (rest.bodyEntry next) ++ rest.wires (x.forget body.labels) next missed)
  | .default n body rest, x, next, missed =>
    (body.entry (rest.bodyEntry next)).wire n.id .true ::
      (body.wires x (rest.bodyEntry next) ++ rest.wires (x.forget body.labels) next missed)

end

end ProgramDependence
