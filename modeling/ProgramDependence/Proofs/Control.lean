import Mathlib.Logic.Relation
import ProgramDependence.Flow.Build

/-!
# Structured control

The control structure of a unit, freed from its graph: straight lines of nodes, sequences, branches,
loops, switches and jumps.  `Control α` leaves open what stands for a node: a label when a run is
described, an id with its label when a graph is.

`Control.runs` is a big-step semantics.  A run is the list of nodes it executes together with its
outcome; conditions are not interpreted, so every way to decide them is a run.
-/

namespace ProgramDependence

variable {α β : Type}

/-- Nodes that are executed in a row: calls and their parameters, then the node of the statement. -/
structure Line (α : Type) where
  before : List α
  node : α

namespace Line

def all (l : Line α) : List α :=
  l.before ++ [l.node]

def first (l : Line α) : α :=
  l.before.headD l.node

def single (node : α) : Line α :=
  ⟨[], node⟩

def map (f : α → β) (l : Line α) : Line β :=
  ⟨l.before.map f, f l.node⟩

theorem map_single (f : α → β) (node : α) : (single node).map f = single (f node) := rfl

@[simp] theorem all_map (f : α → β) (l : Line α) : (l.map f).all = l.all.map f := by
  simp [all, map]

theorem exists_all_eq (l : Line α) : ∃ rest, l.all = l.first :: rest := by
  cases l with
  | mk before node =>
    cases before with
    | nil => exact ⟨[], rfl⟩
    | cons x xs => exact ⟨xs ++ [node], rfl⟩

end Line

/-- The ways to leave a statement by a jump; a label that is left out means the innermost target. -/
inductive Jump where
  | breakTo (label : Option String)
  | continueTo (label : Option String)
  | returning
  | throwing
  deriving DecidableEq, Repr

/-- How a run ends. -/
inductive Outcome where
  | normal
  | jumped (j : Jump)
  deriving DecidableEq, Repr

namespace Outcome

/-- Whether a break ends a loop or a switch of the given label. -/
def ends (label : Option String) : Outcome → Bool
  | jumped (.breakTo none) => true
  | jumped (.breakTo (some l)) => label = some l
  | _ => false

/-- Whether a break ends a labelled statement that is no loop. -/
def endsLabeled (label : String) : Outcome → Bool
  | jumped (.breakTo (some l)) => l = label
  | _ => false

/-- Whether a loop of the given label goes on after a run of its body. -/
def resumes (label : Option String) : Outcome → Bool
  | normal => true
  | jumped (.continueTo none) => true
  | jumped (.continueTo (some l)) => label = some l
  | _ => false

end Outcome

mutual

/-- Structured control over nodes.  A `branch` joins its parts again, a `loop` executes its updaters
after the body, and the condition of a `doLoop` comes last. -/
inductive Control (α : Type) where
  | skip
  | seq (first second : Control α)
  | line (l : Line α)
  | jump (l : Line α) (j : Jump)
  | branch (test : Line α) (yes no : Control α)
  | loop (label : Option String) (test : Line α) (body : Control α) (update : List (Line α))
  | doLoop (label : Option String) (body : Control α) (test : Line α)
  | switch (subject : Line α) (arms : Arms α)
  | labeled (label : String) (body : Control α)

/-- The cases of a switch, guarded or default. -/
inductive Arms (α : Type) where
  | nil
  | guard (test : Line α) (body : Control α) (rest : Arms α)
  | default (node : α) (body : Control α) (rest : Arms α)

end

/-! ## Runs -/

/-- Which lists of nodes can be executed with which outcome. -/
abbrev Behavior (α : Type) := List α → Outcome → Prop

namespace Behavior

def exactly (xs : List α) (o : Outcome) : Behavior α :=
  fun ys o' => ys = xs ∧ o' = o

def after (xs : List α) (r : Behavior α) : Behavior α :=
  fun ys o => ∃ zs, ys = xs ++ zs ∧ r zs o

def either (r s : Behavior α) : Behavior α :=
  fun xs o => r xs o ∨ s xs o

def seq (r s : Behavior α) : Behavior α :=
  fun xs o => (∃ ys zs, xs = ys ++ zs ∧ r ys .normal ∧ s zs o) ∨ (r xs o ∧ o ≠ .normal)

/-- End normally where an outcome is caught. -/
def catching (caught : Outcome → Bool) (r : Behavior α) : Behavior α :=
  fun xs o => (r xs o ∧ caught o = false) ∨ (o = .normal ∧ ∃ o', r xs o' ∧ caught o' = true)

def map (f : α → β) (r : Behavior α) : Behavior β :=
  fun ys o => ∃ xs, r xs o ∧ ys = xs.map f

end Behavior

/-- Where a loop is between its nodes: its condition was evaluated, or its body begins. -/
inductive Position where
  | tested
  | entered
  deriving DecidableEq, Repr

/-- The rounds of a loop.  After a round whose outcome the loop resumes, `onward` is executed: the
updaters and the condition. -/
inductive Rounds (body : Behavior α) (label : Option String) (onward : List α) :
    Position → Behavior α where
  | stop : Rounds body label onward .tested [] .normal
  | enter {xs : List α} {o : Outcome} (round : Rounds body label onward .entered xs o) :
      Rounds body label onward .tested xs o
  | resume {xs ys : List α} {o' o : Outcome} (run : body xs o') (resumes : o'.resumes label = true)
      (rest : Rounds body label onward .tested ys o) :
      Rounds body label onward .entered (xs ++ (onward ++ ys)) o
  | leave {xs : List α} {o' : Outcome} (run : body xs o') (ends : o'.ends label = true) :
      Rounds body label onward .entered xs .normal
  | pass {xs : List α} {o : Outcome} (run : body xs o) (goes : o.resumes label = false)
      (stays : o.ends label = false) : Rounds body label onward .entered xs o

def Arms.hasDefault : Arms α → Bool
  | .nil => false
  | .guard _ _ rest => rest.hasDefault
  | .default _ _ _ => true

def Arms.guards : Arms α → List α
  | .nil => []
  | .guard t _ rest => t.all ++ rest.guards
  | .default _ _ rest => rest.guards

open Behavior

mutual

/-- The nodes that a run may visit, in order, and how it ends then. -/
def Control.runs : Control α → Behavior α
  | .skip => exactly [] .normal
  | .seq a b => a.runs.seq b.runs
  | .line l => exactly l.all .normal
  | .jump l j => exactly l.all (.jumped j)
  | .branch t a b => after t.all (either a.runs b.runs)
  | .loop label t body update =>
    after t.all (Rounds body.runs label (update.flatMap Line.all ++ t.all) .tested)
  | .doLoop label body t => Rounds body.runs label t.all .entered
  | .switch s arms =>
    -- A switch may also be left at once.
    after s.all (catching (Outcome.ends none)
      (either (exactly [] .normal) (either arms.hits (after arms.guards arms.fallback))))
  | .labeled l body => catching (Outcome.endsLabeled l) body.runs

/-- The bodies of all cases in a row, each falling into the next. -/
def Arms.falls : Arms α → Behavior α
  | .nil => exactly [] .normal
  | .guard _ body rest => body.runs.seq rest.falls
  | .default _ body rest => body.runs.seq rest.falls

/-- Guards are evaluated in order until one holds, and then bodies from there on. -/
def Arms.hits : Arms α → Behavior α
  | .nil => fun _ _ => False
  | .guard t body rest => after t.all (either (body.runs.seq rest.falls) rest.hits)
  | .default _ _ rest => rest.hits

/-- No guard holds: the bodies from the last default case on, if there is one. -/
def Arms.fallback : Arms α → Behavior α
  | .nil => exactly [] .normal
  | .guard _ _ rest => rest.fallback
  | .default n body rest =>
    if rest.hasDefault then rest.fallback else after [n] (body.runs.seq rest.falls)

end

/-! ## Changing what stands for the nodes -/

mutual

def Control.map (f : α → β) : Control α → Control β
  | .skip => .skip
  | .seq a b => .seq (a.map f) (b.map f)
  | .line l => .line (l.map f)
  | .jump l j => .jump (l.map f) j
  | .branch t a b => .branch (t.map f) (a.map f) (b.map f)
  | .loop label t body update => .loop label (t.map f) (body.map f) (update.map (Line.map f))
  | .doLoop label body t => .doLoop label (body.map f) (t.map f)
  | .switch s arms => .switch (s.map f) (arms.map f)
  | .labeled l body => .labeled l (body.map f)

def Arms.map (f : α → β) : Arms α → Arms β
  | .nil => .nil
  | .guard t body rest => .guard (t.map f) (body.map f) (rest.map f)
  | .default n body rest => .default (f n) (body.map f) (rest.map f)

end

namespace Behavior

variable (f : α → β)

theorem map_exactly (xs : List α) (o : Outcome) : (exactly xs o).map f = exactly (xs.map f) o := by
  funext ys o'
  apply propext
  constructor
  · rintro ⟨_, ⟨rfl, rfl⟩, rfl⟩
    exact ⟨rfl, rfl⟩
  · rintro ⟨rfl, rfl⟩
    exact ⟨xs, ⟨rfl, rfl⟩, rfl⟩

theorem map_after (xs : List α) (r : Behavior α) : (after xs r).map f = after (xs.map f) (r.map f) := by
  funext ys o
  apply propext
  constructor
  · rintro ⟨_, ⟨zs, rfl, hr⟩, rfl⟩
    exact ⟨zs.map f, by simp, zs, hr, rfl⟩
  · rintro ⟨_, rfl, zs, hr, rfl⟩
    exact ⟨xs ++ zs, ⟨zs, rfl, hr⟩, by simp⟩

theorem map_either (r s : Behavior α) : (either r s).map f = either (r.map f) (s.map f) := by
  funext ys o
  simp [map, either, or_and_right, exists_or]

theorem map_seq (r s : Behavior α) : (r.seq s).map f = (r.map f).seq (s.map f) := by
  funext ys o
  apply propext
  constructor
  · rintro ⟨_, ⟨xs, zs, rfl, hr, hs⟩ | ⟨hr, ho⟩, rfl⟩
    · exact .inl ⟨xs.map f, zs.map f, by simp, ⟨xs, hr, rfl⟩, zs, hs, rfl⟩
    · exact .inr ⟨⟨_, hr, rfl⟩, ho⟩
  · rintro (⟨_, _, rfl, ⟨xs, hr, rfl⟩, zs, hs, rfl⟩ | ⟨⟨xs, hr, rfl⟩, ho⟩)
    · exact ⟨xs ++ zs, .inl ⟨xs, zs, rfl, hr, hs⟩, by simp⟩
    · exact ⟨xs, .inr ⟨hr, ho⟩, rfl⟩

theorem map_catching (caught : Outcome → Bool) (r : Behavior α) :
    (r.catching caught).map f = (r.map f).catching caught := by
  funext ys o
  apply propext
  constructor
  · rintro ⟨xs, ⟨hr, ho⟩ | ⟨rfl, o', hr, ho⟩, rfl⟩
    · exact .inl ⟨⟨xs, hr, rfl⟩, ho⟩
    · exact .inr ⟨rfl, o', ⟨xs, hr, rfl⟩, ho⟩
  · rintro (⟨⟨xs, hr, rfl⟩, ho⟩ | ⟨rfl, o', ⟨xs, hr, rfl⟩, ho⟩)
    · exact ⟨xs, .inl ⟨hr, ho⟩, rfl⟩
    · exact ⟨xs, .inr ⟨rfl, o', hr, ho⟩, rfl⟩

theorem map_rounds (body : Behavior α) (label : Option String) (onward : List α) (at' : Position) :
    map f (Rounds body label onward at') = Rounds (body.map f) label (onward.map f) at' := by
  funext ys o
  apply propext
  constructor
  · rintro ⟨xs, hr, rfl⟩
    induction hr with
    | stop => exact .stop
    | enter _ ih => exact .enter ih
    | resume run resumes _ ih =>
      rw [List.map_append, List.map_append]
      exact .resume ⟨_, run, rfl⟩ resumes ih
    | leave run ends => exact .leave ⟨_, run, rfl⟩ ends
    | pass run goes stays => exact .pass ⟨_, run, rfl⟩ goes stays
  · intro hr
    induction hr with
    | stop => exact ⟨[], .stop, rfl⟩
    | enter _ ih =>
      obtain ⟨xs, hr, rfl⟩ := ih
      exact ⟨xs, .enter hr, rfl⟩
    | resume run resumes _ ih =>
      obtain ⟨xs, run, rfl⟩ := run
      obtain ⟨zs, hr, rfl⟩ := ih
      exact ⟨xs ++ (onward ++ zs), .resume run resumes hr, by simp⟩
    | leave run ends =>
      obtain ⟨xs, run, rfl⟩ := run
      exact ⟨xs, .leave run ends, rfl⟩
    | pass run goes stays =>
      obtain ⟨xs, run, rfl⟩ := run
      exact ⟨xs, .pass run goes stays, rfl⟩

end Behavior

@[simp] theorem Arms.hasDefault_map (f : α → β) : ∀ arms : Arms α, (arms.map f).hasDefault = arms.hasDefault
  | .nil => rfl
  | .guard _ _ rest => Arms.hasDefault_map f rest
  | .default _ _ _ => rfl

@[simp] theorem Arms.guards_map (f : α → β) : ∀ arms : Arms α, (arms.map f).guards = arms.guards.map f
  | .nil => rfl
  | .guard _ _ rest | .default _ _ rest => by simp [Arms.map, Arms.guards, Arms.guards_map f rest]

theorem flatMap_all_map (f : α → β) (ls : List (Line α)) :
    (ls.map (Line.map f)).flatMap Line.all = (ls.flatMap Line.all).map f := by
  simp [List.flatMap_map, List.map_flatMap]

mutual

/-- Runs look at nodes only through what stands for them. -/
theorem Control.runs_map (f : α → β) : ∀ k : Control α, (k.map f).runs = k.runs.map f
  | .seq a b => by
    simp only [Control.map, Control.runs, Control.runs_map f a, Control.runs_map f b, map_seq]
  | .skip | .line _ | .jump _ _ => by simp [Control.map, Control.runs, map_exactly]
  | .branch t a b => by
    simp only [Control.map, Control.runs, Control.runs_map f a, Control.runs_map f b, map_after,
      map_either, Line.all_map]
  | .loop label t body update => by
    simp only [Control.map, Control.runs, Control.runs_map f body, map_after, map_rounds,
      Line.all_map, flatMap_all_map, List.map_append]
  | .doLoop label body t => by
    simp only [Control.map, Control.runs, Control.runs_map f body, map_rounds, Line.all_map]
  | .switch s arms => by
    simp only [Control.map, Control.runs, Arms.hits_map f arms, Arms.fallback_map f arms, map_after,
      map_catching, map_either, map_exactly, Line.all_map, Arms.guards_map, List.map_nil]
  | .labeled l body => by
    simp only [Control.map, Control.runs, Control.runs_map f body, map_catching]

theorem Arms.falls_map (f : α → β) : ∀ arms : Arms α, (arms.map f).falls = arms.falls.map f
  | .nil => by simp [Arms.map, Arms.falls, map_exactly]
  | .guard _ body rest | .default _ body rest => by
    simp only [Arms.map, Arms.falls, Control.runs_map f body, Arms.falls_map f rest, map_seq]

theorem Arms.hits_map (f : α → β) : ∀ arms : Arms α, (arms.map f).hits = arms.hits.map f
  | .nil => by
    funext xs o
    simp [Arms.map, Arms.hits, Behavior.map]
  | .guard t body rest => by
    simp only [Arms.map, Arms.hits, Control.runs_map f body, Arms.falls_map f rest,
      Arms.hits_map f rest, map_after, map_either, map_seq, Line.all_map]
  | .default _ _ rest => by simp only [Arms.map, Arms.hits, Arms.hits_map f rest]

theorem Arms.fallback_map (f : α → β) : ∀ arms : Arms α, (arms.map f).fallback = arms.fallback.map f
  | .nil => by simp [Arms.map, Arms.fallback, map_exactly]
  | .guard _ _ rest => by simp only [Arms.map, Arms.fallback, Arms.fallback_map f rest]
  | .default n body rest => by
    simp only [Arms.map, Arms.fallback, Arms.hasDefault_map, Arms.fallback_map f rest,
      Control.runs_map f body, Arms.falls_map f rest]
    split
    · rfl
    · rw [map_after, map_seq, List.map_singleton]

end

end ProgramDependence
