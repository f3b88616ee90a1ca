import ProgramDependence.Error

/-!
# Constructions that number and report

Building a graph draws fresh ids and may write notices.  Both are kept in a `Trail`, which survives
a failure: ids that were drawn stay drawn, and notices that were written stay written.  `Tracked σ`
is such a construction with a further state `σ`, which survives a failure too.
-/

namespace ProgramDependence

inductive Level where
  | info
  | warning
  | error
  deriving DecidableEq, Repr, Inhabited

def Level.word : Level → String
  | .info => "INFO"
  | .warning => "WARNING"
  | .error => "ERROR"

structure Notice where
  level : Level
  text : String
  deriving DecidableEq, Repr, Inhabited

def Notice.line (n : Notice) : String :=
  n.level.word ++ " " ++ n.text

/-- The next id to hand out, and the notices written so far. -/
structure Trail where
  next : Id
  log : List Notice := []
  deriving DecidableEq, Repr, Inhabited

/-- A construction that draws ids, writes notices, changes a state and may fail. -/
abbrev Tracked (σ : Type) := ExceptT Error (StateM (σ × Trail))

namespace Tracked

variable {σ τ α : Type}

def freshId : Tracked σ Id := do
  let (s, t) ← get
  set (s, { t with next := t.next + 1 })
  return t.next

def report (level : Level) (text : String) : Tracked σ Unit :=
  modify fun (s, t) => (s, { t with log := t.log ++ [⟨level, text⟩] })

def state : Tracked σ σ :=
  return (← get).1

def put (s : σ) : Tracked σ Unit :=
  modify fun p => (s, p.2)

def update (f : σ → σ) : Tracked σ Unit :=
  modify fun p => (f p.1, p.2)

/-- Run a construction on a state of its own; the trail goes on. -/
def within (s : τ) (x : Tracked τ α) : Tracked σ (α × τ) := do
  let (outer, t) ← get
  let (result, inner, t') := (x.run (s, t) : Except Error α × τ × Trail)
  set (outer, t')
  match result with
  | .ok a => return (a, inner)
  | .error e => throw e

/-- Change the state by an operation that may be refused. -/
def attempt (f : σ → Except Error (σ × α)) : Tracked σ α := do
  match f (← state) with
  | .ok (s, a) => put s; return a
  | .error e => throw e

/-- Run a construction from a state and a trail. -/
def start (x : Tracked σ α) (s : σ) (t : Trail) : Except Error α × σ × Trail :=
  x.run (s, t)

end Tracked

end ProgramDependence
