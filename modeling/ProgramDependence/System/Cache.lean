import ProgramDependence.Trail
import ProgramDependence.Table

/-!
# The build cache

A `BuildCache` keeps results by key and builds each at most once.  While a result is being built its
key is in progress, and the thread that builds it is known: a request of that thread is refused, and
another thread would wait.  A build that fails leaves no trace.
-/

namespace ProgramDependence

/-- How far the result of a key is. -/
inductive BuildState where
  | unvisited
  | inProgress
  | done
  deriving DecidableEq, Repr, Inhabited

def BuildState.word : BuildState → String
  | .unvisited => "unvisited"
  | .inProgress => "in-progress"
  | .done => "done"

/-- The identity of a thread. -/
structure Thread where
  number : Nat
  deriving DecidableEq, Repr, Inhabited

/-- The thread on which everything runs. -/
def Thread.main : Thread := ⟨0⟩

/-- Results by key, with the state of each key that is not unvisited and the thread that builds it. -/
structure BuildCache (α : Type) where
  states : Table String BuildState := {}
  results : Table String α := {}
  builders : Table String Thread := {}

namespace BuildCache

variable {α β σ : Type}

instance : Inhabited (BuildCache α) := ⟨{}⟩

def stateOf (c : BuildCache α) (key : String) : BuildState :=
  (c.states.find? key).getD .unvisited

def get? (c : BuildCache α) (key : String) : Option α :=
  c.results.find? key

/-- The thread that builds a key. -/
def builderOf (c : BuildCache α) (key : String) : Option Thread :=
  c.builders.find? key

def size (c : BuildCache α) : Nat :=
  c.results.size

def begin (c : BuildCache α) (key : String) (me : Thread) : BuildCache α :=
  { c with states := c.states.insert key .inProgress, builders := c.builders.insert key me }

def abandon (c : BuildCache α) (key : String) : BuildCache α :=
  { c with states := c.states.erase key, builders := c.builders.erase key }

def finish (c : BuildCache α) (key : String) (result : α) : BuildCache α :=
  { states := c.states.insert key .done, results := c.results.insert key result,
    builders := c.builders.erase key }

/-- The result of a key for a thread, built now if it is not there.  The build may itself use the
cache, which is a part of the state.  A key that another thread builds is waited for; no other
thread runs meanwhile. -/
def getOrBuild (me : Thread) (view : σ → BuildCache α) (change : (BuildCache α → BuildCache α) → σ → σ)
    (key : String) (build : Tracked σ α) : Tracked σ α := do
  let cache := view (← Tracked.state)
  match cache.stateOf key with
  | .inProgress => throw (if cache.builderOf key = some me then .reentrant key else .blocked key)
  | .done =>
    match cache.get? key with
    | some result => return result
    | none => throw .undefined
  | .unvisited =>
    Tracked.update (change (·.begin key me))
    let result ← tryCatch build fun e => do
      Tracked.update (change (·.abandon key))
      throw e
    Tracked.update (change (·.finish key result))
    return result

/-- Keep the results that have a counterpart; the states stay. -/
def restrict (f : α → Option β) (c : BuildCache α) : BuildCache β :=
  { c with
    results := ⟨c.results.entries.filterMap fun e => (f e.2).map (e.1, ·)⟩ }

end BuildCache

end ProgramDependence
