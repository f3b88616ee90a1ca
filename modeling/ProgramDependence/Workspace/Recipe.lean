import ProgramDependence.Workspace.Basic

/-!
# Recipes for cached results

A recipe says how the result of a key comes about.  Following it through a cache shows which builds
begin and in which order.
-/

namespace ProgramDependence

/-- A result to be built: a text, a failure, or a text that is made from another result. -/
inductive Recipe where
  | text (key value : String)
  | failure (key reason : String)
  | nested (key : String) (inner : Recipe)
  deriving Repr, Inhabited

def Recipe.key : Recipe → String
  | .text k _ | .failure k _ | .nested k _ => k

/-- A cache with the record of the builds that were begun, each with the state of its key. -/
structure Record where
  cache : BuildCache Stored
  begun : List (String × BuildState) := []

def Record.note (key : String) (r : Record) : Record :=
  { r with begun := r.begun ++ [(key, r.cache.stateOf key)] }

/-- The result of a recipe, built now unless the cache has it. -/
def Recipe.follow : Recipe → Tracked Record Stored
  | .text key value => request key (return .text value)
  | .failure key reason => request key (throw (.buildFailed reason))
  | .nested key inner =>
    request key do
      match ← follow inner with
      | .text s => return .text (key ++ "+" ++ s)
      | .pdg _ => throw .undefined
where
  /-- Ask for a key; a build that is begun is written down. -/
  request (key : String) (x : Tracked Record Stored) : Tracked Record Stored :=
    BuildCache.getOrBuild .main Record.cache (fun f r => { r with cache := f r.cache }) key do
      Tracked.update (Record.note key)
      x

end ProgramDependence
