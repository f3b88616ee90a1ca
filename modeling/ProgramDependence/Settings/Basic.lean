import ProgramDependence.Error
import ProgramDependence.Search
import ProgramDependence.Settings.Json
import ProgramDependence.Table

/-!
# Settings

Four switches steer the analysis.  A switch may hold any JSON value and counts by `Json.truthy`.
Settings come from defaults, from environment variables, or from a JSON text.
-/

namespace ProgramDependence

structure Settings where
  /-- Calls get nodes for their arguments and results. -/
  createActualNodes : Json := .bool true
  /-- Class graphs get a summary edge from every argument to the result of each call. -/
  conservativeSummaries : Json := .bool true
  /-- System graphs take in the fields that methods access. -/
  includeFieldPdgs : Json := .bool true
  /-- Control dependence on fall-through edges is dropped. -/
  excludeFallThroughCd : Json := .bool false
  deriving Inhabited

namespace Settings

def names : List String :=
  ["create_actual_nodes", "conservative_summaries", "include_field_pdgs", "exclude_fall_through_cd"]

def get (s : Settings) : String → Json
  | "create_actual_nodes" => s.createActualNodes
  | "conservative_summaries" => s.conservativeSummaries
  | "include_field_pdgs" => s.includeFieldPdgs
  | "exclude_fall_through_cd" => s.excludeFallThroughCd
  | _ => .null

/-- Set a switch by name; another name changes nothing. -/
def set (s : Settings) (name : String) (v : Json) : Settings :=
  match name with
  | "create_actual_nodes" => { s with createActualNodes := v }
  | "conservative_summaries" => { s with conservativeSummaries := v }
  | "include_field_pdgs" => { s with includeFieldPdgs := v }
  | "exclude_fall_through_cd" => { s with excludeFallThroughCd := v }
  | _ => s

def toEntries (s : Settings) : List (String × Json) :=
  names.map fun n => (n, s.get n)

def ofEntries (entries : List (String × Json)) : Settings :=
  entries.foldl (fun s e => s.set e.1 e.2) {}

/-- A lower-case letter for an upper-case one.  No character outside ASCII has a lower case among
the letters of the words that `isYes` accepts, so ASCII is enough there. -/
def lower (c : Char) : Char :=
  if 'A' ≤ c && c ≤ 'Z' then Char.ofNat (c.toNat + 32) else c

/-- Whether a text says yes: `1`, `true`, `yes` or `on` in any case and with blanks around. -/
def isYes (text : String) : Bool :=
  ["1", "true", "yes", "on"].contains (String.ofList ((Text.strip text).toList.map lower))

def variableOf (name : String) : String :=
  "PDGRAPH_" ++ String.ofList (name.toList.map Char.toUpper)

/-- The defaults, overridden by the environment variables that are set. -/
def ofEnvironment (environment : Table String String) : Settings :=
  names.foldl
    (fun s n =>
      match environment.find? (variableOf n) with
      | some text => s.set n (.bool (isYes text))
      | none => s)
    {}

def insertText (s : String) : List String → List String
  | [] => [s]
  | t :: ts => if s < t then s :: t :: ts else t :: insertText s ts

/-- Settings from a JSON text, with the keys that no switch has, in increasing order. -/
def ofJsonText (text : Option String) : Except Error (Settings × List String) :=
  match text with
  | none => .error .settingsMissing
  | some text =>
    match Json.parse? text with
    | some (.object entries) =>
      let unknown := (Search.fresh [] (entries.map (·.1))).filter fun k => !names.contains k
      .ok (ofEntries entries, unknown.foldl (fun ks k => insertText k ks) [])
    | _ => .error .settingsMalformed

end Settings

end ProgramDependence
