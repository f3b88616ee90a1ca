/-!
# Exploring what can be reached

One worklist loop serves every search of the library.  `Search.run` expands the elements of a
worklist one by one; the successors it has not met before are appended to the list of found elements
and put on the worklist, at its end (`queue`) or on top with the last one first (`stack`).

The loop spends one unit of fuel per expansion, so it evaluates by plain recursion.  Every element
is expanded at most once after it is found, and a caller grants as much fuel as there can be
elements.
-/

namespace ProgramDependence

/-- Where newly found elements are put on the worklist. -/
inductive Discipline where
  | queue
  | stack
  deriving DecidableEq, Repr

def Discipline.push {α : Type} : Discipline → List α → List α → List α
  | queue, new, todo => todo ++ new
  | stack, new, todo => new.reverse ++ todo

/-- What a search saw: `found` in order of discovery, `visited` in order of expansion. -/
structure Trace (α : Type) where
  found : List α
  visited : List α

namespace Search

variable {α : Type} [DecidableEq α]

/-- The elements of a list that are not among `seen`, each once, in the order they first occur. -/
def fresh (seen : List α) : List α → List α
  | [] => []
  | x :: xs => if x ∈ seen then fresh seen xs else x :: fresh (x :: seen) xs

/-- Expand the worklist until it is empty or the fuel is spent. -/
def run (discipline : Discipline) (next : α → List α) : Nat → List α → List α → List α → Trace α
  | 0, _, found, visited => ⟨found, visited⟩
  | _ + 1, [], found, visited => ⟨found, visited⟩
  | fuel + 1, x :: todo, found, visited =>
    let new := fresh found (next x)
    run discipline next fuel (discipline.push new todo) (found ++ new) (visited ++ [x])

/-- Everything found from `starts`, the starts first, in order of breadth-first discovery.  At most
`bound` elements besides the starts may be reachable. -/
def reach (next : α → List α) (bound : Nat) (starts : List α) : List α :=
  let first := fresh [] starts
  (run .queue next (first.length + bound) first first []).found

/-- Whether `goal` is among the successors of what a search from `todo` expands.  The search stops
where it meets it. -/
def meets (next : α → List α) (goal : α) : Nat → List α → List α → Bool
  | 0, _, _ => false
  | _ + 1, [], _ => false
  | fuel + 1, x :: todo, found =>
    if goal ∈ next x then true
    else
      let new := fresh found (next x)
      meets next goal fuel (todo ++ new) (found ++ new)

theorem mem_fresh {x : α} {seen xs : List α} : x ∈ fresh seen xs ↔ x ∈ xs ∧ x ∉ seen := by
  induction xs generalizing seen with
  | nil => simp [fresh]
  | cons y ys ih =>
    by_cases hy : y ∈ seen
    · simp only [fresh, hy, if_true, ih, List.mem_cons]
      constructor
      · exact fun h => ⟨Or.inr h.1, h.2⟩
      · rintro ⟨rfl | h, hs⟩
        · exact absurd hy hs
        · exact ⟨h, hs⟩
    · simp only [fresh, hy, if_false, List.mem_cons, ih]
      by_cases hxy : x = y
      · subst hxy; simp [hy]
      · simp [hxy]

theorem nodup_fresh (seen xs : List α) : (fresh seen xs).Nodup := by
  induction xs generalizing seen with
  | nil => simp [fresh]
  | cons y ys ih =>
    by_cases hy : y ∈ seen
    · simpa [fresh, hy] using ih seen
    · simp only [fresh, hy, if_false, List.nodup_cons]
      exact ⟨fun h => (mem_fresh.1 h).2 (by simp), ih _⟩

end Search

end ProgramDependence
