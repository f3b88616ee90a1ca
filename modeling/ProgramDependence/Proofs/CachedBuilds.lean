import Mathlib.Data.List.Induction
import ProgramDependence.Proofs.Coherence
import ProgramDependence.Proofs.Tracked
import ProgramDependence.System.Cache

/-!
# Builds through a cache

A `Script` is a program that asks a build cache for keys.  Each request brings a build of its own,
which is a script again, so builds ask for keys to any depth; what comes of a request, a result or
an error, is handed to the rest of the script, which may swallow the error or pass it on.

Running a script writes a chronicle: the points it reaches between two operations on the cache, in
order, each with the cache, the keys of the builds under way and the request that was answered
last.  The chronicle of every script is regular (`Script.run_regular`): each point follows from
those before it (`Point.Follows`), and what one request adds follows again.
-/

namespace ProgramDependence

open List BuildCache

namespace Tracked

variable {σ α : Type}

/-- What comes of a construction, as a value. -/
def outcome (x : Tracked σ α) : Tracked σ (Except Error α) :=
  tryCatch (Except.ok <$> x) fun e => return .error e

@[simp] theorem ends_outcome {x : Tracked σ α} {p : σ × Trail}
    {good : Except Error α → σ × Trail → Prop} {bad : Error → σ × Trail → Prop} :
    Ends x.outcome p good bad ↔ Ends x p (fun a q => good (.ok a) q) fun e q => good (.error e) q := by
  rw [outcome, ends_tryCatch, ends_map]
  rfl

/-- Return or fail as an outcome says. -/
def ofOutcome : Except Error α → Tracked σ α
  | .ok a => return a
  | .error e => throw e

end Tracked

open Tracked

/-! ## Scripts and their chronicles -/

/-- A program that uses a cache: it returns, fails, or asks for a key and goes on with what comes of
it. -/
inductive Script (α : Type) where
  | give (result : α)
  | fail (error : Error)
  | ask (key : String) (build : Script α) (next : Except Error α → Script α)

/-- A request that was answered: the cache it met, how its build ended if the build was run, and the
answer. -/
structure Request (α : Type) where
  key : String
  before : BuildCache α
  ran : Option (Except Error α)
  answer : Except Error α

/-- A point between two operations on the cache: the keys of the builds under way, innermost first,
the cache, and the request that led here, if the script has just been answered. -/
structure Point (α : Type) where
  enclosing : List String
  cache : BuildCache α
  answered : Option (Request α)

/-- A cache with the chronicle of its use.  `ended` is how the last build ended. -/
structure Chronicle (α : Type) where
  cache : BuildCache α := {}
  ended : Option (Except Error α) := none
  points : List (Point α) := []

namespace Chronicle

variable {α : Type}

def onCache (f : BuildCache α → BuildCache α) (c : Chronicle α) : Chronicle α :=
  { c with cache := f c.cache }

/-- A point is reached.  No build has ended since. -/
def reach (enclosing : List String) (answered : Option (Request α)) (c : Chronicle α) : Chronicle α :=
  { c with ended := none, points := c.points ++ [⟨enclosing, c.cache, answered⟩] }

end Chronicle

namespace Script

variable {α : Type}

/-- Run a script inside of some builds, after a request. -/
def run (enclosing : List String) (answered : Option (Request α)) : Script α → Tracked (Chronicle α) α
  | give result => do
      update (.reach enclosing answered)
      return result
  | fail error => do
      update (.reach enclosing answered)
      throw error
  | ask key build next => do
      update (.reach enclosing answered)
      let before := (← state).cache
      let answer ← outcome <| getOrBuild .main Chronicle.cache Chronicle.onCache key do
        let ended ← outcome (build.run (key :: enclosing) none)
        update fun c => { c with ended := some ended }
        ofOutcome ended
      let ran := (← state).ended
      (next answer).run enclosing (some ⟨key, before, ran, answer⟩)

end Script

/-! ## Orderly chronicles -/

variable {α : Type}

/-- The successful build that a point comes after. -/
def Point.success? (p : Point α) : Option (String × α) :=
  match p.answered with
  | some ⟨key, _, some (.ok a), _⟩ => some (key, a)
  | _ => none

/-- The successful builds so far, with their results. -/
def successes (ps : List (Point α)) : List (String × α) :=
  ps.filterMap Point.success?

/-- How a request is answered inside of some builds, after some successful ones; `after` is the
cache it leaves. -/
structure Request.Regular (built : List (String × α)) (enclosing : List String)
    (after : BuildCache α) (r : Request α) : Prop where
  /-- A key whose build is under way is refused, and nothing changes. -/
  refused : r.key ∈ enclosing → r.ran = none ∧ r.answer = .error (.reentrant r.key) ∧ after = r.before
  /-- A key that was built before is not built again: the answer is its result. -/
  again : ∀ a, (r.key, a) ∈ built → r.ran = none ∧ r.answer = .ok a ∧ after = r.before
  /-- Every other build is run. -/
  first : r.key ∉ enclosing → (∀ a, (r.key, a) ∉ built) → r.ran ≠ none
  /-- What comes of the build is the answer. -/
  passed : ∀ ended, r.ran = some ended → r.answer = ended
  /-- A build that fails leaves its key unvisited. -/
  failed : ∀ e, r.ran = some (.error e) → after.stateOf r.key = .unvisited
  /-- What is in progress stays so, and nothing else. -/
  kept : ∀ key, after.stateOf key = .inProgress ↔ r.before.stateOf key = .inProgress

/-- A point agrees with the points before it. -/
structure Point.Follows (earlier : List (Point α)) (p : Point α) : Prop where
  /-- A key is done iff it has a result. -/
  done_iff : ∀ key, p.cache.stateOf key = .done ↔ ∃ a, p.cache.get? key = some a
  /-- The keys in progress are those of the builds under way. -/
  inProgress_iff : ∀ key, p.cache.stateOf key = .inProgress ↔ key ∈ p.enclosing
  /-- They are built by the one thread there is. -/
  builder_eq : ∀ key, p.cache.builderOf key = if key ∈ p.enclosing then some .main else none
  /-- The results are those of the builds that succeeded. -/
  get?_iff : ∀ key a, p.cache.get? key = some a ↔ (key, a) ∈ successes (earlier ++ [p])
  regular : ∀ r, p.answered = some r → r.Regular (successes earlier) p.enclosing p.cache

/-- Each point agrees with the points before it. -/
def Orderly (ps : List (Point α)) : Prop :=
  ∀ earlier p later, ps = earlier ++ p :: later → p.Follows earlier

theorem orderly_nil : Orderly ([] : List (Point α)) := by
  intro earlier p later h
  simp at h

theorem orderly_concat {ps : List (Point α)} {p : Point α} : Orderly (ps ++ [p]) ↔ Orderly ps ∧
    p.Follows ps := by
  constructor
  · intro h
    refine ⟨fun earlier q later hsplit => h earlier q (later ++ [p]) ?_, h ps p [] rfl⟩
    simp [hsplit]
  · rintro ⟨hps, hp⟩ earlier q later hsplit
    rcases eq_nil_or_concat later with rfl | ⟨init, last, rfl⟩
    · obtain ⟨rfl, hlast⟩ := append_inj' hsplit rfl
      cases hlast
      exact hp
    · have hsplit' : ps ++ [p] = (earlier ++ q :: init) ++ [last] := by simpa using hsplit
      obtain ⟨rfl, -⟩ := append_inj' hsplit' rfl
      exact hps earlier q init rfl

theorem successes_concat (ps : List (Point α)) (p : Point α) :
    successes (ps ++ [p]) = successes ps ++ p.success?.toList := by
  simp only [successes]
  cases h : p.success? <;> simp [h]

theorem Orderly.get?_iff {ps : List (Point α)} {p : Point α} (h : Orderly (ps ++ [p]))
    (key : String) (a : α) : p.cache.get? key = some a ↔ (key, a) ∈ successes (ps ++ [p]) :=
  (orderly_concat.1 h).2.get?_iff key a

theorem Point.Follows.get?_eq_none {earlier : List (Point α)} {p : Point α} (h : p.Follows earlier)
    {key : String} (hkey : key ∈ p.enclosing) : p.cache.get? key = none := by
  cases hget : p.cache.get? key with
  | none => rfl
  | some a =>
    have hdone := (h.done_iff key).2 ⟨a, hget⟩
    rw [(h.inProgress_iff key).2 hkey] at hdone
    cases hdone

theorem Orderly.not_mem_successes {ps : List (Point α)} {p : Point α} (h : Orderly (ps ++ [p]))
    {key : String} (hkey : key ∈ p.enclosing) (a : α) : (key, a) ∉ successes (ps ++ [p]) := by
  rw [← h.get?_iff, (orderly_concat.1 h).2.get?_eq_none hkey]
  simp

theorem Point.Follows.unvisited_iff {earlier : List (Point α)} {p : Point α} (h : p.Follows earlier)
    (key : String) :
    p.cache.stateOf key = .unvisited ↔ key ∉ p.enclosing ∧ ∀ a, (key, a) ∉ successes (earlier ++ [p]) := by
  have hdone : p.cache.stateOf key = .done ↔ ∃ a, (key, a) ∈ successes (earlier ++ [p]) := by
    simp only [h.done_iff, h.get?_iff]
  rw [← h.inProgress_iff, ← not_exists, ← hdone]
  cases p.cache.stateOf key <;> simp

/-- **No key is built twice.**  A second success would have been answered without a build. -/
theorem Orderly.nodup {ps : List (Point α)} (h : Orderly ps) : ((successes ps).map (·.1)).Nodup := by
  induction ps using List.reverseRecOn with
  | nil => exact nodup_nil
  | append_singleton ps p ih =>
    obtain ⟨hps, hp⟩ := orderly_concat.1 h
    rw [successes_concat, map_append, nodup_append]
    refine ⟨ih hps, ?_, ?_⟩
    · cases p.success? <;> simp
    · intro key hkey key' hkey' heq
      subst heq
      obtain ⟨⟨_, a⟩, ha, rfl⟩ := mem_map.1 hkey
      obtain ⟨⟨_, b⟩, hb, rfl⟩ := mem_map.1 hkey'
      rw [Option.mem_toList, Point.success?] at hb
      split at hb
      · rename_i hanswered
        cases hb
        obtain ⟨hran, -⟩ := (hp.regular _ hanswered).again a ha
        cases hran
      · cases hb

/-! ## What one request does -/

namespace BuildCache

variable {σ : Type}

section

variable (c : BuildCache α) (key other : String)

include c key other

@[simp] theorem stateOf_begin (me : Thread) :
    (c.begin key me).stateOf other = if other = key then .inProgress else c.stateOf other := by
  simp only [stateOf, begin, Table.find?_insert]
  split <;> rfl

@[simp] theorem stateOf_abandon :
    (c.abandon key).stateOf other = if other = key then .unvisited else c.stateOf other := by
  simp only [stateOf, abandon, Table.find?_erase]
  split <;> rfl

@[simp] theorem stateOf_finish (a : α) :
    (c.finish key a).stateOf other = if other = key then .done else c.stateOf other := by
  simp only [stateOf, finish, Table.find?_insert]
  split <;> rfl

@[simp] theorem builderOf_begin (me : Thread) :
    (c.begin key me).builderOf other = if other = key then some me else c.builderOf other :=
  Table.find?_insert _ _ _ _

@[simp] theorem builderOf_abandon :
    (c.abandon key).builderOf other = if other = key then none else c.builderOf other :=
  Table.find?_erase _ _ _

@[simp] theorem builderOf_finish (a : α) :
    (c.finish key a).builderOf other = if other = key then none else c.builderOf other :=
  Table.find?_erase _ _ _

@[simp] theorem get?_begin (me : Thread) : (c.begin key me).get? other = c.get? other := rfl

@[simp] theorem get?_abandon : (c.abandon key).get? other = c.get? other := rfl

@[simp] theorem get?_finish (a : α) :
    (c.finish key a).get? other = if other = key then some a else c.get? other :=
  Table.find?_insert _ _ _ _

end

theorem ends_getOrBuild {me : Thread} {view : σ → BuildCache α}
    {change : (BuildCache α → BuildCache α) → σ → σ} {key : String}
    {build : Tracked σ α} {p : σ × Trail} {good : α → σ × Trail → Prop}
    {bad : Error → σ × Trail → Prop} (hrefused : (view p.1).stateOf key = .inProgress →
      bad (if (view p.1).builderOf key = some me then .reentrant key else .blocked key) p)
    (hdone : (view p.1).stateOf key = .done → ∃ a, (view p.1).get? key = some a ∧ good a p)
    (hbuild : (view p.1).stateOf key = .unvisited →
      Ends build (change (·.begin key me) p.1, p.2) (fun a q => good a (change (·.finish key a) q.1, q.2))
        fun e q => bad e (change (·.abandon key) q.1, q.2)) :
        Ends (getOrBuild me view change key build) p good bad := by
  simp only [getOrBuild, ends_bind, ends_state]
  cases hstate : (view p.1).stateOf key with
  | inProgress => exact hrefused hstate
  | done =>
    obtain ⟨a, hget, hgood⟩ := hdone hstate
    simp only [hget]
    exact hgood
  | unvisited =>
    simp only [ends_bind, ends_tryCatch]
    exact hbuild hstate

end BuildCache

namespace Orderly

variable {ps : List (Point α)} {p : Point α} {key : String} {ks : List String} {before : BuildCache α}

theorem first : Orderly ([] ++ [⟨[], {}, none⟩] : List (Point α)) := by
  refine orderly_concat.2 ⟨orderly_nil, ?_, ?_, ?_, ?_, ?_⟩
  · simp [stateOf, get?, Table.find?]
  · simp [stateOf, Table.find?]
  · simp [builderOf, Table.find?]
  · simp [get?, Table.find?, successes, Point.success?]
  · intro r hr
    cases hr

section

variable (h : Orderly (ps ++ [p]))
include h

theorem enter (hkey : p.cache.stateOf key = .unvisited) :
    Orderly (ps ++ [p] ++ [⟨key :: p.enclosing, p.cache.begin key .main, none⟩]) := by
  have hp := (orderly_concat.1 h).2
  refine orderly_concat.2 ⟨h, ?_, ?_, ?_, ?_, ?_⟩
  · intro other
    rw [stateOf_begin, get?_begin, ← hp.done_iff]
    split
    · rename_i heq
      simp [heq, hkey]
    · rfl
  · intro other
    rw [stateOf_begin, mem_cons, ← hp.inProgress_iff]
    split
    · simp [*]
    · simp [*]
  · intro other
    rw [builderOf_begin, hp.builder_eq]
    by_cases hother : other = key
    · simp [hother]
    · simp [hother]
  · intro other a
    rw [get?_begin, h.get?_iff, successes_concat _ ⟨_, _, none⟩]
    simp [Point.success?]
  · intro r hr
    cases hr

theorem answer {r : Request α} (hran : r.ran = none)
    (hr : r.Regular (successes (ps ++ [p])) p.enclosing p.cache) :
    Orderly (ps ++ [p] ++ [⟨p.enclosing, p.cache, some r⟩]) := by
  have hp := (orderly_concat.1 h).2
  refine orderly_concat.2 ⟨h, hp.done_iff, hp.inProgress_iff, hp.builder_eq, ?_, ?_⟩
  · intro other a
    have hnone : Point.success? ⟨p.enclosing, p.cache, some r⟩ = none := by
      obtain ⟨_, _, _, _⟩ := r
      cases hran
      rfl
    rw [h.get?_iff, successes_concat _ ⟨_, _, some r⟩, hnone]
    simp
  · rintro _ ⟨⟩
    exact hr

theorem refuse (hkey : p.cache.stateOf key = .inProgress) :
    Orderly (ps ++ [p] ++ [⟨p.enclosing, p.cache, some ⟨key, p.cache, none, .error (.reentrant key)⟩⟩]) := by
  have hmem : key ∈ p.enclosing := ((orderly_concat.1 h).2.inProgress_iff key).1 hkey
  refine h.answer rfl ⟨fun _ => ⟨rfl, rfl, rfl⟩, ?_, fun hnot => absurd hmem hnot, ?_, ?_, fun _ => .rfl⟩
  · exact fun a ha => absurd ha (h.not_mem_successes hmem a)
  · intro ended hended
    cases hended
  · intro e he
    cases he

theorem reuse {a : α} (ha : p.cache.get? key = some a) :
    Orderly (ps ++ [p] ++ [⟨p.enclosing, p.cache, some ⟨key, p.cache, none, .ok a⟩⟩]) := by
  refine h.answer rfl ⟨?_, ?_, ?_, ?_, ?_, fun _ => .rfl⟩
  · intro hkey
    rw [(orderly_concat.1 h).2.get?_eq_none hkey] at ha
    cases ha
  · intro b hb
    obtain rfl : a = b := Option.some.inj (ha.symm.trans ((h.get?_iff key b).2 hb))
    exact ⟨rfl, rfl, rfl⟩
  · exact fun _ hnew => absurd ((h.get?_iff key a).1 ha) (hnew a)
  · intro ended hended
    cases hended
  · intro e he
    cases he

end

variable (h : Orderly (ps ++ [p]))

include h

variable (hinside : p.enclosing = key :: ks) (hkey : key ∉ ks)
  (hbefore : ∀ other, before.stateOf other = .inProgress ↔ other ∈ ks)

include hinside hkey hbefore

/-- The end of a build: `after` is the cache with the key out of progress again. -/
theorem leave {ended : Except Error α} {after : BuildCache α}
    (hstate : ∀ other, other ≠ key → after.stateOf other = p.cache.stateOf other)
    (hget : ∀ other, other ≠ key → after.get? other = p.cache.get? other)
    (hbuilder : ∀ other, after.builderOf other = if other = key then none else p.cache.builderOf other)
    (hended : match ended with
      | .ok a => after.stateOf key = .done ∧ after.get? key = some a
      | .error _ => after.stateOf key = .unvisited ∧ after.get? key = none) :
    Orderly (ps ++ [p] ++ [⟨ks, after, some ⟨key, before, some ended, ended⟩⟩]) := by
  have hp := (orderly_concat.1 h).2
  have hmem : key ∈ p.enclosing := hinside ▸ mem_cons_self
  have hidle : after.stateOf key ≠ .inProgress := by
    cases ended <;> simp [hended.1]
  have hprogress : ∀ other, after.stateOf other = .inProgress ↔ other ∈ ks := by
    intro other
    by_cases hother : other = key
    · subst hother
      exact iff_of_false hidle hkey
    · rw [hstate other hother, hp.inProgress_iff, hinside, mem_cons]
      exact or_iff_right hother
  refine orderly_concat.2 ⟨h, ?_, hprogress, ?_, ?_, ?_⟩
  · intro other
    by_cases hother : other = key
    · subst hother
      cases ended <;> simp [hended.1, hended.2]
    · rw [hstate other hother, hget other hother, hp.done_iff]
  · intro other
    rw [hbuilder, hp.builder_eq, hinside]
    by_cases hother : other = key
    · simp [hother, hkey]
    · simp [hother]
  · intro other a
    rw [successes_concat _ ⟨_, _, some _⟩, mem_append, ← h.get?_iff]
    by_cases hother : other = key
    · subst hother
      cases ended with
      | ok b => simp [hended.2, hp.get?_eq_none hmem, Point.success?, eq_comm]
      | error e => simp [hended.2, hp.get?_eq_none hmem, Point.success?]
    · rw [hget other hother]
      cases ended with
      | ok b => simp [Point.success?, hother]
      | error e => simp [Point.success?]
  · rintro _ ⟨⟩
    refine ⟨fun hks => absurd hks hkey, ?_, ?_, ?_, ?_, ?_⟩
    · exact fun a ha => absurd ha (h.not_mem_successes hmem a)
    · intro _ _ hran
      cases hran
    · rintro _ ⟨⟩
      rfl
    · rintro e ⟨⟩
      exact hended.1
    · intro other
      rw [hprogress, hbefore]

theorem finish (a : α) :
    Orderly (ps ++ [p] ++ [⟨ks, p.cache.finish key a, some ⟨key, before, some (.ok a), .ok a⟩⟩]) := by
  refine h.leave hinside hkey hbefore ?_ ?_ ?_ ?_
  · intro other hother
    simp [hother]
  · intro other hother
    simp [hother]
  · simp
  · simp

theorem abandon (e : Error) :
    Orderly (ps ++ [p] ++ [⟨ks, p.cache.abandon key, some ⟨key, before, some (.error e), .error e⟩⟩]) := by
  refine h.leave hinside hkey hbefore ?_ ?_ ?_ ?_
  · intro other hother
    simp [hother]
  · simp
  · simp
  · simp [(orderly_concat.1 h).2.get?_eq_none (hinside ▸ mem_cons_self)]

end Orderly

/-! ## What a script does -/

/-- The chronicle is orderly, and its last point is inside of the given builds. -/
def Chronicle.At (ks : List String) (c : Chronicle α) : Prop :=
  Orderly c.points ∧ ∃ ps answered, c.points = ps ++ [⟨ks, c.cache, answered⟩]

theorem Script.ends_run_at (s : Script α) {ks : List String} {answered : Option (Request α)}
    {p : Chronicle α × Trail} (h : Orderly (p.1.points ++ [⟨ks, p.1.cache, answered⟩])) :
    Ends (s.run ks answered) p (fun _ q => q.1.At ks) (fun _ q => q.1.At ks) := by
  induction s generalizing ks answered p with
  | give result => exact ⟨h, _, _, rfl⟩
  | fail error => exact ⟨h, _, _, rfl⟩
  | ask key build next ihbuild ihnext =>
    have hp := (orderly_concat.1 h).2
    simp only [run, ends_bind, ends_outcome]
    refine ends_getOrBuild ?_ ?_ ?_
    · intro hkey
      have hmain : p.1.cache.builderOf key = some .main :=
        (hp.builder_eq key).trans (if_pos ((hp.inProgress_iff key).1 hkey))
      simp only [Chronicle.reach, hmain, if_true]
      exact ihnext _ (h.refuse hkey)
    · intro hkey
      obtain ⟨a, ha⟩ := (hp.done_iff key).1 hkey
      exact ⟨a, ha, ihnext _ (h.reuse ha)⟩
    · intro hkey
      have hnew : key ∉ ks := ((hp.unvisited_iff key).1 hkey).1
      simp only [ends_bind, ends_outcome]
      -- The build starts at a point of its own and ends at one with the same builds under way.
      refine (ihbuild (h.enter hkey)).mono ?_ ?_
      · rintro a q ⟨hq, ps, last, hpoints⟩
        have hnext := (hpoints ▸ hq).finish rfl hnew hp.inProgress_iff a
        rw [← hpoints] at hnext
        exact ihnext _ hnext
      · rintro e q ⟨hq, ps, last, hpoints⟩
        have hnext := (hpoints ▸ hq).abandon rfl hnew hp.inProgress_iff e
        rw [← hpoints] at hnext
        exact ihnext _ hnext

/-- What holds of the chronicle of a program. -/
structure Chronicle.Regular (c : Chronicle α) : Prop where
  orderly : Orderly c.points
  /-- Each key is built successfully at most once. -/
  once : ((successes c.points).map (·.1)).Nodup
  /-- At every point a key is unvisited unless a build of it is under way or has succeeded. -/
  unvisited_iff : ∀ earlier p later, c.points = earlier ++ p :: later → ∀ key,
    p.cache.stateOf key = .unvisited ↔ key ∉ p.enclosing ∧ ∀ a, (key, a) ∉ successes (earlier ++ [p])
  /-- The chronicle ends at the cache the program leaves, with no build under way. -/
  last : ∃ ps answered, c.points = ps ++ [⟨[], c.cache, answered⟩]

/-- **The states of a build cache.**  Whatever a program asks of an empty cache, and however its
builds nest, fail and handle failures: at every point a key is done iff it has a result and in
progress iff its build is under way; a request for a key in progress is refused and never waits;
requests restore what is in progress; a failed build leaves its key unvisited; and each key is built
successfully at most once, after which every request for it gives that result without a build. -/
theorem Script.run_regular (s : Script α) (t : Trail) :
    Ends (s.run [] none) ({}, t) (fun _ q => q.1.Regular) (fun _ q => q.1.Regular) := by
  have hregular : ∀ c : Chronicle α, c.At [] → c.Regular := fun c ⟨horderly, hlast⟩ =>
    ⟨horderly, horderly.nodup, fun earlier p later hsplit =>
      (horderly earlier p later hsplit).unvisited_iff, hlast⟩
  exact (s.ends_run_at (p := ({}, t)) .first).mono (fun _ q => hregular q.1) fun _ q => hregular q.1

end ProgramDependence
