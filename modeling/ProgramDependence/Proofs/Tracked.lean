import ProgramDependence.Trail

/-!
# Reasoning about constructions

`Tracked.Ends x p good bad` says how a construction ends that starts at `p`: with an answer and a
state that satisfy `good`, or with an error and a state that satisfy `bad`.  The laws below move it
through the steps of a construction, so that a sequence of steps becomes a statement about its last
state.
-/

namespace ProgramDependence

namespace Tracked

variable {σ τ α β : Type}

/-- How a construction ends: well or with an error. -/
def Ends (x : Tracked σ α) (p : σ × Trail) (good : α → σ × Trail → Prop)
    (bad : Error → σ × Trail → Prop) : Prop :=
  match (x.run p : Except Error α × σ × Trail) with
  | (.ok a, q) => good a q
  | (.error e, q) => bad e q

/-- The construction ends well. -/
abbrev Returns (x : Tracked σ α) (p : σ × Trail) (good : α → σ × Trail → Prop) : Prop :=
  Ends x p good fun _ _ => False

variable {p : σ × Trail} {good : α → σ × Trail → Prop} {bad : Error → σ × Trail → Prop}

variable {x : Tracked σ α} {good' : α → σ × Trail → Prop}

theorem Ends.mono {bad' : Error → σ × Trail → Prop} (h : Ends x p good bad)
    (hgood : ∀ a q, good a q → good' a q) (hbad : ∀ e q, bad e q → bad' e q) : Ends x p good' bad' := by
  unfold Ends at h ⊢
  split at h
  · exact hgood _ _ h
  · exact hbad _ _ h

theorem Ends.imp (h : Ends x p good bad) (hgood : ∀ a q, good a q → good' a q) : Ends x p good' bad :=
  h.mono hgood fun _ _ hbad => hbad

theorem Ends.always (h : Returns x p good) (hgood : ∀ a q, good a q → good' a q) : Ends x p good' bad :=
  h.mono hgood fun _ _ hbad => hbad.elim

theorem Ends.partly (h : Ends x p good bad) (hgood : ∀ a q, good a q → good' a q) :
    Ends x p good' fun _ _ => True :=
  h.mono hgood fun _ _ _ => trivial

/-- The state is as before, and no id that was drawn is given back. -/
abbrev Kept (p q : σ × Trail) : Prop :=
  q.1 = p.1 ∧ p.2.next ≤ q.2.next

theorem Ends.since {q : σ × Trail} (h : Ends x q good fun _ => Kept q) (hkept : Kept p q)
    (hgood : ∀ a r, good a r → good' a r) : Ends x q good' fun _ => Kept p :=
  h.mono hgood fun _ _ h' => ⟨h'.1.trans hkept.1, Int.le_trans hkept.2 h'.2⟩

theorem Ends.and {bad' : Error → σ × Trail → Prop} (h : Ends x p good bad) (h' : Ends x p good' bad') :
    Ends x p (fun a q => good a q ∧ good' a q) (fun e q => bad e q ∧ bad' e q) := by
  unfold Ends at h h' ⊢
  split
  · rename_i hrun
    rw [hrun] at h h'
    exact ⟨h, h'⟩
  · rename_i hrun
    rw [hrun] at h h'
    exact ⟨h, h'⟩

/-- An end that is known is what the construction returned. -/
theorem ends_iff_of_run {a : α} {q : σ × Trail}
    (h : (x.run p : Except Error α × σ × Trail) = (.ok a, q)) : Ends x p good bad ↔ good a q := by
  simp [Ends, h]

/-- What the runs of a construction are found to return is what it returned. -/
@[elab_as_elim]
theorem of_run {motive : α → σ × Trail → Prop} {a : α} {q : σ × Trail} (h : x.run p = (.ok a, q))
    (hends : Returns x p motive) : motive a q :=
  (ends_iff_of_run h).1 hends

theorem ends_iff_of_error {e : Error} {q : σ × Trail}
    (h : (x.run p : Except Error α × σ × Trail) = (.error e, q)) : Ends x p good bad ↔ bad e q := by
  simp [Ends, h]

theorem ends_run (x : Tracked σ α) (p : σ × Trail) :
    Ends x p (fun a q => (x.run p : Except Error α × σ × Trail) = (.ok a, q))
      (fun e q => (x.run p : Except Error α × σ × Trail) = (.error e, q)) := by
  unfold Ends
  split
  · assumption
  · assumption

theorem Ends.last {keep : σ × Trail → Prop} (h : Ends x p (fun _ q => keep q) fun _ q => keep q) :
    keep (x.run p : Except Error α × σ × Trail).2 := by
  unfold Ends at h
  split at h
  · rename_i hrun
    rw [hrun]
    exact h
  · rename_i hrun
    rw [hrun]
    exact h

theorem Ends.exists_run (h : Returns x p good) :
    ∃ a q, (x.run p : Except Error α × σ × Trail) = (.ok a, q) ∧ good a q := by
  unfold Returns Ends at h
  split at h
  · rename_i a q hrun
    exact ⟨a, q, hrun, h⟩
  · exact h.elim

/-- How a construction ends can be found by running it. -/
instance (x : Tracked σ α) (p : σ × Trail) [∀ a q, Decidable (good a q)]
    [∀ e q, Decidable (bad e q)] : Decidable (Ends x p good bad) :=
  match h : (x.run p : Except Error α × σ × Trail) with
  | (.ok a, q) => decidable_of_iff (good a q) (ends_iff_of_run h).symm
  | (.error e, q) => decidable_of_iff (bad e q) (ends_iff_of_error h).symm

@[simp] theorem ends_pure (a : α) : Ends (pure a : Tracked σ α) p good bad ↔ good a p :=
  .rfl

@[simp] theorem ends_throw (e : Error) : Ends (throw e : Tracked σ α) p good bad ↔ bad e p :=
  .rfl

/-- A sequence ends as its second step does after the first. -/
@[simp] theorem ends_bind (x : Tracked σ β) (f : β → Tracked σ α) :
    Ends (x >>= f) p good bad ↔ Ends x p (fun b q => Ends (f b) q good bad) bad := by
  simp only [Ends, ExceptT.run, bind, ExceptT.bind, ExceptT.mk, StateT.bind]
  generalize (x p : Except Error β × σ × Trail) = r
  obtain ⟨_ | _, _⟩ := r <;> rfl

theorem returns_bind (x : Tracked σ β) (f : β → Tracked σ α) :
    Returns (x >>= f) p good ↔ Ends x p (fun b q => Ends (f b) q good fun _ _ => False) fun _ _ => False :=
  ends_bind x f

/-- An error is handled from the state it was thrown in. -/
@[simp] theorem ends_tryCatch (x : Tracked σ α) (handle : Error → Tracked σ α) :
    Ends (tryCatch x handle) p good bad ↔ Ends x p good fun e q => Ends (handle e) q good bad := by
  simp only [Ends, ExceptT.run, tryCatch, tryCatchThe, MonadExceptOf.tryCatch, ExceptT.tryCatch, ExceptT.mk,
    bind, StateT.bind]
  generalize (x p : Except Error α × σ × Trail) = r
  obtain ⟨_ | _, _⟩ := r <;> rfl

@[simp] theorem ends_map (f : β → α) (x : Tracked σ β) :
    Ends (f <$> x) p good bad ↔ Ends x p (fun b q => good (f b) q) bad := by
  rw [map_eq_pure_bind, ends_bind]
  rfl

@[simp] theorem ends_freshId {good : Id → σ × Trail → Prop} :
    Ends freshId p good bad ↔ good p.2.next (p.1, { p.2 with next := p.2.next + 1 }) :=
  .rfl

@[simp] theorem ends_report (level : Level) (text : String) {good : Unit → σ × Trail → Prop} :
    Ends (report level text) p good bad ↔ good () (p.1, { p.2 with log := p.2.log ++ [⟨level, text⟩] }) :=
  .rfl

@[simp] theorem ends_state {good : σ → σ × Trail → Prop} : Ends state p good bad ↔ good p.1 p :=
  .rfl

@[simp] theorem ends_update (f : σ → σ) {good : Unit → σ × Trail → Prop} :
    Ends (update f) p good bad ↔ good () (f p.1, p.2) :=
  .rfl

/-- An operation that is not refused changes the state; one that is refused changes nothing. -/
theorem ends_attempt (f : σ → Except Error (σ × α)) : Ends (attempt f) p good bad ↔
      match f p.1 with
      | .ok (s, a) => good a (s, p.2)
      | .error e => bad e p := by
  unfold attempt
  rw [ends_bind, ends_state]
  cases f p.1 <;> rfl

/-- A construction on a state of its own leaves the outer state alone. -/
theorem ends_within (s : τ) (x : Tracked τ β) {good : β × τ → σ × Trail → Prop} :
    Ends (within s x) p good bad ↔
      Ends x (s, p.2) (fun b q => good (b, q.1) (p.1, q.2)) (fun e q => bad e (p.1, q.2)) := by
  have hget : ∀ {good : σ × Trail → σ × Trail → Prop}, Ends get p good bad ↔ good p p := .rfl
  rw [within, ends_bind, hget]
  dsimp only
  rcases hx : (x.run (s, p.2) : Except Error β × τ × Trail) with ⟨e | b, inner, t⟩
  · rw [ends_iff_of_error hx]
    rfl
  · rw [ends_iff_of_run hx]
    rfl

theorem ends_forIn {xs : List β} {f : β → Tracked σ Unit} (keep : List β → σ × Trail → Prop)
    (hstep : ∀ x rest q, keep (x :: rest) q → Ends (f x) q (fun _ r => keep rest r) bad) (h : keep xs p) :
    Ends (forIn xs PUnit.unit fun x _ => do f x; pure (ForInStep.yield PUnit.unit)) p
    (fun _ q => keep [] q) bad := by
  induction xs generalizing p with
  | nil => exact h
  | cons x xs ih =>
    rw [List.forIn_cons]
    simp only [ends_bind]
    exact (hstep x xs p h).imp fun _ _ hq => ih hq

end Tracked

end ProgramDependence
