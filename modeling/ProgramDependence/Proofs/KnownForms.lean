import ProgramDependence.Proofs.Built

/-!
# Units of known forms

Lowering a unit fails at a statement of an unknown form and nowhere else, and no such statement is
passed over.

A flow graph that is built holds together: every node leads to the exit, and if no switch has two
default cases, the entry leads to every node.
-/

namespace ProgramDependence

open List

namespace Cfg

open Tracked Lowering

/-- Every node reaches the exit. -/
def LeadsOut (c : Cfg) : Prop :=
  ∀ id ∈ c.nodeIds, Relation.ReflTransGen (c.Arrow fun _ => true) id c.exit.id

/-- Every node is reached from the entry. -/
def LeadsIn (c : Cfg) : Prop :=
  ∀ id ∈ c.nodeIds, Relation.ReflTransGen (c.Arrow fun _ => true) c.entry.id id

section

variable {c : Cfg} {u : Plan} (h : c.Realizes u)

include h

theorem Realizes.exit_mem : c.exit.id ∈ c.nodeIds := by
  rw [h.mem_nodeIds, h.exit_id]
  exact mem_map_of_mem (by simp [Plan.nodes])

theorem Realizes.leadsOut : c.LeadsOut := by
  intro id hid
  obtain ⟨t, ht, rfl⟩ := mem_map.1 (h.mem_nodeIds.1 hid)
  rw [h.arrow_eq, h.exit_id]
  exact (u.node_leads ht).1

theorem Realizes.leadsIn (hsingle : u.body.singleDefaults = true) : c.LeadsIn := by
  intro id hid
  obtain ⟨t, ht, rfl⟩ := mem_map.1 (h.mem_nodeIds.1 hid)
  rw [h.arrow_eq, h.entry_id]
  exact (u.node_leads ht).2 hsingle

end

theorem LeadsIn.validate_run {σ : Type} {c : Cfg} (h : c.LeadsIn) (hc : c.Coherent)
    (hexit : c.exit.id ∈ c.nodeIds) (p : σ × Trail) : (c.validate).run p = (.ok (), p) := by
  have hreached : ∀ id ∈ c.nodeIds, (c.reachable c.entry.id true true none).contains id = true :=
    fun id hid => contains_iff_mem.2 (mem_reachable hc (h id hid))
  have hlost : (c.nodeIds.filter fun id => !(c.reachable c.entry.id true true none).contains id) = [] := by
    rw [filter_eq_nil_iff]
    intro id hid
    rw [hreached id hid]
    decide
  unfold validate
  simp only [hreached _ hexit, hlost]
  rfl

/-- **A unit is built unless a statement of it is of an unknown form.**  The error names such a
statement; no other error occurs.  In a graph that is built every node leads to the exit, and if no
switch has two default cases, the entry leads to every node, so that validation has nothing to
report. -/
theorem built_iff_known {σ : Type} (context : Context) (p : σ × Trail) : (∀ (r : MethodRef) (m : Method),
      ((∃ fault q, ((ofMethod context r m).run p : Except Error Cfg × σ × Trail) =
          (.error (.construction (context.program.nameOfMethod m) fault), q)) ↔ m.body.unknowns ≠ []) ∧
      (∀ e q, ((ofMethod context r m).run p : Except Error Cfg × σ × Trail) = (.error e, q) →
      ∃ tag ∈ m.body.unknowns,
          e = .construction (context.program.nameOfMethod m) (.unknownStatement tag)) ∧
      (∀ c q, ((ofMethod context r m).run p : Except Error Cfg × σ × Trail) = (.ok c, q) →
        c.LeadsOut ∧ (m.body.singleDefaults = true →
          c.LeadsIn ∧ ∀ s : σ × Trail, (c.validate.run s : Except Error Unit × σ × Trail) = (.ok (), s)))) ∧
    (∀ (r : FieldRef) (f : Field), ∃ c q,
      ((ofField context r f).run p : Except Error Cfg × σ × Trail) = (.ok c, q) ∧ c.LeadsOut ∧ c.LeadsIn ∧
        ∀ s : σ × Trail, (c.validate.run s : Except Error Unit × σ × Trail) = (.ok (), s)) := by
  constructor
  · intro r m
    have hends := ends_ofMethod context r m p
    have hfail : ∀ e q, (ofMethod context r m).run p = (.error e, q) →
        Stuck (scopeOf context m) m.body.unknowns e :=
      fun e q hrun => ((ends_iff_of_error hrun).1 hends).2
    refine ⟨⟨?_, fun hunknown => ?_⟩, hfail, fun c q hrun => ?_⟩
    · rintro ⟨fault, q, hrun⟩
      obtain ⟨tag, htag, -⟩ := hfail _ q hrun
      exact ne_nil_of_mem htag
    · rcases hrun : (ofMethod context r m).run p with ⟨e | c, q⟩
      · obtain ⟨tag, -, rfl⟩ := hfail e q hrun
        exact ⟨.unknownStatement tag, q, rfl⟩
      · obtain ⟨u, -, hmethod, -⟩ := (ends_iff_of_run hrun).1 hends
        exact absurd hmethod.mirrors.known hunknown
    · obtain ⟨u, hrealizes, hmethod, -⟩ := (ends_iff_of_run hrun).1 hends
      refine ⟨hrealizes.leadsOut, fun hsingle => ?_⟩
      have hin := hrealizes.leadsIn (hmethod.mirrors.defaults hsingle)
      exact ⟨hin, hin.validate_run hrealizes.coherent hrealizes.exit_mem⟩
  · intro r f
    obtain ⟨c, q, hrun, u, hrealizes, hfield, -⟩ := (ends_ofField context r f p).exists_run
    obtain ⟨l, hbody⟩ := hfield.body
    have hin := hrealizes.leadsIn (by rw [hbody]; rfl)
    exact ⟨c, q, hrun, hrealizes.leadsOut, hin, hin.validate_run hrealizes.coherent hrealizes.exit_mem⟩

end Cfg

end ProgramDependence
