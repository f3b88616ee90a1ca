import ProgramDependence.Proofs.Passage

/-!
# Built flow graphs

A flow graph that realizes a plan has, apart from ids, the edges of the plan, and a fall-through
edge that was left out has another one of the same ends.  So its steps are those of the plan, its
exit is reached, and building a unit fails only where lowering does.
-/

namespace ProgramDependence

namespace Cfg

namespace Realizes

variable {c : Cfg} {u : Plan}

variable (h : c.Realizes u)
include h

theorem coherent : c.Coherent := by
  obtain ⟨next, hfit⟩ := h.fit
  exact hfit.growing.coherent

theorem nodup : (u.nodes.map (·.id)).Nodup := by
  rw [← (h.tokens_perm.map _).nodup_iff, ← Graph.nodeIds_eq_tokens]
  exact h.coherent.nodup_nodes

theorem mem_nodeIds {id : Id} : id ∈ c.nodeIds ↔ id ∈ u.nodes.map (·.id) := by
  rw [Graph.nodeIds_eq_tokens, (h.tokens_perm.map _).mem_iff]

theorem entry_id : c.entry.id = u.entry.id :=
  congrArg Token.id h.entry_eq

theorem exit_id : c.exit.id = u.exit.id :=
  congrArg Token.id h.exit_eq

theorem wire_mem {e : Edge} (he : e ∈ c.edges) : e.wire ∈ u.wires :=
  (h.wires.mem_or_planned (List.mem_map_of_mem he)).resolve_left (by simp)

theorem exists_edge {w : Wire} (hw : w ∈ u.wires) :
    ∃ e ∈ c.edges, e.src = w.src ∧ e.dst = w.dst ∧ (e.wire = w ∨ w.sort = .fallThrough) := by
  obtain ⟨added, hwires, -, hall⟩ := h.wires
  rw [List.nil_append] at hwires
  rcases hall w hw with hmem | ⟨hfall, x, hx, hsrc, hdst⟩
  · obtain ⟨e, he, rfl⟩ := List.mem_map.1 (hwires ▸ hmem)
    exact ⟨e, he, rfl, rfl, .inl rfl⟩
  · obtain ⟨e, he, rfl⟩ := List.mem_map.1 hx
    exact ⟨e, he, hsrc, hdst, .inr hfall⟩

/-- The edges lead where the wires do. -/
theorem arrow_iff {a b : Id} : c.Arrow (fun _ => true) a b ↔ Along u.wires anyTag a b := by
  constructor
  · rintro ⟨e, he, -, rfl, rfl⟩
    exact .of_mem (h.wire_mem he) trivial
  · rintro ⟨w, hw, -, rfl, rfl⟩
    obtain ⟨e, he, hsrc, hdst, -⟩ := h.exists_edge hw
    exact ⟨e, he, rfl, hsrc, hdst⟩

theorem arrow_eq : c.Arrow (fun _ => true) = Along u.wires anyTag := by
  funext a b
  exact propext h.arrow_iff

theorem exit_mem_reachable : c.exit.id ∈ c.reachable c.entry.id true true none := by
  refine mem_reachable h.coherent ?_
  rw [h.arrow_eq, h.entry_id, h.exit_id]
  exact u.entry_leads trivial

end Realizes

open Tracked

/-- A flow graph realizes a plan of its method. -/
theorem ends_ofMethod {σ : Type} (context : Context) (r : MethodRef) (m : Method) (p : σ × Trail) :
    Ends (ofMethod context r m) p (fun c _ => ∃ u, c.Realizes u ∧ u.OfMethod (scopeOf context m) r m ∧
        u.entry.label = ⟨.entry (methodScope m.kind), .method r⟩ ∧
        u.exit.label = ⟨.exit (methodScope m.kind), .method r⟩)
      (fun e _ => m.body.isRegular = false ∧ Lowering.Stuck (scopeOf context m) m.body.unknowns e) := by
  refine (ends_build (fun hp => ends_lowerMethod r m hp) p).mono (fun _ _ h => h) ?_
  rintro e _ (h | ⟨c, u, hrealizes, hexit⟩)
  · refine ⟨?_, h⟩
    obtain ⟨tag, htag, -⟩ := h
    by_contra hregular
    rw [m.body.unknowns_eq_nil (by simpa using hregular)] at htag
    cases htag
  · exact absurd hrealizes.exit_mem_reachable hexit

theorem exists_ofMethod {σ : Type} (context : Context) (r : MethodRef) {m : Method}
    (hregular : m.body.isRegular = true) (p : σ × Trail) :
    ∃ c q, (ofMethod context r m).run p = (.ok c, q) ∧ c.Coherent := by
  obtain ⟨c, q, hrun, u, hrealizes, -⟩ := Tracked.Ends.exists_run
    ((ends_ofMethod context r m p).mono (fun _ _ h => h) fun _ _ h => by simp [hregular] at h)
  exact ⟨c, q, hrun, hrealizes.coherent⟩

theorem ends_ofField {σ : Type} (context : Context) (r : FieldRef) (f : Field) (p : σ × Trail) :
    Returns (ofField context r f) p
      fun c _ => ∃ u, c.Realizes u ∧ u.OfField ∧ ∃ sort, u.entry.label = ⟨.entry sort, .field r⟩ ∧
        u.exit.label = ⟨.exit sort, .field r⟩ := by
  refine (ends_build (fun hp => ends_lowerField r f hp) p).mono ?_ ?_
  · rintro c _ ⟨u, hrealizes, hfield, hlabels⟩
    exact ⟨u, hrealizes, hfield, _, hlabels⟩
  · rintro _ _ (h | ⟨c, u, hrealizes, hexit⟩)
    · exact h
    · exact absurd hrealizes.exit_mem_reachable hexit

end Cfg

end ProgramDependence
