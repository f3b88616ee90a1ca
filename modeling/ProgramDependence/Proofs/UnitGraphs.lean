import ProgramDependence.Proofs.Assembly
import ProgramDependence.Proofs.Composed

/-!
# Units that can be built

A flow graph whose edges are edges of control flow and whose calls know their callees can be read by
every analysis, so the dependence graph of a unit is built whenever its flow graph is.  Whether that
is so depends on the unit alone: a method is refused iff a statement of it is of an unknown form,
and a field never is.  A cache that was filled for one program, in which names identify units, hands
out dependence graphs of the units that are asked for.
-/

namespace ProgramDependence

/-! ## Reading a flow graph -/

/-- What the analyses need in order to read a flow graph. -/
structure Cfg.Readable (c : Cfg) : Prop where
  coherent : c.toGraph.Coherent
  flow : ∀ e ∈ c.edges, e.isFlow = true
  calls : ∀ k ∈ c.nodes, k.sort.isCall = true → k.payload.isCall = true

variable {c : Cfg}

theorem Cfg.Readable.isReadable (h : c.Readable) (n : Id) : DataDependence.isReadable c n = true := by
  unfold DataDependence.isReadable
  rw [List.all_eq_true]
  intro e he
  exact h.flow e (h.coherent.mem_edgesOutOf.1 he).1

namespace ControlDependence

theorem fault_ofBranchEdge (tree : Table Id Id) (n : Id) {e : Edge} (he : e.isFlow = true) :
    (ofBranchEdge c tree n e).fault = none := by
  unfold Edge.isFlow at he
  unfold ofBranchEdge
  split at he
  · rename_i hlabel
    rw [hlabel]
    rfl
  · cases he

theorem fault_ofCall {call : Node} (h : call.payload.isCall = true) : (ofCall call).fault = none := by
  unfold ofCall
  cases hpayload : call.payload with
  | call m ins outs x => rfl
  | _ =>
    rw [hpayload] at h
    cases h

/-- The control dependences of a graph that can be read are found. -/
theorem fault_structural (h : c.Readable) (settings : Settings) (g : Graph) :
    (structural settings g c).fault = none := by
  simp only [structural, ofBranches, Findings.fault_select, Findings.fault_append, Findings.fault_ofList,
    Findings.fault_overAll, and_true]
  constructor
  · intro n _ e he
    exact fault_ofBranchEdge _ n (h.flow e (h.coherent.mem_edgesOutOf.1 he).1)
  · intro call hcall
    obtain ⟨hmem, hsort⟩ := List.mem_filter.1 hcall
    exact fault_ofCall (h.calls call hmem hsort)

end ControlDependence

namespace DataDependence

/-- The data dependences of a graph that can be read are found. -/
theorem fault_links (h : c.Readable) (P : Program) (g : Graph) : (links P g c).fault = none := by
  have hpure : c.isPureFlow = true := List.all_eq_true.2 h.flow
  have honward : ∀ v n, isOnwardReadable c v n = true := by
    intro v n
    rw [isOnwardReadable, h.isReadable, Bool.or_true]
  simp only [links, defUse, defOrder, anti, Findings.fault_select, Findings.fault_append,
    Findings.fault_ofList,
    Findings.fault_overAll, Findings.fault_require, List.forall_mem_map, h.isReadable, hpure,
    honward, List.all_eq_true, Bool.or_true, Bool.true_and, and_true, implies_true]

end DataDependence

/-! ## Units -/

/-- The statements of unknown form in a unit. -/
def Program.unknowns (P : Program) : UnitRef → List String
  | .method r => ((P.method? r).map (·.body.unknowns)).getD []
  | .field _ => []

open Tracked

variable {context : Context} {unit : UnitRef}

/-- **A unit is built into a flow graph that can be read, unless a statement of it is of an unknown
form.** -/
theorem Cfg.ends_ofUnit_readable {σ : Type} (hu : context.program.Has unit) (p : σ × Trail) :
    Ends (ofUnit context unit) p
      (fun c _ => c.Readable ∧ context.program.unknowns unit = [] ∧ c.entry.element = .ofUnit unit)
      (fun e _ => context.program.unknowns unit ≠ [] ∧
        ∃ fault, e = .construction (context.program.unitName unit) fault) := by
  have hreadable : Ends (ofUnit context unit) p
      (fun c _ => c.Readable ∧ c.entry.element = .ofUnit unit) (fun _ _ => True) := by
    refine ((ends_ofUnit context unit p).and (ends_ofUnit_made context unit p)).partly ?_
    rintro c q ⟨⟨helement, u, hproper, _⟩, _, hmade⟩
    exact ⟨⟨hproper.coherent, hmade.isFlow, fun k hk hcall => (hmade.forall_nodes lasting_kind k hk).1.trans
      hcall⟩, helement⟩
  cases unit with
  | method r =>
    obtain ⟨m, hm⟩ := Option.isSome_iff_exists.1 hu
    simp only [ofUnit, hm, Program.unknowns, Program.unitName, Program.methodName] at hreadable ⊢
    refine (hreadable.and (ends_ofMethod context r m p)).mono ?_ ?_
    · rintro c q ⟨⟨hread, helement⟩, u, _, hmethod, _⟩
      exact ⟨hread, hmethod.mirrors.known, helement⟩
    · rintro e q ⟨_, _, tag, htag, he⟩
      exact ⟨List.ne_nil_of_mem htag, _, he⟩
  | field r =>
    obtain ⟨f, hf⟩ := Option.isSome_iff_exists.1 hu
    simp only [ofUnit, hf] at hreadable ⊢
    refine (hreadable.and (ends_ofField context r f p)).mono ?_ fun _ _ h => h.2.elim
    rintro c q ⟨⟨hread, helement⟩, _⟩
    exact ⟨hread, rfl, helement⟩

namespace Pdg

/-- The dependence graph of a flow graph that can be read is derived. -/
theorem ends_ofCfg_readable {σ : Type} (h : c.Readable) (p : σ × Trail) :
    Returns (ofCfg context c) p fun d q => Laid context c p.2.next d ∧ Kept p q := by
  apply (ends_ofCfg_laid context c p).mono fun _ _ hd => ⟨hd.1, hd.2.1⟩
  rintro e _ ⟨hfault, -⟩
  rw [ControlDependence.fault_structural h, DataDependence.fault_links h] at hfault
  exact hfault.elim (nomatch ·) (nomatch ·)

/-- **The dependence graph of a unit is built, unless a statement of the unit is of an unknown
form.** -/
theorem ends_ofUnit_known {σ : Type} (hu : context.program.Has unit) (p : σ × Trail) :
    Ends (ofUnit context unit) p
      (fun d _ => context.program.unknowns unit = [] ∧ d.key context.program = context.program.unitName unit)
      (fun e _ => context.program.unknowns unit ≠ [] ∧
        ∃ fault, e = .construction (context.program.unitName unit) fault) := by
  simp only [ofUnit, ends_bind]
  refine (Cfg.ends_ofUnit_readable hu p).imp ?_
  rintro c q ⟨hreadable, hknown, helement⟩
  refine (ends_ofCfg_readable hreadable q).always fun d r hd => ⟨hknown, ?_⟩
  rw [key, hd.1.entry_eq, helement]
  cases unit <;> rfl

/-- A dependence graph of a unit, as it is built from some state. -/
def Of (context : Context) (unit : UnitRef) (d : Pdg) : Prop :=
  ∃ p q, ((ofUnit context unit).run p : Except Error Pdg × BuildCache Pdg × Trail) = (.ok d, q)

/-- The dependence graph of a unit is built from every state. -/
def Builds (context : Context) (unit : UnitRef) : Prop :=
  ∀ p, ∃ d q, ((ofUnit context unit).run p : Except Error Pdg × BuildCache Pdg × Trail) = (.ok d, q)

/-- The dependence graph of a unit is refused for a reason, as it is built from some state. -/
def Refuses (context : Context) (unit : UnitRef) (e : Error) : Prop :=
  ∃ p q, ((ofUnit context unit).run p : Except Error Pdg × BuildCache Pdg × Trail) = (.error e, q)

/-- The flow graph of a unit cannot be constructed, from whatever state. -/
def Raises (context : Context) (unit : UnitRef) : Prop :=
  ∀ p, ∃ name fault q, ((Cfg.ofUnit context unit).run p : Except Error Cfg × BuildCache Pdg × Trail)
    = (.error (.construction name fault), q)

theorem builds_iff (hu : context.program.Has unit) : Builds context unit ↔
    context.program.unknowns unit = [] := by
  constructor
  · intro hbuilds
    obtain ⟨d, q, hrun⟩ := hbuilds ({}, { next := 0 })
    exact ((ends_iff_of_run hrun).1 (ends_ofUnit_known hu _)).1
  · intro hknown p
    have hends := (ends_ofUnit_known hu p).mono (fun _ _ _ => trivial) fun _ _ h => h.1 hknown
    obtain ⟨d, q, hrun, _⟩ := hends.exists_run
    exact ⟨d, q, hrun⟩

theorem raises_iff (hu : context.program.Has unit) : Raises context unit ↔
    context.program.unknowns unit ≠ [] := by
  constructor
  · intro hraises
    obtain ⟨name, fault, q, hrun⟩ := hraises ({}, { next := 0 })
    exact ((ends_iff_of_error hrun).1 (Cfg.ends_ofUnit_readable hu _)).1
  · intro hunknown p
    rcases hrun : (Cfg.ofUnit context unit).run p with ⟨e | c, q⟩
    · obtain ⟨fault, rfl⟩ := ((ends_iff_of_error hrun).1 (Cfg.ends_ofUnit_readable hu p)).2
      exact ⟨_, fault, q, rfl⟩
    · exact absurd ((ends_iff_of_run hrun).1 (Cfg.ends_ofUnit_readable hu p)).2.1 hunknown

namespace Of

variable {d : Pdg}

variable (h : Of context unit d)
include h

/-- Only units that a program declares have graphs. -/
theorem has : context.program.Has unit := by
  obtain ⟨p, q, hrun⟩ := h
  by_contra hnot
  have hends : Ends (ofUnit context unit) p (fun _ _ => False) (fun _ _ => True) := by
    cases unit <;> simp [ofUnit, Cfg.ofUnit, Option.not_isSome_iff_eq_none.1 hnot]
  exact (ends_iff_of_run hrun).1 hends

theorem known :
    context.program.unknowns unit = [] ∧ d.key context.program = context.program.unitName unit := by
  have hu := h.has
  obtain ⟨p, q, hrun⟩ := h
  exact (ends_iff_of_run hrun).1 (ends_ofUnit_known hu p)

theorem builds : Builds context unit :=
  (builds_iff h.has).2 h.known.1

theorem not_raises : ¬ Raises context unit := by
  rw [raises_iff h.has]
  exact fun hunknown => hunknown h.known.1

theorem intact : d.Intact := by
  obtain ⟨p, q, hrun⟩ := h
  exact ((ends_iff_of_run hrun).1 (ends_ofUnit_intact context unit p)).1

end Of

end Pdg

/-! ## Caches of one program -/

namespace BuildCache

/-- A cache that was filled for a program: nothing is in progress, and what is done is there, built
from the unit of that name. -/
structure Sound (context : Context) (cache : BuildCache Pdg) : Prop where
  idle : ∀ name, cache.stateOf name ≠ .inProgress
  done : ∀ name, cache.stateOf name = .done → ∃ u d, context.program.unitName u = name ∧
    cache.get? name = some d ∧ Pdg.Of context u d

theorem sound_empty (context : Context) : Sound context {} :=
  ⟨fun _ => nofun, fun _ => nofun⟩

variable {cache : BuildCache Pdg}

theorem Sound.abandon (h : cache.Sound context) {name : String} (hname : cache.stateOf name = .unvisited)
    (me : Thread) : ((cache.begin name me).abandon name).Sound context := by
  have hstate : ∀ other, ((cache.begin name me).abandon name).stateOf other = cache.stateOf other := by
    intro other
    simp only [BuildCache.begin, BuildCache.abandon, stateOf, Table.find?_erase, Table.find?_insert]
    split
    · rename_i heq
      rw [heq]
      exact hname.symm
    · rfl
  exact ⟨fun other => hstate other ▸ h.idle other, fun other => hstate other ▸ h.done other⟩

theorem Sound.finish (h : cache.Sound context) {d : Pdg} (hd : Pdg.Of context unit d) (me : Thread) :
    ((cache.begin (context.program.unitName unit) me).finish
      (context.program.unitName unit) d).Sound context := by
  constructor
  · intro other
    simp only [BuildCache.begin, BuildCache.finish, stateOf, Table.find?_insert]
    split
    · intro hstate
      cases hstate
    · exact h.idle other
  · intro other
    simp only [BuildCache.begin, BuildCache.finish, stateOf, get?, Table.find?_insert]
    split
    · rename_i heq
      exact fun _ => ⟨unit, d, heq.symm, rfl, hd⟩
    · exact h.done other

end BuildCache

namespace SystemGraph

/-- The graph that is handed out for a unit is one of a unit of that name, and the cache has it. -/
theorem ends_cachedPdg_of {p : BuildCache Pdg × Trail} (h : p.1.Sound context) :
    Ends (cachedPdg context unit) p (fun d q => q.1.Sound context ∧
        q.1.get? (context.program.unitName unit) = some d ∧
        ∃ u, context.program.unitName u = context.program.unitName unit ∧ Pdg.Of context u d)
      (fun e q => q.1.Sound context ∧ (context.program.Has unit → Pdg.Raises context unit ∧
        Pdg.Refuses context unit e ∧ ∃ name fault, e = .construction name fault)) := by
  simp only [cachedPdg, BuildCache.getOrBuild, ends_bind, ends_state, id_eq]
  cases hstate : p.1.stateOf (context.program.unitName unit) with
  | inProgress => exact absurd hstate (h.idle _)
  | done =>
    obtain ⟨u, d, hname, hget, hd⟩ := h.done _ hstate
    simp only [hget]
    exact ⟨h, hget, u, hname, hd⟩
  | unvisited =>
    simp only [ends_bind, ends_tryCatch]
    refine ((Pdg.ends_ofUnit_intact context unit _).and (ends_run _ _)).mono ?_ ?_
    · rintro d q ⟨⟨_, _, hsame, _⟩, hrun⟩
      have hd : Pdg.Of context unit d := ⟨_, q, hrun⟩
      refine ⟨?_, (Table.find?_insert _ _ _ _).trans (if_pos rfl), unit, rfl, hd⟩
      simp only [hsame]
      exact h.finish hd _
    · rintro e q ⟨⟨hsame, _⟩, hrun⟩
      refine ⟨?_, fun hu => ?_⟩
      · simp only [hsame]
        exact h.abandon hstate _
      · obtain ⟨hunknown, fault, he⟩ := (ends_iff_of_error hrun).1 (Pdg.ends_ofUnit_known hu _)
        exact ⟨(Pdg.raises_iff hu).2 hunknown, ⟨_, q, hrun⟩, _, fault, he⟩

end SystemGraph

end ProgramDependence
