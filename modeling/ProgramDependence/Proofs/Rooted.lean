import ProgramDependence.Proofs.Partition

/-!
# Everything hangs under the entry

Where the entry of a flow graph leads to every node, it leads to every node of the dependence graph
by control dependence as well.  A node that is not always executed is controlled by a branch **on
the way to it**: on a walk from the entry there is a last step before the node is bound to be met,
and what takes this step is a branch (`ControlDependence.exists_controller`).  The branch is met
earlier on the walk, so the walk to it is shorter, and following controllers back ends at the entry
(`Pdg.built_rooted`).

The dependences of branches may fall through; but every node other than the entry also has a true or
false dependence, as the entry controls what nothing else does.
-/

namespace ProgramDependence

open List Tracked

namespace ControlDependence

variable {settings : Settings} {c : Cfg} {u : Plan} {ids : List Id}

theorem branch_of_step (h : c.Realizes u) {m n k : Id} (hstep : c.Flow m k)
    (hbefore : ¬ PostDominates c.Flow c.exit.id n m) (hafter : PostDominates c.Flow c.exit.id n k) :
    1 < (c.edgesOutOf m).length := by
  obtain ⟨e, he, -, hsrc, hdst⟩ := hstep
  have hmem : e ∈ c.edgesOutOf m := h.coherent.mem_edgesOutOf.2 ⟨he, hsrc⟩
  by_contra hfew
  apply hbefore
  intro xs hwalk
  cases hwalk with
  | stay =>
    -- no edge leaves the exit
    rw [map_eq_nil_iff.1 h.sortsOut_exit] at hmem
    cases hmem
  | @go _ y _ xs head tail =>
    obtain ⟨f, hf, -, hfsrc, hfdst⟩ := head
    have hfmem : f ∈ c.edgesOutOf m := h.coherent.mem_edgesOutOf.2 ⟨hf, hfsrc⟩
    rw [Cfg.eq_singleton_of_mem hmem hfew, mem_singleton] at hfmem
    have heq : y = k := by
      rw [← hfdst, ← hdst, hfmem]
    exact mem_cons_of_mem _ (hafter xs (heq ▸ tail))

/-- **A node is controlled by the entry, or by a branch on the way to it.** -/
theorem exists_controller (h : c.Proper u) (hfall : settings.excludeFallThroughCd.truthy = false)
    {n : Id} {xs : List Id} (hwalk : Walk c.Flow c.entry.id xs n) (hn : n ∈ ids) (hne : n ≠ c.entry.id) :
    OfEntry c ids ⟨c.entry.id, n, .controlTrue⟩ ∨ ∃ m ∈ xs, ∃ sort, OfBranch settings c ids ⟨m, n, sort⟩ := by
  obtain ⟨e, hfirst⟩ := h.edgesOutOf_entry h.fits
  by_cases halways : PostDominates c.Flow c.exit.id n e.dst
  · left
    exact ⟨rfl, ⟨hn, hne⟩, ⟨e, by rw [hfirst]; exact mem_singleton_self e, halways⟩, rfl⟩
  · right
    have hstart : ¬ PostDominates c.Flow c.exit.id n c.entry.id := by
      intro hdom
      have hmem : e ∈ c.edgesOutOf c.entry.id := by
        rw [hfirst]
        exact mem_singleton_self e
      obtain ⟨he, hsrc⟩ := h.coherent.mem_edgesOutOf.1 hmem
      exact halways (hdom.of_step hne ⟨e, he, rfl, hsrc, rfl⟩)
    obtain ⟨m, k, hm, -, hbefore, hafter, hstep⟩ := hwalk.enters hstart (.refl n)
    have hbranch := branch_of_step h.toRealizes hstep hbefore hafter
    have hmn : n ≠ m := fun heq => hbefore (heq ▸ .refl n)
    have hentry : m ≠ c.entry.id := by
      intro heq
      rw [heq, hfirst] at hbranch
      simp at hbranch
    obtain ⟨f, hf, -, hsrc, rfl⟩ := hstep
    have hfmem : f ∈ c.edgesOutOf m := h.coherent.mem_edgesOutOf.2 ⟨hf, hsrc⟩
    have hsort : f.flowSort?.map sortOf = some (sortOf f.wire.sort) := by
      rw [h.flowSort?_eq hf]
      rfl
    exact ⟨m, hm, sortOf f.wire.sort, ⟨hentry, hbranch⟩, ⟨hn, hmn⟩, ⟨f, hfmem, hsort, hafter⟩, hbefore,
      fun _ => hfall⟩

end ControlDependence

namespace Pdg

open ControlDependence

variable {context : Context} {c : Cfg} {u : Plan} {d : Pdg}

/-- A step along a control dependence. -/
abbrev Controls (d : Pdg) : Id → Id → Prop :=
  d.Arrow fun e => e.dependenceSort?.any (·.isControl)

/-- Every node hangs under the entry by control dependence, and all but the entry by a true or false
one. -/
structure Rooted (d : Pdg) : Prop where
  reached : ∀ n ∈ d.nodeIds, Relation.ReflTransGen d.Controls d.entry.id n
  held : ∀ n ∈ d.nodeIds, n ≠ d.entry.id →
    ∃ e ∈ d.edgesInto n, e.isSort .controlTrue = true ∨ e.isSort .controlFalse = true

theorem exists_edge_of_controlLink {l : Link} (hl : l ∈ d.controlLinks) :
    d.Controls l.src l.dst ∧ ∃ e ∈ d.edges, e.dst = l.dst ∧ e.isSort l.sort = true := by
  obtain ⟨e, he, hlink⟩ := mem_filterMap.1 hl
  obtain ⟨hedge, hcontrol⟩ := mem_filter.1 he
  obtain ⟨sort, hsort, rfl⟩ := Option.map_eq_some_iff.1 hlink
  exact ⟨⟨e, hedge, hcontrol, rfl, rfl⟩, e, hedge, rfl, decide_eq_true hsort⟩

theorem ControlExact.held (h : d.ControlExact context.settings c) (hd : d.toGraph.Coherent) {n : Id}
    (hn : n ∈ d.nodeIds) (hne : n ≠ c.entry.id) :
    ∃ e ∈ d.edgesInto n, e.isSort .controlTrue = true ∨ e.isSort .controlFalse = true := by
  obtain ⟨l, hl, hdst, hsort⟩ : ∃ l ∈ d.controlLinks, l.dst = n ∧
      (l.sort = .controlTrue ∨ l.sort = .controlFalse) := by
    by_cases hcontrolled : Controlled context.settings c d.nodeIds n
    · obtain ⟨l, hdst, hsort, hl⟩ := hcontrolled
      exact ⟨l, (h.mem_iff l).2 (hl.imp_right .inl), hdst, hsort⟩
    · refine ⟨⟨c.entry.id, n, .controlTrue⟩, (h.mem_iff _).2 ?_, rfl, .inl rfl⟩
      by_cases halways : OfEntry c d.nodeIds ⟨c.entry.id, n, .controlTrue⟩
      · exact .inr (.inr (.inl halways))
      · exact .inr (.inr (.inr ⟨rfl, ⟨hn, hne⟩, halways, hcontrolled, rfl⟩))
  obtain ⟨-, e, he, hedst, hesort⟩ := exists_edge_of_controlLink hl
  refine ⟨e, hd.mem_edgesInto.2 ⟨he, hedst.trans hdst⟩, ?_⟩
  rcases hsort with hsort | hsort
  · exact .inl (hsort ▸ hesort)
  · exact .inr (hsort ▸ hesort)

theorem Derived.reached (h : c.Proper u) (hd : Derived context c d)
    (hfall : context.settings.excludeFallThroughCd.truthy = false) {n : Id} {xs : List Id}
    (hwalk : Walk c.Flow c.entry.id xs n) (hn : n ∈ d.nodeIds) :
    Relation.ReflTransGen d.Controls c.entry.id n := by
  have hexact := hd.controlExact h
  -- the branch that controls a node is met earlier on the walk
  induction hlength : xs.length using Nat.strongRecOn generalizing n xs with
  | ind length ih =>
    by_cases hne : n = c.entry.id
    · rw [hne]
    · rcases exists_controller h hfall hwalk hn hne with hentry | ⟨m, hm, sort, hbranch⟩
      · exact .single (exists_edge_of_controlLink ((hexact.mem_iff _).2 (.inr (.inr (.inl hentry))))).1
      · obtain ⟨ys, zs, rfl, hys, hzs⟩ := hwalk.cut (mem_append_left _ hm)
        have hshorter : ys.length < length := by
          cases hzs with
          | stay => exact absurd rfl hbranch.target.2
          | go =>
            rw [← hlength, length_append, length_cons]
            omega
        have hcontrols := (exists_edge_of_controlLink ((hexact.mem_iff _).2 (.inl hbranch))).1
        have hmem : m ∈ d.nodeIds := by
          obtain ⟨e, he, -, rfl, -⟩ := hcontrols
          exact hd.coherent.src_mem e he
        exact (ih ys.length hshorter hys hmem rfl).tail hcontrols

theorem Derived.rooted (h : c.Proper u) (hd : Derived context c d) (hin : c.LeadsIn)
    (hfall : context.settings.excludeFallThroughCd.truthy = false) : d.Rooted := by
  constructor
  · intro n hn
    have hmem : n ∈ c.nodeIds := hd.nodeIds_subset h.entry_mem n hn
    obtain ⟨xs, hwalk⟩ := Walk.exists_of_reflTransGen (hin n hmem)
    rw [hd.entry_eq]
    exact hd.reached h hfall hwalk hn
  · intro n hn hne
    rw [hd.entry_eq] at hne
    exact (hd.controlExact h).held hd.coherent hn hne

/-! ## Units -/

/-- The dependence graph of a unit, which is rooted if no switch of the unit has several default
cases. -/
def Hangs (context : Context) (d : Pdg) (unit : UnitRef) : Prop :=
  d.entry.element = .ofUnit unit ∧ (context.program.singleDefaults unit = true → d.Rooted)

section

variable (hfall : context.settings.excludeFallThroughCd.truthy = false)

include hfall

theorem ends_ofCfg_hangs {σ : Type} {unit : UnitRef} (helement : c.entry.element = .ofUnit unit)
    (hc : c.Proper u)
    (hdefaults : context.program.singleDefaults unit = true → u.body.singleDefaults = true) (p : σ × Trail) :
    Ends (ofCfg context c) p (fun d _ => Hangs context d unit) (fun _ _ => True) := by
  apply (ends_ofCfg context c p).partly
  intro d _ hd
  exact ⟨hd.entry_eq ▸ helement, fun hsingle => hd.rooted hc (hc.leadsIn (hdefaults hsingle)) hfall⟩

theorem ends_ofUnit_hangs {σ : Type} (unit : UnitRef) (p : σ × Trail) :
    Ends (ofUnit context unit) p (fun d _ => Hangs context d unit) (fun _ _ => True) := by
  simp only [ofUnit, ends_bind]
  apply (Cfg.ends_ofUnit context unit p).partly
  rintro c q ⟨helement, u, hproper, hdefaults⟩
  exact ends_ofCfg_hangs hfall helement hproper hdefaults q

theorem ends_ofClass_hangs {σ : Type} (r : ClassRef) (p : σ × Trail) :
    Ends (ofClass context r) p (fun a _ => ∀ d ∈ a.1, ∃ unit, Hangs context d unit) (fun _ _ => True) := by
  apply ends_ofClass_forall (Cfg.ends_ofUnit context)
  rintro unit c p ⟨helement, u, hproper, hdefaults⟩
  exact (ends_ofCfg_hangs hfall helement hproper hdefaults p).partly fun _ _ hd => ⟨unit, hd⟩

end

/-- **Every node hangs under the entry by control dependence.**  This holds of the dependence graph
of a method or field, built alone or with its class, unless dependences that fall through are left
out or some switch has several default cases. -/
theorem built_rooted {σ : Type} (context : Context)
    (hfall : context.settings.excludeFallThroughCd.truthy = false) (p : σ × Trail) :
    (∀ (unit : UnitRef) (d : Pdg) (q : σ × Trail), context.program.singleDefaults unit = true →
      ((ofUnit context unit).run p : Except Error Pdg × σ × Trail) = (.ok d, q) → d.Rooted) ∧
    (∀ (r : ClassRef) (ds : List Pdg) (failures : Table String Error) (q : σ × Trail),
      ((ofClass context r).run p : Except Error (List Pdg × Table String Error) × σ × Trail) =
        (.ok (ds, failures), q) → ∀ d ∈ ds, ∃ unit, d.entry.element = .ofUnit unit ∧
          (context.program.singleDefaults unit = true → d.Rooted)) := by
  constructor
  · intro unit d q hsingle hrun
    exact ((ends_iff_of_run hrun).1 (ends_ofUnit_hangs hfall unit p)).2 hsingle
  · intro r ds failures q hrun
    exact (ends_iff_of_run hrun).1 (ends_ofClass_hangs hfall r p)

/-- In the loop that is left by a jump, the statement behind the jump hangs under it by a dependence
that falls through. -/
theorem leavingLoop_rooted :
    ({ program := leavingProgram } : Context).settings.excludeFallThroughCd.truthy = false ∧
    leavingProgram.singleDefaults (.method ⟨0⟩) = true ∧
    (∃ d q, ((ofUnit { program := leavingProgram } (.method ⟨0⟩)).run ((), { next := 1 }) :
        Except Error Pdg × Unit × Trail) = (.ok d, q) ∧ ⟨7, 9, .controlFall⟩ ∈ d.controlLinks ∧ d.Rooted) ∧
    (∃ ds failures q, ((ofClass { program := leavingProgram } ⟨0⟩).run ((), { next := 1 }) :
        Except Error (List Pdg × Table String Error) × Unit × Trail) = (.ok (ds, failures), q) ∧
      ds.length = 1 ∧ ∀ d ∈ ds, ∃ unit, d.entry.element = .ofUnit unit ∧
        (leavingProgram.singleDefaults unit = true → d.Rooted)) := by
  have hfall : ({ program := leavingProgram } : Context).settings.excludeFallThroughCd.truthy = false := by
    decide
  have hsingle : leavingProgram.singleDefaults (.method ⟨0⟩) = true := by decide
  obtain ⟨hunit, hclass⟩ := built_rooted { program := leavingProgram } hfall ((), { next := 1 })
  refine ⟨hfall, hsingle, ?_, ?_⟩
  · obtain ⟨d, q, hrun, hlink⟩ := (by decide +kernel :
      Returns (ofUnit { program := leavingProgram } (.method ⟨0⟩)) ((), { next := 1 })
        fun d _ => ⟨7, 9, .controlFall⟩ ∈ d.controlLinks).exists_run
    exact ⟨d, q, hrun, hlink, hunit _ d q hsingle hrun⟩
  · obtain ⟨⟨ds, failures⟩, q, hrun, hlength⟩ := (by decide +kernel :
      Returns (ofClass { program := leavingProgram } ⟨0⟩) ((), { next := 1 })
        fun found _ => found.1.length = 1).exists_run
    exact ⟨ds, failures, q, hrun, hlength, hclass _ ds failures q hrun⟩

end Pdg

end ProgramDependence
