import ProgramDependence.Proofs.UnitImages

/-!
# Built alone and built in company

A unit that is built among others has the ids that were left when its turn came, and its dependences
are drawn when the flow graphs of all others are there.  So the ids of its flow graph are moved by
one amount and those of its dependences by a larger one, and neither move changes the order.  What
comes out is a replica of what comes out when the unit is built alone, from whatever state and under
whatever numbering (`Cfg.AsAlone`, `Pdg.AsAlone`).
-/

namespace ProgramDependence

open Tracked

/-! ## Moving ids -/

/-- A map of ids that keeps their order. -/
def Increasing (f : Id → Id) : Prop :=
  ∀ i j, i < j → f i < f j

/-- Ids before one are moved by one amount, the others by another. -/
def moved (mid : Id) (early late : Int) (i : Id) : Id :=
  if i < mid then i + early else i + late

theorem moved_of_lt {mid i : Id} (early late : Int) (h : i < mid) : moved mid early late i = i + early :=
  if_pos h

theorem moved_of_le {mid i : Id} (early late : Int) (h : mid ≤ i) : moved mid early late i = i + late :=
  if_neg (Int.not_lt.2 h)

theorem increasing_moved (mid : Id) {early late : Int} (h : early ≤ late) :
    Increasing (moved mid early late) := by
  intro i j hij
  by_cases hi : i < mid
  · by_cases hj : j < mid
    · rw [moved_of_lt early late hi, moved_of_lt early late hj]
      exact Int.add_lt_add_right hij early
    · rw [moved_of_lt early late hi, moved_of_le early late (Int.not_lt.1 hj)]
      exact Int.add_lt_add_of_lt_of_le hij h
  · have hi' := Int.not_lt.1 hi
    rw [moved_of_le early late hi', moved_of_le early late (Int.le_trans hi' (Int.le_of_lt hij))]
    exact Int.add_lt_add_right hij late

/-! ## Flow graphs -/

namespace Cfg

/-- One flow graph is another one under new ids in the order of the old ones, which come from
another numbering. The indices of both list their edges. -/
structure Replica (numbering : Nat) (c c' : Cfg) : Prop where
  coherent : c.toGraph.Coherent
  coherent' : c'.toGraph.Coherent
  image : ∃ f, Increasing f ∧ (c.under numbering).Image f c'

variable {σ τ : Type} {context : Context} {u : UnitRef} {p q : σ × Trail} {c : Cfg}

/-- A unit that is built can be built from every other state and under every other numbering; the
ids differ by one amount. -/
theorem ends_ofUnit_elsewhere (hrun : (ofUnit context u).run p = (.ok c, q))
    (numbering : Nat) (p' : τ × Trail) : Returns (ofUnit (context.under numbering) u) p'
      fun c' q' => c = (c'.under context.numbering).rename (.shift (p.2.next - p'.2.next)) ∧
        q.2.next = q'.2.next + (p.2.next - p'.2.next) := by
  apply (endsShifted_ofUnit (context.under numbering) u context.numbering p' p).mono
  · exact fun c' q' hc' => (ends_iff_of_run hrun).1 hc'
  · exact fun e q' he => (ends_iff_of_run hrun).1 he

/-- A unit that is refused is refused from every other state and under every other numbering, for
the same reason. -/
theorem ends_ofUnit_refused {name : String} {fault : FlowFault}
    (hrun : (ofUnit context u).run p = (.error (.construction name fault), q))
    (numbering : Nat) (p' : τ × Trail) :
    Ends (ofUnit (context.under numbering) u) p' (fun _ _ => False)
    (fun e _ => e = .construction name fault) := by
  have hshifted := (ends_iff_of_error hrun).1 (endsShifted_ofUnit context u numbering p p')
  exact hshifted.mono (fun _ _ hbad => hbad) fun e _ he => he.1 name fault rfl

/-- A flow graph is a replica of the one that building the unit alone gives, from whatever state and
under whatever numbering. -/
def AsAlone (context : Context) (u : UnitRef) (c : Cfg) : Prop :=
  ∀ {τ : Type} (numbering : Nat) (p : τ × Trail), Returns (ofUnit (context.under numbering) u) p
    (fun c₀ _ => c₀.Replica context.numbering c)

/-- **The flow graph of a unit does not depend on when it is built.** -/
theorem asAlone_of_run (hrun : (ofUnit context u).run p = (.ok c, q)) :
    c.AsAlone context u := by
  intro τ numbering p'
  apply ((ends_ofUnit_elsewhere hrun numbering p').and (ends_ofUnit_coherent _ u p')).mono
  · rintro c₀ _ ⟨⟨hc, -⟩, hcoherent⟩
    refine ⟨hcoherent, (ends_iff_of_run hrun).1 (ends_ofUnit_coherent context u p), _,
      (Renaming.shift (p.2.next - p'.2.next)).node_lt, ?_⟩
    rw [hc]
    exact (c₀.under context.numbering).image_shift _
  · exact fun _ _ hbad => hbad.1

theorem renamed_under (c : Cfg) (numbering : Nat) (δ : Int) :
    Renamed (.shift δ) c ((c.under numbering).rename (.shift δ)) := by
  have h := renamed_rename (.shift δ) (c.under numbering)
  exact ⟨h.nodes_eq, h.edges_eq, h.edgesOutOf_eq, h.edgesInto_eq, h.entry_eq, h.exit_eq⟩

end Cfg

/-! ## Dependence graphs -/

namespace Pdg

/-- A dependence graph over a flow graph whose ids come from another numbering. -/
def under (d : Pdg) (numbering : Nat) : Pdg :=
  { d with cfg := d.cfg.map (·.under numbering) }

/-- One dependence graph is another one under new ids in the order of the old ones, and so is its
flow graph, whose ids come from another numbering.  The indices of both list their edges. -/
structure Replica (numbering : Nat) (d d' : Pdg) : Prop where
  coherent : d.toGraph.Coherent
  coherent' : d'.toGraph.Coherent
  image : ∃ f, Increasing f ∧ (d.under numbering).Image f d'

variable {context : Context} {c : Cfg} {d d' : Pdg} {lo mid : Id} {δ : Int}

theorem Derived.joint_mem (h : Derived context c d) (hc : c.Copyable) {e : Edge} (he : e ∈ d.edges) :
    e.src ∈ c.nodeIds ∧ e.dst ∈ c.nodeIds ∧ ∀ i ∈ e.label.refs, i ∈ c.nodeIds := by
  refine ⟨h.nodeIds_subset hc.entry_mem _ (h.coherent.src_mem e he),
    h.nodeIds_subset hc.entry_mem _ (h.coherent.dst_mem e he), fun i hi => ?_⟩
  obtain ⟨k, hk, hback⟩ := h.closes_of_mem_refs hc.coherent e he i hi
  exact hc.loops k hk i hback

theorem Laid.image_moved {numbering : Nat} (h : Laid context c mid d)
    (h' : Laid context ((c.under numbering).rename (.shift δ)) lo d') (hc : c.Copyable)
    (hbelow : ∀ i ∈ c.mentions, i < mid) : (d.under numbering).Image (moved mid δ (lo - mid)) d' := by
  have hmoved : ∀ i ∈ c.mentions, moved mid δ (lo - mid) i = i + δ :=
    fun i hi => moved_of_lt δ (lo - mid) (hbelow i hi)
  have hgraph : ∀ {i}, i ∈ c.toGraph.mentions → i ∈ c.mentions := by
    intro i hi
    simp only [Cfg.mentions, List.mem_append]
    exact .inr (.inr (.inl hi))
  have hnode : ∀ i ∈ c.nodeIds, moved mid δ (lo - mid) i = i + δ :=
    fun i hi => hmoved i (hgraph (c.toGraph.nodeIds_subset_mentions hi))
  have hcfg : (c.under numbering).Image (moved mid δ (lo - mid)) ((c.under numbering).rename (.shift δ)) :=
    ((c.under numbering).image_shift δ).congr hmoved
  have hrenamed := c.renamed_under numbering δ
  have hjoints : d'.edges.map Edge.joint =
      (d.edges.map Edge.joint).map (Edge.mapJoint (moved mid δ (lo - mid))) := by
    rw [Derived.joints_rename hrenamed h.toDerived h'.toDerived, List.map_map, List.map_map]
    apply List.map_congr_left
    intro e he
    obtain ⟨hsrc, hdst, hrefs⟩ := h.toDerived.joint_mem hc he
    simp only [Function.comp_apply, Edge.joint, Edge.mapJoint, hnode _ hsrc, hnode _ hdst,
      EdgeLabel.mapIds_congr fun i hi => hnode i (hrefs i hi)]
    rfl
  have hlength : d'.edges.length = d.edges.length := by
    have hsame := congrArg List.length hjoints
    simpa using hsame
  refine ⟨⟨?_, ?_, ?_⟩, ?_, ?_, ?_⟩
  · exact h'.frame_eq.trans h.frame_eq.symm
  · rw [h'.nodes_eq, hrenamed.nodesOf_eq, show (d.under numbering).nodes = d.nodes from rfl, h.nodes_eq]
    apply List.map_congr_left
    intro n hn
    have hn' := mem_nodes_of_nodesOf hc.entry_mem hn
    exact (Node.mapIds_congr fun i hi => hmoved i (hgraph (Graph.mentions_node hn' hi))).symm
  · apply edges_eq_of_joints hjoints
    rw [h'.ids_eq, h.ids_eq, hlength, List.map_map]
    apply List.map_congr_left
    intro k _
    have hk : mid ≤ mid + (k : Int) := Int.le_add_of_nonneg_right (Int.natCast_nonneg k)
    rw [Function.comp_apply, moved_of_le δ (lo - mid) hk]
    grind
  · rw [h'.entry_eq, show (d.under numbering).entry = d.entry from rfl, h.entry_eq]
    exact hcfg.entry_eq
  · exact h'.name_eq.trans h.name_eq.symm
  · rw [h'.cfg_eq, under, h.cfg_eq]
    exact .some hcfg

/-- A dependence graph is a replica of the one that building the unit alone gives, from whatever
state and under whatever numbering. -/
def AsAlone (context : Context) (u : UnitRef) (d : Pdg) : Prop :=
  ∀ {τ : Type} (numbering : Nat) (p : τ × Trail), Returns (ofUnit (context.under numbering) u) p
    (fun d₀ _ => d₀.Replica context.numbering d)

/-- **The dependence graph of a unit does not depend on when its flow graph is built and when the
dependences are drawn.** -/
theorem Laid.asAlone {σ : Type} {u : UnitRef} {p q : σ × Trail} (hu : context.program.Has u)
    (hrun : (Cfg.ofUnit context u).run p = (.ok c, q)) (h : Laid context c lo d)
    (hle : q.2.next ≤ lo) : d.AsAlone context u := by
  intro τ numbering p'
  have hu' : (context.under numbering).program.Has u := hu
  simp only [ofUnit, ends_bind]
  apply (((Cfg.ends_ofUnit_elsewhere hrun numbering p').and (Cfg.ends_ofUnit_issued _ u p')).and
    (Cfg.ends_ofUnit_readable hu' p')).mono
  · rintro c₀ q' ⟨⟨⟨rfl, hnext⟩, -, hcopyable, hissued⟩, hreadable, -⟩
    have hends : Returns (ofCfg context c₀) q' _ := ends_ofCfg_readable hreadable q'
    apply hends.always
    rintro d₀ r ⟨hlaid, -⟩
    have hbelow : ∀ i ∈ c₀.mentions, i < q'.2.next := by
      intro i hi
      obtain ⟨x, hx, rfl⟩ := List.mem_map.1 (hcopyable.mentions_subset hi)
      exact (hissued.bounds x hx).2
    refine ⟨hlaid.coherent, h.coherent, _, increasing_moved q'.2.next ?_,
      hlaid.image_moved h hcopyable hbelow⟩
    grind
  · exact fun _ _ hbad => hbad.1.1

end Pdg

end ProgramDependence
