import ProgramDependence.Proofs.Images
import ProgramDependence.Proofs.Issued

/-!
# One unit, built twice

The dependence graph of a unit is built the same way from every state: its flow graph comes out the
same with all ids moved by one amount, and the dependences are drawn under the ids that follow.  So
two dependence graphs of one unit are images of each other (`Pdg.Of.exists_image`), and a unit that
is refused is always refused for the same reason (`Pdg.Refuses.eq`).  A dependence graph mentions no
ids but those of its own parts.
-/

namespace ProgramDependence

open List

open Tracked

/-- Two flow graphs of one unit are the same, with all ids moved by one amount. -/
theorem Cfg.eq_of_run {σ τ : Type} {context : Context} {u : UnitRef} {p q : σ × Trail}
    {p' q' : τ × Trail} {c c' : Cfg} (hrun : (ofUnit context u).run p = (.ok c, q))
    (hrun' : (ofUnit context u).run p' = (.ok c', q')) :
    c' = c.rename (.shift (p'.2.next - p.2.next)) ∧ q'.2.next = q.2.next + (p'.2.next - p.2.next) := by
  -- The numbering is that of the context, as comparing the first run with itself shows.
  have hself := endsShifted_ofUnit context u context.numbering p p
  have hother := endsShifted_ofUnit context u context.numbering p p'
  have hnumbering : c.numbering = context.numbering :=
    congrArg Cfg.numbering ((ends_iff_of_run hrun).1 ((ends_iff_of_run hrun).1 hself)).1
  have hunder : c.under context.numbering = c := by
    rw [← hnumbering]
    rfl
  have hboth := (ends_iff_of_run hrun').1 ((ends_iff_of_run hrun).1 hother)
  rw [hunder] at hboth
  exact hboth

theorem Cfg.image_shift (c : Cfg) (δ : Int) : c.Image (· + δ) (c.rename (.shift δ)) :=
  ⟨⟨rfl, rfl, rfl⟩, rfl, rfl, rfl, rfl, rfl, rfl⟩

namespace Pdg

theorem edges_eq_of_joints {f : Id → Id} {es es' : List Edge}
    (hjoints : es'.map Edge.joint = (es.map Edge.joint).map (Edge.mapJoint f))
    (hids : es'.map (·.id) = (es.map (·.id)).map f) : es' = es.map (Edge.mapIds f) := by
  induction es generalizing es' with
  | nil => simpa using hjoints
  | cons e es ih =>
    cases es' with
    | nil => simp at hjoints
    | cons e' es' =>
      simp only [map_cons, List.cons.injEq] at hjoints hids
      rw [map_cons, ih hjoints.2 hids.2]
      obtain ⟨id', src', dst', label'⟩ := e'
      obtain ⟨hjoint, -⟩ := hjoints
      obtain ⟨hid, -⟩ := hids
      simp only [Edge.joint, Edge.mapJoint, Prod.mk.injEq] at hjoint hid
      rw [Edge.mapIds, hid, hjoint.1, hjoint.2.1, hjoint.2.2]

variable {context : Context} {u : UnitRef} {c : Cfg} {d d' : Pdg} {lo : Id} {δ : Int}

/-- The dependence graph of a flow graph that was moved is moved as well. -/
theorem Laid.image (h : Laid context c lo d) (h' : Laid context (c.rename (.shift δ)) (lo + δ) d') :
    d.Image (· + δ) d' := by
  have hrenamed := Cfg.renamed_rename (.shift δ) c
  have hjoints := Derived.joints_rename hrenamed h.toDerived h'.toDerived
  have hlength : d'.edges.length = d.edges.length := by
    have hsame := congrArg List.length hjoints
    simpa using hsame
  refine ⟨⟨?_, ?_, ?_⟩, ?_, ?_, ?_⟩
  · rw [h'.frame_eq, h.frame_eq]
  · rw [h'.nodes_eq, h.nodes_eq, hrenamed.nodesOf_eq]
    rfl
  · apply edges_eq_of_joints hjoints
    rw [h'.ids_eq, h.ids_eq, hlength, map_map]
    apply map_congr_left
    intro k _
    exact Int.add_right_comm _ _ _
  · rw [h'.entry_eq, h.entry_eq]
    rfl
  · rw [h'.name_eq, h.name_eq]
    rfl
  · rw [h'.cfg_eq, h.cfg_eq]
    exact .some (c.image_shift δ)

/-- A dependence graph of a unit is derived from a flow graph of the unit, under the ids that
follow. -/
theorem Of.exists_laid (h : Of context u d) : ∃ c p q,
    ((Cfg.ofUnit context u).run p : Except Error Cfg × BuildCache Pdg × Trail) = (.ok c, q) ∧
      Laid context c q.2.next d := by
  obtain ⟨p, q, hrun⟩ := h
  have hends : Ends (ofUnit context u) p (fun d _ => ∃ c p q,
      ((Cfg.ofUnit context u).run p : Except Error Cfg × BuildCache Pdg × Trail) = (.ok c, q) ∧
        Laid context c q.2.next d) (fun _ _ => True) := by
    simp only [ofUnit, ends_bind]
    apply (ends_run (Cfg.ofUnit context u) p).partly
    intro c r hcfg
    apply (ends_ofCfg_laid context c r).partly
    intro d _ hlaid
    exact ⟨c, p, r, hcfg, hlaid.1⟩
  exact (ends_iff_of_run hrun).1 hends

/-- **Two dependence graphs of one unit are the same, ids apart:** all ids are moved by one amount. -/
theorem Of.exists_image (h : Of context u d) (h' : Of context u d') : ∃ δ : Int, d.Image (· + δ) d' := by
  obtain ⟨c, p, q, hrun, hlaid⟩ := h.exists_laid
  obtain ⟨c', p', q', hrun', hlaid'⟩ := h'.exists_laid
  obtain ⟨rfl, hlast⟩ := Cfg.eq_of_run hrun hrun'
  rw [hlast] at hlaid'
  exact ⟨_, hlaid.image hlaid'⟩

/-- **A unit that is refused is always refused for the same reason.** -/
theorem Refuses.eq {e e' : Error} (hu : context.program.Has u) (h : Refuses context u e)
    (h' : Refuses context u e') : e' = e := by
  -- Only the construction of the flow graph refuses a unit.
  have hflow : ∀ {e}, Refuses context u e → ∃ p q fault,
      ((Cfg.ofUnit context u).run p : Except Error Cfg × BuildCache Pdg × Trail) = (.error e, q) ∧
        e = .construction (context.program.unitName u) fault := by
    rintro e ⟨p, q, hrun⟩
    have hends : Ends (ofUnit context u) p (fun _ _ => True) (fun e _ => ∃ p q fault,
        ((Cfg.ofUnit context u).run p : Except Error Cfg × BuildCache Pdg × Trail) = (.error e, q) ∧
          e = .construction (context.program.unitName u) fault) := by
      simp only [ofUnit, ends_bind]
      apply ((Cfg.ends_ofUnit_readable hu p).and (ends_run (Cfg.ofUnit context u) p)).mono
      · rintro c r ⟨⟨hreadable, -⟩, -⟩
        exact (ends_ofCfg_readable hreadable r).always fun _ _ _ => trivial
      · rintro e r ⟨⟨-, fault, he⟩, hfails⟩
        exact ⟨p, r, fault, hfails, he⟩
    exact (ends_iff_of_error hrun).1 hends
  obtain ⟨p, q, fault, hrun, hfault⟩ := hflow h
  obtain ⟨p', q', -, hrun', -⟩ := hflow h'
  have hshifted := Cfg.endsShifted_ofUnit context u context.numbering p p'
  exact ((ends_iff_of_error hrun').1 ((ends_iff_of_error hrun).1 hshifted)).1 _ _ hfault

end Pdg

/-! ## What a dependence graph mentions -/

namespace Cfg.Copyable

variable {c : Cfg}

theorem mentions_node (h : c.Copyable) {n : Node} (hn : n ∈ c.nodes) : n.mentions ⊆ c.nodeIds :=
  cons_subset.2 ⟨mem_map_of_mem hn, h.refs n hn⟩

theorem mentions_edge (h : c.Copyable) {e : Edge} (he : e ∈ c.edges) : ∀ i ∈ e.mentions, i = e.id ∨
    i ∈ c.nodeIds := by
  have hrefs : ∀ i ∈ e.label.refs, i ∈ c.nodeIds := by
    intro i hi
    apply h.loops e he i
    unfold Edge.loopBack?
    cases hlabel : e.label with
    | flow sort loop =>
      rw [hlabel] at hi
      exact Option.mem_toList.1 hi
    | _ =>
      have hflow := h.flow e he
      rw [Edge.isFlow, hlabel] at hflow
      cases hflow
  exact forall_mem_cons.2 ⟨.inl rfl, forall_mem_cons.2 ⟨.inr (h.coherent.src_mem e he),
    forall_mem_cons.2 ⟨.inr (h.coherent.dst_mem e he), fun i hi => .inr (hrefs i hi)⟩⟩⟩

/-- A flow graph that can be copied mentions the ids of its parts only. -/
theorem mentions_subset (h : c.Copyable) : c.mentions ⊆ c.parts.map Part.id := by
  obtain ⟨rest, hnodes⟩ := h.ends
  have hnode : ∀ n ∈ c.nodes, n.mentions ⊆ c.nodeIds ++ c.edges.map (·.id) := fun n hn =>
    subset_append_of_subset_left _ (h.mentions_node hn)
  have hedge : ∀ e ∈ c.edges, e.mentions ⊆ c.nodeIds ++ c.edges.map (·.id) := by
    intro e he i hi
    rcases h.mentions_edge he i hi with rfl | hi
    · exact mem_append_right _ (mem_map_of_mem he)
    · exact mem_append_left _ hi
  rw [Graph.ids_parts, mentions, h.blocks]
  refine append_subset.2 ⟨hnode _ h.entry_mem, append_subset.2 ⟨hnode _ ?_, append_subset.2
    ⟨append_subset.2 ⟨?_, ?_⟩, nil_subset _⟩⟩⟩
  · rw [hnodes]
    exact mem_cons_of_mem _ mem_cons_self
  · exact flatMap_subset hnode
  · exact flatMap_subset hedge

end Cfg.Copyable

namespace Pdg

variable {context : Context} {u : UnitRef} {c : Cfg} {d : Pdg}

/-- A derived dependence graph mentions the ids of its flow graph and of its own edges. -/
theorem Derived.mentions_subset (h : Derived context c d) (hc : c.Copyable) :
    d.mentions ⊆ d.made.map Part.id := by
  have hover := h.based hc
  have hmade : d.made.map Part.id = c.parts.map Part.id ++ d.edges.map (·.id) := by
    rw [made, hover.flowParts_eq, map_append, Graph.edgeParts, map_map]
    rfl
  have hparts : ∀ i ∈ c.nodeIds, i ∈ c.parts.map Part.id := by
    intro i hi
    rw [Graph.ids_parts]
    exact mem_append_left _ hi
  have hnode : ∀ n ∈ c.nodes, n.mentions ⊆ c.parts.map Part.id ++ d.edges.map (·.id) := fun n hn i hi =>
    mem_append_left _ (hparts i (hc.mentions_node hn hi))
  have hedge : ∀ e ∈ d.edges, e.mentions ⊆ c.parts.map Part.id ++ d.edges.map (·.id) := by
    intro e he
    have hend : ∀ i ∈ d.nodeIds, i ∈ c.parts.map Part.id ++ d.edges.map (·.id) := fun i hi =>
      mem_append_left _ (hparts i (h.nodeIds_subset hc.entry_mem i hi))
    have hrefs : ∀ i ∈ e.label.refs, i ∈ c.parts.map Part.id ++ d.edges.map (·.id) := by
      intro i hi
      obtain ⟨k, hk, hback⟩ := h.closes_of_mem_refs hc.coherent e he i hi
      exact mem_append_left _ (hparts i (hc.loops k hk i hback))
    refine cons_subset.2 ⟨mem_append_right _ (mem_map_of_mem he), cons_subset.2
      ⟨hend _ (h.coherent.src_mem e he), cons_subset.2 ⟨hend _ (h.coherent.dst_mem e he), hrefs⟩⟩⟩
  rw [hmade, mentions, h.entry_eq, h.cfg_eq]
  refine append_subset.2 ⟨hnode _ hc.entry_mem, append_subset.2 ⟨append_subset.2 ⟨?_, ?_⟩, ?_⟩⟩
  · exact flatMap_subset fun n hn => hnode n (hover.nodes hn)
  · exact flatMap_subset hedge
  · exact subset_append_of_subset_left _ hc.mentions_subset

/-- **The dependence graph of a unit mentions the ids of its parts only.** -/
theorem Of.mentions_subset (h : Of context u d) : d.mentions ⊆ d.made.map Part.id := by
  obtain ⟨c, p, q, hrun, hlaid⟩ := h.exists_laid
  have hcopyable := ((ends_iff_of_run hrun).1 (Cfg.ends_ofUnit_copyable context u p)).1
  exact hlaid.toDerived.mentions_subset hcopyable

theorem Image.made_eq {f : Id → Id} {d' : Pdg} (h : d.Image f d') :
    d'.made.map Part.id = (d.made.map Part.id).map f := by
  have hparts : ∀ {g g' : Graph}, Graph.Image f g g' →
    g'.parts.map Part.id = (g.parts.map Part.id).map f := by
    intro g g' himage
    rw [Graph.ids_parts, Graph.ids_parts, himage.nodeIds_eq, himage.edges_eq, map_append, map_map, map_map]
    rfl
  have hflow : ∀ {a a' : Option Cfg}, Option.Rel (Cfg.Image f) a a' →
      ((a'.map (·.parts)).getD []).map Part.id = (((a.map (·.parts)).getD []).map Part.id).map f := by
    intro a a' hrel
    cases hrel with
    | none => rfl
    | some himage => exact hparts himage.toImage
  have hedges : d'.edgeParts.map Part.id = (d.edgeParts.map Part.id).map f := by
    rw [Graph.edgeParts, Graph.edgeParts, h.edges_eq, map_map, map_map, map_map, map_map]
    rfl
  rw [made, made, map_append, map_append, map_append, hedges]
  exact congrArg (· ++ _) (hflow h.cfg)

end Pdg

end ProgramDependence
