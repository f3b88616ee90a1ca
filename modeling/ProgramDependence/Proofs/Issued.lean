import Mathlib.Data.List.Forall2
import Mathlib.Data.List.Perm.Basic
import ProgramDependence.Proofs.CopiedUnits

/-!
# Ids are issued once

The nodes and edges of a graph are its parts.  Parts that were made one after the other have ids
that were issued in between, each for one part (`Issued`).  So it is with the flow graph of a unit,
with a copy, and with the edges of a dependence graph, whose nodes are nodes of its flow graph.
-/

namespace ProgramDependence

open List

open Tracked
variable {g : Graph} {σ : Type} {c : Cfg}

inductive Part where
  | node (n : Node)
  | edge (e : Edge)

def Part.id : Part → Id
  | node n => n.id
  | edge e => e.id

namespace Graph

def edgeParts (g : Graph) : List Part :=
  g.edges.map .edge

def parts (g : Graph) : List Part :=
  g.nodes.map .node ++ g.edgeParts

theorem ids_parts (g : Graph) : g.parts.map Part.id = g.nodeIds ++ g.edges.map (·.id) := by
  rw [parts, edgeParts, map_append, map_map, map_map]
  rfl

theorem node_mem_parts {n : Node} : .node n ∈ g.parts ↔ n ∈ g.nodes := by
  simp [parts, edgeParts]

theorem edge_mem_parts {e : Edge} : .edge e ∈ g.parts ↔ e ∈ g.edges := by
  simp [parts, edgeParts]

theorem parts_subset {xs : List Part} (hnodes : ∀ n ∈ g.nodes, .node n ∈ xs)
    (hedges : ∀ e ∈ g.edges, .edge e ∈ xs) : g.parts ⊆ xs := by
  intro x hx
  cases x with
  | node n => exact hnodes n (node_mem_parts.1 hx)
  | edge e => exact hedges e (edge_mem_parts.1 hx)

end Graph

/-- Parts whose ids were issued from one id on and before another, each for one part. -/
structure Issued (lo hi : Id) (xs : List Part) : Prop where
  le : lo ≤ hi
  nodup : (xs.map Part.id).Nodup
  bounds : ∀ x ∈ xs, lo ≤ x.id ∧ x.id < hi

namespace Issued

variable {lo mid hi : Id} {xs ys zs : List Part}

theorem nil (h : lo ≤ hi) : Issued lo hi [] where
  le := h
  nodup := nodup_nil
  bounds _ hx := absurd hx not_mem_nil

theorem single {x : Part} (h : x.id = lo) : Issued lo (lo + 1) [x] where
  le := Int.le_of_lt (Int.lt_succ lo)
  nodup := nodup_singleton _
  bounds y hy := by
    rw [mem_singleton.1 hy, h]
    exact ⟨Int.le_refl lo, Int.lt_succ lo⟩

theorem append (h : Issued lo mid xs) (h' : Issued mid hi ys) : Issued lo hi (xs ++ ys) where
  le := Int.le_trans h.le h'.le
  nodup := by
    rw [map_append, nodup_append]
    refine ⟨h.nodup, h'.nodup, ?_⟩
    intro i hi j hj
    obtain ⟨x, hx, rfl⟩ := mem_map.1 hi
    obtain ⟨y, hy, rfl⟩ := mem_map.1 hj
    exact Int.ne_of_lt (Int.lt_of_lt_of_le (h.bounds x hx).2 (h'.bounds y hy).1)
  bounds := by
    intro x hx
    rcases mem_append.1 hx with hx | hx
    · exact ⟨(h.bounds x hx).1, Int.lt_of_lt_of_le (h.bounds x hx).2 h'.le⟩
    · exact ⟨Int.le_trans h.le (h'.bounds x hx).1, (h'.bounds x hx).2⟩

theorem perm (h : Issued lo hi xs) (hperm : xs.Perm ys) : Issued lo hi ys where
  le := h.le
  nodup := (hperm.map Part.id).nodup_iff.1 h.nodup
  bounds y hy := h.bounds y (hperm.mem_iff.2 hy)

theorem sublist (h : Issued lo hi xs) (hsub : ys.Sublist xs) : Issued lo hi ys where
  le := h.le
  nodup := h.nodup.sublist (hsub.map Part.id)
  bounds y hy := h.bounds y (hsub.subset hy)

theorem later (h : Issued lo mid xs) (hle : mid ≤ hi) : Issued lo hi xs := by
  have hmore := h.append (.nil hle)
  rwa [append_nil] at hmore

theorem insert (h : Issued lo mid (xs ++ zs)) (h' : Issued mid hi ys) : Issued lo hi (xs ++ ys ++ zs) := by
  apply (h.append h').perm
  rw [append_assoc, append_assoc]
  exact (perm_append_comm).append_left xs

theorem eq_of_id (h : Issued lo hi xs) {x y : Part} (hx : x ∈ xs) (hy : y ∈ xs) (hid : x.id = y.id) : x = y :=
  inj_on_of_nodup_map h.nodup hx hy hid

end Issued

theorem issued_edges {lo hi : Id} (hg : g.Coherent) (hle : lo ≤ hi)
    (hbounds : ∀ e ∈ g.edges, lo ≤ e.id ∧ e.id < hi) : Issued lo hi g.edgeParts where
  le := hle
  nodup := by
    rw [Graph.edgeParts, map_map]
    exact hg.nodup_edges
  bounds := forall_mem_map.2 hbounds

/-! ## Flow graphs -/

namespace Cfg

/-- **The parts of the flow graph of a unit were made while it was built.** -/
theorem ends_ofUnit_issued (context : Context) (unit : UnitRef) (p : σ × Trail) :
    Ends (ofUnit context unit) p (fun c q => q.1 = p.1 ∧ c.Copyable ∧
      Issued p.2.next q.2.next c.parts) (fun _ => Kept p) := by
  apply ((ends_ofUnit_made context unit p).and (ends_ofUnit_copyable context unit p)).mono
  · rintro c q ⟨⟨hstate, hmade⟩, hcopyable, -⟩
    have hnumbered := hmade.numbered
    refine ⟨hstate, hcopyable, hnumbered.le, ?_, ?_⟩
    · rw [Graph.ids_parts]
      exact hcopyable.nodup_keys
    · intro x hx
      cases x with
      | node n => exact hnumbered.nodes n.id (mem_map_of_mem (Graph.node_mem_parts.1 hx))
      | edge e => exact hnumbered.edges e.id (mem_map_of_mem (Graph.edge_mem_parts.1 hx))
  · intro e q hbad
    exact hbad.1

theorem Copyable.entry_mem (h : c.Copyable) : c.entry ∈ c.nodes := by
  obtain ⟨rest, hnodes⟩ := h.ends
  rw [hnodes]
  exact mem_cons_self

/-- **The parts of a copy were made while it was copied.** -/
theorem Copyable.ends_copy_issued (h : c.Copyable) (p : σ × Trail) :
    Returns c.copy p fun r q => q.1 = p.1 ∧ r.1.Copyable ∧ Issued p.2.next q.2.next r.1.parts := by
  apply (h.ends_copy p).imp
  rintro ⟨c', ids⟩ q ⟨⟨hq, hcopied, hfresh⟩, hcopyable, -⟩
  have hids : c'.parts.map Part.id = ids.keys.map ids.newId := by
    rw [Graph.ids_parts, hcopied.nodeIds_eq, hcopied.edges_eq, hcopied.keys_eq, map_append, map_map, map_map]
    rfl
  have hmem : ∀ x ∈ c'.parts, p.2.next ≤ x.id ∧ x.id < q.2.next := by
    intro x hx
    apply hfresh
    have hid : x.id ∈ ids.keys.map ids.newId := hids ▸ mem_map_of_mem hx
    obtain ⟨i, hi, heq⟩ := mem_map.1 hid
    rw [← heq]
    exact mem_map_of_mem (newId_mem hi).2
  refine ⟨by rw [hq], hcopyable, ?_, ?_, hmem⟩
  · have hentry := hmem (.node c'.entry) (Graph.node_mem_parts.2 hcopyable.entry_mem)
    exact Int.le_of_lt (Int.lt_of_le_of_lt hentry.1 hentry.2)
  · rw [Graph.ids_parts]
    exact hcopyable.nodup_keys

/-- **The parts of the flow graphs of several units were made while they were built.** -/
theorem ends_ofUnits_issued (context : Context) (us : List UnitRef) (built : List Cfg)
    (failures : Table String Error) (p : σ × Trail) : Ends (ofUnits context us built failures) p
      (fun r q => q.1 = p.1 ∧ ∃ cs, r.1 = built ++ cs ∧ (∀ c ∈ cs, c.Copyable) ∧
        Issued p.2.next q.2.next (cs.flatMap (·.parts))) (fun _ => Kept p) := by
  induction us generalizing built failures p with
  | nil => exact ⟨rfl, [], (append_nil built).symm, by simp, .nil (Int.le_refl _)⟩
  | cons u us ih =>
    simp only [ofUnits, catching, ends_bind, ends_tryCatch]
    apply (ends_ofUnit_issued context u p).mono
    · rintro c q ⟨hstate, hcopyable, hissued⟩
      apply (ih (built ++ [c]) failures q).since ⟨hstate, hissued.le⟩
      rintro r s ⟨hstate', cs, hr, hcs, hissued'⟩
      refine ⟨hstate'.trans hstate, c :: cs, ?_, forall_mem_cons.2 ⟨hcopyable, hcs⟩, ?_⟩
      · rw [hr, append_assoc, singleton_append]
      · exact hissued.append hissued'
    · rintro e q ⟨hstate, hle⟩
      cases e with
      | construction name fault =>
        simp only [ends_pure]
        refine .since (ih built _ _) ⟨hstate, hle⟩ ?_
        rintro r s ⟨hstate', cs, hr, hcs, hissued⟩
        exact ⟨hstate'.trans hstate, cs, hr, hcs, (Issued.nil hle).append hissued⟩
      | _ => exact ⟨hstate, hle⟩

end Cfg

/-! ## Dependence graphs -/

namespace Pdg

/-- A dependence graph over a flow graph: it has nodes of the flow graph, and edges of its own that
tell nothing about classes. -/
structure Over (c : Cfg) (d : Pdg) : Prop where
  copyable : c.Copyable
  cfg_eq : d.cfg = some c
  entry_eq : d.entry = c.entry
  entry_mem : d.entry ∈ d.nodes
  nodes : d.nodes ⊆ c.nodes
  coherent : d.toGraph.Coherent
  inside : ∀ e ∈ d.edges, e.isSort .classMember = false

theorem Derived.based {context : Context} {d : Pdg} (hd : Derived context c d) (h : c.Copyable) :
    d.Over c where
  copyable := h
  cfg_eq := hd.cfg_eq
  entry_eq := hd.entry_eq
  entry_mem := by
    rw [hd.entry_eq, hd.nodes_eq]
    exact mem_nodesOf h.entry_mem h.coherent.nodup_nodes h.entry_mem (mem_nodeIds_nodesOf.2 (.inl rfl))
  nodes n hn := mem_nodes_of_nodesOf h.entry_mem (hd.nodes_eq ▸ hn)
  coherent := hd.coherent
  inside e he := by
    obtain ⟨s, hs, hderived⟩ := hd.sort_isDerived e he
    rw [Edge.isSort, hs]
    cases s with
    | classMember => cases hderived
    | _ => rfl

def flowParts (d : Pdg) : List Part :=
  (d.cfg.map (·.parts)).getD []

/-- What is made together with a dependence graph: the parts of its flow graph, and its own edges. -/
def made (d : Pdg) : List Part :=
  d.flowParts ++ d.edgeParts

theorem Over.flowParts_eq {d : Pdg} (h : d.Over c) : d.flowParts = c.parts := by
  rw [flowParts, h.cfg_eq]
  rfl

theorem Over.parts_subset {d : Pdg} (h : d.Over c) : d.parts ⊆ d.made := by
  apply Graph.parts_subset
  · intro n hn
    rw [made, h.flowParts_eq]
    exact mem_append_left _ (Graph.node_mem_parts.2 (h.nodes hn))
  · intro e he
    exact mem_append_right _ (mem_map_of_mem he)

/-- **The edges of a dependence graph were made while it was derived.** -/
theorem ends_ofCfg_issued (context : Context) (h : c.Copyable) (p : σ × Trail) :
    Ends (ofCfg context c) p (fun d q => q.1 = p.1 ∧ d.Over c ∧
      Issued p.2.next q.2.next d.edgeParts) (fun _ => Kept p) := by
  apply (ends_ofCfg_laid context c p).mono _ fun _ _ hbad => hbad.2
  rintro d q ⟨hd, ⟨hstate, hle⟩, hnext⟩
  exact ⟨hstate, hd.based h, issued_edges hd.coherent hle (hnext ▸ hd.bounds)⟩

/-- **What is made with the dependence graph of a unit was made while it was built.** -/
theorem ends_ofUnit_issued (context : Context) (unit : UnitRef) (p : σ × Trail) :
    Ends (ofUnit context unit) p (fun d q => q.1 = p.1 ∧ (∃ c, d.Over c) ∧
      Issued p.2.next q.2.next d.made) (fun _ => Kept p) := by
  simp only [ofUnit, ends_bind]
  apply (Cfg.ends_ofUnit_issued context unit p).imp
  rintro c q ⟨hstate, hcopyable, hissued⟩
  apply (ends_ofCfg_issued context hcopyable q).since ⟨hstate, hissued.le⟩
  rintro d r ⟨hstate', hover, hissued'⟩
  refine ⟨hstate'.trans hstate, ⟨c, hover⟩, ?_⟩
  rw [made, hover.flowParts_eq]
  exact hissued.append hissued'

theorem ends_ofCfgs_issued (context : Context) (cs : List Cfg) (hcs : ∀ c ∈ cs, c.Copyable)
    (p : σ × Trail) : Ends (ofCfgs context cs) p (fun ds q => q.1 = p.1 ∧ List.Forall₂ Over cs ds ∧
        Issued p.2.next q.2.next (ds.flatMap (·.edgeParts))) (fun _ => Kept p) := by
  induction cs generalizing p with
  | nil => exact ⟨rfl, .nil, .nil (Int.le_refl _)⟩
  | cons c cs ih =>
    rw [forall_mem_cons] at hcs
    simp only [ofCfgs, ends_bind]
    apply (ends_ofCfg_issued context hcs.1 p).imp
    rintro d q ⟨hstate, hover, hissued⟩
    apply (ih hcs.2 q).since ⟨hstate, hissued.le⟩
    rintro ds r ⟨hstate', hovers, hissued'⟩
    refine ⟨hstate'.trans hstate, .cons hover hovers, ?_⟩
    exact hissued.append hissued'

section

variable {cs : List Cfg} {ds : List Pdg} (h : List.Forall₂ Over cs ds)

include h

theorem flowParts_of_over :
    cs.flatMap (·.parts) = ds.flatMap flowParts := by
  induction h with
  | nil => rfl
  | cons hover _ ih => rw [flatMap_cons, flatMap_cons, hover.flowParts_eq, ih]

theorem exists_over : ∀ d ∈ ds, ∃ c, d.Over c := by
  induction h with
  | nil => simp
  | cons hover _ ih => exact forall_mem_cons.2 ⟨⟨_, hover⟩, ih⟩

end

theorem perm_made (ds : List Pdg) :
    (ds.flatMap flowParts ++ ds.flatMap fun d : Pdg => d.edgeParts).Perm (ds.flatMap made) :=
  flatMap_append_perm ds flowParts fun d => d.edgeParts

/-- **What is made with the dependence graphs of a class was made while they were built**, first the
flow graphs and then the dependences. -/
theorem ends_ofClass_issued (context : Context) (r : ClassRef) (p : σ × Trail) :
      Ends (ofClass context r) p (fun a q => q.1 = p.1 ∧ (∀ d ∈ a.1, ∃ c, d.Over c) ∧ ∃ mid,
        Issued p.2.next mid (a.1.flatMap flowParts) ∧ Issued mid q.2.next (a.1.flatMap (·.edgeParts)))
      (fun _ => Kept p) := by
  simp only [ofClass, ends_bind]
  apply (Cfg.ends_ofUnits_issued context (context.program.memberUnits r) [] {} p).imp
  rintro ⟨built, failures⟩ q ⟨hstate, cs, hbuilt, hcs, hissued⟩
  subst hbuilt
  apply (ends_ofCfgs_issued context built hcs q).since ⟨hstate, hissued.le⟩
  rintro ds r ⟨hstate', hovers, hissued'⟩
  refine ⟨hstate'.trans hstate, exists_over hovers, q.2.next, ?_, hissued'⟩
  rw [← flowParts_of_over hovers]
  exact hissued

/-- **What is made with a copy of a dependence graph was made while it was copied.** -/
theorem Over.ends_copy_issued (context : Context) {d : Pdg} (h : d.Over c) (p : σ × Trail) :
    Ends (d.copy context) p (fun r q => q.1 = p.1 ∧ (∃ c, r.1.Over c) ∧
      Issued p.2.next q.2.next r.1.made) (fun _ => Kept p) := by
  rw [copy, h.cfg_eq]
  simp only [ends_bind]
  apply (h.copyable.ends_copy_issued p).always
  rintro ⟨c', ids⟩ q ⟨hstate, hcopyable, hissued⟩
  apply (ends_ofCfg_issued context hcopyable q).since ⟨hstate, hissued.le⟩
  rintro d' r ⟨hstate', hover, hissued'⟩
  refine ⟨hstate'.trans hstate, ⟨c', hover⟩, ?_⟩
  rw [made, hover.flowParts_eq]
  exact hissued.append hissued'

end Pdg

end ProgramDependence
