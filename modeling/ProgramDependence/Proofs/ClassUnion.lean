import ProgramDependence.Dependence.ClassGraph
import ProgramDependence.Proofs.Issued

/-!
# What a class graph is made of

A class graph has its entry, the nodes and edges of its members side by side, and one edge from the
entry to the entry of each member (`ClassGraph.Unites`).  Members may gain summary edges before they
are taken in; these are edges of the members.  All ids were issued while the class graph was built.
-/

namespace ProgramDependence

open List Graph

open Tracked

/-! ## Conservative summaries -/

namespace Pdg

/-- A dependence graph that gained summary edges under new ids; nothing else changed. -/
structure Summed (p q : Pdg × Trail) : Prop where
  same : q.1 = { p.1 with toGraph := q.1.toGraph }
  nodes_eq : q.1.nodes = p.1.nodes
  coherent : p.1.toGraph.Coherent → q.1.toGraph.Coherent
  edges : ∃ es : List Edge, q.1.edges = p.1.edges ++ es ∧ (∀ e ∈ es, e.isSort .summary = true) ∧
    Issued p.2.next q.2.next (es.map .edge)

namespace Summed

variable {p q r : Pdg × Trail}

theorem refl (p : Pdg × Trail) : Summed p p :=
  ⟨rfl, rfl, fun h => h, [], by simp, by simp, .nil (Int.le_refl _)⟩

theorem trans (h : Summed p q) (h' : Summed q r) : Summed p r where
  same := by
    have hsame := h'.same
    rw [h.same] at hsame
    exact hsame
  nodes_eq := h'.nodes_eq.trans h.nodes_eq
  coherent hp := h'.coherent (h.coherent hp)
  edges := by
    obtain ⟨es, hedges, hsorts, hissued⟩ := h.edges
    obtain ⟨fs, hedges', hsorts', hissued'⟩ := h'.edges
    refine ⟨es ++ fs, ?_, forall_mem_append.2 ⟨hsorts, hsorts'⟩, ?_⟩
    · rw [hedges', hedges, append_assoc]
    · rw [map_append]
      exact hissued.append hissued'

theorem le (h : Summed p q) : p.2.next ≤ q.2.next := by
  obtain ⟨es, -, -, hissued⟩ := h.edges
  exact hissued.le

theorem based (h : Summed p q) {c : Cfg} (hp : p.1.Over c) : q.1.Over c where
  copyable := hp.copyable
  cfg_eq := by
    rw [h.same]
    exact hp.cfg_eq
  entry_eq := by
    rw [h.same]
    exact hp.entry_eq
  entry_mem := by
    have hentry : q.1.entry = p.1.entry := by rw [h.same]
    rw [hentry, h.nodes_eq]
    exact hp.entry_mem
  nodes := by
    rw [h.nodes_eq]
    exact hp.nodes
  coherent := h.coherent hp.coherent
  inside := by
    obtain ⟨es, hedges, hsorts, -⟩ := h.edges
    rw [hedges]
    refine forall_mem_append.2 ⟨hp.inside, fun e he => ?_⟩
    have hsort := of_decide_eq_true (hsorts e he)
    rw [Edge.isSort, hsort]
    rfl

end Summed

theorem Summed.addEdge {d : Pdg} {t : Trail} {g : Graph} {answer : Bool} {src dst : Id} {v : Option Variable}
    (hadd : d.toGraph.addEdge ⟨t.next, src, dst, .dependence .summary v none⟩ = .ok (g, answer)) :
    Summed (d, t) ({ d with toGraph := g }, { t with next := t.next + 1 }) := by
  have hcoherent : d.toGraph.Coherent → g.Coherent := fun hd => hd.addEdge hadd
  rcases addEdge_cases hadd with rfl | ⟨-, rfl⟩
  · exact ⟨rfl, rfl, hcoherent, [], by simp, by simp, .nil (Int.le_of_lt (Int.lt_succ _))⟩
  · exact ⟨rfl, rfl, hcoherent, [_], rfl, forall_mem_singleton.2 rfl, .single rfl⟩

theorem ends_summarize (result : Id) (ains : List Node) (p : Pdg × Trail) :
    Ends (summarize result ains) p (fun _ q => Summed p q) (fun _ q => p.2.next ≤ q.2.next) := by
  induction ains generalizing p with
  | nil => exact .refl p
  | cons ain rest ih =>
    simp only [summarize, ends_bind, ends_freshId, ends_attempt]
    cases hadd : p.1.toGraph.addEdge ⟨p.2.next, ain.id, result, .dependence .summary ain.defs.head? none⟩ with
    | error e => exact Int.le_of_lt (Int.lt_succ _)
    | ok answer =>
      have hfirst := Summed.addEdge hadd
      apply (ih _).mono
      · intro _ q hq
        exact hfirst.trans hq
      · intro _ q hq
        exact Int.le_trans hfirst.le hq

theorem ends_summarizeCalls (calls : List Node) (p : Pdg × Trail) :
    Ends (summarizeCalls calls) p (fun _ q => Summed p q) (fun _ q => p.2.next ≤ q.2.next) := by
  induction calls generalizing p with
  | nil => exact .refl p
  | cons call rest ih =>
    simp only [summarizeCalls, ends_bind, ends_state]
    cases p.1.summaryEnds call with
    | error e => exact Int.le_refl _
    | ok found =>
      cases found with
      | none => exact ih p
      | some ends =>
        simp only [ends_bind]
        apply (ends_summarize ends.1 ends.2 p).imp
        intro _ q hq
        apply (ih q).mono
        · intro _ r hr
          exact hq.trans hr
        · intro _ r hr
          exact Int.le_trans hq.le hr

end Pdg

/-! ## Members -/

namespace ClassGraph

/-- What a class graph consists of: its entry, the members side by side, and one edge from the entry
to the entry of each member. -/
structure Unites (g : ClassGraph) : Prop where
  nodes_eq : g.nodes = g.entry :: g.pdgs.flatMap (·.nodes)
  members_eq : (g.edges.filter fun e => !e.isSort .classMember) = g.pdgs.flatMap (·.edges)
  links_eq : (g.edges.filter (·.isSort .classMember)).map Edge.joint =
    g.pdgs.map fun d => (g.entry.id, d.entry.id, .dependence .classMember none none)
  nodup : (g.parts.map Part.id).Nodup

/-- A class graph that has taken in some members and goes on with others. -/
structure Gathering (lo next : Id) (flows : List Part) (g : ClassGraph) (ds : List Pdg) : Prop where
  growing : g.toGraph.Growing next
  nodes_eq : g.nodes = g.entry :: g.pdgs.flatMap (·.nodes)
  members_eq : (g.edges.filter fun e => !e.isSort .classMember) = g.pdgs.flatMap (·.edges)
  links_eq : (g.edges.filter (·.isSort .classMember)).map Edge.joint =
    g.pdgs.map fun d => (g.entry.id, d.entry.id, .dependence .classMember none none)
  based : ∀ d ∈ g.pdgs ++ ds, ∃ c, d.Over c
  flows_eq : (g.pdgs ++ ds).flatMap Pdg.flowParts = flows
  apart : (g.nodeIds ++ ds.flatMap (·.nodeIds)).Nodup
  issued : Issued lo next (g.edgeParts ++ ds.flatMap (·.edgeParts))

namespace Gathering

variable {lo next : Id} {flows : List Part} {g : ClassGraph} {d d' : Pdg} {ds : List Pdg} {t t' : Trail}

variable (h : Gathering lo t.next flows g (d :: ds))
include h

variable (hsummed : Pdg.Summed (d, t) (d', t'))
include hsummed

/-- A member is merged whole. -/
theorem exists_merged : ∃ merged, g.toGraph.merge d'.toGraph = .ok merged ∧
      merged.nodes = g.nodes ++ d'.nodes ∧ merged.edges = g.edges ++ d'.edges ∧ merged.Growing t'.next := by
  obtain ⟨c, hover⟩ := h.based d (mem_append_right _ mem_cons_self)
  have hcoherent := hsummed.coherent hover.coherent
  obtain ⟨es, hedges, -, hes⟩ := hsummed.edges
  have hnodes : ∀ n ∈ d'.nodes, n.id ∉ g.nodeIds := by
    intro n hn hmem
    rw [hsummed.nodes_eq] at hn
    have hlater : n.id ∈ (d :: ds).flatMap (·.nodeIds) :=
      mem_flatMap.2 ⟨d, mem_cons_self, mem_map_of_mem hn⟩
    exact (nodup_append.1 h.apart).2.2 _ hmem _ hlater rfl
  have hbelow : ∀ e ∈ d'.edges, e.id < t'.next := by
    rw [hedges]
    refine forall_mem_append.2 ⟨fun e he => ?_, fun e he => (hes.bounds _ (mem_map_of_mem he)).2⟩
    have hpart : .edge e ∈ g.edgeParts ++ (d :: ds).flatMap (·.edgeParts) :=
      mem_append_right _ (mem_flatMap.2 ⟨d, mem_cons_self, mem_map_of_mem he⟩)
    exact Int.lt_of_lt_of_le (h.issued.bounds _ hpart).2 hsummed.le
  have hnew : ∀ e ∈ d'.edges, e.id ∉ g.edges.map (·.id) := by
    intro e he hmem
    obtain ⟨k, hk, hid⟩ := mem_map.1 hmem
    rw [hedges] at he
    rcases mem_append.1 he with he | he
    · have hnodup := h.issued.nodup
      rw [map_append, nodup_append] at hnodup
      refine hnodup.2.2 k.id ?_ e.id ?_ hid
      · exact mem_map.2 ⟨.edge k, mem_map_of_mem hk, rfl⟩
      · exact mem_map.2 ⟨.edge e, mem_flatMap.2 ⟨d, mem_cons_self, mem_map_of_mem he⟩, rfl⟩
    · have hlow := (hes.bounds _ (mem_map_of_mem he)).1
      exact Int.ne_of_lt (Int.lt_of_lt_of_le (h.growing.below k hk) hlow) hid
  obtain ⟨merged, hmerge, hnodes', hedges', hfrozen⟩ := merge_eq h.growing.unfrozen hcoherent hnodes hnew
  refine ⟨merged, hmerge, hnodes', hedges', h.growing.coherent.merge hmerge, hfrozen, ?_⟩
  rw [hedges']
  exact forall_mem_append.2 ⟨fun e he => Int.lt_of_lt_of_le (h.growing.below e he) hsummed.le, hbelow⟩

theorem take {merged : Graph} (hnodes : merged.nodes = g.nodes ++ d'.nodes)
    (hedges : merged.edges = g.edges ++ d'.edges) {link : Edge}
    (hlink : link = ⟨t'.next, g.entry.id, d'.entry.id, .dependence .classMember none none⟩)
    (hgrowing : (merged.appendEdge link).Growing (t'.next + 1)) :
    Gathering lo (t'.next + 1) flows
      { g with toGraph := merged.appendEdge link, pdgs := g.pdgs ++ [d'] } ds := by
  obtain ⟨c, hover⟩ := h.based d (mem_append_right _ mem_cons_self)
  have hover' := hsummed.based hover
  have hsort : link.isSort .classMember = true := by
    rw [hlink]
    rfl
  have hinside : ∀ e ∈ d'.edges, (!e.isSort .classMember) = true := by
    intro e he
    rw [hover'.inside e he]
    rfl
  have hall : (merged.appendEdge link).edges = g.edges ++ d'.edges ++ [link] := by rw [appendEdge, hedges]
  obtain ⟨es, hedges', -, hes⟩ := hsummed.edges
  refine ⟨hgrowing, ?_, ?_, ?_, ?_, ?_, ?_, ?_⟩
  · change merged.nodes = _
    rw [hnodes, h.nodes_eq, flatMap_append, flatMap_singleton, cons_append]
  · rw [hall, filter_append, filter_append, h.members_eq, filter_eq_self.2 hinside, flatMap_append,
      flatMap_singleton, filter_singleton, hsort]
    exact append_nil _
  · have hnone : d'.edges.filter (·.isSort .classMember) = [] := by
      rw [filter_eq_nil_iff]
      intro e he hmember
      rw [hover'.inside e he] at hmember
      cases hmember
    rw [hall, filter_append, filter_append, hnone, append_nil, map_append, h.links_eq,
      map_append, filter_singleton, hlink]
    rfl
  · rw [append_assoc, singleton_append]
    have hovers := h.based
    rw [forall_mem_append, forall_mem_cons] at hovers ⊢
    exact ⟨hovers.1, ⟨c, hover'⟩, hovers.2.2⟩
  · have hflow : d'.flowParts = d.flowParts := by rw [hover'.flowParts_eq, hover.flowParts_eq]
    rw [← h.flows_eq, append_assoc, singleton_append, flatMap_append, flatMap_append, flatMap_cons,
      flatMap_cons, hflow]
  · have hapart := h.apart
    rw [flatMap_cons, ← append_assoc] at hapart
    have hids : (merged.appendEdge link).nodeIds = g.nodeIds ++ d.nodeIds := by
      rw [nodeIds_appendEdge, nodeIds, hnodes, map_append, hsummed.nodes_eq]
      rfl
    rw [hids]
    exact hapart
  · have hissued := h.issued
    rw [flatMap_cons, ← append_assoc] at hissued
    have hparts : (merged.appendEdge link).edgeParts =
        g.edgeParts ++ d.edgeParts ++ (es.map .edge ++ [.edge link]) := by
      rw [edgeParts, hall, hedges', map_append, map_append, map_append, append_assoc, append_assoc,
        append_assoc]
      rfl
    have hlast : Issued t'.next (t'.next + 1) [.edge link] := .single (by rw [hlink]; rfl)
    have hmore := hissued.insert (hes.append hlast)
    rw [hparts]
    exact hmore

theorem ends_addPdg : Returns (addPdg d' t'.next) (g, { t' with next := t'.next + 1 })
      fun _ q => Gathering lo q.2.next flows q.1 ds ∧ q.1.pdgs = g.pdgs ++ [d'] ∧
        q.1.failures = g.failures ∧ q.1.entry = g.entry ∧ q.2.next = t'.next + 1 := by
  obtain ⟨merged, hmerge, hnodes, hedges, hgrowing⟩ := h.exists_merged hsummed
  have hids : merged.nodeIds = g.nodeIds ++ d'.nodeIds := by
    rw [nodeIds, hnodes, map_append]
    rfl
  have hsrc : g.entry.id ∈ merged.nodeIds := by
    rw [hids, nodeIds, h.nodes_eq]
    exact mem_append_left _ mem_cons_self
  have hdst : d'.entry.id ∈ merged.nodeIds := by
    obtain ⟨c, hover⟩ := h.based d (mem_append_right _ mem_cons_self)
    rw [hids]
    exact mem_append_right _ (mem_map_of_mem (hsummed.based hover).entry_mem)
  have hadd := addEdge_eq
    (e := ⟨t'.next, g.entry.id, d'.entry.id, .dependence .classMember none none⟩)
    hgrowing.unfrozen hgrowing.not_mem hsrc hdst
  have hgathers := h.take hsummed hnodes hedges rfl (hgrowing.appendEdge hsrc hdst _)
  simp only [addPdg, ends_bind, ends_update, ends_attempt, hmerge]
  simp only [bind, Except.bind, pure, Except.pure, hadd, and_true]
  exact hgathers

end Gathering

/-- **Members are taken in one after the other.** -/
theorem ends_addPdgs (context : Context) {lo : Id} {flows : List Part} (ds : List Pdg)
    {p : ClassGraph × Trail} (h : Gathering lo p.2.next flows p.1 ds) : Ends (addPdgs context ds) p
      (fun _ q => Gathering lo q.2.next flows q.1 [] ∧ q.1.entry = p.1.entry ∧ p.2.next ≤ q.2.next)
      (fun _ q => p.2.next ≤ q.2.next) := by
  induction ds generalizing p with
  | nil => exact ⟨h, rfl, Int.le_refl _⟩
  | cons d ds ih =>
    have hsum : Ends (do
        if context.settings.conservativeSummaries.truthy then
          let _ ← Pdg.addConservativeSummaries) (d, p.2)
        (fun _ q => Pdg.Summed (d, p.2) q) (fun _ q => p.2.next ≤ q.2.next) := by
      split
      · simp only [ends_bind]
        exact (Pdg.ends_summarizeCalls _ _).imp fun _ _ hq => hq
      · exact .refl _
    simp only [addPdgs, ends_bind, ends_within]
    apply hsum.imp
    intro _ q hsummed
    have hle : p.2.next ≤ q.2.next + 1 := Int.le_trans hsummed.le (Int.le_of_lt (Int.lt_succ _))
    apply (h.ends_addPdg hsummed).always
    rintro _ r ⟨hgathers, -, -, hentry, hnext⟩
    rw [← hnext] at hle
    apply (ih hgathers).mono
    · rintro _ s ⟨hs, hentry', hle'⟩
      exact ⟨hs, hentry'.trans hentry, Int.le_trans hle hle'⟩
    · intro _ s hle'
      exact Int.le_trans hle hle'

theorem ids_subset_flowParts {c : Cfg} {d : Pdg} (h : d.Over c) : d.nodeIds ⊆ d.flowParts.map Part.id := by
  intro i hi
  obtain ⟨n, hn, rfl⟩ := mem_map.1 hi
  rw [h.flowParts_eq]
  exact mem_map.2 ⟨.node n, node_mem_parts.2 (h.nodes hn), rfl⟩

theorem ids_subset_flatMap_flowParts {ds : List Pdg} (hovers : ∀ d ∈ ds, ∃ c, d.Over c) :
    ds.flatMap (·.nodeIds) ⊆ (ds.flatMap Pdg.flowParts).map Part.id := by
  intro i hi
  obtain ⟨d, hd, hi⟩ := mem_flatMap.1 hi
  obtain ⟨c, hover⟩ := hovers d hd
  rw [map_flatMap]
  exact mem_flatMap.2 ⟨d, hd, ids_subset_flowParts hover hi⟩

theorem nodup_members {ds : List Pdg} (hovers : ∀ d ∈ ds, ∃ c, d.Over c)
    (hflows : ((ds.flatMap Pdg.flowParts).map Part.id).Nodup) : (ds.flatMap (·.nodeIds)).Nodup := by
  induction ds with
  | nil => exact nodup_nil
  | cons d ds ih =>
    rw [forall_mem_cons] at hovers
    obtain ⟨⟨c, hover⟩, hovers⟩ := hovers
    rw [flatMap_cons, map_append, nodup_append] at hflows
    rw [flatMap_cons, nodup_append]
    refine ⟨hover.coherent.nodup_nodes, ih hovers hflows.2.1, ?_⟩
    intro i hi j hj
    exact hflows.2.2 i (ids_subset_flowParts hover hi) j (ids_subset_flatMap_flowParts hovers hj)

theorem Gathering.start {lo mid next : Id} {entry : Node} {name : String}
    {failures : Table String Error} {ds : List Pdg} (hentry : entry.id = lo)
    (hovers : ∀ d ∈ ds, ∃ c, d.Over c) (hflows : Issued (lo + 1) mid (ds.flatMap Pdg.flowParts))
    (hedges : Issued mid next (ds.flatMap (·.edgeParts))) :
    Gathering mid next (ds.flatMap Pdg.flowParts) { ofEntry entry name with failures } ds where
  growing := ⟨(coherent_empty _).appendNode not_mem_nil, rfl, fun _ he => absurd he not_mem_nil⟩
  nodes_eq := rfl
  members_eq := rfl
  links_eq := rfl
  based := hovers
  flows_eq := rfl
  apart := by
    change ([entry.id] ++ ds.flatMap (·.nodeIds)).Nodup
    rw [singleton_append, nodup_cons]
    refine ⟨fun hmem => ?_, nodup_members hovers hflows.nodup⟩
    obtain ⟨x, hx, hid⟩ := mem_map.1 (ids_subset_flatMap_flowParts hovers hmem)
    have hlow := (hflows.bounds x hx).1
    rw [hid, hentry] at hlow
    exact Int.not_le.2 (Int.lt_succ lo) hlow
  issued := hedges

/-- With all members in, the class graph is their union. -/
theorem Gathering.unites {lo mid next : Id} {flows : List Part} {g : ClassGraph}
    (h : Gathering mid next flows g []) (hentry : g.entry.id = lo)
    (hflows : Issued (lo + 1) mid flows) : g.Unites where
  nodes_eq := h.nodes_eq
  members_eq := h.members_eq
  links_eq := h.links_eq
  nodup := by
    have hovers := h.based
    have hsame := h.flows_eq
    rw [append_nil] at hovers hsame
    have hbelow : ∀ i ∈ g.nodeIds, i < mid := by
      intro i hi
      rw [nodeIds, h.nodes_eq, map_cons, map_flatMap] at hi
      rcases mem_cons.1 hi with rfl | hi
      · rw [hentry]
        exact Int.lt_of_lt_of_le (Int.lt_succ lo) hflows.le
      · obtain ⟨x, hx, rfl⟩ := mem_map.1 (ids_subset_flatMap_flowParts hovers hi)
        rw [hsame] at hx
        exact (hflows.bounds x hx).2
    rw [ids_parts, nodup_append]
    refine ⟨h.growing.coherent.nodup_nodes, h.growing.coherent.nodup_edges, ?_⟩
    intro i hi j hj
    obtain ⟨e, he, rfl⟩ := mem_map.1 hj
    have hlow := (h.issued.bounds _ (mem_append_left _ (mem_map_of_mem he))).1
    exact Int.ne_of_lt (Int.lt_of_lt_of_le (hbelow i hi) hlow)

/-- What is made together with a class graph: its entry, what is made with its members, and the
edges to them. -/
def made (g : ClassGraph) : List Part :=
  .node g.entry :: (g.pdgs.flatMap Pdg.made ++ (g.edges.filter (·.isSort .classMember)).map .edge)

theorem Unites.perm_made {g : ClassGraph} (h : g.Unites) :
    ([Part.node g.entry] ++ g.pdgs.flatMap Pdg.flowParts ++ g.edgeParts).Perm g.made := by
  have hedges : g.edgeParts.Perm
      ((g.pdgs.flatMap fun d => d.edgeParts) ++ (g.edges.filter (·.isSort .classMember)).map .edge) := by
    have hsplit := (filter_append_perm (fun e : Edge => !e.isSort .classMember) g.edges).map Part.edge
    simp only [Bool.not_not] at hsplit
    rw [h.members_eq, map_append, map_flatMap] at hsplit
    exact hsplit.symm
  rw [made, append_assoc, singleton_append]
  apply List.Perm.cons
  refine (hedges.append_left _).trans ?_
  rw [← append_assoc]
  exact (Pdg.perm_made g.pdgs).append_right _

theorem Unites.parts_subset {g : ClassGraph} (h : g.Unites) (hover : ∀ d ∈ g.pdgs, ∃ c, d.Over c) :
    g.parts ⊆ g.made := by
  apply Graph.parts_subset
  · intro n hn
    rw [h.nodes_eq] at hn
    rcases mem_cons.1 hn with rfl | hn
    · exact mem_cons_self
    · obtain ⟨d, hd, hn⟩ := mem_flatMap.1 hn
      obtain ⟨c, hc⟩ := hover d hd
      exact mem_cons_of_mem _
        (mem_append_left _ (mem_flatMap.2 ⟨d, hd, hc.parts_subset (Graph.node_mem_parts.2 hn)⟩))
  · intro e he
    exact h.perm_made.mem_iff.1 (mem_append_right _ (mem_map_of_mem he))

/-- **A class graph is its entry with its members side by side and an edge to each**, and what is
made with it was made while it was built. -/
theorem ends_ofClass_issued {σ : Type} (context : Context) (r : ClassRef) (c : ClassDecl)
    (p : σ × Trail) : Ends (ofClass context r c) p
      (fun g q => q.1 = p.1 ∧ g.Unites ∧ (∀ d ∈ g.pdgs, ∃ c, d.Over c) ∧
      Issued p.2.next q.2.next g.made) (fun _ => Kept p) := by
  have hnext : p.2.next ≤ p.2.next + 1 := Int.le_of_lt (Int.lt_succ _)
  simp only [ofClass, ends_bind, ends_within]
  apply (Pdg.ends_ofClass_issued context r _).mono
  · rintro ⟨ds, failures⟩ q ⟨hstate, hovers, mid, hflows, hedges⟩
    have hle : p.2.next ≤ q.2.next := Int.le_trans hnext (Int.le_trans hflows.le hedges.le)
    apply (ends_addPdgs context ds (.start rfl hovers hflows hedges)).mono
    · rintro _ s ⟨hgathering, hentry, -⟩
      have hid : s.1.entry.id = p.2.next := by
        rw [hentry]
        rfl
      have hunites := hgathering.unites hid hflows
      have hissued := hgathering.issued
      have hsame := hgathering.flows_eq
      have hovers' := hgathering.based
      rw [append_nil] at hsame hovers'
      rw [flatMap_nil, append_nil] at hissued
      have hfirst : Issued p.2.next (p.2.next + 1) [.node s.1.entry] := .single hid
      have hmade : Issued p.2.next s.2.next s.1.made := by
        apply Issued.perm _ hunites.perm_made
        rw [hsame]
        exact (hfirst.append hflows).append hissued
      split
      · exact ⟨hstate, hunites, hovers', hmade⟩
      · exact ⟨hstate, hunites, hovers', hmade⟩
    · intro e s hle'
      exact ⟨hstate, Int.le_trans hle hle'⟩
  · rintro e q ⟨hstate, hle⟩
    exact ⟨hstate, Int.le_trans hnext hle⟩

end ClassGraph

end ProgramDependence
