import ProgramDependence.Proofs.CachedBuilds
import ProgramDependence.Proofs.Issued
import ProgramDependence.Proofs.Summaries

/-!
# What a system is made of

A system has the nodes and edges of its units side by side, and besides them parameter edges and
summary edges only (`SystemGraph.Unites`).  What is made while it is built are the graphs that are
new in the cache, and these edges (`SystemGraph.Stocked`).
-/

namespace ProgramDependence

open List Edge

open Tracked

/-! ## The cache -/

namespace BuildCache

/-- A key is done if it has a result. -/
def Steady {α : Type} (c : BuildCache α) : Prop :=
  ∀ key, c.stateOf key = .done ↔ key ∈ c.results.keys

/-- The results that were added to a cache. -/
def since {α : Type} (c before : BuildCache α) : List α :=
  (c.results.entries.drop before.results.entries.length).map (·.2)

variable {α : Type} {c : BuildCache α} {key : String}

theorem steady_empty : ({} : BuildCache α).Steady := by
  intro key
  constructor
  · intro hstate
    cases hstate
  · intro hmem
    exact absurd hmem not_mem_nil

theorem Steady.not_mem (h : c.Steady) (hstate : c.stateOf key = .unvisited) : key ∉ c.results.keys := by
  intro hmem
  rw [(h key).2 hmem] at hstate
  cases hstate

theorem Steady.abandon (h : c.Steady) (hstate : c.stateOf key = .unvisited) :
    ((c.begin key .main).abandon key).Steady := by
  intro other
  rw [stateOf_abandon, stateOf_begin]
  change _ ↔ other ∈ c.results.keys
  by_cases hother : other = key
  · subst hother
    simpa using h.not_mem hstate
  · simpa [hother] using h other

theorem Steady.finish (h : c.Steady) (a : α) : ((c.begin key .main).finish key a).Steady := by
  intro other
  rw [stateOf_finish, stateOf_begin]
  change _ ↔ other ∈ (c.results.insert key a).keys
  rw [Table.keys_insert]
  by_cases hother : other = key
  · subst hother
    by_cases hmem : other ∈ c.results.keys <;> simp [hmem]
  · have hkeep := h other
    by_cases hmem : key ∈ c.results.keys <;> simp [hother, hmem, hkeep]

end BuildCache

/-! ## What is made -/

/-- An edge that leads from a unit to another, or that stands for a way through another. -/
def Edge.isCrossing (e : Edge) : Bool :=
  e.isSort .parameterIn || e.isSort .parameterOut || e.isSort .summary

theorem Edge.isCrossing_eq (e : Edge) : e.isCrossing = !e.isInner := by
  unfold isCrossing isInner isSort
  cases e.dependenceSort? with
  | none => rfl
  | some s => cases s <;> rfl

namespace SystemGraph

variable {t : Trail} {g' : SystemGraph}

/-- The edges that a system has besides those of its units. -/
def crossing (g : SystemGraph) : List Part :=
  (g.edges.filter isCrossing).map .edge

/-- What was made from one state of a cache to a later one: the graphs that are new in the cache,
and some parts besides. -/
structure Stocked (p q : BuildCache Pdg × Trail) (xs : List Part) : Prop where
  steady : q.1.Steady
  kept : p.1.results.entries <+: q.1.results.entries
  based : ∀ d ∈ q.1.since p.1, ∃ c, d.Over c
  issued : Issued p.2.next q.2.next ((q.1.since p.1).flatMap Pdg.made ++ xs)

namespace Stocked

variable {p q : BuildCache Pdg × Trail} {xs ys : List Part} {next : Id}

theorem refl (h : p.1.Steady) : Stocked p p [] where
  steady := h
  kept := prefix_rfl
  based := by simp [BuildCache.since]
  issued := by
    rw [BuildCache.since, drop_length]
    exact .nil (Int.le_refl _)

variable (h : Stocked p q xs)
include h

theorem sublist (hsub : ys.Sublist xs) : Stocked p q ys :=
  { h with issued := h.issued.sublist (hsub.append_left _) }

theorem append (hys : Issued q.2.next t.next ys) : Stocked p (q.1, t) (xs ++ ys) :=
  { h with issued := append_assoc _ xs ys ▸ h.issued.append hys }

theorem later (hle : q.2.next ≤ t.next) : Stocked p (q.1, t) xs := by
  have hmore := h.append (.nil hle)
  rwa [append_nil] at hmore

variable {key : String} (hstate : q.1.stateOf key = .unvisited)

include hstate

theorem abandon (hle : q.2.next ≤ t.next) : Stocked p ((q.1.begin key .main).abandon key, t) xs :=
  { h with steady := h.steady.abandon hstate, issued := (h.later hle).issued }

theorem finish {d : Pdg} {c : Cfg} (hover : d.Over c) (hmade : Issued q.2.next t.next d.made) :
    Stocked p ((q.1.begin key .main).finish key d, t) xs := by
  have hnew : q.1.results.contains key = false := by
    rw [← Bool.not_eq_true, Table.contains_iff]
    exact h.steady.not_mem hstate
  have hentries : ((q.1.begin key .main).finish key d).results.entries = q.1.results.entries ++ [(key, d)] :=
    Table.entries_insert_of_not_contains hnew d
  have hsince : ((q.1.begin key .main).finish key d).since p.1 = q.1.since p.1 ++ [d] := by
    rw [BuildCache.since, hentries, drop_append_of_le_length h.kept.length_le, map_append]
    rfl
  refine ⟨h.steady.finish d, ?_, ?_, ?_⟩
  · rw [hentries]
    exact h.kept.trans (prefix_append _ _)
  · rw [hsince]
    exact forall_mem_append.2 ⟨h.based, forall_mem_singleton.2 ⟨c, hover⟩⟩
  · rw [hsince, flatMap_append, flatMap_singleton]
    exact h.issued.insert hmade

end Stocked

theorem ends_cachedPdg_stocked (context : Context) (u : UnitRef) {p q : BuildCache Pdg × Trail}
    {xs : List Part} (h : Stocked p q xs) :
    Ends (cachedPdg context u) q (fun _ r => Stocked p r xs) (fun _ r => Stocked p r xs) := by
  apply BuildCache.ends_getOrBuild
  · intro _
    exact h
  · intro hstate
    have hcontains := (Table.contains_iff q.1.results _).2 ((h.steady _).1 hstate)
    rw [Table.contains_eq_isSome] at hcontains
    obtain ⟨d, hd⟩ := Option.isSome_iff_exists.1 hcontains
    exact ⟨d, hd, h⟩
  · intro hstate
    apply (Pdg.ends_ofUnit_issued context u _).mono
    · rintro d ⟨cache, t⟩ ⟨hcache, ⟨c, hover⟩, hmade⟩
      rw [hcache]
      exact h.finish hstate hover hmade
    · rintro e ⟨cache, t⟩ ⟨hcache, hle⟩
      rw [hcache]
      exact h.abandon hstate hle

/-! ## Putting units together -/

/-- An edge that a unit does not have is a parameter edge. -/
theorem Composed.isCrossing_or {P : Program} {cache : BuildCache Pdg} {next : Id} {g : SystemGraph}
    (h : Composed P cache next g) {e : Edge} (he : e ∈ g.edges) :
    (∃ d ∈ g.pdgs.values, e ∈ d.edges) ∨ e.isCrossing = true := by
  apply (h.edges e he).imp_right
  rintro ⟨l, -, hdraws⟩
  cases hdraws with
  | passed pair mem src dst sort => simp [isCrossing, isSort, sort]
  | returned pair mem src dst sort => simp [isCrossing, isSort, sort]

/-- A system in the course of being put together: what was made since the start is accounted for. -/
structure Stocking (context : Context) (p q : BuildCache Pdg × Trail) (g : SystemGraph) : Prop where
  composed : Composed context.program q.1 q.2.next g
  stocked : Stocked p q g.crossing
  cached : ∀ d ∈ g.pdgs.values, d ∈ q.1.results.values

variable {context : Context} {p q : BuildCache Pdg × Trail} {g : SystemGraph}

theorem crossing_of_takes {P : Program} {d : Pdg} (h : Takes P d g g') (hd : d.Intact) :
    g'.crossing = g.crossing := by
  have hnone : d.edges.filter isCrossing = [] := by
    rw [filter_eq_nil_iff]
    intro e he hcrossing
    rw [isCrossing_eq, hd.inner e he] at hcrossing
    cases hcrossing
  rw [crossing, crossing, h.edges_eq, filter_append, hnone, append_nil]

theorem values_subset_of_prefix {c c' : BuildCache Pdg}
    (h : c.results.entries <+: c'.results.entries) : c.results.values ⊆ c'.results.values :=
  map_subset _ h.subset

theorem Stocked.gains {es : List Edge} (h : Stocked p q g.crossing)
    (hgains : Gains (g, q.2) (g', t) es) (hes : ∀ e ∈ es, e.isCrossing = true) :
    Stocked p (q.1, t) g'.crossing := by
  have hcrossing : g'.crossing = g.crossing ++ es.map .edge := by
    rw [crossing, crossing, hgains.edges_eq, filter_append, filter_eq_self.2 hes, map_append]
  rw [hcrossing]
  apply h.append
  have hnodup := hgains.growing.coherent.nodup_edges
  rw [hgains.edges_eq, map_append, nodup_append] at hnodup
  refine ⟨hgains.le, ?_, ?_⟩
  · rw [map_map]
    exact hnodup.2.1
  · rw [forall_mem_map]
    intro e he
    refine ⟨hgains.fresh e he, hgains.growing.below e ?_⟩
    rw [hgains.edges_eq]
    exact mem_append_right _ he

namespace Stocking

theorem ends_integrateOne (h : Stocking context p q g) (u : UnitRef) : Ends (integrateOne context u g) q
      (fun r s => Stocking context p s r.1 ∧ q.1.results.entries <+: s.1.results.entries)
      (fun _ s => Stocked p s []) := by
  simp only [integrateOne, Cfg.catching, ends_bind, ends_tryCatch, ends_pure]
  apply (((ends_cachedPdg context u q).and (ends_cachedPdg_stocked context u h.stocked)).and
    (ends_cachedPdg_stocked context u (.refl h.stocked.steady))).mono
  · rintro d r ⟨⟨⟨hgrown, hd⟩, hstocked⟩, hlater⟩
    have hcomposed := h.composed.grown hgrown
    have hcached : ∀ d ∈ g.pdgs.values, d ∈ r.1.results.values := fun d hd =>
      values_subset_of_prefix hlater.kept (h.cached d hd)
    have hfails : Stocked p r [] := hstocked.sublist (nil_sublist _)
    simp only [ends_within]
    apply (hcomposed.ends_addPdg (p := (g, r.2)) hd).always
    rintro _ ⟨g', t⟩ ⟨rfl, hcomposed', htakes⟩
    refine Composed.ends_requireCallSites u d ⟨⟨hcomposed', ?_, ?_⟩, hlater.kept⟩ fun _ => hfails
    · split at htakes
      · rw [show g' = g from htakes]
        exact hstocked
      · rw [crossing_of_takes htakes (hcomposed.units.intact d (mem_append_left _ hd))]
        exact hstocked
    · split at htakes
      · rw [show g' = g from htakes]
        exact hcached
      · rw [htakes.values_eq]
        exact forall_mem_append.2 ⟨hcached, forall_mem_singleton.2 hd⟩
  · rintro e r ⟨⟨hgrown, hstocked⟩, hlater⟩
    cases e with
    | construction name fault =>
      simp only [ends_pure, ends_bind, ends_report]
      have hreport : ∀ log, Grown q (r.1, { r.2 with log := log }) := fun _ =>
        hgrown.trans (.of_same rfl (Int.le_refl _))
      refine ⟨⟨(h.composed.grown (hreport _)).failed _, hstocked.later (Int.le_refl _), fun d hd => ?_⟩,
        hlater.kept⟩
      exact values_subset_of_prefix hlater.kept (h.cached d hd)
    | _ => exact hstocked.sublist (nil_sublist _)

theorem ends_connectCalls (h : Stocking context p q g) :
    Ends (connectCalls context.program g.callNodes) (g, q.2) (fun _ s => Stocking context p (q.1, s.2) s.1)
      (fun _ s => Stocked p (q.1, s.2) []) := by
  apply (Composed.ends_connectAll (p := (g, q.2)) h.composed).always
  rintro _ s ⟨hcomposed, ⟨es, hgains⟩, -⟩
  refine ⟨hcomposed, h.stocked.gains hgains fun e he => ?_, ?_⟩
  · have hmem : e ∈ s.1.edges := by
      rw [hgains.edges_eq]
      exact mem_append_right _ he
    apply (hcomposed.isCrossing_or hmem).resolve_left
    rintro ⟨d, hd, hold⟩
    rw [hgains.pdgs_eq] at hd
    have hbelow := h.composed.units.edges_below d (mem_append_right _ hd) e hold
    exact Int.not_le.2 hbelow (hgains.fresh e he)
  · rw [hgains.pdgs_eq]
    exact h.cached

end Stocking

/-! ## The union of the units -/

/-- The nodes of some units, counted one unit after the other. -/
def countNodes (ds : List Pdg) : Nat :=
  ds.foldr (fun d count => d.nodes.length + count) 0

theorem length_flatMap_nodes (ds : List Pdg) : (ds.flatMap (·.nodes)).length = countNodes ds := by
  induction ds with
  | nil => rfl
  | cons d ds ih => rw [flatMap_cons, length_append, ih, countNodes, countNodes, foldr_cons]

/-- What a system consists of: its units side by side, and parameter edges and summary edges
besides.  The unit that is found for a node is the one that has it. -/
structure Unites (g : SystemGraph) : Prop where
  nodes_perm : g.nodes.Perm (g.pdgs.values.flatMap (·.nodes))
  count : g.nodes.length = countNodes g.pdgs.values
  owner : ∀ n ∈ g.nodes, ∃ d, g.pdgOf? n.id = some d ∧ ∀ d', d' ∈ g.pdgs.values ∧ n ∈ d'.nodes ↔ d' = d
  inner : ∀ d ∈ g.pdgs.values, d.edges ⊆ g.edges
  edges_perm : (g.edges.filter fun e => !e.isCrossing).Perm (g.pdgs.values.flatMap (·.edges))
  nodup_nodes : g.nodeIds.Nodup
  nodup_edges : (g.edges.map (·.id)).Nodup

namespace Composed

variable {P : Program} {cache : BuildCache Pdg} {next : Id} {g : SystemGraph}

variable (h : Composed P cache next g)
include h

theorem nodup_values : g.pdgs.values.Nodup := by
  have hkeys : g.pdgs.keys = g.pdgs.values.map (·.key P) := by
    rw [Table.values, map_map]
    exact map_congr_left h.keys
  exact .of_map _ (hkeys ▸ h.nodup)

theorem pairwise_apart : g.pdgs.values.Pairwise Pdg.Apart := by
  apply h.nodup_values.pairwise_of_forall_ne
  intro d hd d' hd' hne
  exact (h.units.apart d (mem_append_right _ hd) d' (mem_append_right _ hd')).resolve_left hne

theorem nodup_unitNodes : (g.pdgs.values.flatMap (·.nodes)).Nodup := by
  rw [nodup_flatMap]
  constructor
  · intro d hd
    exact .of_map _ (h.intact d hd).coherent.nodup_nodes
  · apply h.pairwise_apart.imp
    intro d d' hapart n hn hn'
    exact hapart.nodes n hn n hn' rfl

theorem nodup_unitEdges : (g.pdgs.values.flatMap (·.edges)).Nodup := by
  rw [nodup_flatMap]
  constructor
  · intro d hd
    exact .of_map _ (h.intact d hd).coherent.nodup_edges
  · apply h.pairwise_apart.imp
    intro d d' hapart e he he'
    exact hapart.edges e he e he' rfl

theorem nodes_perm : g.nodes.Perm (g.pdgs.values.flatMap (·.nodes)) := by
  apply (perm_ext_iff_of_nodup (.of_map _ h.growing.coherent.nodup_nodes) h.nodup_unitNodes).2
  intro n
  rw [h.nodes, mem_flatMap]

/-- **A system with its summaries is the union of its units.** -/
theorem unites {t' : Trail} {es : List Edge} (hgains : SummaryGains (g, t) (g', t') es) : g'.Unites := by
  have hpdgs : g'.pdgs = g.pdgs := hgains.pdgs_eq
  have hnodes : g'.nodes = g.nodes := hgains.nodes_eq
  have hedges : g'.edges = g.edges ++ es := hgains.edges_eq
  have hperm : g'.nodes.Perm (g'.pdgs.values.flatMap (·.nodes)) := by
    rw [hnodes, hpdgs]
    exact h.nodes_perm
  have howner : ∀ id, g'.pdgOf? id = g.pdgOf? id := by
    intro id
    rw [pdgOf?, pdgOf?, hpdgs, show g'.owner = g.owner from hgains.owner_eq]
  have hcoherent := hgains.growing.coherent
  refine ⟨hperm, ?_, ?_, ?_, ?_, hcoherent.nodup_nodes, hcoherent.nodup_edges⟩
  · rw [hperm.length_eq, length_flatMap_nodes]
  · rw [hnodes, hpdgs]
    intro n hn
    obtain ⟨d, hd, hmem⟩ := (h.nodes n).1 hn
    have hid : n.id ∈ d.nodeIds := mem_map_of_mem hmem
    refine ⟨d, ?_, fun d' => ?_⟩
    · rw [howner]
      exact h.pdgOf?_eq_some_iff.2 ⟨hd, hid⟩
    · constructor
      · rintro ⟨hd', hmem'⟩
        exact h.unit_eq hd' hd (mem_map_of_mem hmem') hid
      · rintro rfl
        exact ⟨hd, hmem⟩
  · rw [hpdgs, hedges]
    intro d hd
    exact subset_append_of_subset_left _ (h.inner d hd)
  · rw [hpdgs]
    apply (perm_ext_iff_of_nodup (List.Nodup.of_map _ hcoherent.nodup_edges |>.filter _) h.nodup_unitEdges).2
    intro e
    rw [mem_filter, mem_flatMap, hedges, mem_append]
    constructor
    · rintro ⟨he | he, hinner⟩
      · apply (h.isCrossing_or he).resolve_right
        intro hcrossing
        rw [hcrossing] at hinner
        cases hinner
      · have hsort := hgains.sort e he
        simp [isCrossing, isSort, hsort] at hinner
    · rintro ⟨d, hd, he⟩
      refine ⟨.inl (h.inner d hd he), ?_⟩
      rw [isCrossing_eq, (h.intact d hd).inner e he]
      rfl

end Composed

/-- **A system is the union of its units**, and what is made with it was made while it was built. -/
theorem ends_ofUnits_issued (context : Context) (name : String) (us : List UnitRef)
    (htidy : q.1.Tidy q.2.next) (hstocked : Stocked p q []) : Ends (ofUnits context name us) q
      (fun g r => Stocked p r g.crossing ∧ Grown q r ∧ g.Unites ∧
      ∀ d ∈ g.pdgs.values, d ∈ r.1.results.values) (fun _ r => Stocked p r [] ∧ Grown q r) := by
  have hstart : Stocking context p q (ofName name) :=
    ⟨.empty htidy name, hstocked, fun d hd => absurd hd not_mem_nil⟩
  have heach := ends_integrateEach_keeps (B := fun r => Stocked p r [])
    (fun u h => (Stocking.ends_integrateOne h u).imp fun _ _ hq => hq.1)
    (fun h => Stocking.ends_connectCalls h) (fun h => h) us hstart
  simp only [ofUnits, ends_bind]
  apply (heach.and (Composed.ends_integrateEach context name us htidy)).mono
  · rintro g r ⟨hstocking, hgrown, hcomposed, hconnected⟩
    apply (ends_complete context hcomposed hconnected).always
    rintro g' s ⟨⟨hgrown', hsame⟩, ⟨t, es, hgains, hnext⟩, -⟩
    have hcrossing : ∀ e ∈ es, e.isCrossing = true := by
      intro e he
      have hsort := hgains.sort e he
      simp [isCrossing, isSort, hsort]
    have hmore := (hstocking.stocked.gains hgains.toGains hcrossing).later (Int.le_of_eq hnext)
    refine ⟨?_, hgrown.trans hgrown', hcomposed.unites hgains, ?_⟩
    · obtain ⟨cache, t'⟩ := s
      dsimp only at hsame hmore ⊢
      rw [hsame]
      exact hmore
    · rw [show g'.pdgs = g.pdgs from hgains.pdgs_eq, hsame]
      exact hstocking.cached
  · rintro e r ⟨hstocked, hgrown⟩
    exact ⟨hstocked, hgrown⟩

end SystemGraph

end ProgramDependence
