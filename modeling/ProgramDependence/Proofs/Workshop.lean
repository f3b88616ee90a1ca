import ProgramDependence.Proofs.Isolation
import ProgramDependence.Proofs.SystemUnion
import ProgramDependence.Proofs.SystemUnits

/-!
# Graphs of one numbering

Flow graphs, dependence graphs, class graphs and systems are built and copied one after the other,
in whichever order, for one program and under ids from one numbering that is never set back.  Some
constructions fail on the way; what they drew stays drawn, and what they cached stays cached.

A `Workshop` keeps every graph, class graphs and systems with what was asked for, and a list of what
was made: each node and each edge is entered when it is made, and not again when another graph
shares it.  No two entries have the same id, every node and every edge of every graph is entered,
and class graphs and systems have all the members and units that were asked for and could be built
(`Workshop.runAll_exact`).
-/

namespace ProgramDependence

open List Tracked Pdg

/-- The graphs at hand, the caches, and what was made.  Class graphs are kept with their classes,
and systems with the units that they were built from. -/
structure Workshop where
  flows : List Cfg := []
  pdgs : List Pdg := []
  classes : List (ClassRef × ClassGraph) := []
  systems : List (List UnitRef × SystemGraph) := []
  caches : Table String (BuildCache Pdg) := {}
  made : List Part := []

namespace Workshop

def parts (w : Workshop) : List Part :=
  w.flows.flatMap (·.parts) ++ w.pdgs.flatMap (·.parts) ++ w.classes.flatMap (·.2.parts) ++
    w.systems.flatMap (·.2.parts)

def cache (w : Workshop) (name : String) : BuildCache Pdg :=
  (w.caches.find? name).getD {}

/-- Dependence graphs with their flow graphs, and what was made for them. -/
def ofPdgs (pdgs : List Pdg) (made : List Part) : Workshop :=
  { flows := pdgs.filterMap (·.cfg), pdgs, made }

def take (w new : Workshop) : Workshop :=
  { w with
    flows := w.flows ++ new.flows
    pdgs := w.pdgs ++ new.pdgs
    classes := w.classes ++ new.classes
    systems := w.systems ++ new.systems
    made := w.made ++ new.made }

end Workshop

/-- A graph to be built, or to be copied from one at hand. -/
inductive Job where
  | flow (u : UnitRef)
  | flows (r : ClassRef)
  | dependence (u : UnitRef)
  | dependenceOf (flow : Nat)
  | dependences (r : ClassRef)
  | classGraph (r : ClassRef) (c : ClassDecl)
  | system (cache name : String) (us : List UnitRef)
  | copyFlow (flow : Nat)
  | copyDependence (pdg : Nat)

/-- Do a job.  The parts that are entered are those that the job made: a dependence graph of a flow
graph at hand makes only its edges, and a system makes the graphs that are new in its cache and the
edges between its units. -/
def Job.run (context : Context) : Job → Tracked Workshop Unit
  | flow u => do
      let c ← Cfg.ofUnit context u
      update (·.take { flows := [c], made := c.parts })
  | flows r => do
      let (cs, _) ← Cfg.ofClass context r
      update (·.take { flows := cs, made := cs.flatMap (·.parts) })
  | dependence u => do
      let d ← ofUnit context u
      update (·.take (.ofPdgs [d] d.made))
  | dependenceOf i => do
      match (← state).flows[i]? with
      | none => throw .undefined
      | some c =>
        let d ← ofCfg context c
        update (·.take (.ofPdgs [d] d.edgeParts))
  | dependences r => do
      let (ds, _) ← ofClass context r
      update (·.take (.ofPdgs ds (ds.flatMap made)))
  | classGraph r c => do
      let g ← ClassGraph.ofClass context r c
      update (·.take { Workshop.ofPdgs g.pdgs g.made with classes := [(r, g)] })
  | system name title us => do
      let before := (← state).cache name
      let (answer, after) ← within before (outcome (SystemGraph.ofUnits context title us))
      let new := after.since before
      update fun w => { w with caches := w.caches.insert name after }
      match answer with
      | .ok g =>
        update (·.take { Workshop.ofPdgs new (new.flatMap made ++ g.crossing) with systems := [(us, g)] })
      | .error e =>
        update (·.take (.ofPdgs new (new.flatMap made)))
        throw e
  | copyFlow i => do
      match (← state).flows[i]? with
      | none => throw .undefined
      | some c =>
        let (c', _) ← c.copy
        update (·.take { flows := [c'], made := c'.parts })
  | copyDependence i => do
      match (← state).pdgs[i]? with
      | none => throw .undefined
      | some d =>
        let (d', _) ← d.copy context
        update (·.take (.ofPdgs [d'] d'.made))

namespace Workshop

/-- Do jobs one after the other, whether or not they succeed. -/
def runAll (context : Context) : List Job → Tracked Workshop Unit
  | [] => return ()
  | job :: rest => do
      tryCatch (job.run context) fun _ => return ()
      runAll context rest

/-- A system is the union of its units.  Where names identify units, these are what the units it was
built from lead to, apart from those that failed. -/
def SystemExact (context : Context) (us : List UnitRef) (g : SystemGraph) : Prop :=
  g.Unites ∧
    (context.program.Named → (∀ u ∈ us, context.program.Has u) → SystemGraph.Comprises context (· ∈ us) g)

/-- A class graph is the union of its members.  These are the members of the class tree, apart from
those that failed, where they have different names. -/
def ClassExact (context : Context) (r : ClassRef) (g : ClassGraph) : Prop :=
  g.Unites ∧ ∀ us, context.program.Members r us → (us.map context.program.unitName).Nodup →
    Isolated context us (Pdg.SummedMemberOf context) g.pdgs g.failures

/-- What holds of the graphs at hand: each part was made once, and systems and class graphs are the
unions of the units and members that were asked for. -/
structure Exact (context : Context) (w : Workshop) : Prop where
  once : (w.made.map Part.id).Nodup
  entered : w.parts ⊆ w.made
  unique : ∀ x ∈ w.parts, ∀ y ∈ w.parts, x.id = y.id → x = y
  systems : ∀ o ∈ w.systems, SystemExact context o.1 o.2
  classes : ∀ o ∈ w.classes, ClassExact context o.1 o.2

/-- What is kept while jobs are done. -/
structure Stable (context : Context) (lo next : Id) (w : Workshop) : Prop where
  issued : Issued lo next w.made
  flows : ∀ c ∈ w.flows, c.Copyable ∧ c.parts ⊆ w.made
  pdgs : ∀ d ∈ w.pdgs, (∃ c, d.Over c) ∧ d.parts ⊆ w.made
  classes : ∀ o ∈ w.classes, ClassExact context o.1 o.2 ∧ o.2.parts ⊆ w.made
  systems : ∀ o ∈ w.systems, SystemExact context o.1 o.2 ∧ o.2.parts ⊆ w.made
  caches : ∀ cache ∈ w.caches.values, cache.Steady ∧ cache.Tidy next ∧ cache.Sound context ∧
    ∀ d ∈ cache.results.values, d ∈ w.pdgs

namespace Stable

variable {context : Context} {lo next next' : Id} {w new : Workshop}

theorem empty (context : Context) (next : Id) : Stable context next next {} where
  issued := .nil (Int.le_refl _)
  flows := forall_mem_nil _
  pdgs := forall_mem_nil _
  classes := forall_mem_nil _
  systems := forall_mem_nil _
  caches := forall_mem_nil _

theorem exact (h : Stable context lo next w) : w.Exact context := by
  have hentered : w.parts ⊆ w.made := by
    intro x hx
    simp only [parts, mem_append, mem_flatMap] at hx
    rcases hx with ((⟨c, hc, hx⟩ | ⟨d, hd, hx⟩) | ⟨g, hg, hx⟩) | ⟨g, hg, hx⟩
    · exact (h.flows c hc).2 hx
    · exact (h.pdgs d hd).2 hx
    · exact (h.classes g hg).2 hx
    · exact (h.systems g hg).2 hx
  refine ⟨h.issued.nodup, hentered, ?_, fun g hg => (h.systems g hg).1, fun g hg => (h.classes g hg).1⟩
  intro x hx y hy hid
  exact h.issued.eq_of_id (hentered hx) (hentered hy) hid

theorem later (h : Stable context lo next w) (hle : next ≤ next') : Stable context lo next' w :=
  { h with
    issued := h.issued.later hle
    caches := fun cache hcache => by
      obtain ⟨hsteady, htidy, hrest⟩ := h.caches cache hcache
      exact ⟨hsteady, .subset htidy (.refl _) hle, hrest⟩ }

theorem take (h : Stable context lo next w) (hissued : Issued next next' new.made)
    (hflows : ∀ c ∈ new.flows, c.Copyable ∧ c.parts ⊆ w.made ++ new.made)
    (hpdgs : ∀ d ∈ new.pdgs, (∃ c, d.Over c) ∧ d.parts ⊆ w.made ++ new.made)
    (hclasses : ∀ o ∈ new.classes, ClassExact context o.1 o.2 ∧ o.2.parts ⊆ w.made ++ new.made)
    (hsystems : ∀ o ∈ new.systems, SystemExact context o.1 o.2 ∧ o.2.parts ⊆ w.made ++ new.made) :
    Stable context lo next' (w.take new) := by
  have hold : ∀ {xs : List Part}, xs ⊆ w.made → xs ⊆ w.made ++ new.made := fun hxs =>
    subset_append_of_subset_left _ hxs
  refine ⟨h.issued.append hissued, ?_, ?_, ?_, ?_, ?_⟩
  · exact forall_mem_append.2 ⟨fun c hc => ⟨(h.flows c hc).1, hold (h.flows c hc).2⟩, hflows⟩
  · exact forall_mem_append.2 ⟨fun d hd => ⟨(h.pdgs d hd).1, hold (h.pdgs d hd).2⟩, hpdgs⟩
  · exact forall_mem_append.2 ⟨fun g hg => ⟨(h.classes g hg).1, hold (h.classes g hg).2⟩, hclasses⟩
  · exact forall_mem_append.2 ⟨fun g hg => ⟨(h.systems g hg).1, hold (h.systems g hg).2⟩, hsystems⟩
  · intro cache hcache
    obtain ⟨hsteady, htidy, hsound, hmem⟩ := (h.later hissued.le).caches cache hcache
    exact ⟨hsteady, htidy, hsound, fun d hd => mem_append_left _ (hmem d hd)⟩

variable {xs : List Part}

section

variable {ds : List Pdg} (h : ∀ d ∈ ds, (∃ c, d.Over c) ∧ d.made ⊆ xs)

include h

theorem flows_ofPdgs :
    ∀ c ∈ ds.filterMap (·.cfg), c.Copyable ∧ c.parts ⊆ xs := by
  intro c hc
  obtain ⟨d, hd, hcfg⟩ := mem_filterMap.1 hc
  obtain ⟨⟨c', hover⟩, hmade⟩ := h d hd
  rw [hover.cfg_eq] at hcfg
  cases hcfg
  refine ⟨hover.copyable, ?_⟩
  rw [← hover.flowParts_eq]
  exact fun x hx => hmade (mem_append_left _ hx)

theorem parts_ofPdgs :
    ∀ d ∈ ds, (∃ c, d.Over c) ∧ d.parts ⊆ xs := by
  intro d hd
  obtain ⟨⟨c, hover⟩, hmade⟩ := h d hd
  exact ⟨⟨c, hover⟩, fun x hx => hmade (hover.parts_subset hx)⟩

end

theorem takeFlows (h : Stable context lo next w) {cs : List Cfg} {made : List Part}
    (hissued : Issued next next' made) (hcs : ∀ c ∈ cs, c.Copyable ∧ c.parts ⊆ made) :
    Stable context lo next' (w.take { flows := cs, made }) := by
  apply h.take hissued _ (forall_mem_nil _) (forall_mem_nil _) (forall_mem_nil _)
  intro c hc
  exact ⟨(hcs c hc).1, subset_append_of_subset_right _ (hcs c hc).2⟩

theorem takePdgs (h : Stable context lo next w) {ds : List Pdg} {made : List Part}
    (hissued : Issued next next' made) (hds : ∀ d ∈ ds, (∃ c, d.Over c) ∧ d.made ⊆ w.made ++ made) :
    Stable context lo next' (w.take (.ofPdgs ds made)) :=
  h.take hissued (flows_ofPdgs hds) (parts_ofPdgs hds) (forall_mem_nil _) (forall_mem_nil _)

theorem cache_steady (h : Stable context lo next w) (name : String) :
    (w.cache name).Steady ∧ (w.cache name).Tidy next ∧ (w.cache name).Sound context ∧
      ∀ d ∈ (w.cache name).results.values, d ∈ w.pdgs := by
  rw [cache]
  cases hfind : w.caches.find? name with
  | none =>
    exact ⟨BuildCache.steady_empty, Collection.empty next, BuildCache.sound_empty context, forall_mem_nil _⟩
  | some c => exact h.caches c (Table.mem_values_of_find? hfind)

/-- The parts of a system are parts of its units and edges between them. -/
theorem parts_subset_of_unites {g : SystemGraph} (h : g.Unites)
    (hunits : ∀ d ∈ g.pdgs.values, d.parts ⊆ xs) (hcrossing : g.crossing ⊆ xs) : g.parts ⊆ xs := by
  apply Graph.parts_subset
  · intro n hn
    obtain ⟨d, hd, hmem⟩ := mem_flatMap.1 (h.nodes_perm.mem_iff.1 hn)
    exact hunits d hd (Graph.node_mem_parts.2 hmem)
  · intro e he
    by_cases hsort : e.isCrossing = true
    · exact hcrossing (mem_map_of_mem (mem_filter.2 ⟨he, hsort⟩))
    · have hinner : e ∈ g.edges.filter fun e => !e.isCrossing := mem_filter.2 ⟨he, by simpa using hsort⟩
      obtain ⟨d, hd, hmem⟩ := mem_flatMap.1 (h.edges_perm.mem_iff.1 hinner)
      exact hunits d hd (Graph.edge_mem_parts.2 hmem)

/-- Systems are taken in with the graphs that are new in their cache. -/
theorem takeSystems (h : Stable context lo next w) {name : String} {t t' : Trail}
    (hnext : t.next = next) {after : BuildCache Pdg} {gs : List (List UnitRef × SystemGraph)}
    (hstocked : SystemGraph.Stocked (w.cache name, t) (after, t') xs) (htidy : after.Tidy t'.next)
    (hsound : after.Sound context) (hgs : ∀ o ∈ gs, SystemExact context o.1 o.2 ∧
      (∀ d ∈ o.2.pdgs.values, d ∈ after.results.values) ∧ o.2.crossing ⊆ xs) :
    Stable context lo t'.next (({ w with caches := w.caches.insert name after } : Workshop).take
      { ofPdgs (after.since (w.cache name)) ((after.since (w.cache name)).flatMap Pdg.made ++ xs) with
        systems := gs }) := by
  obtain ⟨-, -, -, hold⟩ := h.cache_steady name
  have hissued := hstocked.issued
  rw [hnext] at hissued
  have hvalues : after.results.values = (w.cache name).results.values ++ after.since (w.cache name) := by
    obtain ⟨es, hes⟩ := hstocked.kept
    rw [Table.values, Table.values, BuildCache.since, ← hes, map_append, drop_left]
  have hds : ∀ d ∈ after.since (w.cache name), (∃ c, d.Over c) ∧
      d.made ⊆ w.made ++ ((after.since (w.cache name)).flatMap Pdg.made ++ xs) := by
    intro d hd
    refine ⟨hstocked.based d hd, fun x hx => mem_append_right _ (mem_append_left _ ?_)⟩
    exact mem_flatMap.2 ⟨d, hd, hx⟩
  have hunits : ∀ d ∈ after.results.values,
      d.parts ⊆ w.made ++ ((after.since (w.cache name)).flatMap Pdg.made ++ xs) := by
    rw [hvalues]
    refine forall_mem_append.2 ⟨fun d hd => ?_, fun d hd => (parts_ofPdgs hds d hd).2⟩
    exact subset_append_of_subset_left _ (h.pdgs d (hold d hd)).2
  have hsystems : ∀ o ∈ gs, SystemExact context o.1 o.2 ∧
      o.2.parts ⊆ w.made ++ ((after.since (w.cache name)).flatMap Pdg.made ++ xs) := by
    intro o ho
    obtain ⟨hexact, hcached, hcrossing⟩ := hgs o ho
    refine ⟨hexact, parts_subset_of_unites hexact.1 (fun d hd => hunits d (hcached d hd)) ?_⟩
    exact subset_append_of_subset_right _ (subset_append_of_subset_right _ hcrossing)
  have htake : Stable context lo t'.next (w.take { ofPdgs (after.since (w.cache name))
      ((after.since (w.cache name)).flatMap Pdg.made ++ xs) with systems := gs }) :=
    h.take hissued (flows_ofPdgs hds) (parts_ofPdgs hds) (forall_mem_nil _) hsystems
  refine ⟨htake.issued, htake.flows, htake.pdgs, htake.classes, htake.systems, ?_⟩
  intro cache hcache
  rcases mem_cons.1 (Table.values_insert_subset _ _ _ hcache) with rfl | hcache
  · refine ⟨hstocked.steady, htidy, hsound, ?_⟩
    rw [hvalues]
    exact forall_mem_append.2 ⟨fun d hd => mem_append_left _ (hold d hd), fun d hd => mem_append_right _ hd⟩
  · exact htake.caches cache hcache

end Stable

end Workshop

open Workshop in
/-- **A job that is done makes parts under new ids**, whether it succeeds or not. -/
theorem Job.ends_run (context : Context) (job : Job) {lo : Id} {p : Workshop × Trail}
    (h : Stable context lo p.2.next p.1) :
    Ends (job.run context) p (fun _ q => Stable context lo q.2.next q.1)
    (fun _ q => Stable context lo q.2.next q.1) := by
  have hfails : ∀ {q : Workshop × Trail}, Kept p q → Stable context lo q.2.next q.1 := by
    rintro q ⟨hq, hle⟩
    rw [hq]
    exact h.later hle
  cases job with
  | flow u =>
    simp only [run, ends_bind, ends_update]
    apply (Cfg.ends_ofUnit_issued context u p).mono _ fun _ _ hq => hfails hq
    rintro c q ⟨hq, hcopyable, hissued⟩
    rw [hq]
    exact h.takeFlows hissued (forall_mem_singleton.2 ⟨hcopyable, .refl _⟩)
  | flows r =>
    simp only [run, Cfg.ofClass, ends_bind, ends_update]
    apply (Cfg.ends_ofUnits_issued context _ [] {} p).mono _ fun _ _ hq => hfails hq
    rintro ⟨cs, failures⟩ q ⟨hq, cs', rfl, hcs, hissued⟩
    rw [hq]
    exact h.takeFlows hissued fun c hc => ⟨hcs c hc, fun x hx => mem_flatMap.2 ⟨c, hc, hx⟩⟩
  | dependence u =>
    simp only [run, ends_bind, ends_update]
    apply (Pdg.ends_ofUnit_issued context u p).mono _ fun _ _ hq => hfails hq
    rintro d q ⟨hq, hover, hissued⟩
    rw [hq]
    exact h.takePdgs hissued (forall_mem_singleton.2 ⟨hover, subset_append_right _ _⟩)
  | dependenceOf i =>
    simp only [run, ends_bind, ends_state]
    cases hi : p.1.flows[i]? with
    | none => exact h
    | some c =>
      obtain ⟨hcopyable, hparts⟩ := h.flows c (mem_of_getElem? hi)
      simp only [ends_bind, ends_update]
      apply (Pdg.ends_ofCfg_issued context hcopyable p).mono _ fun _ _ hq => hfails hq
      rintro d q ⟨hq, hover, hissued⟩
      rw [hq]
      apply h.takePdgs hissued
      rw [forall_mem_singleton, Pdg.made, hover.flowParts_eq]
      exact ⟨⟨c, hover⟩, append_subset.2 ⟨subset_append_of_subset_left _ hparts, subset_append_right _ _⟩⟩
  | dependences r =>
    simp only [run, ends_bind, ends_update]
    apply (Pdg.ends_ofClass_issued context r p).mono _ fun _ _ hq => hfails hq
    rintro ⟨ds, failures⟩ q ⟨hq, hovers, mid, hflows, hedges⟩
    rw [hq]
    apply h.takePdgs ((hflows.append hedges).perm (Pdg.perm_made ds))
    exact fun d hd => ⟨hovers d hd, fun x hx => mem_append_right _ (mem_flatMap.2 ⟨d, hd, hx⟩)⟩
  | classGraph r c =>
    simp only [run, ends_bind, ends_update]
    apply ((ClassGraph.ends_ofClass_issued context r c p).and (Tracked.ends_run _ p)).mono _
      fun _ _ hq => hfails hq.1
    rintro g q ⟨⟨hq, hunites, hovers, hissued⟩, hrun⟩
    have hexact : ClassExact context r g := ⟨hunites, fun us hmembers hnames =>
      (ends_iff_of_run hrun).1 (ClassGraph.ends_ofClass_isolated hmembers hnames c p)⟩
    have hds : ∀ d ∈ g.pdgs, (∃ c, d.Over c) ∧ d.made ⊆ p.1.made ++ g.made := by
      intro d hd
      refine ⟨hovers d hd, fun x hx => mem_append_right _ (mem_cons_of_mem _ ?_)⟩
      exact mem_append_left _ (mem_flatMap.2 ⟨d, hd, hx⟩)
    rw [hq]
    apply h.take hissued (Stable.flows_ofPdgs hds) (Stable.parts_ofPdgs hds) _ (forall_mem_nil _)
    exact forall_mem_singleton.2
      ⟨hexact, subset_append_of_subset_right _ (hunites.parts_subset hovers)⟩
  | system name title us =>
    obtain ⟨hsteady, htidy, hsound, -⟩ := h.cache_steady name
    simp only [run, ends_bind, ends_state, ends_within, ends_outcome, ends_update]
    apply ((SystemGraph.ends_ofUnits_issued context title us (q := (p.1.cache name, p.2)) htidy
      (.refl hsteady)).and
      ((SystemGraph.ends_ofUnits_sourced title us htidy hsound).and (Tracked.ends_run _ _))).mono
    · rintro g ⟨after, t⟩ ⟨⟨hstocked, hgrown, hunites, hcached⟩, ⟨hsound', -⟩, hrun⟩
      have hexact : SystemExact context us g := by
        refine ⟨hunites, fun hnamed hus => ?_⟩
        obtain ⟨-, _, _, hfinished⟩ :=
          (ends_iff_of_run hrun).1 (SystemGraph.ends_ofUnits_finished hnamed title hus htidy hsound)
        exact hfinished.comprises hnamed hus
      exact h.takeSystems rfl hstocked (hgrown.tidy htidy) hsound'
        (forall_mem_singleton.2 ⟨hexact, hcached, .refl _⟩)
    · rintro e ⟨after, t⟩ ⟨⟨hstocked, hgrown⟩, hsound', -⟩
      have htake := h.takeSystems rfl hstocked (hgrown.tidy htidy) hsound' (forall_mem_nil _)
      rw [append_nil] at htake
      exact htake
  | copyFlow i =>
    simp only [run, ends_bind, ends_state]
    cases hi : p.1.flows[i]? with
    | none => exact h
    | some c =>
      obtain ⟨hcopyable, -⟩ := h.flows c (mem_of_getElem? hi)
      simp only [ends_bind, ends_update]
      apply (hcopyable.ends_copy_issued p).always
      rintro ⟨c', ids⟩ q ⟨hq, hcopyable', hissued⟩
      rw [hq]
      exact h.takeFlows hissued (forall_mem_singleton.2 ⟨hcopyable', .refl _⟩)
  | copyDependence i =>
    simp only [run, ends_bind, ends_state]
    cases hi : p.1.pdgs[i]? with
    | none => exact h
    | some d =>
      obtain ⟨⟨c, hover⟩, -⟩ := h.pdgs d (mem_of_getElem? hi)
      simp only [ends_bind, ends_update]
      apply (hover.ends_copy_issued context p).mono _ fun _ _ hq => hfails hq
      rintro ⟨d', ids⟩ q ⟨hq, hover', hissued⟩
      rw [hq]
      exact h.takePdgs hissued (forall_mem_singleton.2 ⟨hover', subset_append_right _ _⟩)

namespace Workshop

theorem Stable.ends_runAll (context : Context) (jobs : List Job) {lo : Id} {p : Workshop × Trail}
    (h : Stable context lo p.2.next p.1) :
    Returns (runAll context jobs) p fun _ q => Stable context lo q.2.next q.1 := by
  induction jobs generalizing p with
  | nil => exact h
  | cons job rest ih =>
    simp only [runAll, ends_bind, ends_tryCatch]
    exact (job.ends_run context h).mono (fun _ _ hq => ih hq) fun _ _ hq => ih hq

/-- **Ids are never used twice, and composition loses nothing.**  After any jobs under one
numbering, each node and each edge was made once and under an id of its own, whichever graphs share
it; every system is the union of its units with parameter edges and summary edges, and every class
graph is the union of its members with its entry and an edge to each.  The units of a system are all
that it was asked for and what these lead to, and the members of a class graph are all members of
its class, as far as they can be built. -/
theorem runAll_exact (context : Context) (jobs : List Job) (t : Trail) :
    Ends (runAll context jobs) ({}, t) (fun _ q => q.1.Exact context) (fun _ _ => False) :=
  (Stable.ends_runAll context jobs (Stable.empty context t.next)).mono (fun _ _ hq => hq.exact)
    fun _ _ hq => hq

end Workshop

end ProgramDependence
