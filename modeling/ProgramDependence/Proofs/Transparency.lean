import Mathlib.Data.List.Flatten
import ProgramDependence.Proofs.SystemUnits
import ProgramDependence.Proofs.Twins

/-!
# The cache is transparent

The graph of a unit is built once and then comes from the cache, so the ids in a system depend on
what was built before it.  Nothing else does: the system that is built with a cache of earlier
systems is the image of the one that is built with an empty cache, and the graphs in the cache stay
as they are (`SystemGraph.Transparent`).

The two systems are put together side by side and stay alike (`SystemGraph.Alike`).  They take in
the same units in the same order.  Two graphs of one unit are images of each other, and as no id is
issued twice, the permutation of ids can be redirected on the ids of the graph that comes in.
-/

namespace ProgramDependence

open List

open Tracked

namespace Table

variable {κ κ' β : Type} [DecidableEq κ] [DecidableEq κ']

theorem foldl_insert_rename {k : κ → κ'} (hk : ∀ {x y}, k x = k y ↔ x = y) (ks : List κ)
    (t : Table κ β) (v : β) : (ks.map k).foldl (fun t i => t.insert i v) (t.rename k id) =
      (ks.foldl (fun t i => t.insert i v) t).rename k id := by
  induction ks generalizing t with
  | nil => rfl
  | cons i ks ih =>
    rw [map_cons, foldl_cons, foldl_cons, ← ih, ← insert_rename hk]
    rfl

theorem mem_keys_foldl_insert {ks : List κ} {t : Table κ β} {v : β} {i : κ} :
    i ∈ (ks.foldl (fun t i => t.insert i v) t).keys ↔ i ∈ ks ∨ i ∈ t.keys := by
  rw [← contains_iff, ← contains_iff, contains_eq_isSome, contains_eq_isSome, find?_foldl_insert]
  by_cases hi : i ∈ ks
  · simp [hi]
  · simp [hi]

end Table

theorem BuildCache.get?_of_prefix {α : Type} {c c' : BuildCache α}
    (h : c.results.entries <+: c'.results.entries) {key : String} {a : α}
    (hget : c.get? key = some a) : c'.get? key = some a := by
  obtain ⟨rest, hrest⟩ := h
  obtain ⟨e, he, rfl⟩ := Option.map_eq_some_iff.1 hget
  rw [get?, Table.find?, ← hrest, find?_append, he]
  rfl

namespace SystemGraph

variable {us : List UnitRef}

/-! ## Taking in a unit -/

namespace Takes

variable {P : Program} {f : Id → Id} {g g' g₁ g₁' : SystemGraph} {d d' : Pdg}

variable (h : Takes P d g g₁)
include h

theorem name_eq : g₁.name = g.name := by
  rw [h.same]
  rfl

theorem entryIds_eq : g₁.entries = g.entries ++ [d.entry.id] := by
  rw [h.same]
  rfl

theorem owner_eq : g₁.owner = d.nodeIds.foldl (fun t i => t.insert i (d.key P)) g.owner := by
  rw [h.same]
  rfl

theorem mentions_subset : g₁.mentions ⊆ g.mentions ++ d.mentions := by
  have hentry : d.entry.id ∈ d.mentions := mem_append_left _ mem_cons_self
  have hnodes : ∀ i ∈ d.nodeIds, i ∈ d.mentions := fun i hi =>
    d.mentions_graph (d.toGraph.nodeIds_subset_mentions hi)
  have hgraph : ∀ i, i ∈ d.nodes.flatMap Node.mentions ∨ i ∈ d.edges.flatMap Edge.mentions → i ∈ d.mentions :=
    fun i hi => d.mentions_graph (mem_append.2 hi)
  intro i hi
  simp only [mentions, Graph.mentions, h.nodes_eq, h.edges_eq, h.entryIds_eq, h.owner_eq, h.values_eq,
    mem_append, Table.mem_keys_foldl_insert] at hi ⊢
  grind

/-- What is held after a unit was taken in. -/
theorem held_perm (hd : d.Intact) : g₁.held.Perm (g.held ++ d.made.map Part.id) := by
  rw [held, held, h.values_eq, crossing_of_takes h hd, flatMap_append, flatMap_singleton, ← map_append,
    append_assoc, append_assoc]
  exact (perm_append_comm.append_left _).map _

/-- **Systems that take in images of one unit stay images.** -/
theorem image (h' : Takes P d' g' g₁') (hf : Function.Injective f) (hg : g.Image f g')
    (hd : d.Image f d') : g₁.Image f g₁' := by
  have hkey := hd.key_eq P
  refine ⟨⟨?_, ?_, ?_⟩, ?_, ?_, ?_, ?_, ?_⟩
  · rw [Graph.frame_merge h'.merged, Graph.frame_merge h.merged, hg.frame_eq]
  · rw [h'.nodes_eq, h.nodes_eq, hg.nodes_eq, hd.nodes_eq, map_append]
  · rw [h'.edges_eq, h.edges_eq, hg.edges_eq, hd.edges_eq, map_append]
  · rw [h'.name_eq, h.name_eq, hg.name_eq]
  · rw [h'.entryIds_eq, h.entryIds_eq, hg.entries_eq, hd.entry_eq, map_append]
    rfl
  · rw [h'.entries_eq, h.entries_eq]
    exact rel_append hg.pdgs (.cons ⟨hkey, hd⟩ .nil)
  · rw [h'.owner_eq, h.owner_eq, hg.owner_eq, hd.nodeIds_eq, hkey, Table.foldl_insert_rename hf.eq_iff]
  · rw [h'.failures_eq, h.failures_eq, hg.failures_eq]

end Takes

theorem Image.isSettled_eq {f : Id → Id} {g g' : SystemGraph} (h : Image f g g') (P : Program)
    (u : UnitRef) : g'.isSettled P u = g.isSettled P u := by
  rw [Bool.eq_iff_iff, isSettled_iff, isSettled_iff, h.keys_eq, h.failures_eq]

theorem Image.lacking_eq {f : Id → Id} {g g' : SystemGraph} (h : Image f g g') (P : Program)
    (us : List UnitRef) : g'.lacking P us = g.lacking P us := by
  refine filter_congr fun u _ => ?_
  rw [Bool.eq_iff_iff, Bool.not_eq_true', Bool.not_eq_true', ← Bool.not_eq_true, ← Bool.not_eq_true,
    Table.contains_iff, Table.contains_iff, h.keys_eq]

variable {context : Context} {u : UnitRef} {p p' q q' : BuildCache Pdg × Trail} {g g' g₁ g₁' : SystemGraph}

theorem has_of_mem_leadsTo {d : Pdg} {v : UnitRef} (h : v ∈ leadsTo context u d) : context.program.Has v := by
  cases u with
  | field r => exact absurd h not_mem_nil
  | method r => exact Program.has_of_inProject (mem_leadsTo_method.1 h).1

/-! ## One of two systems -/

/-- A system in the course of being put together, from a cache that was filled for its program.  Its
units are those that the cache has. -/
structure Side (context : Context) (p : BuildCache Pdg × Trail) (g : SystemGraph) : Prop where
  sound : p.1.Sound context
  stocking : ∃ t, Stocking context ({}, t) p g
  cached : ∀ e ∈ g.pdgs.entries, p.1.get? e.1 = some e.2

/-- What is made with the units of a system, and its edges besides, was made since the cache was
empty. -/
theorem Stocking.issued_held {t : Trail} (h : Stocking context ({}, t) p g) :
    Issued t.next p.2.next (g.pdgs.values.flatMap Pdg.made ++ g.crossing) := by
  obtain ⟨ds, hperm, hsub⟩ := subperm_of_subset h.composed.nodup_values h.cached
  have hissued : Issued t.next p.2.next (ds.flatMap Pdg.made ++ g.crossing) :=
    h.stocked.issued.sublist ((hsub.flatMap Pdg.made).append_right _)
  exact hissued.perm ((hperm.flatMap_right _).append_right _)

namespace Side

theorem start (htidy : p.1.Tidy p.2.next) (hsound : p.1.Sound context) {t : Trail}
    (hstocked : Stocked ({}, t) p []) (name : String) : Side context p (ofName name) where
  sound := hsound
  stocking := ⟨t, .empty htidy name, hstocked, fun _ hd => absurd hd not_mem_nil⟩
  cached _ he := absurd he not_mem_nil

theorem nodup_held (h : Side context p g) : g.held.Nodup := by
  obtain ⟨t, hstocking⟩ := h.stocking
  exact hstocking.issued_held.nodup

theorem held_below (h : Side context p g) : ∀ i ∈ g.held, i < p.2.next := by
  obtain ⟨t, hstocking⟩ := h.stocking
  exact forall_mem_map.2 fun x hx => (hstocking.issued_held.bounds x hx).2

theorem growing (h : Side context p g) : g.toGraph.Growing p.2.next := by
  obtain ⟨t, hstocking⟩ := h.stocking
  exact hstocking.composed.growing

theorem ends_integrateOne (hnamed : context.program.Named) (hu : context.program.Has u)
    (h : Side context p g) (hnot : g.isSettled context.program u = false) :
    Returns (integrateOne context u g) p fun r q => Side context q r.1 ∧ Admits context u q.1 g r.1 r.2 := by
  obtain ⟨t, hstocking⟩ := h.stocking
  apply ((hstocking.ends_integrateOne u).and
    (ends_integrateOne_admits hnamed hu hstocking.composed h.sound hnot)).mono _ fun _ _ hq => hq.2
  rintro ⟨g₁, us⟩ q ⟨⟨hstocking', hkept⟩, -, -, hsound, hadmits⟩
  have hold : ∀ e ∈ g.pdgs.entries, q.1.get? e.1 = some e.2 := fun e he =>
    BuildCache.get?_of_prefix hkept (h.cached e he)
  refine ⟨⟨hsound, ⟨t, hstocking'⟩, ?_⟩, hadmits⟩
  dsimp only at hadmits ⊢
  cases hadmits with
  | taken of cached takes =>
    rw [takes.entries_eq, of.known.2]
    exact forall_mem_append.2 ⟨hold, forall_mem_singleton.2 cached⟩
  | refused raises refuses => exact hold

theorem ends_connectCalls (h : Side context p g) :
    Returns (connectCalls context.program g.callNodes) (g, p.2) fun _ s => Side context (p.1, s.2) s.1 := by
  obtain ⟨t, hstocking⟩ := h.stocking
  apply (hstocking.ends_connectCalls.and
    (Composed.ends_connectCalls (p := (g, p.2)) g.callNodes hstocking.composed
    (.refl _))).mono _ fun _ _ hs => hs.2
  rintro _ s ⟨hstocking', -, -, ⟨es, hgains⟩, -⟩
  refine ⟨h.sound, ⟨t, hstocking'⟩, ?_⟩
  rw [hgains.pdgs_eq]
  exact h.cached

end Side

theorem ends_complete_of {good : SystemGraph → Prop} {bad : Prop}
    (h : Ends (addSummaries context.program) (g, p.2) (fun _ s => good s.1) (fun _ _ => bad)) :
    Ends (complete context g) p (fun g' _ => good g') (fun _ _ => bad) := by
  simp only [complete, ends_bind, ends_within]
  apply h.imp
  intro added s hs
  split <;> split <;> simpa only [ends_bind, ends_report, ends_pure] using hs

/-! ## Systems side by side -/

/-- Two systems that are put together side by side: one is the image of the other, and mentions
nothing but its parts. -/
structure Alike (context : Context) (p p' : BuildCache Pdg × Trail) (g g' : SystemGraph) : Prop where
  left : Side context p g
  right : Side context p' g'
  closed : g.mentions ⊆ g.held
  image : ∃ f : Equiv.Perm Id, g.Image f g'

namespace Alike

theorem exists_twin (h : Alike context p p' g g') : ∃ f, Twin f (g, p.2) (g', p'.2) := by
  obtain ⟨f, himage⟩ := h.image
  refine ⟨f, himage, h.left.growing, h.right.growing, fun i hi => h.left.held_below i (h.closed hi),
    ?_, h.closed⟩
  intro i hi
  apply h.right.held_below i
  rw [himage.held_eq]
  rw [himage.mentions_eq] at hi
  exact map_subset f h.closed hi

/-- **The graphs of one unit are taken in.**  Their ids are new on both sides, so the permutation is
free to take those of the first graph to those of the second one. -/
theorem takes (h : Alike context p p' g g') (hl : Side context q g₁) (hr : Side context q' g₁') {d d' : Pdg}
    (hd : Pdg.Of context u d) (hd' : Pdg.Of context u d') (ht : Takes context.program d g g₁)
    (ht' : Takes context.program d' g' g₁') : Alike context q q' g₁ g₁' := by
  obtain ⟨f, hf⟩ := h.image
  obtain ⟨δ, himage⟩ := hd.exists_image hd'
  have hperm := ht.held_perm hd.intact
  have hnew := hperm.nodup_iff.1 hl.nodup_held
  have hnew' := (ht'.held_perm hd'.intact).nodup_iff.1 hr.nodup_held
  rw [hf.held_eq, himage.made_eq] at hnew'
  rw [nodup_append] at hnew hnew'
  obtain ⟨f', hsame, hmoved⟩ := exists_extension f (· + δ) (d.made.map Part.id) g.mentions hnew'.2.1
    (fun i hi hmem => hnew.2.2 i (h.closed hi) i hmem rfl)
    (fun i hi hmem => hnew'.2.2 (f i) (mem_map_of_mem (h.closed hi)) _ hmem rfl)
  have hd₁ : d.Image f' d' := himage.congr fun i hi => hmoved i (hd.mentions_subset hi)
  refine ⟨hl, hr, ?_, f', ht.image ht' f'.injective (hf.congr hsame) hd₁⟩
  intro i hi
  rw [hperm.mem_iff, mem_append]
  exact (mem_append.1 (ht.mentions_subset hi)).imp (fun hi => h.closed hi) fun hi => hd.mentions_subset hi

/-- **A unit is taken in on both sides or refused on both sides,** and leads to the same units. -/
theorem admits (hu : context.program.Has u) (h : Alike context p p' g g') (hl : Side context q g₁)
    (hr : Side context q' g₁') {us' : List UnitRef} (ha : Admits context u q.1 g g₁ us)
    (ha' : Admits context u q'.1 g' g₁' us') :
    us' = us ∧ (∀ v ∈ us, context.program.Has v) ∧ Alike context q q' g₁ g₁' := by
  cases ha with
  | taken of _ takes =>
    cases ha' with
    | taken of' _ takes' =>
      have halike := h.takes hl hr of of' takes takes'
      obtain ⟨f, hf⟩ := halike.image
      refine ⟨?_, fun v hv => has_of_mem_leadsTo (mem_filter.1 hv).1, halike⟩
      rw [hf.lacking_eq, leadsTo_unique of of']
    | refused raises' _ => exact absurd raises' of.not_raises
  | refused raises refuses =>
    cases ha' with
    | taken of' _ _ => exact absurd raises of'.not_raises
    | refused _ refuses' =>
      obtain ⟨f, hf⟩ := h.image
      obtain rfl := refuses.eq hu refuses'
      refine ⟨rfl, forall_mem_nil _, hl, hr, h.closed, f, ?_⟩
      exact ⟨hf.toImage, hf.name_eq, hf.entries_eq, hf.pdgs, hf.owner_eq, by rw [hf.failures_eq]⟩

section

variable (hnamed : context.program.Named)
include hnamed

theorem follows_integrateOne (hu : context.program.Has u)
    (h : Alike context p p' g g') (hnot : g.isSettled context.program u = false) :
    Follows (integrateOne context u g) p (integrateOne context u g') p' fun r q r' q' =>
      r'.2 = r.2 ∧ (∀ v ∈ r.2, context.program.Has v) ∧ Alike context q q' r.1 r'.1 := by
  obtain ⟨f, hf⟩ := h.image
  have hnot' : g'.isSettled context.program u = false := by rw [hf.isSettled_eq, hnot]
  apply Follows.of_ends (h.left.ends_integrateOne hnamed hu hnot) (h.right.ends_integrateOne hnamed hu hnot')
  rintro r q r' q' ⟨hl, ha⟩ ⟨hr, ha'⟩
  exact h.admits hu hl hr ha ha'

/-- **The units of a stack are taken in with everything they lead to, on both sides.** -/
theorem follows_integrateStack (steps : Nat) {stack : List UnitRef}
    (hstack : ∀ u ∈ stack, context.program.Has u) (h : Alike context p p' g g') :
    Follows (integrateStack context steps stack g) p
      (integrateStack context steps stack g') p' fun g q g' q' => Alike context q q' g g' := by
  induction steps generalizing stack g g' p p' with
  | zero => exact h
  | succ steps ih =>
    obtain ⟨f, hf⟩ := h.image
    rw [integrateStack, integrateStack, funext (hf.isSettled_eq context.program)]
    cases htop : stack.dropWhile (g.isSettled context.program) with
    | nil => exact h
    | cons u rest =>
      obtain ⟨hu, hrest⟩ : context.program.Has u ∧ ∀ v ∈ rest, context.program.Has v :=
        forall_mem_cons.1 fun v hv => hstack v ((dropWhile_sublist _).subset (htop ▸ hv))
      apply (h.follows_integrateOne hnamed hu (isSettled_top htop)).bind
      rintro ⟨g₁, us⟩ q ⟨g₁', _⟩ q' ⟨rfl, hus, halike⟩
      exact ih (forall_mem_append.2 ⟨fun v hv => hus v (mem_reverse.1 hv), hrest⟩) halike

theorem follows_integrate (hu : context.program.Has u) (h : Alike context p p' g g') :
    Follows (integrate context u g) p (integrate context u g') p' fun g q g' q' =>
    Alike context q q' g g' := by
  rw [integrate, integrate]
  apply (h.follows_integrateStack hnamed _ (forall_mem_singleton.2 hu)).bind
  intro g₁ q g₁' q' h₁
  obtain ⟨f, htwin⟩ := h₁.exists_twin
  have hgrow := htwin.growAlike_connectCalls (P := context.program) (knows_callNodes g₁)
  rw [← htwin.image.toImage.callNodes_eq] at hgrow
  apply (hgrow.and_ends h₁.left.ends_connectCalls h₁.right.ends_connectCalls).within.bind
  rintro ⟨_, g₂⟩ ⟨_, t⟩ ⟨_, g₂'⟩ ⟨_, t'⟩ ⟨⟨⟨-, f', htwin', -⟩, hl, hr⟩, rfl, rfl⟩
  exact ⟨hl, hr, htwin'.closed, f', htwin'.image⟩

/-- **Units are put together on both sides.** -/
theorem follows_integrateEach (hus : ∀ u ∈ us, context.program.Has u) (h : Alike context p p' g g') :
    Follows (integrateEach context us g) p (integrateEach context us g') p' fun g q g' q' =>
      Alike context q q' g g' := by
  induction us generalizing g g' p p' with
  | nil => exact h
  | cons u us ih =>
    rw [forall_mem_cons] at hus
    rw [integrateEach, integrateEach]
    apply (h.follows_integrate hnamed hus.1).bind
    intro g₁ q g₁' q' h₁
    exact ih hus.2 h₁

end

/-- **The summary edges are added on both sides.** -/
theorem follows_complete (h : Alike context p p' g g') :
    Follows (complete context g) p (complete context g') p' fun g _ g' _ =>
    ∃ f t t', Twin f (g, t) (g', t') := by
  obtain ⟨f, htwin⟩ := h.exists_twin
  apply ends_complete_of
  apply Ends.partly (htwin.growAlike_addSummaries (P := context.program))
  intro added s hs
  apply ends_complete_of
  apply hs.imp
  rintro _ s' ⟨-, f', htwin', -⟩
  exact ⟨f', s.2, s'.2, htwin'⟩

end Alike

/-! ## Systems of one program -/

theorem FilledFor.exists_stocked (h : FilledFor context p) : ∃ t, Stocked ({}, t) p [] := by
  induction h with
  | start t => exact ⟨t, .refl BuildCache.steady_empty⟩
  | later _ hle ih =>
    obtain ⟨t, hstocked⟩ := ih
    exact ⟨t, hstocked.later hle⟩
  | @system _ hfilled name us _ ih =>
    obtain ⟨t, hstocked⟩ := ih
    have hends := ends_ofUnits_issued context name us hfilled.filled.tidy hstocked
    exact ⟨t, (hends.mono (fun _ _ hr => hr.1.sublist (nil_sublist _)) fun _ _ hr => hr.1).last⟩

theorem Alike.start (h : FilledFor context p) (h' : FilledFor context p')
    (name : String) : Alike context p p' (ofName name) (ofName name) := by
  have hside : ∀ {q}, FilledFor context q → Side context q (ofName name) := by
    intro q hq
    obtain ⟨t, hstocked⟩ := hq.exists_stocked
    exact .start hq.filled.tidy hq.sound hstocked name
  exact ⟨hside h, hside h', nil_subset _, .refl Id, ⟨rfl, rfl, rfl⟩, rfl, rfl, .nil, rfl, rfl⟩

/-- **A system is built alike with any two caches of its program,** and its units are those that the
cache has. -/
theorem follows_ofUnits (hnamed : context.program.Named) (h : FilledFor context p)
    (h' : FilledFor context p') (name : String) (hus : ∀ u ∈ us, context.program.Has u) :
    Follows (ofUnits context name us) p (ofUnits context name us) p' fun g q g' _ =>
      (∃ f t t', Twin f (g, t) (g', t')) ∧ ∀ e ∈ g.pdgs.entries, q.1.get? e.1 = some e.2 := by
  have heach := fun {q} (hq : FilledFor context q) =>
    Composed.ends_integrateEach context name us hq.filled.tidy
  apply (((Alike.start h h' name).follows_integrateEach hnamed hus).and_ends (heach h) (heach h')).bind
  rintro g q g' q' ⟨halike, ⟨-, hcomposed, hconnected⟩, -, hcomposed', hconnected'⟩
  apply (halike.follows_complete.and_ends (ends_complete context hcomposed hconnected)
    (ends_complete context hcomposed' hconnected')).mono
  rintro g₁ r g₁' r' ⟨htwin, ⟨⟨-, hcache⟩, ⟨t, es, hgains, -⟩, -⟩, -⟩
  refine ⟨htwin, ?_⟩
  rw [hcache, show g₁.pdgs = g.pdgs from hgains.pdgs_eq]
  exact halike.left.cached

/-- The cache does not show in a system that was built with it: the same one is built with an empty
cache, under other ids.  The graphs in the cache stay as they are, those of the new units included,
and take no edge that the system has besides them. -/
structure Transparent (x : Tracked (BuildCache Pdg) SystemGraph) (p : BuildCache Pdg × Trail)
    (g : SystemGraph) (q : BuildCache Pdg × Trail) : Prop where
  fresh : ∀ t, ∃ g' q', (x.run ({}, t) : Except Error SystemGraph × BuildCache Pdg × Trail)
    = (.ok g', q') ∧ ∃ f : Equiv.Perm Id, g.Image f g' ∧
      ∀ i, g'.edgesOutOf (f i) = (g.edgesOutOf i).map (Edge.mapIds f) ∧
        g'.edgesInto (f i) = (g.edgesInto i).map (Edge.mapIds f)
  kept : ∀ key d, p.1.get? key = some d → q.1.get? key = some d
  units : ∀ e ∈ g.pdgs.entries, q.1.get? e.1 = some e.2
  inner : ∀ key d, q.1.get? key = some d → ∀ e ∈ d.edges, e.isCrossing = false

theorem ofUnits_transparent (hnamed : context.program.Named) (h : FilledFor context p)
    (name : String) (hus : ∀ u ∈ us, context.program.Has u) :
    ∃ g q, (ofUnits context name us).run p = (.ok g, q) ∧
      Transparent (ofUnits context name us) p g q := by
  have htidy := h.filled.tidy
  obtain ⟨t₀, hstocked⟩ := h.exists_stocked
  obtain ⟨g, q, hrun, -⟩ := (ends_ofUnits_finished hnamed name hus htidy h.sound).exists_run
  obtain ⟨hkept, hgrown, -⟩ := (ends_iff_of_run hrun).1
    (ends_ofUnits_issued context name us htidy (.refl hstocked.steady))
  have hfollows := fun t =>
    ((ends_iff_of_run hrun).1 (follows_ofUnits hnamed h (.start t) name hus)).exists_run
  refine ⟨g, q, hrun, ?_, ?_, ?_, ?_⟩
  · intro t
    obtain ⟨g', q', hrun', ⟨f, _, _, htwin⟩, -⟩ := hfollows t
    have hcoherent := htwin.growing.coherent
    have hcoherent' := htwin.growing'.coherent
    exact ⟨g', q', hrun', f, htwin.image, fun i =>
      ⟨htwin.image.toImage.edgesOutOf_eq f.injective hcoherent hcoherent' i,
        htwin.image.toImage.edgesInto_eq f.injective hcoherent hcoherent' i⟩⟩
  · intro key d hd
    exact BuildCache.get?_of_prefix hkept.kept hd
  · obtain ⟨_, _, _, -, hunits⟩ := hfollows t₀
    exact hunits
  · intro key d hd e he
    have hintact := (hgrown.tidy htidy).intact d (Table.mem_values_of_find? hd)
    rw [Edge.isCrossing_eq, hintact.inner e he]
    rfl

/-- **The cache is transparent.**  Where names identify units and ids are handed out once, whatever
systems were built before: the system of a method and that of some classes are built as with an
empty cache, ids apart, and no graph in the cache is changed. -/
theorem built_transparent (hnamed : context.program.Named) {p : BuildCache Pdg × Trail}
    (h : FilledFor context p) : (∀ r, context.program.Has (.method r) →
      ∃ g q, ((ofMethod context r).run p : Except Error SystemGraph × BuildCache Pdg × Trail) = (.ok g, q) ∧
        Transparent (ofMethod context r) p g q) ∧
    ∀ name rs, (∀ u, context.program.Member rs u → context.program.Has u) →
      ∃ g q, ((ofClasses context name rs).run p : Except Error SystemGraph × BuildCache Pdg × Trail) =
        (.ok g, q) ∧ Transparent (ofClasses context name rs) p g q := by
  constructor
  · intro r hr
    exact ofUnits_transparent hnamed h _ (forall_mem_singleton.2 hr)
  · intro name rs hrs
    exact ofUnits_transparent hnamed h name fun u hu => hrs u (Program.mem_unitsByLevel.1 hu)

/-- The cache and the ids after the system of `step` was built. -/
def afterStep : BuildCache Pdg × Trail :=
  ((ofMethod { program := dispatching } ⟨1⟩).run ({}, { next := 1 }) :
    Except Error SystemGraph × BuildCache Pdg × Trail).2

/-- After the system of `step`, that of `run` takes all its graphs from the cache, and that of the
class all but one. Their entries are not the ones that an empty cache leads to, which start from 1. -/
theorem dispatching_transparent : dispatching.Named ∧ FilledFor { program := dispatching } afterStep ∧
    afterStep.1.results.keys = ["App.Part#step()", "App#run()", "App#limit"] ∧
    (∃ g q, ((ofMethod { program := dispatching } ⟨0⟩).run afterStep :
        Except Error SystemGraph × BuildCache Pdg × Trail) = (.ok g, q) ∧
      Transparent (ofMethod { program := dispatching } ⟨0⟩) afterStep g q ∧ g.entries = [11, 30, 1]) ∧
    ∃ g q, ((ofClasses { program := dispatching } "App" [⟨0⟩]).run afterStep :
        Except Error SystemGraph × BuildCache Pdg × Trail) = (.ok g, q) ∧
      Transparent (ofClasses { program := dispatching } "App" [⟨0⟩]) afterStep g q ∧
      g.entries = [30, 11, 1, 40] := by
  have hnamed : dispatching.Named := named_of_nodup (by decide +kernel)
  have hfilled : FilledFor { program := dispatching } afterStep :=
    .system (.start { next := 1 }) _ (forall_mem_singleton.2 rfl)
  have hmembers : ∀ u ∈ dispatching.unitsByLevel [⟨0⟩], dispatching.Has u := by decide +kernel
  obtain ⟨hmethod, hclasses⟩ := @built_transparent { program := dispatching } hnamed _ hfilled
  obtain ⟨g, q, hrun, htransparent⟩ := hmethod ⟨0⟩ rfl
  obtain ⟨g', q', hrun', htransparent'⟩ := hclasses "App" [⟨0⟩] fun u hu =>
    hmembers u (Program.mem_unitsByLevel.2 hu)
  refine ⟨hnamed, hfilled,
    by decide +kernel, ⟨g, q, hrun, htransparent, ?_⟩, g', q', hrun', htransparent', ?_⟩
  · exact of_run hrun (by decide +kernel)
  · exact of_run hrun' (by decide +kernel)

end SystemGraph

end ProgramDependence
