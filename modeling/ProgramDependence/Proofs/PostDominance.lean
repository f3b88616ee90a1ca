import ProgramDependence.Dependence.Control
import ProgramDependence.Proofs.Walk

/-!
# Post-dominance

`PostDominates step z m n`: every walk from `n` to `z` visits `m`.  The nodes that post-dominate a
node which reaches `z` are linearly ordered, so all but `z` have an immediate post-dominator.

A `DominatorTable` is what a search for immediate dominators is to find, and the search of the
library finds it.  From the turned flow graph this gives the table of immediate post-dominators, and
the way up in such a table meets exactly the post-dominators below the one it stops at.
-/

namespace ProgramDependence

open List Relation

variable {α : Type} {step : α → α → Prop} {z d e m n k : α}

/-- Every walk from `n` to `z` visits `m`. -/
def PostDominates (step : α → α → Prop) (z m n : α) : Prop :=
  ∀ xs, Walk step n xs z → m ∈ xs ++ [z]

namespace PostDominates

theorem refl (n : α) : PostDominates step z n n :=
  fun _ h => h.start_mem

theorem last (n : α) : PostDominates step z z n :=
  fun _ _ => by simp

theorem trans (hmn : PostDominates step z m n) (hnk : PostDominates step z n k) :
    PostDominates step z m k := by
  intro xs hxs
  obtain ⟨ys, zs, rfl, -, hzs⟩ := hxs.cut (hnk xs hxs)
  rw [append_assoc]
  exact mem_append_right _ (hmn zs hzs)

theorem of_step (hm : PostDominates step z m n) (hne : m ≠ n) (hstep : step n k) :
    PostDominates step z m k := by
  intro xs hxs
  have hmem := hm _ (.go hstep hxs)
  rw [cons_append, mem_cons] at hmem
  exact hmem.resolve_left hne

theorem reaches (hm : PostDominates step z m n) (hn : ReflTransGen step n z) :
    ReflTransGen step m z := by
  obtain ⟨xs, hxs⟩ := Walk.exists_of_reflTransGen hn
  obtain ⟨_, zs, -, -, hzs⟩ := hxs.cut (hm xs hxs)
  exact hzs.reflTransGen

theorem eq_last (hm : PostDominates step z m z) : m = z := by
  simpa using hm [] (.stay z)

theorem antisymm (hmn : PostDominates step z m n) (hnm : PostDominates step z n m)
    (hn : ReflTransGen step n z) : m = n := by
  obtain ⟨xs, hxs⟩ := Walk.exists_of_reflTransGen hn
  obtain ⟨xs, hxs, hnodup, -⟩ := hxs.exists_simple
  obtain ⟨ys, zs, rfl, hys, hzs⟩ := hxs.cut (hmn xs hxs)
  rw [append_assoc] at hnodup
  cases hys with
  | stay => rfl
  | go => exact absurd (hnm zs hzs) (disjoint_of_nodup_append hnodup mem_cons_self)

/-- The post-dominators of a node form a chain. -/
theorem total (hd : PostDominates step z d n) (he : PostDominates step z e n)
    (hn : ReflTransGen step n z) : PostDominates step z d e ∨ PostDominates step z e d := by
  obtain ⟨xs, hxs⟩ := Walk.exists_of_reflTransGen hn
  obtain ⟨xs, hxs, hnodup, -⟩ := hxs.exists_simple
  obtain ⟨ys, zs, rfl, hys, hzs⟩ := hxs.cut (hd xs hxs)
  rw [append_assoc] at hnodup
  have hdisjoint := disjoint_of_nodup_append hnodup
  have hmem := he _ hxs
  rw [append_assoc, mem_append] at hmem
  rcases hmem with hmem | hmem
  · -- `e` is visited first: what comes before it does not visit `d`.
    obtain ⟨us, vs, rfl, hus, -⟩ := hys.cut (mem_append_left _ hmem)
    refine .inl fun ws hws => ?_
    have hvisits := hd _ (hus.append hws)
    rw [append_assoc, mem_append] at hvisits
    exact hvisits.resolve_left fun hmem => hdisjoint (mem_append_left _ hmem) hzs.start_mem
  · refine .inr fun ws hws => ?_
    have hvisits := he _ (hys.append hws)
    rw [append_assoc, mem_append] at hvisits
    exact hvisits.resolve_left fun hmem' => hdisjoint hmem' hmem

end PostDominates

theorem not_postDominates_iff (hz : z ≠ d) : ¬ PostDominates step z d n ↔
    ReflTransGen (fun a b => step b a ∧ b ≠ d) z n := by
  rw [← Walk.exists_visiting_iff (P := (· ≠ d)) hz]
  simp only [PostDominates, not_forall, exists_prop, ne_eq, forall_mem_ne']

/-- The nearest other post-dominator: all others post-dominate it. -/
structure ImmediatelyPostDominates (step : α → α → Prop) (z d n : α) : Prop where
  ne : d ≠ n
  dominates : PostDominates step z d n
  nearest : ∀ e, e ≠ n → PostDominates step z e n → PostDominates step z e d

theorem ImmediatelyPostDominates.unique (hd : ImmediatelyPostDominates step z d n)
    (he : ImmediatelyPostDominates step z e n) (hn : ReflTransGen step n z) : d = e :=
  (he.nearest d hd.ne hd.dominates).antisymm (hd.nearest e he.ne he.dominates) (he.dominates.reaches hn)

theorem exists_nearest {P : α → Prop} {R : α → α → Prop} (hrefl : ∀ a, R a a)
    (htrans : ∀ a b c, R a b → R b c → R a c) (htotal : ∀ a b, P a → P b → R a b ∨ R b a) {a : α}
    (ha : P a) (xs : List α) : ∃ d, P d ∧ R a d ∧ ∀ x ∈ xs, P x → R x d := by
  induction xs with
  | nil => exact ⟨a, ha, hrefl a, by simp⟩
  | cons x xs ih =>
    obtain ⟨d, hd, had, hall⟩ := ih
    by_cases hx : P x ∧ R d x
    · refine ⟨x, hx.1, htrans _ _ _ had hx.2, forall_mem_cons.2 ⟨fun _ => hrefl x, fun y hy hPy => ?_⟩⟩
      exact htrans _ _ _ (hall y hy hPy) hx.2
    · refine ⟨d, hd, had, forall_mem_cons.2 ⟨fun hPx => ?_, hall⟩⟩
      exact (htotal x d hPx hd).resolve_right fun hdx => hx ⟨hPx, hdx⟩

theorem exists_immediatelyPostDominates (hn : ReflTransGen step n z) (hne : n ≠ z) :
    ∃ d, ImmediatelyPostDominates step z d n := by
  obtain ⟨xs, hxs⟩ := Walk.exists_of_reflTransGen hn
  obtain ⟨d, hd, -, hall⟩ := exists_nearest (P := fun d => d ≠ n ∧ PostDominates step z d n)
    .refl (fun _ _ _ => .trans) (fun a b ha hb => ha.2.total hb.2 hn)
    ⟨hne.symm, .last n⟩ (xs ++ [z])
  exact ⟨d, hd.1, hd.2, fun e he hdom => hall e (hdom xs hxs) ⟨he, hdom⟩⟩

/-! ## Tables of immediate dominators -/

/-- Every walk from `z` to `n` visits `m`. -/
def Dominates (step : α → α → Prop) (z m n : α) : Prop :=
  ∀ xs, Walk step z xs n → m ∈ xs ++ [n]

/-- The nearest other dominator: all others dominate it. -/
structure ImmediatelyDominates (step : α → α → Prop) (z d n : α) : Prop where
  ne : d ≠ n
  dominates : Dominates step z d n
  nearest : ∀ e, e ≠ n → Dominates step z e n → Dominates step z e d

theorem dominates_swap_iff : Dominates (Function.swap step) z m n ↔ PostDominates step z m n := by
  constructor
  all_goals
    intro h xs hxs
    obtain ⟨ys, hys, hmem⟩ := hxs.turn
    exact (hmem m).1 (h ys hys)

theorem immediatelyDominates_swap_iff :
    ImmediatelyDominates (Function.swap step) z d n ↔ ImmediatelyPostDominates step z d n := by
  constructor
  · rintro ⟨hne, hdom, hnearest⟩
    exact ⟨hne, dominates_swap_iff.1 hdom, fun e he h => dominates_swap_iff.1
      (hnearest e he (dominates_swap_iff.2 h))⟩
  · rintro ⟨hne, hdom, hnearest⟩
    exact ⟨hne, dominates_swap_iff.2 hdom, fun e he h => dominates_swap_iff.2
      (hnearest e he (dominates_swap_iff.1 h))⟩

namespace Digraph

variable {g : Digraph} {start d n : Id}

def Arc (g : Digraph) (a b : Id) : Prop :=
  (a, b) ∈ g.arcs

/-- What is asked of a table of immediate dominators: it has the nodes that the start reaches, and
gives the immediate dominator of each but the start. -/
structure DominatorTable (g : Digraph) (start : Id) (idom : Table Id Id) : Prop where
  keys : ∀ n, n ∈ idom.keys ↔ ReflTransGen g.Arc start n
  immediate : ∀ n ∈ idom.keys, n ≠ start → ∃ d, idom.find? n = some d ∧ ImmediatelyDominates g.Arc start d n

theorem mem_successors {a b : Id} : b ∈ g.successors a ↔ g.Arc a b := by
  simp [successors, Arc]

theorem mem_reach : n ∈ g.reach start ↔ ReflTransGen g.Arc start n := by
  have hdomain : ∀ x, ∀ y ∈ g.successors x, y ∈ g.arcs.map (·.2) := fun x y hy =>
    mem_map_of_mem (mem_successors.1 hy)
  rw [reach, Search.mem_reach_iff hdomain (by simp)]
  simp only [mem_singleton, exists_eq_left, mem_successors]

theorem mem_reachAvoiding :
    n ∈ g.reachAvoiding start d ↔ ¬ PostDominates (Function.swap g.Arc) start d n := by
  by_cases hstart : start = d
  · have hlast : PostDominates (Function.swap g.Arc) start d n := hstart ▸ .last n
    rw [reachAvoiding, if_pos hstart]
    simpa using hlast
  · have hdomain : ∀ x, ∀ y ∈ (g.successors x).filter (· ≠ d), y ∈ g.arcs.map (·.2) := fun x y hy =>
      mem_map_of_mem (mem_successors.1 (mem_filter.1 hy).1)
    rw [reachAvoiding, if_neg hstart, Search.mem_reach_iff hdomain (by simp), not_postDominates_iff hstart]
    simp [mem_successors, Function.swap]

theorem mem_strictDominators (hn : ReflTransGen g.Arc start n) {p : Id × List Id} :
    p ∈ strictDominators (g.cuts start) n ↔ p = (p.1, g.reachAvoiding start p.1) ∧ p.1 ≠ n ∧
      PostDominates (Function.swap g.Arc) start p.1 n := by
  simp only [strictDominators, cuts, mem_filter, mem_map, Bool.and_eq_true,
    decide_eq_true_eq, Bool.not_eq_true', contains_eq_mem, decide_eq_false_iff_not]
  constructor
  · rintro ⟨⟨d, -, rfl⟩, hne, hnot⟩
    exact ⟨rfl, hne, by simpa [mem_reachAvoiding] using hnot⟩
  · rintro ⟨hp, hne, hdom⟩
    refine ⟨⟨p.1, mem_reach.2 (hdom.reaches (reflTransGen_swap.2 hn)).swap, hp.symm⟩, hne, ?_⟩
    rw [hp, mem_reachAvoiding]
    exact fun h => h hdom

/-- What is picked is the nearest strict dominator. -/
theorem immediate?_eq_some_iff (hn : ReflTransGen g.Arc start n) : immediate? (g.cuts start) n = some d ↔
    ImmediatelyPostDominates (Function.swap g.Arc) start d n := by
  have hchosen {d : Id} (h : immediate? (g.cuts start) n = some d) :
      ImmediatelyPostDominates (Function.swap g.Arc) start d n := by
    obtain ⟨p, hp, rfl⟩ := Option.map_eq_some_iff.1 h
    obtain ⟨-, hpn, hdom⟩ := (mem_strictDominators hn).1 (mem_of_find?_eq_some hp)
    refine ⟨hpn, hdom, fun e he hedom => ?_⟩
    have hall := find?_some hp
    have he' := all_eq_true.1 hall (e, g.reachAvoiding start e) ((mem_strictDominators hn).2 ⟨rfl, he, hedom⟩)
    simp only [Bool.or_eq_true, decide_eq_true_eq, Bool.not_eq_true', contains_eq_mem,
      decide_eq_false_iff_not, mem_reachAvoiding, not_not] at he'
    rcases he' with rfl | he'
    · exact .refl _
    · exact he'
  refine ⟨hchosen, fun hd => ?_⟩
  cases hfound : immediate? (g.cuts start) n with
  | some d' => rw [(hchosen hfound).unique hd (reflTransGen_swap.2 hn)]
  | none =>
    have hnone := find?_eq_none.1 (Option.map_eq_none_iff.1 hfound) (d, g.reachAvoiding start d)
      ((mem_strictDominators hn).2 ⟨rfl, hd.ne, hd.dominates⟩)
    refine absurd (all_eq_true.2 fun p hp => ?_) hnone
    obtain ⟨hp, hpn, hdom⟩ := (mem_strictDominators hn).1 hp
    rw [hp]
    simp only [Bool.or_eq_true, Bool.not_eq_true', contains_eq_mem, decide_eq_false_iff_not,
      mem_reachAvoiding, not_not]
    exact .inr (hd.nearest p.1 hpn hdom)

theorem find?_filterMap (f : Id → Option Id) (ids : List Id) (k : Id) :
    Table.find? ⟨ids.filterMap fun i => (f i).map (i, ·)⟩ k = if k ∈ ids then f k else none := by
  induction ids with
  | nil => rfl
  | cons i ids ih =>
    simp only [Table.find?] at ih ⊢
    cases hi : f i with
    | none =>
      rw [filterMap_cons_none (by simp [hi]), ih]
      by_cases hk : k = i
      · subst hk
        simp [hi]
      · simp [hk]
    | some v =>
      rw [filterMap_cons_some (by simp [hi]; rfl)]
      by_cases hk : i = k
      · subst hk
        simp [hi]
      · rw [find?_cons_of_neg (by simpa using hk), ih]
        simp [Ne.symm hk]

theorem mem_keys_of_find? {t : Table Id Id} (h : t.find? n = some d) : n ∈ t.keys := by
  obtain ⟨p, hp, -⟩ := Option.map_eq_some_iff.1 h
  have hkey : p.1 = n := by simpa using find?_some hp
  exact hkey ▸ mem_map_of_mem (mem_of_find?_eq_some hp)

theorem find?_immediateDominators (hne : n ≠ start) (hn : ReflTransGen g.Arc start n) :
    (g.immediateDominators start).find? n = some d ↔
    ImmediatelyPostDominates (Function.swap g.Arc) start d n := by
  have hmem : n ∈ (g.reach start).filter (· ≠ start) := by simp [mem_reach.2 hn, hne]
  have hrest : (g.immediateDominators start).find? n = immediate? (g.cuts start) n := by
    refine Eq.trans ?_ ((find?_filterMap (immediate? (g.cuts start)) _ n).trans (if_pos hmem))
    simp only [immediateDominators, Table.find?]
    rw [find?_cons_of_neg (by simpa using Ne.symm hne)]
  rw [hrest, immediate?_eq_some_iff hn]

/-- **The search for dominators finds them**, in every digraph and from every start. -/
theorem dominatorTable_immediateDominators (g : Digraph) (start : Id) :
    g.DominatorTable start (g.immediateDominators start) := by
  have hreaches : ∀ n ∈ (g.immediateDominators start).keys, ReflTransGen g.Arc start n := by
    intro n hn
    rcases mem_cons.1 hn with rfl | hn
    · exact .refl
    · obtain ⟨p, hp, rfl⟩ := mem_map.1 hn
      obtain ⟨k, hk, hp⟩ := mem_filterMap.1 hp
      obtain ⟨d, -, rfl⟩ := Option.map_eq_some_iff.1 hp
      exact mem_reach.1 (mem_filter.1 hk).1
  have hfinds {n : Id} (hne : n ≠ start) (hn : ReflTransGen g.Arc start n) : ∃ d,
      (g.immediateDominators start).find? n = some d ∧
      ImmediatelyPostDominates (Function.swap g.Arc) start d n := by
    obtain ⟨d, hd⟩ := exists_immediatelyPostDominates (reflTransGen_swap.2 hn) hne
    exact ⟨d, (find?_immediateDominators hne hn).2 hd, hd⟩
  refine ⟨fun n => ⟨hreaches n, fun hn => ?_⟩, fun n hn hne => ?_⟩
  · by_cases hne : n = start
    · exact hne ▸ mem_cons_self
    · obtain ⟨d, hd, -⟩ := hfinds hne hn
      exact mem_keys_of_find? hd
  · obtain ⟨d, hd, himmediate⟩ := hfinds hne (hreaches n hn)
    exact ⟨d, hd, immediatelyDominates_swap_iff.2 himmediate⟩

end Digraph

/-! ## The table of immediate post-dominators -/

namespace Cfg

variable {c : Cfg} {d n m : Id}

/-- A step along any edge of a flow graph. -/
abbrev Flow (c : Cfg) : Id → Id → Prop :=
  c.Arrow fun _ => true

/-- A table that gives the immediate post-dominators of the nodes that reach the exit, except the
exit. -/
structure PostDominatorTable (c : Cfg) (tree : Table Id Id) : Prop where
  keys : ∀ {n}, n ∈ tree.keys ↔ n ≠ c.exit.id ∧ ReflTransGen c.Flow n c.exit.id
  find : ∀ {n d}, ReflTransGen c.Flow n c.exit.id → n ≠ c.exit.id →
    (tree.find? n = some d ↔ ImmediatelyPostDominates c.Flow c.exit.id d n)

theorem arc_toDigraph (c : Cfg) : (c.toDigraph true fun _ => true).Arc = Function.swap c.Flow := by
  funext a b
  simp [Digraph.Arc, Graph.toDigraph, Search.mem_fresh, Function.swap, Graph.Arrow, and_comm]

/-- Whatever finds the immediate dominators of the turned graph finds the immediate post-dominators. -/
theorem postDominatorTable_erase {idom : Table Id Id}
    (h : (c.toDigraph true fun _ => true).DominatorTable c.exit.id idom) :
    c.PostDominatorTable (idom.erase c.exit.id) := by
  have hreach {n : Id} : n ∈ idom.keys ↔ ReflTransGen c.Flow n c.exit.id := by
    rw [h.keys, arc_toDigraph, reflTransGen_swap]
  refine ⟨fun {n} => ?_, fun {n d} hn hne => ?_⟩
  · rw [← hreach]
    simp [Table.keys, Table.erase, and_comm]
  · obtain ⟨d', hd', himmediate⟩ := h.immediate n (hreach.2 hn) hne
    rw [arc_toDigraph, immediatelyDominates_swap_iff] at himmediate
    rw [Table.find?_erase, if_neg hne, hd', Option.some.injEq]
    refine ⟨?_, fun hd => himmediate.unique hd hn⟩
    rintro rfl
    exact himmediate

theorem postDominatorTable (c : Cfg) : c.PostDominatorTable c.postDominatorTree :=
  postDominatorTable_erase (Digraph.dominatorTable_immediateDominators _ _)

end Cfg

/-! ## The way up -/

namespace ControlDependence

open Cfg

variable {c : Cfg} {tree : Table Id Id} {n m : Id} {stop : Option Id}

/-- Climbing meets the post-dominators up to where it stops. -/
theorem mem_climb (htree : c.PostDominatorTable tree) {fuel : Nat} {xs : List Id}
    (hwalk : Walk c.Flow n xs c.exit.id) (hfuel : xs.length < fuel)
    (hstop : ∀ s ∈ stop, PostDominates c.Flow c.exit.id s n) :
    m ∈ climb tree c.exit.id stop fuel (some n) ↔ PostDominates c.Flow c.exit.id m n ∧
        m ≠ c.exit.id ∧ ∀ s ∈ stop, ¬ PostDominates c.Flow c.exit.id m s := by
  induction fuel generalizing n xs with
  | zero => omega
  | succ fuel ih =>
    have hn := hwalk.reflTransGen
    rw [climb]
    by_cases hstopped : stop = some n
    · simp only [hstopped, decide_true, Bool.true_or, if_true, not_mem_nil, false_iff]
      rintro ⟨hdom, -, hnot⟩
      exact hnot n rfl hdom
    by_cases hexit : n = c.exit.id
    · simp only [hexit, decide_true, Bool.or_true, if_true, not_mem_nil, false_iff]
      rintro ⟨hdom, hne, -⟩
      exact hne hdom.eq_last
    obtain ⟨d, hd⟩ := exists_immediatelyPostDominates hn hexit
    have hstop' : ∀ s ∈ stop, PostDominates c.Flow c.exit.id s d := fun s hs =>
      hd.nearest s (fun heq => hstopped (heq ▸ hs)) (hstop s hs)
    -- The immediate post-dominator lies further on the walk.
    obtain ⟨ys, zs, rfl, hys, hzs⟩ := hwalk.cut (hd.dominates xs hwalk)
    have hlength : zs.length < fuel := by
      cases hys with
      | stay => exact absurd rfl hd.ne
      | go => simp only [length_cons, length_append] at hfuel; omega
    have hrest := ih hzs hlength hstop'
    rw [(htree.find hn hexit).2 hd]
    have hgo : ¬ (decide (some n = stop) || decide (n = c.exit.id)) = true := by
      simp [hexit, Ne.symm hstopped]
    rw [if_neg hgo, mem_cons, hrest]
    by_cases hm : m = n
    · subst hm
      simp only [true_or, true_iff]
      refine ⟨.refl m, hexit, fun s hs hms => hstopped ?_⟩
      rw [← (hstop s hs).antisymm hms hn]
      exact hs
    · simp only [hm, false_or]
      refine and_congr_left fun _ => ⟨fun h => h.trans hd.dominates, hd.nearest m hm⟩

theorem mem_wayUp (htree : c.PostDominatorTable tree) (hn : ReflTransGen c.Flow n c.exit.id)
    (hstop : ∀ s ∈ stop, PostDominates c.Flow c.exit.id s n) : m ∈ wayUp c tree stop n ↔
      PostDominates c.Flow c.exit.id m n ∧ m ≠ c.exit.id ∧
      ∀ s ∈ stop, ¬ PostDominates c.Flow c.exit.id m s := by
  obtain ⟨xs, hxs⟩ := Walk.exists_of_reflTransGen hn
  obtain ⟨xs, hxs, hnodup, -⟩ := hxs.exists_simple
  refine mem_climb htree hxs ?_ hstop
  have hsubset : xs ⊆ tree.keys := by
    intro x hx
    obtain ⟨ys, zs, -, -, hzs⟩ := hxs.cut (mem_append_left _ hx)
    refine htree.keys.2 ⟨fun heq => ?_, hzs.reflTransGen⟩
    exact disjoint_of_nodup_append hnodup hx (heq ▸ mem_singleton_self _)
  have hlength := (subperm_of_subset hnodup.of_append_left hsubset).length_le
  rw [Table.keys, length_map] at hlength
  rw [Table.size]
  omega

end ControlDependence

end ProgramDependence
