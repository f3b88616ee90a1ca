import ProgramDependence.Proofs.DefUse

/-!
# The tree of immediate post-dominators

The table of immediate post-dominators has an entry for every node that reaches the exit, except the
exit, and for no other node.  Going up from entry to entry ends at the exit: the immediate
post-dominator of a node lies further on every walk from the node to the exit.  So the ways up that
control dependence takes come to an end.
-/

namespace ProgramDependence

open List Relation

namespace Cfg

variable {c : Cfg} {tree : Table Id Id} {n : Id}

/-- One step up a table of post-dominators. -/
def Up (tree : Table Id Id) (a b : Id) : Prop :=
  tree.find? a = some b

theorem exists_walk_up (htree : c.PostDominatorTable tree) {xs : List Id}
    (hwalk : Walk c.Flow n xs c.exit.id) : ∃ ys, Walk (Up tree) n ys c.exit.id := by
  induction hlength : xs.length using Nat.strongRecOn generalizing n xs with
  | ind k ih =>
    by_cases hexit : n = c.exit.id
    · exact ⟨[], hexit ▸ .stay _⟩
    · obtain ⟨d, hd⟩ := exists_immediatelyPostDominates hwalk.reflTransGen hexit
      obtain ⟨us, vs, rfl, hus, hvs⟩ := hwalk.cut (hd.dominates xs hwalk)
      have hshorter : vs.length < k := by
        cases hus with
        | stay => exact absurd rfl hd.ne
        | go => simp only [length_cons, length_append] at hlength; omega
      obtain ⟨ys, hys⟩ := ih _ hshorter hvs rfl
      exact ⟨n :: ys, .go ((htree.find hwalk.reflTransGen hexit).2 hd) hys⟩

theorem Up.length_le {a b : Id} {xs : List Id} (h : Walk (Up tree) a xs b)
    (hnodup : (xs ++ [b]).Nodup) : xs.length ≤ tree.size := by
  have hsubset : xs ⊆ tree.keys := by
    clear hnodup
    induction h with
    | stay => exact nil_subset _
    | go head _ ih => exact cons_subset.2 ⟨Digraph.mem_keys_of_find? head, ih⟩
  have hlength := (subperm_of_subset hnodup.of_append_left hsubset).length_le
  rwa [Table.keys, length_map] at hlength

open ControlDependence in
theorem climb_congr {exit : Id} {xs : List Id} (h : Walk (Up tree) n xs exit) (stop : Option Id)
    {fuel fuel' : Nat} (hfuel : xs.length < fuel) (hfuel' : xs.length < fuel') :
    climb tree exit stop fuel (some n) = climb tree exit stop fuel' (some n) := by
  induction h generalizing fuel fuel' with
  | stay =>
    obtain ⟨fuel, rfl⟩ := Nat.exists_eq_add_one.2 (Nat.zero_lt_of_lt hfuel)
    obtain ⟨fuel', rfl⟩ := Nat.exists_eq_add_one.2 (Nat.zero_lt_of_lt hfuel')
    simp [climb]
  | go head _ ih =>
    obtain ⟨fuel, rfl⟩ := Nat.exists_eq_add_one.2 (Nat.zero_lt_of_lt hfuel)
    obtain ⟨fuel', rfl⟩ := Nat.exists_eq_add_one.2 (Nat.zero_lt_of_lt hfuel')
    rw [climb, climb, show tree.find? _ = _ from head, ih (Nat.lt_of_succ_lt_succ hfuel)
      (Nat.lt_of_succ_lt_succ hfuel')]

open ControlDependence in
theorem climb_eq_wayUp (htree : c.PostDominatorTable tree) (stop : Option Id) {fuel : Nat}
    (hfuel : tree.size + 2 ≤ fuel) : climb tree c.exit.id stop fuel (some n) = wayUp c tree stop n := by
  by_cases hn : ReflTransGen c.Flow n c.exit.id
  · obtain ⟨xs, hxs⟩ := Walk.exists_of_reflTransGen hn
    obtain ⟨ys, hys⟩ := exists_walk_up htree hxs
    obtain ⟨zs, hzs, hnodup, -⟩ := hys.exists_simple
    have hlength := Up.length_le hzs hnodup
    exact climb_congr hzs stop (by omega) (by omega)
  · obtain ⟨fuel, rfl⟩ : ∃ k, fuel = k + 2 := ⟨fuel - 2, by omega⟩
    have hnone : tree.find? n = none := Option.eq_none_iff_forall_ne_some.2 fun d hd =>
      hn (htree.keys.1 (Digraph.mem_keys_of_find? hd)).2
    simp [wayUp, climb, hnone]

/-- **The table holds the immediate post-dominators**, for the nodes that reach the exit, whichever
way immediate dominators are found.  It leads up from each of these nodes to the exit, and every way
up in it ends. -/
theorem postDominatorTree_exact {idom : Digraph → Id → Table Id Id}
    (hidom : ∀ (g : Digraph) (start : Id), start ∈ g.nodes → g.DominatorTable start (idom g start))
    (hexit : c.exit.id ∈ c.nodeIds) :
    (∀ n, n ∈ (c.postDominatorTreeBy idom).keys ↔ n ≠ c.exit.id ∧ ReflTransGen c.Flow n c.exit.id) ∧
    (∀ n ∈ (c.postDominatorTreeBy idom).keys, ∃ d, (c.postDominatorTreeBy idom).find? n = some d ∧
      (∀ e, ImmediatelyPostDominates c.Flow c.exit.id e n ↔ e = d) ∧
      ∃ xs, Walk (Up (c.postDominatorTreeBy idom)) n xs c.exit.id) ∧
    ∀ stop fuel n, (c.postDominatorTreeBy idom).size + 2 ≤ fuel →
      ControlDependence.climb (c.postDominatorTreeBy idom) c.exit.id stop fuel (some n) =
        ControlDependence.wayUp c (c.postDominatorTreeBy idom) stop n := by
  have hnode : c.exit.id ∈ (c.toDigraph true fun _ => true).nodes :=
    Search.mem_fresh.2 ⟨mem_append_left _ hexit, not_mem_nil⟩
  have htree : c.PostDominatorTable (c.postDominatorTreeBy idom) := postDominatorTable_erase (hidom _ _ hnode)
  refine ⟨fun n => htree.keys, fun n hn => ?_, fun stop fuel n => climb_eq_wayUp htree stop⟩
  obtain ⟨hne, hreach⟩ := htree.keys.1 hn
  obtain ⟨d, hd⟩ := exists_immediatelyPostDominates hreach hne
  obtain ⟨xs, hxs⟩ := Walk.exists_of_reflTransGen hreach
  refine ⟨d, (htree.find hreach hne).2 hd, fun e => ⟨fun he => he.unique hd hreach, ?_⟩,
    exists_walk_up htree hxs⟩
  rintro rfl
  exact hd

open DataDependence in
/-- The step of the counting loop is post-dominated by the test next, and then by the exit. -/
theorem countingLoop_postDominatorTree : countingLoop.exit.id ∈ countingLoop.nodeIds ∧
    ImmediatelyPostDominates countingLoop.Flow 2 3 4 ∧
    ∃ xs, Walk (Up countingLoop.postDominatorTree) 4 xs 2 := by
  have hexit : countingLoop.exit.id ∈ countingLoop.nodeIds := by decide
  obtain ⟨d, hd, hunique, hwalk⟩ := (postDominatorTree_exact
    (fun g start _ => g.dominatorTable_immediateDominators start) hexit).2.1 4 (by decide +kernel)
  obtain rfl : 3 = d :=
    Option.some.inj ((by decide +kernel : countingLoop.postDominatorTree.find? 4 = some 3).symm.trans hd)
  exact ⟨hexit, (hunique 3).2 rfl, hwalk⟩

end Cfg

end ProgramDependence
