import ProgramDependence.Proofs.Carriers

/-!
# The region of a loop

The region of a loop is found by a search against control flow, from the loop node and from where
the loop is closed; it does not go beyond where the closing edges lead.  In the flow graph of a
method these lead to one node, and whatever comes into the loop passes that node.  So the search
does not leave the loop, whatever loops are around it, and the node dominates the region
(`regions_exact`).
-/

namespace ProgramDependence

open List Relation Control

/-! ## The search -/

namespace DataDependence

variable {c : Cfg} {loop n : Id}

/-- Where the edges that close a loop lead. -/
def backTargets (c : Cfg) (loop : Id) : List Id :=
  (backEdges c loop).map (·.dst)

/-- A path without fall-through edges leads to the loop node, or to where the loop is closed, and
meets no target of the closing edges. -/
def LeadsWithin (c : Cfg) (loop n : Id) : Prop :=
  ∃ s ∈ (backEdges c loop).map (·.src) ++ [loop], ∃ xs, Walk (c.Arrow fun e => !e.isFallThrough) n
    xs s ∧ ∀ m ∈ xs ++ [s], m ∉ backTargets c loop

theorem region_spec (hc : c.Coherent) (loop : Id) : (region c loop).Nodup ∧
    ∀ n, n ∈ region c loop ↔ n ∈ backTargets c loop ∨ ∃ s ∈ (backEdges c loop).map (·.src) ++ [loop],
      s ∉ backTargets c loop ∧ ReflTransGen (fun a b => c.Arrow (fun e => !e.isFallThrough) b a ∧
        b ∉ backTargets c loop) s n := by
  let next (n : Id) : List Id := c.neighbours false (fun e => !e.isFallThrough) n
  have hnext : ∀ x, ∀ y ∈ next x, y ∈ c.edges.map (·.src) := fun x y hy => by
    obtain ⟨e, he, -, rfl, -⟩ := (Graph.mem_neighbours_back hc).1 hy
    exact mem_map_of_mem he
  let targets := Search.fresh [] (backTargets c loop)
  have htargets : ∀ x, x ∈ targets ↔ x ∈ backTargets c loop := fun x => by simp [targets, Search.mem_fresh]
  let first := Search.fresh targets ((backEdges c loop).map (·.src) ++ [loop])
  have hfirst : ∀ x, x ∈ first ↔ x ∈ (backEdges c loop).map (·.src) ++ [loop] ∧
    x ∉ backTargets c loop := fun x => by
    rw [Search.mem_fresh, htargets]
  have hnodup : (targets ++ first).Nodup :=
    (Search.nodup_fresh _ _).append (Search.nodup_fresh _ _) fun x hx hf =>
    ((hfirst x).1 hf).2 ((htargets x).1 hx)
  obtain ⟨new, hdone⟩ :=
    Search.run_spec .queue next hnext (first.length + c.edges.length) first (targets ++ first) []
    (by
      have := Search.length_fresh_le (targets ++ first) (c.edges.map (·.src))
      rw [length_map] at this
      omega)
  rw [show region c loop = targets ++ first ++ new from hdone.found_eq]
  refine ⟨hnodup.append hdone.nodup fun x hx hn => hdone.not_found x hn hx, fun n => ?_⟩
  rw [append_assoc, mem_append, htargets]
  refine or_congr_right ⟨fun hn => ?_, ?_⟩
  · obtain ⟨s, hs, hreach⟩ := hdone.mem_iff.1 hn
    refine ⟨s, ((hfirst s).1 hs).1, ((hfirst s).1 hs).2, .mono (fun a b hab => ?_) s n hreach⟩
    exact ⟨(Graph.mem_neighbours_back hc).1 hab.1, fun hb => hab.2 (mem_append_left _ ((htargets b).2 hb))⟩
  · rintro ⟨s, hs, hnot, hreach⟩
    induction hreach with
    | refl => exact mem_append_left _ ((hfirst s).2 ⟨hs, hnot⟩)
    | tail _ hstep ih =>
      have hclosed := hdone.closed _ ih _ ((Graph.mem_neighbours_back hc).2 hstep.1)
      rw [append_assoc, mem_append, htargets] at hclosed
      exact hclosed.resolve_left hstep.2

/-- The search finds the region. -/
theorem mem_region_iff (hc : c.Coherent) :
    n ∈ region c loop ↔ n ∈ backTargets c loop ∨ n = loop ∨ LeadsWithin c loop n := by
  rw [(region_spec hc loop).2]
  have hwithin : LeadsWithin c loop n ↔
    ∃ s ∈ (backEdges c loop).map (·.src) ++ [loop], s ∉ backTargets c loop ∧
      ReflTransGen (fun a b => c.Arrow (fun e => !e.isFallThrough) b a ∧ b ∉ backTargets c loop) s n := by
    refine exists_congr fun s => and_congr_right fun _ => ?_
    refine ⟨?_, fun h => (Walk.exists_visiting_iff (P := (· ∉ backTargets c loop)) h.1).2 h.2⟩
    rintro ⟨xs, hxs, hall⟩
    have hs : s ∉ backTargets c loop := hall s (by simp)
    exact ⟨hs, (Walk.exists_visiting_iff (P := (· ∉ backTargets c loop)) hs).1 ⟨xs, hxs, hall⟩⟩
  rw [hwithin]
  refine ⟨fun h => h.imp_right .inr, ?_⟩
  rintro (h | rfl | h)
  · exact .inl h
  · by_cases hn : n ∈ backTargets c n
    · exact .inl hn
    · exact .inr ⟨n, by simp, hn, .refl⟩
  · exact .inr h

theorem exists_carrier {d u : Id} (h : ∃ l ∈ loops c, Around c l d u) : ∃ l ∈ loops c,
    carrier? (regions c) d u = some l ∧ Around c l d u ∧ ∀ l' ∈ loops c, Around c l' d u → Inner c l l' := by
  obtain ⟨l, hl, haround⟩ := h
  cases hcarrier : carrier? (regions c) d u with
  | none => exact absurd haround (not_around_of_carrier? hcarrier hl)
  | some l => exact ⟨l, mem_loops.2 (loop_of_carrier? hcarrier), rfl, inner_of_carrier? hcarrier⟩

end DataDependence

/-! ## The loops of a method -/

theorem nodup_tests_append {rs rs' : List Ring} {ids ids' : List Id} (hids : (ids ++ ids').Nodup)
    (hrs : ∀ r ∈ rs, r.Inside ids) (hrs' : ∀ r ∈ rs', r.Inside ids') (h : (rs.map Ring.test).Nodup)
    (h' : (rs'.map Ring.test).Nodup) : ((rs ++ rs').map Ring.test).Nodup := by
  rw [map_append]
  refine h.append h' fun t ht ht' => ?_
  obtain ⟨r, hr, rfl⟩ := mem_map.1 ht
  obtain ⟨r', hr', htest⟩ := mem_map.1 ht'
  have hmem := (hrs' r' hr').members (hrs' r' hr').test
  exact disjoint_of_nodup_append hids ((hrs r hr).members (hrs r hr).test) (htest ▸ hmem)

theorem nodup_tests_cons {r : Ring} {rs : List Ring} {ids : List Id} (hr : r.test ∉ ids)
    (hrs : ∀ r ∈ rs, r.Inside ids) (h : (rs.map Ring.test).Nodup) : ((r :: rs).map Ring.test).Nodup := by
  refine nodup_cons.2 ⟨fun hmem => ?_, h⟩
  obtain ⟨r', hr', htest⟩ := mem_map.1 hmem
  exact hr (htest ▸ (hrs r' hr').members (hrs r' hr').test)

mutual

theorem Control.nodup_tests : ∀ k : Control Token, k.ids.Nodup → (k.rings.map Ring.test).Nodup
  | .skip, _ | .line _, _ | .jump _ _, _ => nodup_nil
  | .seq a b, h => by
    rw [ids_seq] at h
    exact nodup_tests_append h a.rings_inside b.rings_inside (a.nodup_tests h.of_append_left)
      (b.nodup_tests h.of_append_right)
  | .branch _ a b, h => by
    rw [ids_branch] at h
    have h := h.of_append_right
    exact nodup_tests_append h a.rings_inside b.rings_inside (a.nodup_tests h.of_append_left)
      (b.nodup_tests h.of_append_right)
  | .loop _ l body _, h => by
    rw [ids_loop] at h
    refine nodup_tests_cons (fun hmem => ?_) body.rings_inside
      (body.nodup_tests h.of_append_right.of_append_left)
    exact disjoint_of_nodup_append h l.node_mem_ids (mem_append_left _ hmem)
  | .doLoop _ body l, h => by
    rw [ids_doLoop] at h
    refine nodup_tests_cons (fun hmem => ?_) body.rings_inside (body.nodup_tests h.of_append_left)
    exact disjoint_of_nodup_append h hmem l.node_mem_ids
  | .switch _ arms, h => by
    rw [ids_switch, arms.ids_eq] at h
    exact arms.nodup_tests h.of_append_right.of_append_right.of_append_right
  | .labeled _ body, h => body.nodup_tests h

theorem Arms.nodup_tests : ∀ arms : Arms Token, arms.bodyIds.Nodup → (arms.rings.map Ring.test).Nodup
  | .nil, _ => nodup_nil
  | .guard _ body rest, h | .default _ body rest, h => by
    rw [Arms.bodyIds, Arms.bodies, map_append] at h
    exact nodup_tests_append h body.rings_inside rest.rings_inside (body.nodup_tests h.of_append_left)
      (rest.nodup_tests h.of_append_right)

end

namespace DataDependence

variable {c : Cfg} {u : Plan} {e : Edge} {loop : Id}

theorem mem_backEdges : e ∈ backEdges c loop ↔ e ∈ c.edges ∧ e.loopBack? = some loop := by
  simp [backEdges]

theorem exists_ring (h : c.Realizes u) (he : e ∈ backEdges c loop) : ∃ r ∈ u.body.rings,
    r.test = loop ∧ ∀ f ∈ backEdges c loop, f.dst = r.head ∧ f.src ∈ r.members := by
  have hring {e : Edge} (he : e ∈ backEdges c loop) :
      ∃ r ∈ u.body.rings, r.test = loop ∧ e.dst = r.head ∧ e.src ∈ r.members := by
    obtain ⟨hmem, hloop⟩ := mem_backEdges.1 he
    have htag : e.wire.loop = some loop := hloop
    rcases Cfg.Realizes.wire_cases (h.wire_mem hmem) with ⟨hnone, -⟩ | ⟨r, hr, hsrc, hdst, htest⟩
    · rw [hnone] at htag
      cases htag
    · exact ⟨r, hr, Option.some.inj (htest.symm.trans htag), hdst, hsrc⟩
  obtain ⟨r, hr, htest, -⟩ := hring he
  refine ⟨r, hr, htest, fun f hf => ?_⟩
  obtain ⟨r', hr', htest', hends⟩ := hring hf
  cases inj_on_of_nodup_map (u.body.nodup_tests (u.body_placed h.nodup).nodup) hr hr'
    (htest.trans htest'.symm)
  exact hends

/-- A region lies in the place of its loop. -/
theorem region_inside (h : c.Realizes u) (he : e ∈ backEdges c loop) : ∃ k x next, Placed u.wires k x next ∧
    k.test? = some loop ∧ (k.entry next).node = e.dst ∧ region c loop ⊆ k.ids ∧ u.entry.id ∉ k.ids := by
  obtain ⟨r, hr, rfl, hback⟩ := exists_ring h he
  obtain ⟨k, x, next, hplaced, htest, hentry, hinside, hsub⟩ := (h.ring_sited hr).part
  refine ⟨k, x, next, hplaced, htest, hentry.trans (hback e he).1.symm, fun n hn => ?_,
    fun hmem => h.entry_not_mem (hsub.subset hmem)⟩
  rcases (mem_region_iff h.coherent).1 hn with hn | rfl | ⟨s, hs, ys, hys, havoid⟩
  · obtain ⟨f, hf, rfl⟩ := mem_map.1 hn
    exact (hback f hf).1 ▸ hinside.head
  · exact hinside.members hinside.test
  · have hmem : s ∈ k.ids := by
      rcases mem_append.1 hs with hs | hs
      · obtain ⟨f, hf, rfl⟩ := mem_map.1 hs
        exact hinside.members (hback f hf).2
      · exact mem_singleton.1 hs ▸ hinside.members hinside.test
    -- A walk from outside would come in at the first node, which is a target.
    by_contra hout
    have hplain : Walk (c.Arrow fun _ => true) n ys s := hys.mono fun _ _ => .mono fun _ _ => rfl
    rw [h.arrow_eq] at hplain
    refine havoid _ (hplaced.dominates hplain hout hmem) ?_
    exact hentry ▸ (hback e he).1 ▸ mem_map_of_mem he

/-- **Regions stay inside their loops.**  The region of a loop consists of the targets of its
closing edges, the loop node, and what leads within the loop to the loop node or to a closing edge.
In the flow graph of a method the region lies in the place of the loop, and the target dominates
it.  Of the loops around two nodes the one of the smallest region is named. -/
theorem regions_exact (hc : c.Coherent) : (∀ loop, (region c loop).Nodup ∧
      ∀ n, n ∈ region c loop ↔ n ∈ backTargets c loop ∨ n = loop ∨ LeadsWithin c loop n) ∧
    (∀ (σ : Type) (context : Context) (r : MethodRef) (m : Method) (p q : σ × Trail),
      ((Cfg.ofMethod context r m).run p : Except Error Cfg × σ × Trail) = (.ok c, q) → ∃ u, c.Realizes u ∧
      ∀ loop, ∀ t ∈ backTargets c loop, (∃ k x next, Placed u.wires k x next ∧ k.test? = some loop ∧
          (k.entry next).node = t ∧ region c loop ⊆ k.ids) ∧
        ∀ n ∈ region c loop, ∀ xs, Walk (c.Arrow fun _ => true) c.entry.id xs n → t ∈ xs ++ [n]) ∧
    ∀ d u, (∃ l ∈ loops c, Around c l d u) → ∃ l ∈ loops c, carrier? (regions c) d u = some l ∧
      Around c l d u ∧ ∀ l' ∈ loops c, Around c l' d u → Inner c l l' := by
  refine ⟨fun loop => ⟨(region_spec hc loop).1, fun n => mem_region_iff hc⟩, ?_, fun d u => exists_carrier⟩
  intro σ context r m p q hrun
  obtain ⟨u, hrealizes, -⟩ := (Tracked.ends_iff_of_run hrun).1 (Cfg.ends_ofMethod context r m p)
  refine ⟨u, hrealizes, fun loop t ht => ?_⟩
  obtain ⟨e, he, rfl⟩ := mem_map.1 ht
  obtain ⟨k, x, next, hplaced, htest, hentry, hinside, hout⟩ := region_inside hrealizes he
  refine ⟨⟨k, x, next, hplaced, htest, hentry, hinside⟩, fun n hn xs hwalk => ?_⟩
  rw [hrealizes.arrow_eq, hrealizes.entry_id] at hwalk
  exact hentry ▸ hplaced.dominates hwalk hout (hinside hn)

/-- The inner one of the nested loops is closed to its body, which the jump to the outer loop has
left. -/
theorem nestedLoops_regions : ∃ c q, ((Cfg.ofMethod { program := { methods := [Cfg.nestedLoops] } } ⟨0⟩
      Cfg.nestedLoops).run ((), { next := 1 }) : Except Error Cfg × Unit × Trail) = (.ok c, q) ∧ c.Coherent ∧
    region c 13 = [7, 13, 10] ∧ LeadsWithin c 13 10 ∧
    (∀ n ∈ region c 13, ∀ xs, Walk (c.Arrow fun _ => true) c.entry.id xs n → 7 ∈ xs ++ [n]) ∧
    ∃ l ∈ loops c, carrier? (regions c) 10 13 = some l ∧ Inner c l 5 := by
  obtain ⟨c, q, hrun, hc⟩ := Cfg.exists_ofMethod { program := { methods := [Cfg.nestedLoops] } } ⟨0⟩
    (by decide : Cfg.nestedLoops.body.isRegular = true) ((), { next := 1 })
  have hfacts : region c 13 = [7, 13, 10] ∧ backTargets c 13 = [7] ∧ region c 5 = [5, 13, 8, 10, 7] ∧
    loops c = [5, 13] :=
    Tracked.of_run hrun (by decide +kernel)
  obtain ⟨hregion, htargets, houter, hloops⟩ := hfacts
  obtain ⟨hexact, hbuilt, hcarrier⟩ := regions_exact hc
  have hten := ((hexact 13).2 10).1 (by simp [hregion])
  obtain ⟨u, -, hinside⟩ := hbuilt _ _ _ _ _ _ hrun
  have haround : Around c 5 10 13 := by simp [Around, houter]
  obtain ⟨l, hl, hfound, -, hinner⟩ := hcarrier 10 13 ⟨5, by simp [hloops], haround⟩
  refine ⟨c, q, hrun, hc, hregion, ?_, (hinside 13 7 (by simp [htargets])).2, l, hl, hfound, hinner 5
    (by simp [hloops]) haround⟩
  simpa [htargets] using hten

end DataDependence

end ProgramDependence
