import ProgramDependence.Proofs.Placement

/-!
# Loops

Every wire that closes a loop leads to the first node of that loop, and all other wires go onward in
one order of the nodes.  So a flow graph without the edges that close loops has no cycle, the end of
such an edge dominates its start, and from that end a path leads on to the node that decides about
the loop.

From there it leads on to the start, if the start is reached at all.  It is when no switch has two
default cases; with two of them, control never enters the first.
-/

namespace ProgramDependence

open List Control

variable {W : List Wire} {x : Exits} {next : Target}
variable {ids : List Id} {a b : Id} {r : Ring}

theorem untagged_none : untagged none :=
  rfl

/-! ## The order of the nodes -/

theorem Control.first?_eq_head? {α : Type} (k : Control α) : k.first? = k.nodes.head? := by
  fun_induction first? k with
  | case1 => rfl
  | case2 a b iha ihb => rw [nodes, head?_append, iha, ihb]
  | case3 l | case4 l | case5 l | case6 _ l | case7 l =>
    obtain ⟨rest, hall⟩ := l.exists_all_eq
    simp [nodes, hall]
  | case8 _ body t ih =>
    obtain ⟨rest, hall⟩ := t.exists_all_eq
    rw [nodes, head?_append, ih, hall]
    cases body.nodes.head? <;> rfl
  | case9 _ body ih => exact ih

theorem first_before (ha : ids.head? = some a) (hb : b ∈ ids) :
    a = b ∨ [a, b].Sublist ids := by
  obtain ⟨rest, rfl⟩ := head?_eq_some_iff.1 ha
  rcases mem_cons.1 hb with rfl | hb
  · exact .inl rfl
  · exact .inr ((singleton_sublist.2 hb).cons_cons a)

theorem idxOf_lt (hnodup : ids.Nodup) (h : [a, b].Sublist ids) :
    ids.idxOf a < ids.idxOf b := by
  induction ids with
  | nil => simp at h
  | cons i ids ih =>
    rw [nodup_cons] at hnodup
    cases h with
    | cons _ h =>
      have ha : a ≠ i := fun heq => hnodup.1 (heq ▸ h.subset (by simp))
      have hb : b ≠ i := fun heq => hnodup.1 (heq ▸ h.subset (by simp))
      rw [idxOf_cons_ne _ ha.symm, idxOf_cons_ne _ hb.symm]
      exact Nat.succ_lt_succ (ih hnodup.2 h)
    | cons_cons _ h =>
      have hb : b ≠ a := fun heq => hnodup.1 (heq ▸ h.subset (by simp))
      rw [idxOf_cons_self, idxOf_cons_ne _ hb.symm]
      exact Nat.succ_pos _

/-! ## Loops in their place -/

theorem Placed.dominates {k : Control Token} (h : Placed W k x next) {xs : List Id}
    (hwalk : Walk (Along W anyTag) a xs b) (ha : a ∉ k.ids) (hb : b ∈ k.ids) :
    (k.entry next).node ∈ xs ++ [b] := by
  obtain ⟨m, n, -, hn, hm, hmem, w, hw, -, rfl, rfl⟩ := hwalk.enters (s := (· ∈ k.ids)) ha hb
  rcases h.entered w hw hmem with hsrc | heq
  · exact absurd hsrc hm
  · exact heq ▸ hn

def Control.test? : Control Token → Option Id
  | .loop _ t _ _ | .doLoop _ _ t => some t.node.id
  | _ => none

/-- A loop among some nodes: its first node comes before those it is closed from and leads on to the
test, what comes in from outside passes the test on its way, and the loop has its place, where it is
entered at its first node. -/
structure Ring.Sited (W : List Wire) (ids : List Id) (r : Ring) : Prop where
  order : ∀ m ∈ r.members, r.head = m ∨ [r.head, m].Sublist ids
  leads : Leads W untagged r.head r.test
  test : ∀ {a m xs}, Walk (Along W anyTag) a xs m → a ∉ ids → m ∈ r.members → r.test ∈ xs ++ [m]
  part : ∃ (k : Control Token) (x : Exits) (next : Target), Placed W k x next ∧
    k.test? = some r.test ∧ (k.entry next).node = r.head ∧ r.Inside k.ids ∧ k.ids.Sublist ids

theorem Ring.Sited.mono {ids' : List Id} (h : r.Sited W ids) (hids : ids.Sublist ids') :
    r.Sited W ids' := by
  obtain ⟨k, x, next, hplaced, htest, hentry, hinside, hsub⟩ := h.part
  exact ⟨fun m hm => (h.order m hm).imp_right fun ho => ho.trans hids, h.leads,
    fun hw ha hm => h.test hw (fun hmem => ha (hids.subset hmem)) hm,
    k, x, next, hplaced, htest, hentry, hinside, hsub.trans hids⟩

theorem Placed.loop_sited {label : Option String} {l : Line Token} {body : Control Token}
    {update : List (Line Token)} (h : Placed W (.loop label l body update) x next) :
    Ring.Sited W (loop label l body update).ids
      ⟨l.first.id, l.node.id, l.node.id :: (body.ids ++ update.flatMap Line.ids)⟩ := by
  have hids := ids_loop label l body update
  have hnodup := h.nodup
  have hsubset := h.subset
  rw [hids] at hnodup
  simp only [wires, append_subset] at hsubset
  have hdisjoint := disjoint_of_nodup_append hnodup
  have hmembers : l.node.id :: (body.ids ++ update.flatMap Line.ids) ⊆
      (loop label l body update).ids := by
    rw [hids]
    exact cons_subset.2 ⟨mem_append_left _ l.node_mem_ids, subset_append_right _ _⟩
  refine ⟨fun m hm => ?_, l.first_leads untagged_none hsubset.1 l.node_mem, ?_,
    _, x, next, h, rfl, rfl, rings_inside _ _ mem_cons_self, .refl _⟩
  · refine first_before ?_ (hmembers hm)
    rw [ids, head?_map, ← first?_eq_head?]
    rfl
  · intro a m xs hw ha hm
    rcases mem_cons.1 hm with rfl | hm
    · simp
    · have houtside : a ∉ body.ids ++ update.flatMap Line.ids := fun hmem =>
        ha (hmembers (mem_cons_of_mem _ hmem))
      obtain ⟨i, j, hi, -, hsrc, hdst, w, hwire, -, rfl, rfl⟩ :=
        hw.enters (s := (· ∈ body.ids ++ update.flatMap Line.ids)) houtside hm
      have hdst' : w.dst ∈ (loop label l body update).ids := hmembers (mem_cons_of_mem _ hdst)
      rcases h.entered w hwire hdst' with hmem | heq
      · have hown := h.owns w hwire hmem
        simp only [wires, mem_append, mem_cons] at hown
        rcases hown with hown | rfl | rfl | hown | hown
        · exact absurd hdst (hdisjoint (Line.links_ends hown).2)
        · exact mem_append_left _ hi
        · exact absurd hdst' (h.outside next mem_cons_self)
        · exact absurd (mem_append_left _ (wire_ends hown).1) hsrc
        · exact absurd (mem_append_right _ ((linesWires_goes hown).ends (by simp)).1) hsrc
      · have heq' : w.dst = l.first.id := heq
        exact absurd hdst (heq' ▸ hdisjoint l.first_mem_ids)

theorem Placed.doLoop_sited {label : Option String} {l : Line Token} {body : Control Token}
    (h : Placed W (.doLoop label body l) x next) :
    Ring.Sited W (doLoop label body l).ids ⟨(body.entry l.first.target).node, l.node.id, [l.node.id]⟩ := by
  have hsubset := h.subset
  simp only [wires, append_subset] at hsubset
  have hmem : l.node.id ∈ (doLoop label body l).ids := by
    rw [ids_doLoop]
    exact mem_append_right _ l.node_mem_ids
  have hentry := entry_doLoop label body l next
  refine ⟨fun m hm => ?_, ?_, fun _ _ hm => by simp [mem_singleton.1 hm],
    _, x, next, h, rfl, congrArg Target.node hentry, rings_inside _ _ mem_cons_self, .refl _⟩
  · refine first_before ?_ (mem_singleton.1 hm ▸ hmem)
    rw [ids, head?_map, ← first?_eq_head?, ← hentry]
    rfl
  · exact (body.entry_leads untagged_none _ l.first.target hsubset.1 untagged_none).trans
      (l.first_leads untagged_none hsubset.2.1 l.node_mem)

mutual

/-- **Every loop of placed control has its site.** -/
theorem Control.rings_sited : ∀ (k : Control Token) (x : Exits) (next : Target), Placed W k x next →
    ∀ r ∈ k.rings, r.Sited W k.ids
  | .skip, _, _, _, r, hr | .line _, _, _, _, r, hr | .jump _ _, _, _, _, r, hr => by
    simp [rings] at hr
  | .seq a b, x, next, h, r, hr => by
    rw [ids_seq]
    rcases mem_append.1 hr with hr | hr
    · exact (a.rings_sited _ _ h.seq_left r hr).mono (sublist_append_left _ _)
    · exact (b.rings_sited _ _ h.seq_right r hr).mono (sublist_append_right _ _)
  | .branch l a b, x, next, h, r, hr => by
    rw [ids_branch]
    rcases mem_append.1 hr with hr | hr
    · exact (a.rings_sited _ _ h.branch_left r hr).mono
        ((sublist_append_left _ _).trans (sublist_append_right _ _))
    · exact (b.rings_sited _ _ h.branch_right r hr).mono
        ((sublist_append_right _ _).trans (sublist_append_right _ _))
  | .loop label l body update, x, next, h, r, hr => by
    rcases mem_cons.1 hr with rfl | hr
    · exact h.loop_sited
    · rw [ids_loop]
      exact (body.rings_sited _ _ h.loop_body r hr).mono
        ((sublist_append_left _ _).trans (sublist_append_right _ _))
  | .doLoop label body l, x, next, h, r, hr => by
    rcases mem_cons.1 hr with rfl | hr
    · exact h.doLoop_sited
    · rw [ids_doLoop]
      exact (body.rings_sited _ _ h.doLoop_body r hr).mono (sublist_append_left _ _)
  | .switch s arms, x, next, h, r, hr => by
    rw [ids_switch, arms.ids_eq]
    refine (arms.rings_sited _ _ _ h.switch_arms r hr).mono ?_
    exact (sublist_append_right _ _).trans
      ((sublist_append_right _ _).trans (sublist_append_right _ _))
  | .labeled _ body, x, next, h, r, hr => body.rings_sited _ _ h.labeled_body r hr

theorem Arms.rings_sited : ∀ (arms : Arms Token) (x : Exits) (next missed : Target),
    PlacedArms W arms x next missed → ∀ r ∈ arms.rings, r.Sited W arms.bodyIds
  | .nil, _, _, _, _, r, hr => by simp [Arms.rings] at hr
  | .guard _ body rest, x, next, missed, h, r, hr => by
    rw [Arms.bodyIds, Arms.bodies, map_append]
    rcases mem_append.1 hr with hr | hr
    · exact (body.rings_sited _ _ h.guard_parts.1 r hr).mono (sublist_append_left _ _)
    · exact (rest.rings_sited _ _ _ h.guard_parts.2 r hr).mono (sublist_append_right _ _)
  | .default _ body rest, x, next, missed, h, r, hr => by
    rw [Arms.bodyIds, Arms.bodies, map_append]
    rcases mem_append.1 hr with hr | hr
    · exact (body.rings_sited _ _ h.default_parts.1 r hr).mono (sublist_append_left _ _)
    · exact (rest.rings_sited _ _ _ h.default_parts.2 r hr).mono (sublist_append_right _ _)

end

mutual

theorem Control.rings_test : ∀ k : Control Token, ∀ r ∈ k.rings, ∃ t ∈ k.tests, t.id = r.test ∧ t ∈ k.nodes
  | .skip, r, hr | .line _, r, hr | .jump _ _, r, hr => by simp [rings] at hr
  | .seq a b, r, hr => by
    rcases mem_append.1 hr with hr | hr
    · obtain ⟨t, ht, hid, hmem⟩ := a.rings_test r hr
      exact ⟨t, mem_append_left _ ht, hid, mem_append_left _ hmem⟩
    · obtain ⟨t, ht, hid, hmem⟩ := b.rings_test r hr
      exact ⟨t, mem_append_right _ ht, hid, mem_append_right _ hmem⟩
  | .branch l a b, r, hr => by
    rcases mem_append.1 hr with hr | hr
    · obtain ⟨t, ht, hid, hmem⟩ := a.rings_test r hr
      exact ⟨t, mem_append_left _ ht, hid, by simp [nodes, hmem]⟩
    · obtain ⟨t, ht, hid, hmem⟩ := b.rings_test r hr
      exact ⟨t, mem_append_right _ ht, hid, by simp [nodes, hmem]⟩
  | .loop _ l body _, r, hr => by
    rcases mem_cons.1 hr with rfl | hr
    · exact ⟨l.node, mem_cons_self, rfl, mem_append_left _ l.node_mem⟩
    · obtain ⟨t, ht, hid, hmem⟩ := body.rings_test r hr
      exact ⟨t, mem_cons_of_mem _ ht, hid, by simp [nodes, hmem]⟩
  | .doLoop _ body l, r, hr => by
    rcases mem_cons.1 hr with rfl | hr
    · exact ⟨l.node, mem_cons_self, rfl, mem_append_right _ l.node_mem⟩
    · obtain ⟨t, ht, hid, hmem⟩ := body.rings_test r hr
      exact ⟨t, mem_cons_of_mem _ ht, hid, mem_append_left _ hmem⟩
  | .switch _ arms, r, hr => by
    obtain ⟨t, ht, hid, hmem⟩ := arms.rings_test r hr
    exact ⟨t, ht, hid, by simp [nodes, hmem]⟩
  | .labeled _ body, r, hr => body.rings_test r hr

theorem Arms.rings_test : ∀ arms : Arms Token, ∀ r ∈ arms.rings, ∃ t ∈ arms.tests, t.id = r.test ∧
    t ∈ arms.bodies
  | .nil, r, hr => by simp [Arms.rings] at hr
  | .guard _ body rest, r, hr | .default _ body rest, r, hr => by
    rcases mem_append.1 hr with hr | hr
    · obtain ⟨t, ht, hid, hmem⟩ := body.rings_test r hr
      exact ⟨t, mem_append_left _ ht, hid, mem_append_left _ hmem⟩
    · obtain ⟨t, ht, hid, hmem⟩ := rest.rings_test r hr
      exact ⟨t, mem_append_right _ ht, hid, mem_append_right _ hmem⟩

end

/-! ## Loops of flow graphs -/

theorem walk_untagged {start : Id} {ys zs : List Id}
    (hdominates : ∀ w ∈ W, w.loop ≠ none → ∀ {ys}, Walk (Along W anyTag) start ys w.src →
    w.dst ∈ ys ++ [w.src]) (hys : Walk (Along W anyTag) start ys a) (hzs : Walk (Along W anyTag) a zs b)
    (hnodup : (ys ++ (zs ++ [b])).Nodup) : Walk (Along W untagged) a zs b := by
  induction hzs generalizing ys with
  | stay => exact .stay _
  | @go a m b zs head tail ih =>
    have hnodup' : ((ys ++ [a]) ++ (zs ++ [b])).Nodup := by simpa using hnodup
    have hrest := ih (hys.append (.go head (.stay m))) hnodup'
    obtain ⟨w, hw, -, rfl, rfl⟩ := head
    by_cases hloop : w.loop = none
    · exact .go ⟨w, hw, hloop, rfl, rfl⟩ hrest
    · exact absurd tail.start_mem
        (disjoint_of_nodup_append hnodup' (hdominates w hw hloop hys))

namespace Cfg.Realizes

variable {c : Cfg} {u : Plan}

theorem entry_not_mem (h : c.Realizes u) : u.entry.id ∉ u.body.ids := by
  have hnodup : u.ids.Nodup := h.nodup
  rw [u.ids_eq] at hnodup
  exact fun hmem => disjoint_of_nodup_append hnodup mem_cons_self (mem_append_left _ hmem)

theorem ring_sited (h : c.Realizes u) (hr : r ∈ u.body.rings) : r.Sited u.wires u.body.ids :=
  u.body.rings_sited _ _ (u.body_placed h.nodup) r hr

theorem wire_cases {w : Wire} (hw : w ∈ u.wires) : w.loop = none ∧ [w.src, w.dst].Sublist u.ids ∨
      ∃ r ∈ u.body.rings, w.src ∈ r.members ∧ w.dst = r.head ∧ w.loop = some r.test := by
  cases u.wire_goes hw with
  | onward plain order => exact .inl ⟨plain, order⟩
  | out _ target => simp at target
  | back mem src dst loop => exact .inr ⟨_, mem, src, dst, loop⟩

variable (h : c.Realizes u)
include h

theorem not_sublist (hr : r ∈ u.body.rings) {m : Id} (hm : m ∈ r.members) : ¬ [m, r.head].Sublist u.ids := by
  intro hback
  have hnodup : u.ids.Nodup := h.nodup
  have hbody : u.body.ids.Sublist u.ids := by
    rw [u.ids_eq]
    exact (sublist_append_left _ _).trans (sublist_append_right _ _)
  have hlt := idxOf_lt hnodup hback
  rcases (h.ring_sited hr).order m hm with heq | horder
  · rw [heq] at hlt
    exact Nat.lt_irrefl _ hlt
  · exact Nat.lt_asymm hlt (idxOf_lt hnodup (horder.trans hbody))

theorem arrow_untagged : (c.Arrow fun e => !e.isLoopBack) = Along u.wires untagged := by
  have hplain (e : Edge) : (!e.isLoopBack) = true ↔ e.wire.loop = none := by
    simp [Edge.isLoopBack, Edge.wire]
  funext a b
  apply propext
  constructor
  · rintro ⟨e, he, hok, rfl, rfl⟩
    exact ⟨e.wire, h.wire_mem he, (hplain e).1 hok, rfl, rfl⟩
  · rintro ⟨w, hw, hloop, rfl, rfl⟩
    obtain ⟨e, he, hsrc, hdst, -⟩ := h.exists_edge hw
    refine ⟨e, he, (hplain e).2 ?_, hsrc, hdst⟩
    rcases wire_cases (h.wire_mem he) with ⟨hnone, -⟩ | ⟨r, hr, hmem, hhead, -⟩
    · exact hnone
    · -- An edge that closes a loop cannot stand for a wire that goes onward.
      rcases wire_cases hw with ⟨-, hsublist⟩ | ⟨r', -, -, -, htag⟩
      · rw [← hsrc, ← hdst] at hsublist
        have hhead' : e.dst = r.head := hhead
        exact absurd (hhead' ▸ hsublist) (h.not_sublist hr hmem)
      · rw [htag] at hloop
        cases hloop

/-- Edges that close no loop follow the order of the nodes. -/
theorem idxOf_lt_of_transGen (hpath : Relation.TransGen (c.Arrow fun e => !e.isLoopBack) a b) :
    u.ids.idxOf a < u.ids.idxOf b := by
  have hstep : ∀ {a b}, c.Arrow (fun e => !e.isLoopBack) a b → u.ids.idxOf a < u.ids.idxOf b := by
    intro a b hab
    rw [h.arrow_untagged] at hab
    obtain ⟨w, hw, hloop, rfl, rfl⟩ := hab
    rcases wire_cases hw with ⟨-, hsublist⟩ | ⟨r, -, -, -, htag⟩
    · exact idxOf_lt h.nodup hsublist
    · rw [htag] at hloop
      cases hloop
  induction hpath with
  | single hab => exact hstep hab
  | tail _ hbc ih => exact Nat.lt_trans ih (hstep hbc)

theorem dominates (hr : r ∈ u.body.rings) {m : Id} (hm : m ∈ r.members) {xs : List Id}
    (hwalk : Walk (Along u.wires anyTag) u.entry.id xs m) : r.head ∈ xs ++ [m] := by
  obtain ⟨k, x, next, hplaced, -, hentry, hinside, hsub⟩ := (h.ring_sited hr).part
  exact hentry ▸ hplaced.dominates hwalk (fun hmem => h.entry_not_mem (hsub.subset hmem)) (hinside.members hm)

theorem test_leads (hr : r ∈ u.body.rings) {m : Id} (hm : m ∈ r.members)
    (hreached : Leads u.wires anyTag u.entry.id m) : Leads u.wires untagged r.test m := by
  obtain ⟨xs, hxs⟩ := Walk.exists_of_reflTransGen hreached
  obtain ⟨ys, hys, hnodup, -⟩ := hxs.exists_simple
  have hplain : Walk (Along u.wires untagged) u.entry.id ys m := by
    refine walk_untagged (fun w hw hloop ys hws => ?_) (.stay u.entry.id) hys hnodup
    rcases wire_cases hw with ⟨hnone, -⟩ | ⟨r', hr', hmem, hhead, -⟩
    · exact absurd hnone hloop
    · exact hhead ▸ h.dominates hr' hmem hws
  obtain ⟨_, zs, -, -, hzs⟩ := hplain.cut ((h.ring_sited hr).test hys h.entry_not_mem hm)
  exact hzs.reflTransGen

theorem exists_loop_node {single : Bool} (hmirrors : Lowering.Mirrors single u.body)
    (hr : r ∈ u.body.rings) : ∃ n ∈ c.nodes, n.id = r.test ∧ n.sort.isLoop = true := by
  obtain ⟨t, ht, hid, hmem⟩ := u.body.rings_test r hr
  have htoken : t ∈ c.tokens := h.tokens_perm.mem_iff.2 (by simp [Plan.nodes, Plan.inner, hmem])
  obtain ⟨n, hn, rfl⟩ := mem_map.1 htoken
  exact ⟨n, hn, hid, hmirrors.tests _ ht⟩

end Cfg.Realizes

namespace Cfg

/-- **Loops are closed where they are entered.**  In the flow graph of a method, the edges that
close no loop have no cycle.  An edge that closes a loop names a loop node; its end dominates its
start and leads to the loop node without closing a loop.  The loop node leads to its start in the
same way, if no switch has two default cases or the start is reached from the entry. -/
theorem ofMethod_loopBack_edges {σ : Type} {context : Context} {r : MethodRef} {m : Method} {p q : σ × Trail}
    {c : Cfg} (h : ((ofMethod context r m).run p : Except Error Cfg × σ × Trail) = (.ok c, q)) :
    (∀ id, ¬ Relation.TransGen (c.Arrow fun e => !e.isLoopBack) id id) ∧
    ∀ e ∈ c.edges, ∀ l, e.loopBack? = some l →
        (∃ n ∈ c.nodes, n.id = l ∧ (n.sort = .statement .whileLoop ∨ n.sort = .statement .doLoop ∨
          n.sort = .statement .forLoop)) ∧
        (∀ xs, Walk (c.Arrow fun _ => true) c.entry.id xs e.src → e.dst ∈ xs ++ [e.src]) ∧
        Relation.ReflTransGen (c.Arrow fun e => !e.isLoopBack) e.dst l ∧
        (m.body.singleDefaults = true ∨ Relation.ReflTransGen (c.Arrow fun _ => true) c.entry.id e.src →
          Relation.ReflTransGen (c.Arrow fun e => !e.isLoopBack) l e.src) := by
  obtain ⟨u, hrealizes, hu, -⟩ := (Tracked.ends_iff_of_run h).1 (ends_ofMethod context r m p)
  refine ⟨fun id hcycle => Nat.lt_irrefl _ (hrealizes.idxOf_lt_of_transGen hcycle), ?_⟩
  intro e he l hl
  have htag : e.wire.loop = some l := hl
  rcases Realizes.wire_cases (hrealizes.wire_mem he) with ⟨hnone, -⟩ | ⟨ring, hr, hsrc, hdst, htest⟩
  · rw [hnone] at htag
    cases htag
  obtain rfl : l = ring.test := Option.some.inj (htag.symm.trans htest)
  have hdst' : e.dst = ring.head := hdst
  refine ⟨?_, fun xs hwalk => ?_, ?_, fun hreached => ?_⟩
  · obtain ⟨n, hn, hid, hloop⟩ := hrealizes.exists_loop_node hu.mirrors.toMirrors hr
    refine ⟨n, hn, hid, ?_⟩
    unfold NodeSort.isLoop at hloop
    split at hloop <;> simp_all
  · rw [hrealizes.arrow_eq, hrealizes.entry_id] at hwalk
    rw [hdst']
    exact hrealizes.dominates hr hsrc hwalk
  · rw [hrealizes.arrow_untagged, hdst']
    exact (hrealizes.ring_sited hr).leads
  · rw [hrealizes.arrow_untagged]
    refine hrealizes.test_leads hr hsrc ?_
    rcases hreached with hsingle | hreached
    · have hmem : e.src ∈ u.body.ids := (u.body.rings_inside ring hr).members hsrc
      obtain ⟨t, ht, hid⟩ := mem_map.1 hmem
      rw [← hid]
      exact (u.node_leads (by simp [Plan.nodes, Plan.inner, ht])).2 (hu.mirrors.defaults hsingle)
    · rwa [hrealizes.arrow_eq, hrealizes.entry_id] at hreached

/-- A labelled loop around a loop that is tested last, with a jump from the inner loop to the outer
one. -/
def nestedLoops : Method :=
  { name := "scan"
    body := .labeled "outer" (.whileLoop (.literal "true" "boolean" 1) (.doLoop
      (.ifElse (.literal "true" "boolean" 2) (.continueJump (some "outer") 3) .absent 2)
      (.literal "true" "boolean" 4) 2) 1) 1 }

/-- Three edges of the nested loops close a loop. -/
theorem nestedLoops_loopBack_edges : ∃ c q,
    ((ofMethod { program := { methods := [nestedLoops] } } ⟨0⟩ nestedLoops).run ((), { next := 1 }) :
      Except Error Cfg × Unit × Trail) = (.ok c, q) ∧ c.loopBackEdges.length = 3 ∧
    ∀ e ∈ c.edges, ∀ l, e.loopBack? = some l →
      Relation.ReflTransGen (c.Arrow fun e => !e.isLoopBack) l e.src := by
  obtain ⟨c, q, hrun, -⟩ := exists_ofMethod { program := { methods := [nestedLoops] } } ⟨0⟩
    (by decide : nestedLoops.body.isRegular = true) ((), { next := 1 })
  exact ⟨c, q, hrun, Tracked.of_run hrun (by decide +kernel), fun e he l hl =>
    ((ofMethod_loopBack_edges hrun).2 e he l hl).2.2.2 (.inl (by decide))⟩

/-- A loop around a switch with two default cases, whose first one goes on with the loop. -/
def twoDefaults : Method :=
  { name := "spin"
    body := .whileLoop (.literal "true" "boolean" 1) (.switch (.literal "1" "int" 2)
      [.mk .absent [.continueJump none 3] 3, .mk .absent [.empty 4] 4] 2) 1 }

/-- The first of two default cases is never entered: the loop node does not lead to the jump in it,
though the jump closes the loop. -/
theorem twoDefaults_not_reached : ∃ c q,
    ((ofMethod { program := { methods := [twoDefaults] } } ⟨0⟩ twoDefaults).run ((), { next := 1 }) :
      Except Error Cfg × Unit × Trail) = (.ok c, q) ∧
    ∃ e ∈ c.edges, ∃ l, e.loopBack? = some l ∧
      ¬ Relation.ReflTransGen (c.Arrow fun e => !e.isLoopBack) l e.src := by
  obtain ⟨c, q, hrun, hcoherent⟩ := exists_ofMethod { program := { methods := [twoDefaults] } } ⟨0⟩
    (by decide : twoDefaults.body.isRegular = true) ((), { next := 1 })
  have hlost :
    (c.edges.any fun e => e.loopBack?.any fun l => !(c.reachable l true true none).contains e.src) = true :=
    Tracked.of_run hrun (by decide +kernel)
  obtain ⟨e, he, hany⟩ := any_eq_true.1 hlost
  cases hl : e.loopBack? with
  | none => simp [hl] at hany
  | some l =>
    refine ⟨c, q, hrun, e, he, l, hl, fun hpath => ?_⟩
    have hfound := mem_reachable hcoherent
      (.mono (fun _ _ harrow => .mono (fun _ _ => rfl) harrow) _ _ hpath)
    simp [hl, hfound] at hany

end Cfg

end ProgramDependence
