import ProgramDependence.Proofs.Built

/-!
# Parts of structured control in their place

What holds of a whole unit carries over to its parts.  `Placed` says that among all wires those that
leave the nodes of a part are its own, and that it is entered at its first node only; every part of
placed control is placed.
-/

namespace ProgramDependence

open List Control Exits

/-! ## Placed control -/

/-- Structured control in its place among all wires. -/
structure Placed (W : List Wire) (k : Control Token) (x : Exits) (next : Target) : Prop where
  nodup : k.ids.Nodup
  subset : k.wires x next ⊆ W
  owns : ∀ w ∈ W, w.src ∈ k.ids → w ∈ k.wires x next
  entered : ∀ w ∈ W, w.dst ∈ k.ids → w.src ∈ k.ids ∨ w.dst = (k.entry next).node
  outside : ∀ t ∈ next :: x.targets, t.node ∉ k.ids

/-- The cases of a switch in their place among all wires. -/
structure PlacedArms (W : List Wire) (arms : Arms Token) (x : Exits) (next missed : Target) : Prop where
  nodup : arms.ids.Nodup
  subset : arms.wires x next missed ⊆ W
  owns : ∀ w ∈ W, w.src ∈ arms.ids → w ∈ arms.wires x next missed
  entered : ∀ w ∈ W, w.dst ∈ arms.bodyIds → w.src ∈ arms.ids ∨ w.dst = (arms.bodyEntry next).node
  outside : ∀ t ∈ next :: x.targets, t.node ∉ arms.ids
  missed : missed.node ∉ arms.guardIds ∧ missed.node ∉ arms.bodyIds

theorem Target.In.not_mem {t past : Target} {ids away : List Id} (h : t.In ids past)
    (hids : ∀ i ∈ ids, i ∉ away) (hpast : past.node ∉ away) : t.node ∉ away := by
  rcases h with ⟨hmem, -⟩ | rfl
  · exact hids _ hmem
  · exact hpast

namespace Placed

variable {W : List Wire} {k k' : Control Token} {x x' : Exits} {next next' : Target}

theorem dst_not_mem {ids : List Id} {w : Wire} (hw : w ∈ k.wires x next)
    (hk : ∀ i ∈ k.ids, i ∉ ids) (hts : ∀ t ∈ next :: x.targets, t.node ∉ ids) : w.dst ∉ ids := by
  rcases (wire_ends hw).2 with h | ⟨t, ht, h⟩
  · exact hk _ h
  · exact h ▸ hts t ht

theorem away (h : Placed W k x next) (hids : k'.ids.Sublist k.ids) :
    ∀ t ∈ next :: x.targets, t.node ∉ k'.ids :=
  fun t ht hmem => h.outside t ht (hids.subset hmem)

/-- A part whose siblings leave it alone is placed. -/
theorem part (h : Placed W k x next) (others : List Wire) (hids : k'.ids.Sublist k.ids)
    (hwires : ∀ w, w ∈ k.wires x next ↔ w ∈ others ∨ w ∈ k'.wires x' next')
    (hothers : ∀ w ∈ others, w.src ∉ k'.ids ∧ (w.dst ∈ k'.ids → w.dst = (k'.entry next').node))
    (hentry : (k.entry next).node ∈ k'.ids → (k.entry next).node = (k'.entry next').node)
    (houtside : ∀ t ∈ next' :: x'.targets, t.node ∉ k'.ids) : Placed W k' x' next' := by
  refine ⟨h.nodup.sublist hids, fun w hw => h.subset ((hwires w).2 (.inr hw)), ?_, ?_, houtside⟩
  · intro w hw hsrc
    rcases (hwires w).1 (h.owns w hw (hids.subset hsrc)) with ho | ho
    · exact absurd hsrc (hothers w ho).1
    · exact ho
  · intro w hw hdst
    rcases h.entered w hw (hids.subset hdst) with hsrc | heq
    · rcases (hwires w).1 (h.owns w hw hsrc) with ho | ho
      · exact .inr ((hothers w ho).2 hdst)
      · exact .inl (wire_ends ho).1
    · exact .inr (heq.trans (hentry (heq ▸ hdst)))

theorem beside (h : Placed W k x next) (l : Line Token) (ts : List (Target × FlowSort))
    (siblings : List Wire) (hids : k'.ids.Sublist k.ids) (hl : ∀ i ∈ l.ids, i ∉ k'.ids)
    (hwires : ∀ w, w ∈ k.wires x next ↔ w ∈ links l.all ∨ w ∈ ts.map (fun t => t.1.wire l.node.id t.2) ∨
      w ∈ siblings ∨ w ∈ k'.wires x' next') (hts : ∀ t ∈ ts, t.1.node ∈ k'.ids →
      t.1.node = (k'.entry next').node)
    (hsiblings : ∀ w ∈ siblings, w.src ∉ k'.ids ∧ w.dst ∉ k'.ids)
    (hentry : (k.entry next).node ∈ k'.ids → (k.entry next).node = (k'.entry next').node)
    (houtside : ∀ t ∈ next' :: x'.targets, t.node ∉ k'.ids) : Placed W k' x' next' := by
  refine h.part (links l.all ++ ts.map (fun t => t.1.wire l.node.id t.2) ++ siblings) hids
    (fun w => by rw [hwires, mem_append, mem_append, or_assoc, or_assoc]) ?_ hentry houtside
  intro w hw
  rw [mem_append, mem_append] at hw
  rcases hw with (hw | hw) | hw
  · exact ⟨hl _ (Line.links_ends hw).1, fun hdst => absurd hdst (hl _ (Line.links_ends hw).2)⟩
  · obtain ⟨t, ht, rfl⟩ := mem_map.1 hw
    exact ⟨hl _ l.node_mem_ids, hts t ht⟩
  · exact ⟨(hsiblings w hw).1, fun hdst => absurd hdst (hsiblings w hw).2⟩

variable {a b body : Control Token} {l : Line Token} {label : Option String} {update : List (Line Token)}
  {arms : Arms Token}

theorem seq_left (h : Placed W (.seq a b) x next) : Placed W a x (b.entry next) := by
  have hdisjoint := disjoint_of_nodup_append (ids_seq a b ▸ h.nodup)
  have hids : a.ids.Sublist (seq a b).ids := ids_seq a b ▸ sublist_append_left _ _
  have houtside := h.away hids
  refine h.part (b.wires (x.forget a.labels) next) hids
    (fun w => by rw [wires, mem_append, or_comm]) (fun w hw => ⟨?_, fun hdst => ?_⟩) ?_ ?_
  · exact fun ha => hdisjoint ha (wire_ends hw).1
  · refine absurd hdst (dst_not_mem hw (fun i hi ha => hdisjoint ha hi) ?_)
    rwa [targets_forget]
  · rw [entry_seq]
    exact fun _ => rfl
  · rw [forall_mem_cons] at houtside
    exact forall_mem_cons.2
      ⟨(b.entry_in next).not_mem (fun i hi ha => hdisjoint ha hi) houtside.1, houtside.2⟩

theorem seq_right (h : Placed W (.seq a b) x next) : Placed W b (x.forget a.labels) next := by
  have hdisjoint := disjoint_of_nodup_append (ids_seq a b ▸ h.nodup)
  have hids : b.ids.Sublist (seq a b).ids := ids_seq a b ▸ sublist_append_right _ _
  refine h.part (a.wires x (b.entry next)) hids
    (fun w => by rw [wires, mem_append]) (fun w hw => ⟨?_, fun hdst => ?_⟩) ?_ ?_
  · exact fun hb => hdisjoint (wire_ends hw).1 hb
  · rcases (wire_ends hw).2 with ha | ⟨t, ht, heq⟩
    · exact absurd hdst (hdisjoint ha)
    · rcases mem_cons.1 ht with rfl | ht
      · exact heq
      · exact absurd (heq ▸ hdst) (h.away hids t (mem_cons_of_mem _ ht))
  · rw [entry_seq]
    intro hb
    rcases a.entry_in (b.entry next) with ⟨ha, -⟩ | ha
    · exact absurd hb (hdisjoint ha)
    · rw [ha]
  · rw [targets_forget]
    exact h.away hids

theorem branch_left (h : Placed W (.branch l a b) x next) : Placed W a x next := by
  have hnodup := h.nodup
  rw [ids_branch] at hnodup
  have hl : ∀ i ∈ l.ids, i ∉ a.ids := fun i hi ha =>
    disjoint_of_nodup_append hnodup hi (mem_append_left _ ha)
  have hb : ∀ i ∈ b.ids, i ∉ a.ids := fun i hi ha =>
    disjoint_of_nodup_append hnodup.of_append_right ha hi
  have hids : a.ids.Sublist (branch l a b).ids :=
    ids_branch l a b ▸ (sublist_append_left _ _).trans (sublist_append_right _ _)
  have houtside := h.away hids
  refine h.beside l [(a.entry next, .true), (b.entry next, .false)] (b.wires (x.forget a.labels) next) hids hl
    (fun w => ?_) ?_ (fun w hw => ⟨hb _ (wire_ends hw).1, dst_not_mem hw hb ?_⟩)
    (fun ha => absurd ha (hl _ l.first_mem_ids)) houtside
  · simp only [wires, map_cons, mem_append, mem_cons]
    tauto
  · rw [forall_mem_cons, forall_mem_singleton]
    exact ⟨fun _ => rfl, fun ha => absurd ha ((b.entry_in next).not_mem hb (houtside next mem_cons_self))⟩
  · rwa [targets_forget]

theorem branch_right (h : Placed W (.branch l a b) x next) : Placed W b (x.forget a.labels) next := by
  have hnodup := h.nodup
  rw [ids_branch] at hnodup
  have hl : ∀ i ∈ l.ids, i ∉ b.ids := fun i hi hb =>
    disjoint_of_nodup_append hnodup hi (mem_append_right _ hb)
  have ha : ∀ i ∈ a.ids, i ∉ b.ids := fun i hi hb =>
    disjoint_of_nodup_append hnodup.of_append_right hi hb
  have hids : b.ids.Sublist (branch l a b).ids :=
    ids_branch l a b ▸ (sublist_append_right _ _).trans (sublist_append_right _ _)
  have houtside := h.away hids
  refine h.beside l [(a.entry next, .true), (b.entry next, .false)] (a.wires x next) hids hl
    (fun w => ?_) ?_ (fun w hw => ⟨ha _ (wire_ends hw).1, dst_not_mem hw ha houtside⟩)
    (fun hb => absurd hb (hl _ l.first_mem_ids)) ?_
  · simp only [wires, map_cons, mem_append, mem_cons]
    tauto
  · rw [forall_mem_cons, forall_mem_singleton]
    exact ⟨fun hb => absurd hb ((a.entry_in next).not_mem ha (houtside next mem_cons_self)), fun _ => rfl⟩
  · rwa [targets_forget]

/-- Where a loop goes after a round of its body. -/
abbrev onwardOf (l : Line Token) (update : List (Line Token)) : Target :=
  linesEntry update ⟨l.first.id, some l.node.id⟩

theorem outside_push {kind : Lowering.JumpKind} {cont : Target} {ids : List Id}
    (hcont : cont.node ∉ ids) (hout : ∀ t ∈ next :: x.targets, t.node ∉ ids) :
    ∀ t ∈ cont :: (x.push ⟨kind, label, next, cont⟩).targets, t.node ∉ ids := by
  intro t ht
  rcases of_mem_push ht with rfl | ht
  · exact hcont
  · exact hout t ht

theorem loop_body (h : Placed W (.loop label l body update) x next) :
    Placed W body (x.push ⟨.loop, label, next, onwardOf l update⟩) (onwardOf l update) := by
  have hnodup := h.nodup
  rw [ids_loop] at hnodup
  have hl : ∀ i ∈ l.ids, i ∉ body.ids := fun i hi hb =>
    disjoint_of_nodup_append hnodup hi (mem_append_left _ hb)
  have hupdate : ∀ i ∈ update.flatMap Line.ids, i ∉ body.ids := fun i hi hb =>
    disjoint_of_nodup_append hnodup.of_append_right hb hi
  have hids : body.ids.Sublist (loop label l body update).ids :=
    ids_loop label l body update ▸ (sublist_append_left _ _).trans (sublist_append_right _ _)
  have houtside := h.away hids
  have honward : (onwardOf l update).node ∉ body.ids :=
    (linesEntry_in update _).not_mem hupdate (hl _ l.first_mem_ids)
  refine h.beside l [(body.entry (onwardOf l update), .true), (next, .false)]
    (linesWires update ⟨l.first.id, some l.node.id⟩) hids hl
    (fun w => ?_) ?_ (fun w hw => ?_) (fun hb => absurd hb (hl _ l.first_mem_ids))
    (outside_push honward houtside)
  · simp only [wires, map_cons, mem_append, mem_cons]
    tauto
  · rw [forall_mem_cons, forall_mem_singleton]
    exact ⟨fun _ => rfl, fun hb => absurd hb (houtside next mem_cons_self)⟩
  · obtain ⟨hsrc, hdst⟩ := (linesWires_goes hw).ends (by simp)
    refine ⟨hupdate _ hsrc, ?_⟩
    rcases hdst with hu | ⟨t, ht, heq⟩
    · exact hupdate _ hu
    · rw [mem_singleton.1 ht] at heq
      exact heq ▸ hl _ l.first_mem_ids

theorem doLoop_body (h : Placed W (.doLoop label body l) x next) :
    Placed W body (x.push ⟨.loop, label, next, l.first.target⟩) l.first.target := by
  have hl : ∀ i ∈ l.ids, i ∉ body.ids := fun i hi hb =>
    disjoint_of_nodup_append (ids_doLoop label body l ▸ h.nodup) hb hi
  have hids : body.ids.Sublist (doLoop label body l).ids := ids_doLoop label body l ▸ sublist_append_left _ _
  have houtside := h.away hids
  refine h.beside l [(⟨(body.entry l.first.target).node, some l.node.id⟩, .true), (next, .false)] []
    hids hl (fun w => ?_) ?_ (by simp) ?_
    (outside_push (hl _ l.first_mem_ids) houtside)
  · simp only [wires, mem_append]
    tauto
  · rw [forall_mem_cons, forall_mem_singleton]
    exact ⟨fun _ => rfl, fun hb => absurd hb (houtside next mem_cons_self)⟩
  · rw [entry_doLoop]
    exact fun _ => rfl

theorem labeled_body {label : String} (h : Placed W (.labeled label body) x next) :
    Placed W body (x.push ⟨.label, some label, next, next⟩) next :=
  ⟨h.nodup, h.subset, h.owns, h.entered, fun t ht => h.outside t (push_subset .label (some label) ht)⟩

theorem switch_arms {s : Line Token} (h : Placed W (.switch s arms) x next) :
    PlacedArms W arms (x.push ⟨.switch, none, next, next⟩) next (arms.missed next) := by
  have hnodup := h.nodup
  have hout := h.outside
  have hsubset := h.subset
  rw [ids_switch] at hnodup hout
  have hs : ∀ i ∈ s.ids, i ∉ arms.ids := fun i hi ha => disjoint_of_nodup_append hnodup hi ha
  have hbodies : ∀ i ∈ arms.guardIds ++ arms.defaultIds, i ∉ arms.bodyIds := by
    have hnodup' := hnodup.of_append_right
    rw [arms.ids_eq, ← append_assoc] at hnodup'
    exact fun i hi hb => disjoint_of_nodup_append hnodup' hi hb
  have hguards : ∀ i ∈ arms.defaultIds, i ∉ arms.guardIds := by
    have hnodup' := hnodup.of_append_right
    rw [arms.ids_eq] at hnodup'
    exact fun i hi hg => disjoint_of_nodup_append hnodup' hg (mem_append_left _ hi)
  have hnext : next.node ∉ arms.ids := fun ha =>
    hout next mem_cons_self (mem_append_right _ ha)
  have hmissed : (arms.missed next).node ∉ arms.guardIds ∧ (arms.missed next).node ∉ arms.bodyIds :=
    ⟨(arms.missed_in next).not_mem hguards fun hg => hnext (arms.guardIds_subset hg),
      (arms.missed_in next).not_mem (fun i hi => hbodies i (mem_append_right _ hi))
        fun hb => hnext (arms.bodyIds_subset hb)⟩
  have howns : ∀ w ∈ W, w.src ∈ arms.ids →
      w ∈ arms.wires (x.push ⟨.switch, none, next, next⟩) next (arms.missed next) := by
    intro w hw hsrc
    have hmem := h.owns w hw (ids_switch s arms ▸ mem_append_right _ hsrc)
    simp only [wires, mem_append, mem_cons] at hmem
    rcases hmem with hlink | rfl | rfl | hmem
    · exact absurd hsrc (hs _ (Line.links_ends hlink).1)
    · exact absurd hsrc (hs _ s.node_mem_ids)
    · exact absurd hsrc (hs _ s.node_mem_ids)
    · exact hmem
  simp only [wires, append_subset, cons_subset] at hsubset
  refine ⟨hnodup.of_append_right, hsubset.2.2.2, howns, ?_, fun t ht => ?_, hmissed⟩
  · intro w hw hdst
    have hdst' : w.dst ∈ (switch s arms).ids :=
      ids_switch s arms ▸ mem_append_right _ (arms.bodyIds_subset hdst)
    rcases h.entered w hw hdst' with hsrc | heq
    · have hmem := h.owns w hw hsrc
      simp only [wires, mem_append, mem_cons] at hmem
      rcases hmem with hlink | rfl | rfl | hmem
      · exact absurd (arms.bodyIds_subset hdst) (hs _ (Line.links_ends hlink).2)
      · exact absurd hdst ((arms.guardEntry_in (arms.missed next)).not_mem
          (fun i hi => hbodies i (mem_append_left _ hi)) hmissed.2)
      · exact absurd (arms.bodyIds_subset hdst) hnext
      · exact .inl (Arms.wire_ends hmem).1
    · have heq' : w.dst = s.first.id := heq
      exact absurd (arms.bodyIds_subset (heq' ▸ hdst)) (hs _ s.first_mem_ids)
  · exact fun ha => hout t (push_subset .switch none ht) (mem_append_right _ ha)

end Placed

theorem Arms.perm_ids_default (n : Token) (body : Control Token) (rest : Arms Token) :
    (Arms.default n body rest).ids.Perm ([n.id] ++ (body.ids ++ rest.ids)) := by
  refine perm_iff_count.2 fun i => ?_
  simp only [Arms.ids_default, rest.ids_eq, count_append, count_cons, count_nil]
  omega

namespace PlacedArms

variable {W : List Wire} {x : Exits} {next missed : Target} {l : Line Token} {n : Token}
  {body : Control Token} {arms rest : Arms Token}

/-- A body and the cases after it are placed. -/
theorem split (h : PlacedArms W arms x next missed) {first : List Id} (heads : List Wire)
    (hids : arms.ids.Perm (first ++ (body.ids ++ rest.ids)))
    (hbodies : arms.bodyIds = body.ids ++ rest.bodyIds)
    (hguards : rest.guardIds ⊆ arms.guardIds)
    (hentry : arms.bodyEntry next = body.entry (rest.bodyEntry next))
    (hwires : ∀ w, w ∈ arms.wires x next missed ↔ w ∈ heads ∨
      w ∈ body.wires x (rest.bodyEntry next) ∨ w ∈ rest.wires (x.forget body.labels) next missed)
    (hheads : ∀ w ∈ heads, w.src ∈ first ∧ (w.dst ∈ arms.bodyIds → w.dst = (arms.bodyEntry next).node)) :
    Placed W body x (rest.bodyEntry next) ∧ PlacedArms W rest (x.forget body.labels) next missed := by
  have hnodup := hids.nodup_iff.1 h.nodup
  have hfirst := disjoint_of_nodup_append hnodup
  have hdisjoint := disjoint_of_nodup_append hnodup.of_append_right
  have hbody : body.ids ⊆ arms.ids := fun i hi => hids.mem_iff.2 (by simp [hi])
  have hrest : rest.ids ⊆ arms.ids := fun i hi => hids.mem_iff.2 (by simp [hi])
  have hnext : ∀ t ∈ next :: x.targets, t.node ∉ body.ids ∧ t.node ∉ rest.ids := fun t ht =>
    ⟨fun hb => h.outside t ht (hbody hb), fun hr => h.outside t ht (hrest hr)⟩
  constructor
  · refine ⟨hnodup.of_append_right.of_append_left, fun w hw => h.subset
      ((hwires w).2 (.inr (.inl hw))), ?_, ?_, ?_⟩
    · intro w hw hsrc
      rcases (hwires w).1 (h.owns w hw (hbody hsrc)) with hmem | hmem | hmem
      · exact absurd (mem_append_left _ hsrc) (hfirst (hheads w hmem).1)
      · exact hmem
      · exact absurd (Arms.wire_ends hmem).1 (hdisjoint hsrc)
    · intro w hw hdst
      have hdst' : w.dst ∈ arms.bodyIds := hbodies ▸ mem_append_left _ hdst
      rw [← hentry]
      rcases h.entered w hw hdst' with hsrc | heq
      · rcases (hwires w).1 (h.owns w hw hsrc) with hmem | hmem | hmem
        · exact .inr ((hheads w hmem).2 hdst')
        · exact .inl (wire_ends hmem).1
        · rcases (Arms.wire_ends hmem).2 with hr | ⟨t, ht, heq⟩
          · exact absurd hr (hdisjoint hdst)
          · rw [targets_forget] at ht
            rcases mem_cons.1 ht with rfl | ht
            · exact absurd (heq ▸ hdst') h.missed.2
            · exact absurd (heq ▸ hdst) (hnext t ht).1
      · exact .inr heq
    · exact forall_mem_cons.2 ⟨(rest.bodyEntry_in next).not_mem
        (fun i hi hb => hdisjoint hb (rest.bodyIds_subset hi)) (hnext next mem_cons_self).1,
        fun t ht => (hnext t (mem_cons_of_mem _ ht)).1⟩
  · have hpast : ∀ {i : Id}, i ∈ rest.bodyIds → i = (arms.bodyEntry next).node →
        i = (rest.bodyEntry next).node := by
      intro i hi heq
      rw [hentry] at heq
      rcases body.entry_in (rest.bodyEntry next) with ⟨hb, -⟩ | hb
      · exact absurd (rest.bodyIds_subset (heq ▸ hi)) (hdisjoint hb)
      · rwa [hb] at heq
    refine ⟨hnodup.of_append_right.of_append_right,
      fun w hw => h.subset ((hwires w).2 (.inr (.inr hw))), ?_, ?_, ?_, ?_⟩
    · intro w hw hsrc
      rcases (hwires w).1 (h.owns w hw (hrest hsrc)) with hmem | hmem | hmem
      · exact absurd (mem_append_right _ hsrc) (hfirst (hheads w hmem).1)
      · exact absurd hsrc (hdisjoint (wire_ends hmem).1)
      · exact hmem
    · intro w hw hdst
      have hdst' : w.dst ∈ arms.bodyIds := hbodies ▸ mem_append_right _ hdst
      rcases h.entered w hw hdst' with hsrc | heq
      · rcases (hwires w).1 (h.owns w hw hsrc) with hmem | hmem | hmem
        · exact .inr (hpast hdst ((hheads w hmem).2 hdst'))
        · rcases (wire_ends hmem).2 with hb | ⟨t, ht, heq⟩
          · exact absurd (rest.bodyIds_subset hdst) (hdisjoint hb)
          · rcases mem_cons.1 ht with rfl | ht
            · exact .inr heq
            · exact absurd (rest.bodyIds_subset (heq ▸ hdst)) (hnext t (mem_cons_of_mem _ ht)).2
        · exact .inl (Arms.wire_ends hmem).1
      · exact .inr (hpast hdst heq)
    · rw [targets_forget]
      exact fun t ht => (hnext t ht).2
    · exact ⟨fun hg => h.missed.1 (hguards hg), fun hb => h.missed.2 (hbodies ▸ mem_append_right _ hb)⟩

theorem guard_parts (h : PlacedArms W (.guard l body rest) x next missed) :
    Placed W body x (rest.bodyEntry next) ∧ PlacedArms W rest (x.forget body.labels) next missed := by
  have hperm : (Arms.guard l body rest).ids.Perm (l.ids ++ (body.ids ++ rest.ids)) := by
    refine perm_iff_count.2 fun i => ?_
    simp only [Arms.ids_guard, rest.ids_eq, count_append]
    omega
  have hfirst := disjoint_of_nodup_append (hperm.nodup_iff.1 h.nodup)
  have hbodies : (Arms.guard l body rest).bodyIds = body.ids ++ rest.bodyIds := map_append
  have hguards : (Arms.guard l body rest).guardIds = l.ids ++ rest.guardIds := map_append
  have hl : ∀ i ∈ l.ids, i ∉ (Arms.guard l body rest).bodyIds := fun i hi hb => by
    rw [hbodies, mem_append] at hb
    exact hfirst hi (mem_append.2 (hb.imp_right fun hr => rest.bodyIds_subset hr))
  refine h.split (links l.all ++ [(body.entry (rest.bodyEntry next)).wire l.node.id .true,
      (rest.guardEntry missed).wire l.node.id .false]) hperm hbodies
    (hguards ▸ subset_append_right _ _) rfl (fun w => ?_) fun w hw => ?_
  · simp only [Arms.wires, mem_append, mem_cons]
    tauto
  · simp only [mem_append, mem_cons, not_mem_nil, or_false] at hw
    rcases hw with hw | rfl | rfl
    · exact ⟨(Line.links_ends hw).1, fun hb => absurd hb (hl _ (Line.links_ends hw).2)⟩
    · exact ⟨l.node_mem_ids, fun _ => rfl⟩
    · have hnodup := h.nodup
      rw [(Arms.guard l body rest).ids_eq, hguards] at hnodup
      exact ⟨l.node_mem_ids, fun hb => absurd hb ((rest.guardEntry_in missed).not_mem (fun i hi hb =>
        disjoint_of_nodup_append hnodup (mem_append_right _ hi) (mem_append_right _ hb)) h.missed.2)⟩

theorem default_parts (h : PlacedArms W (.default n body rest) x next missed) :
    Placed W body x (rest.bodyEntry next) ∧ PlacedArms W rest (x.forget body.labels) next missed := by
  refine h.split [(body.entry (rest.bodyEntry next)).wire n.id .true] (Arms.perm_ids_default n body rest)
    map_append (.refl _) rfl (fun w => ?_) fun w hw => ?_
  · simp only [Arms.wires, mem_append, mem_cons, not_mem_nil, or_false]
  · obtain rfl := mem_singleton.1 hw
    exact ⟨mem_singleton_self _, fun _ => rfl⟩

end PlacedArms

/-! ## Whole units -/

namespace Plan

variable (u : Plan)

def ids : List Id :=
  u.nodes.map (·.id)

theorem ids_eq : u.ids = u.entry.id :: u.formals.map (·.id) ++
    (u.body.ids ++ (u.result.toList.map (·.id) ++ [u.exit.id])) := by
  simp [ids, nodes, inner, Control.ids]

theorem prelude_goes {t : Token} {ts : List Token} {next : Target} {w : Wire}
    (hw : w ∈ prelude t ts next) : w.Goes (t.id :: ts.map (·.id)) [next] [] := by
  induction ts generalizing t with
  | nil =>
    rw [prelude, mem_singleton] at hw
    subst hw
    exact .past mem_cons_self rfl
  | cons t' ts ih =>
    rw [prelude, mem_cons] at hw
    rcases hw with rfl | hw
    · exact .onward rfl (by simp)
    · exact (ih hw).enlarge (sublist_cons_self _ _)

theorem last_mem : u.last.node ∈ u.result.toList.map (·.id) ++ [u.exit.id] := by
  cases h : u.result <;> simp [last, h, Token.target]

theorem target_mem {t : Target} (ht : t ∈ u.last :: u.exits.targets) :
    t.node ∈ u.result.toList.map (·.id) ++ [u.exit.id] ∧ t.loop = none := by
  have hcases : t = u.last ∨ t = u.exit.target := by
    simp only [targets, mem_cons] at ht
    tauto
  rcases hcases with rfl | rfl
  · exact ⟨u.last_mem, rfl⟩
  · exact ⟨by simp [Token.target], rfl⟩

theorem wire_goes {w : Wire} (hw : w ∈ u.wires) : w.Goes u.ids [] u.body.rings := by
  rw [ids_eq]
  rw [wires, mem_append, mem_append] at hw
  rcases hw with hw | hw | hw
  · refine (prelude_goes hw).widen (sublist_append_left _ _) (nil_subset _) fun t ht v hv hvt => ?_
    rw [mem_singleton.1 ht] at hvt
    refine .toward hvt ((u.body.entry_in u.last).mono (subset_append_left _ _)) hv fun h => ?_
    have hdst : v.dst = u.last.node := congrArg Target.node h
    exact .across (congrArg Target.loop h) hv (hdst ▸ mem_append_right _ u.last_mem)
  · refine .enlarge ((u.body.wire_goes _ _ w hw).widen (sublist_append_left _ _)
      (.refl _) fun t ht v hv hvt => ?_) (sublist_append_right _ _)
    have hdst : v.dst = t.node := congrArg Target.node hvt
    have hloop : v.loop = t.loop := congrArg Target.loop hvt
    exact .across (hloop.trans (u.target_mem ht).2) hv (hdst ▸ (u.target_mem ht).1)
  · obtain ⟨t, ht, rfl⟩ := mem_map.1 hw
    have hsrc : t.id ∈ u.result.toList.map (·.id) := mem_map_of_mem ht
    refine .enlarge (.across rfl hsrc (mem_singleton_self u.exit.id)) ?_
    exact (sublist_append_right _ _).trans (sublist_append_right _ _)

theorem body_placed (hnodup : u.ids.Nodup) : Placed u.wires u.body u.exits u.last := by
  rw [ids_eq] at hnodup
  have hfirst := disjoint_of_nodup_append hnodup
  have hlast := disjoint_of_nodup_append hnodup.of_append_right
  refine ⟨hnodup.of_append_right.of_append_left, u.body_subset, ?_, ?_, ?_⟩
  · intro w hw hsrc
    rw [wires, mem_append, mem_append] at hw
    rcases hw with hw | hw | hw
    · exact absurd (mem_append_left _ hsrc) (hfirst ((prelude_goes hw).ends (by simp)).1)
    · exact hw
    · obtain ⟨t, ht, rfl⟩ := mem_map.1 hw
      exact absurd (mem_append_left _ (mem_map_of_mem ht)) (hlast hsrc)
  · intro w hw hdst
    rw [wires, mem_append, mem_append] at hw
    rcases hw with hw | hw | hw
    · rcases ((prelude_goes hw).ends (by simp)).2 with hmem | ⟨t, ht, heq⟩
      · exact absurd (mem_append_left _ hdst) (hfirst hmem)
      · rw [mem_singleton.1 ht] at heq
        exact .inr heq
    · exact .inl (wire_ends hw).1
    · obtain ⟨t, ht, rfl⟩ := mem_map.1 hw
      exact absurd (mem_append_right _ (mem_singleton_self _)) (hlast hdst)
  · exact fun t ht hb => hlast hb (u.target_mem ht).1

end Plan

end ProgramDependence
