import ProgramDependence.Proofs.Runs

/-!
# Walks are runs

A walk through placed control, along wires that are no fall-through wires, begins with a run:
whatever comes out of the control has executed it (`Control.runs_cover`).  Since placed control owns
the wires that leave its nodes, each step of the walk is known from the node it leaves.
-/

namespace ProgramDependence

open List Behavior Control Line Exits

variable {W : List Wire} {e : Id} {x : Exits} {next : Target} {start mid : Id}

/-- A walk from `start` that comes to `e` leaves the nodes of `pre` and is then at `mid`. -/
def Passes (W : List Wire) (e start : Id) (pre : List Id) (mid : Id) : Prop :=
  ∀ ns, Walk (Flows W) start ns e → ∃ rest, ns = pre ++ rest ∧ Walk (Flows W) mid rest e

theorem Passes.append {pre post : List Id} {last : Id} (h : Passes W e start pre mid)
    (h' : Passes W e mid post last) : Passes W e start (pre ++ post) last := by
  intro ns hns
  obtain ⟨rest, rfl, hrest⟩ := h ns hns
  obtain ⟨rest', rfl, hrest'⟩ := h' rest hrest
  exact ⟨rest', (append_assoc _ _ _).symm, hrest'⟩

/-- The wires that leave a line: those that join its nodes, and the heads of others at its last
node. -/
structure Line.Owned (W : List Wire) (l : Line Token) (heads : List Wire) : Prop where
  nodup : l.ids.Nodup
  owns : ∀ w ∈ W, w.src ∈ l.ids → w ∈ links l.all ∨ w ∈ heads
  heads : ∀ w ∈ heads, w.src = l.node.id

theorem links_src_ne {ts : List Token} {t : Token} (hnodup : ((ts ++ [t]).map (·.id)).Nodup)
    {w : Wire} (hw : w ∈ links (ts ++ [t])) : w.src ≠ t.id := by
  intro heq
  have hsub := (links_onward hw).2.2
  rw [heq, map_append, map_singleton] at hsub
  rw [map_append, map_singleton] at hnodup
  obtain ⟨before, after, hsplit, hbefore, hafter⟩ := sublist_append_iff.1 hsub
  cases before with
  | nil =>
    have hle := hafter.length_le
    rw [← hsplit.trans (nil_append _)] at hle
    simp at hle
  | cons a before =>
    obtain ⟨rfl, -⟩ := List.cons.inj hsplit
    exact disjoint_of_nodup_append hnodup (hbefore.subset mem_cons_self) (mem_singleton_self _)

variable {l : Line Token} {heads : List Wire}

/-- A walk that enters a line passes it up to its node. -/
theorem Line.Owned.passes_before (h : l.Owned W heads) (he : e ∉ l.ids) :
    Passes W e l.first.id (l.before.map (·.id)) l.node.id := by
  obtain ⟨before, node⟩ := l
  induction before with
  | nil => exact fun ns hns => ⟨ns, rfl, hns⟩
  | cons t ts ih =>
    obtain ⟨rest, hrest⟩ := Line.exists_all_eq ⟨ts, node⟩
    have hall : (Line.mk (t :: ts) node).all = t :: (Line.mk ts node).all := rfl
    have hids : (Line.mk (t :: ts) node).ids = t.id :: (Line.mk ts node).ids := rfl
    have hlinks : links (Line.mk (t :: ts) node).all =
        ⟨t.id, (Line.mk ts node).first.id, .true, none⟩ :: links (Line.mk ts node).all := by
      rw [hall, hrest, links]
    obtain ⟨hnodup, howns, hheads⟩ := h
    rw [hids, nodup_cons] at hnodup
    rw [hids, mem_cons, not_or] at he
    rw [hlinks] at howns
    have hrest : (Line.mk ts node).Owned W heads := by
      refine ⟨hnodup.2, fun w hw hsrc => ?_, hheads⟩
      rcases howns w hw (mem_cons_of_mem _ hsrc) with hmem | hmem
      · rcases mem_cons.1 hmem with rfl | hmem
        · exact absurd hsrc hnodup.1
        · exact .inl hmem
      · exact .inr hmem
    intro ns hns
    cases hns with
    | stay => exact absurd rfl he.1
    | go head tail =>
      obtain ⟨w, hw, -, hsrc, hdst⟩ := head
      have hfirst : w.dst = (Line.mk ts node).first.id := by
        rcases howns w hw (hsrc ▸ mem_cons_self) with hmem | hmem
        · rcases mem_cons.1 hmem with rfl | hmem
          · rfl
          · exact absurd (hsrc ▸ (Line.links_ends hmem).1) hnodup.1
        · have hnode : t.id = node.id := hsrc.symm.trans (hheads w hmem)
          exact absurd (hnode ▸ Line.node_mem_ids ⟨ts, node⟩) hnodup.1
      rw [← hdst, hfirst] at tail
      obtain ⟨zs, rfl, hzs⟩ := ih hrest he.2 _ tail
      exact ⟨zs, rfl, hzs⟩

theorem Line.Owned.leaves (h : l.Owned W heads) (he : e ∉ l.ids) {ns : List Id}
    (hns : Walk (Flows W) l.node.id ns e) :
    ∃ w ∈ heads, w.sort ≠ .fallThrough ∧ ∃ rest, ns = l.node.id :: rest ∧ Walk (Flows W) w.dst rest e := by
  cases hns with
  | stay => exact absurd l.node_mem_ids he
  | go head tail =>
    obtain ⟨w, hw, hsort, hsrc, rfl⟩ := head
    rcases h.owns w hw (hsrc ▸ l.node_mem_ids) with hmem | hmem
    · exact absurd hsrc (links_src_ne h.nodup hmem)
    · exact ⟨w, hmem, hsort, _, rfl, tail⟩

theorem Line.Owned.forks {w w' : Wire} (h : l.Owned W [w, w']) (he : e ∉ l.ids) (ns : List Id)
    (hns : Walk (Flows W) l.node.id ns e) :
    ∃ m, (m = w'.dst ∨ m = w.dst) ∧ ∃ rest, ns = l.node.id :: rest ∧ Walk (Flows W) m rest e := by
  obtain ⟨v, hv, -, hrest⟩ := h.leaves he hns
  rcases mem_cons.1 hv with rfl | hv
  · exact ⟨v.dst, .inr rfl, hrest⟩
  · exact ⟨v.dst, .inl (congrArg Wire.dst (mem_singleton.1 hv)), hrest⟩

theorem Line.Owned.passes {w : Wire} (h : l.Owned W [w]) (he : e ∉ l.ids) :
    Passes W e l.first.id l.ids w.dst := by
  rw [ids_eq]
  refine (h.passes_before he).append fun ns hns => ?_
  obtain ⟨w', hw', -, rest, rfl, hrest⟩ := h.leaves he hns
  rw [mem_singleton.1 hw'] at hrest
  exact ⟨rest, rfl, hrest⟩

theorem linesWires_passes {ls : List (Line Token)} (hnodup : (ls.flatMap Line.ids).Nodup)
    (howns : ∀ w ∈ W, w.src ∈ ls.flatMap Line.ids → w ∈ linesWires ls next) (he : e ∉ ls.flatMap Line.ids) :
    Passes W e (linesEntry ls next).node (ls.flatMap Line.ids) next.node := by
  induction ls with
  | nil => exact fun ns hns => ⟨ns, rfl, hns⟩
  | cons l ls ih =>
    rw [flatMap_cons] at hnodup he howns ⊢
    rw [mem_append, not_or] at he
    have hdisjoint := disjoint_of_nodup_append hnodup
    have hl : l.Owned W [(linesEntry ls next).wire l.node.id .true] := by
      refine ⟨hnodup.of_append_left, fun w hw hsrc => ?_, by simp [Target.wire]⟩
      have hmem := howns w hw (mem_append_left _ hsrc)
      simp only [linesWires, mem_append, mem_cons] at hmem
      rcases hmem with hmem | rfl | hmem
      · exact .inl hmem
      · exact .inr (mem_singleton_self _)
      · exact absurd ((linesWires_goes hmem).ends (by simp)).1 (hdisjoint hsrc)
    refine (hl.passes he.1).append (ih hnodup.of_append_right (fun w hw hsrc => ?_) he.2)
    have hmem := howns w hw (mem_append_right _ hsrc)
    simp only [linesWires, mem_append, mem_cons] at hmem
    rcases hmem with hmem | rfl | hmem
    · exact absurd hsrc (hdisjoint (Line.links_ends hmem).1)
    · exact absurd hsrc (hdisjoint l.node_mem_ids)
    · exact hmem

/-! ## Behaviors that cover walks -/

namespace Behavior

variable {r s : Behavior Token}

/-- The nodes begin with those of a run, and where its outcome leads the rest is walked. -/
def Begins (W : List Wire) (e : Id) (x : Exits) (next : Target) (r : Behavior Token) (ns : List Id) : Prop :=
  ∃ xs rest o t, ns = xs.map (·.id) ++ rest ∧ r xs o ∧ x.dest next o = some t ∧
    Walk (Flows W) t.node rest e

/-- Every walk from `start` that comes to `e` begins with a run. -/
def Covers (W : List Wire) (e : Id) (x : Exits) (next : Target) (start : Id) (r : Behavior Token) : Prop :=
  ∀ ns, Walk (Flows W) start ns e → r.Begins W e x next ns

theorem Covers.mono (h : r.Covers W e x next start) (hrs : ∀ xs o, r xs o → s xs o) :
    s.Covers W e x next start := by
  intro ns hns
  obtain ⟨xs, rest, o, t, heq, hr, hrest⟩ := h ns hns
  exact ⟨xs, rest, o, t, heq, hrs xs o hr, hrest⟩

theorem Covers.here {o : Outcome} {t : Target} (h : x.dest next o = some t) :
    (exactly [] o).Covers W e x next t.node :=
  fun ns hns => ⟨[], ns, o, t, rfl, ⟨rfl, rfl⟩, h, hns⟩

theorem Covers.after {xs : List Token} (hxs : Passes W e start (xs.map (·.id)) mid)
    (h : r.Covers W e x next mid) : (after xs r).Covers W e x next start := by
  intro ns hns
  obtain ⟨rest, rfl, hrest⟩ := hxs ns hns
  obtain ⟨ys, rest', o, t, rfl, hr, hdest, hrest'⟩ := h rest hrest
  exact ⟨xs ++ ys, rest', o, t, by rw [map_append, append_assoc], ⟨ys, rfl, hr⟩, hdest, hrest'⟩

theorem Covers.after_line {l : Line Token} {heads : List Wire} (hl : l.Owned W heads)
    (he : e ∉ l.ids) (h : ∀ w ∈ heads, w.sort ≠ .fallThrough → r.Covers W e x next w.dst) :
    (Behavior.after l.all r).Covers W e x next l.first.id := by
  intro ns hns
  obtain ⟨_, rfl, hnode⟩ := hl.passes_before he ns hns
  obtain ⟨w, hw, hsort, rest, rfl, hrest⟩ := hl.leaves he hnode
  obtain ⟨ys, rest', o, t, rfl, hr, hdest, hrest'⟩ := h w hw hsort rest hrest
  exact ⟨l.all ++ ys, rest', o, t, by simp [Line.all], ⟨ys, rfl, hr⟩, hdest, hrest'⟩

/-- A sequence covers the walks through both parts. -/
theorem Covers.seq {mid : Target} (hr : r.Covers W e x mid start)
    (hs : s.Covers W e x next mid.node) : (r.seq s).Covers W e x next start := by
  intro ns hns
  obtain ⟨xs, rest, o, t, rfl, hruns, hdest, hrest⟩ := hr ns hns
  by_cases ho : o = .normal
  · subst ho
    obtain rfl : mid = t := Option.some.inj hdest
    obtain ⟨ys, rest', o, t, rfl, hruns', hdest', hrest'⟩ := hs rest hrest
    exact ⟨xs ++ ys, rest', o, t, by rw [map_append, append_assoc],
      .inl ⟨xs, ys, rfl, hruns, hruns'⟩, hdest', hrest'⟩
  · exact ⟨xs, rest, o, t, rfl, .inr ⟨hruns, ho⟩, (dest_of_ne ho).trans hdest, hrest⟩

theorem Covers.catching {f : Frame} {caught : Outcome → Bool}
    (hdest : ∀ o, (x.push f).dest next o = if caught o then some next else x.dest next o)
    (h : r.Covers W e (x.push f) next start) : (catching caught r).Covers W e x next start := by
  intro ns hns
  obtain ⟨xs, rest, o, t, rfl, hruns, ht, hrest⟩ := h ns hns
  rw [hdest] at ht
  cases ho : caught o with
  | true =>
    rw [ho] at ht
    exact ⟨xs, rest, .normal, t, rfl, .inr ⟨rfl, o, hruns, ho⟩, ht, hrest⟩
  | false =>
    rw [ho] at ht
    exact ⟨xs, rest, o, t, rfl, .inl ⟨hruns, ho⟩, ht, hrest⟩

section Rounds

variable {label : Option String} {cont : Target} {enter : Id} {pre : List Token} {test : Token}

theorem begins_entered (honward : Passes W e cont.node (pre.map (·.id)) test.id)
    (hbody : r.Covers W e (x.push ⟨.loop, label, next, cont⟩) cont enter) {n : Nat}
    (htested : ∀ ns, ns.length ≤ n → Walk (Flows W) test.id ns e →
      (after [test] (Rounds r label (pre ++ [test]) .tested)).Begins W e x next ns)
    {ns : List Id} (hlength : ns.length ≤ n) (hns : Walk (Flows W) enter ns e) :
    Begins W e x next (Rounds r label (pre ++ [test]) .entered) ns := by
  obtain ⟨xs, rest, o, t, rfl, hruns, ht, hrest⟩ := hbody ns hns
  by_cases hresumes : o.resumes label = true
  · rw [dest_resumes hresumes, Option.some.injEq] at ht
    obtain ⟨post, rfl, hpost⟩ := honward rest (ht ▸ hrest)
    simp only [length_append] at hlength
    obtain ⟨_, rest', o', t', rfl, ⟨ys, rfl, hruns'⟩, ht', hrest'⟩ := htested post (by omega) hpost
    exact ⟨xs ++ ((pre ++ [test]) ++ ys), rest', o', t', by simp, .resume hruns hresumes hruns', ht', hrest'⟩
  · rw [Bool.not_eq_true] at hresumes
    by_cases hends : o.ends label = true
    · rw [dest_ends hends] at ht
      exact ⟨xs, rest, .normal, t, rfl, .leave hruns hends, ht, hrest⟩
    · rw [Bool.not_eq_true] at hends
      rw [dest_passes hresumes hends] at ht
      exact ⟨xs, rest, o, t, rfl, .pass hruns hresumes hends, ht, hrest⟩

/-- The rounds of a loop cover the walks that enter it. -/
theorem covers_rounds (hleave : ∀ ns, Walk (Flows W) test.id ns e → ∃ m, (m = next.node ∨ m = enter) ∧
      ∃ rest, ns = test.id :: rest ∧ Walk (Flows W) m rest e)
    (honward : Passes W e cont.node (pre.map (·.id)) test.id)
    (hbody : r.Covers W e (x.push ⟨.loop, label, next, cont⟩) cont enter) :
    (after [test] (Rounds r label (pre ++ [test]) .tested)).Covers W e x next test.id ∧
      Covers W e x next enter (Rounds r label (pre ++ [test]) .entered) := by
  have htested : ∀ n ns, ns.length ≤ n → Walk (Flows W) test.id ns e →
      (after [test] (Rounds r label (pre ++ [test]) .tested)).Begins W e x next ns := by
    intro n
    induction n with
    | zero =>
      intro ns hlength hns
      obtain ⟨m, -, rest, rfl, -⟩ := hleave ns hns
      simp at hlength
    | succ n ih =>
      intro ns hlength hns
      obtain ⟨m, hm, rest, rfl, hrest⟩ := hleave ns hns
      rw [length_cons] at hlength
      rcases hm with rfl | rfl
      · exact ⟨[test], rest, .normal, next, rfl, ⟨[], rfl, .stop⟩, rfl, hrest⟩
      · obtain ⟨xs, rest', o, t, rfl, hruns, ht, hrest'⟩ :=
          begins_entered honward hbody ih (by omega) hrest
        exact ⟨test :: xs, rest', o, t, rfl, ⟨xs, rfl, .enter hruns⟩, ht, hrest'⟩
  exact ⟨fun ns => htested ns.length ns (Nat.le_refl _), fun ns =>
    begins_entered honward hbody (htested ns.length) (Nat.le_refl _)⟩

end Rounds

end Behavior

/-! ## Structured control -/

theorem Line.owned_of_split {ids : List Id} {wires : List Wire} (others : List Wire)
    (hnodup : ids.Nodup) (howns : ∀ w ∈ W, w.src ∈ ids → w ∈ wires) (hl : l.ids.Sublist ids)
    (hwires : ∀ w ∈ wires, w ∈ links l.all ∨ w ∈ heads ∨ w ∈ others) (hheads : ∀ w ∈ heads, w.src = l.node.id)
    (hothers : ∀ w ∈ others, w.src ∉ l.ids) : l.Owned W heads := by
  refine ⟨hnodup.sublist hl, fun w hw hsrc => ?_, hheads⟩
  rcases hwires w (howns w hw (hl.subset hsrc)) with hmem | hmem | hmem
  · exact .inl hmem
  · exact .inr hmem
  · exact absurd hsrc (hothers w hmem)

section Owned

variable {l : Line Token} {a b body : Control Token} {label : Option String} {update : List (Line Token)}
  {arms rest : Arms Token} {missed : Target}

theorem Placed.branch_owned (h : Placed W (.branch l a b) x next) :
    l.Owned W [(a.entry next).wire l.node.id .true, (b.entry next).wire l.node.id .false] := by
  have hnodup := h.nodup
  rw [ids_branch] at hnodup
  refine owned_of_split (a.wires x next ++ b.wires (x.forget a.labels) next) h.nodup h.owns
    (ids_branch l a b ▸ sublist_append_left _ _) (fun w hw => ?_) (by simp [Target.wire])
    fun w hw hsrc => disjoint_of_nodup_append hnodup hsrc ?_
  · simpa [wires, or_assoc] using hw
  · rw [mem_append] at hw ⊢
    exact hw.imp (fun hw => (wire_ends hw).1) fun hw => (wire_ends hw).1

theorem Placed.loop_owned (h : Placed W (.loop label l body update) x next) :
    l.Owned W [(body.entry (Placed.onwardOf l update)).wire l.node.id .true, next.wire l.node.id .false] := by
  have hnodup := h.nodup
  rw [ids_loop] at hnodup
  refine owned_of_split
    (body.wires (x.push ⟨.loop, label, next, Placed.onwardOf l update⟩) (Placed.onwardOf l update) ++
      linesWires update ⟨l.first.id, some l.node.id⟩) h.nodup h.owns
    (ids_loop label l body update ▸ sublist_append_left _ _) (fun w hw => ?_)
    (by simp [Target.wire]) fun w hw hsrc => disjoint_of_nodup_append hnodup hsrc ?_
  · simpa [wires, or_assoc] using hw
  · rw [mem_append] at hw ⊢
    exact hw.imp (fun hw => (wire_ends hw).1) fun hw => ((linesWires_goes hw).ends (by simp)).1

theorem Placed.loop_passes (h : Placed W (.loop label l body update) x next)
    (he : e ∉ update.flatMap Line.ids) :
    Passes W e (Placed.onwardOf l update).node (update.flatMap Line.ids) l.first.id := by
  have hnodup := h.nodup
  rw [ids_loop] at hnodup
  refine linesWires_passes hnodup.of_append_right.of_append_right (fun w hw hsrc => ?_) he
  have hmem := h.owns w hw (by rw [ids_loop]; simp [hsrc])
  simp only [wires, mem_append, mem_cons] at hmem
  have hl : ∀ i ∈ l.ids, i ∉ update.flatMap Line.ids := fun i hi hu =>
    disjoint_of_nodup_append hnodup hi (mem_append_right _ hu)
  rcases hmem with hmem | rfl | rfl | hmem | hmem
  · exact absurd hsrc (hl _ (Line.links_ends hmem).1)
  · exact absurd hsrc (hl _ l.node_mem_ids)
  · exact absurd hsrc (hl _ l.node_mem_ids)
  · exact absurd hsrc (disjoint_of_nodup_append hnodup.of_append_right (wire_ends hmem).1)
  · exact hmem

theorem Placed.doLoop_owned (h : Placed W (.doLoop label body l) x next) :
    l.Owned W [⟨l.node.id, (body.entry l.first.target).node, .true, some l.node.id⟩,
      next.wire l.node.id .false] := by
  have hnodup := h.nodup
  rw [ids_doLoop] at hnodup
  refine owned_of_split (body.wires (x.push ⟨.loop, label, next, l.first.target⟩) l.first.target)
    h.nodup h.owns (ids_doLoop label body l ▸ sublist_append_right _ _) (fun w hw => ?_)
    (by simp [Target.wire]) fun w hw hsrc =>
      disjoint_of_nodup_append hnodup (wire_ends hw).1 hsrc
  simp only [wires, mem_append] at hw
  tauto

theorem Placed.switch_owned (h : Placed W (.switch l arms) x next) :
    l.Owned W [(arms.guardEntry (arms.missed next)).wire l.node.id .true, next.wire l.node.id .false] := by
  have hnodup := h.nodup
  rw [ids_switch] at hnodup
  refine owned_of_split (arms.wires (x.push ⟨.switch, none, next, next⟩) next (arms.missed next)) h.nodup
    h.owns (ids_switch l arms ▸ sublist_append_left _ _) (fun w hw => ?_) (by simp [Target.wire])
    fun w hw hsrc => disjoint_of_nodup_append hnodup hsrc (Arms.wire_ends hw).1
  simpa [wires, or_assoc] using hw

theorem PlacedArms.guard_owned (h : PlacedArms W (.guard l body rest) x next missed) :
    l.Owned W [(body.entry (rest.bodyEntry next)).wire l.node.id .true,
      (rest.guardEntry missed).wire l.node.id .false] := by
  have hnodup := h.nodup
  rw [Arms.ids_guard] at hnodup
  refine owned_of_split (body.wires x (rest.bodyEntry next) ++ rest.wires (x.forget body.labels) next missed)
    h.nodup h.owns (Arms.ids_guard l body rest ▸ sublist_append_left _ _) (fun w hw => ?_)
    (by simp [Target.wire]) fun w hw hsrc => disjoint_of_nodup_append hnodup hsrc ?_
  · simpa [Arms.wires, or_assoc] using hw
  · rcases mem_append.1 hw with hw | hw
    · simp [(wire_ends hw).1]
    · have hrest := (Arms.wire_ends hw).1
      simp only [rest.ids_eq, mem_append] at hrest ⊢
      tauto

theorem PlacedArms.default_owned {n : Token} (h : PlacedArms W (.default n body rest) x next missed) :
    (single n).Owned W [(body.entry (rest.bodyEntry next)).wire n.id .true] := by
  have hperm := Arms.perm_ids_default n body rest
  have hfirst := disjoint_of_nodup_append (hperm.nodup_iff.1 h.nodup)
  have hids : (single n).ids = [n.id] := rfl
  refine owned_of_split (body.wires x (rest.bodyEntry next) ++ rest.wires (x.forget body.labels) next missed)
    h.nodup h.owns (hids ▸ singleton_sublist.2 (hperm.mem_iff.2 mem_cons_self)) (fun w hw => ?_)
    (by simp [Target.wire, single]) fun w hw hsrc => ?_
  · exact .inr (by simpa [Arms.wires] using hw)
  · exact hfirst (hids ▸ hsrc)
      (mem_append.2 ((mem_append.1 hw).imp (fun hw => (wire_ends hw).1) fun hw => (Arms.wire_ends hw).1))

end Owned

theorem Behavior.after_exactly {xs ys : List Token} {o o' : Outcome}
    (h : after xs (exactly [] o) ys o') : exactly xs o ys o' := by
  obtain ⟨_, rfl, rfl, rfl⟩ := h
  exact ⟨append_nil _, rfl⟩

mutual

/-- **Every walk is a run.**  A walk that comes out of placed control begins with a run of it. -/
theorem Control.runs_cover : ∀ (k : Control Token) (x : Exits) (next : Target), Placed W k x next →
    k.apart = true → x.Clear k.labels → e ∉ k.ids → k.runs.Covers W e x next (k.entry next).node
  | .skip, x, next, _, _, _, _ => .here rfl
  | .seq a b, x, next, h, hapart, hclear, he => by
    rw [apart, Bool.and_eq_true] at hapart
    rw [ids_seq, mem_append, not_or] at he
    have hleft : x.Clear a.labels := hclear.mono (subset_append_left _ _)
    have hb := h.seq_right
    rw [forget_eq hleft] at hb
    rw [entry_seq]
    exact .seq (a.runs_cover x _ h.seq_left hapart.1 hleft he.1)
      (b.runs_cover x next hb hapart.2 (hclear.mono (subset_append_right _ _)) he.2)
  | .line l, x, next, h, _, _, he => by
    have hl : l.Owned W [next.wire l.node.id .true] := by
      refine Line.owned_of_split [] h.nodup h.owns (List.Sublist.refl _) (fun w hw => ?_)
        (by simp [Target.wire]) (by simp)
      simpa [wires] using hw
    refine Behavior.Covers.mono (.after_line hl he fun w hw _ => ?_) fun xs o => Behavior.after_exactly
    rw [mem_singleton.1 hw]
    exact .here rfl
  | .jump l j, x, next, h, _, _, he => by
    have hl : l.Owned W (next.wire l.node.id .fallThrough ::
        ((x.resolve j).map (·.wire l.node.id .true)).toList) := by
      refine Line.owned_of_split [] h.nodup h.owns (List.Sublist.refl _) (fun w hw => ?_)
        (fun w hw => ?_) (by simp)
      · simpa [wires] using hw
      · rw [mem_cons, Option.mem_toList, Option.map_eq_some_iff] at hw
        rcases hw with rfl | ⟨t, -, rfl⟩ <;> rfl
    refine .mono (.after_line hl he fun w hw hsort => ?_) fun xs o =>
      Behavior.after_exactly
    rw [mem_cons, Option.mem_toList, Option.map_eq_some_iff] at hw
    rcases hw with rfl | ⟨t, ht, rfl⟩
    · exact absurd rfl hsort
    · exact .here ht
  | .branch l a b, x, next, h, hapart, hclear, he => by
    rw [apart, Bool.and_eq_true] at hapart
    have hleft : x.Clear a.labels := hclear.mono (subset_append_left _ _)
    have hb := h.branch_right
    rw [forget_eq hleft] at hb
    simp only [ids_branch, mem_append, not_or] at he
    refine .after_line h.branch_owned he.1 fun w hw _ => ?_
    rcases mem_cons.1 hw with rfl | hw
    · exact (a.runs_cover x next h.branch_left hapart.1 hleft he.2.1).mono fun _ _ => .inl
    · rw [mem_singleton.1 hw]
      exact (b.runs_cover x next hb hapart.2 (hclear.mono (subset_append_right _ _)) he.2.2).mono
        fun _ _ => .inr
  | .loop label l body update, x, next, h, hapart, hclear, he => by
    simp only [apart, Bool.and_eq_true, Bool.not_eq_true'] at hapart
    simp only [ids_loop, mem_append, not_or] at he
    have hbody := body.runs_cover _ _ h.loop_body hapart.2
      ((hclear.mono (subset_append_left _ _)).push hapart.1) he.2.1
    have htest := h.loop_owned.passes_before he.1
    have honward : Passes W e (Placed.onwardOf l update).node
        ((update.flatMap Line.all ++ l.before).map (·.id)) l.node.id := by
      rw [map_append, map_flatMap]
      exact (h.loop_passes he.2.2).append htest
    obtain ⟨hrounds, -⟩ := Behavior.covers_rounds (h.loop_owned.forks he.1) honward hbody
    refine (Behavior.Covers.after htest hrounds).mono ?_
    rintro _ o ⟨_, rfl, zs, rfl, hzs⟩
    exact ⟨zs, by simp [Line.all], by simpa [Line.all] using hzs⟩
  | .doLoop label body l, x, next, h, hapart, hclear, he => by
    simp only [apart, Bool.and_eq_true, Bool.not_eq_true'] at hapart
    rw [ids_doLoop, mem_append, not_or] at he
    have hbody := body.runs_cover _ _ h.doLoop_body hapart.2
      ((hclear.mono (subset_append_left _ _)).push hapart.1) he.1
    rw [entry_doLoop]
    exact (Behavior.covers_rounds (h.doLoop_owned.forks he.2) (h.doLoop_owned.passes_before he.2) hbody).2
  | .switch l arms, x, next, h, hapart, hclear, he => by
    rw [ids_switch, mem_append, not_or] at he
    obtain ⟨-, hguards, hfallback⟩ := arms.runs_cover _ next _ h.switch_arms hapart (hclear.push rfl) he.2
    refine .after_line h.switch_owned he.1 fun w hw _ => .catching (fun _ => dest_switch) ?_
    rcases mem_cons.1 hw with rfl | hw
    · exact (hguards _ hfallback).mono fun _ _ => .inr
    · rw [mem_singleton.1 hw]
      exact .mono (.here rfl) fun _ _ => .inl
  | .labeled l body, x, next, h, hapart, hclear, he => by
    simp only [apart, Bool.and_eq_true, Bool.not_eq_true'] at hapart
    exact .catching (fun _ => dest_labeled (hclear.mono (subset_append_right _ _)))
      (body.runs_cover _ next h.labeled_body hapart.2
      ((hclear.mono (subset_append_left _ _)).push hapart.1) he)

theorem Arms.runs_cover : ∀ (arms : Arms Token) (x : Exits) (next missed : Target),
    PlacedArms W arms x next missed → arms.apart = true → x.Clear arms.labels → e ∉ arms.ids →
      arms.falls.Covers W e x next (arms.bodyEntry next).node ∧
      (∀ s : Behavior Token, s.Covers W e x next missed.node →
        (either arms.hits (after arms.guards s)).Covers W e x next (arms.guardEntry missed).node) ∧
      arms.fallback.Covers W e x next (arms.missed next).node
  | .nil, x, next, _, _, _, _, _ =>
    ⟨.here rfl, fun s hs => hs.mono fun xs o h => .inr ⟨xs, rfl, h⟩, .here rfl⟩
  | .guard l body rest, x, next, missed, h, hapart, hclear, he => by
    rw [Arms.apart, Bool.and_eq_true] at hapart
    have hleft : x.Clear body.labels := hclear.mono (subset_append_left _ _)
    obtain ⟨hbody, hrest⟩ := h.guard_parts
    rw [forget_eq hleft] at hrest
    simp only [Arms.ids_guard, mem_append, not_or] at he
    obtain ⟨hfalls, hguards, hfallback⟩ := rest.runs_cover x next missed hrest hapart.2
      (hclear.mono (subset_append_right _ _)) (by simp [rest.ids_eq, he.2.1, he.2.2.1, he.2.2.2.2])
    have hhere := (body.runs_cover x _ hbody hapart.1 hleft he.2.2.2.1).seq hfalls
    refine ⟨hhere, fun s hs => ?_, hfallback⟩
    have hcovers : (after l.all (either (body.runs.seq rest.falls)
        (either rest.hits (after rest.guards s)))).Covers W e x next l.first.id := by
      refine .after_line h.guard_owned he.1 fun w hw _ => ?_
      rcases mem_cons.1 hw with rfl | hw
      · exact hhere.mono fun _ _ => .inl
      · rw [mem_singleton.1 hw]
        exact (hguards s hs).mono fun _ _ => .inr
    refine hcovers.mono ?_
    rintro _ o ⟨zs, rfl, hruns | hruns | ⟨ys, rfl, hruns⟩⟩
    · exact .inl ⟨zs, rfl, .inl hruns⟩
    · exact .inl ⟨zs, rfl, .inr hruns⟩
    · exact .inr ⟨ys, (append_assoc _ _ _).symm, hruns⟩
  | .default n body rest, x, next, missed, h, hapart, hclear, he => by
    rw [Arms.apart, Bool.and_eq_true] at hapart
    have hleft : x.Clear body.labels := hclear.mono (subset_append_left _ _)
    obtain ⟨hbody, hrest⟩ := h.default_parts
    rw [forget_eq hleft] at hrest
    simp only [Arms.ids_default, mem_append, mem_cons, not_or] at he
    obtain ⟨hfalls, hguards, hfallback⟩ := rest.runs_cover x next missed hrest hapart.2
      (hclear.mono (subset_append_right _ _)) (by simp [rest.ids_eq, he.1, he.2.2.1, he.2.2.2.2])
    have hhere := (body.runs_cover x _ hbody hapart.1 hleft he.2.2.2.1).seq hfalls
    refine ⟨hhere, hguards, ?_⟩
    rw [Arms.missed_default, Arms.fallback]
    split
    · exact hfallback
    · refine .after_line h.default_owned (by simpa [Line.ids, Line.all, Line.single] using he.2.1)
        fun w hw _ => ?_
      rw [mem_singleton.1 hw]
      exact hhere

end

end ProgramDependence
