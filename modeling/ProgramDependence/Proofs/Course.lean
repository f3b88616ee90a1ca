import ProgramDependence.Proofs.Wiring

/-!
# Where wires go

Every wire of structured control goes onward in the order of its nodes, leads out of it to what
comes after it or to the target of a jump, or closes one of its loops (`Control.wire_goes`).  So it
starts at one of the nodes, and ends at one of them or at a target (`Control.wire_ends`).
-/

namespace ProgramDependence

open List Control
variable {rest : Arms Token}

/-! ## Targets -/

def Exits.targets (x : Exits) : List Target :=
  x.returns :: x.throws :: x.frames.flatMap fun f => [f.breaks, f.continues]

variable {x : Exits} {t next : Target} {w : Wire}

theorem Exits.resolve_mem {j : Jump} (h : x.resolve j = some t) : t ∈ x.targets := by
  cases j with
  | returning =>
    obtain rfl : x.returns = t := by simpa [resolve] using h
    simp [targets]
  | throwing =>
    obtain rfl : x.throws = t := by simpa [resolve] using h
    simp [targets]
  | breakTo l =>
    simp only [resolve, Option.map_eq_some_iff] at h
    obtain ⟨f, hf, rfl⟩ := h
    simp only [targets, mem_cons, mem_flatMap]
    exact .inr (.inr ⟨f, mem_of_find?_eq_some hf, by simp⟩)
  | continueTo l =>
    simp only [resolve, Option.bind_eq_some_iff] at h
    obtain ⟨f, hf, hkind⟩ := h
    obtain rfl : f.continues = t := by
      split at hkind
      · exact Option.some.inj hkind
      · cases hkind
    simp only [targets, mem_cons, mem_flatMap]
    exact .inr (.inr ⟨f, mem_of_find?_eq_some hf, by simp⟩)

@[simp] theorem Exits.targets_forget (x : Exits) (labels : List String) :
    (x.forget labels).targets = x.targets := by
  simp only [targets, forget, flatMap_map]
  congr 2
  refine flatMap_congr fun f _ => ?_
  split <;> rfl

@[simp] theorem Exits.mem_targets_push {f : Frame} :
    t ∈ (x.push f).targets ↔ t = f.breaks ∨ t = f.continues ∨ t ∈ x.targets := by
  simp only [targets, push, mem_cons, flatMap_cons, mem_append]
  tauto

theorem Exits.of_mem_push {kind : Lowering.JumpKind} {label : Option String} {cont : Target}
    (ht : t ∈ cont :: (x.push ⟨kind, label, next, cont⟩).targets) : t = cont ∨ t ∈ next :: x.targets := by
  rw [mem_cons, mem_targets_push] at ht
  rw [mem_cons]
  tauto

theorem Exits.push_subset (kind : Lowering.JumpKind) (label : Option String) :
    next :: (x.push ⟨kind, label, next, next⟩).targets ⊆ next :: x.targets := by
  intro t ht
  rcases of_mem_push ht with rfl | ht
  · exact mem_cons_self
  · exact ht

/-! ## Ends of wires -/

def Control.ids (k : Control Token) : List Id :=
  k.nodes.map (·.id)

def Line.ids (l : Line Token) : List Id :=
  l.all.map (·.id)

def Arms.ids (arms : Arms Token) : List Id :=
  arms.nodes.map (·.id)

theorem Line.node_mem_ids (l : Line Token) : l.node.id ∈ l.ids :=
  mem_map_of_mem l.node_mem

theorem Line.first_mem_ids (l : Line Token) : l.first.id ∈ l.ids :=
  mem_map_of_mem l.first_mem

theorem links_onward {ts : List Token} (hw : w ∈ links ts) :
    w.sort = .true ∧ w.loop = none ∧ [w.src, w.dst].Sublist (ts.map (·.id)) := by
  induction ts with
  | nil => simp [links] at hw
  | cons a ts ih =>
    cases ts with
    | nil => simp [links] at hw
    | cons b ts =>
      rw [links, mem_cons] at hw
      rcases hw with rfl | hw
      · exact ⟨rfl, rfl, by simp⟩
      · obtain ⟨hsort, hloop, hsub⟩ := ih hw
        exact ⟨hsort, hloop, hsub.cons _⟩

theorem Line.links_ends {l : Line Token} {w : Wire} (hw : w ∈ links l.all) : w.src ∈ l.ids ∧
    w.dst ∈ l.ids := by
  have hsub := (links_onward hw).2.2.subset
  exact ⟨hsub mem_cons_self, hsub (mem_cons_of_mem _ mem_cons_self)⟩

/-- A target among some nodes, which closes no loop, or the one past them. -/
def Target.In (t : Target) (ids : List Id) (past : Target) : Prop :=
  t.node ∈ ids ∧ t.loop = none ∨ t = past

theorem Target.In.mono {past : Target} {ids ids' : List Id} (h : t.In ids past) (hsub : ids ⊆ ids') :
    t.In ids' past :=
  h.imp_left fun ht => ⟨hsub ht.1, ht.2⟩

theorem Target.In.trans {past past' : Target} {ids : List Id} (h : t.In ids past)
    (hpast : past.In ids past') : t.In ids past' := by
  rcases h with h | rfl
  · exact .inl h
  · exact hpast

theorem Token.target_in {t : Token} {ids : List Id} (h : t.id ∈ ids) (past : Target) : t.target.In ids past :=
  .inl ⟨h, rfl⟩

theorem Control.entry_in (k : Control Token) (next : Target) : (k.entry next).In k.ids next := by
  cases h : k.first? with
  | none => exact .inr (by simp [entry, h])
  | some t =>
    have hentry : k.entry next = t.target := by simp [entry, h]
    rw [hentry]
    exact t.target_in (mem_map_of_mem (k.first?_mem h)) next

theorem linesEntry_in (ls : List (Line Token)) (next : Target) :
    (linesEntry ls next).In (ls.flatMap Line.ids) next := by
  cases ls with
  | nil => exact .inr rfl
  | cons l ls =>
    exact l.first.target_in (mem_append_left _ l.first_mem_ids) next

def Arms.guardIds (arms : Arms Token) : List Id :=
  arms.guards.map (·.id)

def Arms.defaultIds (arms : Arms Token) : List Id :=
  arms.defaults.map (·.id)

def Arms.bodyIds (arms : Arms Token) : List Id :=
  arms.bodies.map (·.id)

theorem Arms.guardEntry_in (missed : Target) :
    ∀ arms : Arms Token, (arms.guardEntry missed).In arms.guardIds missed
  | .nil => .inr rfl
  | .guard t _ rest => by
    rw [Arms.guardIds, Arms.guards, map_append]
    exact t.first.target_in (mem_append_left _ t.first_mem_ids) missed
  | .default _ _ rest => Arms.guardEntry_in missed rest

theorem Arms.bodyEntry_in (next : Target) : ∀ arms : Arms Token, (arms.bodyEntry next).In arms.bodyIds next
  | .nil => .inr rfl
  | .guard _ body rest | .default _ body rest => by
    rw [Arms.bodyIds, Arms.bodies, map_append]
    exact ((body.entry_in _).mono (subset_append_left _ _)).trans
      ((Arms.bodyEntry_in next rest).mono (subset_append_right _ _))

theorem Arms.missed_in (arms : Arms Token) (next : Target) : (arms.missed next).In arms.defaultIds next := by
  cases h : arms.defaults.getLast? with
  | none => exact .inr (by simp [Arms.missed, h])
  | some d =>
    have hmissed : arms.missed next = d.target := by simp [Arms.missed, h]
    rw [hmissed]
    exact d.target_in (mem_map_of_mem (mem_of_getLast? h)) next

theorem Control.ids_seq (a b : Control Token) : (seq a b).ids = a.ids ++ b.ids :=
  map_append

theorem Control.ids_branch (t : Line Token) (a b : Control Token) :
    (branch t a b).ids = t.ids ++ (a.ids ++ b.ids) := by
  simp [ids, nodes, Line.ids]

theorem Control.ids_loop (label : Option String) (t : Line Token) (body : Control Token)
    (update : List (Line Token)) :
    (loop label t body update).ids = t.ids ++ (body.ids ++ update.flatMap Line.ids) := by
  simp only [ids, nodes, map_append, map_flatMap]
  rfl

theorem Control.ids_doLoop (label : Option String) (body : Control Token) (t : Line Token) :
    (doLoop label body t).ids = body.ids ++ t.ids := by
  simp [ids, nodes, Line.ids]

theorem Control.ids_switch (s : Line Token) (arms : Arms Token) :
    (switch s arms).ids = s.ids ++ arms.ids := by
  simp [ids, nodes, Line.ids, Arms.ids, Arms.nodes]

theorem Arms.ids_eq (arms : Arms Token) : arms.ids = arms.guardIds ++ (arms.defaultIds ++ arms.bodyIds) := by
  simp [Arms.ids, Arms.nodes, Arms.guardIds, Arms.defaultIds, Arms.bodyIds]

theorem Arms.ids_guard (t : Line Token) (body : Control Token) (rest : Arms Token) :
    (Arms.guard t body rest).ids =
    t.ids ++ (rest.guardIds ++ (rest.defaultIds ++ (body.ids ++ rest.bodyIds))) := by
  simp [Arms.ids, Arms.nodes, Arms.guards, Arms.defaults, Arms.bodies, Arms.guardIds, Arms.defaultIds,
    Arms.bodyIds, Line.ids, Control.ids]

theorem Arms.ids_default (n : Token) (body : Control Token) (rest : Arms Token) :
    (Arms.default n body rest).ids =
    rest.guardIds ++ (n.id :: (rest.defaultIds ++ (body.ids ++ rest.bodyIds))) := by
  simp [Arms.ids, Arms.nodes, Arms.guards, Arms.defaults, Arms.bodies, Arms.guardIds, Arms.defaultIds,
    Arms.bodyIds, Control.ids]

/-! ## Where wires go -/

/-- A loop as its closing wires see it: the node they lead to, the node that decides about the loop,
and the nodes they can start at. -/
structure Ring where
  head : Id
  test : Id
  members : List Id

mutual

def Control.rings : Control Token → List Ring
  | .skip | .line _ | .jump _ _ => []
  | .seq a b | .branch _ a b => a.rings ++ b.rings
  | .loop _ t body update =>
    ⟨t.first.id, t.node.id, t.node.id :: (body.ids ++ update.flatMap Line.ids)⟩ :: body.rings
  | .doLoop _ body t => ⟨(body.entry t.first.target).node, t.node.id, [t.node.id]⟩ :: body.rings
  | .switch _ arms => arms.rings
  | .labeled _ body => body.rings

def Arms.rings : Arms Token → List Ring
  | .nil => []
  | .guard _ body rest | .default _ body rest => body.rings ++ rest.rings

end

/-- Where a wire goes: onward in the order of some nodes, out of them to a target, or back to close
a loop. -/
inductive Wire.Goes (w : Wire) (ids : List Id) (ts : List Target) (rings : List Ring) : Prop where
  | onward (plain : w.loop = none) (order : [w.src, w.dst].Sublist ids)
  | out (src : w.src ∈ ids) (target : (⟨w.dst, w.loop⟩ : Target) ∈ ts)
  | back {r : Ring} (mem : r ∈ rings) (src : w.src ∈ r.members) (dst : w.dst = r.head)
      (loop : w.loop = some r.test)

namespace Wire.Goes

variable {w : Wire} {ids ids' : List Id} {ts ts' : List Target} {rings rings' : List Ring}

theorem widen (h : w.Goes ids ts rings) (hids : ids.Sublist ids') (hrings : rings ⊆ rings')
    (hts : ∀ t ∈ ts, ∀ v : Wire, v.src ∈ ids → (⟨v.dst, v.loop⟩ : Target) = t → v.Goes ids' ts' rings') :
    w.Goes ids' ts' rings' := by
  cases h with
  | onward plain order => exact .onward plain (order.trans hids)
  | out src target => exact hts _ target w src rfl
  | back mem src dst loop => exact .back (hrings mem) src dst loop

theorem across {a b : List Id} (hplain : w.loop = none) (hsrc : w.src ∈ a) (hdst : w.dst ∈ b) :
    w.Goes (a ++ b) ts rings :=
  .onward hplain ((singleton_sublist.2 hsrc).append (singleton_sublist.2 hdst))

theorem past {next : Target} (hsrc : w.src ∈ ids) (hw : (⟨w.dst, w.loop⟩ : Target) = next) :
    w.Goes ids (next :: ts) rings :=
  .out hsrc (hw ▸ mem_cons_self)

theorem keep (h : w.Goes ids ts rings) (hids : ids.Sublist ids') (hrings : rings ⊆ rings')
    (hts : ts ⊆ ts') : w.Goes ids' ts' rings' :=
  h.widen hids hrings fun _ ht _ hv hvt => .out (hids.subset hv) (hvt ▸ hts ht)

theorem enlarge (h : w.Goes ids ts rings) (hids : ids.Sublist ids') : w.Goes ids' ts rings :=
  h.keep hids (.refl _) (.refl _)

theorem toward {a b : List Id} {t past : Target} (hw : (⟨w.dst, w.loop⟩ : Target) = t) (ht : t.In b past)
    (hsrc : w.src ∈ a) (hpast : (⟨w.dst, w.loop⟩ : Target) = past → w.Goes (a ++ b) ts rings) :
    w.Goes (a ++ b) ts rings := by
  subst hw
  rcases ht with ⟨hdst, hloop⟩ | hw
  · exact across hloop hsrc hdst
  · exact hpast hw

end Wire.Goes

theorem Line.goes_links {l : Line Token} {ids : List Id} {ts : List Target} {rings : List Ring}
    (hids : l.ids.Sublist ids) (hw : w ∈ links l.all) : w.Goes ids ts rings :=
  .onward (links_onward hw).2.1 ((links_onward hw).2.2.trans hids)

theorem linesWires_goes {ls : List (Line Token)} (hw : w ∈ linesWires ls next) :
    w.Goes (ls.flatMap Line.ids) [next] [] := by
  induction ls with
  | nil => simp [linesWires] at hw
  | cons l ls ih =>
    simp only [linesWires, mem_append, mem_cons] at hw
    rcases hw with hw | rfl | hw
    · exact Line.goes_links (sublist_append_left _ _) hw
    · refine .toward rfl (linesEntry_in ls next) l.node_mem_ids fun h => ?_
      exact .out (mem_append_left _ l.node_mem_ids) (by rw [h]; exact mem_singleton_self _)
    · exact (ih hw).enlarge (sublist_append_right _ _)

theorem Wire.Goes.fallsOn {body : Control Token} {ids : List Id}
    (h : w.Goes body.ids (rest.bodyEntry next :: x.targets) body.rings)
    (hinner : (body.ids ++ rest.bodyIds).Sublist ids) :
    w.Goes ids (next :: x.targets) (body.rings ++ rest.rings) := by
  refine h.widen ((sublist_append_left _ _).trans hinner) (subset_append_left _ _) fun t ht v hv hvt => ?_
  rcases mem_cons.1 ht with rfl | ht
  · exact .enlarge (.toward hvt (rest.bodyEntry_in next) hv fun h => .past (mem_append_left _ hv) h) hinner
  · exact .out (hinner.subset (mem_append_left _ hv)) (hvt ▸ mem_cons_of_mem _ ht)

theorem Wire.Goes.behind (body : Control Token) {ids : List Id}
    (h : w.Goes rest.ids (next :: (x.forget body.labels).targets) rest.rings)
    (hrest : rest.ids.Sublist ids) : w.Goes ids (next :: x.targets) (body.rings ++ rest.rings) := by
  rw [Exits.targets_forget] at h
  exact h.keep hrest (subset_append_right _ _) (.refl _)

mutual

/-- Every wire of structured control goes onward in it, out of it, or closes one of its loops. -/
theorem Control.wire_goes : ∀ (k : Control Token) (x : Exits) (next : Target), ∀ w ∈ k.wires x next,
    w.Goes k.ids (next :: x.targets) k.rings
  | .skip, _, _, w, hw => by simp [wires] at hw
  | .seq a b, x, next, w, hw => by
    rw [ids_seq, rings]
    rcases mem_append.1 hw with hw | hw
    · refine (a.wire_goes x _ w hw).widen (sublist_append_left _ _)
        (subset_append_left _ _) fun t ht v hv hvt => ?_
      rcases mem_cons.1 ht with rfl | ht
      · exact .toward hvt (b.entry_in next) hv fun h => .past (mem_append_left _ hv) h
      · exact .out (mem_append_left _ hv) (hvt ▸ mem_cons_of_mem _ ht)
    · have hgoes := b.wire_goes _ next w hw
      rw [Exits.targets_forget] at hgoes
      exact hgoes.keep (sublist_append_right _ _) (subset_append_right _ _) (.refl _)
  | .line l, x, next, w, hw => by
    rcases mem_append.1 hw with hw | hw
    · exact Line.goes_links (List.Sublist.refl _) hw
    · obtain rfl := mem_singleton.1 hw
      exact .out l.node_mem_ids mem_cons_self
  | .jump l j, x, next, w, hw => by
    simp only [wires, mem_append, mem_cons, Option.mem_toList, Option.map_eq_some_iff] at hw
    rcases hw with hw | rfl | ⟨t, ht, rfl⟩
    · exact Line.goes_links (List.Sublist.refl _) hw
    · exact .out l.node_mem_ids mem_cons_self
    · exact .out l.node_mem_ids (mem_cons_of_mem _ (Exits.resolve_mem ht))
  | .branch l a b, x, next, w, hw => by
    have hl : l.node.id ∈ l.ids ++ (a.ids ++ b.ids) := mem_append_left _ l.node_mem_ids
    have ha := (sublist_append_left a.ids b.ids).trans (sublist_append_right l.ids _)
    have hb := (sublist_append_right a.ids b.ids).trans (sublist_append_right l.ids _)
    rw [ids_branch, rings]
    simp only [wires, mem_append, mem_cons] at hw
    rcases hw with hw | rfl | rfl | hw | hw
    · exact Line.goes_links (sublist_append_left _ _) hw
    · exact .toward rfl ((a.entry_in next).mono (subset_append_left _ _)) l.node_mem_ids
        fun h => .past hl h
    · exact .toward rfl ((b.entry_in next).mono (subset_append_right _ _)) l.node_mem_ids
        fun h => .past hl h
    · exact (a.wire_goes x next w hw).keep ha (subset_append_left _ _) (.refl _)
    · have hgoes := b.wire_goes _ next w hw
      rw [Exits.targets_forget] at hgoes
      exact hgoes.keep hb (subset_append_right _ _) (.refl _)
  | .loop label l body update, x, next, w, hw => by
    let back : Target := ⟨l.first.id, some l.node.id⟩
    let ring : Ring := ⟨l.first.id, l.node.id, l.node.id :: (body.ids ++ update.flatMap Line.ids)⟩
    have hl : l.node.id ∈ l.ids ++ (body.ids ++ update.flatMap Line.ids) :=
      mem_append_left _ l.node_mem_ids
    have hbody := (sublist_append_left body.ids (update.flatMap Line.ids)).trans
      (sublist_append_right l.ids _)
    have hupdate := (sublist_append_right body.ids (update.flatMap Line.ids)).trans
      (sublist_append_right l.ids _)
    have hclose : ∀ {v : Wire} {ids : List Id} {ts : List Target}, v.src ∈ ring.members →
        (⟨v.dst, v.loop⟩ : Target) = back → v.Goes ids ts (ring :: body.rings) := fun hv h =>
      .back mem_cons_self hv (congrArg Target.node h) (congrArg Target.loop h)
    have honward : ∀ {v : Wire}, v.src ∈ body.ids →
        (⟨v.dst, v.loop⟩ : Target) = linesEntry update back →
        v.Goes (l.ids ++ (body.ids ++ update.flatMap Line.ids)) (next :: x.targets)
          (ring :: body.rings) := fun hv hvt =>
      .enlarge (.toward hvt (linesEntry_in update back) hv fun h =>
        hclose (mem_cons_of_mem _ (mem_append_left _ hv)) h) (sublist_append_right _ _)
    rw [ids_loop, rings]
    simp only [wires, mem_append, mem_cons] at hw
    rcases hw with hw | rfl | rfl | hw | hw
    · exact Line.goes_links (sublist_append_left _ _) hw
    · refine .toward rfl (((body.entry_in _).mono (subset_append_left _ _)).trans
        ((linesEntry_in update back).mono (subset_append_right _ _))) l.node_mem_ids fun h => ?_
      exact hclose mem_cons_self h
    · exact .out hl mem_cons_self
    · refine (body.wire_goes _ _ w hw).widen hbody (subset_cons_self _ _) fun t ht v hv hvt => ?_
      rcases Exits.of_mem_push ht with rfl | ht
      · exact honward hv hvt
      · exact .out (hbody.subset hv) (hvt ▸ ht)
    · refine (linesWires_goes hw).widen hupdate (nil_subset _) fun t ht v hv hvt => ?_
      rw [mem_singleton.1 ht] at hvt
      exact hclose (mem_cons_of_mem _ (mem_append_right _ hv)) hvt
  | .doLoop label body l, x, next, w, hw => by
    have hl : l.node.id ∈ body.ids ++ l.ids := mem_append_right _ l.node_mem_ids
    have honward : ∀ {v : Wire} {rings : List Ring}, v.src ∈ body.ids →
        (⟨v.dst, v.loop⟩ : Target) = l.first.target →
        v.Goes (body.ids ++ l.ids) (next :: x.targets) rings := fun {v} _ hv hvt => by
      have hdst : v.dst = l.first.id := congrArg Target.node hvt
      exact .across (congrArg Target.loop hvt) hv (hdst ▸ l.first_mem_ids)
    rw [ids_doLoop, rings]
    simp only [wires, mem_append, mem_cons, not_mem_nil, or_false] at hw
    rcases hw with hw | hw | rfl | rfl
    · refine (body.wire_goes _ _ w hw).widen (sublist_append_left _ _)
        (subset_cons_self _ _) fun t ht v hv hvt => ?_
      rcases Exits.of_mem_push ht with rfl | ht
      · exact honward hv hvt
      · exact .out (mem_append_left _ hv) (hvt ▸ ht)
    · exact Line.goes_links (sublist_append_right _ _) hw
    · exact .back mem_cons_self (mem_singleton_self _) rfl rfl
    · exact .out hl mem_cons_self
  | .switch s arms, x, next, w, hw => by
    have hs : s.node.id ∈ s.ids ++ arms.ids := mem_append_left _ s.node_mem_ids
    have hguards : arms.guardIds ⊆ arms.ids := arms.ids_eq ▸ subset_append_left _ _
    have hdefaults : arms.defaultIds ⊆ arms.ids :=
      arms.ids_eq ▸ fun i hi => mem_append_right _ (mem_append_left _ hi)
    rw [ids_switch, rings]
    simp only [wires, mem_append, mem_cons] at hw
    rcases hw with hw | rfl | rfl | hw
    · exact Line.goes_links (sublist_append_left _ _) hw
    · exact .toward rfl (((arms.guardEntry_in _).mono hguards).trans
        ((arms.missed_in next).mono hdefaults)) s.node_mem_ids fun h => .past hs h
    · exact .out hs mem_cons_self
    · rcases arms.wire_goes _ next _ w hw with hgoes | ⟨hsrc, hmissed⟩
      · exact hgoes.keep (sublist_append_right _ _) (.refl _) (Exits.push_subset .switch none)
      · refine .enlarge ?_ (sublist_append_right _ _)
        rw [arms.ids_eq]
        refine .toward hmissed ((arms.missed_in next).mono (subset_append_left _ _)) hsrc
          fun h => .past (mem_append_left _ hsrc) h
  | .labeled l body, x, next, w, hw => by
    exact (body.wire_goes _ next w hw).keep (.refl _) (.refl _) (Exits.push_subset .label (some l))

/-- Every wire of the cases of a switch does so, unless it leaves the last guard. -/
theorem Arms.wire_goes : ∀ (arms : Arms Token) (x : Exits) (next missed : Target),
    ∀ w ∈ arms.wires x next missed, w.Goes arms.ids (next :: x.targets) arms.rings ∨
      w.src ∈ arms.guardIds ∧ (⟨w.dst, w.loop⟩ : Target) = missed
  | .nil, _, _, _, w, hw => by simp [Arms.wires] at hw
  | .guard l body rest, x, next, missed, w, hw => by
    have hids := Arms.ids_guard l body rest
    have hguards : (Arms.guard l body rest).guardIds = l.ids ++ rest.guardIds := map_append
    have hinner : (body.ids ++ rest.bodyIds).Sublist (Arms.guard l body rest).ids := by
      rw [hids]
      exact (((sublist_append_right _ _).trans (sublist_append_right _ _)).trans (sublist_append_right _ _))
    have hrest : rest.ids.Sublist (Arms.guard l body rest).ids := by
      rw [hids, rest.ids_eq]
      refine (List.Sublist.append_left ?_ _).trans (sublist_append_right _ _)
      exact List.Sublist.append_left (sublist_append_right _ _) _
    simp only [Arms.wires, mem_append, mem_cons] at hw
    rw [Arms.rings]
    rcases hw with hw | rfl | rfl | hw | hw
    · exact .inl (Line.goes_links (hids ▸ sublist_append_left _ _) hw)
    · refine .inl ?_
      have hin := ((body.entry_in (rest.bodyEntry next)).mono (subset_append_left _ _)).trans
        ((rest.bodyEntry_in next).mono (subset_append_right _ _))
      refine .enlarge (.toward (a := l.ids) rfl hin l.node_mem_ids fun h =>
        .past (mem_append_left _ l.node_mem_ids) h) ?_
      rw [hids]
      exact List.Sublist.append_left ((sublist_append_right _ _).trans (sublist_append_right _ _)) _
    · rcases rest.guardEntry_in missed with ⟨hmem, hloop⟩ | h
      · refine .inl (.enlarge (.across hloop l.node_mem_ids hmem) ?_)
        rw [hids]
        exact List.Sublist.append_left (sublist_append_left _ _) _
      · exact .inr ⟨hguards ▸ mem_append_left _ l.node_mem_ids, h⟩
    · exact .inl ((body.wire_goes x _ w hw).fallsOn hinner)
    · rcases rest.wire_goes _ next missed w hw with hgoes | ⟨hsrc, hmissed⟩
      · exact .inl (hgoes.behind body hrest)
      · exact .inr ⟨hguards ▸ mem_append_right _ hsrc, hmissed⟩
  | .default n body rest, x, next, missed, w, hw => by
    have hids := Arms.ids_default n body rest
    have hinner : (body.ids ++ rest.bodyIds).Sublist (Arms.default n body rest).ids := by
      rw [hids]
      exact ((sublist_append_right _ _).cons _).trans (sublist_append_right _ _)
    have hn : ([n.id] ++ (body.ids ++ rest.bodyIds)).Sublist (Arms.default n body rest).ids := by
      rw [hids]
      exact ((sublist_append_right _ _).cons_cons _).trans (sublist_append_right _ _)
    have hrest : rest.ids.Sublist (Arms.default n body rest).ids := by
      rw [hids, rest.ids_eq]
      refine List.Sublist.append_left (List.Sublist.cons _ ?_) _
      exact List.Sublist.append_left (sublist_append_right _ _) _
    simp only [Arms.wires, mem_append, mem_cons] at hw
    rw [Arms.rings]
    rcases hw with rfl | hw | hw
    · have hin := ((body.entry_in (rest.bodyEntry next)).mono (subset_append_left _ _)).trans
        ((rest.bodyEntry_in next).mono (subset_append_right _ _))
      exact .inl (.enlarge (.toward (a := [n.id]) rfl hin (mem_singleton_self _) fun h =>
        .past (mem_append_left _ (mem_singleton_self _)) h) hn)
    · exact .inl ((body.wire_goes x _ w hw).fallsOn hinner)
    · rcases rest.wire_goes _ next missed w hw with hgoes | ⟨hsrc, hmissed⟩
      · exact .inl (hgoes.behind body hrest)
      · exact .inr ⟨hsrc, hmissed⟩

end

/-! ## Where wires end -/

/-- A loop whose nodes are among some ids. -/
structure Ring.Inside (r : Ring) (ids : List Id) : Prop where
  head : r.head ∈ ids
  test : r.test ∈ r.members
  members : r.members ⊆ ids

theorem Ring.Inside.mono {r : Ring} {ids ids' : List Id} (h : r.Inside ids) (hsub : ids ⊆ ids') :
    r.Inside ids' :=
  ⟨hsub h.head, h.test, fun _ hi => hsub (h.members hi)⟩

mutual

/-- A loop lies in its control. -/
theorem Control.rings_inside : ∀ (k : Control Token), ∀ r ∈ k.rings, r.Inside k.ids
  | .skip, r, hr | .line _, r, hr | .jump _ _, r, hr => by simp [rings] at hr
  | .seq a b, r, hr => by
    rw [ids_seq]
    rcases mem_append.1 hr with hr | hr
    · exact (a.rings_inside r hr).mono (subset_append_left _ _)
    · exact (b.rings_inside r hr).mono (subset_append_right _ _)
  | .branch t a b, r, hr => by
    rw [ids_branch]
    rcases mem_append.1 hr with hr | hr
    · exact (a.rings_inside r hr).mono fun i hi => by simp [hi]
    · exact (b.rings_inside r hr).mono fun i hi => by simp [hi]
  | .loop _ t body update, r, hr => by
    rw [ids_loop]
    rcases mem_cons.1 hr with rfl | hr
    · exact ⟨mem_append_left _ t.first_mem_ids, mem_cons_self, cons_subset.2
        ⟨mem_append_left _ t.node_mem_ids, subset_append_right _ _⟩⟩
    · exact (body.rings_inside r hr).mono fun i hi => by simp [hi]
  | .doLoop _ body t, r, hr => by
    rw [ids_doLoop]
    rcases mem_cons.1 hr with rfl | hr
    · refine ⟨?_, mem_cons_self, by simpa using .inr t.node_mem_ids⟩
      rcases body.entry_in t.first.target with ⟨h, -⟩ | h
      · exact mem_append_left _ h
      · simp only [h]
        exact mem_append_right _ t.first_mem_ids
    · exact (body.rings_inside r hr).mono (subset_append_left _ _)
  | .switch s arms, r, hr => by
    rw [ids_switch, arms.ids_eq]
    exact (arms.rings_inside r hr).mono fun i hi => by simp [hi]
  | .labeled _ body, r, hr => body.rings_inside r hr

theorem Arms.rings_inside : ∀ (arms : Arms Token), ∀ r ∈ arms.rings, r.Inside arms.bodyIds
  | .nil, r, hr => by simp [Arms.rings] at hr
  | .guard _ body rest, r, hr | .default _ body rest, r, hr => by
    rw [Arms.bodyIds, Arms.bodies, map_append]
    rcases mem_append.1 hr with hr | hr
    · exact (body.rings_inside r hr).mono (subset_append_left _ _)
    · exact (rest.rings_inside r hr).mono (subset_append_right _ _)

end

theorem Wire.Goes.ends {ids : List Id} {ts : List Target} {rings : List Ring} (h : w.Goes ids ts rings)
    (hrings : ∀ r ∈ rings, r.Inside ids) : w.src ∈ ids ∧ (w.dst ∈ ids ∨ ∃ t ∈ ts, w.dst = t.node) := by
  cases h with
  | onward _ order =>
    exact ⟨order.subset mem_cons_self, .inl (order.subset (by simp))⟩
  | out src target => exact ⟨src, .inr ⟨_, target, rfl⟩⟩
  | back mem src dst _ => exact ⟨(hrings _ mem).members src, .inl (dst ▸ (hrings _ mem).head)⟩

theorem Control.wire_ends {k : Control Token} (hw : w ∈ k.wires x next) :
    w.src ∈ k.ids ∧ (w.dst ∈ k.ids ∨ ∃ t ∈ next :: x.targets, w.dst = t.node) :=
  (k.wire_goes x next w hw).ends k.rings_inside

theorem Arms.bodyIds_subset (arms : Arms Token) : arms.bodyIds ⊆ arms.ids := by
  rw [arms.ids_eq]
  exact fun i hi => mem_append_right _ (mem_append_right _ hi)

theorem Arms.guardIds_subset (arms : Arms Token) : arms.guardIds ⊆ arms.ids := by
  rw [arms.ids_eq]
  exact subset_append_left _ _

theorem Arms.wire_ends {arms : Arms Token} {missed : Target} (hw : w ∈ arms.wires x next missed) :
    w.src ∈ arms.ids ∧ (w.dst ∈ arms.ids ∨ ∃ t ∈ missed :: next :: x.targets, w.dst = t.node) := by
  rcases arms.wire_goes x next missed w hw with h | ⟨hsrc, hmissed⟩
  · obtain ⟨hsrc, hdst⟩ := h.ends fun r hr => (arms.rings_inside r hr).mono arms.bodyIds_subset
    exact ⟨hsrc, hdst.imp_right fun ⟨t, ht, h⟩ => ⟨t, mem_cons_of_mem _ ht, h⟩⟩
  · exact ⟨arms.guardIds_subset hsrc, .inr ⟨missed, mem_cons_self, congrArg Target.node hmissed⟩⟩

/-- Past its guard, a case leads to the bodies, to what comes after the switch, or to the guards
that follow. -/
theorem Arms.case_dst {body : Control Token} {missed : Target}
    (hrest : ∀ {x : Exits}, w ∈ rest.wires x next missed →
      w.dst ∈ rest.guardIds ++ rest.bodyIds ∨ ∃ t ∈ missed :: next :: x.targets, w.dst = t.node)
    (hw : w.dst = (body.entry (rest.bodyEntry next)).node ∨ w ∈ body.wires x (rest.bodyEntry next) ∨
      w ∈ rest.wires (x.forget body.labels) next missed) :
    w.dst ∈ rest.guardIds ++ (body.ids ++ rest.bodyIds) ∨
    ∃ t ∈ missed :: next :: x.targets, w.dst = t.node := by
  have hpast : w.dst = (rest.bodyEntry next).node → w.dst ∈ rest.guardIds
      ++ (body.ids ++ rest.bodyIds) ∨ ∃ t ∈ missed :: next :: x.targets, w.dst = t.node := by
    intro hdst
    rcases rest.bodyEntry_in next with ⟨hin, -⟩ | heq
    · exact .inl (by simp [hdst, hin])
    · exact .inr ⟨next, by simp, by rw [hdst, heq]⟩
  rcases hw with hw | hw | hw
  · rcases body.entry_in (rest.bodyEntry next) with ⟨hin, -⟩ | heq
    · exact .inl (by simp [hw, hin])
    · exact hpast (by rw [hw, heq])
  · rcases (Control.wire_ends hw).2 with hin | ⟨t, ht, hdst⟩
    · exact .inl (by simp [hin])
    · rcases mem_cons.1 ht with rfl | ht
      · exact hpast hdst
      · exact .inr ⟨t, by simp [ht], hdst⟩
  · rcases hrest hw with hin | ⟨t, ht, hdst⟩
    · rcases mem_append.1 hin with hin | hin <;> simp [hin]
    · rw [Exits.targets_forget] at ht
      exact .inr ⟨t, ht, hdst⟩

/-- No wire of the cases of a switch leads to a default case. -/
theorem Arms.wire_dst : ∀ (arms : Arms Token) {x : Exits} {next missed : Target} {w : Wire},
    w ∈ arms.wires x next missed → w.dst ∈ arms.guardIds ++ arms.bodyIds ∨
      ∃ t ∈ missed :: next :: x.targets, w.dst = t.node
  | .nil, _, _, _, _, hw => by simp [Arms.wires] at hw
  | .guard t body rest, x, next, missed, w, hw => by
    have hguards : (Arms.guard t body rest).guardIds = t.ids ++ rest.guardIds := map_append
    have hbodies : (Arms.guard t body rest).bodyIds = body.ids ++ rest.bodyIds := map_append
    rw [hguards, hbodies, append_assoc]
    simp only [Arms.wires, mem_append (a := w), mem_cons (a := w)] at hw
    rcases hw with hw | rfl | rfl | hw
    · exact .inl (mem_append_left _ (Line.links_ends hw).2)
    · exact (Arms.case_dst rest.wire_dst (.inl rfl)).imp_left (mem_append_right _)
    · rcases rest.guardEntry_in missed with ⟨hin, -⟩ | heq
      · exact .inl (mem_append_right _ (mem_append_left _ hin))
      · exact .inr ⟨missed, mem_cons_self, congrArg Target.node heq⟩
    · exact (Arms.case_dst rest.wire_dst (.inr hw)).imp_left (mem_append_right _)
  | .default n body rest, x, next, missed, w, hw => by
    have hguards : (Arms.default n body rest).guardIds = rest.guardIds := rfl
    have hbodies : (Arms.default n body rest).bodyIds = body.ids ++ rest.bodyIds := map_append
    rw [hguards, hbodies]
    simp only [Arms.wires, mem_append (a := w), mem_cons (a := w)] at hw
    exact Arms.case_dst rest.wire_dst (hw.imp_left (congrArg Wire.dst))

end ProgramDependence
