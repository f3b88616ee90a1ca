import ProgramDependence.Proofs.DefUse

/-!
# Def-order, anti and output dependence are exact

A definition is ordered before the next ones: those at the end of a `QuietPath`, on which the
variable is neither defined nor used in between.  A use comes before the definitions at the end of a
clear path.  Two definitions that exclude each other and reach a common use are joined in the order
of the source.  The three searches differ in where they stop and in what they skip;
`laterEdges_exact` says that none of them finds too much or too little, and that what several of
them find is drawn once.
-/

namespace ProgramDependence

open List Variable

namespace DataDependence

variable {c : Cfg} {v w : Variable} {p : Program} {g : Graph} {raw : List Link} {m n : Node}
variable {u : Id} {ns : List Node}

/-! ## The next definitions -/

/-- A path of at least one edge, on which the variable is neither defined nor used in between. -/
inductive QuietPath (c : Cfg) (v : Variable) : Id → Id → Prop where
  | single {e : Edge} (takes : Takes c true e) : QuietPath c v e.src e.dst
  | cons {e : Edge} {u : Id} (takes : Takes c true e)
      (quiet : definesAt c v e.dst = false ∧ usesAt c v e.dst = false)
      (tail : QuietPath c v e.dst u) : QuietPath c v e.src u

theorem QuietPath.congr (h : v.identity = w.identity) {d : Id} (hpath : QuietPath c v d u) :
    QuietPath c w d u := by
  induction hpath with
  | single takes => exact .single takes
  | cons takes quiet _ ih =>
    rw [definesAt_congr h, usesAt_congr h] at quiet
    exact .cons takes quiet ih

theorem mem_flowOut_dst (hc : c.Coherent) {x y : Id} :
    y ∈ (flowOut c x).map (·.dst) ↔ ∃ e, Takes c true e ∧ e.src = x ∧ e.dst = y := by
  have htakes := fun e => takes_iff hc true (n := x) (e := e)
  simp only [Bool.true_or, and_true] at htakes
  simp only [mem_map, htakes, and_assoc]

/-- The nodes one step onward, as the search for the next definitions goes. -/
def quietNext (c : Cfg) (v : Variable) (x : Id) : List Id :=
  if definesAt c v x || usesAt c v x then [] else (flowOut c x).map (·.dst)

section

variable (hc : c.Coherent)

include hc

theorem mem_quietNext {x y : Id} :
    y ∈ quietNext c v x ↔ (definesAt c v x = false ∧ usesAt c v x = false) ∧
      ∃ e, Takes c true e ∧ e.src = x ∧ e.dst = y := by
  rw [← mem_flowOut_dst hc, ← Bool.or_eq_false_iff, quietNext]
  split <;> simp [*]

theorem orderReach_swept (d : Id) :
    Search.Swept (quietNext c v) [d] ((flowOut c d).map (·.dst)) (orderReach c v d) := by
  have hdomain : ∀ x, ∀ y ∈ quietNext c v x, y ∈ c.edges.map (·.dst) := by
    intro x y hy
    obtain ⟨-, e, he, -, rfl⟩ := (mem_quietNext hc).1 hy
    exact mem_map_of_mem he.mem
  exact Search.run_swept .queue hdomain (by simp) [d] _

/-- An edge and then steps onward make a quiet path. -/
theorem quietPath_of_steps {e : Edge} (he : Takes c true e)
    (h : Relation.ReflTransGen (fun x y => y ∈ quietNext c v x) e.dst u) : QuietPath c v e.src u := by
  generalize hx : e.dst = x at h
  induction h using Relation.ReflTransGen.head_induction_on generalizing e with
  | refl => exact hx ▸ .single he
  | head hstep _ ih =>
    obtain ⟨hquiet, f, hf, hsrc, hdst⟩ := (mem_quietNext hc).1 hstep
    refine .cons he (hx ▸ hquiet) ?_
    rw [hx, ← hsrc]
    exact ih hf hdst

/-- A quiet path only meets nodes that the search has found, and the definition, from where it
starts anew. -/
theorem QuietPath.found {d x : Id} (hpath : QuietPath c v x u)
    (hx : x = d ∨ x ∈ orderReach c v d ∧ definesAt c v x = false ∧ usesAt c v x = false) :
    u ∈ [d] ++ orderReach c v d := by
  have hswept := orderReach_swept (v := v) hc d
  have hstep : ∀ {e : Edge}, Takes c true e → e.src = d ∨ e.src ∈ orderReach c v d ∧
      definesAt c v e.src = false ∧ usesAt c v e.src = false → e.dst ∈ [d] ++ orderReach c v d := by
    intro e he hsrc
    rcases hsrc with hsrc | ⟨hsrc, hquiet⟩
    · exact hswept.starts_mem _ ((mem_flowOut_dst hc).2 ⟨e, he, hsrc, rfl⟩)
    · exact hswept.closed _ hsrc _ ((mem_quietNext hc).2 ⟨hquiet, e, he, rfl, rfl⟩)
  induction hpath with
  | single takes => exact hstep takes hx
  | cons takes quiet _ ih =>
    rcases mem_append.1 (hstep takes hx) with hdst | hdst
    · exact ih (.inl (mem_singleton.1 hdst))
    · exact ih (.inr ⟨hdst, quiet⟩)

/-- The search for the next definitions finds the ends of quiet paths, except for the definition
itself. -/
theorem mem_orderReach {d : Id} : u ∈ orderReach c v d ↔ u ≠ d ∧ QuietPath c v d u := by
  have hswept := orderReach_swept (v := v) hc d
  constructor
  · intro hu
    obtain ⟨x, hx, hreach⟩ := hswept.reached u hu
    obtain ⟨e, he, rfl, rfl⟩ := (mem_flowOut_dst hc).1 hx
    exact ⟨fun h => hswept.not_skipped u hu (mem_singleton.2 h), quietPath_of_steps hc he hreach⟩
  · rintro ⟨hne, hpath⟩
    exact (mem_append.1 (hpath.found hc (.inl rfl))).resolve_left fun h => hne (mem_singleton.1 h)

end

/-! ## Definitions that exclude each other -/

theorem mem_pairs {α : Type} {R : α → α → Prop} (hasymm : ∀ a b, R a b → ¬ R b a) {xs : List α}
    (h : xs.Pairwise R) {a b : α} : (a, b) ∈ pairs xs ↔ a ∈ xs ∧ b ∈ xs ∧ R a b := by
  induction h with
  | nil => simp [pairs]
  | @cons x xs hx _ ih =>
    simp only [pairs, mem_append, mem_map, Prod.mk.injEq, exists_eq_right_right, ih, mem_cons]
    constructor
    · rintro (⟨hb, rfl⟩ | ⟨ha, hb, hab⟩)
      · exact ⟨.inl rfl, .inr hb, hx b hb⟩
      · exact ⟨.inr ha, .inr hb, hab⟩
    · rintro ⟨rfl | ha, rfl | hb, hab⟩
      · exact absurd hab (hasymm _ _ hab)
      · exact .inl ⟨hb, rfl⟩
      · exact absurd hab (hasymm _ _ (hx a ha))
      · exact .inr ⟨ha, hb, hab⟩

/-- The order of the source: by line, and then by id. -/
def Before (p : Program) (m n : Node) : Prop :=
  m.line p < n.line p ∨ m.line p = n.line p ∧ m.id < n.id

theorem mem_pairs_sorted (hns : (ns.map (·.id)).Nodup) :
    (m, n) ∈ pairs (sortByTwo (Node.line p) (·.id) ns) ↔ m ∈ ns ∧ n ∈ ns ∧ Before p m n := by
  have hperm : (sortByTwo (Node.line p) (·.id) ns).Perm ns := perm_sortWith _ _
  have hids : (sortByTwo (Node.line p) (·.id) ns).Pairwise fun a b => a.id ≠ b.id :=
    pairwise_map.1 ((hperm.map _).nodup_iff.2 hns)
  rw [mem_pairs (R := Before p) (by unfold Before; grind)]
  · rw [hperm.mem_iff, hperm.mem_iff]
  · exact ((pairwise_sortByTwo _ _ ns).and hids).imp fun h => by unfold Before; grind

theorem exists_byVariable (hm : m ∈ ns) (hdef : m.defines v = true) :
    ∃ w, v.identity = w.identity ∧ (w, ns.filter (·.defines w)) ∈ byVariable ns := by
  have hfold : ∀ (vs known : List Variable), v.isIn known = true ∨ v.isIn vs = true →
      v.isIn (vs.foldl (fun vs v => if v.isIn vs then vs else vs ++ [v]) known) = true := by
    intro vs
    induction vs with
    | nil => simp [isIn]
    | cons w vs ih =>
      refine fun known h => ih _ ?_
      dsimp only
      split <;> simp only [isIn_iff] at * <;> grind
  obtain ⟨u, hu, huv⟩ := isIn_iff.1 hdef
  obtain ⟨w, hw, hvw⟩ := isIn_iff.1 (hfold (ns.flatMap (·.defs)) []
    (.inr (isIn_iff.2 ⟨u, mem_flatMap.2 ⟨m, hm, hu⟩, huv⟩)))
  exact ⟨w, hvw, mem_map_of_mem hw⟩

/-- Neither of two nodes leads to the other, along any edges. -/
def Exclusive (c : Cfg) (m n : Id) : Prop :=
  ¬ Relation.ReflTransGen (c.Arrow fun _ => true) m n ∧ ¬ Relation.ReflTransGen (c.Arrow fun _ => true) n m

theorem areExclusive_iff (hc : c.Coherent) {a b : Id} : areExclusive c a b = true ↔ Exclusive c a b := by
  simp [areExclusive, Exclusive, Cfg.mem_reachable_iff hc]

theorem mem_output (hc : c.Coherent) (hns : (ns.map (·.id)).Nodup) {known : List Link} {l : Link} :
    l ∈ output p c ns known ↔ ∃ w m n, (w, ns.filter (·.defines w)) ∈ byVariable ns ∧
      ((m ∈ ns ∧ m.defines w = true) ∧ (n ∈ ns ∧ n.defines w = true) ∧ Before p m n) ∧
      (Exclusive c m.id n.id ∧
      ∃ u ∈ reachedUses known m.id w, u ∈ reachedUses known n.id w) ∧ l = ⟨m.id, n.id, .output, w, none⟩ := by
  have hsorted : ∀ w m n, (m, n) ∈ pairs (sortByTwo (Node.line p) (·.id) (ns.filter (·.defines w)))
      ↔ (m ∈ ns ∧ m.defines w = true) ∧ (n ∈ ns ∧ n.defines w = true) ∧ Before p m n := by
    intro w m n
    rw [mem_pairs_sorted (hns.sublist (filter_sublist.map _)), mem_filter, mem_filter]
  simp only [output, mem_flatMap, mem_map, mem_filter, Bool.and_eq_true, areExclusive_iff hc,
    any_eq_true, contains_iff_mem]
  constructor
  · rintro ⟨⟨w, ns'⟩, hby, ⟨m, n⟩, ⟨hpair, hreach⟩, rfl⟩
    obtain ⟨w', hw', heq⟩ := mem_map.1 hby
    cases heq
    exact ⟨w, m, n, hby, (hsorted w m n).1 hpair, hreach, rfl⟩
  · rintro ⟨w, m, n, hby, hpair, hreach, rfl⟩
    exact ⟨_, hby, (m, n), ⟨(hsorted w m n).2 hpair, hreach⟩, rfl⟩

/-! ## What is found -/

/-- Dependences on a later definition: that of a definition and that of a use. -/
inductive Later where
  | order
  | anti

namespace Later

def sort : Later → DependenceSort
  | order => .defOrder
  | anti => .anti

/-- The variables at a node that the dependences start from. -/
def vars : Later → Node → List Variable
  | order => Node.defs
  | anti => Node.uses

def Path (c : Cfg) (v : Variable) : Later → Id → Id → Prop
  | order => QuietPath c v
  | anti => ClearPath c v true

theorem Path.congr (h : v.identity = w.identity) {k : Later} {d : Id} (hpath : k.Path c v d u) :
    k.Path c w d u := by
  cases k with
  | order => exact QuietPath.congr h hpath
  | anti => exact ClearPath.congr h hpath

end Later

theorem defines_congr (h : v.identity = w.identity) : m.defines v = m.defines w := by
  simp only [Node.defines, isIn, same_congr h]

section

variable (hc : c.Coherent) (h : Raw p g c raw)
include hc h

theorem Raw.mem_iff_origin (l : Link) : l ∈ raw ↔
    (∃ r ∈ definitions g, l ∈ (defUse c (regions c) r.1 r.2).found) ∨
    (∃ k : Later, ∃ m ∈ g.nodes, ∃ w ∈ k.vars m, ∃ u, (u ≠ m.id ∧ k.Path c w m.id u) ∧
      definesAt c w u = true ∧
      l = ⟨m.id, u, k.sort, w, none⟩) ∨
      l ∈ output p c (g.nodes.filter fun n => !n.defs.isEmpty) (allDefUses g c) := by
  rw [h.mem_iff, ← or_assoc (a := ∃ r ∈ definitions g, ∃ n ∈ _, _)]
  refine or_congr_right (or_congr_left ⟨?_, ?_⟩)
  · rintro (⟨⟨m, w⟩, hr, u, hu, hl⟩ | ⟨⟨m, w⟩, hr, u, hu, hne, hl⟩)
    · obtain ⟨hm, hw⟩ := mem_definitions.1 hr
      exact ⟨.order, m, hm, w, hw, u, (mem_orderReach hc).1 hu, hl⟩
    · obtain ⟨hm, hw⟩ := mem_usages.1 hr
      exact ⟨.anti, m, hm, w, hw, u, ⟨hne, (mem_clearReach hc fun _ => mem_flowOut_dst hc).1 hu⟩, hl⟩
  · rintro ⟨k, m, hm, w, hw, u, ⟨hne, hpath⟩, hl⟩
    cases k with
    | order => exact .inl ⟨(m, w), mem_definitions.2 ⟨hm, hw⟩, u, (mem_orderReach hc).2 ⟨hne, hpath⟩, hl⟩
    | anti =>
      exact .inr
        ⟨(m, w), mem_usages.2 ⟨hm, hw⟩, u, (mem_clearReach hc fun _ => mem_flowOut_dst hc).2 hpath, hne, hl⟩

theorem Raw.isDefUse_of_mem {l : Link} (hl : ∃ r ∈ definitions g, l ∈ (defUse c (regions c) r.1 r.2).found) :
    l.key.2.2.1.isDefUse = true := by
  obtain ⟨r, hr, hl⟩ := hl
  exact (justified_of_mem_defUse hc (h.defUse_fault r hr) hl).isDefUse

variable (hm : m ∈ g.nodes)
include hm

theorem mem_reachedUses (hdef : m.defines v = true) :
    u ∈ reachedUses (allDefUses g c) m.id v ↔ usesAt c v u = true ∧ ClearPath c v true m.id u := by
  simp only [reachedUses, mem_map, mem_filter, Bool.and_eq_true, decide_eq_true_eq, same_iff]
  constructor
  · rintro ⟨l, ⟨hl, ⟨hsrc, -⟩, hvar⟩, rfl⟩
    obtain ⟨⟨m', w⟩, hr, hl⟩ := mem_flatMap.1 hl
    have hjust : Justified c m' w l := justified_of_mem_defUse hc (h.defUse_fault (m', w) hr) hl
    rw [hjust.var_eq] at hvar
    rw [← hsrc, hjust.src_eq, usesAt_congr hvar.symm, clearPath_congr hvar.symm]
    exact ⟨hjust.uses, hjust.path⟩
  · rintro ⟨huses, hpath⟩
    obtain ⟨w, hw, hvar⟩ := isIn_iff.1 hdef
    have hr := mem_definitions.2 ⟨hm, hw⟩
    have hfault := h.defUse_fault (m, w) hr
    obtain ⟨l, hl, rfl⟩ :=
      exists_mem_defUse hc hfault ((usesAt_congr hvar u).symm.trans huses) (hpath.congr hvar)
    have hjust : Justified c m w l := justified_of_mem_defUse hc hfault hl
    exact ⟨l, ⟨mem_flatMap.2 ⟨_, hr, hl⟩, ⟨hjust.src_eq, hjust.isDefUse⟩, hjust.var_eq ▸ hvar.symm⟩, rfl⟩

variable (hg : g.Coherent)
include hg

/-- Order and anti dependences are found exactly. -/
theorem Raw.later_iff (k : Later) (hn : c.node? n.id = some n) :
    (∃ l ∈ raw, l.key = (m.id, n.id, k.sort, v.identity)) ↔
      m.id ≠ n.id ∧ v.isIn (k.vars m) = true ∧ n.defines v = true ∧ k.Path c v m.id n.id := by
  have hdef : ∀ w, definesAt c w n.id = n.defines w := fun w => by simp [definesAt, hn]
  constructor
  · rintro ⟨l, hl, hkey⟩
    rcases (h.mem_iff_origin hc l).1 hl with hl | ⟨k', m', hm', w, hw, u, ⟨hne, hpath⟩, hdefines, rfl⟩ | hl
    · have hsort := h.isDefUse_of_mem hc hl
      rw [hkey] at hsort
      cases k <;> cases hsort
    · simp only [Link.key, Prod.mk.injEq] at hkey
      obtain ⟨hsrc, rfl, hsort, hvar⟩ := hkey
      obtain rfl := inj_on_of_nodup_map hg.nodup_nodes hm' hm hsrc
      obtain rfl : k' = k := by
        cases k <;> cases k' <;> first | rfl | cases hsort
      rw [definesAt_congr hvar, hdef] at hdefines
      exact ⟨.symm hne, isIn_iff.2 ⟨w, hw, hvar.symm⟩, hdefines, hpath.congr hvar⟩
    · rw [Link.key, sort_of_mem_output hl] at hkey
      cases k <;> cases congrArg (·.2.2.1) hkey
  · rintro ⟨hne, hvars, hdefines, hpath⟩
    obtain ⟨w, hw, hvar⟩ := isIn_iff.1 hvars
    rw [← hdef, definesAt_congr hvar] at hdefines
    exact ⟨⟨m.id, n.id, k.sort, w, none⟩, (h.mem_iff_origin hc _).2 (.inr (.inl
      ⟨k, m, hm, w, hw, n.id, ⟨.symm hne, hpath.congr hvar⟩, hdefines, rfl⟩)), by simp [Link.key, hvar]⟩

/-- Output dependences are found exactly. -/
theorem Raw.output_iff (hn : n ∈ g.nodes) : (∃ l ∈ raw, l.key = (m.id, n.id, .output, v.identity)) ↔
      m.defines v = true ∧ n.defines v = true ∧ Before p m n ∧ Exclusive c m.id n.id ∧
      ∃ u, usesAt c v u = true ∧ ClearPath c v true m.id u ∧ ClearPath c v true n.id u := by
  have hns : ((g.nodes.filter fun n => !n.defs.isEmpty).map (·.id)).Nodup :=
    hg.nodup_nodes.sublist (filter_sublist.map _)
  constructor
  · rintro ⟨l, hl, hkey⟩
    rcases (h.mem_iff_origin hc l).1 hl with hl | ⟨k, _, _, _, _, _, _, _, rfl⟩ | hl
    · have hsort := h.isDefUse_of_mem hc hl
      rw [hkey] at hsort
      cases hsort
    · cases k <;> cases congrArg (·.2.2.1) hkey
    · obtain ⟨w, m', n', -, ⟨⟨hm', hmw⟩, ⟨hn', hnw⟩, hbefore⟩, ⟨hexclusive, u, hu, hu'⟩, rfl⟩ :=
        (mem_output hc hns).1 hl
      simp only [Link.key, Prod.mk.injEq] at hkey
      obtain ⟨hsrc, hdst, -, hvar⟩ := hkey
      obtain rfl := inj_on_of_nodup_map hg.nodup_nodes (mem_of_mem_filter hm') hm hsrc
      obtain rfl := inj_on_of_nodup_map hg.nodup_nodes (mem_of_mem_filter hn') hn hdst
      rw [mem_reachedUses hc h hm hmw, usesAt_congr hvar] at hu
      rw [mem_reachedUses hc h hn hnw] at hu'
      exact ⟨(defines_congr hvar).symm.trans hmw, (defines_congr hvar).symm.trans hnw, hbefore, hexclusive,
        u, hu.1, hu.2.congr hvar, hu'.2.congr hvar⟩
  · rintro ⟨hmv, hnv, hbefore, hexclusive, u, huses, hpath, hpath'⟩
    have hmem : ∀ {x : Node}, x ∈ g.nodes → x.defines v = true →
        x ∈ g.nodes.filter fun n => !n.defs.isEmpty := by
      intro x hx hdef
      obtain ⟨w, hw, -⟩ := isIn_iff.1 hdef
      exact mem_filter.2 ⟨hx, by simpa using ne_nil_of_mem hw⟩
    obtain ⟨w, hvar, hby⟩ := exists_byVariable (hmem hm hmv) hmv
    have hmw := (defines_congr hvar).symm.trans hmv
    have hnw := (defines_congr hvar).symm.trans hnv
    rw [usesAt_congr hvar] at huses
    have hu := (mem_reachedUses hc h hm hmw).2 ⟨huses, hpath.congr hvar⟩
    have hu' := (mem_reachedUses hc h hn hnw).2 ⟨huses, hpath'.congr hvar⟩
    exact ⟨⟨m.id, n.id, .output, w, none⟩, (h.mem_iff_origin hc _).2 (.inr (.inr ((mem_output hc hns).2
      ⟨w, m, n, hby, ⟨⟨hmem hm hmv, hmw⟩, ⟨hmem hn hnv, hnw⟩, hbefore⟩, ⟨hexclusive, u, hu, hu'⟩, rfl⟩))),
      by simp [Link.key, hvar]⟩

end

/-! ## The edges of a dependence graph -/

/-- The dependences of a sort between two nodes on a variable. -/
def edgesOn (g : Graph) (sort : DependenceSort) (v : Variable) (src dst : Id) : List Edge :=
  g.edges.filter fun e => e.src = src && e.dst = dst && e.dependenceSort? = some sort && e.var?.any (·.same v)

/-- There is one edge if a condition holds, and none otherwise. -/
def OneIff (es : List Edge) (condition : Prop) : Prop :=
  es.length ≤ 1 ∧ (es ≠ [] ↔ condition)

theorem oneIff_edgesOn {context : Context} {d : Pdg} (h : Pdg.Derived context c d)
    (hraw : Raw context.program (Pdg.nodesOf c) c raw) (s : DependenceSort) {src dst : Id}
    (hsrc : src ∈ d.nodeIds) (hdst : dst ∈ d.nodeIds) :
    OneIff (edgesOn d.toGraph s v src dst) (∃ l ∈ raw, l.key = (src, dst, s, v.identity)) := by
  have hids : d.nodeIds = (Pdg.nodesOf c).nodeIds := congrArg (List.map _) h.nodes_eq
  let k := (src, dst, s, v.identity)
  let test (j : Id × Id × EdgeLabel) : Bool :=
    let e : Edge := ⟨0, j.1, j.2.1, j.2.2⟩
    e.src = src && e.dst = dst && e.dependenceSort? = some s && e.var?.any (·.same v)
  have hjoints : (edgesOn d.toGraph s v src dst).map Edge.joint =
      ((links context.program (Pdg.nodesOf c) c).found.filter (·.key == k)).map Link.joint := by
    calc (edgesOn d.toGraph s v src dst).map Edge.joint
        = (d.edges.map Edge.joint).filter test := by rw [filter_map]; rfl
      _ = ((links context.program (Pdg.nodesOf c) c).found.map Link.joint).filter test :=
          joints_filter h (by simp [test, Edge.var?])
      _ = _ := by
          rw [filter_map]
          refine congrArg (List.map _) (filter_congr fun l _ => ?_)
          rw [Bool.eq_iff_iff]
          simp only [test, k, Function.comp_apply, Link.joint, Link.key, Edge.dependenceSort?, Edge.var?,
            Option.any_some, Bool.and_eq_true, decide_eq_true_eq, Option.some.injEq, same_iff, beq_iff_eq,
            Prod.mk.injEq, and_assoc]
          exact and_congr decide_eq_true_iff (and_congr decide_eq_true_iff Iff.rfl)
  have hlength := congrArg List.length hjoints
  rw [length_map, length_map, ← countP_eq_length_filter] at hlength
  have hcount := nodup_iff_count_le_one.1 hraw.nodup_keys k
  rw [List.count, countP_map] at hcount
  have hexists := hraw.exists_mem_found_iff k
  rw [← hids] at hexists
  refine ⟨by rw [hlength]; exact hcount, ?_⟩
  rw [← length_pos_iff_ne_nil, hlength]
  simpa [k, hsrc, hdst] using hexists

/-- **Def-order, anti and output dependence are exact.**  Each is drawn at most once, and if and
only if its ends define or use the variable and the paths between them are as it demands. -/
theorem laterEdges_exact {σ : Type} {context : Context} {d : Pdg} {p q : σ × Trail} (hc : c.Assembled)
    (hrun : ((Pdg.ofCfg context c).run p : Except Error Pdg × σ × Trail) = (.ok d, q)) (v : Variable) :
    (∀ m ∈ d.nodes, ∀ n ∈ c.nodes, n.id ∈ d.nodeIds → OneIff (edgesOn d.toGraph .defOrder v m.id n.id)
        (m.id ≠ n.id ∧ m.defines v = true ∧ n.defines v = true ∧ QuietPath c v m.id n.id) ∧
      OneIff (edgesOn d.toGraph .anti v m.id n.id)
        (m.id ≠ n.id ∧ m.usesVariable v = true ∧ n.defines v = true ∧ ClearPath c v true m.id n.id)) ∧
    ∀ m ∈ d.nodes, ∀ n ∈ d.nodes, OneIff (edgesOn d.toGraph .output v m.id n.id)
      (m.defines v = true ∧ n.defines v = true ∧ Before context.program m n ∧ Exclusive c m.id n.id ∧
        ∃ u, usesAt c v u = true ∧ ClearPath c v true m.id u ∧ ClearPath c v true n.id u) := by
  have hc := hc.coherent
  have hderived : Pdg.Derived context c d := (Tracked.ends_iff_of_run hrun).1 (Pdg.ends_ofCfg context c p)
  obtain ⟨raw, hraw⟩ := exists_raw hderived.complete
  have hg := (Pdg.growing_nodesOf c 0).1.coherent
  have hnodes : ∀ {m}, m ∈ d.nodes → m ∈ (Pdg.nodesOf c).nodes := fun h => hderived.nodes_eq ▸ h
  refine ⟨fun m hm n hn hnd => ?_, fun m hm n hn => ?_⟩
  · have hlater : ∀ k : Later, OneIff (edgesOn d.toGraph k.sort v m.id n.id)
        (m.id ≠ n.id ∧ v.isIn (k.vars m) = true ∧ n.defines v = true ∧ k.Path c v m.id n.id) := by
      intro k
      rw [← hraw.later_iff hc (hnodes hm) hg k (hc.node?_eq_some hn)]
      exact oneIff_edgesOn hderived hraw k.sort (mem_map_of_mem hm) hnd
    exact ⟨hlater .order, hlater .anti⟩
  · rw [← hraw.output_iff hc (hnodes hm) hg (hnodes hn)]
    exact oneIff_edgesOn hderived hraw .output (mem_map_of_mem hm) (mem_map_of_mem hn)

/-- The test of the counting loop reads the counter before the body writes it. -/
theorem countingLoop_laterEdges : countingLoop.Assembled ∧ ∃ d q,
    ((Pdg.ofCfg { program := {} } countingLoop).run ((), { next := 9 }) : Except Error Pdg × Unit × Trail) =
    (.ok d, q) ∧ (edgesOn d.toGraph .anti counter countingTest.id countingStep.id).length = 1 := by
  obtain ⟨d, q, hrun, hnodes⟩ := exists_pdg_countingLoop
  have hexact := (laterEdges_exact assembled_countingLoop hrun counter).1 countingTest (by simp [hnodes])
    countingStep (.tail _ (.tail _ (.tail _ (.head _)))) (mem_map_of_mem (by simp [hnodes]))
  have hpath : ClearPath countingLoop counter true countingTest.id countingStep.id :=
    .single (e := ⟨6, 3, 4, .flow .true none⟩) ⟨by decide, rfl, by simp⟩
  have hne := hexact.2.2.2 ⟨by decide, by decide, by decide, hpath⟩
  exact ⟨assembled_countingLoop, d, q, hrun, Nat.le_antisymm hexact.2.1 (length_pos_iff_ne_nil.2 hne)⟩

end DataDependence

end ProgramDependence
