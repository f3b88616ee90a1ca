import ProgramDependence.Proofs.Built

/-!
# The edges that leave a node

`Cfg.Shaped`: how many edges leave a node of a flow graph, and of which sorts, depends on its kind
alone. A node that decides something has one true and one false edge, a node that jumps has a true
edge to the target and perhaps a fall-through edge past it, and all others have one edge, except the
exit.

The plan of a unit gives every node but the exit one `Way`, and a graph that realizes the plan has
the wires of the ways, apart from fall-through wires beside a true one.
-/

namespace ProgramDependence

open List Control NodeSort

open Lowering
variable {d : Departure} {ws : List Wire}

/-! ## Jumps that find no target -/

/-- Whether control leaves by a jump without a target. -/
def Way.isLost : Way → Bool
  | .jump _ none _ => true
  | _ => false

/-- The nodes that are left by a jump without a target. -/
def lostNodes (ds : List Departure) : List Token :=
  (ds.filter (·.way.isLost)).map (·.node)

@[simp] theorem lostNodes_append (a b : List Departure) :
    lostNodes (a ++ b) = lostNodes a ++ lostNodes b := by
  simp [lostNodes]

theorem lostNodes_cons (hd : d.way.isLost = false) (ds : List Departure) :
    lostNodes (d :: ds) = lostNodes ds := by
  simp [lostNodes, hd]

theorem lostNodes_linkWays (ts : List Token) : lostNodes (linkWays ts) = [] := by
  induction ts with
  | nil => rfl
  | cons a ts ih =>
    cases ts with
    | nil => rfl
    | cons b ts => rw [linkWays, lostNodes_cons rfl, ih]

@[simp] theorem Line.lostNodes_ways (l : Line Token) (way : Way) :
    lostNodes (l.ways way) = if way.isLost then [l.node] else [] := by
  rw [Line.ways, lostNodes_append, lostNodes_linkWays]
  cases h : way.isLost <;> simp [lostNodes, h]

theorem lostNodes_linesWays (ls : List (Line Token)) (next : Target) :
    lostNodes (linesWays ls next) = [] := by
  induction ls with
  | nil => rfl
  | cons l ls ih =>
    rw [linesWays, lostNodes_append, ih, Line.lostNodes_ways]
    rfl

/-- A jump finds a target just where it leads somewhere. -/
theorem finds_eq (x : Exits) (j : Jump) : finds (x.frames.map Frame.shape) j = (x.resolve j).isSome := by
  cases j with
  | breakTo l =>
    rw [finds, Exits.resolve, Option.isSome_map, any_map, Bool.eq_iff_iff, find?_isSome, any_eq_true]
    rfl
  | continueTo l =>
    have hcomp : takesContinue l ∘ Frame.shape = fun f => takesContinue l f.shape := rfl
    rw [finds, Exits.resolve, find?_map, hcomp]
    cases x.frames.find? fun f => takesContinue l f.shape with
    | none => rfl
    | some f => by_cases h : f.kind = .loop <;> simp [h, Frame.shape]
  | returning => rfl
  | throwing => rfl

mutual

/-- The nodes that are left by a jump without a target are the jumps that find none. -/
theorem Control.lostNodes_ways : ∀ (k : Control Token) (x : Exits) (next : Target),
    lostNodes (k.ways x next) = strays k (x.frames.map Frame.shape)
  | .skip, _, _ => rfl
  | .seq a b, x, next => by
    rw [ways, lostNodes_append, a.lostNodes_ways, b.lostNodes_ways, shapes_forget, strays]
  | .line l, x, next => l.lostNodes_ways _
  | .jump l j, x, next => by
    rw [ways, Line.lostNodes_ways, strays, finds_eq]
    cases x.resolve j <;> rfl
  | .branch t a b, x, next => by
    rw [ways, lostNodes_append, lostNodes_append, Line.lostNodes_ways, a.lostNodes_ways,
      b.lostNodes_ways, shapes_forget, strays]
    rfl
  | .loop label t body update, x, next => by
    simp only [ways, lostNodes_append, Line.lostNodes_ways, body.lostNodes_ways,
      lostNodes_linesWays, strays, append_nil]
    rfl
  | .doLoop label body t, x, next => by
    simp only [ways, lostNodes_append, Line.lostNodes_ways, body.lostNodes_ways, strays]
    exact append_nil _
  | .switch s arms, x, next => by
    rw [ways, lostNodes_append, Line.lostNodes_ways, arms.lostNodes_ways, strays]
    rfl
  | .labeled l body, x, next => by
    rw [ways, body.lostNodes_ways, strays]
    rfl

theorem Arms.lostNodes_ways : ∀ (arms : Arms Token) (x : Exits) (next missed : Target),
    lostNodes (arms.ways x next missed) = armsStrays arms (x.frames.map Frame.shape)
  | .nil, _, _, _ => rfl
  | .guard t body rest, x, next, missed => by
    rw [Arms.ways, lostNodes_append, lostNodes_append, Line.lostNodes_ways, body.lostNodes_ways,
      rest.lostNodes_ways, shapes_forget, armsStrays]
    rfl
  | .default n body rest, x, next, missed => by
    rw [Arms.ways, lostNodes_cons rfl, lostNodes_append, body.lostNodes_ways, rest.lostNodes_ways,
      shapes_forget, armsStrays]

end

mutual

theorem strays_map {α β : Type} (f : α → β) : ∀ (k : Control α) (ts : List JumpTarget),
    strays (k.map f) ts = (strays k ts).map f
  | .skip, _ | .line _, _ => rfl
  | .jump l j, ts => by
    simp only [Control.map, strays]
    split <;> rfl
  | .seq a b, ts | .branch _ a b, ts => by
    simp only [Control.map, strays, a.labels_map f, strays_map f a, strays_map f b, map_append]
  | .loop _ _ body _, ts | .doLoop _ body _, ts | .labeled _ body, ts => strays_map f body _
  | .switch _ arms, ts => armsStrays_map f arms _

theorem armsStrays_map {α β : Type} (f : α → β) : ∀ (arms : Arms α) (ts : List JumpTarget),
    armsStrays (arms.map f) ts = (armsStrays arms ts).map f
  | .nil, _ => rfl
  | .guard _ body rest, ts | .default _ body rest, ts => by
    simp only [Arms.map, armsStrays, body.labels_map f, strays_map f body, armsStrays_map f rest, map_append]

end

/-! ## The ways of a plan -/

namespace Plan

/-- The ways from a node through the parameters to what comes after them. -/
def preludeWays : Token → List Token → Target → List Departure
  | t, [], next => [⟨t, .onward next⟩]
  | t, t' :: ts, next => ⟨t, .parameter t'.target⟩ :: preludeWays t' ts next

/-- The ways of all nodes but the exit. -/
def ways (u : Plan) : List Departure :=
  preludeWays u.entry u.formals (u.body.entry u.last) ++
    (u.body.ways u.exits u.last ++ u.result.toList.map fun t => ⟨t, .onward u.exit.target⟩)

variable {u : Plan}

theorem prelude_ways (t : Token) (ts : List Token) (next : Target) :
    departures (preludeWays t ts next) = prelude t ts next := by
  induction ts generalizing t with
  | nil => rfl
  | cons t' ts ih =>
    rw [preludeWays, departures_cons, ih]
    rfl

theorem nodes_preludeWays (t : Token) (ts : List Token) (next : Target) :
    (preludeWays t ts next).map (·.node) = t :: ts := by
  induction ts generalizing t with
  | nil => rfl
  | cons t' ts ih => rw [preludeWays, map_cons, ih]

theorem lostNodes_preludeWays (t : Token) (ts : List Token) (next : Target) :
    lostNodes (preludeWays t ts next) = [] := by
  induction ts generalizing t with
  | nil => rfl
  | cons t' ts ih => rw [preludeWays, lostNodes_cons rfl, ih]

theorem wires_ways (u : Plan) : departures u.ways = u.wires := by
  rw [ways, departures_append, departures_append, prelude_ways, u.body.wires_ways, wires]
  cases u.result <;> rfl

theorem nodes_ways (u : Plan) : (u.ways.map (·.node) ++ [u.exit]).Perm u.nodes := by
  have hresult : (u.result.toList.map fun t => Departure.mk t (.onward u.exit.target)).map (·.node) =
      u.result.toList := by
    rw [map_map]
    exact map_id _
  rw [ways, map_append, map_append, nodes_preludeWays, hresult, nodes, inner]
  have hbody := ((u.body.nodes_ways u.exits u.last).append_right u.result.toList).append_left u.formals
  simpa using (hbody.append_right [u.exit]).cons u.entry

theorem lostNodes_ways (u : Plan) : lostNodes u.ways = strays u.body [] := by
  have hresult : lostNodes (u.result.toList.map fun t => ⟨t, .onward u.exit.target⟩) = [] := by
    cases u.result <;> rfl
  rw [ways, lostNodes_append, lostNodes_append, lostNodes_preludeWays, u.body.lostNodes_ways, hresult,
    append_nil]
  rfl

/-- Every node of a plan is left in a way that fits its kind, except the exit. -/
structure Fits (u : Plan) : Prop where
  ways : ∀ d ∈ u.ways, d.Fits
  entry : u.entry.label.sort.isEntry = true
  exit : u.exit.label.sort.isExit = true

theorem fits_preludeWays {t : Token} {ts : List Token} {next : Target}
    (hts : ∀ n ∈ t :: ts, n.label.sort.passes = true) : ∀ d ∈ preludeWays t ts next, d.Fits := by
  induction ts generalizing t with
  | nil =>
    intro d hd
    rw [mem_singleton.1 hd]
    exact hts t mem_cons_self
  | cons t' ts ih =>
    rw [forall_mem_cons] at hts
    exact forall_mem_cons.2 ⟨hts.1, ih hts.2⟩

theorem Fits.of_parts (hentry : u.entry.label.sort.isEntry = true) (hexit : u.exit.label.sort.isExit = true)
    (hformals : ∀ t ∈ u.formals, t.label.sort.isParameter = true)
    (hresult : ∀ t ∈ u.result, t.label.sort.isParameter = true)
    (hbody : ∀ d ∈ u.body.ways u.exits u.last, d.Fits) : u.Fits := by
  have hentry' : u.entry.label.sort.passes = true := by
    cases h : u.entry.label.sort <;> simp_all [isEntry, passes, forks,
      jumps, isExit]
  have hparameter : ∀ t : Token, t.label.sort.isParameter = true → t.label.sort.passes = true := by
    intro t ht
    cases h : t.label.sort <;> simp_all [isParameter, passes, forks,
      jumps, isExit]
  refine ⟨fun d hd => ?_, hentry, hexit⟩
  rw [Plan.ways, mem_append, mem_append] at hd
  rcases hd with hd | hd | hd
  · refine fits_preludeWays (forall_mem_cons.2 ⟨hentry', fun t ht => ?_⟩) d hd
    exact hparameter t (hformals t ht)
  · exact hbody d hd
  · obtain ⟨t, ht, rfl⟩ := mem_map.1 hd
    exact hparameter t (hresult t (Option.mem_toList.1 ht))

theorem OfMethod.plan_fits {scope : Scope} {r : MethodRef} {m : Method} {sort : ScopeSort}
    {element : Element} (h : u.OfMethod scope r m) (hentry : u.entry.label = ⟨.entry sort, element⟩)
    (hexit : u.exit.label = ⟨.exit sort, element⟩) : u.Fits := by
  refine .of_parts (by rw [hentry]; rfl) (by rw [hexit]; rfl) (fun t ht => ?_) (fun t ht => ?_)
    (h.mirrors.fits _ _)
  · have hmem : t.label ∈ u.formals.map Token.label := mem_map_of_mem ht
    rw [h.formals] at hmem
    obtain ⟨v, -, heq⟩ := mem_map.1 hmem
    rw [← heq]
    rfl
  · have hmem : t.label ∈ u.result.toList.map Token.label := mem_map_of_mem (Option.mem_toList.2 ht)
    rw [h.result, Method.returned] at hmem
    split at hmem
    · cases hmem
    · rw [mem_singleton.1 hmem]
      rfl

theorem OfField.plan_fits {sort : ScopeSort} {element : Element} (h : u.OfField)
    (hentry : u.entry.label = ⟨.entry sort, element⟩) (hexit : u.exit.label = ⟨.exit sort, element⟩) :
    u.Fits := by
  refine .of_parts (by rw [hentry]; rfl) (by rw [hexit]; rfl) (fun t ht => ?_) (fun t ht => ?_)
    (h.fits _ _)
  · rw [h.formals] at ht
    cases ht
  · rw [h.result] at ht
    cases ht

end Plan

/-! ## The wires of a node -/

theorem Way.src_eq {src : Id} {way : Way} {w : Wire} (hw : w ∈ way.wires src) : w.src = src := by
  cases way with
  | onward dst | parameter dst =>
    rw [mem_singleton.1 hw]
    rfl
  | fork yes no =>
    rcases mem_cons.1 hw with rfl | hw
    · rfl
    · rw [mem_singleton.1 hw]
      rfl
  | jump j dst next =>
    rcases mem_cons.1 hw with rfl | hw
    · rfl
    · obtain ⟨t, -, rfl⟩ := Option.map_eq_some_iff.1 (Option.mem_toList.1 hw)
      rfl

/-- The wires that leave a node are those of its way. -/
theorem filter_departures {ds : List Departure} (hnodup : (ds.map (·.node.id)).Nodup)
    (hd : d ∈ ds) : (departures ds).filter (·.src = d.node.id) = d.way.wires d.node.id := by
  have hothers : ∀ ds' : List Departure, d.node.id ∉ ds'.map (·.node.id) →
      (departures ds').filter (·.src = d.node.id) = [] := by
    intro ds' hd'
    rw [filter_eq_nil_iff]
    intro w hw hsrc
    obtain ⟨d', hmem, hw'⟩ := mem_flatMap.1 hw
    exact hd' (mem_map.2 ⟨d', hmem, (Way.src_eq hw').symm.trans (of_decide_eq_true hsrc)⟩)
  induction ds with
  | nil => cases hd
  | cons d' ds ih =>
    rw [map_cons, nodup_cons] at hnodup
    rw [departures_cons, filter_append]
    rcases mem_cons.1 hd with rfl | hd
    · rw [hothers ds hnodup.1, append_nil, filter_eq_self]
      exact fun w hw => decide_eq_true (Way.src_eq hw)
    · have hne : d.node.id ∉ [d'].map (·.node.id) := fun h => by
        rw [map_singleton, mem_singleton] at h
        exact hnodup.1 (h ▸ mem_map_of_mem hd)
      have hnone := hothers [d'] hne
      rw [departures_cons, departures_nil, append_nil] at hnone
      rw [hnone, nil_append, ih hnodup.2 hd]

/-- Which sorts of edges leave a node in a way. -/
def Way.Shows : Way → List FlowSort → Prop
  | .onward _, sorts => sorts = [.true]
  | .parameter _, sorts => sorts = [.parameter]
  | .fork _ _, sorts => sorts.Perm [.true, .false]
  | .jump _ none _, sorts => sorts = [.fallThrough]
  | .jump _ (some _) _, sorts => sorts.Perm [.true] ∨ sorts.Perm [.true, .fallThrough]

theorem Attached.perm_of_not_fall {planned : List Wire} (h : Attached [] ws planned)
    (hnodup : planned.Nodup) (hfall : ∀ w ∈ planned, w.sort ≠ .fallThrough) : ws.Perm planned := by
  obtain ⟨_, rfl, hsub, hall⟩ := h
  refine hsub.antisymm (subperm_of_subset hnodup fun w hw => ?_)
  exact (hall w hw).elim id fun hskip => absurd hskip.1 (hfall w hw)

/-- What is drawn of the wires of a jump: the one to the target, and perhaps the one past it. -/
theorem Attached.perm_of_jump {fall jump : Wire} (h : Attached [] ws [fall, jump])
    (hfall : fall.sort = .fallThrough) (hjump : jump.sort ≠ .fallThrough) : ws.Perm [jump] ∨
    ws.Perm [jump, fall] := by
  obtain ⟨_, rfl, hsub, hall⟩ := h
  have hne : fall ≠ jump := fun h => hjump (h ▸ hfall)
  have hnodup : [fall, jump].Nodup := by simp [hne]
  have hmem : jump ∈ ws := (hall jump (by simp)).elim id fun hskip => absurd hskip.1 hjump
  by_cases hpast : fall ∈ ws
  · right
    have hall' : [fall, jump] ⊆ ws := by simp [hpast, hmem]
    exact (hsub.antisymm (subperm_of_subset hnodup hall')).trans (.swap _ _ _)
  · left
    have hone : ws ⊆ [jump] := fun w hw => by
      rcases mem_cons.1 (hsub.subset hw) with rfl | hw'
      · exact absurd hw hpast
      · exact hw'
    have hdrawn : ws.Nodup := by
      obtain ⟨l, hperm, hsublist⟩ := hsub
      exact hperm.nodup_iff.1 (hnodup.sublist hsublist)
    refine (subperm_of_subset hdrawn hone).antisymm (subperm_of_subset (by simp) ?_)
    simp [hmem]

theorem Way.shows_of_attached (src : Id) {way : Way} (h : Attached [] ws (way.wires src)) :
    way.Shows (ws.map (·.sort)) := by
  cases way with
  | onward dst | parameter dst =>
    have hperm := h.perm_of_not_fall (by simp [Way.wires]) (by simp [Way.wires, Target.wire])
    exact perm_singleton.1 (hperm.map _)
  | fork yes no =>
    have hperm := h.perm_of_not_fall (by simp [Way.wires, Target.wire]) (by simp [Way.wires, Target.wire])
    exact hperm.map _
  | jump j dst next =>
    cases dst with
    | none =>
      obtain ⟨_, rfl, hsub, hall⟩ := h
      have hsome : ws ≠ [] := by
        rcases hall _ mem_cons_self with hmem | ⟨-, x, hx, -⟩
        · exact ne_nil_of_mem hmem
        · exact ne_nil_of_mem hx
      have hlength : 1 ≤ ws.length := length_pos_iff.2 hsome
      have hperm : ws.Perm [next.wire src .fallThrough] := hsub.perm_of_length_le hlength
      exact perm_singleton.1 (hperm.map _)
    | some t =>
      refine (Attached.perm_of_jump h rfl (by simp [Target.wire])).imp ?_ ?_
      · exact fun hperm => hperm.map _
      · exact fun hperm => hperm.map _

/-! ## Flow graphs -/

namespace Cfg

/-- The sorts of the edges that leave a node. -/
def sortsOut (c : Cfg) (id : Id) : List (Option FlowSort) :=
  (c.edgesOutOf id).map (·.flowSort?)

/-- Whether a node is left by a jump to its target, and perhaps past it. -/
def Jumps (c : Cfg) (id : Id) : Prop :=
  (c.sortsOut id).Perm [some .true] ∨ (c.sortsOut id).Perm [some .true, some .fallThrough]

/-- How many edges leave a node, and of which sorts. -/
structure Shaped (c : Cfg) : Prop where
  forks : ∀ n ∈ c.nodes, n.sort.forks = true → (c.sortsOut n.id).Perm [some .true, some .false]
  leaves : ∀ n ∈ c.nodes, n.sort = .statement .returnJump ∨ n.sort = .statement .throwJump → c.Jumps n.id
  jumps : ∀ n ∈ c.nodes, n.sort = .statement .breakJump ∨ n.sort = .statement .continueJump →
    c.Jumps n.id ∨ c.sortsOut n.id = [some .fallThrough] ∧ ∃ t ∈ c.unresolved, n.element = .tree t
  apart : ∀ e ∈ c.edges, ∀ e' ∈ c.edges, e.src = e'.src → e.dst = e'.dst →
    e.flowSort? = some .fallThrough → e'.flowSort? = some .fallThrough
  exit : c.sortsOut c.exit.id = []
  others : ∀ n ∈ c.nodes, n.id ≠ c.exit.id → n.sort.forks = false → n.sort.jumps = false →
    c.sortsOut n.id = [some .true] ∨ c.sortsOut n.id = [some .parameter]
  reports : ((c.nodes.filter fun n => n.sort.jumps && !(c.sortsOut n.id).contains (some .true)).map
    (·.element)).Perm (lostJumps c.unresolved)

namespace Realizes

variable {c : Cfg} {u : Plan}
variable {n : Node}

section

variable (h : c.Realizes u)
include h

theorem flowSort?_eq {e : Edge} (he : e ∈ c.edges) : e.flowSort? = some e.wire.sort := by
  obtain ⟨next, hfit⟩ := h.fit
  have hflow := hfit.flow e he
  obtain ⟨id, src, dst, label⟩ := e
  cases label with
  | flow sort loop => rfl
  | _ => cases hflow

theorem sortsOut_eq (id : Id) : c.sortsOut id = ((c.wires.filter (·.src = id)).map (·.sort)).map some := by
  have hwires : c.wires.filter (·.src = id) = (c.edgesOutOf id).map Edge.wire := by
    rw [h.coherent.edgesOutOf_eq, Graph.wires, filter_map]
    rfl
  rw [hwires, map_map, map_map]
  exact map_congr_left fun e he => h.flowSort?_eq (h.coherent.mem_edgesOutOf.1 he).1

theorem nodup_ways : (u.ways.map (·.node.id)).Nodup := by
  have hnodup := ((u.nodes_ways.map (·.id)).nodup_iff).2 h.nodup
  rw [map_append, map_map] at hnodup
  exact hnodup.of_append_left

/-- The edges that leave a node are those of its way, as far as they are drawn. -/
theorem way_shows (hd : d ∈ u.ways) :
    ∃ sorts, c.sortsOut d.node.id = sorts.map some ∧ d.way.Shows sorts := by
  refine ⟨_, h.sortsOut_eq _, Way.shows_of_attached d.node.id ?_⟩
  obtain ⟨added, hwires, hsub, hall⟩ := h.wires
  rw [← filter_departures h.nodup_ways hd, u.wires_ways, hwires]
  refine ⟨_, (nil_append _).symm, hsub.filter _, fun w hw => ?_⟩
  obtain ⟨hmem, hsrc⟩ := mem_filter.1 hw
  refine (hall w hmem).imp (fun hw => mem_filter.2 ⟨hw, hsrc⟩) ?_
  rintro ⟨hfall, x, hx, hsrc', hdst⟩
  refine ⟨hfall, x, mem_filter.2 ⟨hwires ▸ hx, ?_⟩, hsrc', hdst⟩
  exact decide_eq_true (hsrc'.trans (of_decide_eq_true hsrc))

theorem exists_way (hn : n ∈ c.nodes) : (∃ d ∈ u.ways, d.node = n.token) ∨ n.token = u.exit := by
  have hmem : n.token ∈ u.ways.map (·.node) ++ [u.exit] :=
    u.nodes_ways.mem_iff.2 (h.tokens_perm.mem_iff.1 (mem_map_of_mem hn))
  rcases mem_append.1 hmem with hmem | hmem
  · obtain ⟨d, hd, heq⟩ := mem_map.1 hmem
    exact .inl ⟨d, hd, heq⟩
  · exact .inr (mem_singleton.1 hmem)

theorem isLost_iff (hd : d ∈ u.ways) (hfits : d.Fits) :
    (d.node.label.sort.jumps && !(c.sortsOut d.node.id).contains (some .true)) = d.way.isLost := by
  obtain ⟨sorts, hsorts, hshows⟩ := h.way_shows hd
  have htrue : (c.sortsOut d.node.id).contains (some .true) = sorts.contains .true := by
    rw [hsorts]
    simp
  rw [htrue]
  cases hjumps : d.node.label.sort.jumps with
  | false =>
    cases hway : d.way with
    | jump j dst next =>
      rw [Departure.Fits, hway] at hfits
      rw [hfits.1, j.jumps_sort] at hjumps
      cases hjumps
    | _ => rfl
  | true =>
    obtain ⟨j, dst, next, hway⟩ := Way.Fits.jump hfits hjumps
    rw [hway] at hshows ⊢
    cases dst with
    | none =>
      rw [show sorts = [.fallThrough] from hshows]
      rfl
    | some t =>
      have hmem : FlowSort.true ∈ sorts := by
        rcases hshows with hperm | hperm
        · exact hperm.mem_iff.2 (by simp)
        · exact hperm.mem_iff.2 (by simp)
      simp [hmem, Way.isLost]

/-- The nodes that jump nowhere are those that are reported. -/
theorem lost_perm (hfits : u.Fits) :
    ((c.nodes.filter fun n => n.sort.jumps && !(c.sortsOut n.id).contains (some .true)).map
      (·.element)).Perm (lostJumps c.unresolved) := by
  let lost : Token → Bool := fun t => t.label.sort.jumps && !(c.sortsOut t.id).contains (some .true)
  have hexit : lost u.exit = false := by
    rw [Bool.eq_false_iff]
    intro hlost
    have hsort := isExit_of_jumps (Bool.and_eq_true_iff.1 hlost).1
    rw [hfits.exit] at hsort
    cases hsort
  have hways : (u.ways.map (·.node)).filter lost = lostNodes u.ways := by
    rw [filter_map]
    exact congrArg _ (filter_congr fun d hd => h.isLost_iff hd (hfits.ways d hd))
  have htokens : (c.tokens.filter lost).Perm (lostNodes u.ways) := by
    refine ((h.tokens_perm.trans u.nodes_ways.symm).filter lost).trans ?_
    rw [filter_append, hways, filter_cons_of_neg (by simp [hexit]), filter_nil, append_nil]
  rw [h.reports, ← u.lostNodes_ways]
  have helements := htokens.map fun t => t.label.element
  rw [Graph.tokens, filter_map, map_map] at helements
  exact helements

theorem mem_unresolved (hd : d ∈ u.ways) (hlost : d.way.isLost = true) :
    ∃ t ∈ c.unresolved, d.node.label.element = .tree t := by
  have hmem : d.node.label.element ∈ elementsOf (lostNodes u.ways) :=
    mem_map_of_mem (mem_map_of_mem (mem_filter.2 ⟨hd, hlost⟩))
  rw [u.lostNodes_ways, ← h.reports] at hmem
  obtain ⟨t, ht, heq⟩ := mem_map.1 hmem
  exact ⟨t, (mem_filter.1 ht).1, heq.symm⟩

theorem sortsOut_exit : c.sortsOut c.exit.id = [] := by
  have hnone : c.wires.filter (·.src = c.exit.id) = [] := by
    rw [filter_eq_nil_iff]
    intro w hw hsrc
    obtain ⟨e, he, rfl⟩ := mem_map.1 hw
    have hmem := h.wire_mem he
    rw [← u.wires_ways] at hmem
    obtain ⟨d, hd, hw'⟩ := mem_flatMap.1 hmem
    have hid : d.node.id = u.exit.id := by
      rw [← h.exit_id, ← of_decide_eq_true hsrc]
      exact (Way.src_eq hw').symm
    have hnodup := ((u.nodes_ways.map (·.id)).nodup_iff).2 h.nodup
    rw [map_append, map_map] at hnodup
    refine disjoint_of_nodup_append hnodup (mem_map_of_mem hd) ?_
    exact mem_singleton.2 hid
  rw [h.sortsOut_eq, hnone]
  rfl

/-- A node that is not the exit has a way that fits its kind, and the edges of it. -/
theorem way_of_node (hfits : u.Fits) (hn : n ∈ c.nodes) (hexit : n.token ≠ u.exit) :
    ∃ d ∈ u.ways, d.node = n.token ∧ d.way.Fits n.sort ∧
      ∃ sorts, c.sortsOut n.id = sorts.map some ∧ d.way.Shows sorts := by
  obtain ⟨d, hd, heq⟩ := (h.exists_way hn).resolve_right hexit
  have hid : d.node.id = n.id := congrArg Token.id heq
  have hsort : d.node.label.sort = n.sort := congrArg (·.label.sort) heq
  exact ⟨d, hd, heq, hsort ▸ hfits.ways d hd, hid ▸ h.way_shows hd⟩

end

theorem ne_exit (hfits : u.Fits) (hsort : n.sort.isExit = false) : n.token ≠ u.exit := by
  intro heq
  have hexit : n.token.label.sort.isExit = true := heq ▸ hfits.exit
  rw [show n.token.label.sort = n.sort from rfl, hsort] at hexit
  cases hexit

/-- A node that jumps has an edge to its target, unless it is a break or a continue that is
reported. -/
theorem jumps_or_lost (h : c.Realizes u) (hfits : u.Fits) (hn : n ∈ c.nodes)
    (hsort : n.sort.jumps = true) : c.Jumps n.id ∨
      (n.sort = .statement .breakJump ∨ n.sort = .statement .continueJump) ∧
        c.sortsOut n.id = [some .fallThrough] ∧ ∃ t ∈ c.unresolved, n.element = .tree t := by
  have hexit := ne_exit hfits (isExit_of_jumps hsort)
  obtain ⟨d, hd, heq, hfit, sorts, hsorts, hshows⟩ := h.way_of_node hfits hn hexit
  obtain ⟨j, dst, next, hway⟩ := hfit.jump hsort
  rw [hway] at hfit hshows
  cases dst with
  | some t =>
    left
    rw [Jumps, hsorts]
    exact hshows.imp (fun hperm => hperm.map _) fun hperm => hperm.map _
  | none =>
    right
    have hreported := h.mem_unresolved hd (by rw [hway]; rfl)
    rw [heq] at hreported
    refine ⟨hfit.2 rfl, ?_, hreported⟩
    rw [hsorts, show sorts = [.fallThrough] from hshows]
    rfl

theorem shaped (h : c.Realizes u) (hfits : u.Fits) : c.Shaped where
  forks := by
    intro n hn hsort
    have hexit := ne_exit hfits (isExit_of_forks hsort)
    obtain ⟨d, -, -, hfit, sorts, hsorts, hshows⟩ := h.way_of_node hfits hn hexit
    obtain ⟨yes, no, hway⟩ := hfit.fork hsort
    rw [hway] at hshows
    rw [hsorts]
    exact hshows.map _
  leaves := by
    intro n hn hsort
    have hjumps : n.sort.jumps = true := by
      rcases hsort with hsort | hsort <;> rw [hsort] <;> rfl
    refine (h.jumps_or_lost hfits hn hjumps).resolve_right fun hlost => ?_
    rcases hsort with hsort | hsort <;> simp [hsort] at hlost
  jumps := by
    intro n hn hsort
    have hjumps : n.sort.jumps = true := by
      rcases hsort with hsort | hsort <;> rw [hsort] <;> rfl
    exact (h.jumps_or_lost hfits hn hjumps).imp_right (·.2)
  apart := by
    intro e he e' he' hsrc hdst hfall
    obtain ⟨next, hfit⟩ := h.fit
    rw [h.flowSort?_eq he, Option.some.injEq] at hfall
    rw [h.flowSort?_eq he']
    exact congrArg some (hfit.tidy _ (mem_map_of_mem he) _ (mem_map_of_mem he') hsrc hdst hfall)
  exit := h.sortsOut_exit
  others := by
    intro n hn hne hforks hjumps
    have hexit : n.token ≠ u.exit := fun heq => hne (by rw [h.exit_id, ← heq]; rfl)
    obtain ⟨d, -, -, hfit, sorts, hsorts, hshows⟩ := h.way_of_node hfits hn hexit
    obtain ⟨dst, hway | hway⟩ := hfit.pass hforks hjumps
    · rw [hway] at hshows
      exact .inl (by rw [hsorts, show sorts = [.true] from hshows]; rfl)
    · rw [hway] at hshows
      exact .inr (by rw [hsorts, show sorts = [.parameter] from hshows]; rfl)
  reports := h.lost_perm hfits

end Realizes

open Tracked

/-- **The edges that leave a node of a flow graph are told by its kind.**  A break or continue
misses its edge to a target just where no enclosing statement takes it, and then is reported. -/
theorem built_shaped {σ : Type} (context : Context) (p : σ × Trail) :
    (∀ (r : MethodRef) (m : Method) (c : Cfg) (q : σ × Trail),
      ((ofMethod context r m).run p : Except Error Cfg × σ × Trail) = (.ok c, q) →
        c.Shaped ∧ (m.body.isRegular = true → lostJumps c.unresolved =
          (strays (controlOf (scopeOf context m) none m.body { specials := m.parameters.length }).1 []).map
            (·.element))) ∧
    (∀ (r : FieldRef) (f : Field) (c : Cfg) (q : σ × Trail),
      ((ofField context r f).run p : Except Error Cfg × σ × Trail) = (.ok c, q) → c.Shaped) := by
  constructor
  · intro r m c q hrun
    obtain ⟨u, hrealizes, hmethod, hentry, hexit⟩ := (ends_iff_of_run hrun).1 (ends_ofMethod context r m p)
    refine ⟨hrealizes.shaped (hmethod.plan_fits hentry hexit), fun hregular => ?_⟩
    rw [hrealizes.reports, ← hmethod.body hregular, strays_map, map_map]
    rfl
  · intro r f c q hrun
    obtain ⟨u, hrealizes, hfield, sort, hentry, hexit⟩ :=
      (ends_iff_of_run hrun).1 (ends_ofField context r f p)
    exact hrealizes.shaped (hfield.plan_fits hentry hexit)

/-- A method with a break that leaves its loop and a continue outside of it. -/
def strayContinue : Method :=
  { name := "stray"
    returnType := "void"
    body := .block [.whileLoop (.literal "true" "boolean" 2) (.breakJump none 3) 2, .continueJump none 4] 1 }

theorem strayContinue_shaped : strayContinue.body.isRegular = true ∧
      ∃ c q, ((ofMethod { program := { methods := [strayContinue] } } ⟨0⟩ strayContinue).run
          ((), { next := 1 }) : Except Error Cfg × Unit × Trail) = (.ok c, q) ∧
        c.Shaped ∧ lostJumps c.unresolved = [.tree (.stmt (.continueJump none 4))] := by
  have hregular : strayContinue.body.isRegular = true := by decide
  obtain ⟨c, q, hrun, -⟩ :=
    exists_ofMethod { program := { methods := [strayContinue] } } ⟨0⟩ hregular ((), { next := 1 })
  obtain ⟨hshaped, hlost⟩ := (built_shaped _ _).1 ⟨0⟩ strayContinue c q hrun
  exact ⟨hregular, c, q, hrun, hshaped, hlost hregular⟩

end Cfg

end ProgramDependence
