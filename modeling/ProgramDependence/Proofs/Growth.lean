import ProgramDependence.Proofs.Derivation
import ProgramDependence.Proofs.Wiring

/-!
# How a flow graph grows

While a unit is lowered, its graph only grows: nodes and wires are added, and a node that is there
keeps its id and its label.  `Graph.Fit` is the invariant of a growing flow graph, and `Graph.Grows`
says what was added.

A wire may be planned and then be left out: a fall-through wire is not drawn beside another wire
between the same ends.  `Attached` says how the wires that were drawn relate to the planned ones.
-/

namespace ProgramDependence

open List

/-- Which wires there are after planned wires were drawn: new ones among the planned, and all of
those except fall-through wires beside another wire of the same ends. -/
def Attached (before after planned : List Wire) : Prop :=
  ∃ added, after = before ++ added ∧ added.Subperm planned ∧
    ∀ w ∈ planned, w ∈ added ∨
      w.sort = .fallThrough ∧ ∃ x ∈ after, x.src = w.src ∧ x.dst = w.dst

namespace Attached

variable {a b c planned planned' : List Wire}

theorem refl (a : List Wire) : Attached a a [] :=
  ⟨[], by simp, .refl _, by simp⟩

theorem subset (h : Attached a b planned) : a ⊆ b := by
  obtain ⟨added, rfl, -⟩ := h
  exact subset_append_left _ _

/-- A wire that is drawn was there before or was planned. -/
theorem mem_or_planned (h : Attached a b planned) {w : Wire} (hw : w ∈ b) : w ∈ a ∨ w ∈ planned := by
  obtain ⟨added, rfl, hsub, -⟩ := h
  exact (mem_append.1 hw).imp_right fun hw => hsub.subset hw

theorem eq_of_nil (h : Attached a b []) : b = a := by
  obtain ⟨added, rfl, hsub, -⟩ := h
  rw [subperm_nil.1 hsub, append_nil]

theorem perm (h : Attached a b planned) (hp : planned.Perm planned') : Attached a b planned' := by
  obtain ⟨added, hb, hsub, hall⟩ := h
  exact ⟨added, hb, hsub.trans hp.subperm, fun w hw => hall w (hp.mem_iff.2 hw)⟩

theorem trans (h : Attached a b planned) (h' : Attached b c planned') :
    Attached a c (planned ++ planned') := by
  have hsubset := h'.subset
  obtain ⟨added, rfl, hsub, hall⟩ := h
  obtain ⟨added', rfl, hsub', hall'⟩ := h'
  refine ⟨added ++ added', by simp, hsub.append hsub', ?_⟩
  intro w hw
  rcases mem_append.1 hw with hw | hw
  · rcases hall w hw with hmem | ⟨hfall, x, hx, hends⟩
    · exact .inl (mem_append_left _ hmem)
    · exact .inr ⟨hfall, x, hsubset hx, hends⟩
  · rcases hall' w hw with hmem | hskip
    · exact .inl (mem_append_right _ hmem)
    · exact .inr hskip

theorem single (a : List Wire) (w : Wire) : Attached a (a ++ [w]) [w] :=
  ⟨[w], rfl, .refl _, fun _ hx => .inl hx⟩

theorem skip {w x : Wire} (hfall : w.sort = .fallThrough) (hx : x ∈ a) (hsrc : x.src = w.src)
    (hdst : x.dst = w.dst) : Attached a a [w] := by
  refine ⟨[], by simp, nil_subperm, ?_⟩
  intro y hy
  rw [mem_singleton.1 hy]
  exact .inr ⟨hfall, x, hx, hsrc, hdst⟩

end Attached

namespace Graph

variable {g h k : Graph} {next next' next'' : Id}

def tokens (g : Graph) : List Token :=
  g.nodes.map Node.token

def wires (g : Graph) : List Wire :=
  g.edges.map Edge.wire

theorem nodeIds_eq_tokens (g : Graph) : g.nodeIds = g.tokens.map (·.id) := by
  simp [nodeIds, tokens, Node.token]

/-- No fall-through wire runs beside a wire of another sort. -/
def Tidy (ws : List Wire) : Prop :=
  ∀ w ∈ ws, ∀ x ∈ ws, w.src = x.src → w.dst = x.dst → w.sort = .fallThrough → x.sort = .fallThrough

/-- The invariant of a growing flow graph: ids are below the next one, all edges are control flow,
and the fall-through edges run by themselves. -/
structure Fit (g : Graph) (next : Id) : Prop where
  growing : g.Growing next
  nodes_below : ∀ n ∈ g.nodes, n.id < next
  flow : ∀ e ∈ g.edges, e.isFlow = true
  tidy : Tidy g.wires

/-- What was added to a graph: nodes under fresh ids, and wires as far as they are drawn. -/
structure Grows (g h : Graph) (next next' : Id) (new : List Token) (planned : List Wire) : Prop where
  start : g.Fit next
  fit : h.Fit next'
  le : next ≤ next'
  tokens_perm : h.tokens.Perm (g.tokens ++ new)
  fresh : ∀ t ∈ new, next ≤ t.id
  wires : Attached g.wires h.wires planned

namespace Fit

theorem not_mem (hg : g.Fit next) : next ∉ g.nodeIds := by
  intro hmem
  obtain ⟨n, hn, hid⟩ := mem_map.1 hmem
  exact Int.ne_of_lt (hg.nodes_below n hn) hid

theorem lt_of_mem (hg : g.Fit next) {id : Id} (hid : id ∈ g.nodeIds) : id < next := by
  obtain ⟨n, hn, rfl⟩ := mem_map.1 hid
  exact hg.nodes_below n hn

theorem wire_below (hg : g.Fit next) {w : Wire} (hw : w ∈ g.wires) : w.src < next ∧ w.dst < next := by
  obtain ⟨e, he, rfl⟩ := mem_map.1 hw
  exact ⟨hg.lt_of_mem (hg.growing.coherent.src_mem e he), hg.lt_of_mem (hg.growing.coherent.dst_mem e he)⟩

end Fit

/-! ## Nodes -/

variable {f : Node → Node} {n m : Node}

theorem tokens_modifyNode (id : Id) (hf : ∀ n, (f n).token = n.token) :
    (g.modifyNode id f).tokens = g.tokens := by
  simp only [tokens, modifyNode, map_map]
  refine map_congr_left fun n _ => ?_
  by_cases hn : n.id = id <;> simp [hn, hf]

theorem id_of_token (h : n.token = m.token) : n.id = m.id :=
  congrArg Token.id h

theorem Fit.modifyNode (hg : g.Fit next) (id : Id) (hf : ∀ n, (f n).token = n.token) :
    (g.modifyNode id f).Fit next := by
  refine ⟨⟨hg.growing.coherent.modifyNode id fun n => id_of_token (hf n), hg.growing.unfrozen,
    hg.growing.below⟩, ?_, hg.flow, hg.tidy⟩
  intro n hn
  have hmem : n.id ∈ (g.modifyNode id f).nodeIds := mem_map_of_mem hn
  rw [nodeIds_eq_tokens, tokens_modifyNode id hf, ← nodeIds_eq_tokens] at hmem
  exact hg.lt_of_mem hmem

theorem tokens_appendNode (n : Node) : (g.appendNode n).tokens = g.tokens ++ [n.token] := by
  simp [tokens, appendNode]

theorem fit_empty (next : Id) : (Graph.empty .flow).Fit next := by
  refine ⟨⟨coherent_empty _, rfl, ?_⟩, ?_, ?_, ?_⟩ <;> simp [Graph.empty, Graph.wires, Tidy]

theorem Fit.appendNode (hg : g.Fit next) (hid : n.id = next) : (g.appendNode n).Fit (next + 1) := by
  refine ⟨⟨hg.growing.coherent.appendNode (hid ▸ hg.not_mem), hg.growing.unfrozen, ?_⟩, ?_, hg.flow, hg.tidy⟩
  · exact fun e he => Int.lt_trans (hg.growing.below e he) (Int.lt_succ next)
  · intro m hm
    rcases mem_append.1 hm with hm | hm
    · exact Int.lt_trans (hg.nodes_below m hm) (Int.lt_succ next)
    · rw [mem_singleton.1 hm, hid]
      exact Int.lt_succ next

theorem node?_modifyNode (id x : Id) (hf : ∀ n, (f n).id = n.id) :
    (g.modifyNode id f).node? x = if x = id then (g.node? x).map f else g.node? x := by
  have hcongr : ∀ n : Node, decide ((if n.id = id then f n else n).id = x) = decide (n.id = x) := by
    intro n
    by_cases hn : n.id = id <;> simp [hn, hf]
  simp only [node?, modifyNode, find?_map, Function.comp_def, hcongr]
  by_cases hx : x = id
  · rw [if_pos hx]
    cases hfind : g.nodes.find? fun n => decide (n.id = x) with
    | none => rfl
    | some n =>
      have hn : n.id = x := by simpa using find?_some hfind
      simp [hn, hx]
  · rw [if_neg hx]
    cases hfind : g.nodes.find? fun n => decide (n.id = x) with
    | none => rfl
    | some n =>
      have hn : n.id = x := by simpa using find?_some hfind
      simp [hn, hx]

theorem modifyNode_modifyNode (id : Id) {f' : Node → Node} (hf : ∀ n, (f n).id = n.id) :
    (g.modifyNode id f).modifyNode id f' = g.modifyNode id fun n => f' (f n) := by
  simp only [modifyNode, map_map]
  congr 1
  refine map_congr_left fun n _ => ?_
  by_cases hn : n.id = id <;> simp [hn, hf]

theorem node?_appendNode (hn : n.id ∉ g.nodeIds) (x : Id) :
    (g.appendNode n).node? x = if x = n.id then some n else g.node? x := by
  by_cases hx : x = n.id
  · have hnone : g.nodes.find? (fun m => decide (m.id = x)) = none := by
      rw [find?_eq_none]
      intro m hm
      simp only [decide_eq_true_eq]
      exact fun h => hn (hx ▸ h ▸ mem_map_of_mem hm)
    simp [node?, appendNode, hx ▸ hnone, hx]
  · simp [node?, appendNode, hx, Ne.symm hx]

/-! ## Growth in steps -/

namespace Grows

variable {new new' : List Token} {planned planned' : List Wire}

theorem refl (hg : g.Fit next) : Grows g g next next [] [] :=
  ⟨hg, hg, Int.le_refl _, by simp, by simp, .refl _⟩

section

variable (h₁ : Grows g h next next' new planned)
include h₁

theorem trans (h₂ : Grows h k next' next'' new' planned') :
    Grows g k next next'' (new ++ new') (planned ++ planned') := by
  refine ⟨h₁.start, h₂.fit, Int.le_trans h₁.le h₂.le, ?_, ?_, h₁.wires.trans h₂.wires⟩
  · rw [← append_assoc]
    exact h₂.tokens_perm.trans (h₁.tokens_perm.append_right _)
  · intro t ht
    rcases mem_append.1 ht with ht | ht
    · exact h₁.fresh t ht
    · exact Int.le_trans h₁.le (h₂.fresh t ht)

theorem perm (hnew : new.Perm new') (hplanned : planned.Perm planned') : Grows g h next next' new' planned' :=
  ⟨h₁.start, h₁.fit, h₁.le, h₁.tokens_perm.trans (hnew.append_left _),
    fun t ht => h₁.fresh t (hnew.mem_iff.2 ht), h₁.wires.perm hplanned⟩

theorem mem_nodeIds {id : Id} : id ∈ h.nodeIds ↔ id ∈ g.nodeIds ∨ id ∈ new.map (·.id) := by
  rw [nodeIds_eq_tokens, (h₁.tokens_perm.map _).mem_iff, map_append, mem_append, ← nodeIds_eq_tokens]

theorem subset : g.nodeIds ⊆ h.nodeIds :=
  fun _ hid => h₁.mem_nodeIds.2 (.inl hid)

end

theorem appendNode (hg : g.Fit next) (hid : n.id = next) :
    Grows g (g.appendNode n) next (next + 1) [n.token] [] where
  start := hg
  fit := hg.appendNode hid
  le := Int.le_of_lt (Int.lt_succ next)
  tokens_perm := by rw [tokens_appendNode]
  fresh := by simp [Node.token, hid]
  wires := .refl _

theorem modifyNode (hg : g.Fit next) (id : Id) (hf : ∀ n, (f n).token = n.token) :
    Grows g (g.modifyNode id f) next next [] [] where
  start := hg
  fit := hg.modifyNode id hf
  le := Int.le_refl _
  tokens_perm := by rw [tokens_modifyNode id hf, append_nil]
  fresh := by simp
  wires := .refl _

theorem appendEdge (hg : g.Fit next) {src dst : Id} (hsrc : src ∈ g.nodeIds)
    (hdst : dst ∈ g.nodeIds) {sort : FlowSort} (loop : Option Id)
    (hfree : ∀ w ∈ g.wires, w.src = src → w.dst = dst → (w.sort = .fallThrough ↔ sort = .fallThrough)) :
    Grows g (g.appendEdge ⟨next, src, dst, .flow sort loop⟩) next (next + 1) [] [⟨src, dst, sort, loop⟩] := by
  have hwires : (g.appendEdge ⟨next, src, dst, .flow sort loop⟩).wires =
      g.wires ++ [⟨src, dst, sort, loop⟩] := by
    simp [Graph.wires, Graph.appendEdge, Edge.wire, Edge.flowSort?, Edge.loopBack?]
  have htidy : Tidy (g.wires ++ [⟨src, dst, sort, loop⟩]) := by
    intro w hw x hx hsrc' hdst' hfall
    rw [mem_append, mem_singleton] at hw hx
    rcases hw with hw | rfl <;> rcases hx with hx | rfl
    · exact hg.tidy w hw x hx hsrc' hdst' hfall
    · exact (hfree w hw hsrc' hdst').1 hfall
    · exact (hfree x hx hsrc'.symm hdst'.symm).2 hfall
    · exact hfall
  refine ⟨hg, ⟨hg.growing.appendEdge hsrc hdst _, ?_, ?_, hwires ▸ htidy⟩,
    Int.le_of_lt (Int.lt_succ next), ?_, by simp, hwires ▸ .single _ _⟩
  · exact fun n hn => Int.lt_trans (hg.nodes_below n hn) (Int.lt_succ next)
  · intro e he
    rcases mem_append.1 he with he | he
    · exact hg.flow e he
    · rw [mem_singleton.1 he]
      rfl
  · rw [append_nil]
    exact .refl _

theorem not_wired (h₁ : Grows g h next next' new []) {t : Token} (ht : t ∈ new) {w : Wire}
    (hw : w ∈ h.wires) : w.src ≠ t.id ∧ w.dst ≠ t.id := by
  rw [h₁.wires.eq_of_nil] at hw
  have hbelow := h₁.start.wire_below hw
  have hfresh := h₁.fresh t ht
  exact ⟨Int.ne_of_lt (Int.lt_of_lt_of_le hbelow.1 hfresh), Int.ne_of_lt (Int.lt_of_lt_of_le hbelow.2 hfresh)⟩

end Grows

end Graph

end ProgramDependence
