import ProgramDependence.Proofs.Derivation
import ProgramDependence.Proofs.Walk
import ProgramDependence.Slicing.Slice

/-!
# Slices

A slice is a part of its source graph (`Slice.Part`).  It grows by backward searches that share the
part as their record of what was met, so a search does not go on from what an earlier one found
(`Part.extendBackward`).  Since an earlier search went on from there itself, nothing is lost by
that, with one exception: the node of the criterion is in the part from the start, and no search
goes on from it.

So the slice on a use is exact in the following sense.  Apart from the node of the criterion it
consists of what lies behind the definitions that reach the use, along dependences that do not lead
through that node (`of_use_exact`).
-/

namespace ProgramDependence

open List Graph Relation

namespace Slice

variable {source part : Graph} {ok : Edge → Bool}
variable {e : Edge} {n : Id}

/-! ## Parts of a graph -/

/-- A graph that is part of another one and can still grow. -/
structure Part (source part : Graph) : Prop where
  coherent : part.Coherent
  unfrozen : part.frozen = false
  nodes : part.nodes ⊆ source.nodes
  edges : part.edges ⊆ source.edges

namespace Part

theorem empty (source : Graph) (kind : GraphKind) : Part source (.empty kind) :=
  ⟨coherent_empty kind, rfl, nil_subset _, nil_subset _⟩

section

variable (hsource : source.Coherent)
include hsource

theorem mem_of_id (h : Part source part) {n : Node} (hn : n ∈ source.nodes) (hid : n.id ∈ part.nodeIds) :
    n ∈ part.nodes := by
  obtain ⟨m, hm, hmn⟩ := mem_map.1 hid
  obtain rfl := inj_on_of_nodup_map hsource.nodup_nodes (h.nodes hm) hn hmn
  exact hm

theorem addNode (h : Part source part) {n : Node} (hn : n ∈ source.nodes) :
    ∃ part' new, part.addNode n = .ok (part', new) ∧ Part source part' ∧ part'.edges = part.edges ∧
      ∀ m, m ∈ part'.nodes ↔ m ∈ part.nodes ∨ m = n := by
  by_cases hid : n.id ∈ part.nodeIds
  · have hmem := h.mem_of_id hsource hn hid
    refine ⟨part, false, ?_, h, rfl, fun m => ?_⟩
    · rw [Graph.addNode_eq h.unfrozen, if_pos hid]
    · constructor
      · exact .inl
      · rintro (hm | rfl)
        · exact hm
        · exact hmem
  · refine ⟨part.appendNode n, true, ?_, ⟨h.coherent.appendNode hid, h.unfrozen, ?_, h.edges⟩, rfl, ?_⟩
    · rw [Graph.addNode_eq h.unfrozen, if_neg hid]
    · intro m hm
      rcases mem_append.1 hm with hm | hm
      · exact h.nodes hm
      · rw [mem_singleton.1 hm]
        exact hn
    · simp [Graph.appendNode]

theorem addEdge (h : Part source part) (he : e ∈ source.edges)
    (hsrc : e.src ∈ part.nodeIds) (hdst : e.dst ∈ part.nodeIds) :
    ∃ part' new, part.addEdge e = .ok (part', new) ∧ Part source part' ∧ part'.nodes = part.nodes ∧
      ∀ f, f ∈ part'.edges ↔ f ∈ part.edges ∨ f = e := by
  by_cases hid : e.id ∈ part.edges.map (·.id)
  · obtain ⟨f, hf, hfe⟩ := mem_map.1 hid
    obtain rfl := hsource.edge_eq (h.edges hf) he hfe
    refine ⟨part, false, Graph.addEdge_eq_self h.unfrozen hid, h, rfl, fun g => ⟨.inl, ?_⟩⟩
    rintro (hg | rfl)
    · exact hg
    · exact hf
  · refine ⟨part.appendEdge e, true, Graph.addEdge_eq h.unfrozen hid hsrc hdst,
      ⟨h.coherent.appendEdge hid hsrc hdst, h.unfrozen, h.nodes, ?_⟩, rfl, ?_⟩
    · intro f hf
      rcases mem_append.1 hf with hf | hf
      · exact h.edges hf
      · rw [mem_singleton.1 hf]
        exact he
    · simp [Graph.appendEdge]

/-- A part takes nodes of its source. -/
theorem takeNodes (ids : List Id) (hids : ∀ id ∈ ids, id ∈ source.nodeIds)
    (h : Part source part) : ∃ part', ids.foldlM (takeNode source) part = .ok part' ∧ Part source part' ∧
      part'.edges = part.edges ∧ ∀ m, m ∈ part'.nodes ↔ m ∈ part.nodes ∨ m ∈ source.nodes ∧ m.id ∈ ids := by
  induction ids generalizing part with
  | nil => exact ⟨part, rfl, h, rfl, by simp⟩
  | cons id ids ih =>
    obtain ⟨n, hn, rfl⟩ := mem_map.1 (hids id mem_cons_self)
    obtain ⟨part₁, new, hadd, hpart₁, hedges₁, hnodes₁⟩ := h.addNode hsource hn
    obtain ⟨part₂, hrest, hpart₂, hedges₂, hnodes₂⟩ :=
      ih (fun id hid => hids id (mem_cons_of_mem _ hid)) hpart₁
    have htake : takeNode source part n.id = .ok part₁ := by
      simp [takeNode, getNode, hsource.node?_eq_some hn, bind, Except.bind, hadd]
      rfl
    refine ⟨part₂, ?_, hpart₂, hedges₂.trans hedges₁, fun m => ?_⟩
    · rw [foldlM_cons, htake]
      exact hrest
    · rw [hnodes₂, hnodes₁, mem_cons, or_assoc]
      refine or_congr_right ⟨?_, ?_⟩
      · rintro (rfl | ⟨hm, hid⟩)
        · exact ⟨hn, .inl rfl⟩
        · exact ⟨hm, .inr hid⟩
      · rintro ⟨hm, hid | hid⟩
        · exact .inl (inj_on_of_nodup_map hsource.nodup_nodes hm hn hid)
        · exact .inr ⟨hm, hid⟩

theorem takeEdges (es : List Edge) (h : Part source part)
    (hes : ∀ e ∈ es, e ∈ source.edges ∧ e.src ∈ part.nodeIds ∧ e.dst ∈ part.nodeIds) :
    ∃ part', es.foldlM takeEdge part = .ok part' ∧ Part source part' ∧ part'.nodes = part.nodes ∧
      ∀ f, f ∈ part'.edges ↔ f ∈ part.edges ∨ f ∈ es := by
  induction es generalizing part with
  | nil => exact ⟨part, rfl, h, rfl, by simp⟩
  | cons e es ih =>
    obtain ⟨he, hsrc, hdst⟩ := hes e mem_cons_self
    obtain ⟨part₁, new, hadd, hpart₁, hnodes₁, hedges₁⟩ := h.addEdge hsource he hsrc hdst
    obtain ⟨part₂, hrest, hpart₂, hnodes₂, hedges₂⟩ := ih hpart₁ fun f hf => by
      rw [nodeIds, hnodes₁]
      exact hes f (mem_cons_of_mem _ hf)
    have htake : takeEdge part e = .ok part₁ := by
      simp [takeEdge, bind, hadd]
      rfl
    refine ⟨part₂, ?_, hpart₂, hnodes₂.trans hnodes₁, fun f => ?_⟩
    · rw [foldlM_cons, htake]
      exact hrest
    · rw [hedges₂, hedges₁, mem_cons, or_assoc]

/-! ## Backward searches -/

/-- A step backwards along an accepted edge, to a node that was not met. -/
theorem step_iff {met : List Id} {a b : Id} :
    Search.Step (sources source ok) met a b ↔ source.Arrow ok b a ∧ b ∉ met :=
  and_congr_left fun _ => mem_neighbours_back hsource

end

/-- What a backward search from `start` does to a part: the nodes in `swept` are added, with the
accepted edges that enter them.  These are the start and what lies behind it, as far as it was not
met. -/
structure Extends (source : Graph) (ok : Edge → Bool) (part : Graph) (start : Id) (part' : Graph)
    (swept : List Id) : Prop where
  isPart : Part source part'
  nodes : ∀ n, n ∈ part'.nodes ↔ n ∈ part.nodes ∨ n ∈ source.nodes ∧ n.id ∈ swept
  edges : ∀ e, e ∈ part'.edges ↔ e ∈ part.edges ∨ e ∈ source.edges ∧ ok e = true ∧ e.dst ∈ swept
  start_mem : start ∈ swept
  closed : ∀ b ∈ swept, ∀ a, source.Arrow ok a b → a ∈ part.nodeIds ∨ a ∈ swept
  reached : ∀ a ∈ swept,
    ReflTransGen (fun x y => source.Arrow ok x y ∧ x ∉ part.nodeIds) a start

variable (ok) in
/-- A backward search from a node of the source graph succeeds. -/
theorem extendBackward (hsource : source.Coherent) (h : Part source part) {start : Node}
    (hstart : start ∈ source.nodes) : ∃ part' swept, Slice.extendBackward source ok part start = .ok part' ∧
      Extends source ok part start.id part' swept := by
  obtain ⟨part₁, new, hadd, hpart₁, hedges₁, hnodes₁⟩ := h.addNode hsource hstart
  have hids₁ : ∀ id, id ∈ part₁.nodeIds ↔ id ∈ part.nodeIds ∨ id = start.id := by
    intro id
    simp only [nodeIds, mem_map, hnodes₁]
    constructor
    · rintro ⟨n, hn | rfl, rfl⟩
      · exact .inl ⟨n, hn, rfl⟩
      · exact .inr rfl
    · rintro (⟨n, hn, rfl⟩ | rfl)
      · exact ⟨n, .inl hn, rfl⟩
      · exact ⟨start, .inr rfl, rfl⟩
  have hdomain : ∀ x, ∀ y ∈ sources source ok x, y ∈ source.edges.map (·.src) := by
    intro x y hy
    obtain ⟨e, he, -, rfl, -⟩ := (mem_neighbours_back hsource).1 hy
    exact mem_map_of_mem he
  obtain ⟨found, hdone⟩ := Search.run_spec .stack (sources source ok) hdomain
    (source.edges.length + 1) [start.id] part₁.nodeIds [] (by
      have hle := Search.length_fresh_le part₁.nodeIds (source.edges.map (·.src))
      rw [length_map] at hle
      simp only [length_singleton]
      omega)
  have hfound : ∀ id ∈ found, id ∈ source.nodeIds := by
    intro id hid
    obtain ⟨x, hx, hreach⟩ := hdone.reached id hid
    rcases ReflTransGen.cases_tail hreach with rfl | ⟨y, -, hstep⟩
    · exact absurd ((hids₁ _).2 (.inr (mem_singleton.1 hx))) (hdone.not_found _ hid)
    · obtain ⟨e, he, -, rfl, -⟩ := ((step_iff hsource).1 hstep).1
      exact hsource.src_mem e he
  obtain ⟨part₂, htake₂, hpart₂, hedges₂, hnodes₂⟩ := takeNodes hsource found hfound hpart₁
  have hvisited := hdone.visited_perm
  rw [nil_append] at hvisited
  have hswept : ∀ id ∈ [start.id] ++ found, id ∈ part₂.nodeIds := by
    intro id hid
    rcases mem_append.1 hid with hid | hid
    · rw [mem_singleton.1 hid]
      exact mem_map_of_mem ((hnodes₂ start).2 (.inl ((hnodes₁ start).2 (.inr rfl))))
    · obtain ⟨n, hn, rfl⟩ := mem_map.1 (hfound id hid)
      exact mem_map_of_mem ((hnodes₂ n).2 (.inr ⟨hn, hid⟩))
  have hclosed : ∀ b ∈ [start.id] ++ found, ∀ a, source.Arrow ok a b →
      a ∈ part.nodeIds ∨ a ∈ [start.id] ++ found := by
    intro b hb a hab
    rcases mem_append.1 (hdone.closed b hb a ((mem_neighbours_back hsource).2 hab)) with ha | ha
    · rcases (hids₁ a).1 ha with ha | rfl
      · exact .inl ha
      · exact .inr (mem_append_left _ (mem_singleton_self _))
    · exact .inr (mem_append_right _ ha)
  obtain ⟨part₃, htake₃, hpart₃, hnodes₃, hedges₃⟩ := takeEdges hsource
    ((Search.run .stack (sources source ok) (source.edges.length + 1) [start.id] part₁.nodeIds
      []).visited.flatMap fun n => (source.edgesInto n).filter ok) hpart₂ (by
    intro e he
    obtain ⟨b, hb, he⟩ := mem_flatMap.1 he
    obtain ⟨hmem, rfl⟩ := hsource.mem_edgesInto.1 (mem_of_mem_filter he)
    have hb' := hvisited.mem_iff.1 hb
    refine ⟨hmem, ?_, hswept _ hb'⟩
    rcases hclosed _ hb' e.src ⟨e, hmem, (mem_filter.1 he).2, rfl, rfl⟩ with hsrc | hsrc
    · obtain ⟨n, hn, hid⟩ := mem_map.1 hsrc
      rw [← hid]
      exact mem_map_of_mem ((hnodes₂ n).2 (.inl ((hnodes₁ n).2 (.inl hn))))
    · exact hswept _ hsrc)
  refine ⟨part₃, [start.id] ++ found, ?_, hpart₃, ?_, ?_, by simp, hclosed, ?_⟩
  · have hdrop : (Search.run .stack (sources source ok) (source.edges.length + 1) [start.id]
        part₁.nodeIds []).found.drop part₁.nodes.length = found := by
      rw [hdone.found_eq, nodeIds, drop_left' (length_map _)]
    simp only [Slice.extendBackward, hadd, bind, Except.bind, hdrop, htake₂]
    exact htake₃
  · intro n
    rw [hnodes₃, hnodes₂, hnodes₁, or_assoc]
    refine or_congr_right ⟨?_, ?_⟩
    · rintro (rfl | ⟨hn, hid⟩)
      · exact ⟨hstart, by simp⟩
      · exact ⟨hn, mem_append_right _ hid⟩
    · rintro ⟨hn, hid⟩
      rcases mem_append.1 hid with hid | hid
      · exact .inl (inj_on_of_nodup_map hsource.nodup_nodes hn hstart (mem_singleton.1 hid))
      · exact .inr ⟨hn, hid⟩
  · intro e
    rw [hedges₃, hedges₂, hedges₁]
    refine or_congr_right ?_
    simp only [mem_flatMap, mem_filter, hsource.mem_edgesInto]
    constructor
    · rintro ⟨b, hb, ⟨he, rfl⟩, hok⟩
      exact ⟨he, hok, hvisited.mem_iff.1 hb⟩
    · rintro ⟨he, hok, hdst⟩
      exact ⟨e.dst, hvisited.mem_iff.2 hdst, ⟨he, rfl⟩, hok⟩
  · intro a ha
    obtain ⟨x, hx, hreach⟩ := hdone.mem_iff.1 ha
    obtain rfl := mem_singleton.1 hx
    refine reflTransGen_swap.1 (.mono (fun x y hstep => ?_) _ _ hreach)
    obtain ⟨harrow, hnot⟩ := (step_iff hsource).1 hstep
    exact ⟨harrow, fun hmem => hnot ((hids₁ y).2 (.inl hmem))⟩

end Part

/-! ## Slices on a use -/

variable {c : Criterion} {done : List Edge}

/-- Whether an edge that enters the node of a criterion carries a definition of its variable. -/
def carries (c : Criterion) (e : Edge) : Bool :=
  (e.dependenceSort?.any fun s => s.isDefUse || s.isParameter) && c.accepts e.var?

/-- `Behind source c es n`: dependences lead from `n` to the start of one of `es` that carries a
definition of the variable, and none of them leaves the node of the criterion. -/
def Behind (source : Graph) (c : Criterion) (es : List Edge) (n : Id) : Prop :=
  ∃ e ∈ es, carries c e = true ∧
    ReflTransGen (fun a b => source.Arrow isFollowed a b ∧ a ≠ c.node.id) n e.src

theorem Behind.head {a b : Id} (h : Behind source c done b) (harrow : source.Arrow isFollowed a b)
    (hne : a ≠ c.node.id) : Behind source c done a := by
  obtain ⟨e, he, hcarries, hpath⟩ := h
  exact ⟨e, he, hcarries, .head ⟨harrow, hne⟩ hpath⟩

theorem behind_append {es : List Edge} :
    Behind source c (done ++ es) n ↔ Behind source c done n ∨ Behind source c es n := by
  simp only [Behind, mem_append, or_and_right, exists_or]

theorem behind_single : Behind source c [e] n ↔ carries c e = true ∧
    ReflTransGen (fun a b => source.Arrow isFollowed a b ∧ a ≠ c.node.id) n e.src := by
  simp [Behind]

/-- The slice on a use after some of the edges that enter the node of the criterion. -/
structure Collected (source : Graph) (c : Criterion) (done : List Edge) (part : Graph) : Prop where
  isPart : Part source part
  nodes : ∀ n, n ∈ part.nodes ↔ n ∈ source.nodes ∧ (n.id = c.node.id ∨ Behind source c done n.id)
  edges : ∀ e, e ∈ part.edges ↔ e ∈ source.edges ∧
    (isFollowed e = true ∧ Behind source c done e.dst ∨ e ∈ done ∧ carries c e = true)

namespace Collected

section

variable (h : Collected source c done part)
include h

theorem mem_nodeIds {id : Id} :
    id ∈ part.nodeIds ↔ id ∈ source.nodeIds ∧ (id = c.node.id ∨ Behind source c done id) := by
  simp only [nodeIds, mem_map, h.nodes]
  constructor
  · rintro ⟨n, ⟨hn, hid⟩, rfl⟩
    exact ⟨⟨n, hn, rfl⟩, hid⟩
  · rintro ⟨⟨n, hn, rfl⟩, hid⟩
    exact ⟨n, ⟨hn, hid⟩, rfl⟩

/-- What the next search sweeps, together with what lies behind the edges before, is what lies
behind all of them: a search stops at what an earlier one went on from, or at the node of the
criterion. -/
theorem behind_iff (hc : c.node ∈ source.nodes) {part' : Graph} {swept : List Id}
    (hcarries : carries c e = true) (hext : Part.Extends source isFollowed part e.src part' swept) :
    Behind source c (done ++ [e]) n ↔ Behind source c done n ∨ n ∈ swept := by
  have hcriterion : c.node.id ∈ part.nodeIds :=
    h.mem_nodeIds.2 ⟨mem_map_of_mem hc, .inl rfl⟩
  rw [behind_append, behind_single]
  constructor
  · rintro (hn | ⟨-, hpath⟩)
    · exact .inl hn
    · induction hpath using ReflTransGen.head_induction_on with
      | refl => exact .inr hext.start_mem
      | head hstep _ ih =>
        rcases ih with hbehind | hswept
        · exact .inl (hbehind.head hstep.1 hstep.2)
        · rcases hext.closed _ hswept _ hstep.1 with hmet | hswept'
          · exact .inl ((h.mem_nodeIds.1 hmet).2.resolve_left hstep.2)
          · exact .inr hswept'
  · rintro (hn | hn)
    · exact .inl hn
    · refine .inr ⟨hcarries, .mono (fun a b hstep => ⟨hstep.1, ?_⟩) _ _ (hext.reached n hn)⟩
      rintro rfl
      exact hstep.2 hcriterion

theorem skip (hcarries : carries c e = false) : Collected source c (done ++ [e]) part := by
  have hbehind : ∀ n, Behind source c (done ++ [e]) n ↔ Behind source c done n := by
    intro n
    rw [behind_append, behind_single]
    simp [hcarries]
  refine ⟨h.isPart, fun n => by rw [h.nodes, hbehind], fun f => ?_⟩
  rw [h.edges, hbehind, mem_append, mem_singleton]
  refine and_congr_right fun _ => or_congr_right (and_congr_left fun hf => ?_)
  constructor
  · exact .inl
  · rintro (hmem | rfl)
    · exact hmem
    · simp [hcarries] at hf

/-- An edge that carries a definition adds what lies behind its start, and itself. -/
theorem take (hsource : source.Coherent) (hc : c.node ∈ source.nodes)
    (he : e ∈ source.edges) (hdst : e.dst = c.node.id) (hcarries : carries c e = true) :
    ∃ start part₁ part₂, source.getNode e.src = .ok start ∧
      extendBackward source isFollowed part start = .ok part₁ ∧ takeEdge part₁ e = .ok part₂ ∧
      Collected source c (done ++ [e]) part₂ := by
  obtain ⟨start, hstart, hid⟩ := mem_map.1 (hsource.src_mem e he)
  have hget : source.getNode e.src = .ok start := by
    rw [← hid]
    simp [getNode, hsource.node?_eq_some hstart]
  obtain ⟨part₁, swept, hrun, hext⟩ := h.isPart.extendBackward isFollowed hsource hstart
  rw [hid] at hext
  have hnodes₁ : ∀ n, n ∈ part₁.nodes ↔
      n ∈ source.nodes ∧ (n.id = c.node.id ∨ Behind source c (done ++ [e]) n.id) := by
    intro n
    rw [hext.nodes, h.nodes, h.behind_iff hc hcarries hext]
    tauto
  have hsrc : e.src ∈ part₁.nodeIds := by
    rw [← hid]
    exact mem_map_of_mem ((hext.nodes start).2 (.inr ⟨hstart, hid ▸ hext.start_mem⟩))
  have hdst' : e.dst ∈ part₁.nodeIds := by
    rw [hdst]
    exact mem_map_of_mem ((hnodes₁ c.node).2 ⟨hc, .inl rfl⟩)
  obtain ⟨part₂, new, hadd, hpart₂, hnodes₂, hedges₂⟩ := hext.isPart.addEdge hsource he hsrc hdst'
  have htake : takeEdge part₁ e = .ok part₂ := by
    simp [takeEdge, bind, hadd]
    rfl
  refine ⟨start, part₁, part₂, hget, hrun, htake, hpart₂, fun n => by rw [hnodes₂, hnodes₁], fun f => ?_⟩
  rw [hedges₂, hext.edges, h.edges, h.behind_iff hc hcarries hext, mem_append, mem_singleton]
  constructor
  · rintro ((⟨hf, hkept⟩ | ⟨hf, hok, hswept⟩) | rfl)
    · exact ⟨hf, hkept.imp (fun hk => ⟨hk.1, .inl hk.2⟩) fun hk => ⟨.inl hk.1, hk.2⟩⟩
    · exact ⟨hf, .inl ⟨hok, .inr hswept⟩⟩
    · exact ⟨he, .inr ⟨.inr rfl, hcarries⟩⟩
  · rintro ⟨hf, ⟨hok, hbehind | hswept⟩ | ⟨hmem | rfl, hf'⟩⟩
    · exact .inl (.inl ⟨hf, .inl ⟨hok, hbehind⟩⟩)
    · exact .inl (.inr ⟨hf, hok, hswept⟩)
    · exact .inl (.inl ⟨hf, .inr ⟨hmem, hf'⟩⟩)
    · exact .inr rfl

end

/-- Each edge is skipped or taken. -/
theorem extendUses (hsource : source.Coherent) (hc : c.node ∈ source.nodes) (es : List Edge)
    (hes : ∀ e ∈ es, e ∈ source.edges ∧ e.dst = c.node.id ∧ e.isDependence = true)
    {done : List Edge} {part : Graph} (h : Collected source c done part) :
    ∃ part', Slice.extendUses source c es part = .ok part' ∧ Collected source c (done ++ es) part' := by
  induction es generalizing done part with
  | nil => exact ⟨part, rfl, by rwa [append_nil]⟩
  | cons e es ih =>
    obtain ⟨he, hdst, hdep⟩ := hes e mem_cons_self
    have hrest := fun f hf => hes f (mem_cons_of_mem e hf)
    obtain ⟨s, hs⟩ : ∃ s, e.dependenceSort? = some s := by
      unfold Edge.isDependence at hdep
      unfold Edge.dependenceSort?
      split at hdep <;> simp_all
    have hcarries : carries c e = ((s.isDefUse || s.isParameter) && c.accepts e.var?) := by
      simp [carries, hs]
    rw [append_cons]
    by_cases htaken : carries c e = true
    · obtain ⟨start, part₁, part₂, hget, hrun, htake, hcollected⟩ := h.take hsource hc he hdst htaken
      obtain ⟨part', hrec, hdone⟩ := ih hrest hcollected
      refine ⟨part', ?_, hdone⟩
      rw [Slice.extendUses, hs]
      simp only [← hcarries, htaken, hget, hrun, htake, bind, Except.bind]
      exact hrec
    · rw [Bool.not_eq_true] at htaken
      obtain ⟨part', hrec, hdone⟩ := ih hrest (h.skip htaken)
      refine ⟨part', ?_, hdone⟩
      rw [Slice.extendUses, hs]
      simp only [← hcarries, htaken]
      exact hrec

end Collected

/-- `Backward source c n`: dependences lead from `n` to the start of an edge that carries a
definition of the variable to the node of the criterion. -/
def Backward (source : Graph) (c : Criterion) (n : Id) : Prop :=
  ∃ e ∈ source.edgesInto c.node.id, carries c e = true ∧
    ReflTransGen (source.Arrow isFollowed) n e.src

/-- Whether nothing is cut off by the node of the criterion: if it lies behind a definition, it is
one itself or nothing else enters it. -/
def Open (source : Graph) (c : Criterion) : Prop :=
  Backward source c c.node.id →
    (∃ e ∈ source.edgesInto c.node.id, carries c e = true ∧ e.src = c.node.id) ∨
      ∀ e ∈ source.edgesInto c.node.id, isFollowed e = true → carries c e = true

theorem Behind.backward (h : Behind source c (source.edgesInto c.node.id) n) : Backward source c n := by
  obtain ⟨e, he, hcarries, hpath⟩ := h
  exact ⟨e, he, hcarries, .mono (fun _ _ h => h.1) _ _ hpath⟩

/-- The node of the criterion lies behind a definition without passing itself only if it is one. -/
theorem behind_self_iff {es : List Edge} :
    Behind source c es c.node.id ↔ ∃ e ∈ es, carries c e = true ∧ e.src = c.node.id := by
  constructor
  · rintro ⟨e, he, hcarries, hpath⟩
    rcases ReflTransGen.cases_head hpath with hsrc | ⟨b, hstep, -⟩
    · exact ⟨e, he, hcarries, hsrc.symm⟩
    · exact absurd rfl hstep.2
  · rintro ⟨e, he, hcarries, hsrc⟩
    exact ⟨e, he, hcarries, by rw [hsrc]⟩

/-- If nothing is cut off, the slice has all that lies behind the definitions. -/
theorem Open.behind (hopen : Open source c) (hsource : source.Coherent) (h : Backward source c n) :
    n = c.node.id ∨ Behind source c (source.edgesInto c.node.id) n := by
  obtain ⟨e, he, hcarries, hpath⟩ := h
  induction hpath using ReflTransGen.head_induction_on with
  | refl => exact .inr ⟨e, he, hcarries, .refl⟩
  | @head a b hstep htail ih =>
    by_cases ha : a = c.node.id
    · exact .inl ha
    rcases ih with rfl | hbehind
    · -- The path leads through the node of the criterion, where nothing is cut off.
      rcases hopen ⟨e, he, hcarries, htail⟩ with hself | hall
      · exact .inr ((behind_self_iff.2 hself).head hstep ha)
      · obtain ⟨f, hf, hok, rfl, hdst⟩ := hstep
        have hinto := hsource.mem_edgesInto.2 ⟨hf, hdst⟩
        exact .inr ⟨f, hinto, hall f hinto hok, .refl⟩
    · exact .inr (hbehind.head hstep ha)

theorem hasNode_of_mem {n : Node} (h : n ∈ source.nodes) : source.hasNode n.id = true :=
  (hasNode_iff _ _).2 (mem_map_of_mem h)

/-- The slice on a use is what is collected along all edges that enter the node of the criterion. -/
theorem build_of_use (hsource : source.Coherent) (hdep : ∀ e ∈ source.edges, e.isDependence = true)
    (hc : c.node ∈ source.nodes) (hdefined : c.isDefined = false) (hused : c.isUsed = true) :
    ∃ part, build source c = (.ok part, []) ∧ Collected source c (source.edgesInto c.node.id) part := by
  have hinto : ∀ e ∈ source.edgesInto c.node.id,
      e ∈ source.edges ∧ e.dst = c.node.id ∧ e.isDependence = true := by
    intro e he
    obtain ⟨hmem, hdst⟩ := hsource.mem_edgesInto.1 he
    exact ⟨hmem, hdst, hdep e hmem⟩
  obtain ⟨first, new, hadd, hfirst, hedges, hnodes⟩ := (Part.empty source .slice).addNode hsource hc
  have hstart : Collected source c [] first := by
    refine ⟨hfirst, fun n => ?_, fun e => ?_⟩
    · rw [hnodes]
      constructor
      · rintro (hn | rfl)
        · cases hn
        · exact ⟨hc, .inl rfl⟩
      · rintro ⟨hn, hid | ⟨e, he, -⟩⟩
        · exact .inr (inj_on_of_nodup_map hsource.nodup_nodes hn hc hid)
        · cases he
    · rw [hedges]
      simp [empty, Behind]
  obtain ⟨part, hrun, hpart⟩ := hstart.extendUses hsource hc (source.edgesInto c.node.id) hinto
  refine ⟨part, ?_, hpart⟩
  simp only [build, hasNode_of_mem hc, hdefined, hused, Bool.not_true, Bool.false_eq_true, if_false, if_true,
    hadd, bind, Except.bind, hrun]

theorem Collected.mem_edges_iff (h : Collected source c (source.edgesInto c.node.id) part)
    (hsource : source.Coherent) (e : Edge) : e ∈ part.edges ↔ e ∈ source.edges ∧
      (isFollowed e = true ∧ Behind source c (source.edgesInto c.node.id) e.dst ∨
        e.dst = c.node.id ∧ carries c e = true) := by
  rw [h.edges]
  refine and_congr_right fun he => or_congr_right (and_congr_left fun _ => ?_)
  rw [hsource.mem_edgesInto]
  exact and_iff_right he

/-- **Slices on a use.**  The slice of a graph of dependences on a variable that a node uses and
does not define consists of this node and of what lies behind the definitions that reach it, along
dependences that do not leave the node; and of the dependences that enter what lies behind, with
those that carry the definitions.  This is all from which the definitions are reached, with all
dependences between, exactly if the node cuts nothing off.  It does so if it lies behind one of the
definitions, as a loop condition does, and further dependences enter it. -/
theorem of_use_exact {σ : Type} (hsource : source.Coherent) (hdep : ∀ e ∈ source.edges, e.isDependence = true)
    (hc : c.node ∈ source.nodes) (hdefined : c.isDefined = false) (hused : c.isUsed = true) (p : σ × Trail) :
    ∃ s, ((Slice.of source c).run p : Except Error Slice × σ × Trail) = (.ok s, p) ∧
      (∀ n, n ∈ s.nodes ↔ n ∈ source.nodes ∧
      (n.id = c.node.id ∨ Behind source c (source.edgesInto c.node.id) n.id)) ∧
      (∀ e, e ∈ s.edges ↔ e ∈ source.edges ∧
      (isFollowed e = true ∧ Behind source c (source.edgesInto c.node.id) e.dst ∨
          e.dst = c.node.id ∧ carries c e = true)) ∧
      ((∀ n, n ∈ s.nodes ↔ n ∈ source.nodes ∧ (n.id = c.node.id ∨ Backward source c n.id)) ∧
        (∀ e ∈ source.edges, isFollowed e = true → Backward source c e.dst → e ∈ s.edges) ↔
        Open source c) := by
  obtain ⟨part, hbuild, hpart⟩ := build_of_use hsource hdep hc hdefined hused
  have hedges := hpart.mem_edges_iff hsource
  refine ⟨{ toGraph := part.freeze, criterion := c }, ?_, hpart.nodes, hedges, ?_, ?_⟩
  · simp only [Slice.of, hbuild]
    rfl
  · rintro ⟨-, hall⟩ hback
    by_cases hself : Behind source c (source.edgesInto c.node.id) c.node.id
    · exact .inl (behind_self_iff.1 hself)
    · refine .inr fun e he hok => ?_
      obtain ⟨hmem, hdst⟩ := hsource.mem_edgesInto.1 he
      rcases ((hedges e).1 (hall e hmem hok (hdst ▸ hback))).2 with ⟨-, hbehind⟩ | ⟨-, hcarries⟩
      · exact absurd (hdst ▸ hbehind) hself
      · exact hcarries
  · intro hopen
    refine ⟨fun n => (hpart.nodes n).trans (and_congr_right fun _ => ?_), fun e he hok hback => ?_⟩
    · constructor
      · exact fun h => h.imp_right Behind.backward
      · rintro (hn | hn)
        · exact .inl hn
        · exact hopen.behind hsource hn
    · refine (hedges e).2 ⟨he, ?_⟩
      rcases hopen.behind hsource hback with hdst | hbehind
      · rcases hopen (hdst ▸ hback) with hself | hall
        · exact .inl ⟨hok, by rw [hdst]; exact behind_self_iff.2 hself⟩
        · exact .inr ⟨hdst, hall e (hsource.mem_edgesInto.2 ⟨he, hdst⟩) hok⟩
      · exact .inl ⟨hok, hbehind⟩

def bound : Node :=
  { id := 1, sort := .parameter .formalIn, defs := [{ name := "n" }] }

def condition : Node :=
  { id := 2, sort := .statement .whileLoop, uses := [{ name := "i" }, { name := "n" }] }

def increment : Node :=
  { id := 3, sort := .statement .assignment, defs := [{ name := "i" }], uses := [{ name := "i" }] }

def countingLoop : Graph :=
  ((((((empty .dependence).appendNode bound).appendNode condition).appendNode increment).appendEdge
      ⟨4, 1, 2, .dependence .loopIndependent (some { name := "n" }) none⟩).appendEdge
      ⟨5, 3, 2, .dependence .loopCarried (some { name := "i" }) (some 2)⟩).appendEdge
      ⟨6, 2, 3, .dependence .controlTrue none none⟩

theorem coherent_countingLoop : countingLoop.Coherent :=
  ((((((coherent_empty _).appendNode (by decide)).appendNode (by decide)).appendNode
    (by decide)).appendEdge (by decide) (by decide) (by decide)).appendEdge (by decide) (by decide)
    (by decide)).appendEdge (by decide) (by decide) (by decide)

theorem condition_mem : condition ∈ countingLoop.nodes :=
  .tail _ (.head _)

/-- The slice on the bound at the condition is all from which the bound is reached. -/
theorem countingLoop_slice_bound :
    ∃ s, ((Slice.of countingLoop ⟨condition, .named "n"⟩).run ((), { next := 7 }) :
      Except Error Slice × Unit × Trail) = (.ok s, (), { next := 7 }) ∧
    ∀ n, n ∈ s.nodes ↔ n ∈ countingLoop.nodes ∧
      (n.id = condition.id ∨ Backward countingLoop ⟨condition, .named "n"⟩ n.id) := by
  obtain ⟨s, hrun, -, -, hfull⟩ := of_use_exact (c := ⟨condition, .named "n"⟩) coherent_countingLoop
    (by decide) condition_mem (by decide) (by decide) ((), { next := 7 })
  refine ⟨s, hrun, (hfull.2 ?_).1⟩
  -- No dependence leads from the condition to the bound: those of the loop stay inside it.
  rintro ⟨e, he, hcarries, hpath⟩
  have hinside : ∀ e ∈ countingLoop.edges, e.src ≠ 1 → e.dst ≠ 1 := by decide
  have hstart : e.src ≠ 1 := by
    clear he hcarries
    generalize e.src = a at hpath
    induction hpath with
    | refl => decide
    | tail _ hstep ih =>
      obtain ⟨f, hf, -, rfl, rfl⟩ := hstep
      exact hinside f hf ih
  have hbound : ∀ e ∈ countingLoop.edgesInto 2, carries ⟨condition, .named "n"⟩ e = true → e.src = 1 := by
    decide
  exact absurd (hbound e he hcarries) hstart

/-- The condition of a loop lies behind the step, and the slice on the counter there misses the
bound, from which the step is reached. -/
theorem countingLoop_slice_counter_incomplete :
    countingLoop.Coherent ∧ (∀ e ∈ countingLoop.edges, e.isDependence = true) ∧
      condition ∈ countingLoop.nodes ∧ (⟨condition, .named "i"⟩ : Criterion).isDefined = false ∧
      (⟨condition, .named "i"⟩ : Criterion).isUsed = true ∧
      Backward countingLoop ⟨condition, .named "i"⟩ bound.id ∧
      ∃ s, ((Slice.of countingLoop ⟨condition, .named "i"⟩).run ((), { next := 7 }) :
          Except Error Slice × Unit × Trail) = (.ok s, (), { next := 7 }) ∧
        bound.id ∉ s.nodeIds := by
  refine ⟨coherent_countingLoop, by decide, condition_mem, by decide, by decide, ?_, _, rfl, by decide⟩
  refine ⟨⟨5, 3, 2, .dependence .loopCarried (some { name := "i" }) (some 2)⟩, by decide, by decide, ?_⟩
  have hcondition : countingLoop.Arrow isFollowed 1 2 :=
    ⟨⟨4, 1, 2, .dependence .loopIndependent (some { name := "n" }) none⟩, by decide, by decide, rfl, rfl⟩
  have hstep : countingLoop.Arrow isFollowed 2 3 :=
    ⟨⟨6, 2, 3, .dependence .controlTrue none none⟩, by decide, by decide, rfl, rfl⟩
  exact .tail (.single hcondition) hstep

end Slice

end ProgramDependence
