import Mathlib.Logic.Equiv.Basic
import ProgramDependence.Proofs.CopiedUnits

/-!
# Images under other ids

One graph is the image of another under a map of ids if it has the same nodes and edges in the same
order, each under its new id and referring to the new ids of what it refers to (`Graph.Image`,
`Cfg.Image`, `Pdg.Image`). Only the ids that are mentioned matter, so a map may be changed where it
is not used (`exists_extension`). A query of the image answers with the image of the answer.
-/

namespace ProgramDependence

open List Node
variable {n : Node} {ids : List Id} {ns : List Node}

/-! ## Changing a permutation -/

/-- A permutation can be redirected where new images are free. -/
theorem exists_extension (f : Equiv.Perm Id) (k : Id → Id) (xs kept : List Id)
    (hxs : (xs.map k).Nodup) (hkept : ∀ i ∈ kept, i ∉ xs) (himages : ∀ i ∈ kept, f i ∉ xs.map k) :
    ∃ f' : Equiv.Perm Id, (∀ i ∈ kept, f' i = f i) ∧ ∀ i ∈ xs, f' i = k i := by
  induction xs generalizing f kept with
  | nil => exact ⟨f, fun _ _ => rfl, forall_mem_nil _⟩
  | cons x xs ih =>
    rw [map_cons, nodup_cons] at hxs
    have hother : ∀ i ∈ kept, i ∉ xs ∧ f i ∉ xs.map k := by
      intro i hi
      exact ⟨fun hmem => hkept i hi (mem_cons_of_mem _ hmem), fun hmem => himages i hi
        (mem_cons_of_mem _ hmem)⟩
    -- `x` is redirected first; what had its new image before takes the old one.
    let f₁ : Equiv.Perm Id := f.trans (Equiv.swap (f x) (k x))
    have hfirst : f₁ x = k x := Equiv.swap_apply_left _ _
    have hsame : ∀ i ∈ kept, f₁ i = f i := by
      intro i hi
      apply Equiv.swap_apply_of_ne_of_ne
      · intro heq
        exact hkept i hi (f.injective heq ▸ mem_cons_self)
      · intro heq
        exact himages i hi (heq ▸ mem_cons_self)
    obtain ⟨f', hold, hnew⟩ := ih f₁ (x :: kept) hxs.2
      (forall_mem_cons.2 ⟨fun hmem => hxs.1 (mem_map_of_mem hmem), fun i hi => (hother i hi).1⟩)
      (forall_mem_cons.2 ⟨by rw [hfirst]; exact hxs.1, fun i hi => by
        rw [hsame i hi]
        exact (hother i hi).2⟩)
    rw [forall_mem_cons] at hold
    refine ⟨f', fun i hi => ?_, forall_mem_cons.2 ⟨hold.1.trans hfirst, hnew⟩⟩
    rw [hold.2 i hi, hsame i hi]

/-! ## Nodes and edges -/

section MapIds

variable {f f' : Id → Id}

theorem EdgeLabel.mapIds_congr {label : EdgeLabel} (h : ∀ i ∈ label.refs, f' i = f i) :
    label.mapIds f' = label.mapIds f := by
  cases label with
  | plain sort => rfl
  | flow sort loop | dependence sort var carrier => rw [mapIds, mapIds, option_map_congr h]

theorem EdgeLabel.refs_mapIds (label : EdgeLabel) : (label.mapIds f).refs = label.refs.map f := by
  cases label with
  | plain sort => rfl
  | flow sort loop => cases loop <;> rfl
  | dependence sort var carrier => cases carrier <;> rfl

namespace Node

def mentions (n : Node) : List Id :=
  n.id :: n.payload.refs

@[simp] theorem mapIds_id (n : Node) : (n.mapIds f).id = f n.id := rfl
@[simp] theorem mapIds_sort (n : Node) : (n.mapIds f).sort = n.sort := rfl
@[simp] theorem mapIds_element (n : Node) : (n.mapIds f).element = n.element := rfl
@[simp] theorem mapIds_payload (n : Node) : (n.mapIds f).payload = n.payload.mapIds f := rfl
@[simp] theorem mapIds_defs (n : Node) : (n.mapIds f).defs = n.defs := rfl
@[simp] theorem mapIds_uses (n : Node) : (n.mapIds f).uses = n.uses := rfl

theorem mapIds_congr (h : ∀ i ∈ n.mentions, f' i = f i) : n.mapIds f' = n.mapIds f := by
  rw [mentions, forall_mem_cons] at h
  rw [mapIds, mapIds, h.1, Payload.mapIds_congr h.2]

theorem mentions_mapIds (n : Node) : (n.mapIds f).mentions = n.mentions.map f := by
  rw [mentions, mapIds_payload, Payload.refs_mapIds]
  rfl

end Node

namespace Edge

def mentions (e : Edge) : List Id :=
  e.id :: e.src :: e.dst :: e.label.refs

@[simp] theorem mapIds_id (e : Edge) : (e.mapIds f).id = f e.id := rfl
@[simp] theorem mapIds_src (e : Edge) : (e.mapIds f).src = f e.src := rfl
@[simp] theorem mapIds_dst (e : Edge) : (e.mapIds f).dst = f e.dst := rfl

@[simp] theorem mapIds_dependenceSort? (e : Edge) : (e.mapIds f).dependenceSort? = e.dependenceSort? := by
  obtain ⟨_, _, _, _ | _ | _⟩ := e <;> rfl

@[simp] theorem mapIds_isSort (e : Edge) (s : DependenceSort) : (e.mapIds f).isSort s = e.isSort s := by
  rw [isSort, isSort, mapIds_dependenceSort?]

theorem mapIds_congr {e : Edge} (h : ∀ i ∈ e.mentions, f' i = f i) : e.mapIds f' = e.mapIds f := by
  simp only [mentions, forall_mem_cons] at h
  rw [mapIds, mapIds, h.1, h.2.1, h.2.2.1, EdgeLabel.mapIds_congr h.2.2.2]

theorem mentions_mapIds (e : Edge) : (e.mapIds f).mentions = e.mentions.map f := by
  rw [mentions, show (e.mapIds f).label = e.label.mapIds f from rfl, EdgeLabel.refs_mapIds]
  rfl

end Edge

def Block.mentions (b : Block) : List Id :=
  b.leader :: b.nodes

theorem Block.mapIds_congr {b : Block} (h : ∀ i ∈ b.mentions, f' i = f i) : b.mapIds f' = b.mapIds f := by
  rw [mentions, forall_mem_cons] at h
  rw [mapIds, mapIds, h.1, map_congr_left h.2]

end MapIds

theorem flatMap_subset {α : Type} {mentions : α → List Id} {xs : List α}
    (h : ∀ x ∈ xs, mentions x ⊆ ids) : xs.flatMap mentions ⊆ ids :=
  fun _ hi => forall_mem_flatMap.2 (fun x hx _ hmem => h x hx hmem) _ hi

/-! ## Graphs -/

namespace Graph

def mentions (g : Graph) : List Id :=
  g.nodes.flatMap Node.mentions ++ g.edges.flatMap Edge.mentions

/-- One graph is another one under other ids: the same nodes and the same edges in the same order. -/
structure Image (f : Id → Id) (g g' : Graph) : Prop where
  frame_eq : g'.frame = g.frame
  nodes_eq : g'.nodes = g.nodes.map (mapIds f)
  edges_eq : g'.edges = g.edges.map (Edge.mapIds f)

variable {g k : Graph}

theorem mentions_node (hn : n ∈ g.nodes) : n.mentions ⊆ g.mentions := by
  intro i hi
  exact mem_append_left _ (mem_flatMap.2 ⟨n, hn, hi⟩)

theorem nodeIds_subset_mentions (g : Graph) : g.nodeIds ⊆ g.mentions := by
  intro i hi
  obtain ⟨n, hn, rfl⟩ := mem_map.1 hi
  exact mentions_node hn mem_cons_self

theorem mentions_edge {e : Edge} (he : e ∈ g.edges) : e.mentions ⊆ g.mentions := by
  intro i hi
  exact mem_append_right _ (mem_flatMap.2 ⟨e, he, hi⟩)

theorem frame_addNode {answer : Bool} (hadd : g.addNode n = .ok (k, answer)) : k.frame = g.frame := by
  rcases addNode_cases hadd with rfl | ⟨-, rfl⟩
  · rfl
  · rfl

theorem frame_addEdge {e : Edge} {answer : Bool} (hadd : g.addEdge e = .ok (k, answer)) :
    k.frame = g.frame := by
  rcases addEdge_cases hadd with rfl | ⟨-, rfl⟩
  · rfl
  · rfl

theorem frame_merge {other : Graph} (hmerge : g.merge other = .ok k) : k.frame = g.frame :=
  merge_keeps (K := fun k => k.frame = g.frame) (fun hk hadd => (frame_addNode hadd).trans hk)
    (fun hk hadd => (frame_addEdge hadd).trans hk) rfl hmerge

namespace Image

variable {f f' : Id → Id} {g g' : Graph} (h : Image f g g')
include h

/-- Only the ids that are mentioned matter. -/
theorem congr (hsame : ∀ i ∈ g.mentions, f' i = f i) : Image f' g g' where
  frame_eq := h.frame_eq
  nodes_eq := by
    rw [h.nodes_eq]
    apply map_congr_left
    intro n hn
    exact (mapIds_congr fun i hi => hsame i (mentions_node hn hi)).symm
  edges_eq := by
    rw [h.edges_eq]
    apply map_congr_left
    intro e he
    exact (Edge.mapIds_congr fun i hi => hsame i (mentions_edge he hi)).symm

theorem mentions_eq : g'.mentions = g.mentions.map f := by
  rw [mentions, mentions, h.nodes_eq, h.edges_eq, map_append, flatMap_map, flatMap_map, map_flatMap,
    map_flatMap]
  simp only [Node.mentions_mapIds, Edge.mentions_mapIds]

theorem nodeIds_eq : g'.nodeIds = g.nodeIds.map f := by
  rw [nodeIds, nodeIds, h.nodes_eq, map_map, map_map]
  rfl

theorem callNodes_eq : g'.callNodes = g.callNodes.map (mapIds f) := by
  rw [callNodes, h.nodes_eq, filter_map]
  rfl

theorem node?_eq (hf : Function.Injective f) (i : Id) :
    g'.node? (f i) = (g.node? i).map (mapIds f) := by
  rw [node?, node?, h.nodes_eq, find?_map]
  simp only [Function.comp_def, mapIds_id, hf.eq_iff]

theorem getNode_eq (hf : Function.Injective f) {i : Id}
    (hn : g.getNode i = .ok n) : g'.getNode (f i) = .ok (n.mapIds f) ∧ n ∈ g.nodes := by
  unfold getNode at hn ⊢
  rw [h.node?_eq hf]
  cases hfind : g.node? i with
  | none =>
    rw [hfind] at hn
    cases hn
  | some m =>
    rw [hfind] at hn
    cases hn
    exact ⟨rfl, mem_of_find?_eq_some hfind⟩

theorem mapM_getNode_eq (hf : Function.Injective f) (hns : ids.mapM g.getNode = .ok ns) :
    (ids.map f).mapM g'.getNode = .ok (ns.map (mapIds f)) ∧ ns ⊆ g.nodes := by
  induction ids generalizing ns with
  | nil =>
    cases hns
    exact ⟨rfl, nil_subset _⟩
  | cons i ids ih =>
    rw [mapM_cons] at hns
    cases hn : g.getNode i with
    | error e =>
      rw [hn] at hns
      cases hns
    | ok n =>
      cases hrest : ids.mapM g.getNode with
      | error e =>
        rw [hn, hrest] at hns
        cases hns
      | ok ms =>
        rw [hn, hrest] at hns
        cases hns
        obtain ⟨hget, hmem⟩ := h.getNode_eq hf hn
        obtain ⟨hmap, hsub⟩ := ih hrest
        refine ⟨?_, cons_subset.2 ⟨hmem, hsub⟩⟩
        rw [map_cons, mapM_cons, hget, hmap]
        rfl

variable (hf : Function.Injective f) (hg : g.Coherent) (hg' : g'.Coherent)
include hf hg hg'

theorem edgesOutOf_eq (i : Id) : g'.edgesOutOf (f i) = (g.edgesOutOf i).map (Edge.mapIds f) := by
  rw [hg'.edgesOutOf_eq, hg.edgesOutOf_eq, h.edges_eq]
  exact filter_map_eq (fun e => by simp only [Edge.mapIds_src, hf.eq_iff]) g.edges

theorem edgesInto_eq (i : Id) : g'.edgesInto (f i) = (g.edgesInto i).map (Edge.mapIds f) := by
  rw [hg'.edgesInto_eq, hg.edgesInto_eq, h.edges_eq]
  exact filter_map_eq (fun e => by simp only [Edge.mapIds_dst, hf.eq_iff]) g.edges

theorem neighbours_eq {ok : Edge → Bool} (hok : ∀ e, ok (e.mapIds f) = ok e)
    (i : Id) : g'.neighbours false ok (f i) = (g.neighbours false ok i).map f := by
  simp only [neighbours, Bool.false_eq_true, if_false]
  rw [h.edgesInto_eq hf hg hg', filter_map, show ok ∘ Edge.mapIds f = ok from funext hok, map_map,
    map_map]
  rfl

end Image

end Graph

/-! ## Flow graphs and dependence graphs -/

namespace Cfg

def mentions (c : Cfg) : List Id :=
  c.entry.mentions ++ (c.exit.mentions ++ (c.toGraph.mentions ++ (c.blocks.getD []).flatMap Block.mentions))

/-- One flow graph is another one under other ids. -/
structure Image (f : Id → Id) (c c' : Cfg) : Prop extends Graph.Image f c.toGraph c'.toGraph where
  name_eq : c'.name = c.name
  entry_eq : c'.entry = c.entry.mapIds f
  exit_eq : c'.exit = c.exit.mapIds f
  unresolved_eq : c'.unresolved = c.unresolved
  numbering_eq : c'.numbering = c.numbering
  blocks_eq : c'.blocks = c.blocks.map (List.map (Block.mapIds f))

namespace Image

variable {f f' : Id → Id} {c c' : Cfg}

theorem congr (h : Image f c c') (hsame : ∀ i ∈ c.mentions, f' i = f i) : Image f' c c' := by
  simp only [Cfg.mentions, forall_mem_append] at hsame
  obtain ⟨hentry, hexit, hgraph, hblocks⟩ := hsame
  refine ⟨h.toImage.congr hgraph, h.name_eq, ?_, ?_, h.unresolved_eq, h.numbering_eq, ?_⟩
  · rw [h.entry_eq, mapIds_congr hentry]
  · rw [h.exit_eq, mapIds_congr hexit]
  · rw [h.blocks_eq]
    cases hc : c.blocks with
    | none => rfl
    | some bs =>
      rw [hc, forall_mem_flatMap] at hblocks
      exact congrArg some (map_congr_left fun b hb => (Block.mapIds_congr (hblocks b hb)).symm)

theorem mentions_eq (h : Image f c c') : c'.mentions = c.mentions.map f := by
  have hblocks : (c'.blocks.getD []).flatMap Block.mentions =
      ((c.blocks.getD []).flatMap Block.mentions).map f := by
    rw [h.blocks_eq]
    cases c.blocks with
    | none => rfl
    | some bs =>
      simp only [Option.map_some, Option.getD_some, flatMap_map, map_flatMap]
      rfl
  rw [Cfg.mentions, Cfg.mentions, h.entry_eq, h.exit_eq, h.toImage.mentions_eq, hblocks, mentions_mapIds,
    mentions_mapIds, map_append, map_append, map_append]

variable {a a' : Option Cfg} (h : Option.Rel (Image f) a a')

include h

theorem optional_congr (hsame : ∀ i ∈ (a.map Cfg.mentions).getD [], f' i = f i) :
    Option.Rel (Image f') a a' := by
  cases h with
  | none => exact .none
  | some himage => exact .some (himage.congr hsame)

theorem optional_mentions :
    (a'.map Cfg.mentions).getD [] = ((a.map Cfg.mentions).getD []).map f := by
  cases h with
  | none => rfl
  | some himage => exact himage.mentions_eq

end Image

end Cfg

namespace Pdg

/-- The ids that a dependence graph mentions, those of its flow graph included. -/
def mentions (d : Pdg) : List Id :=
  d.entry.mentions ++ (d.toGraph.mentions ++ (d.cfg.map Cfg.mentions).getD [])

/-- One dependence graph is another one under other ids, and so is its flow graph. -/
structure Image (f : Id → Id) (d d' : Pdg) : Prop extends Graph.Image f d.toGraph d'.toGraph where
  entry_eq : d'.entry = d.entry.mapIds f
  name_eq : d'.name = d.name
  cfg : Option.Rel (Cfg.Image f) d.cfg d'.cfg

theorem mentions_graph (d : Pdg) : d.toGraph.mentions ⊆ d.mentions := by
  intro i hi
  exact mem_append_right _ (mem_append_left _ hi)

namespace Image

variable {f f' : Id → Id} {d d' : Pdg}

theorem congr (h : Image f d d') (hsame : ∀ i ∈ d.mentions, f' i = f i) : Image f' d d' := by
  simp only [Pdg.mentions, forall_mem_append] at hsame
  obtain ⟨hentry, hgraph, hcfg⟩ := hsame
  refine ⟨h.toImage.congr hgraph, ?_, h.name_eq, Cfg.Image.optional_congr h.cfg hcfg⟩
  rw [h.entry_eq, mapIds_congr hentry]

theorem mentions_eq (h : Image f d d') : d'.mentions = d.mentions.map f := by
  rw [Pdg.mentions, Pdg.mentions, h.entry_eq, h.toImage.mentions_eq, Cfg.Image.optional_mentions h.cfg,
    mentions_mapIds, map_append, map_append]

theorem key_eq (h : Image f d d') (P : Program) : d'.key P = d.key P := by
  rw [key, h.entry_eq, h.name_eq]
  rfl

variable (hf : Function.Injective f)
include hf

variable (h : Image f d d')

include h

theorem formalIns_eq (hns : d.formalIns = .ok ns) :
    d'.formalIns = .ok (ns.map (mapIds f)) ∧ ns ⊆ d.nodes := by
  unfold formalIns at hns ⊢
  rw [h.entry_eq, mapIds_payload]
  cases hpayload : d.entry.payload with
  | entry ins outs =>
    rw [hpayload] at hns
    exact h.toImage.mapM_getNode_eq hf hns
  | _ =>
    rw [hpayload] at hns
    cases hns

theorem formalOuts_eq (hns : d.formalOuts = .ok ns) :
    d'.formalOuts = .ok (ns.map (mapIds f)) ∧ ns ⊆ d.nodes := by
  unfold formalOuts at hns ⊢
  rw [h.entry_eq, mapIds_payload]
  cases hpayload : d.entry.payload with
  | entry ins outs =>
    rw [hpayload] at hns
    exact h.toImage.mapM_getNode_eq hf hns
  | _ =>
    rw [hpayload] at hns
    cases hns

theorem actualIns_eq {call : Node} (hns : d.actualIns call = .ok ns) :
    d'.actualIns (call.mapIds f) = .ok (ns.map (mapIds f)) ∧ ns ⊆ d.nodes := by
  unfold actualIns at hns ⊢
  rw [mapIds_payload]
  cases hpayload : call.payload with
  | call m ins outs x =>
    rw [hpayload] at hns
    exact h.toImage.mapM_getNode_eq hf hns
  | _ =>
    rw [hpayload] at hns
    cases hns

theorem findResult_eq {r : Option Node} (hr : d.findResult ids = .ok r) :
    d'.findResult (ids.map f) = .ok (r.map (mapIds f)) ∧ ∀ n ∈ r, n ∈ d.nodes := by
  induction ids with
  | nil =>
    cases hr
    exact ⟨rfl, by simp⟩
  | cons i ids ih =>
    rw [findResult] at hr
    rw [map_cons, findResult]
    cases hn : d.getNode i with
    | error e =>
      rw [hn] at hr
      cases hr
    | ok n =>
      obtain ⟨hget, hmem⟩ := h.toImage.getNode_eq hf hn
      simp only [hn, hget, bind, Except.bind, mapIds_payload] at hr ⊢
      cases hpayload : n.payload with
      | parameter ordinal owner =>
        rw [hpayload] at hr
        cases ordinal with
        | result =>
          cases hr
          exact ⟨rfl, fun m hm => Option.some.inj hm ▸ hmem⟩
        | _ => exact ih hr
      | _ =>
        rw [hpayload] at hr
        cases hr

theorem returnActualOut_eq {call : Node} {r : Option Node} (hr : d.returnActualOut call = .ok r) :
    d'.returnActualOut (call.mapIds f) = .ok (r.map (mapIds f)) ∧ ∀ n ∈ r, n ∈ d.nodes := by
  unfold returnActualOut at hr ⊢
  rw [mapIds_payload]
  cases hpayload : call.payload with
  | call m ins outs x =>
    rw [hpayload] at hr
    exact h.findResult_eq hf hr
  | _ =>
    rw [hpayload] at hr
    cases hr

end Image

end Pdg

end ProgramDependence
