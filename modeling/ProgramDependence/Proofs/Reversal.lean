import ProgramDependence.Proofs.Operations

/-!
# Graphs turned round

A graph that is turned round has the same nodes and, in the same order, its edges with their ends
exchanged.  The indices list the edges of a node in the order of all edges, whatever was removed and
put in again before; so every question about one direction has the answer, as a list, of the
question about the other direction, and a graph that is turned round twice is as it was
(`transposed_runCalls`).
-/

namespace ProgramDependence

open List

namespace Graph

variable {g : Graph}

theorem Coherent.foldl_appendNode (hg : g.Coherent) (ns : List Node)
    (hnodup : (g.nodeIds ++ ns.map (·.id)).Nodup) :
    (ns.foldl Graph.appendNode g).Coherent ∧ (ns.foldl Graph.appendNode g).nodes = g.nodes ++ ns ∧
      (ns.foldl Graph.appendNode g).edges = g.edges := by
  induction ns generalizing g with
  | nil => exact ⟨hg, by simp, rfl⟩
  | cons n ns ih =>
    have hn : n.id ∉ g.nodeIds := fun hmem => disjoint_of_nodup_append hnodup hmem mem_cons_self
    obtain ⟨hcoherent, hnodes, hedges⟩ := ih (hg.appendNode hn) (by simpa using hnodup)
    exact ⟨hcoherent, by simpa [Graph.appendNode] using hnodes, hedges⟩

theorem Coherent.foldl_appendEdge (hg : g.Coherent) (es : List Edge)
    (hnodup : ((g.edges ++ es).map (·.id)).Nodup)
    (hends : ∀ e ∈ es, e.src ∈ g.nodeIds ∧ e.dst ∈ g.nodeIds) : (es.foldl Graph.appendEdge g).Coherent ∧
      (es.foldl Graph.appendEdge g).nodes = g.nodes ∧
      (es.foldl Graph.appendEdge g).edges = g.edges ++ es := by
  induction es generalizing g with
  | nil => exact ⟨hg, rfl, by simp⟩
  | cons e es ih =>
    rw [forall_mem_cons] at hends
    have he : e.id ∉ g.edges.map (·.id) := fun hmem => by
      rw [map_append] at hnodup
      exact disjoint_of_nodup_append hnodup hmem mem_cons_self
    obtain ⟨hcoherent, hnodes, hedges⟩ := ih (hg.appendEdge he hends.1.1 hends.1.2)
      (by simpa [Graph.appendEdge] using hnodup) hends.2
    exact ⟨hcoherent, hnodes, by simpa [Graph.appendEdge] using hedges⟩

theorem Coherent.reverse (hg : g.Coherent) :
    g.reverse.Coherent ∧ g.reverse.nodes = g.nodes ∧ g.reverse.edges = g.edges.map Edge.reverse := by
  obtain ⟨hbare, hnodes, hedges⟩ := (coherent_empty .plain).foldl_appendNode g.nodes hg.nodup_nodes
  have hids : (g.nodes.foldl Graph.appendNode (empty .plain)).nodeIds = g.nodeIds :=
    congrArg (map Node.id) hnodes
  have hfold := hbare.foldl_appendEdge (g.edges.map Edge.reverse)
    (by rw [hedges, show (empty .plain).edges = [] from rfl, nil_append, map_map]; exact hg.nodup_edges)
    fun e he => by
      obtain ⟨f, hf, rfl⟩ := mem_map.1 he
      exact hids ▸ ⟨hg.dst_mem f hf, hg.src_mem f hf⟩
  rw [foldl_map, hnodes, hedges] at hfold
  exact hfold

/-- What holds of a graph and the same graph turned round. -/
structure Transposed (g : Graph) : Prop where
  nodes : g.reverse.reverse.nodes = g.nodes
  edges : g.reverse.reverse.edges = g.edges
  edgesOutOf : ∀ id, g.reverse.edgesOutOf id = (g.edgesInto id).map Edge.reverse
  successors : ∀ id, g.reverse.successors id = g.predecessors id
  outDegree : ∀ id, g.reverse.outDegree id = g.inDegree id
  reachableFrom : ∀ id ok,
    g.reverse.reachableFrom id true (fun e => ok e.reverse) = g.reachableFrom id false ok

theorem Coherent.transposed (hg : g.Coherent) : g.Transposed := by
  obtain ⟨hcoherent, hnodes, hedges⟩ := hg.reverse
  obtain ⟨-, hnodes', hedges'⟩ := hcoherent.reverse
  have hout : ∀ id, g.reverse.edgesOutOf id = (g.edgesInto id).map Edge.reverse := by
    intro id
    rw [hcoherent.edgesOutOf_eq, hedges, hg.edgesInto_eq, filter_map]
    rfl
  refine ⟨hnodes'.trans hnodes, ?_, hout, fun id => ?_, fun id => ?_, fun id ok => ?_⟩
  · rw [hedges', hedges, map_map]
    exact map_id _
  · rw [Graph.successors, hout, map_map]
    rfl
  · rw [Graph.outDegree, hout, length_map]
    rfl
  · -- Both searches have the same neighbours at every node and the same bound, so they go in step.
    have hnext : g.reverse.neighbours true (fun e => ok e.reverse) = g.neighbours false ok := by
      funext a
      simp only [neighbours, hout, filter_map, map_map, if_true, Bool.false_eq_true, if_false]
      rfl
    rw [Graph.reachableFrom, hnext, hedges, length_map]
    rfl

/-- **Turning round exchanges all directions**, and twice it changes nothing, whatever was called on
a graph. -/
theorem transposed_runCalls (kinds : Nat → GraphKind) (calls : List Call) (i : Nat) :
    Transposed (runCalls calls (fun i => empty (kinds i)) i) :=
  (coherent_runCalls calls (fun i => coherent_empty (kinds i)) i).transposed

end Graph

end ProgramDependence
