import ProgramDependence.Proofs.ControlEdges

/-!
# Assembled flow graphs

A flow graph is built from a unit of the source, or it is assembled by hand: it starts with its
ends, and then nodes and edges are added and removed, other graphs are merged into it, and nodes are
changed in place. Whatever is done, the graph stays coherent.
-/

namespace ProgramDependence

/-- A change of a graph by one of the operations of the kernel. -/
inductive Graph.Edit : Graph → Graph → Prop where
  | addNode {g h : Graph} {n : Node} {new : Bool} (done : g.addNode n = .ok (h, new)) : Edit g h
  | addEdge {g h : Graph} {e : Edge} {new : Bool} (done : g.addEdge e = .ok (h, new)) : Edit g h
  | removeNode {g h : Graph} {id : Id} {old : Bool} (done : g.removeNode id = .ok (h, old)) : Edit g h
  | removeEdge {g h : Graph} {id : Id} {old : Bool} (done : g.removeEdge id = .ok (h, old)) : Edit g h
  | merge {g h other : Graph} (done : g.merge other = .ok h) : Edit g h
  | freeze (g : Graph) : Edit g g.freeze

theorem Graph.Edit.coherent {g h : Graph} (edit : Graph.Edit g h) (hg : g.Coherent) : h.Coherent := by
  cases edit with
  | addNode done => exact hg.addNode done
  | addEdge done => exact hg.addEdge done
  | removeNode done => exact hg.removeNode done
  | removeEdge done => exact hg.removeEdge done
  | merge done => exact hg.merge done
  | freeze => exact hg.freeze

theorem Graph.Coherent.mapNodes {g : Graph} (hg : g.Coherent) {f : Node → Node}
    (hf : ∀ n, (f n).id = n.id) : Graph.Coherent { g with nodes := g.nodes.map f } := by
  refine hg.congr ?_ rfl rfl rfl
  rw [nodeIds, List.map_map]
  exact List.map_congr_left fun n _ => hf n

namespace Cfg

/-- The flow graphs there are: those that are built from units, and those that are assembled by
hand. -/
inductive Assembled : Cfg → Prop where
  | built {σ : Type} {context : Context} {unit : UnitRef} {c : Cfg} {p q : σ × Trail}
      (done : ((ofUnit context unit).run p : Except Error Cfg × σ × Trail) = (.ok c, q)) : Assembled c
  | ends (numbering : Nat) (entry exit : Node) (name : String) :
      Assembled (ofEnds numbering entry exit name)
  | edit {c : Cfg} {g : Graph} (start : Assembled c) (done : Graph.Edit c.toGraph g)
      (blocks : Option (List Block)) : Assembled { c with toGraph := g, blocks }
  | change {c : Cfg} (start : Assembled c) (f : Node → Node) (ids : ∀ n, (f n).id = n.id) :
      Assembled { c with
        toGraph := { c.toGraph with nodes := c.nodes.map f }
        entry := f c.entry
        exit := f c.exit }

theorem coherent_ofEnds (numbering : Nat) (entry exit : Node) (name : String) :
    (ofEnds numbering entry exit name).Coherent := by
  have hentry : ((Graph.empty .flow).appendNode entry).Coherent :=
    (Graph.coherent_empty _).appendNode (by simp [Graph.empty, Graph.nodeIds])
  unfold ofEnds
  dsimp only
  split
  · exact hentry
  · rename_i hexit
    exact hentry.appendNode fun hmem => hexit ((Graph.hasNode_iff _ _).2 hmem)

open Tracked in
theorem ends_ofUnit_coherent {σ : Type} (context : Context) (unit : UnitRef) (p : σ × Trail) :
    Ends (ofUnit context unit) p (fun c _ => c.Coherent) (fun _ _ => True) := by
  refine (ends_ofUnit context unit p).partly ?_
  rintro c _ ⟨-, u, hproper, -⟩
  exact hproper.coherent

/-- **Every flow graph is coherent.** -/
theorem Assembled.coherent {c : Cfg} (h : c.Assembled) : c.Coherent := by
  induction h with
  | built done => exact (Tracked.ends_iff_of_run done).1 (ends_ofUnit_coherent _ _ _)
  | ends numbering entry exit name => exact coherent_ofEnds numbering entry exit name
  | edit _ done _ ih => exact done.coherent ih
  | change _ f ids ih => exact ih.mapNodes ids

end Cfg

end ProgramDependence
