import ProgramDependence.Proofs.ControlEdges

/-!
# Control dependence under new ids

Post-dominators, and the control dependences that are read off them, do not depend on ids but on
their order. So the control dependences of a renamed flow graph are those of the flow graph, renamed
and in the same order.
-/

namespace ProgramDependence

open List Graph

/-! ## Lists -/

section Lists

variable {α β : Type} {f : α → β}

theorem contains_map [DecidableEq α] [DecidableEq β] (hf : ∀ {x y}, f x = f y ↔ x = y) (xs : List α)
    (x : α) : (xs.map f).contains (f x) = xs.contains x := by
  rw [Bool.eq_iff_iff, contains_iff_mem, contains_iff_mem]
  exact Search.mem_map_iff hf

theorem filter_map_eq {p : α → Bool} {q : β → Bool} (h : ∀ x, q (f x) = p x) (xs : List α) :
    (xs.map f).filter q = (xs.filter p).map f := by
  rw [filter_map, show q ∘ f = p from funext h]

theorem filter_ne_map [DecidableEq α] [DecidableEq β] (hf : ∀ {x y}, f x = f y ↔ x = y) (x : α)
    (xs : List α) : (xs.map f).filter (· ≠ f x) = (xs.filter (· ≠ x)).map f := by
  apply filter_map_eq
  intro y
  simp only [ne_eq, hf]

section

variable {le : α → α → Bool} {le' : β → β → Bool} (h : ∀ x y, le' (f x) (f y) = le x y)

include h

theorem insertSorted_map (x : α) (xs : List α) :
    insertSorted le' (f x) (xs.map f) = (insertSorted le x xs).map f := by
  induction xs with
  | nil => rfl
  | cons y ys ih =>
    rw [map_cons, insertSorted, insertSorted, h, ih]
    split
    · rfl
    · rfl

theorem sortWith_map (xs : List α) : sortWith le' (xs.map f) = (sortWith le xs).map f := by
  induction xs with
  | nil => rfl
  | cons x xs ih => rw [map_cons, sortWith, sortWith, ih, insertSorted_map h]

end

theorem sortBy_map {key : α → Int} {key' : β → Int} (h : ∀ x y, key' (f x) ≤ key' (f y) ↔ key x ≤ key y)
    (xs : List α) : sortBy key' (xs.map f) = (sortBy key xs).map f := by
  apply sortWith_map
  intro x y
  simp only [h]

theorem sortByTwo_map {first second : α → Int} {first' second' : β → Int}
    (hfirst : ∀ x, first' (f x) = first x)
    (hsecond : ∀ x y, second' (f x) ≤ second' (f y) ↔ second x ≤ second y) (xs : List α) :
    sortByTwo first' second' (xs.map f) = (sortByTwo first second xs).map f := by
  apply sortWith_map
  intro x y
  simp only [hfirst, hsecond]

/-- A search reaches the new names of what it reached. -/
theorem Search.reach_map [DecidableEq α] [DecidableEq β] (hf : ∀ {x y}, f x = f y ↔ x = y) {next : α → List α}
    {next' : β → List β} (hnext : ∀ x, next' (f x) = (next x).map f) (bound : Nat)
    (starts : List α) : reach next' bound (starts.map f) = (reach next bound starts).map f := by
  have hfresh : fresh [] (starts.map f) = (fresh [] starts).map f := fresh_map hf [] starts
  have hrun := run_map hf .queue hnext ((fresh [] starts).length + bound) (fresh [] starts)
    (fresh [] starts) []
  rw [reach, hfresh, length_map]
  exact congrArg Trace.found hrun

end Lists

namespace Findings

variable {α β γ δ : Type}

/-- Findings with something done to each of them. -/
def map (f : α → β) (a : Findings α) : Findings β :=
  { found := a.found.map f, fault := a.fault }

variable {f : α → β}

theorem found_map (a : Findings α) : (a.map f).found = a.found.map f := rfl

theorem map_ofList (xs : List α) : ofList (xs.map f) = (ofList xs).map f := rfl

theorem map_require (ok : Bool) : (require ok : Findings β) = (require ok : Findings α).map f := by
  cases ok with
  | true => rfl
  | false => rfl

theorem map_append (a b : Findings α) : (a ++ b).map f = a.map f ++ b.map f := by
  obtain ⟨found, fault⟩ := a
  cases fault with
  | some e => rfl
  | none =>
    change (⟨(found ++ b.found).map f, b.fault⟩ : Findings β) = ⟨found.map f ++ b.found.map f, b.fault⟩
    rw [List.map_append]

theorem overAll_map {k : γ → δ} {g : γ → Findings α} {g' : δ → Findings β} (h : ∀ x, g' (k x) = (g x).map f)
    (xs : List γ) : overAll g' (xs.map k) = (overAll g xs).map f := by
  induction xs with
  | nil => rfl
  | cons x xs ih => rw [map_cons, overAll, overAll, h, ih, map_append]

theorem select_map {s : List α → List α} {s' : List β → List β} (h : ∀ xs, s' (xs.map f) = (s xs).map f)
    (a : Findings α) : (a.map f).select s' = (a.select s).map f := by
  simp only [select, map, h]

end Findings

/-! ## Post-dominators -/

namespace Cfg.Renamed

variable {ρ : Renaming} {c c' : Cfg}

section

variable (h : Renamed ρ c c')
include h

theorem node?_eq (i : Id) : c'.node? (ρ.node i) = (c.node? i).map (·.rename ρ) := by
  simp [node?, h.nodes_eq, Function.comp_def]

theorem nodeIds_eq : c'.nodeIds = c.nodeIds.map ρ.node := by
  simp [nodeIds, h.nodes_eq]

theorem callNodes_eq : c'.callNodes = c.callNodes.map (·.rename ρ) := by
  simp [callNodes, h.nodes_eq, filter_map, Function.comp_def]

theorem entry_id : c'.entry.id = ρ.node c.entry.id := by
  rw [h.entry_eq, Node.rename_id]

theorem exit_id : c'.exit.id = ρ.node c.exit.id := by
  rw [h.exit_eq, Node.rename_id]

theorem isBranch_eq (i : Id) : c'.isBranch (ρ.node i) = c.isBranch i := by
  rw [isBranch, isBranch, outDegree, outDegree, h.edgesOutOf_eq, length_map]

/-- The arcs of a renamed graph are those of the graph, renamed. -/
theorem arcs_eq : (c'.toDigraph true fun _ => true).arcs =
    (c.toDigraph true fun _ => true).arcs.map (Prod.map ρ.node ρ.node) := by
  have hinj {x y : Id × Id} : Prod.map ρ.node ρ.node x = Prod.map ρ.node ρ.node y ↔ x = y := by
    simp [Prod.ext_iff, ρ.node_inj]
  simp only [toDigraph, filter_true, if_true]
  rw [h.edges_eq, ← Search.fresh_map hinj [], map_map, map_map]
  rfl

end

end Cfg.Renamed

namespace Digraph

variable {ρ : Renaming} {g g' : Digraph}

def renameCut (ρ : Renaming) (d : Id × List Id) : Id × List Id :=
  (ρ.node d.1, d.2.map ρ.node)

section

variable (h : g'.arcs = g.arcs.map (Prod.map ρ.node ρ.node))
include h

theorem successors_rename (n : Id) : g'.successors (ρ.node n) = (g.successors n).map ρ.node := by
  simp [successors, h, filter_map, Function.comp_def, ρ.node_inj]

theorem reach_rename (start : Id) : g'.reach (ρ.node start) = (g.reach start).map ρ.node := by
  rw [reach, h, length_map]
  exact Search.reach_map ρ.node_inj (successors_rename h) _ [start]

theorem reachAvoiding_rename (start avoid : Id) :
    g'.reachAvoiding (ρ.node start) (ρ.node avoid) = (g.reachAvoiding start avoid).map ρ.node := by
  have hnext : ∀ i, (g'.successors (ρ.node i)).filter (· ≠ ρ.node avoid) =
      ((g.successors i).filter (· ≠ avoid)).map ρ.node := by
    intro i
    rw [successors_rename h, filter_ne_map ρ.node_inj]
  rw [reachAvoiding, reachAvoiding, h, length_map]
  by_cases hstart : start = avoid
  · rw [if_pos hstart, if_pos (by rw [hstart])]
    rfl
  · rw [if_neg hstart, if_neg (mt ρ.node_inj.1 hstart)]
    exact Search.reach_map ρ.node_inj hnext _ [start]

theorem cuts_rename (start : Id) : g'.cuts (ρ.node start) = (g.cuts start).map (renameCut ρ) := by
  rw [cuts, cuts, reach_rename h, map_map, map_map]
  apply map_congr_left
  intro d _
  simp only [Function.comp_apply, reachAvoiding_rename h, renameCut]

end

theorem strictDominators_map (ρ : Renaming) (ds : List (Id × List Id)) (n : Id) :
    strictDominators (ds.map (renameCut ρ)) (ρ.node n) = (strictDominators ds n).map (renameCut ρ) := by
  rw [strictDominators, filter_map]
  congr 1
  apply filter_congr
  simp [renameCut]

theorem immediate?_map (ρ : Renaming) (ds : List (Id × List Id)) (n : Id) :
    immediate? (ds.map (renameCut ρ)) (ρ.node n) = (immediate? ds n).map ρ.node := by
  simp only [immediate?, strictDominators_map, find?_map, Option.map_map]
  have hsame : ((fun d => ((strictDominators ds n).map (renameCut ρ)).all fun e =>
      e.1 = d.1 || !e.2.contains d.1) ∘ renameCut ρ) =
      fun d => (strictDominators ds n).all fun e => e.1 = d.1 || !e.2.contains d.1 := by
    simp [renameCut, Function.comp_def]
  rw [hsame]
  rfl

/-- Dominators are renamed with their graph. -/
theorem immediateDominators_rename (h : g'.arcs = g.arcs.map (Prod.map ρ.node ρ.node)) (start : Id) :
    g'.immediateDominators (ρ.node start) = (g.immediateDominators start).rename ρ.node ρ.node := by
  rw [immediateDominators, immediateDominators, reach_rename h, cuts_rename h, filter_ne_map ρ.node_inj]
  simp only [Table.rename, map_cons]
  congr 2
  rw [filterMap_map, map_filterMap]
  apply filterMap_congr
  intro n _
  simp only [Function.comp_apply, immediate?_map, Option.map_map]
  rfl

end Digraph

theorem Cfg.Renamed.postDominatorTree_eq {ρ : Renaming} {c c' : Cfg} (h : Renamed ρ c c') :
    c'.postDominatorTree = c.postDominatorTree.rename ρ.node ρ.node := by
  rw [postDominatorTree, postDominatorTreeBy, h.exit_id, Digraph.immediateDominators_rename h.arcs_eq]
  simp only [postDominatorTree, postDominatorTreeBy, Table.rename, Table.erase]
  rw [filter_map]
  congr 2
  apply filter_congr
  simp [ρ.node_inj]

/-! ## Control dependences -/

/-- An edge apart from its id, with the other ids mapped. -/
def Edge.mapJoint (f : Id → Id) (j : Id × Id × EdgeLabel) : Id × Id × EdgeLabel :=
  (f j.1, f j.2.1, j.2.2.mapIds f)

namespace ControlDependence

open Cfg

def Link.rename (ρ : Renaming) (l : Link) : Link :=
  ⟨ρ.node l.src, ρ.node l.dst, l.sort⟩

variable {ρ : Renaming} {c c' : Cfg}

theorem Link.rename_inj {l l' : Link} : l.rename ρ = l'.rename ρ ↔ l = l' := by
  obtain ⟨src, dst, sort⟩ := l
  obtain ⟨src', dst', sort'⟩ := l'
  simp [rename]

theorem climb_map (tree : Table Id Id) (exit : Id) (stop : Option Id) (fuel : Nat) (n : Option Id) :
    climb (tree.rename ρ.node ρ.node) (ρ.node exit) (stop.map ρ.node) fuel (n.map ρ.node) =
      (climb tree exit stop fuel n).map ρ.node := by
  induction fuel generalizing n with
  | zero => rfl
  | succ fuel ih =>
    cases n with
    | none => rfl
    | some n =>
      have hstop : (some (ρ.node n) = stop.map ρ.node) ↔ some n = stop := by
        cases stop with
        | none => simp
        | some m => simp
      rw [Option.map_some, climb, climb, Table.find?_rename ρ.node_inj, ih]
      simp only [hstop, ρ.node_inj]
      split
      · rfl
      · rfl

theorem wayUp_eq (h : Renamed ρ c c') (tree : Table Id Id) (stop : Option Id) (n : Id) :
    wayUp c' (tree.rename ρ.node ρ.node) (stop.map ρ.node) (ρ.node n) = (wayUp c tree stop n).map ρ.node := by
  have hsize : (tree.rename ρ.node ρ.node).size = tree.size := length_map _
  rw [wayUp, h.exit_id, hsize]
  exact climb_map tree c.exit.id stop _ (some n)

theorem ofBranchEdge_eq (h : Renamed ρ c c') (tree : Table Id Id) (n : Id) (e : Edge) :
    ofBranchEdge c' (tree.rename ρ.node ρ.node) (ρ.node n) (e.rename ρ) =
      (ofBranchEdge c tree n e).map (Link.rename ρ) := by
  have hway := wayUp_eq h tree (tree.find? n) e.dst
  rw [← Table.find?_rename ρ.node_inj] at hway
  obtain ⟨id, src, dst, label⟩ := e
  cases label with
  | plain s | flow s loop =>
    simp only [ofBranchEdge, Edge.rename, hway, map_map]
    rw [← Findings.map_ofList, map_map]
    rfl
  | dependence s v w =>
    simp only [ofBranchEdge, Edge.rename, EdgeLabel.rename, EdgeLabel.mapIds, hway, isEmpty_map]
    split
    · rfl
    · rfl

theorem ofBranches_eq (h : Renamed ρ c c') (tree : Table Id Id) :
    ofBranches c' (tree.rename ρ.node ρ.node) = (ofBranches c tree).map (Link.rename ρ) := by
  have hfilter : (c'.nodeIds.filter fun n => n ≠ c'.entry.id && c'.isBranch n) =
      (c.nodeIds.filter fun n => n ≠ c.entry.id && c.isBranch n).map ρ.node := by
    rw [h.nodeIds_eq, h.entry_id, filter_map]
    simp [Function.comp_def, h.isBranch_eq]
  rw [ofBranches, hfilter]
  apply Findings.overAll_map
  intro n
  rw [h.edgesOutOf_eq]
  exact Findings.overAll_map (ofBranchEdge_eq h tree n) _

theorem ofCall_rename (call : Node) : ofCall (call.rename ρ) = (ofCall call).map (Link.rename ρ) := by
  unfold ofCall
  rw [Node.rename_payload]
  cases call.payload with
  | call m ins outs x =>
    simp only [Payload.rename, Payload.mapIds]
    rw [← Findings.map_ofList, ← List.map_append, map_map, map_map]
    rfl
  | _ => rfl

theorem ofEntry_eq (h : Renamed ρ c c') (tree : Table Id Id) :
    ofEntry c' (tree.rename ρ.node ρ.node) = (ofEntry c tree).map (Link.rename ρ) := by
  rw [ofEntry, ofEntry, h.entry_id, h.edgesOutOf_eq, flatMap_map, map_flatMap]
  apply flatMap_congr
  intro e _
  have hway := wayUp_eq h tree none e.dst
  rw [Edge.rename_dst, show wayUp c' (tree.rename ρ.node ρ.node) none (ρ.node e.dst) = _ from hway, map_map,
    map_map]
  rfl

theorem isKept_eq {g g' : Graph} (hids : g'.nodeIds = g.nodeIds.map ρ.node) (settings : Settings)
    (l : Link) : isKept settings g' (l.rename ρ) = isKept settings g l := by
  have hhas : ∀ i, g'.hasNode (ρ.node i) = g.hasNode i := by
    intro i
    rw [Bool.eq_iff_iff, hasNode_iff, hasNode_iff, hids]
    exact Search.mem_map_iff ρ.node_inj
  unfold isKept Link.rename
  simp only [hhas, ne_eq, ρ.node_inj]

/-- **The control dependences of a renamed flow graph are those of the graph, renamed.** -/
theorem structural_eq (h : Renamed ρ c c') {g g' : Graph} (hids : g'.nodeIds = g.nodeIds.map ρ.node)
    (settings : Settings) : structural settings g' c' = (structural settings g c).map (Link.rename ρ) := by
  have hselect : ∀ ls : List Link, Search.fresh [] ((ls.map (Link.rename ρ)).filter (isKept settings g')) =
      (Search.fresh [] (ls.filter (isKept settings g))).map (Link.rename ρ) := by
    intro ls
    have hkept : isKept settings g' ∘ .rename ρ = isKept settings g := funext (isKept_eq hids settings)
    rw [filter_map, hkept]
    exact Search.fresh_map Link.rename_inj [] _
  rw [structural, structural, h.postDominatorTree_eq, ofBranches_eq h, h.callNodes_eq,
    Findings.overAll_map ofCall_rename, ofEntry_eq h, Findings.map_ofList, ← Findings.map_append,
    ← Findings.map_append, Findings.select_map hselect]

theorem orphans_eq (h : Renamed ρ c c') {g g' : Graph} (hg : g.Coherent) (hg' : g'.Coherent)
    (hids : g'.nodeIds = g.nodeIds.map ρ.node) {ls : List Link}
    (hedges : g.edges.map Edge.joint = ls.map Link.joint)
    (hedges' : g'.edges.map Edge.joint = (ls.map (Link.rename ρ)).map Link.joint) (settings : Settings) :
    orphans settings g' c' (ls.map (Link.rename ρ)) = (orphans settings g c ls).map (Link.rename ρ) := by
  have hcontrolled : ∀ n, isControlled g' (ρ.node n) = isControlled g n := by
    intro n
    rw [Bool.eq_iff_iff, isControlled_iff hg hedges, isControlled_iff hg' hedges']
    simp [Link.rename]
  have hleft : (g'.nodeIds.filter fun n => n ≠ c'.entry.id && !isControlled g' n) =
      (g.nodeIds.filter fun n => n ≠ c.entry.id && !isControlled g n).map ρ.node := by
    rw [hids, h.entry_id, filter_map]
    simp [Function.comp_def, hcontrolled]
  have hknown : ∀ l : Link, l.rename ρ ∈ ls.map (.rename ρ) ↔ l ∈ ls := by
    intro l
    exact Search.mem_map_iff Link.rename_inj
  have hlinks : ∀ ns : List Id, (ns.map ρ.node).map (fun n => (⟨c'.entry.id, n, .controlTrue⟩ : Link)) =
      (ns.map fun n => (⟨c.entry.id, n, .controlTrue⟩ : Link)).map (.rename ρ) := by
    intro ns
    rw [map_map, map_map, h.entry_id]
    rfl
  rw [orphans, hleft, hlinks, filter_map]
  congr 1
  apply filter_congr
  intro l _
  simp only [Function.comp_apply, isKept_eq hids, hknown]

end ControlDependence

end ProgramDependence
