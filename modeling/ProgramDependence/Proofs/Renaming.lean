import ProgramDependence.Dependence.Pdg

/-!
# New ids in the old order

A `Renaming` gives nodes and edges new ids and keeps their order.  The queries of a graph answer for
the renamed graph as they do for the graph itself, and a change of the one is a change of the other.
-/

namespace ProgramDependence

open List

/-- New ids for nodes and for edges, in the order of the old ones. -/
structure Renaming where
  node : Id → Id
  edge : Id → Id
  node_lt : ∀ i j, i < j → node i < node j
  edge_lt : ∀ i j, i < j → edge i < edge j

namespace Renaming

theorem le_iff_of_lt {f : Id → Id} (hf : ∀ i j, i < j → f i < f j) (i j : Id) : f i ≤ f j ↔ i ≤ j := by
  have hij := hf i j
  have hji := hf j i
  grind

theorem node_le_iff (ρ : Renaming) {i j : Id} : ρ.node i ≤ ρ.node j ↔ i ≤ j :=
  le_iff_of_lt ρ.node_lt i j

theorem edge_le_iff (ρ : Renaming) {i j : Id} : ρ.edge i ≤ ρ.edge j ↔ i ≤ j :=
  le_iff_of_lt ρ.edge_lt i j

@[simp] theorem node_inj (ρ : Renaming) {i j : Id} : ρ.node i = ρ.node j ↔ i = j := by
  simp only [Int.le_antisymm_iff, ρ.node_le_iff]

@[simp] theorem edge_inj (ρ : Renaming) {i j : Id} : ρ.edge i = ρ.edge j ↔ i = j := by
  simp only [Int.le_antisymm_iff, ρ.edge_le_iff]

def shift (δ : Int) : Renaming where
  node := (· + δ)
  edge := (· + δ)
  node_lt _ _ h := Int.add_lt_add_right h δ
  edge_lt _ _ h := Int.add_lt_add_right h δ

end Renaming

/-! ## Nodes and edges -/

def Payload.mapIds (f : Id → Id) : Payload → Payload
  | .none => .none
  | .entry ins outs => .entry (ins.map f) (outs.map f)
  | .call m ins outs x => .call m (ins.map f) (outs.map f) x
  | .parameter ordinal owner => .parameter ordinal (f owner)
  | .merge branch => .merge (f branch)
  | .switch default => .switch (default.map f)
  | .tryCatch catches finallyPart => .tryCatch (catches.map f) (finallyPart.map f)

def Node.mapIds (f : Id → Id) (n : Node) : Node :=
  { n with id := f n.id, payload := n.payload.mapIds f }

/-- The meaning of an edge with the loop it names mapped. -/
def EdgeLabel.mapIds (f : Id → Id) : EdgeLabel → EdgeLabel
  | .plain sort => .plain sort
  | .flow sort loop => .flow sort (loop.map f)
  | .dependence sort var carrier => .dependence sort var (carrier.map f)

def Payload.rename (ρ : Renaming) (payload : Payload) : Payload :=
  payload.mapIds ρ.node

def Node.rename (ρ : Renaming) (n : Node) : Node :=
  n.mapIds ρ.node

/-- The meaning of an edge with the loop it names renamed. -/
def EdgeLabel.rename (ρ : Renaming) (label : EdgeLabel) : EdgeLabel :=
  label.mapIds ρ.node

/-- An edge under its new id, between the new ends. -/
def Edge.rename (ρ : Renaming) (e : Edge) : Edge :=
  ⟨ρ.edge e.id, ρ.node e.src, ρ.node e.dst, e.label.rename ρ⟩

namespace Node

variable (ρ : Renaming) (n : Node)

@[simp] theorem rename_id : (n.rename ρ).id = ρ.node n.id := rfl
@[simp] theorem rename_sort : (n.rename ρ).sort = n.sort := rfl
@[simp] theorem rename_element : (n.rename ρ).element = n.element := rfl
@[simp] theorem rename_payload : (n.rename ρ).payload = n.payload.rename ρ := rfl
@[simp] theorem rename_defs : (n.rename ρ).defs = n.defs := rfl
@[simp] theorem rename_uses : (n.rename ρ).uses = n.uses := rfl

theorem rename_addDef (v : Variable) : (n.rename ρ).addDef v = (n.addDef v).rename ρ := by
  unfold addDef
  rw [show (n.rename ρ).defines v = n.defines v from rfl]
  cases n.defines v <;> rfl

theorem rename_addUse (v : Variable) : (n.rename ρ).addUse v = (n.addUse v).rename ρ := by
  unfold addUse
  rw [show (n.rename ρ).usesVariable v = n.usesVariable v from rfl]
  cases n.usesVariable v <;> rfl

end Node

namespace Edge

variable (ρ : Renaming) (e : Edge)

@[simp] theorem rename_id : (e.rename ρ).id = ρ.edge e.id := rfl
@[simp] theorem rename_src : (e.rename ρ).src = ρ.node e.src := rfl
@[simp] theorem rename_dst : (e.rename ρ).dst = ρ.node e.dst := rfl

@[simp] theorem rename_flowSort? : (e.rename ρ).flowSort? = e.flowSort? := by
  obtain ⟨_, _, _, _ | _ | _⟩ := e <;> rfl

@[simp] theorem rename_loopBack? : (e.rename ρ).loopBack? = e.loopBack?.map ρ.node := by
  obtain ⟨_, _, _, _ | _ | _⟩ := e <;> rfl

@[simp] theorem rename_isFlow : (e.rename ρ).isFlow = e.isFlow := by
  obtain ⟨_, _, _, _ | _ | _⟩ := e <;> rfl

@[simp] theorem rename_isLoopBack : (e.rename ρ).isLoopBack = e.isLoopBack := by
  rw [isLoopBack, rename_loopBack?, Option.isSome_map]
  rfl

@[simp] theorem rename_isFallThrough : (e.rename ρ).isFallThrough = e.isFallThrough := by
  rw [isFallThrough, rename_flowSort?]
  rfl

@[simp] theorem rename_isStraight : (e.rename ρ).isStraight = e.isStraight := by
  rw [isStraight, rename_flowSort?]
  rfl

end Edge

/-- Where the first error says why a flow graph cannot be built, the second one says the same.
Other errors may name different ids. -/
def Error.Agrees (e e' : Error) : Prop :=
  ∀ unit fault, e = .construction unit fault → e' = e

/-! ## Tables and graphs -/

namespace Table

variable {κ κ' β β' : Type}

def rename (k : κ → κ') (v : β → β') (t : Table κ β) : Table κ' β' :=
  ⟨t.entries.map fun e => (k e.1, v e.2)⟩

variable [DecidableEq κ] [DecidableEq κ'] {k : κ → κ'} {v : β → β'}

variable (hk : ∀ {x y}, k x = k y ↔ x = y)

include hk

variable (t : Table κ β)

include t

theorem find?_rename (x : κ) :
    (t.rename k v).find? (k x) = (t.find? x).map v := by
  simp only [find?, rename, find?_map, Option.map_map]
  have hsame : ((fun e : κ' × β' => decide (e.1 = k x)) ∘ fun e : κ × β => (k e.1, v e.2)) =
      fun e => decide (e.1 = x) := by
    funext e
    simp [hk]
  rw [hsame]
  rfl

theorem contains_rename (x : κ) :
    (t.rename k v).contains (k x) = t.contains x := by
  simp [contains, rename, Function.comp_def, hk]

theorem modify_rename (x : κ) {f : β → β} {f' : β' → β'} (hf : ∀ b, f' (v b) = v (f b)) :
    (t.rename k v).modify (k x) f' = (t.modify x f).rename k v := by
  simp only [modify, rename, map_map]
  congr 1
  refine map_congr_left fun e _ => ?_
  by_cases h : e.1 = x
  · simp [h, hf]
  · simp [h, hk]

theorem insert_rename (x : κ) (b : β) :
    (t.rename k v).insert (k x) (v b) = (t.insert x b).rename k v := by
  unfold insert
  rw [contains_rename hk]
  split
  · exact modify_rename hk t x fun _ => rfl
  · simp [rename]

end Table

namespace Graph

def rename (ρ : Renaming) (g : Graph) : Graph :=
  { g with
    nodes := g.nodes.map (·.rename ρ)
    edges := g.edges.map (·.rename ρ)
    incoming := g.incoming.rename ρ.node (List.map (·.rename ρ))
    outgoing := g.outgoing.rename ρ.node (List.map (·.rename ρ)) }

variable (ρ : Renaming) (g : Graph)

theorem node?_rename (i : Id) : (g.rename ρ).node? (ρ.node i) = (g.node? i).map (·.rename ρ) := by
  simp [node?, rename, Function.comp_def]

theorem hasNode_rename (i : Id) : (g.rename ρ).hasNode (ρ.node i) = g.hasNode i := by
  simp [hasNode, rename, Function.comp_def]

theorem hasEdge_rename (i : Id) : (g.rename ρ).hasEdge (ρ.edge i) = g.hasEdge i := by
  simp [hasEdge, rename, Function.comp_def]

theorem edgesOutOf_rename (i : Id) :
    (g.rename ρ).edgesOutOf (ρ.node i) = (g.edgesOutOf i).map (·.rename ρ) := by
  rw [edgesOutOf, rename, Table.find?_rename ρ.node_inj, edgesOutOf]
  cases g.outgoing.find? i <;> rfl

theorem edgesInto_rename (i : Id) : (g.rename ρ).edgesInto (ρ.node i) = (g.edgesInto i).map (·.rename ρ) := by
  rw [edgesInto, rename, Table.find?_rename ρ.node_inj, edgesInto]
  cases g.incoming.find? i <;> rfl

theorem edgesBetween_rename (i j : Id) :
    (g.rename ρ).edgesBetween (ρ.node i) (ρ.node j) = (g.edgesBetween i j).map (·.rename ρ) := by
  rw [edgesBetween, edgesOutOf_rename, filter_map]
  simp [edgesBetween, Function.comp_def]

theorem appendNode_rename (n : Node) : (g.rename ρ).appendNode (n.rename ρ) = (g.appendNode n).rename ρ := by
  have hempty : ([] : List Edge) = List.map (.rename ρ) [] := rfl
  simp only [appendNode, rename, Node.rename_id, map_append]
  rw [hempty, Table.insert_rename ρ.node_inj, Table.insert_rename ρ.node_inj]
  rfl

theorem appendEdge_rename (e : Edge) : (g.rename ρ).appendEdge (e.rename ρ) = (g.appendEdge e).rename ρ := by
  have happend : ∀ es : List Edge, es.map (·.rename ρ) ++ [e.rename ρ] = (es ++ [e]).map (·.rename ρ) := by
    intro es
    rw [map_append]
    rfl
  simp only [appendEdge, rename, Edge.rename_src, Edge.rename_dst]
  rw [Table.modify_rename ρ.node_inj _ _ happend, Table.modify_rename ρ.node_inj _ _ happend, happend]

theorem modifyNode_rename (i : Id) {f f' : Node → Node} (hf : ∀ n, f' (n.rename ρ) = (f n).rename ρ) :
    (g.rename ρ).modifyNode (ρ.node i) f' = (g.modifyNode i f).rename ρ := by
  simp only [modifyNode, rename, map_map]
  congr 1
  refine map_congr_left fun n _ => ?_
  by_cases h : n.id = i
  · simp [h, hf]
  · simp [h]

/-- An edge is taken by both graphs or refused by both. -/
theorem addEdge_rename (e : Edge) :
    (∃ g' answer, g.addEdge e = .ok (g', answer) ∧
      (g.rename ρ).addEdge (e.rename ρ) = .ok (g'.rename ρ, answer)) ∨
      ∃ fault fault', g.addEdge e = .error fault ∧
        (g.rename ρ).addEdge (e.rename ρ) = .error fault' ∧ fault.Agrees fault' := by
  simp only [addEdge, checkMutable, Edge.rename_id, Edge.rename_src, Edge.rename_dst,
    hasEdge_rename, hasNode_rename, appendEdge_rename]
  rw [show (g.rename ρ).frozen = g.frozen from rfl]
  cases g.frozen with
  | true => exact .inr ⟨_, _, rfl, rfl, fun _ _ _ => rfl⟩
  | false =>
    cases g.hasEdge e.id with
    | true => exact .inl ⟨_, _, rfl, rfl⟩
    | false =>
      cases g.hasNode e.src && g.hasNode e.dst with
      | true => exact .inl ⟨_, _, rfl, rfl⟩
      | false => exact .inr ⟨_, _, rfl, rfl, fun _ _ h => Error.noConfusion h⟩

end Graph

/-! ## Searches -/

namespace Search

variable {α β : Type} {f : α → β}

theorem mem_map_iff (hf : ∀ {x y}, f x = f y ↔ x = y) {x : α} {xs : List α} : f x ∈ xs.map f ↔ x ∈ xs := by
  simp only [mem_map, hf, exists_eq_right]

theorem push_map (discipline : Discipline) (new todo : List α) :
    discipline.push (new.map f) (todo.map f) = (discipline.push new todo).map f := by
  cases discipline <;> simp [Discipline.push]

variable [DecidableEq α] [DecidableEq β]

theorem fresh_map (hf : ∀ {x y}, f x = f y ↔ x = y) (seen xs : List α) :
    fresh (seen.map f) (xs.map f) = (fresh seen xs).map f := by
  induction xs generalizing seen with
  | nil => rfl
  | cons x xs ih =>
    simp only [map_cons, fresh, mem_map_iff hf]
    split
    · exact ih seen
    · rw [← map_cons, ih (x :: seen)]
      rfl

/-- A search under new names meets the same things in order. -/
theorem run_map (hf : ∀ {x y}, f x = f y ↔ x = y) (discipline : Discipline) {next : α → List α}
    {next' : β → List β} (hnext : ∀ x, next' (f x) = (next x).map f) (fuel : Nat)
    (todo found visited : List α) : run discipline next' fuel (todo.map f) (found.map f) (visited.map f) =
      ⟨(run discipline next fuel todo found visited).found.map f,
        (run discipline next fuel todo found visited).visited.map f⟩ := by
  induction fuel generalizing todo found visited with
  | zero => rfl
  | succ fuel ih =>
    cases todo with
    | nil => rfl
    | cons x todo =>
      have hvisited : visited.map f ++ [f x] = (visited ++ [x]).map f := by simp
      simp only [map_cons, run, hnext, fresh_map hf, push_map, ← map_append, hvisited]
      exact ih _ _ _

end Search

/-! ## Flow graphs -/

def Block.mapIds (f : Id → Id) (b : Block) : Block :=
  { b with leader := f b.leader, nodes := b.nodes.map f }

def Block.rename (ρ : Renaming) (b : Block) : Block :=
  b.mapIds ρ.node

namespace Cfg

def rename (ρ : Renaming) (c : Cfg) : Cfg :=
  { c with
    toGraph := c.toGraph.rename ρ
    entry := c.entry.rename ρ
    exit := c.exit.rename ρ
    blocks := c.blocks.map (List.map (·.rename ρ)) }

/-- A flow graph is another one under new ids, as far as it can be asked. -/
structure Renamed (ρ : Renaming) (c c' : Cfg) : Prop where
  nodes_eq : c'.nodes = c.nodes.map (·.rename ρ)
  edges_eq : c'.edges = c.edges.map (·.rename ρ)
  edgesOutOf_eq : ∀ i, c'.edgesOutOf (ρ.node i) = (c.edgesOutOf i).map (·.rename ρ)
  edgesInto_eq : ∀ i, c'.edgesInto (ρ.node i) = (c.edgesInto i).map (·.rename ρ)
  entry_eq : c'.entry = c.entry.rename ρ
  exit_eq : c'.exit = c.exit.rename ρ

theorem renamed_rename (ρ : Renaming) (c : Cfg) : Renamed ρ c (c.rename ρ) :=
  ⟨rfl, rfl, c.toGraph.edgesOutOf_rename ρ, c.toGraph.edgesInto_rename ρ, rfl, rfl⟩

namespace Renamed

variable {ρ : Renaming} {c c' : Cfg}

theorem neighbours_eq (h : Renamed ρ c c') (forward : Bool) {ok ok' : Edge → Bool}
    (hok : ∀ e, ok' (e.rename ρ) = ok e) (i : Id) :
    c'.neighbours forward ok' (ρ.node i) = (c.neighbours forward ok i).map ρ.node := by
  have hcomp : ok' ∘ .rename ρ = ok := funext hok
  cases forward with
  | true => simp [Graph.neighbours, h.edgesOutOf_eq, filter_map, hcomp]
  | false => simp [Graph.neighbours, h.edgesInto_eq, filter_map, hcomp]

theorem reachable_eq (h : Renamed ρ c c') (start : Id) (forward loopBack : Bool)
    (stop : Option Id) : c'.reachable (ρ.node start) forward loopBack (stop.map ρ.node) =
      (c.reachable start forward loopBack stop).map ρ.node := by
  have hpasses : ∀ i, passes (ρ.node start) (stop.map ρ.node) (ρ.node i) = passes start stop i := by
    cases stop <;> simp [passes]
  have hok : ∀ e : Edge, (loopBack || !(e.rename ρ).isLoopBack) = (loopBack || !e.isLoopBack) := by
    intro e
    rw [e.rename_isLoopBack]
  unfold reachable
  rw [h.edges_eq, length_map]
  refine congrArg Trace.found
    (Search.run_map (f := ρ.node) ρ.node_inj .stack (fun i => ?_) _ [start] [start] [])
  rw [hpasses]
  split
  · exact h.neighbours_eq forward hok i
  · rfl

theorem nodesOf_eq (h : Renamed ρ c c') : Pdg.nodesOf c' = (Pdg.nodesOf c).rename ρ := by
  have hfold : ∀ (ns : List Node) (g : Graph),
      (ns.map (.rename ρ)).foldl (fun g n => if g.hasNode n.id then g else g.appendNode n) (g.rename ρ) =
        (ns.foldl (fun g n => if g.hasNode n.id then g else g.appendNode n) g).rename ρ := by
    intro ns
    induction ns with
    | nil => exact fun _ => rfl
    | cons n ns ih =>
      intro g
      have hstep : (if (g.rename ρ).hasNode (n.rename ρ).id then g.rename ρ
          else (g.rename ρ).appendNode (n.rename ρ)) =
          (if g.hasNode n.id then g else g.appendNode n).rename ρ := by
        rw [Node.rename_id, g.hasNode_rename, g.appendNode_rename]
        split <;> rfl
      rw [map_cons, foldl_cons, foldl_cons, hstep, ih]
  have hfilter : (c.nodes.map (Node.rename ρ)).filter (·.sort.isDependenceNode) =
      (c.nodes.filter (·.sort.isDependenceNode)).map (Node.rename ρ) := by
    rw [filter_map]
    rfl
  have hentry : (Graph.empty .dependence).appendNode (c.entry.rename ρ) =
      ((Graph.empty .dependence).appendNode c.entry).rename ρ :=
    (Graph.empty .dependence).appendNode_rename ρ c.entry
  rw [Pdg.nodesOf, h.nodes_eq, h.entry_eq, hfilter, hentry, hfold, Pdg.nodesOf]

end Renamed

end Cfg

end ProgramDependence
