import Mathlib.Logic.Function.Basic
import ProgramDependence.Proofs.Derivation

/-!
# Graphs under any operations

Graphs are put together by six operations, and one graph may be merged into another.  Here several
graphs stand side by side, all of them empty at first, and a list of calls changes them in turn; a
call that is refused is noted and the next one follows.

An operation is a list of `Change`s.  Most consist of one; a merge consists of an addition for every
node and then for every edge of the graph that it takes in.  The changes are made one after the
other, and **those made before a refusal stay** (`Graph.changeAll`).  So it is a fact to be proved,
and not a part of the definition, that a refused call leaves no trace: a merge either is refused by
its very first addition, because the graph is frozen, or runs to its end.

* `Graph.merge_filter`: a merge into a graph that is not frozen always succeeds, and appends the nodes
  and the edges that were absent;
* `Graph.Call.spared`: a call that is refused changes nothing;
* `Graph.Call.frozen_run`: a frozen graph is left as it is;
* `Graph.sound_runCalls`: all of it, after any calls.
-/

namespace ProgramDependence

open List

namespace Graph

/-! ## Merging any coherent graph -/

variable {g other h : Graph} {gs : Nat → Graph}
variable {e : Error}

theorem filter_not_mem_append {α : Type} (id : α → Id) {x : α} {xs : List α} (ids : List Id)
    (hx : id x ∉ xs.map id) : xs.filter (fun y => id y ∉ ids ++ [id x]) = xs.filter fun y => id y ∉ ids := by
  apply filter_congr
  intro y hy
  have hne : id y ≠ id x := fun h => hx (h ▸ mem_map_of_mem hy)
  simp [hne]

theorem filter_not_mem_eq {α : Type} (id : α → Id) {xs : List α} {ids : List Id}
    (h : ∀ x ∈ xs, id x ∉ ids) : xs.filter (fun x => id x ∉ ids) = xs :=
  filter_eq_self.2 fun x hx => decide_eq_true (h x hx)

theorem foldlM_addNode_filter (ns : List Node) (hfrozen : g.frozen = false) (hnodup : (ns.map (·.id)).Nodup) :
    ∃ h, ns.foldlM (fun h n => do return (← Graph.addNode h n).1) g = (.ok h : Except Error Graph) ∧
      h.nodes = g.nodes ++ ns.filter (·.id ∉ g.nodeIds) ∧ h.edges = g.edges ∧ h.frozen = false := by
  induction ns generalizing g with
  | nil => exact ⟨g, rfl, by simp, rfl, hfrozen⟩
  | cons n ns ih =>
    rw [map_cons, nodup_cons] at hnodup
    rw [foldlM_cons, addNode_eq hfrozen]
    by_cases hmem : n.id ∈ g.nodeIds
    · rw [if_pos hmem, filter_cons_of_neg (by simpa using hmem)]
      exact ih hfrozen hnodup.2
    · rw [if_neg hmem, filter_cons_of_pos (by simpa using hmem)]
      obtain ⟨h, hfold, hnodes, hedges, hfrozen'⟩ := ih (g := g.appendNode n) hfrozen hnodup.2
      rw [nodeIds_appendNode, filter_not_mem_append Node.id _ hnodup.1] at hnodes
      exact ⟨h, hfold, by rw [hnodes]; simp [appendNode], hedges, hfrozen'⟩

theorem foldlM_addEdge_filter (es : List Edge) (hfrozen : g.frozen = false)
    (hnodup : (es.map (·.id)).Nodup) (hends : ∀ e ∈ es, e.src ∈ g.nodeIds ∧ e.dst ∈ g.nodeIds) :
    ∃ h, es.foldlM (fun h e => do return (← Graph.addEdge h e).1) g = (.ok h : Except Error Graph) ∧
      h.nodes = g.nodes ∧ h.edges = g.edges ++ es.filter (·.id ∉ g.edges.map (·.id)) ∧
      h.frozen = false := by
  induction es generalizing g with
  | nil => exact ⟨g, rfl, rfl, by simp, hfrozen⟩
  | cons e es ih =>
    rw [map_cons, nodup_cons] at hnodup
    rw [forall_mem_cons] at hends
    rw [foldlM_cons]
    by_cases hmem : e.id ∈ g.edges.map (·.id)
    · rw [addEdge_eq_self hfrozen hmem, filter_cons_of_neg (by simpa using hmem)]
      exact ih hfrozen hnodup.2 hends.2
    · rw [addEdge_eq hfrozen hmem hends.1.1 hends.1.2,
        filter_cons_of_pos (by simpa using hmem)]
      obtain ⟨h, hfold, hnodes, hedges, hfrozen'⟩ :=
        ih (g := g.appendEdge e) hfrozen hnodup.2 hends.2
      have hids : (g.appendEdge e).edges.map (·.id) = g.edges.map (·.id) ++ [e.id] := by
        simp [appendEdge]
      rw [hids, filter_not_mem_append Edge.id _ hnodup.1] at hedges
      exact ⟨h, hfold, hnodes, by rw [hedges]; simp [appendEdge], hfrozen'⟩

/-- **A merge into a graph that is not frozen succeeds**, and appends what was absent. -/
theorem merge_filter (hfrozen : g.frozen = false) (hother : other.Coherent) :
      ∃ h, g.merge other = .ok h ∧ h.nodes = g.nodes ++ other.nodes.filter (·.id ∉ g.nodeIds) ∧
      h.edges = g.edges ++ other.edges.filter (·.id ∉ g.edges.map (·.id)) ∧ h.frozen = false := by
  obtain ⟨k, hfold, hnodes, hedges, hfrozen'⟩ :=
    foldlM_addNode_filter other.nodes hfrozen hother.nodup_nodes
  -- every node of the other graph is there before its edges come
  have hpresent : ∀ id ∈ other.nodeIds, id ∈ k.nodeIds := by
    intro id hid
    obtain ⟨n, hn, hnid⟩ := mem_map.1 hid
    rw [nodeIds, hnodes, map_append, mem_append]
    by_cases hmem : id ∈ g.nodeIds
    · exact .inl hmem
    · exact .inr (mem_map.2 ⟨n, mem_filter.2 ⟨hn, by simpa [hnid] using hmem⟩, hnid⟩)
  obtain ⟨h, hfold', hnodes', hedges', hmutable⟩ :=
    foldlM_addEdge_filter other.edges hfrozen' hother.nodup_edges
      (fun e he => ⟨hpresent _ (hother.src_mem e he), hpresent _ (hother.dst_mem e he)⟩)
  refine ⟨h, ?_, by rw [hnodes', hnodes], by rw [hedges', hedges], hmutable⟩
  rw [merge, hfold]
  exact hfold'

/-- Graphs without common ids are merged by putting them side by side. -/
theorem merge_eq (hfrozen : g.frozen = false) (hother : other.Coherent)
    (hnodes : ∀ n ∈ other.nodes, n.id ∉ g.nodeIds) (hedges : ∀ e ∈ other.edges, e.id ∉ g.edges.map (·.id)) :
    ∃ h, g.merge other = .ok h ∧ h.nodes = g.nodes ++ other.nodes ∧
      h.edges = g.edges ++ other.edges ∧ h.frozen = false := by
  obtain ⟨h, hmerge, hnodes', hedges', hmutable⟩ := merge_filter hfrozen hother
  rw [filter_not_mem_eq Node.id hnodes] at hnodes'
  rw [filter_not_mem_eq Edge.id hedges] at hedges'
  exact ⟨h, hmerge, hnodes', hedges', hmutable⟩

/-! ## Changes -/

/-- A change of a graph, which may be refused. -/
abbrev Change := Graph → Except Error Graph

/-- Make changes one after the other up to the first that is refused.  Those before it stay. -/
def changeAll : List Change → Graph → Graph × Option Error
  | [], g => (g, none)
  | change :: changes, g =>
    match change g with
    | .ok h => changeAll changes h
    | .error e => (g, some e)

/-- The change that an operation with an answer makes. -/
def changing (operation : Graph → Except Error (Graph × Bool)) : Change :=
  fun g => return (← operation g).1

/-- The changes of a merge: an addition for every node, and then for every edge. -/
def mergeChanges (other : Graph) : List Change :=
  other.nodes.map (fun n => changing (·.addNode n)) ++
    other.edges.map (fun e => changing (·.addEdge e))

theorem changeAll_append (first second : List Change) (hfirst : changeAll first g = (h, none)) :
    changeAll (first ++ second) g = changeAll second h := by
  induction first generalizing g with
  | nil =>
    cases hfirst
    rfl
  | cons change changes ih =>
    rw [changeAll] at hfirst
    rw [cons_append, changeAll]
    cases hchange : change g with
    | ok k =>
      rw [hchange] at hfirst
      exact ih hfirst
    | error e =>
      rw [hchange] at hfirst
      cases hfirst

theorem changeAll_of_foldlM {α : Type} (step : α → Change) (xs : List α)
    (hfold : xs.foldlM (fun g x => step x g) g = .ok h) : changeAll (xs.map step) g = (h, none) := by
  induction xs generalizing g with
  | nil =>
    cases hfold
    rfl
  | cons x xs ih =>
    rw [foldlM_cons] at hfold
    obtain ⟨k, hx, hrest⟩ := ok_of_bind hfold
    rw [map_cons, changeAll, hx]
    exact ih hrest

theorem changeAll_mergeChanges (hmerge : g.merge other = .ok h) :
    changeAll other.mergeChanges g = (h, none) := by
  obtain ⟨k, hnodes, hedges⟩ := ok_of_bind hmerge
  have hfirst := changeAll_of_foldlM (fun n => changing (·.addNode n)) other.nodes hnodes
  rw [mergeChanges, changeAll_append _ _ hfirst]
  exact changeAll_of_foldlM (fun e => changing (·.addEdge e)) other.edges hedges

theorem changeAll_keeps {K : Graph → Prop} (changes : List Change)
    (hkeeps : ∀ change ∈ changes, ∀ {g h : Graph}, K g → change g = .ok h → K h) (hg : K g) :
    K (changeAll changes g).1 := by
  induction changes generalizing g with
  | nil => exact hg
  | cons change changes ih =>
    rw [forall_mem_cons] at hkeeps
    unfold changeAll
    split
    · next h hh => exact ih hkeeps.2 (hkeeps.1 hg hh)
    · exact hg

theorem changeAll_eq_self {changes : List Change}
    (hself : ∀ change ∈ changes, ∀ h, change g = .ok h → h = g) : (changeAll changes g).1 = g := by
  induction changes with
  | nil => rfl
  | cons change changes ih =>
    rw [forall_mem_cons] at hself
    unfold changeAll
    split
    · next h hh =>
        rw [hself.1 h hh]
        exact ih hself.2
    · rfl

theorem exists_of_changeAll {changes : List Change} (herror : (changeAll changes g).2 = some e) :
    ∃ change ∈ changes, ∃ h, change h = .error e := by
  induction changes generalizing g with
  | nil => cases herror
  | cons change changes ih =>
    unfold changeAll at herror
    split at herror
    · next h hh =>
        obtain ⟨c, hc, hrest⟩ := ih herror
        exact ⟨c, mem_cons_of_mem _ hc, hrest⟩
    · next e' he' =>
        cases herror
        exact ⟨change, mem_cons_self, g, he'⟩

/-! ## Calls -/

/-- An operation of the kernel.  A merge names the graph that it takes in. -/
inductive Operation where
  | addNode (n : Node)
  | addEdge (e : Edge)
  | removeNode (id : Id)
  | removeEdge (id : Id)
  | merge (other : Nat)
  | freeze

/-- The changes that an operation makes, where `gs` are all the graphs. -/
def Operation.changes (gs : Nat → Graph) : Operation → List Change
  | .addNode n => [changing (·.addNode n)]
  | .addEdge e => [changing (·.addEdge e)]
  | .removeNode id => [changing (·.removeNode id)]
  | .removeEdge id => [changing (·.removeEdge id)]
  | .merge other => (gs other).mergeChanges
  | .freeze => [fun g => .ok g.freeze]

/-- An operation on one of several graphs. -/
structure Call where
  target : Nat
  operation : Operation

/-- Make a call: the graphs afterwards, and the error of a call that is refused. -/
def Call.run (call : Call) (gs : Nat → Graph) : (Nat → Graph) × Option Error :=
  let result := changeAll (call.operation.changes gs) (gs call.target)
  (Function.update gs call.target result.1, result.2)

/-- Make calls one after the other, also after one that is refused. -/
def runCalls (calls : List Call) (gs : Nat → Graph) : Nat → Graph :=
  calls.foldl (fun gs call => (call.run gs).1) gs

/-! ## What one change does -/

/-- A change that asks first whether the graph may be changed, is refused otherwise only for an edge
that dangles, and keeps a graph coherent. -/
structure Change.Guarded (change : Change) : Prop where
  frozen : ∀ {g : Graph}, g.frozen = true → change g = .error (.frozen g.kind)
  error : ∀ {g : Graph} {e : Error}, g.frozen = false → change g = .error e →
    ∃ edge, e = .danglingEdge edge
  coherent : ∀ {g h : Graph}, g.Coherent → change g = .ok h → h.Coherent

theorem changing_of_error {operation : Graph → Except Error (Graph × Bool)}
    (h : changing operation g = .error e) : operation g = .error e := by
  unfold changing at h
  cases hoperation : operation g with
  | ok r =>
    rw [hoperation] at h
    cases h
  | error e' =>
    rw [hoperation] at h
    cases h
    rfl

theorem guarded_changing {operation : Graph → Except Error (Graph × Bool)}
    (hfrozen : ∀ {g : Graph}, g.frozen = true → operation g = .error (.frozen g.kind))
    (herror : ∀ {g : Graph} {e : Error}, g.frozen = false → operation g = .error e →
      ∃ edge, e = .danglingEdge edge)
    (hcoherent : ∀ {g h : Graph} {answer : Bool}, g.Coherent → operation g = .ok (h, answer) → h.Coherent) :
    (changing operation).Guarded where
  frozen := by
    intro g hg
    simp only [changing, hfrozen hg]
    rfl
  error := fun hg h => herror hg (changing_of_error h)
  coherent := by
    intro g h hg hchange
    obtain ⟨⟨k, answer⟩, hk, hrest⟩ := ok_of_bind hchange
    cases hrest
    exact hcoherent hg hk

theorem guarded_addNode (n : Node) : (changing (·.addNode n)).Guarded := by
  apply guarded_changing
  · intro g hg
    simp [addNode, checkMutable, hg, bind, Except.bind]
  · intro g e hg herror
    rw [addNode_eq hg] at herror
    cases herror
  · exact fun hg hadd => hg.addNode hadd

theorem guarded_addEdge (e : Edge) : (changing (·.addEdge e)).Guarded := by
  apply guarded_changing
  · intro g hg
    simp [addEdge, checkMutable, hg, bind, Except.bind]
  · intro g error hg herror
    by_cases hid : e.id ∈ g.edges.map (·.id)
    · rw [addEdge_eq_self hg hid] at herror
      cases herror
    · by_cases hends : e.src ∈ g.nodeIds ∧ e.dst ∈ g.nodeIds
      · rw [addEdge_eq hg hid hends.1 hends.2] at herror
        cases herror
      · have hboth : (g.hasNode e.src && g.hasNode e.dst) = false := by
          rw [← Bool.not_eq_true, Bool.and_eq_true, hasNode_iff, hasNode_iff]
          exact hends
        simp only [addEdge, checkMutable, hg, hasEdge_eq_false hid, hboth] at herror
        cases herror
        exact ⟨e, rfl⟩
  · exact fun hg hadd => hg.addEdge hadd

theorem guarded_removeNode (id : Id) : (changing (·.removeNode id)).Guarded := by
  apply guarded_changing
  · intro g hg
    simp [removeNode, checkMutable, hg, bind, Except.bind]
  · intro g e hg herror
    cases hhas : g.hasNode id <;> simp only [removeNode, checkMutable, hg, hhas] at herror <;>
      cases herror
  · exact fun hg hremove => hg.removeNode hremove

theorem guarded_removeEdge (id : Id) : (changing (·.removeEdge id)).Guarded := by
  apply guarded_changing
  · intro g hg
    simp [removeEdge, checkMutable, hg, bind, Except.bind]
  · intro g e hg herror
    cases hedge : g.edge? id <;> simp only [removeEdge, checkMutable, hg, hedge] at herror <;>
      cases herror
  · exact fun hg hremove => hg.removeEdge hremove

theorem guarded_of_mem_mergeChanges {change : Change} (hchange : change ∈ other.mergeChanges) :
    change.Guarded := by
  rcases mem_append.1 hchange with hnode | hedge
  · obtain ⟨n, -, rfl⟩ := mem_map.1 hnode
    exact guarded_addNode n
  · obtain ⟨e, -, rfl⟩ := mem_map.1 hedge
    exact guarded_addEdge e

theorem Operation.guarded_of_mem {operation : Operation} {change : Change}
    (hchange : change ∈ operation.changes gs) (hfreeze : operation ≠ .freeze) : change.Guarded := by
  cases operation with
  | addNode n => exact mem_singleton.1 hchange ▸ guarded_addNode n
  | addEdge e => exact mem_singleton.1 hchange ▸ guarded_addEdge e
  | removeNode id => exact mem_singleton.1 hchange ▸ guarded_removeNode id
  | removeEdge id => exact mem_singleton.1 hchange ▸ guarded_removeEdge id
  | merge other => exact guarded_of_mem_mergeChanges hchange
  | freeze => exact absurd rfl hfreeze

/-! ## What one call does -/

namespace Call

variable {gs : Nat → Graph}

/-- **A call keeps every graph coherent.** -/
theorem coherent_run (hgs : ∀ i, (gs i).Coherent) (call : Call) (i : Nat) : ((call.run gs).1 i).Coherent := by
  by_cases hi : i = call.target
  · subst hi
    simp only [run, Function.update_self]
    apply changeAll_keeps _ _ (hgs call.target)
    intro change hchange g h hg hh
    by_cases hfreeze : call.operation = .freeze
    · rw [hfreeze] at hchange
      rw [mem_singleton.1 hchange] at hh
      cases hh
      exact hg.freeze
    · exact (Operation.guarded_of_mem hchange hfreeze).coherent hg hh
  · simp only [run, Function.update_of_ne hi]
    exact hgs i

/-- **A frozen graph is left as it is.** -/
theorem frozen_run (call : Call) {i : Nat} (hfrozen : (gs i).frozen = true) : (call.run gs).1 i = gs i := by
  by_cases hi : i = call.target
  · subst hi
    simp only [run, Function.update_self]
    apply changeAll_eq_self
    intro change hchange h hh
    by_cases hfreeze : call.operation = .freeze
    · rw [hfreeze] at hchange
      rw [mem_singleton.1 hchange] at hh
      cases hh
      simp only [freeze, ← hfrozen]
    · rw [(Operation.guarded_of_mem hchange hfreeze).frozen hfrozen] at hh
      cases hh
  · simp only [run, Function.update_of_ne hi]

theorem run_merge {i j : Nat} {h : Graph} (hmerge : (gs i).merge (gs j) = .ok h) :
    (Call.mk i (.merge j)).run gs = (Function.update gs i h, none) := by
  simp only [run, Operation.changes, changeAll_mergeChanges hmerge]

/-- **A call that is refused changes nothing.** -/
theorem spared (hgs : ∀ i, (gs i).Coherent) (call : Call)
    (hrefused : (call.run gs).2 = some e) : (call.run gs).1 = gs := by
  obtain ⟨i, operation⟩ := call
  cases hfrozen : (gs i).frozen with
  | true =>
    funext k
    by_cases hk : k = i
    · subst hk
      exact frozen_run _ hfrozen
    · simp only [run, Function.update_of_ne hk]
  | false =>
    cases operation with
    | merge j =>
      obtain ⟨h, hmerge, -⟩ := merge_filter hfrozen (hgs j)
      rw [run_merge hmerge] at hrefused
      cases hrefused
    | freeze => cases hrefused
    | _ =>
      -- one change, which was refused
      simp only [run, Operation.changes, changeAll] at hrefused ⊢
      split at hrefused
      · cases hrefused
      · simp only [Function.update_eq_self]

theorem error_run (call : Call) (hrefused : (call.run gs).2 = some e) :
    (∃ kind, e = .frozen kind) ∨ ∃ edge, e = .danglingEdge edge := by
  obtain ⟨change, hchange, g, hg⟩ := exists_of_changeAll hrefused
  by_cases hfreeze : call.operation = .freeze
  · rw [hfreeze] at hchange
    rw [mem_singleton.1 hchange] at hg
    cases hg
  · have hguarded := Operation.guarded_of_mem hchange hfreeze
    cases hfrozen : g.frozen with
    | true =>
      rw [hguarded.frozen hfrozen] at hg
      cases hg
      exact .inl ⟨g.kind, rfl⟩
    | false => exact .inr (hguarded.error hfrozen hg)

end Call

/-! ## What any calls do -/

theorem coherent_runCalls (calls : List Call) (hgs : ∀ i, (gs i).Coherent) (i : Nat) :
    (runCalls calls gs i).Coherent := by
  induction calls generalizing gs with
  | nil => exact hgs i
  | cons call calls ih => exact ih fun j => call.coherent_run hgs j

theorem frozen_runCalls (calls : List Call) {i : Nat} (hfrozen : (gs i).frozen = true) :
    runCalls calls gs i = gs i := by
  induction calls generalizing gs with
  | nil => rfl
  | cons call calls ih =>
    have hcall := call.frozen_run hfrozen
    have hfrozen' : ((call.run gs).1 i).frozen = true := by
      rw [hcall]
      exact hfrozen
    calc runCalls (call :: calls) gs i
        = (call.run gs).1 i := ih hfrozen'
      _ = gs i := hcall

theorem runCalls_freeze (calls : List Call) (gs : Nat → Graph) (i : Nat) :
    runCalls (⟨i, .freeze⟩ :: calls) gs i = (gs i).freeze := by
  have hcall : ((Call.mk i .freeze).run gs).1 i = (gs i).freeze := Function.update_self i _ gs
  have hfrozen : (((Call.mk i .freeze).run gs).1 i).frozen = true := by
    rw [hcall, Graph.freeze]
  calc runCalls (⟨i, .freeze⟩ :: calls) gs i
      = ((Call.mk i .freeze).run gs).1 i := frozen_runCalls calls hfrozen
    _ = (gs i).freeze := hcall

/-- What holds of graphs that were put together by operations of the kernel, and of whatever is
called next. -/
structure Sound (gs : Nat → Graph) : Prop where
  /-- Ids are unique, no edge dangles, and the indices list the edges of each node, in the order of the
  edges, for the nodes that are there and for no others. -/
  coherent : ∀ i, (gs i).Coherent
  /-- A call that is refused, for a frozen graph or an edge that dangles, leaves every graph as it was. -/
  refused : ∀ (call : Call) (e : Error), (call.run gs).2 = some e →
    (call.run gs).1 = gs ∧ ((∃ kind, e = .frozen kind) ∨ ∃ edge, e = .danglingEdge edge)
  /-- A frozen graph stays as it is whatever is called. -/
  frozen : ∀ (i : Nat) (calls : List Call), (gs i).frozen = true → runCalls calls gs i = gs i
  /-- A graph that is frozen now is the same graph, but frozen, whatever is called afterwards. -/
  freeze : ∀ (i : Nat) (calls : List Call), runCalls (⟨i, .freeze⟩ :: calls) gs i = (gs i).freeze
  /-- A graph that is not frozen takes in any other: the nodes and the edges that were absent come after
  its own. -/
  merge : ∀ i j : Nat, (gs i).frozen = false → ∃ h, (gs i).merge (gs j) = .ok h ∧
    (Call.mk i (.merge j)).run gs = (Function.update gs i h, none) ∧
    h.nodes = (gs i).nodes ++ (gs j).nodes.filter (·.id ∉ (gs i).nodeIds) ∧
    h.edges = (gs i).edges ++ (gs j).edges.filter (·.id ∉ (gs i).edges.map (·.id))

theorem sound_of_coherent (hgs : ∀ i, (gs i).Coherent) : Sound gs where
  coherent := hgs
  refused := fun call _ hrefused => ⟨call.spared hgs hrefused, call.error_run hrefused⟩
  frozen := fun _ calls hfrozen => frozen_runCalls calls hfrozen
  freeze := fun i calls => runCalls_freeze calls gs i
  merge := by
    intro i j hfrozen
    obtain ⟨h, hmerge, hnodes, hedges, -⟩ := merge_filter hfrozen (hgs j)
    exact ⟨h, hmerge, Call.run_merge hmerge, hnodes, hedges⟩

/-- **The representation invariant of the kernel.**  Whatever is called on graphs that are empty at
first, refused calls included, leaves them sound. -/
theorem sound_runCalls (kinds : Nat → GraphKind) (calls : List Call) :
    Sound (runCalls calls fun i => empty (kinds i)) :=
  sound_of_coherent (coherent_runCalls calls fun i => coherent_empty (kinds i))

end Graph

end ProgramDependence
