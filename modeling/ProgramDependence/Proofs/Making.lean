import ProgramDependence.Proofs.Coherence
import ProgramDependence.Proofs.Semantics
import ProgramDependence.Proofs.Tracked

/-!
# How the nodes and edges of a unit come about

While a unit is lowered its nodes and edges change in few ways: an id is drawn, a node or an edge is
added under the next id, a parameter is listed with the call or the entry it belongs to, a node
learns variables, or a switch or a try statement learns its parts.  `Made` lists these ways.  The
calls that are expanded and whose result is still to come are kept in a list of their own, so that
each of them gets its result once, or none if its callee is void.

What holds of all nodes of a unit follows by induction on `Made`.  Where the changes of one node
leave what is said of it as it is (`Lasting`), the induction is done once.
-/

namespace ProgramDependence

open List Node Payload
variable {f : Node → Node}

namespace Payload

/-- The parameter nodes that a call or an entry lists. -/
def listed : Payload → List Id
  | call _ ins outs _ => ins ++ outs
  | entry ins outs => ins ++ outs
  | _ => []

/-- The place of a parameter at the node it belongs to. -/
def place? : Payload → Option (Ordinal × Id)
  | parameter ordinal owner => some (ordinal, owner)
  | _ => Option.none

def isCall : Payload → Bool
  | call .. => true
  | _ => false

def isEntry : Payload → Bool
  | entry .. => true
  | _ => false

/-- What a switch or a try statement knows of itself, which may change. -/
def isLoose : Payload → Bool
  | switch _ | tryCatch _ _ => true
  | _ => false

/-- The nodes that a payload refers to. -/
def refs : Payload → List Id
  | none => []
  | entry ins outs | call _ ins outs _ => ins ++ outs
  | parameter _ owner => [owner]
  | merge branch => [branch]
  | switch default => default.toList
  | tryCatch catches finallyPart => catches ++ finallyPart.toList

end Payload

/-- What the parameters of a method stand for when it is entered, or when it is called with
arguments. -/
def Element.arguments (m : Method) : Element → List Element
  | method _ => m.parameters.map .var
  | tree (.expr (.methodCall _ as _ _ _ _)) | tree (.expr (.constructorCall as _ _ _))
  | tree (.expr (.instanceCreation _ as _ _ _)) => as.map .ofExpr
  | _ => []

/-- What a node is from its creation on. -/
structure Mark where
  id : Id
  sort : NodeSort
  place : Option (Ordinal × Id) := none

def Node.mark (k : Node) : Mark :=
  ⟨k.id, k.sort, k.payload.place?⟩

/-- Whether the node of a mark may be changed; exits may not. -/
def Mark.isOpen (w : Mark) : Bool :=
  !w.sort.isExit

abbrev Mark.ofParameter (id : Id) (t : ParameterSort) (ordinal : Ordinal) (owner : Id) : Mark :=
  ⟨id, .parameter t, some (ordinal, owner)⟩

/-- The nodes after a change of one of them. -/
def changed (ns : List Node) (i : Id) (f : Node → Node) : List Node :=
  ns.map fun k => if k.id = i then f k else k

/-- List a parameter with the call or the entry it belongs to. -/
def ParameterSort.enlist (s : ParameterSort) (a : Id) (n : Node) : Node :=
  match s with
  | .actualIn =>
    match n.payload with
    | .call m ins outs x => { n with payload := .call m (ins ++ [a]) outs x }
    | _ => n
  | .actualOut =>
    match n.payload with
    | .call m ins outs x => { n with payload := .call m ins (outs ++ [a]) x }
    | _ => n
  | .formalIn =>
    match n.payload with
    | .entry ins outs => { n with payload := .entry (ins ++ [a]) outs }
    | _ => n
  | .formalOut =>
    match n.payload with
    | .entry ins outs => { n with payload := .entry ins (outs ++ [a]) }
    | _ => n

/-- A new node that is neither a call nor an entry nor one of their parameters: the only other
parameters are those of catch clauses.  It may refer to nodes that are there. -/
structure Node.Plain (ms : List Mark) (k : Node) : Prop where
  call : k.sort.isCall = false
  entry : k.sort.isEntry = false
  payload : k.payload.isCall = false ∧ k.payload.isEntry = false
  refs : ∀ i ∈ k.payload.refs, i ∈ ms.map (·.id)
  parameter : k.sort.isParameter = false ∧ k.payload.place? = Option.none ∨ ∃ ordinal owner,
    k.mark = .ofParameter k.id .formalIn ordinal owner ∧
      ⟨owner, .statement .catchClause, Option.none⟩ ∈ ms ∧ ∀ v, k.element ≠ .var v
  exit : k.sort.isExit = true → k = { id := k.id, sort := k.sort, element := k.element }
  serial : k.serial = 0

/-- A node after a change that concerns its variables, or the parts of a switch or a try statement. -/
structure Node.Retouched (ids : List Id) (k k' : Node) : Prop where
  mark : k'.mark = k.mark
  element : k'.element = k.element
  serial : k'.serial = k.serial
  defs : k.defs ⊆ k'.defs
  payload : k'.payload = k.payload ∨ k.payload.isLoose = true ∧ k'.payload.isLoose = true ∧
    ∀ i ∈ k'.payload.refs, i ∈ k.payload.refs ∨ i ∈ ids

/-- A formal parameter defines its variable. -/
def Node.Introduces (k : Node) : Prop :=
  k.sort = .parameter .formalIn → ∀ v, k.element = .var v → v ∈ k.defs

section

variable {k : Node} {id owner : Id} {t : ParameterSort} {ordinal : Ordinal}
    (h : k.mark = .ofParameter id t ordinal owner)

include h

theorem Node.sort_of_mark : k.sort = .parameter t :=
  congrArg Mark.sort h

theorem Node.payload_of_mark : k.payload = .parameter ordinal owner := by
  have hplace : k.payload.place? = some (ordinal, owner) := congrArg Mark.place h
  unfold place? at hplace
  split at hplace
  · rename_i hpayload
    cases hplace
    exact hpayload
  · cases hplace

end

theorem NodeSort.isExit_of_isCall {s : NodeSort} (h : s.isCall = true) : s.isExit = false := by
  cases s with
  | exit => cases h
  | _ => rfl

theorem NodeSort.isEntry_of_isCall {s : NodeSort} (h : s.isCall = true) : s.isEntry = false := by
  cases s with
  | entry => cases h
  | _ => rfl

/-- The kind of the parameters on the other side. -/
def ParameterSort.inward : ParameterSort → ParameterSort
  | formalOut => formalIn
  | actualOut => actualIn
  | s => s

/-- What an expanded call, or the entry of a method, still owes: a node for each of its arguments,
of which those `taken` are there and those `awaited` are not, for the arguments it hands back, of
which there are those at `handed`, and at last for the result of the method.  `sort` is the kind of
these results. -/
structure Debt where
  node : Id
  sort : ParameterSort
  method : Method
  awaited : List Element
  taken : List Element := []
  handed : List Nat := []

/-- The parameter that may come next: one for the next argument, or one that hands back an argument
that is there, after those before it. -/
inductive Debt.Takes : Debt → ParameterSort → Ordinal → Element → Debt → Prop where
  | argument {d : Debt} {e : Element} {es : List Element} (early : d.handed = [])
    (next : d.awaited = e :: es) :
      Takes d d.sort.inward (.argument d.taken.length) e { d with taken := d.taken ++ [e], awaited := es }
  | handBack (d : Debt) (isActual : d.sort = .actualOut) {i : Nat} (lt : i < d.taken.length)
      (later : d.handed.Sublist (range i)) (e : Element) :
      Takes d .actualOut (.argument i) e { d with handed := d.handed ++ [i] }

/-- `Made P lo debts ns es next`: the nodes and edges of a unit as they come about while ids are
drawn from `lo` on, where `debts` are the results that are to come yet. -/
inductive Made (P : Program) (lo : Id) : List Debt → List Node → List Edge → Id → Prop where
  | start : Made P lo [] [] [] lo
  | draw {debts ns es next} (made : Made P lo debts ns es next) : Made P lo debts ns es (next + 1)
  | edge {debts ns es next} (made : Made P lo debts ns es next) (src dst : Id) (sort : FlowSort)
      (loop : Option Id) : Made P lo debts ns (es ++ [⟨next, src, dst, .flow sort loop⟩]) (next + 1)
  | node {debts ns es next} (made : Made P lo debts ns es next) {k : Node} (id : k.id = next)
      (plain : k.Plain (ns.map mark)) : Made P lo debts (ns ++ [k]) es (next + 1)
  | entry {debts ns es next} (made : Made P lo debts ns es next) {r : MethodRef} {m : Method}
      (method : P.method? r = some m) (scope : ScopeSort) :
      Made P lo ({ node := next, sort := .formalOut, method := m, awaited := m.parameters.map .var } :: debts)
        (ns ++ [{ id := next, sort := .entry scope, element := .method r, payload := .entry [] [] }]) es
        (next + 1)
  | fieldEntry {debts ns es next} (made : Made P lo debts ns es next) (r : FieldRef)
      (scope : ScopeSort) : Made P lo debts
        (ns ++ [{ id := next, sort := .entry scope, element := .field r, payload := .entry [] [] }])
        es (next + 1)
  | call {debts ns es next} (made : Made P lo debts ns es next) {b : MethodRef} {m : Method}
      (method : P.method? b = some m) {sort : NodeSort} (isCall : sort.isCall = true)
      (element : Element) (expanded : Bool) :
      Made P lo
        (if expanded then
          { node := next, sort := .actualOut, method := m, awaited := element.arguments m } :: debts
        else debts) (ns ++ [{ id := next, sort, element, payload := .call b [] [] expanded }]) es (next + 1)
  | parameter {debts ns es next} {d d' : Debt} (made : Made P lo (d :: debts) ns es next)
      {s : ParameterSort} {ordinal : Ordinal} {k : Node} (takes : d.Takes s ordinal k.element d')
      (mark : k.mark = .ofParameter next s ordinal d.node) (serial : k.serial = 0)
      (introduces : k.Introduces) (isOwned : d.node ∈ ns.map (·.id)) :
      Made P lo (d' :: debts) (changed (ns ++ [k]) d.node (s.enlist next)) es (next + 1)
  | result {debts ns es next} {d : Debt} (made : Made P lo (d :: debts) ns es next) (isFull : d.awaited = [])
      (isVoid : d.method.isVoid = false) {k : Node} (mark : k.mark = .ofParameter next d.sort .result d.node)
      (serial : k.serial = 0) (introduces : k.Introduces) (isOwned : d.node ∈ ns.map (·.id)) :
      Made P lo debts (changed (ns ++ [k]) d.node (d.sort.enlist next)) es (next + 1)
  | silent {debts ns es next} {d : Debt} (made : Made P lo (d :: debts) ns es next)
      (isFull : d.awaited = []) (isVoid : d.method.isVoid = true) : Made P lo debts ns es next
  | retouch {debts ns es next} (made : Made P lo debts ns es next) {w : Mark}
      (isThere : w ∈ ns.map mark) (isOpen : w.isOpen = true) {f : Node → Node}
      (retouched : ∀ k : Node, k.Retouched (ns.map (·.id)) (f k)) : Made P lo debts
      (changed ns w.id f) es next

variable {P : Program} {lo next : Id} {debts : List Debt} {ns : List Node} {es : List Edge}

/-! ## Marks -/

theorem mem_changed {i : Id} {k' : Node} :
    k' ∈ changed ns i f ↔ ∃ k ∈ ns, (if k.id = i then f k else k) = k' :=
  mem_map

theorem marks_changed {i : Id} (hf : ∀ k : Node, (f k).mark = k.mark) :
    (changed ns i f).map mark = ns.map mark := by
  rw [changed, map_map]
  refine map_congr_left fun k _ => ?_
  simp only [Function.comp_apply]
  split
  · exact hf k
  · rfl

theorem ids_eq_marks (ns : List Node) : ns.map (·.id) = (ns.map mark).map (·.id) := by
  rw [map_map]
  rfl

theorem ids_changed {i : Id} (hf : ∀ k : Node, (f k).mark = k.mark) :
    (changed ns i f).map (·.id) = ns.map (·.id) := by
  rw [ids_eq_marks, marks_changed hf, ← ids_eq_marks]

namespace ParameterSort

variable (s : ParameterSort) (a : Id) (n : Node)

theorem enlist_eq : s.enlist a n = { n with payload := (s.enlist a n).payload } := by
  unfold enlist
  split <;> split <;> rfl

theorem mark_enlist : (s.enlist a n).mark = n.mark := by
  cases hpayload : n.payload <;> cases s <;> simp [enlist, mark, hpayload, Payload.place?]

theorem payload_enlist : s.enlist a n = n ∨ (n.payload.isCall = true ∨ n.payload.isEntry = true) ∧
      (s.enlist a n).payload.isCall = n.payload.isCall ∧ (s.enlist a n).payload.isEntry = n.payload.isEntry ∧
      (s.enlist a n).payload.listed.Perm (a :: n.payload.listed) := by
  cases hpayload : n.payload with
  | call m ins outs | entry ins outs =>
    have hlast : (ins ++ (outs ++ [a])).Perm (a :: (ins ++ outs)) := by simp [← append_assoc]
    cases s <;> simp [enlist, hpayload, isCall, isEntry, listed, hlast]
  | _ => cases s <;> simp [enlist, hpayload]

end ParameterSort

theorem marks_enlisted {k : Node} {a owner : Id} {t : ParameterSort} {ordinal : Ordinal}
    (hmark : k.mark = .ofParameter a t ordinal owner) :
    (changed (ns ++ [k]) owner (t.enlist a)).map mark = ns.map mark ++ [.ofParameter a t ordinal owner] := by
  rw [marks_changed (t.mark_enlist a), map_append, map_singleton, hmark]

namespace Payload

variable {payload : Payload}

theorem refs_eq_listed (h : payload.isCall = true ∨ payload.isEntry = true) :
    payload.refs = payload.listed := by
  cases payload with
  | call | entry => rfl
  | _ => simp [isCall, isEntry] at h

theorem listed_eq_nil (hcall : payload.isCall = false) (hentry : payload.isEntry = false) :
    payload.listed = [] := by
  cases payload with
  | call => cases hcall
  | entry => cases hentry
  | _ => rfl

theorem isCall_of_isLoose (h : payload.isLoose = true) : payload.isCall = false := by
  cases payload with
  | call => cases h
  | _ => rfl

theorem isEntry_of_isLoose (h : payload.isLoose = true) : payload.isEntry = false := by
  cases payload with
  | entry => cases h
  | _ => rfl

end Payload

namespace Node.Retouched

variable {ids : List Id} {k k' : Node}

variable (h : k.Retouched ids k')
include h

theorem id : k'.id = k.id :=
  congrArg Mark.id h.mark

theorem sort : k'.sort = k.sort :=
  congrArg Mark.sort h.mark

theorem isCall : k'.payload.isCall = k.payload.isCall := by
  rcases h.payload with heq | ⟨hloose, hloose', -⟩
  · rw [heq]
  · rw [isCall_of_isLoose hloose, isCall_of_isLoose hloose']

theorem isEntry : k'.payload.isEntry = k.payload.isEntry := by
  rcases h.payload with heq | ⟨hloose, hloose', -⟩
  · rw [heq]
  · rw [isEntry_of_isLoose hloose, isEntry_of_isLoose hloose']

theorem listed : k'.payload.listed = k.payload.listed := by
  rcases h.payload with heq | ⟨hloose, hloose', -⟩
  · rw [heq]
  · rw [listed_eq_nil (isCall_of_isLoose hloose) (isEntry_of_isLoose hloose),
      listed_eq_nil (isCall_of_isLoose hloose') (isEntry_of_isLoose hloose')]

end Node.Retouched

/-! ## Ids -/

/-- Ids of nodes and edges as they are drawn, in increasing order. -/
structure Numbered (lo : Id) (ns es : List Id) (next : Id) : Prop where
  le : lo ≤ next
  nodes : ∀ i ∈ ns, lo ≤ i ∧ i < next
  edges : ∀ i ∈ es, lo ≤ i ∧ i < next
  nodes_lt : ns.Pairwise (· < ·)
  edges_lt : es.Pairwise (· < ·)
  apart : ∀ i ∈ ns, i ∉ es

namespace Numbered

variable {ns es : List Id}

variable (h : Numbered lo ns es next)
include h

theorem draw : Numbered lo ns es (next + 1) :=
  { h with
    le := by grind [h.le]
    nodes := fun i hi => by grind [h.nodes i hi]
    edges := fun i hi => by grind [h.edges i hi] }

theorem node : Numbered lo (ns ++ [next]) es (next + 1) where
  le := h.draw.le
  nodes := forall_mem_append.2 ⟨h.draw.nodes, forall_mem_singleton.2 ⟨h.le, Int.lt_succ next⟩⟩
  edges := h.draw.edges
  nodes_lt := pairwise_append.2 ⟨h.nodes_lt, pairwise_singleton _ _,
    fun i hi => forall_mem_singleton.2 (h.nodes i hi).2⟩
  edges_lt := h.edges_lt
  apart := forall_mem_append.2 ⟨h.apart, forall_mem_singleton.2 fun hmem =>
    Int.lt_irrefl _ (h.edges next hmem).2⟩

theorem edge : Numbered lo ns (es ++ [next]) (next + 1) where
  le := h.draw.le
  nodes := h.draw.nodes
  edges := forall_mem_append.2 ⟨h.draw.edges, forall_mem_singleton.2 ⟨h.le, Int.lt_succ next⟩⟩
  nodes_lt := h.nodes_lt
  edges_lt := pairwise_append.2 ⟨h.edges_lt, pairwise_singleton _ _,
    fun i hi => forall_mem_singleton.2 (h.edges i hi).2⟩
  apart i hi hmem := by
    rcases mem_append.1 hmem with hmem | hmem
    · exact h.apart i hi hmem
    · exact Int.ne_of_lt (h.nodes i hi).2 (mem_singleton.1 hmem)

end Numbered

namespace Made

variable (h : Made P lo debts ns es next)
include h

/-- **Ids are drawn once, and nodes and edges stand in the order in which they were drawn.** -/
theorem numbered : Numbered lo (ns.map (·.id)) (es.map (·.id)) next := by
  induction h with
  | start => exact ⟨Int.le_refl lo, by simp, by simp, .nil, .nil, by simp⟩
  | draw _ ih => exact ih.draw
  | edge _ src dst sort loop ih =>
    rw [map_append]
    exact ih.edge
  | node _ hid _ ih =>
    rw [map_append, map_singleton, hid]
    exact ih.node
  | entry _ _ _ ih | fieldEntry _ _ _ ih | call _ _ _ _ _ ih =>
    rw [map_append]
    exact ih.node
  | @parameter _ _ _ _ _ _ _ _ _ k _ hmark _ _ _ ih | @result _ _ _ _ _ _ _ _ k hmark _ _ _ ih =>
    rw [ids_changed (ParameterSort.mark_enlist _ _), map_append, map_singleton,
      show k.id = _ from congrArg Mark.id hmark]
    exact ih.node
  | silent _ _ _ ih => exact ih
  | retouch _ _ _ hf ih =>
    rw [ids_changed fun k => (hf k).mark]
    exact ih

theorem not_mem : next ∉ ns.map (·.id) :=
  fun hmem => Int.lt_irrefl _ (h.numbered.nodes next hmem).2

theorem nodup : (ns.map (·.id)).Nodup :=
  h.numbered.nodes_lt.imp fun hlt => Int.ne_of_lt hlt

theorem isFlow : ∀ e ∈ es, e.isFlow = true := by
  induction h with
  | start => exact fun e he => nomatch he
  | edge _ _ _ _ _ ih => exact forall_mem_append.2 ⟨ih, forall_mem_singleton.2 rfl⟩
  | _ => assumption

end Made

/-! ## What holds of each node -/

/-- Something that is said of a node, given the marks of all nodes, and that lasts. -/
structure Lasting (Q : List Mark → Node → Prop) : Prop where
  mono : ∀ {ms ms' k}, ms ⊆ ms' → Q ms k → Q ms' k
  plain : ∀ {ms k}, k.Plain ms → Q ms k
  entry : ∀ ms id scope element, Q ms { id, sort := .entry scope, element, payload := .entry [] [] }
  call : ∀ ms id {sort} element b x, sort.isCall = true →
    Q ms { id, sort, element, payload := .call b [] [] x }
  parameter : ∀ {ms k id t ordinal owner}, k.mark = .ofParameter id t ordinal owner → k.serial = 0 →
    k.Introduces → owner ∈ ms.map (·.id) → Q ms k
  enlist : ∀ {ms k a t ordinal}, Q ms k → a ∉ ms.map (·.id) →
    Q (ms ++ [.ofParameter a t ordinal k.id]) (t.enlist a k)
  retouch : ∀ {ms k k'}, Q ms k → k.mark.isOpen = true → k.Retouched (ms.map (·.id)) k' → Q ms k'

namespace Lasting

variable {Q : List Mark → Node → Prop}

theorem append (hQ : Lasting Q) (h : ∀ k ∈ ns, Q (ns.map mark) k) {k : Node}
    (hk : Q (ns.map mark) k) : ∀ k' ∈ ns ++ [k], Q ((ns ++ [k]).map mark) k' := by
  have hsub : ns.map mark ⊆ (ns ++ [k]).map mark := by
    rw [map_append]
    exact subset_append_left _ _
  exact forall_mem_append.2 ⟨fun k' hk' => hQ.mono hsub (h k' hk'), forall_mem_singleton.2 (hQ.mono hsub hk)⟩

/-- What lasts also holds once a parameter is enlisted. -/
theorem enlisted (hQ : Lasting Q) (h : ∀ k ∈ ns, Q (ns.map mark) k) {k : Node} {a owner : Id}
    {t : ParameterSort} {ordinal : Ordinal} (hmark : k.mark = .ofParameter a t ordinal owner)
    (hserial : k.serial = 0) (hintroduces : k.Introduces) (howner : owner ∈ ns.map (·.id))
    (hnew : a ∉ ns.map (·.id)) :
    ∀ k' ∈ changed (ns ++ [k]) owner (t.enlist a),
    Q ((changed (ns ++ [k]) owner (t.enlist a)).map mark) k' := by
  have hid : k.id = a := congrArg Mark.id hmark
  rw [ids_eq_marks] at howner hnew
  rw [marks_enlisted hmark]
  intro k' hk'
  obtain ⟨j, hj, rfl⟩ := mem_changed.1 hk'
  rcases mem_append.1 hj with hj | hj
  · split
    · rename_i howns
      subst howns
      exact hQ.enlist (h j hj) hnew
    · exact hQ.mono (subset_append_left _ _) (h j hj)
  · rw [mem_singleton.1 hj, if_neg]
    · exact hQ.mono (subset_append_left _ _) (hQ.parameter hmark hserial hintroduces howner)
    · rintro rfl
      exact hnew (hid ▸ howner)

theorem retouched (hQ : Lasting Q) (h : ∀ k ∈ ns, Q (ns.map mark) k)
    (hnodup : (ns.map (·.id)).Nodup) {w : Mark} (hw : w ∈ ns.map mark) (hopen : w.isOpen = true)
    (hf : ∀ k : Node, k.Retouched (ns.map (·.id)) (f k)) :
    ∀ k' ∈ changed ns w.id f, Q ((changed ns w.id f).map mark) k' := by
  rw [marks_changed fun k => (hf k).mark]
  intro k' hk'
  obtain ⟨k, hk, rfl⟩ := mem_changed.1 hk'
  split
  · rename_i hid
    obtain ⟨j, hj, rfl⟩ := mem_map.1 hw
    obtain rfl := inj_on_of_nodup_map hnodup hk hj hid
    refine hQ.retouch (h k hk) hopen ?_
    rw [← ids_eq_marks]
    exact hf k
  · exact h k hk

end Lasting

namespace Made

/-- **What lasts holds of all nodes of a unit.** -/
theorem forall_nodes {Q : List Mark → Node → Prop} (hQ : Lasting Q)
    (h : Made P lo debts ns es next) : ∀ k ∈ ns, Q (ns.map mark) k := by
  induction h with
  | start => exact fun k hk => nomatch hk
  | draw _ ih => exact ih
  | edge _ _ _ _ _ ih => exact ih
  | node _ _ hplain ih => exact hQ.append ih (hQ.plain hplain)
  | entry _ _ scope ih | fieldEntry _ _ scope ih => exact hQ.append ih (hQ.entry _ _ scope _)
  | call _ _ hcall element x ih => exact hQ.append ih (hQ.call _ _ element _ x hcall)
  | parameter hmade _ hmark hserial hintroduces howner ih
  | result hmade _ _ hmark hserial hintroduces howner ih =>
    exact hQ.enlisted ih hmark hserial hintroduces howner hmade.not_mem
  | silent _ _ _ ih => exact ih
  | retouch hmade hw hopen hf ih => exact hQ.retouched ih hmade.nodup hw hopen hf

end Made

theorem lasting_exit : Lasting fun _ k =>
    k.sort.isExit = true → k = { id := k.id, sort := k.sort, element := k.element } where
  mono _ h := h
  plain h := h.exit
  entry _ _ _ _ h := nomatch h
  call _ _ _ _ _ _ hcall hexit := by
    rw [NodeSort.isExit_of_isCall hcall] at hexit
    cases hexit
  parameter hmark _ _ _ hexit := by
    rw [sort_of_mark hmark] at hexit
    cases hexit
  enlist {_ k a t _} h _ hexit := by
    have hsort : (t.enlist a k).sort = k.sort := congrArg Mark.sort (t.mark_enlist a k)
    have hk := h (hsort ▸ hexit)
    rcases t.payload_enlist a k with heq | ⟨hlists, -⟩
    · rw [heq]
      exact hk
    · rw [hk] at hlists
      simp [isCall, isEntry] at hlists
  retouch h hopen hk hexit := by
    rw [hk.sort] at hexit
    simp [Mark.isOpen, mark, hexit] at hopen

theorem lasting_serial : Lasting fun _ k => k.serial = 0 where
  mono _ h := h
  plain h := h.serial
  entry _ _ _ _ := rfl
  call _ _ _ _ _ _ _ := rfl
  parameter _ hserial _ _ := hserial
  enlist {_ k a t _} h _ := by
    rw [t.enlist_eq a k]
    exact h
  retouch h _ hk := hk.serial.trans h

theorem lasting_kind : Lasting fun _ k => k.payload.isCall = k.sort.isCall ∧
    k.payload.isEntry = k.sort.isEntry where
  mono _ h := h
  plain h := ⟨h.payload.1.trans h.call.symm, h.payload.2.trans h.entry.symm⟩
  entry _ _ _ _ := ⟨rfl, rfl⟩
  call _ _ _ _ _ _ hcall := ⟨hcall.symm, (NodeSort.isEntry_of_isCall hcall).symm⟩
  parameter hmark _ _ _ := by
    rw [sort_of_mark hmark, payload_of_mark hmark]
    exact ⟨rfl, rfl⟩
  enlist {_ k a t _} h _ := by
    have hsort : (t.enlist a k).sort = k.sort := congrArg Mark.sort (t.mark_enlist a k)
    rcases t.payload_enlist a k with heq | ⟨-, hcall, hentry, -⟩
    · rw [heq]
      exact h
    · rw [hsort, hcall, hentry]
      exact h
  retouch h _ hk := by
    rw [hk.sort, hk.isCall, hk.isEntry]
    exact h

/-- What a node refers to is there, and nothing is listed twice. -/
theorem lasting_refs : Lasting fun ms k => (∀ i ∈ k.payload.refs, i ∈ ms.map (·.id)) ∧
    k.payload.listed.Nodup where
  mono hsub h := ⟨fun i hi => map_subset _ hsub (h.1 i hi), h.2⟩
  plain h := ⟨h.refs, by rw [listed_eq_nil h.payload.1 h.payload.2]; exact nodup_nil⟩
  entry _ _ _ _ := ⟨fun i hi => absurd hi not_mem_nil, nodup_nil⟩
  call _ _ _ _ _ _ _ := ⟨fun i hi => absurd hi not_mem_nil, nodup_nil⟩
  parameter hmark _ _ howner := by
    rw [payload_of_mark hmark]
    exact ⟨forall_mem_singleton.2 howner, nodup_nil⟩
  enlist {_ k a t _} h hnew := by
    rw [map_append]
    rcases t.payload_enlist a k with heq | ⟨hlists, hcall, hentry, hperm⟩
    · rw [heq]
      exact ⟨fun i hi => mem_append_left _ (h.1 i hi), h.2⟩
    · rw [refs_eq_listed (by rwa [hcall, hentry])]
      rw [refs_eq_listed hlists] at h
      refine ⟨fun i hi => ?_, hperm.nodup_iff.2 (nodup_cons.2 ⟨fun hmem => hnew (h.1 a hmem), h.2⟩)⟩
      rcases mem_cons.1 (hperm.mem_iff.1 hi) with rfl | hi
      · exact mem_append_right _ (mem_singleton_self _)
      · exact mem_append_left _ (h.1 i hi)
  retouch h _ hk := by
    rw [hk.listed]
    refine ⟨fun i hi => ?_, h.2⟩
    rcases hk.payload with heq | ⟨-, -, hrefs⟩
    · exact h.1 i (heq ▸ hi)
    · exact (hrefs i hi).elim (h.1 i) fun hi => hi

end ProgramDependence
