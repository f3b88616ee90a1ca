import ProgramDependence.Proofs.CallSites
import ProgramDependence.Proofs.Layout
import ProgramDependence.Proofs.Results

/-!
# Lowering makes the nodes and edges of a unit

Each step of lowering is one of the ways in which `Made` says that nodes and edges come about, and
the calls of the graph grow by those of the source.  What a step relies on is that some nodes are
there already, as the call to which an argument belongs, and which results are to come; this is its
`Knowledge`.
-/

namespace ProgramDependence

open List

variable {lo : Id} {ns : List Node}
variable {f : Node → Node}

/-! ## Steps of lowering -/

theorem changed_append_new {k : Node} {i : Id} (hnew : i ∉ ns.map (·.id)) (hid : k.id = i) :
    changed (ns ++ [k]) i f = ns ++ [f k] := by
  have hold : ns.map (fun k => if k.id = i then f k else k) = ns := by
    rw [map_congr_left (g := id), map_id]
    intro k hk
    rw [if_neg, id]
    rintro rfl
    exact hnew (mem_map_of_mem hk)
  rw [changed, map_append, hold, map_singleton, if_pos hid]

theorem Graph.mem_of_node? {g : Graph} {i : Id} {n : Node} (h : g.node? i = some n) : n ∈ g.nodes ∧
    n.id = i := by
  exact ⟨mem_of_find?_eq_some h, by simpa using find?_some h⟩

theorem Payload.place?_of_isLoose {payload : Payload} (h : payload.isLoose = true) :
    payload.place? = Option.none := by
  cases payload with
  | parameter => cases h
  | _ => rfl

theorem Node.Retouched.refl (ids : List Id) (k : Node) : k.Retouched ids k :=
  ⟨rfl, rfl, rfl, .refl _, .inl rfl⟩

theorem Node.Retouched.loose {ids : List Id} {k : Node} {payload : Payload} (hk : k.payload.isLoose = true)
    (hpayload : payload.isLoose = true) (hrefs : ∀ i ∈ payload.refs, i ∈ k.payload.refs ∨ i ∈ ids) :
    k.Retouched ids { k with payload } := by
  refine ⟨?_, rfl, rfl, .refl _, .inr ⟨hk, hpayload, hrefs⟩⟩
  rw [Node.mark, Node.mark, Payload.place?_of_isLoose hk, Payload.place?_of_isLoose hpayload]

theorem Node.Retouched.trans {ids : List Id} {k k' k'' : Node} (h : k.Retouched ids k')
    (h' : k'.Retouched ids k'') : k.Retouched ids k'' := by
  refine ⟨h'.mark.trans h.mark, h'.element.trans h.element, h'.serial.trans h.serial,
    List.Subset.trans h.defs h'.defs, ?_⟩
  rcases h.payload with heq | ⟨hloose, hloose', hrefs⟩
  · rw [← heq]
    exact h'.payload
  · rcases h'.payload with heq' | ⟨-, hloose'', hrefs'⟩
    · rw [heq']
      exact .inr ⟨hloose, hloose', hrefs⟩
    · exact .inr ⟨hloose, hloose'', fun i hi => (hrefs' i hi).elim (hrefs i) .inr⟩

theorem Node.retouched_addDef (ids : List Id) (v : Variable) (k : Node) : k.Retouched ids (k.addDef v) := by
  unfold addDef
  split
  · exact .refl ids k
  · exact ⟨rfl, rfl, rfl, subset_append_left _ _, .inl rfl⟩

theorem Node.retouched_addUse (ids : List Id) (v : Variable) (k : Node) : k.Retouched ids (k.addUse v) := by
  unfold addUse
  split <;> exact ⟨rfl, rfl, rfl, .refl _, .inl rfl⟩

namespace Lowering

open Tracked

variable {α β : Type} {scope : Scope}
variable {w : Mark}

/-- What is known while a unit is lowered: results that are to come, nodes that are there, and the
calls that were lowered. -/
structure Knowledge where
  debts : List Debt
  nodes : List Mark
  calls : List (Expr × MethodRef)

namespace Knowledge

def learn (Γ : Knowledge) (w : Mark) : Knowledge :=
  { Γ with nodes := w :: Γ.nodes }

def owe (Γ : Knowledge) (d : Debt) : Knowledge :=
  { Γ with debts := d :: Γ.debts }

def enroll (Γ : Knowledge) (calls : List (Expr × MethodRef)) : Knowledge :=
  { Γ with calls := Γ.calls ++ calls }

/-- Whether a node is known that may be changed. -/
def Has (Γ : Knowledge) (i : Id) : Prop :=
  ∃ w ∈ Γ.nodes, w.id = i ∧ w.isOpen = true

variable {Γ : Knowledge} {i : Id}

theorem Has.learn (h : Γ.Has i) (w : Mark) : (Γ.learn w).Has i := by
  obtain ⟨w', hmem, hrest⟩ := h
  exact ⟨w', mem_cons_of_mem _ hmem, hrest⟩

theorem has_learn (Γ : Knowledge) (hw : w.isOpen = true) : (Γ.learn w).Has w.id :=
  ⟨w, mem_cons_self, rfl, hw⟩

theorem Has.enroll (h : Γ.Has i) (calls : List (Expr × MethodRef)) : (Γ.enroll calls).Has i :=
  h

theorem enroll_nil (Γ : Knowledge) : Γ.enroll [] = Γ := by
  rw [enroll, append_nil]

theorem enroll_enroll (Γ : Knowledge) (calls rest : List (Expr × MethodRef)) :
    (Γ.enroll calls).enroll rest = Γ.enroll (calls ++ rest) := by
  simp only [enroll, append_assoc]

end Knowledge

/-- What is known is so.  The calls are those of the graph where names identify methods. -/
structure Holds (scope : Scope) (lo : Id) (Γ : Knowledge) (p : State × Trail) : Prop where
  made : Made scope.context.program lo Γ.debts p.1.graph.nodes p.1.graph.edges p.2.next
  nodes : Γ.nodes ⊆ p.1.graph.nodes.map Node.mark
  calls : scope.context.program.Named → scope.Enrolled Γ.calls p.1.verdicts p.1.graph.nodes

variable {Γ : Knowledge} {p q : State × Trail} {i : Id}

/-- A new parameter that is still to be listed with its owner; meanwhile it learns its variables,
and edges may be added. -/
structure Sprouts (p : State × Trail) (k : Node) (t : ParameterSort) (e : Element)
    (ordinal : Ordinal) (owner : Id) (g : Graph) (next : Id) : Prop where
  nodes_eq : g.nodes = p.1.graph.nodes ++ [k]
  mark : k.mark = .ofParameter p.2.next t ordinal owner
  element : k.element = e
  serial : k.serial = 0
  new : p.2.next ∉ p.1.graph.nodes.map (·.id)
  made : ∀ {P : Program} {lo : Id} {debts : List Debt} {ns : List Node},
    Made P lo debts ns p.1.graph.edges (p.2.next + 1) → Made P lo debts ns g.edges next

namespace Sprouts

variable {k : Node} {t : ParameterSort} {e : Element} {ordinal : Ordinal} {owner : Id} {g : Graph} {next : Id}

variable (h : Sprouts p k t e ordinal owner g next)
include h

theorem retouch (hf : k.Retouched [] (f k)) :
    Sprouts p (f k) t e ordinal owner (g.modifyNode p.2.next f) next := by
  refine ⟨?_, hf.mark.trans h.mark, hf.element.trans h.element, hf.serial.trans h.serial, h.new, h.made⟩
  change changed g.nodes p.2.next f = _
  rw [h.nodes_eq, changed_append_new h.new (congrArg Mark.id h.mark)]

theorem define (v : Variable) :
    Sprouts p (k.addDef v) t e ordinal owner (g.modifyNode p.2.next (·.addDef v)) next :=
  h.retouch (f := (·.addDef v)) (k.retouched_addDef [] v)

theorem use (v : Variable) :
    Sprouts p (k.addUse v) t e ordinal owner (g.modifyNode p.2.next (·.addUse v)) next :=
  h.retouch (f := (·.addUse v)) (k.retouched_addUse [] v)

end Sprouts

namespace Holds

theorem le (h : Holds scope lo Γ p) : lo ≤ p.2.next :=
  h.made.numbered.le

theorem mem_ids (h : Holds scope lo Γ p) (hi : Γ.Has i) : i ∈ p.1.graph.nodes.map (·.id) := by
  obtain ⟨w, hw, rfl, -⟩ := hi
  rw [ids_eq_marks]
  exact mem_map_of_mem (h.nodes hw)

theorem forget (h : Holds scope lo (Γ.learn w) p) : Holds scope lo Γ p :=
  ⟨h.made, fun _ hw => h.nodes (mem_cons_of_mem _ hw), h.calls⟩

theorem retouch (h : Holds scope lo Γ p) (hi : Γ.Has i)
    (hf : ∀ k : Node, k.Retouched (p.1.graph.nodes.map (·.id)) (f k))
    (hnodes : q.1.graph.nodes = changed p.1.graph.nodes i f) (hedges : q.1.graph.edges = p.1.graph.edges)
    (hnext : q.2.next = p.2.next) (hverdicts : q.1.verdicts = p.1.verdicts) : Holds scope lo Γ q := by
  obtain ⟨w, hw, rfl, hopen⟩ := hi
  constructor
  · rw [hnodes, hedges, hnext]
    exact h.made.retouch (h.nodes hw) hopen hf
  · rw [hnodes, marks_changed fun k => (hf k).mark]
    exact h.nodes
  · rw [hnodes, hverdicts]
    exact fun hnamed => (h.calls hnamed).changed (fun k => (hf k).callMark?) w.id

theorem nodes_append (h : Holds scope lo Γ p) {k : Node} (hnodes : q.1.graph.nodes = p.1.graph.nodes ++ [k]) :
    (Γ.learn k.mark).nodes ⊆ q.1.graph.nodes.map Node.mark := by
  rw [hnodes, map_append]
  exact cons_subset.2 ⟨mem_append_right _ (mem_singleton_self _), fun _ hw => mem_append_left _ (h.nodes hw)⟩

theorem sprouts (h : Holds scope lo Γ p) (t : ParameterSort) (element : Element) (ordinal : Ordinal)
    (owner : Id) :
    Sprouts p { id := p.2.next, sort := .parameter t, element, payload := .parameter ordinal owner }
      t element ordinal owner (p.1.graph.appendNode
        { id := p.2.next, sort := .parameter t, element, payload := .parameter ordinal owner })
        (p.2.next + 1) :=
  ⟨rfl, rfl, rfl, rfl, h.made.not_mem, fun h => h⟩

section Parameter

variable {d d' : Debt} {k : Node} {t : ParameterSort} {e : Element} {ordinal : Ordinal}
    {g : Graph} {next : Id}

variable (h : Holds scope lo (Γ.owe d) p) (hk : Sprouts p k t e ordinal d.node g next)
  (hnodes : q.1.graph.nodes = changed g.nodes d.node (t.enlist p.2.next))
include h hk hnodes

theorem nodes_enlist :
    (Γ.learn (.ofParameter p.2.next t ordinal d.node)).nodes ⊆ q.1.graph.nodes.map Node.mark := by
  rw [hnodes, marks_changed (t.mark_enlist _), hk.nodes_eq, map_append, map_singleton, hk.mark]
  exact cons_subset.2 ⟨mem_append_right _ (mem_singleton_self _), fun _ hw => mem_append_left _ (h.nodes hw)⟩

theorem calls_enlist (hverdicts : q.1.verdicts = p.1.verdicts)
    (hnamed : scope.context.program.Named) : scope.Enrolled Γ.calls q.1.verdicts q.1.graph.nodes := by
  have hcall : k.payload.isCall = false := by
    rw [Node.payload_of_mark hk.mark]
    rfl
  rw [hnodes, hk.nodes_eq, hverdicts]
  exact ((h.calls hnamed).node (Node.callMark?_of_not_isCall hcall)).changed (t.callMark?_enlist _) d.node

variable (hintroduces : k.Introduces) (howner : Γ.Has d.node) (hedges : q.1.graph.edges = g.edges)
    (hnext : q.2.next = next)
  (hverdicts : q.1.verdicts = p.1.verdicts)
include hintroduces howner hedges hnext hverdicts

theorem parameter (htakes : d.Takes t ordinal e d') :
    Holds scope lo ((Γ.owe d').learn (.ofParameter p.2.next t ordinal d.node)) q where
  made := by
    rw [hnodes, hedges, hnext, hk.nodes_eq]
    rw [← hk.element] at htakes
    exact hk.made (h.made.parameter htakes hk.mark hk.serial hintroduces (h.mem_ids (Γ := Γ.owe d) howner))
  nodes := h.nodes_enlist hk hnodes
  calls := h.calls_enlist hk hnodes hverdicts

theorem result (hfull : d.awaited = []) (hvoid : d.method.isVoid = false) (hsort : t = d.sort)
    (hordinal : ordinal = .result) : Holds scope lo Γ q where
  made := by
    subst hsort hordinal
    rw [hnodes, hedges, hnext, hk.nodes_eq]
    exact hk.made (h.made.result hfull hvoid hk.mark hk.serial hintroduces (h.mem_ids (Γ := Γ.owe d) howner))
  nodes _ hw := h.nodes_enlist hk hnodes (mem_cons_of_mem _ hw)
  calls := h.calls_enlist hk hnodes hverdicts

end Parameter

end Holds

/-- A step of lowering makes nodes and edges in the ways of `Made`, and leaves certain knowledge
behind. -/
def Makes (scope : Scope) (lo : Id) (Γ : Knowledge) (x : Lower α) (Δ : α → Knowledge) : Prop :=
  ∀ p, Holds scope lo Γ p → Ends x p (fun a q => Holds scope lo (Δ a) q) (fun _ q => lo ≤ q.2.next)

/-- A step of lowering after which the same is known as before. -/
abbrev Keeps (scope : Scope) (lo : Id) (Γ : Knowledge) (x : Lower α) : Prop :=
  Makes scope lo Γ x fun _ => Γ

/-- A step of lowering that lowers calls, after which nothing else is known than before. -/
abbrev Enrolls (scope : Scope) (lo : Id) (Γ : Knowledge) (x : Lower α)
    (calls : List (Expr × MethodRef)) : Prop :=
  Makes scope lo Γ x fun _ => Γ.enroll calls

namespace Makes

variable {Δ : α → Knowledge} {Θ : β → Knowledge}

theorem bind {x : Lower α} {f : α → Lower β} (hx : Makes scope lo Γ x Δ)
    (hf : ∀ a, Makes scope lo (Δ a) (f a) Θ) : Makes scope lo Γ (x >>= f) Θ := by
  intro p h
  rw [ends_bind]
  exact (hx p h).imp fun a q hq => hf a q hq

theorem pure (a : α) : Makes scope lo (Δ a) (Pure.pure a) Δ :=
  fun _ h => h

theorem throw (e : Error) : Makes scope lo Γ (MonadExcept.throw e : Lower α) Δ :=
  fun _ h => h.le

theorem state {f : State → Lower α} (hf : ∀ s, Makes scope lo Γ (f s) Δ) :
    Makes scope lo Γ (Tracked.state >>= f) Δ :=
  fun p h => hf p.1 p h

theorem forget {x : Lower α} (hx : Makes scope lo (Γ.learn w) x fun a => (Δ a).learn w) :
    Makes scope lo (Γ.learn w) x Δ := by
  intro p h
  exact (hx p h).imp fun _ _ hq => hq.forget

theorem seq {x : Lower α} {f : α → Lower β} {calls rest : List (Expr × MethodRef)}
    (hx : Enrolls scope lo Γ x calls) (hf : ∀ a, Enrolls scope lo (Γ.enroll calls) (f a) rest) :
    Enrolls scope lo Γ (x >>= f) (calls ++ rest) := by
  rw [Enrolls, ← Γ.enroll_enroll calls rest]
  exact hx.bind hf

theorem quiet {x : Lower α} (hx : Keeps scope lo Γ x) : Enrolls scope lo Γ x [] := by
  rw [Enrolls, Γ.enroll_nil]
  exact hx

end Makes

theorem Keeps.pure (a : α) : Keeps scope lo Γ (Pure.pure a) :=
  fun _ h => h

/-! ## Edges -/

structure Joins (p q : State × Trail) : Prop where
  nodes_eq : q.1.graph.nodes = p.1.graph.nodes
  verdicts_eq : q.1.verdicts = p.1.verdicts
  le : p.2.next ≤ q.2.next
  made : ∀ {P : Program} {lo : Id} {debts : List Debt} {ns : List Node},
    Made P lo debts ns p.1.graph.edges p.2.next → Made P lo debts ns q.1.graph.edges q.2.next

theorem Joins.refl (p : State × Trail) : Joins p p :=
  ⟨rfl, rfl, Int.le_refl _, fun h => h⟩

theorem Joins.trans {r : State × Trail} (h : Joins p q) (h' : Joins q r) : Joins p r :=
  ⟨h'.nodes_eq.trans h.nodes_eq, h'.verdicts_eq.trans h.verdicts_eq, Int.le_trans h.le h'.le,
    fun hmade => h'.made (h.made hmade)⟩

/-- New edges leave the invariant in force. -/
theorem Holds.joins (h : Holds scope lo Γ p) (hq : Joins p q) : Holds scope lo Γ q where
  made := by
    rw [hq.nodes_eq]
    exact hq.made h.made
  nodes := by
    rw [hq.nodes_eq]
    exact h.nodes
  calls := by
    rw [hq.nodes_eq, hq.verdicts_eq]
    exact h.calls

theorem Sprouts.joins {r : State × Trail} {k : Node} {t : ParameterSort} {e : Element} {ordinal : Ordinal}
    {owner : Id} (h : Sprouts p k t e ordinal owner q.1.graph q.2.next) (hq : Joins q r) :
    Sprouts p k t e ordinal owner r.1.graph r.2.next :=
  ⟨hq.nodes_eq.trans h.nodes_eq, h.mark, h.element, h.serial, h.new, fun hmade => hq.made (h.made hmade)⟩

/-- A step of lowering adds edges and nothing else. -/
def Connects (x : Lower α) : Prop :=
  ∀ p, Ends x p (fun _ q => Joins p q) (fun _ q => p.2.next ≤ q.2.next)

namespace Connects

theorem pure (a : α) : Connects (Pure.pure a) :=
  fun p => .refl p

theorem bind {x : Lower α} {f : α → Lower β} (hx : Connects x) (hf : ∀ a, Connects (f a)) :
    Connects (x >>= f) := by
  intro p
  rw [ends_bind]
  refine (hx p).imp fun a q hq => ?_
  exact (hf a q).mono (fun _ _ hr => hq.trans hr) fun _ _ hr => Int.le_trans hq.le hr

theorem state {f : State → Lower α} (hf : ∀ s, Connects (f s)) : Connects (Tracked.state >>= f) :=
  fun p => hf p.1 p

theorem forIn {xs : List β} {f : β → Lower Unit} (hf : ∀ b, Connects (f b)) :
    Connects (ForIn.forIn xs PUnit.unit fun x _ => do f x; Pure.pure (ForInStep.yield PUnit.unit)) := by
  intro p
  refine ends_forIn (fun _ q => Joins p q) (fun x _ q hq => ?_) (.refl p)
  exact (hf x q).mono (fun _ _ hr => hq.trans hr) fun _ _ hr => Int.le_trans hq.le hr

theorem keeps {x : Lower α} (hx : Connects x) : Keeps scope lo Γ x :=
  fun p h => (hx p).mono (fun _ _ hq => h.joins hq) fun _ _ hq => Int.le_trans h.le hq

end Connects

theorem connects_addFlow (src dst : Id) (sort : FlowSort) (loop : Option Id) :
    Connects (addFlow src dst sort loop) := by
  intro p
  have hle : p.2.next ≤ p.2.next + 1 := Int.le_of_lt (Int.lt_succ _)
  simp only [addFlow, ends_bind, ends_freshId, ends_attempt]
  cases hadd : p.1.graph.addEdge ⟨p.2.next, src, dst, .flow sort loop⟩ with
  | error e => exact hle
  | ok r =>
    obtain ⟨g, answer⟩ := r
    rcases Graph.addEdge_cases hadd with rfl | ⟨-, rfl⟩
    · exact ⟨rfl, rfl, hle, fun hmade => hmade.draw⟩
    · exact ⟨rfl, rfl, hle, fun hmade => hmade.edge src dst sort loop⟩

theorem connects_connectOne (target : Id) (loop : Option Id) (e : OpenEdge) :
    Connects (connectOne target loop e) := by
  unfold connectOne
  split
  · exact fun p => ⟨rfl, rfl, Int.le_refl _, fun h => h⟩
  · refine .state fun s => ?_
    split
    · exact .pure ()
    · exact connects_addFlow _ _ _ _

theorem connects_connect (pending : Pending) (target : Id) (loop : Option Id) :
    Connects (connect pending target loop) :=
  (Connects.forIn fun e => connects_connectOne target loop e).bind fun _ =>
    (Connects.forIn fun e => connects_connectOne target loop e).bind fun _ => .pure ()

theorem connects_joinAll : ∀ ids : List Id, Connects (joinAll ids)
  | [] => .pure ()
  | [_] => .pure ()
  | _ :: b :: rest => (connects_addFlow _ _ _ _).bind fun _ => connects_joinAll (b :: rest)

theorem connects_chain (pending : Pending) : Connects (chain pending) := by
  refine .state fun s => ?_
  dsimp only
  split
  · exact (connects_connect _ _ _).bind fun _ => connects_joinAll _
  · exact connects_joinAll _

/-! ## Nodes -/

/-- A node that waits for no parameters is learnt. -/
theorem makes_newNode {sort : NodeSort} (element : Element) {payload : Payload}
    (hcall : sort.isCall = false) (hentry : sort.isEntry = false) (hexit : sort.isExit = false)
    (hpayload : payload.isCall = false ∧ payload.isEntry = false) (hrefs : ∀ i ∈ payload.refs, Γ.Has i)
    (hparameter : sort.isParameter = false ∧ payload.place? = none ∨ sort = .parameter .formalIn ∧
      (∃ ordinal owner, payload = .parameter ordinal owner ∧
        ⟨owner, .statement .catchClause, none⟩ ∈ Γ.nodes) ∧ ∀ v, element ≠ .var v) :
    Makes scope lo Γ (newNode sort element payload) fun a => Γ.learn ⟨a, sort, payload.place?⟩ := by
  intro p h
  let k : Node := { id := p.2.next, sort, element, payload }
  have hplain : k.Plain (p.1.graph.nodes.map Node.mark) := by
    refine ⟨hcall, hentry, hpayload, fun i hi => ?_, hparameter.imp_right ?_, fun hexit' => ?_, rfl⟩
    · rw [← ids_eq_marks]
      exact h.mem_ids (hrefs i hi)
    · rintro ⟨rfl, ⟨ordinal, owner, rfl, hcatch⟩, helement⟩
      exact ⟨ordinal, owner, rfl, h.nodes hcatch, helement⟩
    · rw [hexit] at hexit'
      cases hexit'
  exact ⟨h.made.node rfl hplain, h.nodes_append (k := k) rfl,
    fun hnamed => (h.calls hnamed).node (Node.callMark?_of_not_isCall hpayload.1)⟩

variable {sort : StatementSort} {call : Id} {rest : Id → Lower β}

theorem place?_of_refs {payload : Payload} (h : payload.refs = []) : payload.place? = none := by
  cases payload with
  | parameter => cases h
  | _ => rfl

theorem makes_newStatement (element : Element) {payload : Payload}
    (hcall : (NodeSort.statement sort).isCall = false)
    (hpayload : payload.isCall = false ∧ payload.isEntry = false) (hrefs : payload.refs = []) :
    Makes scope lo Γ (newNode (.statement sort) element payload) fun a =>
    Γ.learn ⟨a, .statement sort, none⟩ := by
  have hplace := place?_of_refs hrefs
  rw [← hplace]
  exact makes_newNode element hcall rfl rfl hpayload (by simp [hrefs]) (.inl ⟨rfl, hplace⟩)

theorem keeps_changeNode (hi : Γ.Has i)
    (hf : ∀ ids : List Id, (∀ j, Γ.Has j → j ∈ ids) → ∀ k : Node, k.Retouched ids (f k)) :
    Keeps scope lo Γ (changeNode i f) :=
  fun _ h => h.retouch hi (hf _ fun _ => h.mem_ids) rfl rfl rfl rfl

theorem keeps_define (hi : Γ.Has i) (v : Variable) : Keeps scope lo Γ (define i v) :=
  keeps_changeNode hi fun ids _ => Node.retouched_addDef ids v

theorem keeps_use (hi : Γ.Has i) (v : Variable) : Keeps scope lo Γ (use i v) :=
  keeps_changeNode hi fun ids _ => Node.retouched_addUse ids v

theorem keeps_reportUnresolved (t : Tree) : Keeps scope lo Γ (reportUnresolved scope t) :=
  fun _ h => ⟨h.made, h.nodes, h.calls⟩

theorem keeps_specialVariable (suffix type : String) : Keeps scope lo Γ (specialVariable scope suffix type) :=
  fun _ h => ⟨h.made, h.nodes, h.calls⟩

theorem keeps_splice (node current : Id) : Keeps scope lo Γ (splice node current) :=
  fun _ h => ⟨h.made, h.nodes, h.calls⟩

/-! ## Expressions -/

def CallSite.debt (site : CallSite) (taken awaited : List Element) : Debt :=
  { node := site.call, sort := .actualOut, method := site.callee, awaited, taken }

theorem Sprouts.introduces {k : Node} {t : ParameterSort} {e : Element} {ordinal : Ordinal}
    {owner : Id} {g : Graph} {next : Id} (h : Sprouts p k t e ordinal owner g next)
    (ht : t ≠ .formalIn) : k.Introduces := by
  intro hsort
  cases (Node.sort_of_mark h.mark).symm.trans hsort
  exact absurd rfl ht

theorem makes_newActualIn (site : CallSite) (hcall : Γ.Has site.call) (taken awaited : List Element)
    (argument : Expr) : Makes scope lo (Γ.owe (site.debt taken (.ofExpr argument :: awaited)))
      (newActualIn scope site.callee site.call site.current taken.length argument) fun a =>
        (Γ.owe (site.debt (taken ++ [.ofExpr argument]) awaited)).learn
          (.ofParameter a .actualIn (.argument taken.length) site.call) := by
  intro p h
  have hk := (h.sprouts .actualIn (.ofExpr argument) (.argument taken.length) site.call).define
    (madeUp scope (p.1.specials + 1) "" (parameterType site.callee taken.length))
  exact h.parameter hk rfl (hk.introduces nofun) hcall rfl rfl rfl (.argument rfl rfl)

theorem makes_newActualOut {d d' : Debt} (hcall : Γ.Has d.node) (current : Id) (element : Element)
    {ordinal : Ordinal} (htakes : d.Takes .actualOut ordinal element d') (defined used : Variable) :
    Makes scope lo (Γ.owe d) (newActualOut d.node current element ordinal defined used) fun _ =>
    Γ.owe d' := by
  intro p h
  have hk := ((h.sprouts .actualOut element ordinal d.node).define defined).use used
  refine .imp (?_ : Ends _ p
    (fun _ q => Holds scope lo ((Γ.owe d').learn (.ofParameter p.2.next .actualOut ordinal d.node)) q) _)
    fun _ _ hq => hq.forget
  exact h.parameter hk rfl (hk.introduces nofun) hcall rfl rfl rfl htakes

theorem Holds.payload (h : Holds scope lo Γ p) {t : ParameterSort} {ordinal : Ordinal} {owner : Id} {n : Node}
    (hmark : Mark.ofParameter i t ordinal owner ∈ Γ.nodes) (hn : p.1.graph.node? i = some n) :
    n.payload = .parameter ordinal owner := by
  obtain ⟨k, hk, hkmark⟩ := mem_map.1 (h.nodes hmark)
  obtain ⟨hn, hid⟩ := Graph.mem_of_node? hn
  obtain rfl := inj_on_of_nodup_map h.made.nodup hn hk (hid.trans (congrArg Mark.id hkmark).symm)
  exact Node.payload_of_mark hkmark

/-- The arguments that are handed back are enlisted one after the other. -/
theorem ends_newActualOuts_owed {d : Debt} (hsort : d.sort = .actualOut) (hcall : Γ.Has d.node)
    (current : Id) : ∀ (ains : List Mark) {i : Nat} {handed : List Nat} {p : State × Trail},
    ains.filterMap (·.ordinal?) = (range' i (d.taken.length - i)).map .argument →
    (∀ w ∈ ains, w ∈ Γ.nodes ∧ ∃ ordinal, w = .ofParameter w.id .actualIn ordinal d.node) →
    handed.Sublist (range i) → Holds scope lo (Γ.owe { d with handed }) p →
    Ends (newActualOuts d.node current (ains.map (·.id))) p
      (fun _ q => ∃ handed, Holds scope lo (Γ.owe { d with handed }) q) (fun _ q => lo ≤ q.2.next)
  | [], _, handed, _, _, _, _, h => ⟨handed, h⟩
  | w :: ains, i, handed, p, hordinals, hains, hsub, h => by
    obtain ⟨⟨hw, ordinal, hparameter⟩, hains⟩ := forall_mem_cons.1 hains
    have hmark : Mark.ofParameter w.id .actualIn ordinal d.node ∈ Γ.nodes := hparameter ▸ hw
    rw [hparameter] at hordinals
    replace hordinals : ordinal :: ains.filterMap (·.ordinal?) = _ := hordinals
    have hlt : i < d.taken.length := by
      rcases Nat.lt_or_ge i d.taken.length with hlt | hge
      · exact hlt
      · rw [Nat.sub_eq_zero_of_le hge] at hordinals
        cases hordinals
    rw [show d.taken.length - i = d.taken.length - (i + 1) + 1 by omega, range'_succ, map_cons,
      cons.injEq] at hordinals
    obtain ⟨rfl, hordinals⟩ := hordinals
    have hsub' : (handed ++ [i]).Sublist (range (i + 1)) := by
      rw [range_succ]
      exact hsub.append (.refl _)
    have hrest : ∀ {handed : List Nat} {q : State × Trail}, handed.Sublist (range (i + 1)) →
        Holds scope lo (Γ.owe { d with handed }) q →
        Ends (newActualOuts d.node current (ains.map (·.id))) q
          (fun _ q => ∃ handed, Holds scope lo (Γ.owe { d with handed }) q) (fun _ q => lo ≤ q.2.next) :=
      fun hsub hq => ends_newActualOuts_owed hsort hcall current ains hordinals hains hsub hq
    have hskip := hrest (hsub.trans (range_sublist.2 (Nat.le_succ i))) h
    rw [map_cons, newActualOuts, ends_bind, ends_state]
    split
    · rename_i n hn
      have hpayload := h.payload hmark hn
      split
      · rename_i hpayload'
        obtain ⟨rfl, -⟩ := Payload.parameter.inj (hpayload.symm.trans hpayload')
        split
        · rw [ends_bind]
          have htakes := Debt.Takes.handBack { d with handed } hsort hlt hsub n.element
          exact (makes_newActualOut (d := { d with handed }) hcall current _ htakes _ _ p h).imp
            fun _ _ hq => hrest hsub' hq
        · exact hskip
      · exact hskip
    · exact hskip

theorem ends_outsOfArguments {site : CallSite} {taken : List Element} (hcall : Γ.Has site.call)
    (h : Holds scope lo (Γ.owe (site.debt taken [])) p) :
    Ends (actualInsOf site.call >>= newActualOuts site.call site.current) p
      (fun _ q => ∃ handed, Holds scope lo (Γ.owe { site.debt taken [] with handed }) q)
      (fun _ q => lo ≤ q.2.next) := by
  -- all nodes that are there now may be taken for known
  have hall :
    Holds scope lo (Knowledge.owe { Γ with nodes := p.1.graph.nodes.map Node.mark } (site.debt taken [])) p :=
    ⟨h.made, .refl _, h.calls⟩
  have hhas : Knowledge.Has { Γ with nodes := p.1.graph.nodes.map Node.mark } site.call := by
    obtain ⟨w, hw, hrest⟩ := hcall
    exact ⟨w, h.nodes hw, hrest⟩
  have hfilled := (h.made.audited.owed _ mem_cons_self).2
  refine Ends.imp (?_ : Ends _ p (fun _ q => ∃ handed, Holds scope lo
    (Knowledge.owe { Γ with nodes := p.1.graph.nodes.map Node.mark } { site.debt taken [] with handed }) q) _)
    ?_
  · simp only [actualInsOf, ends_bind, ends_state]
    split
    · rename_i b ins outs x hpayload
      obtain ⟨k, hk, hkpayload⟩ := Option.map_eq_some_iff.1 hpayload
      obtain ⟨hmem, hid⟩ := Graph.mem_of_node? hk
      have hmirrors := h.made.mirrored k hmem
      rw [hkpayload] at hmirrors
      rw [hmirrors.1, hid]
      refine ends_newActualOuts_owed (d := site.debt taken []) (i := 0) rfl hhas site.current _ ?_
        (fun w hw => mem_parametersOf.1 hw) (.refl _) hall
      have hins : placesOf p.1.graph.nodes site.call .actualIn =
        taken.zipIdx.map fun e => (.argument e.2, e.1) :=
        hfilled.ins
      change _ = (range' 0 taken.length).map _
      rw [ordinals_parametersOf, hins, map_map, ← zipIdx_map_snd 0 taken, map_map]
      rfl
    · exact ⟨[], hall⟩
  · rintro _ q ⟨handed, hq⟩
    exact ⟨handed, hq.made, fun _ hw => hq.nodes (h.nodes hw), hq.calls⟩

theorem makes_newResult {d : Debt} {current : Id} (hsort : d.sort = .actualOut)
    (hfull : d.awaited = []) (hcall : Γ.Has d.node) (hcurrent : Γ.Has current) (e : Expr) :
    Makes scope lo (Γ.owe d) (newResult scope e d.method d.node current) fun _ => Γ := by
  unfold newResult
  split
  · rename_i hvoid
    exact fun p h => ⟨h.made.silent hfull hvoid, h.nodes, h.calls⟩
  · rename_i hvoid
    intro p h
    let defined := madeUp scope (p.1.specials + 1) "" d.method.returnType
    have hk := ((h.sprouts .actualOut (.ofExpr e) .result d.node).define defined).use
      (madeUp scope (p.1.specials + 1 + 1) ("!" ++ e.callName) d.method.returnType)
    have hq : Holds scope lo Γ ({ p.1 with graph := .modifyNode _ d.node (ParameterSort.actualOut.enlist
        p.2.next) }, { p.2 with next := p.2.next + 1 }) :=
      h.result hk rfl (hk.introduces nofun) hcall rfl rfl rfl hfull (by simpa using hvoid) hsort.symm rfl
    exact hq.retouch hcurrent (Node.retouched_addUse _ defined) rfl rfl rfl rfl

theorem ends_shouldExpand_holds (h : Holds scope lo Γ p) (callee : MethodRef) :
    Ends (shouldExpand scope callee) p
      (fun x q => Holds scope lo Γ q ∧ (scope.context.program.Named → x = scope.expands callee))
      (fun _ q => lo ≤ q.2.next) := by
  refine (ends_shouldExpand (n := ⟨p.1.specials, p.1.verdicts⟩) ⟨rfl, rfl⟩ callee).always ?_
  rintro x q ⟨rfl, rfl⟩
  have hexpands := fun hnamed => (h.calls hnamed).judged.expands (n := ⟨p.1.specials, p.1.verdicts⟩)
    hnamed callee
  exact ⟨⟨h.made, h.nodes, fun hnamed => ⟨(hexpands hnamed).2, (h.calls hnamed).marks⟩⟩,
    fun hnamed => (hexpands hnamed).1⟩

/-- What is known between the beginning and the end of a call: its node, and what is owed there. -/
def Knowledge.calling (Γ : Knowledge) (sort : StatementSort) (site : CallSite)
    (taken awaited : List Element) : Knowledge where
  debts := if site.expanded then site.debt taken awaited :: Γ.debts else Γ.debts
  nodes := ⟨site.call, .statement sort, none⟩ :: Γ.nodes
  calls := Γ.calls

/-- A call is enrolled before the calls inside it. -/
theorem enrolls_call {current : Id} (hsort : (NodeSort.statement sort).isCall = true)
    (hcurrent : Γ.Has current)
    (e : Expr) {inner : List (Expr × MethodRef)} {rest : Option CallSite → Lower Unit}
    (hnone : ∀ {Γ : Knowledge}, Keeps scope lo Γ (rest none))
    (hsome : ∀ {Γ : Knowledge} (call : Id) (callee : Method) (expanded : Bool), Γ.Has current →
      Makes scope lo
      (Γ.calling sort ⟨call, current, callee, expanded⟩ [] ((Element.ofExpr e).arguments callee))
        (rest (some ⟨call, current, callee, expanded⟩)) fun _ => Γ.enroll inner) :
    Enrolls scope lo Γ (beginCall scope current sort e >>= rest)
    (scope.context.program.callThen e inner) := by
  unfold beginCall
  split
  · rename_i hbound
    rw [callThen_unresolved hbound]
    exact ((keeps_reportUnresolved _).bind fun _ => hnone).quiet
  · rename_i b callee hbound
    have hmethod : scope.context.program.method? b = some callee := by
      obtain ⟨b', -, hb'⟩ := Option.bind_eq_some_iff.1 hbound
      obtain ⟨m, hm, heq⟩ := Option.map_eq_some_iff.1 hb'
      cases heq
      exact hm
    rw [callThen_resolved hbound, ← singleton_append, Enrolls, ← Γ.enroll_enroll, bind_assoc]
    intro p h
    rw [ends_bind]
    refine (ends_shouldExpand_holds h b).imp ?_
    rintro expanded p ⟨h, hexpands⟩
    let k : Node :=
      { id := p.2.next, sort := .statement sort, element := .ofExpr e, payload := .call b [] [] expanded }
    have hq : Holds scope lo ((Γ.enroll [(e, b)]).calling sort ⟨p.2.next, current, callee, expanded⟩ []
        ((Element.ofExpr e).arguments callee))
        ({ p.1 with graph := p.1.graph.appendNode k }, { p.2 with next := p.2.next + 1 }) := by
      exact ⟨h.made.call hmethod hsort (.ofExpr e) expanded, h.nodes_append (k := k) rfl,
        fun hnamed => (h.calls hnamed).call (hexpands hnamed) _ _ e⟩
    have hrest := hsome (Γ := Γ.enroll [(e, b)]) p.2.next callee expanded hcurrent
    cases expanded with
    | false => exact (keeps_splice p.2.next current).bind (fun _ => hrest) _ hq
    | true => exact hrest _ hq

/-- At its end a call owes nothing. -/
theorem makes_endCall {site : CallSite} (hcurrent : Γ.Has site.current) (taken : List Element) (e : Expr) :
    Makes scope lo (Γ.calling sort site taken []) (endCall scope site e) fun _ => Γ := by
  unfold endCall Knowledge.calling
  have hcall : (Γ.learn ⟨site.call, .statement sort, none⟩).Has site.call := Γ.has_learn rfl
  split
  · refine (keeps_splice _ _).bind fun _ => ?_
    rw [← bind_assoc]
    intro p h
    rw [ends_bind]
    refine (ends_outsOfArguments hcall h).imp ?_
    rintro _ q ⟨handed, hq⟩
    refine (makes_newResult (d := { site.debt taken [] with handed }) rfl rfl hcall (hcurrent.learn _) e
      q hq).imp ?_
    exact fun _ _ hr => hr.forget
  · exact (keeps_specialVariable _ _).bind fun v => (keeps_define hcall v).bind fun _ =>
      .forget (keeps_use (hcurrent.learn _) v)

/-! ## Statements -/

theorem loweredCallsOf_cons (P : Program) (e : Expr) (es : List Expr) :
    loweredCallsOf P (e :: es) = loweredCallsOf P [e] ++ loweredCallsOf P es := by
  rw [loweredCallsOf, loweredCallsOf, loweredCallsOf, append_nil]

theorem keeps_jumpBreak (label : Option String) (node : Id) : Keeps scope lo Γ (jumpBreak label node) := by
  refine .state fun s => ?_
  dsimp only
  split
  · exact fun _ h => ⟨h.made, h.nodes, h.calls⟩
  · exact Keeps.pure _

theorem keeps_jumpContinue (label : Option String) (node : Id) :
    Keeps scope lo Γ (jumpContinue label node) := by
  refine .state fun s => ?_
  dsimp only
  split
  · exact fun _ h => ⟨h.made, h.nodes, h.calls⟩
  · exact Keeps.pure _

theorem keeps_exit : Keeps scope lo Γ exit := by
  refine .state fun s => ?_
  split
  · exact fun _ h => ⟨h.made, h.nodes, h.calls⟩
  · exact Keeps.pure _

theorem keeps_continuesSoFar : Keeps scope lo Γ continuesSoFar :=
  fun _ h => h

theorem keeps_entryOfSequence (node : Id) : Keeps scope lo Γ (entryOfSequence node) :=
  fun _ h => h

theorem keeps_openHead : Keeps scope lo Γ openHead :=
  fun _ h => ⟨h.made, h.nodes, h.calls⟩

theorem keeps_headOf (number : Nat) : Keeps scope lo Γ (headOf scope number) := by
  refine .state fun s => ?_
  split
  · exact Keeps.pure _
  · exact .throw _

theorem retouched_addAll (ids : List Id) (defs uses : List Variable) (k : Node) :
    k.Retouched ids (uses.foldl Node.addUse (defs.foldl Node.addDef k)) := by
  have hdefs : ∀ k : Node, k.Retouched ids (defs.foldl .addDef k) := by
    induction defs with
    | nil => exact .refl ids
    | cons v vs ih => exact fun k => (k.retouched_addDef ids v).trans (ih _)
  have huses : ∀ k : Node, k.Retouched ids (uses.foldl .addUse k) := by
    induction uses with
    | nil => exact .refl ids
    | cons v vs ih => exact fun k => (k.retouched_addUse ids v).trans (ih _)
  exact (hdefs k).trans (huses _)

end Lowering

/-! ## Units -/

namespace Cfg

open Tracked Lowering

variable {scope : Scope} {Γ : Knowledge}

/-- What is owed at the entry of a method of which some parameters are there and others are not. -/
def entryDebt (entry : Id) (m : Method) (taken awaited : List Variable) : Debt :=
  { node := entry, sort := .formalOut, method := m, taken := taken.map .var, awaited := awaited.map .var }

/-- The entry takes one parameter after the other. -/
theorem makes_lowerParameters {entry : Id} {m : Method} :
    ∀ (vs : List Variable) {Γ : Knowledge} (_ : Γ.Has entry) (taken : List Variable) (pending : Pending),
    Makes scope lo (Γ.owe (entryDebt entry m taken vs)) (lowerParameters scope entry taken.length vs pending)
      fun _ => Γ.owe (entryDebt entry m (taken ++ vs) [])
  | [], _, _, taken, _ => by
    rw [append_nil]
    exact Keeps.pure _
  | v :: vs, Γ, hi, taken, pending => by
    have hrest := makes_lowerParameters (m := m) vs hi (taken ++ [v])
    rw [length_append, length_singleton, append_assoc, singleton_append] at hrest
    rw [lowerParameters]
    intro p h
    have hk := ((h.sprouts .formalIn (.var v) (.argument taken.length) entry).define v).use
      (madeUp scope (p.1.specials + 1) "" v.type)
    simp only [ends_bind]
    refine (connects_connect pending p.2.next none _).mono (fun _ q hq => ?_)
      fun _ _ hq => Int.le_trans h.made.draw.numbered.le hq
    refine hrest _ _ (.forget (w := .ofParameter p.2.next .formalIn (.argument taken.length) entry)
      (h.parameter (hk.joins hq) rfl ?_ hi rfl rfl hq.verdicts_eq ?_))
    · intro _ w hw
      cases hk.element.symm.trans hw
      exact (Node.retouched_addUse [] _ _).defs (mem_singleton_self v)
    · simpa [entryDebt, ParameterSort.inward] using Debt.Takes.argument
        (d := entryDebt entry m taken (v :: vs)) rfl rfl

theorem makes_lowerResult {entry : Id} (hi : Γ.Has entry) (r : MethodRef) {m : Method}
    (hvoid : m.isVoid = false) (pending : Pending) :
    Makes scope lo (Γ.owe (entryDebt entry m m.parameters []))
      (lowerResult scope entry r m pending) fun _ => Γ := by
  intro p h
  have hk := ((h.sprouts .formalOut (.method r) .result entry).define
    (madeUp scope (p.1.specials + 1) "" m.returnType)).use (scope.context.program.returnVariable m)
  simp only [lowerResult, ends_bind]
  refine (connects_connect pending p.2.next none _).mono (fun _ q hq => ?_)
    fun _ _ hq => Int.le_trans h.made.draw.numbered.le hq
  exact h.result (t := .formalOut) (hk.joins hq) rfl (hk.introduces nofun) hi rfl rfl hq.verdicts_eq rfl
    hvoid rfl rfl

theorem graph_startState {entry exit : Node} (h : entry.id ≠ exit.id) :
    (startState entry exit).graph.nodes = [entry] ++ [exit] ∧ (startState entry exit).graph.edges = [] := by
  simp [startState, ofEnds, Graph.appendNode, Graph.empty, Graph.hasNode, h]

theorem holds_start {debts : List Debt} {sort : ScopeSort} {element : Element}
    (hentry : Made scope.context.program lo debts
      [{ id := lo, sort := .entry sort, element, payload := .entry [] [] }] [] (lo + 1)) (t : Trail) :
    Holds scope lo ⟨debts, [⟨lo, .entry sort, none⟩], []⟩
      (startState { id := lo, sort := .entry sort, element, payload := .entry [] [] }
        { id := lo + 1, sort := .exit sort, element }, { t with next := lo + 1 + 1 }) := by
  let entry : Node := { id := lo, sort := .entry sort, element, payload := .entry [] [] }
  let exit : Node := { id := lo + 1, sort := .exit sort, element }
  have hplain : exit.Plain ([entry].map Node.mark) :=
    ⟨rfl, rfl, ⟨rfl, rfl⟩, forall_mem_nil _, .inl ⟨rfl, rfl⟩, fun _ => rfl, rfl⟩
  have hne : entry.id ≠ exit.id := Int.ne_of_lt (Int.lt_succ lo)
  obtain ⟨hnodes, hedges⟩ := graph_startState hne
  constructor
  · rw [hnodes, hedges]
    exact hentry.node rfl hplain
  · rw [hnodes]
    exact cons_subset.2 ⟨mem_cons_self, nil_subset _⟩
  · rw [hnodes]
    refine fun _ => ⟨?_, rfl⟩
    intro b _ verdict hverdict
    cases hverdict

/-- A unit is made if lowering its body pays all debts. -/
theorem ends_build_made {σ : Type} {sort : ScopeSort} {element : Element} {body : Id → Id → Lower Unit}
    (debts : Id → List Debt) {calls : List (Expr × MethodRef)}
    (hentry : ∀ lo, Made scope.context.program lo (debts lo)
      [{ id := lo, sort := .entry sort, element, payload := .entry [] [] }] [] (lo + 1))
    (hbody : ∀ lo, Makes scope lo ⟨debts lo, [⟨lo, .entry sort, none⟩], []⟩ (body lo (lo + 1))
      fun _ => ⟨[], [⟨lo, .entry sort, none⟩], calls⟩) (p : σ × Trail) :
    Ends (build scope sort element body) p
      (fun c q => q.1 = p.1 ∧ Made scope.context.program p.2.next [] c.nodes c.edges q.2.next ∧
        (scope.context.program.Named → c.callMarks = calls.map scope.markOf))
      (fun _ => Kept p) := by
  simp only [build, ends_bind, ends_within]
  refine (hbody _ _ (holds_start (hentry p.2.next) p.2)).mono ?_ fun _ _ hle => ⟨rfl, hle⟩
  intro _ q hq
  refine (ends_validate _ _).mono ?_ ?_
  · rintro _ r ⟨-, hstate, hnext⟩
    refine ⟨hstate, ?_, fun hnamed => (hq.calls hnamed).marks⟩
    rw [hnext]
    exact hq.made
  · rintro _ r ⟨-, hstate, hnext⟩
    exact ⟨hstate, by rw [hnext]; exact hq.le⟩

end Cfg

end ProgramDependence
