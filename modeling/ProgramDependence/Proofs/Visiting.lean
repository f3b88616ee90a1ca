import ProgramDependence.Proofs.Growth
import ProgramDependence.Proofs.Making

/-!
# Visiting expressions

Lowering visits the expressions of a statement on behalf of its node, the host.  The nodes it
creates are put before the host in the sequence in hand; their labels, in that order, are those of
the bills that `tally` lists, and each node has paid its bill (`ends_visit`).  Besides, only the
host changes: it pays what the walk charges to it.
-/

namespace ProgramDependence

open List Node

/-- The arguments of a call. -/
def Expr.arguments : Expr → List Expr
  | .methodCall _ as _ _ _ _ | .constructorCall as _ _ _ | .instanceCreation _ as _ _ _ => as
  | _ => []

namespace Lowering

open Tracked Graph
variable {ids : List Id} {g : Graph} {done : List Bill} {walked : Tally × List Bill}

section Steps

variable {p : State × Trail} {bad : Error → State × Trail → Prop}

@[simp] theorem ends_newNode (sort : NodeSort) (element : Element) (payload : Payload)
    {good : Id → State × Trail → Prop} : Ends (newNode sort element payload) p good bad ↔
      good p.2.next ({ p.1 with graph := p.1.graph.appendNode { id := p.2.next, sort, element, payload } },
        { p.2 with next := p.2.next + 1 }) :=
  .rfl

variable {good : Unit → State × Trail → Prop}

@[simp] theorem ends_changeNode (id : Id) (f : Node → Node) :
    Ends (changeNode id f) p good bad ↔ good () ({ p.1 with graph := p.1.graph.modifyNode id f }, p.2) :=
  .rfl

@[simp] theorem ends_define (id : Id) (v : Variable) :
    Ends (define id v) p good bad ↔
    good () ({ p.1 with graph := p.1.graph.modifyNode id (·.addDef v) }, p.2) :=
  .rfl

@[simp] theorem ends_use (id : Id) (v : Variable) :
    Ends (use id v) p good bad ↔ good () ({ p.1 with graph := p.1.graph.modifyNode id (·.addUse v) }, p.2) :=
  .rfl

@[simp] theorem ends_specialVariable (scope : Scope) (suffix type : String)
    {good : Variable → State × Trail → Prop} :
    Ends (specialVariable scope suffix type) p good bad ↔ good (madeUp scope (p.1.specials + 1) suffix type)
        ({ p.1 with specials := p.1.specials + 1 }, p.2) :=
  .rfl

end Steps

theorem insertBefore_append {node before : Id} {pre post : List Id} (h : before ∉ pre) :
    insertBefore node before (pre ++ before :: post) = pre ++ node :: before :: post := by
  induction pre with
  | nil => simp [insertBefore]
  | cons x pre ih =>
    rw [mem_cons, not_or] at h
    simp only [cons_append, insertBefore, Ne.symm h.1, if_false, ih h.2]

@[simp] theorem token_addDef (n : Node) (v : Variable) : (n.addDef v).token = n.token := by
  unfold addDef
  split <;> rfl

@[simp] theorem token_addUse (n : Node) (v : Variable) : (n.addUse v).token = n.token := by
  unfold addUse
  split <;> rfl

theorem token_foldl_pay (cs : List Charge) (n : Node) : (cs.foldl pay n).token = n.token := by
  have h := congrArg Node.token (bare_foldl_pay cs n)
  exact h

/-! ## What a visit changes -/

/-- Whether a piece of source is a break or a continue. -/
def isJump : Tree → Bool
  | .stmt (.breakJump _ _) | .stmt (.continueJump _ _) => true
  | _ => false

/-- The breaks and continues among what is not resolved. -/
def lostJumps (unresolved : List Tree) : List Element :=
  (unresolved.filter isJump).map .tree

theorem lostJumps_append {t : Tree} (ht : isJump t = false) (unresolved : List Tree) :
    lostJumps (unresolved ++ [t]) = lostJumps unresolved := by
  simp [lostJumps, ht]

theorem lostJumps_concat {t : Tree} (ht : isJump t = true) (unresolved : List Tree) :
    lostJumps (unresolved ++ [t]) = lostJumps unresolved ++ [.tree t] := by
  simp [lostJumps, ht]

/-- A node in the sequence in hand, and its bill. -/
structure Placed where
  id : Id
  bill : Bill

def Placed.token (x : Placed) : Token :=
  ⟨x.id, x.bill.label⟩

theorem ids_tokens (placed : List Placed) : (placed.map (·.token)).map (·.id) = placed.map (·.id) := by
  rw [map_map]
  rfl

theorem mem_placed_iff {created : List Token} {placed : List Placed} {i : Id}
    (hperm : created.Perm (placed.map (·.token))) : i ∈ created.map (·.id) ↔ i ∈ placed.map (·.id) := by
  rw [(hperm.map _).mem_iff, ids_tokens]

/-- A node that lowering made for a part of an expression, in a sequence of nodes: it has paid its
bill.  The arguments of a call stand before it, and what it leaves behind stands after it. -/
structure Settled (ids : List Id) (b : Bill) (n : Node) : Prop where
  paid : b.charges.foldl pay n.bare = n
  order : ∀ {b ins outs x}, n.payload = .call b ins outs x →
    (∀ i ∈ ins, [i, n.id] <+ ids) ∧ ∀ o ∈ outs, [n.id, o] <+ ids

theorem Settled.mono {ids' : List Id} {b : Bill} {n : Node} (h : Settled ids b n)
    (hids : ids <+ ids') : Settled ids' b n := by
  refine ⟨h.paid, fun hpayload => ?_⟩
  obtain ⟨hins, houts⟩ := h.order hpayload
  exact ⟨fun i hi => (hins i hi).trans hids, fun o ho => (houts o ho).trans hids⟩

/-- A node that was bare and has paid its bill. -/
theorem Settled.of_pay {b : Bill} {n : Node} (hbare : n.bare = n)
    (horder : ∀ {c ins outs x}, n.payload = .call c ins outs x →
      (∀ i ∈ ins, [i, n.id] <+ ids) ∧ ∀ o ∈ outs, [n.id, o] <+ ids) :
      Settled ids b (b.charges.foldl pay n) := by
  have hkept := bare_foldl_pay b.charges n
  refine ⟨by rw [hkept, hbare], fun {c ins outs x} hpayload => ?_⟩
  rw [id_of_token (token_foldl_pay b.charges n)]
  have hsame := congrArg Node.payload hkept
  exact horder (hsame.symm.trans hpayload)

/-- What visiting changes in a state: the graph grows by `created`, the sequence by `placed` before
the current node, and of the nodes that were there only `touched` change.  The nodes in the sequence
that are not touched are settled, and what is lost is reported. -/
structure Extends (current : Id) (touched : List Id) (p q : State × Trail)
    (created : List Token) (placed : List Placed) (lost : List Expr) : Prop where
  kept : q.1 = { p.1 with
    graph := q.1.graph, unresolved := q.1.unresolved, specials := q.1.specials,
    sequence := q.1.sequence, verdicts := q.1.verdicts }
  grows : Grows p.1.graph q.1.graph p.2.next q.2.next created []
  sequence : ∀ pre post, p.1.sequence = pre ++ current :: post → current ∉ pre →
    q.1.sequence = pre ++ (placed.map (·.id) ++ current :: post)
  apart : current ∉ placed.map (·.id)
  others : ∀ id ∈ p.1.graph.nodeIds, id ∉ touched → q.1.graph.node? id = p.1.graph.node? id
  settled : ∀ x ∈ placed, x.id ∉ touched →
    ∃ n, q.1.graph.node? x.id = some n ∧ Settled (placed.map (·.id)) x.bill n
  unresolved : q.1.unresolved = p.1.unresolved ++ lost.map .expr

theorem node?_id {id : Id} {n : Node} (h : g.node? id = some n) : n.id = id := by
  simpa using find?_some h

theorem mem_nodeIds_of_node? {id : Id} {n : Node} (h : g.node? id = some n) : id ∈ g.nodeIds :=
  node?_id h ▸ mem_map_of_mem (mem_of_find?_eq_some h)

namespace Extends

variable {current current' : Id} {touched touched' : List Id} {p q r : State × Trail}
  {created created' : List Token} {placed placed' : List Placed} {lost lost' : List Expr}

section

variable (h : Extends current touched p q created placed lost)

include h

theorem settled_trans (h' : Extends current' touched' q r created' placed' lost')
    (hsub : placed.map (·.id) <+ ids) (hsub' : placed'.map (·.id) <+ ids) {x : Placed}
    (hx : x ∈ placed ∨ x ∈ placed') (ht : x.id ∉ touched) (ht' : x.id ∉ touched') :
    ∃ n, r.1.graph.node? x.id = some n ∧ Settled ids x.bill n := by
  rcases hx with hx | hx
  · obtain ⟨n, hn, hset⟩ := h.settled x hx ht
    exact ⟨n, (h'.others x.id (mem_nodeIds_of_node? hn) ht').trans hn, hset.mono hsub⟩
  · obtain ⟨n, hn, hset⟩ := h'.settled x hx ht'
    exact ⟨n, hn, hset.mono hsub'⟩

theorem trans (h' : Extends current touched' q r created' placed' lost') :
    Extends current (touched ++ touched') p r (created ++ created') (placed ++ placed') (lost ++ lost') where
  kept := by rw [h'.kept, h.kept]
  grows := h.grows.trans h'.grows
  sequence := by
    intro pre post hseq hpre
    have hmid := h.sequence pre post hseq hpre
    rw [← append_assoc] at hmid
    rw [h'.sequence _ post hmid (by
      rw [mem_append, not_or]
      exact ⟨hpre, h.apart⟩)]
    simp
  apart := by
    rw [map_append, mem_append, not_or]
    exact ⟨h.apart, h'.apart⟩
  others := by
    intro id hid htouched
    rw [mem_append, not_or] at htouched
    rw [h'.others id (h.grows.subset hid) htouched.2, h.others id hid htouched.1]
  settled := by
    intro x hx htouched
    rw [mem_append, not_or] at htouched
    exact h.settled_trans h' (by simp) (by simp) (mem_append.1 hx) htouched.1 htouched.2
  unresolved := by rw [h'.unresolved, h.unresolved, append_assoc, map_append]

theorem touch (hsub : touched ⊆ touched') : Extends current touched' p q created placed lost :=
  ⟨h.kept, h.grows, h.sequence, h.apart, fun id hid ht => h.others id hid fun hmem => ht (hsub hmem),
    fun x hx ht => h.settled x hx fun hmem => ht (hsub hmem), h.unresolved⟩

/-- New nodes are not put into the sequence twice. -/
theorem nodup (hperm : created.Perm (placed.map (·.token))) : (placed.map (·.id)).Nodup := by
  have hnodup := h.grows.fit.growing.coherent.nodup_nodes
  rw [Graph.nodeIds_eq_tokens, (h.grows.tokens_perm.map _).nodup_iff, map_append] at hnodup
  rw [← ids_tokens]
  exact (hperm.map _).nodup_iff.1 hnodup.of_append_right

theorem fresh (hperm : created.Perm (placed.map (·.token))) : ∀ i ∈ placed.map (·.id), p.2.next ≤ i := by
  intro i hi
  obtain ⟨t, ht, rfl⟩ := mem_map.1 ((mem_placed_iff hperm).2 hi)
  exact h.grows.fresh t ht

theorem reports : lostJumps q.1.unresolved = lostJumps p.1.unresolved := by
  simp [lostJumps, h.unresolved, filter_map, Function.comp_def, isJump]

end

/-- A new node that is settled in the end need not count as touched. -/
theorem settle {x : Placed} {n : Node} (h : Extends current (x.id :: touched) p q created placed lost)
    (hperm : created.Perm (placed.map (·.token))) (hx : x ∈ placed) (hnew : x.id ∉ p.1.graph.nodeIds)
    (hn : q.1.graph.node? x.id = some n) (hset : Settled (placed.map (·.id)) x.bill n) :
    Extends current touched p q created placed lost := by
  refine ⟨h.kept, h.grows, h.sequence, h.apart, fun id hid ht => h.others id hid ?_, fun y hy ht => ?_,
    h.unresolved⟩
  · rw [mem_cons, not_or]
    exact ⟨fun heq => hnew (heq ▸ hid), ht⟩
  · by_cases heq : y.id = x.id
    · cases inj_on_of_nodup_map (h.nodup hperm) hy hx heq
      exact ⟨n, hn, hset⟩
    · exact h.settled y hy (by simp [heq, ht])

end Extends

/-- The counters of a state are those of the notes. -/
def Noted (p : State × Trail) (n : Notes) : Prop :=
  p.1.specials = n.specials ∧ p.1.verdicts = n.verdicts

/-- What a visit does to its host: it pays its charges. -/
def Hosted (host : Id) (cs : List Charge) (p q : State × Trail) : Prop :=
  q.1.graph.node? host = (p.1.graph.node? host).map (cs.foldl pay)

/-- What a walk adds to its tally. -/
structure Adds (t t' : Tally) (bills : List Bill) (cs : List Charge) (lost : List Expr) : Prop where
  bills_eq : t'.bills = t.bills ++ bills
  charges_eq : t'.charges = t.charges ++ cs
  lost_eq : t'.lost = t.lost ++ lost

/-- A state in which a host in the sequence can be visited. -/
structure Ready (host : Id) (p : State × Trail) : Prop where
  fit : p.1.graph.Fit p.2.next
  host_mem : host ∈ p.1.sequence
  sequence_mem : ∀ id ∈ p.1.sequence, id ∈ p.1.graph.nodeIds

/-- The effect of a visit is that of the walk: nodes with the bills that it lists are put before the
host, and the host pays what it charges. -/
def Visited (host : Id) (p q : State × Trail) (t t' : Tally) : Prop :=
  ∃ created placed cs lost, created.Perm (placed.map (·.token)) ∧ Extends host [host] p q created
    placed lost ∧ Adds t t' (placed.map (·.bill)) cs lost ∧ Noted q t'.notes ∧ Hosted host cs p q

variable {q : State × Trail} {ins outs : List Id} {call ain : Id} {callee : Method} {e : Expr} {scope : Scope}
  {current : Id} {p : State × Trail} {t : Tally} {cs cs' : List Charge}

theorem Adds.refl (t : Tally) : Adds t t [] [] [] :=
  ⟨(append_nil _).symm, (append_nil _).symm, (append_nil _).symm⟩

theorem Adds.trans {t' t'' : Tally} {bills bills' : List Bill} {lost lost' : List Expr}
    (h : Adds t t' bills cs lost) (h' : Adds t' t'' bills' cs' lost') :
    Adds t t'' (bills ++ bills') (cs ++ cs') (lost ++ lost') :=
  ⟨by rw [h'.bills_eq, h.bills_eq, append_assoc], by rw [h'.charges_eq, h.charges_eq, append_assoc],
    by rw [h'.lost_eq, h.lost_eq, append_assoc]⟩

theorem Adds.labels_eq {t' : Tally} {bills : List Bill} {lost : List Expr}
    (h : Adds t t' bills cs lost) : t'.labels = t.labels ++ bills.map (·.label) := by
  rw [Tally.labels, Tally.labels, h.bills_eq, map_append]

theorem Hosted.trans {host : Id} {r : State × Trail} (h : Hosted host cs p q)
    (h' : Hosted host cs' q r) : Hosted host (cs ++ cs') p r := by
  unfold Hosted at h' ⊢
  rw [h', h, Option.map_map]
  congr 1
  funext n
  exact foldl_append.symm

theorem Hosted.refl {host : Id} (h : q.1.graph.node? host = p.1.graph.node? host) : Hosted host [] p q :=
  h.trans Option.map_id_apply.symm

theorem Extends.retouch (current : Id) (hfit : p.1.graph.Fit p.2.next) (id : Id) {f : Node → Node}
    (hf : ∀ n, (f n).token = n.token) :
    Extends current [id] p ({ p.1 with graph := p.1.graph.modifyNode id f }, p.2) [] [] [] := by
  refine ⟨rfl, .modifyNode hfit id hf, fun _ _ hseq _ => by simpa using hseq, by simp, ?_,
    by simp, (append_nil _).symm⟩
  intro x _ htouched
  rw [mem_singleton] at htouched
  exact (node?_modifyNode id x fun n => id_of_token (hf n)).trans (if_neg htouched)

theorem Hosted.pay {host : Id} (c : Charge) :
    Hosted host [c] p ({ p.1 with graph := p.1.graph.modifyNode host (·.pay c) }, p.2) :=
  (node?_modifyNode host host fun n => id_of_token (token_foldl_pay [c] n)).trans (if_pos rfl)

namespace Ready

variable {host : Id} {p q : State × Trail}

theorem mem_nodeIds (h : Ready host p) : host ∈ p.1.graph.nodeIds :=
  h.sequence_mem host h.host_mem

theorem split (h : Ready host p) : ∃ pre post, p.1.sequence = pre ++ host :: post ∧ host ∉ pre := by
  obtain ⟨pre, post, hseq, hpre⟩ := eq_append_cons_of_mem h.host_mem
  exact ⟨pre, post, hseq, hpre⟩

theorem after {touched : List Id} {created : List Token} {placed : List Placed} {lost : List Expr}
    (h : Ready current p) (he : Extends current touched p q created placed lost)
    (hplaced : ∀ x ∈ placed, x.id ∈ q.1.graph.nodeIds) : Ready current q := by
  obtain ⟨pre, post, hseq, hpre⟩ := h.split
  have hseq' := he.sequence pre post hseq hpre
  refine ⟨he.grows.fit, by simp [hseq'], ?_⟩
  intro id hid
  rw [hseq'] at hid
  have hold : id ∈ p.1.sequence → id ∈ q.1.graph.nodeIds := fun hmem =>
    he.grows.mem_nodeIds.2 (.inl (h.sequence_mem id hmem))
  rcases mem_append.1 hid with hid | hid
  · exact hold (by simp [hseq, hid])
  · rcases mem_append.1 hid with hid | hid
    · obtain ⟨x, hx, rfl⟩ := mem_map.1 hid
      exact hplaced x hx
    · exact hold (hseq ▸ mem_append_right _ hid)

/-- Nodes that are created and put into the sequence leave a host ready. -/
theorem after_placing {touched : List Id} {created : List Token} {placed : List Placed}
    {lost : List Expr} (h : Ready current p) (he : Extends current touched p q created placed lost)
    (hperm : created.Perm (placed.map (·.token))) : Ready current q :=
  h.after he fun _ hx =>
    he.grows.mem_nodeIds.2 (.inr ((mem_placed_iff hperm).2 (mem_map_of_mem hx)))

end Ready

namespace Visited

variable {host : Id} {p q r : State × Trail} {t t' t'' : Tally}

theorem ready (hp : Ready host p) (h : Visited host p q t t') : Ready host q := by
  obtain ⟨created, placed, cs, lost, hperm, he, -⟩ := h
  exact hp.after_placing he hperm

theorem noted (h : Visited host p q t t') : Noted q t'.notes := by
  obtain ⟨_, _, _, _, _, _, _, hnoted, _⟩ := h
  exact hnoted

theorem trans (h : Visited host p q t t') (h' : Visited host q r t' t'') : Visited host p r t t'' := by
  obtain ⟨created, placed, cs, lost, hperm, he, hadds, -, hhost⟩ := h
  obtain ⟨created', placed', cs', lost', hperm', he', hadds', hnoted, hhost'⟩ := h'
  refine ⟨created ++ created', placed ++ placed', cs ++ cs', lost ++ lost', ?_, (he.trans he').touch
    (by simp), ?_, hnoted, hhost.trans hhost'⟩
  · rw [map_append]
    exact hperm.append hperm'
  · rw [map_append]
    exact hadds.trans hadds'

/-- A step that leaves the graph and the sequence alone. -/
theorem idle (hp : Ready host p) (lost : List Expr) {s : State} {log : List Notice}
    (hs : s = { p.1 with unresolved := s.unresolved, specials := s.specials, verdicts := s.verdicts })
    (hlost : s.unresolved = p.1.unresolved ++ lost.map .expr) (hadds : Adds t t' [] [] lost)
    (hnoted : Noted (s, { p.2 with log }) t'.notes) : Visited host p (s, { p.2 with log }) t t' := by
  have hgraph : s.graph = p.1.graph := by rw [hs]
  have hsequence : s.sequence = p.1.sequence := by rw [hs]
  have hgrows : Grows p.1.graph s.graph p.2.next p.2.next [] [] := by
    rw [hgraph]
    exact .refl hp.fit
  refine ⟨[], [], [], lost, .refl _, ⟨?_, hgrows, ?_, by simp, ?_, by simp, hlost⟩, hadds, hnoted, ?_⟩
  · rw [hs]
  · intro pre post hseq _
    rw [hsequence]
    simpa using hseq
  · intro id _ _
    rw [hgraph]
  · exact .refl (congrArg (·.node? host) hgraph)

/-- A part of an expression that is not resolved is reported. -/
theorem lose (hp : Ready host p) (ht : Noted p t.notes) {log : List Notice} (e : Expr) :
    Visited host p ({ p.1 with unresolved := p.1.unresolved ++ [.expr e] }, { p.2 with log }) t (t.lose e) :=
  .idle hp [e] rfl rfl ⟨(append_nil _).symm, (append_nil _).symm, rfl⟩ ht

/-- A step that lets the host define or use a variable. -/
theorem pay (hp : Ready host p) (ht : Noted p t.notes) (c : Charge) :
    Visited host p ({ p.1 with graph := p.1.graph.modifyNode host (·.pay c) }, p.2) t (t.charge c) :=
  ⟨[], [], [c], [], .refl _, .retouch host hp.fit host (token_foldl_pay [c]),
    ⟨(append_nil _).symm, rfl, (append_nil _).symm⟩, ht, .pay c⟩

end Visited

/-! ## Names -/

theorem ends_charge (hp : Ready current p) (ht : Noted p t.notes) (defining : Bool) (v : Variable) :
    Returns (charge current defining v) p fun _ q => Visited current p q t (t.charge (.of defining v)) := by
  cases defining with
  | true => exact .pay hp ht (.define v)
  | false => exact .pay hp ht (.use v)

theorem ends_chargeResolved (hp : Ready current p) (ht : Noted p t.notes) (defining : Bool) (e : Expr)
    (v : Option Variable) : Returns (chargeResolved scope current defining e v) p fun _ q =>
      Visited current p q t (t.chargeResolved defining e v) := by
  cases v with
  | some v => exact ends_charge hp ht defining v
  | none => exact .lose hp ht e

/-! ## Calls -/

theorem specials_expands (n : Notes) (callee : MethodRef) :
    (n.expands scope callee).2.specials = n.specials := by
  unfold Notes.expands
  split
  · simp only [Notes.leadsBack]
    repeat' split
    all_goals rfl
  · rfl

/-- A call is expanded if the walk expands it, and the verdict is noted. -/
theorem ends_shouldExpand {n : Notes} (hn : Noted p n) (callee : MethodRef) :
    Returns (shouldExpand scope callee) p
      fun x q => x = (n.expands scope callee).1 ∧
        q = ({ p.1 with verdicts := (n.expands scope callee).2.verdicts }, p.2) := by
  obtain ⟨hspecials, hverdicts⟩ := hn
  have hsame : p = ({ p.1 with verdicts := n.verdicts }, p.2) := by rw [← hverdicts]
  unfold shouldExpand leadsBack Notes.expands Notes.leadsBack
  by_cases hask : (scope.context.settings.createActualNodes.truthy &&
      scope.context.program.unitInProject (.method callee)) = true
  · simp only [hask, if_true]
    cases hmethod : scope.method with
    | none => exact ⟨rfl, hsame⟩
    | some m =>
      by_cases hname : scope.context.program.methodName callee =
          scope.context.program.nameOfMethod m
      · simp only [hname]
        exact ⟨rfl, hsame⟩
      · simp only [hname, if_false, ends_bind, ends_state, hverdicts]
        cases hfind : n.verdicts.find? (scope.context.program.methodName callee) with
        | some verdict => exact ⟨rfl, hsame⟩
        | none => exact ⟨rfl, by rw [← hverdicts]⟩
  · simp only [hask]
    exact ⟨rfl, hsame⟩

/-- The state after a node for a parameter of a call was created, paid its charges, was put before
the current node and listed with its call. -/
def withParameter (p : State × Trail) (current call : Id) (fresh : Node) (cs : List Charge)
    (enlist : Node → Node) (specials : Nat) : State × Trail :=
  ({ p.1 with
      graph := ((p.1.graph.appendNode fresh).modifyNode fresh.id (cs.foldl pay)).modifyNode call enlist
      specials
      sequence := insertBefore fresh.id current p.1.sequence }, { p.2 with next := p.2.next + 1 })

section Parameter

variable {call : Id} {fresh : Node} {enlist : Node → Node}

theorem node?_withParameter (current : Id) (specials : Nat) (cs : List Charge)
    (hnew : fresh.id ∉ p.1.graph.nodeIds) (hcall : call ∈ p.1.graph.nodeIds)
    (henlist : ∀ n, (enlist n).token = n.token) (id : Id) :
    (withParameter p current call fresh cs enlist specials).1.graph.node? id =
      if id = fresh.id then some (cs.foldl pay fresh)
      else if id = call then (p.1.graph.node? id).map enlist else p.1.graph.node? id := by
  have hne : call ≠ fresh.id := fun h => hnew (h ▸ hcall)
  simp only [withParameter]
  rw [node?_modifyNode call id fun n => id_of_token (henlist n),
    node?_modifyNode fresh.id id fun n => id_of_token (token_foldl_pay cs n), node?_appendNode hnew]
  by_cases hid : id = fresh.id
  · rw [hid, if_neg hne.symm]
    simp
  · simp [hid]

/-- The new node counts as touched, so its bill is yet open: `charges` may be anything. -/
theorem extends_withParameter (fresh : Node) (specials : Nat) (cs charges : List Charge)
    (hp : Ready current p) (hcall : call ∈ p.1.graph.nodeIds) (hid : fresh.id = p.2.next)
    (henlist : ∀ n, (enlist n).token = n.token) :
    Extends current [fresh.id, call] p (withParameter p current call fresh cs enlist specials) [fresh.token]
      [⟨fresh.id, ⟨fresh.label, charges⟩⟩] [] := by
  have hnew : fresh.id ∉ p.1.graph.nodeIds := hid ▸ hp.fit.not_mem
  have hcreate : Grows p.1.graph (p.1.graph.appendNode fresh) p.2.next (p.2.next + 1) [fresh.token] [] :=
    .appendNode hp.fit hid
  have hpaid := Grows.modifyNode hcreate.fit fresh.id (token_foldl_pay cs)
  have hne : current ≠ fresh.id := fun h => hnew (h ▸ hp.mem_nodeIds)
  refine ⟨rfl, (hcreate.trans hpaid).trans (.modifyNode hpaid.fit call henlist), ?_,
    by simpa using hne, ?_, by simp, (append_nil _).symm⟩
  · intro pre post hseq hpre
    simp [withParameter, hseq, insertBefore_append hpre]
  · intro id _ htouched
    rw [mem_cons, mem_singleton, not_or] at htouched
    rw [node?_withParameter current specials cs hnew hcall henlist, if_neg htouched.1, if_neg htouched.2]

end Parameter

/-- An expanded call lists its arguments and what it leaves behind. -/
def Lists (g : Graph) (call : Id) (ins outs : List Id) : Prop :=
  ∃ n m, g.node? call = some n ∧ n.payload = .call m ins outs true ∧ n.bare = n

/-- The node of an argument has paid its bill. -/
def Actual (g : Graph) (call ain : Id) (b : Bill) : Prop :=
  call < ain ∧ ∃ n o, g.node? ain = some n ∧ n.label = b.label ∧ b.charges.foldl pay n.bare = n ∧
    n.payload = .parameter o call

theorem token_enlist (s : ParameterSort) (a : Id) (n : Node) : (s.enlist a n).token = n.token :=
  (congrArg Node.token (s.enlist_eq a n)).trans rfl

theorem Lists.enlist {ins' outs' : List Id} {fresh : Node} {enlist : Node → Node}
    (h : Lists p.1.graph call ins outs)
    (current : Id) (specials : Nat) (cs : List Charge) (hnew : fresh.id ∉ p.1.graph.nodeIds)
    (henlist : ∀ n, (enlist n).token = n.token)
    (hins : ∀ n m, n.payload = .call m ins outs true →
      enlist n = { n with payload := .call m ins' outs' true }) :
    Lists (withParameter p current call fresh cs enlist specials).1.graph call ins' outs' := by
  obtain ⟨n, m, hn, hpayload, hbare⟩ := h
  have hcall := mem_nodeIds_of_node? hn
  refine ⟨enlist n, m, ?_, ?_⟩
  · rw [node?_withParameter current specials cs hnew hcall henlist,
      if_neg (fun (h : call = fresh.id) => hnew (h ▸ hcall)), if_pos rfl, hn]
    rfl
  · rw [hins n m hpayload]
    exact ⟨rfl, congrArg (fun n : Node => { n with payload := .call m ins' outs' true }) hbare⟩

/-- The node of an argument before it is visited. -/
def argumentNode (call ain : Id) (position : Nat) (argument : Expr) : Node :=
  { id := ain, sort := .parameter .actualIn, element := .ofExpr argument,
    payload := .parameter (.argument position) call }

/-- An argument gets a node of its own, which its call lists. -/
theorem ends_newActualIn (hp : Ready current p) (hcall : call ∈ p.1.graph.nodeIds)
    (ht : Noted p t.notes) (position : Nat) (argument : Expr) :
    Returns (newActualIn scope callee call current position argument) p fun ain q => ain = p.2.next ∧
        (∀ cs, Extends current [ain, call] p q [⟨ain, ⟨.parameter .actualIn, .ofExpr argument⟩⟩]
          [⟨ain, ⟨.parameter .actualIn, .ofExpr argument⟩, cs⟩] []) ∧
        Noted q (t.openArgument scope callee position).notes ∧
        q.1.graph.node? ain = some
          ((t.openArgument scope callee position).charges.foldl pay
          (argumentNode call ain position argument)) ∧
        ∀ {ins outs}, Lists p.1.graph call ins outs → Lists q.1.graph call (ins ++ [ain]) outs := by
  let fresh := argumentNode call p.2.next position argument
  have hlist := token_enlist .actualIn p.2.next
  have hnew : fresh.id ∉ p.1.graph.nodeIds := hp.fit.not_mem
  refine ⟨rfl, fun cs => extends_withParameter fresh _ [.define _] cs hp hcall rfl hlist,
    ⟨congrArg (· + 1) ht.1, ht.2⟩, ?_, fun hlists => ?_⟩
  · refine (node?_withParameter current _ [.define _] hnew hcall hlist p.2.next).trans ((if_pos rfl).trans ?_)
    simp only [Tally.openArgument, ← ht.1]
    rfl
  · exact hlists.enlist current _ [.define _] hnew hlist fun n m h => by simp [h]

theorem modifyNode_fill (g : Graph) (id : Id) (defined used : Variable) :
    (g.modifyNode id (·.addDef defined)).modifyNode id (·.addUse used) =
      g.modifyNode id ([.define defined, .use used].foldl pay) :=
  modifyNode_modifyNode _ fun n => id_of_token (token_addDef n defined)

/-- Nodes for what a call leaves behind are put before the current node, which may use the last one,
and the call lists them. -/
def Leaves (call current : Id) (p q : State × Trail) (t t' : Tally) : Prop :=
  ∃ placed cs, Extends current [call, current] p q (placed.map (·.token)) placed [] ∧
    Adds t t' (placed.map (·.bill)) cs [] ∧ Noted q t'.notes ∧ Hosted current cs p q ∧
    ∀ {ins outs}, Lists p.1.graph call ins outs → Lists q.1.graph call ins (outs ++ placed.map (·.id))

/-- The host stays as it is as long as only its call is touched. -/
theorem Extends.hosted {created : List Token} {placed : List Placed} {lost : List Expr}
    (he : Extends current [call] p q created placed lost) (hp : Ready current p)
    (hlt : current < call) : Hosted current [] p q :=
  .refl (he.others current hp.mem_nodeIds (by simpa using Int.ne_of_lt hlt))

/-- A new node for something a call leaves behind: it has paid its bill, and the call lists it. -/
theorem leaves_out {t' : Tally} (element : Element) (ordinal : Ordinal) (specials : Nat)
    (hp : Ready current p) (hcall : call ∈ p.1.graph.nodeIds) (hlt : current < call)
    (hadds : Adds t t' [⟨⟨.parameter .actualOut, element⟩, cs⟩] [] [])
    (hnotes : specials = t'.notes.specials ∧ p.1.verdicts = t'.notes.verdicts) :
    Leaves call current p (withParameter p current call
      { id := p.2.next, sort := .parameter .actualOut, element, payload :=
      .parameter ordinal call } cs (ParameterSort.actualOut.enlist p.2.next) specials) t t' := by
  let fresh : Node :=
    { id := p.2.next, sort := .parameter .actualOut, element, payload := .parameter ordinal call }
  have hnew : fresh.id ∉ p.1.graph.nodeIds := hp.fit.not_mem
  have hlist := token_enlist .actualOut fresh.id
  have hn := node?_withParameter current specials cs hnew hcall hlist fresh.id
  rw [if_pos rfl] at hn
  let x : Placed := ⟨fresh.id, ⟨fresh.label, cs⟩⟩
  have he := (extends_withParameter fresh specials cs cs hp hcall rfl hlist).settle (x := x)
    (.refl _) (mem_singleton_self x) hnew hn (.of_pay (b := x.bill) rfl nofun)
  exact ⟨[x], [], he.touch (by simp), hadds, hnotes, he.hosted hp hlt,
    fun hlists => hlists.enlist current specials cs hnew hlist fun n m hn =>
      by simp [ParameterSort.enlist, hn, x, fresh]⟩

theorem ends_newActualOut (hp : Ready current p) (hcall : call ∈ p.1.graph.nodeIds) (hlt : current < call)
    (ht : Noted p t.notes) (element : Element) (ordinal : Ordinal) (defined used : Variable) :
    Returns (newActualOut call current element ordinal defined used) p fun _ q =>
      Leaves call current p q t (t.emit ⟨.parameter .actualOut, element⟩ [.define defined, .use used]) := by
  simp only [newActualOut, ends_bind, ends_define, ends_use, modifyNode_fill]
  exact leaves_out element ordinal p.1.specials hp hcall hlt
    ⟨rfl, (append_nil _).symm, (append_nil _).symm⟩ ht

/-- What is known of an argument stays as long as its node is not touched. -/
theorem Actual.of_same {h : Graph} {b : Bill} (ha : Actual g call ain b)
    (hsame : h.node? ain = g.node? ain) : Actual h call ain b := by
  obtain ⟨hne, n, o, hn, hrest⟩ := ha
  exact ⟨hne, n, o, hsame.trans hn, hrest⟩

theorem Actual.mem_nodeIds {b : Bill} (ha : Actual g call ain b) : ain ∈ g.nodeIds := by
  obtain ⟨-, n, o, hn, -⟩ := ha
  exact mem_nodeIds_of_node? hn

/-- Hand an argument back if it is exactly one object. -/
def handBackOne (call current ain : Id) : Lower Unit := do
  match (← Tracked.state).graph.node? ain with
  | some n =>
    match n.uses, n.defs, n.payload with
    | [u], d :: _, .parameter ordinal _ =>
      if !u.isPrimitive then newActualOut call current n.element ordinal u d
    | _, _, _ => pure ()
  | none => pure ()

theorem newActualOuts_cons (call current ain : Id) (rest : List Id) :
    newActualOuts call current (ain :: rest) = (do
      handBackOne call current ain
      newActualOuts call current rest) := by
  simp only [newActualOuts, handBackOne, bind_assoc]
  congr 1
  funext s
  cases s.graph.node? ain with
  | none => rfl
  | some n =>
    obtain ⟨_, _, _, payload, defs, uses, _⟩ := n
    rcases uses with _ | ⟨u, _ | ⟨_, _⟩⟩ <;> rcases defs with _ | ⟨d, _⟩ <;> cases payload <;> try rfl
    by_cases hu : u.isPrimitive = true <;> simp [hu]

theorem Extends.refl {touched : List Id} (hp : Ready current p) : Extends current touched p p [] [] [] :=
  ⟨rfl, .refl hp.fit, fun _ _ hseq _ => by simpa using hseq, by simp,
    fun _ _ _ => rfl, by simp, (append_nil _).symm⟩

theorem Lists.of_same {h : Graph} (hl : Lists g call ins outs)
    (hsame : h.node? call = g.node? call) : Lists h call ins outs := by
  obtain ⟨n, m, hn, hrest⟩ := hl
  exact ⟨n, m, hsame.trans hn, hrest⟩

namespace Leaves

theorem refl (hp : Ready current p) (ht : Noted p t.notes) : Leaves call current p p t t :=
  ⟨[], [], .refl hp, .refl t, ht, .refl rfl, fun hlists => by simpa using hlists⟩

theorem exists_extends {t' : Tally} (h : Leaves call current p q t t') :
    ∃ placed, Extends current [call, current] p q (placed.map (·.token)) placed [] := by
  obtain ⟨placed, _, he, -⟩ := h
  exact ⟨placed, he⟩

theorem ready {t' : Tally} (hp : Ready current p) (h : Leaves call current p q t t') : Ready current q := by
  obtain ⟨placed, he⟩ := h.exists_extends
  exact hp.after_placing he (.refl _)

theorem noted {t' : Tally} (h : Leaves call current p q t t') : Noted q t'.notes := by
  obtain ⟨_, _, _, _, hnoted, _⟩ := h
  exact hnoted

theorem trans {t' t'' : Tally} {r : State × Trail} (h : Leaves call current p q t t')
    (h' : Leaves call current q r t' t'') : Leaves call current p r t t'' := by
  obtain ⟨placed, cs, he, hadds, -, hhost, hlists⟩ := h
  obtain ⟨placed', cs', he', hadds', hnoted, hhost', hlists'⟩ := h'
  refine ⟨placed ++ placed', cs ++ cs', ?_, ?_, hnoted, hhost.trans hhost', fun h => ?_⟩
  · rw [map_append]
    exact (he.trans he').touch (by simp)
  · rw [map_append]
    exact hadds.trans hadds'
  · rw [map_append, ← append_assoc]
    exact hlists' (hlists h)

/-- A step that lets the host define or use a variable. -/
theorem pay (hp : Ready current p) (hcall : call ∈ p.1.graph.nodeIds) (hlt : current < call)
    (ht : Noted p t.notes) (c : Charge) :
    Leaves call current p ({ p.1 with graph := p.1.graph.modifyNode current (·.pay c) }, p.2) t
      (t.charge c) := by
  have he := Extends.retouch current hp.fit current (token_foldl_pay [c])
  refine ⟨[], [c], he.touch (by simp), ⟨(append_nil _).symm, rfl, (append_nil _).symm⟩, ht, .pay c,
    fun hlists => ?_⟩
  have hstays := hlists.of_same (he.others call hcall (by simpa using Int.ne_of_gt hlt))
  simpa using hstays

end Leaves

/-- An argument is handed back if it is in the walk: its node uses and defines what its bill says. -/
theorem ends_handBackOne {b : Bill} (hp : Ready current p) (hcall : call ∈ p.1.graph.nodeIds)
    (hlt : current < call) (ht : Noted p t.notes) (ha : Actual p.1.graph call ain b) :
    Returns (handBackOne call current ain) p
      fun _ q => Leaves call current p q t (t.handBack b) := by
  obtain ⟨-, n, o, hn, hlabel, hpaid, hpayload⟩ := ha
  have huses : n.uses = b.uses := hpaid ▸ uses_foldl_pay b.charges n.bare
  have hdefs : n.defs = b.defs := hpaid ▸ defs_foldl_pay b.charges n.bare
  have helement : n.element = b.label.element := congrArg Label.element hlabel
  simp only [handBackOne, ends_bind, ends_state, hn, huses, hdefs, hpayload, helement, Tally.handBack]
  rcases b.uses with _ | ⟨u, _ | ⟨w, ws⟩⟩
  · exact Leaves.refl hp ht
  · rcases b.defs with _ | ⟨d, ds⟩
    · exact Leaves.refl hp ht
    · by_cases hu : u.isPrimitive = true
      · simp only [hu]
        exact Leaves.refl hp ht
      · simp only [hu]
        exact ends_newActualOut hp hcall hlt ht b.label.element o u d
  · exact Leaves.refl hp ht

/-- The arguments are handed back in order, as in the walk. -/
theorem ends_newActualOuts (ains : List Id) (hp : Ready current p) (hcall : call ∈ p.1.graph.nodeIds)
    (hlt : current < call) (ht : Noted p t.notes) (hactual : List.Forall₂ (Actual p.1.graph call) ains done) :
    Returns (newActualOuts call current ains) p fun _ q =>
      Leaves call current p q t (done.foldl Tally.handBack t) := by
  induction ains generalizing p t done with
  | nil =>
    cases hactual
    exact .refl hp ht
  | cons ain ains ih =>
    cases hactual with
    | @cons _ b _ done ha hactual =>
      rw [newActualOuts_cons, returns_bind]
      refine (ends_handBackOne hp hcall hlt ht ha).imp ?_
      intro _ q hleaves
      obtain ⟨_, he⟩ := hleaves.exists_extends
      have hstay : List.Forall₂ (Actual q.1.graph call) ains done := by
        refine hactual.imp fun a y hay => hay.of_same (he.others a hay.mem_nodeIds ?_)
        rw [mem_cons, mem_singleton, not_or]
        exact ⟨Int.ne_of_gt hay.1, Int.ne_of_gt (Int.lt_trans hlt hay.1)⟩
      refine (ih (hleaves.ready hp) (he.grows.subset hcall) hleaves.noted hstay).imp ?_
      exact fun _ r hrest => hleaves.trans hrest

/-- The result of an expanded call gets a node, and the host uses the variable that it defines. -/
theorem ends_newResult (hp : Ready current p) (hcall : call ∈ p.1.graph.nodeIds) (hlt : current < call)
    (ht : Noted p t.notes) : Returns (newResult scope e callee call current) p
      fun _ q => Leaves call current p q t (t.result scope e callee) := by
  unfold newResult Tally.result
  by_cases hvoid : callee.isVoid = true
  · simp only [hvoid]
    exact .refl hp ht
  · simp only [hvoid, Bool.false_eq_true, if_false, ends_bind, ends_specialVariable,
      ends_define, ends_use, modifyNode_fill, ← ht.1]
    let defined := madeUp scope (p.1.specials + 1) "" callee.returnType
    let used := madeUp scope (p.1.specials + 1 + 1) ("!" ++ e.callName) callee.returnType
    have hout :
      Leaves call current p _ t { t.emit ⟨.parameter .actualOut, .ofExpr e⟩ [.define defined, .use used] with
        notes := t.notes.special.special } :=
      leaves_out (.ofExpr e) .result (p.1.specials + 1 + 1) hp hcall hlt
        ⟨rfl, (append_nil _).symm, (append_nil _).symm⟩ ⟨congrArg (· + 1 + 1) ht.1, ht.2⟩
    obtain ⟨_, he⟩ := hout.exists_extends
    exact hout.trans (.pay (hout.ready hp) (he.grows.subset hcall) hlt hout.noted (.use defined))

/-- The result of a merged call is made up; the call defines it and the host uses it. -/
theorem ends_newMergedResult (e : Expr) (callee : Method) (hp : Ready current p)
    (hlt : current < call) : Returns (newMergedResult scope e callee call current) p fun _ q =>
      let returned := madeUp scope (p.1.specials + 1) ("!" ++ e.callName) callee.returnType
      Extends current [call, current] p q [] [] [] ∧ Noted q ⟨p.1.specials + 1, p.1.verdicts⟩ ∧
        Hosted current [.use returned] p q ∧ Hosted call [.define returned] p q := by
  simp only [newMergedResult]
  let returned := madeUp scope (p.1.specials + 1) ("!" ++ e.callName) callee.returnType
  let q : State × Trail := ({ p.1 with
    specials := p.1.specials + 1, graph := p.1.graph.modifyNode call (·.addDef returned) }, p.2)
  have he : Extends current [call] p q [] [] [] := by
    have h : Extends current [call] p _ [] [] [] :=
      .retouch current hp.fit call fun n => token_addDef n returned
    exact ⟨rfl, h.grows, h.sequence, h.apart, h.others, h.settled, h.unresolved⟩
  have he' := Extends.retouch current he.grows.fit current (token_foldl_pay [.use returned])
  refine ⟨he.trans he', ⟨rfl, rfl⟩, (he.hosted hp hlt).trans (.pay (.use returned)), ?_⟩
  have hdefined : Hosted call [.define returned] p q := .pay (.define returned)
  refine Eq.trans ?_ hdefined
  refine (node?_modifyNode current call fun n => id_of_token (token_foldl_pay [.use returned] n)).trans ?_
  exact if_neg (Int.ne_of_gt hlt)

/-- What a visit on behalf of a new node adds counts as added before that node. -/
theorem Extends.hosting {touched : List Id} {r : State × Trail} {created₀ created : List Token}
    {placed : List Placed} {x : Placed} {lost₀ lost : List Expr} (hp : Ready current p)
    (h₀ : Extends current (x.id :: touched) p q created₀ [x] lost₀) (hnew : x.id ∉ p.1.graph.nodeIds)
    (h : Extends x.id [x.id] q r created placed lost) (hperm : created.Perm (placed.map (·.token))) :
    Extends current (x.id :: touched) p r (created₀ ++ created) (placed ++ [x]) (lost₀ ++ lost) where
  kept := by rw [h.kept, h₀.kept]
  grows := h₀.grows.trans h.grows
  sequence := by
    intro pre post hseq hpre
    have hhost : x.id ∉ pre := fun hmem =>
      hnew (hp.sequence_mem _ (hseq ▸ mem_append_left _ hmem))
    have hmid := h₀.sequence pre post hseq hpre
    rw [h.sequence pre (current :: post) (by simpa using hmid) hhost]
    simp
  apart := by
    have hcurrent : current < q.2.next :=
      h₀.grows.fit.lt_of_mem (h₀.grows.subset hp.mem_nodeIds)
    rw [map_append, mem_append, not_or]
    refine ⟨fun hmem => ?_, h₀.apart⟩
    obtain ⟨y, hy, rfl⟩ := mem_map.1 hmem
    exact absurd (h.grows.fresh y.token (hperm.mem_iff.2 (mem_map_of_mem hy))) (Int.not_le.2 hcurrent)
  others := by
    intro id hid htouched
    have hne : id ∉ [x.id] := fun hmem => htouched (mem_cons.2 (.inl (mem_singleton.1 hmem)))
    rw [h.others id (h₀.grows.subset hid) hne, h₀.others id hid htouched]
  settled := by
    intro y hy htouched
    have hne : y.id ∉ [x.id] := fun hmem => htouched (mem_cons.2 (.inl (mem_singleton.1 hmem)))
    exact h₀.settled_trans h (by simp) (by simp) (mem_append.1 hy).symm htouched hne
  unresolved := by rw [h.unresolved, h₀.unresolved, append_assoc, map_append]

theorem perm_hosting {created : List Token} {placed : List Placed} (x : Placed)
    (hperm : created.Perm (placed.map (·.token))) :
    ([x.token] ++ created).Perm ((placed ++ [x]).map (·.token)) := by
  rw [map_append]
  exact perm_append_comm.trans (hperm.append_right _)

/-- A node of the graph is put before the current one. -/
theorem Extends.place (x : Placed) (hp : Ready current p) (hne : current ≠ x.id) :
    Extends current [x.id] p
      ({ p.1 with sequence := insertBefore x.id current p.1.sequence }, p.2) [] [x] [] := by
  refine ⟨rfl, .refl hp.fit, ?_, by simpa using hne, fun _ _ _ => rfl, by simp, (append_nil _).symm⟩
  intro pre post hseq hpre
  simp [hseq, insertBefore_append hpre]

/-- The arguments of an expanded call were visited: each has a node that its call lists. -/
def Argued (call current : Id) (p q : State × Trail) (t : Tally) (walked : Tally × List Bill) : Prop :=
  ∃ created placed ins lost, created.Perm (placed.map (·.token)) ∧
    Extends current [call] p q created placed lost ∧ walked.1.bills = t.bills ++ placed.map (·.bill) ∧
    walked.1.lost = t.lost ++ lost ∧ Noted q walked.1.notes ∧ Lists q.1.graph call ins [] ∧
    List.Forall₂ (Actual q.1.graph call) ins walked.2

/-- One more argument: a node of its own, and the visit on its behalf. -/
theorem Argued.step {r : State × Trail} {position : Nat} (hp : Ready current p)
    (hcall : call ∈ p.1.graph.nodeIds) (hnew : ain = p.2.next)
    (he : ∀ cs, Extends current [ain, call] p q [⟨ain, ⟨.parameter .actualIn, .ofExpr e⟩⟩]
      [⟨ain, ⟨.parameter .actualIn, .ofExpr e⟩, cs⟩] [])
    (hnode : q.1.graph.node? ain = some
      ((t.openArgument scope callee position).charges.foldl pay (argumentNode call ain position e)))
    (hlists : Lists q.1.graph call (ins ++ [ain]) []) (hdone : List.Forall₂ (Actual p.1.graph call) ins done)
    {inner : Tally} (hvisit : Visited ain q r (t.openArgument scope callee position) inner) :
    Argued call current p r t (inner.emit ⟨.parameter .actualIn, .ofExpr e⟩ inner.charges,
      done ++ [⟨⟨.parameter .actualIn, .ofExpr e⟩, inner.charges⟩]) := by
  obtain ⟨created, placed, cs, lost, hperm, hev, hadds, hnoted, hhost⟩ := hvisit
  have hm : r.1.graph.node? ain = some (inner.charges.foldl pay (argumentNode call ain position e)) := by
    rw [hhost, hnode, hadds.charges_eq, foldl_append]
    rfl
  have hfresh : ain ∉ p.1.graph.nodeIds := hnew ▸ hp.fit.not_mem
  have hlt : call < ain := hnew ▸ hp.fit.lt_of_mem hcall
  have hbare := bare_foldl_pay inner.charges (argumentNode call ain position e)
  let x : Placed := ⟨ain, ⟨.parameter .actualIn, .ofExpr e⟩, inner.charges⟩
  have hall := (he inner.charges).hosting (x := x) hp hfresh hev hperm
  have hperm' := perm_hosting x hperm
  refine ⟨_, _, ins ++ [ain], _, hperm', hall.settle hperm' (mem_append_right _ (mem_singleton_self x)) hfresh
    hm ?_, ?_, hadds.lost_eq, hnoted, ?_, ?_⟩
  · exact .of_pay (b := x.bill) rfl nofun
  · simp only [Tally.emit, hadds.bills_eq, map_append, append_assoc]
    rfl
  · refine hlists.of_same (hev.others call ((he []).grows.subset hcall) ?_)
    rw [mem_singleton]
    exact Int.ne_of_lt hlt
  · refine rel_append (hdone.imp fun a x ha => ?_) (.cons ?_ .nil)
    · have hmem := ha.mem_nodeIds
      have hne : a ≠ ain := fun h => hfresh (h ▸ hmem)
      refine ha.of_same ((hev.others a ((he []).grows.subset hmem) ?_).trans ((he []).others a hmem ?_))
      · rwa [mem_singleton]
      · simp [hne, Int.ne_of_gt ha.1]
    · exact ⟨hlt, _, .argument position, hm, congrArg Node.label hbare,
        by rw [hbare]; rfl, congrArg Node.payload hbare⟩

theorem Argued.trans {r : State × Trail} {walked' : Tally × List Bill}
    (h : Argued call current p q t walked) (h' : Argued call current q r walked.1 walked') :
    Argued call current p r t walked' := by
  obtain ⟨created, placed, -, lost, hperm, he, hbills, hlost, -⟩ := h
  obtain ⟨created', placed', ins, lost', hperm', he', hbills', hlost', hrest⟩ := h'
  refine ⟨created ++ created', placed ++ placed', ins, lost ++ lost', ?_, (he.trans he').touch (by simp),
    ?_, ?_, hrest⟩
  · rw [map_append]
    exact hperm.append hperm'
  · rw [hbills', hbills, map_append, append_assoc]
  · rw [hlost', hlost, append_assoc]

/-- The state after the node of a call was created; a merged call is put into the sequence at once. -/
def withCall (p : State × Trail) (verdicts : Table String Bool) (sort : StatementSort) (e : Expr)
    (b : MethodRef) (current : Id) (expanded : Bool) : State × Trail :=
  ({ p.1 with
      verdicts
      graph := p.1.graph.appendNode
        { id := p.2.next, sort := .statement sort, element := .ofExpr e, payload := .call b [] [] expanded }
      sequence := if expanded then p.1.sequence else insertBefore p.2.next current p.1.sequence },
    { p.2 with next := p.2.next + 1 })

/-- A call that is resolved gets its node. -/
theorem ends_beginCall {sort : StatementSort} {b : MethodRef} (ht : Noted p t.notes)
    (hcallee : calleeOf scope e = some (b, callee)) : Returns (beginCall scope current sort e) p
      fun site q => site = some ⟨p.2.next, current, callee, (t.notes.expands scope b).1⟩ ∧
        q = withCall p (t.notes.expands scope b).2.verdicts sort e b current (t.notes.expands scope b).1 := by
  have hbinding : (e.binding?.bind fun b => (scope.context.program.method? b).map (b, ·)) =
      some (b, callee) := hcallee
  simp only [beginCall, hbinding, ends_bind]
  refine (ends_shouldExpand ht b).imp ?_
  rintro expanded q ⟨rfl, rfl⟩
  cases hexpanded : (t.notes.expands scope b).1 with
  | true => exact ⟨rfl, rfl⟩
  | false => exact ⟨rfl, rfl⟩

theorem ends_beginCall_none {sort : StatementSort} (hp : Ready current p) (ht : Noted p t.notes)
    (hcallee : calleeOf scope e = none) :
    Returns (beginCall scope current sort e) p fun site q => site = none ∧
    Visited current p q t (t.lose e) := by
  have hbinding : (e.binding?.bind fun b => (scope.context.program.method? b).map (b, ·)) = none :=
    hcallee
  simp only [beginCall, hbinding]
  exact ⟨rfl, .lose hp ht e⟩

theorem visitArguments_merged {site : CallSite} (h : site.expanded = false) (position : Nat)
    (es : List Expr) : visitArguments scope site position es = visitAll scope site.call es := by
  induction es generalizing position with
  | nil => rfl
  | cons e es ih => simp [visitArguments, visitAll, h, ih]

section Call

variable {sort : StatementSort} {e : Expr} {b : MethodRef} {callee : Method}
  {verdicts : Table String Bool} {q : State × Trail} {n : Notes}

/-- The node of the call counts as touched, so the bill of a merged call is yet open. -/
theorem extends_withCall (verdicts : Table String Bool) (sort : StatementSort) (e : Expr)
    (b : MethodRef) (hp : Ready current p) (cs : List Charge) (expanded : Bool) :
    Extends current [p.2.next] p (withCall p verdicts sort e b current expanded)
      [⟨p.2.next, ⟨.statement sort, .ofExpr e⟩⟩]
      (if expanded then [] else [⟨p.2.next, ⟨.statement sort, .ofExpr e⟩, cs⟩]) [] := by
  have hne : current ≠ p.2.next := fun h => hp.fit.not_mem (h ▸ hp.mem_nodeIds)
  refine ⟨rfl, .appendNode hp.fit rfl, ?_, ?_, ?_, ?_, (append_nil _).symm⟩
  · intro pre post hseq hpre
    cases expanded with
    | true => simpa [withCall] using hseq
    | false => simp [withCall, hseq, insertBefore_append hpre]
  · cases expanded <;> simp [hne]
  · intro id hid _
    exact (node?_appendNode hp.fit.not_mem id).trans
      (if_neg fun (h : id = p.2.next) => hp.fit.not_mem (h ▸ hid))
  · cases expanded <;> simp

/-- A merged call: its arguments, the call itself, and the made-up result. -/
theorem ends_endCall_merged {inner : Tally} (hp : Ready current p)
    (hvisit : Visited p.2.next (withCall p verdicts sort e b current false) q
      { t with charges := [], notes := n } inner) :
    Returns (endCall scope ⟨p.2.next, current, callee, false⟩ e) q fun _ r =>
      Visited current p r t (inner.closeMerged scope sort e callee t.charges) := by
  obtain ⟨created, placed, cs, lost, hperm, hev, hadds, hnoted, hcalled⟩ := hvisit
  let called : Node :=
    { id := p.2.next, sort := .statement sort, element := .ofExpr e, payload := .call b [] [] false }
  let returned := madeUp scope (q.1.specials + 1) ("!" ++ e.callName) callee.returnType
  let x : Placed := ⟨p.2.next, ⟨.statement sort, .ofExpr e⟩, cs ++ [.define returned]⟩
  have hlt : current < p.2.next := hp.fit.lt_of_mem hp.mem_nodeIds
  have he := (extends_withCall verdicts sort e b hp (cs ++ [.define returned]) false).hosting
    (x := x) hp hp.fit.not_mem hev hperm
  have hperm' := perm_hosting x hperm
  have hq := hp.after_placing he hperm'
  simp only [endCall]
  refine (ends_newMergedResult e callee hq hlt).imp ?_
  rintro _ r ⟨he', hnoted', hhost, hcall⟩
  have hall : Extends current [p.2.next, current] p r _ _ _ := (he.trans he').touch (by simp [x])
  rw [append_nil, append_nil, append_nil] at hall
  have hn : r.1.graph.node? p.2.next = some (x.bill.charges.foldl pay called) := by
    have hnew : (withCall p verdicts sort e b current false).1.graph.node? p.2.next = some called :=
      (node?_appendNode hp.fit.not_mem p.2.next).trans (if_pos rfl)
    rw [hcalled.trans hcall, hnew]
    rfl
  refine ⟨_, _, [.use returned], _, hperm', hall.settle hperm' (mem_append_right _ (mem_singleton_self x))
    hp.fit.not_mem hn ?_, ⟨?_, ?_, hadds.lost_eq⟩, ⟨?_, ?_⟩, ?_⟩
  · refine .of_pay (n := called) rfl fun h => ?_
    cases h
    exact ⟨nofun, nofun⟩
  · simp only [Tally.closeMerged, Tally.charge, Tally.emit, hadds.bills_eq, hadds.charges_eq, ← hnoted.1,
      map_append, append_assoc]
    rfl
  · simp only [Tally.closeMerged, Tally.charge, Tally.emit, ← hnoted.1]
    rfl
  · exact hnoted'.1.trans (congrArg (· + 1) hnoted.1)
  · exact hnoted'.2.trans hnoted.2
  · exact (he.hosted hp hlt).trans hhost

theorem ends_actualInsOf (h : Lists p.1.graph call ins outs)
    {good : List Id → State × Trail → Prop} {bad : Error → State × Trail → Prop} :
    Ends (actualInsOf call) p good bad ↔ good ins p := by
  obtain ⟨n, m, hn, hpayload, -⟩ := h
  simp [actualInsOf, hn, hpayload]

/-- An expanded call: its arguments, the call itself, what it hands back, and its result. -/
theorem ends_endCall_expanded (hp : Ready current p)
    (hargued : Argued p.2.next current (withCall p verdicts sort e b current true) q
      { t with notes := n } walked) :
    Returns (endCall scope ⟨p.2.next, current, callee, true⟩ e) q fun _ r =>
      Visited current p r t (.closeExpanded scope sort e callee t.charges walked) := by
  obtain ⟨created, placed, ins, lost, hperm, hargs, hbills, hlost, hnoted, hlists, hactual⟩ := hargued
  let x : Placed := ⟨p.2.next, ⟨.statement sort, .ofExpr e⟩, []⟩
  let called := { walked.1 with charges := t.charges }.emit x.bill.label []
  have hlt : current < p.2.next := hp.fit.lt_of_mem hp.mem_nodeIds
  have hcreate := extends_withCall verdicts sort e b hp [] true
  have hready := hp.after hcreate (by simp)
  have hq : Ready current q := hready.after_placing hargs hperm
  have hcall : p.2.next ∈ q.1.graph.nodeIds :=
    hargs.grows.mem_nodeIds.2 (.inl (hcreate.grows.mem_nodeIds.2 (.inr (by simp))))
  -- The arguments have greater ids than the call, so they were put before it.
  have hins : ∀ i ∈ ins, i ∈ placed.map (·.id) := by
    refine ((forall₂_and_left (R := fun _ _ => True) _ _).1 (hactual.imp fun i _ ha => ⟨?_, trivial⟩)).1
    rcases hargs.grows.mem_nodeIds.1 ha.mem_nodeIds with hold | hnew
    · exact absurd (hready.fit.lt_of_mem hold) (Int.not_lt.2 ha.1)
    · exact (mem_placed_iff hperm).1 hnew
  have hplace := Extends.place x hq (Int.ne_of_lt hlt)
  have hq' := hq.after hplace (by simpa using hcall)
  simp only [endCall, if_true, ends_bind]
  refine (ends_actualInsOf (by exact hlists)).2 ?_
  refine (ends_newActualOuts (t := called) ins hq' hcall hlt hnoted hactual).imp ?_
  intro _ r houts
  obtain ⟨_, he⟩ := houts.exists_extends
  refine (ends_newResult (houts.ready hq') (he.grows.subset hcall) hlt houts.noted).imp ?_
  intro _ u hresult
  obtain ⟨outs, cs, hleft, hadds, hnoted', hhost, hlists'⟩ := houts.trans hresult
  have hkept := (hcreate.trans hargs).trans hplace
  have hall : Extends current [p.2.next, current] p u ([x.token] ++ created ++ outs.map (·.token))
      (placed ++ [x] ++ outs) lost := by
    simpa [x, Placed.token] using (hkept.trans hleft).touch (show _ ⊆ [p.2.next, current] by simp [x])
  have hperm' :
    ([x.token] ++ created ++ outs.map (·.token)).Perm ((placed ++ [x] ++ outs).map (·.token)) := by
    rw [map_append]
    exact (perm_hosting x hperm).append_right _
  obtain ⟨k, m, hk, hpayload, hbare⟩ := hlists' hlists
  refine ⟨_, _, cs, _, hperm', hall.settle (x := x) hperm' (by simp) hp.fit.not_mem hk ⟨hbare, fun h => ?_⟩,
    ⟨?_, hadds.charges_eq, ?_⟩, hnoted', ?_⟩
  · cases hpayload.symm.trans h
    have hseq : (placed ++ [x] ++ outs).map (·.id) = placed.map (·.id) ++ p.2.next :: outs.map (·.id) := by
      simp [x]
    rw [node?_id hk, hseq]
    refine ⟨fun i hi => ?_, fun o ho => ?_⟩
    · exact (singleton_sublist.2 (hins i hi)).append (singleton_sublist.2 mem_cons_self)
    · exact ((singleton_sublist.2 ho).cons_cons _).trans (sublist_append_right _ _)
  · refine hadds.bills_eq.trans ?_
    simp [called, Tally.emit, hbills, x]
  · exact hadds.lost_eq.trans ((append_nil _).trans hlost)
  · exact (Hosted.refl
      (hkept.others current hp.mem_nodeIds (by simpa [x] using Int.ne_of_lt hlt))).trans hhost

theorem noted_withCall (current : Id) (sort : StatementSort) (e : Expr) (b : MethodRef)
    (ht : Noted p t.notes) (expanded : Bool) :
    Noted (withCall p (t.notes.expands scope b).2.verdicts sort e b current expanded)
    (t.notes.expands scope b).2 :=
  ⟨ht.1.trans (specials_expands t.notes b).symm, rfl⟩

/-- A node that was put into the sequence can be visited in turn. -/
theorem Ready.argument {label : Label} {touched : List Id} (hp : Ready current p)
    (he : Extends current touched p q [⟨ain, label⟩] [⟨ain, label, cs⟩] []) : Ready ain q := by
  have hq : Ready current q := hp.after_placing he (.refl _)
  obtain ⟨pre, post, hseq, hpre⟩ := hp.split
  refine ⟨hq.fit, ?_, hq.sequence_mem⟩
  rw [he.sequence pre post hseq hpre]
  simp

/-- Visiting arguments does what the walk through them says, be their call merged or expanded. -/
structure Walks (scope : Scope) (current : Id) (as : List Expr) : Prop where
  merged : ∀ {host q} {t : Tally}, Ready host q → Noted q t.notes → Returns (visitAll scope host as) q
    fun _ r => Visited host q r t (tallyAll scope as t)
  expanded : ∀ {call q} {t : Tally} {callee}, Ready current q → call ∈ q.1.graph.nodeIds → Noted q t.notes →
    Lists q.1.graph call [] [] → Returns (visitArguments scope ⟨call, current, callee, true⟩ 0 as) q
      fun _ r => Argued call current q r t (tallyActuals scope callee as t [])

/-- A call as a whole, given what visiting its arguments does. -/
theorem ends_call (hp : Ready current p) (ht : Noted p t.notes) (has : Walks scope current e.arguments) :
    Returns (visitArguments scope ⟨p.2.next, current, callee, (t.notes.expands scope b).1⟩ 0 e.arguments)
      (withCall p (t.notes.expands scope b).2.verdicts sort e b current (t.notes.expands scope b).1)
      fun _ q => Returns (endCall scope ⟨p.2.next, current, callee, (t.notes.expands scope b).1⟩ e) q
        fun _ r => Visited current p r t
          (t.call scope sort e b callee (tallyActuals scope callee e.arguments)
          (tallyAll scope e.arguments)) := by
  have hcreate := extends_withCall (t.notes.expands scope b).2.verdicts sort e b hp []
  unfold Tally.call
  cases (t.notes.expands scope b).1 with
  | true =>
    have hready := hp.after (hcreate true) (by simp)
    have hcall := (hcreate true).grows.mem_nodeIds.2 (.inr mem_cons_self)
    have hlists : Lists (withCall p (t.notes.expands scope b).2.verdicts sort e b current true).1.graph
      p.2.next [] [] :=
      ⟨_, b, (node?_appendNode hp.fit.not_mem p.2.next).trans (if_pos rfl), rfl, rfl⟩
    refine (has.expanded (t := { t with notes := (t.notes.expands scope b).2 }) hready hcall
      (noted_withCall current sort e b ht true) hlists).imp ?_
    exact fun _ q hargued => ends_endCall_expanded hp hargued
  | false =>
    have hhost : Ready p.2.next _ := hp.argument (hcreate false)
    rw [visitArguments_merged rfl]
    refine (has.merged (t := { t with charges := [], notes := (t.notes.expands scope b).2 }) hhost
      (noted_withCall current sort e b ht false)).imp ?_
    exact fun _ q hvisit => ends_endCall_merged hp hvisit

end Call

theorem ends_then {x y : Lower Unit} {t' t'' : Tally} (hp : Ready current p)
    (hx : Returns x p fun _ q => Visited current p q t t') (hy : ∀ q, Ready current q →
      Noted q t'.notes → Returns y q fun _ r => Visited current q r t' t'') :
    Returns (do x; y) p fun _ r => Visited current p r t t'' := by
  rw [returns_bind]
  refine hx.imp ?_
  intro _ q hvisit
  refine (hy q (hvisit.ready hp) hvisit.noted).imp ?_
  exact fun _ r hvisit' => hvisit.trans hvisit'

theorem ends_skip (hp : Ready current p) (ht : Noted p t.notes) :
    Returns (pure () : Lower Unit) p fun _ q => Visited current p q t t :=
  .idle hp [] rfl (append_nil _).symm (.refl t) ht

/-- A call expression: the call, if it is resolved, and then what else is visited. -/
theorem ends_calling (sort : StatementSort) (e : Expr) {after : Lower Unit} {f : Tally → Tally}
    (hp : Ready current p) (ht : Noted p t.notes) (has : Walks scope current e.arguments)
    (hafter : ∀ {q : State × Trail} {t : Tally}, Ready current q → Noted q t.notes →
      Returns after q fun _ r => Visited current q r t (f t)) : Returns (do
        match ← beginCall scope current sort e with
        | none => return ()
        | some site =>
          visitArguments scope site 0 e.arguments
          endCall scope site e
          after) p
      fun _ q => Visited current p q t (match calleeOf scope e with
        | none => t.lose e
        | some (b, callee) =>
          f (t.call scope sort e b callee (tallyActuals scope callee e.arguments)
            (tallyAll scope e.arguments))) := by
  rw [returns_bind]
  rcases hcallee : calleeOf scope e with _ | ⟨b, callee⟩
  · refine (ends_beginCall_none hp ht hcallee).imp ?_
    rintro _ q ⟨rfl, hvisit⟩
    exact hvisit
  · refine (ends_beginCall ht hcallee).imp ?_
    rintro _ _ ⟨rfl, rfl⟩
    simp only [ends_bind]
    refine (ends_call hp ht has).imp ?_
    intro _ q hend
    refine hend.imp ?_
    intro _ r hvisit
    refine (hafter (hvisit.ready hp) hvisit.noted).imp ?_
    exact fun _ u hvisit' => hvisit.trans hvisit'

theorem Argued.ready (hp : Ready current p) (h : Argued call current p q t walked) :
    Ready current q := by
  obtain ⟨created, placed, _, _, hperm, he, -⟩ := h
  exact hp.after_placing he hperm

theorem Argued.mem_nodeIds {id : Id} (h : Argued call current p q t walked)
    (hid : id ∈ p.1.graph.nodeIds) : id ∈ q.1.graph.nodeIds := by
  obtain ⟨created, placed, _, _, -, he, -⟩ := h
  exact he.grows.subset hid

mutual

/-- Visiting an expression does what the walk through it says, and its host pays the charges. -/
theorem ends_visit (defining : Bool) (e : Expr) {current : Id} {p : State × Trail} {t : Tally}
    (hp : Ready current p) (ht : Noted p t.notes) : Returns (visit scope current defining e) p
      fun _ q => Visited current p q t (tally scope defining e t) := by
  match e with
  | .absent => exact ends_skip hp ht
  | .name v _ _ => exact ends_chargeResolved hp ht defining _ v
  | .fieldAccess r v _ _ =>
    exact ends_then hp (ends_visit false r hp ht) fun q hq hn =>
      ends_chargeResolved hq hn defining _ v
  | .self c _ => exact ends_charge hp ht defining _
  | .literal _ _ _ => exact ends_skip hp ht
  | .assignment target value op _ =>
    have hvalue : ∀ {q : State × Trail} {t : Tally}, Ready current q → Noted q t.notes →
        Returns (visit scope current false value) q
          fun _ r => Visited current q r t (tally scope false value t) :=
      fun hq hn => ends_visit false value hq hn
    unfold visit tally
    by_cases hop : op = "="
    · simp only [hop, ne_eq, not_true_eq_false, if_false]
      exact ends_then hp (ends_visit true target hp ht) fun q hq hn => hvalue hq hn
    · simp only [hop, ne_eq, not_false_eq_true, if_true]
      exact ends_then hp (ends_visit true target hp ht) fun q hq hn =>
        ends_then hq (ends_visit false target hq hn) fun r hr hn' => hvalue hr hn'
  | .unary op x _ _ =>
    unfold visit tally
    by_cases hop : isIncrement op = true
    · simp only [hop, if_true]
      exact ends_then hp (ends_visit false x hp ht) fun q hq hn => ends_visit true x hq hn
    · simp only [hop]
      exact ends_then hp (ends_visit false x hp ht) fun q hq hn => ends_skip hq hn
  | .binary l _ r _ =>
    exact ends_then hp (ends_visit false l hp ht) fun q hq hn => ends_visit false r hq hn
  | .instanceOf x _ _ => exact ends_visit false x hp ht
  | .conditional c y n _ =>
    exact ends_then hp (ends_visit false c hp ht) fun q hq hn =>
      ends_then hq (ends_visit false y hq hn) fun r hr hn' => ends_visit false n hr hn'
  | .cast _ x _ => exact ends_visit false x hp ht
  | .arrayAccess a i _ =>
    exact ends_then hp (ends_visit defining a hp ht) fun q hq hn => ends_visit false i hq hn
  | .arrayInitializer es _ => exact ends_visitAll es hp ht
  | .arrayCreation _ ds i _ =>
    exact ends_then hp (ends_visitAll ds hp ht) fun q hq hn => ends_visit false i hq hn
  | .methodCall a as r b c l =>
    unfold visit tally
    exact ends_calling _ (.methodCall a as r b c l) hp ht ⟨fun hq hn => ends_visitAll as hq hn,
      fun hq hcall hn hlists => ends_visitArguments _ as hq hcall hn hlists .nil⟩ fun hq hn =>
        ends_visit false r hq hn
  | .constructorCall as b x l =>
    have h := ends_calling .constructorCall (.constructorCall as b x l) (f := id) hp ht
      ⟨fun hq hn => ends_visitAll as hq hn,
        fun hq hcall hn hlists => ends_visitArguments _ as hq hcall hn hlists .nil⟩ fun hq hn =>
          ends_skip hq hn
    simp only [bind_pure_unit] at h
    exact h
  | .instanceCreation a as b o l =>
    unfold visit tally
    exact ends_calling _ (.instanceCreation a as b o l) hp ht ⟨fun hq hn => ends_visitAll as hq hn,
      fun hq hcall hn hlists => ends_visitArguments _ as hq hcall hn hlists .nil⟩ fun hq hn =>
        ends_visit false o hq hn
  | .other _ ps _ => exact ends_visitAll ps hp ht

theorem ends_visitAll (es : List Expr) {current : Id} {p : State × Trail} {t : Tally}
    (hp : Ready current p) (ht : Noted p t.notes) : Returns (visitAll scope current es) p
      fun _ q => Visited current p q t (tallyAll scope es t) := by
  match es with
  | [] => exact ends_skip hp ht
  | e :: es =>
    exact ends_then hp (ends_visit false e hp ht) fun q hq hn => ends_visitAll es hq hn

theorem ends_visitArguments (callee : Method) (es : List Expr) {call current : Id}
    {p : State × Trail} {t : Tally} {ins : List Id} {done : List Bill}
    (hp : Ready current p) (hcall : call ∈ p.1.graph.nodeIds) (ht : Noted p t.notes)
    (hlists : Lists p.1.graph call ins []) (hdone : List.Forall₂ (Actual p.1.graph call) ins done) :
    Returns (visitArguments scope ⟨call, current, callee, true⟩ done.length es) p
      fun _ q => Argued call current p q t (tallyActuals scope callee es t done) := by
  match es with
  | [] =>
    exact ⟨[], [], ins, [], .refl _, .refl hp, (append_nil _).symm, (append_nil _).symm, ht, hlists, hdone⟩
  | e :: es =>
    unfold visitArguments tallyActuals
    simp only [if_true, ends_bind]
    refine (ends_newActualIn hp hcall ht done.length e).imp ?_
    rintro ain q ⟨hnew, he, hnoted, hnode, hmore⟩
    refine (ends_visit false e (hp.argument (he [])) hnoted).imp ?_
    intro _ r hvisit
    have hstep := Argued.step hp hcall hnew he hnode (hmore hlists) hdone hvisit
    have ⟨_, _, _, _, _, _, _, _, hnoted', hlists', hdone'⟩ := hstep
    have hrest := ends_visitArguments callee es (hstep.ready hp) (hstep.mem_nodeIds hcall) hnoted'
      hlists' hdone'
    rw [length_append] at hrest
    exact hrest.imp fun _ u hrest => hstep.trans hrest

end

/-- The state when the visit of a statement node begins: the node is the sequence. -/
def atNode (node : Id) (p : State × Trail) : State × Trail :=
  ({ p.1 with sequence := [node] }, p.2)

/-- Visiting the expressions of a statement node: the sequence is a line of new nodes that ends in
the node. -/
theorem ends_visitNode (es : List Expr) {node : Id} (hfit : p.1.graph.Fit p.2.next)
    (hnode : node ∈ p.1.graph.nodeIds) (ht : Noted p t.notes) : Returns (visitNode scope node es) p
      fun _ q => ∃ created placed cs lost, created.Perm (placed.map (·.token)) ∧
        Extends node [node] (atNode node p) q created placed lost ∧
        q.1.sequence = placed.map (·.id) ++ [node] ∧
        Adds t (tallyAll scope es t) (placed.map (·.bill)) cs lost ∧
        Noted q (tallyAll scope es t).notes ∧ Hosted node cs p q := by
  have hp : Ready node (atNode node p) :=
    ⟨hfit, mem_singleton_self node, fun id hid => mem_singleton.1 hid ▸ hnode⟩
  refine (ends_visitAll es hp ht).imp ?_
  rintro _ q ⟨created, placed, cs, lost, hperm, he, hrest⟩
  exact ⟨created, placed, cs, lost, hperm, he, he.sequence [] [] rfl (not_mem_nil), hrest⟩

end Lowering

end ProgramDependence
