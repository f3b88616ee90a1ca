import ProgramDependence.Proofs.Visiting

/-!
# The order of calls

The calls of an expression are evaluated from the inside out: what a call is made on first, then its
arguments from left to right, and then the call.  Lowering visits what a call is made on last, and
it visits what is both read and written twice.  The call nodes before a statement stand in the order
of the visit (`visitNode_calls`), which is the order of evaluation exactly if neither concerns a
call.
-/

namespace ProgramDependence

open List Expr

open Lowering

/-- The order in which the calls of an expression are evaluated, and the one in which lowering
visits them. -/
inductive CallOrder where
  | evaluated
  | visited

namespace CallOrder

/-- A call and the calls in what it is made on. -/
def join : CallOrder → List Expr → List Expr → List Expr
  | evaluated, inner, call => inner ++ call
  | visited, inner, call => call ++ inner

/-- The calls in what is written to, if it is also read. -/
def again : CallOrder → Bool → List Expr → List Expr
  | visited, true, calls => calls
  | _, _, _ => []

@[simp] theorem again_nil (o : CallOrder) (b : Bool) : o.again b [] = [] := by
  cases o <;> cases b <;> rfl

end CallOrder

namespace Expr

mutual

def calls (o : CallOrder) : Expr → List Expr
  | .absent | .name _ _ _ | .self _ _ | .literal _ _ _ => []
  | .fieldAccess r _ _ _ => r.calls o
  | .assignment t v op _ => t.calls o ++ (o.again (op ≠ "=") (t.calls o) ++ v.calls o)
  | .unary op x _ _ => x.calls o ++ o.again (isIncrement op) (x.calls o)
  | .binary l _ r _ => l.calls o ++ r.calls o
  | .instanceOf x _ _ | .cast _ x _ => x.calls o
  | .conditional c p n _ => c.calls o ++ (p.calls o ++ n.calls o)
  | .arrayAccess a i _ => a.calls o ++ i.calls o
  | .arrayInitializer es _ => callsOf o es
  | .arrayCreation _ ds i _ => callsOf o ds ++ i.calls o
  | e@(.methodCall _ as r _ _ _) => o.join (r.calls o) (callsOf o as ++ [e])
  | e@(.constructorCall as _ _ _) => callsOf o as ++ [e]
  | e@(.instanceCreation _ as _ x _) => o.join (x.calls o) (callsOf o as ++ [e])
  | .other _ ps _ => callsOf o ps

def callsOf (o : CallOrder) : List Expr → List Expr
  | [] => []
  | e :: es => e.calls o ++ callsOf o es

end

/-- Nothing that lowering visits late or twice holds a call. -/
def isOrderly : Expr → Bool
  | .methodCall _ _ x _ _ _ | .instanceCreation _ _ _ x _ => (x.calls .evaluated).isEmpty
  | .assignment t _ op _ => op = "=" || (t.calls .evaluated).isEmpty
  | .unary op x _ _ => !isIncrement op || (x.calls .evaluated).isEmpty
  | _ => true

end Expr

def callsAmong (ls : List Label) : List Element :=
  (ls.filter (·.sort.isCall)).map (·.element)

def Graph.callsAt (g : Graph) (ids : List Id) : List Element :=
  callsAmong ((ids.filterMap g.node?).map Node.label)

/-! ## The walk through an expression -/

namespace Tally

variable {scope : Scope} {t : Tally}

def calls (t : Tally) : List Element :=
  callsAmong t.labels

@[simp] theorem calls_emit (l : Label) (cs : List Charge) :
    (t.emit l cs).calls = t.calls ++ if l.sort.isCall then [l.element] else [] := by
  unfold emit calls labels callsAmong
  split <;> simp [*]

theorem calls_chargeResolved (defining : Bool) (e : Expr) (v : Option Variable) :
    (t.chargeResolved defining e v).calls = t.calls := by
  cases v <;> rfl

theorem calls_foldl_handBack (done : List Bill) : (done.foldl handBack t).calls = t.calls := by
  induction done generalizing t with
  | nil => rfl
  | cons a done ih =>
    rw [foldl_cons, ih, handBack]
    split
    · split
      · rfl
      · exact (calls_emit _ _).trans (append_nil _)
    · rfl

theorem calls_result (e : Expr) (callee : Method) : (t.result scope e callee).calls = t.calls := by
  unfold result
  split
  · rfl
  · exact (calls_emit _ _).trans (append_nil _)

theorem calls_call {sort : StatementSort} {e : Expr} {b : MethodRef} {callee : Method}
    {es : List Element} {actuals : Tally → List Bill → Tally × List Bill} {merged : Tally → Tally}
    (hsort : (NodeSort.statement sort).isCall = true)
    (hactuals : ∀ t done, (actuals t done).1.calls = t.calls ++ es)
    (hmerged : ∀ t, (merged t).calls = t.calls ++ es) :
    (t.call scope sort e b callee actuals merged).calls = t.calls ++ (es ++ [.ofExpr e]) := by
  unfold call
  rw [← append_assoc]
  dsimp only
  split
  · rw [closeExpanded, calls_result, calls_foldl_handBack, calls_emit, if_pos hsort]
    exact congrArg (· ++ [Element.ofExpr e]) (hactuals _ _)
  · refine (calls_emit _ _).trans ?_
    rw [if_pos hsort, hmerged]
    rfl

end Tally

/-- All calls of an expression are resolved. -/
def Resolved (scope : Scope) (es : List Expr) : Prop :=
  ∀ x ∈ es, (calleeOf scope x).isSome = true

theorem resolved_append {scope : Scope} {a b : List Expr} :
    Resolved scope (a ++ b) ↔ Resolved scope a ∧ Resolved scope b :=
  forall_mem_append

section Walk

variable {scope : Scope}

mutual

theorem calls_tally (defining : Bool) (e : Expr) (h : Resolved scope (e.calls .evaluated))
    (t : Tally) : (tally scope defining e t).calls = t.calls ++ (e.calls .visited).map .ofExpr := by
  match e with
  | .absent | .literal _ _ _ | .self _ _ => exact (append_nil _).symm
  | .name v _ _ => exact (Tally.calls_chargeResolved defining _ v).trans (append_nil _).symm
  | .fieldAccess r _ _ _ => rw [tally, Tally.calls_chargeResolved, calls_tally false r h, calls]
  | .instanceOf x _ _ | .cast _ x _ => rw [tally, calls_tally false x h, calls]
  | .assignment target v op _ =>
    simp only [calls, CallOrder.again, nil_append, resolved_append] at h
    rw [tally, calls_tally false v h.2, calls]
    by_cases hop : op = "="
    · simp [hop, calls_tally true target h.1, CallOrder.again]
    · simp [hop, calls_tally true target h.1, calls_tally false target h.1, CallOrder.again]
  | .unary op x _ _ =>
    simp only [calls, CallOrder.again, append_nil] at h
    rw [tally, calls]
    cases isIncrement op with
    | true => simp [calls_tally true x h, calls_tally false x h, CallOrder.again]
    | false => simp [calls_tally false x h, CallOrder.again]
  | .binary l _ r _ =>
    rw [calls, resolved_append] at h
    rw [tally, calls_tally false r h.2, calls_tally false l h.1, calls, map_append, append_assoc]
  | .conditional c p n _ =>
    rw [calls, resolved_append, resolved_append] at h
    simp [tally, calls_tally false n h.2.2, calls_tally false p h.2.1, calls_tally false c h.1, calls]
  | .arrayAccess a i _ =>
    rw [calls, resolved_append] at h
    rw [tally, calls_tally false i h.2, calls_tally defining a h.1, calls, map_append, append_assoc]
  | .arrayInitializer es _ | .other _ es _ => rw [tally, calls_tallyAll es h, calls]
  | .arrayCreation _ ds i _ =>
    rw [calls, resolved_append] at h
    rw [tally, calls_tally false i h.2, calls_tallyAll ds h.1, calls, map_append, append_assoc]
  | .methodCall _ as r _ _ _ | .instanceCreation _ as _ r _ =>
    simp only [calls, CallOrder.join, resolved_append] at h
    obtain ⟨callee, hcallee⟩ := Option.isSome_iff_exists.1 (h.2.2 _ mem_cons_self)
    rw [tally, hcallee, calls_tally false r h.1,
      Tally.calls_call rfl (calls_tallyActuals _ as h.2.1) (calls_tallyAll as h.2.1)]
    simp [calls, CallOrder.join]
  | .constructorCall as a b c =>
    simp only [calls, resolved_append] at h
    obtain ⟨callee, hcallee⟩ := Option.isSome_iff_exists.1 (h.2 _ mem_cons_self)
    rw [tally, hcallee, Tally.calls_call rfl (calls_tallyActuals _ as h.1) (calls_tallyAll as h.1)]
    simp [calls]

theorem calls_tallyAll (es : List Expr) (h : Resolved scope (callsOf .evaluated es)) (t : Tally) :
    (tallyAll scope es t).calls = t.calls ++ (callsOf .visited es).map .ofExpr := by
  match es with
  | [] => simp [tallyAll, callsOf]
  | e :: es =>
    rw [callsOf, resolved_append] at h
    rw [tallyAll, calls_tallyAll es h.2, calls_tally false e h.1, callsOf, map_append, append_assoc]

theorem calls_tallyActuals (callee : Method) (es : List Expr)
    (h : Resolved scope (callsOf .evaluated es)) (t : Tally) (done : List Bill) :
    (tallyActuals scope callee es t done).1.calls = t.calls ++ (callsOf .visited es).map .ofExpr := by
  match es with
  | [] => simp [tallyActuals, callsOf]
  | e :: es =>
    rw [callsOf, resolved_append] at h
    rw [tallyActuals, calls_tallyActuals callee es h.2, Tally.calls_emit, calls_tally false e h.1, callsOf,
      map_append, ← append_assoc]
    exact congrArg (· ++ _) (append_nil _)

end

end Walk

/-! ## Orderly expressions -/

mutual

theorem calls_of_orderly (e : Expr) (h : ∀ x ∈ e.walk, x.isOrderly = true) :
    e.calls .visited = e.calls .evaluated := by
  match e with
  | .absent | .name _ _ _ | .self _ _ | .literal _ _ _ => rfl
  | .fieldAccess x _ _ _ | .instanceOf x _ _ | .cast _ x _ =>
    rw [walk, List.forall_mem_cons] at h
    exact calls_of_orderly x h.2
  | .assignment x v op _ =>
    rw [walk, List.forall_mem_cons, List.forall_mem_append] at h
    have hx := calls_of_orderly x h.2.1
    have hop := h.1
    simp only [isOrderly, Bool.or_eq_true, decide_eq_true_eq, List.isEmpty_iff] at hop
    rcases hop with rfl | hop
    · simp [calls, CallOrder.again, hx, calls_of_orderly v h.2.2]
    · simp [calls, hx, hop, calls_of_orderly v h.2.2]
  | .unary op x _ _ =>
    rw [walk, List.forall_mem_cons] at h
    have hx := calls_of_orderly x h.2
    have hop := h.1
    simp only [isOrderly, Bool.or_eq_true, Bool.not_eq_true', List.isEmpty_iff] at hop
    rcases hop with hop | hop
    · simp [calls, CallOrder.again, hx, hop]
    · simp [calls, hx, hop]
  | .binary a _ b _ | .arrayAccess a b _ =>
    rw [walk, List.forall_mem_cons, List.forall_mem_append] at h
    rw [calls, calls, calls_of_orderly a h.2.1, calls_of_orderly b h.2.2]
  | .conditional a b c _ =>
    rw [walk, List.forall_mem_cons, List.forall_mem_append, List.forall_mem_append] at h
    rw [calls, calls, calls_of_orderly a h.2.1.1, calls_of_orderly b h.2.1.2, calls_of_orderly c h.2.2]
  | .arrayInitializer es _ | .other _ es _ =>
    rw [walk, List.forall_mem_cons] at h
    exact callsOf_of_orderly es h.2
  | .arrayCreation _ ds i _ =>
    rw [walk, List.forall_mem_cons, List.forall_mem_append] at h
    rw [calls, calls, callsOf_of_orderly ds h.2.1, calls_of_orderly i h.2.2]
  | .constructorCall as _ _ _ =>
    rw [walk, List.forall_mem_cons] at h
    rw [calls, calls, callsOf_of_orderly as h.2]
  | .methodCall _ as x _ _ _ | .instanceCreation _ as _ x _ =>
    rw [walk, List.forall_mem_cons, List.forall_mem_append] at h
    have hnone := List.isEmpty_iff.1 h.1
    simp [calls, CallOrder.join, callsOf_of_orderly as h.2.1, (calls_of_orderly x h.2.2).trans hnone, hnone]

theorem callsOf_of_orderly (es : List Expr) (h : ∀ x ∈ walkAll es, x.isOrderly = true) :
    callsOf .visited es = callsOf .evaluated es := by
  match es with
  | [] => rfl
  | e :: es =>
    rw [walkAll, forall_mem_append] at h
    rw [callsOf, callsOf, calls_of_orderly e h.1, callsOf_of_orderly es h.2]

end

namespace Lowering

open Tracked

variable {scope : Scope} {p : State × Trail} {node : Id}

theorem labels_tokens {g : Graph} (hg : g.Coherent) {ts : List Token} (hts : ∀ t ∈ ts, t ∈ g.tokens) :
    ((ts.map (·.id)).filterMap g.node?).map Node.label = ts.map (·.label) := by
  induction ts with
  | nil => rfl
  | cons t ts ih =>
    rw [forall_mem_cons] at hts
    obtain ⟨n, hn, rfl⟩ := mem_map.1 hts.1
    have hnode : g.node? n.token.id = some n := hg.node?_eq_some hn
    rw [map_cons, filterMap_cons_some hnode, map_cons, ih hts.2]
    rfl

/-- **The call nodes before a statement stand in the order of the visit**, one for each call that is
visited; where nothing that is visited late or twice holds a call, this is the order of evaluation. -/
theorem visitNode_calls (e : Expr) (hfit : p.1.graph.Fit p.2.next)
    (hnode : node ∈ p.1.graph.nodeIds) (hresolved : Resolved scope (e.calls .evaluated)) :
    Returns (visitNode scope node [e]) p fun _ q => ∃ before, q.1.sequence = before ++ [node] ∧
      q.1.graph.callsAt before = (e.calls .visited).map .ofExpr ∧
      ((∀ x ∈ e.walk, x.isOrderly = true) → q.1.graph.callsAt before = (e.calls .evaluated).map .ofExpr) := by
  have hnoted : Noted p (.mk p.1.specials p.1.verdicts) := ⟨rfl, rfl⟩
  refine (ends_visitNode (t := { notes := ⟨p.1.specials, p.1.verdicts⟩ }) [e] hfit hnode hnoted).imp ?_
  rintro _ q ⟨created, placed, cs, lost, hperm, hextends, hsequence, hadds, -⟩
  have hplaced : ∀ t ∈ placed.map (·.token), t ∈ q.1.graph.tokens := fun t ht =>
    hextends.grows.tokens_perm.mem_iff.2 (mem_append_right _ (hperm.mem_iff.2 ht))
  have hcalls : q.1.graph.callsAt (placed.map (·.id)) = (e.calls .visited).map .ofExpr := by
    rw [Graph.callsAt, ← ids_tokens, labels_tokens hextends.grows.fit.growing.coherent hplaced, map_map]
    have hwalk := calls_tally false e hresolved { notes := ⟨p.1.specials, p.1.verdicts⟩ }
    rwa [Tally.calls, show tally scope false e _ = tallyAll scope [e] _ from rfl, hadds.labels_eq,
      map_map] at hwalk
  exact ⟨_, hsequence, hcalls, fun h => hcalls.trans (by rw [calls_of_orderly e h])⟩

/-- A call of the method of a program that is not part of the project. -/
def callOn (name : String) (receiver : Expr) (arguments : List Expr) : Expr :=
  .methodCall name arguments receiver (some ⟨0⟩) false 1

def library : Scope :=
  { context := { program := { methods := [{ name := "m", inProject := false }] } }, name := "m" }

/-- The state in which the statement of node 1 is visited. -/
def hosted : State × Trail :=
  ({ graph := (Graph.empty .flow).appendNode { id := 1, sort := .statement .empty } }, { next := 2 })

/-- The call in the argument stands before the call. -/
theorem visitNode_calls_argument :
    Returns (visitNode library 1 [callOn "second" .absent [callOn "first" .absent []]]) hosted fun _ q =>
      ∃ before, q.1.sequence = before ++ [1] ∧ q.1.graph.callsAt before =
        [.ofExpr (callOn "first" .absent []),
        .ofExpr (callOn "second" .absent [callOn "first" .absent []])] := by
  have hfit : hosted.1.graph.Fit hosted.2.next := (Graph.fit_empty 1).appendNode rfl
  refine (visitNode_calls _ hfit (mem_singleton_self _) (by unfold Resolved; decide)).imp ?_
  rintro _ q ⟨before, hsequence, -, horderly⟩
  exact ⟨before, hsequence, horderly (by decide)⟩

/-- The call `second` on what the call `first` returns stands before it. -/
theorem receiver_visited_last :
    Returns (visitNode library 1 [callOn "second" (callOn "first" .absent []) []]) hosted fun _ q =>
      ∃ before, q.1.sequence = before ++ [1] ∧ q.1.graph.callsAt before =
        [.ofExpr (callOn "second" (callOn "first" .absent []) []), .ofExpr (callOn "first" .absent [])] ∧
      (callOn "second" (callOn "first" .absent []) []).calls .evaluated =
        [callOn "first" .absent [], callOn "second" (callOn "first" .absent []) []] := by
  exact ⟨[2, 3], rfl, rfl, rfl⟩

end Lowering

end ProgramDependence
