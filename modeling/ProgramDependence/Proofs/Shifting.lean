import ProgramDependence.Proofs.Layout
import ProgramDependence.Proofs.Renaming

/-!
# Where the numbering starts

A context says which of several numberings the ids of a construction come from.  The flow graph
remembers it, and nothing else depends on it.  A unit that is lowered from a later id on, or under
another numbering, comes out the same, with all its ids moved by one amount.  `Shifts` relates two
runs of which one starts later.
-/

namespace ProgramDependence

open List

def Context.under (context : Context) (numbering : Nat) : Context :=
  { context with numbering }

/-- A flow graph whose ids come from another numbering. -/
def Cfg.under (c : Cfg) (numbering : Nat) : Cfg :=
  { c with numbering }

namespace Lowering

open Tracked

def Scope.under (scope : Scope) (numbering : Nat) : Scope :=
  { scope with context := scope.context.under numbering }

/-! ## What is moved -/

def Source.shift (δ : Int) : Source → Source
  | .node id => .node (id + δ)
  | .head number => .head number

def OpenEdge.shift (δ : Int) (e : OpenEdge) : OpenEdge :=
  ⟨e.source.shift δ, e.sort⟩

abbrev Pending.shift (δ : Int) (pending : Pending) : Pending :=
  pending.map (·.shift δ)

def JumpTarget.shift (δ : Int) (t : JumpTarget) : JumpTarget :=
  { t with breaks := t.breaks.map (·.shift δ), continues := t.continues.map (·.shift δ) }

def State.shift (δ : Int) (s : State) : State :=
  { s with
    graph := s.graph.rename (.shift δ)
    jumps := s.jumps.map (·.shift δ)
    returns := s.returns.map (·.shift δ)
    throws := s.throws.map (·.shift δ)
    heads := s.heads.map (Option.map (· + δ))
    sequence := s.sequence.map (· + δ) }

def CallSite.shift (δ : Int) (site : CallSite) : CallSite :=
  { site with call := site.call + δ, current := site.current + δ }

def CaseProgress.shift (δ : Int) (progress : CaseProgress) : CaseProgress :=
  ⟨progress.guard.map (·.shift δ), progress.fall.map (·.shift δ), progress.default.map (· + δ)⟩

/-! ## Runs that are moved -/

variable {α β γ ε : Type} {δ : Int} {scope : Scope} {n : Nat}

/-- Two constructions do the same, the second one on what is moved; `v` moves the answer. -/
def Shifts (δ : Int) (v : α → β) (x : Lower α) (x' : Lower β) : Prop :=
  ∀ s t t', t'.next = t.next + δ →
    Ends x (s, t)
      (fun a q => Returns x' (s.shift δ, t') fun a' q' => a' = v a ∧ q'.1 = q.1.shift δ ∧
      q'.2.next = q.2.next + δ)
      (fun e q => Ends x' (s.shift δ, t') (fun _ _ => False) fun e' q' => e.Agrees e' ∧
      q'.2.next = q.2.next + δ)

namespace Shifts

variable {v : α → β}

theorem pure (a : α) : Shifts δ v (pure a) (pure (v a)) :=
  fun _ _ _ h => ⟨rfl, rfl, h⟩

theorem throw (e : Error) : Shifts δ v (throw e) (throw e) :=
  fun _ _ _ h => ⟨fun _ _ _ => rfl, h⟩

/-- Runs that are moved step by step are moved. -/
theorem bind {w : γ → ε} {x : Lower α} {x' : Lower β} {k : α → Lower γ} {k' : β → Lower ε}
    (hx : Shifts δ v x x') (hk : ∀ a, Shifts δ w (k a) (k' (v a))) : Shifts δ w (x >>= k) (x' >>= k') := by
  intro s t t' ht
  simp only [ends_bind]
  refine (hx s t t' ht).mono ?_ ?_
  · intro a q hq
    obtain ⟨_, q', hrun, rfl, hstate, hnext⟩ := hq.exists_run
    simp only [ends_iff_of_run hrun]
    obtain ⟨s', t''⟩ := q'
    cases hstate
    exact hk a q.1 q.2 t'' hnext
  · intro _ _ hq
    exact hq.imp fun _ _ h => h.elim

theorem state : Shifts δ (State.shift δ) Tracked.state Tracked.state :=
  fun _ _ _ h => ⟨rfl, rfl, h⟩

theorem freshId : Shifts δ (· + δ) Tracked.freshId Tracked.freshId := by
  intro s t t' ht
  refine ⟨ht, rfl, ?_⟩
  rw [ht, Int.add_right_comm]

theorem update {f f' : State → State} (hf : ∀ s, f' (s.shift δ) = (f s).shift δ) :
    Shifts δ id (Tracked.update f) (Tracked.update f') :=
  fun s _ _ h => ⟨rfl, hf s, h⟩

theorem report (level level' : Level) (text text' : String) :
    Shifts δ id (Tracked.report level text) (Tracked.report level' text') :=
  fun _ _ _ h => ⟨rfl, rfl, h⟩

theorem ite {c : Prop} [Decidable c] {x y : Lower α} {x' y' : Lower β} (hx : Shifts δ v x x')
    (hy : Shifts δ v y y') : Shifts δ v (if c then x else y) (if c then x' else y') := by
  split
  · exact hx
  · exact hy

theorem forIn {w : α → β} {f : α → Lower Unit} {f' : β → Lower Unit}
    (hf : ∀ a, Shifts δ id (f a) (f' (w a))) (xs : List α) :
    Shifts δ id (forIn xs PUnit.unit fun x _ => do f x; Pure.pure (ForInStep.yield PUnit.unit))
      (forIn (xs.map w) PUnit.unit fun x _ => do f' x; Pure.pure (ForInStep.yield PUnit.unit)) := by
  induction xs with
  | nil => exact .pure _
  | cons x xs ih =>
    simp only [map_cons, forIn_cons, bind_assoc]
    exact (hf x).bind fun _ => ih

end Shifts

/-! ## Nodes and edges -/

theorem shifts_newNode (sort : NodeSort) (element : Element) (payload : Payload) :
    Shifts δ (· + δ) (newNode sort element payload) (newNode sort element (payload.rename (.shift δ))) := by
  refine Shifts.freshId.bind fun id => ?_
  refine (Shifts.update fun s => ?_).bind fun _ => .pure id
  exact congrArg (fun g => { s.shift δ with graph := g })
    (s.graph.appendNode_rename (.shift δ) { id, sort, element, payload })

theorem shifts_changeNode (i : Id) {f f' : Node → Node}
    (hf : ∀ n, f' (n.rename (.shift δ)) = (f n).rename (.shift δ)) :
    Shifts δ id (changeNode i f) (changeNode (i + δ) f') := by
  refine .update fun s => ?_
  exact congrArg (fun g => { s.shift δ with graph := g }) (s.graph.modifyNode_rename (.shift δ) i hf)

theorem shifts_define (i : Id) (v : Variable) : Shifts δ id (define i v) (define (i + δ) v) :=
  shifts_changeNode i fun n => n.rename_addDef _ v

theorem shifts_use (i : Id) (v : Variable) : Shifts δ id (use i v) (use (i + δ) v) :=
  shifts_changeNode i fun n => n.rename_addUse _ v

theorem shifts_specialVariable (suffix type : String) :
    Shifts δ id (specialVariable scope suffix type) (specialVariable (scope.under n) suffix type) := by
  refine Shifts.state.bind fun s => ?_
  refine .bind (.update fun _ => ?_) fun _ => .pure _
  rfl

theorem shifts_reportUnresolved (t : Tree) :
    Shifts δ id (reportUnresolved scope t) (reportUnresolved (scope.under n) t) := by
  refine .bind (.update fun _ => ?_) fun _ => .report _ _ _ _
  rfl

theorem shifts_addFlow (src dst : Id) (sort : FlowSort) (loop : Option Id) :
    Shifts δ id (addFlow src dst sort loop) (addFlow (src + δ) (dst + δ) sort (loop.map (· + δ))) := by
  refine Shifts.freshId.bind fun i => ?_
  intro s t t' ht
  simp only [ends_attempt]
  have hedge : (⟨i + δ, src + δ, dst + δ, .flow sort (loop.map (· + δ))⟩ : Edge) =
      .rename (.shift δ) ⟨i, src, dst, .flow sort loop⟩ := rfl
  rw [hedge, show (s.shift δ).graph = s.graph.rename (.shift δ) from rfl]
  rcases s.graph.addEdge_rename (.shift δ) ⟨i, src, dst, .flow sort loop⟩ with
    ⟨g, answer, hadd, hadd'⟩ | ⟨fault, fault', hadd, hadd', hagrees⟩
  · rw [hadd, hadd']
    exact ⟨trivial, rfl, ht⟩
  · rw [hadd, hadd']
    exact ⟨hagrees, ht⟩

theorem shifts_settleHead (number : Nat) (target : Id) :
    Shifts δ id (settleHead number target) (settleHead number (target + δ)) := by
  refine .update fun s => ?_
  have hheads :
    (s.heads.map (Option.map (· + δ))).modify number (fun h => h.orElse fun _ => some (target + δ)) =
      (s.heads.modify number fun h => h.orElse fun _ => some target).map (Option.map (· + δ)) := by
    refine ext_getElem? fun k => ?_
    simp only [getElem?_map, getElem?_modify]
    cases s.heads[k]? with
    | none => rfl
    | some h =>
      split
      · cases h <;> rfl
      · rfl
  exact congrArg (fun heads => { s.shift δ with heads := heads }) hheads

theorem shifts_connectOne (target : Id) (loop : Option Id) (e : OpenEdge) :
    Shifts δ id (connectOne target loop e) (connectOne (target + δ) (loop.map (· + δ)) (e.shift δ)) := by
  obtain ⟨source, sort⟩ := e
  cases source with
  | head number => exact shifts_settleHead number target
  | node src =>
    refine Shifts.state.bind fun s => ?_
    have hbetween : ((s.shift δ).graph.edgesBetween (src + δ) (target + δ)).isEmpty =
        (s.graph.edgesBetween src target).isEmpty :=
      (congrArg _ (s.graph.edgesBetween_rename (.shift δ) src target)).trans isEmpty_map
    rw [hbetween]
    exact .ite (.pure ()) (shifts_addFlow src target sort loop)

theorem filter_sort_shift (ok : FlowSort → Bool) (pending : Pending) :
    (pending.shift δ).filter (fun e => ok e.sort) = (pending.filter fun e => ok e.sort).map (·.shift δ) := by
  rw [filter_map]
  rfl

theorem shifts_connect (pending : Pending) (target : Id) (loop : Option Id) :
    Shifts δ id (connect pending target loop)
    (connect (pending.shift δ) (target + δ) (loop.map (· + δ))) := by
  unfold connect
  rw [filter_sort_shift (· ≠ .fallThrough), filter_sort_shift (· = .fallThrough)]
  refine (Shifts.forIn (shifts_connectOne target loop) _).bind fun _ => ?_
  exact (Shifts.forIn (shifts_connectOne target loop) _).bind fun _ => .pure ()

theorem shifts_joinAll : ∀ ids : List Id, Shifts δ id (joinAll ids) (joinAll (ids.map (· + δ)))
  | [] => .pure ()
  | [_] => .pure ()
  | a :: b :: rest => (shifts_addFlow a b .true none).bind fun _ => shifts_joinAll (b :: rest)

theorem shifts_chain (pending : Pending) : Shifts δ id (chain pending) (chain (pending.shift δ)) := by
  refine Shifts.state.bind fun s => ?_
  dsimp only [State.shift]
  cases s.sequence with
  | nil => exact shifts_joinAll []
  | cons first rest => exact (shifts_connect pending first none).bind fun _ => shifts_joinAll (first :: rest)

/-! ## Jump targets -/

theorem forgetLabel_shift (label : Option String) (t : JumpTarget) :
    forgetLabel label (t.shift δ) = (forgetLabel label t).shift δ := by
  unfold forgetLabel
  rw [show (t.shift δ).label = t.label from rfl]
  split <;> rfl

theorem shifts_exit : Shifts δ (JumpTarget.shift δ) exit exit := by
  refine Shifts.state.bind fun s => ?_
  dsimp only [State.shift]
  cases s.jumps with
  | nil => exact .pure _
  | cons t rest =>
    refine .bind (.update fun s' => ?_) fun _ => .pure t
    have hrest : (rest.map (·.shift δ)).map (forgetLabel (t.shift δ).label) =
        (rest.map (forgetLabel t.label)).map (·.shift δ) := by
      rw [map_map, map_map]
      exact map_congr_left fun u _ => forgetLabel_shift t.label u
    exact congrArg (fun jumps => { s'.shift δ with jumps := jumps }) hrest

theorem changeFirst_shift {ok : JumpTarget → Bool} {f f' : JumpTarget → JumpTarget}
    (hok : ∀ t, ok (t.shift δ) = ok t) (hf : ∀ t, f' (t.shift δ) = (f t).shift δ) (ts : List JumpTarget) :
    changeFirst ok f' (ts.map (·.shift δ)) = (changeFirst ok f ts).map (·.shift δ) := by
  induction ts with
  | nil => rfl
  | cons t ts ih =>
    rw [map_cons, changeFirst, changeFirst, hok]
    split
    · rw [hf]
      rfl
    · rw [ih]
      rfl

section

variable (label : Option String)

include label

theorem takesBreak_shift (t : JumpTarget) :
    takesBreak label (t.shift δ) = takesBreak label t := rfl

theorem takesContinue_shift (t : JumpTarget) :
    takesContinue label (t.shift δ) = takesContinue label t := rfl

theorem shifts_jumpBreak (node : Id) :
    Shifts δ id (jumpBreak label node) (jumpBreak label (node + δ)) := by
  refine Shifts.state.bind fun s => ?_
  have hany : (s.shift δ).jumps.any (takesBreak label) = s.jumps.any (takesBreak label) := any_map
  have hadd : ∀ t, addBreak (node + δ) (t.shift δ) = (addBreak node t).shift δ := by
    simp [addBreak, JumpTarget.shift, leave, OpenEdge.shift, Source.shift]
  dsimp only
  rw [hany]
  split
  · refine .bind (.update fun s' => ?_) fun _ => .pure _
    exact congrArg (fun jumps => { s'.shift δ with jumps := jumps })
      (changeFirst_shift (takesBreak_shift label) hadd s.jumps)
  · exact .pure _

theorem shifts_jumpContinue (node : Id) :
    Shifts δ id (jumpContinue label node) (jumpContinue label (node + δ)) := by
  refine Shifts.state.bind fun s => ?_
  have hany : ((s.shift δ).jumps.find? (takesContinue label)).any (·.kind = .loop) =
      (s.jumps.find? (takesContinue label)).any (·.kind = .loop) := by
    rw [show (s.shift δ).jumps = s.jumps.map (·.shift δ) from rfl, find?_map, Option.any_map]
    rfl
  have hadd : ∀ t, addContinue (node + δ) (t.shift δ) = (addContinue node t).shift δ := by
    simp [addContinue, JumpTarget.shift, leave, OpenEdge.shift, Source.shift]
  dsimp only
  rw [hany]
  split
  · refine .bind (.update fun s' => ?_) fun _ => .pure _
    exact congrArg (fun jumps => { s'.shift δ with jumps := jumps })
      (changeFirst_shift (takesContinue_shift label) hadd s.jumps)
  · exact .pure _

end

/-! ## Expressions -/

theorem insertBefore_shift (node before : Id) (ids : List Id) :
    insertBefore (node + δ) (before + δ) (ids.map (· + δ)) = (insertBefore node before ids).map (· + δ) := by
  induction ids with
  | nil => rfl
  | cons i ids ih =>
    rw [map_cons, insertBefore, insertBefore, ih]
    by_cases h : i = before
    · rw [if_pos h, if_pos (congrArg (· + δ) h)]
      rfl
    · rw [if_neg h, if_neg fun heq => h ((Int.add_left_inj δ).1 heq)]
      rfl

theorem shifts_splice (node current : Id) :
    Shifts δ id (splice node current) (splice (node + δ) (current + δ)) := by
  refine .update fun s => ?_
  exact congrArg (fun sequence => { s.shift δ with sequence := sequence })
    (insertBefore_shift node current s.sequence)

/-- Verdicts on callees do not depend on ids. -/
theorem shifts_leadsBack (callee : MethodRef) :
    Shifts δ id (leadsBack scope callee) (leadsBack (scope.under n) callee) := by
  change Shifts δ id (leadsBack scope callee) (leadsBack scope callee)
  unfold leadsBack
  cases scope.method with
  | none => exact .pure _
  | some m =>
    dsimp only
    split
    · exact .pure _
    · refine Shifts.state.bind fun s => ?_
      dsimp only [State.shift]
      cases s.verdicts.find? (scope.context.program.methodName callee) with
      | some verdict => exact .pure _
      | none =>
        refine .bind (.update fun _ => ?_) fun _ => .pure _
        rfl

theorem shifts_shouldExpand (callee : MethodRef) :
    Shifts δ id (shouldExpand scope callee) (shouldExpand (scope.under n) callee) := by
  exact .ite ((shifts_leadsBack callee).bind fun verdict => .pure _) (.pure _)

theorem shifts_newActualIn (callee : Method) (call current : Id) (position : Nat)
    (argument : Expr) : Shifts δ (· + δ) (newActualIn scope callee call current position argument)
      (newActualIn (scope.under n) callee (call + δ) (current + δ) position argument) := by
  refine (shifts_newNode _ _ (.parameter (.argument position) call)).bind fun ain => ?_
  refine (shifts_specialVariable _ _).bind fun v => ?_
  refine (shifts_define ain v).bind fun _ => ?_
  refine (shifts_splice ain current).bind fun _ => ?_
  refine .bind (shifts_changeNode call fun n => ?_) fun _ => .pure ain
  obtain ⟨_, _, _, _ | _, _⟩ := n <;> simp [Node.rename, Node.mapIds, Payload.mapIds, Renaming.shift]

theorem shifts_newActualOut (call current : Id) (element : Element) (ordinal : Ordinal)
    (defined used : Variable) : Shifts δ id (newActualOut call current element ordinal defined used)
      (newActualOut (call + δ) (current + δ) element ordinal defined used) := by
  refine (shifts_newNode _ _ (.parameter ordinal call)).bind fun aout => ?_
  refine (shifts_define aout defined).bind fun _ => ?_
  refine (shifts_use aout used).bind fun _ => ?_
  refine (shifts_splice aout current).bind fun _ => ?_
  refine shifts_changeNode call fun n => ?_
  obtain ⟨_, _, _, _ | _, _⟩ := n <;> simp [Node.rename, Node.mapIds, Payload.mapIds, Renaming.shift]

theorem node?_shift (s : State) (i : Id) :
    (s.shift δ).graph.node? (i + δ) = (s.graph.node? i).map (·.rename (.shift δ)) :=
  s.graph.node?_rename (.shift δ) i

theorem shifts_actualInsOf (call : Id) :
    Shifts δ (List.map (· + δ)) (actualInsOf call) (actualInsOf (call + δ)) := by
  refine Shifts.state.bind fun s => ?_
  rw [node?_shift]
  cases s.graph.node? call with
  | none => exact .pure _
  | some n => obtain ⟨_, _, _, _ | _, _⟩ := n <;> exact .pure _

theorem shifts_newActualOuts (call current : Id) : ∀ ains : List Id,
    Shifts δ id (newActualOuts call current ains) (newActualOuts (call + δ) (current + δ) (ains.map (· + δ)))
  | [] => .pure ()
  | ain :: rest => by
    have hrest := shifts_newActualOuts call current rest
    rw [newActualOuts, map_cons, newActualOuts]
    refine Shifts.state.bind fun s => ?_
    rw [node?_shift]
    cases s.graph.node? ain with
    | none => exact hrest
    | some n =>
      obtain ⟨id, sort, element, payload, defs, uses, serial⟩ := n
      dsimp only [Option.map, Node.rename]
      rcases uses with _ | ⟨u, _ | _⟩
      · exact hrest
      · rcases defs with _ | ⟨d, defs⟩
        · exact hrest
        · cases payload with
          | parameter ordinal owner =>
            exact .ite ((shifts_newActualOut call current element ordinal u d).bind fun _ => hrest) hrest
          | _ => exact hrest
      · exact hrest

theorem shifts_newResult (e : Expr) (callee : Method) (call current : Id) :
    Shifts δ id (newResult scope e callee call current)
      (newResult (scope.under n) e callee (call + δ) (current + δ)) := by
  refine .ite (.pure ()) ?_
  refine (shifts_newNode _ _ (.parameter .result call)).bind fun aout => ?_
  refine (shifts_specialVariable _ _).bind fun defined => ?_
  refine (shifts_define aout defined).bind fun _ => ?_
  refine (shifts_specialVariable _ _).bind fun used => ?_
  refine (shifts_use aout used).bind fun _ => ?_
  refine (shifts_splice aout current).bind fun _ => ?_
  refine .bind (shifts_changeNode call fun n => ?_) fun _ => shifts_use current defined
  obtain ⟨_, _, _, _ | _, _⟩ := n <;> simp [Node.rename, Node.mapIds, Payload.mapIds, Renaming.shift]

theorem shifts_newMergedResult (e : Expr) (callee : Method) (call current : Id) :
    Shifts δ id (newMergedResult scope e callee call current)
      (newMergedResult (scope.under n) e callee (call + δ) (current + δ)) := by
  refine (shifts_specialVariable _ _).bind fun returned => ?_
  exact (shifts_define call returned).bind fun _ => shifts_use current returned

theorem shifts_endCall (site : CallSite) (e : Expr) :
    Shifts δ id (endCall scope site e) (endCall (scope.under n) (site.shift δ) e) := by
  obtain ⟨call, current, callee, expanded⟩ := site
  cases expanded with
  | true =>
    refine (shifts_splice call current).bind fun _ => ?_
    refine (shifts_actualInsOf call).bind fun ains => ?_
    refine (shifts_newActualOuts call current ains).bind fun _ => ?_
    exact shifts_newResult e callee call current
  | false => exact shifts_newMergedResult e callee call current

/-! ## Statements -/

theorem shifts_continuesSoFar : Shifts δ (Pending.shift δ) continuesSoFar continuesSoFar := by
  refine Shifts.state.bind fun s => ?_
  dsimp only [State.shift]
  cases s.jumps <;> exact .pure _

theorem shifts_entryOfSequence (node : Id) :
    Shifts δ (· + δ) (entryOfSequence node) (entryOfSequence (node + δ)) := by
  refine Shifts.state.bind fun s => ?_
  dsimp only [State.shift]
  cases s.sequence <;> exact .pure _

theorem shifts_openHead : Shifts δ id openHead openHead := by
  refine Shifts.state.bind fun s => ?_
  dsimp only [State.shift]
  rw [length_map]
  refine .bind (.update fun s' => ?_) fun _ => .pure _
  have hheads : s'.heads.map (.map (· + δ)) ++ [none] = (s'.heads ++ [none]).map (.map (· + δ)) := by
    rw [map_append]
    rfl
  exact congrArg (fun heads => { s'.shift δ with heads := heads }) hheads

theorem shifts_headOf (number : Nat) :
    Shifts δ (· + δ) (headOf scope number) (headOf (scope.under n) number) := by
  refine Shifts.state.bind fun s => ?_
  dsimp only [State.shift]
  rw [getElem?_map]
  rcases s.heads[number]? with _ | _ | id
  · exact .throw _
  · exact .throw _
  · exact .pure id

theorem map_shift_append_onward (pending : Pending) (node : Id) :
    pending.shift δ ++ onward (node + δ) = (pending ++ onward node).map (·.shift δ) := by
  rw [map_append]
  rfl

theorem onward_append_shift (node : Id) (progress : CaseProgress) :
    onward (node + δ) ++ (progress.shift δ).fall = (onward node ++ progress.fall).map (·.shift δ) := by
  rfl

end Lowering

/-! ## Units -/

namespace Cfg

open Lowering Tracked

variable {δ : Int} {scope : Scope} {n : Nat}

theorem shifts_lowerParameters (entry : Id) : ∀ (ordinal : Nat) (vs : List Variable)
    (pending : Pending), Shifts δ (Pending.shift δ) (lowerParameters scope entry ordinal vs pending)
      (lowerParameters (scope.under n) (entry + δ) ordinal vs (pending.shift δ))
  | _, [], pending => .pure pending
  | ordinal, v :: vs, pending => by
    refine (shifts_newNode _ _ (.parameter (.argument ordinal) entry)).bind fun node => ?_
    refine (shifts_define node v).bind fun _ => ?_
    refine (shifts_specialVariable _ _).bind fun w => ?_
    refine (shifts_use node w).bind fun _ => ?_
    refine (shifts_connect pending node none).bind fun _ => ?_
    refine Shifts.bind (shifts_changeNode entry fun n => ?_) fun _ => ?_
    · obtain ⟨_, _, _, _ | _, _⟩ := n <;> simp [Node.rename, Node.mapIds, Payload.mapIds, Renaming.shift]
    exact shifts_lowerParameters entry (ordinal + 1) vs
      [leave node (if vs.isEmpty then .true else .parameter)]

theorem shifts_lowerResult (entry : Id) (r : MethodRef) (m : Method) (pending : Pending) :
    Shifts δ (Pending.shift δ) (lowerResult scope entry r m pending)
      (lowerResult (scope.under n) (entry + δ) r m (pending.shift δ)) := by
  refine (shifts_newNode _ _ (.parameter .result entry)).bind fun node => ?_
  refine (shifts_specialVariable _ _).bind fun v => ?_
  refine (shifts_define node v).bind fun _ => ?_
  refine (shifts_use node _).bind fun _ => ?_
  refine (shifts_connect pending node none).bind fun _ => ?_
  refine .bind (shifts_changeNode entry fun n => ?_) fun _ => .pure (onward node)
  obtain ⟨_, _, _, _ | _, _⟩ := n <;> simp [Node.rename, Node.mapIds, Payload.mapIds, Renaming.shift]

theorem startState_shift (entry exit : Node) :
    startState (entry.rename (.shift δ)) (exit.rename (.shift δ)) = (startState entry exit).shift δ := by
  have hentry : (Graph.empty .flow).appendNode (entry.rename (.shift δ)) =
      ((Graph.empty .flow).appendNode entry).rename (.shift δ) :=
    (Graph.empty .flow).appendNode_rename (.shift δ) entry
  have hgraph : (ofEnds 0 (entry.rename (.shift δ)) (exit.rename (.shift δ)) "").toGraph =
      (ofEnds 0 entry exit "").toGraph.rename (.shift δ) := by
    simp only [ofEnds, hentry, Node.rename_id, Graph.hasNode_rename, Graph.appendNode_rename]
    split <;> rfl
  exact congrArg (fun g => ({ graph := g } : State)) hgraph

theorem ofState_shift (numbering : Nat) (name : String) (entry exit : Node) (s : State) :
    ofState n name (entry.rename (.shift δ)) (exit.rename (.shift δ)) (s.shift δ) =
      ((ofState numbering name entry exit s).under n).rename (.shift δ) := by
  have hentry : ((s.shift δ).graph.node? (entry.id + δ)).getD (entry.rename (.shift δ)) =
      ((s.graph.node? entry.id).getD entry).rename (.shift δ) := by
    rw [node?_shift]
    cases s.graph.node? entry.id <;> rfl
  exact congrArg (fun k => { ofState n name entry exit s with
    toGraph := s.graph.rename (.shift δ), entry := k, exit := exit.rename (.shift δ) }) hentry

/-- Two constructions of a flow graph, of which the second one starts later and under another
numbering, end alike. -/
def EndsShifted {σ τ : Type} (δ : Int) (n : Nat) (x : Tracked σ Cfg) (x' : Tracked τ Cfg)
    (p : σ × Trail) (p' : τ × Trail) : Prop :=
  Ends x p
    (fun c q => Returns x' p' fun c' q' => c' = (c.under n).rename (.shift δ) ∧ q'.2.next = q.2.next + δ)
    (fun e q => Ends x' p' (fun _ _ => False) fun e' q' => e.Agrees e' ∧ q'.2.next = q.2.next + δ)

variable {σ τ : Type}

/-- Validation finds the same in a graph that was moved. -/
theorem endsShifted_validate (p : σ × Trail) (p' : τ × Trail) (c : Cfg)
    (h : p'.2.next = p.2.next + δ) : EndsShifted δ n (do c.validate; return c)
      (do ((c.under n).rename (.shift δ)).validate; return (c.under n).rename (.shift δ)) p p' := by
  have hreached : (c.rename (.shift δ)).reachable (c.entry.id + δ) true true none =
      (c.reachable c.entry.id true true none).map (· + δ) :=
    (renamed_rename (.shift δ) c).reachable_eq c.entry.id true true none
  have hexit : c.exit.id + δ ∈ (c.rename (.shift δ)).reachable (c.entry.id + δ) true true none ↔
      c.exit.id ∈ c.reachable c.entry.id true true none := by
    rw [hreached]
    exact Search.mem_map_iff (f := (· + δ)) (Int.add_left_inj δ)
  have hright := ends_validate (c.rename (.shift δ)) p'
  simp only [EndsShifted, ends_bind, ends_pure]
  refine (ends_validate c p).mono ?_ ?_
  · rintro _ q ⟨hreach, _, hnext⟩
    refine hright.mono (fun _ q' hq' => ⟨trivial, ?_⟩) fun _ _ hq' => hq'.1.1 (hexit.2 hreach)
    rw [hq'.2.2, h, hnext]
  · rintro e q ⟨⟨hreach, he⟩, _, hnext⟩
    refine hright.mono (fun _ _ hq' => hreach (hexit.1 hq'.1)) fun e' q' hq' => ⟨fun _ _ _ => ?_, ?_⟩
    · rw [hq'.1.2, he]
      rfl
    · rw [hq'.2.2, h, hnext]

variable {p : σ × Trail} {p' : τ × Trail}

/-- A build from other ids gives the same graph, moved. -/
theorem endsShifted_build (scope : Scope) (sort : ScopeSort) (element : Element)
    {body : Id → Id → Lower Unit} {body' : Id → Id → Lower Unit}
    (hbody : ∀ entry exit, Shifts δ id (body entry exit) (body' (entry + δ) (exit + δ)))
    (h : p'.2.next = p.2.next + δ) :
    EndsShifted δ n (build scope sort element body) (build (scope.under n) sort element body') p p' := by
  have hsucc : ∀ i : Id, i + δ + 1 = i + 1 + δ := fun i => Int.add_right_comm _ _ _
  let entry : Node := { id := p.2.next, sort := .entry sort, element, payload := .entry [] [] }
  let exit : Node := { id := p.2.next + 1, sort := .exit sort, element }
  have hrun := hbody entry.id exit.id (startState entry exit) { p.2 with next := p.2.next + 1 + 1 }
    { p'.2 with next := p.2.next + 1 + 1 + δ } rfl
  rw [← startState_shift] at hrun
  simp only [EndsShifted, build, ends_bind, ends_freshId, ends_within, h, hsucc]
  refine hrun.mono ?_ ?_
  · intro _ q hq
    obtain ⟨_, q', hrun', _, hstate, htrail⟩ := hq.exists_run
    have hfinish := endsShifted_validate (n := n) (p.1, q.2) (p'.1, q'.2)
      (ofState scope.context.numbering scope.name entry exit q.1) htrail
    rw [← ofState_shift, ← hstate] at hfinish
    simp only [EndsShifted, ends_bind] at hfinish
    refine hfinish.mono ?_ ?_
    · intro _ _ hr
      exact hr.mono (fun _ _ hs => (ends_iff_of_run hrun').2 hs) fun _ _ hs => (ends_iff_of_run hrun').2 hs
    · exact fun _ _ hr => (ends_iff_of_run hrun').2 hr
  · intro _ q hq
    exact hq.imp fun _ _ hr => hr.elim

end Cfg

end ProgramDependence
