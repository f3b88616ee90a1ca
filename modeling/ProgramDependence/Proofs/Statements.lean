import ProgramDependence.Proofs.Framed
import ProgramDependence.Proofs.Ways

/-!
# Lowering follows the source

`Lowerable`: lowering a statement lowers some structured control, and for a regular statement it is
the one that `controlOf` reads off the source.  A statement is regular if all its parts are of a
known kind and the initializers of its for loops are expressions or declarations.  Lowering fails
only where it meets a statement of an unknown form, and then says which.
-/

namespace ProgramDependence

open List

/-- Whether a statement can stand among the initializers of a for loop: an expression or a
declaration. -/
def Stmt.isInitializer : Stmt → Bool
  | .bare _ | .declaration _ _ => true
  | _ => false

mutual

/-- Whether all parts of a statement are of a known kind and all for loops are initialized by
expressions or declarations. -/
def Stmt.isRegular : Stmt → Bool
  | .bare e => e.isAbsent
  | .other _ _ => false
  | .block ss _ => allRegular ss
  | .ifElse _ p n _ => p.isRegular && n.isRegular
  | .whileLoop _ b _ | .doLoop b _ _ | .eachLoop _ _ b _ | .synchronized _ b _ | .labeled _ b _ =>
    b.isRegular
  | .forLoop is _ _ b _ => is.all Stmt.isInitializer && b.isRegular
  | .switch _ cs _ => casesRegular cs
  | .tryCatch b cs f _ => b.isRegular && (catchesRegular cs && f.isRegular)
  | .absent | .empty _ | .expression _ _ | .declaration _ _ | .breakJump _ _ | .continueJump _ _
  | .returnJump _ _ | .throwJump _ _ | .assertion _ _ _ | .typeDeclaration _ _ => true

def allRegular : List Stmt → Bool
  | [] => true
  | s :: ss => s.isRegular && allRegular ss

def casesRegular : List SwitchCase → Bool
  | [] => true
  | .mk _ ss _ :: cs => allRegular ss && casesRegular cs

def catchesRegular : List CatchClause → Bool
  | [] => true
  | .mk _ b _ :: cs => b.isRegular && catchesRegular cs

end

mutual

/-- Whether no switch of a statement has two default cases. -/
def Stmt.singleDefaults : Stmt → Bool
  | .block ss _ => allSingle ss
  | .ifElse _ p n _ => p.singleDefaults && n.singleDefaults
  | .whileLoop _ b _ | .doLoop b _ _ | .eachLoop _ _ b _ | .synchronized _ b _ | .labeled _ b _ =>
    b.singleDefaults
  | .forLoop is _ _ b _ => allSingle is && b.singleDefaults
  | .switch _ cs _ => (cs.filter (·.guard.isAbsent)).length ≤ 1 && casesSingle cs
  | .tryCatch b cs f _ => b.singleDefaults && (catchesSingle cs && f.singleDefaults)
  | .absent | .bare _ | .other _ _ | .empty _ | .expression _ _ | .declaration _ _ | .breakJump _ _
  | .continueJump _ _ | .returnJump _ _ | .throwJump _ _ | .assertion _ _ _ | .typeDeclaration _ _ => true

def allSingle : List Stmt → Bool
  | [] => true
  | s :: ss => s.singleDefaults && allSingle ss

def casesSingle : List SwitchCase → Bool
  | [] => true
  | .mk _ ss _ :: cs => allSingle ss && casesSingle cs

def catchesSingle : List CatchClause → Bool
  | [] => true
  | .mk _ b _ :: cs => b.singleDefaults && catchesSingle cs

end

mutual

/-- The tags of the parts of a statement that are of an unknown form, in the order they are met. -/
def Stmt.unknowns : Stmt → List String
  | .bare e => if e.isAbsent then [] else [e.tag]
  | .other tag _ => [tag]
  | .block ss _ => allUnknowns ss
  | .ifElse _ p n _ => p.unknowns ++ n.unknowns
  | .whileLoop _ b _ | .doLoop b _ _ | .eachLoop _ _ b _ | .synchronized _ b _ | .labeled _ b _ =>
    b.unknowns
  | .forLoop is _ _ b _ => initializersUnknowns is ++ b.unknowns
  | .switch _ cs _ => casesUnknowns cs
  | .tryCatch b cs f _ => b.unknowns ++ (catchesUnknowns cs ++ f.unknowns)
  | .absent | .empty _ | .expression _ _ | .declaration _ _ | .breakJump _ _ | .continueJump _ _
  | .returnJump _ _ | .throwJump _ _ | .assertion _ _ _ | .typeDeclaration _ _ => []

def allUnknowns : List Stmt → List String
  | [] => []
  | s :: ss => s.unknowns ++ allUnknowns ss

/-- The unknown forms among the initializers of a for loop, where expressions may stand. -/
def initializersUnknowns : List Stmt → List String
  | [] => []
  | .bare _ :: ss => initializersUnknowns ss
  | s :: ss => s.unknowns ++ initializersUnknowns ss

def casesUnknowns : List SwitchCase → List String
  | [] => []
  | .mk _ ss _ :: cs => allUnknowns ss ++ casesUnknowns cs

def catchesUnknowns : List CatchClause → List String
  | [] => []
  | .mk _ b _ :: cs => b.unknowns ++ catchesUnknowns cs

end

theorem initializersUnknowns_cons {s : Stmt} (hbare : ∀ e, s ≠ .bare e) (ss : List Stmt) :
    initializersUnknowns (s :: ss) = s.unknowns ++ initializersUnknowns ss := by
  cases s <;> first | rfl | exact absurd rfl (hbare _)

theorem initializersUnknowns_eq_nil (ss : List Stmt) (h : ss.all Stmt.isInitializer = true) :
    initializersUnknowns ss = [] := by
  induction ss with
  | nil => rfl
  | cons s ss ih =>
    rw [all_cons, Bool.and_eq_true] at h
    cases s with
    | bare e => exact ih h.2
    | declaration fs line => exact ih h.2
    | _ => simp [Stmt.isInitializer] at h

mutual

/-- A regular statement has no part of an unknown form. -/
theorem Stmt.unknowns_eq_nil : ∀ s : Stmt, s.isRegular = true → s.unknowns = []
  | .bare e, h => by simpa [Stmt.unknowns, Stmt.isRegular] using h
  | .block ss _, h => allUnknowns_eq_nil ss h
  | .ifElse _ p n _, h => by
    rw [Stmt.isRegular, Bool.and_eq_true] at h
    rw [Stmt.unknowns, p.unknowns_eq_nil h.1, n.unknowns_eq_nil h.2, nil_append]
  | .whileLoop _ b _, h | .doLoop b _ _, h | .eachLoop _ _ b _, h | .synchronized _ b _, h
  | .labeled _ b _, h => b.unknowns_eq_nil h
  | .forLoop is _ _ b _, h => by
    rw [Stmt.isRegular, Bool.and_eq_true] at h
    rw [Stmt.unknowns, initializersUnknowns_eq_nil is h.1, b.unknowns_eq_nil h.2, nil_append]
  | .switch _ cs _, h => casesUnknowns_eq_nil cs h
  | .tryCatch b cs f _, h => by
    rw [Stmt.isRegular, Bool.and_eq_true, Bool.and_eq_true] at h
    rw [Stmt.unknowns, b.unknowns_eq_nil h.1, catchesUnknowns_eq_nil cs h.2.1, f.unknowns_eq_nil h.2.2,
      nil_append, nil_append]
  | .other _ _, h => by simp [Stmt.isRegular] at h
  | .absent, _ | .empty _, _ | .expression _ _, _ | .declaration _ _, _ | .breakJump _ _, _
  | .continueJump _ _, _ | .returnJump _ _, _ | .throwJump _ _, _ | .assertion _ _ _, _
  | .typeDeclaration _ _, _ => rfl

theorem allUnknowns_eq_nil : ∀ ss : List Stmt, allRegular ss = true → allUnknowns ss = []
  | [], _ => rfl
  | s :: ss, h => by
    rw [allRegular, Bool.and_eq_true] at h
    rw [allUnknowns, s.unknowns_eq_nil h.1, allUnknowns_eq_nil ss h.2, nil_append]

theorem casesUnknowns_eq_nil : ∀ cs : List SwitchCase, casesRegular cs = true → casesUnknowns cs = []
  | [], _ => rfl
  | .mk _ ss _ :: cs, h => by
    rw [casesRegular, Bool.and_eq_true] at h
    rw [casesUnknowns, allUnknowns_eq_nil ss h.1, casesUnknowns_eq_nil cs h.2, nil_append]

theorem catchesUnknowns_eq_nil : ∀ cs : List CatchClause, catchesRegular cs = true → catchesUnknowns cs = []
  | [], _ => rfl
  | .mk _ b _ :: cs, h => by
    rw [catchesRegular, Bool.and_eq_true] at h
    rw [catchesUnknowns, b.unknowns_eq_nil h.1, catchesUnknowns_eq_nil cs h.2, nil_append]

end

namespace Lowering

open Tracked Graph

variable {scope : Scope} {p q r : State × Trail} {pending out mid : Pending}
variable {sort : StatementSort} {j : Jump} {c : Expr}

/-- Lowering stopped at one of some unknown forms, and says at which. -/
def Stuck (scope : Scope) (unknowns : List String) (e : Error) : Prop :=
  ∃ tag ∈ unknowns, e = .construction scope.name (.unknownStatement tag)

namespace Stuck

variable {unknowns : List String} {e : Error}

theorem left (h : Stuck scope unknowns e) (more : List String) : Stuck scope (unknowns ++ more) e := by
  obtain ⟨tag, htag, he⟩ := h
  exact ⟨tag, mem_append_left _ htag, he⟩

theorem right (h : Stuck scope unknowns e) (more : List String) : Stuck scope (more ++ unknowns) e := by
  obtain ⟨tag, htag, he⟩ := h
  exact ⟨tag, mem_append_right _ htag, he⟩

end Stuck

/-! ## Nodes and lines -/

theorem created_newNode (hfit : p.1.graph.Fit p.2.next) (label : Label) (payload : Payload) :
    Created ⟨p.2.next, label⟩ p ({ p.1 with
        graph :=
        p.1.graph.appendNode { id := p.2.next, sort := label.sort, element := label.element, payload } },
      { p.2 with next := p.2.next + 1 }) :=
  ⟨rfl, .appendNode hfit rfl, rfl⟩

variable {t : Token} {bad : Error → State × Trail → Prop} {l : Line Token} {s b : Stmt} {ss : List Stmt}

section

variable (h : Created t p q)

include h

theorem Created.retouch (id : Id) {f : Node → Node} (hf : ∀ n, (f n).token = n.token) :
    Created t p ({ q.1 with graph := q.1.graph.modifyNode id f }, q.2) :=
  ⟨by rw [h.kept], h.grows.trans (.modifyNode h.grows.fit id hf), h.reports⟩

theorem Created.note {unresolved : List Tree} {log : List Notice}
    (hreports : lostJumps unresolved = lostJumps q.1.unresolved) :
    Created t p ({ q.1 with unresolved }, { q.2 with log }) :=
  ⟨by rw [h.kept], h.grows, hreports.trans h.reports⟩

theorem Created.addDef (id : Id) (v : Variable) :
    Created t p ({ q.1 with graph := q.1.graph.modifyNode id (·.addDef v) }, q.2) :=
  h.retouch id fun n => token_addDef n v

/-- A created node defines its variable, or the absence of one is reported, and lowering goes on. -/
theorem Created.declare {α : Type} (v : Option Variable) (id : Id) {tree : Tree} (htree : isJump tree = false)
    {rest : Lower α} {good : α → State × Trail → Prop} (hrest : ∀ r, Created t p r → Ends rest r good bad) :
    Ends (match v with
      | some v => do
        define id v
        rest
      | none => do
        reportUnresolved scope tree
        rest) q good bad := by
  cases v with
  | some v =>
    exact hrest _ (h.addDef id v)
  | none =>
    exact hrest _ (h.note (lostJumps_append htree _))

end

/-- A node that evaluates expressions and goes on is laid as a line. -/
theorem ends_lowerSimple (element : Element) (es : List Expr) (hp : Sane p) (hpending : Sound p.1 pending) :
    Returns (lowerSimple scope sort element es pending) p
      fun node q => ∃ l, Laid l pending p q ∧ l.node.id = node ∧ q.1.sequence = l.all.map (·.id) ∧
        Reads scope l ⟨.statement sort, element⟩ es p q := by
  rw [lowerSimple, returns_bind, ends_newNode]
  refine ends_visitChain es (created_newNode hp.fit ⟨.statement sort, element⟩ .none) hpending
    fun l r hlaid hnode hseq hreads => ?_
  exact ⟨l, hlaid, by rw [hnode], hseq, hreads⟩

/-- A created node that receives open edges is a line of its own. -/
theorem Created.laid (h : Created t p q) (hconnect : Connected pending t.target q r) :
    Laid (.single t) pending p r := by
  have hheads : q.1.heads = p.1.heads := by rw [h.kept]
  refine ⟨?_, ?_, ?_, ?_⟩
  · rw [hconnect.kept, h.kept]
  · simpa [Line.single, Line.all, Line.first, links] using h.grows.trans hconnect.grows
  · rw [← hheads]
    exact hconnect.settles
  · rw [hconnect.kept]
    exact h.reports

theorem Created.ends_connect {t : Token} (h : Created t p q) (hpending : Sound p.1 pending) :
    Returns (connect pending t.id none) q fun _ r => Laid (.single t) pending p r ∧
    notesOf r = notesOf p := by
  have hheads : q.1.heads = p.1.heads := by rw [h.kept]
  have hsound : Sound q.1 pending := hpending.mono h.grows.subset (Nat.le_of_eq (by rw [hheads]))
  have hclear : Clear q.1.graph pending t.id := .of_not_wired fun w hw =>
    (h.grows.not_wired (mem_singleton_self t) hw).2
  refine (Lowering.ends_connect none h.grows.fit (h.grows.mem_nodeIds.2 (.inr (by simp))) hsound
    hclear).imp ?_
  intro _ r hconnect
  refine ⟨h.laid hconnect, ?_⟩
  simp only [notesOf]
  rw [hconnect.kept, h.kept]

theorem Laid.pendingLabel_eq (h : Laid l pending p q) : q.1.pendingLabel = p.1.pendingLabel := by
  rw [h.kept]

/-- The place where branches meet is laid as a line of its own. -/
theorem ends_lowerMerge (s : Stmt) (branch : Id) (hp : Sane p) (hpending : Sound p.1 pending) :
    Returns (lowerMerge s branch pending) p
      fun out q => ∃ t : Token, t.label = s.joinLabel ∧ Laid (.single t) pending p q ∧
        out = onward t.id ∧ notesOf q = notesOf p := by
  simp only [lowerMerge, ends_bind]
  refine ((created_newNode hp.fit s.joinLabel (.merge branch)).ends_connect hpending).imp ?_
  rintro _ q ⟨hlaid, hnotes⟩
  exact ⟨_, rfl, hlaid, rfl, hnotes⟩

theorem ends_lowerExpressions (es : List Expr) (hp : Sane p) (hpending : Sound p.1 pending) :
    Returns (lowerExpressions scope es pending) p
      fun out q => ∃ ls, LaidAll ls pending out p q ∧ ls.length = es.length ∧
        ls.map (Line.map Token.label) = (updatersOf scope es (notesOf p)).1 ∧
        notesOf q = (updatersOf scope es (notesOf p)).2 := by
  induction es generalizing p pending with
  | nil => exact ⟨[], .nil hp, rfl, rfl, rfl⟩
  | cons e es ih =>
    simp only [lowerExpressions, lowerExpression, ends_bind]
    refine (ends_lowerSimple _ _ hp hpending).imp ?_
    rintro node q ⟨l, hlaid, rfl, -, hlabels, hnotes⟩
    have hnode : Sound q.1 (onward l.node.id) := (Anchored.onward_iff.2 hlaid.node_mem).sound
    refine (ih (hlaid.sane hp) hnode).imp ?_
    rintro out r ⟨ls, hls, hlength, hlabels', hnotes'⟩
    rw [hnotes] at hlabels' hnotes'
    refine ⟨l :: ls, .cons hlaid hls, by simp [hlength], ?_, hnotes'⟩
    rw [map_cons, hlabels, hlabels']
    rfl

theorem Control.map_lines (ls : List (Line Token)) :
    (Control.lines ls).map Token.label = Control.lines (ls.map (Line.map Token.label)) := by
  induction ls with
  | nil => rfl
  | cons l ls ih => rw [Control.lines, Control.map, ih]; rfl

/-- What was made, the notes and the label that waits are as it is read off the source. -/
abbrev Tells {α : Type} (a : α) (q : State × Trail) (read : α × Notes) (label : Option String) : Prop :=
  a = read.1 ∧ notesOf q = read.2 ∧ q.1.pendingLabel = label

theorem ends_lowerFragments (whole : Option Stmt) (fs : List Fragment) (hp : Sane p)
    (hpending : Sound p.1 pending) :
    Returns (lowerFragments scope whole fs pending) p fun out q => ∃ ls, Lowered (.lines ls) pending out p q ∧
        Tells (ls.map (Line.map Token.label)) q (fragmentsOf scope whole fs (notesOf p))
        p.1.pendingLabel := by
  induction fs generalizing p pending with
  | nil => exact ⟨[], .skip hp, rfl, rfl, rfl⟩
  | cons f fs ih =>
    have hcreated := created_newNode hp.fit ⟨.statement .localDeclaration, f.elementIn whole⟩ .none
    simp only [lowerFragments]
    refine hcreated.declare f.var p.2.next rfl fun q hq => ?_
    refine ends_visitChain [f.initializer] hq hpending fun l u hlaid hnode _ ⟨hlabels, hnotes⟩ => ?_
    have hid : l.node.id = p.2.next := by rw [hnode]
    have hsound : Sound u.1 (onward p.2.next) := hid ▸ (Anchored.onward_iff.2 hlaid.node_mem).sound
    refine (ih (hlaid.sane hp) hsound).imp ?_
    rintro out v ⟨ls, hls, hlabels', hnotes', hlabel⟩
    rw [hnotes] at hlabels' hnotes'
    refine ⟨l :: ls, (Lowered.line hp hlaid).seq (hid ▸ hls), ?_, hnotes', hlabel.trans hlaid.pendingLabel_eq⟩
    rw [map_cons, hlabels, hlabels']
    rfl

/-! ## Statements -/

/-- What the control of every statement shares with its source, regular or not: loops are decided at
loop nodes, every node is left in a way that fits its kind, and no switch has two default cases if
`single` holds of the source. -/
structure Mirrors (single : Bool) (k : Control Token) : Prop where
  tests : ∀ t ∈ k.tests, t.label.sort.isLoop = true
  fits : ∀ x next, ∀ d ∈ k.ways x next, d.Fits
  defaults : single = true → k.singleDefaults = true

namespace Mirrors

variable {single : Bool} {a b : Control Token} {l : Line Token} {label : Option String}

theorem skip : Mirrors single .skip :=
  ⟨by simp [Control.tests], by simp [Control.ways], fun _ => rfl⟩

theorem line (hl : (l.map Token.label).Stands (·.passes = true)) : Mirrors single (.line l) :=
  ⟨by simp [Control.tests], fun _ next => Line.Stands.fits (.onward next) hl, fun _ => rfl⟩

theorem jump (hl : (l.map Token.label).Stands (· = .statement j.sort)) : Mirrors single (.jump l j) := by
  refine ⟨by simp [Control.tests], fun x next => ?_, fun _ => rfl⟩
  refine Line.Stands.fits (.jump j (x.resolve j) next) ⟨hl.1, hl.2, fun hnone => ?_⟩
  rw [hl.2]
  cases j with
  | breakTo label => exact .inl rfl
  | continueTo label => exact .inr rfl
  | returning | throwing => cases hnone

theorem left (h : Mirrors single a) (more : Bool) : Mirrors (single && more) a :=
  ⟨h.tests, h.fits, fun hs => h.defaults (Bool.and_eq_true_iff.1 hs).1⟩

theorem right (h : Mirrors single a) (more : Bool) : Mirrors (more && single) a :=
  ⟨h.tests, h.fits, fun hs => h.defaults (Bool.and_eq_true_iff.1 hs).2⟩

theorem seq (ha : Mirrors single a) (hb : Mirrors single b) : Mirrors single (.seq a b) where
  tests := fun t ht => (mem_append.1 ht).elim (ha.tests t) (hb.tests t)
  fits := fun _ _ d hd => (mem_append.1 hd).elim (ha.fits _ _ d) (hb.fits _ _ d)
  defaults := fun hs => by simp [Control.singleDefaults, ha.defaults hs, hb.defaults hs]

theorem branch (ha : Mirrors single a) (hb : Mirrors single b)
    (hl : (l.map Token.label).Stands (·.forks = true)) : Mirrors single (.branch l a b) where
  tests := (ha.seq hb).tests
  fits := fun x next d hd => by
    rcases mem_append.1 hd with hd | hd
    · exact Line.Stands.fits (.fork _ _) hl d hd
    · exact (mem_append.1 hd).elim (ha.fits _ _ d) (hb.fits _ _ d)
  defaults := (ha.seq hb).defaults

theorem forks_of_isLoop {sort : NodeSort} (h : sort.isLoop = true) : sort.forks = true := by
  cases sort with
  | statement sort => cases sort <;> first | rfl | cases h
  | _ => cases h

theorem loop {update : List (Line Token)} (ha : Mirrors single a)
    (hl : (l.map Token.label).Stands (·.isLoop = true))
    (hupdate : ∀ u ∈ update, (u.map Token.label).Stands (·.passes = true)) :
    Mirrors single (.loop label l a update) where
  tests := forall_mem_cons.2 ⟨hl.2, ha.tests⟩
  fits := fun x next d hd => by
    rcases mem_append.1 hd with hd | hd
    · exact Line.Stands.fits (.fork _ _) ⟨hl.1, forks_of_isLoop hl.2⟩ d hd
    · exact (mem_append.1 hd).elim (ha.fits _ _ d) (linesWays_fits hupdate _ d)
  defaults := ha.defaults

theorem doLoop (ha : Mirrors single a) (hl : (l.map Token.label).Stands (·.isLoop = true)) :
    Mirrors single (.doLoop label a l) where
  tests := forall_mem_cons.2 ⟨hl.2, ha.tests⟩
  fits := fun x next d hd => by
    rcases mem_append.1 hd with hd | hd
    · exact ha.fits _ _ d hd
    · exact Line.Stands.fits (.fork _ _) ⟨hl.1, forks_of_isLoop hl.2⟩ d hd
  defaults := ha.defaults

theorem labeled {own : String} (ha : Mirrors single a) : Mirrors single (.labeled own a) :=
  ⟨ha.tests, fun _ _ => ha.fits _ _, ha.defaults⟩

theorem series {ts : List Token} (hts : ∀ t ∈ ts, t.label.sort.passes = true) :
    Mirrors single (.series ts) := by
  induction ts with
  | nil => exact .skip
  | cons t ts ih =>
    rw [forall_mem_cons] at hts
    exact .seq (.line ⟨by simp [Line.map, Line.single], hts.1⟩) (ih hts.2)

theorem lines {ls : List (Line Token)} (hls : ∀ l ∈ ls, (l.map Token.label).Stands (·.passes = true)) :
    Mirrors single (.lines ls) := by
  induction ls with
  | nil => exact .skip
  | cons l ls ih =>
    rw [forall_mem_cons] at hls
    exact .seq (.line hls.1) (ih hls.2)

end Mirrors

/-- The control of a source whose parts are all of known forms. -/
structure Reflects (single : Bool) (unknowns : List String) (k : Control Token) :
    Prop extends Mirrors single k where
  known : unknowns = []

theorem Reflects.both {single single' : Bool} {us us' : List String} {a b : Control Token}
    (ha : Reflects single us a) (hb : Reflects single' us' b) : us ++ us' = [] :=
  append_eq_nil_iff.2 ⟨ha.known, hb.known⟩

theorem stands_of_labels {ls : List (Line Token)} {ls' : List (Line Label)} {good : NodeSort → Prop}
    (h : ls.map (Line.map Token.label) = ls') (hls : ∀ l ∈ ls', l.Stands good) :
    ∀ l ∈ ls, (l.map Token.label).Stands good :=
  fun _ hl => hls _ (h ▸ mem_map_of_mem hl)

/-- The control that a regular statement was lowered to is the one read off the source.  A label may
wait for a loop only. -/
def Follows (scope : Scope) (s : Stmt) (k : Control Token) (p q : State × Trail) : Prop :=
  s.isRegular = true → (p.1.pendingLabel ≠ none → s.isLoop = true) →
    Tells (k.map Token.label) q (controlOf scope p.1.pendingLabel s (notesOf p)) none

/-- Lowering a statement lowers structured control, and fails only at a part of an unknown form. -/
def Lowerable (scope : Scope) (s : Stmt) : Prop :=
  ∀ ⦃p : State × Trail⦄ ⦃pending : Pending⦄, Sane p → Sound p.1 pending →
    Ends (lower scope s pending) p
      (fun out q => ∃ k, Lowered k pending out p q ∧ Reflects s.singleDefaults s.unknowns k ∧
      Follows scope s k p q) (fun e _ => Stuck scope s.unknowns e)

theorem Follows.none {k : Control Token} (h : Follows scope s k p q) (hregular : s.isRegular = true)
    (hlabel : p.1.pendingLabel = none) :
    Tells (k.map Token.label) q (controlOf scope none s (notesOf p)) none := by
  have hfollows := h hregular fun hne => absurd hlabel hne
  rwa [hlabel] at hfollows

theorem label_none (h : p.1.pendingLabel ≠ none → s.isLoop = true) (hs : s.isLoop = false) :
    p.1.pendingLabel = none := by
  by_contra hne
  simp [h hne] at hs

/-- A statement of one node goes on from there. -/
theorem lowerable_line {es : List Expr} (hknown : s.unknowns = [])
    (hpasses : (NodeSort.statement sort).passes = true) (hloop : s.isLoop = false)
    (hlower : ∀ pending,
      lower scope s pending = do return onward (← lowerSimple scope sort (.ofStmt s) es pending))
    (hcontrol : ∀ n, controlOf scope none s n =
      (.line (lineOf scope (s.label sort) es n).1, (lineOf scope (s.label sort) es n).2)) :
      Lowerable scope s := by
  intro p pending hp hpending
  rw [hlower, ends_bind]
  refine (ends_lowerSimple _ es hp hpending).always ?_
  rintro node q ⟨l, hlaid, rfl, -, hlabels, hnotes⟩
  refine ⟨.line l, .line hp hlaid, ⟨.line (hlabels ▸ lineOf_stands hpasses), hknown⟩, fun _ hown => ?_⟩
  have hnone := label_none hown hloop
  rw [hnone, hcontrol, Control.map, hlabels]
  exact ⟨rfl, hnotes, hlaid.pendingLabel_eq.trans hnone⟩

/-- The place where branches meet is passed straight through. -/
theorem stands_join (h : t.label = s.joinLabel) :
    ((Line.single t).map Token.label).Stands (·.passes = true) := by
  rw [Line.map_single, h]
  exact ⟨by simp [Line.single], rfl⟩

variable {line : Int}

/-- Both branches start at the condition and meet behind it. -/
theorem Lowerable.ifElse {y n : Stmt} (hy : Lowerable scope y)
    (hn : Lowerable scope n) : Lowerable scope (.ifElse c y n line) := by
  intro p pending hp hpending
  simp only [lower, ends_bind]
  refine (ends_lowerSimple _ [c] hp hpending).always ?_
  rintro node q ⟨l, hlaid, rfl, -, hlabels, hnotes⟩
  have hnode : ∀ sort, Anchored q.1.graph [leave l.node.id sort] := fun sort => by
    simpa using hlaid.node_mem
  refine (hy (hlaid.sane hp) (hnode .true).sound).mono ?_ fun _ _ h => h.left _
  rintro yes r ⟨a, ha, hma, hfa⟩
  have hnode' : Anchored r.1.graph [leave l.node.id .false] :=
    (hnode .false).mono ha.subset
  refine (hn ha.sane hnode'.sound).mono ?_ fun _ _ h => h.right _
  rintro no u ⟨b, hb, hmb, hfb⟩
  have hbranch := Lowered.branch hlaid ha hb
  refine (ends_lowerMerge _ _ hb.sane (hbranch.sound hpending)).always ?_
  rintro _ v ⟨t, hlabel, hlaid', rfl, hnotes'⟩
  refine ⟨_, hbranch.seq (.line hb.sane hlaid'),
    ⟨((hma.left _).branch (hmb.right _) (hlabels ▸ lineOf_stands rfl)).seq (.line (stands_join hlabel)),
    hma.both hmb⟩,
    fun hregular hown => ?_⟩
  simp only [Stmt.isRegular, Bool.and_eq_true] at hregular
  have hnone := label_none hown rfl
  obtain ⟨ha₁, ha₂, ha₃⟩ := hfa.none hregular.1 (hlaid.pendingLabel_eq.trans hnone)
  obtain ⟨hb₁, hb₂, hb₃⟩ := hfb.none hregular.2 ha₃
  rw [hnotes] at ha₁ ha₂
  rw [ha₂] at hb₁ hb₂
  refine ⟨?_, hnotes'.trans hb₂, hlaid'.pendingLabel_eq.trans hb₃⟩
  simp only [Control.map, hlabels, ha₁, hb₁, Line.map_single, hlabel]
  rfl

/-! ## Loops -/

theorem ends_entryOfSequence (hseq : p.1.sequence = l.all.map (·.id)) (node : Id)
    {good : Id → State × Trail → Prop} : Ends (entryOfSequence node) p good bad ↔ good l.first.id p := by
  obtain ⟨rest, hall⟩ := l.exists_all_eq
  simp [entryOfSequence, hseq, hall]

theorem Laid.first_mem (h : Laid l pending p q) : l.first.id ∈ q.1.graph.nodeIds := by
  obtain ⟨rest, hall⟩ := l.exists_all_eq
  exact h.mem_nodeIds.2 (.inr (by simp [hall]))

theorem ends_enter_loop {good : Unit → State × Trail → Prop} :
    Ends (enter .loop none) p good bad ↔ good () (entered .loop p.1.pendingLabel p) := by
  rw [ends_enter]
  cases p.1.pendingLabel <;> rfl

/-- Back edges are drawn and the frame of the loop is left. -/
theorem ends_closeLoop {loop entry : Id} {back : Pending} (hp : Sane p) (hentry : entry ∈ p.1.graph.nodeIds)
    (hback : Sound p.1 back) (hclear : Clear p.1.graph back entry) : Returns (closeLoop loop entry back) p
      fun out q => ∃ v, Connected back ⟨entry, some loop⟩ p v ∧ q = left v ∧
        out = leave loop .false :: (top v).breaks := by
  simp only [closeLoop, ends_bind, ends_exit]
  refine (ends_connect (some loop) hp.fit hentry hback hclear).imp ?_
  exact fun _ v hv => ⟨v, hv, rfl, rfl⟩

/-- The rounds of a loop whose condition was laid: the body inside a frame, the updaters, and the
back edges to `entry`. -/
theorem ends_rounds {entry : Id} (us : List Expr) (hb : Lowerable scope b) (hp : Sane p)
    (hpending : Sound p.1 pending) (hlaid : Laid l pending p q) (hentry : entry ∈ q.1.graph.nodeIds) :
    Ends (do
        enter .loop none
        let out ← lower scope b (onward l.node.id)
        let back ← lowerExpressions scope us (out ++ (← continuesSoFar))
        closeLoop l.node.id entry back) q
      (fun out v => ∃ k update, Lowers (some l.first) (k.labels ++ q.1.pendingLabel.toList)
          (l.all ++ (k.nodes ++ update.flatMap Line.all)) (loopWires q.1.pendingLabel l k update entry)
          (fun ts => strays k ({ kind := .loop, label := q.1.pendingLabel } :: ts)) pending out p v ∧
        update.length = us.length ∧ Reflects b.singleDefaults b.unknowns k ∧
        (∀ u ∈ update, (u.map Token.label).Stands (·.passes = true)) ∧ (b.isRegular = true →
          k.map Token.label = (controlOf scope none b (notesOf q)).1 ∧ update.map (Line.map Token.label) =
            (updatersOf scope us (controlOf scope none b (notesOf q)).2).1 ∧
          notesOf v = (updatersOf scope us (controlOf scope none b (notesOf q)).2).2 ∧
          v.1.pendingLabel = none))
      (fun e _ => Stuck scope b.unknowns e) := by
  have hq := hlaid.sane hp
  have hnode : Anchored (entered .loop q.1.pendingLabel q).1.graph (onward l.node.id) :=
    Anchored.onward_iff.2 hlaid.node_mem
  rw [ends_bind, ends_enter_loop, ends_bind]
  refine (hb (hq.entered .loop q.1.pendingLabel) hnode.sound).imp ?_
  rintro out r ⟨k, hk, hmirrors, hfollows⟩
  have hopen : Anchored r.1.graph (out ++ (top r).continues) := Anchored.append_iff.2
    ⟨hk.anchor hnode, hk.sane.continues _ (top_mem (jumps_inside hk.shapes).1)⟩
  rw [ends_bind, ends_continuesSoFar, ends_bind]
  refine (ends_lowerExpressions us hk.sane hopen.sound).always ?_
  rintro back u ⟨update, hupdate, hlength, hlabels, hnotes⟩
  have hentry' : entry ∈ u.1.graph.nodeIds := by
    obtain ⟨planned, hgrows, -⟩ := hupdate.balance
    exact hgrows.subset (hk.subset hentry)
  refine (ends_closeLoop (hupdate.sane hk.sane) hentry' (hupdate.anchor hopen).sound
    (clear_back hpending hlaid hk hupdate hentry)).always ?_
  rintro _ _ ⟨v, hv, rfl, rfl⟩
  refine ⟨k, update, .loop hlaid hk hupdate hv, hlength, hmirrors,
    stands_of_labels hlabels (updatersOf_stands _ _), fun hregular => ?_⟩
  obtain ⟨hk₁, hk₂, hk₃⟩ := hfollows.none hregular rfl
  have hnotes' : notesOf (left v) = notesOf u := by
    simp only [notesOf, left]
    rw [hv.kept]
  have hlabel : (left v).1.pendingLabel = r.1.pendingLabel := by
    simp only [left]
    rw [hv.kept, hupdate.kept]
  rw [hk₂] at hlabels hnotes
  exact ⟨hk₁, hlabels, hnotes'.trans hnotes, hlabel.trans hk₃⟩

theorem Lowerable.whileLoop (hb : Lowerable scope b) :
    Lowerable scope (.whileLoop c b line) := by
  intro p pending hp hpending
  simp only [lower]
  rw [ends_bind]
  refine (ends_lowerSimple _ [c] hp hpending).always ?_
  rintro node q ⟨l, hlaid, rfl, hseq, hlabels, hnotes⟩
  rw [ends_bind, ends_entryOfSequence hseq]
  refine (ends_rounds [] hb hp hpending hlaid hlaid.first_mem).imp ?_
  rintro out v ⟨k, update, hloop, -, hmirrors, hstands, hfollows⟩
  refine ⟨.loop q.1.pendingLabel l k update, hloop,
    ⟨hmirrors.loop (hlabels ▸ lineOf_stands rfl) hstands, hmirrors.known⟩, fun hregular _ => ?_⟩
  obtain ⟨hk, hupdate, hv, hlabel⟩ := hfollows hregular
  rw [hnotes] at hk hupdate hv
  refine ⟨?_, hv, hlabel⟩
  simp only [Control.map, hlabels, hk, hupdate, hlaid.pendingLabel_eq]
  rfl

/-- Lowering the initializers of a for loop lowers structured control.  Expressions and declarations
are read off the source, and a label goes on waiting for the loop. -/
def LowerableInitializers (scope : Scope) (ss : List Stmt) : Prop :=
  ∀ ⦃p : State × Trail⦄ ⦃pending : Pending⦄, Sane p → Sound p.1 pending →
    Ends (lowerInitializers scope ss pending) p
      (fun out q => ∃ k, Lowered k pending out p q ∧
        Reflects (allSingle ss) (initializersUnknowns ss) k ∧ (ss.all Stmt.isInitializer = true →
          Tells (k.map Token.label) q (initializersOf scope ss (notesOf p)) p.1.pendingLabel))
      (fun e _ => Stuck scope (initializersUnknowns ss) e)

theorem Lowerable.forLoop {is : List Stmt} {us : List Expr}
    (his : LowerableInitializers scope is) (hb : Lowerable scope b) :
    Lowerable scope (.forLoop is c us b line) := by
  intro p pending hp hpending
  rw [lower, ends_bind]
  refine (his hp hpending).mono ?_ fun _ _ h => h.left _
  rintro mid o ⟨i, hi, hmi, hinit⟩
  rw [ends_bind]
  refine (ends_lowerSimple _ [c] hi.sane (hi.sound hpending)).always ?_
  rintro node q ⟨l, hlaid, rfl, hseq, hlabels, hnotes⟩
  rw [ends_bind, ends_entryOfSequence hseq]
  refine (ends_rounds us hb hi.sane (hi.sound hpending) hlaid hlaid.first_mem).mono ?_ fun _ _ h => h.right _
  rintro out v ⟨k, update, hloop, -, hmirrors, hstands, hfollows⟩
  have hrounds : Lowered (.loop q.1.pendingLabel l k update) mid out o v := hloop
  refine ⟨.seq i (.loop q.1.pendingLabel l k update), hi.seq hrounds,
    ⟨(hmi.left _).seq ((hmirrors.right _).loop (hlabels ▸ lineOf_stands rfl) hstands), hmi.both hmirrors⟩,
    fun hregular _ => ?_⟩
  simp only [Stmt.isRegular, Bool.and_eq_true] at hregular
  obtain ⟨hi₁, hi₂, hi₃⟩ := hinit hregular.1
  obtain ⟨hk, hupdate, hv, hlabel⟩ := hfollows hregular.2
  rw [hnotes, hi₂] at hk hupdate hv
  rw [hi₂] at hlabels
  refine ⟨?_, hv, hlabel⟩
  simp only [Control.map, hlabels, hi₁, hk, hupdate, hlaid.pendingLabel_eq, hi₃]
  rfl

theorem Control.map_series (ts : List Token) :
    (Control.series ts).map Token.label = Control.series (ts.map Token.label) := by
  induction ts with
  | nil => rfl
  | cons t ts ih => rw [Control.series, Control.map, ih]; rfl

theorem Lowerable.eachLoop {v : Option Variable} {i : Expr} {b : Stmt}
    (hb : Lowerable scope b) : Lowerable scope (.eachLoop v i b line) := by
  intro p pending hp hpending
  have hcreated := created_newNode hp.fit ((Stmt.eachLoop v i b line).label .forLoop) .none
  simp only [lower]
  rw [ends_bind]
  refine hcreated.declare v p.2.next rfl fun q hq => ?_
  refine ends_visitChain [i] hq hpending fun l u hlaid hnode _ ⟨hlabels, hnotes⟩ => ?_
  have hid : p.2.next = l.node.id := by rw [hnode]
  rw [hid]
  refine (ends_rounds [] hb hp hpending hlaid hlaid.node_mem).imp ?_
  rintro out w ⟨k, update, hloop, hlength, hmirrors, -, hfollows⟩
  obtain rfl : update = [] := length_eq_zero_iff.1 hlength
  rw [flatMap_nil, append_nil] at hloop
  have hstands : (l.map Token.label).Stands (·.isLoop = true) := hlabels ▸ lineOf_stands rfl
  refine ⟨_, Lowered.eachLoop hloop, ⟨(Mirrors.series fun t ht => hstands.1 _ (mem_map_of_mem ht)).seq
      (hmirrors.loop ⟨by simp [Line.single, Line.map], hstands.2⟩ (by simp)), hmirrors.known⟩,
      fun hregular _ => ?_⟩
  obtain ⟨hk, -, hw, hlabel⟩ := hfollows hregular
  rw [hnotes] at hk hw
  have hbefore : l.before.map Token.label =
      (lineOf scope ((Stmt.eachLoop v i b line).label .forLoop) [i] (notesOf p)).1.before :=
    congrArg Line.before hlabels
  refine ⟨?_, hw, hlabel⟩
  simp only [Control.map, Control.map_series, hbefore, hnode, hk, hlaid.pendingLabel_eq]
  rfl

theorem ends_openHead {good : Nat → State × Trail → Prop} :
    Ends openHead p good bad ↔ good p.1.heads.length (opened p) :=
  .rfl

theorem ends_headOf {number : Nat} {id : Id} (h : p.1.heads[number]? = some (some id))
    {good : Id → State × Trail → Prop} : Ends (headOf scope number) p good bad ↔ good id p := by
  simp only [headOf, ends_bind, ends_state, h, ends_pure]

/-- The head of a do loop is known only after its body. -/
theorem Lowerable.doLoop {b : Stmt} (hb : Lowerable scope b) :
    Lowerable scope (.doLoop b c line) := by
  intro p pending hp hpending
  rw [lower, ends_bind, ends_openHead, ends_bind, ends_enter_loop, ends_bind]
  refine (hb (hp.opened.entered _ _) (sound_awaiting p .loop p.1.pendingLabel)).imp ?_
  rintro out q ⟨k, hk, hmirrors, hfollows⟩
  have hsound : Sound q.1 (out ++ (top q).continues) := forall_mem_append.2
    ⟨hk.sound (sound_awaiting p .loop p.1.pendingLabel),
      (hk.sane.continues _ (top_mem (jumps_inside hk.shapes).1)).sound⟩
  rw [ends_bind, ends_continuesSoFar, ends_bind]
  refine (ends_lowerSimple _ [c] hk.sane hsound).always ?_
  rintro node r ⟨l, hlaid, rfl, -, hlabels, hnotes⟩
  have hr := hlaid.sane hk.sane
  have hold : p.1.graph.nodeIds ⊆ r.1.graph.nodeIds := List.Subset.trans hk.subset hlaid.grows.subset
  have hfirst : (k.first?.getD l.first).id ∈ r.1.graph.nodeIds ∧ p.2.next ≤ (k.first?.getD l.first).id := by
    cases hk' : k.first? with
    | none =>
      have hid : l.first.id ∈ l.all.map (·.id) := mem_map_of_mem l.first_mem
      exact ⟨hlaid.mem_nodeIds.2 (.inr hid), Int.le_trans hk.le (hlaid.grows.fresh l.first l.first_mem)⟩
    | some t =>
      have hid : t.id ∈ k.nodes.map (·.id) := mem_map_of_mem (Control.first?_mem k hk')
      exact ⟨hlaid.mem_nodeIds.2 (.inl (hk.mem_nodeIds.2 (.inr hid))), hk.fresh hid⟩
  have hle : p.1.heads.length ≤ r.1.heads.length :=
    Nat.le_trans (Nat.le_trans (by simp [entered, opened]) hk.settles.le) hlaid.settles.le
  rw [ends_bind, ends_headOf (head_known hk hlaid), ends_bind]
  refine (ends_connect none hr.fit hfirst.1 (hpending.mono hold hle)
    (clear_head hpending hp.fit hk hlaid hfirst.2)).always ?_
  intro _ u hu
  rw [ends_bind]
  have hfree : ∀ w ∈ u.1.graph.wires, w.src = l.node.id → w.dst = (k.first?.getD l.first).id →
      (w.sort = .fallThrough ↔ FlowSort.true = .fallThrough) := fun w hw hsrc hdst =>
    ⟨fun hfall => clear_test hpending hp.fit hk.le hsound hlaid hu w hw hfall hdst _
      (mem_singleton_self _) (congrArg Source.node hsrc.symm), fun h => by cases h⟩
  refine (ends_addFlow hu.grows.fit (hu.nodeIds_eq.2 hlaid.node_mem) (hu.nodeIds_eq.2 hfirst.1)
    (some l.node.id) hfree).always ?_
  rintro _ v ⟨hkept, hgrows⟩
  rw [ends_bind, ends_exit]
  refine ⟨_, .doLoop hk hlaid hu hkept hgrows,
    ⟨hmirrors.doLoop (hlabels ▸ lineOf_stands rfl), hmirrors.known⟩,
    fun hregular _ => ?_⟩
  obtain ⟨hk₁, hk₂, hk₃⟩ := hfollows.none hregular rfl
  have hnotes' : notesOf (left v) = notesOf r := by
    simp only [notesOf, left]
    rw [hkept, hu.kept]
  have hlabel : (left v).1.pendingLabel = q.1.pendingLabel := by
    simp only [left]
    rw [hkept, hu.kept, hlaid.kept]
  rw [hk₂] at hlabels hnotes
  refine ⟨?_, hnotes'.trans hnotes, hlabel.trans hk₃⟩
  simp only [Control.map, hlabels, hk₁]
  rfl

/-! ## Jumps -/

theorem Parks.notesOf_eq {node : Id} (h : Parks j node p q) : notesOf q = notesOf p := by
  simp only [notesOf]
  rw [h.kept]

theorem Parks.pendingLabel_eq {node : Id} (h : Parks j node p q) : q.1.pendingLabel = p.1.pendingLabel := by
  rw [h.kept]

/-- A break or continue: a node of its own that is parked with its target. -/
theorem lowerable_jump {resolve : Id → Lower Bool} (hknown : s.unknowns = [])
    (hloop : s.isLoop = false) (hreported : ∀ ts, lostJumps (ts ++ [.stmt s]) = lostJumps ts ++ [.ofStmt s])
    (hlower : ∀ pending, lower scope s pending = lowerJump scope j.sort s resolve pending)
    (hcontrol : ∀ n, controlOf scope none s n = (.jump (.single (s.label j.sort)) j, n))
    (hresolve : ∀ {q : State × Trail} {node : Id}, Sane q → node ∈ q.1.graph.nodeIds →
      Returns (resolve node) q (Parked j node q)) : Lowerable scope s := by
  intro p pending hp hpending
  rw [hlower]
  have hcreated := created_newNode hp.fit (s.label j.sort) .none
  simp only [lowerJump, ends_bind]
  refine (hcreated.ends_connect hpending).always ?_
  rintro _ q ⟨hlaid, hnotes⟩
  refine (hresolve (hlaid.sane hp) hlaid.node_mem).always ?_
  rintro found r ⟨hparks, hfound, hkept, hreport⟩
  have hdone : ∀ u, Parks j p.2.next q u →
      lostJumps u.1.unresolved = lostJumps q.1.unresolved ++
        elementsOf (if found then [] else [⟨p.2.next, s.label j.sort⟩]) →
      ∃ k, Lowered k pending [leave p.2.next .fallThrough] p u ∧
        Reflects s.singleDefaults s.unknowns k ∧ Follows scope s k p u := by
    intro u hu hreports
    rw [hfound] at hreports
    refine ⟨_, .jump hlaid hu hreports, ⟨.jump ⟨by simp [Line.single, Line.map], rfl⟩, hknown⟩,
      fun _ hown => ?_⟩
    have hnone := label_none hown hloop
    rw [hnone, hcontrol]
    exact ⟨rfl, hu.notesOf_eq.trans hnotes, hu.pendingLabel_eq.trans (hlaid.pendingLabel_eq.trans hnone)⟩
  cases found with
  | true => exact hdone r hparks (by rw [hkept]; exact (append_nil _).symm)
  | false =>
    refine hdone _ (hreport rfl _ _) ?_
    rw [← hkept]
    exact hreported r.1.unresolved

/-- A statement that leaves the unit: a line that is parked with the unit. -/
theorem follows_leave {es : List Expr} (hloop : s.isLoop = false)
    (hcontrol : ∀ n, controlOf scope none s n =
      (.jump (lineOf scope (s.label sort) es n).1 j, (lineOf scope (s.label sort) es n).2))
    (hlaid : Laid l pending p q) (hreads : Reads scope l (s.label sort) es p q)
    (hparks : Parks j l.node.id q r) : Follows scope s (.jump l j) p r := by
  intro _ hown
  have hnone := label_none hown hloop
  rw [hnone, hcontrol, Control.map, hreads.1]
  exact ⟨rfl, hparks.notesOf_eq.trans hreads.2, hparks.pendingLabel_eq.trans
    (hlaid.pendingLabel_eq.trans hnone)⟩

theorem lowerable_throw (e : Expr) (line : Int) : Lowerable scope (.throwJump e line) := by
  intro p pending hp hpending
  rw [lower, ends_bind]
  refine (ends_lowerSimple _ [e] hp hpending).always ?_
  rintro node q ⟨l, hlaid, rfl, -, hreads⟩
  have hparks := (parks_leaving (hlaid.sane hp) hlaid.node_mem).2
  exact ⟨_, .jump hlaid hparks (append_nil _).symm, ⟨.jump (hreads.1 ▸ lineOf_stands rfl), rfl⟩,
    follows_leave rfl (fun _ => rfl) hlaid hreads hparks⟩

theorem lowerable_return (e : Expr) (line : Int) : Lowerable scope (.returnJump e line) := by
  intro p pending hp hpending
  have hcreated := created_newNode hp.fit ((Stmt.returnJump e line).label .returnJump) .none
  rw [lower, ends_bind, ends_newNode]
  have hrest : ∀ q, Created ⟨p.2.next, (Stmt.returnJump e line).label .returnJump⟩ p q →
      Ends (do
        visitNode scope p.2.next [e]
        chain pending
        .update fun st => { st with returns := st.returns ++ onward p.2.next }
        return [leave p.2.next .fallThrough]) q
      (fun out q => ∃ k, Lowered k pending out p q ∧ Reflects true [] k ∧
        Follows scope (.returnJump e line) k p q)
      (fun error _ => Stuck scope (Stmt.returnJump e line).unknowns error) := by
    intro q hq
    refine ends_visitChain [e] hq hpending fun l u hlaid hnode _ hreads => ?_
    have hid : p.2.next = l.node.id := by rw [hnode]
    have hparks := (parks_leaving (hlaid.sane hp) hlaid.node_mem).1
    rw [hid]
    exact ⟨_, .jump hlaid hparks (append_nil _).symm,
      ⟨.jump (hreads.1 ▸ lineOf_stands rfl), rfl⟩, follows_leave rfl (fun _ => rfl) hlaid hreads hparks⟩
  cases scope.method with
  | none => exact hrest _ hcreated
  | some m =>
    by_cases he : e.isAbsent = true
    · simp only [he]
      exact hrest _ hcreated
    · simp only [he]
      exact hrest _ (hcreated.addDef p.2.next _)

/-! ## Blocks and labels -/

/-- Lowering statements one after the other lowers structured control. -/
def LowerableAll (scope : Scope) (ss : List Stmt) : Prop :=
  ∀ ⦃p : State × Trail⦄ ⦃pending : Pending⦄, Sane p → Sound p.1 pending →
    Ends (lowerAll scope ss pending) p
      (fun out q => ∃ k, Lowered k pending out p q ∧ Reflects (allSingle ss) (allUnknowns ss) k ∧
        (allRegular ss = true → p.1.pendingLabel = none →
          Tells (k.map Token.label) q (controlOfAll scope ss (notesOf p)) none))
      (fun e _ => Stuck scope (allUnknowns ss) e)

theorem lowerableAll_nil : LowerableAll scope [] :=
  fun _ _ hp _ => ⟨.skip, .skip hp, ⟨.skip, rfl⟩, fun _ hnone => ⟨rfl, rfl, hnone⟩⟩

/-- What a statement leaves open the next one receives. -/
theorem Lowerable.cons (hs : Lowerable scope s) (hss : LowerableAll scope ss) :
    LowerableAll scope (s :: ss) := by
  intro p pending hp hpending
  rw [lowerAll, ends_bind]
  refine (hs hp hpending).mono ?_ fun _ _ h => h.left _
  rintro mid q ⟨a, ha, hma, hfa⟩
  refine (hss ha.sane (ha.sound hpending)).mono ?_ fun _ _ h => h.right _
  rintro out r ⟨b, hb, hmb, hfb⟩
  refine ⟨.seq a b, ha.seq hb, ⟨(hma.left _).seq (hmb.right _), hma.both hmb⟩, fun hregular hnone => ?_⟩
  simp only [allRegular, Bool.and_eq_true] at hregular
  obtain ⟨ha₁, ha₂, ha₃⟩ := hfa.none hregular.1 hnone
  obtain ⟨hb₁, hb₂, hb₃⟩ := hfb hregular.2 ha₃
  rw [ha₂] at hb₁ hb₂
  refine ⟨?_, hb₂, hb₃⟩
  simp only [Control.map, ha₁, hb₁]
  rfl

theorem LowerableAll.block (hss : LowerableAll scope ss) : Lowerable scope (.block ss line) := by
  intro p pending hp hpending
  refine (hss hp hpending).imp ?_
  rintro out q ⟨k, hk, hmirrors, hfollows⟩
  refine ⟨k, hk, hmirrors, fun hregular hown => ?_⟩
  have hnone := label_none hown rfl
  exact hfollows hregular hnone

theorem lowerableInitializers_nil : LowerableInitializers scope [] :=
  fun _ _ hp _ => ⟨.skip, .skip hp, ⟨.skip, rfl⟩, fun _ => ⟨rfl, rfl, rfl⟩⟩

theorem LowerableInitializers.bare {e : Expr} (hss : LowerableInitializers scope ss) :
    LowerableInitializers scope (.bare e :: ss) := by
  intro p pending hp hpending
  simp only [lowerInitializers, lowerExpression, ends_bind]
  refine (ends_lowerSimple _ [e] hp hpending).always ?_
  rintro node q ⟨l, hlaid, rfl, -, hlabels, hnotes⟩
  have hline := Lowered.line hp hlaid
  refine (hss hline.sane (hline.sound hpending)).imp ?_
  rintro out r ⟨k, hk, hmirrors, hfollows⟩
  refine ⟨.seq (.line l) k, hline.seq hk,
    ⟨.seq (.line (hlabels ▸ lineOf_stands rfl)) (hmirrors.right _), hmirrors.known⟩, fun hall => ?_⟩
  obtain ⟨hk₁, hk₂, hk₃⟩ := hfollows (by simpa [Stmt.isInitializer] using hall)
  rw [hnotes] at hk₁ hk₂
  refine ⟨?_, hk₂, hk₃.trans hlaid.pendingLabel_eq⟩
  simp only [Control.map, hlabels, hk₁]
  rfl

/-- A declaration, with what becomes of a label that waits. -/
theorem ends_lower_declaration (fs : List Fragment) (line : Int) (hp : Sane p)
    (hpending : Sound p.1 pending) : Returns (lower scope (.declaration fs line) pending) p
      fun out q => ∃ k, Lowered k pending out p q ∧ Mirrors true k ∧
        Tells (k.map Token.label) q (declarationOf scope (.declaration fs line) fs (notesOf p))
        p.1.pendingLabel := by
  refine (ends_lowerFragments _ fs hp hpending).imp ?_
  rintro out q ⟨ls, hls, hlabels, hnotes, hlabel⟩
  refine ⟨.lines ls, hls, .lines (stands_of_labels hlabels (fragmentsOf_stands _ _)), ?_, hnotes, hlabel⟩
  rw [Control.map_lines, hlabels]
  rfl

theorem lowerable_declaration (fs : List Fragment) (line : Int) : Lowerable scope (.declaration fs line) := by
  intro p pending hp hpending
  refine (ends_lower_declaration fs line hp hpending).always ?_
  rintro out q ⟨k, hk, hmirrors, hlabels, hnotes, hlabel⟩
  refine ⟨k, hk, ⟨hmirrors, rfl⟩, fun _ hown => ?_⟩
  have hnone := label_none hown rfl
  exact ⟨hlabels, hnotes, hlabel.trans hnone⟩

/-- What lowering a statement does among the initializers of a for loop. -/
theorem Lowerable.ends_initializer (hbare : ∀ e, s ≠ .bare e) (hs : Lowerable scope s) (hp : Sane p)
    (hpending : Sound p.1 pending) : Ends (lower scope s pending) p
      (fun out q => ∃ k, Lowered k pending out p q ∧ Reflects s.singleDefaults s.unknowns k ∧
        (s.isInitializer = true →
        Tells (k.map Token.label) q (controlOf scope none s (notesOf p)) p.1.pendingLabel))
      (fun e _ => Stuck scope s.unknowns e) := by
  by_cases hs' : s.isInitializer = true
  · cases s with
    | declaration fs line =>
      refine (ends_lower_declaration fs line hp hpending).always ?_
      rintro out q ⟨k, hk, hmirrors, hrest⟩
      exact ⟨k, hk, ⟨hmirrors, rfl⟩, fun _ => hrest⟩
    | bare e => exact absurd rfl (hbare e)
    | _ => simp [Stmt.isInitializer] at hs'
  · refine (hs hp hpending).imp ?_
    rintro out q ⟨k, hk, hmirrors, -⟩
    exact ⟨k, hk, hmirrors, fun h => absurd h hs'⟩

theorem lowerInitializers_cons (hbare : ∀ e, s ≠ .bare e) (ss : List Stmt) (pending : Pending) :
    lowerInitializers scope (s :: ss) pending =
    (do lowerInitializers scope ss (← lower scope s pending)) := by
  cases s <;> first | rfl | exact absurd rfl (hbare _)

theorem Lowerable.initializer (hbare : ∀ e, s ≠ .bare e) (hs : Lowerable scope s)
    (hss : LowerableInitializers scope ss) : LowerableInitializers scope (s :: ss) := by
  intro p pending hp hpending
  have hcontrol : ∀ n, initializersOf scope (s :: ss) n =
      (.seq (controlOf scope none s n).1 (initializersOf scope ss (controlOf scope none s n).2).1,
        (initializersOf scope ss (controlOf scope none s n).2).2) := by
    intro n
    cases s <;> first | rfl | exact absurd rfl (hbare _)
  rw [lowerInitializers_cons hbare, initializersUnknowns_cons hbare, ends_bind]
  refine (hs.ends_initializer hbare hp hpending).mono ?_ fun _ _ h => h.left _
  rintro mid q ⟨a, ha, hma, hfa⟩
  refine (hss ha.sane (ha.sound hpending)).mono ?_ fun _ _ h => h.right _
  rintro out r ⟨b, hb, hmb, hfb⟩
  refine ⟨.seq a b, ha.seq hb, ⟨(hma.left _).seq (hmb.right _), hma.both hmb⟩, fun hall => ?_⟩
  rw [all_cons, Bool.and_eq_true] at hall
  obtain ⟨ha₁, ha₂, ha₃⟩ := hfa hall.1
  obtain ⟨hb₁, hb₂, hb₃⟩ := hfb hall.2
  rw [ha₂] at hb₁ hb₂
  refine ⟨?_, ?_, hb₃.trans ha₃⟩
  · rw [hcontrol, Control.map, ha₁, hb₁]
  · rw [hcontrol, hb₂]

theorem Lowerable.synchronized {e : Expr} (hb : Lowerable scope b) :
    Lowerable scope (.synchronized e b line) := by
  intro p pending hp hpending
  rw [lower, ends_bind]
  refine (ends_lowerSimple _ [e] hp hpending).always ?_
  rintro node q ⟨l, hlaid, rfl, -, hlabels, hnotes⟩
  have hline := Lowered.line hp hlaid
  refine (hb hline.sane (hline.sound hpending)).imp ?_
  rintro out r ⟨k, hk, hmirrors, hfollows⟩
  refine ⟨.seq (.line l) k, hline.seq hk,
    ⟨.seq (.line (hlabels ▸ lineOf_stands rfl)) hmirrors.toMirrors, hmirrors.known⟩,
    fun hregular hown => ?_⟩
  have hnone := label_none hown rfl
  obtain ⟨hk₁, hk₂, hk₃⟩ := hfollows.none hregular (hlaid.pendingLabel_eq.trans hnone)
  rw [hnotes] at hk₁ hk₂
  refine ⟨?_, hk₂, hk₃⟩
  simp only [Control.map, hlabels, hk₁]
  rfl

/-- A label that begins to wait changes nothing else. -/
theorem Lowered.relabel {k : Control Token} {label : Option String}
    (h : Lowered k pending out ({ p.1 with pendingLabel := label }, p.2) q) : Lowered k pending out p q :=
  ⟨h.sane, h.settles, h.shapes, h.passed, h.anchored, h.balance, h.reports⟩

/-- A loop takes its label over; others are framed. -/
theorem Lowerable.labeled {l : String} {b : Stmt} (hb : Lowerable scope b) :
    Lowerable scope (.labeled l b line) := by
  intro p pending hp hpending
  have hcreated := created_newNode hp.fit ((Stmt.labeled l b line).label .label) .none
  rw [lower, ends_bind, ends_newNode, ends_bind]
  refine (hcreated.ends_connect hpending).always ?_
  rintro _ q ⟨hlaid, hnotes⟩
  have hline := Lowered.line hp hlaid
  have hmirrors :
    Mirrors b.singleDefaults (.line (.single ⟨p.2.next, (Stmt.labeled l b line).label .label⟩)) :=
    .line ⟨by simp [Line.single, Line.map], rfl⟩
  have hq := hline.sane
  have hnode : Anchored q.1.graph (onward p.2.next) := Anchored.onward_iff.2 hlaid.node_mem
  by_cases hloop : b.isLoop = true
  · -- The loop takes the label over.
    have hq' : Sane ({ q.1 with pendingLabel := some l }, q.2) :=
      ⟨hq.fit, hq.breaks, hq.continues, hq.loops, hq.returns, hq.throws⟩
    simp only [hloop]
    refine (hb hq' hnode.sound).imp ?_
    rintro out r ⟨k, hk, hbody, hfollows⟩
    refine ⟨_, hline.seq hk.relabel, ⟨hmirrors.seq hbody.toMirrors, hbody.known⟩, fun hregular _ => ?_⟩
    obtain ⟨hk₁, hk₂, hk₃⟩ := hfollows hregular fun _ => hloop
    have hstart : notesOf ({ q.1 with pendingLabel := some l }, q.2) = notesOf p := hnotes
    rw [hstart] at hk₁ hk₂
    simp only [controlOf, hloop]
    exact ⟨by rw [Control.map, hk₁]; rfl, hk₂, hk₃⟩
  · simp only [hloop, Bool.false_eq_true, if_false, ends_bind]
    refine (hb (hq.entered .label (some l)) hnode.sound).imp ?_
    rintro out r ⟨k, hk, hbody, hfollows⟩
    rw [ends_exit]
    refine ⟨_, hline.seq (.labeled hk), ⟨hmirrors.seq hbody.labeled, hbody.known⟩, fun hregular _ => ?_⟩
    obtain ⟨hk₁, hk₂, hk₃⟩ := hfollows.none hregular rfl
    have hstart : notesOf (entered .label (some l) q) = notesOf p := hnotes
    rw [hstart] at hk₁ hk₂
    simp only [controlOf, hloop]
    exact ⟨by rw [Control.map, Control.map, Control.map, hk₁]; rfl, hk₂, hk₃⟩

end Lowering

end ProgramDependence
