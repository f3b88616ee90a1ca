import ProgramDependence.Proofs.Replay

/-!
# Flow graphs run as their source

The paths through the flow graph of a method, from the entry to the exit and along edges that are no
fall-through edges, show exactly the complete runs of the method.
-/

namespace ProgramDependence

open List
variable {ts : List Token}

/-! ## Labels of statements -/

mutual

/-- The labels of a statement and of the statements inside it. -/
def Stmt.labels : Stmt → List String
  | .labeled l b _ => l :: b.labels
  | .block ss _ => allLabels ss
  | .ifElse _ p n _ => p.labels ++ n.labels
  | .whileLoop _ b _ | .doLoop b _ _ | .eachLoop _ _ b _ | .synchronized _ b _ => b.labels
  | .forLoop is _ _ b _ => allLabels is ++ b.labels
  | .switch _ cs _ => casesLabels cs
  | .tryCatch b cs f _ => b.labels ++ (catchesLabels cs ++ f.labels)
  | .absent | .bare _ | .other _ _ | .empty _ | .expression _ _ | .declaration _ _ | .breakJump _ _
  | .continueJump _ _ | .returnJump _ _ | .throwJump _ _ | .assertion _ _ _ | .typeDeclaration _ _ => []

def allLabels : List Stmt → List String
  | [] => []
  | s :: ss => s.labels ++ allLabels ss

def casesLabels : List SwitchCase → List String
  | [] => []
  | .mk _ ss _ :: cs => allLabels ss ++ casesLabels cs

def catchesLabels : List CatchClause → List String
  | [] => []
  | .mk _ b _ :: cs => b.labels ++ catchesLabels cs

end

mutual

/-- Whether no labelled statement is inside one of the same label. -/
def Stmt.labelsApart : Stmt → Bool
  | .labeled l b _ => !b.labels.contains l && b.labelsApart
  | .block ss _ => allApart ss
  | .ifElse _ p n _ => p.labelsApart && n.labelsApart
  | .whileLoop _ b _ | .doLoop b _ _ | .eachLoop _ _ b _ | .synchronized _ b _ => b.labelsApart
  | .forLoop is _ _ b _ => allApart is && b.labelsApart
  | .switch _ cs _ => casesApart cs
  | .tryCatch b cs f _ => b.labelsApart && (catchesApart cs && f.labelsApart)
  | .absent | .bare _ | .other _ _ | .empty _ | .expression _ _ | .declaration _ _ | .breakJump _ _
  | .continueJump _ _ | .returnJump _ _ | .throwJump _ _ | .assertion _ _ _ | .typeDeclaration _ _ => true

def allApart : List Stmt → Bool
  | [] => true
  | s :: ss => s.labelsApart && allApart ss

def casesApart : List SwitchCase → Bool
  | [] => true
  | .mk _ ss _ :: cs => allApart ss && casesApart cs

def catchesApart : List CatchClause → Bool
  | [] => true
  | .mk _ b _ :: cs => b.labelsApart && catchesApart cs

end

/-- Control whose labels are apart and are among those of the source. -/
structure Control.Named (labels : List String) (k : Control Label) : Prop where
  apart : k.apart = true
  subset : k.labels ⊆ labels

namespace Control.Named

variable {labels labels' : List String} {a b k : Control Label}
variable {own : Option String}

theorem mono (h : k.Named labels) (hsub : labels ⊆ labels') : k.Named labels' :=
  ⟨h.apart, List.Subset.trans h.subset hsub⟩

theorem skip : (Control.skip : Control Label).Named labels :=
  ⟨rfl, nil_subset _⟩

theorem line (l : Line Label) : (Control.line l).Named labels :=
  ⟨rfl, nil_subset _⟩

theorem jump (l : Line Label) (j : Jump) : (Control.jump l j).Named labels :=
  ⟨rfl, nil_subset _⟩

theorem seq (ha : a.Named labels) (hb : b.Named labels) : (Control.seq a b).Named labels :=
  ⟨by rw [Control.apart, ha.apart, hb.apart]; rfl, append_subset.2 ⟨ha.subset, hb.subset⟩⟩

theorem branch (t : Line Label) (ha : a.Named labels) (hb : b.Named labels) :
    (Control.branch t a b).Named labels :=
  ⟨by rw [Control.apart, ha.apart, hb.apart]; rfl, append_subset.2 ⟨ha.subset, hb.subset⟩⟩

theorem not_contains (h : k.Named labels) (hown : own.any labels.contains = false) :
    own.any k.labels.contains = false := by
  cases own with
  | none => rfl
  | some l =>
    simp only [Option.any_some, contains_eq_mem, decide_eq_false_iff_not] at hown ⊢
    exact fun hl => hown (h.subset hl)

theorem loop (h : k.Named labels) (hown : own.any labels.contains = false) (t : Line Label)
    (update : List (Line Label)) : (Control.loop own t k update).Named (labels ++ own.toList) :=
  ⟨by rw [Control.apart, h.not_contains hown, h.apart]; rfl,
    append_subset.2 ⟨List.Subset.trans h.subset (subset_append_left _ _),
      subset_append_right _ _⟩⟩

theorem doLoop (h : k.Named labels) (hown : own.any labels.contains = false)
    (t : Line Label) : (Control.doLoop own k t).Named (labels ++ own.toList) :=
  ⟨by rw [Control.apart, h.not_contains hown, h.apart]; rfl,
    append_subset.2 ⟨List.Subset.trans h.subset (subset_append_left _ _),
      subset_append_right _ _⟩⟩

theorem series (xs : List Label) : (Control.series xs).Named labels := by
  induction xs with
  | nil => exact skip
  | cons x xs ih => exact seq (line _) ih

theorem lines (ls : List (Line Label)) : (Control.lines ls).Named labels := by
  induction ls with
  | nil => exact skip
  | cons l ls ih => exact seq (line _) ih

end Control.Named

theorem initializersOf_named {labels : List String} (scope : Lowering.Scope) : ∀ (ss : List Stmt) (n : Notes),
    ss.all Stmt.isInitializer = true → (initializersOf scope ss n).1.Named labels
  | [], _, _ => .skip
  | s :: ss, n, h => by
    rw [all_cons, Bool.and_eq_true] at h
    cases s with
    | bare e => exact .seq (.line _) (initializersOf_named scope ss _ h.2)
    | declaration fs line => exact .seq (.lines _) (initializersOf_named scope ss _ h.2)
    | _ => simp [Stmt.isInitializer] at h

mutual

/-- Labels that are apart in a statement are apart in its control. -/
theorem Stmt.control_named (scope : Lowering.Scope) : ∀ (s : Stmt) (own : Option String) (n : Notes),
    s.isRegular = true → s.labelsApart = true → own.any s.labels.contains = false →
      (controlOf scope own s n).1.Named (s.labels ++ own.toList)
  | .absent, _, _, _, _, _ | .bare _, _, _, _, _, _ | .other _ _, _, _, _, _, _
  | .typeDeclaration _ _, _, _, _, _, _ => .skip
  | .empty _, _, _, _, _, _ | .expression _ _, _, _, _, _, _ | .assertion _ _ _, _, _, _, _, _ => .line _
  | .breakJump _ _, _, _, _, _, _ | .continueJump _ _, _, _, _, _, _ | .returnJump _ _, _, _, _, _, _
  | .throwJump _ _, _, _, _, _, _ => .jump _ _
  | .declaration _ _, _, _, _, _, _ => .lines _
  | .block ss _, _, n, hregular, hapart, _ =>
    (controlOfAll_named scope ss n hregular hapart).mono (subset_append_left _ _)
  | .ifElse c p q line, own, n, hregular, hapart, _ => by
    simp only [Stmt.isRegular, Stmt.labelsApart, Bool.and_eq_true] at hregular hapart
    refine .seq (.branch _ ((p.control_named scope none _ hregular.1 hapart.1 rfl).mono fun l hl => ?_)
      ((q.control_named scope none _ hregular.2 hapart.2 rfl).mono fun l hl => ?_)) (.line _)
    all_goals simp_all [Stmt.labels]
  | .whileLoop c b line, own, n, hregular, hapart, hown =>
    .loop ((b.control_named scope none _ hregular hapart rfl).mono (by simp [Stmt.labels])) hown _ _
  | .doLoop b c line, own, n, hregular, hapart, hown =>
    .doLoop ((b.control_named scope none _ hregular hapart rfl).mono (by simp [Stmt.labels])) hown _
  | .forLoop is c us b line, own, n, hregular, hapart, hown => by
    simp only [Stmt.isRegular, Stmt.labelsApart, Bool.and_eq_true] at hregular hapart
    exact .seq (initializersOf_named scope is n hregular.1)
      (.loop ((b.control_named scope none _ hregular.2 hapart.2 rfl).mono (by simp [Stmt.labels])) hown _ _)
  | .eachLoop v i b line, own, n, hregular, hapart, hown =>
    .seq (.series _)
      (.loop ((b.control_named scope none _ hregular hapart rfl).mono (by simp [Stmt.labels])) hown _ _)
  | .switch e cs line, own, n, hregular, hapart, _ => by
    obtain ⟨harms, hsub⟩ := armsOf_named scope cs _ hregular hapart
    exact .seq ⟨harms, List.Subset.trans hsub (subset_append_left _ _)⟩ (.line _)
  | .synchronized e b line, own, n, hregular, hapart, _ =>
    .seq (.line _) ((b.control_named scope none _ hregular hapart rfl).mono (by simp [Stmt.labels]))
  | .tryCatch b cs f line, own, n, hregular, hapart, _ => by
    simp only [Stmt.isRegular, Stmt.labelsApart, Bool.and_eq_true] at hregular hapart
    have hparts (s : Stmt) (n n' : Notes) : (Control.branch (.single (s.label .tryCatch))
        (controlOf scope none b n).1 (handlersOf scope cs n').1).Named
          ((Stmt.tryCatch b cs f line).labels ++ own.toList) := by
      refine .branch _ ((b.control_named scope none _ hregular.1 hapart.1 rfl).mono fun l hl => ?_)
        ((handlersOf_named scope cs _ hregular.2.1 hapart.2.1).mono fun l hl => ?_)
      all_goals simp_all [Stmt.labels]
    rw [controlOf]
    dsimp only
    split
    · exact .seq (hparts _ _ _) (.line _)
    · refine .seq (hparts _ _ _) (.seq (.seq (.line _)
        ((f.control_named scope none _ hregular.2.2 hapart.2.2 rfl).mono fun l hl => ?_)) (.line _))
      simp_all [Stmt.labels]
  | .labeled l b line, own, n, hregular, hapart, _ => by
    simp only [Stmt.labelsApart, Bool.and_eq_true, Bool.not_eq_true'] at hapart
    rw [controlOf]
    dsimp only
    split
    · refine .seq (.line _)
        ((b.control_named scope (some l) n hregular hapart.2 hapart.1).mono fun l' hl => ?_)
      rcases mem_append.1 hl with hl | hl
      · simp [Stmt.labels, hl]
      · simp [Stmt.labels, mem_singleton.1 hl]
    · have hb := b.control_named scope none n hregular hapart.2 rfl
      rw [Option.toList_none, append_nil] at hb
      have hl : (some l).any (controlOf scope none b n).1.labels.contains = false :=
        hb.not_contains hapart.1
      refine .seq (.line _) ⟨by rw [Control.apart, hb.apart]; simpa using hl, fun l' hl' => ?_⟩
      rcases mem_append.1 hl' with hl' | hl'
      · simp [Stmt.labels, hb.subset hl']
      · simp [Stmt.labels, mem_singleton.1 hl']

theorem controlOfAll_named (scope : Lowering.Scope) : ∀ (ss : List Stmt) (n : Notes),
    allRegular ss = true → allApart ss = true → (controlOfAll scope ss n).1.Named (allLabels ss)
  | [], _, _, _ => .skip
  | s :: ss, n, hregular, hapart => by
    simp only [allRegular, allApart, Bool.and_eq_true] at hregular hapart
    exact .seq ((s.control_named scope none n hregular.1 hapart.1 rfl).mono (by simp [allLabels]))
      ((controlOfAll_named scope ss _ hregular.2 hapart.2).mono (subset_append_right _ _))

theorem armsOf_named (scope : Lowering.Scope) : ∀ (cs : List SwitchCase) (n : Notes),
    casesRegular cs = true → casesApart cs = true →
      (armsOf scope cs n).1.apart = true ∧ (armsOf scope cs n).1.labels ⊆ casesLabels cs
  | [], _, _, _ => ⟨rfl, nil_subset _⟩
  | .mk g ss line :: cs, n, hregular, hapart => by
    simp only [casesRegular, casesApart, Bool.and_eq_true] at hregular hapart
    have hbody := fun n => controlOfAll_named scope ss n hregular.1 hapart.1
    have hrest := fun n => armsOf_named scope cs n hregular.2 hapart.2
    rw [armsOf]
    split
    all_goals
      refine ⟨by rw [Arms.apart, (hbody _).apart, (hrest _).1]; rfl, append_subset.2 ⟨?_, ?_⟩⟩
      · exact List.Subset.trans (hbody _).subset (subset_append_left _ _)
      · exact List.Subset.trans (hrest _).2 (subset_append_right _ _)

theorem handlersOf_named (scope : Lowering.Scope) : ∀ (cs : List CatchClause) (n : Notes),
    catchesRegular cs = true → catchesApart cs = true → (handlersOf scope cs n).1.Named (catchesLabels cs)
  | [], _, _, _ => .skip
  | .mk v b line :: cs, n, hregular, hapart => by
    simp only [catchesRegular, catchesApart, Bool.and_eq_true] at hregular hapart
    exact .branch _ (.seq (.line _)
        ((b.control_named scope none _ hregular.1 hapart.1 rfl).mono (by simp [catchesLabels])))
      ((handlersOf_named scope cs _ hregular.2 hapart.2).mono (subset_append_right _ _))

end

mutual

theorem Control.apart_map {α β : Type} (f : α → β) : ∀ k : Control α, (k.map f).apart = k.apart
  | .skip | .line _ | .jump _ _ => rfl
  | .seq a b | .branch _ a b => by simp only [Control.map, Control.apart, a.apart_map f, b.apart_map f]
  | .loop _ _ body _ | .doLoop _ body _ | .labeled _ body => by
    simp only [Control.map, Control.apart, body.apart_map f, body.labels_map f]
  | .switch _ arms => arms.apart_map f

theorem Arms.apart_map {α β : Type} (f : α → β) : ∀ arms : Arms α, (arms.map f).apart = arms.apart
  | .nil => rfl
  | .guard _ body rest | .default _ body rest => by
    simp only [Arms.map, Arms.apart, body.apart_map f, rest.apart_map f]

end

/-! ## The nodes of runs -/

namespace Behavior

variable {α : Type} {r s : Behavior α} {nodes nodes' : List α}

/-- Runs execute some nodes only. -/
def Within (nodes : List α) (r : Behavior α) : Prop :=
  ∀ xs o, r xs o → xs ⊆ nodes

theorem Within.mono (h : r.Within nodes) (hsub : nodes ⊆ nodes') : r.Within nodes' :=
  fun xs o hr => List.Subset.trans (h xs o hr) hsub

theorem Within.exactly {xs : List α} {o : Outcome} (h : xs ⊆ nodes) : (exactly xs o).Within nodes := by
  rintro _ _ ⟨rfl, rfl⟩
  exact h

theorem Within.after {xs : List α} (hxs : xs ⊆ nodes) (h : r.Within nodes) : (after xs r).Within nodes := by
  rintro _ o ⟨zs, rfl, hr⟩
  exact append_subset.2 ⟨hxs, h zs o hr⟩

theorem Within.either (hr : r.Within nodes) (hs : s.Within nodes) : (either r s).Within nodes :=
  fun xs o h => h.elim (hr xs o) (hs xs o)

theorem Within.seq (hr : r.Within nodes) (hs : s.Within nodes) : (r.seq s).Within nodes := by
  rintro _ o (⟨ys, zs, rfl, hys, hzs⟩ | ⟨hxs, -⟩)
  · exact append_subset.2 ⟨hr ys _ hys, hs zs o hzs⟩
  · exact hr _ o hxs

theorem Within.catching {caught : Outcome → Bool} (h : r.Within nodes) :
    (catching caught r).Within nodes := by
  rintro xs o (⟨hr, -⟩ | ⟨-, o', hr, -⟩)
  · exact h xs o hr
  · exact h xs o' hr

theorem Within.rounds {label : Option String} {onward : List α} {p : Position} (h : r.Within nodes)
    (honward : onward ⊆ nodes) : Within nodes (Rounds r label onward p) := by
  intro xs o hr
  induction hr with
  | stop => exact nil_subset _
  | enter _ ih => exact ih
  | resume run _ _ ih =>
    exact append_subset.2 ⟨h _ _ run, append_subset.2 ⟨honward, ih⟩⟩
  | leave run _ => exact h _ _ run
  | pass run _ _ => exact h _ _ run

end Behavior

mutual

/-- A run executes nodes of its control only. -/
theorem Control.runs_within {α : Type} : ∀ k : Control α, k.runs.Within k.nodes
  | .skip => .exactly (nil_subset _)
  | .line _ | .jump _ _ => .exactly (List.Subset.refl _)
  | .seq a b => .seq (a.runs_within.mono (subset_append_left _ _))
      (b.runs_within.mono (subset_append_right _ _))
  | .branch t a b => by
    refine .after (subset_append_left _ _) (.either (a.runs_within.mono ?_) (b.runs_within.mono ?_))
    · exact List.Subset.trans (subset_append_left _ _) (subset_append_right _ _)
    · exact List.Subset.trans (subset_append_right _ _) (subset_append_right _ _)
  | .loop label t body update => by
    refine .after (subset_append_left _ _) (.rounds (body.runs_within.mono ?_)
      (append_subset.2 ⟨?_, subset_append_left _ _⟩))
    · exact List.Subset.trans (subset_append_left _ _) (subset_append_right _ _)
    · exact List.Subset.trans (subset_append_right _ _) (subset_append_right _ _)
  | .doLoop label body t =>
    .rounds (body.runs_within.mono (subset_append_left _ _)) (subset_append_right _ _)
  | .switch s arms => by
    obtain ⟨-, hhits, hfallback⟩ := arms.runs_within
    have harms : arms.guards ++ arms.defaults ++ arms.bodies ⊆ (Control.switch s arms).nodes :=
      subset_append_right _ _
    refine .after (subset_append_left _ _) (.catching (.either (.exactly (nil_subset _))
      (.either (hhits.mono fun n hn => harms ?_) (.after (fun n hn => harms ?_)
        (hfallback.mono fun n hn => harms ?_)))))
    all_goals simp_all only [mem_append]
    all_goals tauto
  | .labeled l body => .catching body.runs_within

theorem Arms.runs_within {α : Type} : ∀ arms : Arms α, arms.falls.Within arms.bodies ∧
    arms.hits.Within (arms.guards ++ arms.bodies) ∧ arms.fallback.Within (arms.defaults ++ arms.bodies)
  | .nil => ⟨.exactly (nil_subset _), fun _ _ h => h.elim, .exactly (nil_subset _)⟩
  | .guard t body rest => by
    obtain ⟨hfalls, hhits, hfallback⟩ := rest.runs_within
    have hhere : (body.runs.seq rest.falls).Within (Arms.guard t body rest).bodies :=
      .seq (body.runs_within.mono (subset_append_left _ _))
        (hfalls.mono (subset_append_right _ _))
    refine ⟨hhere, .after ?_ (.either (hhere.mono (subset_append_right _ _)) (hhits.mono ?_)),
      hfallback.mono ?_⟩
    all_goals
      intro n hn
      simp_all only [Arms.guards, Arms.defaults, Arms.bodies, mem_append]
      tauto
  | .default n body rest => by
    obtain ⟨hfalls, hhits, hfallback⟩ := rest.runs_within
    have hhere : (body.runs.seq rest.falls).Within (Arms.default n body rest).bodies :=
      .seq (body.runs_within.mono (subset_append_left _ _))
        (hfalls.mono (subset_append_right _ _))
    refine ⟨hhere, hhits.mono fun n hn => ?_, ?_⟩
    · simp only [Arms.guards, Arms.bodies, mem_append] at hn ⊢
      tauto
    · rw [Arms.fallback]
      split
      · refine hfallback.mono fun n hn => ?_
        simp only [Arms.defaults, Arms.bodies, mem_append, mem_cons] at hn ⊢
        tauto
      · exact .after (by simp [Arms.defaults]) (hhere.mono (subset_append_right _ _))

end

/-! ## Whole units -/

namespace Plan

variable {W : List Wire} {e : Id} {u : Plan} {ns : List Id} {w : Wire}

theorem prelude_walk {t : Token} {next : Target} (h : prelude t ts next ⊆ W) :
    Walk (Flows W) t.id ((t :: ts).map (·.id)) next.node := by
  induction ts generalizing t with
  | nil =>
    rw [prelude, cons_subset] at h
    exact .go (Target.flows (by simp) h.1) (.stay _)
  | cons t' ts ih =>
    rw [prelude, cons_subset] at h
    exact .go ⟨_, h.1, by simp, rfl, rfl⟩ (ih h.2)

theorem prelude_passes {t : Token} {next : Target} (hnodup : ((t :: ts).map (·.id)).Nodup)
    (howns : ∀ w ∈ W, w.src ∈ (t :: ts).map (·.id) → w ∈ prelude t ts next)
    (he : e ∉ (t :: ts).map (·.id)) : Passes W e t.id ((t :: ts).map (·.id)) next.node := by
  induction ts generalizing t with
  | nil =>
    intro ns hns
    cases hns with
    | stay => simp at he
    | go head tail =>
      obtain ⟨w, hw, -, hsrc, rfl⟩ := head
      have hmem := howns w hw (by simp [hsrc])
      rw [prelude, mem_singleton] at hmem
      rw [hmem] at tail
      exact ⟨_, rfl, tail⟩
  | cons t' ts ih =>
    rw [map_cons, nodup_cons] at hnodup
    rw [map_cons, mem_cons, not_or] at he
    have hrest := ih hnodup.2 (fun w hw hsrc => ?_) he.2
    · intro ns hns
      cases hns with
      | stay => exact absurd rfl he.1
      | go head tail =>
        obtain ⟨w, hw, -, hsrc, rfl⟩ := head
        have hmem := howns w hw (by simp [hsrc])
        rw [prelude, mem_cons] at hmem
        rcases hmem with rfl | hmem
        · obtain ⟨rest, rfl, hrest⟩ := hrest _ tail
          exact ⟨rest, rfl, hrest⟩
        · exact absurd (hsrc ▸ ((prelude_goes hmem).ends (by simp)).1) hnodup.1
    · have hmem := howns w hw (mem_cons_of_mem _ hsrc)
      rw [prelude, mem_cons] at hmem
      rcases hmem with rfl | hmem
      · exact absurd hsrc hnodup.1
      · exact hmem

theorem wires_cases (hw : w ∈ u.wires) : (w ∈ prelude u.entry u.formals (u.body.entry u.last) ∧
        w.src ∈ (u.entry :: u.formals).map (·.id)) ∨
      w.src ∈ u.body.ids ∨ ∃ t, u.result = some t ∧ w = u.exit.target.wire t.id .true := by
  rw [wires, mem_append, mem_append] at hw
  rcases hw with hw | hw | hw
  · exact .inl ⟨hw, ((prelude_goes hw).ends (by simp)).1⟩
  · exact .inr (.inl (Control.wire_ends hw).1)
  · obtain ⟨t, ht, rfl⟩ := mem_map.1 hw
    exact .inr (.inr ⟨t, Option.mem_toList.1 ht, rfl⟩)

theorem eq_nil_of_walk_exit (hnodup : u.ids.Nodup) (h : Walk (Flows u.wires) u.exit.id ns e) : ns = [] := by
  cases h with
  | stay => rfl
  | go head _ =>
    obtain ⟨w, hw, -, hsrc, -⟩ := head
    rw [ids_eq] at hnodup
    have hfirst := disjoint_of_nodup_append hnodup
    have hlast := disjoint_of_nodup_append hnodup.of_append_right
    rcases wires_cases hw with ⟨-, hmem⟩ | hmem | ⟨t, ht, rfl⟩
    · exact absurd (by simp : u.exit.id ∈ _) (hfirst (hsrc ▸ hmem))
    · exact absurd (by simp : u.exit.id ∈ _) (hlast (hsrc ▸ hmem))
    · have hresult := hnodup.of_append_right.of_append_right
      have hsrc' : t.id = u.exit.id := hsrc
      simp [ht, hsrc'] at hresult

theorem last_of_none (h : u.result = none) : u.last.node = u.exit.id := by
  simp [last, h, Token.target]

theorem last_of_some {t : Token} (h : u.result = some t) : u.last.node = t.id := by
  simp [last, h, Token.target]

theorem walk_last : Walk (Flows u.wires) u.last.node (u.result.toList.map (·.id)) u.exit.id := by
  cases ht : u.result with
  | none =>
    rw [last_of_none ht]
    exact .stay _
  | some t =>
    have hwire : u.exit.target.wire t.id .true ∈ u.wires := by simp [wires, ht]
    rw [last_of_some ht]
    exact .go (Target.flows (by simp) hwire) (.stay _)

theorem eq_of_walk_last (hnodup : u.ids.Nodup) (h : Walk (Flows u.wires) u.last.node ns u.exit.id) :
    ns = u.result.toList.map (·.id) := by
  cases ht : u.result with
  | none =>
    rw [last_of_none ht] at h
    exact eq_nil_of_walk_exit hnodup h
  | some t =>
    have hmem : t.id ∈ u.result.toList.map (·.id) ++ [u.exit.id] := by simp [ht]
    have hids := hnodup
    rw [ids_eq] at hids
    rw [last_of_some ht] at h
    obtain ⟨i, hi⟩ : ∃ i, i = t.id := ⟨_, rfl⟩
    rw [← hi] at h hmem
    cases h with
    | stay =>
      have hresult := hids.of_append_right.of_append_right
      simp [ht, ← hi] at hresult
    | go head tail =>
      obtain ⟨w, hw, -, hsrc, rfl⟩ := head
      rcases wires_cases hw with ⟨-, hw⟩ | hw | ⟨t', ht', rfl⟩
      · exact absurd (mem_append_right _ hmem) (disjoint_of_nodup_append hids (hsrc ▸ hw))
      · exact absurd hmem (disjoint_of_nodup_append hids.of_append_right (hsrc ▸ hw))
      · rw [eq_nil_of_walk_exit hnodup tail, hi]
        rfl

/-- What a unit executes, up to the exit, when its body has a run. -/
def executed (u : Plan) (xs : List Token) (o : Outcome) : List Token :=
  u.entry :: (u.formals ++ xs ++ if o = .jumped .throwing then [] else u.result.toList)

theorem dest_eq_some {o : Outcome} {t : Target} (h : u.exits.dest u.last o = some t) :
    (o = .normal ∨ o = .jumped .returning) ∧ t = u.last ∨ o = .jumped .throwing ∧ t = u.exit.target := by
  rcases o with _ | (l | l | _ | _)
  · exact .inl ⟨.inl rfl, (Option.some.inj h).symm⟩
  · cases h
  · cases h
  · exact .inl ⟨.inr rfl, (Option.some.inj h).symm⟩
  · exact .inr ⟨rfl, (Option.some.inj h).symm⟩

/-- The walks from entry to exit are what the body executes. -/
theorem walk_iff (u : Plan) (hnodup : u.ids.Nodup) (hapart : u.body.apart = true) :
    Walk (Flows u.wires) u.entry.id ns u.exit.id ↔ ∃ xs o, u.body.runs xs o ∧
      ns = (u.executed xs o).map (·.id) ∧ (o = .normal ∨ o = .jumped .returning ∨ o = .jumped .throwing) := by
  have hclear : u.exits.Clear u.body.labels := by simp [Exits.Clear, exits]
  have hids := hnodup
  rw [ids_eq] at hids
  have hfirst := disjoint_of_nodup_append hids
  constructor
  · intro h
    have hexit : u.exit.id ∉ (u.entry :: u.formals).map (·.id) := fun hmem => hfirst hmem (by simp)
    have hbody : u.exit.id ∉ u.body.ids := fun hmem =>
      disjoint_of_nodup_append hids.of_append_right hmem (by simp)
    have howns : ∀ w ∈ u.wires, w.src ∈ (u.entry :: u.formals).map (·.id) →
        w ∈ prelude u.entry u.formals (u.body.entry u.last) := by
      intro w hw hsrc
      rcases wires_cases hw with ⟨hw, -⟩ | hw | ⟨t, ht, rfl⟩
      · exact hw
      · exact absurd (mem_append_left _ hw) (hfirst hsrc)
      · exact absurd (by simp [ht, Target.wire]) (hfirst hsrc)
    obtain ⟨rest, rfl, hrest⟩ := prelude_passes hids.of_append_left howns hexit ns h
    obtain ⟨xs, rest, o, t, rfl, hruns, hdest, hrest⟩ :=
      u.body.runs_cover _ _ (u.body_placed hnodup) hapart hclear hbody _ hrest
    rcases dest_eq_some hdest with ⟨ho, rfl⟩ | ⟨rfl, rfl⟩
    · have hthrow : o ≠ .jumped .throwing := by rcases ho with rfl | rfl <;> simp
      rw [eq_of_walk_last hnodup hrest]
      exact ⟨xs, o, hruns, by simp [executed, hthrow], by tauto⟩
    · rw [eq_nil_of_walk_exit hnodup hrest]
      exact ⟨xs, _, hruns, by simp [executed], by simp⟩
  · rintro ⟨xs, o, hruns, rfl, ho⟩
    have hwalks := u.body.runs_walk u.exits u.last u.body_subset hapart hclear xs o
    have hprelude := prelude_walk u.prelude_subset
    rcases ho with rfl | rfl | rfl
    · simpa [executed] using hprelude.append ((hwalks _ hruns rfl).append walk_last)
    · simpa [executed] using hprelude.append ((hwalks _ hruns rfl).append walk_last)
    · have hbody : Walk (Flows u.wires) (u.body.entry u.last).node (xs.map (·.id)) u.exit.id :=
        hwalks u.exit.target hruns rfl
      simpa [executed] using hprelude.append hbody

end Plan

theorem exists_map_eq {α β : Type} {f : α → β} {xs : List α} {ys : List β} (h : ys ⊆ xs.map f) :
    ∃ zs ⊆ xs, zs.map f = ys := by
  induction ys with
  | nil => exact ⟨[], nil_subset _, rfl⟩
  | cons y ys ih =>
    rw [cons_subset, mem_map] at h
    obtain ⟨⟨x, hx, rfl⟩, hys⟩ := h
    obtain ⟨zs, hzs, rfl⟩ := ih hys
    exact ⟨x :: zs, cons_subset.2 ⟨hx, hzs⟩, rfl⟩

theorem eq_of_map_id_eq {nodes ts' : List Token} (hnodup : (nodes.map (·.id)).Nodup)
    (hts : ts ⊆ nodes) (hts' : ts' ⊆ nodes) (h : ts.map (·.id) = ts'.map (·.id)) : ts = ts' := by
  induction ts generalizing ts' with
  | nil => simpa using h.symm
  | cons t ts ih =>
    cases ts' with
    | nil => simp at h
    | cons t' ts' =>
      rw [map_cons, map_cons, List.cons.injEq] at h
      rw [cons_subset] at hts hts'
      rw [inj_on_of_nodup_map hnodup hts.1 hts'.1 h.1, ih hts.2 hts'.2 h.2]

namespace Cfg

variable {c : Cfg} {u : Plan}

/-- The labels along a path from the entry to the exit that takes no fall-through edge. -/
def Shows (c : Cfg) (labels : List Label) : Prop :=
  ∃ path ⊆ c.nodes, ∃ ids, path.map (·.id) = ids ++ [c.exit.id] ∧
    Walk (c.Arrow fun e => e.flowSort? ≠ some .fallThrough) c.entry.id ids c.exit.id ∧
    labels = path.map Node.label

theorem Realizes.arrow_eq_flows (h : c.Realizes u) :
    (c.Arrow fun e => e.flowSort? ≠ some .fallThrough) = Flows u.wires := by
  have hsort (e : Edge) : e.wire.sort ≠ .fallThrough ↔ e.flowSort? ≠ some .fallThrough := by
    simp only [Edge.wire]
    cases e.flowSort? <;> simp
  funext a b
  apply propext
  constructor
  · rintro ⟨e, he, hok, rfl, rfl⟩
    exact ⟨e.wire, h.wire_mem he, (hsort e).2 (of_decide_eq_true hok), rfl, rfl⟩
  · rintro ⟨w, hw, hok, rfl, rfl⟩
    obtain ⟨e, he, hsrc, hdst, rfl | hfall⟩ := h.exists_edge hw
    · exact ⟨e, he, decide_eq_true ((hsort e).1 hok), hsrc, hdst⟩
    · exact absurd hfall hok

theorem Realizes.executed_subset {xs : List Token} {o : Outcome} (h : u.body.runs xs o) :
    u.executed xs o ++ [u.exit] ⊆ u.nodes := by
  have hxs := u.body.runs_within xs o h
  intro t ht
  simp only [Plan.executed, cons_append, mem_cons, mem_append, not_mem_nil, or_false] at ht
  simp only [Plan.nodes, Plan.inner, mem_cons, mem_append, not_mem_nil, or_false]
  rcases ht with ht | ((ht | ht) | ht) | ht
  · exact .inl ht
  · exact .inr (.inl (.inl ht))
  · exact .inr (.inl (.inr (.inl (hxs ht))))
  · split at ht
    · simp at ht
    · exact .inr (.inl (.inr (.inr ht)))
  · exact .inr (.inr ht)

/-- A flow graph shows what its plan executes. -/
theorem Realizes.shows_iff (h : c.Realizes u) (hapart : u.body.apart = true) {labels : List Label} :
    c.Shows labels ↔ ∃ xs o, u.body.runs xs o ∧ labels = (u.executed xs o ++ [u.exit]).map Token.label ∧
      (o = .normal ∨ o = .jumped .returning ∨ o = .jumped .throwing) := by
  constructor
  · rintro ⟨path, hpath, ids, hids, hshown, rfl⟩
    rw [h.arrow_eq_flows, h.entry_id, h.exit_id, u.walk_iff h.nodup hapart] at hshown
    obtain ⟨xs, o, hruns, rfl, ho⟩ := hshown
    have htokens : path.map Node.token = u.executed xs o ++ [u.exit] := by
      refine eq_of_map_id_eq h.nodup (fun t ht => h.tokens_perm.mem_iff.1 (map_subset _ hpath ht))
        (Realizes.executed_subset hruns) ?_
      rw [map_map, map_append, map_singleton, ← h.exit_id]
      exact hids
    refine ⟨xs, o, hruns, ?_, ho⟩
    rw [← htokens, map_map]
    rfl
  · rintro ⟨xs, o, hruns, rfl, ho⟩
    have htokens : u.executed xs o ++ [u.exit] ⊆ c.nodes.map Node.token :=
      fun t ht => h.tokens_perm.mem_iff.2 (Realizes.executed_subset hruns ht)
    obtain ⟨path, hpath, htokens⟩ := exists_map_eq htokens
    refine ⟨path, hpath, (u.executed xs o).map (·.id), ?_, ?_, ?_⟩
    · have hids := congrArg (List.map Token.id) htokens
      rw [map_map, map_append, map_singleton, ← h.exit_id] at hids
      exact hids
    · rw [h.arrow_eq_flows, h.entry_id, h.exit_id, u.walk_iff h.nodup hapart]
      exact ⟨xs, o, hruns, rfl, ho⟩
    · rw [← htokens, map_map]
      rfl

/-- **A flow graph runs as its source.**  Building a method whose body is regular, with no labelled
statement inside one of the same label, gives a flow graph.  The labels along its paths from the
entry to the exit that take no fall-through edge are those of the complete runs of the method. -/
theorem ofMethod_shows_iff_runs {σ : Type} (context : Context) (r : MethodRef) (m : Method)
    (hregular : m.body.isRegular = true) (hlabels : m.body.labelsApart = true) (p : σ × Trail) :
    ∃ c q, ((ofMethod context r m).run p : Except Error Cfg × σ × Trail) = (.ok c, q) ∧
      ∀ labels, c.Shows labels ↔ m.Runs context r labels := by
  obtain ⟨c, q, hrun, u, hrealizes, hu, hentry, hexit⟩ := Tracked.Ends.exists_run
    ((ends_ofMethod context r m p).mono (fun _ _ h => h) fun _ _ h => by simp [hregular] at h)
  refine ⟨c, q, hrun, fun labels => ?_⟩
  have hbody := hu.body hregular
  have hapart : u.body.apart = true := by
    rw [← u.body.apart_map Token.label, hbody]
    exact (m.body.control_named _ none _ hregular hlabels rfl).apart
  have hlabels (xs : List Token) (o : Outcome) : (u.executed xs o ++ [u.exit]).map Token.label =
      ⟨.entry (methodScope m.kind), .method r⟩ ::
        (m.parameters.map (fun v => ⟨.parameter .formalIn, .var v⟩) ++ xs.map Token.label ++
          (if o = .jumped .throwing then [] else m.returned r) ++
          [⟨.exit (methodScope m.kind), .method r⟩]) := by
    rw [← hu.formals, ← hu.result, ← hentry, ← hexit, Plan.executed]
    split <;> simp
  rw [hrealizes.shows_iff hapart, Method.Runs, ← hbody, u.body.runs_map Token.label]
  constructor
  · rintro ⟨xs, o, hruns, rfl, ho⟩
    exact ⟨xs.map Token.label, o, ⟨xs, hruns, rfl⟩, hlabels xs o, ho⟩
  · rintro ⟨_, o, ⟨xs, hruns, rfl⟩, rfl, ho⟩
    exact ⟨xs, o, hruns, (hlabels xs o).symm, ho⟩

/-- A labelled loop around a switch, whose cases go on with the loop, leave the switch, or return. -/
def labelledSwitch : Method :=
  { name := "search"
    returnType := "int"
    body := .labeled "outer" (.whileLoop (.literal "true" "boolean" 2) (.switch (.literal "1" "int" 3)
      [.mk (.literal "1" "int" 4) [.continueJump (some "outer") 4] 4,
        .mk .absent [.breakJump none 5] 5,
        .mk (.literal "2" "int" 6) [.returnJump (.literal "2" "int" 6) 6] 6] 3) 2) 1 }

theorem labelledSwitch_shows_iff_runs : labelledSwitch.body.isRegular = true ∧
    labelledSwitch.body.labelsApart = true ∧
      ∃ c q, ((ofMethod { program := { methods := [labelledSwitch] } } ⟨0⟩ labelledSwitch).run
          ((), { next := 1 }) : Except Error Cfg × Unit × Trail) = (.ok c, q) ∧
        ∀ labels, c.Shows labels ↔
          labelledSwitch.Runs { program := { methods := [labelledSwitch] } } ⟨0⟩ labels :=
  ⟨by decide, by decide, ofMethod_shows_iff_runs _ ⟨0⟩ labelledSwitch (by decide) (by decide) ((), _)⟩

end Cfg

end ProgramDependence
