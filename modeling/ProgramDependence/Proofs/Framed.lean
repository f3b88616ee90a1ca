import ProgramDependence.Proofs.Lowered

/-!
# Loops, switches and labelled statements

A loop, a switch and a labelled statement put a frame around their parts: breaks and continues
inside are parked with it, and find their targets when it is left.  What was parked is due at the
frame, so the conservation law of a part gives that of the whole statement.
-/

namespace ProgramDependence

open List Control

namespace Lowering

open Tracked Graph JumpTarget

variable {p q r : State × Trail} {pending out mid : Pending}

/-! ## Frames -/

def entered (kind : JumpKind) (label : Option String) (p : State × Trail) : State × Trail :=
  ({ p.1 with pendingLabel := none, jumps := { kind, label } :: p.1.jumps }, p.2)

def top (p : State × Trail) : JumpTarget :=
  p.1.jumps.headD { kind := .label }

/-- The state after the innermost frame was left. -/
def left (p : State × Trail) : State × Trail :=
  ({ p.1 with jumps := p.1.jumps.tail.map (forgetLabel (top p).label) }, p.2)

variable {bad : Error → State × Trail → Prop} {labels : List String} {label : Option String}
    {body : Control Token}

theorem ends_enter (kind : JumpKind) (label : Option String) {good : Unit → State × Trail → Prop} :
    Ends (enter kind label) p good bad ↔
      good () (entered kind
        (if kind = .loop && p.1.pendingLabel.isSome then p.1.pendingLabel else label) p) :=
  .rfl

theorem ends_exit {good : JumpTarget → State × Trail → Prop} : Ends exit p good bad ↔
    good (top p) (left p) := by
  obtain ⟨s, trail⟩ := p
  obtain ⟨graph, unresolved, jumps, pendingLabel, returns, throws, heads, specials, sequence, verdicts⟩ := s
  cases jumps <;> exact Iff.rfl

theorem ends_continuesSoFar {good : Pending → State × Trail → Prop} :
    Ends continuesSoFar p good bad ↔ good (top p).continues p := by
  simp only [continuesSoFar, ends_bind, ends_state, top]
  cases p.1.jumps <;> exact Iff.rfl

theorem Sane.entered (hp : Sane p) (kind : JumpKind) (label : Option String) :
    Sane (entered kind label p) := by
  refine ⟨hp.fit, ?_, ?_, ?_, hp.returns, hp.throws⟩
  · exact forall_mem_cons.2 ⟨.nil, hp.breaks⟩
  · exact forall_mem_cons.2 ⟨.nil, hp.continues⟩
  · exact forall_mem_cons.2 ⟨fun _ => rfl, hp.loops⟩

theorem forgetLabel_kept (label : Option String) (t : JumpTarget) :
    (forgetLabel label t).breaks = t.breaks ∧ (forgetLabel label t).continues = t.continues ∧
      (forgetLabel label t).kind = t.kind := by
  unfold forgetLabel
  split <;> exact ⟨rfl, rfl, rfl⟩

theorem Sane.left (hp : Sane p) : Sane (left p) := by
  have hmem : ∀ t ∈ (Lowering.left p).1.jumps, ∃ t' ∈ p.1.jumps, t = forgetLabel (top p).label t' := by
    intro t ht
    obtain ⟨t', ht', rfl⟩ := mem_map.1 ht
    exact ⟨t', mem_of_mem_tail ht', rfl⟩
  refine ⟨hp.fit, ?_, ?_, ?_, hp.returns, hp.throws⟩
  · intro t ht
    obtain ⟨t', ht', rfl⟩ := hmem t ht
    rw [(forgetLabel_kept _ t').1]
    exact hp.breaks t' ht'
  · intro t ht
    obtain ⟨t', ht', rfl⟩ := hmem t ht
    rw [(forgetLabel_kept _ t').2.1]
    exact hp.continues t' ht'
  · intro t ht hkind
    obtain ⟨t', ht', rfl⟩ := hmem t ht
    rw [(forgetLabel_kept _ t').2.2] at hkind
    rw [(forgetLabel_kept _ t').2.1]
    exact hp.loops t' ht' hkind

theorem Matches.push {x : Exits} (hx : Matches x p.1.jumps) (f : Frame) :
    Matches (x.push f) (entered f.kind f.label p).1.jumps := by
  simp only [Matches, Exits.push, entered, map_cons, List.cons.injEq]
  exact ⟨rfl, hx⟩

theorem due_entered (x : Exits) (f : Frame) (kind : JumpKind) (label : Option String) :
    due (x.push f) (entered kind label p).1 = due x p.1 := by
  simp [due, Exits.push, entered, framesDue, frameDue]

/-- What is due inside a frame is parked with it or due outside. -/
theorem due_push {x : Exits} (f : Frame) (hp : p.1.jumps ≠ []) :
    due (x.push f) p.1 = frameDue f (top p) ++ due x (left p).1 := by
  obtain ⟨t, ts, hts⟩ := exists_cons_of_ne_nil hp
  have hmap := framesDue_map (f := forgetLabel t.label)
    (fun t' => ⟨(forgetLabel_kept _ t').1, (forgetLabel_kept _ t').2.1⟩) x.frames ts
  simp only [due, Exits.push, left, top, hts, framesDue, headD_cons, tail_cons, hmap, append_assoc]

theorem shape_forgetLabel (label : Option String) (t : JumpTarget) :
    (forgetLabel label t).shape = forgetLabel label t.shape := by
  have hlabel : t.shape.label = t.label := rfl
  unfold forgetLabel
  rw [hlabel]
  split <;> rfl

theorem forget_forgetLabel (t : JumpTarget) :
    forgetLabel (forget labels { kind := .label, label }).label (t.forget labels) =
      t.forget (labels ++ label.toList) := by
  obtain ⟨kind, own, breaks, continues⟩ := t
  cases own with
  | none => cases label <;> simp [forget, forgetLabel]
  | some l =>
    cases label with
    | none => simp [forget, forgetLabel]
    | some l' =>
      by_cases hl : l ∈ labels <;> by_cases hl' : l' ∈ labels <;> by_cases heq : l = l' <;>
        simp_all [forget, forgetLabel]

theorem jumps_inside {kind : JumpKind}
    (hshapes : q.1.jumps.map shape = (entered kind label p).1.jumps.map fun t => (t.forget labels).shape) :
    q.1.jumps ≠ [] ∧ (top q).kind = kind ∧ (left q).1.jumps.map shape =
        p.1.jumps.map fun t => (t.forget (labels ++ label.toList)).shape := by
  simp only [entered, map_cons] at hshapes
  obtain ⟨t, ts, hts⟩ : ∃ t ts, q.1.jumps = t :: ts := by
    cases hq : q.1.jumps with
    | nil => simp [hq] at hshapes
    | cons t ts => exact ⟨t, ts, rfl⟩
  rw [hts, map_cons, List.cons.injEq] at hshapes
  obtain ⟨htop, hrest⟩ := hshapes
  have hkind : t.kind = kind := by
    have hk := congrArg JumpTarget.kind htop
    simp only [shape, forget] at hk
    rw [hk]
    split <;> rfl
  have hlabel : t.label = (forget labels { kind := .label, label }).label := by
    have hl := congrArg JumpTarget.label htop
    simp only [shape, forget] at hl ⊢
    rw [hl]
    split <;> rfl
  refine ⟨by simp [hts], by simpa [top, hts] using hkind, ?_⟩
  have hcomp : ∀ l, shape ∘ forgetLabel l = forgetLabel l ∘ shape := fun l =>
    funext (shape_forgetLabel l)
  simp only [left, top, hts, headD_cons, tail_cons, map_map, hcomp]
  rw [← map_map, hrest, map_map]
  refine map_congr_left fun t' _ => ?_
  rw [Function.comp_apply, ← shape_forgetLabel, hlabel, forget_forgetLabel]

section

variable {first : Option Token} {nodes : List Token} {wires : Exits → Target → List Wire}
  {lost : List JumpTarget → List Token} {kind : JumpKind}
  (h : Lowers first labels nodes wires lost pending out (entered kind label p) q)

include h

/-- The conservation law inside a frame. -/
theorem Lowers.balance_inside :
    ∃ planned, Grows p.1.graph q.1.graph p.2.next q.2.next nodes planned ∧
      ∀ x next f, f.kind = kind → f.label = label → Matches x p.1.jumps →
        (planned ++ (frameDue f (top q) ++ due x (left q).1 ++ wiresTo out next)).Perm
          (due x p.1 ++ (wiresTo pending (entryOf first next) ++ wires (x.push f) next)) := by
  obtain ⟨planned, hgrows, hlaw⟩ := h.balance
  refine ⟨planned, hgrows, ?_⟩
  rintro x next f rfl rfl hx
  have hperm := hlaw (x.push f) next (hx.push f)
  rwa [due_push f (jumps_inside h.shapes).1] at hperm

/-- Every continue that is parked with the frame starts at one of the nodes. -/
theorem Lowers.resumes (hends : Encloses nodes first wires) {e : OpenEdge}
    (he : e ∈ (top q).continues) {src : Id} (hsource : e.source = .node src) :
    src ∈ nodes.map (·.id) := by
  obtain ⟨planned, hgrows, hlaw⟩ := h.balance_inside
  -- Let the continues lead to a place of their own, which is no node, and all else lead to another one.
  let far : Id := p.2.next - 1
  have hfar : far < p.2.next := Int.sub_lt_self _ Int.one_pos
  have hne : far ≠ far - 1 := Int.ne_of_gt (Int.sub_lt_self _ Int.one_pos)
  have hfresh : ∀ id ∈ nodes.map (·.id), far ≠ id := fun id hid =>
    Int.ne_of_lt (Int.lt_of_lt_of_le hfar (h.fresh hid))
  have hmem := (hlaw (away p.1.jumps (far - 1)) ⟨far - 1, none⟩ ⟨kind, label, ⟨far - 1, none⟩, ⟨far, none⟩⟩
    rfl rfl (matches_away _ _)).mem_iff.1 (mem_append_right _ (mem_append_left _
      (mem_append_left _ (mem_append_right _ (mem_wiresTo.2 ⟨e, he, src, hsource, rfl⟩)))))
  rw [mem_append, mem_append] at hmem
  rcases hmem with hmem | hmem | hmem
  · exact absurd (due_away hmem) hne
  · obtain ⟨e', -, src', -, hwire⟩ := mem_wiresTo.1 hmem
    have hdst : far = (entryOf first ⟨far - 1, none⟩).node := congrArg Wire.dst hwire
    cases hfirst : first with
    | none =>
      rw [hfirst] at hdst
      exact absurd hdst hne
    | some t =>
      rw [hfirst] at hdst
      exact absurd hdst (hfresh t.id (mem_map_of_mem (hends.first_mem t hfirst)))
  · exact (hends.ends _ _ _ hmem).1

end

theorem SameParked.top_eq (h : SameParked p q) : top q = top p := by
  simp only [top, h.jumps_eq]

theorem SameParked.left (h : SameParked p q) : SameParked (left p) (left q) := by
  refine ⟨?_, h.returns_eq, h.throws_eq⟩
  simp only [Lowering.left, top, h.jumps_eq]

theorem top_mem (hp : p.1.jumps ≠ []) : top p ∈ p.1.jumps := by
  obtain ⟨t, ts, hts⟩ := exists_cons_of_ne_nil hp
  simp [top, hts]

/-- Breaks that name the statement go on behind it. -/
theorem Lowered.labeled {l : String} (h : Lowered body pending out (entered .label (some l) p) q) :
    Lowered (.labeled l body) pending (out ++ (top q).breaks) p (left q) := by
  obtain ⟨hne, hkind, hshapes⟩ := jumps_inside h.shapes
  obtain ⟨planned, hgrows, hlaw⟩ := h.balance_inside
  have hbreaks : Anchored q.1.graph (top q).breaks := h.sane.breaks _ (top_mem hne)
  have hcontinues : (top q).continues = [] := h.sane.loops _ (top_mem hne) (by simp [hkind])
  refine ⟨h.sane.left, h.settles, hshapes, ?_, ?_, ?_, h.reports⟩
  · intro hnone
    obtain ⟨more, hmore, rfl⟩ := h.passed hnone
    exact ⟨more ++ (top q).breaks, Anchored.append_iff.2 ⟨hmore, hbreaks⟩, append_assoc _ _ _⟩
  · exact fun hsome => Anchored.append_iff.2 ⟨h.anchored hsome, hbreaks⟩
  · refine ⟨planned, hgrows, fun x next hx => ?_⟩
    refine perm_iff_count.2 fun w => ?_
    have hcount := (hlaw x next ⟨.label, some l, next, next⟩ rfl rfl hx).count_eq w
    simp only [frameDue, hcontinues, wiresTo_append, wiresTo_nil, Control.wires, Control.first?,
      count_append, count_nil] at hcount ⊢
    omega

/-! ## Loops -/

/-- Lines in a row were laid. -/
structure LaidAll (ls : List (Line Token)) (pending out : Pending) (p q : State × Trail) : Prop where
  kept : q.1 = { p.1 with
    graph := q.1.graph, unresolved := q.1.unresolved, heads := q.1.heads, specials := q.1.specials,
    sequence := q.1.sequence, verdicts := q.1.verdicts }
  settles : Settles pending (ls.head?.map fun l => l.first.id) p.1.heads q.1.heads
  passed : ls = [] → out = pending
  anchored : ls ≠ [] → Anchored q.1.graph out
  balance : ∃ planned, Grows p.1.graph q.1.graph p.2.next q.2.next (ls.flatMap Line.all) planned ∧
    ∀ next, (planned ++ wiresTo out next).Perm (wiresTo pending (linesEntry ls next) ++ linesWires ls next)
  reports : lostJumps q.1.unresolved = lostJumps p.1.unresolved

namespace LaidAll

theorem nil (hp : Sane p) : LaidAll [] pending pending p p :=
  ⟨rfl, .refl _ _, fun _ => rfl, fun h => absurd rfl h, ⟨[], .refl hp.fit,
    fun next => by simp [linesEntry, linesWires]⟩, rfl⟩

theorem cons {l : Line Token} {ls : List (Line Token)} (h : Laid l pending p q)
    (h' : LaidAll ls (onward l.node.id) out q r) : LaidAll (l :: ls) pending out p r := by
  have hnode : Anchored q.1.graph (onward l.node.id) := Anchored.onward_iff.2 h.node_mem
  obtain ⟨planned, hgrows, hlaw⟩ := h'.balance
  refine ⟨by rw [h'.kept, h.kept], ?_, fun hnil => by simp at hnil, fun _ => ?_, ?_,
    h'.reports.trans h.reports⟩
  · exact h.settles.andAnchored h'.settles hnode
  · cases ls with
    | nil =>
      rw [h'.passed rfl]
      exact hnode.mono hgrows.subset
    | cons l' ls => exact h'.anchored (by simp)
  · refine ⟨_, h.grows.trans hgrows, fun next => ?_⟩
    refine perm_iff_count.2 fun w => ?_
    have hcount := (hlaw next).count_eq w
    have hentry : linesEntry (l :: ls) next = l.first.target := rfl
    simp only [hentry, linesWires, wiresTo_onward] at hcount ⊢
    simp only [count_append, count_cons, count_nil] at hcount ⊢
    omega

variable {ls : List (Line Token)}

section

variable (h : LaidAll ls pending out p q)
include h

theorem anchor (hp : Anchored p.1.graph pending) : Anchored q.1.graph out := by
  obtain ⟨planned, hgrows, -⟩ := h.balance
  by_cases hls : ls = []
  · rw [h.passed hls]
    exact hp.mono hgrows.subset
  · exact h.anchored hls

theorem sameParked : SameParked p q := by
  constructor <;> rw [h.kept]

theorem sane (hp : Sane p) : Sane q := by
  obtain ⟨planned, hgrows, -⟩ := h.balance
  exact hp.grow hgrows h.sameParked

theorem lowers (hp : Sane p) :
    Lowers (ls.head?.map Line.first) [] (ls.flatMap Line.all) (fun _ => linesWires ls) (fun _ => []) pending
      out p q where
  sane := h.sane hp
  settles := by simpa [Function.comp_def] using h.settles
  shapes := by rw [forget_nil_shape, h.sameParked.jumps_eq]
  passed := fun hnone => ⟨[], .nil, by
    rw [h.passed (by simpa using hnone), append_nil]⟩
  anchored := fun hsome => h.anchored fun hnil => hsome (by rw [hnil]; rfl)
  balance := by
    obtain ⟨planned, hgrows, hlaw⟩ := h.balance
    refine ⟨planned, hgrows, fun x next _ => perm_iff_count.2 fun w => ?_⟩
    have hentry : entryOf (ls.head?.map Line.first) next = linesEntry ls next := by
      rw [entryOf, Option.map_map]
      rfl
    have hcount := (hlaw next).count_eq w
    rw [h.sameParked.due_eq, hentry]
    simp only [count_append] at hcount ⊢
    omega
  reports := h.reports.trans (append_nil _).symm

end

theorem encloses (ls : List (Line Token)) :
    Encloses (ls.flatMap Line.all) (ls.head?.map Line.first) fun _ => linesWires ls := by
  have hids : (ls.flatMap Line.all).map (·.id) = ls.flatMap Line.ids := map_flatMap
  refine ⟨fun t ht => ?_, fun x next w hw => ?_⟩
  · obtain ⟨l, hl, rfl⟩ := Option.map_eq_some_iff.1 ht
    exact mem_flatMap.2 ⟨l, mem_of_head? hl, l.first_mem⟩
  · rw [hids]
    obtain ⟨hsrc, hdst⟩ := (linesWires_goes hw).ends (by simp)
    refine ⟨hsrc, hdst.imp_right fun ⟨t, ht, heq⟩ => ⟨t, ?_, heq⟩⟩
    rw [mem_singleton.1 ht]
    exact mem_cons_self

end LaidAll

def loopWires (label : Option String) (l : Line Token) (body : Control Token)
    (update : List (Line Token)) (entry : Id) (x : Exits) (next : Target) : List Wire :=
  let back : Target := ⟨entry, some l.node.id⟩
  let onward := linesEntry update back
  links l.all ++ (body.entry onward).wire l.node.id .true :: next.wire l.node.id .false ::
    (body.wires (x.push ⟨.loop, label, next, onward⟩) onward ++ linesWires update back)

theorem Sane.connected {t : Target} (hp : Sane p) (h : Connected pending t p q) : Sane q :=
  hp.grow h.grows h.sameParked

/-- A loop: the condition, the body inside a frame, the updaters, and the back edges. -/
theorem Lowers.loop {l : Line Token} {body : Control Token} {update : List (Line Token)}
    {label : Option String} {entry : Id} {back : Pending} {u v : State × Trail}
    (h : Laid l pending p q) (hbody : Lowered body (onward l.node.id) out (entered .loop label q) r)
    (hupdate : LaidAll update (out ++ (top r).continues) back r u)
    (hback : Connected back ⟨entry, some l.node.id⟩ u v) : Lowers (some l.first) (body.labels ++ label.toList)
      (l.all ++ (body.nodes ++ update.flatMap Line.all)) (loopWires label l body update entry)
      (fun ts => strays body ({ kind := .loop, label } :: ts)) pending
      (leave l.node.id .false :: (top v).breaks) p (left v) := by
  obtain ⟨hne, hkind, hshapes⟩ := jumps_inside hbody.shapes
  obtain ⟨planned, hgrows, hlaw⟩ := hbody.balance_inside
  obtain ⟨planned', hgrows', hlaw'⟩ := hupdate.balance
  have hq := h.sameParked
  have hsame := hupdate.sameParked.trans hback.sameParked
  have hv : Sane v := (hupdate.sane hbody.sane).connected hback
  have hnode : Anchored (entered .loop label q).1.graph (onward l.node.id) :=
    Anchored.onward_iff.2 h.node_mem
  have hopen : Anchored r.1.graph (out ++ (top r).continues) :=
    Anchored.append_iff.2 ⟨hbody.anchor hnode, hbody.sane.continues _ (top_mem hne)⟩
  have hall := h.grows.trans (hgrows.trans (hgrows'.trans hback.grows))
  refine ⟨hv.left, ?_, ?_, fun hnone => by simp at hnone, fun _ => ?_, ?_, ?_⟩
  · have hwait := (h.settles.andAnchored hbody.settles hnode).andAnchored hupdate.settles hopen
    exact hwait.andAnchored hback.settles (hupdate.anchor hopen)
  · rw [← hq.jumps_eq, ← hshapes, hsame.left.jumps_eq]
  · refine Anchored.leave_iff.2 ⟨hall.mem_nodeIds.2 (.inr (by simp [Line.all])), ?_⟩
    exact hv.breaks _ (top_mem (hsame.jumps_eq ▸ hne))
  · refine ⟨_, by simpa [left] using hall, fun x next hx => ?_⟩
    refine perm_iff_count.2 fun w => ?_
    have c₁ := (hlaw x (linesEntry update ⟨entry, some l.node.id⟩)
      ⟨.loop, label, next, linesEntry update ⟨entry, some l.node.id⟩⟩ rfl rfl (hq.jumps_eq ▸ hx)).count_eq w
    have c₂ := (hlaw' ⟨entry, some l.node.id⟩).count_eq w
    simp only [loopWires, entryOf_some, entry_eq, frameDue, hsame.top_eq, hsame.left.due_eq,
      hq.due_eq, wiresTo_leave, wiresTo_append, wiresTo_onward] at c₁ c₂ ⊢
    simp only [count_append, count_cons, count_nil] at c₁ c₂ ⊢
    omega
  · have hunresolved : (left v).1.unresolved = u.1.unresolved := by
      simp only [left]
      rw [hback.kept]
    have hshapes' : shapesOf (entered .loop label q) = { kind := .loop, label } :: shapesOf p := by
      simp only [entered, hq.jumps_eq]
      rfl
    have hinside : lostJumps (entered .loop label q).1.unresolved = lostJumps p.1.unresolved := h.reports
    rw [hunresolved, hupdate.reports, hbody.reports, hinside, hshapes']

/-- A fall-through wire was there before a line was laid, or starts where an open edge does. -/
theorem Laid.fall_cases {l : Line Token} (h : Laid l pending p q) {w : Wire} (hw : w ∈ q.1.graph.wires)
    (hfall : w.sort = .fallThrough) : w ∈ p.1.graph.wires ∨ ∃ e ∈ pending, e.source = .node w.src := by
  refine (h.grows.wires.mem_or_planned hw).imp_right fun hw => ?_
  rcases mem_append.1 hw with hw | hw
  · obtain ⟨e, he, src, hsource, rfl⟩ := mem_wiresTo.1 hw
    exact ⟨e, he, hsource⟩
  · rw [(links_onward hw).1] at hfall
    cases hfall

/-- The back edges of a loop are no second wires beside a fall-through wire: such a wire is older
than the loop. -/
theorem clear_back {l : Line Token} {update : List (Line Token)} {entry : Id} {back : Pending}
    {u : State × Trail} (hpending : Sound p.1 pending) (h : Laid l pending p q)
    (hbody : Lowered body (onward l.node.id) out (entered .loop label q) r)
    (hupdate : LaidAll update (out ++ (top r).continues) back r u)
    (hentry : entry ∈ q.1.graph.nodeIds) : Clear u.1.graph back entry := by
  intro w hw hfall hdst e he hsource
  have hbodyEnds := encloses_control body
  have hlines := hupdate.lowers hbody.sane
  have hle : q.2.next ≤ r.2.next := hbody.le
  have hbelow : w.dst < q.2.next := hdst ▸ h.grows.fit.lt_of_mem hentry
  have hold : w.src < p.2.next := by
    have hr : w ∈ r.1.graph.wires := by
      refine (hlines.drawn (LaidAll.encloses update) hw).resolve_right fun hin => ?_
      exact absurd (hlines.fresh hin.1) (Int.not_le.2 (Int.lt_of_lt_of_le hbelow hle))
    have hq : w ∈ q.1.graph.wires := by
      refine (hbody.drawn hbodyEnds hr).resolve_right fun hin => ?_
      exact absurd (hbody.fresh hin.1) (Int.not_le.2 hbelow)
    rcases h.fall_cases hq hfall with hq | ⟨e', he', hsource'⟩
    · exact (h.grows.start.wire_below hq).1
    · exact Int.not_le.1 fun hsrc => hpending.not_fresh h.grows.start he' hsource' hsrc
  have hnode : p.2.next ≤ l.node.id := h.grows.fresh l.node l.node_mem
  have hnew : p.2.next ≤ w.src := by
    have hbodyNew : w.src ∈ body.nodes.map (·.id) → p.2.next ≤ w.src := fun hin =>
      Int.le_trans h.grows.le (hbody.fresh hin)
    rcases hlines.opens (LaidAll.encloses update) he hsource with he | hin
    · rcases mem_append.1 he with he | he
      · rcases hbody.opens hbodyEnds he hsource with he | hin
        · rw [mem_singleton.1 he] at hsource
          exact Source.node.inj hsource ▸ hnode
        · exact hbodyNew hin
      · exact hbodyNew (hbody.resumes hbodyEnds he hsource)
    · exact Int.le_trans (Int.le_trans h.grows.le hle) (hlines.fresh hin)
  exact absurd hnew (Int.not_le.2 hold)

section Series

theorem strays_series (ts : List Token) (shapes : List JumpTarget) : strays (.series ts) shapes = [] := by
  induction ts generalizing shapes with
  | nil => rfl
  | cons t ts ih => simp [series, strays, ih]

theorem first?_series (ts : List Token) : (series ts).first? = ts.head? := by
  cases ts <;> rfl

theorem labels_series (ts : List Token) : (series ts).labels = [] := by
  induction ts with
  | nil => rfl
  | cons t ts ih => simp [series, labels, ih]

theorem nodes_series (ts : List Token) : (Control.series ts).nodes = ts := by
  induction ts with
  | nil => rfl
  | cons t ts ih => simp [Control.series, Control.nodes, Line.all, Line.single, ih]

theorem forget_nil (x : Exits) : x.forget [] = x := by
  have hmap : ∀ f : Frame, (if f.label.any ([] : List String).contains then
      { f with label := none } else f) = f := by
    intro f
    cases hf : f.label <;> simp
  simp [Exits.forget, hmap]

theorem wires_series (ts : List Token) (node : Token) (x : Exits) :
    (Control.series ts).wires x node.target = links (ts ++ [node]) := by
  induction ts generalizing x with
  | nil => rfl
  | cons t ts ih =>
    simp only [Control.series, Control.wires, ih]
    cases ts <;> rfl

end Series

/-- A loop that makes the calls of its condition once. -/
theorem Lowered.eachLoop {l : Line Token}
    (hloop : Lowers (some l.first) (body.labels ++ label.toList) (l.all ++ body.nodes)
      (loopWires label l body [] l.node.id) (fun ts => strays body ({ kind := .loop, label } :: ts))
      pending out p q) :
    Lowered (.seq (.series l.before) (.loop label (.single l.node) body [])) pending out p q := by
  have hfirst : (Control.seq (.series l.before) (.loop label (.single l.node) body [])).first? =
      some l.first := by
    rw [Control.first?, first?_series]
    cases hl : l.before <;> simp [Line.first, hl, Control.first?, Line.single]
  have hentry : ∀ next, (Control.loop label (.single l.node) body []).entry next = l.node.target :=
    fun next => rfl
  have hwires : (Control.seq (.series l.before) (.loop label (.single l.node) body [])).wires =
      loopWires label l body [] l.node.id := by
    funext x next
    rw [Control.wires, hentry, wires_series, labels_series, forget_nil]
    rfl
  have hstrays : strays (.seq (.series l.before) (.loop label (.single l.node) body [])) =
      fun ts => strays body ({ kind := .loop, label } :: ts) := by
    funext ts
    have hforget : ts.map (forget []) = ts :=
      (map_congr_left fun t _ => JumpTarget.forget_nil t).trans (map_id ts)
    simp [strays, strays_series, labels_series, hforget]
  unfold Lowered
  rw [hfirst, hwires, hstrays]
  simpa [Control.labels, Control.nodes, labels_series, nodes_series, Line.all, Line.single] using hloop

/-! ## Do loops -/

def opened (p : State × Trail) : State × Trail :=
  ({ p.1 with heads := p.1.heads ++ [none] }, p.2)

theorem Sane.opened (hp : Sane p) : Sane (opened p) :=
  ⟨hp.fit, hp.breaks, hp.continues, hp.loops, hp.returns, hp.throws⟩

def awaiting (p : State × Trail) : Pending :=
  [⟨.head p.1.heads.length, .true⟩]

theorem waits_awaiting {i : Nat} : Waits (awaiting p) i ↔ i = p.1.heads.length := by
  simp [Waits, awaiting, eq_comm]

theorem sound_awaiting (p : State × Trail) (kind : JumpKind) (label : Option String) :
    Sound (entered kind label (opened p)).1 (awaiting p) := by
  intro e he
  refine .inr ⟨p.1.heads.length, by simp [entered, opened], ?_⟩
  rw [mem_singleton.1 he]

section DoLoop

variable {l : Line Token} {body : Control Token} {label : Option String}

theorem not_waits_before {i : Nat} (hi : i < p.1.heads.length)
    (hbody : Lowered body (awaiting p) out (entered .loop label (opened p)) q) : ¬ Waits out i := by
  intro hw
  cases hfirst : body.first? with
  | none =>
    obtain ⟨more, hmore, rfl⟩ := hbody.passed hfirst
    rcases waits_append.1 hw with hw | hw
    · exact absurd (waits_awaiting.1 hw) (Nat.ne_of_lt hi)
    · exact hmore.not_waits i hw
  | some t => exact (hbody.anchored (by simp [hfirst])).not_waits i hw

section

variable (hbody : Lowered body (awaiting p) out (entered .loop label (opened p)) q)

include hbody

variable (h : Laid l (out ++ (top q).continues) q r)

include h

/-- The first node of a do body is known when its condition was lowered. -/
theorem head_known :
    r.1.heads[p.1.heads.length]? = some (some (body.first?.getD l.first).id) := by
  obtain ⟨hne, -, -⟩ := jumps_inside hbody.shapes
  have hcontinues := hbody.sane.continues _ (top_mem hne)
  have hlt : p.1.heads.length < (entered .loop label (opened p)).1.heads.length := by
    simp [entered, opened]
  have hlt' := Nat.lt_of_lt_of_le hlt hbody.settles.le
  have hq : q.1.heads[p.1.heads.length]? = some (body.first?.map (·.id)) := by
    rw [hbody.settles.waiting _ hlt (waits_awaiting.2 rfl)]
    simp [entered, opened]
  cases hfirst : body.first? with
  | none =>
    obtain ⟨more, -, rfl⟩ := hbody.passed hfirst
    have hw : Waits (awaiting p ++ more ++ (top q).continues) p.1.heads.length :=
      waits_append.2 (.inl (waits_append.2 (.inl (waits_awaiting.2 rfl))))
    rw [h.settles.waiting _ hlt' hw, hq, hfirst]
    rfl
  | some t =>
    have hw : ¬ Waits (out ++ (top q).continues) p.1.heads.length := by
      rw [waits_append, not_or]
      exact ⟨(hbody.anchored (by simp [hfirst])).not_waits _, hcontinues.not_waits _⟩
    rw [h.settles.others _ hlt' hw, hq, hfirst]
    rfl

/-- A do loop: the body inside a frame, the condition, the edges that were open before it, and the
back edge. -/
theorem Lowered.doLoop {u v : State × Trail}
    (hconnect : Connected pending ⟨(body.first?.getD l.first).id, none⟩ r u)
    (hkept : v.1 = { u.1 with graph := v.1.graph })
    (hgrows : Grows u.1.graph v.1.graph u.2.next v.2.next []
      [⟨l.node.id, (body.first?.getD l.first).id, .true, some l.node.id⟩]) :
    Lowered (.doLoop label body l) pending (leave l.node.id .false :: (top v).breaks) p (left v) := by
  obtain ⟨hne, hkind, hshapes⟩ := jumps_inside hbody.shapes
  obtain ⟨planned, hgrows₀, hlaw⟩ := hbody.balance_inside
  have hlast : SameParked u v := by constructor <;> rw [hkept]
  have hsame := (h.sameParked.trans hconnect.sameParked).trans hlast
  have hheads : v.1.heads = u.1.heads := by rw [hkept]
  have hv : Sane v := ((h.sane hbody.sane).connected hconnect).grow hgrows hlast
  have hall := hgrows₀.trans (h.grows.trans (hconnect.grows.trans hgrows))
  refine ⟨hv.left, ?_, hshapes ▸ ?_, fun hnone => by simp [Control.first?] at hnone, fun _ => ?_, ?_, ?_⟩
  · -- The body and the condition settle no earlier do body.
    have hle : p.1.heads.length ≤ (entered .loop label (opened p)).1.heads.length := by
      simp [entered, opened]
    have hopened : Settles (awaiting p) none p.1.heads (entered .loop label (opened p)).1.heads := by
      have hget : ∀ i < p.1.heads.length,
          (entered .loop label (opened p)).1.heads[i]? = p.1.heads[i]? := fun i hi => by
        simp [entered, opened, getElem?_append_left hi]
      exact ⟨hle, fun i hi _ => by simp [hget i hi], fun i hi _ => hget i hi⟩
    have hfirst : Settles (awaiting p) none p.1.heads q.1.heads :=
      hopened.andThen hbody.settles fun i hi hw =>
        absurd (waits_awaiting.1 hw) (Nat.ne_of_lt hi)
    have hcontinues := hbody.sane.continues _ (top_mem hne)
    have hsecond : Settles (awaiting p) none p.1.heads r.1.heads :=
      hfirst.andThen h.settles fun i hi hw => by
        rcases waits_append.1 hw with hw | hw
        · exact absurd hw (not_waits_before hi hbody)
        · exact absurd hw (hcontinues.not_waits i)
    have hthird := hsecond.after (fun _ _ _ => rfl) hconnect.settles
    rw [show (left v).1.heads = u.1.heads from hheads]
    exact hthird
  · rw [hsame.left.jumps_eq]
  · refine Anchored.leave_iff.2 ⟨hall.mem_nodeIds.2 (.inr (by simp [Line.all])), ?_⟩
    exact hv.breaks _ (top_mem (hsame.jumps_eq ▸ hne))
  · refine ⟨_, by simpa [left, Control.nodes, opened] using hall, fun x next hx => ?_⟩
    refine perm_iff_count.2 fun w => ?_
    have hcount := (hlaw x l.first.target ⟨.loop, label, next, l.first.target⟩ rfl rfl hx).count_eq w
    have hdue : due x (opened p).1 = due x p.1 := rfl
    have hawait : ∀ t, wiresTo (awaiting p) t = [] := fun t => rfl
    have hentry : entryOf body.first? l.first.target = (body.first?.getD l.first).target := by
      cases body.first? <;> rfl
    simp only [Control.wires, Control.first?, entryOf_some, entry_eq, hentry, frameDue, hawait, hdue,
      hsame.top_eq, hsame.left.due_eq, wiresTo_leave] at hcount ⊢
    simp only [count_append, count_cons, count_nil, Token.target] at hcount ⊢
    omega
  · have hunresolved : (left v).1.unresolved = r.1.unresolved := by
      simp only [left]
      rw [hkept, hconnect.kept]
    rw [hunresolved, h.reports]
    exact hbody.reports

end

theorem clear_head (hpending : Sound p.1 pending) (hfit : p.1.graph.Fit p.2.next)
    (hbody : Lowered body (awaiting p) out (entered .loop label (opened p)) q)
    (h : Laid l (out ++ (top q).continues) q r) {first : Id} (hfirst : p.2.next ≤ first) :
    Clear r.1.graph pending first := by
  intro w hw hfall hdst e he hsource
  have hends := encloses_control body
  have hold : w ∈ p.1.graph.wires → False := fun hp =>
    absurd (hdst ▸ (hfit.wire_below hp).2) (Int.not_lt.2 hfirst)
  have hnew : ∀ {e' : OpenEdge} {src : Id}, e' ∈ out ++ (top q).continues → e'.source = .node src →
      p.2.next ≤ src := by
    intro e' src he' hsource'
    rcases mem_append.1 he' with he' | he'
    · rcases hbody.opens hends he' hsource' with he' | hin
      · rw [mem_singleton.1 he'] at hsource'
        cases hsource'
      · exact hbody.fresh hin
    · exact hbody.fresh (hbody.resumes hends he' hsource')
  refine absurd hsource fun hsource => hpending.not_fresh hfit he hsource ?_
  rcases h.fall_cases hw hfall with hw | ⟨e', he', hsource'⟩
  · rcases hbody.drawn hends hw with hw | ⟨-, hin | ⟨e', he', hsource'⟩⟩
    · exact (hold hw).elim
    · exact hbody.fresh hin
    · rw [mem_singleton.1 he'] at hsource'
      cases hsource'
  · exact hnew he' hsource'

theorem clear_test {first : Id} {t : Target} {u : State × Trail} (hpending : Sound p.1 pending)
    (hfit : p.1.graph.Fit p.2.next) (hle : p.2.next ≤ q.2.next) (hout : Sound q.1 out) (h : Laid l out q r)
    (hconnect : Connected pending t r u) : Clear u.1.graph (onward l.node.id) first := by
  intro w hw hfall _ e he hsource
  have hsrc : w.src = l.node.id := by
    rw [mem_singleton.1 he] at hsource
    exact (Source.node.inj hsource).symm
  have hnode : q.2.next ≤ w.src := hsrc ▸ h.grows.fresh l.node l.node_mem
  rcases hconnect.grows.wires.mem_or_planned hw with hw | hw
  · rcases h.fall_cases hw hfall with hw | ⟨e', he', hsource'⟩
    · exact absurd (h.grows.start.wire_below hw).1 (Int.not_lt.2 hnode)
    · exact (hout.not_fresh h.grows.start he' hsource' hnode).elim
  · obtain ⟨e', he', src, hsource', rfl⟩ := mem_wiresTo.1 hw
    exact (hpending.not_fresh hfit he' hsource' (Int.le_trans hle hnode)).elim

end DoLoop

/-! ## Switches -/

/-- The cases of a switch were lowered: `guard` and `fall` are the edges that were open to the next
guard and to the next body, `guard'` and `fall'` those that are open afterwards. -/
structure LoweredArms (arms : Arms Token) (guard fall guard' fall' : Pending)
    (p q : State × Trail) : Prop where
  sane : Sane q
  heads : Settles [] none p.1.heads q.1.heads
  shapes : q.1.jumps.map shape = p.1.jumps.map fun t => (t.forget arms.labels).shape
  guards : Anchored p.1.graph guard → Anchored q.1.graph guard'
  falls : Anchored p.1.graph fall → Anchored q.1.graph fall'
  balance : ∃ planned, Grows p.1.graph q.1.graph p.2.next q.2.next
      (arms.guards ++ arms.defaults ++ arms.bodies) planned ∧
    ∀ x next missed, Matches x p.1.jumps →
      (planned ++ (due x q.1 ++ (wiresTo guard' missed ++ wiresTo fall' next))).Perm
        (due x p.1 ++ (wiresTo guard (arms.guardEntry missed) ++
          (wiresTo fall (arms.bodyEntry next) ++ arms.wires x next missed)))
  reports : lostJumps q.1.unresolved =
    lostJumps p.1.unresolved ++ elementsOf (armsStrays arms (shapesOf p))

namespace LoweredArms

variable {arms : Arms Token} {guard fall guard' fall' : Pending} {body : Control Token}
  {u : State × Trail}

theorem nil (hp : Sane p) : LoweredArms .nil guard fall guard fall p p :=
  ⟨hp, .refl _ _, (forget_nil_shape _).symm, fun h => h, fun h => h, ⟨[], .refl hp.fit,
    fun x next missed _ => by simp [Arms.guardEntry, Arms.bodyEntry, Arms.wires]⟩, (append_nil _).symm⟩

/-! The body of a case, however it is entered, and the cases after it. -/

section Case

variable {entering : Pending} (hbody : Lowered body entering out q r)
  (hrest : LoweredArms arms guard out guard' fall' r u)

include hbody hrest

theorem case_heads (hopen : Anchored q.1.graph entering) : Settles [] none q.1.heads u.1.heads := by
  have hidle := (Settles.refl [] q.1.heads).andAnchored hbody.settles hopen
  exact hidle.andThen hrest.heads fun _ _ _ => rfl

/-- The law of a body and the cases after it. -/
theorem case_balance : ∃ planned, Grows q.1.graph u.1.graph q.2.next u.2.next
      (body.nodes ++ (arms.guards ++ arms.defaults ++ arms.bodies)) planned ∧
    ∀ x next missed, Matches x q.1.jumps →
      (planned ++ (due x u.1 ++ (wiresTo guard' missed ++ wiresTo fall' next))).Perm
        (due x q.1 ++ (wiresTo entering (body.entry (arms.bodyEntry next)) ++
          (wiresTo guard (arms.guardEntry missed) ++
            (body.wires x (arms.bodyEntry next) ++ arms.wires (x.forget body.labels) next missed)))) := by
  obtain ⟨planned, hgrows, hlaw⟩ := hbody.balance
  obtain ⟨planned', hgrows', hlaw'⟩ := hrest.balance
  refine ⟨_, hgrows.trans hgrows', fun x next missed hx => perm_iff_count.2 fun w => ?_⟩
  have c₁ := (hlaw x (arms.bodyEntry next) hx).count_eq w
  have c₂ := (hlaw' (x.forget body.labels) next missed (hx.forget hbody.shapes)).count_eq w
  simp only [due_forget, entry_eq, count_append] at c₁ c₂ ⊢
  omega

end Case

theorem guarded {l : Line Token} (h : Laid l guard p q) (hguard : Anchored p.1.graph guard)
    (hfall : Anchored p.1.graph fall) (hbody : Lowered body (onward l.node.id ++ fall) out q r)
    (hrest : LoweredArms arms [leave l.node.id .false] out guard' fall' r u) :
    LoweredArms (.guard l body arms) guard fall guard' fall' p u := by
  have hq := h.sameParked
  have hopen : Anchored q.1.graph (onward l.node.id ++ fall) := Anchored.append_iff.2
    ⟨Anchored.onward_iff.2 h.node_mem, hfall.mono h.grows.subset⟩
  have hleave : Anchored r.1.graph [leave l.node.id .false] := by
    simpa using hbody.subset h.node_mem
  obtain ⟨planned, hgrows, hlaw⟩ := case_balance hbody hrest
  refine ⟨hrest.sane, ?_, ?_, fun _ => hrest.guards hleave, fun _ => hrest.falls (hbody.anchor hopen), ?_, ?_⟩
  · have hidle := (Settles.refl [] p.1.heads).andAnchored h.settles hguard
    exact hidle.andThen (case_heads hbody hrest hopen) fun _ _ _ => rfl
  · rw [← hq.jumps_eq]
    exact shapes_trans hbody.shapes hrest.shapes
  · refine ⟨_, (h.grows.trans hgrows).perm ?_ (.refl _), fun x next missed hx => ?_⟩
    · classical
      refine perm_iff_count.2 fun t => ?_
      simp only [Arms.guards, Arms.defaults, Arms.bodies, count_append]
      omega
    · refine perm_iff_count.2 fun w => ?_
      have hcount := (hlaw x next missed (hq.jumps_eq ▸ hx)).count_eq w
      simp only [hq.due_eq, wiresTo_leave, wiresTo_nil, wiresTo_append, wiresTo_onward, Arms.guardEntry,
        Arms.bodyEntry, Arms.wires, count_append, count_cons, count_nil] at hcount ⊢
      omega
  · rw [hrest.reports, hbody.reports, h.reports, shapesOf_forget hbody.shapes, hq.shapesOf_eq, armsStrays,
      elementsOf_append, append_assoc]

theorem defaulted {n : Token} (h : Created n p q) (hfall : Anchored p.1.graph fall)
    (hbody : Lowered body (onward n.id ++ fall) out q r)
    (hrest : LoweredArms arms guard out guard' fall' r u) :
    LoweredArms (.default n body arms) guard fall guard' fall' p u := by
  have hq := h.sameParked
  have hheads : q.1.heads = p.1.heads := by rw [h.kept]
  have hnode : n.id ∈ q.1.graph.nodeIds := h.grows.mem_nodeIds.2 (.inr (by simp))
  have hopen : Anchored q.1.graph (onward n.id ++ fall) :=
    Anchored.append_iff.2 ⟨Anchored.onward_iff.2 hnode, hfall.mono h.grows.subset⟩
  obtain ⟨planned, hgrows, hlaw⟩ := case_balance hbody hrest
  refine ⟨hrest.sane, ?_, ?_, fun hguard => ?_, fun _ => hrest.falls (hbody.anchor hopen), ?_, ?_⟩
  · rw [← hheads]
    exact case_heads hbody hrest hopen
  · rw [← hq.jumps_eq]
    exact shapes_trans hbody.shapes hrest.shapes
  · exact hrest.guards ((hguard.mono h.grows.subset).mono hbody.subset)
  · refine ⟨_, (h.grows.trans hgrows).perm ?_ (.refl _), fun x next missed hx => ?_⟩
    · classical
      refine perm_iff_count.2 fun t => ?_
      simp only [Arms.guards, Arms.defaults, Arms.bodies, count_append, count_cons, count_nil]
      omega
    · refine perm_iff_count.2 fun w => ?_
      have hcount := (hlaw x next missed (hq.jumps_eq ▸ hx)).count_eq w
      simp only [hq.due_eq, wiresTo_append, wiresTo_onward, Arms.guardEntry, Arms.bodyEntry, Arms.wires,
        count_append, count_cons, count_nil] at hcount ⊢
      omega
  · rw [hrest.reports, hbody.reports, h.reports, shapesOf_forget hbody.shapes, hq.shapesOf_eq, armsStrays,
      elementsOf_append, append_assoc]

/-- No wire leads to a default case until the last guard is left. -/
theorem default_not_wired (h : LoweredArms arms guard fall guard' fall' p q) {d : Token}
    (hd : d ∈ arms.defaults) {w : Wire} (hw : w ∈ q.1.graph.wires) : w.dst ≠ d.id := by
  obtain ⟨planned, hgrows, hlaw⟩ := h.balance
  have hid : d.id ∈ arms.defaultIds := mem_map_of_mem hd
  have hfresh : p.2.next ≤ d.id := hgrows.fresh d (by simp [hd])
  have hnodup : (arms.guardIds ++ (arms.defaultIds ++ arms.bodyIds)).Nodup := by
    have hnodes := h.sane.fit.growing.coherent.nodup_nodes
    rw [nodeIds_eq_tokens, (hgrows.tokens_perm.map _).nodup_iff, map_append] at hnodes
    simpa [Arms.guardIds, Arms.defaultIds, Arms.bodyIds] using hnodes.of_append_right
  have hguard : d.id ∉ arms.guardIds := fun hin =>
    disjoint_of_nodup_append hnodup hin (mem_append_left _ hid)
  have hbody : d.id ∉ arms.bodyIds := fun hin =>
    disjoint_of_nodup_append hnodup.of_append_right hid hin
  rcases hgrows.wires.mem_or_planned hw with hw | hw
  · exact Int.ne_of_lt (Int.lt_of_lt_of_le (hgrows.start.wire_below hw).2 hfresh)
  · -- Let everything lead to a place that is no default case.
    have hne : d.id + 1 ≠ d.id := Int.ne_of_gt (Int.lt_succ _)
    have hin : ∀ {t : Target} {ids : List Id}, t.In ids ⟨d.id + 1, none⟩ → d.id ∉ ids → t.node ≠ d.id := by
      rintro t ids (⟨hmem, -⟩ | rfl) hids heq
      · exact hids (heq ▸ hmem)
      · exact hne heq
    have hmem := (hlaw (away p.1.jumps (d.id + 1)) ⟨d.id + 1, none⟩ ⟨d.id + 1, none⟩
      (matches_away _ _)).mem_iff.1 (mem_append_left _ hw)
    rw [mem_append, mem_append, mem_append] at hmem
    rcases hmem with hmem | hmem | hmem | hmem
    · exact due_away hmem ▸ hne
    · obtain ⟨e, -, src, -, rfl⟩ := mem_wiresTo.1 hmem
      exact hin (arms.guardEntry_in _) hguard
    · obtain ⟨e, -, src, -, rfl⟩ := mem_wiresTo.1 hmem
      exact hin (arms.bodyEntry_in _) hbody
    · rcases arms.wire_dst hmem with hdst | ⟨t, ht, hdst⟩
      · intro heq
        rcases mem_append.1 (heq ▸ hdst) with hdst | hdst
        · exact hguard hdst
        · exact hbody hdst
      · rcases mem_cons.1 ht with rfl | ht
        · exact hdst ▸ hne
        · rcases mem_cons.1 ht with rfl | ht
          · exact hdst ▸ hne
          · rw [hdst, node_away ht]
            exact hne

end LoweredArms

/-- Where the edge after the last guard goes: to the last default case, or out of the switch. -/
def Missed (arms : Arms Token) (guard open' : Pending) (p q : State × Trail) : Prop :=
  (∃ d, arms.defaults.getLast? = some d ∧ Connected guard d.target p q ∧ open' = []) ∨
    (arms.defaults.getLast? = none ∧ q = p ∧ open' = guard)

/-- A switch: the subject, the cases inside a frame, and the edge after the last guard. -/
theorem Lowered.switch {l : Line Token} {arms : Arms Token} {guard fall open' : Pending}
    {u : State × Trail} (h : Laid l pending p q)
    (harms : LoweredArms arms (onward l.node.id) [] guard fall (entered .switch none q) r)
    (hmissed : Missed arms guard open' r u) :
    Lowered (.switch l arms) pending (fall ++ (top u).breaks ++ open' ++ [leave l.node.id .false]) p
    (left u) := by
  obtain ⟨hne, hkind, hshapes⟩ := jumps_inside harms.shapes
  obtain ⟨planned, hgrows, hlaw⟩ := harms.balance
  have hq := h.sameParked
  have hguard : Anchored r.1.graph guard := harms.guards (Anchored.onward_iff.2 h.node_mem)
  have hkept : u.1 = { r.1 with graph := u.1.graph, heads := u.1.heads } := by
    rcases hmissed with ⟨d, -, hconnect, -⟩ | ⟨-, rfl, -⟩
    · exact hconnect.kept
    · rfl
  obtain ⟨planned', hgrows', hmore⟩ : ∃ planned',
      Grows r.1.graph u.1.graph r.2.next u.2.next [] planned' ∧
        ∀ next, planned' ++ wiresTo open' next = wiresTo guard (arms.missed next) := by
    rcases hmissed with ⟨d, hlast, hconnect, rfl⟩ | ⟨hlast, rfl, rfl⟩
    · exact ⟨_, hconnect.grows, fun next => by simp [Arms.missed, hlast]⟩
    · exact ⟨[], .refl harms.sane.fit, fun next => by simp [Arms.missed, hlast]⟩
  have hsettles : Settles [] none r.1.heads u.1.heads := by
    rcases hmissed with ⟨d, -, hconnect, -⟩ | ⟨-, rfl, -⟩
    · exact (Settles.refl [] _).andAnchored hconnect.settles hguard
    · exact .refl [] _
  have hopen : Anchored u.1.graph open' := by
    rcases hmissed with ⟨d, -, -, rfl⟩ | ⟨-, rfl, rfl⟩
    · simp
    · exact hguard
  have hsame : SameParked r u := by constructor <;> rw [hkept]
  have hu : Sane u := harms.sane.grow hgrows' hsame
  have hall := h.grows.trans (hgrows.trans hgrows')
  have hcontinues : (top r).continues = [] := harms.sane.loops _ (top_mem hne) (by simp [hkind])
  refine ⟨hu.left, ?_, ?_, fun hnone => by simp [Control.first?] at hnone, fun _ => ?_, ?_, ?_⟩
  · exact (h.settles.andThen harms.heads fun _ _ _ => rfl).andThen hsettles fun _ _ _ => rfl
  · rw [hsame.left.jumps_eq, hshapes, ← hq.jumps_eq]
    simp [Control.labels]
  · simp only [Anchored.append_iff, Anchored.leave_iff, Anchored.nil, and_true]
    refine ⟨⟨⟨?_, hu.breaks _ (top_mem (hsame.jumps_eq ▸ hne))⟩, hopen⟩,
      hall.mem_nodeIds.2 (.inr (by simp [Line.all]))⟩
    exact (harms.falls .nil).mono hgrows'.subset
  · refine ⟨_, by simpa [left, Control.nodes] using hall, fun x next hx => ?_⟩
    let f : Frame := ⟨.switch, none, next, next⟩
    refine perm_iff_count.2 fun w => ?_
    have hx' : Matches x q.1.jumps := hq.jumps_eq ▸ hx
    have c₁ := (hlaw (x.push f) next (arms.missed next) (hx'.push f)).count_eq w
    have c₂ := congrArg (List.count w) (hmore next)
    rw [due_entered, due_push f hne] at c₁
    simp only [hq.due_eq, frameDue, hcontinues, f, hsame.top_eq, hsame.left.due_eq, wiresTo_leave,
      wiresTo_nil, wiresTo_append, wiresTo_onward, Control.first?, Control.wires, entryOf_some] at c₁ c₂ ⊢
    simp only [count_append, count_cons, count_nil] at c₁ c₂ ⊢
    omega
  · have hunresolved : (left u).1.unresolved = r.1.unresolved := by
      simp only [left]
      rw [hkept]
    have hshapes' : shapesOf (entered .switch none q) = { kind := .switch } :: shapesOf p := by
      simp only [entered, hq.jumps_eq]
      rfl
    have hinside : lostJumps (entered .switch none q).1.unresolved = lostJumps p.1.unresolved := h.reports
    rw [hunresolved, harms.reports, hinside, hshapes', strays]

end Lowering

end ProgramDependence
