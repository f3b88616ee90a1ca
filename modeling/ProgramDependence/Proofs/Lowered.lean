import ProgramDependence.Proofs.Connecting
import ProgramDependence.Proofs.Course

/-!
# What lowering a statement does

`Lowered k pending out p q`: between the states `p` and `q` the nodes of the structured control `k`
were created, the edges in `pending` were connected to it, and the edges in `out` are open after it.

Its heart is a conservation law.  Whatever the statement will be left to, the wires drawn so far,
those that the parked jumps will become and those that `out` will become are the ones of before
together with the wires of `k`.  The laws of parts add up to the law of the whole.
-/

namespace ProgramDependence

open List

namespace Lowering

open Tracked Graph JumpTarget
variable {ts : List JumpTarget} {fs : List Frame}

/-! ## Jump targets -/

/-- The kind and the label of a jump target. -/
def JumpTarget.shape (t : JumpTarget) : JumpTarget :=
  { kind := t.kind, label := t.label }

/-- A jump target after statements of some labels. -/
def JumpTarget.forget (labels : List String) (t : JumpTarget) : JumpTarget :=
  if t.label.any labels.contains then { t with label := none } else t

/-- Whether a jump finds a target among the enclosing statements. -/
def finds (ts : List JumpTarget) : Jump → Bool
  | .breakTo l => ts.any (takesBreak l)
  | .continueTo l => (ts.find? (takesContinue l)).any (·.kind = .loop)
  | .returning | .throwing => true

mutual

def strays {α : Type} : Control α → List JumpTarget → List α
  | .skip, _ | .line _, _ => []
  | .jump l j, ts => if finds ts j then [] else [l.node]
  | .seq a b, ts | .branch _ a b, ts => strays a ts ++ strays b (ts.map (forget a.labels))
  | .loop label _ body _, ts | .doLoop label body _, ts => strays body ({ kind := .loop, label } :: ts)
  | .switch _ arms, ts => armsStrays arms ({ kind := .switch } :: ts)
  | .labeled l body, ts => strays body ({ kind := .label, label := some l } :: ts)

def armsStrays {α : Type} : Arms α → List JumpTarget → List α
  | .nil, _ => []
  | .guard _ body rest, ts | .default _ body rest, ts =>
    strays body ts ++ armsStrays rest (ts.map (forget body.labels))

end

def shapesOf (p : State × Trail) : List JumpTarget :=
  p.1.jumps.map shape

def elementsOf (ts : List Token) : List Element :=
  ts.map (·.label.element)

@[simp] theorem elementsOf_append (a b : List Token) : elementsOf (a ++ b) = elementsOf a ++ elementsOf b :=
  map_append

/-- Exits for the jump targets of a state. -/
def Matches (x : Exits) (jumps : List JumpTarget) : Prop :=
  x.frames.map Frame.shape = jumps.map shape

/-- The wires that the jumps parked with a target will become. -/
def frameDue (f : Frame) (t : JumpTarget) : List Wire :=
  wiresTo t.breaks f.breaks ++ wiresTo t.continues f.continues

/-- The wires that the jumps parked with some targets will become. -/
def framesDue : List Frame → List JumpTarget → List Wire
  | f :: fs, t :: ts => frameDue f t ++ framesDue fs ts
  | _, _ => []

/-- The wires that all parked jumps will become. -/
def due (x : Exits) (s : State) : List Wire :=
  framesDue x.frames s.jumps ++ (wiresTo s.returns x.returns ++ wiresTo s.throws x.throws)

theorem framesDue_forget (labels : List String) (fs : List Frame) (ts : List JumpTarget) :
    framesDue (fs.map fun f => if f.label.any labels.contains then { f with label := none } else f) ts =
      framesDue fs ts := by
  induction fs generalizing ts with
  | nil => rfl
  | cons f fs ih =>
    cases ts with
    | nil => rfl
    | cons t ts =>
      simp only [map_cons, framesDue, ih]
      split <;> rfl

@[simp] theorem due_forget (x : Exits) (labels : List String) (s : State) :
    due (x.forget labels) s = due x s := by
  simp [due, Exits.forget, framesDue_forget]

theorem framesDue_map {f : JumpTarget → JumpTarget}
    (hf : ∀ t, (f t).breaks = t.breaks ∧ (f t).continues = t.continues) (fs : List Frame)
    (ts : List JumpTarget) : framesDue fs (ts.map f) = framesDue fs ts := by
  induction fs generalizing ts with
  | nil => rfl
  | cons frame fs ih =>
    cases ts with
    | nil => rfl
    | cons t ts => simp only [map_cons, framesDue, ih, frameDue, hf t]

theorem frameShape_forget (labels : List String) (f : Frame) :
    Frame.shape (if f.label.any labels.contains then { f with label := none } else f) =
      forget labels (Frame.shape f) := by
  by_cases h : f.label.any labels.contains = true <;> simp [forget, Frame.shape, h]

theorem JumpTarget.shape_forget (labels : List String) (t : JumpTarget) :
    (t.forget labels).shape = t.shape.forget labels := by
  by_cases h : t.label.any labels.contains = true <;> simp [forget, shape, h]

theorem shapes_forget (x : Exits) (labels : List String) :
    (x.forget labels).frames.map Frame.shape = (x.frames.map Frame.shape).map (forget labels) := by
  simp only [Exits.forget, map_map]
  exact map_congr_left fun f _ => frameShape_forget labels f

variable {jumps : List JumpTarget} {labels : List String} {id node : Id} {l : Line Token}

theorem Matches.forget {x : Exits} {jumps' : List JumpTarget} (h : Matches x jumps)
    (hjumps : jumps'.map shape = jumps.map fun t => (t.forget labels).shape) :
    Matches (x.forget labels) jumps' := by
  rw [Matches, shapes_forget, hjumps, h, map_map]
  exact map_congr_left fun t _ => (shape_forget labels t).symm

theorem JumpTarget.forget_forget (a b : List String) (t : JumpTarget) :
    (t.forget a).forget b = t.forget (a ++ b) := by
  obtain ⟨kind, label, breaks, continues⟩ := t
  cases label with
  | none => simp [forget]
  | some l =>
    by_cases ha : l ∈ a <;> by_cases hb : l ∈ b <;> simp [forget, ha]

theorem shapes_trans {a b c : List JumpTarget} {labels' : List String}
    (h : b.map shape = a.map fun t => (t.forget labels).shape)
    (h' : c.map shape = b.map fun t => (t.forget labels').shape) :
    c.map shape = a.map fun t => (t.forget (labels ++ labels')).shape := by
  have hmap : b.map (fun t => (t.forget labels').shape) =
      (b.map shape).map (forget labels') := by
    rw [map_map]
    exact map_congr_left fun t _ => shape_forget labels' t
  rw [h', hmap, h, map_map]
  refine map_congr_left fun t _ => ?_
  simp only [Function.comp_apply]
  rw [← shape_forget, forget_forget]

theorem shapesOf_forget {p q : State × Trail}
    (h : q.1.jumps.map shape = p.1.jumps.map fun t => (t.forget labels).shape) :
    shapesOf q = (shapesOf p).map (forget labels) := by
  rw [shapesOf, h, shapesOf, map_map]
  exact map_congr_left fun t _ => shape_forget labels t

@[simp] theorem JumpTarget.forget_nil (t : JumpTarget) : t.forget [] = t := by
  cases h : t.label <;> simp [forget, h]

/-! ## Parking jumps -/

section Parking

variable {ok : JumpTarget → Bool} {change : JumpTarget → JumpTarget}

theorem forall_changeFirst {P : JumpTarget → Prop} (h : ∀ t ∈ ts, P t)
    (hchange : ∀ t ∈ ts, ts.find? ok = some t → P (change t)) : ∀ t ∈ changeFirst ok change ts, P t := by
  induction ts with
  | nil => exact h
  | cons a ts ih =>
    rw [forall_mem_cons] at h
    rw [changeFirst]
    by_cases ha : ok a = true
    · rw [if_pos ha, forall_mem_cons]
      exact ⟨hchange a mem_cons_self (by simp [ha]), h.2⟩
    · rw [if_neg ha, forall_mem_cons]
      exact ⟨h.1, ih h.2 fun t ht hfind => hchange t (mem_cons_of_mem _ ht) (by simp [ha, hfind])⟩

theorem map_shape_changeFirst (hchange : ∀ t, (change t).shape = t.shape) (ts : List JumpTarget) :
    (changeFirst ok change ts).map shape = ts.map shape := by
  induction ts with
  | nil => rfl
  | cons t ts ih =>
    rw [changeFirst]
    split
    · simp [hchange]
    · simp [ih]

/-- Exits find a frame where the state finds a target. -/
theorem find?_matches (hok : ∀ t : JumpTarget, ok t.shape = ok t) (hm : fs.map Frame.shape = ts.map shape) :
    (fs.find? fun f => ok f.shape).map Frame.shape = (ts.find? ok).map shape := by
  have hfs := find?_map (p := ok) (f := Frame.shape) (l := fs)
  have hts := find?_map (p := ok) (f := shape) (l := ts)
  have hcomp : ok ∘ shape = ok := funext hok
  rw [hcomp] at hts
  rw [← hts, ← hm, hfs]
  rfl

/-- Parking a jump adds one wire to what is due. -/
theorem framesDue_changeFirst (wire : Frame → Wire) (hok : ∀ t : JumpTarget, ok t.shape = ok t)
    (hchange : ∀ f t, (frameDue f (change t)).Perm (frameDue f t ++ [wire f]))
    (hm : fs.map Frame.shape = ts.map shape) :
    (framesDue fs (changeFirst ok change ts)).Perm
      (framesDue fs ts ++ ((fs.find? fun f => ok f.shape).map wire).toList) := by
  induction fs generalizing ts with
  | nil => simp [framesDue]
  | cons f fs ih =>
    cases ts with
    | nil => cases hm
    | cons t ts =>
      rw [map_cons, map_cons, List.cons.injEq] at hm
      have hf : ok f.shape = ok t := by rw [hm.1, hok]
      rw [changeFirst, find?_cons, hf]
      by_cases ht : ok t = true
      · simp only [ht, framesDue]
        refine ((hchange f t).append_right _).trans ?_
        rw [append_assoc, append_assoc]
        exact (perm_append_comm).append_left _
      · simp only [ht, framesDue, append_assoc]
        exact (ih hm.2).append_left _

end Parking

/-! ## The invariant -/

/-- The invariant of lowering: the graph is fit, all parked jumps start at its nodes, and only loops
are continued. -/
structure Sane (p : State × Trail) : Prop where
  fit : p.1.graph.Fit p.2.next
  breaks : ∀ t ∈ p.1.jumps, Anchored p.1.graph t.breaks
  continues : ∀ t ∈ p.1.jumps, Anchored p.1.graph t.continues
  loops : ∀ t ∈ p.1.jumps, t.kind ≠ .loop → t.continues = []
  returns : Anchored p.1.graph p.1.returns
  throws : Anchored p.1.graph p.1.throws

/-- The invariant is kept while the graph grows. -/
theorem Sane.grow {p q : State × Trail} {new : List Token} {planned : List Wire} (hp : Sane p)
    (hgrows : Grows p.1.graph q.1.graph p.2.next q.2.next new planned) (hsame : SameParked p q) : Sane q := by
  refine ⟨hgrows.fit, ?_, ?_, ?_, ?_, ?_⟩
  · exact fun t ht => (hp.breaks t (hsame.jumps_eq ▸ ht)).mono hgrows.subset
  · exact fun t ht => (hp.continues t (hsame.jumps_eq ▸ ht)).mono hgrows.subset
  · exact fun t ht => hp.loops t (hsame.jumps_eq ▸ ht)
  · exact hsame.returns_eq ▸ hp.returns.mono hgrows.subset
  · exact hsame.throws_eq ▸ hp.throws.mono hgrows.subset

/-! ## Lowered control -/

/-- Where control goes that goes on with a part of a given first node. -/
def entryOf (first : Option Token) (next : Target) : Target :=
  (first.map Token.target).getD next

theorem entryOf_some (t : Token) (next : Target) : entryOf (some t) next = t.target := rfl

theorem entry_eq (k : Control Token) (next : Target) : k.entry next = entryOf k.first? next := rfl

/-- A part of a unit was lowered, given by its first node, its labels, its nodes, its wires, and its
jumps that find no target; just these are reported. -/
structure Lowers (first : Option Token) (labels : List String) (nodes : List Token)
    (wires : Exits → Target → List Wire) (lost : List JumpTarget → List Token)
    (pending out : Pending) (p q : State × Trail) : Prop where
  sane : Sane q
  settles : Settles pending (first.map (·.id)) p.1.heads q.1.heads
  shapes : q.1.jumps.map shape = p.1.jumps.map fun t => (t.forget labels).shape
  passed : first = none → ∃ more, Anchored q.1.graph more ∧ out = pending ++ more
  anchored : first ≠ none → Anchored q.1.graph out
  balance : ∃ planned, Grows p.1.graph q.1.graph p.2.next q.2.next nodes planned ∧
    ∀ x next, Matches x p.1.jumps →
      (planned ++ (due x q.1 ++ wiresTo out next)).Perm
        (due x p.1 ++ (wiresTo pending (entryOf first next) ++ wires x next))
  reports : lostJumps q.1.unresolved = lostJumps p.1.unresolved ++ elementsOf (lost (shapesOf p))

/-- Structured control was lowered. -/
def Lowered (k : Control Token) (pending out : Pending) (p q : State × Trail) : Prop :=
  Lowers k.first? k.labels k.nodes k.wires (strays k) pending out p q

variable {p q r : State × Trail} {pending out mid : Pending}

namespace Lowers

variable {first first' : Option Token} {labels labels' : List String} {nodes nodes' : List Token}
  {wires wires' : Exits → Target → List Wire} {lost lost' : List JumpTarget → List Token}

section

variable (h : Lowers first labels nodes wires lost pending out p q)
include h

theorem mem_nodeIds {id : Id} : id ∈ q.1.graph.nodeIds ↔ id ∈ p.1.graph.nodeIds ∨ id ∈ nodes.map (·.id) := by
  obtain ⟨planned, hgrows, -⟩ := h.balance
  exact hgrows.mem_nodeIds

theorem subset : p.1.graph.nodeIds ⊆ q.1.graph.nodeIds :=
  fun _ hid => h.mem_nodeIds.2 (.inl hid)

theorem sound (hp : Sound p.1 pending) : Sound q.1 out := by
  cases hfirst : first with
  | none =>
    obtain ⟨more, hmore, rfl⟩ := h.passed hfirst
    intro e he
    rcases mem_append.1 he with he | he
    · exact hp.mono h.subset h.settles.le e he
    · exact hmore.sound e he
  | some t => exact (h.anchored (by simp [hfirst])).sound

theorem anchor (hp : Anchored p.1.graph pending) : Anchored q.1.graph out := by
  cases hfirst : first with
  | none =>
    obtain ⟨more, hmore, rfl⟩ := h.passed hfirst
    exact Anchored.append_iff.2 ⟨hp.mono h.subset, hmore⟩
  | some t => exact h.anchored (by simp [hfirst])

end

/-- **The laws of two parts add up to that of the sequence.** -/
theorem seq (h : Lowers first labels nodes wires lost pending mid p q)
    (h' : Lowers first' labels' nodes' wires' lost' mid out q r) :
    Lowers (first.or first') (labels ++ labels') (nodes ++ nodes')
      (fun x next => wires x (entryOf first' next) ++ wires' (x.forget labels) next)
      (fun ts => lost ts ++ lost' (ts.map (forget labels))) pending out p r where
  sane := h'.sane
  settles := by
    cases hfirst : first with
    | none =>
      obtain ⟨more, hmore, rfl⟩ := h.passed hfirst
      have hwait : ∀ i, Waits (pending ++ more) i ↔ Waits pending i := fun i => by
        simp [hmore.not_waits i]
      exact h.settles.after (fun _ _ _ => by simp [hfirst]) (h'.settles.congr hwait)
    | some t =>
      have hs := h.settles
      rw [hfirst] at hs
      exact hs.andAnchored h'.settles (h.anchored (by simp [hfirst]))
  shapes := shapes_trans h.shapes h'.shapes
  passed := by
    intro hnone
    rw [Option.or_eq_none_iff] at hnone
    obtain ⟨more, hmore, rfl⟩ := h.passed hnone.1
    obtain ⟨more', hmore', rfl⟩ := h'.passed hnone.2
    refine ⟨more ++ more', Anchored.append_iff.2 ⟨?_, hmore'⟩, append_assoc _ _ _⟩
    exact hmore.mono h'.subset
  anchored := by
    intro hsome
    by_cases hfirst' : first' = none
    · exact h'.anchor (h.anchored fun hfirst => hsome (by simp [hfirst, hfirst']))
    · exact h'.anchored hfirst'
  balance := by
    obtain ⟨planned, hgrows, hlaw⟩ := h.balance
    obtain ⟨planned', hgrows', hlaw'⟩ := h'.balance
    refine ⟨planned ++ planned', hgrows.trans hgrows', fun x next hx => ?_⟩
    have hone := hlaw x (entryOf first' next) hx
    have htwo := hlaw' (x.forget labels) next (hx.forget h.shapes)
    have hentry : entryOf (first.or first') next = entryOf first (entryOf first' next) := by
      cases first <;> rfl
    rw [hentry]
    rw [due_forget, due_forget] at htwo
    refine perm_iff_count.2 fun w => ?_
    have c₁ := hone.count_eq w
    have c₂ := htwo.count_eq w
    simp only [count_append] at c₁ c₂ ⊢
    omega
  reports := by
    rw [h'.reports, h.reports, shapesOf_forget h.shapes, append_assoc, elementsOf_append]

end Lowers

/-! ## Ends of what was drawn -/

/-- Exits that all lead to one place. -/
def away (jumps : List JumpTarget) (id : Id) : Exits where
  frames := jumps.map fun t => ⟨t.kind, t.label, ⟨id, none⟩, ⟨id, none⟩⟩
  returns := ⟨id, none⟩
  throws := ⟨id, none⟩

theorem matches_away (jumps : List JumpTarget) (id : Id) : Matches (away jumps id) jumps := by
  simp [Matches, away, Frame.shape, shape]

theorem node_away {t : Target} (ht : t ∈ (away jumps id).targets) : t.node = id := by
  simp only [Exits.targets, away, mem_cons, mem_flatMap, mem_map, not_mem_nil, or_false] at ht
  rcases ht with rfl | rfl | ⟨f, ⟨_, _, rfl⟩, rfl | rfl⟩ <;> rfl

theorem framesDue_dst {w : Wire} (hfs : ∀ f ∈ fs, f.breaks.node = id ∧ f.continues.node = id)
    (hw : w ∈ framesDue fs ts) : w.dst = id := by
  induction fs generalizing ts with
  | nil => simp [framesDue] at hw
  | cons f fs ih =>
    cases ts with
    | nil => simp [framesDue] at hw
    | cons t ts =>
      rw [framesDue, frameDue, mem_append, mem_append] at hw
      rcases hw with (hw | hw) | hw
      · obtain ⟨e, -, src, -, rfl⟩ := mem_wiresTo.1 hw
        exact (hfs f mem_cons_self).1
      · obtain ⟨e, -, src, -, rfl⟩ := mem_wiresTo.1 hw
        exact (hfs f mem_cons_self).2
      · exact ih (fun f' hf' => hfs f' (mem_cons_of_mem _ hf')) hw

theorem due_away {s : State} {w : Wire} (hw : w ∈ due (away jumps id) s) : w.dst = id := by
  rw [due, mem_append, mem_append] at hw
  rcases hw with hw | hw | hw
  · refine framesDue_dst (fun f hf => ?_) hw
    obtain ⟨t, -, rfl⟩ := mem_map.1 hf
    exact ⟨rfl, rfl⟩
  · obtain ⟨e, -, src, -, rfl⟩ := mem_wiresTo.1 hw
    rfl
  · obtain ⟨e, -, src, -, rfl⟩ := mem_wiresTo.1 hw
    rfl

/-- Nodes and wires that belong together: the wires start at the nodes and end at them or at
targets. -/
structure Encloses (nodes : List Token) (first : Option Token)
    (wires : Exits → Target → List Wire) : Prop where
  first_mem : ∀ t, first = some t → t ∈ nodes
  ends : ∀ x next, ∀ w ∈ wires x next, w.src ∈ nodes.map (·.id) ∧
    (w.dst ∈ nodes.map (·.id) ∨ ∃ t ∈ next :: x.targets, w.dst = t.node)

theorem encloses_control (k : Control Token) : Encloses k.nodes k.first? k.wires :=
  ⟨fun _ ht => k.first?_mem ht, fun _ _ _ hw => Control.wire_ends hw⟩

namespace Lowers

variable {first : Option Token} {labels : List String} {nodes : List Token}
  {wires : Exits → Target → List Wire} {lost : List JumpTarget → List Token}

variable (h : Lowers first labels nodes wires lost pending out p q)
include h

theorem le : p.2.next ≤ q.2.next := by
  obtain ⟨planned, hgrows, -⟩ := h.balance
  exact hgrows.le

theorem fresh {id : Id} (hid : id ∈ nodes.map (·.id)) : p.2.next ≤ id := by
  obtain ⟨planned, hgrows, -⟩ := h.balance
  obtain ⟨t, ht, rfl⟩ := mem_map.1 hid
  exact hgrows.fresh t ht

theorem drawn (hends : Encloses nodes first wires) {w : Wire} (hw : w ∈ q.1.graph.wires) :
    w ∈ p.1.graph.wires ∨ w.dst ∈ nodes.map (·.id) ∧
      (w.src ∈ nodes.map (·.id) ∨ ∃ e ∈ pending, e.source = .node w.src) := by
  obtain ⟨planned, hgrows, hlaw⟩ := h.balance
  refine (hgrows.wires.mem_or_planned hw).imp_right fun hw => ?_
  -- Let everything lead to a place where the wire does not end.
  have hne : w.dst ≠ w.dst + 1 := Int.ne_of_lt (Int.lt_succ _)
  have hmem := (hlaw (away p.1.jumps (w.dst + 1)) ⟨w.dst + 1, none⟩ (matches_away _ _)).mem_iff.1
    (mem_append_left _ hw)
  rw [mem_append, mem_append] at hmem
  rcases hmem with hmem | hmem | hmem
  · exact absurd (due_away hmem) hne
  · obtain ⟨e, he, src, hsource, hwire⟩ := mem_wiresTo.1 hmem
    have hsrc : w.src = src := congrArg Wire.src hwire
    refine ⟨?_, .inr ⟨e, he, hsrc ▸ hsource⟩⟩
    cases hfirst : first with
    | none =>
      rw [hfirst] at hwire
      exact absurd (congrArg Wire.dst hwire) hne
    | some t =>
      rw [hfirst] at hwire
      have hdst : w.dst = t.id := congrArg Wire.dst hwire
      exact hdst ▸ mem_map_of_mem (hends.first_mem t hfirst)
  · obtain ⟨hsrc, hdst | ⟨t, ht, hdst⟩⟩ := hends.ends _ _ w hmem
    · exact ⟨hdst, .inl hsrc⟩
    · rcases mem_cons.1 ht with rfl | ht
      · exact absurd hdst hne
      · exact absurd (hdst.trans (node_away ht)) hne

theorem opens (hends : Encloses nodes first wires) {e : OpenEdge} (he : e ∈ out) {src : Id}
    (hsource : e.source = .node src) : e ∈ pending ∨ src ∈ nodes.map (·.id) := by
  obtain ⟨planned, hgrows, hlaw⟩ := h.balance
  -- Let it go on at a place of its own, and all jumps lead to another one.
  have hmem := (hlaw (away p.1.jumps p.2.next) ⟨p.2.next + 1, none⟩ (matches_away _ _)).mem_iff.1
    (mem_append_right _ (mem_append_right _ (mem_wiresTo.2 ⟨e, he, src, hsource, rfl⟩)))
  rw [mem_append, mem_append] at hmem
  rcases hmem with hmem | hmem | hmem
  · exact absurd (due_away hmem).symm (Int.ne_of_lt (Int.lt_succ _))
  · obtain ⟨e', he', src', hsource', hwire⟩ := mem_wiresTo.1 hmem
    obtain ⟨hsrc, -, hsort, -⟩ := Wire.mk.inj hwire
    have heq : e = e' := by
      obtain ⟨source, sort⟩ := e
      obtain ⟨source', sort'⟩ := e'
      simp only at hsource hsource' hsort
      rw [hsource, hsource', hsrc, hsort]
    exact .inl (heq ▸ he')
  · exact .inr (hends.ends _ _ _ hmem).1

end Lowers

theorem SameParked.due_eq (h : SameParked p q) (x : Exits) : due x q.1 = due x p.1 := by
  simp only [due, h.jumps_eq, h.returns_eq, h.throws_eq]

theorem SameParked.shapesOf_eq (h : SameParked p q) : shapesOf q = shapesOf p := by
  rw [shapesOf, h.jumps_eq, shapesOf]

theorem Laid.sane (hp : Sane p) (h : Laid l pending p q) : Sane q :=
  hp.grow h.grows h.sameParked

theorem Laid.mem_nodeIds {l : Line Token} (h : Laid l pending p q) {id : Id} :
    id ∈ q.1.graph.nodeIds ↔ id ∈ p.1.graph.nodeIds ∨ id ∈ l.all.map (·.id) :=
  h.grows.mem_nodeIds

theorem Laid.node_mem (h : Laid l pending p q) : l.node.id ∈ q.1.graph.nodeIds :=
  h.mem_nodeIds.2 (.inr (by simp [Line.all]))

theorem forget_nil_shape (ts : List JumpTarget) : ts.map (fun t => (t.forget []).shape) = ts.map shape := by
  simp

theorem Lowered.skip (hp : Sane p) : Lowered .skip pending pending p p where
  sane := hp
  settles := .refl _ _
  shapes := (forget_nil_shape _).symm
  passed := fun _ => ⟨[], .nil, (append_nil _).symm⟩
  anchored := fun h => absurd rfl h
  balance := ⟨[], .refl hp.fit, fun x next _ => by simp [Control.wires, Control.first?, entryOf]⟩
  reports := (append_nil _).symm

theorem Lowered.line (hp : Sane p) (h : Laid l pending p q) :
    Lowered (.line l) pending (onward l.node.id) p q where
  sane := h.sane hp
  settles := h.settles
  shapes := by
    rw [Control.labels, forget_nil_shape, h.kept]
  passed := fun hnone => by simp [Control.first?] at hnone
  anchored := fun _ => Anchored.onward_iff.2 h.node_mem
  balance := by
    refine ⟨_, h.grows, fun x next _ => ?_⟩
    rw [h.sameParked.due_eq]
    refine perm_iff_count.2 fun w => ?_
    simp only [Control.wires, Control.first?, entryOf_some, wiresTo_onward, count_append]
    omega
  reports := h.reports.trans (append_nil _).symm

theorem Lowered.seq {a b : Control Token} (h : Lowered a pending mid p q)
    (h' : Lowered b mid out q r) : Lowered (.seq a b) pending out p r :=
  Lowers.seq h h'

theorem Lowered.branch {a b : Control Token} {yes no : Pending} {u : State × Trail} (h : Laid l pending p q)
    (ha : Lowered a [leave l.node.id .true] yes q r) (hb : Lowered b [leave l.node.id .false] no r u) :
    Lowered (.branch l a b) pending (yes ++ no) p u := by
  have hanchor : ∀ sort, Anchored q.1.graph [leave l.node.id sort] := fun sort => by
    simpa using h.node_mem
  have hanchor' : Anchored r.1.graph [leave l.node.id .false] :=
    (hanchor .false).mono ha.subset
  have hq := h.sameParked
  obtain ⟨planned, hgrows, hlaw⟩ := ha.balance
  obtain ⟨planned', hgrows', hlaw'⟩ := hb.balance
  refine ⟨hb.sane, ?_, ?_, fun hnone => by simp [Control.first?] at hnone, fun _ => ?_, ?_, ?_⟩
  · exact (h.settles.andAnchored ha.settles (hanchor _)).andAnchored hb.settles hanchor'
  · rw [← hq.jumps_eq]
    exact shapes_trans ha.shapes hb.shapes
  · exact Anchored.append_iff.2 ⟨(ha.anchor (hanchor _)).mono hb.subset, hb.anchor hanchor'⟩
  · refine ⟨_, h.grows.trans (hgrows.trans hgrows'), fun x next hx => ?_⟩
    have hx' : Matches x q.1.jumps := hq.jumps_eq ▸ hx
    refine perm_iff_count.2 fun w => ?_
    have c₁ := (hlaw x next hx').count_eq w
    have c₂ := (hlaw' (x.forget a.labels) next (hx'.forget ha.shapes)).count_eq w
    simp only [due_forget, hq.due_eq, wiresTo_leave, wiresTo_nil, wiresTo_append, entry_eq,
      Control.first?, Control.wires, entryOf_some] at c₁ c₂ ⊢
    simp only [count_append, count_cons, count_nil] at c₁ c₂ ⊢
    omega
  · rw [hb.reports, ha.reports, h.reports, shapesOf_forget ha.shapes, hq.shapesOf_eq, strays,
      elementsOf_append, append_assoc]

/-! ## Jumps -/

/-- A jump was parked with its target. -/
structure Parks (j : Jump) (node : Id) (p q : State × Trail) : Prop where
  sane : Sane q
  kept : q.1 = { p.1 with
    jumps := q.1.jumps, returns := q.1.returns, throws := q.1.throws, unresolved := q.1.unresolved }
  next : q.2.next = p.2.next
  shapes : q.1.jumps.map shape = p.1.jumps.map shape
  due_perm : ∀ x, Matches x p.1.jumps →
    (due x q.1).Perm (due x p.1 ++ ((x.resolve j).map (·.wire node .true)).toList)

theorem Parks.nowhere {j : Jump} (hp : Sane p) {unresolved : List Tree} {log : List Notice}
    (hj : ∀ x, Matches x p.1.jumps → x.resolve j = none) :
    Parks j node p ({ p.1 with unresolved }, { p.2 with log }) := by
  refine ⟨⟨hp.fit, hp.breaks, hp.continues, hp.loops, hp.returns, hp.throws⟩, rfl, rfl, rfl, ?_⟩
  intro x hx
  rw [hj x hx]
  simp [due]

/-- A jump is parked with the first target that takes it. -/
theorem Parks.first {j : Jump} {ok : JumpTarget → Bool} {change : JumpTarget → JumpTarget}
    (wire : Frame → Wire)
    (hp : Sane p) (hok : ∀ t : JumpTarget, ok t.shape = ok t) (hshape : ∀ t, (change t).shape = t.shape)
    (hbreaks : ∀ t, Anchored p.1.graph t.breaks → Anchored p.1.graph (change t).breaks)
    (hcontinues : ∀ t, Anchored p.1.graph t.continues → Anchored p.1.graph (change t).continues)
    (hloops : ∀ t ∈ p.1.jumps, p.1.jumps.find? ok = some t → (change t).kind ≠ .loop →
      (change t).continues = [])
    (hdue : ∀ f t, (frameDue f (change t)).Perm (frameDue f t ++ [wire f]))
    (hresolve : ∀ x, Matches x p.1.jumps →
      (x.resolve j).map (·.wire node .true) = (x.frames.find? fun f => ok f.shape).map wire) :
    Parks j node p ({ p.1 with jumps := changeFirst ok change p.1.jumps }, p.2) := by
  refine ⟨⟨hp.fit, ?_, ?_, ?_, hp.returns, hp.throws⟩, rfl, rfl, map_shape_changeFirst hshape _, ?_⟩
  · exact forall_changeFirst hp.breaks fun t ht _ => hbreaks t (hp.breaks t ht)
  · exact forall_changeFirst hp.continues fun t ht _ => hcontinues t (hp.continues t ht)
  · exact forall_changeFirst hp.loops hloops
  · intro x hx
    rw [hresolve x hx]
    refine perm_iff_count.2 fun w => ?_
    have hcount := (framesDue_changeFirst wire hok hdue hx).count_eq w
    simp only [due, count_append] at hcount ⊢
    omega

/-- A jump was parked, and one that found no target may be reported. -/
structure Parked (j : Jump) (node : Id) (p : State × Trail) (found : Bool) (q : State × Trail) : Prop where
  parks : Parks j node p q
  found_eq : found = finds (shapesOf p) j
  unresolved_eq : q.1.unresolved = p.1.unresolved
  lost : found = false → ∀ unresolved log, Parks j node p ({ q.1 with unresolved }, { q.2 with log })

/-- A break is parked, or nothing takes it. -/
theorem ends_jumpBreak (label : Option String) (hp : Sane p) (hnode : node ∈ p.1.graph.nodeIds) :
    Returns (jumpBreak label node) p (Parked (.breakTo label) node p) := by
  have hok : ∀ t : JumpTarget, takesBreak label t.shape = takesBreak label t := fun t => rfl
  have hfinds : finds (shapesOf p) (.breakTo label) = p.1.jumps.any (takesBreak label) := by
    simp only [finds, shapesOf, any_map]
    rfl
  simp only [jumpBreak, ends_bind, ends_state]
  by_cases hfound : p.1.jumps.any (takesBreak label) = true
  · simp only [hfound]
    refine ⟨?_, (hfinds.trans hfound).symm, rfl, fun h => by cases h⟩
    refine .first (fun f => f.breaks.wire node .true) hp hok (fun t => rfl) ?_
      (by simp [addBreak]) ?_ ?_ ?_
    · simp [addBreak, hnode]
    · exact fun t ht _ hkind => hp.loops t ht hkind
    · intro f t
      simp only [frameDue, addBreak, wiresTo_append, append_assoc]
      exact (perm_append_comm).append_left _
    · intro x hx
      simp only [Exits.resolve, Option.map_map]
      rfl
  · simp only [hfound]
    have hnone : ∀ x, Matches x p.1.jumps → x.resolve (.breakTo label) = none := by
      intro x hx
      have hmatch := find?_matches hok hx
      have hjumps : p.1.jumps.find? (takesBreak label) = none := by
        simpa using hfound
      rw [hjumps, Option.map_none, Option.map_eq_none_iff] at hmatch
      simp only [Exits.resolve, hmatch, Option.map_none]
    exact ⟨.nowhere hp hnone, by simp [hfinds, hfound], rfl, fun _ _ _ => .nowhere hp hnone⟩

/-- A continue is parked, or what takes it is no loop. -/
theorem ends_jumpContinue (label : Option String) (hp : Sane p) (hnode : node ∈ p.1.graph.nodeIds) :
    Returns (jumpContinue label node) p (Parked (.continueTo label) node p) := by
  have hok : ∀ t : JumpTarget, takesContinue label t.shape = takesContinue label t := fun t => rfl
  have hfinds : finds (shapesOf p) (.continueTo label) =
      (p.1.jumps.find? (takesContinue label)).any (·.kind = .loop) := by
    simp only [finds, shapesOf, find?_map, Option.any_map]
    rfl
  simp only [jumpContinue, ends_bind, ends_state]
  by_cases hfound : (p.1.jumps.find? (takesContinue label)).any (·.kind = .loop) = true
  · simp only [hfound]
    obtain ⟨t, hfind, hkind⟩ : ∃ t, p.1.jumps.find? (takesContinue label) = some t ∧ t.kind = .loop := by
      cases hfind : p.1.jumps.find? (takesContinue label) with
      | none => simp [hfind] at hfound
      | some t => exact ⟨t, rfl, by simpa [hfind] using hfound⟩
    refine ⟨?_, (hfinds.trans hfound).symm, rfl, fun h => by cases h⟩
    refine .first (fun f => f.continues.wire node .true) hp hok (fun t => rfl)
      (by simp [addContinue]) ?_ ?_ ?_ ?_
    · simp [addContinue, hnode]
    · intro t' _ hfind' hkind'
      rw [hfind, Option.some.injEq] at hfind'
      exact absurd (hfind' ▸ hkind) hkind'
    · intro f t
      simp only [frameDue, addContinue, wiresTo_append, append_assoc]
      exact .refl _
    · intro x hx
      have hmatch := find?_matches hok hx
      rw [hfind] at hmatch
      obtain ⟨f, hf, hshape⟩ := Option.map_eq_some_iff.1 hmatch
      have hloop : f.kind = .loop := (congrArg JumpTarget.kind hshape).trans hkind
      simp [Exits.resolve, hf, hloop]
  · simp only [hfound]
    have hnone : ∀ x, Matches x p.1.jumps → x.resolve (.continueTo label) = none := by
      intro x hx
      have hmatch := find?_matches hok hx
      cases hfind : p.1.jumps.find? (takesContinue label) with
      | none =>
        rw [hfind, Option.map_none, Option.map_eq_none_iff] at hmatch
        simp [Exits.resolve, hmatch]
      | some t =>
        rw [hfind] at hmatch
        obtain ⟨f, hf, hshape⟩ := Option.map_eq_some_iff.1 hmatch
        have hkind : f.kind = t.kind := congrArg JumpTarget.kind hshape
        have hloop : t.kind ≠ .loop := by simpa [hfind] using hfound
        simp [Exits.resolve, hf, hkind, hloop]
    exact ⟨.nowhere hp hnone, by simp [hfinds, hfound], rfl, fun _ _ _ => .nowhere hp hnone⟩

theorem parks_leaving (hp : Sane p) (hnode : node ∈ p.1.graph.nodeIds) :
    Parks .returning node p ({ p.1 with returns := p.1.returns ++ onward node }, p.2) ∧
      Parks .throwing node p ({ p.1 with throws := p.1.throws ++ onward node }, p.2) := by
  have hadd : ∀ {edges}, Anchored p.1.graph edges → Anchored p.1.graph (edges ++ onward node) := fun h =>
    Anchored.append_iff.2 ⟨h, Anchored.onward_iff.2 hnode⟩
  refine ⟨⟨⟨hp.fit, hp.breaks, hp.continues, hp.loops, hadd hp.returns, hp.throws⟩, rfl, rfl, rfl, ?_⟩,
    ⟨⟨hp.fit, hp.breaks, hp.continues, hp.loops, hp.returns, hadd hp.throws⟩, rfl, rfl, rfl, ?_⟩⟩
  all_goals
    intro x _
    refine perm_iff_count.2 fun w => ?_
    simp only [due, wiresTo_append, wiresTo_onward, Exits.resolve, Option.map_some, Option.toList_some,
      count_append]
    omega

/-- One edge goes where the jump is parked, one falls through. -/
theorem Lowered.jump {j : Jump} (h : Laid l pending p q) (hparks : Parks j l.node.id q r)
    (hreports : lostJumps r.1.unresolved =
      lostJumps q.1.unresolved ++ elementsOf (if finds (shapesOf q) j then [] else [l.node])) :
    Lowered (.jump l j) pending [leave l.node.id .fallThrough] p r := by
  have hgraph : r.1.graph = q.1.graph := by rw [hparks.kept]
  have hheads : r.1.heads = q.1.heads := by rw [hparks.kept]
  have hq := h.sameParked
  refine ⟨hparks.sane, ?_, ?_, fun hnone => by simp [Control.first?] at hnone, fun _ => ?_, ?_, ?_⟩
  · rw [hheads]
    exact h.settles
  · rw [hparks.shapes, Control.labels, forget_nil_shape, hq.jumps_eq]
  · rw [hgraph]
    simpa using h.node_mem
  · refine ⟨wiresTo pending l.first.target ++ links l.all, ?_, fun x next hx => ?_⟩
    · rw [hgraph, hparks.next]
      exact h.grows
    · refine perm_iff_count.2 fun w => ?_
      have hdue := (hparks.due_perm x (hq.jumps_eq ▸ hx)).count_eq w
      simp only [hq.due_eq, wiresTo_leave, wiresTo_nil, Control.first?, Control.wires, entryOf_some]
        at hdue ⊢
      simp only [count_append, count_cons, count_nil] at hdue ⊢
      omega
  · rw [hreports, h.reports, hq.shapesOf_eq, strays]

end Lowering

end ProgramDependence
