import ProgramDependence.Proofs.Placement

/-!
# Runs are walks

A run of structured control is a walk along its wires, fall-through wires apart: it starts at the
first node, leaves the nodes it executes, and arrives where its outcome leads.  And every such walk
that comes out of placed control is a run of it.

Labels have to be apart: no labelled statement is inside one of the same label.  Otherwise a jump
would find its target by the order in which statements are lowered.
-/

namespace ProgramDependence

open List Outcome Control Line Target Frame Exits

/-! ## Labels that are apart -/

mutual

/-- Whether no labelled part is inside one of the same label. -/
def Control.apart {α : Type} : Control α → Bool
  | .skip | .line _ | .jump _ _ => true
  | .seq a b | .branch _ a b => a.apart && b.apart
  | .loop label _ body _ | .doLoop label body _ => !label.any body.labels.contains && body.apart
  | .switch _ arms => arms.apart
  | .labeled l body => !body.labels.contains l && body.apart

def Arms.apart {α : Type} : Arms α → Bool
  | .nil => true
  | .guard _ body rest | .default _ body rest => body.apart && rest.apart

end

namespace Exits

variable {x : Exits} {labels labels' : List String} {next next' : Target} {o : Outcome}

/-- No frame has one of some labels. -/
def Clear (x : Exits) (labels : List String) : Prop :=
  ∀ f ∈ x.frames, f.label.any labels.contains = false

theorem Clear.mono (h : x.Clear labels) (hsub : labels' ⊆ labels) : x.Clear labels' := by
  intro f hf
  have hlabel := h f hf
  cases hl : f.label with
  | none => rfl
  | some l =>
    simp only [hl, Option.any_some, contains_eq_mem, decide_eq_false_iff_not] at hlabel ⊢
    exact fun hmem => hlabel (hsub hmem)

theorem forget_eq (h : x.Clear labels) : x.forget labels = x := by
  have hframes : (x.frames.map fun f => if f.label.any labels.contains then { f with label := none } else f)
      = x.frames.map id :=
    map_congr_left fun f hf => by simp [h f hf]
  rw [forget, hframes, map_id]

theorem Clear.push {f : Frame} (h : x.Clear labels) (hf : f.label.any labels.contains = false) :
    (x.push f).Clear labels :=
  forall_mem_cons.2 ⟨hf, h⟩

/-- Where a run leads by its outcome; a jump may lead nowhere. -/
def dest (x : Exits) (next : Target) : Outcome → Option Target
  | .normal => some next
  | .jumped j => x.resolve j

theorem dest_of_ne (ho : o ≠ .normal) : x.dest next o = x.dest next' o := by
  cases o with
  | normal => exact absurd rfl ho
  | jumped j => rfl

section Frames

variable {label : Option String} {cont : Target}

theorem dest_resumes (ho : o.resumes label = true) :
    (x.push ⟨.loop, label, next, cont⟩).dest cont o = some cont := by
  rcases o with _ | (l | l | _ | _)
  · rfl
  · cases l <;> simp [resumes] at ho
  · cases l with
    | none => rfl
    | some l =>
      obtain rfl : label = some l := by simpa [resumes] using ho
      simp [dest, resolve, push, Lowering.takesContinue, shape]
  · simp [resumes] at ho
  · simp [resumes] at ho

theorem dest_ends (ho : o.ends label = true) :
    (x.push ⟨.loop, label, next, cont⟩).dest cont o = some next := by
  rcases o with _ | (l | l | _ | _)
  · simp [ends] at ho
  · cases l with
    | none => rfl
    | some l =>
      obtain rfl : label = some l := by simpa [ends] using ho
      simp [dest, resolve, push, Lowering.takesBreak, shape]
  · simp [ends] at ho
  · simp [ends] at ho
  · simp [ends] at ho

/-- What a loop does not take goes where it would outside. -/
theorem dest_passes (hgoes : o.resumes label = false) (hstays : o.ends label = false) :
    (x.push ⟨.loop, label, next, cont⟩).dest cont o = x.dest next o := by
  rcases o with _ | (l | l | _ | _)
  · simp [resumes] at hgoes
  · cases l with
    | none => simp [ends] at hstays
    | some l =>
      have hne : label ≠ some l := by simpa [ends] using hstays
      simp [dest, resolve, push, Lowering.takesBreak, shape, hne]
  · cases l with
    | none => simp [resumes] at hgoes
    | some l =>
      have hne : label ≠ some l := by simpa [resumes] using hgoes
      simp [dest, resolve, push, Lowering.takesContinue, shape, hne]
  · rfl
  · rfl

theorem dest_switch : (x.push ⟨.switch, none, next, next⟩).dest next o =
    if o.ends none then some next else x.dest next o := by
  rcases o with _ | (l | l | _ | _)
  · rfl
  · cases l with
    | none => rfl
    | some l => simp [ends, dest, resolve, push, Lowering.takesBreak, shape]
  · cases l <;> simp [ends, dest, resolve, push, Lowering.takesContinue, shape]
  · rfl
  · rfl

/-- A break that names the label goes on behind it. -/
theorem dest_labeled {l : String} (h : x.Clear [l]) :
    (x.push ⟨.label, some l, next, next⟩).dest next o =
    if o.endsLabeled l then some next else x.dest next o := by
  rcases o with _ | (l' | l' | _ | _)
  · rfl
  · cases l' with
    | none => simp [endsLabeled, dest, resolve, push, Lowering.takesBreak, shape]
    | some l' =>
      by_cases hl : l' = l
      · subst hl
        simp [endsLabeled, dest, resolve, push, Lowering.takesBreak, shape]
      · simp [endsLabeled, dest, resolve, push, Lowering.takesBreak, shape, hl, Ne.symm hl]
  · cases l' with
    | none => simp [endsLabeled, dest, resolve, push, Lowering.takesContinue, shape]
    | some l' =>
      by_cases hl : l' = l
      · subst hl
        have hnone : x.frames.find? (fun f => Lowering.takesContinue (some l') f.shape) = none := by
          rw [find?_eq_none]
          intro f hf hlabel
          have hclear := h f hf
          simp [(of_decide_eq_true hlabel : f.label = some l')] at hclear
        have houter : x.dest next (.jumped (.continueTo (some l'))) = none := by
          rw [dest, resolve, hnone, Option.bind_none]
        rw [houter]
        simp [endsLabeled, dest, resolve, push, Lowering.takesContinue, shape]
      · simp [endsLabeled, dest, resolve, push, Lowering.takesContinue, shape, Ne.symm hl]
  · rfl
  · rfl

end Frames

end Exits

/-! ## From runs to walks -/

/-- A step along a wire that is no fall-through wire. -/
def Flows (W : List Wire) (a b : Id) : Prop :=
  ∃ w ∈ W, w.sort ≠ .fallThrough ∧ w.src = a ∧ w.dst = b

section Walks

variable {W : List Wire}

theorem Target.flows {t : Target} {src : Id} {sort : FlowSort} (hsort : sort ≠ .fallThrough)
    (h : t.wire src sort ∈ W) : Flows W src t.node :=
  ⟨_, h, hsort, rfl, rfl⟩

theorem Line.walk_before (l : Line Token) (h : links l.all ⊆ W) :
    Walk (Flows W) l.first.id (l.before.map (·.id)) l.node.id := by
  obtain ⟨before, node⟩ := l
  induction before with
  | nil => exact .stay _
  | cons t ts ih =>
    obtain ⟨rest, hrest⟩ := exists_all_eq ⟨ts, node⟩
    have hall : (mk (t :: ts) node).all = t :: (mk ts node).all := rfl
    rw [hall, hrest, links, ← hrest, cons_subset] at h
    exact .go ⟨_, h.1, by simp, rfl, rfl⟩ (ih h.2)

theorem Line.ids_eq (l : Line Token) : l.ids = l.before.map (·.id) ++ [l.node.id] :=
  map_append

theorem Line.walk_ids {l : Line Token} {m : Id} (h : links l.all ⊆ W) (hm : Flows W l.node.id m) :
    Walk (Flows W) l.first.id l.ids m := by
  rw [ids_eq]
  exact (l.walk_before h).append (.go hm (.stay m))

theorem linesWires_walk {ls : List (Line Token)} {next : Target} (h : linesWires ls next ⊆ W) :
    Walk (Flows W) (linesEntry ls next).node (ls.flatMap Line.ids) next.node := by
  induction ls with
  | nil => exact .stay _
  | cons l ls ih =>
    simp only [linesWires, append_subset, cons_subset] at h
    exact (Line.walk_ids h.1 (flows (by simp) h.2.1)).append (ih h.2.2)

end Walks

namespace Behavior

variable {W : List Wire} {x : Exits} {next : Target} {start mid : Id} {r s : Behavior Token}

/-- Every run is a walk from `start` to where its outcome leads. -/
def Walks (W : List Wire) (x : Exits) (next : Target) (start : Id) (r : Behavior Token) : Prop :=
  ∀ xs o t, r xs o → x.dest next o = some t → Walk (Flows W) start (xs.map (·.id)) t.node

variable {xs : List Token}

theorem Walks.exactly {o : Outcome}
    (h : ∀ t, x.dest next o = some t → Walk (Flows W) start (xs.map (·.id)) t.node) :
    (exactly xs o).Walks W x next start := by
  rintro _ _ t ⟨rfl, rfl⟩ ht
  exact h t ht

theorem Walks.after (hxs : Walk (Flows W) start (xs.map (·.id)) mid) (h : r.Walks W x next mid) :
    (after xs r).Walks W x next start := by
  rintro _ o t ⟨zs, rfl, hr⟩ ht
  rw [map_append]
  exact hxs.append (h zs o t hr ht)

theorem Walks.seq {mid : Target} (hr : r.Walks W x mid start) (hs : s.Walks W x next mid.node) :
    (r.seq s).Walks W x next start := by
  rintro xs o t (⟨ys, zs, rfl, hys, hzs⟩ | ⟨hxs, ho⟩) ht
  · rw [map_append]
    exact (hr ys .normal mid hys rfl).append (hs zs o t hzs ht)
  · exact hr xs o t hxs ((dest_of_ne ho).trans ht)

theorem catching_dest {f : Frame} {caught : Outcome → Bool} {o : Outcome}
    (hdest : ∀ o, (x.push f).dest next o = if caught o then some next else x.dest next o)
    (h : catching caught r xs o) : ∃ o', r xs o' ∧ (x.push f).dest next o' = x.dest next o := by
  rcases h with ⟨hr, ho⟩ | ⟨rfl, o', hr, ho'⟩
  · exact ⟨o, hr, by simp [hdest, ho]⟩
  · exact ⟨o', hr, by rw [hdest, if_pos ho', dest]⟩

/-- The rounds of a loop are walks. -/
theorem Walks.rounds {label : Option String} {cont : Target} {enter : Id} {pre : List Token}
    {test : Token} (hstop : Flows W test.id next.node) (henter : Flows W test.id enter)
    (honward : Walk (Flows W) cont.node (pre.map (·.id)) test.id)
    (hbody : r.Walks W (x.push ⟨.loop, label, next, cont⟩) cont enter) {p : Position} {o : Outcome}
    (h : Rounds r label (pre ++ [test]) p xs o) {t : Target} (ht : x.dest next o = some t) :
    match p with
    | .tested => Walk (Flows W) test.id (test.id :: xs.map (·.id)) t.node
    | .entered => Walk (Flows W) enter (xs.map (·.id)) t.node := by
  induction h with
  | stop =>
    obtain rfl : next = t := Option.some.inj ht
    exact .go hstop (.stay _)
  | enter _ ih => exact .go henter (ih ht)
  | resume run resumes _ ih =>
    have hround := hbody _ _ cont run (dest_resumes resumes)
    simpa using hround.append (honward.append (ih ht))
  | leave run ends =>
    obtain rfl : next = t := Option.some.inj ht
    exact hbody _ _ next run (dest_ends ends)
  | pass run goes stays => exact hbody _ _ t run ((dest_passes goes stays).trans ht)

end Behavior

theorem Arms.hasDefault_iff : ∀ arms : Arms Token, arms.hasDefault = true ↔ arms.defaults ≠ []
  | .guard _ _ rest => rest.hasDefault_iff
  | .nil | .default _ _ _ => by simp [Arms.hasDefault, Arms.defaults]

theorem Arms.missed_default (n : Token) (body : Control Token) (rest : Arms Token) (next : Target) :
    (Arms.default n body rest).missed next = if rest.hasDefault then rest.missed next else n.target := by
  by_cases h : rest.hasDefault = true
  · rw [if_pos h, Arms.missed, Arms.missed, Arms.defaults, getLast?_cons_of_ne_nil (rest.hasDefault_iff.1 h)]
  · have hnil : rest.defaults = [] := by simpa using mt rest.hasDefault_iff.2 h
    rw [if_neg h, Arms.missed, Arms.defaults, hnil]
    rfl

theorem Arms.guards_walk {W : List Wire} (missed : Target) : ∀ (arms : Arms Token) (x : Exits)
    (next : Target), arms.wires x next missed ⊆ W →
      Walk (Flows W) (arms.guardEntry missed).node (arms.guards.map (·.id)) missed.node
  | .nil, _, _, _ => .stay _
  | .guard t body rest, _, next, hsub => by
    simp only [Arms.wires, append_subset, cons_subset] at hsub
    rw [Arms.guards, map_append]
    exact (walk_ids hsub.1 (flows (by simp) hsub.2.2.1)).append
      (rest.guards_walk missed _ next hsub.2.2.2.2)
  | .default n body rest, _, next, hsub => by
    simp only [Arms.wires, append_subset, cons_subset] at hsub
    exact rest.guards_walk missed _ next hsub.2.2

mutual

/-- **Every run is a walk.**  A run starts at the first node and ends where its outcome leads. -/
theorem Control.runs_walk {W : List Wire} : ∀ (k : Control Token) (x : Exits) (next : Target),
    k.wires x next ⊆ W → k.apart = true → x.Clear k.labels → k.runs.Walks W x next (k.entry next).node
  | .skip, x, next, _, _, _ => by
    refine .exactly fun t ht => ?_
    obtain rfl : next = t := Option.some.inj ht
    exact .stay _
  | .seq a b, x, next, hsub, hapart, hclear => by
    rw [wires, append_subset] at hsub
    rw [apart, Bool.and_eq_true] at hapart
    have hleft : x.Clear a.labels := hclear.mono (subset_append_left _ _)
    rw [forget_eq hleft] at hsub
    rw [entry_seq]
    exact .seq (a.runs_walk x _ hsub.1 hapart.1 hleft)
      (b.runs_walk x next hsub.2 hapart.2 (hclear.mono (subset_append_right _ _)))
  | .line l, x, next, hsub, _, _ => by
    simp only [wires, append_subset, cons_subset] at hsub
    refine .exactly fun t ht => ?_
    obtain rfl : next = t := Option.some.inj ht
    exact Line.walk_ids hsub.1 (flows (by simp) hsub.2.1)
  | .jump l j, x, next, hsub, _, _ => by
    simp only [wires, append_subset, cons_subset] at hsub
    refine .exactly fun t ht => ?_
    have hwire : t.wire l.node.id .true ∈ ((x.resolve j).map (·.wire l.node.id .true)).toList := by
      have hresolve : x.resolve j = some t := ht
      rw [hresolve]
      simp
    exact Line.walk_ids hsub.1 (flows (by simp) (hsub.2.2 hwire))
  | .branch l a b, x, next, hsub, hapart, hclear => by
    simp only [wires, append_subset, cons_subset] at hsub
    rw [apart, Bool.and_eq_true] at hapart
    have hleft : x.Clear a.labels := hclear.mono (subset_append_left _ _)
    rw [forget_eq hleft] at hsub
    obtain ⟨hlinks, hyes, hno, ha, hb⟩ := hsub
    rintro _ o t ⟨zs, rfl, hruns⟩ ht
    rw [map_append]
    rcases hruns with hruns | hruns
    · exact (Line.walk_ids hlinks (flows (by simp) hyes)).append
        (a.runs_walk x next ha hapart.1 hleft zs o t hruns ht)
    · exact (Line.walk_ids hlinks (flows (by simp) hno)).append
        (b.runs_walk x next hb hapart.2 (hclear.mono (subset_append_right _ _)) zs o t hruns ht)
  | .loop label l body update, x, next, hsub, hapart, hclear => by
    simp only [wires, append_subset, cons_subset] at hsub
    simp only [apart, Bool.and_eq_true, Bool.not_eq_true'] at hapart
    obtain ⟨hlinks, henter, hstop, hbody, hupdate⟩ := hsub
    have hwalks := body.runs_walk _ _ hbody hapart.2
      ((hclear.mono (subset_append_left _ _)).push hapart.1)
    have honward : Walk (Flows W) (linesEntry update ⟨l.first.id, some l.node.id⟩).node
        ((update.flatMap Line.all ++ l.before).map (·.id)) l.node.id := by
      rw [map_append, map_flatMap]
      exact (linesWires_walk hupdate).append (l.walk_before hlinks)
    rintro _ o t ⟨zs, rfl, hrounds⟩ ht
    rw [Line.all, ← append_assoc] at hrounds
    have hwalk := Behavior.Walks.rounds (flows (by simp) hstop) (flows (by simp) henter)
      honward hwalks hrounds ht
    rw [Line.all, append_assoc, map_append]
    exact (l.walk_before hlinks).append hwalk
  | .doLoop label body l, x, next, hsub, hapart, hclear => by
    simp only [wires, append_subset, cons_subset] at hsub
    simp only [apart, Bool.and_eq_true, Bool.not_eq_true'] at hapart
    obtain ⟨hbody, hlinks, henter, hstop, -⟩ := hsub
    have hwalks := body.runs_walk _ _ hbody hapart.2
      ((hclear.mono (subset_append_left _ _)).push hapart.1)
    rw [entry_doLoop]
    intro xs o t hrounds ht
    exact Behavior.Walks.rounds (flows (by simp) hstop) ⟨_, henter, by simp, rfl, rfl⟩
      (l.walk_before hlinks) hwalks hrounds ht
  | .switch s arms, x, next, hsub, hapart, hclear => by
    simp only [wires, append_subset, cons_subset] at hsub
    obtain ⟨hlinks, hguard, hpast, harms⟩ := hsub
    obtain ⟨-, hhits, hfallback⟩ := arms.runs_walk _ next _ harms hapart (hclear.push rfl)
    rintro _ o t ⟨zs, rfl, hcatching⟩ ht
    obtain ⟨o', hruns, hdest⟩ := Behavior.catching_dest (fun _ => dest_switch) hcatching
    rw [ht] at hdest
    rw [map_append]
    rcases hruns with ⟨rfl, rfl⟩ | hruns | ⟨ys, rfl, hruns⟩
    · obtain rfl : next = t := Option.some.inj hdest
      exact (Line.walk_ids hlinks (flows (by simp) hpast)).append (.stay _)
    · exact (Line.walk_ids hlinks (flows (by simp) hguard)).append (hhits _ _ t hruns hdest)
    · rw [map_append]
      exact (Line.walk_ids hlinks (flows (by simp) hguard)).append
        ((arms.guards_walk _ _ next harms).append (hfallback _ _ t hruns hdest))
  | .labeled l body, x, next, hsub, hapart, hclear => by
    simp only [apart, Bool.and_eq_true, Bool.not_eq_true'] at hapart
    have hwalks := body.runs_walk _ next hsub hapart.2
      ((hclear.mono (subset_append_left _ _)).push hapart.1)
    intro xs o t hcatching ht
    obtain ⟨o', hruns, hdest⟩ := Behavior.catching_dest
      (fun _ => dest_labeled (hclear.mono (subset_append_right _ _))) hcatching
    exact hwalks xs o' t hruns (hdest.trans ht)

theorem Arms.runs_walk {W : List Wire} : ∀ (arms : Arms Token) (x : Exits) (next missed : Target),
    arms.wires x next missed ⊆ W → arms.apart = true → x.Clear arms.labels →
      arms.falls.Walks W x next (arms.bodyEntry next).node ∧
      arms.hits.Walks W x next (arms.guardEntry missed).node ∧
      arms.fallback.Walks W x next (arms.missed next).node
  | .nil, x, next, _, _, _, _ => by
    have hnothing : (Behavior.exactly [] .normal).Walks W x next next.node := by
      refine .exactly fun t ht => ?_
      obtain rfl : next = t := Option.some.inj ht
      exact .stay _
    exact ⟨hnothing, fun _ _ _ h => h.elim, hnothing⟩
  | .guard l body rest, x, next, missed, hsub, hapart, hclear => by
    simp only [Arms.wires, append_subset, cons_subset] at hsub
    rw [Arms.apart, Bool.and_eq_true] at hapart
    have hleft : x.Clear body.labels := hclear.mono (subset_append_left _ _)
    rw [forget_eq hleft] at hsub
    obtain ⟨hlinks, hyes, hno, hbody, hrest⟩ := hsub
    obtain ⟨hfalls, hhits, hfallback⟩ :=
      rest.runs_walk x next missed hrest hapart.2 (hclear.mono (subset_append_right _ _))
    have hhere := (body.runs_walk x _ hbody hapart.1 hleft).seq hfalls
    refine ⟨hhere, ?_, hfallback⟩
    rintro _ o t ⟨zs, rfl, hruns⟩ ht
    rw [map_append]
    rcases hruns with hruns | hruns
    · exact (walk_ids hlinks (flows (by simp) hyes)).append (hhere zs o t hruns ht)
    · exact (walk_ids hlinks (flows (by simp) hno)).append (hhits zs o t hruns ht)
  | .default n body rest, x, next, missed, hsub, hapart, hclear => by
    simp only [Arms.wires, append_subset, cons_subset] at hsub
    rw [Arms.apart, Bool.and_eq_true] at hapart
    have hleft : x.Clear body.labels := hclear.mono (subset_append_left _ _)
    rw [forget_eq hleft] at hsub
    obtain ⟨hnode, hbody, hrest⟩ := hsub
    obtain ⟨hfalls, hhits, hfallback⟩ :=
      rest.runs_walk x next missed hrest hapart.2 (hclear.mono (subset_append_right _ _))
    have hhere := (body.runs_walk x _ hbody hapart.1 hleft).seq hfalls
    refine ⟨hhere, hhits, ?_⟩
    rw [Arms.missed_default, Arms.fallback]
    split
    · exact hfallback
    · exact .after (.go (flows (by simp) hnode) (.stay _)) hhere

end

end ProgramDependence
