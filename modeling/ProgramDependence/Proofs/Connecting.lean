import ProgramDependence.Proofs.Visiting

/-!
# Open edges find their targets

`wiresTo` turns open edges into the wires they become at a target, and `Settles` says which first
nodes of do bodies become known.  The steps of lowering that draw edges do just this: `Connected`
for open edges at one target, `Laid` for a line of nodes.
-/

namespace ProgramDependence

open List

namespace Lowering

open Tracked Graph

/-! ## Open edges -/

/-- The wire an open edge becomes at a target; one that waits for the first node of a do body
becomes none. -/
def OpenEdge.wireTo? (t : Target) (e : OpenEdge) : Option Wire :=
  match e.source with
  | .node src => some (t.wire src e.sort)
  | .head _ => none

def wiresTo (pending : Pending) (t : Target) : List Wire :=
  pending.filterMap (·.wireTo? t)

@[simp] theorem wiresTo_nil (t : Target) : wiresTo [] t = [] := rfl

@[simp] theorem wiresTo_append (a b : Pending) (t : Target) :
    wiresTo (a ++ b) t = wiresTo a t ++ wiresTo b t :=
  filterMap_append

@[simp] theorem wiresTo_leave (node : Id) (sort : FlowSort) (a : Pending) (t : Target) :
    wiresTo (leave node sort :: a) t = t.wire node sort :: wiresTo a t := rfl

@[simp] theorem wiresTo_onward (node : Id) (t : Target) : wiresTo (onward node) t = [t.wire node .true] := rfl

variable {pending : Pending} {target : Id}

theorem mem_wiresTo {t : Target} {w : Wire} :
    w ∈ wiresTo pending t ↔ ∃ e ∈ pending, ∃ src, e.source = .node src ∧ w = t.wire src e.sort := by
  simp only [wiresTo, mem_filterMap]
  refine exists_congr fun e => and_congr_right fun _ => ?_
  obtain ⟨source, sort⟩ := e
  cases source with
  | node src => simp [OpenEdge.wireTo?, eq_comm]
  | head number => simp [OpenEdge.wireTo?]

/-- Open edges that start at nodes of a graph. -/
def Anchored (g : Graph) (pending : Pending) : Prop :=
  ∀ e ∈ pending, ∃ src ∈ g.nodeIds, e.source = .node src

/-- Whether an open edge waits for the first node of a do body. -/
def Waits (pending : Pending) (number : Nat) : Prop :=
  ∃ e ∈ pending, e.source = .head number

/-- Open edges that start at nodes of the graph or wait for a do body that was entered. -/
def Sound (s : State) (pending : Pending) : Prop :=
  ∀ e ∈ pending, (∃ src ∈ s.graph.nodeIds, e.source = .node src) ∨
    ∃ number, number < s.heads.length ∧ e.source = .head number

namespace Anchored

variable {g h : Graph} {a b : Pending}

@[simp] theorem nil : Anchored g [] := by
  simp [Anchored]

@[simp] theorem append_iff : Anchored g (a ++ b) ↔ Anchored g a ∧ Anchored g b := by
  simp only [Anchored, mem_append]
  constructor
  · exact fun h => ⟨fun e he => h e (.inl he), fun e he => h e (.inr he)⟩
  · rintro ⟨ha, hb⟩ e (he | he)
    · exact ha e he
    · exact hb e he

@[simp] theorem leave_iff {node : Id} {sort : FlowSort} :
    Anchored g (leave node sort :: a) ↔ node ∈ g.nodeIds ∧ Anchored g a := by
  simp [Anchored, leave]

@[simp] theorem onward_iff {node : Id} : Anchored g (onward node) ↔ node ∈ g.nodeIds := by
  simp [onward]

theorem mono (ha : Anchored g a) (hsub : g.nodeIds ⊆ h.nodeIds) : Anchored h a := by
  intro e he
  obtain ⟨src, hsrc, heq⟩ := ha e he
  exact ⟨src, hsub hsrc, heq⟩

theorem not_waits (ha : Anchored g a) (number : Nat) : ¬ Waits a number := by
  rintro ⟨e, he, heq⟩
  obtain ⟨src, -, heq'⟩ := ha e he
  rw [heq] at heq'
  cases heq'

theorem sound {s : State} (ha : Anchored s.graph a) : Sound s a :=
  fun e he => .inl (ha e he)

end Anchored

@[simp] theorem waits_append {a b : Pending} {number : Nat} :
    Waits (a ++ b) number ↔ Waits a number ∨ Waits b number := by
  simp [Waits, or_and_right, exists_or]

theorem Waits.of_perm {a b : Pending} (h : a.Perm b) {number : Nat} : Waits a number ↔ Waits b number := by
  simp only [Waits, h.mem_iff]

/-! ## First nodes of do bodies -/

/-- The first nodes of do bodies become known: those that open edges wait for, unless they are
known. Others stay as they are, and more bodies may have been entered. -/
structure Settles (pending : Pending) (first : Option Id) (heads heads' : List (Option Id)) : Prop where
  le : heads.length ≤ heads'.length
  waiting : ∀ i < heads.length, Waits pending i → heads'[i]? = heads[i]?.map (·.or first)
  others : ∀ i < heads.length, ¬ Waits pending i → heads'[i]? = heads[i]?

namespace Settles

variable {a b : Pending} {x y : Option Id} {hs hs' hs'' : List (Option Id)}

theorem refl (a : Pending) (hs : List (Option Id)) : Settles a none hs hs := by
  refine ⟨Nat.le_refl _, fun i _ _ => ?_, fun _ _ _ => rfl⟩
  simp

theorem idle (h : ∀ i < hs.length, ¬ Waits a i) : Settles a x hs hs :=
  ⟨Nat.le_refl _, fun i hi hw => absurd hw (h i hi), fun _ _ _ => rfl⟩

theorem append (h : Settles a x hs hs') (h' : Settles b x hs' hs'') : Settles (a ++ b) x hs hs'' := by
  have hlt : ∀ i < hs.length, i < hs'.length := fun i hi => Nat.lt_of_lt_of_le hi h.le
  refine ⟨Nat.le_trans h.le h'.le, ?_, ?_⟩
  · intro i hi hw
    by_cases ha : Waits a i <;> by_cases hb : Waits b i
    · rw [h'.waiting i (hlt i hi) hb, h.waiting i hi ha]
      cases hs[i]? with
      | none => rfl
      | some head => cases head <;> cases x <;> rfl
    · rw [h'.others i (hlt i hi) hb, h.waiting i hi ha]
    · rw [h'.waiting i (hlt i hi) hb, h.others i hi ha]
    · exact absurd (waits_append.1 hw) (by tauto)
  · intro i hi hw
    rw [waits_append, not_or] at hw
    rw [h'.others i (hlt i hi) hw.2, h.others i hi hw.1]

/-- Where no first node becomes known, all is as before. -/
theorem getElem?_eq (h : Settles b y hs hs') {i : Nat} (hi : i < hs.length)
    (hb : Waits b i → y = none) : hs'[i]? = hs[i]? := by
  by_cases hw : Waits b i
  · rw [h.waiting i hi hw, hb hw]
    simp
  · exact h.others i hi hw

theorem after (h : Settles b y hs hs') (hb : ∀ i < hs.length, Waits b i → y = none)
    (h' : Settles a x hs' hs'') : Settles a x hs hs'' := by
  have hlt : ∀ i < hs.length, i < hs'.length := fun i hi => Nat.lt_of_lt_of_le hi h.le
  have hsame := fun i hi => h.getElem?_eq hi (hb i hi)
  refine ⟨Nat.le_trans h.le h'.le, fun i hi hw => ?_, fun i hi hw => ?_⟩
  · rw [h'.waiting i (hlt i hi) hw, hsame i hi]
  · rw [h'.others i (hlt i hi) hw, hsame i hi]

theorem andThen (h : Settles a x hs hs') (h' : Settles b y hs' hs'')
    (hb : ∀ i < hs.length, Waits b i → y = none) : Settles a x hs hs'' := by
  have hlt : ∀ i < hs.length, i < hs'.length := fun i hi => Nat.lt_of_lt_of_le hi h.le
  have hsame := fun i hi => h'.getElem?_eq (hlt i hi) (hb i hi)
  refine ⟨Nat.le_trans h.le h'.le, fun i hi hw => ?_, fun i hi hw => ?_⟩
  · rw [hsame i hi, h.waiting i hi hw]
  · rw [hsame i hi, h.others i hi hw]

theorem andAnchored {g : Graph} (h : Settles a x hs hs') (h' : Settles b y hs' hs'')
    (hb : Anchored g b) : Settles a x hs hs'' :=
  h.andThen h' fun i _ hw => absurd hw (hb.not_waits i)

theorem congr (h : Settles a x hs hs') (hab : ∀ i, Waits a i ↔ Waits b i) : Settles b x hs hs' :=
  ⟨h.le, fun i hi hw => h.waiting i hi ((hab i).2 hw), fun i hi hw => h.others i hi fun ha => hw
    ((hab i).1 ha)⟩

end Settles

/-! ## Drawing edges -/

variable {p q r : State × Trail}

theorem ends_addFlow {src dst : Id} (hfit : p.1.graph.Fit p.2.next) (hsrc : src ∈ p.1.graph.nodeIds)
    (hdst : dst ∈ p.1.graph.nodeIds) {sort : FlowSort} (loop : Option Id)
    (hfree : ∀ w ∈ p.1.graph.wires, w.src = src → w.dst = dst →
      (w.sort = .fallThrough ↔ sort = .fallThrough)) :
    Returns (addFlow src dst sort loop) p fun _ q => q.1 = { p.1 with graph := q.1.graph } ∧
        Grows p.1.graph q.1.graph p.2.next q.2.next [] [⟨src, dst, sort, loop⟩] := by
  have hadd : p.1.graph.addEdge ⟨p.2.next, src, dst, .flow sort loop⟩ = .ok (_, true) :=
    addEdge_eq hfit.growing.unfrozen hfit.growing.not_mem hsrc hdst
  simp only [addFlow, ends_bind, ends_freshId, ends_attempt, hadd]
  exact ⟨rfl, .appendEdge hfit hsrc hdst loop hfree⟩

/-- No fall-through wire to a target starts where an open edge of another sort does. -/
def Clear (g : Graph) (pending : Pending) (target : Id) : Prop :=
  ∀ w ∈ g.wires, w.sort = .fallThrough → w.dst = target →
    ∀ e ∈ pending, e.source = .node w.src → e.sort = .fallThrough

theorem Clear.of_not_wired {g : Graph} (h : ∀ w ∈ g.wires, w.dst ≠ target) : Clear g pending target :=
  fun w hw _ hdst => absurd hdst (h w hw)

/-- Open edges were connected to a target. -/
structure Connected (pending : Pending) (t : Target) (p q : State × Trail) : Prop where
  kept : q.1 = { p.1 with graph := q.1.graph, heads := q.1.heads }
  grows : Grows p.1.graph q.1.graph p.2.next q.2.next [] (wiresTo pending t)
  settles : Settles pending (some t.node) p.1.heads q.1.heads

namespace Connected

variable {a b : Pending} {t : Target}

variable (h : Connected a t p q)
include h

theorem trans (h' : Connected b t q r) : Connected (a ++ b) t p r where
  kept := by rw [h'.kept, h.kept]
  grows := by
    rw [wiresTo_append]
    exact h.grows.trans h'.grows
  settles := h.settles.append h'.settles

theorem perm (hp : a.Perm b) : Connected b t p q :=
  ⟨h.kept, h.grows.perm (List.Perm.refl _) (hp.filterMap _), h.settles.congr fun _ => Waits.of_perm hp⟩

theorem nodeIds_eq {id : Id} : id ∈ q.1.graph.nodeIds ↔ id ∈ p.1.graph.nodeIds := by
  rw [h.grows.mem_nodeIds]
  simp

theorem sound {c : Pending} (hc : Sound p.1 c) : Sound q.1 c := by
  intro e he
  rcases hc e he with ⟨src, hsrc, heq⟩ | ⟨number, hlt, heq⟩
  · exact .inl ⟨src, h.nodeIds_eq.2 hsrc, heq⟩
  · exact .inr ⟨number, Nat.lt_of_lt_of_le hlt h.settles.le, heq⟩

end Connected

theorem connected_settle (hfit : p.1.graph.Fit p.2.next) (number : Nat) (sort : FlowSort)
    (t : Target) : Connected [⟨.head number, sort⟩] t p
      ({ p.1 with heads := p.1.heads.modify number fun h => h.orElse fun _ => some t.node }, p.2) := by
  refine ⟨rfl, .refl hfit, ⟨by simp, ?_, ?_⟩⟩
  · rintro i hi ⟨e, he, hsource⟩
    rw [mem_singleton.1 he] at hsource
    cases hsource
    rw [getElem?_modify_eq]
    cases p.1.heads[number]? with
    | none => rfl
    | some head => cases head <;> rfl
  · intro i hi hw
    have hne : number ≠ i := fun h => hw ⟨_, mem_singleton_self _, h ▸ rfl⟩
    rw [getElem?_modify_ne _ _ hne]

/-- An open edge is drawn, or the head of a do body is noted. -/
theorem ends_connectOne {e : OpenEdge} (loop : Option Id) (hfit : p.1.graph.Fit p.2.next)
    (htarget : target ∈ p.1.graph.nodeIds) (he : Sound p.1 [e]) (hclear : Clear p.1.graph [e] target) :
    Returns (connectOne target loop e) p fun _ q => Connected [e] ⟨target, loop⟩ p q := by
  obtain ⟨source, sort⟩ := e
  cases source with
  | head number => exact connected_settle hfit number sort ⟨target, loop⟩
  | node src =>
    have hsrc : src ∈ p.1.graph.nodeIds := by
      rcases he _ (mem_singleton_self _) with ⟨src', hsrc, heq⟩ | ⟨number, -, heq⟩
      · cases heq
        exact hsrc
      · cases heq
    have hidle : ∀ i < p.1.heads.length, ¬ Waits [⟨.node src, sort⟩] i := by
      rintro i - ⟨e, he, hsource⟩
      rw [mem_singleton.1 he] at hsource
      cases hsource
    simp only [connectOne, ends_bind, ends_state]
    by_cases hskip : (sort = .fallThrough && !(p.1.graph.edgesBetween src target).isEmpty) = true
    · -- A fall-through edge is left out beside an edge of the same ends.
      simp only [hskip]
      refine ⟨rfl, ⟨hfit, hfit, Int.le_refl _, by simp, by simp, ?_⟩, .idle hidle⟩
      simp only [Bool.and_eq_true, decide_eq_true_eq, Bool.not_eq_true', isEmpty_eq_false_iff]
        at hskip
      obtain ⟨x, hx⟩ := exists_mem_of_ne_nil _ hskip.2
      obtain ⟨hout, hdst⟩ := mem_filter.1 hx
      obtain ⟨hmem, hsrc'⟩ := (hfit.growing.coherent.mem_edgesOutOf).1 hout
      exact .skip hskip.1 (mem_map_of_mem hmem) hsrc' (of_decide_eq_true hdst)
    · have hfree : ∀ w ∈ p.1.graph.wires, w.src = src → w.dst = target →
          (w.sort = .fallThrough ↔ sort = .fallThrough) := by
        intro w hw hwsrc hwdst
        constructor
        · exact fun hfall => hclear w hw hfall hwdst _ (mem_singleton_self _) (hwsrc ▸ rfl)
        · intro hfall
          obtain ⟨x, hx, rfl⟩ := mem_map.1 hw
          have hbetween : x ∈ p.1.graph.edgesBetween src target :=
            mem_filter.2 ⟨(hfit.growing.coherent.mem_edgesOutOf).2 ⟨hx, hwsrc⟩, decide_eq_true hwdst⟩
          exact absurd (by simp [hfall, ne_nil_of_mem hbetween]) hskip
      simp only [hskip]
      refine (ends_addFlow hfit hsrc htarget loop hfree).imp ?_
      rintro _ q ⟨hkept, hgrows⟩
      have hheads : q.1.heads = p.1.heads := by rw [hkept]
      refine ⟨?_, hgrows, ?_⟩
      · rw [hheads]
        exact hkept
      · rw [hheads]
        exact .idle hidle

theorem Connected.clear {rest : Pending} {loop : Option Id} (h : Connected pending ⟨target, loop⟩ p q)
    (hfall : ∀ e ∈ pending, e.sort ≠ .fallThrough) (hclear : Clear p.1.graph rest target) :
    Clear q.1.graph rest target := by
  intro w hw hwfall hdst
  rcases h.grows.wires.mem_or_planned hw with hw | hw
  · exact hclear w hw hwfall hdst
  · obtain ⟨e, he, src, -, rfl⟩ := mem_wiresTo.1 hw
    exact absurd hwfall (hfall e he)

/-- Open edges are drawn one after the other. -/
theorem ends_connectEach (loop : Option Id) (hfit : p.1.graph.Fit p.2.next)
    (htarget : target ∈ p.1.graph.nodeIds)
    (hp : Sound p.1 pending) (hclear : (∀ e ∈ pending, e.sort = .fallThrough) ∨
      (∀ e ∈ pending, e.sort ≠ .fallThrough) ∧ Clear p.1.graph pending target) :
    Returns (forIn pending PUnit.unit fun e _ => do
        connectOne target loop e
        pure (ForInStep.yield PUnit.unit)) p
      fun _ q => Connected pending ⟨target, loop⟩ p q := by
  refine (ends_forIn (fun rest q => ∃ done, done ++ rest = pending ∧ Connected done ⟨target, loop⟩ p q)
    ?_ ?_).imp ?_
  · rintro e rest q ⟨done, rfl, hdone⟩
    have he : Sound q.1 [e] := fun e' he' => hdone.sound hp e' (by
      rw [mem_singleton.1 he']
      simp)
    have hone : Clear q.1.graph [e] target := by
      rcases hclear with hfall | ⟨hfall, hclear⟩
      · rintro w - - - e' he' -
        rw [mem_singleton.1 he']
        exact hfall e (by simp)
      · refine hdone.clear (fun e' he' => hfall e' (mem_append_left _ he')) ?_
        intro w hw hwfall hdst e' he' hsource
        exact hclear w hw hwfall hdst e' (by simp [mem_singleton.1 he']) hsource
    refine (ends_connectOne loop hdone.grows.fit (hdone.nodeIds_eq.2 htarget) he hone).imp ?_
    exact fun _ r hr => ⟨done ++ [e], by simp, hdone.trans hr⟩
  · exact ⟨[], rfl, rfl, .refl hfit, .idle (by simp [Waits])⟩
  · rintro _ q ⟨done, hdone, hconnected⟩
    rw [append_nil] at hdone
    exact hdone ▸ hconnected

theorem ends_connect (loop : Option Id) (hfit : p.1.graph.Fit p.2.next) (htarget : target ∈ p.1.graph.nodeIds)
    (hp : Sound p.1 pending) (hclear : Clear p.1.graph pending target) :
    Returns (connect pending target loop) p fun _ q => Connected pending ⟨target, loop⟩ p q := by
  have hsplit : (pending.filter (·.sort ≠ .fallThrough) ++
      pending.filter (·.sort = .fallThrough)).Perm pending := by
    have h := filter_append_perm (fun e : OpenEdge => decide (e.sort ≠ .fallThrough)) pending
    simpa only [decide_not, Bool.not_not] using h
  have hsound : ∀ f : OpenEdge → Bool, Sound p.1 (pending.filter f) := fun f e he =>
    hp e (mem_of_mem_filter he)
  simp only [connect, ends_bind]
  have hothers : Clear p.1.graph (pending.filter fun e => e.sort ≠ .fallThrough) target :=
    fun w hw hfall hdst e he => hclear w hw hfall hdst e (mem_of_mem_filter he)
  refine (ends_connectEach loop hfit htarget (hsound _)
    (.inr ⟨fun e he => by simpa using of_mem_filter he, hothers⟩)).imp ?_
  intro _ q hq
  refine (ends_connectEach loop hq.grows.fit (hq.nodeIds_eq.2 htarget) (hq.sound (hsound _))
    (.inl fun e he => by simpa using of_mem_filter he)).imp ?_
  exact fun _ r hr => (hq.trans hr).perm hsplit

theorem ends_joinAll (ts : List Token) (hfit : p.1.graph.Fit p.2.next)
    (hts : ∀ t ∈ ts, t.id ∈ p.1.graph.nodeIds)
    (hfall : ∀ w ∈ p.1.graph.wires, w.sort = .fallThrough → ∀ t ∈ ts, w.src ≠ t.id) :
    Returns (joinAll (ts.map (·.id))) p fun _ q => q.1 = { p.1 with graph := q.1.graph } ∧
        Grows p.1.graph q.1.graph p.2.next q.2.next [] (links ts) := by
  induction ts generalizing p with
  | nil => exact ⟨rfl, .refl hfit⟩
  | cons a ts ih =>
    cases ts with
    | nil => exact ⟨rfl, .refl hfit⟩
    | cons b ts =>
      simp only [map_cons, joinAll, ends_bind]
      have hfree : ∀ w ∈ p.1.graph.wires, w.src = a.id → w.dst = b.id →
          (w.sort = .fallThrough ↔ FlowSort.true = .fallThrough) := fun w hw hsrc _ =>
        ⟨fun h => absurd hsrc (hfall w hw h a (by simp)), fun h => by cases h⟩
      refine (ends_addFlow hfit (hts a (by simp)) (hts b (by simp)) none hfree).imp ?_
      rintro _ q ⟨hkept, hgrows⟩
      refine (ih hgrows.fit (fun t ht => ?_) fun w hw hwfall t ht => ?_).imp ?_
      · exact hgrows.mem_nodeIds.2 (.inl (hts t (mem_cons_of_mem _ ht)))
      · rcases hgrows.wires.mem_or_planned hw with hw | hw
        · exact hfall w hw hwfall t (mem_cons_of_mem _ ht)
        · rw [mem_singleton.1 hw] at hwfall
          cases hwfall
      · rintro _ r ⟨hkept', hgrows'⟩
        exact ⟨by rw [hkept', hkept], hgrows.trans hgrows'⟩

/-! ## Lines -/

def notesOf (p : State × Trail) : Notes :=
  ⟨p.1.specials, p.1.verdicts⟩

theorem noted_notesOf (p : State × Trail) : Noted p (notesOf p) :=
  ⟨rfl, rfl⟩

theorem Noted.eq {n : Notes} (h : Noted p n) : notesOf p = n := by
  simp [notesOf, h.1, h.2]

/-- A node was created, and no edge was drawn yet. -/
structure Created (t : Token) (p q : State × Trail) : Prop where
  kept : q.1 = { p.1 with graph := q.1.graph, unresolved := q.1.unresolved }
  grows : Grows p.1.graph q.1.graph p.2.next q.2.next [t] []
  reports : lostJumps q.1.unresolved = lostJumps p.1.unresolved

/-- A line of nodes was created, its nodes were joined, and open edges were connected to it. -/
structure Laid (l : Line Token) (pending : Pending) (p q : State × Trail) : Prop where
  kept : q.1 = { p.1 with
    graph := q.1.graph, unresolved := q.1.unresolved, heads := q.1.heads, specials := q.1.specials,
    sequence := q.1.sequence, verdicts := q.1.verdicts }
  grows : Grows p.1.graph q.1.graph p.2.next q.2.next l.all
    (wiresTo pending l.first.target ++ links l.all)
  settles : Settles pending (some l.first.id) p.1.heads q.1.heads
  reports : lostJumps q.1.unresolved = lostJumps p.1.unresolved

/-- The same jumps are parked. -/
structure SameParked (p q : State × Trail) : Prop where
  jumps_eq : q.1.jumps = p.1.jumps
  returns_eq : q.1.returns = p.1.returns
  throws_eq : q.1.throws = p.1.throws

theorem SameParked.trans (h : SameParked p q) (h' : SameParked q r) : SameParked p r :=
  ⟨h'.1.trans h.1, h'.2.trans h.2, h'.3.trans h.3⟩

theorem Connected.sameParked {t : Target} (h : Connected pending t p q) : SameParked p q := by
  constructor <;> rw [h.kept]

theorem Created.sameParked {t : Token} (h : Created t p q) : SameParked p q := by
  constructor <;> rw [h.kept]

theorem Laid.sameParked {l : Line Token} (h : Laid l pending p q) : SameParked p q := by
  constructor <;> rw [h.kept]

/-- The labels of a line are those of its walk, and so are the counters after it. -/
def Reads (scope : Scope) (l : Line Token) (label : Label) (es : List Expr) (p q : State × Trail) : Prop :=
  l.map Token.label = (lineOf scope label es (notesOf p)).1 ∧
    notesOf q = (lineOf scope label es (notesOf p)).2

theorem Sound.mono {s s' : State} (h : Sound s pending) (hsub : s.graph.nodeIds ⊆ s'.graph.nodeIds)
    (hle : s.heads.length ≤ s'.heads.length) : Sound s' pending := by
  intro e he
  rcases h e he with ⟨src, hsrc, heq⟩ | ⟨number, hlt, heq⟩
  · exact .inl ⟨src, hsub hsrc, heq⟩
  · exact .inr ⟨number, Nat.lt_of_lt_of_le hlt hle, heq⟩

theorem Sound.not_fresh {s : State} {next id : Id} {e : OpenEdge} (h : Sound s pending)
    (hfit : s.graph.Fit next)
    (he : e ∈ pending) (hsource : e.source = .node id) (hid : next ≤ id) : False := by
  rcases h e he with ⟨src, hsrc, heq⟩ | ⟨number, -, heq⟩
  · rw [hsource, Source.node.injEq] at heq
    exact absurd (hfit.lt_of_mem (heq ▸ hsrc)) (Int.not_lt.2 hid)
  · rw [hsource] at heq
    cases heq

/-- A line is linked, and what is open enters it. -/
theorem ends_chain {l : Line Token} (hfit : p.1.graph.Fit p.2.next) (hseq : p.1.sequence = l.all.map (·.id))
    (hl : ∀ t ∈ l.all, t.id ∈ p.1.graph.nodeIds) (hp : Sound p.1 pending)
    (hnew : ∀ t ∈ l.all, ∀ w ∈ p.1.graph.wires, w.src ≠ t.id ∧ w.dst ≠ t.id)
    (hpending : ∀ t ∈ l.all, ∀ e ∈ pending, e.source ≠ .node t.id) : Returns (chain pending) p
      fun _ q => q.1 = { p.1 with graph := q.1.graph, heads := q.1.heads } ∧
        Grows p.1.graph q.1.graph p.2.next q.2.next []
          (wiresTo pending l.first.target ++ links l.all) ∧
        Settles pending (some l.first.id) p.1.heads q.1.heads := by
  obtain ⟨rest, hall⟩ := l.exists_all_eq
  have hfirst : l.first.id ∈ p.1.graph.nodeIds := hl l.first (by simp [hall])
  have hsequence : p.1.sequence = l.first.id :: rest.map (·.id) := by rw [hseq, hall, map_cons]
  simp only [chain, ends_bind, ends_state, hsequence]
  have hclear : Clear p.1.graph pending l.first.id :=
    .of_not_wired fun w hw => (hnew l.first (by simp [hall]) w hw).2
  refine (ends_connect none hfit hfirst hp hclear).imp ?_
  intro _ q hq
  have hstarts : ∀ w ∈ q.1.graph.wires, w.sort = .fallThrough → ∀ t ∈ l.all, w.src ≠ t.id := by
    intro w hw _ t ht hsrc
    rcases hq.grows.wires.mem_or_planned hw with hw | hw
    · exact (hnew t ht w hw).1 hsrc
    · obtain ⟨e, he, src, hsource, rfl⟩ := mem_wiresTo.1 hw
      exact hpending t ht e he (hsource.trans (congrArg Source.node hsrc))
  have hjoin := ends_joinAll l.all hq.grows.fit (fun t ht => hq.nodeIds_eq.2 (hl t ht)) hstarts
  rw [← hseq] at hjoin
  rw [← hsequence]
  refine hjoin.imp ?_
  rintro _ r ⟨hkept, hgrows⟩
  have hheads : r.1.heads = q.1.heads := by rw [hkept]
  refine ⟨by rw [hkept, hq.kept], hq.grows.trans hgrows, ?_⟩
  rw [hheads]
  exact hq.settles

/-- A node that was just created, visited and chained to the open edges is a line that reads its
expressions. -/
theorem ends_visitChain {scope : Scope} {node : Id} {label : Label} {α : Type} {rest : Lower α}
    {good : α → State × Trail → Prop} {bad : Error → State × Trail → Prop} (es : List Expr)
    (hcreated : Created ⟨node, label⟩ p q) (hp : Sound p.1 pending)
    (hrest : ∀ l u, Laid l pending p u → l.node = ⟨node, label⟩ → u.1.sequence = l.all.map (·.id) →
      Reads scope l label es p u → Ends rest u good bad) :
    Ends (do visitNode scope node es; chain pending; rest) q good bad := by
  have hnode : node ∈ q.1.graph.nodeIds := hcreated.grows.mem_nodeIds.2 (.inr (by simp))
  have hnotes : notesOf q = notesOf p := by
    simp only [notesOf]
    rw [hcreated.kept]
  rw [ends_bind]
  refine (ends_visitNode (t := { notes := notesOf q }) es hcreated.grows.fit hnode
    (noted_notesOf q)).always ?_
  rintro _ r ⟨created, placed, _, _, hperm, he, hseq, hadds, hnoted, -⟩
  let l : Line Token := ⟨placed.map (·.token), ⟨node, label⟩⟩
  have hall : r.1.sequence = l.all.map (·.id) := by
    rw [hseq, ← ids_tokens, Line.all, map_append]
    rfl
  have hkept : r.1 = { p.1 with
      graph := r.1.graph, unresolved := r.1.unresolved, specials := r.1.specials,
      sequence := r.1.sequence, verdicts := r.1.verdicts } := by
    rw [he.kept]
    simp only [atNode]
    rw [hcreated.kept]
  have hgrows : Grows p.1.graph r.1.graph p.2.next r.2.next l.all [] := by
    refine (hcreated.grows.trans he.grows).perm ?_ (.refl _)
    exact (perm_append_comm).trans (hperm.append_right _)
  have hheads : r.1.heads = p.1.heads := by rw [hkept]
  have hsound : Sound r.1 pending := hp.mono hgrows.subset (Nat.le_of_eq (by rw [hheads]))
  rw [ends_bind]
  refine (ends_chain (l := l) hgrows.fit hall
    (fun t ht => hgrows.mem_nodeIds.2 (.inr (mem_map_of_mem ht))) hsound
    (fun t ht w hw => hgrows.not_wired ht hw) fun t ht e he hsource => ?_).always ?_
  · exact hp.not_fresh hgrows.start he hsource (hgrows.fresh t ht)
  rintro _ u ⟨hkept', hgrows', hsettles⟩
  refine hrest l u ⟨?_, ?_, ?_, ?_⟩ rfl ?_ ⟨?_, ?_⟩
  · rw [hkept', hkept]
  · simpa using hgrows.trans hgrows'
  · rw [← hheads]
    exact hsettles
  · rw [hkept']
    exact he.reports.trans hcreated.reports
  · rw [hkept']
    exact hall
  · simp only [lineOf, ← hnotes, hadds.labels_eq, l, Line.map, map_map]
    rfl
  · simp only [lineOf, ← hnotes]
    rw [← hnoted.eq]
    simp only [notesOf]
    rw [hkept']

end Lowering

end ProgramDependence
