import ProgramDependence.Proofs.Assembly

/-!
# Def-use dependence is exact

A definition reaches a use along a `ClearPath`: at least one edge of control flow, no fall-through
edge, and no other definition of the variable in between.  The analysis searches in two phases,
first without edges that close a loop and then from each such edge it was stopped at, skipping
everything covered before.  The skip sets lose nothing, because what is covered is closed under
further steps (`covered_iff`); so the edges drawn from a definition to a use are exactly those a
clear path asks for.
-/

namespace ProgramDependence

open List Findings Variable Pdg

namespace DataDependence

variable {c : Cfg} {v : Variable} {loopBack : Bool}
variable {e : Edge}

/-- An edge that a value may take: in the graph, no fall-through edge, and closing a loop only if
that is allowed. -/
structure Takes (c : Cfg) (loopBack : Bool) (e : Edge) : Prop where
  mem : e ∈ c.edges
  flow : e.isFallThrough = false
  loop : loopBack = false → e.isLoopBack = false

/-- A path of at least one edge from one node to another, on which the variable is not defined in
between. -/
inductive ClearPath (c : Cfg) (v : Variable) (loopBack : Bool) : Id → Id → Prop where
  | single {e : Edge} (takes : Takes c loopBack e) : ClearPath c v loopBack e.src e.dst
  | cons {e : Edge} {u : Id} (takes : Takes c loopBack e) (clear : definesAt c v e.dst = false)
      (tail : ClearPath c v loopBack e.dst u) : ClearPath c v loopBack e.src u

/-- The nodes one step onward, as the search goes. -/
def clearNext (c : Cfg) (v : Variable) (loopBack : Bool) (n : Id) : List Id :=
  ((onward c v n).filter fun e => loopBack || !e.isLoopBack).map (·.dst)

theorem mem_flowOut (hc : c.Coherent) {n : Id} :
    e ∈ flowOut c n ↔ (e ∈ c.edges ∧ e.src = n) ∧ e.isFallThrough = false := by
  simp [flowOut, hc.mem_edgesOutOf]

theorem takes_iff (hc : c.Coherent) (loopBack : Bool) {n : Id} :
    (e ∈ flowOut c n ∧ (loopBack || !e.isLoopBack) = true) ↔ Takes c loopBack e ∧ e.src = n := by
  rw [mem_flowOut hc]
  constructor
  · rintro ⟨⟨⟨hmem, hsrc⟩, hflow⟩, hloop⟩
    refine ⟨⟨hmem, hflow, ?_⟩, hsrc⟩
    rintro rfl
    simpa using hloop
  · rintro ⟨⟨hmem, hflow, hloop⟩, hsrc⟩
    refine ⟨⟨⟨hmem, hsrc⟩, hflow⟩, ?_⟩
    cases loopBack with
    | true => rfl
    | false => simp [hloop rfl]

theorem mem_clearNext (hc : c.Coherent) {x y : Id} :
    y ∈ clearNext c v loopBack x ↔ definesAt c v x = false ∧ ∃ e, Takes c loopBack e ∧ e.src = x ∧
    e.dst = y := by
  by_cases hx : definesAt c v x = true
  · simp [clearNext, onward, hx]
  · simp only [clearNext, onward, hx, Bool.false_eq_true, if_false, mem_map, mem_filter,
      takes_iff hc loopBack, and_assoc, true_and]

variable {d u : Id} {anchor : Node} {l : Link} {p : Program} {g : Graph} {w : Variable}

theorem clearPath_iff (hc : c.Coherent) : ClearPath c v loopBack d u ↔ ∃ e, Takes c loopBack e ∧
      e.src = d ∧ Relation.ReflTransGen (fun x y => y ∈ clearNext c v loopBack x) e.dst u := by
  constructor
  · intro h
    induction h with
    | single takes => exact ⟨_, takes, rfl, .refl⟩
    | cons takes clear _ ih =>
      obtain ⟨f, hf, hsrc, hreach⟩ := ih
      exact ⟨_, takes, rfl, .head ((mem_clearNext hc).2 ⟨clear, f, hf, hsrc, rfl⟩) hreach⟩
  · rintro ⟨e, he, rfl, hreach⟩
    generalize hx : e.dst = x at hreach
    induction hreach using Relation.ReflTransGen.head_induction_on generalizing e with
    | refl => exact hx ▸ .single he
    | head hstep _ ih =>
      obtain ⟨hclear, f, hf, hsrc, hdst⟩ := (mem_clearNext hc).1 hstep
      refine .cons he (hx ▸ hclear) ?_
      rw [hx, ← hsrc]
      exact ih f hf hdst

theorem ClearPath.closing (h : ClearPath c v false d u) : ClearPath c v true d u := by
  induction h with
  | single takes => exact .single ⟨takes.mem, takes.flow, by simp⟩
  | cons takes clear _ ih => exact .cons ⟨takes.mem, takes.flow, by simp⟩ clear ih

/-! ## The two phases of the search -/

theorem clearReach_swept (hc : c.Coherent) (skip starts : List Id) :
    Search.Swept (clearNext c v loopBack) skip starts (clearReach c v loopBack skip starts) := by
  have hnext : ∀ x, ∀ y ∈ clearNext c v loopBack x, y ∈ c.edges.map (·.dst) := by
    intro x y hy
    obtain ⟨-, e, he, -, rfl⟩ := (mem_clearNext hc).1 hy
    exact mem_map_of_mem he.mem
  exact Search.run_swept .queue hnext (by simp) skip starts

/-- What the second phase finds, beyond what was covered before: only what its edges lead to,
nothing twice, and with it everything is covered that the edges or the findings lead to. -/
structure Carried (c : Cfg) (v : Variable) (covered : List Id) (es : List Edge)
    (found : List (Edge × Id)) : Prop where
  reached : ∀ r ∈ found, r.1 ∈ es ∧
    Relation.ReflTransGen (fun x y => y ∈ clearNext c v true x) r.1.dst r.2
  not_covered : ∀ r ∈ found, r.2 ∉ covered
  nodup : (found.map (·.2)).Nodup
  edges_mem : ∀ e ∈ es, e.dst ∈ covered ++ found.map (·.2)
  closed : ∀ r ∈ found, ∀ y ∈ clearNext c v true r.2, y ∈ covered ++ found.map (·.2)

/-- Each sweep skips what is covered. -/
theorem carriedReach_carried (hc : c.Coherent) (covered : List Id) (es : List Edge) :
    Carried c v covered es (carriedReach c v covered es) := by
  induction es generalizing covered with
  | nil => exact ⟨by simp [carriedReach], by simp [carriedReach], by simp [carriedReach], by simp,
      by simp [carriedReach]⟩
  | cons e es ih =>
    have hswept : Search.Swept (clearNext c v true) covered [e.dst]
        (clearReach c v true covered [e.dst]) := clearReach_swept hc covered [e.dst]
    simp only [carriedReach]
    generalize clearReach c v true covered [e.dst] = swept at *
    have hrest := ih (covered ++ swept)
    generalize carriedReach c v (covered ++ swept) es = rest at hrest
    have hall : ∀ {y : Id}, y ∈ covered ++ swept ++ rest.map (·.2) →
        y ∈ covered ++ (swept.map (e, ·) ++ rest).map (·.2) := by
      intro y hy
      simpa [append_assoc, Function.comp_def] using hy
    constructor
    · intro r hr
      rcases mem_append.1 hr with hr | hr
      · obtain ⟨y, hy, rfl⟩ := mem_map.1 hr
        obtain ⟨x, hx, hreach⟩ := hswept.reached y hy
        exact ⟨by simp, mem_singleton.1 hx ▸ hreach⟩
      · exact ⟨mem_cons_of_mem _ (hrest.reached r hr).1, (hrest.reached r hr).2⟩
    · intro r hr
      rcases mem_append.1 hr with hr | hr
      · obtain ⟨y, hy, rfl⟩ := mem_map.1 hr
        exact hswept.not_skipped y hy
      · exact fun h => hrest.not_covered r hr (mem_append_left _ h)
    · have hseconds : (swept.map (e, ·)).map (·.2) = swept := by simp [Function.comp_def]
      rw [map_append, hseconds]
      refine hswept.nodup.append hrest.nodup ?_
      intro y hy hy'
      obtain ⟨r, hr, rfl⟩ := mem_map.1 hy'
      exact hrest.not_covered r hr (mem_append_right _ hy)
    · intro f hf
      rcases mem_cons.1 hf with rfl | hf
      · exact hall (mem_append_left _ (hswept.starts_mem f.dst (by simp)))
      · exact hall (hrest.edges_mem f hf)
    · intro r hr y hy
      rcases mem_append.1 hr with hr | hr
      · obtain ⟨x, hx, rfl⟩ := mem_map.1 hr
        exact hall (mem_append_left _ (hswept.closed x hx y hy))
      · exact hall (hrest.closed r hr y hy)

/-- The search from a definition finds what clear paths lead to. -/
theorem mem_clearReach (hc : c.Coherent) {starts : List Id}
    (hstarts : ∀ x, x ∈ starts ↔ ∃ e, Takes c loopBack e ∧ e.src = d ∧ e.dst = x) :
    u ∈ clearReach c v loopBack [] starts ↔ ClearPath c v loopBack d u := by
  have hswept : Search.Swept (clearNext c v loopBack) [] starts _ := clearReach_swept hc [] starts
  rw [clearPath_iff hc]
  constructor
  · intro hu
    obtain ⟨x, hx, hreach⟩ := hswept.reached u hu
    obtain ⟨e, he, hsrc, rfl⟩ := (hstarts x).1 hx
    exact ⟨e, he, hsrc, hreach⟩
  · rintro ⟨e, he, hsrc, hreach⟩
    induction hreach with
    | refl => exact hswept.starts_mem e.dst ((hstarts _).2 ⟨e, he, hsrc, rfl⟩)
    | tail _ hstep ih => exact hswept.closed _ ih _ hstep

def independentReach (c : Cfg) (v : Variable) (anchor : Id) : List Id :=
  clearReach c v false [] (((flowOut c anchor).filter fun e => !e.isLoopBack).map (·.dst))

theorem mem_independentReach (hc : c.Coherent) : u ∈ independentReach c v d ↔ ClearPath c v false d u := by
  refine mem_clearReach hc fun x => ?_
  have htakes := fun e => takes_iff hc false (n := d) (e := e)
  simp only [Bool.false_or] at htakes
  simp only [mem_map, mem_filter, htakes, and_assoc]

/-- The first phase stops at edges that close a loop. -/
theorem mem_blockedEdges (hc : c.Coherent) {anchor : Id} {independent : List Id} :
    e ∈ blockedEdges c v anchor independent ↔ Takes c true e ∧ e.isLoopBack = true ∧
      (e.src = anchor ∨ e.src ∈ independent ∧ definesAt c v e.src = false) := by
  have hflow : ∀ n, e ∈ flowOut c n ↔ Takes c true e ∧ e.src = n := fun n => by
    simpa using (takes_iff hc true (n := n) (e := e))
  have honward : ∀ n, e ∈ onward c v n ↔ Takes c true e ∧ e.src = n ∧ definesAt c v n = false := by
    intro n
    by_cases hn : definesAt c v n = true
    · simp [onward, hn]
    · simp [onward, hn, hflow]
  simp only [blockedEdges, mem_append, mem_filter, mem_flatMap, hflow, honward]
  constructor
  · rintro (⟨⟨ht, hs⟩, hl⟩ | ⟨n, hn, ⟨ht, rfl, hd⟩, hl⟩)
    · exact ⟨ht, hl, .inl hs⟩
    · exact ⟨ht, hl, .inr ⟨hn, hd⟩⟩
  · rintro ⟨ht, hl, hs | ⟨hn, hd⟩⟩
    · exact .inl ⟨⟨ht, hs⟩, hl⟩
    · exact .inr ⟨e.src, hn, ⟨ht, rfl, hd⟩, hl⟩

theorem ClearPath.snoc (hc : c.Coherent) (h : ClearPath c v loopBack d e.src)
    (hclear : definesAt c v e.src = false) (htakes : Takes c loopBack e) :
    ClearPath c v loopBack d e.dst := by
  obtain ⟨f, hf, hsrc, hreach⟩ := (clearPath_iff hc).1 h
  exact (clearPath_iff hc).2 ⟨f, hf, hsrc, hreach.tail ((mem_clearNext hc).2 ⟨hclear, e, htakes, rfl, rfl⟩)⟩

/-- **Both phases cover what clear paths lead to.** -/
theorem covered_iff (hc : c.Coherent) {blocked : List Edge} {found : List (Edge × Id)}
    (hblocked : ∀ e, e ∈ blocked ↔ e ∈ blockedEdges c v d (independentReach c v d))
    (hcarried : Carried c v (independentReach c v d) blocked found) :
    u ∈ independentReach c v d ++ found.map (·.2) ↔ ClearPath c v true d u := by
  constructor
  · intro hu
    rcases mem_append.1 hu with hu | hu
    · exact ((mem_independentReach hc).1 hu).closing
    · obtain ⟨r, hr, rfl⟩ := mem_map.1 hu
      obtain ⟨hmem, hreach⟩ := hcarried.reached r hr
      obtain ⟨htakes, -, hsrc⟩ := (mem_blockedEdges hc).1 ((hblocked _).1 hmem)
      rcases hsrc with hsrc | ⟨hsrc, hclear⟩
      · exact (clearPath_iff hc).2 ⟨r.1, htakes, hsrc, hreach⟩
      · obtain ⟨f, hf, hfsrc, hfreach⟩ :=
          (clearPath_iff hc).1 (((mem_independentReach hc).1 hsrc).closing.snoc hc hclear htakes)
        exact (clearPath_iff hc).2 ⟨f, hf, hfsrc, hfreach.trans hreach⟩
  · intro hpath
    have hstep : ∀ {e : Edge}, Takes c true e →
        (e.src = d ∨ e.src ∈ independentReach c v d ∧ definesAt c v e.src = false) →
        e.dst ∈ independentReach c v d ++ found.map (·.2) := by
      intro e he hsrc
      by_cases hloop : e.isLoopBack = true
      · exact hcarried.edges_mem e ((hblocked e).2 ((mem_blockedEdges hc).2 ⟨he, hloop, hsrc⟩))
      · have htakes : Takes c false e := ⟨he.mem, he.flow, by simpa using hloop⟩
        refine mem_append_left _ ((mem_independentReach hc).2 ?_)
        rcases hsrc with rfl | ⟨hsrc, hclear⟩
        · exact .single htakes
        · exact ((mem_independentReach hc).1 hsrc).snoc hc hclear htakes
    obtain ⟨e, he, hsrc, hreach⟩ := (clearPath_iff hc).1 hpath
    induction hreach with
    | refl => exact hstep he (.inl hsrc)
    | tail _ hnext ih =>
      rcases mem_append.1 (ih ((clearPath_iff hc).2 ⟨e, he, hsrc, ‹_›⟩)) with hx | hx
      · obtain ⟨hclear, f, hf, rfl, rfl⟩ := (mem_clearNext hc).1 hnext
        exact hstep hf (.inr ⟨hx, hclear⟩)
      · obtain ⟨r, hr, rfl⟩ := mem_map.1 hx
        exact hcarried.closed r hr _ hnext

/-! ## The dependences of a definition -/

/-- The edges at which the first phase stops, in the order in which the second goes on from them. -/
def blockedInOrder (c : Cfg) (regions : Table Id (List Id)) (v : Variable) (anchor : Id) : List Edge :=
  sortByTwo (fun e => regionSize regions e.loopBack?) (·.id)
    (blockedEdges c v anchor (independentReach c v anchor))

/-- What the second phase finds. -/
def loopReach (c : Cfg) (regions : Table Id (List Id)) (v : Variable) (anchor : Id) : List (Edge × Id) :=
  carriedReach c v (independentReach c v anchor) (blockedInOrder c regions v anchor)

/-- A dependence that a formal parameter is part of: it counts as independent of loops. -/
def isFormal (c : Cfg) (anchor : Node) (n : Id) : Bool :=
  anchor.sort = .parameter .formalIn || (c.node? n).any (fun m => m.sort = .parameter .formalOut)

/-- What a def-use dependence has to say: where it comes from, that its target is a use a clear path
reaches, and whether a loop carries it. -/
structure Justified (c : Cfg) (anchor : Node) (v : Variable) (l : Link) : Prop where
  src_eq : l.src = anchor.id
  var_eq : l.var = v
  uses : usesAt c v l.dst = true
  path : ClearPath c v true anchor.id l.dst
  independent : ClearPath c v false anchor.id l.dst ∨ isFormal c anchor l.dst = true →
    l.sort = .loopIndependent
  carried : ¬ (ClearPath c v false anchor.id l.dst ∨ isFormal c anchor l.dst = true) →
    l.sort = .loopCarried ∧ ∃ loop, l.carrier = some loop ∧ ∃ e ∈ c.edges, e.loopBack? = some loop

theorem mem_loops {loop : Id} : loop ∈ loops c ↔ ∃ e ∈ c.edges, e.loopBack? = some loop := by
  rw [loops, sortBy, (perm_sortWith _ _).mem_iff, Search.mem_fresh]
  simp

theorem loop_of_carrier? {src dst loop : Id} (h : carrier? (regions c) src dst = some loop) :
    ∃ e ∈ c.edges, e.loopBack? = some loop := by
  obtain ⟨r, hr, rfl⟩ := Option.map_eq_some_iff.1 h
  have hmem := (perm_sortWith _ _).mem_iff.1 (mem_of_mem_head? hr)
  obtain ⟨l, hl, rfl⟩ := mem_map.1 (mem_filter.1 hmem).1
  exact mem_loops.1 hl

theorem loopReach_carried (hc : c.Coherent) (regions : Table Id (List Id)) (anchor : Id) :
    Carried c v (independentReach c v anchor) (blockedInOrder c regions v anchor)
    (loopReach c regions v anchor) :=
  carriedReach_carried hc _ _

theorem mem_blockedInOrder {regions : Table Id (List Id)} {anchor : Id} (e : Edge) :
    e ∈ blockedInOrder c regions v anchor ↔ e ∈ blockedEdges c v anchor (independentReach c v anchor) :=
  (perm_sortWith _ _).mem_iff

theorem found_defUse {regions : Table Id (List Id)} (h : (defUse c regions anchor v).fault = none) :
    (defUse c regions anchor v).found = ((independentReach c v anchor.id).filter (usesAt c v)).map
        (fun n => ⟨anchor.id, n, .loopIndependent, v, none⟩) ++
      ((loopReach c regions v anchor.id).filter fun r => usesAt c v r.2).map
        fun r => carriedLink c regions anchor v r.1 r.2 := by
  simp only [defUse, fault_append] at h
  obtain ⟨⟨⟨hfirst, -⟩, hsecond⟩, -⟩ := h
  rw [defUse, found_append, found_append, found_append hfirst]
  · simp only [found_require, append_nil]
    rfl
  · simp [hfirst]
  · simp [hfirst, hsecond]

/-- Every dependence that is found is justified. -/
theorem justified_of_mem_defUse (hc : c.Coherent) (h : (defUse c (regions c) anchor v).fault = none)
    (hl : l ∈ (defUse c (regions c) anchor v).found) : Justified c anchor v l := by
  rw [found_defUse h] at hl
  have hcarried : Carried c v (independentReach c v anchor.id) _ _ :=
    loopReach_carried hc (regions c) anchor.id
  rcases mem_append.1 hl with hl | hl
  · obtain ⟨n, hn, rfl⟩ := mem_map.1 hl
    obtain ⟨hn, huses⟩ := mem_filter.1 hn
    have hpath := (mem_independentReach hc).1 hn
    exact ⟨rfl, rfl, huses, hpath.closing, fun _ => rfl, fun hnot => absurd (.inl hpath) hnot⟩
  · obtain ⟨r, hr, rfl⟩ := mem_map.1 hl
    obtain ⟨hr, huses⟩ := mem_filter.1 hr
    have hpath : ClearPath c v true anchor.id r.2 :=
      (covered_iff hc mem_blockedInOrder hcarried).1
        (mem_append_right _ (mem_map_of_mem hr))
    have hnot : ¬ ClearPath c v false anchor.id r.2 := fun h =>
      hcarried.not_covered r hr ((mem_independentReach hc).2 h)
    obtain ⟨htakes, hloop, -⟩ :=
      (mem_blockedEdges hc).1 ((mem_blockedInOrder _).1 (hcarried.reached r hr).1)
    by_cases hformal : isFormal c anchor r.2 = true
    · have heq : carriedLink c (regions c) anchor v r.1 r.2 =
          ⟨anchor.id, r.2, .loopIndependent, v, none⟩ := if_pos hformal
      rw [heq]
      exact ⟨rfl, rfl, huses, hpath, fun _ => rfl, fun h => absurd (.inr hformal) h⟩
    · have heq : carriedLink c (regions c) anchor v r.1 r.2 =
          ⟨anchor.id, r.2, .loopCarried, v,
            (carrier? (regions c) anchor.id r.2).orElse fun _ => r.1.loopBack?⟩ := if_neg hformal
      rw [heq]
      refine ⟨rfl, rfl, huses, hpath, fun h => (h.elim hnot hformal).elim, fun _ => ⟨rfl, ?_⟩⟩
      cases hcarrier : carrier? (regions c) anchor.id r.2 with
      | some loop => exact ⟨loop, rfl, loop_of_carrier? hcarrier⟩
      | none =>
        obtain ⟨loop, hloop⟩ := Option.isSome_iff_exists.1 hloop
        exact ⟨loop, hloop, r.1, htakes.mem, hloop⟩

/-- Every use that a clear path reaches is found. -/
theorem exists_mem_defUse (hc : c.Coherent) {regions : Table Id (List Id)}
    (h : (defUse c regions anchor v).fault = none) (huses : usesAt c v u = true)
    (hpath : ClearPath c v true anchor.id u) : ∃ l ∈ (defUse c regions anchor v).found, l.dst = u := by
  rw [found_defUse h]
  have hcarried := loopReach_carried (v := v) hc regions anchor.id
  rcases mem_append.1 ((covered_iff hc mem_blockedInOrder hcarried).2 hpath) with hu | hu
  · exact ⟨_, mem_append_left _ (mem_map_of_mem (mem_filter.2 ⟨hu, huses⟩)), rfl⟩
  · obtain ⟨r, hr, rfl⟩ := mem_map.1 hu
    refine ⟨_, mem_append_right _ (mem_map_of_mem (mem_filter.2 ⟨hr, huses⟩)), ?_⟩
    simp only [carriedLink]
    split <;> rfl

/-! ## All dependences of a flow graph -/

section

variable (seen : List (Id × Id × DependenceSort × VariableIdentity))

include seen

theorem nodup_distinctLinks (ls : List Link) :
    ((distinctLinks seen ls).map Link.key).Nodup ∧ ∀ l ∈ distinctLinks seen ls, l.key ∉ seen := by
  induction ls generalizing seen with
  | nil => simp [distinctLinks]
  | cons l ls ih =>
    by_cases h : l.key ∈ seen
    · simpa only [distinctLinks, h, if_true] using ih seen
    · obtain ⟨hnodup, hseen⟩ := ih (l.key :: seen)
      simp only [distinctLinks, h, if_false, map_cons, nodup_cons]
      refine ⟨⟨?_, hnodup⟩, ?_⟩
      · intro hmem
        obtain ⟨k, hk, hkey⟩ := mem_map.1 hmem
        exact hseen k hk (hkey ▸ mem_cons_self)
      · intro k hk
        rcases mem_cons.1 hk with rfl | hk
        · exact h
        · exact fun hs => hseen k hk (mem_cons_of_mem _ hs)

theorem exists_mem_distinctLinks {ls : List Link} (hl : l ∈ ls) (hseen : l.key ∉ seen) :
    ∃ k ∈ distinctLinks seen ls, k.key = l.key := by
  induction ls generalizing seen with
  | nil => simp at hl
  | cons m ls ih =>
    by_cases h : m.key ∈ seen
    · simp only [distinctLinks, h]
      rcases mem_cons.1 hl with rfl | hl
      · exact absurd h hseen
      · exact ih seen hl hseen
    · simp only [distinctLinks, h]
      by_cases hkey : m.key = l.key
      · exact ⟨m, by simp, hkey⟩
      · rcases mem_cons.1 hl with rfl | hl
        · exact absurd rfl hkey
        · obtain ⟨k, hk, hkl⟩ := ih (m.key :: seen) hl (by
            rw [mem_cons]
            exact fun h => h.elim (fun h => hkey h.symm) hseen)
          exact ⟨k, mem_cons_of_mem _ hk, hkl⟩

end

/-- What a search over the definitions after a definition visits. -/
def orderReach (c : Cfg) (v : Variable) (anchor : Id) : List Id :=
  let next (n : Id) : List Id :=
    if definesAt c v n || usesAt c v n then [] else (flowOut c n).map (·.dst)
  let first := Search.fresh [anchor] ((flowOut c anchor).map (·.dst))
  (Search.run .queue next (first.length + c.edges.length) first (anchor :: first) []).visited

theorem mem_found_defOrder {anchor : Id} (h : (defOrder c anchor v).fault = none) :
    l ∈ (defOrder c anchor v).found ↔
      ∃ n ∈ orderReach c v anchor, definesAt c v n = true ∧ l = ⟨anchor, n, .defOrder, v, none⟩ := by
  simp only [defOrder, fault_append, fault_overAll] at h
  rw [defOrder, found_append h.1, found_overAll]
  · simp only [found_require, nil_append, mem_flatMap]
    refine exists_congr fun n => and_congr_right fun hn => ?_
    rw [found_append (h.2 n hn).1]
    split <;> simp [*]
  · simpa only [fault_append] using h.2

theorem mem_found_anti {anchor : Id} (h : (anti c anchor v).fault = none) :
      l ∈ (anti c anchor v).found ↔ ∃ n ∈ clearReach c v true [] ((flowOut c anchor).map (·.dst)),
        n ≠ anchor ∧ definesAt c v n = true ∧ l = ⟨anchor, n, .anti, v, none⟩ := by
  simp only [anti, fault_append] at h
  rw [anti, found_append h.1, found_require, found_ofList, nil_append]
  simp only [mem_map, mem_filter, Bool.and_eq_true, decide_eq_true_eq, and_assoc, eq_comm (b := l)]

theorem sort_of_mem_output {nodes : List Node} {known : List Link}
    (hl : l ∈ output p c nodes known) : l.sort = .output := by
  simp only [output, mem_flatMap, mem_map] at hl
  obtain ⟨-, -, -, -, rfl⟩ := hl
  rfl

def definitions (g : Graph) : List (Node × Variable) :=
  (g.nodes.filter fun n => !n.defs.isEmpty).flatMap fun n => n.defs.map fun v => (n, v)

theorem mem_definitions {n : Node} : (n, w) ∈ definitions g ↔ n ∈ g.nodes ∧ w ∈ n.defs := by
  simp only [definitions, mem_flatMap, mem_filter, mem_map, Prod.mk.injEq]
  constructor
  · rintro ⟨m, ⟨hm, -⟩, u, hu, rfl, rfl⟩
    exact ⟨hm, hu⟩
  · rintro ⟨hn, hw⟩
    refine ⟨n, ⟨hn, ?_⟩, w, hw, rfl, rfl⟩
    cases hdefs : n.defs with
    | nil => simp [hdefs] at hw
    | cons => simp

def usages (g : Graph) : List (Node × Variable) :=
  g.nodes.flatMap fun n => n.uses.map fun v => (n, v)

theorem mem_usages {n : Node} : (n, w) ∈ usages g ↔ n ∈ g.nodes ∧ w ∈ n.uses := by
  simp [usages]

def allDefUses (g : Graph) (c : Cfg) : List Link :=
  (definitions g).flatMap fun r => (defUse c (regions c) r.1 r.2).found

/-- Everything an analysis without a fault found, before it is made distinct. -/
structure Raw (p : Program) (g : Graph) (c : Cfg) (raw : List Link) : Prop where
  found_eq : (links p g c).found =
    distinctLinks [] (raw.filter fun l => g.hasNode l.src && g.hasNode l.dst)
  defUse_fault : ∀ r ∈ definitions g, (defUse c (regions c) r.1 r.2).fault = none
  mem_iff : ∀ l : Link, l ∈ raw ↔
    (∃ r ∈ definitions g, l ∈ (defUse c (regions c) r.1 r.2).found) ∨
    (∃ r ∈ definitions g, ∃ n ∈ orderReach c r.2 r.1.id,
      definesAt c r.2 n = true ∧ l = ⟨r.1.id, n, .defOrder, r.2, none⟩) ∨
    (∃ r ∈ usages g, ∃ n ∈ clearReach c r.2 true [] ((flowOut c r.1.id).map (·.dst)),
      n ≠ r.1.id ∧ definesAt c r.2 n = true ∧ l = ⟨r.1.id, n, .anti, r.2, none⟩) ∨
    l ∈ output p c (g.nodes.filter fun n => !n.defs.isEmpty) (allDefUses g c)

/-- An analysis without a fault is made of its four parts. -/
theorem exists_raw (h : (links p g c).fault = none) : ∃ raw, Raw p g c raw := by
  simp only [links, fault_select, fault_append] at h
  obtain ⟨⟨hdefs, huses⟩, -⟩ := h
  rw [fault_overAll] at hdefs huses
  have hdefs' : ∀ r ∈ definitions g, (defUse c (regions c) r.1 r.2).fault = none ∧
      (defOrder c r.1.id r.2).fault = none := by
    intro r hr
    exact (fault_append _ _).1 (hdefs (_, _) (mem_map_of_mem hr))
  refine ⟨_, rfl, fun r hr => (hdefs' r hr).1, ?_⟩
  intro l
  rw [found_append, found_append, found_overAll hdefs,
    found_overAll huses, mem_append, mem_append, or_assoc, ← or_assoc (a := ∃ r ∈ _, _)]
  · refine or_congr ?_ (or_congr ?_ ?_)
    · rw [flatMap_map, mem_flatMap, ← exists_or]
      refine exists_congr fun r => ?_
      rw [← and_or_left]
      refine and_congr_right fun hr => ?_
      rw [found_append (hdefs' r hr).1, mem_append, mem_found_defOrder (hdefs' r hr).2]
    · rw [mem_flatMap]
      exact exists_congr fun r => and_congr_right fun hr => mem_found_anti (huses r hr)
    · rw [flatMap_map]
      rfl
  · exact (fault_overAll _ _).2 hdefs
  · exact (fault_append _ _).2
      ⟨(fault_overAll _ _).2 hdefs, (fault_overAll _ _).2 huses⟩

section

variable {raw : List Link} (h : Raw p g c raw)
include h

theorem Raw.mem_defUse_iff (hsort : l.sort.isDefUse = true) :
    l ∈ raw ↔ ∃ r ∈ definitions g, l ∈ (defUse c (regions c) r.1 r.2).found := by
  rw [h.mem_iff]
  refine ⟨?_, .inl⟩
  rintro (hl | ⟨r, hr, n, -, -, rfl⟩ | ⟨r, hr, n, -, -, -, rfl⟩ | hl)
  · exact hl
  · cases hsort
  · cases hsort
  · rw [sort_of_mem_output hl] at hsort
    cases hsort

theorem Raw.exists_mem_found_iff (k : Id × Id × DependenceSort × VariableIdentity) :
    (∃ l ∈ (links p g c).found, l.key = k) ↔ k.1 ∈ g.nodeIds ∧ k.2.1 ∈ g.nodeIds ∧ ∃ l ∈ raw, l.key = k := by
  have hkept : ∀ l, l ∈ raw.filter (fun l => g.hasNode l.src && g.hasNode l.dst) ↔
      l ∈ raw ∧ l.src ∈ g.nodeIds ∧ l.dst ∈ g.nodeIds := by
    intro l
    rw [mem_filter, Bool.and_eq_true, Graph.hasNode_iff, Graph.hasNode_iff]
  rw [h.found_eq]
  constructor
  · rintro ⟨l, hl, rfl⟩
    obtain ⟨hraw, hsrc, hdst⟩ := (hkept l).1 ((distinctLinks_sublist _ _).subset hl)
    exact ⟨hsrc, hdst, l, hraw, rfl⟩
  · rintro ⟨hsrc, hdst, l, hl, rfl⟩
    exact exists_mem_distinctLinks [] ((hkept l).2 ⟨hl, hsrc, hdst⟩) (by simp)

theorem Raw.nodup_keys : ((links p g c).found.map Link.key).Nodup := by
  rw [h.found_eq]
  exact (nodup_distinctLinks [] _).1

end

theorem exists_of_mem_found (h : (links p g c).fault = none) (hl : l ∈ (links p g c).found)
    (hsort : l.sort.isDefUse = true) : ∃ n ∈ g.nodes, ∃ w ∈ n.defs,
      (defUse c (regions c) n w).fault = none ∧ l ∈ (defUse c (regions c) n w).found := by
  obtain ⟨raw, hraw⟩ := exists_raw h
  rw [hraw.found_eq] at hl
  obtain ⟨⟨n, w⟩, hr, hl⟩ :=
    (hraw.mem_defUse_iff hsort).1 (mem_of_mem_filter ((distinctLinks_sublist _ _).subset hl))
  obtain ⟨hn, hw⟩ := mem_definitions.1 hr
  exact ⟨n, hn, w, hw, hraw.defUse_fault (n, w) hr, hl⟩

/-! ## The edges of a dependence graph -/

section

variable (h : v.identity = w.identity)
include h

theorem same_congr : v.same = w.same := by
  funext u
  simp only [same, h]

theorem definesAt_congr (n : Id) : definesAt c v n = definesAt c w n := by
  simp only [definesAt, Node.defines, isIn, same_congr h]

theorem usesAt_congr (n : Id) : usesAt c v n = usesAt c w n := by
  simp only [usesAt, Node.usesVariable, isIn, same_congr h]

theorem ClearPath.congr (hpath : ClearPath c v loopBack d u) : ClearPath c w loopBack d u := by
  induction hpath with
  | single takes => exact .single takes
  | cons takes clear _ ih => exact .cons takes ((definesAt_congr h _).symm.trans clear) ih

theorem clearPath_congr : ClearPath c v loopBack d u ↔ ClearPath c w loopBack d u :=
  ⟨.congr h, .congr h.symm⟩

end

theorem Justified.isDefUse (h : Justified c anchor v l) : l.sort.isDefUse = true := by
  by_cases hind : ClearPath c v false anchor.id l.dst ∨ isFormal c anchor l.dst = true
  · rw [h.independent hind]
    rfl
  · rw [(h.carried hind).1]
    rfl

theorem Justified.key_eq {k : Link} (hl : Justified c anchor v l) (hk : Justified c anchor w k)
    (hdst : l.dst = k.dst) (hvw : v.identity = w.identity) : l.key = k.key := by
  have hsort : l.sort = k.sort := by
    by_cases hind : ClearPath c v false anchor.id l.dst ∨ isFormal c anchor l.dst = true
    · rw [hl.independent hind, hk.independent]
      rwa [← hdst, ← clearPath_congr hvw]
    · rw [(hl.carried hind).1, (hk.carried ?_).1]
      rwa [← hdst, ← clearPath_congr hvw]
  simp only [Link.key, hl.src_eq, hk.src_eq, hdst, hsort, hl.var_eq, hk.var_eq, hvw]

/-- A link from a definition to a use on a variable. -/
def Link.joins (l : Link) (v : Variable) (src dst : Id) : Bool :=
  l.src = src && l.dst = dst && l.sort.isDefUse && l.var.same v

theorem justified_of_joins (hc : c.Coherent) (hg : g.Coherent) (h : (links p g c).fault = none) {d : Node}
    (hd : d ∈ g.nodes) (hl : l ∈ (links p g c).found) (hjoins : l.joins v d.id u = true) :
    d.defines v = true ∧ Justified c d l.var l := by
  simp only [Link.joins, Bool.and_eq_true, decide_eq_true_eq] at hjoins
  obtain ⟨⟨⟨hsrc, -⟩, hsort⟩, hsame⟩ := hjoins
  obtain ⟨n, hn, w, hw, hfault, hl⟩ := exists_of_mem_found h hl hsort
  have hjust := justified_of_mem_defUse hc hfault hl
  have hnd : n = d := inj_on_of_nodup_map hg.nodup_nodes hn hd (hjust.src_eq.symm.trans hsrc)
  subst hnd
  have hvar : l.var = w := hjust.var_eq
  refine ⟨isIn_iff.2 ⟨w, hw, ?_⟩, hvar.symm ▸ hjust⟩
  rw [← hvar]
  exact (same_iff.1 hsame).symm

theorem exists_joins (hc : c.Coherent) (h : (links p g c).fault = none) {d : Node} (hd : d ∈ g.nodes)
    (hu : u ∈ g.nodeIds) (hdef : d.defines v = true) (huses : usesAt c v u = true)
    (hpath : ClearPath c v true d.id u) : ∃ l ∈ (links p g c).found, l.joins v d.id u = true := by
  obtain ⟨raw, hraw⟩ := exists_raw h
  obtain ⟨w, hw, hvw⟩ := isIn_iff.1 hdef
  have hr : (d, w) ∈ definitions g := mem_definitions.2 ⟨hd, hw⟩
  obtain ⟨k, hk, hdst⟩ := exists_mem_defUse (u := u) hc (hraw.defUse_fault _ hr)
    ((usesAt_congr hvw u).symm.trans huses) (hpath.congr hvw)
  have hjust := justified_of_mem_defUse hc (hraw.defUse_fault _ hr) hk
  have hsrc : k.src ∈ g.nodeIds := hjust.src_eq ▸ mem_map_of_mem hd
  obtain ⟨l, hl, hkey⟩ := (hraw.exists_mem_found_iff k.key).2
    ⟨hsrc, (congrArg (· ∈ g.nodeIds) hdst).mpr hu, k, (hraw.mem_defUse_iff hjust.isDefUse).2 ⟨_, hr, hk⟩, rfl⟩
  simp only [Link.key, Prod.mk.injEq] at hkey
  refine ⟨l, hl, ?_⟩
  simp only [Link.joins, Bool.and_eq_true, decide_eq_true_eq, hkey.1, hkey.2.1, hkey.2.2.1,
    hjust.src_eq, hdst, hjust.isDefUse, same_iff, hkey.2.2.2, hjust.var_eq, hvw, and_self]

/-- No two links join a definition and a use. -/
theorem joins_unique (hc : c.Coherent) (hg : g.Coherent) (h : (links p g c).fault = none) {d : Node}
    (hd : d ∈ g.nodes) (hl : l ∈ (links p g c).found) (hjoins : l.joins v d.id u = true) :
    (links p g c).found.filter (·.joins v d.id u) = [l] := by
  have hkeys : ((links p g c).found.map Link.key).Nodup := by
    obtain ⟨raw, hraw⟩ := exists_raw h
    exact hraw.nodup_keys
  have hall : ∀ k ∈ (links p g c).found.filter (·.joins v d.id u), k = l := by
    intro k hk
    obtain ⟨hk, hkjoins⟩ := mem_filter.1 hk
    refine inj_on_of_nodup_map hkeys hk hl ?_
    have hkj := (justified_of_joins hc hg h hd hk hkjoins).2
    have hlj := (justified_of_joins hc hg h hd hl hjoins).2
    simp only [Link.joins, Bool.and_eq_true, decide_eq_true_eq, same_iff] at hkjoins hjoins
    exact hkj.key_eq hlj (hkjoins.1.1.2.trans hjoins.1.1.2.symm) (hkjoins.2.trans hjoins.2.symm)
  have hnodup : ((links p g c).found.filter (·.joins v d.id u)).Nodup := hkeys.of_map.filter _
  have hreplicate := eq_replicate_of_mem hall
  rw [hreplicate, nodup_replicate] at hnodup
  have hpos : 0 < ((links p g c).found.filter (·.joins v d.id u)).length :=
    length_pos_of_mem (mem_filter.2 ⟨hl, hjoins⟩)
  rw [hreplicate, show ((links p g c).found.filter (·.joins v d.id u)).length = 1 by omega]
  rfl

/-- The edges of def-use dependence between two nodes on a variable. -/
def defUseEdges (g : Graph) (v : Variable) (src dst : Id) : List Edge :=
  g.edges.filter fun e => e.src = src && e.dst = dst && e.dependenceSort?.any (·.isDefUse) &&
    e.var?.any (·.same v)

section

variable {context : Context} {d : Pdg} (h : Derived context c d)

include h

theorem joints_filter {test : Id × Id × EdgeLabel → Bool}
    (htest : ∀ src dst s, test (src, dst, .dependence s none none) = false) :
    (d.edges.map Edge.joint).filter test =
      ((links context.program (nodesOf c) c).found.map Link.joint).filter test := by
  have hcontrol : ∀ ls : List ControlDependence.Link,
      (ls.map ControlDependence.Link.joint).filter test = [] := by
    intro ls
    rw [filter_eq_nil_iff]
    intro j hj
    obtain ⟨l, -, rfl⟩ := mem_map.1 hj
    simp [ControlDependence.Link.joint, htest]
  obtain ⟨between, after, hcd, hdd⟩ := h.edges_eq
  rw [hdd.joints_eq, hcd.rest.joints_eq, hcd.first.joints_eq, edges_nodesOf]
  simp only [map_nil, nil_append, filter_append, hcontrol]

theorem joints_defUseEdges (src dst : Id) :
    (defUseEdges d.toGraph v src dst).map Edge.joint =
      ((links context.program (nodesOf c) c).found.filter (·.joins v src dst)).map Link.joint := by
  let joins (j : Id × Id × EdgeLabel) : Bool :=
    let e : Edge := ⟨0, j.1, j.2.1, j.2.2⟩
    e.src = src && e.dst = dst && e.dependenceSort?.any (·.isDefUse) && e.var?.any (·.same v)
  calc (defUseEdges d.toGraph v src dst).map Edge.joint
      = (d.edges.map Edge.joint).filter joins := by rw [filter_map]; rfl
    _ = ((links context.program (nodesOf c) c).found.map Link.joint).filter joins :=
        joints_filter h (by simp [joins, Edge.var?])
    _ = _ := by rw [filter_map]; rfl

theorem exists_defUseEdges_eq {src dst : Id}
    (hl : (links context.program (nodesOf c) c).found.filter (·.joins v src dst) = [l]) :
    ∃ e, defUseEdges d.toGraph v src dst = [e] ∧ e.dependenceSort? = some l.sort ∧
    e.carrier? = l.carrier := by
  have hjoints := joints_defUseEdges (v := v) h src dst
  rw [hl] at hjoints
  obtain ⟨e, hedges, hjoint⟩ := map_eq_singleton_iff.1 hjoints
  have hlabel : e.label = .dependence l.sort (some l.var) l.carrier := congrArg (·.2.2) hjoint
  exact ⟨e, hedges, by simp [Edge.dependenceSort?, hlabel], by simp [Edge.carrier?, hlabel]⟩

end

/-- **Def-use dependence is exact.**  A definition and a use are joined by exactly one edge if a
clear path leads from one to the other, and by none otherwise.  The edge is loop-independent if a
clear path closes no loop or if the value is that of a parameter; else it is carried by a loop that
some edge closes. -/
theorem defUseEdges_exact {σ : Type} {context : Context} {d : Pdg} {p q : σ × Trail} (hc : c.Assembled)
    (hrun : ((Pdg.ofCfg context c).run p : Except Error Pdg × σ × Trail) = (.ok d, q))
    {m n : Node} (hm : m ∈ d.nodes) (hn : n ∈ c.nodes) (hnd : n.id ∈ d.nodeIds) :
    (m.defines v = true ∧ n.usesVariable v = true ∧ ClearPath c v true m.id n.id →
      ∃ e, defUseEdges d.toGraph v m.id n.id = [e] ∧ (e.dependenceSort? = some .loopIndependent ↔
          ClearPath c v false m.id n.id ∨ m.sort = .parameter .formalIn ∨ n.sort = .parameter .formalOut) ∧
        (e.dependenceSort? ≠ some .loopIndependent → e.dependenceSort? = some .loopCarried ∧
            ∃ loop, e.carrier? = some loop ∧ ∃ b ∈ c.edges, b.loopBack? = some loop)) ∧
    (¬ (m.defines v = true ∧ n.usesVariable v = true ∧ ClearPath c v true m.id n.id) →
      defUseEdges d.toGraph v m.id n.id = []) := by
  have hc := hc.coherent
  have hderived : Derived context c d :=
    (Tracked.ends_iff_of_run hrun).1 (ends_ofCfg context c p)
  have hnode : c.node? n.id = some n := hc.node?_eq_some hn
  have huses : usesAt c v n.id = n.usesVariable v := by simp [usesAt, hnode]
  have hformal : isFormal c m n.id = true ↔
      m.sort = .parameter .formalIn ∨ n.sort = .parameter .formalOut := by
    simp [isFormal, hnode]
  have hg := (growing_nodesOf c 0).1.coherent
  have hmg : m ∈ (nodesOf c).nodes := hderived.nodes_eq ▸ hm
  have hng : n.id ∈ (nodesOf c).nodeIds := by
    rw [Graph.nodeIds, ← hderived.nodes_eq]
    exact hnd
  constructor
  · rintro ⟨hdef, huse, hpath⟩
    obtain ⟨l, hl, hjoins⟩ :=
      exists_joins hc hderived.complete hmg hng hdef (huses.trans huse) hpath
    obtain ⟨-, hjust⟩ := justified_of_joins hc hg hderived.complete hmg hl hjoins
    obtain ⟨e, hedges, hsort, hcarrier⟩ :=
      exists_defUseEdges_eq hderived (joins_unique hc hg hderived.complete hmg hl hjoins)
    simp only [Link.joins, Bool.and_eq_true, decide_eq_true_eq, same_iff] at hjoins
    have hind := hjust.independent
    have hcar := hjust.carried
    rw [hjoins.1.1.2, clearPath_congr hjoins.2, hformal] at hind hcar
    refine ⟨e, hedges, ?_, ?_⟩
    · rw [hsort]
      refine ⟨fun h => ?_, fun h => by rw [hind h]⟩
      by_contra hnot
      rw [(hcar hnot).1] at h
      simp at h
    · intro hne
      have hnot := fun h => hne (by rw [hsort, hind h])
      rw [hsort, hcarrier]
      exact ⟨by rw [(hcar hnot).1], (hcar hnot).2⟩
  · intro hnot
    have hnone : (links context.program (nodesOf c) c).found.filter
        (·.joins v m.id n.id) = [] := by
      rw [filter_eq_nil_iff]
      intro l hl hjoins
      obtain ⟨hdef, hjust⟩ := justified_of_joins hc hg hderived.complete hmg hl hjoins
      have huse := hjust.uses
      have hpath := hjust.path
      simp only [Link.joins, Bool.and_eq_true, decide_eq_true_eq, same_iff] at hjoins
      rw [hjoins.1.1.2, usesAt_congr hjoins.2, huses] at huse
      rw [hjoins.1.1.2, clearPath_congr hjoins.2] at hpath
      exact hnot ⟨hdef, huse, hpath⟩
    have hjoints := joints_defUseEdges (v := v) hderived m.id n.id
    rw [hnone, map_nil] at hjoints
    exact map_eq_nil_iff.1 hjoints

theorem ClearPath.exists_takes (h : ClearPath c v loopBack d u) : ∃ e, Takes c loopBack e ∧ e.src = d := by
  cases h with
  | single takes => exact ⟨_, takes, rfl⟩
  | cons takes _ _ => exact ⟨_, takes, rfl⟩

def counter : Variable :=
  { name := "i" }

def countingTest : Node :=
  { id := 3, sort := .statement .whileLoop, uses := [counter] }

def countingStep : Node :=
  { id := 4, sort := .statement .assignment, defs := [counter] }

def countingLoop : Cfg :=
  let ends := Cfg.ofEnds 0 { id := 1, sort := .entry .method } { id := 2, sort := .exit .method } "count"
  { ends with
    toGraph := (((((ends.toGraph.appendNode countingTest).appendNode countingStep).appendEdge
      ⟨5, 1, 3, .flow .true none⟩).appendEdge ⟨6, 3, 4, .flow .true none⟩).appendEdge
      ⟨7, 4, 3, .flow .true (some 3)⟩).appendEdge ⟨8, 3, 2, .flow .false none⟩ }

theorem assembled_countingLoop : countingLoop.Assembled := by
  have h := Cfg.Assembled.ends 0 { id := 1, sort := .entry .method }
    { id := 2, sort := .exit .method } "count"
  have h := h.edit (.addNode (n := countingTest) rfl) none
  have h := h.edit (.addNode (n := countingStep) rfl) none
  have h := h.edit (.addEdge (e := ⟨5, 1, 3, .flow .true none⟩) rfl) none
  have h := h.edit (.addEdge (e := ⟨6, 3, 4, .flow .true none⟩) rfl) none
  have h := h.edit (.addEdge (e := ⟨7, 4, 3, .flow .true (some 3)⟩) rfl) none
  exact h.edit (.addEdge (e := ⟨8, 3, 2, .flow .false none⟩) rfl) none

theorem exists_pdg_countingLoop : ∃ d q,
    (ofCfg { program := {} } countingLoop).run ((), { next := 9 }) = (.ok d, q) ∧
    d.nodes = [{ id := 1, sort := .entry .method }, countingTest, countingStep] := by
  have hcontrol : (ControlDependence.structural {} (nodesOf countingLoop) countingLoop).fault = none := by
    decide +kernel
  have hdata : (links {} (nodesOf countingLoop) countingLoop).fault = none := by decide +kernel
  obtain ⟨d, q, hrun, hderived⟩ := Tracked.Ends.exists_run
    ((ends_ofCfg { program := {} } countingLoop ((), { next := 9 })).mono (fun _ _ h => h)
      fun _ _ h => by simp [hcontrol, hdata] at h)
  exact ⟨d, q, hrun, hderived.nodes_eq⟩

/-- What the body writes is read in the next round: the loop carries the dependence. -/
theorem countingLoop_defUseEdges : countingLoop.Assembled ∧ ∃ d q,
    ((Pdg.ofCfg { program := {} } countingLoop).run ((), { next := 9 }) :
      Except Error Pdg × Unit × Trail) = (.ok d, q) ∧
    countingStep ∈ d.nodes ∧ countingTest ∈ countingLoop.nodes ∧ countingTest.id ∈ d.nodeIds ∧
    ∃ e, defUseEdges d.toGraph counter countingStep.id countingTest.id = [e] ∧
      e.dependenceSort? = some .loopCarried := by
  obtain ⟨d, q, hrun, hnodes⟩ := exists_pdg_countingLoop
  have hstep : countingStep ∈ d.nodes := by simp [hnodes]
  have htest : countingTest ∈ countingLoop.nodes := .tail _ (.tail _ (.head _))
  have hid : countingTest.id ∈ d.nodeIds := mem_map_of_mem (by simp [hnodes])
  have hpath : ClearPath countingLoop counter true countingStep.id countingTest.id :=
    .single (e := ⟨7, 4, 3, .flow .true (some 3)⟩) ⟨by decide, rfl, by simp⟩
  have hclosing : ∀ e ∈ countingLoop.edges, e.src = countingStep.id → e.isLoopBack = true := by decide
  have hnone : ¬ ClearPath countingLoop counter false countingStep.id countingTest.id := by
    intro h
    obtain ⟨e, htakes, hsrc⟩ := h.exists_takes
    exact absurd (hclosing e htakes.mem hsrc) (by simp [htakes.loop rfl])
  obtain ⟨e, hedges, hindependent, hcarried⟩ :=
    (defUseEdges_exact (v := counter) assembled_countingLoop hrun hstep htest hid).1
      ⟨by decide, by decide, hpath⟩
  refine ⟨assembled_countingLoop, d, q, hrun, hstep, htest, hid, e, hedges, (hcarried fun h => ?_).1⟩
  rcases hindependent.1 h with h | h | h
  · exact hnone h
  · cases h
  · cases h

end DataDependence

end ProgramDependence
