import ProgramDependence.Proofs.DefUse
import ProgramDependence.Proofs.Loops

/-!
# The loop that carries a dependence

A definition reaches a use in a later round of a loop along a clear path that closes a loop.  The
loop that is named for the dependence need not be that one: it is the innermost loop around both
ends, and only if no loop is around both the one that is closed.  An inner loop that is closed and
then left hands its value to the loop around it.
-/

namespace ProgramDependence

open List

namespace DataDependence

variable {c : Cfg} {v : Variable} {anchor : Node} {l : Link}

structure Crosses (c : Cfg) (v : Variable) (b : Edge) (d u : Id) : Prop where
  takes : Takes c true b
  before : d = b.src ∨ ClearPath c v true d b.src ∧ definesAt c v b.src = false
  after : b.dst = u ∨ definesAt c v b.dst = false ∧ ClearPath c v true b.dst u

def Around (c : Cfg) (loop d u : Id) : Prop :=
  d ∈ region c loop ∧ u ∈ region c loop

/-- A loop of smaller region, or of smaller id if the regions are equally large. -/
def Inner (c : Cfg) (l l' : Id) : Prop :=
  (region c l).length < (region c l').length ∨ (region c l).length = (region c l').length ∧ l ≤ l'

/-- The loops around two nodes with their regions, the innermost first. -/
def loopsAround (c : Cfg) (d u : Id) : List (Id × List Id) :=
  sortByTwo (fun r => (r.2.length : Int)) (·.1)
    ((regions c).entries.filter fun r => r.2.contains d && r.2.contains u)

theorem mem_loopsAround {d u : Id} {r : Id × List Id} :
    r ∈ loopsAround c d u ↔ r.1 ∈ loops c ∧ r.2 = region c r.1 ∧ Around c r.1 d u := by
  rw [loopsAround, sortByTwo, (perm_sortWith _ _).mem_iff]
  simp only [regions, mem_filter, mem_map, Bool.and_eq_true, contains_iff_mem, Around]
  constructor
  · rintro ⟨⟨l, hl, rfl⟩, hends⟩
    exact ⟨hl, rfl, hends⟩
  · rintro ⟨hl, hr, hends⟩
    rw [← hr] at hends
    exact ⟨⟨r.1, hl, Prod.ext rfl hr.symm⟩, hends⟩

theorem inner_of_carrier? {d u loop : Id} (h : carrier? (regions c) d u = some loop) :
    Around c loop d u ∧ ∀ l ∈ loops c, Around c l d u → Inner c loop l := by
  obtain ⟨r, hr, rfl⟩ := Option.map_eq_some_iff.1 h
  obtain ⟨rest, hsorted : loopsAround c d u = r :: rest⟩ := head?_eq_some_iff.1 hr
  have hpairwise : (loopsAround c d u).Pairwise fun a b =>
      a.2.length < b.2.length ∨ a.2.length = b.2.length ∧ a.1 ≤ b.1 :=
        (pairwise_sortByTwo _ _ _).imp (by grind)
  rw [hsorted, pairwise_cons] at hpairwise
  obtain ⟨-, hregion, haround⟩ := mem_loopsAround.1 (hsorted ▸ mem_cons_self)
  refine ⟨haround, fun l hl hends => ?_⟩
  have hmem : (l, region c l) ∈ r :: rest := hsorted ▸ mem_loopsAround.2 ⟨hl, rfl, hends⟩
  rw [Inner, ← hregion]
  rcases mem_cons.1 hmem with rfl | hmem
  · exact .inr ⟨rfl, Int.le_refl _⟩
  · exact hpairwise.1 _ hmem

theorem not_around_of_carrier? {d u l : Id} (h : carrier? (regions c) d u = none)
    (hl : l ∈ loops c) : ¬ Around c l d u := by
  intro hends
  have hnil : loopsAround c d u = [] := head?_eq_none_iff.1 (Option.map_eq_none_iff.1 h)
  have hmem : (l, region c l) ∈ loopsAround c d u := mem_loopsAround.2 ⟨hl, rfl, hends⟩
  rw [hnil] at hmem
  cases hmem

/-- The loop that is named for a dependence: the innermost one around its ends, or else one that a
clear path closes. -/
structure CarriedBy (c : Cfg) (v : Variable) (d u loop : Id) : Prop where
  isLoop : ∃ n ∈ c.nodes, n.id = loop ∧ n.sort.isLoop = true
  closes : ∃ b, b.isLoopBack = true ∧ Crosses c v b d u
  inner : ∀ l ∈ loops c, Around c l d u → Around c loop d u ∧ Inner c loop l
  closed : (∀ l ∈ loops c, ¬ Around c l d u) → ∃ b, b.loopBack? = some loop ∧ Crosses c v b d u

theorem crosses_of_mem_loopReach (hc : c.Coherent) {regions : Table Id (List Id)} {d : Id} {r : Edge × Id}
    (hr : r ∈ loopReach c regions v d) : r.1.isLoopBack = true ∧ Crosses c v r.1 d r.2 := by
  obtain ⟨hmem, hreach⟩ := (loopReach_carried hc regions d).reached r hr
  obtain ⟨htakes, hloop, hsrc⟩ := (mem_blockedEdges hc).1 ((mem_blockedInOrder _).1 hmem)
  refine ⟨hloop, htakes, ?_, ?_⟩
  · rcases hsrc with hsrc | ⟨hsrc, hclear⟩
    · exact .inl hsrc.symm
    · exact .inr ⟨((mem_independentReach hc).1 hsrc).closing, hclear⟩
  · rcases hreach.cases_head with heq | ⟨y, hstep, hreach⟩
    · exact .inl heq
    · obtain ⟨hclear, f, hf, hsrc, rfl⟩ := (mem_clearNext hc).1 hstep
      exact .inr ⟨hclear, (clearPath_iff hc).2 ⟨f, hf, hsrc, hreach⟩⟩

theorem carriedBy_of_mem_defUse (hc : c.Coherent)
    (hloops : ∀ e ∈ c.edges, ∀ loop, e.loopBack? = some loop → ∃ n ∈ c.nodes, n.id = loop ∧
      n.sort.isLoop = true)
    (h : (defUse c (regions c) anchor v).fault = none) (hl : l ∈ (defUse c (regions c) anchor v).found)
    (hsort : l.sort = .loopCarried) : ∃ loop, l.carrier = some loop ∧ CarriedBy c v anchor.id l.dst loop := by
  rw [found_defUse h] at hl
  rcases mem_append.1 hl with hl | hl
  · obtain ⟨n, -, rfl⟩ := mem_map.1 hl
    cases hsort
  · obtain ⟨r, hr, rfl⟩ := mem_map.1 hl
    obtain ⟨hloop, hcrosses⟩ := crosses_of_mem_loopReach hc (mem_of_mem_filter hr)
    unfold carriedLink at hsort ⊢
    split at hsort
    · cases hsort
    · rw [if_neg ‹_›]
      obtain ⟨own, hown⟩ := Option.isSome_iff_exists.1 hloop
      cases hcarrier : carrier? (regions c) anchor.id r.2 with
      | some loop =>
        obtain ⟨b, hb, htag⟩ := loop_of_carrier? hcarrier
        obtain ⟨haround, hinner⟩ := inner_of_carrier? hcarrier
        exact ⟨loop, rfl, hloops b hb loop htag, ⟨r.1, hloop, hcrosses⟩, fun l hl hends =>
          ⟨haround, hinner l hl hends⟩,
          fun hnone => absurd haround (hnone loop (mem_loops.2 ⟨b, hb, htag⟩))⟩
      | none =>
        exact ⟨own, hown, hloops r.1 hcrosses.takes.mem own hown, ⟨r.1, hloop, hcrosses⟩,
          fun l hl hends => absurd hends (not_around_of_carrier? hcarrier hl), fun _ => ⟨r.1, hown, hcrosses⟩⟩

theorem tag_isLoop {u : Plan} {single : Bool} (h : c.Realizes u) (hmirrors : Lowering.Mirrors single u.body)
    {e : Edge} (he : e ∈ c.edges) {loop : Id} (hloop : e.loopBack? = some loop) :
    ∃ n ∈ c.nodes, n.id = loop ∧ n.sort.isLoop = true := by
  have htag : e.wire.loop = some loop := hloop
  rcases Cfg.Realizes.wire_cases (h.wire_mem he) with ⟨hnone, -⟩ | ⟨ring, hr, -, -, htest⟩
  · rw [hnone] at htag
    cases htag
  · obtain rfl : loop = ring.test := Option.some.inj (htag.symm.trans htest)
    exact h.exists_loop_node hmirrors hr

open Tracked in
/-- **The loop named for a loop-carried dependence is a loop node of the method**, and some clear
path from the definition to the use closes a loop.  The loop named is the innermost one around both;
if there is none around both, a clear path closes the loop named. -/
theorem ofUnit_carriedBy {σ : Type} {context : Context} {r : MethodRef} {d : Pdg} {p q : σ × Trail}
    (hrun : ((Pdg.ofUnit context (.method r)).run p : Except Error Pdg × σ × Trail) = (.ok d, q)) :
    ∃ c, d.cfg = some c ∧ ∀ e ∈ d.edges, ∀ v, e.dependenceSort? = some .loopCarried →
      e.var? = some v → ∃ loop, e.carrier? = some loop ∧ CarriedBy c v e.src e.dst loop := by
  have hends : Ends (Pdg.ofUnit context (.method r)) p (fun d _ => ∃ c u m, c.Realizes u ∧
      u.OfMethod (Cfg.scopeOf context m) r m ∧ Pdg.Derived context c d) (fun _ _ => True) := by
    simp only [Pdg.ofUnit, ends_bind, Cfg.ofUnit]
    split
    · refine (Cfg.ends_ofMethod context r _ p).partly ?_
      rintro c q ⟨u, hrealizes, hu, -⟩
      exact (Pdg.ends_ofCfg context c q).partly fun d _ h => ⟨c, u, _, hrealizes, hu, h⟩
    · simp
  obtain ⟨c, u, m, hrealizes, hu, hderived⟩ := (ends_iff_of_run hrun).1 hends
  refine ⟨c, hderived.cfg_eq, fun e he v hsort hvar => ?_⟩
  let test (j : Id × Id × EdgeLabel) : Bool := (Edge.mk 0 j.1 j.2.1 j.2.2).var?.isSome
  have hjoint : e.joint ∈ (d.edges.map Edge.joint).filter test :=
    mem_filter.2 ⟨mem_map_of_mem he, Option.isSome_iff_exists.2 ⟨v, hvar⟩⟩
  rw [joints_filter hderived fun _ _ _ => rfl] at hjoint
  obtain ⟨l, hl, hjoint⟩ := mem_map.1 (mem_of_mem_filter hjoint)
  obtain ⟨_, _, _, _⟩ := e
  cases hjoint
  obtain rfl : l.var = v := Option.some.inj hvar
  have hcarried : l.sort = .loopCarried := Option.some.inj hsort
  obtain ⟨n, -, w, -, hfault, hl⟩ := exists_of_mem_found hderived.complete hl (by rw [hcarried]; rfl)
  have hjust := justified_of_mem_defUse hrealizes.coherent hfault hl
  show ∃ loop, l.carrier = some loop ∧ CarriedBy c l.var l.src l.dst loop
  rw [hjust.src_eq, hjust.var_eq]
  exact carriedBy_of_mem_defUse hrealizes.coherent
    (fun _ he _ => tag_isLoop hrealizes hu.mirrors.toMirrors he) hfault hl hcarried

def handedOn : Variable :=
  { name := "x", type := "int", owner := "m" }

def leftLoop : Method :=
  let write (value : String) (line : Int) : Stmt :=
    .expression (.assignment (.name (some handedOn) "x" line) (.literal value "int" line) "=" line) line
  { name := "m"
    body := .whileLoop (.literal "true" "boolean" 1)
      (.block [.whileLoop (.literal "true" "boolean" 2) (write "1" 3) 2,
      .expression (.name (some handedOn) "x" 4) 4, write "2" 5] 1) 1 }

def handedOnEdge : Edge :=
  ⟨21, 7, 10, .dependence .loopCarried (some handedOn) (some 3)⟩

/-- The outer loop is named, but it is only closed after the value is overwritten. -/
theorem exists_pdg_leftLoop : ∃ d q,
    (Pdg.ofUnit { program := { methods := [leftLoop] } } (.method ⟨0⟩)).run ((), { next := 1 }) = (.ok d, q) ∧
    handedOnEdge ∈ d.edges ∧ d.cfg.isSome = true ∧
    ∀ c ∈ d.cfg, ∀ b ∈ c.edges, b.loopBack? = some 3 → 7 ≠ b.src ∧ definesAt c handedOn b.src = true :=
  Tracked.Ends.exists_run (by decide +kernel)

theorem leftLoop_carriedBy : ∃ d q c,
    ((Pdg.ofUnit { program := { methods := [leftLoop] } } (.method ⟨0⟩)).run ((), { next := 1 }) :
      Except Error Pdg × Unit × Trail) = (.ok d, q) ∧ d.cfg = some c ∧ CarriedBy c handedOn 7 10 3 := by
  obtain ⟨d, q, hrun, hedge, -⟩ := exists_pdg_leftLoop
  obtain ⟨c, hcfg, hcarried⟩ := ofUnit_carriedBy hrun
  obtain ⟨loop, hloop, h⟩ := hcarried handedOnEdge hedge handedOn rfl rfl
  cases hloop
  exact ⟨d, q, c, hrun, hcfg, h⟩

/-- No clear path between the ends of the dependence closes the loop that is named for it. -/
theorem leftLoop_not_closed : ∃ d q c,
    ((Pdg.ofUnit { program := { methods := [leftLoop] } } (.method ⟨0⟩)).run ((), { next := 1 }) :
      Except Error Pdg × Unit × Trail) = (.ok d, q) ∧ d.cfg = some c ∧ handedOnEdge ∈ d.edges ∧
    ∀ b, b.loopBack? = some 3 → ¬ Crosses c handedOn b 7 10 := by
  obtain ⟨d, q, hrun, hedge, hsome, hback⟩ := exists_pdg_leftLoop
  obtain ⟨c, hcfg⟩ := Option.isSome_iff_exists.1 hsome
  refine ⟨d, q, c, hrun, hcfg, hedge, fun b hloop hcrosses => ?_⟩
  obtain ⟨hsrc, hdefines⟩ := hback c hcfg b hcrosses.takes.mem hloop
  rcases hcrosses.before with h | ⟨-, h⟩
  · exact hsrc h
  · rw [hdefines] at h
    cases h

end DataDependence

end ProgramDependence
