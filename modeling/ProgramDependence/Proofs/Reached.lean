import ProgramDependence.Proofs.Summaries
import ProgramDependence.Proofs.UnitGraphs

/-!
# What a system takes in

Units wait on a stack: a unit is settled when its graph is added or when it turns out that it cannot
be built, and the units it leads to are put on the stack.  A unit is passed over if it is settled
when its turn comes, and does not come onto the stack if the system has it.  So each graph that
comes in has all units it leads to settled in the end (`Extends`), and as each unit settles at most
once, the steps that are allowed are never used up.
-/

namespace ProgramDependence

open List

namespace SystemGraph

open Tracked

variable {context : Context} {roots : UnitRef → Prop} {g g' g'' : SystemGraph} {u v : UnitRef}
variable {P : Program} {us : List UnitRef}

/-- The units that roots lead to: from a method that can be built, the callees of its calls and,
where the settings ask for them, the fields it accesses. -/
inductive Reached (context : Context) (roots : UnitRef → Prop) : UnitRef → Prop where
  | root {u : UnitRef} (isRoot : roots u) : Reached context roots u
  | callee {r m : MethodRef} {d : Pdg} {n : Node} {ins outs : List Id} {x : Bool}
      (reached : Reached context roots (.method r)) (of : Pdg.Of context (.method r) d)
      (call : n ∈ d.callNodes)
      (payload : n.payload = .call m ins outs x)
      (inProject : context.program.unitInProject (.method m) = true) : Reached context roots (.method m)
  | field {r : MethodRef} {m : Method} {d : Pdg} {f : FieldRef}
      (reached : Reached context roots (.method r)) (of : Pdg.Of context (.method r) d)
      (setting : context.settings.includeFieldPdgs.truthy = true)
      (method : context.program.method? r = some m)
      (accessed : f ∈ Program.accessedFields m)
      (inProject : context.program.unitInProject (.field f) = true) : Reached context roots (.field f)

theorem mem_leadsTo_method {r : MethodRef} {d : Pdg} : v ∈ leadsTo context (.method r) d ↔
    context.program.unitInProject v = true ∧
      ((∃ n ∈ d.callNodes, ∃ m ins outs x, n.payload = .call m ins outs x ∧ v = .method m) ∨
        context.settings.includeFieldPdgs.truthy = true ∧
          ∃ m, context.program.method? r = some m ∧ ∃ f ∈ Program.accessedFields m, v = .field f) := by
  simp only [leadsTo, mem_filter, mem_append, mem_filterMap]
  rw [and_comm]
  refine and_congr_right fun _ => or_congr ?_ ?_
  · refine exists_congr fun n => and_congr_right fun _ => ?_
    cases n.payload <;> simp [eq_comm]
  · cases context.settings.includeFieldPdgs.truthy with
    | false => simp
    | true => cases context.program.method? r <;> simp [eq_comm]

theorem Reached.lead {d : Pdg} (reached : Reached context roots u) (of : Pdg.Of context u d)
    (leads : v ∈ leadsTo context u d) : Reached context roots v := by
  cases u with
  | field r => cases leads
  | method r =>
    obtain ⟨hproject, hcallee | hfield⟩ := mem_leadsTo_method.1 leads
    · obtain ⟨n, hn, m, ins, outs, x, hpayload, rfl⟩ := hcallee
      exact reached.callee of hn hpayload hproject
    · obtain ⟨hsetting, m, hm, f, hf, rfl⟩ := hfield
      exact reached.field of hsetting hm hf hproject

theorem Reached.has (hroots : ∀ u, roots u → context.program.Has u) (h : Reached context roots u) :
    context.program.Has u := by
  cases h with
  | root isRoot => exact hroots u isRoot
  | callee _ _ _ _ inProject | field _ _ _ _ _ inProject => exact Program.has_of_inProject inProject

/-! ## Graphs of their units -/

/-- A system that was put together from a cache of one program: each graph is one of a unit of its
name. -/
structure Sourced (context : Context) (p : BuildCache Pdg × Trail) (g : SystemGraph) : Prop where
  composed : Composed context.program p.1 p.2.next g
  sound : p.1.Sound context
  units : ∀ e ∈ g.pdgs.entries, ∃ u, context.program.unitName u = e.1 ∧ Pdg.Of context u e.2

section

variable {p : BuildCache Pdg × Trail}

theorem Sourced.ends_integrateOne (h : Sourced context p g) (u : UnitRef) : Ends (integrateOne context u g) p
    (fun r q => Sourced context q r.1) (fun _ q => q.1.Sound context) := by
  simp only [integrateOne, Cfg.catching, ends_bind, ends_tryCatch, ends_pure]
  refine ((ends_cachedPdg context u p).and (ends_cachedPdg_of h.sound)).mono ?_ ?_
  · rintro d q ⟨⟨hgrown, hmem⟩, hsound, -, v, -, hd⟩
    simp only [ends_within]
    refine ((h.composed.grown hgrown).ends_addPdg (p := (g, q.2)) hmem).always ?_
    rintro _ ⟨g', t⟩ ⟨rfl, hcomposed, htakes⟩
    refine Composed.ends_requireCallSites u d ⟨hcomposed, hsound, ?_⟩ fun _ => hsound
    split at htakes
    · rw [show g' = g from htakes]
      exact h.units
    · rw [htakes.entries_eq]
      exact forall_mem_append.2 ⟨h.units, forall_mem_singleton.2 ⟨v, hd.known.2.symm, hd⟩⟩
  · rintro e q ⟨hgrown, hsound, -⟩
    cases e with
    | construction name fault =>
      simp only [ends_pure, ends_bind, ends_report]
      exact ⟨(h.composed.grown (hgrown.trans (.of_same rfl (Int.le_refl _)))).failed _, hsound, h.units⟩
    | _ => exact hsound

/-- **Whatever units a system is built of, its graphs and those of the cache are graphs of units of
their names.** -/
theorem ends_ofUnits_sourced (name : String) (us : List UnitRef) (htidy : p.1.Tidy p.2.next)
    (hsound : p.1.Sound context) : Ends (ofUnits context name us) p
      (fun g' q => q.1.Sound context ∧ ∃ g r, Sourced context r g ∧
        Composed.Connected context.program g ∧ ∃ t es, SummaryGains (g, r.2) (g', t) es)
      (fun _ q => q.1.Sound context) := by
  have heach : Ends (integrateEach context us (ofName name)) p
      (fun g q => Sourced context q g ∧ Composed.Connected context.program g)
      (fun _ q => q.1.Sound context) := by
    refine ends_integrateEach_keeps (K := Sourced context) (fun u h => h.ends_integrateOne u) ?_
      (fun h => h.1) us ⟨⟨.empty htidy name, hsound, forall_mem_nil _⟩, Composed.connected_ofName _ name⟩
    intro q g h
    refine (Composed.ends_connectAll (p := (g, q.2)) h.composed).always ?_
    rintro _ r ⟨hcomposed, ⟨es, hgains⟩, hconnected⟩
    exact ⟨⟨hcomposed, h.sound, hgains.pdgs_eq ▸ h.units⟩, hconnected⟩
  simp only [ofUnits, ends_bind]
  refine heach.imp ?_
  rintro g q ⟨hsourced, hconnected⟩
  refine (ends_complete context hsourced.composed hconnected).always ?_
  rintro g' r ⟨⟨_, hsame⟩, ⟨t, es, hgains, -⟩, _⟩
  exact ⟨hsame ▸ hsourced.sound, g, q, hsourced, hconnected, t, es, hgains⟩

end

/-! ## Settled units -/

theorem isSettled_iff :
    g.isSettled P u = true ↔ P.unitName u ∈ g.pdgs.keys ∨ P.unitName u ∈ g.failures.keys := by
  rw [isSettled, Bool.or_eq_true, Table.contains_iff, Table.contains_iff]

/-- What a system gains while units are taken in. -/
structure Extends (context : Context) (g g' : SystemGraph) : Prop where
  pdgs : g.pdgs.entries ⊆ g'.pdgs.entries
  failures : g.failures.keys ⊆ g'.failures.keys
  led : ∀ e ∈ g'.pdgs.entries, e ∈ g.pdgs.entries ∨
    ∀ u, context.program.Has u → context.program.unitName u = e.1 →
      ∀ v ∈ leadsTo context u e.2, g'.isSettled context.program v = true

namespace Extends

theorem settled (h : Extends context g g') (hu : g.isSettled context.program u = true) :
    g'.isSettled context.program u = true := by
  rw [isSettled_iff] at hu ⊢
  exact hu.imp (fun hu => map_subset _ h.pdgs hu) fun hu => h.failures hu

theorem refl (context : Context) (g : SystemGraph) : Extends context g g :=
  ⟨.refl _, .refl _, fun _ he => .inl he⟩

theorem trans (h : Extends context g g') (h' : Extends context g' g'') : Extends context g g'' where
  pdgs := List.Subset.trans h.pdgs h'.pdgs
  failures := List.Subset.trans h.failures h'.failures
  led e he := by
    rcases h'.led e he with he | hled
    · rcases h.led e he with he | hled
      · exact .inl he
      · exact .inr fun u hu hname v hv => h'.settled (hled u hu hname v hv)
    · exact .inr hled

end Extends

def allUnits (P : Program) : List UnitRef :=
  (List.range P.methods.length).map (fun i => .method ⟨i⟩) ++
    (List.range P.fields.length).map fun i => .field ⟨i⟩

theorem length_allUnits (P : Program) : (allUnits P).length = P.unitCount := by
  rw [allUnits, length_append, length_map, length_map, length_range, length_range, Program.unitCount,
    Nat.add_comm]

theorem mem_allUnits (h : P.Has u) : u ∈ allUnits P := by
  cases u with
  | method r =>
    obtain ⟨m, hm⟩ := Option.isSome_iff_exists.1 h
    have hlt : r.index < P.methods.length := (List.getElem?_eq_some_iff.1 hm).1
    exact List.mem_append_left _ (List.mem_map.2 ⟨r.index, List.mem_range.2 hlt, rfl⟩)
  | field r =>
    obtain ⟨f, hf⟩ := Option.isSome_iff_exists.1 h
    have hlt : r.index < P.fields.length := (List.getElem?_eq_some_iff.1 hf).1
    exact List.mem_append_right _ (List.mem_map.2 ⟨r.index, List.mem_range.2 hlt, rfl⟩)

def unsettled (P : Program) (g : SystemGraph) : Nat :=
  (allUnits P).countP fun u => !g.isSettled P u

theorem unsettled_le_unitCount (P : Program) (g : SystemGraph) : unsettled P g ≤ P.unitCount := by
  rw [← length_allUnits]
  exact countP_le_length

theorem unsettled_lt (hu : P.Has u) (hnot : g.isSettled P u = false) (hsettled : g'.isSettled P u = true)
    (h : ∀ u, g.isSettled P u = true → g'.isSettled P u = true) : unsettled P g' < unsettled P g := by
  have hsublist : ((allUnits P).filter fun u => !g'.isSettled P u).Sublist
      ((allUnits P).filter fun u => !g.isSettled P u) := by
    refine monotone_filter_right _ fun v hv => ?_
    rw [Bool.not_eq_true', ← Bool.not_eq_true] at hv ⊢
    exact fun hold => hv (h v hold)
  simp only [unsettled, countP_eq_length_filter]
  refine Nat.lt_of_le_of_ne hsublist.length_le fun hlength => ?_
  have hmem : u ∈ (allUnits P).filter fun u => !g.isSettled P u :=
    mem_filter.2 ⟨mem_allUnits hu, by rw [hnot]; rfl⟩
  rw [← hsublist.eq_of_length hlength, mem_filter, hsettled] at hmem
  exact absurd hmem.2 Bool.false_ne_true

/-! ## Taking in units -/

/-- What holds while the units that roots lead to are taken in. -/
structure Taking (context : Context) (roots : UnitRef → Prop) (p : BuildCache Pdg × Trail)
    (g : SystemGraph) : Prop where
  composed : Composed context.program p.1 p.2.next g
  sound : p.1.Sound context
  units : ∀ e ∈ g.pdgs.entries, ∃ u, Reached context roots u ∧ context.program.unitName u = e.1 ∧
    Pdg.Of context u e.2
  failures : ∀ name ∈ g.failures.keys, ∃ u, Reached context roots u ∧
    context.program.unitName u = name ∧ Pdg.Raises context u
  nodup : g.failures.keys.Nodup
  nodes_eq : g.nodes = g.pdgs.values.flatMap (·.nodes)

/-- A unit was settled, and leads to further ones that the system lacks. -/
structure Settles (context : Context) (u : UnitRef) (g g' : SystemGraph) (next : List UnitRef) : Prop where
  pdgs : g.pdgs.entries ⊆ g'.pdgs.entries
  failures : g.failures.keys ⊆ g'.failures.keys
  settled : g'.isSettled context.program u = true
  new : ∀ e ∈ g'.pdgs.entries, e ∈ g.pdgs.entries ∨
    e.1 = context.program.unitName u ∧ next = g'.lacking context.program (leadsTo context u e.2)

theorem settled_or_mem_lacking (hv : v ∈ us) :
    g.isSettled P v = true ∨ v ∈ g.lacking P us := by
  cases hcontains : g.pdgs.contains (P.unitName v) with
  | true => exact .inl (by rw [isSettled, hcontains, Bool.true_or])
  | false => exact .inr (mem_filter.2 ⟨hv, by rw [hcontains]; rfl⟩)

/-- The top of a stack is not settled when those that are have been passed over. -/
theorem isSettled_top {stack rest : List UnitRef}
    (h : stack.dropWhile (g.isSettled P) = u :: rest) : g.isSettled P u = false := by
  have hhead := head?_dropWhile_not (g.isSettled P) stack
  rw [h] at hhead
  simpa using hhead

variable {p q : BuildCache Pdg × Trail}

theorem Taking.takes (h : Taking context roots p g) (hu : Reached context roots u) {d : Pdg}
    (hd : Pdg.Of context u d) (hcomposed : Composed context.program q.1 q.2.next g')
    (hsound : q.1.Sound context) (htakes : Takes context.program d g g') :
    Taking context roots q g' ∧
    Settles context u g g' (g'.lacking context.program (leadsTo context u d)) := by
  have hkey := hd.known.2
  constructor
  · refine ⟨hcomposed, hsound, ?_, ?_, ?_, ?_⟩
    · rw [htakes.entries_eq]
      refine forall_mem_append.2 ⟨h.units, forall_mem_singleton.2 ⟨u, hu, hkey.symm, hd⟩⟩
    · rw [htakes.failures_eq]
      exact h.failures
    · rw [htakes.failures_eq]
      exact h.nodup
    · rw [htakes.nodes_eq, htakes.values_eq, flatMap_append, h.nodes_eq, flatMap_singleton]
  · refine ⟨?_, ?_, ?_, ?_⟩
    · rw [htakes.entries_eq]
      exact subset_append_left _ _
    · rw [htakes.failures_eq]
      exact .refl _
    · rw [isSettled_iff, Table.keys, htakes.entries_eq, map_append, ← hkey]
      exact .inl (mem_append_right _ (mem_singleton_self _))
    · rw [htakes.entries_eq]
      exact forall_mem_append.2 ⟨fun e he => .inl he, forall_mem_singleton.2 (.inr ⟨hkey, rfl⟩)⟩

theorem Taking.fails (h : Taking context roots p g) (hu : Reached context roots u)
    (hnot : g.isSettled context.program u = false) (hraises : Pdg.Raises context u) (e : Error)
    (hcomposed : Composed context.program q.1 q.2.next
      { g with failures := g.failures.insert (context.program.unitName u) e }) (hsound : q.1.Sound context) :
    Taking context roots q { g with failures := g.failures.insert (context.program.unitName u) e } ∧
      Settles context u g { g with failures := g.failures.insert (context.program.unitName u) e } [] := by
  have hnew : context.program.unitName u ∉ g.failures.keys := by
    intro hmem
    rw [isSettled_iff.2 (.inr hmem)] at hnot
    cases hnot
  have hkeys : (g.failures.insert (context.program.unitName u) e).keys =
      g.failures.keys ++ [context.program.unitName u] := by
    rw [Table.keys_insert, if_neg hnew]
  constructor
  · refine ⟨hcomposed, hsound, h.units, ?_, ?_, h.nodes_eq⟩
    · rw [hkeys]
      exact forall_mem_append.2 ⟨h.failures, forall_mem_singleton.2 ⟨u, hu, rfl, hraises⟩⟩
    · rw [hkeys]
      exact nodup_append.2 ⟨h.nodup, nodup_singleton _, fun name hname name' hname' heq =>
        hnew (mem_singleton.1 hname' ▸ heq ▸ hname)⟩
  · refine ⟨.refl _, ?_, ?_, fun e he => .inl he⟩
    · rw [hkeys]
      exact subset_append_left _ _
    · rw [isSettled_iff, hkeys]
      exact .inr (mem_append_right _ (mem_singleton_self _))

/-- How a unit that is not settled is taken in, with the units it leads to: the graph that the cache
has for it is added, or it is listed why it cannot be built. -/
inductive Admits (context : Context) (u : UnitRef) (cache : BuildCache Pdg) (g : SystemGraph) :
    SystemGraph → List UnitRef → Prop where
  | taken {d : Pdg} {g' : SystemGraph} (of : Pdg.Of context u d)
      (cached : cache.get? (context.program.unitName u) = some d) (takes : Takes context.program d g g') :
      Admits context u cache g g' (g'.lacking context.program (leadsTo context u d))
  | refused {e : Error} (raises : Pdg.Raises context u) (refuses : Pdg.Refuses context u e) :
      Admits context u cache g { g with failures := g.failures.insert (context.program.unitName u) e } []

theorem ends_requireCallSites_of {σ : Type} {d : Pdg} (hd : Pdg.Of context u d) (p : σ × Trail) :
    Returns (requireCallSites u d) p fun _ q => q = p := by
  have hall : d.callNodes.all (·.isCallSite) = true := by
    rw [all_eq_true]
    intro call hcall
    obtain ⟨m, ins, outs, x, hpayload⟩ := hd.intact.exists_call hcall
    rw [Node.isCallSite, hpayload]
  cases u with
  | field f => rfl
  | method m =>
    rw [requireCallSites, if_pos hall]
    rfl

/-- **A unit that is not settled is taken in.** -/
theorem ends_integrateOne_admits (hnamed : context.program.Named) (hu : context.program.Has u)
    (hcomposed : Composed context.program p.1 p.2.next g) (hsound : p.1.Sound context)
    (hnot : g.isSettled context.program u = false) :
    Returns (integrateOne context u g) p fun r q => Grown p q ∧ Composed context.program q.1 q.2.next r.1 ∧
      q.1.Sound context ∧ Admits context u q.1 g r.1 r.2 := by
  simp only [integrateOne, Cfg.catching, ends_bind, ends_tryCatch, ends_pure]
  refine ((ends_cachedPdg context u p).and (ends_cachedPdg_of hsound)).mono ?_ ?_
  · rintro d q ⟨⟨hgrown, hmem⟩, hsound', hcached, v, hname, hd⟩
    obtain rfl := hnamed v u hd.has hu hname
    have habsent : g.pdgs.contains (d.key context.program) = false := by
      rw [isSettled, Bool.or_eq_false_iff] at hnot
      rw [hd.known.2]
      exact hnot.1
    simp only [ends_within]
    refine ((hcomposed.grown hgrown).ends_addPdg (p := (g, q.2)) hmem).always ?_
    rintro _ ⟨g', t⟩ ⟨rfl, hcomposed', htakes⟩
    rw [habsent] at htakes
    refine (ends_requireCallSites_of hd _).imp ?_
    rintro _ _ rfl
    exact ⟨hgrown, hcomposed', hsound', .taken hd hcached htakes⟩
  · rintro e q ⟨hgrown, hsound', hrefused⟩
    obtain ⟨hraises, hrefuses, name, fault, rfl⟩ := hrefused hu
    simp only [ends_pure, ends_bind, ends_report]
    have hreport : ∀ log, Grown p (q.1, { q.2 with log := log }) := fun _ =>
      hgrown.trans (.of_same rfl (Int.le_refl _))
    exact ⟨hreport _, (hcomposed.grown (hreport _)).failed _, hsound', .refused hraises hrefuses⟩

/-- **A unit that is not settled is settled.** -/
theorem ends_integrateOne_taking (hnamed : context.program.Named) (hu : context.program.Has u)
    (h : Taking context roots p g) (hreached : Reached context roots u)
    (hnot : g.isSettled context.program u = false) :
    Returns (integrateOne context u g) p fun r q => Grown p q ∧ Taking context roots q r.1 ∧
      Settles context u g r.1 r.2 ∧ ∀ v ∈ r.2, Reached context roots v := by
  refine (ends_integrateOne_admits hnamed hu h.composed h.sound hnot).imp ?_
  rintro ⟨g', next⟩ q ⟨hgrown, hcomposed, hsound, hadmits⟩
  dsimp only at hadmits
  cases hadmits with
  | taken of _ takes =>
    obtain ⟨htaking, hsettles⟩ := h.takes hreached of hcomposed hsound takes
    exact ⟨hgrown, htaking, hsettles, fun v hv => hreached.lead of (mem_filter.1 hv).1⟩
  | refused raises _ =>
    obtain ⟨htaking, hsettles⟩ := h.fails hreached hnot raises _ hcomposed hsound
    exact ⟨hgrown, htaking, hsettles, fun v hv => absurd hv not_mem_nil⟩

/-- What a step does that takes in units with everything they lead to. -/
def Absorbs (context : Context) (roots : UnitRef → Prop) (p : BuildCache Pdg × Trail)
    (g : SystemGraph) (us : List UnitRef) (g' : SystemGraph) (q : BuildCache Pdg × Trail) : Prop :=
  Grown p q ∧ Taking context roots q g' ∧ Extends context g g' ∧
    ∀ u ∈ us, g'.isSettled context.program u = true

/-- **The units of a stack are taken in with everything they lead to,** if there are as many steps
as units left. -/
theorem ends_integrateStack_taking (hnamed : context.program.Named)
    (hroots : ∀ u, roots u → context.program.Has u) {steps : Nat} {stack : List UnitRef}
    (h : Taking context roots p g) (hstack : ∀ u ∈ stack, Reached context roots u)
    (hsteps : unsettled context.program g < steps) :
    Returns (integrateStack context steps stack g) p (Absorbs context roots p g stack) := by
  induction steps generalizing stack g p with
  | zero => exact absurd hsteps (Nat.not_lt_zero _)
  | succ steps ih =>
    have hsplit := takeWhile_append_dropWhile (p := g.isSettled context.program) (l := stack)
    have hpassed : ∀ v ∈ stack.takeWhile (g.isSettled context.program),
      g.isSettled context.program v = true :=
      all_eq_true.1 all_takeWhile
    rw [integrateStack]
    split
    · rename_i hnone
      rw [hnone, append_nil] at hsplit
      exact ⟨.refl p, h, .refl context g, hsplit ▸ hpassed⟩
    · rename_i u rest htop
      rw [htop] at hsplit
      rw [← hsplit] at hstack ⊢
      obtain ⟨-, hu, hrest⟩ := by simpa only [forall_mem_append, forall_mem_cons] using hstack
      have hnot := isSettled_top htop
      rw [returns_bind]
      refine (ends_integrateOne_taking hnamed (hu.has hroots) h hu hnot).imp ?_
      rintro ⟨g₁, next⟩ q ⟨hgrown, htaking, hsettles, hnext⟩
      dsimp only at hsettles htaking
      have hmono : ∀ v, g.isSettled context.program v = true → g₁.isSettled context.program v = true := by
        intro v hv
        rw [isSettled_iff] at hv ⊢
        exact hv.imp (fun hv => map_subset _ hsettles.pdgs hv) fun hv => hsettles.failures hv
      have hless := unsettled_lt (hu.has hroots) hnot hsettles.settled hmono
      have hpushed : ∀ v ∈ next.reverse ++ rest, Reached context roots v :=
        forall_mem_append.2 ⟨fun v hv => hnext v (mem_reverse.1 hv), hrest⟩
      refine (ih htaking hpushed (by omega)).imp ?_
      rintro g₂ r ⟨hgrown', htaking', hextends, hall⟩
      rw [forall_mem_append] at hall
      refine ⟨hgrown.trans hgrown', htaking', ⟨?_, ?_, ?_⟩, forall_mem_append.2 ⟨fun v hv => ?_,
        forall_mem_cons.2 ⟨hextends.settled hsettles.settled, hall.2⟩⟩⟩
      · exact List.Subset.trans hsettles.pdgs hextends.pdgs
      · exact List.Subset.trans hsettles.failures hextends.failures
      · intro e he
        rcases hextends.led e he with he | hled
        · rcases hsettles.new e he with he | ⟨hname, rfl⟩
          · exact .inl he
          · refine .inr fun v hv hname' w hw => ?_
            rw [hnamed v u hv (hu.has hroots) (hname'.trans hname)] at hw
            rcases settled_or_mem_lacking (P := context.program) (g := g₁) hw with hsettled | hlacking
            · exact hextends.settled hsettled
            · exact hall.1 w (mem_reverse.2 hlacking)
        · exact .inr hled
      · exact hextends.settled (hmono v (hpassed v hv))

theorem Gains.failures_eq {p q : SystemGraph × Trail} {es : List Edge} (h : Gains p q es) :
    q.1.failures = p.1.failures := by
  rw [h.same]

theorem Absorbs.gains {r : SystemGraph × Trail} {es : List Edge} (h : Absorbs context roots p g us g' q)
    (hgains : Gains (g', q.2) r es) (hcomposed : Composed context.program q.1 r.2.next r.1) :
    Absorbs context roots p g us r.1 (q.1, r.2) := by
  obtain ⟨hgrown, htaking, hextends, hsettled⟩ := h
  have hpdgs : r.1.pdgs = g'.pdgs := hgains.pdgs_eq
  have hfailures : r.1.failures = g'.failures := hgains.failures_eq
  have hsame : ∀ u, r.1.isSettled context.program u = g'.isSettled context.program u := by
    intro u
    rw [isSettled, isSettled, hpdgs, hfailures]
  refine ⟨hgrown.trans (.of_same rfl hgains.le),
    ⟨hcomposed, htaking.sound, ?_, ?_, ?_, ?_⟩, ⟨?_, ?_, ?_⟩, ?_⟩
  · rw [hpdgs]
    exact htaking.units
  · rw [hfailures]
    exact htaking.failures
  · rw [hfailures]
    exact htaking.nodup
  · rw [hpdgs, hgains.nodes_eq]
    exact htaking.nodes_eq
  · rw [hpdgs]
    exact hextends.pdgs
  · rw [hfailures]
    exact hextends.failures
  · simp only [hpdgs, hsame]
    exact hextends.led
  · simp only [hsame]
    exact hsettled

theorem ends_integrate_taking (hnamed : context.program.Named) (hroots : ∀ u, roots u → context.program.Has u)
    (h : Taking context roots p g) (hu : Reached context roots u) : Returns (integrate context u g) p
      fun g' q => Absorbs context roots p g [u] g' q ∧ Composed.Connected context.program g' := by
  simp only [integrate, ends_bind, ends_within]
  have hsteps : unsettled context.program g < integrationSteps context.program :=
    Nat.lt_of_le_of_lt (unsettled_le_unitCount _ g) (Nat.lt_add_of_pos_left (by decide))
  refine (ends_integrateStack_taking hnamed hroots h (forall_mem_singleton.2 hu) hsteps).imp ?_
  intro g' q habsorbs
  refine (Composed.ends_connectAll (p := (g', q.2)) habsorbs.2.1.composed).imp ?_
  rintro _ r ⟨hcomposed, ⟨es, hgains⟩, hconnected⟩
  exact ⟨habsorbs.gains hgains hcomposed, hconnected⟩

theorem ends_integrateEach_taking (hnamed : context.program.Named)
    (hroots : ∀ u, roots u → context.program.Has u) (us : List UnitRef)
    (hus : ∀ u ∈ us, Reached context roots u) (h : Taking context roots p g)
    (hg : Composed.Connected context.program g) :
    Returns (integrateEach context us g) p
      fun g' q => Absorbs context roots p g us g' q ∧ Composed.Connected context.program g' := by
  induction us generalizing g p with
  | nil => exact ⟨⟨.refl p, h, .refl context g, fun u hu => nomatch hu⟩, hg⟩
  | cons u us ih =>
    rw [forall_mem_cons] at hus
    simp only [integrateEach, ends_bind]
    refine (ends_integrate_taking hnamed hroots h hus.1).imp ?_
    rintro g' q ⟨⟨hgrown, htaking, hextends, hsettled⟩, hconnected⟩
    refine (ih hus.2 htaking hconnected).imp ?_
    rintro g'' r ⟨⟨hgrown', htaking', hextends', hsettled'⟩, hconnected'⟩
    refine ⟨⟨hgrown.trans hgrown', htaking', hextends.trans hextends', forall_mem_cons.2 ⟨?_, hsettled'⟩⟩,
      hconnected'⟩
    exact hextends'.settled (hsettled u (mem_singleton_self u))

/-- A finished system, with the system before its summaries were added. -/
structure Finished (context : Context) (roots : UnitRef → Prop) (name : String) (g : SystemGraph)
    (r : BuildCache Pdg × Trail) (g' : SystemGraph) : Prop where
  taking : Taking context roots r g
  extension : Extends context (ofName name) g
  roots : ∀ u, roots u → g.isSettled context.program u = true
  connected : Composed.Connected context.program g
  gains : ∃ t es, SummaryGains (g, r.2) (g', t) es

/-- **A system of some units is built, whatever units fail.** -/
theorem ends_ofUnits_finished (hnamed : context.program.Named) (name : String)
    (hus : ∀ u ∈ us, context.program.Has u) (htidy : p.1.Tidy p.2.next)
    (hsound : p.1.Sound context) : Returns (ofUnits context name us) p
      fun g' q => q.1.Sound context ∧ ∃ g r, Finished context (· ∈ us) name g r g' := by
  have hstart : Taking context (· ∈ us) p (ofName name) :=
    ⟨.empty htidy name, hsound, forall_mem_nil _, forall_mem_nil _, nodup_nil, rfl⟩
  simp only [ofUnits, ends_bind]
  refine (ends_integrateEach_taking hnamed hus us (fun u hu => .root hu) hstart
    (Composed.connected_ofName _ name)).imp ?_
  rintro g q ⟨⟨_, htaking, hextends, hsettled⟩, hconnected⟩
  refine (ends_complete context htaking.composed hconnected).imp ?_
  rintro g' r ⟨⟨_, hsame⟩, ⟨t, es, hgains, -⟩, _⟩
  exact ⟨hsame ▸ htaking.sound, g, q, htaking, hextends, hsettled, hconnected, t, es, hgains⟩

end SystemGraph

end ProgramDependence
