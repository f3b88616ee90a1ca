import ProgramDependence.Proofs.Reached
import ProgramDependence.Proofs.UnitImages

/-!
# The units of a system

A system has a dependence graph or a failure for each unit that its roots lead to, and for no other
one.  What a unit leads to is read off its dependence graph, and that graph is the same, ids apart,
whenever it is built (`Pdg.Of.exists_image`).  So it does not matter that a system takes some graphs
from its cache.

The roots are a method, or the members of some classes and of the classes inside them.  Classes are
gone through level by level; a class on the way to another one need not be met twice, so there are
not more levels than classes.
-/

namespace ProgramDependence

open List

/-! ## The members of classes -/

namespace Program

variable {P : Program} {r r' : ClassRef}

/-- A class is declared inside another one. -/
def Inner (P : Program) (r r' : ClassRef) : Prop :=
  ∃ c, P.class? r = some c ∧ r' ∈ c.inner

/-- A unit is a member of one of some classes, or of a class inside one of them. -/
def Member (P : Program) (rs : List ClassRef) (u : UnitRef) : Prop :=
  ∃ r ∈ rs, ∃ r' c, Relation.ReflTransGen P.Inner r r' ∧ P.class? r' = some c ∧
    (u ∈ c.fields.map UnitRef.field ∨ u ∈ c.methods.map UnitRef.method)

variable {rs seen : List ClassRef}

theorem classLevels_mono {n : Nat} {rs' : List ClassRef} (h : rs ⊆ rs') :
    P.classLevels n rs ⊆ P.classLevels n rs' := by
  induction n generalizing rs rs' with
  | zero => exact .refl _
  | succ n ih =>
    intro r hr
    rw [classLevels, mem_append] at hr ⊢
    apply hr.imp
    · intro hr
      exact h hr
    · intro hr
      refine ih (fun r hr => ?_) hr
      obtain ⟨a, ha, hr⟩ := mem_flatMap.1 hr
      exact mem_flatMap.2 ⟨a, h ha, hr⟩

theorem reach_of_mem_classLevels {n : Nat} (h : r' ∈ P.classLevels n rs) :
    ∃ r ∈ rs, Relation.ReflTransGen P.Inner r r' := by
  induction n generalizing rs with
  | zero => cases h
  | succ n ih =>
    rw [classLevels, mem_append] at h
    rcases h with h | h
    · exact ⟨r', h, .refl⟩
    · obtain ⟨a, ha, hreach⟩ := ih h
      obtain ⟨r, hr, ha⟩ := mem_flatMap.1 ha
      refine ⟨r, hr, .head ?_ hreach⟩
      cases hc : P.class? r with
      | none =>
        rw [hc] at ha
        cases ha
      | some c =>
        rw [hc] at ha
        exact ⟨c, hc, ha⟩

/-- A way through classes can be cut so that it does not come back to its start. -/
theorem leave_of_reach (h : Relation.ReflTransGen (fun a b => P.Inner a b ∧ b ∉ seen) r r') :
    r = r' ∨ ∃ b, P.Inner r b ∧ b ∉ r :: seen ∧
      Relation.ReflTransGen (fun a b => P.Inner a b ∧ b ∉ r :: seen) b r' := by
  induction h with
  | refl => exact .inl rfl
  | @tail b c _ hstep ih =>
    by_cases hc : c = r
    · exact .inl hc.symm
    · have hnew : c ∉ r :: seen := by
        intro hmem
        exact (mem_cons.1 hmem).elim hc hstep.2
      rcases ih with rfl | ⟨d, hinner, hd, hreach⟩
      · exact .inr ⟨c, hstep.1, hnew, .refl⟩
      · exact .inr ⟨d, hinner, hd, hreach.tail ⟨hstep.1, hnew⟩⟩

/-- Classes that are different and declared are at most as many as there are classes. -/
theorem length_le_of_declared (hnodup : seen.Nodup)
    (hseen : ∀ r ∈ seen, (P.class? r).isSome = true) : seen.length ≤ P.classes.length := by
  have hindex : (seen.map (·.index)).Nodup := by
    refine hnodup.map fun r r' heq => ?_
    cases r
    cases heq
    rfl
  have hsubset : seen.map (·.index) ⊆ .range P.classes.length := by
    intro i hi
    obtain ⟨r, hr, rfl⟩ := List.mem_map.1 hi
    obtain ⟨c, hc⟩ := Option.isSome_iff_exists.1 (hseen r hr)
    exact List.mem_range.2 (List.getElem?_eq_some_iff.1 hc).1
  have hle := (List.subperm_of_subset hindex hsubset).length_le
  rwa [List.length_map, List.length_range] at hle

/-- A class that is reached is met on some level.  The classes `seen` on the way are all different,
so they are not more than there are levels. -/
theorem mem_classLevels_of_reach {n : Nat} (hnodup : seen.Nodup)
    (hseen : ∀ r ∈ seen, (P.class? r).isSome = true) (hn : P.classes.length < n + seen.length) (hr : r ∉ seen)
    (h : Relation.ReflTransGen (fun a b => P.Inner a b ∧ b ∉ seen) r r') : r' ∈ P.classLevels n [r] := by
  induction n generalizing r seen with
  | zero =>
    have hle := length_le_of_declared hnodup hseen
    omega
  | succ n ih =>
    rw [classLevels, mem_append]
    rcases leave_of_reach h with rfl | ⟨b, ⟨c, hc, hb⟩, hnew, hreach⟩
    · exact .inl (mem_singleton_self _)
    · have hseen' : ∀ a ∈ r :: seen, (P.class? a).isSome = true :=
        forall_mem_cons.2 ⟨by rw [hc]; rfl, hseen⟩
      have hlength : P.classes.length < n + (r :: seen).length := by
        rw [length_cons]
        omega
      have hinner : [b] ⊆ [r].flatMap fun r => ((P.class? r).map (·.inner)).getD [] := by
        intro a ha
        obtain rfl := mem_singleton.1 ha
        rw [flatMap_singleton, hc]
        exact hb
      exact .inr (classLevels_mono hinner (ih (nodup_cons.2 ⟨hr, hnodup⟩) hseen' hlength hnew hreach))

/-- **The units of some classes are their members,** inner classes included. -/
theorem mem_unitsByLevel {u : UnitRef} : u ∈ P.unitsByLevel rs ↔ P.Member rs u := by
  rw [unitsByLevel, mem_flatMap]
  constructor
  · rintro ⟨r', hr', hu⟩
    obtain ⟨r, hr, hreach⟩ := reach_of_mem_classLevels hr'
    cases hc : P.class? r' with
    | none =>
      rw [hc] at hu
      cases hu
    | some c =>
      rw [hc] at hu
      exact ⟨r, hr, r', c, hreach, hc, mem_append.1 hu⟩
  · rintro ⟨r, hr, r', c, hreach, hc, hu⟩
    have hlevel : r' ∈ P.classLevels (P.classes.length + 1) [r] := by
      refine mem_classLevels_of_reach nodup_nil (forall_mem_nil _) (Nat.lt_succ_self _) not_mem_nil ?_
      exact .mono (fun _ _ hinner => ⟨hinner, not_mem_nil⟩) _ _ hreach
    have hsubset : [r] ⊆ rs := fun a ha => mem_singleton.1 ha ▸ hr
    refine ⟨r', classLevels_mono hsubset hlevel, ?_⟩
    rw [hc]
    exact mem_append.2 hu

end Program

/-! ## Where a unit leads -/

namespace SystemGraph

open Tracked

variable {context : Context} {roots : UnitRef → Prop} {g g' : SystemGraph} {u v : UnitRef}

/-- Where a unit leads does not depend on ids. -/
theorem leadsTo_eq {f : Id → Id} {d d' : Pdg} (h : d.Image f d') :
    leadsTo context u d' = leadsTo context u d := by
  cases u with
  | field r => rfl
  | method r =>
    rw [leadsTo, h.callNodes_eq, filterMap_map]
    congr 3
    funext n
    rw [Function.comp_apply, Node.mapIds_payload]
    cases n.payload <;> rfl

/-- A unit leads to the same units whenever its graph is built. -/
theorem leadsTo_unique {d d' : Pdg} (h : Pdg.Of context u d) (h' : Pdg.Of context u d') :
    leadsTo context u d' = leadsTo context u d := by
  obtain ⟨δ, himage⟩ := h.exists_image h'
  exact leadsTo_eq himage

/-! ## What a system comprises -/

/-- A system has a graph or a failure for exactly the units that roots lead to: a graph of the unit
if it can be built, a failure if its flow graph cannot be constructed.  No unit is taken in twice. -/
structure Comprises (context : Context) (roots : UnitRef → Prop) (g : SystemGraph) : Prop where
  units : ∀ name, name ∈ g.pdgs.keys ∨ name ∈ g.failures.keys ↔
    ∃ u, Reached context roots u ∧ context.program.unitName u = name
  failures : ∀ name, name ∈ g.failures.keys ↔
    ∃ u, Reached context roots u ∧ context.program.unitName u = name ∧ Pdg.Raises context u
  pdgs : ∀ name, name ∈ g.pdgs.keys ↔
    ∃ u, Reached context roots u ∧ context.program.unitName u = name ∧ Pdg.Builds context u
  graphs : ∀ e ∈ g.pdgs.entries, ∃ u, Reached context roots u ∧ context.program.unitName u = e.1 ∧
    Pdg.Of context u e.2
  disjoint : g.pdgs.keys.Disjoint g.failures.keys
  nodup_pdgs : g.pdgs.keys.Nodup
  nodup_failures : g.failures.keys.Nodup
  nodes_eq : g.nodes = g.pdgs.values.flatMap (·.nodes)
  nodup_nodes : g.nodeIds.Nodup

namespace Finished

variable {name : String} {r : BuildCache Pdg × Trail}

variable (hnamed : context.program.Named)
include hnamed

variable (hroots : ∀ u, roots u → context.program.Has u)
include hroots

variable (h : Finished context roots name g r g')
include h

/-- What a unit leads to is settled: the graph of the unit that was taken in leads there too. -/
theorem settled_of_lead (hu : context.program.Has u) {d : Pdg} (hd : Pdg.Of context u d)
    (hsettled : g.isSettled context.program u = true) (hv : v ∈ leadsTo context u d) :
    g.isSettled context.program v = true := by
  rcases isSettled_iff.1 hsettled with hmem | hmem
  · obtain ⟨e, he, hname⟩ := mem_map.1 hmem
    obtain ⟨u', hu', hname', hof⟩ := h.taking.units e he
    obtain rfl := hnamed u' u (hu'.has hroots) hu (hname'.trans hname)
    rcases h.extension.led e he with hold | hled
    · exact nomatch hold
    · exact hled u' hu hname' v (leadsTo_unique hd hof ▸ hv)
  · obtain ⟨u', hu', hname', hraises⟩ := h.taking.failures _ hmem
    obtain rfl := hnamed u' u (hu'.has hroots) hu hname'
    exact absurd hraises hd.not_raises

theorem settled (hu : Reached context roots u) : g.isSettled context.program u = true := by
  induction hu with
  | root isRoot => exact h.roots _ isRoot
  | callee reached of call payload inProject ih =>
    refine h.settled_of_lead hnamed hroots (reached.has hroots) of ih
      (mem_leadsTo_method.2 ⟨inProject, .inl ?_⟩)
    exact ⟨_, call, _, _, _, _, payload, rfl⟩
  | field reached of setting method accessed inProject ih =>
    refine h.settled_of_lead hnamed hroots (reached.has hroots) of ih
      (mem_leadsTo_method.2 ⟨inProject, .inr ?_⟩)
    exact ⟨setting, _, method, _, accessed, rfl⟩

/-- **A finished system comprises what its roots lead to.** -/
theorem comprises : Comprises context roots g' := by
  obtain ⟨t, es, hgains⟩ := h.gains
  have hpdgs : g'.pdgs = g.pdgs := hgains.toGains.pdgs_eq
  have hfailures : g'.failures = g.failures := hgains.toGains.failures_eq
  have hnodes : g'.nodes = g.nodes := hgains.nodes_eq
  have hbuilt : ∀ name ∈ g.pdgs.keys, ∃ u, Reached context roots u ∧
      context.program.unitName u = name ∧ Pdg.Builds context u := by
    intro name hname
    obtain ⟨e, he, rfl⟩ := mem_map.1 hname
    obtain ⟨u, hu, hname, hof⟩ := h.taking.units e he
    exact ⟨u, hu, hname, hof.builds⟩
  have hexclusive : ∀ u v, Reached context roots u → Reached context roots v →
      context.program.unitName u = context.program.unitName v → Pdg.Builds context u →
      ¬ Pdg.Raises context v := by
    intro u v hu hv hname hbuilds hraises
    obtain rfl := hnamed u v (hu.has hroots) (hv.has hroots) hname
    exact (Pdg.raises_iff (hu.has hroots)).1 hraises ((Pdg.builds_iff (hu.has hroots)).1 hbuilds)
  have hsettled := fun u (hu : Reached context roots u) => isSettled_iff.1 (h.settled hnamed hroots hu)
  constructor
  · intro name
    rw [hpdgs, hfailures]
    constructor
    · rintro (hname | hname)
      · obtain ⟨u, hu, hname, _⟩ := hbuilt name hname
        exact ⟨u, hu, hname⟩
      · obtain ⟨u, hu, hname, _⟩ := h.taking.failures name hname
        exact ⟨u, hu, hname⟩
    · rintro ⟨u, hu, rfl⟩
      exact hsettled u hu
  · intro name
    rw [hfailures]
    refine ⟨h.taking.failures name, ?_⟩
    rintro ⟨u, hu, rfl, hraises⟩
    refine (hsettled u hu).resolve_left fun hname => ?_
    obtain ⟨v, hv, hname, hbuilds⟩ := hbuilt _ hname
    exact hexclusive v u hv hu hname hbuilds hraises
  · intro name
    rw [hpdgs]
    refine ⟨hbuilt name, ?_⟩
    rintro ⟨u, hu, rfl, hbuilds⟩
    refine (hsettled u hu).resolve_right fun hname => ?_
    obtain ⟨v, hv, hname, hraises⟩ := h.taking.failures _ hname
    exact hexclusive u v hu hv hname.symm hbuilds hraises
  · rw [hpdgs]
    exact h.taking.units
  · rw [hpdgs, hfailures]
    intro name hname hname'
    obtain ⟨u, hu, hu', hbuilds⟩ := hbuilt name hname
    obtain ⟨v, hv, hv', hraises⟩ := h.taking.failures name hname'
    exact hexclusive u v hu hv (hu'.trans hv'.symm) hbuilds hraises
  · rw [hpdgs]
    exact h.taking.composed.nodup
  · rw [hfailures]
    exact h.taking.nodup
  · rw [hpdgs, hnodes]
    exact h.taking.nodes_eq
  · exact hgains.growing.coherent.nodup_nodes

end Finished

/-! ## Systems of one program -/

/-- Caches as they are filled while systems of one program are built: ids are handed out once. -/
inductive FilledFor (context : Context) : BuildCache Pdg × Trail → Prop where
  | start (t : Trail) : FilledFor context ({}, t)
  | later {p : BuildCache Pdg × Trail} {t : Trail} (filled : FilledFor context p)
      (le : p.2.next ≤ t.next) : FilledFor context (p.1, t)
  | system {p : BuildCache Pdg × Trail} (filled : FilledFor context p) (name : String)
      {us : List UnitRef} (has : ∀ u ∈ us, context.program.Has u) :
      FilledFor context
      ((ofUnits context name us).run p : Except Error SystemGraph × BuildCache Pdg × Trail).2

namespace FilledFor

variable {p : BuildCache Pdg × Trail}

theorem filled (h : FilledFor context p) : Filled p := by
  induction h with
  | start t => exact .start t
  | later _ hle ih => exact .later ih hle
  | system _ name _ ih => exact .system ih context name _

theorem sound (h : FilledFor context p) : p.1.Sound context := by
  induction h with
  | start t => exact BuildCache.sound_empty context
  | later _ _ ih => exact ih
  | system hfilled name has ih =>
    exact ((ends_ofUnits_sourced name _ hfilled.filled.tidy ih).mono (fun _ _ hq => hq.1)
      fun _ _ hq => hq).last

end FilledFor

theorem ofUnits_comprises (hnamed : context.program.Named) {p : BuildCache Pdg × Trail}
    (h : FilledFor context p) (name : String) {us : List UnitRef} (hus : ∀ u ∈ us, context.program.Has u) :
    ∃ g q, (ofUnits context name us).run p = (.ok g, q) ∧
      Comprises context (· ∈ us) g := by
  have hends := ends_ofUnits_finished hnamed name hus h.filled.tidy h.sound
  obtain ⟨g, q, hrun, _, _, _, hfinished⟩ := hends.exists_run
  exact ⟨g, q, hrun, hfinished.comprises hnamed hus⟩

/-- **A system has exactly the units that its roots lead to.**  Where names identify units and ids
are handed out once, the system of a method and that of some classes are built, and each comprises
what its roots lead to. -/
theorem built_comprises (hnamed : context.program.Named) {p : BuildCache Pdg × Trail}
    (h : FilledFor context p) : (∀ r, context.program.Has (.method r) →
      ∃ g q, ((ofMethod context r).run p : Except Error SystemGraph × BuildCache Pdg × Trail) = (.ok g, q) ∧
        Comprises context (· = .method r) g) ∧
        ∀ name rs, (∀ u, context.program.Member rs u → context.program.Has u) →
      ∃ g q, ((ofClasses context name rs).run p : Except Error SystemGraph × BuildCache Pdg × Trail) =
        (.ok g, q) ∧ Comprises context (context.program.Member rs) g := by
  constructor
  · intro r hr
    have hroot : (· ∈ [UnitRef.method r]) = (· = UnitRef.method r) := funext fun u => propext mem_singleton
    rw [← hroot]
    exact ofUnits_comprises hnamed h _ (forall_mem_singleton.2 hr)
  · intro name rs hrs
    have hroot : (· ∈ context.program.unitsByLevel rs) = context.program.Member rs :=
      funext fun u => propext Program.mem_unitsByLevel
    rw [← hroot]
    exact ofUnits_comprises hnamed h name fun u hu => hrs u (Program.mem_unitsByLevel.1 hu)

theorem named_of_nodup {P : Program} (h : ((allUnits P).map P.unitName).Nodup) : P.Named :=
  fun _ _ hu hv hname => inj_on_of_nodup_map h (mem_allUnits hu) (mem_allUnits hv) hname

instance (P : Program) : DecidablePred P.Has
  | .method r => inferInstanceAs (Decidable ((P.method? r).isSome = true))
  | .field r => inferInstanceAs (Decidable ((P.field? r).isSome = true))

def limit : Field :=
  { name := "limit", type := "int", initializer := .literal "10" "int" 1, declaring := some ⟨0⟩ }

def callOf (name : String) (r : MethodRef) : Stmt :=
  .expression (.methodCall name [] .absent (some r) true 2) 2

/-- A class with an inner one.  `run` reads the field and calls `step` and `stray`, `step` calls
`run`, and `stray` has a statement of unknown form. -/
def dispatching : Program :=
  { fields := [limit]
    methods := [
      { name := "run", declaring := some ⟨0⟩, body := .block [callOf "step" ⟨1⟩, callOf "stray" ⟨2⟩,
        .expression
        (.name (some { name := "limit", type := "int", owner := "App", kind := .field, field := some ⟨0⟩ })
          "limit" 3) 3] 1 },
      { name := "step", declaring := some ⟨1⟩, body := callOf "run" ⟨0⟩ },
      { name := "stray", declaring := some ⟨1⟩, body := .other "goto_statement" 4 },
      { name := "idle", declaring := some ⟨0⟩, body := .empty 5 }]
    classes := [
      { qualifiedName := "App", fields := [⟨0⟩], methods := [⟨0⟩, ⟨3⟩], inner := [⟨1⟩] },
      { qualifiedName := "App.Part", methods := [⟨1⟩, ⟨2⟩] }] }

/-- The system of `run` leaves `idle` out; the system of the class has it.  `stray` fails in both. -/
theorem dispatching_comprises : dispatching.Named ∧ FilledFor { program := dispatching } ({}, { next := 1 }) ∧
    (∃ g q, ((ofMethod { program := dispatching } ⟨0⟩).run ({}, { next := 1 }) :
        Except Error SystemGraph × BuildCache Pdg × Trail) = (.ok g, q) ∧
      Comprises { program := dispatching } (· = .method ⟨0⟩) g ∧
      g.pdgs.keys = ["App#run()", "App#limit", "App.Part#step()"] ∧ g.failures.keys = ["App.Part#stray()"]) ∧
    ∃ g q, ((ofClasses { program := dispatching } "App" [⟨0⟩]).run ({}, { next := 1 }) :
        Except Error SystemGraph × BuildCache Pdg × Trail) = (.ok g, q) ∧
      Comprises { program := dispatching } (dispatching.Member [⟨0⟩]) g ∧
      g.pdgs.keys = ["App#limit", "App#run()", "App.Part#step()", "App#idle()"] ∧
      g.failures.keys = ["App.Part#stray()"] := by
  have hnamed : dispatching.Named := named_of_nodup (by decide +kernel)
  have hmembers : ∀ u ∈ dispatching.unitsByLevel [⟨0⟩], dispatching.Has u := by decide +kernel
  obtain ⟨hmethod, hclasses⟩ := @built_comprises { program := dispatching } hnamed _ (.start { next := 1 })
  obtain ⟨g, q, hrun, hcomprises⟩ := hmethod ⟨0⟩ rfl
  obtain ⟨g', q', hrun', hcomprises'⟩ :=
    hclasses "App" [⟨0⟩] fun u hu => hmembers u (Program.mem_unitsByLevel.2 hu)
  refine ⟨hnamed, .start _, ⟨g, q, hrun, hcomprises, ?_⟩, g', q', hrun', hcomprises', ?_⟩
  · exact of_run hrun (by decide +kernel)
  · exact of_run hrun' (by decide +kernel)

def again : Method :=
  { name := "again", parameters := [passedValue "x" "again"], returnType := "int"
    body :=
    .returnJump (.methodCall "again" [.name (passedValue "x" "again") "x" 2] .absent (some ⟨0⟩) false 2) 2 }

def launch : Method :=
  { name := "launch", parameters := [passedValue "y" "launch"], returnType := "int"
    body :=
    .returnJump (.methodCall "again" [.name (passedValue "y" "launch") "y" 4] .absent (some ⟨0⟩) false 4) 4 }

def launching : Program :=
  { methods := [again, launch] }

end SystemGraph

end ProgramDependence
