import ProgramDependence.Proofs.UnitGraphs

/-!
# Class trees

The members of a class are its fields, its methods, and then the members of the classes inside it.
Classes refer to each other by position, so a program could nest a class in itself;
`Program.Members` holds of a class whose nesting comes to an end, and lists its members.  On a way
from such a class inwards no class is met twice, so the search for members, which goes as deep as
there are classes, finds all of them (`Program.Members.memberUnits_eq`).
-/

namespace ProgramDependence

open List

namespace Program

variable {P : Program}

mutual

/-- The members of a class: its fields, its methods, and then the members of the classes inside it. -/
inductive Members (P : Program) : ClassRef → List UnitRef → Prop where
  | intro {r : ClassRef} {c : ClassDecl} {us : List UnitRef} (hclass : P.class? r = some c)
      (hfields : ∀ f ∈ c.fields, P.Has (.field f)) (hmethods : ∀ m ∈ c.methods, P.Has (.method m))
      (hinner : MembersAll P c.inner us) :
      Members P r (c.fields.map UnitRef.field ++ c.methods.map UnitRef.method ++ us)

/-- The members of several classes, one after the other. -/
inductive MembersAll (P : Program) : List ClassRef → List UnitRef → Prop where
  | nil : MembersAll P [] []
  | cons {r : ClassRef} {rs : List ClassRef} {us vs : List UnitRef} (hfirst : Members P r us)
      (hrest : MembersAll P rs vs) : MembersAll P (r :: rs) (us ++ vs)

end

mutual

theorem Members.has : ∀ {r : ClassRef} {us : List UnitRef}, Members P r us → ∀ u ∈ us, P.Has u
  | _, _, .intro _ hfields hmethods hinner => by
    intro u hu
    rw [mem_append, mem_append] at hu
    rcases hu with (hu | hu) | hu
    · obtain ⟨f, hf, rfl⟩ := mem_map.1 hu
      exact hfields f hf
    · obtain ⟨m, hm, rfl⟩ := mem_map.1 hu
      exact hmethods m hm
    · exact hinner.has u hu

theorem MembersAll.has : ∀ {rs : List ClassRef} {us : List UnitRef}, MembersAll P rs us → ∀ u ∈ us, P.Has u
  | _, _, .nil => forall_mem_nil _
  | _, _, .cons hfirst hrest => forall_mem_append.2 ⟨hfirst.has, hrest.has⟩

end

/-! ## No class is nested in itself -/

def Inside (P : Program) (i r : ClassRef) : Prop :=
  ∃ c, P.class? r = some c ∧ i ∈ c.inner

mutual

theorem Members.acc : ∀ {r : ClassRef} {us : List UnitRef}, Members P r us → Acc P.Inside r
  | _, _, .intro hclass _ _ hinner => by
    refine .intro _ fun i hi => ?_
    obtain ⟨c, hc, hmem⟩ := hi
    rw [hclass] at hc
    cases hc
    exact hinner.acc i hmem

theorem MembersAll.acc : ∀ {rs : List ClassRef} {us : List UnitRef}, MembersAll P rs us →
    ∀ r ∈ rs, Acc P.Inside r
  | _, _, .nil => forall_mem_nil _
  | _, _, .cons hfirst hrest => forall_mem_cons.2 ⟨hfirst.acc, hrest.acc⟩

end

theorem not_inside_self {r : ClassRef} (h : Acc P.Inside r) : ¬ Relation.TransGen P.Inside r r := by
  induction h with
  | intro r _ ih =>
    intro hcycle
    obtain ⟨i, hreach, hi⟩ := Relation.TransGen.tail'_iff.1 hcycle
    exact ih i hi (.head' hi hreach)

/-! ## The search for members -/

theorem length_lt_of_around {r : ClassRef} {c : ClassDecl} {around : List ClassRef}
    (hclass : P.class? r = some c) (hr : Acc P.Inside r) (hnodup : around.Nodup)
    (haround : ∀ a ∈ around, Relation.TransGen P.Inside r a ∧ a.index < P.classes.length) :
    (r :: around).Nodup ∧ r.index < P.classes.length ∧ around.length < P.classes.length := by
  have hnew : r ∉ around := fun hmem => not_inside_self hr (haround r hmem).1
  have hall : (r :: around).Nodup := List.nodup_cons.2 ⟨hnew, hnodup⟩
  have hindex : r.index < P.classes.length := (List.getElem?_eq_some_iff.1 hclass).1
  have hsub : (r :: around).map (·.index) ⊆ .range P.classes.length := by
    intro k hk
    obtain ⟨a, ha, rfl⟩ := List.mem_map.1 hk
    rw [List.mem_range]
    rcases List.mem_cons.1 ha with rfl | ha
    · exact hindex
    · exact (haround a ha).2
  have hmap : ((r :: around).map (·.index)).Nodup := by
    apply hall.map
    intro a b hab
    cases a
    cases hab
    rfl
  have hle := (List.subperm_of_subset hmap hsub).length_le
  rw [List.length_map, List.length_cons, List.length_range] at hle
  exact ⟨hall, hindex, by omega⟩

mutual

theorem Members.unitsOfClass_eq : ∀ {r : ClassRef} {us : List UnitRef}, Members P r us →
    ∀ {fuel : Nat} {around : List ClassRef}, around.Nodup →
      (∀ a ∈ around, Relation.TransGen P.Inside r a ∧ a.index < P.classes.length) →
      P.classes.length < fuel + around.length → P.unitsOfClass fuel r = us
  | r, _, .intro (c := c) hclass hfields hmethods hinner, fuel, around => by
    intro hnodup haround hfuel
    have hr : Acc P.Inside r := (Members.intro hclass hfields hmethods hinner).acc
    obtain ⟨hall, hindex, hlt⟩ := length_lt_of_around hclass hr hnodup haround
    cases fuel with
    | zero => omega
    | succ fuel =>
      have hinside : ∀ i ∈ c.inner, ∀ a ∈ r :: around,
          Relation.TransGen P.Inside i a ∧ a.index < P.classes.length := by
        intro i hi a ha
        have hstep : P.Inside i r := ⟨c, hclass, hi⟩
        rcases mem_cons.1 ha with rfl | ha
        · exact ⟨.single hstep, hindex⟩
        · exact ⟨.head hstep (haround a ha).1, (haround a ha).2⟩
      have hfuel' : P.classes.length < fuel + (r :: around).length := by
        rw [length_cons]
        omega
      rw [unitsOfClass, hclass]
      exact congrArg _ (hinner.unitsOfClass_eq hall hinside hfuel')

theorem MembersAll.unitsOfClass_eq : ∀ {rs : List ClassRef} {us : List UnitRef},
    MembersAll P rs us → ∀ {fuel : Nat} {around : List ClassRef}, around.Nodup →
      (∀ r ∈ rs, ∀ a ∈ around, Relation.TransGen P.Inside r a ∧ a.index < P.classes.length) →
      P.classes.length < fuel + around.length → rs.flatMap (P.unitsOfClass fuel) = us
  | _, _, .nil, _, _ => fun _ _ _ => rfl
  | _, _, .cons hfirst hrest, _, _ => by
    intro hnodup haround hfuel
    rw [forall_mem_cons] at haround
    rw [flatMap_cons, hfirst.unitsOfClass_eq hnodup haround.1 hfuel, hrest.unitsOfClass_eq hnodup
      haround.2 hfuel]

end

/-- **The members of a class tree are found, in order.** -/
theorem Members.memberUnits_eq {r : ClassRef} {us : List UnitRef} (h : Members P r us) :
    P.memberUnits r = us :=
  h.unitsOfClass_eq nodup_nil (fun a ha => absurd ha not_mem_nil) (by simp)

end Program

end ProgramDependence
