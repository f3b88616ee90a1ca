import Mathlib.Data.List.Nodup
import Mathlib.Data.List.Perm.Subperm
import ProgramDependence.Symbol.Program

/-!
# Chains of calls

Whether calling a method can lead to one of a given name is found by a search that enters each
in-project method once, by name.  Where names identify methods, the search finds exactly the chains
of calls whose inner methods are in the project (`Program.reachesName_iff`).
-/

namespace ProgramDependence

open List

/-! ## Names -/

def Program.Has (P : Program) : UnitRef → Prop
  | .method r => (P.method? r).isSome = true
  | .field r => (P.field? r).isSome = true

/-- No two units of the program share a name. -/
def Program.Named (P : Program) : Prop :=
  ∀ u v, P.Has u → P.Has v → P.unitName u = P.unitName v → u = v

theorem Program.has_of_inProject {P : Program} {u : UnitRef} (h : P.unitInProject u = true) : P.Has u := by
  cases u with
  | method r =>
    cases hm : P.method? r with
    | some m => simp [Has, hm]
    | none => simp [unitInProject, hm] at h
  | field r =>
    cases hf : P.field? r with
    | some f => simp [Has, hf]
    | none => simp [unitInProject, hf] at h

/-! ## Chains -/

namespace Program

variable {P : Program} {target : String} {b c r : MethodRef}

def Calls (P : Program) (b c : MethodRef) : Prop :=
  ∃ m, P.method? b = some m ∧ c ∈ P.calledMethods m

/-- A chain of calls leads from a method to one of the given name.  The methods between the two are
in the project; the chain may consist of the method alone. -/
def LeadsTo (P : Program) (b : MethodRef) (target : String) : Prop :=
  ∃ bs, List.IsChain P.Calls (b :: bs) ∧ (∀ c ∈ bs.dropLast, P.unitInProject (.method c) = true) ∧
    P.methodName ((b :: bs).getLast (cons_ne_nil b bs)) = target

/-- Some call of a method leads to one of the given name. -/
def CallLeadsTo (P : Program) (b : MethodRef) (target : String) : Prop :=
  ∃ c, P.Calls b c ∧
    (P.methodName c = target ∨ P.unitInProject (.method c) = true ∧ P.LeadsTo c target)

theorem leadsTo_iff : P.LeadsTo b target ↔ P.methodName b = target ∨ P.CallLeadsTo b target := by
  constructor
  · rintro ⟨bs, hchain, hinner, hlast⟩
    cases bs with
    | nil => exact .inl hlast
    | cons c cs =>
      obtain ⟨hcall, hchain⟩ := isChain_cons_cons.1 hchain
      refine .inr ⟨c, hcall, ?_⟩
      cases cs with
      | nil => exact .inl hlast
      | cons d ds =>
        rw [dropLast_cons_cons, forall_mem_cons] at hinner
        exact .inr ⟨hinner.1, d :: ds, hchain, hinner.2, hlast⟩
  · rintro (hname | ⟨c, hcall, hname | ⟨hproject, cs, hchain, hinner, hlast⟩⟩)
    · exact ⟨[], .singleton b, by simp, hname⟩
    · exact ⟨[c], isChain_cons_cons.2 ⟨hcall, .singleton c⟩, by simp, hname⟩
    · refine ⟨c :: cs, isChain_cons_cons.2 ⟨hcall, hchain⟩, ?_, ?_⟩
      · intro d hd
        cases cs with
        | nil => simp at hd
        | cons e es =>
          rcases mem_cons.1 hd with rfl | hd
          · exact hproject
          · exact hinner d hd
      · exact hlast

/-! ## The search -/

/-- The callees that the search enters from a method: those in the project whose names are new. -/
def entered (P : Program) (seen : List String) (m : Method) : List MethodRef :=
  (P.calledMethods m).filter fun c => P.unitInProject (.method c) && !seen.contains (P.methodName c)

variable {seen : List String} {m : Method} {stack : List MethodRef}

theorem mem_entered : c ∈ P.entered seen m ↔
    c ∈ P.calledMethods m ∧ P.unitInProject (.method c) = true ∧ P.methodName c ∉ seen := by
  simp [entered]

theorem callsName_cons {fuel : Nat} (hm : P.method? r = some m) :
    P.callsName target (fuel + 1) seen (r :: stack) =
      if (P.calledMethods m).any fun c => P.methodName c = target then true
      else P.callsName target fuel ((P.entered seen m).map P.methodName ++ seen)
        ((P.entered seen m).reverse ++ stack) := by
  rw [callsName, hm]
  rfl

/-- The search finds chains only. -/
theorem callLeadsTo_of_callsName {fuel : Nat} (h : P.callsName target fuel seen stack = true) :
    ∃ r ∈ stack, P.CallLeadsTo r target := by
  induction fuel generalizing seen stack with
  | zero => cases h
  | succ fuel ih =>
    cases stack with
    | nil => cases h
    | cons r stack =>
      cases hm : P.method? r with
      | none =>
        rw [callsName, hm] at h
        obtain ⟨s, hs, hleads⟩ := ih h
        exact ⟨s, mem_cons_of_mem r hs, hleads⟩
      | some m =>
        rw [callsName_cons hm] at h
        split at h
        · rename_i hfound
          obtain ⟨c, hc, hname⟩ := any_eq_true.1 hfound
          exact ⟨r, mem_cons_self, c, ⟨m, hm, hc⟩, .inl (of_decide_eq_true hname)⟩
        · obtain ⟨s, hs, hleads⟩ := ih h
          rcases mem_append.1 hs with hs | hs
          · -- A callee that was entered continues a chain of its caller.
            obtain ⟨hcallee, hproject, -⟩ := mem_entered.1 (mem_reverse.1 hs)
            exact ⟨r, mem_cons_self, s, ⟨m, hm, hcallee⟩, .inr ⟨hproject, leadsTo_iff.2 (.inr hleads)⟩⟩
          · exact ⟨s, mem_cons_of_mem r hs, hleads⟩

/-- What the search has seen is still to be expanded, or all of its callees were looked at. -/
def Explored (P : Program) (target : String) (seen : List String) (stack : List MethodRef) : Prop :=
  ∀ r, P.Has (.method r) → P.methodName r ∈ seen → r ∈ stack ∨ ∀ c, P.Calls r c →
    P.methodName c ≠ target ∧ (P.unitInProject (.method c) = true → P.methodName c ∈ seen)

theorem Explored.not_callLeadsTo (h : P.Explored target seen []) (hr : P.Has (.method r))
    (hseen : P.methodName r ∈ seen) : ¬ P.CallLeadsTo r target := by
  rintro ⟨c, hcall, hleads⟩
  obtain ⟨hne, hnext⟩ := (h r hr hseen).resolve_left not_mem_nil c hcall
  rcases hleads with hname | ⟨hproject, cs, hchain, hinner, hlast⟩
  · exact hne hname
  · -- Along the chain everything was seen.
    induction cs generalizing r c with
    | nil => exact hne hlast
    | cons d ds ih =>
      obtain ⟨hcall', hchain'⟩ := isChain_cons_cons.1 hchain
      have hc := has_of_inProject hproject
      obtain ⟨hne', hnext'⟩ := (h c hc (hnext hproject)).resolve_left not_mem_nil d hcall'
      cases ds with
      | nil => exact hne' hlast
      | cons e es =>
        rw [dropLast_cons_cons, forall_mem_cons] at hinner
        exact ih hc (hnext hproject) d hcall' hne' hnext' hinner.1 hchain' hinner.2 hlast

theorem nodup_distinctMethods (seen : List String) (rs : List MethodRef) :
    ((P.distinctMethods seen rs).map P.methodName).Nodup ∧
      ∀ r ∈ P.distinctMethods seen rs, r ∈ rs ∧ P.methodName r ∉ seen := by
  induction rs generalizing seen with
  | nil => simp [distinctMethods]
  | cons r rs ih =>
    rw [distinctMethods]
    split
    · obtain ⟨hnodup, hmem⟩ := ih seen
      exact ⟨hnodup, fun s hs => ⟨mem_cons_of_mem r (hmem s hs).1, (hmem s hs).2⟩⟩
    · rename_i hnew
      obtain ⟨hnodup, hmem⟩ := ih (P.methodName r :: seen)
      refine ⟨nodup_cons.2 ⟨?_, hnodup⟩, ?_⟩
      · intro hname
        obtain ⟨s, hs, heq⟩ := mem_map.1 hname
        exact (hmem s hs).2 (heq ▸ mem_cons_self)
      · intro s hs
        rcases mem_cons.1 hs with rfl | hs
        · exact ⟨mem_cons_self, hnew⟩
        · exact ⟨mem_cons_of_mem r (hmem s hs).1, fun hseen => (hmem s hs).2 (mem_cons_of_mem _ hseen)⟩

theorem nodup_calledMethods (m : Method) : ((P.calledMethods m).map P.methodName).Nodup :=
  (nodup_distinctMethods [] _).1

def unseen (P : Program) (seen : List String) : List MethodRef :=
  ((List.range P.methods.length).map MethodRef.mk).filter fun r => P.methodName r ∉ seen

theorem mem_unseen : r ∈ P.unseen seen ↔ P.Has (.method r) ∧ P.methodName r ∉ seen := by
  obtain ⟨i⟩ := r
  simp [unseen, Has, method?]

theorem nodup_unseen (seen : List String) : (P.unseen seen).Nodup := by
  refine .filter _ (.map ?_ nodup_range)
  intro i j h
  exact congrArg MethodRef.index h

theorem length_unseen {rs : List MethodRef} (hnodup : (rs.map P.methodName).Nodup)
    (hrs : rs ⊆ P.unseen seen) :
    rs.length + (P.unseen (rs.map P.methodName ++ seen)).length ≤ (P.unseen seen).length := by
  rw [← length_append]
  refine (subperm_of_subset ?_ ?_).length_le
  · rw [nodup_append]
    refine ⟨.of_map _ hnodup, nodup_unseen _, ?_⟩
    rintro r hr s hs rfl
    exact (mem_unseen.1 hs).2 (mem_append_left _ (mem_map_of_mem hr))
  · intro r hr
    rcases mem_append.1 hr with hr | hr
    · exact hrs hr
    · obtain ⟨hhas, hnew⟩ := mem_unseen.1 hr
      exact mem_unseen.2 ⟨hhas, fun hseen => hnew (mem_append_right _ hseen)⟩

theorem entered_subset : P.entered seen m ⊆ P.unseen seen := by
  intro c hc
  obtain ⟨-, hproject, hnew⟩ := mem_entered.1 hc
  exact mem_unseen.2 ⟨has_of_inProject hproject, hnew⟩

theorem Explored.enter (hnamed : P.Named) (h : P.Explored target seen (r :: stack))
    (hm : P.method? r = some m) (hcallees : ∀ c ∈ P.calledMethods m, P.methodName c ≠ target) :
    P.Explored target ((P.entered seen m).map P.methodName ++ seen)
    ((P.entered seen m).reverse ++ stack) := by
  intro s hs hseen
  rcases mem_append.1 hseen with hseen | hseen
  · obtain ⟨c, hc, hname⟩ := mem_map.1 hseen
    have hsame := hnamed (.method c) (.method s) (mem_unseen.1 (entered_subset hc)).1 hs hname
    cases hsame
    exact .inl (mem_append_left _ (mem_reverse.2 hc))
  · rcases h s hs hseen with hstack | hexpanded
    · rcases mem_cons.1 hstack with rfl | hstack
      · refine .inr ?_
        rintro c ⟨m', hm', hc⟩
        obtain rfl : m = m' := Option.some.inj (hm.symm.trans hm')
        refine ⟨hcallees c hc, fun hproject => ?_⟩
        by_cases hold : P.methodName c ∈ seen
        · exact mem_append_right _ hold
        · exact mem_append_left _ (mem_map_of_mem (mem_entered.2 ⟨hc, hproject, hold⟩))
      · exact .inl (mem_append_right _ hstack)
    · refine .inr fun c hc => ⟨(hexpanded c hc).1, fun hproject => ?_⟩
      exact mem_append_right _ ((hexpanded c hc).2 hproject)

/-- A search that fails has explored all chains. -/
theorem explored_of_callsName (hnamed : P.Named) {fuel : Nat}
    (hfuel : (P.unseen seen).length + stack.length < fuel)
    (hexplored : P.Explored target seen stack) (h : P.callsName target fuel seen stack = false) :
    ∃ all, seen ⊆ all ∧ P.Explored target all [] := by
  induction fuel generalizing seen stack with
  | zero => omega
  | succ fuel ih =>
    cases stack with
    | nil => exact ⟨seen, .refl _, hexplored⟩
    | cons r stack =>
      rw [length_cons] at hfuel
      cases hm : P.method? r with
      | none =>
        -- There is no such method, so nothing was promised of it.
        rw [callsName, hm] at h
        refine ih (by omega) (fun s hs hseen => ?_) h
        refine (hexplored s hs hseen).imp_left fun hmem => ?_
        rcases mem_cons.1 hmem with rfl | hmem
        · simp [Has, hm] at hs
        · exact hmem
      | some m =>
        rw [callsName_cons hm] at h
        split at h
        · cases h
        · rename_i hfound
          have hcallees : ∀ c ∈ P.calledMethods m, P.methodName c ≠ target := fun c hc hname =>
            hfound (any_eq_true.2 ⟨c, hc, decide_eq_true hname⟩)
          have hnodup : ((P.entered seen m).map P.methodName).Nodup :=
            (nodup_calledMethods m).sublist (filter_sublist.map _)
          have hlength := length_unseen hnodup entered_subset
          obtain ⟨all, hall, hdone⟩ := ih
            (by simp only [length_append, length_reverse]; omega)
            (hexplored.enter hnamed hm hcallees) h
          exact ⟨all, fun _ hname => hall (mem_append_right _ hname), hdone⟩

/-- **The search finds the chains of calls.** -/
theorem reachesName_iff (hnamed : P.Named) (hr : P.Has (.method r)) :
    P.reachesName r target = true ↔ P.LeadsTo r target := by
  rw [reachesName, Bool.or_eq_true, decide_eq_true_eq, leadsTo_iff]
  refine or_congr_right ⟨fun h => ?_, fun hleads => ?_⟩
  · obtain ⟨s, hs, hleads⟩ := callLeadsTo_of_callsName h
    rw [mem_singleton.1 hs] at hleads
    exact hleads
  · by_contra h
    have hfuel : (P.unseen [P.methodName r]).length + [r].length < P.methods.length + 1 := by
      have hroot : [r] ⊆ P.unseen [] := by simp [mem_unseen, hr]
      have hlength := length_unseen (by simp) hroot
      have hle : (P.unseen []).length ≤ P.methods.length := by simp [unseen]
      simp only [map_cons, map_nil, append_nil] at hlength ⊢
      omega
    have hstart : P.Explored target [P.methodName r] [r] := by
      intro s hs hseen
      have hsame := hnamed (.method s) (.method r) hs hr (mem_singleton.1 hseen)
      cases hsame
      exact .inl (mem_singleton_self r)
    obtain ⟨all, hall, hdone⟩ := explored_of_callsName hnamed hfuel hstart (Bool.not_eq_true _ ▸ h)
    exact hdone.not_callLeadsTo hr (hall (mem_singleton_self _)) hleads

end Program

end ProgramDependence
