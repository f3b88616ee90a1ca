import ProgramDependence.Proofs.Control

/-!
# What is charged to a node

An expression is evaluated on behalf of a node, its host, and what occurs in it is charged to the
host: a variable is used or defined.  A node pays its charges one after the other (`Node.pay`); it
then defines and uses what was charged to it, each variable once (`uses_foldl_pay`,
`defs_foldl_pay`), and is otherwise the node it was (`bare_foldl_pay`).
-/

namespace ProgramDependence

open List

/-- What may be charged to a node. -/
inductive Charge where
  | use (v : Variable)
  | define (v : Variable)

namespace Charge

/-- The charge for a variable that is read or, if `defining`, written to. -/
def of (defining : Bool) (v : Variable) : Charge :=
  if defining then define v else use v

def used? : Charge → Option Variable
  | use v => some v
  | define _ => none

def defined? : Charge → Option Variable
  | use _ => none
  | define v => some v

theorem mem_used {cs : List Charge} {v : Variable} : v ∈ cs.filterMap used? ↔ use v ∈ cs := by
  refine mem_filterMap.trans ⟨?_, fun h => ⟨use v, h, rfl⟩⟩
  rintro ⟨_ | _, hc, heq⟩
  · exact Option.some.inj heq ▸ hc
  · cases heq

theorem mem_defined {cs : List Charge} {v : Variable} : v ∈ cs.filterMap defined? ↔ define v ∈ cs := by
  refine mem_filterMap.trans ⟨?_, fun h => ⟨define v, h, rfl⟩⟩
  rintro ⟨_ | _, hc, heq⟩
  · cases heq
  · exact Option.some.inj heq ▸ hc

end Charge

/-- Add a variable to others, unless it is among them. -/
def Variable.adjoin (vs : List Variable) (v : Variable) : List Variable :=
  if v.isIn vs then vs else vs ++ [v]

namespace Node

/-- A node without its variables. -/
def bare (n : Node) : Node :=
  { n with defs := [], uses := [] }

def pay (n : Node) : Charge → Node
  | .use v => n.addUse v
  | .define v => n.addDef v

theorem addDef_eq (n : Node) (v : Variable) : n.addDef v = { n with defs := v.adjoin n.defs } := by
  unfold addDef defines Variable.adjoin
  split <;> rfl

theorem addUse_eq (n : Node) (v : Variable) : n.addUse v = { n with uses := v.adjoin n.uses } := by
  unfold addUse usesVariable Variable.adjoin
  split <;> rfl

/-- Charges change nothing but the variables. -/
@[simp] theorem bare_foldl_pay (cs : List Charge) (n : Node) : (cs.foldl pay n).bare = n.bare := by
  induction cs generalizing n with
  | nil => rfl
  | cons c cs ih =>
    refine (ih _).trans ?_
    cases c with
    | use v => rw [pay, addUse_eq, bare, bare]
    | define v => rw [pay, addDef_eq, bare, bare]

/-- A node uses what it did and then what it is charged to use. -/
theorem uses_foldl_pay (cs : List Charge) (n : Node) :
    (cs.foldl pay n).uses = (cs.filterMap Charge.used?).foldl Variable.adjoin n.uses := by
  induction cs generalizing n with
  | nil => rfl
  | cons c cs ih =>
    rw [foldl_cons, ih]
    cases c with
    | use v =>
      rw [pay, addUse_eq]
      rfl
    | define v => rw [pay, addDef_eq, filterMap_cons_none rfl]

/-- A node defines what it did and then what it is charged to define. -/
theorem defs_foldl_pay (cs : List Charge) (n : Node) :
    (cs.foldl pay n).defs = (cs.filterMap Charge.defined?).foldl Variable.adjoin n.defs := by
  induction cs generalizing n with
  | nil => rfl
  | cons c cs ih =>
    rw [foldl_cons, ih]
    cases c with
    | use v => rw [pay, addUse_eq, filterMap_cons_none rfl]
    | define v =>
      rw [pay, addDef_eq]
      rfl

end Node

end ProgramDependence
