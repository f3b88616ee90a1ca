import ProgramDependence.Proofs.EvaluationOrder

/-!
# Every variable is charged to its host

After the expressions of a statement are visited, its node defines and uses what it did before and
what the walk charges to it.  The nodes put before it are those of the bills of the walk, in order,
and each defines and uses exactly what its bill says, no variable twice (`visitNode_charges`).  The
walk makes up the variables of arguments and results by their number, so a result is used under the
name under which the node of the call or of its result defines it.
-/

namespace ProgramDependence

open List Lowering
variable {vs : List Variable}

def Node.Distinct (n : Node) : Prop :=
  (n.defs.map (·.identity)).Nodup ∧ (n.uses.map (·.identity)).Nodup

/-- A node defines and uses what another one does and what it is charged, and no variable twice if
that one does not. -/
structure Charged (cs : List Charge) (n m : Node) : Prop where
  bare : m.bare = n.bare
  defs : ∀ v : Variable, v.isIn m.defs = true ↔ v.isIn n.defs = true ∨ ∃ w, .define w ∈ cs ∧ v.same w = true
  uses : ∀ v : Variable, v.isIn m.uses = true ↔ v.isIn n.uses = true ∨ ∃ w, .use w ∈ cs ∧ v.same w = true
  distinct : n.Distinct → m.Distinct

theorem Variable.isIn_adjoin {v w : Variable} :
    w.isIn (v.adjoin vs) = true ↔ w.isIn vs = true ∨ w.same v = true := by
  unfold adjoin
  split
  · rename_i h
    refine ⟨.inl, fun hw => hw.elim id fun hsame => ?_⟩
    rw [isIn_iff] at h ⊢
    rwa [same_iff.1 hsame]
  · simp [isIn]

theorem Variable.nodup_adjoin {v : Variable} (h : (vs.map identity).Nodup) :
    ((v.adjoin vs).map identity).Nodup := by
  unfold adjoin
  split
  · exact h
  · rename_i hv
    rw [map_append, nodup_append]
    refine ⟨h, nodup_singleton _, fun a ha b hb hab => hv ?_⟩
    obtain ⟨w, hw, rfl⟩ := mem_map.1 ha
    exact isIn_iff.2 ⟨w, hw, by simpa using (hab.trans (mem_singleton.1 hb)).symm⟩

theorem Variable.isIn_foldl_adjoin {w : Variable} (ws vs : List Variable) :
    w.isIn (ws.foldl adjoin vs) = true ↔ w.isIn vs = true ∨ ∃ v, v ∈ ws ∧ w.same v = true := by
  induction ws generalizing vs with
  | nil => simp
  | cons v ws ih =>
    rw [foldl_cons, ih, isIn_adjoin]
    simp [or_assoc]

theorem Variable.nodup_foldl_adjoin (ws : List Variable) (h : (vs.map identity).Nodup) :
    ((ws.foldl adjoin vs).map identity).Nodup := by
  induction ws generalizing vs with
  | nil => exact h
  | cons v ws ih => exact ih (nodup_adjoin h)

theorem charged_pay (cs : List Charge) (n : Node) : Charged cs n (cs.foldl Node.pay n) where
  bare := Node.bare_foldl_pay cs n
  defs v := by
    rw [Node.defs_foldl_pay, Variable.isIn_foldl_adjoin]
    simp only [Charge.mem_defined]
  uses v := by
    rw [Node.uses_foldl_pay, Variable.isIn_foldl_adjoin]
    simp only [Charge.mem_used]
  distinct h := by
    rw [Node.Distinct, Node.defs_foldl_pay, Node.uses_foldl_pay]
    exact ⟨Variable.nodup_foldl_adjoin _ h.1, Variable.nodup_foldl_adjoin _ h.2⟩

namespace Lowering

open Tracked

variable {scope : Scope} {p : State × Trail} {node : Id}

/-- **Each variable is charged to its host.**  The node of a statement pays what the walk charges to
it; the nodes put before it are all those that were made, and each in turn has the label of a bill
of the walk and pays it.  What is not resolved is reported. -/
theorem visitNode_charges {n : Node} (es : List Expr) (hfit : p.1.graph.Fit p.2.next)
    (hnode : p.1.graph.node? node = some n) : Returns (visitNode scope node es) p fun _ q =>
      let walked := tallyAll scope es { notes := ⟨p.1.specials, p.1.verdicts⟩ }
      (∃ m, q.1.graph.node? node = some m ∧ Charged walked.charges n m) ∧
      (∃ before, q.1.sequence = before ++ [node] ∧ before.Nodup ∧
        (∀ k ∈ q.1.graph.nodes, p.2.next ≤ k.id ↔ k.id ∈ before) ∧
        List.Forall₂ (fun id bill => ∃ k, q.1.graph.node? id = some k ∧ k.label = bill.label ∧
          k.Distinct ∧ Charged bill.charges k.bare k) before walked.bills) ∧
      q.1.unresolved = p.1.unresolved ++ walked.lost.map .expr := by
  have hnoted : Noted p (.mk p.1.specials p.1.verdicts) := ⟨rfl, rfl⟩
  have hmem := mem_nodeIds_of_node? hnode
  refine (ends_visitNode (t := { notes := ⟨p.1.specials, p.1.verdicts⟩ }) es hfit hmem hnoted).imp ?_
  rintro _ q ⟨created, placed, cs, lost, hperm, he, hsequence, ⟨hbills, hcharges, hlost⟩, -, hhost⟩
  have hcoherent := he.grows.fit.growing.coherent
  have hfresh := he.fresh hperm
  refine ⟨⟨cs.foldl Node.pay n, ?_, ?_⟩,
    ⟨_, hsequence, he.nodup hperm, fun k hk => ⟨fun hid => ?_, hfresh _⟩, ?_⟩, ?_⟩
  · rw [hhost, hnode]
    rfl
  · rw [hcharges]
    exact charged_pay cs n
  · refine (mem_placed_iff hperm).1 ((he.grows.mem_nodeIds.1 (mem_map_of_mem hk)).resolve_left fun hold => ?_)
    exact absurd (hfit.lt_of_mem hold) (Int.not_lt.2 hid)
  · rw [hbills, nil_append, forall₂_map_left_iff, forall₂_map_right_iff, forall₂_same]
    intro x hx
    have hmem' := mem_map_of_mem (f := (·.id)) hx
    have hne : x.id ∉ [node] := fun h =>
      absurd (hfit.lt_of_mem hmem) (Int.not_lt.2 (mem_singleton.1 h ▸ hfresh _ hmem'))
    obtain ⟨k, hk, hsettled⟩ := he.settled x hx hne
    have hcharged := charged_pay x.bill.charges k.bare
    rw [hsettled.paid] at hcharged
    refine ⟨k, hk, ?_, hcharged.distinct ⟨nodup_nil, nodup_nil⟩, hcharged⟩
    have htoken : x.token ∈ q.1.graph.tokens :=
      he.grows.tokens_perm.mem_iff.2 (mem_append_right _ (hperm.mem_iff.2 (mem_map_of_mem hx)))
    have hlabels := labels_tokens hcoherent (forall_mem_singleton.2 htoken)
    simpa [hk, Placed.token] using hlabels
  · rw [he.unresolved, hlost]
    rfl

/-- In `x += m(y)` the statement defines and uses `x` and uses the variable that is made up for the
result, which the node of the call defines: its bill is to use `y` and to define that variable. -/
theorem visitNode_charges_compound :
    Returns (visitNode library 1 [.assignment (.name (some { name := "x" }) "x" 1)
      (callOn "m" .absent [.name (some { name := "y" }) "y" 1]) "+=" 1]) hosted fun _ q =>
    let returned := madeUp library 1 "!m" "void"
    (∃ m, q.1.graph.node? 1 = some m ∧ Charged [.define { name := "x" }, .use { name := "x" }, .use returned]
      { id := 1, sort := .statement .empty } m) ∧
    ∃ call k, q.1.sequence = [call, 1] ∧ q.1.graph.node? call = some k ∧
      Charged [.use { name := "y" }, .define returned] k.bare k := by
  have hfit : hosted.1.graph.Fit hosted.2.next := (Graph.fit_empty 1).appendNode rfl
  refine (visitNode_charges _ hfit rfl).imp ?_
  rintro _ q ⟨hhost, ⟨before, hsequence, -, -, hbills⟩, -⟩
  refine ⟨hhost, ?_⟩
  cases hbills with
  | @cons call _ _ _ hcall hrest =>
    cases hrest
    obtain ⟨k, hk, -, -, hcharged⟩ := hcall
    exact ⟨call, k, hsequence, hk, hcharged⟩

end Lowering

end ProgramDependence
