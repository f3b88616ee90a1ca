import ProgramDependence.Proofs.Slices

/-!
# Slices on a definition and data closures

A single backward search from a node that starts from nothing takes everything from which the node
is reached along the edges it follows, and all of these edges (`BackwardClosure`).  The slice on a
variable that its node defines is such a search along control and data dependences, and the data
closure of a node is one along the dependences that carry values.  Cycles and parallel edges do no
harm: a node is entered when it is met first, and an edge is taken when its end is expanded, by
which time both of its ends are there.
-/

namespace ProgramDependence

namespace Slice

variable {source part : Graph} {ok : Edge → Bool} {start : Id}

/-- `BackwardClosure source ok start part`: the part has exactly the nodes from which `start` is
reached along accepted edges, each once, and exactly the accepted edges that enter them. -/
structure BackwardClosure (source : Graph) (ok : Edge → Bool) (start : Id) (part : Graph) : Prop where
  coherent : part.Coherent
  nodes : ∀ n, n ∈ part.nodes ↔
    n ∈ source.nodes ∧ Relation.ReflTransGen (source.Arrow ok) n.id start
  edges : ∀ e, e ∈ part.edges ↔
    e ∈ source.edges ∧ ok e = true ∧ Relation.ReflTransGen (source.Arrow ok) e.dst start

theorem Part.Extends.mem_swept_iff {kind : GraphKind} {part' : Graph} {swept : List Id}
    (h : Part.Extends source ok (.empty kind) start part' swept) {id : Id} :
    id ∈ swept ↔ Relation.ReflTransGen (source.Arrow ok) id start := by
  constructor
  · intro hid
    exact .mono (fun _ _ hstep => hstep.1) _ _ (h.reached id hid)
  · intro hpath
    induction hpath using Relation.ReflTransGen.head_induction_on with
    | refl => exact h.start_mem
    | head harrow _ ih =>
      rcases h.closed _ ih _ harrow with hmet | hswept
      · cases hmet
      · exact hswept

theorem extendBackward_closure (hsource : source.Coherent) (ok : Edge → Bool) (kind : GraphKind)
    {n : Node} (hn : n ∈ source.nodes) :
    ∃ part, extendBackward source ok (.empty kind) n = .ok part ∧ BackwardClosure source ok n.id part := by
  obtain ⟨part, swept, hrun, hext⟩ := (Part.empty source kind).extendBackward ok hsource hn
  refine ⟨part, hrun, hext.isPart.coherent, ?_, ?_⟩
  · intro m
    rw [hext.nodes, hext.mem_swept_iff]
    exact or_iff_right List.not_mem_nil
  · intro e
    rw [hext.edges, hext.mem_swept_iff]
    exact or_iff_right List.not_mem_nil

theorem build_of_definition {c : Criterion} (hsource : source.Coherent) (hc : c.node ∈ source.nodes)
    (hdefined : c.isDefined = true) :
    ∃ part, build source c = (.ok part, []) ∧ BackwardClosure source isFollowed c.node.id part := by
  obtain ⟨part, hrun, hclosure⟩ := extendBackward_closure hsource isFollowed .slice hc
  refine ⟨part, ?_, hclosure⟩
  simp only [build, hasNode_of_mem hc, hdefined, Bool.not_true, Bool.false_eq_true, if_false, if_true, hrun]

theorem BackwardClosure.freeze (h : BackwardClosure source ok start part) :
    BackwardClosure source ok start part.freeze :=
  ⟨h.coherent.freeze, h.nodes, h.edges⟩

/-- **Slices on a definition and data closures are exact.**  On every coherent graph, cyclic or not,
the slice on a variable that a node defines has exactly the nodes from which this node is reached
along control and data dependences, and exactly these dependences into them.  The data closure of a
node is the same along the dependences that carry values.  Neither fails, and neither draws an id or
reports anything. -/
theorem of_definition_exact {σ : Type} (hsource : source.Coherent) {n : Node} (hn : n ∈ source.nodes)
    (p : σ × Trail) : (∀ subject, (⟨n, subject⟩ : Criterion).isDefined = true →
      ∃ s, ((Slice.of source ⟨n, subject⟩).run p : Except Error Slice × σ × Trail) = (.ok s, p) ∧
        s.criterion = ⟨n, subject⟩ ∧ BackwardClosure source isFollowed n.id s.toGraph) ∧
    ∃ s, ((Slice.closure source n).run p : Except Error Slice × σ × Trail) = (.ok s, p) ∧
      BackwardClosure source isValueFlow n.id s.toGraph := by
  constructor
  · intro subject hdefined
    obtain ⟨part, hbuild, hclosure⟩ := build_of_definition (c := ⟨n, subject⟩) hsource hn hdefined
    refine ⟨{ toGraph := part.freeze, criterion := ⟨n, subject⟩ }, ?_, rfl, hclosure.freeze⟩
    simp only [Slice.of, hbuild]
    rfl
  · obtain ⟨part, hrun, hclosure⟩ := extendBackward_closure hsource isValueFlow .closure hn
    refine ⟨{ toGraph := part.freeze, criterion := ⟨n, .named ""⟩ }, ?_, hclosure.freeze⟩
    simp only [Slice.closure, hasNode_of_mem hn, if_true, hrun]
    rfl

/-- The slice on the counter at the step of a loop goes round the loop and back to its bound, while
the data closure of the step is the step alone. -/
theorem countingLoop_slice_step : countingLoop.Coherent ∧ increment ∈ countingLoop.nodes ∧
    (⟨increment, .named "i"⟩ : Criterion).isDefined = true ∧
    (∃ s, ((Slice.of countingLoop ⟨increment, .named "i"⟩).run ((), { next := 7 }) :
        Except Error Slice × Unit × Trail) = (.ok s, (), { next := 7 }) ∧
      bound ∈ s.nodes ∧ condition ∈ s.nodes ∧ ∀ e ∈ countingLoop.edges, e ∈ s.edges) ∧
    ∃ s, ((Slice.closure countingLoop increment).run ((), { next := 7 }) :
        Except Error Slice × Unit × Trail) = (.ok s, (), { next := 7 }) ∧
      increment ∈ s.nodes ∧ condition ∉ s.nodes := by
  have hstep : increment ∈ countingLoop.nodes := .tail _ (.tail _ (.head _))
  obtain ⟨hslice, s', hrun', hclosure'⟩ :=
    of_definition_exact coherent_countingLoop hstep ((), { next := 7 })
  obtain ⟨s, hrun, -, hclosure⟩ := hslice (.named "i") (by decide)
  have hcondition : countingLoop.Arrow isFollowed 1 2 :=
    ⟨⟨4, 1, 2, .dependence .loopIndependent (some { name := "n" }) none⟩, by decide, by decide, rfl, rfl⟩
  have hbody : countingLoop.Arrow isFollowed 2 3 :=
    ⟨⟨6, 2, 3, .dependence .controlTrue none none⟩, by decide, by decide, rfl, rfl⟩
  refine ⟨coherent_countingLoop, hstep, by decide, ⟨s, hrun, ?_, ?_, ?_⟩, s', hrun', ?_, ?_⟩
  · exact (hclosure.nodes _).2 ⟨.head _, .tail (.single hcondition) hbody⟩
  · exact (hclosure.nodes _).2 ⟨condition_mem, .single hbody⟩
  · intro e he
    have hends : ∀ e ∈ countingLoop.edges, isFollowed e = true ∧ (e.dst = 2 ∨ e.dst = 3) := by decide
    obtain ⟨hok, hdst⟩ := hends e he
    refine (hclosure.edges e).2 ⟨he, hok, ?_⟩
    rcases hdst with hdst | hdst
    · rw [hdst]
      exact .single hbody
    · rw [hdst]
      exact .refl
  · exact (hclosure'.nodes _).2 ⟨hstep, .refl⟩
  · intro hmem
    -- Only the control dependence leads from the condition to the step, and it carries no value.
    obtain ⟨-, hpath⟩ := (hclosure'.nodes _).1 hmem
    have hnone : ∀ e ∈ countingLoop.edges, isValueFlow e = true → e.dst ≠ 3 := by decide
    rcases Relation.ReflTransGen.cases_tail hpath with heq | ⟨b, -, e, he, hok, -, hdst⟩
    · exact absurd heq (by decide)
    · exact hnone e he hok hdst

end Slice

end ProgramDependence
