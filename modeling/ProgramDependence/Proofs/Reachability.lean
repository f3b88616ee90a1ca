import ProgramDependence.Proofs.DefUse

/-!
# Reachability queries are exact

The queries of a graph follow its edges with a worklist: a queue or a stack, forwards or backwards,
along the edges that a filter accepts, past nodes to avoid, and not beyond a last node.  Each of
them finds exactly what walks lead to (`searches_exact`), on cyclic graphs as well, and lists it
once.
-/

namespace ProgramDependence

open List Relation

theorem Search.Lists.congr {α : Type} {step step' : α → α → Prop} {starts found : List α}
    (h : Lists step starts found) (hstep : ∀ x y, step x y ↔ step' x y) : Lists step' starts found := by
  obtain rfl : step = step' := funext fun x => funext fun y => propext (hstep x y)
  exact h

theorem Walk.guarded_iff {α : Type} {step : α → α → Prop} {ok : α → Prop} {a b : α} {xs : List α} :
    Walk (fun x y => ok x ∧ step x y) a xs b ↔ Walk step a xs b ∧ ∀ x ∈ xs, ok x := by
  constructor
  · intro h
    induction h with
    | stay a => exact ⟨.stay a, forall_mem_nil _⟩
    | go head _ ih => exact ⟨.go head.2 ih.1, forall_mem_cons.2 ⟨head.1, ih.2⟩⟩
  · rintro ⟨h, hok⟩
    induction h with
    | stay a => exact .stay a
    | go head _ ih =>
      rw [forall_mem_cons] at hok
      exact .go ⟨hok.1, head⟩ (ih hok.2)

namespace Graph

def Steps (g : Graph) (forward : Bool) (ok : Edge → Bool) (a b : Id) : Prop :=
  if forward then g.Arrow ok a b else g.Arrow ok b a

variable {g : Graph} {ok : Edge → Bool}

theorem mem_neighbours_iff (hg : g.Coherent) {forward : Bool} {a b : Id} :
    b ∈ g.neighbours forward ok a ↔ g.Steps forward ok a b := by
  cases forward with
  | true => exact mem_neighbours hg
  | false => exact mem_neighbours_back hg

def farEnds (g : Graph) (forward : Bool) : List Id :=
  g.edges.map fun e => if forward then e.dst else e.src

theorem Steps.mem_farEnds {forward : Bool} {a b : Id} (h : g.Steps forward ok a b) :
    b ∈ g.farEnds forward := by
  cases forward with
  | true => exact h.dst_mem
  | false =>
    obtain ⟨e, he, -, rfl, -⟩ := h
    exact mem_map_of_mem he

theorem lists_reachableFrom (hg : g.Coherent) (start : Id) (forward : Bool) (ok : Edge → Bool) :
    Search.Lists (g.Steps forward ok) [start] (g.reachableFrom start forward ok) := by
  have hdomain : ∀ x, ∀ y ∈ g.neighbours forward ok x, y ∈ g.farEnds forward :=
    fun x y hy => ((mem_neighbours_iff hg).1 hy).mem_farEnds
  exact (Search.lists_run .queue hdomain (Nat.le_of_eq (length_map _)) (nodup_singleton start)).congr
    fun _ _ => mem_neighbours_iff hg

theorem walk_avoiding_iff {start finish : Id} {avoid : List Id} (hstart : start ∉ avoid) :
    ReflTransGen (g.Arrow fun e => ok e && !avoid.contains e.dst) start finish ↔
      ∃ xs, Walk (g.Arrow ok) start xs finish ∧ ∀ n ∈ xs ++ [finish], n ∉ avoid := by
  constructor
  · intro h
    induction h using ReflTransGen.head_induction_on with
    | refl => exact ⟨[], .stay finish, by simpa using hstart⟩
    | head hstep _ ih =>
      obtain ⟨e, he, hok, rfl, rfl⟩ := hstep
      simp only [Bool.and_eq_true, Bool.not_eq_true', contains_eq_mem, decide_eq_false_iff_not] at hok
      obtain ⟨xs, hwalk, havoid⟩ := ih hok.2
      exact ⟨_, .go ⟨e, he, hok.1, rfl, rfl⟩ hwalk, forall_mem_cons.2 ⟨hstart, havoid⟩⟩
  · rintro ⟨xs, hwalk, havoid⟩
    induction hwalk with
    | stay => exact .refl
    | go hstep tail ih =>
      obtain ⟨e, he, hok, rfl, rfl⟩ := hstep
      rw [cons_append, forall_mem_cons] at havoid
      have hdst := havoid.2 _ tail.start_mem
      exact .head ⟨e, he, by simp [hok, hdst], rfl, rfl⟩ (ih hdst havoid.2)

/-- A search that stops at its goal meets it iff the goal is found in the end. -/
theorem meets_eq_contains {next : Id → List Id} {goal : Id} (fuel : Nat) (todo visited : List Id)
    {found : List Id} (hgoal : goal ∉ found) :
    Search.meets next goal fuel todo found =
    (Search.run .queue next fuel todo found visited).found.contains goal := by
  have hkeeps : ∀ (fuel : Nat) (todo found visited : List Id),
      found ⊆ (Search.run .queue next fuel todo found visited).found := by
    intro fuel
    induction fuel with
    | zero => exact fun _ _ _ => .refl _
    | succ fuel ih =>
      intro todo found visited
      cases todo with
      | nil => exact .refl _
      | cons x todo => exact List.Subset.trans (subset_append_left _ _) (ih _ _ _)
  induction fuel generalizing todo found visited with
  | zero => simpa [Search.meets, Search.run] using hgoal
  | succ fuel ih =>
    cases todo with
    | nil => simpa [Search.meets, Search.run] using hgoal
    | cons x todo =>
      rw [Search.meets, Search.run]
      by_cases hnext : goal ∈ next x
      · have hnew : goal ∈ found ++ Search.fresh found (next x) :=
          mem_append_right _ (Search.mem_fresh.2 ⟨hnext, hgoal⟩)
        rw [if_pos hnext, contains_iff_mem.2 (hkeeps _ _ _ _ hnew)]
      · rw [if_neg hnext]
        exact ih _ _ fun hmem => (mem_append.1 hmem).elim hgoal fun hnew => hnext (Search.mem_fresh.1 hnew).1

theorem hasPathAvoiding_iff (hg : g.Coherent) (start finish : Id) (avoid : List Id) :
    g.hasPathAvoiding start finish avoid ok = true ↔ start = finish ∨
      ∃ xs, Walk (g.Arrow ok) start xs finish ∧ ∀ n ∈ xs ++ [finish], n ∉ avoid := by
  have hfound := (lists_reachableFrom hg start true fun e => ok e && !avoid.contains e.dst).mem_iff finish
  simp only [mem_singleton, exists_eq_left] at hfound
  unfold hasPathAvoiding
  split_ifs with heq havoid
  · simp [heq]
  · simp only [Bool.or_eq_true, decide_eq_true_eq] at havoid
    simp only [heq, false_or, false_iff]
    rintro ⟨xs, hwalk, h⟩
    rcases havoid with hmem | hmem
    · exact h _ hwalk.start_mem hmem
    · exact h _ (by simp) hmem
  · simp only [Bool.or_eq_true, decide_eq_true_eq, not_or] at havoid
    rw [meets_eq_contains _ _ [] (by simpa using Ne.symm heq), contains_iff_mem, or_iff_right heq]
    refine Iff.trans hfound ?_
    exact walk_avoiding_iff havoid.1

end Graph

namespace Cfg

/-- A walk does not go on from the last node, unless it starts there. -/
def EndsAt (stop : Option Id) (start : Id) (xs : List Id) : Prop :=
  ∀ n ∈ stop, n ≠ start → n ∉ xs.tail

theorem passes_iff_endsAt {step : Id → Id → Prop} {start finish : Id} {stop : Option Id} {xs : List Id}
    (h : Walk step start xs finish) : (∀ x ∈ xs, passes start stop x = true) ↔ EndsAt stop start xs := by
  cases h with
  | stay => simp [EndsAt]
  | go => grind [EndsAt, passes, Option.mem_def]

theorem mem_reachable_iff_walk {c : Cfg} (hc : c.Coherent) (start : Id) (forward loopBack : Bool)
    (stop : Option Id) :
    (c.reachable start forward loopBack stop).Nodup ∧ ∀ n, n ∈ c.reachable start forward loopBack stop ↔
      ∃ xs, Walk (c.Steps forward fun e => loopBack || !e.isLoopBack) start xs n ∧ EndsAt stop start xs := by
  let step := c.Steps forward fun e => loopBack || !e.isLoopBack
  have hnext : ∀ x y,
    y ∈ (if passes start stop x then c.neighbours forward (fun e => loopBack || !e.isLoopBack) x
      else []) ↔ passes start stop x = true ∧ step x y := by
    intro x y
    have hstep : y ∈ c.neighbours forward (fun e => loopBack || !e.isLoopBack) x ↔ step x y :=
      Graph.mem_neighbours_iff hc
    split <;> simp [*]
  have hlists := (Search.lists_run .stack (fun x y hy => ((hnext x y).1 hy).2.mem_farEnds)
    (Nat.le_of_eq (length_map _)) (nodup_singleton start)).congr hnext
  unfold reachable
  rw [Nat.add_comm]
  refine ⟨hlists.nodup, fun n => (hlists.mem_iff n).trans ?_⟩
  simp only [mem_singleton, exists_eq_left]
  constructor
  · intro h
    obtain ⟨xs, hwalk⟩ := Walk.exists_of_reflTransGen h
    have hparts := Walk.guarded_iff.1 hwalk
    exact ⟨xs, hparts.1, (passes_iff_endsAt hparts.1).1 hparts.2⟩
  · rintro ⟨xs, hwalk, hends⟩
    exact (Walk.guarded_iff.2 ⟨hwalk, (passes_iff_endsAt hwalk).2 hends⟩).reflTransGen

end Cfg

/-- **Reachability queries are exact.**  A node has a path to itself even if it is to be avoided. -/
theorem searches_exact {g : Graph} {c : Cfg} (hg : g.Coherent) (hc : c.Coherent) (start : Id) :
    (∀ finish avoid ok, g.hasPathAvoiding start finish avoid ok = true ↔ start = finish ∨
      ∃ xs, Walk (g.Arrow ok) start xs finish ∧ ∀ n ∈ xs ++ [finish], n ∉ avoid) ∧
    (∀ forward ok, Search.Lists (g.Steps forward ok) [start] (g.reachableFrom start forward ok)) ∧
    ∀ forward loopBack stop, (c.reachable start forward loopBack stop).Nodup ∧
      ∀ n, n ∈ c.reachable start forward loopBack stop ↔
        ∃ xs, Walk (c.Steps forward fun e => loopBack || !e.isLoopBack) start xs n ∧
        Cfg.EndsAt stop start xs :=
  ⟨fun finish avoid _ => Graph.hasPathAvoiding_iff hg start finish avoid, Graph.lists_reachableFrom hg start,
    Cfg.mem_reachable_iff_walk hc start⟩

open DataDependence in
/-- From the step of the counting loop the exit can be reached, but only through the test. -/
theorem countingLoop_searches : countingLoop.Coherent ∧
    (∃ xs, Walk (countingLoop.Arrow fun _ => true) 4 xs 2 ∧ ∀ n ∈ xs ++ [2], n ∉ [1]) ∧
    ¬ ∃ xs, Walk (countingLoop.Arrow fun _ => true) 4 xs 2 ∧ ∀ n ∈ xs ++ [2], n ∉ [3] := by
  have hc := assembled_countingLoop.coherent
  have havoiding := (searches_exact hc hc 4).1 2
  refine ⟨hc, ((havoiding [1] _).1 (by decide)).resolve_left (by decide), fun h => ?_⟩
  exact absurd ((havoiding [3] _).2 (.inr h)) (by decide)

end ProgramDependence
