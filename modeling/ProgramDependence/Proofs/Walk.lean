import ProgramDependence.Proofs.Coherence
import ProgramDependence.Proofs.Search

/-!
# Walks

`Walk step a xs b` goes from `a` to `b` along steps.  It records in `xs` what it leaves on the way,
so that walks are joined by joining their records; what it visits is `xs ++ [b]`.  In a graph the
steps are the edges that satisfy a condition (`Graph.Arrow`), and the searches of the library find
what walks reach.
-/

namespace ProgramDependence

open List

variable {α : Type}

/-- A walk with a record of what it leaves. -/
inductive Walk (step : α → α → Prop) : α → List α → α → Prop where
  | stay (a : α) : Walk step a [] a
  | go {a b c : α} {xs : List α} (head : step a b) (tail : Walk step b xs c) : Walk step a (a :: xs) c

namespace Walk

variable {step step' : α → α → Prop} {a b c m : α} {xs ys : List α}

section

variable (h : Walk step a xs b)

include h

theorem append (h' : Walk step b ys c) : Walk step a (xs ++ ys) c := by
  induction h with
  | stay => exact h'
  | go head _ ih => exact .go head (ih h')

theorem mono (hstep : ∀ x y, step x y → step' x y) : Walk step' a xs b := by
  induction h with
  | stay a => exact .stay a
  | go head _ ih => exact .go (hstep _ _ head) ih

theorem start_mem : a ∈ xs ++ [b] := by
  cases h with
  | stay => simp
  | go => simp

theorem reflTransGen : Relation.ReflTransGen step a b := by
  induction h with
  | stay => exact .refl
  | go head _ ih => exact .head head ih

end

theorem exists_of_reflTransGen (h : Relation.ReflTransGen step a b) : ∃ xs, Walk step a xs b := by
  induction h using Relation.ReflTransGen.head_induction_on with
  | refl => exact ⟨[], .stay b⟩
  | head head _ ih =>
    obtain ⟨xs, hxs⟩ := ih
    exact ⟨_, .go head hxs⟩

theorem cut (h : Walk step a xs b) (hm : m ∈ xs ++ [b]) :
    ∃ ys zs, xs = ys ++ zs ∧ Walk step a ys m ∧ Walk step m zs b := by
  induction h with
  | stay a =>
    obtain rfl : m = a := by simpa using hm
    exact ⟨[], [], rfl, .stay m, .stay m⟩
  | @go a _ _ xs head tail ih =>
    by_cases heq : m = a
    · subst heq
      exact ⟨[], _, rfl, .stay m, .go head tail⟩
    · obtain ⟨ys, zs, rfl, hys, hzs⟩ := ih (by simpa [heq] using hm)
      exact ⟨a :: ys, zs, rfl, .go head hys, hzs⟩

/-- A walk can be shortened to one that visits nothing twice. -/
theorem exists_simple (h : Walk step a xs b) : ∃ ys, Walk step a ys b ∧ (ys ++ [b]).Nodup ∧ ys ⊆ xs := by
  classical
  induction h with
  | stay a => exact ⟨[], .stay a, by simp, .refl _⟩
  | @go a _ c xs head _ ih =>
    obtain ⟨ys, hys, hnodup, hsub⟩ := ih
    by_cases ha : a ∈ ys ++ [c]
    · obtain ⟨us, zs, rfl, -, hzs⟩ := hys.cut ha
      refine ⟨zs, hzs, ?_, fun y hy => mem_cons_of_mem _ (hsub (mem_append_right _ hy))⟩
      rw [append_assoc] at hnodup
      exact (nodup_append.1 hnodup).2.1
    · exact ⟨a :: ys, .go head hys, nodup_cons.2 ⟨ha, hnodup⟩, cons_subset_cons _ hsub⟩

/-- The walks that visit only what satisfies a condition are found from their end, against the
steps. -/
theorem exists_visiting_iff {P : α → Prop} (hb : P b) : (∃ xs, Walk step a xs b ∧ ∀ m ∈ xs ++ [b], P m) ↔
    Relation.ReflTransGen (fun x y => step y x ∧ P y) b a := by
  constructor
  · rintro ⟨xs, hxs, hall⟩
    induction hxs with
    | stay => exact .refl
    | go head _ ih =>
      rw [cons_append, forall_mem_cons] at hall
      exact .tail (ih hb hall.2) ⟨head, hall.1⟩
  · intro h
    induction h with
    | refl => exact ⟨[], .stay b, by simpa using hb⟩
    | tail _ hstep ih =>
      obtain ⟨xs, hxs, hall⟩ := ih
      exact ⟨_, .go hstep.1 hxs, forall_mem_cons.2 ⟨hstep.2, hall⟩⟩

/-- A walk can be gone backwards. -/
theorem turn (h : Walk step a xs b) :
    ∃ ys, Walk (Function.swap step) b ys a ∧ ∀ m, m ∈ ys ++ [a] ↔ m ∈ xs ++ [b] := by
  induction h with
  | stay a => exact ⟨[], .stay a, fun _ => .rfl⟩
  | @go a n _ xs head _ ih =>
    obtain ⟨ys, hys, hmem⟩ := ih
    refine ⟨ys ++ [n], hys.append (.go head (.stay a)), fun m => ?_⟩
    rw [mem_append, hmem, mem_singleton, cons_append, mem_cons, or_comm]

theorem enters {s : α → Prop} (h : Walk step a xs b) (ha : ¬ s a) (hb : s b) :
    ∃ m n, m ∈ xs ∧ n ∈ xs ++ [b] ∧ ¬ s m ∧ s n ∧ step m n := by
  induction h with
  | stay => exact absurd hb ha
  | @go a n _ xs head tail ih =>
    by_cases hn : s n
    · exact ⟨a, n, by simp, mem_cons_of_mem _ tail.start_mem, ha, hn, head⟩
    · obtain ⟨m, n', hm, hn', hrest⟩ := ih hn hb
      exact ⟨m, n', mem_cons_of_mem _ hm, mem_cons_of_mem _ hn', hrest⟩

end Walk

/-! ## Steps of a graph -/

namespace Graph

variable {g : Graph} {ok : Edge → Bool}

/-- A step along an edge that satisfies a condition. -/
def Arrow (g : Graph) (ok : Edge → Bool) (a b : Id) : Prop :=
  ∃ e ∈ g.edges, ok e = true ∧ e.src = a ∧ e.dst = b

theorem Arrow.mono {ok' : Edge → Bool} (hok : ∀ e, ok e = true → ok' e = true) {a b : Id}
    (h : g.Arrow ok a b) : g.Arrow ok' a b := by
  obtain ⟨e, he, hholds, hends⟩ := h
  exact ⟨e, he, hok e hholds, hends⟩

theorem mem_neighbours (hg : g.Coherent) {a b : Id} : b ∈ g.neighbours true ok a ↔ g.Arrow ok a b := by
  simp only [neighbours, if_true, mem_map, mem_filter, hg.mem_edgesOutOf, Arrow]
  constructor
  · rintro ⟨e, ⟨⟨he, hsrc⟩, hok⟩, hdst⟩
    exact ⟨e, he, hok, hsrc, hdst⟩
  · rintro ⟨e, he, hok, hsrc, hdst⟩
    exact ⟨e, ⟨⟨he, hsrc⟩, hok⟩, hdst⟩

theorem mem_neighbours_back (hg : g.Coherent) {a b : Id} : b ∈ g.neighbours false ok a ↔ g.Arrow ok b a := by
  simp only [neighbours, Bool.false_eq_true, if_false, mem_map, mem_filter, hg.mem_edgesInto, Arrow]
  constructor
  · rintro ⟨e, ⟨⟨he, hdst⟩, hok⟩, hsrc⟩
    exact ⟨e, he, hok, hsrc, hdst⟩
  · rintro ⟨e, he, hok, hsrc, hdst⟩
    exact ⟨e, ⟨⟨he, hdst⟩, hok⟩, hsrc⟩

theorem Arrow.dst_mem {a b : Id} (h : g.Arrow ok a b) : b ∈ g.edges.map (·.dst) := by
  obtain ⟨e, he, -, -, rfl⟩ := h
  exact mem_map_of_mem he

end Graph

/-- What is found along all edges is what can be reached. -/
theorem Cfg.mem_reachable_iff {c : Cfg} (hc : c.Coherent) {a b : Id} :
    b ∈ c.reachable a true true none ↔ Relation.ReflTransGen (c.Arrow fun _ => true) a b := by
  have hnext : ∀ x, (if Cfg.passes a none x then c.neighbours true (fun _ => true) x else []) =
      c.neighbours true (fun _ => true) x := by
    intro x
    simp [Cfg.passes]
  have hdomain : ∀ x, ∀ y ∈ c.neighbours true (fun _ => true) x, y ∈ c.edges.map (·.dst) :=
    fun x y hy => ((Graph.mem_neighbours hc).1 hy).dst_mem
  have hfound := (Search.lists_run .stack hdomain (Nat.le_of_eq (length_map _)) (nodup_singleton a)).mem_iff b
  simp only [Graph.mem_neighbours hc, mem_singleton, exists_eq_left] at hfound
  simp only [Cfg.reachable, Bool.true_or, hnext, Nat.add_comm c.edges.length]
  exact hfound

theorem Cfg.mem_reachable {c : Cfg} (hc : c.Coherent) {a b : Id}
    (h : Relation.ReflTransGen (c.Arrow fun _ => true) a b) : b ∈ c.reachable a true true none :=
  (Cfg.mem_reachable_iff hc).2 h

end ProgramDependence
