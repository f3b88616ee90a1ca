import Mathlib.Data.List.Chain
import ProgramDependence.Proofs.CopiedUnits

/-!
# The partition into basic blocks

A flow graph is `Threaded` where every node leads to the exit and an edge that leaves its node alone
leads straight on or falls through.  The flow graphs of units are threaded, and so are their copies.

In a threaded graph the node before one that starts no block is left by one edge only.  So a walk to
the exit that begins at such a node **can be prolonged backwards and still visits nothing twice**
(`Threaded.exists_before`); as there are finitely many nodes, a node that starts a block is met in
the end. Hence no node is missed (`Threaded.exists_start`), and the blocks are a partition
(`returned_partitioned`).
-/

namespace ProgramDependence

open List

open Tracked

theorem Walk.exists_step {α : Type} {step : α → α → Prop} {a b : α} {xs : List α}
    (h : Walk step a xs b) : ∀ x ∈ xs, ∃ y, step x y := by
  induction h with
  | stay => exact fun x hx => absurd hx not_mem_nil
  | go head _ ih => exact forall_mem_cons.2 ⟨⟨_, head⟩, ih⟩

namespace Cfg

variable {e : Edge}

/-- A flow graph in which straight ways go on until edges meet or part. -/
structure Threaded (c : Cfg) : Prop extends c.Orderly where
  leadsOut : c.LeadsOut
  first : ∃ e, c.edgesOutOf c.entry.id = [e] ∧ e.isStraight = true
  lone : ∀ n e, c.edgesOutOf n = [e] → e.isStraight = true ∨ e.isFallThrough = true
  last : c.edgesOutOf c.exit.id = []

/-! ## Units and copies are threaded -/

namespace Realizes

variable {c : Cfg} {u : Plan}

/-- A lone edge goes straight on, unless its start jumps. -/
theorem straight_of_lone (h : c.Realizes u) (hfits : u.Fits) {n : Node} (hn : n ∈ c.nodes)
    (hone : c.edgesOutOf n.id = [e]) : e.isStraight = true ∨ e.isFallThrough = true ∧
    n.sort.jumps = true := by
  have hshaped := h.shaped hfits
  have hsorts : c.sortsOut n.id = [e.flowSort?] := by
    rw [sortsOut, hone, map_singleton]
  by_cases hforks : n.sort.forks = true
  · have hperm := hshaped.forks n hn hforks
    rw [hsorts] at hperm
    exact absurd hperm.length_eq (by simp)
  by_cases hjumps : n.sort.jumps = true
  · rcases h.jumps_or_lost hfits hn hjumps with (hperm | hperm) | ⟨-, hlost, -⟩
    · rw [hsorts] at hperm
      exact .inl (by simp [Edge.isStraight, singleton_perm_singleton.1 hperm])
    · rw [hsorts] at hperm
      exact absurd hperm.length_eq (by simp)
    · rw [hsorts] at hlost
      exact .inr ⟨by simp [Edge.isFallThrough, singleton_inj.1 hlost], hjumps⟩
  have hexit : n.id ≠ c.exit.id := by
    intro heq
    rw [heq, hshaped.exit] at hsorts
    cases hsorts
  rcases hshaped.others n hn hexit (Bool.eq_false_iff.2 hforks) (Bool.eq_false_iff.2 hjumps) with heq | heq
  all_goals
    rw [hsorts] at heq
    simp [Edge.isStraight, singleton_inj.1 heq]

theorem threaded (h : c.Realizes u) (hfits : u.Fits) (horderly : c.Orderly) : c.Threaded where
  toOrderly := horderly
  leadsOut := h.leadsOut
  first := by
    obtain ⟨e, hone⟩ := h.edgesOutOf_entry hfits
    rcases h.straight_of_lone hfits h.entry_mem hone with hstraight | ⟨-, hjumps⟩
    · exact ⟨e, hone, hstraight⟩
    · have hentry : c.entry.sort.isEntry = true := by
        rw [show c.entry.sort = u.entry.label.sort from congrArg (·.label.sort) h.entry_eq]
        exact hfits.entry
      cases hsort : c.entry.sort with
      | entry _ =>
        rw [hsort] at hjumps
        cases hjumps
      | _ =>
        rw [hsort] at hentry
        cases hentry
  lone := by
    intro n e hone
    have hmem : e ∈ c.edgesOutOf n := by
      rw [hone]
      exact mem_singleton_self e
    obtain ⟨hedge, hsrc⟩ := h.coherent.mem_edgesOutOf.1 hmem
    obtain ⟨k, hk, hid⟩ := mem_map.1 (h.coherent.src_mem e hedge)
    rw [← hsrc, ← hid] at hone
    exact (h.straight_of_lone hfits hk hone).imp_right And.left
  last := map_eq_nil_iff.1 h.sortsOut_exit

end Realizes

/-- **The flow graph of a unit is threaded.** -/
theorem ends_ofUnit_threaded {σ : Type} (context : Context) (unit : UnitRef) (p : σ × Trail) :
    Ends (ofUnit context unit) p (fun c _ => c.Copyable ∧ c.Threaded) (fun _ _ => True) := by
  refine ((ends_ofUnit context unit p).and (ends_ofUnit_copyable context unit p)).partly ?_
  intro c q hc
  obtain ⟨⟨-, u, hproper, -⟩, hcopyable, -⟩ := hc
  exact ⟨hcopyable, hproper.threaded hproper.fits hcopyable.toOrderly⟩

namespace Renamed

variable {ρ : Renaming} {c c' : Cfg}

variable (h : Renamed ρ c c')
include h

theorem arrow_of {a : Id} {y : Id} (hstep : c'.Arrow (fun _ => true) (ρ.node a) y) :
    ∃ b, y = ρ.node b ∧ c.Arrow (fun _ => true) a b := by
  obtain ⟨e', he', -, hsrc, rfl⟩ := hstep
  rw [h.edges_eq] at he'
  obtain ⟨e, he, rfl⟩ := mem_map.1 he'
  exact ⟨e.dst, rfl, e, he, rfl, ρ.node_inj.1 hsrc, rfl⟩

theorem reaches_of {a y : Id} (hreach : Relation.ReflTransGen (c'.Arrow fun _ => true) (ρ.node a) y) :
    ∃ b, y = ρ.node b ∧ Relation.ReflTransGen (c.Arrow fun _ => true) a b := by
  induction hreach with
  | refl => exact ⟨a, rfl, .refl⟩
  | tail _ hstep ih =>
    obtain ⟨b, rfl, hb⟩ := ih
    obtain ⟨d, rfl, hd⟩ := h.arrow_of hstep
    exact ⟨d, rfl, hb.tail hd⟩

theorem edgesOutOf_eq_singleton {n : Id} {e' : Edge} (hone : c'.edgesOutOf (ρ.node n) = [e']) :
    ∃ e, c.edgesOutOf n = [e] ∧ e' = e.rename ρ := by
  rw [h.edgesOutOf_eq] at hone
  obtain ⟨e, he, heq⟩ := map_eq_singleton_iff.1 hone
  exact ⟨e, he, heq.symm⟩

theorem threaded (hc : c.Orderly) (hc' : c'.Threaded) : c.Threaded where
  toOrderly := hc
  leadsOut := by
    intro n hn
    have hmem : ρ.node n ∈ c'.nodeIds := by
      rw [h.nodeIds_eq]
      exact mem_map_of_mem hn
    obtain ⟨b, heq, hb⟩ := h.reaches_of (hc'.leadsOut _ hmem)
    rw [h.exit_id] at heq
    exact ρ.node_inj.1 heq ▸ hb
  first := by
    obtain ⟨e', hone, hstraight⟩ := hc'.first
    rw [h.entry_id] at hone
    obtain ⟨e, he, rfl⟩ := h.edgesOutOf_eq_singleton hone
    exact ⟨e, he, by rwa [Edge.rename_isStraight] at hstraight⟩
  lone := by
    intro n e hone
    have hone' : c'.edgesOutOf (ρ.node n) = [e.rename ρ] := by
      rw [h.edgesOutOf_eq, hone, map_singleton]
    have hlone := hc'.lone _ _ hone'
    rwa [Edge.rename_isStraight, Edge.rename_isFallThrough] at hlone
  last := by
    have hnone := hc'.last
    rw [h.exit_id, h.edgesOutOf_eq] at hnone
    exact map_eq_nil_iff.1 hnone

end Renamed

/-- **A copy of a threaded graph is threaded.** -/
theorem Threaded.ends_copy {σ : Type} {c : Cfg} (h : c.Threaded) (hc : c.Copyable) (p : σ × Trail) :
    Returns c.copy p fun r _ => r.1.Copyable ∧ r.1.Threaded := by
  refine (hc.ends_copy p).imp ?_
  intro r q hr
  obtain ⟨-, hcopyable, ρ, hrenamed, -⟩ := hr
  exact ⟨hcopyable, hrenamed.threaded hcopyable.toOrderly h⟩

/-! ## Nodes within a block -/

/-- A node comes straight after another one in its block. -/
def Onward (c : Cfg) (a b : Id) : Prop :=
  c.follower a = some b ∧ b ∉ c.starts ∧ b ≠ c.exit.id

/-- Two nodes are joined by an edge that leads straight on, the only one that leaves the first and
the only one that enters the second. -/
def Joined (c : Cfg) (a b : Id) : Prop :=
  ∃ e, (e.flowSort? = some .true ∨ e.flowSort? = some .parameter) ∧ c.edgesOutOf a = [e] ∧ c.edgesInto b = [e]

theorem eq_singleton_of_mem {es : List Edge} (he : e ∈ es) (hfew : ¬ 1 < es.length) : es = [e] := by
  have hpos := length_pos_of_mem he
  obtain ⟨x, rfl⟩ := length_eq_one_iff.1 (show es.length = 1 by omega)
  rw [mem_singleton.1 he]

namespace Threaded

variable {c : Cfg}
variable {xs : List Id}

theorem follower_eq {n : Id} (hone : c.edgesOutOf n = [e]) (hstraight : e.isStraight = true) :
    c.follower n = some e.dst := by
  rw [follower, hone, find?_cons_of_pos hstraight]
  rfl

/-- **The only edge into a node that starts no block is the only edge out of its node.** -/
theorem exists_before (h : c.Threaded) {n : Id} (hn : n ∈ c.nodeIds) (hentry : n ≠ c.entry.id)
    (hexit : n ≠ c.exit.id) (hstarts : n ∉ c.starts) :
    ∃ e, c.edgesInto n = [e] ∧ c.edgesOutOf e.src = [e] ∧ e.isStraight = true ∧ e.src ≠ c.entry.id := by
  have hleads : c.leads n = false := by
    rw [← Bool.not_eq_true]
    intro hleads
    exact hstarts (mem_starts.2 ⟨⟨hn, hentry, hexit⟩, hleads⟩)
  simp only [leads, Bool.or_eq_false_iff, decide_eq_false_iff_not] at hleads
  obtain ⟨⟨hfirst, hjoin⟩, hfall, hbranch⟩ := hleads
  obtain ⟨e, hmem, hnofall⟩ := all_eq_false.1 hfall
  have hin : c.edgesInto n = [e] := eq_singleton_of_mem hmem (of_decide_eq_false hjoin)
  obtain ⟨hedge, hdst⟩ := h.coherent.mem_edgesInto.1 hmem
  have hout : e ∈ c.edgesOutOf e.src := h.coherent.mem_edgesOutOf.2 ⟨hedge, rfl⟩
  have hsrc : e.src ≠ c.entry.id := by
    intro heq
    obtain ⟨f, hone, hstraight⟩ := h.first
    rw [heq, hone, mem_singleton] at hout
    rw [follower_eq hone hstraight, ← hout, hdst] at hfirst
    exact hfirst rfl
  have hone : c.edgesOutOf e.src = [e] := by
    have hpred : c.predecessors n = [e.src] := by
      rw [Graph.predecessors, hin]
      rfl
    rw [hpred, any_eq_false] at hbranch
    have hfew := hbranch e.src (mem_filter.2 ⟨mem_singleton_self _, decide_eq_true hsrc⟩)
    exact eq_singleton_of_mem hout (mt decide_eq_true hfew)
  refine ⟨e, hin, hone, ?_, hsrc⟩
  rcases h.lone _ _ hone with hstraight | hfalls
  · exact hstraight
  · exact absurd hfalls hnofall

theorem mem_of_onward (h : c.Threaded) {a b : Id} (hab : c.Onward a b) : b ∈ c.nodeIds ∧ b ≠ c.entry.id := by
  obtain ⟨e, he, -, hdst⟩ := h.exists_edge hab.1
  exact hdst ▸ ⟨h.coherent.dst_mem e he, h.start e he⟩

theorem joined_of_onward (h : c.Threaded) {a b : Id} (hab : c.Onward a b) : c.Joined a b := by
  obtain ⟨hb, hentry⟩ := h.mem_of_onward hab
  obtain ⟨e, hin, hout, hstraight, -⟩ := h.exists_before hb hentry hab.2.2 hab.2.1
  obtain ⟨f, hf, hsrc, hdst⟩ := h.exists_edge hab.1
  have hfin : f ∈ c.edgesInto b := h.coherent.mem_edgesInto.2 ⟨hf, hdst⟩
  rw [hin, mem_singleton] at hfin
  rw [hfin] at hsrc
  rw [hsrc] at hout
  refine ⟨e, ?_, hout, hin⟩
  simpa [Edge.isStraight] using hstraight

theorem length_le_of_walk (h : c.Threaded) {n z : Id} (hwalk : Walk (c.Arrow fun _ => true) n xs z)
    (hnodup : (xs ++ [z]).Nodup) : xs.length ≤ c.nodeIds.length := by
  have hinside : ∀ x ∈ xs, x ∈ c.nodeIds := by
    intro x hx
    obtain ⟨y, e, he, -, hsrc, -⟩ := hwalk.exists_step x hx
    exact hsrc ▸ h.coherent.src_mem e he
  exact (subperm_of_subset hnodup.of_append_left hinside).length_le

theorem not_mem_of_walk {m n z : Id} {step : Id → Id → Prop} (hwalk : Walk step n xs z)
    (hnodup : (xs ++ [z]).Nodup) (hm : m ≠ z) (hn : n ≠ z) (hone : ∀ y, step m y → y = n) :
    m ∉ xs ++ [z] := by
  intro hmem
  obtain ⟨ys, zs, rfl, hys, hzs⟩ := hwalk.cut hmem
  cases hzs with
  | stay => exact hm rfl
  | @go _ _ _ zs head tail =>
    -- the walk comes to its start once more after `m`
    rw [hone _ head] at tail
    have hagain : n ∈ zs := (mem_append.1 tail.start_mem).resolve_right (by simpa using hn)
    have hparts : (ys ++ [m] ++ zs).Nodup := by
      rw [← append_cons]
      exact hnodup.of_append_left
    exact disjoint_of_nodup_append hparts hys.start_mem hagain

/-- Every node is run on to from a start. -/
theorem exists_start_of_walk (h : c.Threaded) (k : Nat) {n : Id}
    (hwalk : Walk (c.Arrow fun _ => true) n xs c.exit.id) (hnodup : (xs ++ [c.exit.id]).Nodup)
    (hn : n ∈ c.nodeIds) (hentry : n ≠ c.entry.id) (hexit : n ≠ c.exit.id)
    (hroom : c.nodeIds.length < xs.length + k) :
    ∃ l ∈ c.starts, Relation.ReflTransGen c.Onward l n := by
  induction k generalizing n xs with
  | zero => exact absurd (h.length_le_of_walk hwalk hnodup) (by omega)
  | succ k ih =>
    by_cases hstarts : n ∈ c.starts
    · exact ⟨n, hstarts, .refl⟩
    · obtain ⟨e, hin, hout, hstraight, hsrc⟩ := h.exists_before hn hentry hexit hstarts
      obtain ⟨hedge, hdst⟩ := h.coherent.mem_edgesInto.1 (hin ▸ mem_singleton_self e)
      have hne : e.src ≠ c.exit.id := by
        intro heq
        rw [heq, h.last] at hout
        cases hout
      have hone : ∀ y, c.Arrow (fun _ => true) e.src y → y = n := by
        intro y hy
        obtain ⟨f, hf, -, hfsrc, rfl⟩ := hy
        have hfout := h.coherent.mem_edgesOutOf.2 ⟨hf, hfsrc⟩
        rw [hout, mem_singleton] at hfout
        rw [hfout, hdst]
      have hlonger : Walk (c.Arrow fun _ => true) e.src (e.src :: xs) c.exit.id :=
        .go ⟨e, hedge, rfl, rfl, hdst⟩ hwalk
      have hnew : e.src ∉ xs ++ [c.exit.id] := not_mem_of_walk hwalk hnodup hne hexit hone
      have hroom' : c.nodeIds.length < (e.src :: xs).length + k := by
        rw [length_cons]
        omega
      obtain ⟨l, hl, hrun⟩ := ih hlonger (nodup_cons.2 ⟨hnew, hnodup⟩)
        (h.coherent.src_mem e hedge) hsrc hne hroom'
      have honward : c.Onward e.src n := ⟨hdst ▸ follower_eq hout hstraight, hstarts, hexit⟩
      exact ⟨l, hl, hrun.tail honward⟩

/-- **Every node but entry and exit is in the run of a leader.** -/
theorem exists_start (h : c.Threaded) {n : Id} (hn : n ∈ c.nodeIds) (hentry : n ≠ c.entry.id)
    (hexit : n ≠ c.exit.id) : ∃ l ∈ c.starts, Relation.ReflTransGen c.Onward l n := by
  obtain ⟨xs, hwalk⟩ := Walk.exists_of_reflTransGen (h.leadsOut n hn)
  obtain ⟨ys, hsimple, hnodup, -⟩ := hwalk.exists_simple
  exact h.exists_start_of_walk (c.nodeIds.length + 1) hsimple hnodup hn hentry hexit (by omega)

end Threaded

/-! ## What the partition finds -/

variable {c : Cfg}

/-- The run from a node: it goes on within the block, to nodes that are not taken, and unless it is
cut short it goes as far as it can. -/
structure RunsOn (c : Cfg) (fuel : Nat) (last : Id) (taken rest : List Id) : Prop where
  chain : (last :: rest).IsChain c.Onward
  nodup : rest.Nodup
  free : ∀ n ∈ rest, n ∉ taken
  behind : ∀ n ∈ rest, ∃ m, c.Onward m n
  far : rest.length < fuel → ∀ a ∈ last :: rest, ∀ b, c.Onward a b → b ∈ last :: rest

variable {last n : Id} {taken rest : List Id}

theorem runsOn_nil {fuel : Nat} (taken : List Id) (hstop : 0 < fuel → ∀ b, ¬ c.Onward last b) :
    c.RunsOn fuel last taken [] where
  chain := isChain_singleton _
  nodup := nodup_nil
  free := by simp
  behind := by simp
  far := by
    intro hpos a ha b hab
    rw [mem_singleton.1 ha] at hab
    exact absurd hab (hstop hpos b)

theorem RunsOn.cons {fuel : Nat} (h : c.RunsOn fuel n (n :: taken) rest) (hnext : c.Onward last n)
    (hfree : n ∉ taken) : c.RunsOn (fuel + 1) last taken (n :: rest) where
  chain := isChain_cons_cons.2 ⟨hnext, h.chain⟩
  nodup := nodup_cons.2 ⟨fun hn => h.free n hn mem_cons_self, h.nodup⟩
  free := forall_mem_cons.2 ⟨hfree, fun k hk hmem => h.free k hk (mem_cons_of_mem _ hmem)⟩
  behind := forall_mem_cons.2 ⟨⟨last, hnext⟩, h.behind⟩
  far := by
    intro hlt a ha b hab
    rw [length_cons, Nat.add_lt_add_iff_right] at hlt
    rcases mem_cons.1 ha with rfl | ha
    · have heq : b = n := Option.some.inj (hab.1.symm.trans hnext.1)
      rw [heq]
      exact mem_cons_of_mem _ mem_cons_self
    · exact mem_cons_of_mem _ (h.far hlt a ha b hab)

theorem Threaded.runsOn_of_straightRun (h : c.Threaded) (fuel : Nat)
    (hrun : c.straightRun c.starts fuel taken (c.follower last) = .ok rest) :
    c.RunsOn fuel last taken rest := by
  induction fuel generalizing last taken rest with
  | zero =>
    cases hrun
    exact runsOn_nil taken fun hpos => absurd hpos (Nat.lt_irrefl 0)
  | succ fuel ih =>
    cases hnext : c.follower last with
    | none =>
      rw [hnext] at hrun
      cases hrun
      apply runsOn_nil
      intro _ b hab
      rw [Onward, hnext] at hab
      cases hab.1
    | some n =>
      rw [hnext, straightRun] at hrun
      split at hrun
      · rename_i hend
        cases hrun
        apply runsOn_nil
        intro _ b hab
        rw [Onward, hnext] at hab
        rw [Bool.or_eq_true, decide_eq_true_iff, decide_eq_true_iff, Option.some.inj hab.1] at hend
        exact absurd hend (not_or.2 hab.2)
      · rename_i hend
        rw [Bool.or_eq_true, decide_eq_true_iff, decide_eq_true_iff, not_or] at hend
        split at hrun
        · cases hrun
        · rename_i hfree
          rw [h.straightSuccessor_eq] at hrun
          obtain ⟨next, hok, hrest⟩ := Graph.ok_of_bind hrun
          obtain ⟨others, hothers, heq⟩ := Graph.ok_of_bind hrest
          cases hok
          cases heq
          exact (ih hothers).cons ⟨hnext, hend⟩ hfree

def inner (c : Cfg) : List Id :=
  c.nodeIds.filter fun n => n ≠ c.entry.id && n ≠ c.exit.id

theorem mem_inner : n ∈ c.inner ↔ n ∈ c.nodeIds ∧ n ≠ c.entry.id ∧ n ≠ c.exit.id := by
  simp [inner]

/-- A block that goes straight on from its leader as far as it can. -/
structure Run (c : Cfg) (b : Block) : Prop where
  leads : b.leader ∈ c.starts
  head : b.nodes.head? = some b.leader
  chain : b.nodes.IsChain c.Onward
  inner : ∀ n ∈ b.nodes, n ∈ c.inner
  far : ∀ a ∈ b.nodes, ∀ n, c.Onward a n → n ∈ b.nodes

theorem Run.mem_of_reaches {b : Block} (h : c.Run b)
    (hreach : Relation.ReflTransGen c.Onward b.leader n) : n ∈ b.nodes := by
  induction hreach with
  | refl => exact mem_of_head? h.head
  | tail _ hstep ih => exact h.far _ ih _ hstep

theorem RunsOn.run (h : c.Threaded) {number : Nat} {l : Id} (hl : l ∈ c.starts)
    (hrun : c.RunsOn (c.nodes.length + 1) l taken rest) : c.Run ⟨number, l, l :: rest⟩ := by
  have hinner : ∀ n ∈ rest, n ∈ c.inner := by
    intro n hn
    obtain ⟨m, hm⟩ := hrun.behind n hn
    have hmem := h.mem_of_onward hm
    exact mem_inner.2 ⟨hmem.1, hmem.2, hm.2.2⟩
  have hshort : rest.length < c.nodes.length + 1 := by
    have hsub : rest ⊆ c.nodeIds := fun n hn => (mem_inner.1 (hinner n hn)).1
    have hle := (subperm_of_subset hrun.nodup hsub).length_le
    rw [Graph.nodeIds, length_map] at hle
    omega
  exact ⟨hl, rfl, hrun.chain, forall_mem_cons.2 ⟨mem_inner.2 (mem_starts.1 hl).1, hinner⟩, hrun.far hshort⟩

theorem Threaded.blocksFrom_spec (h : c.Threaded) {ls : List Id} {number : Nat} {bs : List Block}
    (hls : ∀ l ∈ ls, l ∈ c.starts) (hblocks : c.blocksFrom c.starts number taken ls = .ok bs) :
    bs.map (·.leader) = ls ∧ (∀ b ∈ bs, c.Run b) ∧
      (bs.flatMap (·.nodes)).Nodup ∧ ∀ n ∈ bs.flatMap (·.nodes), n ∉ taken := by
  induction ls generalizing taken number bs with
  | nil =>
    cases hblocks
    simp
  | cons l ls ih =>
    rw [forall_mem_cons] at hls
    rw [blocksFrom, h.straightSuccessor_eq] at hblocks
    split at hblocks
    · cases hblocks
    · rename_i hfree
      obtain ⟨next, hnext, hblocks⟩ := Graph.ok_of_bind hblocks
      obtain ⟨rest, hrest, hblocks⟩ := Graph.ok_of_bind hblocks
      obtain ⟨others, hothers, heq⟩ := Graph.ok_of_bind hblocks
      cases hnext
      cases heq
      have hrun := h.runsOn_of_straightRun _ hrest
      obtain ⟨hleaders, hruns, hnodup, hnew⟩ := ih hls.2 hothers
      refine ⟨by simp [hleaders], forall_mem_cons.2 ⟨hrun.run h hls.1, hruns⟩, ?_, ?_⟩
      · rw [flatMap_cons, nodup_append']
        refine ⟨nodup_cons.2 ⟨fun hl => hrun.free l hl mem_cons_self, hrun.nodup⟩, hnodup, ?_⟩
        intro n hn hn'
        apply hnew n hn'
        rcases mem_cons.1 hn with rfl | hn
        · exact mem_append_right _ mem_cons_self
        · exact mem_append_left _ (mem_reverse.2 hn)
      · intro n hn
        rw [flatMap_cons, cons_append, mem_cons, mem_append] at hn
        rcases hn with rfl | hn | hn
        · exact hfree
        · exact fun hmem => hrun.free n hn (mem_cons_of_mem _ hmem)
        · exact fun hmem => hnew n hn (mem_append_right _ (mem_cons_of_mem _ hmem))

/-- What the basic blocks of a flow graph are. -/
structure Partitioned (c : Cfg) (bs : List Block) : Prop where
  /-- The blocks together are the nodes without entry and exit, each of them once. -/
  perm : (bs.flatMap (·.nodes)).Perm (c.nodeIds.filter fun n => n ≠ c.entry.id && n ≠ c.exit.id)
  /-- So each of these nodes is in one block. -/
  once : ∀ n ∈ c.nodeIds, n ≠ c.entry.id → n ≠ c.exit.id → ∃! b, b ∈ bs ∧ n ∈ b.nodes
  /-- A block begins with its leader. -/
  head : ∀ b ∈ bs, b.nodes.head? = some b.leader
  /-- Nodes that follow each other in a block are joined by an edge that has neither end in common with
  another one. -/
  joined : ∀ b ∈ bs, b.nodes.IsChain c.Joined
  /-- A block could not begin earlier: the one edge into its leader, unless it falls through or comes from
  the entry, is one of several that leave a node. -/
  maximal : ∀ b ∈ bs, ∀ e, c.edgesInto b.leader = [e] → e.isFallThrough = false →
    e.src ≠ c.entry.id → 1 < (c.edgesOutOf e.src).length

theorem Threaded.branch_of_start (h : c.Threaded) {l : Id} (hl : l ∈ c.starts) (hin : c.edgesInto l = [e])
    (hfall : e.isFallThrough = false) (hsrc : e.src ≠ c.entry.id) : 1 < (c.edgesOutOf e.src).length := by
  have hleads := (mem_starts.1 hl).2
  simp only [leads, Bool.or_eq_true, decide_eq_true_eq] at hleads
  rcases hleads with (hfirst | hjoin) | hall | hbranch
  · obtain ⟨f, hf, hfsrc, hfdst⟩ := h.exists_edge hfirst
    have hmem := h.coherent.mem_edgesInto.2 ⟨hf, hfdst⟩
    rw [hin, mem_singleton] at hmem
    exact absurd (hmem ▸ hfsrc) hsrc
  · have hlt := of_decide_eq_true hjoin
    rw [Graph.inDegree, hin] at hlt
    exact absurd hlt (by simp)
  · rw [hin, all_cons, hfall] at hall
    cases hall
  · obtain ⟨m, hm, hmbranch⟩ := any_eq_true.1 hbranch
    have hpred : c.predecessors l = [e.src] := by
      rw [Graph.predecessors, hin]
      rfl
    rw [hpred] at hm
    have heq := mem_singleton.1 (mem_filter.1 hm).1
    exact of_decide_eq_true (heq ▸ hmbranch)

theorem existsUnique_block {bs : List Block} (hnodup : (bs.flatMap (·.nodes)).Nodup)
    (hn : n ∈ bs.flatMap (·.nodes)) : ∃! b, b ∈ bs ∧ n ∈ b.nodes := by
  obtain ⟨b, hb, hmem⟩ := mem_flatMap.1 hn
  have hapart := (nodup_flatMap.1 hnodup).2
  have : Std.Symm (Function.onFun List.Disjoint Block.nodes) := ⟨fun _ _ h => disjoint_comm.1 h⟩
  refine ⟨b, ⟨hb, hmem⟩, fun b' hb' => ?_⟩
  by_contra hne
  exact hapart.forall hb'.1 hb hne hb'.2 hmem

/-- **A threaded graph is partitioned by its basic blocks.** -/
theorem Threaded.partitioned (h : c.Threaded) : ∃ bs, c.partition = .ok bs ∧ c.Partitioned bs := by
  obtain ⟨bs, hpartition, -⟩ := h.partition_ok
  have hblocks := hpartition
  rw [partition, h.leaders_eq] at hblocks
  obtain ⟨hleaders, hruns, hnodup, -⟩ := h.blocksFrom_spec (fun l hl => hl) hblocks
  have hcovered : ∀ n ∈ c.inner, n ∈ bs.flatMap (·.nodes) := by
    intro n hn
    obtain ⟨hmem, hentry, hexit⟩ := mem_inner.1 hn
    obtain ⟨l, hl, hreach⟩ := h.exists_start hmem hentry hexit
    rw [← hleaders] at hl
    obtain ⟨b, hb, rfl⟩ := mem_map.1 hl
    exact mem_flatMap.2 ⟨b, hb, (hruns b hb).mem_of_reaches hreach⟩
  have hinner : ∀ n ∈ bs.flatMap (·.nodes), n ∈ c.inner := by
    intro n hn
    obtain ⟨b, hb, hmem⟩ := mem_flatMap.1 hn
    exact (hruns b hb).inner n hmem
  refine ⟨bs, hpartition, ?_, ?_, ?_, ?_, ?_⟩
  · apply (perm_ext_iff_of_nodup hnodup (h.coherent.nodup_nodes.filter _)).2
    exact fun n => ⟨hinner n, hcovered n⟩
  · intro n hn hentry hexit
    exact existsUnique_block hnodup (hcovered n (mem_inner.2 ⟨hn, hentry, hexit⟩))
  · exact fun b hb => (hruns b hb).head
  · exact fun b hb => (hruns b hb).chain.imp fun _ _ hab => h.joined_of_onward hab
  · exact fun b hb _ hin hfall hsrc => h.branch_of_start (hruns b hb).leads hin hfall hsrc

/-! ## Units and their copies -/

/-- The flow graphs of methods and fields, the copies of these, their copies, and so on. -/
inductive Returned (context : Context) : Cfg → Prop where
  | built {σ : Type} {unit : UnitRef} {c : Cfg} {p q : σ × Trail}
      (hrun : ((ofUnit context unit).run p : Except Error Cfg × σ × Trail) = (.ok c, q)) : Returned context c
  | copied {σ : Type} {c c' : Cfg} {ids : Table Id Id} {p q : σ × Trail} (hc : Returned context c)
      (hrun : ((c.copy).run p : Except Error (Cfg × Table Id Id) × σ × Trail) = (.ok (c', ids), q)) :
      Returned context c'

theorem Returned.threaded {context : Context} (h : Returned context c) : c.Copyable ∧ c.Threaded := by
  induction h with
  | built hrun => exact (ends_iff_of_run hrun).1 (ends_ofUnit_threaded context _ _)
  | copied _ hrun ih => exact (ends_iff_of_run hrun).1 (ih.2.ends_copy ih.1 _)

/-- **Basic blocks partition every flow graph that is built or copied.** -/
theorem returned_partitioned (context : Context) (h : Returned context c) :
    ∃ bs, c.partition = .ok bs ∧ c.Partitioned bs :=
  h.threaded.2.partitioned

/-- The copy of a loop that runs a switch falls into blocks. -/
theorem draining_partitioned : ∃ c, Returned { program := draining } c ∧ ∃ bs, c.partition = .ok bs ∧
      bs.map (·.nodes) = [[30], [31], [32], [33], [34], [35], [36], [37], [38, 39]] ∧ c.Partitioned bs := by
  obtain ⟨c, q, hbuilt, hcopy⟩ := (by decide +kernel :
    Returns (ofUnit { program := draining } (.method ⟨0⟩)) ((), { next := 1 }) fun c q =>
      Returns c.copy q fun r _ => r.1.partition.toOption.map (·.map Block.nodes) =
        some [[30], [31], [32], [33], [34], [35], [36], [37], [38, 39]]).exists_run
  obtain ⟨⟨c', ids⟩, q', hcopied, hnodes⟩ := hcopy.exists_run
  have hreturned : Returned { program := draining } c' := .copied (.built hbuilt) hcopied
  obtain ⟨bs, hpartition, hpartitioned⟩ := returned_partitioned { program := draining } hreturned
  refine ⟨c', hreturned, bs, hpartition, ?_, hpartitioned⟩
  rw [hpartition] at hnodes
  exact Option.some.inj hnodes

end Cfg

end ProgramDependence
