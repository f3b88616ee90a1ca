import ProgramDependence.Flow.Block
import ProgramDependence.Proofs.RenamedControl

/-!
# Basic blocks

Where all edges are control flow and none leads back to the entry, a node that starts no block has
one edge into it.  So no two blocks run into each other, and the blocks can always be told
(`Orderly.partition_ok`). Under new ids that keep their order the blocks are the same
(`Renamed.partition_eq`).
-/

namespace ProgramDependence

open List Graph

namespace Cfg

/-- A flow graph that falls into basic blocks. -/
structure Orderly (c : Cfg) : Prop where
  coherent : c.toGraph.Coherent
  flow : ∀ e ∈ c.edges, e.isFlow = true
  start : ∀ e ∈ c.edges, e.dst ≠ c.entry.id

/-! ## Leaders -/

def follower (c : Cfg) (n : Id) : Option Id :=
  ((c.edgesOutOf n).find? (·.isStraight)).map (·.dst)

def leads (c : Cfg) (n : Id) : Bool :=
  c.follower c.entry.id = some n || c.isJoin n || ((c.edgesInto n).all (·.isFallThrough) ||
    ((c.predecessors n).filter (· ≠ c.entry.id)).any c.isBranch)

def starts (c : Cfg) : List Id :=
  ((sortBy id c.nodeIds).filter fun n => n ≠ c.entry.id && n ≠ c.exit.id).filter c.leads

theorem firstStraight_eq {es : List Edge} (h : ∀ e ∈ es, e.isFlow = true) :
    firstStraight es = .ok (es.find? (·.isStraight)) := by
  induction es with
  | nil => rfl
  | cons e es ih =>
    rw [forall_mem_cons] at h
    rw [firstStraight, find?_cons, h.1]
    cases e.isStraight with
    | true => rfl
    | false => exact ih h.2

namespace Orderly

variable {c : Cfg}

variable (h : c.Orderly)
include h

theorem straightSuccessor_eq (n : Id) : c.straightSuccessor n = .ok (c.follower n) := by
  rw [straightSuccessor, firstStraight_eq]
  · rfl
  · intro e he
    exact h.flow e (h.coherent.mem_edgesOutOf.1 he).1

theorem exists_edge {m n : Id} (hm : c.follower m = some n) : ∃ e ∈ c.edges, e.src = m ∧ e.dst = n := by
  obtain ⟨e, he, hdst⟩ := Option.map_eq_some_iff.1 hm
  obtain ⟨hmem, hsrc⟩ := h.coherent.mem_edgesOutOf.1 (mem_of_find?_eq_some he)
  exact ⟨e, hmem, hsrc, hdst⟩

theorem isLeader_eq (n : Id) : c.isLeader (c.follower c.entry.id) n = .ok (c.leads n) := by
  have hflow : (c.edgesInto n).all (·.isFlow) = true := by
    rw [all_eq_true]
    intro e he
    exact h.flow e (h.coherent.mem_edgesInto.1 he).1
  rw [isLeader, leads, hflow]
  by_cases hfirst : (decide (c.follower c.entry.id = some n) || c.isJoin n) = true
  · rw [if_pos hfirst, hfirst, Bool.true_or]
  · rw [Bool.eq_false_iff.2 hfirst]
    rfl

theorem leadersAmong_eq (ns : List Id) :
    c.leadersAmong (c.follower c.entry.id) ns = .ok (ns.filter c.leads) := by
  induction ns with
  | nil => rfl
  | cons n ns ih =>
    rw [leadersAmong, h.isLeader_eq, ih, filter_cons]
    cases c.leads n with
    | true => rfl
    | false => rfl

theorem leaders_eq : c.leaders = .ok c.starts := by
  rw [leaders, h.straightSuccessor_eq]
  exact h.leadersAmong_eq _

end Orderly

variable {c : Cfg}

theorem mem_starts {n : Id} : n ∈ c.starts ↔ (n ∈ c.nodeIds ∧ n ≠ c.entry.id ∧ n ≠ c.exit.id) ∧
    c.leads n = true := by
  rw [starts, mem_filter, mem_filter, sortBy, (perm_sortWith _ _).mem_iff]
  simp

theorem Orderly.nodup_starts (h : c.Orderly) : c.starts.Nodup := by
  have hnodup : (sortBy id c.nodeIds).Nodup := (perm_sortWith _ _).nodup_iff.2 h.coherent.nodup_nodes
  exact (hnodup.filter _).filter _

/-! ## Runs -/

/-- No two nodes run on to one that starts no block. -/
theorem Orderly.follower_inj (h : c.Orderly) {m m' n : Id} (hn : n ∉ c.starts) (hexit : n ≠ c.exit.id)
    (hm : c.follower m = some n) (hm' : c.follower m' = some n) : m = m' := by
  obtain ⟨e, he, hsrc, hdst⟩ := h.exists_edge hm
  obtain ⟨e', he', hsrc', hdst'⟩ := h.exists_edge hm'
  have hmem : n ∈ c.nodeIds := hdst ▸ h.coherent.dst_mem e he
  have hentry : n ≠ c.entry.id := hdst ▸ h.start e he
  have hjoin : c.isJoin n ≠ true := by
    intro hjoin
    apply hn
    rw [mem_starts, leads, hjoin, Bool.or_true]
    exact ⟨⟨hmem, hentry, hexit⟩, rfl⟩
  have hin : e ∈ c.edgesInto n := h.coherent.mem_edgesInto.2 ⟨he, hdst⟩
  have hin' : e' ∈ c.edgesInto n := h.coherent.mem_edgesInto.2 ⟨he', hdst'⟩
  have hone : (c.edgesInto n).length = 1 := by
    have hle : ¬ 1 < (c.edgesInto n).length := mt decide_eq_true hjoin
    have hpos : 0 < (c.edgesInto n).length := length_pos_of_mem hin
    omega
  obtain ⟨x, hx⟩ := length_eq_one_iff.1 hone
  rw [hx, mem_singleton] at hin hin'
  rw [← hsrc, ← hsrc', hin, hin']

/-- The nodes that have a block already: each is there once and starts its block or comes after
another one. -/
structure Strung (c : Cfg) (taken : List Id) : Prop where
  nodup : taken.Nodup
  mem : ∀ n ∈ taken, n ∈ c.nodeIds
  behind : ∀ n ∈ taken, n ∉ c.starts → ∃ m ∈ taken, c.follower m = some n

theorem strung_cons {last : Id} {taken : List Id} (hnodup : (last :: taken).Nodup)
    (hmem : ∀ n ∈ last :: taken, n ∈ c.nodeIds)
    (hbehind : ∀ n ∈ last :: taken, n ∉ c.starts → ∃ m ∈ taken, c.follower m = some n) :
    c.Strung (last :: taken) := by
  refine ⟨hnodup, hmem, fun n hn hstarts => ?_⟩
  obtain ⟨m, hm, hfollows⟩ := hbehind n hn hstarts
  exact ⟨m, mem_cons_of_mem _ hm, hfollows⟩

/-- A run is read to its end. -/
theorem Orderly.straightRun_ok (h : c.Orderly) (fuel : Nat) {last : Id} {taken : List Id}
    (hnodup : (last :: taken).Nodup) (hmem : ∀ n ∈ last :: taken, n ∈ c.nodeIds)
    (hbehind : ∀ n ∈ last :: taken, n ∉ c.starts → ∃ m ∈ taken, c.follower m = some n) :
    ∃ rest, c.straightRun c.starts fuel (last :: taken) (c.follower last) = .ok rest ∧
      c.Strung (rest.reverse ++ last :: taken) ∧ ∀ n ∈ rest, n ∉ c.starts := by
  have hstop : ∀ n ∈ ([] : List Id), n ∉ c.starts := fun n hn => absurd hn not_mem_nil
  induction fuel generalizing last taken with
  | zero => exact ⟨[], rfl, strung_cons hnodup hmem hbehind, hstop⟩
  | succ fuel ih =>
    have hdone := strung_cons hnodup hmem hbehind
    cases hnext : c.follower last with
    | none => exact ⟨[], rfl, hdone, hstop⟩
    | some n =>
      rw [straightRun]
      by_cases hend : (decide (n ∈ c.starts) || decide (n = c.exit.id)) = true
      · rw [if_pos hend]
        exact ⟨[], rfl, hdone, hstop⟩
      · rw [if_neg hend]
        rw [Bool.or_eq_true, decide_eq_true_iff, decide_eq_true_iff, not_or] at hend
        obtain ⟨hstarts, hexit⟩ := hend
        have hfree : n ∉ last :: taken := by
          intro hn
          obtain ⟨m, hm, hfollows⟩ := hbehind n hn hstarts
          have heq : m = last := h.follower_inj hstarts hexit hfollows hnext
          exact (nodup_cons.1 hnodup).1 (heq ▸ hm)
        have hn : n ∈ c.nodeIds := by
          obtain ⟨e, he, -, hdst⟩ := h.exists_edge hnext
          exact hdst ▸ h.coherent.dst_mem e he
        have hbehind' : ∀ k ∈ n :: last :: taken, k ∉ c.starts →
          ∃ m ∈ last :: taken, c.follower m = some k := by
          intro k hk hleads
          rcases mem_cons.1 hk with heq | hk
          · exact ⟨last, mem_cons_self, heq ▸ hnext⟩
          · exact hdone.behind k hk hleads
        have hnodup' : (n :: last :: taken).Nodup := nodup_cons.2 ⟨hfree, hnodup⟩
        have hmem' : ∀ k ∈ n :: last :: taken, k ∈ c.nodeIds := forall_mem_cons.2 ⟨hn, hmem⟩
        obtain ⟨rest, hrun, hstrung, hrest⟩ := ih hnodup' hmem' hbehind'
        refine ⟨n :: rest, ?_, ?_, forall_mem_cons.2 ⟨hstarts, hrest⟩⟩
        · rw [if_neg hfree, h.straightSuccessor_eq]
          exact congrArg (fun x => x >>= fun rest => Except.ok (n :: rest)) hrun
        · rwa [reverse_cons, append_assoc]

theorem Orderly.blocksFrom_ok (h : c.Orderly) (number : Nat) {taken ls : List Id} (htaken : c.Strung taken)
    (hls : ls.Nodup) (hstarts : ∀ l ∈ ls, l ∈ c.starts) (hfree : ∀ l ∈ ls, l ∉ taken) :
    ∃ bs, c.blocksFrom c.starts number taken ls = .ok bs ∧
      ∀ b ∈ bs, b.leader ∈ c.nodeIds ∧ ∀ n ∈ b.nodes, n ∈ c.nodeIds := by
  induction ls generalizing number taken with
  | nil => exact ⟨[], rfl, fun b hb => absurd hb not_mem_nil⟩
  | cons l ls ih =>
    rw [forall_mem_cons] at hstarts hfree
    rw [nodup_cons] at hls
    have hmem : ∀ n ∈ l :: taken, n ∈ c.nodeIds :=
      forall_mem_cons.2 ⟨(mem_starts.1 hstarts.1).1.1, htaken.mem⟩
    have hbehind : ∀ n ∈ l :: taken, n ∉ c.starts → ∃ m ∈ taken, c.follower m = some n := by
      intro n hn hleads
      rcases mem_cons.1 hn with heq | hn
      · exact absurd (heq ▸ hstarts.1) hleads
      · exact htaken.behind n hn hleads
    obtain ⟨rest, hrun, hstrung, hrest⟩ :=
      h.straightRun_ok (c.nodes.length + 1) (nodup_cons.2 ⟨hfree.1, htaken.nodup⟩) hmem hbehind
    have hleft : ∀ k ∈ ls, k ∉ rest.reverse ++ l :: taken := by
      intro k hk hin
      rcases mem_append.1 hin with hin | hin
      · exact hrest k (mem_reverse.1 hin) (hstarts.2 k hk)
      · rcases mem_cons.1 hin with heq | hin
        · exact hls.1 (heq ▸ hk)
        · exact hfree.2 k hk hin
    obtain ⟨bs, hblocks, hbs⟩ := ih (number + 1) hstrung hls.2 hstarts.2 hleft
    refine ⟨⟨number, l, l :: rest⟩ :: bs, ?_, forall_mem_cons.2 ⟨⟨hmem l mem_cons_self, ?_⟩, hbs⟩⟩
    · rw [blocksFrom, if_neg hfree.1, h.straightSuccessor_eq]
      change (c.straightRun c.starts (c.nodes.length + 1) (l :: taken) (c.follower l) >>= fun rest =>
        c.blocksFrom c.starts (number + 1) (rest.reverse ++ l :: taken) ls >>= fun others =>
          Except.ok (⟨number, l, l :: rest⟩ :: others)) = _
      rw [hrun]
      exact congrArg (fun x => x >>= fun others => Except.ok (⟨number, l, l :: rest⟩ :: others)) hblocks
    · intro n hn
      apply hstrung.mem
      rcases mem_cons.1 hn with heq | hn
      · exact heq ▸ mem_append_right _ mem_cons_self
      · exact mem_append_left _ (mem_reverse.2 hn)

/-- **The basic blocks of a flow graph can be told, and consist of its nodes.** -/
theorem Orderly.partition_ok (h : c.Orderly) :
    ∃ bs, c.partition = .ok bs ∧ ∀ b ∈ bs, b.leader ∈ c.nodeIds ∧ ∀ n ∈ b.nodes, n ∈ c.nodeIds := by
  have hnone : c.Strung [] :=
    ⟨nodup_nil, fun n hn => absurd hn not_mem_nil, fun n hn => absurd hn not_mem_nil⟩
  obtain ⟨bs, hblocks, hbs⟩ := h.blocksFrom_ok 1 hnone h.nodup_starts (fun l hl => hl) fun l _ => not_mem_nil
  refine ⟨bs, ?_, hbs⟩
  rw [partition, h.leaders_eq]
  exact hblocks

/-! ## New ids -/

theorem distinct_map (ρ : Renaming) (ids : List Id) :
    distinct (ids.map ρ.node) = (distinct ids).map ρ.node := by
  induction ids with
  | nil => rfl
  | cons i ids ih =>
    rw [map_cons, distinct, distinct, ih, map_cons, filter_ne_map ρ.node_inj]

namespace Renamed

variable {ρ : Renaming} {c' : Cfg}

variable (h : Renamed ρ c c')
include h

theorem follower_eq (n : Id) : c'.follower (ρ.node n) = (c.follower n).map ρ.node := by
  have hstraight : Edge.isStraight ∘ Edge.rename ρ = Edge.isStraight := funext (Edge.rename_isStraight ρ)
  rw [follower, follower, h.edgesOutOf_eq, find?_map]
  rw [show (fun e : Edge => e.isStraight) ∘ Edge.rename ρ = Edge.isStraight from hstraight, Option.map_map,
    Option.map_map]
  rfl

theorem leads_eq (n : Id) : c'.leads (ρ.node n) = c.leads n := by
  have hfirst : c'.follower c'.entry.id = some (ρ.node n) ↔ c.follower c.entry.id = some n := by
    rw [h.entry_id, h.follower_eq]
    simp
  have hjoin : c'.isJoin (ρ.node n) = c.isJoin n := by
    rw [isJoin, isJoin, inDegree, inDegree, h.edgesInto_eq, length_map]
  have hfall : (c'.edgesInto (ρ.node n)).all (·.isFallThrough) = (c.edgesInto n).all (·.isFallThrough) := by
    rw [h.edgesInto_eq, all_map]
    congr 1
    funext e
    exact e.rename_isFallThrough ρ
  have hbefore : c'.predecessors (ρ.node n) = (c.predecessors n).map ρ.node := by
    rw [predecessors, predecessors, h.edgesInto_eq, ← distinct_map, map_map, map_map]
    rfl
  have hbranch : ((c'.predecessors (ρ.node n)).filter (· ≠ c'.entry.id)).any c'.isBranch =
      ((c.predecessors n).filter (· ≠ c.entry.id)).any c.isBranch := by
    rw [hbefore, h.entry_id, filter_ne_map ρ.node_inj, any_map]
    congr 1
    funext m
    exact h.isBranch_eq m
  simp only [leads, hfirst, hjoin, hfall, hbranch]

theorem starts_eq : c'.starts = c.starts.map ρ.node := by
  have hsorted : sortBy id (c.nodeIds.map ρ.node) = (sortBy id c.nodeIds).map ρ.node := by
    apply sortBy_map
    intro i j
    exact ρ.node_le_iff
  have hinner : ∀ ids : List Id, ((ids.map ρ.node).filter fun n => n ≠ c'.entry.id &&
      n ≠ c'.exit.id) = (ids.filter fun n => n ≠ c.entry.id && n ≠ c.exit.id).map ρ.node := by
    apply filter_map_eq
    intro n
    simp only [h.entry_id, h.exit_id, ne_eq, ρ.node_inj]
  rw [starts, starts, h.nodeIds_eq, hsorted, hinner, filter_map_eq h.leads_eq]

/-- A run has the new ids. -/
theorem straightRun_eq (hc : c.Orderly) (hc' : c'.Orderly) (leaders : List Id) (fuel : Nat) (taken : List Id)
    (n : Option Id) {rest : List Id} (hrun : c.straightRun leaders fuel taken n = .ok rest) :
    c'.straightRun (leaders.map ρ.node) fuel (taken.map ρ.node) (n.map ρ.node) = .ok (rest.map ρ.node) := by
  induction fuel generalizing taken n rest with
  | zero =>
    cases hrun
    rfl
  | succ fuel ih =>
    cases n with
    | none =>
      cases hrun
      rfl
    | some n =>
      have hin : ∀ ids : List Id, ρ.node n ∈ ids.map ρ.node ↔ n ∈ ids := by
        intro ids
        exact Search.mem_map_iff ρ.node_inj
      rw [straightRun, hc.straightSuccessor_eq] at hrun
      rw [Option.map_some, straightRun, hc'.straightSuccessor_eq, h.exit_id]
      simp only [hin, ρ.node_inj]
      split at hrun
      · rename_i hend
        cases hrun
        rw [if_pos hend]
        rfl
      · rename_i hend
        split at hrun
        · cases hrun
        · rename_i hfree
          rw [if_neg hend, if_neg hfree]
          obtain ⟨next, hnext, hrun⟩ := Graph.ok_of_bind hrun
          obtain ⟨others, hothers, heq⟩ := Graph.ok_of_bind hrun
          cases hnext
          cases heq
          have hrest := ih (n :: taken) (c.follower n) hothers
          rw [← h.follower_eq] at hrest
          exact congrArg (fun x => x >>= fun rest => Except.ok (ρ.node n :: rest)) hrest

theorem blocksFrom_eq (hc : c.Orderly) (hc' : c'.Orderly) (leaders : List Id) (number : Nat)
    (taken ls : List Id) {bs : List Block} (hblocks : c.blocksFrom leaders number taken ls = .ok bs) :
    c'.blocksFrom (leaders.map ρ.node) number (taken.map ρ.node) (ls.map ρ.node) =
    .ok (bs.map (Block.rename ρ)) := by
  induction ls generalizing number taken bs with
  | nil =>
    cases hblocks
    rfl
  | cons l ls ih =>
    have hin : ρ.node l ∈ taken.map ρ.node ↔ l ∈ taken := Search.mem_map_iff ρ.node_inj
    have hlength : c'.nodes.length = c.nodes.length := by rw [h.nodes_eq, length_map]
    rw [blocksFrom, hc.straightSuccessor_eq] at hblocks
    rw [map_cons, blocksFrom, hc'.straightSuccessor_eq, h.follower_eq, hlength]
    split at hblocks
    · cases hblocks
    · rename_i hfree
      obtain ⟨next, hnext, hblocks⟩ := Graph.ok_of_bind hblocks
      obtain ⟨rest, hrun, hblocks⟩ := Graph.ok_of_bind hblocks
      obtain ⟨others, hothers, heq⟩ := Graph.ok_of_bind hblocks
      cases hnext
      cases heq
      have hrun' := h.straightRun_eq hc hc' leaders _ (l :: taken) _ hrun
      have hothers' := ih (number + 1) (rest.reverse ++ l :: taken) hothers
      rw [map_append, map_reverse] at hothers'
      rw [if_neg (mt hin.1 hfree)]
      change (c'.straightRun _ (c.nodes.length + 1) (ρ.node l :: taken.map ρ.node) _ >>= fun rest =>
        c'.blocksFrom _ (number + 1) (rest.reverse ++ ρ.node l :: taken.map ρ.node) (ls.map ρ.node) >>=
          fun others => Except.ok (⟨number, ρ.node l, ρ.node l :: rest⟩ :: others)) = _
      rw [map_cons] at hrun'
      rw [hrun']
      exact congrArg (fun x => x >>= fun others =>
        Except.ok (⟨number, ρ.node l, ρ.node l :: rest.map ρ.node⟩ :: others)) hothers'

/-- **The basic blocks of the renamed flow graph are those of the graph, renamed.** -/
theorem partition_eq (hc : c.Orderly) (hc' : c'.Orderly) {bs : List Block}
    (hblocks : c.partition = .ok bs) : c'.partition = .ok (bs.map (Block.rename ρ)) := by
  rw [partition, hc.leaders_eq] at hblocks
  rw [partition, hc'.leaders_eq, h.starts_eq]
  exact h.blocksFrom_eq hc hc' c.starts 1 [] c.starts hblocks

end Renamed

end Cfg

end ProgramDependence
