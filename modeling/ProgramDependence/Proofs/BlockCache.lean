import ProgramDependence.Flow.Block
import ProgramDependence.Proofs.Operations

/-!
# Remembered basic blocks

A flow graph remembers its basic blocks once they are computed, and forgets them when a control-flow
edge is added through it.  The operations of the kernel know nothing of blocks, so after one of them
the remembered blocks may be those of a graph that is no more.  What a query answers is the
partition of a *snapshot*: of the graph as it stood when the blocks were computed
(`answer_eq_fresh_snapshot`).  Along a run that changes the graph by control-flow edges only, this
is the partition of the graph as it is.
-/

namespace ProgramDependence

namespace Cfg

open Graph Tracked

/-! ## Requests -/

/-- What is asked of a flow graph: an operation of the kernel, which may take in one of `others`, a
new control-flow edge, or the basic blocks. -/
inductive Request where
  | kernel (operation : Operation) (others : Nat → Graph)
  | addFlow (src dst : Id) (sort : FlowSort) (loop : Option Id)
  | blocks

def forget (c : Cfg) : Cfg :=
  { c with blocks := none }

/-- The partition of the graph as it is, computed afresh. -/
def fresh (c : Cfg) : Except Error (List Block) :=
  c.forget.partition

/-- What a query for the basic blocks answers. -/
def answer (c : Cfg) : Except Error (List Block) :=
  Prod.snd <$> c.getBlocks

namespace Request

/-- The graph and the trail after a request, also after one that is refused. -/
def run : Request → Cfg × Trail → Cfg × Trail
  | kernel operation others, (c, t) =>
    ({ c with toGraph := (changeAll (operation.changes others) c.toGraph).1 }, t)
  | addFlow src dst sort loop, p => ((Cfg.addFlow src dst sort loop).run p).2
  | blocks, (c, t) => ((c.getBlocks.toOption.map Prod.fst).getD c, t)

/-- The snapshot after a request, where `last` is the one before.  An edge that is accepted discards
it, and a query that is answered takes one unless there is one. -/
def snapshot (p : Cfg × Trail) (last : Option Cfg) : Request → Option Cfg
  | kernel _ _ => last
  | addFlow src dst sort loop => if ((Cfg.addFlow src dst sort loop).run p).1.isOk then none else last
  | blocks => last.or (if p.1.fresh.isOk then some p.1 else none)

def isKernel : Request → Bool
  | kernel _ _ => true
  | _ => false

end Request

def runRequests : List Request → Cfg × Trail → Option Cfg → (Cfg × Trail) × Option Cfg
  | [], p, last => (p, last)
  | r :: rs, p, last => runRequests rs (r.run p) (r.snapshot p last)

/-! ## What one request does -/

variable {c : Cfg} {p : Cfg × Trail} {last : Option Cfg}

/-- The remembered blocks are the partition of the snapshot. -/
def Remembers (c : Cfg) (last : Option Cfg) : Prop :=
  c.blocks.map Except.ok = last.map fresh

theorem getBlocks_of_none (h : c.blocks = none) :
    c.getBlocks = c.fresh.map fun bs => ({ c with blocks := some bs }, bs) := by
  obtain ⟨g, _, _, _, _, _, blocks⟩ := c
  cases h
  rfl

theorem ends_addFlow (src dst : Id) (sort : FlowSort) (loop : Option Id) :
    Ends (addFlow src dst sort loop) p (fun _ q => q.1.blocks = none) fun _ q => q.1 = p.1 := by
  unfold addFlow
  simp only [ends_bind, ends_freshId, ends_attempt]
  cases p.1.toGraph.addEdge ⟨p.2.next, src, dst, .flow sort loop⟩ with
  | ok _ => rfl
  | error _ => trivial

namespace Remembers

/-- With a snapshot its partition is remembered, and without one nothing is. -/
theorem cases (h : Remembers c last) :
    (last = none ∧ c.blocks = none) ∨ ∃ k bs, last = some k ∧ k.fresh = .ok bs ∧ c.blocks = some bs := by
  unfold Remembers at h
  cases last with
  | none => exact .inl ⟨rfl, by simpa using h⟩
  | some k =>
    obtain ⟨bs, hblocks, hbs⟩ := Option.map_eq_some_iff.1 h
    exact .inr ⟨k, bs, rfl, hbs.symm, hblocks⟩

/-- A query answers with the partition of the snapshot, or of the graph itself if there is none. -/
theorem answer_eq (h : Remembers c last) : c.answer = (last.getD c).fresh := by
  rcases h.cases with ⟨rfl, hblocks⟩ | ⟨k, bs, rfl, hfresh, hblocks⟩
  · rw [answer, getBlocks_of_none hblocks, Option.getD_none]
    cases c.fresh <;> rfl
  · rw [answer, getBlocks, hblocks, Option.getD_some, hfresh]
    rfl

variable (h : Remembers p.1 last)

include h

/-- A request discards what is remembered, or leaves it alone, or computes it; only the kernel
leaves it alone and changes the graph. -/
theorem step (r : Request) : ((r.run p).1.blocks = none ∧ r.snapshot p last = none) ∨
      ((r.run p).1.blocks = p.1.blocks ∧ r.snapshot p last = last ∧
      (r.isKernel = false → (r.run p).1 = p.1)) ∨
      ∃ bs, p.1.fresh = .ok bs ∧ (r.run p).1 = { p.1 with blocks := some bs } ∧
      r.snapshot p last = some p.1 := by
  obtain ⟨c, t⟩ := p
  cases r with
  | kernel operation others => exact .inr (.inl ⟨rfl, rfl, nofun⟩)
  | addFlow src dst sort loop =>
    have hends := ends_addFlow (p := (c, t)) src dst sort loop
    rw [Request.run, Request.snapshot]
    rcases hrun : (Cfg.addFlow src dst sort loop).run (c, t) with ⟨e | a, q⟩
    · rw [ends_iff_of_error hrun] at hends
      exact .inr (.inl ⟨congrArg Cfg.blocks hends, rfl, fun _ => hends⟩)
    · rw [ends_iff_of_run hrun] at hends
      exact .inl ⟨hends, rfl⟩
  | blocks =>
    rw [Request.run, Request.snapshot]
    rcases h.cases with ⟨rfl, hblocks⟩ | ⟨k, bs, rfl, -, hblocks⟩
    · rw [getBlocks_of_none hblocks]
      cases c.fresh with
      | ok bs => exact .inr (.inr ⟨bs, rfl, rfl, rfl⟩)
      | error e => exact .inr (.inl ⟨rfl, rfl, fun _ => rfl⟩)
    · rw [getBlocks, hblocks]
      exact .inr (.inl ⟨hblocks, rfl, fun _ => rfl⟩)

theorem run (r : Request) : Remembers (r.run p).1 (r.snapshot p last) := by
  rcases h.step r with ⟨hblocks, hlast⟩ | ⟨hblocks, hlast, -⟩ | ⟨bs, hfresh, hrun, hlast⟩
  · rw [Remembers, hblocks, hlast]
    rfl
  · rwa [Remembers, hblocks, hlast]
  · rw [Remembers, hrun, hlast, Option.map_some, Option.map_some, hfresh]

/-- The snapshot keeps the partition of the graph as it is unless the kernel is asked. -/
theorem run_fresh (hfresh : ∀ k ∈ last, k.fresh = p.1.fresh) {r : Request}
    (hr : r.isKernel = false) : ∀ k ∈ r.snapshot p last, k.fresh = (r.run p).1.fresh := by
  rcases h.step r with ⟨-, hnone⟩ | ⟨-, hkept, hsame⟩ | ⟨bs, -, hrun, htaken⟩
  · simp [hnone]
  · rwa [hkept, hsame hr]
  · intro k hk
    rw [htaken] at hk
    cases hk
    rw [hrun]
    rfl

end Remembers

/-! ## Whole runs -/

theorem remembers_runRequests (rs : List Request) (h : Remembers p.1 last) :
    Remembers (runRequests rs p last).1.1 (runRequests rs p last).2 := by
  induction rs generalizing p last with
  | nil => exact h
  | cons r rs ih => exact ih (h.run r)

theorem fresh_runRequests (rs : List Request) (hrs : ∀ r ∈ rs, r.isKernel = false)
    (h : Remembers p.1 last) (hfresh : ∀ k ∈ last, k.fresh = p.1.fresh) :
    ∀ k ∈ (runRequests rs p last).2, k.fresh = (runRequests rs p last).1.1.fresh := by
  induction rs generalizing p last with
  | nil => exact hfresh
  | cons r rs ih =>
    rw [List.forall_mem_cons] at hrs
    exact ih hrs.2 (h.run r) (h.run_fresh hfresh hrs.1)

/-- **Whatever was asked of a flow graph before, a query answers with the partition of the
snapshot**: of the graph as it stood at the first query that was answered since the last accepted
control-flow edge, or as it is if there was none.  Errors are those of the graph as it is, and so
are all answers unless the kernel was asked. -/
theorem answer_eq_fresh_snapshot (c : Cfg) (t : Trail) (rs : List Request) :
    let q := runRequests rs (c.forget, t) none
    q.1.1.answer = (q.2.getD q.1.1).fresh ∧
      (∀ e, q.1.1.answer = .error e → q.1.1.fresh = .error e) ∧
      ((∀ r ∈ rs, r.isKernel = false) → q.1.1.answer = q.1.1.fresh) := by
  intro q
  have hstart : Remembers c.forget none := rfl
  have h : Remembers q.1.1 q.2 := remembers_runRequests rs hstart
  refine ⟨h.answer_eq, fun e he => ?_, fun hrs => ?_⟩
  · rcases h.cases with ⟨hlast, -⟩ | ⟨k, bs, hlast, hfresh, -⟩
    · rwa [h.answer_eq, hlast] at he
    · rw [h.answer_eq, hlast, Option.getD_some, hfresh] at he
      cases he
  · have hfresh : ∀ k ∈ q.2, k.fresh = q.1.1.fresh := fresh_runRequests rs hrs hstart (by simp)
    rw [h.answer_eq]
    cases hlast : q.2 with
    | none => rfl
    | some k => exact hfresh k hlast

/-- A node that is added after a query is in no block of the next one. -/
theorem addedNode_answer_stale :
    let ends := ofEnds 0 { id := 1, sort := .entry .method } { id := 2, sort := .exit .method } ""
    let added := Request.kernel (.addNode { id := 3, sort := .statement .empty }) fun _ => ends.toGraph
    let q := runRequests [.blocks, added] (ends, { next := 3 }) none
    q.1.1.answer = .ok [] ∧ q.1.1.fresh = .ok [⟨1, 3, [3]⟩] :=
  ⟨rfl, rfl⟩

end Cfg

end ProgramDependence
