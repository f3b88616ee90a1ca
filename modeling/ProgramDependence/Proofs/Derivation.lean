import ProgramDependence.Dependence.Pdg
import ProgramDependence.Proofs.Coherence
import ProgramDependence.Proofs.Tracked

/-!
# How a dependence graph is derived

The dependences of a flow graph are found first and drawn afterwards, as edges under fresh ids.  An
edge apart from its id is its `joint`.  The edges of a derived graph are, joint by joint and in
order, the control dependences of branches, calls and the entry, those of the nodes left to the
entry, and the data dependences (`ends_ofCfg`); the derivation fails only where an analysis breaks
off.
-/

namespace ProgramDependence

open List Findings Graph
variable {l : Link}

namespace Findings

variable {α β : Type}

@[simp] theorem fault_append (a b : Findings α) : (a ++ b).fault = none ↔ a.fault = none ∧
    b.fault = none := by
  change (a.andThen b).fault = none ↔ _
  unfold andThen
  split <;> rename_i h <;> simp [h]

theorem found_append {a b : Findings α} (h : a.fault = none) : (a ++ b).found = a.found ++ b.found := by
  change (a.andThen b).found = _
  simp [andThen, h]

@[simp] theorem fault_ofList (xs : List α) : (ofList xs).fault = none := rfl

@[simp] theorem found_ofList (xs : List α) : (ofList xs).found = xs := rfl

@[simp] theorem found_require (ok : Bool) : (require ok : Findings α).found = [] := by
  cases ok <;> rfl

@[simp] theorem fault_require (ok : Bool) : (require ok : Findings α).fault = none ↔ ok = true := by
  cases ok <;> simp [require, breakOff]

@[simp] theorem fault_select (f : List α → List α) (a : Findings α) : (a.select f).fault = a.fault := rfl

@[simp] theorem found_select (f : List α → List α) (a : Findings α) : (a.select f).found = f a.found := rfl

theorem fault_overAll (f : β → Findings α) (xs : List β) :
    (overAll f xs).fault = none ↔ ∀ x ∈ xs, (f x).fault = none := by
  induction xs with
  | nil => simp [overAll]
  | cons x xs ih => simp [overAll, ih]

theorem found_overAll {f : β → Findings α} {xs : List β} (h : ∀ x ∈ xs, (f x).fault = none) :
    (overAll f xs).found = xs.flatMap fun x => (f x).found := by
  induction xs with
  | nil => rfl
  | cons x xs ih =>
    rw [overAll, found_append (h x (by simp)), ih fun y hy => h y (mem_cons_of_mem _ hy), flatMap_cons]

theorem forall_found_append {P : α → Prop} {a b : Findings α} (ha : ∀ x ∈ a.found, P x)
    (hb : ∀ x ∈ b.found, P x) : ∀ x ∈ (a ++ b).found, P x := by
  change ∀ x ∈ (a.andThen b).found, P x
  unfold andThen
  split
  · exact ha
  · exact forall_mem_append.2 ⟨ha, hb⟩

theorem forall_found_overAll {P : α → Prop} {f : β → Findings α} {xs : List β}
    (h : ∀ x ∈ xs, ∀ y ∈ (f x).found, P y) : ∀ y ∈ (overAll f xs).found, P y := by
  induction xs with
  | nil => simp [overAll]
  | cons x xs ih =>
    rw [forall_mem_cons] at h
    exact forall_found_append h.1 (ih h.2)

theorem forall_found_require {P : α → Prop} (ok : Bool) : ∀ x ∈ (require ok : Findings α).found, P x := by
  simp

end Findings

def Edge.joint (e : Edge) : Id × Id × EdgeLabel :=
  (e.src, e.dst, e.label)

namespace Graph

/-- A graph that can take edges under the ids from `next` on. -/
structure Growing (g : Graph) (next : Id) : Prop where
  coherent : g.Coherent
  unfrozen : g.frozen = false
  below : ∀ e ∈ g.edges, e.id < next

/-- What a graph is apart from its nodes and edges. -/
def frame (g : Graph) : GraphKind × Bool × Nat :=
  (g.kind, g.frozen, g.serial)

/-- A dependence graph whose edges were drawn under the ids from `lo` on, one after the other. -/
structure InOrder (lo : Id) (p : Graph × Trail) : Prop where
  growing : p.1.Growing p.2.next
  ids_eq : p.1.edges.map (·.id) = (range p.1.edges.length).map fun k : Nat => lo + (k : Int)
  next_eq : p.2.next = lo + p.1.edges.length
  frame_eq : p.1.frame = (.dependence, false, 0)

/-- `g'` is `g` with further edges of the given joints. -/
structure Drawn (g : Graph) (joints : List (Id × Id × EdgeLabel)) (g' : Graph) : Prop where
  nodes_eq : g'.nodes = g.nodes
  joints_eq : g'.edges.map Edge.joint = g.edges.map Edge.joint ++ joints

theorem Drawn.nodeIds_eq {g g' : Graph} {joints : List (Id × Id × EdgeLabel)}
    (h : Drawn g joints g') : g'.nodeIds = g.nodeIds := by
  rw [nodeIds, nodeIds, h.nodes_eq]

namespace Growing

variable {g : Graph} {next : Id}

theorem not_mem (h : g.Growing next) : next ∉ g.edges.map (·.id) := by
  intro hmem
  obtain ⟨e, he, hid⟩ := mem_map.1 hmem
  exact Int.ne_of_lt (h.below e he) hid

theorem appendEdge (h : g.Growing next) {src dst : Id} (hsrc : src ∈ g.nodeIds) (hdst : dst ∈ g.nodeIds)
    (label : EdgeLabel) : (g.appendEdge ⟨next, src, dst, label⟩).Growing (next + 1) where
  coherent := h.coherent.appendEdge h.not_mem hsrc hdst
  unfrozen := h.unfrozen
  below := by
    intro e he
    rcases mem_append.1 he with he | he
    · exact Int.lt_trans (h.below e he) (Int.lt_succ next)
    · rw [mem_singleton.1 he]
      exact Int.lt_succ next

end Growing

theorem InOrder.appendEdge {lo : Id} {p : Graph × Trail} (h : InOrder lo p) {src dst : Id}
    (hsrc : src ∈ p.1.nodeIds) (hdst : dst ∈ p.1.nodeIds) (label : EdgeLabel) :
    InOrder lo (p.1.appendEdge ⟨p.2.next, src, dst, label⟩, { p.2 with next := p.2.next + 1 }) where
  growing := h.growing.appendEdge hsrc hdst label
  ids_eq := by
    simp only [Graph.appendEdge, map_append, map_cons, map_nil, length_append,
      length_singleton, range_succ, h.ids_eq, h.next_eq]
  next_eq := by
    simp only [Graph.appendEdge, length_append, length_singleton, h.next_eq, Int.natCast_add,
      Int.natCast_one, Int.add_assoc]
  frame_eq := h.frame_eq

def drawAll : List (Id × Id × EdgeLabel) → Tracked Graph Unit
  | [] => return ()
  | j :: js => do
      let id ← Tracked.freshId
      Tracked.attempt fun g => do
        let (g, _) ← g.addEdge ⟨id, j.1, j.2.1, j.2.2⟩
        return (g, ())
      drawAll js

section

open Tracked

variable {lo : Id} {p : Graph × Trail} (h : InOrder lo p)
include h

/-- Joints become edges in order, under the ids that follow. -/
theorem ends_drawAll (js : List (Id × Id × EdgeLabel))
    (hends : ∀ j ∈ js, j.1 ∈ p.1.nodeIds ∧ j.2.1 ∈ p.1.nodeIds) :
    Returns (drawAll js) p fun _ q => Drawn p.1 js q.1 ∧ InOrder lo q := by
  induction js generalizing p with
  | nil => exact ⟨⟨rfl, by simp⟩, h⟩
  | cons j js ih =>
    obtain ⟨⟨hsrc, hdst⟩, hends⟩ := forall_mem_cons.1 hends
    have hadd := addEdge_eq (e := ⟨p.2.next, j.1, j.2.1, j.2.2⟩) h.growing.unfrozen
      h.growing.not_mem hsrc hdst
    simp only [drawAll, ends_bind, ends_freshId, ends_attempt, hadd]
    refine (ih (h.appendEdge hsrc hdst j.2.2) hends).imp ?_
    rintro _ q ⟨hdrawn, hq⟩
    refine ⟨⟨hdrawn.nodes_eq, ?_⟩, hq⟩
    rw [hdrawn.joints_eq]
    simp [appendEdge, Edge.joint]

/-- What an analysis found is drawn even if the analysis broke off. -/
theorem ends_commit {α : Type} (findings : Findings α) {take : List α → Tracked Graph Unit}
    {joint : α → Id × Id × EdgeLabel} (htake : ∀ xs, take xs = drawAll (xs.map joint))
    (hends : ∀ x ∈ findings.found, (joint x).1 ∈ p.1.nodeIds ∧ (joint x).2.1 ∈ p.1.nodeIds) :
    Ends (findings.commit take) p
      (fun xs q => xs = findings.found ∧ findings.fault = none ∧ Drawn p.1 (findings.found.map joint) q.1 ∧
      InOrder lo q) (fun e q => findings.fault = some e ∧ InOrder lo q) := by
  simp only [commit, ends_bind, htake]
  refine (ends_drawAll h _ (forall_mem_map.2 hends)).always ?_
  rintro _ q ⟨hdrawn, hq⟩
  split
  next e hfault => exact ⟨hfault, hq⟩
  next hfault => exact ⟨rfl, hfault, hdrawn, hq⟩

end

end Graph

namespace ControlDependence

def Link.joint (l : Link) : Id × Id × EdgeLabel :=
  (l.src, l.dst, .dependence l.sort none none)

theorem addLinks_eq (ls : List Link) : addLinks ls = drawAll (ls.map Link.joint) := by
  induction ls with
  | nil => rfl
  | cons l ls ih => simp only [addLinks, drawAll, map_cons, ih, Link.joint]

variable {settings : Settings} {g : Graph}

theorem ends_mem_of_isKept (h : isKept settings g l = true) : l.src ∈ g.nodeIds ∧ l.dst ∈ g.nodeIds := by
  simp only [isKept, Bool.and_eq_true, hasNode_iff] at h
  exact ⟨h.1.2, h.1.1.2⟩

theorem mem_structural {c : Cfg} : l ∈ (structural settings g c).found ↔
      l ∈ (ofBranches c c.postDominatorTree ++ .overAll ofCall c.callNodes ++
        .ofList (ofEntry c c.postDominatorTree)).found ∧ isKept settings g l = true := by
  simp [structural, Search.mem_fresh]

theorem sort_isControl (sort : FlowSort) : (sortOf sort).isControl = true := by
  cases sort <;> rfl

theorem isControl_of_mem_structural {c : Cfg} :
    ∀ l ∈ (structural settings g c).found, l.sort.isControl = true := by
  suffices hall : ∀ l ∈ (ofBranches c c.postDominatorTree ++ .overAll ofCall c.callNodes ++
      .ofList (ofEntry c c.postDominatorTree)).found, l.sort.isControl = true from
    fun l hl => hall l (mem_structural.1 hl).1
  refine forall_found_append (forall_found_append (forall_found_overAll fun n _ =>
    forall_found_overAll fun e _ => ?_) (forall_found_overAll fun call _ => ?_)) ?_
  · intro k hk
    simp only [ofBranchEdge] at hk
    split at hk
    · obtain ⟨m, -, rfl⟩ := mem_map.1 hk
      exact sort_isControl _
    · obtain ⟨m, -, rfl⟩ := mem_map.1 hk
      exact sort_isControl _
    · split at hk
      · exact absurd hk not_mem_nil
      · exact absurd hk not_mem_nil
  · intro k hk
    rw [ofCall] at hk
    split at hk
    · obtain ⟨m, -, rfl⟩ := mem_map.1 hk
      rfl
    · exact absurd hk not_mem_nil
  · intro k hk
    obtain ⟨e, -, hk⟩ := mem_flatMap.1 hk
    obtain ⟨m, -, rfl⟩ := mem_map.1 hk
    rfl

theorem ends_mem_of_mem_structural {c : Cfg} (h : l ∈ (structural settings g c).found) :
    l.src ∈ g.nodeIds ∧ l.dst ∈ g.nodeIds :=
  ends_mem_of_isKept (mem_structural.1 h).2

theorem ends_mem_of_mem_orphans {c : Cfg} {ls : List Link} (h : l ∈ orphans settings g c ls) :
    l.src ∈ g.nodeIds ∧ l.dst ∈ g.nodeIds := by
  have hkept := (mem_filter.1 h).2
  rw [Bool.and_eq_true] at hkept
  exact ends_mem_of_isKept hkept.1

/-- How control dependences are drawn: those of the structure first, then those of the nodes that
are left for the entry. -/
structure Derived (settings : Settings) (c : Cfg) (g between after : Graph) : Prop where
  complete : (structural settings g c).fault = none
  coherent : between.Coherent
  first : g.Drawn ((structural settings g c).found.map Link.joint) between
  rest : between.Drawn
    ((orphans settings between c (structural settings g c).found).map Link.joint) after

open Tracked in
theorem ends_construct (settings : Settings) (c : Cfg) {lo : Id} {p : Graph × Trail} (h : InOrder lo p) :
    Ends (construct settings c) p (fun _ q => (∃ between, Derived settings c p.1 between q.1) ∧
      InOrder lo q) (fun e q => (structural settings p.1 c).fault = some e ∧ InOrder lo q) := by
  simp only [construct, ends_bind, ends_state]
  refine (ends_commit h _ addLinks_eq fun l hl => ends_mem_of_mem_structural hl).imp ?_
  rintro _ q ⟨rfl, hfault, hdrawn, hq⟩
  rw [addLinks_eq]
  refine (ends_drawAll hq _ (forall_mem_map.2 fun l hl => ends_mem_of_mem_orphans hl)).always ?_
  rintro _ r ⟨hrest, hr⟩
  exact ⟨⟨q.1, hfault, hq.growing.coherent, hdrawn, hrest⟩, hr⟩

end ControlDependence

namespace DataDependence

def Link.joint (l : Link) : Id × Id × EdgeLabel :=
  (l.src, l.dst, .dependence l.sort (some l.var) l.carrier)

theorem addLinks_eq (ls : List Link) : addLinks ls = drawAll (ls.map Link.joint) := by
  induction ls with
  | nil => rfl
  | cons l ls ih => simp only [addLinks, drawAll, map_cons, ih, Link.joint]

theorem links_congr (p : Program) {g h : Graph} (hnodes : h.nodes = g.nodes) (c : Cfg) :
    links p h c = links p g c := by
  simp only [links, hasNode, hnodes]

theorem distinctLinks_sublist (seen : List (Id × Id × DependenceSort × VariableIdentity))
    (ls : List Link) : (distinctLinks seen ls).Sublist ls := by
  induction ls generalizing seen with
  | nil => exact .refl _
  | cons l ls ih =>
    by_cases h : l.key ∈ seen
    · simpa only [distinctLinks, h, if_true] using (ih seen).cons l
    · simpa only [distinctLinks, h, if_false] using (ih (l.key :: seen)).cons_cons l

theorem ends_mem_of_mem_links {p : Program} {g : Graph} {c : Cfg}
    (h : l ∈ (links p g c).found) : l.src ∈ g.nodeIds ∧ l.dst ∈ g.nodeIds := by
  simpa using (mem_filter.1 ((distinctLinks_sublist _ _).subset h)).2

def innerSorts : List DependenceSort :=
  [.loopIndependent, .loopCarried, .defOrder, .anti, .output]

section Found

variable {K : Link → Prop} {c : Cfg} (hplain : ∀ l : Link, l.sort ∈ innerSorts → l.carrier = none → K l)
include hplain

theorem forall_mem_defOrder (n : Id) (v : Variable) : ∀ l ∈ (defOrder c n v).found, K l := by
  refine forall_found_append (forall_found_require _)
    (forall_found_overAll fun m _ => ?_)
  refine forall_found_append (forall_found_require _) fun l hl => ?_
  split at hl
  · rw [mem_singleton.1 hl]
    exact hplain _ (by simp [innerSorts]) rfl
  · cases hl

/-- What holds of each kind of data dependence holds of all. -/
theorem forall_mem_links {p : Program} {g : Graph}
    (hcarried : ∀ (n : Node) (v : Variable) (covered : List Id), ∀ r ∈ carriedReach c v covered
        (sortByTwo (fun e => regionSize (regions c) e.loopBack?) (·.id) (blockedEdges c v n.id covered)),
      K (carriedLink c (regions c) n v r.1 r.2)) : ∀ l ∈ (links p g c).found, K l := by
  intro l hl
  refine forall_found_append (forall_found_append
    (forall_found_overAll fun r hr => ?_) (forall_found_overAll fun r _ => ?_)) ?_
    l (mem_filter.1 ((distinctLinks_sublist _ _).subset hl)).1
  · obtain ⟨⟨n, v⟩, -, rfl⟩ := mem_map.1 hr
    refine forall_found_append (forall_found_append (forall_found_append
      (forall_found_append (forall_found_require _) ?_) (forall_found_require _)) ?_)
      (forall_mem_defOrder hplain n.id v)
    · intro l hl
      obtain ⟨_, -, rfl⟩ := mem_map.1 hl
      exact hplain _ (by simp [innerSorts]) rfl
    · intro l hl
      obtain ⟨r, hr, rfl⟩ := mem_map.1 hl
      exact hcarried n v _ r (mem_filter.1 hr).1
  · refine forall_found_append (forall_found_require _) fun l hl => ?_
    obtain ⟨_, -, rfl⟩ := mem_map.1 hl
    exact hplain _ (by simp [innerSorts]) rfl
  · intro l hl
    obtain ⟨_, -, hl⟩ := mem_flatMap.1 hl
    obtain ⟨_, -, rfl⟩ := mem_map.1 hl
    exact hplain _ (by simp [innerSorts]) rfl

end Found

theorem sort_mem_of_mem_links {p : Program} {g : Graph} {c : Cfg} :
    ∀ l ∈ (links p g c).found, l.sort ∈ innerSorts := by
  refine forall_mem_links (fun _ hsort _ => hsort) fun n v covered r _ => ?_
  unfold carriedLink
  split <;> simp [innerSorts]

open Tracked in
theorem ends_construct (program : Program) (c : Cfg) {lo : Id} {p : Graph × Trail} (h : InOrder lo p) :
    Ends (construct program c) p (fun _ q => (links program p.1 c).fault = none ∧
        p.1.Drawn ((links program p.1 c).found.map Link.joint) q.1 ∧ InOrder lo q)
      (fun e q => (links program p.1 c).fault = some e ∧ InOrder lo q) := by
  simp only [construct, ends_bind, ends_state]
  refine (ends_commit h _ addLinks_eq fun l hl => ends_mem_of_mem_links hl).imp ?_
  rintro _ q ⟨-, hderived⟩
  exact hderived

end DataDependence

namespace Pdg

/-- Nodes of distinct ids are taken over in order, and nothing else changes. -/
theorem growing_foldl_appendNode (ns : List Node) {g : Graph} {next : Id} (h : g.Growing next)
    (hempty : g.edges = []) :
    let h := ns.foldl (fun g n => if g.hasNode n.id then g else g.appendNode n) g
    h.Growing next ∧ h.edges = [] ∧ h.frame = g.frame := by
  induction ns generalizing g with
  | nil => exact ⟨h, hempty, rfl⟩
  | cons n ns ih =>
    by_cases hn : g.hasNode n.id = true
    · simpa only [foldl_cons, hn, if_true] using ih h hempty
    · simp only [foldl_cons, hn]
      refine ih ⟨h.coherent.appendNode ?_, h.unfrozen, h.below⟩ hempty
      rwa [hasNode_iff] at hn

theorem growing_nodesOf (c : Cfg) (next : Id) :
    (nodesOf c).Growing next ∧ (nodesOf c).edges = [] ∧ (nodesOf c).frame = (.dependence, false, 0) := by
  refine growing_foldl_appendNode _ ⟨?_, rfl, by simp [appendNode, empty]⟩ rfl
  exact (coherent_empty _).appendNode (by simp [empty, nodeIds])

theorem edges_nodesOf (c : Cfg) : (nodesOf c).edges = [] :=
  (growing_nodesOf c 0).2.1

theorem inOrder_nodesOf (c : Cfg) (t : Trail) : InOrder t.next (nodesOf c, t) := by
  obtain ⟨hgrowing, hempty, hframe⟩ := growing_nodesOf c t.next
  refine ⟨hgrowing, ?_, ?_, hframe⟩
  · rw [hempty]
    rfl
  · rw [hempty]
    exact (Int.add_zero _).symm

/-- How the dependence graph of a flow graph comes about. -/
structure Derived (context : Context) (c : Cfg) (d : Pdg) : Prop where
  cfg_eq : d.cfg = some c
  entry_eq : d.entry = c.entry
  nodes_eq : d.nodes = (nodesOf c).nodes
  edges_eq : ∃ between after,
    ControlDependence.Derived context.settings c (nodesOf c) between after ∧
      after.Drawn ((DataDependence.links context.program (nodesOf c) c).found.map DataDependence.Link.joint)
      d.toGraph
  complete : (DataDependence.links context.program (nodesOf c) c).fault = none
  coherent : d.toGraph.Coherent

/-- A derived dependence graph whose edges have the ids from `lo` on. -/
structure Laid (context : Context) (c : Cfg) (lo : Id) (d : Pdg) : Prop extends Derived context c d where
  name_eq : d.name = c.name
  frame_eq : d.toGraph.frame = (.dependence, false, 0)
  ids_eq : d.edges.map (·.id) = (range d.edges.length).map fun k : Nat => lo + (k : Int)

theorem Laid.bounds {context : Context} {c : Cfg} {lo : Id} {d : Pdg} (h : Laid context c lo d) :
    ∀ e ∈ d.edges, lo ≤ e.id ∧ e.id < lo + d.edges.length := by
  intro e he
  obtain ⟨k, hk, hid⟩ := mem_map.1 (h.ids_eq ▸ mem_map_of_mem he)
  rw [← hid]
  exact ⟨Int.le_add_of_nonneg_right (Int.natCast_nonneg k),
    Int.add_lt_add_left (Int.ofNat_lt.2 (mem_range.1 hk)) _⟩

open Tracked

variable {σ : Type} (context : Context) (c : Cfg) (p : σ × Trail)

/-- **A dependence graph is derived under the ids that follow**, unless an analysis breaks off. -/
theorem ends_ofCfg_laid : Ends (ofCfg context c) p
    (fun d q => Laid context c p.2.next d ∧ Kept p q ∧ q.2.next = p.2.next + d.edges.length)
    (fun e q => ((ControlDependence.structural context.settings (nodesOf c) c).fault = some e ∨
      (DataDependence.links context.program (nodesOf c) c).fault = some e) ∧ Kept p q) := by
  have hkept : ∀ {q : Graph × Trail}, InOrder p.2.next q → p.2.next ≤ q.2.next := by
    intro q hq
    rw [hq.next_eq]
    exact Int.le_add_of_nonneg_right (Int.natCast_nonneg _)
  simp only [ofCfg, addDependences, ends_bind, ends_within]
  refine (ControlDependence.ends_construct context.settings c (inOrder_nodesOf c p.2)).mono ?_
    fun _ _ hbad => ⟨.inl hbad.1, rfl, hkept hbad.2⟩
  rintro _ q ⟨⟨between, hcontrol⟩, hq⟩
  have hnodes : q.1.nodes = (nodesOf c).nodes :=
    hcontrol.rest.nodes_eq.trans hcontrol.first.nodes_eq
  have hlinks := DataDependence.links_congr context.program hnodes c
  refine (DataDependence.ends_construct context.program c hq).mono ?_ ?_
  · rintro _ r ⟨hcomplete, hdrawn, hr⟩
    rw [hlinks] at hcomplete hdrawn
    exact ⟨⟨⟨rfl, rfl, hdrawn.nodes_eq.trans hnodes, ⟨between, q.1, hcontrol, hdrawn⟩, hcomplete,
      hr.growing.coherent⟩,
      rfl, hr.frame_eq, hr.ids_eq⟩, ⟨rfl, hkept hr⟩, hr.next_eq⟩
  · rintro e r ⟨hbad, hr⟩
    rw [hlinks] at hbad
    exact ⟨.inr hbad, rfl, hkept hr⟩

theorem ends_ofCfg : Ends (ofCfg context c) p (fun d _ => Derived context c d)
    (fun e _ => (ControlDependence.structural context.settings (nodesOf c) c).fault = some e ∨
      (DataDependence.links context.program (nodesOf c) c).fault = some e) :=
  (ends_ofCfg_laid context c p).mono (fun _ _ h => h.1.toDerived) fun _ _ h => h.1

/-- The kinds of dependence that are derived from a flow graph. -/
def isDerived (s : DependenceSort) : Bool :=
  s.isControl || DataDependence.innerSorts.contains s

theorem Derived.sort_isDerived {context : Context} {c : Cfg} {d : Pdg} (hd : Derived context c d) :
    ∀ e ∈ d.edges, ∃ s, e.dependenceSort? = some s ∧ isDerived s = true := by
  obtain ⟨between, after, hcontrol, hdata⟩ := hd.edges_eq
  intro e he
  have hmem : e.joint ∈ d.edges.map Edge.joint := mem_map_of_mem he
  rw [hdata.joints_eq, hcontrol.rest.joints_eq, hcontrol.first.joints_eq, edges_nodesOf,
    mem_append, mem_append] at hmem
  have hsort : ∀ {s v w}, e.label = .dependence s v w → e.dependenceSort? = some s := by
    intro s v w hlabel
    rw [Edge.dependenceSort?, hlabel]
  rcases hmem with (hmem | hmem) | hmem
  · obtain ⟨l, hl, heq⟩ := mem_map.1 hmem
    refine ⟨l.sort, hsort (congrArg (·.2.2) heq).symm, ?_⟩
    rw [isDerived, ControlDependence.isControl_of_mem_structural l hl, Bool.true_or]
  · obtain ⟨l, hl, heq⟩ := mem_map.1 hmem
    obtain ⟨n, -, hn⟩ := mem_map.1 (mem_filter.1 hl).1
    refine ⟨l.sort, hsort (congrArg (·.2.2) heq).symm, ?_⟩
    rw [← hn]
    rfl
  · obtain ⟨l, hl, heq⟩ := mem_map.1 hmem
    refine ⟨l.sort, hsort (congrArg (·.2.2) heq).symm, ?_⟩
    rw [isDerived, contains_iff_mem.2 (DataDependence.sort_mem_of_mem_links l hl), Bool.or_true]

end Pdg

end ProgramDependence
