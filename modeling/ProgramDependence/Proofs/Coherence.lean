import Mathlib.Data.List.Nodup
import ProgramDependence.Flow.Cfg

/-!
# Coherent graphs

A graph keeps its edges three times: in the list of all edges, and in the indices of the edges that
leave and enter each node.  `Graph.Coherent` says that the three agree, that ids are unique and that
no edge dangles.  Every operation of the kernel keeps a graph coherent, so every graph that was
assembled with them can be read through its list of edges alone (`mem_edgesOutOf`, `mem_edgesInto`).
-/

namespace ProgramDependence

open List

namespace Table

variable {κ β : Type} [DecidableEq κ]

variable (t : Table κ β)

include t

theorem find?_modify (k k' : κ) (f : β → β) :
    (t.modify k f).find? k' = if k' = k then (t.find? k').map f else t.find? k' := by
  obtain ⟨entries⟩ := t
  simp only [find?, modify]
  induction entries with
  | nil => simp
  | cons e es ih =>
    by_cases hk : e.1 = k
    · by_cases hk' : e.1 = k'
      · have : k' = k := hk' ▸ hk
        simp [hk, this]
      · have hne : ¬ k = k' := fun h => hk' (hk.trans h)
        simpa [hk, hne] using ih
    · by_cases hk' : e.1 = k'
      · have hne : ¬ k' = k := fun h => hk (hk'.trans h)
        simp [hk', hne]
      · simpa [hk, hk'] using ih

theorem contains_eq_isSome (k : κ) : t.contains k = (t.find? k).isSome := by
  obtain ⟨entries⟩ := t
  simp only [contains, find?]
  induction entries with
  | nil => rfl
  | cons e es ih =>
    by_cases hk : e.1 = k
    · simp [hk]
    · simpa [hk] using ih

theorem find?_insert (k k' : κ) (v : β) :
    (t.insert k v).find? k' = if k' = k then some v else t.find? k' := by
  by_cases hc : t.contains k = true
  · rw [insert, if_pos hc, find?_modify]
    by_cases hk : k' = k
    · subst hk
      rw [contains_eq_isSome] at hc
      obtain ⟨w, hw⟩ := Option.isSome_iff_exists.1 hc
      simp [hw]
    · simp [hk]
  · rw [insert, if_neg hc]
    rw [contains_eq_isSome] at hc
    have hnone : t.find? k = none := by simpa using hc
    by_cases hk : k' = k
    · subst hk
      have hfirst : t.entries.find? (fun e => decide (e.1 = k')) = none := by
        simpa [find?] using hnone
      simp [find?, hfirst]
    · have hk2 : ¬ k = k' := fun h => hk h.symm
      simp [find?, hk, hk2]

theorem find?_erase (k k' : κ) : (t.erase k).find? k' = if k' = k then none else t.find? k' := by
  obtain ⟨entries⟩ := t
  simp only [find?, erase]
  induction entries with
  | nil => simp
  | cons e es ih =>
    by_cases hk : e.1 = k
    · by_cases hk' : k' = k
      · simp [hk']
      · have hne : ¬ k = k' := fun h => hk' h.symm
        simpa [hk, hne] using ih
    · by_cases hk' : e.1 = k'
      · have hne : ¬ k' = k := fun h => hk (hk'.trans h)
        simp [hk', hne]
      · simpa [hk'] using ih

end Table

namespace Graph

variable {here : Edge → Id}

/-- The representation invariant of the kernel: unique ids, no dangling edge, and indices that list
the edges of each node in the order of the list of edges. -/
structure Coherent (g : Graph) : Prop where
  nodup_nodes : g.nodeIds.Nodup
  nodup_edges : (g.edges.map (·.id)).Nodup
  src_mem : ∀ e ∈ g.edges, e.src ∈ g.nodeIds
  dst_mem : ∀ e ∈ g.edges, e.dst ∈ g.nodeIds
  outgoing_eq : ∀ id, g.outgoing.find? id =
    if id ∈ g.nodeIds then some (g.edges.filter (·.src = id)) else none
  incoming_eq : ∀ id, g.incoming.find? id =
    if id ∈ g.nodeIds then some (g.edges.filter (·.dst = id)) else none

@[simp] theorem hasNode_iff (g : Graph) (id : Id) : g.hasNode id = true ↔ id ∈ g.nodeIds := by
  simp [hasNode, nodeIds]

@[simp] theorem hasEdge_iff (g : Graph) (id : Id) : g.hasEdge id = true ↔ id ∈ g.edges.map (·.id) := by
  simp [hasEdge]

namespace Coherent

variable {g : Graph}

theorem filter_eq_nil {id : Id} (hmem : ∀ e ∈ g.edges, here e ∈ g.nodeIds) (hid : id ∉ g.nodeIds) :
    (g.edges.filter fun e => here e = id) = [] := by
  rw [filter_eq_nil_iff]
  intro e he
  simp only [decide_eq_true_eq]
  exact fun h => hid (h ▸ hmem e he)

variable (hg : g.Coherent)
include hg

theorem edgesOutOf_eq (id : Id) : g.edgesOutOf id = g.edges.filter (·.src = id) := by
  rw [edgesOutOf, hg.outgoing_eq]
  by_cases hid : id ∈ g.nodeIds
  · simp [hid]
  · simp [hid, filter_eq_nil hg.src_mem hid]

theorem edgesInto_eq (id : Id) : g.edgesInto id = g.edges.filter (·.dst = id) := by
  rw [edgesInto, hg.incoming_eq]
  by_cases hid : id ∈ g.nodeIds
  · simp [hid]
  · simp [hid, filter_eq_nil hg.dst_mem hid]

theorem mem_edgesOutOf {id : Id} {e : Edge} : e ∈ g.edgesOutOf id ↔ e ∈ g.edges ∧ e.src = id := by
  simp [hg.edgesOutOf_eq]

theorem mem_edgesInto {id : Id} {e : Edge} : e ∈ g.edgesInto id ↔ e ∈ g.edges ∧ e.dst = id := by
  simp [hg.edgesInto_eq]

theorem node?_eq_some {n : Node} (hn : n ∈ g.nodes) : g.node? n.id = some n := by
  obtain ⟨m, hm⟩ : ∃ m, g.node? n.id = some m :=
    Option.isSome_iff_exists.1 (find?_isSome.2 ⟨n, hn, by simp⟩)
  have hid : m.id = n.id := by simpa using find?_some hm
  rw [hm, inj_on_of_nodup_map hg.nodup_nodes (mem_of_find?_eq_some hm) hn hid]

theorem edge_eq {e f : Edge} (he : e ∈ g.edges) (hf : f ∈ g.edges) (hid : e.id = f.id) : e = f :=
  inj_on_of_nodup_map hg.nodup_edges he hf hid

end Coherent

theorem coherent_empty (kind : GraphKind) : (empty kind).Coherent where
  nodup_nodes := by simp [empty, nodeIds]
  nodup_edges := by simp [empty]
  src_mem := by simp [empty]
  dst_mem := by simp [empty]
  outgoing_eq := by simp [empty, nodeIds, Table.find?]
  incoming_eq := by simp [empty, nodeIds, Table.find?]

/-! ## What the operations answer -/

theorem ok_of_bind {α β : Type} {x : Except Error α} {f : α → Except Error β} {b : β}
    (h : (x >>= f) = .ok b) : ∃ a, x = .ok a ∧ f a = .ok b := by
  cases x with
  | error err => cases h
  | ok a => exact ⟨a, rfl, h⟩

section

variable {g h : Graph} {n : Node} {e : Edge} {answer : Bool}

theorem hasNode_eq_false {id : Id} (hid : id ∉ g.nodeIds) : g.hasNode id = false := by
  rwa [← Bool.not_eq_true, hasNode_iff]

theorem hasEdge_eq_false {id : Id} (hid : id ∉ g.edges.map (·.id)) : g.hasEdge id = false := by
  rwa [← Bool.not_eq_true, hasEdge_iff]

theorem addNode_eq (hfrozen : g.frozen = false) (n : Node) :
    g.addNode n = .ok (if n.id ∈ g.nodeIds then (g, false) else (g.appendNode n, true)) := by
  by_cases hmem : n.id ∈ g.nodeIds
  · simp only [addNode, checkMutable, hfrozen, (hasNode_iff g n.id).2 hmem, if_pos hmem]
    rfl
  · simp only [addNode, checkMutable, hfrozen, hasNode_eq_false hmem, if_neg hmem]
    rfl

theorem addEdge_eq_self (hfrozen : g.frozen = false) (hid : e.id ∈ g.edges.map (·.id)) :
    g.addEdge e = .ok (g, false) := by
  simp only [addEdge, checkMutable, hfrozen, (hasEdge_iff g e.id).2 hid]
  rfl

theorem addEdge_eq (hfrozen : g.frozen = false) (hid : e.id ∉ g.edges.map (·.id))
    (hsrc : e.src ∈ g.nodeIds) (hdst : e.dst ∈ g.nodeIds) : g.addEdge e = .ok (g.appendEdge e, true) := by
  simp only [addEdge, checkMutable, hfrozen, hasEdge_eq_false hid, (hasNode_iff g e.src).2 hsrc,
    (hasNode_iff g e.dst).2 hdst]
  rfl

/-- A node that was added is the last one, or its id was taken. -/
theorem addNode_cases (hadd : g.addNode n = .ok (h, answer)) :
    h = g ∨ n.id ∉ g.nodeIds ∧ h = g.appendNode n := by
  obtain ⟨_, -, hadd⟩ := ok_of_bind hadd
  split at hadd
  next =>
    cases hadd
    exact .inl rfl
  next hnew =>
    cases hadd
    exact .inr ⟨fun hmem => hnew ((hasNode_iff g n.id).2 hmem), rfl⟩

/-- An edge that was added is the last one and joins nodes of the graph, or its id was taken. -/
theorem addEdge_cases (hadd : g.addEdge e = .ok (h, answer)) : h = g ∨
    (e.id ∉ g.edges.map (·.id) ∧ e.src ∈ g.nodeIds ∧ e.dst ∈ g.nodeIds) ∧ h = g.appendEdge e := by
  obtain ⟨_, -, hadd⟩ := ok_of_bind hadd
  split at hadd
  next =>
    cases hadd
    exact .inl rfl
  next hnew =>
    split at hadd
    next hends =>
      cases hadd
      rw [Bool.and_eq_true, hasNode_iff, hasNode_iff] at hends
      exact .inr ⟨⟨fun hmem => hnew ((hasEdge_iff g e.id).2 hmem), hends⟩, rfl⟩
    next => cases hadd

end

/-! ## Changes keep a graph coherent -/

@[simp] theorem nodeIds_appendNode (g : Graph) (n : Node) :
    (g.appendNode n).nodeIds = g.nodeIds ++ [n.id] := by
  simp [nodeIds, appendNode]

@[simp] theorem nodeIds_appendEdge (g : Graph) (e : Edge) : (g.appendEdge e).nodeIds = g.nodeIds :=
  rfl

theorem nodeIds_modifyNode (g : Graph) (id : Id) {f : Node → Node} (hf : ∀ n, (f n).id = n.id) :
    (g.modifyNode id f).nodeIds = g.nodeIds := by
  simp only [nodeIds, modifyNode, map_map]
  refine map_congr_left fun n _ => ?_
  by_cases hn : n.id = id <;> simp [hn, hf]

namespace Coherent

variable {g : Graph}
variable {ids : List Id} {edges : List Edge}
variable {e : Edge}

theorem congr {h : Graph} (hg : g.Coherent) (hn : h.nodeIds = g.nodeIds) (he : h.edges = g.edges)
    (ho : h.outgoing = g.outgoing) (hi : h.incoming = g.incoming) : h.Coherent where
  nodup_nodes := hn ▸ hg.nodup_nodes
  nodup_edges := he ▸ hg.nodup_edges
  src_mem := by rw [hn, he]; exact hg.src_mem
  dst_mem := by rw [hn, he]; exact hg.dst_mem
  outgoing_eq := by rw [hn, he, ho]; exact hg.outgoing_eq
  incoming_eq := by rw [hn, he, hi]; exact hg.incoming_eq

theorem modifyNode (hg : g.Coherent) (id : Id) {f : Node → Node} (hf : ∀ n, (f n).id = n.id) :
    (g.modifyNode id f).Coherent :=
  hg.congr (nodeIds_modifyNode g id hf) rfl rfl rfl

theorem freeze (hg : g.Coherent) : g.freeze.Coherent :=
  hg.congr rfl rfl rfl rfl

section

variable {index : Table Id (List Edge)} {id : Id}
  (hindex : ∀ id, index.find? id = if id ∈ ids then some (edges.filter fun e => here e = id) else none)
include hindex

theorem index_append {new : Id} (hends : ∀ e ∈ edges, here e ∈ ids) (hnew : new ∉ ids) :
    (index.insert new []).find? id =
    if id ∈ ids ++ [new] then some (edges.filter fun e => here e = id) else none := by
  rw [Table.find?_insert]
  by_cases hid : id = new
  · subst hid
    have hnone : edges.filter (fun e => decide (here e = id)) = [] := by
      rw [filter_eq_nil_iff]
      intro e he
      simp only [decide_eq_true_eq]
      exact fun h => hnew (h ▸ hends e he)
    simp [hnone]
  · simp [hid, hindex]

theorem index_extend : (index.modify (here e) (· ++ [e])).find? id =
      if id ∈ ids then some ((edges ++ [e]).filter fun e => here e = id) else none := by
  rw [Table.find?_modify, hindex]
  by_cases hid : id = here e
  · simp [hid]
  · have hid' : ¬ here e = id := fun h => hid h.symm
    simp [hid, hid']

theorem index_drop (huniq : ∀ f ∈ edges, f.id = e.id → f = e) :
    (index.modify (here e) (·.filter (·.id ≠ e.id))).find? id =
      if id ∈ ids then some ((edges.filter (·.id ≠ e.id)).filter fun e => here e = id) else none := by
  rw [Table.find?_modify, hindex]
  by_cases hid : id = here e
  · by_cases hmem : id ∈ ids
    · simp [← hid, Bool.and_comm]
    · simp [hmem]
  · have hsame : (edges.filter (·.id ≠ e.id)).filter (fun f => decide (here f = id)) =
        edges.filter fun f => decide (here f = id) := by
      rw [filter_filter]
      refine filter_congr fun f hf => ?_
      by_cases hfe : f.id = e.id
      · have hne : ¬ here f = id := fun h => hid (huniq f hf hfe ▸ h).symm
        simp [hne]
      · simp [hfe]
    rw [if_neg hid, hsame]

end

theorem appendNode (hg : g.Coherent) {n : Node} (hn : n.id ∉ g.nodeIds) : (g.appendNode n).Coherent where
  nodup_nodes := by
    rw [nodeIds_appendNode]
    exact hg.nodup_nodes.append (nodup_singleton _) (by simpa using hn)
  nodup_edges := hg.nodup_edges
  src_mem := fun e he => by
    rw [nodeIds_appendNode]
    exact mem_append_left _ (hg.src_mem e he)
  dst_mem := fun e he => by
    rw [nodeIds_appendNode]
    exact mem_append_left _ (hg.dst_mem e he)
  outgoing_eq := fun id => by
    rw [nodeIds_appendNode]
    exact index_append hg.outgoing_eq hg.src_mem hn
  incoming_eq := fun id => by
    rw [nodeIds_appendNode]
    exact index_append hg.incoming_eq hg.dst_mem hn

theorem appendEdge (hg : g.Coherent) (he : e.id ∉ g.edges.map (·.id))
    (hs : e.src ∈ g.nodeIds) (hd : e.dst ∈ g.nodeIds) : (g.appendEdge e).Coherent where
  nodup_nodes := hg.nodup_nodes
  nodup_edges := by
    simp only [Graph.appendEdge, map_append]
    exact hg.nodup_edges.append (nodup_singleton _) (by simpa using he)
  src_mem := fun f hf => by
    rcases mem_append.1 hf with hf | hf
    · exact hg.src_mem f hf
    · rw [mem_singleton.1 hf]; exact hs
  dst_mem := fun f hf => by
    rcases mem_append.1 hf with hf | hf
    · exact hg.dst_mem f hf
    · rw [mem_singleton.1 hf]; exact hd
  outgoing_eq := fun _ => index_extend hg.outgoing_eq
  incoming_eq := fun _ => index_extend hg.incoming_eq

theorem dropEdge (hg : g.Coherent) (he : e ∈ g.edges) : (g.dropEdge e).Coherent where
  nodup_nodes := hg.nodup_nodes
  nodup_edges := hg.nodup_edges.sublist (filter_sublist.map _)
  src_mem := fun f hf => hg.src_mem f (mem_of_mem_filter hf)
  dst_mem := fun f hf => hg.dst_mem f (mem_of_mem_filter hf)
  outgoing_eq := fun _ => index_drop hg.outgoing_eq fun _ hf hid => hg.edge_eq hf he hid
  incoming_eq := fun _ => index_drop hg.incoming_eq fun _ hf hid => hg.edge_eq hf he hid

theorem eraseNode (hg : g.Coherent) {id : Id} (hfree : ∀ e ∈ g.edges, e.src ≠ id ∧ e.dst ≠ id) : ({ g with
        nodes := g.nodes.filter (·.id ≠ id)
        incoming := g.incoming.erase id
        outgoing := g.outgoing.erase id } : Graph).Coherent := by
  have hids : ({ g with
      nodes := g.nodes.filter (·.id ≠ id)
      incoming := g.incoming.erase id
      outgoing := g.outgoing.erase id } : Graph).nodeIds = g.nodeIds.filter (· ≠ id) := by
    simp [nodeIds, filter_map, Function.comp_def]
  have hindex : ∀ (index : Table Id (List Edge)) (here : Edge → Id) (k : Id),
      index.find? k = (if k ∈ g.nodeIds then some (g.edges.filter fun e => here e = k) else none) →
      (index.erase id).find? k = if k ∈ g.nodeIds.filter (· ≠ id) then
        some (g.edges.filter fun e => here e = k) else none := by
    intro index here k hk
    rw [Table.find?_erase, hk]
    by_cases hki : k = id
    · simp [hki]
    · simp [hki]
  refine ⟨?_, hg.nodup_edges, ?_, ?_, ?_, ?_⟩
  · rw [hids]
    exact hg.nodup_nodes.filter _
  · intro e he
    rw [hids]
    exact mem_filter.2 ⟨hg.src_mem e he, by simpa using (hfree e he).1⟩
  · intro e he
    rw [hids]
    exact mem_filter.2 ⟨hg.dst_mem e he, by simpa using (hfree e he).2⟩
  · intro k
    rw [hids]
    exact hindex g.outgoing (·.src) k (hg.outgoing_eq k)
  · intro k
    rw [hids]
    exact hindex g.incoming (·.dst) k (hg.incoming_eq k)

theorem dropEdges (hg : g.Coherent) : ∀ (es : List Edge) (h : Graph), h.Coherent →
      (∀ e ∈ h.edges, e ∈ g.edges) → (∀ e ∈ es, e ∈ g.edges) →
      let bare := es.foldl (fun h e => if h.hasEdge e.id then h.dropEdge e else h) h
      bare.Coherent ∧ (∀ e ∈ bare.edges, e ∈ h.edges ∧ e ∉ es) := by
  intro es
  induction es with
  | nil =>
    intro h hh _ _
    exact ⟨hh, fun e he => ⟨he, by simp⟩⟩
  | cons e es ih =>
    intro h hh hsub hes
    have heg : e ∈ g.edges := hes e (by simp)
    have hes' : ∀ f ∈ es, f ∈ g.edges := fun f hf => hes f (mem_cons_of_mem _ hf)
    by_cases hhas : h.hasEdge e.id = true
    · obtain ⟨f, hf, hid⟩ := mem_map.1 ((hasEdge_iff h e.id).1 hhas)
      have hfe : f = e := hg.edge_eq (hsub f hf) heg hid
      have hdrop := hh.dropEdge (hfe ▸ hf)
      obtain ⟨hbare, hleft⟩ := ih (h.dropEdge e) hdrop
        (fun k hk => hsub k (mem_of_mem_filter hk)) hes'
      simp only [foldl_cons, hhas]
      refine ⟨hbare, fun k hk => ?_⟩
      obtain ⟨hkd, hkes⟩ := hleft k hk
      obtain ⟨hkh, hkid⟩ := mem_filter.1 hkd
      refine ⟨hkh, fun hmem => ?_⟩
      rcases mem_cons.1 hmem with rfl | hmem
      · simp at hkid
      · exact hkes hmem
    · obtain ⟨hbare, hleft⟩ := ih h hh hsub hes'
      simp only [foldl_cons, hhas]
      refine ⟨hbare, fun k hk => ?_⟩
      obtain ⟨hkh, hkes⟩ := hleft k hk
      refine ⟨hkh, fun hmem => ?_⟩
      rcases mem_cons.1 hmem with rfl | hmem
      · exact hhas ((hasEdge_iff h k.id).2 (mem_map_of_mem hkh))
      · exact hkes hmem

/-! The operations that may be refused. -/

section

variable {h : Graph} {answer : Bool} (hg : g.Coherent)

include hg

theorem addNode {n : Node} (hadd : g.addNode n = .ok (h, answer)) : h.Coherent := by
  rcases addNode_cases hadd with rfl | ⟨hn, rfl⟩
  · exact hg
  · exact hg.appendNode hn

theorem addEdge (hadd : g.addEdge e = .ok (h, answer)) : h.Coherent := by
  rcases addEdge_cases hadd with rfl | ⟨⟨he, hs, hd⟩, rfl⟩
  · exact hg
  · exact hg.appendEdge he hs hd

theorem removeEdge {id : Id} (hremove : g.removeEdge id = .ok (h, answer)) : h.Coherent := by
  obtain ⟨_, -, hremove⟩ := ok_of_bind hremove
  split at hremove
  next =>
    cases hremove
    exact hg
  next e hedge =>
    cases hremove
    exact hg.dropEdge (mem_of_find?_eq_some hedge)

theorem removeNode {id : Id} (hremove : g.removeNode id = .ok (h, answer)) : h.Coherent := by
  obtain ⟨_, -, hremove⟩ := ok_of_bind hremove
  split at hremove
  · cases hremove
    exact hg
  · cases hremove
    obtain ⟨hbare, hleft⟩ := hg.dropEdges (g.edgesInto id ++ g.edgesOutOf id) g hg
      (fun _ he => he) (fun e he => by
        rcases mem_append.1 he with he | he
        · exact (hg.mem_edgesInto.1 he).1
        · exact (hg.mem_edgesOutOf.1 he).1)
    refine hbare.eraseNode fun e he => ?_
    obtain ⟨heg, hnot⟩ := hleft e he
    constructor
    · exact fun hs => hnot (mem_append_right _ (hg.mem_edgesOutOf.2 ⟨heg, hs⟩))
    · exact fun hd => hnot (mem_append_left _ (hg.mem_edgesInto.2 ⟨heg, hd⟩))

end

end Coherent

theorem foldlM_keeps {α : Type} {K : Graph → Prop} {step : Graph → α → Except Error Graph}
    (hstep : ∀ g x h, K g → step g x = .ok h → K h) :
    ∀ (xs : List α) {g h : Graph}, K g → xs.foldlM step g = .ok h → K h := by
  intro xs
  induction xs with
  | nil =>
    intro g h hg hfold
    simp only [foldlM_nil, pure, Except.pure, Except.ok.injEq] at hfold
    exact hfold ▸ hg
  | cons x xs ih =>
    intro g h hg hfold
    obtain ⟨k, hx, hrest⟩ := ok_of_bind hfold
    exact ih (hstep g x k hg hx) hrest

/-- What single additions keep a merge keeps. -/
theorem merge_keeps {K : Graph → Prop} {g other h : Graph}
    (hnode : ∀ {g h : Graph} {n : Node} {answer : Bool}, K g → g.addNode n = .ok (h, answer) → K h)
    (hedge : ∀ {g h : Graph} {e : Edge} {answer : Bool}, K g → g.addEdge e = .ok (h, answer) → K h)
    (hg : K g) (hmerge : g.merge other = .ok h) : K h := by
  obtain ⟨k, hnodes, hedges⟩ := ok_of_bind hmerge
  have hk : K k := by
    refine foldlM_keeps (fun g n h hg hadd => ?_) other.nodes hg hnodes
    obtain ⟨r, hn, hr⟩ := ok_of_bind hadd
    exact Except.ok.inj hr ▸ hnode hg hn
  refine foldlM_keeps (fun g e h hg hadd => ?_) other.edges hk hedges
  obtain ⟨r, he, hr⟩ := ok_of_bind hadd
  exact Except.ok.inj hr ▸ hedge hg he

theorem Coherent.merge {g other h : Graph} (hg : g.Coherent) (hmerge : g.merge other = .ok h) : h.Coherent :=
  merge_keeps (fun hg hadd => hg.addNode hadd) (fun hg hadd => hg.addEdge hadd) hg hmerge

end Graph

end ProgramDependence
