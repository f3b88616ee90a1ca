import ProgramDependence.Proofs.Blocks
import ProgramDependence.Proofs.Composed
import ProgramDependence.Proofs.RenamedData

/-!
# Copies of flow graphs

A copy numbers the nodes of a flow graph and then its edges.  New ids go up by one while the old
ones may leave gaps, so what leads from the new ids back to the old ones keeps their order and
extends to all ids: the flow graph is its copy under a `Renaming`.  Whatever is derived from the
copy is therefore the image of what is derived from the flow graph, in the same order.
-/

namespace ProgramDependence

open List Graph
variable {payload : Payload}

/-! ## Handing out new ids -/

/-- Old ids with the new ones they get from `next` on. -/
def numberedFrom (next : Int) : List Int → List (Int × Int)
  | [] => []
  | old :: olds => (old, next) :: numberedFrom (next + 1) olds

section NumberedFrom

variable {olds : List Int} {next : Int}

theorem map_fst_numberedFrom (next : Int) (olds : List Int) : (numberedFrom next olds).map (·.1) = olds := by
  induction olds generalizing next with
  | nil => rfl
  | cons old olds ih => rw [numberedFrom, map_cons, ih]

theorem bounds_of_mem_numberedFrom {e : Int × Int} (he : e ∈ numberedFrom next olds) :
    next ≤ e.2 ∧ e.2 < next + olds.length := by
  induction olds generalizing next with
  | nil => cases he
  | cons old olds ih =>
    rw [length_cons]
    rcases mem_cons.1 he with heq | he
    · rw [heq]
      omega
    · have hbounds := ih he
      omega

theorem pairwise_numberedFrom (next : Int) (olds : List Int) :
    (numberedFrom next olds).Pairwise fun d e => d.2 < e.2 := by
  induction olds generalizing next with
  | nil => exact .nil
  | cons old olds ih =>
    refine pairwise_cons.2 ⟨fun e he => ?_, ih (next + 1)⟩
    have hbounds := bounds_of_mem_numberedFrom he
    omega

/-- Back from new ids to the old ones, and on in the same order to ids that were not handed out. -/
def backTo : List Int → Int → Int → Int
  | [], _, i => i
  | [old], next, i => old + (i - next)
  | old :: old' :: olds, next, i => if i ≤ next then old + (i - next) else backTo (old' :: olds) (next + 1) i

theorem backTo_self (old : Int) (olds : List Int) (next : Int) : backTo (old :: olds) next next = old := by
  cases olds with
  | nil => rw [backTo, Int.sub_self, Int.add_zero]
  | cons old' olds => rw [backTo, if_pos (Int.le_refl next), Int.sub_self, Int.add_zero]

/-- The way back keeps the order of ids. -/
theorem backTo_lt (holds : olds.Pairwise (· < ·)) (next : Int) {i j : Int} (hij : i < j) :
    backTo olds next i < backTo olds next j := by
  induction olds generalizing next i j with
  | nil => exact hij
  | cons old olds ih =>
    cases olds with
    | nil =>
      simp only [backTo]
      omega
    | cons old' olds =>
      obtain ⟨hold, hrest⟩ := pairwise_cons.1 holds
      have hstep : old < old' := hold old' mem_cons_self
      rw [backTo, backTo]
      by_cases hi : i ≤ next
      · by_cases hj : j ≤ next
        · omega
        · have hfirst : old' ≤ backTo (old' :: olds) (next + 1) j := by
            by_cases heq : j = next + 1
            · exact Int.le_of_eq (by rw [heq, backTo_self])
            · have hlt := ih hrest (next + 1) (show next + 1 < j by omega)
              rw [backTo_self] at hlt
              omega
          rw [if_pos hi, if_neg hj]
          omega
      · rw [if_neg hi, if_neg (show ¬ j ≤ next by omega)]
        exact ih hrest (next + 1) hij

theorem backTo_of_mem {e : Int × Int} (he : e ∈ numberedFrom next olds) : backTo olds next e.2 = e.1 := by
  induction olds generalizing next with
  | nil => cases he
  | cons old olds ih =>
    rcases mem_cons.1 he with heq | he
    · rw [heq, backTo_self]
    · have hbounds := bounds_of_mem_numberedFrom he
      cases olds with
      | nil => cases he
      | cons old' olds =>
        rw [backTo, if_neg (show ¬ e.2 ≤ next by omega)]
        exact ih he

end NumberedFrom

open Tracked in
theorem Cfg.ends_drawIds {σ : Type} (olds : List Id) {ids : Table Id Id}
    (hnodup : (ids.keys ++ olds).Nodup) (p : σ × Trail) : Returns (drawIds olds ids) p fun ids' q =>
    ids' = ⟨ids.entries ++ numberedFrom p.2.next olds⟩ ∧
        q = (p.1, { p.2 with next := p.2.next + olds.length }) := by
  induction olds generalizing ids p with
  | nil =>
    refine ⟨?_, ?_⟩
    · rw [numberedFrom, append_nil]
    · rw [length_nil, Int.natCast_zero, Int.add_zero]
  | cons old olds ih =>
    have hnew : ids.contains old = false := by
      rw [← Bool.not_eq_true, Table.contains_iff]
      intro hold
      exact disjoint_of_nodup_append hnodup hold mem_cons_self
    have hinsert : ids.insert old p.2.next = ⟨ids.entries ++ [(old, p.2.next)]⟩ := by
      rw [Table.insert, hnew]
      rfl
    have hkeys : (Table.keys ⟨ids.entries ++ [(old, p.2.next)]⟩ ++ olds).Nodup := by
      rw [Table.keys, map_append, append_assoc]
      exact hnodup
    have hrest := ih hkeys (p.1, { p.2 with next := p.2.next + 1 })
    rw [drawIds, foldlM_cons, returns_bind, ends_bind, ends_freshId, ends_pure, hinsert]
    refine hrest.imp ?_
    rintro ids' q ⟨hids, hq⟩
    refine ⟨?_, ?_⟩
    · rw [hids, append_assoc]
      rfl
    · rw [hq, length_cons, Int.natCast_succ, Int.add_assoc, Int.add_comm 1]

/-! ## Mapping ids -/

/-- The new id of an id; an id that has none stays as it is. -/
def Table.newId (ids : Table Id Id) (i : Id) : Id :=
  (ids.find? i).getD i

def Edge.mapIds (f : Id → Id) (e : Edge) : Edge :=
  ⟨f e.id, f e.src, f e.dst, e.label.mapIds f⟩

section MapIds

variable {f g : Id → Id}

theorem map_eq_self {ids : List Id} (h : ∀ i ∈ ids, f i = i) : ids.map f = ids :=
  (map_congr_left h).trans (map_id ids)

theorem option_map_eq_self {id : Option Id} (h : ∀ i ∈ id.toList, f i = i) : id.map f = id := by
  cases id with
  | none => rfl
  | some i => rw [Option.map_some, h i (mem_singleton_self i)]

theorem option_map_congr {id : Option Id} (h : ∀ i ∈ id.toList, g i = f i) : id.map g = id.map f :=
  Option.map_congr fun i hi => h i (Option.mem_toList.2 hi)

namespace Payload

theorem mapIds_mapIds (payload : Payload) : (payload.mapIds f).mapIds g = payload.mapIds (g ∘ f) := by
  cases payload with
  | switch default => simp [mapIds]
  | _ => simp [mapIds]

theorem mapIds_congr (h : ∀ i ∈ payload.refs, g i = f i) :
    payload.mapIds g = payload.mapIds f := by
  cases payload with
  | none => rfl
  | entry ins outs | call m ins outs x =>
    rw [refs, forall_mem_append] at h
    rw [mapIds, mapIds, map_congr_left h.1, map_congr_left h.2]
  | parameter _ i | merge i => rw [mapIds, mapIds, h i (mem_singleton_self i)]
  | switch default => rw [mapIds, mapIds, option_map_congr h]
  | tryCatch catches finallyPart =>
    rw [refs, forall_mem_append] at h
    rw [mapIds, mapIds, map_congr_left h.1, option_map_congr h.2]

theorem mapIds_eq_self (h : ∀ i ∈ payload.refs, f i = i) : payload.mapIds f = payload := by
  rw [mapIds_congr h]
  cases payload <;> simp [mapIds]

theorem refs_mapIds (payload : Payload) : (payload.mapIds f).refs = payload.refs.map f := by
  cases payload with
  | switch default => cases default <;> rfl
  | tryCatch catches finallyPart => cases finallyPart <;> simp [mapIds, refs]
  | _ => simp [mapIds, refs]

end Payload

theorem Edge.loopBack?_mapIds (e : Edge) : (e.mapIds f).loopBack? = e.loopBack?.map f := by
  obtain ⟨id, src, dst, label⟩ := e
  cases label <;> rfl

variable {ρ : Renaming}

theorem Node.rename_mapIds {n : Node} (hid : ρ.node (f n.id) = n.id)
    (hrefs : ∀ i ∈ n.payload.refs, ρ.node (f i) = i) : (n.mapIds f).rename ρ = n := by
  have hpayload : n.payload.mapIds (ρ.node ∘ f) = n.payload := Payload.mapIds_eq_self hrefs
  rw [rename, mapIds, mapIds, hid, Payload.mapIds_mapIds, hpayload]

theorem Edge.rename_mapIds {e : Edge} (hflow : e.isFlow = true) (hid : ρ.edge (f e.id) = e.id)
    (hsrc : ρ.node (f e.src) = e.src) (hdst : ρ.node (f e.dst) = e.dst)
    (hloop : ∀ l, e.loopBack? = some l → ρ.node (f l) = l) : (e.mapIds f).rename ρ = e := by
  obtain ⟨id, src, dst, label⟩ := e
  cases label with
  | plain sort => cases hflow
  | dependence sort var carrier => cases hflow
  | flow sort loop =>
    have hback : (loop.map f).map ρ.node = loop := by
      rw [Option.map_map]
      apply option_map_eq_self
      intro l hl
      exact hloop l (Option.mem_toList.1 hl)
    simp only [mapIds, rename, EdgeLabel.rename, EdgeLabel.mapIds] at hid hsrc hdst ⊢
    rw [hid, hsrc, hdst, hback]

end MapIds

/-! ## Renumbering -/

namespace Cfg

variable {ids : Table Id Id}

theorem newId_mem {i : Id} (hi : i ∈ ids.keys) : ids.find? i = some (ids.newId i) ∧
    (i, ids.newId i) ∈ ids.entries := by
  obtain ⟨e, he, hkey⟩ := mem_map.1 hi
  have hsome : (ids.entries.find? fun e => e.1 = i).isSome = true :=
    find?_isSome.2 ⟨e, he, decide_eq_true hkey⟩
  obtain ⟨d, hd⟩ := Option.isSome_iff_exists.1 hsome
  have hdkey : d.1 = i := by simpa using find?_some hd
  have hfind : ids.find? i = some d.2 := by rw [Table.find?, hd, Option.map_some]
  have hnew : ids.newId i = d.2 := by rw [Table.newId, hfind, Option.getD_some]
  refine ⟨by rw [hfind, hnew], ?_⟩
  rw [hnew, ← hdkey]
  exact mem_of_find?_eq_some hd

theorem mapped_eq {i : Id} (hi : i ∈ ids.keys) : mapped ids i = .ok (ids.newId i) := by
  rw [mapped, (newId_mem hi).1]

theorem mapM_mapped_eq {is : List Id} (his : ∀ i ∈ is, i ∈ ids.keys) :
    is.mapM (mapped ids) = .ok (is.map ids.newId) := by
  induction is with
  | nil => rfl
  | cons i is ih =>
    rw [forall_mem_cons] at his
    rw [mapM_cons, mapped_eq his.1, ih his.2]
    rfl

theorem mappedOption_eq {i : Option Id} (hi : ∀ j ∈ i.toList, j ∈ ids.keys) :
    mappedOption ids i = .ok (i.map ids.newId) := by
  cases i with
  | none => rfl
  | some i =>
    rw [mappedOption, mapped_eq (hi i (mem_singleton_self i))]
    rfl

/-- A payload is copied if all ids it names are known. -/
theorem renumberPayload_eq (h : ∀ i ∈ payload.refs, i ∈ ids.keys) :
    renumberPayload ids payload = .ok (payload.mapIds ids.newId) := by
  cases payload with
  | none => rfl
  | entry ins outs | call m ins outs x =>
    rw [Payload.refs, forall_mem_append] at h
    rw [renumberPayload, mapM_mapped_eq h.1, mapM_mapped_eq h.2]
    rfl
  | parameter _ i | merge i =>
    rw [renumberPayload, mapped_eq (h i (mem_singleton_self i))]
    rfl
  | switch default =>
    rw [renumberPayload, mappedOption_eq h]
    rfl
  | tryCatch catches finallyPart =>
    rw [Payload.refs, forall_mem_append] at h
    rw [renumberPayload, mapM_mapped_eq h.1, mappedOption_eq h.2]
    rfl

theorem renumberNode_eq {n : Node} (hid : n.id ∈ ids.keys) (hrefs : ∀ i ∈ n.payload.refs, i ∈ ids.keys)
    (hserial : n.serial = 0) : renumberNode ids n = .ok (n.mapIds ids.newId) := by
  rw [renumberNode, mapped_eq hid, renumberPayload_eq hrefs, ← hserial]
  rfl

theorem renumberEdge_eq {e : Edge} (hflow : e.isFlow = true) (hid : e.id ∈ ids.keys) (hsrc : e.src ∈ ids.keys)
    (hdst : e.dst ∈ ids.keys) (hloop : ∀ l, e.loopBack? = some l → l ∈ ids.keys) :
    renumberEdge ids e = .ok (e.mapIds ids.newId) := by
  obtain ⟨id, src, dst, label⟩ := e
  cases label with
  | plain sort => cases hflow
  | dependence sort var carrier => cases hflow
  | flow sort loop =>
    have hloop' : ∀ l ∈ loop.toList, l ∈ ids.keys := fun l hl => hloop l (Option.mem_toList.1 hl)
    simp only [renumberEdge, mappedOption_eq hloop', mapped_eq hid, mapped_eq hsrc, mapped_eq hdst]
    rfl

theorem ok_bind {α β : Type} (a : α) (f : α → Except Error β) : (Except.ok a >>= f) = f a := rfl

theorem foldlM_of_ok {α β γ : Type} {step : γ → β → Except Error γ} {renumber : α → Except Error β}
    {f : α → β} (xs : List α) (h : ∀ x ∈ xs, renumber x = .ok (f x)) (init : γ) :
    xs.foldlM (fun g x => do step g (← renumber x)) init = (xs.map f).foldlM step init := by
  induction xs generalizing init with
  | nil => rfl
  | cons x xs ih =>
    rw [forall_mem_cons] at h
    rw [foldlM_cons, h.1]
    congr 1
    funext g
    exact ih h.2 g

theorem exists_extended {g : Graph} (hg : g.Coherent) (hfrozen : g.frozen = false)
    (hempty : g.edges = []) {ns : List Node} {es : List Edge}
    (hnodes : (g.nodeIds ++ ns.map (·.id)).Nodup) (hedges : (es.map (·.id)).Nodup)
    (hends : ∀ e ∈ es, e.src ∈ g.nodeIds ++ ns.map (·.id) ∧ e.dst ∈ g.nodeIds ++ ns.map (·.id)) :
    ∃ k, (ns.foldlM (fun g n => do return (← addNode g n).1) g >>= fun k =>
        es.foldlM (fun g e => do return (← addEdge g e).1) k) = (.ok k : Except Error Graph) ∧
      k.Coherent ∧ k.nodes = g.nodes ++ ns ∧ k.edges = es := by
  obtain ⟨-, hns, hnew⟩ := nodup_append.1 hnodes
  obtain ⟨k, hfold, hknodes, hkedges, hkfrozen⟩ := foldlM_addNode_filter ns hfrozen hns
  rw [filter_not_mem_eq Node.id fun n hn hmem => hnew _ hmem _ (mem_map_of_mem hn) rfl] at hknodes
  have hids : k.nodeIds = g.nodeIds ++ ns.map (·.id) := by
    rw [nodeIds, hknodes, map_append]
    rfl
  obtain ⟨k', hfold', hknodes', hkedges', -⟩ := foldlM_addEdge_filter es hkfrozen hedges (by rwa [hids])
  have hk : k.Coherent := by
    apply foldlM_keeps _ ns hg hfold
    intro g n g' hg hstep
    obtain ⟨⟨g'', answer⟩, hadd, heq⟩ := ok_of_bind hstep
    cases heq
    exact hg.addNode hadd
  have hk' : k'.Coherent := by
    apply foldlM_keeps _ es hk hfold'
    intro g e g' hg hstep
    obtain ⟨⟨g'', answer⟩, hadd, heq⟩ := ok_of_bind hstep
    cases heq
    exact hg.addEdge hadd
  refine ⟨k', ?_, hk', hknodes'.trans hknodes, ?_⟩
  · rw [hfold]
    exact hfold'
  · rw [hkedges', hkedges, hempty, nil_append, filter_not_mem_eq Edge.id]
    exact fun e _ => not_mem_nil

theorem ofEnds_toGraph {numbering : Nat} {entry exit : Node} {name : String}
    (h : exit.id ∉ ((empty .flow).appendNode entry).nodeIds) :
    (ofEnds numbering entry exit name).toGraph = ((empty .flow).appendNode entry).appendNode exit := by
  have hhas : ((empty .flow).appendNode entry).hasNode exit.id = false := by
    rw [← Bool.not_eq_true, hasNode_iff]
    exact h
  simp only [ofEnds, hhas]
  rfl

/-- What makes up a flow graph that can be copied: entry and exit come first, ids stand in the order
in which they were drawn, and whatever is referred to is a node of the graph. -/
structure Copyable (c : Cfg) : Prop extends c.Orderly where
  ends : ∃ rest, c.nodes = c.entry :: c.exit :: rest
  nodes_lt : c.nodeIds.Pairwise (· < ·)
  edges_lt : (c.edges.map (·.id)).Pairwise (· < ·)
  apart : ∀ i ∈ c.nodeIds, i ∉ c.edges.map (·.id)
  refs : ∀ n ∈ c.nodes, ∀ i ∈ n.payload.refs, i ∈ c.nodeIds
  loops : ∀ e ∈ c.edges, ∀ l, e.loopBack? = some l → l ∈ c.nodeIds
  serial : ∀ n ∈ c.nodes, n.serial = 0
  blocks : c.blocks = none

/-- A flow graph has the nodes, the edges and the ends of another one under new ids, and no basic
blocks yet. -/
structure Renumbered (c c' : Cfg) (f : Id → Id) : Prop where
  coherent : c'.toGraph.Coherent
  nodes_eq : c'.nodes = c.nodes.map (·.mapIds f)
  edges_eq : c'.edges = c.edges.map (·.mapIds f)
  entry_eq : c'.entry = c.entry.mapIds f
  exit_eq : c'.exit = c.exit.mapIds f
  name_eq : c'.name = c.name
  unresolved_eq : c'.unresolved = c.unresolved
  blocks_eq : c'.blocks = none

namespace Copyable

variable {c : Cfg}

variable (h : c.Copyable)
include h

theorem filter_inner {rest : List Node} (hnodes : c.nodes = c.entry :: c.exit :: rest) :
    (c.nodes.filter fun n => n.id ≠ c.entry.id && n.id ≠ c.exit.id) = rest := by
  have hnodup := h.coherent.nodup_nodes
  rw [nodeIds, hnodes, map_cons, map_cons, nodup_cons, nodup_cons] at hnodup
  have hinner : ∀ n ∈ rest, n.id ≠ c.entry.id ∧ n.id ≠ c.exit.id := by
    intro n hn
    have hid : n.id ∈ rest.map (·.id) := mem_map_of_mem hn
    exact ⟨fun heq => hnodup.1 (mem_cons_of_mem _ (heq ▸ hid)), fun heq => hnodup.2.1 (heq ▸ hid)⟩
  rw [hnodes]
  simpa using hinner

theorem renumberNode_ok (hkeys : ids.keys = c.nodeIds ++ c.edges.map (·.id)) :
    ∀ n ∈ c.nodes, renumberNode ids n = .ok (n.mapIds ids.newId) := by
  have hnode : ∀ i ∈ c.nodeIds, i ∈ ids.keys := fun i hi => hkeys ▸ mem_append_left _ hi
  intro n hn
  exact renumberNode_eq (hnode _ (mem_map_of_mem hn)) (fun i hi => hnode i (h.refs n hn i hi)) (h.serial n hn)

theorem renumberEdge_ok (hkeys : ids.keys = c.nodeIds ++ c.edges.map (·.id)) :
    ∀ e ∈ c.edges, renumberEdge ids e = .ok (e.mapIds ids.newId) := by
  have hnode : ∀ i ∈ c.nodeIds, i ∈ ids.keys := fun i hi => hkeys ▸ mem_append_left _ hi
  intro e he
  apply renumberEdge_eq (h.flow e he)
  · rw [hkeys]
    exact mem_append_right _ (mem_map_of_mem he)
  · exact hnode _ (h.coherent.src_mem e he)
  · exact hnode _ (h.coherent.dst_mem e he)
  · intro l hl
    exact hnode l (h.loops e he l hl)

/-- The copied nodes and edges make a graph. -/
theorem exists_graph {f : Id → Id} {rest : List Node} (hnodes : c.nodes = c.entry :: c.exit :: rest)
    (hnodup : (c.nodeIds.map f).Nodup) (hedges : ((c.edges.map (·.id)).map f).Nodup) :
    ∃ k, ((rest.map (·.mapIds f)).foldlM (fun g n => do return (← addNode g n).1)
          (ofEnds c.numbering (c.entry.mapIds f) (c.exit.mapIds f) c.name).toGraph >>= fun k =>
        (c.edges.map (·.mapIds f)).foldlM (fun g e => do return (← addEdge g e).1) k) =
          (.ok k : Except Error Graph) ∧
      k.Coherent ∧ k.nodes = c.nodes.map (·.mapIds f) ∧ k.edges = c.edges.map (·.mapIds f) := by
  have hsplit : c.nodeIds.map f = [f c.entry.id, f c.exit.id] ++ (rest.map (·.mapIds f)).map (·.id) := by
    rw [nodeIds, hnodes, map_map, map_map]
    rfl
  have hinside : ∀ e ∈ c.edges.map (·.mapIds f), e.src ∈ c.nodeIds.map f ∧ e.dst ∈ c.nodeIds.map f := by
    rw [forall_mem_map]
    intro e he
    exact ⟨mem_map_of_mem (h.coherent.src_mem e he), mem_map_of_mem (h.coherent.dst_mem e he)⟩
  have hedges' : ((c.edges.map (·.mapIds f)).map (·.id)).Nodup := by
    rw [map_map] at hedges ⊢
    exact hedges
  rw [hsplit] at hnodup hinside
  have hapart : (c.exit.mapIds f).id ∉ ((empty .flow).appendNode (c.entry.mapIds f)).nodeIds := by
    intro hmem
    have heq : f c.entry.id = f c.exit.id := (mem_singleton.1 hmem).symm
    exact (nodup_cons.1 hnodup).1 (heq ▸ mem_cons_self)
  have hstart : (((empty .flow).appendNode (c.entry.mapIds f)).appendNode (c.exit.mapIds f)).Coherent :=
    ((coherent_empty .flow).appendNode not_mem_nil).appendNode hapart
  obtain ⟨k, hfold, hk, hknodes, hkedges⟩ := exists_extended hstart rfl rfl hnodup hedges' hinside
  refine ⟨k, ?_, hk, ?_, hkedges⟩
  · rw [ofEnds_toGraph hapart]
    exact hfold
  · rw [hknodes, hnodes]
    rfl

/-- Under a table of new ids that tells all nodes and edges apart, a flow graph is renumbered. -/
theorem renumber_ok (hkeys : ids.keys = c.nodeIds ++ c.edges.map (·.id))
    (hinj : ∀ i ∈ ids.keys, ∀ j ∈ ids.keys, ids.newId i = ids.newId j → i = j) :
    ∃ c', c.renumber ids = .ok c' ∧ c.Renumbered c' ids.newId := by
  obtain ⟨rest, hnodes⟩ := h.ends
  have hnodup : ∀ is : List Id, (∀ i ∈ is, i ∈ ids.keys) → is.Nodup → (is.map ids.newId).Nodup := by
    intro is hsub his
    apply List.Nodup.map_on _ his
    intro i hi j hj heq
    exact hinj i (hsub i hi) j (hsub j hj) heq
  obtain ⟨k, hfold, hk, hknodes, hkedges⟩ := h.exists_graph hnodes
    (hnodup _ (fun i hi => hkeys ▸ mem_append_left _ hi) h.coherent.nodup_nodes)
    (hnodup _ (fun i hi => hkeys ▸ mem_append_right _ hi) h.coherent.nodup_edges)
  obtain ⟨g, hothers, hedges⟩ := ok_of_bind hfold
  rw [← foldlM_of_ok rest (fun n hn => h.renumberNode_ok hkeys n
    (hnodes ▸ mem_cons_of_mem _ (mem_cons_of_mem _ hn)))] at hothers
  rw [← foldlM_of_ok c.edges (h.renumberEdge_ok hkeys)] at hedges
  refine ⟨{ ofEnds c.numbering (c.entry.mapIds ids.newId) (c.exit.mapIds ids.newId) c.name with
    toGraph := k, unresolved := c.unresolved }, ?_, ⟨hk, hknodes, hkedges, rfl, rfl, rfl, rfl, rfl⟩⟩
  rw [renumber, h.renumberNode_ok hkeys c.entry (hnodes ▸ mem_cons_self), ok_bind,
    h.renumberNode_ok hkeys c.exit (hnodes ▸ mem_cons_of_mem _ mem_cons_self), ok_bind, h.filter_inner hnodes]
  dsimp only
  rw [hothers, ok_bind, hedges]
  rfl

end Copyable

/-! ## The way back -/

/-- The new ids of a flow graph: those of the nodes from `next` on, and then those of the edges. -/
def idsFrom (c : Cfg) (next : Id) : Table Id Id :=
  ⟨numberedFrom next c.nodeIds ++ numberedFrom (next + c.nodeIds.length) (c.edges.map (·.id))⟩

variable {c : Cfg}

theorem keys_idsFrom (c : Cfg) (next : Id) : (c.idsFrom next).keys = c.nodeIds ++ c.edges.map (·.id) := by
  rw [idsFrom, Table.keys, map_append, map_fst_numberedFrom, map_fst_numberedFrom]

theorem bounds_idsFrom {next : Id} {e : Id × Id} (he : e ∈ (c.idsFrom next).entries) :
    next ≤ e.2 ∧ e.2 < next + c.nodeIds.length + (c.edges.map (·.id)).length := by
  rcases mem_append.1 he with he | he
  · have hbounds := bounds_of_mem_numberedFrom he
    grind
  · have hbounds := bounds_of_mem_numberedFrom he
    grind

theorem nodup_idsFrom (c : Cfg) (next : Id) : (c.idsFrom next).values.Nodup := by
  have hlt : (c.idsFrom next).entries.Pairwise fun d e => d.2 < e.2 := by
    rw [idsFrom, pairwise_append]
    refine ⟨pairwise_numberedFrom _ _, pairwise_numberedFrom _ _, fun d hd e he => ?_⟩
    have hfirst := bounds_of_mem_numberedFrom hd
    have hsecond := bounds_of_mem_numberedFrom he
    exact Int.lt_of_lt_of_le hfirst.2 hsecond.1
  exact (pairwise_map.2 hlt).imp fun h => Int.ne_of_lt h

theorem newId_inj (c : Cfg) (next : Id) : ∀ i ∈ (c.idsFrom next).keys, ∀ j ∈ (c.idsFrom next).keys,
    (c.idsFrom next).newId i = (c.idsFrom next).newId j → i = j := by
  intro i hi j hj heq
  have hsame := inj_on_of_nodup_map (nodup_idsFrom c next) (newId_mem hi).2 (newId_mem hj).2 heq
  exact congrArg Prod.fst hsame

theorem node_mem_keys {next i : Id} (hi : i ∈ c.nodeIds) : i ∈ (c.idsFrom next).keys :=
  keys_idsFrom c next ▸ mem_append_left _ hi

theorem edge_mem_keys {next i : Id} (hi : i ∈ c.edges.map (·.id)) : i ∈ (c.idsFrom next).keys :=
  keys_idsFrom c next ▸ mem_append_right _ hi

namespace Copyable

theorem nodup_keys (h : c.Copyable) : (c.nodeIds ++ c.edges.map (·.id)).Nodup := by
  rw [nodup_append]
  refine ⟨h.coherent.nodup_nodes, h.coherent.nodup_edges, fun i hi j hj heq => ?_⟩
  exact h.apart i hi (heq ▸ hj)

/-- Back from the ids of a copy to those of the graph. -/
def backward (h : c.Copyable) (next : Id) : Renaming where
  node := backTo c.nodeIds next
  edge := backTo (c.edges.map (·.id)) (next + c.nodeIds.length)
  node_lt _ _ hij := backTo_lt h.nodes_lt next hij
  edge_lt _ _ hij := backTo_lt h.edges_lt _ hij

theorem backward_node (h : c.Copyable) (next : Id) {i : Id} (hi : i ∈ c.nodeIds) :
    (h.backward next).node ((c.idsFrom next).newId i) = i := by
  rcases mem_append.1 (newId_mem (node_mem_keys hi)).2 with hmem | hmem
  · exact backTo_of_mem hmem
  · have hedge : i ∈ c.edges.map (·.id) := by
      rw [← map_fst_numberedFrom (next + c.nodeIds.length) (c.edges.map (·.id))]
      exact mem_map_of_mem hmem
    exact absurd hedge (h.apart i hi)

theorem backward_edge (h : c.Copyable) (next : Id) {i : Id} (hi : i ∈ c.edges.map (·.id)) :
    (h.backward next).edge ((c.idsFrom next).newId i) = i := by
  rcases mem_append.1 (newId_mem (edge_mem_keys hi)).2 with hmem | hmem
  · have hnode : i ∈ c.nodeIds := by
      rw [← map_fst_numberedFrom next c.nodeIds]
      exact mem_map_of_mem hmem
    exact absurd hi (h.apart i hnode)
  · exact backTo_of_mem hmem

end Copyable

theorem renamed_of_coherent {ρ : Renaming} {c' : Cfg} (hc : c.toGraph.Coherent) (hc' : c'.toGraph.Coherent)
    (hnodes : c'.nodes = c.nodes.map (·.rename ρ)) (hedges : c'.edges = c.edges.map (·.rename ρ))
    (hentry : c'.entry = c.entry.rename ρ) (hexit : c'.exit = c.exit.rename ρ) : Renamed ρ c c' where
  nodes_eq := hnodes
  edges_eq := hedges
  edgesOutOf_eq i := by
    rw [hc.edgesOutOf_eq, hc'.edgesOutOf_eq, hedges]
    apply filter_map_eq
    intro e
    simp only [Edge.rename_src, ρ.node_inj]
  edgesInto_eq i := by
    rw [hc.edgesInto_eq, hc'.edgesInto_eq, hedges]
    apply filter_map_eq
    intro e
    simp only [Edge.rename_dst, ρ.node_inj]
  entry_eq := hentry
  exit_eq := hexit

/-- A flow graph is the image of another one under a table of new ids, and so are its basic blocks. -/
structure CopiedTo (c c' : Cfg) (ids : Table Id Id) : Prop where
  keys_eq : ids.keys = c.nodeIds ++ c.edges.map (·.id)
  nodup_keys : ids.keys.Nodup
  nodup_values : ids.values.Nodup
  nodes_eq : c'.nodes = c.nodes.map (·.mapIds ids.newId)
  edges_eq : c'.edges = c.edges.map (·.mapIds ids.newId)
  entry_eq : c'.entry = c.entry.mapIds ids.newId
  exit_eq : c'.exit = c.exit.mapIds ids.newId
  name_eq : c'.name = c.name
  unresolved_eq : c'.unresolved = c.unresolved
  blocks_eq : ∃ bs bs', c.getBlocks = .ok ({ c with blocks := some bs }, bs) ∧
    c'.getBlocks = .ok ({ c' with blocks := some bs' }, bs') ∧ bs' = bs.map (·.mapIds ids.newId)

namespace Copyable

variable {c' : Cfg} {next : Id}

section

variable (h : c.Copyable)
include h

theorem newId_of_mem {e : Id × Id} (he : e ∈ (c.idsFrom next).entries) :
    (c.idsFrom next).newId e.1 = e.2 := by
  have hkeys : (c.idsFrom next).keys.Nodup := keys_idsFrom c next ▸ h.nodup_keys
  have hmem := (newId_mem (mem_map_of_mem he : e.1 ∈ (c.idsFrom next).keys)).2
  exact congrArg Prod.snd (inj_on_of_nodup_map hkeys hmem he rfl)

theorem map_newId_lt {first : Id} {olds : List Id}
    (hsub : numberedFrom first olds ⊆ (c.idsFrom next).entries) :
    (olds.map (c.idsFrom next).newId).Pairwise (· < ·) := by
  have hmap : olds.map (c.idsFrom next).newId = (numberedFrom first olds).map (·.2) := by
    conv_lhs => rw [← map_fst_numberedFrom first olds]
    rw [map_map]
    apply map_congr_left
    intro e he
    exact h.newId_of_mem (hsub he)
  rw [hmap]
  exact pairwise_map.2 (pairwise_numberedFrom first olds)

variable (hc : c.Renumbered c' (c.idsFrom next).newId)
include hc

/-- The original is the copy, renamed by the way back. -/
theorem renamed : Renamed (h.backward next) c' c := by
  have hnode : ∀ n ∈ c.nodes, (n.mapIds (c.idsFrom next).newId).rename (h.backward next) = n := by
    intro n hn
    apply Node.rename_mapIds
    · exact h.backward_node next (mem_map_of_mem hn)
    · intro i hi
      exact h.backward_node next (h.refs n hn i hi)
  have hedge : ∀ e ∈ c.edges, (e.mapIds (c.idsFrom next).newId).rename (h.backward next) = e := by
    intro e he
    apply Edge.rename_mapIds (h.flow e he)
    · exact h.backward_edge next (mem_map_of_mem he)
    · exact h.backward_node next (h.coherent.src_mem e he)
    · exact h.backward_node next (h.coherent.dst_mem e he)
    · intro l hl
      exact h.backward_node next (h.loops e he l hl)
  obtain ⟨rest, hsplit⟩ := h.ends
  apply renamed_of_coherent hc.coherent h.coherent
  · rw [hc.nodes_eq, map_map]
    exact ((map_congr_left hnode).trans (map_id _)).symm
  · rw [hc.edges_eq, map_map]
    exact ((map_congr_left hedge).trans (map_id _)).symm
  · rw [hc.entry_eq]
    exact (hnode _ (hsplit ▸ mem_cons_self)).symm
  · rw [hc.exit_eq]
    exact (hnode _ (hsplit ▸ mem_cons_of_mem _ mem_cons_self)).symm

theorem newId_backward :
    ∀ i ∈ c'.nodeIds, (c.idsFrom next).newId ((h.backward next).node i) = i := by
  intro i hi
  rw [nodeIds, hc.nodes_eq, map_map] at hi
  obtain ⟨n, hn, rfl⟩ := mem_map.1 hi
  exact congrArg _ (h.backward_node next (mem_map_of_mem hn))

theorem orderly : c'.Orderly where
  coherent := hc.coherent
  flow := by
    rw [hc.edges_eq, forall_mem_map]
    intro e he
    have hflow := h.flow e he
    obtain ⟨_, _, _, _ | _ | _⟩ := e
    · exact hflow
    · rfl
    · exact hflow
  start := by
    rw [hc.edges_eq, forall_mem_map, hc.entry_eq]
    intro e he heq
    obtain ⟨rest, hsplit⟩ := h.ends
    have hmem : c.entry.id ∈ c.nodeIds := mem_map_of_mem (hsplit ▸ mem_cons_self)
    exact h.start e he
      (newId_inj c next _ (node_mem_keys (h.coherent.dst_mem e he)) _ (node_mem_keys hmem) heq)

theorem blocks_copy : ∃ bs bs', c.getBlocks = .ok ({ c with blocks := some bs }, bs) ∧
    c'.getBlocks = .ok ({ c' with blocks := some bs' }, bs') ∧
    bs' = bs.map (·.mapIds (c.idsFrom next).newId) := by
  obtain ⟨bs, hblocks, hbs⟩ := (h.orderly hc).partition_ok
  have hblocks' := (h.renamed hc).partition_eq (h.orderly hc) h.toOrderly hblocks
  refine ⟨bs.map (.rename (h.backward next)), bs, ?_, ?_, ?_⟩
  · rw [getBlocks, h.blocks, hblocks']
    rfl
  · rw [getBlocks, hc.blocks_eq, hblocks]
    rfl
  · have hback := h.newId_backward hc
    have hsame : ∀ b ∈ bs, (b.rename (h.backward next)).mapIds (c.idsFrom next).newId = b := by
      intro b hb
      have hnodes : (b.nodes.map (h.backward next).node).map (c.idsFrom next).newId = b.nodes := by
        rw [map_map]
        apply map_eq_self
        intro i hi
        exact hback i ((hbs b hb).2 i hi)
      rw [Block.rename, Block.mapIds, Block.mapIds, hback _ (hbs b hb).1, hnodes]
    rw [map_map]
    exact ((map_congr_left hsame).trans (map_id _)).symm

/-- A copy can be copied. -/
theorem copied : c'.Copyable := by
  have hnodeIds : c'.nodeIds = c.nodeIds.map (c.idsFrom next).newId := by
    rw [nodeIds, nodeIds, hc.nodes_eq, map_map, map_map]
    rfl
  have hedgeIds : c'.edges.map (·.id) = (c.edges.map (·.id)).map (c.idsFrom next).newId := by
    rw [hc.edges_eq, map_map, map_map]
    rfl
  refine ⟨h.orderly hc, ?_, ?_, ?_, ?_, ?_, ?_, ?_, hc.blocks_eq⟩
  · obtain ⟨rest, hsplit⟩ := h.ends
    refine ⟨rest.map (·.mapIds (c.idsFrom next).newId), ?_⟩
    rw [hc.nodes_eq, hsplit, hc.entry_eq, hc.exit_eq, map_cons, map_cons]
  · rw [hnodeIds]
    exact h.map_newId_lt (subset_append_left _ _)
  · rw [hedgeIds]
    exact h.map_newId_lt (subset_append_right _ _)
  · rw [hnodeIds, hedgeIds]
    intro i hi hmem
    obtain ⟨a, ha, rfl⟩ := mem_map.1 hi
    obtain ⟨b, hb, heq⟩ := mem_map.1 hmem
    have hsame : b = a := newId_inj c next _ (edge_mem_keys hb) _ (node_mem_keys ha) heq
    exact h.apart a ha (hsame ▸ hb)
  · rw [hc.nodes_eq, forall_mem_map, hnodeIds]
    intro n hn i hi
    rw [Node.mapIds, Payload.refs_mapIds] at hi
    obtain ⟨j, hj, rfl⟩ := mem_map.1 hi
    exact mem_map_of_mem (h.refs n hn j hj)
  · rw [hc.edges_eq, forall_mem_map, hnodeIds]
    intro e he l hl
    rw [Edge.loopBack?_mapIds] at hl
    obtain ⟨j, hj, rfl⟩ := Option.map_eq_some_iff.1 hl
    exact mem_map_of_mem (h.loops e he j hj)
  · rw [hc.nodes_eq, forall_mem_map]
    exact h.serial

end

open Tracked in
/-- **A flow graph that can be copied is copied, and is the copy under the way back.** -/
theorem ends_copy {σ : Type} (h : c.Copyable) (p : σ × Trail) : Returns c.copy p
      fun r q => (q = (p.1, { p.2 with next := q.2.next }) ∧ c.CopiedTo r.1 r.2 ∧
          ∀ i ∈ r.2.values, p.2.next ≤ i ∧ i < q.2.next) ∧
        r.1.Copyable ∧ ∃ ρ, Renamed ρ r.1 c ∧ ∀ i ∈ r.1.nodeIds, r.2.newId (ρ.node i) = i := by
  have hstart : ((({} : Table Id Id)).keys ++ c.nodeIds).Nodup := h.coherent.nodup_nodes
  simp only [copy, ends_bind]
  refine (ends_drawIds c.nodeIds hstart p).imp ?_
  rintro ids q ⟨hids, hq⟩
  rw [nil_append] at hids
  have hkeys : (ids.keys ++ c.edges.map (·.id)).Nodup := by
    rw [hids, Table.keys, map_fst_numberedFrom]
    exact h.nodup_keys
  refine (ends_drawIds (c.edges.map (·.id)) hkeys q).imp ?_
  rintro ids' r ⟨hids', hr⟩
  have hall : ids' = c.idsFrom p.2.next := by
    rw [hids', hids, hq]
    rfl
  obtain ⟨c', hrenumber, hc⟩ := h.renumber_ok (keys_idsFrom c p.2.next) (newId_inj c p.2.next)
  rw [hall, hrenumber, ends_pure]
  refine ⟨⟨?_, ?_, ?_⟩, h.copied hc, h.backward p.2.next, h.renamed hc, h.newId_backward hc⟩
  · rw [hr, hq]
  · exact ⟨keys_idsFrom c _, keys_idsFrom c _ ▸ h.nodup_keys, nodup_idsFrom c _, hc.nodes_eq, hc.edges_eq,
      hc.entry_eq, hc.exit_eq, hc.name_eq, hc.unresolved_eq, h.blocks_copy hc⟩
  · intro i hi
    obtain ⟨e, he, rfl⟩ := mem_map.1 hi
    rw [hr, hq]
    exact bounds_idsFrom he

end Copyable

end Cfg

end ProgramDependence
