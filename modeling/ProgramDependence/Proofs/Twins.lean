import ProgramDependence.Proofs.SystemUnion
import ProgramDependence.Proofs.UnitImages

/-!
# Systems that grow alike

Two systems are twins if the second one is the image of the first one under a permutation of ids
(`SystemGraph.Twin`).  Parameter edges and summary edges are drawn where arguments, parameters and
results lie, and never look at the ids as such; so what is drawn in the first system is drawn in the
second one, and afterwards the permutation takes the new ids to the new ids
(`SystemGraph.GrowAlike`).
-/

namespace ProgramDependence

open List Table

open Tracked

/-! ## Runs side by side -/

namespace Tracked

variable {σ τ α β γ ε : Type}

/-- If the first construction returns, so does the second one, and how they end is related. -/
def Follows (x : Tracked σ α) (p : σ × Trail) (x' : Tracked τ β) (p' : τ × Trail)
    (good : α → σ × Trail → β → τ × Trail → Prop) : Prop :=
  Ends x p (fun a q => Returns x' p' fun b q' => good a q b q') fun _ _ => True

variable {x : Tracked σ α} {x' : Tracked τ β} {p : σ × Trail} {p' : τ × Trail}

variable {good : α → σ × Trail → β → τ × Trail → Prop}

theorem Follows.mono {good' : α → σ × Trail → β → τ × Trail → Prop} (h : Follows x p x' p' good)
    (hgood : ∀ a q b q', good a q b q' → good' a q b q') : Follows x p x' p' good' :=
  .partly h fun a q hq => hq.imp fun b q' => hgood a q b q'

theorem Follows.bind {mid : α → σ × Trail → β → τ × Trail → Prop}
    {good : γ → σ × Trail → ε → τ × Trail → Prop} {k : α → Tracked σ γ} {k' : β → Tracked τ ε}
    (h : Follows x p x' p' mid) (hk : ∀ a q b q', mid a q b q' → Follows (k a) q (k' b) q' good) :
    Follows (x >>= k) p (x' >>= k') p' good := by
  unfold Follows
  rw [ends_bind]
  apply Ends.partly h
  intro a q hq
  obtain ⟨b, q', hrun, hmid⟩ := hq.exists_run
  apply Ends.partly (hk a q b q' hmid)
  intro c r hr
  rw [returns_bind, ends_iff_of_run hrun]
  exact hr

theorem Follows.of_ends {left : α → σ × Trail → Prop} {right : β → τ × Trail → Prop}
    {bad : Error → σ × Trail → Prop} (h : Ends x p left bad) (h' : Returns x' p' right)
    (hgood : ∀ a q b q', left a q → right b q' → good a q b q') : Follows x p x' p' good :=
  h.partly fun a q hq => h'.imp fun b q' hq' => hgood a q b q' hq hq'

theorem Follows.and_ends {left : α → σ × Trail → Prop} {right : β → τ × Trail → Prop}
    {bad : Error → σ × Trail → Prop}
    {bad' : Error → τ × Trail → Prop} (h : Follows x p x' p' good) (hleft : Ends x p left bad)
    (hright : Ends x' p' right bad') : Follows x p x' p' fun a q b q' => good a q b q' ∧ left a q ∧
    right b q' := by
  apply Ends.partly (Ends.and h hleft)
  rintro a q ⟨hfollows, hq⟩
  apply (hfollows.and hright).mono _ fun _ _ hbad => hbad.1
  rintro b q' ⟨hgood, hq'⟩
  exact ⟨hgood, hq, hq'⟩

theorem Follows.within {υ : Type} {s s' : υ} {y : Tracked υ α} {y' : Tracked υ β}
    {good : α → υ × Trail → β → υ × Trail → Prop} (h : Follows y (s, p.2) y' (s', p'.2) good) :
    Follows (Tracked.within s y) p (Tracked.within s' y') p' fun a q b q' =>
      good a.1 (a.2, q.2) b.1 (b.2, q'.2) ∧ q.1 = p.1 ∧ q'.1 = p'.1 := by
  unfold Follows at h ⊢
  simp only [ends_within]
  apply h.partly
  intro a q hq
  apply hq.imp
  intro b q' hgood
  exact ⟨hgood, trivial, trivial⟩

end Tracked

namespace SystemGraph

/-! ## Images of systems -/

def mentions (g : SystemGraph) : List Id :=
  g.toGraph.mentions ++ (g.entries ++ (g.owner.keys ++ g.pdgs.values.flatMap Pdg.mentions))

/-- One system is another one under other ids: the same nodes, edges, entries, units and failures in
the same order. -/
structure Image (f : Id → Id) (g g' : SystemGraph) : Prop extends Graph.Image f g.toGraph g'.toGraph where
  name_eq : g'.name = g.name
  entries_eq : g'.entries = g.entries.map f
  pdgs : List.Forall₂ (fun a a' => a'.1 = a.1 ∧ a.2.Image f a'.2) g.pdgs.entries g'.pdgs.entries
  owner_eq : g'.owner = g.owner.rename f id
  failures_eq : g'.failures = g.failures

/-- An expanded call is another one under other ids. -/
structure Link.Image (f : Id → Id) (l l' : Link) : Prop where
  call_eq : l'.call = l.call.mapIds f
  caller : l.caller.Image f l'.caller
  callee : l.callee.Image f l'.callee

/-- The ids of what is made with the units of a system, and of the edges that it has besides. -/
def held (g : SystemGraph) : List Id :=
  (g.pdgs.values.flatMap Pdg.made ++ g.crossing).map Part.id

variable {g : SystemGraph}

theorem mentions_pdg {d : Pdg} (hd : d ∈ g.pdgs.values) : d.mentions ⊆ g.mentions := by
  intro i hi
  apply mem_append_right
  apply mem_append_right
  apply mem_append_right
  exact mem_flatMap.2 ⟨d, hd, hi⟩

theorem mentions_of_node {d : Pdg} (hd : d ∈ g.pdgs.values) {n : Node} (hn : n ∈ d.nodes) :
    n.mentions ⊆ g.mentions := by
  intro i hi
  exact mentions_pdg hd (d.mentions_graph (Graph.mentions_node hn hi))

theorem link?_expanded {P : Program} {call : Node} {m : MethodRef} {ins outs : List Id}
    (h : call.payload = .call m ins outs true) :
    g.link? P call = .ok ((g.pdgs.find? (P.methodName m)).bind fun callee =>
      (g.pdgOf? call.id).map fun caller => ⟨call, caller, callee⟩) := by
  rw [link?, h]
  dsimp only
  cases g.pdgs.find? (P.methodName m) with
  | none => rfl
  | some callee =>
    cases g.pdgOf? call.id with
    | none => rfl
    | some caller => rfl

namespace Image

variable {f f' : Id → Id} {g g' : SystemGraph} {P : Program} (h : Image f g g')
include h

theorem congr (hsame : ∀ i ∈ g.mentions, f' i = f i) : Image f' g g' := by
  have hpdg : ∀ a ∈ g.pdgs.entries, ∀ i ∈ a.2.mentions, f' i = f i := fun a ha i hi =>
    hsame i (mentions_pdg (mem_map_of_mem ha) hi)
  simp only [SystemGraph.mentions, forall_mem_append] at hsame
  obtain ⟨hgraph, hentries, howner, -⟩ := hsame
  refine ⟨h.toImage.congr hgraph, h.name_eq, ?_, ?_, ?_, h.failures_eq⟩
  · rw [h.entries_eq, map_congr_left hentries]
  · have hpairs := h.pdgs
    rw [forall₂_iff_get] at hpairs ⊢
    refine ⟨hpairs.1, fun i hi hi' => ?_⟩
    obtain ⟨hkey, himage⟩ := hpairs.2 i hi hi'
    exact ⟨hkey, himage.congr (hpdg _ (getElem_mem hi))⟩
  · rw [h.owner_eq, rename]
    congr 1
    apply map_congr_left
    intro a ha
    rw [howner a.1 (mem_map_of_mem ha)]

/-- What is listed for the units, one after the other, has the new ids if it has for each of them. -/
theorem flatMap_pdgs {ids : Pdg → List Id}
    (hids : ∀ {d d' : Pdg}, d.Image f d' → ids d' = (ids d).map f) :
    g'.pdgs.values.flatMap ids = (g.pdgs.values.flatMap ids).map f := by
  have hpairs : ∀ {as as' : List (String × Pdg)},
      List.Forall₂ (fun a a' => a'.1 = a.1 ∧ a.2.Image f a'.2) as as' →
        (as'.map (·.2)).flatMap ids = ((as.map (·.2)).flatMap ids).map f := by
    intro as as' hpairs
    induction hpairs with
    | nil => rfl
    | cons himage _ ih =>
      rw [map_cons, flatMap_cons, ih, hids himage.2, map_cons, flatMap_cons, map_append]
  exact hpairs h.pdgs

theorem mentions_eq : g'.mentions = g.mentions.map f := by
  have howner : g'.owner.keys = g.owner.keys.map f := by
    rw [h.owner_eq, Table.keys, Table.keys, Table.rename, map_map, map_map]
    rfl
  rw [SystemGraph.mentions, SystemGraph.mentions, h.toImage.mentions_eq, h.entries_eq, howner,
    h.flatMap_pdgs Pdg.Image.mentions_eq, map_append, map_append, map_append]

/-- The edges that an image has besides its units, and what is made with its units, have the new
ids. -/
theorem held_eq : g'.held = g.held.map f := by
  have hcrossing : Edge.isCrossing ∘ .mapIds f = Edge.isCrossing := by
    funext e
    rw [Function.comp_apply, Edge.isCrossing, Edge.isCrossing, Edge.mapIds_isSort, Edge.mapIds_isSort,
      Edge.mapIds_isSort]
  have hedges : g'.crossing.map Part.id = (g.crossing.map Part.id).map f := by
    rw [crossing, crossing, h.edges_eq, filter_map, hcrossing, map_map, map_map, map_map, map_map]
    rfl
  rw [held, held, map_append, map_append, map_append, hedges, map_flatMap, map_flatMap,
    h.flatMap_pdgs Pdg.Image.made_eq]

theorem keys_eq : g'.pdgs.keys = g.pdgs.keys := by
  have hkeys : List.Forall₂ (· = ·) g.pdgs.keys g'.pdgs.keys :=
    forall₂_map_left_iff.2 (forall₂_map_right_iff.2 (h.pdgs.imp fun _ _ hpair => hpair.1.symm))
  rw [forall₂_eq_eq_eq] at hkeys
  exact hkeys.symm

theorem find?_pdgs (key : String) :
    Option.Rel (Pdg.Image f) (g.pdgs.find? key) (g'.pdgs.find? key) := by
  have hfind : ∀ {as as' : List (String × Pdg)},
      List.Forall₂ (fun a a' => a'.1 = a.1 ∧ a.2.Image f a'.2) as as' →
        Option.Rel (Pdg.Image f) (Table.find? ⟨as⟩ key) (Table.find? ⟨as'⟩ key) := by
    intro as as' hpairs
    induction hpairs with
    | nil => exact .none
    | @cons a a' as as' himage _ ih =>
      simp only [Table.find?, find?_cons, himage.1] at ih ⊢
      cases decide (a.1 = key) with
      | true => exact .some himage.2
      | false => exact ih
  exact hfind h.pdgs

variable (hf : Function.Injective f)
include hf

theorem find?_owner (i : Id) : g'.owner.find? (f i) = g.owner.find? i := by
  rw [h.owner_eq, find?_rename hf.eq_iff, Option.map_id, id_eq]

theorem pdgOf?_rel (i : Id) : Option.Rel (Pdg.Image f) (g.pdgOf? i) (g'.pdgOf? (f i)) := by
  rw [pdgOf?, pdgOf?, h.find?_owner hf]
  cases g.owner.find? i with
  | none => exact .none
  | some key => exact h.find?_pdgs key

/-- The expanded call of a node has its image at the image of the node. -/
theorem link?_rel {call : Node} {r : Option Link} (hr : g.link? P call = .ok r) :
    ∃ r', g'.link? P (call.mapIds f) = .ok r' ∧ Option.Rel (Link.Image f) r r' ∧
      ∀ l ∈ r, l.caller ∈ g.pdgs.values ∧ l.callee ∈ g.pdgs.values ∧ l.call = call := by
  have hpair : ∀ {a a' b b' : Option Pdg}, Option.Rel (Pdg.Image f) a a' → Option.Rel (Pdg.Image f) b b' →
      Option.Rel (Link.Image f) (a.bind fun callee => b.map fun caller => ⟨call, caller, callee⟩)
        (a'.bind fun callee => b'.map fun caller => ⟨call.mapIds f, caller, callee⟩) := by
    intro a a' b b' ha hb
    cases ha with
    | none => exact .none
    | some hcallee =>
      cases hb with
      | none => exact .none
      | some hcaller => exact .some ⟨rfl, hcaller, hcallee⟩
  cases hpayload : call.payload with
  | call m ins outs x =>
    have hpayload' : (call.mapIds f).payload = .call m (ins.map f) (outs.map f) x := by
      rw [Node.mapIds_payload, hpayload]
      rfl
    cases x with
    | false =>
      rw [link?, hpayload] at hr
      rw [link?, hpayload']
      cases hr
      exact ⟨none, rfl, .none, by simp⟩
    | true =>
      rw [link?_expanded hpayload] at hr
      cases hr
      refine ⟨_, link?_expanded hpayload', hpair (h.find?_pdgs _) (h.pdgOf?_rel hf call.id), fun l hl => ?_⟩
      obtain ⟨callee, hcallee, hmap⟩ := Option.bind_eq_some_iff.1 hl
      obtain ⟨caller, hcaller, rfl⟩ := Option.map_eq_some_iff.1 hmap
      obtain ⟨key, -, hkey⟩ := Option.bind_eq_some_iff.1 hcaller
      exact ⟨mem_values_of_find? hkey, mem_values_of_find? hcallee, rfl⟩
  | _ =>
    rw [link?, hpayload] at hr
    cases hr

end Image

/-! ## Twins -/

/-- The second system is the image of the first one.  Both take new edges under ids that they do not
mention, and the first one mentions nothing but its parts. -/
structure Twin (f : Equiv.Perm Id) (p p' : SystemGraph × Trail) : Prop where
  image : p.1.Image f p'.1
  growing : p.1.toGraph.Growing p.2.next
  growing' : p'.1.toGraph.Growing p'.2.next
  below : ∀ i ∈ p.1.mentions, i < p.2.next
  below' : ∀ i ∈ p'.1.mentions, i < p'.2.next
  closed : p.1.mentions ⊆ p.1.held

/-- A later permutation agrees with the earlier one on what the system mentioned before. -/
structure Later (f f' : Equiv.Perm Id) (g h : SystemGraph) : Prop where
  same : ∀ i ∈ g.mentions, f' i = f i
  more : g.mentions ⊆ h.mentions

/-- Two constructions on twins do the same: if the first one returns, the second one returns the
same, and the systems are twins again. -/
def GrowAlike {α : Type} (f : Equiv.Perm Id) (p p' : SystemGraph × Trail)
    (x x' : Tracked SystemGraph α) : Prop :=
  Follows x p x' p' fun a q a' q' => a' = a ∧ ∃ f', Twin f' q q' ∧ Later f f' p.1 q.1

/-- Nodes that a system mentions with all they refer to. -/
def Knows (g : SystemGraph) (ns : List Node) : Prop :=
  ∀ n ∈ ns, n.mentions ⊆ g.mentions

namespace Later

variable {f f' f'' : Equiv.Perm Id} {g h k : SystemGraph} {ns : List Node}

theorem refl (f : Equiv.Perm Id) (g : SystemGraph) : Later f f g g :=
  ⟨fun _ _ => rfl, .refl _⟩

variable (hl : Later f f' g h)
include hl

theorem trans (hl' : Later f' f'' h k) : Later f f'' g k where
  same i hi := (hl'.same i (hl.more hi)).trans (hl.same i hi)
  more := List.Subset.trans hl.more hl'.more

theorem knows (hns : g.Knows ns) : h.Knows ns :=
  fun n hn => List.Subset.trans (hns n hn) hl.more

theorem mapIds_eq {n : Node} (hn : n.mentions ⊆ g.mentions) : n.mapIds f' = n.mapIds f :=
  Node.mapIds_congr fun i hi => hl.same i (hn hi)

theorem map_mapIds_eq (hns : g.Knows ns) : ns.map (Node.mapIds f') = ns.map (Node.mapIds f) :=
  map_congr_left fun n hn => hl.mapIds_eq (hns n hn)

end Later

namespace GrowAlike

variable {α β : Type} {f : Equiv.Perm Id} {p p' : SystemGraph × Trail}

theorem pure (h : Twin f p p') (a : α) : GrowAlike f p p' (Pure.pure a) (Pure.pure a) :=
  ⟨rfl, f, h, .refl f p.1⟩

/-- What is done next may use the later permutation. -/
theorem bind {x x' : Tracked SystemGraph α} {k k' : α → Tracked SystemGraph β} (hx : GrowAlike f p p' x x')
    (hk : ∀ a {q q' f'}, Twin f' q q' → Later f f' p.1 q.1 → GrowAlike f' q q' (k a) (k' a)) :
    GrowAlike f p p' (x >>= k) (x' >>= k') := by
  apply Follows.bind hx
  rintro a q _ q' ⟨rfl, f', htwin, hlater⟩
  apply (hk _ htwin hlater).mono
  rintro b r b' r' ⟨heq, f'', htwin', hlater'⟩
  exact ⟨heq, f'', htwin', hlater.trans hlater'⟩

theorem read {k k' : SystemGraph → Tracked SystemGraph β} (hk : GrowAlike f p p' (k p.1) (k' p'.1)) :
    GrowAlike f p p' (Tracked.state >>= k) (Tracked.state >>= k') := by
  unfold GrowAlike Follows at hk ⊢
  simpa only [ends_bind, ends_state] using hk

/-- An answer that may be an error is lifted; an error of the first construction need not be
followed. -/
theorem lift_bind {a : Except Error α} {a' : Except Error β} {γ : Type} {k : α → Tracked SystemGraph γ}
    {k' : β → Tracked SystemGraph γ} (hk : ∀ x, a = .ok x → ∃ y, a' = .ok y ∧ GrowAlike f p p' (k x) (k' y)) :
    GrowAlike f p p' (lift a >>= k) (lift a' >>= k') := by
  cases a with
  | error e => trivial
  | ok x =>
    obtain ⟨y, rfl, hgrow⟩ := hk x rfl
    exact hgrow

theorem lift_map {a : Except Error α} {a' : Except Error β} {γ : Type}
    {k : α → Tracked SystemGraph γ} {k' : β → Tracked SystemGraph γ} {u : α → β} {good : α → Prop}
    (ha : ∀ {x}, a = .ok x → a' = .ok (u x) ∧ good x) (hk : ∀ x, good x → GrowAlike f p p' (k x) (k' (u x))) :
    GrowAlike f p p' (lift a >>= k) (lift a' >>= k') :=
  lift_bind fun x hx => ⟨u x, (ha hx).1, hk x (ha hx).2⟩

end GrowAlike

/-! ## Drawing an edge -/

def withEdge (g : SystemGraph) (e : Edge) : SystemGraph :=
  { g with toGraph := g.toGraph.appendEdge e }

theorem mem_mentions_withEdge {e : Edge} {i : Id} : i ∈ (g.withEdge e).mentions ↔ i ∈ g.mentions ∨
    i ∈ e.mentions := by
  simp only [mentions, Graph.mentions, withEdge, Graph.appendEdge, mem_append, flatMap_append,
    flatMap_singleton]
  tauto

theorem nodeIds_subset_mentions (g : SystemGraph) : g.nodeIds ⊆ g.mentions :=
  subset_append_of_subset_left _ g.toGraph.nodeIds_subset_mentions

theorem knows_callNodes (g : SystemGraph) : g.Knows g.callNodes := by
  intro n hn
  exact subset_append_of_subset_left _ (Graph.mentions_node (mem_filter.1 hn).1)

theorem knows_of_subset {d : Pdg} {ns : List Node} (hd : d ∈ g.pdgs.values) (hns : ns ⊆ d.nodes) :
    g.Knows ns :=
  fun _ hn => mentions_of_node hd (hns hn)

theorem reaching_subset {d : Pdg} (hd : d ∈ g.pdgs.values) (hg : g.toGraph.Coherent) {target : Id}
    (htarget : target ∈ d.nodeIds) : g.reaching d.nodeIds target ⊆ g.mentions := by
  have hmentions : d.nodeIds ⊆ g.mentions := fun i hi =>
    mentions_pdg hd (d.mentions_graph (d.toGraph.nodeIds_subset_mentions hi))
  intro i hi
  rcases ((mem_reaching_iff hg).1 hi).cases_tail with rfl | ⟨_, -, -, hinside⟩
  · exact hmentions htarget
  · exact hmentions hinside

theorem held_withEdge (g : SystemGraph) {e : Edge} (he : e.isCrossing = true) :
    (g.withEdge e).held = g.held ++ [e.id] := by
  rw [held, held, crossing]
  simp only [withEdge, Graph.appendEdge, filter_append, filter_cons_of_pos he, map_append, append_assoc]
  rfl

variable {f : Equiv.Perm Id} {p p' : SystemGraph × Trail} {P : Program}

namespace Twin

variable (h : Twin f p p')
variable {sort : DependenceSort}
include h

/-- **An edge that is drawn in both systems leaves them twins:** the new id is taken to the new id. -/
theorem withEdge {src dst : Id} (hsrc : src ∈ p.1.nodeIds) (hdst : dst ∈ p.1.nodeIds) {v : Option Variable}
    (hcrossing : Edge.isCrossing ⟨p.2.next, src, dst, .dependence sort v none⟩ = true) :
    ∃ f',
    Twin f' (p.1.withEdge ⟨p.2.next, src, dst, .dependence sort v none⟩, { p.2 with next := p.2.next + 1 })
        (p'.1.withEdge ⟨p'.2.next, f src, f dst, .dependence sort v none⟩,
        { p'.2 with next := p'.2.next + 1 }) ∧
      Later f f' p.1 (p.1.withEdge ⟨p.2.next, src, dst, .dependence sort v none⟩) := by
  obtain ⟨f', hsame, hnew⟩ := exists_extension f (fun _ => p'.2.next) [p.2.next] p.1.mentions
    (nodup_singleton _)
    (fun i hi hmem => Int.ne_of_lt (h.below i hi) (mem_singleton.1 hmem))
    (fun i hi hmem => by
      have hmention : f i ∈ p'.1.mentions := by
        rw [h.image.mentions_eq]
        exact mem_map_of_mem hi
      exact Int.ne_of_lt (h.below' _ hmention) (mem_singleton.1 hmem))
  replace hnew := hnew _ (mem_singleton_self _)
  have hends : ∀ {q : SystemGraph × Trail} {i j : Id}, (∀ k ∈ q.1.mentions, k < q.2.next) → i ∈ q.1.nodeIds →
      j ∈ q.1.nodeIds → ∀ k ∈ (q.1.withEdge ⟨q.2.next, i, j, .dependence sort v none⟩).mentions,
        k < q.2.next + 1 := by
    intro q i j hbelow hi hj k hk
    rcases mem_mentions_withEdge.1 hk with hk | hk
    · exact Int.lt_trans (hbelow k hk) (Int.lt_succ _)
    · simp only [Edge.mentions, EdgeLabel.refs, Option.toList_none, mem_cons, not_mem_nil, or_false] at hk
      rcases hk with rfl | rfl | rfl
      · exact Int.lt_succ _
      · exact Int.lt_trans (hbelow _ (nodeIds_subset_mentions _ hi)) (Int.lt_succ _)
      · exact Int.lt_trans (hbelow _ (nodeIds_subset_mentions _ hj)) (Int.lt_succ _)
  have hsrc' : f src ∈ p'.1.nodeIds := by
    rw [h.image.nodeIds_eq]
    exact mem_map_of_mem hsrc
  have hdst' : f dst ∈ p'.1.nodeIds := by
    rw [h.image.nodeIds_eq]
    exact mem_map_of_mem hdst
  have himage := h.image.congr hsame
  refine ⟨f', ⟨⟨⟨himage.frame_eq, himage.nodes_eq, ?_⟩, himage.name_eq, himage.entries_eq, himage.pdgs,
    himage.owner_eq, himage.failures_eq⟩, h.growing.appendEdge hsrc hdst _, h.growing'.appendEdge
    hsrc' hdst' _,
    hends h.below hsrc hdst, hends h.below' hsrc' hdst', ?_⟩, hsame, fun i hi =>
    mem_mentions_withEdge.2 (.inl hi)⟩
  · simp only [SystemGraph.withEdge, Graph.appendEdge, map_append, himage.edges_eq, map_cons, Edge.mapIds,
      hnew, hsame src (nodeIds_subset_mentions _ hsrc), hsame dst (nodeIds_subset_mentions _ hdst)]
    rfl
  · intro i hi
    rw [held_withEdge _ hcrossing]
    rcases mem_mentions_withEdge.1 hi with hi | hi
    · exact mem_append_left _ (h.closed hi)
    · simp only [Edge.mentions, EdgeLabel.refs, Option.toList_none, mem_cons, not_mem_nil, or_false] at hi
      rcases hi with rfl | rfl | rfl
      · exact mem_append_right _ (mem_singleton_self _)
      · exact mem_append_left _ (h.closed (nodeIds_subset_mentions _ hsrc))
      · exact mem_append_left _ (h.closed (nodeIds_subset_mentions _ hdst))

/-- A dependence is added to both systems or to neither. -/
theorem growAlike_addDependence (src dst : Id) (v : Option Variable) (hsort : sort.isInner = false) :
    GrowAlike f p p' (addDependence src dst sort v) (addDependence (f src) (f dst) sort v) := by
  have hnew : ∀ {q : SystemGraph × Trail} (i j : Id), q.1.toGraph.Growing q.2.next →
      q.1.addEdge ⟨q.2.next, i, j, .dependence sort v none⟩ =
        if q.1.hasNode i && q.1.hasNode j then
          .ok (q.1.appendEdge ⟨q.2.next, i, j, .dependence sort v none⟩, true)
        else .error (.danglingEdge ⟨q.2.next, i, j, .dependence sort v none⟩) := by
    intro q i j hgrowing
    simp only [Graph.addEdge, Graph.checkMutable, hgrowing.unfrozen, Graph.hasEdge_eq_false hgrowing.not_mem]
    rfl
  have hcrossing : Edge.isCrossing ⟨p.2.next, src, dst, .dependence sort v none⟩ = true := by
    rw [Edge.isCrossing_eq, Edge.isInner]
    simp only [Edge.dependenceSort?, Option.all_some, hsort, Bool.not_false]
  unfold GrowAlike Follows
  simp only [addDependence, ends_bind, ends_freshId, ends_attempt, hnew _ _ h.growing, hnew _ _ h.growing']
  by_cases hends : src ∈ p.1.nodeIds ∧ dst ∈ p.1.nodeIds
  · have hends' : f src ∈ p'.1.nodeIds ∧ f dst ∈ p'.1.nodeIds := by
      rw [h.image.nodeIds_eq]
      exact ⟨mem_map_of_mem hends.1, mem_map_of_mem hends.2⟩
    simp only [(Graph.hasNode_iff _ _).2 hends.1, (Graph.hasNode_iff _ _).2 hends.2,
      (Graph.hasNode_iff _ _).2 hends'.1, (Graph.hasNode_iff _ _).2 hends'.2]
    exact ⟨trivial, h.withEdge hends.1 hends.2 hcrossing⟩
  · rw [if_neg]
    · trivial
    · simpa [Graph.hasNode_iff] using hends

theorem isLinked_eq (src dst : Id) (sort : DependenceSort) :
    p'.1.isLinked (f src) (f dst) sort = p.1.isLinked src dst sort := by
  rw [isLinked, isLinked, h.image.toImage.edgesOutOf_eq f.injective h.growing.coherent
    h.growing'.coherent, any_map]
  simp only [Function.comp_def, Edge.mapIds_dst, Edge.mapIds_isSort, f.injective.eq_iff]

theorem growAlike_addOnce (src dst : Id) (v : Option Variable) (hsort : sort.isInner = false) :
    GrowAlike f p p' (addOnce src dst sort v) (addOnce (f src) (f dst) sort v) := by
  apply GrowAlike.read
  rw [h.isLinked_eq]
  cases p.1.isLinked src dst sort with
  | true => exact .pure h ()
  | false => exact h.growAlike_addDependence src dst v hsort

end Twin

/-! ## Parameter edges -/

theorem receiver?_map (k : Node → Node) (formals : List Node) (position : Nat) :
    receiver? (formals.map k) position = (receiver? formals position).map k := by
  rw [receiver?, receiver?, length_map, getElem?_map]

namespace Twin

theorem growAlike_connectArguments (h : Twin f p p') {formals ains : List Node} (hformals : p.1.Knows formals)
    (hains : p.1.Knows ains) (position : Nat) : GrowAlike f p p' (connectArguments formals position ains)
      (connectArguments (formals.map (Node.mapIds f)) position (ains.map (Node.mapIds f))) := by
  induction ains generalizing f p p' position with
  | nil => exact .pure h ()
  | cons ain rest ih =>
    obtain ⟨-, hrest⟩ := forall_mem_cons.1 hains
    rw [map_cons, connectArguments, connectArguments, receiver?_map]
    cases receiver? formals position with
    | none => exact ih h hformals hrest (position + 1)
    | some fin =>
      apply (h.growAlike_addOnce ain.id fin.id fin.uses.head? rfl).bind
      intro _ q q' f' htwin hlater
      rw [← hlater.map_mapIds_eq hformals, ← hlater.map_mapIds_eq hrest]
      exact ih htwin (hlater.knows hformals) (hlater.knows hrest) (position + 1)

theorem growAlike_connectResult (h : Twin f p p') (outs : List Node) (result : Option Node) :
    GrowAlike f p p' (connectResult outs result)
      (connectResult (outs.map (Node.mapIds f)) (result.map (Node.mapIds f))) := by
  cases outs with
  | nil => exact .pure h ()
  | cons fout outs =>
    cases result with
    | none => exact .pure h ()
    | some aout => exact h.growAlike_addOnce fout.id aout.id fout.defs.head? rfl

/-- **A call is joined to its callee in both systems.** -/
theorem growAlike_connectCall (h : Twin f p p') {l l' : Link} (hl : l.Image f l')
    (hcaller : l.caller ∈ p.1.pdgs.values) (hcallee : l.callee ∈ p.1.pdgs.values) :
    GrowAlike f p p' (connectCall l) (connectCall l') := by
  rw [connectCall, connectCall, hl.call_eq]
  refine .lift_map (hl.callee.formalIns_eq f.injective) fun ins hmem => ?_
  -- What remains to be done once the arguments are joined.
  have hrest : ∀ {q q' f'}, Twin f' q q' → Later f f' p.1 q.1 → GrowAlike f' q q'
      (do connectResult (← lift l.callee.formalOuts) (← lift (l.caller.returnActualOut l.call)))
      (do
        connectResult (← lift l'.callee.formalOuts)
          (← lift (l'.caller.returnActualOut (l.call.mapIds f)))) := by
    intro q q' f' htwin hlater
    refine .lift_map (hl.callee.formalOuts_eq f.injective) fun outs hmem => ?_
    refine .lift_map (hl.caller.returnActualOut_eq f.injective) fun result hmem' => ?_
    have hmap : result.map (Node.mapIds f') = result.map (Node.mapIds f) := by
      apply Option.map_congr
      intro n hn
      exact hlater.mapIds_eq (mentions_of_node hcaller (hmem' n hn))
    rw [← hlater.map_mapIds_eq (knows_of_subset hcallee hmem), ← hmap]
    exact htwin.growAlike_connectResult outs result
  rw [isEmpty_map]
  cases ins.isEmpty with
  | true => exact hrest h (.refl f p.1)
  | false =>
    refine .lift_map (hl.caller.actualIns_eq f.injective) fun ains hmem' => ?_
    apply (h.growAlike_connectArguments (knows_of_subset hcallee hmem) (knows_of_subset hcaller hmem') 0).bind
    intro _ q q' f' htwin hlater
    exact hrest htwin hlater

/-- **The calls of both systems are joined to their callees.** -/
theorem growAlike_connectCalls (h : Twin f p p') {calls : List Node} (hcalls : p.1.Knows calls) :
    GrowAlike f p p' (connectCalls P calls) (connectCalls P (calls.map (Node.mapIds f))) := by
  induction calls generalizing f p p' with
  | nil => exact .pure h ()
  | cons call rest ih =>
    obtain ⟨-, hrest⟩ := forall_mem_cons.1 hcalls
    rw [map_cons, connectCalls, connectCalls]
    apply GrowAlike.read
    apply GrowAlike.lift_bind
    intro r hr
    obtain ⟨r', hr', hrel, hmem⟩ := h.image.link?_rel f.injective hr
    refine ⟨r', hr', ?_⟩
    cases hrel with
    | none => exact ih h hrest
    | some himage =>
      obtain ⟨hcaller, hcallee, -⟩ := hmem _ rfl
      apply (h.growAlike_connectCall himage hcaller hcallee).bind
      intro _ q q' f' htwin hlater
      rw [← hlater.map_mapIds_eq hrest]
      exact ih htwin (hlater.knows hrest)

/-! ## Summary edges -/

variable (h : Twin f p p')
include h

/-- Values reach the image of a node from the images of the nodes they come from. -/
theorem reaching_eq (inside : List Id) (target : Id) :
    p'.1.reaching (inside.map f) (f target) = (p.1.reaching inside target).map f := by
  have hintra : ∀ e : Edge, isIntra (e.mapIds f) = isIntra e := by
    intro e
    rw [isIntra, isIntra, Edge.mapIds_dependenceSort?]
  have hnext : ∀ i, (p'.1.neighbours false isIntra (f i)).filter (inside.map f).contains =
      ((p.1.neighbours false isIntra i).filter inside.contains).map f := by
    intro i
    rw [h.image.toImage.neighbours_eq f.injective h.growing.coherent h.growing'.coherent hintra]
    exact filter_map_eq (fun j => contains_map f.injective.eq_iff inside j) _
  rw [reaching, h.image.edges_eq, length_map]
  exact Search.reach_map f.injective.eq_iff hnext _ [target]

theorem growAlike_summarizeArguments (formals : List Node) (sources : List Id) {result : Id}
    (hformals : p.1.Knows formals) (hsources : sources ⊆ p.1.mentions)
    (hresult : result ∈ p.1.mentions) {ains : List Node} (hains : p.1.Knows ains) (position : Nat) :
    GrowAlike f p p' (summarizeArguments formals sources result position ains)
      (summarizeArguments (formals.map (Node.mapIds f)) (sources.map f) (f result) position
        (ains.map (Node.mapIds f))) := by
  induction ains generalizing f p p' position with
  | nil => exact .pure h 0
  | cons ain rest ih =>
    obtain ⟨-, hrest⟩ := forall_mem_cons.1 hains
    have hflows : ((receiver? formals position).map (Node.mapIds f)).any
        (fun fin => (sources.map f).contains fin.id) =
        (receiver? formals position).any fun fin => sources.contains fin.id := by
      rw [Option.any_map]
      congr 1
      funext fin
      exact contains_map f.injective.eq_iff sources fin.id
    rw [map_cons, summarizeArguments, summarizeArguments, receiver?_map, hflows]
    apply GrowAlike.read
    rw [Node.mapIds_id, h.isLinked_eq]
    split
    · apply (h.growAlike_addDependence ain.id result ain.defs.head? rfl).bind
      intro _ q q' f' htwin hlater
      have hsame : sources.map f' = sources.map f := map_congr_left fun i hi => hlater.same i (hsources hi)
      rw [← hlater.map_mapIds_eq hformals, ← hlater.map_mapIds_eq hrest, ← hsame, ← hlater.same
        result hresult]
      apply (ih htwin (hlater.knows hformals) (List.Subset.trans hsources hlater.more) (hlater.more hresult)
        (hlater.knows hrest) (position + 1)).bind
      intro n r r' f'' htwin' _
      exact .pure htwin' (1 + n)
    · exact ih h hformals hsources hresult hrest (position + 1)

/-- **The summary edges of a call are added in both systems.** -/
theorem growAlike_summarizeCall {l l' : Link} (hl : l.Image f l') (hcaller : l.caller ∈ p.1.pdgs.values)
    (hcallee : l.callee ∈ p.1.pdgs.values) : GrowAlike f p p' (summarizeCall l) (summarizeCall l') := by
  rw [summarizeCall, summarizeCall, hl.call_eq]
  refine .lift_map (hl.caller.returnActualOut_eq f.injective) fun result hresultMem => ?_
  refine .lift_map (hl.callee.formalOuts_eq f.injective) fun outs houtsMem => ?_
  refine .lift_map (hl.callee.formalIns_eq f.injective) fun ins hinsMem => ?_
  cases result with
  | none => exact .pure h 0
  | some aout =>
    cases outs with
    | nil => exact .pure h 0
    | cons fout outs =>
      cases ins with
      | nil => exact .pure h 0
      | cons fin ins =>
        apply GrowAlike.read
        refine .lift_map (hl.caller.actualIns_eq f.injective) fun ains hainsMem => ?_
        rw [hl.callee.nodeIds_eq, Node.mapIds_id, h.reaching_eq]
        apply h.growAlike_summarizeArguments _ _ (knows_of_subset hcallee hinsMem) _ _
          (knows_of_subset hcaller hainsMem)
        · exact reaching_subset hcallee h.growing.coherent (mem_map_of_mem (houtsMem mem_cons_self))
        · exact mentions_of_node hcaller (hresultMem aout rfl) mem_cons_self

/-- **The summary edges of some calls are added in both systems.** -/
theorem growAlike_summarizeCalls {calls : List Node} (hcalls : p.1.Knows calls) :
    GrowAlike f p p' (summarizeCalls P calls) (summarizeCalls P (calls.map (Node.mapIds f))) := by
  induction calls generalizing f p p' with
  | nil => exact .pure h 0
  | cons call rest ih =>
    obtain ⟨-, hrest⟩ := forall_mem_cons.1 hcalls
    have hgo : ∀ (added : Nat) {q q' f'}, Twin f' q q' → Later f f' p.1 q.1 →
        GrowAlike f' q q' (do return added + (← summarizeCalls P rest))
          (do return added + (← summarizeCalls P (rest.map (.mapIds f)))) := by
      intro added q q' f' htwin hlater
      rw [← hlater.map_mapIds_eq hrest]
      apply (ih htwin (hlater.knows hrest)).bind
      intro n r r' f'' htwin' _
      exact .pure htwin' (added + n)
    rw [map_cons, summarizeCalls, summarizeCalls]
    apply GrowAlike.read
    apply GrowAlike.lift_bind
    intro r hr
    obtain ⟨r', hr', hrel, hmem⟩ := h.image.link?_rel f.injective hr
    refine ⟨r', hr', ?_⟩
    cases hrel with
    | none => exact hgo 0 h (.refl f p.1)
    | some himage =>
      obtain ⟨hcaller, hcallee, -⟩ := hmem _ rfl
      apply (h.growAlike_summarizeCall himage hcaller hcallee).bind
      intro added q q' f' htwin hlater
      exact hgo added htwin hlater

theorem growAlike_summarizeRounds (fuel : Nat) :
    GrowAlike f p p' (summarizeRounds P fuel) (summarizeRounds P fuel) := by
  induction fuel generalizing f p p' with
  | zero => exact .pure h 0
  | succ fuel ih =>
    apply GrowAlike.read
    rw [h.image.toImage.callNodes_eq]
    apply (h.growAlike_summarizeCalls (knows_callNodes p.1)).bind
    intro added q q' f' htwin _
    split
    · exact .pure htwin 0
    · apply (ih htwin).bind
      intro n r r' f'' htwin' _
      exact .pure htwin' (added + n)

theorem argumentCount_eq : p'.1.argumentCount = p.1.argumentCount := by
  rw [argumentCount, argumentCount, h.image.toImage.callNodes_eq, flatMap_map, length_flatMap, length_flatMap]
  congr 1
  apply map_congr_left
  intro n _
  rw [Node.mapIds_payload]
  cases n.payload with
  | call m ins outs x => exact length_map _
  | _ => rfl

/-- **The summary edges are added in both systems,** as often. -/
theorem growAlike_addSummaries : GrowAlike f p p' (addSummaries P) (addSummaries P) := by
  apply GrowAlike.read
  rw [h.argumentCount_eq, h.image.edges_eq, length_map]
  exact h.growAlike_summarizeRounds _

end Twin

end SystemGraph

end ProgramDependence
