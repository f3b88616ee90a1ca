import ProgramDependence.Proofs.Operations
import ProgramDependence.Proofs.SingleEdges
import ProgramDependence.System.Build

/-!
# How a system is put together

A system takes in dependence graphs that were built one after the other and so have no id in common
(`Pdg.Collection`).  Its nodes are those of its units; its edges are those of its units, and
parameter edges that join the arguments of each expanded call to the parameters that receive them
and the value its callee returns to its result (`SystemGraph.Composed`).  A cache whose graphs form
a collection keeps doing so.
-/

namespace ProgramDependence

open List Table

namespace Table

variable {κ β : Type} [DecidableEq κ]

theorem find?_eq_some_iff {t : Table κ β} (h : t.keys.Nodup) {k : κ} {v : β} :
    t.find? k = some v ↔ (k, v) ∈ t.entries := by
  constructor
  · intro hfind
    obtain ⟨e, he, rfl⟩ := Option.map_eq_some_iff.1 hfind
    have hk : e.1 = k := by simpa using find?_some he
    rw [← hk]
    exact mem_of_find?_eq_some he
  · intro hmem
    obtain ⟨e, he⟩ : ∃ e, t.entries.find? (fun e => e.1 = k) = some e :=
      Option.isSome_iff_exists.1 (find?_isSome.2 ⟨(k, v), hmem, by simp⟩)
    have hk : e.1 = k := by simpa using find?_some he
    have heq := inj_on_of_nodup_map h (mem_of_find?_eq_some he) hmem hk
    rw [find?, he, heq]
    rfl

theorem entries_insert_of_not_contains {t : Table κ β} {k : κ} (h : t.contains k = false) (v : β) :
    (t.insert k v).entries = t.entries ++ [(k, v)] := by
  rw [insert, if_neg (by simp [h])]

theorem values_insert_subset (t : Table κ β) (k : κ) (v : β) : (t.insert k v).values ⊆ v :: t.values := by
  intro w hw
  obtain ⟨e, he, rfl⟩ := mem_map.1 hw
  unfold insert at he
  split at he
  · obtain ⟨e', he', rfl⟩ := mem_map.1 he
    split
    · exact mem_cons_self
    · exact mem_cons_of_mem _ (mem_map_of_mem he')
  · rcases mem_append.1 he with he | he
    · exact mem_cons_of_mem _ (mem_map_of_mem he)
    · rw [mem_singleton.1 he]
      exact mem_cons_self

theorem mem_values_of_find? {t : Table κ β} {k : κ} {v : β} (h : t.find? k = some v) : v ∈ t.values := by
  obtain ⟨e, he, rfl⟩ := Option.map_eq_some_iff.1 h
  exact mem_map_of_mem (mem_of_find?_eq_some he)

theorem mem_values_insert (t : Table κ β) (k : κ) (v : β) : v ∈ (t.insert k v).values :=
  mem_values_of_find? (by rw [find?_insert, if_pos rfl])

theorem find?_foldl_insert (t : Table κ β) (ks : List κ) (v : β) (k : κ) :
    (ks.foldl (fun t k => t.insert k v) t).find? k = if k ∈ ks then some v else t.find? k := by
  induction ks generalizing t with
  | nil => simp
  | cons k' ks ih =>
    rw [foldl_cons, ih, find?_insert]
    by_cases hmem : k ∈ ks
    · simp [hmem]
    · by_cases hk : k = k' <;> simp [hmem]

end Table

/-! ## Collections of dependence graphs -/

namespace Pdg

/-- Two dependence graphs without common ids. -/
structure Apart (d d' : Pdg) : Prop where
  nodes : ∀ n ∈ d.nodes, ∀ n' ∈ d'.nodes, n.id ≠ n'.id
  edges : ∀ e ∈ d.edges, ∀ e' ∈ d'.edges, e.id ≠ e'.id

/-- Dependence graphs as they were built one after the other, before the next id. -/
structure Collection (ds : List Pdg) (next : Id) : Prop where
  intact : ∀ d ∈ ds, d.Intact
  nodes_below : ∀ d ∈ ds, ∀ n ∈ d.nodes, n.id < next
  edges_below : ∀ d ∈ ds, ∀ e ∈ d.edges, e.id < next
  apart : ∀ d ∈ ds, ∀ d' ∈ ds, d = d' ∨ d.Apart d'

namespace Collection

variable {ds ds' : List Pdg} {d : Pdg} {next next' : Id}

theorem empty (next : Id) : Collection [] next :=
  ⟨by simp, by simp, by simp, by simp⟩

variable (h : Collection ds next)
include h

theorem subset (hsub : ds' ⊆ ds) (hle : next ≤ next') : Collection ds' next' where
  intact d hd := h.intact d (hsub hd)
  nodes_below d hd n hn := Int.lt_of_lt_of_le (h.nodes_below d (hsub hd) n hn) hle
  edges_below d hd e he := Int.lt_of_lt_of_le (h.edges_below d (hsub hd) e he) hle
  apart d hd d' hd' := h.apart d (hsub hd) d' (hsub hd')

theorem cons (hd : d.Intact) (hbetween : d.Between next next') (hle : next ≤ next') :
    Collection (d :: ds) next' where
  intact := forall_mem_cons.2 ⟨hd, h.intact⟩
  nodes_below := forall_mem_cons.2 ⟨fun n hn => (hbetween.nodes n hn).2,
    (h.subset (.refl _) hle).nodes_below⟩
  edges_below := forall_mem_cons.2 ⟨fun e he => (hbetween.edges e he).2,
    (h.subset (.refl _) hle).edges_below⟩
  apart := by
    have hnodes : ∀ d' ∈ ds, ∀ n ∈ d.nodes, ∀ n' ∈ d'.nodes, n'.id < n.id := fun d' hd' n hn n' hn' =>
      Int.lt_of_lt_of_le (h.nodes_below d' hd' n' hn') (hbetween.nodes n hn).1
    have hedges : ∀ d' ∈ ds, ∀ e ∈ d.edges, ∀ e' ∈ d'.edges, e'.id < e.id := fun d' hd' e he e' he' =>
      Int.lt_of_lt_of_le (h.edges_below d' hd' e' he') (hbetween.edges e he).1
    refine forall_mem_cons.2 ⟨forall_mem_cons.2 ⟨.inl rfl, fun d' hd' => .inr ?_⟩,
      fun d' hd' => forall_mem_cons.2 ⟨.inr ?_, h.apart d' hd'⟩⟩
    · exact ⟨fun n hn n' hn' => (Int.ne_of_lt (hnodes d' hd' n hn n' hn')).symm,
        fun e he e' he' => (Int.ne_of_lt (hedges d' hd' e he e' he')).symm⟩
    · exact ⟨fun n' hn' n hn => Int.ne_of_lt (hnodes d' hd' n hn n' hn'),
        fun e' he' e he => Int.ne_of_lt (hedges d' hd' e he e' he')⟩

theorem eq_of_node {d' : Pdg} (hd : d ∈ ds) (hd' : d' ∈ ds) {n n' : Node}
    (hn : n ∈ d.nodes) (hn' : n' ∈ d'.nodes) (hid : n.id = n'.id) : d = d' :=
  (h.apart d hd d' hd').resolve_right fun hapart => hapart.nodes n hn n' hn' hid

end Collection

end Pdg

/-! ## The cache -/

/-- The graphs of a cache form a collection. -/
def BuildCache.Tidy (cache : BuildCache Pdg) (next : Id) : Prop :=
  Pdg.Collection cache.results.values next

/-- What a build does to a cache: graphs that are added were built meanwhile. -/
structure Grown (p q : BuildCache Pdg × Trail) : Prop where
  le : p.2.next ≤ q.2.next
  collection : ∀ {ds : List Pdg}, Pdg.Collection (p.1.results.values ++ ds) p.2.next →
    Pdg.Collection (q.1.results.values ++ ds) q.2.next
  fresh : ∀ d ∈ q.1.results.values, d ∈ p.1.results.values ∨ ∀ e ∈ d.edges, p.2.next ≤ e.id

namespace Grown

variable {p q r : BuildCache Pdg × Trail}

theorem refl (p : BuildCache Pdg × Trail) : Grown p p :=
  ⟨Int.le_refl _, fun h => h, fun _ hd => .inl hd⟩

theorem trans (h : Grown p q) (h' : Grown q r) : Grown p r where
  le := Int.le_trans h.le h'.le
  collection hds := h'.collection (h.collection hds)
  fresh d hd := by
    rcases h'.fresh d hd with hd | hd
    · exact h.fresh d hd
    · exact .inr fun e he => Int.le_trans h.le (hd e he)

theorem of_same (hsame : q.1.results = p.1.results) (hle : p.2.next ≤ q.2.next) : Grown p q where
  le := hle
  collection hds := by
    rw [hsame]
    exact hds.subset (.refl _) hle
  fresh d hd := .inl (hsame ▸ hd)

theorem of_insert {d : Pdg} (hsub : q.1.results.values ⊆ d :: p.1.results.values) (hd : d.Intact)
    (hbetween : d.Between p.2.next q.2.next) (hle : p.2.next ≤ q.2.next) : Grown p q where
  le := hle
  collection {ds} hds := by
    refine (hds.cons hd hbetween hle).subset ?_ (Int.le_refl _)
    intro d' hd'
    rcases mem_append.1 hd' with hd' | hd'
    · rcases mem_cons.1 (hsub hd') with rfl | hd'
      · exact mem_cons_self
      · exact mem_cons_of_mem _ (mem_append_left _ hd')
    · exact mem_cons_of_mem _ (mem_append_right _ hd')
  fresh d' hd' := by
    rcases mem_cons.1 (hsub hd') with rfl | hd'
    · exact .inr fun e he => (hbetween.edges e he).1
    · exact .inl hd'

theorem tidy (h : Grown p q) (hp : p.1.Tidy p.2.next) : q.1.Tidy q.2.next := by
  have hcollection : Pdg.Collection (q.1.results.values ++ []) q.2.next :=
    h.collection (by rwa [append_nil])
  rwa [append_nil] at hcollection

end Grown

namespace SystemGraph

open Tracked
variable {s : DependenceSort}

/-- A graph from the cache is in it afterwards, and the cache has grown. -/
theorem ends_cachedPdg (context : Context) (unit : UnitRef) (p : BuildCache Pdg × Trail) :
    Ends (cachedPdg context unit) p (fun d q => Grown p q ∧
      d ∈ q.1.results.values) (fun _ q => Grown p q) := by
  simp only [cachedPdg, BuildCache.getOrBuild, ends_bind, ends_state, id_eq]
  cases p.1.stateOf (context.program.unitName unit) with
  | inProgress => exact .refl p
  | done =>
    cases hget : p.1.get? (context.program.unitName unit) with
    | none => exact .refl p
    | some d => exact ⟨.refl p, mem_values_of_find? hget⟩
  | unvisited =>
    simp only [ends_bind, ends_update, ends_tryCatch]
    refine (Pdg.ends_ofUnit_intact context unit _).mono ?_ ?_
    · rintro d q ⟨hintact, hbetween, hstate, hle⟩
      refine ⟨.of_insert ?_ hintact hbetween hle, mem_values_insert _ _ _⟩
      have hsub := values_insert_subset q.1.results (context.program.unitName unit) d
      rwa [hstate] at hsub ⊢
    · rintro e q ⟨hstate, hle⟩
      exact .of_same (by rw [hstate]; rfl) hle

/-! ## Adding dependences -/

variable {P : Program} {g : SystemGraph}

def Joined (g : SystemGraph) (s : DependenceSort) (a b : Id) : Prop :=
  ∃ e ∈ g.edges, e.src = a ∧ e.dst = b ∧ e.dependenceSort? = some s

theorem isLinked_iff (hg : g.toGraph.Coherent) {a b : Id} :
    g.isLinked a b s = true ↔ g.Joined s a b := by
  simp only [isLinked, any_eq_true, hg.mem_edgesOutOf, Bool.and_eq_true, decide_eq_true_eq, Edge.isSort,
    Joined, and_assoc]

theorem joined_iff {a b : Id} : g.Joined s a b ↔ (a, b) ∈ g.endsOf s := by
  simp only [Graph.endsOf, mem_map, mem_filter, Edge.isSort, decide_eq_true_eq, Edge.ends, Prod.mk.injEq]
  constructor
  · rintro ⟨e, he, hsrc, hdst, hsort⟩
    exact ⟨e, ⟨he, hsort⟩, hsrc, hdst⟩
  · rintro ⟨e, ⟨he, hsort⟩, hsrc, hdst⟩
    exact ⟨e, he, hsrc, hdst, hsort⟩

/-- Edges that a system gains under new ids; nothing else changes, and parameter edges are gained
once. -/
structure Gains (p q : SystemGraph × Trail) (es : List Edge) : Prop where
  same : q.1 = { p.1 with toGraph := q.1.toGraph }
  nodes_eq : q.1.nodes = p.1.nodes
  edges_eq : q.1.edges = p.1.edges ++ es
  fresh : ∀ e ∈ es, p.2.next ≤ e.id
  le : p.2.next ≤ q.2.next
  growing : q.1.toGraph.Growing q.2.next
  single : p.1.toGraph.Single → q.1.toGraph.Single

namespace Gains

variable {p q r : SystemGraph × Trail} {es fs : List Edge}

theorem refl (h : p.1.toGraph.Growing p.2.next) : Gains p p [] :=
  ⟨rfl, rfl, by simp, by simp, Int.le_refl _, h, id⟩

variable (h : Gains p q es)
include h

theorem trans (h' : Gains q r fs) : Gains p r (es ++ fs) where
  same := by
    have hsame := h'.same
    rw [h.same] at hsame
    exact hsame
  nodes_eq := h'.nodes_eq.trans h.nodes_eq
  edges_eq := by rw [h'.edges_eq, h.edges_eq, append_assoc]
  fresh := forall_mem_append.2 ⟨h.fresh, fun e he => Int.le_trans h.le (h'.fresh e he)⟩
  le := Int.le_trans h.le h'.le
  growing := h'.growing
  single := h'.single ∘ h.single

theorem pdgs_eq : q.1.pdgs = p.1.pdgs := by
  rw [h.same]

theorem owner_eq : q.1.owner = p.1.owner := by
  rw [h.same]

theorem nodeIds_eq : q.1.nodeIds = p.1.nodeIds := by
  rw [Graph.nodeIds, Graph.nodeIds, h.nodes_eq]

theorem joined {a b : Id} (hj : p.1.Joined s a b) : q.1.Joined s a b := by
  obtain ⟨e, he, hrest⟩ := hj
  exact ⟨e, by rw [h.edges_eq]; exact mem_append_left _ he, hrest⟩

end Gains

variable {p : SystemGraph × Trail} {l : Link}

theorem ends_addDependence (h : p.1.toGraph.Growing p.2.next) {src dst : Id}
    (hsrc : src ∈ p.1.nodeIds) (hdst : dst ∈ p.1.nodeIds) {sort : DependenceSort}
    (v : Option Variable) (hnew : sort.isParameter = true → ¬ p.1.Joined sort src dst) :
    Returns (addDependence src dst sort v) p fun _ q =>
    Gains p q [⟨p.2.next, src, dst, .dependence sort v none⟩] := by
  have hadd : p.1.addEdge ⟨p.2.next, src, dst, .dependence sort v none⟩ =
      .ok (p.1.appendEdge ⟨p.2.next, src, dst, .dependence sort v none⟩, true) :=
    Graph.addEdge_eq h.unfrozen h.not_mem hsrc hdst
  simp only [addDependence, ends_bind, ends_freshId, ends_attempt, hadd]
  refine ⟨rfl, rfl, rfl, forall_mem_singleton.2 (Int.le_refl _), Int.le_of_lt (Int.lt_succ _),
    h.appendEdge hsrc hdst _, fun hsingle => hsingle.appendEdge ?_⟩
  intro s hs hsort hmem
  obtain rfl : sort = s := by simpa [Edge.isSort, Edge.dependenceSort?] using hsort
  exact hnew hs (joined_iff.2 hmem)

/-- The two nodes are joined, by an edge that may be new. -/
theorem ends_addOnce (h : p.1.toGraph.Growing p.2.next) {src dst : Id} (hsrc : src ∈ p.1.nodeIds)
    (hdst : dst ∈ p.1.nodeIds) (sort : DependenceSort) (v : Option Variable) :
    Returns (addOnce src dst sort v) p
      fun _ q => q.1.Joined sort src dst ∧ ∃ es, Gains p q es ∧
        ∀ e ∈ es, e.src = src ∧ e.dst = dst ∧ e.dependenceSort? = some sort := by
  simp only [addOnce, ends_bind, ends_state]
  by_cases hlinked : p.1.isLinked src dst sort = true
  · simp only [hlinked]
    exact ⟨(isLinked_iff h.coherent).1 hlinked, [], .refl h, by simp⟩
  · simp only [hlinked]
    refine (ends_addDependence h hsrc hdst v fun _ hjoined => hlinked
      ((isLinked_iff h.coherent).2 hjoined)).imp ?_
    intro _ q hq
    refine ⟨⟨_, by rw [hq.edges_eq]; exact mem_append_right _ (mem_singleton_self _), rfl, rfl, rfl⟩, _,
      hq, ?_⟩
    exact forall_mem_singleton.2 ⟨rfl, rfl, rfl⟩

/-! ## Parameter edges -/

/-- Arguments with the parameters that receive them. -/
def received (formals : List Node) : Nat → List Node → List (Node × Node)
  | _, [] => []
  | position, ain :: rest =>
    ((receiver? formals position).map fun fin => (ain, fin)).toList ++ received formals (position + 1) rest

theorem fst_received_sublist (formals : List Node) (position : Nat) (ains : List Node) :
    ((received formals position ains).map (·.1)).Sublist ains := by
  induction ains generalizing position with
  | nil => exact .refl _
  | cons ain rest ih =>
    rw [received]
    cases receiver? formals position with
    | none => exact (ih _).cons ain
    | some fin => exact (ih _).cons_cons ain

theorem snd_mem_of_received {formals : List Node} {position : Nat} {ains : List Node}
    {pair : Node × Node} (h : pair ∈ received formals position ains) : pair.2 ∈ formals := by
  induction ains generalizing position with
  | nil => cases h
  | cons ain rest ih =>
    rcases mem_append.1 h with h | h
    · obtain ⟨fin, hfin, rfl⟩ := Option.map_eq_some_iff.1 (Option.mem_toList.1 h)
      exact mem_of_getElem? hfin
    · exact ih h

/-- The arguments of a call with the parameters of the callee that receive them. -/
def Link.passed (l : Link) : List (Node × Node) :=
  match l.callee.formalIns, l.caller.actualIns l.call with
  | .ok formals, .ok ains => received formals 0 ains
  | _, _ => []

/-- The value the callee returns with the result of the call. -/
def Link.returned (l : Link) : Option (Node × Node) :=
  match l.callee.formalOuts, l.caller.returnActualOut l.call with
  | .ok (fout :: _), .ok (some aout) => some (fout, aout)
  | _, _ => none

/-- An expanded call whose callee is in the system. -/
structure Linked (P : Program) (g : SystemGraph) (l : Link) : Prop where
  caller_mem : l.caller ∈ g.pdgs.values
  call_mem : l.call ∈ l.caller.callNodes
  expanded : ∃ m ins outs, l.call.payload = .call m ins outs true ∧
    (P.methodName m, l.callee) ∈ g.pdgs.entries

/-- An edge that joins a call to its callee. -/
inductive Link.Draws (l : Link) (e : Edge) : Prop where
  | passed (pair : Node × Node) (mem : pair ∈ l.passed) (src : e.src = pair.1.id)
      (dst : e.dst = pair.2.id) (sort : e.dependenceSort? = some .parameterIn)
  | returned (pair : Node × Node) (mem : pair ∈ l.returned) (src : e.src = pair.1.id)
      (dst : e.dst = pair.2.id) (sort : e.dependenceSort? = some .parameterOut)

/-- A call is joined to its callee. -/
structure Link.Closed (l : Link) (g : SystemGraph) : Prop where
  passed : ∀ pair ∈ l.passed, g.Joined .parameterIn pair.1.id pair.2.id
  returned : ∀ pair ∈ l.returned, g.Joined .parameterOut pair.1.id pair.2.id

theorem ends_connectArguments (formals : List Node) (position : Nat) (ains : List Node)
    (h : p.1.toGraph.Growing p.2.next) (hformals : ∀ n ∈ formals, n.id ∈ p.1.nodeIds)
    (hains : ∀ n ∈ ains, n.id ∈ p.1.nodeIds) : Returns (connectArguments formals position ains) p
      fun _ q => ∃ es, Gains p q es ∧
        (∀ e ∈ es, ∃ pair ∈ received formals position ains, e.src = pair.1.id ∧ e.dst = pair.2.id ∧
          e.dependenceSort? = some .parameterIn) ∧
        ∀ pair ∈ received formals position ains, q.1.Joined .parameterIn pair.1.id pair.2.id := by
  induction ains generalizing position p with
  | nil => exact ⟨[], .refl h, by simp, by simp [received]⟩
  | cons ain rest ih =>
    rw [forall_mem_cons] at hains
    rw [connectArguments, received]
    cases hfin : receiver? formals position with
    | none =>
      refine (ih (position + 1) h hformals hains.2).imp fun _ q hq => ?_
      simpa using hq
    | some fin =>
      have hdst : fin.id ∈ p.1.nodeIds := hformals fin (mem_of_getElem? hfin)
      simp only [ends_bind]
      refine (ends_addOnce h hains.1 hdst _ _).imp ?_
      rintro _ q ⟨hjoined, es, hgains, hes⟩
      have hids := hgains.nodeIds_eq
      refine (ih (position + 1) hgains.growing (by rwa [hids]) (by rw [hids]; exact hains.2)).imp ?_
      rintro _ r ⟨fs, hgains', hfs, hrest⟩
      refine ⟨es ++ fs, hgains.trans hgains', forall_mem_append.2 ⟨fun e he => ?_, fun e he => ?_⟩, ?_⟩
      · obtain ⟨hsrc, hdst, hsort⟩ := hes e he
        exact ⟨(ain, fin), by simp, hsrc, hdst, hsort⟩
      · obtain ⟨pair, hpair, hends⟩ := hfs e he
        exact ⟨pair, mem_append_right _ hpair, hends⟩
      · exact forall_mem_cons.2 ⟨hgains'.joined hjoined, hrest⟩

/-- The units of a system are intact and their nodes are in it. -/
structure Housed (g : SystemGraph) : Prop where
  intact : ∀ d ∈ g.pdgs.values, d.Intact
  nodes : ∀ d ∈ g.pdgs.values, ∀ n ∈ d.nodes, n.id ∈ g.nodeIds

theorem Housed.gains {q : SystemGraph × Trail} {es : List Edge} (h : p.1.Housed)
    (hgains : Gains p q es) : q.1.Housed where
  intact := by
    rw [hgains.pdgs_eq]
    exact h.intact
  nodes := by
    rw [hgains.pdgs_eq, hgains.nodeIds_eq]
    exact h.nodes

theorem Linked.callee_mem (h : Linked P g l) : l.callee ∈ g.pdgs.values := by
  obtain ⟨m, ins, outs, -, hmem⟩ := h.expanded
  exact mem_map_of_mem hmem

theorem Linked.congr {g' : SystemGraph} (h : Linked P g l)
    (hpdgs : g.pdgs.entries ⊆ g'.pdgs.entries) : Linked P g' l where
  caller_mem := by
    obtain ⟨e, he, heq⟩ := mem_map.1 h.caller_mem
    rw [← heq]
    exact mem_map_of_mem (hpdgs he)
  call_mem := h.call_mem
  expanded := by
    obtain ⟨m, ins, outs, hpayload, hmem⟩ := h.expanded
    exact ⟨m, ins, outs, hpayload, hpdgs hmem⟩

theorem Link.Closed.gains {q : SystemGraph × Trail} {es : List Edge} (h : l.Closed p.1)
    (hgains : Gains p q es) : l.Closed q.1 :=
  ⟨fun pair hpair => hgains.joined (h.passed pair hpair), fun pair hpair => hgains.joined
    (h.returned pair hpair)⟩

/-- The nodes by which a call and its callee are joined. -/
structure Link.Parts (l : Link) (formals ains outs : List Node) (result : Option Node) : Prop where
  formals_eq : l.callee.formalIns = .ok formals
  ains_eq : l.caller.actualIns l.call = .ok ains
  outs_eq : l.callee.formalOuts = .ok outs
  result_eq : l.caller.returnActualOut l.call = .ok result
  formals_mem : ∀ n ∈ formals, n ∈ l.callee.nodes
  ains_mem : ∀ n ∈ ains, n ∈ l.caller.nodes
  outs_mem : ∀ n ∈ outs, n ∈ l.callee.nodes
  result_mem : ∀ n ∈ result, n ∈ l.caller.nodes
  entry : l.callee.entry.payload = .entry (formals.map (·.id)) (outs.map (·.id))
  call : ∃ m outs', l.call.payload = .call m (ains.map (·.id)) outs' true ∧ ∀ n ∈ result, n.id ∈ outs'

theorem Linked.exists_parts (h : Linked P g l) (hg : g.Housed) :
    ∃ formals ains outs result, l.Parts formals ains outs result := by
  have hcaller := hg.intact l.caller h.caller_mem
  obtain ⟨m, ins, outs, hpayload, -⟩ := h.expanded
  obtain ⟨formals, returned, hformals, hreturned, hentry, hformals', hreturned'⟩ :=
    (hg.intact l.callee h.callee_mem).exists_formals
  obtain ⟨ains, hains, hids, hains'⟩ := hcaller.exists_actualIns h.call_mem hpayload
  obtain ⟨result, hresult, hresult'⟩ := hcaller.exists_returnActualOut h.call_mem hpayload
  exact ⟨formals, ains, returned, result, hformals, hains, hreturned, hresult, hformals', hains', hreturned',
    fun n hn => (hresult' n hn).1, hentry, m, outs, hids ▸ hpayload, fun n hn => (hresult' n hn).2⟩

theorem received_nil (position : Nat) (ains : List Node) : received [] position ains = [] := by
  induction ains generalizing position with
  | nil => rfl
  | cons ain rest ih =>
    rw [received, ih]
    rfl

theorem lift_ok {σ α : Type} (a : α) : (lift (.ok a) : Tracked σ α) = pure a := rfl

namespace Link.Parts

variable {l : Link} {formals ains outs : List Node} {result : Option Node}

theorem passed_eq (h : l.Parts formals ains outs result) : l.passed = received formals 0 ains := by
  rw [Link.passed, h.formals_eq, h.ains_eq]

theorem returned_eq (h : l.Parts formals ains outs result) :
    l.returned = outs.head?.bind fun fout => result.map fun aout => (fout, aout) := by
  rw [Link.returned, h.outs_eq, h.result_eq]
  cases outs <;> cases result <;> rfl

end Link.Parts

theorem ends_connectResult (h : p.1.toGraph.Growing p.2.next) {formals ains outs : List Node}
    {result : Option Node} (hparts : l.Parts formals ains outs result)
    (houts : ∀ n ∈ outs, n.id ∈ p.1.nodeIds) (hresult : ∀ n ∈ result, n.id ∈ p.1.nodeIds) :
    Returns (connectResult outs result) p fun _ q => ∃ es, Gains p q es ∧ (∀ e ∈ es, l.Draws e) ∧
        ∀ pair ∈ l.returned, q.1.Joined .parameterOut pair.1.id pair.2.id := by
  have hreturned := hparts.returned_eq
  cases outs with
  | nil => exact ⟨[], .refl h, by simp, by simp [hreturned]⟩
  | cons fout outs =>
    cases result with
    | none => exact ⟨[], .refl h, by simp, by simp [hreturned]⟩
    | some aout =>
      refine (ends_addOnce h (houts fout mem_cons_self) (hresult aout rfl) _ _).imp ?_
      rintro _ q ⟨hjoined, es, hgains, hes⟩
      refine ⟨es, hgains, fun e he => ?_, ?_⟩
      · obtain ⟨hsrc, hdst, hsort⟩ := hes e he
        exact .returned (fout, aout) hreturned hsrc hdst hsort
      · intro pair hpair
        rw [hreturned] at hpair
        cases hpair
        exact hjoined

/-- **A call is joined to its callee by parameter edges, and nothing else is added.** -/
theorem ends_connectCall (h : p.1.toGraph.Growing p.2.next) (hg : p.1.Housed) (hl : Linked P p.1 l) :
    Returns (connectCall l) p fun _ q => ∃ es, Gains p q es ∧ (∀ e ∈ es, l.Draws e) ∧ l.Closed q.1 := by
  obtain ⟨formals, ains, outs, result, hparts⟩ := hl.exists_parts hg
  have hpassed := hparts.passed_eq
  have hcallee : ∀ n ∈ l.callee.nodes, n.id ∈ p.1.nodeIds := hg.nodes l.callee hl.callee_mem
  have hcaller : ∀ n ∈ l.caller.nodes, n.id ∈ p.1.nodeIds := hg.nodes l.caller hl.caller_mem
  -- What remains to be done once the arguments are joined.
  have hrest : ∀ {q : SystemGraph × Trail} {es : List Edge}, Gains p q es → (∀ e ∈ es, l.Draws e) →
      (∀ pair ∈ l.passed, q.1.Joined .parameterIn pair.1.id pair.2.id) →
      Returns (connectResult outs result) q fun _ r => ∃ es, Gains p r es ∧ (∀ e ∈ es, l.Draws e) ∧
      l.Closed r.1 := by
    intro q es hgains hes hjoined
    refine (ends_connectResult hgains.growing hparts ?_ ?_).imp ?_
    · rw [hgains.nodeIds_eq]
      exact fun n hn => hcallee n (hparts.outs_mem n hn)
    · rw [hgains.nodeIds_eq]
      exact fun n hn => hcaller n (hparts.result_mem n hn)
    · rintro _ r ⟨fs, hgains', hfs, hreturned⟩
      exact ⟨es ++ fs, hgains.trans hgains', forall_mem_append.2 ⟨hes, hfs⟩,
        fun pair hpair => hgains'.joined (hjoined pair hpair), hreturned⟩
  simp only [connectCall, hparts.formals_eq, hparts.ains_eq, hparts.outs_eq, hparts.result_eq,
    lift_ok, pure_bind]
  cases formals with
  | nil =>
    rw [received_nil] at hpassed
    exact hrest (.refl h) (by simp) (by simp [hpassed])
  | cons fin formals =>
    simp only [isEmpty_cons, Bool.not_false, if_true, ends_bind]
    refine (ends_connectArguments _ 0 ains h (fun n hn => hcallee n (hparts.formals_mem n hn))
      fun n hn => hcaller n (hparts.ains_mem n hn)).imp ?_
    rintro _ q ⟨es, hgains, hes, hjoined⟩
    rw [← hpassed] at hes hjoined
    refine hrest hgains (fun e he => ?_) hjoined
    obtain ⟨pair, hpair, hsrc, hdst, hsort⟩ := hes e he
    exact .passed pair hpair hsrc hdst hsort

/-! ## Taking in units -/

/-- A system after a unit was taken in. -/
structure Takes (P : Program) (d : Pdg) (g g' : SystemGraph) : Prop where
  entries_eq : g'.pdgs.entries = g.pdgs.entries ++ [(d.key P, d)]
  failures_eq : g'.failures = g.failures
  nodes_eq : g'.nodes = g.nodes ++ d.nodes
  edges_eq : g'.edges = g.edges ++ d.edges
  merged : g.merge d.toGraph = .ok g'.toGraph
  same : g' = { g.register (d.key P) d with toGraph := g'.toGraph }

theorem Takes.values_eq {d : Pdg} {g' : SystemGraph} (h : Takes P d g g') :
    g'.pdgs.values = g.pdgs.values ++ [d] := by
  rw [values, h.entries_eq, map_append]
  rfl

section Keeps

variable {context : Context} {K J : BuildCache Pdg × Trail → SystemGraph → Prop}
    {B : BuildCache Pdg × Trail → Prop}
  (hone : ∀ {p g} u, K p g → Ends (integrateOne context u g) p (fun r q => K q r.1) (fun _ q => B q))
include hone

/-- What taking in one unit keeps, taking in a stack of units keeps. -/
theorem ends_integrateStack_keeps (steps : Nat) (stack : List UnitRef) {p : BuildCache Pdg × Trail}
    {g : SystemGraph} (h : K p g) :
    Ends (integrateStack context steps stack g) p (fun g' q => K q g') (fun _ q => B q) := by
  induction steps generalizing stack p g with
  | zero => exact h
  | succ steps ih =>
    rw [integrateStack]
    split
    · exact h
    · rw [ends_bind]
      exact (hone _ h).imp fun _ _ hr => ih _ hr

theorem ends_integrateEach_keeps
    (hjoin : ∀ {p g}, K p g → Ends (connectCalls context.program g.callNodes) (g, p.2)
      (fun _ q => J (p.1, q.2) q.1) (fun _ q => B (p.1, q.2)))
    (hkeeps : ∀ {p g}, J p g → K p g) (us : List UnitRef) {p : BuildCache Pdg × Trail} {g : SystemGraph}
    (h : J p g) : Ends (integrateEach context us g) p (fun g' q => J q g') (fun _ q => B q) := by
  induction us generalizing p g with
  | nil => exact h
  | cons u us ih =>
    simp only [integrateEach, integrate, ends_bind, ends_within]
    apply (ends_integrateStack_keeps hone _ [u] (hkeeps h)).imp
    intro g' q hq
    apply (hjoin hq).imp
    intro _ r hr
    exact ih hr

end Keeps

/-- What holds of a system that was put together from a cache. -/
structure Composed (P : Program) (cache : BuildCache Pdg) (next : Id) (g : SystemGraph) : Prop where
  units : Pdg.Collection (cache.results.values ++ g.pdgs.values) next
  growing : g.toGraph.Growing next
  keys : ∀ e ∈ g.pdgs.entries, e.1 = e.2.key P
  nodup : g.pdgs.keys.Nodup
  nodes : ∀ n, n ∈ g.nodes ↔ ∃ d ∈ g.pdgs.values, n ∈ d.nodes
  owner : ∀ id key, g.owner.find? id = some key ↔ ∃ d, (key, d) ∈ g.pdgs.entries ∧ id ∈ d.nodeIds
  inner : ∀ d ∈ g.pdgs.values, d.edges ⊆ g.edges
  edges : ∀ e ∈ g.edges, (∃ d ∈ g.pdgs.values, e ∈ d.edges) ∨ ∃ l, Linked P g l ∧ l.Draws e
  apart : ∀ d ∈ cache.results.values, d ∈ g.pdgs.values ∨ ∀ e ∈ g.edges, ∀ e' ∈ d.edges, e.id ≠ e'.id
  single : g.toGraph.Single

namespace Composed

variable {cache : BuildCache Pdg} {next : Id}

section

variable (h : Composed P cache next g)
include h

theorem intact : ∀ d ∈ g.pdgs.values, d.Intact :=
  fun d hd => h.units.intact d (mem_append_right _ hd)

theorem housed : g.Housed where
  intact := h.intact
  nodes d hd n hn := mem_map_of_mem ((h.nodes n).2 ⟨d, hd, hn⟩)

theorem unit_eq {d d' : Pdg} (hd : d ∈ g.pdgs.values) (hd' : d' ∈ g.pdgs.values)
    {id : Id} (hid : id ∈ d.nodeIds) (hid' : id ∈ d'.nodeIds) : d = d' := by
  obtain ⟨n, hn, rfl⟩ := mem_map.1 hid
  obtain ⟨n', hn', heq⟩ := mem_map.1 hid'
  exact h.units.eq_of_node (mem_append_right _ hd) (mem_append_right _ hd') hn hn' heq.symm

theorem pdgOf?_eq_some_iff {id : Id} {d : Pdg} : g.pdgOf? id = some d ↔ d ∈ g.pdgs.values ∧
    id ∈ d.nodeIds := by
  rw [pdgOf?, Option.bind_eq_some_iff]
  constructor
  · rintro ⟨key, hkey, hfind⟩
    obtain ⟨d', hd', hid⟩ := (h.owner id key).1 hkey
    have hd := (find?_eq_some_iff h.nodup).2 hd'
    rw [hd] at hfind
    cases hfind
    exact ⟨mem_map_of_mem hd', hid⟩
  · rintro ⟨hd, hid⟩
    obtain ⟨e, he, rfl⟩ := mem_map.1 hd
    exact ⟨e.1, (h.owner id e.1).2 ⟨e.2, he, hid⟩, (find?_eq_some_iff h.nodup).2 he⟩

theorem mem_callNodes_iff {call : Node} : call ∈ g.callNodes ↔ ∃ d ∈ g.pdgs.values, call ∈ d.callNodes := by
  simp only [Graph.callNodes, mem_filter, h.nodes]
  constructor
  · rintro ⟨⟨d, hd, hmem⟩, hsort⟩
    exact ⟨d, hd, hmem, hsort⟩
  · rintro ⟨d, hd, hmem, hsort⟩
    exact ⟨⟨d, hd, hmem⟩, hsort⟩

/-- The callee of a call that is joined is the unit of the method that the call names. -/
theorem find?_callee (hl : Linked P g l) {m : MethodRef} {ins outs : List Id} {x : Bool}
    (hpayload : l.call.payload = .call m ins outs x) : x = true ∧
    g.pdgs.find? (P.methodName m) = some l.callee := by
  obtain ⟨m', ins', outs', hpayload', hcallee⟩ := hl.expanded
  cases hpayload.symm.trans hpayload'
  exact ⟨rfl, (find?_eq_some_iff h.nodup).2 hcallee⟩

/-- A call is looked up as linked exactly if it is. -/
theorem exists_link {call : Node} (hcall : call ∈ g.callNodes) :
    ∃ r, g.link? P call = .ok r ∧ ∀ l, r = some l ↔ l.call = call ∧ Linked P g l := by
  obtain ⟨d, hd, hmem⟩ := h.mem_callNodes_iff.1 hcall
  have hid : call.id ∈ d.nodeIds := mem_map_of_mem (mem_filter.1 hmem).1
  obtain ⟨m, ins, outs, x, hpayload⟩ := (h.intact d hd).exists_call hmem
  rw [link?, hpayload, h.pdgOf?_eq_some_iff.2 ⟨hd, hid⟩]
  cases x with
  | false =>
    refine ⟨none, rfl, fun l => ⟨(nomatch ·), ?_⟩⟩
    rintro ⟨rfl, hl⟩
    cases (h.find?_callee hl hpayload).1
  | true =>
    dsimp only
    cases hfind : g.pdgs.find? (P.methodName m) with
    | none =>
      refine ⟨none, rfl, fun l => ⟨(nomatch ·), ?_⟩⟩
      rintro ⟨rfl, hl⟩
      cases hfind.symm.trans (h.find?_callee hl hpayload).2
    | some callee =>
      refine ⟨some ⟨call, d, callee⟩, rfl, fun l => ⟨?_, ?_⟩⟩
      · rintro ⟨⟩
        exact ⟨rfl, hd, hmem, m, ins, outs, hpayload, (find?_eq_some_iff h.nodup).1 hfind⟩
      · obtain ⟨call', caller, callee'⟩ := l
        rintro ⟨rfl, hl⟩
        cases hfind.symm.trans (h.find?_callee hl hpayload).2
        have hcaller : call'.id ∈ caller.nodeIds := mem_map_of_mem (mem_filter.1 hl.call_mem).1
        rw [show caller = d from h.unit_eq hl.caller_mem hd hcaller hid]

end

theorem empty (h : cache.Tidy next) (name : String) : Composed P cache next (ofName name) where
  units := by
    refine .subset h ?_ (Int.le_refl _)
    intro d hd
    exact (mem_append.1 hd).resolve_right (by intro hd; cases hd)
  growing := ⟨Graph.coherent_empty _, rfl, fun e he => nomatch he⟩
  keys e he := nomatch he
  nodup := nodup_nil
  nodes n := ⟨(nomatch ·), fun ⟨d, hd, _⟩ => nomatch hd⟩
  owner id key := ⟨(nomatch ·), fun ⟨d, hd, _⟩ => nomatch hd⟩
  inner d hd := nomatch hd
  edges e he := nomatch he
  apart d _ := .inr fun e he => nomatch he
  single _ _ := nodup_nil

variable {p : BuildCache Pdg × Trail}

theorem grown {q : BuildCache Pdg × Trail} (h : Composed P p.1 p.2.next g) (hgrown : Grown p q) :
    Composed P q.1 q.2.next g :=
  { h with
    units := hgrown.collection h.units
    growing := ⟨h.growing.coherent, h.growing.unfrozen, fun e he => Int.lt_of_lt_of_le
      (h.growing.below e he) hgrown.le⟩
    apart := fun d hd => by
      rcases hgrown.fresh d hd with hd | hd
      · exact h.apart d hd
      · exact .inr fun e he e' he' => Int.ne_of_lt (Int.lt_of_lt_of_le (h.growing.below e he) (hd e' he')) }

theorem gains {p q : SystemGraph × Trail} {es : List Edge} (h : Composed P cache p.2.next p.1)
    (hgains : Gains p q es)
    (hes : ∀ e ∈ es, ∃ l, Linked P p.1 l ∧ l.Draws e) : Composed P cache q.2.next q.1 := by
  have hlinked : ∀ {e}, (∃ l, Linked P p.1 l ∧ l.Draws e) →
      ∃ l, Linked P { p.1 with toGraph := q.1.toGraph } l ∧ l.Draws e :=
    fun ⟨l, hl, hdraws⟩ => ⟨l, hl.congr (.refl _), hdraws⟩
  rw [hgains.same]
  refine ⟨h.units.subset (.refl _) hgains.le, hgains.growing, h.keys, h.nodup, ?_, h.owner, ?_, ?_, ?_,
    hgains.single h.single⟩
  · rw [hgains.nodes_eq]
    exact h.nodes
  · rw [hgains.edges_eq]
    exact fun d hd => subset_append_of_subset_left _ (h.inner d hd)
  · rw [hgains.edges_eq]
    exact forall_mem_append.2
      ⟨fun e he => (h.edges e he).imp_right hlinked, fun e he => .inr (hlinked (hes e he))⟩
  · rw [hgains.edges_eq]
    intro d hd
    refine (h.apart d hd).imp_right fun hapart => forall_mem_append.2 ⟨hapart, fun e he e' he' => ?_⟩
    exact (Int.ne_of_lt (Int.lt_of_lt_of_le
      (h.units.edges_below d (mem_append_left _ hd) e' he') (hgains.fresh e he))).symm

section Register

variable {d : Pdg}

variable (h : Composed P cache next g)
include h

theorem not_mem_values (hkey : g.pdgs.contains (d.key P) = false) : d ∉ g.pdgs.values := by
  intro hd
  obtain ⟨e, he, rfl⟩ := mem_map.1 hd
  have hcontains := (contains_iff g.pdgs e.1).2 (mem_map_of_mem he)
  rw [h.keys e he, hkey] at hcontains
  cases hcontains

variable (hd : d ∈ cache.results.values)
include hd

variable (hkey : g.pdgs.contains (d.key P) = false)

include hkey

theorem new_nodes : ∀ n ∈ d.nodes, n.id ∉ g.nodeIds := by
  intro n hn hmem
  obtain ⟨n', hn', hid⟩ := mem_map.1 hmem
  obtain ⟨d', hd', hmem'⟩ := (h.nodes n').1 hn'
  have heq := h.units.eq_of_node (mem_append_right _ hd') (mem_append_left _ hd) hmem' hn hid
  exact h.not_mem_values hkey (heq ▸ hd')

theorem new_edges : ∀ e ∈ d.edges, e.id ∉ g.edges.map (·.id) := by
  intro e he hmem
  obtain ⟨e', he', hid⟩ := mem_map.1 hmem
  exact (h.apart d hd).resolve_left (h.not_mem_values hkey) e' he' e he hid

/-- A graph of the cache whose key is absent may be taken in. -/
theorem register {g' : SystemGraph} (htakes : Takes P d g g') (hfrozen : g'.frozen = false) :
    Composed P cache next g' := by
  have hentries := htakes.entries_eq
  have hvalues := htakes.values_eq
  have hedges := htakes.edges_eq
  have howner : g'.owner = d.nodeIds.foldl (fun t id => t.insert id (d.key P)) g.owner := by
    rw [htakes.same]
    rfl
  have hnew : ∀ {id}, id ∈ d.nodeIds → ∀ d' ∈ g.pdgs.values, id ∉ d'.nodeIds := by
    intro id hid d' hd' hid'
    obtain ⟨n, hn, rfl⟩ := mem_map.1 hid
    obtain ⟨n', hn', heq⟩ := mem_map.1 hid'
    exact h.new_nodes hd hkey n hn (heq ▸ mem_map_of_mem ((h.nodes n').2 ⟨d', hd', hn'⟩))
  have hintact := h.units.intact d (mem_append_left _ hd)
  refine ⟨?_, ⟨h.growing.coherent.merge htakes.merged, hfrozen, ?_⟩, ?_, ?_, ?_, ?_, ?_, ?_, ?_,
    h.single.append hedges fun e he _ hs => Edge.isSort_of_isInner (hintact.inner e he) hs⟩
  · rw [hvalues, ← append_assoc]
    exact h.units.subset (append_subset.2 ⟨.refl _, cons_subset.2 ⟨mem_append_left _ hd, nil_subset _⟩⟩)
      (Int.le_refl _)
  · rw [hedges]
    exact forall_mem_append.2 ⟨h.growing.below, h.units.edges_below d (mem_append_left _ hd)⟩
  · rw [hentries]
    exact forall_mem_append.2 ⟨h.keys, forall_mem_singleton.2 rfl⟩
  · have habsent : d.key P ∉ g.pdgs.keys := by
      rw [← Table.contains_iff, hkey]
      exact Bool.false_ne_true
    rw [Table.keys, hentries, map_append]
    refine nodup_append.2 ⟨h.nodup, nodup_singleton _, fun k hk k' hk' heq => habsent ?_⟩
    rwa [heq, mem_singleton.1 hk'] at hk
  · intro n
    simp only [hvalues, htakes.nodes_eq, mem_append, h.nodes, mem_singleton]
    constructor
    · rintro (⟨d', hd', hn⟩ | hn)
      · exact ⟨d', .inl hd', hn⟩
      · exact ⟨d, .inr rfl, hn⟩
    · rintro ⟨d', hd' | rfl, hn⟩
      · exact .inl ⟨d', hd', hn⟩
      · exact .inr hn
  · intro id key
    simp only [howner, hentries, Table.find?_foldl_insert, mem_append, mem_singleton, Prod.mk.injEq]
    by_cases hid : id ∈ d.nodeIds
    · rw [if_pos hid, Option.some.injEq]
      constructor
      · rintro rfl
        exact ⟨d, .inr ⟨rfl, rfl⟩, hid⟩
      · rintro ⟨d', hd' | ⟨rfl, rfl⟩, hid'⟩
        · exact absurd hid' (hnew hid d' (mem_map_of_mem hd'))
        · rfl
    · rw [if_neg hid, h.owner]
      constructor
      · rintro ⟨d', hd', hid'⟩
        exact ⟨d', .inl hd', hid'⟩
      · rintro ⟨d', hd' | ⟨rfl, rfl⟩, hid'⟩
        · exact ⟨d', hd', hid'⟩
        · exact absurd hid' hid
  · rw [hvalues, hedges]
    refine forall_mem_append.2 ⟨fun d' hd' => ?_, forall_mem_singleton.2 ?_⟩
    · exact subset_append_of_subset_left _ (h.inner d' hd')
    · exact subset_append_right _ _
  · rw [hvalues, hedges]
    refine forall_mem_append.2
      ⟨fun e he => ?_, fun e he => .inl ⟨d, mem_append_right _ (mem_singleton_self d), he⟩⟩
    rcases h.edges e he with ⟨d', hd', he⟩ | ⟨l, hl, hdraws⟩
    · exact .inl ⟨d', mem_append_left _ hd', he⟩
    · exact .inr ⟨l, hl.congr (hentries ▸ subset_append_left _ _), hdraws⟩
  · intro d' hd'
    rw [hvalues, hedges]
    rcases h.units.apart d (mem_append_left _ hd) d' (mem_append_left _ hd') with rfl | hapart
    · exact .inl (mem_append_right _ (mem_singleton_self d))
    · rcases h.apart d' hd' with hmem | hold
      · exact .inl (mem_append_left _ hmem)
      · exact .inr (forall_mem_append.2 ⟨hold, hapart.edges⟩)

end Register

/-- A unit is taken in unless its key is there. -/
theorem ends_addPdg {d : Pdg} {p : SystemGraph × Trail} (h : Composed P cache p.2.next p.1)
    (hd : d ∈ cache.results.values) : Returns (addPdg P d) p fun _ q => q.2 = p.2 ∧
    Composed P cache q.2.next q.1 ∧
      if p.1.pdgs.contains (d.key P) then q.1 = p.1 else Takes P d p.1 q.1 := by
  simp only [addPdg, ends_bind, ends_state]
  cases hkey : p.1.pdgs.contains (d.key P) with
  | true => exact ⟨rfl, h, rfl⟩
  | false =>
    obtain ⟨merged, hmerge, hnodes, hedges, hfrozen⟩ := Graph.merge_eq h.growing.unfrozen
      (h.units.intact d (mem_append_left _ hd)).coherent (h.new_nodes hd hkey) (h.new_edges hd hkey)
    have hmerge' : (p.1.register (d.key P) d).merge d.toGraph = .ok merged := hmerge
    simp only [Bool.false_eq_true, if_false, ends_bind, ends_update, ends_attempt, hmerge']
    have htakes : Takes P d p.1 { p.1.register (d.key P) d with toGraph := merged } :=
      ⟨entries_insert_of_not_contains hkey d, rfl, hnodes, hedges, hmerge, rfl⟩
    exact ⟨trivial, h.register hd hkey htakes hfrozen, htakes⟩

theorem failed (h : Composed P cache next g) (failures : Table String Error) :
    Composed P cache next { g with failures := failures } :=
  { h with edges := fun e he => (h.edges e he).imp_right fun ⟨l, hl, hdraws⟩ =>
    ⟨l, hl.congr (.refl _), hdraws⟩ }

/-- Calls are closed one after the other, and the system stays composed. -/
theorem ends_connectCalls (calls : List Node) {p : SystemGraph × Trail}
    (h : Composed P cache p.2.next p.1) (hcalls : calls ⊆ p.1.callNodes) :
    Returns (connectCalls P calls) p fun _ q => p.2.next ≤ q.2.next ∧ Composed P cache q.2.next q.1 ∧
      (∃ es, Gains p q es) ∧ ∀ l, l.call ∈ calls → Linked P p.1 l → l.Closed q.1 := by
  induction calls generalizing p with
  | nil => exact ⟨Int.le_refl _, h, ⟨[], .refl h.growing⟩, fun l hl => absurd hl not_mem_nil⟩
  | cons call rest ih =>
    obtain ⟨hcall, hrest⟩ := cons_subset.1 hcalls
    obtain ⟨r, hlink, hr⟩ := h.exists_link hcall
    simp only [connectCalls, ends_bind, ends_state, hlink, lift_ok, ends_pure]
    -- What the rest of the calls does after this one.
    have hgo : ∀ {q : SystemGraph × Trail} {es : List Edge}, Gains p q es →
        (∀ e ∈ es, ∃ l, Linked P p.1 l ∧ l.Draws e) → (∀ l, r = some l → l.Closed q.1) →
        Returns (connectCalls P rest) q fun _ q => p.2.next ≤ q.2.next ∧ Composed P cache q.2.next q.1 ∧
          (∃ es, Gains p q es) ∧ ∀ l, l.call ∈ call :: rest → Linked P p.1 l → l.Closed q.1 := by
      intro q es hgains hes hclosed
      refine (ih (h.gains hgains hes) ?_).imp ?_
      · rw [Graph.callNodes, hgains.nodes_eq]
        exact hrest
      · rintro _ q' ⟨hle, hcomposed, ⟨fs, hgains'⟩, hclosed'⟩
        refine ⟨Int.le_trans hgains.le hle, hcomposed, ⟨es ++ fs, hgains.trans hgains'⟩, ?_⟩
        intro l hl hlinked
        rcases mem_cons.1 hl with hl | hl
        · exact (hclosed l ((hr l).2 ⟨hl, hlinked⟩)).gains hgains'
        · exact hclosed' l hl (hlinked.congr (hgains.pdgs_eq ▸ .refl _))
    cases r with
    | none => exact hgo (.refl h.growing) (by simp) (by simp)
    | some l =>
      have hlinked := ((hr l).1 rfl).2
      rw [ends_bind]
      refine (ends_connectCall h.growing h.housed hlinked).imp ?_
      rintro _ q ⟨es, hgains, hes, hclosed⟩
      refine hgo hgains (fun e he => ⟨l, hlinked, hes e he⟩) ?_
      rintro l' ⟨⟩
      exact hclosed

theorem ends_requireCallSites {σ : Type} (u : UnitRef) (d : Pdg) {p : σ × Trail}
    {good : Unit → σ × Trail → Prop}
    {bad : Error → σ × Trail → Prop} (hgood : good () p) (hbad : ∀ e, bad e p) :
    Ends (requireCallSites u d) p good bad := by
  cases u with
  | field f => exact hgood
  | method m =>
    rw [requireCallSites]
    split
    · exact hgood
    · exact hbad _

theorem ends_integrateOne (context : Context) (u : UnitRef)
    (h : Composed context.program p.1 p.2.next g) : Ends (integrateOne context u g) p
      (fun r q => Grown p q ∧ Composed context.program q.1 q.2.next r.1) (fun _ q => Grown p q) := by
  simp only [integrateOne, Cfg.catching, ends_bind, ends_tryCatch, ends_pure]
  refine (ends_cachedPdg context u p).mono ?_ ?_
  · rintro d q ⟨hgrown, hd⟩
    simp only [ends_within]
    refine ((h.grown hgrown).ends_addPdg (p := (g, q.2)) hd).always ?_
    rintro _ r ⟨htrail, hcomposed, -⟩
    rw [htrail] at hcomposed ⊢
    exact ends_requireCallSites u d ⟨hgrown, hcomposed⟩ fun _ => hgrown
  · intro e q hgrown
    cases e with
    | construction =>
      simp only [ends_pure, ends_bind, ends_report]
      have hreport : ∀ log, Grown p (q.1, { q.2 with log := log }) := fun _ =>
        hgrown.trans (.of_same rfl (Int.le_refl _))
      exact ⟨hreport _, (h.grown (hreport _)).failed _⟩
    | _ => exact hgrown

def Connected (P : Program) (g : SystemGraph) : Prop :=
  ∀ l, Linked P g l → l.Closed g

theorem connected_ofName (P : Program) (name : String) : Connected P (ofName name) :=
  fun _ hl => nomatch hl.caller_mem

theorem ends_connectAll {p : SystemGraph × Trail} (h : Composed P cache p.2.next p.1) :
    Returns (connectCalls P p.1.callNodes) p fun _ q => Composed P cache q.2.next q.1 ∧
      (∃ es, Gains p q es) ∧ Connected P q.1 := by
  refine (h.ends_connectCalls p.1.callNodes (.refl _)).imp ?_
  rintro _ q ⟨_, hcomposed, ⟨es, hgains⟩, hclosed⟩
  refine ⟨hcomposed, ⟨es, hgains⟩, fun l hl => ?_⟩
  have hl' : Linked P p.1 l := hl.congr (hgains.pdgs_eq ▸ .refl _)
  exact hclosed l (h.mem_callNodes_iff.2 ⟨l.caller, hl'.caller_mem, hl'.call_mem⟩) hl'

/-- **Units are put together into a system whose calls are joined to their callees.** -/
theorem ends_integrateEach (context : Context) (name : String) (us : List UnitRef) (h : p.1.Tidy p.2.next) :
    Ends (integrateEach context us (ofName name)) p (fun g q => Grown p q ∧
      Composed context.program q.1 q.2.next g ∧ Connected context.program g) (fun _ q => Grown p q) := by
  refine ends_integrateEach_keeps (K := fun q g => Grown p q ∧ Composed context.program q.1 q.2.next g)
    (J := fun q g => Grown p q ∧ Composed context.program q.1 q.2.next g ∧ Connected context.program g) ?_ ?_
    (fun h => ⟨h.1, h.2.1⟩) us ⟨.refl p, .empty h name, connected_ofName _ name⟩
  · rintro q g u ⟨hgrown, hcomposed⟩
    exact (ends_integrateOne context u hcomposed).mono (fun _ _ hr => ⟨hgrown.trans hr.1, hr.2⟩)
      fun _ _ hr => hgrown.trans hr
  · rintro q g ⟨hgrown, hcomposed⟩
    refine (ends_connectAll (p := (g, q.2)) hcomposed).always ?_
    rintro _ r ⟨hcomposed', ⟨es, hgains⟩, hconnected⟩
    exact ⟨hgrown.trans (.of_same rfl hgains.le), hcomposed', hconnected⟩

end Composed

end SystemGraph

end ProgramDependence
