import ProgramDependence.Proofs.Copies
import ProgramDependence.Proofs.Loops
import ProgramDependence.Proofs.UnitGraphs

/-!
# Copies of units

The flow graph of a unit can be copied, and the copy is its image under the new ids.  The dependence
graph of the copy is derived anew, and comes out as the image of the one that is copied, edge by
edge and in the same order (`built_copyExact`).
-/

namespace ProgramDependence

open List Edge

open Tracked
variable {σ : Type}

namespace Cfg

/-! ## Flow graphs of units -/

namespace Realizes

variable {c : Cfg} {u : Plan}

theorem dst_ne_entry (h : c.Realizes u) {e : Edge} (he : e ∈ c.edges) : e.dst ≠ c.entry.id := by
  intro hdst
  rw [h.entry_id] at hdst
  rcases wire_cases (h.wire_mem he) with ⟨-, honward⟩ | ⟨r, hr, -, hhead, -⟩
  · have hlt := idxOf_lt h.nodup honward
    rw [show e.wire.dst = u.entry.id from hdst, Plan.nodes, map_cons, idxOf_cons_self] at hlt
    exact Nat.not_lt_zero _ hlt
  · have hmem : r.head ∈ u.body.ids := (u.body.rings_inside r hr).head
    exact h.entry_not_mem ((hhead.symm.trans hdst) ▸ hmem)

theorem loop_mem (h : c.Realizes u) {e : Edge} (he : e ∈ c.edges) {l : Id}
    (hl : e.loopBack? = some l) : l ∈ c.nodeIds := by
  have htag : e.wire.loop = some l := hl
  rcases wire_cases (h.wire_mem he) with ⟨hnone, -⟩ | ⟨r, hr, -, -, htest⟩
  · rw [hnone] at htag
    cases htag
  · obtain ⟨t, -, hid, hmem⟩ := u.body.rings_test r hr
    have heq : t.id = l := hid.trans (Option.some.inj (htest.symm.trans htag))
    rw [h.mem_nodeIds, ← heq]
    apply mem_map_of_mem
    simp [Plan.nodes, Plan.inner, hmem]

end Realizes

structure BuiltFrom (c : Cfg) (next : Id) : Prop where
  blocks : c.blocks = none
  entry : c.entry.id = next
  exit : c.exit.id = next + 1
  bare : c.exit = { id := c.exit.id, sort := c.exit.sort, element := c.exit.element }
  isExit : c.exit.sort.isExit = true

theorem id_ofState (numbering : Nat) (name : String) (entry exit : Node) (s : Lowering.State) :
    (ofState numbering name entry exit s).entry.id = entry.id := by
  cases hfind : s.graph.node? entry.id with
  | none => simp [ofState, hfind]
  | some n =>
    have hid : n.id = entry.id := by simpa using find?_some hfind
    simp [ofState, hfind, hid]

theorem ends_build_builtFrom (scope : Lowering.Scope) (sort : ScopeSort) (element : Element)
    (body : Id → Id → Lowering.Lower Unit) (p : σ × Trail) :
    Ends (build scope sort element body) p (fun c _ => c.BuiltFrom p.2.next) (fun _ _ => True) := by
  simp only [build, ends_bind, ends_freshId]
  refine (ends_run _ _).partly ?_
  intro _ q _
  refine (ends_run _ _).partly ?_
  intro _ r _
  exact ⟨rfl, id_ofState _ _ _ _ _, rfl, rfl, rfl⟩

theorem ends_ofUnit_builtFrom (context : Context) (unit : UnitRef) (p : σ × Trail) :
    Ends (ofUnit context unit) p (fun c _ => c.BuiltFrom p.2.next) (fun _ _ => True) := by
  cases unit with
  | method r | field r =>
    simp only [ofUnit]
    split
    · exact ends_build_builtFrom _ _ _ _ p
    · simp

theorem exists_cons_cons {ns : List Node} {next : Id} (hlt : (ns.map (·.id)).Pairwise (· < ·))
    (hle : ∀ n ∈ ns, next ≤ n.id) {a b : Node} (ha : a ∈ ns) (hb : b ∈ ns) (hfirst : a.id = next)
    (hsecond : b.id = next + 1) : ∃ rest, ns = a :: b :: rest := by
  cases ns with
  | nil => cases ha
  | cons x xs =>
    rw [map_cons, pairwise_cons] at hlt
    have hx : x = a := by
      rcases mem_cons.1 ha with heq | ha
      · exact heq.symm
      · have hsmall := hlt.1 a.id (mem_map_of_mem ha)
        exact absurd (hfirst ▸ hsmall) (Int.not_lt.2 (hle x mem_cons_self))
    have hb' : b ∈ xs := by
      rcases mem_cons.1 hb with heq | hb
      · rw [← hx, ← heq, hsecond] at hfirst
        exact absurd hfirst (Int.ne_of_gt (Int.lt_succ next))
      · exact hb
    cases xs with
    | nil => cases hb'
    | cons y ys =>
      have hy : y = b := by
        rcases mem_cons.1 hb' with heq | hb'
        · exact heq.symm
        · have hlow := hlt.1 y.id mem_cons_self
          rw [hx, hfirst] at hlow
          rw [map_cons, pairwise_cons] at hlt
          have hhigh := hlt.2.1 b.id (mem_map_of_mem hb')
          rw [hsecond] at hhigh
          exact absurd (Int.add_one_le_of_lt hlow) (Int.not_le.2 hhigh)
      exact ⟨ys, by rw [hx, hy]⟩

theorem exit_mem_nodes {P : Program} {lo next : Id} {debts : List Debt} {c : Cfg} {u : Plan}
    (h : c.Realizes u) (hmade : Made P lo debts c.nodes c.edges next) (hbuilt : c.BuiltFrom lo) :
    c.exit ∈ c.nodes := by
  obtain ⟨n, hn, hid⟩ := mem_map.1 h.exit_mem
  have htoken : n.token = c.exit.token := (h.token_eq_exit hn hid).trans h.exit_eq.symm
  have hsort : n.sort = c.exit.sort := congrArg (·.label.sort) htoken
  have helement : n.element = c.exit.element := congrArg (·.label.element) htoken
  have hbare := hmade.forall_nodes lasting_exit n hn (hsort ▸ hbuilt.isExit)
  have heq : n = c.exit := by
    rw [hbare, hbuilt.bare, hid, hsort, helement]
  exact heq ▸ hn

/-- **The flow graph of a unit can be copied, and read by the analyses.** -/
theorem ends_ofUnit_copyable (context : Context) (unit : UnitRef) (p : σ × Trail) :
    Ends (ofUnit context unit) p (fun c _ => c.Copyable ∧ c.Readable) (fun _ _ => True) := by
  refine (((ends_ofUnit context unit p).and (ends_ofUnit_made context unit p)).and
    (ends_ofUnit_builtFrom context unit p)).partly ?_
  rintro c q ⟨⟨⟨_, u, ⟨hrealizes, _, _⟩, _⟩, _, hmade⟩, hbuilt⟩
  have hnumbered := hmade.numbered
  have hrefs : ∀ n ∈ c.nodes, ∀ i ∈ n.payload.refs, i ∈ c.nodeIds := by
    intro n hn i hi
    rw [Graph.nodeIds, ids_eq_marks]
    exact (hmade.forall_nodes lasting_refs n hn).1 i hi
  refine ⟨⟨⟨hrealizes.coherent, hmade.isFlow, fun e he => hrealizes.dst_ne_entry he⟩, ?_, hnumbered.nodes_lt,
    hnumbered.edges_lt, hnumbered.apart, hrefs, fun e he l hl => hrealizes.loop_mem he hl,
    hmade.forall_nodes lasting_serial, hbuilt.blocks⟩, hrealizes.coherent, hmade.isFlow, fun k hk hcall =>
      (hmade.forall_nodes lasting_kind k hk).1.trans hcall⟩
  exact exists_cons_cons hnumbered.nodes_lt (fun n hn => (hnumbered.nodes n.id (mem_map_of_mem hn)).1)
    hrealizes.entry_mem (exit_mem_nodes hrealizes hmade hbuilt) hbuilt.entry hbuilt.exit

end Cfg

/-! ## The loops that dependences name -/

/-- The ids that the meaning of an edge refers to. -/
def EdgeLabel.refs : EdgeLabel → List Id
  | .plain _ => []
  | .flow _ loop => loop.toList
  | .dependence _ _ carrier => carrier.toList

theorem EdgeLabel.mapIds_back {f g : Id → Id} {label : EdgeLabel}
    (h : ∀ i ∈ label.refs, f (g i) = i) : (label.mapIds g).mapIds f = label := by
  cases label with
  | plain sort => rfl
  | flow sort loop =>
    have hloop : loop.map (f ∘ g) = loop := option_map_eq_self h
    rw [mapIds, mapIds, Option.map_map, hloop]
  | dependence sort var carrier =>
    have hcarrier : carrier.map (f ∘ g) = carrier := option_map_eq_self h
    rw [mapIds, mapIds, Option.map_map, hcarrier]

def Cfg.Closes (c : Cfg) (loop : Id) : Prop :=
  ∃ e ∈ c.edges, e.loopBack? = some loop

namespace DataDependence

variable {c : Cfg}

def Link.NamesLoop (c : Cfg) (l : Link) : Prop :=
  ∀ i ∈ l.carrier.toList, c.Closes i

theorem Link.namesLoop_of_none {l : Link} (h : l.carrier = none) : l.NamesLoop c := by
  rw [NamesLoop, h]
  exact fun i hi => nomatch hi

theorem closes_of_carrier {src dst l : Id} (h : carrier? (regions c) src dst = some l) : c.Closes l := by
  obtain ⟨r, hr, hl⟩ := Option.map_eq_some_iff.1 h
  have hsorted : r ∈ sortByTwo (fun r => (r.2.length : Int)) (·.1) ((regions c).entries.filter fun r =>
      r.2.contains src && r.2.contains dst) := mem_of_head? hr
  have hregion : r ∈ (regions c).entries :=
    (mem_filter.1 ((perm_sortWith _ _).mem_iff.1 hsorted)).1
  obtain ⟨k, hk, rfl⟩ := mem_map.1 hregion
  have hloop : k ∈ Search.fresh [] (c.edges.filterMap (·.loopBack?)) := (perm_sortWith _ _).mem_iff.1 hk
  obtain ⟨e, he, hback⟩ := mem_filterMap.1 (Search.mem_fresh.1 hloop).1
  exact ⟨e, he, hl ▸ hback⟩

theorem mem_of_mem_blockedEdges (hc : c.toGraph.Coherent) {v : Variable} {anchor : Id} {independent : List Id}
    {e : Edge} (he : e ∈ blockedEdges c v anchor independent) : e ∈ c.edges := by
  have hout : ∀ n, ∀ e ∈ flowOut c n, e ∈ c.edges := by
    intro n e he
    exact (hc.mem_edgesOutOf.1 (mem_filter.1 he).1).1
  rcases mem_append.1 he with he | he
  · exact hout anchor e (mem_filter.1 he).1
  · obtain ⟨n, -, he⟩ := mem_flatMap.1 he
    have honward := (mem_filter.1 he).1
    unfold onward at honward
    split at honward
    · cases honward
    · exact hout n e honward

theorem fst_mem_of_mem_carriedReach {v : Variable} {covered : List Id} {es : List Edge}
    {r : Edge × Id} (hr : r ∈ carriedReach c v covered es) : r.1 ∈ es := by
  induction es generalizing covered with
  | nil => cases hr
  | cons e es ih =>
    rcases mem_append.1 hr with hr | hr
    · obtain ⟨n, -, rfl⟩ := mem_map.1 hr
      exact mem_cons_self
    · exact mem_cons_of_mem _ (ih hr)

/-- Dependences name loops that some edge closes. -/
theorem namesLoop_of_mem_links (hc : c.toGraph.Coherent) {p : Program} {g : Graph} :
    ∀ l ∈ (links p g c).found, l.NamesLoop c := by
  refine forall_mem_links (fun l _ hnone => Link.namesLoop_of_none hnone) fun n v covered r hr => ?_
  have hblocked := fst_mem_of_mem_carriedReach hr
  have hedge : r.1 ∈ c.edges := mem_of_mem_blockedEdges hc ((perm_sortWith _ _).mem_iff.1 hblocked)
  unfold carriedLink
  split
  · exact Link.namesLoop_of_none rfl
  · intro i hi
    rw [Option.mem_toList] at hi
    cases hcarrier : carrier? (regions c) n.id r.2 with
    | some k =>
      rw [hcarrier] at hi
      exact Option.some.inj hi ▸ closes_of_carrier hcarrier
    | none =>
      rw [hcarrier] at hi
      exact ⟨r.1, hedge, hi⟩

end DataDependence

/-! ## Dependence graphs -/

namespace Pdg

variable {context : Context} {c c' : Cfg} {d d' : Pdg}

theorem Derived.closes_of_mem_refs (h : Derived context c d) (hc : c.toGraph.Coherent) :
    ∀ e ∈ d.edges, ∀ i ∈ e.label.refs, c.Closes i := by
  obtain ⟨between, -, -, -, hjoints⟩ := h.joints_eq
  intro e he i hi
  have hmem : e.joint ∈ d.edges.map joint := mem_map_of_mem he
  rw [hjoints, ← map_append, mem_append] at hmem
  rcases hmem with hmem | hmem
  · obtain ⟨l, -, heq⟩ := mem_map.1 hmem
    have hlabel : e.label = .dependence l.sort none none := (congrArg (·.2.2) heq).symm
    rw [hlabel] at hi
    cases hi
  · obtain ⟨l, hl, heq⟩ := mem_map.1 hmem
    have hlabel : e.label = .dependence l.sort (some l.var) l.carrier := (congrArg (·.2.2) heq).symm
    rw [hlabel] at hi
    exact DataDependence.namesLoop_of_mem_links hc l hl i hi

theorem Derived.nodeIds_subset (h : Derived context c d) (hentry : c.entry ∈ c.nodes) :
    ∀ i ∈ d.nodeIds, i ∈ c.nodeIds := by
  intro i hi
  rw [Graph.nodeIds, h.nodes_eq, ← Graph.nodeIds, mem_nodeIds_nodesOf] at hi
  rcases hi with heq | ⟨n, hn, -, hid⟩
  · rw [heq]
    exact mem_map_of_mem hentry
  · rw [← hid]
    exact mem_map_of_mem hn

theorem Derived.joints_copy {ρ : Renaming} {f : Id → Id} (hrenamed : Cfg.Renamed ρ c' c)
    (hback : ∀ i ∈ c'.nodeIds, f (ρ.node i) = i) (hd : Derived context c d) (hd' : Derived context c' d')
    (hc' : c'.toGraph.Coherent) (hentry : c'.entry ∈ c'.nodes) (hloops : ∀ l, c'.Closes l → l ∈ c'.nodeIds) :
    d'.edges.map joint = (d.edges.map joint).map (mapJoint f) := by
  have hsame : ∀ e ∈ d'.edges, mapJoint f (mapJoint ρ.node e.joint) = e.joint := by
    intro e he
    have hsrc := hback _ (hd'.nodeIds_subset hentry _ (hd'.coherent.src_mem e he))
    have hdst := hback _ (hd'.nodeIds_subset hentry _ (hd'.coherent.dst_mem e he))
    have hlabel : (e.label.mapIds ρ.node).mapIds f = e.label := by
      apply EdgeLabel.mapIds_back
      intro i hi
      exact hback i (hloops i (hd'.closes_of_mem_refs hc' e he i hi))
    simp only [mapJoint, joint, hsrc, hdst, hlabel]
  rw [Derived.joints_rename hrenamed hd' hd, map_map, map_map]
  exact (map_congr_left hsame).symm

end Pdg

/-! ## Copies -/

namespace Cfg

namespace CopiedTo

variable {c c' : Cfg} {ids : Table Id Id}

variable (h : c.CopiedTo c' ids)

include h

theorem nodeIds_eq : c'.nodeIds = c.nodeIds.map ids.newId := by
  rw [Graph.nodeIds, h.nodes_eq, map_map, Graph.nodeIds, map_map]
  rfl

theorem readable (hc : c.Readable) (hc' : c'.Orderly) : c'.Readable := by
  refine ⟨hc'.coherent, hc'.flow, ?_⟩
  rw [h.nodes_eq, forall_mem_map]
  intro n hn hcall
  have hpayload := hc.calls n hn hcall
  rw [Node.mapIds]
  cases hp : n.payload with
  | call => rfl
  | _ =>
    rw [hp] at hpayload
    cases hpayload

theorem closes_mem (hc : c.Copyable) {l : Id} (hl : c'.Closes l) : l ∈ c'.nodeIds := by
  obtain ⟨e', he', hback⟩ := hl
  rw [h.edges_eq] at he'
  obtain ⟨e, he, rfl⟩ := mem_map.1 he'
  have hmapped : (e.mapIds ids.newId).loopBack? = e.loopBack?.map ids.newId := by
    obtain ⟨_, _, _, _ | _ | _⟩ := e
    · rfl
    · rfl
    · rfl
  rw [hmapped] at hback
  obtain ⟨k, hk, rfl⟩ := Option.map_eq_some_iff.1 hback
  rw [h.nodeIds_eq]
  exact mem_map_of_mem (hc.loops e he k hk)

end CopiedTo

/-- **Copying commutes with deriving dependences.**  From every state a flow graph is copied under
ids that were not handed out before.  Its dependence graph is derived, and is copied from every
state; the edges of the copy are the images of its edges, in the same order. -/
structure CopyExact (context : Context) (c : Cfg) : Prop where
  flow : ∀ {σ : Type} (p : σ × Trail), ∃ c' ids next,
    (c.copy.run p : Except Error (Cfg × Table Id Id) × σ × Trail) =
        (.ok (c', ids), (p.1, { p.2 with next := next })) ∧
      c.CopiedTo c' ids ∧ ∀ i ∈ ids.values, p.2.next ≤ i ∧ i < next
  dependence : ∀ {σ : Type} (p : σ × Trail), ∃ d q,
    ((Pdg.ofCfg context c).run p : Except Error Pdg × σ × Trail) = (.ok d, q) ∧
      ∀ r : σ × Trail, ∃ d' c' ids s,
        ((d.copy context).run r : Except Error (Pdg × Table Id Id) × σ × Trail) = (.ok (d', ids), s)
          ∧ d'.cfg = some c' ∧ c.CopiedTo c' ids ∧ (∀ i ∈ ids.values, r.2.next ≤ i ∧ i < s.2.next) ∧
          d'.edges.map joint = (d.edges.map joint).map (mapJoint ids.newId)

theorem Copyable.ends_copyPdg {context : Context} {c : Cfg} {d : Pdg} (h : c.Copyable)
    (hread : c.Readable) (hd : Pdg.Derived context c d) (p : σ × Trail) : Returns (d.copy context) p
      fun a s => ∃ c', a.1.cfg = some c' ∧ c.CopiedTo c' a.2 ∧ (∀ i ∈ a.2.values, p.2.next ≤ i ∧
        i < s.2.next) ∧ a.1.edges.map joint = (d.edges.map joint).map (mapJoint a.2.newId) := by
  rw [Pdg.copy, hd.cfg_eq]
  simp only [ends_bind, ends_pure]
  apply (h.ends_copy p).imp
  rintro ⟨c', ids⟩ q ⟨⟨_, hcopied, hfresh⟩, hcopyable, ρ, hrenamed, hback⟩
  have hread' := hcopied.readable hread hcopyable.toOrderly
  have hentry : c'.entry ∈ c'.nodes := by
    obtain ⟨rest, hnodes⟩ := h.ends
    rw [hcopied.nodes_eq, hcopied.entry_eq, hnodes]
    exact mem_cons_self
  apply (Pdg.ends_ofCfg_readable hread' q).imp
  rintro d' s ⟨hd', -, hnext⟩
  refine ⟨c', hd'.cfg_eq, hcopied, fun i hi => ?_, ?_⟩
  · exact ⟨(hfresh i hi).1, Int.lt_of_lt_of_le (hfresh i hi).2 hnext⟩
  · exact Pdg.Derived.joints_copy hrenamed hback hd hd'.toDerived hread'.coherent hentry fun l hl =>
      hcopied.closes_mem h hl

theorem copyExact_of_readable (context : Context) {c : Cfg} (h : c.Copyable) (hread : c.Readable) :
    CopyExact context c where
  flow p := by
    obtain ⟨⟨c', ids⟩, q, hrun, ⟨hq, hcopied, hfresh⟩, -⟩ := (h.ends_copy p).exists_run
    exact ⟨c', ids, q.2.next, by rw [hrun, ← hq], hcopied, hfresh⟩
  dependence p := by
    obtain ⟨d, q, hrun, hd, -⟩ := (Pdg.ends_ofCfg_readable hread p).exists_run
    refine ⟨d, q, hrun, fun r => ?_⟩
    obtain ⟨⟨d', ids⟩, s, hrun', c', hcfg, hcopied, hfresh, hjoints⟩ :=
      (h.ends_copyPdg hread hd.toDerived r).exists_run
    exact ⟨d', c', ids, s, hrun', hcfg, hcopied, hfresh, hjoints⟩

/-- **Copies are isomorphic.**  The flow graph of a method or field, built alone or with its class,
is copied with its entry, its exit and its basic blocks, and so is the dependence graph that is
derived from it. -/
theorem built_copyExact {σ : Type} (context : Context) (p : σ × Trail) :
    (∀ (unit : UnitRef) (c : Cfg) (q : σ × Trail),
      ((ofUnit context unit).run p : Except Error Cfg × σ × Trail) = (.ok c, q) → c.CopyExact context) ∧
    (∀ (r : ClassRef) (cs : List Cfg) (failures : Table String Error) (q : σ × Trail),
      ((ofClass context r).run p : Except Error (List Cfg × Table String Error) × σ × Trail) =
        (.ok (cs, failures), q) → ∀ c ∈ cs, c.CopyExact context) := by
  have hunit : ∀ (unit : UnitRef) (p : σ × Trail),
      Ends (ofUnit context unit) p (fun c _ => c.CopyExact context) fun _ _ => True := by
    intro unit p
    apply (ends_ofUnit_copyable context unit p).mono _ fun _ _ _ => trivial
    rintro c _ ⟨hcopyable, hreadable⟩
    exact copyExact_of_readable context hcopyable hreadable
  constructor
  · intro unit c q hrun
    exact (ends_iff_of_run hrun).1 (hunit unit p)
  · intro r cs failures q hrun
    have hclass := ends_ofUnits context hunit (context.program.memberUnits r) {} (forall_mem_nil _) p
    exact (ends_iff_of_run hrun).1 hclass

def drained : Variable :=
  { name := "n", type := "int", owner := "drain", kind := .parameter }

/-- A loop that runs a switch over the value it counts down. -/
def drain : Method :=
  { name := "drain", parameters := [drained], returnType := "int"
    body := .block [.whileLoop (.name drained "n" 2) (.switch (.name drained "n" 3)
      [.mk (.literal "1" "int" 4) [.continueJump none 4] 4,
        .mk .absent [.expression (.assignment (.name drained "n" 5) (.name drained "n" 5) "=" 5) 5] 5] 3) 2,
      .returnJump (.name drained "n" 6) 6] 1 }

def draining : Program :=
  { methods := [drain], classes := [{ qualifiedName := "Drain", methods := [⟨0⟩] }] }

/-- Both edges that close the loop are copied, alone and with the class. -/
theorem draining_copyExact : (∃ c q, ((ofUnit { program := draining } (.method ⟨0⟩)).run ((), { next := 1 }) :
        Except Error Cfg × Unit × Trail) = (.ok c, q) ∧
      c.loopBackEdges.map joint = [(18, 5, .flow .true (some 5)), (11, 5, .flow .true (some 5))] ∧
      c.CopyExact { program := draining }) ∧
    (∃ cs failures q, ((ofClass { program := draining } ⟨0⟩).run ((), { next := 1 }) :
        Except Error (List Cfg × Table String Error) × Unit × Trail) = (.ok (cs, failures), q) ∧
      cs.length = 1 ∧ ∀ c ∈ cs, c.CopyExact { program := draining }) := by
  obtain ⟨hunit, hclass⟩ := built_copyExact { program := draining } ((), { next := 1 })
  constructor
  · obtain ⟨c, q, hrun, hback⟩ := (by decide +kernel :
      Returns (ofUnit { program := draining } (.method ⟨0⟩)) ((), { next := 1 }) fun c _ =>
        c.loopBackEdges.map joint = [(18, 5, .flow .true (some 5)), (11, 5, .flow .true (some 5))]).exists_run
    exact ⟨c, q, hrun, hback, hunit _ c q hrun⟩
  · obtain ⟨⟨cs, failures⟩, q, hrun, hlength⟩ := (by decide +kernel :
      Returns (ofClass { program := draining } ⟨0⟩) ((), { next := 1 })
        fun found _ => found.1.length = 1).exists_run
    exact ⟨cs, failures, q, hrun, hlength, hclass _ cs failures q hrun⟩

end Cfg

end ProgramDependence
