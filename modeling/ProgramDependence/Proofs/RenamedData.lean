import ProgramDependence.Proofs.RenamedControl

/-!
# Data dependence under new ids

The searches for data dependences meet the nodes of a renamed flow graph in the same order, and the
ties they break by ids are broken in the same way.  So the data dependences of the renamed graph are
those of the graph, renamed and in the same order.
-/

namespace ProgramDependence

open List Search

namespace DataDependence

open Cfg

def Link.rename (ρ : Renaming) (l : Link) : Link :=
  { l with src := ρ.node l.src, dst := ρ.node l.dst, carrier := l.carrier.map ρ.node }

variable {ρ : Renaming} {c c' : Cfg}

/-! ## Steps -/

section

variable (h : Renamed ρ c c')
include h

theorem flowOut_eq (n : Id) : flowOut c' (ρ.node n) = (flowOut c n).map (·.rename ρ) := by
  rw [flowOut, h.edgesOutOf_eq]
  apply filter_map_eq
  intro e
  rw [e.rename_isFallThrough]

theorem definesAt_eq (v : Variable) (n : Id) : definesAt c' v (ρ.node n) = definesAt c v n := by
  rw [definesAt, definesAt, h.node?_eq]
  cases c.node? n with
  | none => rfl
  | some m => rfl

theorem usesAt_eq (v : Variable) (n : Id) : usesAt c' v (ρ.node n) = usesAt c v n := by
  rw [usesAt, usesAt, h.node?_eq]
  cases c.node? n with
  | none => rfl
  | some m => rfl

theorem onward_eq (v : Variable) (n : Id) : onward c' v (ρ.node n) = (onward c v n).map (·.rename ρ) := by
  rw [onward, onward, definesAt_eq h, flowOut_eq h]
  split
  · rfl
  · rfl

theorem isReadable_eq (n : Id) : isReadable c' (ρ.node n) = isReadable c n := by
  rw [isReadable, h.edgesOutOf_eq, all_map]
  congr 1
  funext e
  exact e.rename_isFlow ρ

theorem isOnwardReadable_eq (v : Variable) (n : Id) :
    isOnwardReadable c' v (ρ.node n) = isOnwardReadable c v n := by
  rw [isOnwardReadable, isOnwardReadable, definesAt_eq h, isReadable_eq h]

theorem all_isOnwardReadable_eq (v : Variable) (ns : List Id) :
    (ns.map ρ.node).all (isOnwardReadable c' v) = ns.all (isOnwardReadable c v) := by
  rw [all_map]
  congr 1
  funext n
  exact isOnwardReadable_eq h v n

theorem clearReach_eq (v : Variable) (loopBack : Bool) (skip starts : List Id) :
    clearReach c' v loopBack (skip.map ρ.node) (starts.map ρ.node) =
      (clearReach c v loopBack skip starts).map ρ.node := by
  have hnext : ∀ n, ((onward c' v (ρ.node n)).filter fun e => loopBack || !e.isLoopBack).map (·.dst)
      = (((onward c v n).filter fun e => loopBack || !e.isLoopBack).map (·.dst)).map ρ.node := by
    intro n
    rw [onward_eq h, filter_map_eq (fun e => by rw [e.rename_isLoopBack]), map_map, map_map]
    rfl
  rw [clearReach, fresh_map ρ.node_inj, ← map_append, length_map, h.edges_eq, length_map]
  exact congrArg Trace.visited (run_map ρ.node_inj .queue hnext _ _ _ [])

end

/-! ## Loops -/

section

variable (h : Renamed ρ c c')
include h

theorem backEdges_eq (loop : Id) : backEdges c' (ρ.node loop) = (backEdges c loop).map (·.rename ρ) := by
  rw [backEdges, h.edges_eq]
  apply filter_map_eq
  intro e
  cases hloop : e.loopBack? with
  | none => simp [hloop]
  | some l => simp [hloop]

theorem region_eq (loop : Id) : region c' (ρ.node loop) = (region c loop).map ρ.node := by
  have hsrc : ∀ es : List Edge, (es.map (Edge.rename ρ)).map (·.src) = (es.map (·.src)).map ρ.node := by
    intro es
    rw [map_map, map_map]
    rfl
  have hdst : ∀ es : List Edge, (es.map (Edge.rename ρ)).map (·.dst) = (es.map (·.dst)).map ρ.node := by
    intro es
    rw [map_map, map_map]
    rfl
  have hnext : ∀ n, c'.neighbours false (fun e => !e.isFallThrough) (ρ.node n) =
      (c.neighbours false (fun e => !e.isFallThrough) n).map ρ.node := by
    apply h.neighbours_eq
    intro e
    rw [e.rename_isFallThrough]
  have htargets : fresh [] (((backEdges c loop).map (·.dst)).map ρ.node) =
      (fresh [] ((backEdges c loop).map (·.dst))).map ρ.node := fresh_map ρ.node_inj [] _
  have hsources : ((backEdges c loop).map (·.src)).map ρ.node ++ [ρ.node loop] =
      ((backEdges c loop).map (·.src) ++ [loop]).map ρ.node := by
    rw [map_append]
    rfl
  rw [region, backEdges_eq h, hsrc, hdst, htargets, hsources]
  rw [fresh_map ρ.node_inj, ← map_append, length_map, h.edges_eq, length_map]
  exact congrArg Trace.found (run_map ρ.node_inj .queue hnext _ _ _ [])

theorem loops_eq : loops c' = (loops c).map ρ.node := by
  have hnamed : c'.edges.filterMap (·.loopBack?) = (c.edges.filterMap (·.loopBack?)).map ρ.node := by
    rw [h.edges_eq, filterMap_map, map_filterMap]
    apply filterMap_congr
    intro e _
    exact e.rename_loopBack? ρ
  have hfresh : fresh [] ((c.edges.filterMap (·.loopBack?)).map ρ.node) =
      (fresh [] (c.edges.filterMap (·.loopBack?))).map ρ.node := fresh_map ρ.node_inj [] _
  rw [loops, hnamed, hfresh]
  apply sortBy_map
  intro i j
  exact ρ.node_le_iff

theorem regions_eq : regions c' = (regions c).rename ρ.node (List.map ρ.node) := by
  rw [regions, regions, loops_eq h, Table.rename, map_map, map_map]
  congr 1
  apply map_congr_left
  intro l _
  simp only [Function.comp_apply, region_eq h]

end

theorem regionSize_map (t : Table Id (List Id)) (loop : Option Id) :
    regionSize (t.rename ρ.node (List.map ρ.node)) (loop.map ρ.node) = regionSize t loop := by
  cases loop with
  | none => rfl
  | some l =>
    simp only [regionSize, Option.map_some, Option.bind_some, Table.find?_rename ρ.node_inj]
    cases t.find? l with
    | none => rfl
    | some r => simp

/-- Ties between regions are broken by ids, and so alike. -/
theorem carrier?_map (t : Table Id (List Id)) (src dst : Id) :
    carrier? (t.rename ρ.node (List.map ρ.node)) (ρ.node src) (ρ.node dst) =
    (carrier? t src dst).map ρ.node := by
  have hcommon : ((t.rename ρ.node (.map ρ.node)).entries.filter fun r =>
      r.2.contains (ρ.node src) && r.2.contains (ρ.node dst)) =
      (t.entries.filter fun r => r.2.contains src && r.2.contains dst).map fun r =>
        (ρ.node r.1, r.2.map ρ.node) := by
    apply filter_map_eq
    intro r
    simp only [contains_map ρ.node_inj]
  have hsorted : ∀ rs : List (Id × List Id),
      sortByTwo (fun r => (r.2.length : Int)) (·.1) (rs.map fun r => (ρ.node r.1, r.2.map ρ.node)) =
        (sortByTwo (fun r => (r.2.length : Int)) (·.1) rs).map fun r => (ρ.node r.1, r.2.map ρ.node) := by
    apply sortByTwo_map
    · intro r
      rw [length_map]
    · intro r s
      exact ρ.node_le_iff
  rw [carrier?, carrier?, hcommon, hsorted, head?_map, Option.map_map, Option.map_map]
  rfl

/-! ## From definitions to uses -/

section

variable (h : Renamed ρ c c')
include h

theorem blockedEdges_eq (v : Variable) (anchor : Id) (independent : List Id) :
    blockedEdges c' v (ρ.node anchor) (independent.map ρ.node) =
      (blockedEdges c v anchor independent).map (·.rename ρ) := by
  have hback : ∀ es : List Edge,
      (es.map (.rename ρ)).filter (·.isLoopBack) = (es.filter (·.isLoopBack)).map (·.rename ρ) := by
    intro es
    exact filter_map_eq (fun e => e.rename_isLoopBack ρ) es
  rw [blockedEdges, blockedEdges, flowOut_eq h, hback, flatMap_map, map_append, map_flatMap]
  congr 1
  apply flatMap_congr
  intro n _
  rw [onward_eq h, hback]

theorem carriedReach_eq (v : Variable) (covered : List Id) (es : List Edge) :
    carriedReach c' v (covered.map ρ.node) (es.map (·.rename ρ)) =
      (carriedReach c v covered es).map (Prod.map (·.rename ρ) ρ.node) := by
  induction es generalizing covered with
  | nil => rfl
  | cons e es ih =>
    have hreach := clearReach_eq h v true covered [e.dst]
    rw [map_cons, carriedReach, carriedReach]
    rw [show clearReach c' v true (covered.map ρ.node) [(e.rename ρ).dst] = _ from hreach, ← map_append, ih,
      map_append, map_map, map_map]
    rfl

theorem carriedLink_eq (t : Table Id (List Id)) (anchor : Node) (v : Variable) (e : Edge) (n : Id) :
    carriedLink c' (t.rename ρ.node (List.map ρ.node)) (anchor.rename ρ) v (e.rename ρ) (ρ.node n) =
      (carriedLink c t anchor v e n).rename ρ := by
  have hout : (c'.node? (ρ.node n)).any (fun m => m.sort = .parameter .formalOut) =
      (c.node? n).any fun m => m.sort = .parameter .formalOut := by
    rw [h.node?_eq]
    cases c.node? n with
    | none => rfl
    | some m => rfl
  have hcarrier : ((carrier? t anchor.id n).map ρ.node).orElse (fun _ => e.loopBack?.map ρ.node) =
      ((carrier? t anchor.id n).orElse fun _ => e.loopBack?).map ρ.node := by
    cases carrier? t anchor.id n with
    | none => rfl
    | some l => rfl
  rw [carriedLink, carriedLink, Node.rename_sort, hout, Node.rename_id, carrier?_map,
    Edge.rename_loopBack?, hcarrier]
  split
  · rfl
  · rfl

theorem isPureFlow_eq : c'.isPureFlow = c.isPureFlow := by
  rw [isPureFlow, h.edges_eq, all_map]
  congr 1
  funext e
  exact e.rename_isFlow ρ

/-- The dependences of a definition, renamed. -/
theorem defUse_eq (t : Table Id (List Id)) (anchor : Node) (v : Variable) :
    defUse c' (t.rename ρ.node (List.map ρ.node)) (anchor.rename ρ) v =
    (defUse c t anchor v).map (Link.rename ρ) := by
  have hstarts : ((flowOut c' (ρ.node anchor.id)).filter fun e => !e.isLoopBack).map (·.dst) =
      (((flowOut c anchor.id).filter fun e => !e.isLoopBack).map (·.dst)).map ρ.node := by
    rw [flowOut_eq h, filter_map_eq (fun e => by rw [e.rename_isLoopBack]), map_map, map_map]
    rfl
  have hindependent : clearReach c' v false [] (((flowOut c' (ρ.node anchor.id)).filter fun e =>
      !e.isLoopBack).map (·.dst)) = (clearReach c v false [] (((flowOut c anchor.id).filter fun e =>
      !e.isLoopBack).map (·.dst))).map ρ.node := by
    rw [hstarts]
    exact clearReach_eq h v false [] _
  have hsorted : ∀ es : List Edge,
      sortByTwo (fun e => regionSize (t.rename ρ.node (List.map ρ.node)) e.loopBack?) (·.id)
        (es.map (Edge.rename ρ)) =
      (sortByTwo (fun e => regionSize t e.loopBack?) (·.id) es).map (Edge.rename ρ) := by
    apply sortByTwo_map
    · intro e
      rw [e.rename_loopBack?, regionSize_map]
    · intro e f
      exact ρ.edge_le_iff
  have hcarried : ∀ rs : List (Edge × Id), ((rs.map (Prod.map (Edge.rename ρ) ρ.node)).filter fun r =>
      usesAt c' v r.2) = (rs.filter fun r => usesAt c v r.2).map (Prod.map (Edge.rename ρ) ρ.node) := by
    apply filter_map_eq
    intro r
    exact usesAt_eq h v r.2
  have huses : ∀ ns : List Id, (ns.map ρ.node).filter (usesAt c' v) = (ns.filter (usesAt c v)).map ρ.node :=
    filter_map_eq (usesAt_eq h v)
  simp only [defUse, Node.rename_id, hindependent, blockedEdges_eq h, hsorted, carriedReach_eq h, hcarried,
    isReadable_eq h, all_isOnwardReadable_eq h, huses, isPureFlow_eq h, isEmpty_map,
    Findings.map_append, ← Findings.map_require, ← Findings.map_ofList, map_map]
  congr 2
  apply map_congr_left
  intro r _
  exact carriedLink_eq h t anchor v r.1 r.2

end

/-! ## The other dependences -/

theorem flowOut_dst (h : Renamed ρ c c') (n : Id) :
    (flowOut c' (ρ.node n)).map (·.dst) = ((flowOut c n).map (·.dst)).map ρ.node := by
  rw [flowOut_eq h, map_map, map_map]
  rfl

theorem defOrder_eq (h : Renamed ρ c c') (anchor : Id) (v : Variable) :
    defOrder c' (ρ.node anchor) v = (defOrder c anchor v).map (Link.rename ρ) := by
  have hends : ∀ n, (definesAt c' v (ρ.node n) || usesAt c' v (ρ.node n)) =
    (definesAt c v n || usesAt c v n) := by
    intro n
    rw [definesAt_eq h, usesAt_eq h]
  have hnext : ∀ n, (if definesAt c' v (ρ.node n) || usesAt c' v (ρ.node n) then []
      else (flowOut c' (ρ.node n)).map (·.dst)) =
      (if definesAt c v n || usesAt c v n then [] else (flowOut c n).map (·.dst)).map ρ.node := by
    intro n
    rw [hends, flowOut_dst h]
    split
    · rfl
    · rfl
  have hfirst : fresh [ρ.node anchor] (((flowOut c anchor).map (·.dst)).map ρ.node) =
      (fresh [anchor] ((flowOut c anchor).map (·.dst))).map ρ.node := fresh_map ρ.node_inj [anchor] _
  have hrun : ∀ first : List Id, (run .queue (fun n => if definesAt c' v n || usesAt c' v n then []
      else (flowOut c' n).map (·.dst)) (first.length + c.edges.length) (first.map ρ.node)
      (ρ.node anchor :: first.map ρ.node) []).visited = (run .queue (fun n =>
      if definesAt c v n || usesAt c v n then [] else (flowOut c n).map (·.dst))
      (first.length + c.edges.length) first (anchor :: first) []).visited.map ρ.node := by
    intro first
    exact congrArg Trace.visited (run_map ρ.node_inj .queue hnext _ first (anchor :: first) [])
  simp only [defOrder, flowOut_dst h, hfirst, isReadable_eq h, length_map, h.edges_eq, hrun,
    Findings.map_append, ← Findings.map_require]
  congr 1
  apply Findings.overAll_map
  intro n
  rw [hends, isReadable_eq h, definesAt_eq h, Findings.map_append, ← Findings.map_require]
  split
  · rfl
  · rfl

theorem anti_eq (h : Renamed ρ c c') (anchor : Id) (v : Variable) :
    anti c' (ρ.node anchor) v = (anti c anchor v).map (Link.rename ρ) := by
  have hreach := clearReach_eq h v true [] ((flowOut c anchor).map (·.dst))
  have hdefs : ∀ ns : List Id, ((ns.map ρ.node).filter fun n => n ≠ ρ.node anchor &&
      definesAt c' v n) = (ns.filter fun n => n ≠ anchor && definesAt c v n).map ρ.node := by
    apply filter_map_eq
    intro n
    simp only [ne_eq, ρ.node_inj, definesAt_eq h]
  rw [map_nil] at hreach
  simp only [anti, flowOut_dst h, hreach, isReadable_eq h, all_isOnwardReadable_eq h, hdefs,
    Findings.map_append, ← Findings.map_require, ← Findings.map_ofList]
  rw [map_map, map_map]
  rfl

theorem byVariable_map (ns : List Node) : byVariable (ns.map (Node.rename ρ)) =
    (byVariable ns).map fun r => (r.1, r.2.map (Node.rename ρ)) := by
  have hvars : (ns.map (Node.rename ρ)).flatMap (·.defs) = ns.flatMap (·.defs) := by
    rw [flatMap_map]
    rfl
  have hdefs : ∀ v, (ns.map (Node.rename ρ)).filter (·.defines v) =
    (ns.filter (·.defines v)).map (Node.rename ρ) := by
    intro v
    exact filter_map_eq (fun _ => rfl) ns
  simp only [byVariable, hvars, hdefs, map_map]
  rfl

theorem pairs_map {α β : Type} (f : α → β) (xs : List α) :
    pairs (xs.map f) = (pairs xs).map (Prod.map f f) := by
  induction xs with
  | nil => rfl
  | cons x xs ih =>
    rw [map_cons, pairs, pairs, ih, map_append, map_map, map_map]
    rfl

theorem areExclusive_eq (h : Renamed ρ c c') (m n : Id) :
    areExclusive c' (ρ.node m) (ρ.node n) = areExclusive c m n := by
  have hreach : ∀ i, c'.reachable (ρ.node i) true true none = (c.reachable i true true none).map ρ.node := by
    intro i
    exact h.reachable_eq i true true none
  simp only [areExclusive, hreach, contains_map ρ.node_inj]

theorem reachedUses_map (ls : List Link) (src : Id) (v : Variable) :
    reachedUses (ls.map (Link.rename ρ)) (ρ.node src) v = (reachedUses ls src v).map ρ.node := by
  have hfilter :
      ((ls.map (Link.rename ρ)).filter fun l => l.src = ρ.node src && l.sort.isDefUse && l.var.same v) =
      (ls.filter fun l => l.src = src && l.sort.isDefUse && l.var.same v).map (Link.rename ρ) := by
    apply filter_map_eq
    intro l
    simp only [Link.rename, ρ.node_inj]
  rw [reachedUses, reachedUses, hfilter, map_map, map_map]
  rfl

theorem output_eq (h : Renamed ρ c c') (p : Program) (ns : List Node) (defUses : List Link) :
    output p c' (ns.map (Node.rename ρ)) (defUses.map (Link.rename ρ)) =
      (output p c ns defUses).map (Link.rename ρ) := by
  have hsorted : ∀ ms : List Node, sortByTwo (Node.line p) (·.id) (ms.map (Node.rename ρ)) =
      (sortByTwo (Node.line p) (·.id) ms).map (Node.rename ρ) := by
    apply sortByTwo_map
    · intro n
      rfl
    · intro m n
      exact ρ.node_le_iff
  rw [output, output, byVariable_map, flatMap_map, map_flatMap]
  apply flatMap_congr
  intro r _
  obtain ⟨v, ms⟩ := r
  simp only [hsorted, pairs_map]
  rw [@filter_map_eq _ _ (Prod.map (Node.rename ρ) (Node.rename ρ)) (fun r => areExclusive c r.1.id r.2.id &&
    (reachedUses defUses r.1.id v).any (reachedUses defUses r.2.id v).contains), map_map, map_map]
  · rfl
  · intro r
    simp only [Prod.map_fst, Prod.map_snd, Node.rename_id, areExclusive_eq h, reachedUses_map, any_map]
    congr 2
    funext n
    exact contains_map ρ.node_inj _ n

/-! ## Assembling -/

theorem distinctLinks_map (seen ls : List Link) :
    distinctLinks ((seen.map (Link.rename ρ)).map Link.key) (ls.map (Link.rename ρ)) =
      (distinctLinks (seen.map Link.key) ls).map (Link.rename ρ) := by
  induction ls generalizing seen with
  | nil => rfl
  | cons l ls ih =>
    have hkey : ∀ k : Link, (k.rename ρ).key = (l.rename ρ).key ↔ k.key = l.key := by
      simp [Link.key, Link.rename]
    have hseen : (l.rename ρ).key ∈ (seen.map (Link.rename ρ)).map Link.key ↔ l.key ∈ seen.map Link.key := by
      simp only [map_map, mem_map, Function.comp_apply, hkey]
    rw [map_cons, distinctLinks, distinctLinks, ih seen]
    by_cases hl : l.key ∈ seen.map Link.key
    · rw [if_pos hl, if_pos (hseen.2 hl)]
    · rw [if_neg hl, if_neg (mt hseen.1 hl)]
      exact congrArg (l.rename ρ :: ·) (ih (l :: seen))

/-- **The data dependences of a renamed flow graph are those of the graph, renamed.** -/
theorem links_eq (h : Renamed ρ c c') (p : Program) (g : Graph) :
    links p (g.rename ρ) c' = (links p g c).map (Link.rename ρ) := by
  have hnodes : (g.rename ρ).nodes = g.nodes.map (Node.rename ρ) := rfl
  have hdefNodes : (g.nodes.map (Node.rename ρ)).filter (fun n => !n.defs.isEmpty) =
      (g.nodes.filter fun n => !n.defs.isEmpty).map (Node.rename ρ) := filter_map_eq (fun _ => rfl) _
  have hperDef : ∀ ns : List Node, (ns.map (Node.rename ρ)).flatMap (fun n => n.defs.map fun v => (n, v)) =
      (ns.flatMap fun n => n.defs.map fun v => (n, v)).map fun r => (r.1.rename ρ, r.2) := by
    intro ns
    simp only [flatMap_map, map_flatMap, map_map]
    rfl
  have hperUse : ∀ ns : List Node, (ns.map (Node.rename ρ)).flatMap (fun n => n.uses.map fun v => (n, v)) =
      (ns.flatMap fun n => n.uses.map fun v => (n, v)).map fun r => (r.1.rename ρ, r.2) := by
    intro ns
    simp only [flatMap_map, map_flatMap, map_map]
    rfl
  have hfound : ∀ rs : List (Node × Variable),
      (rs.map fun r => (r.1.rename ρ, r.2)).map
      (fun r => (defUse c' (regions c') r.1 r.2, defOrder c' r.1.id r.2)) =
        (rs.map fun r => (defUse c (regions c) r.1 r.2, defOrder c r.1.id r.2)).map
          (Prod.map (Findings.map (Link.rename ρ)) (Findings.map (Link.rename ρ))) := by
    intro rs
    rw [map_map, map_map, regions_eq h]
    apply map_congr_left
    intro r _
    simp only [Function.comp_apply, Prod.map_apply, defUse_eq h, Node.rename_id, defOrder_eq h]
  have hselects : ∀ a : Findings Link, (a.select fun ls =>
      distinctLinks [] (ls.filter fun l => g.hasNode l.src && g.hasNode l.dst)).map (Link.rename ρ) =
      (a.map (Link.rename ρ)).select fun ls => distinctLinks [] (ls.filter fun l =>
        (g.rename ρ).hasNode l.src && (g.rename ρ).hasNode l.dst) := by
    intro a
    symm
    apply Findings.select_map
    intro ls
    rw [filter_map_eq (fun l => by rw [Link.rename, g.hasNode_rename, g.hasNode_rename])]
    exact distinctLinks_map [] _
  have hdefUses : ∀ fs : List (Findings Link × Findings Link),
      (fs.map (Prod.map (Findings.map (Link.rename ρ)) (Findings.map (Link.rename ρ)))).flatMap
        (·.1.found) = (fs.flatMap (·.1.found)).map (Link.rename ρ) := by
    intro fs
    rw [flatMap_map, map_flatMap]
    rfl
  simp only [links, hnodes, hdefNodes, hperDef, hperUse, hfound, hdefUses, output_eq h]
  rw [hselects, Findings.map_append, Findings.map_append]
  congr 3
  · apply Findings.overAll_map
    intro r
    exact (Findings.map_append r.1 r.2).symm
  · apply Findings.overAll_map
    intro r
    exact anti_eq h r.1.id r.2

end DataDependence

/-! ## Dependence graphs -/

namespace Pdg

open Cfg

theorem Derived.joints_eq {context : Context} {c : Cfg} {d : Pdg} (h : Derived context c d) :
    ∃ between : Graph, between.Coherent ∧ between.nodeIds = (nodesOf c).nodeIds ∧
      between.edges.map Edge.joint = (ControlDependence.structural context.settings (nodesOf c) c).found.map
        ControlDependence.Link.joint ∧
      d.edges.map Edge.joint = (ControlDependence.structural context.settings (nodesOf c) c).found.map
        ControlDependence.Link.joint ++ (ControlDependence.orphans context.settings between c
        (ControlDependence.structural context.settings (nodesOf c) c).found).map
        ControlDependence.Link.joint ++
        (DataDependence.links context.program (nodesOf c) c).found.map DataDependence.Link.joint := by
  obtain ⟨between, after, hcontrol, hdata⟩ := h.edges_eq
  have hfirst := hcontrol.first.joints_eq
  rw [edges_nodesOf, map_nil, nil_append] at hfirst
  refine ⟨between, hcontrol.coherent, hcontrol.first.nodeIds_eq, hfirst, ?_⟩
  rw [hdata.joints_eq, hcontrol.rest.joints_eq, hfirst]

/-- **The dependence graph of a renamed flow graph has the edges of the one of the graph, renamed
and in the same order.** -/
theorem Derived.joints_rename {context : Context} {ρ : Renaming} {c c' : Cfg} {d d' : Pdg}
    (h : Renamed ρ c c') (hd : Derived context c d) (hd' : Derived context c' d') :
    d'.edges.map Edge.joint = (d.edges.map Edge.joint).map (Edge.mapJoint ρ.node) := by
  have hids : (nodesOf c').nodeIds = (nodesOf c).nodeIds.map ρ.node := by
    rw [h.nodesOf_eq, Graph.nodeIds, Graph.nodeIds, Graph.rename, map_map, map_map]
    rfl
  have hstructural := congrArg Findings.found (ControlDependence.structural_eq h hids context.settings)
  have hlinks := congrArg Findings.found (DataDependence.links_eq h context.program (nodesOf c))
  rw [Findings.found_map] at hstructural hlinks
  obtain ⟨between, hcoherent, hbetween, hfirst, hjoints⟩ := hd.joints_eq
  obtain ⟨between', hcoherent', hbetween', hfirst', hjoints'⟩ := hd'.joints_eq
  rw [← hbetween, ← hbetween'] at hids
  rw [hstructural] at hfirst' hjoints'
  have horphans := ControlDependence.orphans_eq h hcoherent hcoherent' hids hfirst hfirst' context.settings
  rw [hjoints', hjoints, horphans, h.nodesOf_eq, hlinks]
  simp only [map_append, map_map]
  rfl

end Pdg

end ProgramDependence
