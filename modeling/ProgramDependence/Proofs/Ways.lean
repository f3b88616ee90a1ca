import ProgramDependence.Proofs.Wiring

/-!
# How nodes are left

The wires of structured control, told node by node: every node has one `Way` to be left, and the
wires of all ways are the wires of the control (`Control.wires_ways`).  A way fits some kinds of
nodes only, and so the kind of a node tells which wires leave it.
-/

namespace ProgramDependence

open List Line

open Lowering

/-! ## Ways -/

/-- How control leaves a node: onward, to a parameter, in one of two directions, or by a jump, which
may have no target, past what comes next. -/
inductive Way where
  | onward (dst : Target)
  | parameter (dst : Target)
  | fork (yes no : Target)
  | jump (j : Jump) (dst : Option Target) (next : Target)

def Way.wires (src : Id) : Way → List Wire
  | .onward dst => [dst.wire src .true]
  | .parameter dst => [dst.wire src .parameter]
  | .fork yes no => [yes.wire src .true, no.wire src .false]
  | .jump _ dst next => next.wire src .fallThrough :: (dst.map (·.wire src .true)).toList

structure Departure where
  node : Token
  way : Way

/-- The wires of some nodes with their ways. -/
def departures (ds : List Departure) : List Wire :=
  ds.flatMap fun d => d.way.wires d.node.id

@[simp] theorem departures_nil : departures [] = [] := rfl

@[simp] theorem departures_cons (d : Departure) (ds : List Departure) :
    departures (d :: ds) = d.way.wires d.node.id ++ departures ds := rfl

@[simp] theorem departures_append (a b : List Departure) :
    departures (a ++ b) = departures a ++ departures b :=
  flatMap_append

/-- Consecutive nodes lead to each other. -/
def linkWays : List Token → List Departure
  | a :: b :: rest => ⟨a, .onward b.target⟩ :: linkWays (b :: rest)
  | _ => []

/-- The nodes of a line lead to each other, and the last one is left in a given way. -/
def Line.ways (l : Line Token) (way : Way) : List Departure :=
  linkWays l.all ++ [⟨l.node, way⟩]

def linesWays : List (Line Token) → Target → List Departure
  | [], _ => []
  | l :: ls, next => l.ways (.onward (linesEntry ls next)) ++ linesWays ls next

mutual

def Control.ways : Control Token → Exits → Target → List Departure
  | .skip, _, _ => []
  | .seq a b, x, next => a.ways x (b.entry next) ++ b.ways (x.forget a.labels) next
  | .line l, _, next => l.ways (.onward next)
  | .jump l j, x, next => l.ways (.jump j (x.resolve j) next)
  | .branch t a b, x, next =>
    t.ways (.fork (a.entry next) (b.entry next)) ++ (a.ways x next ++ b.ways (x.forget a.labels) next)
  | .loop label t body update, x, next =>
    let back : Target := ⟨t.first.id, some t.node.id⟩
    let onward := linesEntry update back
    t.ways (.fork (body.entry onward) next) ++
      (body.ways (x.push ⟨.loop, label, next, onward⟩) onward ++ linesWays update back)
  | .doLoop label body t, x, next =>
    let onward := t.first.target
    body.ways (x.push ⟨.loop, label, next, onward⟩) onward ++
      t.ways (.fork ⟨(body.entry onward).node, some t.node.id⟩ next)
  | .switch s arms, x, next =>
    s.ways (.fork (arms.guardEntry (arms.missed next)) next) ++
      arms.ways (x.push ⟨.switch, none, next, next⟩) next (arms.missed next)
  | .labeled l body, x, next => body.ways (x.push ⟨.label, some l, next, next⟩) next

def Arms.ways : Arms Token → Exits → Target → Target → List Departure
  | .nil, _, _, _ => []
  | .guard t body rest, x, next, missed =>
    t.ways (.fork (body.entry (rest.bodyEntry next)) (rest.guardEntry missed)) ++
      (body.ways x (rest.bodyEntry next) ++ rest.ways (x.forget body.labels) next missed)
  | .default n body rest, x, next, missed =>
    ⟨n, .onward (body.entry (rest.bodyEntry next))⟩ ::
      (body.ways x (rest.bodyEntry next) ++ rest.ways (x.forget body.labels) next missed)

end

theorem links_ways (ts : List Token) : departures (linkWays ts) = links ts := by
  induction ts with
  | nil => rfl
  | cons a ts ih =>
    cases ts with
    | nil => rfl
    | cons b ts => rw [linkWays, departures_cons, ih]; rfl

theorem nodes_linkWays (ts : List Token) : (linkWays ts).map (·.node) = ts.dropLast := by
  induction ts with
  | nil => rfl
  | cons a ts ih =>
    cases ts with
    | nil => rfl
    | cons b ts => rw [linkWays, map_cons, ih]; rfl

@[simp] theorem departures_ways (l : Line Token) (way : Way) :
    departures (l.ways way) = links l.all ++ way.wires l.node.id := by
  simp [ways, links_ways]

theorem Line.nodes_linkWays (l : Line Token) : (linkWays l.all).map (·.node) = l.before := by
  rw [ProgramDependence.nodes_linkWays, all, dropLast_concat]

@[simp] theorem nodes_ways (l : Line Token) (way : Way) : (l.ways way).map (·.node) = l.all := by
  rw [ways, map_append, l.nodes_linkWays]
  rfl

theorem linesWires_ways (ls : List (Line Token)) (next : Target) :
    departures (linesWays ls next) = linesWires ls next := by
  induction ls with
  | nil => rfl
  | cons l ls ih =>
    rw [linesWays, departures_append, ih, departures_ways, append_assoc]
    rfl

theorem nodes_linesWays (ls : List (Line Token)) (next : Target) :
    (linesWays ls next).map (·.node) = ls.flatMap all := by
  induction ls with
  | nil => rfl
  | cons l ls ih => rw [linesWays, map_append, ih, nodes_ways, flatMap_cons]

mutual

/-- The wires of all ways are the wires of the control. -/
theorem Control.wires_ways : ∀ (k : Control Token) (x : Exits) (next : Target),
    departures (k.ways x next) = k.wires x next
  | .skip, _, _ => rfl
  | .seq a b, x, next => by
    rw [Control.ways, departures_append, a.wires_ways, b.wires_ways, Control.wires]
  | .line _, _, _ | .jump _ _, _, _ => by
    rw [Control.ways, departures_ways, Control.wires]
    rfl
  | .branch t a b, x, next => by
    rw [Control.ways, departures_append, departures_append, departures_ways, a.wires_ways,
      b.wires_ways, Control.wires, append_assoc]
    rfl
  | .loop label t body update, x, next => by
    simp only [Control.ways, departures_append, departures_ways, body.wires_ways, linesWires_ways,
      Control.wires, append_assoc]
    rfl
  | .doLoop label body t, x, next => by
    simp only [Control.ways, departures_append, departures_ways, body.wires_ways, Control.wires]
    rfl
  | .switch s arms, x, next => by
    rw [Control.ways, departures_append, departures_ways, arms.wires_ways, Control.wires, append_assoc]
    rfl
  | .labeled l body, x, next => by
    rw [Control.ways, body.wires_ways, Control.wires]

theorem Arms.wires_ways : ∀ (arms : Arms Token) (x : Exits) (next missed : Target),
    departures (arms.ways x next missed) = arms.wires x next missed
  | .nil, _, _, _ => rfl
  | .guard t body rest, x, next, missed => by
    rw [Arms.ways, departures_append, departures_append, departures_ways, body.wires_ways,
      rest.wires_ways, Arms.wires, append_assoc]
    rfl
  | .default n body rest, x, next, missed => by
    rw [Arms.ways, departures_cons, departures_append, body.wires_ways, rest.wires_ways, Arms.wires]
    rfl

end

mutual

/-- Every node has one way. -/
theorem Control.nodes_ways : ∀ (k : Control Token) (x : Exits) (next : Target),
    ((k.ways x next).map (·.node)).Perm k.nodes
  | .skip, _, _ => .refl _
  | .seq a b, x, next => by
    rw [Control.ways, map_append]
    exact (a.nodes_ways _ _).append (b.nodes_ways _ _)
  | .line l, x, next | .jump l j, x, next => by
    rw [Control.ways, nodes_ways]
    exact .refl _
  | .branch t a b, x, next => by
    rw [Control.ways, map_append, map_append, nodes_ways]
    exact ((a.nodes_ways _ _).append (b.nodes_ways _ _)).append_left _
  | .loop label t body update, x, next => by
    simp only [Control.ways, map_append, nodes_ways, nodes_linesWays]
    exact ((body.nodes_ways _ _).append_right _).append_left _
  | .doLoop label body t, x, next => by
    simp only [Control.ways, map_append, nodes_ways]
    exact (body.nodes_ways _ _).append_right _
  | .switch s arms, x, next => by
    rw [Control.ways, map_append, nodes_ways]
    exact (arms.nodes_ways _ _ _).append_left _
  | .labeled l body, x, next => body.nodes_ways _ _

theorem Arms.nodes_ways : ∀ (arms : Arms Token) (x : Exits) (next missed : Target),
    ((arms.ways x next missed).map (·.node)).Perm arms.nodes
  | .nil, _, _, _ => .refl _
  | .guard t body rest, x, next, missed => by
    classical
    rw [Arms.ways, map_append, map_append, nodes_ways]
    refine perm_iff_count.2 fun n => ?_
    have hbody := (body.nodes_ways x (rest.bodyEntry next)).count_eq n
    have hrest := (rest.nodes_ways (x.forget body.labels) next missed).count_eq n
    simp only [Arms.nodes, Arms.guards, Arms.defaults, Arms.bodies, count_append] at hrest ⊢
    omega
  | .default d body rest, x, next, missed => by
    classical
    rw [Arms.ways, map_cons, map_append]
    refine perm_iff_count.2 fun n => ?_
    have hbody := (body.nodes_ways x (rest.bodyEntry next)).count_eq n
    have hrest := (rest.nodes_ways (x.forget body.labels) next missed).count_eq n
    simp only [Arms.nodes, Arms.guards, Arms.defaults, Arms.bodies, count_append, count_cons]
      at hrest ⊢
    omega

end

/-! ## Kinds of nodes -/

/-- The kinds of nodes that are left in one of two directions. -/
def NodeSort.forks : NodeSort → Bool
  | .statement .ifElse | .statement .whileLoop | .statement .doLoop | .statement .forLoop
  | .statement .switch | .statement .switchCase | .statement .tryCatch | .statement .catchClause => true
  | _ => false

/-- The kinds of nodes that jump. -/
def NodeSort.jumps : NodeSort → Bool
  | .statement .breakJump | .statement .continueJump | .statement .returnJump | .statement .throwJump =>
    true
  | _ => false

/-- The kinds of nodes that control passes straight through. -/
def NodeSort.passes (s : NodeSort) : Bool :=
  !s.forks && !s.jumps && !s.isExit

/-- The kind of the nodes of a jump. -/
def Jump.sort : Jump → StatementSort
  | .breakTo _ => .breakJump
  | .continueTo _ => .continueJump
  | .returning => .returnJump
  | .throwing => .throwJump

/-- Whether nodes of a kind are left in this way.  Only breaks and continues can miss their target. -/
def Way.Fits : Way → NodeSort → Prop
  | .onward _, s | .parameter _, s => s.passes = true
  | .fork _ _, s => s.forks = true
  | .jump j dst _, s =>
    s = .statement j.sort ∧ (dst = none → s = .statement .breakJump ∨ s = .statement .continueJump)

theorem NodeSort.jumps_of_forks {s : NodeSort} (h : s.forks = true) : s.jumps = false := by
  cases s with
  | statement t => cases t <;> first | rfl | cases h
  | _ => rfl

theorem NodeSort.isExit_of_forks {s : NodeSort} (h : s.forks = true) : s.isExit = false := by
  cases s with
  | exit => cases h
  | _ => rfl

theorem NodeSort.isExit_of_jumps {s : NodeSort} (h : s.jumps = true) : s.isExit = false := by
  cases s with
  | exit => cases h
  | _ => rfl

theorem Jump.jumps_sort (j : Jump) : (NodeSort.statement j.sort).jumps = true := by
  cases j <;> rfl

namespace Way.Fits

variable {way : Way} {s : NodeSort}

theorem fork (h : way.Fits s) (hs : s.forks = true) : ∃ yes no, way = .fork yes no := by
  cases way with
  | fork yes no => exact ⟨yes, no, rfl⟩
  | onward dst | parameter dst => simp [Way.Fits, NodeSort.passes, hs] at h
  | jump j dst next =>
    have hjumps := NodeSort.jumps_of_forks hs
    rw [h.1, j.jumps_sort] at hjumps
    cases hjumps

theorem jump (h : way.Fits s) (hs : s.jumps = true) : ∃ j dst next, way = .jump j dst next := by
  cases way with
  | jump j dst next => exact ⟨j, dst, next, rfl⟩
  | onward dst | parameter dst => simp [Way.Fits, NodeSort.passes, hs] at h
  | fork yes no =>
    rw [NodeSort.jumps_of_forks h] at hs
    cases hs

theorem pass (h : way.Fits s) (hforks : s.forks = false) (hjumps : s.jumps = false) :
    ∃ dst, way = .onward dst ∨ way = .parameter dst := by
  cases way with
  | onward dst => exact ⟨dst, .inl rfl⟩
  | parameter dst => exact ⟨dst, .inr rfl⟩
  | fork yes no =>
    rw [show s.forks = true from h] at hforks
    cases hforks
  | jump j dst next =>
    rw [h.1, j.jumps_sort] at hjumps
    cases hjumps

end Way.Fits

/-- Whether a node is left in a way that fits its kind. -/
def Departure.Fits (d : Departure) : Prop :=
  d.way.Fits d.node.label.sort

/-- Whether the nodes of a line before the last are passed straight through, and the last is of a
certain kind. -/
def Line.Stands (good : NodeSort → Prop) (l : Line Label) : Prop :=
  (∀ t ∈ l.before, t.sort.passes = true) ∧ good l.node.sort

theorem linkWays_fits {ts : List Token} (hts : ∀ t ∈ ts.dropLast, t.label.sort.passes = true) :
    ∀ d ∈ linkWays ts, d.Fits := by
  induction ts with
  | nil => simp [linkWays]
  | cons a ts ih =>
    cases ts with
    | nil => simp [linkWays]
    | cons b ts =>
      rw [dropLast_cons_cons, forall_mem_cons] at hts
      intro d hd
      rcases mem_cons.1 hd with rfl | hd
      · exact hts.1
      · exact ih hts.2 d hd

theorem Line.Stands.fits {l : Line Token} (way : Way) (h : (l.map Token.label).Stands way.Fits) :
    ∀ d ∈ l.ways way, d.Fits := by
  intro d hd
  rcases mem_append.1 hd with hd | hd
  · refine linkWays_fits (fun t ht => ?_) d hd
    rw [all, dropLast_concat] at ht
    exact h.1 _ (mem_map_of_mem ht)
  · rw [mem_singleton.1 hd]
    exact h.2

theorem linesWays_fits {ls : List (Line Token)} (hls : ∀ l ∈ ls, (l.map Token.label).Stands (·.passes = true))
    (next : Target) : ∀ d ∈ linesWays ls next, d.Fits := by
  induction ls with
  | nil => simp [linesWays]
  | cons l ls ih =>
    rw [forall_mem_cons] at hls
    intro d hd
    rcases mem_append.1 hd with hd | hd
    · exact Stands.fits (.onward _) hls.1 d hd
    · exact ih hls.2 d hd

/-! ## Calls -/

/-- The nodes shown so far are passed straight through. -/
def Tally.Passes (t : Tally) : Prop :=
  ∀ label ∈ t.labels, label.sort.passes = true

namespace Tally.Passes

variable {t : Tally} {scope : Scope}

section

variable (h : t.Passes)

include h

theorem emit (label : Label) (cs : List Charge) (hlabel : label.sort.passes = true) :
    (t.emit label cs).Passes := by
  intro l hl
  rw [Tally.labels, Tally.emit, map_append] at hl
  rcases mem_append.1 hl with hl | hl
  · exact h l hl
  · rw [mem_singleton.1 hl]
    exact hlabel

theorem chargeResolved (defining : Bool) (e : Expr) (v : Option Variable) :
    (t.chargeResolved defining e v).Passes := by
  cases v <;> exact h

theorem handBack (b : Bill) : (t.handBack b).Passes := by
  unfold Tally.handBack
  split
  · split
    · exact h
    · exact h.emit _ _ rfl
  · exact h

theorem result (e : Expr) (callee : Method) : (t.result scope e callee).Passes := by
  unfold Tally.result
  split
  · exact h
  · exact h.emit _ _ rfl

end

theorem foldl_handBack (done : List Bill) (h : t.Passes) : (done.foldl .handBack t).Passes := by
  induction done generalizing t with
  | nil => exact h
  | cons b done ih => exact ih (h.handBack b)

theorem call {sort : StatementSort} (hsort : (NodeSort.statement sort).passes = true) (h : t.Passes)
    (e : Expr) (b : MethodRef) (callee : Method) {actuals : Tally → List Bill → Tally × List Bill}
    {merged : Tally → Tally} (hactuals : ∀ u done, u.Passes → (actuals u done).1.Passes)
    (hmerged : ∀ u, u.Passes → (merged u).Passes) : (t.call scope sort e b callee actuals merged).Passes := by
  unfold Tally.call
  dsimp only
  split
  · refine result (foldl_handBack _ (emit ?_ _ _ hsort)) e callee
    exact hactuals _ _ h
  · have hinner := hmerged { t with charges := [], notes := (t.notes.expands scope b).2 } h
    exact emit hinner ⟨.statement sort, .ofExpr e⟩ _ hsort

end Tally.Passes

mutual

/-- What an expression shows is passed straight through. -/
theorem tally_passes (scope : Scope) : ∀ (e : Expr) (defining : Bool) (t : Tally), t.Passes →
    (tally scope defining e t).Passes
  | .absent, _, _, h | .literal _ _ _, _, _, h => h
  | .self _ _, _, _, h => h
  | .name v _ _, defining, _, h => h.chargeResolved defining _ v
  | .fieldAccess r v _ _, defining, t, h => (tally_passes scope r false t h).chargeResolved defining _ v
  | .assignment target value op _, _, t, h => by
    have htarget := tally_passes scope target true t h
    rw [tally]
    split
    · exact tally_passes scope value false _ (tally_passes scope target false _ htarget)
    · exact tally_passes scope value false _ htarget
  | .unary op x _ _, _, t, h => by
    have hx := tally_passes scope x false t h
    rw [tally]
    split
    · exact tally_passes scope x true _ hx
    · exact hx
  | .binary l _ r _, _, t, h => tally_passes scope r false _ (tally_passes scope l false t h)
  | .instanceOf x _ _, _, t, h | .cast _ x _, _, t, h => tally_passes scope x false t h
  | .conditional c p n _, _, t, h =>
    tally_passes scope n false _ (tally_passes scope p false _ (tally_passes scope c false t h))
  | .arrayAccess a i _, defining, t, h => tally_passes scope i false _ (tally_passes scope a defining t h)
  | .arrayInitializer es _, _, t, h | .other _ es _, _, t, h => tallyAll_passes scope es t h
  | .arrayCreation _ ds i _, _, t, h => tally_passes scope i false _ (tallyAll_passes scope ds t h)
  | .methodCall _ as r _ _ _, _, t, h | .instanceCreation _ as _ r _, _, t, h => by
    rw [tally]
    split
    · exact h
    · exact tally_passes scope r false _
        (h.call rfl _ _ _ (tallyActuals_passes scope _ as) (tallyAll_passes scope as))
  | .constructorCall as b n line, _, t, h => by
    rw [tally]
    split
    · exact h
    · exact h.call rfl _ _ _ (tallyActuals_passes scope _ as) (tallyAll_passes scope as)

theorem tallyAll_passes (scope : Scope) : ∀ (es : List Expr) (t : Tally), t.Passes →
    (tallyAll scope es t).Passes
  | [], _, h => h
  | e :: es, t, h => tallyAll_passes scope es _ (tally_passes scope e false t h)

theorem tallyActuals_passes (scope : Scope) (callee : Method) :
    ∀ (es : List Expr) (t : Tally) (done : List Bill),
    t.Passes → (tallyActuals scope callee es t done).1.Passes
  | [], _, _, h => h
  | e :: es, t, done, h => by
    have he := tally_passes scope e false (t.openArgument scope callee done.length) h
    exact tallyActuals_passes scope callee es _ _ (he.emit _ _ rfl)

end

theorem lineOf_stands {good : NodeSort → Prop} {scope : Scope} {label : Label} {es : List Expr}
    {n : Notes} (hlabel : good label.sort) : (lineOf scope label es n).1.Stands good :=
  ⟨tallyAll_passes scope es { notes := n } (by simp [Tally.Passes, Tally.labels]), hlabel⟩

theorem updatersOf_stands {scope : Scope} (es : List Expr) (n : Notes) :
    ∀ l ∈ (updatersOf scope es n).1, l.Stands (·.passes = true) := by
  induction es generalizing n with
  | nil => simp [updatersOf]
  | cons e es ih => exact forall_mem_cons.2 ⟨lineOf_stands rfl, ih _⟩

theorem fragmentsOf_stands {scope : Scope} {whole : Option Stmt} (fs : List Fragment) (n : Notes) :
    ∀ l ∈ (fragmentsOf scope whole fs n).1, l.Stands (·.passes = true) := by
  induction fs generalizing n with
  | nil => simp [fragmentsOf]
  | cons f fs ih => exact forall_mem_cons.2 ⟨lineOf_stands rfl, ih _⟩

end ProgramDependence
