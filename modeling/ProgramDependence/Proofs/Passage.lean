import ProgramDependence.Proofs.Layout
import ProgramDependence.Proofs.Walk

/-!
# Ways through structured control

Where the wires of structured control lead, whatever else is wired: from its first node to what
comes after it (`Control.entry_leads`), from every node to what comes after it, and from its first
node to every node, if no switch has two default cases (`Control.node_leads`).
-/

namespace ProgramDependence

open List Control
variable {t : Token}

def Along (wires : List Wire) (tags : Option Id → Prop) (a b : Id) : Prop :=
  ∃ w ∈ wires, tags w.loop ∧ w.src = a ∧ w.dst = b

/-- Steps along wires whose tags are allowed. -/
abbrev Leads (wires : List Wire) (tags : Option Id → Prop) : Id → Id → Prop :=
  Relation.ReflTransGen (Along wires tags)

def anyTag (_ : Option Id) : Prop :=
  True

theorem anyTag_intro (tag : Option Id) : anyTag tag :=
  trivial

def untagged (tag : Option Id) : Prop :=
  tag = none

variable {W : List Wire} {tags : Option Id → Prop} {next : Target}

theorem Along.of_mem {w : Wire} (hw : w ∈ W) (htag : tags w.loop) : Along W tags w.src w.dst :=
  ⟨w, hw, htag, rfl, rfl⟩

theorem Leads.of_wire {t : Target} {src : Id} {sort : FlowSort} (hw : t.wire src sort ∈ W)
    (htag : tags t.loop) : Leads W tags src t.node :=
  .single (.of_mem hw htag)

/-! ## Lines -/

section

variable (hnone : tags none)

include hnone

/-- The nodes of a list of linked nodes are led to from the first and lead to the last. -/
theorem leads_links (ts : List Token) (hsub : links ts ⊆ W) :
    (∀ a ∈ ts.head?, ∀ t ∈ ts, Leads W tags a.id t.id) ∧
    ∀ b ∈ ts.getLast?, ∀ t ∈ ts, Leads W tags t.id b.id := by
  induction ts with
  | nil => simp
  | cons a ts ih =>
    cases ts with
    | nil =>
      constructor <;> intro b hb t ht
      all_goals
        obtain rfl : t = a := by simpa using ht
        obtain rfl : t = b := by simpa using hb
        exact .refl
    | cons a' ts =>
      rw [links, cons_subset] at hsub
      obtain ⟨hfrom, hto⟩ := ih hsub.2
      have hfirst : Leads W tags a.id a'.id := .single (.of_mem hsub.1 hnone)
      constructor
      · intro b hb t ht
        obtain rfl : a = b := by simpa using hb
        rcases mem_cons.1 ht with rfl | ht
        · exact .refl
        · exact hfirst.trans (hfrom a' rfl t ht)
      · intro b hb t ht
        rcases mem_cons.1 ht with rfl | ht
        · exact hfirst.trans (hto b hb a' (by simp))
        · exact hto b hb t ht

theorem Line.leads_node (l : Line Token) (hsub : links l.all ⊆ W)
    (ht : t ∈ l.all) : Leads W tags t.id l.node.id :=
  (leads_links hnone l.all hsub).2 l.node (by simp [Line.all]) t ht

theorem Line.first_leads (l : Line Token) (hsub : links l.all ⊆ W)
    (ht : t ∈ l.all) : Leads W tags l.first.id t.id := by
  obtain ⟨rest, hall⟩ := l.exists_all_eq
  exact (leads_links hnone l.all hsub).1 l.first (by simp [hall]) t ht

theorem linesEntry_tag (ls : List (Line Token)) (hnext : tags next.loop) :
    tags (linesEntry ls next).loop := by
  cases ls with
  | nil => exact hnext
  | cons => exact hnone

theorem lines_through (ls : List (Line Token)) (hsub : linesWires ls next ⊆ W)
    (hnext : tags next.loop) : Leads W tags (linesEntry ls next).node next.node := by
  induction ls with
  | nil => exact .refl
  | cons l ls ih =>
    rw [linesWires, append_subset, cons_subset] at hsub
    exact (l.first_leads hnone hsub.1 l.node_mem).trans
      ((Leads.of_wire hsub.2.1 (linesEntry_tag hnone ls hnext)).trans (ih hsub.2.2))

end

theorem lines_connected (ls : List (Line Token)) (hsub : linesWires ls next ⊆ W)
    (ht : t ∈ ls.flatMap Line.all) : Leads W anyTag t.id next.node ∧
    Leads W anyTag (linesEntry ls next).node t.id := by
  induction ls with
  | nil => simp at ht
  | cons l ls ih =>
    rw [linesWires, append_subset, cons_subset] at hsub
    have honward : Leads W anyTag l.node.id (linesEntry ls next).node := .of_wire hsub.2.1 trivial
    rcases mem_append.1 (flatMap_cons ▸ ht) with ht | ht
    · exact ⟨(l.leads_node trivial hsub.1 ht).trans
        (honward.trans (lines_through trivial ls hsub.2.2 trivial)), l.first_leads trivial hsub.1 ht⟩
    · exact ⟨(ih hsub.2.2 ht).1, ((l.first_leads trivial hsub.1 l.node_mem).trans honward).trans
        (ih hsub.2.2 ht).2⟩

/-! ## Ways through -/

theorem Control.entry_tag (hnone : tags none) (k : Control Token) (hnext : tags next.loop) :
    tags (k.entry next).loop := by
  rw [entry]
  cases k.first? with
  | none => exact hnext
  | some t => exact hnone

/-- Control can be passed from its entry to what follows it. -/
theorem Control.entry_leads (hnone : tags none) : ∀ (k : Control Token) (x : Exits) (next : Target),
    k.wires x next ⊆ W → tags next.loop → Leads W tags (k.entry next).node next.node
  | .skip, _, _, _, _ => .refl
  | .seq a b, x, next, hsub, hnext => by
    rw [wires, append_subset] at hsub
    rw [entry_seq]
    exact (a.entry_leads hnone x _ hsub.1 (b.entry_tag hnone hnext)).trans
      (b.entry_leads hnone _ next hsub.2 hnext)
  | .line l, x, next, hsub, hnext => by
    rw [wires, append_subset, cons_subset] at hsub
    exact (l.first_leads hnone hsub.1 l.node_mem).trans (Leads.of_wire hsub.2.1 hnext)
  | .jump l j, x, next, hsub, hnext => by
    -- Past a jump there is its fall-through wire.
    rw [wires, append_subset, cons_subset] at hsub
    exact (l.first_leads hnone hsub.1 l.node_mem).trans (Leads.of_wire hsub.2.1 hnext)
  | .branch t a b, x, next, hsub, hnext => by
    simp only [wires, append_subset, cons_subset] at hsub
    exact (t.first_leads hnone hsub.1 t.node_mem).trans
      ((Leads.of_wire hsub.2.1 (a.entry_tag hnone hnext)).trans
      (a.entry_leads hnone x next hsub.2.2.2.1 hnext))
  | .loop _ t _ _, x, next, hsub, hnext | .switch t _, x, next, hsub, hnext => by
    simp only [wires, append_subset, cons_subset] at hsub
    exact (t.first_leads hnone hsub.1 t.node_mem).trans (Leads.of_wire hsub.2.2.1 hnext)
  | .doLoop label body t, x, next, hsub, hnext => by
    simp only [wires, append_subset, cons_subset] at hsub
    rw [entry_doLoop]
    exact (body.entry_leads hnone _ _ hsub.1 hnone).trans
      ((t.first_leads hnone hsub.2.1 t.node_mem).trans (Leads.of_wire hsub.2.2.2.1 hnext))
  | .labeled l body, x, next, hsub, hnext => body.entry_leads hnone _ next hsub hnext

theorem Arms.bodyEntry_tag (hnone : tags none) (hnext : tags next.loop) : ∀ arms : Arms Token,
    tags (arms.bodyEntry next).loop
  | .nil => hnext
  | .guard _ body rest | .default _ body rest =>
    body.entry_tag hnone (Arms.bodyEntry_tag hnone hnext rest)

theorem Arms.entry_leads (hnone : tags none) : ∀ (arms : Arms Token) (x : Exits) (next missed : Target),
    arms.wires x next missed ⊆ W → tags next.loop → Leads W tags (arms.bodyEntry next).node next.node
  | .nil, _, _, _, _, _ => .refl
  | .guard t body rest, x, next, missed, hsub, hnext => by
    simp only [Arms.wires, append_subset, cons_subset] at hsub
    exact (body.entry_leads hnone x _ hsub.2.2.2.1 (rest.bodyEntry_tag hnone hnext)).trans
      (rest.entry_leads hnone _ next missed hsub.2.2.2.2 hnext)
  | .default n body rest, x, next, missed, hsub, hnext => by
    simp only [Arms.wires, append_subset, cons_subset] at hsub
    exact (body.entry_leads hnone x _ hsub.2.1 (rest.bodyEntry_tag hnone hnext)).trans
      (rest.entry_leads hnone _ next missed hsub.2.2 hnext)

/-! ## Ways out and ways in -/

theorem Arms.guardEntry_tag {missed : Target} (hnone : tags none) (hmissed : tags missed.loop) :
    ∀ arms : Arms Token, tags (arms.guardEntry missed).loop
  | .nil => hmissed
  | .guard _ _ _ => hnone
  | .default _ _ rest => Arms.guardEntry_tag hnone hmissed rest

theorem Arms.mem_nodes_guard {l : Line Token} {body : Control Token} {rest : Arms Token} :
    t ∈ (Arms.guard l body rest).nodes ↔ t ∈ l.all ∨ t ∈ body.nodes ∨ t ∈ rest.nodes := by
  simp only [Arms.nodes, Arms.guards, Arms.bodies, mem_append]
  tauto

theorem Arms.mem_nodes_default {n : Token} {body : Control Token} {rest : Arms Token} :
    t ∈ (Arms.default n body rest).nodes ↔ t = n ∨ t ∈ body.nodes ∨ t ∈ rest.nodes := by
  simp only [Arms.nodes, Arms.defaults, Arms.bodies, mem_append, mem_cons]
  tauto

theorem Arms.missed_eq (arms : Arms Token) (hsingle : arms.defaults.length ≤ 1) {d : Token}
    (hd : d ∈ arms.defaults) : (arms.missed next).node = d.id := by
  have hdefaults : arms.defaults = [d] := by
    cases h : arms.defaults with
    | nil => simp [h] at hd
    | cons e es =>
      rw [h, length_cons] at hsingle
      obtain rfl : es = [] := length_eq_zero_iff.1 (by omega)
      rw [h, mem_singleton] at hd
      rw [hd]
  simp [Arms.missed, hdefaults, Token.target]

theorem Arms.guards_through (hnone : tags none) {a : Id} : ∀ (arms : Arms Token) (x : Exits)
    (next missed : Target), arms.wires x next missed ⊆ W → tags missed.loop →
      Leads W tags a (arms.guardEntry missed).node → Leads W tags a missed.node
  | .nil, _, _, _, _, _, h => h
  | .guard t body rest, x, next, missed, hsub, hmissed, h => by
    simp only [Arms.wires, append_subset, cons_subset] at hsub
    have htag : tags (rest.guardEntry missed).loop := Arms.guardEntry_tag hnone hmissed rest
    exact rest.guards_through hnone _ next missed hsub.2.2.2.2 hmissed
      ((h.trans (t.first_leads hnone hsub.1 t.node_mem)).trans (Leads.of_wire hsub.2.2.1 htag))
  | .default n body rest, x, next, missed, hsub, hmissed, h => by
    simp only [Arms.wires, append_subset, cons_subset] at hsub
    exact rest.guards_through hnone _ next missed hsub.2.2 hmissed h

mutual

/-- Every node leads on, and is led to if no switch has two defaults. -/
theorem Control.node_leads : ∀ (k : Control Token) (x : Exits) (next : Target), k.wires x next ⊆ W →
    ∀ t ∈ k.nodes, Leads W anyTag t.id next.node ∧
    (k.singleDefaults = true → Leads W anyTag (k.entry next).node t.id)
  | .skip, _, _, _, t, ht => by simp [nodes] at ht
  | .seq a b, x, next, hsub, t, ht => by
    rw [wires, append_subset] at hsub
    rw [nodes, mem_append] at ht
    rw [entry_seq, singleDefaults, Bool.and_eq_true]
    rcases ht with ht | ht
    · obtain ⟨hout, hin⟩ := a.node_leads x _ hsub.1 t ht
      exact ⟨hout.trans (b.entry_leads trivial _ next hsub.2 trivial), fun hsingle => hin hsingle.1⟩
    · obtain ⟨hout, hin⟩ := b.node_leads _ next hsub.2 t ht
      exact ⟨hout, fun hsingle => (a.entry_leads trivial x _ hsub.1 trivial).trans (hin hsingle.2)⟩
  | .line l, x, next, hsub, t, ht | .jump l _, x, next, hsub, t, ht => by
    rw [wires, append_subset, cons_subset] at hsub
    exact ⟨(l.leads_node trivial hsub.1 ht).trans (Leads.of_wire hsub.2.1 trivial),
      fun _ => l.first_leads trivial hsub.1 ht⟩
  | .branch l a b, x, next, hsub, t, ht => by
    simp only [wires, append_subset, cons_subset] at hsub
    simp only [nodes, mem_append] at ht
    rw [singleDefaults, Bool.and_eq_true]
    have hnode := l.first_leads (anyTag_intro none) hsub.1 l.node_mem
    rcases ht with ht | ht | ht
    · exact ⟨(l.leads_node trivial hsub.1 ht).trans ((Leads.of_wire hsub.2.1 trivial).trans
        (a.entry_leads trivial x next hsub.2.2.2.1 trivial)), fun _ => l.first_leads trivial hsub.1 ht⟩
    · obtain ⟨hout, hin⟩ := a.node_leads x next hsub.2.2.2.1 t ht
      exact ⟨hout, fun hsingle => (hnode.trans (Leads.of_wire hsub.2.1 trivial)).trans (hin hsingle.1)⟩
    · obtain ⟨hout, hin⟩ := b.node_leads _ next hsub.2.2.2.2 t ht
      exact ⟨hout, fun hsingle => (hnode.trans (Leads.of_wire hsub.2.2.1 trivial)).trans (hin hsingle.2)⟩
  | .loop label l body update, x, next, hsub, t, ht => by
    simp only [wires, append_subset, cons_subset] at hsub
    simp only [nodes, mem_append] at ht
    have hleave : ∀ t ∈ l.all, Leads W anyTag t.id next.node := fun t ht =>
      (l.leads_node trivial hsub.1 ht).trans (Leads.of_wire hsub.2.2.1 trivial)
    have henter := (l.first_leads (anyTag_intro none) hsub.1 l.node_mem).trans
      (Leads.of_wire hsub.2.1 trivial)
    rcases ht with ht | ht | ht
    · exact ⟨hleave t ht, fun _ => l.first_leads trivial hsub.1 ht⟩
    · obtain ⟨hout, hin⟩ := body.node_leads _ _ hsub.2.2.2.1 t ht
      exact ⟨hout.trans
        ((lines_through trivial update hsub.2.2.2.2 trivial).trans (hleave l.first l.first_mem)),
        fun hsingle => henter.trans (hin hsingle)⟩
    · obtain ⟨hout, hin⟩ := lines_connected update hsub.2.2.2.2 ht
      exact ⟨hout.trans (hleave l.first l.first_mem),
        fun _ => (henter.trans (body.entry_leads trivial _ _ hsub.2.2.2.1 trivial)).trans hin⟩
  | .doLoop label body l, x, next, hsub, t, ht => by
    simp only [wires, append_subset, cons_subset] at hsub
    simp only [nodes, mem_append] at ht
    rw [entry_doLoop]
    have hleave : ∀ t ∈ l.all, Leads W anyTag t.id next.node := fun t ht =>
      (l.leads_node trivial hsub.2.1 ht).trans (Leads.of_wire hsub.2.2.2.1 trivial)
    rcases ht with ht | ht
    · obtain ⟨hout, hin⟩ := body.node_leads _ _ hsub.1 t ht
      exact ⟨hout.trans (hleave l.first l.first_mem), hin⟩
    · exact ⟨hleave t ht, fun _ =>
        (body.entry_leads trivial _ _ hsub.1 trivial).trans (l.first_leads trivial hsub.2.1 ht)⟩
  | .switch s arms, x, next, hsub, t, ht => by
    simp only [wires, append_subset, cons_subset] at hsub
    rw [nodes, mem_append] at ht
    rcases ht with ht | ht
    · exact ⟨(s.leads_node trivial hsub.1 ht).trans (Leads.of_wire hsub.2.2.1 trivial),
        fun _ => s.first_leads trivial hsub.1 ht⟩
    · obtain ⟨hout, hin⟩ := arms.node_leads _ next _ hsub.2.2.2 t ht
      refine ⟨hout, fun hsingle => ?_⟩
      simp only [singleDefaults, Bool.and_eq_true, decide_eq_true_eq] at hsingle
      have hguard := (s.first_leads (anyTag_intro none) hsub.1 s.node_mem).trans
        (Leads.of_wire hsub.2.1 trivial)
      refine hin _ hsingle.2 hguard fun d hd => ?_
      -- The only default case is the one that is left when no guard holds.
      have hmissed := arms.guards_through trivial _ next _ hsub.2.2.2 trivial hguard
      rwa [arms.missed_eq hsingle.1 hd] at hmissed
  | .labeled l body, x, next, hsub, t, ht => body.node_leads _ next hsub t ht

theorem Arms.node_leads : ∀ (arms : Arms Token) (x : Exits) (next missed : Target),
    arms.wires x next missed ⊆ W → ∀ t ∈ arms.nodes, Leads W anyTag t.id next.node ∧
      ∀ a, arms.singleDefaults = true → Leads W anyTag a (arms.guardEntry missed).node →
        (∀ d ∈ arms.defaults, Leads W anyTag a d.id) → Leads W anyTag a t.id
  | .nil, _, _, _, _, t, ht => by simp [Arms.nodes, Arms.guards, Arms.defaults, Arms.bodies] at ht
  | .guard l body rest, x, next, missed, hsub, t, ht => by
    simp only [Arms.wires, append_subset, cons_subset] at hsub
    have hthrough := rest.entry_leads (anyTag_intro none) _ next missed hsub.2.2.2.2 trivial
    have hnode : ∀ {a}, Leads W anyTag a l.first.id → Leads W anyTag a l.node.id := fun h =>
      h.trans (l.first_leads trivial hsub.1 l.node_mem)
    rw [Arms.singleDefaults, Bool.and_eq_true]
    rcases Arms.mem_nodes_guard.1 ht with ht | ht | ht
    · exact ⟨(l.leads_node trivial hsub.1 ht).trans ((Leads.of_wire hsub.2.1 trivial).trans
        ((body.entry_leads trivial x _ hsub.2.2.2.1 trivial).trans hthrough)),
        fun _ _ hguard _ => hguard.trans (l.first_leads trivial hsub.1 ht)⟩
    · obtain ⟨hout, hin⟩ := body.node_leads x _ hsub.2.2.2.1 t ht
      exact ⟨hout.trans hthrough, fun _ hsingle hguard _ =>
        ((hnode hguard).trans (Leads.of_wire hsub.2.1 trivial)).trans (hin hsingle.1)⟩
    · obtain ⟨hout, hin⟩ := rest.node_leads _ next missed hsub.2.2.2.2 t ht
      exact ⟨hout, fun a hsingle hguard hdefaults => hin a hsingle.2
        ((hnode hguard).trans (Leads.of_wire hsub.2.2.1 trivial)) hdefaults⟩
  | .default n body rest, x, next, missed, hsub, t, ht => by
    simp only [Arms.wires, append_subset, cons_subset] at hsub
    have hthrough := rest.entry_leads (anyTag_intro none) _ next missed hsub.2.2 trivial
    rw [Arms.singleDefaults, Bool.and_eq_true]
    rcases Arms.mem_nodes_default.1 ht with rfl | ht | ht
    · exact ⟨(Leads.of_wire hsub.1 trivial).trans
        ((body.entry_leads trivial x _ hsub.2.1 trivial).trans hthrough),
        fun _ _ _ hdefaults => hdefaults t (by simp [Arms.defaults])⟩
    · obtain ⟨hout, hin⟩ := body.node_leads x _ hsub.2.1 t ht
      exact ⟨hout.trans hthrough, fun _ hsingle _ hdefaults =>
        ((hdefaults n (by simp [Arms.defaults])).trans (Leads.of_wire hsub.1 trivial)).trans (hin hsingle.1)⟩
    · obtain ⟨hout, hin⟩ := rest.node_leads _ next missed hsub.2.2 t ht
      exact ⟨hout, fun a hsingle hguard hdefaults =>
        hin a hsingle.2 hguard fun d hd => hdefaults d (mem_cons_of_mem _ hd)⟩

end

/-! ## Whole units -/

namespace Plan

theorem prelude_leads (hnone : tags none) (t : Token) (ts : List Token) (hnext : tags next.loop)
    (hsub : prelude t ts next ⊆ W) {n : Token} (hn : n ∈ t :: ts) :
    Leads W tags t.id n.id ∧ Leads W tags n.id next.node := by
  induction ts generalizing t n with
  | nil =>
    obtain rfl : n = t := by simpa using hn
    rw [prelude, cons_subset] at hsub
    exact ⟨.refl, .of_wire hsub.1 hnext⟩
  | cons t' ts ih =>
    rw [prelude, cons_subset] at hsub
    have hfirst : Leads W tags t.id t'.id := .single (.of_mem hsub.1 hnone)
    rcases mem_cons.1 hn with rfl | hn
    · exact ⟨.refl, hfirst.trans (ih t' hsub.2 mem_cons_self).2⟩
    · exact ⟨hfirst.trans (ih t' hsub.2 hn).1, (ih t' hsub.2 hn).2⟩

variable (u : Plan)

theorem prelude_subset : prelude u.entry u.formals (u.body.entry u.last) ⊆ u.wires :=
  subset_append_left _ _

theorem body_subset : u.body.wires u.exits u.last ⊆ u.wires :=
  fun _ hw => mem_append_right _ (mem_append_left _ hw)

theorem last_leads (hnone : tags none) : Leads u.wires tags u.last.node u.exit.id := by
  cases hresult : u.result with
  | none =>
    simp only [last, hresult]
    exact .refl
  | some t =>
    have hwire : u.exit.target.wire t.id .true ∈ u.wires := by simp [wires, hresult]
    simp only [last, hresult]
    exact .of_wire hwire hnone

theorem entry_leads (hnone : tags none) : Leads u.wires tags u.entry.id u.exit.id := by
  have htag : tags (u.body.entry u.last).loop := u.body.entry_tag hnone hnone
  have hprelude := prelude_leads hnone u.entry u.formals htag u.prelude_subset mem_cons_self
  exact (hprelude.2.trans (u.body.entry_leads hnone _ _ u.body_subset hnone)).trans (u.last_leads hnone)

theorem node_leads (ht : t ∈ u.nodes) : Leads u.wires anyTag t.id u.exit.id ∧
    (u.body.singleDefaults = true → Leads u.wires anyTag u.entry.id t.id) := by
  have hprelude := fun {n : Token} => prelude_leads (n := n) (anyTag_intro none) u.entry u.formals trivial
    u.prelude_subset
  have hbody := u.body.entry_leads (anyTag_intro none) _ _ u.body_subset trivial
  have hlast := u.last_leads (anyTag_intro none)
  have hentry := (hprelude mem_cons_self).2
  simp only [nodes, inner, mem_cons, mem_append, not_mem_nil, or_false] at ht
  rcases ht with rfl | (ht | ht | ht) | rfl
  · exact ⟨(hentry.trans hbody).trans hlast, fun _ => .refl⟩
  · obtain ⟨hin, hout⟩ := hprelude (mem_cons_of_mem _ ht)
    exact ⟨(hout.trans hbody).trans hlast, fun _ => hin⟩
  · obtain ⟨hout, hin⟩ := u.body.node_leads _ _ u.body_subset t ht
    exact ⟨hout.trans hlast, fun hsingle => hentry.trans (hin hsingle)⟩
  · have hid : u.last.node = t.id := by simp [last, Option.mem_toList.1 ht, Token.target]
    exact ⟨hid ▸ hlast, fun _ => hid ▸ hentry.trans hbody⟩
  · exact ⟨.refl, fun _ => (hentry.trans hbody).trans hlast⟩

end Plan

end ProgramDependence
