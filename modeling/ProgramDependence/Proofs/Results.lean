import ProgramDependence.Proofs.Making

/-!
# Parameters and results of calls and methods

A call and the entry of a method list exactly the parameters that belong to them (`Made.mirrored`).
An expanded call has one for each of its arguments in order, and made for it, at most one for what
an argument hands back, and one for the result of its callee exactly if that is not void; and
likewise the entry of a method for the parameters and the result of the method.  While a unit comes
about, some of these nodes are to come yet: they are the debts of `Made`.  The accounts of a unit
are its nodes that wait for parameters, and each account is in debt or has all its parameters
(`Made.audited`).
-/

namespace ProgramDependence

open List Node

variable {P : Program} {lo next : Id} {debts : List Debt} {ns : List Node} {es : List Edge}
    {ms : List Mark} {k : Node}
variable {t s : ParameterSort} {i owner : Id} {w : Mark} {ordinal : Ordinal}

/-! ## What belongs to a node -/

/-- Whether a mark is that of a parameter of a kind and belongs to a node. -/
def Mark.belongs (t : ParameterSort) (owner : Id) (w : Mark) : Bool :=
  w.sort = .parameter t && w.place.any (·.2 = owner)

def Mark.ordinal? (w : Mark) : Option Ordinal :=
  w.place.map (·.1)

/-- The parameters of a kind that belong to a node, in the order in which they came about. -/
def parametersOf (ms : List Mark) (owner : Id) (t : ParameterSort) : List Mark :=
  ms.filter (·.belongs t owner)

/-- The places of the parameters of a kind that belong to a node, and what these were made for. -/
def placesOf (ns : List Node) (owner : Id) (t : ParameterSort) : List (Ordinal × Element) :=
  (ns.filter (·.mark.belongs t owner)).filterMap fun k => k.mark.ordinal?.map (·, k.element)

theorem Mark.belongs_iff : w.belongs t owner = true ↔ ∃ ordinal, w = .ofParameter w.id t ordinal owner := by
  obtain ⟨id, sort, place⟩ := w
  simp only [belongs, Bool.and_eq_true, decide_eq_true_eq]
  constructor
  · rintro ⟨rfl, hplace⟩
    rcases place with _ | ⟨ordinal, i⟩
    · cases hplace
    · obtain rfl : i = owner := by simpa using hplace
      exact ⟨ordinal, rfl⟩
  · rintro ⟨ordinal, h⟩
    cases h
    simp

theorem mem_parametersOf : w ∈ parametersOf ms owner t ↔ w ∈ ms ∧
    ∃ ordinal, w = .ofParameter w.id t ordinal owner := by
  rw [parametersOf, mem_filter, Mark.belongs_iff]

theorem parametersOf_append (h : w.belongs t i = false) :
    parametersOf (ms ++ [w]) i t = parametersOf ms i t := by
  rw [parametersOf, filter_append, filter_singleton, h, cond_false, append_nil]
  rfl

theorem parametersOf_enlisted (ms : List Mark) (a : Id) :
    parametersOf (ms ++ [.ofParameter a s ordinal owner]) i t =
      parametersOf ms i t ++ if s = t ∧ owner = i then [.ofParameter a s ordinal owner] else [] := by
  rw [parametersOf, filter_append, filter_singleton]
  simp [Mark.belongs, parametersOf]

theorem ordinals_parametersOf (ns : List Node) (owner : Id) (t : ParameterSort) :
    (parametersOf (ns.map mark) owner t).filterMap (·.ordinal?) = (placesOf ns owner t).map (·.1) := by
  rw [parametersOf, filter_map, filterMap_map, placesOf, map_filterMap]
  congr 1
  funext k
  simp [Function.comp_def]

theorem placesOf_append (h : k.mark.belongs t i = false) : placesOf (ns ++ [k]) i t = placesOf ns i t := by
  rw [placesOf, filter_append, filter_singleton, h, cond_false, append_nil]
  rfl

theorem placesOf_changed {f : Node → Node} (hf : ∀ k : Node, (f k).mark = k.mark ∧ (f k).element = k.element)
    (j : Id) : placesOf (changed ns j f) = placesOf ns := by
  funext i t
  simp only [placesOf, filterMap_filter, changed, filterMap_map]
  congr 1
  funext k
  simp only [Function.comp_apply]
  split
  · rw [(hf k).1, (hf k).2]
  · rfl

/-- An enlisted parameter takes the next place at its owner. -/
theorem placesOf_enlisted {a : Id} (hmark : k.mark = .ofParameter a s ordinal owner) :
    placesOf (changed (ns ++ [k]) owner (s.enlist a)) i t =
      placesOf ns i t ++ if s = t ∧ owner = i then [(ordinal, k.element)] else [] := by
  have hsame : ∀ k : Node, (s.enlist a k).mark = k.mark ∧ (s.enlist a k).element = k.element :=
    fun k => ⟨s.mark_enlist a k, by rw [s.enlist_eq a k]⟩
  rw [placesOf_changed hsame]
  by_cases h : s = t ∧ owner = i
  · simp [placesOf, Mark.belongs, Mark.ordinal?, h, hmark]
  · rw [placesOf_append (by simpa [Mark.belongs, hmark] using h), if_neg h, append_nil]

/-- A node is a parameter that belongs to a call or an entry. -/
def Owned (ns : List Node) (i owner : Id) : Prop :=
  ∃ t ordinal, Mark.ofParameter i t ordinal owner ∈ ns.map mark

theorem Owned.exists_node (h : Owned ns i owner) :
    ∃ j ∈ ns, j.id = i ∧ j.sort.isParameter = true ∧ ∃ ordinal, j.payload = .parameter ordinal owner := by
  obtain ⟨t, ordinal, hmem⟩ := h
  obtain ⟨j, hj, hmark⟩ := mem_map.1 hmem
  refine ⟨j, hj, congrArg Mark.id hmark, ?_, ordinal, payload_of_mark hmark⟩
  rw [sort_of_mark hmark]
  rfl

namespace Made

variable (h : Made P lo debts ns es next)

include h

/-- What belongs to a node belongs to one that is there. -/
theorem refs : ∀ k ∈ ns, ∀ i ∈ k.payload.refs, i ∈ ns.map (·.id) := by
  intro k hk i hi
  rw [ids_eq_marks]
  exact (h.forall_nodes lasting_refs k hk).1 i hi

theorem filter_belongs_next (t : ParameterSort) : ns.filter (·.mark.belongs t next) = [] := by
  refine filter_eq_nil_iff.2 fun k hk hbelongs => ?_
  obtain ⟨ordinal, hmark⟩ := Mark.belongs_iff.1 hbelongs
  refine h.not_mem (h.refs k hk next ?_)
  rw [payload_of_mark hmark]
  exact mem_singleton_self next

theorem not_catch (hk : k ∈ ns) (hlists : k.payload.isCall = true ∨ k.payload.isEntry = true) :
    ⟨k.id, .statement .catchClause, none⟩ ∉ ns.map mark := by
  intro hmem
  obtain ⟨j, hj, hmark⟩ := mem_map.1 hmem
  obtain rfl := inj_on_of_nodup_map h.nodup hj hk (congrArg Mark.id hmark)
  obtain ⟨hcall, hentry⟩ := h.forall_nodes lasting_kind j hj
  rw [hcall, hentry, show j.sort = .statement .catchClause from congrArg Mark.sort hmark] at hlists
  simp [NodeSort.isCall, NodeSort.isEntry] at hlists

end Made

/-- A node that is new belongs to a catch clause, if to any. -/
def Stray (ms : List Mark) (w : Mark) : Prop :=
  ∀ i, ⟨i, .statement .catchClause, none⟩ ∉ ms → ∀ t, w.belongs t i = false

theorem stray_of_place (h : w.place = none) : Stray ms w := by
  intro i _ t
  rw [Mark.belongs, h, Option.any_none, Bool.and_false]

theorem Node.Plain.stray (h : k.Plain ms) : Stray ms k.mark := by
  rcases h.parameter with ⟨-, hplace⟩ | ⟨ordinal, owner, hmark, hcatch, -⟩
  · exact stray_of_place hplace
  · intro i hi t
    rw [hmark]
    rcases eq_or_ne owner i with rfl | hne
    · exact absurd hcatch hi
    · simp [Mark.belongs, hne]

/-! ## What calls and entries list -/

/-- What a call leaves behind, or what an entry returns. -/
def Payload.outs : Payload → List Id
  | call _ _ outs _ => outs
  | entry _ outs => outs
  | _ => []

theorem Payload.outs_subset (payload : Payload) : payload.outs ⊆ payload.listed := by
  cases payload with
  | call | entry => exact subset_append_right _ _
  | _ => exact nil_subset _

/-- A call or an entry lists the ids of the parameters of its kinds. -/
def Payload.Mirrors (payload : Payload) (ids : ParameterSort → List Id) : Prop :=
  match payload with
  | call _ ins outs _ => ins = ids .actualIn ∧ outs = ids .actualOut
  | entry ins outs => ins = ids .formalIn ∧ outs = ids .formalOut
  | _ => True

theorem Payload.mirrors_of_not_listing {payload : Payload} (hcall : payload.isCall = false)
    (hentry : payload.isEntry = false) (ids : ParameterSort → List Id) : payload.Mirrors ids := by
  cases payload with
  | call => cases hcall
  | entry => cases hentry
  | _ => trivial

theorem ParameterSort.mirrors_enlist {ids ids' : ParameterSort → List Id} {a : Id} (h : k.payload.Mirrors ids)
    (hids : ∀ t, ids' t = ids t ++ if s = t then [a] else []) : (s.enlist a k).payload.Mirrors ids' := by
  unfold enlist
  cases hpayload : k.payload with
  | call | entry =>
    rw [hpayload] at h
    obtain ⟨rfl, rfl⟩ := h
    cases s <;> simp [hpayload, Payload.Mirrors, hids]
  | _ => cases s <;> simp [hpayload, Payload.Mirrors]

def parameterIds (ms : List Mark) (owner : Id) (t : ParameterSort) : List Id :=
  (parametersOf ms owner t).map (·.id)

namespace Made

theorem mirrored_append (h : Made P lo debts ns es next)
    (hmirrored : ∀ j ∈ ns, j.payload.Mirrors (parameterIds (ns.map mark) j.id)) (hid : k.id = next)
    (hstray : Stray (ns.map mark) k.mark) (hk : k.payload.Mirrors fun _ => []) :
    ∀ j ∈ ns ++ [k], j.payload.Mirrors (parameterIds ((ns ++ [k]).map mark) j.id) := by
  have hsame : ∀ i, ⟨i, .statement .catchClause, none⟩ ∉ ns.map mark →
      parameterIds ((ns ++ [k]).map mark) i = parameterIds (ns.map mark) i := by
    intro i hi
    funext t
    rw [map_append, map_singleton, parameterIds, parametersOf_append (hstray i hi t)]
    rfl
  refine forall_mem_append.2 ⟨fun j hj => ?_, forall_mem_singleton.2 ?_⟩
  · by_cases hlists : j.payload.isCall = true ∨ j.payload.isEntry = true
    · rw [hsame j.id (h.not_catch hj hlists)]
      exact hmirrored j hj
    · rw [not_or, Bool.not_eq_true, Bool.not_eq_true] at hlists
      exact Payload.mirrors_of_not_listing hlists.1 hlists.2 _
  · have hnone : parameterIds (ns.map mark) k.id = fun _ => [] := by
      funext t
      rw [parameterIds, hid, parametersOf, filter_map]
      exact congrArg (fun ks => (ks.map mark).map (·.id)) (h.filter_belongs_next t)
    rw [hsame k.id, hnone]
    · exact hk
    · intro hmem
      rw [hid] at hmem
      apply h.not_mem
      rw [ids_eq_marks]
      exact mem_map_of_mem (f := Mark.id) hmem

/-- A parameter is listed by its owner when it comes about. -/
theorem mirrored_enlisted {a : Id} (hmirrored : ∀ j ∈ ns, j.payload.Mirrors (parameterIds (ns.map mark) j.id))
    (hmark : k.mark = .ofParameter a s ordinal owner) : ∀ j ∈ changed (ns ++ [k]) owner (s.enlist a),
      j.payload.Mirrors (parameterIds ((changed (ns ++ [k]) owner (s.enlist a)).map mark) j.id) := by
  have hids : ∀ i t, parameterIds (ns.map mark ++ [.ofParameter a s ordinal owner]) i t =
      parameterIds (ns.map mark) i t ++ if s = t ∧ owner = i then [a] else [] := by
    intro i t
    rw [parameterIds, parametersOf_enlisted, map_append]
    split <;> rfl
  have hold : ∀ j ∈ ns ++ [k], j.payload.Mirrors (parameterIds (ns.map mark) j.id) := by
    refine forall_mem_append.2 ⟨hmirrored, forall_mem_singleton.2 ?_⟩
    rw [payload_of_mark hmark]
    trivial
  rw [marks_enlisted hmark]
  intro j' hj'
  obtain ⟨j, hj, rfl⟩ := mem_changed.1 hj'
  split
  · rename_i howner
    rw [show (s.enlist a j).id = j.id from congrArg Mark.id (s.mark_enlist a j)]
    exact s.mirrors_enlist (hold j hj) fun t => by simp [hids, howner]
  · rename_i howner
    rw [show parameterIds _ j.id = parameterIds (ns.map mark) j.id from
      funext fun t => by simp [hids, Ne.symm howner]]
    exact hold j hj

/-- **Calls and entries list exactly the parameters that belong to them.** -/
theorem mirrored (h : Made P lo debts ns es next) :
    ∀ k ∈ ns, k.payload.Mirrors (parameterIds (ns.map mark) k.id) := by
  induction h with
  | start => exact forall_mem_nil _
  | draw _ ih => exact ih
  | edge _ _ _ _ _ ih => exact ih
  | node hmade hid hplain ih =>
    exact hmade.mirrored_append ih hid hplain.stray
      (Payload.mirrors_of_not_listing hplain.payload.1 hplain.payload.2 _)
  | entry hmade _ _ ih | fieldEntry hmade _ _ ih | call hmade _ _ _ _ ih =>
    exact hmade.mirrored_append ih rfl (stray_of_place rfl) ⟨rfl, rfl⟩
  | parameter _ _ hmark _ _ _ ih | result _ _ _ hmark _ _ _ ih => exact mirrored_enlisted ih hmark
  | silent _ _ _ ih => exact ih
  | retouch _ _ _ hf ih =>
    rw [marks_changed fun k => (hf k).mark]
    intro k' hk'
    obtain ⟨k, hk, rfl⟩ := mem_changed.1 hk'
    split
    · rw [(hf k).id]
      rcases (hf k).payload with heq | ⟨-, hloose, -⟩
      · rw [heq]
        exact ih k hk
      · exact Payload.mirrors_of_not_listing (Payload.isCall_of_isLoose hloose)
          (Payload.isEntry_of_isLoose hloose) _
    · exact ih k hk

theorem owned (h : Made P lo debts ns es next) (hk : k ∈ ns) (hi : i ∈ k.payload.listed) :
    Owned ns i k.id := by
  have hmem : ∀ t, i ∈ parameterIds (ns.map mark) k.id t → Owned ns i k.id := by
    intro t hi
    obtain ⟨w, hw, rfl⟩ := mem_map.1 hi
    obtain ⟨hw, ordinal, hparameter⟩ := mem_parametersOf.1 hw
    exact ⟨t, ordinal, hparameter ▸ hw⟩
  have hmirrors := h.mirrored k hk
  cases hpayload : k.payload with
  | call _ ins outs _ | entry ins outs =>
    rw [hpayload] at hmirrors hi
    rw [Payload.listed, hmirrors.1, hmirrors.2] at hi
    exact (mem_append.1 hi).elim (hmem _) (hmem _)
  | _ =>
    rw [hpayload] at hi
    cases hi

end Made

/-! ## Accounts -/

/-- A node that waits for its parameters and for the result of a method, and the kind of node that
will be. -/
structure Account where
  node : Id
  method : MethodRef
  sort : ParameterSort
  element : Element

/-- The account of a node: an expanded call waits for its arguments and the result of its callee,
the entry of a method for the parameters and the result of the method itself. -/
def Node.account? (k : Node) : Option Account :=
  match k.payload with
  | .call b _ _ expanded => if expanded then some ⟨k.id, b, .actualOut, k.element⟩ else none
  | .entry _ _ =>
    match k.element with
    | .method r => some ⟨k.id, r, .formalOut, k.element⟩
    | _ => none
  | _ => none

/-- The places that are filled at a node: those of its arguments in order, of those arguments that
it hands back, and of its result. -/
structure Filled (places : ParameterSort → List (Ordinal × Element)) (sort : ParameterSort)
    (taken : List Element) (handed : List Nat) (result : Bool) : Prop where
  isOut : sort.inward ≠ sort
  ins : places sort.inward = taken.zipIdx.map fun e => (.argument e.2, e.1)
  outs : (places sort).map (·.1) = handed.map .argument ++ if result then [.result] else []
  inOrder : handed.Sublist (range taken.length)
  formal : sort ≠ .actualOut → handed = []

/-- Each account is in debt, or has its parameters; and debts are those of accounts, none of them
twice. -/
structure Audited (P : Program) (debts : List Debt) (accounts : List Account)
    (places : Id → ParameterSort → List (Ordinal × Element)) : Prop where
  settled : ∀ a ∈ accounts, ∃ m, P.method? a.method = some m ∧ (a.node ∈ debts.map (·.node) ∨
    ∃ handed, Filled (places a.node) a.sort (a.element.arguments m) handed !m.isVoid)
  owed : ∀ d ∈ debts,
    (∃ a ∈ accounts, a.node = d.node ∧ a.sort = d.sort ∧ P.method? a.method = some d.method ∧
    a.element.arguments d.method = d.taken ++ d.awaited) ∧
    Filled (places d.node) d.sort d.taken d.handed false
  nodup : (debts.map (·.node)).Nodup

namespace Audited

variable {accounts : List Account} {places places' : Id → ParameterSort → List (Ordinal × Element)}

theorem congr (h : Audited P debts accounts places)
    (heq : ∀ a ∈ accounts, places' a.node = places a.node) : Audited P debts accounts places' where
  settled a ha := by
    rw [heq a ha]
    exact h.settled a ha
  owed d hd := by
    obtain ⟨⟨a, ha, hnode, hrest⟩, hfilled⟩ := h.owed d hd
    refine ⟨⟨a, ha, hnode, hrest⟩, ?_⟩
    rw [← hnode, heq a ha, hnode]
    exact hfilled
  nodup := h.nodup

theorem owe (h : Audited P debts accounts places) {a : Account} {m : Method}
    (hm : P.method? a.method = some m) (hnew : ∀ b ∈ accounts, b.node ≠ a.node)
    (hfilled : Filled (places a.node) a.sort [] [] false) : Audited P
      ({ node := a.node, sort := a.sort, method := m, awaited := a.element.arguments m } :: debts)
      (accounts ++ [a]) places where
  settled := by
    refine forall_mem_append.2 ⟨fun b hb => ?_, forall_mem_singleton.2 ⟨m, hm, .inl mem_cons_self⟩⟩
    obtain ⟨n, hn, howed | hdone⟩ := h.settled b hb
    · exact ⟨n, hn, .inl (mem_cons_of_mem _ howed)⟩
    · exact ⟨n, hn, .inr hdone⟩
  owed := by
    refine forall_mem_cons.2
      ⟨⟨⟨a, mem_append_right _ (mem_singleton_self a), rfl, rfl, hm, rfl⟩, hfilled⟩, fun d hd => ?_⟩
    obtain ⟨⟨b, hb, hrest⟩, hfilled⟩ := h.owed d hd
    exact ⟨⟨b, mem_append_left _ hb, hrest⟩, hfilled⟩
  nodup := by
    refine nodup_cons.2 ⟨fun hmem => ?_, h.nodup⟩
    obtain ⟨d, hd, hnode⟩ := mem_map.1 hmem
    obtain ⟨⟨b, hb, hb', -⟩, -⟩ := h.owed d hd
    exact hnew b hb (hb'.trans hnode)

section

variable {d : Debt} (h : Audited P (d :: debts) accounts places)
  (hother : ∀ i, i ≠ d.node → places' i = places i)
include h hother

theorem owed_of_ne : ∀ e ∈ debts, (∃ a ∈ accounts, a.node = e.node ∧ a.sort = e.sort ∧
    P.method? a.method = some e.method ∧ a.element.arguments e.method = e.taken ++ e.awaited) ∧
      Filled (places' e.node) e.sort e.taken e.handed false := by
  intro e he
  have hne : e.node ≠ d.node := fun heq => (nodup_cons.1 h.nodup).1 (mem_map.2 ⟨e, he, heq⟩)
  rw [hother e.node hne]
  exact h.owed e (mem_cons_of_mem _ he)

theorem take {d' : Debt}
    (hsame : d' = { d with awaited := d'.awaited, taken := d'.taken, handed := d'.handed })
    (hall : d'.taken ++ d'.awaited = d.taken ++ d.awaited)
    (hfilled : Filled (places' d.node) d.sort d'.taken d'.handed false) :
    Audited P (d' :: debts) accounts places' where
  settled a ha := by
    obtain ⟨m, hm, hcase⟩ := h.settled a ha
    rw [hsame]
    refine ⟨m, hm, ?_⟩
    by_cases hnode : a.node = d.node
    · exact .inl (hnode ▸ mem_cons_self)
    · rw [hother a.node hnode]
      exact hcase
  owed := by
    obtain ⟨haccount, -⟩ := h.owed d mem_cons_self
    rw [← hall] at haccount
    rw [hsame]
    exact forall_mem_cons.2 ⟨⟨haccount, hfilled⟩, h.owed_of_ne hother⟩
  nodup := by
    rw [hsame]
    exact h.nodup

/-- A debt is paid once all arguments are taken and a due result is there. -/
theorem pay (hnodup : (accounts.map (·.node)).Nodup) (hfull : d.awaited = [])
    (hfilled : Filled (places' d.node) d.sort d.taken d.handed !d.method.isVoid) :
    Audited P debts accounts places' where
  settled a ha := by
    obtain ⟨m, hm, hcase⟩ := h.settled a ha
    by_cases hnode : a.node = d.node
    · -- the account of the debt is the only one of its node, so the methods agree
      obtain ⟨⟨b, hb, hbnode, hbsort, hbm, harguments⟩, -⟩ := h.owed d mem_cons_self
      obtain rfl := inj_on_of_nodup_map hnodup ha hb (hnode.trans hbnode.symm)
      refine ⟨d.method, hbm, .inr ⟨d.handed, ?_⟩⟩
      rwa [hnode, hbsort, harguments, hfull, append_nil]
    · refine ⟨m, hm, ?_⟩
      rw [hother a.node hnode]
      refine hcase.imp_left fun howed => ?_
      exact (mem_cons.1 howed).resolve_left hnode
  owed := h.owed_of_ne hother
  nodup := (nodup_cons.1 h.nodup).2

end

end Audited

/-! ## The accounts of a list of nodes -/

section

variable {a : Account} (h : k.account? = some a)

include h

/-- An account is that of an expanded call or of the entry of a method. -/
theorem Node.account_eq_some :
    (∃ b ins outs, k.payload = .call b ins outs true ∧ a = ⟨k.id, b, .actualOut, k.element⟩) ∨
      ∃ ins outs r, k.payload = .entry ins outs ∧ k.element = .method r ∧
      a = ⟨k.id, r, .formalOut, k.element⟩ := by
  unfold account? at h
  split at h
  · rename_i b ins outs expanded hpayload
    cases expanded with
    | true => exact .inl ⟨b, ins, outs, hpayload, (Option.some.inj h).symm⟩
    | false => cases h
  · rename_i ins outs hpayload
    split at h
    · rename_i r helement
      exact .inr ⟨ins, outs, r, hpayload, helement, (Option.some.inj h).symm⟩
    · cases h
  · cases h

theorem Node.account_id : a.node = k.id := by
  rcases account_eq_some h with ⟨b, ins, outs, -, rfl⟩ | ⟨ins, outs, r, -, -, rfl⟩
  · rfl
  · rfl

theorem Node.isCall_or_isEntry_of_account :
    k.payload.isCall = true ∨ k.payload.isEntry = true := by
  rcases account_eq_some h with ⟨b, ins, outs, hpayload, -⟩ | ⟨ins, outs, r, hpayload, -⟩
  · exact .inl (hpayload ▸ rfl)
  · exact .inr (hpayload ▸ rfl)

end

theorem Node.account_eq_none (hcall : k.payload.isCall = false)
    (hentry : k.payload.isEntry = false) : k.account? = none := by
  rcases hk : k.account? with _ | a
  · rfl
  · have hlists := isCall_or_isEntry_of_account hk
    rw [hcall, hentry] at hlists
    simp at hlists

theorem Node.account_of_mark {id : Id} (h : k.mark = .ofParameter id t ordinal owner) :
    k.account? = none := by
  rw [account?, payload_of_mark h]

theorem ParameterSort.account_enlist (s : ParameterSort) (a : Id) (k : Node) :
    (s.enlist a k).account? = k.account? := by
  cases hpayload : k.payload <;> cases s <;> simp [enlist, account?, hpayload]

theorem Node.Retouched.account {ids : List Id} {k k' : Node} (h : k.Retouched ids k') :
    k'.account? = k.account? := by
  rcases h.payload with heq | ⟨hloose, hloose', -⟩
  · simp only [account?, heq, h.element, h.id]
  · rw [account_eq_none (Payload.isCall_of_isLoose hloose) (Payload.isEntry_of_isLoose hloose),
      account_eq_none (Payload.isCall_of_isLoose hloose') (Payload.isEntry_of_isLoose hloose')]

theorem accounts_append (h : k.account? = none) : (ns ++ [k]).filterMap account? = ns.filterMap account? := by
  rw [filterMap_append, filterMap_cons_none h, filterMap_nil, append_nil]

theorem accounts_changed {f : Node → Node} (hf : ∀ k : Node, (f k).account? = k.account?) :
    (changed ns i f).filterMap account? = ns.filterMap account? := by
  rw [changed, filterMap_map]
  congr 1
  funext k
  simp only [Function.comp_apply]
  split
  · exact hf k
  · rfl

theorem accounts_enlisted {a : Id} (hmark : k.mark = .ofParameter a s ordinal owner) :
    (changed (ns ++ [k]) owner (s.enlist a)).filterMap account? = ns.filterMap account? := by
  rw [accounts_changed (s.account_enlist a), accounts_append (account_of_mark hmark)]

theorem nodup_accounts (h : (ns.map (·.id)).Nodup) : ((ns.filterMap account?).map (·.node)).Nodup := by
  rw [List.Nodup, pairwise_map, pairwise_filterMap]
  apply (pairwise_map.1 h).imp
  intro j k hne a ha b hb
  rwa [account_id ha, account_id hb]

/-! ## The accounts of a unit -/

theorem Filled.take {places places' : ParameterSort → List (Ordinal × Element)} {d d' : Debt} {e : Element}
    (h : Filled places d.sort d.taken d.handed false) (htakes : d.Takes s ordinal e d')
    (hplaces : ∀ t, places' t = places t ++ if s = t then [(ordinal, e)] else []) :
    d' = { d with awaited := d'.awaited, taken := d'.taken, handed := d'.handed } ∧
      d'.taken ++ d'.awaited = d.taken ++ d.awaited ∧ Filled places' d.sort d'.taken d'.handed false := by
  cases htakes with
  | argument early hnext =>
    refine ⟨rfl, by simp [hnext], h.isOut, ?_, ?_, ?_, fun _ => early⟩
    · rw [hplaces, if_pos rfl, h.ins, zipIdx_append, map_append]
      simp
    · rw [hplaces, if_neg h.isOut, append_nil, h.outs]
    · rw [early]
      exact nil_sublist _
  | @handBack isActual i lt later =>
    refine ⟨rfl, rfl, h.isOut, ?_, ?_, ?_, fun hne => absurd isActual hne⟩
    · rw [hplaces, if_neg, append_nil, h.ins]
      rw [← isActual]
      exact fun heq => h.isOut heq.symm
    · rw [hplaces, if_pos isActual.symm, map_append, h.outs]
      simp
    · have hsub : (d.handed ++ [i]).Sublist (range i ++ [i]) := later.append (.refl [i])
      rw [← range_succ] at hsub
      exact hsub.trans (range_sublist.2 lt)

namespace Made

variable {a : Account}

section

variable (h : Made P lo debts ns es next)

include h

theorem placesOf_next : placesOf ns next t = [] := by
  rw [placesOf, h.filter_belongs_next, filterMap_nil]

theorem account_ne : ∀ a ∈ ns.filterMap account?, a.node ≠ next := by
  intro a ha heq
  obtain ⟨k, hk, haccount⟩ := mem_filterMap.1 ha
  exact h.not_mem (mem_map.2 ⟨k, hk, (account_id haccount).symm.trans heq⟩)

theorem placesOf_stray (hstray : Stray (ns.map mark) k.mark)
    (ha : a ∈ ns.filterMap account?) : placesOf (ns ++ [k]) a.node = placesOf ns a.node := by
  obtain ⟨j, hj, haccount⟩ := mem_filterMap.1 ha
  funext t
  rw [account_id haccount]
  exact placesOf_append (hstray j.id (h.not_catch hj (isCall_or_isEntry_of_account haccount)) t)

section

variable (haudited : Audited P debts (ns.filterMap account?) (placesOf ns))

include haudited

theorem audited_append (hstray : Stray (ns.map mark) k.mark) (haccount : k.account? = none) :
    Audited P debts ((ns ++ [k]).filterMap account?) (placesOf (ns ++ [k])) := by
  rw [accounts_append haccount]
  exact haudited.congr fun a ha => h.placesOf_stray hstray ha

theorem audited_owe {r : MethodRef} {m : Method}
    (element : Element) (haccount : k.account? = some ⟨next, r, s, element⟩)
    (hplace : k.mark.place = none) (hout : s.inward ≠ s) (hm : P.method? r = some m) :
    Audited P ({ node := next, sort := s, method := m, awaited := element.arguments m } :: debts)
      ((ns ++ [k]).filterMap account?) (placesOf (ns ++ [k])) := by
  have hplaces : placesOf (ns ++ [k]) = placesOf ns := by
    funext i t
    apply placesOf_append
    rw [Mark.belongs, hplace, Option.any_none, Bool.and_false]
  rw [filterMap_append, filterMap_cons_some haccount, hplaces]
  exact haudited.owe (a := ⟨next, r, s, element⟩) hm h.account_ne
    ⟨hout, h.placesOf_next, congrArg (map _) h.placesOf_next, nil_sublist _, fun _ => rfl⟩

end

/-- **The accounts of a unit are audited while it comes about.** -/
theorem audited : Audited P debts (ns.filterMap account?) (placesOf ns) := by
  induction h with
  | start => exact ⟨forall_mem_nil _, forall_mem_nil _, nodup_nil⟩
  | draw _ ih => exact ih
  | edge _ _ _ _ _ ih => exact ih
  | node hmade hid hplain ih =>
    exact hmade.audited_append ih hplain.stray (account_eq_none hplain.payload.1 hplain.payload.2)
  | entry hmade hm scope ih => exact hmade.audited_owe ih (s := .formalOut) (.method _) rfl rfl (by decide) hm
  | fieldEntry hmade r scope ih => exact hmade.audited_append ih (stray_of_place rfl) rfl
  | call hmade hm _ element expanded ih =>
    cases expanded with
    | true => exact hmade.audited_owe ih element rfl rfl (by decide) hm
    | false => exact hmade.audited_append ih (stray_of_place rfl) rfl
  | @parameter debts ns es next d d' hmade s ordinal k htakes hmark _ _ _ ih =>
    rw [accounts_enlisted hmark]
    have hplaces : ∀ t, placesOf (changed (ns ++ [k]) d.node (s.enlist next)) d.node t =
        placesOf ns d.node t ++ if s = t then [(ordinal, k.element)] else [] := by
        simp [placesOf_enlisted hmark]
    obtain ⟨hsame, hall, hfilled⟩ := (ih.owed d mem_cons_self).2.take htakes hplaces
    refine ih.take (fun i hne => ?_) hsame hall hfilled
    funext t
    simp [placesOf_enlisted hmark, Ne.symm hne]
  | @result debts ns es next d hmade hfull hvoid k hmark _ _ _ ih =>
    rw [accounts_enlisted hmark]
    refine ih.pay (fun i hne => ?_) (nodup_accounts hmade.nodup) hfull ?_
    · funext t
      simp [placesOf_enlisted hmark, Ne.symm hne]
    · obtain ⟨hout, hins, houts, hhanded, hformal⟩ := (ih.owed d mem_cons_self).2
      refine ⟨hout, ?_, ?_, hhanded, hformal⟩
      · simp [placesOf_enlisted hmark, hins, Ne.symm hout]
      · simp [placesOf_enlisted hmark, houts, hvoid]
  | @silent debts ns es next d hmade hfull hvoid ih =>
    refine ih.pay (fun i _ => rfl) (nodup_accounts hmade.nodup) hfull ?_
    rw [hvoid]
    exact (ih.owed d mem_cons_self).2
  | retouch _ _ _ hf ih =>
    rw [accounts_changed fun k => (hf k).account, placesOf_changed fun k => ⟨(hf k).mark, (hf k).element⟩]
    exact ih

end

/-- **What waits for parameters has them in the end.** -/
theorem filled (h : Made P lo [] ns es next) (hk : k ∈ ns) (haccount : k.account? = some a) :
    ∃ m handed, P.method? a.method = some m ∧
      Filled (placesOf ns k.id) a.sort (a.element.arguments m) handed !m.isVoid := by
  obtain ⟨m, hm, howed | ⟨handed, hfilled⟩⟩ := h.audited.settled a (mem_filterMap.2 ⟨k, hk, haccount⟩)
  · cases howed
  · rw [account_id haccount] at hfilled
    exact ⟨m, handed, hm, hfilled⟩

theorem outs_of_account (h : Made P lo debts ns es next) (hk : k ∈ ns)
    (haccount : k.account? = some a) : k.payload.outs = parameterIds (ns.map mark) k.id a.sort := by
  have hmirrors := h.mirrored k hk
  rcases account_eq_some haccount with ⟨b, ins, outs, hpayload, rfl⟩ | ⟨ins, outs, r, hpayload, -, rfl⟩
  all_goals
    rw [hpayload] at hmirrors ⊢
    exact hmirrors.2

/-- **What waits for a result has it exactly if the method is not void.** -/
theorem returned_iff (h : Made P lo [] ns es next) (hk : k ∈ ns) (haccount : k.account? = some a) :
    ∃ m, P.method? a.method = some m ∧
      ((∃ j ∈ ns, j.id ∈ k.payload.outs ∧ j.payload.place?.map (·.1) = some .result) ↔ m.isVoid = false) := by
  obtain ⟨m, handed, hm, hfilled⟩ := h.filled hk haccount
  have hresult : .result ∈ (placesOf ns k.id a.sort).map (·.1) ↔ m.isVoid = false := by
    rw [hfilled.outs]
    cases m.isVoid <;> simp
  refine ⟨m, hm, .trans ?_ hresult⟩
  rw [h.outs_of_account hk haccount, ← ordinals_parametersOf, mem_filterMap]
  constructor
  · rintro ⟨j, hj, hout, hplace⟩
    obtain ⟨w, hw, hid⟩ := mem_map.1 hout
    obtain ⟨j', hj', rfl⟩ := mem_map.1 (mem_parametersOf.1 hw).1
    obtain rfl := inj_on_of_nodup_map h.nodup hj' hj hid
    exact ⟨_, hw, hplace⟩
  · rintro ⟨w, hw, hplace⟩
    obtain ⟨j, hj, rfl⟩ := mem_map.1 (mem_parametersOf.1 hw).1
    exact ⟨j, hj, mem_map_of_mem hw, hplace⟩

end Made

end ProgramDependence
