import ChannelBasic.Proofs.Typing.Sizes

/-!
# Proofs/Typing/Constness — what is CONST is not written

A place is written by an assignment, by a counting loop, or through a pointer.  Checking refuses
targets of a CONST type, and a member of a CONST structure **has** a CONST type, so the variable at
the root of an accepted target is not CONST (`Expr.Guarded.isVariable`).  A pointer that lets its
target be written is only made of such a place, and never out of a pointer that does not: types that
are analogous point to types that agree about CONST (`isConstant_of_sameWithin`).

`Expr.Guarded` and `Stmt.Guarded` say so of all nodes and statements, in the types known when they
were checked; by then no type is left to be resolved, so it stays true of the finished program.
-/

namespace ChannelBasic

/-! ## Pointer types -/

namespace TypeTable

variable {t t' : TypeTable} {a b : TypeId}

/-- A type of pointers through which their targets can be written. -/
def Writes (t : TypeTable) (id : TypeId) : Prop :=
  ∃ p, t.pointee? id = some p ∧ t.isConstant p = false

/-- A type of pointers to what is CONST. -/
def OnlyReads (t : TypeTable) (id : TypeId) : Prop :=
  ∃ p, t.pointee? id = some p ∧ t.isConstant p = true

theorem Writes.not_onlyReads (h : t.Writes a) : ¬ t.OnlyReads a := by
  rintro ⟨p, hp, hc⟩
  obtain ⟨q, hq, hn⟩ := h
  obtain rfl : q = p := Option.some.inj (hq.symm.trans hp)
  rw [hn] at hc
  cases hc

/-- **Types built alike agree about CONST.** -/
theorem isConstant_of_sameWithin (bound : Nat) (h : t.sameWithin bound a b = true) :
    t.isConstant a = t.isConstant b := by
  cases bound with
  | zero =>
    obtain rfl : a = b := by simpa [sameWithin] using h
    rfl
  | succ bound =>
    rw [sameWithin, Bool.or_eq_true] at h
    obtain h | h := h
    · obtain rfl : a = b := by simpa using h
      rfl
    · split at h
      next x y hx hy => rw [isConstant, isConstant, hx, hy]
      next x y hx hy => rw [isConstant, isConstant, hx, hy]
      next x y =>
        have hget : t.get a = t.get b := by simpa using h
        rw [isConstant, isConstant, hget]

/-- Analogous pointer types point to types that agree about CONST. -/
theorem isConstant_of_isAnalog {p q : TypeId} (h : t.isAnalog a b = true)
    (hp : t.pointee? a = some p) (hq : t.pointee? b = some q) : t.isConstant p = t.isConstant q := by
  have entry {x : TypeId} {y : TypeId} (h : t.pointee? x = some y) :
      t.get (t.base x) = .pointer y := by
    unfold pointee? baseEntry at h
    split at h
    next z hz =>
      obtain rfl := Option.some.inj h
      exact hz
    next => cases h
  have hgp := entry hp
  have hgq := entry hq
  unfold isAnalog at h
  cases hsize : t.entries.size with
  | zero =>
    rw [hsize, sameWithin, beq_iff_eq] at h
    rw [h, hgq] at hgp
    cases hgp
    rfl
  | succ bound =>
    rw [hsize, sameWithin, hgp, hgq, Bool.or_eq_true, beq_iff_eq] at h
    obtain h | h := h
    · rw [h, hgq] at hgp
      cases hgp
      rfl
    · exact isConstant_of_sameWithin bound h

theorem isConstant_constant (t : TypeTable) (id : TypeId) :
    (t.constant id).2.isConstant (t.constant id).1 = true := by
  unfold constant
  obtain ⟨ht, -, hget | ⟨b, hb, hid, hc⟩⟩ | ⟨ht, -⟩ := t.add_cases (.constant id)
  · rw [ht, isConstant, hget]
  · rwa [ht, hid]
  · rw [ht, isConstant, get_append_self]

/-- A type and the type without its CONST point to the same. -/
theorem Flat.pointee?_base (h : t.Flat) (id : TypeId) : t.pointee? (t.base id) = t.pointee? id := by
  rw [pointee?, baseEntry, h.base_base]
  rfl

theorem Flat.onlyReads_base (h : t.Flat) : t.OnlyReads (t.base a) ↔ t.OnlyReads a := by
  rw [OnlyReads, h.pointee?_base]
  rfl

/-- A table whose entries stay what they are, though more may follow. -/
structure Prefixes (t t' : TypeTable) : Prop where
  get : ∀ id < t.entries.size, t'.get id = t.get id

theorem Prefixes.isConstant_eq (h : t.Prefixes t') (ha : a < t.entries.size) :
    t'.isConstant a = t.isConstant a := by
  rw [isConstant, isConstant, h.get a ha]

theorem Flat.base_lt (hf : t.Flat) (ha : a < t.entries.size) : t.base a < t.entries.size := by
  unfold base
  split
  next b hb => exact (hf.constant a b hb).1
  next => exact ha

theorem Prefixes.pointee?_eq (h : t.Prefixes t') (hf : t.Flat) (ha : a < t.entries.size) :
    t'.pointee? a = t.pointee? a := by
  have hbase : t'.base a = t.base a := by rw [base, base, h.get a ha]
  rw [pointee?, pointee?, baseEntry, baseEntry, hbase, h.get _ (hf.base_lt ha)]

/-- What a pointer type of a table points to is in the table. -/
theorem Flat.pointee_lt (hf : t.Flat) {p : TypeId} (hp : t.pointee? a = some p) :
    p < t.entries.size := by
  unfold pointee? at hp
  split at hp
  next q hq =>
    obtain rfl := Option.some.inj hp
    exact hf.pointer _ _ hq
  next => cases hp

theorem Prefixes.writes_iff (h : t.Prefixes t') (hf : t.Flat) (ha : a < t.entries.size) :
    t'.Writes a ↔ t.Writes a := by
  rw [Writes, Writes, h.pointee?_eq hf ha]
  exact exists_congr fun p => and_congr_right fun hp => by
    rw [h.isConstant_eq (hf.pointee_lt hp)]

theorem Prefixes.onlyReads_iff (h : t.Prefixes t') (hf : t.Flat) (ha : a < t.entries.size) :
    t'.OnlyReads a ↔ t.OnlyReads a := by
  rw [OnlyReads, OnlyReads, h.pointee?_eq hf ha]
  exact exists_congr fun p => and_congr_right fun hp => by
    rw [h.isConstant_eq (hf.pointee_lt hp)]

end TypeTable

/-! ## Guarded expressions and statements -/

namespace Expr

/-- The declaration that a place is, or is a part of. -/
def root? : Expr → Option Declaration
  | .name _ _ decl => decl
  | .member _ target _ _ => target.root?
  | _ => none

/-- A part of a variable, an argument or a data field whose declared type is not CONST. -/
def IsVariable (Γ : Env) (e : Expr) : Prop :=
  ∃ d t, e.root? = some d ∧ Γ.declared d = some t ∧ Γ.types.isConstant t = false

/-- Where a pointer is expected through which its target can be written, the value is no pointer to
what is CONST. -/
def Supplies (t : TypeTable) (e : Expr) (expected : TypeId) : Prop :=
  t.Writes expected → ∀ a, e.type? = some a → ¬ t.OnlyReads a

/-- What the types of a node say about CONST: members of what is CONST are CONST, a pointer through
which its target can be written is to no value known beforehand and to nothing CONST, and arguments
supply their parameters. -/
def Guards (Γ : Env) : Expr → Prop
  | .member i target _ _ => ∀ a b, target.type? = some a → i.type = some b →
    Γ.types.isConstant a = true → Γ.types.isConstant b = true
  | .call _ _ arguments (some n) => ∀ f, Γ.function n = some f →
    List.Forall₂ (fun parameter e => e.Supplies Γ.types parameter) f.1 arguments
  | .pointer i target _ => ∀ q, i.type = some q → Γ.types.Writes q →
    target.fold Γ.types Γ.constant = none ∧
      ∀ a, target.type? = some a → Γ.types.isConstant a = false
  | _ => True

/-- All nodes of an expression respect CONST. -/
def Guarded (Γ : Env) (e : Expr) : Prop := ∀ n ∈ e.nodes, n.Guards Γ

end Expr

/-- Values supply what they are put into, and what is assigned to is not CONST. -/
def Stmt.Guards (Γ : Env) (returns : Option TypeId) : Stmt → Prop
  | .var _ index (some e) => ∀ t, Γ.declared (.localVar index) = some t → e.Supplies Γ.types t
  | .assign _ value target => ∀ t, target.type? = some t →
    Γ.types.isConstant t = false ∧ value.Supplies Γ.types t
  | .return _ (some e) => ∀ t, returns = some t → e.Supplies Γ.types t
  | .count _ counter _ _ _ _ _ => ∀ t, counter.type? = some t → Γ.types.isConstant t = false
  | _ => True

/-- Statements and nodes that respect CONST. -/
structure Guarded (Γ : Env) (returns : Option TypeId) (within : List Stmt) (nodes : List Expr) :
    Prop where
  statements : ∀ x ∈ within, x.Guards Γ returns
  nodes : ∀ n ∈ nodes, n.Guards Γ

namespace Expr

variable {Γ Γ' : Env} {e : Expr} {returns : Option TypeId}

/-- **The root of a place that is not CONST is not CONST.** -/
theorem Guarded.isVariable (hg : e.Guarded Γ) (ht : e.Typed Γ) (ha : e.isAddressable = true)
    (hc : ∀ t, e.type? = some t → Γ.types.isConstant t = false) : e.IsVariable Γ := by
  induction e using Expr.induct with
  | name i n d =>
    have place (d : Declaration) (h : i.type = Γ.declared d ∧ ∃ σ, Γ.shape i = some σ) :
        (name i n (some d)).IsVariable Γ := by
      obtain ⟨hd, σ, hσ⟩ := h
      obtain ⟨t, ht, -⟩ := Env.shape_eq_some.1 hσ
      exact ⟨d, t, rfl, hd.symm.trans ht, hc t ht⟩
    match d, ht with
    | some (.constant k), _ => cases ha
    | some (.localVar k), h => exact place _ h
    | some (.argument k), h => exact place _ h
    | some (.dataField k), h => exact place _ h
  | member i target field r ih =>
    match r, ht with
    | some r, ⟨ht, haddr, _, u, σ, _, _, hi⟩ =>
      obtain ⟨b, hb, -⟩ := Env.shape_eq_some.1 hi
      have hnode : (member i target field (some r)).Guards Γ := hg _ (mem_nodes _)
      refine ih (fun n hn => hg n (List.mem_cons_of_mem _ hn)) ht haddr fun a hta => ?_
      rw [Bool.eq_false_iff]
      intro hconst
      have hb' := hc b hb
      rw [hnode a b hta hb hconst] at hb'
      cases hb'
  | _ => cases ha

theorem Supplies.prefixes {t t' : TypeTable} (h : t.Prefixes t') (hf : t.Flat) {expected : TypeId}
    (hx : expected < t.entries.size) (he : ∀ a, e.type? = some a → a < t.entries.size)
    (hs : e.Supplies t expected) : e.Supplies t' expected := fun hw a ha hr =>
  hs ((h.writes_iff hf hx).1 hw) a ha ((h.onlyReads_iff hf (he a ha)).1 hr)

theorem Typed.type_lt (h : e.Typed Γ) {a : TypeId} (ha : e.type? = some a) :
    a < Γ.types.entries.size := by
  obtain ⟨σ, hσ⟩ := h.exists_shape ha
  exact TypeTable.lt_size_of_shape? hσ

/-- What is said about CONST stays true when no type is left to be resolved. -/
theorem Guards.extends (hΓ : Γ.Extends Γ') (hp : Γ.types.Prefixes Γ'.types) (hf : Γ.types.Flat)
    (ht : e.Typed Γ) (hg : e.Guards Γ) : e.Guards Γ' := by
  cases e with
  | member i target field r =>
    match r, ht with
    | some r, ⟨htarget, _, _, u, σ, _, _, hi⟩ =>
      intro a b ha hb hc
      obtain ⟨b', hb', hσ⟩ := Env.shape_eq_some.1 hi
      obtain rfl : b' = b := Option.some.inj (hb'.symm.trans hb)
      rw [hp.isConstant_eq (TypeTable.lt_size_of_shape? hσ)]
      exact hg a b' ha hb ((hp.isConstant_eq (htarget.type_lt ha)).symm.trans hc)
  | call i f arguments c =>
    match c, ht with
    | some n, ⟨⟨ps, hn, hall⟩, _⟩ =>
      intro g hgn
      obtain rfl := Option.some.inj ((hΓ.function n _ hn).symm.trans hgn)
      refine List.forall₂_iff_get.2 ⟨(hg _ hn).length_eq, fun k hk hk' => ?_⟩
      obtain ⟨htyped, σ, hσ, -⟩ := (typedAll_iff.1 hall).get hk hk'
      exact ((hg _ hn).get hk hk').prefixes hp hf (TypeTable.lt_size_of_shape? hσ)
        fun a ha => htyped.type_lt ha
  | pointer i target temp =>
    obtain ⟨htarget, hi, -⟩ := ht
    intro q hq hw
    obtain ⟨q', hq', hσ⟩ := Env.shape_eq_some.1 hi
    obtain rfl : q' = q := Option.some.inj (hq'.symm.trans hq)
    obtain ⟨hfold, hc⟩ := hg q' hq ((hp.writes_iff hf (TypeTable.lt_size_of_shape? hσ)).1 hw)
    refine ⟨(htarget.fold_extends hΓ).trans hfold, fun a ha => ?_⟩
    rw [hp.isConstant_eq (htarget.type_lt ha)]
    exact hc a ha
  | _ => trivial

theorem Guarded.extends (hΓ : Γ.Extends Γ') (hp : Γ.types.Prefixes Γ'.types) (hf : Γ.types.Flat)
    (ht : e.Typed Γ) (hg : e.Guarded Γ) : e.Guarded Γ' :=
  fun n hn => (hg n hn).extends hΓ hp hf (ht.node hn)

end Expr

namespace Stmt

variable {Γ Γ' : Env} {returns : Option TypeId}

theorem Guards.extends (hΓ : Γ.Extends Γ') (hp : Γ.types.Prefixes Γ'.types) (hf : Γ.types.Flat)
    {s : Stmt} (ht : s.Typed Γ returns) (hg : s.Guards Γ returns) : s.Guards Γ' returns := by
  cases s with
  | var l index value =>
    cases value with
    | none => trivial
    | some e =>
      obtain ⟨he, t, σ, hd, hσ, -⟩ := ht
      intro u hu
      obtain rfl := Option.some.inj ((hΓ.declared _ t hd).symm.trans hu)
      exact (hg t hd).prefixes hp hf (TypeTable.lt_size_of_shape? hσ) fun a ha => he.type_lt ha
  | assign l value target =>
    obtain ⟨hv, htarget, -⟩ := ht
    intro t hty
    obtain ⟨hc, hs⟩ := hg t hty
    rw [hp.isConstant_eq (htarget.type_lt hty)]
    exact ⟨hc, hs.prefixes hp hf (htarget.type_lt hty) fun a ha => hv.type_lt ha⟩
  | «return» l value =>
    cases value with
    | none => trivial
    | some e =>
      obtain ⟨he, t, σ, hr, hσ, -⟩ := ht
      intro u hu
      obtain rfl := Option.some.inj (hr.symm.trans hu)
      exact (hg t hr).prefixes hp hf (TypeTable.lt_size_of_shape? hσ) fun a ha => he.type_lt ha
  | count l counter start finish step body temps =>
    obtain ⟨⟨hc, -⟩, -⟩ := ht
    intro t hty
    rw [hp.isConstant_eq (hc.type_lt hty)]
    exact hg t hty
  | _ => trivial

end Stmt

section Guarded

variable {Γ Γ' : Env} {returns : Option TypeId} {within within' : List Stmt}
  {nodes nodes' : List Expr}

theorem Guarded.extends (hΓ : Γ.Extends Γ') (hp : Γ.types.Prefixes Γ'.types) (hf : Γ.types.Flat)
    (hw : ∀ x ∈ within, x.Typed Γ returns) (hn : ∀ n ∈ nodes, n.Typed Γ)
    (h : Guarded Γ returns within nodes) : Guarded Γ' returns within nodes where
  statements x hx := (h.statements x hx).extends hΓ hp hf (hw x hx)
  nodes n hx := (h.nodes n hx).extends hΓ hp hf (hn n hx)

theorem Guarded.append (h : Guarded Γ returns within nodes) (h' : Guarded Γ returns within' nodes') :
    Guarded Γ returns (within ++ within') (nodes ++ nodes') where
  statements x hx := (List.mem_append.1 hx).elim (h.statements x) (h'.statements x)
  nodes n hn := (List.mem_append.1 hn).elim (h.nodes n) (h'.nodes n)

/-- A statement respects CONST if it does itself, and all that it consists of. -/
theorem Guarded.cons {s : Stmt} (hs : s.Guards Γ returns) (h : Guarded Γ returns within nodes) :
    Guarded Γ returns (s :: within) nodes where
  statements x hx := by
    obtain rfl | hx := List.mem_cons.1 hx
    · exact hs
    · exact h.statements x hx
  nodes := h.nodes

theorem Guarded.of_append (h : Guarded Γ returns (within ++ within') (nodes ++ nodes')) :
    Guarded Γ returns within nodes ∧ Guarded Γ returns within' nodes' :=
  ⟨⟨(List.forall_mem_append.1 h.statements).1, (List.forall_mem_append.1 h.nodes).1⟩,
    ⟨(List.forall_mem_append.1 h.statements).2, (List.forall_mem_append.1 h.nodes).2⟩⟩

theorem Guarded.tail {s : Stmt} (h : Guarded Γ returns (s :: within) nodes) :
    Guarded Γ returns within nodes :=
  ⟨fun x hx => h.statements x (List.mem_cons_of_mem _ hx), h.nodes⟩

theorem Guarded.of_nodes (h : ∀ n ∈ nodes, n.Guards Γ) : Guarded Γ returns [] nodes :=
  ⟨fun _ hx => (nomatch hx), h⟩

end Guarded

/-! ## Operands with a value -/

namespace Expr

variable {Γ : Env} {e : Expr}

theorem Guarded.simplified (hg : e.Guarded Γ) :
    (e.simplified Γ.types Γ.constant).Guarded Γ := by
  obtain ⟨he, -⟩ | ⟨v, -, he⟩ := simplified_cases Γ.types Γ.constant e <;> rw [he]
  · exact hg
  · intro n hn
    obtain rfl := List.mem_singleton.1 hn
    trivial

theorem Supplies.simplified (hf : Γ.types.Flat) {expected : TypeId}
    (hs : e.Supplies Γ.types expected) :
    (e.simplified Γ.types Γ.constant).Supplies Γ.types expected := by
  obtain ⟨he, -⟩ | ⟨v, -, he⟩ := simplified_cases Γ.types Γ.constant e <;> rw [he]
  · exact hs
  · intro hw a ha hr
    obtain ⟨b, hb, rfl⟩ := Option.map_eq_some_iff.1 ha
    exact hs hw b hb (hf.onlyReads_base.1 hr)

/-- Turning operands into literals changes nothing about CONST. -/
theorem Guarded.simplify (hf : Γ.types.Flat) (ht : e.Typed Γ) (hp : ∀ i t p, e ≠ .pointer i t p)
    (hg : e.Guarded Γ) : (e.simplify Γ.types Γ.constant).Guarded Γ := by
  have inner {i : Expr} (h : ∀ n ∈ i.nodes, n ∈ e.nodes) :
      (i.simplified Γ.types Γ.constant).Guarded Γ :=
    Guarded.simplified fun n hn => hg n (h n hn)
  have node {n : Expr} {parts : List Expr} (h : n.Guards Γ) (hparts : ∀ m ∈ parts, m.Guards Γ) :
      ∀ m ∈ n :: parts, m.Guards Γ := by
    intro m hm
    obtain rfl | hm := List.mem_cons.1 hm
    · exact h
    · exact hparts m hm
  cases e with
  | literal => exact hg
  | name => exact hg
  | member i target field r =>
    match r, ht with
    | some r, ⟨_, ha, _⟩ =>
      rw [Expr.simplify, simplified_of_isAddressable ha]
      exact hg
  | call i f arguments c =>
    refine node ?_ fun n hn => ?_
    · match c, ht with
      | some k, _ =>
        intro g hk
        rw [List.forall₂_map_right_iff]
        exact (hg _ (mem_nodes _) g hk).imp fun _ _ h => h.simplified hf
    · obtain ⟨a, ha, hn⟩ := mem_nodesAll.1 hn
      obtain ⟨b, hb, rfl⟩ := List.mem_map.1 ha
      exact inner (fun m hm => List.mem_cons_of_mem _ (mem_nodesAll.2 ⟨b, hb, hm⟩)) n hn
  | unary i op operand =>
    exact node trivial (inner fun m hm => List.mem_cons_of_mem _ hm)
  | binary i op left right =>
    refine node trivial fun n hn => (List.mem_append.1 hn).elim ?_ ?_
    · exact inner (fun m hm => List.mem_cons_of_mem _ (List.mem_append_left _ hm)) n
    · exact inner (fun m hm => List.mem_cons_of_mem _ (List.mem_append_right _ hm)) n
  | cast i operand =>
    exact node trivial (inner fun m hm => List.mem_cons_of_mem _ hm)
  | pointer i t p => exact absurd rfl (hp i t p)

end Expr

/-! ## Checking -/

variable {sigs : Signatures} {visible : Nat → Bool} {s s' : CheckState} {e left right : Expr}
  {lengths : Array Expr} {constantType : ConstantType} {returns : Option TypeId}

theorem Enters.prefixes (h : Enters s s') : s.types.Prefixes s'.types := by
  obtain ⟨t, rfl, -, ha, -⟩ := h
  exact ⟨ha.get⟩

theorem Advances.prefixes (h : Advances s s') (hs : s.Settled) : s.types.Prefixes s'.types :=
  ⟨(h.settled hs).get⟩

theorem Expr.Guarded.enters (h : Enters s s') (hf : s.types.Flat) (ht : e.Typed (s.env sigs visible))
    (hg : e.Guarded (s.env sigs visible)) : e.Guarded (s'.env sigs visible) :=
  hg.extends h.env h.prefixes hf ht

theorem Expr.Guarded.advances (h : Advances s s') (hs : s.Settled) (hf : s.types.Flat)
    (ht : e.Typed (s.env sigs visible)) (hg : e.Guarded (s.env sigs visible)) :
    e.Guarded (s'.env sigs visible) :=
  hg.extends h.env (h.prefixes hs) hf ht

theorem Guarded.advances {within : List Stmt} {nodes : List Expr} (h : Advances s s')
    (hs : s.Settled) (hf : s.types.Flat) (hw : ∀ x ∈ within, x.Typed (s.env sigs visible) returns)
    (hn : ∀ n ∈ nodes, n.Typed (s.env sigs visible))
    (hg : Guarded (s.env sigs visible) returns within nodes) :
    Guarded (s'.env sigs visible) returns within nodes :=
  hg.extends h.env (h.prefixes hs) hf hw hn

namespace Checking

/-- **What is coerced to a type supplies it**, and a pointer made on the way respects CONST. -/
theorem guarded_coerce (hg : e.Guarded (s.env sigs visible)) {expected : TypeId} {rule : Rule} :
    Ends (coerce e expected rule) s fun e' s' => s' = s ∧ e'.Guarded (s.env sigs visible) ∧
      e'.Supplies s.types expected := by
  unfold coerce
  split
  · exact Ends.refused
  next actual hactual =>
    refine Ends.reads ?_
    dsimp only
    split
    next hanalog =>
      refine Ends.value ⟨rfl, hg, ?_⟩
      rintro ⟨p, hp, hn⟩ a ha ⟨q, hq, hc⟩
      obtain rfl : actual = a := Option.some.inj (hactual.symm.trans ha)
      rw [TypeTable.isConstant_of_isAnalog hanalog hq hp, hn] at hc
      cases hc
    next =>
      refine Ends.seq (Ends.reads (Ends.value (Q := fun v s' => s' = s ∧
        v = e.fold s.types s.constantValue) ⟨rfl, rfl⟩)) fun value s₁ h₁ => ?_
      obtain ⟨rfl, hvalue⟩ := h₁
      split
      next pointee hpointee =>
        split
        · exact Ends.refused_seq
        next haccepts =>
          have haccepts : s₁.types.acceptsPointer pointee actual value.isSome = true := by
            simpa using haccepts
          unfold TypeTable.acceptsPointer at haccepts
          split at haccepts
          next source hsource =>
            rw [hsource, Option.isSome_some, if_pos rfl]
            refine Ends.value ⟨rfl, hg, ?_⟩
            rintro ⟨p, hp, hn⟩ a ha ⟨q, hq, hc⟩
            obtain rfl : actual = a := Option.some.inj (hactual.symm.trans ha)
            obtain rfl : pointee = p := Option.some.inj (hpointee.symm.trans hp)
            obtain rfl : source = q := Option.some.inj (hsource.symm.trans hq)
            simp [hn, hc] at haccepts
          next hsource =>
            rw [hsource, Option.isSome_none, if_neg (by simp)]
            have hwrites {q : TypeId} (hq : some expected = some q) (hw : s₁.types.Writes q) :
                s₁.types.isConstant pointee = false := by
              obtain rfl := Option.some.inj hq
              obtain ⟨p, hp, hn⟩ := hw
              obtain rfl : pointee = p := Option.some.inj (hpointee.symm.trans hp)
              exact hn
            refine Ends.value ⟨rfl, fun n hn => ?_, fun hw a ha => ?_⟩
            · obtain rfl | hn := List.mem_cons.1 hn
              · intro q hq hw
                have hplain := hwrites hq hw
                simp only [hplain, Bool.false_or, Bool.and_eq_true, Bool.not_eq_true',
                  Bool.or_eq_false_iff, Option.isSome_eq_false_iff, Option.isNone_iff_eq_none]
                  at haccepts
                refine ⟨hvalue.symm.trans haccepts.2.2, fun a ha => ?_⟩
                obtain rfl : actual = a := Option.some.inj (hactual.symm.trans ha)
                exact haccepts.2.1
              · exact hg n hn
            · obtain rfl : expected = a := Option.some.inj ha
              exact hw.not_onlyReads
      next hnone =>
        have hsupplies (e' : Expr) : e'.Supplies s₁.types expected := by
          rintro ⟨p, hp, -⟩
          rw [hnone] at hp
          cases hp
        split
        · refine Ends.value ⟨rfl, fun n hn => ?_, hsupplies _⟩
          obtain rfl := List.mem_singleton.1 hn
          trivial
        · split
          · refine Ends.value ⟨rfl, fun n hn => ?_, hsupplies _⟩
            obtain rfl | hn := List.mem_cons.1 hn
            · trivial
            · exact hg n hn
          · exact Ends.refused

theorem guarded_simplify (hs : s.Sound lengths) (ht : e.Typed (s.env sigs visible))
    (hp : ∀ i t p, e ≠ .pointer i t p) (hg : e.Guarded (s.env sigs visible)) :
    Ends (simplify e) s fun e' s' => e'.Guarded (s'.env sigs visible) :=
  Ends.reads (Ends.value (hg.simplify hs.flat ht hp))

/-- Members of what is CONST are CONST. -/
theorem constant_member {place : Location} {field : String} :
    Ends (member sigs place e field) s fun r s' => ∀ a, e.type? = some a →
      s.types.isConstant a = true → s'.types.isConstant r.2 = true := by
  unfold member
  refine (ends_valueType e s).seq fun type s₁ h₁ => ?_
  obtain ⟨rfl, htype⟩ := h₁
  refine Ends.reads ?_
  dsimp only
  split
  · exact Ends.refused
  · split
    · split
      · exact Ends.refused
      next slot index hfind =>
        split
        · refine Ends.seq (Ends.changes (Q := fun u s₂ => s₂.types.isConstant u = true)
            (s₁.types.isConstant_constant slot.type)) fun u s₂ h₂ => Ends.value fun _ _ _ => h₂
        next hc =>
          refine Ends.value fun a ha hconst => absurd hconst ?_
          obtain rfl : type = a := Option.some.inj (htype.symm.trans ha)
          exact hc
    · exact Ends.refused_seq

/-! ### Operators -/

theorem guarded_stringify (hs : s.Sound lengths) (ht : e.Typed (s.env sigs visible))
    (hg : e.Guarded (s.env sigs visible)) {place : Location} {type : TypeId} :
    Ends (stringify place e type) s fun r s' => r.1.Guarded (s'.env sigs visible) := by
  unfold stringify
  refine Ends.reads ?_
  dsimp only
  split
  · exact Ends.value hg
  · split
    · exact Ends.refused
    · refine (ends_stringOf hs _).seq fun target s₁ h₁ => ?_
      obtain ⟨-, hen, -⟩ := h₁
      refine (guarded_coerce (hg.enters hen hs.flat ht)).seq fun e' s₂ h₂ => ?_
      obtain ⟨rfl, hg', -⟩ := h₂
      exact Ends.value hg'

theorem guarded_stringSum (hs : s.Sound lengths) (hl : left.Typed (s.env sigs visible))
    (hr : right.Typed (s.env sigs visible)) (hgl : left.Guarded (s.env sigs visible))
    (hgr : right.Guarded (s.env sigs visible)) {place : Location} {lt rt : TypeId}
    (hlt : left.type? = some lt) (hrt : right.type? = some rt) :
    Ends (stringSum place left right lt rt) s fun r s' =>
      r.1.Guarded (s'.env sigs visible) ∧ r.2.1.Guarded (s'.env sigs visible) := by
  unfold stringSum
  refine ((ends_stringify hs hl hlt).both (guarded_stringify hs hl hgl)).seq fun l s₁ h₁ => ?_
  obtain ⟨⟨hs₁, he₁, hl₁, -⟩, hgl₁⟩ := h₁
  have hr₁ : right.Typed (s₁.env sigs visible) := hr.extends he₁.env
  refine ((ends_stringify hs₁ hr₁ hrt).both
    (guarded_stringify hs₁ hr₁ (hgr.enters he₁ hs.flat hr))).seq fun r s₂ h₂ => ?_
  obtain ⟨⟨hs₂, he₂, hr₂, -⟩, hgr₂⟩ := h₂
  have hgl₂ := hgl₁.enters he₂ hs₁.flat hl₁
  refine Ends.reads ?_
  dsimp only
  split
  next n m hn hm =>
    refine (ends_stringOf hs₂ (n + m)).seq fun t s₃ h₃ => ?_
    obtain ⟨-, he₃, -⟩ := h₃
    exact Ends.value ⟨hgl₂.enters he₃ hs₂.flat (hl₁.extends he₂.env),
      hgr₂.enters he₃ hs₂.flat hr₂⟩
  next => exact Ends.refused

theorem guarded_promote (hgl : left.Guarded (s.env sigs visible))
    (hgr : right.Guarded (s.env sigs visible)) {common : TypeId} :
    Ends (promote left right common) s fun r s' =>
      s' = s ∧ r.1.Guarded (s.env sigs visible) ∧ r.2.Guarded (s.env sigs visible) := by
  unfold promote
  refine (guarded_coerce hgl).seq fun l s₁ h₁ => ?_
  obtain ⟨rfl, hl, -⟩ := h₁
  refine (guarded_coerce hgr).seq fun r s₂ h₂ => ?_
  obtain ⟨rfl, hr, -⟩ := h₂
  exact Ends.value ⟨rfl, hl, hr⟩

/-- Operands that are given to an operator as they are, or promoted, respect CONST. -/
theorem guarded_promoted (hgl : left.Guarded (s.env sigs visible))
    (hgr : right.Guarded (s.env sigs visible)) {common result : TypeId} :
    Ends (do
      let (left, right) ← promote left right common
      return (left, right, result) : Checking (Expr × Expr × TypeId)) s fun r s' =>
      r.1.Guarded (s'.env sigs visible) ∧ r.2.1.Guarded (s'.env sigs visible) := by
  refine (guarded_promote hgl hgr).seq fun r s₁ h₁ => ?_
  obtain ⟨rfl, hl, hr⟩ := h₁
  exact Ends.value ⟨hl, hr⟩

theorem guarded_arithmetic (hgl : left.Guarded (s.env sigs visible))
    (hgr : right.Guarded (s.env sigs visible)) {place : Location} {op : BinaryOp}
    {lt rt : TypeId} : Ends (arithmetic place op left right lt rt) s fun r s' =>
      r.1.Guarded (s'.env sigs visible) ∧ r.2.1.Guarded (s'.env sigs visible) := by
  unfold arithmetic
  refine Ends.reads ?_
  dsimp only
  split
  · split
    · exact Ends.refused_seq
    · exact guarded_promoted hgl hgr
  · exact Ends.refused

theorem guarded_logic (hgl : left.Guarded (s.env sigs visible))
    (hgr : right.Guarded (s.env sigs visible)) {place : Location} {op : BinaryOp}
    {lt rt : TypeId} : Ends (logic place op left right lt rt) s fun r s' =>
      r.1.Guarded (s'.env sigs visible) ∧ r.2.1.Guarded (s'.env sigs visible) := by
  unfold logic
  refine Ends.reads ?_
  dsimp only
  split
  · exact Ends.value ⟨hgl, hgr⟩
  · split
    · exact guarded_promoted hgl hgr
    · exact Ends.refused

theorem guarded_comparison (hgl : left.Guarded (s.env sigs visible))
    (hgr : right.Guarded (s.env sigs visible)) {place : Location} {op : BinaryOp}
    {lt rt : TypeId} : Ends (comparison place op left right lt rt) s fun r s' =>
      r.1.Guarded (s'.env sigs visible) ∧ r.2.1.Guarded (s'.env sigs visible) := by
  unfold comparison
  refine Ends.reads ?_
  dsimp only
  split
  · exact guarded_promoted hgl hgr
  · split
    · exact Ends.value ⟨hgl, hgr⟩
    · exact Ends.refused_seq

theorem guarded_binary (hs : s.Sound lengths) (hl : left.Typed (s.env sigs visible))
    (hr : right.Typed (s.env sigs visible)) (hgl : left.Guarded (s.env sigs visible))
    (hgr : right.Guarded (s.env sigs visible)) {place : Location} {op : BinaryOp} :
    Ends (binary place op left right) s fun r s' =>
      r.1.Guarded (s'.env sigs visible) ∧ r.2.1.Guarded (s'.env sigs visible) := by
  unfold binary
  refine (ends_valueType left s).seq fun lt s₁ h₁ => ?_
  obtain ⟨rfl, hlt⟩ := h₁
  refine (ends_valueType right s₁).seq fun rt s₂ h₂ => ?_
  obtain ⟨rfl, hrt⟩ := h₂
  refine Ends.reads ?_
  cases op with
  | add =>
    dsimp only
    split
    · exact guarded_stringSum hs hl hr hgl hgr hlt hrt
    · exact guarded_arithmetic hgl hgr
  | subtract | multiply | divide | mod => exact guarded_arithmetic hgl hgr
  | shl | shr =>
    dsimp only
    split
    · exact Ends.value ⟨hgl, hgr⟩
    · exact Ends.refused
  | and | or | xor => exact guarded_logic hgl hgr
  | less | lessEqual | greater | greaterEqual | equal | notEqual => exact guarded_comparison hgl hgr

/-! ### Expressions -/

mutual

/-- **A checked expression respects CONST**, once all constants are evaluated. -/
theorem guarded_expr (hf : Finds lengths constantType) : (e : Expr) → (s : CheckState) →
    s.Sound lengths → s.Settled → sigs.Known s.types → e.Plain s.types visible →
      Ends (expr sigs constantType e) s fun e' s' => e'.Guarded (s'.env sigs visible)
  | .literal i v, s, _, _, _, _ => Ends.value fun n hn => by
    obtain rfl := List.mem_singleton.1 hn
    trivial
  | .name i name none, s, _, _, _, _ => by
    unfold expr
    refine Ends.seq (Ends.value (Q := fun t _ => t = none) rfl) fun t s₁ h₁ => ?_
    subst h₁
    exact Ends.refused
  | .name i name (some d), s, _, _, _, _ => by
    unfold expr
    refine Ends.after fun t s₁ => ?_
    cases t with
    | none => exact Ends.refused
    | some u =>
      refine Ends.value fun n hn => ?_
      obtain rfl := List.mem_singleton.1 hn
      trivial
  | .member i target field r, s, hs, hset, hk, hp => by
    unfold expr
    refine ((ends_expr hf target s hs hk hp).both
      (guarded_expr hf target s hs hset hk hp)).seq fun target s₁ h₁ => ?_
    obtain ⟨⟨hs₁, hm, ht⟩, hg⟩ := h₁
    refine ((ends_member hs₁ (hk.extends hm.types) ht).both constant_member).seq fun r s₂ h₂ => ?_
    obtain ⟨⟨hs₂, hen, haddr, hstruct, t, σ, hmem, hσ, hr⟩, hconst⟩ := h₂
    have hnode : (Expr.member { i with type := some r.2 } target field (some r.1)).Typed
        (s₂.env sigs visible) :=
      ⟨ht.extends hen.env, haddr, hstruct, t, σ, hmem, hσ, hr⟩
    have hg₂ := hg.enters hen hs₁.flat ht
    refine guarded_simplify hs₂ hnode (by simp) fun n hn => ?_
    obtain rfl | hn := List.mem_cons.1 hn
    · intro a b ha hb hc
      obtain rfl : r.2 = b := Option.some.inj hb
      rw [show (s₂.env sigs visible).types = s₂.types from rfl,
        hen.prefixes.isConstant_eq (ht.type_lt ha)] at hc
      exact hconst a ha hc
    · exact hg₂ n hn
  | .call i function arguments callee, s, hs, hset, hk, ⟨hvis, hargs⟩ => by
    unfold expr
    split
    · exact Ends.refused
    next f hfun =>
      obtain ⟨n, rfl, hf'⟩ := Option.bind_eq_some_iff.1 hfun
      dsimp only
      split
      · exact Ends.refused_seq
      next hlen =>
        have hlen : f.parameters.length = arguments.length := by simpa using hlen
        refine ((ends_exprs hf f.parameters arguments s hs hk hargs hlen).both
          (guarded_exprs hf f.parameters arguments s hs hset hk hargs hlen)).seq
            fun es s₁ h₁ => ?_
        obtain ⟨⟨hs₁, hm, hes⟩, hg, hsupplies⟩ := h₁
        have hfn : (s₁.env sigs visible).function n = some (f.parameters, f.returns) := by
          simp [CheckState.env, hvis n rfl, hf']
        have hret := (hk.extends hm.types).returns n f hf'
        have hnode : (Expr.call { i with type := f.returns } function es (some n)).Typed
            (s₁.env sigs visible) := ⟨⟨f.parameters, hfn, hes⟩, hret⟩
        refine guarded_simplify hs₁ hnode (by simp) fun m hm' => ?_
        obtain rfl | hm' := List.mem_cons.1 hm'
        · intro g hgn
          obtain rfl := Option.some.inj (hfn.symm.trans hgn)
          exact hsupplies
        · exact hg m hm'
  | .unary i op operand, s, hs, hset, hk, hp => by
    unfold expr
    refine ((ends_expr hf operand s hs hk hp).both
      (guarded_expr hf operand s hs hset hk hp)).seq fun operand s₁ h₁ => ?_
    obtain ⟨⟨hs₁, hm, ho⟩, hg⟩ := h₁
    refine (ends_unary hs₁ ho).seq fun t s₂ h₂ => ?_
    obtain ⟨rfl, σ, hoσ, hop, hσ⟩ := h₂
    have hnode : (Expr.unary { i with type := some t } op operand).Typed (s₂.env sigs visible) :=
      ⟨ho, σ, hoσ, hop, hσ⟩
    refine guarded_simplify hs₁ hnode (by simp) fun n hn => ?_
    obtain rfl | hn := List.mem_cons.1 hn
    · trivial
    · exact hg n hn
  | .binary i op left right, s, hs, hset, hk, ⟨hpl, hpr⟩ => by
    unfold expr
    refine ((ends_expr hf left s hs hk hpl).both
      (guarded_expr hf left s hs hset hk hpl)).seq fun left s₁ h₁ => ?_
    obtain ⟨⟨hs₁, hm₁, hl⟩, hgl⟩ := h₁
    refine (ends_valueType left s₁).seq fun _ s₁' h₁' => ?_
    obtain ⟨rfl, -⟩ := h₁'
    have hset₁ := hset.grows hm₁.toGrows
    have hpr := hpr.extends hm₁.types
    refine ((ends_expr hf right s₁' hs₁ (hk.extends hm₁.types) hpr).both
      (guarded_expr hf right s₁' hs₁ hset₁ (hk.extends hm₁.types) hpr)).seq fun right s₂ h₂ => ?_
    obtain ⟨⟨hs₂, hm₂, hr⟩, hgr⟩ := h₂
    have hl₂ : left.Typed (s₂.env sigs visible) := hl.extends hm₂.env
    refine ((ends_binary hs₂ hl₂ hr).both (guarded_binary hs₂ hl₂ hr
      (hgl.advances hm₂.advances hset₁ hs₁.flat hl) hgr)).seq fun r s₃ h₃ => ?_
    obtain ⟨⟨hs₃, hen, hl', hr', a, b, c, ha, hb, hop, hc⟩, hgl', hgr'⟩ := h₃
    have hnode : (Expr.binary { i with type := some r.2.2 } op r.1 r.2.1).Typed
        (s₃.env sigs visible) := ⟨hl', hr', a, b, c, ha, hb, hop, hc⟩
    refine guarded_simplify hs₃ hnode (by simp) fun n hn => ?_
    obtain rfl | hn := List.mem_cons.1 hn
    · trivial
    · exact (List.mem_append.1 hn).elim (hgl' n) (hgr' n)

/-- Checked arguments respect CONST, and supply their parameters. -/
theorem guarded_exprs (hf : Finds lengths constantType) : (ps : List TypeId) → (es : List Expr) →
    (s : CheckState) → s.Sound lengths → s.Settled → sigs.Known s.types →
      Expr.PlainAll s.types visible es → ps.length = es.length →
      Ends (exprs sigs constantType ps es) s fun es' s' =>
        (∀ n ∈ Expr.nodesAll es', n.Guards (s'.env sigs visible)) ∧
          List.Forall₂ (fun p e => e.Supplies s'.types p) ps es'
  | p :: ps, e :: rest, s, hs, hset, hk, ⟨hp, hrest⟩, hlen => by
    unfold exprs
    refine ((ends_expr hf e s hs hk hp).both (guarded_expr hf e s hs hset hk hp)).seq
      fun e s₁ h₁ => ?_
    obtain ⟨⟨hs₁, hm₁, he⟩, hg⟩ := h₁
    refine (ends_valueType e s₁).seq fun _ s₁' h₁' => ?_
    obtain ⟨rfl, -⟩ := h₁'
    refine ((ends_coerce hs₁ he).both (guarded_coerce hg)).seq fun e' s₂ h₂ => ?_
    obtain ⟨⟨rfl, he', σ, hpσ, -⟩, -, hg', hsupplies⟩ := h₂
    have hset₁ := hset.grows hm₁.toGrows
    have hrest := hrest.extends hm₁.types
    have hlen : ps.length = rest.length := by simpa using hlen
    refine ((ends_exprs hf ps rest s₂ hs₁ (hk.extends hm₁.types) hrest hlen).both
      (guarded_exprs hf ps rest s₂ hs₁ hset₁ (hk.extends hm₁.types) hrest hlen)).seq
        fun es s₃ h₃ => ?_
    obtain ⟨⟨hs₃, hm₃, hes⟩, hges, hall⟩ := h₃
    refine Ends.value ⟨fun n hn => ?_, .cons ?_ hall⟩
    · exact (List.mem_append.1 hn).elim (hg'.advances hm₃.advances hset₁ hs₁.flat he' n) (hges n)
    · exact hsupplies.prefixes (hm₃.advances.prefixes hset₁) hs₁.flat
        (TypeTable.lt_size_of_shape? hpσ) fun a ha => he'.type_lt ha
  | [], [], s, _, _, _, _, _ => by
    unfold exprs
    exact Ends.value ⟨fun _ hn => (nomatch hn), .nil⟩

end

/-! ### Statements -/

theorem guarded_value (hf : Finds lengths constantType) (hs : s.Sound lengths) (hset : s.Settled)
    (hk : sigs.Known s.types) (hp : e.Plain s.types visible) :
    Ends (value sigs constantType e) s fun r s' => r.1.Guarded (s'.env sigs visible) := by
  unfold value
  refine (guarded_expr hf e s hs hset hk hp).seq fun e' s₁ h₁ => ?_
  refine (ends_valueType e' s₁).seq fun t s₂ h₂ => ?_
  obtain ⟨rfl, -⟩ := h₂
  exact Ends.value h₁

theorem guarded_assigned (hf : Finds lengths constantType) (hs : s.Sound lengths) (hset : s.Settled)
    (hk : sigs.Known s.types) (hp : e.Plain s.types visible) {expected : TypeId} :
    Ends (assigned sigs constantType expected e) s fun e' s' => e'.Guarded (s'.env sigs visible) ∧
      e'.Supplies s'.types expected := by
  unfold assigned
  refine (guarded_value hf hs hset hk hp).seq fun r s₁ h₁ => ?_
  refine (guarded_coerce h₁).mono fun e' s₂ h₂ => ?_
  obtain ⟨rfl, hg, hsupplies⟩ := h₂
  exact ⟨hg, hsupplies⟩

/-- What is accepted as a target is not CONST. -/
theorem guarded_target (hf : Finds lengths constantType) (hs : s.Sound lengths) (hset : s.Settled)
    (hk : sigs.Known s.types) (hp : e.Plain s.types visible) :
    Ends (target sigs constantType e) s fun r s' => r.1.Guarded (s'.env sigs visible) ∧
      s'.types.isConstant r.2 = false := by
  unfold target
  refine (guarded_value hf hs hset hk hp).seq fun r s₁ h₁ => ?_
  dsimp only
  split
  · refine Ends.reads ?_
    split
    · exact Ends.refused_seq
    next hc => exact Ends.value ⟨h₁, by simpa using hc⟩
  · exact Ends.refused_seq

theorem guarded_condition (hf : Finds lengths constantType) (hs : s.Sound lengths) (hset : s.Settled)
    (hk : sigs.Known s.types) (hp : e.Plain s.types visible) :
    Ends (condition sigs constantType e) s fun e' s' => e'.Guarded (s'.env sigs visible) := by
  unfold condition
  refine (guarded_value hf hs hset hk hp).seq fun r s₁ h₁ => ?_
  refine Ends.reads ?_
  dsimp only
  split
  · exact Ends.value h₁
  · exact Ends.refused_seq

/-- **A declared variable gets a first value that supplies its type.** -/
theorem guarded_var (returns : Option TypeId) (hf : Finds lengths constantType)
    (hs : s.Sound lengths) (hset : s.Settled) (hk : sigs.Known s.types) {place : Location}
    {index : Nat} {first : Option Expr} (hp : ∀ e, first = some e → e.Plain s.types visible) :
    Ends (var sigs constantType place index first) s fun r s' =>
      Guarded (s'.env sigs visible) returns [.var place index r] (Expr.nodesOf r) := by
  unfold var
  refine Ends.reads ?_
  split
  · exact Ends.refused
  next v hv =>
    dsimp only
    split
    next _ declared hdeclared =>
      split
      · exact Ends.refused_seq
      · split
        next e =>
          refine ((ends_assigned hf hs hk (hp e rfl)).both
            (guarded_assigned hf hs hset hk (hp e rfl))).seq fun e' s₁ h₁ => ?_
          obtain ⟨⟨-, hm, -⟩, hg, hsupplies⟩ := h₁
          have hlocal : s₁.localType index = some declared :=
            hm.advances.locals _ _ (Option.bind_eq_some_iff.2 ⟨v, hv, hdeclared⟩)
          refine Ends.value (.cons (fun t ht => ?_) (.of_nodes hg))
          obtain rfl : declared = t := Option.some.inj (hlocal.symm.trans ht)
          exact hsupplies
        next => exact Ends.value (.cons trivial (.of_nodes fun _ hn => absurd hn List.not_mem_nil))
    next e hnone =>
      refine ((ends_value hf hs hk (hp e rfl)).both (guarded_value hf hs hset hk (hp e rfl))).seq
        fun r s₁ h₁ => ?_
      obtain ⟨⟨hs₁, hm, he, ht⟩, hg⟩ := h₁
      have hv₁ : s₁.locals[index]? = some v := by rwa [hm.locals]
      refine Ends.reads (Ends.seq (Ends.modifies (Q := fun _ s₂ => Advances s₁ s₂ ∧
        s₂.types = s₁.types ∧ s₂.localType index = some (s₁.types.base r.2)) ⟨?_, rfl, ?_⟩)
        fun _ s₂ h₂ => ?_)
      · refine advances_modify s₁ _ _ fun w t hw ht => ?_
        obtain rfl : v = w := Option.some.inj (hv₁.symm.trans hw)
        rw [hnone] at ht
        cases ht
      · simp [CheckState.localType, Array.getElem?_modify, hv₁]
      · obtain ⟨ha, htypes, hlocal⟩ := h₂
        have hset₁ := hset.grows hm.toGrows
        refine Ends.value (.cons (fun t ht' => ?_) (.of_nodes (hg.advances ha hset₁ hs₁.flat he)))
        obtain rfl : s₁.types.base r.2 = t := Option.some.inj (hlocal.symm.trans ht')
        intro hw a ha' hr
        obtain rfl : r.2 = a := Option.some.inj (ht.symm.trans ha')
        rw [show (s₂.env sigs visible).types = s₁.types from htypes] at hw hr
        exact hw.not_onlyReads (hs₁.flat.onlyReads_base.2 hr)
    · exact Ends.refused

mutual

/-- **A checked statement respects CONST.** -/
theorem guarded_stmt (hf : Finds lengths constantType) : (t : Stmt) → (s : CheckState) →
    s.Sound lengths → s.Settled → sigs.Known s.types → t.Plain s.types visible →
      Ends (stmt sigs constantType returns t) s fun t' s' =>
        Guarded (s'.env sigs visible) returns t'.within t'.nodes
  | .var l index first, s, hs, hset, hk, hp => by
    unfold stmt
    exact (guarded_var returns hf hs hset hk hp).seq fun r s₁ h₁ => Ends.value h₁
  | .assign l first place, s, hs, hset, hk, ⟨hpf, hpp⟩ => by
    unfold stmt
    refine ((ends_value hf hs hk hpf).both (guarded_value hf hs hset hk hpf)).seq fun r s₁ h₁ => ?_
    obtain ⟨⟨hs₁, hm₁, hr, hrt⟩, hg⟩ := h₁
    obtain ⟨σ, hσ⟩ := hr.exists_shape hrt
    have hset₁ := hset.grows hm₁.toGrows
    refine (ends_infer hs₁ hσ place).seq fun _ s₂ h₂ => ?_
    obtain ⟨hs₂, ha₂⟩ := h₂
    have ha : Advances s s₂ := Advances.passage.trans hm₁.advances ha₂
    have hpp := hpp.extends ha.types
    refine ((ends_target hf hs₂ (hk.extends ha.types) hpp).both
      (guarded_target hf hs₂ (hset.grows ha.toGrows) (hk.extends ha.types) hpp)).seq
        fun p s₃ h₃ => ?_
    obtain ⟨⟨hs₃, hm₃, hp', hpt, -⟩, hgp, hconst⟩ := h₃
    have ha₃ := Advances.passage.trans ha₂ hm₃.advances
    refine (guarded_coerce (hg.advances ha₃ hset₁ hs₁.flat hr)).seq fun e' s₄ h₄ => ?_
    obtain ⟨rfl, hg', hsupplies⟩ := h₄
    refine Ends.value (.cons (fun t ht => ?_) (.of_nodes fun n hn =>
      (List.mem_append.1 hn).elim (hg' n) (hgp n)))
    obtain rfl : p.2 = t := Option.some.inj (hpt.symm.trans ht)
    exact ⟨hconst, hsupplies⟩
  | .invoke l call, s, hs, hset, hk, hp => by
    unfold stmt
    exact (guarded_expr hf call s hs hset hk hp).seq fun e' s₁ h₁ =>
      Ends.value (.cons trivial (.of_nodes h₁))
  | .return l result, s, hs, hset, hk, hp => by
    unfold stmt
    split
    next expected e =>
      refine (guarded_assigned hf hs hset hk (hp e rfl)).seq fun e' s₁ h₁ => ?_
      refine Ends.value (.cons (fun t ht => ?_) (.of_nodes h₁.1))
      obtain rfl := Option.some.inj ht
      exact h₁.2
    · exact Ends.refused
    · exact Ends.refused
    · exact Ends.value (.cons trivial (.of_nodes fun _ hn => absurd hn List.not_mem_nil))
  | .choose l branches, s, hs, hset, hk, hp => by
    unfold stmt
    exact (guarded_choices hf branches s hs hset hk hp).seq fun b s₁ h₁ =>
      Ends.value (.cons trivial h₁)
  | .count l counter start finish step body temps, s, hs, hset, hk,
      ⟨⟨hpc, hps, hpf, hpstep⟩, hpb⟩ => by
    unfold stmt
    refine ((ends_value hf hs hk hps).both (guarded_value hf hs hset hk hps)).seq fun r s₁ h₁ => ?_
    obtain ⟨⟨hs₁, hm₁, hr, hrt⟩, hgr⟩ := h₁
    obtain ⟨σ, hσ⟩ := hr.exists_shape hrt
    have hset₁ := hset.grows hm₁.toGrows
    refine (ends_infer hs₁ hσ counter).seq fun _ s₂ h₂ => ?_
    obtain ⟨hs₂, ha₂⟩ := h₂
    have ha : Advances s s₂ := Advances.passage.trans hm₁.advances ha₂
    have hpc := hpc.extends ha.types
    refine ((ends_target hf hs₂ (hk.extends ha.types) hpc).both
      (guarded_target hf hs₂ (hset.grows ha.toGrows) (hk.extends ha.types) hpc)).seq
        fun c s₃ h₃ => ?_
    obtain ⟨⟨hs₃, hm₃, hc, hct, haddr⟩, hgc, hconst⟩ := h₃
    have ha₃ := Advances.passage.trans ha₂ hm₃.advances
    refine Ends.reads ?_
    dsimp only
    split
    next hnum =>
      have hr₃ : r.1.Typed (s₃.env sigs visible) := hr.extends ha₃.env
      refine ((ends_coerce hs₃ hr₃).both
        (guarded_coerce (hgr.advances ha₃ hset₁ hs₁.flat hr))).seq fun start' s₄ h₄ => ?_
      obtain ⟨⟨rfl, hstart, -⟩, -, hgs, -⟩ := h₄
      have ha₄ : Advances s s₄ := Advances.passage.trans hm₁.advances ha₃
      have hset₄ := hset.grows ha₄.toGrows
      have hpf := hpf.extends ha₄.types
      refine ((ends_assigned hf hs₃ (hk.extends ha₄.types) hpf).both
        (guarded_assigned hf hs₃ hset₄ (hk.extends ha₄.types) hpf)).seq fun finish' s₅ h₅ => ?_
      obtain ⟨⟨hs₅, hm₅, hfin, -⟩, hgf, -⟩ := h₅
      have ha₅ : Advances s s₅ := Advances.passage.trans ha₄ hm₅.advances
      have hset₅ := hset.grows ha₅.toGrows
      -- The step may be missing; either way the body follows.
      have rest (s₆ : CheckState) (hs₆ : s₆.Sound lengths) (hm₆ : Moves s₅ s₆) (step' : Option Expr)
          (hstep : ∀ e, step' = some e → e.Typed (s₆.env sigs visible) ∧
            e.Guarded (s₆.env sigs visible)) :
          Ends (do
            let step ← pure step'
            let body ← stmts sigs constantType returns body
            pure (Stmt.count l c.1 start' finish' step body temps)) s₆ fun t' s' =>
              Guarded (s'.env sigs visible) returns t'.within t'.nodes := by
        have ha₆ : Advances s s₆ := Advances.passage.trans ha₅ hm₆.advances
        refine Ends.seq (Ends.value (Q := fun a s' => a = step' ∧ s' = s₆) ⟨rfl, rfl⟩) ?_
        rintro step' s₆ ⟨rfl, rfl⟩
        have hset₆ := hset.grows ha₆.toGrows
        have hpb := hpb.extends ha₆.types
        refine ((ends_stmts hf body _ hs₆ (hk.extends ha₆.types) hpb).both
          (guarded_stmts hf body _ hs₆ hset₆ (hk.extends ha₆.types) hpb)).seq
            fun body' s₇ h₇ => ?_
        obtain ⟨⟨-, ha₇, -⟩, hgb⟩ := h₇
        have ha₅₇ := Advances.passage.trans hm₆.advances ha₇
        have ha₄₇ := Advances.passage.trans hm₅.advances ha₅₇
        refine Ends.value (.cons (fun t ht => ?_) ⟨hgb.statements, fun n hn => ?_⟩)
        · obtain rfl : c.2 = t := Option.some.inj (hct.symm.trans ht)
          rw [show (s₇.env sigs visible).types = s₇.types from rfl,
            (ha₄₇.prefixes hset₄).isConstant_eq (hc.type_lt ht)]
          exact hconst
        · simp only [Stmt.nodes, List.mem_append] at hn
          obtain (((hn | hn) | hn) | hn) | hn := hn
          · exact hgc.advances ha₄₇ hset₄ hs₃.flat hc n hn
          · exact hgs.advances ha₄₇ hset₄ hs₃.flat hstart n hn
          · exact hgf.advances ha₅₇ hset₅ hs₅.flat hfin n hn
          · cases step' with
            | none => cases hn
            | some e =>
              obtain ⟨he, hge⟩ := hstep e rfl
              exact hge.advances ha₇ hset₆ hs₆.flat he n hn
          · exact hgb.nodes n hn
      split
      next e =>
        have hpe := (hpstep e rfl).extends ha₅.types
        refine ((ends_assigned hf hs₅ (hk.extends ha₅.types) hpe).both
          (guarded_assigned hf hs₅ hset₅ (hk.extends ha₅.types) hpe)).seq fun e' s₆ h₆ => ?_
        obtain ⟨⟨hs₆, hm₆, he', -⟩, hge, -⟩ := h₆
        refine rest s₆ hs₆ hm₆ (some e') fun x hx => ?_
        obtain rfl : e' = x := Option.some.inj hx
        exact ⟨he', hge⟩
      next => exact rest s₅ hs₅ (Moves.passage.refl s₅) none (by simp)
    next => exact Ends.refused_seq
  | .loop l test body, s, hs, hset, hk, ⟨hpt, hpb⟩ => by
    unfold stmt
    have rest (s₁ : CheckState) (hs₁ : s₁.Sound lengths) (hm₁ : Moves s s₁) (test' : Option Condition)
        (htest : ∀ c, test' = some c → c.value.Typed (s₁.env sigs visible) ∧
          c.value.Guarded (s₁.env sigs visible)) :
        Ends (do
          let test ← pure test'
          let body ← stmts sigs constantType returns body
          pure (Stmt.loop l test body)) s₁ fun t' s' =>
            Guarded (s'.env sigs visible) returns t'.within t'.nodes := by
      refine Ends.seq (Ends.value (Q := fun a s' => a = test' ∧ s' = s₁) ⟨rfl, rfl⟩) ?_
      rintro test' s₁ ⟨rfl, rfl⟩
      have hset₁ := hset.grows hm₁.toGrows
      have hpb := hpb.extends hm₁.types
      refine ((ends_stmts hf body _ hs₁ (hk.extends hm₁.types) hpb).both
        (guarded_stmts hf body _ hs₁ hset₁ (hk.extends hm₁.types) hpb)).seq fun body' s₂ h₂ => ?_
      obtain ⟨⟨-, ha₂, -⟩, hgb⟩ := h₂
      refine Ends.value (.cons trivial ⟨hgb.statements, fun n hn => ?_⟩)
      obtain hn | hn := List.mem_append.1 hn
      · cases test' with
        | none => cases hn
        | some c =>
          obtain ⟨hc, hgc⟩ := htest c rfl
          exact hgc.advances ha₂ hset₁ hs₁.flat hc n hn
      · exact hgb.nodes n hn
    dsimp only
    split
    next c =>
      refine ((ends_condition hf hs hk (hpt c rfl)).both
        (guarded_condition hf hs hset hk (hpt c rfl))).seq fun e' s₁ h₁ => ?_
      obtain ⟨⟨hs₁, hm₁, he', -⟩, hg⟩ := h₁
      refine rest s₁ hs₁ hm₁ _ fun d hd => ?_
      obtain rfl := Option.some.inj hd
      exact ⟨he', hg⟩
    next => exact rest s hs (Moves.passage.refl s) none (by simp)

/-- **Checked statements respect CONST in what is known after the last one.** -/
theorem guarded_stmts (hf : Finds lengths constantType) : (l : List Stmt) → (s : CheckState) →
    s.Sound lengths → s.Settled → sigs.Known s.types → Stmt.PlainAll s.types visible l →
      Ends (stmts sigs constantType returns l) s fun l' s' =>
        Guarded (s'.env sigs visible) returns (Stmt.withinAll l') (Stmt.nodesAll l')
  | [], s, _, _, _, _ => Ends.value (.of_nodes fun _ hn => nomatch hn)
  | t :: rest, s, hs, hset, hk, ⟨hpt, hpr⟩ => by
    unfold stmts
    refine ((ends_stmt hf t s hs hk hpt).both (guarded_stmt hf t s hs hset hk hpt)).seq
      fun t' s₁ h₁ => ?_
    obtain ⟨⟨hs₁, ha₁, ht⟩, hg⟩ := h₁
    have hset₁ := hset.grows ha₁.toGrows
    have hpr := hpr.extends ha₁.types
    refine ((ends_stmts hf rest s₁ hs₁ (hk.extends ha₁.types) hpr).both
      (guarded_stmts hf rest s₁ hs₁ hset₁ (hk.extends ha₁.types) hpr)).seq fun rest' s₂ h₂ => ?_
    obtain ⟨⟨-, ha₂, -⟩, hgr⟩ := h₂
    have hg₂ := hg.advances ha₂ hset₁ hs₁.flat (fun x hx => ht.within t' hx) fun n hn => ht.node t' hn
    exact Ends.value (hg₂.append hgr)

/-- Checked branches respect CONST. -/
theorem guarded_choices (hf : Finds lengths constantType) : (b : Branches) → (s : CheckState) →
    s.Sound lengths → s.Settled → sigs.Known s.types → b.Plain s.types visible →
      Ends (choices sigs constantType returns b) s fun b' s' =>
        Guarded (s'.env sigs visible) returns b'.within b'.nodes
  | .done, s, _, _, _, _ => Ends.value (.of_nodes fun _ hn => nomatch hn)
  | .otherwise body, s, hs, hset, hk, hp => by
    unfold choices
    exact (guarded_stmts hf body s hs hset hk hp).seq fun body' s₁ h₁ => Ends.value h₁
  | .branch test body rest, s, hs, hset, hk, ⟨hpt, hpb, hpr⟩ => by
    unfold choices
    refine ((ends_condition hf hs hk hpt).both (guarded_condition hf hs hset hk hpt)).seq
      fun test' s₁ h₁ => ?_
    obtain ⟨⟨hs₁, hm₁, ht, -⟩, hgt⟩ := h₁
    have hset₁ := hset.grows hm₁.toGrows
    have hpb := hpb.extends hm₁.types
    refine ((ends_stmts hf body s₁ hs₁ (hk.extends hm₁.types) hpb).both
      (guarded_stmts hf body s₁ hs₁ hset₁ (hk.extends hm₁.types) hpb)).seq fun body' s₂ h₂ => ?_
    obtain ⟨⟨hs₂, ha₂, hb⟩, hgb⟩ := h₂
    have ha : Advances s s₂ := Advances.passage.trans hm₁.advances ha₂
    have hset₂ := hset.grows ha.toGrows
    have hpr := hpr.extends ha.types
    refine ((ends_choices hf rest s₂ hs₂ (hk.extends ha.types) hpr).both
      (guarded_choices hf rest s₂ hs₂ hset₂ (hk.extends ha.types) hpr)).seq fun rest' s₃ h₃ => ?_
    obtain ⟨⟨-, ha₃, -⟩, hgr⟩ := h₃
    have hgt' := hgt.advances (Advances.passage.trans ha₂ ha₃) hset₁ hs₁.flat ht
    have hgb' := hgb.advances ha₃ hset₂ hs₂.flat (fun x hx => hb.within body' hx)
      fun n hn => hb.node body' hn
    exact Ends.value ((Guarded.of_nodes hgt').append hgb' |>.append hgr)

end

end Checking

end ChannelBasic
