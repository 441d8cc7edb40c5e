import ChannelBasic.Proofs.Typing.Calculators
import ChannelBasic.Proofs.Typing.Recursion

/-!
# Proofs/Typing/Orderly — what is calculated has come to rest

While the definitions of a program are evaluated, what is evaluated depends on nothing that is open:
the state is **orderly**.  So wherever a value is asked for, it can be calculated, and checking with
a calculator that knows only such values does the same.
-/

namespace ChannelBasic

open Relation

/-! ## What is known while definitions are evaluated -/

/-- A constant is evaluated. -/
def CheckState.Evaluated (s : CheckState) (k : Nat) : Prop :=
  ∃ c, s.constants[k]? = some c ∧ c.folded.isSome = true

/-- All that is open depends on a definition. -/
structure CheckState.Awaits (p : Program) (s : CheckState) (d : Definition) : Prop where
  constants : ∀ k ∈ s.openConstants, TransGen p.Depends (.constant k) d
  lengths : ∀ n ∈ s.openLengths, TransGen p.Depends (.length n) d

/-- What is evaluated is what the definitions of the program come to, and the rest is as it is
written; `bound` more constants can be opened. -/
structure CheckState.Orderly (p : Program) (bound : Nat) (s : CheckState) : Prop where
  count : s.constants.size = p.constants.size
  waiting : ∀ (k : Nat) (c : Constant), s.constants[k]? = some c → c.folded = none →
    p.constants[k]? = some c
  settles : ∀ (k : Nat) (c : Constant), s.constants[k]? = some c → c.folded.isSome = true →
    c.value.Settles s.constants
  values : ∀ (k : Nat) (c : Constant), s.constants[k]? = some c → c.folded.isSome = true →
    c.value.fold s.types s.constantValue = c.folded
  grounded : ∀ (k : Nat) (c : Constant), s.constants[k]? = some c → c.folded.isSome = true →
    p.Grounded (.constant k)
  size : p.types.entries.size ≤ s.types.entries.size
  /-- A type is the one that is written, but for a length that has been evaluated. -/
  entries : ∀ id < p.types.entries.size, s.types.get id = p.types.get id ∨
    ∃ n c, p.types.get id = .pending n ∧ s.types.get id = .string c ∧ p.Grounded (.length n)
  distinct : s.openConstants.Nodup
  within : ∀ k ∈ s.openConstants, k < p.constants.size
  room : p.constants.size < bound + s.openConstants.length

/-- A refusal for recursion blames a definition that depends on itself. -/
def Program.Blames (p : Program) (d : Diagnostic) : Prop :=
  d.rule = .recursiveDefinition → ∃ x, TransGen p.Depends x x ∧ p.recursion? x = some d

/-- A calculator that knows what can be calculated, and may do anything else otherwise. -/
def Program.Faithful (p : Program) (calculate : Calculator) : Prop :=
  ∀ e s, p.Calculable s.constants e → (calculate e).run s = (Checking.fold e).run s

variable {p : Program} {bound : Nat} {s s' : CheckState} {d : Definition}

theorem CheckState.Evaluated.grows {k : Nat} (hk : s.Evaluated k) (h : Grows s s') :
    s'.Evaluated k := by
  obtain ⟨c, hc, hf⟩ := hk
  exact ⟨c, h.folded k c hc hf, hf⟩

theorem CheckState.Awaits.grows (hd : s.Awaits p d) (h : Grows s s') : s'.Awaits p d :=
  ⟨by rw [h.openConstants]; exact hd.constants, by rw [h.openLengths]; exact hd.lengths⟩

theorem CheckState.Awaits.tail {d' : Definition} (hd : s.Awaits p d) (h : p.Depends d d') :
    s.Awaits p d' :=
  ⟨fun k hk => (hd.constants k hk).tail h, fun n hn => (hd.lengths n hn).tail h⟩

theorem Expr.Settles.grows {e : Expr} (he : e.Settles s.constants) (h : Grows s s') :
    e.Settles s'.constants :=
  he.mono h.folded

namespace CheckState.Orderly

/-- The constant that an index means is grounded if it is evaluated, and also if there is none. -/
theorem grounded_of_folded (hs : s.Orderly p bound) {k : Nat}
    (h : ∀ c, s.constants[k]? = some c → c.folded.isSome = true) : p.Grounded (.constant k) := by
  cases hk : s.constants[k]? with
  | some c => exact hs.grounded k c hk (h c hk)
  | none =>
    have hnone : p.constants[k]? = none := by
      rw [Array.getElem?_eq_none_iff, ← hs.count]
      exact Array.getElem?_eq_none_iff.1 hk
    exact Program.grounded_constant (by simp [hnone]) (by simp [hnone])

/-- **What settles can be calculated.** -/
theorem calculable (hs : s.Orderly p bound) {e : Expr} (he : e.Settles s.constants) :
    p.Calculable s.constants e :=
  ⟨he.ends, fun _ _ _ hk => hs.grounded_of_folded fun _ hc => (he.reached hk).folded hc⟩

/-- What has an effect on types only, by entering some, leaves the rest in order. -/
theorem enters (hs : s.Orderly p bound) (h : Enters s s') : s'.Orderly p bound := by
  have hE := h.extends
  obtain ⟨t, rfl, hsize, happends, -⟩ := h
  exact {
    count := hs.count
    waiting := hs.waiting
    settles := hs.settles
    values := fun k c hc hf => by
      obtain ⟨v, hv⟩ := Option.isSome_iff_exists.1 hf
      rw [hv, ← Expr.fold_mono hE happends.structSizes (fun _ _ h => h)
        ((hs.values k c hc hf).trans hv)]
      rfl
    grounded := hs.grounded
    size := hs.size.trans hsize
    entries := fun id hid => by
      rw [happends.get id (hid.trans_le hs.size)]
      exact hs.entries id hid
    distinct := hs.distinct
    within := hs.within
    room := hs.room }

/-- Variables do not matter. -/
theorem relocate (hs : s.Orderly p bound) (locals : Array Local) :
    ({ s with locals } : CheckState).Orderly p bound :=
  ⟨hs.count, hs.waiting, hs.settles, hs.values, hs.grounded, hs.size, hs.entries, hs.distinct,
    hs.within, hs.room⟩

/-- With every constant open, no other constant can be. -/
theorem bound_pos (hs : s.Orderly p bound) : 0 < bound := by
  have hle := length_le_of_nodup hs.distinct hs.within
  have hroom := hs.room
  omega

end CheckState.Orderly

namespace Checking

variable {calculate : Calculator} {e left right : Expr} {place : Location}

/-! ## Operands -/

section Operands

theorem comes_valueType (e : Expr) :
    Comes (valueType e) s (fun _ s' => s' = s) p.Blames := by
  unfold valueType
  cases e.type? with
  | some t => exact .value rfl
  | none => exact .refused nofun

theorem comes_addType {add : TypeTable → TypeId × TypeTable}
    (h : Keeps Enters (addType add)) :
    Comes (addType add) s (fun _ s' => Enters s s') p.Blames :=
  (Mimics.changes (Q := fun _ _ => True) trivial).ending (h s)

theorem comes_member (sigs : Signatures) (field : String) :
    Comes (member sigs place e field) s (fun _ s' => Enters s s') p.Blames := by
  refine Mimics.ending (P := fun _ _ => True) ?_ (keeps_member s)
  unfold member
  refine (comes_valueType e).seq fun type s₁ _ => .reads ?_
  dsimp only
  cases s₁.types.struct? type with
  | none => exact .refused nofun
  | some number =>
    refine .ite (fun _ => ?_) fun _ => .refused_seq nofun
    split
    · exact .refused nofun
    · refine .ite (fun _ => ?_) fun _ => .value trivial
      exact (comes_addType (keeps_constant _)).seq fun _ _ _ => .value trivial

theorem comes_unary (op : UnaryOp) :
    Comes (unary place op e) s (fun _ s' => s' = s) p.Blames := by
  unfold unary
  refine (comes_valueType e).seq fun type s₁ h₁ => .reads ?_
  dsimp only
  exact .ite (fun _ => .value h₁) fun _ => .refused_seq nofun

variable (hcalc : p.Faithful calculate) (hs : s.Orderly p bound) (he : e.Settles s.constants)
include hcalc hs he

theorem mimics_calculate : Mimics (calculate e) (fold e) s
    (fun v s' => s' = s ∧ v = e.fold s.types s.constantValue) p.Blames where
  run := hcalc e s (hs.calculable he)
  ends := Ends.reads (Ends.value ⟨rfl, rfl⟩)
  refuses := by rintro d ⟨⟩

theorem mimics_coerce (expected : TypeId) (rule : Rule) (hr : rule ≠ .recursiveDefinition) :
    Mimics (coerceBy calculate e expected rule) (coerce e expected rule) s
      (fun e' s' => s' = s ∧ e'.Settles s.constants) p.Blames := by
  unfold coerceBy coerce
  cases e.type? with
  | none => exact .refused nofun
  | some actual =>
    refine .reads ?_
    dsimp only
    refine .ite (fun _ => .value ⟨rfl, he⟩) fun _ => ?_
    refine (mimics_calculate hcalc hs he).seq fun v s₁ h₁ => ?_
    obtain ⟨rfl, -⟩ := h₁
    cases s₁.types.pointee? expected with
    | some pointee =>
      refine .ite (fun _ => .refused_seq fun h => absurd h hr) fun _ => ?_
      exact .ite (fun _ => .value ⟨rfl, he⟩) fun _ => .value ⟨rfl, .pointer⟩
    | none =>
      dsimp only
      cases v.bind fun v => s₁.types.castLiteral v actual (s₁.types.base expected) with
      | some folded => exact .value ⟨rfl, .literal⟩
      | none =>
        exact .ite (fun _ => .value ⟨rfl, .cast he⟩) fun _ => .refused fun h => absurd h hr

theorem run_simplifiedBy :
    (simplifiedBy calculate e).run s = .ok (e.simplified s.types s.constantValue, s) := by
  have hrun : (calculate e).run s = .ok (e.fold s.types s.constantValue, s) :=
    hcalc e s (hs.calculable he)
  unfold simplifiedBy Expr.simplified
  by_cases hl : e.isLiteral = true
  · rw [if_pos hl, if_pos hl]
    rfl
  · rw [if_neg hl, if_neg hl]
    dsimp only
    rw [StateT.run_bind, hrun]
    cases e.fold s.types s.constantValue <;> rfl

end Operands

theorem settles_simplified (he : e.Settles s.constants) :
    (e.simplified s.types s.constantValue).Settles s.constants := by
  obtain ⟨h, -⟩ | ⟨v, -, h⟩ := Expr.simplified_cases s.types s.constantValue e <;> rw [h]
  · exact he
  · exact .literal

/-- Members of a list that are found without a change of state are found together. -/
theorem run_mapM_of_run {α β : Type} {f : α → Checking β} {g : α → β} {as : List α}
    (h : ∀ a ∈ as, (f a).run s = .ok (g a, s)) : (as.mapM f).run s = .ok (as.map g, s) := by
  induction as with
  | nil => rfl
  | cons a as ih =>
    rw [List.mapM_cons, StateT.run_bind, h a List.mem_cons_self]
    change ((as.mapM f >>= fun bs => pure (g a :: bs) : Checking (List β))).run s = _
    rw [StateT.run_bind, ih fun b hb => h b (List.mem_cons_of_mem _ hb)]
    rfl

/-- Operands that can be calculated are simplified the same way. -/
theorem mimics_simplify (hcalc : p.Faithful calculate) (hs : s.Orderly p bound)
    (he : e.Settles s.constants) (ho : ∀ f ∈ e.operands, f.Settles s.constants) :
    Mimics (simplifyBy calculate e) (simplify e) s
      (fun e' s' => s' = s ∧ e'.Settles s.constants) p.Blames where
  run := by
    have found {f : Expr} (hf : f ∈ e.operands) := run_simplifiedBy hcalc hs (ho f hf)
    change _ = Except.ok (e.simplify s.types s.constantValue, s)
    cases e with
    | literal | name => rfl
    | call i f arguments callee =>
      have hall : (arguments.mapM (simplifiedBy calculate)).run s = _ :=
        run_mapM_of_run fun a ha => found ha
      rw [simplifyBy, StateT.run_bind, hall]
      rfl
    | binary i op left right =>
      rw [simplifyBy, StateT.run_bind, found (.head _)]
      change (simplifiedBy calculate right >>= fun r => pure _ : Checking Expr).run s = _
      rw [StateT.run_bind, found (.tail _ (.head _))]
      rfl
    | member | unary | cast | pointer =>
      rw [simplifyBy, StateT.run_bind, found (.head _)]
      rfl
  ends := by
    refine Ends.reads (Ends.value ⟨rfl, ?_⟩)
    cases he with
    | unary h => exact .unary (settles_simplified h)
    | binary hl hr => exact .binary (settles_simplified hl) (settles_simplified hr)
    | cast h => exact .cast (settles_simplified h)
    | literal => exact .literal
    | constant hc hf hv => exact .constant hc hf hv
    | name hd => exact .name hd
    | member => exact .member
    | call => exact .call
    | pointer => exact .pointer
  refuses := by rintro d ⟨⟩

/-! ## Operators -/

theorem mimics_stringify (hcalc : p.Faithful calculate) (hs : s.Orderly p bound)
    (he : e.Settles s.constants) (type : TypeId) :
    Mimics (stringifyBy calculate place e type) (stringify place e type) s
      (fun r s' => Enters s s' ∧ r.1.Settles s'.constants) p.Blames := by
  unfold stringifyBy stringify
  refine .reads ?_
  dsimp only
  refine .ite (fun _ => .value ⟨Enters.passage.refl s, he⟩) fun _ => ?_
  cases s.types.textCapacity? type with
  | none => exact .refused nofun
  | some capacity =>
    refine (comes_addType (keeps_stringOf _)).seq fun target s₁ h₁ => ?_
    have he₁ := he.grows h₁.moves.toGrows
    refine (mimics_coerce hcalc (hs.enters h₁) he₁ target .incompatibleTypes nofun).seq
      fun e' s₂ h₂ => ?_
    obtain ⟨rfl, he'⟩ := h₂
    exact .value ⟨h₁, he'⟩

section Operators

variable (hcalc : p.Faithful calculate) (hs : s.Orderly p bound) (hl : left.Settles s.constants)
  (hr : right.Settles s.constants)
include hcalc hs hl hr

theorem mimics_promote (common : TypeId) :
    Mimics (promoteBy calculate left right common) (promote left right common) s
      (fun r s' => s' = s ∧ r.1.Settles s.constants ∧ r.2.Settles s.constants) p.Blames := by
  refine (mimics_coerce hcalc hs hl common .incompatibleTypes nofun).seq fun l s₁ h₁ => ?_
  obtain ⟨rfl, hl'⟩ := h₁
  refine (mimics_coerce hcalc hs hr common .incompatibleTypes nofun).seq fun r s₂ h₂ => ?_
  obtain ⟨rfl, hr'⟩ := h₂
  exact .value ⟨rfl, hl', hr'⟩

theorem mimics_stringSum (lt rt : TypeId) :
    Mimics (stringSumBy calculate place left right lt rt) (stringSum place left right lt rt) s
      (fun r s' => Enters s s' ∧ r.1.Settles s'.constants ∧ r.2.1.Settles s'.constants)
      p.Blames := by
  unfold stringSumBy stringSum
  refine (mimics_stringify hcalc hs hl lt).seq fun l s₁ h₁ => ?_
  refine (mimics_stringify hcalc (hs.enters h₁.1) (hr.grows h₁.1.moves.toGrows) rt).seq
    fun r s₂ h₂ => .reads ?_
  have hl' := h₁.2.grows h₂.1.moves.toGrows
  have h := Enters.passage.trans h₁.1 h₂.1
  dsimp only
  cases s₂.types.capacity? l.2 with
  | none => exact .refused nofun
  | some n =>
    cases s₂.types.capacity? r.2 with
    | none => exact .refused nofun
    | some m =>
      refine (comes_addType (keeps_stringOf _)).seq fun t s₃ h₃ => .value ?_
      exact ⟨Enters.passage.trans h h₃, hl'.grows h₃.moves.toGrows, h₂.2.grows h₃.moves.toGrows⟩

theorem mimics_arithmetic (op : BinaryOp) (lt rt : TypeId) :
    Mimics (arithmeticBy calculate place op left right lt rt) (arithmetic place op left right lt rt)
      s (fun r s' => s' = s ∧ r.1.Settles s.constants ∧ r.2.1.Settles s.constants) p.Blames := by
  unfold arithmeticBy arithmetic
  refine .reads ?_
  dsimp only
  cases commonType? s.types lt rt with
  | none => exact .refused nofun
  | some common =>
    refine .ite (fun _ => .refused_seq nofun) fun _ => ?_
    exact (mimics_promote hcalc hs hl hr common).seq fun r s₁ h₁ => .value h₁

theorem mimics_logic (op : BinaryOp) (lt rt : TypeId) :
    Mimics (logicBy calculate place op left right lt rt) (logic place op left right lt rt)
      s (fun r s' => s' = s ∧ r.1.Settles s.constants ∧ r.2.1.Settles s.constants) p.Blames := by
  unfold logicBy logic
  refine .reads ?_
  dsimp only
  refine .ite (fun _ => .value ⟨rfl, hl, hr⟩) fun _ => ?_
  refine .ite (fun _ => ?_) fun _ => .refused nofun
  exact (mimics_promote hcalc hs hl hr _).seq fun r s₁ h₁ => .value h₁

theorem mimics_comparison (op : BinaryOp) (lt rt : TypeId) :
    Mimics (comparisonBy calculate place op left right lt rt) (comparison place op left right lt rt)
      s (fun r s' => s' = s ∧ r.1.Settles s.constants ∧ r.2.1.Settles s.constants) p.Blames := by
  unfold comparisonBy comparison
  refine .reads ?_
  dsimp only
  refine .ite (fun _ => ?_) fun _ => ?_
  · exact (mimics_promote hcalc hs hl hr _).seq fun r s₁ h₁ => .value h₁
  · exact .ite (fun _ => .value ⟨rfl, hl, hr⟩) fun _ => .refused_seq nofun

theorem mimics_binary (op : BinaryOp) :
    Mimics (binaryBy calculate place op left right) (binary place op left right) s
      (fun r s' => Enters s s' ∧ r.1.Settles s'.constants ∧ r.2.1.Settles s'.constants)
      p.Blames := by
  have stays {x y : Checking (Expr × Expr × TypeId)} (h : Mimics y x s
      (fun r s' => s' = s ∧ r.1.Settles s.constants ∧ r.2.1.Settles s.constants) p.Blames) :
      Mimics y x s (fun r s' => Enters s s' ∧ r.1.Settles s'.constants ∧
        r.2.1.Settles s'.constants) p.Blames :=
    h.mono fun _ _ hr => by rw [hr.1]; exact ⟨Enters.passage.refl s, hr.2⟩
  unfold binaryBy binary
  refine (comes_valueType left).seq fun lt s₁ h₁ => ?_
  subst h₁
  refine (comes_valueType right).seq fun rt s₂ h₂ => .reads ?_
  subst h₂
  cases op with
  | add =>
    exact .ite (fun _ => mimics_stringSum hcalc hs hl hr lt rt) fun _ =>
      stays (mimics_arithmetic hcalc hs hl hr _ lt rt)
  | subtract | multiply | divide | mod => exact stays (mimics_arithmetic hcalc hs hl hr _ lt rt)
  | shl | shr =>
    exact .ite (fun _ => .value ⟨Enters.passage.refl _, hl, hr⟩) fun _ => .refused nofun
  | and | or | xor => exact stays (mimics_logic hcalc hs hl hr _ lt rt)
  | less | lessEqual | greater | greaterEqual | equal | notEqual =>
    exact stays (mimics_comparison hcalc hs hl hr _ lt rt)

end Operators

/-! ## Expressions -/

/-- Asking for the type of a constant that all that is open depends on evaluates the constant. -/
def Answers (p : Program) (bound : Nat) (g f : ConstantType) : Prop :=
  ∀ k s, s.Orderly p bound → s.Awaits p (.constant k) →
    Mimics (g k) (f k) s (fun _ s' => s'.Orderly p bound ∧ Moves s s' ∧ s'.Evaluated k) p.Blames

/-- What checking an expression comes to: the constants it names are evaluated, and what has become
of it can be calculated. -/
structure Evaluates (p : Program) (bound : Nat) (s : CheckState) (e e' : Expr) (s' : CheckState) :
    Prop where
  orderly : s'.Orderly p bound
  moves : Moves s s'
  settles : e'.Settles s'.constants
  named : ∀ k, e.Names k → s'.Evaluated k

/-- What checking some expressions comes to. -/
structure EvaluatesAll (p : Program) (bound : Nat) (s : CheckState) (es es' : List Expr)
    (s' : CheckState) : Prop where
  orderly : s'.Orderly p bound
  moves : Moves s s'
  settles : ∀ e' ∈ es', e'.Settles s'.constants
  named : ∀ e ∈ es, ∀ k, e.Names k → s'.Evaluated k

variable {sigs : Signatures} {visible : Nat → Bool} {g f : ConstantType}

/-- A name is checked by checking the constant that it means, if it means one. -/
theorem mimics_declaredType (hc : Answers p bound g f) (hs : s.Orderly p bound) {i : Info}
    {name : String} {d : Declaration}
    (ha : ∀ k, (Expr.name i name (some d)).Names k → s.Awaits p (.constant k)) :
    Mimics (declaredType sigs g d) (declaredType sigs f d) s (fun _ s' => s'.Orderly p bound ∧
      Moves s s' ∧ ∀ k, (Expr.name i name (some d)).Names k → s'.Evaluated k) p.Blames := by
  cases d with
  | constant k =>
    refine (hc k s hs (ha k (by simp))).seq fun t s₁ h₁ => ?_
    obtain ⟨hs₁, hm, hk⟩ := h₁
    refine (comes_addType (keeps_constant t)).seq fun u s₂ h₂ => .value ?_
    refine ⟨hs₁.enters h₂, Moves.passage.trans hm h₂.moves, fun m hmk => ?_⟩
    obtain rfl : k = m := by simpa using hmk
    exact hk.grows h₂.moves.toGrows
  | localVar j => exact .reads (.value ⟨hs, Moves.passage.refl s, by simp⟩)
  | argument j => exact .value ⟨hs, Moves.passage.refl s, by simp⟩
  | dataField j => exact .value ⟨hs, Moves.passage.refl s, by simp⟩

/-- A name settles once the constants that it means have been evaluated. -/
theorem settles_name (hs : s.Orderly p bound) {i : Info} {name : String}
    {d : Option Declaration} (h : ∀ k, (Expr.name i name d).Names k → s.Evaluated k) :
    (Expr.name i name d).Settles s.constants := by
  by_cases hd : ∃ k, d = some (.constant k)
  · obtain ⟨k, rfl⟩ := hd
    obtain ⟨c, hc, hf⟩ := h k (by simp)
    exact .constant hc hf (hs.settles k c hc hf)
  · exact .name fun k hk => hd ⟨k, hk⟩

mutual

/-- **Checking an expression evaluates the constants that it names**, and calculates only what has
come to rest. -/
theorem mimics_expr (hcalc : p.Faithful calculate) (hc : Answers p bound g f) :
    (e : Expr) → (s : CheckState) → s.Orderly p bound → e.Plain p.types visible →
      (∀ k, e.Names k → s.Awaits p (.constant k)) →
        Mimics (exprBy calculate sigs g e) (expr sigs f e) s (Evaluates p bound s e) p.Blames
  | .literal i v, s, hs, _, _ => .value ⟨hs, Moves.passage.refl s, .literal, by simp⟩
  | .name i name none, s, hs, _, _ => by
    unfold exprBy expr
    exact (Mimics.value (Q := fun t _ => t = none) rfl).seq fun t s₁ h => by
      subst h
      exact .refused nofun
  | .name i name (some d), s, hs, _, ha => by
    unfold exprBy expr
    refine (mimics_declaredType hc hs ha).seq fun t s₁ h₁ => ?_
    obtain ⟨hs₁, hm, hk⟩ := h₁
    cases t with
    | none => exact .refused nofun
    | some t =>
      have hk' : ∀ k, (Expr.name { i with type := some t } name (some d)).Names k →
          s₁.Evaluated k := fun k h => hk k (by simpa using h)
      exact .value ⟨hs₁, hm, settles_name hs₁ hk', hk⟩
  | .member i target field r, s, hs, hp, ha => by
    unfold exprBy expr
    refine (mimics_expr hcalc hc target s hs hp fun k hk => ha k (by simpa using hk)).seq
      fun target' s₁ h₁ => ?_
    refine (comes_member sigs field).seq fun m s₂ h₂ => ?_
    have ht := h₁.settles.grows h₂.moves.toGrows
    refine (mimics_simplify hcalc (h₁.orderly.enters h₂) .member (by simpa [Expr.operands])).mono
      fun e' s₃ h₃ => ?_
    obtain ⟨rfl, he'⟩ := h₃
    exact ⟨h₁.orderly.enters h₂, Moves.passage.trans h₁.moves h₂.moves, he', fun k hk =>
      (h₁.named k (by simpa using hk)).grows h₂.moves.toGrows⟩
  | .call i function arguments callee, s, hs, ⟨_, hargs⟩, ha => by
    unfold exprBy expr
    cases callee.bind fun index => sigs.functions[index]? with
    | none => exact .refused nofun
    | some fn =>
      refine .ite (fun _ => .refused_seq nofun) fun hlen => ?_
      have hlen : fn.parameters.length = arguments.length := by simpa using hlen
      refine (mimics_exprs hcalc hc fn.parameters arguments s hs hargs hlen fun a h k hk =>
        ha k (by simpa using ⟨a, h, hk⟩)).seq fun es s₁ h₁ => ?_
      refine (mimics_simplify hcalc h₁.orderly .call h₁.settles).mono fun e' s₂ h₂ => ?_
      obtain ⟨rfl, he'⟩ := h₂
      refine ⟨h₁.orderly, h₁.moves, he', fun k hk => ?_⟩
      obtain ⟨a, h, hk⟩ := Expr.names_call.1 hk
      exact h₁.named a h k hk
  | .unary i op operand, s, hs, hp, ha => by
    unfold exprBy expr
    refine (mimics_expr hcalc hc operand s hs hp fun k hk => ha k (by simpa using hk)).seq
      fun operand' s₁ h₁ => ?_
    refine (comes_unary op).seq fun t s₂ h₂ => ?_
    subst h₂
    have ho := h₁.settles
    refine (mimics_simplify hcalc h₁.orderly (.unary ho) (by simpa [Expr.operands])).mono
      fun e' s₃ h₃ => ?_
    obtain ⟨rfl, he'⟩ := h₃
    exact ⟨h₁.orderly, h₁.moves, he', fun k hk => h₁.named k (by simpa using hk)⟩
  | .binary i op left right, s, hs, ⟨hpl, hpr⟩, ha => by
    unfold exprBy expr
    refine (mimics_expr hcalc hc left s hs hpl fun k hk => ha k (by simp [hk])).seq
      fun left' s₁ h₁ => ?_
    refine (comes_valueType left').seq fun _ s₁' h => ?_
    subst h
    refine (mimics_expr hcalc hc right s₁' h₁.orderly hpr fun k hk =>
      (ha k (by simp [hk])).grows h₁.moves.toGrows).seq fun right' s₂ h₂ => ?_
    refine (mimics_binary hcalc h₂.orderly (h₁.settles.grows h₂.moves.toGrows) h₂.settles op).seq
      fun r s₃ h₃ => ?_
    obtain ⟨hen, hl, hr⟩ := h₃
    refine (mimics_simplify hcalc (h₂.orderly.enters hen) (.binary hl hr)
      (by simpa [Expr.operands] using ⟨hl, hr⟩)).mono fun e' s₄ h₄ => ?_
    obtain ⟨rfl, he'⟩ := h₄
    have hm := Moves.passage.trans h₂.moves hen.moves
    refine ⟨h₂.orderly.enters hen, Moves.passage.trans h₁.moves hm, he', fun k hk => ?_⟩
    obtain hk | hk := Expr.names_binary.1 hk
    · exact (h₁.named k hk).grows hm.toGrows
    · exact (h₂.named k hk).grows hen.moves.toGrows

theorem mimics_exprs (hcalc : p.Faithful calculate) (hc : Answers p bound g f) :
    (ps : List TypeId) → (es : List Expr) → (s : CheckState) → s.Orderly p bound →
      Expr.PlainAll p.types visible es → ps.length = es.length →
      (∀ e ∈ es, ∀ k, e.Names k → s.Awaits p (.constant k)) →
        Mimics (exprsBy calculate sigs g ps es) (exprs sigs f ps es) s (EvaluatesAll p bound s es)
          p.Blames
  | [], [], s, hs, _, _, _ => by
    unfold exprsBy exprs
    exact .value ⟨hs, Moves.passage.refl s, by simp, by simp⟩
  | t :: ps, e :: es, s, hs, ⟨hp, hrest⟩, hlen, ha => by
    unfold exprsBy exprs
    refine (mimics_expr hcalc hc e s hs hp (ha e List.mem_cons_self)).seq fun e₁ s₁ h₁ => ?_
    refine (comes_valueType e₁).seq fun _ s₁' h => ?_
    subst h
    refine (mimics_coerce hcalc h₁.orderly h₁.settles t .incompatibleArgumentType nofun).seq
      fun e₂ s₂ h₂ => ?_
    obtain ⟨rfl, he₂⟩ := h₂
    refine (mimics_exprs hcalc hc ps es s₂ h₁.orderly hrest (by simpa using hlen)
      fun a h k hk => (ha a (List.mem_cons_of_mem _ h) k hk).grows h₁.moves.toGrows).seq
        fun es' s₃ h₃ => .value ?_
    refine ⟨h₃.orderly, Moves.passage.trans h₁.moves h₃.moves, fun a h => ?_, fun a h k hk => ?_⟩
    · obtain rfl | h := List.mem_cons.1 h
      · exact he₂.grows h₃.moves.toGrows
      · exact h₃.settles a h
    · obtain rfl | h := List.mem_cons.1 h
      · exact (h₁.named k hk).grows h₃.moves.toGrows
      · exact h₃.named a h k hk

end

theorem mimics_value (hcalc : p.Faithful calculate) (hc : Answers p bound g f)
    (hs : s.Orderly p bound) (hp : e.Plain p.types visible)
    (ha : ∀ k, e.Names k → s.Awaits p (.constant k)) :
    Mimics (valueBy calculate sigs g e) (value sigs f e) s
      (fun r s' => Evaluates p bound s e r.1 s') p.Blames := by
  refine (mimics_expr hcalc hc e s hs hp ha).seq fun e' s₁ h₁ => ?_
  refine (comes_valueType e').seq fun t s₂ h₂ => .value ?_
  rw [h₂]
  exact h₁

end Checking

end ChannelBasic
