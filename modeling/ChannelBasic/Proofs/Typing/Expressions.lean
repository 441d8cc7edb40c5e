import ChannelBasic.Proofs.Typing.Coercion

/-!
# Proofs/Typing/Expressions — a checked expression has the right types

**Checking an expression as it is written gives one whose types are right** (`ends_expr`), by one
lemma for each operator and one case for each kind of expression.
-/

namespace ChannelBasic

open Code

/-! ## Numeric types -/

/-- The wider of two numeric types is one of the two. -/
theorem Checking.shape?_of_commonType? {t : TypeTable} (hB : t.Builtin) {a b common : TypeId}
    (h : commonType? t a b = some common) : ∃ s s' u, t.shape? a = some (.scalar s) ∧
      t.shape? b = some (.scalar s') ∧ common = TypeTable.scalarId u ∧
      t.shape? common = some (.scalar u) ∧ s.isNumeric = true ∧ s'.isNumeric = true ∧
      u.isNumeric = true ∧ (u = s ∨ u = s') := by
  unfold commonType? at h
  split at h
  next r r' hr hr' =>
    obtain ⟨s, hs, hsr⟩ := TypeTable.rank?_eq_some hr
    obtain ⟨s', hs', hsr'⟩ := TypeTable.rank?_eq_some hr'
    have hn := Scalar.isNumeric_iff_rank?.2 ⟨r, hsr⟩
    have hn' := Scalar.isNumeric_iff_rank?.2 ⟨r', hsr'⟩
    obtain rfl : TypeTable.ofRank (max r r') = common := Option.some.inj h
    have hu : Scalar.ofRank (max r r') = s ∨ Scalar.ofRank (max r r') = s' := by
      obtain hle | hle := le_total r r'
      · rw [max_eq_right hle]
        exact .inr (Scalar.ofRank_eq_of_rank? hsr')
      · rw [max_eq_left hle]
        exact .inl (Scalar.ofRank_eq_of_rank? hsr)
    refine ⟨s, s', _, hs, hs', rfl, hB.shape? _, hn, hn', ?_, hu⟩
    obtain h | h := hu
    · rwa [h]
    · rwa [h]
  next => cases h

theorem Checking.resultType_scalarId (op : BinaryOp) (u : Scalar) :
    resultType op (TypeTable.scalarId u) =
      TypeTable.scalarId (if op = .multiply then u.widened else u) := by
  unfold resultType
  by_cases h : op = .multiply
  · cases u <;> simp [h, TypeTable.scalarId, Scalar.widened]
  · simp [h]

namespace Checking

variable {sigs : Signatures} {visible : Nat → Bool} {s : CheckState} {e left right : Expr}
  {lengths : Array Expr}

/-! ## Operators -/

/-- What an operator that was accepted has been given. -/
def Accepted (lengths : Array Expr) (sigs : Signatures) (visible : Nat → Bool) (s : CheckState)
    (op : BinaryOp) (r : Expr × Expr × TypeId) (s' : CheckState) : Prop :=
  s'.Sound lengths ∧ Enters s s' ∧ r.1.Typed (s'.env sigs visible) ∧ r.2.1.Typed (s'.env sigs visible) ∧
    ∃ a b c, (s'.env sigs visible).shape r.1.info = some a ∧
      (s'.env sigs visible).shape r.2.1.info = some b ∧ op.Takes a b c ∧
      s'.types.shape? r.2.2 = some c

theorem ends_stringOf (hs : s.Sound lengths) (c : Nat) :
    Ends (addType (·.stringOf c)) s fun t s' => s'.Sound lengths ∧ Enters s s' ∧
      s'.types.shape? t = some (.string c) := by
  have hflat : (s.types.stringOf c).2.Flat := hs.flat.add (by simp)
  refine ((keeps_stringOf c s).both (Ends.changes (Q := fun t s' => s'.types.Flat ∧
    s'.types.shape? t = some (.string c)) ⟨hflat, s.types.shape?_stringOf c⟩)).mono ?_
  rintro t s' ⟨he, hf, hσ⟩
  exact ⟨hs.enters he hf, he, hσ⟩

theorem ends_constant (hs : s.Sound lengths) {u : TypeId} {σ : Shape} (hu : s.types.shape? u = some σ) :
    Ends (addType (·.constant u)) s fun t s' => s'.Sound lengths ∧ Enters s s' ∧
      s'.types.shape? t = some σ := by
  have hflat : (s.types.constant u).2.Flat := by
    refine hs.flat.add fun b hb => ?_
    obtain rfl : u = b := by simpa using hb
    exact TypeTable.lt_size_of_shape? hu
  refine ((keeps_constant u s).both (Ends.changes (Q := fun t s' => s'.types.Flat ∧
    s'.types.shape? t = some σ) ⟨hflat, TypeTable.shape?_constant hu⟩)).mono ?_
  rintro t s' ⟨he, hf, hσ⟩
  exact ⟨hs.enters he hf, he, hσ⟩

theorem ends_unary (hs : s.Sound lengths) (he : e.Typed (s.env sigs visible)) {place : Location}
    {op : UnaryOp} : Ends (unary place op e) s fun t s' => s' = s ∧
      ∃ σ, (s.env sigs visible).shape e.info = some σ ∧ op.Takes σ ∧
        s.types.shape? t = some σ := by
  unfold unary
  refine (ends_valueType e s).seq fun type s₁ h₁ => ?_
  obtain ⟨rfl, htype⟩ := h₁
  obtain ⟨σ, hσ⟩ := he.exists_shape htype
  have heσ : (s₁.env sigs visible).shape e.info = some σ := Env.shape_eq_some.2 ⟨_, htype, hσ⟩
  have accepted (hop : op.Takes σ) : ∃ τ, (s₁.env sigs visible).shape e.info = some τ ∧
      op.Takes τ ∧ s₁.types.shape? (s₁.types.base type) = some τ :=
    ⟨σ, heσ, hop, TypeTable.shape?_base hσ⟩
  have number (h : s₁.types.isNumeric type = true) : σ.isNumeric = true := by
    obtain ⟨u, hu, hn⟩ := TypeTable.isNumeric_iff.1 h
    obtain rfl : Shape.scalar u = σ := Option.some.inj (hu.symm.trans hσ)
    exact hn
  refine Ends.reads ?_
  cases op with
  | plus =>
    dsimp only
    split
    next h => exact Ends.value ⟨rfl, accepted (number h)⟩
    next => exact Ends.refused_seq
  | minus =>
    dsimp only
    split
    next h => exact Ends.value ⟨rfl, accepted (number h)⟩
    next => exact Ends.refused_seq
  | not =>
    dsimp only
    split
    next h =>
      refine Ends.value ⟨rfl, accepted ?_⟩
      rw [Bool.or_eq_true] at h
      obtain h | h := h
      · obtain rfl : Shape.scalar .boolean = σ :=
          Option.some.inj ((hs.builtin.isBoolean h).symm.trans hσ)
        exact .inl rfl
      · obtain ⟨u, hu, hi⟩ := TypeTable.isIntegral_iff.1 h
        obtain rfl : Shape.scalar u = σ := Option.some.inj (hu.symm.trans hσ)
        exact .inr hi
    next => exact Ends.refused_seq

/-- An operand of a string sum has a shape, whatever was made of it. -/
theorem ends_stringify (hs : s.Sound lengths) (he : e.Typed (s.env sigs visible)) {place : Location}
    {type : TypeId} (ht : e.type? = some type) :
    Ends (stringify place e type) s fun r s' => s'.Sound lengths ∧ Enters s s' ∧
      r.1.Typed (s'.env sigs visible) ∧ ∃ σ, s'.types.shape? r.2 = some σ ∧
        (s'.env sigs visible).shape r.1.info = some σ := by
  unfold stringify
  refine Ends.reads ?_
  dsimp only
  split
  · obtain ⟨σ, hσ⟩ := he.exists_shape ht
    exact Ends.value ⟨hs, Enters.passage.refl s, he, σ, hσ, Env.shape_eq_some.2 ⟨_, ht, hσ⟩⟩
  · split
    · exact Ends.refused
    · refine (ends_stringOf hs _).seq fun target s₁ h₁ => ?_
      obtain ⟨hs₁, hen, -⟩ := h₁
      refine (ends_coerce hs₁ (he.extends hen.env)).seq fun e' s₂ h₂ => ?_
      obtain ⟨rfl, he', hσ⟩ := h₂
      exact Ends.value ⟨hs₁, hen, he', hσ⟩

theorem ends_stringSum (hs : s.Sound lengths) (hl : left.Typed (s.env sigs visible))
    (hr : right.Typed (s.env sigs visible)) {place : Location} {lt rt : TypeId}
    (hlt : left.type? = some lt) (hrt : right.type? = some rt) :
    Ends (stringSum place left right lt rt) s (Accepted lengths sigs visible s .add) := by
  unfold stringSum
  refine (ends_stringify hs hl hlt).seq fun l s₁ h₁ => ?_
  obtain ⟨hs₁, he₁, hl', σ, hσ, hlσ⟩ := h₁
  refine (ends_stringify hs₁ (hr.extends he₁.env) hrt).seq fun r s₂ h₂ => ?_
  obtain ⟨hs₂, he₂, hr', τ, hτ, hrτ⟩ := h₂
  refine Ends.reads ?_
  dsimp only
  split
  next n m hn hm =>
    obtain rfl : Shape.string n = σ :=
      Option.some.inj ((TypeTable.capacity?_iff.1 hn).symm.trans (he₂.extends.shape? hσ))
    obtain rfl : Shape.string m = τ :=
      Option.some.inj ((TypeTable.capacity?_iff.1 hm).symm.trans hτ)
    refine (ends_stringOf hs₂ (n + m)).seq fun t s₃ h₃ => ?_
    obtain ⟨hs₃, he₃, ht⟩ := h₃
    have henv : (s₁.env sigs visible).Extends (s₃.env sigs visible) := he₂.env.trans he₃.env
    exact Ends.value ⟨hs₃, Enters.passage.trans he₁ (Enters.passage.trans he₂ he₃),
      hl'.extends henv, hr'.extends he₃.env, _, _, _, henv.shape hlσ, he₃.env.shape hrτ, .join, ht⟩
  next => exact Ends.refused

/-- Operands promoted to a type have the shape of the type. -/
theorem ends_promote (hs : s.Sound lengths) (hl : left.Typed (s.env sigs visible))
    (hr : right.Typed (s.env sigs visible)) {common : TypeId} {σ : Shape}
    (hσ : s.types.shape? common = some σ) :
    Ends (promote left right common) s fun r s' => s' = s ∧ r.1.Typed (s.env sigs visible) ∧
      r.2.Typed (s.env sigs visible) ∧ (s.env sigs visible).shape r.1.info = some σ ∧
      (s.env sigs visible).shape r.2.info = some σ := by
  unfold promote
  refine (ends_coerce hs hl).seq fun l s₁ h₁ => ?_
  obtain ⟨rfl, hl', a, ha, hla⟩ := h₁
  refine (ends_coerce hs hr).seq fun r s₂ h₂ => ?_
  obtain ⟨rfl, hr', b, hb, hrb⟩ := h₂
  obtain rfl : a = σ := Option.some.inj (ha.symm.trans hσ)
  obtain rfl : b = a := Option.some.inj (hb.symm.trans hσ)
  exact Ends.value ⟨rfl, hl', hr', hla, hrb⟩

theorem ends_arithmetic (hs : s.Sound lengths) (hl : left.Typed (s.env sigs visible))
    (hr : right.Typed (s.env sigs visible)) {place : Location} {op : BinaryOp} {lt rt : TypeId}
    (hop : op ∈ [BinaryOp.add, .subtract, .multiply, .divide, .mod]) :
    Ends (arithmetic place op left right lt rt) s (Accepted lengths sigs visible s op) := by
  unfold arithmetic
  refine Ends.reads ?_
  dsimp only
  split
  next common hcommon =>
    obtain ⟨a, b, u, ha, hb, rfl, hu, hna, hnb, hnu, hub⟩ :=
      shape?_of_commonType? hs.builtin hcommon
    split
    · exact Ends.refused_seq
    next hmod =>
      refine (ends_promote hs hl hr hu).seq fun r s₁ h₁ => ?_
      obtain ⟨rfl, hl', hr', hlu, hru⟩ := h₁
      have htakes : op.Takes (.scalar u) (.scalar u)
          (.scalar (if op = .multiply then u.widened else u)) := by
        by_cases hmul : op = .multiply
        · subst hmul
          exact .multiply hnu
        rw [if_neg hmul]
        by_cases hm : op = .mod
        · subst hm
          refine .mod ?_
          have hi : s₁.types.isIntegral lt = true ∧ s₁.types.isIntegral rt = true := by
            simpa using hmod
          obtain ⟨a', ha', hia⟩ := TypeTable.isIntegral_iff.1 hi.1
          obtain ⟨b', hb', hib⟩ := TypeTable.isIntegral_iff.1 hi.2
          obtain rfl : a' = a := by simpa using ha'.symm.trans ha
          obtain rfl : b' = b := by simpa using hb'.symm.trans hb
          obtain rfl | rfl := hub
          · exact hia
          · exact hib
        · refine .arithmetic ?_ hnu
          simp_all
      refine Ends.value ⟨hs, Enters.passage.refl _, hl', hr', _, _, _, hlu, hru, htakes, ?_⟩
      rw [resultType_scalarId]
      exact hs.builtin.shape? _
  next => exact Ends.refused

theorem ends_logic (hs : s.Sound lengths) (hl : left.Typed (s.env sigs visible))
    (hr : right.Typed (s.env sigs visible)) {place : Location} {op : BinaryOp} {lt rt : TypeId}
    (hlt : left.type? = some lt) (hrt : right.type? = some rt)
    (hop : op = .and ∨ op = .or ∨ op = .xor) :
    Ends (logic place op left right lt rt) s (Accepted lengths sigs visible s op) := by
  unfold logic
  refine Ends.reads ?_
  dsimp only
  split
  next h =>
    rw [Bool.and_eq_true] at h
    exact Ends.value ⟨hs, Enters.passage.refl s, hl, hr, _, _, _,
      Env.shape_eq_some.2 ⟨_, hlt, hs.builtin.isBoolean h.1⟩,
      Env.shape_eq_some.2 ⟨_, hrt, hs.builtin.isBoolean h.2⟩, .logic hop (.inl rfl),
      hs.builtin.shape? .boolean⟩
  next =>
    split
    next h =>
      rw [Bool.and_eq_true] at h
      obtain ⟨a, ha, hia⟩ := TypeTable.isIntegral_iff.1 h.1
      obtain ⟨b, hb, hib⟩ := TypeTable.isIntegral_iff.1 h.2
      obtain ⟨common, hcommon⟩ : ∃ c, commonType? s.types lt rt = some c := by
        obtain ⟨r, hr⟩ := Scalar.isNumeric_iff_rank?.1 (Scalar.isNumeric_of_isIntegral hia)
        obtain ⟨r', hr'⟩ := Scalar.isNumeric_iff_rank?.1 (Scalar.isNumeric_of_isIntegral hib)
        exact ⟨_, by rw [commonType?, TypeTable.rank?_of_shape? ha, TypeTable.rank?_of_shape? hb,
          hr, hr']⟩
      obtain ⟨a', b', u, ha', hb', rfl, hu, -, -, -, hub⟩ :=
        shape?_of_commonType? hs.builtin hcommon
      obtain rfl : a' = a := by simpa using ha'.symm.trans ha
      obtain rfl : b' = b := by simpa using hb'.symm.trans hb
      have hiu : u.isIntegral = true := by
        obtain rfl | rfl := hub
        · exact hia
        · exact hib
      rw [hcommon, Option.getD_some]
      refine (ends_promote hs hl hr hu).seq fun r s₁ h₁ => ?_
      obtain ⟨rfl, hl', hr', hlu, hru⟩ := h₁
      exact Ends.value ⟨hs, Enters.passage.refl _, hl', hr', _, _, _, hlu, hru,
        .logic hop (.inr hiu), hu⟩
    next => exact Ends.refused

theorem ends_comparison (hs : s.Sound lengths) (hl : left.Typed (s.env sigs visible))
    (hr : right.Typed (s.env sigs visible)) {place : Location} {op : BinaryOp} {lt rt : TypeId}
    (hlt : left.type? = some lt) (hrt : right.type? = some rt) {c : Comparison}
    (hop : op.comparison? = some c) :
    Ends (comparison place op left right lt rt) s (Accepted lengths sigs visible s op) := by
  unfold comparison
  refine Ends.reads ?_
  dsimp only
  split
  next h =>
    rw [Bool.and_eq_true] at h
    obtain ⟨a, ha, hna⟩ := TypeTable.isNumeric_iff.1 h.1
    obtain ⟨b, hb, hnb⟩ := TypeTable.isNumeric_iff.1 h.2
    obtain ⟨common, hcommon⟩ : ∃ c, commonType? s.types lt rt = some c := by
      obtain ⟨r, hr⟩ := Scalar.isNumeric_iff_rank?.1 hna
      obtain ⟨r', hr'⟩ := Scalar.isNumeric_iff_rank?.1 hnb
      exact ⟨_, by rw [commonType?, TypeTable.rank?_of_shape? ha, TypeTable.rank?_of_shape? hb,
        hr, hr']⟩
    obtain ⟨-, -, u, -, -, rfl, hu, -, -, hnu, -⟩ := shape?_of_commonType? hs.builtin hcommon
    rw [hcommon, Option.getD_some]
    refine (ends_promote hs hl hr hu).seq fun r s₁ h₁ => ?_
    obtain ⟨rfl, hl', hr', hlu, hru⟩ := h₁
    exact Ends.value ⟨hs, Enters.passage.refl _, hl', hr', _, _, _, hlu, hru,
      .numbers hop hnu, hs.builtin.shape? .boolean⟩
  next =>
    split
    next h =>
      obtain ⟨a, ha⟩ := hl.exists_shape hlt
      obtain ⟨b, hb⟩ := hr.exists_shape hrt
      have hla := Env.shape_eq_some.2 ⟨_, hlt, ha⟩
      have hrb := Env.shape_eq_some.2 ⟨_, hrt, hb⟩
      rw [Bool.or_eq_true, Bool.and_eq_true, Bool.and_eq_true, Bool.and_eq_true] at h
      obtain ⟨hsl, hsr⟩ | ⟨⟨hbl, hbr⟩, heq⟩ := h
      · obtain ⟨n, rfl⟩ := TypeTable.shape?_of_isString hsl ha
        obtain ⟨m, rfl⟩ := TypeTable.shape?_of_isString hsr hb
        exact Ends.value ⟨hs, Enters.passage.refl s, hl, hr, _, _, _, hla, hrb, .strings hop,
          hs.builtin.shape? .boolean⟩
      · obtain rfl : Shape.scalar .boolean = a :=
          Option.some.inj ((hs.builtin.isBoolean hbl).symm.trans ha)
        obtain rfl : Shape.scalar .boolean = b :=
          Option.some.inj ((hs.builtin.isBoolean hbr).symm.trans hb)
        refine Ends.value ⟨hs, Enters.passage.refl s, hl, hr, _, _, _, hla, hrb, .booleans ?_,
          hs.builtin.shape? .boolean⟩
        simpa using heq
    next => exact Ends.refused_seq

/-- **An operator that is accepted gets operands that it takes.** -/
theorem ends_binary (hs : s.Sound lengths) (hl : left.Typed (s.env sigs visible))
    (hr : right.Typed (s.env sigs visible)) {place : Location} {op : BinaryOp} :
    Ends (binary place op left right) s (Accepted lengths sigs visible s op) := by
  unfold binary
  refine (ends_valueType left s).seq fun lt s₁ h₁ => ?_
  obtain ⟨rfl, hlt⟩ := h₁
  refine (ends_valueType right s₁).seq fun rt s₂ h₂ => ?_
  obtain ⟨rfl, hrt⟩ := h₂
  refine Ends.reads ?_
  have shift (hop : op = .shl ∨ op = .shr) (h : (s₂.types.isIntegral lt &&
      s₂.types.isIntegral rt) = true) :
      Accepted lengths sigs visible s₂ op (left, right, s₂.types.base lt) s₂ := by
    rw [Bool.and_eq_true] at h
    obtain ⟨a, ha, hia⟩ := TypeTable.isIntegral_iff.1 h.1
    obtain ⟨b, hb, hib⟩ := TypeTable.isIntegral_iff.1 h.2
    exact ⟨hs, Enters.passage.refl _, hl, hr, _, _, _, Env.shape_eq_some.2 ⟨_, hlt, ha⟩,
      Env.shape_eq_some.2 ⟨_, hrt, hb⟩, .shift hop hia hib, TypeTable.shape?_base ha⟩
  cases op with
  | add =>
    dsimp only
    split
    · exact ends_stringSum hs hl hr hlt hrt
    · exact ends_arithmetic hs hl hr (by simp)
  | subtract => exact ends_arithmetic hs hl hr (by simp)
  | multiply => exact ends_arithmetic hs hl hr (by simp)
  | divide => exact ends_arithmetic hs hl hr (by simp)
  | mod => exact ends_arithmetic hs hl hr (by simp)
  | shl =>
    dsimp only
    split
    next h => exact Ends.value (shift (.inl rfl) h)
    next => exact Ends.refused
  | shr =>
    dsimp only
    split
    next h => exact Ends.value (shift (.inr rfl) h)
    next => exact Ends.refused
  | and => exact ends_logic hs hl hr hlt hrt (.inl rfl)
  | or => exact ends_logic hs hl hr hlt hrt (.inr (.inl rfl))
  | xor => exact ends_logic hs hl hr hlt hrt (.inr (.inr rfl))
  | less => exact ends_comparison hs hl hr hlt hrt rfl
  | lessEqual => exact ends_comparison hs hl hr hlt hrt rfl
  | greater => exact ends_comparison hs hl hr hlt hrt rfl
  | greaterEqual => exact ends_comparison hs hl hr hlt hrt rfl
  | equal => exact ends_comparison hs hl hr hlt hrt rfl
  | notEqual => exact ends_comparison hs hl hr hlt hrt rfl

/-! ## Members -/

/-- **A member that is found is a field of the structure its target is.** -/
theorem ends_member (hs : s.Sound lengths) (hk : sigs.Known s.types) (he : e.Typed (s.env sigs visible))
    {place : Location} {field : String} :
    Ends (member sigs place e field) s fun r s' => s'.Sound lengths ∧ Enters s s' ∧
      e.isAddressable = true ∧ (s'.env sigs visible).shape e.info = some (.struct r.1.struct) ∧
      ∃ t σ, (s'.env sigs visible).member r.1 = some t ∧ s'.types.shape? t = some σ ∧
        s'.types.shape? r.2 = some σ := by
  unfold member
  refine (ends_valueType e s).seq fun type s₁ h₁ => ?_
  obtain ⟨rfl, htype⟩ := h₁
  refine Ends.reads ?_
  dsimp only
  split
  · exact Ends.refused
  next number hnumber =>
    have hstruct : (s₁.env sigs visible).shape e.info = some (.struct number) :=
      Env.shape_eq_some.2 ⟨_, htype, TypeTable.shape?_of_struct? hnumber⟩
    split
    next haddr =>
      split
      · exact Ends.refused
      next slot index hfind =>
        obtain ⟨d, hd, hslot⟩ : ∃ d, sigs.structs[number]? = some d ∧
            d.fields[index]? = some slot := by
          have hmem := List.mem_of_find?_eq_some hfind
          cases hd : sigs.structs[number]? with
          | none => simp [hd] at hmem
          | some d =>
            refine ⟨d, rfl, ?_⟩
            have := List.mem_zipIdx_iff_getElem?.1 hmem
            simpa [hd] using this
        have hmember : (s₁.env sigs visible).member ⟨number, index⟩ = some slot.type := by
          simp [CheckState.env, hd, hslot]
        obtain ⟨σ, hσ⟩ := hk.structs number d hd slot (List.mem_of_getElem? hslot)
        split
        · refine (ends_constant hs hσ).seq fun t s₂ h₂ => ?_
          obtain ⟨hs₂, hen, ht⟩ := h₂
          exact Ends.value ⟨hs₂, hen, haddr, hen.env.shape hstruct, slot.type, σ,
            hen.env.member _ _ hmember, hen.extends.shape? hσ, ht⟩
        · exact Ends.value ⟨hs, Enters.passage.refl _, haddr, hstruct, slot.type, σ, hmember, hσ,
            hσ⟩
    next => exact Ends.refused_seq

/-! ## Expressions -/

theorem ends_simplify (he : e.Typed (s.env sigs visible)) (hp : ∀ i t p, e ≠ .pointer i t p)
    (hc : ∀ i o, e ≠ .cast i o) :
    Ends (simplify e) s fun e' s' => s' = s ∧ e'.Typed (s.env sigs visible) := by
  unfold simplify
  exact Ends.reads (Ends.value ⟨rfl, he.simplify hp hc⟩)

/-- What finding the type of a constant has to come to. -/
def Finds (lengths : Array Expr) (constantType : ConstantType) : Prop :=
  ∀ k s, s.Sound lengths → Ends (constantType k) s fun t s' => s'.Sound lengths ∧ Moves s s' ∧
    ∃ σ v, s'.types.shape? t = some σ ∧ s'.constantValue k = some v ∧ v.Fits σ

variable {constantType : ConstantType}

/-- A name that has a type is typed. -/
theorem ends_name (visible : Nat → Bool) (hf : Finds lengths constantType) (hs : s.Sound lengths)
    (hk : sigs.Known s.types) (i : Info) (name : String) (d : Declaration) :
    Ends (declaredType sigs constantType d) s fun t s' => s'.Sound lengths ∧ Moves s s' ∧
      ∀ u, t = some u →
        (Expr.name { i with type := some u } name (some d)).Typed (s'.env sigs visible) := by
  cases d with
  | constant k =>
    refine (hf k s hs).seq fun t s₁ h₁ => ?_
    obtain ⟨hs₁, hm, σ, v, hσ, hv, hfit⟩ := h₁
    refine (ends_constant hs₁ hσ).seq fun u s₂ h₂ => ?_
    obtain ⟨hs₂, hen, hu⟩ := h₂
    refine Ends.value ⟨hs₂, Moves.passage.trans hm hen.moves, fun w hw => ?_⟩
    obtain rfl : u = w := Option.some.inj hw
    exact ⟨σ, v, hu, hen.moves.constantValue hv, hfit⟩
  | localVar k =>
    refine Ends.reads (Ends.value ⟨hs, Moves.passage.refl s, fun u hu => ?_⟩)
    exact ⟨hu.symm, hs.locals k u hu⟩
  | argument k =>
    refine Ends.value ⟨hs, Moves.passage.refl s, fun u hu => ?_⟩
    obtain ⟨a, ha, rfl⟩ := Option.map_eq_some_iff.1 hu
    exact ⟨hu.symm, hk.arguments a (List.mem_of_getElem? ha)⟩
  | dataField k =>
    refine Ends.value ⟨hs, Moves.passage.refl s, fun u hu => ?_⟩
    obtain ⟨a, ha, rfl⟩ := Option.map_eq_some_iff.1 hu
    exact ⟨hu.symm, hk.fields a (List.mem_of_getElem? ha)⟩

mutual

/-- **Checking an expression as it is written gives one whose types are right.** -/
theorem ends_expr (hf : Finds lengths constantType) :
    (e : Expr) → (s : CheckState) → s.Sound lengths → sigs.Known s.types → e.Plain s.types visible →
      Ends (expr sigs constantType e) s fun e' s' => s'.Sound lengths ∧ Moves s s' ∧
        e'.Typed (s'.env sigs visible)
  | .literal i v, s, hs, _, ⟨t, σ, ht, hσ, hv⟩ =>
    Ends.value ⟨hs, Moves.passage.refl s, σ, Env.shape_eq_some.2 ⟨t, ht, hσ⟩, hv⟩
  | .name i name none, s, _, _, _ => by
    unfold expr
    refine Ends.seq (Ends.value (Q := fun t _ => t = none) rfl) fun t s₁ h₁ => ?_
    subst h₁
    exact Ends.refused
  | .name i name (some d), s, hs, hk, _ => by
    unfold expr
    refine (ends_name visible hf hs hk i name d).seq fun t s₁ h₁ => ?_
    obtain ⟨hs₁, hm, ht⟩ := h₁
    cases t with
    | none => exact Ends.refused
    | some u => exact Ends.value ⟨hs₁, hm, ht u rfl⟩
  | .member i target field r, s, hs, hk, hp => by
    unfold expr
    refine (ends_expr hf target s hs hk hp).seq fun target s₁ h₁ => ?_
    obtain ⟨hs₁, hm, ht⟩ := h₁
    refine (ends_member hs₁ (hk.extends hm.types) ht).seq fun r s₂ h₂ => ?_
    obtain ⟨hs₂, hen, haddr, hstruct, t, σ, hmem, hσ, hr⟩ := h₂
    have hnode : (Expr.member { i with type := some r.2 } target field (some r.1)).Typed
        (s₂.env sigs visible) :=
      ⟨ht.extends hen.env, haddr, hstruct, t, σ, hmem, hσ, hr⟩
    refine (ends_simplify hnode (by simp) (by simp)).mono ?_
    rintro e' s₃ ⟨rfl, he'⟩
    exact ⟨hs₂, Moves.passage.trans hm hen.moves, he'⟩
  | .call i function arguments callee, s, hs, hk, ⟨hvis, hargs⟩ => by
    unfold expr
    split
    · exact Ends.refused
    next f hfun =>
      obtain ⟨n, rfl, hf'⟩ := Option.bind_eq_some_iff.1 hfun
      dsimp only
      split
      · exact Ends.refused_seq
      next hlen =>
        have hlen : f.parameters.length = arguments.length := by simpa using hlen
        refine (ends_exprs hf f.parameters arguments s hs hk hargs hlen).seq fun es s₁ h₁ => ?_
        obtain ⟨hs₁, hm, hes⟩ := h₁
        have hfn : (s₁.env sigs visible).function n = some (f.parameters, f.returns) := by
          simp [CheckState.env, hvis n rfl, hf']
        have hret := (hk.extends hm.types).returns n f hf'
        have hnode : (Expr.call { i with type := f.returns } function es (some n)).Typed
            (s₁.env sigs visible) := ⟨⟨f.parameters, hfn, hes⟩, hret⟩
        refine (ends_simplify hnode (by simp) (by simp)).mono ?_
        rintro e' s₂ ⟨rfl, he'⟩
        exact ⟨hs₁, hm, he'⟩
  | .unary i op operand, s, hs, hk, hp => by
    unfold expr
    refine (ends_expr hf operand s hs hk hp).seq fun operand s₁ h₁ => ?_
    obtain ⟨hs₁, hm, ho⟩ := h₁
    refine (ends_unary hs₁ ho).seq fun t s₂ h₂ => ?_
    obtain ⟨rfl, σ, hoσ, hop, hσ⟩ := h₂
    have hnode : (Expr.unary { i with type := some t } op operand).Typed (s₂.env sigs visible) :=
      ⟨ho, σ, hoσ, hop, hσ⟩
    refine (ends_simplify hnode (by simp) (by simp)).mono ?_
    rintro e' s₃ ⟨rfl, he'⟩
    exact ⟨hs₁, hm, he'⟩
  | .binary i op left right, s, hs, hk, ⟨hpl, hpr⟩ => by
    unfold expr
    refine (ends_expr hf left s hs hk hpl).seq fun left s₁ h₁ => ?_
    obtain ⟨hs₁, hm₁, hl⟩ := h₁
    refine (ends_valueType left s₁).seq fun _ s₁' h₁' => ?_
    obtain ⟨rfl, -⟩ := h₁'
    have hpr := hpr.extends hm₁.types
    refine (ends_expr hf right s₁' hs₁ (hk.extends hm₁.types) hpr).seq fun right s₂ h₂ => ?_
    obtain ⟨hs₂, hm₂, hr⟩ := h₂
    refine (ends_binary hs₂ (hl.extends hm₂.env) hr).seq fun r s₃ h₃ => ?_
    obtain ⟨hs₃, hen, hl', hr', a, b, c, ha, hb, hop, hc⟩ := h₃
    have hnode : (Expr.binary { i with type := some r.2.2 } op r.1 r.2.1).Typed
        (s₃.env sigs visible) := ⟨hl', hr', a, b, c, ha, hb, hop, hc⟩
    refine (ends_simplify hnode (by simp) (by simp)).mono ?_
    rintro e' s₄ ⟨rfl, he'⟩
    exact ⟨hs₃, Moves.passage.trans hm₁ (Moves.passage.trans hm₂ hen.moves), he'⟩

/-- Checked arguments have the shapes of the parameters. -/
theorem ends_exprs (hf : Finds lengths constantType) :
    (ps : List TypeId) → (es : List Expr) → (s : CheckState) → s.Sound lengths → sigs.Known s.types →
      Expr.PlainAll s.types visible es → ps.length = es.length →
      Ends (exprs sigs constantType ps es) s fun es' s' => s'.Sound lengths ∧ Moves s s' ∧
        Expr.TypedAll (s'.env sigs visible) ps es'
  | p :: ps, e :: rest, s, hs, hk, ⟨hp, hrest⟩, hlen => by
    unfold exprs
    refine (ends_expr hf e s hs hk hp).seq fun e s₁ h₁ => ?_
    obtain ⟨hs₁, hm₁, he⟩ := h₁
    refine (ends_valueType e s₁).seq fun _ s₁' h₁' => ?_
    obtain ⟨rfl, -⟩ := h₁'
    refine (ends_coerce hs₁ he).seq fun e' s₂ h₂ => ?_
    obtain ⟨rfl, he', σ, hpσ, heσ⟩ := h₂
    have hrest := hrest.extends hm₁.types
    refine (ends_exprs hf ps rest s₂ hs₁ (hk.extends hm₁.types) hrest
      (by simpa using hlen)).seq fun es s₃ h₃ => ?_
    obtain ⟨hs₃, hm₃, hes⟩ := h₃
    exact Ends.value ⟨hs₃, Moves.passage.trans hm₁ hm₃, he'.extends hm₃.env,
      ⟨σ, hm₃.types.shape? hpσ, hm₃.env.shape heσ⟩, hes⟩
  | [], [], s, hs, _, _, _ => by
    unfold exprs
    exact Ends.value ⟨hs, Moves.passage.refl s, trivial⟩

end

end Checking

end ChannelBasic
