import ChannelBasic.Proofs.Execution.Computation

/-!
# Proofs/Execution/Folding — what is computed beforehand is what the machine computes

Operations on literals end in what storing the result would do, and a text is read back from its
units, so an expression with a value known beforehand evaluates to that value (`Typed.yields_fold`).
The code that is emitted for such an expression **pushes the value's bytes and never faults**
(`Program.folded_load_pushes`).
-/

namespace ChannelBasic

open Code

namespace Literal

variable {σ a b c : Shape} {l l' r : Literal} {w : Value} {sizes : List (Nat × Nat)} {n : Nat}

theorem isValue_of_fits (h : l.Fits σ) : σ.isValue = true := by
  cases σ with
  | scalar => rfl
  | string => rfl
  | _ => cases l <;> cases h

/-- A whole number that fits a shape is within the range of its bytes. -/
theorem range_of_fits {k : Int64} (hn : σ.size? sizes = some n) (h : (Literal.integral k).Fits σ) :
    σ.kind.isIntegral = true ∧ -(256 ^ n / 2) ≤ k.toInt ∧ k.toInt < 256 ^ n / 2 := by
  obtain ⟨s, rfl⟩ : ∃ s, σ = .scalar s := by cases σ <;> simp_all [Fits]
  obtain rfl : s.size = n := by simpa [Shape.size?] using hn
  have hs : s.isIntegral = true ∧ Word.wrap k s.size = k := by cases s <;> exact h
  have hpos : 0 < 256 ^ s.size := Nat.pow_pos (by decide)
  have heven : (256 : Int) ^ s.size % 2 = 0 := by cases s <;> rfl
  have hk : Int.bmod k.toInt (256 ^ s.size) = k.toInt := by
    rw [← Word.toInt_wrap s.size_le_eight, hs.2]
  have hlow := Int.le_bmod (x := k.toInt) hpos
  have hhigh := Int.bmod_lt (x := k.toInt) hpos
  rw [hk] at hlow hhigh
  push_cast at hlow hhigh
  refine ⟨by rw [Shape.kind, s.isIntegral_kind, hs.1], hlow, by omega⟩

/-- A value that is kept as a literal is what is left of it in its type; the units of a string have
to be those of a text. -/
theorem toValue_of_ofValue? (h : ofValue? σ.kind n w = some l)
    (htext : ∀ units, w = .string units → ∃ s, units.take (stringCapacity n) = Utf16.encode s) :
    l.toValue = w.truncate n := by
  cases w with
  | boolean x =>
    obtain rfl : Literal.boolean x = l := Option.some.inj h
    rfl
  | real x =>
    obtain rfl : Literal.real x = l := Option.some.inj h
    rfl
  | integral k =>
    unfold ofValue? at h
    dsimp only at h
    split at h
    · obtain rfl := Option.some.inj h
      rfl
    · cases h
  | string units =>
    obtain ⟨s, hs⟩ := htext units rfl
    obtain rfl : Literal.text (Utf16.decode (units.take (stringCapacity n))) = l :=
      Option.some.inj h
    rw [toValue, Value.truncate, hs, Utf16.decode_encode]
    rfl

/-- **An operator does to a literal what the machine does to its value.** -/
theorem toValue_unary {op : UnaryOp} (hop : op.Takes σ) (hplus : op ≠ .plus) (hl : l.Fits σ)
    (h : l.unary op σ.kind n = some l') :
    ∃ w, op.apply l.toValue = .ok w ∧ l'.toValue = w.truncate n := by
  have stored {x : Except Fault Value} {w : Value} (hx : x = .ok w) (hw : w.Of σ)
      (hσ : ∀ c, σ ≠ .string c) (h : x.toOption.bind (ofValue? σ.kind n) = some l') :
      l'.toValue = w.truncate n := by
    rw [hx] at h
    refine toValue_of_ofValue? h fun units hunits => ?_
    subst hunits
    cases σ with
    | string c => exact absurd rfl (hσ c)
    | scalar s => cases s <;> cases hw
    | _ => cases hw
  cases op with
  | plus => exact absurd rfl hplus
  | minus =>
    obtain ⟨w, hw, hof⟩ := Value.negate_of hop (toValue_of hl)
    exact ⟨w, hw, stored hw hof (by rintro c rfl; cases hop) h⟩
  | not =>
    obtain ⟨w, hw, hof⟩ := Value.complement_of hop (toValue_of hl)
    exact ⟨w, hw, stored hw hof (by rintro c rfl; cases hop) h⟩

/-- **An operator does to two literals what the machine does to their values.** -/
theorem toValue_binary {op : BinaryOp} (hop : op.Takes a b c) (hn : c.size? sizes = some n)
    (hl : l.Fits a) (hr : r.Fits b) (h : l.binary op r c.kind n = some l') :
    ∃ w, op.apply l.toValue r.toValue = .ok w ∧ l'.toValue = w.truncate n := by
  have hlof := toValue_of hl
  have hrof := toValue_of hr
  obtain ⟨k, hk⟩ | ⟨hk, code, hcode⟩ := Value.operation_or_comparison op
  · obtain ⟨rfl, answer, ha⟩ := Value.compare_of_takes hop hk hlof hrof
    obtain rfl : Literal.boolean answer = l' := by
      simpa [binary, hk, ha, Except.toOption] using h
    refine ⟨.boolean answer, ?_, rfl⟩
    simp only [BinaryOp.apply, hk, ha]
    rfl
  · rw [binary, hk] at h
    simp only [hcode] at h
    obtain ⟨w, hw, h⟩ := toOption_bind_eq_some.1 h
    have hwof : w.Of c := by
      obtain ⟨w', hw', hof⟩ | hz := Value.binary_of_takes hop hcode hlof hrof
      · obtain rfl := Except.ok.inj (hw'.symm.trans hw)
        exact hof
      · cases hz.symm.trans hw
    refine ⟨w, by simp only [BinaryOp.apply, hk, hcode, hw], toValue_of_ofValue? h ?_⟩
    rintro units rfl
    -- only strings that are joined give a string, and there is room for both of them
    cases hop with
    | @join x y =>
      obtain ⟨s, rfl⟩ : ∃ s, l = .text s := by cases l <;> simp_all [Fits]
      obtain ⟨s', rfl⟩ : ∃ s, r = .text s := by cases r <;> simp_all [Fits]
      obtain rfl := Option.some.inj hcode
      obtain rfl : Utf16.encode s ++ Utf16.encode s' = units :=
        Value.string.inj (Except.ok.inj hw)
      obtain rfl : stringSize (x + y) = n := by simpa [Shape.size?] using hn
      have hx : (Utf16.encode s).length ≤ x := hl
      have hy : (Utf16.encode s').length ≤ y := hr
      refine ⟨s ++ s', ?_⟩
      rw [stringCapacity_stringSize, Utf16.encode_append, List.take_of_length_le]
      rw [List.length_append]
      omega
    | _ => simp [Value.Of] at hwof

end Literal

namespace Expr

variable {Γ : Env} {ctx : EmissionContext} {read : Place → Nat → List UInt8} {e : Expr} {v : Literal}
  {σ : Shape} {n : Nat}

/-- What has a value known beforehand makes no call, takes no address and reads nothing. -/
theorem Typed.plain_of_fold (ctx : EmissionContext) (h : e.Typed Γ)
    (hv : e.fold Γ.types Γ.constant = some v) : e.isPlain = true ∧ e.reads ctx = [] := by
  induction e using Expr.induct generalizing v with
  | literal i l => exact ⟨rfl, rfl⟩
  | name i title d =>
    match d, hv with
    | some (.constant k), _ => exact ⟨rfl, rfl⟩
  | member i target field r _ => cases hv
  | call i f arguments c _ => cases hv
  | unary i op operand ih =>
    obtain ⟨l, hl, -⟩ := Option.bind_eq_some_iff.1 hv
    exact ih h.1 hl
  | binary i op left right ihl ihr =>
    obtain ⟨l, hl, hv⟩ := Option.bind_eq_some_iff.1 hv
    obtain ⟨r, hr, -⟩ := Option.bind_eq_some_iff.1 hv
    obtain ⟨hpl, hrl⟩ := ihl h.1 hl
    obtain ⟨hpr, hrr⟩ := ihr h.2.1 hr
    simp [isPlain, reads, hpl, hrl, hpr, hrr]
  | cast i operand _ =>
    rw [fold_cast_of_none h.2.1] at hv
    cases hv
  | pointer i target temp _ => cases hv

/-- **What is known beforehand is what the expression comes to.** -/
theorem Typed.yields_fold (hΓ : Γ.For ctx) (h : e.Typed Γ) (hσ : Γ.shape e.info = some σ)
    (hn : σ.size? ctx.program.types.structSizes = some n) (hlt : e.room ctx < 2 ^ 31)
    (hv : e.fold Γ.types Γ.constant = some v) :
    e.Yields ctx read σ v.toValue (v.toValue.encode n) := by
  induction e using Expr.induct generalizing v σ n with
  | literal i l =>
    obtain ⟨τ, hτ, hfit⟩ := h
    obtain rfl : τ = σ := Option.some.inj (hτ.symm.trans hσ)
    obtain rfl : l = v := Option.some.inj hv
    have hi : ctx.size? i = some n := (hΓ.size?_eq hσ).trans hn
    have hroom : n < 2 ^ 31 := by simpa [room, info, hi] using hlt
    have hy : (Expr.literal i l).Yields ctx read τ _ _ :=
      yields_of_isWritten ⟨rfl, by simp⟩ hi hn hroom (Literal.toValue_of hfit) rfl
    rwa [Literal.truncate_toValue hn hfit] at hy
  | name i title d =>
    obtain _ | (k | _ | _ | _) := d
    case some.constant =>
      obtain ⟨τ, l, hτ, hl, hfit⟩ := h
      obtain rfl : τ = σ := Option.some.inj (hτ.symm.trans hσ)
      obtain rfl : l = v := Option.some.inj (hl.symm.trans hv)
      rw [hΓ.constant] at hl
      have hi : ctx.size? i = some n := (hΓ.size?_eq hσ).trans hn
      have hroom : n < 2 ^ 31 := by simpa [room, info, hi] using hlt
      have hy : (Expr.name i title (some (.constant k))).Yields ctx read τ _ _ :=
        yields_of_isWritten ⟨rfl, by simp⟩ hi hn hroom (Literal.toValue_of hfit)
          (by simp only [eval, hl]; rfl)
      rwa [Literal.truncate_toValue hn hfit] at hy
    all_goals cases hv
  | member i target field r _ => cases hv
  | call i f arguments c _ => cases hv
  | unary i op operand ih =>
    have hroom := (h.size_le_room hΓ hσ ((hΓ.size?_eq hσ).trans hn)).trans_lt hlt
    obtain ⟨ho, τ, hτ, hop, hi⟩ := h
    obtain rfl : τ = σ := Option.some.inj (hi.symm.trans hσ)
    obtain ⟨t, ht, hσt⟩ := Env.shape_eq_some.1 hi
    have hn' : τ.size? Γ.types.structSizes = some n := hΓ.types ▸ hn
    rw [fold_unary ht hσt hn'] at hv
    obtain ⟨l, hl, hv⟩ := Option.bind_eq_some_iff.1 hv
    have hy := ih ho hτ hn hlt hl
    have hsize : ctx.size? i = some n := (hΓ.size?_eq hσ).trans hn
    obtain ⟨τ', hτ', hfit⟩ := ho.fold_fits hl
    obtain rfl : τ' = τ := Option.some.inj (hτ'.symm.trans hτ)
    by_cases hplus : op = .plus
    · subst hplus
      obtain rfl : l = v := Option.some.inj hv
      have hlen := Value.length_encode hn (Literal.toValue_of hfit)
      exact yields_plus hy (hlen.symm ▸ hsize) (hlen.symm ▸ hn)
    · obtain ⟨w, hw, hv⟩ := Literal.toValue_unary hop hplus hfit hv
      obtain ⟨w', hw', hof, hy⟩ := yields_unary hy hop hplus hsize hn hroom
      obtain rfl := Except.ok.inj (hw'.symm.trans hw)
      rwa [hv, Value.encode_truncate hn hof]
  | binary i op left right ihl ihr =>
    have hroom := (h.size_le_room hΓ hσ ((hΓ.size?_eq hσ).trans hn)).trans_lt hlt
    obtain ⟨hl, hr, a, b, c, ha, hb, hop, hi⟩ := h
    obtain rfl : c = σ := Option.some.inj (hi.symm.trans hσ)
    obtain ⟨t, ht, hσt⟩ := Env.shape_eq_some.1 hi
    have hn' : c.size? Γ.types.structSizes = some n := hΓ.types ▸ hn
    rw [fold_binary ht hσt hn'] at hv
    obtain ⟨l, hfl, hv⟩ := Option.bind_eq_some_iff.1 hv
    obtain ⟨r, hfr, hv⟩ := Option.bind_eq_some_iff.1 hv
    obtain ⟨a', ha', hfita⟩ := hl.fold_fits hfl
    obtain ⟨b', hb', hfitb⟩ := hr.fold_fits hfr
    obtain rfl : a' = a := Option.some.inj (ha'.symm.trans ha)
    obtain rfl : b' = b := Option.some.inj (hb'.symm.trans hb)
    obtain ⟨hva, hvb, -⟩ := Shape.isValue_of_binary hop
    obtain ⟨k, hk⟩ := Shape.exists_size?_of_isValue hva ctx.program.types.structSizes
    obtain ⟨k', hk'⟩ := Shape.exists_size?_of_isValue hvb ctx.program.types.structSizes
    simp only [room, max_lt_iff] at hlt
    have hyl := ihl hl ha hk (by omega) hfl
    have hyr := ihr hr hb hk' (by omega) hfr
    have hsize : ctx.size? i = some n := (hΓ.size?_eq hσ).trans hn
    obtain ⟨w, hw, hv⟩ := Literal.toValue_binary hop hn hfita hfitb hv
    obtain ⟨w', hw', hof, hy⟩ | ⟨hdiv, -⟩ := yields_binary hyl hyr hop hsize hn hroom
    · obtain rfl := Except.ok.inj (hw'.symm.trans hw)
      rwa [hv, Value.encode_truncate hn hof]
    · cases hdiv.symm.trans hw
  | cast i operand _ =>
    rw [fold_cast_of_none h.2.1] at hv
    cases hv
  | pointer i target temp _ => cases hv

end Expr

/-! ## Emitting code -/

namespace Emission

variable {ctx : EmissionContext} {e : Expr} {t : TypeId} {n : Nat}

theorem run_typeOf (ht : e.type? = some t) (s : EmissionState) :
    (typeOf e).run s = .ok (t, s) := by
  rw [typeOf, ht]
  rfl

theorem run_sizeOf (place : Location) (hn : ctx.program.types.size? t = some n)
    (s : EmissionState) : (sizeOf ctx place t).run s = .ok (n, s) := by
  have hsize : ctx.program.types.sizeAt place (some t) = .ok n := by
    rw [TypeTable.sizeAt, Option.bind_some, hn]
  unfold sizeOf
  rw [hsize]
  rfl

theorem run_typed (ht : e.type? = some t) (hn : ctx.program.types.size? t = some n)
    (s : EmissionState) :
    (typed ctx e).run s = .ok ((ctx.program.types.valueType t, n), s) :=
  run_bind_eq_ok.2 ⟨_, _, run_typeOf ht s, run_bind_eq_ok.2 ⟨_, _, run_sizeOf _ hn s, rfl⟩⟩

theorem exists_literal (place : Location) (v : Literal) (hn : ctx.program.types.size? t = some n)
    (s : EmissionState) : ∃ code s', (literal ctx place v t).run s = .ok (code, s') := by
  cases v with
  | text content => exact ⟨_, _, run_bind_eq_ok.2 ⟨_, _, run_sizeOf place hn s, rfl⟩⟩
  | _ => exact ⟨_, _, run_bind_eq_ok.2 ⟨_, _, run_sizeOf place hn s, rfl⟩⟩

theorem exists_operator (op : BinaryOp) (place : Location) (kind : ValueType) (left right : Nat)
    {result : Emission Nat} {s : EmissionState} (h : result.run s = .ok (n, s)) :
    ∃ piece, (operator op place kind left right result).run s = .ok (piece, s) := by
  obtain ⟨k, hk⟩ | ⟨hk, code, hcode⟩ := Value.operation_or_comparison op
  · simp only [operator, hk]
    exact ⟨_, rfl⟩
  · simp only [operator, hk, hcode]
    exact ⟨_, run_bind_eq_ok.2 ⟨_, _, h, rfl⟩⟩

end Emission

namespace Expr

variable {Γ : Env} {ctx : EmissionContext} {e : Expr} {v : Literal} {σ : Shape}

/-- The type of a typed expression with a value has a size. -/
theorem exists_type {i : Info} (hΓ : Γ.For ctx) (hσ : Γ.shape i = some σ)
    (hval : σ.isValue = true) :
    ∃ t n, i.type = some t ∧ ctx.program.types.shape? t = some σ ∧
      ctx.program.types.size? t = some n := by
  obtain ⟨t, ht, hσt⟩ := Env.shape_eq_some.1 hσ
  rw [hΓ.types] at hσt
  obtain ⟨n, hn⟩ := Shape.exists_size?_of_isValue hval ctx.program.types.structSizes
  exact ⟨t, n, ht, hσt, by rw [TypeTable.size?_eq, hσt, Option.bind_some, hn]⟩

/-- Code is emitted for whatever has a value known beforehand. -/
theorem Typed.exists_load (hΓ : Γ.For ctx) (h : e.Typed Γ)
    (hv : e.fold Γ.types Γ.constant = some v) (s : EmissionState) :
    ∃ code s', (Emission.load ctx e).run s = .ok (code, s') := by
  induction e using Expr.induct generalizing v s with
  | literal i l =>
    obtain ⟨σ, hσ, hfit⟩ := h
    obtain ⟨t, n, ht, -, hn⟩ := exists_type hΓ hσ (Literal.isValue_of_fits hfit)
    obtain ⟨code, s', hl⟩ := Emission.exists_literal i.location l hn s
    exact ⟨code, s', run_bind_eq_ok.2
      ⟨_, _, Emission.run_typeOf (e := .literal i l) ht s, hl⟩⟩
  | name i title d =>
    match d, h, hv with
    | some (.constant k), ⟨σ, l, hσ, hl, hfit⟩, _ =>
      have hval := Literal.isValue_of_fits hfit
      obtain ⟨t, n, ht, hσt, -⟩ := exists_type hΓ hσ hval
      obtain ⟨m, hm⟩ := Shape.exists_size?_of_isValue hval ctx.program.types.structSizes
      have hbase : ctx.program.types.size? (ctx.program.types.base t) = some m := by
        rw [TypeTable.size?_eq, TypeTable.shape?_base hσt, Option.bind_some, hm]
      obtain ⟨code, s', hlit⟩ := Emission.exists_literal i.location l hbase s
      rw [hΓ.constant] at hl
      refine ⟨code, s', ?_⟩
      unfold Emission.load
      simp only [hl]
      exact run_bind_eq_ok.2
        ⟨_, _, Emission.run_typeOf (e := .name i title (some (.constant k))) ht s, hlit⟩
  | member i target field r _ => cases hv
  | call i f arguments c _ => cases hv
  | unary i op operand ih =>
    obtain ⟨l, hl, -⟩ := Option.bind_eq_some_iff.1 hv
    obtain ⟨ho, σ, hσ, hop, -⟩ := h
    obtain ⟨t, n, ht, -, hn⟩ := exists_type hΓ hσ (Shape.isValue_of_takes hop)
    obtain ⟨code, s₁, hcode⟩ := ih ho hl s
    cases op <;> exact ⟨_, _, run_bind_eq_ok.2 ⟨_, _, hcode,
      run_bind_eq_ok.2 ⟨_, _, Emission.run_typed ht hn s₁, rfl⟩⟩⟩
  | binary i op left right ihl ihr =>
    obtain ⟨l, hfl, hv⟩ := Option.bind_eq_some_iff.1 hv
    obtain ⟨r, hfr, -⟩ := Option.bind_eq_some_iff.1 hv
    obtain ⟨hl, hr, a, b, c, ha, hb, hop, hc⟩ := h
    obtain ⟨hva, hvb, hvc⟩ := Shape.isValue_of_binary hop
    obtain ⟨t, n, ht, hat, hn⟩ := exists_type hΓ ha hva
    obtain ⟨t', n', ht', -, hn'⟩ := exists_type hΓ hb hvb
    obtain ⟨u, k, hu, -, hk⟩ := exists_type hΓ hc hvc
    obtain ⟨second, s₁, hsecond⟩ := ihr hr hfr s
    obtain ⟨first, s₂, hfirst⟩ := ihl hl hfl s₁
    have hoperable : Emission.isOperable (ctx.program.types.valueType t) = true := by
      rw [TypeTable.valueType_eq hat, Emission.isOperable_kind, hva]
    have hresult : (do return (← Emission.typed ctx (.binary i op left right)).2 :
        Emission Nat).run s₂ = .ok (k, s₂) :=
      run_bind_eq_ok.2 ⟨_, _, Emission.run_typed (e := .binary i op left right) hu hk s₂, rfl⟩
    obtain ⟨last, hlast⟩ := Emission.exists_operator op i.location
      (ctx.program.types.valueType t) n n' hresult
    refine ⟨second ++ first ++ [last], s₂, ?_⟩
    refine run_bind_eq_ok.2 ⟨_, _, Emission.run_typed ht hn s, ?_⟩
    refine run_bind_eq_ok.2 ⟨_, _, Emission.run_typed ht' hn' s, ?_⟩
    simp only [hoperable]
    refine run_bind_eq_ok.2 ⟨_, _, hsecond, ?_⟩
    refine run_bind_eq_ok.2 ⟨_, _, hfirst, ?_⟩
    exact run_bind_eq_ok.2 ⟨_, _, hlast, rfl⟩
  | cast i operand _ =>
    rw [fold_cast_of_none h.2.1] at hv
    cases hv
  | pointer i target temp _ => cases hv

end Expr

/-- **What is computed beforehand is what the machine computes.**  Code is emitted for every
expression of an analysed program whose value is known beforehand; it never faults, and pushes the
value's bytes in the size of the expression's type.  A whole number is within the range of the
type. -/
theorem Program.folded_load_pushes {raw : Raw.Program} {p : Program} (hp : analyse raw = .ok p)
    {e : Expr} (he : p.Node e) {v : Literal} (hv : e.fold p.types p.constantValue = some v)
    {ctx : EmissionContext} (hctx : ctx.program = p) (s : EmissionState) :
    ∃ t n code s', e.type? = some t ∧ p.types.size? t = some n ∧
      (Emission.load ctx e).run s = .ok (code, s') ∧
      (∀ (m : Machine) (natives : Natives) (l : Link), m.Ready → m.Loaded l s' code →
        m.HasRoom (e.room ctx) →
        m.Pushes (m.run natives (Piece.count code)) (Piece.count code) (v.toValue.encode n)) ∧
      ∀ k, v = .integral k → (p.types.valueType t).isIntegral = true ∧
        -(256 ^ n / 2) ≤ k.toInt ∧ k.toInt < 256 ^ n / 2 := by
  subst hctx
  obtain ⟨Γ, htypes, hconstant, htyped⟩ := (analysed_of_analyse hp).node he
  have hΓ : Γ.For ctx := ⟨htypes, hconstant⟩
  rw [← htypes, ← hconstant] at hv
  obtain ⟨σ, hσ, hfit⟩ := htyped.fold_fits hv
  have hval := Literal.isValue_of_fits hfit
  obtain ⟨t, n, ht, hσt, hn⟩ := Expr.exists_type hΓ hσ hval
  obtain ⟨code, s', hcode⟩ := htyped.exists_load hΓ hv s
  have hsize : σ.size? ctx.program.types.structSizes = some n := by
    rw [TypeTable.size?_eq, hσt] at hn
    exact hn
  refine ⟨t, n, code, s', ht, hn, hcode, fun m natives l hm hload hroom => ?_, fun k hk => ?_⟩
  · obtain ⟨hplain, hreads⟩ := htyped.plain_of_fold ctx hv
    have hy : e.Yields ctx (m.bytesAt l) σ v.toValue (v.toValue.encode n) :=
      htyped.yields_fold hΓ hσ hsize (hm.room_lt hroom) hv
    obtain ⟨w, data, hw, hpush⟩ | ⟨hd, -⟩ := htyped.runs_load hΓ hplain hσ hval hcode hm hload
      (by simp [hreads]) hroom
    · obtain rfl := Except.ok.inj (hw.bytes.symm.trans hy.bytes)
      exact hpush
    · cases hd.eval.symm.trans hy.eval
  · subst hk
    rw [TypeTable.valueType_eq hσt]
    exact Literal.range_of_fits hsize hfit

/-- A program with nothing but the constant `6 * 7`. -/
def Raw.Program.product : Raw.Program :=
  let place : Location := default
  ⟨[⟨place, "N", none, .binary place .multiply (.integer place 6) (.integer place 7)⟩],
    [], [], [], []⟩

/-- What `Raw.Program.product` means. -/
def Program.product : Program := (analyse .product).toOption.getD default

theorem Program.analyse_product : analyse .product = .ok product :=
  Checked.eq_ok (by decide +kernel)

/-- A machine with the code of `6 * 7` at its start. -/
def Machine.product : Machine where
  memory := ⟨((Record.of .LOAD 2 0 4 7 0).encode ++ (Record.of .LOAD 2 0 4 6 0).encode ++
    (Record.of .MUL 5 0 4 4 4).encode ++ List.replicate 32 0).toArray⟩
  ip := 0
  sp := 80
  lp := 80
  entrySp := 80
  limit := 48
  event := .running
  printed := #[]

/-- The machine computes 42, too. -/
theorem Program.folded_load_pushes_product :
    Machine.product.Pushes (Machine.product.run .empty 3) 3 (Word.ofInt 4 42) := by
  let c : Constant := (product.constants[0]?).getD default
  let ctx : EmissionContext := ⟨product, default, default, []⟩
  let s : EmissionState := ⟨.empty, .empty, [], []⟩
  have hc : product.constants[0]? = some c := (Option.getD_of_ne_none (by decide +kernel) _).symm
  have hv : c.value.fold product.types product.constantValue = some (.integral 42) := by
    decide +kernel
  have htype : c.value.type? = some 3 := by decide +kernel
  have hsize : product.types.size? 3 = some 4 := by decide +kernel
  have hcode : (Emission.load ctx c.value).run s = .ok ([.op (.loadImmediate 4 7),
    .op (.loadImmediate 4 6), .op (.binary .MUL .integer 4 4 4)], s) := by decide +kernel
  obtain ⟨t, n, code, s', ht, hn, hcode', hrun, -⟩ := folded_load_pushes analyse_product
    (.constant hc c.value.mem_nodes) hv (show ctx.program = product from rfl) s
  obtain rfl := Option.some.inj (htype.symm.trans ht)
  obtain rfl := Option.some.inj (hsize.symm.trans hn)
  obtain ⟨rfl, rfl⟩ := Prod.mk.inj (Except.ok.inj (hcode.symm.trans hcode'))
  exact hrun .product .empty ⟨.empty, 48, 48⟩ ⟨rfl, by decide +kernel, by decide +kernel⟩
    ⟨by decide +kernel, by decide +kernel, by decide +kernel⟩ (by decide +kernel)

end ChannelBasic
