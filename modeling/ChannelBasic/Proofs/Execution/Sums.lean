import ChannelBasic.Proofs.Execution.Folding
import ChannelBasic.Proofs.Program.Constness
import ChannelBasic.Proofs.Program.Sums

/-!
# Proofs/Execution/Sums — sums of strings lose no characters

The code of a sum of strings makes texts of numbers and truth values, joins what it has, and cuts
each result to the length that its type has.  But an operand that becomes a text has room for it
(`Expr.Joins`), and a sum has the room of both its operands, so that nothing is ever cut: **what a
sum leaves is exactly what its operands spell** (`Program.concatenates_of_analyse`).  Operands whose
values are known beforehand are joined by checking itself, which loses no characters either.
-/

namespace ChannelBasic

open Code

/-! ## Operands -/

namespace Expr

variable {Γ : Env} {ctx : EmissionContext} {z : EmissionState} {read : Place → Nat → List UInt8}
  {e : Expr} {i : Info} {σ : Shape} {v : Value} {vs : List Value} {code : List Piece} {c : Nat}

/-- No calls occur in the expression. -/
def isCallFree : Expr → Bool
  | .literal _ _ | .name _ _ _ => true
  | .member _ target _ _ | .pointer _ target _ => target.isCallFree
  | .unary _ _ operand | .cast _ operand => operand.isCallFree
  | .binary _ _ left right => left.isCallFree && right.isCallFree
  | .call .. => false

/-- Whether an expression is a sum. -/
def isSum : Expr → Bool
  | .binary _ .add _ _ => true
  | _ => false

/-- The operands of a tree of sums from left to right, each as it was before it became a text. -/
def summands : Expr → List Expr
  | .binary _ .add left right => left.summands ++ right.summands
  | .cast _ operand => [operand]
  | e => [e]

/-- What can be assigned to is a variable or a member of one. -/
theorem Typed.isPlain_of_isAddressable (h : e.Typed Γ) (ha : e.isAddressable = true) :
    e.isPlain = true := by
  induction e using Expr.induct with
  | name => rfl
  | member i target field r ih =>
    match r, h with
    | some _, ⟨htarget, haddressable, _⟩ => exact ih htarget haddressable
  | _ => cases ha

/-- Addresses are not among what a value is computed from, unless there are calls. -/
theorem Typed.isPlain_of_isCallFree (h : e.Typed Γ) (hfree : e.isCallFree = true)
    (hσ : Γ.shape e.info = some σ) (hval : σ.isValue = true) : e.isPlain = true := by
  induction e using Expr.induct generalizing σ with
  | literal | name => rfl
  | member i target field r _ =>
    match r, h with
    | some _, ⟨htarget, haddressable, _⟩ => exact htarget.isPlain_of_isAddressable haddressable
  | call => cases hfree
  | unary i op operand ih =>
    obtain ⟨ho, τ, hτ, hop, -⟩ := h
    exact ih ho hfree hτ (Shape.isValue_of_takes hop)
  | binary i op left right ihl ihr =>
    obtain ⟨hl, hr, a, b, c, ha, hb, hop, -⟩ := h
    obtain ⟨hfl, hfr⟩ := Bool.and_eq_true_iff.1 hfree
    obtain ⟨hva, hvb, -⟩ := Shape.isValue_of_binary hop
    exact Bool.and_eq_true_iff.2 ⟨ihl hl hfl ha hva, ihr hr hfr hb hvb⟩
  | cast i operand ih =>
    obtain ⟨ho, -, τ, τ', hτ, -, hconv⟩ := h
    exact ih ho hfree hτ (Shape.isValue_of_converts hconv).1
  | pointer i target temp _ =>
    obtain ⟨-, hi, -⟩ := h
    obtain rfl : Shape.pointer = σ := Option.some.inj (hi.symm.trans hσ)
    cases hval

/-! ## What a sum comes to -/

/-- A string that has room in its type is not cut. -/
theorem fit_string (hΓ : Γ.For ctx) {units : List UInt16} (hi : Γ.shape i = some (.string c))
    (hle : units.length ≤ c) : ctx.fit i (.string units) = .ok (.string units) := by
  have hn : ctx.size? i = some (stringSize c) := hΓ.size?_eq hi
  rw [EmissionContext.fit, hn]
  simp only [Value.truncate, stringCapacity_stringSize, List.take_of_length_le hle]

/-- What an expression comes to is a value of its type, and has room there. -/
theorem Typed.of_eval (hΓ : Γ.For ctx) (h : e.Typed Γ) (hp : e.isPlain = true)
    (hσ : Γ.shape e.info = some σ) (hval : σ.isValue = true) (hcode : e.Loads ctx z code)
    (hread : ∀ place n, (place, n) ∈ e.reads ctx → (read place n).length = n)
    (hroom : e.room ctx < 2 ^ 31) (hv : e.eval ctx read = .ok v) :
    v.Of σ ∧ ∀ n, σ.size? ctx.program.types.structSizes = some n → v.truncate n = v := by
  obtain ⟨w, data, hy⟩ | hd := h.yields_or_divides hΓ hp hσ hval hcode hread hroom
  · obtain rfl := Except.ok.inj (hy.eval.symm.trans hv)
    refine ⟨hy.of, fun n hn => Value.truncate_decode hn ?_ hy.decode⟩
    exact Option.some.inj (hy.length.symm.trans ((hΓ.size?_eq hσ).trans hn))
  · cases hd.eval.symm.trans hv

/-- A string is no longer than its type. -/
theorem length_le_of_truncate {units : List UInt16}
    (h : (Value.string units).truncate (stringSize c) = .string units) : units.length ≤ c := by
  rw [Value.truncate, stringCapacity_stringSize] at h
  rw [← Value.string.inj h]
  exact List.length_take_le _ _

/-- An operand that is a string already is the string that it spells. -/
theorem Typed.eval_summand (hΓ : Γ.For ctx) (h : e.Typed Γ) (hp : e.isPlain = true)
    (hσ : Γ.shape e.info = some (.string c)) (hcode : e.Loads ctx z code)
    (hread : ∀ place n, (place, n) ∈ e.reads ctx → (read place n).length = n)
    (hroom : e.room ctx < 2 ^ 31)
    (hvs : List.Forall₂ (fun o v => o.eval ctx read = .ok v) [e] vs) :
    e.eval ctx read = .ok (.string (vs.flatMap Value.spelling)) ∧
      (vs.flatMap Value.spelling).length ≤ c := by
  obtain ⟨v, _, hv, hnil, rfl⟩ := List.forall₂_cons_left_iff.1 hvs
  obtain rfl := List.forall₂_nil_left_iff.1 hnil
  obtain ⟨hof, htruncate⟩ := h.of_eval hΓ hp hσ rfl hcode hread hroom hv
  obtain ⟨units, rfl⟩ := Value.of_string hof
  have hspelling : [Value.string units].flatMap Value.spelling = units := List.append_nil _
  rw [hspelling]
  exact ⟨hv, length_le_of_truncate (htruncate _ rfl)⟩

theorem exists_append_of_forall₂ {α β : Type} {R : α → β → Prop} {l l' : List α} {xs : List β}
    (h : List.Forall₂ R (l ++ l') xs) :
    ∃ ys zs, xs = ys ++ zs ∧ List.Forall₂ R l ys ∧ List.Forall₂ R l' zs :=
  ⟨_, _, (List.take_append_drop l.length xs).symm, (List.forall₂_take_append _ _ _ h.flip).flip,
    (List.forall₂_drop_append _ _ _ h.flip).flip⟩

/-- **A sum comes to what its operands spell**, and all of it has room in its type. -/
theorem Typed.eval_sum (hΓ : Γ.For ctx) (h : e.Typed Γ) (hp : e.isPlain = true)
    (hσ : Γ.shape e.info = some (.string c)) (hk : e.KeepsText Γ.types)
    (hj : ∀ n ∈ e.nodes, n.Joins Γ.types) (hcode : e.Loads ctx z code)
    (hread : ∀ place n, (place, n) ∈ e.reads ctx → (read place n).length = n)
    (hroom : e.room ctx < 2 ^ 31)
    (hvs : List.Forall₂ (fun o v => o.eval ctx read = .ok v) e.summands vs) :
    e.eval ctx read = .ok (.string (vs.flatMap Value.spelling)) ∧
      (vs.flatMap Value.spelling).length ≤ c := by
  induction e using Expr.induct generalizing c code vs with
  | binary i op left right ihl ihr =>
    obtain ⟨hl, hr, a, b, c', ha, hb, hop, hi⟩ := h
    obtain rfl : c' = .string c := Option.some.inj (hi.symm.trans hσ)
    obtain ⟨-, -, -, -, first, second, -, -, -, hfirst, hsecond, -, -⟩ := hcode
    obtain ⟨hpl, hpr⟩ := Bool.and_eq_true_iff.1 hp
    obtain ⟨⟨hkl, hkr⟩, hj⟩ := List.forall_mem_cons.1 hj
    obtain ⟨hjl, hjr⟩ := List.forall_mem_append.1 hj
    simp only [room, max_lt_iff] at hroom
    -- only strings that are joined give a string
    cases hop with
    | @join a b =>
      obtain ⟨ls, rs, rfl, hls, hrs⟩ := exists_append_of_forall₂ (l := left.summands) hvs
      obtain ⟨hleft, hla⟩ := ihl hl hpl ha hkl hjl hsecond
        (fun place n hmem => hread place n (by simp [reads, hmem])) (by omega) hls
      obtain ⟨hright, hrb⟩ := ihr hr hpr hb hkr hjr hfirst
        (fun place n hmem => hread place n (by simp [reads, hmem])) hroom.1 hrs
      have hle : (ls.flatMap Value.spelling ++ rs.flatMap Value.spelling).length ≤ a + b := by
        rw [List.length_append]
        exact Nat.add_le_add hla hrb
      rw [List.flatMap_append]
      refine ⟨?_, hle⟩
      simp only [eval, hright, hleft]
      exact fit_string hΓ hi hle
  | cast i operand _ =>
    obtain ⟨ho, -, τ, -, hτ, -, -⟩ := h
    obtain ⟨-, -, -, -, first, hfirst, -, -, -⟩ := hcode
    obtain ⟨t, ht, hc⟩ := Env.shape_eq_some.1 hσ
    obtain ⟨u, s, hu, hs, rfl⟩ := hk i operand rfl t c ht hc
    obtain rfl : τ = .scalar s :=
      Option.some.inj (hτ.symm.trans (Env.shape_eq_some.2 ⟨u, hu, hs⟩))
    obtain ⟨v, _, hv, hnil, rfl⟩ := List.forall₂_cons_left_iff.1 hvs
    obtain rfl := List.forall₂_nil_left_iff.1 hnil
    simp only [room, max_lt_iff] at hroom
    obtain ⟨hof, htruncate⟩ := ho.of_eval hΓ hp hτ rfl hfirst hread hroom.1 hv
    have hin : v.In s := ⟨hof, htruncate _ rfl⟩
    rw [List.flatMap_singleton]
    refine ⟨?_, hin.length_spelling_le⟩
    have hi : Γ.shape i = some (.string s.textCapacity) := hσ
    simp only [eval, hv, hΓ.kind_eq hi]
    change (v.cast .string >>= ctx.fit i) = _
    rw [hin.cast_string]
    exact fit_string hΓ hi hin.length_spelling_le
  | _ => exact h.eval_summand hΓ hp hσ hcode hread hroom hvs

/-- **The code of a sum leaves what its operands spell.** -/
theorem Typed.pushes_sum (hΓ : Γ.For ctx) (h : e.Typed Γ) (hp : e.isPlain = true)
    (hσ : Γ.shape e.info = some (.string c)) (hk : e.KeepsText Γ.types)
    (hj : ∀ n ∈ e.nodes, n.Joins Γ.types) {s s' : EmissionState}
    (hcode : (Emission.load ctx e).run s = .ok (code, s')) {m : Machine} {natives : Natives}
    {l : Link} (hm : m.Ready) (hload : m.Loaded l s' code)
    (hplaces : ∀ x ∈ e.reads ctx, m.Reaches l x.1 x.2) (hroom : m.HasRoom (e.room ctx))
    (hvs : List.Forall₂ (fun o v => o.eval ctx (m.bytesAt l) = .ok v) e.summands vs) :
    ∃ data, data.length = stringSize c ∧ decodeString data = vs.flatMap Value.spelling ∧
      m.Pushes (m.run natives (Piece.count code)) (Piece.count code) data := by
  obtain ⟨-, hloads⟩ := Emission.ends_load (C := fun _ => True) e s (fun _ _ _ => trivial) _ _ hcode
  obtain ⟨heval, -⟩ := h.eval_sum hΓ hp hσ hk hj (hloads s' (.refl s'))
    (hload.sees hplaces).length (hm.room_lt hroom) hvs
  obtain ⟨v, data, hy, hpush⟩ | ⟨hd, -⟩ := h.runs_load hΓ hp hσ rfl hcode hm hload hplaces hroom
  · have hlength : data.length = stringSize c :=
      Option.some.inj (hy.length.symm.trans (hΓ.size?_eq hσ))
    have hdecode : Value.decode .string data = .ok (.string (decodeString data)) :=
      if_neg (by rw [hlength]; exact (stringHeader_le_stringSize c).not_gt)
    obtain rfl := Except.ok.inj (hy.eval.symm.trans heval)
    exact ⟨data, hlength, Value.string.inj (Except.ok.inj (hdecode.symm.trans hy.decode)), hpush⟩
  · cases hd.eval.symm.trans heval

end Expr

/-! ## Operands known beforehand -/

namespace Literal

variable {l : Literal} {x : Scalar}

theorem in_of_fits (h : l.Fits (.scalar x)) : l.toValue.In x :=
  ⟨toValue_of h, truncate_toValue (show (Shape.scalar x).size? [] = some x.size from rfl) h⟩

/-- A literal becomes a text that spells its value. -/
theorem exists_cast_text (h : l.Fits (.scalar x)) :
    ∃ a, l.cast .string (stringSize x.textCapacity) = some (.text a) ∧
      Utf16.encode a = l.toValue.spelling := by
  have hin := in_of_fits h
  have htake : l.toValue.spelling.take (stringCapacity (stringSize x.textCapacity)) =
      Utf16.encode l.toValue.text := by
    rw [stringCapacity_stringSize, List.take_of_length_le hin.length_spelling_le, hin.spelling_eq]
  refine ⟨l.toValue.text, ?_, hin.spelling_eq.symm⟩
  rw [cast, hin.cast_string]
  change some (text (Utf16.decode (l.toValue.spelling.take _))) = _
  rw [htake, Utf16.decode_encode]

/-- Two texts are joined in a string that has room for both of them. -/
theorem add_text {a b : Nat} {s s' : String} (hs : (text s).Fits (.string a))
    (hs' : (text s').Fits (.string b)) :
    (text s).binary .add (text s') .string (stringSize (a + b)) = some (text (s ++ s')) := by
  have ha : (Utf16.encode s).length ≤ a := hs
  have hb : (Utf16.encode s').length ≤ b := hs'
  have htake : (Utf16.encode s ++ Utf16.encode s').take (stringCapacity (stringSize (a + b))) =
      Utf16.encode (s ++ s') := by
    rw [stringCapacity_stringSize, Utf16.encode_append, List.take_of_length_le]
    rw [List.length_append]
    exact Nat.add_le_add ha hb
  change some (text (Utf16.decode ((Utf16.encode s ++ Utf16.encode s').take _))) = _
  rw [htake, Utf16.decode_encode]

end Literal

namespace TypeTable

variable {t t' : TypeTable} {source target : TypeId} {σ : Shape} {capacity c : Nat} {l : Literal}

/-- What has a text capacity has a text, and keeps it. -/
theorem Extends.hasText (hE : t.Extends t') (hσ : t.shape? source = some σ)
    (h : t.textCapacity? source = some capacity) : t'.hasText source = true := by
  unfold textCapacity? at h
  split at h
  next hb =>
    have hbase := hE.base_eq (DataType.isUnresolved_of_shape? hσ)
    have hb' : t'.isBoolean source = true := by rw [isBoolean, hbase, ← isBoolean, hb]
    rw [TypeTable.hasText, hb', Bool.or_true]
  next =>
    cases hr : t.rank? source with
    | none =>
      rw [hr] at h
      cases h
    | some r =>
      obtain ⟨s, hs, hn⟩ := isNumeric_iff.1 (Option.isSome_of_eq_some hr)
      have hn' : t'.isNumeric source = true := isNumeric_iff.2 ⟨s, hE.shape? hs, hn⟩
      rw [TypeTable.hasText, hn', Bool.or_true, Bool.true_or]

/-- A literal is converted to a string at once. -/
theorem castLiteral_string (hτ : t.shape? target = some (.string c))
    (htext : t.hasText source = true) :
    t.castLiteral l source target = l.cast .string (stringSize c) := by
  have hsize : t.size? target = some (stringSize c) := by
    rw [size?_eq, hτ]
    rfl
  have hnumeric : ¬ (t.isNumeric target && t.isNumeric source) = true := by
    rw [Bool.and_eq_true]
    rintro ⟨h, -⟩
    obtain ⟨s, hs, -⟩ := isNumeric_iff.1 h
    cases hs.symm.trans hτ
  have hstring : ((t.capacity? target).isSome && t.hasText source) = true := by
    rw [capacity?_iff.2 hτ, htext]
    rfl
  unfold castLiteral
  simp only [hsize, Option.bind_eq_bind, Option.bind_some, valueType_eq hτ, if_neg hnumeric,
    if_pos hstring]
  rfl

end TypeTable

/-- An expression is known to be a string of some code units. -/
def CheckState.Knows (s : CheckState) (e : Expr) (units : List UInt16) : Prop :=
  ∃ a, e.fold s.types s.constantValue = some (.text a) ∧ Utf16.encode a = units

variable {lengths : Array Expr} {sigs : Signatures} {visible : Nat → Bool} {s s' : CheckState}
  {e left right : Expr} {type lt rt : TypeId} {place : Location} {v : Literal} {x : Scalar}
  {units units' : List UInt16} {c : Nat}

namespace CheckState

theorem Knows.extends (h : s.Knows e units) (he : e.Typed (s.env sigs visible))
    (hE : (s.env sigs visible).Extends (s'.env sigs visible)) : s'.Knows e units := by
  obtain ⟨a, ha, hunits⟩ := h
  exact ⟨a, (he.fold_extends hE).trans ha, hunits⟩

/-- A string whose value is known is what it spells. -/
theorem knows_of_fold (he : e.Typed (s.env sigs visible))
    (hσ : (s.env sigs visible).shape e.info = some (.string c))
    (hv : e.fold s.types s.constantValue = some v) : s.Knows e v.toValue.spelling := by
  obtain ⟨σ, hσ', hfit⟩ := he.fold_fits hv
  obtain rfl : σ = .string c := Option.some.inj (hσ'.symm.trans hσ)
  cases v with
  | text a => exact ⟨a, hv, rfl⟩
  | _ => cases hfit

/-- The sum of known strings is known. -/
theorem Knows.binary {a b d : Shape} (hl : left.Typed (s.env sigs visible))
    (hr : right.Typed (s.env sigs visible)) (ha : (s.env sigs visible).shape left.info = some a)
    (hb : (s.env sigs visible).shape right.info = some b) (hop : BinaryOp.add.Takes a b d)
    (hd : s.types.shape? type = some d) (h : s.Knows left units) (h' : s.Knows right units') :
    s.Knows (.binary ⟨place, some type⟩ .add left right) (units ++ units') := by
  obtain ⟨y, hy, rfl⟩ := h
  obtain ⟨z, hz, rfl⟩ := h'
  obtain ⟨σ, hσ, hfy⟩ := hl.fold_fits hy
  obtain rfl : σ = a := Option.some.inj (hσ.symm.trans ha)
  obtain ⟨τ, hτ, hfz⟩ := hr.fold_fits hz
  obtain rfl : τ = b := Option.some.inj (hτ.symm.trans hb)
  cases hop with
  | join =>
    refine ⟨y ++ z, ?_, Utf16.encode_append y z⟩
    rw [Expr.fold_binary rfl hd rfl, hy, hz]
    exact Literal.add_text hfy hfz
  | strings hcomparison => cases hcomparison
  | _ => cases hfy

end CheckState

namespace Checking

/-- **What is known is converted to a string that spells it.** -/
theorem knows_coerce (he : e.Typed (s.env sigs visible)) (ht : e.type? = some type)
    (htext : s.types.hasText type = true) (hx : s.types.shape? type = some (.scalar x))
    {expected : TypeId} {rule : Rule}
    (hσ : s.types.shape? expected = some (.string x.textCapacity))
    (hv : e.fold s.types s.constantValue = some v) :
    Ends (coerce e expected rule) s fun e' s' => s' = s ∧ s.Knows e' v.toValue.spelling := by
  obtain ⟨σ, hσ', hfit⟩ := he.fold_fits hv
  obtain rfl : σ = .scalar x :=
    Option.some.inj (hσ'.symm.trans (Env.shape_eq_some.2 ⟨type, ht, hx⟩))
  obtain ⟨a, ha, hunits⟩ := Literal.exists_cast_text hfit
  unfold coerce
  rw [ht]
  refine Ends.reads ?_
  dsimp only
  split
  next hanalog =>
    rw [TypeTable.shape?_of_isAnalog hanalog, hσ] at hx
    cases hx
  next =>
    refine Ends.seq (Ends.reads (Ends.value (Q := fun w s' => s' = s ∧ w = some v)
      ⟨rfl, hv⟩)) fun w s₁ h₁ => ?_
    obtain ⟨rfl, rfl⟩ := h₁
    split
    next hpointer => cases (TypeTable.shape?_of_pointee? hpointer).symm.trans hσ
    next =>
      rw [Option.bind_some, TypeTable.castLiteral_string (TypeTable.shape?_base hσ) htext, ha]
      exact Ends.value ⟨rfl, a, rfl, hunits⟩

/-- An operand of a sum that is known becomes a string that spells it. -/
theorem knows_stringify (hs : s.Sound lengths) (he : e.Typed (s.env sigs visible))
    (ht : e.type? = some type) : Ends (stringify place e type) s fun r s' =>
      ∀ v, e.fold s.types s.constantValue = some v → s'.Knows r.1 v.toValue.spelling := by
  suffices h : ∀ v, e.fold s.types s.constantValue = some v →
      Ends (stringify place e type) s fun r s' => s'.Knows r.1 v.toValue.spelling from
    fun r s' hrun v hv => h v hv r s' hrun
  intro v hv
  unfold stringify
  refine Ends.reads ?_
  dsimp only
  split
  next hstring =>
    obtain ⟨σ, hσ⟩ := he.exists_shape ht
    obtain ⟨c, rfl⟩ := TypeTable.shape?_of_isString hstring hσ
    exact Ends.value (CheckState.knows_of_fold he (Env.shape_eq_some.2 ⟨type, ht, hσ⟩) hv)
  next =>
    split
    · exact Ends.refused
    next capacity hcapacity =>
      obtain ⟨x, hx, rfl⟩ := hs.builtin.exists_scalar hcapacity
      refine (ends_stringOf hs _).seq fun target s₁ h₁ => ?_
      obtain ⟨-, hen, hσ⟩ := h₁
      refine (knows_coerce (he.extends hen.env) ht (hen.extends.hasText hx hcapacity)
        (hen.extends.shape? hx) hσ ((he.fold_extends hen.env).trans hv)).seq fun e' s₂ h₂ => ?_
      obtain ⟨rfl, hknows⟩ := h₂
      exact Ends.value hknows

/-- What is known of the operands of a sum is known of what becomes of them, and of the sum. -/
structure KnownSum (place : Location) (left right : Expr) (s : CheckState)
    (r : Expr × Expr × TypeId) (s' : CheckState) : Prop where
  first : ∀ v, left.fold s.types s.constantValue = some v → s'.Knows r.1 v.toValue.spelling
  second : ∀ w, right.fold s.types s.constantValue = some w → s'.Knows r.2.1 w.toValue.spelling
  sum : ∀ v w, left.fold s.types s.constantValue = some v →
    right.fold s.types s.constantValue = some w → s'.Knows
      (.binary ⟨place, some r.2.2⟩ .add r.1 r.2.1) (v.toValue.spelling ++ w.toValue.spelling)

/-- **A sum of known operands is known to be what they spell.** -/
theorem knows_stringSum (hs : s.Sound lengths) (hl : left.Typed (s.env sigs visible))
    (hr : right.Typed (s.env sigs visible)) (hlt : left.type? = some lt)
    (hrt : right.type? = some rt) :
    Ends (stringSum place left right lt rt) s (KnownSum place left right s) := by
  have hoperands : Ends (stringSum place left right lt rt) s fun r s' =>
      (∀ v, left.fold s.types s.constantValue = some v → s'.Knows r.1 v.toValue.spelling) ∧
      ∀ w, right.fold s.types s.constantValue = some w → s'.Knows r.2.1 w.toValue.spelling := by
    unfold stringSum
    refine Ends.seq ((ends_stringify hs hl hlt).both (knows_stringify hs hl hlt)) fun l s₁ h₁ => ?_
    obtain ⟨⟨hs₁, he₁, hl', -⟩, hleft⟩ := h₁
    have hr₁ := hr.extends he₁.env
    refine Ends.seq ((ends_stringify hs₁ hr₁ hrt).both (knows_stringify hs₁ hr₁ hrt)) fun r s₂ h₂ => Ends.reads ?_
    obtain ⟨⟨hs₂, he₂, hr', -⟩, hright⟩ := h₂
    dsimp only
    split
    · refine (ends_stringOf hs₂ _).seq fun t s₃ h₃ => ?_
      obtain ⟨-, he₃, -⟩ := h₃
      refine Ends.value ⟨fun v hv => ?_, fun w hw => ?_⟩
      · exact (hleft v hv).extends hl' (he₂.env.trans he₃.env)
      · exact (hright w ((hr.fold_extends he₁.env).trans hw)).extends hr' he₃.env
    · exact Ends.refused
  refine ((ends_stringSum hs hl hr hlt hrt).both hoperands).mono ?_
  rintro r s' ⟨⟨-, -, hl', hr', a, b, c, ha, hb, hop, hc⟩, hleft, hright⟩
  exact ⟨hleft, hright, fun v w hv hw => .binary hl' hr' ha hb hop hc (hleft v hv) (hright w hw)⟩

end Checking

/-! ## Programs -/

/-- **Sums of strings lose no characters.** -/
structure Program.Concatenates (p : Program) : Prop where
  /-- The text of every value has room where the value becomes a string. -/
  texts : p.types.TextsFit
  /-- Operands that are known when they are checked are joined whole. -/
  known : ∀ {lengths : Array Expr} {sigs : Signatures} {visible : Nat → Bool} {s s' : CheckState}
    {left right : Expr} {lt rt : TypeId} {place : Location} {r : Expr × Expr × TypeId},
    s.Sound lengths → left.Typed (s.env sigs visible) → right.Typed (s.env sigs visible) →
    left.type? = some lt → right.type? = some rt →
    (Checking.stringSum place left right lt rt).run s = .ok (r, s') →
      Checking.KnownSum place left right s r s'
  /-- The code of a tree of sums leaves what all its operands spell. -/
  sums : ∀ {number : Nat} {f : Function} {body : UserBody} {fields : List Slot},
    p.functions[number]? = some f → f.user? = some body →
    ∀ {e : Expr}, e ∈ Stmt.nodesAll body.statements → e.isSum = true → e.isCallFree = true →
    ∀ {t : TypeId} {c : Nat}, e.type? = some t → p.types.capacity? t = some c →
    ∀ {s s' : EmissionState} {code : List Piece},
    (Emission.load ⟨p, f, body, fields⟩ e).run s = .ok (code, s') →
    ∀ {m : Machine} {l : Link} (natives : Natives), m.Ready → m.Loaded l s' code →
    (∀ x ∈ e.reads ⟨p, f, body, fields⟩, m.Reaches l x.1 x.2) →
    m.HasRoom (e.room ⟨p, f, body, fields⟩) →
    ∀ {vs : List Value}, List.Forall₂
      (fun o v => o.eval ⟨p, f, body, fields⟩ (m.bytesAt l) = .ok v) e.summands vs →
    ∃ data, data.length = stringSize c ∧ decodeString data = vs.flatMap Value.spelling ∧
      m.Pushes (m.run natives (Piece.count code)) (Piece.count code) data

/-- **No sum of strings of an analysed program loses characters.** -/
theorem Program.concatenates_of_analyse {raw : Raw.Program} {p : Program}
    (h : analyse raw = .ok p) : p.Concatenates where
  texts := (builtin_of_analyse h).textsFit
  known hs hl hr hlt hrt hrun := Checking.knows_stringSum hs hl hr hlt hrt _ _ hrun
  sums := by
    intro number f body fields hf hbody e he hsum hfree t c ht hc s s' code hcode m l natives hm
      hload hplaces hroom vs hvs
    have htyped := Stmt.TypedAll.node _ ((analysed_of_analyse h).typed number f hf body hbody) he
    have hσ := TypeTable.capacity?_iff.1 hc
    have hplain := htyped.isPlain_of_isCallFree hfree (Env.shape_eq_some.2 ⟨t, ht, hσ⟩) rfl
    have hkeeps : e.KeepsText p.types := .of_root fun i o hcast => by
      subst hcast
      cases hsum
    have hjoins : ∀ n ∈ e.nodes, n.Joins p.types :=
      fun n hn => joins_of_analyse h hf hbody n (Stmt.nodesAll_trans _ he hn)
    exact htyped.pushes_sum ⟨rfl, rfl⟩ hplain (Env.shape_eq_some.2 ⟨t, ht, hσ⟩) hkeeps hjoins hcode
      hm hload hplaces hroom hvs

/-- A module whose function writes a number behind a title. -/
def Raw.Program.titled : Raw.Program :=
  let place : Location := default
  ⟨[], [], [], [⟨place, "M", "NODE", [], [⟨place, [], [⟨place, "TITLE", none,
    .user [⟨place, "N", .scalar .integer⟩] [.var place "S" none
      (some (.binary place .add (.text place "N: ") (.name place "N")))]⟩]⟩]⟩], []⟩

/-- What `Raw.Program.titled` means. -/
def Program.titled : Program := (analyse .titled).toOption.getD default

theorem Program.analyse_titled : analyse .titled = .ok titled := Checked.eq_ok (by decide +kernel)

/-- The body of `TITLE`. -/
def UserBody.titled : UserBody := ((Program.titled.functions[0]?).getD default).user?.getD default

/-- A machine with the code of `"N: " + N` at its start, the title behind it, and the least INTEGER
where `N` lies. -/
def Machine.titled : Machine where
  memory := ⟨((Record.of .LOAD 1 0 4 8 0).encode ++ (Record.of .CAST 5 8 4 30 0).encode ++
    (Record.of .LOAD 0 0 14 64 0).encode ++ (Record.of .ADD 8 0 14 30 36).encode ++
    (Value.ofText "N: ").encode 14 ++ List.replicate 58 0 ++ Word.ofInt 4 (-2147483648)).toArray⟩
  ip := 0
  sp := 128
  lp := 128
  entrySp := 128
  limit := 80
  event := .running
  printed := #[]

/-- The least INTEGER takes all of its eleven characters. -/
theorem Program.concatenates_of_analyse_titled : ∃ data,
    decodeString data = Utf16.encode "N: -2147483648" ∧
      Machine.titled.Pushes (Machine.titled.run .empty 4) 4 data := by
  let f : Function := (titled.functions[0]?).getD default
  let e : Expr := (Stmt.nodesAll UserBody.titled.statements)[0]?.getD default
  let l : Link := ⟨.empty, 64, 80⟩
  let code : List Piece := [.op (.load .frame 4 (.value 8)), .op (.cast .integer 4 .string 30),
    .op (.load .global 14 (.static 0)), .op (.binary .ADD .string 14 30 36)]
  let s' : EmissionState := ⟨.empty, ⟨[⟨"N: ", 3, 0⟩], 14⟩, [], []⟩
  have hf : titled.functions[0]? = some f := (Option.getD_of_ne_none (by decide +kernel) _).symm
  have hb : f.user? = some .titled := (Option.getD_of_ne_none (by decide +kernel) _).symm
  have he : e ∈ Stmt.nodesAll UserBody.titled.statements :=
    List.mem_of_getElem? (Option.getD_of_ne_none (by decide +kernel) _).symm
  have hcode : (Emission.load ⟨titled, f, .titled, []⟩ e).run ⟨.empty, .empty, [], []⟩ =
    .ok (code, s') := by decide +kernel
  have hload : Machine.titled.Loaded l s' code :=
    ⟨by decide +kernel, by decide +kernel, by decide +kernel⟩
  have hvs : List.Forall₂
      (fun o v => o.eval ⟨titled, f, .titled, []⟩ (Machine.titled.bytesAt l) = .ok v)
      e.summands [.ofText "N: ", .integral (-2147483648)] :=
    by decide +kernel
  obtain ⟨data, -, hdata, hpush⟩ := (concatenates_of_analyse analyse_titled).sums hf hb he
    (by decide +kernel) (by decide +kernel) (t := 9) (c := 14) (by decide +kernel)
    (by decide +kernel) hcode .empty
    ⟨rfl, by decide +kernel, by decide +kernel⟩ hload (by decide +kernel) (by decide +kernel) hvs
  exact ⟨data, hdata.trans (by decide +kernel), hpush⟩

end ChannelBasic
