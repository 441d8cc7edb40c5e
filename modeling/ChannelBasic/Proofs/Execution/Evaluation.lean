import ChannelBasic.Proofs.Emission.Code
import ChannelBasic.Proofs.Typing.Program

/-!
# Proofs/Execution/Evaluation — what an expression comes to

`e.eval ctx read` is the value of an expression, computed along its tree, the right operand of an
operator before the left one; `read` knows the bytes of places, and every result is cut to what its
own type can hold.  An expression with the right types **has a value of its type or divides by
zero** (`Typed.eval_of`).  `e.bytes ctx read` are the bytes that stand for the value: what lies at a
place as it lies there, and anything else as it is written.
-/

namespace ChannelBasic

open Code

namespace EmissionContext

/-- Bytes of the type of a node. -/
def size? (ctx : EmissionContext) (i : Info) : Option Nat := i.type.bind ctx.program.types.size?

/-- How instructions name the type of a node. -/
def kind (ctx : EmissionContext) (i : Info) : ValueType :=
  (i.type.map ctx.program.types.valueType).getD .unknown

/-- What is left of a value in the type of a node. -/
def fit (ctx : EmissionContext) (i : Info) (v : Value) : Except Fault Value :=
  match ctx.size? i with
  | some n => .ok (v.truncate n)
  | none => .error .badInstruction

/-- The value that lies at a place. -/
def stored (ctx : EmissionContext) (read : Place → Nat → List UInt8) (i : Info) :
    Option Place → Except Fault Value
  | some place =>
    match ctx.size? i with
    | some n => Value.decode (ctx.kind i) (read place n)
    | none => .error .badInstruction
  | none => .error .badInstruction

end EmissionContext

/-- What an operator makes of its operand. -/
def UnaryOp.apply : UnaryOp → Value → Except Fault Value
  | .plus, v => .ok v
  | .minus, v => v.negate
  | .not, v => v.complement

/-- What an operator makes of its operands. -/
def BinaryOp.apply (op : BinaryOp) (l r : Value) : Except Fault Value :=
  match op.comparison?, op.opcode? with
  | some c, _ => (Value.compare c l r).map .boolean
  | none, some code => Value.binary code l r
  | none, none => .error .badInstruction

namespace Expr

/-- Neither calls nor addresses occur in the expression. -/
@[grind =] def isPlain : Expr → Bool
  | .literal _ _ | .name _ _ _ => true
  | .member _ target _ _ => target.isPlain
  | .unary _ _ operand | .cast _ operand => operand.isPlain
  | .binary _ _ left right => left.isPlain && right.isPlain
  | .call .. | .pointer .. => false

/-- The value of an expression without calls and addresses. -/
@[grind =] def eval (ctx : EmissionContext) (read : Place → Nat → List UInt8) :
    Expr → Except Fault Value
  | .literal i v => ctx.fit i v.toValue
  | .name i _ (some (.constant k)) =>
    match ctx.program.constantValue k with
    | some v => ctx.fit i v.toValue
    | none => .error .badInstruction
  | .name i title decl => ctx.stored read i (ctx.place? (.name i title decl))
  | .member i target field decl => ctx.stored read i (ctx.place? (.member i target field decl))
  | .unary i op operand => do ctx.fit i (← op.apply (← operand.eval ctx read))
  | .binary i op left right => do
    let r ← right.eval ctx read
    let l ← left.eval ctx read
    ctx.fit i (← op.apply l r)
  | .cast i operand => do ctx.fit i (← (← operand.eval ctx read).cast (ctx.kind i))
  | .call .. | .pointer .. => .error .badInstruction

/-- The bytes that stand for the value of an expression. -/
@[grind =] def bytes (ctx : EmissionContext) (read : Place → Nat → List UInt8) :
    Expr → Except Fault (List UInt8)
  | .unary _ .plus operand => operand.bytes ctx read
  | e =>
    match ctx.place? e, ctx.size? e.info with
    | some place, some n => .ok (read place n)
    | none, some n => (e.eval ctx read).map (·.encode n)
    | _, none => .error .badInstruction

/-- The places that an expression reads, with their sizes. -/
@[grind =] def reads (ctx : EmissionContext) : Expr → List (Place × Nat)
  | .name i title decl =>
    ((ctx.place? (.name i title decl)).bind fun place =>
      (ctx.size? i).map fun n => (place, n)).toList
  | .member i target field decl =>
    ((ctx.place? (.member i target field decl)).bind fun place =>
      (ctx.size? i).map fun n => (place, n)).toList
  | .unary _ _ operand | .cast _ operand => operand.reads ctx
  | .binary _ _ left right => right.reads ctx ++ left.reads ctx
  | .literal .. | .call .. | .pointer .. => []

/-- The most bytes of the stack that are in use while an expression is computed. -/
@[grind =] def room (ctx : EmissionContext) : Expr → Nat
  | .unary _ _ operand => operand.room ctx
  | .binary i _ left right =>
    max (right.room ctx)
      (max ((ctx.size? right.info).getD 0 + left.room ctx) ((ctx.size? i).getD 0))
  | .cast i operand => max (operand.room ctx) ((ctx.size? i).getD 0)
  | e => (ctx.size? e.info).getD 0

end Expr

/-! ## Types and sizes -/

theorem EmissionContext.Types.size?_eq {ctx : EmissionContext} {e : Expr} {kind : ValueType}
    {n : Nat} (h : ctx.Types e kind n) : ctx.size? e.info = some n := by
  obtain ⟨t, ht, -, hn⟩ := h
  have ht' : e.info.type = some t := ht
  rw [size?, ht', Option.bind_some, hn]

/-- Types and constants are those of the program that code is emitted for. -/
structure Env.For (Γ : Env) (ctx : EmissionContext) : Prop where
  types : Γ.types = ctx.program.types
  constant : Γ.constant = ctx.program.constantValue

namespace Env.For

variable {Γ : Env} {ctx : EmissionContext} {i : Info} {σ : Shape} {e : Expr} {kind : ValueType}
  {n : Nat}

theorem kind_eq (hΓ : Γ.For ctx) (hσ : Γ.shape i = some σ) : ctx.kind i = σ.kind := by
  obtain ⟨t, ht, hσ⟩ := Env.shape_eq_some.1 hσ
  rw [hΓ.types] at hσ
  rw [EmissionContext.kind, ht]
  exact TypeTable.valueType_eq hσ

theorem size?_eq (hΓ : Γ.For ctx) (hσ : Γ.shape i = some σ) :
    ctx.size? i = σ.size? ctx.program.types.structSizes := by
  obtain ⟨t, ht, hσ⟩ := Env.shape_eq_some.1 hσ
  rw [hΓ.types] at hσ
  rw [EmissionContext.size?, ht, Option.bind_some, TypeTable.size?_eq, hσ, Option.bind_some]

/-- What instructions say about the type of an expression is what its shape says. -/
theorem types_eq (hΓ : Γ.For ctx) (hσ : Γ.shape e.info = some σ) (h : ctx.Types e kind n) :
    kind = σ.kind ∧ σ.size? ctx.program.types.structSizes = some n := by
  have hsize := h.size?_eq
  rw [hΓ.size?_eq hσ] at hsize
  obtain ⟨t, ht, rfl, hn⟩ := h
  have hkind := hΓ.kind_eq hσ
  have ht' : e.info.type = some t := ht
  rw [EmissionContext.kind, ht'] at hkind
  exact ⟨hkind, hsize⟩

end Env.For

/-! ## Values of their types -/

namespace Value

variable {σ : Shape} {v : Value} {sizes : List (Nat × Nat)} {n : Nat} {bs : List UInt8}

/-- What has been read from bytes of a type's size loses nothing in them. -/
theorem truncate_decode (hn : σ.size? sizes = some n) (hlen : bs.length = n)
    (h : decode σ.kind bs = .ok v) : v.truncate n = v := by
  have number (s : Scalar) (hs : s.size = n) :
      (Value.integral (Word.read bs)).truncate n = .integral (Word.read bs) := by
    have hle : n ≤ 8 := hs ▸ s.size_le_eight
    have hint : (Word.read bs).toInt = Int.bmod (Word.unsigned bs) (256 ^ n) := by
      rw [Word.toInt_read (by omega), Word.signed, Word.span_eq, hlen]
    refine congrArg Value.integral (Int64.toInt_inj.1 ?_)
    rw [Word.toInt_wrap hle, hint, Int.bmod_bmod]
  cases σ with
  | scalar s =>
    have hs : s.size = n := by simpa [Shape.size?] using hn
    cases s with
    | boolean => obtain rfl := Except.ok.inj h; rfl
    | real => obtain rfl := Except.ok.inj h; rfl
    | _ => obtain rfl := Except.ok.inj h; exact number _ hs
  | string c =>
    obtain rfl : stringSize c = n := by simpa [Shape.size?] using hn
    unfold decode Shape.kind at h
    dsimp only at h
    split at h
    · cases h
    · obtain rfl := Except.ok.inj h
      rw [truncate, decodeString, hlen, List.take_of_length_le]
      exact (List.length_take_le _ _).trans (min_le_right _ _)
  | pointer =>
    obtain rfl := Except.ok.inj h
    exact number .integer (by simpa [Shape.size?, Scalar.size] using hn)
  | struct k => cases h

end Value

theorem UnaryOp.apply_of_takes {op : UnaryOp} {σ : Shape} {v : Value} (hop : op.Takes σ)
    (hv : v.Of σ) : ∃ w, op.apply v = .ok w ∧ w.Of σ := by
  cases op with
  | plus => exact ⟨v, rfl, hv⟩
  | minus => exact Value.negate_of hop hv
  | not => exact Value.complement_of hop hv

theorem BinaryOp.apply_of_takes {op : BinaryOp} {a b c : Shape} {l r : Value}
    (hop : op.Takes a b c) (hl : l.Of a) (hr : r.Of b) :
    (∃ w, op.apply l r = .ok w ∧ w.Of c) ∨ op.apply l r = .error .divisionByZero := by
  unfold apply
  obtain ⟨k, hk⟩ | ⟨hk, code, hcode⟩ := Value.operation_or_comparison op
  · obtain ⟨rfl, answer, ha⟩ := Value.compare_of_takes hop hk hl hr
    refine .inl ⟨.boolean answer, ?_, trivial⟩
    simp only [hk, ha]
    rfl
  · simp only [hk, hcode]
    exact Value.binary_of_takes hop hcode hl hr

namespace Expr

variable {Γ : Env} {ctx : EmissionContext} {z : EmissionState} {read : Place → Nat → List UInt8}
  {e : Expr} {σ : Shape} {v w : Value} {data : List UInt8} {code : List Piece} {n : Nat}

/-- An expression comes to a value of a shape, which some bytes stand for. -/
structure Yields (ctx : EmissionContext) (read : Place → Nat → List UInt8) (e : Expr) (σ : Shape)
    (v : Value) (data : List UInt8) : Prop where
  eval : e.eval ctx read = .ok v
  bytes : e.bytes ctx read = .ok data
  length : ctx.size? e.info = some data.length
  decode : Value.decode σ.kind data = .ok v
  of : v.Of σ

/-- An expression divides by zero. -/
structure Divides (ctx : EmissionContext) (read : Place → Nat → List UInt8) (e : Expr) : Prop where
  eval : e.eval ctx read = .error .divisionByZero
  bytes : e.bytes ctx read = .error .divisionByZero

/-- An expression whose value is written out, being neither a place nor what stands after a
plus. -/
def isWritten (ctx : EmissionContext) (e : Expr) : Prop :=
  ctx.place? e = none ∧ ∀ i o, e ≠ .unary i .plus o

theorem bytes_of_isWritten (h : e.isWritten ctx) (hn : ctx.size? e.info = some n) :
    e.bytes ctx read = (e.eval ctx read).map (·.encode n) := by
  obtain ⟨hplace, hplus⟩ := h
  unfold bytes
  split
  next i o => exact absurd rfl (hplus i o)
  next => simp only [hplace, hn]

/-- What is cut to the type of a node and written out yields a value. -/
theorem yields_of_isWritten (h : e.isWritten ctx) (hn : ctx.size? e.info = some n)
    (hσ : σ.size? ctx.program.types.structSizes = some n) (hlt : n < 2 ^ 31) (hw : w.Of σ)
    (heval : e.eval ctx read = ctx.fit e.info w) :
    e.Yields ctx read σ (w.truncate n) (w.encode n) := by
  have heval' : e.eval ctx read = .ok (w.truncate n) := by rw [heval, EmissionContext.fit, hn]
  refine ⟨heval', ?_, ?_, Value.decode_encode hσ hlt hw, Value.truncate_of hw⟩
  · rw [bytes_of_isWritten h hn, heval']
    exact congrArg Except.ok (Value.encode_truncate hσ hw)
  · rw [hn, Value.length_encode hσ hw]

theorem divides_of_isWritten (h : e.isWritten ctx) (hn : ctx.size? e.info = some n)
    (heval : e.eval ctx read = .error .divisionByZero) : e.Divides ctx read :=
  ⟨heval, by rw [bytes_of_isWritten h hn, heval]; rfl⟩

/-- What lies at a place is its own value. -/
theorem yields_of_place {place : Place} (hΓ : Γ.For ctx) (hσ : Γ.shape e.info = some σ)
    (hval : σ.isValue = true) (hplace : ctx.place? e = some place)
    (hn : ctx.size? e.info = some n) (hplus : ∀ i o, e ≠ .unary i .plus o)
    (heval : e.eval ctx read = ctx.stored read e.info (ctx.place? e))
    (hread : (read place n).length = n) : ∃ v, e.Yields ctx read σ v (read place n) := by
  have hsize := hΓ.size?_eq hσ
  rw [hn] at hsize
  have hheader (c : Nat) (hc : σ = .string c) : stringHeader ≤ (read place n).length := by
    subst hc
    obtain rfl : n = stringSize c := by simpa [Shape.size?] using hsize
    rw [hread]
    exact stringHeader_le_stringSize c
  obtain ⟨v, hv, hof⟩ := Value.decode_of hval hheader
  refine ⟨v, ?_, ?_, by rw [hn, hread], hv, hof⟩
  · rw [heval, hplace]
    simp only [EmissionContext.stored, hn]
    rw [hΓ.kind_eq hσ, hv]
  · unfold bytes
    split
    next i o => exact absurd rfl (hplus i o)
    next => simp only [hplace, hn]

/-! ## Operators -/

section Operators

variable {i : Info} {op : UnaryOp} {op' : BinaryOp} {operand left right : Expr} {τ a b : Shape}
  {l r : Value} {ldata rdata : List UInt8}

theorem yields_unary (hv : operand.Yields ctx read σ v data) (hop : op.Takes σ)
    (hplus : op ≠ .plus) (hn : ctx.size? i = some n)
    (hσ : σ.size? ctx.program.types.structSizes = some n) (hlt : n < 2 ^ 31) :
    ∃ w, op.apply v = .ok w ∧ w.Of σ ∧
      (Expr.unary i op operand).Yields ctx read σ (w.truncate n) (w.encode n) := by
  obtain ⟨w, hw, hof⟩ := UnaryOp.apply_of_takes hop hv.of
  refine ⟨w, hw, hof, yields_of_isWritten ⟨rfl, by simp [hplus]⟩ hn hσ hlt hof ?_⟩
  simp only [eval, hv.eval]
  change (op.apply v >>= ctx.fit i) = _
  rw [hw]
  rfl

/-- A plus changes nothing, and what is already of a type loses nothing in it. -/
theorem yields_plus (hv : operand.Yields ctx read σ v data) (hn : ctx.size? i = some data.length)
    (hσ : σ.size? ctx.program.types.structSizes = some data.length) :
    (Expr.unary i .plus operand).Yields ctx read σ v data := by
  refine ⟨?_, hv.bytes, hn, hv.decode, hv.of⟩
  simp only [eval, hv.eval]
  change ctx.fit i v = _
  rw [EmissionContext.fit, hn]
  exact congrArg Except.ok (Value.truncate_decode hσ rfl hv.decode)

theorem divides_unary (hd : operand.Divides ctx read) (hn : ctx.size? i = some n) :
    (Expr.unary i op operand).Divides ctx read := by
  have heval : (Expr.unary i op operand).eval ctx read = .error .divisionByZero := by
    simp only [eval, hd.eval]
    rfl
  by_cases hplus : op = .plus
  · subst hplus
    exact ⟨heval, hd.bytes⟩
  · exact divides_of_isWritten ⟨rfl, by simp [hplus]⟩ hn heval

theorem yields_binary (hl : left.Yields ctx read a l ldata) (hr : right.Yields ctx read b r rdata)
    (hop : op'.Takes a b σ) (hn : ctx.size? i = some n)
    (hσ : σ.size? ctx.program.types.structSizes = some n) (hlt : n < 2 ^ 31) :
    (∃ w, op'.apply l r = .ok w ∧ w.Of σ ∧
      (Expr.binary i op' left right).Yields ctx read σ (w.truncate n) (w.encode n)) ∨
    op'.apply l r = .error .divisionByZero ∧ (Expr.binary i op' left right).Divides ctx read := by
  have heval : (Expr.binary i op' left right).eval ctx read = op'.apply l r >>= ctx.fit i := by
    simp only [eval, hr.eval, hl.eval]
    rfl
  obtain ⟨w, hw, hof⟩ | hdiv := BinaryOp.apply_of_takes hop hl.of hr.of
  · refine .inl ⟨w, hw, hof, yields_of_isWritten ⟨rfl, by simp⟩ hn hσ hlt hof ?_⟩
    rw [heval, hw]
    rfl
  · refine .inr ⟨hdiv, divides_of_isWritten ⟨rfl, by simp⟩ hn ?_⟩
    rw [heval, hdiv]
    rfl

theorem divides_binary_right (hd : right.Divides ctx read) (hn : ctx.size? i = some n) :
    (Expr.binary i op' left right).Divides ctx read := by
  refine divides_of_isWritten ⟨rfl, by simp⟩ hn ?_
  simp only [eval, hd.eval]
  rfl

theorem divides_binary_left (hr : right.Yields ctx read b r rdata) (hd : left.Divides ctx read)
    (hn : ctx.size? i = some n) : (Expr.binary i op' left right).Divides ctx read := by
  refine divides_of_isWritten ⟨rfl, by simp⟩ hn ?_
  simp only [eval, hr.eval, hd.eval]
  rfl

theorem yields_cast (hΓ : Γ.For ctx) (hv : operand.Yields ctx read τ v data) (hc : τ.Converts σ)
    (hi : Γ.shape i = some σ) (hσ : σ.size? ctx.program.types.structSizes = some n)
    (hlt : n < 2 ^ 31) : ∃ w, v.cast σ.kind = .ok w ∧ w.Of σ ∧
      (Expr.cast i operand).Yields ctx read σ (w.truncate n) (w.encode n) := by
  obtain ⟨w, hw, hof⟩ := Value.cast_of_converts hc hv.of
  have hn : ctx.size? i = some n := (hΓ.size?_eq hi).trans hσ
  refine ⟨w, hw, hof, yields_of_isWritten ⟨rfl, by simp⟩ hn hσ hlt hof ?_⟩
  simp only [eval, hv.eval, hΓ.kind_eq hi]
  change (v.cast σ.kind >>= ctx.fit i) = _
  rw [hw]
  rfl

theorem divides_cast (hd : operand.Divides ctx read) (hn : ctx.size? i = some n) :
    (Expr.cast i operand).Divides ctx read := by
  refine divides_of_isWritten ⟨rfl, by simp⟩ hn ?_
  simp only [eval, hd.eval]
  rfl

end Operators

/-! ## Expressions -/

/-- The value of an expression is among what its computation needs room for. -/
theorem Typed.size_le_room (hΓ : Γ.For ctx) (h : e.Typed Γ) (hσ : Γ.shape e.info = some σ)
    (hn : ctx.size? e.info = some n) : n ≤ e.room ctx := by
  induction e using Expr.induct generalizing σ with
  | unary i op operand ih =>
    obtain ⟨ho, τ, hτ, -, hi⟩ := h
    exact ih ho hτ (by rwa [hΓ.size?_eq hτ, ← hΓ.size?_eq hi])
  | binary i op left right _ _ =>
    have hi : ctx.size? i = some n := hn
    simp [room, hi]
  | cast i operand _ =>
    have hi : ctx.size? i = some n := hn
    simp [room, hi]
  | _ => simp [room, hn]

/-- A value has a size, for which there is room. -/
theorem Typed.exists_size (hΓ : Γ.For ctx) (h : e.Typed Γ) (hσ : Γ.shape e.info = some σ)
    (hval : σ.isValue = true) : ∃ n, σ.size? ctx.program.types.structSizes = some n ∧
      ctx.size? e.info = some n ∧ n ≤ e.room ctx := by
  obtain ⟨n, hsize⟩ := Shape.exists_size?_of_isValue hval ctx.program.types.structSizes
  have hn : ctx.size? e.info = some n := (hΓ.size?_eq hσ).trans hsize
  exact ⟨n, hsize, hn, h.size_le_room hΓ hσ hn⟩

/-- **An expression with the right types has a value of its type or divides by zero.** -/
theorem Typed.yields_or_divides (hΓ : Γ.For ctx) (h : e.Typed Γ) (hp : e.isPlain = true)
    (hσ : Γ.shape e.info = some σ) (hval : σ.isValue = true) (hcode : e.Loads ctx z code)
    (hread : ∀ place n, (place, n) ∈ e.reads ctx → (read place n).length = n)
    (hroom : e.room ctx < 2 ^ 31) :
    (∃ v data, e.Yields ctx read σ v data) ∨ e.Divides ctx read := by
  induction e using Expr.induct generalizing σ code with
  | literal i l =>
    obtain ⟨n, hsize, hn, hle⟩ := h.exists_size hΓ hσ hval
    obtain ⟨τ, hτ, hfit⟩ := h
    obtain rfl : τ = σ := Option.some.inj (hτ.symm.trans hσ)
    exact .inl ⟨_, _, yields_of_isWritten ⟨rfl, by simp⟩ hn hsize (hle.trans_lt hroom)
      (Literal.toValue_of hfit) rfl⟩
  | name i title decl =>
    obtain ⟨n, hsize, hn, hle⟩ := h.exists_size hΓ hσ hval
    have hi : ctx.size? i = some n := hn
    have place (hplace : ∃ kind n place, ctx.Types (.name i title decl) kind n ∧
        ctx.place? (.name i title decl) = some place ∧ code = [.op (place.load n)])
        (heval : (Expr.name i title decl).eval ctx read =
          ctx.stored read i (ctx.place? (.name i title decl))) :
        (∃ v data, (Expr.name i title decl).Yields ctx read σ v data) ∨
          (Expr.name i title decl).Divides ctx read := by
      obtain ⟨-, -, place, -, hplace, -⟩ := hplace
      obtain ⟨v, hv⟩ := yields_of_place hΓ hσ hval hplace hn (by simp) heval
        (hread place n (by simp [reads, hplace, hi]))
      exact .inl ⟨v, _, hv⟩
    match decl, h with
    | some (.constant k), ⟨τ, l, hτ, hl, hfit⟩ =>
      obtain rfl : τ = σ := Option.some.inj (hτ.symm.trans hσ)
      rw [hΓ.constant] at hl
      refine .inl ⟨_, _, yields_of_isWritten ⟨rfl, by simp⟩ hn hsize (hle.trans_lt hroom)
        (Literal.toValue_of hfit) ?_⟩
      simp only [eval, hl]
      rfl
    | some (.localVar _), _ => exact place hcode rfl
    | some (.argument _), _ => exact place hcode rfl
    | some (.dataField _), _ => exact place hcode rfl
  | member i target field decl _ =>
    obtain ⟨n, -, hn, -⟩ := h.exists_size hΓ hσ hval
    have hi : ctx.size? i = some n := hn
    obtain ⟨-, -, place, -, hplace, -⟩ := hcode
    obtain ⟨v, hv⟩ := yields_of_place hΓ hσ hval hplace hn (by simp) rfl
      (hread place n (by simp [reads, hplace, hi]))
    exact .inl ⟨v, _, hv⟩
  | call i f arguments c _ => cases hp
  | unary i op operand ih =>
    obtain ⟨n, hsize, hn, hle⟩ := h.exists_size hΓ hσ hval
    obtain ⟨ho, τ, hτ, hop, hi⟩ := h
    obtain rfl : τ = σ := Option.some.inj (hi.symm.trans hσ)
    obtain ⟨-, -, first, hfirst, -, -⟩ := hcode
    obtain ⟨v, data, hv⟩ | hd := ih ho hp hτ hval hfirst hread hroom
    · by_cases hplus : op = .plus
      · subst hplus
        have hlen : data.length = n := by
          have := hv.length
          rw [hΓ.size?_eq hτ, hsize] at this
          exact (Option.some.inj this).symm
        exact .inl ⟨v, data, yields_plus hv (hlen ▸ hn) (hlen ▸ hsize)⟩
      · obtain ⟨w, -, -, hw⟩ := yields_unary hv hop hplus hn hsize (hle.trans_lt hroom)
        exact .inl ⟨_, _, hw⟩
    · exact .inr (divides_unary hd hn)
  | binary i op left right ihl ihr =>
    obtain ⟨n, hsize, hn, hle⟩ := h.exists_size hΓ hσ hval
    obtain ⟨hl, hr, a, b, c, ha, hb, hop, hi⟩ := h
    obtain rfl : c = σ := Option.some.inj (hi.symm.trans hσ)
    obtain ⟨-, -, -, -, first, second, -, -, -, hfirst, hsecond, -, -⟩ := hcode
    obtain ⟨hpl, hpr⟩ := Bool.and_eq_true_iff.1 hp
    obtain ⟨hva, hvb, -⟩ := Shape.isValue_of_binary hop
    have hlt := hle.trans_lt hroom
    simp only [room, max_lt_iff] at hroom
    obtain ⟨r, rdata, hyr⟩ | hd := ihr hr hpr hb hvb hfirst
      (fun place n hmem => hread place n (by simp [reads, hmem])) hroom.1
    · obtain ⟨l, ldata, hyl⟩ | hd := ihl hl hpl ha hva hsecond
        (fun place n hmem => hread place n (by simp [reads, hmem])) (by omega)
      · obtain ⟨w, -, -, hw⟩ | ⟨-, hd⟩ := yields_binary hyl hyr hop hn hsize hlt
        · exact .inl ⟨_, _, hw⟩
        · exact .inr hd
      · exact .inr (divides_binary_left hyr hd hn)
    · exact .inr (divides_binary_right hd hn)
  | cast i operand ih =>
    obtain ⟨n, hsize, hn, hle⟩ := h.exists_size hΓ hσ hval
    obtain ⟨ho, -, τ, τ', hτ, hi, hconv⟩ := h
    obtain rfl : τ' = σ := Option.some.inj (hi.symm.trans hσ)
    obtain ⟨-, -, -, -, first, hfirst, -, -, -⟩ := hcode
    have hlt := hle.trans_lt hroom
    simp only [room, max_lt_iff] at hroom
    obtain ⟨v, data, hv⟩ | hd := ih ho hp hτ (Shape.isValue_of_converts hconv).1 hfirst hread
      hroom.1
    · obtain ⟨w, -, -, hw⟩ := yields_cast hΓ hv hconv hi hsize hlt
      exact .inl ⟨_, _, hw⟩
    · exact .inr (divides_cast hd hn)
  | pointer i target temp _ => cases hp

end Expr

end ChannelBasic
