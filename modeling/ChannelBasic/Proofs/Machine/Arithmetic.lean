import Mathlib.Algebra.Order.Ring.Abs
import Mathlib.Data.Int.Bitwise
import Mathlib.Data.Int.ModEq
import ChannelBasic.Proofs.Execution.Counting
import ChannelBasic.Proofs.Machine.Safety
import ChannelBasic.Proofs.Types.Shape

/-!
# Proofs/Machine/Arithmetic — whole numbers are computed in two's complement of their width

Operands are read with their sign into 64 bits, computed there, and cut to their width when the
result is pushed.  Each operation of the machine therefore comes to what it would come to on numbers
without a width, cut once: cutting to 64 bits first makes no difference, because 64 is a multiple of
every width.  Division is the one operation that is no such image of an operation without width: of
the quotient only the width is kept, and the remainder always fits.

**An operation on whole numbers of a width pushes the representative of the exact result**
(`Machine.arithmetic_of_isIntegral`).
-/

namespace BitVec

variable {w : Nat} {x y : BitVec w}

/-! ## Signed numbers, bit by bit -/

theorem toInt_of_msb (h : x.msb = true) : x.toInt = Int.negSucc (~~~x).toNat := by
  have hlt := x.isLt
  rw [toInt_eq_msb_cond, if_pos h, toNat_not]
  omega

theorem toInt_of_not_msb (h : x.msb = false) : x.toInt = Int.ofNat x.toNat := by
  rw [toInt_eq_msb_cond, h]
  rfl

/-- Taking away the bits of a complement is taking bits together. -/
theorem toNat_and_eq_ldiff (x y : BitVec w) :
    (x &&& y).toNat = Nat.ldiff x.toNat (~~~y).toNat := by
  refine Nat.eq_of_testBit_eq fun i => ?_
  rw [Nat.testBit_ldiff, testBit_toNat, testBit_toNat, testBit_toNat, getLsbD_and, getLsbD_not]
  by_cases h : i < w
  · simp [h]
  · simp [getLsbD_of_ge x i (by omega)]

theorem toInt_and_eq_land (x y : BitVec w) : (x &&& y).toInt = Int.land x.toInt y.toInt := by
  cases hx : x.msb <;> cases hy : y.msb
  · rw [toInt_of_not_msb hx, toInt_of_not_msb hy, toInt_of_not_msb (by simp [hx]), toNat_and]
    rfl
  · rw [toInt_of_not_msb hx, toInt_of_msb hy, toInt_of_not_msb (by simp [hx]), toNat_and_eq_ldiff]
    rfl
  · rw [toInt_of_msb hx, toInt_of_not_msb hy, toInt_of_not_msb (by simp [hy]), and_comm,
      toNat_and_eq_ldiff]
    rfl
  · rw [toInt_of_msb hx, toInt_of_msb hy, toInt_of_msb (by simp [hx, hy]), not_and, toNat_or]
    rfl

theorem toInt_not_eq_lnot (hw : 0 < w) (x : BitVec w) : (~~~x).toInt = Int.lnot x.toInt := by
  cases hx : x.msb
  · rw [toInt_of_not_msb hx, toInt_of_msb (by simp [hx, hw]), not_not]
    rfl
  · rw [toInt_of_msb hx, toInt_of_not_msb (by simp [hx])]
    rfl

theorem toInt_or_eq_lor (x y : BitVec w) : (x ||| y).toInt = Int.lor x.toInt y.toInt := by
  cases hx : x.msb <;> cases hy : y.msb
  · rw [toInt_of_not_msb hx, toInt_of_not_msb hy, toInt_of_not_msb (by simp [hx, hy]), toNat_or]
    rfl
  · rw [toInt_of_not_msb hx, toInt_of_msb hy, toInt_of_msb (by simp [hy]), not_or, and_comm,
      toNat_and_eq_ldiff, not_not]
    rfl
  · rw [toInt_of_msb hx, toInt_of_not_msb hy, toInt_of_msb (by simp [hx]), not_or,
      toNat_and_eq_ldiff, not_not]
    rfl
  · rw [toInt_of_msb hx, toInt_of_msb hy, toInt_of_msb (by simp [hx]), not_or, toNat_and]
    rfl

theorem toInt_xor_eq_xor (x y : BitVec w) : (x ^^^ y).toInt = Int.xor x.toInt y.toInt := by
  cases hx : x.msb <;> cases hy : y.msb
  · rw [toInt_of_not_msb hx, toInt_of_not_msb hy, toInt_of_not_msb (by simp [hx, hy]), toNat_xor]
    rfl
  · rw [toInt_of_not_msb hx, toInt_of_msb hy, toInt_of_msb (by simp [hx, hy]), not_xor_right,
      toNat_xor]
    rfl
  · rw [toInt_of_msb hx, toInt_of_not_msb hy, toInt_of_msb (by simp [hx, hy]), not_xor_left,
      toNat_xor]
    rfl
  · have hnot : x ^^^ y = ~~~x ^^^ ~~~y := by rw [← not_xor_left, ← not_xor_right, not_not]
    rw [toInt_of_msb hx, toInt_of_msb hy, toInt_of_not_msb (by simp [hx, hy]), hnot, toNat_xor]
    rfl

end BitVec

namespace ChannelBasic

open Code

/-! ## Operations on numbers without a width -/

namespace Code.Opcode

/-- What an operation makes of two whole numbers that have no width. -/
def ofIntegers? : Opcode → Option (Int → Int → Int)
  | .ADD => some (· + ·)
  | .SUB => some (· - ·)
  | .MUL => some (· * ·)
  | .AND => some Int.land
  | .OR => some Int.lor
  | .XOR => some Int.xor
  | _ => none

/-- What an operation makes of one whole number that has no width. -/
def ofOneInteger? : Opcode → Option (Int → Int)
  | .NEG => some Neg.neg
  | .NOT => some Int.lnot
  | _ => none

theorem isBinary_of_ofIntegers? {op : Opcode} {f : Int → Int → Int} (h : op.ofIntegers? = some f) :
    op.isBinary = true := by
  cases op <;> first | rfl | cases h

end Code.Opcode

theorem Int64.bmod_toInt (n : Int64) : Int.bmod n.toInt Int64.size = n.toInt :=
  Int.bmod_eq_of_le (by have := n.le_toInt; have : Int64.size = 2 ^ 64 := rfl; omega)
    (by have := n.toInt_lt; have : Int64.size = 2 ^ 64 := rfl; omega)

namespace Value

variable {op : Opcode} {l r : Int64}

/-- **In 64 bits an operation comes to the representative of its exact result.** -/
theorem integralBinary_of_ofIntegers? {f : Int → Int → Int} (h : op.ofIntegers? = some f)
    (l r : Int64) :
    ∃ n, integralBinary op l r = .ok n ∧
      n.toInt = Int.bmod (f l.toInt r.toInt) Int64.size := by
  have bitwise {n : Int64} {x : Int} (hn : n.toInt = x) : n.toInt = Int.bmod x Int64.size := by
    rw [← hn, Int64.bmod_toInt]
  cases op <;> cases h
  case ADD => exact ⟨l + r, rfl, Int64.toInt_add l r⟩
  case SUB => exact ⟨l - r, rfl, Int64.toInt_sub l r⟩
  case MUL => exact ⟨l * r, rfl, Int64.toInt_mul l r⟩
  case AND => exact ⟨l &&& r, rfl, bitwise (BitVec.toInt_and_eq_land l.toBitVec r.toBitVec)⟩
  case OR => exact ⟨l ||| r, rfl, bitwise (BitVec.toInt_or_eq_lor l.toBitVec r.toBitVec)⟩
  case XOR => exact ⟨l ^^^ r, rfl, bitwise (BitVec.toInt_xor_eq_xor l.toBitVec r.toBitVec)⟩

theorem integralBinary_div (h : r.toInt ≠ 0) :
    ∃ n, integralBinary .DIV l r = .ok n ∧
      n.toInt = Int.bmod (l.toInt.tdiv r.toInt) Int64.size :=
  ⟨l / r, if_neg fun hr => h (by rw [hr]; rfl), Int64.toInt_div l r⟩

theorem integralBinary_mod (h : r.toInt ≠ 0) :
    ∃ n, integralBinary .MOD l r = .ok n ∧
      n.toInt = Int.bmod (l.toInt.tmod r.toInt) Int64.size := by
  refine ⟨l % r, if_neg fun hr => h (by rw [hr]; rfl), ?_⟩
  rw [← Int64.toInt_mod, Int64.bmod_toInt]

theorem integralBinary_zero (hop : op = .DIV ∨ op = .MOD) (h : r.toInt = 0) :
    integralBinary op l r = .error .divisionByZero := by
  have hr : r = 0 := Int64.toInt_inj.1 h
  obtain rfl | rfl := hop <;> exact if_pos hr

/-- A whole number is read from bytes of its width with its sign. -/
theorem decode_integral {s : Scalar} (hs : s.isIntegral = true) {bs : List UInt8}
    (hbs : bs.length = s.size) :
    ∃ n, decode s.kind bs = .ok (.integral n) ∧ n.toInt = Word.signed bs := by
  refine ⟨Word.read bs, ?_, Word.toInt_read (hbs.trans_le s.size_le_eight)⟩
  cases s <;> first | rfl | cases hs

/-- **Of a 64-bit result the bytes of its width are pushed**, and they are those of the exact
result. -/
theorem take_encode_integral {width : Nat} (hw : width ≤ 8) {n : Int64} {x : Int}
    (hn : n.toInt = Int.bmod x Int64.size) :
    ((Value.integral n).encode width).take width = Word.ofInt width x := by
  rw [encode, List.take_of_length_le (by simp), Word.fit_ofInt64 hw, hn, Word.ofInt_bmod_size hw]

end Value

/-! ## Operations of the machine -/

namespace Machine

/-- The machine is about to do an instruction that finds some bytes on top of the stack. -/
structure Faces (m : Machine) (r : Record) (data : List UInt8) : Prop where
  ready : m.Ready
  bounded : m.Bounded
  record : m.At r
  tops : m.Tops data

/-- The machine is about to apply an operation with a result of `width` bytes to two whole numbers
of a type, the left one lying on top. -/
def Combines (m : Machine) (op : Opcode) (s : Scalar) (xs ys : List UInt8) (width : Nat) : Prop :=
  ∃ p, m.Faces (.of op s.kind.code p (Word.size32 s.size) (Word.size32 s.size)
    (Word.size32 width)) (xs ++ ys)

/-- The machine is about to apply an operation to a whole number of a type. -/
def Alters (m : Machine) (op : Opcode) (s : Scalar) (xs : List UInt8) : Prop :=
  ∃ p x1 x2, m.Faces (.of op s.kind.code p (Word.size32 s.size) x1 x2) xs

/-- The next instruction puts a number of `width` bytes in the place of the `taken` bytes on top of
the stack, and the machine goes on. -/
def Yields (natives : Natives) (m : Machine) (taken width : Nat) (x : Int) : Prop :=
  ∃ zs, zs.length = width ∧ Word.signed zs = x ∧
    m.tick natives = ((m.popped taken).pushed zs).next

variable {m : Machine} {natives : Natives} {op : Opcode} {s : Scalar} {xs ys : List UInt8}
  {width : Nat} {x : Int}

theorem toInt_size32_of_le {n : Nat} (h : n ≤ 16) : (Word.size32 n).toInt = n :=
  Word.toInt_size32 (by omega)

/-- What was popped leaves room for as many bytes. -/
theorem Bounded.hasRoom_popped (h : m.Bounded) {taken n : Nat} (hn : n ≤ taken) :
    (m.popped taken).HasRoom n := by
  have := h.low
  simp only [HasRoom, popped]
  omega

theorem two_pow_eight_mul (width : Nat) : 2 ^ (8 * width) = 256 ^ width := by
  rw [pow_mul]
  rfl

/-- The bytes of a number that are pushed are read as its representative. -/
theorem yields_ofInt {taken : Nat} (h : m.Bounded) (hle : width ≤ taken)
    (ht : m.tick natives = (m.popped taken).answered (Word.ofInt width x)) :
    m.Yields natives taken width (Int.bmod x (2 ^ (8 * width))) := by
  refine ⟨Word.ofInt width x, Word.length_ofInt .., ?_, ?_⟩
  · rw [Word.signed_ofInt, Word.span_eq, two_pow_eight_mul]
  · rw [ht, answered_of_hasRoom (h.hasRoom_popped (by simpa using hle))]

/-- **What the operation comes to in 64 bits is cut to the width of the result.** -/
theorem Combines.yields (h : m.Combines op s xs ys width) (hs : s.isIntegral = true)
    (hx : xs.length = s.size) (hy : ys.length = s.size) (hop : op.isBinary = true)
    (hw : width ≤ 8) (hle : width ≤ 2 * s.size)
    (hres : ∀ l r : Int64, l.toInt = Word.signed xs → r.toInt = Word.signed ys →
      ∃ n, Value.integralBinary op l r = .ok n ∧ n.toInt = Int.bmod x Int64.size) :
    m.Yields natives (2 * s.size) width (Int.bmod x (2 ^ (8 * width))) := by
  obtain ⟨p, h⟩ := h
  obtain ⟨l, hl, hlx⟩ := Value.decode_integral hs hx
  obtain ⟨r, hr, hry⟩ := Value.decode_integral hs hy
  obtain ⟨n, hn, hnx⟩ := hres l r hlx hry
  have hsize := s.size_le_eight
  have htick : m.tick natives = _ := tick_binary h.ready hop h.record h.tops
    (by rw [toInt_size32_of_le (by omega), hx]) (by rw [toInt_size32_of_le (by omega), hy]) hl hr
    (by rw [Value.binary, hn]; rfl) (toInt_size32_of_le (by omega))
  refine yields_ofInt h.bounded hle ?_
  rw [htick, Value.take_encode_integral hw hnx, popped_popped, hx, hy, two_mul, Nat.cast_add]

/-- A quotient by zero faults, and the operands are gone. -/
theorem Combines.faulted (h : m.Combines op s xs ys width) (hs : s.isIntegral = true)
    (hx : xs.length = s.size) (hy : ys.length = s.size) (hop : op = .DIV ∨ op = .MOD)
    (hzero : Word.signed ys = 0) :
    m.tick natives = (m.popped (2 * s.size)).faulted .divisionByZero := by
  obtain ⟨p, h⟩ := h
  obtain ⟨l, hl, -⟩ := Value.decode_integral hs hx
  obtain ⟨r, hr, hry⟩ := Value.decode_integral hs hy
  have hsize := s.size_le_eight
  have hbinary : op.isBinary = true := by obtain rfl | rfl := hop <;> rfl
  have htick : m.tick natives = _ := tick_binary_error hbinary h.record h.tops
    (by rw [toInt_size32_of_le (by omega), hx]) (by rw [toInt_size32_of_le (by omega), hy]) hl hr
    (by rw [Value.binary, Value.integralBinary_zero hop (hry.trans hzero)]; rfl)
  rw [htick, popped_popped, hx, hy, two_mul]

theorem Alters.yields {f : Int → Int} (h : m.Alters op s xs) (hs : s.isIntegral = true)
    (hx : xs.length = s.size) (hop : op.ofOneInteger? = some f) :
    m.Yields natives s.size s.size (Int.bmod (f (Word.signed xs)) (2 ^ (8 * s.size))) := by
  obtain ⟨p, x1, x2, h⟩ := h
  obtain ⟨l, hl, hlx⟩ := Value.decode_integral hs hx
  have hsize := s.size_le_eight
  have hlen : (Word.size32 s.size).toInt = xs.length := by
    rw [toInt_size32_of_le (by omega), hx]
  obtain ⟨g, n, hg, hn, hnx⟩ : ∃ (g : Value → Except Fault Value) (n : Int64),
      (op = .NEG ∧ g = Value.negate ∨ op = .NOT ∧ g = Value.complement) ∧
        g (.integral l) = .ok (.integral n) ∧ n.toInt = Int.bmod (f l.toInt) Int64.size := by
    cases op <;> cases hop
    case NEG => exact ⟨_, -l, .inl ⟨rfl, rfl⟩, rfl, Int64.toInt_neg l⟩
    case NOT =>
      refine ⟨_, ~~~l, .inr ⟨rfl, rfl⟩, rfl, ?_⟩
      have hnot : (~~~l).toInt = Int.lnot l.toInt :=
        BitVec.toInt_not_eq_lnot (by decide) l.toBitVec
      rw [← hnot, Int64.bmod_toInt]
  refine yields_ofInt h.bounded le_rfl ?_
  rw [tick_unary h.ready hg h.record h.tops hlen hl hn, hx, Value.take_encode_integral hsize hnx,
    hlx]

/-! ## The theorem -/

/-- The product of two numbers fits the bytes of both. -/
theorem bmod_mul_signed (hx : xs.length = width) (hy : ys.length = width) :
    Int.bmod (Word.signed xs * Word.signed ys) (2 ^ (8 * (2 * width))) =
      Word.signed xs * Word.signed ys := by
  obtain ⟨hxl, hxh⟩ : Word.Fits width (Word.signed xs) := hx ▸ Word.fits_signed xs
  obtain ⟨hyl, hyh⟩ : Word.Fits width (Word.signed ys) := hy ▸ Word.fits_signed ys
  have hpos : (0 : Int) < (256 ^ width : Nat) := by exact_mod_cast Nat.pow_pos (by decide)
  have hsquare : ((256 ^ (2 * width) : Nat) : Int) = (256 ^ width : Nat) * (256 ^ width : Nat) := by
    rw [two_mul, pow_add, Nat.cast_mul]
  have hsigned : |2 * Word.signed xs * (2 * Word.signed ys)| ≤
      (256 ^ width : Nat) * (256 ^ width : Nat) := by
    rw [abs_mul]
    exact mul_le_mul (abs_le.2 ⟨hxl, hxh.le⟩) (abs_le.2 ⟨hyl, hyh.le⟩) (abs_nonneg _) hpos.le
  have hfits : Word.Fits (2 * width) (Word.signed xs * Word.signed ys) := by
    have hsquarePos := mul_pos hpos hpos
    rw [mul_mul_mul_comm, abs_le] at hsigned
    unfold Word.Fits
    rw [hsquare]
    omega
  rw [two_pow_eight_mul, hfits.bmod]

theorem abs_tmod_lt {r : Int} (h : r ≠ 0) (l : Int) : |l.tmod r| < |r| := by
  rw [Int.abs_eq_natAbs, Int.abs_eq_natAbs, Int.natAbs_tmod]
  exact_mod_cast Nat.mod_lt _ (Int.natAbs_pos.2 h)

/-- A remainder is smaller than what it is taken by, so it fits as many bytes. -/
theorem bmod_tmod {l r : Int} (hr : Word.Fits width r) (h : r ≠ 0) :
    Int.bmod (l.tmod r) (2 ^ (8 * width)) = l.tmod r := by
  have hlt := abs_tmod_lt h l
  obtain ⟨hlow, hhigh⟩ := hr
  have hfits : Word.Fits width (l.tmod r) := by
    rw [Int.abs_eq_natAbs, Int.abs_eq_natAbs] at hlt
    unfold Word.Fits
    omega
  rw [two_pow_eight_mul, hfits.bmod]

theorem bmod_modEq (x : Int) (n : Nat) : Int.bmod x n ≡ x [ZMOD n] := Int.bmod_emod

/-- **An operation on whole numbers of a width pushes the representative of its exact result**;
products that get twice the width are exact; quotient and remainder belong together, the remainder
being smaller than the divisor and of the sign of the dividend; and dividing by zero faults. -/
theorem arithmetic_of_isIntegral (hs : s.isIntegral = true) (hx : xs.length = s.size)
    (hy : ys.length = s.size) (natives : Natives) :
    (∀ op f, op.ofIntegers? = some f → ∀ m, Combines m op s xs ys s.size →
      m.Yields natives (2 * s.size) s.size
        (Int.bmod (f (Word.signed xs) (Word.signed ys)) (2 ^ (8 * s.size)))) ∧
    (∀ op f, op.ofOneInteger? = some f → ∀ m, Alters m op s xs →
      m.Yields natives s.size s.size (Int.bmod (f (Word.signed xs)) (2 ^ (8 * s.size)))) ∧
    (s = .byte ∨ s = .short → ∀ m, Combines m .MUL s xs ys (2 * s.size) →
      m.Yields natives (2 * s.size) (2 * s.size) (Word.signed xs * Word.signed ys)) ∧
    (Word.signed ys ≠ 0 → ∃ quotient remainder,
      (∀ m, Combines m .DIV s xs ys s.size → m.Yields natives (2 * s.size) s.size quotient) ∧
      (∀ m, Combines m .MOD s xs ys s.size → m.Yields natives (2 * s.size) s.size remainder) ∧
      Word.signed xs ≡ quotient * Word.signed ys + remainder [ZMOD 2 ^ (8 * s.size)] ∧
      |remainder| < |Word.signed ys| ∧
      (remainder = 0 ∨ remainder.sign = (Word.signed xs).sign)) ∧
    (Word.signed ys = 0 → ∀ op, op = .DIV ∨ op = .MOD → ∀ m width, Combines m op s xs ys width →
      m.tick natives = (m.popped (2 * s.size)).faulted .divisionByZero) := by
  have hsize := s.size_le_eight
  refine ⟨fun op f hf m hm => ?_, fun op f hf m hm => hm.yields hs hx hf, fun hs' m hm => ?_,
    fun hne => ?_, fun hzero op hop m width hm => hm.faulted hs hx hy hop hzero⟩
  · refine hm.yields hs hx hy (Opcode.isBinary_of_ofIntegers? hf) hsize (by omega) ?_
    rintro l r hl hr
    rw [← hl, ← hr]
    exact Value.integralBinary_of_ofIntegers? hf l r
  · have hdouble : 2 * s.size ≤ 8 := by obtain rfl | rfl := hs' <;> decide
    rw [← bmod_mul_signed hx hy]
    refine hm.yields hs hx hy rfl hdouble le_rfl ?_
    rintro l r hl hr
    rw [← hl, ← hr]
    exact Value.integralBinary_of_ofIntegers? rfl l r
  · have hfits : Word.Fits s.size (Word.signed ys) := hy ▸ Word.fits_signed ys
    refine ⟨Int.bmod ((Word.signed xs).tdiv (Word.signed ys)) (2 ^ (8 * s.size)),
      (Word.signed xs).tmod (Word.signed ys), fun m hm => ?_, fun m hm => ?_, ?_,
      abs_tmod_lt hne _, ?_⟩
    · refine hm.yields hs hx hy rfl hsize (by omega) ?_
      rintro l r hl hr
      rw [← hl, ← hr]
      exact Value.integralBinary_div (hr ▸ hne)
    · rw [← bmod_tmod hfits hne]
      refine hm.yields hs hx hy rfl hsize (by omega) ?_
      rintro l r hl hr
      rw [← hl, ← hr]
      exact Value.integralBinary_mod (hr ▸ hne)
    · have hquotient := (bmod_modEq ((Word.signed xs).tdiv (Word.signed ys)) (2 ^ (8 * s.size)))
      calc Word.signed xs
          = (Word.signed xs).tdiv (Word.signed ys) * Word.signed ys +
              (Word.signed xs).tmod (Word.signed ys) := by
            rw [mul_comm, add_comm, Int.tmod_add_mul_tdiv]
        _ ≡ _ [ZMOD 2 ^ (8 * s.size)] := by
            exact_mod_cast (hquotient.symm.mul_right _).add_right _
    · rw [Int.sign_tmod]
      split
      next hdvd => exact .inl (Int.tmod_eq_zero_of_dvd hdvd)
      next => exact .inr rfl

/-- The least BYTE divided by -1: the quotient 128 is no BYTE and comes back to the dividend. -/
theorem arithmetic_of_isIntegral_least :
    let record : Record := .of .DIV Scalar.byte.kind.code 0 1 1 1
    let m : Machine :=
      { memory := ⟨(record.encode ++ [0, 0, 128, 255]).toArray⟩, ip := 0, sp := 18, lp := 20,
        entrySp := 20, limit := 16, event := .running, printed := #[] }
    Scalar.byte.isIntegral = true ∧ Combines m .DIV .byte [128] [255] 1 ∧
      m.Yields .empty 2 1 (-128) := by
  intro record m
  have hm : Combines m .DIV .byte [128] [255] 1 :=
    ⟨0, ⟨rfl, by decide, by decide⟩, ⟨by decide, by decide⟩, by unfold At; decide +kernel,
      by decide, by decide⟩
  refine ⟨rfl, hm, ?_⟩
  obtain ⟨-, -, -, hdiv, -⟩ := @arithmetic_of_isIntegral .byte [128] [255] rfl rfl rfl .empty
  obtain ⟨q, remainder, hq, -, hmod, hlt, -⟩ := hdiv (by decide)
  obtain ⟨zs, hlen, hzs, htick⟩ := hq m hm
  obtain ⟨hlow, hhigh⟩ := Word.fits_signed zs
  have hxs : Word.signed [128] = -128 := by decide
  have hys : Word.signed [255] = -1 := by decide
  rw [hys] at hmod hlt
  rw [hxs] at hmod
  rw [hlen, hzs] at hlow hhigh
  have hzero : remainder = 0 := Int.abs_lt_one_iff.1 hlt
  have hsame : (-128) % 256 = (q * -1 + remainder) % 256 := hmod
  change -256 ≤ 2 * q at hlow
  change 2 * q < 256 at hhigh
  exact ⟨zs, hlen, hzs.trans (by omega), htick⟩

end Machine

end ChannelBasic
