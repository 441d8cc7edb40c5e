import ChannelBasic.Proofs.Emission.Placement
import ChannelBasic.Proofs.Execution.Evaluation

/-!
# Proofs/Execution/Expressions — the code of an expression computes the expression

A machine that runs the code of an expression without calls and addresses pushes the bytes that
stand for the expression's value, or it divides by zero where the expression does (`Typed.runs`).
Nothing else happens: the free part of the stack is all that is written to (`Machine.Pushes`).
-/

namespace ChannelBasic

open Code

/-- How far a place lies from what it is counted from. -/
def Place.offset : Place → Int
  | .frame offset | .data offset => offset

/-- Where a place lies, given the frame pointer and the start of the data sets. -/
def Place.address (lp base : Int) : Place → Int
  | .frame offset => lp + offset
  | .data offset => base + offset

namespace Machine

variable {m m₁ m₂ : Machine} {natives : Natives} {data xs ys out : List UInt8} {k j : Nat} {a : Int}

/-- A machine that has run `k` instructions, which have pushed some bytes and done nothing else. -/
structure Pushes (m m' : Machine) (k : Nat) (data : List UInt8) : Prop where
  running : m'.event = .running
  ip : m'.ip = m.ip + (recordSize * k : Nat)
  sp : m'.sp = m.sp - data.length
  lp : m'.lp = m.lp
  entrySp : m'.entrySp = m.entrySp
  limit : m'.limit = m.limit
  printed : m'.printed = m.printed
  same : m.memory.Same (fun x => x < m.limit ∨ m.sp ≤ x) m'.memory
  tops : m'.Tops data

/-- Some bytes lie at an address and not in the free part of the stack. -/
structure Keeps (m : Machine) (a : Int) (data : List UInt8) : Prop where
  has : m.memory.Has a data
  apart : a + data.length ≤ m.limit ∨ m.sp ≤ a

instance (m : Machine) (a : Int) (data : List UInt8) : Decidable (m.Keeps a data) :=
  decidable_of_iff (m.memory.Has a data ∧ (a + data.length ≤ m.limit ∨ m.sp ≤ a))
    ⟨fun h => ⟨h.1, h.2⟩, fun h => ⟨h.1, h.2⟩⟩

theorem Pushes.ready (h : m.Pushes m₁ k data) (hm : m.Ready) : m₁.Ready := by
  refine ⟨h.running, by rw [h.limit]; exact hm.limit, ?_⟩
  have := hm.sp
  rw [h.sp, h.same.top]
  omega

theorem Pushes.keeps (h : m.Pushes m₁ k xs) (hk : m.Keeps a data) : m₁.Keeps a data := by
  have hapart := hk.apart
  refine ⟨hk.has.same h.same fun x hx hx' => ?_, ?_⟩
  · omega
  · rw [h.limit, h.sp]
    omega

/-- Code that does not lie in the free part of the stack stays where it is. -/
theorem Pushes.laid {l : Link} {pieces : List Piece} (h : m.Pushes m₁ k xs)
    (hl : l.Laid m.memory a pieces)
    (hapart : a + Piece.size pieces ≤ m.limit ∨ m.sp ≤ a) :
    l.Laid m₁.memory a pieces :=
  hl.same h.same fun x hx hx' => by omega

/-- What is pushed later lies on top of what was pushed before. -/
theorem Pushes.append (h : m.Pushes m₁ k xs) (h' : m₁.Pushes m₂ j ys) :
    m.Pushes m₂ (k + j) (ys ++ xs) where
  running := h'.running
  ip := by rw [h'.ip, h.ip, Nat.mul_add]; push_cast; ring
  sp := by rw [h'.sp, h.sp, List.length_append]; push_cast; ring
  lp := h'.lp.trans h.lp
  entrySp := h'.entrySp.trans h.entrySp
  limit := h'.limit.trans h.limit
  printed := h'.printed.trans h.printed
  same := h.same.trans (h'.same.mono fun x hx => by rw [h.limit, h.sp]; omega)
  tops := by
    have hsp : m₂.sp + (ys.length : Int) = m₁.sp := by rw [h'.sp]; omega
    refine tops_append.2 ⟨h'.tops, ?_, ?_⟩
    · change m₂.memory.Has (m₂.sp + ys.length) xs
      rw [hsp]
      exact h.tops.has.same h'.same fun x hx _ => .inr hx
    · change m₂.sp + ys.length + xs.length ≤ m₂.memory.top
      rw [hsp, h'.same.top]
      exact h.tops.le_top

/-- What has been pushed is replaced by an answer for which there was room from the beginning. -/
theorem Pushes.answered (h : m.Pushes m₁ k data) (hm : m.Ready) (hroom : m.HasRoom out.length) :
    m.Pushes ((m₁.popped data.length).answered out) (k + 1) out := by
  have hsp : (m₁.popped data.length).sp = m.sp := by simp only [popped, h.sp]; omega
  have hready : (m₁.popped data.length).Ready :=
    (h.ready hm).popped h.tops
  have hroom' : (m₁.popped data.length).HasRoom out.length := by
    unfold HasRoom at hroom ⊢
    rw [hsp]
    exact h.limit.le.trans hroom
  rw [answered_of_hasRoom hroom']
  refine ⟨h.running, ?_, ?_, h.lp, h.entrySp, h.limit, h.printed, ?_,
    (hready.tops_pushed hroom').next⟩
  · change m₁.ip + recordSize = _
    rw [h.ip]
    push_cast
    ring
  · change (m₁.popped data.length).sp - out.length = _
    rw [hsp]
  · refine h.same.trans ((hready.same_pushed hroom').mono fun x hx => ?_)
    rw [hsp]
    exact hx.imp_left fun hx => h.limit.symm ▸ hx

/-- The first answer of a computation. -/
theorem Ready.pushes_answered (hm : m.Ready) (hroom : m.HasRoom data.length) :
    m.Pushes (m.answered data) 1 data := by
  rw [answered_of_hasRoom hroom]
  exact ⟨hm.running, by simp [Machine.pushed, next], rfl, rfl, rfl, rfl, rfl,
    hm.same_pushed hroom, (hm.tops_pushed hroom).next⟩

/-- Texts and places can be read where they are expected, outside the free part of the stack. -/
structure Sees (m : Machine) (l : Link) (z : EmissionState) (read : Place → Nat → List UInt8)
    (places : List (Place × Nat)) : Prop where
  texts : ∀ t ∈ z.static.texts, m.Keeps (l.staticBase + Int32.ofNat t.offset).toInt t.record
  length : ∀ place n, (place, n) ∈ places → (read place n).length = n
  fits : ∀ place n, (place, n) ∈ places → Word.fits32 place.offset = true ∧
    Word.fits32 (place.address m.lp l.dynamicBase.toInt) = true
  places : ∀ place n, (place, n) ∈ places →
    m.Keeps (place.address m.lp l.dynamicBase.toInt) (read place n)

variable {l : Link} {z : EmissionState} {read : Place → Nat → List UInt8}
  {places places' : List (Place × Nat)} {rest : List Piece}

theorem Sees.mono (h : m.Sees l z read places) (hsub : ∀ x ∈ places', x ∈ places) :
    m.Sees l z read places' :=
  ⟨h.texts, fun p n hx => h.length p n (hsub _ hx), fun p n hx => h.fits p n (hsub _ hx),
    fun p n hx => h.places p n (hsub _ hx)⟩

theorem Pushes.sees (h : m.Pushes m₁ k data) (hs : m.Sees l z read places) :
    m₁.Sees l z read places where
  texts t ht := h.keeps (hs.texts t ht)
  length := hs.length
  fits p n hx := by rw [h.lp]; exact hs.fits p n hx
  places p n hx := by rw [h.lp]; exact h.keeps (hs.places p n hx)

end Machine

/-! ## Single instructions -/

theorem Word.toInt_ofInt {x : Int} (h : Word.fits32 x = true) : (Int32.ofInt x).toInt = x := by
  simp only [Word.fits32, Bool.and_eq_true, decide_eq_true_eq] at h
  exact Int32.toInt_ofInt_of_le (by omega) (by omega)

/-- An offset counted from a base, as 32-bit numbers. -/
theorem Word.toInt_add_ofInt {base : Int32} {x : Int} (h : Word.fits32 (base.toInt + x) = true) :
    (base + Int32.ofInt x).toInt = base.toInt + x := by
  simp only [Word.fits32, Bool.and_eq_true, decide_eq_true_eq] at h
  have hsize : Int32.size = 2 ^ 32 := rfl
  rw [Int32.toInt_add, Int32.toInt_ofInt, hsize, Int.add_bmod_bmod]
  exact Int.bmod_eq_of_le (by omega) (by omega)

namespace Machine

variable {m : Machine} {natives : Natives} {l : Link} {z : EmissionState}
  {read : Place → Nat → List UInt8} {places : List (Place × Nat)} {rest : List Piece} {n : Nat}

/-- What lies at a place is pushed as it lies there. -/
theorem Sees.tick_place {place : Place} (hs : m.Sees l z read places) (hm : m.Ready)
    (hmem : (place, n) ∈ places) (hn : n < 2 ^ 31)
    (hl : l.Laid m.memory m.ip (.op (place.load n) :: rest)) :
    m.tick natives = m.answered (read place n) := by
  have hlen : (Word.size32 n).toInt = (read place n).length := by
    rw [Word.toInt_size32 hn, hs.length place n hmem]
  have hkeeps := hs.places place n hmem
  obtain ⟨hfits, hfits'⟩ := hs.fits place n hmem
  obtain ⟨x0, x1, x2, h0, h1, h2, hat⟩ := hl.at
  cases place with
  | frame offset =>
    obtain rfl : Word.size32 n = x0 := Except.ok.inj h0
    obtain rfl : Int32.ofInt offset = x1 := Except.ok.inj h1
    have hoffset : (Int32.ofInt offset).toInt = offset := Word.toInt_ofInt hfits
    refine tick_loadFrame hm hat hlen ?_ fun _ => ?_
    · rw [hoffset]
      exact hfits'
    · rw [hoffset]
      exact hkeeps.has
  | data offset =>
    obtain rfl : Word.size32 n = x0 := Except.ok.inj h0
    obtain rfl : l.dynamicBase + Int32.ofInt offset = x1 := Except.ok.inj h1
    refine tick_loadGlobal hm hat hlen fun _ => ?_
    rw [Word.toInt_add_ofInt hfits']
    exact hkeeps.has

/-- A number in an instruction is pushed as its low bytes. -/
theorem tick_loadNumber {x : Int64} (hm : m.Ready) (hn : n ≤ 8)
    (hl : l.Laid m.memory m.ip (.op (.loadImmediate (Word.size32 n) x) :: rest)) :
    m.tick natives = m.answered (Word.fit n (Word.ofInt64 x)) := by
  obtain ⟨x0, x1, x2, h0, h1, h2, hat⟩ := hl.at
  obtain rfl : Word.size32 n = x0 := Except.ok.inj h0
  obtain rfl : x.toInt32 = x1 := Except.ok.inj h1
  obtain rfl : (x >>> 32).toInt32 = x2 := Except.ok.inj h2
  rw [tick_loadImmediate hm hat (Word.toInt_size32 (by omega)) hn, Word.ofInt32_append,
    Word.fit_eq_take (by simpa [Word.ofInt64] using hn)]

/-- A literal is pushed as a value of its type is written. -/
theorem Sees.tick_literal {v : Literal} {σ : Shape} {types : TypeTable} {t : TypeId}
    {i : Instruction} (hs : m.Sees l z read places) (hm : m.Ready)
    (hσ : types.shape? t = some σ) (hsize : σ.size? types.structSizes = some n) (hn : n < 2 ^ 31)
    (hfit : v.Fits σ) (hi : v.Loads types z t n i) (hl : l.Laid m.memory m.ip (.op i :: rest)) :
    m.tick natives = m.answered (v.toValue.encode n) := by
  have hkind : types.valueType t = σ.kind := TypeTable.valueType_eq hσ
  have immediate {x : Int64} (hi : i = .loadImmediate (Word.size32 n) x) (hn8 : n ≤ 8)
      (hx : Word.fit n (Word.ofInt64 x) = v.toValue.encode n) :
      m.tick natives = m.answered (v.toValue.encode n) := by
    rw [← hx]
    exact tick_loadNumber hm hn8 (hi ▸ hl)
  cases v with
  | boolean b =>
    obtain rfl : σ = .scalar .boolean := by
      cases σ with
      | scalar s => cases s <;> simp_all [Literal.Fits]
      | _ => simp_all [Literal.Fits]
    obtain rfl : 1 = n := by simpa [Shape.size?, Scalar.size] using hsize
    refine immediate hi (by decide) ?_
    cases b <;> rfl
  | integral k =>
    obtain ⟨s, rfl⟩ : ∃ s, σ = .scalar s := by cases σ <;> simp_all [Literal.Fits]
    obtain rfl : s.size = n := by simpa [Shape.size?] using hsize
    have hwhole : s.isIntegral = true := by cases s <;> exact hfit.1
    have hreal : types.valueType t ≠ .real := by
      rw [hkind]
      rintro hs
      cases s <;> cases hs
      cases hwhole
    rw [Literal.Loads, if_neg hreal] at hi
    exact immediate hi s.size_le_eight rfl
  | real x =>
    obtain rfl : σ = .scalar .real := by
      cases σ with
      | scalar s => cases s <;> simp_all [Literal.Fits]
      | _ => simp_all [Literal.Fits]
    obtain rfl : 8 = n := by simpa [Shape.size?, Scalar.size] using hsize
    have hwhole : (types.valueType t).isIntegral = false := by rw [hkind]; rfl
    rw [Literal.Loads, hwhole] at hi
    exact immediate hi le_rfl rfl
  | text content =>
    obtain ⟨c, rfl⟩ : ∃ c, σ = .string c := by cases σ <;> simp_all [Literal.Fits]
    obtain rfl : stringSize c = n := by simpa [Shape.size?] using hsize
    obtain ⟨x, ⟨record, hmem, hcontent, hcapacity, rfl⟩, rfl⟩ := hi
    rw [TypeTable.capacity?_iff.2 hσ, Option.getD_some] at hcapacity
    have hrecord : record.record = (Literal.text content).toValue.encode (stringSize c) := by
      rw [StaticText.record, hcontent, hcapacity]
      rfl
    obtain ⟨x0, x1, x2, h0, h1, h2, hat⟩ := hl.at
    obtain rfl : Word.size32 (stringSize c) = x0 := Except.ok.inj h0
    obtain rfl : l.staticBase + Int32.ofNat record.offset = x1 := Except.ok.inj h1
    rw [← hrecord]
    refine tick_loadGlobal hm hat ?_ fun _ => (hs.texts record hmem).has
    rw [Word.toInt_size32 hn, record.length_record, hcapacity]

end Machine

theorem BinaryOp.isBinary_of_opcode? {op : BinaryOp} {code : Opcode} (h : op.opcode? = some code) :
    code.isBinary = true := by
  cases op <;> cases h <;> rfl

/-- Both operands are read the way the left one is. -/
theorem BinaryOp.Takes.decode_eq {op : BinaryOp} {a b c : Shape} (h : op.Takes a b c)
    (bs : List UInt8) : Value.decode a.kind bs = Value.decode b.kind bs := by
  cases h with
  | @shift op s s' _ hs hs' =>
    have whole (s : Scalar) (hs : s.isIntegral = true) :
        Value.decode (Shape.scalar s).kind bs = .ok (.integral (Word.read bs)) := by
      cases s <;> first | rfl | cases hs
    rw [whole s hs, whole s' hs']
  | _ => rfl

section Operators

variable {m : Machine} {natives : Natives} {l : Link} {rest : List Piece} {n : Nat}
  {data right : List UInt8} {a b c : Shape} {v w u : Value} {sizes : List (Nat × Nat)}

theorem take_encode (hsize : c.size? sizes = some n) (hv : v.Of c) :
    (v.encode n).take n = v.encode n :=
  List.take_of_length_le (Value.length_encode hsize hv).le

/-- **The instruction of an operator answers with what the operator makes of its operands.** -/
theorem BinaryOp.Emits.tick (natives : Natives) {op : BinaryOp} {Q : Nat → Prop} {i : Instruction}
    (h : op.Emits a.kind data.length right.length Q i) (hop : op.Takes a b c)
    (hQ : ∀ k, Q k → k = n) (hsize : c.size? sizes = some n) (hn : n < 2 ^ 31) (hm : m.Ready)
    (hl : l.Laid m.memory m.ip (.op i :: rest)) (ht : m.Tops (data ++ right))
    (hv : Value.decode a.kind data = .ok v) (hw : Value.decode b.kind right = .ok w)
    (hvof : v.Of a) (hwof : w.Of b) :
    (∀ u, op.apply v w = .ok u →
      m.tick natives = (m.popped (data ++ right).length).answered (u.encode n)) ∧
    (op.apply v w = .error .divisionByZero →
      m.tick natives = (m.popped (data ++ right).length).faulted .divisionByZero) := by
  have hlen : ((data ++ right).length : Int) = data.length + right.length := by simp
  have hlt : data.length < 2 ^ 31 ∧ right.length < 2 ^ 31 := by
    have h₀ := ht.has.nonneg
    have h₁ := ht.le_top
    have h₂ := m.memory.top_lt
    omega
  have hl' := Word.toInt_size32 hlt.1
  have hr' := Word.toInt_size32 hlt.2
  rw [← hop.decode_eq] at hw
  obtain ⟨x0, x1, x2, h0, h1, h2, hat⟩ := hl.at
  rw [hlen, ← Machine.popped_popped]
  obtain ⟨k, hk, rfl⟩ | ⟨hk, code, size, hcode, hsize', rfl⟩ := h
  · obtain rfl : Word.size32 data.length = x0 := Except.ok.inj h0
    obtain rfl : Word.size32 right.length = x1 := Except.ok.inj h1
    obtain ⟨rfl, answer, ha⟩ := Value.compare_of_takes hop hk hvof hwof
    obtain rfl : 1 = n := by simpa [Shape.size?, Scalar.size] using hsize
    have happly : op.apply v w = .ok (.boolean answer) := by
      simp only [BinaryOp.apply, hk, ha]
      rfl
    refine ⟨fun u hu => ?_, fun hdiv => by rw [happly] at hdiv; cases hdiv⟩
    rw [happly] at hu
    obtain rfl := Except.ok.inj hu
    rw [Machine.tick_compare hm hat ht hl' hr' hv hw ha]
    cases answer <;> rfl
  · obtain rfl := hQ _ hsize'
    obtain rfl : Word.size32 data.length = x0 := Except.ok.inj h0
    obtain rfl : Word.size32 right.length = x1 := Except.ok.inj h1
    obtain rfl : Word.size32 size = x2 := Except.ok.inj h2
    have hb := BinaryOp.isBinary_of_opcode? hcode
    have happly : op.apply v w = Value.binary code v w := by simp only [BinaryOp.apply, hk, hcode]
    rw [happly]
    refine ⟨fun u hu => ?_, fun hdiv => Machine.tick_binary_error hb hat ht hl' hr' hv hw hdiv⟩
    have huof : u.Of c := by
      obtain ⟨u', hu', hof⟩ | hdiv := Value.binary_of_takes hop hcode hvof hwof
      · rw [hu'] at hu
        obtain rfl := Except.ok.inj hu
        exact hof
      · rw [hdiv] at hu
        cases hu
    rw [Machine.tick_binary hm hb hat ht hl' hr' hv hw hu (Word.toInt_size32 hn),
      take_encode hsize huof]

/-- `NEG` and `NOT` answer with what the operator makes of its operand. -/
theorem UnaryOp.tick {op : UnaryOp} (hsize : a.size? sizes = some data.length) (hm : m.Ready)
    (hplus : op ≠ .plus) (hl : l.Laid m.memory m.ip (op.tail a.kind data.length ++ rest))
    (ht : m.Tops data) (hv : Value.decode a.kind data = .ok v) (hu : op.apply v = .ok u)
    (huof : u.Of a) : m.tick natives = (m.popped data.length).answered (u.encode data.length) := by
  have hlt : data.length < 2 ^ 31 := by
    have h₀ := ht.has.nonneg
    have h₁ := ht.le_top
    have h₂ := m.memory.top_lt
    omega
  have hlen := Word.toInt_size32 hlt
  rw [← take_encode hsize huof]
  cases op with
  | plus => exact absurd rfl hplus
  | minus =>
    obtain ⟨x0, x1, x2, h0, -, -, hat⟩ := hl.at
    obtain rfl : Word.size32 data.length = x0 := Except.ok.inj h0
    exact Machine.tick_unary hm (.inl ⟨rfl, rfl⟩) hat ht hlen hv hu
  | not =>
    obtain ⟨x0, x1, x2, h0, -, -, hat⟩ := hl.at
    obtain rfl : Word.size32 data.length = x0 := Except.ok.inj h0
    exact Machine.tick_unary hm (.inr ⟨rfl, rfl⟩) hat ht hlen hv hu

end Operators

/-! ## Expressions -/

namespace Machine

variable {m : Machine} {natives : Natives} {k j : Nat} {result : Except Fault (List UInt8)}
  {data : List UInt8}

/-- What a machine has done after `k` instructions: it has pushed the bytes computed, or it has
divided by zero. -/
structure Delivers (m : Machine) (natives : Natives) (k : Nat)
    (result : Except Fault (List UInt8)) : Prop where
  ok : ∀ data, result = .ok data → m.Pushes (m.run natives k) k data
  error : result = .error .divisionByZero →
    (m.run natives k).event = .halted (.fault .divisionByZero)

theorem Delivers.of_pushes (h : m.Pushes (m.run natives k) k data) :
    m.Delivers natives k (.ok data) :=
  ⟨fun _ hd => Except.ok.inj hd ▸ h, fun hd => (by cases hd)⟩

theorem Delivers.of_halted (h : (m.run natives k).event = .halted (.fault .divisionByZero)) :
    m.Delivers natives k (.error .divisionByZero) :=
  ⟨fun _ hd => (by cases hd), fun _ => h⟩

theorem run_one (hm : m.Ready) : m.run natives 1 = m.tick natives := run_succ hm.running 0

/-- A fault is the end. -/
theorem run_add_of_fault {f : Fault} (h : (m.run natives k).event = .halted (.fault f)) :
    m.run natives (k + j) = m.run natives k := by
  rw [run_add, run_of_halted]
  simp [h]

/-- An instruction that answers delivers its answer. -/
theorem Ready.delivers (hm : m.Ready) (hroom : m.HasRoom data.length)
    (htick : m.tick natives = m.answered data) : m.Delivers natives 1 (.ok data) := by
  refine .of_pushes ?_
  rw [run_one hm, htick]
  exact hm.pushes_answered hroom

/-- An instruction that replaces what was pushed before delivers its answer. -/
theorem Pushes.delivers {out : List UInt8} (h : m.Pushes (m.run natives k) k data) (hm : m.Ready)
    (hroom : m.HasRoom out.length)
    (htick : (m.run natives k).tick natives =
      ((m.run natives k).popped data.length).answered out) :
    m.Delivers natives (k + 1) (.ok out) := by
  refine .of_pushes ?_
  rw [run_add, run_one (h.ready hm), htick]
  exact h.answered hm hroom

/-- After a fault nothing else is delivered. -/
theorem Delivers.add_of_error (h : m.Delivers natives k (.error .divisionByZero)) (j : Nat) :
    m.Delivers natives (k + j) (.error .divisionByZero) := by
  refine .of_halted ?_
  rw [run_add_of_fault (h.error rfl)]
  exact h.error rfl

section Code

variable {first rest : List Piece} {l : Link}

/-- When some code has pushed its bytes, the code behind it is next. -/
theorem Pushes.laid_next (h : m.Pushes (m.run natives (Piece.count first)) (Piece.count first) data)
    (hl : l.Laid m.memory m.ip (first ++ rest))
    (hapart : m.ip + Piece.size (first ++ rest) ≤ m.limit ∨ m.sp ≤ m.ip) :
    l.Laid (m.run natives (Piece.count first)).memory (m.run natives (Piece.count first)).ip
      rest := by
  rw [Piece.size_append] at hapart
  rw [h.ip]
  refine h.laid hl.right ?_
  simp only [Piece.size] at hapart ⊢
  omega

theorem Pushes.apart_next (h : m.Pushes (m.run natives (Piece.count first)) (Piece.count first) data)
    (hapart : m.ip + Piece.size (first ++ rest) ≤ m.limit ∨ m.sp ≤ m.ip) :
    (m.run natives (Piece.count first)).ip + Piece.size rest ≤
        (m.run natives (Piece.count first)).limit ∨
      (m.run natives (Piece.count first)).sp ≤ (m.run natives (Piece.count first)).ip := by
  rw [Piece.size_append] at hapart
  rw [h.ip, h.limit, h.sp]
  simp only [Piece.size] at hapart ⊢
  omega

end Code

theorem Ready.room_lt {n : Nat} (hm : m.Ready) (hroom : m.HasRoom n) : n < 2 ^ 31 := by
  have h₁ := hm.limit
  have h₂ := hm.sp
  have h₃ := m.memory.top_lt
  unfold HasRoom at hroom
  omega

theorem HasRoom.mono {n n' : Nat} (h : m.HasRoom n) (hle : n' ≤ n) : m.HasRoom n' := by
  unfold HasRoom at h ⊢
  omega

end Machine

namespace Expr

variable {Γ : Env} {ctx : EmissionContext} {z : EmissionState} {read : Place → Nat → List UInt8}
  {e : Expr} {σ : Shape} {code : List Piece} {m : Machine} {natives : Natives} {l : Link}

/-- A literal, or the value of a constant, is delivered as it is written. -/
theorem delivers_literal {i : Info} {v : Literal} {t : TypeId} {n : Nat} {last : Instruction}
    {places : List (Place × Nat)} (hΓ : Γ.For ctx) (hσ : Γ.shape i = some σ)
    (hσt : ctx.program.types.shape? t = some σ) (hn : ctx.program.types.size? t = some n)
    (hfit : v.Fits σ) (hv : v.Loads ctx.program.types z t n last) (hw : e.isWritten ctx)
    (hi : e.info = i) (heval : e.eval ctx read = ctx.fit e.info v.toValue) (hm : m.Ready)
    (hlaid : l.Laid m.memory m.ip [.op last]) (hsees : m.Sees l z read places)
    (hroom : m.HasRoom ((ctx.size? e.info).getD 0 : Nat)) :
    m.Delivers natives 1 (e.bytes ctx read) := by
  have hsize : σ.size? ctx.program.types.structSizes = some n := by
    rw [TypeTable.size?_eq, hσt] at hn
    exact hn
  have hi' : ctx.size? e.info = some n := by rw [hi, hΓ.size?_eq hσ, hsize]
  rw [hi', Option.getD_some] at hroom
  have hlt := hm.room_lt hroom
  have hof := Literal.toValue_of hfit
  rw [(yields_of_isWritten hw hi' hsize hlt hof heval).bytes]
  refine hm.delivers ?_ (hsees.tick_literal hm hσt hsize hlt hfit hv hlaid)
  rwa [Value.length_encode hsize hof]

/-- What lies at a place is delivered as it lies there. -/
theorem delivers_place {kind : ValueType} {n : Nat} {place : Place} {places : List (Place × Nat)}
    (ht : ctx.Types e kind n) (hplace : ctx.place? e = some place)
    (hplus : ∀ i o, e ≠ .unary i .plus o) (hm : m.Ready)
    (hlaid : l.Laid m.memory m.ip [.op (place.load n)]) (hsees : m.Sees l z read places)
    (hmem : (place, n) ∈ places) (hroom : m.HasRoom ((ctx.size? e.info).getD 0 : Nat)) :
    m.Delivers natives 1 (e.bytes ctx read) := by
  have hi := ht.size?_eq
  have hbytes : e.bytes ctx read = .ok (read place n) := by
    unfold bytes
    split
    next i o => exact absurd rfl (hplus i o)
    next => simp only [hplace, hi]
  rw [hi, Option.getD_some] at hroom
  rw [hbytes]
  refine hm.delivers ?_ (hsees.tick_place hm hmem (hm.room_lt hroom) hlaid)
  rwa [hsees.length place n hmem]

section Operators

variable {i : Info} {operand left right : Expr} {first second : List Piece} {a b : Shape}
  {n k k' : Nat}

/-- The code of an operator delivers what the operator makes of its operand. -/
theorem delivers_unary {op : UnaryOp} (hop : op.Takes σ) (hn : ctx.size? i = some n)
    (hsize : σ.size? ctx.program.types.structSizes = some n)
    (hk : ctx.size? operand.info = some n) (hm : m.Ready) (hroom : m.HasRoom n)
    (hlaid : l.Laid m.memory m.ip (first ++ op.tail σ.kind n))
    (hapart : m.ip + Piece.size (first ++ op.tail σ.kind n) ≤ m.limit ∨ m.sp ≤ m.ip)
    (hy : (∃ v data, operand.Yields ctx read σ v data) ∨ operand.Divides ctx read)
    (hrun : m.Delivers natives (Piece.count first) (operand.bytes ctx read)) :
    m.Delivers natives (Piece.count (first ++ op.tail σ.kind n))
      ((Expr.unary i op operand).bytes ctx read) := by
  rw [Piece.count_append]
  obtain ⟨v, data, hv⟩ | hd := hy
  · by_cases hplus : op = .plus
    · subst hplus
      exact hrun
    · obtain rfl : data.length = n := Option.some.inj (hv.length.symm.trans hk)
      have hpush := hrun.ok data hv.bytes
      obtain ⟨w, hw, hof, hy⟩ := yields_unary hv hop hplus hn hsize (hm.room_lt hroom)
      have htail : Piece.count (op.tail σ.kind data.length) = 1 := by
        cases op <;> first | rfl | exact absurd rfl hplus
      have hnext : l.Laid _ _ (op.tail σ.kind data.length ++ []) :=
        (List.append_nil (op.tail σ.kind data.length)).symm ▸ hpush.laid_next hlaid hapart
      rw [hy.bytes, htail]
      refine hpush.delivers hm ?_ (UnaryOp.tick hsize (hpush.ready hm) hplus hnext hpush.tops
        hv.decode hw hof)
      rwa [Value.length_encode hsize hof]
  · rw [(divides_unary hd hn).bytes]
    rw [hd.bytes] at hrun
    exact hrun.add_of_error _

/-- The code of a conversion delivers the converted value. -/
theorem delivers_cast (hΓ : Γ.For ctx) (hconv : a.Converts σ) (hi : Γ.shape i = some σ)
    (hsize : σ.size? ctx.program.types.structSizes = some n)
    (hk : ctx.size? operand.info = some k) (hlt : k < 2 ^ 31) (hm : m.Ready) (hroom : m.HasRoom n)
    (hlaid : l.Laid m.memory m.ip
      (first ++ [.op (.cast a.kind (Word.size32 k) σ.kind (Word.size32 n))]))
    (hapart : m.ip + Piece.size
      (first ++ [.op (.cast a.kind (Word.size32 k) σ.kind (Word.size32 n))]) ≤ m.limit ∨
        m.sp ≤ m.ip)
    (hy : (∃ v data, operand.Yields ctx read a v data) ∨ operand.Divides ctx read)
    (hrun : m.Delivers natives (Piece.count first) (operand.bytes ctx read)) :
    m.Delivers natives (Piece.count first + 1) ((Expr.cast i operand).bytes ctx read) := by
  have hn : ctx.size? i = some n := (hΓ.size?_eq hi).trans hsize
  have hnlt := hm.room_lt hroom
  obtain ⟨v, data, hv⟩ | hd := hy
  · obtain rfl : data.length = k := Option.some.inj (hv.length.symm.trans hk)
    have hpush := hrun.ok data hv.bytes
    obtain ⟨w, hw, hof, hy⟩ := yields_cast hΓ hv hconv hi hsize hnlt
    obtain ⟨x0, x1, x2, h0, h1, -, hat⟩ := (hpush.laid_next hlaid hapart).at
    obtain rfl : Word.size32 data.length = x0 := Except.ok.inj h0
    obtain rfl : Word.size32 n = x1 := Except.ok.inj h1
    rw [hy.bytes]
    refine hpush.delivers hm (by rwa [Value.length_encode hsize hof]) ?_
    rw [Machine.tick_cast (hpush.ready hm) hat hpush.tops (Word.toInt_size32 hlt) hv.decode hw
      (Word.toInt_size32 hnlt), take_encode hsize hof]
  · rw [(divides_cast hd hn).bytes]
    rw [hd.bytes] at hrun
    exact hrun.add_of_error _

/-- The instruction of an operator delivers what the operator makes of two operands that have been
pushed, or faults as the operator does. -/
theorem delivers_operator {op : BinaryOp} {l' r : Value} {ldata rdata : List UInt8}
    {Q : Nat → Prop} {last : Instruction} (hop : op.Takes a b σ)
    (hlast : op.Emits a.kind ldata.length rdata.length Q last) (hQ : ∀ k, Q k → k = n)
    (hn : ctx.size? i = some n) (hsize : σ.size? ctx.program.types.structSizes = some n)
    (hyl : left.Yields ctx read a l' ldata) (hyr : right.Yields ctx read b r rdata)
    (hm : m.Ready) (hroom : m.HasRoom n) (hpush : m.Pushes (m.run natives k) k (ldata ++ rdata))
    (hlaid : l.Laid (m.run natives k).memory (m.run natives k).ip [.op last]) :
    m.Delivers natives (k + 1) ((Expr.binary i op left right).bytes ctx read) := by
  have hlt := hm.room_lt hroom
  have htick := hlast.tick natives hop hQ hsize hlt (hpush.ready hm) hlaid hpush.tops hyl.decode
    hyr.decode hyl.of hyr.of
  obtain ⟨w, hw, hof, hy⟩ | ⟨hdiv, hd⟩ := yields_binary hyl hyr hop hn hsize hlt
  · rw [hy.bytes]
    refine hpush.delivers hm ?_ (htick.1 w hw)
    rwa [Value.length_encode hsize hof]
  · rw [hd.bytes]
    refine .of_halted ?_
    rw [Machine.run_add, Machine.run_one (hpush.ready hm), htick.2 hdiv]
    rfl

end Operators

/-- **The code of an expression delivers the expression's value.** -/
theorem Typed.runs (hΓ : Γ.For ctx) (h : e.Typed Γ) (hp : e.isPlain = true)
    (hσ : Γ.shape e.info = some σ) (hval : σ.isValue = true) (hcode : e.Loads ctx z code)
    (hm : m.Ready) (hlaid : l.Laid m.memory m.ip code)
    (hapart : m.ip + Piece.size code ≤ m.limit ∨ m.sp ≤ m.ip)
    (hsees : m.Sees l z read (e.reads ctx)) (hroom : m.HasRoom (e.room ctx)) :
    m.Delivers natives (Piece.count code) (e.bytes ctx read) := by
  induction e using Expr.induct generalizing σ code m with
  | literal i v =>
    obtain ⟨τ, hτ, hfit⟩ := h
    obtain rfl : τ = σ := Option.some.inj (hτ.symm.trans hσ)
    obtain ⟨t, n, last, ht, hn, hv, rfl⟩ := hcode
    obtain ⟨t', ht', hσt⟩ := Env.shape_eq_some.1 hσ
    obtain rfl : t' = t := Option.some.inj (ht'.symm.trans ht)
    exact delivers_literal hΓ hσ (hΓ.types ▸ hσt) hn hfit hv ⟨rfl, by simp⟩ rfl rfl hm hlaid hsees
      hroom
  | name i title decl =>
    have place (hplace : ∃ kind n place, ctx.Types (.name i title decl) kind n ∧
        ctx.place? (.name i title decl) = some place ∧ code = [.op (place.load n)]) :
        m.Delivers natives (Piece.count code) ((Expr.name i title decl).bytes ctx read) := by
      obtain ⟨kind, n, place, ht, hplace, rfl⟩ := hplace
      have hi : ctx.size? i = some n := ht.size?_eq
      exact delivers_place ht hplace (by simp) hm hlaid hsees (by simp [reads, hplace, hi]) hroom
    match decl, h with
    | some (.constant k), ⟨τ, v, hτ, hv, hfit⟩ =>
      obtain rfl : τ = σ := Option.some.inj (hτ.symm.trans hσ)
      obtain ⟨t, v', n, last, ht, hv', hn, hload, rfl⟩ := hcode
      rw [hΓ.constant] at hv
      obtain rfl : v' = v := Option.some.inj (hv'.symm.trans hv)
      obtain ⟨t', ht', hσt⟩ := Env.shape_eq_some.1 hσ
      obtain rfl : t' = t := Option.some.inj (ht'.symm.trans ht)
      rw [hΓ.types] at hσt
      refine delivers_literal hΓ hσ (TypeTable.shape?_base hσt) hn hfit hload ⟨rfl, by simp⟩ rfl ?_
        hm hlaid hsees hroom
      simp only [eval, hv]
      rfl
    | some (.localVar _), _ => exact place hcode
    | some (.argument _), _ => exact place hcode
    | some (.dataField _), _ => exact place hcode
  | member i target field decl _ =>
    obtain ⟨kind, n, place, ht, hplace, rfl⟩ := hcode
    have hi : ctx.size? i = some n := ht.size?_eq
    exact delivers_place ht hplace (by simp) hm hlaid hsees (by simp [reads, hplace, hi]) hroom
  | call i f arguments c _ => cases hp
  | unary i op operand ih =>
    have hlt := hm.room_lt hroom
    obtain ⟨n, hsize, hn, hle⟩ := h.exists_size hΓ hσ hval
    replace hn : ctx.size? i = some n := hn
    obtain ⟨ho, τ, hτ, hop, hi⟩ := h
    obtain rfl : τ = σ := Option.some.inj (hi.symm.trans hσ)
    obtain ⟨kind, n', first, hfirst, ht, rfl⟩ := hcode
    obtain ⟨rfl, hsize'⟩ := hΓ.types_eq hτ ht
    obtain rfl : n = n' := Option.some.inj (hsize.symm.trans hsize')
    refine delivers_unary hop hn hsize ht.size?_eq hm (hroom.mono hle) hlaid hapart
      (ho.yields_or_divides hΓ hp hτ hval hfirst hsees.length hlt) ?_
    rw [Piece.size_append] at hapart
    exact ih ho hp hτ hval hfirst hm hlaid.left (by omega) hsees hroom
  | binary i op left right ihl ihr =>
    have hlt := hm.room_lt hroom
    obtain ⟨n, hsize, hn, hle⟩ := h.exists_size hΓ hσ hval
    replace hn : ctx.size? i = some n := hn
    obtain ⟨hl, hr, a, b, c, ha, hb, hop, hi⟩ := h
    obtain rfl : c = σ := Option.some.inj (hi.symm.trans hσ)
    obtain ⟨kind, k, kind', k', first, second, last, htl, htr, hfirst, hsecond, hlast, rfl⟩ := hcode
    obtain ⟨rfl, -⟩ := hΓ.types_eq ha htl
    obtain ⟨hpl, hpr⟩ := Bool.and_eq_true_iff.1 hp
    obtain ⟨hva, hvb, -⟩ := Shape.isValue_of_binary hop
    have hroomr : right.room ctx ≤ (Expr.binary i op left right).room ctx := le_max_left _ _
    have hrooml : k' + left.room ctx ≤ (Expr.binary i op left right).room ctx := by
      simp only [room, htr.size?_eq, Option.getD_some]
      omega
    have hseesr : m.Sees l z read (right.reads ctx) := hsees.mono (by simp +contextual [reads])
    have hseesl : m.Sees l z read (left.reads ctx) := hsees.mono (by simp +contextual [reads])
    have hbehind : m.ip + Piece.size (first ++ second) ≤ m.limit ∨ m.sp ≤ m.ip := by
      rw [Piece.size_append] at hapart
      omega
    have hrunr := ihr hr hpr hb hvb hfirst hm hlaid.left.left
      (by rw [Piece.size_append] at hbehind; omega) hseesr (hroom.mono hroomr)
    simp only [Piece.count_append, Nat.add_assoc]
    -- The right operand is computed first, and what it leaves lies below the left one.
    obtain ⟨r, rdata, hyr⟩ | hd := hr.yields_or_divides hΓ hpr hb hvb hfirst hseesr.length
      (hroomr.trans_lt hlt)
    · have hpushr := hrunr.ok rdata hyr.bytes
      obtain rfl : rdata.length = k' := Option.some.inj (hyr.length.symm.trans htr.size?_eq)
      have hroomm : (m.run natives (Piece.count first)).HasRoom (left.room ctx) := by
        unfold Machine.HasRoom at hroom ⊢
        rw [hpushr.limit, hpushr.sp]
        omega
      have hrunl := ihl hl hpl ha hva hsecond (hpushr.ready hm) (hpushr.laid_next hlaid.left hbehind)
        (hpushr.apart_next hbehind) (hpushr.sees hseesl) hroomm
      rw [← Nat.add_assoc]
      obtain ⟨v, data, hyl⟩ | hd := hl.yields_or_divides hΓ hpl ha hva hsecond hseesl.length
        (by omega)
      · have hpush := hpushr.append (hrunl.ok data hyl.bytes)
        rw [← Machine.run_add, ← Piece.count_append] at hpush
        obtain rfl : data.length = k := Option.some.inj (hyl.length.symm.trans htl.size?_eq)
        have hQ (k : Nat) (hk : ∃ kind, ctx.Types (.binary i op left right) kind k) : k = n := by
          obtain ⟨kind, hk⟩ := hk
          exact Option.some.inj (hk.size?_eq.symm.trans hn)
        have hnext := hpush.laid_next hlaid hapart
        rw [Piece.count_append] at hpush hnext
        exact delivers_operator hop hlast hQ hn hsize hyl hyr hm (hroom.mono hle) hpush hnext
      · have hfault := hrunl.error hd.bytes
        rw [← Machine.run_add] at hfault
        rw [(divides_binary_left hyr hd hn).bytes]
        exact (Machine.Delivers.of_halted hfault).add_of_error _
    · rw [(divides_binary_right hd hn).bytes]
      rw [hd.bytes] at hrunr
      exact hrunr.add_of_error _
  | cast i operand ih =>
    have hlt := hm.room_lt hroom
    obtain ⟨n, hsize, hn, hle⟩ := h.exists_size hΓ hσ hval
    obtain ⟨ho, -, τ, τ', hτ, hi, hconv⟩ := h
    obtain rfl : τ' = σ := Option.some.inj (hi.symm.trans hσ)
    obtain ⟨source, k, target, k', first, hfirst, ht, ht', rfl⟩ := hcode
    obtain ⟨rfl, -⟩ := hΓ.types_eq hτ ht
    obtain ⟨rfl, hsize'⟩ := hΓ.types_eq hσ ht'
    obtain rfl : n = k' := Option.some.inj (hsize.symm.trans hsize')
    have hvτ := (Shape.isValue_of_converts hconv).1
    have hroomo : operand.room ctx ≤ (Expr.cast i operand).room ctx := le_max_left _ _
    have hk : k < 2 ^ 31 := ((ho.size_le_room hΓ hτ ht.size?_eq).trans hroomo).trans_lt hlt
    rw [Piece.count_append]
    refine delivers_cast hΓ hconv hi hsize ht.size?_eq hk hm (hroom.mono hle) hlaid hapart
      (ho.yields_or_divides hΓ hp hτ hvτ hfirst hsees.length (hroomo.trans_lt hlt)) ?_
    rw [Piece.size_append] at hapart
    exact ih ho hp hτ hvτ hfirst hm hlaid.left (by omega) hsees (hroom.mono hroomo)
  | pointer i target temp _ => cases hp

end Expr

end ChannelBasic
