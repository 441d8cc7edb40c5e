import ChannelBasic.Proofs.Execution.Counting
import ChannelBasic.Proofs.Execution.Simulation

/-!
# Proofs/Execution/Turns — the code of a counting loop

Before the loop its end, its step and the sign of its step are put into the frame, and its start
into the counter (`EmissionContext.begin`); then it is tested, run and moved on until it is over
(`Tally.turns`).  **The code of a counting loop does both** (`CountedLoop.follows`), so it runs its
body for the numbers of its range if the difference of start and end fits the counter
(`CountedLoop.follows_range`), and leaves them out if it does not (`CountedLoop.skips_range`).
-/

namespace ChannelBasic

open Code

/-! ## Numbers in bytes -/

namespace Value

/-- A number as a value of a numeric type, a REAL being a count of ten-thousandths. -/
def ofRaw (s : Scalar) (n : Int64) : Value := if s = .real then .real ⟨n⟩ else .integral n

variable {s : Scalar} {op : Opcode} {data right : List UInt8}

theorem decode_raw (hs : s.isNumeric = true) (data : List UInt8) :
    decode (Shape.scalar s).kind data = .ok (ofRaw s (Word.read data)) := by
  cases s <;> first | rfl | cases hs

theorem sign_ofRaw (s : Scalar) (n : Int64) : (ofRaw s n).sign = .ok n.toInt.sign := by
  cases s <;> rfl

theorem encode_ofRaw (s : Scalar) (n : Int64) :
    (ofRaw s n).encode s.size = Word.ofInt s.size n.toInt := by
  rw [← Word.fit_ofInt64 s.size_le_eight]
  cases s <;> rfl

/-- What a counting loop computes with numbers: it adds and subtracts them. -/
def counts? : Opcode → Option (Int → Int → Int)
  | .ADD => some (· + ·)
  | .SUB => some (· - ·)
  | _ => none

/-- A sum or difference of numbers is cut to their width. -/
theorem binary_raw (s : Scalar) {f : Int → Int → Int} (hf : counts? op = some f) (x y : Int64) :
    ∃ u, binary op (ofRaw s x) (ofRaw s y) = .ok u ∧
      u.encode s.size = Word.ofInt s.size (f x.toInt y.toInt) := by
  have raw {z : Int64} (hop : binary op (ofRaw s x) (ofRaw s y) = .ok (ofRaw s z))
      (hz : z.toInt = Int.bmod (f x.toInt y.toInt) Int64.size) :
      ∃ u, binary op (ofRaw s x) (ofRaw s y) = .ok u ∧
        u.encode s.size = Word.ofInt s.size (f x.toInt y.toInt) :=
    ⟨_, hop, by rw [encode_ofRaw, hz, Word.ofInt_bmod_size s.size_le_eight]⟩
  unfold counts? at hf
  split at hf
  · obtain rfl := Option.some.inj hf
    exact raw (z := x + y) (by cases s <;> rfl) (Int64.toInt_add x y)
  · obtain rfl := Option.some.inj hf
    exact raw (z := x - y) (by cases s <;> rfl) (Int64.toInt_sub x y)
  · cases hf

theorem toInt_read_of_length (h : data.length = s.size) :
    (Word.read data).toInt = Word.signed data :=
  Word.toInt_read (h.trans_le s.size_le_eight)

/-- Bytes are equal as numbers if they are as bytes. -/
theorem compare_bytes (x y : UInt8) :
    compare .equal (.integral (Word.read [x])) (.integral (Word.read [y])) = .ok ([x] == [y]) := by
  have hx : (Word.read [x]).toInt = Word.signed [x] := Word.toInt_read (Nat.le_of_ble_eq_true rfl)
  have hy : (Word.read [y]).toInt = Word.signed [y] := Word.toInt_read (Nat.le_of_ble_eq_true rfl)
  have hinj : Word.signed [x] = Word.signed [y] ↔ [x] = [y] := by
    refine ⟨fun h => ?_, congrArg _⟩
    have hx := Word.ofInt_signed [x]
    rw [h] at hx
    exact hx.symm.trans (Word.ofInt_signed [y])
  refine congrArg Except.ok (Bool.eq_iff_iff.2 ?_)
  rw [Comparison.accepts, beq_iff_eq, beq_iff_eq, compare_eq_iff_eq, hx, hy, hinj]

end Value

/-! ## Single instructions -/

namespace Machine

variable {Γ : Env} {S : Setting} {image : Image} {l : Link} {a : Activation} {room n : Nat}
  {m : Machine} {ip target : Int} {σ : Store} {natives : Natives} {place : Place} {s : Scalar}
  {data right out top : List UInt8} {code rest : List Piece} {label : Label}

/-- An instruction replaces bytes on top by its answer. -/
theorem Mirrors.answers (h : m.Mirrors S image a ip (data ++ top) σ) (hA : a.Hosts S image l room)
    (htick : m.tick natives = (m.popped data.length).answered out)
    (hroom : out.length + top.length ≤ room) :
    (m.tick natives).Mirrors S image a (ip + recordSize) (out ++ top) σ := by
  obtain ⟨htop, hunder⟩ := tops_append.1 h.tops
  have hready := (h.runs.ready hA.proper hA.within).popped htop
  have hsp := h.runs.sp
  have hlimit := h.runs.limit
  have hlow := hA.proper.low
  have hhosts := hA.room
  rw [List.length_append] at hsp
  have hfits : (m.popped data.length).HasRoom out.length := by
    change m.limit ≤ m.sp + data.length - out.length
    omega
  have hsame := hready.same_pushed hfits
  rw [htick, answered_of_hasRoom hfits]
  refine ⟨⟨h.runs.running, ?_, ?_, h.runs.lp, h.runs.entrySp, hlimit, hfits,
    h.runs.same.trans (hsame.mono fun x hx => ?_)⟩, ?_, h.shows.same hsame fun p hp => ?_⟩
  · change m.ip + recordSize = _
    rw [h.runs.ip]
  · change m.sp + data.length - out.length = _
    rw [List.length_append]
    omega
  · change x < m.limit ∨ m.sp + data.length ≤ x
    have hdata := hA.within.data
    rcases hx with hx | hx | hx <;> omega
  · exact (hready.tops_pushed_append hfits hunder).next
  · change _ < m.limit ∨ m.sp + data.length ≤ _
    obtain ⟨o, -, hbound, -⟩ | ⟨o, -, -, hbound⟩ := hA.bounds hp <;> omega

/-- An instruction pushes its answer. -/
theorem Mirrors.answers_more (h : m.Mirrors S image a ip top σ) (hA : a.Hosts S image l room)
    (htick : m.tick natives = m.answered out) (hroom : out.length + top.length ≤ room) :
    (m.tick natives).Mirrors S image a (ip + recordSize) (out ++ top) σ := by
  have hnil : m.Mirrors S image a ip ([] ++ top) σ := h
  refine hnil.answers hA ?_ hroom
  rw [htick, popped, List.length_nil, Nat.cast_zero, Int.add_zero]

/-- An instruction replaces everything that is pushed by its answer. -/
theorem Mirrors.answers_all (h : m.Mirrors S image a ip data σ) (hA : a.Hosts S image l room)
    (htick : m.tick natives = (m.popped data.length).answered out) (hroom : out.length ≤ room) :
    (m.tick natives).Mirrors S image a (ip + recordSize) out σ := by
  have hnil : m.Mirrors S image a ip (data ++ []) σ := by rwa [List.append_nil]
  have hanswers := hnil.answers hA htick hroom
  rwa [List.append_nil] at hanswers

/-- What the store has at a place is pushed. -/
theorem Mirrors.load (natives : Natives) (h : m.Mirrors S image a ip top σ)
    (hA : a.Hosts S image l room) (hcode : image.Lies l ip (.op (place.load n) :: rest))
    (hplace : S.Has place n) (hroom : n + top.length ≤ room) :
    (m.tick natives).Mirrors S image a (ip + recordSize) (σ.read place n ++ top) σ := by
  have hsees : m.Sees l S.state σ.read [(place, n)] := h.sees hA hcode fun x hx => by
    obtain rfl := List.mem_singleton.1 hx
    exact hplace
  have hn : n < 2 ^ 31 := (Nat.le_of_add_right_le hroom).trans_lt hA.room_lt
  refine h.answers_more hA (hsees.tick_place (h.runs.ready hA.proper hA.within)
    (List.mem_singleton_self _) hn (h.runs.laid hA.proper hA.within hcode)) ?_
  rwa [Store.length_read]

/-- What is on top is pushed again. -/
theorem Mirrors.dup (natives : Natives) (h : m.Mirrors S image a ip data σ)
    (hA : a.Hosts S image l room)
    (hcode : image.Lies l ip (.op (.dup (Word.size32 data.length)) :: rest))
    (hroom : data.length + data.length ≤ room) :
    (m.tick natives).Mirrors S image a (ip + recordSize) (data ++ data) σ := by
  obtain ⟨x0, x1, x2, h0, h1, h2, hat⟩ := (h.runs.laid hA.proper hA.within hcode).at
  obtain rfl : Word.size32 data.length = x0 := Except.ok.inj h0
  exact h.answers_more hA (tick_dup (h.runs.ready hA.proper hA.within) hat h.tops
    (Word.toInt_size32 h.tops.length_lt)) hroom

/-- `SIGN` says in a byte whether a number is negative, zero or positive. -/
theorem Mirrors.sign (natives : Natives) (h : m.Mirrors S image a ip data σ)
    (hA : a.Hosts S image l room) (hs : s.isNumeric = true) (hlen : data.length = s.size)
    (hcode : image.Lies l ip
      (.op (.unary .SIGN (Shape.scalar s).kind (Word.size32 data.length)) :: rest))
    (hroom : 1 ≤ room) :
    (m.tick natives).Mirrors S image a (ip + recordSize) (Word.ofInt 1 (Word.signed data).sign)
      σ := by
  obtain ⟨x0, x1, x2, h0, h1, h2, hat⟩ := (h.runs.laid hA.proper hA.within hcode).at
  obtain rfl : Word.size32 data.length = x0 := Except.ok.inj h0
  have hsign := Value.sign_ofRaw s (Word.read data)
  rw [Value.toInt_read_of_length hlen] at hsign
  refine h.answers_all hA (tick_sign (h.runs.ready hA.proper hA.within) hat h.tops
    (Word.toInt_size32 h.tops.length_lt) (Value.decode_raw hs data) hsign) ?_
  rwa [Word.length_ofInt]

/-- Two numbers are added, or one is taken from the other. -/
theorem Mirrors.combine (natives : Natives) {op : Opcode} {f : Int → Int → Int}
    (h : m.Mirrors S image a ip (data ++ right) σ) (hA : a.Hosts S image l room)
    (hf : Value.counts? op = some f) (hs : s.isNumeric = true) (hlen : data.length = s.size)
    (hlen' : right.length = s.size)
    (hcode : image.Lies l ip (.op (.binary op (Shape.scalar s).kind (Word.size32 s.size)
      (Word.size32 s.size) (Word.size32 s.size)) :: rest)) (hroom : s.size ≤ room) :
    (m.tick natives).Mirrors S image a (ip + recordSize)
      (Word.ofInt s.size (f (Word.signed data) (Word.signed right))) σ := by
  obtain ⟨x0, x1, x2, h0, h1, h2, hat⟩ := (h.runs.laid hA.proper hA.within hcode).at
  obtain rfl : Word.size32 s.size = x0 := Except.ok.inj h0
  obtain rfl : Word.size32 s.size = x1 := Except.ok.inj h1
  obtain rfl : Word.size32 s.size = x2 := Except.ok.inj h2
  have hsize : (Word.size32 s.size).toInt = s.size :=
    Word.toInt_size32 (s.size_le_eight.trans_lt (by decide))
  have hop : op.isBinary = true := by cases op <;> first | rfl | cases hf
  obtain ⟨u, hu, hbytes⟩ := Value.binary_raw s hf (Word.read data) (Word.read right)
  rw [Value.toInt_read_of_length hlen, Value.toInt_read_of_length hlen'] at hbytes
  have htick : m.tick natives = _ := tick_binary (h.runs.ready hA.proper hA.within) hop hat h.tops
    (by rw [hsize, hlen]) (by rw [hsize, hlen']) (Value.decode_raw hs data)
    (Value.decode_raw hs right) hu hsize
  rw [hbytes, List.take_of_length_le (by rw [Word.length_ofInt]), popped_popped] at htick
  refine h.answers_all hA ?_ (by rwa [Word.length_ofInt])
  rw [htick, List.length_append, Nat.cast_add]

/-- Two bytes are compared. -/
theorem Mirrors.compare (natives : Natives) {x y : UInt8} (h : m.Mirrors S image a ip [x, y] σ)
    (hA : a.Hosts S image l room)
    (hcode : image.Lies l ip (.op (.compare .byte .equal 1 1) :: rest)) (hroom : 1 ≤ room) :
    (m.tick natives).Mirrors S image a (ip + recordSize) [if [x] == [y] then 1 else 0] σ := by
  obtain ⟨x0, x1, x2, h0, h1, h2, hat⟩ := (h.runs.laid hA.proper hA.within hcode).at
  obtain rfl : 1 = x0 := Except.ok.inj h0
  obtain rfl : 1 = x1 := Except.ok.inj h1
  refine h.answers_all hA ?_ hroom
  have hat : m.At (.of .CMP ValueType.byte.code Comparison.equal.code 1 1 x2) := hat
  have htops : m.Tops ([x] ++ [y]) := h.tops
  have htick : m.tick natives = _ := tick_compare (h.runs.ready hA.proper hA.within) hat htops
    rfl rfl rfl rfl (Value.compare_bytes x y)
  rw [htick, popped_popped]
  rfl

end Machine

/-! ## The parts of a loop -/

namespace Tally

/-- The places of a loop are within reach. -/
structure Within (k : Tally) (S : Setting) : Prop where
  counter : S.Has k.counter k.size
  finish : S.Has (.frame k.temps.finish) k.size
  step : S.Has (.frame k.temps.step) k.size
  sign : S.Has (.frame k.temps.sign) 1

/-- The code that keeps the step, which has been pushed, and its sign. -/
def keepCode (k : Tally) (kind : ValueType) : List Piece :=
  [.op (.dup (Word.size32 k.size)), .op ((Place.frame k.temps.step).store k.size),
    .op (.unary .SIGN kind (Word.size32 k.size)), .op ((Place.frame k.temps.sign).store 1)]

/-- The code that leaves a loop when it is over. -/
def testCode (k : Tally) (kind : ValueType) (exit : Label) : List Piece :=
  [.op ((Place.frame k.temps.finish).load k.size), .op (k.counter.load k.size),
    .op (.binary .SUB kind (Word.size32 k.size) (Word.size32 k.size) (Word.size32 k.size)),
    .op (.unary .SIGN kind (Word.size32 k.size)), .op ((Place.frame k.temps.sign).load 1),
    .op (.compare .byte .equal 1 1), Emission.branchOn true exit]

/-- The code that moves the counter on. -/
def nextCode (k : Tally) (kind : ValueType) : List Piece :=
  [.op ((Place.frame k.temps.step).load k.size), .op (k.counter.load k.size),
    .op (.binary .ADD kind (Word.size32 k.size) (Word.size32 k.size) (Word.size32 k.size)),
    .op (k.counter.store k.size)]

/-- The store once the step of a loop and its sign are kept. -/
def keep (k : Tally) (σ : Store) (step : List UInt8) : Store :=
  (σ.write (.frame k.temps.step) step).write (.frame k.temps.sign)
    (Word.ofInt 1 (Word.signed step).sign)

end Tally

namespace Machine

variable {S : Setting} {image : Image} {l : Link} {a : Activation} {room n fuel : Nat}
  {m : Machine} {ip ip' target : Int} {σ : Store} {natives : Natives} {s : Scalar} {k : Tally}
  {data : List UInt8} {body rest rest' : List Piece} {head exit : Label} {f : Store → Completion}

/-- A run goes on with a step. -/
theorem Mirrors.run_step {top : List UInt8} (h : m.Mirrors S image a ip top σ) (natives : Natives)
    (n : Nat) : m.run natives (n + 1) = (m.tick natives).run natives n :=
  run_succ h.runs.running n

/-- The step and its sign are kept. -/
theorem Mirrors.keeps (natives : Natives) (h : m.Mirrors S image a ip data σ)
    (hA : a.Hosts S image l room) (hk : k.Within S) (hs : s.isNumeric = true)
    (hsize : k.size = s.size) (hlen : data.length = k.size) (hroom : k.size + k.size ≤ room)
    (hcode : image.Lies l ip (k.keepCode (Shape.scalar s).kind ++ rest)) :
    (m.run natives 4).Mirrors S image a (ip + Piece.size (k.keepCode (Shape.scalar s).kind)) []
      (k.keep σ data) := by
  have hone : 1 ≤ room := by
    have hpos := s.size_pos
    omega
  have hstep := hk.step
  unfold Tally.keepCode at hcode
  rw [← hlen] at hcode hstep hroom
  have h₁ := h.dup natives hA hcode hroom
  have h₂ := h₁.store_above natives hA hcode.tail hstep
  have h₃ := h₂.sign natives hA hs (hlen.trans hsize) hcode.tail.tail hone
  have hsign := hk.sign
  rw [← Word.length_ofInt 1 (Word.signed data).sign] at hsign
  have h₄ := h₃.store natives hA (by rw [Word.length_ofInt]; exact hcode.tail.tail.tail) hsign
  have hend : ip + Piece.size (k.keepCode (Shape.scalar s).kind) =
      ip + recordSize + recordSize + recordSize + recordSize := by
    simp [Tally.keepCode, add_assoc]
  rw [h.run_step, h₁.run_step, h₂.run_step, h₃.run_step, hend]
  exact h₄

/-- **The test of a loop leaves it if it is over.** -/
theorem Mirrors.tests_over (natives : Natives) (h : m.Mirrors S image a ip [] σ)
    (hA : a.Hosts S image l room) (hk : k.Within S) (hs : s.isNumeric = true)
    (hsize : k.size = s.size) (hroom : k.size + k.size ≤ room)
    (hcode : image.Lies l ip (k.testCode (Shape.scalar s).kind exit ++ rest))
    (hmark : l.Marks exit target) :
    (m.run natives 7).Mirrors S image a (if k.isOver σ then target else
      ip + Piece.size (k.testCode (Shape.scalar s).kind exit)) [] σ := by
  have hpos := s.size_pos
  have hlen (place : Place) : (σ.read place k.size).length = s.size := by
    rw [Store.length_read, hsize]
  unfold Tally.testCode at hcode
  have h₁ := h.load natives hA hcode hk.finish (by rw [List.length_nil]; omega)
  rw [List.append_nil] at h₁
  have h₂ := h₁.load natives hA hcode.tail hk.counter (by rw [Store.length_read]; exact hroom)
  have h₃ := h₂.combine natives hA (f := (· - ·)) rfl hs (hlen _) (hlen _)
    (hsize ▸ hcode.tail.tail) (by omega)
  have h₄ := h₃.sign natives hA hs (Word.length_ofInt _ _)
    (by rw [Word.length_ofInt, ← hsize]; exact hcode.tail.tail.tail) (by omega)
  have h₅ := h₄.load natives hA hcode.tail.tail.tail.tail hk.sign
    (by rw [Word.length_ofInt]; omega)
  rw [Word.signed_ofInt, Word.span_eq, ← hsize] at h₅
  change Mirrors _ S image a _ (σ.read (.frame k.temps.sign) 1 ++
    Word.ofInt 1 (Int.bmod (σ.number k.counter k.size - k.finish σ) (256 ^ k.size)).sign) σ at h₅
  obtain ⟨x, hx⟩ := List.length_eq_one_iff.1 (σ.length_read (.frame k.temps.sign) 1)
  obtain ⟨y, hy⟩ := List.length_eq_one_iff.1 (Word.length_ofInt 1
    (Int.bmod (σ.number k.counter k.size - k.finish σ) (256 ^ k.size)).sign)
  have hover : k.isOver σ = ([x] == [y]) := by rw [Tally.isOver, hx, hy]
  rw [hx, hy] at h₅
  have h₆ := Mirrors.compare natives h₅ hA hcode.tail.tail.tail.tail.tail (by omega)
  have h₇ := h₆.branch natives hA hcode.tail.tail.tail.tail.tail.tail hmark
  rw [h.run_step, h₁.run_step, h₂.run_step, h₃.run_step, h₄.run_step, h₅.run_step, h₆.run_step]
  rw [hover]
  cases hxy : [x] == [y] with
  | true => simpa [hxy, run] using h₇
  | false => simpa [hxy, run, Tally.testCode, Emission.branchOn, add_assoc] using h₇

/-- The counter is moved on. -/
theorem Mirrors.moves_on (natives : Natives) (h : m.Mirrors S image a ip [] σ)
    (hA : a.Hosts S image l room) (hk : k.Within S) (hs : s.isNumeric = true)
    (hsize : k.size = s.size) (hroom : k.size + k.size ≤ room)
    (hcode : image.Lies l ip (k.nextCode (Shape.scalar s).kind ++ rest)) :
    (m.run natives 4).Mirrors S image a (ip + Piece.size (k.nextCode (Shape.scalar s).kind)) []
      (k.next σ) := by
  have hlen (place : Place) : (σ.read place k.size).length = s.size := by
    rw [Store.length_read, hsize]
  unfold Tally.nextCode at hcode
  have h₁ := h.load natives hA hcode hk.step (by rw [List.length_nil]; omega)
  rw [List.append_nil] at h₁
  have h₂ := h₁.load natives hA hcode.tail hk.counter (by rw [Store.length_read]; exact hroom)
  have h₃ := h₂.combine natives hA (f := (· + ·)) rfl hs (hlen _) (hlen _)
    (hsize ▸ hcode.tail.tail) (by omega)
  rw [← hsize] at h₃
  have hcounter := hk.counter
  rw [← Word.length_ofInt k.size (σ.number k.counter k.size + k.step σ)] at hcounter
  have h₄ := h₃.store natives hA (by rw [Word.length_ofInt]; exact hcode.tail.tail.tail) hcounter
  have hend : ip + Piece.size (k.nextCode (Shape.scalar s).kind) =
      ip + recordSize + recordSize + recordSize + recordSize := by
    simp [Tally.nextCode, add_assoc]
  rw [h.run_step, h₁.run_step, h₂.run_step, h₃.run_step, hend]
  exact h₄

/-- **The code of a loop tests, runs its body and moves on until it is over.** -/
theorem Mirrors.turns (natives : Natives) (h : m.Mirrors S image a ip [] σ)
    (hA : a.Hosts S image l room) (hk : k.Within S) (hs : s.isNumeric = true)
    (hsize : k.size = s.size) (hroom : k.size + k.size ≤ room)
    (htest : image.Lies l ip (k.testCode (Shape.scalar s).kind exit ++ rest))
    (hexit : l.Marks exit ip')
    (hbody : ∀ (m : Machine) σ,
      m.Mirrors S image a (ip + Piece.size (k.testCode (Shape.scalar s).kind exit)) [] σ →
        m.Follows natives S image a target fuel (f σ))
    (hnext : image.Lies l target (k.nextCode (Shape.scalar s).kind ++ .op (.jump head) :: rest'))
    (hmark : l.Marks head ip) (hn : n ≤ fuel) :
    m.Follows natives S image a ip' n (k.turns f n σ) := by
  induction n generalizing m σ with
  | zero => exact ⟨0, le_rfl, h.runs.running⟩
  | succ n ih =>
    have htested := h.tests_over natives hA hk hs hsize hroom htest hexit
    rw [Tally.turns]
    split
    next hover =>
      rw [if_pos hover] at htested
      exact ⟨7, htested⟩
    next hover =>
      rw [if_neg hover] at htested
      have hround : (m.run natives 7).Follows natives S image a ip' (n + 1)
          ((f σ).andThen fun σ => k.turns f n (k.next σ)) := by
        refine ((hbody _ σ htested).mono hn).andThen fun m' σ' h' => ?_
        have hmoved := h'.moves_on natives hA hk hs hsize hroom hnext
        have hback := hmoved.jump natives hA hnext.right hmark
        rw [← hmoved.run_one natives, ← run_add] at hback
        exact (ih hback (by omega)).of_run.mono (by omega)
      exact hround.of_run.mono (by omega)

end Machine

/-! ## Counting loops -/

namespace EmissionContext

/-- Where a counting loop has its numbers. -/
def tally? (ctx : EmissionContext) (counter : Expr) (temps : Temps) : Option Tally := do
  return ⟨← ctx.place? counter, ← ctx.size? counter.info, temps⟩

/-- The bytes of a step, which is one if none is given. -/
def stepBytes (ctx : EmissionContext) (counter : Expr) (σ : Store) :
    Option Expr → Except Fault (List UInt8)
  | some e => e.bytes ctx σ.read
  | none => .ok (Word.ofInt ((ctx.size? counter.info).getD 0)
      (if ctx.kind counter.info = .real then Fixed.scale else 1))

/-- What is done before a counting loop: end, step and sign of the step are kept, the counter gets
its start. -/
def begin (ctx : EmissionContext) (k : Tally) (counter start finish : Expr) (step : Option Expr)
    (σ : Store) : Completion :=
  (finish.put ctx (some (.frame k.temps.finish)) σ).andThen fun σ =>
    (Completion.given (ctx.stepBytes counter σ step) fun data => .next (k.keep σ data)).andThen
      fun σ => start.put ctx (some k.counter) σ

end EmissionContext

/-- The code of a place loads what lies there. -/
theorem Expr.Loads.eq_of_place {ctx : EmissionContext} {z : EmissionState} {code : List Piece}
    {e : Expr} {place : Place} {n : Nat} (h : e.Loads ctx z code)
    (hplace : ctx.place? e = some place) (hn : ctx.size? e.info = some n) :
    code = [.op (place.load n)] := by
  have found (h : ∃ kind n place, ctx.Types e kind n ∧ ctx.place? e = some place ∧
      code = [.op (place.load n)]) : code = [.op (place.load n)] := by
    obtain ⟨kind, n', place', ht, hplace', hcode⟩ := h
    obtain rfl := Option.some.inj (hplace'.symm.trans hplace)
    obtain rfl := Option.some.inj (ht.size?_eq.symm.trans hn)
    exact hcode
  cases e with
  | name i title decl =>
    cases decl with
    | none => cases hplace
    | some d =>
      cases d with
      | constant k => cases hplace
      | localVar k | argument k | dataField k => exact found h
  | member i target field decl => exact found h
  | literal | call | unary | binary | cast | pointer => cases hplace

/-- The code of a counting loop, part by part. -/
theorem countCode_eq (kind : ValueType) (k : Tally) (head exit : Label)
    (finish step start body : List Piece) :
    countCode kind k.size k.counter k.temps head exit finish step start
        [.op (k.counter.load k.size)] [.op (k.counter.load k.size)] body =
      finish ++ (.op ((Place.frame k.temps.finish).store k.size) :: (step ++ (k.keepCode kind ++
        (start ++ (.op (k.counter.store k.size) :: .mark head :: (k.testCode kind exit ++
          (body ++ (k.nextCode kind ++ [.op (.jump head), .mark exit])))))))) := by
  unfold countCode Tally.keepCode Tally.testCode Tally.nextCode
  simp only [List.append_assoc, List.cons_append, List.nil_append]

section Statements

variable {Γ : Env} {S : Setting} {image : Image} {l : Link} {a : Activation} {room fuel : Nat}
  {m : Machine} {ip : Int} {σ : Store} {k : Tally} {s : Scalar} {counter start finish : Expr}
  {step : Option Expr} {body : List Stmt} {temps : Temps} {location : Location}
  {code rest : List Piece}

/-- A counting loop without calls and its code; the stack has room for two numbers and for whatever
the parts of the loop push. -/
structure CountedLoop (S : Setting) (Γ : Env) (room : Nat) (location : Location)
    (counter start finish : Expr) (step : Option Expr) (body : List Stmt) (temps : Temps)
    (code : List Piece) : Prop where
  plain_start : start.isPlain = true
  plain_finish : finish.isPlain = true
  plain_step : step.all Expr.isPlain = true
  structured : Stmt.areStructured body = true
  typed : (Stmt.count location counter start finish step body temps).Typed Γ S.ctx.function.returns
  framed : (Stmt.count location counter start finish step body temps).Framed S.ctx.program.types
    S.ctx.program.constantValue (-(S.ctx.body.frame.locals : Int))
  roomy : (Stmt.count location counter start finish step body temps).room S.ctx ≤ room
  wide : 16 ≤ room
  emits : (Stmt.count location counter start finish step body temps).Emits S.ctx S.state code

/-- The step of a loop is computed and kept with its sign. -/
theorem Machine.Mirrors.keeps_step (natives : Natives) (h : m.Mirrors S image a ip [] σ)
    (hA : a.Hosts S image l room) (hS : S.Fits Γ) (hk : k.Within S) (hs : s.isNumeric = true)
    (hsize : k.size = s.size) (hcounter : Γ.shape counter.info = some (.scalar s))
    (hstep : ∀ e, step = some e → e.Typed Γ ∧ Γ.shape e.info = some (.scalar s))
    (hp : step.all Expr.isPlain = true) (hcode : S.ctx.LoadsStep S.state counter code step)
    (hroom : Expr.roomOf S.ctx step ≤ room) (hwide : k.size + k.size ≤ room)
    (hlies : image.Lies l ip (code ++ (k.keepCode (Shape.scalar s).kind ++ rest))) :
    m.Follows natives S image a
      (ip + Piece.size code + Piece.size (k.keepCode (Shape.scalar s).kind)) fuel
      (.given (S.ctx.stepBytes counter σ step) fun data => .next (k.keep σ data)) := by
  have hcounterSize : S.ctx.size? counter.info = some s.size := hS.env.size?_eq hcounter
  -- once the step is pushed it is kept
  have kept {j : Nat} {data : List UInt8} (hlen : data.length = k.size)
      (hpushed : (m.run natives j).Mirrors S image a (ip + Piece.size code) data σ) :
      m.Follows natives S image a
        (ip + Piece.size code + Piece.size (k.keepCode (Shape.scalar s).kind)) fuel
        (.next (k.keep σ data)) := by
    have hkeeps := hpushed.keeps natives hA hk hs hsize hlen hwide hlies.right
    rw [← Machine.run_add] at hkeeps
    exact ⟨_, hkeeps⟩
  cases step with
  | some e =>
    obtain ⟨he, hτ⟩ := hstep e rfl
    obtain ⟨data, hdata, hlength, hrun⟩ | ⟨hdiv, hrun⟩ :=
      h.computes natives hA hS he hp hτ hcode hlies.left hroom
    · rw [EmissionContext.stepBytes, hdata]
      have hsize' : S.ctx.size? e.info = some s.size := hS.env.size?_eq hτ
      exact kept ((Option.some.inj (hlength.symm.trans hsize')).trans hsize.symm) hrun
    · rw [EmissionContext.stepBytes, hdiv]
      exact ⟨rfl, _, hrun⟩
  | none =>
    obtain ⟨t, n, last, ht, hn, hlast, rfl⟩ := hcode
    obtain rfl : s.size = n := by
      rw [EmissionContext.size?, show counter.info.type = some t from ht, Option.bind_some, hn]
        at hcounterSize
      exact (Option.some.inj hcounterSize).symm
    obtain rfl : last = _ := hlast
    have htick : m.tick natives = _ := Machine.tick_loadNumber (h.runs.ready hA.proper hA.within)
      s.size_le_eight (h.runs.laid hA.proper hA.within hlies.left)
    rw [Word.fit_ofInt64 s.size_le_eight] at htick
    have hpushed := h.answers_more hA htick (by rw [Word.length_ofInt, List.length_nil]; omega)
    rw [List.append_nil, ← h.run_one natives] at hpushed
    have hraw : (if S.ctx.program.types.valueType t = .real then (Fixed.ofInt 1).raw else 1).toInt =
        if S.ctx.kind counter.info = .real then Fixed.scale else 1 := by
      rw [EmissionContext.kind, show counter.info.type = some t from ht]
      simp only [Option.map_some, Option.getD_some]
      split <;> rfl
    rw [hraw] at hpushed
    have hbytes : S.ctx.stepBytes counter σ none = .ok (Word.ofInt s.size
        (if S.ctx.kind counter.info = .real then Fixed.scale else 1)) := by
      rw [EmissionContext.stepBytes, hcounterSize, Option.getD_some]
    rw [hbytes]
    refine kept (by rw [Word.length_ofInt, hsize]) (j := 1) ?_
    simpa using hpushed

/-- **The code of a counting loop does what the loop makes of a store.** -/
theorem CountedLoop.follows (natives : Natives) (hA : a.Hosts S image l room) (hS : S.Fits Γ)
    (hloop : CountedLoop S Γ room location counter start finish step body temps code)
    (hlies : image.Lies l ip code) (h : m.Mirrors S image a ip [] σ) (fuel : Nat) :
    ∃ k, S.ctx.tally? counter temps = some k ∧
      m.Follows natives S image a (ip + Piece.size code) fuel
        ((S.ctx.begin k counter start finish step σ).andThen
          (k.turns (Stmt.execAll S.ctx fuel body) fuel)) := by
  obtain ⟨hps, hpf, hpstep, hbody, ⟨⟨hc, -, hs, hf, τ, hnumeric, hτc, hτs, hτf, hstep⟩, hb⟩,
    ⟨⟨⟨n, hn, hlf, hhf, hls, hhs, hlg, hhg⟩, -⟩, -⟩, hroom, hwide, hcode⟩ := hloop
  obtain ⟨kind, n', place, head, exit, finishCode, stepCode, startCode, load, load', bodyCode,
    htypes, hplace, hfinish, hstepCode, hstart, hload, hload', hbodyCode, rfl⟩ := hcode
  obtain ⟨rfl, hsize⟩ := hS.env.types_eq hτc htypes
  obtain rfl : n = n' := Option.some.inj (hn.symm.trans htypes.size?_eq)
  obtain ⟨n', hn', hhas⟩ := hS.has_place hc hplace
  obtain rfl : n = n' := Option.some.inj (hn.symm.trans hn')
  obtain rfl := hload.eq_of_place hplace hn'
  obtain rfl := hload'.eq_of_place hplace hn'
  obtain ⟨s, rfl⟩ : ∃ s, τ = .scalar s := by cases τ <;> simp_all [Shape.isNumeric]
  obtain rfl : s.size = n := Option.some.inj hsize
  have hle := s.size_le_eight
  obtain ⟨k, hk⟩ : ∃ k : Tally, k = ⟨place, s.size, temps⟩ := ⟨_, rfl⟩
  have hwithin : k.Within S := by
    subst hk
    exact ⟨hhas, .inl ⟨hlf, hhf⟩, .inl ⟨hls, hhs⟩, .inl ⟨hlg, by exact_mod_cast hhg⟩⟩
  refine ⟨k, by simp [EmissionContext.tally?, hplace, hn', hk], ?_⟩
  have hksize : k.size = s.size := by rw [hk]
  have hkwide : k.size + k.size ≤ room := by omega
  have hparts :=
    countCode_eq (Shape.scalar s).kind k head exit finishCode stepCode startCode bodyCode
  rw [show k.size = s.size from hksize, show k.counter = place by rw [hk],
    show k.temps = temps by rw [hk]] at hparts
  rw [hparts] at hlies ⊢
  simp only [Stmt.room, max_le_iff] at hroom
  obtain ⟨⟨-, hrooms⟩, ⟨hroomf, hroomstep⟩, hroomb⟩ := hroom
  -- where the parts of the code lie
  have hkeepStep := hlies.right.tail
  have hbegin := hkeepStep.right.right
  have hhead := hbegin.right.tail
  have htest := hhead.after_mark
  have hinner := htest.right.left
  have hnext := htest.right.right
  have hexit := hnext.right.tail
  have hend : ip + Piece.size finishCode + recordSize + Piece.size stepCode +
      Piece.size (k.keepCode (Shape.scalar s).kind) + Piece.size startCode + recordSize +
      Piece.size (k.testCode (Shape.scalar s).kind exit) + Piece.size bodyCode +
      Piece.size (k.nextCode (Shape.scalar s).kind) + recordSize =
        ip + Piece.size (finishCode ++ (.op ((Place.frame temps.finish).store s.size) ::
          (stepCode ++ (k.keepCode (Shape.scalar s).kind ++ (startCode ++
            (.op (place.store s.size) :: .mark head :: (k.testCode (Shape.scalar s).kind exit ++
              (bodyCode ++ (k.nextCode (Shape.scalar s).kind ++
                [.op (.jump head), .mark exit]))))))))) := by
    simp only [Piece.size_append, Piece.size_op, Piece.size_mark, Piece.size_nil]
    push_cast
    ring
  rw [← hend]
  have hsizes {e : Expr} (hτ : Γ.shape e.info = some (.scalar s)) :
      S.ctx.size? e.info = some s.size := hS.env.size?_eq hτ
  subst hk
  rw [EmissionContext.begin, Completion.andThen_assoc]
  refine (h.puts natives hA hS hf hpf hτf hfinish hlies.left hroomf hlies.right (hsizes hτf)
    hwithin.finish fuel).andThen fun m₁ σ₁ h₁ => ?_
  rw [Completion.andThen_assoc]
  refine (h₁.keeps_step natives hA hS hwithin hnumeric hksize hτc hstep hpstep hstepCode hroomstep
    hkwide hkeepStep).andThen fun m₂ σ₂ h₂ => ?_
  refine (h₂.puts natives hA hS hs hps hτs hstart hbegin.left hrooms hbegin.right (hsizes hτs)
    hwithin.counter fuel).andThen fun m₃ σ₃ h₃ => ?_
  exact h₃.turns natives hA hwithin hnumeric hksize hkwide htest (hexit.marks image.has_bytes)
    (fun m σ h => Stmt.followsAll natives hA hS body hbody hb hroomb hbodyCode hinner h) hnext
    (hhead.marks image.has_bytes) le_rfl

/-- The bytes of a number are as many as its type has. -/
theorem Expr.Typed.length_bytes {e : Expr} {data : List UInt8} (hS : S.Fits Γ) (he : e.Typed Γ)
    (hp : e.isPlain = true) (hτ : Γ.shape e.info = some (.scalar s)) (hs : s.isNumeric = true)
    (hcode : e.Loads S.ctx S.state code) (hroom : e.room S.ctx < 2 ^ 31)
    (h : e.bytes S.ctx σ.read = .ok data) : data.length = s.size := by
  have hval : (Shape.scalar s).isValue = true := Shape.isValue_of_isNumeric hs
  obtain ⟨v, data', hy⟩ | hd := he.yields_or_divides hS.env hp hτ hval hcode
    (fun place n _ => σ.length_read place n) hroom
  · obtain rfl := Except.ok.inj (h.symm.trans hy.bytes)
    exact Option.some.inj (hy.length.symm.trans (hS.env.size?_eq hτ))
  · cases h.symm.trans hd.bytes

/-- What a store is before the first test of a loop. -/
theorem EmissionContext.begin_eq_next {ctx : EmissionContext} {σ₁ : Store}
    (h : ctx.begin k counter start finish step σ = .next σ₁) :
    ∃ last stride first, finish.bytes ctx σ.read = .ok last ∧
      ctx.stepBytes counter (σ.write (.frame k.temps.finish) last) step = .ok stride ∧
        start.bytes ctx (k.keep (σ.write (.frame k.temps.finish) last) stride).read = .ok first ∧
          σ₁ = (k.keep (σ.write (.frame k.temps.finish) last) stride).write k.counter first := by
  unfold EmissionContext.begin Expr.put at h
  cases hlast : finish.bytes ctx σ.read with
  | error e => rw [hlast] at h; cases h
  | ok last =>
    rw [hlast] at h
    simp only [Completion.given, Completion.andThen] at h
    cases hby : ctx.stepBytes counter (σ.write (.frame k.temps.finish) last) step with
    | error e => rw [hby] at h; cases h
    | ok stride =>
      rw [hby] at h
      simp only at h
      cases hfirst :
          start.bytes ctx (k.keep (σ.write (.frame k.temps.finish) last) stride).read with
      | error e => rw [hfirst] at h; cases h
      | ok first =>
        rw [hfirst] at h
        exact ⟨last, stride, first, rfl, hby, hfirst, (Completion.next.inj h).symm⟩

/-- **Before its first test a loop has its end, its step with its sign, and its start in the
counter.** -/
theorem Tally.Apart.begun (h : k.Apart) {last stride first : List UInt8} (σ : Store)
    (hlast : last.length = k.size) (hstride : stride.length = k.size)
    (hfirst : first.length = k.size) {σ₁ : Store}
    (hσ₁ : σ₁ = (k.keep (σ.write (.frame k.temps.finish) last) stride).write k.counter first) :
    k.Signed σ₁ ∧ k.finish σ₁ = Word.signed last ∧ k.step σ₁ = Word.signed stride ∧
      σ₁.number k.counter k.size = Word.signed first := by
  subst hσ₁
  have hsign : (Word.ofInt 1 (Word.signed stride).sign).length = 1 := Word.length_ofInt _ _
  have hstep : ((k.keep (σ.write (.frame k.temps.finish) last) stride).write k.counter first).read
      (.frame k.temps.step) k.size = stride := by
    rw [Store.read_write_of_apart (hfirst ▸ h.step), Tally.keep,
      Store.read_write_of_apart (hsign ▸ h.step_sign), ← hstride, Store.read_write_self]
  refine ⟨?_, congrArg Word.signed ?_, congrArg Word.signed hstep, congrArg Word.signed ?_⟩
  · rw [Tally.Signed, Tally.step, Store.number, hstep,
      Store.read_write_of_apart (hfirst ▸ h.sign), Tally.keep]
    have hself := ((σ.write (.frame k.temps.finish) last).write (.frame k.temps.step)
      stride).read_write_self (.frame k.temps.sign) (Word.ofInt 1 (Word.signed stride).sign)
    rwa [hsign] at hself
  · rw [Store.read_write_of_apart (hfirst ▸ h.finish), Tally.keep,
      Store.read_write_of_apart (hsign ▸ h.finish_sign),
      Store.read_write_of_apart (hstride ▸ h.finish_step), ← hlast, Store.read_write_self]
  · rw [← hfirst, Store.read_write_self]

/-- The sign kept before a loop is that of its step. -/
theorem CountedLoop.signed (hS : S.Fits Γ)
    (hloop : CountedLoop S Γ room location counter start finish step body temps code)
    (hlt : room < 2 ^ 31) (hk : S.ctx.tally? counter temps = some k) (hapart : k.Apart) {σ₁ : Store}
    (h : S.ctx.begin k counter start finish step σ = .next σ₁) : k.Signed σ₁ := by
  obtain ⟨hps, hpf, hpstep, -, ⟨⟨-, -, hs, hf, τ, hnumeric, hτc, hτs, hτf, hstep⟩, -⟩, -, hroom, -,
    ⟨_, _, _, _, _, finishCode, stepCode, startCode, _, _, _, -, -, hfinish, hstepCode, hstart,
      -⟩⟩ := hloop
  replace hroom := hroom.trans_lt hlt
  obtain ⟨s, rfl⟩ : ∃ s, τ = .scalar s := by cases τ <;> simp_all [Shape.isNumeric]
  have hsize : S.ctx.size? counter.info = some s.size := hS.env.size?_eq hτc
  have hksize : k.size = s.size := by
    cases hplace : S.ctx.place? counter with
    | none => simp [EmissionContext.tally?, hplace] at hk
    | some place =>
      simp only [EmissionContext.tally?, hplace, hsize, Option.bind_eq_bind, Option.bind_some,
        Option.pure_def, Option.some.injEq] at hk
      rw [← hk]
  simp only [Stmt.room, max_lt_iff] at hroom
  obtain ⟨⟨-, hrooms⟩, ⟨hroomf, hroomstep⟩, -⟩ := hroom
  obtain ⟨last, stride, first, hlast, hstride, hfirst, hσ₁⟩ := EmissionContext.begin_eq_next h
  have hlength : stride.length = s.size := by
    cases step with
    | none =>
      rw [EmissionContext.stepBytes, hsize] at hstride
      rw [← Except.ok.inj hstride]
      exact Word.length_ofInt _ _
    | some e =>
      exact (hstep e rfl).1.length_bytes hS hpstep (hstep e rfl).2 hnumeric hstepCode hroomstep
        hstride
  exact (hapart.begun σ ((hf.length_bytes hS hpf hτf hnumeric hfinish hroomf hlast).trans
    hksize.symm) (hlength.trans hksize.symm) ((hs.length_bytes hS hps hτs hnumeric hstart hrooms
      hfirst).trans hksize.symm) hσ₁).1

/-- **The code of a counting loop runs its body for the numbers of its range**, in their order, and
then goes on behind the loop, if the difference of start and end fits the counter and the body
leaves the counter alone. -/
theorem CountedLoop.follows_range (natives : Natives) (hA : a.Hosts S image l room) (hS : S.Fits Γ)
    (hloop : CountedLoop S Γ room location counter start finish step body temps code)
    (hlies : image.Lies l ip code) (h : m.Mirrors S image a ip [] σ)
    (hk : S.ctx.tally? counter temps = some k) (hapart : k.Apart)
    (hkept : k.KeptBy (Stmt.execAll S.ctx fuel body)) {σ₁ : Store} {first : Int}
    (hbegin : S.ctx.begin k counter start finish step σ = .next σ₁)
    (hfirst : σ₁.number k.counter k.size = first) (hstep : k.step σ₁ ≠ 0)
    (hfit : Word.Fits k.size (first - k.finish σ₁))
    (hfuel : Counting.steps (k.finish σ₁) (k.step σ₁) first < fuel) :
    m.Follows natives S image a (ip + Piece.size code) fuel
      ((k.each (Stmt.execAll S.ctx fuel body) (Counting.range (k.finish σ₁) (k.step σ₁) first)
        σ₁).andThen fun σ' => .next (k.set σ'
          (first + Counting.steps (k.finish σ₁) (k.step σ₁) first * k.step σ₁))) := by
  obtain ⟨k', hk', hfollows⟩ := hloop.follows natives hA hS hlies h fuel
  obtain rfl : k' = k := Option.some.inj (hk'.symm.trans hk)
  have hsigned := hloop.signed hS hA.room_lt hk hapart hbegin
  rw [hbegin] at hfollows
  rw [← Tally.turns_eq hapart hkept hsigned hstep hfirst hfit hfuel]
  exact hfollows

/-- **A counting loop does not run its body at all** if there are numbers to count but the
difference of start and end does not fit the counter. -/
theorem CountedLoop.skips_range (natives : Natives) (hA : a.Hosts S image l room) (hS : S.Fits Γ)
    (hloop : CountedLoop S Γ room location counter start finish step body temps code)
    (hlies : image.Lies l ip code) (h : m.Mirrors S image a ip [] σ)
    (hk : S.ctx.tally? counter temps = some k) (hapart : k.Apart) {σ₁ : Store} {first : Int}
    (hbegin : S.ctx.begin k counter start finish step σ = .next σ₁)
    (hfirst : σ₁.number k.counter k.size = first) (hstep : k.step σ₁ ≠ 0)
    (hrange : Counting.InRange (k.finish σ₁) (k.step σ₁) first)
    (hfit : ¬ Word.Fits k.size (first - k.finish σ₁)) :
    m.Follows natives S image a (ip + Piece.size code) 1 (.next σ₁) := by
  obtain ⟨k', hk', hfollows⟩ := hloop.follows natives hA hS hlies h 1
  obtain rfl : k' = k := Option.some.inj (hk'.symm.trans hk)
  have hsigned := hloop.signed hS hA.room_lt hk hapart hbegin
  rw [hbegin, Completion.andThen,
    Tally.turns_succ_of_not_fits hapart hsigned hstep hfirst hfit _ 0, if_pos hrange] at hfollows
  exact hfollows

end Statements

end ChannelBasic
