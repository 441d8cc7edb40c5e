import ChannelBasic.Proofs.Execution.Balance
import ChannelBasic.Proofs.Execution.Computation
import ChannelBasic.Proofs.Execution.Loading

/-!
# Proofs/Execution/Discipline — a function keeps to its own frame

`m.Runs image a ip d` says that a machine runs the code of a function at an address, `d` bytes having
been pushed.  Which bytes these are does not matter: what lies on the stack is used as an address
only where it is the link of a frame, and **a function writes neither over its link nor to what lies
above its frame** (`Activation.Kept`).  So an instruction that finds as many bytes as it takes goes on
as it should, or ends the machine for want of stack or by dividing by zero (`Machine.Proceeds`), and
the end of a function finds its link as it was (`Runs.leave`).
-/

namespace ChannelBasic

open Code

/-! ## Code in a module -/

/-- Code that lies in a module, and so in every memory that has the module in it. -/
structure Image.Lies (image : Image) (l : Link) (ip : Int) (code : List Piece) : Prop where
  aligned : ip % recordSize = 0
  nonneg : 0 ≤ ip
  inside : ip + Piece.size code ≤ image.codeSize
  laid : ∀ mem : Memory, mem.Has 0 image.bytes → l.Laid mem ip code

/-- A label stands at an address. -/
def Code.Link.Marks (l : Link) (label : Label) (address : Int) : Prop :=
  ∃ x, l.labels.address? label = some x ∧ x.toInt = address

/-- What linking has put into the operands of a module's code: where the data sets start, and where
texts lie. -/
structure Image.Links (image : Image) (l : Link) (z : EmissionState) : Prop where
  code : image.codeSize ≤ image.dynamicBase
  dynamicBase : l.dynamicBase.toInt = image.dynamicBase
  texts : ∀ mem : Memory, mem.Has 0 image.bytes → ∀ t ∈ z.static.texts,
    ∃ x : Nat, (l.staticBase + Int32.ofNat t.offset).toInt = x ∧
      mem.Has x t.record ∧ x + stringSize t.capacity ≤ image.dynamicBase

/-- The operand that a label becomes. -/
theorem Code.Link.Marks.resolve_eq {l : Link} {label : Label} {address : Int} {x : Int32}
    (h : l.Marks label address) (hx : l.resolve (.label label) = .ok x) : x.toInt = address := by
  obtain ⟨y, hy, rfl⟩ := h
  rw [resolve, hy] at hx
  rw [Except.ok.inj hx]

namespace Image.Lies

variable {image : Image} {l : Link} {ip : Int} {xs ys code : List Piece} {label : Label}

theorem left (h : image.Lies l ip (xs ++ ys)) : image.Lies l ip xs := by
  have hinside := h.inside
  rw [Piece.size_append] at hinside
  exact ⟨h.aligned, h.nonneg, by omega, fun mem hmem => (h.laid mem hmem).left⟩

theorem right (h : image.Lies l ip (xs ++ ys)) : image.Lies l (ip + Piece.size xs) ys := by
  have hinside := h.inside
  have haligned := h.aligned
  have hnonneg := h.nonneg
  rw [Piece.size_append] at hinside
  refine ⟨?_, by omega, by omega, fun mem hmem => (h.laid mem hmem).right⟩
  unfold Piece.size
  push_cast
  rw [Int.add_mul_emod_self_left]
  exact haligned

theorem tail {i : Instruction} (h : image.Lies l ip (.op i :: ys)) :
    image.Lies l (ip + recordSize) ys := by
  have happ : image.Lies l ip ([.op i] ++ ys) := h
  exact happ.right

theorem after_mark (h : image.Lies l ip (.mark label :: ys)) : image.Lies l ip ys :=
  ⟨h.aligned, h.nonneg, h.inside, fun mem hmem => (h.laid mem hmem).2⟩

theorem marks (h : image.Lies l ip (.mark label :: ys)) {mem : Memory}
    (hmem : mem.Has 0 image.bytes) : l.Marks label ip :=
  (h.laid mem hmem).1

end Image.Lies

/-! ## Functions that run -/

/-- A function that has been called: where its frame lies, and the memory it was opened in. -/
structure Activation where
  /-- A return to this stack pointer ends the machine. -/
  entrySp : Int
  /-- Its frame pointer. -/
  lp : Int
  /-- Bytes of its variables, which lie below the frame pointer. -/
  locals : Nat
  /-- Bytes of its arguments and of its result, which lie above the link. -/
  above : Nat
  /-- The frame pointer of its caller. -/
  caller : Int
  /-- The return address. -/
  back : Int
  memory : Memory

namespace Activation

/-- Bytes that the function leaves alone: the module, its link, and what lies above its frame. -/
def Kept (a : Activation) (image : Image) (x : Int) : Prop :=
  x < image.dynamicBase ∨ a.lp ≤ x ∧ x < a.lp + 8 ∨ a.lp + 8 + a.above ≤ x

/-- The frame lies inside memory, and its link says where to return to. -/
structure Proper (a : Activation) (image : Image) : Prop where
  bytes : a.memory.Has 0 image.bytes
  low : image.dynamicBase + image.dataSize ≤ a.lp - a.locals
  top : a.lp + 8 + a.above ≤ a.memory.top
  link : a.memory.Has a.lp (Word.ofInt 4 a.caller ++ Word.ofInt 4 a.back)
  caller : Word.fits32 a.caller = true
  back : Word.fits32 a.back = true
  entry : a.lp + 8 ≤ a.entrySp

end Activation

/-- The setting of a function's code is that of a module in memory: places, texts and labels are
those of the module. -/
structure Setting.In (S : Setting) (image : Image) (l : Link) : Prop where
  links : image.Links l S.state
  data : image.dataSize = S.data
  count : ∀ n, S.count n = n

/-- The result of an operator takes eight bytes at most, or no more than its operands. -/
theorem BinaryOp.Takes.size_le {op : BinaryOp} {a b c : Shape} {sizes : List (Nat × Nat)}
    {k k' n : Nat} (h : op.Takes a b c) (hk : a.size? sizes = some k) (hk' : b.size? sizes = some k')
    (hn : c.size? sizes = some n) : n ≤ 8 ∨ n ≤ k + k' := by
  cases h with
  | join =>
    obtain rfl := Option.some.inj hk
    obtain rfl := Option.some.inj hk'
    obtain rfl := Option.some.inj hn
    exact .inr (by simp only [stringSize]; omega)
  | _ =>
    obtain rfl := Option.some.inj hn
    exact .inl (Scalar.size_le_eight _)

namespace Machine

/-- A machine that runs a function's code at an address, the function having pushed `depth`
bytes. -/
structure Runs (m : Machine) (image : Image) (a : Activation) (ip : Int) (depth : Nat) : Prop where
  running : m.event = .running
  ip : m.ip = ip
  sp : m.sp = a.lp - a.locals - depth
  lp : m.lp = a.lp
  entrySp : m.entrySp = a.entrySp
  limit : m.limit = image.dynamicBase + image.dataSize
  room : m.limit ≤ m.sp
  same : a.memory.Same (a.Kept image) m.memory

/-- What an instruction makes of a machine: it goes on, or ends it for want of stack or by dividing
by zero. -/
inductive Proceeds (m : Machine) (image : Image) (a : Activation) (ip : Int) (depth : Nat) :
    Machine → Prop
  | on {m' : Machine} (h : m'.Runs image a ip depth) : Proceeds m image a ip depth m'
  | halts {f : Fault} (k : Int) (hf : f = .stackOverflow ∨ f = .divisionByZero) :
      Proceeds m image a ip depth ((m.popped k).faulted f)

/-- An instruction that finds no room has dropped nothing. -/
theorem proceeds_faulted (m : Machine) (image : Image) (a : Activation) (ip : Int) (depth : Nat) :
    m.Proceeds image a ip depth (m.faulted .stackOverflow) := by
  have hhalts : m.Proceeds image a ip depth ((m.popped 0).faulted .stackOverflow) :=
    .halts 0 (.inl rfl)
  rwa [popped, Int.add_zero] at hhalts

/-- The machine with the frame of a function closed. -/
def closed (m : Machine) (a : Activation) (ip : Int) : Machine :=
  { m with ip, sp := a.lp + 4, lp := a.caller }

/-- The machine that a function has returned to its caller. -/
def returned (m : Machine) (a : Activation) : Machine :=
  { m with ip := a.back, sp := a.lp + 8, lp := a.caller }

/-- A function that was called from outside ends the machine when it returns. -/
def ended (m : Machine) (a : Activation) : Machine :=
  if a.lp + 8 = a.entrySp then { m.returned a with event := .halted .stopped } else m.returned a

theorem Tops.length_lt {m : Machine} {data : List UInt8} (h : m.Tops data) :
    data.length < 2 ^ 31 := by
  have hlow := h.has.nonneg
  have hhigh := h.le_top
  have hlt := m.memory.top_lt
  omega

/-- A branch pops a BOOLEAN and goes to a label if it has the value wanted. -/
theorem tick_branchOn {m : Machine} {natives : Natives} {l : Link} {label : Label} {target : Int}
    {value : Bool} {b : UInt8} {rest : List Piece}
    (hl : l.Laid m.memory m.ip (Emission.branchOn value label :: rest))
    (hmark : l.Marks label target) (ht : m.Tops [b]) :
    m.tick natives =
      if (b != 0) == value then (m.popped 1).jumped target else (m.popped 1).next := by
  obtain ⟨x0, x1, x2, h0, h1, h2, hat⟩ := hl.at
  obtain rfl := hmark.resolve_eq h0
  cases value with
  | true =>
    have hat : m.At (.of .IF BranchOn.true.code 0 x0 x1 x2) := hat
    exact tick_branch hat ht
  | false =>
    have hat : m.At (.of .IF BranchOn.false.code 0 x0 x1 x2) := hat
    exact tick_branch hat ht

namespace Runs

variable (natives : Natives) {image : Image} {a : Activation} {m : Machine} {ip target : Int}
  {depth n k : Nat} {l : Link} {S : Setting} {i : Instruction} {rest : List Piece}
  {out : List UInt8} {label : Label} {place : Place}

theorem bytes (h : m.Runs image a ip depth) (ha : a.Proper image) :
    m.memory.Has 0 image.bytes :=
  ha.bytes.same h.same fun x _ hx => .inl (by unfold Image.dynamicBase; omega)

theorem top_eq (h : m.Runs image a ip depth) : m.memory.top = a.memory.top := h.same.top

/-- The link lies in the frame as it was put there. -/
theorem link (h : m.Runs image a ip depth) (ha : a.Proper image) :
    m.memory.Has a.lp (Word.ofInt 4 a.caller ++ Word.ofInt 4 a.back) :=
  ha.link.same h.same fun x hx hx' => .inr (.inl ⟨hx, by simpa using hx'⟩)

theorem ready (h : m.Runs image a ip depth) (ha : a.Proper image) (hS : S.In image l) :
    m.Ready where
  running := h.running
  limit := by
    have := hS.data
    rw [h.limit]
    omega
  sp := by
    have := ha.top
    rw [h.sp, h.top_eq]
    omega

/-- What has been pushed lies on top. -/
theorem exists_tops (h : m.Runs image a ip depth) (ha : a.Proper image) (hS : S.In image l)
    (hk : k ≤ depth) : ∃ data, data.length = k ∧ m.Tops data := by
  have htop := ha.top
  have hsize := Memory.top_le_size m.memory
  have hsp := h.sp
  have hroom := h.room
  have hlimit := (h.ready ha hS).limit
  rw [h.top_eq] at hsize
  obtain ⟨data, hlen, hhas⟩ := Memory.exists_has (m := m.memory) (a := m.sp) (n := k)
    (by omega) (by omega)
  exact ⟨data, hlen, hhas, by rw [hlen, h.top_eq]; omega⟩

/-- The machine at another instruction of the function, some bytes having been dropped. -/
theorem moved (h : m.Runs image a ip depth) (hk : k ≤ depth) (target : Int) :
    ((m.popped k).jumped target).Runs image a target (depth - k) := by
  have hsp := h.sp
  have hroom := h.room
  refine ⟨h.running, rfl, ?_, h.lp, h.entrySp, h.limit, ?_, h.same⟩
  · change m.sp + k = _
    omega
  · change m.limit ≤ m.sp + k
    omega

/-- **An instruction that replaces bytes on top by its answer** goes on or overflows the stack.  An
answer longer than 32 bits can count never has room. -/
theorem answer (h : m.Runs image a ip depth) (ha : a.Proper image) (hS : S.In image l)
    (hk : k ≤ depth) (hout : out.length = min n 0x7fffffff) :
    m.Proceeds image a (ip + recordSize) (depth - k + n) ((m.popped k).answered out) := by
  have hready := h.ready ha hS
  have htop := ha.top
  have hlt := a.memory.top_lt
  have hsp := h.sp
  obtain ⟨data, rfl, htops⟩ := h.exists_tops ha hS hk
  have hready' : (m.popped data.length).Ready := hready.popped htops
  by_cases hroom : (m.popped data.length).HasRoom out.length
  · have hroom' : m.limit ≤ m.sp + data.length - out.length := hroom
    have hlimit := hready.limit
    obtain rfl : out.length = n := by omega
    rw [answered_of_hasRoom hroom]
    refine .on ⟨h.running, ?_, ?_, h.lp, h.entrySp, h.limit, hroom', ?_⟩
    · change m.ip + recordSize = _
      rw [h.ip]
    · change m.sp + data.length - out.length = _
      omega
    · refine h.same.trans ((hready'.same_pushed hroom).mono fun x hx => ?_)
      change x < m.limit ∨ m.sp + data.length ≤ x
      have hdata := hS.data
      have hlow := ha.low
      rw [h.limit]
      rcases hx with hx | hx | hx <;> omega
  · rw [answered_of_not_hasRoom hroom]
    exact .halts data.length (.inl rfl)

/-- An instruction that pushes its answer. -/
theorem push (h : m.Runs image a ip depth) (ha : a.Proper image) (hS : S.In image l)
    (hout : out.length = min n 0x7fffffff) :
    m.Proceeds image a (ip + recordSize) (depth + n) (m.answered out) := by
  have hanswer := h.answer ha hS (Nat.zero_le depth) hout
  rwa [popped, Nat.cast_zero, Int.add_zero] at hanswer

/-- Places of the function lie inside memory and not in the free part of the stack. -/
theorem reaches (h : m.Runs image a ip depth) (ha : a.Proper image) (hS : S.In image l)
    (hplace : place.Within a.locals a.above S.data n) : m.Reaches l place n := by
  have htop := ha.top
  have hlow := ha.low
  have hlt := a.memory.top_lt
  have hdata := hS.data
  have hsp := h.sp
  have hlimit := h.limit
  have hlink : Layout.linkSize = 8 := rfl
  cases place with
  | frame offset =>
    have hoffset : -(a.locals : Int) ≤ offset ∧ offset + n ≤ 8 + a.above := by
      rcases hplace with hplace | hplace <;> omega
    refine ⟨?_, ?_, ?_, .inr ?_⟩
    · rw [Place.offset, Word.fits32_iff]
      omega
    all_goals
      simp only [Place.address, h.lp, h.top_eq]
      omega
  | data offset =>
    obtain ⟨hlow', hhigh⟩ := hplace
    refine ⟨?_, ?_, ?_, .inl ?_⟩
    · rw [Place.offset, Word.fits32_iff]
      omega
    all_goals
      simp only [Place.address, hS.links.dynamicBase, h.top_eq]
      omega

/-- The code of the function and its texts lie where they are expected. -/
theorem loaded (h : m.Runs image a ip depth) (ha : a.Proper image) (hS : S.In image l)
    {code : List Piece} (hcode : image.Lies l ip code) : m.Loaded l S.state code := by
  have hdata := hS.data
  have hlimit := h.limit
  refine ⟨h.ip ▸ hcode.laid m.memory (h.bytes ha), .inl ?_, fun t ht => ?_⟩
  · have hinside := hcode.inside
    have hbase := hS.links.code
    rw [h.ip]
    omega
  · obtain ⟨x, hx, hhas, hle⟩ := hS.links.texts m.memory (h.bytes ha) t ht
    rw [hx]
    exact ⟨hhas, .inl (by rw [t.length_record]; omega)⟩

/-- The record of the next instruction lies at the instruction pointer. -/
theorem laid (h : m.Runs image a ip depth) (ha : a.Proper image) (hS : S.In image l)
    (hcode : image.Lies l ip (.op i :: rest)) : l.Laid m.memory m.ip (.op i :: rest) :=
  (h.loaded ha hS hcode).laid

/-- What lies at a place is pushed. -/
theorem load (h : m.Runs image a ip depth) (ha : a.Proper image) (hS : S.In image l)
    (hcode : image.Lies l ip (.op (place.load n) :: rest))
    (hplace : place.Within a.locals a.above S.data n) :
    m.Proceeds image a (ip + recordSize) (depth + n) (m.tick natives) := by
  have hreaches := h.reaches ha hS hplace
  have hloaded := h.loaded ha hS hcode
  have hsees : m.Sees l S.state (m.bytesAt l) [(place, n)] :=
    hloaded.sees fun x hx => by
      obtain rfl := List.mem_singleton.1 hx
      exact hreaches
  have hn : n < 2 ^ 31 := by
    have hle := hreaches.le_top
    have hlow := hreaches.nonneg
    have hlt := m.memory.top_lt
    omega
  rw [hsees.tick_place (h.ready ha hS) (List.mem_singleton_self _) hn hloaded.laid]
  refine h.push ha hS ?_
  rw [hreaches.keeps.1]
  omega

/-- What lies on top is popped into a place. -/
theorem tick_store {data : List UInt8} (h : m.Runs image a ip depth) (ha : a.Proper image)
    (hS : S.In image l) (hcode : image.Lies l ip (.op (place.store data.length) :: rest))
    (htops : m.Tops data) (hreaches : m.Reaches l place data.length) : m.tick natives =
      ((m.stored (place.address m.lp l.dynamicBase.toInt) data).popped data.length).next := by
  have hsize := Memory.top_le_size m.memory
  have hlt := m.memory.top_lt
  have hlow := hreaches.nonneg
  have hhigh := hreaches.le_top
  have hdata : (Word.size32 data.length).toInt = data.length := Word.toInt_size32 (by omega)
  obtain ⟨x0, x1, x2, h0, h1, h2, hat⟩ := (h.laid ha hS hcode).at
  cases place with
  | frame offset =>
    obtain rfl : Word.size32 data.length = x0 := Except.ok.inj h0
    obtain rfl : Int32.ofInt offset = x1 := Except.ok.inj h1
    have hoffset : (Int32.ofInt offset).toInt = offset := Word.toInt_ofInt hreaches.offset
    simp only [Place.address] at hlow hhigh ⊢
    have htick : m.tick natives = _ := tick_storeFrame hat htops hdata
      (by rw [hoffset, Word.fits32_iff]; omega) (by omega) (by omega)
    rwa [hoffset] at htick
  | data offset =>
    obtain rfl : Word.size32 data.length = x0 := Except.ok.inj h0
    obtain rfl : l.dynamicBase + Int32.ofInt offset = x1 := Except.ok.inj h1
    simp only [Place.address] at hlow hhigh ⊢
    have hoffset : (l.dynamicBase + Int32.ofInt offset).toInt = l.dynamicBase.toInt + offset :=
      Word.toInt_add_ofInt (by rw [Word.fits32_iff]; omega)
    have htick : m.tick natives = _ := tick_storeGlobal hat htops hdata (by omega) (by omega)
    rwa [hoffset] at htick

/-- **A store leaves the link alone, and what lies above the frame.** -/
theorem store (h : m.Runs image a ip depth) (ha : a.Proper image) (hS : S.In image l)
    (hcode : image.Lies l ip (.op (place.store n) :: rest)) (hn : n ≤ depth)
    (hplace : place.Within a.locals a.above S.data n) :
    (m.tick natives).Runs image a (ip + recordSize) (depth - n) := by
  have hreaches := h.reaches ha hS hplace
  have hsize := Memory.top_le_size m.memory
  have hlow := hreaches.nonneg
  have hhigh := hreaches.le_top
  have hsp := h.sp
  have hroom := h.room
  obtain ⟨data, rfl, htops⟩ := h.exists_tops ha hS hn
  rw [h.tick_store natives ha hS hcode htops hreaches]
  refine ⟨h.running, ?_, ?_, h.lp, h.entrySp, h.limit, ?_, ?_⟩
  · change m.ip + recordSize = _
    rw [h.ip]
  · change m.sp + data.length = _
    omega
  · change m.limit ≤ m.sp + data.length
    omega
  · refine h.same.trans ((Memory.same_put hlow (by omega)).mono fun x hx => ?_)
    have htop := ha.top
    have hlow' := ha.low
    have hdata := hS.data
    have hlink : Layout.linkSize = 8 := rfl
    cases place with
    | frame offset =>
      rw [Place.address, h.lp]
      rcases hx with hx | hx | hx <;> rcases hplace with hplace | hplace <;> omega
    | data offset =>
      obtain ⟨hlow, hhigh⟩ := hplace
      rw [Place.address, hS.links.dynamicBase]
      rcases hx with hx | hx | hx <;> omega

/-- Bytes are dropped. -/
theorem pop (h : m.Runs image a ip depth) (ha : a.Proper image) (hS : S.In image l)
    (hcode : image.Lies l ip (.op (.pop (Word.size32 n)) :: rest)) (hn : n ≤ depth) :
    (m.tick natives).Runs image a (ip + recordSize) (depth - n) := by
  obtain ⟨data, rfl, htops⟩ := h.exists_tops ha hS hn
  obtain ⟨x0, x1, x2, h0, h1, h2, hat⟩ := (h.laid ha hS hcode).at
  obtain rfl : Word.size32 data.length = x0 := Except.ok.inj h0
  rw [tick_pop hat htops (Word.toInt_size32 htops.length_lt)]
  exact h.ip ▸ h.moved hn _

/-- The bytes on top are pushed again. -/
theorem dup (h : m.Runs image a ip depth) (ha : a.Proper image) (hS : S.In image l)
    (hcode : image.Lies l ip (.op (.dup (Word.size32 n)) :: rest)) (hn : n ≤ depth) :
    m.Proceeds image a (ip + recordSize) (depth + n) (m.tick natives) := by
  obtain ⟨data, rfl, htops⟩ := h.exists_tops ha hS hn
  obtain ⟨x0, x1, x2, h0, h1, h2, hat⟩ := (h.laid ha hS hcode).at
  obtain rfl : Word.size32 data.length = x0 := Except.ok.inj h0
  have hlt := htops.length_lt
  rw [tick_dup (h.ready ha hS) hat htops (Word.toInt_size32 hlt)]
  exact h.push ha hS (by omega)

/-- A jump does nothing else. -/
theorem tick_jump (h : m.Runs image a ip depth) (ha : a.Proper image) (hS : S.In image l)
    (hcode : image.Lies l ip (.op (.jump label) :: rest)) (hmark : l.Marks label target) :
    m.tick natives = (m.popped (0 : Nat)).jumped target := by
  obtain ⟨x0, x1, x2, h0, h1, h2, hat⟩ := (h.laid ha hS hcode).at
  obtain rfl := hmark.resolve_eq h0
  rw [Machine.tick_jump hat, popped, Nat.cast_zero, Int.add_zero]

/-- The machine goes to where a label stands. -/
theorem jump (h : m.Runs image a ip depth) (ha : a.Proper image) (hS : S.In image l)
    (hcode : image.Lies l ip (.op (.jump label) :: rest)) (hmark : l.Marks label target) :
    (m.tick natives).Runs image a target depth := by
  rw [h.tick_jump natives ha hS hcode hmark]
  exact h.moved (Nat.zero_le depth) target

/-- The machine goes to where a label stands, or on. -/
theorem branch {value : Bool} (h : m.Runs image a ip depth) (ha : a.Proper image)
    (hS : S.In image l) (hcode : image.Lies l ip (Emission.branchOn value label :: rest))
    (hn : 1 ≤ depth) (hmark : l.Marks label target) :
    (m.tick natives).Runs image a target (depth - 1) ∨
      (m.tick natives).Runs image a (ip + recordSize) (depth - 1) := by
  obtain ⟨data, hlen, htops⟩ := h.exists_tops ha hS hn
  obtain ⟨b, rfl⟩ := List.length_eq_one_iff.1 hlen
  rw [tick_branchOn (h.loaded ha hS hcode).laid hmark htops]
  split
  · exact .inl (h.moved hn _)
  · exact .inr (h.ip ▸ h.moved hn _)

/-! ### Instructions that push what is known beforehand -/

theorem zeros (h : m.Runs image a ip depth) (ha : a.Proper image) (hS : S.In image l)
    (hcode : image.Lies l ip (.op (.load .zero (Word.size32 n) (.value 0)) :: rest)) :
    m.Proceeds image a (ip + recordSize) (depth + n) (m.tick natives) := by
  obtain ⟨x0, x1, x2, h0, h1, h2, hat⟩ := (h.laid ha hS hcode).at
  obtain rfl : Word.size32 n = x0 := Except.ok.inj h0
  rw [tick_loadZero (h.ready ha hS) hat (Word.toInt_size32_eq_min n)]
  exact h.push ha hS List.length_replicate

theorem immediate (h : m.Runs image a ip depth) (ha : a.Proper image) (hS : S.In image l)
    {size : Int32} {x y : Operand}
    (hcode : image.Lies l ip (.op ⟨.LOAD, Storage.immediate.code, 0, .value size, x, y⟩ :: rest))
    (hsize : size.toInt = n) (hn : n ≤ 8) :
    m.Proceeds image a (ip + recordSize) (depth + n) (m.tick natives) := by
  obtain ⟨x0, x1, x2, h0, h1, h2, hat⟩ := (h.laid ha hS hcode).at
  obtain rfl : size = x0 := Except.ok.inj h0
  have hat : m.At (.of .LOAD Storage.immediate.code 0 size x1 x2) := hat
  rw [tick_loadImmediate (h.ready ha hS) hat hsize hn]
  refine h.push ha hS ?_
  simp [Word.ofInt32]
  omega

theorem pointer (h : m.Runs image a ip depth) (ha : a.Proper image) (hS : S.In image l)
    (hcode : image.Lies l ip (.op place.pointer :: rest))
    (hplace : place.Within a.locals a.above S.data 0) :
    m.Proceeds image a (ip + recordSize) (depth + 4) (m.tick natives) := by
  have hreaches := h.reaches ha hS hplace
  have hlow := hreaches.nonneg
  have hhigh := hreaches.le_top
  have hlt := m.memory.top_lt
  cases place with
  | frame offset =>
    obtain ⟨x0, x1, x2, h0, h1, h2, hat⟩ := (h.laid ha hS hcode).at
    obtain rfl : Int32.ofInt offset = x1 := Except.ok.inj h1
    have hat : m.At (.of .LOAD Storage.framePointer.code 0 x0 (Int32.ofInt offset) x2) := hat
    have hoffset : (Int32.ofInt offset).toInt = offset := Word.toInt_ofInt hreaches.offset
    simp only [Place.address] at hlow hhigh
    rw [tick_loadFramePointer (h.ready ha hS) hat (by rw [hoffset, Word.fits32_iff]; omega)]
    exact h.push ha hS (by rw [Word.length_ofInt]; rfl)
  | data offset => exact h.immediate natives ha hS hcode rfl (by decide)

/-- The record of a text is not longer than what 32 bits can count. -/
theorem text_lt {content : String} {x : Operand} (h : m.Runs image a ip depth)
    (ha : a.Proper image) (hS : S.In image l) (htext : S.state.Text content n x) :
    stringSize n < 2 ^ 31 := by
  obtain ⟨t, ht, -, rfl, -⟩ := htext
  obtain ⟨y, -, -, hle⟩ := hS.links.texts m.memory (h.bytes ha) t ht
  have hlow := ha.low
  have htop := ha.top
  have hlt := a.memory.top_lt
  have hdata := hS.data
  omega

/-- The record of a text is pushed. -/
theorem tick_text {content : String} {x : Operand} (h : m.Runs image a ip depth)
    (ha : a.Proper image) (hS : S.In image l) (htext : S.state.Text content n x)
    (hcode : image.Lies l ip (.op (.load .global (Word.size32 (stringSize n)) x) :: rest)) :
    m.tick natives = m.answered (encodeString (Utf16.encode content) (stringSize n)) := by
  have hlt := h.text_lt ha hS htext
  obtain ⟨t, ht, rfl, rfl, rfl⟩ := htext
  obtain ⟨x0, x1, x2, h0, h1, h2, hat⟩ := (h.laid ha hS hcode).at
  obtain rfl : Word.size32 (stringSize t.capacity) = x0 := Except.ok.inj h0
  obtain rfl : l.staticBase + Int32.ofNat t.offset = x1 := Except.ok.inj h1
  obtain ⟨y, hy, hhas, -⟩ := hS.links.texts m.memory (h.bytes ha) t ht
  have hlen : (Word.size32 (stringSize t.capacity)).toInt = t.record.length := by
    rw [Word.toInt_size32 hlt, t.length_record]
  have hat : m.At (.of .LOAD Storage.global.code 0 (Word.size32 (stringSize t.capacity))
    (l.staticBase + Int32.ofNat t.offset) x2) := hat
  exact tick_loadGlobal (h.ready ha hS) hat hlen fun _ => hy.symm ▸ hhas

theorem text {content : String} {x : Operand} (h : m.Runs image a ip depth)
    (ha : a.Proper image) (hS : S.In image l) (htext : S.state.Text content n x)
    (hcode : image.Lies l ip (.op (.load .global (Word.size32 (stringSize n)) x) :: rest)) :
    m.Proceeds image a (ip + recordSize) (depth + stringSize n) (m.tick natives) := by
  have hlt := h.text_lt ha hS htext
  rw [h.tick_text natives ha hS htext hcode]
  refine h.push ha hS ?_
  rw [length_encodeString, max_eq_left (stringHeader_le_stringSize n)]
  omega

/-! ### Instructions on values -/

theorem exists_value {data : List UInt8} {σ : Shape} (hσ : σ.isValue = true)
    (hsize : S.Size σ data.length) : ∃ v, Value.decode σ.kind data = .ok v ∧ v.Of σ :=
  Value.decode_of hσ fun c hc => by
    subst hc
    obtain hlen : stringSize c = data.length := Option.some.inj hsize
    exact hlen ▸ stringHeader_le_stringSize c

theorem cast {σ τ : Shape} (h : m.Runs image a ip depth) (ha : a.Proper image) (hS : S.In image l)
    (hσ : σ.Converts τ) (hk : S.Size σ k) (hdepth : k ≤ depth)
    (hcode : image.Lies l ip
      (.op (.cast σ.kind (Word.size32 k) τ.kind (Word.size32 n)) :: rest)) :
    m.Proceeds image a (ip + recordSize) (depth - k + n) (m.tick natives) := by
  obtain ⟨data, rfl, htops⟩ := h.exists_tops ha hS hdepth
  obtain ⟨v, hv, hof⟩ := exists_value (Shape.isValue_of_converts hσ).1 hk
  obtain ⟨w, hw, -⟩ := Value.cast_of_converts hσ hof
  obtain ⟨x0, x1, x2, h0, h1, h2, hat⟩ := (h.laid ha hS hcode).at
  obtain rfl : Word.size32 data.length = x0 := Except.ok.inj h0
  obtain rfl : Word.size32 n = x1 := Except.ok.inj h1
  rw [tick_cast (h.ready ha hS) hat htops (Word.toInt_size32 htops.length_lt) hv hw
    (Word.toInt_size32_eq_min n)]
  exact h.answer ha hS hdepth (Step.length_take_encode w _)

theorem unary {σ : Shape} {op : UnaryOp} (h : m.Runs image a ip depth) (ha : a.Proper image)
    (hS : S.In image l) (hop : op.Takes σ) (hk : S.Size σ k) (hdepth : k ≤ depth)
    (hi : op.tail σ.kind k = [.op i]) (hcode : image.Lies l ip (.op i :: rest)) :
    m.Proceeds image a (ip + recordSize) depth (m.tick natives) := by
  obtain ⟨data, rfl, htops⟩ := h.exists_tops ha hS hdepth
  have hlt := htops.length_lt
  obtain ⟨v, hv, hof⟩ := exists_value (Shape.isValue_of_takes hop) hk
  obtain ⟨w, hw, hwof⟩ := UnaryOp.apply_of_takes hop hof
  have hplus : op ≠ .plus := by
    rintro rfl
    cases hi
  have hlaid := h.laid ha hS hcode
  have hlen : (w.encode data.length).length = min data.length 0x7fffffff := by
    rw [Value.length_encode hk hwof]
    omega
  have hanswer := h.answer ha hS hdepth hlen
  rw [Nat.sub_add_cancel hdepth] at hanswer
  have htail : l.Laid m.memory m.ip (op.tail σ.kind data.length ++ rest) := by
    rw [hi]
    exact hlaid
  rwa [UnaryOp.tick hk (h.ready ha hS) hplus htail htops hv hw hwof]

theorem sign {σ : Shape} (h : m.Runs image a ip depth) (ha : a.Proper image) (hS : S.In image l)
    (hσ : σ.isNumeric = true) (hk : S.Size σ k) (hdepth : k ≤ depth)
    (hcode : image.Lies l ip (.op (.unary .SIGN σ.kind (Word.size32 k)) :: rest)) :
    m.Proceeds image a (ip + recordSize) (depth - k + 1) (m.tick natives) := by
  obtain ⟨data, rfl, htops⟩ := h.exists_tops ha hS hdepth
  obtain ⟨v, hv, hof⟩ := exists_value (Shape.isValue_of_isNumeric hσ) hk
  obtain ⟨x, hx⟩ := Value.sign_of hσ hof
  obtain ⟨x0, x1, x2, h0, h1, h2, hat⟩ := (h.laid ha hS hcode).at
  obtain rfl : Word.size32 data.length = x0 := Except.ok.inj h0
  rw [tick_sign (h.ready ha hS) hat htops (Word.toInt_size32 htops.length_lt) hv hx]
  exact h.answer ha hS hdepth (by rw [Word.length_ofInt]; rfl)

theorem binary {b c σ : Shape} {k' : Nat} {op : BinaryOp} (h : m.Runs image a ip depth)
    (ha : a.Proper image) (hS : S.In image l) (hop : op.Takes σ b c) (hk : S.Size σ k)
    (hk' : S.Size b k') (hn : S.Size c n) (hdepth : k + k' ≤ depth)
    (hi : op.Emits σ.kind k k' (· = n) i) (hcode : image.Lies l ip (.op i :: rest)) :
    m.Proceeds image a (ip + recordSize) (depth - (k + k') + n) (m.tick natives) := by
  obtain ⟨both, hlen, htops⟩ := h.exists_tops ha hS hdepth
  have hlt := htops.length_lt
  obtain ⟨data, right, rfl, rfl, rfl⟩ : ∃ data right, both = data ++ right ∧ data.length = k ∧
      right.length = k' :=
    ⟨both.take k, both.drop k, (List.take_append_drop k both).symm,
      List.length_take_of_le (by omega), by rw [List.length_drop]; omega⟩
  rw [← List.length_append] at hdepth ⊢
  obtain ⟨hσ, hb, hc⟩ := Shape.isValue_of_binary hop
  obtain ⟨v, hv, hvof⟩ := exists_value hσ hk
  obtain ⟨w, hw, hwof⟩ := exists_value hb hk'
  have hsmall : n < 2 ^ 31 := by
    have hlen := hop.size_le hk hk' hn
    omega
  obtain ⟨hok, herror⟩ := hi.tick natives hop (fun _ h => h) hn hsmall (h.ready ha hS)
    (h.laid ha hS hcode) htops hv hw hvof hwof
  obtain ⟨u, hu, huof⟩ | hdiv := BinaryOp.apply_of_takes hop hvof hwof
  · rw [hok u hu]
    exact h.answer ha hS hdepth (by rw [Value.length_encode hn huof]; omega)
  · rw [herror hdiv]
    exact .halts _ (.inr rfl)

/-! ### Leaving -/

/-- **The frame is closed with its link as it was.** -/
theorem tick_leave (h : m.Runs image a ip 0) (ha : a.Proper image) (hS : S.In image l)
    (hcode : image.Lies l ip (.op (.leave (Word.size32 a.locals)) :: rest)) :
    m.tick natives = m.closed a (ip + recordSize) := by
  have hlow := ha.low
  have htop := ha.top
  have hlt := a.memory.top_lt
  have hdata := hS.data
  have hsp := h.sp
  have hsp' : (m.popped a.locals).sp = a.lp := by
    change m.sp + a.locals = a.lp
    omega
  have hcaller : (m.popped a.locals).Tops (Word.ofInt 4 a.caller) := by
    refine ⟨by rw [hsp']; exact (h.link ha).left, ?_⟩
    rw [hsp', Word.length_ofInt]
    change a.lp + 4 ≤ m.memory.top
    rw [h.top_eq]
    omega
  obtain ⟨x0, x1, x2, h0, h1, h2, hat⟩ := (h.laid ha hS hcode).at
  obtain rfl : Word.size32 a.locals = x0 := Except.ok.inj h0
  rw [Machine.tick_leave hat (Word.toInt_size32 (by omega)) hcaller (Word.length_ofInt ..),
    Word.signed_ofInt_four ha.caller]
  have hlast : m.sp + a.locals + 4 = a.lp + 4 := by omega
  simp only [closed, next, popped, hlast, h.ip]

/-- **A function returns to its caller**, or ends the machine if it was called from outside. -/
theorem tick_ret (h : m.Runs image a ip 0) (ha : a.Proper image)
    (hcode : image.Lies l target (.op .ret :: rest)) :
    (m.closed a target).tick natives = m.ended a := by
  have htop := ha.top
  have hlaid : l.Laid (m.closed a target).memory (m.closed a target).ip (.op .ret :: rest) :=
    hcode.laid m.memory (h.bytes ha)
  have hback : (m.closed a target).Tops (Word.ofInt 4 a.back) := by
    refine ⟨(h.link ha).right, ?_⟩
    rw [Word.length_ofInt]
    change a.lp + 4 + 4 ≤ m.memory.top
    rw [h.top_eq]
    omega
  obtain ⟨x0, x1, x2, h0, h1, h2, hat⟩ := hlaid.at
  rw [Machine.tick_ret hat hback (Word.length_ofInt ..), Word.signed_ofInt_four ha.back]
  have hsp : (m.closed a target).sp + 4 = a.lp + 8 := by
    change a.lp + 4 + 4 = _
    omega
  have hreturned : ((m.closed a target).popped 4).jumped a.back = m.returned a := by
    simp only [jumped, popped, hsp]
    rfl
  have hentry : (m.closed a target).entrySp = a.entrySp := h.entrySp
  rw [hreturned, hsp, hentry]
  rfl

end Runs

/-! ## Calls -/

/-- A machine at the first instruction of a function, the return address on top of its stack, below
the bytes of its arguments and its result. -/
structure Called (m : Machine) (image : Image) (ip back : Int) (above : Nat) : Prop where
  running : m.event = .running
  ip : m.ip = ip
  holds : m.Holds image
  room : m.limit ≤ m.sp
  top : m.sp + 4 + above ≤ m.memory.top
  link : m.memory.Has m.sp (Word.ofInt 4 back)
  back : Word.fits32 back = true
  lp : Word.fits32 m.lp = true
  entry : m.sp + 4 ≤ m.entrySp

/-- The frame that a function opens when it is called. -/
def opened (m : Machine) (locals above : Nat) (back : Int) : Activation where
  entrySp := m.entrySp
  lp := m.sp - 4
  locals
  above
  caller := m.lp
  back
  memory := m.framed.memory

section

variable (natives : Natives) {image : Image} {a : Activation} {m : Machine} {ip back target : Int}
  {depth above locals : Nat} {l : Link} {S : Setting} {rest : List Piece} {label : Label}

theorem Called.ready (h : m.Called image ip back above) (hS : S.In image l) : m.Ready := by
  have hdata := hS.data
  have htop := h.top
  have hlimit := h.holds.limit
  exact ⟨h.running, by omega, by omega⟩

/-- After a call from outside, a function is about to open its frame. -/
theorem Invoked.called {m' : Machine} {entry : Entry} {arguments : List UInt8}
    (h : m.Invoked m' entry arguments) (hholds : m.Holds image) (hdata : 0 ≤ image.dataSize)
    (habove : entry.arguments + entry.result = above) :
    m'.Called image entry.address 0 above := by
  have hlimit := hholds.limit
  have hle := hholds.le_top
  have hnonneg : 0 ≤ m.memory.top := by omega
  have htop := h.same.top
  refine ⟨h.running, h.ip, ⟨?_, h.limit.trans hlimit, ?_⟩, ?_, ?_, h.frame.left.left, rfl, ?_,
    h.entrySp.ge⟩
  · refine hholds.bytes.same h.same fun x _ hx => ?_
    unfold Image.dynamicBase at hlimit
    omega
  · rw [h.limit, htop]
    exact hle
  · rw [h.limit]
    exact h.room
  · rw [htop, h.sp]
    omega
  · rw [Word.fits32_iff, h.lp]
    exact ⟨le_trans (by decide) hnonneg, m.memory.top_lt⟩

theorem pushed_sp (m : Machine) (x : Int) : (m.pushed (Word.ofInt 4 x)).sp = m.sp - 4 := by
  change m.sp - (Word.ofInt 4 x).length = _
  rw [Word.length_ofInt]
  rfl

theorem pushed_limit (m : Machine) (data : List UInt8) : (m.pushed data).limit = m.limit := by
  dsimp only [pushed]

theorem pushed_lp (m : Machine) (data : List UInt8) : (m.pushed data).lp = m.lp := by
  dsimp only [pushed]

theorem pushed_entrySp (m : Machine) (data : List UInt8) :
    (m.pushed data).entrySp = m.entrySp := by
  dsimp only [pushed]

theorem framed_sp (m : Machine) : m.framed.sp = m.sp - 4 := m.pushed_sp m.lp

theorem framed_ip (m : Machine) : m.framed.ip = m.ip := by
  dsimp only [framed, pushed]

theorem framed_limit (m : Machine) : m.framed.limit = m.limit := by
  dsimp only [framed, pushed]

theorem framed_memory (m : Machine) : m.framed.memory = (m.pushed (Word.ofInt 4 m.lp)).memory := by
  dsimp only [framed]

theorem framed_running {m : Machine} (h : m.event = .running) : m.framed.event = .running := by
  dsimp only [framed, pushed]
  exact h

/-- Saving the frame pointer changes the free part of the stack only, and completes the link. -/
theorem Called.framed (h : m.Called image ip back above) (hS : S.In image l)
    (hroom : m.HasRoom 4) :
    m.memory.Same (fun x => x < m.limit ∨ m.sp ≤ x) m.framed.memory ∧ m.framed.Holds image ∧
      m.framed.memory.Has (m.sp - 4) (Word.ofInt 4 m.lp ++ Word.ofInt 4 back) := by
  have hready := h.ready hS
  have hlen : (Word.ofInt 4 m.lp).length = 4 := Word.length_ofInt ..
  have hroom' : m.HasRoom (Word.ofInt 4 m.lp).length := by
    rw [hlen]
    exact hroom
  have hsame : m.memory.Same (fun x => x < m.limit ∨ m.sp ≤ x) m.framed.memory := by
    rw [framed_memory]
    exact hready.same_pushed hroom'
  refine ⟨hsame, ⟨h.holds.bytes.same hsame fun x _ hx => .inl ?_,
    m.framed_limit.trans h.holds.limit, ?_⟩, Memory.has_append.2 ⟨?_, ?_⟩⟩
  · have hlimit := h.holds.limit
    have hdata := hS.data
    unfold Image.dynamicBase at hlimit
    omega
  · rw [hsame.top, framed_limit]
    exact h.holds.le_top
  · have htops : m.framed.memory.Has m.framed.sp (Word.ofInt 4 m.lp) :=
      (hready.tops_pushed hroom').has
    rwa [framed_sp] at htops
  · have hsp : m.sp - 4 + ((Word.ofInt 4 m.lp).length : Int) = m.sp := by
      rw [hlen]
      omega
    rw [hsp]
    exact h.link.same hsame fun x hx _ => .inr hx

/-- **A function opens a frame below its link**, if there is room for it. -/
theorem Called.opens (h : m.Called image ip back above) (hS : S.In image l)
    (hcode : image.Lies l ip (.op (.enter (Word.size32 locals)) :: rest)) (hroom : m.HasRoom 4)
    (hframe : m.framed.HasRoom locals) :
    (m.opened locals above back).Proper image ∧
      m.tick natives = (m.framed.popped (-locals)).next ∧
        (m.tick natives).Runs image (m.opened locals above back) (ip + recordSize) 0 := by
  have hready := h.ready hS
  obtain ⟨hsame, hholds, hlink⟩ := h.framed hS hroom
  have hlaid : l.Laid m.memory m.ip (.op (.enter (Word.size32 locals)) :: rest) :=
    h.ip ▸ hcode.laid m.memory h.holds.bytes
  obtain ⟨x0, x1, x2, h0, h1, h2, hat⟩ := hlaid.at
  obtain rfl : Word.size32 locals = x0 := Except.ok.inj h0
  have hlow := h.holds.limit
  have htop := h.top
  have hentry := h.entry
  have hlt := m.memory.top_lt
  have hnonneg := hready.limit
  have hfits : m.limit ≤ m.sp - 4 - locals := by
    unfold HasRoom at hframe
    rw [framed_sp, framed_limit] at hframe
    exact hframe
  have htick : m.tick natives = (m.framed.popped (-locals)).next := by
    rw [tick_enter hready hat (Word.toInt_size32 (by omega)), if_pos hroom, if_pos hframe]
  refine ⟨⟨hholds.bytes, ?_, ?_, hlink, h.lp, h.back, ?_⟩, htick, ?_⟩
  · dsimp only [opened]
    omega
  · dsimp only [opened]
    rw [hsame.top]
    omega
  · dsimp only [opened]
    omega
  rw [htick]
  constructor <;> dsimp only [next, popped, opened]
  case running => exact framed_running h.running
  case ip =>
    dsimp only [Machine.framed, pushed]
    rw [h.ip]
  case sp =>
    rw [framed_sp]
    omega
  case lp | entrySp => dsimp only [Machine.framed, pushed]
  case limit => exact m.framed_limit.trans h.holds.limit
  case room =>
    rw [framed_sp, framed_limit]
    omega
  case same => exact .refl _ _

/-- A function opens its frame, or finds no room for it. -/
theorem Called.enter (h : m.Called image ip back above) (hS : S.In image l)
    (hcode : image.Lies l ip (.op (.enter (Word.size32 locals)) :: rest)) :
    (m.opened locals above back).Proper image ∧
        (m.tick natives).Runs image (m.opened locals above back) (ip + recordSize) 0 ∨
      ∃ m' : Machine, m.tick natives = m'.faulted .stackOverflow ∧ m'.ip = ip ∧ m'.Holds image := by
  have hready := h.ready hS
  have hlaid : l.Laid m.memory m.ip (.op (.enter (Word.size32 locals)) :: rest) :=
    h.ip ▸ hcode.laid m.memory h.holds.bytes
  obtain ⟨x0, x1, x2, h0, h1, h2, hat⟩ := hlaid.at
  obtain rfl : Word.size32 locals = x0 := Except.ok.inj h0
  have htick : m.tick natives = _ := tick_enter hready hat (Word.toInt_size32_eq_min locals)
  by_cases hroom : m.HasRoom 4
  · by_cases hframe : m.framed.HasRoom locals
    · obtain ⟨hproper, -, hruns⟩ := h.opens natives hS hcode hroom hframe
      exact .inl ⟨hproper, hruns⟩
    · have hsmall : ¬ m.framed.HasRoom (min locals 0x7fffffff : Nat) := by
        have htop := h.top
        have hlt := m.memory.top_lt
        have hnonneg := hready.limit
        unfold HasRoom at hframe ⊢
        rw [framed_sp, framed_limit] at hframe ⊢
        omega
      rw [if_pos hroom, if_neg hsmall] at htick
      exact .inr ⟨m.framed, htick, m.framed_ip.trans h.ip, (h.framed hS hroom).2.1⟩
  · rw [if_neg hroom] at htick
    exact .inr ⟨m, htick, h.ip, h.holds⟩

theorem Runs.holds (h : m.Runs image a ip depth) (ha : a.Proper image) (hS : S.In image l) :
    m.Holds image := by
  refine ⟨h.bytes ha, h.limit, ?_⟩
  have hroom := h.room
  have htop := (h.ready ha hS).sp
  omega

/-- **A call leaves the return address on top**, or finds no room for it. -/
theorem Runs.call (h : m.Runs image a ip depth) (ha : a.Proper image) (hS : S.In image l)
    (hcode : image.Lies l ip (.op (.call .user (.label label)) :: rest))
    (hmark : l.Marks label target) (habove : above ≤ depth) :
    m.HasRoom 4 ∧ m.tick natives =
          (m.pushed (Word.ofInt 4 (ip + recordSize))).jumped target ∧
        (m.tick natives).Called image target (ip + recordSize) above ∨
      m.tick natives = m.faulted .stackOverflow := by
  have hready := h.ready ha hS
  obtain ⟨x0, x1, x2, h0, h1, h2, hat⟩ := (h.laid ha hS hcode).at
  obtain rfl := hmark.resolve_eq h0
  have hat : m.At (.of .CALL CallKind.user.code 0 x0 x1 x2) := hat
  rw [tick_call hready hat, h.ip]
  split
  next hroom =>
    have hroom' : m.HasRoom (Word.ofInt 4 (ip + recordSize)).length := by
      rw [Word.length_ofInt]
      exact hroom
    have hsame := hready.same_pushed hroom'
    have hholds := h.holds ha hS
    have hlimit := h.limit
    have hlow := ha.low
    have htop := ha.top
    have hentry := ha.entry
    have hlt := a.memory.top_lt
    have hdata := hS.data
    have hdepth := h.sp
    unfold HasRoom at hroom
    refine .inl ⟨hroom, rfl, ?_, rfl, ⟨?_, ?_, ?_⟩, ?_, ?_, ?_, ?_, ?_, ?_⟩
    · dsimp only [jumped, pushed]
      exact h.running
    · refine hholds.bytes.same hsame fun x _ hx => .inl ?_
      unfold Image.dynamicBase at hlimit
      omega
    · dsimp only [jumped, pushed]
      exact h.limit
    · have hle := hholds.le_top
      dsimp only [jumped]
      rw [pushed_limit, hsame.top]
      exact hle
    · dsimp only [jumped]
      rw [pushed_limit, pushed_sp]
      exact hroom
    · dsimp only [jumped]
      rw [pushed_sp, hsame.top, h.top_eq]
      omega
    · exact (hready.tops_pushed hroom').has
    · have hinside := hcode.tail.inside
      have hnonneg := hcode.tail.nonneg
      have hcodeSize := hS.links.code
      rw [Word.fits32_iff]
      omega
    · dsimp only [jumped]
      rw [pushed_lp, Word.fits32_iff, h.lp]
      omega
    · dsimp only [jumped]
      rw [pushed_sp, pushed_entrySp, h.entrySp]
      omega
  next => exact .inr rfl

/-- **A caller goes on as if nothing had happened** when the function that it has called returns,
which does not end the machine. -/
theorem Runs.resume (h : m.Runs image a ip depth) (ha : a.Proper image) (hS : S.In image l)
    (hroom : m.HasRoom 4) (habove : above ≤ depth) {m₁ m₂ : Machine} {ip₂ : Int}
    (hm₁ : m₁ = (m.pushed (Word.ofInt 4 back)).jumped target)
    (hcalled : m₁.Called image target back above)
    (hopened : (m₁.opened locals above back).Proper image)
    (h₂ : m₂.Runs image (m₁.opened locals above back) ip₂ 0) :
    m₂.ended (m₁.opened locals above back) = m₂.returned (m₁.opened locals above back) ∧
      (m₂.returned (m₁.opened locals above back)).Runs image a back depth := by
  have hready := h.ready ha hS
  have hsp₁ : m₁.sp = m.sp - 4 := by
    rw [hm₁]
    exact m.pushed_sp back
  have hlp₁ : m₁.lp = m.lp := by
    rw [hm₁]
    dsimp only [jumped, pushed]
  have hentry₁ : m₁.entrySp = m.entrySp := by
    rw [hm₁]
    dsimp only [jumped, pushed]
  have hlimit₁ : m₁.limit = m.limit := by
    rw [hm₁]
    dsimp only [jumped, pushed]
  have hsame₁ : m.memory.Same (fun x => x < m.limit ∨ m.sp ≤ x) m₁.memory := by
    rw [hm₁]
    exact hready.same_pushed (by rw [Word.length_ofInt]; exact hroom)
  have hroom₁ : m₁.HasRoom 4 := by
    have hlow := hopened.low
    have hlimit := h.limit
    dsimp only [opened] at hlow
    unfold HasRoom
    omega
  obtain ⟨hsame₂, -, -⟩ := hcalled.framed hS hroom₁
  have hsp := h.sp
  have hentry := ha.entry
  have hlow := ha.low
  have hlimit := h.limit
  have hdata := hS.data
  have hne : (m₁.opened locals above back).lp + 8 ≠ (m₁.opened locals above back).entrySp := by
    dsimp only [opened]
    rw [hentry₁, h.entrySp]
    omega
  refine ⟨if_neg hne, h₂.running, rfl, ?_, ?_, ?_, h₂.limit, ?_, ?_⟩
  · dsimp only [returned, opened]
    omega
  · exact hlp₁.trans h.lp
  · exact h₂.entrySp.trans (hentry₁.trans h.entrySp)
  · have hroom := h.room
    dsimp only [returned, opened]
    rw [h₂.limit, ← h.limit]
    omega
  · refine h.same.trans ((hsame₁.mono fun x hx => ?_).trans ((hsame₂.mono fun x hx => ?_).trans
      (h₂.same.mono fun x hx => ?_)))
    · rcases hx with hx | hx | hx <;> omega
    · rw [hlimit₁, hsp₁]
      rcases hx with hx | hx | hx <;> omega
    · dsimp only [Activation.Kept, opened]
      rcases hx with hx | hx | hx <;> omega

end

end Machine

end ChannelBasic
