import ChannelBasic.Machine
import ChannelBasic.Proofs.Machine.Memory
import ChannelBasic.Proofs.Machine.Words

/-!
# Proofs/Machine/Steps — what one instruction does

There is one lemma for each instruction, which says exactly what `tick` makes of a machine that has
the instruction's record at its instruction pointer and the operands on top of its stack.  What an
instruction computes is pushed if there is room for it; if not, the machine ends with a stack
overflow (`answered`).
-/

namespace ChannelBasic

open Code

/-- The record of an instruction, its last selector being unused. -/
def Code.Record.of (op : Opcode) (p0 p1 : UInt8) (x0 x1 x2 : Int32) : Record :=
  ⟨op.code, p0, p1, 0, x0, x1, x2⟩

namespace Machine

/-- The machine at the instruction after this one. -/
def next (m : Machine) : Machine := { m with ip := m.ip + recordSize }

/-- The machine at another instruction. -/
def jumped (m : Machine) (address : Int) : Machine := { m with ip := address }

/-- The machine with bytes pushed. -/
def pushed (m : Machine) (data : List UInt8) : Machine :=
  { m with memory := m.memory.put (m.sp - data.length) data, sp := m.sp - data.length }

/-- The machine with `n` bytes dropped. -/
def popped (m : Machine) (n : Int) : Machine := { m with sp := m.sp + n }

/-- The machine with bytes put at an address. -/
def stored (m : Machine) (address : Int) (data : List UInt8) : Machine :=
  { m with memory := m.memory.put address data }

/-- The machine ended by a fault. -/
def faulted (m : Machine) (f : Fault) : Machine := { m with event := .halted (.fault f) }

/-- Whether there is room for `n` more bytes on the stack. -/
def HasRoom (m : Machine) (n : Int) : Prop := m.limit ≤ m.sp - n

instance (m : Machine) (n : Int) : Decidable (m.HasRoom n) :=
  inferInstanceAs (Decidable (m.limit ≤ m.sp - n))

/-- The machine after an instruction that pushes bytes. -/
def answered (m : Machine) (data : List UInt8) : Machine :=
  if m.HasRoom data.length then (m.pushed data).next else m.faulted .stackOverflow

/-- A record lies at the instruction pointer. -/
def At (m : Machine) (r : Record) : Prop := m.memory.Has m.ip r.encode

/-- Some bytes lie on top of the stack. -/
structure Tops (m : Machine) (data : List UInt8) : Prop where
  has : m.memory.Has m.sp data
  le_top : m.sp + data.length ≤ m.memory.top

/-- The machine runs, and its stack lies inside memory. -/
structure Ready (m : Machine) : Prop where
  running : m.event = .running
  limit : 0 ≤ m.limit
  sp : m.sp ≤ m.memory.top

variable {m : Machine} {data : List UInt8} {n : Int}

theorem popped_popped (m : Machine) (a b : Int) : (m.popped a).popped b = m.popped (a + b) := by
  simp only [popped, add_assoc]

theorem answered_of_hasRoom (h : m.HasRoom data.length) : m.answered data = (m.pushed data).next :=
  if_pos h

theorem answered_of_not_hasRoom (h : ¬ m.HasRoom data.length) :
    m.answered data = m.faulted .stackOverflow :=
  if_neg h

theorem Ready.sp_le_size (h : m.Ready) : m.sp ≤ m.memory.size :=
  h.sp.trans m.memory.top_le_size

theorem Ready.pushed (h : m.Ready) : (m.pushed data).Ready :=
  ⟨h.running, h.limit, by
    have := h.sp
    simp only [Machine.pushed, Memory.top_put]
    omega⟩

theorem Tops.nil (h : m.Ready) (hsp : 0 ≤ m.sp) : m.Tops [] :=
  ⟨Memory.has_iff.2 ⟨hsp, by simpa using h.sp_le_size, by simp⟩, by simpa using h.sp⟩

theorem Tops.next (h : m.Tops data) : m.next.Tops data := ⟨h.has, h.le_top⟩

theorem tops_append {xs ys : List UInt8} :
    m.Tops (xs ++ ys) ↔ m.Tops xs ∧ (m.popped xs.length).Tops ys := by
  constructor
  · rintro ⟨h, htop⟩
    rw [List.length_append] at htop
    exact ⟨⟨h.left, by omega⟩, h.right, by simp only [popped]; omega⟩
  · rintro ⟨hx, hy⟩
    refine ⟨Memory.has_append.2 ⟨hx.has, hy.has⟩, ?_⟩
    have := hy.le_top
    simp only [popped] at this
    rw [List.length_append]
    omega

theorem Ready.popped (h : m.Ready) (ht : m.Tops data) : (m.popped data.length).Ready :=
  ⟨h.running, h.limit, ht.le_top⟩

/-- What has been pushed lies on top. -/
theorem Ready.tops_pushed (h : m.Ready) (hroom : m.HasRoom data.length) :
    (m.pushed data).Tops data := by
  have hsp := h.sp_le_size
  have := h.limit
  have := h.sp
  unfold HasRoom at hroom
  refine ⟨Memory.has_put (by omega) (by omega), ?_⟩
  simp only [Machine.pushed, Memory.top_put]
  omega

/-- A push changes the free part of the stack only. -/
theorem Ready.same_pushed (h : m.Ready) (hroom : m.HasRoom data.length) :
    m.memory.Same (fun x => x < m.limit ∨ m.sp ≤ x) (m.pushed data).memory := by
  have hsp := h.sp_le_size
  have := h.limit
  unfold HasRoom at hroom
  refine (Memory.same_put (by omega) (by omega)).mono fun x hx => ?_
  omega

end Machine

namespace Step

variable {α β : Type} {m m' : Machine} {x : Step α} {f : α → Step β} {a : α} {h : Halt}
  {data : List UInt8} {n : Int}

/-! ## Parts of a step -/

theorem bind_ok (hx : x m = .ok a m') : (x >>= f) m = f a m' := by
  simp [bind, EStateM.bind, hx]

theorem bind_error (hx : x m = .error h m') : (x >>= f) m = .error h m' := by
  simp [bind, EStateM.bind, hx]

theorem get_bind {f : Machine → Step β} : ((get : Step Machine) >>= f) m = f m m := rfl

theorem select_bind {f : α → Step β} : (select (some a) >>= f) m = f a m := rfl

theorem lift_bind {f : α → Step β} : (lift (.ok a) >>= f) m = f a m := rfl

theorem read_bind {f : List UInt8 → Step β} {address : Int} (hm : m.memory.Has address data)
    (hn : n = data.length) : (read address n >>= f) m = f data m := by
  apply bind_ok
  rw [read, get_bind, hm.read hn]
  rfl

theorem write_ok {address : Int} (h₀ : 0 ≤ address) (h₁ : address + data.length ≤ m.memory.size) :
    write address data m = .ok () (m.stored address data) := by
  rw [write, if_pos (Memory.inside_iff.2 ⟨h₀, by omega, h₁⟩)]
  rfl

theorem reserve_ok (hn : 0 ≤ n) (hroom : m.HasRoom n) :
    reserve n m = .ok (m.sp - n) { m with sp := m.sp - n } :=
  if_pos ⟨hn, hroom⟩

theorem reserve_error (hroom : ¬ m.HasRoom n) :
    reserve n m = .error (.fault .stackOverflow) m :=
  if_neg fun h => hroom h.2

/-- Reserving room and writing there is pushing. -/
theorem reserve_write (hm : m.Ready) (hn : n = data.length) (hroom : m.HasRoom n) :
    (reserve n >>= fun sp => write sp data) m = .ok () (m.pushed data) := by
  have hsp := hm.sp_le_size
  have hlimit := hm.limit
  rw [bind_ok (reserve_ok (by omega) hroom)]
  unfold Machine.HasRoom at hroom
  rw [write_ok (by omega) (by dsimp only; omega), hn]
  rfl

theorem push_ok (hm : m.Ready) (hroom : m.HasRoom data.length) :
    push data m = .ok () (m.pushed data) :=
  reserve_write hm rfl hroom

theorem push_error (hroom : ¬ m.HasRoom data.length) :
    push data m = .error (.fault .stackOverflow) m :=
  bind_error (reserve_error hroom)

theorem release_ok (hn : 0 ≤ n) (htop : m.sp + n ≤ m.memory.top) :
    release n m = .ok () (m.popped n) := by
  rw [release, if_neg (by omega), if_pos htop]
  rfl

theorem pop_bind {f : List UInt8 → Step β} (ht : m.Tops data) (hn : n = data.length) :
    (pop n >>= f) m = f data (m.popped n) := by
  have hpop : pop n m = .ok data (m.popped n) := by
    rw [pop, get_bind, read_bind ht.has hn, bind_ok (release_ok (by omega) (hn ▸ ht.le_top))]
    rfl
  exact bind_ok hpop

theorem popValue_bind {f : Value → Step β} {type : ValueType} {v : Value} (ht : m.Tops data)
    (hn : n = data.length) (hv : Value.decode type data = .ok v) :
    (popValue type n >>= f) m = f v (m.popped n) := by
  apply bind_ok
  rw [popValue, pop_bind ht hn, hv]
  rfl

theorem frameAddress_bind {f : Int → Step β} {offset : Int}
    (hfits : Word.fits32 (m.lp + offset) = true) :
    (frameAddress offset >>= f) m = f (m.lp + offset) m := by
  apply bind_ok
  rw [frameAddress, get_bind]
  rw [if_pos hfits]
  rfl

/-- A step that comes to pushing some bytes in a machine, if there is room for them. -/
def Answers (x : Step Unit) (m m' : Machine) (data : List UInt8) : Prop :=
  x m = if m'.HasRoom data.length then .ok () (m'.pushed data)
    else .error (.fault .stackOverflow) m'

theorem answers_of_reserve {g : Int → Step Unit} (hn : n = data.length)
    (hok : m.HasRoom n → (reserve n >>= g) m = .ok () (m.pushed data)) :
    Answers (reserve n >>= g) m m data := by
  subst hn
  unfold Answers
  split
  next hroom => exact hok hroom
  next hroom => exact bind_error (reserve_error hroom)

theorem push_answers (hm : m.Ready) (data : List UInt8) : Answers (push data) m m data :=
  answers_of_reserve rfl (reserve_write hm rfl)

/-- Reserving room and copying bytes there is pushing them. -/
theorem copy_answers {source : Int} (hm : m.Ready) (hn : n = data.length)
    (hdata : m.HasRoom data.length → m.memory.Has source data) :
    Answers (reserve n >>= fun sp => copy source sp n) m m data := by
  refine answers_of_reserve hn fun hroom => ?_
  have hreserve := reserve_ok (by omega) hroom
  have hread := read_bind (f := write (m.sp - n)) (m := { m with sp := m.sp - n })
    (hdata (hn ▸ hroom)) hn
  rw [bind_ok hreserve, copy, hread, ← reserve_write hm hn hroom, bind_ok hreserve]

theorem length_take_encode (v : Value) (n : Nat) : ((v.encode n).take n).length = n := by
  cases v with
  | string units => simp [Value.encode]
  | _ => simp [Value.encode]

theorem pushValue_answers (hm : m.Ready) (v : Value) {k : Nat} (hn : n = k) :
    Answers (pushValue v n) m m ((v.encode k).take k) := by
  subst hn
  have hlen := length_take_encode v k
  refine answers_of_reserve (by rw [hlen]) fun hroom => ?_
  rw [Int.toNat_natCast]
  exact reserve_write hm (by rw [hlen]) hroom

theorem Answers.of_eq {x y : Step Unit} {m₁ : Machine} (h : Answers y m₁ m' data)
    (hxy : x m = y m₁) : Answers x m m' data :=
  hxy.trans h

/-- The record at the instruction pointer decides what a step does. -/
theorem step_eq {natives : Natives} {r : Record} {op : Opcode} (hat : m.At r)
    (hop : r.opcode = op.code) : step natives m = execute natives r op m := by
  have hfetch : fetch m = .ok r m := by
    have hdecode : Record.decode? r.encode = some r := by simpa using Record.decode?_encode r []
    rw [fetch, get_bind, read_bind hat (by rw [Record.length_encode]), hdecode]
    rfl
  rw [step, bind_ok hfetch, hop, Opcode.ofCode?_code, select_bind]

end Step

namespace Machine

variable {m m' : Machine} {natives : Natives} {r : Record} {op : Opcode} {data : List UInt8}

theorem tick_ok (op : Opcode) (hat : m.At r) (hop : r.opcode = op.code)
    (h : Step.execute natives r op m = .ok () m') : m.tick natives = m' := by
  rw [← Step.step_eq hat hop] at h
  simp only [tick, EStateM.run, h]

theorem tick_error (op : Opcode) {f : Fault} (hat : m.At r) (hop : r.opcode = op.code)
    (h : Step.execute natives r op m = .error (.fault f) m') : m.tick natives = m'.faulted f := by
  rw [← Step.step_eq hat hop] at h
  simp only [tick, EStateM.run, h, faulted]

/-- An instruction that does something and goes on. -/
theorem tick_advance (op : Opcode) {x : Step Unit} (hat : m.At r) (hop : r.opcode = op.code)
    (hx : Step.execute natives r op = (x >>= fun _ => Step.advance)) (h : x m = .ok () m') :
    m.tick natives = m'.next := by
  refine tick_ok op hat hop ?_
  rw [hx, Step.bind_ok h]
  rfl

/-- An instruction that pushes an answer and goes on. -/
theorem tick_answers (op : Opcode) {x : Step Unit} (hat : m.At r) (hop : r.opcode = op.code)
    (hx : Step.execute natives r op = (x >>= fun _ => Step.advance))
    (h : Step.Answers x m m' data) : m.tick natives = m'.answered data := by
  unfold Step.Answers at h
  split at h
  next hroom =>
    rw [answered_of_hasRoom hroom]
    exact tick_advance op hat hop hx h
  next hroom =>
    rw [answered_of_not_hasRoom hroom]
    exact tick_error op hat hop (by rw [hx, Step.bind_error h])

/-! ## Instructions that push -/

section

variable {x0 x1 x2 : Int32} {p0 p1 : UInt8}

theorem tick_loadGlobal (hm : m.Ready) (hat : m.At (.of .LOAD Storage.global.code p1 x0 x1 x2))
    (hn : x0.toInt = data.length) (hdata : m.HasRoom data.length → m.memory.Has x1.toInt data) :
    m.tick natives = m.answered data :=
  tick_answers .LOAD hat rfl rfl ((Step.copy_answers hm hn hdata).of_eq rfl)

theorem tick_loadFrame (hm : m.Ready) (hat : m.At (.of .LOAD Storage.frame.code p1 x0 x1 x2))
    (hn : x0.toInt = data.length) (hfits : Word.fits32 (m.lp + x1.toInt) = true)
    (hdata : m.HasRoom data.length → m.memory.Has (m.lp + x1.toInt) data) :
    m.tick natives = m.answered data :=
  tick_answers .LOAD hat rfl rfl
    ((Step.copy_answers hm hn hdata).of_eq (Step.frameAddress_bind hfits))

theorem tick_loadImmediate {k : Nat} (hm : m.Ready)
    (hat : m.At (.of .LOAD Storage.immediate.code p1 x0 x1 x2)) (hn : x0.toInt = k) (hk : k ≤ 8) :
    m.tick natives = m.answered ((Word.ofInt32 x1 ++ Word.ofInt32 x2).take k) := by
  refine tick_answers .LOAD hat rfl rfl ((Step.push_answers hm _).of_eq ?_)
  change (if 0 ≤ x0.toInt ∧ x0.toInt ≤ 8 then
    Step.push ((Word.ofInt32 x1 ++ Word.ofInt32 x2).take x0.toInt.toNat)
    else Step.fail .badInstruction : Step Unit) m = _
  rw [if_pos (by omega), hn, Int.toNat_natCast]

theorem tick_loadFramePointer (hm : m.Ready)
    (hat : m.At (.of .LOAD Storage.framePointer.code p1 x0 x1 x2))
    (hfits : Word.fits32 (m.lp + x1.toInt) = true) :
    m.tick natives = m.answered (Word.ofInt 4 (m.lp + x1.toInt)) := by
  refine tick_answers .LOAD hat rfl rfl ((Step.push_answers hm _).of_eq ?_)
  exact Step.frameAddress_bind hfits

theorem tick_loadZero {k : Nat} (hm : m.Ready)
    (hat : m.At (.of .LOAD Storage.zero.code p1 x0 x1 x2)) (hn : x0.toInt = k) :
    m.tick natives = m.answered (List.replicate k 0) := by
  refine tick_answers .LOAD hat rfl rfl ?_
  refine @Step.Answers.of_eq _ _ _ _ (Step.pushZeros x0.toInt) m ?_ rfl
  have hlen : x0.toInt = (List.replicate k (0 : UInt8)).length := by simpa using hn
  refine Step.answers_of_reserve hlen fun hroom => ?_
  rw [hn, Int.toNat_natCast]
  exact Step.reserve_write hm (hn ▸ hlen) (hn ▸ hroom)

theorem tick_dup (hm : m.Ready) (hat : m.At (.of .DUP p0 p1 x0 x1 x2)) (ht : m.Tops data)
    (hn : x0.toInt = data.length) : m.tick natives = m.answered data := by
  refine tick_answers .DUP (x := get >>= fun m => Step.read m.sp x0.toInt >>= Step.push)
    hat rfl ?_ ((Step.push_answers hm _).of_eq ?_)
  · simp only [Step.execute, bind_assoc]
    rfl
  · rw [Step.get_bind, Step.read_bind ht.has hn]

/-! ## Instructions on values -/

theorem tick_cast {source target : ValueType} {v w : Value} {k : Nat} (hm : m.Ready)
    (hat : m.At (.of .CAST source.code target.code x0 x1 x2)) (ht : m.Tops data)
    (hn : x0.toInt = data.length) (hv : Value.decode source data = .ok v)
    (hw : v.cast target = .ok w) (hk : x1.toInt = k) :
    m.tick natives = (m.popped data.length).answered ((w.encode k).take k) := by
  refine tick_answers .CAST (x := Step.cast _) hat rfl rfl
    ((Step.pushValue_answers (hm.popped ht) w hk).of_eq ?_)
  simp only [Step.cast, Code.Record.of]
  rw [ValueType.ofCode?_code, Step.select_bind, Step.popValue_bind ht hn hv,
    ValueType.ofCode?_code, Step.select_bind, hw, Step.lift_bind, hn]

theorem execute_of_isBinary (h : op.isBinary = true) :
    Step.execute natives r op = (Step.binary op r >>= fun _ => Step.advance) := by
  cases op <;> first | rfl | cases h

/-- The machine with the operands of an operator popped. -/
theorem binary_eq {type : ValueType} {right : List UInt8} {v w : Value}
    (ht : m.Tops (data ++ right)) (hn : x0.toInt = data.length) (hn' : x1.toInt = right.length)
    (hv : Value.decode type data = .ok v) (hw : Value.decode type right = .ok w) :
    Step.binary op (.of op type.code p1 x0 x1 x2) m =
      (Step.lift (Value.binary op v w) >>= fun u => Step.pushValue u x2.toInt)
        ((m.popped data.length).popped right.length) := by
  obtain ⟨hl, hr⟩ := tops_append.1 ht
  simp only [Step.binary, Code.Record.of]
  rw [ValueType.ofCode?_code, Step.select_bind, Step.popValue_bind hl hn hv, hn,
    Step.popValue_bind hr hn' hw, hn']

theorem tick_binary {type : ValueType} {right : List UInt8} {v w u : Value} {k : Nat} (hm : m.Ready)
    (hop : op.isBinary = true) (hat : m.At (.of op type.code p1 x0 x1 x2))
    (ht : m.Tops (data ++ right)) (hn : x0.toInt = data.length) (hn' : x1.toInt = right.length)
    (hv : Value.decode type data = .ok v) (hw : Value.decode type right = .ok w)
    (hu : Value.binary op v w = .ok u) (hk : x2.toInt = k) :
    m.tick natives =
      ((m.popped data.length).popped right.length).answered ((u.encode k).take k) := by
  obtain ⟨hl, hr⟩ := tops_append.1 ht
  refine tick_answers op hat rfl (execute_of_isBinary hop)
    ((Step.pushValue_answers ((hm.popped hl).popped hr) u hk).of_eq ?_)
  rw [binary_eq ht hn hn' hv hw, hu, Step.lift_bind]

theorem tick_binary_error {type : ValueType} {right : List UInt8} {v w : Value} {f : Fault}
    (hop : op.isBinary = true) (hat : m.At (.of op type.code p1 x0 x1 x2))
    (ht : m.Tops (data ++ right)) (hn : x0.toInt = data.length) (hn' : x1.toInt = right.length)
    (hv : Value.decode type data = .ok v) (hw : Value.decode type right = .ok w)
    (hu : Value.binary op v w = .error f) :
    m.tick natives = ((m.popped data.length).popped right.length).faulted f := by
  refine tick_error op hat rfl ?_
  rw [execute_of_isBinary hop]
  apply Step.bind_error
  rw [binary_eq ht hn hn' hv hw, hu]
  rfl

theorem tick_compare {type : ValueType} {c : Comparison} {right : List UInt8} {v w : Value}
    {answer : Bool} (hm : m.Ready) (hat : m.At (.of .CMP type.code c.code x0 x1 x2))
    (ht : m.Tops (data ++ right)) (hn : x0.toInt = data.length) (hn' : x1.toInt = right.length)
    (hv : Value.decode type data = .ok v) (hw : Value.decode type right = .ok w)
    (ha : Value.compare c v w = .ok answer) :
    m.tick natives =
      ((m.popped data.length).popped right.length).answered [if answer then 1 else 0] := by
  obtain ⟨hl, hr⟩ := tops_append.1 ht
  refine tick_answers .CMP (x := Step.compare _) hat rfl rfl
    ((Step.push_answers ((hm.popped hl).popped hr) _).of_eq ?_)
  simp only [Step.compare, Code.Record.of]
  rw [ValueType.ofCode?_code, Step.select_bind, Comparison.ofCode?_code, Step.select_bind,
    Step.popValue_bind hl hn hv, hn, Step.popValue_bind hr hn' hw, hn', ha, Step.lift_bind]

/-- `NEG` and `NOT`. -/
theorem tick_unary {type : ValueType} {v u : Value} {f : Value → Except Fault Value} (hm : m.Ready)
    (hf : op = .NEG ∧ f = Value.negate ∨ op = .NOT ∧ f = Value.complement)
    (hat : m.At (.of op type.code p1 x0 x1 x2)) (ht : m.Tops data)
    (hn : x0.toInt = data.length) (hv : Value.decode type data = .ok v) (hu : f v = .ok u) :
    m.tick natives =
      (m.popped data.length).answered ((u.encode data.length).take data.length) := by
  refine tick_answers op (x := Step.unary f (.of op type.code p1 x0 x1 x2)) hat rfl ?_
    ((Step.pushValue_answers (hm.popped ht) u hn).of_eq ?_)
  · obtain ⟨rfl, rfl⟩ | ⟨rfl, rfl⟩ := hf <;> rfl
  · simp only [Step.unary, Code.Record.of]
    rw [ValueType.ofCode?_code, Step.select_bind, Step.popValue_bind ht hn hv, hu, Step.lift_bind,
      hn]

theorem tick_sign {type : ValueType} {v : Value} {n : Int} (hm : m.Ready)
    (hat : m.At (.of .SIGN type.code p1 x0 x1 x2)) (ht : m.Tops data)
    (hn : x0.toInt = data.length) (hv : Value.decode type data = .ok v) (hs : v.sign = .ok n) :
    m.tick natives = (m.popped data.length).answered (Word.ofInt 1 n) := by
  refine tick_answers .SIGN (x := Step.sign _) hat rfl rfl
    ((Step.push_answers (hm.popped ht) _).of_eq ?_)
  simp only [Step.sign, Code.Record.of]
  rw [ValueType.ofCode?_code, Step.select_bind, Step.popValue_bind ht hn hv, hs, Step.lift_bind, hn]

/-! ## Instructions that pop, jump and call -/

/-- A store reads the stack before it writes, so it does not matter where it writes to. -/
theorem store_eq {target : Int} (ht : m.Tops data) (hn : x0.toInt = data.length)
    (h₀ : 0 ≤ target) (h₁ : target + data.length ≤ m.memory.size) :
    (get >>= fun m => Step.copy m.sp target x0.toInt >>= fun _ => Step.release x0.toInt) m =
      .ok () ((m.stored target data).popped data.length) := by
  have htop : (m.stored target data).sp + x0.toInt ≤ (m.stored target data).memory.top := by
    rw [hn]
    simpa only [stored, Memory.top_put] using ht.le_top
  have hcopy : Step.copy m.sp target x0.toInt m = .ok () (m.stored target data) := by
    rw [Step.copy, Step.read_bind ht.has hn, Step.write_ok h₀ h₁]
  rw [Step.get_bind, Step.bind_ok hcopy, Step.release_ok (by omega) htop, hn]

theorem tick_storeGlobal (hat : m.At (.of .STORE Storage.global.code p1 x0 x1 x2))
    (ht : m.Tops data) (hn : x0.toInt = data.length) (h₀ : 0 ≤ x1.toInt)
    (h₁ : x1.toInt + data.length ≤ m.memory.size) :
    m.tick natives = ((m.stored x1.toInt data).popped data.length).next :=
  tick_advance .STORE hat rfl rfl (store_eq ht hn h₀ h₁)

theorem tick_storeFrame (hat : m.At (.of .STORE Storage.frame.code p1 x0 x1 x2))
    (ht : m.Tops data) (hn : x0.toInt = data.length)
    (hfits : Word.fits32 (m.lp + x1.toInt) = true) (h₀ : 0 ≤ m.lp + x1.toInt)
    (h₁ : m.lp + x1.toInt + data.length ≤ m.memory.size) :
    m.tick natives = ((m.stored (m.lp + x1.toInt) data).popped data.length).next :=
  tick_advance .STORE hat rfl rfl
    ((Step.frameAddress_bind hfits).trans (store_eq ht hn h₀ h₁))

theorem tick_pop (hat : m.At (.of .POP p0 p1 x0 x1 x2)) (ht : m.Tops data)
    (hn : x0.toInt = data.length) : m.tick natives = (m.popped data.length).next := by
  refine tick_ok .POP hat rfl ?_
  change (Step.pop x0.toInt >>= fun _ => Step.advance) m = _
  rw [Step.pop_bind ht hn, hn]
  rfl

theorem tick_jump (hat : m.At (.of .JUMP p0 p1 x0 x1 x2)) :
    m.tick natives = m.jumped x0.toInt :=
  tick_ok .JUMP hat rfl rfl

theorem tick_branch {on : BranchOn} {b : UInt8} (hat : m.At (.of .IF on.code p1 x0 x1 x2))
    (ht : m.Tops [b]) :
    m.tick natives =
      if (b != 0) == (on == .true) then (m.popped 1).jumped x0.toInt else (m.popped 1).next := by
  have hcondition : ([b].head? != some 0) = (b != 0) := by simp [bne]
  refine tick_ok .IF hat rfl ?_
  simp only [Step.execute, Step.branch, Code.Record.of]
  rw [Step.pop_bind ht (show (1 : Int) = [b].length from rfl), BranchOn.ofCode?_code, Step.select_bind,
    hcondition]
  split <;> rfl

theorem tick_call (hm : m.Ready) (hat : m.At (.of .CALL CallKind.user.code p1 x0 x1 x2)) :
    m.tick natives = if m.HasRoom 4 then
      (m.pushed (Word.ofInt 4 (m.ip + recordSize))).jumped x0.toInt
    else m.faulted .stackOverflow := by
  have hlen : ((Word.ofInt 4 (m.ip + recordSize)).length : Int) = 4 := by simp
  split
  next hroom =>
    refine tick_ok .CALL hat rfl ?_
    change (Step.push (Word.ofInt 4 (m.ip + recordSize)) >>= _) m = _
    exact Step.bind_ok (Step.push_ok hm (by rwa [hlen]))
  next hroom =>
    refine tick_error .CALL hat rfl ?_
    change (Step.push (Word.ofInt 4 (m.ip + recordSize)) >>= _) m = _
    exact Step.bind_error (Step.push_error (by rwa [hlen]))

theorem tick_ret (hat : m.At (.of .RET p0 p1 x0 x1 x2)) (ht : m.Tops data)
    (hn : data.length = 4) :
    m.tick natives = if m.sp + 4 = m.entrySp then
      { (m.popped 4).jumped (Word.signed data) with event := .halted .stopped }
    else (m.popped 4).jumped (Word.signed data) := by
  refine tick_ok .RET hat rfl ?_
  have hpop : Step.popInt m = .ok (Word.signed data) (m.popped 4) := by
    rw [Step.popInt, Step.pop_bind ht (by rw [hn]; rfl)]
    rfl
  simp only [Step.execute, Step.ret]
  rw [Step.bind_ok hpop]
  change (if m.sp + 4 = m.entrySp then Step.stop else pure () : Step Unit)
    ((m.popped 4).jumped (Word.signed data)) = _
  split <;> rfl

/-- The machine that has saved its frame pointer and opened a frame. -/
def framed (m : Machine) : Machine :=
  { m.pushed (Word.ofInt 4 m.lp) with lp := m.sp - 4 }

theorem tick_enter {k : Nat} (hm : m.Ready) (hat : m.At (.of .ENTER p0 p1 x0 x1 x2))
    (hn : x0.toInt = k) :
    m.tick natives = if m.HasRoom 4 then
      if m.framed.HasRoom k then (m.framed.popped (-k)).next else m.framed.faulted .stackOverflow
    else m.faulted .stackOverflow := by
  have hlen : ((Word.ofInt 4 m.lp).length : Int) = 4 := by simp
  split
  next hroom =>
    have hpush := Step.push_ok hm (by rwa [hlen])
    have henter : Step.enter (.of .ENTER p0 p1 x0 x1 x2) m =
        (Step.reserve x0.toInt >>= fun _ => pure ()) m.framed := by
      simp only [Step.enter, Step.get_bind, Step.pushInt]
      rw [Step.bind_ok hpush]
      rfl
    split
    next hframe =>
      refine tick_advance .ENTER hat rfl rfl ?_
      rw [henter, Step.bind_ok (Step.reserve_ok (by omega) (by rwa [hn])), hn]
      rfl
    next hframe =>
      refine tick_error .ENTER hat rfl (Step.bind_error ?_)
      rw [henter, Step.bind_error (Step.reserve_error (by rwa [hn]))]
  next hroom =>
    refine tick_error .ENTER hat rfl (Step.bind_error ?_)
    change (Step.push (Word.ofInt 4 m.lp) >>= _) m = _
    exact Step.bind_error (Step.push_error (by rwa [hlen]))

theorem tick_leave {k : Nat} (hat : m.At (.of .LEAVE p0 p1 x0 x1 x2)) (hn : x0.toInt = k)
    (ht : (m.popped k).Tops data) (hlen : data.length = 4) :
    m.tick natives = { (m.popped k).popped 4 with lp := Word.signed data }.next := by
  have htop : m.sp + x0.toInt ≤ m.memory.top := by
    have := ht.le_top
    simp only [popped] at this
    omega
  have hpop : Step.popInt (m.popped k) = .ok (Word.signed data) ((m.popped k).popped 4) := by
    rw [Step.popInt, Step.pop_bind ht (by rw [hlen]; rfl)]
    rfl
  refine tick_advance .LEAVE hat rfl rfl ?_
  simp only [Step.leave, Code.Record.of]
  rw [Step.bind_ok (Step.release_ok (by omega) htop), hn, Step.bind_ok hpop]
  rfl

end

/-! ## Runs -/

theorem run_succ (h : m.event = .running) (n : Nat) :
    m.run natives (n + 1) = (m.tick natives).run natives n := by
  rw [run, isRunning, h]
  rfl

theorem run_of_halted (h : m.event ≠ .running) (n : Nat) : m.run natives n = m := by
  cases n with
  | zero => rfl
  | succ n => rw [run, isRunning, if_neg (by simpa using h)]

/-- A run goes on where a shorter run has ended. -/
theorem run_add (m : Machine) (k n : Nat) :
    m.run natives (k + n) = (m.run natives k).run natives n := by
  induction k generalizing m with
  | zero => rw [Nat.zero_add]; rfl
  | succ k ih =>
    by_cases h : m.event = .running
    · rw [Nat.succ_add, run_succ h, run_succ h, ih]
    · rw [run_of_halted h, run_of_halted h, run_of_halted h]

end Machine

end ChannelBasic
