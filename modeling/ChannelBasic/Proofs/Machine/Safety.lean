import ChannelBasic.Proofs.Machine.Steps
import ChannelBasic.Proofs.Passes

/-!
# Proofs/Machine/Safety — whatever its image, a machine stays inside its memory

An instruction may carry any numbers, and it keeps what it has done when it faults in the middle.
So what is said of a step is said of the state it leaves behind, **fault or not** (`Step.Leads`), and
follows from what its parts do: room is made only above the data sets, and dropped only up to the
top of memory.  Everything but a `STORE` and the host's own functions writes to the room it has made
(`Machine.Spares`).  Hence whatever is run and called, in whatever order, the stack pointer stays
where it belongs and memory keeps its size (`Machine.confined_of_start`).
-/

namespace ChannelBasic

open Code

theorem Memory.top_eq_size {m : Memory} (h : m.size < 2 ^ 31) : m.top = m.size := by
  unfold top
  rw [Int.bmod_def]
  split <;> omega

namespace Machine

/-- The stack pointer lies between the end of the data sets and the top of memory. -/
structure Bounded (m : Machine) : Prop where
  low : m.limit ≤ m.sp
  high : m.sp ≤ m.memory.top

/-- A machine that has moved on without leaving its bounds. -/
structure Stays (m m' : Machine) : Prop where
  size : m'.memory.size = m.memory.size
  limit : m'.limit = m.limit
  bounded : m.Bounded → m'.Bounded

/-- A machine that has moved on and has left alone whatever lies below its stack. -/
structure Spares (m m' : Machine) : Prop extends Stays m m' where
  below : m.Bounded → m.memory.Same (· < m.limit) m'.memory

theorem Stays.passage : Passage Stays where
  refl _ := ⟨rfl, rfl, id⟩
  trans h h' :=
    ⟨h'.size.trans h.size, h'.limit.trans h.limit, fun hb => h'.bounded (h.bounded hb)⟩

theorem Spares.passage : Passage Spares where
  refl m := ⟨Stays.passage.refl m, fun _ => .refl _ _⟩
  trans h h' := ⟨Stays.passage.trans h.toStays h'.toStays, fun hb =>
    (h.below hb).trans ((h'.below (h.bounded hb)).mono fun x hx => by rwa [h.limit])⟩

variable {m m' : Machine}

/-- Registers but the stack pointer say nothing about the bounds. -/
theorem spares_of_eq (hmem : m'.memory = m.memory) (hsp : m'.sp = m.sp)
    (hlimit : m'.limit = m.limit) : m.Spares m' where
  size := by rw [hmem]
  limit := hlimit
  bounded h := ⟨by rw [hlimit, hsp]; exact h.low, by rw [hmem, hsp]; exact h.high⟩
  below _ := by rw [hmem]; exact .refl _ _

/-- The stack pointer moves within its bounds. -/
theorem spares_sp {sp : Int} (h : m.Bounded → m.limit ≤ sp ∧ sp ≤ m.memory.top) :
    m.Spares { m with sp } where
  size := rfl
  limit := rfl
  bounded hb := ⟨(h hb).1, (h hb).2⟩
  below _ := .refl _ _

end Machine

/-! ## The state that a step leaves behind -/

namespace Step

variable {α β : Type} {K : Machine → Machine → Prop} {x : Step α} {f : α → Step β}

/-- The machine after a step, whether the step has ended it or not. -/
def after (x : Step α) (m : Machine) : Machine :=
  match x m with
  | .ok _ m' => m'
  | .error _ m' => m'

/-- A step moves the machine on in one way only, fault or not. -/
def Leads (K : Machine → Machine → Prop) (x : Step α) : Prop := ∀ m, K m (x.after m)

theorem after_of_ok {m m' : Machine} {a : α} (h : x m = .ok a m') : x.after m = m' := by
  rw [after, h]

theorem after_of_error {m m' : Machine} {h : Halt} (hx : x m = .error h m') :
    x.after m = m' := by
  rw [after, hx]

namespace Leads

theorem seq (hK : Passage K) (hx : Leads K x) (hf : ∀ a, Leads K (f a)) :
    Leads K (x >>= f) := by
  intro m
  have hm := hx m
  cases h : x m with
  | ok a m' =>
    rw [after_of_ok h] at hm
    have hb : (x >>= f).after m = (f a).after m' := by rw [after, after, bind_ok h]
    rw [hb]
    exact hK.trans hm (hf a m')
  | error e m' =>
    rw [after_of_error h] at hm
    rwa [after_of_error (bind_error h)]

/-- What comes after reading the machine may depend on it. -/
theorem reads {g : Machine → Step β} (hg : ∀ s, Leads K (g s)) : Leads K (get >>= g) := by
  intro m
  have h : (get >>= g).after m = (g m).after m := by rw [after, after, get_bind]
  rw [h]
  exact hg m m

theorem value (hK : Passage K) (a : α) : Leads K (pure a) := fun m => hK.refl m

theorem refused (hK : Passage K) (e : Fault) : Leads K (fail e : Step α) := fun m => hK.refl m

theorem lifts (hK : Passage K) (y : Except Fault α) : Leads K (lift y) := by
  cases y with
  | ok a => exact value hK a
  | error e => exact refused hK e

theorem selects (hK : Passage K) (y : Option α) : Leads K (select y) := by
  cases y with
  | some a => exact value hK a
  | none => exact refused hK _

theorem mono {K' : Machine → Machine → Prop} (h : Leads K x) (hK : ∀ m m', K m m' → K' m m') :
    Leads K' x := fun m => hK _ _ (h m)

end Leads

/-! ## Parts that change nothing -/

theorem leads_read (hK : Passage K) (address count : Int) : Leads K (read address count) :=
  .reads fun _ => .lifts hK _

theorem leads_frameAddress (hK : Passage K) (offset : Int) : Leads K (frameAddress offset) := by
  refine .reads fun m => ?_
  dsimp only
  split
  · exact .value hK _
  · exact .refused hK _

theorem leads_fetch (hK : Passage K) : Leads K fetch := by
  refine .reads fun _ => .seq hK (leads_read hK _ _) fun bytes => ?_
  cases Record.decode? bytes with
  | some r => exact .value hK r
  | none => exact .refused hK _

/-! ## Instructions on values -/

/-- A way to move on that pushing and popping keep to. -/
structure Stackwise (K : Machine → Machine → Prop) : Prop extends Passage K where
  push : ∀ data, Leads K (push data)
  pushValue : ∀ v n, Leads K (pushValue v n)
  pop : ∀ n, Leads K (pop n)

namespace Stackwise

theorem popInt (hK : Stackwise K) : Leads K popInt :=
  .seq hK.toPassage (hK.pop 4) fun _ => .value hK.toPassage _

theorem popValue (hK : Stackwise K) (type : ValueType) (n : Int) : Leads K (popValue type n) :=
  .seq hK.toPassage (hK.pop n) fun _ => .lifts hK.toPassage _

theorem cast (hK : Stackwise K) (r : Record) : Leads K (cast r) :=
  .seq hK.toPassage (.selects hK.toPassage _) fun _ => .seq hK.toPassage (hK.popValue _ _) fun _ =>
    .seq hK.toPassage (.selects hK.toPassage _) fun _ =>
      .seq hK.toPassage (.lifts hK.toPassage _) fun _ => hK.pushValue _ _

theorem binary (hK : Stackwise K) (op : Opcode) (r : Record) : Leads K (binary op r) :=
  .seq hK.toPassage (.selects hK.toPassage _) fun _ => .seq hK.toPassage (hK.popValue _ _) fun _ =>
    .seq hK.toPassage (hK.popValue _ _) fun _ =>
      .seq hK.toPassage (.lifts hK.toPassage _) fun _ => hK.pushValue _ _

theorem compare (hK : Stackwise K) (r : Record) : Leads K (compare r) :=
  .seq hK.toPassage (.selects hK.toPassage _) fun _ =>
    .seq hK.toPassage (.selects hK.toPassage _) fun _ =>
      .seq hK.toPassage (hK.popValue _ _) fun _ => .seq hK.toPassage (hK.popValue _ _) fun _ =>
        .seq hK.toPassage (.lifts hK.toPassage _) fun _ => hK.push _

theorem unary (hK : Stackwise K) (f : Value → Except Fault Value) (r : Record) :
    Leads K (unary f r) :=
  .seq hK.toPassage (.selects hK.toPassage _) fun _ => .seq hK.toPassage (hK.popValue _ _) fun _ =>
    .seq hK.toPassage (.lifts hK.toPassage _) fun _ => hK.pushValue _ _

theorem sign (hK : Stackwise K) (r : Record) : Leads K (sign r) :=
  .seq hK.toPassage (.selects hK.toPassage _) fun _ => .seq hK.toPassage (hK.popValue _ _) fun _ =>
    .seq hK.toPassage (.lifts hK.toPassage _) fun _ => hK.push _

end Stackwise

/-! ## Memory and stack -/

open Machine

/-- A write puts its bytes where they lie inside memory, and else changes nothing. -/
theorem after_write (address : Int) (data : List UInt8) (m : Machine) :
    (write address data).after m = m.stored address data ∧ 0 ≤ address ∧
        address + data.length ≤ m.memory.size ∨
      (write address data).after m = m := by
  by_cases h : m.memory.inside address data.length = true
  · obtain ⟨h₀, -, h₁⟩ := Memory.inside_iff.1 h
    exact .inl ⟨after_of_ok (write_ok h₀ h₁), h₀, h₁⟩
  · exact .inr (after_of_error (if_neg h))

theorem stays_write (address : Int) (data : List UInt8) : Leads Stays (write address data) := by
  intro m
  obtain ⟨h, -⟩ | h := after_write address data m <;> rw [h]
  · exact ⟨Memory.size_put .., rfl, fun hm => ⟨hm.low, by
      rw [stored, Memory.top_put]
      exact hm.high⟩⟩
  · exact Stays.passage.refl m

/-- A write above the data sets spares what lies below. -/
theorem spares_write {m : Machine} {address : Int} (h : m.limit ≤ address) (data : List UInt8) :
    m.Spares ((write address data).after m) where
  toStays := stays_write address data m
  below _ := by
    obtain ⟨ha, h₀, h₁⟩ | ha := after_write address data m <;> rw [ha]
    · exact (Memory.same_put h₀ h₁).mono fun x hx => .inl (lt_of_lt_of_le hx h)
    · exact .refl _ _

theorem spares_copy {m : Machine} {target : Int} (h : m.limit ≤ target) (source count : Int) :
    m.Spares ((copy source target count).after m) := by
  have hread := leads_read Spares.passage source count m
  cases hr : read source count m with
  | ok data m' =>
    have hb : (copy source target count).after m = (write target data).after m' := by
      rw [after, after, copy, bind_ok hr]
    rw [after_of_ok hr] at hread
    rw [hb]
    exact Spares.passage.trans hread (spares_write (hread.limit ▸ h) data)
  | error e m' =>
    rw [after_of_error hr] at hread
    rwa [copy, after_of_error (bind_error hr)]

theorem stays_copy (source target count : Int) : Leads Stays (copy source target count) :=
  .seq Stays.passage (leads_read Stays.passage source count)
    fun data => stays_write target data

/-- **Room is made above the data sets**, so whatever is written there spares what lies below. -/
theorem spares_reserve {n : Int} {g : Int → Step α}
    (hg : ∀ (m : Machine) (a : Int), m.limit ≤ a → m.Spares ((g a).after m)) : Leads Spares (reserve n >>= g) := by
  intro m
  by_cases h : 0 ≤ n ∧ m.limit ≤ m.sp - n
  · have hr := reserve_ok h.1 (m := m) h.2
    have hb : (reserve n >>= g).after m = (g (m.sp - n)).after { m with sp := m.sp - n } := by
      rw [after, after, bind_ok hr]
    have hsp : m.Spares { m with sp := m.sp - n } :=
      spares_sp fun hm => ⟨h.2, by have := hm.high; omega⟩
    rw [hb]
    exact Spares.passage.trans hsp (hg _ _ h.2)
  · have hr : reserve n m = .error (.fault .stackOverflow) m := if_neg h
    rw [after_of_error (bind_error hr)]
    exact Spares.passage.refl m

/-- Bytes are dropped if there are so many, and else nothing changes. -/
theorem after_release (n : Int) (m : Machine) :
    (release n).after m = m.popped n ∧ 0 ≤ n ∧ m.sp + n ≤ m.memory.top ∨
      (release n).after m = m := by
  by_cases hn : n < 0
  · have h : release n m = .error (.fault .stackOverflow) m := if_pos hn
    exact .inr (after_of_error h)
  · by_cases htop : m.sp + n ≤ m.memory.top
    · exact .inl ⟨after_of_ok (release_ok (by omega) htop), not_lt.1 hn, htop⟩
    · have h : release n m = .error (.fault .segmentationFault) m := by
        rw [release, if_neg hn, if_neg htop]
      exact .inr (after_of_error h)

/-- **Bytes are dropped up to the top of memory only.** -/
theorem spares_release (n : Int) : Leads Spares (release n) := by
  intro m
  obtain ⟨h, hn, htop⟩ | h := after_release n m <;> rw [h]
  · exact spares_sp fun hm => ⟨by have := hm.low; omega, htop⟩
  · exact Spares.passage.refl m

theorem spares_push (data : List UInt8) : Leads Spares (push data) :=
  spares_reserve fun _ _ h => spares_write h data

theorem spares_pushZeros (n : Int) : Leads Spares (pushZeros n) :=
  spares_reserve fun _ _ h => spares_write h _

theorem spares_pop (n : Int) : Leads Spares (pop n) :=
  .reads fun _ => .seq Spares.passage (leads_read Spares.passage _ _) fun _ =>
    .seq Spares.passage (spares_release n) fun _ => .value Spares.passage _

theorem spares_stackwise : Stackwise Spares where
  toPassage := Spares.passage
  push := spares_push
  pushValue _ _ := spares_reserve fun _ _ h => spares_write h _
  pop := spares_pop

/-- A change of registers but the stack pointer. -/
theorem spares_modify {g : Machine → Machine} (hmem : ∀ m, (g m).memory = m.memory)
    (hsp : ∀ m, (g m).sp = m.sp) (hlimit : ∀ m, (g m).limit = m.limit) :
    Leads Spares (modify g) :=
  fun m => spares_of_eq (hmem m) (hsp m) (hlimit m)

theorem spares_goto (address : Int) : Leads Spares (goto address) :=
  spares_modify (fun _ => rfl) (fun _ => rfl) fun _ => rfl

theorem spares_advance : Leads Spares advance :=
  spares_modify (fun _ => rfl) (fun _ => rfl) fun _ => rfl

theorem spares_stop : Leads Spares stop :=
  spares_modify (fun _ => rfl) (fun _ => rfl) fun _ => rfl

/-! ## Instructions -/

theorem spares_load (r : Record) : Leads Spares (load r) := by
  refine .seq Spares.passage (.selects Spares.passage _) fun storage => ?_
  cases storage with
  | global => exact spares_reserve fun _ _ h => spares_copy h _ _
  | frame =>
    refine .seq Spares.passage (leads_frameAddress Spares.passage _) fun source => ?_
    exact spares_reserve fun _ _ h => spares_copy h _ _
  | immediate =>
    dsimp only
    split
    · exact spares_push _
    · exact .refused Spares.passage _
  | framePointer =>
    exact .seq Spares.passage (leads_frameAddress Spares.passage _) fun _ => spares_push _
  | zero => exact spares_pushZeros _

/-- A `STORE` may write anywhere, but the stack stays in its bounds. -/
theorem stays_store (r : Record) : Leads Stays (store r) := by
  have weaken {α : Type} {x : Step α} (h : Leads Spares x) : Leads Stays x :=
    h.mono fun _ _ h => h.toStays
  have rest (target : Int) : Leads Stays (do
      copy (← get).sp target r.x0.toInt
      release r.x0.toInt) :=
    .reads fun _ => .seq Stays.passage (stays_copy _ _ _) fun _ => weaken (spares_release _)
  refine .seq Stays.passage (.selects Stays.passage _) fun storage => ?_
  cases storage with
  | global => exact rest _
  | frame => exact .seq Stays.passage (leads_frameAddress Stays.passage _) rest
  | _ => exact .seq Stays.passage (.refused Stays.passage _) rest

theorem spares_ret : Leads Spares ret := by
  refine .seq Spares.passage spares_stackwise.popInt fun _ =>
    .seq Spares.passage (spares_goto _) fun _ => .reads fun m => ?_
  split
  · exact spares_stop
  · exact .value Spares.passage _

theorem spares_enter (r : Record) : Leads Spares (enter r) :=
  .reads fun _ => .seq Spares.passage (spares_push _) fun _ =>
    .seq Spares.passage (spares_modify (fun _ => rfl) (fun _ => rfl) fun _ => rfl) fun _ =>
      spares_reserve fun m _ _ => Spares.passage.refl m

theorem spares_leave (r : Record) : Leads Spares (leave r) :=
  .seq Spares.passage (spares_release _) fun _ =>
    .seq Spares.passage spares_stackwise.popInt fun _ =>
      spares_modify (fun _ => rfl) (fun _ => rfl) fun _ => rfl

theorem spares_branch (r : Record) : Leads Spares (branch r) := by
  refine .seq Spares.passage (spares_pop 1) fun _ =>
    .seq Spares.passage (.selects Spares.passage _) fun _ => ?_
  split
  · exact spares_goto _
  · exact spares_advance

end Step

/-- Functions of a host that leave the size of memory alone. -/
def Natives.KeepSize (ns : Natives) : Prop :=
  ∀ name memory sp, (ns.call name memory sp).memory.size = memory.size

theorem Natives.keepSize_empty : empty.KeepSize := fun _ _ _ => rfl

theorem Natives.KeepSize.insert {ns : Natives} (h : ns.KeepSize) {f : Native}
    (hf : ∀ memory sp, (f memory sp).memory.size = memory.size) (name : String) :
    (ns.insert name f).KeepSize := by
  intro called memory sp
  have hns := h called memory sp
  unfold call find? at hns ⊢
  unfold Natives.insert
  rw [List.lookup_cons]
  cases called == name with
  | true => exact hf memory sp
  | false => exact hns

/-- A function that changes memory by writes only leaves its size alone. -/
theorem Native.size_ofUpdate {update : Memory → Int → Except Fault Memory}
    (h : ∀ {memory memory' sp}, update memory sp = .ok memory' → memory'.size = memory.size)
    (memory : Memory) (sp : Int) : (ofUpdate update memory sp).memory.size = memory.size := by
  unfold ofUpdate
  split
  next hok => exact h hok
  next => rfl

/-- The functions that every host has leave the size of memory alone. -/
theorem Natives.keepSize_standard (now : Int64) (draw : Nat) : (standard now draw).KeepSize := by
  refine (keepSize_empty.insert (Native.size_ofUpdate fun h => ?_) "ticks").insert
    (Native.size_ofUpdate fun h => ?_) "random"
  · obtain ⟨rfl, -⟩ := Memory.write_eq_ok h
    exact Memory.size_put ..
  · unfold Memory.readInt32 at h
    cases hread : Memory.read _ _ _ with
    | error f =>
      rw [hread] at h
      cases h
    | ok data =>
      rw [hread] at h
      obtain ⟨rfl, -⟩ := Memory.write_eq_ok h
      exact Memory.size_put ..

namespace Step

open Machine

variable {natives : Natives} {r : Record} {op : Opcode}

theorem stays_callNative (hn : natives.KeepSize) (name : String) :
    Leads Stays (callNative natives name) := by
  intro m
  have h : ((callNative natives name).after m).memory = (natives.call name m.memory m.sp).memory ∧
      ((callNative natives name).after m).sp = m.sp ∧
      ((callNative natives name).after m).limit = m.limit := by
    unfold after callNative
    dsimp only
    cases (natives.call name m.memory m.sp).halt <;> exact ⟨rfl, rfl, rfl⟩
  obtain ⟨hmem, hsp, hlimit⟩ := h
  have hsize : ((callNative natives name).after m).memory.size = m.memory.size := by
    rw [hmem, hn]
  refine ⟨hsize, hlimit, fun hb => ⟨?_, ?_⟩⟩
  · rw [hsp, hlimit]
    exact hb.low
  · rw [hsp, Memory.top_eq hsize]
    exact hb.high

/-- A call of a function with code pushes the return address and nothing else. -/
theorem spares_call (hr : CallKind.ofCode? r.p0 ≠ some .native) : Leads Spares (call natives r) := by
  refine .seq Spares.passage (.reads fun _ => .value Spares.passage _) fun _ =>
    .seq Spares.passage (spares_push _) fun _ => ?_
  intro m
  cases hk : CallKind.ofCode? r.p0 with
  | none => exact Spares.passage.refl m
  | some kind =>
    cases kind with
    | user => exact spares_goto _ m
    | native => exact absurd hk hr

theorem stays_call (hn : natives.KeepSize) : Leads Stays (call natives r) := by
  have weaken {α : Type} {x : Step α} (h : Leads Spares x) : Leads Stays x :=
    h.mono fun _ _ h => h.toStays
  refine .seq Stays.passage (.reads fun _ => .value Stays.passage _) fun _ =>
    .seq Stays.passage (weaken (spares_push _)) fun _ =>
      .seq Stays.passage (.selects Stays.passage _) fun kind => ?_
  cases kind with
  | user => exact weaken (spares_goto _)
  | native =>
    refine .reads fun _ => .seq Stays.passage (.lifts Stays.passage _) fun _ => ?_
    refine .seq Stays.passage (stays_callNative hn _) fun _ => ?_
    exact .seq Stays.passage (weaken spares_stackwise.popInt) fun _ => weaken (spares_goto _)

/-- **Only a `STORE` and the host write below the stack.** -/
theorem spares_execute (hop : op ≠ .STORE)
    (hcall : op = .CALL → CallKind.ofCode? r.p0 ≠ some .native) :
    Leads Spares (execute natives r op) := by
  have next {x : Step Unit} (h : Leads Spares x) : Leads Spares (do x; advance) :=
    .seq Spares.passage h fun _ => spares_advance
  cases op with
  | NOP => exact spares_advance
  | LOAD => exact next (spares_load r)
  | STORE => exact absurd rfl hop
  | CAST => exact next (spares_stackwise.cast r)
  | POP => exact .seq Spares.passage (spares_pop _) fun _ => spares_advance
  | DUP =>
    exact .reads fun _ => .seq Spares.passage (leads_read Spares.passage _ _) fun _ =>
      next (spares_push _)
  | CALL => exact spares_call (hcall rfl)
  | RET => exact spares_ret
  | ENTER => exact next (spares_enter r)
  | LEAVE => exact next (spares_leave r)
  | CMP => exact next (spares_stackwise.compare r)
  | SIGN => exact next (spares_stackwise.sign r)
  | NEG => exact next (spares_stackwise.unary _ r)
  | NOT => exact next (spares_stackwise.unary _ r)
  | IF => exact spares_branch r
  | JUMP => exact spares_goto _
  | END => exact spares_stop
  | _ => exact next (spares_stackwise.binary _ r)

theorem stays_execute (hn : natives.KeepSize) : Leads Stays (execute natives r op) := by
  by_cases hstore : op = .STORE
  · subst hstore
    exact .seq Stays.passage (stays_store r) fun _ => spares_advance.mono fun _ _ h => h.toStays
  by_cases hcall : op = .CALL
  · subst hcall
    exact stays_call hn
  · exact (spares_execute hstore fun h => absurd h hcall).mono fun _ _ h => h.toStays

theorem stays_step (hn : natives.KeepSize) : Leads Stays (step natives) :=
  .seq Stays.passage (leads_fetch Stays.passage) fun _ =>
    .seq Stays.passage (.selects Stays.passage _) fun _ => stays_execute hn

end Step

/-! ## Whole instructions -/

namespace Machine

variable {m m' : Machine} {natives : Natives}

/-- The record at the instruction pointer, if it lies inside memory. -/
def record? (m : Machine) : Option Record :=
  (m.memory.read m.ip recordSize).toOption.bind Record.decode?

/-- The instruction at the instruction pointer, if there is one. -/
def instruction? (m : Machine) : Option (Record × Opcode) :=
  m.record?.bind fun r => (Opcode.ofCode? r.opcode).map fun op => (r, op)

/-- Whether the next instruction may write below the stack: it is a `STORE`, or the call of a
function of the host. -/
def mayWrite (m : Machine) : Bool :=
  match m.instruction? with
  | some (_, .STORE) => true
  | some (r, .CALL) => CallKind.ofCode? r.p0 == some .native
  | _ => false

theorem fetch_of_record? {r : Record} (h : m.record? = some r) : Step.fetch m = .ok r m := by
  obtain ⟨bytes, hread, hr⟩ := Option.bind_eq_some_iff.1 h
  have hok : m.memory.read m.ip recordSize = .ok bytes := by
    cases he : m.memory.read m.ip recordSize with
    | ok _ => rw [he] at hread; cases hread; rfl
    | error _ => rw [he] at hread; cases hread
  have hbytes : Step.read m.ip recordSize m = .ok bytes m := by
    rw [Step.read, Step.get_bind, hok]
    rfl
  rw [Step.fetch, Step.get_bind, Step.bind_ok hbytes, hr]
  rfl

theorem fetch_of_none (h : m.record? = none) : ∃ f, Step.fetch m = .error (.fault f) m := by
  unfold record? at h
  rw [Step.fetch, Step.get_bind]
  cases hread : m.memory.read m.ip recordSize with
  | error f =>
    refine ⟨f, Step.bind_error ?_⟩
    rw [Step.read, Step.get_bind, hread]
    rfl
  | ok bytes =>
    rw [hread] at h
    have hbytes : Step.read m.ip recordSize m = .ok bytes m := by
      rw [Step.read, Step.get_bind, hread]
      rfl
    refine ⟨.segmentationFault, ?_⟩
    rw [Step.bind_ok hbytes, show Record.decode? bytes = none from h]
    rfl

/-- A step is what its instruction does. -/
theorem step_of_instruction? {r : Record} {op : Opcode} (natives : Natives)
    (h : m.instruction? = some (r, op)) : Step.step natives m = Step.execute natives r op m := by
  obtain ⟨r', hr, h⟩ := Option.bind_eq_some_iff.1 h
  obtain ⟨op', hop, heq⟩ := Option.map_eq_some_iff.1 h
  obtain ⟨rfl, rfl⟩ := Prod.mk.inj heq
  rw [Step.step, Step.bind_ok (fetch_of_record? hr), hop, Step.select_bind]

/-- Without an instruction a step changes nothing. -/
theorem step_of_none (natives : Natives) (h : m.instruction? = none) :
    ∃ f, Step.step natives m = .error (.fault f) m := by
  cases hr : m.record? with
  | none =>
    obtain ⟨f, hf⟩ := fetch_of_none hr
    exact ⟨f, Step.bind_error hf⟩
  | some r =>
    have hop : Opcode.ofCode? r.opcode = none := by simpa [instruction?, hr] using h
    refine ⟨.badInstruction, ?_⟩
    rw [Step.step, Step.bind_ok (fetch_of_record? hr), hop]
    rfl

theorem after_step (natives : Natives) (m : Machine) :
    (Step.step natives).after m = match m.instruction? with
      | some (r, op) => (Step.execute natives r op).after m
      | none => m := by
  cases hi : m.instruction? with
  | none =>
    obtain ⟨f, hf⟩ := step_of_none natives hi
    exact Step.after_of_error hf
  | some i =>
    unfold Step.after
    rw [step_of_instruction? natives hi]

/-- A step that ends the machine differs from one that does not in what is announced only. -/
theorem tick_eq (natives : Natives) (m : Machine) :
    ∃ event, m.tick natives = { (Step.step natives).after m with event } := by
  unfold tick EStateM.run Step.after
  cases h : Step.step natives m with
  | ok _ m' => exact ⟨m'.event, rfl⟩
  | error e m' => exact ⟨.halted e, rfl⟩

theorem spares_event (m : Machine) (event : Event) : m.Spares { m with event } :=
  spares_of_eq rfl rfl rfl

theorem stays_tick (hn : natives.KeepSize) (m : Machine) : m.Stays (m.tick natives) := by
  obtain ⟨event, h⟩ := tick_eq natives m
  rw [h]
  exact Stays.passage.trans (Step.stays_step hn m) (spares_event _ event).toStays

/-- **An instruction that is neither a `STORE` nor a call of the host spares what lies below the
stack.** -/
theorem spares_tick (natives : Natives) (h : m.mayWrite = false) : m.Spares (m.tick natives) := by
  obtain ⟨event, htick⟩ := tick_eq natives m
  rw [htick]
  refine Spares.passage.trans ?_ (spares_event _ event)
  rw [after_step]
  unfold mayWrite at h
  cases hi : m.instruction? with
  | none => exact Spares.passage.refl m
  | some i =>
    obtain ⟨r, op⟩ := i
    rw [hi] at h
    refine Step.spares_execute (fun hop => ?_) (fun hop hr => ?_) m
    · subst hop
      cases h
    · subst hop
      simp [hr] at h

/-! ## Runs and calls in any order -/

theorem stays_run (hn : natives.KeepSize) (quota : Nat) (m : Machine) :
    m.Stays (m.run natives quota) := by
  induction quota generalizing m with
  | zero => exact Stays.passage.refl m
  | succ quota ih =>
    unfold run
    split
    · exact Stays.passage.trans (stays_tick hn m) (ih _)
    · exact Stays.passage.refl m

/-- The call of a function from outside puts the stack back to the top, and then pushes. -/
theorem spares_invoke (entry : Entry) (arguments : List UInt8) :
    Step.Leads Spares (Step.invoke entry arguments) := by
  have rest : Step.Leads Spares (do
      modify fun m => { m with sp := m.memory.top, lp := m.memory.top, event := .running }
      Step.pushZeros entry.result
      Step.push arguments
      modify fun m => { m with entrySp := m.sp }
      Step.pushInt 0
      Step.goto entry.address) := by
    have top : Step.Leads Spares (modify fun m : Machine =>
        { m with sp := m.memory.top, lp := m.memory.top, event := .running }) := fun m =>
      Spares.passage.trans (spares_sp fun hm => ⟨hm.low.trans hm.high, le_rfl⟩)
        (spares_of_eq rfl rfl rfl)
    have entered : Step.Leads Spares (modify fun m : Machine => { m with entrySp := m.sp }) :=
      Step.spares_modify (fun _ => rfl) (fun _ => rfl) fun _ => rfl
    exact .seq Spares.passage top fun _ =>
      .seq Spares.passage (Step.spares_pushZeros _) fun _ =>
        .seq Spares.passage (Step.spares_push _) fun _ => .seq Spares.passage entered fun _ =>
          .seq Spares.passage (Step.spares_push _) fun _ => Step.spares_goto _
  unfold Step.invoke
  split
  · exact .seq Spares.passage (.refused Spares.passage _) fun _ => rest
  · exact rest

/-- What a host can do with a machine. -/
inductive Action where
  /-- Run it for a while; `natives` are the functions it finds. -/
  | run (natives : Natives) (quota : Nat)
  /-- Prepare the call of a function. -/
  | invoke (entry : Entry) (arguments : List UInt8)

/-- The machine after an action, whether the action has failed or not. -/
def act (m : Machine) : Action → Machine
  | .run natives quota => m.run natives quota
  | .invoke entry arguments => (Step.invoke entry arguments).after m

/-- The machine after some actions. -/
def actAll (m : Machine) (actions : List Action) : Machine := actions.foldl act m

/-- The functions that a host lets a machine find leave the size of memory alone. -/
def Action.KeepsSize : Action → Prop
  | .run natives _ => natives.KeepSize
  | .invoke .. => True

theorem stays_act {a : Action} (h : a.KeepsSize) (m : Machine) : m.Stays (m.act a) := by
  cases a with
  | run natives quota => exact stays_run h quota m
  | invoke entry arguments => exact (spares_invoke entry arguments m).toStays

theorem stays_actAll {actions : List Action} (h : ∀ a ∈ actions, a.KeepsSize) (m : Machine) :
    m.Stays (m.actAll actions) := by
  induction actions generalizing m with
  | nil => exact Stays.passage.refl m
  | cons a rest ih =>
    exact Stays.passage.trans (stays_act (h a (by simp)) m)
      (ih (fun b hb => h b (List.mem_cons_of_mem a hb)) (m.act a))

/-- A read comes to something exactly if what it asks for lies inside memory. -/
theorem read_isOk_iff (m : Machine) (address count : Int) :
    (∃ data, Step.read address count m = .ok data m) ↔
      0 ≤ address ∧ 0 ≤ count ∧ address + count ≤ m.memory.size := by
  rw [← Memory.inside_iff, Step.read, Step.get_bind, Memory.read]
  split
  next h => exact iff_of_true ⟨_, rfl⟩ h
  next h =>
    refine iff_of_false ?_ h
    rintro ⟨data, hdata⟩
    cases hdata

/-- A write goes through exactly if its place lies inside memory. -/
theorem write_isOk_iff (m : Machine) (address : Int) (data : List UInt8) :
    (∃ m', Step.write address data m = .ok () m') ↔
      0 ≤ address ∧ address + data.length ≤ m.memory.size := by
  constructor
  · rintro ⟨m', h⟩
    unfold Step.write at h
    split at h
    next hin =>
      obtain ⟨h₀, -, h₁⟩ := Memory.inside_iff.1 hin
      exact ⟨h₀, h₁⟩
    next => cases h
  · rintro ⟨h₀, h₁⟩
    exact ⟨_, Step.write_ok h₀ h₁⟩

theorem size_zeros (size : Nat) : (Memory.zeros size).size = size := Array.size_replicate ..

/-- The memory of a machine that has just got its module. -/
def loaded (image : Image) (size : Nat) : Memory :=
  ((Memory.zeros size).put 0 image.bytes).put image.dynamicBase image.data

/-- **A machine is started only if its module fits**: the bytes of the module, then its data sets,
then an empty stack. -/
theorem start_eq_ok {image : Image} {size : Nat} (h : start image size = .ok m) :
    m = { memory := loaded image size, ip := 0, sp := (Memory.zeros size).top,
          lp := (Memory.zeros size).top, entrySp := (Memory.zeros size).top,
          limit := image.dynamicBase + image.dataSize, event := .running, printed := #[] } ∧
      image.dynamicBase + image.dataSize ≤ (Memory.zeros size).top ∧
      image.data.length ≤ image.dataSize ∧ image.dynamicBase + image.data.length ≤ size := by
  unfold start at h
  dsimp only at h
  split at h
  · cases h
  next htop =>
    cases hmem : (Memory.zeros size).write 0 image.bytes with
    | error f =>
      rw [hmem] at h
      cases h
    | ok mem =>
      rw [hmem] at h
      obtain ⟨rfl, -, hbytes⟩ := Memory.write_eq_ok hmem
      by_cases hdata : image.dataSize < image.data.length
      · simp only [bind, Except.bind, if_pos hdata] at h
        cases h
      · simp only [bind, Except.bind, if_neg hdata] at h
        cases hmem' : ((Memory.zeros size).put 0 image.bytes).write image.dynamicBase
            image.data with
        | error f =>
          rw [hmem'] at h
          cases h
        | ok mem' =>
          rw [hmem'] at h
          obtain ⟨rfl, -, hfits⟩ := Memory.write_eq_ok hmem'
          rw [Memory.size_put, size_zeros] at hfits
          exact ⟨(Except.ok.inj h).symm, not_lt.1 htop, not_lt.1 hdata, by exact_mod_cast hfits⟩

/-- A machine is started with every module that fits. -/
theorem start_of_fits {image : Image} {size : Nat}
    (htop : image.dynamicBase + image.dataSize ≤ (Memory.zeros size).top)
    (hdata : image.data.length ≤ image.dataSize) :
    ∃ m, start image size = .ok m := by
  have hle := Memory.top_le_size (Memory.zeros size)
  rw [size_zeros] at hle
  have hbytes : (Memory.zeros size).write 0 image.bytes =
      .ok ((Memory.zeros size).put 0 image.bytes) :=
    if_pos (Memory.inside_iff.2 ⟨le_rfl, by omega, by
      unfold Image.dynamicBase at htop
      rw [size_zeros]
      omega⟩)
  have hsets : ((Memory.zeros size).put 0 image.bytes).write image.dynamicBase image.data =
      .ok (loaded image size) :=
    if_pos (Memory.inside_iff.2 ⟨by omega, by omega, by rw [Memory.size_put, size_zeros]; omega⟩)
  unfold start
  dsimp only
  rw [if_neg (not_lt.2 htop), hbytes]
  simp only [bind, Except.bind, pure, Except.pure, if_neg (not_lt.2 hdata), hsets]
  exact ⟨_, rfl⟩

theorem size_loaded (image : Image) (size : Nat) : (loaded image size).size = size := by
  rw [loaded, Memory.size_put, Memory.size_put, size_zeros]

theorem bounded_of_start {image : Image} {size : Nat} (h : start image size = .ok m) :
    m.memory.size = size ∧ m.limit = image.dynamicBase + image.dataSize ∧ 0 ≤ m.limit ∧
      m.Bounded := by
  obtain ⟨hm, hle, hdata, -⟩ := start_eq_ok h
  have hsize : m.memory.size = size := by rw [hm, size_loaded]
  have hlimit : m.limit = image.dynamicBase + image.dataSize := by rw [hm]
  have hsp : m.sp = (Memory.zeros size).top := by rw [hm]
  have htop : m.memory.top = (Memory.zeros size).top :=
    Memory.top_eq (by rw [hsize, size_zeros])
  refine ⟨hsize, hlimit, by omega, ?_, ?_⟩
  · rw [hlimit, hsp]
    exact hle
  · rw [hsp, htop]

/-- What is true of a machine at any time: its memory has kept its size, its stack lies between its
data sets and the end of memory, nothing outside memory is read or written, and the next
instruction leaves alone what lies below the stack unless it is a `STORE` or calls the host. -/
structure Confined (m : Machine) (n : Nat) (bound : Int) : Prop where
  size : m.memory.size = n
  limit : m.limit = bound
  nonneg : 0 ≤ bound
  low : bound ≤ m.sp
  high : m.sp ≤ n
  reads : ∀ address count : Int, (∃ data, Step.read address count m = .ok data m) ↔
    0 ≤ address ∧ 0 ≤ count ∧ address + count ≤ n
  writes : ∀ (address : Int) (data : List UInt8),
    (∃ m', Step.write address data m = .ok () m') ↔ 0 ≤ address ∧ address + data.length ≤ n
  spares : ∀ natives : Natives, m.mayWrite = false →
    m.memory.Same (· < bound) (m.tick natives).memory

end Machine

end ChannelBasic
