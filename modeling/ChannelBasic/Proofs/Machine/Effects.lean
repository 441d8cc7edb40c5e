import ChannelBasic.Proofs.Machine.Safety

/-!
# Proofs/Machine/Effects — the bytes that an instruction takes from the stack and puts there

A record says by itself how many bytes it takes from the stack (`Record.pops`) and how many it puts
there (`Record.pushes`), the instructions that open and close frames apart: a call leaves the stack
as it finds it, and so do these.  **A step moves the stack pointer by that much**
(`Machine.sp_of_step`).
-/

namespace ChannelBasic

open Code

/-- Instructions that open and close frames. -/
def Code.Opcode.isLink : Opcode → Bool
  | .CALL | .RET | .ENTER | .LEAVE => true
  | _ => false

namespace Code.Record

/-- The operation of a record. -/
def op? (r : Record) : Option Opcode := Opcode.ofCode? r.opcode

/-- Bytes that an instruction takes from the stack. -/
def pops (r : Record) : Nat :=
  match r.op? with
  | some .STORE | some .POP | some .DUP | some .CAST | some .SIGN | some .NEG | some .NOT =>
    r.x0.toInt.toNat
  | some .IF => 1
  | some .CMP => r.x0.toInt.toNat + r.x1.toInt.toNat
  | some op => if op.isBinary then r.x0.toInt.toNat + r.x1.toInt.toNat else 0
  | none => 0

/-- Bytes that an instruction puts on the stack. -/
def pushes (r : Record) : Nat :=
  match r.op? with
  | some .LOAD => if Storage.ofCode? r.p0 = some .framePointer then 4 else r.x0.toInt.toNat
  | some .DUP => r.x0.toInt.toNat + r.x0.toInt.toNat
  | some .CAST => r.x1.toInt.toNat
  | some .SIGN | some .CMP => 1
  | some .NEG | some .NOT => r.x0.toInt.toNat
  | some op => if op.isBinary then r.x2.toInt.toNat else 0
  | none => 0

variable {op : Opcode} {p0 p1 : UInt8} {x0 x1 x2 : Int32}

@[simp] theorem op?_of : (of op p0 p1 x0 x1 x2).op? = some op := Opcode.ofCode?_code op

theorem pops_of_isBinary (h : op.isBinary = true) :
    (of op p0 p1 x0 x1 x2).pops = x0.toInt.toNat + x1.toInt.toNat := by
  cases op <;> first | rfl | cases h

theorem pushes_of_isBinary (h : op.isBinary = true) :
    (of op p0 p1 x0 x1 x2).pushes = x2.toInt.toNat := by
  cases op <;> first | rfl | cases h

end Code.Record

namespace Step

variable {α β : Type} {x : Step α} {f : α → Step β} {j k : Int}

/-- A step that moves the stack pointer by `k`, unless it fails. -/
def Shifts (x : Step α) (k : Int) : Prop := ∀ m a m', x m = .ok a m' → m'.sp = m.sp + k

theorem Shifts.seq (hx : x.Shifts j) (hf : ∀ a, (f a).Shifts k) : (x >>= f).Shifts (j + k) := by
  intro m b m' h
  cases hxm : x m with
  | ok a m₁ =>
    have hrest : f a m₁ = .ok b m' := by rwa [bind_ok hxm] at h
    rw [hf a m₁ b m' hrest, hx m a m₁ hxm, add_assoc]
  | error e m₁ =>
    rw [bind_error hxm] at h
    cases h

/-- A part that moves nothing. -/
theorem Shifts.after (hx : x.Shifts 0) (hf : ∀ a, (f a).Shifts k) : (x >>= f).Shifts k := by
  rw [← zero_add k]
  exact hx.seq hf

/-- The rest moves nothing. -/
theorem Shifts.before (hx : x.Shifts k) (hf : ∀ a, (f a).Shifts 0) : (x >>= f).Shifts k := by
  rw [← add_zero k]
  exact hx.seq hf

theorem Shifts.reads {g : Machine → Step β} (hg : ∀ m, (g m).Shifts k) :
    ((get : Step Machine) >>= g).Shifts k := fun m a m' h => hg m m a m' (by rwa [get_bind] at h)

theorem shifts_pure (a : α) : Shifts (pure a) 0 := by
  intro m b m' h
  obtain ⟨-, rfl⟩ : a = b ∧ m = m' := by
    injection h with h₁ h₂
    exact ⟨h₁, h₂⟩
  exact (add_zero _).symm

theorem shifts_fail (e : Fault) : Shifts (fail e : Step α) k := fun _ _ _ h => by cases h

theorem shifts_lift (y : Except Fault α) : Shifts (lift y) 0 := by
  cases y with
  | ok a => exact shifts_pure a
  | error e => exact shifts_fail e

theorem shifts_read (address count : Int) : Shifts (read address count) 0 :=
  .reads fun _ => shifts_lift _

theorem shifts_modify {g : Machine → Machine} (h : ∀ m, (g m).sp = m.sp + k) :
    Shifts (modify g : Step PUnit) k := by
  intro m a m' hm
  obtain rfl : m' = g m := by
    injection hm with _ hm
    exact hm.symm
  exact h m

theorem shifts_write (address : Int) (data : List UInt8) : Shifts (write address data) 0 := by
  intro m a m' h
  unfold write at h
  split at h
  · injection h with _ h
    rw [← h, add_zero]
  · cases h

theorem shifts_copy (source target count : Int) : Shifts (copy source target count) 0 :=
  (shifts_read source count).after fun data => shifts_write target data

theorem shifts_reserve (n : Int) : Shifts (reserve n) (-(n.toNat : Int)) := by
  intro m a m' h
  unfold reserve at h
  split at h
  next hn =>
    injection h with _ h
    rw [← h, Int.toNat_of_nonneg hn.1]
    rfl
  next => cases h

theorem shifts_release (n : Int) : Shifts (release n) n.toNat := by
  intro m a m' h
  unfold release at h
  split at h
  · cases h
  next hn =>
    split at h
    · injection h with _ h
      rw [← h, Int.toNat_of_nonneg (not_lt.1 hn)]
    · cases h

theorem shifts_frameAddress (offset : Int) : Shifts (frameAddress offset) 0 := by
  refine .reads fun m => ?_
  dsimp only
  split
  · exact shifts_pure _
  · exact shifts_fail _

theorem shifts_push (data : List UInt8) : Shifts (push data) (-(data.length : Int)) :=
  (shifts_reserve _).before fun _ => shifts_write _ _

theorem shifts_pop (n : Int) : Shifts (pop n) n.toNat :=
  .reads fun _ => (shifts_read _ n).after fun _ => (shifts_release n).before fun _ => shifts_pure _

theorem shifts_popValue (type : ValueType) (n : Int) : Shifts (popValue type n) n.toNat :=
  (shifts_pop n).before fun _ => shifts_lift _

theorem shifts_pushValue (v : Value) (n : Int) : Shifts (pushValue v n) (-(n.toNat : Int)) :=
  (shifts_reserve n).before fun _ => shifts_write _ _

theorem shifts_goto (address : Int) : Shifts (goto address) 0 :=
  shifts_modify fun _ => (add_zero _).symm

theorem shifts_advance : Shifts advance 0 := shifts_modify fun _ => (add_zero _).symm

theorem shifts_stop : Shifts stop 0 := shifts_modify fun _ => (add_zero _).symm

theorem shifts_pushInt (n : Int) : Shifts (pushInt n) (-4) := by
  have h := shifts_push (Word.ofInt 4 n)
  rwa [Word.length_ofInt] at h

/-- A byte that has to mean something. -/
theorem Shifts.selects {y : Option α} (hf : ∀ a, y = some a → (f a).Shifts k) :
    (select y >>= f).Shifts k := by
  cases y with
  | none => exact fun _ _ _ h => by cases h
  | some a => exact fun m b m' h => hf a rfl m b m' (by rwa [select_bind] at h)

/-! ## Instructions -/

variable {r : Record} {op : Opcode}

theorem shifts_load (hop : r.op? = some .LOAD) : Shifts (load r) (-(r.pushes : Int)) := by
  unfold load
  refine .selects fun s hs => ?_
  have hpushes (h : s ≠ .framePointer) : r.pushes = r.x0.toInt.toNat := by
    rw [Record.pushes, hop]
    exact if_neg (by rw [hs]; simpa using h)
  cases s with
  | global =>
    rw [hpushes Storage.noConfusion]
    exact (shifts_reserve _).before fun sp => shifts_copy _ _ _
  | frame =>
    rw [hpushes Storage.noConfusion]
    exact (shifts_frameAddress _).after fun _ => (shifts_reserve _).before fun _ => shifts_copy _ _ _
  | immediate =>
    rw [hpushes Storage.noConfusion]
    dsimp only
    split
    next hn =>
      have hlen : (r.immediate.take r.x0.toInt.toNat).length = r.x0.toInt.toNat := by
        have h8 : r.immediate.length = 8 := by simp [Record.immediate, Word.ofInt32]
        rw [List.length_take, h8]
        omega
      have h := shifts_push (r.immediate.take r.x0.toInt.toNat)
      rwa [hlen] at h
    next => exact shifts_fail _
  | framePointer =>
    have h4 : r.pushes = 4 := by
      rw [Record.pushes, hop]
      exact if_pos hs
    rw [h4]
    exact (shifts_frameAddress _).after fun _ => shifts_pushInt _
  | zero =>
    rw [hpushes Storage.noConfusion]
    exact (shifts_reserve _).before fun _ => shifts_write _ _

theorem shifts_store : Shifts (store r) r.x0.toInt.toNat := by
  unfold store
  refine .selects fun s _ => ?_
  have hrest (target : Int) : Shifts (do copy (← get).sp target r.x0.toInt; release r.x0.toInt)
      r.x0.toInt.toNat :=
    .reads fun _ => (shifts_copy _ _ _).after fun _ => shifts_release _
  cases s with
  | global => exact (shifts_pure _).after hrest
  | frame => exact (shifts_frameAddress _).after hrest
  | immediate | framePointer | zero => exact fun _ _ _ h => by cases h

theorem shifts_cast : Shifts (cast r) (r.x0.toInt.toNat + -(r.x1.toInt.toNat : Int)) := by
  unfold cast
  exact .selects fun _ _ => (shifts_popValue _ _).seq fun _ => .selects fun _ _ =>
    (shifts_lift _).after fun _ => shifts_pushValue _ _

theorem shifts_binary : Shifts (binary op r)
    (r.x0.toInt.toNat + (r.x1.toInt.toNat + -(r.x2.toInt.toNat : Int))) := by
  unfold binary
  exact .selects fun _ _ => (shifts_popValue _ _).seq fun _ => (shifts_popValue _ _).seq fun _ =>
    (shifts_lift _).after fun _ => shifts_pushValue _ _

theorem shifts_compare : Shifts (compare r) (r.x0.toInt.toNat + (r.x1.toInt.toNat + -1)) := by
  unfold compare
  refine .selects fun _ _ => .selects fun _ _ => (shifts_popValue _ _).seq fun _ =>
    (shifts_popValue _ _).seq fun _ => (shifts_lift _).after fun result => ?_
  exact shifts_push [if result then 1 else 0]

theorem shifts_unary (g : Value → Except Fault Value) :
    Shifts (unary g r) (r.x0.toInt.toNat + -(r.x0.toInt.toNat : Int)) := by
  unfold unary
  exact .selects fun _ _ => (shifts_popValue _ _).seq fun _ => (shifts_lift _).after fun _ =>
    shifts_pushValue _ _

theorem shifts_sign : Shifts (sign r) (r.x0.toInt.toNat + -1) := by
  unfold sign
  refine .selects fun _ _ => (shifts_popValue _ _).seq fun _ => (shifts_lift _).after fun n => ?_
  have h := shifts_push (Word.ofInt 1 n)
  rwa [Word.length_ofInt] at h

theorem shifts_branch : Shifts (branch r) 1 := by
  unfold branch
  refine (shifts_pop 1).before fun data => .selects fun on _ => ?_
  split
  · exact shifts_goto _
  · exact shifts_advance

/-- What is pushed again is as long as what lies on top. -/
theorem shifts_dup (n : Int) :
    Shifts (do push (← read (← get).sp n); advance) (-(n.toNat : Int)) := by
  refine .reads fun m m₁ a m' h => ?_
  obtain ⟨data, m₂, hread, hpush⟩ : ∃ data m₂, read m.sp n m₁ = .ok data m₂ ∧
      (push data >>= fun _ => advance) m₂ = .ok a m' := by
    cases hx : read m.sp n m₁ with
    | ok data m₂ => exact ⟨data, m₂, rfl, by rwa [bind_ok hx] at h⟩
    | error e m₂ =>
      rw [bind_error hx] at h
      cases h
  have hlen : data.length = n.toNat := by
    unfold read at hread
    rw [get_bind] at hread
    cases hmem : m₁.memory.read m.sp n with
    | error e =>
      rw [hmem] at hread
      cases hread
    | ok bytes =>
      rw [hmem] at hread
      obtain rfl : bytes = data := by
        injection hread
      exact Memory.length_of_read hmem
  have hpushed := ((shifts_push data).before fun _ => shifts_advance) m₂ a m' hpush
  rw [hpushed, shifts_read m.sp n m₁ data m₂ hread, hlen, add_zero]

/-- **An instruction moves the stack pointer by what it takes and what it puts there.** -/
theorem shifts_execute (natives : Natives) (hop : r.op? = some op) (hlink : op.isLink = false) :
    Shifts (execute natives r op) (r.pops + -(r.pushes : Int)) := by
  have value {x : Step Unit} {k : Int} (h : x.Shifts k) (hk : k = r.pops + -(r.pushes : Int)) :
      Shifts (do x; advance) (r.pops + -(r.pushes : Int)) :=
    hk ▸ h.before fun _ => shifts_advance
  have alone {x : Step Unit} {k : Int} (h : x.Shifts k) (hk : k = r.pops + -(r.pushes : Int)) :
      x.Shifts (r.pops + -(r.pushes : Int)) := hk ▸ h
  cases op with
  | NOP =>
    exact alone shifts_advance (by simp [Record.pops, Record.pushes, hop, Opcode.isBinary])
  | END =>
    exact alone shifts_stop (by simp [Record.pops, Record.pushes, hop, Opcode.isBinary])
  | JUMP =>
    exact alone (shifts_goto _) (by simp [Record.pops, Record.pushes, hop, Opcode.isBinary])
  | IF =>
    exact alone shifts_branch (by simp [Record.pops, Record.pushes, hop, Opcode.isBinary])
  | LOAD => exact value (shifts_load hop) (by simp [Record.pops, hop, Opcode.isBinary])
  | STORE => exact value shifts_store (by simp [Record.pops, Record.pushes, hop, Opcode.isBinary])
  | CAST => exact value shifts_cast (by simp [Record.pops, Record.pushes, hop])
  | POP =>
    exact alone ((shifts_pop r.x0.toInt).before fun _ => shifts_advance)
      (by simp [Record.pops, Record.pushes, hop, Opcode.isBinary])
  | DUP => exact alone (shifts_dup r.x0.toInt) (by simp [Record.pops, Record.pushes, hop])
  | CMP =>
    exact value shifts_compare (by simp [Record.pops, Record.pushes, hop, add_assoc])
  | SIGN => exact value shifts_sign (by simp [Record.pops, Record.pushes, hop])
  | NEG => exact value (shifts_unary _) (by simp [Record.pops, Record.pushes, hop])
  | NOT => exact value (shifts_unary _) (by simp [Record.pops, Record.pushes, hop])
  | CALL | RET | ENTER | LEAVE => cases hlink
  | ADD | SUB | MUL | DIV | MOD | AND | OR | XOR | SHL | SHR =>
    exact value shifts_binary
      (by simp [Record.pops, Record.pushes, hop, Opcode.isBinary, add_assoc])

end Step

/-- **A step moves the stack pointer by what its instruction takes and puts there.** -/
theorem Machine.sp_of_step {m m' : Machine} {natives : Natives} {r : Record} {op : Opcode}
    (hr : m.record? = some r) (hop : r.op? = some op) (hlink : op.isLink = false)
    (h : Step.step natives m = .ok () m') : m'.sp + r.pushes = m.sp + r.pops := by
  have hexecute : Step.execute natives r op m = .ok () m' := by
    unfold Step.step at h
    rw [Step.bind_ok (fetch_of_record? hr)] at h
    rwa [show Opcode.ofCode? r.opcode = some op from hop] at h
  have hshift := Step.shifts_execute natives hop hlink m () m' hexecute
  omega

end ChannelBasic
