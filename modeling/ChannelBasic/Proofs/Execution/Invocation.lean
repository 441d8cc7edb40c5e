import ChannelBasic.Proofs.Execution.Loading

/-!
# Proofs/Execution/Invocation — calls from outside that are refused

A call is refused if its arguments have the wrong length, and then **nothing has changed**; or if
there is no room for its result, its arguments and a return address, and then the stack has been put
back to the top of memory, and **what the machine was doing is lost** (`Step.refused_of_invoke`).
The data sets, the code and the instruction pointer are what they were in both cases.
-/

namespace ChannelBasic

/-- A machine whose stack has been put back to the top of the memory of `m`, and that goes on where
`m` stands. -/
structure Machine.Reset (m m' : Machine) : Prop where
  ip : m'.ip = m.ip
  lp : m'.lp = m.memory.top
  running : m'.event = .running
  printed : m'.printed = m.printed

/-- A machine after a call from outside that it had no room for. -/
structure Machine.Refused (m m' : Machine) : Prop extends m.Reset m' where
  limit : m'.limit = m.limit
  bounded : m'.Bounded
  same : m.memory.Same (· < m.limit) m'.memory

theorem Machine.Reset.pushed {m m' : Machine} {data : List UInt8} (h : m.Reset m') :
    m.Reset (m'.pushed data) :=
  ⟨h.ip, h.lp, h.running, h.printed⟩

namespace Step

open Machine

variable {α β : Type} {m m' : Machine} {x : Step α} {f : α → Step β} {e : Halt}
  {data : List UInt8} {n : Int}

theorem bind_eq_error (h : (x >>= f) m = .error e m') :
    x m = .error e m' ∨ ∃ a m₁, x m = .ok a m₁ ∧ f a m₁ = .error e m' := by
  cases hx : x m with
  | ok a m₁ => exact .inr ⟨a, m₁, rfl, by rwa [bind_ok hx] at h⟩
  | error e₁ m₁ =>
    rw [bind_error hx] at h
    injection h with he hm
    exact .inl (by rw [he, hm])

theorem modify_ne_error {g : Machine → Machine} : (modify g : Step PUnit) m ≠ .error e m' := by
  intro h
  cases h

theorem reserve_eq_error (h : reserve n m = .error e m') : e = .fault .stackOverflow ∧ m' = m := by
  unfold reserve at h
  split at h
  · cases h
  · injection h with he hm
    exact ⟨he.symm, hm.symm⟩

/-- Bytes that are not pushed change nothing. -/
theorem push_eq_error (hm : m.Ready) (h : push data m = .error e m') :
    e = .fault .stackOverflow ∧ m' = m := by
  obtain h | ⟨a, m₁, hr, -⟩ := bind_eq_error h
  · exact reserve_eq_error h
  · rw [push_ok hm (reserve_eq_ok hr).2] at h
    cases h

theorem pushZeros_eq_error (hm : m.Ready) (h : pushZeros n m = .error e m') :
    e = .fault .stackOverflow ∧ m' = m := by
  obtain h | ⟨a, m₁, hr, -⟩ := bind_eq_error h
  · exact reserve_eq_error h
  · obtain ⟨hn, hroom⟩ := reserve_eq_ok hr
    rw [pushZeros, reserve_write hm (by simp [hn]) hroom] at h
    cases h

variable {entry : Entry} {arguments : List UInt8}

/-- A call goes as far as the stack has room. -/
theorem refused_of_room (hb : m.Bounded) (hlimit : 0 ≤ m.limit)
    (hlength : (arguments.length : Int) = entry.arguments)
    (h : invoke entry arguments m = .error e m') : e = .fault .stackOverflow ∧ m.Refused m' := by
  have hspares := spares_invoke entry arguments m
  rw [after_of_error h] at hspares
  suffices h' : e = .fault .stackOverflow ∧ m.Reset m' from
    ⟨h'.1, { h'.2 with
      limit := hspares.limit
      bounded := hspares.bounded hb
      same := hspares.below hb }⟩
  unfold invoke at h
  rw [if_neg (by simpa using hlength)] at h
  obtain h | ⟨_, m₁, h₁, h⟩ := bind_eq_error h
  · exact (modify_ne_error h).elim
  have e₁ := modify_eq_ok h₁
  have lp₁ : m₁.lp = m.memory.top := by rw [e₁]
  have sp₁ : m₁.sp = m.memory.top := by rw [e₁]
  have memory₁ : m₁.memory = m.memory := by rw [e₁]
  have reset₁ : m.Reset m₁ := ⟨by rw [e₁], lp₁, by rw [e₁], by rw [e₁]⟩
  have ready₁ : m₁.Ready := ⟨by rw [e₁], by rw [e₁]; exact hlimit, by rw [sp₁, memory₁]⟩
  obtain h | ⟨_, m₂, h₂, h⟩ := bind_eq_error h
  · obtain ⟨he, rfl⟩ := pushZeros_eq_error ready₁ h
    exact ⟨he, reset₁⟩
  obtain ⟨-, -, e₂⟩ := pushZeros_eq_ok ready₁ h₂
  have ready₂ : m₂.Ready := e₂ ▸ ready₁.pushed
  have reset₂ : m.Reset m₂ := e₂ ▸ reset₁.pushed
  obtain h | ⟨_, m₃, h₃, h⟩ := bind_eq_error h
  · obtain ⟨he, rfl⟩ := push_eq_error ready₂ h
    exact ⟨he, reset₂⟩
  obtain ⟨-, e₃⟩ := push_eq_ok ready₂ h₃
  have ready₃ : m₃.Ready := e₃ ▸ ready₂.pushed
  have reset₃ : m.Reset m₃ := e₃ ▸ reset₂.pushed
  obtain h | ⟨_, m₄, h₄, h⟩ := bind_eq_error h
  · exact (modify_ne_error h).elim
  have e₄ := modify_eq_ok h₄
  have ready₄ : m₄.Ready := by rw [e₄]; exact ⟨ready₃.running, ready₃.limit, ready₃.sp⟩
  have reset₄ : m.Reset m₄ := by
    rw [e₄]; exact ⟨reset₃.ip, reset₃.lp, reset₃.running, reset₃.printed⟩
  obtain h | ⟨_, m₅, -, h⟩ := bind_eq_error h
  · obtain ⟨he, rfl⟩ := push_eq_error ready₄ h
    exact ⟨he, reset₄⟩
  · exact (modify_ne_error h).elim

/-- **A call from outside is refused for the length of its arguments, which changes nothing, or for
want of room**, which the machine is told only after its stack has been emptied. -/
theorem refused_of_invoke (hb : m.Bounded) (hlimit : 0 ≤ m.limit)
    (h : (invoke entry arguments).run m = .error e m') :
    (arguments.length : Int) ≠ entry.arguments ∧ e = .fault .badInstruction ∧ m' = m ∨
      (arguments.length : Int) = entry.arguments ∧
        (entry.result < 0 ∨ m.memory.top < m.limit + entry.result + entry.arguments + 4) ∧
        e = .fault .stackOverflow ∧ m.Refused m' := by
  by_cases hlength : (arguments.length : Int) = entry.arguments
  · refine .inr ⟨hlength, ?_, refused_of_room hb hlimit hlength h⟩
    by_contra hroom
    obtain ⟨m₁, hm₁⟩ : ∃ m₁, (invoke entry arguments).run m = .ok () m₁ :=
      exists_invoke hlimit hlength (by omega) (by omega)
    cases h.symm.trans hm₁
  · refine .inl ⟨hlength, ?_⟩
    change invoke entry arguments m = .error e m' at h
    unfold invoke at h
    rw [if_pos (by simpa using hlength)] at h
    obtain h | ⟨_, _, h, -⟩ := bind_eq_error h
    · injection h with he hm
      exact ⟨he.symm, hm.symm⟩
    · cases h

end Step

end ChannelBasic
