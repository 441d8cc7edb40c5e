import ChannelBasic.Machine.Network
import ChannelBasic.Proofs.Machine.Safety

/-!
# Proofs/Machine/Faults — a fault is reported where it happened, and is final

An instruction may have moved the stack and written to memory by the time it fails, but **what can
fail comes before the instruction pointer moves** (`Step.Proceeds`): each instruction is a part that
leaves the pointer alone (`Machine.Remains`), and then a move that cannot fail.  So the pointer of a
machine that has faulted is the address of the record that failed, and since a machine that has
ended does nothing any more (`Machine.over_of_halted`), it stays so until the machine is called
again.
-/

namespace ChannelBasic

open Code

namespace Machine

/-- A machine that has done something without leaving its instruction. -/
structure Remains (m m' : Machine) : Prop where
  ip : m'.ip = m.ip
  event : m'.event = m.event
  entrySp : m'.entrySp = m.entrySp

theorem Remains.passage : Passage Remains where
  refl _ := ⟨rfl, rfl, rfl⟩
  trans h h' := ⟨h'.ip.trans h.ip, h'.event.trans h.event, h'.entrySp.trans h.entrySp⟩

end Machine

namespace Step

open Machine

variable {α β : Type} {x : Step α} {f : α → Step β} {natives : Natives} {r : Record} {op : Opcode}

/-! ## Parts that leave the instruction pointer alone -/

theorem remains_write (address : Int) (data : List UInt8) : Leads Remains (write address data) := by
  intro m
  obtain ⟨h, -⟩ | h := after_write address data m <;> rw [h]
  · exact ⟨rfl, rfl, rfl⟩
  · exact Remains.passage.refl m

theorem remains_copy (source target count : Int) : Leads Remains (copy source target count) :=
  .seq Remains.passage (leads_read Remains.passage _ _) fun _ => remains_write _ _

theorem remains_reserve (n : Int) : Leads Remains (reserve n) := by
  intro m
  by_cases h : 0 ≤ n ∧ m.limit ≤ m.sp - n
  · rw [after_of_ok (reserve_ok h.1 h.2)]
    exact ⟨rfl, rfl, rfl⟩
  · have hr : reserve n m = .error (.fault .stackOverflow) m := if_neg h
    rw [after_of_error hr]
    exact Remains.passage.refl m

theorem remains_release (n : Int) : Leads Remains (release n) := by
  intro m
  obtain ⟨h, -⟩ | h := after_release n m <;> rw [h]
  · exact ⟨rfl, rfl, rfl⟩
  · exact Remains.passage.refl m

theorem remains_push (data : List UInt8) : Leads Remains (push data) :=
  .seq Remains.passage (remains_reserve _) fun _ => remains_write _ _

theorem remains_pop (n : Int) : Leads Remains (pop n) :=
  .reads fun _ => .seq Remains.passage (leads_read Remains.passage _ _) fun _ =>
    .seq Remains.passage (remains_release n) fun _ => .value Remains.passage _

theorem remains_stackwise : Stackwise Remains where
  toPassage := Remains.passage
  push := remains_push
  pushValue _ _ := .seq Remains.passage (remains_reserve _) fun _ => remains_write _ _
  pop := remains_pop

/-- A function of the host may change memory and fail, but it has no access to the registers. -/
theorem remains_callNative (name : String) : Leads Remains (callNative natives name) := by
  intro m
  unfold after callNative
  dsimp only
  cases (natives.call name m.memory m.sp).halt <;> exact ⟨rfl, rfl, rfl⟩

theorem remains_load (r : Record) : Leads Remains (load r) := by
  refine .seq Remains.passage (.selects Remains.passage _) fun storage => ?_
  cases storage with
  | global => exact .seq Remains.passage (remains_reserve _) fun _ => remains_copy _ _ _
  | frame =>
    exact .seq Remains.passage (leads_frameAddress Remains.passage _) fun _ =>
      .seq Remains.passage (remains_reserve _) fun _ => remains_copy _ _ _
  | immediate =>
    dsimp only
    split
    · exact remains_push _
    · exact .refused Remains.passage _
  | framePointer =>
    exact .seq Remains.passage (leads_frameAddress Remains.passage _) fun _ => remains_push _
  | zero => exact .seq Remains.passage (remains_reserve _) fun _ => remains_write _ _

theorem remains_store (r : Record) : Leads Remains (store r) := by
  have rest (target : Int) : Leads Remains (do
      copy (← get).sp target r.x0.toInt
      release r.x0.toInt) :=
    .reads fun _ => .seq Remains.passage (remains_copy _ _ _) fun _ => remains_release _
  refine .seq Remains.passage (.selects Remains.passage _) fun storage => ?_
  cases storage with
  | global => exact rest _
  | frame => exact .seq Remains.passage (leads_frameAddress Remains.passage _) rest
  | _ => exact .seq Remains.passage (.refused Remains.passage _) rest

theorem remains_frame (lp : Machine → Int) :
    Leads Remains (modify fun m : Machine => { m with lp := lp m }) :=
  fun _ => ⟨rfl, rfl, rfl⟩

theorem remains_enter (r : Record) : Leads Remains (enter r) :=
  .reads fun _ => .seq Remains.passage (remains_push _) fun _ =>
    .seq Remains.passage (remains_frame _) fun _ =>
      .seq Remains.passage (remains_reserve _) fun _ => .value Remains.passage _

theorem remains_leave (r : Record) : Leads Remains (leave r) :=
  .seq Remains.passage (remains_release _) fun _ =>
    .seq Remains.passage remains_stackwise.popInt fun _ => remains_frame _

/-! ## Instructions -/

/-- A step that fails only where it stands, and does not end the machine by itself. -/
structure Proceeds (x : Step α) : Prop where
  fails : ∀ {m h m'}, x m = .error h m' → m'.ip = m.ip
  goes : ∀ {m a m'}, x m = .ok a m' → m'.event = m.event

theorem Leads.of_ok {K : Machine → Machine → Prop} {m m' : Machine} {a : α} (hx : Leads K x)
    (h : x m = .ok a m') : K m m' := after_of_ok h ▸ hx m

theorem Leads.of_error {K : Machine → Machine → Prop} {m m' : Machine} {h : Halt}
    (hx : Leads K x) (herror : x m = .error h m') : K m m' := after_of_error herror ▸ hx m

namespace Proceeds

theorem seq (hx : Leads Remains x) (hf : ∀ a, Proceeds (f a)) : Proceeds (x >>= f) := by
  constructor
  · intro m h m' hm
    cases hxm : x m with
    | ok a m₁ =>
      rw [bind_ok hxm] at hm
      rw [(hf a).fails hm, (hx.of_ok hxm).ip]
    | error e m₁ =>
      rw [bind_error hxm] at hm
      obtain ⟨rfl, rfl⟩ : e = h ∧ m₁ = m' := by
        injection hm with he hm
        exact ⟨he, hm⟩
      exact (hx.of_error hxm).ip
  · intro m b m' hm
    cases hxm : x m with
    | ok a m₁ =>
      rw [bind_ok hxm] at hm
      rw [(hf a).goes hm, (hx.of_ok hxm).event]
    | error e m₁ =>
      rw [bind_error hxm] at hm
      cases hm

/-- A move cannot fail. -/
theorem goto (address : Int) : Proceeds (goto address) where
  fails h := by cases h
  goes h := by cases h; rfl

theorem advance : Proceeds advance where
  fails h := by cases h
  goes h := by cases h; rfl

theorem branch (r : Record) : Proceeds (branch r) := by
  refine .seq (remains_pop 1) fun _ => .seq (.selects Remains.passage _) fun on => ?_
  split
  · exact .goto _
  · exact .advance

theorem call (natives : Natives) (r : Record) : Proceeds (call natives r) := by
  refine .seq (.reads fun _ => .value Remains.passage _) fun _ => .seq (remains_push _) fun _ =>
    .seq (.selects Remains.passage _) fun kind => ?_
  cases kind with
  | user => exact .goto _
  | native =>
    exact .seq Remains.passage.refl fun _ => .seq (.lifts Remains.passage _) fun _ =>
      .seq (remains_callNative _) fun _ => .seq remains_stackwise.popInt fun _ => .goto _

/-- **Whatever can fail in an instruction comes before the instruction pointer moves.** -/
theorem execute (natives : Natives) (r : Record) (hend : op ≠ .END) (hret : op ≠ .RET) :
    Proceeds (execute natives r op) := by
  have next {x : Step Unit} (h : Leads Remains x) : Proceeds (do x; Step.advance) :=
    .seq h fun _ => .advance
  cases op with
  | NOP => exact .advance
  | LOAD => exact next (remains_load r)
  | STORE => exact next (remains_store r)
  | CAST => exact next (remains_stackwise.cast r)
  | POP => exact .seq (remains_pop _) fun _ => .advance
  | DUP =>
    exact .seq Remains.passage.refl fun _ => .seq (leads_read Remains.passage _ _) fun _ =>
      next (remains_push _)
  | CALL => exact .call natives r
  | RET => exact absurd rfl hret
  | ENTER => exact next (remains_enter r)
  | LEAVE => exact next (remains_leave r)
  | CMP => exact next (remains_stackwise.compare r)
  | SIGN => exact next (remains_stackwise.sign r)
  | NEG => exact next (remains_stackwise.unary _ r)
  | NOT => exact next (remains_stackwise.unary _ r)
  | IF => exact .branch r
  | JUMP => exact .goto _
  | END => exact absurd rfl hend
  | _ => exact next (remains_stackwise.binary _ r)

end Proceeds

/-- A return goes where the stack says, and ends the machine if the stack is back where it was when
the function was called. -/
theorem ret_eq {m m₁ : Machine} {a : Int} (h : popInt m = .ok a m₁) :
    ret m = .ok () (if m₁.sp = m₁.entrySp then { m₁ with ip := a, event := .halted .stopped }
      else { m₁ with ip := a }) := by
  rw [ret, bind_ok h]
  change (if m₁.sp = m₁.entrySp then stop else pure () : Step Unit) { m₁ with ip := a } = _
  split <;> rfl

end Step

/-! ## Whole steps and runs -/

namespace Machine

variable {m m' : Machine} {natives : Natives} {h : Halt}

/-- The step from `m` to `m'` ends the machine without failing. -/
inductive EndsItself (m m' : Machine) : Prop
  | stop (r : Record) (h : m.instruction? = some (r, .END))
  /-- The stack is back where it was when the machine was called. -/
  | ret (r : Record) (h : m.instruction? = some (r, .RET)) (sp : m'.sp = m.entrySp)

/-- How a step comes out. -/
inductive Outcome (natives : Natives) (m : Machine) : Prop
  | fails (h : Halt) (m' : Machine) (step : Step.step natives m = .error h m') (ip : m'.ip = m.ip)
  | ends (m' : Machine) (step : Step.step natives m = .ok () m') (itself : m.EndsItself m')
    (event : m'.event = .halted .stopped)
  | goes (m' : Machine) (step : Step.step natives m = .ok () m') (itself : ¬ m.EndsItself m')
    (event : m'.event = m.event)

/-- **A step fails where it stands, ends the machine at an `END` or at the last `RET`, or leaves it
running.** -/
theorem outcome (natives : Natives) (m : Machine) : m.Outcome natives := by
  cases hi : m.instruction? with
  | none =>
    obtain ⟨f, hf⟩ := step_of_none natives hi
    exact .fails _ m hf rfl
  | some i =>
    obtain ⟨r, op⟩ := i
    have hstep := step_of_instruction? natives hi
    -- Another instruction at the same place is this one.
    have same {r' : Record} {op' : Opcode} (h : m.instruction? = some (r', op')) : op = op' :=
      congrArg Prod.snd (Option.some.inj (hi.symm.trans h))
    by_cases hend : op = .END
    · subst hend
      exact .ends _ hstep (.stop r hi) rfl
    by_cases hret : op = .RET
    · subst hret
      cases hpop : Step.popInt m with
      | error h m₁ =>
        exact .fails h m₁ (hstep.trans (Step.bind_error hpop))
          (Step.remains_stackwise.popInt.of_error hpop).ip
      | ok a m₁ =>
        have hremains := Step.remains_stackwise.popInt.of_ok hpop
        have hok := hstep.trans (Step.ret_eq hpop)
        by_cases hsp : m₁.sp = m₁.entrySp
        · rw [if_pos hsp] at hok
          exact .ends _ hok (.ret r hi (hsp.trans hremains.entrySp)) rfl
        · rw [if_neg hsp] at hok
          refine .goes _ hok ?_ hremains.event
          rintro (⟨_, h⟩ | ⟨_, -, hback⟩)
          · cases same h
          · exact hsp (hback.trans hremains.entrySp.symm)
    · have hproceeds := Step.Proceeds.execute natives r hend hret
      cases hx : Step.execute natives r op m with
      | error h m' => exact .fails h m' (hstep.trans hx) (hproceeds.fails hx)
      | ok _ m' =>
        refine .goes m' (hstep.trans hx) ?_ (hproceeds.goes hx)
        rintro (⟨_, h⟩ | ⟨_, h, -⟩)
        · exact hend (same h)
        · exact hret (same h)

/-- What a host does with a machine without calling it. -/
inductive Deed where
  /-- Runs it for a while. -/
  | run (natives : Natives) (quota : Nat)
  /-- Puts bytes into its memory, as wires do. -/
  | put (address : Nat) (bytes : List UInt8)
  /-- Takes what it has printed. -/
  | silence

/-- The machine after a deed. -/
def suffer (m : Machine) : Deed → Machine
  | .run natives quota => m.run natives quota
  | .put address bytes => m.stored address bytes
  | .silence => m.silent

/-- A machine that has ended and stays so: unless it is called, its registers and what is announced
of it stay what they are whatever its host does, and no run changes anything. -/
structure Over (m : Machine) (h : Halt) : Prop where
  event : m.event = .halted h
  registers : ∀ deeds : List Deed, ∃ memory printed,
    deeds.foldl suffer m = { m with memory, printed }
  run : ∀ (deeds : List Deed) natives quota,
    (deeds.foldl suffer m).run natives quota = deeds.foldl suffer m
  /-- The fault that is reported, and its place. -/
  fault : ∀ (deeds : List Deed) f name, h = .fault f →
    Node.fault? ⟨name, deeds.foldl suffer m⟩ = some (name, f, m.ip)

/-- A machine that has ended does nothing any more. -/
theorem run_of_event (hm : m.event = .halted h) (natives : Natives) (quota : Nat) :
    m.run natives quota = m := run_of_halted (by rw [hm]; exact Event.noConfusion) quota

/-- Whatever is done to a machine that has ended, its registers stay. -/
theorem exists_suffer (hm : m.event = .halted h) (d : Deed) :
    ∃ memory printed, m.suffer d = { m with memory, printed } := by
  cases d with
  | run natives quota => exact ⟨m.memory, m.printed, run_of_event hm natives quota⟩
  | put address bytes => exact ⟨m.memory.put address bytes, m.printed, rfl⟩
  | silence => exact ⟨m.memory, #[], rfl⟩

theorem exists_foldl_suffer (hm : m.event = .halted h) (deeds : List Deed) :
    ∃ memory printed, deeds.foldl suffer m = { m with memory, printed } := by
  induction deeds generalizing m with
  | nil => exact ⟨m.memory, m.printed, rfl⟩
  | cons d deeds ih =>
    obtain ⟨memory, printed, hd⟩ := exists_suffer hm d
    rw [List.foldl_cons, hd]
    exact ih hm

theorem over_of_halted (hm : m.event = .halted h) : m.Over h := by
  have event (deeds : List Deed) : (deeds.foldl suffer m).event = .halted h := by
    obtain ⟨memory, printed, hdeeds⟩ := exists_foldl_suffer hm deeds
    rw [hdeeds]
    exact hm
  refine ⟨hm, exists_foldl_suffer hm, fun deeds => run_of_event (event deeds),
    fun deeds f name hf => ?_⟩
  obtain ⟨memory, printed, hdeeds⟩ := exists_foldl_suffer hm deeds
  rw [Node.fault?, event deeds, hdeeds, hf]

/-- A machine that has ended in a run has done so with its last step. -/
theorem exists_of_run_halted {quota : Nat} (hm : m.event = .running)
    (hrun : (m.run natives quota).event = .halted h) : ∃ k < quota,
      (m.run natives k).event = .running ∧
        m.run natives quota = (m.run natives k).tick natives := by
  induction quota generalizing m with
  | zero =>
    rw [show m.run natives 0 = m from rfl, hm] at hrun
    cases hrun
  | succ quota ih =>
    rw [run_succ hm] at hrun ⊢
    cases hevent : (m.tick natives).event with
    | running =>
      obtain ⟨k, hk, hrunning, heq⟩ := ih hevent hrun
      exact ⟨k + 1, Nat.succ_lt_succ hk, by rw [run_succ hm, hrunning], by rw [run_succ hm, heq]⟩
    | halted h' => exact ⟨0, Nat.succ_pos _, hm, run_of_event hevent natives quota⟩

theorem tick_of_ok (hstep : Step.step natives m = .ok () m') : m.tick natives = m' := by
  simp only [tick, EStateM.run, hstep]

theorem tick_of_error (hstep : Step.step natives m = .error h m') :
    m.tick natives = { m' with event := .halted h } := by
  simp only [tick, EStateM.run, hstep]

/-- How the end of a machine is reported. -/
structure ReportsItsEnd (natives : Natives) (m : Machine) : Prop where
  /-- A step that fails ends the machine at its record, and for good. -/
  fails : ∀ h m', Step.step natives m = .error h m' →
    m.tick natives = { m' with event := .halted h } ∧ (m.tick natives).ip = m.ip ∧
      (m.tick natives).Over h
  /-- Any other step leaves it running, unless the machine ends itself. -/
  succeeds : ∀ m', Step.step natives m = .ok () m' → m.tick natives = m' ∧
    (m.EndsItself m' ∧ m'.event = .halted .stopped ∨ ¬ m.EndsItself m' ∧ m'.event = m.event)
  /-- So a machine that has ended in a run stands at the record that failed, or has ended itself. -/
  run : ∀ quota h, m.event = .running → (m.run natives quota).event = .halted h →
    (m.run natives quota).Over h ∧ ∃ k < quota, (m.run natives k).event = .running ∧
      ((∃ m', Step.step natives (m.run natives k) = .error h m') ∧
          (m.run natives quota).ip = (m.run natives k).ip ∨
        Step.step natives (m.run natives k) = .ok () (m.run natives quota) ∧ h = .stopped ∧
          (m.run natives k).EndsItself (m.run natives quota))

/-- **A fault is reported where it happened, and is final**, whatever the machine and the functions
of its host. -/
theorem reports_its_end (natives : Natives) (m : Machine) : m.ReportsItsEnd natives where
  fails h m' hstep := by
    have htick := tick_of_error hstep
    obtain ⟨_, _, hfails, hip⟩ | ⟨_, hok, -, -⟩ | ⟨_, hok, -, -⟩ := m.outcome natives
    · cases hstep.symm.trans hfails
      exact ⟨htick, by rw [htick, ← hip], over_of_halted (by rw [htick])⟩
    · cases hstep.symm.trans hok
    · cases hstep.symm.trans hok
  succeeds m' hstep := by
    refine ⟨tick_of_ok hstep, ?_⟩
    obtain ⟨_, _, hfails, -⟩ | ⟨_, hok, hends, hevent⟩ | ⟨_, hok, hends, hevent⟩ :=
      m.outcome natives
    · cases hstep.symm.trans hfails
    · cases hstep.symm.trans hok
      exact .inl ⟨hends, hevent⟩
    · cases hstep.symm.trans hok
      exact .inr ⟨hends, hevent⟩
  run quota h hm hrun := by
    obtain ⟨k, hk, hrunning, heq⟩ := exists_of_run_halted hm hrun
    refine ⟨over_of_halted hrun, k, hk, hrunning, ?_⟩
    rw [heq] at hrun ⊢
    obtain ⟨h', m', hstep, hip⟩ | ⟨m', hstep, hends, hevent⟩ | ⟨m', hstep, -, hevent⟩ :=
      (m.run natives k).outcome natives
    · rw [tick_of_error hstep] at hrun ⊢
      cases hrun
      exact .inl ⟨⟨m', hstep⟩, hip⟩
    · rw [tick_of_ok hstep] at hrun ⊢
      cases hevent.symm.trans hrun
      exact .inr ⟨hstep, rfl, hends⟩
    · rw [tick_of_ok hstep, hevent, hrunning] at hrun
      cases hrun

end Machine

end ChannelBasic
