import ChannelBasic.Proofs.Execution.Discipline
import ChannelBasic.Proofs.Execution.Verification

/-!
# Proofs/Execution/Soundness — compiled code does no harm

Whatever a program computes, a machine that runs one of its functions stands at an instruction of the
module at any time, and the module in its memory is what it was (`Machine.Disciplined`).  The
invariant behind it is `Machine.Stands`: some function runs with its frame in order, and **every
function that waits for another one will go on where it has stopped** (`Machine.Pending`).  One step
keeps it (`Stands.tick`), so every run does (`Stands.run`).
-/

namespace ChannelBasic

open Code

/-! ## What the functions of a module need -/

/-- Code of a function lies at an address, finds some bytes pushed, and ends by leaving. -/
def Setting.Reaches (S : Setting) (image : Image) (l : Link) (ip : Int) (depth : Nat) : Prop :=
  ∃ code e, image.Lies l ip code ∧ S.Balanced depth code e ∧ Emission.leave S.ctx <:+ code

/-- A frame of a function. -/
structure Activation.Of (a : Activation) (S : Setting) : Prop where
  locals : a.locals = S.ctx.body.frame.locals
  above : a.above = S.ctx.body.frame.arguments + S.result

/-- A module in memory with its functions, each given by its setting and the address of its first
instruction: labels stand in the code of the function that jumps there, and calls lead to
functions. -/
structure Image.Carries (image : Image) (l : Link) (F : Setting → Int → Prop) : Prop where
  within : ∀ S ip, F S ip → S.In image l
  entry : ∀ S ip, F S ip → ∃ code e,
    image.Lies l ip (.op (.enter (Word.size32 S.ctx.body.frame.locals)) :: code) ∧
      S.Balanced 0 code e ∧ Emission.leave S.ctx <:+ code
  target : ∀ S ip, F S ip → ∀ label, S.target label →
    ∃ address, l.Marks label address ∧ S.Reaches image l address 0
  callee : ∀ S ip, F S ip → ∀ number f size i, S.ctx.program.functions[number]? = some f →
    S.callable number → S.ctx.program.types.resultSize? f.returns = some size →
    S.state.Calls f number i → ∃ label S' address, i = .call .user (.label label) ∧
      l.Marks label address ∧ F S' address ∧ S'.ctx.body.frame.arguments + S'.result =
        size + S.ctx.program.types.bytes f.parameters

namespace Setting

variable {S : Setting} {image : Image} {l : Link} {a : Activation} {m : Machine} {ip : Int}
  {d e : Nat} {i : Instruction} {rest : List Piece} {natives : Natives}

/-- A function leaves by itself, not in the middle of its code. -/
theorem Does.opcode_ne (h : S.Does d i e) : i.opcode ≠ .LEAVE := by
  cases h with
  | load => rw [Place.opcode_load]; decide
  | store => rw [Place.opcode_store]; decide
  | pointer => rw [Place.opcode_pointer]; decide
  | text | address | immediate | zeros | pop | dup | cast | sign => exact Opcode.noConfusion
  | @unary _ _ _ op _ _ _ hi =>
    cases op with
    | plus => cases hi
    | minus | not =>
      cases hi
      exact Opcode.noConfusion
  | binary _ _ _ _ hi =>
    obtain ⟨c, -, rfl⟩ | ⟨-, code, n, hcode, -, rfl⟩ := hi
    · exact Opcode.noConfusion
    · rintro (rfl : code = .LEAVE)
      cases BinaryOp.isBinary_of_opcode? hcode
  | call _ _ _ hi _ => rw [hi.opcode]; decide

/-- **An instruction that finds what it needs goes on**, or ends the machine for want of stack or by
dividing by zero; a call is left to the function called. -/
theorem Does.proceeds (h : S.Does d i e) (hS : S.In image l) (ha : a.Proper image) (hframe : a.Of S)
    (hm : m.Runs image a ip d) (hcode : image.Lies l ip (.op i :: rest)) :
    m.Proceeds image a (ip + recordSize) e (m.tick natives) ∨
      e = d ∧ ∃ number f size, S.ctx.program.functions[number]? = some f ∧ S.callable number ∧
        S.ctx.program.types.resultSize? f.returns = some size ∧ S.state.Calls f number i ∧
          size + S.ctx.program.types.bytes f.parameters ≤ d := by
  have within {place : Place} {n : Nat} (h : S.Has place n) :
      place.Within a.locals a.above S.data n := by
    rw [hframe.locals, hframe.above]
    exact h
  cases h with
  | load h =>
    rw [hS.count]
    exact .inl (hm.load natives ha hS hcode (within h))
  | store h =>
    rw [hS.count] at hm
    have hstore := hm.store natives ha hS hcode (by omega) (within h)
    rw [Nat.add_sub_cancel] at hstore
    exact .inl (.on hstore)
  | pointer h =>
    rw [hS.count]
    exact .inl (hm.pointer natives ha hS hcode (within h))
  | text h =>
    rw [hS.count]
    exact .inl (hm.text natives ha hS h hcode)
  | address h =>
    rw [hS.count]
    exact .inl (hm.immediate natives ha hS hcode rfl (by decide))
  | immediate v h =>
    rw [hS.count]
    exact .inl (hm.immediate natives ha hS hcode (Word.toInt_size32 (by omega)) h)
  | zeros d n =>
    rw [hS.count]
    exact .inl (hm.zeros natives ha hS hcode)
  | pop d n =>
    rw [hS.count] at hm
    have hpop := hm.pop natives ha hS hcode (by omega)
    rw [Nat.add_sub_cancel] at hpop
    exact .inl (.on hpop)
  | dup d n =>
    rw [hS.count] at hm ⊢
    exact .inl (hm.dup natives ha hS hcode (by omega))
  | @cast d k n σ τ h hk hn =>
    rw [hS.count] at hm ⊢
    have hcast := hm.cast natives ha hS h hk (by omega) hcode
    rw [Nat.add_sub_cancel] at hcast
    exact .inl hcast
  | unary h hk hi =>
    rw [hS.count] at hm ⊢
    exact .inl (hm.unary natives ha hS h hk (by omega) hi hcode)
  | sign h hk =>
    rw [hS.count] at hm ⊢
    have hsign := hm.sign natives ha hS h hk (by omega) hcode
    rw [Nat.add_sub_cancel] at hsign
    rw [hS.count]
    exact .inl hsign
  | @binary d k k' n _ _ _ _ _ h hk hk' hn hi =>
    rw [hS.count, hS.count] at hm
    have hbinary := hm.binary natives ha hS h hk hk' hn (by omega) hi hcode
    rw [show d + k' + k - (k + k') = d by omega] at hbinary
    rw [hS.count]
    exact .inl hbinary
  | @call d number size f _ hf hc hsize hi hd =>
    rw [hS.count, hS.count] at hd
    exact .inr ⟨rfl, number, f, size, hf, hc, hsize, hi, hd⟩

/-- What comes next in the code of a function. -/
inductive Next (S : Setting) (image : Image) (l : Link) (ip : Int) : Nat → Prop
  | op {d e : Nat} {i : Instruction} {rest : List Piece} (h : S.Does d i e)
      (hcode : image.Lies l ip (.op i :: rest)) (hnext : S.Reaches image l (ip + recordSize) e) :
      Next S image l ip d
  | jump {label : Label} {rest : List Piece} (hlabel : S.target label)
      (hcode : image.Lies l ip (.op (.jump label) :: rest)) : Next S image l ip 0
  | branch {label : Label} {value : Bool} {rest : List Piece} (hlabel : S.target label)
      (hcode : image.Lies l ip (Emission.branchOn value label :: rest))
      (hnext : S.Reaches image l (ip + recordSize) 0) : Next S image l ip (S.count 1)
  | leave {rest : List Piece} (hcode : image.Lies l ip (Emission.leave S.ctx ++ rest)) :
      Next S image l ip 0

/-- Code that ends by leaving has something next. -/
theorem Reaches.next (h : S.Reaches image l ip d) : S.Next image l ip d := by
  obtain ⟨code, e, hcode, hbalanced, hends⟩ := h
  -- what is not the end of the code has the end still before it
  have later {p : Piece} {rest : List Piece} (hends : Emission.leave S.ctx <:+ p :: rest)
      (hp : p ≠ .op (.leave (Word.size32 S.ctx.body.frame.locals))) :
      Emission.leave S.ctx <:+ rest := by
    obtain heq | hends := List.suffix_cons_iff.1 hends
    · exact absurd (List.cons.inj heq).1.symm hp
    · exact hends
  induction hbalanced with
  | nil => cases List.suffix_nil.1 hends
  | mark _ ih => exact ih hcode.after_mark (later hends Piece.noConfusion)
  | op hi hrest _ =>
    refine .op hi hcode ⟨_, _, hcode.tail, hrest, later hends ?_⟩
    rintro ⟨⟩
    exact hi.opcode_ne rfl
  | jump hlabel _ _ => exact .jump hlabel hcode
  | branch hlabel hrest _ =>
    refine .branch hlabel hcode ⟨_, _, hcode.tail, hrest, later hends ?_⟩
    rintro ⟨⟩
  | leave _ _ => exact .leave hcode

theorem Next.exists_op (h : S.Next image l ip d) : ∃ i rest, image.Lies l ip (.op i :: rest) := by
  cases h with
  | op _ hcode _ | jump _ hcode | branch _ hcode _ | leave hcode => exact ⟨_, _, hcode⟩

end Setting

/-! ## Runs -/

namespace Machine

/-- What is true of a machine at any time while it runs a function of a module: it stands at an
instruction of the module's code, the module is in its memory, it faults only for want of stack or
by dividing by zero, and it stops with its stack pointer and its frame pointer where they belong: the
arguments and the result at the top of memory, and nothing else. -/
structure Disciplined (m : Machine) (image : Image) (entry : Entry) : Prop where
  aligned : m.ip % recordSize = 0
  nonneg : 0 ≤ m.ip
  inside : m.ip < image.codeSize
  holds : m.Holds image
  fault : ∀ f, m.event = .halted (.fault f) → f = .stackOverflow ∨ f = .divisionByZero
  stopped : m.event = .halted .stopped →
    m.sp = m.memory.top - entry.result - entry.arguments ∧ m.lp = m.memory.top

variable {natives : Natives} {image : Image} {l : Link} {F : Setting → Int → Prop} {entry : Entry}
  {m : Machine} {a : Activation} {ip : Int} {i : Instruction} {rest : List Piece}

/-- At an instruction of its code a machine is disciplined, unless it has stopped. -/
theorem disciplined_of_lies (hip : m.ip = ip) (hcode : image.Lies l ip (.op i :: rest))
    (hm : m.Holds image)
    (hevent : m.event = .running ∨ m.event = .halted (.fault .stackOverflow) ∨
      m.event = .halted (.fault .divisionByZero)) : m.Disciplined image entry := by
  have hinside := hcode.inside
  have hsize : recordSize = 16 := rfl
  rw [Piece.size_op] at hinside
  refine ⟨hip ▸ hcode.aligned, hip ▸ hcode.nonneg, by omega, hm, fun f hf => ?_, fun hs => ?_⟩
  · rw [hf] at hevent
    obtain h | h | h := hevent <;> cases h
    · exact .inl rfl
    · exact .inr rfl
  · rw [hs] at hevent
    obtain h | h | h := hevent <;> cases h

section

variable (image l F entry)

/-- A function that runs has somewhere to return to: outside, or a function that waits for it and
goes on where it has stopped. -/
inductive Pending : Activation → Prop
  | outermost {a : Activation} (hentry : a.lp + 8 = a.entrySp)
      (hsp : a.lp + 8 = a.memory.top - entry.result - entry.arguments)
      (hlp : a.caller = a.memory.top) (hback : a.back = 0) : Pending a
  | inner {a a' : Activation} {S : Setting} {start ip : Int} {depth : Nat} (hF : F S start)
      (hframe : a.Of S) (ha : a.Proper image) (hcode : S.Reaches image l ip depth)
      (back : ∀ (m : Machine) (ip' : Int), a'.Proper image → m.Runs image a' ip' 0 →
        m.ended a' = m.returned a' ∧ (m.returned a').Runs image a ip depth)
      (h : Pending a) : Pending a'

/-- Where a machine stands that runs the functions of a module. -/
inductive Stands : Machine → Prop
  | runs {m : Machine} {a : Activation} {S : Setting} {start ip : Int} {depth : Nat}
      (hF : F S start) (hframe : a.Of S) (ha : a.Proper image)
      (hcode : S.Reaches image l ip depth) (h : m.Runs image a ip depth)
      (hp : Pending image l F entry a) : Stands m
  | leaves {m : Machine} {a : Activation} {S : Setting} {start ip ip' : Int} {rest : List Piece}
      (hF : F S start) (ha : a.Proper image) (hcode : image.Lies l ip' (.op .ret :: rest))
      (h : m.Runs image a ip 0) (hp : Pending image l F entry a) : Stands (m.closed a ip')
  | called {m : Machine} {S : Setting} {ip back : Int} (hF : F S ip)
      (h : m.Called image ip back (S.ctx.body.frame.arguments + S.result))
      (hp : Pending image l F entry (m.opened S.ctx.body.frame.locals
        (S.ctx.body.frame.arguments + S.result) back)) : Stands m
  | halted {m : Machine} (hevent : m.event ≠ .running) (h : m.Disciplined image entry) : Stands m

end

namespace Stands

/-- A machine that stands anywhere is disciplined. -/
theorem disciplined (hI : image.Carries l F) (h : Stands image l F entry m) :
    m.Disciplined image entry := by
  cases h with
  | runs hF hframe ha hcode h hp =>
    obtain ⟨i, rest, hcode⟩ := hcode.next.exists_op
    exact disciplined_of_lies h.ip hcode (h.holds ha (hI.within _ _ hF)) (.inl h.running)
  | leaves hF ha hcode h hp =>
    have hholds := h.holds ha (hI.within _ _ hF)
    exact disciplined_of_lies rfl hcode ⟨hholds.bytes, hholds.limit, hholds.le_top⟩ (.inl h.running)
  | called hF h hp =>
    obtain ⟨code, e, hcode, -, -⟩ := hI.entry _ _ hF
    exact disciplined_of_lies h.ip hcode h.holds (.inl h.running)
  | halted _ h => exact h

/-- An instruction that goes on, or ends the machine as it may. -/
theorem of_proceeds {S : Setting} {start ip' : Int} {depth depth' : Nat} {m' : Machine}
    (hF : F S start) (hframe : a.Of S) (ha : a.Proper image) (hp : Pending image l F entry a)
    (hS : S.In image l) (hm : m.Runs image a ip depth) (hcode : image.Lies l ip (.op i :: rest))
    (hnext : S.Reaches image l ip' depth') (h : m.Proceeds image a ip' depth' m') :
    Stands image l F entry m' := by
  cases h with
  | on h => exact .runs hF hframe ha hnext h hp
  | halts k hf =>
    have hholds := hm.holds ha hS
    refine .halted (by simp [faulted]) (disciplined_of_lies hm.ip hcode
      ⟨hholds.bytes, hholds.limit, hholds.le_top⟩ (.inr ?_))
    obtain rfl | rfl := hf
    · exact .inl rfl
    · exact .inr rfl

/-- **A step keeps everything in order.** -/
theorem tick (hI : image.Carries l F) (h : Stands image l F entry m) (hm : m.event = .running) :
    Stands image l F entry (m.tick natives) := by
  cases h with
  | @runs _ a S start ip depth hF hframe ha hreaches h hp =>
    have hS := hI.within S start hF
    cases hreaches.next with
    | op hi hcode hnext =>
      obtain hproceeds | ⟨rfl, number, f, size, hf, hc, hsize, hcalls, hd⟩ :=
        hi.proceeds hS ha hframe h hcode
      · exact of_proceeds hF hframe ha hp hS h hcode hnext hproceeds
      · obtain ⟨label, S', address, rfl, hmark, hF', habove⟩ :=
          hI.callee S start hF number f size _ hf hc hsize hcalls
        rw [← habove] at hd
        obtain ⟨hroom, htick, hcalled⟩ | htick := h.call natives ha hS hcode hmark hd
        · refine .called hF' hcalled (.inner hF hframe ha hnext (fun m₂ ip₂ hopened h₂ => ?_) hp)
          exact h.resume ha hS hroom hd htick hcalled hopened h₂
        · refine of_proceeds hF hframe ha hp hS h hcode hnext ?_
          rw [htick]
          exact m.proceeds_faulted ..
    | jump hlabel hcode =>
      obtain ⟨address, hmark, hnext⟩ := hI.target S start hF _ hlabel
      exact .runs hF hframe ha hnext (h.jump natives ha hS hcode hmark) hp
    | branch hlabel hcode hnext =>
      obtain ⟨address, hmark, haway⟩ := hI.target S start hF _ hlabel
      rw [hS.count] at h
      obtain h | h := h.branch natives ha hS hcode le_rfl hmark
      · exact .runs hF hframe ha haway h hp
      · exact .runs hF hframe ha hnext h hp
    | leave hcode =>
      rw [Emission.leave, ← hframe.locals] at hcode
      rw [h.tick_leave natives ha hS hcode]
      exact .leaves hF ha hcode.tail h hp
  | @leaves m a S start ip ip' _ hF ha hcode h hp =>
    rw [h.tick_ret natives ha hcode]
    cases hp with
    | outermost hentry hsp hlp hback =>
      have hended : m.ended a = { m.returned a with event := .halted .stopped } := if_pos hentry
      have hholds := h.holds ha (hI.within _ _ hF)
      have hinside := hcode.inside
      have hnonneg := hcode.nonneg
      rw [Piece.size_op] at hinside
      rw [hended]
      refine .halted (by simp) ⟨?_, ?_, ?_, ⟨hholds.bytes, hholds.limit, hholds.le_top⟩, ?_, ?_⟩
      · simp [returned, hback]
      · simp [returned, hback]
      · dsimp only [returned, recordSize] at hinside ⊢
        omega
      · rintro f ⟨⟩
      · intro _
        dsimp only [returned]
        rw [h.top_eq]
        exact ⟨hsp, hlp⟩
    | inner hF' hframe' ha' hnext hback hp =>
      obtain ⟨hended, hrun⟩ := hback m ip ha h
      rw [hended]
      exact .runs hF' hframe' ha' hnext hrun hp
  | called hF h hp =>
    have hS := hI.within _ _ hF
    obtain ⟨code, e, hcode, hbalanced, hends⟩ := hI.entry _ _ hF
    obtain ⟨ha, hrun⟩ | ⟨m', htick, hip, hholds⟩ := h.enter natives hS hcode
    · exact .runs hF ⟨rfl, rfl⟩ ha ⟨code, e, hcode.tail, hbalanced, hends⟩ hrun hp
    · rw [htick]
      exact .halted (by simp [faulted]) (disciplined_of_lies hip hcode
        ⟨hholds.bytes, hholds.limit, hholds.le_top⟩ (.inr (.inl rfl)))
  | halted hevent _ => exact absurd hm hevent

/-- **A run keeps everything in order.** -/
theorem run (hI : image.Carries l F) (h : Stands image l F entry m) (n : Nat) :
    Stands image l F entry (m.run natives n) := by
  induction n generalizing m with
  | zero => exact h
  | succ n ih =>
    by_cases hm : m.event = .running
    · rw [run_succ hm]
      exact ih (h.tick hI hm)
    · rw [run_of_halted hm]
      exact h

end Stands

end Machine

/-! ## Modules -/

/-- The functions of a module: what their code can refer to, and where it starts. -/
def Assembly.Contains (a : Assembly) (p : Program) (m : Module) (z : EmissionState) (S : Setting)
    (ip : Int) : Prop :=
  ∃ u ∈ a.units, ∃ f body code, u.For p m z f body code ∧
    S = u.setting p m z f body (· ∈ Piece.marks code) id ∧ ip = (a.entry u).address

/-- No function that a module can come to run calls one of the host's. -/
def Module.CallsNoNative (m : Module) (p : Program) : Prop :=
  ∀ n f k g, p.Reaches m n → p.functions[n]? = some f → .call (some k) ∈ f.mentions →
    p.functions[k]? = some g → g.isUser = true

theorem counts_id (p : Program) : Counts p id where
  zero := rfl
  sum _ _ := rfl

namespace Module

variable {raw : Raw.Program} {p : Program} {m : Module} {a : Assembly} {image : Image}
  {start : List Piece} {z : EmissionState} {u : Emission.Done}

/-- The code of a function lies where its label stands. -/
theorem Built.lies (hbuilt : m.Built p a image start z) (hlt : image.dynamicBase < 2 ^ 31)
    (hu : u ∈ a.units) : image.Lies a.link (a.entry u).address u.code ∧
      a.link.Marks u.label (a.entry u).address := by
  have hall : image.Lies a.link 0 (start ++ a.units.flatMap (·.code)) :=
    ⟨rfl, le_rfl, by rw [hbuilt.codeSize]; omega, fun mem hmem => hbuilt.laid mem hmem hlt⟩
  obtain ⟨before, after, hunits⟩ := List.append_of_mem hu
  obtain ⟨f, body, code, hfor⟩ := hbuilt.code.code u hu
  rw [hunits, List.flatMap_append, List.flatMap_cons, ← List.append_assoc] at hall
  have hlies := hall.right.left
  have hmarks := hlies
  rw [hfor.pieces] at hmarks
  have hmark := hmarks.marks image.has_bytes
  obtain ⟨x, hx, haddress⟩ := hmark
  have hentry : (a.entry u).address = 0 + Piece.size (start ++ before.flatMap (·.code)) := by
    have hx : a.labels.address? u.label = some x := hx
    rw [Assembly.entry, hx, Option.getD_some]
    exact haddress
  rw [hentry]
  exact ⟨hlies, x, hx, haddress⟩

/-- Places, texts and labels of a function are those of its module in memory. -/
theorem Built.within (hbuilt : m.Built p a image start z) (hlt : image.dynamicBase < 2 ^ 31)
    (u : Emission.Done) (f : Function) (body : UserBody) (target : Label → Prop) :
    (u.setting p m z f body target id).In image a.link :=
  ⟨⟨hbuilt.codeSize_le, hbuilt.dynamicBase hlt, fun mem hmem => hbuilt.texts mem hmem hlt⟩,
    hbuilt.dataSize, fun _ => rfl⟩

/-- **A module in memory has what its functions need**, unless they call functions of the host. -/
theorem Built.carries (hbuilt : m.Built p a image start z) (h : p.Complete) (hm : m ∈ p.modules)
    (hnative : m.CallsNoNative p) (hlt : image.dynamicBase < 2 ^ 31) :
    image.Carries a.link (a.Contains p m z) where
  within := by
    rintro _ _ ⟨u, hu, f, body, code, hfor, rfl, rfl⟩
    exact hbuilt.within hlt u f body _
  entry := by
    rintro _ _ ⟨u, hu, f, body, code, hfor, rfl, rfl⟩
    obtain ⟨inner, rfl, hbalanced⟩ := hfor.balanced h hm (counts_id p) fun _ hl => hl
    have hlies := (hbuilt.lies hlt hu).1
    rw [hfor.pieces] at hlies
    exact ⟨_, 0, hlies.after_mark, hbalanced, List.suffix_append _ _⟩
  target := by
    rintro _ _ ⟨u, hu, f, body, code, hfor, rfl, rfl⟩ label hlabel
    obtain ⟨inner, hpieces, hbalanced⟩ := hfor.balanced h hm (counts_id p) fun _ hl => hl
    have hlies := (hbuilt.lies hlt hu).1
    rw [hfor.pieces, hpieces] at hlies
    have hlies := hlies.after_mark.tail
    have hlabel : label ∈ Piece.marks (inner ++ Emission.leave ⟨p, f, body, m.fields⟩) := by
      have hlabel : label ∈ Piece.marks code := hlabel
      rwa [hpieces] at hlabel
    obtain ⟨before, after, hcode⟩ := Piece.exists_of_mem_marks hlabel
    have hends : Emission.leave ⟨p, f, body, m.fields⟩ <:+ before ++ .mark label :: after :=
      hcode ▸ List.suffix_append _ _
    rw [hcode] at hlies hbalanced
    refine ⟨_, hlies.right.marks image.has_bytes, after, 0, hlies.right.after_mark,
      hbalanced.after_mark, ?_⟩
    -- no label stands in the end of the code
    obtain hends | hbegins := List.suffix_or_suffix_of_suffix hends (List.suffix_append before _)
    · obtain heq | hends := List.suffix_cons_iff.1 hends
      · cases heq
      · exact hends
    · have hmem := hbegins.subset List.mem_cons_self
      simp [Emission.leave] at hmem
  callee := by
    rintro _ _ ⟨u, hu, f, body, code, hfor, rfl, rfl⟩ number g size i hg hmention hsize hcalls
    have huser := hnative u.number f number g hfor.callable.1 hfor.function hmention hg
    obtain ⟨label, hlabel, rfl⟩ : ∃ label, (number, label) ∈ z.entries ∧
        i = .call .user (.label label) := by
      have hcalls : z.Calls g number i := hcalls
      unfold EmissionState.Calls at hcalls
      split at hcalls
      next hbody => simp [Function.isUser, Function.user?, hbody] at huser
      next => exact hcalls
    obtain ⟨v, hv, heq⟩ := List.mem_map.1 (hbuilt.code.entries.mem_iff.2 hlabel)
    obtain ⟨rfl, rfl⟩ := Prod.mk.inj heq
    obtain ⟨g', body', code', hfor'⟩ := hbuilt.code.code v hv
    have hg : p.functions[v.number]? = some g := hg
    have hsize : p.types.resultSize? g.returns = some size := hsize
    obtain rfl := Option.some.inj (hg.symm.trans hfor'.function)
    obtain rfl := Option.some.inj (hsize.symm.trans hfor'.result)
    refine ⟨v.label, _, _, rfl, (hbuilt.lies hlt hv).2, ⟨v, hv, g, body', code', hfor', rfl, rfl⟩, ?_⟩
    have hframe := (h.analysed.laidOut.functions v.number g hg body' hfor'.user).size
    dsimp only [Emission.Done.setting]
    rw [hframe, Function.parameters_of_user? hfor'.user, Nat.add_comm]

/-- A call from outside opens the outermost frame. -/
theorem stands_of_invoked {machine machine' : Machine} {F : Setting → Int → Prop} {l : Link}
    {S : Setting} {entry : Entry} {arguments : List UInt8} (hholds : machine.Holds image)
    (h : machine.Invoked machine' entry arguments) (hF : F S entry.address) (hdata : 0 ≤ image.dataSize)
    (harguments : entry.arguments = S.ctx.body.frame.arguments) (hresult : entry.result = S.result) :
    Machine.Stands image l F entry machine' := by
  have habove : entry.arguments + entry.result =
      (S.ctx.body.frame.arguments + S.result : Nat) := by
    rw [harguments, hresult]
    rfl
  have hopened : (machine'.opened S.ctx.body.frame.locals
      (S.ctx.body.frame.arguments + S.result) 0).memory.top = machine.memory.top :=
    (Memory.top_put ..).trans h.same.top
  refine .called hF (h.called hholds hdata habove) (.outermost ?_ ?_ ?_ rfl)
  · rw [show (machine'.opened S.ctx.body.frame.locals _ 0).entrySp = machine'.sp + 4 from h.entrySp]
    dsimp only [Machine.opened]
    ring
  · rw [hopened]
    dsimp only [Machine.opened]
    rw [h.sp]
    ring
  · rw [hopened]
    exact h.lp

end Module

/-- Whether a machine of 560 bytes can be started with a module and called. -/
def Assembly.isCallable (a : Assembly) (image : Image) (name : String) (arguments : List UInt8) :
    Bool :=
  match Machine.start image 560 with
  | .error _ => false
  | .ok machine => a.units.any fun u => u.name == name &&
      match (Step.invoke (a.entry u) arguments).run machine with
      | .ok _ _ => true
      | .error _ _ => false

end ChannelBasic
