import Mathlib.Algebra.Order.BigOperators.Group.List
import ChannelBasic.Proofs.Execution.Balance
import ChannelBasic.Proofs.Execution.Calls
import ChannelBasic.Proofs.Execution.Expressions
import ChannelBasic.Proofs.Execution.Loading
import ChannelBasic.Proofs.Machine.Effects

/-!
# Proofs/Execution/Verification — code that a verifier lets pass

The code of a module is looked at as it lies in the image, record by record.  Functions lie one after
the other behind the first instructions.  Each is a `Stretch` of records; jumps stay inside it, calls go
to the first record of a function, and there is a number of pushed bytes for each record that fits
what the records take and push wherever control goes (`Image.Balances`).  **The image of every module
is like this** (`Module.verified_image`).
-/

namespace ChannelBasic

open Code Code.Link

/-! ## What is verified -/

/-- Instructions that follow each other, each named by its number in the code. -/
structure Code.Stretch where
  first : Nat
  count : Nat

namespace Code.Stretch

instance : Membership Nat Stretch := ⟨fun s k => s.first ≤ k ∧ k < s.first + s.count⟩

/-- Stretches lie one after the other, from one number up to another. -/
def Tile (first last : Nat) : List Stretch → Prop
  | [] => first = last
  | s :: rest => s.first = first ∧ Tile (first + s.count) last rest

end Code.Stretch

namespace Code.Record

/-- The instructions to which control goes from the one with number `k`.  A call comes back. -/
def Leads (r : Record) (k next : Nat) : Prop :=
  match r.op? with
  | some .JUMP => r.x0.toInt = (recordSize * next : Nat)
  | some .IF => next = k + 1 ∨ r.x0.toInt = (recordSize * next : Nat)
  | some .RET | some .END | none => False
  | some _ => next = k + 1

/-- Control goes to the next instruction, or where a jump goes. -/
theorem Leads.cases {r : Record} {k next : Nat} {op : Opcode} (h : r.Leads k next)
    (hop : r.op? = some op) : (op ≠ .RET ∧ op ≠ .END ∧ next = k + 1) ∨
      (op = .JUMP ∨ op = .IF) ∧ r.x0.toInt = (recordSize * next : Nat) := by
  unfold Leads at h
  rw [hop] at h
  cases op with
  | JUMP => exact .inr ⟨.inl rfl, h⟩
  | IF =>
    obtain h | h := h
    · exact .inl ⟨Opcode.noConfusion, Opcode.noConfusion, h⟩
    · exact .inr ⟨.inr rfl, h⟩
  | RET | END => cases h
  | _ => exact .inl ⟨Opcode.noConfusion, Opcode.noConfusion, h⟩

end Code.Record

namespace Image

/-- The instruction with number `k`, which lies at address `16 * k`. -/
def record? (image : Image) (k : Nat) : Option Record :=
  if recordSize * (k + 1) ≤ image.codeSize then
    Record.decode? (image.bytes.drop (recordSize * k))
  else none

/-- The instruction with number `k` has an operation. -/
def HasOp (image : Image) (k : Nat) (op : Opcode) : Prop :=
  ∃ r, image.record? k = some r ∧ r.op? = some op

/-- The calls in a stretch. -/
def calls (image : Image) (s : Stretch) : List Record :=
  ((List.range' s.first s.count).filterMap image.record?).filter fun r => r.op? = some .CALL

/-- Numbers of pushed bytes, one for each instruction of a stretch: nothing is pushed when a frame has
been opened and when it is closed, there is always as much as an instruction takes, and wherever
control goes it stays in the stretch and finds what the instruction has left. -/
structure Balances (image : Image) (s : Stretch) (depth : Nat → Nat) : Prop where
  opened : ∀ k ∈ s, image.HasOp k .ENTER → depth (k + 1) = 0
  closed : ∀ k ∈ s, image.HasOp k .LEAVE → depth k = 0
  enough : ∀ k ∈ s, ∀ r, image.record? k = some r → r.pops ≤ depth k
  flows : ∀ k ∈ s, ∀ r, image.record? k = some r → ∀ next, r.Leads k next →
    next ∈ s ∧ depth next + r.pops = depth k + r.pushes

/-- Jumps and branches go to instructions of their own stretch. -/
def JumpsInside (image : Image) (s : Stretch) : Prop :=
  ∀ k ∈ s, ∀ r, image.record? k = some r → r.op? = some .JUMP ∨ r.op? = some .IF →
    ∃ next ∈ s, r.x0.toInt = (recordSize * next : Nat)

end Image

namespace Assembly

/-- The instructions of a function. -/
def stretch (a : Assembly) (u : Emission.Done) : Stretch :=
  ⟨((a.entry u).address / recordSize).toNat, Piece.count u.code⟩

/-- The instructions before those of functions. -/
def head (a : Assembly) : Stretch :=
  ⟨0, a.code.length - (a.units.map fun u => Piece.count u.code).sum⟩

/-- All instructions, function by function. -/
def stretches (a : Assembly) : List Stretch := a.head :: a.units.map a.stretch

/-- A call goes to the entry of the function that has a number, or names a native one. -/
def Calls (a : Assembly) (p : Program) (r : Record) (number : Nat) : Prop :=
  ∃ f, p.functions[number]? = some f ∧
    if f.isUser then r.p0 = CallKind.user.code ∧
      ∃ v ∈ a.units, v.number = number ∧ r.x0.toInt = (a.entry v).address
    else r.p0 = CallKind.native.code

end Assembly

/-- What a verifier finds in the image of a module. -/
structure Image.Verified (image : Image) (p : Program) (m : Module) (a : Assembly) : Prop where
  codeSize : image.codeSize = recordSize * a.code.length
  records : ∀ (k : Nat) (i : Instruction), a.code[k]? = some i →
    ∃ r, i.resolve a.link.resolve = .ok r ∧ image.record? k = some r
  tiles : Stretch.Tile 0 a.code.length a.stretches
  entries : ∀ u ∈ a.units, (a.entry u).address = (recordSize * (a.stretch u).first : Nat)
  enters : ∀ u ∈ a.units, image.HasOp (a.stretch u).first .ENTER
  returns : ∀ u ∈ a.units, ∃ k, k + 1 = (a.stretch u).first + (a.stretch u).count ∧ image.HasOp k .RET
  finishes : ∃ k, k + 1 = a.head.count ∧ image.HasOp k .END
  jumps : ∀ s ∈ a.stretches, image.JumpsInside s
  calls : ∀ u ∈ a.units, ∃ f body, p.functions[u.number]? = some f ∧ f.user? = some body ∧
    List.Forall₂ (a.Calls p) (image.calls (a.stretch u)) (Stmt.callsAll body.statements)
  start : List.Forall₂ (a.Calls p) (image.calls a.head)
    ((Emission.main? p m).map Prod.fst).toList
  depths : ∀ s ∈ a.stretches, ∃ depth, image.Balances s depth

/-! ## Code that is shown by an image -/

namespace Piece

variable {xs ys : List Piece}

/-- The instruction with a number, and what lies before and after it. -/
theorem exists_op_of_lt : {pieces : List Piece} → {k : Nat} → k < count pieces →
    ∃ xs i ys, pieces = xs ++ .op i :: ys ∧ count xs = k
  | .mark l :: rest, k, h => by
    have h : k < count rest := h
    obtain ⟨xs, i, ys, rfl, hk⟩ := exists_op_of_lt h
    exact ⟨.mark l :: xs, i, ys, rfl, hk⟩
  | .op i :: rest, 0, _ => ⟨[], i, rest, rfl, rfl⟩
  | .op i :: rest, k + 1, h => by
    have h : k < count rest := Nat.lt_of_succ_lt_succ h
    obtain ⟨xs, j, ys, rfl, hk⟩ := exists_op_of_lt h
    exact ⟨.op i :: xs, j, ys, rfl, by rw [count, hk]⟩

@[simp] theorem count_op (i : Instruction) (xs : List Piece) :
    count (.op i :: xs) = count xs + 1 := rfl

@[simp] theorem count_mark (l : Label) (xs : List Piece) : count (.mark l :: xs) = count xs := rfl

end Piece

/-- The records of some code are those of an image from one with a number on, and the labels in it
stand for their addresses. -/
structure Image.Shows (image : Image) (l : Link) (first : Nat) (pieces : List Piece) : Prop where
  record : ∀ xs i ys, pieces = xs ++ .op i :: ys → ∃ r, i.resolve l.resolve = .ok r ∧
    image.record? (first + Piece.count xs) = some r
  label : ∀ xs label ys, pieces = xs ++ .mark label :: ys → ∃ x, l.labels.address? label = some x ∧
    x.toInt = (recordSize * (first + Piece.count xs) : Nat)

namespace Image.Shows

variable {image : Image} {l : Link} {first : Nat} {xs ys pieces : List Piece}

theorem left (h : image.Shows l first (xs ++ ys)) : image.Shows l first xs where
  record us i vs hp := h.record us i (vs ++ ys) (by rw [hp]; simp)
  label us label vs hp := h.label us label (vs ++ ys) (by rw [hp]; simp)

theorem right (h : image.Shows l first (xs ++ ys)) :
    image.Shows l (first + Piece.count xs) ys where
  record us i vs hp := by
    obtain ⟨r, hr, hrecord⟩ := h.record (xs ++ us) i vs (by rw [hp]; simp)
    rw [Piece.count_append, ← Nat.add_assoc] at hrecord
    exact ⟨r, hr, hrecord⟩
  label us label vs hp := by
    obtain ⟨x, hx, haddress⟩ := h.label (xs ++ us) label vs (by rw [hp]; simp)
    rw [Piece.count_append, ← Nat.add_assoc] at haddress
    exact ⟨x, hx, haddress⟩

theorem tail {x : Piece} (h : image.Shows l first (x :: xs)) :
    image.Shows l (first + Piece.count [x]) xs := by
  have happend : image.Shows l first ([x] ++ xs) := h
  exact happend.right

theorem hasOp (h : image.Shows l first pieces) {i : Instruction} (hp : pieces = xs ++ .op i :: ys) :
    image.HasOp (first + Piece.count xs) i.opcode := by
  obtain ⟨r, hr, hrecord⟩ := h.record xs i ys hp
  obtain ⟨x0, x1, x2, -, -, -, rfl⟩ := resolve_eq_ok hr
  exact ⟨_, hrecord, Record.op?_of⟩

end Image.Shows

/-! ## Bytes that are pushed, instruction by instruction -/

/-- Operations that open or close a frame, or jump. -/
def Code.Opcode.isFlow : Opcode → Bool
  | .ENTER | .LEAVE | .JUMP | .IF => true
  | _ => false

/-- What the operands of an instruction have come to stand for. -/
def Code.Link.Resolves (l : Link) (i : Instruction) (x0 x1 x2 : Int32) : Prop :=
  l.resolve i.x0 = .ok x0 ∧ l.resolve i.x1 = .ok x1 ∧ l.resolve i.x2 = .ok x2

/-- An instruction finds what it takes when `d` bytes have been pushed, and leaves `e` bytes. -/
def Code.Link.Moves (l : Link) (d : Nat) (i : Instruction) (e : Nat) : Prop :=
  ∀ r, i.resolve l.resolve = .ok r → r.pops ≤ d ∧ e + r.pops = d + r.pushes

/-- An instruction that a verifier lets pass: frames are opened and closed when nothing is pushed,
and where code jumps nothing is left. -/
structure Code.Link.Passes (l : Link) (target : Label → Prop) (d : Nat) (i : Instruction)
    (e : Nat) : Prop where
  moves : l.Moves d i e
  frame : i.opcode = .ENTER ∨ i.opcode = .LEAVE → d = 0
  jumps : i.opcode = .JUMP ∨ i.opcode = .IF → e = 0 ∧ ∃ label, i.x0 = .label label ∧ target label

/-- Code whose instructions pass one after the other; at a label nothing is pushed. -/
inductive Code.Link.Chain (l : Link) (target : Label → Prop) : Nat → List Piece → Nat → Prop
  | nil (d : Nat) : Chain l target d [] d
  | mark {label : Label} {rest : List Piece} {e : Nat} (h : Chain l target 0 rest e) :
      Chain l target 0 (.mark label :: rest) e
  | op {d k e : Nat} {i : Instruction} {rest : List Piece} (hi : l.Passes target d i k)
      (h : Chain l target k rest e) : Chain l target d (.op i :: rest) e

namespace Code.Link

variable {l : Link} {target : Label → Prop} {d k e : Nat} {i : Instruction} {xs ys : List Piece}

theorem Chain.append (h : l.Chain target d xs k) (h' : l.Chain target k ys e) :
    l.Chain target d (xs ++ ys) e := by
  induction h with
  | nil d => exact h'
  | mark _ ih => exact .mark (ih h')
  | op hi _ ih => exact .op hi (ih h')

theorem Chain.split (h : l.Chain target d (xs ++ ys) e) :
    ∃ k, l.Chain target d xs k ∧ l.Chain target k ys e := by
  induction xs generalizing d with
  | nil => exact ⟨d, .nil d, h⟩
  | cons x xs ih =>
    cases h with
    | mark h =>
      obtain ⟨k, hxs, hys⟩ := ih h
      exact ⟨k, .mark hxs, hys⟩
    | op hi h =>
      obtain ⟨k, hxs, hys⟩ := ih h
      exact ⟨k, .op hi hxs, hys⟩

theorem moves_of {pops pushes : Nat}
    (hpops : ∀ x0 x1 x2, l.Resolves i x0 x1 x2 →
      (Record.of i.opcode i.p0 i.p1 x0 x1 x2).pops = pops)
    (hpushes : ∀ x0 x1 x2, l.Resolves i x0 x1 x2 →
      (Record.of i.opcode i.p0 i.p1 x0 x1 x2).pushes = pushes)
    (hd : pops ≤ d) (he : e + pops = d + pushes) : l.Moves d i e := by
  intro r hr
  obtain ⟨x0, x1, x2, h0, h1, h2, rfl⟩ := resolve_eq_ok hr
  rw [hpops x0 x1 x2 ⟨h0, h1, h2⟩, hpushes x0 x1 x2 ⟨h0, h1, h2⟩]
  exact ⟨hd, he⟩

/-- An instruction that takes nothing and pushes nothing. -/
theorem moves_still (hpops : ∀ x0 x1 x2, (Record.of i.opcode i.p0 i.p1 x0 x1 x2).pops = 0)
    (hpushes : ∀ x0 x1 x2, (Record.of i.opcode i.p0 i.p1 x0 x1 x2).pushes = 0) (d : Nat) :
    l.Moves d i d :=
  moves_of (fun x0 x1 x2 _ => hpops x0 x1 x2) (fun x0 x1 x2 _ => hpushes x0 x1 x2) (Nat.zero_le d)
    rfl

theorem Moves.passes (h : l.Moves d i e) (hi : i.opcode.isFlow = false) :
    l.Passes target d i e := by
  refine ⟨h, fun hop => ?_, fun hop => ?_⟩ <;> obtain hop | hop := hop <;> rw [hop] at hi <;> cases hi

theorem passes_frame (n : Int32) :
    l.Passes target 0 (.enter n) 0 ∧ l.Passes target 0 (.leave n) 0 := by
  refine ⟨⟨moves_still (fun _ _ _ => rfl) (fun _ _ _ => rfl) 0, fun _ => rfl, fun h => ?_⟩,
    ⟨moves_still (fun _ _ _ => rfl) (fun _ _ _ => rfl) 0, fun _ => rfl, fun h => ?_⟩⟩ <;>
    obtain h | h := h <;> cases h

theorem passes_ret : l.Passes target 0 .ret 0 :=
  (moves_still (fun _ _ _ => rfl) (fun _ _ _ => rfl) 0).passes rfl

theorem passes_finish (d : Nat) : l.Passes target d .finish d :=
  (moves_still (fun _ _ _ => rfl) (fun _ _ _ => rfl) d).passes rfl

theorem passes_call (kind : CallKind) (x : Operand) (d : Nat) :
    l.Passes target d (.call kind x) d :=
  (moves_still (fun _ _ _ => rfl) (fun _ _ _ => rfl) d).passes rfl

theorem passes_jump {label : Label} (h : target label) : l.Passes target 0 (.jump label) 0 := by
  refine ⟨moves_still (fun _ _ _ => rfl) (fun _ _ _ => rfl) 0, fun h => ?_,
    fun _ => ⟨rfl, label, rfl, h⟩⟩
  obtain h | h := h <;> cases h

theorem passes_branch {label : Label} (h : target label) (on : BranchOn) :
    l.Passes target 1 (.branch on label) 0 := by
  refine ⟨moves_of (fun _ _ _ _ => rfl) (fun _ _ _ _ => rfl) (Nat.le_refl 1) rfl, fun h => ?_,
    fun _ => ⟨rfl, label, rfl, h⟩⟩
  obtain h | h := h <;> cases h

end Code.Link

/-- A comparison has a truth value. -/
theorem BinaryOp.Takes.boolean {op : BinaryOp} {a b c : Shape} {k : Comparison}
    (h : op.Takes a b c) (hk : op.comparison? = some k) : c = .scalar .boolean := by
  cases h with
  | numbers | strings | booleans => rfl
  | arithmetic hop => obtain rfl | rfl | rfl := hop <;> cases hk
  | shift hop => obtain rfl | rfl := hop <;> cases hk
  | logic hop => obtain rfl | rfl | rfl := hop <;> cases hk
  | multiply | mod | join => cases hk

namespace Setting

variable {S : Setting} {l : Link} {d e : Nat} {i : Instruction} {code : List Piece}

/-- The bytes that an instruction moves whose operand is a size, sizes that do not fit being cut. -/
def cut (n : Nat) : Nat := (Word.size32 n).toInt.toNat

/-- **What an instruction does to the number of pushed bytes is what its record says.** -/
theorem Does.passes (hcount : S.count = cut) (h : S.Does d i e) : l.Passes S.target d i e := by
  have value {x : Int32} {n : Nat} (h : l.resolve (.value (Word.size32 n)) = .ok x) :
      x.toInt.toNat = S.count n := by
    obtain rfl : Word.size32 n = x := Except.ok.inj h
    rw [hcount, cut]
  have one : S.count 1 = 1 := by
    rw [hcount]
    rfl
  cases h with
  | @load d n place h =>
    cases place with
    | frame o | data o =>
      exact Moves.passes (moves_of (fun _ _ _ _ => rfl) (fun _ _ _ h => value h.1) (Nat.zero_le d) rfl) rfl
  | @store d n place h =>
    cases place with
    | frame o | data o =>
      exact Moves.passes (moves_of (fun _ _ _ h => value h.1) (fun _ _ _ _ => rfl) (Nat.le_add_left _ _)
        rfl) rfl
  | @pointer d place h =>
    cases place with
    | frame o =>
      have four : S.count 4 = 4 := by
        rw [hcount]
        rfl
      exact Moves.passes (moves_of (fun _ _ _ _ => rfl) (fun _ _ _ _ => four.symm) (Nat.zero_le d) rfl) rfl
    | data o =>
      exact Moves.passes (moves_of (fun _ _ _ _ => rfl) (fun _ _ _ h => value (n := 4) h.1) (Nat.zero_le d)
        rfl) rfl
  | text h =>
    exact Moves.passes (moves_of (fun _ _ _ _ => rfl) (fun _ _ _ h => value h.1) (Nat.zero_le d) rfl) rfl
  | address h =>
    exact Moves.passes (moves_of (fun _ _ _ _ => rfl) (fun _ _ _ h => value (n := 4) h.1) (Nat.zero_le d)
      rfl) rfl
  | immediate v h =>
    exact Moves.passes (moves_of (fun _ _ _ _ => rfl) (fun _ _ _ h => value h.1) (Nat.zero_le d) rfl) rfl
  | zeros d n =>
    exact Moves.passes (moves_of (fun _ _ _ _ => rfl) (fun _ _ _ h => value h.1) (Nat.zero_le d) rfl) rfl
  | pop d n =>
    exact Moves.passes (moves_of (fun _ _ _ h => value h.1) (fun _ _ _ _ => rfl) (Nat.le_add_left _ _)
      rfl) rfl
  | dup d n =>
    refine Moves.passes (moves_of (fun _ _ _ h => value h.1)
      (fun _ _ _ h => congrArg₂ (· + ·) (value h.1) (value h.1)) (Nat.le_add_left _ _) ?_) rfl
    omega
  | cast h hk hn =>
    refine Moves.passes (moves_of (fun _ _ _ h => value h.1) (fun _ _ _ h => value h.2.1)
      (Nat.le_add_left _ _) ?_) rfl
    omega
  | @unary d k σ op i h hk hi =>
    cases op with
    | plus => cases hi
    | minus | not =>
      cases hi
      exact Moves.passes (moves_of (fun _ _ _ h => value h.1) (fun _ _ _ h => value h.1)
        (Nat.le_add_left _ _) rfl) rfl
  | sign h hk =>
    refine Moves.passes (moves_of (fun _ _ _ h => value h.1) (fun _ _ _ _ => one.symm)
      (Nat.le_add_left _ _) ?_) rfl
    omega
  | @binary d k k' n a b c op i h hk hk' hn hi =>
    obtain ⟨comparison, hcomparison, rfl⟩ | ⟨hnone, code, n, hcode, rfl, rfl⟩ := hi
    · obtain rfl := h.boolean hcomparison
      obtain rfl : 1 = n := Option.some.inj hn
      refine Moves.passes (moves_of (fun _ _ _ h => congrArg₂ (· + ·) (value h.1) (value h.2.1))
        (fun _ _ _ _ => one.symm) ?_ ?_) rfl <;> omega
    · have hbinary := BinaryOp.isBinary_of_opcode? hcode
      have hflow : code.isFlow = false := by cases code <;> first | rfl | cases hbinary
      refine Moves.passes (moves_of
        (fun _ _ _ h => (Record.pops_of_isBinary hbinary).trans
          (congrArg₂ (· + ·) (value h.1) (value h.2.1)))
        (fun _ _ _ h => (Record.pushes_of_isBinary hbinary).trans (value h.2.2)) ?_ ?_) hflow
        <;> omega
  | call hf hc hsize hi hd =>
    unfold EmissionState.Calls at hi
    split at hi
    next =>
      obtain ⟨x, -, rfl⟩ := hi
      exact passes_call _ _ _
    next =>
      obtain ⟨label, -, rfl⟩ := hi
      exact passes_call _ _ _

/-- **Code that is balanced passes, instruction by instruction.** -/
theorem Balanced.chain (hcount : S.count = cut) (h : S.Balanced d code e) :
    l.Chain S.target d code e := by
  induction h with
  | nil d => exact .nil d
  | mark _ ih => exact .mark ih
  | op hi _ ih => exact .op (hi.passes hcount) ih
  | jump hl _ ih => exact .op (passes_jump hl) ih
  | branch hl _ ih =>
    rw [hcount]
    exact .op (passes_branch hl _) ih
  | leave _ ih => exact .op (passes_frame _).2 (.op passes_ret ih)

end Setting

/-! ## Code that an image shows -/

/-- What lies behind a piece of code that ends with an instruction: nothing, or that instruction. -/
theorem Piece.count_pos_or_eq_last {xs ys before : List Piece} {x : Piece} {last : Instruction}
    (h : xs ++ x :: ys = before ++ [.op last]) : ys = [] ∧ x = .op last ∨ 0 < count ys := by
  obtain rfl | ⟨zs, z, rfl⟩ := List.eq_nil_or_concat ys
  · exact .inl ⟨rfl, by simpa using congrArg List.getLast? h⟩
  · have hends : (xs ++ x :: zs) ++ [z] = before ++ [.op last] := by simpa using h
    have hz : z = .op last := List.singleton_inj.1 (List.append_inj' hends rfl).2
    rw [hz, List.concat_eq_append, count_append]
    exact .inr (Nat.lt_add_left _ Nat.one_pos)

namespace Image

variable {image : Image} {l : Link} {target : Label → Prop} {first k d e : Nat}
  {code before : List Piece} {last : Instruction}

/-- Bytes that have been pushed after some instructions, by what their records say. -/
def depthAfter (image : Image) (first d : Nat) : Nat → Nat
  | 0 => d
  | k + 1 =>
    match image.record? first with
    | some r => image.depthAfter (first + 1) (d + r.pushes - r.pops) k
    | none => image.depthAfter (first + 1) d k

theorem depthAfter_of_chain {xs : List Piece} (hs : image.Shows l first xs)
    (hc : l.Chain target d xs e) : image.depthAfter first d (Piece.count xs) = e := by
  induction hc generalizing first with
  | nil d => rfl
  | @mark label rest e _ ih =>
    have hrest : image.Shows l first rest := hs.tail
    exact ih hrest
  | @op d k e i rest hi _ ih =>
    obtain ⟨r, hr, hrecord⟩ := hs.record [] i rest rfl
    have hrest : image.Shows l (first + 1) rest := hs.tail
    obtain ⟨hpops, hmoves⟩ := hi.moves r hr
    have hk : d + r.pushes - r.pops = k := by omega
    rw [Piece.count_op, depthAfter, show image.record? first = some r from hrecord]
    dsimp only
    rw [hk]
    exact ih hrest

/-- An instruction of code that passes, its record, and the bytes pushed before and after it. -/
structure Found (image : Image) (l : Link) (target : Label → Prop) (first : Nat) (code : List Piece)
    (k : Nat) (xs : List Piece) (i : Instruction) (ys : List Piece) (r : Record) : Prop where
  pieces : code = xs ++ .op i :: ys
  count : Piece.count xs = k
  resolve : i.resolve l.resolve = .ok r
  record : image.record? (first + k) = some r
  passes : l.Passes target (image.depthAfter first 0 k) i (image.depthAfter first 0 (k + 1))

theorem Shows.found (hs : image.Shows l first code) (hc : l.Chain target 0 code e)
    (hk : k < Piece.count code) : ∃ xs i ys r, image.Found l target first code k xs i ys r := by
  obtain ⟨xs, i, ys, rfl, rfl⟩ := Piece.exists_op_of_lt hk
  obtain ⟨r, hr, hrecord⟩ := hs.record xs i ys rfl
  obtain ⟨d, hxs, hrest⟩ := hc.split
  obtain _ | _ | @⟨_, d', _, _, _, hi, -⟩ := hrest
  have hbefore := depthAfter_of_chain hs.left hxs
  have hafter : image.depthAfter first 0 (Piece.count xs + 1) = d' := by
    have happend : xs ++ .op i :: ys = (xs ++ [.op i]) ++ ys := by simp
    rw [happend] at hs
    have h := depthAfter_of_chain hs.left (hxs.append (.op hi (.nil d')))
    rwa [Piece.count_append] at h
  exact ⟨xs, i, ys, r, rfl, rfl, hr, hrecord, by rwa [hbefore, hafter]⟩

theorem Found.op?_eq {xs ys : List Piece} {i : Instruction} {r : Record}
    (h : image.Found l target first code k xs i ys r) : r.op? = some i.opcode := by
  obtain ⟨x0, x1, x2, -, -, -, rfl⟩ := resolve_eq_ok h.resolve
  exact Record.op?_of

/-- A label in code stands in front of an instruction, and nothing is pushed there. -/
theorem Shows.lands (hs : image.Shows l first code) (hc : l.Chain target 0 code e)
    (hends : code = before ++ [.op last]) {label : Label} (hl : label ∈ Piece.marks code) :
    ∃ t < Piece.count code, image.depthAfter first 0 t = 0 ∧ ∃ x,
      l.labels.address? label = some x ∧ x.toInt = (recordSize * (first + t) : Nat) := by
  obtain ⟨xs, ys, rfl⟩ := Piece.exists_of_mem_marks hl
  obtain ⟨x, hx, haddress⟩ := hs.label xs label ys rfl
  obtain ⟨d, hxs, hrest⟩ := hc.split
  obtain _ | _ | _ := hrest
  have hpos : 0 < Piece.count ys := by
    obtain ⟨-, hop⟩ | hpos := Piece.count_pos_or_eq_last hends
    · cases hop
    · exact hpos
  refine ⟨Piece.count xs, ?_, depthAfter_of_chain hs.left hxs, x, hx, haddress⟩
  rw [Piece.count_append, Piece.count_mark]
  exact Nat.lt_add_of_pos_right hpos

/-- **Where code jumps it stays inside itself**, and nothing is pushed there. -/
theorem Found.jumps {xs ys : List Piece} {i : Instruction} {r : Record}
    (h : image.Found l target first code k xs i ys r) (hs : image.Shows l first code)
    (hc : l.Chain target 0 code e) (hends : code = before ++ [.op last])
    (htarget : ∀ label, target label → label ∈ Piece.marks code)
    (hop : i.opcode = .JUMP ∨ i.opcode = .IF) :
    image.depthAfter first 0 (k + 1) = 0 ∧ ∃ t < Piece.count code,
      image.depthAfter first 0 t = 0 ∧ r.x0.toInt = (recordSize * (first + t) : Nat) := by
  obtain ⟨hafter, label, hx0, hlabel⟩ := h.passes.jumps hop
  obtain ⟨t, ht, hdepth, x, hx, haddress⟩ := hs.lands hc hends (htarget label hlabel)
  obtain ⟨x0, x1, x2, h0, -, -, rfl⟩ := resolve_eq_ok h.resolve
  rw [hx0, Link.resolve, hx] at h0
  obtain rfl : x = x0 := Except.ok.inj h0
  exact ⟨hafter, t, ht, hdepth, haddress⟩

/-- **Code that passes is balanced as a verifier sees it**, and jumps inside itself. -/
theorem Shows.balances (hs : image.Shows l first code) (hc : l.Chain target 0 code e)
    (hends : code = before ++ [.op last]) (hlast : last.opcode = .RET ∨ last.opcode = .END)
    (htarget : ∀ label, target label → label ∈ Piece.marks code) :
    image.JumpsInside ⟨first, Piece.count code⟩ ∧
      image.Balances ⟨first, Piece.count code⟩ fun k => image.depthAfter first 0 (k - first) := by
  have found {k : Nat} {r : Record} (hk : k ∈ (⟨first, Piece.count code⟩ : Stretch))
      (hr : image.record? k = some r) : ∃ j xs i ys, k = first + j ∧
        image.Found l target first code j xs i ys r := by
    obtain ⟨hlow, hhigh⟩ := hk
    obtain ⟨j, rfl⟩ := Nat.exists_eq_add_of_le hlow
    obtain ⟨xs, i, ys, r', h⟩ := hs.found hc (Nat.lt_of_add_lt_add_left hhigh)
    obtain rfl : r' = r := Option.some.inj (h.record.symm.trans hr)
    exact ⟨j, xs, i, ys, rfl, h⟩
  have inside {t : Nat} (ht : t < Piece.count code) :
      first + t ∈ (⟨first, Piece.count code⟩ : Stretch) :=
    ⟨Nat.le_add_right _ _, Nat.add_lt_add_left ht _⟩
  refine ⟨fun k hk r hr hop => ?_, ⟨fun k hk => ?_, fun k hk => ?_, fun k hk r hr => ?_,
    fun k hk r hr next hnext => ?_⟩⟩
  · obtain ⟨j, xs, i, ys, rfl, h⟩ := found hk hr
    rw [h.op?_eq, Option.some.injEq, Option.some.injEq] at hop
    obtain ⟨-, t, ht, -, haddress⟩ := h.jumps hs hc hends htarget hop
    exact ⟨first + t, inside ht, haddress⟩
  · rintro ⟨r, hr, hop⟩
    obtain ⟨j, xs, i, ys, rfl, h⟩ := found hk hr
    rw [h.op?_eq, Option.some.injEq] at hop
    have hzero := h.passes.frame (.inl hop)
    have hmoves := (h.passes.moves r h.resolve).2
    have hstill : r.pops = 0 ∧ r.pushes = 0 := by
      rw [Record.pops, Record.pushes, h.op?_eq, hop]
      exact ⟨rfl, rfl⟩
    rw [hzero, hstill.1, hstill.2] at hmoves
    rw [Nat.add_assoc, Nat.add_sub_cancel_left]
    exact hmoves
  · rintro ⟨r, hr, hop⟩
    obtain ⟨j, xs, i, ys, rfl, h⟩ := found hk hr
    rw [h.op?_eq, Option.some.injEq] at hop
    rw [Nat.add_sub_cancel_left]
    exact h.passes.frame (.inr hop)
  · obtain ⟨j, xs, i, ys, rfl, h⟩ := found hk hr
    rw [Nat.add_sub_cancel_left]
    exact (h.passes.moves r h.resolve).1
  · obtain ⟨j, xs, i, ys, rfl, h⟩ := found hk hr
    have hmoves := (h.passes.moves r h.resolve).2
    rw [Nat.add_sub_cancel_left]
    obtain ⟨hret, hend, rfl⟩ | ⟨hop, haddress⟩ := hnext.cases h.op?_eq
    · have hlt : j + 1 < Piece.count code := by
        rw [h.pieces, Piece.count_append, Piece.count_op, h.count]
        obtain ⟨-, hop⟩ | hpos := Piece.count_pos_or_eq_last (h.pieces.symm.trans hends)
        · obtain rfl := Piece.op.inj hop
          exact absurd hlast (not_or.2 ⟨hret, hend⟩)
        · omega
      rw [Nat.add_assoc, Nat.add_sub_cancel_left]
      exact ⟨inside hlt, hmoves⟩
    · obtain ⟨hafter, t, ht, hdepth, hx⟩ := h.jumps hs hc hends htarget hop
      obtain rfl : next = first + t := by
        have := hx.symm.trans haddress
        unfold recordSize at this
        omega
      rw [hafter] at hmoves
      rw [Nat.add_sub_cancel_left, hdepth]
      exact ⟨inside ht, hmoves⟩

/-- The calls that an image shows are those of the code. -/
theorem Shows.calls (hs : image.Shows l first code) :
    List.Forall₂ (fun r i => i.resolve l.resolve = .ok r) (image.calls ⟨first, Piece.count code⟩)
      (Piece.calls code) := by
  induction code generalizing first with
  | nil => exact .nil
  | cons x xs ih =>
    cases x with
    | mark label => exact ih hs.tail
    | op i =>
      have hrest := ih hs.tail
      obtain ⟨r, hr, hrecord⟩ := hs.record [] i xs rfl
      obtain ⟨x0, x1, x2, -, -, -, rfl⟩ := resolve_eq_ok hr
      have hrecord : image.record? first = some (.of i.opcode i.p0 i.p1 x0 x1 x2) := hrecord
      unfold Image.calls at hrest ⊢
      rw [Piece.count_op, List.range'_succ, List.filterMap_cons, hrecord, List.filter_cons]
      by_cases hop : i.opcode = .CALL
      · rw [if_pos (by simp [hop]), Piece.calls_call hop]
        exact .cons hr hrest
      · rw [if_neg (by simp [hop]), Piece.calls_op hop]
        exact hrest

/-- What lies at the address of a number is the record that has it. -/
theorem record?_of_has {mem : Memory} (hmem : mem.bytes.toList = image.bytes) {r : Record}
    (h : mem.Has (recordSize * k : Nat) r.encode) (hk : recordSize * (k + 1) ≤ image.codeSize) :
    image.record? k = some r := by
  have htake : (image.bytes.drop (recordSize * k)).take recordSize = r.encode := by
    unfold Memory.Has Memory.read at h
    split at h
    next =>
      have hdata := Except.ok.inj h
      rw [Array.toList_extract, hmem, Record.length_encode] at hdata
      rw [← hdata, List.extract_eq_take_drop]
      congr 1
      omega
    next => cases h
  rw [record?, if_pos hk, ← List.take_append_drop recordSize (image.bytes.drop (recordSize * k)),
    htake]
  exact Record.decode?_encode r _

/-- **Code that lies in memory is shown by the image that was put there.** -/
theorem shows_of_laid {mem : Memory} (hmem : mem.bytes.toList = image.bytes)
    (h : l.Laid mem 0 code) (hsize : image.codeSize = Piece.size code) : image.Shows l 0 code where
  record xs i ys hp := by
    subst hp
    obtain ⟨⟨r, hr, hhas⟩, -⟩ := h.right
    rw [Int.zero_add] at hhas
    refine ⟨r, hr, ?_⟩
    rw [Nat.zero_add]
    refine record?_of_has hmem hhas ?_
    rw [hsize, Piece.size, Piece.count_append, Piece.count_op]
    exact Nat.mul_le_mul_left _ (by omega)
  label xs label ys hp := by
    obtain ⟨x, hx, haddress, -⟩ := h.address hp
    rw [Int.zero_add] at haddress
    rw [Nat.zero_add]
    exact ⟨x, hx, haddress⟩

end Image

/-! ## Modules -/

/-- Relations between lists, one after the other. -/
theorem forall₂_comp {α β γ : Type} {R : α → β → Prop} {S : β → γ → Prop} {T : α → γ → Prop}
    {xs : List α} {ys : List β} {zs : List γ} (h : List.Forall₂ R xs ys)
    (h' : List.Forall₂ S ys zs) (hT : ∀ x y z, R x y → S y z → T x z) : List.Forall₂ T xs zs := by
  induction h generalizing zs with
  | nil =>
    cases h'
    exact .nil
  | cons hx _ ih =>
    cases h' with
    | cons hy hys => exact .cons (hT _ _ _ hx hy) (ih hys)

namespace Assembly

variable {a : Assembly} {p : Program} {m : Module} {image : Image} {first : Nat}
  {start code : List Piece} {z : EmissionState}

/-- A call of a function goes to the function's code. -/
theorem calls_of_resolve (hz : Emission.ModuleCode p m start a.units z) {f : Function} {number : Nat}
    {i : Instruction} {r : Record} (hf : p.functions[number]? = some f) (hi : z.Calls f number i)
    (hr : i.resolve a.link.resolve = .ok r) : a.Calls p r number := by
  refine ⟨f, hf, ?_⟩
  obtain ⟨x0, x1, x2, h0, -, -, rfl⟩ := resolve_eq_ok hr
  unfold EmissionState.Calls at hi
  unfold Function.isUser Function.user?
  split at hi
  next hbody =>
    obtain ⟨x, -, rfl⟩ := hi
    rw [hbody]
    exact rfl
  next hbody =>
    obtain ⟨label, hlabel, rfl⟩ := hi
    obtain ⟨v, hv, heq⟩ := List.mem_map.1 (hz.entries.symm.subset hlabel)
    obtain ⟨rfl, rfl⟩ := Prod.mk.inj heq
    rw [hbody]
    refine ⟨rfl, v, hv, rfl, ?_⟩
    cases hx : a.labels.address? v.label with
    | none => simp [Instruction.call, Link.resolve, link, hx] at h0
    | some x =>
      have : x = x0 := by simpa [Instruction.call, Link.resolve, link, hx] using h0
      rw [entry, hx, ← this]
      rfl

/-- **Functions lie one after the other**, each from its entry on. -/
theorem tile_stretches {units : List Emission.Done}
    (hs : image.Shows a.link first (units.flatMap (·.code)))
    (hcode : ∀ u ∈ units, ∃ code, u.code = .mark u.label :: code) :
    Stretch.Tile first (first + (units.map fun u => Piece.count u.code).sum)
        (units.map a.stretch) ∧
      ∀ u ∈ units, (a.entry u).address = (recordSize * (a.stretch u).first : Nat) ∧
        image.Shows a.link (a.stretch u).first u.code := by
  induction units generalizing first with
  | nil => exact ⟨rfl, by simp⟩
  | cons u units ih =>
    rw [List.flatMap_cons] at hs
    obtain ⟨htile, hunits⟩ := ih hs.right fun v hv => hcode v (List.mem_cons_of_mem _ hv)
    obtain ⟨code, hu⟩ := hcode u List.mem_cons_self
    obtain ⟨x, hx, haddress⟩ := hs.left.label [] u.label code hu
    have hentry : (a.entry u).address = (recordSize * first : Nat) := by
      have hx : a.labels.address? u.label = some x := hx
      rw [entry, hx, Option.getD_some]
      exact haddress
    have hfirst : (a.stretch u).first = first := by
      rw [stretch, hentry]
      dsimp only [recordSize]
      omega
    rw [List.map_cons, List.sum_cons, ← Nat.add_assoc]
    refine ⟨⟨hfirst, htile⟩, fun v hv => ?_⟩
    obtain rfl | hv := List.mem_cons.1 hv
    · rw [hfirst]
      exact ⟨hentry, hs.left⟩
    · exact hunits v hv

end Assembly

/-- Sizes that fit 32 bits are not cut. -/
theorem Setting.cut_of_lt {n : Nat} (h : n < 2 ^ 31) : cut n = n := by
  rw [cut, Word.toInt_size32 h, Int.toNat_natCast]

theorem counts_cut {p : Program} (h : ∀ f ∈ p.functions, p.types.bytes f.parameters < 2 ^ 31) :
    Counts p Setting.cut where
  zero := rfl
  sum f hf := by
    have hlt := h f hf
    rw [Setting.cut_of_lt hlt]
    unfold TypeTable.bytes at hlt ⊢
    refine congrArg List.sum (List.map_congr_left fun t ht => Setting.cut_of_lt ?_)
    exact lt_of_le_of_lt (List.le_sum_of_mem (List.mem_map.2 ⟨t, ht, rfl⟩)) hlt

/-- The code of a function opens its frame, leaves nothing behind and ends by returning. -/
structure Emission.Done.Closed (u : Emission.Done) (l : Link) (code : List Piece) : Prop where
  pieces : ∃ n inner last, code = .op (.enter n) :: inner ++ [.op last] ∧ last.opcode = .RET
  chain : l.Chain (· ∈ Piece.marks u.code) 0 u.code 0

theorem Emission.Done.For.closed {u : Emission.Done} {p : Program} {m : Module} {z : EmissionState}
    {f : Function} {body : UserBody} {code : List Piece} (hu : u.For p m z f body code)
    (h : p.Complete) (hm : m ∈ p.modules)
    (hsmall : ∀ f ∈ p.functions, p.types.bytes f.parameters < 2 ^ 31) (l : Link) :
    u.Closed l code := by
  have htarget : ∀ label ∈ Piece.marks code, label ∈ Piece.marks u.code := by
    rw [hu.pieces]
    exact fun label hlabel => List.mem_cons_of_mem _ hlabel
  obtain ⟨inner, hcode, hbalanced⟩ := hu.balanced h hm (counts_cut hsmall) htarget
  have hchain := hbalanced.chain (l := l) rfl
  refine ⟨⟨Word.size32 body.frame.locals,
    inner ++ [.op (.leave (Word.size32 body.frame.locals))], .ret, ?_, rfl⟩, ?_⟩
  · rw [hcode]
    simp [leave]
  · rw [hu.pieces, hcode]
    rw [hu.pieces, hcode] at hchain
    exact .mark (.op (passes_frame _).1 hchain)

/-- The first instructions pass, too, and end the machine. -/
theorem Emission.Starts.chain {p : Program} {m : Module} {start : List Piece} {z : EmissionState}
    (h : Starts p m start z) (l : Link) :
    (∃ before, start = before ++ [.op .finish]) ∧ ∃ e, l.Chain (fun _ => False) 0 start e := by
  unfold Starts at h
  split at h
  next =>
    subst h
    exact ⟨⟨[], rfl⟩, 0, .op (passes_finish 0) (.nil 0)⟩
  next number f _ =>
    obtain ⟨size, label, hsize, -, rfl⟩ := h
    have hrest (d : Nat) : l.Chain (fun _ => False) d
        [.op (.call .user (.label label)), .op .finish] d :=
      .op (passes_call _ _ d) (.op (passes_finish d) (.nil d))
    refine ⟨⟨roomFor f.returns size ++ [.op (.call .user (.label label))], by simp⟩, ?_⟩
    unfold roomFor
    split
    · refine ⟨Setting.cut size, .op ?_ (hrest _)⟩
      refine Moves.passes (moves_of (fun _ _ _ _ => rfl) (fun x0 _ _ h => ?_) (Nat.zero_le 0)
        (Nat.add_comm _ _)) rfl
      obtain rfl : Word.size32 size = x0 := Except.ok.inj h.1
      rfl
    · exact ⟨0, hrest 0⟩

/-- The function that a module starts with is the one it calls first. -/
theorem Emission.Starts.calls {p : Program} {m : Module} {start : List Piece} {z : EmissionState}
    (h : Starts p m start z) : List.Forall₂ (fun i number => ∃ f,
      p.functions[number]? = some f ∧ z.Calls f number i) (Piece.calls start)
        ((main? p m).map Prod.fst).toList := by
  unfold Starts at h
  split at h
  next hmain =>
    rw [h, hmain]
    exact .nil
  next number f hmain =>
    obtain ⟨size, label, -, hlabel, rfl⟩ := h
    obtain ⟨-, hf, huser⟩ := main?_eq_some hmain
    have hroom : Piece.calls (roomFor f.returns size) = [] := by
      unfold roomFor
      split <;> rfl
    rw [hmain, Piece.calls_append, hroom]
    refine .cons ⟨f, hf, ?_⟩ .nil
    unfold EmissionState.Calls
    split
    next hbody => simp [Function.isUser, Function.user?, hbody] at huser
    next => exact ⟨label, hlabel, rfl⟩

namespace Module

variable {raw : Raw.Program} {p : Program} {m : Module} {a : Assembly} {image : Image}

/-- A record lies where its number says. -/
theorem drop_records {records : List Record} {k : Nat} {r : Record} (h : records[k]? = some r)
    (rest : List UInt8) : ∃ after,
      (records.flatMap Record.encode ++ rest).drop (recordSize * k) = r.encode ++ after := by
  induction records generalizing k with
  | nil => cases h
  | cons r' records ih =>
    cases k with
    | zero =>
      obtain rfl : r' = r := Option.some.inj h
      exact ⟨records.flatMap Record.encode ++ rest, by simp⟩
    | succ k =>
      obtain ⟨after, hafter⟩ := ih (k := k) (by simpa using h)
      refine ⟨after, ?_⟩
      have hlen : recordSize * (k + 1) = r'.encode.length + recordSize * k := by
        rw [Record.length_encode, Nat.mul_succ, Nat.add_comm]
      rw [List.flatMap_cons, List.append_assoc, hlen, List.drop_length_add_append]
      exact hafter

/-- The records of the code are the first bytes of the image. -/
theorem record?_of_image (ha : m.assembly p = .ok a) (h : m.image p = .ok image) :
    image.codeSize = recordSize * a.code.length ∧ ∀ (k : Nat) (i : Instruction),
      a.code[k]? = some i → ∃ r, i.resolve a.link.resolve = .ok r ∧ image.record? k = some r := by
  obtain ⟨a', records, ha', hrecords, rfl⟩ := linked_of_image h
  obtain rfl : a' = a := Except.ok.inj (ha'.symm.trans ha)
  have hforall := Checked.mapM_eq_ok.1 hrecords
  refine ⟨Nat.mul_comm _ _, fun k i hi => ?_⟩
  obtain ⟨r, hr, hresolve⟩ := forall₂_left hforall hi
  refine ⟨r, hresolve, ?_⟩
  have hk : k < a'.code.length := (List.getElem?_eq_some_iff.1 hi).1
  obtain ⟨after, hafter⟩ := drop_records hr a'.static.bytes
  rw [Image.record?, if_pos, hafter]
  · exact Record.decode?_encode r after
  · rw [Assembly.codeSize, Nat.mul_comm a'.code.length]
    exact Nat.mul_le_mul_left _ hk

/-- What an image shows of a module: its first instructions, and those of each function. -/
structure Shown (p : Program) (m : Module) (a : Assembly) (image : Image) (start : List Piece)
    (z : EmissionState) : Prop where
  code : Emission.ModuleCode p m start a.units z
  head : a.head.count = Piece.count start
  first : image.Shows a.link 0 start
  tiles : Stretch.Tile 0 a.code.length a.stretches
  units : ∀ u ∈ a.units, (a.entry u).address = (recordSize * (a.stretch u).first : Nat) ∧
    image.Shows a.link (a.stretch u).first u.code

theorem shown_of_image (h : p.Complete) (hm : m ∈ p.modules) (ha : m.assembly p = .ok a)
    (himage : m.image p = .ok image) (hbytes : image.bytes.length < 2 ^ 31) :
    ∃ start z, Shown p m a image start z := by
  obtain ⟨a', start, z, ha', hbuilt⟩ := built_of_image (h.analysed.static m hm) himage
  obtain rfl : a' = a := Except.ok.inj (ha'.symm.trans ha)
  have hs : image.Shows a'.link 0 (start ++ a'.units.flatMap (·.code)) :=
    Image.shows_of_laid List.toList_toArray (hbuilt.laid _ image.has_bytes hbytes) hbuilt.codeSize
  have hcode : ∀ u ∈ a'.units, ∃ code, u.code = .mark u.label :: code := by
    intro u hu
    obtain ⟨f, body, code, hfor⟩ := hbuilt.code.code u hu
    exact ⟨code, hfor.pieces⟩
  have hcount : Piece.count (a'.units.flatMap (·.code)) =
      (a'.units.map fun u => Piece.count u.code).sum := by
    generalize a'.units = units
    induction units with
    | nil => rfl
    | cons u units ih => rw [List.flatMap_cons, Piece.count_append, ih, List.map_cons, List.sum_cons]
  have hlength : a'.code.length =
      Piece.count start + (a'.units.map fun u => Piece.count u.code).sum := by
    have hsize := (record?_of_image ha himage).1.symm.trans hbuilt.codeSize
    rw [Piece.size, Piece.count_append, hcount] at hsize
    exact Nat.eq_of_mul_eq_mul_left (by decide) hsize
  obtain ⟨htile, hunits⟩ := Assembly.tile_stretches hs.right hcode
  have hhead : a'.head.count = Piece.count start := by
    rw [Assembly.head, hlength, Nat.add_sub_cancel]
  refine ⟨start, z, hbuilt.code, hhead, hs.left, ⟨rfl, ?_⟩, hunits⟩
  rw [hhead, hlength]
  rwa [Nat.zero_add] at htile ⊢

/-- What a verifier finds in the code of a function. -/
theorem Shown.function {start : List Piece} {z : EmissionState} (hs : Shown p m a image start z)
    (h : p.Complete) (hm : m ∈ p.modules)
    (hsmall : ∀ f ∈ p.functions, p.types.bytes f.parameters < 2 ^ 31) {u : Emission.Done}
    (hu : u ∈ a.units) : image.HasOp (a.stretch u).first .ENTER ∧
      (∃ k, k + 1 = (a.stretch u).first + (a.stretch u).count ∧ image.HasOp k .RET) ∧
      image.JumpsInside (a.stretch u) ∧ ∃ depth, image.Balances (a.stretch u) depth := by
  obtain ⟨-, hshows⟩ := hs.units u hu
  obtain ⟨f, body, code, hfor⟩ := hs.code.code u hu
  obtain ⟨⟨n, inner, last, hcode, hlast⟩, hchain⟩ := hfor.closed h hm hsmall a.link
  have hends : u.code = (.mark u.label :: .op (.enter n) :: inner) ++ [.op last] := by
    rw [hfor.pieces, hcode]
    rfl
  have hbegins : u.code = [.mark u.label] ++ .op (.enter n) :: (inner ++ [.op last]) := by
    rw [hfor.pieces, hcode]
    rfl
  obtain ⟨hjumps, hbalances⟩ := hshows.balances hchain hends (.inl hlast) fun _ h => h
  refine ⟨hshows.hasOp hbegins, ⟨_, ?_, hlast ▸ hshows.hasOp hends⟩, hjumps, _, hbalances⟩
  rw [Assembly.stretch, hends, Piece.count_append]
  rfl

/-- What a verifier finds before the code of functions. -/
theorem Shown.bootstrap {start : List Piece} {z : EmissionState} (hs : Shown p m a image start z) :
    (∃ k, k + 1 = a.head.count ∧ image.HasOp k .END) ∧ image.JumpsInside a.head ∧
      ∃ depth, image.Balances a.head depth := by
  obtain ⟨⟨before, hends⟩, e, hchain⟩ := hs.code.starts.chain a.link
  have hhead : a.head = ⟨0, Piece.count start⟩ := by
    rw [← hs.head]
    rfl
  have hfinish := hs.first.hasOp hends
  obtain ⟨hjumps, hbalances⟩ := hs.first.balances hchain hends (.inr rfl) fun _ h => h.elim
  rw [hhead]
  refine ⟨⟨Piece.count before, ?_, ?_⟩, hjumps, _, hbalances⟩
  · rw [hends, Piece.count_append]
    rfl
  · rwa [Nat.zero_add] at hfinish

end Module

/-- A module whose function `DOWN` calls itself until its argument is zero. -/
def Raw.Program.down : Raw.Program :=
  let place : Location := default
  let n : Raw.Expr := .name place "N"
  let less : Raw.Expr := .binary place .subtract n (.integer place 1)
  let down : Raw.Function := ⟨place, "DOWN", some (.scalar .integer),
    .user [⟨place, "N", .scalar .integer⟩]
      [.choose place (.branch (.binary place .greater n (.integer place 0))
        [.return place (some (.call place "DOWN" [less]))] .done),
        .return place (some n)]⟩
  let main : Raw.Function := ⟨place, "MAIN", none,
    .user [] [.call place (.call place "DOWN" [.integer place 3])]⟩
  ⟨[], [], [], [⟨place, "M", "NODE", [], [⟨place, [], [main, down]⟩]⟩], []⟩

/-- What `Raw.Program.down` means. -/
def Program.down : Program := (analyse .down).toOption.getD default

end ChannelBasic
