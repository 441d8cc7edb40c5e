import ChannelBasic.Proofs.Emission.Code
import ChannelBasic.Proofs.Machine.Steps

/-!
# Proofs/Emission/Placement — code as it lies in memory

`l.Laid m a pieces` says that some code lies in memory from an address on: the record of each
instruction where the instruction comes, and each label bound to where its mark stands.  Code laid
out in two parts is laid out, and the other way round (`laid_append`); it stays laid out while its
own bytes stay what they are (`Laid.same`).  **Assembled and linked code is laid out**
(`laid_of_assembleFrom`).
-/

namespace ChannelBasic

open Code

namespace Piece

/-- How many instructions there are among some pieces. -/
def count : List Piece → Nat
  | [] => 0
  | .op _ :: rest => count rest + 1
  | .mark _ :: rest => count rest

/-- Bytes of the instructions among some pieces. -/
def size (pieces : List Piece) : Nat := recordSize * count pieces

/-- The labels that stand among some pieces. -/
def marks : List Piece → List Label
  | [] => []
  | .op _ :: rest => marks rest
  | .mark l :: rest => l :: marks rest

@[simp] theorem count_append (xs ys : List Piece) : count (xs ++ ys) = count xs + count ys := by
  induction xs with
  | nil => simp [count]
  | cons x xs ih =>
    cases x with
    | op i => simp only [List.cons_append, count, ih]; omega
    | mark l => simp only [List.cons_append, count, ih]

@[simp] theorem size_append (xs ys : List Piece) : size (xs ++ ys) = size xs + size ys := by
  rw [size, count_append, Nat.mul_add]
  rfl

@[simp] theorem size_op (i : Instruction) (xs : List Piece) :
    size (.op i :: xs) = recordSize + size xs := by
  rw [size, count, Nat.mul_add, Nat.add_comm]
  rfl

@[simp] theorem size_mark (l : Label) (xs : List Piece) : size (.mark l :: xs) = size xs := rfl

@[simp] theorem size_nil : size [] = 0 := rfl

@[simp] theorem marks_append (xs ys : List Piece) : marks (xs ++ ys) = marks xs ++ marks ys := by
  induction xs with
  | nil => rfl
  | cons x xs ih => cases x <;> simp [marks, ih]

/-- A label that stands among some pieces has pieces before and after it. -/
theorem exists_of_mem_marks {l : Label} {pieces : List Piece} (h : l ∈ marks pieces) :
    ∃ before after, pieces = before ++ .mark l :: after := by
  induction pieces with
  | nil => cases h
  | cons x xs ih =>
    cases x with
    | op i =>
      obtain ⟨before, after, rfl⟩ := ih h
      exact ⟨.op i :: before, after, rfl⟩
    | mark l' =>
      obtain rfl | h := List.mem_cons.1 h
      · exact ⟨[], xs, rfl⟩
      · obtain ⟨before, after, rfl⟩ := ih h
        exact ⟨.mark l' :: before, after, rfl⟩

end Piece

namespace Code.Link

variable {l : Link} {m m' : Memory} {a : Int} {xs ys pieces : List Piece} {i : Instruction}

/-- Code that lies in memory from an address on. -/
def Laid (l : Link) (m : Memory) (a : Int) : List Piece → Prop
  | [] => True
  | .mark label :: rest =>
    (∃ x, l.labels.address? label = some x ∧ x.toInt = a) ∧ Laid l m a rest
  | .op i :: rest =>
    (∃ r, i.resolve l.resolve = .ok r ∧ m.Has a r.encode) ∧ Laid l m (a + recordSize) rest

instance Laid.decidable (l : Link) (m : Memory) : (a : Int) → (pieces : List Piece) →
    Decidable (l.Laid m a pieces)
  | _, [] => isTrue trivial
  | a, .mark label :: rest =>
    have := Laid.decidable l m a rest
    match h : l.labels.address? label with
    | some x => decidable_of_iff (x.toInt = a ∧ l.Laid m a rest) (by simp [Laid, h])
    | none => isFalse (by simp [Laid, h])
  | a, .op i :: rest =>
    have := Laid.decidable l m (a + recordSize) rest
    match h : i.resolve l.resolve with
    | .ok r => decidable_of_iff (m.Has a r.encode ∧ l.Laid m (a + recordSize) rest)
        (by simp [Laid, h])
    | .error _ => isFalse (by simp [Laid, h])

theorem laid_append :
    l.Laid m a (xs ++ ys) ↔ l.Laid m a xs ∧ l.Laid m (a + Piece.size xs) ys := by
  induction xs generalizing a with
  | nil => simp [Laid]
  | cons x xs ih =>
    cases x with
    | mark label => simp only [List.cons_append, Laid, ih, Piece.size_mark, and_assoc]
    | op i =>
      simp only [List.cons_append, Laid, ih, Piece.size_op, and_assoc, Nat.cast_add, add_assoc]

theorem Laid.left (h : l.Laid m a (xs ++ ys)) : l.Laid m a xs := (laid_append.1 h).1

theorem Laid.right (h : l.Laid m a (xs ++ ys)) : l.Laid m (a + Piece.size xs) ys :=
  (laid_append.1 h).2

/-- **Code stays laid out while its own bytes stay what they are.** -/
theorem Laid.same {P : Int → Prop} (h : l.Laid m a pieces) (hs : m.Same P m')
    (hP : ∀ x, a ≤ x → x < a + Piece.size pieces → P x) : l.Laid m' a pieces := by
  induction pieces generalizing a with
  | nil => trivial
  | cons x xs ih =>
    cases x with
    | mark label => exact ⟨h.1, ih h.2 hP⟩
    | op i =>
      rw [Piece.size_op] at hP
      obtain ⟨⟨r, hr, hhas⟩, hrest⟩ := h
      refine ⟨⟨r, hr, hhas.same hs fun x hx hx' => hP x hx ?_⟩, ih hrest fun x hx hx' => ?_⟩
      · rw [Record.length_encode] at hx'
        omega
      · exact hP x (by omega) (by omega)

/-- An instruction is resolved operand by operand. -/
theorem resolve_eq_ok {r : Record} (h : i.resolve l.resolve = .ok r) : ∃ x0 x1 x2,
    l.resolve i.x0 = .ok x0 ∧ l.resolve i.x1 = .ok x1 ∧ l.resolve i.x2 = .ok x2 ∧
      r = .of i.opcode i.p0 i.p1 x0 x1 x2 := by
  obtain ⟨x0, h0, h⟩ := Checked.bind_eq_ok.1 h
  obtain ⟨x1, h1, h⟩ := Checked.bind_eq_ok.1 h
  obtain ⟨x2, h2, h⟩ := Checked.bind_eq_ok.1 h
  exact ⟨x0, x1, x2, h0, h1, h2, (Checked.pure_eq_ok.1 h).symm⟩

/-- The first instruction of code that lies at the instruction pointer is the next one to run. -/
theorem Laid.at {m : Machine} {rest : List Piece} (h : l.Laid m.memory m.ip (.op i :: rest)) :
    ∃ x0 x1 x2, l.resolve i.x0 = .ok x0 ∧ l.resolve i.x1 = .ok x1 ∧ l.resolve i.x2 = .ok x2 ∧
      m.At (.of i.opcode i.p0 i.p1 x0 x1 x2) := by
  obtain ⟨⟨r, hr, hhas⟩, -⟩ := h
  obtain ⟨x0, x1, x2, h0, h1, h2, rfl⟩ := resolve_eq_ok hr
  exact ⟨x0, x1, x2, h0, h1, h2, hhas⟩

/-- A label in code is bound to the address of what follows its mark. -/
theorem Laid.address (h : l.Laid m a pieces) {label : Label} {before after : List Piece}
    (hp : pieces = before ++ .mark label :: after) : ∃ x,
      l.labels.address? label = some x ∧ x.toInt = a + Piece.size before ∧
        l.Laid m x.toInt after := by
  subst hp
  obtain ⟨⟨x, hx, hxa⟩, hafter⟩ := h.right
  exact ⟨x, hx, hxa, hxa ▸ hafter⟩

end Code.Link

/-! ## Assembled code -/

theorem Labels.address?_bind {ls ls' : Labels} {l : Label} {address : Int32}
    (h : ls.bind l address = .ok ls') : ls'.address? l = some address ∧
      ∀ k x, ls.address? k = some x → ls'.address? k = some x := by
  unfold Labels.bind at h
  split at h
  next hnone =>
    obtain rfl := Except.ok.inj h
    have hlt : l.number < ls.addresses.size := by
      by_contra hge
      rw [Array.getElem?_eq_none (Nat.le_of_not_lt hge)] at hnone
      cases hnone
    refine ⟨by simp [Labels.address?, hlt], fun k x hx => ?_⟩
    unfold Labels.address? at hx ⊢
    rw [Array.getElem?_setIfInBounds]
    split
    next heq =>
      rw [← heq, hnone] at hx
      cases hx
    next => exact hx
  next => cases h
  next => cases h

/-- **A label that is bound stays bound.** -/
theorem address?_of_assembleFrom {pieces : List Piece} {ls ls' : Labels} {a : Nat}
    {code : List Instruction} (h : assembleFrom ls a pieces = .ok (code, ls')) {k : Label}
    {x : Int32} (hx : ls.address? k = some x) : ls'.address? k = some x := by
  induction pieces generalizing ls a code with
  | nil =>
    obtain ⟨rfl, rfl⟩ := Prod.mk.inj (Except.ok.inj h)
    exact hx
  | cons p rest ih =>
    cases p with
    | mark l =>
      obtain ⟨ls₁, hbind, h⟩ := Checked.bind_eq_ok.1 h
      exact ih h ((Labels.address?_bind hbind).2 k x hx)
    | op i =>
      obtain ⟨⟨code', ls₁⟩, hrest, h⟩ := Checked.bind_eq_ok.1 h
      obtain ⟨rfl, rfl⟩ := Prod.mk.inj (Checked.pure_eq_ok.1 h)
      exact ih hrest hx

theorem length_of_assembleFrom {pieces : List Piece} {ls ls' : Labels} {a : Nat}
    {code : List Instruction} (h : assembleFrom ls a pieces = .ok (code, ls')) :
    code.length = Piece.count pieces := by
  induction pieces generalizing ls a code with
  | nil =>
    obtain ⟨rfl, rfl⟩ := Prod.mk.inj (Except.ok.inj h)
    rfl
  | cons p rest ih =>
    cases p with
    | mark l =>
      obtain ⟨ls₁, -, h⟩ := Checked.bind_eq_ok.1 h
      exact ih h
    | op i =>
      obtain ⟨⟨code', ls₁⟩, hrest, h⟩ := Checked.bind_eq_ok.1 h
      obtain ⟨rfl, rfl⟩ := Prod.mk.inj (Checked.pure_eq_ok.1 h)
      rw [List.length_cons, ih hrest, Piece.count]

/-- **Code that has been assembled and linked lies where its bytes do.** -/
theorem laid_of_assembleFrom {l : Link} {m : Memory} {pieces : List Piece} {ls : Labels} {a : Nat}
    {code : List Instruction} {records : List Record}
    (h : assembleFrom ls a pieces = .ok (code, l.labels)) (hr : l.records code = .ok records)
    (hm : m.Has a (records.flatMap Record.encode))
    (ha : a + Piece.size pieces < 2 ^ 31) : l.Laid m a pieces := by
  induction pieces generalizing ls a code records with
  | nil => trivial
  | cons p rest ih =>
    cases p with
    | mark label =>
      obtain ⟨ls₁, hbind, h⟩ := Checked.bind_eq_ok.1 h
      refine ⟨⟨Int32.ofNat a, ?_, Int32.toInt_ofNat_of_lt (by omega)⟩, ih h hr hm ha⟩
      exact address?_of_assembleFrom h (Labels.address?_bind hbind).1
    | op i =>
      obtain ⟨⟨code', ls₁⟩, hrest, h⟩ := Checked.bind_eq_ok.1 h
      obtain ⟨rfl, rfl⟩ := Prod.mk.inj (Checked.pure_eq_ok.1 h)
      rw [Link.records, Checked.mapM_eq_ok] at hr
      obtain _ | ⟨hr, hrs⟩ := hr
      rw [List.flatMap_cons, Memory.has_append, Record.length_encode] at hm
      rw [Piece.size_op] at ha
      refine ⟨⟨_, hr, hm.1⟩, ?_⟩
      have hih := ih hrest (Checked.mapM_eq_ok.2 hrs) (by exact_mod_cast hm.2) (by omega)
      exact_mod_cast hih

end ChannelBasic
