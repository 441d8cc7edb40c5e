import ChannelBasic.Proofs.Emission.Units
import ChannelBasic.Proofs.Typing.Basic

/-!
# Proofs/Emission/References — what the symbolic operands in code stand for

An operand that becomes a number only when code is linked stands for a text, for the name of a
native function, or for bytes of a data field.  What a body refers to is said of the body alone, in
the order in which its code is written down (`UserBody.references`).  **The instructions of its code
that have such an operand are made for these, one by one** (`EmissionContext.Body.references`), and
every text fits its record (`UserBody.fits_references`).
-/

namespace ChannelBasic

open Code

/-- What an operand that is no number yet stands for. -/
inductive Reference where
  /-- A text, in a record of some capacity. -/
  | text (content : String) (capacity : Nat)
  /-- The name of a native function. -/
  | native (name : String)
  /-- Bytes of a data field, from one of them on. -/
  | field (index within : Nat)
  deriving DecidableEq, Repr

/-- A text has no more code units than its record has room for. -/
def Reference.Fits : Reference → Prop
  | .text content capacity => Utf16.units content ≤ capacity
  | .native _ | .field _ _ => True

/-! ## The references of a body -/

/-- A literal of a type refers to its text, if it is one. -/
def Literal.references (types : TypeTable) (type : Option TypeId) : Literal → List Reference
  | .text content => [.text content ((type.bind types.capacity?).getD (Utf16.units content))]
  | .boolean _ | .integral _ | .real _ => []

/-- The call of a native function refers to its name. -/
def Program.nativeReferences (p : Program) (callee : Option Nat) : List Reference :=
  match callee.bind (p.functions[·]?) with
  | some f => if f.isUser then [] else [.native f.name]
  | none => []

namespace Expr

/-- The data field that an expression stands for a part of, and where in the field the part
begins. -/
def field? (p : Program) : Expr → Option (Nat × Nat)
  | .name _ _ (some (.dataField k)) => some (k, 0)
  | .member _ target _ (some r) => do
    let (k, n) ← target.field? p
    let slot ← p.structField? r
    return (k, n + slot.offset)
  | _ => none

/-- What is read from a place, put there or pointed to refers to a data field, if the place lies in
one. -/
def fieldReferences (p : Program) (e : Expr) : List Reference :=
  (e.field? p).toList.map fun x => .field x.1 x.2

end Expr

mutual

/-- What an expression refers to, in the order of evaluation. -/
def Expr.references (p : Program) : Expr → List Reference
  | .literal i v => v.references p.types i.type
  | .name i _ (some (.constant k)) =>
    ((p.constantValue k).map (·.references p.types (i.type.map p.types.base))).getD []
  | .name i title decl => (Expr.name i title decl).fieldReferences p
  | .member i target field decl => (Expr.member i target field decl).fieldReferences p
  | .call _ _ arguments callee => Expr.referencesAll p arguments ++ p.nativeReferences callee
  | .unary _ _ operand | .cast _ operand => operand.references p
  | .binary _ _ left right => right.references p ++ left.references p
  | .pointer _ target (some _) => target.references p
  | .pointer _ target none =>
    match target.fold p.types p.constantValue with
    | some (.text content) => (Literal.text content).references p.types target.type?
    | _ => target.fieldReferences p

/-- What arguments refer to, the last argument being evaluated first. -/
def Expr.referencesAll (p : Program) : List Expr → List Reference
  | [] => []
  | e :: rest => Expr.referencesAll p rest ++ e.references p

end

/-- What an expression refers to, if there is one. -/
def Expr.referencesOf (p : Program) : Option Expr → List Reference
  | some e => e.references p
  | none => []

/-- A variable starts with an empty text in each of its strings. -/
def UserBody.emptyTexts (body : UserBody) (p : Program) (index : Nat) : List Reference :=
  match (body.locals[index]?).bind (·.type) with
  | some t => (p.strings t).flatMap fun r => [.text "" r.2]
  | none => []

mutual

/-- What a statement refers to, in the order in which its code is written down. -/
def Stmt.references (p : Program) (body : UserBody) : Stmt → List Reference
  | .var _ _ (some value) => value.references p
  | .var _ index none => body.emptyTexts p index
  | .assign _ value target => value.references p ++ target.fieldReferences p
  | .invoke _ call => call.references p
  | .return _ value => Expr.referencesOf p value
  | .choose _ branches => branches.references p body
  | .count _ counter start finish step inner _ =>
    let counted := counter.fieldReferences p
    finish.references p ++ Expr.referencesOf p step ++ start.references p ++ counted ++ counted ++
      Stmt.referencesAll p body inner ++ counted ++ counted
  | .loop _ none inner => Stmt.referencesAll p body inner
  | .loop _ (some c) inner =>
    if c.post then Stmt.referencesAll p body inner ++ c.value.references p
    else c.value.references p ++ Stmt.referencesAll p body inner

/-- What statements refer to. -/
def Stmt.referencesAll (p : Program) (body : UserBody) : List Stmt → List Reference
  | [] => []
  | s :: rest => s.references p body ++ Stmt.referencesAll p body rest

/-- What the branches of an `IF` refer to. -/
def Branches.references (p : Program) (body : UserBody) : Branches → List Reference
  | .done => []
  | .otherwise inner => Stmt.referencesAll p body inner
  | .branch condition inner rest =>
    condition.references p ++ Stmt.referencesAll p body inner ++ rest.references p body

end

/-- What the code of a function refers to. -/
def UserBody.references (body : UserBody) (p : Program) : List Reference :=
  body.implicit.flatMap (body.emptyTexts p) ++ Stmt.referencesAll p body body.statements

/-! ## Instructions that refer to something -/

/-- Whether an operand is an offset into the static data or into the data sets. -/
def Code.Operand.isOffset : Operand → Bool
  | .static _ | .dynamic _ => true
  | .value _ | .label _ => false

/-- Whether an operand of an instruction is such an offset. -/
def Code.Instruction.isReferring (i : Instruction) : Bool :=
  i.x0.isOffset || i.x1.isOffset || i.x2.isOffset

/-- An instruction that reads a place, writes to it or pushes its address. -/
def Place.Accesses (place : Place) (i : Instruction) : Prop :=
  (∃ n, i = place.load n ∨ i = place.store n) ∨ i = place.pointer

/-- The instruction is made for what a reference stands for. -/
def EmissionState.Refers (z : EmissionState) (fields : List Slot) (i : Instruction) :
    Reference → Prop
  | .text content capacity => ∃ x n, z.Text content capacity x ∧
      (i = .load .global n x ∨ i = .load .immediate n x)
  | .native name => ∃ x, z.Text name (Utf16.units name) x ∧ i = .call .native x
  | .field index within => ∃ f, fields[index]? = some f ∧
      (Place.data (f.offset + within)).Accesses i

namespace Piece

/-- The instructions in some code that refer to something. -/
def referring (code : List Piece) : List Instruction :=
  code.filterMap fun
    | .op i => if i.isReferring then some i else none
    | .mark _ => none

@[simp] theorem referring_nil : referring [] = [] := rfl

@[simp] theorem referring_append (xs ys : List Piece) :
    referring (xs ++ ys) = referring xs ++ referring ys := List.filterMap_append

@[simp] theorem referring_mark (l : Label) (xs : List Piece) :
    referring (.mark l :: xs) = referring xs := rfl

theorem referring_op {i : Instruction} (hi : i.isReferring = false) (xs : List Piece) :
    referring (.op i :: xs) = referring xs := by
  rw [referring, List.filterMap_cons]
  simp only [hi]
  rfl

theorem referring_reference {i : Instruction} (hi : i.isReferring = true) (xs : List Piece) :
    referring (.op i :: xs) = i :: referring xs := by
  rw [referring, List.filterMap_cons]
  simp only [hi]
  rfl

theorem referring_frame {offset : Int} {i : Instruction}
    (hi : (Place.frame offset).Accesses i) (xs : List Piece) :
    referring (.op i :: xs) = referring xs := by
  obtain ⟨n, rfl | rfl⟩ | rfl := hi <;> exact referring_op rfl xs

@[simp] theorem referring_store_frame (offset : Int) (n : Nat) (xs : List Piece) :
    referring (.op ((Place.frame offset).store n) :: xs) = referring xs :=
  referring_op rfl xs

@[simp] theorem referring_branchOn (value : Bool) (l : Label) (xs : List Piece) :
    referring (Emission.branchOn value l :: xs) = referring xs := referring_op rfl xs

@[simp] theorem referring_jump (l : Label) (xs : List Piece) :
    referring (.op (.jump l) :: xs) = referring xs := referring_op rfl xs

@[simp] theorem referring_leave (ctx : EmissionContext) : referring (Emission.leave ctx) = [] := rfl

@[simp] theorem referring_roomFor (returns : Option TypeId) (size : Nat) :
    referring (roomFor returns size) = [] := by
  unfold roomFor
  split <;> rfl

@[simp] theorem referring_dropped (bytes : Nat) : referring (dropped bytes) = [] := by
  unfold dropped
  split <;> rfl

@[simp] theorem referring_tail (op : UnaryOp) (kind : ValueType) (n : Nat) :
    referring (op.tail kind n) = [] := by
  cases op <;> rfl

/-- Pieces of code, one after the other, refer to what each of them refers to. -/
theorem forall₂_flatten {α : Type} {R : Instruction → Reference → Prop} {xs : List α}
    {codes : List (List Piece)} {references : α → List Reference}
    (h : List.Forall₂ (fun x code => List.Forall₂ R (referring code) (references x)) xs codes) :
    List.Forall₂ R (referring codes.flatten) (xs.flatMap references) := by
  induction h with
  | nil => exact .nil
  | cons hx _ ih =>
    rw [List.flatten_cons, referring_append, List.flatMap_cons]
    exact List.rel_append hx ih

end Piece

section Emission

variable {ctx : EmissionContext} {z : EmissionState} {e : Expr} {place : Place} {i : Instruction}

/-- A place lies in the frame or in a data field. -/
theorem EmissionContext.field?_of_place (h : ctx.place? e = some place) :
    (e.field? ctx.program = none ∧ ∃ offset, place = .frame offset) ∨
      ∃ k n f, e.field? ctx.program = some (k, n) ∧ ctx.fields[k]? = some f ∧
        place = .data (f.offset + n) := by
  induction e using Expr.induct generalizing place with
  | name i title decl =>
    cases decl with
    | none => cases h
    | some d =>
      cases d with
      | constant k => cases h
      | localVar k | argument k =>
        obtain ⟨v, -, rfl⟩ := Option.map_eq_some_iff.1 h
        exact .inl ⟨rfl, _, rfl⟩
      | dataField k =>
        obtain ⟨f, hf, rfl⟩ := Option.map_eq_some_iff.1 h
        exact .inr ⟨k, 0, f, rfl, hf, by simp⟩
  | member i target field r ih =>
    cases r with
    | none => cases h
    | some r =>
      obtain ⟨base, hbase, h⟩ := Option.bind_eq_some_iff.1 h
      obtain ⟨slot, hslot, h⟩ := Option.bind_eq_some_iff.1 h
      obtain rfl := Option.some.inj h
      obtain ⟨hnone, offset, rfl⟩ | ⟨k, n, f, hsome, hf, rfl⟩ := ih hbase
      · exact .inl ⟨by simp [Expr.field?, hnone], _, rfl⟩
      · refine .inr ⟨k, n + slot.offset, f, by simp [Expr.field?, hsome, hslot], hf, ?_⟩
        rw [Place.plus, Nat.cast_add, add_assoc]
  | literal | call | unary | binary | cast | pointer => cases h

/-- **An instruction that accesses a place refers to the field that the place lies in.** -/
theorem EmissionContext.refers_place (h : ctx.place? e = some place) (hi : place.Accesses i) :
    List.Forall₂ (z.Refers ctx.fields) (Piece.referring [.op i])
      (e.fieldReferences ctx.program) := by
  unfold Expr.fieldReferences
  obtain ⟨hnone, offset, rfl⟩ | ⟨k, n, f, hsome, hf, rfl⟩ := ctx.field?_of_place h
  · rw [hnone, Piece.referring_frame hi]
    exact .nil
  · have hreferring : i.isReferring = true := by obtain ⟨n, rfl | rfl⟩ | rfl := hi <;> rfl
    rw [hsome, Piece.referring_reference hreferring]
    exact .cons ⟨f, hf, hi⟩ .nil

theorem EmissionContext.references_of_place (h : ctx.place? e = some place) :
    e.references ctx.program = e.fieldReferences ctx.program := by
  cases e with
  | name i title decl =>
    match decl, h with
    | some (.localVar k), _ | some (.argument k), _ | some (.dataField k), _ => rfl
  | member => rfl
  | literal | call | unary | binary | cast | pointer => cases h

theorem EmissionContext.fold_of_place (h : ctx.place? e = some place) :
    e.fold ctx.program.types ctx.program.constantValue = none := by
  cases e with
  | name i title decl =>
    match decl, h with
    | some (.localVar k), _ | some (.argument k), _ | some (.dataField k), _ => rfl
  | member => rfl
  | literal | call | unary | binary | cast | pointer => cases h

theorem EmissionState.Text.refers {content : String} {capacity : Nat} {x : Operand} {fields : List Slot}
    (hx : z.Text content capacity x)
    (hi : ∃ n, i = .load .global n x ∨ i = .load .immediate n x) :
    List.Forall₂ (z.Refers fields) (Piece.referring [.op i]) [.text content capacity] := by
  obtain ⟨n, hi⟩ := hi
  have hreferring : i.isReferring = true := by
    obtain ⟨t, -, -, -, rfl⟩ := hx
    obtain rfl | rfl := hi <;> rfl
  rw [Piece.referring_reference hreferring]
  exact .cons ⟨x, n, hx, hi⟩ .nil

theorem Literal.Loads.references {types : TypeTable} {t : TypeId} {n : Nat} {v : Literal}
    {fields : List Slot} (h : v.Loads types z t n i) :
    List.Forall₂ (z.Refers fields) (Piece.referring [.op i]) (v.references types (some t)) := by
  cases v with
  | text content =>
    obtain ⟨x, hx, rfl⟩ := h
    exact hx.refers ⟨_, .inl rfl⟩
  | boolean | integral | real =>
    obtain rfl := h
    exact .nil

theorem BinaryOp.Emits.isReferring {op : BinaryOp} {kind : ValueType} {left right : Nat}
    {P : Nat → Prop} (h : op.Emits kind left right P i) : i.isReferring = false := by
  obtain ⟨c, -, rfl⟩ | ⟨-, code, n, -, -, rfl⟩ := h <;> rfl

theorem EmissionState.Calls.references {f : Function} {number : Nat} {fields : List Slot}
    (hf : ctx.program.functions[number]? = some f) (h : z.Calls f number i) :
    List.Forall₂ (z.Refers fields) (Piece.referring [.op i])
      (ctx.program.nativeReferences (some number)) := by
  unfold Calls at h
  rw [Program.nativeReferences, Option.bind_some, hf]
  dsimp only
  split at h
  next hbody =>
    obtain ⟨x, hx, rfl⟩ := h
    have hreferring : (Instruction.call .native x).isReferring = true := by
      obtain ⟨t, -, -, -, rfl⟩ := hx
      rfl
    rw [Piece.referring_reference hreferring, Function.isUser, Function.user?, hbody]
    exact .cons ⟨x, hx, rfl⟩ .nil
  next hbody =>
    obtain ⟨l, -, rfl⟩ := h
    rw [Piece.referring_op rfl, Function.isUser, Function.user?, hbody]
    exact .nil

mutual

/-- **What the code of an expression refers to.** -/
theorem Expr.Loads.references : (e : Expr) → {code : List Piece} → e.Loads ctx z code →
    List.Forall₂ (z.Refers ctx.fields) (Piece.referring code) (e.references ctx.program)
  | .literal i v, code, ⟨t, n, last, ht, _, hlast, hcode⟩ => by
    rw [hcode, Expr.references, ht]
    exact hlast.references
  | .name i title (some (.constant k)), code, ⟨t, v, n, last, ht, hv, _, hlast, hcode⟩ => by
    rw [hcode, Expr.references, ht, hv]
    exact hlast.references
  | .name i title none, code, ⟨kind, n, place, _, hplace, hcode⟩
  | .name i title (some (.localVar k)), code, ⟨kind, n, place, _, hplace, hcode⟩
  | .name i title (some (.argument k)), code, ⟨kind, n, place, _, hplace, hcode⟩
  | .name i title (some (.dataField k)), code, ⟨kind, n, place, _, hplace, hcode⟩
  | .member i target field decl, code, ⟨kind, n, place, _, hplace, hcode⟩ => by
    rw [hcode, EmissionContext.references_of_place hplace]
    exact ctx.refers_place hplace (.inl ⟨n, .inl rfl⟩)
  | .call i title arguments callee, code,
      ⟨number, f, size, pushed, bytes, last, hnumber, hf, _, hpushed, hlast, hcode⟩ => by
    rw [hcode, hnumber, Expr.references]
    simp only [Piece.referring_append, Piece.referring_roomFor, Piece.referring_dropped,
      List.nil_append, List.append_nil]
    exact List.rel_append (Expr.LoadsAll.references arguments hpushed) (hlast.references hf)
  | .unary i op operand, code, ⟨kind, n, first, hfirst, _, hcode⟩ => by
    rw [hcode, Piece.referring_append, Piece.referring_tail, List.append_nil]
    exact Expr.Loads.references operand hfirst
  | .binary i op left right, code,
      ⟨kind, l, kind', r, first, second, last, _, _, hfirst, hsecond, hlast, hcode⟩ => by
    rw [hcode, Piece.referring_append, Piece.referring_append, Piece.referring_op hlast.isReferring,
      Piece.referring_nil, List.append_nil]
    exact List.rel_append (Expr.Loads.references right hfirst) (Expr.Loads.references left hsecond)
  | .cast i operand, code, ⟨source, n, target, n', first, hfirst, _, _, hcode⟩ => by
    rw [hcode, Piece.referring_append, Piece.referring_op rfl, Piece.referring_nil, List.append_nil]
    exact Expr.Loads.references operand hfirst
  | .pointer i target (some offset), code, ⟨kind, n, first, _, hfirst, hcode⟩ => by
    rw [hcode, Piece.referring_append, Piece.referring_op rfl, Piece.referring_op rfl,
      Piece.referring_nil, List.append_nil]
    exact Expr.Loads.references target hfirst
  | .pointer i target none, code, h => by
    rw [Expr.references]
    obtain ⟨place, hplace, rfl⟩ | ⟨content, capacity, x, ⟨-, hfold, t, ht, rfl⟩, hx, rfl⟩ := h
    · rw [EmissionContext.fold_of_place hplace]
      exact ctx.refers_place hplace (.inr rfl)
    · rw [hfold, ht]
      exact hx.refers ⟨_, .inr rfl⟩

/-- What the code of arguments refers to. -/
theorem Expr.LoadsAll.references : (es : List Expr) → {code : List Piece} → {bytes : Nat} →
    Expr.LoadsAll ctx z code bytes es →
    List.Forall₂ (z.Refers ctx.fields) (Piece.referring code) (Expr.referencesAll ctx.program es)
  | [], code, bytes, ⟨hcode, _⟩ => by
    rw [hcode]
    exact .nil
  | e :: rest, code, bytes, ⟨later, k, first, kind, n, hlater, hfirst, _, hcode, _⟩ => by
    rw [hcode, Piece.referring_append]
    exact List.rel_append (Expr.LoadsAll.references rest hlater) (Expr.Loads.references e hfirst)

end

/-- A variable starts with a record in each of its strings. -/
theorem EmissionContext.Initialises.references {index : Nat} {code : List Piece}
    (h : ctx.Initialises z index code) :
    List.Forall₂ (z.Refers ctx.fields) (Piece.referring code)
      (ctx.body.emptyTexts ctx.program index) := by
  obtain ⟨v, t, n, zeros, records, hv, ht, -, hzeros, hrecords, rfl⟩ := h
  have hnone : Piece.referring zeros = [] := by
    obtain rfl | ⟨rfl, -⟩ := hzeros <;> rfl
  rw [Piece.referring_append, hnone, List.nil_append, UserBody.emptyTexts, hv, Option.bind_some, ht]
  refine Piece.forall₂_flatten (hrecords.imp fun r pieces hr => ?_)
  obtain ⟨x, hx, rfl⟩ := hr
  exact hx.refers ⟨_, .inl rfl⟩

theorem EmissionContext.LoadsStep.references {counter : Expr} {code : List Piece}
    {step : Option Expr} (h : ctx.LoadsStep z counter code step) :
    List.Forall₂ (z.Refers ctx.fields) (Piece.referring code)
      (Expr.referencesOf ctx.program step) := by
  cases step with
  | some e => exact Expr.Loads.references e h
  | none =>
    obtain ⟨t, n, last, -, -, rfl, rfl⟩ := h
    exact .nil

/-- A counting loop refers to what its parts refer to, and accesses its counter. -/
theorem referring_countCode (kind : ValueType) (n : Nat) (place : Place) (temps : Temps)
    (head exit : Label) (finish step start load load' body : List Piece) :
    Piece.referring
        (countCode kind n place temps head exit finish step start load load' body) =
      Piece.referring finish ++ Piece.referring step ++ Piece.referring start ++
        Piece.referring [.op (place.store n)] ++ Piece.referring load ++ Piece.referring body ++
          Piece.referring load' ++ Piece.referring [.op (place.store n)] := by
  have between : Piece.referring [.op (.dup (Word.size32 n)),
      .op ((Place.frame temps.step).store n), .op (.unary .SIGN kind (Word.size32 n)),
      .op ((Place.frame temps.sign).store 1)] = [] := rfl
  have test : Piece.referring [
      .op (.binary .SUB kind (Word.size32 n) (Word.size32 n) (Word.size32 n)),
      .op (.unary .SIGN kind (Word.size32 n)), .op ((Place.frame temps.sign).load 1),
      .op (.compare .byte .equal 1 1), Emission.branchOn true exit] = [] := rfl
  have next : Piece.referring
      [.op (.binary .ADD kind (Word.size32 n) (Word.size32 n) (Word.size32 n))] = [] := rfl
  have limit : Piece.referring [.op ((Place.frame temps.finish).load n)] = [] := rfl
  have stride : Piece.referring [.op ((Place.frame temps.step).load n)] = [] := rfl
  simp only [countCode, Piece.referring_append, Piece.referring_store_frame, Piece.referring_mark,
    Piece.referring_jump, Piece.referring_nil, between, test, next, limit, stride, List.append_nil,
    List.nil_append, List.append_assoc]

mutual

/-- **What the code of a statement refers to.** -/
theorem Stmt.Emits.references : (s : Stmt) → {code : List Piece} → s.Emits ctx z code →
    List.Forall₂ (z.Refers ctx.fields) (Piece.referring code) (s.references ctx.program ctx.body)
  | .var l index (some value), code, ⟨v, t, n, first, _, _, _, hfirst, hcode⟩ => by
    rw [hcode, Piece.referring_append, Piece.referring_store_frame, Piece.referring_nil,
      List.append_nil]
    exact Expr.Loads.references value hfirst
  | .var l index none, code, h => EmissionContext.Initialises.references h
  | .assign l value target, code, ⟨first, kind, n, place, hfirst, _, hplace, hcode⟩ => by
    rw [hcode, Piece.referring_append]
    exact List.rel_append (Expr.Loads.references value hfirst)
      (ctx.refers_place hplace (.inl ⟨n, .inr rfl⟩))
  | .invoke l call, code, ⟨first, hfirst, hcode⟩ => by
    have hreferences := Expr.Loads.references call hfirst
    obtain ⟨-, rfl⟩ | ⟨kind, n, -, rfl⟩ := hcode
    · exact hreferences
    · rw [Piece.referring_append, Piece.referring_op rfl, Piece.referring_nil, List.append_nil]
      exact hreferences
  | .return l none, code, hcode => by
    rw [show code = Emission.leave ctx from hcode, Piece.referring_leave]
    exact .nil
  | .return l (some e), code, ⟨t, n, first, _, _, hfirst, hcode⟩ => by
    rw [hcode]
    simp only [Piece.referring_append, Piece.referring_store_frame, Piece.referring_nil,
      Piece.referring_leave, List.append_nil]
    exact Expr.Loads.references e hfirst
  | .choose l branches, code, ⟨exit, first, hfirst, hcode⟩ => by
    rw [hcode, Piece.referring_append, Piece.referring_mark, Piece.referring_nil, List.append_nil]
    exact Branches.Emits.references branches hfirst
  | .count l counter start finish step inner temps, code,
      ⟨kind, n, place, head, exit, finishCode, stepCode, startCode, load, load', bodyCode, _, hplace,
        hfinish, hstep, hstart, hload, hload', hbody, hcode⟩ => by
    have hcounter {code : List Piece} (h : counter.Loads ctx z code) :
        List.Forall₂ (z.Refers ctx.fields) (Piece.referring code)
          (counter.fieldReferences ctx.program) := by
      rw [← EmissionContext.references_of_place hplace]
      exact Expr.Loads.references counter h
    have hstore := ctx.refers_place (z := z) hplace (.inl ⟨n, .inr rfl⟩)
    rw [hcode, referring_countCode]
    have hbefore := List.rel_append (List.rel_append (Expr.Loads.references finish hfinish)
      hstep.references) (Expr.Loads.references start hstart)
    have hhead := List.rel_append (List.rel_append hbefore hstore) (hcounter hload)
    exact List.rel_append (List.rel_append (List.rel_append hhead
      (Stmt.EmitsAll.references inner hbody)) (hcounter hload')) hstore
  | .loop l none inner, code, ⟨head, exit, bodyCode, hbody, hcode⟩ => by
    rw [hcode]
    simp only [Piece.referring_append, Piece.referring_mark, Piece.referring_jump,
      Piece.referring_nil, List.append_nil, List.nil_append]
    exact Stmt.EmitsAll.references inner hbody
  | .loop l (some c) inner, code, ⟨head, exit, test, bodyCode, htest, hbody, hcode⟩ => by
    have htests := Expr.Loads.references c.value htest
    have hreferences := Stmt.EmitsAll.references inner hbody
    rw [Stmt.references]
    split at hcode
    next hpost =>
      rw [hcode, if_pos hpost]
      simp only [Piece.referring_append, Piece.referring_branchOn, Piece.referring_mark,
        Piece.referring_nil, List.append_nil, List.nil_append]
      exact List.rel_append hreferences htests
    next hpost =>
      rw [hcode, if_neg hpost]
      simp only [Piece.referring_append, Piece.referring_branchOn, Piece.referring_jump,
        Piece.referring_mark, Piece.referring_nil, List.append_nil, List.nil_append]
      exact List.rel_append htests hreferences

/-- What the code of statements refers to. -/
theorem Stmt.EmitsAll.references : (ss : List Stmt) → {code : List Piece} →
    Stmt.EmitsAll ctx z code ss → List.Forall₂ (z.Refers ctx.fields) (Piece.referring code)
      (Stmt.referencesAll ctx.program ctx.body ss)
  | [], code, hcode => by
    rw [show code = [] from hcode]
    exact .nil
  | s :: rest, code, ⟨first, later, hfirst, hlater, hcode⟩ => by
    rw [hcode, Piece.referring_append]
    exact List.rel_append (Stmt.Emits.references s hfirst) (Stmt.EmitsAll.references rest hlater)

/-- What the code of the branches of an `IF` refers to. -/
theorem Branches.Emits.references {exit : Label} : (b : Branches) → {code : List Piece} →
    b.Emits ctx z exit code → List.Forall₂ (z.Refers ctx.fields) (Piece.referring code)
      (b.references ctx.program ctx.body)
  | .done, code, hcode => by
    rw [show code = [] from hcode]
    exact .nil
  | .otherwise inner, code, h => Stmt.EmitsAll.references inner h
  | .branch condition inner rest, code,
      ⟨next, test, bodyCode, others, htest, hbody, hothers, hcode⟩ => by
    have hskip : Piece.referring (rest.skip exit) = [] := by
      cases rest <;> rfl
    rw [hcode]
    simp only [Piece.referring_append, Piece.referring_branchOn, hskip, Piece.referring_mark,
      Piece.referring_nil, List.append_nil]
    have hbefore := List.rel_append (Expr.Loads.references condition htest)
      (Stmt.EmitsAll.references inner hbody)
    exact List.rel_append hbefore (Branches.Emits.references rest hothers)

end

/-- **What the code of a function refers to is what its body does.** -/
theorem EmissionContext.Body.references {code : List Piece} (h : ctx.Body z code) :
    List.Forall₂ (z.Refers ctx.fields) (Piece.referring code)
      (ctx.body.references ctx.program) := by
  obtain ⟨first, statements, hfirst, hstatements, rfl⟩ := h
  have hvariables := Piece.forall₂_flatten (hfirst.imp fun _ _ h => h.references)
  simp only [Piece.referring_append, Piece.referring_leave, List.append_nil]
  rw [Piece.referring_op rfl, Piece.referring_nil, List.nil_append]
  exact List.rel_append hvariables (Stmt.EmitsAll.references _ hstatements)

end Emission

/-! ## Texts fit their records -/

section Fits

variable {p : Program} {Γ : Env} {returns : Option TypeId} {body : UserBody} {r : Reference}

theorem Literal.fits_references {t : Option TypeId} {v : Literal} {σ : Shape}
    (hσ : t.bind p.types.shape? = some σ) (hv : v.Fits σ) (hr : r ∈ v.references p.types t) :
    r.Fits := by
  cases v with
  | boolean | integral | real => cases hr
  | text content =>
    obtain rfl := List.mem_singleton.1 hr
    obtain ⟨t, rfl, hσ⟩ := Option.bind_eq_some_iff.1 hσ
    obtain ⟨c, rfl⟩ : ∃ c, σ = .string c := by cases σ <;> simp_all [Literal.Fits]
    rw [Reference.Fits, Option.bind_some, TypeTable.capacity?_iff.2 hσ]
    exact hv

theorem Expr.fits_fieldReferences {e : Expr} (hr : r ∈ e.fieldReferences p) : r.Fits := by
  obtain ⟨x, -, rfl⟩ := List.mem_map.1 hr
  trivial

theorem Program.fits_nativeReferences {callee : Option Nat} (hr : r ∈ p.nativeReferences callee) :
    r.Fits := by
  unfold nativeReferences at hr
  split at hr
  · split at hr
    · cases hr
    · obtain rfl := List.mem_singleton.1 hr
      trivial
  · cases hr

/-- An empty text fits every record. -/
theorem UserBody.fits_emptyTexts {index : Nat} (hr : r ∈ body.emptyTexts p index) : r.Fits := by
  unfold emptyTexts at hr
  split at hr
  · obtain ⟨s, -, hr⟩ := List.mem_flatMap.1 hr
    obtain rfl := List.mem_singleton.1 hr
    exact Nat.zero_le _
  · cases hr

/-- **Every text that a typed expression refers to fits its record.** -/
theorem Expr.Typed.fits_references (htypes : Γ.types = p.types)
    (hconstant : Γ.constant = p.constantValue) {e : Expr} (h : e.Typed Γ)
    (hr : r ∈ e.references p) : r.Fits := by
  have all {ps : List TypeId} {es : List Expr} (h : Expr.TypedAll Γ ps es)
      (hr : r ∈ Expr.referencesAll p es) : ∃ e ∈ es, e.Typed Γ ∧ r ∈ e.references p := by
    induction es generalizing ps with
    | nil => cases hr
    | cons e es ih =>
      cases ps with
      | nil => cases h
      | cons _ ps =>
        obtain ⟨he, -, hes⟩ := h
        obtain hr | hr := List.mem_append.1 hr
        · exact (ih hes hr).imp fun _ h => ⟨List.mem_cons_of_mem _ h.1, h.2⟩
        · exact ⟨e, List.mem_cons_self, he, hr⟩
  induction e using Expr.induct with
  | literal i v =>
    obtain ⟨σ, hσ, hv⟩ := h
    exact Literal.fits_references (htypes ▸ hσ) hv hr
  | name i title decl =>
    match decl, h with
    | some (.constant k), ⟨σ, v, hσ, hv, hfit⟩ =>
      rw [hconstant] at hv
      rw [references, hv] at hr
      obtain ⟨t, ht, hσ⟩ := Env.shape_eq_some.1 hσ
      rw [ht] at hr
      have hbase : (some (p.types.base t)).bind p.types.shape? = some σ :=
        TypeTable.shape?_base (htypes ▸ hσ)
      exact Literal.fits_references hbase hfit hr
    | some (.localVar _), _ | some (.argument _), _ | some (.dataField _), _ =>
      exact fits_fieldReferences hr
  | member => exact fits_fieldReferences hr
  | call i f arguments callee ih =>
    cases callee with
    | none => cases h
    | some n =>
      obtain ⟨⟨ps, -, hall⟩, -⟩ := h
      obtain hr | hr := List.mem_append.1 hr
      · obtain ⟨e, hmem, he, hr⟩ := all hall hr
        exact ih e hmem he hr
      · exact Program.fits_nativeReferences hr
  | unary i op operand ih => exact ih h.1 hr
  | cast i operand ih => exact ih h.1 hr
  | binary i op left right ihl ihr =>
    exact (List.mem_append.1 hr).elim (ihr h.2.1) (ihl h.1)
  | pointer i target temp ih =>
    cases temp with
    | some offset => exact ih h.1 hr
    | none =>
      rw [references] at hr
      split at hr
      next content hfold =>
        rw [← htypes, ← hconstant] at hfold
        obtain ⟨σ, hσ, hfit⟩ := h.1.fold_fits hfold
        exact Literal.fits_references (htypes ▸ hσ) hfit hr
      next => exact fits_fieldReferences hr

mutual

theorem Stmt.Typed.fits_references (htypes : Γ.types = p.types)
    (hconstant : Γ.constant = p.constantValue) : (s : Stmt) → s.Typed Γ returns →
    r ∈ s.references p body → r.Fits
  | .var _ _ (some _), h, hr => h.1.fits_references htypes hconstant hr
  | .var _ _ none, _, hr => UserBody.fits_emptyTexts hr
  | .assign _ _ _, h, hr =>
    (List.mem_append.1 hr).elim (h.1.fits_references htypes hconstant) Expr.fits_fieldReferences
  | .invoke _ _, h, hr => Expr.Typed.fits_references htypes hconstant h hr
  | .return _ none, _, hr => by cases hr
  | .return _ (some _), h, hr => h.1.fits_references htypes hconstant hr
  | .choose _ branches, h, hr => Branches.Typed.fits_references htypes hconstant branches h hr
  | .count _ counter start finish step inner _, ⟨⟨_, _, hstart, hfinish, _, _, _, _, _, hstep⟩, h⟩,
      hr => by
    have hcounter (hr : r ∈ counter.fieldReferences p) : r.Fits := Expr.fits_fieldReferences hr
    simp only [Stmt.references, List.mem_append] at hr
    obtain ((((((hr | hr) | hr) | hr) | hr) | hr) | hr) | hr := hr
    · exact hfinish.fits_references htypes hconstant hr
    · cases step with
      | some e => exact (hstep e rfl).1.fits_references htypes hconstant hr
      | none => cases hr
    · exact hstart.fits_references htypes hconstant hr
    · exact hcounter hr
    · exact hcounter hr
    · exact Stmt.TypedAll.fits_references htypes hconstant inner h hr
    · exact hcounter hr
    · exact hcounter hr
  | .loop _ none inner, ⟨_, h⟩, hr => Stmt.TypedAll.fits_references htypes hconstant inner h hr
  | .loop _ (some c) inner, ⟨hc, h⟩, hr => by
    have hmem : r ∈ c.value.references p ∨ r ∈ Stmt.referencesAll p body inner := by
      rw [Stmt.references] at hr
      split at hr
      · exact (List.mem_append.1 hr).symm
      · exact List.mem_append.1 hr
    exact hmem.elim ((hc c rfl).1.fits_references htypes hconstant)
      (Stmt.TypedAll.fits_references htypes hconstant inner h)

theorem Stmt.TypedAll.fits_references (htypes : Γ.types = p.types)
    (hconstant : Γ.constant = p.constantValue) : (ss : List Stmt) → Stmt.TypedAll Γ returns ss →
    r ∈ Stmt.referencesAll p body ss → r.Fits
  | [], _, hr => by cases hr
  | s :: rest, ⟨hs, hrest⟩, hr =>
    (List.mem_append.1 hr).elim (Stmt.Typed.fits_references htypes hconstant s hs)
      (Stmt.TypedAll.fits_references htypes hconstant rest hrest)

theorem Branches.Typed.fits_references (htypes : Γ.types = p.types)
    (hconstant : Γ.constant = p.constantValue) : (b : Branches) → b.Typed Γ returns →
    r ∈ b.references p body → r.Fits
  | .done, _, hr => by cases hr
  | .otherwise inner, h, hr => Stmt.TypedAll.fits_references htypes hconstant inner h hr
  | .branch _ inner rest, ⟨⟨hcondition, _⟩, hinner, hrest⟩, hr => by
    simp only [Branches.references, List.mem_append] at hr
    obtain (hr | hr) | hr := hr
    · exact hcondition.fits_references htypes hconstant hr
    · exact Stmt.TypedAll.fits_references htypes hconstant inner hinner hr
    · exact Branches.Typed.fits_references htypes hconstant rest hrest hr

end

/-- **Every text that a typed body refers to fits its record.** -/
theorem UserBody.fits_references (htypes : Γ.types = p.types)
    (hconstant : Γ.constant = p.constantValue) (h : Stmt.TypedAll Γ returns body.statements)
    (hr : r ∈ body.references p) : r.Fits := by
  obtain hr | hr := List.mem_append.1 hr
  · obtain ⟨index, -, hr⟩ := List.mem_flatMap.1 hr
    exact fits_emptyTexts hr
  · exact Stmt.TypedAll.fits_references htypes hconstant _ h hr

end Fits

end ChannelBasic
