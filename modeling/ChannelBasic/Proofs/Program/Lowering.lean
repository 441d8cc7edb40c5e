import ChannelBasic.Program.Lowering
import ChannelBasic.Proofs.Program.Refusals
import ChannelBasic.Proofs.Typing.Statements

/-!
# Proofs/Program/Lowering — tables that are in order

Types are entered before they are named, so every type that a declaration names stands in the table;
a literal is entered with its type, so it fits it; and **every variable of a function is declared
by a statement of the function** (`ends_stmts`).  `Program.ofRaw` gives tables of which all this is
true (`written_ofRaw`).
-/

namespace ChannelBasic

/-- The body of a function as it is written: its variables are declared in it, and its types are in
the table. -/
structure UserBody.Written (body : UserBody) (t : TypeTable) (visible : Nat → Bool) : Prop where
  statements : Stmt.PlainAll t visible body.statements
  arguments : ∀ a ∈ body.arguments, a.type < t.entries.size
  locals : ∀ (i : Nat) (v : Local), body.locals[i]? = some v → ∀ u, v.type = some u →
    u < t.entries.size
  covered : ∀ i < body.locals.size, i ∈ body.implicit ∨ i ∈ Stmt.variablesAll body.statements
  within : ∀ i ∈ Stmt.variablesAll body.statements, i < body.locals.size
  count : body.locals.size = body.implicit.length + (Stmt.variablesAll body.statements).length
  untyped : ∀ i ∈ body.implicit, ∀ v, body.locals[i]? = some v → v.type = none

theorem UserBody.Written.extends {body : UserBody} {t t' : TypeTable} {visible : Nat → Bool}
    (h : body.Written t visible) (hE : t.Extends t') : body.Written t' visible where
  statements := h.statements.extends hE
  arguments a ha := (h.arguments a ha).trans_le hE.size_le
  locals i v hv u hu := (h.locals i v hv u hu).trans_le hE.size_le
  covered := h.covered
  within := h.within
  count := h.count
  untyped := h.untyped

/-- What is entered is in order. -/
structure Lowered.Sound (s : Lowered) : Prop where
  builtin : s.types.Builtin
  flat : s.types.Flat
  string : TypeTable.stringId < s.types.entries.size
  structSizes : s.types.structSizes = []
  lengths : ∀ (n : Nat) (e : Expr), s.lengths[n]? = some e → e.Plain s.types fun _ => false
  locals : ∀ (i : Nat) (v : Local), s.locals[i]? = some v → ∀ t, v.type = some t →
    t < s.types.entries.size
  functions : ∀ (n : Nat) (f : Function), s.functions[n]? = some f → ∀ body, f.user? = some body →
    body.Written s.types (fun _ => false) ∧ body.implicit = []

/-- What is entered stays. -/
structure Lowered.Extends (s s' : Lowered) : Prop where
  types : s.types.Extends s'.types
  functions : ∀ (n : Nat) (f : Function), s.functions[n]? = some f → s'.functions[n]? = some f

theorem Lowered.Extends.size_le {s s' : Lowered} (h : s.Extends s') :
    s.functions.size ≤ s'.functions.size := by
  by_contra hlt
  have hlast := h.functions _ _ (Array.getElem?_eq_getElem (Nat.lt_of_not_le hlt))
  exact absurd (Array.getElem?_eq_some_iff.1 hlast).1 (lt_irrefl _)

theorem Lowered.Extends.passage : Passage Lowered.Extends where
  refl _ := ⟨.refl _, fun _ _ h => h⟩
  trans h h' := ⟨h.types.trans h'.types, fun n f hf => h'.functions n f (h.functions n f hf)⟩

/-- What is entered stays, and there are no new structured types. -/
structure Lowered.Stays (s s' : Lowered) : Prop extends Lowered.Extends s s' where
  structs : s.types.SameStructs s'.types

theorem Lowered.Stays.passage : Passage Lowered.Stays where
  refl s := ⟨Lowered.Extends.passage.refl s, .refl _⟩
  trans h h' := ⟨Lowered.Extends.passage.trans h.toExtends h'.toExtends, h.structs.trans h'.structs⟩

/-- What entering types and expressions does. -/
structure Lowered.Adds (s s' : Lowered) : Prop extends Lowered.Stays s s' where
  locals : s'.locals = s.locals

theorem Lowered.Adds.passage : Passage Lowered.Adds where
  refl s := ⟨Lowered.Stays.passage.refl s, rfl⟩
  trans h h' := ⟨Lowered.Stays.passage.trans h.toStays h'.toStays, h'.locals.trans h.locals⟩

/-- What entering statements does: the variables that are new are among those declared. -/
structure Lowered.Declares (s s' : Lowered) (declared : List Nat) : Prop
    extends Lowered.Stays s s' where
  width : s.locals.size ≤ s'.locals.size
  covered : ∀ i, s.locals.size ≤ i → i < s'.locals.size → i ∈ declared
  within : ∀ i ∈ declared, i < s'.locals.size
  count : s'.locals.size = s.locals.size + declared.length

theorem Lowered.Declares.trans {s s₁ s₂ : Lowered} {a b : List Nat} (h : s.Declares s₁ a)
    (h' : s₁.Declares s₂ b) : s.Declares s₂ (a ++ b) where
  toStays := Lowered.Stays.passage.trans h.toStays h'.toStays
  width := h.width.trans h'.width
  covered i hi hlt := by
    by_cases hi' : i < s₁.locals.size
    · exact List.mem_append_left _ (h.covered i hi hi')
    · exact List.mem_append_right _ (h'.covered i (Nat.le_of_not_lt hi') hlt)
  within i hi := by
    obtain hi | hi := List.mem_append.1 hi
    · exact (h.within i hi).trans_le h'.width
    · exact h'.within i hi
  count := by rw [h'.count, h.count, List.length_append, Nat.add_assoc]

theorem Lowered.Adds.declares {s s' : Lowered} (h : s.Adds s') : s.Declares s' [] where
  toStays := h.toStays
  width := by rw [h.locals]
  covered i hi hlt := by
    rw [h.locals] at hlt
    omega
  within _ hi := by cases hi
  count := congrArg Array.size h.locals

variable {s : Lowered}

theorem Lowered.Sound.retype (hs : s.Sound) {d : DataType}
    (hd : ∀ b, d = .constant b ∨ d = .pointer b → b < s.types.entries.size) :
    ({ s with types := (s.types.add d).2 } : Lowered).Sound := by
  have hE := s.types.extends_add d
  exact {
    builtin := hs.builtin.extends hE
    flat := hs.flat.add hd
    string := hs.string.trans_le hE.size_le
    structSizes := (s.types.appends_add d).structSizes.trans hs.structSizes
    lengths := fun n e he => (hs.lengths n e he).extends hE
    locals := fun i v hv t ht => (hs.locals i v hv t ht).trans_le hE.size_le
    functions := fun n f hf body hb =>
      ⟨(hs.functions n f hf body hb).1.extends hE, (hs.functions n f hf body hb).2⟩ }

theorem Lowered.Sound.length (hs : s.Sound) {e : Expr} (he : e.Plain s.types fun _ => false) :
    ({ s with lengths := s.lengths.push e } : Lowered).Sound where
  builtin := hs.builtin
  flat := hs.flat
  string := hs.string
  structSizes := hs.structSizes
  lengths n e' hn := by
    rw [Array.getElem?_push] at hn
    split at hn
    · obtain rfl := Option.some.inj hn
      exact he
    · exact hs.lengths n e' hn
  locals := hs.locals
  functions := hs.functions

namespace Lowering

open Lowered

theorem ends_addType (hs : s.Sound) {d : DataType}
    (hd : ∀ b, d = .constant b ∨ d = .pointer b → b < s.types.entries.size) (hstruct : ∀ n name, d ≠ .struct n name) :
    Ends (addType d) s fun id s' => s'.Sound ∧ s.Adds s' ∧ id = (s.types.add d).1 ∧
      s'.types = (s.types.add d).2 :=
  Ends.changes ⟨hs.retype hd, ⟨⟨⟨s.types.extends_add d, fun _ _ h => h⟩,
    s.types.sameStructs_add hstruct⟩, rfl⟩, rfl, rfl⟩

/-! ## Expressions and types -/

theorem plain_integer (hs : s.Sound) (place : Location) (n : Int64) :
    (Expr.literal ⟨place, some (integerType n)⟩ (.integral n)).Plain s.types fun _ => false := by
  unfold integerType
  split
  next h =>
    refine ⟨_, _, rfl, hs.builtin.shape? .integer, rfl, ?_⟩
    simp only [Word.fits32, Bool.and_eq_true, decide_eq_true_eq] at h
    apply Int64.toInt_inj.1
    rw [Word.toInt_wrap (by decide)]
    exact Int.bmod_eq_of_le (by simp [Scalar.size]; omega) (by simp [Scalar.size]; omega)
  next => exact ⟨_, _, rfl, hs.builtin.shape? .long, rfl, Word.wrap_eight n⟩

mutual

theorem ends_expr : (e : Raw.Expr) → (s : Lowered) → s.Sound →
    Ends (expr e) s fun e' s' => s'.Sound ∧ s.Adds s' ∧ e'.Plain s'.types fun _ => false
  | .integer l n, s, hs => by
    unfold expr
    exact Ends.value ⟨hs, Adds.passage.refl s, plain_integer hs l n⟩
  | .real l x, s, hs => by
    unfold expr
    exact Ends.value ⟨hs, Adds.passage.refl s, _, _, rfl, hs.builtin.shape? .real, trivial⟩
  | .boolean l b, s, hs => by
    unfold expr
    exact Ends.value ⟨hs, Adds.passage.refl s, _, _, rfl, hs.builtin.shape? .boolean, trivial⟩
  | .text l content, s, hs => by
    unfold expr
    refine (ends_addType hs (by simp) (by simp)).seq fun id s₁ h₁ => ?_
    obtain ⟨hs₁, he, rfl, ht⟩ := h₁
    refine Ends.value ⟨hs₁, he, _, .string (Utf16.units content), rfl, ?_, le_rfl⟩
    rw [ht]
    exact s.types.shape?_stringOf _
  | .name l name, s, hs => by
    unfold expr
    exact Ends.value ⟨hs, Adds.passage.refl s, trivial⟩
  | .member l target field, s, hs => by
    unfold expr
    exact (ends_expr target s hs).seq fun e s₁ h₁ => Ends.value h₁
  | .call l function arguments, s, hs => by
    unfold expr
    refine (ends_exprs arguments s hs).seq fun es s₁ h₁ => ?_
    exact Ends.value ⟨h₁.1, h₁.2.1, by simp, h₁.2.2⟩
  | .unary l op operand, s, hs => by
    unfold expr
    exact (ends_expr operand s hs).seq fun e s₁ h₁ => Ends.value h₁
  | .binary l op left right, s, hs => by
    unfold expr
    refine (ends_expr left s hs).seq fun e s₁ h₁ => ?_
    refine (ends_expr right s₁ h₁.1).seq fun e' s₂ h₂ => ?_
    exact Ends.value ⟨h₂.1, Adds.passage.trans h₁.2.1 h₂.2.1,
      h₁.2.2.extends h₂.2.1.types, h₂.2.2⟩

theorem ends_exprs : (es : List Raw.Expr) → (s : Lowered) → s.Sound →
    Ends (exprs es) s fun es' s' => s'.Sound ∧ s.Adds s' ∧
      Expr.PlainAll s'.types (fun _ => false) es'
  | [], s, hs => by
    unfold exprs
    exact Ends.value ⟨hs, Adds.passage.refl s, trivial⟩
  | e :: rest, s, hs => by
    unfold exprs
    refine (ends_expr e s hs).seq fun e' s₁ h₁ => ?_
    refine (ends_exprs rest s₁ h₁.1).seq fun es' s₂ h₂ => ?_
    exact Ends.value ⟨h₂.1, Adds.passage.trans h₁.2.1 h₂.2.1,
      h₁.2.2.extends h₂.2.1.types, h₂.2.2⟩

end

theorem ends_expr? (e : Option Raw.Expr) (hs : s.Sound) :
    Ends (expr? e) s fun r s' => s'.Sound ∧ s.Adds s' ∧
      ∀ e', r = some e' → e'.Plain s'.types fun _ => false := by
  unfold expr?
  split
  · refine (ends_expr _ s hs).seq fun e' s₁ h₁ => ?_
    refine Ends.value ⟨h₁.1, h₁.2.1, fun e'' he => ?_⟩
    obtain rfl := Option.some.inj he
    exact h₁.2.2
  · exact Ends.value ⟨hs, Adds.passage.refl s, by simp⟩

/-- **A type that is named stands in the table.** -/
theorem ends_dataType (t : Raw.DataType) : (s : Lowered) → s.Sound →
    Ends (dataType t) s fun id s' => s'.Sound ∧ s.Adds s' ∧ id < s'.types.entries.size := by
  have added {s s' : Lowered} {id : TypeId} {d : DataType} (h : s'.Sound ∧ s.Adds s' ∧
      id = (s.types.add d).1 ∧ s'.types = (s.types.add d).2) :
      s'.Sound ∧ s.Adds s' ∧ id < s'.types.entries.size := by
    obtain ⟨hs, he, rfl, ht⟩ := h
    exact ⟨hs, he, ht ▸ s.types.lt_size_add d⟩
  induction t with
  | scalar x =>
    intro s hs
    refine Ends.value ⟨hs, Adds.passage.refl s, ?_⟩
    exact TypeTable.lt_size_of_shape? (hs.builtin.shape? x)
  | string =>
    intro s hs
    exact Ends.value ⟨hs, Adds.passage.refl s, hs.string⟩
  | stringOf length =>
    intro s hs
    unfold dataType
    refine (ends_expr length s hs).seq fun e s₁ h₁ => ?_
    obtain ⟨hs₁, ha₁, hp⟩ := h₁
    refine Ends.seq (Ends.changes (Q := fun _ s₂ => s₂.Sound ∧ s.Adds s₂)
      ⟨hs₁.length hp, ⟨⟨⟨ha₁.types, ha₁.functions⟩, ha₁.structs⟩, ha₁.locals⟩⟩) fun n s₂ h₂ => ?_
    refine (ends_addType h₂.1 (by simp) (by simp)).mono fun id' s₃ h₃ => ?_
    obtain ⟨hs₃, ha₃, hlt⟩ := added h₃
    exact ⟨hs₃, Adds.passage.trans h₂.2 ha₃, hlt⟩
  | pointer pointee ih =>
    intro s hs
    unfold dataType
    refine (ih s hs).seq fun id s₁ h₁ => ?_
    refine (ends_addType h₁.1 (fun p hp => ?_) (by simp)).mono fun id' s₂ h₂ => ?_
    · obtain rfl : id = p := by simpa using hp
      exact h₁.2.2
    · obtain ⟨hs₂, he₂, hlt⟩ := added h₂
      exact ⟨hs₂, Adds.passage.trans h₁.2.1 he₂, hlt⟩
  | constant base ih =>
    intro s hs
    unfold dataType
    refine (ih s hs).seq fun id s₁ h₁ => ?_
    refine (ends_addType h₁.1 (fun b hb => ?_) (by simp)).mono fun id' s₂ h₂ => ?_
    · obtain rfl : id = b := by simpa using hb
      exact h₁.2.2
    · obtain ⟨hs₂, he₂, hlt⟩ := added h₂
      exact ⟨hs₂, Adds.passage.trans h₁.2.1 he₂, hlt⟩
  | named location name =>
    intro s hs
    unfold dataType
    refine (ends_addType hs (by simp) (by simp)).seq fun id s₁ h₁ => ?_
    obtain ⟨hs₁, ha₁, hlt⟩ := added h₁
    refine Ends.seq (Ends.modifies (Q := fun _ s₂ => s₂.Sound ∧ s.Adds s₂ ∧
      id < s₂.types.entries.size) ⟨?_, ⟨⟨⟨ha₁.types, ha₁.functions⟩, ha₁.structs⟩, ha₁.locals⟩, hlt⟩)
      fun _ s₂ h₂ => Ends.value h₂
    exact ⟨hs₁.builtin, hs₁.flat, hs₁.string, hs₁.structSizes, hs₁.lengths, hs₁.locals,
      hs₁.functions⟩

theorem ends_dataType? (t : Option Raw.DataType) (hs : s.Sound) :
    Ends (dataType? t) s fun r s' => s'.Sound ∧ s.Adds s' ∧
      ∀ id, r = some id → id < s'.types.entries.size := by
  unfold dataType?
  split
  · refine (ends_dataType _ s hs).seq fun id s₁ h₁ => ?_
    refine Ends.value ⟨h₁.1, h₁.2.1, fun id' hid => ?_⟩
    obtain rfl := Option.some.inj hid
    exact h₁.2.2
  · exact Ends.value ⟨hs, Adds.passage.refl s, by simp⟩

theorem ends_slots (rule : Rule) (fields : List Raw.Field) :
    (taken : List String) → (s : Lowered) → s.Sound →
      Ends (slots rule taken fields) s fun r s' => s'.Sound ∧ s.Adds s' ∧
        ∀ f ∈ r, f.type < s'.types.entries.size := by
  induction fields with
  | nil =>
    intro taken s hs
    unfold slots
    exact Ends.value ⟨hs, Adds.passage.refl s, by simp⟩
  | cons f rest ih =>
    intro taken s hs
    unfold slots
    dsimp only
    split
    · exact Ends.refused_seq
    · refine (ends_dataType f.type s hs).seq fun id s₁ h₁ => ?_
      refine (ih _ s₁ h₁.1).seq fun r s₂ h₂ => ?_
      refine Ends.value ⟨h₂.1, Adds.passage.trans h₁.2.1 h₂.2.1, fun g hg => ?_⟩
      obtain rfl | hg := List.mem_cons.1 hg
      · exact h₁.2.2.trans_le h₂.2.1.types.size_le
      · exact h₂.2.2 g hg

/-! ## Statements -/

theorem ends_addLocal (hs : s.Sound) (v : Local)
    (hv : ∀ t, v.type = some t → t < s.types.entries.size) :
    Ends (addLocal v) s fun i s' => s'.Sound ∧ s.Declares s' [i] := by
  refine Ends.changes ⟨⟨hs.builtin, hs.flat, hs.string, hs.structSizes, hs.lengths, ?_,
    hs.functions⟩, ⟨⟨.refl _, fun _ _ h => h⟩, .refl _⟩, by simp, fun i hi hlt => ?_, by simp, by simp⟩
  · intro i w hw t ht
    rw [Array.getElem?_push] at hw
    split at hw
    · obtain rfl := Option.some.inj hw
      exact hv t ht
    · exact hs.locals i w hw t ht
  · simp only [Array.size_push] at hlt
    simp only [List.mem_singleton]
    omega

mutual

theorem ends_stmt : (r : Raw.Stmt) → (s : Lowered) → s.Sound →
    Ends (stmt r) s fun r' s' => s'.Sound ∧ s.Declares s' r'.variables ∧
      r'.Plain s'.types fun _ => false
  | .var l name type value, s, hs => by
    unfold stmt
    refine (ends_dataType? type hs).seq fun t s₁ h₁ => ?_
    refine (ends_expr? value h₁.1).seq fun e s₂ h₂ => ?_
    refine (ends_addLocal h₂.1 _ fun u hu => (h₁.2.2 u hu).trans_le h₂.2.1.types.size_le).seq
      fun i s₃ h₃ => ?_
    refine Ends.value ⟨h₃.1, ?_, fun e' he => (h₂.2.2 e' he).extends h₃.2.types⟩
    exact (h₁.2.1.declares.trans h₂.2.1.declares).trans h₃.2
  | .assign l target value, s, hs => by
    unfold stmt
    refine (ends_expr value s hs).seq fun e s₁ h₁ => ?_
    refine (ends_expr target s₁ h₁.1).seq fun e' s₂ h₂ => ?_
    exact Ends.value ⟨h₂.1, (Adds.passage.trans h₁.2.1 h₂.2.1).declares,
      h₁.2.2.extends h₂.2.1.types, h₂.2.2⟩
  | .call l call, s, hs => by
    unfold stmt
    exact (ends_expr call s hs).seq fun e s₁ h₁ => Ends.value ⟨h₁.1, h₁.2.1.declares, h₁.2.2⟩
  | .return l value, s, hs => by
    unfold stmt
    exact (ends_expr? value hs).seq fun e s₁ h₁ => Ends.value ⟨h₁.1, h₁.2.1.declares, h₁.2.2⟩
  | .choose l branches, s, hs => by
    unfold stmt
    exact (ends_choices branches s hs).seq fun b s₁ h₁ => Ends.value h₁
  | .count l counter start finish step body, s, hs => by
    unfold stmt
    refine (ends_expr counter s hs).seq fun e₁ s₁ h₁ => ?_
    refine (ends_expr start s₁ h₁.1).seq fun e₂ s₂ h₂ => ?_
    refine (ends_expr finish s₂ h₂.1).seq fun e₃ s₃ h₃ => ?_
    refine (ends_expr? step h₃.1).seq fun e₄ s₄ h₄ => ?_
    refine (ends_stmts body s₄ h₄.1).seq fun b s₅ h₅ => ?_
    have h₃₅ := h₄.2.1.types.trans h₅.2.1.types
    have h₂₅ := h₃.2.1.types.trans h₃₅
    have hadds := Adds.passage.trans h₁.2.1 (Adds.passage.trans h₂.2.1
      (Adds.passage.trans h₃.2.1 h₄.2.1))
    exact Ends.value ⟨h₅.1, hadds.declares.trans h₅.2.1,
      ⟨h₁.2.2.extends (h₂.2.1.types.trans h₂₅), h₂.2.2.extends h₂₅, h₃.2.2.extends h₃₅,
        fun e he => (h₄.2.2 e he).extends h₅.2.1.types⟩, h₅.2.2⟩
  | .loop l condition body, s, hs => by
    have rest (c : Option Condition) (s₁ : Lowered) (hs₁ : s₁.Sound) (ha : s.Adds s₁)
        (hc : ∀ d, c = some d → d.value.Plain s₁.types fun _ => false) :
        Ends (do return Stmt.loop l c (← stmts body)) s₁ fun r' s' => s'.Sound ∧
          s.Declares s' r'.variables ∧ r'.Plain s'.types fun _ => false := by
      refine (ends_stmts body s₁ hs₁).seq fun b s₂ h₂ => ?_
      exact Ends.value ⟨h₂.1, ha.declares.trans h₂.2.1,
        fun d hd => (hc d hd).extends h₂.2.1.types, h₂.2.2⟩
    unfold stmt
    dsimp only
    split
    next c =>
      refine (ends_expr c.value s hs).seq fun e s₁ h₁ => ?_
      refine Ends.value_seq (rest _ _ h₁.1 h₁.2.1 fun d hd => ?_)
      obtain rfl := Option.some.inj hd
      exact h₁.2.2
    next => exact Ends.value_seq (rest _ _ hs (Adds.passage.refl s) (by simp))

/-- **Every variable is declared by a statement.** -/
theorem ends_stmts : (rs : List Raw.Stmt) → (s : Lowered) → s.Sound →
    Ends (stmts rs) s fun rs' s' => s'.Sound ∧ s.Declares s' (Stmt.variablesAll rs') ∧
      Stmt.PlainAll s'.types (fun _ => false) rs'
  | [], s, hs => by
    unfold stmts
    exact Ends.value ⟨hs, (Adds.passage.refl s).declares, trivial⟩
  | r :: rest, s, hs => by
    unfold stmts
    refine (ends_stmt r s hs).seq fun r' s₁ h₁ => ?_
    refine (ends_stmts rest s₁ h₁.1).seq fun rs' s₂ h₂ => ?_
    exact Ends.value ⟨h₂.1, h₁.2.1.trans h₂.2.1, h₁.2.2.extends h₂.2.1.types, h₂.2.2⟩

theorem ends_choices : (b : Raw.Branches) → (s : Lowered) → s.Sound →
    Ends (choices b) s fun b' s' => s'.Sound ∧ s.Declares s' b'.variables ∧
      b'.Plain s'.types fun _ => false
  | .done, s, hs => by
    unfold choices
    exact Ends.value ⟨hs, (Adds.passage.refl s).declares, trivial⟩
  | .otherwise body, s, hs => by
    unfold choices
    exact (ends_stmts body s hs).seq fun b s₁ h₁ => Ends.value h₁
  | .branch condition body rest, s, hs => by
    unfold choices
    refine (ends_expr condition s hs).seq fun c s₁ h₁ => ?_
    refine (ends_stmts body s₁ h₁.1).seq fun b s₂ h₂ => ?_
    refine (ends_choices rest s₂ h₂.1).seq fun b' s₃ h₃ => ?_
    exact Ends.value ⟨h₃.1, h₁.2.1.declares.trans (h₂.2.1.trans h₃.2.1),
      h₁.2.2.extends (h₂.2.1.types.trans h₃.2.1.types), h₂.2.2.extends h₃.2.1.types, h₃.2.2⟩

end

/-! ## Declarations -/

/-- The function with a number belongs to an owner. -/
def Owned (owner : Owner) (n : Nat) (s : Lowered) : Prop :=
  ∃ f, s.functions[n]? = some f ∧ f.owner = owner

theorem Owned.stays {owner : Owner} {n : Nat} {s s' : Lowered} (h : Owned owner n s)
    (hs : s.Stays s') : Owned owner n s' := by
  obtain ⟨f, hf, ho⟩ := h
  exact ⟨f, hs.functions n f hf, ho⟩

theorem Owned.lt {owner : Owner} {n : Nat} {s : Lowered} (h : Owned owner n s) :
    n < s.functions.size := by
  obtain ⟨f, hf, -⟩ := h
  exact (Array.getElem?_eq_some_iff.1 hf).1

/-- Functions of an owner that have been entered, each with a number of its own. -/
structure Enters (owner : Owner) (s : Lowered) (ns : List Nat) (s' : Lowered) : Prop where
  owned : ∀ n ∈ ns, Owned owner n s'
  fresh : ∀ n ∈ ns, s.functions.size ≤ n
  distinct : ns.Nodup

theorem Enters.nil (owner : Owner) (s s' : Lowered) : Enters owner s [] s' :=
  ⟨by simp, by simp, .nil⟩

/-- Functions entered later have numbers that are new. -/
theorem Enters.append {owner : Owner} {s s₁ s₂ : Lowered} {ns ns' : List Nat}
    (h : Enters owner s ns s₁) (h' : Enters owner s₁ ns' s₂) (hs : s.Stays s₁) (hs' : s₁.Stays s₂) :
    Enters owner s (ns ++ ns') s₂ where
  owned n hn := (List.mem_append.1 hn).elim (fun hn => (h.owned n hn).stays hs') (h'.owned n)
  fresh n hn := (List.mem_append.1 hn).elim (h.fresh n) fun hn =>
    hs.toExtends.size_le.trans (h'.fresh n hn)
  distinct := List.nodup_append.2 ⟨h.distinct, h'.distinct, fun n hn k hk =>
    ((h.owned n hn).lt.trans_le (h'.fresh k hk)).ne⟩

/-- A function is entered at the end of the table. -/
theorem ends_enter (hs : s.Sound) {f : Function} (hf : ∀ body, f.user? = some body →
    body.Written s.types (fun _ => false) ∧ body.implicit = []) :
    Ends (modifyGet fun s => (s.functions.size, { s with functions := s.functions.push f }) :
      Lowering Nat) s fun n s' => s'.Sound ∧ s.Stays s' ∧ Owned f.owner n s' ∧
        s.functions.size ≤ n := by
  refine Ends.changes ⟨⟨hs.builtin, hs.flat, hs.string, hs.structSizes, hs.lengths, hs.locals, ?_⟩,
    ⟨⟨.refl _, fun n g hg => ?_⟩, .refl _⟩, ⟨f, by simp, rfl⟩, le_rfl⟩
  · intro n g hg
    rw [Array.getElem?_push] at hg
    split at hg
    · obtain rfl := Option.some.inj hg
      exact hf
    · exact hs.functions n g hg
  · rw [Array.getElem?_push, if_neg (Array.getElem?_eq_some_iff.1 hg).1.ne]
    exact hg

theorem ends_function (owner : Owner) (f : Raw.Function) (hs : s.Sound) :
    Ends (function owner f) s fun n s' => s'.Sound ∧ s.Stays s' ∧ Enters owner s [n] s' := by
  have enters {n : Nat} {s₁ s₂ : Lowered} (hs₁ : s.functions.size ≤ s₁.functions.size)
      (h : Owned owner n s₂ ∧ s₁.functions.size ≤ n) : Enters owner s [n] s₂ :=
    ⟨by simpa using h.1, by simpa using hs₁.trans h.2, List.nodup_cons.2 ⟨by simp, .nil⟩⟩
  unfold function
  dsimp only
  split
  next arguments hbody =>
    have harguments : Ends (arguments.mapM dataType) s fun _ s' => s'.Sound ∧ s.Adds s' := by
      refine (Ends.eachOf (I := Lowered.Sound) (Q := fun _ _ _ => True) Adds.passage.refl
        Adds.passage.trans (fun _ _ => trivial) (fun t _ s hs => ?_) hs).mono
        fun _ _ h => ⟨h.1, h.2.1⟩
      exact (ends_dataType t s hs).mono fun _ _ h => ⟨h.1, h.2.1, trivial⟩
    refine harguments.seq fun as s₁ h₁ => ?_
    refine (ends_dataType? f.returns h₁.1).seq fun r s₂ h₂ => ?_
    refine Ends.value_seq ((ends_enter h₂.1 (by simp [Function.user?])).mono fun n s₃ h₃ => ?_)
    have hstays := Stays.passage.trans h₁.2.toStays h₂.2.1.toStays
    exact ⟨h₃.1, Stays.passage.trans hstays h₃.2.1, enters hstays.toExtends.size_le h₃.2.2⟩
  next arguments statements hbody =>
    refine Ends.seq (Ends.modifies (Q := fun _ s₁ => s₁ = { s with locals := #[] }) rfl)
      fun _ s₁ h₁ => ?_
    subst h₁
    have hs₁ : ({ s with locals := #[] } : Lowered).Sound :=
      ⟨hs.builtin, hs.flat, hs.string, hs.structSizes, hs.lengths, by simp, hs.functions⟩
    refine (ends_slots _ arguments [] _ hs₁).seq fun as s₂ h₂ => ?_
    refine (ends_dataType? f.returns h₂.1).seq fun r s₃ h₃ => ?_
    refine (ends_stmts statements s₃ h₃.1).seq fun b s₄ h₄ => ?_
    refine Ends.reads (Ends.value_seq ?_)
    have hstays := Stays.passage.trans (Stays.passage.trans h₂.2.1.toStays h₃.2.1.toStays)
      h₄.2.1.toStays
    refine (ends_enter h₄.1 fun body hbody => ?_).mono fun n s₅ h₅ =>
      ⟨h₅.1, Stays.passage.trans ⟨⟨hstays.types, hstays.functions⟩, hstays.structs⟩ h₅.2.1,
        enters hstays.toExtends.size_le h₅.2.2⟩
    obtain rfl := Option.some.inj hbody
    refine ⟨⟨h₄.2.2, fun a ha => ?_, h₄.1.locals, fun i hi => .inr (h₄.2.1.covered i ?_ hi),
      h₄.2.1.within, ?_, fun _ hi => by cases hi⟩, rfl⟩
    · exact (h₂.2.2 a ha).trans_le (h₃.2.1.types.trans h₄.2.1.types).size_le
    · rw [h₃.2.1.locals, h₂.2.1.locals]
      exact Nat.zero_le i
    · rw [h₄.2.1.count, h₃.2.1.locals, h₂.2.1.locals]
      rfl

theorem ends_functions (owner : Owner) (fs : List Raw.Function) (hs : s.Sound) :
    Ends (fs.mapM (function owner)) s fun ns s' => s'.Sound ∧ s.Stays s' ∧
      Enters owner s ns s' := by
  induction fs generalizing s with
  | nil => exact Ends.value ⟨hs, Stays.passage.refl s, .nil owner s s⟩
  | cons f fs ih =>
    rw [List.mapM_cons]
    refine (ends_function owner f hs).seq fun n s₁ h₁ => ?_
    refine (ih h₁.1).seq fun ns s₂ h₂ => ?_
    exact Ends.value ⟨h₂.1, Stays.passage.trans h₁.2.1 h₂.2.1,
      h₁.2.2.append h₂.2.2 h₁.2.1 h₂.2.1⟩

/-- A constant as it is written. -/
def Entered (c : Constant) (s : Lowered) : Prop :=
  c.folded = none ∧ c.value.Plain s.types fun _ => false

theorem ends_constant (taken : List String) (c : Raw.Constant) (hs : s.Sound) :
    Ends (constant taken c) s fun c' s' => s'.Sound ∧ s.Stays s' ∧ Entered c' s' := by
  unfold constant
  dsimp only
  split
  · exact Ends.refused_seq
  · refine (ends_dataType? c.type hs).seq fun t s₁ h₁ => ?_
    refine (ends_expr c.value s₁ h₁.1).seq fun e s₂ h₂ => ?_
    exact Ends.value ⟨h₂.1, (Adds.passage.trans h₁.2.1 h₂.2.1).toStays, rfl, h₂.2.2⟩

theorem ends_constants (cs : List Raw.Constant) : (taken : List String) → (s : Lowered) →
    s.Sound → Ends (constants taken cs) s fun r s' => s'.Sound ∧ s.Stays s' ∧
      ∀ c ∈ r, Entered c s' := by
  induction cs with
  | nil =>
    intro taken s hs
    unfold constants
    exact Ends.value ⟨hs, Stays.passage.refl s, by simp⟩
  | cons c rest ih =>
    intro taken s hs
    unfold constants
    refine (ends_constant taken c hs).seq fun c' s₁ h₁ => ?_
    refine (ih _ s₁ h₁.1).seq fun r s₂ h₂ => ?_
    refine Ends.value ⟨h₂.1, Stays.passage.trans h₁.2.1 h₂.2.1, fun d hd => ?_⟩
    obtain rfl | hd := List.mem_cons.1 hd
    · exact ⟨h₁.2.2.1, h₁.2.2.2.extends h₂.2.1.types⟩
    · exact h₂.2.2 d hd

/-- A structured type is entered with its number. -/
theorem ends_struct (r : Raw.Struct) (number : Nat) (hs : s.Sound)
    (hnumbers : s.types.Numbers number) :
    Ends (struct r number) s fun _ s' => (s'.Sound ∧ s'.types.Numbers (number + 1)) ∧
      s.Extends s' := by
  unfold struct
  refine (ends_slots _ r.fields [] s hs).seq fun fields s₁ h₁ => ?_
  refine Ends.seq (Ends.changes (Q := fun _ s₂ => (s₂.Sound ∧ s₂.types.Numbers (number + 1)) ∧
    s₁.Extends s₂) ⟨⟨h₁.1.retype (by simp), ?_⟩, s₁.types.extends_add _, fun _ _ h => h⟩)
    fun id s₂ h₂ => Ends.value ⟨h₂.1, Extends.passage.trans h₁.2.1.toExtends h₂.2⟩
  exact TypeTable.Numbers.add_struct (hnumbers.sameStructs h₁.2.1.structs)

theorem ends_dataSets (ds : List Raw.DataSet) : (taken : List String) → (s : Lowered) → s.Sound →
    Ends (dataSets taken ds) s fun _ s' => s'.Sound ∧ s.Stays s' := by
  induction ds with
  | nil =>
    intro taken s hs
    unfold dataSets
    exact Ends.value ⟨hs, Stays.passage.refl s⟩
  | cons d rest ih =>
    intro taken s hs
    unfold dataSets
    refine (ends_slots _ d.fields taken s hs).seq fun fields s₁ h₁ => ?_
    refine (ih _ s₁ h₁.1).seq fun r s₂ h₂ => ?_
    exact Ends.value ⟨h₂.1, Stays.passage.trans h₁.2.1.toStays h₂.2⟩

/-- Looking for names that are taken enters nothing. -/
theorem ends_takenNames (fs : List Raw.Function) (taken : List String) :
    Ends (fs.foldlM (fun taken f => do
      if taken.contains f.name then throw (Rule.functionAlreadyExists.about f.location f.name)
      return f.name :: taken) taken : Lowering (List String)) s fun _ s' => s' = s :=
  (comes_takenNames (R := fun _ => True) fs taken (fun _ => trivial) s).ends.mono fun _ _ h => h.2

theorem ends_blockFunctions (owner : Owner) (bs : List Raw.CodeBlock) :
    (taken : List String) → (s : Lowered) → s.Sound →
      Ends (blockFunctions owner taken bs) s fun ns s' => s'.Sound ∧ s.Stays s' ∧
        Enters owner s ns s' := by
  induction bs with
  | nil =>
    intro taken s hs
    unfold blockFunctions
    exact Ends.value ⟨hs, Stays.passage.refl s, .nil owner s s⟩
  | cons b rest ih =>
    intro taken s hs
    unfold blockFunctions
    refine (ends_takenNames b.functions taken).seq fun taken' s₁ h₁ => ?_
    subst h₁
    refine (ends_functions owner b.functions hs).seq fun ns s₂ h₂ => ?_
    refine (ih _ s₂ h₂.1).seq fun ns' s₃ h₃ => ?_
    exact Ends.value ⟨h₃.1, Stays.passage.trans h₂.2.1 h₃.2.1,
      h₂.2.2.append h₃.2.2 h₂.2.1 h₃.2.1⟩

/-- What is said of each declaration with its number is said of all of them. -/
theorem ends_numbered {α β : Type} {enter : α → Nat → Lowering β} {I : Nat → Lowered → Prop}
    {K : Lowered → Lowered → Prop} (hK : Passage K) {P : Nat → β → Lowered → Prop}
    (stays : ∀ {k b s s'}, P k b s → K s s' → P k b s')
    (step : ∀ a k s, I k s → Ends (enter a k) s fun b s' => I (k + 1) s' ∧ K s s' ∧ P k b s')
    (as : List α) : (number : Nat) → (s : Lowered) → I number s →
      Ends (numbered enter number as) s fun bs s' => I (number + as.length) s' ∧ K s s' ∧
        bs.length = as.length ∧ ∀ (k : Nat) (b : β), bs[k]? = some b → P (number + k) b s' := by
  induction as with
  | nil =>
    intro number s hs
    unfold numbered
    exact Ends.value ⟨hs, hK.refl s, rfl, by simp⟩
  | cons a rest ih =>
    intro number s hs
    unfold numbered
    refine (step a number s hs).seq fun b s₁ h₁ => ?_
    refine (ih _ s₁ h₁.1).seq fun bs s₂ h₂ => ?_
    obtain ⟨hI, hk, hlength, hbs⟩ := h₂
    rw [Nat.add_assoc, Nat.add_comm 1] at hI
    refine Ends.value ⟨hI, hK.trans h₁.2.1 hk, congrArg (· + 1) hlength, fun k c hc => ?_⟩
    cases k with
    | zero =>
      obtain rfl : b = c := by simpa using hc
      exact stays h₁.2.2 hk
    | succ k =>
      have := hbs k c (by simpa using hc)
      rwa [Nat.add_right_comm, Nat.add_assoc] at this

/-- The functions of a library, or of a module, are its own. -/
theorem ends_library (b : Raw.CodeBlock) (k : Nat) (s : Lowered) (hs : s.Sound) :
    Ends (library b k) s fun l s' => s'.Sound ∧ s.Stays s' ∧
      (∀ n ∈ l.functions, Owned (.library k) n s') ∧ l.functions.Nodup := by
  unfold library
  exact (ends_functions _ b.functions hs).seq fun ns s₁ h₁ =>
    Ends.value ⟨h₁.1, h₁.2.1, h₁.2.2.owned, h₁.2.2.distinct⟩

theorem ends_module (m : Raw.Module) (k : Nat) (s : Lowered) (hs : s.Sound) :
    Ends (module m k) s fun m' s' => s'.Sound ∧ s.Stays s' ∧
      (∀ n ∈ m'.functions, Owned (.module k) n s') ∧ m'.functions.Nodup := by
  unfold module
  refine (ends_dataSets m.dataSets [] s hs).seq fun ds s₁ h₁ => ?_
  refine (ends_blockFunctions _ m.codeBlocks [] s₁ h₁.1).seq fun ns s₂ h₂ => ?_
  exact Ends.value ⟨h₂.1, Stays.passage.trans h₁.2 h₂.2.1, h₂.2.2.owned, h₂.2.2.distinct⟩

end Lowering

/-! ## Programs -/

/-- Tables in order: what is written in them can be checked. `visible` says which functions those
of an owner can call. -/
structure Program.Written (p : Program) (visible : Owner → Nat → Bool) : Prop where
  builtin : p.types.Builtin
  flat : p.types.Flat
  structSizes : p.types.structSizes = []
  constants : ∀ (k : Nat) (c : Constant), p.constants[k]? = some c →
    c.folded = none ∧ c.value.Plain p.types fun _ => false
  lengths : ∀ (n : Nat) (e : Expr), p.lengths[n]? = some e → e.Plain p.types fun _ => false
  functions : ∀ (n : Nat) (f : Function), p.functions[n]? = some f → ∀ body,
    f.user? = some body → body.Written p.types (visible f.owner)
  modules : ∀ (k : Nat) (m : Module), p.modules[k]? = some m → ∀ n ∈ m.functions,
    ∃ f, p.functions[n]? = some f ∧ f.owner = .module k
  distinct : ∀ m ∈ p.modules, m.functions.Nodup
  libraries : ∀ (k : Nat) (l : Library), p.libraries[k]? = some l → ∀ n ∈ l.functions,
    ∃ f, p.functions[n]? = some f ∧ f.owner = .library k
  apart : ∀ l ∈ p.libraries, l.functions.Nodup
  structs : p.types.Numbers p.structs.size

/-- No variable of the program is implicit yet. -/
def Program.Unbound (p : Program) : Prop := ∀ (n : Nat) (f : Function), p.functions[n]? = some f →
  ∀ body, f.user? = some body → body.implicit = []

namespace Lowering

open Lowered

theorem sound_initial : (⟨.initial, #[], [], #[], #[]⟩ : Lowered).Sound where
  builtin := TypeTable.builtin_initial
  flat := TypeTable.flat_initial
  string := by decide
  structSizes := rfl
  lengths := by simp
  locals := by simp
  functions := by simp

theorem ends_program (r : Raw.Program) (hs : s.Sound) (hnumbers : s.types.Numbers 0) :
    Ends (program r) s fun p _ => p.1.Written (fun _ _ => false) ∧ p.1.Unbound := by
  unfold program
  refine (ends_constants r.constants [] s hs).seq fun cs s₁ h₁ => ?_
  refine (ends_numbered (I := fun k s => s.Sound ∧ s.types.Numbers k) (P := fun _ _ _ => True)
    Extends.passage (fun _ _ => trivial)
    (fun a k s hs => (ends_struct a k hs.1 hs.2).mono fun _ _ h => ⟨h.1, h.2, trivial⟩) r.structs 0
    s₁ ⟨h₁.1, hnumbers.sameStructs h₁.2.1.structs⟩).seq fun ss s₂ h₂ => ?_
  refine (ends_numbered (I := fun _ => Lowered.Sound)
    (P := fun k l s => (∀ n ∈ l.functions, Owned (.library k) n s) ∧ l.functions.Nodup)
    Stays.passage (fun h hs => ⟨fun n hn => (h.1 n hn).stays hs, h.2⟩) ends_library r.libraries 0 s₂
    h₂.1.1).seq fun ls s₃ h₃ => ?_
  refine (ends_numbered (I := fun _ => Lowered.Sound)
    (P := fun k m s => (∀ n ∈ m.functions, Owned (.module k) n s) ∧ m.functions.Nodup)
    Stays.passage (fun h hs => ⟨fun n hn => (h.1 n hn).stays hs, h.2⟩) ends_module r.modules 0 s₃
    h₃.1).seq
    fun ms s₄ h₄ => ?_
  refine Ends.reads (Ends.value ?_)
  have hs₄ := h₄.1
  have hE := h₂.2.1.types.trans (h₃.2.1.types.trans h₄.2.1.types)
  have hnumbers₄ : s₄.types.Numbers r.structs.length := by
    have h := (h₂.1.2.sameStructs h₃.2.1.structs).sameStructs h₄.2.1.structs
    rwa [Nat.zero_add] at h
  refine ⟨?_, fun n f hf body hb => (hs₄.functions n f hf body hb).2⟩
  exact {
    builtin := hs₄.builtin
    flat := hs₄.flat
    structSizes := hs₄.structSizes
    constants := fun k c hc => by
      obtain ⟨hf, hp⟩ := h₁.2.2 c (List.mem_of_getElem? (by simpa using hc))
      exact ⟨hf, hp.extends hE⟩
    lengths := hs₄.lengths
    functions := fun n f hf body hb => (hs₄.functions n f hf body hb).1
    modules := fun k m hm => by simpa [Owned] using (h₄.2.2.2 k m hm).1
    distinct := fun m hm => by
      obtain ⟨k, hk⟩ := List.mem_iff_getElem?.1 hm
      exact (h₄.2.2.2 k m hk).2
    libraries := fun k l hl n hn => by
      have := ((h₃.2.2.2 k l hl).1 n hn).stays h₄.2.1
      simpa [Owned] using this
    apart := fun l hl => by
      obtain ⟨k, hk⟩ := List.mem_iff_getElem?.1 hl
      exact (h₃.2.2.2 k l hk).2
    structs := by
      rw [List.size_toArray, h₂.2.2.1]
      exact hnumbers₄ }

end Lowering

namespace Program

/-- Resolved types leave tables in order. -/
theorem Written.resolved {p p' : Program} {visible : Owner → Nat → Bool} {ms : List TypeMention}
    (h : p.Written visible) (hp : p.bindTypes ms = .ok p') :
    p'.Written visible ∧ p'.functions = p.functions := by
  induction ms generalizing p with
  | nil =>
    obtain rfl : p = p' := by simpa [bindTypes] using hp
    exact ⟨h, rfl⟩
  | cons m rest ih =>
    unfold bindTypes at hp
    split at hp
    next name hname =>
      split at hp
      next number hnumber =>
        have hu : (p.types.get m.type).isUnresolved = true := by rw [hname]; rfl
        have hE := TypeTable.extends_resolve (d := .struct number name) hu (by simp)
        have hw : Written { p with types := p.types.resolve m.type (.struct number name) }
            visible := {
          builtin := h.builtin.extends hE
          flat := h.flat.resolve hu (by simp) (by simp)
          structSizes := h.structSizes
          constants := fun k c hc => ⟨(h.constants k c hc).1, (h.constants k c hc).2.extends hE⟩
          lengths := fun n e he => (h.lengths n e he).extends hE
          functions := fun n f hf body hb => (h.functions n f hf body hb).extends hE
          modules := h.modules
          distinct := h.distinct
          libraries := h.libraries
          apart := h.apart
          structs := h.structs.resolve (by
            obtain ⟨hlt, -⟩ := Array.findIdx?_eq_some_iff_getElem.1 hnumber
            exact hlt) }
        have := ih hw hp
        exact this
      next => cases hp
    next => exact ih h hp

/-- **A program that is entered has its tables in order.** -/
theorem written_ofRaw {r : Raw.Program} {p : Program} (h : ofRaw r = .ok p) :
    p.Written (fun _ _ => false) ∧ p.Unbound := by
  obtain ⟨x, hx, h⟩ := Checked.bind_eq_ok.1 h
  obtain ⟨s, hrun⟩ := run'_eq_ok.1 hx
  obtain ⟨hw, hu⟩ := Lowering.ends_program r Lowering.sound_initial TypeTable.numbers_initial _ _
    hrun
  obtain ⟨hw', hf⟩ := hw.resolved h
  exact ⟨hw', fun n f hn => hu n f (hf ▸ hn)⟩

end Program

end ChannelBasic
