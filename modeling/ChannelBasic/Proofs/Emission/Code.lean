import ChannelBasic.Proofs.Emission.State
import ChannelBasic.Proofs.Program.Layout

/-!
# Proofs/Emission/Code — what the code of an expression and of a statement consists of

`e.Loads ctx z code` says which pieces the code of an expression is put together from, `z` knowing
the texts and the labels of functions; `s.Emits ctx z code` says the same of a statement.  The order
in which texts and labels were handed out is forgotten.  **Emitting comes to code of this form**
(`ends_load`, `ends_stmt`), whatever is emitted later.
-/

namespace ChannelBasic

open Code

/-- The instruction that pushes what lies at a place. -/
def Place.load (size : Nat) : Place → Instruction
  | .frame offset => .load .frame (Word.size32 size) (.value (Int32.ofInt offset))
  | .data offset => .load .global (Word.size32 size) (.dynamic (Int32.ofInt offset))

/-- The instruction that pops what is to lie at a place. -/
def Place.store (size : Nat) : Place → Instruction
  | .frame offset => .store .frame (Word.size32 size) (.value (Int32.ofInt offset))
  | .data offset => .store .global (Word.size32 size) (.dynamic (Int32.ofInt offset))

/-- The instruction that pushes the address of a place. -/
def Place.pointer : Place → Instruction
  | .frame offset => .load .framePointer 4 (.value (Int32.ofInt offset))
  | .data offset => .load .immediate 4 (.dynamic (Int32.ofInt offset))

namespace EmissionContext

/-- How instructions name the type of an expression, and its size. -/
def Types (ctx : EmissionContext) (e : Expr) (kind : ValueType) (size : Nat) : Prop :=
  ∃ t, e.type? = some t ∧ ctx.program.types.valueType t = kind ∧
    ctx.program.types.size? t = some size

/-- An expression that is no place but comes to a text, in a record of some capacity. -/
def TextOf (ctx : EmissionContext) (e : Expr) (content : String) (capacity : Nat) : Prop :=
  ctx.place? e = none ∧
    e.fold ctx.program.types ctx.program.constantValue = some (.text content) ∧
    ∃ t, e.type? = some t ∧
      (ctx.program.types.capacity? t).getD (Utf16.units content) = capacity

end EmissionContext

/-- Bytes of the result of a function. -/
def TypeTable.resultSize? (types : TypeTable) : Option TypeId → Option Nat
  | some type => types.size? type
  | none => some 0

namespace EmissionState

/-- An operand that stands for a text in a record of some capacity. -/
def Text (z : EmissionState) (content : String) (capacity : Nat) (x : Operand) : Prop :=
  ∃ t ∈ z.static.texts, t.content = content ∧ t.capacity = capacity ∧
    x = .static (Int32.ofNat t.offset)

/-- The instruction that calls a function. -/
def Calls (z : EmissionState) (f : Function) (number : Nat) (i : Instruction) : Prop :=
  match f.body with
  | .native _ => ∃ x, z.Text f.name (Utf16.units f.name) x ∧ i = .call .native x
  | .user _ => ∃ l, (number, l) ∈ z.entries ∧ i = .call .user (.label l)

theorem Text.known {s z : EmissionState} {content : String} {capacity : Nat}
    {x : Operand} (h : s.Text content capacity x) (hg : s.Known z) : z.Text content capacity x := by
  obtain ⟨t, ht, h⟩ := h
  exact ⟨t, hg.texts t ht, h⟩

end EmissionState

/-- The instruction that pushes a literal as a value of a type of `size` bytes. -/
def Literal.Loads (types : TypeTable) (z : EmissionState) (type : TypeId) (size : Nat)
    (i : Instruction) : Literal → Prop
  | .boolean b => i = .loadImmediate (Word.size32 size) (if b then 1 else 0)
  | .integral n => i = .loadImmediate (Word.size32 size)
      (if types.valueType type = .real then (Fixed.ofInt n).raw else n)
  | .real x => i = .loadImmediate (Word.size32 size)
      (if (types.valueType type).isIntegral then x.toInt else x.raw)
  | .text content => ∃ x, z.Text content ((types.capacity? type).getD (Utf16.units content)) x ∧
      i = .load .global (Word.size32 size) x

/-- The instruction of a binary operator; `result` knows the bytes of its result. -/
def BinaryOp.Emits (op : BinaryOp) (kind : ValueType) (left right : Nat) (result : Nat → Prop)
    (i : Instruction) : Prop :=
  (∃ c, op.comparison? = some c ∧
    i = .compare kind c (Word.size32 left) (Word.size32 right)) ∨
  op.comparison? = none ∧ ∃ code n, op.opcode? = some code ∧ result n ∧
    i = .binary code kind (Word.size32 left) (Word.size32 right) (Word.size32 n)

/-- The code behind the operand of an operator. -/
def UnaryOp.tail (kind : ValueType) (size : Nat) : UnaryOp → List Piece
  | .plus => []
  | .minus => [.op (.unary .NEG kind (Word.size32 size))]
  | .not => [.op (.unary .NOT kind (Word.size32 size))]

/-- Room for the result of a function that is going to be called. -/
def roomFor (returns : Option TypeId) (size : Nat) : List Piece :=
  if returns.isSome then [Emission.loadZeros size] else []

/-- Arguments are dropped after a call. -/
def dropped (bytes : Nat) : List Piece :=
  if bytes = 0 then [] else [.op (.pop (Word.size32 bytes))]

mutual

/-- The code that pushes the value of an expression. -/
def Expr.Loads (ctx : EmissionContext) (z : EmissionState) (code : List Piece) : Expr → Prop
  | .literal i v => ∃ t n last, i.type = some t ∧ ctx.program.types.size? t = some n ∧
      v.Loads ctx.program.types z t n last ∧ code = [.op last]
  | .name i _ (some (.constant k)) => ∃ t v n last, i.type = some t ∧
      ctx.program.constantValue k = some v ∧
      ctx.program.types.size? (ctx.program.types.base t) = some n ∧
      v.Loads ctx.program.types z (ctx.program.types.base t) n last ∧ code = [.op last]
  | .name i title decl => ∃ kind n place, ctx.Types (.name i title decl) kind n ∧
      ctx.place? (.name i title decl) = some place ∧ code = [.op (place.load n)]
  | .member i target field decl => ∃ kind n place,
      ctx.Types (.member i target field decl) kind n ∧
      ctx.place? (.member i target field decl) = some place ∧ code = [.op (place.load n)]
  | .call _ _ arguments callee => ∃ number f size pushed bytes last, callee = some number ∧
      ctx.program.functions[number]? = some f ∧ ctx.program.types.resultSize? f.returns = some size ∧
      Expr.LoadsAll ctx z pushed bytes arguments ∧ z.Calls f number last ∧
      code = roomFor f.returns size ++ pushed ++ [.op last] ++ dropped bytes
  | .unary _ op operand => ∃ kind n first, operand.Loads ctx z first ∧ ctx.Types operand kind n ∧
      code = first ++ op.tail kind n
  | .binary i op left right => ∃ kind l kind' r first second last, ctx.Types left kind l ∧
      ctx.Types right kind' r ∧ right.Loads ctx z first ∧ left.Loads ctx z second ∧
      op.Emits kind l r (fun n => ∃ k, ctx.Types (.binary i op left right) k n) last ∧
      code = first ++ second ++ [.op last]
  | .cast i operand => ∃ source n target n' first, operand.Loads ctx z first ∧
      ctx.Types operand source n ∧ ctx.Types (.cast i operand) target n' ∧
      code = first ++ [.op (.cast source (Word.size32 n) target (Word.size32 n'))]
  | .pointer _ target (some offset) => ∃ kind n first, ctx.Types target kind n ∧
      target.Loads ctx z first ∧ code = first ++ [.op ((Place.frame offset).store n),
        .op (Place.frame offset).pointer]
  | .pointer _ target none => (∃ place, ctx.place? target = some place ∧
      code = [.op place.pointer]) ∨
    ∃ content capacity x, ctx.TextOf target content capacity ∧ z.Text content capacity x ∧
      code = [.op (.load .immediate 4 x)]

/-- The code that pushes arguments, the last one first, and how many bytes they take. -/
def Expr.LoadsAll (ctx : EmissionContext) (z : EmissionState) (code : List Piece) (bytes : Nat) :
    List Expr → Prop
  | [] => code = [] ∧ bytes = 0
  | e :: rest => ∃ later k first kind n, Expr.LoadsAll ctx z later k rest ∧
      e.Loads ctx z first ∧ ctx.Types e kind n ∧ code = later ++ first ∧ bytes = k + n

end

/-! ## Parts of expressions -/

namespace Emission

variable {ctx : EmissionContext} {s : EmissionState} {C : Nat → Prop}

theorem ends_typeOf (e : Expr) :
    Ends (typeOf e) s fun t s' => s' = s ∧ e.type? = some t := by
  unfold typeOf
  split
  next t ht => exact Ends.value ⟨rfl, ht⟩
  next => exact Ends.refused

theorem ends_sizeOf (place : Location) (type : TypeId) :
    Ends (sizeOf ctx place type) s fun k s' =>
      s' = s ∧ ctx.program.types.size? type = some k :=
  Ends.lifts fun _ h => ⟨rfl, TypeTable.sizeAt_eq_ok.1 h⟩

theorem ends_typed (e : Expr) :
    Ends (typed ctx e) s fun r s' => s' = s ∧ ctx.Types e r.1 r.2 := by
  unfold typed
  refine (ends_typeOf e).seq fun t s₁ h => ?_
  obtain ⟨rfl, ht⟩ := h
  refine (ends_sizeOf e.location t).seq fun k s₂ h => ?_
  obtain ⟨rfl, hk⟩ := h
  exact Ends.value ⟨rfl, t, ht, rfl, hk⟩

theorem ends_literal (place : Location) (v : Literal) (type : TypeId) :
    Ends (literal ctx place v type) s fun code s' => s.Grows C s' ∧ ∃ k last,
      ctx.program.types.size? type = some k ∧ code = [.op last] ∧
      ∀ z, s'.Known z → v.Loads ctx.program.types z type k last := by
  unfold literal
  refine (ends_sizeOf place type).seq fun k s₁ h => ?_
  obtain ⟨rfl, hk⟩ := h
  cases v with
  | boolean b => exact Ends.value ⟨.refl C _, k, _, hk, rfl, fun _ _ => rfl⟩
  | integral i => exact Ends.value ⟨.refl C _, k, _, hk, rfl, fun _ _ => rfl⟩
  | real x => exact Ends.value ⟨.refl C _, k, _, hk, rfl, fun _ _ => rfl⟩
  | text content =>
    refine (ends_intern (C := C) _ _).seq fun x s₂ h => ?_
    exact Ends.value ⟨h.1, k, _, hk, rfl, fun z hz =>
      ⟨x, EmissionState.Text.known h.2 hz, rfl⟩⟩

theorem ends_loadPlace (e : Expr) :
    Ends (loadPlace ctx e) s fun code s' => s' = s ∧ ∃ kind k place, ctx.Types e kind k ∧
      ctx.place? e = some place ∧ code = [.op (place.load k)] := by
  unfold loadPlace
  refine (ends_typed e).seq fun r s₁ h => ?_
  obtain ⟨rfl, ht⟩ := h
  dsimp only
  split
  next offset hp => exact Ends.value ⟨rfl, _, _, _, ht, hp, rfl⟩
  next offset hp => exact Ends.value ⟨rfl, _, _, _, ht, hp, rfl⟩
  next => exact Ends.refused

theorem ends_store (e : Expr) :
    Ends (store ctx e) s fun code s' => s' = s ∧ ∃ kind k place, ctx.Types e kind k ∧
      ctx.place? e = some place ∧ code = [.op (place.store k)] := by
  unfold store
  refine (ends_typed e).seq fun r s₁ h => ?_
  obtain ⟨rfl, ht⟩ := h
  dsimp only
  split
  next offset hp => exact Ends.value ⟨rfl, _, _, _, ht, hp, rfl⟩
  next offset hp => exact Ends.value ⟨rfl, _, _, _, ht, hp, rfl⟩
  next => exact Ends.refused

theorem ends_address (e : Expr) :
    Ends (address ctx e) s fun code s' => s.Grows C s' ∧
      ((∃ place, ctx.place? e = some place ∧ code = [.op place.pointer]) ∨
        ∃ content capacity x, ctx.TextOf e content capacity ∧ code = [.op (.load .immediate 4 x)] ∧
          ∀ z, s'.Known z → z.Text content capacity x) := by
  unfold address
  split
  next offset hp => exact Ends.value ⟨.refl C s, .inl ⟨_, hp, rfl⟩⟩
  next offset hp => exact Ends.value ⟨.refl C s, .inl ⟨_, hp, rfl⟩⟩
  next hplace =>
    split
    next content hc =>
      refine (ends_typeOf e).seq fun t s₁ h => ?_
      obtain ⟨rfl, ht⟩ := h
      refine (ends_intern (C := C) _ _).seq fun x s₂ h => ?_
      exact Ends.value ⟨h.1, .inr ⟨content, _, x, ⟨hplace, hc, t, ht, rfl⟩, rfl,
        fun z hz => EmissionState.Text.known h.2 hz⟩⟩
    next => exact Ends.refused

theorem ends_operator (op : BinaryOp) (place : Location) (kind : ValueType) (left right : Nat)
    {result : Emission Nat} {Q : Nat → Prop}
    (hresult : ∀ s, Ends result s fun k s' => s' = s ∧ Q k) :
    Ends (operator op place kind left right result) s fun last s' => s' = s ∧
      ∃ i, last = .op i ∧ op.Emits kind left right Q i := by
  unfold operator
  split
  next c hc => exact Ends.value ⟨rfl, _, rfl, .inl ⟨c, hc, rfl⟩⟩
  next code hc hcode =>
    refine (hresult s).seq fun k s₁ h => ?_
    obtain ⟨rfl, hk⟩ := h
    exact Ends.value ⟨rfl, _, rfl, .inr ⟨hc, code, k, hcode, hk, rfl⟩⟩
  next => exact Ends.refused

theorem ends_callee (f : Function) {k : Nat} (hk : C k) :
    Ends (callee f k) s fun last s' => s.Grows C s' ∧ ∃ i, last = .op i ∧
      ∀ z, s'.Known z → z.Calls f k i := by
  unfold callee
  cases hf : f.body with
  | native arguments =>
    refine (ends_intern (C := C) _ _).seq fun x s₁ h => ?_
    refine Ends.value ⟨h.1, _, rfl, fun z hz => ?_⟩
    rw [EmissionState.Calls, hf]
    exact ⟨x, EmissionState.Text.known h.2 hz, rfl⟩
  | user body =>
    refine (ends_entry hk).seq fun l s₁ h => ?_
    refine Ends.value ⟨h.1, _, rfl, fun z hz => ?_⟩
    rw [EmissionState.Calls, hf]
    exact ⟨l, hz.entries _ h.2, rfl⟩

/-- Room for a result, if there is one. -/
theorem ends_resultRoom (types : TypeTable) (place : Location) (returns : Option TypeId) :
    Ends (resultRoom types place returns) s fun code s' => s' = s ∧ ∃ k,
      types.resultSize? returns = some k ∧ code = roomFor returns k := by
  cases returns with
  | none => exact Ends.value ⟨rfl, 0, rfl, rfl⟩
  | some type =>
    refine Ends.seq (P := fun k s' => s' = s ∧ types.size? type = some k)
      (Ends.lifts fun _ h => ⟨rfl, TypeTable.sizeAt_eq_ok.1 h⟩) fun k s₁ h => ?_
    obtain ⟨rfl, hk⟩ := h
    exact Ends.value ⟨rfl, k, hk, rfl⟩

/-! ## Expressions -/

mutual

/-- **Code is emitted for an expression in the form that `Loads` says.** -/
theorem ends_load {ctx : EmissionContext} {C : Nat → Prop} : (e : Expr) → (s : EmissionState) →
    Mention.Allow ctx.program.functions.size C e.mentions →
    Ends (load ctx e) s fun code s' => s.Grows C s' ∧
      ∀ z, s'.Known z → e.Loads ctx z code
  | .literal i v, s, _ => by
    unfold load
    refine (ends_typeOf _).seq fun t s₁ h => ?_
    obtain ⟨rfl, ht⟩ := h
    refine (ends_literal (C := C) i.location v t).mono fun code s₂ h => ?_
    obtain ⟨hg, k, last, hk, rfl, hl⟩ := h
    exact ⟨hg, fun z hz => ⟨t, k, last, ht, hk, hl z hz, rfl⟩⟩
  | .name i title decl, s, _ => by
    have place (h : ∀ k, decl ≠ some (.constant k)) :
        Ends (loadPlace ctx (.name i title decl)) s fun code s' =>
          s.Grows C s' ∧
            ∀ z, s'.Known z →
              (Expr.name i title decl).Loads ctx z code := by
      refine (ends_loadPlace _).mono fun code s₁ h₁ => ?_
      obtain ⟨rfl, h₁⟩ := h₁
      refine ⟨.refl _ _, fun z _ => ?_⟩
      match decl, h with
      | none, _ | some (.localVar _), _ | some (.argument _), _ | some (.dataField _), _ =>
        exact h₁
      | some (.constant k), h => exact absurd rfl (h k)
    unfold load
    match decl with
    | some (.constant k) =>
      dsimp only
      split
      next v hv =>
        refine (ends_typeOf _).seq fun t s₁ h => ?_
        obtain ⟨rfl, ht⟩ := h
        refine (ends_literal (C := C) _ v _).mono fun code s₂ h => ?_
        obtain ⟨hg, k', last, hk, rfl, hl⟩ := h
        exact ⟨hg, fun z hz => ⟨t, v, k', last, ht, hv, hk, hl z hz, rfl⟩⟩
      next => exact Ends.refused
    | none => exact place (by simp)
    | some (.localVar _) => exact place (by simp)
    | some (.argument _) => exact place (by simp)
    | some (.dataField _) => exact place (by simp)
  | .member i target field decl, s, _ => by
    unfold load
    refine (ends_loadPlace _).mono fun code s₁ h => ?_
    obtain ⟨rfl, h⟩ := h
    exact ⟨.refl _ _, fun z _ => h⟩
  | .call i title arguments callee, s, hC => by
    unfold load
    split
    next => exact Ends.refused
    next f number hf =>
      obtain ⟨number', rfl, hf⟩ := Option.bind_eq_some_iff.1 hf
      obtain ⟨f', hf', heq⟩ := Option.map_eq_some_iff.1 hf
      obtain ⟨rfl, rfl⟩ := Prod.mk.inj heq
      have hnumber : C number' := hC number' (Array.getElem?_eq_some_iff.1 hf').1 (by simp [Expr.mentions])
      have harguments : Mention.Allow ctx.program.functions.size C (Expr.mentionsAll arguments) :=
        fun k hk hmem => hC k hk (by simp [Expr.mentions, hmem])
      refine (ends_resultRoom _ _ _).seq fun room s₁ h => ?_
      obtain ⟨rfl, size, hsize, rfl⟩ := h
      refine (ends_loadArguments arguments s₁ harguments).seq fun r s₂ h₂ => ?_
      obtain ⟨hg₂, hargs⟩ := h₂
      refine (ends_callee f' hnumber).seq fun last s₃ h₃ => ?_
      obtain ⟨hg₃, i, rfl, hcall⟩ := h₃
      exact Ends.value ⟨hg₂.trans hg₃, fun z hz => ⟨number', f', size, r.1, r.2, i, rfl, hf', hsize,
        hargs z (hg₃.before hz), hcall z hz, rfl⟩⟩
  | .unary i op operand, s, hC => by
    unfold load
    refine (ends_load operand s hC).seq fun code s₁ h₁ => ?_
    obtain ⟨hg, hcode⟩ := h₁
    refine (ends_typed operand).seq fun r s₂ h₂ => ?_
    obtain ⟨rfl, ht⟩ := h₂
    have key : Ends (pure (code ++ op.tail r.1 r.2) : Emission (List Piece)) s₂ fun code s' =>
        s.Grows C s' ∧ ∀ z, s'.Known z →
          (Expr.unary i op operand).Loads ctx z code :=
      Ends.value ⟨hg, fun z hz => ⟨r.1, r.2, code, hcode z hz, ht, rfl⟩⟩
    cases op with
    | plus =>
      rw [UnaryOp.tail, List.append_nil] at key
      exact key
    | minus => exact key
    | not => exact key
  | .binary i op left right, s, hC => by
    obtain ⟨hCl, hCr⟩ := Mention.allow_append.1 hC
    unfold load
    refine (ends_typed left).seq fun l s₁ h₁ => ?_
    obtain ⟨rfl, hl⟩ := h₁
    refine (ends_typed right).seq fun r s₂ h₂ => ?_
    obtain ⟨rfl, hr⟩ := h₂
    dsimp only
    split
    · refine (ends_load right s₂ hCr).seq fun first s₃ h₃ => ?_
      obtain ⟨hg₃, hfirst⟩ := h₃
      refine (ends_load left s₃ hCl).seq fun second s₄ h₄ => ?_
      obtain ⟨hg₄, hsecond⟩ := h₄
      refine (ends_operator op i.location l.1 l.2 r.2
        (Q := fun k => ∃ kind, ctx.Types (.binary i op left right) kind k) fun s => ?_).seq
        fun last s₅ h₅ => ?_
      · refine (ends_typed _).seq fun r s₁ h => ?_
        exact Ends.value ⟨h.1, _, h.2⟩
      · obtain ⟨rfl, i, rfl, hop⟩ := h₅
        exact Ends.value ⟨hg₃.trans hg₄, fun z hz => ⟨l.1, l.2, r.1, r.2, first, second, i, hl, hr,
          hfirst z (hg₄.before hz), hsecond z hz, hop, rfl⟩⟩
    · exact Ends.refused_seq
  | .cast i operand, s, hC => by
    unfold load
    refine (ends_load operand s hC).seq fun code s₁ h₁ => ?_
    obtain ⟨hg, hcode⟩ := h₁
    refine (ends_typed operand).seq fun r s₂ h₂ => ?_
    obtain ⟨rfl, ht⟩ := h₂
    refine (ends_typed (.cast i operand)).seq fun r' s₃ h₃ => ?_
    obtain ⟨rfl, ht'⟩ := h₃
    exact Ends.value ⟨hg, fun z hz => ⟨r.1, r.2, r'.1, r'.2, code, hcode z hz, ht, ht', rfl⟩⟩
  | .pointer i target (some offset), s, hC => by
    unfold load
    dsimp only
    refine (ends_typed target).seq fun r s₁ h₁ => ?_
    obtain ⟨rfl, ht⟩ := h₁
    refine (ends_load target s₁ hC).seq fun code s₂ h₂ => ?_
    exact Ends.value ⟨h₂.1, fun z hz => ⟨r.1, r.2, code, ht, h₂.2 z hz, rfl⟩⟩
  | .pointer i target none, s, _ => by
    unfold load
    dsimp only
    refine (ends_address (C := C) target).mono fun code s₁ h => ?_
    obtain ⟨hg, h⟩ := h
    refine ⟨hg, fun z hz => ?_⟩
    obtain h | ⟨content, capacity, x, htext, rfl, hx⟩ := h
    · exact .inl h
    · exact .inr ⟨content, capacity, x, htext, hx z hz, rfl⟩

theorem ends_loadArguments {ctx : EmissionContext} {C : Nat → Prop} :
    (es : List Expr) → (s : EmissionState) →
    Mention.Allow ctx.program.functions.size C (Expr.mentionsAll es) →
    Ends (loadArguments ctx es) s fun r s' => s.Grows C s' ∧
      ∀ z, s'.Known z → Expr.LoadsAll ctx z r.1 r.2 es
  | [], s, _ => by
    unfold loadArguments
    exact Ends.value ⟨.refl _ s, fun z _ => ⟨rfl, rfl⟩⟩
  | e :: rest, s, hC => by
    obtain ⟨hCe, hCrest⟩ := Mention.allow_append.1 hC
    unfold loadArguments
    refine (ends_loadArguments rest s hCrest).seq fun r s₁ h₁ => ?_
    obtain ⟨hg₁, hrest⟩ := h₁
    refine (ends_load e s₁ hCe).seq fun code s₂ h₂ => ?_
    obtain ⟨hg₂, hcode⟩ := h₂
    refine (ends_typed e).seq fun t s₃ h₃ => ?_
    obtain ⟨rfl, ht⟩ := h₃
    exact Ends.value ⟨hg₁.trans hg₂, fun z hz => ⟨r.1, r.2, code, t.1, t.2,
      hrest z (hg₂.before hz), hcode z hz, ht, rfl, rfl⟩⟩

end

end Emission

/-! ## Statements -/

/-- The code that gives a variable its first value.  The zeros are left out where one record
covers the whole variable. -/
def EmissionContext.Initialises (ctx : EmissionContext) (z : EmissionState) (index : Nat)
    (code : List Piece) : Prop :=
  ∃ v t n zeros records, ctx.body.locals[index]? = some v ∧ v.type = some t ∧
    ctx.program.types.size? t = some n ∧
    (zeros = [Emission.loadZeros n, .op ((Place.frame v.offset).store n)] ∨
      zeros = [] ∧ ∃ c rest, ctx.program.strings t = (0, c) :: rest ∧ stringSize c = n) ∧
    List.Forall₂ (fun r pieces => ∃ x, z.Text "" r.2 x ∧
      pieces = [Piece.op (.load .global (Word.size32 (stringSize r.2)) x),
        .op ((Place.frame (v.offset + r.1)).store (stringSize r.2))])
      (ctx.program.strings t) records ∧ code = zeros ++ records.flatten

/-- The code that pushes the step of a counting loop, which is one if none is given. -/
def EmissionContext.LoadsStep (ctx : EmissionContext) (z : EmissionState) (counter : Expr)
    (code : List Piece) : Option Expr → Prop
  | some e => e.Loads ctx z code
  | none => ∃ t n last, counter.type? = some t ∧ ctx.program.types.size? t = some n ∧
      (Literal.integral 1).Loads ctx.program.types z t n last ∧ code = [.op last]

/-- The code of a counting loop, put together from that of its parts. -/
def countCode (kind : ValueType) (n : Nat) (place : Place) (temps : Temps) (head exit : Label)
    (finish step start load load' body : List Piece) : List Piece :=
  (finish ++ [Piece.op ((Place.frame temps.finish).store n)] ++ step ++
    [Piece.op (.dup (Word.size32 n)), .op ((Place.frame temps.step).store n),
      .op (.unary .SIGN kind (Word.size32 n)), .op ((Place.frame temps.sign).store 1)] ++
    start ++ [Piece.op (place.store n)]) ++ [Piece.mark head] ++
  ([Piece.op ((Place.frame temps.finish).load n)] ++ load ++
    [Piece.op (.binary .SUB kind (Word.size32 n) (Word.size32 n) (Word.size32 n)),
      .op (.unary .SIGN kind (Word.size32 n)), .op ((Place.frame temps.sign).load 1),
      .op (.compare .byte .equal 1 1), Emission.branchOn true exit]) ++ body ++
  ([Piece.op ((Place.frame temps.step).load n)] ++ load' ++
    [Piece.op (.binary .ADD kind (Word.size32 n) (Word.size32 n) (Word.size32 n))] ++
    [Piece.op (place.store n)]) ++ [Piece.op (.jump head), .mark exit]

/-- The jump over the branches that follow, if any do. -/
def Branches.skip (exit : Label) : Branches → List Piece
  | .done => []
  | _ => [.op (.jump exit)]

mutual

/-- The code of a statement. -/
def Stmt.Emits (ctx : EmissionContext) (z : EmissionState) (code : List Piece) : Stmt → Prop
  | .var _ index (some value) => ∃ v t n first, ctx.body.locals[index]? = some v ∧
      v.type = some t ∧ ctx.program.types.size? t = some n ∧ value.Loads ctx z first ∧
      code = first ++ [.op ((Place.frame v.offset).store n)]
  | .var _ index none => ctx.Initialises z index code
  | .assign _ value target => ∃ first kind n place, value.Loads ctx z first ∧
      ctx.Types target kind n ∧ ctx.place? target = some place ∧
      code = first ++ [.op (place.store n)]
  | .invoke _ call => ∃ first, call.Loads ctx z first ∧
      (call.type? = none ∧ code = first ∨
        ∃ kind n, ctx.Types call kind n ∧ code = first ++ [.op (.pop (Word.size32 n))])
  | .return _ none => code = Emission.leave ctx
  | .return _ (some e) => ∃ t n first, ctx.function.returns = some t ∧
      ctx.program.types.size? t = some n ∧ e.Loads ctx z first ∧
      code = first ++ [.op ((Place.frame ctx.body.frame.result).store n)] ++ Emission.leave ctx
  | .choose _ branches => ∃ exit first, branches.Emits ctx z exit first ∧
      code = first ++ [.mark exit]
  | .count _ counter start finish step body temps =>
    ∃ kind n place head exit finishCode stepCode startCode load load' bodyCode,
      ctx.Types counter kind n ∧ ctx.place? counter = some place ∧
      finish.Loads ctx z finishCode ∧ ctx.LoadsStep z counter stepCode step ∧
      start.Loads ctx z startCode ∧ counter.Loads ctx z load ∧ counter.Loads ctx z load' ∧
      Stmt.EmitsAll ctx z bodyCode body ∧
      code = countCode kind n place temps head exit finishCode stepCode startCode load load' bodyCode
  | .loop _ none body => ∃ head exit bodyCode, Stmt.EmitsAll ctx z bodyCode body ∧
      code = [.mark head] ++ bodyCode ++ [.op (.jump head), .mark exit]
  | .loop _ (some c) body => ∃ head exit test bodyCode, c.value.Loads ctx z test ∧
      Stmt.EmitsAll ctx z bodyCode body ∧
      code = if c.post then
        [.mark head] ++ bodyCode ++ test ++ [Emission.branchOn (!c.negative) head, .mark exit]
      else [.mark head] ++ test ++ [Emission.branchOn c.negative exit] ++ bodyCode ++
        [.op (.jump head), .mark exit]

/-- The code of some statements. -/
def Stmt.EmitsAll (ctx : EmissionContext) (z : EmissionState) (code : List Piece) :
    List Stmt → Prop
  | [] => code = []
  | s :: rest => ∃ first later, s.Emits ctx z first ∧ Stmt.EmitsAll ctx z later rest ∧
      code = first ++ later

/-- The code of the branches of an `IF`. -/
def Branches.Emits (ctx : EmissionContext) (z : EmissionState) (exit : Label)
    (code : List Piece) : Branches → Prop
  | .done => code = []
  | .otherwise body => Stmt.EmitsAll ctx z code body
  | .branch condition body rest => ∃ next test bodyCode others, condition.Loads ctx z test ∧
      Stmt.EmitsAll ctx z bodyCode body ∧ rest.Emits ctx z exit others ∧
      code = test ++ [Emission.branchOn false next] ++ bodyCode ++ rest.skip exit ++
        [.mark next] ++ others

end

/-- The code of a function: implicit variables get their first values, then the body runs. -/
def EmissionContext.Body (ctx : EmissionContext) (z : EmissionState) (code : List Piece) : Prop :=
  ∃ first statements, List.Forall₂ (ctx.Initialises z) ctx.body.implicit first ∧
    Stmt.EmitsAll ctx z statements ctx.body.statements ∧
    code = [.op (.enter (Word.size32 ctx.body.frame.locals))] ++ first.flatten ++ statements ++
      Emission.leave ctx

namespace Emission

variable {ctx : EmissionContext} {s : EmissionState} {C : Nat → Prop}

theorem ends_initialise (index : Nat) :
    Ends (initialise ctx index) s fun code s' => s.Grows C s' ∧
      ∀ z, s'.Known z → ctx.Initialises z index code := by
  unfold initialise
  split
  next => exact Ends.refused
  next v hv =>
    split
    next => exact Ends.refused
    next t ht =>
      refine (ends_sizeOf v.location t).seq fun k s₁ h => ?_
      obtain ⟨rfl, hk⟩ := h
      dsimp only
      refine (Ends.eachOf (I := fun _ => True) (K := EmissionState.Grows C) (s := s₁)
        (Q := fun r pieces (s' : EmissionState) => ∃ x, s'.Text "" r.2 x ∧
          pieces = [Piece.op (.load .global (Word.size32 (stringSize r.2)) x),
            .op ((Place.frame (v.offset + r.1)).store (stringSize r.2))])
        (EmissionState.Grows.passage C).refl (EmissionState.Grows.passage C).trans ?_ ?_
        trivial).seq fun records s₂ h₂ => ?_
      · rintro r pieces s s' ⟨x, hx, rfl⟩ hg
        exact ⟨x, hx.known hg.known, rfl⟩
      · rintro r - s -
        refine (ends_intern (C := C) "" r.2).seq fun x s₁ h => ?_
        exact Ends.value ⟨trivial, h.1, x, h.2, rfl⟩
      · obtain ⟨-, hg, hrecords⟩ := h₂
        refine Ends.value ⟨hg, fun z hz => ⟨v, t, k, _, records, hv, ht, hk, ?_, ?_, rfl⟩⟩
        · split
          next offset capacity rest hs =>
            split
            next hone =>
              rw [Bool.and_eq_true, beq_iff_eq, beq_iff_eq] at hone
              obtain ⟨rfl, hsize⟩ := hone
              exact .inr ⟨rfl, capacity, rest, hs, hsize⟩
            next => exact .inl rfl
          next => exact .inl rfl
        · refine hrecords.imp fun r pieces h => ?_
          obtain ⟨x, hx, rfl⟩ := h
          exact ⟨x, hx.known hz, rfl⟩

theorem ends_localSize (place : Location) (index : Nat) :
    Ends (localSize ctx place index) s fun k s' => s' = s ∧ ∃ v t,
      ctx.body.locals[index]? = some v ∧ v.type = some t ∧
      ctx.program.types.size? t = some k := by
  unfold localSize
  split
  next t ht =>
    obtain ⟨v, hv, ht⟩ := Option.bind_eq_some_iff.1 ht
    exact (ends_sizeOf place t).mono fun k s' h => ⟨h.1, v, t, hv, ht, h.2⟩
  next => exact Ends.refused

theorem localOffset_eq {index : Nat} {v : Local} (h : ctx.body.locals[index]? = some v) :
    localOffset ctx index = v.offset := by
  rw [localOffset, h]
  rfl

theorem ends_returnCode (value : Option Expr) (l : Location)
    (hC : Mention.Allow ctx.program.functions.size C (Expr.mentionsOf value)) :
    Ends (returnCode ctx value) s fun code s' => s.Grows C s' ∧
      ∀ z, s'.Known z → (Stmt.return l value).Emits ctx z code := by
  cases value with
  | none => exact Ends.value ⟨.refl _ s, fun _ _ => rfl⟩
  | some e =>
    unfold returnCode
    dsimp only
    split
    next => exact Ends.refused
    next t ht =>
      refine (ends_sizeOf _ t).seq fun k s₁ h => ?_
      obtain ⟨rfl, hk⟩ := h
      refine (ends_load e s₁ hC).seq fun code s₂ h₂ => ?_
      exact Ends.value ⟨h₂.1, fun z hz => ⟨t, k, code, ht, hk, h₂.2 z hz, rfl⟩⟩

theorem ends_stepCode (counter : Expr) {t : TypeId} (ht : counter.type? = some t)
    (step : Option Expr)
    (hC : Mention.Allow ctx.program.functions.size C (Expr.mentionsOf step)) :
    Ends (stepCode ctx counter.location t step) s fun code s' =>
      s.Grows C s' ∧
        ∀ z, s'.Known z → ctx.LoadsStep z counter code step := by
  cases step with
  | some e => exact ends_load e s hC
  | none =>
    refine (ends_literal (C := C) counter.location (.integral 1) t).mono
      fun code s' h => ?_
    obtain ⟨hg, k, last, hk, rfl, hl⟩ := h
    exact ⟨hg, fun z hz => ⟨t, k, last, ht, hk, hl z hz, rfl⟩⟩

/-- The parts of the code before a counting loop. -/
theorem ends_countStart (counter start finish : Expr) (step : Option Expr) (temps : Temps)
    (hstart : Mention.Allow ctx.program.functions.size C start.mentions)
    (hfinish : Mention.Allow ctx.program.functions.size C finish.mentions)
    (hstep : Mention.Allow ctx.program.functions.size C (Expr.mentionsOf step)) :
    Ends (countStart ctx counter start finish step temps) s fun code s' =>
      s.Grows C s' ∧ ∃ kind k place finishCode stepCode startCode,
        ctx.Types counter kind k ∧ ctx.place? counter = some place ∧
        code = finishCode ++ [.op ((Place.frame temps.finish).store k)] ++ stepCode ++
          [.op (.dup (Word.size32 k)), .op ((Place.frame temps.step).store k),
            .op (.unary .SIGN kind (Word.size32 k)), .op ((Place.frame temps.sign).store 1)] ++
          startCode ++ [.op (place.store k)] ∧
        ∀ z, s'.Known z → finish.Loads ctx z finishCode ∧
          ctx.LoadsStep z counter stepCode step ∧ start.Loads ctx z startCode := by
  unfold countStart
  refine (ends_typeOf counter).seq fun t s₁ h => ?_
  obtain ⟨rfl, ht⟩ := h
  refine (ends_typed counter).seq fun r s₂ h => ?_
  obtain ⟨rfl, hr⟩ := h
  refine (ends_load finish s₂ hfinish).seq fun finishCode s₃ h₃ => ?_
  obtain ⟨hg₃, hfinish⟩ := h₃
  refine (ends_stepCode counter ht step hstep).seq fun stepCode s₄ h₄ => ?_
  obtain ⟨hg₄, hstep⟩ := h₄
  refine (ends_load start s₄ hstart).seq fun startCode s₅ h₅ => ?_
  obtain ⟨hg₅, hstart⟩ := h₅
  refine (ends_store counter).seq fun storeCode s₆ h₆ => ?_
  obtain ⟨rfl, kind, k, place, hk, hplace, rfl⟩ := h₆
  obtain ⟨t, ht, rfl, hsize⟩ := hk
  obtain ⟨t', ht', hkind, hsize'⟩ := hr
  obtain rfl : t' = t := Option.some.inj (ht'.symm.trans ht)
  obtain rfl : r.2 = k := Option.some.inj (hsize'.symm.trans hsize)
  rw [← hkind]
  exact Ends.value ⟨hg₃.trans (hg₄.trans hg₅), _, _, place, finishCode, stepCode, startCode,
    ⟨t', ht, rfl, hsize⟩, hplace, rfl, fun z hz => ⟨hfinish z (hg₄.before (hg₅.before hz)),
      hstep z (hg₅.before hz), hstart z hz⟩⟩

/-- An expression has one type. -/
theorem types_unique {e : Expr} {kind kind' : ValueType} {k k' : Nat} (h : ctx.Types e kind k)
    (h' : ctx.Types e kind' k') : kind' = kind ∧ k' = k := by
  obtain ⟨t, ht, rfl, hk⟩ := h
  obtain ⟨t', ht', rfl, hk'⟩ := h'
  obtain rfl : t' = t := Option.some.inj (ht'.symm.trans ht)
  exact ⟨rfl, Option.some.inj (hk'.symm.trans hk)⟩

theorem ends_countTest (counter : Expr) (temps : Temps) (exit : Label) {kind : ValueType} {k : Nat}
    (hk : ctx.Types counter kind k)
    (hC : Mention.Allow ctx.program.functions.size C counter.mentions) :
    Ends (countTest ctx counter temps exit) s fun code s' =>
      s.Grows C s' ∧ ∃ load,
        code = [.op ((Place.frame temps.finish).load k)] ++ load ++
          [.op (.binary .SUB kind (Word.size32 k) (Word.size32 k) (Word.size32 k)),
            .op (.unary .SIGN kind (Word.size32 k)), .op ((Place.frame temps.sign).load 1),
            .op (.compare .byte .equal 1 1), branchOn true exit] ∧
        ∀ z, s'.Known z → counter.Loads ctx z load := by
  unfold countTest
  refine (ends_typed counter).seq fun r s₁ h => ?_
  obtain ⟨rfl, hr⟩ := h
  obtain ⟨hkind, hsize⟩ := types_unique hk hr
  refine (ends_load counter s₁ hC).seq fun code s₂ h₂ => ?_
  rw [← hkind, ← hsize]
  exact Ends.value ⟨h₂.1, code, rfl, h₂.2⟩

theorem ends_countNext (counter : Expr) (temps : Temps) {kind : ValueType} {k : Nat} {place : Place}
    (hk : ctx.Types counter kind k) (hplace : ctx.place? counter = some place)
    (hC : Mention.Allow ctx.program.functions.size C counter.mentions) :
    Ends (countNext ctx counter temps) s fun code s' =>
      s.Grows C s' ∧ ∃ load,
        code = [.op ((Place.frame temps.step).load k)] ++ load ++
          [.op (.binary .ADD kind (Word.size32 k) (Word.size32 k) (Word.size32 k))] ++
          [.op (place.store k)] ∧
        ∀ z, s'.Known z → counter.Loads ctx z load := by
  unfold countNext
  refine (ends_typed counter).seq fun r s₁ h => ?_
  obtain ⟨rfl, hr⟩ := h
  obtain ⟨hkind, hsize⟩ := types_unique hk hr
  refine (ends_load counter s₁ hC).seq fun code s₂ h₂ => ?_
  refine (ends_store counter).seq fun storeCode s₃ h₃ => ?_
  obtain ⟨rfl, kind', k', place', hk', hplace', rfl⟩ := h₃
  obtain ⟨-, rfl⟩ := types_unique hk hk'
  obtain rfl : place' = place := Option.some.inj (hplace'.symm.trans hplace)
  rw [← hkind, ← hsize]
  exact Ends.value ⟨h₂.1, code, by rw [hsize]; rfl, h₂.2⟩

mutual

/-- **Code is emitted for a statement in the form that `Emits` says.** -/
theorem ends_stmt {ctx : EmissionContext} {C : Nat → Prop} : (r : Stmt) → (s : EmissionState) →
    Mention.Allow ctx.program.functions.size C r.mentions →
    Ends (stmt ctx r) s fun code s' => s.Grows C s' ∧
      ∀ z, s'.Known z → r.Emits ctx z code
  | .var l index (some value), s, hC => by
    unfold stmt
    refine (ends_localSize l index).seq fun k s₁ h => ?_
    obtain ⟨rfl, v, t, hv, ht, hk⟩ := h
    refine (ends_load value s₁ hC).seq fun code s₂ h₂ => ?_
    rw [localOffset_eq hv]
    exact Ends.value ⟨h₂.1, fun z hz => ⟨v, t, k, code, hv, ht, hk, h₂.2 z hz, rfl⟩⟩
  | .var l index none, s, _ => by
    unfold stmt
    exact ends_initialise index
  | .assign l value target, s, hC => by
    unfold stmt
    refine (ends_load value s (Mention.allow_append.1 hC).1).seq fun code s₁ h₁ => ?_
    refine (ends_store target).seq fun storeCode s₂ h₂ => ?_
    obtain ⟨rfl, kind, k, place, hk, hplace, rfl⟩ := h₂
    exact Ends.value ⟨h₁.1, fun z hz => ⟨code, kind, k, place, h₁.2 z hz, hk, hplace, rfl⟩⟩
  | .invoke l call, s, hC => by
    unfold stmt
    refine (ends_load call s hC).seq fun code s₁ h₁ => ?_
    split
    next t ht =>
      refine (ends_typed call).seq fun r s₂ h₂ => ?_
      obtain ⟨rfl, hr⟩ := h₂
      exact Ends.value ⟨h₁.1, fun z hz => ⟨code, h₁.2 z hz, .inr ⟨_, _, hr, rfl⟩⟩⟩
    next ht => exact Ends.value ⟨h₁.1, fun z hz => ⟨code, h₁.2 z hz, .inl ⟨ht, rfl⟩⟩⟩
  | .return l value, s, hC => by
    unfold stmt
    exact ends_returnCode value l hC
  | .choose l branches, s, hC => by
    unfold stmt
    refine (ends_label C).seq fun exit s₁ h₁ => ?_
    refine (ends_choices exit branches s₁ hC).seq fun code s₂ h₂ => ?_
    exact Ends.value ⟨h₁.trans h₂.1, fun z hz => ⟨exit, code, h₂.2 z hz, rfl⟩⟩
  | .count l counter start finish step body temps, s, hC => by
    simp only [Stmt.mentions, Mention.allow_append] at hC
    obtain ⟨⟨⟨⟨hCc, hCs⟩, hCf⟩, hCstep⟩, hCb⟩ := hC
    unfold stmt
    refine (ends_countStart counter start finish step temps hCs hCf hCstep).seq fun before s₁ h₁ => ?_
    obtain ⟨hg₁, kind, k, place, finishCode, stepCode, startCode, hk, hplace, rfl, hbefore⟩ := h₁
    refine (ends_label C).seq fun head s₂ hg₂ => ?_
    refine (ends_label C).seq fun exit s₃ hg₃ => ?_
    refine (ends_countTest counter temps exit hk hCc).seq fun test s₄ h₄ => ?_
    obtain ⟨hg₄, load, rfl, hload⟩ := h₄
    refine (ends_stmts body s₄ hCb).seq fun bodyCode s₅ h₅ => ?_
    obtain ⟨hg₅, hbody⟩ := h₅
    refine (ends_countNext counter temps hk hplace hCc).seq fun next s₆ h₆ => ?_
    obtain ⟨hg₆, load', rfl, hload'⟩ := h₆
    have hg₂₆ := hg₂.trans (hg₃.trans (hg₄.trans (hg₅.trans hg₆)))
    refine Ends.value ⟨hg₁.trans hg₂₆, fun z hz => ?_⟩
    obtain ⟨hf, hst, hs⟩ := hbefore z (hg₂₆.before hz)
    exact ⟨kind, k, place, head, exit, finishCode, stepCode, startCode, load, load', bodyCode, hk,
      hplace, hf, hst, hs, hload z (hg₅.before (hg₆.before hz)), hload' z hz,
      hbody z (hg₆.before hz), rfl⟩
  | .loop l none body, s, hC => by
    unfold stmt
    refine (ends_label C).seq fun head s₁ hg₁ => ?_
    refine (ends_label C).seq fun exit s₂ hg₂ => ?_
    refine (ends_stmts body s₂ hC).seq fun code s₃ h₃ => ?_
    exact Ends.value ⟨hg₁.trans (hg₂.trans h₃.1), fun z hz => ⟨head, exit, code, h₃.2 z hz, rfl⟩⟩
  | .loop l (some c) body, s, hC => by
    obtain ⟨hCc, hCb⟩ := Mention.allow_append.1 hC
    unfold stmt
    refine (ends_label C).seq fun head s₁ hg₁ => ?_
    refine (ends_label C).seq fun exit s₂ hg₂ => ?_
    split
    next hpost =>
      refine (ends_stmts body s₂ hCb).seq fun code s₃ h₃ => ?_
      refine (ends_load c.value s₃ hCc).seq fun test s₄ h₄ => ?_
      exact Ends.value ⟨hg₁.trans (hg₂.trans (h₃.1.trans h₄.1)), fun z hz =>
        ⟨head, exit, test, code, h₄.2 z hz, h₃.2 z (h₄.1.before hz), by rw [if_pos hpost]⟩⟩
    next hpost =>
      refine (ends_load c.value s₂ hCc).seq fun test s₃ h₃ => ?_
      refine (ends_stmts body s₃ hCb).seq fun code s₄ h₄ => ?_
      exact Ends.value ⟨hg₁.trans (hg₂.trans (h₃.1.trans h₄.1)), fun z hz =>
        ⟨head, exit, test, code, h₃.2 z (h₄.1.before hz), h₄.2 z hz, by rw [if_neg hpost]⟩⟩

theorem ends_stmts {ctx : EmissionContext} {C : Nat → Prop} :
    (rs : List Stmt) → (s : EmissionState) →
    Mention.Allow ctx.program.functions.size C (Stmt.mentionsAll rs) →
    Ends (stmts ctx rs) s fun code s' => s.Grows C s' ∧
      ∀ z, s'.Known z → Stmt.EmitsAll ctx z code rs
  | [], s, _ => by
    unfold stmts
    exact Ends.value ⟨.refl _ s, fun _ _ => rfl⟩
  | r :: rest, s, hC => by
    obtain ⟨hCr, hCrest⟩ := Mention.allow_append.1 hC
    unfold stmts
    refine (ends_stmt r s hCr).seq fun code s₁ h₁ => ?_
    refine (ends_stmts rest s₁ hCrest).seq fun later s₂ h₂ => ?_
    exact Ends.value ⟨h₁.1.trans h₂.1, fun z hz =>
      ⟨code, later, h₁.2 z (h₂.1.before hz), h₂.2 z hz, rfl⟩⟩

theorem ends_choices {ctx : EmissionContext} {C : Nat → Prop} (exit : Label) :
    (b : Branches) → (s : EmissionState) →
    Mention.Allow ctx.program.functions.size C b.mentions →
    Ends (choices ctx exit b) s fun code s' => s.Grows C s' ∧
      ∀ z, s'.Known z → b.Emits ctx z exit code
  | .done, s, _ => by
    unfold choices
    exact Ends.value ⟨.refl _ s, fun _ _ => rfl⟩
  | .otherwise body, s, hC => by
    unfold choices
    exact ends_stmts body s hC
  | .branch condition body rest, s, hC => by
    simp only [Branches.mentions, Mention.allow_append] at hC
    obtain ⟨⟨hCc, hCb⟩, hCr⟩ := hC
    unfold choices
    refine (ends_label C).seq fun next s₁ hg₁ => ?_
    refine (ends_load condition s₁ hCc).seq fun test s₂ h₂ => ?_
    refine (ends_stmts body s₂ hCb).seq fun code s₃ h₃ => ?_
    refine (ends_choices exit rest s₃ hCr).seq fun others s₄ h₄ => ?_
    refine Ends.value ⟨hg₁.trans (h₂.1.trans (h₃.1.trans h₄.1)), fun z hz =>
      ⟨next, test, code, others, h₂.2 z (h₃.1.before (h₄.1.before hz)), h₃.2 z (h₄.1.before hz),
        h₄.2 z hz, ?_⟩⟩
    cases rest <;> rfl

end

/-- **The code of a function opens a frame, gives variables their first values and runs the
body.** -/
theorem ends_function
    (hC : Mention.Allow ctx.program.functions.size C (Stmt.mentionsAll ctx.body.statements)) :
    Ends (function ctx) s fun code s' => s.Grows C s' ∧
      ∀ z, s'.Known z → ctx.Body z code := by
  unfold function
  have hpassage := EmissionState.Grows.passage C
  refine (Ends.eachOf (I := fun _ => True) (K := EmissionState.Grows C)
    (Q := fun index code (s' : EmissionState) => ∀ z,
      s'.Known z → ctx.Initialises z index code)
    hpassage.refl hpassage.trans (fun h hg z hz => h z (hg.before hz))
    (fun index _ s _ => (ends_initialise index).mono fun _ _ h => ⟨trivial, h.1, h.2⟩)
    trivial).seq fun first s₁ h₁ => ?_
  obtain ⟨-, hg₁, hfirst⟩ := h₁
  refine (ends_stmts ctx.body.statements s₁ hC).seq fun code s₂ h₂ => ?_
  exact Ends.value ⟨hg₁.trans h₂.1, fun z hz => ⟨first, code,
    hfirst.imp fun _ _ h => h z (h₂.1.before hz), h₂.2 z hz, rfl⟩⟩

end Emission

end ChannelBasic
