import ChannelBasic.Proofs.Execution.Evaluation
import ChannelBasic.Proofs.Faultless.Emission

/-!
# Proofs/Execution/Balance — how many bytes are on the stack at each instruction

`S.Does d i e` says that an instruction is one of those that code consists of, that it finds what it
needs when `d` bytes have been pushed, and that `e` bytes are there after it.  `S.Balanced d code e`
says the same of a piece of code; a label stands only where nothing has been pushed, and only there
code jumps.  **The code of an expression pushes the bytes of its type** (`Expr.balanced`), and **the
code of a statement leaves nothing behind** (`Stmt.balanced`).
-/

namespace ChannelBasic

open Code

/-- A number of bytes at a place lies in a frame, outside its link, or in the data sets. -/
def Place.Within (locals above data n : Nat) : Place → Prop
  | .frame offset => -(locals : Int) ≤ offset ∧ offset + n ≤ 0 ∨
      Layout.linkSize ≤ offset ∧ offset + n ≤ Layout.linkSize + above
  | .data offset => 0 ≤ offset ∧ offset + n ≤ data

/-- A part of what lies at a place lies there, too. -/
theorem Place.Within.plus {locals above data n k offset : Nat} {place : Place}
    (h : place.Within locals above data n) (hle : offset + k ≤ n) :
    (place.plus offset).Within locals above data k := by
  cases place with
  | frame o =>
    simp only [Place.plus, Place.Within] at h ⊢
    omega
  | data o =>
    simp only [Place.plus, Place.Within] at h ⊢
    omega

namespace EmissionContext

/-- Bytes of what a node comes to; a call of a function without result comes to none. -/
def width (ctx : EmissionContext) (i : Info) : Nat := (ctx.size? i).getD 0

end EmissionContext

/-- What the code of a function can refer to. -/
structure Setting where
  ctx : EmissionContext
  /-- The texts and the labels of functions. -/
  state : EmissionState
  /-- Bytes of the function's result. -/
  result : Nat
  /-- Bytes of the data sets. -/
  data : Nat
  /-- The functions that can be called. -/
  callable : Nat → Prop
  /-- The labels that can be jumped to. -/
  target : Label → Prop
  /-- The bytes that an instruction moves whose operand is a size. -/
  count : Nat → Nat

namespace Setting

/-- A number of bytes at a place can be reached by the function. -/
def Has (S : Setting) (place : Place) (n : Nat) : Prop :=
  place.Within S.ctx.body.frame.locals (S.ctx.body.frame.arguments + S.result) S.data n

theorem has_data (S : Setting) : S.Has (.data 0) S.data := ⟨le_rfl, by omega⟩

/-- Bytes of a value of some shape. -/
def Size (S : Setting) (σ : Shape) (n : Nat) : Prop :=
  σ.size? S.ctx.program.types.structSizes = some n

/-- What the instructions between jumps do, by the bytes that have been pushed before and after. -/
inductive Does (S : Setting) : Nat → Instruction → Nat → Prop
  | load {d n : Nat} {place : Place} (h : S.Has place n) : Does S d (place.load n) (d + S.count n)
  | store {d n : Nat} {place : Place} (h : S.Has place n) : Does S (d + S.count n) (place.store n) d
  | pointer {d : Nat} {place : Place} (h : S.Has place 0) : Does S d place.pointer (d + S.count 4)
  | text {d capacity : Nat} {content : String} {x : Operand}
      (h : S.state.Text content capacity x) :
      Does S d (.load .global (Word.size32 (stringSize capacity)) x)
        (d + S.count (stringSize capacity))
  | address {d capacity : Nat} {content : String} {x : Operand}
      (h : S.state.Text content capacity x) : Does S d (.load .immediate 4 x) (d + S.count 4)
  | immediate {d n : Nat} (v : Int64) (h : n ≤ 8) :
      Does S d (.loadImmediate (Word.size32 n) v) (d + S.count n)
  | zeros (d n : Nat) : Does S d (.load .zero (Word.size32 n) (.value 0)) (d + S.count n)
  | pop (d n : Nat) : Does S (d + S.count n) (.pop (Word.size32 n)) d
  | dup (d n : Nat) : Does S (d + S.count n) (.dup (Word.size32 n)) (d + S.count n + S.count n)
  | cast {d k n : Nat} {σ τ : Shape} (h : σ.Converts τ) (hk : S.Size σ k) (hn : S.Size τ n) :
      Does S (d + S.count k) (.cast σ.kind (Word.size32 k) τ.kind (Word.size32 n)) (d + S.count n)
  | unary {d k : Nat} {σ : Shape} {op : UnaryOp} {i : Instruction} (h : op.Takes σ)
      (hk : S.Size σ k) (hi : op.tail σ.kind k = [.op i]) : Does S (d + S.count k) i (d + S.count k)
  | sign {d k : Nat} {σ : Shape} (h : σ.isNumeric = true) (hk : S.Size σ k) :
      Does S (d + S.count k) (.unary .SIGN σ.kind (Word.size32 k)) (d + S.count 1)
  | binary {d k k' n : Nat} {a b c : Shape} {op : BinaryOp} {i : Instruction} (h : op.Takes a b c)
      (hk : S.Size a k) (hk' : S.Size b k') (hn : S.Size c n)
      (hi : op.Emits a.kind k k' (· = n) i) :
      Does S (d + S.count k' + S.count k) i (d + S.count n)
  | call {d number size : Nat} {f : Function} {i : Instruction}
      (hf : S.ctx.program.functions[number]? = some f) (hc : S.callable number)
      (hsize : S.ctx.program.types.resultSize? f.returns = some size)
      (hi : S.state.Calls f number i)
      (hd : S.count size + S.count (S.ctx.program.types.bytes f.parameters) ≤ d) : Does S d i d

/-- Code that finds what it needs when some bytes have been pushed, and the bytes after it. -/
inductive Balanced (S : Setting) : Nat → List Piece → Nat → Prop
  | nil (d : Nat) : Balanced S d [] d
  | mark {l : Label} {rest : List Piece} {e : Nat} (h : Balanced S 0 rest e) :
      Balanced S 0 (.mark l :: rest) e
  | op {d k e : Nat} {i : Instruction} {rest : List Piece} (hi : S.Does d i k)
      (h : Balanced S k rest e) : Balanced S d (.op i :: rest) e
  | jump {l : Label} {rest : List Piece} {e : Nat} (hl : S.target l) (h : Balanced S 0 rest e) :
      Balanced S 0 (.op (.jump l) :: rest) e
  | branch {l : Label} {value : Bool} {rest : List Piece} {e : Nat} (hl : S.target l)
      (h : Balanced S 0 rest e) :
      Balanced S (S.count 1) (Emission.branchOn value l :: rest) e
  | leave {rest : List Piece} {e : Nat} (h : Balanced S 0 rest e) :
      Balanced S 0 (Emission.leave S.ctx ++ rest) e

variable {S : Setting} {d k e : Nat} {xs ys : List Piece} {i : Instruction}

theorem Balanced.append (h : S.Balanced d xs k) (h' : S.Balanced k ys e) :
    S.Balanced d (xs ++ ys) e := by
  induction h with
  | nil => exact h'
  | mark _ ih => exact .mark (ih h')
  | op hi _ ih => exact .op hi (ih h')
  | jump hl _ ih => exact .jump hl (ih h')
  | branch hl _ ih => exact .branch hl (ih h')
  | leave _ ih =>
    rw [List.append_assoc]
    exact .leave (ih h')

theorem Does.balanced (h : S.Does d i e) : S.Balanced d [.op i] e := .op h (.nil e)

/-- An instruction after some code. -/
theorem Balanced.then (h : S.Balanced d xs k) (hi : S.Does k i e) :
    S.Balanced d (xs ++ [.op i]) e := h.append hi.balanced

theorem balanced_mark (l : Label) : S.Balanced 0 [.mark l] 0 := .mark (.nil 0)

theorem balanced_jump {l : Label} (h : S.target l) : S.Balanced 0 [.op (.jump l)] 0 :=
  .jump h (.nil 0)

theorem balanced_branch {l : Label} (h : S.target l) (value : Bool) :
    S.Balanced (S.count 1) [Emission.branchOn value l] 0 := .branch h (.nil 0)

theorem balanced_leave : S.Balanced 0 (Emission.leave S.ctx) 0 := by
  have h : S.Balanced 0 (Emission.leave S.ctx ++ []) 0 := .leave (.nil 0)
  rwa [List.append_nil] at h

/-- **What follows a label finds nothing pushed.** -/
theorem Balanced.after_mark {l : Label} (h : S.Balanced d (xs ++ .mark l :: ys) e) :
    S.Balanced 0 ys e := by
  generalize hp : xs ++ .mark l :: ys = pieces at h
  induction h generalizing xs with
  | nil d => simp at hp
  | mark h ih =>
    obtain _ | ⟨x, xs⟩ := xs
    · obtain ⟨-, rfl⟩ := List.cons.inj hp
      exact h
    · exact ih (List.cons.inj hp).2
  | op _ _ ih | jump _ _ ih | branch _ _ ih =>
    obtain _ | ⟨x, xs⟩ := xs
    · cases hp
    · exact ih (List.cons.inj hp).2
  | leave h ih =>
    obtain _ | ⟨x, _ | ⟨y, xs⟩⟩ := xs
    · cases hp
    · cases hp
    · exact ih (List.cons.inj (List.cons.inj hp).2).2

end Setting

/-! ## What is found -/

/-- What an environment knows lies where the function can reach it, and the arguments of a call take
the bytes that are dropped after it. -/
structure Setting.Fits (S : Setting) (Γ : Env) : Prop where
  env : Γ.For S.ctx
  places : ∀ d t place, Γ.declared d = some t → S.ctx.declarationPlace? d = some place →
    ∃ n, S.ctx.program.types.size? t = some n ∧ S.Has place n
  members : ∀ r t slot z, Γ.member r = some t → S.ctx.program.structField? r = some slot →
    S.ctx.program.types.structSizes.lookup r.struct = some z →
      ∃ n, S.ctx.program.types.size? t = some n ∧ slot.offset + n ≤ z
  functions : ∀ number parameters returns, Γ.function number = some (parameters, returns) →
    ∃ f, S.ctx.program.functions[number]? = some f ∧ f.parameters = parameters ∧
      f.returns = returns
  locals : ∀ (k : Nat) (v : Local), S.ctx.body.locals[k]? = some v →
    ∃ n, v.type.bind S.ctx.program.types.size? = some n ∧ S.Has (.frame v.offset) n
  strings : ∀ t n, S.ctx.program.types.size? t = some n → ∀ x ∈ S.ctx.program.strings t,
    x.1 + stringSize x.2 ≤ n
  declared : ∀ k, Γ.declared (.localVar k) = S.ctx.body.locals[k]?.bind (·.type)
  result : ∀ t, S.ctx.function.returns = some t → S.ctx.program.types.size? t = some S.result
  frame : S.ctx.body.frame.result = Layout.linkSize + S.ctx.body.frame.arguments
  count_zero : S.count 0 = 0
  count_sum : ∀ f ∈ S.ctx.program.functions, (f.parameters.map fun t =>
    S.count ((S.ctx.program.types.size? t).getD 0)).sum =
      S.count (S.ctx.program.types.bytes f.parameters)

namespace Setting.Fits

variable {S : Setting} {Γ : Env} {e : Expr} {σ : Shape} {n : Nat} {place : Place}

theorem width_eq (h : S.Fits Γ) {i : Info} (hσ : Γ.shape i = some σ) (hn : S.Size σ n) :
    S.ctx.width i = n := by
  rw [EmissionContext.width, h.env.size?_eq hσ, hn, Option.getD_some]

theorem has_result (h : S.Fits Γ) : S.Has (.frame S.ctx.body.frame.result) S.result := by
  refine .inr ⟨?_, ?_⟩ <;> rw [h.frame] <;> push_cast <;> omega

/-- A variable has the size of its declared type. -/
theorem declared_size (h : S.Fits Γ) {index : Nat} {v : Local} {t t' : TypeId}
    (ht : Γ.declared (.localVar index) = some t) (hv : S.ctx.body.locals[index]? = some v)
    (ht' : v.type = some t') (hσ : Γ.types.shape? t = some σ)
    (hn : S.ctx.program.types.size? t' = some n) : S.Size σ n := by
  rw [h.declared, hv, Option.bind_some, ht'] at ht
  obtain rfl := Option.some.inj ht
  rwa [TypeTable.size?_eq, ← h.env.types, hσ, Option.bind_some, h.env.types] at hn

/-- **What a name or a member stands for lies where the function can reach it.** -/
theorem has_place (h : S.Fits Γ) (he : e.Typed Γ) (hplace : S.ctx.place? e = some place) :
    ∃ n, S.ctx.size? e.info = some n ∧ S.Has place n := by
  induction e using Expr.induct generalizing place with
  | name i title decl =>
    have found {d : Declaration} (hd : i.type = Γ.declared d ∧ ∃ σ, Γ.shape i = some σ)
        (hplace : S.ctx.declarationPlace? d = some place) :
        ∃ n, S.ctx.size? i = some n ∧ S.Has place n := by
      obtain ⟨htype, σ, hσ⟩ := hd
      obtain ⟨t, ht, -⟩ := Env.shape_eq_some.1 hσ
      obtain ⟨n, hn, hhas⟩ := h.places d t place (htype ▸ ht) hplace
      exact ⟨n, by rw [EmissionContext.size?, ht, Option.bind_some, hn], hhas⟩
    cases decl with
    | none => cases hplace
    | some d =>
      cases d with
      | constant k => cases hplace
      | localVar k | argument k | dataField k => exact found he hplace
  | member i target field decl ih =>
    cases decl with
    | none => cases he
    | some r =>
      obtain ⟨htarget, _, hstruct, t, σ, ht, hσ, hi⟩ := he
      obtain ⟨base, hbase, hplace⟩ := Option.bind_eq_some_iff.1 hplace
      obtain ⟨slot, hslot, hplace⟩ := Option.bind_eq_some_iff.1 hplace
      obtain rfl := Option.some.inj hplace
      obtain ⟨z, hz, hhas⟩ := ih htarget hbase
      rw [h.env.size?_eq hstruct] at hz
      obtain ⟨n, hn, hle⟩ := h.members r t slot z ht hslot hz
      rw [TypeTable.size?_eq, ← h.env.types, hσ, h.env.types] at hn
      have hi : S.ctx.size? i = some n := (h.env.size?_eq hi).trans hn
      exact ⟨n, hi, hhas.plus hle⟩
  | literal | call | unary | binary | cast | pointer => cases hplace

end Setting.Fits

/-! ## Expressions -/

namespace Literal

variable {S : Setting} {Γ : Env} {d n : Nat} {t : TypeId} {i : Instruction} {σ : Shape} {v : Literal}

/-- A literal is pushed in the bytes of its type. -/
theorem Loads.does (hi : v.Loads S.ctx.program.types S.state t n i)
    (hσ : S.ctx.program.types.shape? t = some σ) (hn : S.Size σ n) (hv : v.Fits σ) :
    S.Does d i (d + S.count n) := by
  have number {s : Scalar} (hs : σ = .scalar s) : n ≤ 8 := by
    subst hs
    obtain rfl : s.size = n := Option.some.inj hn
    exact s.size_le_eight
  cases v with
  | boolean b =>
    obtain rfl := hi
    cases σ with
    | scalar s => exact .immediate _ (number rfl)
    | _ => cases hv
  | integral k =>
    obtain rfl := hi
    cases σ with
    | scalar s => exact .immediate _ (number rfl)
    | _ => cases hv
  | real x =>
    obtain rfl := hi
    cases σ with
    | scalar s => exact .immediate _ (number rfl)
    | _ => cases hv
  | text content =>
    obtain ⟨c, rfl⟩ : ∃ c, σ = .string c := by cases σ <;> simp_all [Literal.Fits]
    obtain rfl : stringSize c = n := Option.some.inj hn
    obtain ⟨x, hx, rfl⟩ := hi
    rw [TypeTable.capacity?_iff.2 hσ, Option.getD_some] at hx
    exact .text hx

end Literal

theorem BinaryOp.Emits.mono {op : BinaryOp} {kind : ValueType} {left right : Nat}
    {P Q : Nat → Prop} {i : Instruction} (h : op.Emits kind left right P i)
    (hPQ : ∀ n, P n → Q n) : op.Emits kind left right Q i := by
  obtain h | ⟨hc, code, n, hcode, hn, rfl⟩ := h
  · exact .inl h
  · exact .inr ⟨hc, code, n, hcode, hPQ n hn, rfl⟩

section Expressions

variable {S : Setting} {Γ : Env}

/-- What lies at a place is pushed in the bytes of its type. -/
theorem EmissionContext.Types.balanced (hS : S.Fits Γ) {e : Expr} {kind : ValueType} {n : Nat}
    {place : Place} (he : e.Typed Γ) (ht : S.ctx.Types e kind n)
    (hplace : S.ctx.place? e = some place) (d : Nat) :
    S.Balanced d [.op (place.load n)] (d + S.count (S.ctx.width e.info)) := by
  obtain ⟨n', hn', hhas⟩ := hS.has_place he hplace
  have hn := ht.size?_eq
  obtain rfl : n' = n := Option.some.inj (hn'.symm.trans hn)
  rw [EmissionContext.width, hn, Option.getD_some]
  exact (Setting.Does.load hhas).balanced

mutual

/-- **The code of an expression pushes the bytes of its type.** -/
theorem Expr.balanced (hS : S.Fits Γ) : (e : Expr) → {code : List Piece} → e.Typed Γ →
    e.Framed S.ctx.program.types S.ctx.program.constantValue (-(S.ctx.body.frame.locals : Int)) →
    Mention.Allow S.ctx.program.functions.size S.callable e.mentions →
    e.Loads S.ctx S.state code → ∀ d, S.Balanced d code (d + S.count (S.ctx.width e.info))
  | .literal i v, code, ⟨σ, hσ, hv⟩, _, _, ⟨t, n, last, ht, hn, hlast, hcode⟩, d => by
    obtain ⟨t', ht', hσt⟩ := Env.shape_eq_some.1 hσ
    obtain rfl : t' = t := Option.some.inj (ht'.symm.trans ht)
    rw [hS.env.types] at hσt
    rw [TypeTable.size?_eq, hσt] at hn
    rw [hcode, Expr.info, hS.width_eq hσ hn]
    exact (hlast.does hσt hn hv).balanced
  | .name i title (some (.constant k)), code, ⟨σ, v, hσ, hv, hfit⟩, _, _,
      ⟨t, v', n, last, ht, hv', hn, hlast, hcode⟩, d => by
    obtain ⟨t', ht', hσt⟩ := Env.shape_eq_some.1 hσ
    obtain rfl : t' = t := Option.some.inj (ht'.symm.trans ht)
    rw [hS.env.constant] at hv
    obtain rfl : v' = v := Option.some.inj (hv'.symm.trans hv)
    rw [hS.env.types] at hσt
    have hbase := TypeTable.shape?_base hσt
    rw [TypeTable.size?_eq, hbase] at hn
    rw [hcode, Expr.info, hS.width_eq hσ hn]
    exact (hlast.does hbase hn hfit).balanced
  | .name i title (some (.localVar k)), code, he, _, _, ⟨kind, n, place, ht, hplace, hcode⟩, d => by
    rw [hcode]
    exact ht.balanced hS he hplace d
  | .name i title (some (.argument k)), code, he, _, _, ⟨kind, n, place, ht, hplace, hcode⟩, d => by
    rw [hcode]
    exact ht.balanced hS he hplace d
  | .name i title (some (.dataField k)), code, he, _, _, ⟨kind, n, place, ht, hplace, hcode⟩,
      d => by
    rw [hcode]
    exact ht.balanced hS he hplace d
  | .member i target field decl, code, he, _, _, ⟨kind, n, place, ht, hplace, hcode⟩, d => by
    rw [hcode]
    exact ht.balanced hS he hplace d
  | .call i title arguments (some number), code, ⟨⟨parameters, hfunction, hargs⟩, _⟩, hframed, hC,
      ⟨number', f, size, pushed, bytes, last, hnumber, hf, hsize, hpushed, hlast, hcode⟩, d => by
    obtain rfl := Option.some.inj hnumber
    obtain ⟨f', hf', rfl, hreturns⟩ := hS.functions _ _ _ hfunction
    obtain rfl : f' = f := Option.some.inj (hf'.symm.trans hf)
    have hallow : Mention.Allow S.ctx.program.functions.size S.callable
        (Expr.mentionsAll arguments) := fun k hk hmem => hC k hk (by simp [Expr.mentions, hmem])
    have hcallable : S.callable number :=
      hC number (Array.getElem?_eq_some_iff.1 hf).1 (by simp [Expr.mentions])
    have hwidth : S.ctx.width i = size := by
      rw [EmissionContext.width, EmissionContext.size?, ← hreturns]
      cases hr : f'.returns with
      | none =>
        rw [hr] at hsize
        exact Option.some.inj hsize
      | some t =>
        rw [hr] at hsize
        rw [Option.bind_some, show S.ctx.program.types.size? t = some size from hsize,
          Option.getD_some]
    have hroom : S.Balanced d (roomFor f'.returns size) (d + S.count size) := by
      unfold roomFor
      split
      next => exact (Setting.Does.zeros d size).balanced
      next hnone =>
        rw [Option.not_isSome_iff_eq_none.1 hnone] at hsize
        obtain rfl : 0 = size := Option.some.inj hsize
        rw [hS.count_zero]
        exact .nil d
    obtain ⟨hbytes, hbalanced⟩ := Expr.balancedAll hS f'.parameters arguments hargs hframed hallow
      hpushed
    rw [hS.count_sum f' (Array.mem_of_getElem? hf), ← hbytes] at hbalanced
    have hcall : S.Does (d + S.count size + S.count bytes) last
        (d + S.count size + S.count bytes) :=
      .call hf hcallable hsize hlast (by rw [← hbytes]; omega)
    have hdropped : S.Balanced (d + S.count size + S.count bytes) (dropped bytes)
        (d + S.count size) := by
      unfold dropped
      split
      next hzero =>
        rw [hzero, hS.count_zero]
        exact .nil _
      next => exact (Setting.Does.pop _ bytes).balanced
    rw [hcode, Expr.info, hwidth]
    exact ((hroom.append (hbalanced _)).then hcall).append hdropped
  | .unary i op operand, code, ⟨ho, σ, hσ, hop, hi⟩, hframed, hC,
      ⟨kind, n, first, hfirst, ht, hcode⟩, d => by
    have hbalanced := Expr.balanced hS operand ho hframed hC hfirst d
    obtain ⟨rfl, hn⟩ := hS.env.types_eq hσ ht
    rw [hS.width_eq hσ hn] at hbalanced
    rw [hcode, Expr.info, hS.width_eq hi hn]
    cases op with
    | plus =>
      rw [UnaryOp.tail, List.append_nil]
      exact hbalanced
    | minus => exact hbalanced.then (.unary hop hn rfl)
    | not => exact hbalanced.then (.unary hop hn rfl)
  | .binary i op left right, code, ⟨hl, hr, a, b, c, ha, hb, hop, hi⟩, ⟨hfl, hfr⟩, hC,
      ⟨kind, k, kind', k', first, second, last, htl, htr, hfirst, hsecond, hlast, hcode⟩, d => by
    obtain ⟨hCl, hCr⟩ := Mention.allow_append.1 hC
    have hright := Expr.balanced hS right hr hfr hCr hfirst d
    have hleft := Expr.balanced hS left hl hfl hCl hsecond (d + S.count k')
    obtain ⟨rfl, hk⟩ := hS.env.types_eq ha htl
    obtain ⟨-, hk'⟩ := hS.env.types_eq hb htr
    obtain ⟨n, hn⟩ := Shape.exists_size?_of_isValue (Shape.isValue_of_binary hop).2.2
      S.ctx.program.types.structSizes
    rw [hS.width_eq hb hk'] at hright
    rw [hS.width_eq ha hk] at hleft
    rw [hcode, Expr.info, hS.width_eq hi hn]
    refine (hright.append hleft).then (.binary hop hk hk' hn (hlast.mono ?_))
    rintro n' ⟨kind, ht⟩
    exact Option.some.inj ((hS.env.types_eq (e := .binary i op left right) hi ht).2.symm.trans hn)
  | .cast i operand, code, ⟨ho, _, σ, τ, hσ, hτ, hconv⟩, hframed, hC,
      ⟨source, k, target, n, first, hfirst, ht, ht', hcode⟩, d => by
    have hbalanced := Expr.balanced hS operand ho hframed hC hfirst d
    obtain ⟨rfl, hk⟩ := hS.env.types_eq hσ ht
    obtain ⟨rfl, hn⟩ := hS.env.types_eq (e := .cast i operand) hτ ht'
    rw [hS.width_eq hσ hk] at hbalanced
    rw [hcode, Expr.info, hS.width_eq hτ hn]
    exact hbalanced.then (.cast hconv hk hn)
  | .pointer i target (some offset), code, ⟨ht, hi, σ, hσ⟩, ⟨hframed, _, htemp⟩, hC,
      ⟨kind, n, first, hn, hfirst, hcode⟩, d => by
    have hbalanced := Expr.balanced hS target ht hframed hC hfirst d
    obtain ⟨n', hn', hlow, hhigh⟩ := htemp offset rfl
    have hsize := hn.size?_eq
    obtain rfl : n' = n := Option.some.inj (hn'.symm.trans hsize)
    rw [EmissionContext.width, hsize, Option.getD_some] at hbalanced
    have hhas : S.Has (.frame offset) n' := .inl ⟨hlow, hhigh⟩
    have hzero : S.Has (.frame offset) 0 := .inl ⟨hlow, by omega⟩
    rw [hcode, Expr.info, hS.width_eq hi rfl]
    exact hbalanced.append (.op (.store hhas) (Setting.Does.pointer hzero).balanced)
  | .pointer i target none, code, ⟨ht, hi, _⟩, _, _, hcode, d => by
    rw [Expr.info, hS.width_eq hi rfl]
    obtain ⟨place, hplace, rfl⟩ | ⟨content, capacity, x, -, hx, rfl⟩ := hcode
    · obtain ⟨n, -, hhas⟩ := hS.has_place ht hplace
      refine (Setting.Does.pointer ?_).balanced
      have hpart : S.Has (place.plus 0) 0 := hhas.plus (Nat.zero_le n)
      cases place with
      | frame o => simpa [Place.plus] using hpart
      | data o => simpa [Place.plus] using hpart
    · exact (Setting.Does.address hx).balanced

/-- The code of arguments pushes the bytes of all their types. -/
theorem Expr.balancedAll (hS : S.Fits Γ) : (parameters : List TypeId) → (es : List Expr) →
    {code : List Piece} → {bytes : Nat} → Expr.TypedAll Γ parameters es →
    Expr.FramedAll S.ctx.program.types S.ctx.program.constantValue
      (-(S.ctx.body.frame.locals : Int)) es →
    Mention.Allow S.ctx.program.functions.size S.callable (Expr.mentionsAll es) →
    Expr.LoadsAll S.ctx S.state code bytes es →
    bytes = S.ctx.program.types.bytes parameters ∧ ∀ d, S.Balanced d code
      (d + (parameters.map fun t => S.count ((S.ctx.program.types.size? t).getD 0)).sum)
  | [], [], code, bytes, _, _, _, ⟨hcode, hbytes⟩ => by
    rw [hcode, hbytes]
    exact ⟨rfl, fun d => .nil d⟩
  | parameter :: parameters, e :: es, code, bytes, ⟨he, ⟨σ, hσ, hi⟩, hes⟩, ⟨hfe, hfes⟩, hC,
      ⟨later, k, first, kind, n, hlater, hfirst, ht, hcode, hbytes⟩ => by
    obtain ⟨hCe, hCes⟩ := Mention.allow_append.1 hC
    obtain ⟨hk, hbalanced⟩ := Expr.balancedAll hS parameters es hes hfes hCes hlater
    obtain ⟨-, hn⟩ := hS.env.types_eq hi ht
    have hsize : S.ctx.program.types.size? parameter = some n := by
      rw [TypeTable.size?_eq, ← hS.env.types, hσ, Option.bind_some, hS.env.types, hn]
    refine ⟨?_, fun d => ?_⟩
    · rw [hbytes, hk, TypeTable.bytes, TypeTable.bytes, List.map_cons, List.sum_cons, hsize,
        Option.getD_some, Nat.add_comm]
    · have h := Expr.balanced hS e he hfe hCe hfirst
        (d + (parameters.map fun t => S.count ((S.ctx.program.types.size? t).getD 0)).sum)
      rw [hS.width_eq hi hn] at h
      rw [hcode, List.map_cons, List.sum_cons, hsize, Option.getD_some, Nat.add_comm (S.count n),
        ← Nat.add_assoc]
      exact (hbalanced d).append h

end

end Expressions

/-! ## Statements -/

section Statements

variable {S : Setting} {Γ : Env} {code : List Piece}

theorem Setting.balanced_flatten {codes : List (List Piece)}
    (h : ∀ code ∈ codes, S.Balanced 0 code 0) : S.Balanced 0 codes.flatten 0 := by
  induction codes with
  | nil => exact .nil 0
  | cons code codes ih =>
    rw [List.flatten_cons]
    exact (h code List.mem_cons_self).append (ih fun c hc => h c (List.mem_cons_of_mem _ hc))

/-- A variable gets its first value, record by record. -/
theorem EmissionContext.Initialises.balanced (hS : S.Fits Γ) {index : Nat}
    (h : S.ctx.Initialises S.state index code) : S.Balanced 0 code 0 := by
  obtain ⟨v, t, n, zeros, records, hv, ht, hn, hzeros, hrecords, rfl⟩ := h
  obtain ⟨n', hn', hhas⟩ := hS.locals index v hv
  rw [ht, Option.bind_some, hn] at hn'
  obtain rfl := Option.some.inj hn'
  have hfirst : S.Balanced 0 zeros 0 := by
    obtain rfl | ⟨rfl, -⟩ := hzeros
    · refine .op (.zeros 0 n) ?_
      exact (Setting.Does.store hhas).balanced
    · exact .nil 0
  refine hfirst.append (Setting.balanced_flatten fun pieces hpieces => ?_)
  obtain ⟨k, hk⟩ := List.mem_iff_getElem?.1 hpieces
  obtain ⟨r, hr, x, hx, rfl⟩ := forall₂_right hrecords hk
  have hrecord : S.Has ((Place.frame v.offset).plus r.1) (stringSize r.2) :=
    hhas.plus (hS.strings t n hn r (List.mem_of_getElem? hr))
  exact .op (.text hx) (Setting.Does.store hrecord).balanced

theorem EmissionContext.LoadsStep.balanced (hS : S.Fits Γ) {counter : Expr} {σ : Shape} {n : Nat}
    (hσ : Γ.shape counter.info = some σ) (hn : S.Size σ n) (hnumeric : σ.isNumeric = true)
    {step : Option Expr} (hstep : ∀ e, step = some e → e.Typed Γ ∧ Γ.shape e.info = some σ)
    (hframed : ∀ e, step = some e → e.Framed S.ctx.program.types S.ctx.program.constantValue
      (-(S.ctx.body.frame.locals : Int)))
    (hC : Mention.Allow S.ctx.program.functions.size S.callable (Expr.mentionsOf step))
    (h : S.ctx.LoadsStep S.state counter code step) : S.Balanced 0 code (S.count n) := by
  cases step with
  | some e =>
    have hbalanced := Expr.balanced hS e (hstep e rfl).1 (hframed e rfl) hC h 0
    rwa [hS.width_eq (hstep e rfl).2 hn, Nat.zero_add] at hbalanced
  | none =>
    obtain ⟨t, n', last, ht, hn', rfl, rfl⟩ := h
    have hsize : S.ctx.size? counter.info = some n' := by
      rw [EmissionContext.size?, show counter.info.type = some t from ht, Option.bind_some, hn']
    obtain rfl : n = n' := Option.some.inj (hn.symm.trans ((hS.env.size?_eq hσ).symm.trans hsize))
    have hle : n ≤ 8 := by
      obtain ⟨s, rfl⟩ : ∃ s, σ = .scalar s := by cases σ <;> simp_all [Shape.isNumeric]
      obtain rfl : s.size = n := Option.some.inj hn
      exact s.size_le_eight
    rw [← Nat.zero_add (S.count n)]
    exact (Setting.Does.immediate _ hle).balanced

/-- **A counting loop** keeps end, step and sign in the frame and nothing on the stack. -/
theorem balanced_countCode {σ : Shape} {n : Nat} {place : Place} {temps : Temps}
    {head exit : Label} {finish step start load load' body : List Piece}
    (hnumeric : σ.isNumeric = true) (hn : S.Size σ n) (hplace : S.Has place n)
    (hfinish : S.Has (.frame temps.finish) n) (hstep : S.Has (.frame temps.step) n)
    (hsign : S.Has (.frame temps.sign) 1) (hhead : S.target head) (hexit : S.target exit)
    (bfinish : S.Balanced 0 finish (S.count n)) (bstep : S.Balanced 0 step (S.count n))
    (bstart : S.Balanced 0 start (S.count n))
    (bload : ∀ d, S.Balanced d load (d + S.count n))
    (bload' : ∀ d, S.Balanced d load' (d + S.count n)) (bbody : S.Balanced 0 body 0) :
    S.Balanced 0 (countCode σ.kind n place temps head exit finish step start load load' body) 0 := by
  have stores {place : Place} {k : Nat} (h : S.Has place k) :
      S.Does (S.count k) (place.store k) 0 := by
    simpa using Setting.Does.store (d := 0) h
  have loads {place : Place} {k : Nat} (h : S.Has place k) :
      S.Does 0 (place.load k) (S.count k) := by
    simpa using Setting.Does.load (d := 0) h
  have signs : S.Does (S.count n) (.unary .SIGN σ.kind (Word.size32 n)) (S.count 1) := by
    simpa using Setting.Does.sign (d := 0) hnumeric hn
  obtain ⟨s, rfl⟩ : ∃ s, σ = .scalar s := by cases σ <;> simp_all [Shape.isNumeric]
  have adds {op : BinaryOp} {code : Opcode} (hop : op = .add ∨ op = .subtract ∨ op = .divide)
      (hcode : op.opcode? = some code) (hnone : op.comparison? = none) :
      S.Does (S.count n + S.count n) (.binary code (Shape.scalar s).kind (Word.size32 n)
        (Word.size32 n) (Word.size32 n)) (S.count n) := by
    simpa using Setting.Does.binary (d := 0) (.arithmetic hop hnumeric) hn hn hn
      (.inr ⟨hnone, code, n, hcode, rfl, rfl⟩)
  have compares : S.Does (S.count 1 + S.count 1) (.compare .byte .equal 1 1) (S.count 1) := by
    have htakes : BinaryOp.Takes .equal (.scalar .byte) (.scalar .byte) (.scalar .boolean) :=
      .numbers rfl rfl
    simpa [Scalar.size] using Setting.Does.binary (d := 0) (i := .compare .byte .equal 1 1) htakes rfl rfl rfl
      (.inl ⟨.equal, rfl, rfl⟩)
  have hbefore := ((((bfinish.then (stores hfinish)).append bstep).append
    (.op (by simpa using Setting.Does.dup 0 n) (.op (.store hstep) (.op signs
      (stores hsign).balanced)))).append bstart).then (stores hplace)
  have htest := ((loads hfinish).balanced.append (bload _)).append
    (.op (adds (.inr (.inl rfl)) rfl rfl) (.op signs (.op (.load hsign)
      (.op compares (Setting.balanced_branch hexit true)))))
  have hnext := ((((loads hstep).balanced.append (bload' _)).then
    (adds (.inl rfl) rfl rfl))).then (stores hplace)
  exact ((((hbefore.append (Setting.balanced_mark head)).append htest).append bbody).append
    hnext).append (.jump hhead (Setting.balanced_mark exit))

/-- The condition of a branch leaves the one byte that decides. -/
theorem Expr.balanced_condition (hS : S.Fits Γ) {e : Expr} (he : e.Typed Γ)
    (hσ : Γ.shape e.info = some (.scalar .boolean))
    (hframed : e.Framed S.ctx.program.types S.ctx.program.constantValue
      (-(S.ctx.body.frame.locals : Int)))
    (hC : Mention.Allow S.ctx.program.functions.size S.callable e.mentions)
    (h : e.Loads S.ctx S.state code) : S.Balanced 0 code (S.count 1) := by
  have hbalanced := Expr.balanced hS e he hframed hC h 0
  rwa [hS.width_eq hσ rfl, Nat.zero_add] at hbalanced

mutual

/-- **The code of a statement leaves nothing behind**, and jumps to its own labels. -/
theorem Stmt.balanced (hS : S.Fits Γ) : (s : Stmt) → {code : List Piece} →
    s.Typed Γ S.ctx.function.returns →
    s.Framed S.ctx.program.types S.ctx.program.constantValue (-(S.ctx.body.frame.locals : Int)) →
    Mention.Allow S.ctx.program.functions.size S.callable s.mentions →
    s.Emits S.ctx S.state code → (∀ l ∈ Piece.marks code, S.target l) → S.Balanced 0 code 0
  | .var l index (some value), code, ⟨he, t, σ, ht, hσt, hσ⟩, hframed, hC,
      ⟨v, t', n, first, hv, ht', hn, hfirst, hcode⟩, _ => by
    obtain ⟨n', hn', hhas⟩ := hS.locals index v hv
    rw [ht', Option.bind_some, hn] at hn'
    obtain rfl := Option.some.inj hn'
    have hbalanced := Expr.balanced hS value he (hframed value rfl) hC hfirst 0
    rw [hS.width_eq hσ (hS.declared_size ht hv ht' hσt hn)] at hbalanced
    rw [hcode]
    exact hbalanced.then (.store hhas)
  | .var l index none, code, _, _, _, h, _ => EmissionContext.Initialises.balanced hS h
  | .assign l value target, code, ⟨hv, ht, _, σ, hσ, hσ'⟩, ⟨hfv, _⟩, hC,
      ⟨first, kind, n, place, hfirst, hn, hplace, hcode⟩, _ => by
    obtain ⟨n', hn', hhas⟩ := hS.has_place ht hplace
    obtain rfl : n' = n := Option.some.inj (hn'.symm.trans hn.size?_eq)
    have hbalanced := Expr.balanced hS value hv hfv (Mention.allow_append.1 hC).1 hfirst 0
    rw [hS.width_eq hσ (hS.env.types_eq hσ' hn).2] at hbalanced
    rw [hcode]
    exact hbalanced.then (.store hhas)
  | .invoke l call, code, ht, hframed, hC, ⟨first, hfirst, hcode⟩, _ => by
    have hbalanced := Expr.balanced hS call ht hframed hC hfirst 0
    obtain ⟨hnone, rfl⟩ | ⟨kind, n, hn, rfl⟩ := hcode
    · have hinfo : call.info.type = none := hnone
      rw [EmissionContext.width, EmissionContext.size?, hinfo, Option.bind_none, Option.getD_none,
        hS.count_zero] at hbalanced
      exact hbalanced
    · rw [EmissionContext.width, hn.size?_eq, Option.getD_some] at hbalanced
      exact hbalanced.then (.pop 0 n)
  | .return l none, code, _, _, _, hcode, _ => by
    obtain rfl : code = Emission.leave S.ctx := hcode
    exact Setting.balanced_leave
  | .return l (some e), code, ⟨he, t, σ, ht, hσt, hσ⟩, hframed, hC,
      ⟨t', n, first, ht', hn, hfirst, hcode⟩, _ => by
    obtain rfl : t' = t := Option.some.inj (ht'.symm.trans ht)
    have hresult := hS.result t' ht'
    obtain rfl : S.result = n := Option.some.inj (hresult.symm.trans hn)
    have hbalanced := Expr.balanced hS e he (hframed e rfl) hC hfirst 0
    rw [TypeTable.size?_eq, ← hS.env.types, hσt, Option.bind_some, hS.env.types] at hn
    rw [hS.width_eq hσ hn] at hbalanced
    rw [hcode]
    exact (hbalanced.then (.store hS.has_result)).append Setting.balanced_leave
  | .choose l branches, code, ht, hframed, hC, ⟨exit, first, hfirst, hcode⟩, hmarks => by
    rw [hcode] at hmarks ⊢
    refine (Branches.balanced hS branches ht hframed hC hfirst (hmarks exit ?_) fun l hl =>
      hmarks l ?_).append (Setting.balanced_mark exit)
    · simp [Piece.marks]
    · simp [hl]
  | .count l counter start finish step body temps, code,
      ⟨⟨hc, _, hs, hf, σ, hnumeric, hσc, hσs, hσf, hstep⟩, hb⟩,
      ⟨⟨⟨n, hn, hlf, hhf, hls, hhs, hlg, hhg⟩, hfc, hfs, hff, hfstep⟩, hfb⟩, hC,
      ⟨kind, n', place, head, exit, finishCode, stepCode, startCode, load, load', bodyCode, ht,
        hplace, hfinish, hstepCode, hstart, hload, hload', hbody, hcode⟩, hmarks => by
    simp only [Stmt.mentions, Mention.allow_append] at hC
    obtain ⟨⟨⟨⟨hCc, hCs⟩, hCf⟩, hCstep⟩, hCb⟩ := hC
    obtain ⟨rfl, hsize⟩ := hS.env.types_eq hσc ht
    obtain rfl : n = n' := Option.some.inj (hn.symm.trans ht.size?_eq)
    obtain ⟨k, hk, hhas⟩ := hS.has_place hc hplace
    obtain rfl : n = k := Option.some.inj (hn.symm.trans hk)
    have value {e : Expr} {code : List Piece} (he : e.Typed Γ) (hσ : Γ.shape e.info = some σ)
        (hframed : e.Framed S.ctx.program.types S.ctx.program.constantValue
          (-(S.ctx.body.frame.locals : Int)))
        (hC : Mention.Allow S.ctx.program.functions.size S.callable e.mentions)
        (h : e.Loads S.ctx S.state code) (d : Nat) : S.Balanced d code (d + S.count n) := by
      have hbalanced := Expr.balanced hS e he hframed hC h d
      rwa [hS.width_eq hσ hsize] at hbalanced
    have first {code : List Piece} (h : S.Balanced 0 code (0 + S.count n)) :
        S.Balanced 0 code (S.count n) := by rwa [Nat.zero_add] at h
    rw [hcode] at hmarks ⊢
    refine balanced_countCode hnumeric hsize hhas (.inl ⟨hlf, hhf⟩) (.inl ⟨hls, hhs⟩)
      (.inl ⟨hlg, by exact_mod_cast hhg⟩) (hmarks head ?_) (hmarks exit ?_)
      (first (value hf hσf hff hCf hfinish 0))
      (EmissionContext.LoadsStep.balanced hS hσc hsize hnumeric hstep hfstep hCstep hstepCode)
      (first (value hs hσs hfs hCs hstart 0)) (value hc hσc hfc hCc hload)
      (value hc hσc hfc hCc hload') (Stmt.balancedAll hS body hb hfb hCb hbody fun l hl =>
        hmarks l ?_)
    · simp [countCode, Piece.marks, Emission.branchOn]
    · simp [countCode, Piece.marks, Emission.branchOn]
    · simp [countCode, Piece.marks, Emission.branchOn, hl]
  | .loop l none body, code, ⟨_, hb⟩, ⟨_, hfb⟩, hC, ⟨head, exit, bodyCode, hbody, hcode⟩,
      hmarks => by
    rw [hcode] at hmarks ⊢
    have hbalanced := Stmt.balancedAll hS body hb hfb hC hbody fun l hl => hmarks l (by simp [Piece.marks, hl])
    exact ((Setting.balanced_mark head).append hbalanced).append
      (.jump (hmarks head (by simp [Piece.marks])) (Setting.balanced_mark exit))
  | .loop l (some c) body, code, ⟨hc, hb⟩, ⟨hfc, hfb⟩, hC,
      ⟨head, exit, test, bodyCode, htest, hbody, hcode⟩, hmarks => by
    obtain ⟨hCc, hCb⟩ := Mention.allow_append.1 hC
    have hcondition := Expr.balanced_condition hS (hc c rfl).1 (hc c rfl).2 (hfc c rfl) hCc htest
    have hinner (hin : ∀ l ∈ Piece.marks bodyCode, l ∈ Piece.marks code) :
        S.Balanced 0 bodyCode 0 :=
      Stmt.balancedAll hS body hb hfb hCb hbody fun l hl => hmarks l (hin l hl)
    split at hcode
    next =>
      subst hcode
      have hbalanced := hinner fun l hl => by simp [Piece.marks, Emission.branchOn, hl]
      exact (((Setting.balanced_mark head).append hbalanced).append hcondition).append
        (.branch (hmarks head (by simp [Piece.marks, Emission.branchOn])) (Setting.balanced_mark exit))
    next =>
      subst hcode
      have hbalanced := hinner fun l hl => by simp [Piece.marks, Emission.branchOn, hl]
      exact ((((Setting.balanced_mark head).append hcondition).append
        (Setting.balanced_branch (hmarks exit (by simp [Piece.marks, Emission.branchOn])) _)).append hbalanced).append
        (.jump (hmarks head (by simp [Piece.marks, Emission.branchOn])) (Setting.balanced_mark exit))

theorem Stmt.balancedAll (hS : S.Fits Γ) : (ss : List Stmt) → {code : List Piece} →
    Stmt.TypedAll Γ S.ctx.function.returns ss →
    Stmt.FramedAll S.ctx.program.types S.ctx.program.constantValue
      (-(S.ctx.body.frame.locals : Int)) ss →
    Mention.Allow S.ctx.program.functions.size S.callable (Stmt.mentionsAll ss) →
    Stmt.EmitsAll S.ctx S.state code ss → (∀ l ∈ Piece.marks code, S.target l) →
    S.Balanced 0 code 0
  | [], code, _, _, _, hcode, _ => by
    obtain rfl : code = [] := hcode
    exact .nil 0
  | s :: rest, code, ⟨hs, hrest⟩, ⟨hfs, hfrest⟩, hC, ⟨first, later, hfirst, hlater, hcode⟩,
      hmarks => by
    obtain ⟨hCs, hCrest⟩ := Mention.allow_append.1 hC
    rw [hcode] at hmarks ⊢
    exact (Stmt.balanced hS s hs hfs hCs hfirst fun l hl => hmarks l (by simp [hl])).append
      (Stmt.balancedAll hS rest hrest hfrest hCrest hlater fun l hl => hmarks l (by simp [hl]))

theorem Branches.balanced (hS : S.Fits Γ) {exit : Label} : (b : Branches) → {code : List Piece} →
    b.Typed Γ S.ctx.function.returns →
    b.Framed S.ctx.program.types S.ctx.program.constantValue (-(S.ctx.body.frame.locals : Int)) →
    Mention.Allow S.ctx.program.functions.size S.callable b.mentions →
    b.Emits S.ctx S.state exit code → S.target exit → (∀ l ∈ Piece.marks code, S.target l) →
    S.Balanced 0 code 0
  | .done, code, _, _, _, hcode, _, _ => by
    obtain rfl : code = [] := hcode
    exact .nil 0
  | .otherwise body, code, ht, hframed, hC, h, _, hmarks =>
    Stmt.balancedAll hS body ht hframed hC h hmarks
  | .branch condition body rest, code, ⟨⟨hc, hσ⟩, hb, hr⟩, ⟨hfc, hfb, hfr⟩, hC,
      ⟨next, test, bodyCode, others, htest, hbody, hothers, hcode⟩, hexit, hmarks => by
    simp only [Branches.mentions, Mention.allow_append] at hC
    obtain ⟨⟨hCc, hCb⟩, hCr⟩ := hC
    rw [hcode] at hmarks ⊢
    have hcondition := Expr.balanced_condition hS hc hσ hfc hCc htest
    have hbalanced := Stmt.balancedAll hS body hb hfb hCb hbody fun l hl =>
      hmarks l (by simp [Piece.marks, Emission.branchOn, hl])
    have hrest := Branches.balanced hS rest hr hfr hCr hothers hexit fun l hl => by
      refine hmarks l ?_
      simp [Piece.marks, Emission.branchOn, hl]
    have hskip : S.Balanced 0 (rest.skip exit) 0 := by
      cases rest with
      | done => exact .nil 0
      | otherwise | branch => exact Setting.balanced_jump hexit
    have hnext : S.target next := hmarks next (by simp [Piece.marks, Emission.branchOn])
    exact ((((hcondition.append (Setting.balanced_branch hnext false)).append hbalanced).append
      hskip).append (Setting.balanced_mark next)).append hrest

end

/-- **The code of a function leaves nothing behind** once its frame is open, and ends by leaving. -/
theorem EmissionContext.Body.balanced (hS : S.Fits Γ)
    (ht : Stmt.TypedAll Γ S.ctx.function.returns S.ctx.body.statements)
    (hframed : Stmt.FramedAll S.ctx.program.types S.ctx.program.constantValue
      (-(S.ctx.body.frame.locals : Int)) S.ctx.body.statements)
    (hC : Mention.Allow S.ctx.program.functions.size S.callable
      (Stmt.mentionsAll S.ctx.body.statements))
    (h : S.ctx.Body S.state code) (hmarks : ∀ l ∈ Piece.marks code, S.target l) : ∃ body,
      code = .op (.enter (Word.size32 S.ctx.body.frame.locals)) :: (body ++ Emission.leave S.ctx) ∧
        S.Balanced 0 (body ++ Emission.leave S.ctx) 0 := by
  obtain ⟨first, statements, hfirst, hstatements, rfl⟩ := h
  refine ⟨first.flatten ++ statements, by simp, ?_⟩
  have hvariables : S.Balanced 0 first.flatten 0 := Setting.balanced_flatten fun code hcode => by
    obtain ⟨k, hk⟩ := List.mem_iff_getElem?.1 hcode
    obtain ⟨index, -, h⟩ := forall₂_right hfirst hk
    exact h.balanced hS
  have hbody := Stmt.balancedAll hS _ ht hframed hC hstatements fun l hl =>
    hmarks l (by simp [Piece.marks, hl])
  exact (hvariables.append hbody).append Setting.balanced_leave

end Statements

/-! ## Analysed programs -/

/-- Bytes moved by instructions that a machine can do are what the sizes say. -/
structure Counts (p : Program) (count : Nat → Nat) : Prop where
  zero : count 0 = 0
  sum : ∀ f ∈ p.functions, (f.parameters.map fun t => count ((p.types.size? t).getD 0)).sum =
    count (p.types.bytes f.parameters)

namespace Program.Complete

variable {p : Program} {m : Module} {n : Nat} {f : Function} {body : UserBody} {result : Nat}
  {place : Place}

/-- The data fields that a function can name are those of the module that comes to run it. -/
theorem ownerFields_eq (h : p.Complete) (hm : m ∈ p.modules) (hn : p.Reaches m n)
    (hf : p.functions[n]? = some f) {i : Nat} {slot : Slot}
    (hslot : (p.ownerFields f.owner)[i]? = some slot) : p.ownerFields f.owner = m.fields := by
  obtain ⟨j, hj⟩ := List.mem_iff_getElem?.1 hm
  obtain howner | howner := h.analysed.owner_of_reaches hj hn hf
  · rw [howner, ownerFields, hj, Option.map_some, Option.getD_some]
  · cases ho : f.owner with
    | library _ =>
      rw [ho] at hslot
      cases hslot
    | module _ =>
      rw [ho] at howner
      cases howner

/-- What a name stands for lies in the frame of its function or in the data sets of its module. -/
theorem has_declaration (h : p.Complete) (hm : m ∈ p.modules) (hn : p.Reaches m n)
    (hf : p.functions[n]? = some f) (hb : f.user? = some body) {d : Declaration} {t : TypeId}
    (ht : (Env.ofBody p.types p.constantValue p f.owner body (p.ownerFields f.owner)).declared d =
      some t)
    (hplace : EmissionContext.declarationPlace? ⟨p, f, body, m.fields⟩ d = some place) :
    ∃ k, p.types.size? t = some k ∧
      place.Within body.frame.locals (body.frame.arguments + result) m.dataSize k := by
  have hlaid := h.analysed.laidOut.functions n f hf body hb
  cases d with
  | localVar i =>
    obtain ⟨v, hv, hplace⟩ := Option.map_eq_some_iff.1 hplace
    obtain ⟨k, hk, hlow, hhigh⟩ := hlaid.locals i v hv
    have htype : body.locals[i]?.bind (·.type) = some t := ht
    rw [hv, Option.bind_some] at htype
    rw [htype, Option.bind_some] at hk
    exact ⟨k, hk, hplace ▸ .inl ⟨hlow, hhigh⟩⟩
  | argument i =>
    obtain ⟨slot, hslot, hplace⟩ := Option.map_eq_some_iff.1 hplace
    have htype : body.arguments[i]?.map (·.type) = some t := ht
    rw [hslot, Option.map_some] at htype
    obtain ⟨k, hk, hlow, hhigh⟩ := hlaid.arguments slot (List.mem_of_getElem? hslot)
    rw [Option.some.inj htype] at hk
    rw [hlaid.result] at hhigh
    refine ⟨k, hk, hplace ▸ .inr ⟨by exact_mod_cast hlow, ?_⟩⟩
    omega
  | dataField i =>
    obtain ⟨slot, hslot, hplace⟩ := Option.map_eq_some_iff.1 hplace
    obtain ⟨k, hk, hlow, hhigh⟩ := h.analysed.laidOut.modules m hm slot (List.mem_of_getElem? hslot)
    obtain ⟨slot', hslot', htype⟩ := Option.map_eq_some_iff.1 ht
    rw [h.ownerFields_eq hm hn hf hslot'] at hslot'
    obtain rfl := Option.some.inj (hslot'.symm.trans hslot)
    exact ⟨k, htype ▸ hk, hplace ▸ ⟨by omega, by omega⟩⟩
  | constant _ => cases ht

/-- **The code of a function refers to its own frame and to the data sets of its module.** -/
theorem fits (h : p.Complete) (hm : m ∈ p.modules) (hn : p.Reaches m n)
    (hf : p.functions[n]? = some f) (hb : f.user? = some body)
    (hresult : p.types.resultSize? f.returns = some result) {count : Nat → Nat}
    (hcount : Counts p count) (z : EmissionState) (callable : Nat → Prop)
    (target : Label → Prop) : Setting.Fits ⟨⟨p, f, body, m.fields⟩, z, result, m.dataSize, callable,
      target, count⟩ (Env.ofBody p.types p.constantValue p f.owner body (p.ownerFields f.owner)) where
  env := ⟨rfl, rfl⟩
  places _ _ _ ht hplace := h.has_declaration hm hn hf hb ht hplace
  members r t slot z ht hslot hz := by
    obtain ⟨d, hd, hfield⟩ := Option.bind_eq_some_iff.1 hslot
    obtain ⟨k, hk, -, hhigh⟩ := h.analysed.laidOut.structs r.struct z hz d hd slot
      (List.mem_of_getElem? hfield)
    obtain ⟨d', hd', ht⟩ := Option.bind_eq_some_iff.1 ht
    obtain rfl := Option.some.inj (hd'.symm.trans hd)
    rw [hfield, Option.map_some] at ht
    exact ⟨k, Option.some.inj ht ▸ hk, hhigh⟩
  functions number parameters returns hnumber := by
    dsimp only [Env.ofBody] at hnumber
    split at hnumber
    next =>
      obtain ⟨g, hg, heq⟩ := Option.map_eq_some_iff.1 hnumber
      exact ⟨g, hg, congrArg Prod.fst heq, congrArg Prod.snd heq⟩
    next => cases hnumber
  locals k v hv := by
    obtain ⟨size, hsize, hlow, hhigh⟩ := (h.analysed.laidOut.functions n f hf body hb).locals k v hv
    exact ⟨size, hsize, .inl ⟨hlow, hhigh⟩⟩
  strings _ _ hsize := h.analysed.laidOut.stringsWithin _ hsize
  declared _ := rfl
  result t ht := by
    have hr : f.returns = some t := ht
    rw [hr] at hresult
    exact hresult
  frame := (h.analysed.laidOut.functions n f hf body hb).result
  count_zero := hcount.zero
  count_sum := hcount.sum

end Program.Complete

/-- What the code of a function can refer to; it calls what the function mentions. -/
def Emission.Done.setting (u : Emission.Done) (p : Program) (m : Module) (z : EmissionState)
    (f : Function) (body : UserBody) (target : Label → Prop) (count : Nat → Nat) : Setting :=
  ⟨⟨p, f, body, m.fields⟩, z, u.result, m.dataSize, fun k => .call (some k) ∈ f.mentions, target,
    count⟩

/-- **The code of every function of a module leaves nothing behind** once its frame is open, and
ends by leaving. -/
theorem Emission.Done.For.balanced {u : Emission.Done} {p : Program} {m : Module}
    {z : EmissionState} {f : Function} {body : UserBody} {code : List Piece}
    {target : Label → Prop} {count : Nat → Nat} (hu : u.For p m z f body code) (h : p.Complete)
    (hm : m ∈ p.modules) (hcount : Counts p count) (htarget : ∀ l ∈ Piece.marks code, target l) :
    ∃ inner, code = .op (.enter (Word.size32 body.frame.locals)) ::
        (inner ++ leave ⟨p, f, body, m.fields⟩) ∧
      (u.setting p m z f body target count).Balanced 0 (inner ++ leave ⟨p, f, body, m.fields⟩) 0 := by
  have hfits := h.fits hm hu.callable.1 hu.function hu.user hu.result hcount z
    (fun k => .call (some k) ∈ f.mentions) target
  have hlaid := h.analysed.laidOut.functions u.number f hu.function body hu.user
  have htyped := h.analysed.typed u.number f hu.function body hu.user
  refine EmissionContext.Body.balanced hfits htyped hlaid.statements ?_ hu.emitted htarget
  rw [Function.mentions_of_user? hu.user]
  exact fun k _ hk => hk

end ChannelBasic
