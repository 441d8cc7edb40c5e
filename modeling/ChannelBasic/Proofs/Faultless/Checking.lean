import ChannelBasic.Proofs.Faultless.Basic
import ChannelBasic.Proofs.Program.Names

/-!
# Proofs/Faultless/Checking — checking types blames the program

A value is coerced only after its type has been asked for, a constant that is named is there, and a
constant that has a value has a type.  What is known about constants is kept by every pass that
only lets it grow (`CheckState.Defined.grows`).
-/

namespace ChannelBasic

open Checked

/-- There are `n` constants; each has a type if it has a value, and else names constants that are
there. -/
structure CheckState.Defined (n : Nat) (s : CheckState) : Prop where
  count : s.constants.size = n
  types : ∀ (k : Nat) (c : Constant), s.constants[k]? = some c → c.folded.isSome = true →
    c.type.isSome = true
  values : ∀ (k : Nat) (c : Constant), s.constants[k]? = some c → c.folded.isSome = false →
    ∀ x ∈ c.value.nodes, x.Refers n

theorem CheckState.Defined.grows {n : Nat} {s s' : CheckState} (hs : s.Defined n)
    (h : Grows s s') : s'.Defined n where
  count := h.count.trans hs.count
  types k c hc hf := by
    obtain hc | ⟨ht, -⟩ := h.fresh k c hc
    · exact hs.types k c hc hf
    · exact ht
  values k c hc hf := by
    obtain hc | ⟨-, hf'⟩ := h.fresh k c hc
    · exact hs.values k c hc hf
    · rw [hf] at hf'
      cases hf'

namespace Checking

variable {s : CheckState} {e left right : Expr} {place : Location}

/-! ## Operands -/

@[simp] theorem faultless_valueType (e : Expr) : Faultless ((valueType e).run s) := by
  unfold valueType
  split <;> simp

@[simp] theorem faultless_addType (add : TypeTable → TypeId × TypeTable) :
    Faultless ((addType add).run s) := by
  simp [addType]

@[simp] theorem faultless_fold (e : Expr) : Faultless ((fold e).run s) := by
  simp [fold]

@[simp] theorem faultless_simplify (e : Expr) : Faultless ((simplify e).run s) := by
  simp [simplify]

@[simp] theorem rule_mismatch (types : TypeTable) (rule : Rule) (actual expected : TypeId) :
    (mismatch types rule place actual expected).rule = rule := rfl

@[simp] theorem rule_notApplicable (types : TypeTable) (op : BinaryOp) (lt rt : TypeId) :
    (notApplicable types place op lt rt).rule = .operatorNotApplicable := rfl

/-- **A value whose type is known is coerced or refused.** -/
theorem faultless_coerce {t expected : TypeId} {rule : Rule} (ht : e.type? = some t)
    (hr : rule ≠ .internalError) : Faultless ((coerce e expected rule).run s) := by
  unfold coerce
  rw [ht]
  refine Faultless.reads ?_
  dsimp only
  split
  · simp
  · refine Faultless.seq (faultless_fold e) .any fun v s₃ _ => ?_
    split
    · simp [hr]
    · split <;> simp [hr]

@[simp] theorem faultless_member (sigs : Signatures) (field : String) :
    Faultless ((member sigs place e field).run s) := by
  unfold member
  refine Faultless.seq (faultless_valueType e) .any fun t s₁ _ => ?_
  refine Faultless.reads ?_
  dsimp only
  split
  · simp
  · split
    · split <;> simp
    · simp

@[simp] theorem faultless_unary (op : UnaryOp) : Faultless ((unary place op e).run s) := by
  simp [unary]

/-! ## Operators -/

theorem faultless_stringify {t type : TypeId} (ht : e.type? = some t) :
    Faultless ((stringify place e type).run s) := by
  unfold stringify
  refine Faultless.reads ?_
  dsimp only
  split
  · simp
  · split
    · simp
    · simp [faultless_coerce ht]

theorem faultless_promote {lt rt common : TypeId} (hl : left.type? = some lt)
    (hr : right.type? = some rt) : Faultless ((promote left right common).run s) := by
  simp [promote, faultless_coerce hl, faultless_coerce hr]

section Operators

variable {lt rt : TypeId} (hl : left.type? = some lt) (hr : right.type? = some rt)
include hl hr

theorem faultless_stringSum : Faultless ((stringSum place left right lt rt).run s) := by
  unfold stringSum
  refine Faultless.seq (faultless_stringify hl) .any fun l s₁ _ => ?_
  refine Faultless.seq (faultless_stringify hr) .any fun r s₂ _ => ?_
  refine Faultless.reads ?_
  dsimp only
  split <;> simp

theorem faultless_arithmetic (op : BinaryOp) :
    Faultless ((arithmetic place op left right lt rt).run s) := by
  unfold arithmetic
  refine Faultless.reads ?_
  dsimp only
  split
  · simp [faultless_promote hl hr]
  · simp

theorem faultless_logic (op : BinaryOp) :
    Faultless ((logic place op left right lt rt).run s) := by
  simp [logic, faultless_promote hl hr]

theorem faultless_comparison (op : BinaryOp) :
    Faultless ((comparison place op left right lt rt).run s) := by
  simp [comparison, faultless_promote hl hr]

end Operators

@[simp] theorem faultless_binary (op : BinaryOp) :
    Faultless ((binary place op left right).run s) := by
  unfold binary
  refine Faultless.seq (faultless_valueType left) (ends_valueType left s) fun lt s₁ h₁ => ?_
  refine Faultless.seq (faultless_valueType right) (ends_valueType right s₁) fun rt s₂ h₂ => ?_
  refine Faultless.reads ?_
  dsimp only
  cases op <;>
    simp [faultless_stringSum h₁.2 h₂.2, faultless_arithmetic h₁.2 h₂.2, faultless_logic h₁.2 h₂.2,
      faultless_comparison h₁.2 h₂.2]

/-! ## Expressions -/

/-- Finding the type of one of `n` constants is faultless, and lets what is known grow. -/
structure Reliable (n : Nat) (constantType : ConstantType) : Prop where
  faultless : ∀ k < n, ∀ s : CheckState, s.Defined n → Faultless ((constantType k).run s)
  keeps : ∀ k, Keeps Moves (constantType k)

variable {sigs : Signatures} {constantType : ConstantType} {n : Nat}

theorem faultless_declaredType (hc : Reliable n constantType) (hs : s.Defined n) {i : Info}
    {name : String} {d : Declaration} (hd : (Expr.name i name (some d)).Refers n) :
    Faultless ((declaredType sigs constantType d).run s) := by
  cases d with
  | constant k => simp [declaredType, hc.faultless k hd s hs]
  | localVar | argument | dataField => simp [declaredType]

mutual

theorem faultless_expr (hc : Reliable n constantType) : (e : Expr) → (s : CheckState) →
    s.Defined n → (∀ x ∈ e.nodes, x.Refers n) →
      Faultless ((expr sigs constantType e).run s)
  | .literal .., s, hs, he => by simp [expr]
  | .name i name none, s, hs, he => by simp [expr]
  | .name i name (some d), s, hs, he => by
    unfold expr
    refine Faultless.seq (faultless_declaredType hc hs (he _ (Expr.mem_nodes _))) .any
      fun t s₁ _ => ?_
    cases t <;> simp
  | .member i target field d, s, hs, he => by
    have ht := faultless_expr hc target s hs fun x hx => he x (.tail _ hx)
    simp [expr, ht]
  | .call i function arguments callee, s, hs, he => by
    unfold expr
    split
    · simp
    · simp [faultless_exprs hc _ arguments s hs fun x hx => he x (.tail _ hx)]
  | .unary i op operand, s, hs, he => by
    have ho := faultless_expr hc operand s hs fun x hx => he x (.tail _ hx)
    simp [expr, ho]
  | .binary i op left right, s, hs, he => by
    have hl := faultless_expr hc left s hs fun x hx => he x (.tail _ (List.mem_append_left _ hx))
    unfold expr
    refine Faultless.seq hl (keeps_expr hc.keeps left s) fun l s₁ h₁ => ?_
    refine Faultless.seq (faultless_valueType l) (ends_valueType l s₁) fun t s₂ h₂ => ?_
    have hr := faultless_expr hc right s₂ (h₂.1 ▸ hs.grows h₁.toGrows) fun x hx =>
      he x (.tail _ (List.mem_append_right _ hx))
    simp [hr]
  | .cast .., s, hs, he => by simp [expr]
  | .pointer .., s, hs, he => by simp [expr]

theorem faultless_exprs (hc : Reliable n constantType) : (ps : List TypeId) → (es : List Expr) →
    (s : CheckState) → s.Defined n → (∀ x ∈ Expr.nodesAll es, x.Refers n) →
      Faultless ((exprs sigs constantType ps es).run s)
  | [], _, s, hs, he => by simp [exprs]
  | _ :: _, [], s, hs, he => by simp [exprs]
  | p :: ps, e :: es, s, hs, he => by
    have hhead := faultless_expr hc e s hs fun x hx => he x (List.mem_append_left _ hx)
    unfold exprs
    refine Faultless.seq hhead (keeps_expr hc.keeps e s) fun e' s₁ h₁ => ?_
    refine Faultless.seq (faultless_valueType e') (ends_valueType e' s₁) fun t s₂ h₂ => ?_
    obtain ⟨rfl, ht⟩ := h₂
    refine Faultless.seq (faultless_coerce ht (by simp)) (keeps_coerce s₂) fun e'' s₃ h₃ => ?_
    have hs₃ := (hs.grows h₁.toGrows).grows h₃.moves.toGrows
    simp [faultless_exprs hc ps es s₃ hs₃ fun x hx => he x (List.mem_append_right _ hx)]

end

/-- A value has the type that was found. -/
theorem moves_value (hc : Reliable n constantType) (e : Expr) :
    Ends (value sigs constantType e) s fun r s' => Moves s s' ∧ r.1.type? = some r.2 := by
  refine (keeps_expr hc.keeps e s).seq fun e' s₁ h₁ => ?_
  refine (ends_valueType e' s₁).seq fun t s₂ h₂ => Ends.value ?_
  obtain ⟨rfl, ht⟩ := h₂
  exact ⟨h₁, ht⟩

theorem faultless_value (hc : Reliable n constantType) (hs : s.Defined n)
    (he : ∀ x ∈ e.nodes, x.Refers n) : Faultless ((value sigs constantType e).run s) := by
  simp [value, faultless_expr hc e s hs he]

/-! ## Statements -/

theorem faultless_infer (target : Expr) (actual : TypeId) :
    Faultless ((infer target actual).run s) := by
  unfold infer
  split <;> simp

theorem faultless_target (hc : Reliable n constantType) (hs : s.Defined n)
    (he : ∀ x ∈ e.nodes, x.Refers n) : Faultless ((target sigs constantType e).run s) := by
  simp [target, faultless_value hc hs he]

theorem faultless_assigned (hc : Reliable n constantType) (hs : s.Defined n)
    (he : ∀ x ∈ e.nodes, x.Refers n) {expected : TypeId} :
    Faultless ((assigned sigs constantType expected e).run s) :=
  Faultless.seq (faultless_value hc hs he) (moves_value hc e) fun _ _ h =>
    faultless_coerce h.2 (by simp)

theorem faultless_condition (hc : Reliable n constantType) (hs : s.Defined n)
    (he : ∀ x ∈ e.nodes, x.Refers n) : Faultless ((condition sigs constantType e).run s) := by
  simp [condition, faultless_value hc hs he]

/-- A variable that is declared is one of the variables. -/
theorem faultless_var (hc : Reliable n constantType) (hs : s.Defined n) {index : Nat}
    (hi : index < s.locals.size) {first : Option Expr}
    (he : ∀ x ∈ Expr.nodesOf first, x.Refers n) :
    Faultless ((var sigs constantType place index first).run s) := by
  unfold var
  refine Faultless.reads ?_
  obtain ⟨⟨l, name, type, offset⟩, hv⟩ : ∃ v, s.locals[index]? = some v :=
    ⟨_, Array.getElem?_eq_getElem hi⟩
  rw [hv]
  cases first with
  | none => cases type <;> simp
  | some e =>
    have hvalue : Faultless ((value sigs constantType e).run s) := faultless_value hc hs he
    have hassigned (t : TypeId) : Faultless ((assigned sigs constantType t e).run s) :=
      faultless_assigned hc hs he
    cases type <;> simp [hvalue, hassigned, setLocalType]

section Statements

variable {returns : Option TypeId}

mutual

theorem faultless_stmt (hc : Reliable n constantType) : (t : Stmt) → (s : CheckState) →
    s.Defined n → (∀ x ∈ t.nodes, x.Refers n) → (∀ i ∈ t.variables, i < s.locals.size) →
      Faultless ((stmt sigs constantType returns t).run s)
  | .var l index first, s, hs, he, hv => by
    simp [stmt, faultless_var hc hs (hv index (by simp [Stmt.variables])) he]
  | .assign l first place, s, hs, he, hv => by
    unfold stmt
    refine Faultless.seq (faultless_value hc hs fun x hx => he x (List.mem_append_left _ hx))
      (moves_value hc first) fun r s₁ h₁ => ?_
    refine Faultless.seq (faultless_infer _ _) (keeps_infer s₁) fun _ s₂ h₂ => ?_
    have htarget : Faultless ((target sigs constantType place).run s₂) :=
      faultless_target hc ((hs.grows h₁.1.toGrows).grows h₂.toGrows) fun x hx =>
        he x (List.mem_append_right _ hx)
    simp [htarget, faultless_coerce h₁.2]
  | .invoke l call, s, hs, he, hv => by simp [stmt, faultless_expr hc call s hs he]
  | .return l none, s, hs, he, hv => by cases returns <;> simp [stmt]
  | .return l (some e), s, hs, he, hv => by
    have hassigned (t : TypeId) : Faultless ((assigned sigs constantType t e).run s) :=
      faultless_assigned hc hs he
    cases returns <;> simp [stmt, hassigned]
  | .choose l branches, s, hs, he, hv => by
    simp [stmt, faultless_choices hc branches s hs he hv]
  | .count l counter start finish step body temps, s, hs, he, hv => by
    simp only [Stmt.nodes, List.mem_append, or_imp, forall_and] at he
    obtain ⟨⟨⟨⟨hcounter, hstart⟩, hfinish⟩, hstep⟩, hbody⟩ := he
    unfold stmt
    refine Faultless.seq (faultless_value hc hs hstart) (moves_value hc start) fun r s₁ h₁ => ?_
    refine Faultless.seq (faultless_infer _ _) (keeps_infer s₁) fun _ s₂ h₂ => ?_
    have hs₂ := (hs.grows h₁.1.toGrows).grows h₂.toGrows
    refine Faultless.seq (faultless_target hc hs₂ hcounter) (keeps_target hc.keeps counter s₂)
      fun c s₃ h₃ => ?_
    refine Faultless.reads ?_
    dsimp only
    split
    · refine Faultless.seq (faultless_coerce h₁.2 (by simp)) (keeps_coerce s₃) fun a s₄ h₄ => ?_
      have h₄ := Advances.passage.trans h₂ (Advances.passage.trans h₃.advances h₄.moves.advances)
      have hs₄ := (hs.grows h₁.1.toGrows).grows h₄.toGrows
      refine Faultless.seq (faultless_assigned hc hs₄ hfinish) (keeps_assigned hc.keeps s₄)
        fun b s₅ h₅ => ?_
      have hs₅ := hs₄.grows h₅.toGrows
      have hwidth : s₅.locals.size = s.locals.size := by
        rw [h₅.locals, h₄.width, h₁.1.locals]
      cases step with
      | none => simp [faultless_stmts hc body s₅ hs₅ hbody (by rwa [hwidth])]
      | some e =>
        refine Faultless.seq (faultless_assigned hc hs₅ hstep) (keeps_assigned hc.keeps s₅)
          fun d s₆ h₆ => ?_
        have hbody := faultless_stmts hc body s₆ (hs₅.grows h₆.toGrows) hbody
          (by rwa [h₆.locals, hwidth])
        simp [hbody]
    · simp
  | .loop l none body, s, hs, he, hv => by
    simp [stmt, faultless_stmts hc body s hs he hv]
  | .loop l (some c) body, s, hs, he, hv => by
    unfold stmt
    refine Faultless.seq (faultless_condition hc hs fun x hx => he x (List.mem_append_left _ hx))
      (keeps_condition hc.keeps c.value s) fun d s₁ h₁ => ?_
    have hbody := faultless_stmts hc body s₁ (hs.grows h₁.toGrows)
      (fun x hx => he x (List.mem_append_right _ hx)) (by rwa [h₁.locals])
    simp [hbody]

theorem faultless_stmts (hc : Reliable n constantType) : (l : List Stmt) → (s : CheckState) →
    s.Defined n → (∀ x ∈ Stmt.nodesAll l, x.Refers n) →
      (∀ i ∈ Stmt.variablesAll l, i < s.locals.size) →
      Faultless ((stmts sigs constantType returns l).run s)
  | [], s, hs, he, hv => by simp [stmts]
  | t :: rest, s, hs, he, hv => by
    have hhead := faultless_stmt hc t s hs (fun x hx => he x (List.mem_append_left _ hx))
      fun i hi => hv i (List.mem_append_left _ hi)
    unfold stmts
    refine Faultless.seq hhead (keeps_stmt hc.keeps t s) fun t' s₁ h₁ => ?_
    have hrest := faultless_stmts hc rest s₁ (hs.grows h₁.toGrows)
      (fun x hx => he x (List.mem_append_right _ hx)) fun i hi => by
        rw [h₁.width]
        exact hv i (List.mem_append_right _ hi)
    simp [hrest]

theorem faultless_choices (hc : Reliable n constantType) : (b : Branches) → (s : CheckState) →
    s.Defined n → (∀ x ∈ b.nodes, x.Refers n) → (∀ i ∈ b.variables, i < s.locals.size) →
      Faultless ((choices sigs constantType returns b).run s)
  | .done, s, hs, he, hv => by simp [choices]
  | .otherwise body, s, hs, he, hv => by simp [choices, faultless_stmts hc body s hs he hv]
  | .branch test body rest, s, hs, he, hv => by
    simp only [Branches.nodes, List.mem_append, or_imp, forall_and] at he
    unfold choices
    refine Faultless.seq (faultless_condition hc hs he.1.1) (keeps_condition hc.keeps test s)
      fun c s₁ h₁ => ?_
    have hs₁ := hs.grows h₁.toGrows
    have hbody := faultless_stmts hc body s₁ hs₁ he.1.2 fun i hi => by
      rw [h₁.locals]
      exact hv i (List.mem_append_left _ hi)
    refine Faultless.seq hbody (keeps_stmts hc.keeps body s₁) fun b s₂ h₂ => ?_
    have hrest := faultless_choices hc rest s₂ (hs₁.grows h₂.toGrows) he.2 fun i hi => by
      rw [h₂.width, h₁.locals]
      exact hv i (List.mem_append_right _ hi)
    simp [hrest]

end

end Statements

/-! ## Definitions -/

@[simp] theorem faultless_capacityOf (v : Option Literal) : Faultless (capacityOf place v) := by
  unfold capacityOf
  grind

section Definitions

variable {lengths : Array Expr} (hc : Reliable n constantType)
  (hlengths : ∀ (k : Nat) (e : Expr), lengths[k]? = some e → ∀ x ∈ e.nodes, x.Refers n)
include hc hlengths

theorem faultless_resolveLength (hs : s.Defined n) (id : TypeId) :
    Faultless ((resolveLength lengths constantType id).run s) := by
  unfold resolveLength
  refine Faultless.reads ?_
  split
  next index hid =>
    split
    · simp
    next length hlength =>
      refine Faultless.reads ?_
      dsimp only
      split
      · simp
      · refine Faultless.modifies ?_
        have hvalue (l : List Nat) :
            Faultless ((value noSignatures constantType length).run { s with openLengths := l }) :=
          faultless_value hc ⟨hs.count, hs.types, hs.values⟩ (hlengths index length hlength)
        simp [hvalue]
  · simp

theorem faultless_resolveWithin (hs : s.Defined n) (bound : Nat) (id : TypeId) :
    Faultless ((resolveWithin lengths constantType bound id).run s) := by
  induction bound generalizing id with
  | zero => simp [resolveWithin]
  | succ bound ih =>
    unfold resolveWithin
    refine Faultless.reads ?_
    split
    · exact faultless_resolveLength hc hlengths hs _
    · exact ih _
    · exact ih _
    · simp

theorem faultless_declaredValue (hs : s.Defined n) {t actual : TypeId} (ht : e.type? = some t)
    (declared : Option TypeId) :
    Faultless ((declaredValue lengths constantType declared e actual).run s) := by
  unfold declaredValue
  cases declared with
  | none => simp
  | some declared =>
    simp [resolveType, faultless_resolveWithin hc hlengths hs, faultless_coerce ht]

end Definitions

/-- **A constant that is there is checked or refused**, however many checks may be nested. -/
theorem reliable_constantWithin {lengths : Array Expr}
    (hlengths : ∀ (k : Nat) (e : Expr), lengths[k]? = some e → ∀ x ∈ e.nodes, x.Refers n)
    (bound : Nat) : Reliable n (constantWithin lengths bound) := by
  refine ⟨?_, keeps_constantWithin bound⟩
  induction bound with
  | zero => intro k _ s _; simp [constantWithin]
  | succ bound ih =>
    intro k hk s hs
    have hc : Reliable n (constantWithin lengths bound) := ⟨ih, keeps_constantWithin bound⟩
    obtain ⟨c, hck⟩ : ∃ c, s.constants[k]? = some c :=
      ⟨_, Array.getElem?_eq_getElem (hs.count.symm ▸ hk)⟩
    unfold constantWithin
    refine Faultless.reads ?_
    rw [hck]
    dsimp only
    split
    next hf =>
      obtain ⟨t, ht⟩ := Option.isSome_iff_exists.1 (hs.types k c hck hf)
      rw [ht]
      simp
    next hf =>
      split
      · simp
      · -- the constant is open while its value is checked
        refine Faultless.seq (Faultless.run_set _ _) (P := fun _ s₁ => s₁.Defined n)
          (Ends.modifies ⟨hs.count, hs.types, hs.values⟩) fun _ s₁ hs₁ => ?_
        have hvalue : Faultless ((value noSignatures (constantWithin lengths bound) c.value).run s₁) :=
          faultless_value hc hs₁ (hs.values k c hck (by simpa using hf))
        refine Faultless.seq hvalue (moves_value hc c.value) fun r s₂ h₂ => ?_
        refine Faultless.seq (faultless_declaredValue hc hlengths (hs₁.grows h₂.1.toGrows) h₂.2 c.type)
          .any fun r' s₃ _ => ?_
        refine Faultless.seq (faultless_fold _) .any fun v s₄ _ => ?_
        cases v <;> simp

/-! ## Programs -/

variable {p : Program}

@[simp] theorem faultless_checkType {rule rule' : Rule} (h : rule ≠ .internalError)
    (h' : rule' ≠ .internalError) (id : TypeId) :
    Faultless ((checkType place rule rule' id).run s) := by
  simp [checkType, h, h']

theorem faultless_checkField (f : Slot) (s : CheckState) : Faultless ((checkField f).run s) := by
  simp [checkField]

theorem faultless_checkNative (f : Function) : Faultless ((checkNative f).run s) := by
  unfold checkNative checkArgument
  split <;> simp

theorem faultless_checkReturns (f : Function) : Faultless ((checkReturns f).run s) := by
  unfold checkReturns
  split <;> simp

theorem faultless_checkChannel (hp : p.Named) {c : Channel} (hc : c ∈ p.channels) :
    Faultless ((checkChannel p c).run s) := by
  unfold checkChannel
  split
  · simp
  next output input hfields =>
    obtain ⟨ho, hi⟩ := hp.channels c hc output input hfields
    obtain ⟨a, ha⟩ := Option.isSome_iff_exists.1 ho
    obtain ⟨b, hb⟩ := Option.isSome_iff_exists.1 hi
    rw [ha, hb]
    simp

theorem faultless_checkFunction (hc : Reliable n constantType) (hs : s.Defined n) {f : Function}
    (hf : ∀ body, f.user? = some body → (∀ x ∈ Stmt.nodesAll body.statements, x.Refers n) ∧
      ∀ i ∈ Stmt.variablesAll body.statements, i < body.locals.size) :
    Faultless ((checkFunction p constantType f).run s) := by
  unfold checkFunction
  split
  · simp
  next body hbody =>
    obtain ⟨hnodes, hvariables⟩ := hf body (by simp [Function.user?, hbody])
    refine Faultless.seq (Faultless.run_forM_all fun a s => ?_)
      (ends_checks body.arguments (fun a s => ends_checkType _ _ _ a.type) s) fun _ s₁ h₁ => ?_
    · simp [checkArgument]
    · obtain ⟨rfl, -⟩ := h₁
      refine Faultless.modifies ?_
      have hstmts (sigs : Signatures) :
          Faultless ((stmts sigs constantType f.returns body.statements).run
            { s₁ with locals := body.locals }) :=
        faultless_stmts hc _ _ ⟨hs.count, hs.types, hs.values⟩ hnodes hvariables
      simp [hstmts]

theorem defined_start {visible : Owner → Nat → Bool} (hw : p.Written visible) (hp : p.Named) :
    (⟨p.types, p.constants, [], [], #[]⟩ : CheckState).Defined p.constants.size where
  count := rfl
  types k c hc hf := by
    rw [(hw.constants k c hc).1] at hf
    cases hf
  values k c hc _ := hp.constants k c hc

/-- **A program whose names are bound is checked or refused.** -/
theorem faultless_program {visible : Owner → Nat → Bool} (hw : p.Written visible) (hp : p.Named) :
    Faultless ((program p).run ⟨p.types, p.constants, [], [], #[]⟩) := by
  have hc := reliable_constantWithin hp.lengths (p.constants.size + 1)
  unfold program
  refine Faultless.rounds (I := CheckState.Defined p.constants.size) (defined_start hw hp)
    (fun id _ s hs => ⟨faultless_resolveLength hc hp.lengths hs id,
      (keeps_resolveLength hc.keeps id s).mono fun _ _ h => hs.grows h.toGrows⟩) fun s₁ hs₁ => ?_
  refine Faultless.rounds hs₁ (fun k hk s hs => ⟨?_, ?_⟩) fun s₂ hs₂ => ?_
  · simp [hc.faultless k (List.mem_range.1 hk) s hs]
  · exact (hc.keeps k s).seq fun _ _ h => Ends.value (hs.grows h.toGrows)
  -- declared types are looked at, and nothing changes
  refine Faultless.rounds hs₂ (fun d _ s hs => ⟨?_, ?_⟩) fun s₃ hs₃ => ?_
  · exact Faultless.run_forM_all faultless_checkField
  · exact (ends_checks d.fields ends_checkField s).mono fun _ _ h => h.1 ▸ hs
  refine Faultless.rounds hs₃ (fun m _ s hs => ⟨?_, ?_⟩) fun s₄ hs₄ => ?_
  · exact Faultless.run_forM_all faultless_checkField
  · exact (ends_checks m.fields ends_checkField s).mono fun _ _ h => h.1 ▸ hs
  refine Faultless.rounds hs₄ (fun f _ s hs => ⟨faultless_checkNative f, ?_⟩) fun s₅ hs₅ => ?_
  · exact (ends_checkNative f s).mono fun _ _ h => h.1 ▸ hs
  refine Faultless.rounds hs₅ (fun f _ s hs => ⟨faultless_checkReturns f, ?_⟩) fun s₆ hs₆ => ?_
  · exact (ends_checkReturns f s).mono fun _ _ h => h.1 ▸ hs
  refine Faultless.rounds hs₆ (fun f _ s hs => ⟨faultless_checkReturns f, ?_⟩) fun s₇ hs₇ => ?_
  · exact (ends_checkReturns f s).mono fun _ _ h => h.1 ▸ hs
  -- bodies and channels
  refine Faultless.roundsOf hs₇ (fun f hf s hs => ⟨?_, ?_⟩) fun fs s₈ hs₈ => ?_
  · obtain ⟨n, hn⟩ := List.mem_iff_getElem?.1 hf
    rw [Array.getElem?_toList] at hn
    exact faultless_checkFunction hc hs fun body hb =>
      ⟨(hp.functions n f hn body hb).refers, (hw.functions n f hn body hb).within⟩
  · exact (ends_checkFunction hc.keeps f).mono fun _ _ h => hs.grows h.1.toGrows
  refine Faultless.rounds hs₈ (fun c hc s hs => ⟨faultless_checkChannel hp hc, ?_⟩) fun s₉ _ => ?_
  · exact (ends_checkChannel c).mono fun _ _ h => h ▸ hs
  exact Faultless.run_value fs s₉

end Checking

theorem Program.faultless_checkTypes {visible : Owner → Nat → Bool} {p : Program}
    (hw : p.Written visible) (hp : p.Named) : Faultless p.checkTypes := by
  simp [checkTypes, Checking.faultless_program hw hp]

end ChannelBasic
