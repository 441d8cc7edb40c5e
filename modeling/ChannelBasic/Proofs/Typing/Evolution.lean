import ChannelBasic.Program.Definitions
import ChannelBasic.Proofs.Passes
import ChannelBasic.Proofs.Types.Shape

/-!
# Proofs/Typing/Evolution — how what is known grows while types are checked

Checking enters types, resolves lengths, evaluates constants and gives types to variables.  Nothing
that is known is changed: `Enters` says so for single steps, `Moves` for what checking an expression
does, `Advances` for what checking statements does.  A definition that is open is left alone until
whoever opened it comes back, which is why **an open definition is still what it was**.
-/

namespace ChannelBasic

/-- The type of a variable, if it has one. -/
def CheckState.localType (s : CheckState) (index : Nat) : Option TypeId :=
  (s.locals[index]?).bind (·.type)

/-- More types and constants are known, and what was known or open is what it was. -/
structure Grows (s s' : CheckState) : Prop where
  types : s.types.Extends s'.types
  structSizes : s'.types.structSizes = s.types.structSizes
  count : s'.constants.size = s.constants.size
  folded : ∀ (k : Nat) (c : Constant), s.constants[k]? = some c → c.folded.isSome = true →
    s'.constants[k]? = some c
  openConstants : s'.openConstants = s.openConstants
  held : ∀ k ∈ s.openConstants, s'.constants[k]? = s.constants[k]?
  openLengths : s'.openLengths = s.openLengths
  pending : ∀ id n, s.types.get id = .pending n → n ∈ s.openLengths → s'.types.get id = .pending n
  structs : s.types.SameStructs s'.types
  /-- A constant that has changed has got its type and its value. -/
  fresh : ∀ (k : Nat) (c : Constant), s'.constants[k]? = some c →
    s.constants[k]? = some c ∨ c.type.isSome = true ∧ c.folded.isSome = true

/-- All constants are evaluated. -/
def CheckState.Settled (s : CheckState) : Prop :=
  ∀ (k : Nat) (c : Constant), s.constants[k]? = some c → c.folded.isSome = true

/-- What checking an expression does: once all constants are evaluated, it only enters types. -/
structure Moves (s s' : CheckState) : Prop extends Grows s s' where
  locals : s'.locals = s.locals
  settled : s.Settled → s.types.Appends s'.types

/-- What checking statements does: it gives types to variables, too. -/
structure Advances (s s' : CheckState) : Prop extends Grows s s' where
  width : s'.locals.size = s.locals.size
  locals : ∀ i t, s.localType i = some t → s'.localType i = some t
  settled : s.Settled → s.types.Appends s'.types

variable {s s₁ s₂ s₃ : CheckState}

theorem Grows.refl (s : CheckState) : Grows s s :=
  ⟨.refl _, rfl, rfl, fun _ _ h _ => h, rfl, fun _ _ => rfl, rfl, fun _ _ h _ => h, .refl _,
    fun _ _ => .inl⟩

theorem Grows.trans (h : Grows s₁ s₂) (h' : Grows s₂ s₃) : Grows s₁ s₃ where
  types := h.types.trans h'.types
  structSizes := h'.structSizes.trans h.structSizes
  count := h'.count.trans h.count
  folded k c hc hf := h'.folded k c (h.folded k c hc hf) hf
  openConstants := h'.openConstants.trans h.openConstants
  held k hk := (h'.held k (h.openConstants ▸ hk)).trans (h.held k hk)
  openLengths := h'.openLengths.trans h.openLengths
  pending id n hid hn := h'.pending id n (h.pending id n hid hn) (h.openLengths ▸ hn)
  structs := h.structs.trans h'.structs
  fresh k c hc := (h'.fresh k c hc).elim (h.fresh k c) .inr

theorem Grows.constantValue (h : Grows s₁ s₂) {k : Nat} {v : Literal}
    (hv : s₁.constantValue k = some v) : s₂.constantValue k = some v := by
  obtain ⟨c, hc, hf⟩ := Option.bind_eq_some_iff.1 hv
  exact Option.bind_eq_some_iff.2 ⟨c, h.folded k c hc (by rw [hf]; rfl), hf⟩

/-- All constants stay evaluated. -/
theorem CheckState.Settled.grows (hs : s₁.Settled) (h : Grows s₁ s₂) : s₂.Settled := by
  intro k c hc
  have hk : k < s₁.constants.size := by
    rw [← h.count]
    exact (Array.getElem?_eq_some_iff.1 hc).1
  have hold := h.folded k _ (Array.getElem?_eq_getElem hk) (hs k _ (Array.getElem?_eq_getElem hk))
  obtain rfl : s₁.constants[k] = c := Option.some.inj (hold.symm.trans hc)
  exact hs k _ (Array.getElem?_eq_getElem hk)

theorem Moves.passage : Passage Moves where
  refl s := ⟨.refl s, rfl, fun _ => .refl _⟩
  trans h h' := ⟨h.toGrows.trans h'.toGrows, h'.locals.trans h.locals, fun hs =>
    (h.settled hs).trans h.types.size_le (h'.settled (hs.grows h.toGrows))⟩

theorem Advances.passage : Passage Advances where
  refl s := ⟨.refl s, rfl, fun _ _ h => h, fun _ => .refl _⟩
  trans h h' := ⟨h.toGrows.trans h'.toGrows, h'.width.trans h.width,
    fun i t ht => h'.locals i t (h.locals i t ht), fun hs =>
      (h.settled hs).trans h.types.size_le (h'.settled (hs.grows h.toGrows))⟩

/-- What entering types does: the table gets more entries, and nothing else changes. -/
def Enters (s s' : CheckState) : Prop :=
  ∃ t, s' = { s with types := t } ∧ s.types.entries.size ≤ t.entries.size ∧ s.types.Appends t ∧
    s.types.SameStructs t

theorem Enters.passage : Passage Enters where
  refl s := ⟨s.types, rfl, le_rfl, .refl _, .refl _⟩
  trans := by
    rintro s _ _ ⟨t, rfl, hs, ha, hd⟩ ⟨t', rfl, hs', ha', hd'⟩
    exact ⟨t', rfl, hs.trans hs', ha.trans hs ha', hd.trans hd'⟩

theorem Enters.extends (h : Enters s₁ s₂) : s₁.types.Extends s₂.types := by
  obtain ⟨t, rfl, hs, ha, -⟩ := h
  exact ha.extends hs

theorem Enters.moves (h : Enters s₁ s₂) : Moves s₁ s₂ := by
  obtain ⟨t, rfl, hs, ha, hd⟩ := h
  refine ⟨⟨ha.extends hs, ha.structSizes, rfl, fun _ _ h _ => h, rfl, fun _ _ => rfl, rfl,
    fun id n hid _ => ?_, hd, fun _ _ => .inl⟩, rfl, fun _ => ha⟩
  have hlt : id < s₁.types.entries.size := by
    by_contra hge
    rw [TypeTable.get_of_size_le (Nat.le_of_not_lt hge)] at hid
    cases hid
  rw [ha.get id hlt, hid]

/-- A way for what is known to move on that entering types is a case of. -/
structure Absorbing (K : CheckState → CheckState → Prop) : Prop extends Passage K where
  enters : ∀ {s s'}, Enters s s' → K s s'

theorem Moves.absorbing : Absorbing Moves := ⟨Moves.passage, Enters.moves⟩

theorem Keeps.absorbed {α : Type} {K : CheckState → CheckState → Prop} {x : Checking α}
    (h : Keeps Enters x) (hK : Absorbing K) : Keeps K x :=
  fun s => (h s).mono fun _ _ he => hK.enters he

theorem Keeps.moves {α : Type} {x : Checking α} (h : Keeps Enters x) : Keeps Moves x :=
  h.absorbed Moves.absorbing

theorem Moves.advances (h : Moves s₁ s₂) : Advances s₁ s₂ :=
  ⟨h.toGrows, by rw [h.locals], fun i t ht => by
    rwa [CheckState.localType, h.locals], h.settled⟩

theorem Keeps.advances {α : Type} {x : Checking α} (h : Keeps Moves x) : Keeps Advances x :=
  fun s => (h s).mono fun _ _ hm => hm.advances

namespace Checking

/-! ## Expressions -/

theorem keeps_valueType (e : Expr) : Keeps Enters (valueType e) := by
  unfold valueType
  split
  · exact .value Enters.passage _
  · exact .refused

theorem keeps_addType {add : TypeTable → TypeId × TypeTable} {d : DataType}
    (h : ∀ t, add t = t.add d) (hd : ∀ k name, d ≠ .struct k name) :
    Keeps Enters (addType add) := by
  intro s
  refine Ends.changes ⟨_, rfl, ?_⟩
  rw [h]
  exact ⟨s.types.size_le_add d, s.types.appends_add d, s.types.sameStructs_add hd⟩

theorem keeps_constant (t : TypeId) : Keeps Enters (addType (·.constant t)) :=
  keeps_addType (d := .constant t) (fun _ => rfl) (by simp)

theorem keeps_stringOf (c : Nat) : Keeps Enters (addType (·.stringOf c)) :=
  keeps_addType (d := .string (some c)) (fun _ => rfl) (by simp)

theorem keeps_fold (e : Expr) : Keeps Enters (fold e) := .reads fun _ => .value Enters.passage _

theorem keeps_simplify (e : Expr) : Keeps Enters (simplify e) :=
  .reads fun _ => .value Enters.passage _

theorem keeps_coerce {e : Expr} {expected : TypeId} {rule : Rule} :
    Keeps Enters (coerce e expected rule) := by
  unfold coerce
  split
  · exact .refused
  · refine .reads fun s => ?_
    dsimp only
    split
    · exact .value Enters.passage _
    · refine .seq Enters.passage (keeps_fold e) fun value => ?_
      split
      · split
        · exact .refused_seq
        · split <;> exact .value Enters.passage _
      · split
        · exact .value Enters.passage _
        · split
          · exact .value Enters.passage _
          · exact .refused

theorem keeps_member {sigs : Signatures} {place : Location} {target : Expr} {field : String} :
    Keeps Enters (member sigs place target field) := by
  unfold member
  refine .seq Enters.passage (keeps_valueType target) fun type => .reads fun s => ?_
  dsimp only
  split
  · exact .refused
  · split
    · split
      · exact .refused
      · split
        · exact .seq Enters.passage (keeps_constant _) fun _ => .value Enters.passage _
        · exact .value Enters.passage _
    · exact .refused_seq

theorem keeps_unary {place : Location} {op : UnaryOp} {operand : Expr} :
    Keeps Enters (unary place op operand) := by
  unfold unary
  refine .seq Enters.passage (keeps_valueType operand) fun type => .reads fun s => ?_
  cases op <;> dsimp only <;> split
  all_goals first
    | exact .value Enters.passage _
    | exact .refused_seq

theorem keeps_stringify {place : Location} {e : Expr} {type : TypeId} :
    Keeps Enters (stringify place e type) := by
  unfold stringify
  refine .reads fun s => ?_
  dsimp only
  split
  · exact .value Enters.passage _
  · split
    · exact .refused
    · refine .seq Enters.passage (keeps_stringOf _) fun target => ?_
      exact .seq Enters.passage keeps_coerce fun _ => .value Enters.passage _

theorem keeps_promote {left right : Expr} {common : TypeId} :
    Keeps Enters (promote left right common) := by
  refine .seq Enters.passage keeps_coerce fun _ => ?_
  exact .seq Enters.passage keeps_coerce fun _ => .value Enters.passage _

theorem keeps_stringSum {place : Location} {left right : Expr} {lt rt : TypeId} :
    Keeps Enters (stringSum place left right lt rt) := by
  unfold stringSum
  refine .seq Enters.passage keeps_stringify fun l => ?_
  refine .seq Enters.passage keeps_stringify fun r => .reads fun s => ?_
  dsimp only
  split
  · exact .seq Enters.passage (keeps_stringOf _) fun _ => .value Enters.passage _
  · exact .refused

theorem keeps_arithmetic {place : Location} {op : BinaryOp} {left right : Expr} {lt rt : TypeId} :
    Keeps Enters (arithmetic place op left right lt rt) := by
  unfold arithmetic
  refine .reads fun s => ?_
  dsimp only
  split
  · split
    · exact .refused_seq
    · exact .seq Enters.passage keeps_promote fun _ => .value Enters.passage _
  · exact .refused

theorem keeps_logic {place : Location} {op : BinaryOp} {left right : Expr} {lt rt : TypeId} :
    Keeps Enters (logic place op left right lt rt) := by
  unfold logic
  refine .reads fun s => ?_
  dsimp only
  split
  · exact .value Enters.passage _
  · split
    · exact .seq Enters.passage keeps_promote fun _ => .value Enters.passage _
    · exact .refused

theorem keeps_comparison {place : Location} {op : BinaryOp} {left right : Expr} {lt rt : TypeId} :
    Keeps Enters (comparison place op left right lt rt) := by
  unfold comparison
  refine .reads fun s => ?_
  dsimp only
  split
  · exact .seq Enters.passage keeps_promote fun _ => .value Enters.passage _
  · split
    · exact .value Enters.passage _
    · exact .refused_seq

theorem keeps_binary {place : Location} {op : BinaryOp} {left right : Expr} :
    Keeps Enters (binary place op left right) := by
  unfold binary
  refine .seq Enters.passage (keeps_valueType _) fun lt => ?_
  refine .seq Enters.passage (keeps_valueType _) fun rt => .reads fun s => ?_
  cases op with
  | add =>
    dsimp only
    split
    · exact keeps_stringSum
    · exact keeps_arithmetic
  | subtract | multiply | divide | mod => exact keeps_arithmetic
  | shl | shr =>
    dsimp only
    split
    · exact .value Enters.passage _
    · exact .refused
  | and | or | xor => exact keeps_logic
  | less | lessEqual | greater | greaterEqual | equal | notEqual => exact keeps_comparison

section Expressions

variable {sigs : Signatures} {constantType : ConstantType} {K : CheckState → CheckState → Prop}

theorem absorbs_declaredType (hK : Absorbing K) (hc : ∀ k, Keeps K (constantType k))
    (d : Declaration) : Keeps K (declaredType sigs constantType d) := by
  cases d with
  | constant index =>
    refine .seq hK.toPassage (hc index) fun t => ?_
    exact .seq hK.toPassage ((keeps_constant t).absorbed hK) fun _ => .value hK.toPassage _
  | localVar index => exact .reads fun _ => .value hK.toPassage _
  | argument index => exact .value hK.toPassage _
  | dataField index => exact .value hK.toPassage _

mutual

theorem absorbs_expr (hK : Absorbing K) (hc : ∀ k, Keeps K (constantType k)) :
    (e : Expr) → Keeps K (expr sigs constantType e)
  | .literal .. => .value hK.toPassage _
  | .name i name decl => by
    have found : ∀ type : Option TypeId, Keeps K (match type with
        | some type => pure (.name { i with type := some type } name decl)
        | none => throw (Rule.cannotResolveSymbol.about i.location name) : Checking Expr) := by
      intro type
      cases type
      · exact .refused
      · exact .value hK.toPassage _
    unfold expr
    dsimp only
    split
    · exact .seq hK.toPassage (absorbs_declaredType hK hc _) found
    · exact .seq hK.toPassage (.value hK.toPassage _) found
  | .member i target field _ => by
    unfold expr
    refine .seq hK.toPassage (absorbs_expr hK hc target) fun target => ?_
    exact .seq hK.toPassage (keeps_member.absorbed hK) fun _ => (keeps_simplify _).absorbed hK
  | .call i function arguments callee => by
    unfold expr
    split
    · exact .refused
    · dsimp only
      split
      · exact .refused_seq
      · exact .seq hK.toPassage (absorbs_exprs hK hc _ arguments) fun _ =>
          (keeps_simplify _).absorbed hK
  | .unary i op operand => by
    unfold expr
    refine .seq hK.toPassage (absorbs_expr hK hc operand) fun operand => ?_
    exact .seq hK.toPassage (keeps_unary.absorbed hK) fun _ => (keeps_simplify _).absorbed hK
  | .binary i op left right => by
    unfold expr
    refine .seq hK.toPassage (absorbs_expr hK hc left) fun left => ?_
    refine .seq hK.toPassage ((keeps_valueType _).absorbed hK) fun _ => ?_
    refine .seq hK.toPassage (absorbs_expr hK hc right) fun right => ?_
    exact .seq hK.toPassage (keeps_binary.absorbed hK) fun _ => (keeps_simplify _).absorbed hK
  | .cast i operand => (keeps_simplify _).absorbed hK
  | .pointer i target temp => (keeps_simplify _).absorbed hK

theorem absorbs_exprs (hK : Absorbing K) (hc : ∀ k, Keeps K (constantType k)) :
    (ps : List TypeId) → (es : List Expr) → Keeps K (exprs sigs constantType ps es)
  | p :: ps, e :: rest => by
    unfold exprs
    refine .seq hK.toPassage (absorbs_expr hK hc e) fun e => ?_
    refine .seq hK.toPassage ((keeps_valueType _).absorbed hK) fun _ => ?_
    refine .seq hK.toPassage (keeps_coerce.absorbed hK) fun e => ?_
    exact .seq hK.toPassage (absorbs_exprs hK hc ps rest) fun _ => .value hK.toPassage _
  | [], es => by
    unfold exprs
    exact .value hK.toPassage _
  | _ :: _, [] => .value hK.toPassage _

end

theorem absorbs_value (hK : Absorbing K) (hc : ∀ k, Keeps K (constantType k)) (e : Expr) :
    Keeps K (value sigs constantType e) := by
  refine .seq hK.toPassage (absorbs_expr hK hc e) fun e => ?_
  exact .seq hK.toPassage ((keeps_valueType e).absorbed hK) fun _ => .value hK.toPassage _

theorem keeps_expr (hc : ∀ k, Keeps Moves (constantType k)) (e : Expr) :
    Keeps Moves (expr sigs constantType e) := absorbs_expr Moves.absorbing hc e

theorem keeps_value (hc : ∀ k, Keeps Moves (constantType k)) (e : Expr) :
    Keeps Moves (value sigs constantType e) := absorbs_value Moves.absorbing hc e

/-! ## Statements -/

/-- A variable gets a type only if it has none. -/
theorem advances_modify (s : CheckState) (index : Nat) (f : Local → Local)
    (hf : ∀ v t, s.locals[index]? = some v → v.type = some t → (f v).type = some t) :
    Advances s { s with locals := s.locals.modify index f } where
  toGrows := ⟨.refl _, rfl, rfl, fun _ _ h _ => h, rfl, fun _ _ => rfl, rfl, fun _ _ h _ => h,
    .refl _, fun _ _ => .inl⟩
  width := by simp
  locals i t ht := by
    obtain ⟨v, hv, hvt⟩ := Option.bind_eq_some_iff.1 ht
    refine Option.bind_eq_some_iff.2 ?_
    by_cases hi : index = i
    · subst hi
      exact ⟨f v, by simp [Array.getElem?_modify, hv], hf v t hv hvt⟩
    · exact ⟨v, by simp [Array.getElem?_modify, hi, hv], hvt⟩
  settled _ := .refl _

theorem keeps_infer {target : Expr} {actual : TypeId} : Keeps Advances (infer target actual) := by
  unfold infer
  split
  · intro s
    refine Ends.modifies (advances_modify s _ _ fun v t _ ht => ?_)
    simp [ht]
  · exact .value Advances.passage _

theorem keeps_target (hc : ∀ k, Keeps Moves (constantType k)) (e : Expr) :
    Keeps Moves (target sigs constantType e) := by
  unfold target
  refine .seq Moves.passage (keeps_value hc e) fun _ => ?_
  dsimp only
  split
  · refine .reads fun s => ?_
    split
    · exact .refused_seq
    · exact .value Moves.passage _
  · exact .refused_seq

theorem keeps_assigned (hc : ∀ k, Keeps Moves (constantType k)) {expected : TypeId} {e : Expr} :
    Keeps Moves (assigned sigs constantType expected e) :=
  .seq Moves.passage (keeps_value hc e) fun _ => keeps_coerce.moves

theorem keeps_condition (hc : ∀ k, Keeps Moves (constantType k)) (e : Expr) :
    Keeps Moves (condition sigs constantType e) := by
  unfold condition
  refine .seq Moves.passage (keeps_value hc e) fun _ => .reads fun s => ?_
  dsimp only
  split
  · exact .value Moves.passage _
  · exact .refused_seq

theorem keeps_var (hc : ∀ k, Keeps Moves (constantType k)) {place : Location} {index : Nat}
    {first : Option Expr} : Keeps Advances (var sigs constantType place index first) := by
  intro s
  unfold var
  refine Ends.reads ?_
  split
  · exact Ends.refused
  next v hv =>
    dsimp only
    split
    · split
      · exact Ends.refused_seq
      · split
        · refine ((keeps_assigned hc).advances s).seq fun _ s₁ h₁ => ?_
          exact Ends.value h₁
        · exact Ends.value (Advances.passage.refl s)
    next hnone =>
      -- The variable still has no type when it gets the type of its first value.
      refine (keeps_value hc _ s).seq fun _ s₁ h₁ => ?_
      refine Ends.reads (Ends.seq (Ends.modifies ?_) fun _ s₂ h₂ =>
        Ends.value (Advances.passage.trans h₁.advances h₂))
      refine advances_modify s₁ _ _ fun w t hw ht => ?_
      rw [h₁.locals, hv] at hw
      cases hw
      rw [hnone] at ht
      cases ht
    · exact Ends.refused

mutual

theorem keeps_stmt (hc : ∀ k, Keeps Moves (constantType k)) {returns : Option TypeId} :
    (t : Stmt) → Keeps Advances (stmt sigs constantType returns t)
  | .var l index first => by
    unfold stmt
    exact .seq Advances.passage (keeps_var hc) fun _ => .value Advances.passage _
  | .assign l first place => by
    unfold stmt
    refine .seq Advances.passage (keeps_value hc first).advances fun _ => ?_
    refine .seq Advances.passage keeps_infer fun _ => ?_
    refine .seq Advances.passage (keeps_target hc place).advances fun _ => ?_
    exact .seq Advances.passage keeps_coerce.moves.advances fun _ => .value Advances.passage _
  | .invoke l call => by
    unfold stmt
    exact .seq Advances.passage (keeps_expr hc call).advances fun _ => .value Advances.passage _
  | .return l result => by
    unfold stmt
    split
    · exact .seq Advances.passage (keeps_assigned hc).advances fun _ =>
        .value Advances.passage _
    · exact .refused
    · exact .refused
    · exact .value Advances.passage _
  | .choose l branches => by
    unfold stmt
    exact .seq Advances.passage (keeps_choices hc branches) fun _ => .value Advances.passage _
  | .count l counter start finish step body temps => by
    unfold stmt
    refine .seq Advances.passage (keeps_value hc start).advances fun _ => ?_
    refine .seq Advances.passage keeps_infer fun _ => ?_
    refine .seq Advances.passage (keeps_target hc counter).advances fun _ => .reads fun s => ?_
    dsimp only
    split
    · refine .seq Advances.passage keeps_coerce.moves.advances fun _ => ?_
      refine .seq Advances.passage (keeps_assigned hc).advances fun _ => ?_
      have rest (step : Option Expr) (f : Option Expr → List Stmt → Stmt) :
          Keeps Advances (do
            let step ← pure step
            let body ← stmts sigs constantType returns body
            pure (f step body)) :=
        .seq Advances.passage (.value Advances.passage step) fun _ =>
          .seq Advances.passage (keeps_stmts hc body) fun _ => .value Advances.passage _
      split
      · exact .seq Advances.passage (keeps_assigned hc).advances fun _ => rest _ _
      · exact rest _ _
    · exact .refused_seq
  | .loop l test body => by
    unfold stmt
    have rest (test : Option Condition) (f : Option Condition → List Stmt → Stmt) :
        Keeps Advances (do
          let test ← pure test
          let body ← stmts sigs constantType returns body
          pure (f test body)) :=
      .seq Advances.passage (.value Advances.passage test) fun _ =>
        .seq Advances.passage (keeps_stmts hc body) fun _ => .value Advances.passage _
    dsimp only
    split
    · exact .seq Advances.passage (keeps_condition hc _).advances fun _ => rest _ _
    · exact rest _ _

theorem keeps_stmts (hc : ∀ k, Keeps Moves (constantType k)) {returns : Option TypeId} :
    (l : List Stmt) → Keeps Advances (stmts sigs constantType returns l)
  | [] => .value Advances.passage _
  | t :: rest => by
    unfold stmts
    refine .seq Advances.passage (keeps_stmt hc t) fun _ => ?_
    exact .seq Advances.passage (keeps_stmts hc rest) fun _ => .value Advances.passage _

theorem keeps_choices (hc : ∀ k, Keeps Moves (constantType k)) {returns : Option TypeId} :
    (b : Branches) → Keeps Advances (choices sigs constantType returns b)
  | .done => .value Advances.passage _
  | .otherwise body => by
    unfold choices
    exact .seq Advances.passage (keeps_stmts hc body) fun _ => .value Advances.passage _
  | .branch test body rest => by
    unfold choices
    refine .seq Advances.passage (keeps_condition hc test).advances fun _ => ?_
    refine .seq Advances.passage (keeps_stmts hc body) fun _ => ?_
    exact .seq Advances.passage (keeps_choices hc rest) fun _ => .value Advances.passage _

end

end Expressions

/-! ## Definitions -/

/-- What resolving lengths does. -/
structure Resolves (s s' : CheckState) : Prop extends Grows s s' where
  locals : s'.locals = s.locals

theorem Resolves.passage : Passage Resolves where
  refl s := ⟨.refl s, rfl⟩
  trans h h' := ⟨h.toGrows.trans h'.toGrows, h'.locals.trans h.locals⟩

theorem resolves_of_moves {α : Type} {x : Checking α} (h : Keeps Moves x) : Keeps Resolves x :=
  fun s => (h s).mono fun _ _ hm => ⟨hm.toGrows, hm.locals⟩

/-- A length that was open while it was evaluated is resolved where it stands. -/
theorem resolves_resolve {s s' : CheckState} {id : TypeId} {n c : Nat}
    (hid : s.types.get id = .pending n) (hn : n ∉ s.openLengths)
    (h : Resolves { s with openLengths := n :: s.openLengths } s') :
    Resolves s { s' with types := s'.types.resolve id (.string (some c))
                         openLengths := s'.openLengths.erase n } where
  types := by
    have hpending : s'.types.get id = .pending n := h.pending id n hid (by simp)
    refine h.types.trans (TypeTable.extends_resolve ?_ (by simp))
    rw [hpending]
    rfl
  structSizes := h.structSizes
  count := h.count
  folded := h.folded
  openConstants := h.openConstants
  held := h.held
  openLengths := by
    have := h.openLengths
    simp [this]
  pending i m hi hm := by
    have hne : id ≠ i := by
      rintro rfl
      obtain rfl : n = m := by simpa using hid.symm.trans hi
      exact hn hm
    have hkept := h.pending i m hi (by simp [hm])
    simpa [TypeTable.resolve, TypeTable.get, Array.getElem?_setIfInBounds_ne hne] using hkept
  structs := h.structs.trans (TypeTable.sameStructs_resolve (by simp))
  fresh := h.fresh
  locals := h.locals

section Definitions

variable {lengths : Array Expr} {constantType : ConstantType}

theorem keeps_resolveLength (hc : ∀ k, Keeps Moves (constantType k)) (id : TypeId) :
    Keeps Resolves (resolveLength lengths constantType id) := by
  intro s
  unfold resolveLength
  refine Ends.reads ?_
  split
  next index hid =>
    split
    · exact Ends.value (Resolves.passage.refl s)
    next length hlength =>
      refine Ends.reads ?_
      dsimp only
      split
      · exact Ends.refused_seq
      next hopen =>
        refine Ends.seq (Ends.modifies (Q := fun _ s₁ =>
          s₁ = { s with openLengths := index :: s.openLengths }) rfl) fun _ s₁ h₁ => ?_
        subst h₁
        refine (resolves_of_moves (keeps_value hc _) _).seq fun _ s₂ h₂ => ?_
        refine (resolves_of_moves (keeps_fold _).moves _).seq fun _ s₃ h₃ => ?_
        refine Ends.seq (Ends.lifts (Q := fun _ s => s = s₃) fun _ _ => rfl) fun c s₄ h₄ => ?_
        subst h₄
        refine Ends.modifies (resolves_resolve hid ?_ (Resolves.passage.trans h₂ h₃))
        simpa using hopen
  · exact Ends.value (Resolves.passage.refl s)

theorem keeps_resolveWithin (hc : ∀ k, Keeps Moves (constantType k)) (bound : Nat) (id : TypeId) :
    Keeps Resolves (resolveWithin lengths constantType bound id) := by
  induction bound generalizing id with
  | zero => exact .value Resolves.passage _
  | succ bound ih =>
    unfold resolveWithin
    refine .reads fun s => ?_
    split
    · exact keeps_resolveLength hc _
    · exact ih _
    · exact ih _
    · exact .value Resolves.passage _

theorem keeps_declaredValue (hc : ∀ k, Keeps Moves (constantType k)) (declared : Option TypeId)
    (e : Expr) (actual : TypeId) :
    Keeps Resolves (declaredValue lengths constantType declared e actual) := by
  unfold declaredValue
  split
  · exact .reads fun _ => .value Resolves.passage _
  · refine .seq Resolves.passage (.reads fun s => keeps_resolveWithin hc _ _) fun _ => ?_
    refine .reads fun s => ?_
    dsimp only
    split
    · exact .value Resolves.passage _
    · exact .seq Resolves.passage (resolves_of_moves keeps_coerce.moves) fun _ =>
        .value Resolves.passage _

/-- A constant that was open while it was checked gets its value. -/
theorem moves_set {s s' : CheckState} {k : Nat} {c c' : Constant} (hc : s.constants[k]? = some c)
    (hf : c.folded.isSome = false) (hk : k ∉ s.openConstants)
    (hc' : c'.type.isSome = true ∧ c'.folded.isSome = true)
    (h : Resolves { s with openConstants := k :: s.openConstants } s') :
    Moves s { s' with constants := s'.constants.setIfInBounds k c'
                      openConstants := s'.openConstants.erase k } where
  types := h.types
  structSizes := h.structSizes
  count := by
    rw [Array.size_setIfInBounds]
    exact h.count
  folded i d hd hdf := by
    have hne : k ≠ i := by
      rintro rfl
      obtain rfl : c = d := Option.some.inj (hc.symm.trans hd)
      rw [hf] at hdf
      cases hdf
    rw [Array.getElem?_setIfInBounds_ne hne]
    exact h.folded i d hd hdf
  openConstants := by
    have := h.openConstants
    simp [this]
  held i hi := by
    have hne : k ≠ i := by
      rintro rfl
      exact hk hi
    rw [Array.getElem?_setIfInBounds_ne hne]
    exact h.held i (by simp [hi])
  openLengths := h.openLengths
  pending := h.pending
  structs := h.structs
  fresh i d hd := by
    by_cases hne : k = i
    · subst hne
      rw [Array.getElem?_setIfInBounds_self] at hd
      obtain ⟨_, rfl⟩ := Option.ite_some_none_eq_some.1 hd
      exact .inr hc'
    · rw [Array.getElem?_setIfInBounds_ne hne] at hd
      exact h.fresh i d hd
  locals := h.locals
  settled hs := by
    have := hs k c hc
    rw [hf] at this
    cases this

/-- **A constant that has been asked for has its type and its value.** -/
theorem ends_constantWithin (bound index : Nat) (s : CheckState) :
    Ends (constantWithin lengths bound index) s fun t s' => Moves s s' ∧
      ∃ c, s'.constants[index]? = some c ∧ c.type = some t ∧ c.folded.isSome = true := by
  induction bound generalizing index s with
  | zero => exact Ends.refused
  | succ bound ih =>
    have hc : ∀ k, Keeps Moves (constantWithin lengths bound k) := fun k s =>
      (ih k s).mono fun _ _ h => h.1
    unfold constantWithin
    refine Ends.reads ?_
    split
    · exact Ends.refused
    next c hcs =>
      dsimp only
      split
      next hf =>
        split
        next t ht => exact Ends.value ⟨Moves.passage.refl s, c, hcs, ht, hf⟩
        next => exact Ends.refused_seq
      next hf =>
        split
        · exact Ends.refused_seq
        next hopen =>
          refine Ends.seq (Ends.modifies (Q := fun _ s₁ =>
            s₁ = { s with openConstants := index :: s.openConstants }) rfl) fun _ s₁ h₁ => ?_
          subst h₁
          refine (resolves_of_moves (keeps_value hc _) _).seq fun _ s₂ h₂ => ?_
          refine (keeps_declaredValue hc _ _ _ _).seq fun _ s₃ h₃ => ?_
          refine (resolves_of_moves (keeps_fold _).moves _).seq fun folded s₄ h₄ => ?_
          have hall := Resolves.passage.trans (Resolves.passage.trans h₂ h₃) h₄
          cases folded with
          | none => exact Ends.refused
          | some v =>
            dsimp only
            refine Ends.seq (Ends.modifies (Q := fun _ s₅ => Moves s s₅ ∧ _) ⟨?_, ?_⟩)
              fun _ s₅ h₅ => Ends.value h₅
            · exact moves_set hcs (by simpa using hf) (by simpa using hopen) ⟨rfl, rfl⟩ hall
            · have hlt : index < s₄.constants.size := by
                have := hall.count
                rw [this]
                exact (Array.getElem?_eq_some_iff.1 hcs).1
              exact ⟨_, Array.getElem?_setIfInBounds_self_of_lt hlt, rfl, rfl⟩

theorem keeps_constantWithin (bound index : Nat) :
    Keeps Moves (constantWithin lengths bound index) :=
  fun s => (ends_constantWithin bound index s).mono fun _ _ h => h.1

end Definitions

end Checking

end ChannelBasic
