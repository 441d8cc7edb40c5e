import ChannelBasic.Proofs.Execution.Texts
import ChannelBasic.Proofs.Typing.Nodes
import ChannelBasic.Proofs.Typing.Statements

/-!
# Proofs/Typing/Sums — operands of a string sum have room for their texts

A conversion to a string cuts what has no room, and assignments are full of such conversions.
Checking an operator makes no others than those of `stringify`, though: **an operand that is
converted to a string is of a plain type, and the string is as long as the type's text capacity**
(`Expr.Joins`).  This is so of all nodes of checked statements (`Checking.lasts_stmts`).

What is said of a type when it is entered has to be true when all types are known.  `Lasts T` says
of a pass what its results satisfy if the types that it ends with last until `T` is known; so the
types known in between need not be spoken of.
-/

namespace ChannelBasic

/-! ## The property -/

namespace Expr

variable {T types : TypeTable} {constant : Nat → Option Literal} {e e' left right : Expr}

/-- An expression that is converted to a string is of a plain type, for whose texts the string has
room. -/
def KeepsText (T : TypeTable) (e : Expr) : Prop :=
  ∀ i o, e = .cast i o → ∀ t c, i.type = some t → T.shape? t = some (.string c) →
    ∃ u s, o.type? = some u ∧ T.shape? u = some (.scalar s) ∧ c = s.textCapacity

/-- Operands of an operator lose nothing of their texts. -/
def Joins (T : TypeTable) : Expr → Prop
  | .binary _ _ left right => left.KeepsText T ∧ right.KeepsText T
  | _ => True

/-- All nodes of an expression join whole texts, and nothing is converted at its root. -/
structure IsOperand (T : TypeTable) (e : Expr) : Prop where
  root : ∀ i o, e ≠ .cast i o
  nodes : ∀ n ∈ e.nodes, n.Joins T

/-- What an operator makes of an operand: no text is cut in it. -/
def Adapts (T : TypeTable) (e e' : Expr) : Prop :=
  e.IsOperand T → e'.KeepsText T ∧ ∀ n ∈ e'.nodes, n.Joins T

theorem KeepsText.of_root (h : ∀ i o, e ≠ .cast i o) : e.KeepsText T :=
  fun i o he => absurd he (h i o)

theorem Adapts.refl (e : Expr) : e.Adapts T e := fun h => ⟨.of_root h.root, h.nodes⟩

theorem joins_literal (i : Info) (v : Literal) : ∀ n ∈ (literal i v).nodes, n.Joins T := by
  intro n hn
  obtain rfl := List.mem_singleton.1 hn
  trivial

theorem joins_simplified (h : ∀ n ∈ e.nodes, n.Joins T) :
    ∀ n ∈ (e.simplified types constant).nodes, n.Joins T := by
  obtain ⟨he, -⟩ | ⟨v, -, he⟩ := simplified_cases types constant e
  · rwa [he]
  · rw [he]
    exact joins_literal _ v

theorem KeepsText.simplified (h : e.KeepsText T) : (e.simplified types constant).KeepsText T := by
  obtain ⟨he, -⟩ | ⟨v, -, he⟩ := simplified_cases types constant e
  · rwa [he]
  · rw [he]
    exact .of_root (by simp)

/-- Operands that become literals have been whole texts before. -/
theorem IsOperand.simplify (h : e.IsOperand T) : (e.simplify types constant).IsOperand T := by
  have hnodes := h.nodes
  cases e with
  | literal | name => exact h
  | cast i o => exact absurd rfl (h.root i o)
  | member i target field d =>
    obtain ⟨-, hn⟩ := List.forall_mem_cons.1 hnodes
    exact ⟨by simp [Expr.simplify], List.forall_mem_cons.2 ⟨trivial, joins_simplified hn⟩⟩
  | unary i op operand =>
    obtain ⟨-, hn⟩ := List.forall_mem_cons.1 hnodes
    exact ⟨by simp [Expr.simplify], List.forall_mem_cons.2 ⟨trivial, joins_simplified hn⟩⟩
  | pointer i target temp =>
    obtain ⟨-, hn⟩ := List.forall_mem_cons.1 hnodes
    exact ⟨by simp [Expr.simplify], List.forall_mem_cons.2 ⟨trivial, joins_simplified hn⟩⟩
  | binary i op left right =>
    obtain ⟨⟨hl, hr⟩, hn⟩ := List.forall_mem_cons.1 hnodes
    obtain ⟨hnl, hnr⟩ := List.forall_mem_append.1 hn
    exact ⟨by simp [Expr.simplify], List.forall_mem_cons.2 ⟨⟨hl.simplified, hr.simplified⟩,
      List.forall_mem_append.2 ⟨joins_simplified hnl, joins_simplified hnr⟩⟩⟩
  | call i f arguments c =>
    obtain ⟨-, hn⟩ := List.forall_mem_cons.1 hnodes
    refine ⟨by simp [Expr.simplify], List.forall_mem_cons.2 ⟨trivial, fun n hn' => ?_⟩⟩
    obtain ⟨a, ha, hna⟩ := mem_nodesAll.1 hn'
    obtain ⟨b, hb, rfl⟩ := List.mem_map.1 ha
    exact joins_simplified (fun n hnb => hn n (mem_nodesAll.2 ⟨b, hb, hnb⟩)) n hna

end Expr

namespace Checking

/-! ## Results that last -/

/-- Whatever `x` comes to satisfies `P` if the types that are known then last until `T` is known. -/
def Lasts (T : TypeTable) {α : Type} (x : Checking α) (s : CheckState) (P : α → Prop) : Prop :=
  Ends x s fun a s' => s.types.Extends s'.types ∧ (s'.types.Extends T → P a)

namespace Lasts

variable {T : TypeTable} {α β : Type} {x : Checking α} {f : α → Checking β} {s : CheckState}
  {P : α → Prop} {Q : β → Prop}

theorem of_keeps (hx : Keeps Advances x) (h : Ends x s fun a s' => s'.types.Extends T → P a) :
    Lasts T x s P :=
  ((hx s).both h).mono fun _ _ h => ⟨h.1.types, h.2⟩

theorem mono {P' : α → Prop} (h : Lasts T x s P) (hP : ∀ a, P a → P' a) : Lasts T x s P' :=
  Ends.mono h fun a _ h => ⟨h.1, fun hT => hP a (h.2 hT)⟩

/-- What the first part satisfies may be used by what is said of the second. -/
theorem seq (hx : Lasts T x s P) (hf : ∀ a s₁, s.types.Extends s₁.types →
    Lasts T (f a) s₁ fun b => P a → Q b) : Lasts T (x >>= f) s Q :=
  Ends.seq hx fun a s₁ h => Ends.mono (hf a s₁ h.1) fun _ _ h' =>
    ⟨h.1.trans h'.1, fun hT => h'.2 hT (h.2 (h'.1.trans hT))⟩

theorem after (hx : Keeps Advances x) (hf : ∀ a s₁, s.types.Extends s₁.types →
    Lasts T (f a) s₁ Q) : Lasts T (x >>= f) s Q :=
  seq (P := fun _ => True) (of_keeps hx fun _ _ _ _ => trivial)
    fun a s₁ h => (hf a s₁ h).mono fun _ hQ _ => hQ

theorem value {a : α} (h : P a) : Lasts T (pure a) s P := Ends.value ⟨.refl _, fun _ => h⟩

theorem value_seq {a : α} (h : Lasts T (f a) s Q) : Lasts T (pure a >>= f) s Q := Ends.value_seq h

theorem reads {g : CheckState → Checking β} (h : Lasts T (g s) s Q) : Lasts T (get >>= g) s Q :=
  Ends.reads h

theorem refused {d : Diagnostic} : Lasts T (throw d) s P := Ends.refused

theorem refused_seq {d : Diagnostic} : Lasts T (throw d >>= f) s Q := Ends.refused_seq

end Lasts

open ChannelBasic.Expr (Adapts IsOperand KeepsText Joins)

variable {T : TypeTable} {s : CheckState} {e left right : Expr} {place : Location}
  {op : BinaryOp} {lt rt : TypeId}

/-! ## Operators -/

/-- What `coerce` can make of an expression. -/
theorem coerce_cases (e : Expr) (expected : TypeId) (rule : Rule) (s : CheckState) :
    Ends (coerce e expected rule) s fun e' s' => s' = s ∧ (e' = e ∨ (∃ i, e' = .pointer i e none) ∨
      (∃ i v, e' = .literal i v) ∨ e' = .cast ⟨e.location, some (s.types.base expected)⟩ e) := by
  unfold coerce
  split
  · exact Ends.refused
  · refine Ends.reads ?_
    dsimp only
    split
    · exact Ends.value ⟨rfl, .inl rfl⟩
    · refine Ends.seq (Ends.reads (Ends.value (Q := fun _ s' => s' = s) rfl)) fun value s₁ h₁ => ?_
      subst h₁
      split
      · split
        · exact Ends.refused_seq
        · split
          · exact Ends.value ⟨rfl, .inl rfl⟩
          · exact Ends.value ⟨rfl, .inr (.inl ⟨_, rfl⟩)⟩
      · split
        · exact Ends.value ⟨rfl, .inr (.inr (.inl ⟨_, _, rfl⟩))⟩
        · split
          · exact Ends.value ⟨rfl, .inr (.inr (.inr rfl))⟩
          · exact Ends.refused

/-- What is coerced joins what it joined before. -/
theorem lasts_coerce {expected : TypeId} {rule : Rule} : Lasts T (coerce e expected rule) s
    fun e' => (∀ n ∈ e.nodes, n.Joins T) → ∀ n ∈ e'.nodes, n.Joins T := by
  refine .of_keeps keeps_coerce.moves.advances ((coerce_cases e expected rule s).mono ?_)
  rintro e' s' ⟨-, rfl | ⟨i, rfl⟩ | ⟨i, v, rfl⟩ | rfl⟩ - h
  · exact h
  · exact List.forall_mem_cons.2 ⟨trivial, h⟩
  · exact Expr.joins_literal i v
  · exact List.forall_mem_cons.2 ⟨trivial, h⟩

/-- An operand adapts to a type if a conversion to the type keeps its text. -/
theorem adapts_coerce {expected : TypeId} {rule : Rule}
    (h : s.types.Extends T → ∀ c, T.shape? (s.types.base expected) = some (.string c) →
      ∃ u x, e.type? = some u ∧ T.shape? u = some (.scalar x) ∧ c = x.textCapacity) :
    Lasts T (coerce e expected rule) s (e.Adapts T) := by
  have hcases := (coerce_cases e expected rule s).both (lasts_coerce (T := T))
  refine Ends.mono hcases ?_
  rintro e' s' ⟨⟨rfl, he'⟩, hE, hnodes⟩
  refine ⟨hE, fun hT he => ⟨?_, hnodes hT he.nodes⟩⟩
  obtain rfl | ⟨i, rfl⟩ | ⟨i, v, rfl⟩ | rfl := he'
  · exact .of_root he.root
  · exact .of_root (by simp)
  · exact .of_root (by simp)
  · intro i o hcast t c ht hσ
    obtain ⟨rfl, rfl⟩ := Expr.cast.inj hcast
    obtain rfl := Option.some.inj ht
    exact h hT c hσ

/-- A conversion to a number makes no text. -/
theorem adapts_number {expected : TypeId} {rule : Rule} {x : Scalar}
    (hσ : s.types.shape? expected = some (.scalar x)) :
    Lasts T (coerce e expected rule) s (e.Adapts T) := by
  refine adapts_coerce fun hT c hc => ?_
  rw [hT.shape? (TypeTable.shape?_base hσ)] at hc
  cases hc

/-- **An operand of a string sum becomes a string with room for its text.** -/
theorem adapts_stringify (hB : s.types.Builtin) {type : TypeId} (ht : e.type? = some type) :
    Lasts T (stringify place e type) s fun r => e.Adapts T r.1 := by
  unfold stringify
  refine .reads ?_
  dsimp only
  split
  · exact .value (.refl e)
  · split
    · exact .refused
    next capacity hcapacity =>
      obtain ⟨x, hx, rfl⟩ := hB.exists_scalar hcapacity
      have hstring : Ends (addType (·.stringOf x.textCapacity)) s fun t s' =>
          s.types.Extends s'.types ∧ s'.types.shape? t = some (.string x.textCapacity) :=
        ((keeps_stringOf _ s).both (Ends.changes (s.types.shape?_stringOf _))).mono
          fun _ _ h => ⟨h.1.extends, h.2⟩
      refine Ends.seq hstring fun target s₁ h₁ => ?_
      obtain ⟨hE, hσ⟩ := h₁
      have hcoerce : Lasts T (coerce e target .incompatibleTypes) s₁ (e.Adapts T) := by
        refine adapts_coerce fun hT c hc => ⟨type, x, ht, (hE.trans hT).shape? hx, ?_⟩
        rw [hT.shape? (TypeTable.shape?_base hσ)] at hc
        obtain rfl : x.textCapacity = c := by simpa using hc
        rfl
      refine Ends.seq hcoerce fun e' s₂ h₂ => Ends.value ⟨hE.trans h₂.1, h₂.2⟩

/-- Both operands of an operator adapt to it. -/
abbrev Adapted (T : TypeTable) (left right : Expr) (r : Expr × Expr × TypeId) : Prop :=
  left.Adapts T r.1 ∧ right.Adapts T r.2.1

theorem adapts_stringSum (hB : s.types.Builtin) (hlt : left.type? = some lt)
    (hrt : right.type? = some rt) :
    Lasts T (stringSum place left right lt rt) s (Adapted T left right) := by
  unfold stringSum
  refine (adapts_stringify hB hlt).seq fun l s₁ hE => ?_
  refine (adapts_stringify (hB.extends hE) hrt).seq fun r s₂ _ => .reads ?_
  dsimp only
  split
  · refine .after (keeps_stringOf _).moves.advances fun t s₃ _ => .value fun hr hl => ⟨hl, hr⟩
  · exact .refused

theorem adapts_promote {common : TypeId} {x : Scalar}
    (hσ : s.types.shape? common = some (.scalar x)) :
    Lasts T (promote left right common) s fun r => left.Adapts T r.1 ∧ right.Adapts T r.2 := by
  unfold promote
  refine (adapts_number hσ).seq fun l s₁ hE => ?_
  exact (adapts_number (hE.shape? hσ)).seq fun r s₂ _ => .value fun hr hl => ⟨hl, hr⟩

theorem adapts_promoted {common result : TypeId} {x : Scalar}
    (hσ : s.types.shape? common = some (.scalar x)) :
    Lasts T (do
      let (left, right) ← promote left right common
      return (left, right, result) : Checking (Expr × Expr × TypeId)) s (Adapted T left right) :=
  (adapts_promote hσ).seq fun _ _ _ => .value id

theorem adapts_arithmetic (hB : s.types.Builtin) :
    Lasts T (arithmetic place op left right lt rt) s (Adapted T left right) := by
  unfold arithmetic
  refine .reads ?_
  dsimp only
  split
  next common hcommon =>
    obtain ⟨-, -, u, -, -, -, hu, -⟩ := shape?_of_commonType? hB hcommon
    split
    · exact .refused_seq
    · exact adapts_promoted hu
  next => exact .refused

/-- The type that two numbers are promoted to is a number's. -/
theorem exists_scalar_commonType (hB : s.types.Builtin) (lt rt : TypeId) (x : Scalar) : ∃ u,
    s.types.shape? ((commonType? s.types lt rt).getD (TypeTable.scalarId x)) =
      some (.scalar u) := by
  cases hcommon : commonType? s.types lt rt with
  | none => exact ⟨x, hB.shape? x⟩
  | some common =>
    obtain ⟨-, -, u, -, -, -, hu, -⟩ := shape?_of_commonType? hB hcommon
    exact ⟨u, hu⟩

theorem adapts_logic (hB : s.types.Builtin) :
    Lasts T (logic place op left right lt rt) s (Adapted T left right) := by
  obtain ⟨u, hu⟩ := exists_scalar_commonType hB lt rt .long
  unfold logic
  refine .reads ?_
  dsimp only
  split
  · exact .value ⟨.refl left, .refl right⟩
  · split
    · exact adapts_promoted hu
    · exact .refused

theorem adapts_comparison (hB : s.types.Builtin) :
    Lasts T (comparison place op left right lt rt) s (Adapted T left right) := by
  obtain ⟨u, hu⟩ := exists_scalar_commonType hB lt rt .real
  unfold comparison
  refine .reads ?_
  dsimp only
  split
  · exact adapts_promoted hu
  · split
    · exact .value ⟨.refl left, .refl right⟩
    · exact .refused_seq

/-- **An operator cuts no text of its operands.** -/
theorem adapts_binary (hB : s.types.Builtin) :
    Lasts T (binary place op left right) s (Adapted T left right) := by
  unfold binary
  refine (ends_valueType left s).seq fun lt s₁ h₁ => ?_
  obtain ⟨rfl, hlt⟩ := h₁
  refine (ends_valueType right s₁).seq fun rt s₂ h₂ => ?_
  obtain ⟨rfl, hrt⟩ := h₂
  refine Lasts.reads ?_
  cases op with
  | add =>
    dsimp only
    split
    · exact adapts_stringSum hB hlt hrt
    · exact adapts_arithmetic hB
  | subtract | multiply | divide | mod => exact adapts_arithmetic hB
  | shl | shr =>
    dsimp only
    split
    · exact .value ⟨.refl left, .refl right⟩
    · exact .refused
  | and | or | xor => exact adapts_logic hB
  | less | lessEqual | greater | greaterEqual | equal | notEqual => exact adapts_comparison hB

/-! ## Expressions -/

variable {sigs : Signatures} {constantType : ConstantType} {visible : Nat → Bool}

theorem lasts_simplify : Lasts T (simplify e) s fun e' => e.IsOperand T → e'.IsOperand T := by
  unfold simplify
  exact .reads (.value fun h => h.simplify)

mutual

/-- **A checked expression joins whole texts**, and is not converted itself. -/
theorem lasts_expr (hc : ∀ k, Keeps Moves (constantType k)) : (e : Expr) → (s : CheckState) →
    s.types.Builtin → e.Plain s.types visible →
      Lasts T (expr sigs constantType e) s (IsOperand T)
  | .literal i v, s, _, _ => .value ⟨by simp, Expr.joins_literal i v⟩
  | .name i name none, s, _, _ => by
    unfold expr
    exact .value_seq .refused
  | .name i name (some d), s, _, _ => by
    unfold expr
    refine .after (absorbs_declaredType Moves.absorbing hc d).advances fun t s₁ _ => ?_
    cases t with
    | none => exact .refused
    | some u =>
      refine .value ⟨by simp, fun n hn => ?_⟩
      obtain rfl := List.mem_singleton.1 hn
      trivial
  | .member i target field r, s, hB, hp => by
    unfold expr
    refine (lasts_expr hc target s hB hp).seq fun target s₁ _ => ?_
    refine .after keeps_member.moves.advances fun r s₂ _ => lasts_simplify.mono fun e' h ht => ?_
    exact h ⟨by simp, List.forall_mem_cons.2 ⟨trivial, ht.nodes⟩⟩
  | .call i function arguments callee, s, hB, ⟨_, hp⟩ => by
    unfold expr
    split
    · exact .refused
    next f _ =>
      dsimp only
      split
      · exact .refused_seq
      · refine (lasts_exprs hc f.parameters arguments s hB hp).seq fun es s₁ _ => ?_
        refine lasts_simplify.mono fun e' h hes => ?_
        exact h ⟨by simp, List.forall_mem_cons.2 ⟨trivial, hes⟩⟩
  | .unary i op operand, s, hB, hp => by
    unfold expr
    refine (lasts_expr hc operand s hB hp).seq fun operand s₁ _ => ?_
    refine .after keeps_unary.moves.advances fun t s₂ _ => lasts_simplify.mono fun e' h ho => ?_
    exact h ⟨by simp, List.forall_mem_cons.2 ⟨trivial, ho.nodes⟩⟩
  | .binary i op left right, s, hB, ⟨hpl, hpr⟩ => by
    unfold expr
    refine (lasts_expr hc left s hB hpl).seq fun left s₁ hE₁ => ?_
    refine .after (keeps_valueType left).moves.advances fun _ s₂ hE₂ => ?_
    have hE₂ := hE₁.trans hE₂
    refine (lasts_expr hc right s₂ (hB.extends hE₂) (hpr.extends hE₂)).seq fun right s₃ hE₃ => ?_
    refine (adapts_binary (hB.extends (hE₂.trans hE₃))).seq fun r s₄ _ => ?_
    refine lasts_simplify.mono fun e' h hr hright hleft => ?_
    obtain ⟨hkl, hnl⟩ := hr.1 hleft
    obtain ⟨hkr, hnr⟩ := hr.2 hright
    exact h ⟨by simp, List.forall_mem_cons.2 ⟨⟨hkl, hkr⟩, List.forall_mem_append.2 ⟨hnl, hnr⟩⟩⟩

theorem lasts_exprs (hc : ∀ k, Keeps Moves (constantType k)) : (ps : List TypeId) →
    (es : List Expr) → (s : CheckState) → s.types.Builtin → Expr.PlainAll s.types visible es →
      Lasts T (exprs sigs constantType ps es) s fun es' => ∀ n ∈ Expr.nodesAll es', n.Joins T
  | p :: ps, e :: rest, s, hB, ⟨hp, hrest⟩ => by
    unfold exprs
    refine (lasts_expr hc e s hB hp).seq fun e s₁ hE₁ => ?_
    refine .after (keeps_valueType e).moves.advances fun _ s₂ hE₂ => ?_
    refine lasts_coerce.seq fun e' s₃ hE₃ => ?_
    have hE := hE₁.trans (hE₂.trans hE₃)
    refine (lasts_exprs hc ps rest s₃ (hB.extends hE) (hrest.extends hE)).seq fun es s₄ _ => ?_
    exact .value fun hes he' he => List.forall_mem_append.2 ⟨he' he.nodes, hes⟩
  | [], es, s, _, _ => by
    unfold exprs
    exact .value fun _ hn => nomatch hn
  | _ :: _, [], s, _, _ => .value fun _ hn => nomatch hn

end

theorem lasts_value (hc : ∀ k, Keeps Moves (constantType k)) (hB : s.types.Builtin)
    (hp : e.Plain s.types visible) :
    Lasts T (value sigs constantType e) s fun r => r.1.IsOperand T := by
  unfold value
  refine (lasts_expr hc e s hB hp).seq fun e' s₁ _ => ?_
  exact .after (keeps_valueType e').moves.advances fun t s₂ _ => .value id

theorem lasts_target (hc : ∀ k, Keeps Moves (constantType k)) (hB : s.types.Builtin)
    (hp : e.Plain s.types visible) :
    Lasts T (target sigs constantType e) s fun r => r.1.IsOperand T := by
  unfold target
  refine (lasts_value hc hB hp).seq fun r s₁ _ => ?_
  dsimp only
  split
  · refine .reads ?_
    split
    · exact .refused_seq
    · exact .value id
  · exact .refused_seq

theorem lasts_assigned (hc : ∀ k, Keeps Moves (constantType k)) (hB : s.types.Builtin)
    (hp : e.Plain s.types visible) {expected : TypeId} :
    Lasts T (assigned sigs constantType expected e) s fun e' => ∀ n ∈ e'.nodes, n.Joins T := by
  unfold assigned
  exact (lasts_value hc hB hp).seq fun r s₁ _ => lasts_coerce.mono fun e' h hr => h hr.nodes

theorem lasts_condition (hc : ∀ k, Keeps Moves (constantType k)) (hB : s.types.Builtin)
    (hp : e.Plain s.types visible) :
    Lasts T (condition sigs constantType e) s fun e' => ∀ n ∈ e'.nodes, n.Joins T := by
  unfold condition
  refine (lasts_value hc hB hp).seq fun r s₁ _ => .reads ?_
  dsimp only
  split
  · exact .value fun hr => hr.nodes
  · exact .refused_seq

/-! ## Statements -/

theorem lasts_var (hc : ∀ k, Keeps Moves (constantType k)) (hB : s.types.Builtin) {index : Nat}
    {first : Option Expr} (hp : ∀ e, first = some e → e.Plain s.types visible) :
    Lasts T (var sigs constantType place index first) s
      fun r => ∀ n ∈ Expr.nodesOf r, n.Joins T := by
  refine .of_keeps (keeps_var hc) ?_
  unfold var
  refine Ends.reads ?_
  split
  · exact Ends.refused
  · dsimp only
    split
    · split
      · exact Ends.refused_seq
      · split
        next e =>
          exact Ends.seq (lasts_assigned hc hB (hp e rfl)) fun e' s₁ h₁ => Ends.value h₁.2
        next => exact Ends.value fun _ _ hn => (List.not_mem_nil hn).elim
    next e _ =>
      refine Ends.seq (lasts_value (T := T) hc hB (hp e rfl)) fun r s₁ h₁ => Ends.reads ?_
      refine Ends.seq (Ends.modifies (Q := fun _ s₂ => s₂.types = s₁.types) rfl) fun _ s₂ h₂ => ?_
      exact Ends.value fun hT => (h₁.2 (h₂ ▸ hT)).nodes
    · exact Ends.refused

variable {returns : Option TypeId}

mutual

/-- **A checked statement joins whole texts.** -/
theorem lasts_stmt (hc : ∀ k, Keeps Moves (constantType k)) : (t : Stmt) → (s : CheckState) →
    s.types.Builtin → t.Plain s.types visible →
      Lasts T (stmt sigs constantType returns t) s fun t' => ∀ n ∈ t'.nodes, n.Joins T
  | .var l index first, s, hB, hp => by
    unfold stmt
    exact (lasts_var hc hB hp).seq fun r s₁ _ => .value id
  | .assign l first place, s, hB, ⟨hpf, hpp⟩ => by
    unfold stmt
    refine (lasts_value hc hB hpf).seq fun r s₁ hE₁ => .after keeps_infer fun _ s₂ hE₂ => ?_
    have hE := hE₁.trans hE₂
    refine (lasts_target hc (hB.extends hE) (hpp.extends hE)).seq fun p s₃ _ => ?_
    refine lasts_coerce.seq fun e s₄ _ => .value fun he hp' hr => ?_
    exact List.forall_mem_append.2 ⟨he hr.nodes, hp'.nodes⟩
  | .invoke l call, s, hB, hp => by
    unfold stmt
    exact (lasts_expr hc call s hB hp).seq fun e s₁ _ => .value fun he => he.nodes
  | .return l result, s, hB, hp => by
    unfold stmt
    split
    next e => exact (lasts_assigned hc hB (hp e rfl)).seq fun e' s₁ _ => .value id
    · exact .refused
    · exact .refused
    · exact .value fun _ hn => nomatch hn
  | .choose l branches, s, hB, hp => by
    unfold stmt
    exact (lasts_choices hc branches s hB hp).seq fun b s₁ _ => .value id
  | .count l counter start finish step body temps, s, hB, ⟨⟨hpc, hps, hpf, hpstep⟩, hpb⟩ => by
    unfold stmt
    refine (lasts_value hc hB hps).seq fun r s₁ hE₁ => .after keeps_infer fun _ s₂ hE₂ => ?_
    have hE₂ := hE₁.trans hE₂
    refine (lasts_target hc (hB.extends hE₂) (hpc.extends hE₂)).seq fun c s₃ hE₃ => .reads ?_
    have hE₃ := hE₂.trans hE₃
    dsimp only
    split
    · refine lasts_coerce.seq fun start' s₄ hE₄ => ?_
      have hE₄ := hE₃.trans hE₄
      refine (lasts_assigned hc (hB.extends hE₄) (hpf.extends hE₄)).seq fun finish' s₅ hE₅ => ?_
      have hE₅ := hE₄.trans hE₅
      -- The step may be missing; either way the body follows.
      have rest (s₆ : CheckState) (hE₆ : s₅.types.Extends s₆.types) (step' : Option Expr) :
          Lasts T (do
            let step ← pure step'
            let body ← stmts sigs constantType returns body
            pure (Stmt.count l c.1 start' finish' step body temps)) s₆ fun t' =>
              (∀ n ∈ Expr.nodesOf step', n.Joins T) → (∀ n ∈ finish'.nodes, n.Joins T) →
                ((∀ n ∈ r.1.nodes, n.Joins T) → ∀ n ∈ start'.nodes, n.Joins T) →
                  c.1.IsOperand T → r.1.IsOperand T → ∀ n ∈ t'.nodes, n.Joins T := by
        have hE := hE₅.trans hE₆
        refine .value_seq ((lasts_stmts hc body s₆ (hB.extends hE) (hpb.extends hE)).seq
          fun body' s₇ _ => .value fun hb hstep hf hs hc' hr => ?_)
        simp only [Stmt.nodes, List.forall_mem_append]
        exact ⟨⟨⟨⟨hc'.nodes, hs hr.nodes⟩, hf⟩, hstep⟩, hb⟩
      split
      next e =>
        refine (lasts_assigned hc (hB.extends hE₅) ((hpstep e rfl).extends hE₅)).seq
          fun e' s₆ hE₆ => (rest s₆ hE₆ (some e')).mono fun _ h => h
      next => exact (rest s₅ (.refl _) none).mono fun _ h => h fun _ hn => nomatch hn
    · exact .refused_seq
  | .loop l test body, s, hB, ⟨hpt, hpb⟩ => by
    unfold stmt
    have rest (s₁ : CheckState) (hE : s.types.Extends s₁.types) (test' : Option Condition) :
        Lasts T (do
          let test ← pure test'
          let body ← stmts sigs constantType returns body
          pure (Stmt.loop l test body)) s₁ fun t' =>
            (∀ n ∈ Expr.nodesOf (test'.map (·.value)), n.Joins T) →
              ∀ n ∈ t'.nodes, n.Joins T :=
      .value_seq ((lasts_stmts hc body s₁ (hB.extends hE) (hpb.extends hE)).seq
        fun body' s₂ _ => .value fun hb ht => List.forall_mem_append.2 ⟨ht, hb⟩)
    dsimp only
    split
    next c =>
      refine (lasts_condition hc hB (hpt c rfl)).seq fun e s₁ hE => ?_
      exact rest s₁ hE (some { c with value := e })
    next => exact (rest s (.refl _) none).mono fun _ h => h fun _ hn => nomatch hn

/-- **Checked statements join whole texts.** -/
theorem lasts_stmts (hc : ∀ k, Keeps Moves (constantType k)) : (l : List Stmt) →
    (s : CheckState) → s.types.Builtin → Stmt.PlainAll s.types visible l →
      Lasts T (stmts sigs constantType returns l) s
        fun l' => ∀ n ∈ Stmt.nodesAll l', n.Joins T
  | [], s, _, _ => .value fun _ hn => nomatch hn
  | t :: rest, s, hB, ⟨hpt, hpr⟩ => by
    unfold stmts
    refine (lasts_stmt hc t s hB hpt).seq fun t' s₁ hE => ?_
    refine (lasts_stmts hc rest s₁ (hB.extends hE) (hpr.extends hE)).seq fun rest' s₂ _ => ?_
    exact .value fun hr ht => List.forall_mem_append.2 ⟨ht, hr⟩

theorem lasts_choices (hc : ∀ k, Keeps Moves (constantType k)) : (b : Branches) →
    (s : CheckState) → s.types.Builtin → b.Plain s.types visible →
      Lasts T (choices sigs constantType returns b) s fun b' => ∀ n ∈ b'.nodes, n.Joins T
  | .done, s, _, _ => .value fun _ hn => nomatch hn
  | .otherwise body, s, hB, hp => by
    unfold choices
    exact (lasts_stmts hc body s hB hp).seq fun body' s₁ _ => .value id
  | .branch test body rest, s, hB, ⟨hpt, hpb, hpr⟩ => by
    unfold choices
    refine (lasts_condition hc hB hpt).seq fun test' s₁ hE₁ => ?_
    refine (lasts_stmts hc body s₁ (hB.extends hE₁) (hpb.extends hE₁)).seq fun body' s₂ hE₂ => ?_
    have hE := hE₁.trans hE₂
    refine (lasts_choices hc rest s₂ (hB.extends hE) (hpr.extends hE)).seq fun rest' s₃ _ => ?_
    refine .value fun hr hb ht => ?_
    simp only [Branches.nodes, List.forall_mem_append]
    exact ⟨⟨ht, hb⟩, hr⟩

end

end Checking

end ChannelBasic
