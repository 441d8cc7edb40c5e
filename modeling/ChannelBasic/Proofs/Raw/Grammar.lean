import ChannelBasic.Raw.ExprReader

/-!
# Proofs/Raw/Grammar — binding operators reads a grammar

The passes that bind operators shrink a row of items until one operand is left.  What they read is a
grammar: operands, signs before them, `NOT` before these, and six tiers of binary operators, each of
which associates to the left (`Derivable`).  A `Phrase` is a derivation as a tree, and it is `Ordered`
if no operator stands inside the operand of a tighter one.

* `Phrase.foldr_bindUnary`, `Phrase.Ordered.binds`: **a pass binds the operators of its level** that
  an ordered phrase has, and leaves the others.
* `Reduced.unaryPass`, `Reduced.binaryPass`: **whatever the row**, each operand that a pass leaves
  comes from an ordered phrase.

So a row is read exactly if it is derivable, and what is read is the value of its only derivation
(`reduce_iff_derivable`).
-/

namespace ChannelBasic

/-! ## Levels -/

/-- How tightly an operator before an operand binds: signs bind first, `NOT` next. -/
def UnaryOp.level : UnaryOp → Nat
  | .plus | .minus => 1
  | .not => 2

/-- How tightly an operator between operands binds: after all that precede one. -/
def BinaryOp.level (op : BinaryOp) : Nat := op.tier + 3

namespace Raw

/-- The loosest level there is. -/
def loosest : Nat := BinaryOp.tiers + 2

/-- How tightly an item binds; an operand is bound already. -/
def Item.level : Item → Nat
  | .operand _ => 0
  | .unary _ op => op.level
  | .binary _ op => op.level

theorem Item.level_le_loosest (i : Item) : i.level ≤ loosest := by
  cases i with
  | operand e => exact Nat.zero_le _
  | unary l op => cases op <;> simp [level, UnaryOp.level, loosest]
  | binary l op => exact Nat.add_le_add_right (BinaryOp.tier_lt_tiers op) 2

/-- **The grammar of expressions**: the rows that can be read where operators up to a level may
stand.  An operator between operands takes its own level to its left and only tighter ones to its
right. -/
inductive Derivable : Nat → List Item → Prop
  | operand (e : Expr) : Derivable 0 [.operand e]
  | unary (location : Location) (op : UnaryOp) {row : List Item} (h : Derivable op.level row) :
      Derivable op.level (.unary location op :: row)
  | binary (location : Location) (op : BinaryOp) {left right : List Item}
      (hl : Derivable (op.tier + 3) left) (hr : Derivable (op.tier + 2) right) :
      Derivable (op.tier + 3) (left ++ .binary location op :: right)
  | looser {n : Nat} {row : List Item} (h : Derivable n row) : Derivable (n + 1) row

theorem Derivable.mono {m n : Nat} {row : List Item} (h : Derivable m row) (hmn : m ≤ n) :
    Derivable n row := by
  induction hmn with
  | refl => exact h
  | step _ ih => exact .looser ih

/-! ## Phrases -/

/-- Operators over operands, as a tree. -/
inductive Phrase where
  | operand (value : Expr)
  | unary (location : Location) (op : UnaryOp) (inner : Phrase)
  | binary (location : Location) (op : BinaryOp) (left right : Phrase)

namespace Phrase

/-- Leaves and operators, from left to right. -/
def items : Phrase → List Item
  | .operand e => [.operand e]
  | .unary l op inner => .unary l op :: inner.items
  | .binary l op left right => left.items ++ .binary l op :: right.items

/-- The expression that a phrase is. -/
def value : Phrase → Expr
  | .operand e => e
  | .unary l op inner => .unary l op inner.value
  | .binary l op left right => .binary l op left.value right.value

/-- All operators of a phrase bind at least as tightly as a level. -/
def Within (p : Phrase) (n : Nat) : Prop := ∀ i ∈ p.items, i.level ≤ n

/-- **No operator stands where a tighter one wants an operand**: before an operand stand operators of
one level only, the left operand of an operator has none that is looser, and the right one only
tighter ones. -/
def Ordered : Phrase → Prop
  | .operand _ => True
  | .unary _ op inner => inner.Ordered ∧ inner.Within op.level
  | .binary _ op left right =>
    left.Ordered ∧ right.Ordered ∧ left.Within op.level ∧ ∀ i ∈ right.items, i.level < op.level

variable {p q : Phrase} {m n : Nat}

theorem items_ne_nil (p : Phrase) : p.items ≠ [] := by cases p <;> simp [items]

theorem Within.mono (h : p.Within m) (hmn : m ≤ n) : p.Within n :=
  fun i hi => Nat.le_trans (h i hi) hmn

theorem within_loosest (p : Phrase) : p.Within loosest := fun i _ => i.level_le_loosest

theorem within_operand (e : Expr) : (operand e).Within n := by simp [Within, items, Item.level]

theorem within_unary {l : Location} {op : UnaryOp} :
    (unary l op p).Within n ↔ op.level ≤ n ∧ p.Within n := by
  simp [Within, items, Item.level]

theorem within_binary {l : Location} {op : BinaryOp} :
    (binary l op p q).Within n ↔ op.level ≤ n ∧ p.Within n ∧ q.Within n := by
  simp only [Within, items, List.mem_append, List.mem_cons]
  constructor
  · exact fun h => ⟨h _ (.inr (.inl rfl)), fun i hi => h i (.inl hi), fun i hi => h i (.inr (.inr hi))⟩
  · rintro ⟨hop, hp, hq⟩ i (hi | rfl | hi)
    · exact hp i hi
    · exact hop
    · exact hq i hi

/-- A right operand has tighter operators only. -/
theorem ordered_binary {l : Location} {op : BinaryOp} :
    (binary l op p q).Ordered ↔
      p.Ordered ∧ q.Ordered ∧ p.Within (op.tier + 3) ∧ q.Within (op.tier + 2) := by
  simp only [Ordered, Within, BinaryOp.level, Nat.lt_succ_iff]

/-- A row that the grammar derives is that of an ordered phrase. -/
theorem exists_of_derivable {row : List Item} (h : Derivable n row) :
    ∃ p : Phrase, p.items = row ∧ p.Ordered ∧ p.Within n := by
  induction h with
  | operand e => exact ⟨.operand e, rfl, trivial, within_operand e⟩
  | unary l op _ ih =>
    obtain ⟨p, rfl, ho, hw⟩ := ih
    exact ⟨.unary l op p, rfl, ⟨ho, hw⟩, within_unary.2 ⟨Nat.le_refl _, hw⟩⟩
  | binary l op _ _ ihl ihr =>
    obtain ⟨p, rfl, hp, hpw⟩ := ihl
    obtain ⟨q, rfl, hq, hqw⟩ := ihr
    exact ⟨.binary l op p q, rfl, ordered_binary.2 ⟨hp, hq, hpw, hqw⟩,
      within_binary.2 ⟨Nat.le_refl _, hpw, hqw.mono (Nat.le_succ _)⟩⟩
  | looser _ ih =>
    obtain ⟨p, hp, ho, hw⟩ := ih
    exact ⟨p, hp, ho, hw.mono (Nat.le_succ _)⟩

/-- The row of an ordered phrase is derived by the grammar. -/
theorem Ordered.derivable (ho : p.Ordered) (hw : p.Within n) : Derivable n p.items := by
  induction p generalizing n with
  | operand e => exact (Derivable.operand e).mono (Nat.zero_le n)
  | unary l op inner ih => exact (Derivable.unary l op (ih ho.1 ho.2)).mono (within_unary.1 hw).1
  | binary l op left right ihl ihr =>
    obtain ⟨hl, hr, hlw, hrw⟩ := ordered_binary.1 ho
    exact (Derivable.binary l op (ihl hl hlw) (ihr hr hrw)).mono (within_binary.1 hw).1

/-! ## Only one derivation -/

/-- The left operand of one phrase does not reach beyond that of another with the same row: the
operator that it would reach over would have to be both looser and tighter than the next one. -/
theorem eq_nil_of_overlap {l l' : Location} {op op' : BinaryOp} {left right right' : Phrase}
    {first beyond : List Item} (hleft : left.Within op'.level)
    (hright : ∀ i ∈ right.items, i.level < op.level) (h : left.items = first ++ beyond)
    (h' : .binary l op :: right.items = beyond ++ .binary l' op' :: right'.items) : beyond = [] := by
  cases beyond with
  | nil => rfl
  | cons i beyond =>
    obtain ⟨rfl, htail⟩ : .binary l op = i ∧ right.items = beyond ++ .binary l' op' :: right'.items :=
      List.cons.inj h'
    have hle : op.level ≤ op'.level := hleft (.binary l op) (by simp [h])
    have hlt : op'.level < op.level := hright (.binary l' op') (by simp [htail])
    omega

theorem operand_items_ne {e : Expr} {l : Location} {op : BinaryOp} {left right : Phrase} :
    (operand e).items ≠ (binary l op left right).items := by
  intro h
  have hlength := congrArg List.length h
  have hleft := List.length_pos_iff.2 left.items_ne_nil
  simp only [items, List.length_cons, List.length_nil, List.length_append] at hlength
  omega

/-- No operator between operands stands behind one before an operand. -/
theorem not_binary_of_unary {l l' : Location} {op : UnaryOp} {op' : BinaryOp} {inner left right : Phrase}
    (ho : (unary l op inner).Ordered) : (unary l op inner).items ≠ (binary l' op' left right).items := by
  intro h
  have hmem : Item.binary l' op' ∈ (unary l op inner).items := by
    rw [h]
    simp [items]
  have hle : op'.level ≤ op.level := ho.2 (.binary l' op') (by simpa [items] using hmem)
  cases op <;> simp [UnaryOp.level, BinaryOp.level] at hle

/-- **Ordered phrases with the same row are the same.** -/
theorem Ordered.unique (hp : p.Ordered) (hq : q.Ordered) (h : p.items = q.items) : p = q := by
  induction p generalizing q with
  | operand e =>
    cases q with
    | operand e' => simpa [items] using h
    | unary l op inner => cases h
    | binary l op left right =>
      exact absurd h operand_items_ne
  | unary l op inner ih =>
    cases q with
    | operand e => cases h
    | unary l' op' inner' =>
      simp only [items, List.cons.injEq, Item.unary.injEq] at h
      obtain ⟨⟨rfl, rfl⟩, h⟩ := h
      rw [ih hp.1 hq.1 h]
    | binary l' op' left right => exact absurd h (not_binary_of_unary hp)
  | binary l op left right ihl ihr =>
    cases q with
    | operand e =>
      exact absurd h.symm operand_items_ne
    | unary l' op' inner => exact absurd h.symm (not_binary_of_unary hq)
    | binary l' op' left' right' =>
      obtain ⟨hl, hr, hlw, hrw⟩ := hp
      obtain ⟨hl', hr', hlw', hrw'⟩ := hq
      have hleft : left.items = left'.items := by
        obtain ⟨beyond, h₁, h₂⟩ | ⟨beyond, h₁, h₂⟩ := List.append_eq_append_iff.1 h
        · rw [h₁, eq_nil_of_overlap hlw' hrw h₁ h₂, List.append_nil]
        · rw [h₁, eq_nil_of_overlap hlw hrw' h₁ h₂, List.append_nil]
      rw [items, items, hleft, List.append_cancel_left_eq, List.cons.injEq, Item.binary.injEq] at h
      obtain ⟨⟨rfl, rfl⟩, hright⟩ := h
      rw [ihl hl hl' hleft, ihr hr hr' hright]

/-! ## What the passes do to an ordered phrase -/

/-- The row that is left of a phrase when all operators up to a level are bound. -/
def settled (n : Nat) : Phrase → List Item
  | .operand e => [.operand e]
  | .unary l op inner =>
    if op.level ≤ n then [.operand (.unary l op inner.value)] else .unary l op :: inner.settled n
  | .binary l op left right =>
    if op.level ≤ n then [.operand (.binary l op left.value right.value)]
    else left.settled n ++ .binary l op :: right.settled n

theorem settled_zero (p : Phrase) : p.settled 0 = p.items := by
  induction p with
  | operand e => rfl
  | unary l op inner ih => cases op <;> simp [settled, items, UnaryOp.level, ih]
  | binary l op left right ihl ihr => simp [settled, items, BinaryOp.level, ihl, ihr]

theorem settled_of_within (h : p.Within n) : p.settled n = [.operand p.value] := by
  cases p with
  | operand e => rfl
  | unary l op inner => rw [settled, if_pos (within_unary.1 h).1, value]
  | binary l op left right => rw [settled, if_pos (within_binary.1 h).1, value]

/-- **A pass over prefix operators binds those of its level.** -/
theorem foldr_bindUnary {ops : List UnaryOp} (hops : ∀ op, op ∈ ops ↔ op.level = n + 1) (hn : n < 2)
    (ho : p.Ordered) (rest : List Item) :
    (p.settled n).foldr (bindUnary ops) rest = p.settled (n + 1) ++ rest := by
  induction p generalizing rest with
  | operand e => rfl
  | unary l op inner ih =>
    by_cases hlt : op.level ≤ n
    · simp [settled, hlt, Nat.le_succ_of_le hlt, bindUnary]
    · rw [settled, if_neg hlt, List.foldr_cons, ih ho.1]
      by_cases heq : op.level = n + 1
      · have hinner := settled_of_within (heq ▸ ho.2)
        simp [settled, heq, hinner, bindUnary, (hops op).2 heq]
      · have hle : ¬ op.level ≤ n + 1 := by omega
        have hop : op ∉ ops := fun h => heq ((hops op).1 h)
        rw [settled, if_neg hle]
        cases hrow : inner.settled (n + 1) ++ rest with
        | nil => simp [bindUnary, hrow]
        | cons i row => cases i <;> simp [bindUnary, hop, hrow]
  | binary l op left right ihl ihr =>
    have hle : ¬ op.level ≤ n + 1 := by
      unfold BinaryOp.level
      omega
    rw [settled, if_neg (by omega), settled, if_neg hle, List.foldr_append, List.foldr_cons,
      ihr ho.2.1, ihl ho.1]
    simp [bindUnary]

end Phrase

/-- A row that becomes another when the operators of a tier are bound, whatever comes behind it. -/
def Binds (tier : Nat) (row row' : List Item) : Prop :=
  ∃ e chain first e', row = .operand e :: chain ∧ row' = first ++ [.operand e'] ∧
    ∀ rest, binaryFrom tier (.operand e) (chain ++ rest) = first ++ binaryFrom tier (.operand e') rest

namespace Binds

variable {tier : Nat} {row row' next next' : List Item} {l : Location} {op : BinaryOp} {e e' : Expr}

theorem operand (e : Expr) : Binds tier [.operand e] [.operand e] :=
  ⟨e, [], [], e, rfl, rfl, fun _ => rfl⟩

/-- An operator of the tier is bound. -/
theorem join (h : Binds tier row [.operand e]) (hop : op.tier = tier) :
    Binds tier (row ++ [.binary l op, .operand e']) [.operand (.binary l op e e')] := by
  obtain ⟨e₁, chain, first, e₂, rfl, h₂, hbind⟩ := h
  obtain ⟨rfl, rfl⟩ : first = [] ∧ e₂ = e := by
    cases first with
    | nil => simpa using h₂.symm
    | cons i first => simp at h₂
  refine ⟨e₁, chain ++ [.binary l op, .operand e'], [], _, rfl, rfl, fun rest => ?_⟩
  rw [List.append_assoc, hbind]
  simp [binaryFrom, hop]

/-- Any other operator stays between what is bound on both sides of it. -/
theorem skip (h : Binds tier row row') (h' : Binds tier next next') (hop : op.tier ≠ tier) :
    Binds tier (row ++ .binary l op :: next) (row' ++ .binary l op :: next') := by
  obtain ⟨e₁, chain₁, first₁, e₁', rfl, rfl, hbind₁⟩ := h
  obtain ⟨e₂, chain₂, first₂, e₂', rfl, rfl, hbind₂⟩ := h'
  refine ⟨e₁, chain₁ ++ .binary l op :: .operand e₂ :: chain₂,
    first₁ ++ .operand e₁' :: .binary l op :: first₂, e₂', rfl, by simp, fun rest => ?_⟩
  rw [List.append_assoc, hbind₁]
  simp [binaryFrom, hop, hbind₂]

theorem pass (h : Binds tier row row') : binaryPass tier row = row' := by
  obtain ⟨e, chain, first, e', rfl, rfl, hbind⟩ := h
  simpa [binaryPass, binaryFrom] using hbind []

end Binds

namespace Phrase

variable {p : Phrase} {n : Nat}

/-- **A pass over the operators of a tier binds those of its level.** -/
theorem Ordered.binds {tier : Nat} (ho : p.Ordered) :
    Binds tier (p.settled (tier + 2)) (p.settled (tier + 3)) := by
  induction p with
  | operand e => exact .operand e
  | unary l op inner =>
    have hlevel : op.level ≤ 2 := by cases op <;> decide
    rw [settled, if_pos (by omega), settled, if_pos (by omega)]
    exact .operand _
  | binary l op left right ihl ihr =>
    obtain ⟨hl, hr, hlw, hrw⟩ := ordered_binary.1 ho
    obtain hlt | heq | hgt := Nat.lt_trichotomy op.tier tier
    · rw [settled, if_pos (by unfold BinaryOp.level; omega), settled,
        if_pos (by unfold BinaryOp.level; omega)]
      exact .operand _
    · subst heq
      have hleft := ihl hl
      rw [settled_of_within hlw] at hleft
      rw [settled, if_neg (by unfold BinaryOp.level; omega), settled,
        if_pos (by unfold BinaryOp.level; omega), settled_of_within hrw]
      exact hleft.join rfl
    · rw [settled, if_neg (by unfold BinaryOp.level; omega), settled,
        if_neg (by unfold BinaryOp.level; omega)]
      exact (ihl hl).skip (ihr hr) (Nat.ne_of_gt hgt)

theorem foldl_binaryPass (ho : p.Ordered) (tiers : Nat) :
    (List.range tiers).foldl (fun row tier => binaryPass tier row) (p.settled 2) =
      p.settled (tiers + 2) := by
  induction tiers with
  | zero => rfl
  | succ tiers ih => rw [List.range_succ, List.foldl_append, ih, List.foldl_cons, ho.binds.pass,
      List.foldl_nil]

/-- **An ordered phrase is read as what it is.** -/
theorem Ordered.reduce (ho : p.Ordered) (place : Location) :
    reduce place p.items = .ok p.value := by
  have hsigns : unaryPass [.plus, .minus] p.items = p.settled 1 := by
    rw [unaryPass, ← settled_zero, foldr_bindUnary (fun op => ?_) (by omega) ho, List.append_nil]
    cases op <;> simp [UnaryOp.level]
  have hnot : unaryPass [.not] (p.settled 1) = p.settled 2 := by
    rw [unaryPass, foldr_bindUnary (fun op => ?_) (by omega) ho, List.append_nil]
    cases op <;> simp [UnaryOp.level]
  have hall : bindAll p.items = [.operand p.value] := by
    rw [bindAll, hsigns, hnot, foldl_binaryPass ho]
    exact settled_of_within p.within_loosest
  rw [Raw.reduce, hall, single]

end Phrase

/-! ## What the passes make of any row -/

/-- A row in which some ordered phrases, with operators up to a level, have become operands. -/
inductive Reduced (n : Nat) : List Item → List Item → Prop
  | nil : Reduced n [] []
  | phrase {row out : List Item} (p : Phrase) (ho : p.Ordered) (hw : p.Within n)
      (h : Reduced n row out) : Reduced n (p.items ++ row) (.operand p.value :: out)
  | unary {row out : List Item} (location : Location) (op : UnaryOp) (h : Reduced n row out) :
      Reduced n (.unary location op :: row) (.unary location op :: out)
  | binary {row out : List Item} (location : Location) (op : BinaryOp) (h : Reduced n row out) :
      Reduced n (.binary location op :: row) (.binary location op :: out)

namespace Reduced

variable {m n tier : Nat} {row row' out out' : List Item} {l : Location} {e : Expr}

theorem refl (n : Nat) (row : List Item) : Reduced n row row := by
  induction row with
  | nil => exact .nil
  | cons i row ih =>
    cases i with
    | operand e => exact .phrase (.operand e) trivial (Phrase.within_operand e) ih
    | unary l op => exact .unary l op ih
    | binary l op => exact .binary l op ih

theorem mono (h : Reduced m row out) (hmn : m ≤ n) : Reduced n row out := by
  induction h with
  | nil => exact .nil
  | phrase p ho hw _ ih => exact .phrase p ho (hw.mono hmn) ih
  | unary l op _ ih => exact .unary l op ih
  | binary l op _ ih => exact .binary l op ih

theorem append (h : Reduced n row out) (h' : Reduced n row' out') :
    Reduced n (row ++ row') (out ++ out') := by
  induction h with
  | nil => exact h'
  | phrase p ho hw _ ih =>
    rw [List.append_assoc]
    exact .phrase p ho hw ih
  | unary l op _ ih => exact .unary l op ih
  | binary l op _ ih => exact .binary l op ih

/-- An operand that is left comes from a phrase. -/
theorem exists_phrase (h : Reduced n row (.operand e :: out)) :
    ∃ p : Phrase, ∃ row', row = p.items ++ row' ∧ p.value = e ∧ p.Ordered ∧ p.Within n ∧
      Reduced n row' out := by
  cases h with
  | phrase p ho hw h => exact ⟨p, _, rfl, rfl, ho, hw, h⟩

/-- What is left of a row comes from its parts. -/
theorem split {i : Item} (h : Reduced n row (i :: out)) :
    ∃ first rest, row = first ++ rest ∧ Reduced n first [i] ∧ Reduced n rest out := by
  cases h with
  | phrase p ho hw h =>
    refine ⟨p.items, _, rfl, ?_, h⟩
    simpa using Reduced.phrase p ho hw .nil
  | @unary rest _ l op h => exact ⟨[.unary l op], rest, rfl, .unary l op .nil, h⟩
  | @binary rest _ l op h => exact ⟨[.binary l op], rest, rfl, .binary l op .nil, h⟩

/-- A pass over prefix operators makes phrases of its level. -/
theorem unaryPass {ops : List UnaryOp} (hops : ∀ op ∈ ops, op.level = n + 1)
    (h : Reduced n row out) : Reduced (n + 1) row (Raw.unaryPass ops out) := by
  unfold Raw.unaryPass
  induction h with
  | nil => exact .nil
  | phrase p ho hw _ ih => exact .phrase p ho (hw.mono (Nat.le_succ n)) ih
  | binary l op _ ih => exact .binary l op ih
  | @unary row out l op _ ih =>
    rw [List.foldr_cons]
    cases hrow : out.foldr (bindUnary ops) [] with
    | nil => exact .unary l op (hrow ▸ ih)
    | cons i rest =>
      rw [hrow] at ih
      cases i with
      | unary | binary => exact .unary l op ih
      | operand e =>
        unfold bindUnary
        dsimp only
        split
        next hop =>
          have hlevel := hops op (by simpa using hop)
          obtain ⟨p, row', rfl, rfl, ho, hw, h⟩ := ih.exists_phrase
          exact .phrase (.unary l op p) ⟨ho, hlevel ▸ hw⟩
            (Phrase.within_unary.2 ⟨Nat.le_of_eq hlevel, hw⟩) h
        next => exact .unary l op ih

/-- A pass over the operators of a tier makes phrases of its level, from the left. -/
theorem binaryFrom {left : Item} (h : Reduced (tier + 3) row [left])
    (h' : Reduced (tier + 2) row' out) :
    Reduced (tier + 3) (row ++ row') (Raw.binaryFrom tier left out) := by
  fun_induction Raw.binaryFrom tier left out generalizing row row' with
  | case1 left =>
    cases h'
    rwa [List.append_nil]
  | case2 l op r rest e hop ih =>
    subst hop
    obtain ⟨p, _, rfl, rfl, hp, hpw, hnil⟩ := h.exists_phrase
    cases hnil
    obtain _ | _ | _ | ⟨_, _, h'⟩ := h'
    obtain ⟨q, row', rfl, rfl, hq, hqw, h'⟩ := h'.exists_phrase
    have hjoined : Reduced (op.tier + 3) ((Phrase.binary l op p q).items ++ [])
        [.operand (.binary l op p.value q.value)] :=
      .phrase _ (Phrase.ordered_binary.2 ⟨hp, hq, hpw, hqw⟩)
        (Phrase.within_binary.2 ⟨Nat.le_refl _, hpw, hqw.mono (Nat.le_succ _)⟩) .nil
    simpa [Phrase.items] using ih hjoined h'
  | case3 l op r rest e hop ih | case4 left l op r rest hleft ih =>
    obtain _ | _ | _ | ⟨_, _, h'⟩ := h'
    exact h.append (ih (.binary l op .nil) h')
  | case5 left item rest hitem ih =>
    obtain ⟨a, b, rfl, ha, hb⟩ := h'.split
    exact h.append (ih (ha.mono (Nat.le_succ _)) hb)

theorem binaryPass (h : Reduced (tier + 2) row out) :
    Reduced (tier + 3) row (Raw.binaryPass tier out) := by
  cases out with
  | nil => exact h.mono (Nat.le_succ _)
  | cons i out =>
    obtain ⟨first, rest, rfl, hi, h⟩ := h.split
    exact (hi.mono (Nat.le_succ _)).binaryFrom h

theorem foldl_binaryPass (h : Reduced 2 row out) (tiers : Nat) :
    Reduced (tiers + 2) row
      ((List.range tiers).foldl (fun row tier => Raw.binaryPass tier row) out) := by
  induction tiers with
  | zero => exact h
  | succ tiers ih =>
    rw [List.range_succ, List.foldl_append]
    exact ih.binaryPass

theorem bindAll (row : List Item) : Reduced loosest row (Raw.bindAll row) := by
  refine foldl_binaryPass (.unaryPass ?_ (.unaryPass ?_ (.refl 0 row))) BinaryOp.tiers
  · simp [UnaryOp.level]
  · simp [UnaryOp.level]

end Reduced

/-- One operand is read, and nothing else. -/
theorem single_eq_ok {place : Location} {row : List Item} {e : Expr} :
    single place row = .ok e ↔ row = [.operand e] := by
  unfold single
  split <;> simp

/-- **An expression that is read is an ordered phrase.** -/
theorem exists_phrase_of_reduce {place : Location} {row : List Item} {e : Expr}
    (h : reduce place row = .ok e) : ∃ p : Phrase, p.items = row ∧ p.Ordered ∧ p.value = e := by
  have hrow := Reduced.bindAll row
  rw [single_eq_ok.1 h] at hrow
  obtain ⟨p, row', rfl, hp, ho, -, hnil⟩ := hrow.exists_phrase
  cases hnil
  exact ⟨p, (List.append_nil _).symm, ho, hp⟩

/-- **The passes read exactly the rows of the grammar**, and what they read is the value of the only
ordered phrase with that row: leaves and operators stand in it as in the row, prefix operators apply
to what follows them, the left operand of an operator has no looser one in it, and the right operand
only tighter ones. -/
theorem reduce_iff_derivable (place : Location) (row : List Item) :
    ((∃ e, reduce place row = .ok e) ↔ Derivable loosest row) ∧
      ∀ e, reduce place row = .ok e → ∃ p : Phrase, p.items = row ∧ p.Ordered ∧ p.value = e ∧
        ∀ q : Phrase, q.items = row → q.Ordered → q = p := by
  refine ⟨⟨fun ⟨e, h⟩ => ?_, fun h => ?_⟩, fun e h => ?_⟩
  · obtain ⟨p, rfl, ho, -⟩ := exists_phrase_of_reduce h
    exact ho.derivable p.within_loosest
  · obtain ⟨p, rfl, ho, -⟩ := Phrase.exists_of_derivable h
    exact ⟨p.value, ho.reduce place⟩
  · obtain ⟨p, hp, ho, hv⟩ := exists_phrase_of_reduce h
    exact ⟨p, hp, ho, hv, fun q hq hqo => hqo.unique ho (hq.trans hp.symm)⟩

/-- A sign does not stand before `NOT`. -/
example (l : Location) (e : Expr) :
    reduce l [.unary l .minus, .unary l .not, .operand e] =
      .error (Rule.expectedExpression.here l) := rfl

/-- **Tokens are read as an expression exactly if their items are an ordered phrase.** -/
theorem exprWithin_eq_ok_iff {line : Line} {depth : Nat} {place : Location} {tokens : List Token}
    {e : Expr} :
    exprWithin line (depth + 1) place tokens = .ok e ↔ tokens ≠ [] ∧ ∃ p : Phrase,
      items line (exprWithin line depth) none tokens = .ok p.items ∧ p.Ordered ∧ p.value = e := by
  rw [exprWithin]
  cases tokens with
  | nil => simp
  | cons t rest =>
    rw [List.isEmpty_cons, if_neg Bool.false_ne_true]
    constructor
    · intro h
      cases hitems : items line (exprWithin line depth) none (t :: rest) with
      | error d =>
        rw [hitems] at h
        cases h
      | ok row =>
        rw [hitems] at h
        obtain ⟨p, rfl, ho, hv⟩ := exists_phrase_of_reduce h
        exact ⟨List.cons_ne_nil t rest, p, rfl, ho, hv⟩
    · rintro ⟨-, p, hitems, ho, rfl⟩
      rw [hitems]
      exact ho.reduce place

end Raw

end ChannelBasic
