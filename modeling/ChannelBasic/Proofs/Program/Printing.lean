import ChannelBasic.Program.Printer
import ChannelBasic.Proofs.Program.Identifiers
import ChannelBasic.Proofs.Raw.Grammar
import ChannelBasic.Proofs.Text.Numbers
import ChannelBasic.Proofs.Token.Words
import ChannelBasic.Proofs.Typing.Nodes

/-!
# Proofs/Program/Printing — a printed expression is read back

`Expr.tokens` are the tokens that the text of an expression is meant to have, and `Expr.written` is
the expression that they are meant to be read as: casts and pointers are not written, and a negative
number is the minus of a positive one.

* `Expr.Legible.spells`: **the text spells the tokens**, since no word runs into the next one.
* `Expr.Legible.reads`: **the tokens are read as what is written**.  No operator stands beside another
  one without parentheses between them, so no precedence is needed.
* `Program.read_render_of_load`: **so is every expression of an analysed program**, unless it has a
  number whose absolute value is none.
-/

namespace ChannelBasic

open Lexer

/-! ## What is written -/

/-- The word for an operator before its operand. -/
def UnaryOp.word : UnaryOp → Lexeme
  | .plus => .symbol .plus
  | .minus => .symbol .minus
  | .not => .keyword .NOT

/-- The word for an operator between operands. -/
def BinaryOp.word : BinaryOp → Lexeme
  | .multiply => .symbol .times
  | .divide => .symbol .over
  | .mod => .keyword .MOD
  | .add => .symbol .plus
  | .subtract => .symbol .minus
  | .shl => .keyword .SHL
  | .shr => .keyword .SHR
  | .and => .keyword .AND
  | .or => .keyword .OR
  | .xor => .keyword .XOR
  | .less => .symbol .less
  | .lessEqual => .symbol .lessEqual
  | .greater => .symbol .greater
  | .greaterEqual => .symbol .greaterEqual
  | .equal => .symbol .equal
  | .notEqual => .symbol .notEqual

namespace Literal

/-- Whether a literal is written with a sign. -/
def isNegative : Literal → Bool
  | .integral n => n < 0
  | .real x => x.sign < 0
  | _ => false

/-- The word for a literal, its sign aside. -/
def word : Literal → Lexeme
  | .boolean true => .keyword .TRUE
  | .boolean false => .keyword .FALSE
  | .integral n => .integer (String.ofList (Decimal.digits n.toInt.natAbs))
  | .real x => .real (String.ofList (x.wholeChars ++ '.' :: x.placeChars))
  | .text s => .text s

/-- What the word for a literal is read as: the literal without its sign. -/
def magnitude : Literal → Raw.Expr
  | .boolean b => .boolean default b
  | .integral n => .integer default (if n < 0 then -n else n)
  | .real x => .real default (if x.sign < 0 then x.neg else x)
  | .text s => .text default s

/-- The tokens of a literal. -/
def tokens (v : Literal) : List Token :=
  if v.isNegative then [.leaf default (.symbol .minus), .leaf default v.word]
  else [.leaf default v.word]

/-- What a literal is read as: **a negative number is the minus of its absolute value**. -/
def written (v : Literal) : Raw.Expr :=
  if v.isNegative then .unary default .minus v.magnitude else v.magnitude

/-- The least number of 64 bits, which has no absolute value among them. -/
def IsLeast : Literal → Prop
  | .integral n => n = Int64.minValue
  | .real x => x.raw = Int64.minValue
  | _ => False

instance : DecidablePred IsLeast
  | .integral n => inferInstanceAs (Decidable (n = Int64.minValue))
  | .real x => inferInstanceAs (Decidable (x.raw = Int64.minValue))
  | .boolean _ | .text _ => inferInstanceAs (Decidable False)

end Literal

namespace Expr

/-- The value of a literal. -/
def literal? : Expr → Option Literal
  | .literal _ value => some value
  | _ => none

/-- The values of the literals in an expression. -/
def literals (e : Expr) : List Literal := e.nodes.filterMap literal?

/-- The tokens of an operand, given those of the expression. -/
def operandTokens (e : Expr) (tokens : List Token) : List Token :=
  if e.isCompound then [.group default tokens] else tokens

mutual

/-- The tokens of an expression, which do not say where they stand. -/
def tokens : Expr → List Token
  | .literal _ value => value.tokens
  | .name _ n _ => [.leaf default (.ident n)]
  | .member _ target field _ =>
    target.operandTokens target.tokens ++ [.leaf default .dot, .leaf default (.ident field)]
  | .call _ function arguments _ =>
    [.leaf default (.ident function), .group default (argumentTokens arguments)]
  | .unary _ op operand => .leaf default op.word :: operand.operandTokens operand.tokens
  | .binary _ op left right =>
    left.operandTokens left.tokens ++ .leaf default op.word :: right.operandTokens right.tokens
  | .cast _ operand => operand.tokens
  | .pointer _ target _ => target.tokens

/-- The tokens of the arguments of a call. -/
def argumentTokens : List Expr → List Token
  | [] => []
  | [e] => e.tokens
  | e :: rest => e.tokens ++ .leaf default .comma :: argumentTokens rest

end

mutual

/-- The expression as it is written, with nothing said of its place. -/
def written : Expr → Raw.Expr
  | .literal _ value => value.written
  | .name _ n _ => .name default n
  | .member _ target field _ => .member default target.written field
  | .call _ function arguments _ => .call default function (writtenAll arguments)
  | .unary _ op operand => .unary default op operand.written
  | .binary _ op left right => .binary default op left.written right.written
  | .cast _ operand => operand.written
  | .pointer _ target _ => target.written

/-- Some expressions as they are written. -/
def writtenAll : List Expr → List Raw.Expr
  | [] => []
  | e :: rest => e.written :: writtenAll rest

end

/-- What one node asks for to be read back: names that are names, members of places only, and no
number without an absolute value. -/
def Clear : Expr → Prop
  | .literal _ value => ¬ value.IsLeast
  | .name _ n _ => IsName n
  | .member _ target field _ => target.isAddressable = true ∧ IsName field
  | .call _ function _ _ => IsName function
  | .unary .. | .binary .. | .cast .. | .pointer .. => True

/-- An expression that can be read back. -/
def Legible (e : Expr) : Prop := ∀ n ∈ e.nodes, n.Clear

variable {e target operand left right : Expr} {i : Info} {field function : String}
  {arguments : List Expr}

theorem isCompound_literal (i : Info) (v : Literal) :
    (literal i v).isCompound = v.isNegative := by
  cases v <;> rfl

theorem isCompound_of_isAddressable (h : e.isAddressable = true) : e.isCompound = false := by
  cases e with
  | name | member => rfl
  | literal | call | unary | binary | cast | pointer => cases h

namespace Legible

theorem clear (h : e.Legible) : e.Clear := h e e.mem_nodes

theorem of_member {decl : Option FieldRef} (h : (member i target field decl).Legible) :
    target.Legible := fun n hn => h n (List.mem_cons_of_mem _ hn)

theorem of_call {callee : Option Nat} (h : (call i function arguments callee).Legible)
    (he : e ∈ arguments) : e.Legible :=
  fun n hn => h n (List.mem_cons_of_mem _ (mem_nodesAll.2 ⟨e, he, hn⟩))

theorem of_unary {op : UnaryOp} (h : (unary i op operand).Legible) : operand.Legible :=
  fun n hn => h n (List.mem_cons_of_mem _ hn)

theorem of_binary {op : BinaryOp} (h : (binary i op left right).Legible) :
    left.Legible ∧ right.Legible :=
  ⟨fun n hn => h n (List.mem_cons_of_mem _ (List.mem_append_left _ hn)),
    fun n hn => h n (List.mem_cons_of_mem _ (List.mem_append_right _ hn))⟩

theorem of_cast (h : (cast i operand).Legible) : operand.Legible :=
  fun n hn => h n (List.mem_cons_of_mem _ hn)

theorem of_pointer {temp : Option Int} (h : (pointer i target temp).Legible) : target.Legible :=
  fun n hn => h n (List.mem_cons_of_mem _ hn)

end Legible

end Expr

/-! ## The text spells the tokens -/

/-- What may follow an operand. -/
def Closes (c : Char) : Prop := ClosesNumber c ∧ c ≠ '"'

theorem closes_blank : Closes ' ' := by unfold Closes ClosesNumber; decide

theorem closes_comma : Closes ',' := by unfold Closes ClosesNumber; decide

theorem closes_bracket : Closes ')' := by unfold Closes ClosesNumber; decide

theorem Closes.isNameChar {c : Char} (h : Closes c) : isNameChar c = false := h.1.1

namespace Literal

variable {v : Literal}

/-- A REAL is written with a point in any case. -/
theorem chars_real (x : Fixed) : (Literal.real x).chars =
    (if x.raw.toInt < 0 then ['-'] else []) ++ (x.wholeChars ++ '.' :: x.placeChars) := by
  have hsign : '.' ∉ (if x.raw.toInt < 0 then ['-'] else []) := by split <;> decide
  have hwhole : '.' ∉ x.wholeChars := fun h =>
    absurd (Decimal.isDigit_of_mem_digits h) (by decide)
  have hx : x.chars = (if x.raw.toInt < 0 then ['-'] else []) ++ x.wholeChars ++
      if x.raw.toInt.natAbs % Fixed.scale.toNat = 0 then []
      else '.' :: Fixed.decimals (x.raw.toInt.natAbs % Fixed.scale.toNat) := rfl
  simp only [chars, List.contains_iff_mem, hx, Fixed.placeChars]
  by_cases hpart : x.raw.toInt.natAbs % Fixed.scale.toNat = 0
  · simp only [if_pos hpart, List.append_nil]
    rw [if_neg fun h => (List.mem_append.1 h).elim hsign hwhole, List.append_assoc]
  · simp only [if_neg hpart]
    rw [if_pos (by simp), List.append_assoc]

/-- A literal is written as its word, after its sign if it has one. -/
theorem chars_eq (v : Literal) : v.chars = (if v.isNegative then ['-'] else []) ++ v.word.chars := by
  cases v with
  | boolean b => cases b <;> rfl
  | integral n =>
    simp only [chars, Decimal.signed, isNegative, word, Lexeme.chars, String.toList_ofList,
      decide_eq_true_eq, Int64.lt_iff_toInt_lt, Int64.toInt_zero]
    split <;> rfl
  | real x =>
    rw [chars_real]
    simp [isNegative, word, Lexeme.chars, Fixed.sign]
  | text s => rfl

theorem spells_word (v : Literal) : Spells Closes v.word.chars [.leaf default v.word] := by
  cases v with
  | boolean b => cases b <;> exact (Spells.keyword _).mono fun c hc => hc.isNameChar
  | integral n =>
    obtain ⟨c, cs, hn, hc, hcs⟩ := Decimal.exists_digits n.toInt.natAbs
    simp only [word, Lexeme.chars, String.toList_ofList, hn]
    exact (Spells.integer hc hcs).mono fun c hc => hc.1
  | real x =>
    obtain ⟨c, cs, hx, hc, hcs⟩ := Decimal.exists_digits (x.raw.toInt.natAbs / Fixed.scale.toNat)
    simp only [word, Lexeme.chars, String.toList_ofList, Fixed.wholeChars, hx]
    exact (Spells.real hc hcs x.placeChars_ne_nil fun d hd =>
      Fixed.isDigit_of_mem_placeChars hd).mono fun c hc => hc.1
  | text s => exact (Spells.text s).mono fun c hc => hc.2

/-- No sign starts the word for a literal. -/
theorem exists_chars_word (v : Literal) :
    ∃ c cs, v.word.chars = c :: cs ∧ isSymbolChar c = false := by
  have hdigit {c : Char} (hc : c.isDigit = true) : isSymbolChar c = false := by
    cases hsymbol : isSymbolChar c with
    | false => rfl
    | true => exact absurd hc (by simp [(of_isSymbolChar hsymbol).2.1])
  cases v with
  | boolean b => cases b <;> exact ⟨_, _, rfl, by decide⟩
  | integral n =>
    obtain ⟨c, cs, hn, hc, -⟩ := Decimal.exists_digits n.toInt.natAbs
    exact ⟨c, cs, by simp [word, Lexeme.chars, hn], hdigit hc⟩
  | real x =>
    obtain ⟨c, cs, hx, hc, -⟩ := Decimal.exists_digits (x.raw.toInt.natAbs / Fixed.scale.toNat)
    exact ⟨c, cs ++ '.' :: x.placeChars, by simp [word, Lexeme.chars, Fixed.wholeChars, hx], hdigit hc⟩
  | text s => exact ⟨_, _, rfl, by decide⟩

theorem spells (v : Literal) : Spells Closes v.chars v.tokens := by
  rw [chars_eq, tokens]
  split
  · obtain ⟨c, cs, hv, hc⟩ := exists_chars_word v
    have hword := spells_word v
    rw [hv] at hword ⊢
    exact (Spells.symbol .minus).append hword hc
  · exact spells_word v

end Literal

theorem UnaryOp.spells {c : Char} {cs : List Char} {ts : List Token} (op : UnaryOp)
    (h : Spells Closes (c :: cs) ts) (hc : isSymbolChar c = false) :
    Spells Closes (op.spelling.toList ++ c :: cs) (.leaf default op.word :: ts) := by
  cases op with
  | plus => exact (Spells.symbol .plus).append h hc
  | minus => exact (Spells.symbol .minus).append h hc
  | not => exact (Spells.keyword .NOT).append h.blank (by decide)

theorem BinaryOp.spells (op : BinaryOp) :
    Spells (· = ' ') op.spelling.toList [.leaf default op.word] := by
  have hsymbol (s : Symbol) : Spells (· = ' ') s.spelling.toList [.leaf default (.symbol s)] :=
    (Spells.symbol s).mono (by rintro c rfl; decide)
  have hkeyword (k : Keyword) : Spells (· = ' ') k.spelling.toList [.leaf default (.keyword k)] :=
    (Spells.keyword k).mono (by rintro c rfl; decide)
  cases op with
  | multiply => exact hsymbol .times
  | divide => exact hsymbol .over
  | add => exact hsymbol .plus
  | subtract => exact hsymbol .minus
  | less => exact hsymbol .less
  | lessEqual => exact hsymbol .lessEqual
  | greater => exact hsymbol .greater
  | greaterEqual => exact hsymbol .greaterEqual
  | equal => exact hsymbol .equal
  | notEqual => exact hsymbol .notEqual
  | mod => exact hkeyword .MOD
  | shl => exact hkeyword .SHL
  | shr => exact hkeyword .SHR
  | and => exact hkeyword .AND
  | or => exact hkeyword .OR
  | xor => exact hkeyword .XOR

namespace Expr

variable {e : Expr}

theorem exists_chars_of_isName {n : String} (h : IsName n) :
    ∃ c cs, n.toList = c :: cs ∧ isSymbolChar c = false := by
  obtain ⟨c, cs, hn, hc, -⟩ := h.letters
  refine ⟨c, cs, hn, ?_⟩
  cases hsymbol : isSymbolChar c with
  | false => rfl
  | true => exact absurd hc (by simp [(of_isSymbolChar hsymbol).2.2.1])

/-- **No sign starts an operand**, so a sign before it is read by itself. -/
theorem Legible.exists_chars (h : e.Legible) :
    ∃ c cs, e.asOperand e.chars = c :: cs ∧ isSymbolChar c = false := by
  induction e using Expr.induct with
  | literal i v =>
    unfold asOperand
    rw [isCompound_literal]
    split
    next => exact ⟨'(', _, rfl, by decide⟩
    next hv =>
      obtain ⟨c, cs, hword, hc⟩ := v.exists_chars_word
      refine ⟨c, cs, ?_, hc⟩
      rw [chars, Literal.chars_eq, if_neg hv, List.nil_append, hword]
  | name i n d => exact exists_chars_of_isName h.clear
  | member i target field d ih =>
    obtain ⟨c, cs, htarget, hc⟩ := ih h.of_member
    refine ⟨c, cs ++ '.' :: field.toList, ?_, hc⟩
    rw [← List.cons_append, ← htarget]
    rfl
  | call i function arguments callee =>
    obtain ⟨c, cs, hname, hc⟩ := exists_chars_of_isName (n := function) h.clear
    refine ⟨c, cs ++ '(' :: argumentChars arguments ++ [')'], ?_, hc⟩
    rw [← List.cons_append, ← List.cons_append, ← hname]
    rfl
  | unary | binary => exact ⟨'(', _, rfl, by decide⟩
  | cast i operand ih => exact ih h.of_cast
  | pointer i target temp ih => exact ih h.of_pointer

theorem spells_operand (h : Spells Closes e.chars e.tokens) :
    Spells Closes (e.asOperand e.chars) (e.operandTokens e.tokens) := by
  unfold asOperand operandTokens
  split
  · exact h.group closes_bracket
  · exact h

/-- The text of a place may be followed by a point. -/
theorem Legible.spells_place (h : e.Legible) (he : e.isAddressable = true) :
    Spells (isNameChar · = false) e.chars e.tokens := by
  induction e using Expr.induct with
  | name i n d => exact .name h.clear
  | member i target field d ih =>
    have htarget := ih h.of_member he
    have hcompound := isCompound_of_isAddressable (e := target) he
    obtain ⟨c, cs, hfield, -⟩ := exists_chars_of_isName h.clear.2
    have hname := Spells.name h.clear.2
    rw [hfield] at hname
    simp only [chars, tokens, asOperand, operandTokens, hcompound, Bool.false_eq_true, if_false, hfield]
    exact htarget.append (Spells.dot.append hname trivial) (by decide)
  | literal | call | unary | binary | cast | pointer => cases he

theorem spells_arguments {arguments : List Expr}
    (h : ∀ e ∈ arguments, Spells Closes e.chars e.tokens) :
    Spells Closes (argumentChars arguments) (argumentTokens arguments) := by
  induction arguments with
  | nil => exact .nil
  | cons e rest ih =>
    have hfirst := h e (by simp)
    cases rest with
    | nil => exact hfirst
    | cons e' rest =>
      have hrest := ih fun e he => h e (by simp [he])
      exact hfirst.append (Spells.comma.append hrest.blank trivial) closes_comma

/-- **The text of an expression spells its tokens.** -/
theorem Legible.spells (h : e.Legible) : Spells Closes e.chars e.tokens := by
  induction e using Expr.induct with
  | literal i v => exact v.spells
  | name i n d => exact (Spells.name h.clear).mono fun c hc => hc.isNameChar
  | member i target field d =>
    exact (h.spells_place h.clear.1).mono fun c hc => hc.isNameChar
  | call i function arguments callee ih =>
    have harguments := spells_arguments fun e he => ih e he (h.of_call he)
    rw [chars, tokens, List.append_assoc]
    exact (Spells.name h.clear).append (harguments.group closes_bracket) (by decide)
  | unary i op operand ih =>
    obtain ⟨c, cs, hoperand, hc⟩ := h.of_unary.exists_chars
    have hspells := spells_operand (ih h.of_unary)
    rw [chars, tokens, hoperand]
    rw [hoperand] at hspells
    exact op.spells hspells hc
  | binary i op left right ihl ihr =>
    have hleft := spells_operand (ihl h.of_binary.1)
    have hright := spells_operand (ihr h.of_binary.2)
    rw [chars, tokens, List.append_assoc]
    exact hleft.append (op.spells.append hright.blank rfl).blank closes_blank
  | cast i operand ih => exact ih h.of_cast
  | pointer i target temp ih => exact ih h.of_pointer

end Expr

/-! ## The tokens are read as what is written -/

namespace Token

/-- Whether a token stands for what is between parentheses. -/
def isGroup : Token → Bool
  | .leaf _ _ => false
  | .group _ _ => true

variable {t : Token} {ts us : List Token}

@[simp] theorem isComma_bare (t : Token) : t.bare.isComma = t.isComma := by
  cases t with
  | leaf span word => cases word <;> rfl
  | group span ts => rfl

theorem depths_append (ts us : List Token) : depths (ts ++ us) = max (depths ts) (depths us) := by
  induction ts with
  | nil => simp [depths]
  | cons t ts ih => simp [depths, ih, max_assoc]

theorem isComma_of_bareAll (h : ∀ u ∈ bareAll ts, u.isComma = false) (ht : t ∈ ts) :
    t.isComma = false := by
  induction ts with
  | nil => cases ht
  | cons t' ts ih =>
    simp only [bareAll, List.mem_cons, forall_eq_or_imp, isComma_bare] at h
    obtain rfl | ht := List.mem_cons.1 ht
    · exact h.1
    · exact ih h.2 ht

end Token

namespace Raw

mutual

/-- An expression that does not say where it stands. -/
def Expr.unplaced : Expr → Expr
  | .integer _ n => .integer default n
  | .real _ x => .real default x
  | .text _ content => .text default content
  | .boolean _ b => .boolean default b
  | .name _ n => .name default n
  | .member _ target field => .member default target.unplaced field
  | .call _ function arguments => .call default function (Expr.unplacedAll arguments)
  | .unary _ op operand => .unary default op operand.unplaced
  | .binary _ op left right => .binary default op left.unplaced right.unplaced

/-- Expressions that do not say where they stand. -/
def Expr.unplacedAll : List Expr → List Expr
  | [] => []
  | e :: rest => e.unplaced :: Expr.unplacedAll rest

end

/-- Tokens that are read as an expression, wherever they stand. -/
def Reads (tokens : List Token) (e : Expr) : Prop :=
  ∀ (line : Line) (depth : Nat) (place : Location) (ts : List Token), Token.bareAll ts = tokens →
    Token.depths ts ≤ depth →
    ∃ r, exprWithin line (depth + 1) place ts = .ok r ∧ r.unplaced = e

/-- Tokens that are read as an operand, whatever follows them but arguments. -/
def ReadsOperand (tokens : List Token) (e : Expr) : Prop :=
  ∀ (line : Line) (depth : Nat) (ts : List Token), Token.bareAll ts = tokens →
    Token.depths ts ≤ depth →
    ∃ r, r.unplaced = e ∧ ∀ (rest : List Token) (row : List Item),
      (∀ t ∈ rest.head?, t.isGroup = false) →
      items line (exprWithin line depth) (some r) rest = .ok row →
      items line (exprWithin line depth) none (ts ++ rest) = .ok row

section Items

variable {line : Line} {inner : Location → List Token → Checked Expr} {span : Span}
  {rest : List Token} {row : List Item} {e : Expr}

theorem items_literal {word : Lexeme} (hword : literal? (line.location span) word = .ok (some e))
    (h : items line inner (some e) rest = .ok row) :
    items line inner none (.leaf span word :: rest) = .ok row := by
  cases word with
  | ident | symbol | comma | dot => cases hword
  | keyword | integer | binary | real | text =>
    rw [items, hword] <;> simp [bind, Except.bind, h, pure, Except.pure, Item.after]

theorem items_unary (op : UnaryOp) (h : items line inner none rest = .ok row) :
    items line inner none (.leaf span op.word :: rest) =
      .ok (.unary (line.location span) op :: row) := by
  cases op <;>
    simp [UnaryOp.word, items, literal?, h, bind, Except.bind, pure, Except.pure, Item.after,
      Item.ofSymbol, Item.ofKeyword?]

theorem items_binary (op : BinaryOp) (h : items line inner none rest = .ok row) :
    items line inner (some e) (.leaf span op.word :: rest) =
      .ok (.operand e :: .binary (line.location span) op :: row) := by
  cases op <;>
    simp [BinaryOp.word, items, literal?, h, bind, Except.bind, pure, Except.pure, Item.after,
      Item.ofSymbol, Item.ofKeyword?]

theorem items_name {n : String} (hrest : ∀ t ∈ rest.head?, t.isGroup = false)
    (h : items line inner (some (.name (line.location span) n)) rest = .ok row) :
    items line inner none (.leaf span (.ident n) :: rest) = .ok row := by
  rw [items]
  · simp [h, bind, Except.bind, pure, Except.pure, Item.after]
  · rintro outer arguments rest' rfl
    exact absurd (hrest _ rfl) (by simp [Token.isGroup])

theorem items_call {n : String} {outer : Span} {arguments : List Token} {found : List (List Token)}
    {args : List Expr} (hpieces : pieces line (line.location outer) arguments = .ok found)
    (hargs : (found.mapM fun piece => inner (pieceStart line piece) piece) = .ok args)
    (h : items line inner (some (.call (line.location span) n args)) rest = .ok row) :
    items line inner none (.leaf span (.ident n) :: .group outer arguments :: rest) = .ok row := by
  rw [items, hpieces]
  simp [hargs, h, bind, Except.bind, pure, Except.pure, Item.after]

theorem items_group {tokens : List Token} (he : inner (line.location span) tokens = .ok e)
    (h : items line inner (some e) rest = .ok row) :
    items line inner none (.group span tokens :: rest) = .ok row := by
  rw [items, he]
  simp [h, bind, Except.bind, pure, Except.pure, Item.after]

end Items

variable {ts us : List Token} {e e' : Expr}

namespace ReadsOperand

theorem name (n : String) : ReadsOperand [.leaf default (.ident n)] (.name default n) := by
  intro line depth ts hts _
  obtain ⟨span, rfl⟩ := Token.bareAll_eq_leaf hts
  exact ⟨.name (line.location span) n, rfl, fun rest row hrest h => items_name hrest h⟩

theorem literal {word : Lexeme} (h : ∀ place, ∃ r, literal? place word = .ok (some r) ∧
    r.unplaced = e) : ReadsOperand [.leaf default word] e := by
  intro line depth ts hts _
  obtain ⟨span, rfl⟩ := Token.bareAll_eq_leaf hts
  obtain ⟨r, hr, he⟩ := h (line.location span)
  exact ⟨r, he, fun rest row _ h => items_literal hr h⟩

theorem member (h : ReadsOperand ts e) (field : String) :
    ReadsOperand (ts ++ [.leaf default .dot, .leaf default (.ident field)])
      (.member default e field) := by
  intro line depth all hall hdepth
  obtain ⟨ts, tail, rfl, rfl, htail⟩ := Token.bareAll_eq_append hall
  obtain ⟨dot, tail, rfl, hdot, htail⟩ := Token.bareAll_eq_cons htail
  obtain ⟨span, rfl⟩ := Token.bareAll_eq_leaf htail
  obtain ⟨dotSpan, rfl⟩ := Token.bare_eq_leaf hdot
  rw [Token.depths_append] at hdepth
  obtain ⟨r, rfl, hr⟩ := h line depth ts rfl (le_trans (le_max_left _ _) hdepth)
  refine ⟨.member (line.location span) r field, rfl, fun rest row _ hrow => ?_⟩
  rw [List.append_assoc]
  exact hr _ row (by simp [Token.isGroup]) hrow

/-- Parentheses make an operand of an expression. -/
theorem group (h : Reads ts e) : ReadsOperand [.group default ts] e := by
  intro line depth all hall hdepth
  obtain ⟨t, tail, rfl, ht, htail⟩ := Token.bareAll_eq_cons hall
  obtain rfl := Token.bareAll_eq_nil htail
  obtain ⟨span, ts, rfl, rfl⟩ := Token.bare_eq_group ht
  obtain ⟨depth, rfl⟩ : ∃ d, depth = d + 1 := Nat.exists_eq_add_one.2 (by
    simp [Token.depths, Token.depth] at hdepth
    omega)
  obtain ⟨r, hr, he⟩ := h line depth (line.location span) ts rfl (by
    simpa [Token.depths, Token.depth] using hdepth)
  exact ⟨r, he, fun rest row _ hrow => items_group hr hrow⟩

/-- An operand is an expression. -/
theorem reads (h : ReadsOperand ts e) (hne : ts ≠ []) : Reads ts e := by
  rintro line depth place ts rfl hdepth
  obtain ⟨r, rfl, hr⟩ := h line depth ts rfl hdepth
  refine ⟨r, exprWithin_eq_ok_iff.2 ⟨?_, .operand r, ?_, trivial, rfl⟩, rfl⟩
  · rintro rfl
    exact hne rfl
  · rw [← List.append_nil ts]
    exact hr [] _ (by simp) rfl

/-- An operator before an operand. -/
theorem unary (h : ReadsOperand ts e) (op : UnaryOp) :
    Reads (.leaf default op.word :: ts) (.unary default op e) := by
  intro line depth place all hall hdepth
  obtain ⟨t, ts, rfl, ht, rfl⟩ := Token.bareAll_eq_cons hall
  obtain ⟨span, rfl⟩ := Token.bare_eq_leaf ht
  obtain ⟨r, rfl, hr⟩ := h line depth ts rfl (le_trans (le_max_right _ _) hdepth)
  refine ⟨.unary (line.location span) op r, exprWithin_eq_ok_iff.2
    ⟨by simp, .unary (line.location span) op (.operand r), ?_, ⟨trivial, ?_⟩, rfl⟩, rfl⟩
  · rw [← List.append_nil ts]
    exact items_unary op (hr [] _ (by simp) rfl)
  · exact Phrase.within_operand r

/-- An operator between operands. -/
theorem binary (h : ReadsOperand ts e) (h' : ReadsOperand us e') (op : BinaryOp) :
    Reads (ts ++ .leaf default op.word :: us) (.binary default op e e') := by
  intro line depth place all hall hdepth
  obtain ⟨ts, tail, rfl, rfl, htail⟩ := Token.bareAll_eq_append hall
  obtain ⟨t, us, rfl, ht, rfl⟩ := Token.bareAll_eq_cons htail
  obtain ⟨span, rfl⟩ := Token.bare_eq_leaf ht
  rw [Token.depths_append, max_le_iff] at hdepth
  obtain ⟨l, rfl, hl⟩ := h line depth ts rfl hdepth.1
  obtain ⟨r, rfl, hr⟩ := h' line depth us rfl (le_trans (le_max_right _ _) hdepth.2)
  refine ⟨.binary (line.location span) op l r, exprWithin_eq_ok_iff.2 ⟨by simp,
    .binary (line.location span) op (.operand l) (.operand r), ?_, Phrase.ordered_binary.2
      ⟨trivial, trivial, Phrase.within_operand l, Phrase.within_operand r⟩, rfl⟩, rfl⟩
  have hright := hr [] [.operand r] (by simp) rfl
  rw [List.append_nil] at hright
  exact hl _ _ (by simp [Token.isGroup]) (items_binary op hright)

end ReadsOperand

/-! ### Arguments -/

theorem piecesFrom_append (line : Line) (outer : Location) (piece rest : List Token)
    (h : ∀ t ∈ ts, t.isComma = false) :
    piecesFrom line outer piece (ts ++ rest) = piecesFrom line outer (ts.reverse ++ piece) rest := by
  induction ts generalizing piece with
  | nil => rfl
  | cons t ts ih =>
    rw [List.cons_append, piecesFrom, if_neg (by simp [h t (by simp)]),
      ih (t :: piece) fun t ht => h t (by simp [ht]), List.reverse_cons, List.append_assoc,
      List.singleton_append]

end Raw

namespace Expr

variable {e : Expr}

theorem tokens_ne_nil (e : Expr) : e.tokens ≠ [] := by
  induction e using Expr.induct with
  | literal i v => unfold tokens Literal.tokens; split <;> simp
  | name | call | unary => simp [tokens]
  | member | binary => simp [tokens]
  | cast i operand ih => exact ih
  | pointer i target temp ih => exact ih

theorem mem_operandTokens {t : Token} {tokens : List Token} (h : t ∈ e.operandTokens tokens) :
    t ∈ tokens ∨ t.isComma = false := by
  unfold operandTokens at h
  split at h
  · exact .inr (List.mem_singleton.1 h ▸ rfl)
  · exact .inl h

/-- No comma stands in an expression but between parentheses. -/
theorem isComma_of_mem_tokens (e : Expr) : ∀ t ∈ e.tokens, t.isComma = false := by
  have hunary (op : UnaryOp) : (Token.leaf default op.word).isComma = false := by cases op <;> rfl
  have hbinary (op : BinaryOp) : (Token.leaf default op.word).isComma = false := by cases op <;> rfl
  induction e using Expr.induct with
  | literal i v =>
    have hword : (Token.leaf default v.word).isComma = false := by
      cases v with
      | boolean b => cases b <;> rfl
      | integral | real | text => rfl
    unfold tokens Literal.tokens
    split
    · simpa using ⟨rfl, hword⟩
    · simpa using hword
  | name => simp [tokens, Token.isComma]
  | call => simp [tokens, Token.isComma]
  | member i target field d ih =>
    intro t ht
    obtain ht | ht := List.mem_append.1 ht
    · exact (mem_operandTokens ht).elim (ih t) id
    · simp only [List.mem_cons, List.not_mem_nil, or_false] at ht
      obtain rfl | rfl := ht <;> rfl
  | unary i op operand ih =>
    intro t ht
    obtain rfl | ht := List.mem_cons.1 ht
    · exact hunary op
    · exact (mem_operandTokens ht).elim (ih t) id
  | binary i op left right ihl ihr =>
    intro t ht
    obtain ht | ht := List.mem_append.1 ht
    · exact (mem_operandTokens ht).elim (ihl t) id
    · obtain rfl | ht := List.mem_cons.1 ht
      · exact hbinary op
      · exact (mem_operandTokens ht).elim (ihr t) id
  | cast i operand ih => exact ih
  | pointer i target temp ih => exact ih

/-- The commas between arguments cut them apart. -/
theorem exists_pieces (line : Line) (outer : Location) {arguments : List Expr} {ts : List Token}
    (hne : arguments ≠ []) (hts : Token.bareAll ts = argumentTokens arguments) :
    ∃ found, Raw.piecesFrom line outer [] ts = .ok found ∧
      List.Forall₂ (fun piece e => Token.bareAll piece = e.tokens ∧
        Token.depths piece ≤ Token.depths ts) found arguments := by
  have hempty {piece : List Token} {e : Expr} (h : Token.bareAll piece = e.tokens) :
      piece.reverse.isEmpty = false := by
    cases piece with
    | nil => exact absurd h.symm e.tokens_ne_nil
    | cons => simp
  have hcomma {piece : List Token} {e : Expr} (h : Token.bareAll piece = e.tokens) :
      ∀ t ∈ piece, t.isComma = false := fun t =>
    Token.isComma_of_bareAll (h ▸ e.isComma_of_mem_tokens)
  induction arguments generalizing ts with
  | nil => exact absurd rfl hne
  | cons e rest ih =>
    cases rest with
    | nil =>
      have hpieces := Raw.piecesFrom_append line outer [] [] (hcomma hts)
      rw [List.append_nil, List.append_nil, Raw.piecesFrom, hempty hts,
        if_neg Bool.false_ne_true, List.reverse_reverse] at hpieces
      exact ⟨[ts], hpieces, .cons ⟨hts, le_rfl⟩ .nil⟩
    | cons e' rest =>
      obtain ⟨piece, tail, rfl, hpiece, htail⟩ := Token.bareAll_eq_append hts
      obtain ⟨comma, after, rfl, hleaf, hafter⟩ := Token.bareAll_eq_cons htail
      obtain ⟨span, rfl⟩ := Token.bare_eq_leaf hleaf
      obtain ⟨found, hfound, hall⟩ := ih (by simp) hafter
      refine ⟨piece :: found, ?_, .cons ⟨hpiece, ?_⟩ (hall.imp fun p e h => ⟨h.1, ?_⟩)⟩
      · rw [Raw.piecesFrom_append line outer [] _ (hcomma hpiece), List.append_nil, Raw.piecesFrom,
          if_pos (by rfl), hempty hpiece, if_neg Bool.false_ne_true, hfound, List.reverse_reverse]
        rfl
      · rw [Token.depths_append]
        exact le_max_left _ _
      · rw [Token.depths_append]
        exact h.2.trans ((le_max_right _ _).trans (le_max_right _ _))

theorem exists_arguments (line : Line) {depth : Nat} {arguments : List Expr}
    {found : List (List Token)}
    (hall : List.Forall₂ (fun piece e => Token.bareAll piece = e.tokens ∧
      Token.depths piece ≤ depth) found arguments)
    (h : ∀ e ∈ arguments, Raw.Reads e.tokens e.written) :
    ∃ rs, (found.mapM fun piece => Raw.exprWithin line (depth + 1) (Raw.pieceStart line piece) piece) =
      .ok rs ∧ Raw.Expr.unplacedAll rs = writtenAll arguments := by
  simp only [Checked.mapM_eq_ok]
  induction hall with
  | nil => exact ⟨[], .nil, rfl⟩
  | @cons piece e found arguments hpiece _ ih =>
    obtain ⟨r, hr, he⟩ := h e (by simp) line depth (Raw.pieceStart line piece) piece hpiece.1 hpiece.2
    obtain ⟨rs, hrs, hes⟩ := ih fun e he => h e (by simp [he])
    exact ⟨r :: rs, .cons hr hrs, by rw [Raw.Expr.unplacedAll, writtenAll, he, hes]⟩

theorem reads_call {arguments : List Expr} (function : String)
    (h : ∀ e ∈ arguments, Raw.Reads e.tokens e.written) :
    Raw.ReadsOperand [.leaf default (.ident function), .group default (argumentTokens arguments)]
      (.call default function (writtenAll arguments)) := by
  intro line depth all hall hdepth
  obtain ⟨t, tail, rfl, ht, htail⟩ := Token.bareAll_eq_cons hall
  obtain ⟨span, rfl⟩ := Token.bare_eq_leaf ht
  obtain ⟨t, tail, rfl, ht, htail⟩ := Token.bareAll_eq_cons htail
  obtain rfl := Token.bareAll_eq_nil htail
  obtain ⟨outer, ts, rfl, hts⟩ := Token.bare_eq_group ht
  obtain ⟨depth, rfl⟩ : ∃ d, depth = d + 1 := Nat.exists_eq_add_one.2 (by
    simp [Token.depths, Token.depth] at hdepth
    omega)
  have hdepths : Token.depths ts ≤ depth := by
    simpa [Token.depths, Token.depth] using hdepth
  obtain ⟨found, hfound, hpieces⟩ : ∃ found, Raw.pieces line (line.location outer) ts = .ok found ∧
      List.Forall₂ (fun piece e => Token.bareAll piece = e.tokens ∧
        Token.depths piece ≤ depth) found arguments := by
    cases arguments with
    | nil =>
      obtain rfl := Token.bareAll_eq_nil hts
      exact ⟨[], rfl, .nil⟩
    | cons e rest =>
      obtain ⟨found, hfound, hpieces⟩ :=
        exists_pieces line (line.location outer) (List.cons_ne_nil e rest) hts
      refine ⟨found, ?_, hpieces.imp fun p e h => ⟨h.1, h.2.trans hdepths⟩⟩
      cases ts with
      | nil => cases hfound
      | cons t ts => exact hfound
  obtain ⟨rs, hrs, hunplaced⟩ := exists_arguments line hpieces h
  refine ⟨.call (line.location span) function rs, ?_, fun rest row _ hrow => ?_⟩
  · rw [Raw.Expr.unplaced, hunplaced]
  · exact Raw.items_call hfound hrs hrow

end Expr

/-! ### Expressions -/

namespace Literal

variable {v : Literal}

theorem natAbs_lt {n : Int64} (h : n ≠ Int64.minValue) :
    n.toInt.natAbs < 0x8000000000000000 := by
  have hlow := Int64.le_toInt n
  have hhigh := Int64.toInt_lt n
  have hleast : n.toInt ≠ -2 ^ 63 := by
    rw [← Int64.toInt_minValue]
    exact fun heq => h (Int64.toInt_inj.1 heq)
  omega

/-- The absolute value of a number, where there is one. -/
theorem ofInt_natAbs (n : Int64) : Int64.ofInt n.toInt.natAbs = if n < 0 then -n else n := by
  have hneg : n < 0 ↔ n.toInt < 0 := Int64.lt_iff_toInt_lt
  split
  next h =>
    rw [Int.ofNat_natAbs_of_nonpos (Int.le_of_lt (hneg.1 h)), Int64.ofInt_neg, Int64.ofInt_toInt]
  next h => rw [Int.natAbs_of_nonneg (Int.not_lt.1 (mt hneg.2 h)), Int64.ofInt_toInt]

/-- The word for a literal stands for its absolute value. -/
theorem exists_literal? (h : ¬ v.IsLeast) (place : Location) :
    ∃ r, Raw.literal? place v.word = .ok (some r) ∧ r.unplaced = v.magnitude := by
  cases v with
  | boolean b => cases b <;> exact ⟨_, rfl, rfl⟩
  | text s => exact ⟨_, rfl, rfl⟩
  | integral n =>
    refine ⟨.integer place (Int64.ofInt n.toInt.natAbs), ?_, by
      rw [Raw.Expr.unplaced, magnitude, ofInt_natAbs]⟩
    have hvalue : Decimal.valueIn 10 (Decimal.digits n.toInt.natAbs) = n.toInt.natAbs :=
      Decimal.value_digits _
    simp only [word, Raw.literal?, Raw.wholeNumber?, String.toList_ofList, hvalue, if_pos (natAbs_lt h)]
  | real x =>
    refine ⟨.real place ⟨Int64.ofInt x.raw.toInt.natAbs⟩, ?_, ?_⟩
    · simp only [word, Raw.literal?, Fixed.ofString?, String.toList_ofList, Fixed.ofChars?_written]
    · have hneg : x.raw < 0 ↔ x.sign < 0 := Int64.lt_iff_toInt_lt.trans Int.sign_neg_iff.symm
      rw [Raw.Expr.unplaced, magnitude, ofInt_natAbs]
      simp only [hneg]
      split <;> rfl

end Literal

namespace Expr

variable {e : Expr}

theorem readsOperand_of (h : Raw.Reads e.tokens e.written ∧
    (e.isCompound = false → Raw.ReadsOperand e.tokens e.written)) :
    Raw.ReadsOperand (e.operandTokens e.tokens) e.written := by
  unfold operandTokens
  split
  next => exact .group h.1
  next hc => exact h.2 (by simpa using hc)

/-- What is no operator with its operands is an operand without parentheses. -/
theorem Legible.reads_both (h : e.Legible) : Raw.Reads e.tokens e.written ∧
    (e.isCompound = false → Raw.ReadsOperand e.tokens e.written) := by
  have both {e : Expr} (h : Raw.ReadsOperand e.tokens e.written) : Raw.Reads e.tokens e.written ∧
      (e.isCompound = false → Raw.ReadsOperand e.tokens e.written) :=
    ⟨h.reads e.tokens_ne_nil, fun _ => h⟩
  induction e using Expr.induct with
  | literal i v =>
    have hword : Raw.ReadsOperand [.leaf default v.word] v.magnitude :=
      .literal (Literal.exists_literal? h.clear)
    rw [isCompound_literal, tokens, written, Literal.tokens, Literal.written]
    split
    next hv => exact ⟨hword.unary .minus, fun hn => by rw [hv] at hn; cases hn⟩
    next hv => exact ⟨hword.reads (by simp), fun _ => hword⟩
  | name i n d => exact both (.name n)
  | member i target field d ih => exact both ((readsOperand_of (ih h.of_member)).member field)
  | call i function arguments callee ih =>
    exact both (reads_call function fun e he => (ih e he (h.of_call he)).1)
  | unary i op operand ih => exact ⟨(readsOperand_of (ih h.of_unary)).unary op, by rintro ⟨⟩⟩
  | binary i op left right ihl ihr =>
    exact ⟨(readsOperand_of (ihl h.of_binary.1)).binary (readsOperand_of (ihr h.of_binary.2)) op,
      by rintro ⟨⟩⟩
  | cast i operand ih => exact ih h.of_cast
  | pointer i target temp ih => exact ih h.of_pointer

/-- **The tokens of an expression are read as what is written.** -/
theorem Legible.reads (h : e.Legible) : Raw.Reads e.tokens e.written := h.reads_both.1

/-- **A printed expression is read back as what is written.** -/
theorem Legible.read_render (h : e.Legible) (file : String) (number : Nat) :
    ∃ line r, Line.read file number e.render = .ok line ∧ Raw.Expr.ofLine line = .ok r ∧
      r.unplaced = e.written := by
  obtain ⟨ts, hts, hlex⟩ := h.spells.lex file number
  obtain ⟨r, hr, hunplaced⟩ := h.reads ⟨file, number, ts⟩ (Token.depths ts)
    (Line.whole ⟨file, number, ts⟩) ts hts le_rfl
  refine ⟨⟨file, number, ts⟩, r, ?_, hr, hunplaced⟩
  rw [Line.read, render, hlex]
  rfl

end Expr

/-! ## Analysed programs -/

namespace Program

/-- Literals aside, **every expression of a program that is loaded can be read back**: its names are
words, and it takes members of places only. -/
theorem legible_of_load {sources : Sources} {main : String} {p : Program}
    (h : load sources main = .ok p) {e : Expr} (he : p.Node e)
    (hleast : ∀ v ∈ e.literals, ¬ v.IsLeast) : e.Legible := by
  obtain ⟨lines, hlines, hanalyse⟩ := Checked.bind_eq_ok.1 h
  obtain ⟨raw, -, hanalyse⟩ := Checked.bind_eq_ok.1 hanalyse
  obtain ⟨Γ, -, -, htyped⟩ := (analysed_of_analyse hanalyse).node he
  intro x hx
  have hnames : x.Spellable := ((spellable_of_load h).node he).node hx
  have hx' := htyped.node hx
  cases x with
  | literal i v => exact hleast v (List.mem_filterMap.2 ⟨_, hx, rfl⟩)
  | name i n d => exact hnames n (.head _)
  | member i target field r =>
    cases r with
    | none => cases hx'
    | some r => exact ⟨hx'.2.1, hnames field (.head _)⟩
  | call i f arguments c => exact hnames f (.head _)
  | unary | binary | cast | pointer => trivial

/-- **Every expression of a program that is loaded is read back when it is printed**, if it has no
number without an absolute value. -/
theorem read_render_of_load {sources : Sources} {main : String} {p : Program}
    (h : load sources main = .ok p) {e : Expr} (he : p.Node e)
    (hleast : ∀ v ∈ e.literals, ¬ v.IsLeast) (file : String) (number : Nat) :
    ∃ line r, Line.read file number e.render = .ok line ∧ Raw.Expr.ofLine line = .ok r ∧
      r.unplaced = e.written :=
  (legible_of_load h he hleast).read_render file number

end Program

/-- A function whose result has a sign, a sum in parentheses and a negative number. -/
def Files.signed : Files :=
  [("main.bas", "MODULE M N\nFUNCTION F(A AS INTEGER) AS INTEGER\n" ++
    "RETURN -(A + 2) * (1 - 4)\nEND FUNCTION\nEND MODULE")]

/-- The program that the text means. -/
def Program.signed : Program := (load Files.signed.sources "main.bas").toOption.getD default

theorem Program.exprs_signed_ne_nil : signed.exprs ≠ [] :=
  List.isEmpty_eq_false_iff.1 (by decide +kernel)

theorem Program.read_render_of_load_signed : ∃ e, load Files.signed.sources "main.bas" = .ok .signed ∧
    signed.Node e ∧ (∀ v ∈ e.literals, ¬ v.IsLeast) ∧ e.render = "(-(A + 2)) * (-3)" ∧
      ∃ line r, Line.read "main.bas" 1 e.render = .ok line ∧ Raw.Expr.ofLine line = .ok r ∧
        r.unplaced = e.written := by
  have hload : load Files.signed.sources "main.bas" = .ok .signed :=
    Checked.eq_ok (by decide +kernel)
  have hnode : signed.Node (signed.exprs.head exprs_signed_ne_nil) :=
    node_iff.2 ⟨_, List.head_mem _, Expr.mem_nodes _⟩
  have hleast : ∀ v ∈ (signed.exprs.head exprs_signed_ne_nil).literals, ¬ v.IsLeast := by
    decide +kernel
  exact ⟨_, hload, hnode, hleast, by decide +kernel,
    read_render_of_load hload hnode hleast "main.bas" 1⟩

end ChannelBasic
