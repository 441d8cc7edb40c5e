import ChannelBasic.Proofs.Faultless.Basic
import ChannelBasic.Raw.ProgramReader
import ChannelBasic.Source.Splice

/-!
# Proofs/Faultless/Reading — reading a program blames the text

Readers refuse a text at the place where they stop.
-/

namespace ChannelBasic

open Checked

/-! ## Lines -/

namespace Lexer

variable {c : Char} {cs : List Char} {r : Refusal} {file : String} {line column : Nat}
  {d : Diagnostic}

/-- The rules that a line can break. -/
def rules : List Rule :=
  [.unknownCharacter, .unknownOperator, .missedClosingQuote, .wrongNumberFormat,
    .bracketDoesNotMatch, .missedBracket]

theorem rule_number {word : Lexeme} {used : Nat} (h : number c cs word used = .error r) :
    r.rule = .wrongNumberFormat := by
  unfold number at h
  grind [badNumber]

theorem rule_scan (h : scan c cs = .error r) : r.rule ∈ rules := by
  unfold scan at h
  grind [scanNumber, scanBinary, scanDecimal, badNumber, rule_number, scanName, scanText,
    scanSymbol, rules]

theorem rule_flat (h : flat file line column cs = .error d) : d.rule ∈ rules := by
  fun_induction flat file line column cs with
  | case1 | case3 | case6 => cases h
  | case2 _ _ _ _ ih => exact ih h
  | case4 _ _ _ _ _ _ hscan =>
    cases h
    exact rule_scan hscan
  | case5 _ _ _ _ _ _ _ _ d hrest ih =>
    cases h
    exact ih hrest

theorem rule_group {outer : List (Nat × List Token)} {inner : List Token}
    {words : List (Span × Flat)} (h : group file line outer inner words = .error d) :
    d.rule ∈ rules := by
  fun_induction group file line outer inner words with
  | case1 => cases h
  | case2 | case5 =>
    cases h
    simp [rules]
  | case3 _ _ _ _ _ ih | case4 _ _ _ _ ih | case6 _ _ _ _ _ _ ih => exact ih h

end Lexer

/-- **A line that is refused breaks a rule of words or of parentheses.** -/
theorem Line.rule_read {file text : String} {number : Nat} {d : Diagnostic}
    (h : Line.read file number text = .error d) : d.rule ∈ Lexer.rules := by
  unfold Line.read Lexer.lex at h
  cases hflat : Lexer.flat file number 0 text.toList with
  | error d =>
    rw [hflat] at h
    cases h
    exact Lexer.rule_flat hflat
  | ok words =>
    cases hgroup : Lexer.group file number [] [] words with
    | error d =>
      simp only [hflat, bind, Except.bind, hgroup] at h
      cases h
      exact Lexer.rule_group hgroup
    | ok ts =>
      simp only [hflat, bind, Except.bind, hgroup] at h
      cases h

namespace Source

@[simp, grind .] theorem faultless_read (file : String) (number : Nat) (text : String) :
    Faultless (Line.read file number text) := by
  intro d h hrule
  have hmem := Line.rule_read h
  rw [hrule] at hmem
  exact absurd hmem (by decide)

theorem faultless_spliceLines {file : String → Location → Spliced → Checked Spliced}
    (hfile : ∀ name place found, Faultless (file name place found)) (name : String) (number : Nat)
    (found : Spliced) (texts : List String) :
    Faultless (spliceLines file name number found texts) := by
  induction texts generalizing number found with
  | nil => exact Faultless.ok _
  | cons text texts ih =>
    unfold spliceLines
    grind

theorem faultless_spliceFile (load : Loader) (depth : Nat) (name : String)
    (place : Option Location) (found : Spliced) :
    Faultless (spliceFile load depth name place found) := by
  induction depth generalizing name place found with
  | zero => unfold spliceFile; grind
  | succ depth ih =>
    unfold spliceFile
    grind [faultless_spliceLines]

end Source

theorem Sources.faultless_splice (s : Sources) (main : String) : Faultless (s.splice main) := by
  unfold Sources.splice Source.splice
  grind [Source.faultless_spliceFile]

/-! ## Expressions -/

namespace Raw

variable {line : Line}

theorem faultless_piecesFrom (outer : Location) (tokens : List Token) (piece : List Token) :
    Faultless (piecesFrom line outer piece tokens) := by
  induction tokens generalizing piece with
  | nil => unfold piecesFrom; grind
  | cons t rest ih => unfold piecesFrom; grind

@[simp, grind .] theorem faultless_pieces (outer : Location) (tokens : List Token) :
    Faultless (pieces line outer tokens) := by
  unfold pieces
  grind [faultless_piecesFrom]

@[simp, grind .] theorem faultless_literal? (place : Location) (word : Lexeme) :
    Faultless (literal? place word) := by
  unfold literal?
  grind

@[simp, grind .] theorem faultless_reduce (place : Location) (row : List Item) :
    Faultless (reduce place row) := by
  unfold reduce single
  grind

theorem faultless_items {inner : Location → List Token → Checked Expr}
    (hinner : ∀ place tokens, Faultless (inner place tokens)) (pending : Option Expr)
    (tokens : List Token) : Faultless (items line inner pending tokens) := by
  fun_induction items line inner pending tokens with
  | case9 pending span word rest _ _ _ _ _ _ here hexpr hnone =>
    -- a word that is no name, no dot and no symbol: a literal, a keyword, or out of place
    refine (Faultless.bind_iff _ _).2 ⟨faultless_literal? here word, fun found _ => ?_⟩
    cases found with
    | some e => simp [hexpr]
    | none => grind
  | _ => simp_all [Faultless.mapM]

@[simp, grind .] theorem faultless_exprWithin (depth : Nat) (place : Location) (tokens : List Token) :
    Faultless (exprWithin line depth place tokens) := by
  induction depth generalizing place tokens with
  | zero => unfold exprWithin; grind
  | succ depth ih => unfold exprWithin; grind [faultless_items]

@[simp, grind .] theorem faultless_expr (place : Location) (tokens : List Token) :
    Faultless (expr line place tokens) := faultless_exprWithin _ _ _

end Raw

/-! ## Entries -/

namespace Reading

variable {c : Cursor}

@[simp, grind .] theorem faultless_onTokens {α : Type} {line : Line} {tokens : List Token} {r : Reading α}
    (h : ∀ c, Faultless (r.run c)) : Faultless (onTokens line tokens r) := by
  unfold onTokens
  grind

@[simp, grind .] theorem faultless_onLine {α : Type} {line : Line} {r : Reading α}
    (h : ∀ c, Faultless (r.run c)) : Faultless (onLine line r) := faultless_onTokens h

@[simp, grind .] theorem faultless_place : Faultless (place.run c) := by
  unfold place
  grind

@[simp, grind .] theorem faultless_next : Faultless (next.run c) := by
  unfold next StateT.run
  grind

@[simp, grind .] theorem faultless_peek : Faultless (peek.run c) := by
  unfold peek
  grind

@[simp, grind .] theorem faultless_isEnd : Faultless (isEnd.run c) := by
  unfold isEnd
  grind

@[simp, grind .] theorem faultless_accept (k : Keyword) : Faultless ((accept k).run c) := by
  unfold accept StateT.run
  grind

@[simp, grind .] theorem faultless_before (stops : Token → Bool) : Faultless ((before stops).run c) :=
  Faultless.ok _

@[simp, grind .] theorem faultless_expect (k : Keyword) {rule : Rule} (h : rule ≠ .internalError) :
    Faultless ((expect k rule).run c) := by
  unfold expect
  grind

@[simp, grind .] theorem faultless_ident {rule : Rule} (h : rule ≠ .internalError) :
    Faultless ((ident rule).run c) := by
  unfold ident
  grind

@[simp, grind .] theorem faultless_equals : Faultless (equals.run c) := by
  unfold equals
  grind

@[simp, grind .] theorem faultless_finish : Faultless (finish.run c) := by
  unfold finish
  grind

@[simp, grind .] theorem faultless_expr (stops : List Keyword) :
    Faultless ((Reading.expr stops).run c) := by
  unfold Reading.expr
  grind

theorem faultless_typeWithin (bound : Nat) : Faultless ((typeWithin bound).run c) := by
  induction bound generalizing c with
  | zero => unfold typeWithin; grind
  | succ bound ih =>
    unfold typeWithin
    refine Faultless.seq faultless_place .any fun here c _ => ?_
    refine Faultless.seq faultless_next .any fun t c _ => ?_
    split <;> grind

@[simp, grind .] theorem faultless_dataType : Faultless (dataType.run c) := by
  unfold dataType
  grind [faultless_typeWithin]

@[simp, grind .] theorem faultless_field {rule : Rule} (h : rule ≠ .internalError) :
    Faultless ((field rule).run c) := by
  simp [field, h]

@[simp, grind .] theorem faultless_asType : Faultless (asType.run c) := by
  unfold asType
  grind

@[simp, grind .] theorem faultless_constant : Faultless (constant.run c) := by
  simp [constant]

@[simp, grind .] theorem faultless_endpoint : Faultless (endpoint.run c) := by
  unfold endpoint
  grind

@[simp, grind .] theorem faultless_channel (place : Location) : Faultless ((channel place).run c) := by
  simp [channel]

@[simp, grind .] theorem faultless_parenthesised : Faultless (parenthesised.run c) := by
  unfold parenthesised
  grind

@[simp, grind .] theorem faultless_returns : Faultless (returns.run c) := by
  simp [returns]

theorem faultless_executorsFrom (bound : Nat) : Faultless ((executorsFrom bound).run c) := by
  induction bound generalizing c with
  | zero => unfold executorsFrom; grind
  | succ bound ih =>
    unfold executorsFrom
    refine Faultless.seq (faultless_ident (by simp)) .any fun _ c _ => ?_
    refine Faultless.seq faultless_place .any fun here c _ => ?_
    refine Faultless.seq faultless_next .any fun t c _ => ?_
    cases t <;> grind

@[simp, grind .] theorem faultless_executors : Faultless (executors.run c) := by
  unfold executors
  grind [faultless_executorsFrom]

@[simp, grind .] theorem faultless_access : Faultless (access.run c) := by
  unfold access
  grind

end Reading

/-! ## Statements -/

namespace Raw

variable {line : Line} {lines : List Line} {c : Cursor}

@[simp, grind .] theorem faultless_endsAfter (n : Nat) : Faultless (line.endsAfter n) := by
  unfold Line.endsAfter
  grind

@[simp, grind =] theorem rule_notClosed (place : Location) (what : String) :
    (notClosed place what).rule = .unexpectedEndOfFile := rfl

theorem faultless_entries {α : Type} (opened : Location) (k : Keyword) {entry : Line → Checked α}
    (hentry : ∀ line, Faultless (entry line)) (lines : List Line) :
    Faultless (entries opened k entry lines) := by
  induction lines with
  | nil => unfold entries; grind
  | cons line lines ih => unfold entries; grind

@[simp, grind .] theorem faultless_nextLine (opened : Location) (what : String) :
    Faultless ((nextLine opened what).run lines) := by
  cases lines with
  | nil => simp [nextLine, StateT.run]
  | cons line lines => simp [nextLine, StateT.run]

@[simp, grind .] theorem faultless_afterWord {α : Type} {r : Reading α}
    (h : ∀ c, Faultless (r.run c)) : Faultless (afterWord line r) := by
  unfold afterWord
  exact Reading.faultless_onLine fun c => Faultless.seq Reading.faultless_next .any fun _ c _ => h c

@[simp, grind .] theorem faultless_varStmt (place : Location) :
    Faultless ((varStmt place).run c) := by
  unfold varStmt
  refine Faultless.seq (Reading.faultless_ident (by simp)) .any fun _ c _ => ?_
  refine Faultless.seq Reading.faultless_peek .any fun t c _ => ?_
  split <;> simp

@[simp, grind .] theorem faultless_returnStmt (place : Location) :
    Faultless ((returnStmt place).run c) := by
  simp [returnStmt]

@[simp, grind .] theorem faultless_assignStmt (place : Location) :
    Faultless ((assignStmt place).run c) := by
  simp [assignStmt]

@[simp, grind .] theorem faultless_ifHead : Faultless (ifHead.run c) := by
  simp [ifHead]

@[simp, grind .] theorem faultless_countHead : Faultless (countHead.run c) := by
  simp [countHead]

@[simp, grind .] theorem faultless_countEnd (name : String) :
    Faultless ((countEnd name).run c) := by
  simp [countEnd]

@[simp, grind .] theorem faultless_loopCondition (post : Bool) :
    Faultless ((loopCondition post).run c) := by
  simp [loopCondition]

@[simp, grind .] theorem faultless_loopEnd (condition : Option Condition) :
    Faultless ((loopEnd line condition).run c) := by
  simp [loopEnd]

/-- Statements up to a closing line are read without a fault. -/
def BlockReader.Faultless (block : BlockReader) : Prop :=
  ∀ opened what closes lines, Checked.Faultless ((block opened what closes).run lines)

theorem faultless_branches {block : BlockReader} (hblock : block.Faultless) (opened : Location)
    (bound : Nat) (condition : Expr) (lines : List Line) :
    Faultless ((branches block opened bound condition).run lines) := by
  induction bound generalizing condition lines with
  | zero => simp [branches]
  | succ bound ih =>
    unfold branches
    refine Faultless.seq (hblock _ _ _ _) .any fun r lines _ => ?_
    have hhead : ∀ c, Faultless (StateT.run (do
        let _ ← Reading.next
        let _ ← Reading.next
        ifHead) c) := by simp
    simp [ih, hblock _ _ _ _, Reading.faultless_onTokens hhead]

theorem faultless_stmt {block : BlockReader} (hblock : block.Faultless) (bound : Nat) :
    Faultless ((stmt block bound line).run lines) := by
  unfold stmt
  split
  · simp
  · simp
  · simp [chooseStmt, faultless_branches hblock]
  · simp [countStmt, hblock _ _ _ _]
  · simp [loopStmt, hblock _ _ _ _]
  · simp
  · simp

theorem faultless_statements (bound : Nat) : (statements bound).Faultless := by
  induction bound with
  | zero => intro opened what closes lines; simp [statements]
  | succ bound ih =>
    intro opened what closes lines
    have hstmt := fun line lines => @faultless_stmt line lines _ ih bound
    simp [statements, hstmt, ih _ _ _ _]

/-! ## Programs -/

@[simp] theorem faultless_nativeHead : Faultless (nativeHead.run c) := by
  simp [nativeHead]

@[simp] theorem faultless_userHead : Faultless (userHead.run c) := by
  have hfield (line : Line) (piece : List Token) :
      Faultless (Reading.onTokens line piece (Reading.field .expectedArgument)) :=
    Reading.faultless_onTokens fun _ => Reading.faultless_field (by simp)
  simp [userHead, hfield]

@[simp] theorem faultless_freshFunction (taken : List Function) (f : Function) :
    Faultless (freshFunction taken f) := by
  unfold freshFunction
  grind

@[simp] theorem faultless_function (bound : Nat) :
    Faultless ((function bound line).run lines) := by
  simp [function, faultless_statements bound _ _ _ _]

theorem faultless_blockFunctions (opened : Location) (bound : Nat) (found : List Function)
    (lines : List Line) : Faultless ((blockFunctions opened bound found).run lines) := by
  induction bound generalizing found lines with
  | zero => simp [blockFunctions]
  | succ bound ih => simp [blockFunctions, ih]

@[simp] theorem faultless_codeBlock (bound : Nat) (executors : List String) :
    Faultless ((codeBlock bound line executors).run lines) := by
  simp [codeBlock, faultless_blockFunctions]

@[simp] theorem faultless_fieldSection (opened : Location) (k : Keyword) :
    Faultless ((fieldSection opened k).run lines) :=
  faultless_entries _ _ (by simp [fieldLine]) _

@[simp] theorem faultless_constants (opened : Location) :
    Faultless (StateT.run (entries opened .CONST constantLine) lines) :=
  faultless_entries _ _ (by simp [constantLine]) _

@[simp] theorem faultless_channels (opened : Location) :
    Faultless (StateT.run (entries opened .TRANSMISSION channelLine) lines) :=
  faultless_entries _ _ (by simp [channelLine]) _

@[simp] theorem faultless_dataSet : Faultless ((dataSet line).run lines) := by
  simp [dataSet]

@[simp] theorem faultless_modulePart (bound : Nat) (m : Module) :
    Faultless ((modulePart bound m line).run lines) := by
  simp [modulePart]

theorem faultless_moduleParts (opened : Location) (bound : Nat) (m : Module)
    (lines : List Line) : Faultless ((moduleParts opened bound m).run lines) := by
  induction bound generalizing m lines with
  | zero => simp [moduleParts]
  | succ bound ih => simp [moduleParts, ih]

@[simp] theorem faultless_moduleHead : Faultless (moduleHead.run c) := by
  simp [moduleHead]

@[simp] theorem faultless_insertModule (m : Module) (ms : List Module) :
    Faultless (insertModule m ms) := by
  induction ms with
  | nil => simp [insertModule]
  | cons n rest ih => unfold insertModule; grind

@[simp] theorem faultless_struct : Faultless ((struct line).run lines) := by
  simp [struct, structHead]

theorem faultless_programPart (bound : Nat) (p : Program) :
    Faultless ((programPart bound p line).run lines) := by
  simp [programPart, faultless_moduleParts]

theorem faultless_programParts (bound : Nat) (p : Program) (lines : List Line) :
    Faultless ((programParts bound p).run lines) := by
  induction bound generalizing p lines with
  | zero => simp [programParts]
  | succ bound ih =>
    unfold programParts
    cases lines <;> simp [ih, faultless_programPart]

/-- **Lines that are no program are refused by a rule of the language.** -/
theorem faultless_ofLines (lines : List Line) : Faultless (Program.ofLines lines) := by
  simp [Program.ofLines, faultless_programParts]

end Raw

end ChannelBasic
