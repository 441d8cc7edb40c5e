import Mathlib.Data.List.TakeWhile
import ChannelBasic.Proofs.Passes
import ChannelBasic.Proofs.Token.Words
import ChannelBasic.Source.Line

/-!
# Proofs/Token/Display — a line that is written back is read as the same line

The lexer makes no word that it could not read again: a name is no reserved word, a number has
digits, a real number has them on both sides of its point.  Such words are `Readable`, and so is
everything that parentheses make of them (`Line.readable_read`).  Between parentheses a blank goes
before every token but the first one and the commas, so a word is followed by a blank, a comma, a
closing parenthesis or nothing, and none of these can be part of it.

**The text of a line that was read is a line with the same tokens** (`Line.read_render_of_read`).
-/

namespace ChannelBasic

open Lexer

/-! ## Words that can be read again -/

/-- A word that is written as it would be read. -/
inductive Lexeme.Readable : Lexeme → Prop where
  | keyword (k : Keyword) : Readable (.keyword k)
  | symbol (s : Symbol) : Readable (.symbol s)
  | ident {n : String} (h : IsName n) : Readable (.ident n)
  | integer {c : Char} {cs : List Char} (hc : c.isDigit = true)
      (hcs : ∀ d ∈ cs, d.isDigit = true) : Readable (.integer (String.ofList (c :: cs)))
  | binary {cs : List Char} (hne : cs ≠ []) (hcs : ∀ d ∈ cs, isBit d = true) :
      Readable (.binary (String.ofList cs))
  | real {c : Char} {cs ds : List Char} (hc : c.isDigit = true)
      (hcs : ∀ d ∈ cs, d.isDigit = true) (hne : ds ≠ []) (hds : ∀ d ∈ ds, d.isDigit = true) :
      Readable (.real (String.ofList (c :: cs ++ '.' :: ds)))
  | text (s : String) : Readable (.text s)
  | comma : Readable .comma
  | dot : Readable .dot

/-- A token all words of which can be read again. -/
inductive Token.Readable : Token → Prop where
  | leaf {span : Span} {word : Lexeme} (h : word.Readable) : Readable (.leaf span word)
  | group {span : Span} {inner : List Token} (h : ∀ t ∈ inner, Readable t) :
      Readable (.group span inner)

namespace Lexer

/-- A parenthesis, or a word that can be read again. -/
def Flat.Readable : Flat → Prop
  | .word lexeme => lexeme.Readable
  | .opening | .closing => True

variable {c : Char} {cs : List Char} {word : Flat} {more : Nat}

theorem all_takeWhile {p : Char → Bool} : ∀ d ∈ cs.takeWhile p, p d = true :=
  fun _ hd => List.mem_takeWhile_imp hd

theorem eq_of_number {lexeme : Lexeme} {used : Nat}
    (h : number c cs lexeme used = .ok (word, more)) : word = .word lexeme := by
  unfold number at h
  split at h
  · cases h
    rfl
  · cases h

theorem readable_scanBinary (h : scanBinary c cs = .ok (word, more)) : word.Readable := by
  unfold scanBinary at h
  dsimp only at h
  split at h
  next => cases h
  next hbits =>
    obtain rfl := eq_of_number h
    exact Lexeme.Readable.binary (by simpa using hbits) all_takeWhile

theorem readable_scanDecimal (hc : c.isDigit = true) (h : scanDecimal c cs = .ok (word, more)) :
    word.Readable := by
  unfold scanDecimal at h
  dsimp only at h
  split at h
  next d rest _ =>
    split at h
    next hd =>
      obtain rfl := eq_of_number h
      refine Lexeme.Readable.real hc all_takeWhile (List.cons_ne_nil _ _) ?_
      exact List.forall_mem_cons.2 ⟨hd, all_takeWhile⟩
    next => cases h
  next => cases h
  next =>
    obtain rfl := eq_of_number h
    exact Lexeme.Readable.integer hc all_takeWhile

theorem readable_scanName (hc : isLetter c = true) (h : scanName c cs = .ok (word, more)) :
    word.Readable := by
  unfold scanName at h
  dsimp only at h
  split at h
  next k _ =>
    cases h
    exact Lexeme.Readable.keyword k
  next hfree =>
    cases h
    exact Lexeme.Readable.ident ⟨⟨c, _, String.toList_ofList, hc, all_takeWhile⟩, hfree⟩

theorem readable_scanText (h : scanText cs = .ok (word, more)) : word.Readable := by
  unfold scanText at h
  split at h
  · cases h
    exact Lexeme.Readable.text _
  · cases h

theorem readable_scanSymbol (h : scanSymbol c cs = .ok (word, more)) : word.Readable := by
  unfold scanSymbol at h
  dsimp only at h
  split at h
  · cases h
    exact Lexeme.Readable.symbol _
  · cases h

/-- **The lexer makes no word that it could not read again.** -/
theorem readable_scan (h : scan c cs = .ok (word, more)) : word.Readable := by
  unfold scan scanNumber at h
  grind [readable_scanBinary, readable_scanDecimal, readable_scanName, readable_scanText,
    readable_scanSymbol, Flat.Readable, Lexeme.Readable]

variable {file : String} {line column : Nat} {words : List (Span × Flat)}

theorem readable_flat (h : flat file line column cs = .ok words) :
    ∀ w ∈ words, w.2.Readable := by
  fun_induction flat file line column cs generalizing words with
  | case1 => cases h; simp
  | case2 column c cs hc ih => exact ih h
  | case3 => cases h; simp
  | case4 | case5 => cases h
  | case6 column c cs hc hcomment word more hscan rest hrest ih =>
    cases h
    exact List.forall_mem_cons.2 ⟨readable_scan hscan, ih hrest⟩

/-- Pairing the parentheses of readable words makes readable tokens; the tokens that still wait for
a closing parenthesis are the invariant. -/
theorem readable_pairing {outer : List (Nat × List Token)} {inner ts : List Token}
    (hwords : ∀ w ∈ words, w.2.Readable) (houter : ∀ o ∈ outer, ∀ t ∈ o.2, t.Readable)
    (hinner : ∀ t ∈ inner, t.Readable) (h : group file line outer inner words = .ok ts) :
    ∀ t ∈ ts, t.Readable := by
  fun_induction group file line outer inner words with
  | case1 inner =>
    cases h
    exact fun t ht => hinner t (List.mem_reverse.1 ht)
  | case2 | case5 => cases h
  | case3 outer inner span word rest ih =>
    obtain ⟨hword, hrest⟩ := List.forall_mem_cons.1 hwords
    exact ih hrest houter (List.forall_mem_cons.2 ⟨.leaf hword, hinner⟩) h
  | case4 outer inner span rest ih =>
    exact ih (List.forall_mem_cons.1 hwords).2 (List.forall_mem_cons.2 ⟨hinner, houter⟩) (by simp) h
  | case6 inner span rest start before outer ih =>
    obtain ⟨hbefore, houter⟩ := List.forall_mem_cons.1 houter
    refine ih (List.forall_mem_cons.1 hwords).2 houter (List.forall_mem_cons.2 ⟨?_, hbefore⟩) h
    exact .group fun t ht => hinner t (List.mem_reverse.1 ht)

end Lexer

/-- Every token of a line that was read can be read again. -/
theorem Line.readable_read {file text : String} {number : Nat} {l : Line}
    (h : Line.read file number text = .ok l) : ∀ t ∈ l.tokens, t.Readable := by
  obtain ⟨ts, hts, h⟩ := Checked.bind_eq_ok.1 h
  obtain rfl := Checked.pure_eq_ok.1 h
  obtain ⟨words, hwords, hgroup⟩ := Checked.bind_eq_ok.1 hts
  exact readable_pairing (readable_flat hwords) (by simp) (by simp) hgroup

/-! ## Tokens that are written back -/

namespace Token

variable {c : Char} {t : Token} {ts : List Token}

/-- What stands after a token that is written back. -/
def Delimits (c : Char) : Prop := c = ' ' ∨ c = ',' ∨ c = ')'

theorem Delimits.closesNumber (h : Delimits c) : ClosesNumber c := by
  unfold ClosesNumber
  rcases h with rfl | rfl | rfl <;> decide

theorem Delimits.not_isSymbolChar (h : Delimits c) : isSymbolChar c = false := by
  rcases h with rfl | rfl | rfl <;> decide

theorem Delimits.ne_quote (h : Delimits c) : c ≠ '"' := by
  rcases h with rfl | rfl | rfl <;> decide

theorem spells_lexeme {word : Lexeme} (h : word.Readable) :
    Spells Delimits word.chars [.leaf default word] := by
  cases h with
  | keyword k => exact (Spells.keyword k).mono fun _ hd => hd.closesNumber.1
  | symbol s => exact (Spells.symbol s).mono fun _ hd => hd.not_isSymbolChar
  | ident h => exact (Spells.name h).mono fun _ hd => hd.closesNumber.1
  | integer hc hcs =>
    simpa [Lexeme.chars] using (Spells.integer hc hcs).mono fun _ hd => hd.closesNumber
  | binary hne hcs =>
    simpa [Lexeme.chars] using (Spells.binary hne hcs).mono fun _ hd => hd.closesNumber
  | real hc hcs hne hds =>
    simpa [Lexeme.chars] using (Spells.real hc hcs hne hds).mono fun _ hd => hd.closesNumber
  | text s => exact (Spells.text s).mono fun _ hd => hd.ne_quote
  | comma => exact Spells.comma.mono fun _ _ => trivial
  | dot => exact Spells.dot.mono fun _ _ => trivial

/-- Tokens after the first one of their parentheses start with a blank or a comma. -/
theorem innerChars_false_cons (t : Token) (ts : List Token) :
    ∃ d ds, innerChars false (t :: ts) = d :: ds ∧ Delimits d := by
  by_cases ht : t.isComma = true
  · refine ⟨',', innerChars false ts, ?_, .inr (.inl rfl)⟩
    match t, ht with
    | .leaf _ .comma, _ => rfl
  · exact ⟨' ', t.chars ++ innerChars false ts, by simp [innerChars, ht], .inl rfl⟩

/-- Tokens between parentheses spell themselves if each of them does. -/
theorem spells_innerChars (h : ∀ t ∈ ts, Spells Delimits t.chars [t.bare]) (first : Bool) :
    Spells Delimits (innerChars first ts) (bareAll ts) := by
  induction ts generalizing first with
  | nil => exact .nil
  | cons t ts ih =>
    obtain ⟨ht, hts⟩ := List.forall_mem_cons.1 h
    have hhead : Spells Delimits ((if first || t.isComma then [] else [' ']) ++ t.chars) [t.bare] := by
      split
      · exact ht
      · exact ht.blank
    cases ts with
    | nil => simpa [innerChars, bareAll] using hhead
    | cons u us =>
      obtain ⟨d, ds, heq, hd⟩ := innerChars_false_cons u us
      have htail := ih hts false
      rw [heq] at htail
      rw [innerChars, heq]
      exact hhead.append htail hd

/-- **A token that can be read again spells itself.** -/
theorem Readable.spells (h : t.Readable) : Spells Delimits t.chars [t.bare] := by
  induction h with
  | leaf h => exact spells_lexeme h
  | group _ ih => exact (spells_innerChars ih true).group (.inr (.inr rfl))

/-- Tokens with a blank between each two spell themselves. -/
theorem spells_intercalate (h : ∀ t ∈ ts, t.Readable) :
    Spells Delimits ([' '].intercalate (ts.map chars)) (bareAll ts) := by
  induction ts with
  | nil => exact .nil
  | cons t ts ih =>
    obtain ⟨ht, hts⟩ := List.forall_mem_cons.1 h
    cases ts with
    | nil => simpa [List.intercalate, bareAll] using ht.spells
    | cons u us => exact ht.spells.append (ih hts).blank (.inl rfl)

end Token

/-! ## Lines that are written back -/

/-- **The text of a line that was read is a line with the same tokens**, wherever it is read. -/
theorem Line.read_render_of_read {file text : String} {number : Nat} {l : Line}
    (h : Line.read file number text = .ok l) (file' : String) (number' : Nat) :
    ∃ l', Line.read file' number' l.render = .ok l' ∧
      Token.bareAll l'.tokens = Token.bareAll l.tokens := by
  obtain ⟨ts, hts, hlex⟩ := (Token.spells_intercalate (Line.readable_read h)).lex file' number'
  refine ⟨⟨file', number', ts⟩, ?_, hts⟩
  rw [Line.read, Line.render, Line.chars, hlex]
  rfl

theorem Line.read_render_of_read_nested : ∃ l l',
    Line.read "a.bas" 1 "F(X,(1.5 , \"\"\"\"))<>0b1 ' F" = .ok l ∧
      l.render = "F (X, (1.5, \"\"\"\")) <> 0b1" ∧ Line.read "b.bas" 2 l.render = .ok l' ∧
      Token.bareAll l'.tokens = Token.bareAll l.tokens := by
  have hread := Checked.eq_ok (x := Line.read "a.bas" 1 "F(X,(1.5 , \"\"\"\"))<>0b1 ' F")
    (by decide +kernel)
  obtain ⟨l', hl', htokens⟩ := Line.read_render_of_read hread "b.bas" 2
  exact ⟨_, l', hread, by decide +kernel, hl', htokens⟩

end ChannelBasic
