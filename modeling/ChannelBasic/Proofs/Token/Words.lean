import ChannelBasic.Token.Lexer

/-!
# Proofs/Token/Words — written words are read as they were meant

A word is read to its end if what follows it cannot be part of it.  `Spells follow cs tokens` says
that some characters are read as some tokens wherever they stand, as long as a character that
`follow` allows comes next; there is one lemma for each kind of word and one for each way of putting
texts together.  **A text that spells tokens is a line with these tokens** (`Spells.lex`).
-/

namespace ChannelBasic

/-! ## Tokens without their columns -/

namespace Token

mutual

/-- A token that does not say where it stands. -/
def bare : Token → Token
  | .leaf _ word => .leaf default word
  | .group _ inner => .group default (bareAll inner)

/-- Tokens that do not say where they stand. -/
def bareAll : List Token → List Token
  | [] => []
  | t :: rest => t.bare :: bareAll rest

end

mutual

/-- The words of a token, with their columns. -/
def words : Token → List (Span × Lexer.Flat)
  | .leaf span word => [(span, .word word)]
  | .group span inner =>
    (⟨span.start, span.start + 1⟩, .opening) :: wordsAll inner ++
      [(⟨span.stop - 1, span.stop⟩, .closing)]

/-- The words of some tokens. -/
def wordsAll : List Token → List (Span × Lexer.Flat)
  | [] => []
  | t :: rest => t.words ++ wordsAll rest

end

variable {t : Token} {ts us vs : List Token}

@[simp] theorem bareAll_append (ts us : List Token) :
    bareAll (ts ++ us) = bareAll ts ++ bareAll us := by
  induction ts with
  | nil => rfl
  | cons t ts ih => simp [bareAll, ih]

@[simp] theorem wordsAll_append (ts us : List Token) :
    wordsAll (ts ++ us) = wordsAll ts ++ wordsAll us := by
  induction ts with
  | nil => rfl
  | cons t ts ih => simp [wordsAll, ih]

theorem bare_eq_leaf {span : Span} {word : Lexeme} (h : t.bare = .leaf span word) :
    ∃ span, t = .leaf span word := by
  cases t with
  | leaf span' word' =>
    simp only [bare, Token.leaf.injEq] at h
    exact ⟨span', by rw [h.2]⟩
  | group => cases h

theorem bare_eq_group {span : Span} (h : t.bare = .group span us) :
    ∃ span ts, t = .group span ts ∧ bareAll ts = us := by
  cases t with
  | leaf => cases h
  | group span' ts =>
    simp only [bare, Token.group.injEq] at h
    exact ⟨span', ts, rfl, h.2⟩

theorem bareAll_eq_nil (h : bareAll ts = []) : ts = [] := by
  cases ts with
  | nil => rfl
  | cons => cases h

theorem bareAll_eq_cons {u : Token} (h : bareAll ts = u :: us) :
    ∃ t ts', ts = t :: ts' ∧ t.bare = u ∧ bareAll ts' = us := by
  cases ts with
  | nil => cases h
  | cons t ts =>
    obtain ⟨rfl, rfl⟩ := List.cons.inj h
    exact ⟨t, ts, rfl, rfl, rfl⟩

theorem bareAll_eq_append (h : bareAll ts = us ++ vs) :
    ∃ ts₁ ts₂, ts = ts₁ ++ ts₂ ∧ bareAll ts₁ = us ∧ bareAll ts₂ = vs := by
  induction us generalizing ts with
  | nil => exact ⟨[], ts, rfl, rfl, h⟩
  | cons u us ih =>
    rw [List.cons_append] at h
    obtain ⟨t, ts, rfl, rfl, htail⟩ := bareAll_eq_cons h
    obtain ⟨ts₁, ts₂, rfl, rfl, hvs⟩ := ih htail
    exact ⟨t :: ts₁, ts₂, rfl, rfl, hvs⟩

theorem bareAll_eq_leaf {span : Span} {word : Lexeme} (h : bareAll ts = [.leaf span word]) :
    ∃ span, ts = [.leaf span word] := by
  obtain ⟨t, rest, rfl, ht, hrest⟩ := bareAll_eq_cons h
  obtain ⟨span, rfl⟩ := bare_eq_leaf ht
  exact ⟨span, by rw [bareAll_eq_nil hrest]⟩

end Token

namespace Lexer

/-! ## Characters -/

variable {c d : Char} {cs ds rest : List Char}

/-- A character that starts a word: no blank, and not the one that starts a comment. -/
def IsVisible (c : Char) : Prop := isBlank c = false ∧ c ≠ '\''

theorem isVisible_of {p : Char → Bool} (h : p c = true)
    (hp : [' ', '\t', '\r', '\n', '\''].any p = false) : IsVisible c := by
  have hne (d : Char) (hd : d ∈ [' ', '\t', '\r', '\n', '\'']) : c ≠ d := by
    rintro rfl
    exact List.any_eq_false.1 hp c hd h
  exact ⟨by simp [isBlank, hne], hne _ (by simp)⟩

theorem isDigit_of_isLetter (h : isLetter c = true) : c.isDigit = false := by
  unfold isLetter Char.isAlpha Char.isUpper Char.isLower at h
  unfold Char.isDigit
  simp only [ge_iff_le, Bool.or_eq_true, Bool.and_eq_true, decide_eq_true_eq, beq_iff_eq,
    Bool.and_eq_false_imp, decide_eq_false_iff_not] at *
  intro hlow hhigh
  obtain h | rfl := h
  · simp only [UInt32.le_iff_toNat_le] at *
    simp at *
    omega
  · exact absurd hhigh (by decide)

/-- A character that is in a sign starts nothing but a sign. -/
theorem of_isSymbolChar (h : isSymbolChar c = true) :
    IsVisible c ∧ c.isDigit = false ∧ isLetter c = false ∧ c ∉ ['"', '(', ')', ',', '.'] := by
  refine ⟨isVisible_of h (by decide), ?_⟩
  unfold isSymbolChar at h
  rw [List.contains_iff_mem] at h
  simp only [List.mem_cons, List.not_mem_nil, or_false] at h
  rcases h with rfl | rfl | rfl | rfl | rfl | rfl | rfl | rfl | rfl | rfl | rfl | rfl <;> decide

/-! ## One word -/

/-- The characters of a word, and no more, are taken from a text. -/
theorem takeWhile_word {p : Char → Bool} (h : ∀ d ∈ cs, p d = true)
    (hrest : ∀ d ∈ rest.head?, p d = false) : (cs ++ rest).takeWhile p = cs := by
  rw [List.takeWhile_append_of_pos h]
  cases rest with
  | nil => simp
  | cons d rest => simp [hrest d rfl]

/-- A name: a letter, then letters and digits, and no reserved word. -/
structure IsName (n : String) : Prop where
  letters : ∃ c cs, n.toList = c :: cs ∧ isLetter c = true ∧ ∀ d ∈ cs, isNameChar d = true
  free : Keyword.ofString? n = none

theorem scan_letter (hc : isLetter c = true) (hcs : ∀ d ∈ cs, isNameChar d = true)
    (hrest : ∀ d ∈ rest.head?, isNameChar d = false) :
    scan c (cs ++ rest) = .ok (.word
      (((Keyword.ofString? (String.ofList (c :: cs))).map .keyword).getD
        (.ident (String.ofList (c :: cs)))), cs.length) := by
  rw [scan, if_neg (by simp [isDigit_of_isLetter hc]), if_pos hc, scanName,
    takeWhile_word hcs hrest]
  cases Keyword.ofString? (String.ofList (c :: cs)) <;> rfl

/-- What may follow a number. -/
def ClosesNumber (c : Char) : Prop := isNameChar c = false ∧ c ≠ '.'

theorem isDigit_of_closes (h : ClosesNumber c) : c.isDigit = false := by
  have hname := h.1
  simp only [isNameChar, Bool.or_eq_false_iff] at hname
  exact hname.2

theorem endsNumber_of_closes (h : ∀ d ∈ rest.head?, ClosesNumber d) : endsNumber rest = true := by
  cases rest with
  | nil => rfl
  | cons d rest => simp [endsNumber, (h d rfl).1, (h d rfl).2]

/-- The digits of a whole number are no binary number. -/
theorem scan_digit (hc : c.isDigit = true) (hds : ∀ d ∈ ds.head?, d ≠ 'b') :
    scan c ds = scanDecimal c ds := by
  rw [scan, if_pos hc, scanNumber, if_neg]
  cases ds with
  | nil => simp
  | cons d ds => simp [hds d rfl]

theorem ne_b_of_isDigit (hd : d.isDigit = true) : d ≠ 'b' := by
  rintro rfl
  exact absurd hd (by decide)

theorem scan_integer (hc : c.isDigit = true) (hcs : ∀ d ∈ cs, d.isDigit = true)
    (hrest : ∀ d ∈ rest.head?, ClosesNumber d) :
    scan c (cs ++ rest) = .ok (.word (.integer (String.ofList (c :: cs))), cs.length) := by
  have hdigit : ∀ d ∈ rest.head?, d.isDigit = false := fun d hd => isDigit_of_closes (hrest d hd)
  have hb : ∀ d ∈ (cs ++ rest).head?, d ≠ 'b' := by
    cases cs with
    | cons d cs => exact fun e he => Option.some.inj he ▸ ne_b_of_isDigit (hcs d (by simp))
    | nil =>
      rintro d hd rfl
      exact absurd (hrest 'b' hd).1 (by decide)
  rw [scan_digit hc hb, scanDecimal]
  dsimp only
  rw [takeWhile_word hcs hdigit, List.drop_left]
  cases rest with
  | nil => simp [number, endsNumber]
  | cons d rest =>
    split
    next h => exact absurd (List.cons.inj h).1 (hrest d rfl).2
    next h => exact absurd (List.cons.inj h).1 (hrest d rfl).2
    next => rw [number, List.drop_left, if_pos (endsNumber_of_closes hrest)]

theorem scan_real (hc : c.isDigit = true) (hcs : ∀ d ∈ cs, d.isDigit = true) (hds : ds ≠ [])
    (hdigits : ∀ d ∈ ds, d.isDigit = true) (hrest : ∀ d ∈ rest.head?, ClosesNumber d) :
    scan c (cs ++ '.' :: ds ++ rest) =
      .ok (.word (.real (String.ofList (c :: cs ++ '.' :: ds))), (cs ++ '.' :: ds).length) := by
  obtain ⟨d, ds, rfl⟩ := List.exists_cons_of_ne_nil hds
  have hb : ∀ e ∈ (cs ++ ('.' :: d :: ds ++ rest)).head?, e ≠ 'b' := by
    cases cs with
    | cons e cs => exact fun e' he => Option.some.inj he ▸ ne_b_of_isDigit (hcs e (by simp))
    | nil => exact fun e he => Option.some.inj he ▸ by decide
  have hdot : ∀ e ∈ ('.' :: d :: ds ++ rest).head?, e.isDigit = false :=
    fun e he => Option.some.inj he ▸ by decide
  have hplaces : (ds ++ rest).takeWhile Char.isDigit = ds :=
    takeWhile_word (fun e he => hdigits e (by simp [he])) fun e he => isDigit_of_closes (hrest e he)
  have hd : d.isDigit = true := hdigits d (by simp)
  rw [List.append_assoc, scan_digit hc hb, scanDecimal]
  dsimp only
  rw [takeWhile_word hcs hdot, List.drop_left]
  simp only [List.cons_append, hd, hplaces, if_true]
  have hdrop : (cs ++ '.' :: d :: (ds ++ rest)).drop (cs.length + 1 + (d :: ds).length) = rest := by
    rw [← List.cons_append, ← List.cons_append, ← List.append_assoc]
    exact List.drop_left' (by simp; omega)
  rw [number, hdrop, if_pos (endsNumber_of_closes hrest)]
  simp
  omega

theorem scan_binary (hne : cs ≠ []) (hcs : ∀ d ∈ cs, isBit d = true)
    (hrest : ∀ d ∈ rest.head?, ClosesNumber d) :
    scan '0' ('b' :: cs ++ rest) = .ok (.word (.binary (String.ofList cs)), ('b' :: cs).length) := by
  have hbit : ∀ d ∈ rest.head?, isBit d = false := by
    intro d hd
    have hdigit := isDigit_of_closes (hrest d hd)
    rw [isBit, Bool.or_eq_false_iff, beq_eq_false_iff_ne, beq_eq_false_iff_ne]
    constructor <;> rintro rfl <;> exact absurd hdigit (by decide)
  have hempty : cs.isEmpty = false := by simpa using hne
  rw [scan, if_pos (by decide), scanNumber, if_pos (by simp), scanBinary, List.cons_append, List.drop_one, List.tail_cons, takeWhile_word hcs hbit, hempty,
    if_neg (by simp), number, Nat.add_comm 1, List.drop_succ_cons, List.drop_left,
    if_pos (endsNumber_of_closes hrest), List.length_cons]

theorem quotedPart_doubleQuotes (h : ∀ d ∈ rest.head?, d ≠ '"') (cs : List Char) :
    quotedPart (Text.doubleQuotes cs ++ '"' :: rest) =
      some (cs, (Text.doubleQuotes cs).length + 1) := by
  induction cs with
  | nil =>
    cases rest with
    | nil => rfl
    | cons d rest => 
      rw [Text.doubleQuotes, List.nil_append, quotedPart]
      · rfl
      · exact fun r hr => h d rfl (List.cons.inj hr).1
  | cons c cs ih =>
    by_cases hc : c = '"'
    · subst hc
      simp [Text.doubleQuotes, quotedPart, ih]
    · rw [Text.doubleQuotes, List.cons_append, quotedPart, ih]
      · rfl
      all_goals simp [hc]

theorem scan_symbol (s : Symbol) (hs : s.spelling.toList = c :: cs)
    (hrest : ∀ d ∈ rest.head?, isSymbolChar d = false) :
    scan c (cs ++ rest) = .ok (.word (.symbol s), cs.length) := by
  have hall : ∀ d ∈ c :: cs, isSymbolChar d = true := by
    rw [← hs, ← List.all_eq_true]
    cases s <;> decide
  have hspelled : Symbol.ofChars? (c :: cs) = some s := by
    rw [← hs]
    cases s <;> decide
  obtain ⟨-, hdigit, hletter, hother⟩ := of_isSymbolChar (hall c (by simp))
  simp only [List.mem_cons, List.not_mem_nil, or_false, not_or] at hother
  have hrun : (cs ++ rest).takeWhile isSymbolChar = cs :=
    takeWhile_word (fun d hd => hall d (by simp [hd])) hrest
  simp only [scan, hdigit, hletter, hother, hall c (by simp), beq_iff_eq, Bool.false_eq_true, if_true, if_false]
  rw [scanSymbol, hrun, List.length_cons, longestSymbol, List.take_of_length_le (by simp), hspelled]

/-! ## Texts that are read as tokens -/

/-- Characters that are read as some tokens wherever they stand, if what follows them allows it. -/
def Spells (follow : Char → Prop) (cs : List Char) (tokens : List Token) : Prop :=
  ∀ (file : String) (line column : Nat) (rest : List Char) (words : List (Span × Flat)),
    (∀ c ∈ rest.head?, follow c) → flat file line (column + cs.length) rest = .ok words →
    ∃ ts, Token.bareAll ts = tokens ∧
      flat file line column (cs ++ rest) = .ok (Token.wordsAll ts ++ words)

/-- A word is read, and then what follows it. -/
theorem flat_word {file : String} {line column : Nat} {word : Flat} {words : List (Span × Flat)}
    (hc : IsVisible c) (hscan : scan c (cs ++ rest) = .ok (word, cs.length))
    (h : flat file line (column + 1 + cs.length) rest = .ok words) :
    flat file line column (c :: (cs ++ rest)) =
      .ok ((⟨column, column + 1 + cs.length⟩, word) :: words) := by
  rw [flat, if_neg (by simp [hc.1]), if_neg (by simpa using hc.2), hscan]
  dsimp only
  rw [List.drop_left, h]

theorem flat_sign {file : String} {line column : Nat} {word : Flat} {words : List (Span × Flat)}
    (hc : IsVisible c) (hscan : scan c rest = .ok (word, 0))
    (h : flat file line (column + 1) rest = .ok words) :
    flat file line column (c :: rest) = .ok ((⟨column, column + 1⟩, word) :: words) := by
  exact @flat_word c [] rest file line column word words hc hscan h

namespace Spells

variable {follow next : Char → Prop} {ts us : List Token}

theorem nil : Spells follow [] [] := fun _ _ _ _ _ _ h => ⟨[], rfl, h⟩

theorem mono (h : Spells follow cs ts) (himp : ∀ c, next c → follow c) : Spells next cs ts :=
  fun file line column rest words hrest => h file line column rest words fun c hc =>
    himp c (hrest c hc)

/-- A word that is scanned to its end. -/
theorem word {word : Lexeme} (hc : IsVisible c) (h : ∀ rest : List Char,
    (∀ d ∈ rest.head?, follow d) → scan c (cs ++ rest) = .ok (.word word, cs.length)) :
    Spells follow (c :: cs) [.leaf default word] := by
  intro file line column rest words hrest hwords
  rw [List.length_cons, Nat.add_comm cs.length, ← Nat.add_assoc] at hwords
  exact ⟨[.leaf _ word], rfl, flat_word hc (h rest hrest) hwords⟩

/-- One text after another, the second starting with a character that may follow the first. -/
theorem append (h : Spells follow cs ts) (h' : Spells next (d :: ds) us) (hd : follow d) :
    Spells next (cs ++ d :: ds) (ts ++ us) := by
  intro file line column rest words hrest hwords
  rw [List.length_append, ← Nat.add_assoc] at hwords
  obtain ⟨us, rfl, hus⟩ := h' file line _ rest words hrest hwords
  obtain ⟨ts, rfl, hts⟩ := h file line column (d :: ds ++ rest) _
    (fun c hc => Option.some.inj hc ▸ hd) hus
  refine ⟨ts ++ us, Token.bareAll_append ts us, ?_⟩
  rw [List.append_assoc, hts, Token.wordsAll_append, List.append_assoc]

/-- A blank stands for nothing. -/
theorem blank (h : Spells follow cs ts) : Spells follow (' ' :: cs) ts := by
  intro file line column rest words hrest hwords
  rw [List.length_cons, Nat.add_comm cs.length, ← Nat.add_assoc] at hwords
  obtain ⟨ts, rfl, hts⟩ := h file line (column + 1) rest words hrest hwords
  refine ⟨ts, rfl, ?_⟩
  rw [List.cons_append, flat, if_pos (by decide), hts]

/-- Tokens between parentheses. -/
theorem group (h : Spells follow cs ts) (hclose : follow ')') :
    Spells next ('(' :: cs ++ [')']) [.group default ts] := by
  intro file line column rest words _ hwords
  have hclosing : flat file line (column + 1 + cs.length) (')' :: rest) =
      .ok ((⟨column + 1 + cs.length, column + 1 + cs.length + 1⟩, .closing) :: words) := by
    refine flat_sign (by unfold IsVisible; decide) rfl ?_
    rw [← hwords]
    congr 1
    simp
    omega
  obtain ⟨ts, rfl, hts⟩ := h file line (column + 1) (')' :: rest) _
    (fun c hc => Option.some.inj hc ▸ hclose) hclosing
  refine ⟨[.group ⟨column, column + 1 + cs.length + 1⟩ ts], rfl, ?_⟩
  have hopening := flat_sign (c := '(') (by unfold IsVisible; decide) rfl hts
  simpa [Token.wordsAll, Token.words] using hopening

/-! ### Words -/

theorem name {n : String} (h : IsName n) :
    Spells (isNameChar · = false) n.toList [.leaf default (.ident n)] := by
  obtain ⟨c, cs, hn, hc, hcs⟩ := h.letters
  have hname : String.ofList (c :: cs) = n := by rw [← hn, String.ofList_toList]
  rw [hn]
  refine word (isVisible_of hc (by decide)) fun rest hrest => ?_
  rw [scan_letter hc hcs hrest, hname, h.free]
  rfl

theorem keyword (k : Keyword) :
    Spells (isNameChar · = false) k.spelling.toList [.leaf default (.keyword k)] := by
  obtain ⟨c, cs, hk, hc, hcs⟩ : ∃ c cs, k.spelling.toList = c :: cs ∧ isLetter c = true ∧
      ∀ d ∈ cs, isNameChar d = true := by
    cases k <;> exact ⟨_, _, rfl, by decide, List.all_eq_true.1 (by decide)⟩
  have hfound : Keyword.ofString? (String.ofList (c :: cs)) = some k := by
    rw [← hk, String.ofList_toList]
    cases k <;> decide
  rw [hk]
  refine word (isVisible_of hc (by decide)) fun rest hrest => ?_
  rw [scan_letter hc hcs hrest, hfound]
  rfl

theorem symbol (s : Symbol) :
    Spells (isSymbolChar · = false) s.spelling.toList [.leaf default (.symbol s)] := by
  obtain ⟨c, cs, hs, hc⟩ : ∃ c cs, s.spelling.toList = c :: cs ∧ isSymbolChar c = true := by
    cases s <;> exact ⟨_, _, rfl, by decide⟩
  rw [hs]
  exact word (of_isSymbolChar hc).1 fun rest hrest => scan_symbol s hs hrest

theorem integer (hc : c.isDigit = true) (hcs : ∀ d ∈ cs, d.isDigit = true) :
    Spells ClosesNumber (c :: cs) [.leaf default (.integer (String.ofList (c :: cs)))] :=
  word (isVisible_of hc (by decide)) fun _ hrest => scan_integer hc hcs hrest

theorem real (hc : c.isDigit = true) (hcs : ∀ d ∈ cs, d.isDigit = true) (hds : ds ≠ [])
    (hdigits : ∀ d ∈ ds, d.isDigit = true) :
    Spells ClosesNumber (c :: (cs ++ '.' :: ds))
      [.leaf default (.real (String.ofList (c :: cs ++ '.' :: ds)))] :=
  word (isVisible_of hc (by decide)) fun _ hrest => scan_real hc hcs hds hdigits hrest

theorem binary (hne : cs ≠ []) (hcs : ∀ d ∈ cs, isBit d = true) :
    Spells ClosesNumber ('0' :: 'b' :: cs) [.leaf default (.binary (String.ofList cs))] :=
  word (isVisible_of (p := Char.isDigit) (by decide) (by decide)) fun _ hrest =>
    scan_binary hne hcs hrest

theorem text (s : String) : Spells (· ≠ '"') (Text.quoted s) [.leaf default (.text s)] := by
  refine word (by unfold IsVisible; decide) fun rest hrest => ?_
  have hquoted := quotedPart_doubleQuotes hrest s.toList
  simp [scan, isLetter, scanText, hquoted]

theorem comma : Spells (fun _ => True) [','] [.leaf default .comma] :=
  word (by unfold IsVisible; decide) fun _ _ => rfl

theorem dot : Spells (fun _ => True) ['.'] [.leaf default .dot] :=
  word (by unfold IsVisible; decide) fun _ _ => rfl

end Spells

/-! ## Lines -/

mutual

/-- A token's words are paired to the token. -/
theorem group_words {file : String} {line : Nat} {outer : List (Nat × List Token)}
    {inner : List Token} {words : List (Span × Flat)} : (t : Token) →
    group file line outer inner (t.words ++ words) = group file line outer (t :: inner) words
  | .leaf span word => rfl
  | .group span ts => by
    rw [Token.words, List.cons_append, List.cons_append, group, List.append_assoc,
      group_wordsAll ts, List.append_nil, List.singleton_append, group, List.reverse_reverse]

theorem group_wordsAll {file : String} {line : Nat} {outer : List (Nat × List Token)}
    {inner : List Token} {words : List (Span × Flat)} : (ts : List Token) →
    group file line outer inner (Token.wordsAll ts ++ words) =
      group file line outer (ts.reverse ++ inner) words
  | [] => rfl
  | t :: ts => by
    rw [Token.wordsAll, List.append_assoc, group_words t, group_wordsAll ts, List.reverse_cons,
      List.append_assoc, List.singleton_append]

end

/-- **A text that spells tokens is a line with these tokens.** -/
theorem Spells.lex {follow : Char → Prop} {ts : List Token} (h : Spells follow cs ts) (file : String)
    (line : Nat) : ∃ us, Token.bareAll us = ts ∧ lex file line (String.ofList cs) = .ok us := by
  have hend : flat file line (0 + cs.length) [] = .ok [] := by rw [flat]
  obtain ⟨us, rfl, hflat⟩ := h file line 0 [] [] (by simp) hend
  refine ⟨us, rfl, ?_⟩
  rw [Lexer.lex, String.toList_ofList, ← List.append_nil cs, hflat]
  have hgroup : Lexer.group file line [] [] (Token.wordsAll us ++ []) = .ok us := by
    rw [group_wordsAll, Lexer.group, List.append_nil, List.reverse_reverse]
  exact hgroup

end Lexer

end ChannelBasic
