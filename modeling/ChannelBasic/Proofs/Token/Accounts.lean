import ChannelBasic.Proofs.Token.Display

/-!
# Proofs/Token/Accounts — every character of a line is accounted for

A word is read from its own characters as it is read where it stands: what follows it decides where
it ends, but not what it is (`scan_take`).  So the words of a line are known by their columns
(`Spread`): each is read at its first column, the next one starts where it ends or later, and what
lies between them is blank, up to the end of the line or its comment.

Pairing the parentheses neither drops a word nor moves one (`wordsAll_of_group`), and therefore all
that is true of the words in a row is true of the tokens at each level of nesting: **the tokens of a
level follow each other, between the parentheses around them** (`lex_accounts`).  It fails if, and
only if, parentheses are not balanced (`group_isOk_iff`).
-/

namespace ChannelBasic

/-- The characters in a range of columns. -/
def Span.cut (span : Span) (cs : List Char) : List Char :=
  (cs.drop span.start).take (span.stop - span.start)

namespace Lexer

variable {c : Char} {cs : List Char} {word : Flat} {more : Nat}

/-! ## A word alone -/

theorem take_length_takeWhile (p : Char → Bool) (cs : List Char) :
    cs.take (cs.takeWhile p).length = cs.takeWhile p :=
  (List.prefix_iff_eq_take.1 (List.takeWhile_prefix p)).symm

theorem scanName_take (h : scanName c cs = .ok (word, more)) :
    more ≤ cs.length ∧ scanName c (cs.take more) = .ok (word, more) := by
  have hmore : more = (cs.takeWhile isNameChar).length := by
    unfold scanName at h
    dsimp only at h
    split at h <;> cases h <;> rfl
  subst hmore
  refine ⟨(List.takeWhile_prefix _).length_le, ?_⟩
  rw [take_length_takeWhile, ← h, scanName, List.takeWhile_idem]
  rfl

theorem eq_of_number_ok {lexeme : Lexeme} {used : Nat}
    (h : number c cs lexeme used = .ok (word, more)) : word = .word lexeme ∧ more = used := by
  unfold number at h
  split at h
  · cases h
    exact ⟨rfl, rfl⟩
  · cases h

/-- Nothing is asked of what comes after the last character. -/
theorem forall_mem_head?_nil {P : Char → Prop} : ∀ d ∈ ([] : List Char).head?, P d :=
  fun _ hd => nomatch hd

theorem scan_take_of_scanBinary {ds : List Char}
    (h : scanBinary '0' ('b' :: ds) = .ok (word, more)) :
    more ≤ ('b' :: ds).length ∧ scan '0' (('b' :: ds).take more) = .ok (word, more) := by
  rw [scanBinary, List.drop_one, List.tail_cons] at h
  split at h
  next => cases h
  next hbits =>
    obtain ⟨rfl, rfl⟩ := eq_of_number_ok h
    rw [Nat.add_comm 1, List.length_cons, List.take_succ_cons, take_length_takeWhile]
    refine ⟨Nat.succ_le_succ (List.takeWhile_prefix _).length_le, ?_⟩
    simpa using scan_binary (by simpa using hbits) all_takeWhile forall_mem_head?_nil

theorem scan_take_of_scanDecimal (hc : c.isDigit = true)
    (h : scanDecimal c cs = .ok (word, more)) :
    more ≤ cs.length ∧ scan c (cs.take more) = .ok (word, more) := by
  have hcs := List.take_append_drop (cs.takeWhile Char.isDigit).length cs
  rw [take_length_takeWhile] at hcs
  unfold scanDecimal at h
  dsimp only at h
  split at h
  next d rest hdrop =>
    split at h
    next hd =>
      obtain ⟨rfl, rfl⟩ := eq_of_number_ok h
      rw [hdrop] at hcs
      have hwhole : ∀ e ∈ cs.takeWhile Char.isDigit, e.isDigit = true := all_takeWhile
      generalize cs.takeWhile Char.isDigit = whole at hcs hwhole ⊢
      subst hcs
      have hplaces : ∀ e ∈ d :: rest.takeWhile Char.isDigit, e.isDigit = true :=
        List.forall_mem_cons.2 ⟨hd, all_takeWhile⟩
      have hscan := scan_real hc hwhole (List.cons_ne_nil _ _) hplaces forall_mem_head?_nil
      have htake : (whole ++ '.' :: d :: rest).take
          (whole.length + 1 + (d :: rest.takeWhile Char.isDigit).length) =
            whole ++ '.' :: d :: rest.takeWhile Char.isDigit := by
        rw [Nat.add_assoc, Nat.add_comm 1, List.length_cons, List.take_length_add_append,
          List.take_succ_cons, List.take_succ_cons, take_length_takeWhile]
      have hle := (List.takeWhile_prefix Char.isDigit (l := rest)).length_le
      rw [htake]
      refine ⟨?_, ?_⟩
      · simp only [List.length_append, List.length_cons]
        omega
      · rw [List.append_nil] at hscan
        rw [hscan]
        simp only [List.length_append, List.length_cons]
        congr 2
        omega
    next => cases h
  next => cases h
  next =>
    obtain ⟨rfl, rfl⟩ := eq_of_number_ok h
    refine ⟨(List.takeWhile_prefix _).length_le, ?_⟩
    rw [take_length_takeWhile]
    simpa using scan_integer hc all_takeWhile forall_mem_head?_nil

theorem scan_take_of_scanNumber (hc : c.isDigit = true) (h : scanNumber c cs = .ok (word, more)) :
    more ≤ cs.length ∧ scan c (cs.take more) = .ok (word, more) := by
  rw [scanNumber] at h
  split at h
  next hb =>
    rw [Bool.and_eq_true, beq_iff_eq, beq_iff_eq] at hb
    obtain ⟨ds, rfl⟩ := List.head?_eq_some_iff.1 hb.2
    rw [hb.1] at h ⊢
    exact scan_take_of_scanBinary h
  next => exact scan_take_of_scanDecimal hc h

theorem quotedPart_take {content : List Char} (h : quotedPart cs = some (content, more)) :
    more ≤ cs.length ∧ quotedPart (cs.take more) = some (content, more) := by
  fun_induction quotedPart cs generalizing content more with
  | case1 => cases h
  | case2 rest ih =>
    obtain ⟨⟨content, n⟩, hrest, heq⟩ := Option.map_eq_some_iff.1 h
    cases heq
    obtain ⟨hle, hpart⟩ := ih hrest
    exact ⟨by simpa using hle, by simp [quotedPart, hpart]⟩
  | case3 rest =>
    cases h
    exact ⟨by simp, rfl⟩
  | case4 c rest hc hc' ih =>
    obtain ⟨⟨content, n⟩, hrest, heq⟩ := Option.map_eq_some_iff.1 h
    cases heq
    obtain ⟨hle, hpart⟩ := ih hrest
    refine ⟨by simpa using hle, ?_⟩
    rw [List.take_succ_cons, quotedPart, hpart, Option.map_some]
    · exact fun _ h _ => hc' h
    · exact hc'

theorem scanText_take (h : scanText cs = .ok (word, more)) :
    more ≤ cs.length ∧ scanText (cs.take more) = .ok (word, more) := by
  unfold scanText at h
  split at h
  next content used hpart =>
    cases h
    obtain ⟨hle, htake⟩ := quotedPart_take hpart
    exact ⟨hle, by rw [scanText, htake]⟩
  next => cases h

theorem of_longestSymbol {run : List Char} {n : Nat} {s : Symbol}
    (h : longestSymbol run n = some (s, more)) :
    more < n ∧ s.spelling.toList = run.take (more + 1) := by
  induction n with
  | zero => cases h
  | succ n ih =>
    rw [longestSymbol] at h
    split at h
    next s' hs =>
      cases h
      exact ⟨Nat.lt_succ_self _, eq_of_beq (List.find?_some hs :)⟩
    next => exact (ih h).imp_left Nat.lt_succ_of_lt

theorem scan_take_of_scanSymbol (h : scanSymbol c cs = .ok (word, more)) :
    more ≤ cs.length ∧ scan c (cs.take more) = .ok (word, more) := by
  unfold scanSymbol at h
  dsimp only at h
  split at h
  next s n hrun =>
    cases h
    obtain ⟨hlt, hs⟩ := of_longestSymbol hrun
    have hle : more ≤ (cs.takeWhile isSymbolChar).length := Nat.le_of_lt_succ hlt
    have htake : (cs.takeWhile isSymbolChar).take more = cs.take more := by
      rw [← take_length_takeWhile, List.take_take, Nat.min_eq_left hle]
    have hlength : more ≤ cs.length := hle.trans (List.takeWhile_prefix _).length_le
    rw [List.take_succ_cons, htake] at hs
    have hscan := scan_symbol s hs forall_mem_head?_nil
    rw [List.append_nil, List.length_take_of_le hlength] at hscan
    exact ⟨hlength, hscan⟩
  next => cases h

/-- **A word is read from its own characters as it is read where it stands.** -/
theorem scan_take (h : scan c cs = .ok (word, more)) :
    more ≤ cs.length ∧ scan c (cs.take more) = .ok (word, more) := by
  by_cases hdigit : c.isDigit = true
  · rw [scan, if_pos hdigit] at h
    exact scan_take_of_scanNumber hdigit h
  by_cases hletter : isLetter c = true
  · rw [scan, if_neg hdigit, if_pos hletter] at h ⊢
    exact scanName_take h
  by_cases hquote : (c == '"') = true
  · rw [scan, if_neg hdigit, if_neg hletter, if_pos hquote] at h ⊢
    exact scanText_take h
  by_cases hsymbol : isSymbolChar c = true
  · obtain ⟨-, -, -, hother⟩ := of_isSymbolChar hsymbol
    simp only [List.mem_cons, List.not_mem_nil, or_false, not_or] at hother
    simp only [scan, hdigit, hletter, hother, hsymbol, beq_iff_eq, Bool.false_eq_true, if_true,
      if_false] at h
    exact scan_take_of_scanSymbol h
  -- what is left stands for itself
  simp only [scan, hdigit, hletter, hquote, hsymbol, Bool.false_eq_true, if_false] at h ⊢
  split_ifs at h ⊢ <;> cases h
  all_goals exact ⟨Nat.zero_le _, rfl⟩

/-! ## The words of a line -/

variable {file : String} {line column : Nat} {all : List Char} {words : List (Span × Flat)}

/-- A word that is read at its first column, up to its last one. -/
structure ReadAt (all : List Char) (w : Span × Flat) (c : Char) (cs : List Char) (more : Nat) :
    Prop where
  drop : all.drop w.1.start = c :: cs
  isVisible : IsVisible c
  stop : w.1.stop = w.1.start + 1 + more
  scan : Lexer.scan c cs = .ok (w.2, more)

/-- Words that are read one after the other from a column on, with nothing but blanks around them,
up to the end of the text or its comment. -/
structure Spread (all : List Char) (column : Nat) (words : List (Span × Flat)) : Prop where
  readAt : ∀ w ∈ words, ∃ c cs more, ReadAt all w c cs more
  le_start : ∀ w ∈ words, column ≤ w.1.start
  ordered : words.Pairwise fun v w => v.1.stop ≤ w.1.start
  rest : ∃ stop ≤ all.length, column ≤ stop ∧ (∀ w ∈ words, w.1.stop ≤ stop) ∧
    (∀ c ∈ all[stop]?, c = '\'') ∧
    ∀ i c, column ≤ i → i < stop → all[i]? = some c →
      (∃ w ∈ words, w.1.start ≤ i ∧ i < w.1.stop) ∨ isBlank c = true

theorem drop_eq_cons (h : all.drop column = c :: cs) :
    column < all.length ∧ all[column]? = some c ∧ ∀ n, all.drop (column + 1 + n) = cs.drop n := by
  have hlt : column < all.length := by
    by_contra hge
    rw [List.drop_eq_nil_of_le (Nat.le_of_not_lt hge)] at h
    cases h
  refine ⟨hlt, ?_, fun n => ?_⟩
  · rw [← List.head?_drop, h, List.head?_cons]
  · rw [Nat.add_assoc, ← List.drop_drop, h, Nat.add_comm 1, List.drop_succ_cons]

/-- Words stay spread if a blank is put before them. -/
theorem Spread.blank (h : Spread all (column + 1) words) (hc : all[column]? = some c)
    (hblank : isBlank c = true) : Spread all column words where
  readAt := h.readAt
  le_start w hw := Nat.le_of_succ_le (h.le_start w hw)
  ordered := h.ordered
  rest := by
    obtain ⟨stop, hstop, hcolumn, hwords, hend, hrest⟩ := h.rest
    refine ⟨stop, hstop, Nat.le_of_succ_le hcolumn, hwords, hend, fun i d hle hlt hd => ?_⟩
    obtain rfl | hlt' := Nat.eq_or_lt_of_le hle
    · rw [hc] at hd
      exact .inr (Option.some.inj hd ▸ hblank)
    · exact hrest i d hlt' hlt hd

/-- Words stay spread if a word is put before them. -/
theorem Spread.cons {w : Span × Flat} (hw : ReadAt all w c cs more)
    (h : Spread all w.1.stop words) :
    Spread all w.1.start (w :: words) where
  readAt := List.forall_mem_cons.2 ⟨⟨c, cs, more, hw⟩, h.readAt⟩
  le_start := by
    refine List.forall_mem_cons.2 ⟨Nat.le_refl _, fun v hv => ?_⟩
    have := h.le_start v hv
    have := hw.stop
    omega
  ordered := List.pairwise_cons.2 ⟨h.le_start, h.ordered⟩
  rest := by
    obtain ⟨stop, hstop, hcolumn, hwords, hend, hrest⟩ := h.rest
    have hlt : w.1.start < w.1.stop := by
      have := hw.stop
      omega
    refine ⟨stop, hstop, (Nat.le_of_lt hlt).trans hcolumn,
      List.forall_mem_cons.2 ⟨hcolumn, hwords⟩, hend, fun i d hle hi hd => ?_⟩
    by_cases hin : i < w.1.stop
    · exact .inl ⟨w, List.mem_cons_self, hle, hin⟩
    · refine (hrest i d (Nat.le_of_not_lt hin) hi hd).imp_left ?_
      rintro ⟨v, hv, hvi⟩
      exact ⟨v, List.mem_cons_of_mem w hv, hvi⟩

theorem spread_flat (hall : all.drop column = cs) (hcolumn : column ≤ all.length)
    (h : flat file line column cs = .ok words) : Spread all column words := by
  fun_induction flat file line column cs generalizing words with
  | case1 column =>
    cases h
    have hend : column = all.length := Nat.le_antisymm hcolumn (List.drop_eq_nil_iff.1 hall)
    refine ⟨by simp, by simp, .nil, column, hcolumn, Nat.le_refl _, by simp, by simp [hend], ?_⟩
    intro i c hle hlt
    omega
  | case2 column c cs hc ih =>
    obtain ⟨hlt, hget, hdrop⟩ := drop_eq_cons hall
    exact (ih (hdrop 0) hlt h).blank hget hc
  | case3 column c cs hc hcomment =>
    cases h
    obtain ⟨-, hget, -⟩ := drop_eq_cons hall
    refine ⟨by simp, by simp, .nil, column, hcolumn, Nat.le_refl _, by simp, ?_, ?_⟩
    · rw [hget]
      exact fun d hd => Option.some.inj hd ▸ eq_of_beq hcomment
    · intro i c hle hlt
      omega
  | case4 | case5 => cases h
  | case6 column c cs hc hcomment word more hscan rest hrest ih =>
    cases h
    obtain ⟨hlt, hget, hdrop⟩ := drop_eq_cons hall
    have hmore : column + 1 + more ≤ all.length := by
      have hcs := congrArg List.length hall
      rw [List.length_drop, List.length_cons] at hcs
      have := (scan_take hscan).1
      omega
    have hw : ReadAt all (⟨column, column + 1 + more⟩, word) c cs more :=
      ⟨hall, ⟨by simpa using hc, by simpa using hcomment⟩, rfl, hscan⟩
    exact Spread.cons hw (ih (hdrop more) hmore hrest)

/-- **A word that is read where it stands is the only token of its own characters.** -/
theorem lex_cut {w : Span × Flat} {lexeme : Lexeme} (hw : ReadAt all w c cs more)
    (hlexeme : w.2 = .word lexeme) (file : String) (line : Nat) :
    lex file line (String.ofList (w.1.cut all)) =
      .ok [.leaf ⟨0, w.1.stop - w.1.start⟩ lexeme] := by
  obtain ⟨hle, hscan⟩ := scan_take hw.scan
  have hstop : w.1.stop - w.1.start = more + 1 := by
    have := hw.stop
    omega
  have hcut : w.1.cut all = c :: cs.take more := by
    rw [Span.cut, hw.drop, hstop, List.take_succ_cons]
  have hlength : (cs.take more).length = more := List.length_take_of_le hle
  have hflat : flat file line 0 (c :: cs.take more) = .ok [(⟨0, more + 1⟩, .word lexeme)] := by
    have hnil : flat file line (0 + 1 + (cs.take more).length) [] = .ok [] := by rw [flat]
    have hword := flat_word hw.isVisible
      (by rw [List.append_nil (cs.take more), hlength, hscan]) hnil
    rw [List.append_nil, hlength] at hword
    rw [hword, hlexeme, Nat.zero_add, Nat.add_comm 1]
  rw [lex, String.toList_ofList, hcut, hflat, hstop]
  rfl

/-! ## Parentheses that are paired -/

/-- The words before an open parenthesis and the parenthesis, for each that waits to be closed. -/
def openWords : List (Nat × List Token) → List (Span × Flat)
  | [] => []
  | (start, before) :: outer =>
    openWords outer ++ Token.wordsAll before.reverse ++ [(⟨start, start + 1⟩, .opening)]

/-- **Pairing keeps all words in their places**, the parentheses being as wide as they are. -/
theorem wordsAll_of_group {outer : List (Nat × List Token)} {inner ts : List Token}
    (hwords : ∀ w ∈ words, w.2 = .opening ∨ w.2 = .closing → w.1.stop = w.1.start + 1)
    (h : group file line outer inner words = .ok ts) :
    Token.wordsAll ts = openWords outer ++ Token.wordsAll inner.reverse ++ words := by
  fun_induction group file line outer inner words with
  | case1 inner =>
    cases h
    simp [openWords]
  | case2 | case5 => cases h
  | case3 outer inner span word rest ih =>
    rw [ih (List.forall_mem_cons.1 hwords).2 h]
    simp [Token.wordsAll, Token.words]
  | case4 outer inner span rest ih =>
    obtain ⟨hspan, hrest⟩ := List.forall_mem_cons.1 hwords
    obtain ⟨first, last⟩ := span
    obtain rfl : last = first + 1 := hspan (.inl rfl)
    rw [ih hrest h]
    simp [openWords, Token.wordsAll]
  | case6 inner span rest start before outer ih =>
    obtain ⟨hspan, hrest⟩ := List.forall_mem_cons.1 hwords
    obtain ⟨first, last⟩ := span
    obtain rfl : last = first + 1 := hspan (.inr rfl)
    rw [ih hrest h]
    simp [openWords, Token.wordsAll, Token.words]

/-! ### Which parentheses can be paired -/

/-- The opening parentheses among some words. -/
def openings (words : List (Span × Flat)) : Nat := words.countP fun w => w.2 = .opening

/-- The closing parentheses among some words. -/
def closings (words : List (Span × Flat)) : Nat := words.countP fun w => w.2 = .closing

/-- Words that never close more parentheses than are open, `depth` being so before them, and leave
none open. -/
def BalancedFrom (depth : Nat) (words : List (Span × Flat)) : Prop :=
  (∀ n, closings (words.take n) ≤ depth + openings (words.take n)) ∧
    closings words = depth + openings words

/-- Words with balanced parentheses. -/
def Balanced (words : List (Span × Flat)) : Prop := BalancedFrom 0 words

section

variable {depth : Nat} {span : Span} {lexeme : Lexeme}

theorem balancedFrom_nil : BalancedFrom depth [] ↔ depth = 0 := by
  simp [BalancedFrom, openings, closings]
  omega

theorem balancedFrom_cons {w : Span × Flat} :
    BalancedFrom depth (w :: words) ↔
      (∀ n, closings (w :: words.take n) ≤ depth + openings (w :: words.take n)) ∧
        closings (w :: words) = depth + openings (w :: words) := by
  refine and_congr_left fun _ => ⟨fun h n => h (n + 1), fun h n => ?_⟩
  cases n with
  | zero => simp [closings]
  | succ n => exact h n

theorem balancedFrom_word :
    BalancedFrom depth ((span, .word lexeme) :: words) ↔ BalancedFrom depth words := by
  rw [balancedFrom_cons]
  simp [BalancedFrom, openings, closings]

theorem balancedFrom_opening :
    BalancedFrom depth ((span, .opening) :: words) ↔ BalancedFrom (depth + 1) words := by
  rw [balancedFrom_cons]
  simp [BalancedFrom, openings, closings, Nat.add_assoc, Nat.add_comm 1]

theorem balancedFrom_closing_zero : ¬ BalancedFrom 0 ((span, .closing) :: words) := by
  intro h
  have hfirst := (balancedFrom_cons.1 h).1 0
  simp [openings, closings] at hfirst

theorem balancedFrom_closing :
    BalancedFrom (depth + 1) ((span, .closing) :: words) ↔ BalancedFrom depth words := by
  have hopenings (ws : List (Span × Flat)) : openings ((span, .closing) :: ws) = openings ws := by
    simp [openings]
  have hclosings (ws : List (Span × Flat)) :
      closings ((span, .closing) :: ws) = closings ws + 1 := by simp [closings]
  rw [balancedFrom_cons]
  simp only [BalancedFrom, hopenings, hclosings, Nat.add_right_comm depth 1,
    Nat.add_le_add_iff_right, Nat.add_right_cancel_iff]

end

/-- **Parentheses can be paired if, and only if, they are balanced.** -/
theorem group_isOk_iff {outer : List (Nat × List Token)} {inner : List Token} :
    (∃ ts, group file line outer inner words = .ok ts) ↔ BalancedFrom outer.length words := by
  fun_induction group file line outer inner words with
  | case1 inner => simp [balancedFrom_nil]
  | case2 => simp [balancedFrom_nil]
  | case3 outer inner span word rest ih => rw [ih, balancedFrom_word]
  | case4 outer inner span rest ih => rw [ih, balancedFrom_opening, List.length_cons]
  | case5 => simp [balancedFrom_closing_zero]
  | case6 inner span rest start before outer ih =>
    rw [ih, List.length_cons, balancedFrom_closing]

/-- The rules that parentheses break. -/
def AboutParentheses (d : Diagnostic) : Prop :=
  d.rule = .bracketDoesNotMatch ∨ d.rule = .missedBracket

theorem aboutParentheses_of_group {outer : List (Nat × List Token)} {inner : List Token}
    {d : Diagnostic} (h : group file line outer inner words = .error d) : AboutParentheses d := by
  fun_induction group file line outer inner words with
  | case1 => cases h
  | case2 =>
    cases h
    exact .inr rfl
  | case5 =>
    cases h
    exact .inl rfl
  | case3 | case4 | case6 => rename_i ih; exact ih h

/-- Parentheses that are not balanced are all that pairing can refuse. -/
theorem exists_aboutParentheses_iff :
    (∃ d, group file line [] [] words = .error d ∧ AboutParentheses d) ↔ ¬ Balanced words := by
  rw [Balanced, ← List.length_nil, ← group_isOk_iff]
  cases h : group file line [] [] words with
  | error d => simpa using aboutParentheses_of_group h
  | ok ts => simp

theorem rule_of_number {lexeme : Lexeme} {used : Nat} {r : Refusal}
    (h : number c cs lexeme used = .error r) : r.rule = .wrongNumberFormat := by
  unfold number at h
  split at h <;> cases h
  rfl

theorem rule_of_scanNumber {r : Refusal} (h : scanNumber c cs = .error r) :
    r.rule = .wrongNumberFormat := by
  unfold scanNumber at h
  split at h
  · unfold scanBinary at h
    dsimp only at h
    split at h
    · cases h
      rfl
    · exact rule_of_number h
  · unfold scanDecimal at h
    dsimp only at h
    split at h
    · split at h
      · exact rule_of_number h
      · cases h
        rfl
    · cases h
      rfl
    · exact rule_of_number h

/-- The rules that a single word can break. -/
theorem rule_of_scan {r : Refusal} (h : scan c cs = .error r) :
    r.rule ∈ [.wrongNumberFormat, .missedClosingQuote, .unknownOperator, .unknownCharacter] := by
  unfold scan at h
  split_ifs at h
  · simp [rule_of_scanNumber h]
  · unfold scanName at h
    dsimp only at h
    split at h <;> cases h
  · unfold scanText at h
    split at h <;> cases h
    simp
  · unfold scanSymbol at h
    dsimp only at h
    split at h <;> cases h
    simp
  · cases h
    simp

/-- Words that cannot be read are no fault of the parentheses. -/
theorem not_aboutParentheses_of_flat {d : Diagnostic} (h : flat file line column cs = .error d) :
    ¬ AboutParentheses d := by
  fun_induction flat file line column cs generalizing d with
  | case1 | case3 | case6 => cases h
  | case2 column c cs hc ih => exact ih h
  | case4 column c cs hc hcomment r hscan =>
    cases h
    have hrule := rule_of_scan hscan
    rintro (hd | hd) <;> simp [Rule.about] at hd <;> simp [hd] at hrule
  | case5 column c cs hc hcomment word more hscan d' hrest ih =>
    cases h
    exact ih hrest

end Lexer

/-! ## Levels of nesting -/

namespace Token

variable {t u : Token} {ts level : List Token} {span : Span} {w : Span × Lexer.Flat}

/-- A token is one of these tokens, or stands between their parentheses. -/
inductive Occurs : Token → List Token → Prop where
  | here {t : Token} {ts : List Token} (h : t ∈ ts) : Occurs t ts
  | inside {t : Token} {ts inner : List Token} {span : Span} (h : .group span inner ∈ ts)
      (ht : Occurs t inner) : Occurs t ts

/-- The tokens at one level of nesting: all of a line, or all between two parentheses. -/
def Level (ts level : List Token) : Prop := level = ts ∨ ∃ span, Occurs (.group span level) ts

/-- A word stands for a token, or is one of its parentheses. -/
def Marks (t : Token) (w : Span × Lexer.Flat) : Prop :=
  match t with
  | .leaf span word => w = (span, .word word)
  | .group span _ =>
    w = (⟨span.start, span.start + 1⟩, .opening) ∨ w = (⟨span.stop - 1, span.stop⟩, .closing)

theorem Occurs.mono {us : List Token} (h : Occurs t ts) (hsub : ts ⊆ us) : Occurs t us := by
  cases h with
  | here h => exact .here (hsub h)
  | inside h ht => exact .inside (hsub h) ht

theorem words_infix_of_mem (h : t ∈ ts) : t.words <:+: wordsAll ts := by
  obtain ⟨before, after, rfl⟩ := List.append_of_mem h
  rw [wordsAll_append, wordsAll, ← List.append_assoc]
  exact ⟨_, _, rfl⟩

theorem wordsAll_infix_words (span : Span) (inner : List Token) :
    wordsAll inner <:+: (Token.group span inner).words := by
  rw [words]
  exact ⟨[_], _, rfl⟩

/-- **The words of a token that occurs are among the words of the line, and in their order.** -/
theorem Occurs.words_infix (h : Occurs t ts) : t.words <:+: wordsAll ts := by
  induction h with
  | here h => exact words_infix_of_mem h
  | inside h _ ih => exact ih.trans ((wordsAll_infix_words _ _).trans (words_infix_of_mem h))

theorem Level.wordsAll_infix (h : Level ts level) : wordsAll level <:+: wordsAll ts := by
  obtain rfl | ⟨span, h⟩ := h
  · exact List.infix_refl _
  · exact (wordsAll_infix_words span level).trans h.words_infix

theorem mem_words_of_marks (h : t.Marks w) : w ∈ t.words := by
  cases t with
  | leaf span word =>
    rw [words]
    exact List.mem_singleton.2 h
  | group span inner =>
    rw [words]
    obtain rfl | rfl := h <;> simp

mutual

/-- Every word of a token marks the token, or one between its parentheses. -/
theorem exists_marks_of_mem_words : (t : Token) → w ∈ t.words → ∃ u, Occurs u [t] ∧ u.Marks w
  | .leaf span word, h => by
    rw [words, List.mem_singleton] at h
    exact ⟨_, .here List.mem_cons_self, h⟩
  | .group span inner, h => by
    rw [words, List.cons_append, List.mem_cons, List.mem_append, List.mem_singleton] at h
    obtain h | h | h := h
    · exact ⟨_, .here List.mem_cons_self, .inl h⟩
    · obtain ⟨u, hu, hw⟩ := exists_marks_of_mem_wordsAll inner h
      exact ⟨u, .inside List.mem_cons_self hu, hw⟩
    · exact ⟨_, .here List.mem_cons_self, .inr h⟩

theorem exists_marks_of_mem_wordsAll :
    (ts : List Token) → w ∈ wordsAll ts → ∃ u, Occurs u ts ∧ u.Marks w
  | [], h => by cases h
  | t :: ts, h => by
    rw [wordsAll, List.mem_append] at h
    obtain h | h := h
    · obtain ⟨u, hu, hw⟩ := exists_marks_of_mem_words t h
      exact ⟨u, hu.mono (by simp), hw⟩
    · obtain ⟨u, hu, hw⟩ := exists_marks_of_mem_wordsAll ts h
      exact ⟨u, hu.mono (List.subset_cons_self t ts), hw⟩

end

/-! ## Tokens in their places -/

open Lexer

variable {all : List Char}

/-- Words that are wider than nothing and follow each other. -/
structure InOrder (words : List (Span × Flat)) : Prop where
  lt : ∀ w ∈ words, w.1.start < w.1.stop
  ordered : words.Pairwise fun v w => v.1.stop ≤ w.1.start

theorem InOrder.within {words words' : List (Span × Flat)} (h : InOrder words)
    (hsub : words' <:+: words) : InOrder words' where
  lt w hw := h.lt w (hsub.subset hw)
  ordered := h.ordered.sublist hsub.sublist

/-- The words between two parentheses lie between them. -/
theorem InOrder.group {inner : List Token} (h : InOrder (group span inner).words) :
    span.start + 1 ≤ span.stop - 1 ∧
      ∀ w ∈ wordsAll inner, span.start + 1 ≤ w.1.start ∧ w.1.stop ≤ span.stop - 1 := by
  have hordered := h.ordered
  rw [words, List.cons_append, List.pairwise_cons, List.pairwise_append] at hordered
  obtain ⟨hopening, -, -, hclosing⟩ := hordered
  refine ⟨?_, fun w hw => ⟨hopening w (List.mem_append_left _ hw), ?_⟩⟩
  · exact hopening (⟨span.stop - 1, span.stop⟩, .closing) (by simp)
  · exact hclosing w hw _ (List.mem_singleton_self _)

/-- A token starts with its first word and stops with its last one. -/
theorem exists_mem_words (t : Token) :
    (∃ w ∈ t.words, w.1.start = t.span.start) ∧ ∃ w ∈ t.words, w.1.stop = t.span.stop := by
  cases t with
  | leaf span word => simp [words, Token.span]
  | group span inner => simp [words, Token.span]

theorem InOrder.lt_span (h : InOrder t.words) : t.span.start < t.span.stop := by
  cases t with
  | leaf span word => exact h.lt (span, .word word) (by simp [words])
  | group span inner =>
    have := h.group.1
    show span.start < span.stop
    omega

/-- **The tokens of a level follow each other.** -/
theorem InOrder.pairwise (h : InOrder (wordsAll ts)) :
    ts.Pairwise fun t u => t.span.stop ≤ u.span.start := by
  induction ts with
  | nil => exact .nil
  | cons t ts ih =>
    have hordered := h.ordered
    rw [wordsAll, List.pairwise_append] at hordered
    refine List.pairwise_cons.2 ⟨fun u hu => ?_, ih (h.within ⟨t.words, [], by simp [wordsAll]⟩)⟩
    obtain ⟨-, v, hv, hstop⟩ := t.exists_mem_words
    obtain ⟨⟨w, hw, hstart⟩, -⟩ := u.exists_mem_words
    rw [← hstop, ← hstart]
    exact hordered.2.2 v hv w ((words_infix_of_mem hu).subset hw)

/-! ## The tokens of a line -/

/-- A column belongs to a token: it is in a word, or it is that of a parenthesis. -/
def Covers (t : Token) (i : Nat) : Prop :=
  match t with
  | .leaf span _ => span.start ≤ i ∧ i < span.stop
  | .group span _ => i = span.start ∨ i = span.stop - 1

/-- Every character of a text is part of a token, a blank, or in a comment at the end. -/
structure Accounts (all : List Char) (ts : List Token) : Prop where
  /-- No token is empty. -/
  lt : ∀ level, Level ts level → ∀ t ∈ level, t.span.start < t.span.stop
  /-- The tokens of a level follow each other and have no column in common. -/
  ordered : ∀ level, Level ts level → level.Pairwise fun t u => t.span.stop ≤ u.span.start
  /-- Parentheses are at the ends of their token, and all between them lies between them. -/
  parentheses : ∀ span inner, Occurs (.group span inner) ts →
    all[span.start]? = some '(' ∧ all[span.stop - 1]? = some ')' ∧ span.start + 1 < span.stop ∧
      ∀ t ∈ inner, span.start + 1 ≤ t.span.start ∧ t.span.stop ≤ span.stop - 1
  /-- Behind the tokens there is at most a comment, and what is not theirs before it is blank. -/
  rest : ∃ stop ≤ all.length, (∀ t, Occurs t ts → t.span.stop ≤ stop) ∧
    (∀ c ∈ all[stop]?, c = '\'') ∧
    ∀ i c, i < stop → all[i]? = some c → (∃ t, Occurs t ts ∧ t.Covers i) ∨ isBlank c = true
  /-- The characters of a word, alone, are that word. -/
  lex_cut : ∀ span word, Occurs (.leaf span word) ts → ∀ file line,
    lex file line (String.ofList (span.cut all)) = .ok [.leaf ⟨0, span.stop - span.start⟩ word]

end Token

namespace Lexer

open Token (Accounts InOrder wordsAll words_infix_of_mem mem_words_of_marks
  exists_marks_of_mem_wordsAll)

variable {ts : List Token} {w : Span × Flat}

theorem exists_of_scanNumber (h : scanNumber c cs = .ok (word, more)) :
    ∃ lexeme, word = .word lexeme := by
  have number {lexeme : Lexeme} {used : Nat} (h : number c cs lexeme used = .ok (word, more)) :
      ∃ lexeme, word = .word lexeme := ⟨lexeme, (eq_of_number_ok h).1⟩
  unfold scanNumber at h
  split at h
  · unfold scanBinary at h
    dsimp only at h
    split at h
    · cases h
    · exact number h
  · unfold scanDecimal at h
    dsimp only at h
    split at h
    · split at h
      · exact number h
      · cases h
    · cases h
    · exact number h

theorem scan_parenthesis (h : scan c cs = .ok (word, more)) :
    (word = .opening → c = '(' ∧ more = 0) ∧ (word = .closing → c = ')' ∧ more = 0) := by
  unfold scan at h
  split_ifs at h with hdigit hletter hquote hopening hclosing
  · obtain ⟨lexeme, rfl⟩ := exists_of_scanNumber h
    simp
  · unfold scanName at h
    dsimp only at h
    split at h <;> cases h <;> simp
  · unfold scanText at h
    split at h <;> cases h
    simp
  · cases h
    exact ⟨fun _ => ⟨eq_of_beq hopening, rfl⟩, fun h => (nomatch h)⟩
  · cases h
    exact ⟨fun h => (nomatch h), fun _ => ⟨eq_of_beq hclosing, rfl⟩⟩
  · cases h
    simp
  · cases h
    simp
  · unfold scanSymbol at h
    dsimp only at h
    split at h <;> cases h
    simp

theorem ReadAt.getElem? (h : ReadAt all w c cs more) : all[w.1.start]? = some c :=
  (drop_eq_cons h.drop).2.1

theorem Spread.inOrder (h : Spread all column words) : InOrder words where
  lt w hw := by
    obtain ⟨c, cs, more, hread⟩ := h.readAt w hw
    have := hread.stop
    omega
  ordered := h.ordered

/-- A parenthesis is one character wide. -/
theorem Spread.parenthesis (h : Spread all column words) (hw : w ∈ words)
    (hp : w.2 = .opening ∨ w.2 = .closing) : w.1.stop = w.1.start + 1 := by
  obtain ⟨c, cs, more, hread⟩ := h.readAt w hw
  have hscan := scan_parenthesis hread.scan
  have hmore : more = 0 := hp.elim (fun h => (hscan.1 h).2) fun h => (hscan.2 h).2
  rw [hread.stop, hmore]

/-- **What is known of the words in a row is known of the tokens on all levels.** -/
theorem Spread.accounts (h : Spread all 0 (wordsAll ts)) : Accounts all ts where
  lt level hlevel t ht :=
    ((h.inOrder.within hlevel.wordsAll_infix).within (words_infix_of_mem ht)).lt_span
  ordered level hlevel := (h.inOrder.within hlevel.wordsAll_infix).pairwise
  parentheses span inner hg := by
    have horder := (h.inOrder.within hg.words_infix).group
    have hopening : (⟨span.start, span.start + 1⟩, .opening) ∈ wordsAll ts :=
      hg.words_infix.subset (mem_words_of_marks (.inl rfl))
    have hclosing : (⟨span.stop - 1, span.stop⟩, .closing) ∈ wordsAll ts :=
      hg.words_infix.subset (mem_words_of_marks (.inr rfl))
    obtain ⟨c, cs, more, hread⟩ := h.readAt _ hopening
    obtain ⟨c', cs', more', hread'⟩ := h.readAt _ hclosing
    have hfirst := ((scan_parenthesis hread.scan).1 rfl).1
    have hlast := ((scan_parenthesis hread'.scan).2 rfl).1
    refine ⟨hfirst ▸ hread.getElem?, hlast ▸ hread'.getElem?, by have := horder.1; omega,
      fun t ht => ?_⟩
    obtain ⟨⟨v, hv, hstart⟩, w, hw, hstop⟩ := t.exists_mem_words
    rw [← hstart, ← hstop]
    exact ⟨(horder.2 v ((words_infix_of_mem ht).subset hv)).1,
      (horder.2 w ((words_infix_of_mem ht).subset hw)).2⟩
  rest := by
    obtain ⟨stop, hstop, -, hwords, hend, hrest⟩ := h.rest
    refine ⟨stop, hstop, fun t ht => ?_, hend, fun i c hi hc => ?_⟩
    · obtain ⟨-, w, hw, hlast⟩ := t.exists_mem_words
      rw [← hlast]
      exact hwords w (ht.words_infix.subset hw)
    · refine (hrest i c (Nat.zero_le i) hi hc).imp_left ?_
      rintro ⟨w, hw, hle, hlt⟩
      obtain ⟨t, ht, hmarks⟩ := exists_marks_of_mem_wordsAll ts hw
      refine ⟨t, ht, ?_⟩
      cases t with
      | leaf span word =>
        obtain rfl := hmarks
        exact ⟨hle, hlt⟩
      | group span inner =>
        obtain rfl | rfl := hmarks
        · exact .inl (Nat.le_antisymm (Nat.le_of_lt_succ hlt) hle)
        · exact .inr (Nat.le_antisymm (Nat.le_sub_one_of_lt hlt) hle)
  lex_cut span word ht file line := by
    have hmem : (span, .word word) ∈ wordsAll ts :=
      ht.words_infix.subset (mem_words_of_marks (t := .leaf span word) rfl)
    obtain ⟨c, cs, more, hread⟩ := h.readAt _ hmem
    exact Lexer.lex_cut hread rfl file line

theorem accounts_of_lex {text : String} (h : lex file line text = .ok ts) :
    Accounts text.toList ts := by
  obtain ⟨words, hflat, hgroup⟩ := Checked.bind_eq_ok.1 h
  have hspread : Spread text.toList 0 words := spread_flat rfl (Nat.zero_le _) hflat
  have hwords := wordsAll_of_group (fun w hw => hspread.parenthesis hw) hgroup
  obtain rfl : wordsAll ts = words := by simpa [openWords, wordsAll] using hwords
  exact hspread.accounts

/-- **A line breaks a rule about parentheses if, and only if, its words can be read and their
parentheses are not balanced.** -/
theorem aboutParentheses_iff {text : String} :
    (∃ d, lex file line text = .error d ∧ AboutParentheses d) ↔
      ∃ words, flat file line 0 text.toList = .ok words ∧ ¬ Balanced words := by
  have hlex : lex file line text =
      (flat file line 0 text.toList).bind (group file line [] []) := rfl
  rw [hlex]
  cases hflat : flat file line 0 text.toList with
  | error d =>
    simp only [Except.bind, reduceCtorEq, false_and, exists_false, iff_false, not_exists, not_and]
    intro e he
    obtain rfl := Except.error.inj he
    exact not_aboutParentheses_of_flat hflat
  | ok words =>
    have hgroup : (Except.ok words : Checked _).bind (group file line [] []) =
      group file line [] [] words := rfl
    rw [hgroup, exists_aboutParentheses_iff]
    simp

/-- **Every character of a line is accounted for, or the parentheses are not balanced, or a word
cannot be read.** -/
theorem lex_accounts (file : String) (line : Nat) (text : String) :
    (∀ ts, lex file line text = .ok ts → Accounts text.toList ts) ∧
      (∀ words, (∃ d, group file line [] [] words = .error d ∧ AboutParentheses d) ↔
        ¬ Balanced words) ∧
      ((∃ d, lex file line text = .error d ∧ AboutParentheses d) ↔
        ∃ words, flat file line 0 text.toList = .ok words ∧ ¬ Balanced words) :=
  ⟨fun _ h => accounts_of_lex h, fun _ => exists_aboutParentheses_iff, aboutParentheses_iff⟩

theorem lex_accounts_nested : ∃ ts, lex "a.bas" 1 "F(X,(\"é\"\"\"))<>0b1 ' )" = .ok ts ∧
    Accounts "F(X,(\"é\"\"\"))<>0b1 ' )".toList ts ∧
    ¬ ∃ d, lex "a.bas" 1 "F(X,(\"é\"\"\"))<>0b1 ' )" = .error d ∧ AboutParentheses d := by
  have hlex := Checked.eq_ok (x := lex "a.bas" 1 "F(X,(\"é\"\"\"))<>0b1 ' )") (by decide +kernel)
  refine ⟨_, hlex, (lex_accounts "a.bas" 1 _).1 _ hlex, ?_⟩
  rintro ⟨d, hd, -⟩
  cases hlex.symm.trans hd

end Lexer

end ChannelBasic
