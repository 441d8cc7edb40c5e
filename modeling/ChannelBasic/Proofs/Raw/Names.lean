import ChannelBasic.Proofs.Faultless.Reading
import ChannelBasic.Proofs.Raw.Declarations
import ChannelBasic.Proofs.Raw.Grammar
import ChannelBasic.Proofs.Token.Display

/-!
# Proofs/Raw/Names — every name of a program is one word

A name comes into an expression only from a word that is a name, so whatever is read from lines is
`Named`: **each name in it would be read as that name again** (`Raw.named_ofLines`).  Names of types and
fields, which stand in no expression, are left aside.
-/

namespace ChannelBasic

open Lexer

/-! ## Tokens -/

namespace Token

mutual

/-- The names in a token. -/
def names : Token → List String
  | .leaf _ (.ident n) => [n]
  | .leaf _ _ => []
  | .group _ inner => namesAll inner

/-- The names in some tokens. -/
def namesAll : List Token → List String
  | [] => []
  | t :: rest => t.names ++ namesAll rest

end

/-- Every name in a token is a name. -/
def Named (t : Token) : Prop := ∀ n ∈ t.names, IsName n

/-- Every name in some tokens is a name. -/
def NamedAll (ts : List Token) : Prop := ∀ t ∈ ts, t.Named

variable {t : Token} {ts : List Token} {span : Span}

theorem mem_namesAll {n : String} : n ∈ namesAll ts ↔ ∃ t ∈ ts, n ∈ t.names := by
  induction ts with
  | nil => simp [namesAll]
  | cons t ts ih => simp [namesAll, ih]

theorem named_group : (group span ts).Named ↔ NamedAll ts := by
  simp only [Named, NamedAll, names, mem_namesAll]
  exact ⟨fun h t ht n hn => h n ⟨t, ht, hn⟩, fun h n ⟨t, ht, hn⟩ => h t ht n hn⟩

theorem named_ident {n : String} : (leaf span (.ident n)).Named ↔ IsName n := by
  simp [Named, names]

theorem namedAll_cons : NamedAll (t :: ts) ↔ t.Named ∧ NamedAll ts := List.forall_mem_cons

end Token

open Token (NamedAll)

theorem Token.Readable.named {t : Token} (h : t.Readable) : t.Named := by
  induction h with
  | leaf h =>
    cases h with
    | ident hn => exact named_ident.2 hn
    | _ => simp [Named, names]
  | group _ ih => exact named_group.2 ih

/-- Every name on a line is a name. -/
def Line.Named (l : Line) : Prop := NamedAll l.tokens

theorem Line.named_read {file text : String} {number : Nat} {l : Line}
    (h : Line.read file number text = .ok l) : l.Named :=
  fun t ht => (Line.readable_read h t ht).named

/-- Every name on some lines is a name. -/
def Line.NamedAll (ls : List Line) : Prop := ∀ l ∈ ls, l.Named

namespace Source

variable {found found' : Spliced}

theorem named_spliceLines {file : String → Location → Spliced → Checked Spliced}
    (hfile : ∀ name place found found', Line.NamedAll found.lines →
      file name place found = .ok found' → Line.NamedAll found'.lines) {name : String}
    {number : Nat} {texts : List String} (hfound : Line.NamedAll found.lines)
    (h : spliceLines file name number found texts = .ok found') : Line.NamedAll found'.lines := by
  induction texts generalizing number found with
  | nil =>
    cases h
    exact hfound
  | cons text texts ih =>
    obtain ⟨line, hline, h⟩ := Checked.bind_eq_ok.1 h
    dsimp only at h
    split at h
    · exact ih hfound h
    · split at h
      · obtain ⟨next, hnext, h⟩ := Checked.bind_eq_ok.1 h
        exact ih (hfile _ _ _ _ hfound hnext) h
      · cases h
      · refine ih ?_ h
        exact List.forall_mem_cons.2 ⟨Line.named_read hline, hfound⟩

theorem named_spliceFile {load : Loader} {depth : Nat} {name : String} {place : Option Location}
    (hfound : Line.NamedAll found.lines)
    (h : spliceFile load depth name place found = .ok found') : Line.NamedAll found'.lines := by
  induction depth generalizing name place found found' with
  | zero => cases h
  | succ depth ih =>
    unfold spliceFile at h
    split at h
    · cases h
      exact hfound
    · split at h
      · cases h
      · refine named_spliceLines (fun _ _ _ _ => ih) ?_ h
        exact hfound

end Source

/-- Every name on the lines of a program is a name. -/
theorem Sources.named_splice {sources : Sources} {main : String} {lines : List Line}
    (h : sources.splice main = .ok lines) : Line.NamedAll lines := by
  obtain ⟨found, hfound, h⟩ := Checked.bind_eq_ok.1 h
  obtain rfl := Checked.pure_eq_ok.1 h
  have hlines := Source.named_spliceFile (by simp [Line.NamedAll]) hfound
  exact fun l hl => hlines l (List.mem_reverse.1 hl)

/-! ## Expressions -/

namespace Raw

mutual

/-- The names in an expression. -/
def Expr.names : Expr → List String
  | .integer _ _ | .real _ _ | .text _ _ | .boolean _ _ => []
  | .name _ n => [n]
  | .member _ target field => field :: target.names
  | .call _ function arguments => function :: Expr.namesAll arguments
  | .unary _ _ operand => operand.names
  | .binary _ _ left right => left.names ++ right.names

/-- The names in some expressions. -/
def Expr.namesAll : List Expr → List String
  | [] => []
  | e :: rest => e.names ++ Expr.namesAll rest

end

/-- Every name in an expression is a name. -/
def Expr.Named (e : Expr) : Prop := ∀ n ∈ e.names, IsName n

/-- Every name in an item is a name. -/
def Item.Named : Item → Prop
  | .operand e => e.Named
  | _ => True

theorem Expr.mem_namesAll {es : List Expr} {n : String} :
    n ∈ namesAll es ↔ ∃ e ∈ es, n ∈ e.names := by
  induction es with
  | nil => simp [namesAll]
  | cons e es ih => simp [namesAll, ih]

variable {line : Line} {e : Expr} {tokens : List Token}

theorem Phrase.named_value {p : Phrase} (h : ∀ i ∈ p.items, i.Named) : p.value.Named := by
  induction p with
  | operand e => exact h (.operand e) (by simp [items])
  | unary l op inner ih => exact ih fun i hi => h i (by simp [items, hi])
  | binary l op left right ihl ihr =>
    intro n hn
    obtain hn | hn := List.mem_append.1 hn
    · exact ihl (fun i hi => h i (by simp [items, hi])) n hn
    · exact ihr (fun i hi => h i (by simp [items, hi])) n hn

theorem namedAll_piecesFrom {outer : Location} {piece : List Token} {found : List (List Token)}
    (hpiece : NamedAll piece) (htokens : NamedAll tokens)
    (h : piecesFrom line outer piece tokens = .ok found) : ∀ p ∈ found, NamedAll p := by
  have hreverse {piece : List Token} (h : NamedAll piece) : NamedAll piece.reverse :=
    fun t ht => h t (List.mem_reverse.1 ht)
  induction tokens generalizing piece found with
  | nil =>
    unfold piecesFrom at h
    split at h
    · cases h
    · cases h
      simpa using hreverse hpiece
  | cons t rest ih =>
    obtain ⟨ht, hrest⟩ := Token.namedAll_cons.1 htokens
    unfold piecesFrom at h
    split at h
    · split at h
      · cases h
      · obtain ⟨pieces, hpieces, h⟩ := Checked.bind_eq_ok.1 h
        cases h
        exact List.forall_mem_cons.2 ⟨hreverse hpiece, ih (by simp [NamedAll]) hrest hpieces⟩
    · exact ih (Token.namedAll_cons.2 ⟨ht, hpiece⟩) hrest h

theorem namedAll_pieces {outer : Location} {found : List (List Token)} (htokens : NamedAll tokens)
    (h : pieces line outer tokens = .ok found) : ∀ p ∈ found, NamedAll p := by
  unfold pieces at h
  split at h
  · cases h
    simp
  · exact namedAll_piecesFrom (by simp [NamedAll]) htokens h

theorem named_literal? {place : Location} {word : Lexeme}
    (h : literal? place word = .ok (some e)) : e.Named := by
  unfold literal? at h
  grind [Expr.Named, Expr.names]

theorem named_after {pending : Option Expr} {row : List Item}
    (hpending : ∀ e, pending = some e → e.Named) (hrow : ∀ i ∈ row, i.Named) :
    ∀ i ∈ Item.after pending row, i.Named := by
  cases pending with
  | none => exact hrow
  | some e => exact List.forall_mem_cons.2 ⟨hpending e rfl, hrow⟩

theorem named_ofKeyword? {place : Location} {k : Keyword} {i : Item}
    (h : Item.ofKeyword? place k = some i) : i.Named := by
  unfold Item.ofKeyword? at h
  split at h <;> cases h <;> trivial

/-- Every name in the items of a row of tokens is a name, if so it is between parentheses. -/
theorem named_items {inner : Location → List Token → Checked Expr}
    (hinner : ∀ place tokens e, NamedAll tokens → inner place tokens = .ok e → e.Named)
    {pending : Option Expr} {row : List Item} (hpending : ∀ e, pending = some e → e.Named)
    (htokens : NamedAll tokens) (h : items line inner pending tokens = .ok row) :
    ∀ i ∈ row, i.Named := by
  have known {e : Expr} (h : e.Named) : ∀ e', some e = some e' → e'.Named :=
    fun _ he => Option.some.inj he ▸ h
  fun_induction items line inner pending tokens generalizing row with
  | case1 pending =>
    cases h
    exact named_after hpending (by simp)
  | case2 target _ span field rest ih =>
    obtain ⟨hfield, hrest⟩ := Token.namedAll_cons.1 (Token.namedAll_cons.1 htokens).2
    refine ih (known (List.forall_mem_cons.2 ⟨?_, hpending target rfl⟩)) hrest h
    exact Token.named_ident.1 hfield
  | case3 | case4 => cases h
  | case5 pending span name outer arguments rest ih =>
    obtain ⟨hname, htokens⟩ := Token.namedAll_cons.1 htokens
    obtain ⟨hgroup, hrest⟩ := Token.namedAll_cons.1 htokens
    obtain ⟨found, hfound, h⟩ := Checked.bind_eq_ok.1 h
    obtain ⟨args, hargs, h⟩ := Checked.bind_eq_ok.1 h
    obtain ⟨row, hrow, h⟩ := Checked.bind_eq_ok.1 h
    obtain rfl := Checked.pure_eq_ok.1 h
    rw [Checked.mapM_eq_ok] at hargs
    have hnamed : ∀ e ∈ args, e.Named := fun e he => by
      obtain ⟨k, hk⟩ := List.mem_iff_getElem?.1 he
      obtain ⟨piece, hpiece, hread⟩ := forall₂_right hargs hk
      exact hinner _ piece e (namedAll_pieces (Token.named_group.1 hgroup) hfound piece
        (List.mem_of_getElem? hpiece)) hread
    refine named_after hpending (ih args (known (List.forall_mem_cons.2 ⟨?_, fun n hn => ?_⟩)) hrest hrow)
    · exact Token.named_ident.1 hname
    · obtain ⟨e, he, hn⟩ := Expr.mem_namesAll.1 hn
      exact hnamed e he n hn
  | case6 pending span name rest _ ih =>
    obtain ⟨hname, hrest⟩ := Token.namedAll_cons.1 htokens
    obtain ⟨row, hrow, h⟩ := Checked.bind_eq_ok.1 h
    obtain rfl := Checked.pure_eq_ok.1 h
    exact named_after hpending (ih (known hname) hrest hrow)
  | case7 pending span tokens rest ih =>
    obtain ⟨hgroup, hrest⟩ := Token.namedAll_cons.1 htokens
    obtain ⟨e, he, h⟩ := Checked.bind_eq_ok.1 h
    obtain ⟨row, hrow, h⟩ := Checked.bind_eq_ok.1 h
    obtain rfl := Checked.pure_eq_ok.1 h
    have hnamed := hinner _ tokens e (Token.named_group.1 hgroup) he
    exact named_after hpending (ih e (known hnamed) hrest hrow)
  | case8 pending span s rest ih =>
    obtain ⟨row, hrow, h⟩ := Checked.bind_eq_ok.1 h
    obtain rfl := Checked.pure_eq_ok.1 h
    refine named_after hpending (List.forall_mem_cons.2 ⟨?_, ih (by simp) (Token.namedAll_cons.1 htokens).2 hrow⟩)
    cases s <;> cases pending <;> trivial
  | case9 pending span word rest =>
    -- a literal, or a reserved word that is an operator
    rename_i ihLiteral ihKeyword
    have hrest := (Token.namedAll_cons.1 htokens).2
    obtain ⟨found, hfound, h⟩ := Checked.bind_eq_ok.1 h
    cases found with
    | some e =>
      obtain ⟨row, hrow, h⟩ := Checked.bind_eq_ok.1 h
      obtain rfl := Checked.pure_eq_ok.1 h
      exact named_after hpending (ihLiteral e (known (named_literal? hfound)) hrest hrow)
    | none =>
      dsimp only at h
      split at h
      next k =>
        split at h
        next item hitem =>
          obtain ⟨row, hrow, h⟩ := Checked.bind_eq_ok.1 h
          obtain rfl := Checked.pure_eq_ok.1 h
          refine named_after hpending (List.forall_mem_cons.2 ⟨?_, ihKeyword (by simp) hrest hrow⟩)
          exact named_ofKeyword? hitem
        next => cases h
      next => cases h

theorem named_exprWithin {depth : Nat} {place : Location} (htokens : NamedAll tokens)
    (h : exprWithin line depth place tokens = .ok e) : e.Named := by
  induction depth generalizing place tokens e with
  | zero => cases h
  | succ depth ih =>
    obtain ⟨-, p, hitems, -, rfl⟩ := exprWithin_eq_ok_iff.1 h
    exact Phrase.named_value (named_items (fun _ _ _ => ih) (by simp) htokens hitems)

/-- **Every name in an expression that is read is a name.** -/
theorem named_expr {place : Location} (htokens : NamedAll tokens)
    (h : expr line place tokens = .ok e) : e.Named := named_exprWithin htokens h

end Raw

/-! ## Lines -/

/-- Every name that is still to be read is a name. -/
def Cursor.Named (c : Cursor) : Prop := NamedAll c.rest

namespace Reading

variable {α : Type} {c : Cursor}

theorem ends_place : Ends place c fun _ c' => c' = c := Ends.reads (Ends.value rfl)

theorem ends_next (hc : c.Named) :
    Ends next c fun t c' => (∀ u, t = some u → u.Named) ∧ c'.Named := by
  intro t c' h
  unfold next StateT.run at h
  dsimp only at h
  split at h
  · cases h
    exact ⟨by simp, hc⟩
  next u rest hrest =>
    cases h
    rw [Cursor.Named, hrest, Token.namedAll_cons] at hc
    exact ⟨fun _ hu => Option.some.inj hu ▸ hc.1, hc.2⟩

theorem ends_peek : Ends peek c fun _ c' => c' = c := Ends.reads (Ends.value rfl)

theorem ends_isEnd : Ends isEnd c fun _ c' => c' = c := Ends.reads (Ends.value rfl)

theorem ends_accept (k : Keyword) (hc : c.Named) : Ends (accept k) c fun _ c' => c'.Named := by
  intro t c' h
  unfold accept StateT.run at h
  dsimp only at h
  split at h
  next u rest hrest =>
    rw [Cursor.Named, hrest, Token.namedAll_cons] at hc
    split at h
    · cases h
      exact hc.2
    · cases h
      rw [Cursor.Named, hrest]
      exact Token.namedAll_cons.2 hc
  · cases h
    exact hc

theorem ends_expect (k : Keyword) (rule : Rule) (hc : c.Named) :
    Ends (expect k rule) c fun _ c' => c'.Named := by
  unfold expect
  refine (ends_accept k hc).seq fun found c₁ h₁ => ?_
  cases found with
  | true => exact Ends.value h₁
  | false => exact Ends.after fun _ _ => Ends.refused

theorem ends_ident (rule : Rule) (hc : c.Named) :
    Ends (ident rule) c fun r c' => IsName r.2 ∧ c'.Named := by
  unfold ident
  refine ends_place.seq fun here c₁ h₁ => ?_
  subst h₁
  refine (ends_next hc).seq fun t c₂ h₂ => ?_
  split
  · exact Ends.value ⟨Token.named_ident.1 (h₂.1 _ rfl), h₂.2⟩
  · exact Ends.refused

theorem ends_equals (hc : c.Named) : Ends equals c fun _ c' => c'.Named := by
  unfold equals
  refine (ends_next hc).seq fun t c₁ h₁ => ?_
  split
  · exact Ends.value h₁.2
  · exact Ends.after fun _ _ => Ends.refused

theorem ends_before (stops : Token → Bool) (hc : c.Named) :
    Ends (before stops) c fun ts c' => NamedAll ts ∧ c'.Named := by
  intro ts c' h
  cases h
  exact ⟨fun t ht => hc t ((List.takeWhile_sublist _).subset ht),
    fun t ht => hc t ((List.dropWhile_sublist _).subset ht)⟩

theorem ends_expr (stops : List Keyword) (hc : c.Named) :
    Ends (Reading.expr stops) c fun e c' => e.Named ∧ c'.Named := by
  unfold Reading.expr
  refine ends_place.seq fun here c₁ h₁ => ?_
  subst h₁
  refine (ends_before _ hc).seq fun ts c₂ h₂ => Ends.reads ?_
  exact Ends.lifts fun e he => ⟨Raw.named_expr h₂.1 he, h₂.2⟩

end Reading

/-! ## Statements -/

namespace Raw

mutual

/-- The expressions that a statement is made of. -/
def Stmt.exprs : Stmt → List Expr
  | .var _ _ _ value => value.toList
  | .assign _ target value => [value, target]
  | .call _ call => [call]
  | .return _ value => value.toList
  | .choose _ branches => branches.exprs
  | .count _ counter start finish step body =>
    [counter, start, finish] ++ step.toList ++ Stmt.exprsAll body
  | .loop _ condition body => (condition.map (·.value)).toList ++ Stmt.exprsAll body

/-- The expressions that some statements are made of. -/
def Stmt.exprsAll : List Stmt → List Expr
  | [] => []
  | s :: rest => s.exprs ++ Stmt.exprsAll rest

/-- The expressions that the branches of an `IF` are made of. -/
def Branches.exprs : Branches → List Expr
  | .done => []
  | .otherwise body => Stmt.exprsAll body
  | .branch condition body rest => condition :: Stmt.exprsAll body ++ rest.exprs

end

/-- Every name in some expressions is a name. -/
def Expr.NamedAll (es : List Expr) : Prop := ∀ e ∈ es, e.Named

variable {c : Cursor} {line : Line} {lines : List Line} {block : BlockReader}

@[simp] theorem Expr.namedAll_nil : NamedAll [] := by simp [NamedAll]

@[simp] theorem Expr.namedAll_cons {e : Expr} {es : List Expr} :
    NamedAll (e :: es) ↔ e.Named ∧ NamedAll es := List.forall_mem_cons

@[simp] theorem Expr.namedAll_append {es fs : List Expr} :
    NamedAll (es ++ fs) ↔ NamedAll es ∧ NamedAll fs := List.forall_mem_append

theorem Expr.named_name {place : Location} {n : String} (h : IsName n) : (name place n).Named := by
  simpa [Named, names] using h

theorem ends_varStmt (place : Location) (hc : c.Named) :
    Ends (varStmt place) c fun s _ => Expr.NamedAll s.exprs := by
  unfold varStmt
  refine (Reading.ends_ident _ hc).seq fun r c₁ h₁ => ?_
  refine Reading.ends_peek.seq fun t c₂ h₂ => ?_
  subst h₂
  have rest (value : Option Expr) (hvalue : Expr.NamedAll value.toList) (c : Cursor) :
      Ends (do
        let type ← Reading.asType
        Reading.finish
        if value.isNone && type.isNone then
          throw (Rule.expectedAsKeyword.here (← Reading.place))
        return .var place r.2 type value : Reading Stmt) c fun s _ => Expr.NamedAll s.exprs := by
    refine Ends.after fun type _ => Ends.after fun _ _ => ?_
    dsimp only
    split
    · exact Ends.after fun _ _ => Ends.refused_seq
    · exact Ends.value hvalue
  dsimp only
  split
  · refine (Reading.ends_next h₁.2).seq fun _ c₃ h₃ => ?_
    refine (Reading.ends_expr _ h₃.2).seq fun e c₄ h₄ => ?_
    exact Ends.value_seq (rest (some e) (by simpa using h₄.1) c₄)
  · exact Ends.value_seq (rest none (by simp) _)

theorem ends_returnStmt (place : Location) (hc : c.Named) :
    Ends (returnStmt place) c fun s _ => Expr.NamedAll s.exprs := by
  unfold returnStmt
  refine Reading.ends_isEnd.seq fun b c₁ h₁ => ?_
  subst h₁
  split
  · exact Ends.value (by simp [Stmt.exprs])
  · refine (Reading.ends_expr _ hc).seq fun e _ he => ?_
    exact Ends.value (by simpa [Stmt.exprs] using he.1)

theorem ends_assignStmt (place : Location) (hc : c.Named) :
    Ends (assignStmt place) c fun s _ => Expr.NamedAll s.exprs := by
  unfold assignStmt
  refine Ends.reads ?_
  refine (Reading.ends_before _ hc).seq fun target c₁ h₁ => ?_
  refine Reading.ends_isEnd.seq fun b c₂ h₂ => ?_
  subst h₂
  split
  · refine Ends.seq (Ends.lifts (Q := fun e _ => e.Named) fun e he => named_expr h₁.1 he)
      fun e _ he => ?_
    split
    · exact Ends.value (by simpa [Stmt.exprs] using he)
    · exact Ends.refused
  · refine Reading.ends_place.seq fun equal c₃ h₃ => ?_
    subst h₃
    refine (Reading.ends_next h₁.2).seq fun _ c₄ h₄ => ?_
    refine Ends.seq (Ends.lifts (Q := fun e c => e.Named ∧ c.Named) fun e he =>
      ⟨named_expr h₁.1 he, h₄.2⟩) fun e c₅ h₅ => Ends.reads ?_
    refine Ends.seq (Ends.lifts (Q := fun e _ => e.Named) fun e he => named_expr h₅.2 he)
      fun value _ hvalue => ?_
    exact Ends.value (by simpa [Stmt.exprs] using ⟨hvalue, h₅.1⟩)

theorem ends_ifHead (hc : c.Named) : Ends ifHead c fun e _ => e.Named := by
  unfold ifHead
  refine (Reading.ends_expr _ hc).seq fun e _ he => ?_
  exact Ends.after fun _ _ => Ends.after fun _ _ => Ends.value he.1

theorem ends_elseIfHead (hc : c.Named) : Ends (do
    let _ ← Reading.next
    let _ ← Reading.next
    ifHead) c fun e _ => e.Named := by
  refine (Reading.ends_next hc).seq fun _ c₁ h₁ => ?_
  exact (Reading.ends_next h₁.2).seq fun _ c₂ h₂ => ends_ifHead h₂.2

/-- Every name that a counting loop is told of is a name. -/
def CountHead.Named (h : CountHead) : Prop :=
  IsName h.name ∧ Expr.NamedAll ([h.start, h.finish] ++ h.step.toList)

theorem ends_countHead (hc : c.Named) : Ends countHead c fun h _ => h.Named := by
  unfold countHead
  refine (Reading.ends_ident _ hc).seq fun r c₁ h₁ => ?_
  refine (Reading.ends_equals h₁.2).seq fun _ c₂ h₂ => ?_
  refine (Reading.ends_expr _ h₂).seq fun start c₃ h₃ => ?_
  refine (Reading.ends_expect _ _ h₃.2).seq fun _ c₄ h₄ => ?_
  refine (Reading.ends_expr _ h₄).seq fun finish c₅ h₅ => ?_
  refine (Reading.ends_accept _ h₅.2).seq fun found c₆ h₆ => ?_
  have rest (step : Option Expr) (hstep : Expr.NamedAll step.toList) (c : Cursor) :
      Ends (do
        Reading.finish
        return ⟨r.1, r.2, start, finish, step⟩ : Reading CountHead) c fun h _ => h.Named :=
    Ends.after fun _ _ => Ends.value
      ⟨h₁.1, by simpa using ⟨h₃.1, h₅.1, hstep⟩⟩
  cases found with
  | true =>
    refine (Reading.ends_expr _ h₆).seq fun e c₇ h₇ => ?_
    exact Ends.value_seq (rest (some e) (by simpa using h₇.1) c₇)
  | false => exact Ends.value_seq (rest none (by simp) c₆)

theorem ends_loopCondition (post : Bool) (hc : c.Named) :
    Ends (loopCondition post) c fun r _ => Expr.NamedAll (r.map (·.value)).toList := by
  unfold loopCondition
  refine (Reading.ends_accept _ hc).seq fun found c₁ h₁ => ?_
  cases found with
  | true =>
    refine (Reading.ends_expr _ h₁).seq fun e _ he => ?_
    exact Ends.value (by simpa using he.1)
  | false =>
    refine (Reading.ends_accept _ h₁).seq fun found c₂ h₂ => ?_
    cases found with
    | true =>
      refine (Reading.ends_expr _ h₂).seq fun e _ he => ?_
      exact Ends.value (by simpa using he.1)
    | false => exact Ends.value (by simp)

theorem ends_loopHead (hc : c.Named) : Ends (do
    let condition ← loopCondition false
    Reading.finish
    return condition) c fun r _ => Expr.NamedAll (r.map (·.value)).toList :=
  (ends_loopCondition false hc).seq fun _ _ h => Ends.after fun _ _ => Ends.value h

theorem ends_loopEnd {condition : Option Condition}
    (h : Expr.NamedAll (condition.map (·.value)).toList) (hc : c.Named) :
    Ends (loopEnd line condition) c fun r _ => Expr.NamedAll (r.map (·.value)).toList := by
  unfold loopEnd
  refine (ends_loopCondition true hc).seq fun post _ hpost => ?_
  split
  · exact Ends.refused_seq
  · refine Ends.after fun _ _ => Ends.value ?_
    cases post with
    | some p => exact hpost
    | none => exact h

/-- What is done apart from the lines leaves them named. -/
theorem ends_apart {α : Type} {x : Checked α} (hlines : Line.NamedAll lines) :
    Ends (liftM x : LineReading α) lines fun _ lines' => Line.NamedAll lines' :=
  Ends.lifts fun _ _ => hlines

/-- A named line is read as its reader promises, and the lines behind it stay named. -/
theorem ends_onTokens {α : Type} {r : Reading α} {P : α → Prop} (hline : line.Named)
    (hr : ∀ c, c.Named → Ends r c fun a _ => P a) (hlines : Line.NamedAll lines) :
    Ends (liftM (Reading.onTokens line line.tokens r) : LineReading α) lines
      fun a lines' => P a ∧ Line.NamedAll lines' := by
  refine Ends.lifts fun a ha => ⟨?_, hlines⟩
  obtain ⟨c', hc'⟩ := run'_eq_ok.1 ha
  exact hr (.ofTokens line line.tokens) hline a c' hc'

theorem ends_afterWord {α : Type} {r : Reading α} {P : α → Prop} (hline : line.Named)
    (hr : ∀ c, c.Named → Ends r c fun a _ => P a) (hlines : Line.NamedAll lines) :
    Ends (liftM (afterWord line r) : LineReading α) lines
      fun a lines' => P a ∧ Line.NamedAll lines' :=
  ends_onTokens hline (fun _ hc => (Reading.ends_next hc).seq fun _ c₁ h₁ => hr c₁ h₁.2) hlines

/-- A reader of statements that finds named expressions on named lines. -/
def BlockReader.Named (block : BlockReader) : Prop :=
  ∀ opened what closes lines, Line.NamedAll lines → Ends (block opened what closes) lines
    fun r lines' => Expr.NamedAll (Stmt.exprsAll r.1) ∧ r.2.Named ∧ Line.NamedAll lines'

theorem ends_branches (hblock : block.Named) (opened : Location) (bound : Nat) {condition : Expr}
    (hcondition : condition.Named) (hlines : Line.NamedAll lines) :
    Ends (branches block opened bound condition) lines
      fun b lines' => Expr.NamedAll b.exprs ∧ Line.NamedAll lines' := by
  induction bound generalizing condition lines with
  | zero => exact Ends.refused
  | succ bound ih =>
    unfold branches
    refine (hblock _ _ _ _ hlines).seq fun r lines₁ h₁ => ?_
    obtain ⟨body, closing⟩ := r
    obtain ⟨hbody, hclosing, hlines₁⟩ := h₁
    dsimp only at hbody hclosing ⊢
    split
    · refine (ends_apart hlines₁).seq fun _ lines₂ h₂ => ?_
      exact Ends.value ⟨by simpa [Branches.exprs] using ⟨hcondition, hbody⟩, h₂⟩
    · split
      · refine (ends_onTokens hclosing (fun _ => ends_elseIfHead) hlines₁).seq fun e lines₂ h₂ => ?_
        refine (ih h₂.1 h₂.2).seq fun rest lines₃ h₃ => ?_
        exact Ends.value ⟨by simpa [Branches.exprs] using ⟨hcondition, hbody, h₃.1⟩, h₃.2⟩
      · refine (ends_apart hlines₁).seq fun _ lines₂ h₂ => ?_
        refine (hblock _ _ _ _ h₂).seq fun r lines₃ h₃ => (ends_apart h₃.2.2).seq fun _ lines₄ h₄ => ?_
        exact Ends.value ⟨by simpa [Branches.exprs] using ⟨hcondition, hbody, h₃.1⟩, h₄⟩

theorem ends_stmt (hblock : block.Named) (bound : Nat) (hline : line.Named)
    (hlines : Line.NamedAll lines) :
    Ends (stmt block bound line) lines
      fun s lines' => Expr.NamedAll s.exprs ∧ Line.NamedAll lines' := by
  unfold stmt
  split
  · exact ends_afterWord hline (fun _ => ends_varStmt _) hlines
  · exact ends_afterWord hline (fun _ => ends_returnStmt _) hlines
  · unfold chooseStmt
    refine (ends_afterWord hline (fun _ => ends_ifHead) hlines).seq fun e lines₁ h₁ => ?_
    exact (ends_branches hblock _ bound h₁.1 h₁.2).seq fun b lines₂ h₂ => Ends.value h₂
  · unfold countStmt
    refine (ends_afterWord hline (fun _ => ends_countHead) hlines).seq fun head lines₁ h₁ => ?_
    refine (hblock _ _ _ _ h₁.2).seq fun r lines₂ h₂ => (ends_apart h₂.2.2).seq fun _ lines₃ h₃ => ?_
    refine Ends.value ⟨?_, h₃⟩
    have hhead := h₁.1.2
    simp only [Expr.namedAll_append, Expr.namedAll_cons, Expr.namedAll_nil, and_true] at hhead
    simpa [Stmt.exprs] using ⟨Expr.named_name h₁.1.1, hhead.1.1, hhead.1.2, hhead.2, h₂.1⟩
  · unfold loopStmt
    refine (ends_afterWord hline (fun _ => ends_loopHead) hlines).seq fun c lines₁ h₁ => ?_
    refine (hblock _ _ _ _ h₁.2).seq fun r lines₂ h₂ => ?_
    refine (ends_afterWord h₂.2.1 (fun _ => ends_loopEnd h₁.1) h₂.2.2).seq fun c lines₃ h₃ => ?_
    exact Ends.value ⟨by simpa [Stmt.exprs] using ⟨h₃.1, h₂.1⟩, h₃.2⟩
  · exact ends_onTokens hline (fun _ => ends_assignStmt _) hlines
  · exact Ends.refused

theorem ends_nextLine (opened : Location) (what : String) (hlines : Line.NamedAll lines) :
    Ends (nextLine opened what) lines fun l lines' => l.Named ∧ Line.NamedAll lines' := by
  intro l lines' h
  cases lines with
  | nil => cases h
  | cons line lines =>
    cases h
    exact List.forall_mem_cons.1 hlines

/-- **Statements on named lines are named.** -/
theorem named_statements (bound : Nat) : (statements bound).Named := by
  induction bound with
  | zero => exact fun _ _ _ _ _ => Ends.refused
  | succ bound ih =>
    intro opened what closes lines hlines
    unfold statements
    refine (ends_nextLine _ _ hlines).seq fun line lines₁ h₁ => ?_
    split
    · exact Ends.value ⟨by simp [Stmt.exprsAll], h₁⟩
    · refine (ends_stmt ih bound h₁.1 h₁.2).seq fun s lines₂ h₂ => ?_
      refine (ih _ _ _ _ h₂.2).seq fun r lines₃ h₃ => ?_
      exact Ends.value ⟨by simpa [Stmt.exprsAll] using ⟨h₂.1, h₃.1⟩, h₃.2⟩

/-! ## Programs -/

/-- Every name in the body of a function is a name. -/
def Function.Named (f : Function) : Prop :=
  ∀ arguments statements, f.body = .user arguments statements →
    Expr.NamedAll (Stmt.exprsAll statements)

/-- Every name in the functions of a code block is a name. -/
def CodeBlock.Named (b : CodeBlock) : Prop := ∀ f ∈ b.functions, f.Named

/-- Every name in the functions of a module is a name. -/
def Module.Named (m : Module) : Prop := ∀ b ∈ m.codeBlocks, b.Named

/-- Every name in the constants and functions of a program is a name. -/
structure Program.Named (p : Program) : Prop where
  constants : ∀ c ∈ p.constants, c.value.Named
  libraries : ∀ b ∈ p.libraries, b.Named
  modules : ∀ m ∈ p.modules, m.Named

variable {p : Program} {m : Module}

/-- Entries on named lines are what their reader promises, and the lines behind them are named. -/
theorem named_entries {α : Type} {P : α → Prop} {opened : Location} {k : Keyword}
    {entry : Line → Checked α} (hentry : ∀ l a, l.Named → entry l = .ok a → P a)
    (hlines : Line.NamedAll lines) :
    Ends (entries opened k entry) lines fun found lines' =>
      (∀ a ∈ found, P a) ∧ Line.NamedAll lines' := by
  intro found lines' h
  induction lines generalizing found with
  | nil => cases h
  | cons line lines ih =>
    obtain ⟨hline, hlines⟩ := List.forall_mem_cons.1 hlines
    replace h : entries opened k entry (line :: lines) = .ok (found, lines') := h
    unfold entries at h
    dsimp only at h
    split at h
    · obtain ⟨_, -, h⟩ := Checked.bind_eq_ok.1 h
      cases h
      exact ⟨by simp, hlines⟩
    · obtain ⟨a, ha, h⟩ := Checked.bind_eq_ok.1 h
      obtain ⟨⟨more, rest⟩, hmore, h⟩ := Checked.bind_eq_ok.1 h
      cases h
      obtain ⟨hall, hrest⟩ := ih hlines more hmore
      exact ⟨List.forall_mem_cons.2 ⟨hentry line a hline ha, hall⟩, hrest⟩

theorem ends_constant (hc : c.Named) : Ends Reading.constant c fun r _ => r.value.Named := by
  unfold Reading.constant
  refine (Reading.ends_ident _ hc).seq fun r c₁ h₁ => ?_
  refine (Reading.ends_equals h₁.2).seq fun _ c₂ h₂ => ?_
  refine (Reading.ends_expr _ h₂).seq fun e c₃ h₃ => ?_
  exact Ends.after fun _ _ => Ends.after fun _ _ => Ends.value h₃.1

theorem named_constantLine (l : Line) (r : Constant) (hl : l.Named) (h : constantLine l = .ok r) :
    r.value.Named := by
  obtain ⟨c', hrun⟩ := run'_eq_ok.1 h
  exact ends_constant (c := .ofTokens l l.tokens) hl _ _ hrun

/-- A native function has no expressions. -/
theorem ends_nativeHead : Ends nativeHead c fun f _ => f.Named := by
  unfold nativeHead
  refine Ends.after fun _ _ => Ends.after fun _ _ => Ends.after fun _ _ => Ends.after fun _ _ =>
    Ends.after fun _ _ => Ends.after fun _ _ => Ends.value ?_
  intro arguments statements h
  cases h

theorem ends_function (bound : Nat) (hline : line.Named) (hlines : Line.NamedAll lines) :
    Ends (function bound line) lines fun f lines' => f.Named ∧ Line.NamedAll lines' := by
  unfold function
  split
  · exact ends_afterWord hline (fun _ _ => ends_nativeHead) hlines
  · split
    · refine (ends_apart hlines).seq fun r lines₁ h₁ => ?_
      refine (named_statements bound _ _ _ _ h₁).seq fun s lines₂ h₂ => ?_
      refine (ends_apart h₂.2.2).seq fun _ lines₃ h₃ => Ends.value ⟨?_, h₃⟩
      intro arguments statements h
      cases h
      exact h₂.1
    · exact Ends.refused

theorem ends_blockFunctions (opened : Location) (bound : Nat) {found : List Function}
    (hfound : ∀ f ∈ found, f.Named) (hlines : Line.NamedAll lines) :
    Ends (blockFunctions opened bound found) lines
      fun fs lines' => (∀ f ∈ fs, f.Named) ∧ Line.NamedAll lines' := by
  induction bound generalizing found lines with
  | zero => exact Ends.refused
  | succ bound ih =>
    unfold blockFunctions
    refine (ends_nextLine _ _ hlines).seq fun line lines₁ h₁ => ?_
    split
    · exact (ends_apart h₁.2).seq fun _ lines₂ h₂ => Ends.value ⟨hfound, h₂⟩
    · refine (ends_function bound h₁.1 h₁.2).seq fun f lines₂ h₂ => ?_
      refine (ends_apart h₂.2).seq fun _ lines₃ h₃ => ih ?_ h₃
      exact List.forall_mem_append.2 ⟨hfound, by simpa using h₂.1⟩

theorem ends_codeBlock (bound : Nat) (executors : List String) (hlines : Line.NamedAll lines) :
    Ends (codeBlock bound line executors) lines
      fun b lines' => b.Named ∧ Line.NamedAll lines' := by
  unfold codeBlock
  exact (ends_blockFunctions _ bound (by simp) hlines).seq fun fs lines₁ h₁ => Ends.value h₁

theorem Module.Named.addFunction (hm : m.Named) {f : Function} (hf : f.Named) :
    (m.addFunction f).Named := by
  have hown : (⟨m.location, [], [f]⟩ : CodeBlock).Named := by simpa [CodeBlock.Named] using hf
  unfold Module.addFunction
  split
  next block hblock =>
    have hlast := hm block (List.mem_of_getLast? hblock)
    split
    · refine List.forall_mem_append.2 ⟨fun b hb => hm b (List.dropLast_subset _ hb), ?_⟩
      simpa [CodeBlock.Named, or_imp, forall_and] using ⟨hlast, hf⟩
    · exact List.forall_mem_append.2 ⟨hm, by simpa using hown⟩
  next => exact List.forall_mem_append.2 ⟨hm, by simpa using hown⟩

theorem ends_fieldSection (opened : Location) (k : Keyword) (hlines : Line.NamedAll lines) :
    Ends (fieldSection opened k) lines fun _ lines' => Line.NamedAll lines' :=
  (named_entries (P := fun _ => True) (fun _ _ _ _ => trivial) hlines).mono fun _ _ h => h.2

theorem ends_modulePart (bound : Nat) (hm : m.Named) (hline : line.Named)
    (hlines : Line.NamedAll lines) :
    Ends (modulePart bound m line) lines fun m' lines' => m'.Named ∧ Line.NamedAll lines' := by
  unfold modulePart
  split
  · unfold dataSet
    refine Ends.seq (P := fun _ lines' => Line.NamedAll lines') ?_ fun data lines₁ h₁ => ?_
    · refine (ends_apart hlines).seq fun access lines₁ h₁ => ?_
      exact (ends_fieldSection _ _ h₁).seq fun fields lines₂ h₂ => Ends.value h₂
    · split
      · exact Ends.refused_seq
      · exact Ends.value ⟨hm, h₁⟩
  · split
    · refine (ends_apart hlines).seq fun _ lines₁ h₁ => ?_
      refine (ends_codeBlock bound [] h₁).seq fun block lines₂ h₂ => ?_
      refine Ends.seq (P := fun _ lines' => Line.NamedAll lines')
        (Ends.each (fun f _ _ h => ends_apart h) h₂.2) fun _ lines₃ h₃ => Ends.value ⟨?_, h₃⟩
      exact List.forall_mem_append.2 ⟨hm, by simpa using h₂.1⟩
    · split
      · refine (ends_function bound hline hlines).seq fun f lines₁ h₁ => ?_
        exact (ends_apart h₁.2).seq fun _ lines₂ h₂ => Ends.value ⟨hm.addFunction h₁.1, h₂⟩
      · exact Ends.refused

theorem ends_moduleParts (opened : Location) (bound : Nat) (hm : m.Named)
    (hlines : Line.NamedAll lines) :
    Ends (moduleParts opened bound m) lines fun m' lines' => m'.Named ∧ Line.NamedAll lines' := by
  induction bound generalizing m lines with
  | zero => exact Ends.refused
  | succ bound ih =>
    unfold moduleParts
    refine (ends_nextLine _ _ hlines).seq fun line lines₁ h₁ => ?_
    split
    · exact (ends_apart h₁.2).seq fun _ lines₂ h₂ => Ends.value ⟨hm, h₂⟩
    · exact (ends_modulePart bound hm h₁.1 h₁.2).seq fun m' lines₂ h₂ => ih h₂.1 h₂.2

theorem named_insertModule {ms ms' : List Module} (hm : m.Named) (hms : ∀ m ∈ ms, m.Named)
    (h : insertModule m ms = .ok ms') : ∀ m ∈ ms', m.Named := fun n hn =>
  List.forall_mem_cons.2 ⟨hm, hms⟩ n ((perm_insertModule h).mem_iff.1 hn)

/-- The head of a module has no functions. -/
theorem ends_moduleHead : Ends moduleHead c fun m _ => m.Named := by
  unfold moduleHead
  exact Ends.after fun _ _ => Ends.after fun _ _ => Ends.after fun _ _ =>
    Ends.value (by simp [Module.Named])

theorem ends_programPart (bound : Nat) (hp : p.Named) (hline : line.Named)
    (hlines : Line.NamedAll lines) :
    Ends (programPart bound p line) lines fun p' lines' => p'.Named ∧ Line.NamedAll lines' := by
  unfold programPart
  split
  · refine (ends_apart hlines).seq fun _ lines₁ h₁ => ?_
    refine (named_entries named_constantLine h₁).seq fun found lines₂ h₂ => Ends.value ⟨?_, h₂.2⟩
    exact ⟨List.forall_mem_append.2 ⟨hp.constants, h₂.1⟩, hp.libraries, hp.modules⟩
  split
  · unfold struct
    refine Ends.seq (P := fun _ lines' => Line.NamedAll lines') ?_ fun s lines₁ h₁ => ?_
    · refine (ends_apart hlines).seq fun head lines₁ h₁ => ?_
      exact (ends_fieldSection _ _ h₁).seq fun fields lines₂ h₂ => Ends.value h₂
    · split
      · exact Ends.refused_seq
      · exact Ends.value ⟨⟨hp.constants, hp.libraries, hp.modules⟩, h₁⟩
  split
  · refine (ends_apart hlines).seq fun executors lines₁ h₁ => ?_
    refine (ends_codeBlock bound executors h₁).seq fun block lines₂ h₂ => Ends.value ⟨?_, h₂.2⟩
    exact ⟨hp.constants, List.forall_mem_append.2 ⟨hp.libraries, by simpa using h₂.1⟩, hp.modules⟩
  split
  · refine (ends_afterWord hline (fun _ _ => ends_moduleHead) hlines).seq fun head lines₁ h₁ => ?_
    refine (ends_moduleParts _ bound h₁.1 h₁.2).seq fun m lines₂ h₂ => ?_
    refine Ends.seq (Ends.lifts (Q := fun ms lines' => (∀ m ∈ ms, m.Named) ∧ Line.NamedAll lines')
      fun ms hms => ⟨named_insertModule h₂.1 hp.modules hms, h₂.2⟩) fun ms lines₃ h₃ => ?_
    exact Ends.value ⟨⟨hp.constants, hp.libraries, h₃.1⟩, h₃.2⟩
  split
  · refine (ends_apart hlines).seq fun _ lines₁ h₁ => ?_
    refine (named_entries (P := fun _ => True) (fun _ _ _ _ => trivial) h₁).seq
      fun found lines₂ h₂ => Ends.value ⟨⟨hp.constants, hp.libraries, hp.modules⟩, h₂.2⟩
  · exact Ends.refused

theorem ends_programParts (bound : Nat) (hp : p.Named) (hlines : Line.NamedAll lines) :
    Ends (programParts bound p) lines fun p' _ => p'.Named := by
  induction bound generalizing p lines with
  | zero => exact Ends.value hp
  | succ bound ih =>
    unfold programParts
    refine Ends.reads ?_
    split
    · exact Ends.value hp
    next line rest =>
      obtain ⟨hline, hrest⟩ := List.forall_mem_cons.1 hlines
      refine Ends.seq (P := fun _ lines' => Line.NamedAll lines') ?_ fun _ lines₁ h₁ => ?_
      · exact Ends.changes hrest
      · exact (ends_programPart bound hp hline h₁).seq fun p' lines₂ h₂ => ih h₂.1 h₂.2

/-- **Every name of a program that is read from named lines is a name.** -/
theorem named_ofLines (hlines : Line.NamedAll lines) (h : Program.ofLines lines = .ok p) :
    p.Named := by
  obtain ⟨lines', hrun⟩ := run'_eq_ok.1 h
  exact ends_programParts _ ⟨by simp [Program.empty], by simp [Program.empty],
    by simp [Program.empty]⟩ hlines _ _ hrun

end Raw

end ChannelBasic
