import ChannelBasic.Proofs.Program.Rewriting
import ChannelBasic.Proofs.Raw.Names

/-!
# Proofs/Program/Identifiers — every name in an analysed program is one word

Entering a program into tables and binding its names keep every name, and rewriting makes none.  So
**each name in an expression of an analysed program would be read as that name again**
(`Program.spellable_of_load`).
-/

namespace ChannelBasic

open Lexer

/-! ## Names in expressions -/

namespace Expr

mutual

/-- The names in an expression. -/
def names : Expr → List String
  | .literal _ _ => []
  | .name _ n _ => [n]
  | .member _ target field _ => field :: target.names
  | .call _ function arguments _ => function :: namesAll arguments
  | .unary _ _ operand => operand.names
  | .binary _ _ left right => left.names ++ right.names
  | .cast _ operand => operand.names
  | .pointer _ target _ => target.names

/-- The names in some expressions. -/
def namesAll : List Expr → List String
  | [] => []
  | e :: rest => e.names ++ namesAll rest

end

/-- Every name in an expression is a name. -/
def Spellable (e : Expr) : Prop := ∀ n ∈ e.names, IsName n

variable {e e' x : Expr} {es es' : List Expr} {n : String}

theorem mem_namesAll : n ∈ namesAll es ↔ ∃ e ∈ es, n ∈ e.names := by
  induction es with
  | nil => simp [namesAll]
  | cons e es ih => simp [namesAll, ih]

@[simp] theorem namesAll_append (es es' : List Expr) :
    namesAll (es ++ es') = namesAll es ++ namesAll es' := by
  induction es with
  | nil => rfl
  | cons e es ih => simp [namesAll, ih]

/-- The names inside a part of an expression are names of the expression. -/
theorem mem_names_of_node (hx : x ∈ e.nodes) (hn : n ∈ x.names) : n ∈ e.names := by
  induction e using Expr.induct with
  | literal | name => exact List.mem_singleton.1 hx ▸ hn
  | member i target field r ih =>
    obtain rfl | hx := List.mem_cons.1 hx
    · exact hn
    · exact .tail _ (ih hx)
  | call i f arguments c ih =>
    obtain rfl | hx := List.mem_cons.1 hx
    · exact hn
    · obtain ⟨a, ha, hx⟩ := mem_nodesAll.1 hx
      exact .tail _ (mem_namesAll.2 ⟨a, ha, ih a ha hx⟩)
  | unary i op operand ih | cast i operand ih | pointer i target temp ih =>
    obtain rfl | hx := List.mem_cons.1 hx
    · exact hn
    · exact ih hx
  | binary i op left right ihl ihr =>
    obtain rfl | hx := List.mem_cons.1 hx
    · exact hn
    · obtain hx | hx := List.mem_append.1 hx
      · exact List.mem_append_left _ (ihl hx)
      · exact List.mem_append_right _ (ihr hx)

theorem Spellable.node (h : e.Spellable) (hx : x ∈ e.nodes) : x.Spellable :=
  fun n hn => h n (mem_names_of_node hx hn)

/-- **Rewriting makes no names.** -/
theorem Rewrites.mem_names (h : e.Rewrites e') (hn : n ∈ e'.names) : n ∈ e.names := by
  induction h with
  | refl | name | convert | point => exact hn
  | trans _ _ ih ih' => exact ih (ih' hn)
  | member _ ih => exact (List.mem_cons.1 hn).elim (· ▸ .head _) fun hn => .tail _ (ih hn)
  | call length_eq _ ih =>
    refine (List.mem_cons.1 hn).elim (· ▸ .head _) fun hn => .tail _ ?_
    obtain ⟨a', ha', hn⟩ := mem_namesAll.1 hn
    obtain ⟨k, hk⟩ := List.mem_iff_getElem?.1 ha'
    obtain ⟨a, ha, ih⟩ := forall₂_right (List.forall₂_iff_zip.2 ⟨length_eq, ih⟩) hk
    exact mem_namesAll.2 ⟨a, List.mem_of_getElem? ha, ih hn⟩
  | unary _ ih | cast _ ih | pointer _ ih => exact ih hn
  | binary _ _ ihl ihr =>
    exact (List.mem_append.1 hn).elim (fun hn => List.mem_append_left _ (ihl hn))
      fun hn => List.mem_append_right _ (ihr hn)
  | compute => cases hn

end Expr

/-- Every name in the expressions of a function is a name. -/
def Function.Spellable (f : Function) : Prop := ∀ e ∈ f.exprs, e.Spellable

/-- Every name in the expressions of a program is a name. -/
def Program.Spellable (p : Program) : Prop := ∀ e ∈ p.exprs, e.Spellable

theorem Program.Spellable.rewritten {p q : Program} (hp : p.Spellable) (h : p.Rewrites q) :
    q.Spellable := by
  intro e he n hn
  obtain ⟨x, hx, hrewrites⟩ := h.exists_expr he
  exact hp x hx n (hrewrites.mem_names hn)

/-! ## Entering a program -/

namespace Raw

theorem Expr.namedAll_iff {es : List Expr} :
    Expr.NamedAll es ↔ ∀ n ∈ Expr.namesAll es, IsName n := by
  simp only [NamedAll, Named, mem_namesAll]
  constructor
  · rintro h n ⟨e, he, hn⟩
    exact h e he n hn
  · exact fun h e he n hn => h n ⟨e, he, hn⟩

@[simp] theorem Expr.namesAll_append (es es' : List Expr) :
    namesAll (es ++ es') = namesAll es ++ namesAll es' := by
  induction es with
  | nil => rfl
  | cons e es ih => simp [namesAll, ih]

end Raw

namespace Lowering

open ChannelBasic.Expr (names namesAll)
open Raw.Stmt (exprsAll)

/-- No function is entered, and what is made satisfies `P`. -/
def Makes {α : Type} (P : α → Prop) (x : Lowering α) : Prop :=
  ∀ s, Ends x s fun a s' => s'.functions = s.functions ∧ P a

namespace Makes

variable {α β : Type} {P : α → Prop} {Q : β → Prop} {x : Lowering α} {f : α → Lowering β}

theorem value {a : α} (h : P a) : Makes P (pure a) := fun _ => Ends.value ⟨rfl, h⟩

theorem seq (hx : Makes P x) (hf : ∀ a, P a → Makes Q (f a)) : Makes Q (x >>= f) := fun s =>
  (hx s).seq fun a s' h => (hf a h.2 s').mono fun _ _ h' => ⟨h'.1.trans h.1, h'.2⟩

theorem value_seq {a : α} (h : Makes Q (f a)) : Makes Q (pure a >>= f) :=
  fun s => Ends.value_seq (h s)

theorem changes {g : Lowered → α × Lowered} (h : ∀ s, (g s).2.functions = s.functions) :
    Makes (fun _ => True) (modifyGet g) := fun s => Ends.changes ⟨h s, trivial⟩

theorem modifies {g : Lowered → Lowered} (h : ∀ s, (g s).functions = s.functions) :
    Makes (fun _ => True) (modify g : Lowering PUnit) := fun s => Ends.modifies ⟨h s, trivial⟩

theorem refused_seq {d : Diagnostic} : Makes Q (throw d >>= f) := fun _ => Ends.refused_seq

theorem each {g : α → Lowering β} (h : ∀ a, Makes (fun _ => True) (g a)) :
    (as : List α) → Makes (fun _ => True) (as.mapM g)
  | [] => .value trivial
  | a :: as => by
    rw [List.mapM_cons]
    refine (h a).seq fun b _ => (each h as).seq fun bs _ => ?_
    exact .value trivial

end Makes

theorem makes_addType (d : DataType) : Makes (fun _ => True) (addType d) := .changes fun _ => rfl

mutual

/-- **An expression is entered with its names.** -/
theorem makes_expr : (r : Raw.Expr) → Makes (fun e => e.names = r.names) (expr r)
  | .integer .. | .real .. | .boolean .. | .name .. => .value rfl
  | .text l content => by
    unfold expr
    exact (makes_addType _).seq fun type _ => .value rfl
  | .member l target field => by
    unfold expr
    exact (makes_expr target).seq fun e h => .value (congrArg (field :: ·) h)
  | .call l function arguments => by
    unfold expr
    exact (makes_exprs arguments).seq fun es h => .value (congrArg (function :: ·) h)
  | .unary l op operand => by
    unfold expr
    exact (makes_expr operand).seq fun e h => .value h
  | .binary l op left right => by
    unfold expr
    refine (makes_expr left).seq fun e he => (makes_expr right).seq fun e' he' => .value ?_
    exact congrArg₂ (· ++ ·) he he'

theorem makes_exprs : (rs : List Raw.Expr) →
    Makes (fun es => namesAll es = Raw.Expr.namesAll rs) (exprs rs)
  | [] => .value rfl
  | r :: rest => by
    unfold exprs
    refine (makes_expr r).seq fun e he => (makes_exprs rest).seq fun es hes => .value ?_
    exact congrArg₂ (· ++ ·) he hes

end

theorem makes_expr? (r : Option Raw.Expr) :
    Makes (fun e => namesAll e.toList = Raw.Expr.namesAll r.toList) (expr? r) := by
  unfold expr?
  split
  · exact (makes_expr _).seq fun e he =>
      .value (by simpa [namesAll, Raw.Expr.namesAll] using he)
  · exact .value rfl

theorem makes_dataType (t : Raw.DataType) : Makes (fun _ => True) (dataType t) := by
  induction t with
  | scalar | string => exact .value trivial
  | stringOf length =>
    unfold dataType
    refine (makes_expr length).seq fun e _ => ?_
    exact (Makes.changes fun _ => rfl).seq fun n _ => makes_addType _
  | pointer t ih | constant t ih =>
    unfold dataType
    exact ih.seq fun id _ => makes_addType _
  | named location name =>
    unfold dataType
    refine (makes_addType _).seq fun id _ => ?_
    refine Makes.seq (P := fun _ => True) (.modifies fun _ => rfl) fun _ _ => ?_
    exact .value trivial

theorem makes_dataType? (t : Option Raw.DataType) : Makes (fun _ => True) (dataType? t) := by
  unfold dataType?
  split
  · exact (makes_dataType _).seq fun id _ => .value trivial
  · exact .value trivial

theorem makes_slots (rule : Rule) (fields : List Raw.Field) (taken : List String) :
    Makes (fun _ => True) (slots rule taken fields) := by
  induction fields generalizing taken with
  | nil => exact .value trivial
  | cons f rest ih =>
    unfold slots
    dsimp only
    split
    · exact .refused_seq
    · exact (makes_dataType f.type).seq fun id _ => (ih _).seq fun r _ => .value trivial

mutual

theorem makes_stmt : (r : Raw.Stmt) →
    Makes (fun t => namesAll t.exprs = Raw.Expr.namesAll r.exprs) (stmt r)
  | .var l name type value => by
    unfold stmt
    refine (makes_dataType? type).seq fun t _ => (makes_expr? value).seq fun e he => ?_
    exact (Makes.changes fun _ => rfl).seq fun index _ => .value he
  | .assign l target value => by
    unfold stmt
    refine (makes_expr value).seq fun e he => (makes_expr target).seq fun e' he' => .value ?_
    simp [Stmt.exprs, Raw.Stmt.exprs, namesAll, Raw.Expr.namesAll, he, he']
  | .call l call => by
    unfold stmt
    refine (makes_expr call).seq fun e he => .value ?_
    simp [Stmt.exprs, Raw.Stmt.exprs, namesAll, Raw.Expr.namesAll, he]
  | .return l value => by
    unfold stmt
    exact (makes_expr? value).seq fun e he => .value he
  | .choose l branches => by
    unfold stmt
    exact (makes_choices branches).seq fun b hb => .value hb
  | .count l counter start finish step body => by
    unfold stmt
    refine (makes_expr counter).seq fun e₁ h₁ => (makes_expr start).seq fun e₂ h₂ => ?_
    refine (makes_expr finish).seq fun e₃ h₃ => (makes_expr? step).seq fun e₄ h₄ => ?_
    refine (makes_stmts body).seq fun b hb => .value ?_
    simp [Stmt.exprs, Raw.Stmt.exprs, namesAll, Raw.Expr.namesAll, h₁, h₂, h₃, h₄, hb]
  | .loop l condition body => by
    unfold stmt
    have rest (c : Option Condition)
        (h : namesAll (c.map (·.value)).toList =
          Raw.Expr.namesAll (condition.map (·.value)).toList) :
        Makes (fun t => namesAll t.exprs = Raw.Expr.namesAll (Raw.Stmt.loop l condition body).exprs)
          (do
            let condition ← pure c
            return .loop l condition (← stmts body) : Lowering Stmt) := by
      refine .value_seq ((makes_stmts body).seq fun b hb => .value ?_)
      simp [Stmt.exprs, Raw.Stmt.exprs, h, hb]
    dsimp only
    split
    · refine (makes_expr _).seq fun e he => rest (some _) ?_
      simpa [namesAll, Raw.Expr.namesAll] using he
    · exact rest none rfl

/-- **Statements are entered with their names.** -/
theorem makes_stmts : (rs : List Raw.Stmt) →
    Makes (fun l => namesAll (Stmt.exprsAll l) = Raw.Expr.namesAll (exprsAll rs)) (stmts rs)
  | [] => .value rfl
  | r :: rest => by
    unfold stmts
    refine (makes_stmt r).seq fun t ht => (makes_stmts rest).seq fun l hl => .value ?_
    simp [Stmt.exprsAll, exprsAll, ht, hl]

theorem makes_choices : (r : Raw.Branches) →
    Makes (fun b => namesAll b.exprs = Raw.Expr.namesAll r.exprs) (choices r)
  | .done => .value rfl
  | .otherwise body => by
    unfold choices
    exact (makes_stmts body).seq fun b hb => .value hb
  | .branch condition body rest => by
    unfold choices
    refine (makes_expr condition).seq fun e he => (makes_stmts body).seq fun b hb => ?_
    refine (makes_choices rest).seq fun b' hb' => .value ?_
    simp [Branches.exprs, Raw.Branches.exprs, namesAll, Raw.Expr.namesAll, he, hb, hb']

end

/-- If all functions entered were `Spellable`, they still are. -/
def StaysSpellable (s s' : Lowered) : Prop :=
  (∀ f ∈ s.functions.toList, f.Spellable) → ∀ f ∈ s'.functions.toList, f.Spellable

theorem StaysSpellable.passage : Passage StaysSpellable where
  refl _ h := h
  trans h h' := h' ∘ h

theorem Makes.staysSpellable {α : Type} {P : α → Prop} {x : Lowering α} (h : Makes P x) :
    Keeps StaysSpellable x := fun s => (h s).mono fun _ _ h hs => h.1 ▸ hs

/-- A function whose names are names is entered as such. -/
theorem staysSpellable_function (owner : Owner) {f : Raw.Function} (hf : f.Named) :
    Keeps StaysSpellable (function owner f) := by
  have entering {s s' : Lowered} {entered : Function} (hs : s'.functions = s.functions)
      (hentered : entered.Spellable) :
      Ends (modifyGet fun s => (s.functions.size, { s with functions := s.functions.push entered }) :
        Lowering Nat) s' fun _ s'' => StaysSpellable s s'' := by
    refine Ends.changes fun h g hg => ?_
    rw [Array.toList_push, List.mem_append, hs] at hg
    obtain hg | hg := hg
    · exact h g hg
    · exact List.mem_singleton.1 hg ▸ hentered
  intro s
  unfold function
  dsimp only
  split
  next arguments hbody =>
    refine (Makes.each makes_dataType arguments s).seq fun as s₁ h₁ => ?_
    refine (makes_dataType? f.returns s₁).seq fun r s₂ h₂ => Ends.value_seq ?_
    exact entering (h₂.1.trans h₁.1) fun e he => by cases he
  next arguments statements hbody =>
    refine Ends.seq (Ends.modifies (Q := fun _ s₁ => s₁.functions = s.functions) rfl)
      fun _ s₁ h₁ => ?_
    refine (makes_slots _ arguments [] s₁).seq fun as s₂ h₂ => ?_
    refine (makes_dataType? f.returns s₂).seq fun r s₃ h₃ => ?_
    refine (makes_stmts statements s₃).seq fun l s₄ h₄ => ?_
    refine Ends.reads (Ends.value_seq (entering ?_ fun e he n hn => ?_))
    · exact h₄.1.trans (h₃.1.trans (h₂.1.trans h₁))
    · have hraw := Raw.Expr.namedAll_iff.1 (hf arguments statements hbody)
      rw [← h₄.2] at hraw
      exact hraw n (Expr.mem_namesAll.2 ⟨e, he, hn⟩)

theorem makes_constants {cs : List Raw.Constant} (hcs : ∀ c ∈ cs, c.value.Named)
    (taken : List String) :
    Makes (fun entered => ∀ c ∈ entered, c.value.Spellable) (constants taken cs) := by
  induction cs generalizing taken with
  | nil => exact .value (by simp)
  | cons c rest ih =>
    have hone : Makes (fun entered => entered.value.Spellable) (constant taken c) := by
      unfold constant
      dsimp only
      split
      · exact .refused_seq
      · refine (makes_dataType? c.type).seq fun t _ => (makes_expr c.value).seq fun e he => ?_
        exact .value fun n hn => hcs c (.head _) n (he ▸ hn)
    unfold constants
    refine hone.seq fun entered h => (ih (fun d hd => hcs d (.tail _ hd)) _).seq fun r hr => ?_
    exact .value (List.forall_mem_cons.2 ⟨h, hr⟩)

theorem makes_dataSets (ds : List Raw.DataSet) (taken : List String) :
    Makes (fun _ => True) (dataSets taken ds) := by
  induction ds generalizing taken with
  | nil => exact .value trivial
  | cons d rest ih =>
    unfold dataSets
    exact (makes_slots _ _ _).seq fun fields _ => (ih _).seq fun r _ => .value trivial

theorem staysSpellable_functions (owner : Owner) {fs : List Raw.Function}
    (hfs : ∀ f ∈ fs, f.Named) : Keeps StaysSpellable (fs.mapM (function owner)) :=
  .eachOf StaysSpellable.passage fun f hf => staysSpellable_function owner (hfs f hf)

theorem staysSpellable_blockFunctions (owner : Owner) {bs : List Raw.CodeBlock}
    (hbs : ∀ b ∈ bs, b.Named) (taken : List String) :
    Keeps StaysSpellable (blockFunctions owner taken bs) := by
  have hK := StaysSpellable.passage
  induction bs generalizing taken with
  | nil => exact .value hK _
  | cons b rest ih =>
    unfold blockFunctions
    refine .seq hK (fun s => (ends_takenNames b.functions taken).mono fun _ _ h => ?_) fun _ => ?_
    · exact h ▸ hK.refl s
    · refine .seq hK (staysSpellable_functions owner (hbs b (.head _))) fun ns => ?_
      exact .seq hK (ih (fun b' hb' => hbs b' (.tail _ hb')) _) fun ns' => .value hK _

theorem staysSpellable_numbered {α β : Type} {enter : α → Nat → Lowering β} {as : List α}
    (h : ∀ a ∈ as, ∀ k, Keeps StaysSpellable (enter a k)) (number : Nat) :
    Keeps StaysSpellable (numbered enter number as) := by
  have hK := StaysSpellable.passage
  induction as generalizing number with
  | nil => exact .value hK _
  | cons a rest ih =>
    unfold numbered
    refine .seq hK (h a (.head _) number) fun b => ?_
    exact .seq hK (ih (fun a' ha' => h a' (.tail _ ha')) _) fun bs => .value hK _

theorem makes_struct (r : Raw.Struct) (number : Nat) : Makes (fun _ => True) (struct r number) := by
  unfold struct
  refine (makes_slots _ _ _).seq fun fields _ => ?_
  exact (makes_addType _).seq fun id _ => .value trivial

/-- **A program whose names are names is entered as such.** -/
theorem ends_spellable {r : Raw.Program} (hr : r.Named) :
    Ends (program r) ⟨.initial, #[], [], #[], #[]⟩ fun p _ => p.1.Spellable := by
  have hK := StaysSpellable.passage
  unfold program
  refine (makes_constants hr.constants [] _).seq fun cs s₁ h₁ => ?_
  refine (staysSpellable_numbered (fun d _ k => (makes_struct d k).staysSpellable) 0 s₁).seq
    fun ss s₂ h₂ => ?_
  refine (staysSpellable_numbered (fun b hb k => ?_) 0 s₂).seq fun ls s₃ h₃ => ?_
  · exact .seq hK (staysSpellable_functions _ (hr.libraries b hb)) fun ns => .value hK _
  refine (staysSpellable_numbered (fun m hm k => ?_) 0 s₃).seq fun ms s₄ h₄ => ?_
  · refine .seq hK (makes_dataSets m.dataSets []).staysSpellable fun ds => ?_
    exact .seq hK (staysSpellable_blockFunctions _ (hr.modules m hm) []) fun ns => .value hK _
  refine Ends.reads (Ends.value fun e he => ?_)
  have hfunctions : ∀ f ∈ s₄.functions.toList, f.Spellable := by
    refine hK.trans h₂ (hK.trans h₃ h₄) ?_
    rw [h₁.1]
    simp
  obtain ⟨f, hf, he⟩ | ⟨c, hc, rfl⟩ := Program.mem_exprs.1 he
  · exact hfunctions f hf e he
  · exact h₁.2 c (by simpa using hc)

end Lowering

namespace Program

theorem spellable_bindTypes {p p' : Program} {ms : List TypeMention} (hp : p.Spellable)
    (h : p.bindTypes ms = .ok p') : p'.Spellable := by
  induction ms generalizing p with
  | nil =>
    obtain rfl : p = p' := by simpa [bindTypes] using h
    exact hp
  | cons m rest ih =>
    unfold bindTypes at h
    split at h
    next name _ =>
      split at h
      next number _ =>
        exact ih (p := { p with types := p.types.resolve m.type (.struct number name) }) hp h
      next => cases h
    next => exact ih hp h

theorem spellable_ofRaw {r : Raw.Program} {p : Program} (hr : r.Named) (h : ofRaw r = .ok p) :
    p.Spellable := by
  obtain ⟨x, hx, h⟩ := Checked.bind_eq_ok.1 h
  obtain ⟨s, hrun⟩ := run'_eq_ok.1 hx
  exact spellable_bindTypes (Lowering.ends_spellable hr _ _ hrun) h

end Program

/-! ## Binding names -/

namespace Binding

open ChannelBasic.Expr (names namesAll)

mutual

/-- **Binding keeps the names.** -/
theorem gives_expr {scope : Scope} : (e : Expr) →
    Gives (fun e' => e'.names = e.names) (expr scope e)
  | .name i name _ => by
    unfold expr
    refine .reads fun s => ?_
    split
    · exact .value rfl
    · exact .refused
  | .call i function arguments _ => by
    unfold expr
    split
    · exact (gives_exprs arguments).seq fun es h => .value (congrArg (function :: ·) h)
    · exact .refused
  | .literal i value => .value rfl
  | .member i target field decl => by
    unfold expr
    exact (gives_expr target).seq fun e h => .value (congrArg (field :: ·) h)
  | .unary i op operand => by
    unfold expr
    exact (gives_expr operand).seq fun e h => .value h
  | .binary i op left right => by
    unfold expr
    refine (gives_expr left).seq fun l hl => (gives_expr right).seq fun r hr => .value ?_
    exact congrArg₂ (· ++ ·) hl hr
  | .cast i operand => by
    unfold expr
    exact (gives_expr operand).seq fun e h => .value h
  | .pointer i target temp => by
    unfold expr
    exact (gives_expr target).seq fun e h => .value h

theorem gives_exprs {scope : Scope} : (es : List Expr) →
    Gives (fun es' => namesAll es' = namesAll es) (exprs scope es)
  | [] => .value rfl
  | e :: rest => by
    unfold exprs
    refine (gives_expr e).seq fun e' he => (gives_exprs rest).seq fun rest' hr => .value ?_
    exact congrArg₂ (· ++ ·) he hr

end

theorem gives_expr? {scope : Scope} (e : Option Expr) :
    Gives (fun e' => namesAll e'.toList = namesAll e.toList) (expr? scope e) := by
  unfold expr?
  split
  · exact (gives_expr _).seq fun e' he => .value (by simpa [namesAll] using he)
  · exact .value rfl

mutual

theorem gives_stmt {scope : Scope} (earlier : List Nat) : (r : Stmt) →
    Gives (fun r' => namesAll r'.exprs = namesAll r.exprs) (stmt scope earlier r)
  | .var l index value => by
    unfold stmt
    exact .reads fun s => .after fun _ => (gives_expr? value).seq fun value' hv => .value hv
  | .assign l value target => by
    unfold stmt
    refine (gives_expr value).seq fun value' hv => .after fun _ => ?_
    refine (gives_expr target).seq fun target' ht => .value ?_
    simp [Stmt.exprs, namesAll, hv, ht]
  | .invoke l call => by
    unfold stmt
    exact (gives_expr call).seq fun call' hc => .value (by simpa [Stmt.exprs, namesAll] using hc)
  | .return l value => by
    unfold stmt
    exact (gives_expr? value).seq fun value' hv => .value hv
  | .choose l branches => by
    unfold stmt
    exact (gives_choices branches).seq fun b hb => .value hb
  | .count l counter start finish step body temps => by
    unfold stmt
    refine (gives_expr start).seq fun start' hs => (gives_expr finish).seq fun finish' hf => ?_
    refine (gives_expr? step).seq fun step' hstep => .after fun _ => ?_
    refine (gives_expr counter).seq fun counter' hc => ?_
    refine (gives_stmts [] body).seq fun body' hb => .value ?_
    simp [Stmt.exprs, namesAll, hs, hf, hstep, hc, hb]
  | .loop l condition body => by
    unfold stmt
    have rest (condition' : Option Condition)
        (h : namesAll (condition'.map (·.value)).toList =
          namesAll (condition.map (·.value)).toList) :
        Gives (fun r' => namesAll r'.exprs = namesAll (Stmt.loop l condition body).exprs) (do
          let condition ← pure condition'
          return .loop l condition (← stmts (inside scope body) [] body) : Binding Stmt) := by
      refine .value_seq ((gives_stmts [] body).seq fun body' hb => .value ?_)
      simp [Stmt.exprs, h, hb]
    dsimp only
    split
    · exact (gives_expr _).seq fun e he => rest (some _) (by simpa [namesAll] using he)
    · exact rest none rfl

/-- **Binding keeps the names in statements.** -/
theorem gives_stmts {scope : Scope} (earlier : List Nat) : (l : List Stmt) →
    Gives (fun l' => namesAll (Stmt.exprsAll l') = namesAll (Stmt.exprsAll l))
      (stmts scope earlier l)
  | [] => .value rfl
  | r :: rest => by
    unfold stmts
    refine (gives_stmt earlier r).seq fun r' hr => (gives_stmts _ rest).seq fun l hl => .value ?_
    simp [Stmt.exprsAll, hr, hl]

theorem gives_choices {scope : Scope} : (b : Branches) →
    Gives (fun b' => namesAll b'.exprs = namesAll b.exprs) (choices scope b)
  | .done => .value rfl
  | .otherwise body => by
    unfold choices
    exact (gives_stmts [] body).seq fun body' hb => .value hb
  | .branch condition body rest => by
    unfold choices
    refine (gives_expr condition).seq fun condition' hc => ?_
    refine (gives_stmts [] body).seq fun body' hb => (gives_choices rest).seq fun b hr => .value ?_
    simp [Branches.exprs, namesAll, hc, hb, hr]

end

end Binding

namespace Program

theorem names_bindFunction {p : Program} {f f' : Function} (h : p.bindFunction f = .ok f') :
    Expr.namesAll f'.exprs = Expr.namesAll f.exprs := by
  unfold bindFunction at h
  split at h
  next hbody =>
    obtain rfl := Except.ok.inj h
    rfl
  next body hbody =>
    obtain ⟨⟨statements, s⟩, hrun, h⟩ := Checked.bind_eq_ok.1 h
    obtain rfl := Checked.pure_eq_ok.1 h
    have hnames := Binding.gives_stmts [] body.statements _ _ _ hrun
    simpa [Function.exprs, hbody] using hnames

/-- A program whose names were names has such names when they are bound. -/
theorem Spellable.bound {p p' : Program} (hp : p.Spellable) (h : p.bindNames = .ok p') :
    p'.Spellable := by
  obtain ⟨constants, hconstants, h⟩ := Checked.bind_eq_ok.1 h
  obtain ⟨lengths, -, h⟩ := Checked.bind_eq_ok.1 h
  obtain ⟨functions, hfunctions, h⟩ := Checked.bind_eq_ok.1 h
  obtain ⟨channels, -, h⟩ := Checked.bind_eq_ok.1 h
  obtain rfl := Checked.pure_eq_ok.1 h
  rw [Checked.mapM_eq_ok] at hconstants hfunctions
  intro e he n hn
  obtain ⟨f', hf', he⟩ | ⟨c', hc', rfl⟩ := mem_exprs.1 he
  · obtain ⟨k, hk⟩ := List.mem_iff_getElem?.1 hf'
    obtain ⟨f, hf, hbind⟩ := forall₂_right hfunctions hk
    have hn : n ∈ Expr.namesAll f.exprs := by
      rw [← names_bindFunction hbind]
      exact Expr.mem_namesAll.2 ⟨e, he, hn⟩
    obtain ⟨x, hx, hn⟩ := Expr.mem_namesAll.1 hn
    exact hp x (mem_exprs.2 (.inl ⟨f, List.mem_of_getElem? hf, hx⟩)) n hn
  · obtain ⟨k, hk⟩ := List.mem_iff_getElem?.1 hc'
    obtain ⟨c, hc, hbind⟩ := forall₂_right hconstants hk
    obtain ⟨value, hvalue, hbind⟩ := Checked.bind_eq_ok.1 hbind
    obtain rfl := Checked.pure_eq_ok.1 hbind
    obtain ⟨s, hrun⟩ := run'_eq_ok.1 hvalue
    have hnames := Binding.gives_expr c.value _ _ _ hrun
    refine hp c.value (mem_exprs.2 (.inr ⟨c, List.mem_of_getElem? hc, rfl⟩)) n ?_
    rw [← hnames]
    exact hn

/-- **Every name in an analysed program is one word**, if it is in the program as written. -/
theorem spellable_of_analyse {raw : Raw.Program} {q : Program} (hraw : raw.Named)
    (h : analyse raw = .ok q) : q.Spellable := by
  obtain ⟨p₀, h₀, h⟩ := Checked.bind_eq_ok.1 h
  obtain ⟨p, h₁, h⟩ := Checked.bind_eq_ok.1 h
  obtain ⟨p₂, h₂, h⟩ := Checked.bind_eq_ok.1 h
  have hp : p.Spellable := (spellable_ofRaw hraw h₀).bound h₁
  have hreach : p.withReach.Spellable := hp
  exact hreach.rewritten (rewrites_of_layout h₂ h)

/-- **Every name in a program that is loaded is one word.** -/
theorem spellable_of_load {sources : Sources} {main : String} {p : Program}
    (h : load sources main = .ok p) : p.Spellable := by
  obtain ⟨lines, hlines, h⟩ := Checked.bind_eq_ok.1 h
  obtain ⟨raw, hraw, h⟩ := Checked.bind_eq_ok.1 h
  exact spellable_of_analyse (Raw.named_ofLines (Sources.named_splice hlines) hraw) h

/-- What occurs in a program whose names are names has such names. -/
theorem Spellable.node {p : Program} (hp : p.Spellable) {e : Expr} (he : p.Node e) :
    e.Spellable := by
  obtain ⟨x, hx, he⟩ := node_iff.1 he
  exact (hp x hx).node he

end Program

end ChannelBasic
