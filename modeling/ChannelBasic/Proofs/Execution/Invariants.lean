import ChannelBasic.Proofs.Execution.Balance
import ChannelBasic.Proofs.Execution.Folding
import ChannelBasic.Proofs.Execution.Interpretation

/-!
# Proofs/Execution/Invariants — what the statements of a function keep

A function opens its frame without clearing it, and a variable may be read before it has got its
first value, being known in all of its block.  `Stmt.isSettled` says that a statement, which has no
calls, addresses and counting loops, does not do so.

**What two runs of such a function have in common is kept by its statements if it is kept by the
few things that a statement does to a store** (`Setting.Invariant`, `Stmt.exec_both`).  What an
invariant has to know of an expression is said by `Expr.Typed.bytes_cases`: its bytes are taken from
a place that it reads, or a value of its shape is written out.
-/

namespace ChannelBasic

/-! ## Variables that have a value -/

/-- Of the variables, an expression without calls and addresses reads only some. -/
def Expr.readsOnly (known : List Nat) : Expr → Bool
  | .name _ _ (some (.localVar k)) => known.contains k
  | .literal .. | .name .. => true
  | .member _ target _ _ | .unary _ _ target | .cast _ target => target.readsOnly known
  | .binary _ _ left right => left.readsOnly known && right.readsOnly known
  | .call .. | .pointer .. => false

/-- The variables that have a value behind a statement, given those that have one before it. -/
def Stmt.settled (known : List Nat) : Stmt → List Nat
  | .var _ index _ => index :: known
  | _ => known

mutual

/-- The statement reads only variables that have a value, given those that have one before it. -/
def Stmt.isSettled (known : List Nat) : Stmt → Bool
  | .var _ _ value | .return _ value => value.all (·.readsOnly known)
  | .assign _ value _ => value.readsOnly known
  | .choose _ branches => branches.isSettled known
  | .loop _ condition body =>
    condition.all (·.value.readsOnly known) && Stmt.areSettled known body
  | .invoke .. | .count .. => false

/-- The statements read only variables that have a value, given those that have one before. -/
def Stmt.areSettled (known : List Nat) : List Stmt → Bool
  | [] => true
  | s :: rest => s.isSettled known && Stmt.areSettled (s.settled known) rest

/-- The branches read only variables that have a value, given those that have one before. -/
def Branches.isSettled (known : List Nat) : Branches → Bool
  | .done => true
  | .otherwise body => Stmt.areSettled known body
  | .branch condition body rest =>
    condition.readsOnly known && Stmt.areSettled known body && rest.isSettled known

end

/-- The function reads each of its variables only after it has got its first value. -/
def UserBody.isSettled (body : UserBody) : Bool := Stmt.areSettled body.implicit body.statements

theorem Stmt.subset_settled (known : List Nat) (s : Stmt) : known ⊆ s.settled known := by
  cases s with
  | var => exact List.subset_cons_self _ _
  | _ => exact List.Subset.refl _

/-! ## What two runs have in common -/

namespace Completion

variable {P P' Q : Store → Store → Prop} {c c' : Completion} {f f' : Store → Completion}

/-- Two runs end the same way, in stores that have something in common. -/
inductive Both (P Q : Store → Store → Prop) : Completion → Completion → Prop
  | next {σ τ : Store} (h : P σ τ) : Both P Q (.next σ) (.next τ)
  | returned {σ τ : Store} (h : Q σ τ) : Both P Q (.returned σ) (.returned τ)
  | faulted (f : Fault) : Both P Q (.faulted f) (.faulted f)
  | unfinished : Both P Q .unfinished .unfinished

theorem Both.mono (h : Both P Q c c') (hle : ∀ σ τ, P σ τ → P' σ τ) : Both P' Q c c' := by
  cases h with
  | next h => exact .next (hle _ _ h)
  | returned h => exact .returned h
  | faulted f => exact .faulted f
  | unfinished => exact .unfinished

theorem Both.andThen (h : Both P Q c c') (hf : ∀ σ τ, P σ τ → Both P' Q (f σ) (f' τ)) :
    Both P' Q (c.andThen f) (c'.andThen f') := by
  cases h with
  | next h => exact hf _ _ h
  | returned h => exact .returned h
  | faulted f => exact .faulted f
  | unfinished => exact .unfinished

/-- What is computed in both runs is the same. -/
theorem both_given {α : Type} {x y : Except Fault α} {f f' : α → Completion} (h : x = y)
    (hf : ∀ a, x = .ok a → Both P Q (f a) (f' a)) : Both P Q (given x f) (given y f') := by
  subst h
  cases x with
  | ok a => exact hf a rfl
  | error e => exact .faulted e

end Completion

/-- What stores of two runs have in common, given the variables that have a value: an expression
comes to the same in both, and **what a statement writes keeps it**. -/
structure Setting.Invariant (S : Setting) (Γ : Env) (I : List Nat → Store → Store → Prop) :
    Prop where
  forget : ∀ {known known' σ τ}, known ⊆ known' → I known' σ τ → I known σ τ
  reads : ∀ {known σ τ} {e : Expr}, I known σ τ → e.Typed Γ → e.readsOnly known = true →
    e.eval S.ctx σ.read = e.eval S.ctx τ.read ∧ e.bytes S.ctx σ.read = e.bytes S.ctx τ.read
  assigns : ∀ {known σ τ} {e target : Expr} {place : Place} {data : List UInt8} {s : Shape},
    I known σ τ → e.Typed Γ → e.readsOnly known = true → e.bytes S.ctx σ.read = .ok data →
      Γ.shape e.info = some s → target.Typed Γ → Γ.shape target.info = some s →
        S.ctx.place? target = some place → I known (σ.write place data) (τ.write place data)
  declares : ∀ {known σ τ} {e : Expr} {index : Nat} {place : Place} {data : List UInt8} {t : TypeId}
    {s : Shape}, I known σ τ → e.Typed Γ → e.readsOnly known = true →
      e.bytes S.ctx σ.read = .ok data → Γ.shape e.info = some s →
        Γ.declared (.localVar index) = some t → Γ.types.shape? t = some s →
          S.ctx.declarationPlace? (.localVar index) = some place →
            I (index :: known) (σ.write place data) (τ.write place data)
  clears : ∀ {known σ τ} (index : Nat), I known σ τ →
    I (index :: known) (S.ctx.cleared σ index) (S.ctx.cleared τ index)
  returns : ∀ {known σ τ} {e : Expr} {data : List UInt8} {t : TypeId} {s : Shape}, I known σ τ →
    e.Typed Γ → e.readsOnly known = true → e.bytes S.ctx σ.read = .ok data →
      Γ.shape e.info = some s → S.ctx.function.returns = some t → Γ.types.shape? t = some s →
        I known (σ.write (.frame S.ctx.body.frame.result) data)
          (τ.write (.frame S.ctx.body.frame.result) data)

section Invariant

variable {S : Setting} {Γ : Env} {I : List Nat → Store → Store → Prop} {known : List Nat}
  {fuel : Nat} {σ τ : Store}

open Completion

theorem Setting.Invariant.holds (hI : S.Invariant Γ I) {e : Expr} (h : I known σ τ)
    (he : e.Typed Γ) (hr : e.readsOnly known = true) : e.holds S.ctx σ = e.holds S.ctx τ := by
  unfold Expr.holds
  rw [(hI.reads h he hr).1]

/-- The value of an expression is put at the same place in both runs. -/
theorem Setting.Invariant.put (hI : S.Invariant Γ I) {e : Expr} (known' : List Nat)
    {place : Option Place} (h : I known σ τ) (he : e.Typed Γ) (hr : e.readsOnly known = true)
    (hput : ∀ p data, place = some p → e.bytes S.ctx σ.read = .ok data →
      I known' (σ.write p data) (τ.write p data)) :
    Both (I known') (I []) (e.put S.ctx place σ) (e.put S.ctx place τ) := by
  cases place with
  | none => exact .faulted _
  | some p => exact both_given (hI.reads h he hr).2 fun data hdata => .next (hput p data rfl hdata)

/-- **The rounds of a loop keep what its body keeps.** -/
theorem Setting.Invariant.rounds (hI : S.Invariant Γ I) {condition : Option Condition}
    {body : Store → Completion}
    (hc : ∀ c, condition = some c → c.value.Typed Γ ∧ c.value.readsOnly known = true)
    (hbody : ∀ σ τ, I known σ τ → Both (I known) (I []) (body σ) (body τ)) (n : Nat) (σ τ : Store)
    (h : I known σ τ) :
    Both (I known) (I []) (S.ctx.rounds condition body n σ) (S.ctx.rounds condition body n τ) := by
  induction n generalizing σ τ with
  | zero => exact .unfinished
  | succ n ih =>
    cases condition with
    | none => exact (hbody σ τ h).andThen ih
    | some c =>
      obtain ⟨he, hr⟩ := hc c rfl
      simp only [EmissionContext.rounds]
      split
      · refine (hbody σ τ h).andThen fun σ τ h => both_given (hI.holds h he hr) fun b _ => ?_
        split
        · exact ih σ τ h
        · exact .next h
      · refine both_given (hI.holds h he hr) fun b _ => ?_
        split
        · exact (hbody σ τ h).andThen ih
        · exact .next h

mutual

/-- **A statement that reads only variables with a value keeps what two runs have in common.** -/
theorem Stmt.exec_both (hI : S.Invariant Γ I) : (s : Stmt) → {known : List Nat} → {σ τ : Store} →
    s.isSettled known = true → s.Typed Γ S.ctx.function.returns → I known σ τ →
    Both (I (s.settled known)) (I []) (s.exec S.ctx fuel σ) (s.exec S.ctx fuel τ)
  | .var _ index none, _, _, _, _, _, h => .next (hI.clears index h)
  | .var _ index (some e), _, _, _, hr, ⟨he, _, _, ht, hs, hτ⟩, h =>
    hI.put _ h he hr fun _ _ hp hdata => hI.declares h he hr hdata hτ ht hs hp
  | .assign _ value target, _, _, _, hr, ⟨hv, ht, _, _, hs, hs'⟩, h =>
    hI.put _ h hv hr fun _ _ hp hdata => hI.assigns h hv hr hdata hs ht hs' hp
  | .return _ none, _, _, _, _, _, h => .returned (hI.forget (List.nil_subset _) h)
  | .return _ (some e), known, _, _, hr, ⟨he, _, _, ht, hs, hτ⟩, h => by
    refine (hI.put known h he hr fun p data hp hdata => ?_).andThen fun _ _ h =>
      .returned (hI.forget (List.nil_subset _) h)
    obtain rfl := Option.some.inj hp
    exact hI.returns h he hr hdata hτ ht hs
  | .choose _ branches, _, _, _, hr, ht, h => Branches.exec_both hI branches hr ht h
  | .loop _ condition body, known, σ, τ, hr, ⟨hc, hb⟩, h => by
    obtain ⟨hrc, hrb⟩ := Bool.and_eq_true_iff.1 hr
    exact hI.rounds (fun c h => ⟨(hc c h).1, by subst h; exact hrc⟩)
      (fun σ τ h => Stmt.execAll_both hI body hrb hb h) fuel σ τ h
  | .invoke .., _, _, _, hr, _, _ => by cases hr
  | .count .., _, _, _, hr, _, _ => by cases hr

theorem Stmt.execAll_both (hI : S.Invariant Γ I) : (ss : List Stmt) → {known : List Nat} →
    {σ τ : Store} → Stmt.areSettled known ss = true → Stmt.TypedAll Γ S.ctx.function.returns ss →
    I known σ τ →
    Both (I known) (I []) (Stmt.execAll S.ctx fuel ss σ) (Stmt.execAll S.ctx fuel ss τ)
  | [], _, _, _, _, _, h => .next h
  | s :: rest, known, _, _, hr, ⟨hs, hrest⟩, h => by
    obtain ⟨hrs, hrrest⟩ := Bool.and_eq_true_iff.1 hr
    refine (Stmt.exec_both hI s hrs hs h).andThen fun σ τ h => ?_
    exact (Stmt.execAll_both hI rest hrrest hrest h).mono fun _ _ =>
      hI.forget (s.subset_settled known)

theorem Branches.exec_both (hI : S.Invariant Γ I) : (b : Branches) → {known : List Nat} →
    {σ τ : Store} → b.isSettled known = true → b.Typed Γ S.ctx.function.returns → I known σ τ →
    Both (I known) (I []) (b.exec S.ctx fuel σ) (b.exec S.ctx fuel τ)
  | .done, _, _, _, _, _, h => .next h
  | .otherwise body, _, _, _, hr, ht, h => Stmt.execAll_both hI body hr ht h
  | .branch condition body rest, _, _, _, hr, ⟨⟨hc, _⟩, hb, hrest⟩, h => by
    rw [Branches.isSettled, Bool.and_eq_true, Bool.and_eq_true] at hr
    obtain ⟨⟨hrc, hrb⟩, hrrest⟩ := hr
    refine both_given (hI.holds h hc hrc) fun b _ => ?_
    cases b with
    | true => exact Stmt.execAll_both hI body hrb hb h
    | false => exact Branches.exec_both hI rest hrrest hrest h

end

/-- **Two runs of a function keep what they have in common when it is called.** -/
theorem Setting.Invariant.exec_both (hI : S.Invariant Γ I) (hr : S.ctx.body.isSettled = true)
    (ht : Stmt.TypedAll Γ S.ctx.function.returns S.ctx.body.statements) (h : I [] σ τ)
    (fuel : Nat) : Both (I []) (I []) (S.ctx.exec fuel σ) (S.ctx.exec fuel τ) := by
  have cleared (indices : List Nat) : ∀ {known σ τ}, I known σ τ →
      I (indices.reverse ++ known) (indices.foldl S.ctx.cleared σ)
        (indices.foldl S.ctx.cleared τ) := by
    induction indices with
    | nil => exact fun h => h
    | cons index indices ih =>
      intro known σ τ h
      rw [List.reverse_cons, List.append_assoc]
      exact ih (hI.clears index h)
  refine (Stmt.execAll_both hI S.ctx.body.statements hr ht (hI.forget ?_ (cleared _ h))).andThen
    fun _ _ h => .returned (hI.forget (List.nil_subset _) h)
  simp

end Invariant

/-! ## Expressions that read the same -/

namespace Expr

variable {ctx : EmissionContext} {read read' : Place → Nat → List UInt8} {e : Expr}

/-- What lies at a place is among what an expression that stands for the place reads. -/
theorem mem_reads_of_place {place : Place} {n : Nat} (hplace : ctx.place? e = some place)
    (hn : ctx.size? e.info = some n) : (place, n) ∈ e.reads ctx := by
  cases e with
  | name i title decl =>
    simp only [reads, hplace, Option.bind_some]
    rw [show ctx.size? i = some n from hn]
    exact List.mem_singleton_self _
  | member i target field decl =>
    simp only [reads, hplace, Option.bind_some]
    rw [show ctx.size? i = some n from hn]
    exact List.mem_singleton_self _
  | literal | call | unary | binary | cast | pointer => cases hplace

theorem stored_congr {place : Option Place} (hplace : ctx.place? e = place)
    (h : ∀ x ∈ e.reads ctx, read x.1 x.2 = read' x.1 x.2) :
    ctx.stored read e.info place = ctx.stored read' e.info place := by
  cases place with
  | none => rfl
  | some place =>
    simp only [EmissionContext.stored]
    cases hn : ctx.size? e.info with
    | none => rfl
    | some n => simp only [h _ (mem_reads_of_place hplace hn)]

/-- **The value of an expression depends on what it reads only.** -/
theorem eval_congr (h : ∀ x ∈ e.reads ctx, read x.1 x.2 = read' x.1 x.2) :
    e.eval ctx read = e.eval ctx read' := by
  induction e using Expr.induct with
  | literal | call | pointer => rfl
  | name i title decl =>
    match decl with
    | some (.constant k) => rfl
    | none | some (.localVar _) | some (.argument _) | some (.dataField _) =>
      exact stored_congr (e := .name i title _) rfl h
  | member i target field decl _ => exact stored_congr (e := .member i target field decl) rfl h
  | unary i op operand ih | cast i operand ih => simp only [eval, ih h]
  | binary i op left right ihl ihr =>
    simp only [eval, ihl fun x hx => h x (List.mem_append_right _ hx),
      ihr fun x hx => h x (List.mem_append_left _ hx)]

/-- An expression stands for what lies at its place, or else its value is written out. -/
theorem bytes_eq {n : Nat} (hplus : ∀ i o, e ≠ .unary i .plus o)
    (hn : ctx.size? e.info = some n) : e.bytes ctx read =
      match ctx.place? e with
      | some place => .ok (read place n)
      | none => (e.eval ctx read).map (·.encode n) := by
  unfold bytes
  split
  next i o => exact absurd rfl (hplus i o)
  next =>
    rw [hn]
    cases ctx.place? e <;> rfl

theorem bytes_eq_error (hplus : ∀ i o, e ≠ .unary i .plus o) (hn : ctx.size? e.info = none) :
    e.bytes ctx read = .error .badInstruction := by
  unfold bytes
  split
  next i o => exact absurd rfl (hplus i o)
  next =>
    rw [hn]
    cases ctx.place? e <;> rfl

/-- The bytes of an expression depend on what it reads only. -/
theorem bytes_congr (h : ∀ x ∈ e.reads ctx, read x.1 x.2 = read' x.1 x.2) :
    e.bytes ctx read = e.bytes ctx read' := by
  have written {e : Expr} (hplus : ∀ i o, e ≠ .unary i .plus o)
      (h : ∀ x ∈ e.reads ctx, read x.1 x.2 = read' x.1 x.2) :
      e.bytes ctx read = e.bytes ctx read' := by
    cases hn : ctx.size? e.info with
    | none => rw [bytes_eq_error hplus hn, bytes_eq_error hplus hn]
    | some n =>
      rw [bytes_eq hplus hn, bytes_eq hplus hn]
      cases hplace : ctx.place? e with
      | none => rw [eval_congr h]
      | some place => exact congrArg Except.ok (h _ (mem_reads_of_place hplace hn))
  induction e using Expr.induct with
  | unary i op operand ih =>
    cases op with
    | plus => exact ih h
    | minus | not => exact written (by simp) h
  | literal | name | member | call | binary | cast | pointer => exact written (by simp) h

end Expr

/-! ## What an expression comes to -/

section Values

variable {Γ : Env} {ctx : EmissionContext} {known : List Nat} {e : Expr} {s : Shape} {σ : Store}
  {v : Value} {data : List UInt8} {n : Nat}

/-- What is computed in two steps is computed in each of them. -/
theorem exists_of_bind_eq_ok {α β : Type} {x : Except Fault α} {f : α → Except Fault β} {b : β}
    (h : (x >>= f) = .ok b) : ∃ a, x = .ok a ∧ f a = .ok b := by
  cases x with
  | error e => cases h
  | ok a => exact ⟨a, rfl, h⟩

/-- What is left of a value of a shape is of the shape. -/
theorem EmissionContext.of_fit {i : Info} {w : Value} (hw : w.Of s) (h : ctx.fit i w = .ok v) :
    v.Of s := by
  unfold fit at h
  split at h
  · rw [← Except.ok.inj h]
    exact Value.truncate_of hw
  · cases h

/-- What lies at a place is of the shape that is expected there. -/
theorem Expr.of_stored (hΓ : Γ.For ctx) (hs : Γ.shape e.info = some s) (hval : s.isValue = true)
    {place : Option Place} (h : ctx.stored σ.read e.info place = .ok v) : v.Of s := by
  cases place with
  | none => cases h
  | some place =>
    simp only [EmissionContext.stored] at h
    split at h
    next n hn =>
      have hheader (c : Nat) (hc : s = .string c) : stringHeader ≤ (σ.read place n).length := by
        rw [hΓ.size?_eq hs, hc] at hn
        obtain rfl : stringSize c = n := Option.some.inj hn
        rw [Store.length_read]
        exact stringHeader_le_stringSize c
      obtain ⟨w, hw, hof⟩ := Value.decode_of hval hheader
      rw [hΓ.kind_eq hs, hw] at h
      rwa [← Except.ok.inj h]
    next => cases h

/-- **A value that an expression comes to is of the expression's shape.** -/
theorem Expr.Typed.of_eval_read (hΓ : Γ.For ctx) (he : e.Typed Γ) (hs : Γ.shape e.info = some s)
    (hval : s.isValue = true) (h : e.eval ctx σ.read = .ok v) : v.Of s := by
  induction e using Expr.induct generalizing s v with
  | literal i l =>
    obtain ⟨s', hs', hfit⟩ := he
    obtain rfl := Option.some.inj (hs'.symm.trans hs)
    exact ctx.of_fit (Literal.toValue_of hfit) h
  | name i title decl =>
    match decl, he, h with
    | some (.constant k), ⟨s', l, hs', hl, hfit⟩, h =>
      obtain rfl := Option.some.inj (hs'.symm.trans hs)
      rw [hΓ.constant] at hl
      simp only [eval, hl] at h
      exact ctx.of_fit (Literal.toValue_of hfit) h
    | some (.localVar _), _, h | some (.argument _), _, h | some (.dataField _), _, h =>
      exact of_stored hΓ hs hval h
  | member i target field decl _ => exact of_stored hΓ hs hval h
  | call | pointer => cases h
  | unary i op operand ih =>
    obtain ⟨ho, s', hs', hop, hi⟩ := he
    obtain rfl := Option.some.inj (hi.symm.trans hs)
    obtain ⟨w, hw, h⟩ := exists_of_bind_eq_ok h
    obtain ⟨w', hw', h⟩ := exists_of_bind_eq_ok h
    obtain ⟨x, hx, hof⟩ := UnaryOp.apply_of_takes hop (ih ho hs' hval hw)
    obtain rfl := Except.ok.inj (hx.symm.trans hw')
    exact ctx.of_fit hof h
  | binary i op left right ihl ihr =>
    obtain ⟨hl, hr, a, b, c, ha, hb, hop, hi⟩ := he
    obtain rfl := Option.some.inj (hi.symm.trans hs)
    obtain ⟨hva, hvb, -⟩ := Shape.isValue_of_binary hop
    obtain ⟨r, hr', h⟩ := exists_of_bind_eq_ok h
    obtain ⟨l, hl', h⟩ := exists_of_bind_eq_ok h
    obtain ⟨w, hw, h⟩ := exists_of_bind_eq_ok h
    obtain ⟨x, hx, hof⟩ | hdiv :=
      BinaryOp.apply_of_takes hop (ihl hl ha hva hl') (ihr hr hb hvb hr')
    · obtain rfl := Except.ok.inj (hx.symm.trans hw)
      exact ctx.of_fit hof h
    · cases hdiv.symm.trans hw
  | cast i operand ih =>
    obtain ⟨ho, -, a, s', ha, hi, hconv⟩ := he
    obtain rfl := Option.some.inj (hi.symm.trans hs)
    obtain ⟨w, hw, h⟩ := exists_of_bind_eq_ok h
    obtain ⟨w', hw', h⟩ := exists_of_bind_eq_ok h
    rw [hΓ.kind_eq hi] at hw'
    obtain ⟨x, hx, hof⟩ :=
      Value.cast_of_converts hconv (ih ho ha (Shape.isValue_of_converts hconv).1 hw)
    obtain rfl := Except.ok.inj (hx.symm.trans hw')
    exact ctx.of_fit hof h

/-- **The bytes of an expression lie at a place that it reads, or a value is written out.** -/
theorem Expr.Typed.bytes_cases (hΓ : Γ.For ctx) (he : e.Typed Γ) (hr : e.readsOnly known = true)
    (hs : Γ.shape e.info = some s) (hn : ctx.size? e.info = some n)
    (h : e.bytes ctx σ.read = .ok data) :
    (∃ e' place, e'.Typed Γ ∧ e'.readsOnly known = true ∧ Γ.shape e'.info = some s ∧
      ctx.place? e' = some place ∧ data = σ.read place n) ∨
    s.isValue = true ∧ ∃ v : Value, v.Of s ∧ data = v.encode n := by
  -- what is no plus is taken from its place as it lies there, or else written out
  have plain {e : Expr} (he : e.Typed Γ) (hr : e.readsOnly known = true)
      (hs : Γ.shape e.info = some s) (hn : ctx.size? e.info = some n)
      (hplus : ∀ i o, e ≠ .unary i .plus o)
      (hval : ∀ v, ctx.place? e = none → e.eval ctx σ.read = .ok v → s.isValue = true)
      (h : e.bytes ctx σ.read = .ok data) :
      (∃ e' place, e'.Typed Γ ∧ e'.readsOnly known = true ∧ Γ.shape e'.info = some s ∧
        ctx.place? e' = some place ∧ data = σ.read place n) ∨
      s.isValue = true ∧ ∃ v : Value, v.Of s ∧ data = v.encode n := by
    rw [Expr.bytes_eq hplus hn] at h
    cases hplace : ctx.place? e with
    | some place =>
      rw [hplace] at h
      exact .inl ⟨e, place, he, hr, hs, hplace, (Except.ok.inj h).symm⟩
    | none =>
      rw [hplace] at h
      cases hv : e.eval ctx σ.read with
      | error f =>
        rw [hv] at h
        cases h
      | ok v =>
        rw [hv] at h
        have hval := hval v hplace hv
        exact .inr ⟨hval, v, he.of_eval_read hΓ hs hval hv, (Except.ok.inj h).symm⟩
  induction e using Expr.induct with
  | literal i l =>
    refine plain he hr hs hn (by simp) (fun _ _ _ => ?_) h
    obtain ⟨s', hs', hfit⟩ := he
    obtain rfl := Option.some.inj (hs'.symm.trans hs)
    exact Literal.isValue_of_fits hfit
  | name i title decl =>
    refine plain he hr hs hn (by simp) (fun v hplace hv => ?_) h
    match decl, he with
    | some (.constant k), ⟨s', l, hs', _, hfit⟩ =>
      obtain rfl := Option.some.inj (hs'.symm.trans hs)
      exact Literal.isValue_of_fits hfit
    | some (.localVar _), _ | some (.argument _), _ | some (.dataField _), _ =>
      simp only [Expr.eval, hplace] at hv
      cases hv
  | member i target field decl _ =>
    refine plain he hr hs hn (by simp) (fun v hplace hv => ?_) h
    rw [Expr.eval, hplace] at hv
    cases hv
  | call | pointer => cases hr
  | unary i op operand ih =>
    have hval : s.isValue = true := by
      obtain ⟨-, s', -, hop, hi⟩ := he
      obtain rfl := Option.some.inj (hi.symm.trans hs)
      exact Shape.isValue_of_takes hop
    cases op with
    | plus =>
      obtain ⟨ho, s', hs', -, hi⟩ := he
      obtain rfl := Option.some.inj (hi.symm.trans hs)
      exact ih ho hr hs' (by rw [hΓ.size?_eq hs', ← hΓ.size?_eq hi]; exact hn) h
    | minus | not => exact plain he hr hs hn (by simp) (fun _ _ _ => hval) h
  | binary i op left right _ _ =>
    refine plain he hr hs hn (by simp) (fun _ _ _ => ?_) h
    obtain ⟨-, -, a, b, c, -, -, hop, hi⟩ := he
    obtain rfl := Option.some.inj (hi.symm.trans hs)
    exact (Shape.isValue_of_binary hop).2.2
  | cast i operand _ =>
    refine plain he hr hs hn (by simp) (fun _ _ _ => ?_) h
    obtain ⟨-, -, a, s', -, hi, hconv⟩ := he
    obtain rfl := Option.some.inj (hi.symm.trans hs)
    exact (Shape.isValue_of_converts hconv).2

/-- The bytes of an expression are as many as its type has. -/
theorem Expr.Typed.length_bytes_of_size (hΓ : Γ.For ctx) (he : e.Typed Γ)
    (hr : e.readsOnly known = true) (hs : Γ.shape e.info = some s)
    (hn : ctx.size? e.info = some n) (h : e.bytes ctx σ.read = .ok data) : data.length = n := by
  obtain ⟨e', place, -, -, -, -, rfl⟩ | ⟨-, v, hv, rfl⟩ := he.bytes_cases hΓ hr hs hn h
  · exact σ.length_read place n
  · exact Value.length_encode ((hΓ.size?_eq hs).symm.trans hn) hv

end Values

end ChannelBasic
