import ChannelBasic.Proofs.Typing.Grounding

/-!
# Proofs/Typing/Termination — definitions are evaluated without end only if they have none

When statements are checked nothing is open any more, and what they name is evaluated like
everything else.  So checking a program never calculates what has no end, and it is refused for
recursion exactly where a definition depends on itself (`evaluates_of_bindNames`).
-/

namespace ChannelBasic

open Relation

/-- What is known is orderly, and nothing is open. -/
structure CheckState.Resting (p : Program) (bound : Nat) (s : CheckState) : Prop
    extends s.Orderly p bound where
  constants : s.openConstants = []
  lengths : s.openLengths = []

variable {p : Program} {bound : Nat} {s s' : CheckState}

theorem CheckState.Resting.awaits (hs : s.Resting p bound) (d : Definition) : s.Awaits p d :=
  ⟨by simp [hs.constants], by simp [hs.lengths]⟩

theorem CheckState.Resting.grows (hs : s.Resting p bound) (ho : s'.Orderly p bound)
    (h : Grows s s') : s'.Resting p bound :=
  ⟨ho, h.openConstants.trans hs.constants, h.openLengths.trans hs.lengths⟩

theorem CheckState.Resting.relocate (hs : s.Resting p bound) (locals : Array Local) :
    ({ s with locals } : CheckState).Resting p bound :=
  ⟨hs.toOrderly.relocate locals, hs.constants, hs.lengths⟩

namespace Checking

variable {calculate : Calculator} {sigs : Signatures} {visible : Nat → Bool} {g f : ConstantType}
  {e : Expr} {place : Location}

/-! ## Statements -/

section Statements

variable (hcalc : p.Faithful calculate) (hc : Answers p bound g f)
include hcalc hc

/-- Values are found at rest. -/
theorem rests_value (hs : s.Resting p bound) (hp : e.Plain p.types visible) :
    Mimics (valueBy calculate sigs g e) (value sigs f e) s (fun r s' => s'.Resting p bound ∧
      Grows s s' ∧ r.1.Settles s'.constants) p.Blames :=
  (mimics_value hcalc hc hs.toOrderly hp fun _ _ => hs.awaits _).mono fun _ _ h =>
    ⟨hs.grows h.orderly h.moves.toGrows, h.moves.toGrows, h.settles⟩

theorem rests_target (hs : s.Resting p bound) (hp : e.Plain p.types visible) :
    Mimics (targetBy calculate sigs g e) (target sigs f e) s (fun _ s' => s'.Resting p bound ∧
      Grows s s') p.Blames := by
  unfold targetBy target
  refine (rests_value hcalc hc hs hp).seq fun r s₁ h₁ => ?_
  dsimp only
  refine .ite (fun _ => .reads ?_) fun _ => .refused_seq nofun
  exact .ite (fun _ => .refused_seq nofun) fun _ => .value ⟨h₁.1, h₁.2.1⟩

theorem rests_assigned (hs : s.Resting p bound) (hp : e.Plain p.types visible)
    (expected : TypeId) :
    Mimics (assignedBy calculate sigs g expected e) (assigned sigs f expected e) s
      (fun _ s' => s'.Resting p bound ∧ Grows s s') p.Blames := by
  refine (rests_value hcalc hc hs hp).seq fun r s₁ h₁ => ?_
  refine (mimics_coerce hcalc h₁.1.toOrderly h₁.2.2 expected .incompatibleTypes nofun).mono ?_
  rintro _ s₂ ⟨rfl, -⟩
  exact ⟨h₁.1, h₁.2.1⟩

theorem rests_condition (hs : s.Resting p bound) (hp : e.Plain p.types visible) :
    Mimics (conditionBy calculate sigs g e) (condition sigs f e) s
      (fun _ s' => s'.Resting p bound ∧ Grows s s') p.Blames := by
  unfold conditionBy condition
  refine (rests_value hcalc hc hs hp).seq fun r s₁ h₁ => .reads ?_
  dsimp only
  exact .ite (fun _ => .value ⟨h₁.1, h₁.2.1⟩) fun _ => .refused_seq nofun

omit hcalc hc in
theorem rests_infer (hs : s.Resting p bound) (target : Expr) (actual : TypeId) :
    Comes (infer target actual) s (fun _ s' => s'.Resting p bound ∧ Grows s s') p.Blames := by
  refine (Mimics.both (P := fun _ s' => s'.Resting p bound) ?_ (keeps_infer s)).mono
    fun _ _ h => ⟨h.1, h.2.toGrows⟩
  unfold infer
  split
  · exact .modifies (hs.relocate _)
  · exact .value hs

theorem rests_var (hs : s.Resting p bound) (index : Nat) {first : Option Expr}
    (hp : ∀ e, first = some e → e.Plain p.types visible) :
    Mimics (varBy calculate sigs g place index first) (var sigs f place index first) s
      (fun _ s' => s'.Resting p bound) p.Blames := by
  unfold varBy var
  refine .reads ?_
  cases s.locals[index]? with
  | none => exact .refused nofun
  | some v =>
    dsimp only
    cases v.type with
    | some declared =>
      refine .ite (fun _ => .refused_seq nofun) fun _ => ?_
      cases first with
      | none => exact .value hs
      | some e =>
        exact (rests_assigned hcalc hc hs (hp e rfl) declared).seq fun _ _ h => .value h.1
    | none =>
      cases first with
      | none => exact .refused nofun
      | some e =>
        refine (rests_value hcalc hc hs (hp e rfl)).seq fun r s₁ h₁ => .reads ?_
        exact .modifies_seq (.value (h₁.1.relocate _))

end Statements

mutual

theorem rests_stmt (hcalc : p.Faithful calculate) (hc : Answers p bound g f)
    {returns : Option TypeId} : (t : Stmt) → (s : CheckState) →
    s.Resting p bound → t.Plain p.types visible →
      Mimics (stmtBy calculate sigs g returns t) (stmt sigs f returns t) s
        (fun _ s' => s'.Resting p bound) p.Blames
  | .var l index first, s, hs, hp => by
    unfold stmtBy stmt
    exact (rests_var hcalc hc hs index hp).seq fun _ _ h => .value h
  | .assign l first place, s, hs, ⟨hf, hp⟩ => by
    unfold stmtBy stmt
    refine (rests_value hcalc hc hs hf).seq fun r s₁ h₁ => ?_
    refine (rests_infer h₁.1 place r.2).seq fun _ s₂ h₂ => ?_
    refine (rests_target hcalc hc h₂.1 hp).seq fun t s₃ h₃ => ?_
    have hr := h₁.2.2.grows (h₂.2.trans h₃.2)
    refine (mimics_coerce hcalc h₃.1.toOrderly hr t.2 .incompatibleTypes nofun).seq
      fun _ s₄ h₄ => .value ?_
    rw [h₄.1]
    exact h₃.1
  | .invoke l call, s, hs, hp => by
    unfold stmtBy stmt
    refine (mimics_expr hcalc hc call s hs.toOrderly hp fun _ _ => hs.awaits _).seq
      fun _ s₁ h₁ => .value (hs.grows h₁.orderly h₁.moves.toGrows)
  | .return l result, s, hs, hp => by
    unfold stmtBy stmt
    cases returns with
    | none =>
      cases result with
      | none => exact .value hs
      | some e => exact .refused nofun
    | some t =>
      cases result with
      | none => exact .refused nofun
      | some e => exact (rests_assigned hcalc hc hs (hp e rfl) t).seq fun _ _ h => .value h.1
  | .choose l branches, s, hs, hp => by
    unfold stmtBy stmt
    exact (rests_choices hcalc hc branches s hs hp).seq fun _ _ h => .value h
  | .count l counter start finish step body temps, s, hs,
      ⟨⟨hcounter, hstart, hfinish, hstep⟩, hb⟩ => by
    unfold stmtBy stmt
    refine (rests_value hcalc hc hs hstart).seq fun r s₁ h₁ => ?_
    refine (rests_infer h₁.1 counter r.2).seq fun _ s₂ h₂ => ?_
    refine (rests_target hcalc hc h₂.1 hcounter).seq fun t s₃ h₃ => .reads ?_
    have hr := h₁.2.2.grows (h₂.2.trans h₃.2)
    dsimp only
    refine .ite (fun _ => ?_) fun _ => .refused_seq nofun
    refine (mimics_coerce hcalc h₃.1.toOrderly hr t.2 .incompatibleTypes nofun).seq
      fun a s₄ h₄ => ?_
    obtain ⟨rfl, -⟩ := h₄
    refine (rests_assigned hcalc hc h₃.1 hfinish t.2).seq fun b s₅ h₅ => ?_
    cases step with
    | none =>
      refine .value_seq ?_
      exact (rests_stmts hcalc hc body s₅ h₅.1 hb).seq fun _ _ h => .value h
    | some e =>
      refine (rests_assigned hcalc hc h₅.1 (hstep e rfl) t.2).seq fun c s₆ h₆ => .value_seq ?_
      exact (rests_stmts hcalc hc body s₆ h₆.1 hb).seq fun _ _ h => .value h
  | .loop l test body, s, hs, ⟨htest, hb⟩ => by
    unfold stmtBy stmt
    cases test with
    | none =>
      refine .value_seq ?_
      exact (rests_stmts hcalc hc body s hs hb).seq fun _ _ h => .value h
    | some c =>
      refine (rests_condition hcalc hc hs (htest c rfl)).seq fun c' s₁ h₁ => .value_seq ?_
      exact (rests_stmts hcalc hc body s₁ h₁.1 hb).seq fun _ _ h => .value h

theorem rests_stmts (hcalc : p.Faithful calculate) (hc : Answers p bound g f)
    {returns : Option TypeId} : (l : List Stmt) → (s : CheckState) →
    s.Resting p bound → Stmt.PlainAll p.types visible l →
      Mimics (stmtsBy calculate sigs g returns l) (stmts sigs f returns l) s
        (fun _ s' => s'.Resting p bound) p.Blames
  | [], s, hs, _ => .value hs
  | t :: rest, s, hs, ⟨ht, hrest⟩ => by
    unfold stmtsBy stmts
    refine (rests_stmt hcalc hc t s hs ht).seq fun t' s₁ h₁ => ?_
    exact (rests_stmts hcalc hc rest s₁ h₁ hrest).seq fun _ _ h => .value h

theorem rests_choices (hcalc : p.Faithful calculate) (hc : Answers p bound g f)
    {returns : Option TypeId} : (b : Branches) → (s : CheckState) →
    s.Resting p bound → b.Plain p.types visible →
      Mimics (choicesBy calculate sigs g returns b) (choices sigs f returns b) s
        (fun _ s' => s'.Resting p bound) p.Blames
  | .done, s, hs, _ => .value hs
  | .otherwise body, s, hs, hp => by
    unfold choicesBy choices
    exact (rests_stmts hcalc hc body s hs hp).seq fun _ _ h => .value h
  | .branch test body rest, s, hs, ⟨htest, hb, hrest⟩ => by
    unfold choicesBy choices
    refine (rests_condition hcalc hc hs htest).seq fun test' s₁ h₁ => ?_
    refine (rests_stmts hcalc hc body s₁ h₁.1 hb).seq fun body' s₂ h₂ => ?_
    exact (rests_choices hcalc hc rest s₂ h₂ hrest).seq fun _ _ h => .value h

end

/-! ## Programs -/

theorem comes_checkType {rule rule' : Rule} (h : rule ≠ .recursiveDefinition)
    (h' : rule' ≠ .recursiveDefinition) (id : TypeId) :
    Comes (checkType place rule rule' id) s (fun _ s' => s' = s) p.Blames := by
  unfold checkType
  refine .reads ?_
  dsimp only
  refine .ite (fun _ => .refused_seq fun hd => absurd hd h) fun _ => ?_
  exact .ite (fun _ => .refused fun hd => absurd hd h') fun _ => .value rfl

/-- Checks that each leave everything as it is leave everything as it is. -/
theorem comes_checks {α : Type} {check : α → Checking PUnit} {as : List α}
    (h : ∀ a s, Comes (check a) s (fun _ s' => s' = s) p.Blames) :
    Comes (as.forM check) s (fun _ s' => s' = s) p.Blames :=
  .each (I := (· = s)) (fun a _ _ hs => hs ▸ h a s) rfl

theorem comes_checkField (slot : Slot) (s : CheckState) :
    Comes (checkField slot) s (fun _ s' => s' = s) p.Blames :=
  comes_checkType (by decide) (by decide) _

theorem comes_checkNative (fn : Function) (s : CheckState) :
    Comes (checkNative fn) s (fun _ s' => s' = s) p.Blames := by
  unfold checkNative
  split
  · exact comes_checks fun t s => comes_checkType (by decide) (by decide) t
  · exact .value rfl

theorem comes_checkReturns (fn : Function) (s : CheckState) :
    Comes (checkReturns fn) s (fun _ s' => s' = s) p.Blames := by
  unfold checkReturns
  split
  · exact comes_checkType (by decide) (by decide) _
  · exact .value rfl

theorem comes_checkChannel (c : Channel) (s : CheckState) :
    Comes (checkChannel p c) s (fun _ s' => s' = s) p.Blames := by
  unfold checkChannel
  split
  · exact .value rfl
  · split
    · refine .reads ?_
      exact .ite (fun _ => .refused nofun) fun _ => .value rfl
    · exact .refused nofun

/-- A function is checked at rest. -/
theorem rests_checkFunction {visible : Owner → Nat → Bool} (hcalc : p.Faithful calculate)
    (hc : Answers p bound g f) (hs : s.Resting p bound) {fn : Function}
    (hp : ∀ body, fn.user? = some body →
      Stmt.PlainAll p.types (visible fn.owner) body.statements) :
    Mimics (checkFunctionBy calculate p g fn) (checkFunction p f fn) s
      (fun _ s' => s'.Resting p bound) p.Blames := by
  unfold checkFunctionBy checkFunction
  cases hbody : fn.body with
  | native => exact .value hs
  | user body =>
    dsimp only
    refine (comes_checks fun a s => comes_checkType (by decide) (by decide) a.type).seq
      fun _ s₁ h₁ => ?_
    subst h₁
    refine .modifies_seq ?_
    refine (rests_stmts hcalc hc body.statements _ (hs.relocate _)
      (hp body (by rw [Function.user?, hbody]))).seq fun _ s₂ h₂ => ?_
    exact .reads (.value h₂)

theorem resting_start {visible : Owner → Nat → Bool} (hw : p.Written visible) :
    (⟨p.types, p.constants, [], [], #[]⟩ : CheckState).Resting p (p.constants.size + 1) := by
  have unfolded {k : Nat} {c : Constant} (hc : p.constants[k]? = some c)
      (hf : c.folded.isSome = true) {P : Prop} : P := by
    rw [(hw.constants k c hc).1] at hf
    cases hf
  exact {
    count := rfl
    waiting := fun _ _ hc _ => hc
    settles := fun _ _ hc hf => unfolded hc hf
    values := fun _ _ hc hf => unfolded hc hf
    grounded := fun _ _ hc hf => unfolded hc hf
    size := le_rfl
    entries := fun _ _ => .inl rfl
    distinct := List.nodup_nil
    within := nofun
    room := Nat.lt_succ_self _
    constants := rfl
    lengths := rfl }

/-- **Checking a program does not depend on what a calculator does where there is no end**, and
blames for recursion only what depends on itself. -/
theorem mimics_program {visible : Owner → Nat → Bool} (hcalc : p.Faithful calculate)
    (hw : p.Written visible) (hd : p.DeclaresTypes) :
    Mimics (programBy calculate p) (program p) ⟨p.types, p.constants, [], [], #[]⟩
      (fun _ s' => s'.Resting p (p.constants.size + 1)) p.Blames := by
  have hc := answers_constantWithin hcalc hw hd (p.constants.size + 1)
  have hkeep : ∀ k, Keeps Moves (constantWithin p.lengths (p.constants.size + 1) k) :=
    keeps_constantWithin _
  unfold programBy program
  refine (Mimics.each (I := CheckState.Resting p (p.constants.size + 1)) (fun id hid s hs => ?_)
    (resting_start hw)).seq fun _ s₁ h₁ => ?_
  · have hlt : id < p.types.entries.size := List.mem_range.1 (List.mem_filter.1 hid).1
    exact ((mimics_resolveLength hcalc hc hw hs.toOrderly hlt fun n _ => hs.awaits _).both
      (keeps_resolveLength hkeep id s)).mono fun _ _ h => hs.grows h.1.1 h.2.toGrows
  refine (Mimics.each (I := CheckState.Resting p (p.constants.size + 1)) (fun k _ s hs => ?_)
    h₁).seq fun _ s₂ h₂ => ?_
  · exact (hc k s hs.toOrderly (hs.awaits _)).seq fun _ _ h =>
      .value (hs.grows h.1 h.2.1.toGrows)
  -- declared types are looked at, and nothing changes
  refine (comes_checks fun d s => comes_checks comes_checkField).seq fun _ s₃ h₃ => ?_
  subst h₃
  refine (comes_checks fun m s => comes_checks comes_checkField).seq fun _ s₄ h₄ => ?_
  subst h₄
  refine (comes_checks comes_checkNative).seq fun _ s₅ h₅ => ?_
  subst h₅
  refine (comes_checks comes_checkReturns).seq fun _ s₆ h₆ => ?_
  subst h₆
  refine (comes_checks comes_checkReturns).seq fun _ s₇ h₇ => ?_
  subst h₇
  -- bodies and channels
  refine (Mimics.eachOf (I := CheckState.Resting p (p.constants.size + 1)) (fun fn hfn s hs => ?_)
    h₂).seq fun fs s₈ h₈ => ?_
  · obtain ⟨n, hn⟩ := List.mem_iff_getElem?.1 hfn
    rw [Array.getElem?_toList] at hn
    exact rests_checkFunction hcalc hc hs fun body hb => (hw.functions n fn hn body hb).statements
  refine (comes_checks comes_checkChannel).seq fun _ s₉ h₉ => ?_
  subst h₉
  exact .value h₈

end Checking

/-! ## Programs as they are written -/

namespace Lowering

open Lowered

theorem declared_constants (cs : List Raw.Constant) : (taken : List String) → (s : Lowered) →
    s.Sound → Ends (constants taken cs) s fun r s' => ∀ c ∈ r, ∀ t, c.type = some t →
      t < s'.types.entries.size := by
  induction cs with
  | nil =>
    intro taken s hs
    exact Ends.value (by simp)
  | cons c rest ih =>
    intro taken s hs
    unfold constants
    refine Ends.seq (P := fun c' s₁ => s₁.Sound ∧ ∀ t, c'.type = some t →
      t < s₁.types.entries.size) ?_ fun c' s₁ h₁ => ?_
    · unfold constant
      dsimp only
      split
      · exact Ends.refused_seq
      · refine (ends_dataType? c.type hs).seq fun t s₁ h₁ => ?_
        refine (ends_expr c.value s₁ h₁.1).seq fun e s₂ h₂ => Ends.value ⟨h₂.1, fun t ht => ?_⟩
        exact (h₁.2.2 t ht).trans_le h₂.2.1.types.size_le
    · refine ((ih _ s₁ h₁.1).both (ends_constants rest _ s₁ h₁.1)).seq fun r s₂ h₂ =>
        Ends.value fun d hd t ht => ?_
      obtain rfl | hd := List.mem_cons.1 hd
      · exact (h₁.2 t ht).trans_le h₂.2.2.1.types.size_le
      · exact h₂.1 d hd t ht

theorem declared_program (r : Raw.Program) {s : Lowered} (hs : s.Sound)
    (hnumbers : s.types.Numbers 0) : Ends (program r) s fun p _ => p.1.DeclaresTypes := by
  unfold program
  refine ((ends_constants r.constants [] s hs).both (declared_constants r.constants [] s hs)).seq
    fun cs s₁ h₁ => ?_
  obtain ⟨⟨hs₁, hstays₁, -⟩, hdeclared⟩ := h₁
  refine (ends_numbered (I := fun k s => s.Sound ∧ s.types.Numbers k) (P := fun _ _ _ => True)
    Lowered.Extends.passage (fun _ _ => trivial)
    (fun a k s hs => (ends_struct a k hs.1 hs.2).mono fun _ _ h => ⟨h.1, h.2, trivial⟩) r.structs 0
    s₁ ⟨hs₁, hnumbers.sameStructs hstays₁.structs⟩).seq fun ss s₂ h₂ => ?_
  refine (ends_numbered (I := fun _ => Lowered.Sound) (P := fun _ _ _ => True)
    Stays.passage (fun _ _ => trivial) (fun a k s hs => (ends_library a k s hs).mono
      fun _ _ h => ⟨h.1, h.2.1, trivial⟩) r.libraries 0 s₂ h₂.1.1).seq fun ls s₃ h₃ => ?_
  refine (ends_numbered (I := fun _ => Lowered.Sound) (P := fun _ _ _ => True)
    Stays.passage (fun _ _ => trivial) (fun a k s hs => (ends_module a k s hs).mono
      fun _ _ h => ⟨h.1, h.2.1, trivial⟩) r.modules 0 s₃ h₃.1).seq fun ms s₄ h₄ => ?_
  have hE := h₂.2.1.types.trans (h₃.2.1.types.trans h₄.2.1.types)
  refine Ends.reads (Ends.value fun k c hc t ht => ?_)
  have hmem : c ∈ cs := List.mem_of_getElem? (by simpa using hc)
  exact (hdeclared c hmem t ht).trans_le hE.size_le

end Lowering

namespace Program

theorem DeclaresTypes.bindTypes {p' : Program} {ms : List TypeMention} (h : p.DeclaresTypes)
    (hp : p.bindTypes ms = .ok p') : p'.DeclaresTypes := by
  induction ms generalizing p with
  | nil =>
    obtain rfl : p = p' := by simpa [Program.bindTypes] using hp
    exact h
  | cons m rest ih =>
    unfold Program.bindTypes at hp
    split at hp
    · split at hp
      · refine ih (fun k c hc t ht => ?_) hp
        simpa [TypeTable.resolve] using h k c hc t ht
      · cases hp
    · exact ih h hp

/-- The declared types of the constants of a program stand in its table. -/
theorem declaresTypes_of_bindNames {raw : Raw.Program} {p₀ : Program} (h₀ : ofRaw raw = .ok p₀)
    (h : p₀.bindNames = .ok p) : p.withReach.DeclaresTypes := by
  obtain ⟨x, hx, h₀⟩ := Checked.bind_eq_ok.1 h₀
  obtain ⟨s, hrun⟩ := run'_eq_ok.1 hx
  have hlowered := (Lowering.declared_program raw Lowering.sound_initial TypeTable.numbers_initial
    _ _ hrun).bindTypes h₀
  obtain ⟨constants, hconstants, h⟩ := Checked.bind_eq_ok.1 h
  obtain ⟨lengths, -, h⟩ := Checked.bind_eq_ok.1 h
  obtain ⟨functions, -, h⟩ := Checked.bind_eq_ok.1 h
  obtain ⟨channels, -, h⟩ := Checked.bind_eq_ok.1 h
  obtain rfl := Checked.pure_eq_ok.1 h
  rw [Checked.mapM_eq_ok] at hconstants
  intro k c hc t ht
  obtain ⟨c₀, hc₀, h⟩ := forall₂_right hconstants (k := k) (by simpa [withReach] using hc)
  obtain ⟨e, -, h⟩ := Checked.bind_eq_ok.1 h
  obtain rfl := Checked.pure_eq_ok.1 h
  exact hlowered k c₀ (by simpa using hc₀) t ht

/-- A constant that everything evaluated is what it is: nothing depends on itself, and values are
found without going round. -/
theorem terminating_of_checkTypes {visible : Owner → Nat → Bool} (hw : p.Written visible)
    (hd : p.DeclaresTypes) {q : Program} (h : p.checkTypes = .ok q) :
    (∀ d, p.Grounded d) ∧ Expr.Terminating q.constants ∧
      ∀ calculate, Expr.Calculates q.types q.constants calculate ↔
        calculate = Expr.fold q.types q.constantValue := by
  obtain ⟨⟨fs, s⟩, hrun, h⟩ := Checked.bind_eq_ok.1 h
  obtain rfl := Checked.pure_eq_ok.1 h
  have hs : s.Orderly p (p.constants.size + 1) :=
    ((Checking.mimics_program (fun _ _ _ => rfl) hw hd).ends _ _ hrun).toOrderly
  obtain ⟨s₀, hready, hchecked⟩ := Checking.program_eq_ok hw hrun
  have hsettled := hready.settled.grows (known_of_checked hchecked).1.toGrows
  have hconstant (k : Nat) : p.Grounded (.constant k) := hs.grounded_of_folded (hsettled k)
  have hend : Expr.Terminating s.constants :=
    Expr.terminating_of_settles fun k c hc => hs.settles k c hc (hsettled k c hc)
  refine ⟨fun d => ?_, hend, fun calculate =>
    Expr.calculates_iff hend fun k c hc => hs.values k c hc (hsettled k c hc)⟩
  cases d with
  | constant k => exact hconstant k
  | length n => exact grounded_length fun _ _ m _ => hconstant m

/-- **Definitions are evaluated without looping.**  In a program with its names bound: if checking
comes to an end well, no definition depends on itself, calculations end, and the values of the
constants are what calculating gives; if a definition depends on itself, the program is refused;
what is done where a calculation might go round does not matter, because nothing is calculated
there; and whoever is blamed for recursion depends on itself. -/
theorem evaluates_of_bindNames {raw : Raw.Program} {p₀ p₁ : Program} (h₀ : ofRaw raw = .ok p₀)
    (h₁ : p₀.bindNames = .ok p₁) (hp : p₁.withReach = p) :
    (∀ q, p.checkTypes = .ok q → (∀ d, ¬ TransGen p.Depends d d) ∧ Expr.Terminating q.constants ∧
      ∀ calculate, Expr.Calculates q.types q.constants calculate ↔
        calculate = Expr.fold q.types q.constantValue) ∧
    ((∃ d, TransGen p.Depends d d) → ∃ e, p.checkTypes = .error e ∧ analyse raw = .error e) ∧
    (∀ calculate, p.Faithful calculate → p.checkTypesBy calculate = p.checkTypes) ∧
    ∀ e, p.checkTypes = .error e → e.rule = .recursiveDefinition →
      ∃ d, TransGen p.Depends d d ∧ p.recursion? d = some e := by
  obtain ⟨hw₀, hu₀⟩ := written_ofRaw h₀
  have hw : p.Written p.visible := hp ▸ (hw₀.bound hu₀ h₁).withReach
  have hd : p.DeclaresTypes := hp ▸ declaresTypes_of_bindNames h₀ h₁
  refine ⟨fun q hq => ?_, fun ⟨d, hcycle⟩ => ?_, fun calculate hcalc => ?_, fun e he hrule => ?_⟩
  · obtain ⟨hground, hrest⟩ := terminating_of_checkTypes hw hd hq
    exact ⟨fun d => (hground d).irrefl, hrest⟩
  · cases hq : p.checkTypes with
    | error e =>
      refine ⟨e, rfl, ?_⟩
      simp [analyse, bind, Except.bind, h₀, h₁, hp, hq]
    | ok q => exact absurd hcycle ((terminating_of_checkTypes hw hd hq).1 d).irrefl
  · rw [checkTypesBy, (Checking.mimics_program hcalc hw hd).run]
    rfl
  · refine (Checking.mimics_program (fun _ _ _ => rfl) hw hd).refuses e ?_ hrule
    unfold checkTypes at he
    cases hrun : (Checking.program p).run ⟨p.types, p.constants, [], [], #[]⟩ with
    | error e' =>
      rw [hrun] at he
      simpa [bind, Except.bind] using he
    | ok r =>
      rw [hrun] at he
      cases he

end Program

/-- A text that is as long as another constant says. -/
def Raw.Program.measured (size : Raw.Expr) : Raw.Program :=
  ⟨[⟨default, "A", some (.stringOf (.name default "B")), .text default "AB"⟩,
    ⟨default, "B", none, size⟩], [], [], [], []⟩

namespace Program

/-- A program with its names bound, if there is nothing wrong with them. -/
def named (raw : Raw.Program) : Program :=
  ((ofRaw raw).toOption.getD default).bindNames.toOption.getD default

/-- If a constant says how long the text is, everything is evaluated; if the text itself says so, it
is refused. -/
theorem evaluates_of_bindNames_measured :
    (∃ q, (named (.measured (.integer default 2))).withReach.checkTypes = .ok q ∧
      Expr.Terminating q.constants) ∧
    ∃ e, (named (.measured (.name default "A"))).withReach.checkTypes = .error e ∧
      ∃ d, TransGen (named (.measured (.name default "A"))).withReach.Depends d d ∧
        (named (.measured (.name default "A"))).withReach.recursion? d = some e := by
  have bound (size : Raw.Expr) (h : (ofRaw (.measured size)).isOk = true)
      (h' : ((ofRaw (.measured size)).toOption.getD default).bindNames.isOk = true) :=
    evaluates_of_bindNames (Checked.eq_ok h) (Checked.eq_ok h') rfl
  constructor
  · obtain ⟨q, hq⟩ : ∃ q, (named (.measured (.integer default 2))).withReach.checkTypes = .ok q :=
      Checked.exists_of_isOk (by decide +kernel)
    exact ⟨q, hq, ((bound _ (by decide +kernel) (by decide +kernel)).1 q hq).2.1⟩
  · have hrule : (match (named (.measured (.name default "A"))).withReach.checkTypes with
        | .error e => e.rule == .recursiveDefinition
        | .ok _ => false) = true := by decide +kernel
    split at hrule
    next e he =>
      exact ⟨e, he,
        (bound _ (by decide +kernel) (by decide +kernel)).2.2.2 e he (by simpa using hrule)⟩
    next => cases hrule

end Program

end ChannelBasic
