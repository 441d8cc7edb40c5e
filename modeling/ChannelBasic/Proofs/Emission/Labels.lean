import ChannelBasic.Proofs.Emission.Placement
import ChannelBasic.Proofs.Emission.Units

/-!
# Proofs/Emission/Labels — every label stands in one place

A label that is handed out is marked in the code that it was handed out for, or it belongs to a
function and is going to stand in front of the function's code.  `Issues` keeps the account of both
kinds.  When all functions have their code the account is settled: **every label of a module is
marked exactly once** (`Marked`), so the code can be assembled and no operand is left open
(`assemble_marked`, `link_marked`).
-/

namespace ChannelBasic

open Code

/-- The label that an operand stands for. -/
def Code.Operand.label? : Operand → Option Label
  | .label l => some l
  | .value _ | .static _ | .dynamic _ => none

@[simp] theorem Code.Operand.label?_value (n : Int32) : (Operand.value n).label? = none := rfl

@[simp] theorem Code.Operand.label?_label (l : Label) : (Operand.label l).label? = some l := rfl

/-- The labels that the operands of an instruction stand for. -/
def Code.Instruction.targets (i : Instruction) : List Label :=
  i.x0.label?.toList ++ i.x1.label?.toList ++ i.x2.label?.toList

namespace Piece

/-- The labels that the instructions among some pieces refer to. -/
def targets : List Piece → List Label
  | [] => []
  | .op i :: rest => i.targets ++ targets rest
  | .mark _ :: rest => targets rest

theorem targets_append (xs ys : List Piece) : targets (xs ++ ys) = targets xs ++ targets ys := by
  induction xs with
  | nil => rfl
  | cons x xs ih => cases x <;> simp [targets, ih]

theorem mem_targets {l : Label} {pieces : List Piece} :
    l ∈ targets pieces ↔ ∃ i, .op i ∈ pieces ∧ l ∈ i.targets := by
  induction pieces with
  | nil => simp [targets]
  | cons x xs ih => cases x <;> simp [targets, ih]

theorem count_marks (l : Label) (pieces : List Piece) :
    (marks pieces).count l = pieces.count (.mark l) := by
  induction pieces with
  | nil => rfl
  | cons x xs ih => cases x <;> simp [marks, ih, List.count_cons]

end Piece

namespace EmissionState

/-- One if the label has been handed out. -/
def held (s : EmissionState) (l : Label) : Nat := if l.number < s.labels.size then 1 else 0

/-- How many functions a label belongs to. -/
def owed (s : EmissionState) (l : Label) : Nat := (s.entries.map Prod.snd).count l

/-- No label has an address yet. -/
def Blank (s : EmissionState) : Prop := ∀ a ∈ s.labels.addresses, a = none

/-- A label that belongs to a function has been handed out, and belongs to one function only. -/
def Covered (s : EmissionState) : Prop := ∀ l, s.owed l ≤ s.held l

theorem Covered.lt {s : EmissionState} (h : s.Covered) {k : Nat} {l : Label}
    (hl : (k, l) ∈ s.entries) : l.number < s.labels.size := by
  have hpos : 0 < s.owed l := List.count_pos_iff.2 (List.mem_map_of_mem (f := Prod.snd) hl)
  have hle := h l
  unfold held at hle
  by_contra hnot
  rw [if_neg hnot] at hle
  omega

/-- **The labels handed out are those marked in the code and those that functions got.** -/
structure Issues (p : Program) (s : EmissionState) (code : List Piece) (s' : EmissionState) :
    Prop where
  blank : s.Blank → s'.Blank
  size_le : s.labels.size ≤ s'.labels.size
  balance : ∀ l, (Piece.marks code).count l + s'.owed l + s.held l = s.owed l + s'.held l
  targets : s.Covered → ∀ l ∈ Piece.targets code, l.number < s'.labels.size
  users : ∀ e ∈ s'.entries, e ∈ s.entries ∨ p.IsUser e.1

variable {p : Program} {s s₁ s₂ : EmissionState} {code code' : List Piece} {l : Label}

theorem Issues.covered (h : s.Issues p code s₁) (hs : s.Covered) : s₁.Covered := by
  intro l
  have hbalance := h.balance l
  have hle := hs l
  omega

/-- Code that neither marks labels nor refers to any. -/
theorem Issues.idle (p : Program) (s : EmissionState) (hm : Piece.marks code = [])
    (ht : Piece.targets code = []) : s.Issues p code s where
  blank h := h
  size_le := le_rfl
  balance l := by rw [hm, List.count_nil, Nat.zero_add]
  targets _ l hl := by
    rw [ht] at hl
    cases hl
  users _ he := .inl he

/-- Code that neither marks labels nor refers to any, after labels were given to functions. -/
theorem Issues.then (h : s.Issues p [] s₁) (hm : Piece.marks code = [])
    (ht : Piece.targets code = []) : s.Issues p code s₁ where
  blank := h.blank
  size_le := h.size_le
  balance l := by
    rw [hm]
    exact h.balance l
  targets _ l hl := by
    rw [ht] at hl
    cases hl
  users := h.users

theorem Issues.append (h : s.Issues p code s₁) (h' : s₁.Issues p code' s₂) :
    s.Issues p (code ++ code') s₂ where
  blank hs := h'.blank (h.blank hs)
  size_le := h.size_le.trans h'.size_le
  balance l := by
    have hb := h.balance l
    have hb' := h'.balance l
    rw [Piece.marks_append, List.count_append]
    omega
  targets hs l hl := by
    rw [Piece.targets_append] at hl
    rcases List.mem_append.1 hl with hl | hl
    · exact (h.targets hs l hl).trans_le h'.size_le
    · exact h'.targets (h.covered hs) l hl
  users e he := (h'.users e he).elim (h.users e) .inr

/-- Code that refers to a label that has been handed out. -/
theorem Issues.to (p : Program) (hm : Piece.marks code = []) (ht : Piece.targets code = [l])
    (hl : l.number < s.labels.size) : s.Issues p code s where
  blank h := h
  size_le := le_rfl
  balance l := by rw [hm, List.count_nil, Nat.zero_add]
  targets _ l' hl' := by
    rw [ht, List.mem_singleton] at hl'
    exact hl' ▸ hl
  users _ he := .inl he

/-- A label has been handed out. -/
structure Issued (s : EmissionState) (l : Label) (s' : EmissionState) : Prop where
  blank : s.Blank → s'.Blank
  number : l.number = s.labels.size
  size : s'.labels.size = s.labels.size + 1
  entries : s'.entries = s.entries

theorem Issued.lt (h : s.Issued l s₁) : l.number < s₁.labels.size := by
  rw [h.number, h.size]
  exact Nat.lt_succ_self _

theorem Issued.held (h : s.Issued l s₁) (k : Label) :
    s₁.held k = s.held k + if k = l then 1 else 0 := by
  have hk : k = l ↔ k.number = s.labels.size := by
    rw [← h.number]
    exact ⟨congrArg _, fun h => by cases k; cases l; cases h; rfl⟩
  unfold EmissionState.held
  rw [h.size]
  simp only [hk]
  split_ifs <;> omega

theorem Issued.owed (h : s.Issued l s₁) (k : Label) : s₁.owed k = s.owed k := by
  unfold EmissionState.owed
  rw [h.entries]

/-- **A label is handed out and then marked**, wherever that is. -/
theorem Issued.issues (hl : s.Issued l s₁) (h : s₁.Issues p code s₂)
    (hp : (.mark l :: code).Perm code') : s.Issues p code' s₂ where
  blank hs := h.blank (hl.blank hs)
  size_le := by
    have hsize := hl.size
    have hle := h.size_le
    omega
  balance k := by
    have hb := h.balance k
    rw [hl.held, hl.owed] at hb
    rw [Piece.count_marks, ← hp.count_eq, ← Piece.count_marks]
    simp only [Piece.marks, List.count_cons, beq_iff_eq]
    split_ifs at hb ⊢ with h₁ h₂ h₂
    · omega
    · exact absurd h₁.symm h₂
    · exact absurd h₂.symm h₁
    · omega
  targets hs k hk := by
    have hs₁ : s₁.Covered := by
      intro k
      rw [hl.owed, hl.held]
      exact (hs k).trans (Nat.le_add_right _ _)
    obtain ⟨i, hi, hki⟩ := Piece.mem_targets.1 hk
    have hi' : Piece.op i ∈ code := by simpa using hp.symm.subset hi
    exact h.targets hs₁ k (Piece.mem_targets.2 ⟨i, hi', hki⟩)
  users e he := by
    rw [← hl.entries]
    exact h.users e he

/-- The labels of a loop are handed out and then marked, one behind the other. -/
theorem Issued.loop {head exit : Label} {s₃ : EmissionState} (h₁ : s.Issued head s₁)
    (h₂ : s₁.Issued exit s₂) (h : s₂.Issues p code s₃)
    (hcount : ∀ x, code'.count x = code.count x + (if x = .mark head then 1 else 0) +
      if x = .mark exit then 1 else 0) : s.Issues p code' s₃ := by
  refine h₁.issues (h₂.issues h (.refl _)) (List.perm_iff_count.2 fun x => ?_)
  rw [hcount, List.count_cons, List.count_cons]
  simp only [beq_iff_eq, eq_comm (b := x)]
  omega

theorem Issued.lt_of_issued {head exit : Label} (h₁ : s.Issued head s₁) (h₂ : s₁.Issued exit s₂) :
    head.number < s₂.labels.size := by
  rw [h₁.number, h₂.size, h₁.size]
  omega

end EmissionState

namespace Emission

variable {ctx : EmissionContext} {p : Program} {s : EmissionState}

theorem issues_label : Ends label s fun l s' => s.Issued l s' := by
  refine Ends.changes ⟨fun hs a ha => ?_, rfl, ?_, rfl⟩
  · rcases Array.mem_push.1 ha with ha | ha
    · exact hs a ha
    · exact ha
  · exact Array.size_push _

theorem issues_intern (p : Program) (content : String) (capacity : Nat) :
    Ends (intern content capacity) s fun x s' => s.Issues p [] s' ∧ x.label? = none := by
  refine Ends.changes ⟨⟨fun h => h, le_rfl, fun l => ?_, fun _ l hl => ?_, fun _ he => .inl he⟩, rfl⟩
  · exact Nat.zero_add _ ▸ rfl
  · cases hl

/-- A function that had no label gets one, which is going to stand in front of its code. -/
theorem issues_entry {k : Nat} (hk : p.IsUser k) :
    Ends (entry k) s fun l s' => s.Issues p [] s' ∧ (k, l) ∈ s'.entries := by
  refine Ends.mono (Ends.both (P := fun _ s' => s.Issues p [] s') ?_
    (ends_entry (C := fun _ => True) trivial)) fun l s' h => ⟨h.1, h.2.2⟩
  unfold entry
  refine Ends.reads ?_
  split
  next => exact Ends.value (.idle p s rfl rfl)
  next =>
    refine issues_label.seq fun l s₁ h₁ => ?_
    refine Ends.seq (Ends.modifies (Q := fun _ s' => s.Issues p [] s') ?_) fun _ _ h =>
      Ends.value h
    refine ⟨h₁.blank, by simp [h₁.size], fun k => ?_, fun _ l hl => (by cases hl), fun e he => ?_⟩
    · have hheld := h₁.held k
      have howed := h₁.owed k
      simp only [EmissionState.held, EmissionState.owed, List.map_cons, List.count_cons,
        beq_iff_eq, Piece.marks, List.count_nil, eq_comm (a := l)] at hheld howed ⊢
      omega
    · obtain rfl | he := List.mem_cons.1 he
      · exact .inr hk
      · exact .inl (h₁.entries ▸ he)

/-- What is emitted piece by piece. -/
theorem issues_mapM {α : Type} {g : α → Emission (List Piece)}
    (hg : ∀ a s, Ends (g a) s fun code s' => s.Issues p code s') {as : List α} :
    Ends (as.mapM g) s fun codes s' => s.Issues p codes.flatten s' := by
  induction as generalizing s with
  | nil => exact Ends.value (.idle p s rfl rfl)
  | cons a as ih =>
    rw [List.mapM_cons]
    refine (hg a s).seq fun code s₁ h₁ => ?_
    refine ih.seq fun codes s₂ h₂ => ?_
    exact Ends.value (h₁.append h₂)

theorem issues_literal (place : Location) (v : Literal) (type : TypeId) :
    Ends (literal ctx place v type) s fun code s' => s.Issues ctx.program code s' := by
  unfold literal
  refine (ends_sizeOf place type).seq fun size s₁ h => ?_
  obtain ⟨rfl, -⟩ := h
  cases v with
  | boolean | integral | real => exact Ends.value (.idle _ s₁ rfl rfl)
  | text content =>
    refine (issues_intern ctx.program _ _).seq fun x s₂ h₂ => ?_
    refine Ends.value (h₂.1.then rfl ?_)
    simp [Piece.targets, Instruction.targets, Instruction.load, h₂.2]

theorem issues_loadPlace (e : Expr) : Ends (loadPlace ctx e) s fun code s' => s.Issues ctx.program code s' := by
  refine (ends_loadPlace e).mono fun code s' h => ?_
  obtain ⟨rfl, -, k, place, -, -, rfl⟩ := h
  cases place <;> exact .idle _ s' rfl rfl

theorem issues_store (e : Expr) : Ends (store ctx e) s fun code s' => s.Issues ctx.program code s' := by
  refine (ends_store e).mono fun code s' h => ?_
  obtain ⟨rfl, -, k, place, -, -, rfl⟩ := h
  cases place <;> exact .idle _ s' rfl rfl

theorem issues_address (e : Expr) : Ends (address ctx e) s fun code s' => s.Issues ctx.program code s' := by
  unfold address
  split
  · exact Ends.value (.idle _ s rfl rfl)
  · exact Ends.value (.idle _ s rfl rfl)
  · split
    · refine (ends_typeOf e).seq fun type s₁ h => ?_
      obtain ⟨rfl, -⟩ := h
      refine (issues_intern ctx.program _ _).seq fun x s₂ h₂ => ?_
      refine Ends.value (h₂.1.then rfl ?_)
      simp [Piece.targets, Instruction.targets, Instruction.load, h₂.2]
    · exact Ends.refused

theorem issues_resultRoom (p : Program) (types : TypeTable) (place : Location) (returns : Option TypeId) :
    Ends (resultRoom types place returns) s fun code s' => s.Issues p code s' := by
  refine (ends_resultRoom types place returns).mono fun code s' h => ?_
  obtain ⟨rfl, k, -, rfl⟩ := h
  unfold roomFor
  split <;> exact .idle p s' rfl rfl

theorem issues_callee {f : Function} {k : Nat} (hf : p.functions[k]? = some f) :
    Ends (callee f k) s fun last s' => s.Issues p [last] s' := by
  unfold callee
  split
  next hbody =>
    refine (issues_intern p _ _).seq fun x s₁ h₁ => ?_
    refine Ends.value (h₁.1.then rfl ?_)
    simp [Piece.targets, Instruction.targets, Instruction.call, h₁.2]
  next body hbody =>
    refine (issues_entry ⟨f, body, hf, by rw [Function.user?, hbody]⟩).seq fun l s₁ h₁ => ?_
    refine Ends.value ⟨h₁.1.blank, h₁.1.size_le, h₁.1.balance, fun hs l' hl' => ?_, h₁.1.users⟩
    obtain rfl : l' = l := by
      simpa [Piece.targets, Instruction.targets, Instruction.call] using hl'
    exact (h₁.1.covered hs).lt h₁.2

/-! ## Expressions -/

mutual

theorem issues_load {ctx : EmissionContext} : (e : Expr) → (s : EmissionState) →
    Ends (load ctx e) s fun code s' => s.Issues ctx.program code s'
  | .literal i v, s => by
    unfold load
    refine (ends_typeOf _).seq fun t s₁ h => ?_
    obtain ⟨rfl, -⟩ := h
    exact issues_literal _ _ _
  | .name i name decl, s => by
    unfold load
    split
    · split
      · refine (ends_typeOf _).seq fun t s₁ h => ?_
        obtain ⟨rfl, -⟩ := h
        exact issues_literal _ _ _
      · exact Ends.refused
    · exact issues_loadPlace _
  | .member i target field decl, s => by
    unfold load
    exact issues_loadPlace _
  | .call i name arguments callee, s => by
    unfold load
    split
    next => exact Ends.refused
    next f n hf =>
      obtain ⟨k, -, hk⟩ := Option.bind_eq_some_iff.1 hf
      obtain ⟨g, hg, hgf⟩ := Option.map_eq_some_iff.1 hk
      obtain ⟨rfl, rfl⟩ := Prod.mk.inj hgf
      refine (issues_resultRoom ctx.program _ _ _).seq fun room s₁ h₁ => ?_
      refine (issues_loadArguments arguments s₁).seq fun r s₂ h₂ => ?_
      refine (issues_callee hg).seq fun last s₃ h₃ => ?_
      refine Ends.value (((h₁.append h₂).append h₃).append ?_)
      split <;> exact .idle _ _ rfl rfl
  | .unary i op operand, s => by
    unfold load
    refine (issues_load operand s).seq fun code s₁ h₁ => ?_
    refine (ends_typed operand).seq fun r s₂ h => ?_
    obtain ⟨rfl, -⟩ := h
    cases op with
    | plus => exact Ends.value h₁
    | minus | not => exact Ends.value (h₁.append (.idle _ _ rfl rfl))
  | .binary i op left right, s => by
    unfold load
    refine (ends_typed left).seq fun l s₁ h => ?_
    obtain ⟨rfl, -⟩ := h
    refine (ends_typed right).seq fun r s₂ h => ?_
    obtain ⟨rfl, -⟩ := h
    dsimp only
    split
    · refine (issues_load right s₂).seq fun rightCode s₃ h₃ => ?_
      refine (issues_load left s₃).seq fun leftCode s₄ h₄ => ?_
      refine (ends_operator op i.location l.1 l.2 r.2 (Q := fun _ => True) fun s => ?_).seq
        fun last s₅ h₅ => ?_
      · refine (ends_typed _).seq fun x s' h => Ends.value ⟨h.1, trivial⟩
      · obtain ⟨rfl, i, rfl, hi⟩ := h₅
        refine Ends.value ((h₃.append h₄).append (.idle _ _ rfl ?_))
        obtain ⟨c, -, rfl⟩ | ⟨-, c, n, -, -, rfl⟩ := hi <;> rfl
    · exact Ends.refused_seq
  | .cast i operand, s => by
    unfold load
    refine (issues_load operand s).seq fun code s₁ h₁ => ?_
    refine (ends_typed operand).seq fun r s₂ h => ?_
    obtain ⟨rfl, -⟩ := h
    refine (ends_typed _).seq fun r s₃ h => ?_
    obtain ⟨rfl, -⟩ := h
    exact Ends.value (h₁.append (.idle _ _ rfl rfl))
  | .pointer i target (some offset), s => by
    unfold load
    refine (ends_typed target).seq fun r s₁ h => ?_
    obtain ⟨rfl, -⟩ := h
    refine (issues_load target s₁).seq fun code s₂ h₂ => ?_
    exact Ends.value (h₂.append (.idle _ _ rfl rfl))
  | .pointer i target none, s => by
    unfold load
    exact issues_address target

theorem issues_loadArguments {ctx : EmissionContext} : (es : List Expr) → (s : EmissionState) →
    Ends (loadArguments ctx es) s fun r s' => s.Issues ctx.program r.1 s'
  | [], s => by
    unfold loadArguments
    exact Ends.value (.idle _ _ rfl rfl)
  | e :: rest, s => by
    unfold loadArguments
    refine (issues_loadArguments rest s).seq fun r s₁ h₁ => ?_
    refine (issues_load e s₁).seq fun code s₂ h₂ => ?_
    refine (ends_typed e).seq fun t s₃ h => ?_
    obtain ⟨rfl, -⟩ := h
    exact Ends.value (h₁.append h₂)

end

/-! ## Statements -/

theorem issues_initialise (index : Nat) :
    Ends (initialise ctx index) s fun code s' => s.Issues ctx.program code s' := by
  unfold initialise
  split
  · exact Ends.refused
  · split
    · exact Ends.refused
    next v _ type _ =>
      refine (ends_sizeOf _ type).seq fun size s₁ h => ?_
      obtain ⟨rfl, -⟩ := h
      refine Ends.seq (P := fun records s' => s₁.Issues ctx.program records.flatten s')
        (issues_mapM fun r s => ?_) fun records s₂ h₂ => Ends.value (.append ?_ h₂)
      · refine (issues_intern ctx.program _ _).seq fun x s₂ h₂ => ?_
        refine Ends.value (h₂.1.then rfl ?_)
        simp [Piece.targets, Instruction.targets, Instruction.load, h₂.2, storeFrame,
          Instruction.store]
      · exact .idle _ _ (by split <;> split <;> rfl) (by split <;> split <;> rfl)

theorem issues_leave : s.Issues ctx.program (leave ctx) s := .idle _ _ rfl rfl

theorem issues_returnCode (value : Option Expr) :
    Ends (returnCode ctx value) s fun code s' => s.Issues ctx.program code s' := by
  cases value with
  | none => exact Ends.value issues_leave
  | some e =>
    unfold returnCode
    dsimp only
    split
    · exact Ends.refused
    · refine (ends_sizeOf _ _).seq fun k s₁ h => ?_
      obtain ⟨rfl, -⟩ := h
      refine (issues_load e s₁).seq fun code s₂ h₂ => ?_
      exact Ends.value ((h₂.append (.idle _ _ rfl rfl)).append issues_leave)

theorem issues_stepCode (place : Location) (type : TypeId) (step : Option Expr) :
    Ends (stepCode ctx place type step) s fun code s' => s.Issues ctx.program code s' := by
  cases step with
  | some e => exact issues_load e s
  | none => exact issues_literal place (.integral 1) type

theorem issues_countStart (counter start finish : Expr) (step : Option Expr) (temps : Temps) :
    Ends (countStart ctx counter start finish step temps) s fun code s' =>
      s.Issues ctx.program code s' := by
  unfold countStart
  refine (ends_typeOf counter).seq fun t s₁ h => ?_
  obtain ⟨rfl, -⟩ := h
  refine (ends_typed counter).seq fun r s₂ h => ?_
  obtain ⟨rfl, -⟩ := h
  refine (issues_load finish s₂).seq fun finishCode s₃ h₃ => ?_
  refine (issues_stepCode _ _ step).seq fun stepCode s₄ h₄ => ?_
  refine (issues_load start s₄).seq fun startCode s₅ h₅ => ?_
  refine (issues_store counter).seq fun storeCode s₆ h₆ => ?_
  exact Ends.value (((((h₃.append (.idle _ _ rfl rfl)).append h₄).append
    (.idle _ _ rfl rfl)).append h₅).append h₆)

theorem issues_countTest (counter : Expr) (temps : Temps) {exit : Label}
    (hexit : exit.number < s.labels.size) :
    Ends (countTest ctx counter temps exit) s fun code s' => s.Issues ctx.program code s' := by
  unfold countTest
  refine (ends_typed counter).seq fun r s₁ h => ?_
  obtain ⟨rfl, -⟩ := h
  refine (issues_load counter s₁).seq fun code s₂ h₂ => ?_
  refine Ends.value (((EmissionState.Issues.idle _ _ rfl rfl).append h₂).append
    (.to ctx.program rfl rfl (hexit.trans_le h₂.size_le)))

theorem issues_countNext (counter : Expr) (temps : Temps) :
    Ends (countNext ctx counter temps) s fun code s' => s.Issues ctx.program code s' := by
  unfold countNext
  refine (ends_typed counter).seq fun r s₁ h => ?_
  obtain ⟨rfl, -⟩ := h
  refine (issues_load counter s₁).seq fun code s₂ h₂ => ?_
  refine (issues_store counter).seq fun storeCode s₃ h₃ => ?_
  exact Ends.value ((((EmissionState.Issues.idle _ _ rfl rfl).append h₂).append
    (.idle _ _ rfl rfl)).append h₃)

mutual

theorem issues_stmt {ctx : EmissionContext} : (r : Stmt) → (s : EmissionState) →
    Ends (stmt ctx r) s fun code s' => s.Issues ctx.program code s'
  | .var l index (some value), s => by
    unfold stmt
    refine (ends_localSize l index).seq fun k s₁ h => ?_
    obtain ⟨rfl, -⟩ := h
    refine (issues_load value s₁).seq fun code s₂ h₂ => ?_
    exact Ends.value (h₂.append (.idle _ _ rfl rfl))
  | .var l index none, s => by
    unfold stmt
    exact issues_initialise index
  | .assign l value target, s => by
    unfold stmt
    refine (issues_load value s).seq fun code s₁ h₁ => ?_
    refine (issues_store target).seq fun code' s₂ h₂ => ?_
    exact Ends.value (h₁.append h₂)
  | .invoke l call, s => by
    unfold stmt
    refine (issues_load call s).seq fun code s₁ h₁ => ?_
    split
    · refine (ends_typed call).seq fun r s₂ h => ?_
      obtain ⟨rfl, -⟩ := h
      exact Ends.value (h₁.append (.idle _ _ rfl rfl))
    · exact Ends.value h₁
  | .return l value, s => by
    unfold stmt
    exact issues_returnCode value
  | .choose l branches, s => by
    unfold stmt
    refine issues_label.seq fun exit s₁ h₁ => ?_
    refine (issues_choices branches s₁ h₁.lt).seq fun code s₂ h₂ => ?_
    exact Ends.value (h₁.issues h₂ (List.perm_append_singleton _ _).symm)
  | .count l counter start finish step body temps, s => by
    unfold stmt
    refine (issues_countStart counter start finish step temps).seq fun before s₁ h₁ => ?_
    refine issues_label.seq fun head s₂ h₂ => ?_
    refine issues_label.seq fun exit s₃ h₃ => ?_
    refine (issues_countTest counter temps h₃.lt).seq fun test s₄ h₄ => ?_
    refine (issues_stmts body s₄).seq fun code s₅ h₅ => ?_
    refine (issues_countNext counter temps).seq fun next s₆ h₆ => ?_
    have hinner := (h₄.append h₅).append h₆
    have hjump : s₆.Issues ctx.program [.op (.jump head)] s₆ :=
      .to ctx.program rfl rfl ((h₂.lt_of_issued h₃).trans_le hinner.size_le)
    refine Ends.value ?_
    rw [List.append_assoc, List.append_assoc, List.append_assoc, List.append_assoc]
    refine h₁.append (h₂.loop h₃ (hinner.append hjump) fun x => ?_)
    simp only [List.count_append, List.count_cons, List.count_nil, beq_iff_eq, eq_comm (b := x)]
    omega
  | .loop l none body, s => by
    unfold stmt
    refine issues_label.seq fun head s₁ h₁ => ?_
    refine issues_label.seq fun exit s₂ h₂ => ?_
    refine (issues_stmts body s₂).seq fun code s₃ h₃ => ?_
    have hjump : s₃.Issues ctx.program [.op (.jump head)] s₃ :=
      .to ctx.program rfl rfl ((h₁.lt_of_issued h₂).trans_le h₃.size_le)
    refine Ends.value (h₁.loop h₂ (h₃.append hjump) fun x => ?_)
    simp only [List.count_append, List.count_cons, List.count_nil, beq_iff_eq, eq_comm (b := x)]
    omega
  | .loop l (some c) body, s => by
    unfold stmt
    refine issues_label.seq fun head s₁ h₁ => ?_
    refine issues_label.seq fun exit s₂ h₂ => ?_
    split
    · refine (issues_stmts body s₂).seq fun code s₃ h₃ => ?_
      refine (issues_load c.value s₃).seq fun test s₄ h₄ => ?_
      have hjump : s₄.Issues ctx.program [branchOn (!c.negative) head] s₄ :=
        .to ctx.program rfl rfl ((h₁.lt_of_issued h₂).trans_le (h₃.append h₄).size_le)
      refine Ends.value (h₁.loop h₂ ((h₃.append h₄).append hjump) fun x => ?_)
      simp only [List.count_append, List.count_cons, List.count_nil, beq_iff_eq, eq_comm (b := x)]
      omega
    · refine (issues_load c.value s₂).seq fun test s₃ h₃ => ?_
      refine (issues_stmts body s₃).seq fun code s₄ h₄ => ?_
      have hexit : s₃.Issues ctx.program [branchOn c.negative exit] s₃ :=
        .to ctx.program rfl rfl (h₂.lt.trans_le h₃.size_le)
      have hinner := (h₃.append hexit).append h₄
      have hjump : s₄.Issues ctx.program [.op (.jump head)] s₄ :=
        .to ctx.program rfl rfl ((h₁.lt_of_issued h₂).trans_le hinner.size_le)
      refine Ends.value (h₁.loop h₂ (hinner.append hjump) fun x => ?_)
      simp only [List.count_append, List.count_cons, List.count_nil, beq_iff_eq, eq_comm (b := x)]
      omega

theorem issues_stmts {ctx : EmissionContext} : (rs : List Stmt) → (s : EmissionState) →
    Ends (stmts ctx rs) s fun code s' => s.Issues ctx.program code s'
  | [], s => by
    unfold stmts
    exact Ends.value (.idle _ _ rfl rfl)
  | r :: rest, s => by
    unfold stmts
    refine (issues_stmt r s).seq fun code s₁ h₁ => ?_
    refine (issues_stmts rest s₁).seq fun code' s₂ h₂ => ?_
    exact Ends.value (h₁.append h₂)

theorem issues_choices {ctx : EmissionContext} {exit : Label} : (b : Branches) →
    (s : EmissionState) → exit.number < s.labels.size →
      Ends (choices ctx exit b) s fun code s' => s.Issues ctx.program code s'
  | .done, s, _ => by
    unfold choices
    exact Ends.value (.idle _ _ rfl rfl)
  | .otherwise body, s, _ => by
    unfold choices
    exact issues_stmts body s
  | .branch condition body rest, s, hexit => by
    unfold choices
    refine issues_label.seq fun next s₁ h₁ => ?_
    refine (issues_load condition s₁).seq fun test s₂ h₂ => ?_
    refine (issues_stmts body s₂).seq fun code s₃ h₃ => ?_
    have hle : s.labels.size ≤ s₃.labels.size := by
      have h₁ := h₁.size
      have h₂ := h₂.size_le
      have h₃ := h₃.size_le
      omega
    refine (issues_choices rest s₃ (hexit.trans_le hle)).seq fun others s₄ h₄ => ?_
    have hnext : s₂.Issues ctx.program [branchOn false next] s₂ :=
      .to ctx.program rfl rfl (h₁.lt.trans_le h₂.size_le)
    have hskip : s₃.Issues ctx.program (rest.skip exit) s₃ := by
      cases rest with
      | done => exact .idle _ _ rfl rfl
      | otherwise | branch => exact .to ctx.program rfl rfl (hexit.trans_le hle)
    refine Ends.value (h₁.issues ((((h₂.append hnext).append h₃).append hskip).append h₄) ?_)
    rw [List.append_assoc _ [Piece.mark next] others]
    exact List.perm_middle.symm

end

theorem issues_function :
    Ends (function ctx) s fun code s' => s.Issues ctx.program code s' := by
  unfold function
  refine (issues_mapM fun index s => issues_initialise index).seq fun first s₁ h₁ => ?_
  refine (issues_stmts _ s₁).seq fun code s₂ h₂ => ?_
  exact Ends.value ((((EmissionState.Issues.idle _ _ rfl rfl).append h₁).append h₂).append
    issues_leave)

/-! ## Modules -/

variable {m : Module} {n : Nat}

/-- The label of a function stands in front of its code. -/
theorem issues_functionUnit (hn : p.IsUser n) :
    Ends (functionUnit p m n) s fun u s' => ∃ code, u.code = .mark u.label :: code ∧
      s.Issues p code s' := by
  unfold functionUnit
  refine (issues_entry hn).seq fun l s₁ h₁ => ?_
  split
  · exact Ends.refused
  next f body _ =>
    refine issues_function.seq fun code s₂ h₂ => ?_
    refine (ends_resultSize _ _ _).seq fun size s₃ h₃ => ?_
    obtain ⟨rfl, -⟩ := h₃
    exact Ends.value ⟨code, rfl, h₁.1.append h₂⟩

/-- The code of functions without the labels in front of it. -/
def inner (units : List Done) : List Piece := units.flatMap (·.code.tail)

theorem issues_functionUnits (bound : Nat) : (s : EmissionState) → (done : List Nat) →
    s.Counted done → (∀ e ∈ s.entries, p.Callable m e.1) → (∀ e ∈ s.entries, p.IsUser e.1) →
      Ends (functionUnits p m bound) s fun units s' => s.Issues p (inner units) s' ∧
        ∀ u ∈ units, u.code = .mark u.label :: u.code.tail := by
  induction bound with
  | zero =>
    intro s done _ _ _
    exact Ends.value ⟨.idle p s rfl rfl, by simp⟩
  | succ bound ih =>
    intro s done hs hcallable husers
    unfold functionUnits
    refine Ends.reads ?_
    split
    next => exact Ends.value ⟨.idle p s rfl rfl, by simp⟩
    next number rest hq =>
      obtain ⟨e, he, rfl⟩ : ∃ e ∈ s.entries, e.1 = number :=
        List.mem_map.1 (hs.perm.symm.subset (by simp [hq]))
      refine Ends.seq (Ends.modifies (Q := fun _ s' => s' = { s with queue := rest }) rfl) ?_
      rintro - s₁ rfl
      refine ((ends_functionUnit (hcallable e he)).both (issues_functionUnit (husers e he))).seq
        fun u s₂ h₂ => ?_
      obtain ⟨⟨hg, -, -⟩, code, hu, h₂⟩ := h₂
      refine (ih s₂ _ (hg.counted _ (hs.popped hq)) (fun e he => (hg.new e he).elim (hcallable e) id)
        fun e he => (h₂.users e he).elim (husers e) id).seq fun units s₃ h₃ => ?_
      have htail : code = u.code.tail := by rw [hu, List.tail_cons]
      refine Ends.value ⟨?_, fun v hv => ?_⟩
      · have h := h₂.append h₃.1
        rw [htail] at h
        exact ⟨h.blank, h.size_le, h.balance, h.targets, h.users⟩
      · obtain rfl | hv := List.mem_cons.1 hv
        · rw [← htail]
          exact hu
        · exact h₃.2 v hv

theorem issues_bootstrap : Ends (bootstrap p m) s fun start s' => s.Issues p start s' := by
  unfold bootstrap
  split
  next => exact Ends.value (.idle p s rfl rfl)
  next number f hmain =>
    obtain ⟨-, hf, huser⟩ := main?_eq_some hmain
    obtain ⟨body, hbody⟩ := Option.isSome_iff_exists.1 huser
    refine (issues_resultRoom p _ _ _).seq fun room s₁ h₁ => ?_
    refine (issues_entry ⟨f, body, hf, hbody⟩).seq fun l s₂ h₂ => ?_
    refine Ends.value (h₁.append ⟨h₂.1.blank, h₂.1.size_le, h₂.1.balance, fun hs k hk => ?_,
      h₂.1.users⟩)
    obtain rfl : k = l := by
      simpa [Piece.targets, Instruction.targets, Instruction.call, Instruction.finish,
        Instruction.plain] using hk
    exact (h₂.1.covered hs).lt h₂.2

theorem issues_owned : Ends (m.functions.forM fun number => do
    if ((p.functions[number]?).map Function.isUser).getD false then
      let _ ← entry number) s fun _ s' => s.Issues p [] s' := by
  refine Ends.each (I := fun s' => s.Issues p [] s') (fun n _ s₁ h₁ => ?_) (.idle p s rfl rfl)
  split
  next huser =>
    exact (issues_entry (Program.isUser_iff.1 huser)).seq fun _ s₂ h₂ => Ends.value (h₁.append h₂.1)
  next => exact Ends.value h₁

theorem issues_module : Ends (module p m) ⟨.empty, m.static, [], []⟩ fun r z =>
    EmissionState.Issues p ⟨.empty, m.static, [], []⟩ (r.1 ++ inner r.2) z ∧
      ∀ u ∈ r.2, u.code = .mark u.label :: u.code.tail := by
  unfold module
  refine ((ends_bootstrap p m).both issues_bootstrap).seq fun start s₁ h₁ => ?_
  refine (ends_owned.both issues_owned).seq fun _ s₂ h₂ => ?_
  have hg := h₁.1.1.trans h₂.1.1
  have hi := h₁.2.append h₂.2
  rw [List.append_nil] at hi
  refine (issues_functionUnits p.functions.size s₂ [] (hg.counted [] ⟨.refl _, List.nodup_nil⟩)
    (fun e he => (hg.new e he).elim (fun h => by cases h) id)
    (fun e he => (hi.users e he).elim (fun h => by cases h) id)).seq fun units z h₃ => ?_
  exact Ends.value ⟨hi.append h₃.1, h₃.2⟩

end Emission

/-! ## Assembly -/

/-- **Every label is marked exactly once**, and none has an address yet; what is referred to is
one of the labels. -/
structure Code.Labels.Marked (labels : Labels) (pieces : List Piece) : Prop where
  blank : ∀ a ∈ labels.addresses, a = none
  once : ∀ l, (Piece.marks pieces).count l = if l.number < labels.size then 1 else 0
  targets : ∀ l ∈ Piece.targets pieces, l.number < labels.size

/-- With their labels in front, functions mark these besides what their code marks. -/
theorem Emission.count_marks_units {units : List Done}
    (h : ∀ u ∈ units, u.code = .mark u.label :: u.code.tail) (l : Label) :
    (Piece.marks (units.flatMap (·.code))).count l =
      (Piece.marks (inner units)).count l + (units.map (·.label)).count l := by
  induction units with
  | nil => rfl
  | cons u units ih =>
    have hu := h u List.mem_cons_self
    have ih := ih fun v hv => h v (List.mem_cons_of_mem _ hv)
    unfold inner at ih ⊢
    simp only [List.flatMap_cons, List.map_cons, Piece.marks_append, List.count_append,
      List.count_cons, ih]
    rw [hu, List.tail_cons, Piece.marks, List.count_cons]
    omega

theorem Emission.mem_targets_units {units : List Done}
    (h : ∀ u ∈ units, u.code = .mark u.label :: u.code.tail) {l : Label}
    (hl : l ∈ Piece.targets (units.flatMap (·.code))) : l ∈ Piece.targets (inner units) := by
  obtain ⟨i, hi, hli⟩ := Piece.mem_targets.1 hl
  obtain ⟨u, hu, hiu⟩ := List.mem_flatMap.1 hi
  rw [h u hu] at hiu
  refine Piece.mem_targets.2 ⟨i, List.mem_flatMap.2 ⟨u, hu, ?_⟩, hli⟩
  simpa using hiu

/-- **Every label of a module is marked exactly once.** -/
theorem Emission.marked_module {p : Program} {m : Module} (hstatic : m.static.Sound) :
    Ends (module p m) ⟨.empty, m.static, [], []⟩ fun r z =>
      z.labels.Marked (r.1 ++ r.2.flatMap (·.code)) := by
  refine ((ends_module hstatic).both issues_module).mono fun r z h => ?_
  obtain ⟨hcode, hissues, hunits⟩ := h
  have hcovered : EmissionState.Covered ⟨.empty, m.static, [], []⟩ := fun l => Nat.zero_le _
  refine ⟨hissues.blank fun a ha => (by simp [Labels.empty] at ha), fun l => ?_, fun l hl => ?_⟩
  · have hb := hissues.balance l
    have howed : z.owed l = (r.2.map (·.label)).count l := by
      rw [EmissionState.owed, ← (hcode.entries.map Prod.snd).count_eq, List.map_map]
      rfl
    rw [Piece.marks_append, List.count_append, count_marks_units hunits]
    rw [Piece.marks_append, List.count_append, howed] at hb
    simp only [EmissionState.held, EmissionState.owed, Labels.size, Labels.empty, List.map_nil,
      List.count_nil, Array.size_empty, Nat.not_lt_zero, if_false] at hb ⊢
    omega
  · rw [Piece.targets_append, List.mem_append] at hl
    refine hissues.targets hcovered l ?_
    rw [Piece.targets_append, List.mem_append]
    exact hl.imp_right (mem_targets_units hunits)

/-- A label without an address gets one, and the others stay as they are. -/
theorem Labels.exists_bind {ls : Labels} {l : Label} (h : ls.addresses[l.number]? = some none)
    (address : Int32) : ∃ ls', ls.bind l address = .ok ls' ∧ ls'.size = ls.size ∧
      ∀ k : Label, k ≠ l → ls'.addresses[k.number]? = ls.addresses[k.number]? := by
  refine ⟨⟨ls.addresses.setIfInBounds l.number (some address)⟩, by rw [Labels.bind, h],
    Array.size_setIfInBounds, fun k hk => ?_⟩
  refine Array.getElem?_setIfInBounds_ne fun hn => hk ?_
  cases k
  cases l
  cases hn
  rfl

/-- Code whose labels are there, without addresses and marked once, can be assembled. -/
theorem exists_assembleFrom {pieces : List Piece} {ls : Labels} {a : Nat}
    (hnodup : (Piece.marks pieces).Nodup)
    (hnone : ∀ l ∈ Piece.marks pieces, ls.addresses[l.number]? = some none) :
    ∃ code ls', assembleFrom ls a pieces = .ok (code, ls') ∧ ls'.size = ls.size ∧
      (∀ l ∈ Piece.marks pieces, (ls'.address? l).isSome = true) ∧ ∀ i ∈ code, .op i ∈ pieces := by
  induction pieces generalizing ls a with
  | nil => exact ⟨[], ls, rfl, rfl, by simp [Piece.marks], by simp⟩
  | cons x rest ih =>
    cases x with
    | op i =>
      obtain ⟨code, ls', hok, hsize, hbound, hops⟩ := ih (a := a + recordSize) hnodup hnone
      refine ⟨i :: code, ls', ?_, hsize, hbound, fun j hj => ?_⟩
      · rw [assembleFrom, hok]
        rfl
      · obtain rfl | hj := List.mem_cons.1 hj
        · exact List.mem_cons_self
        · exact List.mem_cons_of_mem _ (hops j hj)
    | mark l =>
      obtain ⟨hl, hnodup⟩ := List.nodup_cons.1 hnodup
      obtain ⟨ls₁, hbind, hsize₁, hothers⟩ :=
        Labels.exists_bind (hnone l List.mem_cons_self) (Int32.ofNat a)
      obtain ⟨code, ls', hok, hsize, hbound, hops⟩ := @ih ls₁ a hnodup fun k hk => by
        rw [hothers k fun hkl => hl (hkl ▸ hk)]
        exact hnone k (List.mem_cons_of_mem _ hk)
      refine ⟨code, ls', ?_, hsize.trans hsize₁, fun k hk => ?_,
        fun j hj => List.mem_cons_of_mem _ (hops j hj)⟩
      · rw [assembleFrom, hbind]
        exact hok
      · obtain rfl | hk := List.mem_cons.1 hk
        · rw [address?_of_assembleFrom hok (Labels.address?_bind hbind).1, Option.isSome_some]
        · exact hbound k hk

namespace Code.Labels.Marked

variable {labels : Labels} {pieces : List Piece}

theorem mem_marks (h : labels.Marked pieces) {l : Label} (hl : l.number < labels.size) :
    l ∈ Piece.marks pieces := by
  rw [← List.count_pos_iff, h.once, if_pos hl]
  exact Nat.one_pos

theorem unbound (h : labels.Marked pieces) {l : Label} (hl : l ∈ Piece.marks pieces) :
    labels.addresses[l.number]? = some none := by
  have hlt : l.number < labels.addresses.size := by
    by_contra hge
    have honce := h.once l
    rw [Labels.size, if_neg hge] at honce
    exact Nat.lt_irrefl 0 (honce ▸ List.count_pos_iff.2 hl)
  rw [Array.getElem?_eq_getElem hlt, h.blank _ (Array.getElem_mem hlt)]

/-- **Code in which every label is marked once is assembled**, and all labels get addresses. -/
theorem assemble (h : labels.Marked pieces) : ∃ code ls, assemble labels pieces = .ok (code, ls) ∧
    (∀ l : Label, l.number < ls.size → (ls.address? l).isSome = true) ∧
      ∀ i ∈ code, ∀ l ∈ i.targets, (ls.address? l).isSome = true := by
  have hnodup : (Piece.marks pieces).Nodup := by
    refine List.nodup_iff_count_le_one.2 fun l => ?_
    rw [h.once]
    split <;> omega
  obtain ⟨code, ls, hok, hsize, hbound, hops⟩ :=
    exists_assembleFrom (a := 0) hnodup fun l => h.unbound
  refine ⟨code, ls, hok, fun l hl => hbound l (h.mem_marks (hsize ▸ hl)), fun i hi l hl => ?_⟩
  exact hbound l (h.mem_marks (h.targets l (Piece.mem_targets.2 ⟨i, hops i hi, hl⟩)))

end Code.Labels.Marked

namespace Code.Link

variable {l : Link}

theorem exists_resolve {x : Operand}
    (h : ∀ label, x.label? = some label → (l.labels.address? label).isSome = true) :
    ∃ n, l.resolve x = .ok n := by
  cases x with
  | value | static | dynamic => exact ⟨_, rfl⟩
  | label label =>
    obtain ⟨a, ha⟩ := Option.isSome_iff_exists.1 (h label rfl)
    exact ⟨a, by rw [resolve, ha]⟩

/-- **Code can be linked once all labels have addresses.** -/
theorem exists_link {code : List Instruction}
    (hbound : ∀ label : Label, label.number < l.labels.size →
      (l.labels.address? label).isSome = true)
    (htargets : ∀ i ∈ code, ∀ label ∈ i.targets, (l.labels.address? label).isSome = true) :
    ∃ bytes, l.link code = .ok bytes := by
  have hopen : l.labels.addresses.findIdx? Option.isNone = none := by
    refine Array.findIdx?_eq_none_iff.2 fun a ha => ?_
    obtain ⟨k, hk, rfl⟩ := Array.mem_iff_getElem.1 ha
    have h := hbound ⟨k⟩ hk
    rw [Labels.address?, Array.getElem?_eq_getElem hk] at h
    simpa using h
  have hrecords : ∃ records, l.records code = .ok records := by
    induction code with
    | nil => exact ⟨[], rfl⟩
    | cons i code ih =>
      obtain ⟨records, hrecords⟩ := ih fun j hj => htargets j (List.mem_cons_of_mem _ hj)
      have hi := htargets i List.mem_cons_self
      obtain ⟨x0, h0⟩ := exists_resolve (l := l) (x := i.x0) fun label h =>
        hi label (by simp [Instruction.targets, h])
      obtain ⟨x1, h1⟩ := exists_resolve (l := l) (x := i.x1) fun label h =>
        hi label (by simp [Instruction.targets, h])
      obtain ⟨x2, h2⟩ := exists_resolve (l := l) (x := i.x2) fun label h =>
        hi label (by simp [Instruction.targets, h])
      have hresolve : i.resolve l.resolve = .ok ⟨i.opcode.code, i.p0, i.p1, 0, x0, x1, x2⟩ := by
        rw [Instruction.resolve, h0, h1, h2]
        rfl
      exact ⟨_, Checked.mapM_eq_ok.2 (.cons hresolve (Checked.mapM_eq_ok.1 hrecords))⟩
  obtain ⟨records, hrecords⟩ := hrecords
  refine ⟨records.flatMap Record.encode, ?_⟩
  rw [link, hopen, hrecords]
  rfl

end Code.Link

end ChannelBasic
