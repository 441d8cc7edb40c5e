import ChannelBasic.Proofs.Typing.Statements

/-!
# Proofs/Typing/Variables — variables get types

A variable that a statement declares has a type of its own, which must have a size, or takes the
type of its first value; a variable that is assigned to without being declared takes the type of
the value.  **After the statements are checked, each of these variables has a type**
(`declared_stmts`), and the types that were declared have shapes.
-/

namespace ChannelBasic

/-- The variable that an expression names. -/
def Expr.localVar? : Expr → Option Nat
  | .name _ _ (some (.localVar index)) => some index
  | _ => none

mutual

/-- The variables that a statement gives a type to, if they have none. -/
def Stmt.given : Stmt → List Nat
  | .var _ index _ => [index]
  | .assign _ _ target => target.localVar?.toList
  | .choose _ branches => branches.given
  | .count _ counter _ _ _ body _ => counter.localVar?.toList ++ Stmt.givenAll body
  | .loop _ _ body => Stmt.givenAll body
  | .invoke _ _ | .return _ _ => []

/-- The variables that some statements give types to. -/
def Stmt.givenAll : List Stmt → List Nat
  | [] => []
  | s :: rest => s.given ++ Stmt.givenAll rest

/-- The variables that branches give types to. -/
def Branches.given : Branches → List Nat
  | .done => []
  | .otherwise body => Stmt.givenAll body
  | .branch _ body rest => Stmt.givenAll body ++ rest.given

end

mutual

theorem Stmt.given_of_variables {i : Nat} : (s : Stmt) → i ∈ s.variables → i ∈ s.given
  | .var .., h => h
  | .choose _ branches, h => Branches.given_of_variables branches h
  | .count _ _ _ _ _ body _, h => List.mem_append_right _ (Stmt.givenAll_of_variables body h)
  | .loop _ _ body, h => Stmt.givenAll_of_variables body h

/-- A variable that is declared is given a type. -/
theorem Stmt.givenAll_of_variables {i : Nat} :
    (l : List Stmt) → i ∈ Stmt.variablesAll l → i ∈ Stmt.givenAll l
  | s :: rest, h => List.mem_append.2 <| (List.mem_append.1 h).imp
      (Stmt.given_of_variables s) (Stmt.givenAll_of_variables rest)

theorem Branches.given_of_variables {i : Nat} :
    (b : Branches) → i ∈ b.variables → i ∈ b.given
  | .otherwise body, h => Stmt.givenAll_of_variables body h
  | .branch _ body rest, h => List.mem_append.2 <| (List.mem_append.1 h).imp
      (Stmt.givenAll_of_variables body) (Branches.given_of_variables rest)

end

/-- New entries do not make a type abstract, or concrete. -/
theorem TypeTable.Closed.isAbstract_eq {t t' : TypeTable} {id : TypeId} (h : t.Closed id)
    (hA : t.Appends t') : t'.isAbstract id = t.isAbstract id := by
  have hget := hA.get id h.1
  have hbase : t'.base id = t.base id := by
    unfold base
    rw [hget]
  have hentry : t'.baseEntry id = t.baseEntry id := by
    unfold baseEntry
    rw [hbase]
    unfold base
    split
    next b hb => exact hA.get b (h.2 b hb)
    next => exact hget
  unfold isAbstract
  rw [hentry]

/-- A type that is not abstract has a shape, also if it is CONST. -/
theorem TypeTable.Flat.shape?_of_isAbstract {t : TypeTable} {id : TypeId} (h : t.Flat)
    (ha : t.isAbstract id = false) : ∃ σ, t.shape? id = some σ := by
  by_cases hc : t.isConstant id = true
  · obtain ⟨b, hb⟩ : ∃ b, t.get id = .constant b := by
      unfold isConstant at hc
      split at hc
      next b hb => exact ⟨b, hb⟩
      next => cases hc
    have hbase : t.base id = b := by rw [base, hb]
    have hconst := (h.constant id b hb).2
    rw [← h.shape?_base, hbase]
    refine TypeTable.shape?_of_isAbstract hconst ?_
    rwa [isAbstract, baseEntry, hbase, ← base_of_isConstant hconst] at ha
  · exact TypeTable.shape?_of_isAbstract (Bool.eq_false_iff.2 hc) ha

/-- What checking does to variables: those declared with a type had a concrete one, and those given
a type have one. -/
structure Declares (s s' : CheckState) (declared given : List Nat) : Prop where
  advances : Advances s s'
  concrete : ∀ i ∈ declared, ∀ t, s.localType i = some t → s.types.Closed t →
    s.types.isAbstract t = false
  typed : ∀ i ∈ given, i < s.locals.size → ∃ t, s'.localType i = some t

variable {s s₁ s₂ : CheckState}

theorem Advances.declares (h : Advances s s₁) : Declares s s₁ [] [] :=
  ⟨h, by simp, by simp⟩

theorem Declares.trans (hs : s.Settled) {a b c d : List Nat} (h : Declares s s₁ a c)
    (h' : Declares s₁ s₂ b d) : Declares s s₂ (a ++ b) (c ++ d) where
  advances := Advances.passage.trans h.advances h'.advances
  concrete i hi t ht hclosed := by
    obtain hi | hi := List.mem_append.1 hi
    · exact h.concrete i hi t ht hclosed
    · rw [← hclosed.isAbstract_eq (h.advances.settled hs)]
      exact h'.concrete i hi t (h.advances.locals i t ht) (hclosed.extends h.advances.types)
  typed i hi hlt := by
    obtain hi | hi := List.mem_append.1 hi
    · obtain ⟨t, ht⟩ := h.typed i hi hlt
      exact ⟨t, h'.advances.locals i t ht⟩
    · exact h'.typed i hi (h.advances.width ▸ hlt)

namespace Checking

variable {sigs : Signatures} {constantType : ConstantType} {returns : Option TypeId}

/-- A variable that is assigned to has a type afterwards. -/
theorem declares_infer (target : Expr) (actual : TypeId) :
    Ends (infer target actual) s fun _ s' => Declares s s' [] target.localVar?.toList := by
  refine ((keeps_infer s).both ?_).mono fun _ s' h => ⟨h.1, by simp, h.2⟩
  unfold infer
  split
  next i name index =>
    refine Ends.modifies fun i hi hlt => ?_
    obtain rfl : i = index := by simpa [Expr.localVar?] using hi
    cases ht : s.locals[i].type with
    | none => exact ⟨s.types.base actual, by
      simp [CheckState.localType, Array.getElem_modify_self, hlt, ht]⟩
    | some t => exact ⟨t, by
      simp [CheckState.localType, Array.getElem_modify_self, hlt, ht]⟩
  next hne =>
    refine Ends.value fun i hi _ => ?_
    unfold Expr.localVar? at hi
    split at hi
    · exact absurd rfl (hne _ _ _)
    · cases hi

theorem declares_var (hc : ∀ k, Keeps Moves (constantType k)) (place : Location) (index : Nat)
    (first : Option Expr) : Ends (var sigs constantType place index first) s fun _ s' =>
      Declares s s' [index] [index] := by
  refine ((keeps_var hc s).both (Q := fun _ s' =>
    (∀ t, s.localType index = some t → s.types.isAbstract t = false) ∧
      (index < s.locals.size → ∃ t, s'.localType index = some t)) ?_).mono fun _ s' h =>
        ⟨h.1, fun i hi t ht _ => ?_, fun i hi hlt => ?_⟩
  · unfold var
    refine Ends.reads ?_
    split
    · exact Ends.refused
    next v hv =>
      split
      next first t hvt =>
        have htype : s.localType index = some t := by simp [CheckState.localType, hv, hvt]
        dsimp only
        split
        · exact Ends.refused_seq
        next ha =>
          have hdone {s' : CheckState} (h : Moves s s') :
              (∀ t, s.localType index = some t → s.types.isAbstract t = false) ∧
                (index < s.locals.size → ∃ t, s'.localType index = some t) := by
            refine ⟨fun t' ht' => ?_, fun _ => ⟨t, h.advances.locals index t htype⟩⟩
            obtain rfl := Option.some.inj (htype.symm.trans ht')
            simpa using ha
          split
          · exact (keeps_assigned hc s).seq fun _ s₁ h₁ => Ends.value (hdone h₁)
          · exact Ends.value (hdone (Moves.passage.refl s))
      next e hvt =>
        have hnone : s.localType index = none := by simp [CheckState.localType, hv, hvt]
        refine (keeps_value hc e s).seq fun r s₁ h₁ => Ends.reads ?_
        refine Ends.seq (Ends.modifies (Q := fun _ s' => _ ∧ (_ → _)) ⟨by simp [hnone], fun hlt => ?_⟩)
          fun _ s₂ h₂ => Ends.value h₂
        exact ⟨s₁.types.base r.2, by
          simp [CheckState.localType, Array.getElem_modify_self, h₁.locals, hlt]⟩
      next => exact Ends.refused
  · obtain rfl := List.mem_singleton.1 hi
    exact h.2.1 t ht
  · obtain rfl := List.mem_singleton.1 hi
    exact h.2.2 hlt

mutual

theorem declares_stmt (hc : ∀ k, Keeps Moves (constantType k)) : (t : Stmt) → (s : CheckState) →
    s.Settled → Ends (stmt sigs constantType returns t) s fun _ s' =>
      Declares s s' t.variables t.given
  | .var l index first, s, hs => by
    unfold stmt
    exact (declares_var hc l index first).seq fun _ s₁ h₁ => Ends.value h₁
  | .assign l first place, s, hs => by
    unfold stmt
    refine (keeps_value hc first s).seq fun r s₁ h₁ => ?_
    refine (declares_infer place r.2).seq fun _ s₂ h₂ => ?_
    refine (keeps_target hc place s₂).seq fun r' s₃ h₃ => ?_
    refine (keeps_coerce s₃).seq fun e s₄ h₄ => Ends.value ?_
    have hs₁ := hs.grows h₁.toGrows
    have h := h₁.advances.declares.trans hs (h₂.trans hs₁
      (Advances.passage.trans h₃.advances h₄.moves.advances).declares)
    simpa only [List.nil_append, List.append_nil, Stmt.variables, Stmt.given] using h
  | .invoke l call, s, hs => by
    unfold stmt
    exact (keeps_expr hc call s).seq fun _ s₁ h₁ => Ends.value h₁.advances.declares
  | .return l result, s, hs => by
    exact (keeps_stmt hc (.return l result) s).mono fun _ _ h => h.declares
  | .choose l branches, s, hs => by
    unfold stmt
    exact (declares_choices hc branches s hs).seq fun _ s₁ h₁ => Ends.value h₁
  | .count l counter start finish step body temps, s, hs => by
    unfold stmt
    refine (keeps_value hc start s).seq fun r s₁ h₁ => ?_
    refine (declares_infer counter r.2).seq fun _ s₂ h₂ => ?_
    refine (keeps_target hc counter s₂).seq fun r' s₃ h₃ => ?_
    refine Ends.reads ?_
    dsimp only
    split
    · refine (keeps_coerce s₃).seq fun a s₄ h₄ => ?_
      refine (keeps_assigned hc s₄).seq fun b s₅ h₅ => ?_
      have h₅ := Moves.passage.trans (Moves.passage.trans h₃ h₄.moves) h₅
      have hs₂ := (hs.grows h₁.toGrows).grows h₂.advances.toGrows
      -- the counter has its type, and the body is checked last
      have rest (s₆ : CheckState) (h₆ : Moves s₂ s₆) (step' : Option Expr) :
          Ends (do return Stmt.count l r'.1 a b step' (← stmts sigs constantType returns body) temps)
            s₆ fun _ s' => Declares s s' (Stmt.variablesAll body)
              (counter.localVar?.toList ++ Stmt.givenAll body) :=
        (declares_stmts hc body s₆ (hs₂.grows h₆.toGrows)).seq fun _ s₇ h₇ => Ends.value (by
          have h := h₁.advances.declares.trans hs (h₂.trans (hs.grows h₁.toGrows)
            (h₆.advances.declares.trans hs₂ h₇))
          simpa only [List.nil_append] using h)
      cases step with
      | none => exact Ends.value_seq (rest s₅ h₅ none)
      | some e =>
        refine (keeps_assigned hc s₅).seq fun c s₆ h₆ => Ends.value_seq ?_
        exact rest s₆ (Moves.passage.trans h₅ h₆) (some c)
    · exact Ends.refused_seq
  | .loop l none body, s, hs => by
    unfold stmt
    exact (declares_stmts hc body s hs).seq fun _ s₁ h₁ => Ends.value h₁
  | .loop l (some c) body, s, hs => by
    unfold stmt
    refine (keeps_condition hc c.value s).seq fun _ s₁ h₁ => Ends.value_seq ?_
    exact (declares_stmts hc body s₁ (hs.grows h₁.toGrows)).seq fun _ s₂ h₂ =>
      Ends.value (h₁.advances.declares.trans hs h₂)

/-- **After statements are checked, the variables that they give types to have types**, and those
that they declare had concrete ones, if any. -/
theorem declares_stmts (hc : ∀ k, Keeps Moves (constantType k)) : (l : List Stmt) →
    (s : CheckState) → s.Settled → Ends (stmts sigs constantType returns l) s fun _ s' =>
      Declares s s' (Stmt.variablesAll l) (Stmt.givenAll l)
  | [], s, hs => by
    unfold stmts
    exact Ends.value (Advances.passage.refl s).declares
  | t :: rest, s, hs => by
    unfold stmts
    refine (declares_stmt hc t s hs).seq fun _ s₁ h₁ => ?_
    exact (declares_stmts hc rest s₁ (hs.grows h₁.advances.toGrows)).seq fun _ s₂ h₂ =>
      Ends.value (h₁.trans hs h₂)

theorem declares_choices (hc : ∀ k, Keeps Moves (constantType k)) : (b : Branches) →
    (s : CheckState) → s.Settled → Ends (choices sigs constantType returns b) s fun _ s' =>
      Declares s s' b.variables b.given
  | .done, s, hs => by
    unfold choices
    exact Ends.value (Advances.passage.refl s).declares
  | .otherwise body, s, hs => by
    unfold choices
    exact (declares_stmts hc body s hs).seq fun _ s₁ h₁ => Ends.value h₁
  | .branch test body rest, s, hs => by
    unfold choices
    refine (keeps_condition hc test s).seq fun _ s₁ h₁ => ?_
    have hs₁ := hs.grows h₁.toGrows
    refine (declares_stmts hc body s₁ hs₁).seq fun _ s₂ h₂ => ?_
    exact (declares_choices hc rest s₂ (hs₁.grows h₂.advances.toGrows)).seq fun _ s₃ h₃ =>
      Ends.value (h₁.advances.declares.trans hs (h₂.trans hs₁ h₃))

end

end Checking

end ChannelBasic
