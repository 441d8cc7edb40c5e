import ChannelBasic.Proofs.Typing.Statements

/-!
# Proofs/Typing/Definitions — constants have values of their types

A constant is checked like any expression, so **its value fits its type** once it has one
(`finds_constantWithin`).  The induction is on how many checks may still be nested.
-/

namespace ChannelBasic

variable {s s' : CheckState} {lengths : Array Expr}

theorem CheckState.Sound.opening (hs : s.Sound lengths) (constants lengths' : List Nat) :
    ({ s with openConstants := constants, openLengths := lengths' } : CheckState).Sound lengths :=
  ⟨hs.builtin, hs.flat, hs.constants, hs.values, hs.folds, hs.locals, hs.ready, hs.unfolded,
    hs.lengths⟩

namespace Checking

theorem known_noSignatures (t : TypeTable) : noSignatures.Known t :=
  ⟨by simp [noSignatures], by simp [noSignatures], by simp [noSignatures],
    by simp [noSignatures], by simp [noSignatures]⟩

theorem Resolves.env {sigs : Signatures} {visible : Nat → Bool} (h : Resolves s s') :
    (s.env sigs visible).Extends (s'.env sigs visible) where
  types := h.types
  constant _ _ hv := h.constantValue hv
  declared d t ht := by
    cases d with
    | localVar i =>
      change s'.localType i = some t
      rw [CheckState.localType, h.locals]
      exact ht
    | _ => exact ht
  member _ _ h := h
  function _ _ h := h

variable {constantType : ConstantType}

theorem ends_resolveLength (hc : ∀ k, Keeps Moves (constantType k))
    (hf : Finds lengths constantType) (hs : s.Sound lengths) (id : TypeId) :
    Ends (resolveLength lengths constantType id) s fun _ s' => s'.Sound lengths := by
  unfold resolveLength
  refine Ends.reads ?_
  split
  next index hid =>
    split
    · exact Ends.value hs
    next length hlength =>
      refine Ends.reads ?_
      dsimp only
      split
      · exact Ends.refused_seq
      next hopen =>
        refine Ends.seq (Ends.modifies (Q := fun _ s₁ =>
          s₁ = { s with openLengths := index :: s.openLengths }) rfl) fun _ s₁ h₁ => ?_
        subst h₁
        have hs₁ := hs.opening s.openConstants (index :: s.openLengths)
        refine ((ends_value hf hs₁ (known_noSignatures _) (hs.lengths index length hlength)).both
          (resolves_of_moves (keeps_value hc _) _)).seq fun r s₂ h₂ => ?_
        obtain ⟨⟨hs₂, -⟩, hr₂⟩ := h₂
        refine ((Ends.reads (Ends.value (Q := fun _ s' => s' = s₂) rfl))).seq fun v s₃ h₃ => ?_
        subst h₃
        refine Ends.seq (Ends.lifts (Q := fun _ s => s = s₃) fun _ _ => rfl) fun c s₄ h₄ => ?_
        subst h₄
        have hpending : s₄.types.get id = .pending index := hr₂.pending id index hid (by simp)
        have hu : (s₄.types.get id).isUnresolved = true := by rw [hpending]; rfl
        have hnew := hs₂.retype (TypeTable.extends_resolve (d := .string (some c)) hu (by simp))
          (hs₂.flat.resolve hu (by simp) (by simp))
        exact Ends.modifies (hnew.opening s₄.openConstants (s₄.openLengths.erase index))
  · exact Ends.value hs

theorem ends_resolveWithin (hc : ∀ k, Keeps Moves (constantType k))
    (hf : Finds lengths constantType) (bound : Nat) (hs : s.Sound lengths) (id : TypeId) :
    Ends (resolveWithin lengths constantType bound id) s fun _ s' => s'.Sound lengths := by
  induction bound generalizing id with
  | zero => exact Ends.value hs
  | succ bound ih =>
    unfold resolveWithin
    refine Ends.reads ?_
    split
    · exact ends_resolveLength hc hf hs _
    · exact ih _
    · exact ih _
    · exact Ends.value hs

/-- The value of a constant has the shape of the constant's type. -/
theorem ends_declaredValue {sigs : Signatures} {visible : Nat → Bool}
    (hc : ∀ k, Keeps Moves (constantType k)) (hf : Finds lengths constantType)
    (hs : s.Sound lengths) {e : Expr} {actual : TypeId} (he : e.Typed (s.env sigs visible))
    (ht : e.type? = some actual) (declared : Option TypeId) :
    Ends (declaredValue lengths constantType declared e actual) s fun r s' => s'.Sound lengths ∧
      r.1.Typed (s'.env sigs visible) ∧ ∃ σ, s'.types.shape? r.2 = some σ ∧
        (s'.env sigs visible).shape r.1.info = some σ := by
  obtain ⟨σ, hσ⟩ := he.exists_shape ht
  have heσ : (s.env sigs visible).shape e.info = some σ := Env.shape_eq_some.2 ⟨_, ht, hσ⟩
  unfold declaredValue
  split
  · exact Ends.reads (Ends.value ⟨hs, he, σ, TypeTable.shape?_base hσ, heσ⟩)
  next declared =>
    refine Ends.seq (Ends.reads ((ends_resolveWithin hc hf _ hs declared).both
      (keeps_resolveWithin hc _ _ s))) fun _ s₁ h₁ => ?_
    obtain ⟨hs₁, hr⟩ := h₁
    refine Ends.reads ?_
    dsimp only
    split
    · exact Ends.value ⟨hs₁, he.extends hr.env, σ, TypeTable.shape?_base (hr.types.shape? hσ),
        hr.env.shape heσ⟩
    · refine (ends_coerce hs₁ (he.extends hr.env)).seq fun e' s₂ h₂ => ?_
      obtain ⟨rfl, he', hshape⟩ := h₂
      exact Ends.value ⟨hs₁, he', hshape⟩

/-- What is known without variables is what is known about types and constants. -/
theorem env_extends_constantEnv (h : s.locals.size = 0) :
    (s.env noSignatures fun _ => false).Extends s.constantEnv where
  types := .refl _
  constant _ _ h := h
  declared d t ht := by
    cases d with
    | localVar i =>
      have hnone : s.locals[i]? = none := by simp [h]
      simp [CheckState.env, CheckState.localType, hnone] at ht
    | _ => simp [CheckState.env, noSignatures] at ht
  member _ _ h := by simp [CheckState.env, noSignatures] at h
  function _ _ h := by simp [CheckState.env] at h

/-- A constant that gets a value which fits its type leaves what is known in order. -/
theorem sound_set (hs : s.Sound lengths) (hlocals : s.locals.size = 0) {k : Nat}
    {c c' : Constant} {t : TypeId} {σ : Shape} {v : Literal} (hk : s.constants[k]? = some c)
    (hc : c.folded = none) (htype : c'.type = some t) (hfolded : c'.folded = some v)
    (hσ : s.types.shape? t = some σ) (hv : v.Fits σ)
    (hvalue : c'.value.Typed (s.env noSignatures fun _ => false))
    (hfold : c'.value.fold s.types s.constantValue = some v) :
    ({ s with constants := s.constants.setIfInBounds k c' } : CheckState).Sound lengths := by
  have hlt : k < s.constants.size := (Array.getElem?_eq_some_iff.1 hk).1
  have hconstant : ∀ i v, s.constantValue i = some v →
      ((s.constants.setIfInBounds k c')[i]?).bind (·.folded) = some v := by
    intro i v hi
    obtain ⟨d, hd, hdv⟩ := Option.bind_eq_some_iff.1 hi
    have hne : k ≠ i := by
      rintro rfl
      obtain rfl : c = d := Option.some.inj (hk.symm.trans hd)
      rw [hc] at hdv
      cases hdv
    exact Option.bind_eq_some_iff.2 ⟨d, by rwa [Array.getElem?_setIfInBounds_ne hne], hdv⟩
  have henv : s.constantEnv.Extends
      ({ s with constants := s.constants.setIfInBounds k c' } : CheckState).constantEnv :=
    ⟨.refl _, hconstant, fun _ _ h => h, fun _ _ h => h, fun _ _ h => h⟩
  have either {P : Constant → Prop} (hnew : P c')
      (hold : ∀ (i : Nat) (d : Constant), s.constants[i]? = some d → P d)
      (i : Nat) (d : Constant) (hd : (s.constants.setIfInBounds k c')[i]? = some d) : P d := by
    by_cases hi : k = i
    · subst hi
      rw [Array.getElem?_setIfInBounds_self_of_lt hlt] at hd
      obtain rfl := Option.some.inj hd
      exact hnew
    · rw [Array.getElem?_setIfInBounds_ne hi] at hd
      exact hold i d hd
  exact {
    builtin := hs.builtin
    flat := hs.flat
    constants := fun i d w hd hw => by
      revert hw
      refine either (P := fun d => d.folded = some w → _) (fun hw => ?_) (fun i d hd hw =>
        hs.constants i d w hd hw) i d hd
      obtain rfl : v = w := Option.some.inj (hfolded.symm.trans hw)
      exact ⟨t, σ, htype, hσ, hv⟩
    values := fun i d hd hw => by
      revert hw
      refine either (P := fun d => d.folded.isSome = true → _) (fun _ => ?_) (fun i d hd hw =>
        (hs.values i d hd hw).extends henv) i d hd
      exact hvalue.extends ((env_extends_constantEnv hlocals).trans henv)
    folds := fun i d hd hw => by
      revert hw
      refine either (P := fun d => d.folded.isSome = true → _) (fun _ => ?_) (fun i d hd hw =>
        hs.folds i d hd hw) i d hd
      exact ⟨_, _, by rw [hfold, Option.isSome_some]⟩
    locals := hs.locals
    ready := .inl hlocals
    unfolded := fun i d hd hn => by
      revert hn
      refine either (P := fun d => d.folded = none → _) (fun hn => ?_) (fun i d hd hn =>
        hs.unfolded i d hd hn) i d hd
      rw [hfolded] at hn
      cases hn
    lengths := hs.lengths }

/-- **A constant that has been asked for has a value that fits its type.** -/
theorem finds_constantWithin (bound : Nat) : Finds lengths (constantWithin lengths bound) := by
  induction bound with
  | zero => exact fun k s _ => Ends.refused
  | succ bound ih =>
    intro index s hs
    have hkeeps : ∀ k, Keeps Moves (constantWithin lengths bound k) := keeps_constantWithin bound
    refine Ends.mono (((ends_constantWithin (bound + 1) index s)).both
      (Q := fun _ s' => s'.Sound lengths) ?_) ?_
    · unfold constantWithin
      refine Ends.reads ?_
      split
      · exact Ends.refused
      next c hc =>
        dsimp only
        split
        · split
          · exact Ends.value hs
          · exact Ends.refused_seq
        next hf =>
          split
          · exact Ends.refused_seq
          next hopen =>
            have hnone : c.folded = none := by simpa using hf
            have hlocals : s.locals.size = 0 := by
              obtain h | h := hs.ready
              · exact h
              · exact absurd (h index c hc) hf
            refine Ends.seq (Ends.modifies (Q := fun _ s₁ =>
              s₁ = { s with openConstants := index :: s.openConstants }) rfl) fun _ s₁ h₁ => ?_
            subst h₁
            have hs₁ := hs.opening (index :: s.openConstants) s.openLengths
            refine ((ends_value ih hs₁ (known_noSignatures _) (hs.unfolded index c hc hnone)).both
              (resolves_of_moves (keeps_value hkeeps _) _)).seq fun r s₂ h₂ => ?_
            obtain ⟨⟨hs₂, -, he, ht⟩, hr₂⟩ := h₂
            refine ((ends_declaredValue hkeeps ih hs₂ he ht c.type).both
              (keeps_declaredValue hkeeps _ _ _ _)).seq fun r' s₃ h₃ => ?_
            obtain ⟨⟨hs₃, he', σ, hσ, heσ⟩, hr₃⟩ := h₃
            have hr := Resolves.passage.trans hr₂ hr₃
            refine Ends.seq (Ends.reads (Ends.value (Q := fun v s' => s' = s₃ ∧
              v = r'.1.fold s₃.types s₃.constantValue) ⟨rfl, rfl⟩)) fun v s₄ h₄ => ?_
            obtain ⟨rfl, hv⟩ := h₄
            cases v with
            | none => exact Ends.refused
            | some v =>
              obtain ⟨σ', hσ', hfit⟩ := he'.fold_fits hv.symm
              obtain rfl : σ' = σ := Option.some.inj (hσ'.symm.trans heσ)
              have hheld : s₄.constants[index]? = some c :=
                (hr.held index (by simp)).trans hc
              have hlocals₄ : s₄.locals.size = 0 := by
                rw [hr.locals]
                exact hlocals
              let d : Constant := { c with type := some r'.2, value := r'.1, folded := some v }
              have hnew : ({ s₄ with constants := s₄.constants.setIfInBounds index d } :
                CheckState).Sound lengths := sound_set hs₃ hlocals₄ hheld hnone rfl rfl hσ hfit he'
                  hv.symm
              dsimp only
              refine Ends.seq (Ends.modifies (Q := fun _ s₅ => s₅.Sound lengths) ?_)
                fun _ s₅ h₅ => Ends.value h₅
              exact hnew.opening (s₄.openConstants.erase index) s₄.openLengths
    · rintro t s' ⟨⟨hm, c, hc, ht, hf⟩, hs'⟩
      obtain ⟨v, hv⟩ := Option.isSome_iff_exists.1 hf
      obtain ⟨t', σ, ht', hσ, hfit⟩ := hs'.constants index c v hc hv
      obtain rfl : t' = t := Option.some.inj (ht'.symm.trans ht)
      exact ⟨hs', hm, σ, v, hσ, Option.bind_eq_some_iff.2 ⟨c, hc, hv⟩, hfit⟩

end Checking

end ChannelBasic
