import ChannelBasic.Proofs.Passes

/-!
# Proofs/Faultless/Basic — refusals that blame the program text

A pass that refuses a program names the rule that the program breaks.  One rule is broken by no
program: an internal error blames the compiler.  A computation is `Faultless` if it never ends
that way.  There is one rule for each way of putting computations together; where the second part
relies on what the first one came to, `Ends` says what that is.
-/

namespace ChannelBasic

variable {σ α β : Type}

/-- The computation does not end in an internal error. -/
def Checked.Faultless (x : Checked α) : Prop := ∀ d, x = .error d → d.rule ≠ .internalError

@[simp, grind =] theorem Rule.rule_here (r : Rule) (l : Location) : (r.here l).rule = r := rfl

@[simp, grind =] theorem Rule.rule_about (r : Rule) (l : Location) (detail : String) :
    (r.about l detail).rule = r := rfl

@[simp, grind =] theorem Rule.rule_nowhere (r : Rule) (detail : String) :
    (r.nowhere detail).rule = r := rfl

namespace Faultless

/-! ## Computations without a state -/

@[simp, grind .] theorem ok (a : α) : Checked.Faultless (.ok a) := by
  rintro d ⟨⟩

@[simp, grind =] theorem error_iff (d : Diagnostic) :
    Checked.Faultless (.error d : Checked α) ↔ d.rule ≠ .internalError :=
  ⟨fun h => h d rfl, by rintro h _ ⟨⟩; exact h⟩

@[simp, grind .] theorem value (a : α) : Checked.Faultless (pure a : Checked α) := ok a

@[simp, grind =] theorem throw_iff (d : Diagnostic) :
    Checked.Faultless (throw d : Checked α) ↔ d.rule ≠ .internalError := error_iff d

/-- **A computation is faultless exactly if its parts are**, the second one on what the first one
comes to. -/
@[simp, grind =] theorem bind_iff (x : Checked α) (f : α → Checked β) :
    Checked.Faultless (x >>= f) ↔
      Checked.Faultless x ∧ ∀ a, x = .ok a → Checked.Faultless (f a) := by
  cases x with
  | error d => simp [Bind.bind, Except.bind]
  | ok a => simp [Bind.bind, Except.bind]

@[simp, grind =] theorem map_iff (f : α → β) (x : Checked α) :
    Checked.Faultless (f <$> x) ↔ Checked.Faultless x := by
  cases x with
  | error d => simp [Functor.map, Except.map]
  | ok a => simp [Functor.map, Except.map]

theorem mapM {f : α → Checked β} {as : List α} (h : ∀ a ∈ as, Checked.Faultless (f a)) :
    Checked.Faultless (as.mapM f) := by
  induction as with
  | nil => simp
  | cons a as ih =>
    rw [List.mapM_cons, bind_iff]
    refine ⟨h a List.mem_cons_self, fun b _ => ?_⟩
    rw [bind_iff]
    exact ⟨ih fun a' ha' => h a' (List.mem_cons_of_mem _ ha'), fun _ _ => value _⟩

theorem filterMapM {f : α → Checked (Option β)} {as : List α}
    (h : ∀ a ∈ as, Checked.Faultless (f a)) : Checked.Faultless (as.filterMapM f) := by
  have loop (found : List β) : Checked.Faultless (List.filterMapM.loop f as found) := by
    induction as generalizing found with
    | nil => exact value _
    | cons a as ih =>
      rw [List.filterMapM.loop, bind_iff]
      refine ⟨h a List.mem_cons_self, fun b _ => ?_⟩
      have ih := ih fun a' ha' => h a' (List.mem_cons_of_mem _ ha')
      cases b with
      | none => exact ih found
      | some b => exact ih (b :: found)
  exact loop []

/-! ## Passes -/

variable {x : StateT σ Checked α} {f : α → StateT σ Checked β} {s : σ}

/-- A pass is faultless exactly if its parts are, one after the other. -/
@[simp, grind =] theorem run_bind_iff (x : StateT σ Checked α) (f : α → StateT σ Checked β) (s : σ) :
    Checked.Faultless ((x >>= f).run s) ↔ Checked.Faultless (x.run s) ∧
      ∀ a s', x.run s = .ok (a, s') → Checked.Faultless ((f a).run s') := by
  rw [StateT.run_bind, bind_iff, Prod.forall]

@[simp, grind .] theorem run_value (a : α) (s : σ) :
    Checked.Faultless ((pure a : StateT σ Checked α).run s) := ok _

@[simp, grind .] theorem run_get (s : σ) :
    Checked.Faultless ((get : StateT σ Checked σ).run s) := ok _

@[simp, grind .] theorem run_set (s s' : σ) :
    Checked.Faultless ((set s' : StateT σ Checked PUnit).run s) := ok _

@[simp, grind .] theorem run_modifyGet (g : σ → α × σ) (s : σ) :
    Checked.Faultless ((modifyGet g : StateT σ Checked α).run s) := ok _

@[simp, grind .] theorem run_modify (g : σ → σ) (s : σ) :
    Checked.Faultless ((modify g : StateT σ Checked PUnit).run s) := ok _

@[simp, grind =] theorem run_throw_iff (d : Diagnostic) (s : σ) :
    Checked.Faultless ((throw d : StateT σ Checked α).run s) ↔ d.rule ≠ .internalError :=
  error_iff d

@[simp, grind =] theorem run_lift_iff (x : Checked α) (s : σ) :
    Checked.Faultless ((liftM x : StateT σ Checked α).run s) ↔ Checked.Faultless x := by
  refine (bind_iff x fun a => pure (a, s)).trans ?_
  simp

@[simp, grind =] theorem run'_iff (x : StateT σ Checked α) (s : σ) :
    Checked.Faultless (x.run' s) ↔ Checked.Faultless (x.run s) :=
  map_iff ..

@[simp] theorem run_ite_iff {c : Prop} [Decidable c] (x y : StateT σ Checked α) (s : σ) :
    Checked.Faultless ((if c then x else y).run s) ↔
      (c → Checked.Faultless (x.run s)) ∧ (¬ c → Checked.Faultless (y.run s)) := by
  split
  next h => simp [h]
  next h => simp [h]

/-- The second part starts from what the first comes to. -/
theorem seq {P : α → σ → Prop} (hx : Checked.Faultless (x.run s)) (hP : Ends x s P)
    (hf : ∀ a s', P a s' → Checked.Faultless ((f a).run s')) :
    Checked.Faultless ((x >>= f).run s) :=
  (run_bind_iff ..).2 ⟨hx, fun a s' h => hf a s' (hP a s' h)⟩

theorem reads {g : σ → StateT σ Checked β} (h : Checked.Faultless ((g s).run s)) :
    Checked.Faultless ((get >>= g).run s) :=
  (run_bind_iff ..).2 ⟨run_get s, fun a s' hs => by
    obtain ⟨rfl, rfl⟩ := run_get_eq_ok.1 hs
    exact h⟩

theorem modifies {g : σ → σ} {f : PUnit → StateT σ Checked β}
    (h : Checked.Faultless ((f ⟨⟩).run (g s))) : Checked.Faultless ((modify g >>= f).run s) :=
  (run_bind_iff ..).2 ⟨run_modify g s, fun a s' hs => by
    obtain ⟨-, rfl⟩ := Prod.mk.inj (run_modifyGet_eq_ok.1 hs)
    exact h⟩

/-- Rounds are faultless as long as each keeps what the next one relies on. -/
theorem run_forM {I : σ → Prop} {g : α → StateT σ Checked PUnit} {as : List α}
    (step : ∀ a ∈ as, ∀ s, I s → Checked.Faultless ((g a).run s) ∧ Ends (g a) s fun _ => I)
    (h : I s) : Checked.Faultless ((as.forM g).run s) := by
  induction as generalizing s with
  | nil => exact run_value _ s
  | cons a as ih =>
    obtain ⟨ha, hI⟩ := step a List.mem_cons_self s h
    exact seq ha hI fun _ s' h' => ih (fun b hb => step b (List.mem_cons_of_mem _ hb)) h'

theorem run_mapM {I : σ → Prop} {g : α → StateT σ Checked β} {as : List α}
    (step : ∀ a ∈ as, ∀ s, I s → Checked.Faultless ((g a).run s) ∧ Ends (g a) s fun _ => I)
    (h : I s) : Checked.Faultless ((as.mapM g).run s) := by
  induction as generalizing s with
  | nil => exact run_value _ s
  | cons a as ih =>
    rw [List.mapM_cons]
    obtain ⟨ha, hI⟩ := step a List.mem_cons_self s h
    refine seq ha hI fun b s' h' => ?_
    refine seq (ih (fun b hb => step b (List.mem_cons_of_mem _ hb)) h') .any fun bs s'' _ => ?_
    exact run_value _ s''

/-- Rounds are faultless as long as each keeps what the next one relies on, and so is what comes
after them. -/
theorem rounds {I : σ → Prop} {g : α → StateT σ Checked PUnit} {f : PUnit → StateT σ Checked β}
    {as : List α} (h : I s)
    (step : ∀ a ∈ as, ∀ s, I s → Checked.Faultless ((g a).run s) ∧ Ends (g a) s fun _ => I)
    (hf : ∀ s', I s' → Checked.Faultless ((f ⟨⟩).run s')) :
    Checked.Faultless ((as.forM g >>= f).run s) :=
  seq (run_forM step h) (Ends.each (fun a ha s hs => (step a ha s hs).2) h) fun _ => hf

theorem roundsOf {I : σ → Prop} {g : α → StateT σ Checked β} {γ : Type}
    {f : List β → StateT σ Checked γ} {as : List α} (h : I s)
    (step : ∀ a ∈ as, ∀ s, I s → Checked.Faultless ((g a).run s) ∧ Ends (g a) s fun _ => I)
    (hf : ∀ bs s', I s' → Checked.Faultless ((f bs).run s')) :
    Checked.Faultless ((as.mapM g >>= f).run s) := by
  refine seq (run_mapM step h) (P := fun _ => I) ?_ hf
  refine (Ends.eachOf (I := I) (K := fun _ _ => True) (Q := fun _ _ _ => True) (fun _ => trivial)
    (fun _ _ => trivial) (fun _ _ => trivial) (fun a ha s hs => ?_) h).mono fun _ _ h => h.1
  exact (step a ha s hs).2.mono fun _ _ h => ⟨h, trivial, trivial⟩

@[simp] theorem run_forM_all {g : α → StateT σ Checked PUnit} {as : List α}
    (h : ∀ a s, Checked.Faultless ((g a).run s)) : Checked.Faultless ((forM as g).run s) :=
  @run_forM σ α s (fun _ => True) g as (fun a _ s _ => ⟨h a s, .any⟩) trivial

@[simp] theorem run_mapM_all {g : α → StateT σ Checked β} {as : List α}
    (h : ∀ a s, Checked.Faultless ((g a).run s)) : Checked.Faultless ((as.mapM g).run s) :=
  @run_mapM σ α β s (fun _ => True) g as (fun a _ s _ => ⟨h a s, .any⟩) trivial

end Faultless

end ChannelBasic
