import Mathlib.Data.List.Forall2
import ChannelBasic.Diagnostic

/-!
# Proofs/Passes — what a pass that comes to an end has done

A pass carries a state and may be refused.  `Ends x s Q` says that whatever `x`, started in `s`,
comes to satisfies `Q`; a refusal satisfies everything.  There is one rule for each way of putting
passes together, and a pass is followed by applying the rules in the order in which it is written.
-/

namespace ChannelBasic

variable {σ α β : Type}

/-! ## Computations that may be refused -/

/-- A checked computation goes on exactly if its parts do. -/
theorem Checked.bind_eq_ok {x : Checked α} {f : α → Checked β} {b : β} :
    (x >>= f) = .ok b ↔ ∃ a, x = .ok a ∧ f a = .ok b := by
  cases x <;> simp [bind, Except.bind]

theorem Checked.pure_eq_ok {a b : α} : (pure a : Checked α) = .ok b ↔ a = b := by
  simp [pure, Except.pure]

/-- A computation that is not refused comes to what it comes to. -/
theorem Checked.eq_ok [Inhabited α] {x : Checked α} (h : x.isOk = true) :
    x = .ok (x.toOption.getD default) := by
  cases x with
  | ok a => rfl
  | error d => cases h

theorem Checked.exists_of_isOk {x : Checked α} (h : x.isOk = true) : ∃ a, x = .ok a := by
  cases x with
  | ok a => exact ⟨a, rfl⟩
  | error d => cases h

/-- What is done to each member of a list is done to its members one by one. -/
theorem Checked.mapM_eq_ok {f : α → Checked β} {as : List α} {bs : List β} :
    as.mapM f = .ok bs ↔ List.Forall₂ (fun a b => f a = .ok b) as bs := by
  induction as generalizing bs with
  | nil =>
    rw [List.mapM_nil, Checked.pure_eq_ok, List.forall₂_nil_left_iff]
    exact eq_comm
  | cons a as ih =>
    rw [List.mapM_cons, Checked.bind_eq_ok]
    constructor
    · rintro ⟨b, hb, h⟩
      obtain ⟨bs', hbs, h⟩ := Checked.bind_eq_ok.1 h
      obtain rfl := Checked.pure_eq_ok.1 h
      exact .cons hb (ih.1 hbs)
    · rintro (_ | ⟨hb, hbs⟩)
      exact ⟨_, hb, Checked.bind_eq_ok.2 ⟨_, ih.2 hbs, rfl⟩⟩

/-- Lists that go together member by member go together at every place. -/
theorem forall₂_right {R : α → β → Prop} {as : List α} {bs : List β} (h : List.Forall₂ R as bs)
    {k : Nat} {b : β} (hb : bs[k]? = some b) : ∃ a, as[k]? = some a ∧ R a b := by
  induction h generalizing k with
  | nil => simp at hb
  | @cons x y xs ys hxy _ ih =>
    cases k with
    | zero =>
      obtain rfl : y = b := by simpa using hb
      exact ⟨x, rfl, hxy⟩
    | succ k => exact ih (by simpa using hb)

theorem forall₂_left {R : α → β → Prop} {as : List α} {bs : List β} (h : List.Forall₂ R as bs)
    {k : Nat} {a : α} (ha : as[k]? = some a) : ∃ b, bs[k]? = some b ∧ R a b :=
  forall₂_right (List.Forall₂.flip h) ha

/-! ## Passes with a state -/

/-- A pass goes on exactly if its parts do, one after the other. -/
theorem run_bind_eq_ok {x : StateT σ Checked α} {f : α → StateT σ Checked β} {s s' : σ} {b : β} :
    (x >>= f).run s = .ok (b, s') ↔
      ∃ a s₁, x.run s = .ok (a, s₁) ∧ (f a).run s₁ = .ok (b, s') := by
  rw [StateT.run_bind, Checked.bind_eq_ok]
  exact Prod.exists

theorem run_pure_eq_ok {a b : α} {s s' : σ} :
    (pure a : StateT σ Checked α).run s = .ok (b, s') ↔ a = b ∧ s = s' := by
  rw [StateT.run_pure, Checked.pure_eq_ok, Prod.mk.injEq]

theorem run_get_eq_ok {s s' a : σ} :
    (get : StateT σ Checked σ).run s = .ok (a, s') ↔ s = a ∧ s = s' := by
  rw [StateT.run_get, Checked.pure_eq_ok, Prod.mk.injEq]

theorem run_modifyGet_eq_ok {g : σ → α × σ} {s s' : σ} {a : α} :
    (modifyGet g : StateT σ Checked α).run s = .ok (a, s') ↔ g s = (a, s') := by
  rw [StateT.run_modifyGet, Checked.pure_eq_ok]

theorem run_throw_eq_ok {d : Diagnostic} {s s' : σ} {a : α} :
    (throw d : StateT σ Checked α).run s = .ok (a, s') ↔ False := by
  simp [throw, throwThe, MonadExceptOf.throw, StateT.run, StateT.lift, bind, Except.bind]

theorem run_lift_eq_ok {x : Checked α} {s s' : σ} {a : α} :
    (liftM x : StateT σ Checked α).run s = .ok (a, s') ↔ x = .ok a ∧ s = s' := by
  cases x with
  | error e =>
    simp [liftM, monadLift, MonadLift.monadLift, StateT.lift, StateT.run, bind, Except.bind]
  | ok b =>
    simp [liftM, monadLift, MonadLift.monadLift, StateT.lift, StateT.run, bind, Except.bind,
      pure, Except.pure]

theorem run'_eq_ok {x : StateT σ Checked α} {s : σ} {a : α} :
    x.run' s = .ok a ↔ ∃ s', x.run s = .ok (a, s') := by
  change (Prod.fst <$> x.run s) = _ ↔ _
  cases x.run s with
  | error e => simp [Functor.map, Except.map]
  | ok r =>
    obtain ⟨b, s'⟩ := r
    simp [Functor.map, Except.map]

theorem run'_eq_error {x : StateT σ Checked α} {s : σ} {d : Diagnostic} :
    x.run' s = .error d ↔ x.run s = .error d := by
  change (Prod.fst <$> x.run s) = _ ↔ _
  cases x.run s <;> simp [Functor.map, Except.map]

/-- Whatever `x` comes to, started in `s`, satisfies `Q`. -/
def Ends (x : StateT σ Checked α) (s : σ) (Q : α → σ → Prop) : Prop :=
  ∀ a s', x.run s = .ok (a, s') → Q a s'

namespace Ends

variable {x : StateT σ Checked α} {f : α → StateT σ Checked β} {s : σ}
  {P Q : α → σ → Prop} {R : β → σ → Prop}

theorem mono (h : Ends x s P) (hPQ : ∀ a s', P a s' → Q a s') : Ends x s Q :=
  fun a s' hx => hPQ a s' (h a s' hx)

theorem any : Ends x s fun _ _ => True := fun _ _ _ => trivial

/-- What is true of the second part wherever it starts from is true of both. -/
theorem after (hf : ∀ a s', Ends (f a) s' R) : Ends (x >>= f) s R :=
  fun b s'' h => by
    obtain ⟨a, s', -, hb⟩ := run_bind_eq_ok.1 h
    exact hf a s' b s'' hb

theorem both (hP : Ends x s P) (hQ : Ends x s Q) : Ends x s fun a s' => P a s' ∧ Q a s' :=
  fun a s' hx => ⟨hP a s' hx, hQ a s' hx⟩

/-- The second part starts from what the first comes to. -/
theorem seq (hx : Ends x s P) (hf : ∀ a s', P a s' → Ends (f a) s' R) : Ends (x >>= f) s R := by
  intro b s'' h
  obtain ⟨a, s', ha, hb⟩ := run_bind_eq_ok.1 h
  exact hf a s' (hx a s' ha) b s'' hb

theorem value {a : α} (h : Q a s) : Ends (pure a) s Q := by
  intro b s' hb
  obtain ⟨rfl, rfl⟩ := run_pure_eq_ok.1 hb
  exact h

theorem value_seq {a : α} (h : Ends (f a) s R) : Ends (pure a >>= f) s R := by
  rw [pure_bind]
  exact h

theorem reads {g : σ → StateT σ Checked β} (h : Ends (g s) s R) : Ends (get >>= g) s R := by
  intro b s'' hb
  obtain ⟨a, s', ha, hb⟩ := run_bind_eq_ok.1 hb
  obtain ⟨rfl, rfl⟩ := run_get_eq_ok.1 ha
  exact h b s'' hb

theorem changes {g : σ → α × σ} (h : Q (g s).1 (g s).2) : Ends (modifyGet g) s Q := by
  intro a s' ha
  rw [run_modifyGet_eq_ok.1 ha] at h
  exact h

theorem modifies {g : σ → σ} {Q : PUnit → σ → Prop} (h : Q ⟨⟩ (g s)) : Ends (modify g) s Q :=
  changes h

theorem refused {d : Diagnostic} : Ends (throw d) s Q :=
  fun _ _ h => (run_throw_eq_ok.1 h).elim

theorem refused_seq {d : Diagnostic} : Ends (throw d >>= f) s R :=
  refused.seq (P := fun _ _ => False) fun _ _ h => h.elim

theorem lifts {y : Checked α} (h : ∀ a, y = .ok a → Q a s) : Ends (liftM y) s Q := by
  intro a s' ha
  obtain ⟨hy, rfl⟩ := run_lift_eq_ok.1 ha
  exact h a hy

/-- What every round keeps is kept by all of them. -/
theorem each {I : σ → Prop} {g : α → StateT σ Checked PUnit} {as : List α}
    (step : ∀ a ∈ as, ∀ s, I s → Ends (g a) s fun _ s' => I s') (h : I s) :
    Ends (as.forM g) s fun _ s' => I s' := by
  induction as generalizing s with
  | nil => exact value h
  | cons a as ih =>
    refine seq (step a (by simp) s h) fun _ s' hs => ?_
    exact ih (fun b hb => step b (by simp [hb])) hs

/-- What a round says of its member stays true as long as the later rounds keep it. -/
theorem eachHas {I : σ → Prop} {K : σ → σ → Prop} {Q : α → σ → Prop}
    {g : α → StateT σ Checked PUnit} {as : List α} (refl : ∀ s, K s s)
    (trans : ∀ {s₁ s₂ s₃}, K s₁ s₂ → K s₂ s₃ → K s₁ s₃)
    (stays : ∀ {a s s'}, Q a s → K s s' → Q a s')
    (step : ∀ a ∈ as, ∀ s, I s → Ends (g a) s fun _ s' => I s' ∧ K s s' ∧ Q a s') (h : I s) :
    Ends (as.forM g) s fun _ s' => I s' ∧ K s s' ∧ ∀ a ∈ as, Q a s' := by
  induction as generalizing s with
  | nil => exact value ⟨h, refl s, by simp⟩
  | cons a as ih =>
    refine seq (step a (by simp) s h) fun _ s₁ h₁ => ?_
    refine (ih (fun b hb => step b (by simp [hb])) h₁.1).mono fun _ s₂ h₂ => ?_
    refine ⟨h₂.1, trans h₁.2.1 h₂.2.1, fun b hb => ?_⟩
    obtain rfl | hb := List.mem_cons.1 hb
    · exact stays h₁.2.2 h₂.2.1
    · exact h₂.2.2 b hb

/-- What every round keeps is kept by all of them, and what a round says of its result stays true
as long as the later rounds keep it. -/
theorem eachOf {I : σ → Prop} {K : σ → σ → Prop} {Q : α → β → σ → Prop}
    {g : α → StateT σ Checked β} {as : List α} (refl : ∀ s, K s s)
    (trans : ∀ {s₁ s₂ s₃}, K s₁ s₂ → K s₂ s₃ → K s₁ s₃)
    (stays : ∀ {a b s s'}, Q a b s → K s s' → Q a b s')
    (step : ∀ a ∈ as, ∀ s, I s → Ends (g a) s fun b s' => I s' ∧ K s s' ∧ Q a b s') (h : I s) :
    Ends (as.mapM g) s fun bs s' => I s' ∧ K s s' ∧ List.Forall₂ (Q · · s') as bs := by
  induction as generalizing s with
  | nil =>
    rw [List.mapM_nil]
    exact value ⟨h, refl s, .nil⟩
  | cons a as ih =>
    rw [List.mapM_cons]
    refine seq (step a (by simp) s h) fun b s₁ hb => ?_
    refine seq (ih (fun b hb => step b (by simp [hb])) hb.1) fun bs s₂ hbs => ?_
    exact value ⟨hbs.1, trans hb.2.1 hbs.2.1, .cons (stays hb.2.2 hbs.2.1) hbs.2.2⟩

end Ends

/-! ## What a pass does to its state, whatever it comes to -/

/-- A way for a state to move on that can be repeated. -/
structure Passage (K : σ → σ → Prop) : Prop where
  refl : ∀ s, K s s
  trans : ∀ {s₁ s₂ s₃}, K s₁ s₂ → K s₂ s₃ → K s₁ s₃

/-- A pass that moves its state on only in one way. -/
def Keeps (K : σ → σ → Prop) (x : StateT σ Checked α) : Prop := ∀ s, Ends x s fun _ s' => K s s'

namespace Keeps

variable {K : σ → σ → Prop} {x : StateT σ Checked α} {f : α → StateT σ Checked β}

theorem seq (hK : Passage K) (hx : Keeps K x) (hf : ∀ a, Keeps K (f a)) : Keeps K (x >>= f) :=
  fun s => (hx s).seq fun a s' h => (hf a s').mono fun _ _ h' => hK.trans h h'

theorem value (hK : Passage K) (a : α) : Keeps K (pure a) := fun s => Ends.value (hK.refl s)

theorem reads {g : σ → StateT σ Checked β} (hg : ∀ s, Keeps K (g s)) : Keeps K (get >>= g) :=
  fun s => Ends.reads (hg s s)

theorem refused {d : Diagnostic} : Keeps K (throw d : StateT σ Checked α) := fun _ => Ends.refused

theorem refused_seq {d : Diagnostic} {g : β → StateT σ Checked α} : Keeps K (throw d >>= g) :=
  fun _ => Ends.refused_seq

theorem lifts (hK : Passage K) (y : Checked α) : Keeps K (liftM y : StateT σ Checked α) :=
  fun s => Ends.lifts fun _ _ => hK.refl s

theorem each (hK : Passage K) {g : α → StateT σ Checked PUnit} {as : List α}
    (h : ∀ a ∈ as, Keeps K (g a)) : Keeps K (as.forM g) := by
  intro s
  refine Ends.each (I := K s) (fun a ha s₁ h₁ => ?_) (hK.refl s)
  exact (h a ha s₁).mono fun _ _ h₂ => hK.trans h₁ h₂

theorem eachOf (hK : Passage K) {g : α → StateT σ Checked β} {as : List α}
    (h : ∀ a ∈ as, Keeps K (g a)) : Keeps K (as.mapM g) := by
  intro s
  refine (Ends.eachOf (I := fun _ => True) (Q := fun _ _ _ => True) hK.refl hK.trans
    (fun _ _ => trivial) (fun a ha s₁ _ => ?_) trivial).mono fun _ _ h => h.2.1
  exact (h a ha s₁).mono fun _ _ h₂ => ⟨trivial, h₂, trivial⟩

end Keeps

/-! ## What a pass comes to, whatever its state -/

/-- Whatever a pass comes to satisfies `P`, wherever it starts. -/
def Gives (P : α → Prop) (x : StateT σ Checked α) : Prop :=
  ∀ s, Ends x s fun a _ => P a

namespace Gives

variable {P : α → Prop} {R : β → Prop} {x : StateT σ Checked α}
  {f : α → StateT σ Checked β}

theorem mono {Q : α → Prop} (hx : Gives P x) (h : ∀ a, P a → Q a) : Gives Q x :=
  fun s => (hx s).mono fun a _ => h a

theorem seq (hx : Gives P x) (hf : ∀ a, P a → Gives R (f a)) : Gives R (x >>= f) :=
  fun s => (hx s).seq fun a s' h => hf a h s'

theorem after (hf : ∀ a, Gives R (f a)) : Gives R (x >>= f) :=
  fun _ => Ends.after fun a s' => hf a s'

theorem value {a : α} (h : P a) : Gives P (pure a : StateT σ Checked α) := fun _ => Ends.value h

theorem value_seq {a : α} (h : Gives R (f a)) : Gives R (pure a >>= f) :=
  fun s => Ends.value_seq (h s)

theorem reads {g : σ → StateT σ Checked β} (h : ∀ s, Gives R (g s)) : Gives R (get >>= g) :=
  fun s => Ends.reads (h s s)

theorem refused {d : Diagnostic} : Gives P (throw d : StateT σ Checked α) := fun _ => Ends.refused

theorem refused_seq {d : Diagnostic} : Gives R (throw d >>= f : StateT σ Checked β) :=
  fun _ => Ends.refused_seq

theorem lifts {y : Checked α} (h : ∀ a, y = .ok a → P a) :
    Gives P (liftM y : StateT σ Checked α) :=
  fun _ => Ends.lifts h

theorem all {Q : α → β → Prop} {g : α → StateT σ Checked β} (h : ∀ a, Gives (Q a) (g a)) :
    (as : List α) → Gives (List.Forall₂ Q as) (as.mapM g)
  | [] => .value .nil
  | a :: as => by
    rw [List.mapM_cons]
    exact (h a).seq fun b hb => (all h as).seq fun bs hbs => .value (.cons hb hbs)

end Gives

end ChannelBasic
