import Mathlib.Data.List.Perm.Subperm
import Mathlib.Logic.Relation
import ChannelBasic.Proofs.Passes

/-!
# Proofs/Outcomes — what a pass comes to, and what it is refused for

`Ends` speaks of a pass that goes on.  `Comes x s Q R` speaks of a pass however it ends: what it
comes to satisfies `Q`, and whatever refuses it satisfies `R`.  `Mimics y x s Q R` says besides
that another pass `y` does in `s` exactly what `x` does, so that one walk through a pass both
compares it with a variant of it and says how it ends.  The rules are those of `Ends`.  `RefusedFor`
is left where neither the state nor what a pass comes to matters: it speaks of refusals alone.
-/

namespace ChannelBasic

variable {σ α β : Type}

/-- In `s` the pass `y` does what `x` does, which comes to `Q` or is refused because of `R`. -/
structure Mimics (y x : StateT σ Checked α) (s : σ) (Q : α → σ → Prop) (R : Diagnostic → Prop) :
    Prop where
  run : y.run s = x.run s
  ends : Ends x s Q
  refuses : ∀ d, x.run s = .error d → R d

/-- A pass comes to `Q` or is refused because of `R`. -/
abbrev Comes (x : StateT σ Checked α) (s : σ) (Q : α → σ → Prop) (R : Diagnostic → Prop) : Prop :=
  Mimics x x s Q R

namespace Mimics

variable {x y : StateT σ Checked α} {f g : α → StateT σ Checked β} {s : σ}
  {P Q : α → σ → Prop} {R : β → σ → Prop} {E : Diagnostic → Prop}

theorem mono (h : Mimics y x s P E) (hPQ : ∀ a s', P a s' → Q a s') : Mimics y x s Q E :=
  ⟨h.run, h.ends.mono hPQ, h.refuses⟩

theorem both (h : Mimics y x s P E) (hQ : Ends x s Q) :
    Mimics y x s (fun a s' => P a s' ∧ Q a s') E :=
  ⟨h.run, h.ends.both hQ, h.refuses⟩

/-- What is known of where the pass ends may be found out apart. -/
theorem ending (h : Mimics y x s P E) (hQ : Ends x s Q) : Mimics y x s Q E :=
  ⟨h.run, hQ, h.refuses⟩

/-- The second parts start from what the first ones come to. -/
theorem seq (hx : Mimics y x s P E) (hf : ∀ a s', P a s' → Mimics (g a) (f a) s' R E) :
    Mimics (y >>= g) (x >>= f) s R E where
  run := by
    rw [StateT.run_bind, StateT.run_bind, hx.run]
    cases hr : x.run s with
    | error d => rfl
    | ok r => exact (hf r.1 r.2 (hx.ends _ _ hr)).run
  ends := hx.ends.seq fun a s' h => (hf a s' h).ends
  refuses d hd := by
    rw [StateT.run_bind] at hd
    cases hr : x.run s with
    | error d' =>
      rw [hr] at hd
      obtain rfl : d' = d := by simpa [bind, Except.bind] using hd
      exact hx.refuses d' hr
    | ok r =>
      rw [hr] at hd
      exact (hf r.1 r.2 (hx.ends _ _ hr)).refuses d hd

theorem value {a : α} (h : Q a s) : Mimics (pure a) (pure a) s Q E :=
  ⟨rfl, Ends.value h, by rintro d ⟨⟩⟩

theorem value_seq {a : α} (h : Mimics (g a) (f a) s R E) :
    Mimics (pure a >>= g) (pure a >>= f) s R E := by
  rw [pure_bind, pure_bind]
  exact h

theorem ite {c : Prop} [Decidable c] {x' y' : StateT σ Checked α} (h : c → Mimics y x s Q E)
    (h' : ¬ c → Mimics y' x' s Q E) : Mimics (if c then y else y') (if c then x else x') s Q E := by
  by_cases hc : c
  · rw [if_pos hc, if_pos hc]
    exact h hc
  · rw [if_neg hc, if_neg hc]
    exact h' hc

theorem reads {k l : σ → StateT σ Checked β} (h : Mimics (k s) (l s) s R E) :
    Mimics (get >>= k) (get >>= l) s R E :=
  seq (P := fun a s' => a = s ∧ s' = s)
    ⟨rfl, Ends.reads (Ends.value ⟨rfl, rfl⟩), by rintro d ⟨⟩⟩ (by rintro _ _ ⟨rfl, rfl⟩; exact h)

theorem changes {k : σ → α × σ} (h : Q (k s).1 (k s).2) :
    Mimics (modifyGet k) (modifyGet k) s Q E :=
  ⟨rfl, Ends.changes h, by rintro d ⟨⟩⟩

theorem modifies {k : σ → σ} {Q : PUnit → σ → Prop} (h : Q ⟨⟩ (k s)) :
    Mimics (modify k) (modify k) s Q E :=
  changes h

theorem modifies_seq {k : σ → σ} {f g : PUnit → StateT σ Checked β}
    (h : Mimics (g ⟨⟩) (f ⟨⟩) (k s) R E) : Mimics (modify k >>= g) (modify k >>= f) s R E :=
  seq (modifies (Q := fun _ s' => s' = k s) rfl) (by rintro ⟨⟩ _ rfl; exact h)

theorem refused {d : Diagnostic} (h : E d) :
    Mimics (throw d : StateT σ Checked α) (throw d) s Q E :=
  ⟨rfl, Ends.refused, fun d' hd => by
    obtain rfl : d = d' := Except.error.inj hd
    exact h⟩

theorem refused_seq {d : Diagnostic} (h : E d) : Mimics (throw d >>= g) (throw d >>= f) s R E :=
  seq (refused h (Q := fun _ _ => False)) fun _ _ h => h.elim

theorem lifts {z : Checked α} (h : ∀ a, z = .ok a → Q a s) (hE : ∀ d, z = .error d → E d) :
    Mimics (liftM z : StateT σ Checked α) (liftM z) s Q E where
  run := rfl
  ends := Ends.lifts h
  refuses d hd := by
    cases z with
    | error d' =>
      obtain rfl : d' = d := Except.error.inj hd
      exact hE d' rfl
    | ok a => cases hd

/-- What every round keeps is kept by all of them. -/
theorem each {I : σ → Prop} {k l : α → StateT σ Checked PUnit} {as : List α}
    (step : ∀ a ∈ as, ∀ s, I s → Mimics (k a) (l a) s (fun _ s' => I s') E) (h : I s) :
    Mimics (as.forM k) (as.forM l) s (fun _ s' => I s') E := by
  induction as generalizing s with
  | nil => exact value h
  | cons a as ih =>
    exact seq (step a List.mem_cons_self s h) fun _ s' hs =>
      ih (fun b hb => step b (List.mem_cons_of_mem _ hb)) hs

/-- What every round keeps is kept by all of them, whatever they give. -/
theorem eachOf {I : σ → Prop} {k l : α → StateT σ Checked β} {as : List α}
    (step : ∀ a ∈ as, ∀ s, I s → Mimics (k a) (l a) s (fun _ s' => I s') E) (h : I s) :
    Mimics (as.mapM k) (as.mapM l) s (fun _ s' => I s') E := by
  induction as generalizing s with
  | nil => exact value h
  | cons a as ih =>
    rw [List.mapM_cons, List.mapM_cons]
    refine seq (step a List.mem_cons_self s h) fun b s₁ h₁ => ?_
    refine seq (ih (fun c hc => step c (List.mem_cons_of_mem _ hc)) h₁) fun bs s₂ h₂ => ?_
    exact value h₂

end Mimics

/-! ## What a pass is refused for, whatever its state -/

/-- Whatever refuses a pass breaks a rule that satisfies `R`, wherever the pass starts. -/
def RefusedFor (R : Rule → Prop) (x : StateT σ Checked α) : Prop :=
  ∀ s d, x.run s = .error d → R d.rule

namespace RefusedFor

variable {R : Rule → Prop} {P : α → Prop} {x : StateT σ Checked α} {f : α → StateT σ Checked β}

/-- The second part starts from what the first one gives. -/
theorem seqOf (hx : RefusedFor R x) (hP : Gives P x) (hf : ∀ a, P a → RefusedFor R (f a)) :
    RefusedFor R (x >>= f) := fun s =>
  (Mimics.seq (y := x) (g := f) (R := fun _ _ => True) (E := fun d => R d.rule)
    ⟨rfl, hP s, hx s⟩ fun a s' ha => ⟨rfl, Ends.any, hf a ha s'⟩).refuses

theorem seq (hx : RefusedFor R x) (hf : ∀ a, RefusedFor R (f a)) : RefusedFor R (x >>= f) :=
  hx.seqOf (P := fun _ => True) (fun _ => Ends.any) fun a _ => hf a

theorem value {a : α} : RefusedFor R (pure a : StateT σ Checked α) := by
  rintro _ _ ⟨⟩

theorem changes {k : σ → α × σ} : RefusedFor R (modifyGet k : StateT σ Checked α) := by
  rintro _ _ ⟨⟩

theorem reads {g : σ → StateT σ Checked β} (h : ∀ s, RefusedFor R (g s)) :
    RefusedFor R (get >>= g) :=
  seq (by rintro _ _ ⟨⟩) h

theorem refused {d : Diagnostic} (h : R d.rule) :
    RefusedFor R (throw d : StateT σ Checked α) := fun s =>
  (Mimics.refused (s := s) (Q := fun _ _ => True) (E := fun d => R d.rule) h).refuses

theorem refused_seq {d : Diagnostic} (h : R d.rule) :
    RefusedFor R (throw d >>= f : StateT σ Checked β) :=
  (refused h).seqOf (P := fun _ => False) (fun _ => Ends.refused) fun _ h => h.elim

theorem eachOf {g : α → StateT σ Checked β} {as : List α} (h : ∀ a ∈ as, RefusedFor R (g a)) :
    RefusedFor R (as.mapM g) := fun s =>
  (Mimics.eachOf (I := fun _ => True) (k := g) (l := g) (E := fun d => R d.rule)
    (fun a ha s _ => ⟨rfl, Ends.any, h a ha s⟩) trivial (s := s)).refuses

end RefusedFor

/-! ## Searches

What a search has open are different places, so there is a bound to how deep it goes.  Coming back
to a place that is open means a cycle; what a search has left behind lies on none. -/

/-- Different numbers below a bound are at most as many. -/
theorem length_le_of_nodup {l : List Nat} {n : Nat} (hl : l.Nodup) (hn : ∀ a ∈ l, a < n) :
    l.length ≤ n := by
  have hsub : ∀ a ∈ l, a ∈ List.range n := fun a ha => List.mem_range.2 (hn a ha)
  simpa using (hl.subperm hsub).length_le

/-- Every path from a place on such a path comes to an end, too. -/
theorem acc_of_reflTransGen {r : α → α → Prop} {a b : α} (h : Acc (Function.swap r) a)
    (hb : Relation.ReflTransGen r a b) : Acc (Function.swap r) b := by
  induction hb with
  | refl => exact h
  | tail _ hbc ih => exact ih.inv hbc

/-- From where every path comes to an end, no path leads back. -/
theorem not_transGen_of_acc {r : α → α → Prop} {a : α} (h : Acc (Function.swap r) a) :
    ¬ Relation.TransGen r a a := by
  rw [← Relation.transGen_swap]
  replace h := h.transGen
  induction h with
  | intro b _ ih => exact fun hb => ih b hb hb

end ChannelBasic
