import ChannelBasic.Proofs.Execution.Interpretation

/-!
# Proofs/Execution/Counting — what a counting loop goes through

A counting loop keeps its end, its step and the sign of its step in its frame, and is over once the
difference of counter and end, cut to the width of the counter, has the sign of the step.  A loop
of some rounds does just that (`Tally.turns`).

* **If the difference of start and end fits the width of the counter, the body is run for start,
  start + step, … up to the end and for nothing else** (`Tally.turns_eq`), whether or not the first
  number behind the end fits the counter.
* **If it does not fit, the first test goes wrong**, whichever way the range is
  (`Tally.turns_succ_of_not_fits`): a range that is not empty is left out, and one that is empty is
  entered.
-/

namespace ChannelBasic

open Code

/-! ## Numbers of a width -/

namespace Word

variable {width : Nat} {x y : Int}

theorem ofInt_eq_of_bmod_eq (h : Int.bmod x (256 ^ width) = Int.bmod y (256 ^ width)) :
    ofInt width x = ofInt width y := by
  have hx := ofInt_signed (ofInt width x)
  have hy := ofInt_signed (ofInt width y)
  rw [length_ofInt, signed_ofInt, span_eq] at hx hy
  rw [← hx, ← hy, h]

/-- Bytes of a 64-bit number are those of the number it stands for. -/
theorem ofInt_bmod_size (h : width ≤ 8) (x : Int) :
    ofInt width (Int.bmod x Int64.size) = ofInt width x := by
  refine ofInt_eq_of_bmod_eq (Int.bmod_bmod_of_dvd ?_)
  exact pow_dvd_pow 256 h

/-- Signs are told apart by a byte. -/
theorem ofInt_sign_inj : ofInt 1 x.sign = ofInt 1 y.sign ↔ x.sign = y.sign := by
  refine ⟨fun h => ?_, congrArg _⟩
  have fits (z : Int) : Fits 1 z.sign := by
    obtain h | h | h := Int.lt_trichotomy z 0
    · rw [Int.sign_eq_neg_one_of_neg h]; decide
    · rw [h]; decide
    · rw [Int.sign_eq_one_of_pos h]; decide
  have h := congrArg signed h
  rwa [signed_ofInt, signed_ofInt, span_eq, (fits x).bmod, (fits y).bmod] at h

end Word

/-! ## Ranges -/

namespace Counting

/-- Whether a number is not behind the end of a range. -/
def InRange (finish step x : Int) : Prop := if 0 < step then x ≤ finish else finish ≤ x

instance (finish step x : Int) : Decidable (InRange finish step x) :=
  inferInstanceAs (Decidable (ite _ _ _))

/-- How many numbers there are from one on to the end of a range. -/
def steps (finish step x : Int) : Nat :=
  if 0 < step then ((finish - x) / step + 1).toNat else ((x - finish) / -step + 1).toNat

/-- The numbers of a range from one on. -/
def range (finish step x : Int) : List Int :=
  (List.range (steps finish step x)).map fun (i : Nat) => x + i * step

section Ranges

variable {finish step x y : Int} {width : Nat}

theorem steps_of_inRange (h : InRange finish step x) (hstep : step ≠ 0) :
    steps finish step x = steps finish step (x + step) + 1 := by
  unfold InRange at h
  unfold steps
  split at h
  next hpos =>
    have hdiv := Int.add_mul_ediv_right (finish - x) (-1) hstep
    have hnonneg : 0 ≤ (finish - x) / step := Int.ediv_nonneg (by omega) hpos.le
    rw [if_pos hpos, if_pos hpos, show finish - (x + step) = finish - x + -1 * step by ring, hdiv]
    omega
  next hneg =>
    have hdiv := Int.add_mul_ediv_right (x - finish) (-1) (neg_ne_zero.2 hstep)
    have hnonneg : 0 ≤ (x - finish) / -step := Int.ediv_nonneg (by omega) (by omega)
    rw [if_neg hneg, if_neg hneg, show x + step - finish = x - finish + -1 * -step by ring, hdiv]
    omega

theorem steps_of_not_inRange (h : ¬ InRange finish step x) (hstep : step ≠ 0) :
    steps finish step x = 0 := by
  unfold InRange at h
  unfold steps
  split at h
  next hpos =>
    have hdiv : (finish - x) / step < 0 := Int.ediv_neg_of_neg_of_pos (by omega) hpos
    rw [if_pos hpos]
    omega
  next hneg =>
    have hdiv : (x - finish) / -step < 0 := Int.ediv_neg_of_neg_of_pos (by omega) (by omega)
    rw [if_neg hneg]
    omega

theorem range_of_inRange (h : InRange finish step x) (hstep : step ≠ 0) :
    range finish step x = x :: range finish step (x + step) := by
  rw [range, range, steps_of_inRange h hstep, List.range_succ_eq_map, List.map_cons, List.map_map]
  refine congrArg₂ _ (by simp) (List.map_congr_left fun i _ => ?_)
  simp only [Function.comp_apply]
  push_cast
  ring

theorem range_of_not_inRange (h : ¬ InRange finish step x) (hstep : step ≠ 0) :
    range finish step x = [] := by
  rw [range, steps_of_not_inRange h hstep]
  rfl

/-- What steps lead to is behind the end if the start is. -/
theorem InRange.of_add {i : Nat} (h : InRange finish step (x + i * step)) :
    InRange finish step x := by
  unfold InRange at h ⊢
  split at h
  next hpos =>
    have hle : 0 ≤ (i : Int) * step := Int.mul_nonneg (Int.natCast_nonneg i) hpos.le
    rw [if_pos hpos]
    omega
  next hneg =>
    have hle : (i : Int) * step ≤ 0 :=
      Int.mul_nonpos_of_nonneg_of_nonpos (Int.natCast_nonneg i) (by omega)
    rw [if_neg hneg]
    omega

/-- **A range has the numbers that some steps lead to and that are not behind its end.** -/
theorem mem_range (hstep : step ≠ 0) :
    y ∈ range finish step x ↔ InRange finish step y ∧ ∃ i : Nat, y = x + i * step := by
  induction hk : steps finish step x generalizing x with
  | zero =>
    have hx : ¬ InRange finish step x := fun h => by
      rw [steps_of_inRange h hstep] at hk
      cases hk
    rw [range_of_not_inRange hx hstep]
    refine ⟨fun h => (by cases h), ?_⟩
    rintro ⟨h, i, rfl⟩
    exact (hx h.of_add).elim
  | succ k ih =>
    have hx : InRange finish step x := by
      by_contra h
      rw [steps_of_not_inRange h hstep] at hk
      cases hk
    rw [steps_of_inRange hx hstep] at hk
    rw [range_of_inRange hx hstep, List.mem_cons, ih (Nat.succ.inj hk)]
    constructor
    · rintro (rfl | ⟨h, i, rfl⟩)
      · exact ⟨hx, 0, by simp⟩
      · exact ⟨h, i + 1, by push_cast; ring⟩
    · rintro ⟨h, i, rfl⟩
      cases i with
      | zero => exact .inl (by simp)
      | succ i => exact .inr ⟨h, i, by push_cast; ring⟩

example : range 10 4 1 = [1, 5, 9] := by decide

/-- The sign of a difference says whether a number is behind the end. -/
theorem sign_eq_iff (hstep : step ≠ 0) :
    (x - finish).sign = step.sign ↔ ¬ InRange finish step x := by
  unfold InRange
  obtain h | h := lt_or_gt_of_ne hstep
  · rw [Int.sign_eq_neg_one_of_neg h, Int.sign_eq_neg_one_iff_neg, if_neg (by omega)]
    omega
  · rw [Int.sign_eq_one_of_pos h, Int.sign_eq_one_iff_pos, if_pos h]
    omega

theorem neg_sign_eq_iff (hstep : step ≠ 0) (hne : x - finish ≠ 0) :
    -(x - finish).sign = step.sign ↔ InRange finish step x := by
  unfold InRange
  obtain h | h := lt_or_gt_of_ne hstep <;> obtain hx | hx := lt_or_gt_of_ne hne
  · rw [Int.sign_eq_neg_one_of_neg h, Int.sign_eq_neg_one_of_neg hx, if_neg (by omega)]
    omega
  · rw [Int.sign_eq_neg_one_of_neg h, Int.sign_eq_one_of_pos hx, if_neg (by omega)]
    omega
  · rw [Int.sign_eq_one_of_pos h, Int.sign_eq_neg_one_of_neg hx, if_pos h]
    omega
  · rw [Int.sign_eq_one_of_pos h, Int.sign_eq_one_of_pos hx, if_pos h]
    omega

/-- **A step from inside the range keeps the difference to the end in its width.** -/
theorem fits_step (h : InRange finish step x) (hfit : Word.Fits width (x - finish))
    (hstep : Word.Fits width step) : Word.Fits width (x + step - finish) := by
  unfold InRange at h
  unfold Word.Fits at *
  split at h <;> omega

/-- A difference that has been cut to a width that it does not fit has the opposite sign. -/
theorem sign_bmod_of_not_fits (hx : Word.Fits width x) (hfinish : Word.Fits width finish)
    (h : ¬ Word.Fits width (x - finish)) :
    (Int.bmod (x - finish) (256 ^ width)).sign = -(x - finish).sign := by
  have hpos : 0 < 256 ^ width := Nat.pow_pos (by decide)
  unfold Word.Fits at hx hfinish h
  obtain hlt | hlt := lt_or_ge (x - finish) 0
  · have hbmod : Int.bmod (x - finish) (256 ^ width) = x - finish + (256 ^ width : Nat) := by
      rw [← Int.add_bmod_right]
      exact Int.bmod_eq_of_le_mul_two (by omega) (by omega)
    rw [hbmod, Int.sign_eq_neg_one_of_neg hlt, Int.sign_eq_one_of_pos (by omega)]
    rfl
  · have hbmod : Int.bmod (x - finish) (256 ^ width) = x - finish - (256 ^ width : Nat) := by
      rw [← Int.sub_bmod_right]
      exact Int.bmod_eq_of_le_mul_two (by omega) (by omega)
    rw [hbmod, Int.sign_eq_neg_one_of_neg (by omega), Int.sign_eq_one_of_pos (by omega)]

end Ranges

end Counting

/-! ## Stores -/

namespace Place

variable {p q : Place} {n k i : Nat}

theorem eq_plus_of_behind? (h : q.behind? p = some i) : p = q.plus i := by
  cases p <;> cases q <;> simp only [behind?, reduceCtorEq] at h
  all_goals
    split at h
    · obtain rfl := Option.some.inj h
      simp only [plus, frame.injEq, data.injEq]
      omega
    · cases h

@[simp] theorem behind?_plus (q : Place) (i : Nat) : q.behind? (q.plus i) = some i := by
  cases q <;> simp [behind?, plus]

theorem plus_plus (p : Place) (i j : Nat) : (p.plus i).plus j = p.plus (i + j) := by
  cases p <;> simp only [plus, Nat.cast_add, add_assoc]

/-- No byte is counted twice if some lie at one place and some at another. -/
def Apart (p : Place) (n : Nat) (q : Place) (k : Nat) : Prop :=
  ∀ i < n, ∀ j < k, p.plus i ≠ q.plus j

instance (p : Place) (n : Nat) (q : Place) (k : Nat) : Decidable (p.Apart n q k) :=
  inferInstanceAs (Decidable (∀ i < n, ∀ j < k, p.plus i ≠ q.plus j))

end Place

namespace Store

variable {σ : Store} {p q : Place} {n : Nat} {data : List UInt8}

theorem read_write_self (σ : Store) (p : Place) (data : List UInt8) :
    (σ.write p data).read p data.length = data := by
  refine List.ext_getElem? fun i => ?_
  by_cases hi : i < data.length
  · rw [getElem?_read _ _ hi]
    simp [write, hi]
  · rw [List.getElem?_eq_none (by rw [length_read]; omega), List.getElem?_eq_none (by omega)]

theorem read_write_of_apart (h : p.Apart n q data.length) :
    (σ.write q data).read p n = σ.read p n := by
  refine List.map_congr_left fun i hi => ?_
  simp only [write]
  cases hj : q.behind? (p.plus i) with
  | none => rfl
  | some j =>
    have hout : data.length ≤ j := by
      by_contra hlt
      exact h i (List.mem_range.1 hi) j (by omega) (Place.eq_plus_of_behind? hj)
    rw [Option.bind_some, List.getElem?_eq_none hout]
    rfl

/-- Writing what is there changes nothing. -/
theorem write_read (σ : Store) (p : Place) (n : Nat) : σ.write p (σ.read p n) = σ := by
  ext q
  simp only [write]
  cases hi : p.behind? q with
  | none => rfl
  | some i =>
    rw [Option.bind_some]
    by_cases hlt : i < n
    · rw [getElem?_read _ _ hlt, ← Place.eq_plus_of_behind? hi]
      rfl
    · rw [List.getElem?_eq_none (by rw [length_read]; omega)]
      rfl

/-- The number that lies at a place; a REAL counts ten-thousandths. -/
def number (σ : Store) (p : Place) (n : Nat) : Int := Word.signed (σ.read p n)

theorem fits_number (σ : Store) (p : Place) (n : Nat) : Word.Fits n (σ.number p n) := by
  have h := Word.fits_signed (σ.read p n)
  rwa [length_read] at h

end Store

namespace Completion

variable {c : Completion} {f g : Store → Completion}

theorem andThen_assoc (c : Completion) (f g : Store → Completion) :
    (c.andThen f).andThen g = c.andThen fun σ => (f σ).andThen g := by
  cases c <;> rfl

theorem andThen_congr (h : ∀ σ, c = .next σ → f σ = g σ) : c.andThen f = c.andThen g := by
  cases c with
  | next σ => exact h σ rfl
  | returned σ | faulted e | unfinished => rfl

end Completion

/-! ## Counting loops -/

/-- Where a counting loop has its numbers: the counter, which takes some bytes, and what it keeps in
the frame. -/
structure Tally where
  counter : Place
  size : Nat
  temps : Temps

namespace Tally

/-- The store with another number in the counter, cut to its width. -/
def set (k : Tally) (σ : Store) (x : Int) : Store := σ.write k.counter (Word.ofInt k.size x)

/-- The end of a loop. -/
def finish (k : Tally) (σ : Store) : Int := σ.number (.frame k.temps.finish) k.size

/-- The step of a loop. -/
def step (k : Tally) (σ : Store) : Int := σ.number (.frame k.temps.step) k.size

/-- A loop is over once counter minus end, cut to the width of the counter, has the sign kept. -/
def isOver (k : Tally) (σ : Store) : Bool :=
  σ.read (.frame k.temps.sign) 1 ==
    Word.ofInt 1 (Int.bmod (σ.number k.counter k.size - k.finish σ) (256 ^ k.size)).sign

/-- The counter is moved on. -/
def next (k : Tally) (σ : Store) : Store := k.set σ (σ.number k.counter k.size + k.step σ)

/-- A loop of at most some rounds, given what its body makes of a store. -/
def turns (k : Tally) (body : Store → Completion) : Nat → Store → Completion
  | 0, _ => .unfinished
  | n + 1, σ => if k.isOver σ then .next σ else
      (body σ).andThen fun σ => k.turns body n (k.next σ)

/-- The body for each of some numbers, one after the other. -/
def each (k : Tally) (body : Store → Completion) : List Int → Store → Completion
  | [], σ => .next σ
  | x :: rest, σ => (body (k.set σ x)).andThen (k.each body rest)

/-- The counter and what the loop keeps lie apart. -/
structure Apart (k : Tally) : Prop where
  finish : (Place.frame k.temps.finish).Apart k.size k.counter k.size
  step : (Place.frame k.temps.step).Apart k.size k.counter k.size
  sign : (Place.frame k.temps.sign).Apart 1 k.counter k.size
  finish_step : (Place.frame k.temps.finish).Apart k.size (.frame k.temps.step) k.size
  finish_sign : (Place.frame k.temps.finish).Apart k.size (.frame k.temps.sign) 1
  step_sign : (Place.frame k.temps.step).Apart k.size (.frame k.temps.sign) 1

example : (Tally.mk (.frame (-2)) 2 ⟨-4, -6, -7⟩).Apart := by constructor <;> decide

/-- Two stores have the same numbers for the loop. -/
structure Agree (k : Tally) (σ σ' : Store) : Prop where
  counter : σ'.read k.counter k.size = σ.read k.counter k.size
  finish : σ'.read (.frame k.temps.finish) k.size = σ.read (.frame k.temps.finish) k.size
  step : σ'.read (.frame k.temps.step) k.size = σ.read (.frame k.temps.step) k.size
  sign : σ'.read (.frame k.temps.sign) 1 = σ.read (.frame k.temps.sign) 1

/-- The body changes neither the counter nor what the loop keeps. -/
def KeptBy (k : Tally) (body : Store → Completion) : Prop :=
  ∀ σ σ', body σ = .next σ' → k.Agree σ σ'

/-- What is kept as the sign is the sign of the step. -/
def Signed (k : Tally) (σ : Store) : Prop :=
  σ.read (.frame k.temps.sign) 1 = Word.ofInt 1 (k.step σ).sign

variable {k : Tally} {σ σ' : Store} {x : Int} {body : Store → Completion} {fuel : Nat}

theorem read_set (k : Tally) (σ : Store) (x : Int) :
    (k.set σ x).read k.counter k.size = Word.ofInt k.size x := by
  have h := σ.read_write_self k.counter (Word.ofInt k.size x)
  rwa [Word.length_ofInt] at h

@[simp] theorem number_set (k : Tally) (σ : Store) (x : Int) :
    (k.set σ x).number k.counter k.size = Int.bmod x (256 ^ k.size) := by
  rw [Store.number, read_set, Word.signed_ofInt, Word.span_eq]

/-- The counter has its own number. -/
theorem set_number (k : Tally) (σ : Store) : k.set σ (σ.number k.counter k.size) = σ := by
  have h := Word.ofInt_signed (σ.read k.counter k.size)
  rw [Store.length_read] at h
  rw [set, Store.number, h, Store.write_read]

namespace Apart

theorem finish_set (h : k.Apart) (σ : Store) (x : Int) : k.finish (k.set σ x) = k.finish σ := by
  rw [Tally.finish, Tally.finish, Store.number, Store.number, set,
    Store.read_write_of_apart (by rw [Word.length_ofInt]; exact h.finish)]

theorem step_set (h : k.Apart) (σ : Store) (x : Int) : k.step (k.set σ x) = k.step σ := by
  rw [Tally.step, Tally.step, Store.number, Store.number, set,
    Store.read_write_of_apart (by rw [Word.length_ofInt]; exact h.step)]

theorem sign_set (h : k.Apart) (σ : Store) (x : Int) :
    (k.set σ x).read (.frame k.temps.sign) 1 = σ.read (.frame k.temps.sign) 1 := by
  rw [set, Store.read_write_of_apart (by rw [Word.length_ofInt]; exact h.sign)]

/-- The test looks at the difference of counter and end, cut to the width of the counter. -/
theorem isOver_set (h : k.Apart) (hsign : k.Signed σ) (x : Int) :
    k.isOver (k.set σ x) = true ↔
      (Int.bmod (x - k.finish σ) (256 ^ k.size)).sign = (k.step σ).sign := by
  rw [isOver, beq_iff_eq, number_set, h.finish_set, h.sign_set, hsign, Int.bmod_sub_bmod,
    Word.ofInt_sign_inj, eq_comm]

/-- **The test is right if the difference of counter and end fits.** -/
theorem isOver_of_fits (h : k.Apart) (hsign : k.Signed σ) (hstep : k.step σ ≠ 0)
    (hfit : Word.Fits k.size (x - k.finish σ)) :
    k.isOver (k.set σ x) = true ↔ ¬ Counting.InRange (k.finish σ) (k.step σ) x := by
  rw [h.isOver_set hsign, hfit.bmod, Counting.sign_eq_iff hstep]

/-- **The test is wrong if the difference of counter and end does not fit.** -/
theorem isOver_of_not_fits (h : k.Apart) (hsign : k.Signed σ) (hstep : k.step σ ≠ 0)
    (hx : Word.Fits k.size x) (hfit : ¬ Word.Fits k.size (x - k.finish σ)) :
    k.isOver (k.set σ x) = true ↔ Counting.InRange (k.finish σ) (k.step σ) x := by
  have hne : x - k.finish σ ≠ 0 := by
    intro hzero
    exact hfit (hzero ▸ Word.fits_zero k.size)
  have hfinish : Word.Fits k.size (k.finish σ) := σ.fits_number _ k.size
  rw [h.isOver_set hsign, Counting.sign_bmod_of_not_fits hx hfinish hfit,
    Counting.neg_sign_eq_iff hstep hne]

end Apart

namespace Agree

variable (h : k.Agree σ σ')
include h

theorem finish_eq : k.finish σ' = k.finish σ := congrArg Word.signed h.finish

theorem step_eq : k.step σ' = k.step σ := congrArg Word.signed h.step

theorem signed (hsign : k.Signed σ) : k.Signed σ' := by
  rw [Signed, h.sign, h.step_eq]
  exact hsign

/-- What the loop goes on with is what the body was run with, a step further. -/
theorem next_eq (hx : σ.number k.counter k.size = Int.bmod x (256 ^ k.size)) :
    k.next σ' = k.set σ' (x + k.step σ) := by
  have hnumber : σ'.number k.counter k.size = Int.bmod x (256 ^ k.size) :=
    (congrArg Word.signed h.counter).trans hx
  have hbytes : Word.ofInt k.size (Int.bmod x (256 ^ k.size) + k.step σ) =
      Word.ofInt k.size (x + k.step σ) := Word.ofInt_eq_of_bmod_eq Int.bmod_add_bmod
  rw [next, hnumber, h.step_eq, set, set, hbytes]

end Agree

/-- The loop from a number on, the difference of which to the end fits. -/
theorem turns_set (h : k.Apart) (hbody : k.KeptBy body) (hsign : k.Signed σ) (hstep : k.step σ ≠ 0)
    (hfit : Word.Fits k.size (x - k.finish σ))
    (hfuel : Counting.steps (k.finish σ) (k.step σ) x < fuel) :
    k.turns body fuel (k.set σ x) =
      (k.each body (Counting.range (k.finish σ) (k.step σ) x) σ).andThen fun σ' =>
        .next (k.set σ' (x + Counting.steps (k.finish σ) (k.step σ) x * k.step σ)) := by
  induction fuel generalizing σ x with
  | zero => exact (Nat.not_lt_zero _ hfuel).elim
  | succ fuel ih =>
    have hover := h.isOver_of_fits hsign hstep hfit
    rw [turns]
    by_cases hx : Counting.InRange (k.finish σ) (k.step σ) x
    · have hsteps := Counting.steps_of_inRange hx hstep
      rw [if_neg (by rw [hover]; exact not_not_intro hx), Counting.range_of_inRange hx hstep, each,
        Completion.andThen_assoc]
      refine Completion.andThen_congr fun σ' hσ' => ?_
      -- the body was run with the counter set, and leaves what the loop keeps alone
      have hagree := hbody _ _ hσ'
      have hfinish := hagree.finish_eq.trans (h.finish_set σ x)
      have hstep' := hagree.step_eq.trans (h.step_set σ x)
      have hsigned : k.Signed (k.set σ x) := by
        rw [Signed, h.sign_set, h.step_set]
        exact hsign
      have hfit' := Counting.fits_step hx hfit (σ.fits_number (.frame k.temps.step) k.size)
      rw [hagree.next_eq (k.number_set σ x), h.step_set,
        ih (hagree.signed hsigned) (hstep' ▸ hstep) (by rw [hfinish]; exact hfit')
          (by rw [hfinish, hstep']; omega), hfinish, hstep', hsteps]
      refine Completion.andThen_congr fun σ'' _ =>
        congrArg (fun y => Completion.next (k.set σ'' y)) ?_
      push_cast
      ring
    · rw [if_pos (hover.2 hx), Counting.range_of_not_inRange hx hstep,
        Counting.steps_of_not_inRange hx hstep, each]
      simp [Completion.andThen]

/-- **A counting loop runs its body for the numbers from its start to its end, in this order, and
for nothing else**, if their difference fits the counter; the counter is then one step further. -/
theorem turns_eq (h : k.Apart) (hbody : k.KeptBy body) (hsign : k.Signed σ) (hstep : k.step σ ≠ 0)
    {start : Int} (hstart : σ.number k.counter k.size = start)
    (hfit : Word.Fits k.size (start - k.finish σ))
    (hfuel : Counting.steps (k.finish σ) (k.step σ) start < fuel) :
    k.turns body fuel σ =
      (k.each body (Counting.range (k.finish σ) (k.step σ) start) σ).andThen fun σ' =>
        .next (k.set σ' (start + Counting.steps (k.finish σ) (k.step σ) start * k.step σ)) := by
  have hturns := turns_set h hbody hsign hstep hfit hfuel
  rwa [← hstart, k.set_number, hstart] at hturns

/-- **If the difference of start and end does not fit the counter, the first test goes wrong**: the
loop is left at once if there is anything to count, and the body is run if there is nothing. -/
theorem turns_succ_of_not_fits (h : k.Apart) (hsign : k.Signed σ) (hstep : k.step σ ≠ 0)
    {start : Int} (hstart : σ.number k.counter k.size = start)
    (hfit : ¬ Word.Fits k.size (start - k.finish σ)) (body : Store → Completion) (n : Nat) :
    k.turns body (n + 1) σ =
      if Counting.InRange (k.finish σ) (k.step σ) start then .next σ
      else (body σ).andThen fun σ' => k.turns body n (k.next σ') := by
  have hover := h.isOver_of_not_fits hsign hstep (hstart ▸ σ.fits_number _ _) hfit
  rw [← hstart, k.set_number, hstart] at hover
  rw [turns]
  exact if_congr hover rfl rfl

end Tally

end ChannelBasic
