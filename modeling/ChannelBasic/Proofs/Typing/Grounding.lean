import ChannelBasic.Program.Analysis
import ChannelBasic.Proofs.Program.Lowering
import ChannelBasic.Proofs.Typing.Orderly

/-!
# Proofs/Typing/Grounding — constants and lengths are evaluated from the ground up

A constant is open while its value and its type are looked at, a length while its value is.  What is
open depends on what is asked for next, so an open constant that is asked for **depends on itself**;
and open constants are different, so the bound to how many may be open is never met.  What has been
evaluated depends on what has been evaluated before, and **is grounded** (`answers_constantWithin`).
-/

namespace ChannelBasic

open Relation

/-! ## Layers of a type -/

namespace TypeTable

/-- A length stands in a type, below so many pointers and CONST. -/
inductive HoldsAt (t : TypeTable) (n : Nat) : Nat → TypeId → Prop
  | pending {id : TypeId} (h : t.get id = .pending n) : t.HoldsAt n 0 id
  | pointer {id inner : TypeId} {k : Nat} (h : t.get id = .pointer inner)
    (hn : t.HoldsAt n k inner) : t.HoldsAt n (k + 1) id
  | constant {id inner : TypeId} {k : Nat} (h : t.get id = .constant inner)
    (hn : t.HoldsAt n k inner) : t.HoldsAt n (k + 1) id

variable {t : TypeTable} {n k l : Nat} {id : TypeId}

theorem Holds.exists_at (h : t.Holds n id) : ∃ k, t.HoldsAt n k id := by
  induction h with
  | pending h => exact ⟨0, .pending h⟩
  | pointer h _ ih =>
    obtain ⟨k, hk⟩ := ih
    exact ⟨k + 1, .pointer h hk⟩
  | constant h _ ih =>
    obtain ⟨k, hk⟩ := ih
    exact ⟨k + 1, .constant h hk⟩

theorem HoldsAt.unique (h : t.HoldsAt n k id) (h' : t.HoldsAt n l id) : k = l := by
  induction h generalizing l with
  | pending h => cases h' <;> simp_all
  | pointer h _ ih =>
    cases h' with
    | pointer h' hn =>
      obtain rfl := DataType.pointer.inj (h.symm.trans h')
      rw [ih hn]
    | _ => simp_all
  | constant h _ ih =>
    cases h' with
    | constant h' hn =>
      obtain rfl := DataType.constant.inj (h.symm.trans h')
      rw [ih hn]
    | _ => simp_all

/-- The types that stand one below the other are different types of the table. -/
theorem HoldsAt.exists_path (h : t.HoldsAt n k id) (hid : id < t.entries.size) (hf : t.Flat) :
    ∃ path : List TypeId, path.length = k + 1 ∧ path.Nodup ∧
      ∀ i ∈ path, i < t.entries.size ∧ ∃ l ≤ k, t.HoldsAt n l i := by
  -- a type that was lower down is not met again: it would be lower than itself
  have longer {id : TypeId} {k : Nat} (h : t.HoldsAt n (k + 1) id)
      (hid : id < t.entries.size) {path : List TypeId} (hlength : path.length = k + 1)
      (hnodup : path.Nodup)
      (hpath : ∀ i ∈ path, i < t.entries.size ∧ ∃ l ≤ k, t.HoldsAt n l i) :
      ∃ path : List TypeId, path.length = k + 1 + 1 ∧ path.Nodup ∧
        ∀ i ∈ path, i < t.entries.size ∧ ∃ l ≤ k + 1, t.HoldsAt n l i := by
    refine ⟨id :: path, by simp [hlength], List.nodup_cons.2 ⟨fun hmem => ?_, hnodup⟩, ?_⟩
    · obtain ⟨-, l, hl, hlid⟩ := hpath id hmem
      have := h.unique hlid
      omega
    · intro i hi
      obtain rfl | hi := List.mem_cons.1 hi
      · exact ⟨hid, k + 1, le_rfl, h⟩
      · obtain ⟨hlt, l, hl, hli⟩ := hpath i hi
        exact ⟨hlt, l, hl.trans (Nat.le_succ k), hli⟩
  induction h with
  | @pending id h =>
    refine ⟨[id], rfl, by simp, fun i hi => ?_⟩
    obtain rfl := List.mem_singleton.1 hi
    exact ⟨hid, 0, le_rfl, .pending h⟩
  | pointer h hn ih =>
    obtain ⟨path, hlength, hnodup, hpath⟩ := ih (hf.pointer _ _ h)
    exact longer (.pointer h hn) hid hlength hnodup hpath
  | constant h hn ih =>
    obtain ⟨path, hlength, hnodup, hpath⟩ := ih (hf.constant _ _ h).1
    exact longer (.constant h hn) hid hlength hnodup hpath

/-- A type has fewer layers than the table has types. -/
theorem HoldsAt.lt_size (h : t.HoldsAt n k id) (hid : id < t.entries.size) (hf : t.Flat) :
    k < t.entries.size := by
  obtain ⟨path, hlength, hnodup, hpath⟩ := h.exists_path hid hf
  have hle := length_le_of_nodup hnodup fun i hi => (hpath i hi).1
  omega

end TypeTable

variable {p : Program} {bound : Nat} {s s' : CheckState} {id : TypeId}

/-! ## What evaluating a definition does to what is known -/

/-- While a constant is open, what it depends on is awaited. -/
theorem CheckState.Awaits.open_constant {k : Nat} {d : Definition}
    (ha : s.Awaits p (.constant k)) (h : p.Depends (.constant k) d) :
    ({ s with openConstants := k :: s.openConstants } : CheckState).Awaits p d where
  constants m hm := by
    obtain rfl | hm := List.mem_cons.1 hm
    · exact .single h
    · exact (ha.tail h).constants m hm
  lengths := (ha.tail h).lengths

/-- While a length is open, what it depends on is awaited. -/
theorem CheckState.Awaits.open_length {n : Nat} {d : Definition}
    (ha : s.Awaits p (.length n)) (h : p.Depends (.length n) d) :
    ({ s with openLengths := n :: s.openLengths } : CheckState).Awaits p d where
  constants := (ha.tail h).constants
  lengths m hm := by
    obtain rfl | hm := List.mem_cons.1 hm
    · exact .single h
    · exact (ha.tail h).lengths m hm

/-- What holds of the constants that were there and of a new one holds after it is put in. -/
theorem forall_setIfInBounds {P : Nat → Constant → Prop} {constants : Array Constant} {k : Nat}
    {new : Constant} (hnew : P k new)
    (hold : ∀ (i : Nat) (c : Constant), constants[i]? = some c → P i c) (i : Nat) (c : Constant)
    (hc : (constants.setIfInBounds k new)[i]? = some c) : P i c := by
  rw [Array.getElem?_setIfInBounds] at hc
  split at hc
  next hi =>
    subst hi
    split at hc
    · obtain rfl := Option.some.inj hc
      exact hnew
    · cases hc
  next => exact hold i c hc

namespace CheckState.Orderly

/-- The lengths that are open do not matter. -/
theorem openLengths (hs : s.Orderly p bound) (openLengths : List Nat) :
    ({ s with openLengths } : CheckState).Orderly p bound :=
  ⟨hs.count, hs.waiting, hs.settles, hs.values, hs.grounded, hs.size, hs.entries, hs.distinct,
    hs.within, hs.room⟩

/-- A length that is still to be evaluated is where it was written. -/
theorem pending (hs : s.Orderly p bound) (hid : id < p.types.entries.size) {n : Nat}
    (h : s.types.get id = .pending n) : p.types.get id = .pending n := by
  obtain heq | ⟨m, c, -, hc, -⟩ := hs.entries id hid
  · rw [← heq, h]
  · rw [hc] at h
    cases h

/-- A length that is not still to be evaluated is grounded. -/
theorem grounded_length (hs : s.Orderly p bound) (hid : id < p.types.entries.size)
    (h : ∀ n, s.types.get id ≠ .pending n) {n : Nat} (hn : p.types.get id = .pending n) :
    p.Grounded (.length n) := by
  obtain heq | ⟨m, c, hm, -, hg⟩ := hs.entries id hid
  · exact absurd (heq.trans hn) (h n)
  · obtain rfl := DataType.pending.inj (hn.symm.trans hm)
    exact hg

/-- What names evaluated constants only depends on nothing that does not come to an end. -/
theorem grounded_of_named (hs : s.Orderly p bound) {e : Expr}
    (h : ∀ k, e.Names k → s.Evaluated k) : ∀ k, e.Names k → p.Grounded (.constant k) := by
  intro k hk
  obtain ⟨c, hc, hf⟩ := h k hk
  exact hs.grounded k c hc hf

/-- A length that has been evaluated is put where it was written. -/
theorem resolve (hs : s.Orderly p bound) (hid : id < p.types.entries.size) {n : Nat}
    (h : s.types.get id = .pending n) (hg : p.Grounded (.length n)) (c : Option Nat)
    (openLengths : List Nat) : ({ s with
      types := s.types.resolve id (.string c), openLengths } : CheckState).Orderly p bound where
  count := hs.count
  waiting := hs.waiting
  settles := hs.settles
  values k d hd hf := by
    have hE := TypeTable.extends_resolve (d := .string c) (by rw [h]; rfl) nofun
    obtain ⟨v, hv⟩ := Option.isSome_iff_exists.1 hf
    rw [hv, ← Expr.fold_mono hE rfl (fun _ _ h => h) ((hs.values k d hd hf).trans hv)]
    rfl
  grounded := hs.grounded
  size := by simpa [TypeTable.resolve] using hs.size
  entries i hi := by
    rw [TypeTable.get_resolve]
    split
    next heq =>
      obtain ⟨rfl, -⟩ := heq
      exact .inr ⟨n, c, hs.pending hid h, rfl, hg⟩
    next => exact hs.entries i hi
  distinct := hs.distinct
  within := hs.within
  room := hs.room

/-- A constant that is opened leaves room for fewer. -/
theorem opening (hs : s.Orderly p (bound + 1)) {k : Nat} (hk : k ∉ s.openConstants)
    (hlt : k < p.constants.size) :
    ({ s with openConstants := k :: s.openConstants } : CheckState).Orderly p bound :=
  ⟨hs.count, hs.waiting, hs.settles, hs.values, hs.grounded, hs.size, hs.entries,
    List.nodup_cons.2 ⟨hk, hs.distinct⟩, by
      intro i hi
      obtain rfl | hi := List.mem_cons.1 hi
      · exact hlt
      · exact hs.within i hi, by
      have hroom := hs.room
      simp only [List.length_cons]
      omega⟩

/-- A constant that gets its value is closed. -/
theorem closing (hs : s.Orderly p bound) {k : Nat} {c new : Constant} {open' : List Nat}
    (hopen : s.openConstants = k :: open') (hc : s.constants[k]? = some c) (hf : c.folded = none)
    (hv : new.folded.isSome = true) (hsettles : new.value.Settles s.constants)
    (hfold : new.value.fold s.types s.constantValue = new.folded) (hg : p.Grounded (.constant k)) :
    ({ s with constants := s.constants.setIfInBounds k new,
              openConstants := open' } : CheckState).Orderly p (bound + 1) := by
  have hnodup := hopen ▸ hs.distinct
  -- constants with a value are others than the one that was open
  have kept (i : Nat) (d : Constant) (hd : s.constants[i]? = some d)
      (hdf : d.folded.isSome = true) : (s.constants.setIfInBounds k new)[i]? = some d := by
    have hne : k ≠ i := by
      rintro rfl
      obtain rfl := Option.some.inj (hc.symm.trans hd)
      rw [hf] at hdf
      cases hdf
    rwa [Array.getElem?_setIfInBounds_ne hne]
  have values (i : Nat) (v : Literal) (hi : s.constantValue i = some v) :
      ((s.constants.setIfInBounds k new)[i]?).bind (·.folded) = some v := by
    obtain ⟨d, hd, hdv⟩ := Option.bind_eq_some_iff.1 hi
    exact Option.bind_eq_some_iff.2 ⟨d, kept i d hd (by rw [hdv]; rfl), hdv⟩
  have refolded {d : Constant} (hd : d.folded.isSome = true)
      (h : d.value.fold s.types s.constantValue = d.folded) : d.value.fold s.types
        (fun i => ((s.constants.setIfInBounds k new)[i]?).bind (·.folded)) = d.folded := by
    obtain ⟨v, hdv⟩ := Option.isSome_iff_exists.1 hd
    rw [hdv]
    exact Expr.fold_mono (.refl _) rfl values (h.trans hdv)
  exact {
    count := by rw [Array.size_setIfInBounds, hs.count]
    waiting := forall_setIfInBounds (P := fun i d => d.folded = none → p.constants[i]? = some d)
      (fun h => by rw [h] at hv; cases hv) hs.waiting
    settles := forall_setIfInBounds (P := fun _ d => d.folded.isSome = true → d.value.Settles _)
      (fun _ => hsettles.mono kept) fun i d hd hdf => (hs.settles i d hd hdf).mono kept
    values := forall_setIfInBounds (P := fun _ d => d.folded.isSome = true → d.value.fold _ _ = d.folded)
      (fun h => refolded h hfold) fun i d hd hdf => refolded hdf (hs.values i d hd hdf)
    grounded := forall_setIfInBounds (P := fun i d => d.folded.isSome = true → p.Grounded (.constant i))
      (fun _ => hg) hs.grounded
    size := hs.size
    entries := hs.entries
    distinct := (List.nodup_cons.1 hnodup).2
    within := fun i hi => hs.within i (hopen ▸ List.mem_cons_of_mem _ hi)
    room := by
      have hroom := hs.room
      rw [hopen, List.length_cons] at hroom
      dsimp only
      omega }

end CheckState.Orderly

/-- The declared types of constants stand in the table. -/
def Program.DeclaresTypes (p : Program) : Prop :=
  ∀ (k : Nat) (c : Constant), p.constants[k]? = some c → ∀ t, c.type = some t →
    t < p.types.entries.size

namespace Checking

variable {calculate : Calculator} {g f : ConstantType} {visible : Owner → Nat → Bool}

/-! ## Lengths -/

theorem blames_capacityOf {place : Location} {v : Option Literal} {d : Diagnostic}
    (h : capacityOf place v = .error d) : p.Blames d := by
  unfold capacityOf at h
  split at h
  · split at h
    · cases h
    · obtain rfl := Except.error.inj h
      exact nofun
  · obtain rfl := Except.error.inj h
    exact nofun
  · obtain rfl := Except.error.inj h
    exact nofun

section Lengths

variable (hcalc : p.Faithful calculate) (hc : Answers p bound g f) (hw : p.Written visible)
include hcalc hc hw

/-- **A length is evaluated, and refused for recursion only if it depends on itself.** -/
theorem mimics_resolveLength (hs : s.Orderly p bound) (hid : id < p.types.entries.size)
    (ha : ∀ n, p.types.get id = .pending n → s.Awaits p (.length n)) :
    Mimics (resolveLengthBy calculate p.lengths g id) (resolveLength p.lengths f id) s
      (fun _ s' => s'.Orderly p bound ∧ ∀ n, p.types.get id = .pending n → p.Grounded (.length n))
      p.Blames := by
  unfold resolveLengthBy resolveLength
  refine .reads ?_
  cases hget : s.types.get id with
  | pending n =>
    have hpending := hs.pending hid hget
    have only {m : Nat} (hm : p.types.get id = .pending m) : n = m :=
      DataType.pending.inj (hpending.symm.trans hm)
    dsimp only
    cases hlength : p.lengths[n]? with
    | none =>
      refine .value ⟨hs, fun m hm => ?_⟩
      obtain rfl := only hm
      exact Program.grounded_length (by simp [hlength])
    | some length =>
      refine .reads ?_
      have hblame (h : n ∈ s.openLengths) :
          p.Blames (Rule.recursiveDefinition.here length.location) := fun _ =>
        ⟨.length n, (ha n hpending).lengths n h, by simp [Program.recursion?, hlength]⟩
      refine .ite (fun hopen => .refused_seq (hblame (by simpa using hopen))) fun _ => ?_
      refine .modifies_seq ?_
      refine (mimics_value hcalc hc (hs.openLengths _) (hw.lengths n length hlength) fun k hk =>
        (ha n hpending).open_length (.length hlength hk)).seq fun r s₂ h₂ => ?_
      refine (mimics_calculate hcalc h₂.orderly h₂.settles).seq fun v s₃ h₃ => ?_
      obtain ⟨rfl, -⟩ := h₃
      refine (Mimics.lifts (Q := fun _ s' => s' = s₃) (fun _ _ => rfl)
        fun _ hd => blames_capacityOf hd).seq fun c s₄ h₄ => .modifies ?_
      subst h₄
      have hpending₄ := h₂.moves.pending id n hget List.mem_cons_self
      have hground : p.Grounded (.length n) := Program.grounded_length fun e he => by
        obtain rfl := Option.some.inj (hlength.symm.trans he)
        exact h₂.orderly.grounded_of_named h₂.named
      refine ⟨h₂.orderly.resolve hid hpending₄ hground _ _, fun m hm => ?_⟩
      obtain rfl := only hm
      exact hground
  | _ => exact .value ⟨hs, fun _ => hs.grounded_length hid (by simp [hget])⟩

/-- The lengths below so many pointers and CONST are evaluated. -/
theorem mimics_resolveWithin (layers : Nat) (hs : s.Orderly p bound)
    (hid : id < p.types.entries.size) (ha : ∀ n, p.types.Holds n id → s.Awaits p (.length n)) :
    Mimics (resolveWithinBy calculate p.lengths g layers id) (resolveWithin p.lengths f layers id) s
      (fun _ s' => s'.Orderly p bound ∧
        ∀ n k, p.types.HoldsAt n k id → k < layers → p.Grounded (.length n)) p.Blames := by
  induction layers generalizing id with
  | zero => exact .value ⟨hs, fun _ _ _ h => absurd h (Nat.not_lt_zero _)⟩
  | succ layers ih =>
    unfold resolveWithinBy resolveWithin
    refine .reads ?_
    -- a type that is not a length is the one that is written
    have same {d : DataType} (hget : s.types.get id = d) (hd : ∀ c, d ≠ .string c) :
        p.types.get id = d := by
      obtain heq | ⟨-, c, -, hstring, -⟩ := hs.entries id hid
      · rw [← heq, hget]
      · exact absurd (hget.symm.trans hstring) (hd c)
    cases hget : s.types.get id with
    | pending m =>
      have hp := same hget (by simp)
      refine (mimics_resolveLength hcalc hc hw hs hid fun n hn => ha n (.pending hn)).mono ?_
      rintro _ s' ⟨hs', hg⟩
      refine ⟨hs', fun n k hn _ => ?_⟩
      cases hn with
      | pending h => exact hg n h
      | pointer h | constant h => simp [h] at hp
    | pointer inner =>
      have hp := same hget (by simp)
      refine (ih (hw.flat.pointer id inner hp) fun n hn => ha n (.pointer hp hn)).mono ?_
      rintro _ s' ⟨hs', hg⟩
      refine ⟨hs', fun n k hn hk => ?_⟩
      cases hn with
      | pointer h hn =>
        obtain rfl := DataType.pointer.inj (hp.symm.trans h)
        exact hg n _ hn (Nat.lt_of_succ_lt_succ hk)
      | pending h | constant h => simp [h] at hp
    | constant inner =>
      have hp := same hget (by simp)
      refine (ih (hw.flat.constant id inner hp).1 fun n hn => ha n (.constant hp hn)).mono ?_
      rintro _ s' ⟨hs', hg⟩
      refine ⟨hs', fun n k hn hk => ?_⟩
      cases hn with
      | constant h hn =>
        obtain rfl := DataType.constant.inj (hp.symm.trans h)
        exact hg n _ hn (Nat.lt_of_succ_lt_succ hk)
      | pending h | pointer h => simp [h] at hp
    | scalar | struct | named =>
      have hp := same hget (by simp)
      refine .value ⟨hs, fun n k hn _ => ?_⟩
      cases hn with
      | pending h | pointer h | constant h => simp [h] at hp
    | string c =>
      refine .value ⟨hs, fun n k hn _ => ?_⟩
      cases hn with
      | pending h => exact hs.grounded_length hid (by simp [hget]) h
      | pointer h | constant h =>
        obtain heq | ⟨m, _, hm, -⟩ := hs.entries id hid
        · simp [heq, h] at hget
        · simp [h] at hm

theorem mimics_resolveType (hs : s.Orderly p bound) (hid : id < p.types.entries.size)
    (ha : ∀ n, p.types.Holds n id → s.Awaits p (.length n)) :
    Mimics (resolveTypeBy calculate p.lengths g id) (resolveType p.lengths f id) s
      (fun _ s' => s'.Orderly p bound ∧ ∀ n, p.types.Holds n id → p.Grounded (.length n))
      p.Blames := by
  refine .reads ((mimics_resolveWithin hcalc hc hw _ hs hid ha).mono fun _ s' h => ?_)
  refine ⟨h.1, fun n hn => ?_⟩
  obtain ⟨k, hk⟩ := hn.exists_at
  exact h.2 n k hk (Nat.lt_succ_of_lt ((hk.lt_size hid hw.flat).trans_le hs.size))

/-- The value of a constant as its type wants it can be calculated, and what its type depends on is
evaluated. -/
theorem mimics_declaredValue (hkeep : ∀ k, Keeps Moves (f k)) (hs : s.Orderly p bound) {e : Expr}
    (he : e.Settles s.constants) (actual : TypeId) {declared : Option TypeId}
    (hd : ∀ t, declared = some t → t < p.types.entries.size)
    (ha : ∀ t, declared = some t → ∀ n, p.types.Holds n t → s.Awaits p (.length n)) :
    Mimics (declaredValueBy calculate p.lengths g declared e actual)
      (declaredValue p.lengths f declared e actual) s (fun r s' => s'.Orderly p bound ∧
        r.1.Settles s'.constants ∧ ∀ t, declared = some t → ∀ n, p.types.Holds n t →
          p.Grounded (.length n)) p.Blames := by
  unfold declaredValueBy declaredValue
  cases declared with
  | none => exact .reads (.value ⟨hs, he, nofun⟩)
  | some t =>
    have hkept : Ends (resolveType p.lengths f t) s fun _ s' => Resolves s s' :=
      Ends.reads (keeps_resolveWithin hkeep _ _ s)
    refine ((mimics_resolveType hcalc hc hw hs (hd t rfl) (ha t rfl)).both hkept).seq
      fun _ s₁ h₁ => .reads ?_
    obtain ⟨⟨hs₁, hg⟩, hr⟩ := h₁
    have he₁ := he.grows hr.toGrows
    have hg' : ∀ u, some t = some u → ∀ n, p.types.Holds n u → p.Grounded (.length n) := by
      rintro _ ⟨⟩
      exact hg
    dsimp only
    refine .ite (fun _ => .value ⟨hs₁, he₁, hg'⟩) fun _ => ?_
    refine (mimics_coerce hcalc hs₁ he₁ _ .incompatibleTypes nofun).seq fun e' s₂ h₂ => .value ?_
    obtain ⟨rfl, he'⟩ := h₂
    exact ⟨hs₁, he', hg'⟩

end Lengths

/-! ## Constants -/

/-- **A constant is evaluated after all that it depends on**, and refused for recursion only if it
depends on itself. -/
theorem answers_constantWithin (hcalc : p.Faithful calculate) (hw : p.Written visible)
    (hd : p.DeclaresTypes) (bound : Nat) :
    Answers p bound (constantWithinBy calculate p.lengths bound)
      (constantWithin p.lengths bound) := by
  induction bound with
  | zero => exact fun k s hs _ => absurd hs.bound_pos (lt_irrefl 0)
  | succ bound ih =>
    intro k s hs ha
    have hkeep : ∀ k, Keeps Moves (constantWithin p.lengths bound k) := keeps_constantWithin bound
    refine Mimics.mono (((?_ : Mimics _ _ s (fun _ s' => s'.Orderly p (bound + 1)) p.Blames)).both
      (ends_constantWithin (bound + 1) k s)) ?_
    · unfold constantWithinBy constantWithin
      refine .reads ?_
      cases hck : s.constants[k]? with
      | none => exact .refused (by rintro ⟨⟩)
      | some c =>
        dsimp only
        refine .ite (fun _ => ?_) fun hf => ?_
        · cases c.type with
          | some t => exact .value hs
          | none => exact .refused (by rintro ⟨⟩)
        have hnone : c.folded = none := by simpa using hf
        have hcp := hs.waiting k c hck hnone
        have hblame (h : k ∈ s.openConstants) :
            p.Blames (Rule.recursiveDefinition.about c.location c.name) := fun _ =>
          ⟨.constant k, ha.constants k h, by simp [Program.recursion?, hcp]⟩
        refine .ite (fun hopen => .refused_seq (hblame (by simpa using hopen))) fun hopen => ?_
        have hopen : k ∉ s.openConstants := by simpa using hopen
        have hlt : k < p.constants.size := (Array.getElem?_eq_some_iff.1 hcp).1
        refine .modifies_seq (k := fun _ => { s with openConstants := k :: s.openConstants }) ?_
        refine (mimics_value hcalc ih (hs.opening hopen hlt) (hw.constants k c hcp).2 fun m hm =>
          ha.open_constant (.value hcp hm)).seq fun r s₂ h₂ => ?_
        refine ((mimics_declaredValue hcalc ih hw hkeep h₂.orderly h₂.settles r.2 (hd k c hcp)
          fun t ht n hn => (ha.open_constant (.type hcp ht hn)).grows h₂.moves.toGrows).both
            (keeps_declaredValue hkeep _ _ _ _)).seq fun r' s₃ h₃ => ?_
        obtain ⟨⟨hs₃, he, hlengths⟩, hr⟩ := h₃
        have hg := h₂.moves.toGrows.trans hr.toGrows
        refine (mimics_calculate hcalc hs₃ he).seq fun v s₄ h₄ => ?_
        obtain ⟨rfl, hv⟩ := h₄
        cases v with
        | none => exact .refused (by rintro ⟨⟩)
        | some v =>
          refine .modifies_seq (.value ?_)
          let new : Constant := { c with type := some r'.2, value := r'.1, folded := some v }
          have hground : p.Grounded (.constant k) := Program.grounded_constant
            (fun d hd m hm => by
              obtain rfl := Option.some.inj (hcp.symm.trans hd)
              exact h₂.orderly.grounded_of_named h₂.named m hm)
            fun d hd => by
              obtain rfl := Option.some.inj (hcp.symm.trans hd)
              exact hlengths
          have hheld := (hg.held k List.mem_cons_self).trans hck
          have hvalued : new.folded.isSome = true := rfl
          rw [hg.openConstants, List.erase_cons_head]
          exact hs₃.closing hg.openConstants hheld hnone hvalued he hv.symm hground
    · rintro t s' ⟨hs', hm, c, hc, -, hf⟩
      exact ⟨hs', hm, c, hc, hf⟩

end Checking

end ChannelBasic
