import Mathlib.Tactic.IntervalCases
import ChannelBasic.Types.Table

/-!
# Proofs/Types/Shape — what instructions have to know about a type

The `Shape` of a type is the type without names and CONST: how its values lie in memory and which
instruction operand names it.  The table of types grows and its unresolved entries are resolved, but
**a type that has a shape keeps it** (`Extends.shape?`), and analogous types have one shape.
-/

namespace ChannelBasic

open Code

/-- How values of a type lie in memory. -/
inductive Shape where
  | scalar (type : Scalar)
  | string (capacity : Nat)
  | pointer
  /-- A structured type, by its number. -/
  | struct (number : Nat)
  deriving DecidableEq, Repr, Inhabited

namespace Scalar

/-- How instructions name a plain type. -/
@[grind =] def kind : Scalar → ValueType
  | .boolean => .boolean
  | .byte => .byte
  | .short => .short
  | .integer => .integer
  | .long => .long
  | .real => .real

/-- The numeric types but REAL. -/
@[grind =] def isIntegral : Scalar → Bool
  | .byte | .short | .integer | .long => true
  | .boolean | .real => false

/-- The numeric types. -/
@[grind =] def isNumeric : Scalar → Bool
  | .boolean => false
  | _ => true

/-- The type of a product of two values of a type. -/
def widened : Scalar → Scalar
  | .byte => .short
  | .short => .integer
  | s => s

theorem isNumeric_iff_rank? {s : Scalar} : s.isNumeric = true ↔ ∃ r, s.rank? = some r := by
  cases s <;> simp [isNumeric, rank?]

theorem ofRank_eq_of_rank? {s : Scalar} {r : Nat} (h : s.rank? = some r) : ofRank r = s := by
  cases s <;> simp [rank?] at h <;> subst h <;> rfl

theorem rank?_lt_five {s : Scalar} {r : Nat} (h : s.rank? = some r) :
    r < 5 ↔ s.isIntegral = true := by
  cases s <;> simp [rank?] at h <;> subst h <;> simp [isIntegral]

theorem isIntegral_kind (s : Scalar) : s.kind.isIntegral = s.isIntegral := by cases s <;> rfl

theorem isNumeric_of_isIntegral {s : Scalar} (h : s.isIntegral = true) : s.isNumeric = true := by
  cases s <;> simp_all [isIntegral, isNumeric]

theorem size_le_eight (s : Scalar) : s.size ≤ 8 := by cases s <;> decide

theorem size_pos (s : Scalar) : 0 < s.size := by cases s <;> decide

end Scalar

namespace Shape

/-- How instructions name a type of this shape. -/
@[grind =] def kind : Shape → ValueType
  | .scalar s => s.kind
  | .string _ => .string
  | .pointer => .pointer
  | .struct _ => .struct

/-- The bytes of a value, `sizes` knowing those of structured types. -/
@[grind =] def size? (sizes : List (Nat × Nat)) : Shape → Option Nat
  | .scalar s => some s.size
  | .string capacity => some (stringSize capacity)
  | .pointer => some 4
  | .struct number => sizes.lookup number

/-- Whether a shape is a number's. -/
@[grind =] def isNumeric : Shape → Bool
  | .scalar s => s.isNumeric
  | _ => false

end Shape

/-- The shape of an entry that has one. -/
@[grind =] def DataType.shape? : DataType → Option Shape
  | .scalar s => some (.scalar s)
  | .string (some capacity) => some (.string capacity)
  | .pointer _ => some .pointer
  | .struct number _ => some (.struct number)
  | _ => none

theorem DataType.isUnresolved_of_shape? {d : DataType} {σ : Shape} (h : d.shape? = some σ) :
    d.isUnresolved = false := by
  cases d <;> simp_all [shape?, isUnresolved]

namespace TypeTable

variable {t t' t'' : TypeTable} {id a b : TypeId} {σ : Shape}

/-- The shape of a type, once it is known. -/
def shape? (t : TypeTable) (id : TypeId) : Option Shape := (t.baseEntry id).shape?

/-! ## Questions answered by the shape -/

theorem size?_eq (t : TypeTable) (id : TypeId) :
    t.size? id = (t.shape? id).bind (Shape.size? t.structSizes) := by
  unfold size? shape?
  cases t.baseEntry id with
  | string c => cases c <;> rfl
  | _ => rfl

theorem shape?_of_size? {n : Nat} (h : t.size? id = some n) :
    ∃ σ, t.shape? id = some σ ∧ σ.size? t.structSizes = some n := by
  rw [size?_eq] at h
  exact Option.bind_eq_some_iff.1 h

theorem valueType_eq (h : t.shape? id = some σ) : t.valueType id = σ.kind := by
  unfold shape? at h
  unfold valueType
  revert h
  cases t.baseEntry id with
  | scalar s => cases s <;> simp [DataType.shape?] <;> rintro rfl <;> rfl
  | string c =>
    cases c
    · simp [DataType.shape?]
    · simp [DataType.shape?]
      rintro rfl
      rfl
  | _ => simp [DataType.shape?] <;> rintro rfl <;> rfl

theorem rank?_eq_some {r : Nat} (h : t.rank? id = some r) :
    ∃ s, t.shape? id = some (.scalar s) ∧ s.rank? = some r := by
  unfold rank? at h
  unfold shape?
  revert h
  cases t.baseEntry id <;> simp [DataType.shape?]

theorem rank?_of_shape? {s : Scalar} (h : t.shape? id = some (.scalar s)) : t.rank? id = s.rank? := by
  unfold shape? at h
  unfold rank?
  revert h
  cases t.baseEntry id with
  | string c => cases c <;> simp [DataType.shape?]
  | _ => simp [DataType.shape?] <;> rintro rfl <;> rfl

theorem isNumeric_iff :
    t.isNumeric id = true ↔ ∃ s, t.shape? id = some (.scalar s) ∧ s.isNumeric = true := by
  rw [isNumeric, Option.isSome_iff_exists]
  constructor
  · rintro ⟨r, h⟩
    obtain ⟨s, hs, hr⟩ := rank?_eq_some h
    exact ⟨s, hs, Scalar.isNumeric_iff_rank?.2 ⟨r, hr⟩⟩
  · rintro ⟨s, hs, hn⟩
    rw [rank?_of_shape? hs]
    exact Scalar.isNumeric_iff_rank?.1 hn

theorem isIntegral_iff :
    t.isIntegral id = true ↔ ∃ s, t.shape? id = some (.scalar s) ∧ s.isIntegral = true := by
  unfold isIntegral
  constructor
  · intro h
    split at h
    next r hr =>
      obtain ⟨s, hs, hsr⟩ := rank?_eq_some hr
      exact ⟨s, hs, (Scalar.rank?_lt_five hsr).1 (by simpa using h)⟩
    next => cases h
  · rintro ⟨s, hs, hi⟩
    obtain ⟨r, hr⟩ := Scalar.isNumeric_iff_rank?.1 (Scalar.isNumeric_of_isIntegral hi)
    rw [rank?_of_shape? hs, hr]
    simpa using (Scalar.rank?_lt_five hr).2 hi

theorem capacity?_iff {c : Nat} : t.capacity? id = some c ↔ t.shape? id = some (.string c) := by
  unfold capacity? shape?
  cases t.baseEntry id with
  | string c => cases c <;> simp [DataType.shape?]
  | _ => simp [DataType.shape?]

theorem isString_of_shape? {c : Nat} (h : t.shape? id = some (.string c)) :
    t.isString id = true := by
  unfold shape? at h
  unfold isString
  revert h
  cases t.baseEntry id <;> simp [DataType.shape?]

theorem shape?_of_isString (h : t.isString id = true) (hσ : t.shape? id = some σ) :
    ∃ c, σ = .string c := by
  unfold shape? at hσ
  unfold isString at h
  revert h hσ
  cases t.baseEntry id with
  | string c =>
    cases c
    · simp [DataType.shape?]
    · simp [DataType.shape?]
      exact fun h => ⟨_, h.symm⟩
  | _ => simp

theorem shape?_of_pointee? {p : TypeId} (h : t.pointee? id = some p) :
    t.shape? id = some .pointer := by
  unfold pointee? at h
  unfold shape?
  revert h
  cases t.baseEntry id <;> simp [DataType.shape?]

theorem shape?_of_struct? {n : Nat} (h : t.struct? id = some n) :
    t.shape? id = some (.struct n) := by
  unfold struct? at h
  unfold shape?
  revert h
  cases t.baseEntry id <;> simp [DataType.shape?]

theorem struct?_of_shape? {n : Nat} (h : t.shape? id = some (.struct n)) :
    t.struct? id = some n := by
  unfold shape? at h
  unfold struct?
  revert h
  cases t.baseEntry id with
  | string c => cases c <;> simp [DataType.shape?]
  | _ => simp [DataType.shape?]

theorem base_of_isConstant (h : t.isConstant id = false) : t.base id = id := by
  unfold isConstant at h
  unfold base
  split at h <;> simp_all

/-- A type that is neither CONST nor without a size has a shape. -/
theorem shape?_of_isAbstract (hc : t.isConstant id = false) (ha : t.isAbstract id = false) :
    ∃ σ, t.shape? id = some σ := by
  have hb := base_of_isConstant hc
  unfold isConstant at hc
  unfold isAbstract at ha
  unfold shape?
  unfold baseEntry at ha ⊢
  rw [hb] at ha ⊢
  revert hc ha
  cases t.get id with
  | string c => cases c <;> simp [DataType.shape?]
  | _ => simp [DataType.shape?]

/-- **CONST has no shape of its own**: a type with a shape and its base have the same. -/
theorem shape?_base (h : t.shape? id = some σ) : t.shape? (t.base id) = some σ := by
  have hb : t.base (t.base id) = t.base id := by
    unfold shape? baseEntry at h
    rw [base]
    revert h
    cases t.get (t.base id) <;> simp [DataType.shape?]
  rw [shape?, baseEntry, hb]
  exact h

/-- **Analogous types have one shape.** -/
theorem shape?_of_isAnalog (h : t.isAnalog a b = true) : t.shape? a = t.shape? b := by
  have key : ∀ bound (x y : TypeId), t.sameWithin bound x y = true →
      (t.get x).shape? = (t.get y).shape? := by
    intro bound x y hxy
    cases bound with
    | zero =>
      have : x = y := by simpa [sameWithin] using hxy
      rw [this]
    | succ bound =>
      rw [sameWithin, Bool.or_eq_true] at hxy
      obtain hxy | hxy := hxy
      · rw [eq_of_beq hxy]
      · split at hxy
        next hx hy => rw [hx, hy]; rfl
        next hx hy => rw [hx, hy]; rfl
        next => rw [eq_of_beq hxy]
  exact key _ _ _ h

/-! ## Tables that grow -/

/-- A table that has grown out of another: what was resolved stays, and an entry that was there is
CONST only if it was. -/
structure Extends (t t' : TypeTable) : Prop where
  size_le : t.entries.size ≤ t'.entries.size
  resolved : ∀ id, (t.get id).isUnresolved = false → t'.get id = t.get id
  constant : ∀ id b, id < t.entries.size → t'.get id = .constant b → t.get id = .constant b

/-- A table that has only got more entries. -/
structure Appends (t t' : TypeTable) : Prop where
  get : ∀ id < t.entries.size, t'.get id = t.get id
  structSizes : t'.structSizes = t.structSizes

theorem get_of_size_le (h : t.entries.size ≤ id) : t.get id = .named "" := by
  rw [get, Array.getD_eq_getD_getElem?, Array.getElem?_eq_none h, Option.getD_none]

theorem lt_size_of_isUnresolved (h : (t.get id).isUnresolved = false) :
    id < t.entries.size := by
  by_contra hid
  rw [get_of_size_le (Nat.le_of_not_lt hid)] at h
  cases h

theorem lt_size_of_shape? (h : t.shape? id = some σ) : id < t.entries.size := by
  by_contra hid
  have hget := get_of_size_le (Nat.le_of_not_lt hid)
  simp [shape?, baseEntry, base, hget, DataType.shape?] at h

namespace Extends

theorem refl (t : TypeTable) : t.Extends t := ⟨le_rfl, fun _ _ => rfl, fun _ _ _ h => h⟩

theorem trans (h : t.Extends t') (h' : t'.Extends t'') : t.Extends t'' where
  size_le := h.size_le.trans h'.size_le
  resolved id hid := by
    rw [h'.resolved id (by rwa [h.resolved id hid]), h.resolved id hid]
  constant id b hid hb :=
    h.constant id b hid (h'.constant id b (hid.trans_le h.size_le) hb)

theorem base_eq (h : t.Extends t') (hid : (t.baseEntry id).isUnresolved = false) :
    t'.base id = t.base id := by
  have hget : (t.get id).isUnresolved = false := by
    unfold baseEntry base at hid
    cases hd : t.get id with
    | named | pending => simp [hd, DataType.isUnresolved] at hid
    | _ => rfl
  rw [base, base, h.resolved id hget]

/-- **A type that has a shape keeps it.** -/
theorem shape? (h : t.Extends t') (hid : t.shape? id = some σ) : t'.shape? id = some σ := by
  have hu := DataType.isUnresolved_of_shape? hid
  rw [TypeTable.shape?, baseEntry, h.base_eq hu, h.resolved _ hu]
  exact hid

end Extends

theorem Appends.refl (t : TypeTable) : t.Appends t := ⟨fun _ _ => rfl, rfl⟩

theorem Appends.trans (hs : t.entries.size ≤ t'.entries.size) (h : t.Appends t')
    (h' : t'.Appends t'') : t.Appends t'' :=
  ⟨fun id hid => (h'.get id (hid.trans_le hs)).trans (h.get id hid),
    h'.structSizes.trans h.structSizes⟩

/-- A type all of whose parts that matter for its shape are in the table. -/
def Closed (t : TypeTable) (id : TypeId) : Prop :=
  id < t.entries.size ∧ ∀ b, t.get id = .constant b → b < t.entries.size

theorem Closed.extends (h : t.Closed id) (hE : t.Extends t') : t'.Closed id :=
  ⟨h.1.trans_le hE.size_le, fun b hb => (h.2 b (hE.constant id b h.1 hb)).trans_le hE.size_le⟩

/-- New entries do not change what was said about a type before. -/
theorem Closed.shape?_eq (h : t.Closed id) (hA : t.Appends t') : t'.shape? id = t.shape? id := by
  have hget := hA.get id h.1
  have hbase : t'.base id = t.base id := by rw [base, base, hget]
  have hlt : t.base id < t.entries.size := by
    unfold base
    split
    next b hb => exact h.2 b hb
    next => exact h.1
  rw [shape?, shape?, baseEntry, baseEntry, hbase, hA.get _ hlt]

/-! ## New entries -/

theorem get_append_of_lt (d : DataType) (h : id < t.entries.size) :
    (t.append d).2.get id = t.get id := by
  simp [append, get, Array.getElem?_push, Nat.ne_of_lt h]

theorem get_append_self (t : TypeTable) (d : DataType) :
    (t.append d).2.get (t.append d).1 = d := by
  simp [append, get]

theorem appends_append (t : TypeTable) (d : DataType) : t.Appends (t.append d).2 :=
  ⟨fun _ h => get_append_of_lt d h, rfl⟩

theorem Appends.extends (hs : t.entries.size ≤ t'.entries.size) (h : t.Appends t') :
    t.Extends t' where
  size_le := hs
  resolved id hid := h.get id (lt_size_of_isUnresolved hid)
  constant id b hid hb := by rwa [← h.get id hid]

theorem size_append (t : TypeTable) (d : DataType) :
    (t.append d).2.entries.size = t.entries.size + 1 := by
  simp [append]

theorem get_of_findIdx? {d : DataType} (h : t.entries.findIdx? (· == d) = some id) :
    id < t.entries.size ∧ t.get id = d := by
  obtain ⟨hlt, hd, -⟩ := Array.findIdx?_eq_some_iff_getElem.1 h
  exact ⟨hlt, by simpa [get, hlt] using hd⟩

/-- Entering a type leaves the table as it is, or puts the type behind its last entry. -/
theorem add_cases (t : TypeTable) (d : DataType) :
    (t.add d).2 = t ∧ (t.add d).1 < t.entries.size ∧
        (t.get (t.add d).1 = d ∨ ∃ b, d = .constant b ∧ (t.add d).1 = b ∧ t.isConstant b = true) ∨
      t.add d = t.append d ∧ (∀ b, d = .constant b → t.isConstant b = false) := by
  have lookup {found : TypeId × TypeTable} (hd : ∀ b, d = .constant b → t.isConstant b = false)
      (hold : ∀ id, t.entries.findIdx? (· == d) = some id → found = (id, t))
      (hnew : t.entries.findIdx? (· == d) = none → found = t.append d) :
      found.2 = t ∧ found.1 < t.entries.size ∧
          (t.get found.1 = d ∨ ∃ b, d = .constant b ∧ found.1 = b ∧ t.isConstant b = true) ∨
        found = t.append d ∧ (∀ b, d = .constant b → t.isConstant b = false) := by
    cases hid : t.entries.findIdx? (· == d) with
    | some id =>
      obtain ⟨hlt, hget⟩ := get_of_findIdx? hid
      rw [hold id hid]
      exact .inl ⟨rfl, hlt, .inl hget⟩
    | none => exact .inr ⟨hnew hid, hd⟩
  cases d with
  | named n => exact .inr ⟨rfl, by simp⟩
  | pending n => exact .inr ⟨rfl, by simp⟩
  | constant b =>
    by_cases hb : t.isConstant b = true
    · have hadd : t.add (.constant b) = (b, t) := by simp [add, hb]
      have hlt : b < t.entries.size := by
        apply lt_size_of_isUnresolved
        revert hb
        unfold isConstant
        cases t.get b <;> simp [DataType.isUnresolved]
      rw [hadd]
      exact .inl ⟨rfl, hlt, .inr ⟨b, rfl, rfl, hb⟩⟩
    · exact lookup (by simpa using hb) (fun id hid => by simp [add, hb, hid])
        fun hid => by simp [add, hb, hid]
  | _ => exact lookup (by simp) (fun id hid => by simp [add, hid]) fun hid => by simp [add, hid]

theorem size_le_add (t : TypeTable) (d : DataType) :
    t.entries.size ≤ (t.add d).2.entries.size := by
  obtain ⟨h, -⟩ | ⟨h, -⟩ := t.add_cases d
  · exact h.symm ▸ le_rfl
  · rw [h, size_append]
    omega

theorem appends_add (t : TypeTable) (d : DataType) : t.Appends (t.add d).2 := by
  obtain ⟨h, -⟩ | ⟨h, -⟩ := t.add_cases d
  · rw [h]
    exact Appends.refl t
  · rw [h]
    exact appends_append t d

theorem extends_add (t : TypeTable) (d : DataType) : t.Extends (t.add d).2 :=
  (t.appends_add d).extends (t.size_le_add d)

theorem lt_size_add (t : TypeTable) (d : DataType) :
    (t.add d).1 < (t.add d).2.entries.size := by
  obtain ⟨h, hlt, -⟩ | ⟨h, -⟩ := t.add_cases d
  · rwa [h]
  · rw [h, size_append]
    exact Nat.lt_succ_self _

/-- A type that is not CONST is found where it was entered. -/
theorem get_add {d : DataType} (hd : ∀ b, d ≠ .constant b) :
    (t.add d).2.get (t.add d).1 = d := by
  obtain ⟨h, -, hget | ⟨b, hb, -⟩⟩ | ⟨h, -⟩ := t.add_cases d
  · rw [h, hget]
  · exact absurd hb (hd b)
  · rw [h, get_append_self]

theorem shape?_stringOf (t : TypeTable) (c : Nat) :
    (t.stringOf c).2.shape? (t.stringOf c).1 = some (.string c) := by
  have h : (t.stringOf c).2.get (t.stringOf c).1 = .string (some c) := get_add (by simp)
  have hb : (t.stringOf c).2.base (t.stringOf c).1 = (t.stringOf c).1 := by rw [base, h]
  rw [shape?, baseEntry, hb, h]
  rfl

/-- The CONST type over a type has the shape of that type. -/
theorem shape?_constant (h : t.shape? id = some σ) :
    (t.constant id).2.shape? (t.constant id).1 = some σ := by
  have old := (t.extends_add (.constant id)).shape? h
  have above (u : TypeTable) (i : TypeId) (hu : u.get i = .constant id)
      (hid : u.isConstant id = false) (hs : u.shape? id = some σ) : u.shape? i = some σ := by
    have hb : u.base i = id := by rw [base, hu]
    rw [shape?, baseEntry, hb]
    rwa [shape?, baseEntry, base_of_isConstant hid] at hs
  rw [constant]
  obtain ⟨ht, hlt, hget | ⟨b, hb, hi, -⟩⟩ | ⟨ht, hc⟩ := t.add_cases (.constant id)
  · rw [ht]
    by_cases hc : t.isConstant id = true
    · have : t.add (.constant id) = (id, t) := by simp [add, hc]
      rw [this]
      exact h
    · exact above t _ hget (by simpa using hc) h
  · injection hb with hb
    rw [ht, hi, ← hb]
    exact h
  · have hid := lt_size_of_shape? h
    rw [ht] at old ⊢
    refine above _ _ (get_append_self t _) ?_ old
    have := hc id rfl
    rwa [isConstant, get_append_of_lt _ hid]

/-- Resolving an entry that is still to be resolved, to a type that is not CONST, keeps the rest. -/
theorem extends_resolve {d : DataType} (h : (t.get id).isUnresolved = true)
    (hd : ∀ b, d ≠ .constant b) : t.Extends (t.resolve id d) where
  size_le := by simp [resolve]
  resolved i hi := by
    have hne : id ≠ i := by
      rintro rfl
      rw [h] at hi
      cases hi
    simp [resolve, get, Array.getElem?_setIfInBounds_ne hne]
  constant i b hi hb := by
    by_cases hne : id = i
    · subst hne
      simp [resolve, get, hi] at hb
      exact absurd hb (hd b)
    · simpa [resolve, get, Array.getElem?_setIfInBounds_ne hne] using hb

/-! ## CONST stands alone -/

/-- Every CONST type is over a type of the table that is not CONST, and every pointer type to a type
of the table. -/
structure Flat (t : TypeTable) : Prop where
  constant : ∀ id b, t.get id = .constant b → b < t.entries.size ∧ t.isConstant b = false
  pointer : ∀ id p, t.get id = .pointer p → p < t.entries.size

theorem flat_initial : initial.Flat := by
  have plain (id : TypeId) (d : DataType) (h : initial.get id = d)
      (hu : d.isUnresolved = false) : (∀ b, d ≠ .constant b) ∧ ∀ p, d ≠ .pointer p := by
    have hlt : id < initial.entries.size := lt_size_of_isUnresolved (by rw [h]; exact hu)
    have hsize : initial.entries.size = 7 := rfl
    rw [hsize] at hlt
    subst h
    interval_cases id <;> exact ⟨fun _ h => (nomatch h), fun _ h => (nomatch h)⟩
  exact ⟨fun id b h => absurd rfl ((plain id _ h rfl).1 b),
    fun id p h => absurd rfl ((plain id _ h rfl).2 p)⟩

theorem Flat.base_base (h : t.Flat) (id : TypeId) : t.base (t.base id) = t.base id := by
  by_cases hc : t.isConstant id = true
  · obtain ⟨b, hb⟩ : ∃ b, t.get id = .constant b := by
      unfold isConstant at hc
      split at hc
      next b hb => exact ⟨b, hb⟩
      next => cases hc
    have hbase : t.base id = b := by rw [base, hb]
    rw [hbase, base_of_isConstant (h.constant id b hb).2]
  · have hbase := base_of_isConstant (Bool.eq_false_iff.2 hc)
    rw [hbase, hbase]

theorem Flat.shape?_base (h : t.Flat) (id : TypeId) : t.shape? (t.base id) = t.shape? id := by
  rw [shape?, baseEntry, h.base_base]
  rfl

theorem Flat.closed (h : t.Flat) (hid : id < t.entries.size) : t.Closed id :=
  ⟨hid, fun b hb => (h.constant id b hb).1⟩

/-- An entry that is resolved is one that was there, or the new one. -/
theorem get_append_cases {d e : DataType} (he : e.isUnresolved = false)
    (h : (t.append d).2.get id = e) : t.get id = e ∨ d = e := by
  by_cases hid : id < t.entries.size
  · exact .inl (by rwa [get_append_of_lt d hid] at h)
  by_cases heq : id = t.entries.size
  · subst heq
    exact .inr ((get_append_self t d).symm.trans h)
  · have hge : (t.append d).2.entries.size ≤ id := by
      rw [size_append]
      exact Nat.lt_of_le_of_ne (Nat.le_of_not_lt hid) (Ne.symm heq)
    rw [get_of_size_le hge] at h
    subst h
    cases he

theorem Flat.append (h : t.Flat) {d : DataType}
    (hd : ∀ b, d = .constant b → b < t.entries.size ∧ t.isConstant b = false)
    (hp : ∀ p, d = .pointer p → p < t.entries.size) : (t.append d).2.Flat where
  constant id b hb := by
    have old : b < t.entries.size ∧ t.isConstant b = false :=
      (get_append_cases rfl hb).elim (h.constant id b) (hd b)
    rw [size_append, isConstant, get_append_of_lt d old.1]
    exact ⟨Nat.lt_succ_of_lt old.1, old.2⟩
  pointer id p hp' := by
    rw [size_append]
    exact Nat.lt_succ_of_lt ((get_append_cases rfl hp').elim (h.pointer id p) (hp p))

theorem Flat.add (h : t.Flat) {d : DataType}
    (hd : ∀ b, d = .constant b ∨ d = .pointer b → b < t.entries.size) : (t.add d).2.Flat := by
  obtain ⟨ht, -⟩ | ⟨ht, hc⟩ := t.add_cases d
  · rwa [ht]
  · rw [ht]
    exact h.append (fun b hb => ⟨hd b (.inl hb), hc b hb⟩) fun p hp => hd p (.inr hp)

theorem Flat.resolve (h : t.Flat) {d : DataType} (hu : (t.get id).isUnresolved = true)
    (hd : ∀ b, d ≠ .constant b) (hp : ∀ p, d ≠ .pointer p) : (t.resolve id d).Flat := by
  have hE := extends_resolve hu hd
  have hlt {i : TypeId} {e : DataType} (he : e.isUnresolved = false)
      (hi : (t.resolve id d).get i = e) : i < t.entries.size := by
    have hsize : i < (t.resolve id d).entries.size := lt_size_of_isUnresolved (by rwa [hi])
    simpa [TypeTable.resolve] using hsize
  refine ⟨fun i b hb => ?_, fun i p hip => ?_⟩
  · obtain ⟨hb', hc⟩ := h.constant i b (hE.constant i b (hlt rfl hb) hb)
    refine ⟨hb'.trans_le hE.size_le, ?_⟩
    unfold isConstant at hc ⊢
    split
    next c hbc =>
      have := hE.constant b c hb' hbc
      simp [this] at hc
    next => rfl
  · refine (h.pointer i p ?_).trans_le hE.size_le
    by_cases hne : id = i
    · subst hne
      simp [TypeTable.resolve, get, hlt rfl hip] at hip
      exact absurd hip (hp p)
    · simpa [TypeTable.resolve, get, Array.getElem?_setIfInBounds_ne hne] using hip

/-! ## Structured types -/

/-- A table that names no structured type which another one does not name at the same place. -/
def SameStructs (t t' : TypeTable) : Prop :=
  ∀ id n name, t'.get id = .struct n name → t.get id = .struct n name

theorem SameStructs.refl (t : TypeTable) : t.SameStructs t := fun _ _ _ h => h

theorem SameStructs.trans (h : t.SameStructs t') (h' : t'.SameStructs t'') : t.SameStructs t'' :=
  fun id n name hid => h id n name (h' id n name hid)

theorem sameStructs_append (t : TypeTable) {d : DataType} (hd : ∀ n name, d ≠ .struct n name) :
    t.SameStructs (t.append d).2 := by
  intro id n name hid
  rcases Nat.lt_trichotomy id t.entries.size with hlt | rfl | hgt
  · rwa [get_append_of_lt d hlt] at hid
  · exact absurd ((get_append_self t d).symm.trans hid) (hd n name)
  · rw [get_of_size_le (by rw [size_append]; omega)] at hid
    cases hid

theorem sameStructs_add (t : TypeTable) {d : DataType} (hd : ∀ n name, d ≠ .struct n name) :
    t.SameStructs (t.add d).2 := by
  obtain ⟨h, -⟩ | ⟨h, -⟩ := add_cases t d
  · rw [h]
    exact .refl t
  · rw [h]
    exact sameStructs_append t hd

theorem get_resolve (t : TypeTable) (id : TypeId) (d : DataType) (i : TypeId) :
    (t.resolve id d).get i = if id = i ∧ i < t.entries.size then d else t.get i := by
  unfold resolve get
  by_cases h : id = i
  · subst h
    by_cases hlt : id < t.entries.size <;> simp [hlt]
  · simp [Array.getElem?_setIfInBounds_ne h, h]

theorem sameStructs_resolve {d : DataType} (hd : ∀ n name, d ≠ .struct n name) :
    t.SameStructs (t.resolve id d) := by
  intro i n name hi
  rw [get_resolve] at hi
  split at hi
  · exact absurd hi (hd n name)
  · exact hi

/-- All structured types that are named have numbers below a bound. -/
def Numbers (t : TypeTable) (bound : Nat) : Prop :=
  ∀ id n name, t.get id = .struct n name → n < bound

theorem numbers_initial : initial.Numbers 0 := by
  intro id n name h
  by_cases hid : id < 7
  · interval_cases id <;> cases h
  · rw [get_of_size_le (Nat.le_of_not_lt hid)] at h
    cases h

theorem Numbers.sameStructs {bound : Nat} (h : t.Numbers bound) (hs : t.SameStructs t') :
    t'.Numbers bound := fun id n name hid => h id n name (hs id n name hid)

theorem Numbers.add_struct {number : Nat} {name : String} (h : t.Numbers number) :
    (t.add (.struct number name)).2.Numbers (number + 1) := by
  intro id n name' hid
  obtain ⟨hadd, -⟩ | ⟨hadd, -⟩ := add_cases t (.struct number name)
  · rw [hadd] at hid
    exact (h id n name' hid).trans (Nat.lt_succ_self number)
  · rw [hadd] at hid
    rcases Nat.lt_trichotomy id t.entries.size with hlt | rfl | hgt
    · rw [get_append_of_lt _ hlt] at hid
      exact (h id n name' hid).trans (Nat.lt_succ_self number)
    · obtain ⟨rfl, -⟩ := DataType.struct.inj ((get_append_self t _).symm.trans hid)
      exact Nat.lt_succ_self number
    · rw [get_of_size_le (by rw [size_append]; omega)] at hid
      cases hid

theorem Numbers.resolve {bound number : Nat} {name : String} (h : t.Numbers bound)
    (hn : number < bound) : (t.resolve id (.struct number name)).Numbers bound := by
  intro i n name' hi
  rw [get_resolve] at hi
  split at hi
  · obtain ⟨rfl, -⟩ := DataType.struct.inj hi
    exact hn
  · exact h i n name' hi

theorem Numbers.lt_of_shape? {bound n : Nat} (h : t.Numbers bound)
    (hid : t.shape? id = some (.struct n)) : n < bound := by
  unfold shape? baseEntry at hid
  cases hentry : t.get (t.base id) with
  | struct k name =>
    rw [hentry] at hid
    obtain rfl : k = n := by simpa [DataType.shape?] using hid
    exact h _ k name hentry
  | string capacity =>
    rw [hentry] at hid
    cases capacity <;> cases hid
  | _ =>
    rw [hentry] at hid
    cases hid

/-! ## The plain types -/

/-- The plain types are where they belong. -/
def Builtin (t : TypeTable) : Prop := ∀ s, t.get (scalarId s) = .scalar s

theorem builtin_initial : initial.Builtin := by
  intro s
  cases s <;> rfl

theorem Builtin.extends (h : t.Builtin) (hE : t.Extends t') : t'.Builtin := fun s => by
  rw [hE.resolved _ (by rw [h s]; rfl), h s]

theorem Builtin.shape? (h : t.Builtin) (s : Scalar) :
    t.shape? (scalarId s) = some (.scalar s) := by
  have hb : t.base (scalarId s) = scalarId s := by rw [base, h s]
  rw [TypeTable.shape?, baseEntry, hb, h s]
  rfl

theorem Builtin.isBoolean (h : t.Builtin) (hid : t.isBoolean id = true) :
    t.shape? id = some (.scalar .boolean) := by
  have hb : t.base id = scalarId .boolean := eq_of_beq hid
  rw [TypeTable.shape?, baseEntry, hb, h .boolean]
  rfl

end TypeTable

end ChannelBasic
