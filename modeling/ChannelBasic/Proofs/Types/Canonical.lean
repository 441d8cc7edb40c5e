import Mathlib.Logic.Relation
import ChannelBasic.Proofs.Types.Shape

/-!
# Proofs/Types/Canonical — equal types in different places

A type that is known by its name only, or a string whose length is not evaluated yet, is entered as
it is and resolved **in place**, after pointer and CONST types were made of it.  So the table can
hold one type twice, and places do not tell types apart: `isAnalog` does.

What a change of the table can do is said once (`Grows.cases`), and all that follows of a table is
drawn from one invariant, `Layered`: a compound type is made of an **earlier** one.  Layers can be
at most as many as entries, hence the bounds of comparing and naming are never met (`same_eq`,
`name_eq`), and a compound type is never left as a CONST of a CONST.  The main result is
`canonical_of_reached`.
-/

namespace ChannelBasic.TypeTable

variable {t t' : TypeTable} {id a b c : TypeId} {d : DataType}

/-! ## Tables that are reached -/

/-- One change of a table: a type is entered, made of types of the table, or an unresolved one is
resolved, or the size of a structured type gets known. -/
inductive Grows : TypeTable → TypeTable → Prop
  | add (t : TypeTable) (d : DataType)
      (hd : ∀ i, d = .constant i ∨ d = .pointer i → i < t.entries.size) : Grows t (t.add d).2
  | constant (t : TypeTable) (id : TypeId) (hid : id < t.entries.size) : Grows t (t.constant id).2
  | pointerTo (t : TypeTable) (id : TypeId) (hid : id < t.entries.size) :
      Grows t (t.pointerTo id).2
  | stringOf (t : TypeTable) (capacity : Nat) : Grows t (t.stringOf capacity).2
  | named (t : TypeTable) (id : TypeId) (name : String) (hid : id < t.entries.size)
      (h : t.get id = .named name) (number : Nat) (struct : String) :
      Grows t (t.resolve id (.struct number struct))
  | pending (t : TypeTable) (id : TypeId) (length : Nat) (hid : id < t.entries.size)
      (h : t.get id = .pending length) (capacity : Nat) :
      Grows t (t.resolve id (.string (some capacity)))
  | setStructSize (t : TypeTable) (number size : Nat) : Grows t (t.setStructSize number size)

/-- A table that changes one after the other have made of the first one. -/
def Reached (t : TypeTable) : Prop := Relation.ReflTransGen Grows initial t

/-- What is put into a table is one more type, or a simple type in place of an unresolved one. -/
theorem Grows.cases (h : Grows t t') :
    (∃ d, (∀ i, d = .constant i ∨ d = .pointer i → i < t.entries.size) ∧ t' = (t.add d).2) ∨
      (∃ id d, (t.get id).isUnresolved = true ∧ (∀ i, d ≠ .constant i) ∧ (∀ i, d ≠ .pointer i) ∧
        t' = t.resolve id d) ∨
      ∃ number size, t' = t.setStructSize number size := by
  cases h with
  | add d hd => exact .inl ⟨d, hd, rfl⟩
  | constant id hid => exact .inl ⟨.constant id, by simpa using hid, rfl⟩
  | pointerTo id hid => exact .inl ⟨.pointer id, by simpa using hid, rfl⟩
  | stringOf n => exact .inl ⟨.string (some n), by simp, rfl⟩
  | named id name hid h number struct =>
    exact .inr (.inl ⟨id, _, by rw [h]; rfl, by simp, by simp, rfl⟩)
  | pending id length hid h n => exact .inr (.inl ⟨id, _, by rw [h]; rfl, by simp, by simp, rfl⟩)
  | setStructSize number size => exact .inr (.inr ⟨number, size, rfl⟩)

/-! ## Layers -/

/-- A table in which compound types are made of earlier types, CONST of what is not CONST, and the
first types are the first. -/
structure Layered (t : TypeTable) : Prop where
  flat : t.Flat
  lt : ∀ id i, t.get id = .constant i ∨ t.get id = .pointer i → i < id
  extends_initial : initial.Extends t

theorem layered_initial : initial.Layered where
  flat := flat_initial
  lt id i h := by
    by_cases hid : id < 7
    · interval_cases id <;> simp [initial, get] at h
    · have hget : initial.get id = .named "" := get_of_size_le (Nat.le_of_not_lt hid)
      simp [hget] at h
  extends_initial := .refl initial

theorem Layered.add (h : t.Layered)
    (hd : ∀ i, d = .constant i ∨ d = .pointer i → i < t.entries.size) : (t.add d).2.Layered where
  flat := h.flat.add hd
  lt id i hi := by
    obtain ⟨ht, -⟩ | ⟨ht, -⟩ := t.add_cases d
    · rw [ht] at hi
      exact h.lt id i hi
    rw [ht] at hi
    rcases Nat.lt_trichotomy id t.entries.size with hlt | rfl | hgt
    · rw [get_append_of_lt d hlt] at hi
      exact h.lt id i hi
    · have hself : (t.append d).2.get t.entries.size = d := get_append_self t d
      rw [hself] at hi
      exact hd i hi
    · rw [get_of_size_le (by rw [size_append]; omega)] at hi
      simp at hi
  extends_initial := h.extends_initial.trans (t.extends_add d)

theorem Layered.resolve (h : t.Layered) (hu : (t.get id).isUnresolved = true)
    (hc : ∀ i, d ≠ .constant i) (hp : ∀ i, d ≠ .pointer i) : (t.resolve id d).Layered where
  flat := h.flat.resolve hu hc hp
  lt j i hi := by
    rw [get_resolve] at hi
    split at hi
    · exact (hi.elim (hc i) (hp i)).elim
    · exact h.lt j i hi
  extends_initial := h.extends_initial.trans (extends_resolve hu hc)

theorem Layered.setStructSize (h : t.Layered) (number size : Nat) :
    (t.setStructSize number size).Layered where
  flat := ⟨h.flat.constant, h.flat.pointer⟩
  lt := h.lt
  extends_initial :=
    ⟨h.extends_initial.size_le, h.extends_initial.resolved, h.extends_initial.constant⟩

/-- **One change keeps the layers.** -/
theorem Layered.grows (h : t.Layered) (hg : Grows t t') : t'.Layered := by
  obtain ⟨d, hd, rfl⟩ | ⟨id, d, hu, hc, hp, rfl⟩ | ⟨number, size, rfl⟩ := hg.cases
  · exact h.add hd
  · exact h.resolve hu hc hp
  · exact h.setStructSize number size

theorem Reached.layered (h : t.Reached) : t.Layered := by
  induction h with
  | refl => exact layered_initial
  | tail _ hg ih => exact ih.grows hg

/-- The types that every table starts with stay where they are. -/
theorem Layered.get_initial (h : t.Layered) (hid : id < 7) : t.get id = initial.get id :=
  h.extends_initial.resolved id (by interval_cases id <;> rfl)

/-! ## Comparing and naming, without a bound -/

/-- Whether two types are built alike. -/
def same (t : TypeTable) (a b : TypeId) : Bool := t.sameWithin t.entries.size a b

/-- A bound that the first type is below is never met. -/
theorem Layered.sameWithin_succ (h : t.Layered) {bound : Nat} (ha : a < bound) :
    t.sameWithin (bound + 1) a b = t.sameWithin bound a b := by
  induction bound generalizing a b with
  | zero => exact absurd ha (Nat.not_lt_zero a)
  | succ bound ih =>
    have below {x : TypeId} (hx : t.get a = .constant x ∨ t.get a = .pointer x) : x < bound :=
      (h.lt a x hx).trans_le (Nat.le_of_lt_succ ha)
    conv => lhs; rw [sameWithin]
    conv => rhs; rw [sameWithin]
    congr 1
    split
    next x y hx hy => exact ih (below (.inr hx))
    next x y hx hy => exact ih (below (.inl hx))
    next => rfl

/-- The name of a type depends on the names of what it is made of. -/
theorem nameWithin_congr {m n : Nat}
    (h : ∀ x, t.get id = .constant x ∨ t.get id = .pointer x →
      t.nameWithin m x = t.nameWithin n x) :
    t.nameWithin (m + 1) id = t.nameWithin (n + 1) id := by
  cases hd : t.get id with
  | pointer p => simp only [nameWithin, hd, h p (.inr hd)]
  | constant b => simp only [nameWithin, hd, h b (.inl hd)]
  | string capacity => cases capacity <;> simp only [nameWithin, hd]
  | _ => simp only [nameWithin, hd]

theorem Layered.nameWithin_succ (h : t.Layered) {bound : Nat} (hid : id < bound) :
    t.nameWithin (bound + 1) id = t.nameWithin bound id := by
  induction bound generalizing id with
  | zero => exact absurd hid (Nat.not_lt_zero id)
  | succ bound ih =>
    exact nameWithin_congr fun x hx => ih ((h.lt id x hx).trans_le (Nat.le_of_lt_succ hid))

/-- Two types are built alike if they are one, or compound in the same way of types built alike, or
simple and equal. -/
theorem Layered.same_eq (h : t.Layered) (ha : a < t.entries.size) :
    t.same a b = (a == b ||
      match t.get a, t.get b with
      | .pointer x, .pointer y => t.same x y
      | .constant x, .constant y => t.same x y
      | x, y => x == y) := by
  rw [same, ← h.sameWithin_succ ha]
  rfl

/-- The name of a type is made of the name of the type it is made of. -/
theorem Layered.name_eq (h : t.Layered) (hid : id < t.entries.size) :
    t.name id = match t.get id with
      | .scalar s => s.spelling
      | .string none => "STRING"
      | .string (some capacity) => "STRING OF " ++ Decimal.ofInt capacity
      | .pending _ => "STRING OF ?"
      | .pointer pointee => "POINTER TO " ++ t.name pointee
      | .struct _ name => name
      | .constant base => "CONST " ++ t.name base
      | .named name => name := by
  have hname : t.name id = t.nameWithin (t.entries.size + 2) id :=
    (h.nameWithin_succ (Nat.lt_succ_of_lt hid)).symm
  rw [hname]
  rfl

/-! ## Entering what is there -/

/-- A type that is in the table is found, and no later than where it is. -/
theorem exists_findIdx? (hid : id < t.entries.size) (hd : t.get id = d) :
    ∃ i ≤ id, t.entries.findIdx? (· == d) = some i ∧ t.get i = d := by
  have hself : t.entries[id] = d := by simpa [get, hid] using hd
  cases hi : t.entries.findIdx? (· == d) with
  | none =>
    have hne := Array.findIdx?_eq_none_iff.1 hi t.entries[id] (Array.getElem_mem hid)
    simp [hself] at hne
  | some i =>
    refine ⟨i, Nat.le_of_not_lt fun hlt => ?_, rfl, (get_of_findIdx? hi).2⟩
    have hbefore := (Array.findIdx?_eq_some_iff_getElem.1 hi).2.2 id hlt
    simp [hself] at hbefore

/-- **A resolved type that is in the table is not entered again.** -/
theorem Layered.add_get (h : t.Layered) (hu : (t.get id).isUnresolved = false) :
    ∃ i ≤ id, t.add (t.get id) = (i, t) ∧ t.get i = t.get id := by
  obtain ⟨i, hle, hfind, hget⟩ := exists_findIdx? (lt_size_of_isUnresolved hu) rfl
  refine ⟨i, hle, ?_, hget⟩
  cases hd : t.get id with
  | named name => rw [hd] at hu; cases hu
  | pending length => rw [hd] at hu; cases hu
  | constant b =>
    rw [hd] at hfind
    simp [TypeTable.add, (h.flat.constant id b hd).2, hfind]
  | _ =>
    rw [hd] at hfind
    simp [TypeTable.add, hfind]

/-- The types that every table starts with are found where they are. -/
theorem Layered.add_initial (h : t.Layered) (hid : id < 7) : t.add (initial.get id) = (id, t) := by
  have hget := h.get_initial hid
  have hu : (t.get id).isUnresolved = false := by rw [hget]; interval_cases id <;> rfl
  obtain ⟨i, hle, hadd, hi⟩ := h.add_get hu
  rw [← hget, hadd]
  rw [h.get_initial (hle.trans_lt hid), hget] at hi
  -- no two of them are equal
  have heq : i = id := by
    have hi7 : i < 7 := hle.trans_lt hid
    interval_cases id <;> interval_cases i <;> first | rfl | cases hi
  rw [heq]

/-! ## Types built alike -/

theorem sameWithin_refl (t : TypeTable) (bound : Nat) (a : TypeId) :
    t.sameWithin bound a a = true := by
  cases bound <;> simp [sameWithin]

/-- Types built alike have one entry, or two of a kind that are made of types built alike. -/
theorem sameWithin_succ_iff {bound : Nat} :
    t.sameWithin (bound + 1) a b = true ↔
      t.get a = t.get b ∨
        (∃ x y, t.get a = .pointer x ∧ t.get b = .pointer y ∧ t.sameWithin bound x y = true) ∨
        ∃ x y, t.get a = .constant x ∧ t.get b = .constant y ∧ t.sameWithin bound x y = true := by
  rw [sameWithin, Bool.or_eq_true, beq_iff_eq]
  constructor
  · rintro (rfl | h)
    · exact .inl rfl
    split at h
    next x y hx hy => exact .inr (.inl ⟨x, y, hx, hy, h⟩)
    next x y hx hy => exact .inr (.inr ⟨x, y, hx, hy, h⟩)
    next => exact .inl (eq_of_beq h)
  · rintro (h | ⟨x, y, hx, hy, h⟩ | ⟨x, y, hx, hy, h⟩)
    · right
      rw [h]
      cases t.get b <;> simp [sameWithin_refl]
    · exact .inr (by rw [hx, hy]; exact h)
    · exact .inr (by rw [hx, hy]; exact h)

theorem sameWithin_symm {bound : Nat} (h : t.sameWithin bound a b = true) :
    t.sameWithin bound b a = true := by
  induction bound generalizing a b with
  | zero =>
    rw [sameWithin, beq_iff_eq] at h ⊢
    exact h.symm
  | succ bound ih =>
    rw [sameWithin_succ_iff] at h ⊢
    obtain h | ⟨x, y, hx, hy, h⟩ | ⟨x, y, hx, hy, h⟩ := h
    · exact .inl h.symm
    · exact .inr (.inl ⟨y, x, hy, hx, ih h⟩)
    · exact .inr (.inr ⟨y, x, hy, hx, ih h⟩)

theorem sameWithin_trans {bound : Nat} (h : t.sameWithin bound a b = true)
    (h' : t.sameWithin bound b c = true) : t.sameWithin bound a c = true := by
  induction bound generalizing a b c with
  | zero =>
    rw [sameWithin, beq_iff_eq] at h h' ⊢
    exact h.trans h'
  | succ bound ih =>
    rw [sameWithin_succ_iff] at h h' ⊢
    obtain h | ⟨x, y, hx, hy, h⟩ | ⟨x, y, hx, hy, h⟩ := h
    · rwa [h]
    · obtain h' | ⟨y', z, hy', hz, h'⟩ | ⟨y', z, hy', -⟩ := h'
      · exact .inr (.inl ⟨x, y, hx, h' ▸ hy, h⟩)
      · obtain rfl := DataType.pointer.inj (hy.symm.trans hy')
        exact .inr (.inl ⟨x, z, hx, hz, ih h h'⟩)
      · cases hy.symm.trans hy'
    · obtain h' | ⟨y', z, hy', -⟩ | ⟨y', z, hy', hz, h'⟩ := h'
      · exact .inr (.inr ⟨x, y, hx, h' ▸ hy, h⟩)
      · cases hy.symm.trans hy'
      · obtain rfl := DataType.constant.inj (hy.symm.trans hy')
        exact .inr (.inr ⟨x, z, hx, hz, ih h h'⟩)

theorem isAnalog_equivalence (t : TypeTable) : Equivalence fun a b => t.isAnalog a b = true where
  refl _ := t.sameWithin_refl _ _
  symm h := sameWithin_symm h
  trans h h' := sameWithin_trans h h'

theorem Flat.isAnalog_base_left (h : t.Flat) (a b : TypeId) :
    t.isAnalog (t.base a) b = t.isAnalog a b := by
  rw [isAnalog, isAnalog, h.base_base]

theorem Flat.isAnalog_base_right (h : t.Flat) (a b : TypeId) :
    t.isAnalog a (t.base b) = t.isAnalog a b := by
  rw [isAnalog, isAnalog, h.base_base]

/-- **The CONST type over a type is analogous to it.** -/
theorem Layered.isAnalog_constant (h : t.Layered) (hid : id < t.entries.size) :
    (t.constant id).2.isAnalog (t.constant id).1 id = true := by
  have hlayered : (t.constant id).2.Layered := h.add (by simpa using hid)
  rw [← hlayered.flat.isAnalog_base_left, ← hlayered.flat.isAnalog_base_right]
  suffices hbase : (t.constant id).2.base (t.constant id).1 = (t.constant id).2.base id by
    rw [hbase]
    exact (isAnalog_equivalence _).refl _
  have hconst {u : TypeTable} {i : TypeId} (hu : u.Layered) (hi : u.get i = .constant id) :
      u.base i = u.base id := by
    rw [base_of_isConstant (hu.flat.constant i id hi).2, base, hi]
  unfold constant at hlayered ⊢
  obtain ⟨ht, -, hget | ⟨b, hb, hi, -⟩⟩ | ⟨ht, -⟩ := t.add_cases (.constant id)
  · exact hconst hlayered (by rwa [ht])
  · rw [hi, DataType.constant.inj hb]
  · refine hconst hlayered ?_
    rw [ht]
    exact get_append_self t _

/-- Analogous types have one entry without CONST, or two of pointer types. -/
theorem Layered.baseEntry_of_isAnalog (h : t.Layered) (hab : t.isAnalog a b = true) :
    t.baseEntry a = t.baseEntry b ∨
      ∃ x y, t.baseEntry a = .pointer x ∧ t.baseEntry b = .pointer y := by
  unfold isAnalog at hab
  unfold baseEntry
  have hsize : t.entries.size = t.entries.size - 1 + 1 := by
    have : 7 ≤ t.entries.size := h.extends_initial.size_le
    omega
  rw [hsize, sameWithin_succ_iff] at hab
  obtain hab | ⟨x, y, hx, hy, -⟩ | ⟨x, y, hx, -⟩ := hab
  · exact .inl hab
  · exact .inr ⟨x, y, hx, hy⟩
  · -- a type without CONST is not a CONST type
    have hbase : t.base (t.base a) = x := by rw [base, hx]
    rw [h.flat.base_base] at hbase
    have hlt := h.lt _ _ (.inl hx)
    exact absurd hbase (Nat.ne_of_gt hlt)

/-! ## The table as a whole -/

/-- What places in a table say about types. -/
structure Canonical (t : TypeTable) : Prop where
  /-- CONST is never over a CONST type. -/
  isConstant_eq_false : ∀ id b, t.get id = .constant b → t.isConstant b = false
  /-- Compound types are made of types of the table that come before them. -/
  lt : ∀ id i, t.get id = .constant i ∨ t.get id = .pointer i → i < id
  scalar : ∀ s, t.get (scalarId s) = .scalar s ∧ t.add (.scalar s) = (scalarId s, t)
  string : t.get stringId = .string none ∧ t.add (.string none) = (stringId, t)
  /-- A resolved type is not entered twice, and found at a place where it is. -/
  add_get : ∀ id, (t.get id).isUnresolved = false →
    ∃ i, t.add (t.get id) = (i, t) ∧ t.get i = t.get id ∧ t.isAnalog i id = true
  /-- Comparing goes down to the types that types are made of, however deep they lie. -/
  same_eq : ∀ a b, a < t.entries.size →
    t.same a b = (a == b ||
      match t.get a, t.get b with
      | .pointer x, .pointer y => t.same x y
      | .constant x, .constant y => t.same x y
      | x, y => x == y)
  /-- Naming does, too. -/
  name_eq : ∀ id < t.entries.size,
    t.name id = match t.get id with
      | .scalar s => s.spelling
      | .string none => "STRING"
      | .string (some capacity) => "STRING OF " ++ Decimal.ofInt capacity
      | .pending _ => "STRING OF ?"
      | .pointer pointee => "POINTER TO " ++ t.name pointee
      | .struct _ name => name
      | .constant base => "CONST " ++ t.name base
      | .named name => name

/-- What analogy says about types. -/
structure Comparable (t : TypeTable) : Prop where
  isAnalog_eq : ∀ a b, t.isAnalog a b = t.same (t.base a) (t.base b)
  equivalence : Equivalence fun a b => t.isAnalog a b = true
  /-- An outer CONST does not count, be it taken off or put on. -/
  base_left : ∀ a b, t.isAnalog (t.base a) b = t.isAnalog a b
  base_right : ∀ a b, t.isAnalog a (t.base b) = t.isAnalog a b
  constant : ∀ id < t.entries.size, (t.constant id).2.isAnalog (t.constant id).1 id = true
  valueType : ∀ a b, t.isAnalog a b = true → t.valueType a = t.valueType b
  capacity? : ∀ a b, t.isAnalog a b = true → t.capacity? a = t.capacity? b
  struct? : ∀ a b, t.isAnalog a b = true → t.struct? a = t.struct? b
  size? : ∀ a b, t.isAnalog a b = true → t.size? a = t.size? b

theorem Layered.isAnalog_of_get (h : t.Layered) (hab : t.get a = t.get b) :
    t.isAnalog a b = true := by
  cases hd : t.get b with
  | constant x =>
    have hbase : t.base a = t.base b := by rw [base, base, hab, hd]
    rw [isAnalog, hbase]
    exact t.sameWithin_refl _ _
  | _ =>
    have hba : t.base a = a := by rw [base, hab, hd]
    have hbb : t.base b = b := by rw [base, hd]
    rw [isAnalog, hba, hbb]
    have hsize : t.entries.size = t.entries.size - 1 + 1 := by
      have : 7 ≤ t.entries.size := h.extends_initial.size_le
      omega
    rw [hsize, sameWithin_succ_iff]
    exact .inl hab

theorem Layered.canonical (h : t.Layered) : t.Canonical where
  isConstant_eq_false id b hb := (h.flat.constant id b hb).2
  lt := h.lt
  scalar s := by
    have hid : scalarId s < 7 := by cases s <;> decide
    have hs : initial.get (scalarId s) = .scalar s := by cases s <;> rfl
    exact ⟨(h.get_initial hid).trans hs, hs ▸ h.add_initial hid⟩
  string := ⟨h.get_initial (by decide), h.add_initial (by decide : 6 < 7)⟩
  add_get id hu := by
    obtain ⟨i, -, hadd, hget⟩ := h.add_get hu
    exact ⟨i, hadd, hget, h.isAnalog_of_get hget⟩
  same_eq _ _ ha := h.same_eq ha
  name_eq _ hid := h.name_eq hid

theorem Layered.comparable (h : t.Layered) : t.Comparable where
  isAnalog_eq _ _ := rfl
  equivalence := t.isAnalog_equivalence
  base_left := h.flat.isAnalog_base_left
  base_right := h.flat.isAnalog_base_right
  constant _ hid := h.isAnalog_constant hid
  valueType a b hab := by
    unfold TypeTable.valueType
    obtain hd | ⟨x, y, hx, hy⟩ := h.baseEntry_of_isAnalog hab
    · rw [hd]
    · rw [hx, hy]
  capacity? a b hab := by
    unfold TypeTable.capacity?
    obtain hd | ⟨x, y, hx, hy⟩ := h.baseEntry_of_isAnalog hab
    · rw [hd]
    · rw [hx, hy]
  struct? a b hab := by
    unfold TypeTable.struct?
    obtain hd | ⟨x, y, hx, hy⟩ := h.baseEntry_of_isAnalog hab
    · rw [hd]
    · rw [hx, hy]
  size? a b hab := by
    unfold TypeTable.size?
    obtain hd | ⟨x, y, hx, hy⟩ := h.baseEntry_of_isAnalog hab
    · rw [hd]
    · rw [hx, hy]

/-- **In every table that is reached, places are canonical and analogy is sound.** -/
theorem canonical_of_reached (h : t.Reached) : t.Canonical ∧ t.Comparable :=
  ⟨h.layered.canonical, h.layered.comparable⟩

/-- A table with a structured type, the same type by its name at a place of its own, pointer types
to both, CONST over the second one, and the name resolved in the end. -/
def points : TypeTable :=
  let t := (initial.add (.struct 0 "POINT")).2
  let t := (t.add (.named "POINT")).2
  let t := (t.pointerTo 7).2
  let t := (t.pointerTo 8).2
  let t := (t.constant 10).2
  t.resolve 8 (.struct 0 "POINT")

theorem canonical_of_reached_points :
    points.Reached ∧ points.get 9 ≠ points.get 11 ∧ points.isAnalog 9 11 = true ∧
      points.valueType 9 = points.valueType 11 ∧ points.size? 9 = points.size? 11 := by
  have hreached : points.Reached :=
    .tail (.tail (.tail (.tail (.tail (.tail .refl
      (.add _ (.struct 0 "POINT") (by simp))) (.add _ (.named "POINT") (by simp)))
      (.pointerTo _ 7 (by decide +kernel))) (.pointerTo _ 8 (by decide +kernel)))
      (.constant _ 10 (by decide +kernel)))
      (.named _ 8 "POINT" (by decide +kernel) (by decide +kernel) 0 "POINT")
  have hab : points.isAnalog 9 11 = true := by decide +kernel
  obtain ⟨-, hcomparable⟩ := canonical_of_reached hreached
  exact ⟨hreached, by decide +kernel, hab, hcomparable.valueType 9 11 hab,
    hcomparable.size? 9 11 hab⟩

end ChannelBasic.TypeTable
