import Mathlib.Order.Basic
import ChannelBasic.Machine.Memory

/-!
# Proofs/Machine/Memory — what lies where, and what a write leaves alone

`m.Has a data` says that some bytes lie at an address.  Memory is compared byte by byte:
`m.Same P m'` says that two memories agree wherever `P` holds, and **what lies where they agree lies
in both** (`Has.same`).  A write changes nothing but its own place (`same_put`).
-/

namespace ChannelBasic.Memory

variable {m m' m'' : Memory} {a b : Int} {data : List UInt8} {P Q : Int → Prop}

/-- The byte at an address. -/
def byte? (m : Memory) (a : Int) : Option UInt8 := if 0 ≤ a then m.bytes[a.toNat]? else none

/-- Some bytes lie at an address. -/
def Has (m : Memory) (a : Int) (data : List UInt8) : Prop := m.read a data.length = .ok data

instance (m : Memory) (a : Int) (data : List UInt8) : Decidable (m.Has a data) :=
  inferInstanceAs (Decidable (_ = _))

/-- Bytes put at an address that has room for them. -/
def put (m : Memory) (a : Int) (data : List UInt8) : Memory := ⟨overwrite m.bytes a.toNat data⟩

/-- Two memories of one size that agree wherever `P` holds. -/
structure Same (P : Int → Prop) (m m' : Memory) : Prop where
  size : m'.size = m.size
  byte : ∀ x, P x → m'.byte? x = m.byte? x

theorem top_eq {m m' : Memory} (h : m'.size = m.size) : m'.top = m.top := by
  unfold top
  rw [h]

theorem inside_iff {count : Int} :
    m.inside a count = true ↔ 0 ≤ a ∧ 0 ≤ count ∧ a + count ≤ m.size := by
  simp [inside, and_assoc]

/-! ## Bytes that lie somewhere -/

theorem has_iff : m.Has a data ↔ 0 ≤ a ∧ a + data.length ≤ m.size ∧
    ∀ i : Nat, i < data.length → m.byte? (a + i) = data[i]? := by
  unfold Has read
  constructor
  · intro h
    split at h
    next hin =>
      obtain ⟨ha, -, hsize⟩ := inside_iff.1 hin
      have hdata := Except.ok.inj h
      refine ⟨ha, hsize, fun i hi => ?_⟩
      have hget : (m.bytes.extract a.toNat (a + data.length).toNat).toList[i]? = data[i]? := by
        rw [hdata]
      rw [← hget, byte?, if_pos (by omega), Array.getElem?_toList, Array.getElem?_extract,
        if_pos (by simp only [size] at hsize; omega)]
      congr 1
      omega
    next => cases h
  · rintro ⟨ha, hsize, hbyte⟩
    rw [if_pos (inside_iff.2 ⟨ha, by omega, hsize⟩)]
    refine congrArg Except.ok (List.ext_getElem? fun i => ?_)
    rw [Array.getElem?_toList, Array.getElem?_extract]
    simp only [size] at hsize
    by_cases hi : i < data.length
    · rw [← hbyte i hi, byte?, if_pos (by omega), if_pos (by omega)]
      congr 1
      omega
    · rw [if_neg (by omega), List.getElem?_eq_none (by omega)]

theorem Has.nonneg (h : m.Has a data) : 0 ≤ a := (has_iff.1 h).1

theorem Has.le_size (h : m.Has a data) : a + data.length ≤ m.size := (has_iff.1 h).2.1

theorem Has.read {n : Int} (h : m.Has a data) (hn : n = data.length) : m.read a n = .ok data := by
  rw [hn]
  exact h

/-- Whatever lies inside lies there. -/
theorem exists_has {n : Nat} (ha : 0 ≤ a) (hsize : a + n ≤ m.size) :
    ∃ data, data.length = n ∧ m.Has a data := by
  simp only [size] at hsize
  have hlen : (m.bytes.extract a.toNat (a + n).toNat).toList.length = n := by
    simp only [Array.length_toList, Array.size_extract]
    omega
  refine ⟨_, hlen, ?_⟩
  rw [Has, Memory.read, hlen, if_pos (inside_iff.2 ⟨ha, by omega, hsize⟩)]

theorem Has.unique {data' : List UInt8} (h : m.Has a data) (h' : m.Has a data')
    (hlen : data'.length = data.length) : data' = data := by
  unfold Has at h h'
  rw [hlen, h] at h'
  exact (Except.ok.inj h').symm

theorem has_append {xs ys : List UInt8} :
    m.Has a (xs ++ ys) ↔ m.Has a xs ∧ m.Has (a + xs.length) ys := by
  simp only [has_iff, List.length_append]
  constructor
  · rintro ⟨ha, hsize, hbyte⟩
    refine ⟨⟨ha, by omega, fun i hi => ?_⟩, ⟨by omega, by omega, fun i hi => ?_⟩⟩
    · rw [hbyte i (by omega), List.getElem?_append_left hi]
    · have := hbyte (xs.length + i) (by omega)
      rw [List.getElem?_append_right (by omega), Nat.add_sub_cancel_left] at this
      rw [← this]
      congr 1
      omega
  · rintro ⟨⟨ha, -, hxs⟩, -, hsize, hys⟩
    refine ⟨ha, by omega, fun i hi => ?_⟩
    by_cases hlt : i < xs.length
    · rw [hxs i hlt, List.getElem?_append_left hlt]
    · have := hys (i - xs.length) (by omega)
      rw [List.getElem?_append_right (by omega), ← this]
      congr 1
      omega

theorem Has.left {xs ys : List UInt8} (h : m.Has a (xs ++ ys)) : m.Has a xs := (has_append.1 h).1

theorem Has.right {xs ys : List UInt8} (h : m.Has a (xs ++ ys)) : m.Has (a + xs.length) ys :=
  (has_append.1 h).2

/-- As many bytes are read as have been asked for. -/
theorem length_of_read {n : Int} (h : m.read a n = .ok data) : data.length = n.toNat := by
  unfold read at h
  split at h
  next hin =>
    obtain ⟨ha, hn, hsize⟩ := inside_iff.1 hin
    obtain rfl := Except.ok.inj h
    unfold size at hsize
    rw [Array.length_toList, Array.size_extract]
    omega
  next => cases h

/-! ## Memories that agree -/

namespace Same

theorem refl (P : Int → Prop) (m : Memory) : Same P m m := ⟨rfl, fun _ _ => rfl⟩

theorem symm (h : Same P m m') : Same P m' m := ⟨h.size.symm, fun x hx => (h.byte x hx).symm⟩

theorem trans (h : Same P m m') (h' : Same P m' m'') : Same P m m'' :=
  ⟨h'.size.trans h.size, fun x hx => (h'.byte x hx).trans (h.byte x hx)⟩

theorem mono (h : Same P m m') (hQ : ∀ x, Q x → P x) : Same Q m m' :=
  ⟨h.size, fun x hx => h.byte x (hQ x hx)⟩

theorem top (h : Same P m m') : m'.top = m.top := top_eq h.size

end Same

/-- **What lies where two memories agree lies in both.** -/
theorem Has.same (h : m.Has a data) (hs : Same P m m')
    (hP : ∀ x, a ≤ x → x < a + data.length → P x) : m'.Has a data := by
  obtain ⟨ha, hsize, hbyte⟩ := has_iff.1 h
  refine has_iff.2 ⟨ha, by rw [hs.size]; exact hsize, fun i hi => ?_⟩
  rw [hs.byte _ (hP _ (by omega) (by omega)), hbyte i hi]

/-! ## Writes -/

@[simp] theorem size_put (m : Memory) (a : Int) (data : List UInt8) :
    (m.put a data).size = m.size :=
  size_overwrite ..

@[simp] theorem top_put (m : Memory) (a : Int) (data : List UInt8) : (m.put a data).top = m.top :=
  top_eq (size_put m a data)

theorem getElem?_overwrite (bytes : Array UInt8) (start : Nat) (data : List UInt8) (i : Nat)
    (h : start + data.length ≤ bytes.size) :
    (overwrite bytes start data)[i]? =
      if start ≤ i ∧ i < start + data.length then data[i - start]? else bytes[i]? := by
  induction data generalizing bytes start with
  | nil => rw [overwrite, if_neg (by simp)]
  | cons b rest ih =>
    rw [List.length_cons] at h
    rw [overwrite, ih _ _ (by simp only [Array.size_setIfInBounds]; omega),
      Array.getElem?_setIfInBounds, List.length_cons]
    by_cases hi : start = i
    · subst hi
      rw [if_neg (by omega), if_pos rfl, if_pos (by omega), if_pos (by omega), Nat.sub_self]
      rfl
    · by_cases hr : start + 1 ≤ i ∧ i < start + 1 + rest.length
      · rw [if_pos hr, if_pos (by omega), show i - start = i - (start + 1) + 1 by omega]
        rfl
      · rw [if_neg hr, if_neg hi, if_neg (by omega)]

theorem byte?_put (ha : 0 ≤ a) (hsize : a + data.length ≤ m.size) (x : Int) :
    (m.put a data).byte? x =
      if a ≤ x ∧ x < a + data.length then data[(x - a).toNat]? else m.byte? x := by
  simp only [size] at hsize
  unfold byte? put
  by_cases hx : 0 ≤ x
  · rw [if_pos hx, if_pos hx, getElem?_overwrite _ _ _ _ (by omega)]
    by_cases hr : a ≤ x ∧ x < a + data.length
    · rw [if_pos (by omega), if_pos hr]
      congr 1
      omega
    · rw [if_neg (by omega), if_neg hr]
  · rw [if_neg hx, if_neg hx, if_neg (by omega)]

/-- What has been put somewhere lies there. -/
theorem has_put (ha : 0 ≤ a) (hsize : a + data.length ≤ m.size) : (m.put a data).Has a data := by
  refine has_iff.2 ⟨ha, by rwa [size_put], fun i hi => ?_⟩
  rw [byte?_put ha hsize, if_pos (by omega)]
  congr 1
  omega

theorem write_eq_ok (h : m.write a data = .ok m') :
    m' = m.put a data ∧ 0 ≤ a ∧ a + data.length ≤ m.size := by
  unfold write at h
  split at h
  next hin =>
    obtain ⟨h₀, -, h₁⟩ := inside_iff.1 hin
    exact ⟨(Except.ok.inj h).symm, h₀, h₁⟩
  next => cases h

/-- **A write leaves everything alone but its own place.** -/
theorem same_put (ha : 0 ≤ a) (hsize : a + data.length ≤ m.size) :
    Same (fun x => x < a ∨ a + data.length ≤ x) m (m.put a data) :=
  ⟨size_put .., fun x hx => by rw [byte?_put ha hsize, if_neg (by omega)]⟩

/-! ## The top of memory -/

theorem top_le_size (m : Memory) : m.top ≤ m.size := by
  unfold top
  rw [Int.bmod_def]
  have hle : (m.size : Int) % (0x100000000 : Nat) ≤ m.size := by omega
  split <;> omega

theorem top_lt (m : Memory) : m.top < 0x80000000 := by
  have := Int.bmod_lt (x := (m.size : Int)) (m := 0x100000000) (by decide)
  unfold top
  omega

end ChannelBasic.Memory
