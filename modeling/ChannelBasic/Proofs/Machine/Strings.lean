import ChannelBasic.Machine.Native
import ChannelBasic.Proofs.Machine.Memory
import ChannelBasic.Proofs.Machine.Words
import ChannelBasic.Proofs.Text.Units

/-!
# Proofs/Machine/Strings — texts are written into records and read from them

`m.HasRecord a c` says that a string record with room for `c` code units lies at an address: its
capacity is found there, and all of it lies inside memory.  Its length is not looked at.  **A text can
be written exactly where a record lies** (`writeString_respects_record`).  A write replaces the whole
record by one of the same capacity, so that what surrounds it stays as it was, and the record then
gives back the units that had room in it (`readString_record`).
-/

namespace ChannelBasic

namespace Memory

variable {m m' : Memory} {a : Int} {c : Nat} {units : List UInt16} {s : String}

/-! ## Words -/

theorem read_error {n : Int} {f : Fault} (h : m.read a n = .error f) : f = .segmentationFault := by
  unfold read at h
  split at h
  · cases h
  · exact (Except.error.inj h).symm

theorem readInt32_error {f : Fault} (h : m.readInt32 a = .error f) : f = .segmentationFault := by
  cases hread : m.read a 4 with
  | ok data =>
    rw [readInt32, hread] at h
    cases h
  | error f' =>
    rw [readInt32, hread] at h
    exact (Except.error.inj h).symm.trans (read_error hread)

/-- A size is read where its bytes lie. -/
theorem readInt32_eq_ok_iff {n : Nat} :
    m.readInt32 a = .ok n ↔ n < 2 ^ 31 ∧ m.Has a (Word.bytes 4 n) := by
  constructor
  · intro h
    cases hread : m.read a 4 with
    | error f =>
      rw [readInt32, hread] at h
      cases h
    | ok data =>
      rw [readInt32, hread] at h
      have hn : Word.signed data = n := Except.ok.inj h
      have hlen : data.length = 4 := length_of_read hread
      have hdata : Word.bytes 4 n = data := by
        rw [← Word.ofInt_natCast, ← hn, ← hlen, Word.ofInt_signed]
      obtain ⟨-, hhigh⟩ := Word.fits_signed data
      rw [hlen, hn] at hhigh
      refine ⟨by omega, ?_⟩
      rw [hdata, Has, hlen]
      exact hread
  · rintro ⟨hn, h⟩
    rw [readInt32, h.read (by rw [Word.length_bytes]; rfl)]
    exact congrArg Except.ok (Word.signed_bytes_four hn)

/-! ## Records -/

theorem length_record (units : List UInt16) (c : Nat) :
    (encodeString units (stringSize c)).length = stringSize c :=
  length_encodeString_of_le (stringHeader_le_stringSize c) units

/-- A string record with room for `c` code units lies at an address. -/
structure HasRecord (m : Memory) (a : Int) (c : Nat) : Prop where
  capacity : m.readInt32 (a + 4) = .ok c
  nonneg : 0 ≤ a
  le_size : a + stringSize c ≤ m.size
  fits : Word.fits32 (a + stringSize c) = true

theorem HasRecord.end_lt (h : m.HasRecord a c) : a + stringSize c < 2 ^ 31 :=
  (Word.fits32_iff.1 h.fits).2

/-- **A record says how large it is.** -/
theorem HasRecord.stringSizeAt (h : m.HasRecord a c) : m.stringSizeAt a = .ok (stringSize c) := by
  have hlow := h.nonneg
  have hend := h.end_lt
  have hsize : (stringHeader + 2 * c : Int) = (stringSize c : Nat) := by
    rw [stringSize]
    push_cast
    rfl
  have haddress : Word.fits32 (a + 4) = true :=
    Word.fits32_iff.2 (by simp only [stringSize, stringHeader] at hend; omega)
  have hfits : (decide (0 ≤ (c : Int)) && Word.fits32 (stringSize c : Nat)) = true := by
    rw [Bool.and_eq_true, decide_eq_true_iff, Word.fits32_iff]
    omega
  unfold Memory.stringSizeAt
  -- whether the numbers fit is known by now, and not to be computed
  generalize Word.fits32 = fits at haddress hfits ⊢
  simp only [haddress, h.capacity, bind, Except.bind, hsize, hfits, ↓reduceIte]
  rfl

theorem HasRecord.recordSizeAt (h : m.HasRecord a c) : m.recordSizeAt a = .ok (stringSize c) := by
  have hinside : (m.inside a (stringSize c) && Word.fits32 (a + stringSize c)) = true := by
    rw [Bool.and_eq_true, inside_iff]
    exact ⟨⟨h.nonneg, by omega, h.le_size⟩, h.fits⟩
  simp only [Memory.recordSizeAt, h.stringSizeAt, bind, Except.bind, hinside, ↓reduceIte]
  rfl

/-- What has a size has a capacity. -/
theorem stringSizeAt_cases (m : Memory) (a : Int) :
    (∃ c : Nat, m.readInt32 (a + 4) = .ok c ∧ m.stringSizeAt a = .ok (stringSize c)) ∨
      m.stringSizeAt a = .error .segmentationFault := by
  simp only [stringSizeAt, bind, Except.bind, pure, Except.pure, throw, throwThe,
    MonadExceptOf.throw]
  split
  next =>
    split
    next f hf => exact .inr (by rw [readInt32_error hf])
    next n hn =>
      split
      next hfits =>
        rw [Bool.and_eq_true, decide_eq_true_iff] at hfits
        obtain ⟨c, rfl⟩ := Int.eq_ofNat_of_zero_le hfits.1
        refine .inl ⟨c, hn, ?_⟩
        rw [stringSize]
        push_cast
        rfl
      next => exact .inr rfl
  next => exact .inr rfl

/-- **There is a record, or there is a segmentation fault.** -/
theorem recordSizeAt_cases (m : Memory) (a : Int) :
    (∃ c, m.HasRecord a c) ∨ m.recordSizeAt a = .error .segmentationFault := by
  simp only [Memory.recordSizeAt, bind, Except.bind, pure, Except.pure, throw, throwThe,
    MonadExceptOf.throw]
  obtain ⟨c, hc, hsize⟩ | hfault := stringSizeAt_cases m a
  · rw [hsize]
    dsimp only
    split
    next h =>
      rw [Bool.and_eq_true, inside_iff] at h
      obtain ⟨⟨hlow, -, hinside⟩, hfits⟩ := h
      exact .inl ⟨c, hc, hlow, hinside, hfits⟩
    next => exact .inr rfl
  · rw [hfault]
    exact .inr rfl

/-- Where a record lies a write puts one of the same capacity. -/
theorem HasRecord.writeString (h : m.HasRecord a c) (s : String) :
    m.writeString a s = .ok (m.put a (encodeString (Utf16.encode s) (stringSize c))) := by
  have hinside : m.inside a (encodeString (Utf16.encode s) (stringSize c)).length = true := by
    rw [length_record]
    exact inside_iff.2 ⟨h.nonneg, by omega, h.le_size⟩
  rw [Memory.writeString, h.recordSizeAt]
  change m.write a (encodeString (Utf16.encode s) (stringSize c)) = _
  rw [write, if_pos hinside]
  rfl

/-- **A text can be written exactly where a record lies.** -/
theorem writeString_eq_ok_iff :
    m.writeString a s = .ok m' ↔
      ∃ c, m.HasRecord a c ∧ m' = m.put a (encodeString (Utf16.encode s) (stringSize c)) := by
  constructor
  · intro h
    obtain ⟨c, hc⟩ | hfault := recordSizeAt_cases m a
    · rw [hc.writeString] at h
      exact ⟨c, hc, (Except.ok.inj h).symm⟩
    · rw [Memory.writeString, hfault] at h
      cases h
  · rintro ⟨c, hc, rfl⟩
    exact hc.writeString s

/-! ## Records that have been written -/

/-- Where the parts of a record lie, a record lies. -/
theorem hasRecord_of_has (h : m.Has a (encodeString units (stringSize c)))
    (hend : a + stringSize c < 2 ^ 31) : m.HasRecord a c := by
  have hlow := h.nonneg
  have hsize := h.le_size
  rw [length_record] at hsize
  have hcapacity := h
  rw [encodeString_eq] at hcapacity
  have hword := hcapacity.left.right
  rw [Word.length_bytes] at hword
  have hc : c < 2 ^ 31 := by
    simp only [stringSize] at hend
    omega
  exact ⟨readInt32_eq_ok_iff.2 ⟨hc, hword⟩, hlow, hsize, Word.fits32_iff.2 (by omega)⟩

/-- **A record gives back the text of the units that had room in it.** -/
theorem readString_record (h : m.Has a (encodeString units (stringSize c)))
    (hend : a + stringSize c < 2 ^ 31) :
    m.readString a = .ok (Utf16.decode (units.take c)) := by
  have hlow := h.nonneg
  have hc : c < 2 ^ 31 := by
    simp only [stringSize] at hend
    omega
  rw [readString, (hasRecord_of_has h hend).recordSizeAt]
  change (m.read a (stringSize c) >>= fun bytes => pure (Utf16.decode (decodeString bytes))) = _
  rw [h.read (by rw [length_record]), ← decodeString_encodeString units hc]
  rfl

end Memory

/-- The function of a host that puts a text into the record at an address. -/
def Native.writeText (a : Int) (s : String) : Native :=
  ofUpdate fun memory _ => memory.writeString a s

namespace Memory

/-- **A text can be written exactly where a record lies.**  The write changes nothing outside of the
record and leaves its capacity as it was, and the record then gives back the units that had room in
it: the text itself if all of them had.  Where there is no record, memory stays as it was. -/
theorem writeString_respects_record (m : Memory) (a : Int) (s : String) :
    ((∃ m', m.writeString a s = .ok m') ↔ ∃ c, m.HasRecord a c) ∧
    (∀ c m', m.HasRecord a c → m.writeString a s = .ok m' →
      m.Same (fun x => x < a ∨ a + stringSize c ≤ x) m' ∧
      m'.readInt32 (a + 4) = m.readInt32 (a + 4) ∧
      m'.readString a =
        .ok (Utf16.decode ((Utf16.encode s).take (min c (Utf16.units s)))) ∧
      (Utf16.units s ≤ c → m'.readString a = .ok s)) ∧
    (∀ f, m.writeString a s = .error f →
      f = .segmentationFault ∧ ∀ sp, (Native.writeText a s m sp).memory = m) := by
  refine ⟨⟨?_, ?_⟩, fun c m' hc h => ?_, fun f h => ⟨?_, fun sp => ?_⟩⟩
  · rintro ⟨m', h⟩
    obtain ⟨c, hc, -⟩ := writeString_eq_ok_iff.1 h
    exact ⟨c, hc⟩
  · rintro ⟨c, hc⟩
    exact ⟨_, hc.writeString s⟩
  · rw [hc.writeString] at h
    obtain rfl := Except.ok.inj h
    have hsize : a + (encodeString (Utf16.encode s) (stringSize c)).length ≤ m.size := by
      rw [length_record]
      exact hc.le_size
    have hput := has_put hc.nonneg hsize
    have hsame := same_put hc.nonneg hsize
    have hread := readString_record hput hc.end_lt
    rw [length_record] at hsame
    refine ⟨hsame, ?_, ?_, fun hfits => ?_⟩
    · rw [(hasRecord_of_has hput hc.end_lt).capacity, hc.capacity]
    · rw [hread, Utf16.units, ← List.take_take, List.take_length]
    · rw [hread, List.take_of_length_le hfits, Utf16.decode_encode]
  · obtain ⟨c, hc⟩ | hfault := recordSizeAt_cases m a
    · rw [hc.writeString] at h
      cases h
    · rw [writeString, hfault] at h
      exact (Except.error.inj h).symm
  · rw [Native.writeText, Native.ofUpdate, h]

/-- Two units have room: of a text whose second character is a pair, the first half of the pair is
kept, and it is read as the replacement character.  The byte behind the record stays.  One address
further on the capacity is far too large. -/
theorem writeString_respects_record_halved :
    let m : Memory := ⟨(Word.bytes 4 9 ++ Word.bytes 4 2 ++ [1, 1, 1, 1, 7]).toArray⟩
    m.HasRecord 0 2 ∧ (∃ m', m.writeString 0 "a😀b" = .ok m' ∧ m'.byte? 12 = some 7 ∧
      m'.readInt32 4 = .ok 2 ∧ m'.readString 0 = .ok "a\uFFFD") ∧
      m.writeString 1 "a" = .error .segmentationFault ∧ (Native.writeText 1 "a" m 0).memory = m := by
  intro m
  have hm : m.HasRecord 0 2 := ⟨by decide +kernel, by decide, by decide, by decide⟩
  have hfault : m.writeString 1 "a" = .error .segmentationFault := by decide +kernel
  obtain ⟨hiff, hwrite, -⟩ := writeString_respects_record m 0 "a😀b"
  obtain ⟨m', h⟩ := hiff.2 ⟨2, hm⟩
  obtain ⟨hsame, hcapacity, htext, -⟩ := hwrite 2 m' hm h
  refine ⟨hm, ⟨m', h, ?_, hcapacity.trans hm.capacity, ?_⟩, hfault,
    ((writeString_respects_record m 1 "a").2.2 _ hfault).2 0⟩
  · rw [hsame.byte 12 (.inr (by decide))]
    decide +kernel
  · rw [htext]
    decide +kernel

end Memory

end ChannelBasic
