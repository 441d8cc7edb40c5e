import Mathlib.Data.List.Induction
import Mathlib.Data.List.Nodup
import ChannelBasic.Proofs.Emission.State

/-!
# Proofs/Program/Interning — a text is entered once and never moves

A module's texts are entered by two passes: literals and the names of native functions while storage
is laid out, and again whatever its code turns out to load.  Offsets that have been handed out stand
in instructions already, so texts may only be added.  What is entered is named by its text and its
capacity (`TextRequest.key`), however it is asked for; the texts after some requests are **the
requests in the order of their first use**, and their records tile the bytes from zero to the size
(`StaticData.entered_once`).
-/

namespace ChannelBasic

/-! ## Requests -/

/-- What static data can be asked for. -/
inductive TextRequest where
  /-- The record of a text with a capacity. -/
  | text (content : String) (capacity : Nat)
  /-- The record of the name of a native function. -/
  | name (function : String)
  deriving DecidableEq, Repr

/-- The text that is asked for, and its capacity. -/
def TextRequest.key : TextRequest → String × Nat
  | .text content capacity => (content, capacity)
  | .name function => (function, Utf16.units function)

/-- What a text that has been entered goes by. -/
def StaticText.key (t : StaticText) : String × Nat := (t.content, t.capacity)

namespace StaticData

/-- The offset that is handed out, and the texts after that. -/
def answer (d : StaticData) : TextRequest → Nat × StaticData
  | .text content capacity => d.intern content capacity
  | .name function => d.internName function

/-- The texts after some requests. -/
def after (rs : List TextRequest) : StaticData := rs.foldl (fun d r => (d.answer r).2) empty

/-- Records lie one after the other, from one offset to another. -/
def Tile (low high : Nat) : List StaticText → Prop
  | [] => low = high
  | t :: rest => t.offset = low ∧ Tile (low + (8 + 2 * t.capacity)) high rest

variable {d : StaticData} {t s : StaticText} {r : TextRequest} {low high : Nat}
  {texts later : List StaticText}

theorem answer_eq (d : StaticData) (r : TextRequest) : d.answer r = d.intern r.key.1 r.key.2 := by
  cases r <;> rfl

theorem after_concat (rs : List TextRequest) (r : TextRequest) :
    after (rs ++ [r]) = ((after rs).answer r).2 := by
  rw [after, List.foldl_append]
  rfl

/-! ## Records one after the other -/

theorem Tile.le (h : Tile low high texts) : low ≤ high := by
  induction texts generalizing low with
  | nil => exact Nat.le_of_eq h
  | cons t rest ih => exact (Nat.le_add_right _ _).trans (ih h.2)

theorem Tile.append {middle : Nat} (h : Tile low middle texts) (h' : Tile middle high later) :
    Tile low high (texts ++ later) := by
  induction texts generalizing low with
  | nil => exact (show low = middle from h) ▸ h'
  | cons t rest ih => exact ⟨h.1, ih h.2⟩

/-- A record lies between the ends. -/
theorem Tile.bounds (h : Tile low high texts) (ht : t ∈ texts) :
    low ≤ t.offset ∧ t.offset + (8 + 2 * t.capacity) ≤ high := by
  induction texts generalizing low with
  | nil => cases ht
  | cons s rest ih =>
    have hlow := h.1
    obtain rfl | ht := List.mem_cons.1 ht
    · have := h.2.le
      omega
    · have := ih h.2 ht
      omega

/-- **Two records start at different places**: even one without room for a unit has a header. -/
theorem Tile.eq_of_offset_eq (h : Tile low high texts) (ht : t ∈ texts) (hs : s ∈ texts)
    (heq : t.offset = s.offset) : t = s := by
  induction texts generalizing low with
  | nil => cases ht
  | cons u rest ih =>
    have hu := h.1
    rw [List.mem_cons] at ht hs
    obtain rfl | ht := ht
    · obtain rfl | hs := hs
      · rfl
      · have := (h.2.bounds hs).1
        omega
    · obtain rfl | hs := hs
      · have := (h.2.bounds ht).1
        omega
      · exact ih h.2 ht hs

/-! ## One request -/

/-- No text stands twice, and the records lie one after the other. -/
structure Orderly (d : StaticData) : Prop where
  distinct : (d.texts.map StaticText.key).Nodup
  tile : Tile 0 d.size d.texts

theorem orderly_empty : empty.Orderly := ⟨List.nodup_nil, rfl⟩

/-- What is there is found, and nothing changes. -/
theorem answer_of_mem (h : d.Orderly) (ht : t ∈ d.texts) (hr : t.key = r.key) :
    d.answer r = (t.offset, d) := by
  rw [answer_eq, intern]
  split
  next s hs =>
    have hfound : s.key = r.key := by simpa [StaticText.key, Prod.ext_iff] using List.find?_some hs
    have hmem := List.mem_of_find?_eq_some hs
    rw [List.inj_on_of_nodup_map h.distinct hmem ht (hfound.trans hr.symm)]
  next hnone =>
    have hne := List.find?_eq_none.1 hnone t ht
    simp [← hr, StaticText.key] at hne

/-- What is not there comes after everything else. -/
theorem answer_of_not_mem (hr : r.key ∉ d.texts.map StaticText.key) :
    d.answer r = (d.size,
      ⟨d.texts ++ [⟨r.key.1, r.key.2, d.size⟩], d.size + (8 + 2 * r.key.2)⟩) := by
  rw [answer_eq, intern]
  split
  next s hs =>
    have hfound : s.key = r.key := by simpa [StaticText.key, Prod.ext_iff] using List.find?_some hs
    exact absurd (hfound ▸ List.mem_map_of_mem (List.mem_of_find?_eq_some hs)) hr
  next => rfl

/-- **A request is answered with the offset of a text that is there**, then if not before. -/
theorem exists_answered (d : StaticData) (r : TextRequest) :
    ∃ t ∈ (d.answer r).2.texts, t.key = r.key ∧ t.offset = (d.answer r).1 := by
  rw [answer_eq]
  exact ⟨_, mem_intern d r.key.1 r.key.2, rfl, rfl⟩

theorem prefix_answer (d : StaticData) (r : TextRequest) : d.texts <+: (d.answer r).2.texts := by
  rw [answer_eq]
  exact prefix_intern d _ _

theorem Orderly.answer (h : d.Orderly) (r : TextRequest) : (d.answer r).2.Orderly := by
  by_cases hr : r.key ∈ d.texts.map StaticText.key
  · obtain ⟨t, ht, hkey⟩ := List.mem_map.1 hr
    rwa [answer_of_mem h ht hkey]
  · rw [answer_of_not_mem hr]
    refine ⟨?_, h.tile.append ⟨rfl, rfl⟩⟩
    rw [List.map_append, List.nodup_append']
    refine ⟨h.distinct, List.nodup_singleton _, ?_⟩
    simpa [StaticText.key] using hr

/-! ## Requests one after the other -/

theorem orderly_after (rs : List TextRequest) : (after rs).Orderly := by
  induction rs using List.reverseRecOn with
  | nil => exact orderly_empty
  | append_singleton rs r ih => exact after_concat rs r ▸ ih.answer r

theorem sound_after (rs : List TextRequest) : (after rs).Sound := by
  induction rs using List.reverseRecOn with
  | nil => exact sound_empty
  | append_singleton rs r ih =>
    rw [after_concat, answer_eq]
    exact ih.intern

/-- **Later requests leave the texts that are there in front.** -/
theorem prefix_after (rs later : List TextRequest) :
    (after rs).texts <+: (after (rs ++ later)).texts := by
  induction later using List.reverseRecOn with
  | nil => exact (List.append_nil rs).symm ▸ List.prefix_rfl
  | append_singleton later r ih =>
    rw [← List.append_assoc, after_concat]
    exact ih.trans (prefix_answer _ r)

/-- **The texts are what was asked for, in the order of its first use.** -/
theorem keys_after (rs : List TextRequest) :
    (after rs).texts.map StaticText.key = (rs.map TextRequest.key).eraseDups := by
  induction rs using List.reverseRecOn with
  | nil => rfl
  | append_singleton rs r ih =>
    have hasked : r.key ∈ (after rs).texts.map StaticText.key ↔
        (rs.map TextRequest.key).elem r.key = true := by
      rw [ih, List.mem_eraseDups, List.elem_eq_mem, decide_eq_true_iff]
    rw [after_concat, List.map_append, List.eraseDups_append, ← ih, List.map_singleton,
      List.removeAll, List.filter_singleton]
    by_cases hr : r.key ∈ (after rs).texts.map StaticText.key
    · obtain ⟨t, ht, hkey⟩ := List.mem_map.1 hr
      rw [answer_of_mem (orderly_after rs) ht hkey, hasked.1 hr]
      simp
    · rw [answer_of_not_mem hr, Bool.eq_false_iff.2 fun h => hr (hasked.2 h)]
      simp [StaticText.key, List.eraseDups_cons]

/-- What was handed out belongs to a text that is still there. -/
theorem exists_of_asked (earlier later : List TextRequest) (r : TextRequest) :
    ∃ t ∈ (after (earlier ++ r :: later)).texts,
      t.key = r.key ∧ t.offset = ((after earlier).answer r).1 := by
  obtain ⟨t, ht, hkey, hoffset⟩ := exists_answered (after earlier) r
  rw [← after_concat] at ht
  have hprefix := prefix_after (earlier ++ [r]) later
  rw [List.append_assoc, List.singleton_append] at hprefix
  exact ⟨t, hprefix.subset ht, hkey, hoffset⟩

/-- The texts after some requests: each is there once and has its place, and a further request
changes nothing about that. -/
structure Entered (rs : List TextRequest) : Prop where
  /-- Each text is there once for each capacity. -/
  distinct : ((after rs).texts.map StaticText.key).Nodup
  /-- Texts are there in the order of their first use, and no others. -/
  order : (after rs).texts.map StaticText.key = (rs.map TextRequest.key).eraseDups
  /-- Their records tile the bytes from zero to the size. -/
  tile : Tile 0 (after rs).size (after rs).texts
  /-- Each record is found among all bytes at its offset. -/
  record : ∀ t ∈ (after rs).texts, ∃ before later,
    (after rs).bytes = before ++ t.record ++ later ∧ before.length = t.offset
  /-- A further request moves no text that is there. -/
  stays : ∀ r, (after rs).texts <+: ((after rs).answer r).2.texts
  /-- A request made before is answered as before, and changes nothing. -/
  again : ∀ earlier r later, rs = earlier ++ r :: later → ∀ r' : TextRequest, r'.key = r.key →
    (after rs).answer r' = (((after earlier).answer r).1, after rs)
  /-- A request is answered as one made before only if it asks for the same. -/
  shared : ∀ earlier r later, rs = earlier ++ r :: later → ∀ r' : TextRequest,
    ((after rs).answer r').1 = ((after earlier).answer r).1 ↔ r'.key = r.key
  /-- As long as all records together stay below `2 ^ 31` bytes, no offset is cut to 32 bits. -/
  fits : (after rs).size < 2 ^ 31 → ∀ t ∈ (after rs).texts, (Int32.ofNat t.offset).toInt = t.offset

/-- **Whatever is asked for, a text is entered once and never moves.** -/
theorem entered_once (rs : List TextRequest) : Entered rs where
  distinct := (orderly_after rs).distinct
  order := keys_after rs
  tile := (orderly_after rs).tile
  record := (sound_after rs).texts
  stays := prefix_answer (after rs)
  again := by
    rintro earlier r later rfl r' hkey
    obtain ⟨t, ht, htkey, hoffset⟩ := exists_of_asked earlier later r
    rw [answer_of_mem (orderly_after _) ht (htkey.trans hkey.symm), hoffset]
  shared := by
    rintro earlier r later rfl r'
    obtain ⟨t, ht, htkey, hoffset⟩ := exists_of_asked earlier later r
    obtain ⟨s, hs, hskey, hsoffset⟩ := exists_answered (after (earlier ++ r :: later)) r'
    rw [← hoffset, ← hsoffset, ← hskey, ← htkey]
    -- both texts are there after the further request, where no two records start at one place
    have ht' := (prefix_answer _ r').subset ht
    have horderly := (orderly_after (earlier ++ r :: later)).answer r'
    exact ⟨fun h => congrArg _ (horderly.tile.eq_of_offset_eq hs ht' h),
      fun h => congrArg _ (List.inj_on_of_nodup_map horderly.distinct hs ht' h)⟩
  fits hsize t ht := by
    have hbounds := (orderly_after rs).tile.bounds ht
    exact Int32.toInt_ofNat_of_lt (by omega)

/-- A name shares the record of a text of its own length, and a record without room for a unit has a
header all the same. -/
example : (after [.text "" 0, .text "ab" 2, .name "ab", .text "ab" 3]).texts.map (·.offset) =
    [0, 8, 20] := by decide +kernel

end StaticData

end ChannelBasic
