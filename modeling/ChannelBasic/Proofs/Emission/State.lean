import Mathlib.Data.List.Perm.Subperm
import ChannelBasic.Emission.Module
import ChannelBasic.Program.Reach
import ChannelBasic.Proofs.Machine.Words
import ChannelBasic.Proofs.Passes

/-!
# Proofs/Emission/State — texts and labels, while code is emitted

Emitting code only adds to what it keeps: a text that has been entered stays where it is, and so does
the label of a function (`Grows`).  All texts lie one after the other (`StaticData.Sound`), and
**every function with a label has its code or waits for it** (`Counted`).
-/

namespace ChannelBasic

open Code

/-! ## Texts -/

/-- The record of a text. -/
def StaticText.record (t : StaticText) : List UInt8 :=
  encodeString (Utf16.encode t.content) (stringSize t.capacity)

theorem StaticText.length_record (t : StaticText) : t.record.length = stringSize t.capacity := by
  rw [record, length_encodeString, max_eq_left (stringHeader_le_stringSize _)]

namespace StaticData

variable {d : StaticData} {content : String} {capacity : Nat}

/-- Every record lies at its offset, and the size is that of all records. -/
structure Sound (d : StaticData) : Prop where
  size : d.size = d.bytes.length
  texts : ∀ t ∈ d.texts, ∃ before after,
    d.bytes = before ++ t.record ++ after ∧ before.length = t.offset

theorem sound_empty : empty.Sound := ⟨rfl, by simp [empty]⟩

/-- A text is found where it has been entered. -/
theorem mem_intern (d : StaticData) (content : String) (capacity : Nat) :
    ⟨content, capacity, (d.intern content capacity).1⟩ ∈ (d.intern content capacity).2.texts := by
  unfold intern
  split
  next t ht =>
    have hmem := List.mem_of_find?_eq_some ht
    have heq : t.content = content ∧ t.capacity = capacity := by simpa using List.find?_some ht
    obtain ⟨rfl, rfl⟩ := heq
    exact hmem
  next => simp

/-- **A text that is entered comes after all others**, if it is not among them. -/
theorem prefix_intern (d : StaticData) (content : String) (capacity : Nat) :
    d.texts <+: (d.intern content capacity).2.texts := by
  unfold intern
  split
  · exact List.prefix_rfl
  · exact List.prefix_append _ _

theorem Sound.intern (h : d.Sound) : (d.intern content capacity).2.Sound := by
  unfold StaticData.intern
  split
  · exact h
  · have hbytes : (⟨d.texts ++ [⟨content, capacity, d.size⟩], d.size + stringSize capacity⟩ :
        StaticData).bytes = d.bytes ++ (⟨content, capacity, d.size⟩ : StaticText).record := by
      simp [bytes, StaticText.record]
    refine ⟨?_, fun t ht => ?_⟩
    · rw [hbytes, List.length_append, StaticText.length_record, ← h.size]
    · rw [hbytes]
      obtain ht | ht := List.mem_append.1 ht
      · obtain ⟨before, after, hb, hlen⟩ := h.texts t ht
        exact ⟨before, after ++ StaticText.record ⟨content, capacity, d.size⟩,
          by simp only [hb, List.append_assoc], hlen⟩
      · obtain rfl : t = ⟨content, capacity, d.size⟩ := by simpa using ht
        exact ⟨d.bytes, [], by simp, h.size.symm⟩

end StaticData

theorem Program.sound_internMention (p : Program) (mention : Mention) {d : StaticData}
    (h : d.Sound) : (p.internMention d mention).Sound := by
  cases mention with
  | text content type => exact h.intern
  | call callee =>
    rw [internMention]
    split
    · split
      · exact h
      · exact h.intern
    · exact h

/-- The texts of some functions lie one after the other. -/
theorem Program.sound_staticTexts (p : Program) (functions : List Nat) :
    (p.staticTexts functions).Sound := by
  have key (mentions : List Mention) (d : StaticData) (h : d.Sound) :
      (mentions.foldl p.internMention d).Sound := by
    induction mentions generalizing d with
    | nil => exact h
    | cons mention mentions ih => exact ih _ (p.sound_internMention mention h)
  exact key _ _ StaticData.sound_empty

/-! ## Functions that have a label -/

/-- Every function that is called satisfies `C`; there are `n` functions. -/
def Mention.Allow (n : Nat) (C : Nat → Prop) (mentions : List Mention) : Prop :=
  ∀ k < n, .call (some k) ∈ mentions → C k

@[simp] theorem Mention.allow_append {n : Nat} {C : Nat → Prop} {xs ys : List Mention} :
    Allow n C (xs ++ ys) ↔ Allow n C xs ∧ Allow n C ys := by
  simp only [Allow, List.mem_append, or_imp]
  exact ⟨fun h => ⟨fun k hk => (h k hk).1, fun k hk => (h k hk).2⟩,
    fun h k hk => ⟨h.1 k hk, h.2 k hk⟩⟩

namespace EmissionState

/-- The functions with a label are those whose code is done and those that wait for it. -/
structure Counted (done : List Nat) (s : EmissionState) : Prop where
  perm : (s.entries.map Prod.fst).Perm (done ++ s.queue)
  nodup : (s.entries.map Prod.fst).Nodup

/-- All texts and labels that are known are known later, too; texts stay in their places. -/
structure Known (s z : EmissionState) : Prop where
  static : s.static.texts <+: z.static.texts
  entries : ∀ e ∈ s.entries, e ∈ z.entries

/-- More texts and labels are known; only functions that satisfy `C` have got a label. -/
structure Grows (C : Nat → Prop) (s s' : EmissionState) : Prop extends Known s s' where
  sound : s.static.Sound → s'.static.Sound
  new : ∀ e ∈ s'.entries, e ∈ s.entries ∨ C e.1
  counted : ∀ done, s.Counted done → s'.Counted done

variable {C : Nat → Prop} {s s' s'' : EmissionState}

theorem Known.texts (h : s.Known s') : ∀ t ∈ s.static.texts, t ∈ s'.static.texts :=
  fun _ ht => h.static.subset ht

theorem Known.refl (s : EmissionState) : s.Known s := ⟨List.prefix_rfl, fun _ h => h⟩

theorem Known.trans (h : s.Known s') (h' : s'.Known s'') : s.Known s'' :=
  ⟨h.static.trans h'.static, fun e he => h'.entries e (h.entries e he)⟩

theorem Grows.passage (C : Nat → Prop) : Passage (Grows C) where
  refl s := ⟨.refl s, fun h => h, fun _ h => .inl h, fun _ h => h⟩
  trans h h' := ⟨h.toKnown.trans h'.toKnown, fun hs => h'.sound (h.sound hs),
    fun e he => (h'.new e he).elim (h.new e) .inr, fun d hd => h'.counted d (h.counted d hd)⟩

theorem Grows.refl (C : Nat → Prop) (s : EmissionState) : s.Grows C s := (Grows.passage C).refl s

theorem Grows.trans (h : s.Grows C s') (h' : s'.Grows C s'') : s.Grows C s'' :=
  (Grows.passage C).trans h h'

theorem Grows.known (h : s.Grows C s') : s.Known s' := h.toKnown

/-- What is known after a step was made includes what was known before. -/
theorem Grows.before (h : s.Grows C s') (h' : s'.Known s'') : s.Known s'' := h.known.trans h'

/-- **No more functions are done than there are**: once that many are, none waits. -/
theorem Counted.queue_eq_nil {n : Nat} {done : List Nat} (h : s.Counted done)
    (hlt : ∀ e ∈ s.entries, e.1 < n) (hdone : n ≤ done.length) : s.queue = [] := by
  have hsub : ∀ k ∈ s.entries.map Prod.fst, k ∈ List.range n := by
    intro k hk
    obtain ⟨e, he, rfl⟩ := List.mem_map.1 hk
    exact List.mem_range.2 (hlt e he)
  have hle : (s.entries.map Prod.fst).length ≤ n := by
    simpa using (h.nodup.subperm hsub).length_le
  have hlen := h.perm.length_eq
  rw [List.length_append] at hlen
  exact List.eq_nil_of_length_eq_zero (by omega)

/-- A function that is taken from the queue counts as done. -/
theorem Counted.popped {n : Nat} {done rest : List Nat} (h : s.Counted done)
    (hq : s.queue = n :: rest) :
    ({ s with queue := rest } : EmissionState).Counted (done ++ [n]) := by
  refine ⟨?_, h.nodup⟩
  have hperm := h.perm
  rw [hq] at hperm
  simpa using hperm

end EmissionState

namespace Emission

variable {s : EmissionState} {C : Nat → Prop}

theorem ends_label (C : Nat → Prop) : Ends label s fun _ s' => s.Grows C s' :=
  Ends.changes ⟨⟨List.prefix_rfl, fun _ h => h⟩, fun h => h, fun _ h => .inl h,
    fun _ h => ⟨h.perm, h.nodup⟩⟩

/-- A text that is entered is known from then on. -/
theorem ends_intern (content : String) (capacity : Nat) :
    Ends (intern content capacity) s fun x s' => s.Grows C s' ∧
      ∃ t ∈ s'.static.texts, t.content = content ∧ t.capacity = capacity ∧
        x = .static (Int32.ofNat t.offset) := by
  exact Ends.changes ⟨⟨⟨s.static.prefix_intern content capacity, fun _ h => h⟩, fun h => h.intern,
    fun _ h => .inl h, fun _ h => ⟨h.perm, h.nodup⟩⟩, _, s.static.mem_intern content capacity, rfl,
    rfl, rfl⟩

theorem mem_of_lookup {entries : List (Nat × Label)} {k : Nat} {l : Label}
    (h : entries.lookup k = some l) : (k, l) ∈ entries := by
  obtain ⟨before, after, rfl, -⟩ := List.lookup_eq_some_iff.1 h
  simp

/-- A function that is called has a label from then on. -/
theorem ends_entry {k : Nat} (hk : C k) :
    Ends (entry k) s fun l s' => s.Grows C s' ∧ (k, l) ∈ s'.entries := by
  unfold entry
  refine Ends.reads ?_
  split
  next l hl => exact Ends.value ⟨.refl C s, mem_of_lookup hl⟩
  next hnone =>
    refine Ends.seq (P := fun l s' => s.Grows C s' ∧ s'.entries = s.entries) ?_ ?_
    · exact (ends_label C).both (Ends.changes rfl)
    · rintro l s₁ ⟨hg, hentries⟩
      refine Ends.seq (Ends.modifies (Q := fun _ s' => s.Grows C s' ∧ (k, l) ∈ s'.entries) ?_)
        fun _ s₂ h => Ends.value h
      refine ⟨⟨⟨hg.static, fun e he => ?_⟩, hg.sound, fun e he => ?_, fun done hd => ?_⟩, by simp⟩
      · exact List.mem_cons_of_mem _ (hg.entries e he)
      · obtain rfl | he := List.mem_cons.1 he
        · exact .inr hk
        · exact hg.new e he
      · have hd := hg.counted done hd
        have hnot : k ∉ s₁.entries.map Prod.fst := by
          rw [hentries]
          intro hmem
          obtain ⟨e, he, rfl⟩ := List.mem_map.1 hmem
          have hne := List.lookup_eq_none_iff.1 hnone e he
          simp at hne
        refine ⟨?_, List.nodup_cons.2 ⟨hnot, hd.nodup⟩⟩
        refine (hd.perm.cons k).trans ?_
        rw [← List.append_assoc]
        exact (List.perm_append_singleton k _).symm

end Emission

end ChannelBasic
