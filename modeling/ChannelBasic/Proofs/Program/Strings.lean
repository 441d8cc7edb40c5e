import ChannelBasic.Proofs.Execution.Addresses
import ChannelBasic.Proofs.Program.Containment

/-!
# Proofs/Program/Strings — the strings inside a value

A value that is no string has strings in it if its type is a structured one, at the offsets of its
fields.  They are looked for at most as many types deep as there are structured types, which is deep
enough because no type contains itself (`stringsWithin_succ`); so **the search finds every string
record of a type exactly once**, one behind the other and inside the value
(`Packed.lists_strings`).

Types are gone through by what they contain (`Packed.induction`): a claim holds of a type if it
holds of the types of its fields, which are the fields of a structured type only.
-/

namespace ChannelBasic

open Relation (TransGen)

/-- A structured type is no string. -/
theorem TypeTable.capacity?_of_struct? {t : TypeTable} {id : TypeId} {k : Nat}
    (hk : t.struct? id = some k) : t.capacity? id = none := by
  refine Option.eq_none_iff_forall_ne_some.2 fun c hc => ?_
  rw [capacity?_iff, shape?_of_struct? hk] at hc
  cases hc

/-! ## Fields without gaps -/

namespace Slot

variable {t : TypeTable} {fs : List Slot} {f : Slot}

theorem map_type_packed (t : TypeTable) (offset : Nat) (fs : List Slot) :
    (packed t offset fs).map (·.type) = fs.map (·.type) := by
  induction fs generalizing offset with
  | nil => rfl
  | cons f fs ih => rw [packed_cons, List.map_cons, List.map_cons, ih]

theorem packed_packed (t : TypeTable) (offset : Nat) (fs : List Slot) :
    packed t offset (packed t offset fs) = packed t offset fs := by
  induction fs generalizing offset with
  | nil => rfl
  | cons f fs ih => rw [packed_cons, packed_cons, ih]

theorem le_offset_packed {offset : Nat} (hf : f ∈ packed t offset fs) : offset ≤ f.offset := by
  induction fs generalizing offset with
  | nil => cases hf
  | cons g fs ih =>
    rw [packed_cons] at hf
    obtain rfl | hf := List.mem_cons.1 hf
    · exact le_rfl
    · exact (Nat.le_add_right _ _).trans (ih hf)

/-- Fields without gaps follow each other. -/
theorem follow_packed (t : TypeTable) (offset : Nat) (fs : List Slot) :
    Slot.Follow t (packed t offset fs) := by
  induction fs generalizing offset with
  | nil => exact .nil
  | cons f fs ih =>
    rw [packed_cons]
    refine List.pairwise_cons.2 ⟨fun g hg n hn => ?_, ih _⟩
    have := le_offset_packed hg
    rw [hn] at this
    exact this

end Slot

namespace Program

/-- An analysed program whose structured types have fields without gaps, and none of them contains
itself. -/
structure Packed (p : Program) : Prop where
  analysed : p.Analysed
  flat : p.types.Flat
  acyclic : ∀ k, Acc (Function.swap p.Contains) k
  fields : ∀ (k : Nat) (d : Struct), p.structs[k]? = some d →
    Slot.packed p.types 0 d.fields = d.fields
  sizes : ∀ (k : Nat) (d : Struct), p.structs[k]? = some d →
    p.types.structSizes.lookup k = some (p.types.bytes (d.fields.map (·.type)))

/-- The table of types of an analysed program has CONST on top only. -/
theorem flat_of_analyse {raw : Raw.Program} {q : Program} (h : analyse raw = .ok q) :
    q.types.Flat := by
  obtain ⟨p, s, s', fs, hchecks, -, hrelaid, -⟩ := checks_of_analyse h
  have hs := (typed_of_checked hchecks.written hchecks.ready hchecks.run).1.flat
  have hget := hrelaid.types.get_eq
  refine ⟨fun id b hb => ?_, fun id b hb => ?_⟩ <;> rw [hget] at hb <;>
    rw [hrelaid.types.entries]
  · rw [TypeTable.isConstant, hget]
    exact hs.constant id b hb
  · exact hs.pointer id b hb

/-- A program has no gaps if its structured types are all laid out. -/
theorem packed_of_exact {p q : Program} {s : Layout.Sizing} (h : s.Exact p)
    (hall : ∀ k < p.structs.size, (s.size? k).isSome = true) (hq : q.Analysed)
    (hflat : q.types.Flat) (htypes : q.types = s.types) (hstructs : q.structs = s.structs) :
    q.Packed := by
  have hpacks := (packs_of_exact h hall).1
  have hdeclared {k : Nat} {d : Struct} (hd : q.structs[k]? = some d) :
      ∃ d₀, p.structs[k]? = some d₀ ∧ d = d₀.packed q.types := by
    have hmap : s.structs = p.structs.map (·.packed s.types) := hpacks.structs
    rw [hstructs, hmap, Array.getElem?_map] at hd
    obtain ⟨d₀, hd₀, rfl⟩ := Option.map_eq_some_iff.1 hd
    exact ⟨d₀, hd₀, by rw [htypes]⟩
  -- the fields have the types they had before they were placed
  have hcontains : Subrelation (Function.swap q.Contains) (Function.swap p.Contains) := by
    rintro j k ⟨d, hd, f, hf, hj⟩
    obtain ⟨d₀, hd₀, rfl⟩ := hdeclared hd
    obtain ⟨f₀, hf₀, htype⟩ := List.mem_map.1
      (Slot.map_type_packed q.types 0 d₀.fields ▸ List.mem_map_of_mem hf)
    rw [← htype, htypes, h.types.struct?_eq] at hj
    exact ⟨d₀, hd₀, f₀, hf₀, hj⟩
  refine ⟨hq, hflat, fun k => hcontains.accessible ?_, fun k d hd => ?_, fun k d hd => ?_⟩
  · by_cases hk : k < p.structs.size
    · obtain ⟨z, hz⟩ := Option.isSome_iff_exists.1 (hall k hk)
      obtain ⟨d, hd⟩ := h.done k z hz
      exact hd.acyclic
    · refine Acc.intro k fun j hj => ?_
      obtain ⟨d, hd, -⟩ := hj
      exact absurd (Array.getElem?_eq_some_iff.1 hd).1 hk
  · obtain ⟨d₀, -, rfl⟩ := hdeclared hd
    exact Slot.packed_packed q.types 0 d₀.fields
  · obtain ⟨d₀, hd₀, rfl⟩ := hdeclared hd
    have hsize : s.types.structSizes.lookup k = some (s.types.bytes (d₀.fields.map (·.type))) :=
      hpacks.sizes k d₀ hd₀
    rw [← htypes, ← Slot.map_type_packed q.types 0 d₀.fields] at hsize
    exact hsize

/-- **The structured types of an analysed program lie without gaps.** -/
theorem packed_of_analyse {raw : Raw.Program} {q : Program} (h : analyse raw = .ok q) :
    q.Packed := by
  have hanalysed := analysed_of_analyse h
  have hflat := flat_of_analyse h
  obtain ⟨p₀, h₀, h⟩ := Checked.bind_eq_ok.1 h
  obtain ⟨p₁, h₁, h⟩ := Checked.bind_eq_ok.1 h
  obtain ⟨p, h₂, h⟩ := Checked.bind_eq_ok.1 h
  obtain ⟨hw₀, hu₀⟩ := written_ofRaw h₀
  have hw := (hw₀.bound hu₀ h₁).withReach
  have hconcrete := (shaped_of_checkTypes hw (named_of_bindNames h₁).withReach h₂).concrete
  obtain ⟨p₃, h₃, h⟩ := Checked.bind_eq_ok.1 h
  obtain ⟨modules, -, h⟩ := Checked.bind_eq_ok.1 h
  obtain ⟨functions, -, h⟩ := Checked.bind_eq_ok.1 h
  have hq := Checked.pure_eq_ok.1 h
  change p.layoutStructsIn (List.range p.structs.size) = .ok p₃ at h₃
  obtain ⟨-, e, he, -⟩ | ⟨-, s, hs, hexact, hall⟩ := layoutStructsIn_of_covers hconcrete
    (List.range p.structs.size) fun k hk => List.mem_range.2 hk
  · rw [he] at h₃
    cases h₃
  · obtain rfl := Except.ok.inj (hs.symm.trans h₃)
    exact packed_of_exact hexact hall hanalysed hflat (by rw [← hq]) (by rw [← hq])

/-! ## Types and what they contain -/

section Packed

variable {p : Program} {t : TypeId} {k c n : Nat} {d : Struct}

theorem Analysed.exists_struct (hp : p.Analysed) (hk : p.types.struct? t = some k) :
    ∃ d, p.structs[k]? = some d :=
  ⟨_, Array.getElem?_eq_getElem (hp.numbers.lt_of_shape? (TypeTable.shape?_of_struct? hk))⟩

/-- The size of a structured type is that of its fields. -/
theorem Packed.size?_struct (hp : p.Packed) (hk : p.types.struct? t = some k)
    (hd : p.structs[k]? = some d) :
    p.types.size? t = some (p.types.bytes (d.fields.map (·.type))) := by
  rw [TypeTable.size?_eq, TypeTable.shape?_of_struct? hk]
  exact hp.sizes k d hd

/-- The fields of a structured type lie inside it. -/
theorem Packed.allWithin (hp : p.Packed) (hd : p.structs[k]? = some d) :
    Slot.AllWithin p.types 0 (p.types.bytes (d.fields.map (·.type))) d.fields :=
  hp.analysed.laidOut.structs k _ (hp.sizes k d hd) d hd

theorem Packed.follow (hp : p.Packed) (hd : p.structs[k]? = some d) :
    Slot.Follow p.types d.fields :=
  hp.fields k d hd ▸ Slot.follow_packed p.types 0 d.fields

/-- **What holds of a type if it holds of the types of its fields** holds of all types. -/
theorem Packed.induction (hp : p.Packed) {motive : TypeId → Prop}
    (h : ∀ t, (∀ k d, p.types.struct? t = some k → p.structs[k]? = some d →
      ∀ f ∈ d.fields, motive f.type) → motive t) (t : TypeId) : motive t := by
  have struct (k : Nat) : ∀ t, p.types.struct? t = some k → motive t := by
    induction hp.acyclic k with
    | intro k _ ih =>
      refine fun t hk => h t fun k' d hk' hd f hf => ?_
      obtain rfl : k' = k := Option.some.inj (hk'.symm.trans hk)
      cases hj : p.types.struct? f.type with
      | some j => exact ih j ⟨d, hd, f, hf, hj⟩ f.type hj
      | none => exact h f.type fun k d hk => by rw [hj] at hk; cases hk
  cases hk : p.types.struct? t with
  | some k => exact struct k t hk
  | none => exact h t fun k d hk' => by rw [hk] at hk'; cases hk'

/-! ## The search -/

theorem stringsWithin_of_string (hc : p.types.capacity? t = some c) (bound : Nat) :
    p.stringsWithin bound t = [(0, c)] := by
  unfold stringsWithin
  rw [hc]

theorem stringsWithin_of_struct (hk : p.types.struct? t = some k) (hd : p.structs[k]? = some d)
    (bound : Nat) : p.stringsWithin (bound + 1) t = d.fields.flatMap fun f =>
      (p.stringsWithin bound f.type).map fun r => (f.offset + r.1, r.2) := by
  rw [stringsWithin, TypeTable.capacity?_of_struct? hk, hk, Option.bind_some, hd]

theorem stringsWithin_of_plain (hc : p.types.capacity? t = none) (hk : p.types.struct? t = none)
    (bound : Nat) : p.stringsWithin bound t = [] := by
  unfold stringsWithin
  rw [hc, hk]
  cases bound <;> rfl

/-- **Looking deeper than there are structured types finds nothing more.**  Those around a type
contain it, so they are all different. -/
theorem Packed.stringsWithin_succ (hp : p.Packed) (bound : Nat) : (around : List Nat) →
    (t : TypeId) → around.Nodup → (∀ a ∈ around, a < p.structs.size ∧
      ∀ k, p.types.struct? t = some k → TransGen p.Contains a k) →
    p.structs.size < bound + around.length →
      p.stringsWithin (bound + 1) t = p.stringsWithin bound t := by
  induction bound with
  | zero =>
    intro around t hnodup haround hbound
    have := length_le_of_nodup hnodup fun a ha => (haround a ha).1
    omega
  | succ bound ih =>
    intro around t hnodup haround hbound
    cases hc : p.types.capacity? t with
    | some c => rw [stringsWithin_of_string hc, stringsWithin_of_string hc]
    | none =>
      cases hk : p.types.struct? t with
      | none => rw [stringsWithin_of_plain hc hk, stringsWithin_of_plain hc hk]
      | some k =>
        obtain ⟨d, hd⟩ := hp.analysed.exists_struct hk
        have hnew : k ∉ around := fun hmem =>
          not_transGen_of_acc (hp.acyclic k) ((haround k hmem).2 k hk)
        rw [stringsWithin_of_struct hk hd, stringsWithin_of_struct hk hd]
        refine List.flatMap_congr fun f hf => congrArg (List.map _) ?_
        refine ih (k :: around) f.type (List.nodup_cons.2 ⟨hnew, hnodup⟩) ?_ (by simp; omega)
        have hcontains {j : Nat} (hj : p.types.struct? f.type = some j) : p.Contains k j :=
          ⟨d, hd, f, hf, hj⟩
        refine List.forall_mem_cons.2 ⟨⟨(Array.getElem?_eq_some_iff.1 hd).1, fun j hj =>
          .single (hcontains hj)⟩, fun a ha => ⟨(haround a ha).1, fun j hj => ?_⟩⟩
        exact ((haround a ha).2 k hk).tail (hcontains hj)

/-- The strings of a structured type are those of its fields, where these lie. -/
theorem Packed.strings_of_struct (hp : p.Packed) (hk : p.types.struct? t = some k)
    (hd : p.structs[k]? = some d) : p.strings t = Module.strings p d.fields := by
  rw [strings, ← hp.stringsWithin_succ _ [] t List.nodup_nil (by simp) (by simp),
    stringsWithin_of_struct hk hd]
  rfl

/-! ## String records -/

/-- A value of a type has a string record with a capacity at an offset. -/
inductive RecordAt (p : Program) : TypeId → Nat → Nat → Prop
  | string {t : TypeId} {c : Nat} (hc : p.types.capacity? t = some c) : RecordAt p t 0 c
  | field {t : TypeId} {k o c : Nat} {d : Struct} {f : Slot} (hk : p.types.struct? t = some k)
      (hd : p.structs[k]? = some d) (hf : f ∈ d.fields) (h : RecordAt p f.type o c) :
      RecordAt p t (f.offset + o) c

/-- A list names the string records of a type of `n` bytes: each once, in the order in which they
lie, apart from each other and inside the value. -/
structure Lists (p : Program) (t : TypeId) (n : Nat) (records : List (Nat × Nat)) : Prop where
  mem : ∀ o c, (o, c) ∈ records ↔ p.RecordAt t o c
  nodup : records.Nodup
  apart : records.Pairwise fun r r' => r.1 + stringSize r.2 ≤ r'.1
  inside : ∀ r ∈ records, r.1 + stringSize r.2 ≤ n

/-- Records that lie one behind the other are all different, none of them being empty. -/
theorem nodup_of_apart {records : List (Nat × Nat)}
    (h : records.Pairwise fun r r' => r.1 + stringSize r.2 ≤ r'.1) : records.Nodup := by
  refine h.imp fun {r r'} hle => ?_
  rintro rfl
  rw [stringSize, stringHeader] at hle
  omega

/-- The strings of fields that follow each other lie one behind the other. -/
theorem apart_strings {fs : List Slot} {low high : Nat} (hfollow : Slot.Follow p.types fs)
    (hwithin : Slot.AllWithin p.types low high fs)
    (h : ∀ f ∈ fs, ∀ n, p.types.size? f.type = some n → p.Lists f.type n (p.strings f.type)) :
    (Module.strings p fs).Pairwise fun r r' => r.1 + stringSize r.2 ≤ r'.1 := by
  have hlists {f : Slot} (hf : f ∈ fs) : ∃ n, p.types.size? f.type = some n ∧
      p.Lists f.type n (p.strings f.type) := by
    obtain ⟨n, hn, -⟩ := hwithin f hf
    exact ⟨n, hn, h f hf n hn⟩
  refine List.pairwise_flatMap.2 ⟨fun f hf => ?_, ?_⟩
  · obtain ⟨n, -, hf⟩ := hlists hf
    exact List.pairwise_map.2 (hf.apart.imp fun hle => by dsimp only; omega)
  · refine hfollow.imp_of_mem fun {f g} hf _ hfg r hr r' hr' => ?_
    obtain ⟨n, hn, hf⟩ := hlists hf
    obtain ⟨s, hs, rfl⟩ := List.mem_map.1 hr
    obtain ⟨s', -, rfl⟩ := List.mem_map.1 hr'
    have := hf.inside s hs
    have := hfg n hn
    dsimp only
    omega

/-- **The search finds every string record of a type exactly once**, in order, apart from the others
and inside the value. -/
theorem Packed.lists_strings (hp : p.Packed) (t : TypeId) : ∀ n, p.types.size? t = some n →
    p.Lists t n (p.strings t) := by
  induction t using hp.induction with
  | h t ih =>
  intro n hn
  have hinside := hp.analysed.laidOut.stringsWithin (p.structs.size + 1) hn
  -- what the records are depends on the type, the rest follows
  suffices (∀ o c, (o, c) ∈ p.strings t ↔ p.RecordAt t o c) ∧
      (p.strings t).Pairwise fun r r' => r.1 + stringSize r.2 ≤ r'.1 from
    ⟨this.1, nodup_of_apart this.2, this.2, hinside⟩
  cases hc : p.types.capacity? t with
  | some c =>
    rw [strings, stringsWithin_of_string hc]
    refine ⟨fun o c' => ⟨fun h => ?_, fun h => ?_⟩, List.pairwise_singleton _ _⟩
    · obtain ⟨rfl, rfl⟩ := Prod.mk.inj (List.mem_singleton.1 h)
      exact .string hc
    · cases h with
      | string hc' =>
        obtain rfl := Option.some.inj (hc.symm.trans hc')
        exact List.mem_singleton_self _
      | field hk =>
        rw [TypeTable.capacity?_of_struct? hk] at hc
        cases hc
  | none =>
    cases hk : p.types.struct? t with
    | none =>
      rw [strings, stringsWithin_of_plain hc hk]
      refine ⟨fun o c => ⟨nofun, fun h => ?_⟩, .nil⟩
      cases h with
      | string hc' => rw [hc] at hc'; cases hc'
      | field hk' => rw [hk] at hk'; cases hk'
    | some k =>
      obtain ⟨d, hd⟩ := hp.analysed.exists_struct hk
      rw [hp.strings_of_struct hk hd]
      refine ⟨fun o c => ⟨fun h => ?_, fun h => ?_⟩,
        apart_strings (hp.follow hd) (hp.allWithin hd) (ih k d hk hd)⟩
      · obtain ⟨f, hf, hmem⟩ := List.mem_flatMap.1 h
        obtain ⟨r, hr, heq⟩ := List.mem_map.1 hmem
        obtain ⟨rfl, rfl⟩ := Prod.mk.inj heq
        obtain ⟨m, hm, -⟩ := hp.allWithin hd f hf
        exact .field hk hd hf (((ih k d hk hd f hf m hm).mem _ _).1 hr)
      · cases h with
        | string hc' => rw [hc] at hc'; cases hc'
        | field hk' hd' hf h =>
          obtain rfl := Option.some.inj (hk.symm.trans hk')
          obtain rfl := Option.some.inj (hd.symm.trans hd')
          obtain ⟨m, hm, -⟩ := hp.allWithin hd _ hf
          exact List.mem_flatMap.2 ⟨_, hf, List.mem_map.2
            ⟨_, ((ih k d hk hd _ hf m hm).mem _ _).2 h, rfl⟩⟩

end Packed

end Program

end ChannelBasic
