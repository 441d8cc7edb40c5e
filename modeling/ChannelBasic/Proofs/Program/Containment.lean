import ChannelBasic.Proofs.Faultless.Layout
import ChannelBasic.Proofs.Outcomes

/-!
# Proofs/Program/Containment — structured types made of structured types

A structured type contains those that its fields are of, and what these contain; a pointer contains
nothing.  Sizes are found by a search that lays out a type after all that it contains.  **The search
is refused exactly if some type contains itself**, and it blames such a type; otherwise every field
lies right behind the fields before it, and a type is as large as its fields together
(`layoutStructs_packs`).  In which order the types are declared, or visited, makes no difference.

While a type is being laid out it is among those `around`, each of which contains it.  So meeting it
again means that it contains itself, and what has been left behind with a size lies on no cycle.
-/

namespace ChannelBasic

open Relation (TransGen)

/-- Fields one after the other from an offset on, each right behind all those before it. -/
def Slot.packed (t : TypeTable) (offset : Nat) (fs : List Slot) : List Slot :=
  fs.mapIdx fun i f => { f with offset := offset + t.bytes ((fs.take i).map (·.type)) }

/-- A structured type with its fields one after the other. -/
def Struct.packed (t : TypeTable) (d : Struct) : Struct :=
  { d with fields := Slot.packed t 0 d.fields }

namespace Program

/-- A structured type has a field of another one; a pointer to it is not of it. -/
def Contains (p : Program) (k j : Nat) : Prop :=
  ∃ d, p.structs[k]? = some d ∧ ∃ f ∈ d.fields, p.types.struct? f.type = some j

/-- The fields of structured types have types with a shape, the structured types among these are in
the program, and no size has been found yet. -/
structure Concrete (p : Program) : Prop where
  shapes : ∀ (k : Nat) (d : Struct), p.structs[k]? = some d → ∀ f ∈ d.fields,
    ∃ σ, p.types.shape? f.type = some σ
  inside : ∀ k j, p.Contains k j → j < p.structs.size
  fresh : p.types.structSizes = []

/-- In a checked program the fields of structured types are concrete. -/
theorem Shaped.concrete {p : Program} (h : p.Shaped) : p.Concrete where
  shapes := h.structs
  inside := by
    rintro k j ⟨d, -, f, -, hj⟩
    exact h.numbers.lt_of_shape? (TypeTable.shape?_of_struct? hj)
  fresh := h.structSizes

/-- Finds the sizes of the structured types in some order. -/
def layoutStructsIn (p : Program) (order : List Nat) : Checked Program := do
  let (_, s) ← (order.forM (Layout.structSize (p.structs.size + 1) [])).run ⟨p.types, p.structs⟩
  return { p with types := s.types, structs := s.structs }

/-- A structured type that contains itself is refused by its name, where it stands. -/
def BlamesCycle (p : Program) (e : Diagnostic) : Prop :=
  ∃ k d, p.structs[k]? = some d ∧ TransGen p.Contains k k ∧
    e = Rule.recursiveDefinition.about d.location d.name

/-- `q` is `p` with its structured types laid out: a type is as large as its fields together, and
its fields lie one after the other. -/
structure Packs (p q : Program) : Prop where
  entries : q.types.entries = p.types.entries
  known : ∀ (k : Nat) (d : Struct), p.structs[k]? = some d → ∀ f ∈ d.fields,
    (q.types.size? f.type).isSome = true
  sizes : ∀ (k : Nat) (d : Struct), p.structs[k]? = some d →
    q.types.structSizes.lookup k = some (q.types.bytes (d.fields.map (·.type)))
  structs : q.structs = p.structs.map (·.packed q.types)
  rest : q = { p with types := q.types, structs := q.structs }

end Program

/-! ## Packed fields -/

section Packed

variable {t t' : TypeTable} {f : Slot} {fs : List Slot}

theorem TypeTable.bytes_cons (id : TypeId) (ids : List TypeId) :
    t.bytes (id :: ids) = (t.size? id).getD 0 + t.bytes ids := by
  rw [bytes, List.map_cons, List.sum_cons, bytes]

theorem Slot.packed_cons (offset : Nat) : packed t offset (f :: fs) =
    { f with offset } :: packed t (offset + (t.size? f.type).getD 0) fs := by
  simp [packed, List.mapIdx_cons, TypeTable.bytes, Nat.add_assoc]

theorem TypeTable.Measures.size?_eq (h : t.Measures t') {id : TypeId}
    (hid : (t.size? id).isSome = true) : t'.size? id = t.size? id := by
  obtain ⟨n, hn⟩ := Option.isSome_iff_exists.1 hid
  rw [hn, h.size? hn]

theorem TypeTable.Measures.isSome (h : t.Measures t') {id : TypeId}
    (hid : (t.size? id).isSome = true) : (t'.size? id).isSome = true := by
  rwa [h.size?_eq hid]

/-- Sizes that are known stay what they are, and so do their sums. -/
theorem TypeTable.Measures.bytes (h : t.Measures t')
    (hfs : ∀ f ∈ fs, (t.size? f.type).isSome = true) :
    t'.bytes (fs.map (·.type)) = t.bytes (fs.map (·.type)) := by
  rw [TypeTable.bytes, TypeTable.bytes, List.map_map, List.map_map]
  refine congrArg List.sum (List.map_congr_left fun f hf => ?_)
  simp [h.size?_eq (hfs f hf)]

theorem TypeTable.Measures.packed (h : t.Measures t')
    (hfs : ∀ f ∈ fs, (t.size? f.type).isSome = true) (offset : Nat) :
    Slot.packed t' offset fs = Slot.packed t offset fs := by
  induction fs generalizing offset with
  | nil => rfl
  | cons f fs ih =>
    rw [Slot.packed_cons, Slot.packed_cons, h.size?_eq (hfs f List.mem_cons_self),
      ih fun g hg => hfs g (List.mem_cons_of_mem f hg)]

theorem Struct.packed_congr (d : Struct) (h : ∀ id, t'.size? id = t.size? id) :
    d.packed t' = d.packed t := by
  simp [Struct.packed, Slot.packed, TypeTable.bytes, h]

end Packed

/-! ## The search -/

namespace Layout

variable {p : Program} {around : List Nat} {s s' : Sizing} {k : Nat}

/-- A structured type has been laid out, after all that it contains. -/
structure Sizing.Laid (p : Program) (s : Sizing) (k z : Nat) (d : Struct) : Prop where
  declared : p.structs[k]? = some d
  known : ∀ f ∈ d.fields, (s.types.size? f.type).isSome = true
  size : z = s.types.bytes (d.fields.map (·.type))
  placed : s.structs[k]? = some (d.packed s.types)
  acyclic : Acc (Function.swap p.Contains) k

/-- What has a size has been laid out, and what has none is as it was declared. -/
structure Sizing.Exact (p : Program) (s : Sizing) : Prop where
  types : p.types.Measures s.types
  waiting : ∀ k, s.size? k = none → s.structs[k]? = p.structs[k]?
  done : ∀ k z, s.size? k = some z → ∃ d, s.Laid p k z d

theorem Sizing.Laid.grows {z : Nat} {d : Struct} (h : s.Laid p k z d)
    (hm : s.types.Measures s'.types) (hk : s'.structs[k]? = s.structs[k]?) :
    s'.Laid p k z d where
  declared := h.declared
  known f hf := hm.isSome (h.known f hf)
  size := by rw [h.size, hm.bytes h.known]
  placed := by rw [hk, h.placed, Struct.packed, Struct.packed, hm.packed h.known]
  acyclic := h.acyclic

theorem Sizing.Exact.lt_size (h : s.Exact p) (hk : k < p.structs.size) : k < s.structs.size := by
  cases hz : s.size? k with
  | none =>
    exact (Array.getElem?_eq_some_iff.1 ((h.waiting k hz).trans (Array.getElem?_eq_getElem hk))).1
  | some z =>
    obtain ⟨d, hd⟩ := h.done k z hz
    exact (Array.getElem?_eq_some_iff.1 hd.placed).1

/-- What a type of known size contains has been laid out. -/
theorem Sizing.Exact.acc (h : s.Exact p) {id : TypeId} {j : Nat} (hj : p.types.struct? id = some j)
    (hid : (s.types.size? id).isSome = true) : Acc (Function.swap p.Contains) j := by
  rw [← h.types.struct?_eq] at hj
  rw [TypeTable.size?_eq, TypeTable.shape?_of_struct? hj] at hid
  obtain ⟨z, hz⟩ := Option.isSome_iff_exists.1 hid
  obtain ⟨d, hd⟩ := h.done j z hz
  exact hd.acyclic

/-- A structured type that contains only what has been laid out gets its fields placed and its
size. -/
theorem Sizing.Exact.set {d : Struct} (h : s.Exact p) (hk : s.size? k = none)
    (hd : p.structs[k]? = some d) (hknown : ∀ f ∈ d.fields, (s.types.size? f.type).isSome = true) :
    Sizing.Exact p ⟨s.types.setStructSize k (s.types.bytes (d.fields.map (·.type))),
      s.structs.setIfInBounds k (d.packed s.types)⟩ := by
  have hset := TypeTable.measures_setStructSize hk (s.types.bytes (d.fields.map (·.type)))
  have hlt : k < s.structs.size :=
    (Array.getElem?_eq_some_iff.1 ((h.waiting k hk).trans hd)).1
  refine ⟨h.types.trans hset, fun j hj => ?_, fun j z hj => ?_⟩
  · have hne : k ≠ j := by
      rintro rfl
      simp [Sizing.size?, TypeTable.setStructSize] at hj
    rw [Array.getElem?_setIfInBounds_ne hne]
    refine h.waiting j ?_
    simpa [Sizing.size?, TypeTable.setStructSize, List.lookup_cons,
      beq_eq_false_iff_ne.2 hne.symm] using hj
  · by_cases hne : k = j
    · subst hne
      obtain rfl : s.types.bytes (d.fields.map (·.type)) = z := by
        simpa [Sizing.size?, TypeTable.setStructSize] using hj
      refine ⟨d, hd, fun f hf => hset.isSome (hknown f hf), (hset.bytes hknown).symm, ?_, ?_⟩
      · rw [Array.getElem?_setIfInBounds_self_of_lt hlt, Struct.packed, Struct.packed,
          hset.packed hknown]
      · refine Acc.intro k fun j hj => ?_
        obtain ⟨d', hd', f, hf, hfj⟩ := hj
        obtain rfl : d = d' := Option.some.inj (hd.symm.trans hd')
        exact h.acc hfj (hknown f hf)
    · obtain ⟨d', hd'⟩ := h.done j z (by
        simpa [Sizing.size?, TypeTable.setStructSize, List.lookup_cons,
          beq_eq_false_iff_ne.2 (Ne.symm hne)] using hj)
      exact ⟨d', hd'.grows hset (Array.getElem?_setIfInBounds_ne hne)⟩

/-- A structured type gets its size, or some type contains itself, whatever was laid out before. -/
def LaysOut (p : Program) (around : List Nat) (inner : Nat → StateT Sizing Checked Unit) (j : Nat) :
    Prop :=
  ∀ s, s.Sound → s.Exact p → Comes (inner j) s (fun _ s' =>
    s'.Exact p ∧ s'.Sound ∧ s.Grows around s' ∧ (s'.size? j).isSome = true) p.BlamesCycle

/-- What a structured type contains is laid out before its fields are placed. -/
theorem comes_structFields (around : List Nat) {inner : Nat → StateT Sizing Checked Unit}
    (fs : List Slot)
    (hinner : ∀ f ∈ fs, ∀ j, p.types.struct? f.type = some j → LaysOut p around inner j)
    (hshapes : ∀ f ∈ fs, ∃ σ, p.types.shape? f.type = some σ) :
    (offset : Nat) → (s : Sizing) → s.Sound → s.Exact p →
      Comes (structFields inner offset fs) s (fun r s' => s'.Exact p ∧ s.Grows around s' ∧
        (∀ f ∈ fs, (s'.types.size? f.type).isSome = true) ∧
          r = (Slot.packed s'.types offset fs, offset + s'.types.bytes (fs.map (·.type))))
        p.BlamesCycle := by
  induction fs with
  | nil =>
    intro offset s hs he
    exact .value ⟨he, (Sizing.Grows.passage around).refl s, by simp, rfl⟩
  | cons f rest ih =>
    intro offset s hs he
    obtain ⟨σ, hσ⟩ := hshapes f List.mem_cons_self
    have hpassage := Sizing.Grows.passage around
    -- once the size of the field is known, the others follow
    have place (s₁ : Sizing) (hs₁ : s₁.Sound) (he₁ : s₁.Exact p) (hg₁ : s.Grows around s₁)
        (hsize : (s₁.types.size? f.type).isSome = true) :
        Comes (do
          let size ← (← get).types.sizeAt f.location (some f.type)
          let later ← structFields inner (offset + size) rest
          return ({ f with offset } :: later.1, later.2) : StateT Sizing Checked _) s₁
          (fun r s' => s'.Exact p ∧ s.Grows around s' ∧
            (∀ g ∈ f :: rest, (s'.types.size? g.type).isSome = true) ∧
              r = (Slot.packed s'.types offset (f :: rest),
                offset + s'.types.bytes ((f :: rest).map (·.type)))) p.BlamesCycle := by
      obtain ⟨n, hn⟩ := Option.isSome_iff_exists.1 hsize
      have hok : s₁.types.sizeAt f.location (some f.type) = .ok n := TypeTable.sizeAt_eq_ok.2 hn
      refine .reads ?_
      rw [hok]
      refine .value_seq ?_
      refine (ih (fun g hg => hinner g (List.mem_cons_of_mem f hg))
        (fun g hg => hshapes g (List.mem_cons_of_mem f hg)) (offset + n) s₁ hs₁ he₁).seq
        fun r s₂ h₂ => ?_
      obtain ⟨he₂, hg₂, hknown, rfl⟩ := h₂
      have hf : s₂.types.size? f.type = some n := hg₂.types.size? hn
      refine .value ⟨he₂, hpassage.trans hg₁ hg₂, ?_, ?_⟩
      · exact List.forall_mem_cons.2 ⟨by rw [hf]; rfl, hknown⟩
      · rw [Slot.packed_cons, List.map_cons, TypeTable.bytes_cons, hf, Option.getD_some,
          Nat.add_assoc]
    unfold structFields
    refine .reads ?_
    cases hk : s.types.struct? f.type with
    | some j =>
      rw [he.types.struct?_eq] at hk
      refine (hinner f List.mem_cons_self j hk s hs he).seq fun _ s₁ h₁ => ?_
      obtain ⟨he₁, hs₁, hg₁, hj⟩ := h₁
      refine place s₁ hs₁ he₁ hg₁ ?_
      rw [TypeTable.size?_eq, he₁.types.shape?_eq, TypeTable.shape?_of_struct? hk]
      exact hj
    | none =>
      refine .value_seq (place s hs he (hpassage.refl s) ?_)
      rw [he.types.struct?_eq] at hk
      rw [TypeTable.size?_eq, he.types.shape?_eq, hσ]
      cases σ with
      | struct n =>
        rw [TypeTable.struct?_of_shape? hσ] at hk
        cases hk
      | scalar | string | pointer => rfl

/-- **A structured type is laid out, or some type contains itself.** -/
theorem comes_structSize (hp : p.Concrete) (bound : Nat) :
    (around : List Nat) → (k : Nat) → (s : Sizing) → s.Sound → s.Exact p → around.Nodup →
      (∀ a ∈ around, a < p.structs.size ∧ TransGen p.Contains a k) →
        p.structs.size < bound + around.length →
          Comes (structSize bound around k) s (fun _ s' => s'.Exact p) p.BlamesCycle := by
  induction bound with
  | zero =>
    intro around k s _ _ hnodup haround hbound
    have := length_le_of_nodup hnodup fun a ha => (haround a ha).1
    omega
  | succ bound ih =>
    intro around k s hs he hnodup haround hbound
    unfold structSize
    refine .reads ?_
    split
    · exact .value he
    next d' hd' =>
      dsimp only
      split
      · exact .value he
      next hsize =>
        have hnone : s.size? k = none := Option.not_isSome_iff_eq_none.1 hsize
        have hd : p.structs[k]? = some d' := (he.waiting k hnone).symm.trans hd'
        split
        next hk =>
          exact .refused_seq ⟨k, d', hd, (haround k (by simpa using hk)).2, rfl⟩
        next hk =>
          have hlt : k < p.structs.size := (Array.getElem?_eq_some_iff.1 hd).1
          refine (comes_structFields (k :: around) d'.fields (fun f hf j hj s₁ hs₁ he₁ => ?_)
            (hp.shapes k d' hd) 0 s hs he).seq fun r s₁ h₁ => ?_
          · have hkj : p.Contains k j := ⟨d', hd, f, hf, hj⟩
            refine ((ih (k :: around) j s₁ hs₁ he₁ (List.nodup_cons.2 ⟨by simpa using hk, hnodup⟩)
              ?_ (by simp; omega)).both (ends_structSize bound (k :: around) j s₁ hs₁)).mono
              fun _ s₂ h₂ => ⟨h₂.1, h₂.2.1, h₂.2.2.1, h₂.2.2.2 ?_⟩
            · refine List.forall_mem_cons.2 ⟨⟨hlt, .single hkj⟩, fun a ha => ?_⟩
              exact ⟨(haround a ha).1, (haround a ha).2.tail hkj⟩
            · exact he₁.lt_size (hp.inside k j hkj)
          · obtain ⟨he₁, hg₁, hknown, rfl⟩ := h₁
            have hnone₁ : s₁.size? k = none := hg₁.held k List.mem_cons_self hnone
            have hset := he₁.set hnone₁ hd hknown
            refine .modifies ?_
            dsimp only
            rw [Nat.zero_add]
            exact hset

/-- What has been laid out has the size that its fields give it, whatever was laid out before. -/
theorem Sizing.Exact.size_unique (h : s.Exact p) (h' : s'.Exact p) {z z' : Nat}
    (hz : s.size? k = some z) (hz' : s'.size? k = some z') : z = z' := by
  obtain ⟨d, hd⟩ := h.done k z hz
  have hacc := hd.acyclic
  clear d hd
  induction hacc generalizing z z' with
  | intro k _ ih =>
    obtain ⟨d, hd⟩ := h.done k z hz
    obtain ⟨d', hd'⟩ := h'.done k z' hz'
    obtain rfl : d = d' := Option.some.inj (hd.declared.symm.trans hd'.declared)
    rw [hd.size, hd'.size, TypeTable.bytes, TypeTable.bytes, List.map_map, List.map_map]
    refine congrArg List.sum (List.map_congr_left fun f hf => ?_)
    obtain ⟨n, hn⟩ := Option.isSome_iff_exists.1 (hd.known f hf)
    obtain ⟨n', hn'⟩ := Option.isSome_iff_exists.1 (hd'.known f hf)
    suffices n = n' by simp [hn, hn', this]
    obtain ⟨σ, hσ, hsize⟩ := TypeTable.shape?_of_size? hn
    obtain ⟨σ', hσ', hsize'⟩ := TypeTable.shape?_of_size? hn'
    rw [h.types.shape?_eq] at hσ
    rw [h'.types.shape?_eq] at hσ'
    obtain rfl : σ = σ' := Option.some.inj (hσ.symm.trans hσ')
    cases σ with
    | struct j =>
      exact ih j ⟨d, hd.declared, f, hf, TypeTable.struct?_of_shape? hσ⟩ hsize hsize'
    | scalar | string | pointer => exact Option.some.inj (hsize.symm.trans hsize')

/-- Two layouts of all structured types know the same sizes. -/
theorem Sizing.Exact.size?_eq (h : s.Exact p) (h' : s'.Exact p)
    (hall : ∀ k < p.structs.size, (s.size? k).isSome = true)
    (hall' : ∀ k < p.structs.size, (s'.size? k).isSome = true) (id : TypeId) :
    s'.types.size? id = s.types.size? id := by
  have hlt {s : Sizing} {k z : Nat} (h : s.Exact p) (hz : s.size? k = some z) :
      k < p.structs.size := by
    obtain ⟨d, hd⟩ := h.done k z hz
    exact (Array.getElem?_eq_some_iff.1 hd.declared).1
  have hlookup (k : Nat) : s'.size? k = s.size? k := by
    cases hz : s.size? k with
    | some z =>
      obtain ⟨z', hz'⟩ := Option.isSome_iff_exists.1 (hall' k (hlt h hz))
      rw [hz', h.size_unique h' hz hz']
    | none =>
      refine Option.eq_none_iff_forall_ne_some.2 fun z' hz' => ?_
      have := hall k (hlt h' hz')
      rw [hz] at this
      cases this
  rw [TypeTable.size?_eq, TypeTable.size?_eq, h.types.shape?_eq, h'.types.shape?_eq]
  refine Option.bind_congr fun σ _ => ?_
  cases σ with
  | struct k => exact hlookup k
  | scalar | string | pointer => rfl

end Layout

/-! ## Programs -/

namespace Program

variable {p q : Program} {order : List Nat}

/-- **Laying out structured types in an order** lays out all that are in it, or blames one that
contains itself. -/
theorem layoutStructsIn_cases (hp : p.Concrete) (order : List Nat) :
    (∃ e, p.layoutStructsIn order = .error e ∧ p.BlamesCycle e) ∨
      ∃ s : Layout.Sizing, p.layoutStructsIn order =
        .ok { p with types := s.types, structs := s.structs } ∧ s.Exact p ∧
          ∀ k ∈ order, k < p.structs.size → (s.size? k).isSome = true := by
  have hsound : Layout.Sizing.Sound ⟨p.types, p.structs⟩ := by
    intro k z hz
    simp [Layout.Sizing.size?, hp.fresh] at hz
  have hexact : Layout.Sizing.Exact p ⟨p.types, p.structs⟩ := by
    refine ⟨.refl _, fun _ _ => rfl, fun k z hz => ?_⟩
    simp [Layout.Sizing.size?, hp.fresh] at hz
  have hpassage := Layout.Sizing.Grows.passage []
  have hrun : Comes (order.forM (Layout.structSize (p.structs.size + 1) [])) ⟨p.types, p.structs⟩
      (fun _ s => s.Exact p ∧ s.Sound) p.BlamesCycle :=
    Mimics.each (fun k _ s hs => (Layout.comes_structSize hp _ [] k s hs.2 hs.1 List.nodup_nil
      (by simp) (by simp)).both ((Layout.ends_structSize _ [] k s hs.2).mono fun _ _ h => h.1))
      ⟨hexact, hsound⟩
  have hsized : Ends (order.forM (Layout.structSize (p.structs.size + 1) []))
      ⟨p.types, p.structs⟩ _ := Ends.eachHas (K := Layout.Sizing.Grows [])
    (I := fun s => s.Sound ∧ Layout.Sizing.Grows [] ⟨p.types, p.structs⟩ s)
    (Q := fun k s => k < p.structs.size → (s.size? k).isSome = true) hpassage.refl hpassage.trans
    (fun hk hg hlt => hg.isSome (hk hlt))
    (fun k _ s₁ h₁ => (Layout.ends_structSize (p.structs.size + 1) [] k s₁ h₁.1).mono fun _ s₂ h₂ =>
      ⟨⟨h₂.1, hpassage.trans h₁.2 h₂.2.1⟩, h₂.2.1, fun hlt => h₂.2.2 (h₁.2.size_eq ▸ hlt)⟩)
    ⟨hsound, hpassage.refl _⟩
  unfold layoutStructsIn
  cases hr : (order.forM (Layout.structSize (p.structs.size + 1) [])).run ⟨p.types, p.structs⟩ with
  | error e => exact .inl ⟨e, rfl, hrun.refuses e hr⟩
  | ok r => exact .inr ⟨r.2, rfl, (hrun.ends _ _ hr).1, (hsized _ _ hr).2.2⟩

/-- A layout of all structured types is packed, and there is no cycle among them. -/
theorem packs_of_exact {s : Layout.Sizing} (h : s.Exact p)
    (hall : ∀ k < p.structs.size, (s.size? k).isSome = true) :
    p.Packs { p with types := s.types, structs := s.structs } ∧
      ¬ ∃ k, TransGen p.Contains k k := by
  have hlaid (k : Nat) (d : Struct) (hd : p.structs[k]? = some d) : ∃ z, s.size? k = some z ∧
      s.Laid p k z d := by
    obtain ⟨z, hz⟩ := Option.isSome_iff_exists.1 (hall k (Array.getElem?_eq_some_iff.1 hd).1)
    obtain ⟨d', hd'⟩ := h.done k z hz
    obtain rfl : d' = d := Option.some.inj (hd'.declared.symm.trans hd)
    exact ⟨z, hz, hd'⟩
  refine ⟨⟨h.types.entries, fun k d hd => ?_, fun k d hd => ?_, ?_, rfl⟩, ?_⟩
  · obtain ⟨z, -, hlaid⟩ := hlaid k d hd
    exact hlaid.known
  · obtain ⟨z, hz, hlaid⟩ := hlaid k d hd
    rw [← hlaid.size]
    exact hz
  · refine Array.ext_getElem? fun k => ?_
    rw [Array.getElem?_map]
    cases hd : p.structs[k]? with
    | some d =>
      obtain ⟨z, -, hlaid⟩ := hlaid k d hd
      exact hlaid.placed
    | none =>
      cases hz : s.size? k with
      | none => exact (h.waiting k hz).trans hd
      | some z =>
        obtain ⟨d, hd'⟩ := h.done k z hz
        rw [hd'.declared] at hd
        cases hd
  · rintro ⟨k, hk⟩
    obtain ⟨j, ⟨d, hd, -⟩, -⟩ := TransGen.head'_iff.1 hk
    obtain ⟨z, -, hlaid⟩ := hlaid k d hd
    exact not_transGen_of_acc hlaid.acyclic hk

/-- An order that leaves no type out comes to a layout exactly if there is no cycle. -/
theorem layoutStructsIn_of_covers (hp : p.Concrete) (order : List Nat)
    (hcovers : ∀ k < p.structs.size, k ∈ order) :
    (∃ k, TransGen p.Contains k k) ∧ (∃ e, p.layoutStructsIn order = .error e ∧ p.BlamesCycle e) ∨
      (¬ ∃ k, TransGen p.Contains k k) ∧ ∃ s : Layout.Sizing, p.layoutStructsIn order =
        .ok { p with types := s.types, structs := s.structs } ∧ s.Exact p ∧
          ∀ k < p.structs.size, (s.size? k).isSome = true := by
  obtain ⟨e, he, hblames⟩ | ⟨s, hs, hexact, hsized⟩ := layoutStructsIn_cases hp order
  · obtain ⟨k, d, -, hcycle, -⟩ := id hblames
    exact .inl ⟨⟨k, hcycle⟩, e, he, hblames⟩
  · have hall (k : Nat) (hk : k < p.structs.size) := hsized k (hcovers k hk) hk
    exact .inr ⟨(packs_of_exact hexact hall).2, s, hs, hexact, hall⟩

/-- **Structured types are laid out exactly, or one that contains itself is refused.**  The search
comes to an end.  It is refused exactly if there is a cycle, and then it blames a type on a cycle.
Otherwise every type is as large as its fields together, and every field lies behind those before
it.  Visiting the types in another order comes to the same. -/
theorem layoutStructs_packs (hp : p.Concrete) :
    ((∃ e, p.layoutStructs = .error e ∧ e.rule = .recursiveDefinition) ↔
      ∃ k, TransGen p.Contains k k) ∧
    (∀ e, p.layoutStructs = .error e → p.BlamesCycle e) ∧
    (∀ q, p.layoutStructs = .ok q → p.Packs q) ∧
    ∀ order : List Nat, (∀ k < p.structs.size, k ∈ order) →
      ((∃ e, p.layoutStructsIn order = .error e) ↔ ∃ e, p.layoutStructs = .error e) ∧
      ∀ q q', p.layoutStructs = .ok q → p.layoutStructsIn order = .ok q' →
        q'.structs = q.structs ∧ ∀ id, q'.types.size? id = q.types.size? id := by
  have hrange : p.layoutStructs = p.layoutStructsIn (List.range p.structs.size) := rfl
  rw [hrange]
  obtain ⟨hcycle, e, he, hblames⟩ | ⟨hnone, s, hs, hexact, hall⟩ :=
    layoutStructsIn_of_covers hp (List.range p.structs.size) fun k hk => List.mem_range.2 hk
  · have hrule : e.rule = .recursiveDefinition := by
      obtain ⟨_, _, -, -, rfl⟩ := hblames
      rfl
    have hno (q : Program) : p.layoutStructsIn (List.range p.structs.size) ≠ .ok q := by simp [he]
    refine ⟨⟨fun _ => hcycle, fun _ => ⟨e, he, hrule⟩⟩, fun e' he' => ?_,
      fun q hq => absurd hq (hno q), fun order hcovers => ⟨⟨fun _ => ⟨e, he⟩, fun _ => ?_⟩,
        fun q _ hq => absurd hq (hno q)⟩⟩
    · obtain rfl := Except.error.inj (he.symm.trans he')
      exact hblames
    · obtain ⟨-, e', he', -⟩ | ⟨hnone, -⟩ := layoutStructsIn_of_covers hp order hcovers
      · exact ⟨e', he'⟩
      · exact absurd hcycle hnone
  · have hno (e : Diagnostic) : p.layoutStructsIn (List.range p.structs.size) ≠ .error e := by
      simp [hs]
    have hpacks := (packs_of_exact hexact hall).1
    refine ⟨⟨fun ⟨e, he, _⟩ => absurd he (hno e), fun hcycle => absurd hcycle hnone⟩,
      fun e he => absurd he (hno e), fun q hq => ?_, fun order hcovers => ?_⟩
    · obtain rfl := Except.ok.inj (hs.symm.trans hq)
      exact hpacks
    · obtain ⟨hcycle, -⟩ | ⟨-, s', hs', hexact', hall'⟩ :=
        layoutStructsIn_of_covers hp order hcovers
      · exact absurd hcycle hnone
      refine ⟨⟨fun ⟨e, he⟩ => ?_, fun ⟨e, he⟩ => absurd he (hno e)⟩, fun q q' hq hq' => ?_⟩
      · rw [hs'] at he
        cases he
      · obtain rfl := Except.ok.inj (hs.symm.trans hq)
        obtain rfl := Except.ok.inj (hs'.symm.trans hq')
        have hsizes := hexact.size?_eq hexact' hall hall'
        refine ⟨?_, hsizes⟩
        rw [hpacks.structs, (packs_of_exact hexact' hall').1.structs]
        exact congrArg (p.structs.map ·) (funext fun d => d.packed_congr hsizes)

/-- A type with two fields of one that is declared after it, and a pointer to its own kind. -/
def nested : Program := { (default : Program) with
  structs := #[
    ⟨default, "OUTER", 8, [⟨default, "A", 7, 0⟩, ⟨default, "B", 7, 0⟩, ⟨default, "NEXT", 9, 0⟩]⟩,
    ⟨default, "INNER", 7, [⟨default, "X", 1, 0⟩, ⟨default, "Y", 4, 0⟩]⟩]
  types := ⟨TypeTable.initial.entries ++ #[.struct 1 "INNER", .struct 0 "OUTER", .pointer 8], []⟩ }

theorem concrete_nested : nested.Concrete where
  shapes k d hd f hf := by
    have hall : ∀ d ∈ nested.structs.toList, ∀ f ∈ d.fields,
        (nested.types.shape? f.type).isSome = true := by decide
    exact Option.isSome_iff_exists.1 (hall d (Array.mem_of_getElem? hd).val f hf)
  inside := by
    rintro k j ⟨d, hd, f, hf, hj⟩
    have hall : ∀ d ∈ nested.structs.toList, ∀ f ∈ d.fields,
        ∀ j ∈ nested.types.struct? f.type, j < nested.structs.size := by decide
    exact hall d (Array.mem_of_getElem? hd).val f hf j hj
  fresh := rfl

theorem layoutStructs_packs_nested : ∃ q, nested.layoutStructs = .ok q ∧ nested.Packs q := by
  obtain ⟨q, hq⟩ : ∃ q, nested.layoutStructs = .ok q := Checked.exists_of_isOk (by decide +kernel)
  exact ⟨q, hq, (layoutStructs_packs concrete_nested).2.2.1 q hq⟩

example : nested.layoutStructs.map (fun q => q.structs.map fun d => d.fields.map (·.offset)) =
    .ok #[[0, 9, 18], [0, 1]] := by decide +kernel

end Program

end ChannelBasic
