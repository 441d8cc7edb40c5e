import ChannelBasic.Proofs.Execution.Counting
import ChannelBasic.Proofs.Program.Strings
import ChannelBasic.Proofs.Program.Tiling

/-!
# Proofs/Execution/Names — what has different names lies apart

A function names its variables and its arguments, which lie in its frame, and the data fields of
its module.  Each name refers to a value of a type at a place (`EmissionContext.Declares`).  **The
values that two names refer to have no byte in common**, nor do they lie over the result of the
function (`Program.Complete.apart`), since all storage of an analysed program is tiled.  So what is
written to a value leaves everything with another name as it is (`Setting.Apart.read_write`).
-/

namespace ChannelBasic

open Code

/-! ## Places apart -/

namespace Place

variable {p q : Place} {n k a b i j : Nat}

theorem plus_inj : p.plus i = p.plus j ↔ i = j := by
  cases p <;> simp [plus]

theorem Apart.symm (h : p.Apart n q k) : q.Apart k p n := fun i hi j hj he => h j hj i hi he.symm

/-- Parts of what lies apart lie apart. -/
theorem Apart.parts (h : p.Apart n q k) {n' k' : Nat} (ha : a + n' ≤ n) (hb : b + k' ≤ k) :
    (p.plus a).Apart n' (q.plus b) k' := by
  intro i hi j hj
  rw [plus_plus, plus_plus]
  exact h _ (by omega) _ (by omega)

/-- Bytes of one value lie apart if some are over before the others begin. -/
theorem apart_plus (h : a + n ≤ b ∨ b + k ≤ a) : (p.plus a).Apart n (p.plus b) k := by
  intro i hi j hj
  rw [plus_plus, plus_plus, Ne, plus_inj]
  omega

@[simp] theorem plus_zero (p : Place) : p.plus 0 = p := by
  cases p <;> simp [plus]

theorem apart_frame {x y : Int} (h : x + n ≤ y ∨ y + k ≤ x) :
    (frame x).Apart n (frame y) k := by
  intro i hi j hj he
  have he : x + i = y + j := frame.inj he
  omega

theorem apart_data {x y : Int} (h : x + n ≤ y ∨ y + k ≤ x) : (data x).Apart n (data y) k := by
  intro i hi j hj he
  have he : x + i = y + j := data.inj he
  omega

theorem apart_frame_data (x y : Int) (n k : Nat) : (frame x).Apart n (data y) k :=
  fun _ _ _ _ he => by cases he

end Place

/-- Extents of a frame without a byte in common are places apart. -/
theorem Extent.Apart.places {a b : Extent} (h : a.Apart b) :
    (Place.frame a.offset).Apart a.size (.frame b.offset) b.size := by
  intro i hi j hj he
  have he : a.offset + i = b.offset + j := Place.frame.inj he
  exact h (a.offset + i) ⟨by omega, by omega⟩ ⟨by omega, by omega⟩

/-! ## What a name refers to -/

/-- The type of what a name refers to, if it lies anywhere. -/
def EmissionContext.declaredType? (ctx : EmissionContext) : Declaration → Option TypeId
  | .localVar index => (ctx.body.locals[index]?).bind (·.type)
  | .argument index => (ctx.body.arguments[index]?).map (·.type)
  | .dataField index => (ctx.fields[index]?).map (·.type)
  | .constant _ => none

/-- What a name refers to: a value of a type and of some bytes lies at a place. -/
structure EmissionContext.Declares (ctx : EmissionContext) (d : Declaration) (t : TypeId)
    (place : Place) (n : Nat) : Prop where
  type : ctx.declaredType? d = some t
  place : ctx.declarationPlace? d = some place
  size : ctx.program.types.size? t = some n

namespace EmissionContext.Declares

variable {ctx : EmissionContext} {d : Declaration} {t t' : TypeId} {place place' : Place}
  {n n' i : Nat}

theorem unique (h : ctx.Declares d t place n) (h' : ctx.Declares d t' place' n') :
    t = t' ∧ place = place' ∧ n = n' := by
  obtain rfl := Option.some.inj (h.type.symm.trans h'.type)
  exact ⟨rfl, Option.some.inj (h.place.symm.trans h'.place),
    Option.some.inj (h.size.symm.trans h'.size)⟩

theorem exists_local (h : ctx.Declares (.localVar i) t place n) :
    ∃ v, ctx.body.locals[i]? = some v ∧ v.type = some t ∧ place = .frame v.offset := by
  obtain ⟨v, hv, hplace⟩ := Option.map_eq_some_iff.1 h.place
  have ht := h.type
  rw [declaredType?, hv, Option.bind_some] at ht
  exact ⟨v, hv, ht, hplace.symm⟩

theorem exists_argument (h : ctx.Declares (.argument i) t place n) :
    ∃ slot, ctx.body.arguments[i]? = some slot ∧ slot.type = t ∧ place = .frame slot.offset := by
  obtain ⟨slot, hslot, hplace⟩ := Option.map_eq_some_iff.1 h.place
  have ht := h.type
  rw [declaredType?, hslot, Option.map_some] at ht
  exact ⟨slot, hslot, Option.some.inj ht, hplace.symm⟩

theorem exists_field (h : ctx.Declares (.dataField i) t place n) :
    ∃ slot, ctx.fields[i]? = some slot ∧ slot.type = t ∧ place = .data slot.offset := by
  obtain ⟨slot, hslot, hplace⟩ := Option.map_eq_some_iff.1 h.place
  have ht := h.type
  rw [declaredType?, hslot, Option.map_some] at ht
  exact ⟨slot, hslot, Option.some.inj ht, hplace.symm⟩

end EmissionContext.Declares

/-- A function's names refer to values that lie apart from each other and from its result, and their
types are laid out without gaps. -/
structure Setting.Apart (S : Setting) (Γ : Env) : Prop where
  packed : S.ctx.program.Packed
  declared : ∀ d t, Γ.declared d = some t → S.ctx.declaredType? d = some t
  members : ∀ r t slot, Γ.member r = some t → S.ctx.program.structField? r = some slot →
    slot.type = t
  apart : ∀ {d d' t t' place place' n n'}, S.ctx.Declares d t place n →
    S.ctx.Declares d' t' place' n' → d ≠ d' → place.Apart n place' n'
  result : ∀ {d t place n}, S.ctx.Declares d t place n →
    place.Apart n (.frame S.ctx.body.frame.result) S.result

section

variable {S : Setting} {Γ : Env} {place place' : Place} {σ : Store} {t t' : TypeId}
  {d d' : Declaration} {n n' offset index : Nat} {data : List UInt8}

/-- Part of what a name refers to lies apart from what another does. -/
theorem Setting.Apart.apart_part (hapart : S.Apart Γ) (hd : S.ctx.Declares d t place n)
    (hd' : S.ctx.Declares d' t' place' n') (hne : d ≠ d') {k : Nat} (hle : offset + k ≤ n') :
    place.Apart n (place'.plus offset) k := by
  have hparts := (hapart.apart hd hd' hne).parts (show 0 + n ≤ n by omega) hle
  rwa [Place.plus_zero] at hparts

/-- **What has another name stays as it is.** -/
theorem Setting.Apart.read_write (hapart : S.Apart Γ) (hd : S.ctx.Declares d t place n)
    (hd' : S.ctx.Declares d' t' place' n') (hne : d ≠ d') (hle : offset + data.length ≤ n') :
    (σ.write (place'.plus offset) data).read place n = σ.read place n :=
  Store.read_write_of_apart (hapart.apart_part hd hd' hne hle)

/-- Every variable of a function has a type of some bytes. -/
theorem Setting.Fits.exists_declares (hS : S.Fits Γ) {v : Local}
    (hv : S.ctx.body.locals[index]? = some v) :
    ∃ t place n, S.ctx.Declares (.localVar index) t place n := by
  obtain ⟨n, hn, -⟩ := hS.locals index v hv
  obtain ⟨t, ht, hn⟩ := Option.bind_eq_some_iff.1 hn
  exact ⟨t, .frame v.offset, n, by rw [EmissionContext.declaredType?, hv, Option.bind_some, ht],
    congrArg (Option.map _) hv, hn⟩

end

/-! ## Names of analysed programs -/

/-- Slots that fill some bytes follow each other. -/
theorem Slot.Tile.follow {t : TypeTable} {low high : Nat} {fs : List Slot}
    (h : Slot.Tile t low high fs) : Slot.Follow t fs := by
  suffices Slot.Follow t fs ∧ ∀ f ∈ fs, low ≤ f.offset from this.1
  induction fs generalizing low with
  | nil => exact ⟨.nil, fun f hf => by cases hf⟩
  | cons f fs ih =>
    obtain ⟨hlow, n, hn, hrest⟩ := h
    obtain ⟨hfollow, hle⟩ := ih hrest
    refine ⟨.cons (fun g hg k hk => ?_) hfollow, fun g hg => ?_⟩
    · obtain rfl := Option.some.inj (hn.symm.trans hk)
      exact hlow ▸ hle g hg
    · obtain rfl | hg := List.mem_cons.1 hg
      · exact hlow.ge
      · exact (Nat.le_add_right _ _).trans (hle g hg)

namespace Program.Complete

variable {p : Program} {m : Module} {k : Nat} {f : Function} {body : UserBody} {d d' : Declaration}
  {t t' : TypeId} {place place' : Place} {n n' : Nat}

/-- A variable lies below the frame pointer, as one of the extents of its function. -/
theorem exists_extent (h : p.Complete) (hf : p.functions[k]? = some f) (hb : f.user? = some body)
    {i : Nat} (hd : EmissionContext.Declares ⟨p, f, body, m.fields⟩ (.localVar i) t place n) :
    ∃ offset : Int, place = .frame offset ∧ offset + n ≤ 0 ∧
      (body.extents p.types p.constantValue)[i]? = some (some ⟨offset, n⟩) := by
  obtain ⟨v, hv, ht, rfl⟩ := hd.exists_local
  dsimp only at hv
  obtain ⟨z, hz, -, hhigh⟩ := (h.analysed.laidOut.functions k f hf body hb).locals i v hv
  rw [ht, Option.bind_some] at hz
  obtain rfl := Option.some.inj (hz.symm.trans hd.size)
  obtain ⟨hi, hget⟩ := Array.getElem?_eq_some_iff.1 hv
  refine ⟨v.offset, rfl, hhigh, ?_⟩
  rw [UserBody.extents, List.append_assoc, List.getElem?_append_left (by simpa using hi)]
  rw [List.getElem?_map, Array.getElem?_toList, hv, Option.map_some, TypeTable.extent?, ht,
    Option.bind_some, hz, Option.map_some]

/-- An argument lies between the frame pointer and the result. -/
theorem exists_argument (h : p.Complete) (hf : p.functions[k]? = some f) (hb : f.user? = some body)
    {i : Nat} (hd : EmissionContext.Declares ⟨p, f, body, m.fields⟩ (.argument i) t place n) :
    ∃ slot, body.arguments[i]? = some slot ∧ p.types.size? slot.type = some n ∧
      place = .frame slot.offset ∧ slot.offset + n ≤ body.frame.result := by
  obtain ⟨slot, hslot, rfl, rfl⟩ := hd.exists_argument
  obtain ⟨z, hz, -, hhigh⟩ := (h.analysed.laidOut.functions k f hf body hb).arguments slot
    (List.mem_of_getElem? hslot)
  obtain rfl := Option.some.inj (hz.symm.trans hd.size)
  exact ⟨slot, hslot, hz, rfl, hhigh⟩

/-- **What two names of a function refer to lies apart.** -/
theorem apart_declares (h : p.Complete) (htiled : p.Tiled) (hm : m ∈ p.modules)
    (hf : p.functions[k]? = some f) (hb : f.user? = some body)
    (hd : EmissionContext.Declares ⟨p, f, body, m.fields⟩ d t place n)
    (hd' : EmissionContext.Declares ⟨p, f, body, m.fields⟩ d' t' place' n') (hne : d ≠ d') :
    place.Apart n place' n' := by
  have hmem := Array.mem_of_getElem? hf
  cases d with
  | constant i => cases hd.type
  | localVar i =>
    obtain ⟨offset, rfl, hle, hextent⟩ := h.exists_extent hf hb hd
    cases d' with
    | constant j => cases hd'.type
    | localVar j =>
      obtain ⟨offset', rfl, -, hextent'⟩ := h.exists_extent hf hb hd'
      have hij : i ≠ j := fun he => hne (congrArg _ he)
      exact ((htiled.frames f hmem body hb).apart hij hextent hextent').places
    | argument j =>
      obtain ⟨slot, -, -, rfl, -⟩ := h.exists_argument hf hb hd'
      exact Place.apart_frame (by omega)
    | dataField j =>
      obtain ⟨slot, -, -, rfl⟩ := hd'.exists_field
      exact Place.apart_frame_data _ _ _ _
  | argument i =>
    obtain ⟨slot, hslot, hn, rfl, -⟩ := h.exists_argument hf hb hd
    cases d' with
    | constant j => cases hd'.type
    | localVar j =>
      obtain ⟨offset', rfl, hle, -⟩ := h.exists_extent hf hb hd'
      exact Place.apart_frame (by omega)
    | argument j =>
      obtain ⟨slot', hslot', hn', rfl, -⟩ := h.exists_argument hf hb hd'
      have hij : i ≠ j := fun he => hne (congrArg _ he)
      have hbeside := (htiled.arguments f hmem body hb).follow.apart hij hslot hslot' hn hn'
      exact Place.apart_frame (by omega)
    | dataField j =>
      obtain ⟨slot', -, -, rfl⟩ := hd'.exists_field
      exact Place.apart_frame_data _ _ _ _
  | dataField i =>
    obtain ⟨slot, hslot, rfl, rfl⟩ := hd.exists_field
    cases d' with
    | constant j => cases hd'.type
    | localVar j =>
      obtain ⟨offset', rfl, -, -⟩ := h.exists_extent hf hb hd'
      exact (Place.apart_frame_data _ _ _ _).symm
    | argument j =>
      obtain ⟨slot', -, -, rfl, -⟩ := h.exists_argument hf hb hd'
      exact (Place.apart_frame_data _ _ _ _).symm
    | dataField j =>
      obtain ⟨slot', hslot', rfl, rfl⟩ := hd'.exists_field
      have hij : i ≠ j := fun he => hne (congrArg _ he)
      have hbeside := (htiled.data m hm).follow.apart hij hslot hslot' hd.size hd'.size
      exact Place.apart_data (by omega)

/-- **The names of a function of a module refer to values that lie apart.** -/
theorem apart (h : p.Complete) (hpacked : p.Packed) (htiled : p.Tiled) (hm : m ∈ p.modules)
    (hn : p.Reaches m k) (hf : p.functions[k]? = some f) (hb : f.user? = some body)
    (result : Nat) (z : EmissionState) (callable : Nat → Prop) (target : Label → Prop)
    (count : Nat → Nat) :
    Setting.Apart ⟨⟨p, f, body, m.fields⟩, z, result, m.dataSize, callable, target, count⟩
      (Env.ofBody p.types p.constantValue p f.owner body (p.ownerFields f.owner)) where
  packed := hpacked
  declared d t ht := by
    cases d with
    | localVar i | argument i | constant i => exact ht
    | dataField i =>
      obtain ⟨slot, hslot, htype⟩ := Option.map_eq_some_iff.1 ht
      rw [h.ownerFields_eq hm hn hf hslot] at hslot
      exact Option.map_eq_some_iff.2 ⟨slot, hslot, htype⟩
  members r t slot ht hslot := by
    obtain ⟨d, hd, hfield⟩ := Option.bind_eq_some_iff.1 hslot
    obtain ⟨d', hd', ht⟩ := Option.bind_eq_some_iff.1 ht
    obtain rfl := Option.some.inj (hd'.symm.trans hd)
    rw [hfield, Option.map_some] at ht
    exact Option.some.inj ht
  apart hd hd' hne := h.apart_declares htiled hm hf hb hd hd' hne
  result {d t place n} hd := by
    cases d with
    | constant i => cases hd.type
    | localVar i =>
      obtain ⟨offset, rfl, hle, -⟩ := h.exists_extent hf hb hd
      exact Place.apart_frame (by omega)
    | argument i =>
      obtain ⟨slot, -, -, rfl, hle⟩ := h.exists_argument hf hb hd
      exact Place.apart_frame (.inl (by exact_mod_cast hle))
    | dataField i =>
      obtain ⟨slot, -, -, rfl⟩ := hd.exists_field
      exact (Place.apart_frame_data _ _ _ _).symm

end Program.Complete

end ChannelBasic
