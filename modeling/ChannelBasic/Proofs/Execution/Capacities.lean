import ChannelBasic.Proofs.Execution.Initialisation
import ChannelBasic.Proofs.Execution.Leftovers
import ChannelBasic.Proofs.Execution.Names

/-!
# Proofs/Execution/Capacities — string records keep their capacity

A value is copied bytewise, the headers of its string records with it.  So records lose their
capacity where a value is copied that has never been set: a variable without a first value, or what
a function leaves as its result without having returned any.  **A function without calls, addresses
and counting loops that reads its variables only after they have got their first values leaves all
records of its data sets with their capacity, and with a length that is no greater**
(`Module.headed_of_invoke`), if they and its arguments had this before.  When a machine is started
the data sets have it (`Machine.headed_of_start`).

The invariant (`Setting.Headed`) speaks of everything a function can name.  A part of a value is
written over by a value with the same records (`Program.Part`), and what has another name lies
elsewhere (`Setting.Apart`).
-/

namespace ChannelBasic

open Code

/-! ## Records in parts of values -/

/-- The first bytes of a string record with a capacity: a length that is no greater, and then the
capacity. -/
def IsHeader (capacity : Nat) (bytes : List UInt8) : Prop :=
  ∃ length ≤ capacity, bytes = Word.bytes 4 length ++ Word.bytes 4 capacity

theorem isHeader_encodeString (units : List UInt16) (c : Nat) :
    IsHeader c ((encodeString units (stringSize c)).take stringHeader) := by
  refine ⟨(units.take c).length, List.length_take_le _ _, ?_⟩
  rw [encodeString_eq]
  exact List.take_left' (by simp [stringHeader])

namespace Program

variable {p : Program} {t t' t'' : TypeId} {k o c n offset offset' : Nat} {d : Struct} {f : Slot}
  {data : List UInt8}

/-- All string records of a value have their capacity, and a length that is no greater. -/
def Headed (p : Program) (t : TypeId) (data : List UInt8) : Prop :=
  ∀ o c, p.RecordAt t o c → IsHeader c ((data.drop o).take stringHeader)

/-- The records of a type depend on its shape only. -/
theorem RecordAt.congr (h : p.RecordAt t o c) (hs : p.types.shape? t' = p.types.shape? t) :
    p.RecordAt t' o c := by
  cases h with
  | string hc =>
    rw [TypeTable.capacity?_iff] at hc
    exact .string (TypeTable.capacity?_iff.2 (hs.trans hc))
  | field hk hd hf h =>
    exact .field (TypeTable.struct?_of_shape? (hs.trans (TypeTable.shape?_of_struct? hk))) hd hf h

/-- A record lies inside of its value. -/
theorem Packed.record_inside (hp : p.Packed) (hn : p.types.size? t = some n)
    (h : p.RecordAt t o c) : o + stringSize c ≤ n := by
  have hlists := hp.lists_strings t n hn
  exact hlists.inside _ ((hlists.mem o c).2 h)

/-- What lies at an offset inside a value of a type is a value of another type, and the records in
it are those of the whole that are not apart from it. -/
structure Part (p : Program) (t : TypeId) (offset : Nat) (t' : TypeId) : Prop where
  inside : ∀ n n', p.types.size? t = some n → p.types.size? t' = some n' → offset + n' ≤ n
  whole : ∀ o c, p.RecordAt t' o c → p.RecordAt t (offset + o) c
  apart : ∀ o c n', p.RecordAt t o c → p.types.size? t' = some n' →
    (∃ o', o = offset + o' ∧ p.RecordAt t' o' c) ∨ o + stringSize c ≤ offset ∨ offset + n' ≤ o

/-- A value is a part of itself. -/
theorem part_self (p : Program) (hs : p.types.shape? t' = p.types.shape? t) : p.Part t 0 t' where
  inside n n' hn hn' := by
    rw [TypeTable.size?_eq, hs, ← TypeTable.size?_eq] at hn'
    have := Option.some.inj (hn.symm.trans hn')
    omega
  whole o c h := by
    rw [zero_add]
    exact h.congr hs.symm
  apart o c n' h _ := .inl ⟨o, (zero_add o).symm, h.congr hs⟩

/-- A part of a part is a part of the whole. -/
theorem Part.trans (h : p.Part t offset t') (h' : p.Part t' offset' t'')
    (hn : p.types.size? t' = some n) : p.Part t (offset + offset') t'' where
  inside m m' hm hm' := by
    have := h.inside m n hm hn
    have := h'.inside n m' hn hm'
    omega
  whole o c hr := by
    rw [add_assoc]
    exact h.whole _ c (h'.whole o c hr)
  apart o c n' hr hn' := by
    have hle := h'.inside n n' hn hn'
    obtain ⟨o', rfl, hr'⟩ | hapart := h.apart o c n hr hn
    · obtain ⟨o'', rfl, hr''⟩ | hapart := h'.apart o' c n' hr' hn'
      · exact .inl ⟨o'', (add_assoc ..).symm, hr''⟩
      · omega
    · omega

/-- A field is a part of its structure. -/
theorem Packed.part_field (hp : p.Packed) (hk : p.types.struct? t = some k)
    (hd : p.structs[k]? = some d) (hf : f ∈ d.fields) : p.Part t f.offset f.type where
  inside n n' hn hn' := by
    obtain ⟨m, hm, -, hhigh⟩ := hp.allWithin hd f hf
    obtain rfl := Option.some.inj (hn'.symm.trans hm)
    rw [hp.size?_struct hk hd] at hn
    exact Option.some.inj hn ▸ hhigh
  whole o c h := .field hk hd hf h
  apart o c n' h hn' := by
    cases h with
    | string hc =>
      rw [TypeTable.capacity?_of_struct? hk] at hc
      cases hc
    | @field _ _ o _ _ g hk' hd' hg h =>
      obtain rfl := Option.some.inj (hk.symm.trans hk')
      obtain rfl := Option.some.inj (hd.symm.trans hd')
      obtain ⟨i, hi⟩ := List.mem_iff_getElem?.1 hf
      obtain ⟨j, hj⟩ := List.mem_iff_getElem?.1 hg
      by_cases hij : i = j
      · subst hij
        obtain rfl := Option.some.inj (hi.symm.trans hj)
        exact .inl ⟨o, rfl, h⟩
      · -- one of two different fields lies behind the other
        obtain ⟨m, hm, -⟩ := hp.allWithin hd g hg
        have hinside := hp.record_inside hm h
        have hbeside := (hp.follow hd).apart hij hi hj hn' hm
        omega

/-- A part of a value has its records in order if the value has. -/
theorem Part.headed (h : p.Part t offset t') (hdata : p.Headed t data) (hp : p.Packed)
    (hn : p.types.size? t' = some n) : p.Headed t' ((data.drop offset).take n) := by
  intro o c hr
  have hle := hp.record_inside hn hr
  have hheader := hdata _ c (h.whole o c hr)
  rw [List.drop_take, List.drop_drop, List.take_take, min_eq_left]
  · exact hheader
  · unfold stringSize at hle
    omega

/-- A value that is written out has its record in order. -/
theorem headed_encode {s : Shape} {v : Value} (hs : p.types.shape? t = some s)
    (hval : s.isValue = true) (hv : v.Of s) (hn : p.types.size? t = some n) :
    p.Headed t (v.encode n) := by
  intro o c hr
  cases hr with
  | string hc =>
    obtain rfl := Option.some.inj (hs.symm.trans (TypeTable.capacity?_iff.1 hc))
    obtain ⟨units, rfl⟩ := Value.of_string hv
    rw [TypeTable.size?_eq, hs] at hn
    obtain rfl : stringSize c = n := Option.some.inj hn
    exact isHeader_encodeString units c
  | field hk =>
    obtain rfl := Option.some.inj (hs.symm.trans (TypeTable.shape?_of_struct? hk))
    cases hval

end Program

/-! ## Records in stores -/

namespace Store

variable {p q : Place} {n k i : Nat} {data : List UInt8} {records : List (Nat × Nat)}

/-- A part of what lies at a place lies there, too. -/
theorem take_drop_read (σ : Store) (p : Place) (h : i + k ≤ n) :
    ((σ.read p n).drop i).take k = σ.read (p.plus i) k := by
  refine List.ext_getElem? fun j => ?_
  by_cases hj : j < k
  · rw [List.getElem?_take_of_lt hj, List.getElem?_drop, getElem?_read _ _ (by omega),
      getElem?_read _ _ hj, Place.plus_plus]
  · rw [List.getElem?_eq_none (by simp; omega), List.getElem?_eq_none (by simp; omega)]

/-- What is written at a place lies there, in all its parts. -/
theorem read_write_part (σ : Store) (p : Place) (h : i + k ≤ data.length) :
    (σ.write p data).read (p.plus i) k = (data.drop i).take k := by
  rw [← take_drop_read _ _ h, read_write_self]

/-- The store with empty records, counted from a place. -/
def filled (σ : Store) (p : Place) (records : List (Nat × Nat)) : Store :=
  records.foldl (fun σ r => σ.write (p.plus r.1) (encodeString [] (stringSize r.2))) σ

/-- Records change nothing that lies apart from them. -/
theorem read_filled_of_apart (σ : Store)
    (h : ∀ r ∈ records, q.Apart k (p.plus r.1) (stringSize r.2)) :
    (σ.filled p records).read q k = σ.read q k := by
  induction records generalizing σ with
  | nil => rfl
  | cons r records ih =>
    rw [filled, List.foldl_cons]
    refine (ih _ fun r hr => h r (List.mem_cons_of_mem _ hr)).trans (read_write_of_apart ?_)
    rw [Memory.length_record]
    exact h r List.mem_cons_self

/-- Records that lie one behind the other can all be found. -/
theorem read_filled (σ : Store) (p : Place)
    (h : records.Pairwise fun r r' => r.1 + stringSize r.2 ≤ r'.1) {r : Nat × Nat}
    (hr : r ∈ records) :
    (σ.filled p records).read (p.plus r.1) (stringSize r.2) = encodeString [] (stringSize r.2) := by
  induction records generalizing σ with
  | nil => cases hr
  | cons r' records ih =>
    obtain ⟨hbehind, hrest⟩ := List.pairwise_cons.1 h
    obtain rfl | hr := List.mem_cons.1 hr
    · have hself := σ.read_write_self (p.plus r.1) (encodeString [] (stringSize r.2))
      rw [Memory.length_record] at hself
      refine (read_filled_of_apart (σ.write _ _) fun r' hr' => ?_).trans hself
      exact Place.apart_plus (.inl (hbehind r' hr'))
    · exact ih _ hrest hr

end Store

/-! ## Records of what a function can name -/

/-- What lies at a place as a value of a type is part of what a name refers to. -/
def EmissionContext.Belongs (ctx : EmissionContext) (d : Declaration) (place : Place)
    (t : TypeId) : Prop :=
  ∃ u base m offset, ctx.Declares d u base m ∧ place = base.plus offset ∧
    ctx.program.Part u offset t

/-- Of what a function can name, all string records have their capacity, and a length that is no
greater, apart from those of variables without a value. -/
def Setting.Headed (S : Setting) (known : List Nat) (σ : Store) : Prop :=
  ∀ d t place n, S.ctx.Declares d t place n → (∀ k, d = .localVar k → k ∈ known) →
    S.ctx.program.Headed t (σ.read place n)

section Headed

variable {S : Setting} {Γ : Env} {known : List Nat} {e : Expr} {place base : Place} {σ τ : Store}
  {t u : TypeId} {d : Declaration} {n m offset index : Nat} {data : List UInt8} {s : Shape}

theorem Program.Headed.congr {p : Program} (h : p.Headed t data)
    (hs : p.types.shape? u = p.types.shape? t) : p.Headed u data :=
  fun o c hr => h o c (hr.congr hs.symm)

/-- **What an expression stands for is part of what its name refers to.** -/
theorem Expr.Typed.belongs (hS : S.Fits Γ) (hapart : S.Apart Γ) (he : e.Typed Γ)
    (hplace : S.ctx.place? e = some place) (hi : e.info.type = some t) :
    ∃ d, S.ctx.Belongs d place t ∧
      ∀ known, e.readsOnly known = true → ∀ k, d = .localVar k → k ∈ known := by
  induction e using Expr.induct generalizing place t with
  | name i title decl =>
    have found {d : Declaration} (hd : i.type = Γ.declared d ∧ ∃ σ, Γ.shape i = some σ)
        (hplace : S.ctx.declarationPlace? d = some place) :
        S.ctx.Belongs d place t := by
      have ht : Γ.declared d = some t := hd.1.symm.trans hi
      obtain ⟨n, hn, -⟩ := hS.places d t place ht hplace
      exact ⟨t, place, n, 0, ⟨hapart.declared d t ht, hplace, hn⟩, place.plus_zero.symm,
        S.ctx.program.part_self rfl⟩
    cases decl with
    | none => cases hplace
    | some d =>
      cases d with
      | constant k => cases hplace
      | argument k | dataField k => exact ⟨_, found he hplace, fun _ _ _ hd => by cases hd⟩
      | localVar k =>
        refine ⟨_, found he hplace, fun known hr k' hd => ?_⟩
        cases hd
        exact List.contains_iff_mem.1 hr
  | member i target field decl ih =>
    cases decl with
    | none => cases he
    | some r =>
      obtain ⟨htarget, _, hstruct, v, s, hv, hs, hshape⟩ := he
      obtain ⟨base, hbase, hplace⟩ := Option.bind_eq_some_iff.1 hplace
      obtain ⟨slot, hslot, hplace⟩ := Option.bind_eq_some_iff.1 hplace
      obtain rfl := Option.some.inj hplace
      obtain ⟨w, hw, hk⟩ := Env.shape_eq_some.1 hstruct
      rw [hS.env.types] at hk
      obtain ⟨d, ⟨u, root, m, offset, hd, rfl, hpart⟩, hr⟩ := ih htarget hbase hw
      obtain ⟨fields, hfields, hmem⟩ := Option.bind_eq_some_iff.1 hslot
      have hk := TypeTable.struct?_of_shape? hk
      have hmem := List.mem_of_getElem? hmem
      have hfield := hapart.packed.part_field hk hfields hmem
      obtain ⟨z, hz, -⟩ := hapart.packed.allWithin hfields slot hmem
      -- the type of a member is written down twice, for the field and for the node
      have hsame : S.ctx.program.types.shape? t = S.ctx.program.types.shape? slot.type := by
        obtain ⟨t', ht', hs'⟩ := Env.shape_eq_some.1 hshape
        obtain rfl := Option.some.inj (ht'.symm.trans hi)
        rw [hapart.members r v slot hv hslot, ← hS.env.types, hs, hs']
      refine ⟨d, ⟨u, root, m, offset + slot.offset, hd, Place.plus_plus .., ?_⟩, hr⟩
      have hwhole := (hpart.trans hfield (hapart.packed.size?_struct hk hfields)).trans
        (S.ctx.program.part_self hsame) hz
      rwa [Nat.add_zero] at hwhole
  | literal | call | unary | binary | cast | pointer => cases hplace

/-- What is read where an expression stands has its records in order. -/
theorem Setting.Headed.read (h : S.Headed known σ) (hS : S.Fits Γ) (hapart : S.Apart Γ)
    (he : e.Typed Γ) (hr : e.readsOnly known = true) (hplace : S.ctx.place? e = some place)
    (hi : e.info.type = some t) (hn : S.ctx.program.types.size? t = some n) :
    S.ctx.program.Headed t (σ.read place n) := by
  obtain ⟨d, ⟨u, base, m, offset, hd, rfl, hpart⟩, hknown⟩ := he.belongs hS hapart hplace hi
  have hheaded := hpart.headed (h d u base m hd (hknown known hr)) hapart.packed hn
  rwa [Store.take_drop_read _ _ (hpart.inside m n hd.size hn)] at hheaded

/-- **The bytes of an expression have their records in order.** -/
theorem Setting.Headed.bytes (h : S.Headed known σ) (hS : S.Fits Γ) (hapart : S.Apart Γ)
    (he : e.Typed Γ) (hr : e.readsOnly known = true) (hdata : e.bytes S.ctx σ.read = .ok data)
    (hs : Γ.shape e.info = some s) (ht : S.ctx.program.types.shape? t = some s)
    (hn : S.ctx.program.types.size? t = some n) :
    S.ctx.program.Headed t data ∧ data.length = n := by
  have hsize : S.ctx.size? e.info = some n := by
    rw [hS.env.size?_eq hs, ← hn, TypeTable.size?_eq, ht, Option.bind_some]
  refine ⟨?_, he.length_bytes_of_size hS.env hr hs hsize hdata⟩
  obtain ⟨e', place, he', hr', hs', hplace, rfl⟩ | ⟨hval, v, hv, rfl⟩ :=
    he.bytes_cases hS.env hr hs hsize hdata
  · obtain ⟨t', ht', hshape⟩ := Env.shape_eq_some.1 hs'
    rw [hS.env.types] at hshape
    have hsame : S.ctx.program.types.shape? t = S.ctx.program.types.shape? t' :=
      ht.trans hshape.symm
    have hn' : S.ctx.program.types.size? t' = some n := by
      rw [TypeTable.size?_eq, ← hsame, ← TypeTable.size?_eq, hn]
    exact (h.read hS hapart he' hr' hplace ht' hn').congr hsame
  · exact Program.headed_encode ht hval hv hn

/-- **A part of a value is written over by a value with the same records.** -/
theorem Setting.Headed.write (h : S.Headed known σ) (hapart : S.Apart Γ)
    (hd : S.ctx.Declares d u base m) (hpart : S.ctx.program.Part u offset t)
    (hdata : S.ctx.program.Headed t data)
    (hn : S.ctx.program.types.size? t = some data.length) :
    S.Headed known (σ.write (base.plus offset) data) := by
  have hle := hpart.inside m data.length hd.size hn
  intro d' t' place' n' hd' hknown
  by_cases hne : d' = d
  · subst hne
    obtain ⟨rfl, rfl, rfl⟩ := hd.unique hd'
    intro o c hr
    have hinside := hapart.packed.record_inside hd.size hr
    have hheader : stringHeader ≤ stringSize c := stringHeader_le_stringSize c
    rw [Store.take_drop_read _ _ (by omega)]
    obtain ⟨o', rfl, hr'⟩ | hbeside := hpart.apart o c data.length hr hn
    · have hinside' := hapart.packed.record_inside hn hr'
      rw [← Place.plus_plus, Store.read_write_part _ _ (by omega)]
      exact hdata o' c hr'
    · rw [Store.read_write_of_apart (Place.apart_plus (by omega)),
        ← Store.take_drop_read _ _ (by omega : o + stringHeader ≤ m)]
      exact h d' u base m hd hknown o c hr
  · rw [hapart.read_write hd' hd hne hle]
    exact h d' t' place' n' hd' hknown

/-- A variable that has a value with its records in order is added to those that have one. -/
theorem Setting.Headed.cons (h : S.Headed known σ)
    (hd : S.ctx.Declares (.localVar index) t place n)
    (hnew : S.ctx.program.Headed t (τ.read place n))
    (hold : ∀ d' t' place' n', S.ctx.Declares d' t' place' n' → d' ≠ .localVar index →
      τ.read place' n' = σ.read place' n') : S.Headed (index :: known) τ := by
  intro d' t' place' n' hd' hknown
  by_cases hne : d' = .localVar index
  · subst hne
    obtain ⟨rfl, rfl, rfl⟩ := hd.unique hd'
    exact hnew
  · rw [hold d' t' place' n' hd' hne]
    refine h d' t' place' n' hd' fun k hk => ?_
    obtain rfl | hmem := List.mem_cons.1 (hknown k hk)
    · exact absurd hk hne
    · exact hmem

theorem EmissionContext.cleared_eq {ctx : EmissionContext} {v : Local}
    (hv : ctx.body.locals[index]? = some v) (ht : v.type = some t)
    (hn : ctx.program.types.size? t = some n) (σ : Store) : ctx.cleared σ index =
      (σ.write (.frame v.offset) (List.replicate n 0)).filled (.frame v.offset)
        (ctx.program.strings t) := by
  unfold cleared
  rw [hv, Option.bind_some, ht]
  simp only [hn, Option.getD_some]
  rfl

/-- A variable that is cleared gets all its records. -/
theorem Setting.Apart.headed_cleared (hapart : S.Apart Γ)
    (hd : S.ctx.Declares (.localVar index) t place n) (σ : Store) :
    S.ctx.program.Headed t ((S.ctx.cleared σ index).read place n) := by
  obtain ⟨v, hv, ht, rfl⟩ := hd.exists_local
  have hlists := hapart.packed.lists_strings t n hd.size
  intro o c hr
  have hinside := hapart.packed.record_inside hd.size hr
  have hheader : stringHeader ≤ stringSize c := stringHeader_le_stringSize c
  have hrecord := Store.read_filled (σ.write (.frame v.offset) (List.replicate n 0))
    (.frame v.offset) hlists.apart ((hlists.mem o c).2 hr)
  rw [EmissionContext.cleared_eq hv ht hd.size, Store.take_drop_read _ _ (by omega),
    ← Place.plus_zero ((Place.frame v.offset).plus o),
    ← Store.take_drop_read _ _ (by omega : 0 + stringHeader ≤ stringSize c), List.drop_zero,
    hrecord]
  exact isHeader_encodeString [] c

/-- What has another name stays as it is when a variable is cleared. -/
theorem Setting.Apart.read_cleared (hapart : S.Apart Γ)
    (hd : S.ctx.Declares (.localVar index) t place n) {d' : Declaration} {t' : TypeId}
    {place' : Place} {n' : Nat} (hd' : S.ctx.Declares d' t' place' n') (hne : d' ≠ .localVar index)
    (σ : Store) : (S.ctx.cleared σ index).read place' n' = σ.read place' n' := by
  obtain ⟨v, hv, ht, rfl⟩ := hd.exists_local
  have hlists := hapart.packed.lists_strings t n hd.size
  rw [EmissionContext.cleared_eq hv ht hd.size, Store.read_filled_of_apart _ fun r hr => ?_]
  · refine Store.read_write_of_apart ?_
    rw [List.length_replicate]
    exact hapart.apart hd' hd hne
  · exact hapart.apart_part hd' hd hne (hlists.inside r hr)

/-- **The string records of all that a function can name are kept in order** by what it does. -/
theorem Setting.Fits.invariant_headed (hS : S.Fits Γ) (hapart : S.Apart Γ) :
    S.Invariant Γ fun known σ τ => σ = τ ∧ S.Headed known σ where
  forget hle h :=
    ⟨h.1, fun d t place n hd hknown => h.2 d t place n hd fun k hk => hle (hknown k hk)⟩
  reads h _ _ := by
    obtain ⟨rfl, -⟩ := h
    exact ⟨rfl, rfl⟩
  assigns {_ _ _ e target place data s} h he hr hdata hs htarget hs' hplace := by
    obtain ⟨rfl, h⟩ := h
    obtain ⟨t, ht, hshape⟩ := Env.shape_eq_some.1 hs'
    rw [hS.env.types] at hshape
    obtain ⟨n, hn, -⟩ := hS.has_place htarget hplace
    rw [EmissionContext.size?, ht, Option.bind_some] at hn
    obtain ⟨hheaded, rfl⟩ := h.bytes hS hapart he hr hdata hs hshape hn
    obtain ⟨d, ⟨u, base, m, offset, hd, rfl, hpart⟩, -⟩ := htarget.belongs hS hapart hplace ht
    exact ⟨rfl, h.write hapart hd hpart hheaded hn⟩
  declares {_ _ _ e index place data t s} h he hr hdata hs ht hshape hplace := by
    obtain ⟨rfl, h⟩ := h
    rw [hS.env.types] at hshape
    obtain ⟨n, hn, -⟩ := hS.places _ t place ht hplace
    obtain ⟨hheaded, rfl⟩ := h.bytes hS hapart he hr hdata hs hshape hn
    have hd : S.ctx.Declares (.localVar index) t place data.length :=
      ⟨hapart.declared _ t ht, hplace, hn⟩
    refine ⟨rfl, h.cons hd (by rwa [Store.read_write_self]) fun d' t' place' n' hd' hne => ?_⟩
    exact Store.read_write_of_apart (hapart.apart hd' hd hne)
  clears {_ σ _} index h := by
    obtain ⟨rfl, h⟩ := h
    refine ⟨rfl, ?_⟩
    cases hv : S.ctx.body.locals[index]? with
    | some v =>
      obtain ⟨t, place, n, hd⟩ := hS.exists_declares hv
      exact h.cons hd (hapart.headed_cleared hd σ) fun d' t' place' n' hd' hne =>
        hapart.read_cleared hd hd' hne σ
    | none =>
      have hsame : S.ctx.cleared σ index = σ := by
        unfold EmissionContext.cleared
        rw [hv]
      rw [hsame]
      intro d t place n hd hknown
      refine h d t place n hd fun k hk => ?_
      obtain rfl | hmem := List.mem_cons.1 (hknown k hk)
      · have hplace := hd.place
        rw [hk, EmissionContext.declarationPlace?, hv] at hplace
        cases hplace
      · exact hmem
  returns {_ _ _ e data t s} h he hr hdata hs ht hshape := by
    obtain ⟨rfl, h⟩ := h
    rw [hS.env.types] at hshape
    obtain ⟨-, hlen⟩ := h.bytes hS hapart he hr hdata hs hshape (hS.result t ht)
    refine ⟨rfl, fun d t place n hd hknown => ?_⟩
    have hresult := hapart.result hd
    rw [← hlen] at hresult
    rw [Store.read_write_of_apart hresult]
    exact h d t place n hd hknown

end Headed

/-! ## Calls from outside -/

/-- Part of what lies at an address. -/
theorem Memory.Has.part {m : Memory} {a : Int} {data : List UInt8} (h : m.Has a data) {i n : Nat}
    (hle : i + n ≤ data.length) : m.Has (a + i) ((data.drop i).take n) := by
  rw [← List.take_append_drop i data, ← List.take_append_drop n (data.drop i)] at h
  have hpart := h.right.left
  rwa [List.length_take, min_eq_left (by omega)] at hpart

/-- The string records of all arguments have their capacity, and a length that is no greater. -/
def UserBody.Headed (body : UserBody) (p : Program) (arguments : List UInt8) : Prop :=
  ∀ slot ∈ body.arguments, ∀ n, p.types.size? slot.type = some n →
    p.Headed slot.type ((arguments.drop (slot.offset - Layout.linkSize)).take n)

/-- The string records of all data fields have their capacity, and a length that is no greater. -/
def Machine.Headed (machine : Machine) (p : Program) (fields : List Slot) (image : Image) : Prop :=
  ∀ slot ∈ fields, ∃ data, p.types.size? slot.type = some data.length ∧
    machine.memory.Has (image.address slot) data ∧ p.Headed slot.type data

/-- **What a value starts with has all its records in order.** -/
theorem Program.Packed.headed_initialBytes {p : Program} (hp : p.Packed) (t : TypeId) :
    ∀ n, p.types.size? t = some n → p.Headed t (p.initialBytes t) := by
  induction t using hp.induction with
  | h t ih =>
  intro n hn o c hr
  cases hr with
  | string hc =>
    have hstarts := (hp.starts_iff t n hn _).2 rfl
    generalize p.initialBytes t = bytes at hstarts
    cases hstarts with
    | string hc' =>
      obtain rfl := Option.some.inj (hc.symm.trans hc')
      exact encodeString_nil c ▸ isHeader_encodeString [] c
    | struct hk => rw [TypeTable.capacity?_of_struct? hk] at hc; cases hc
    | zeros hc' => rw [hc'] at hc; cases hc
  | @field _ k o _ d f hk hd hf hr =>
    obtain rfl := Option.some.inj (hn.symm.trans (hp.size?_struct hk hd))
    obtain ⟨z, hz, -, hhigh⟩ := hp.allWithin hd f hf
    have hlaid := hp.analysed.laidOut
    have hinside := hp.record_inside hz hr
    have hheader : stringHeader ≤ stringSize c := stringHeader_le_stringSize c
    -- the bytes of the field are those of the whole at its offset
    have hwhole := hlaid.has_initialBytes hn
    rw [hp.strings_of_struct hk hd] at hwhole
    have hpart := hwhole.part (i := f.offset) (n := z) (by rwa [length_initialBytes hn])
    have hfield := Module.has_initialBytes hlaid (hp.allWithin hd) (hp.follow hd) hf
    rw [zero_add] at hpart
    have hsame := hpart.unique hfield (by
      rw [length_initialBytes hz, List.length_take, List.length_drop, length_initialBytes hn]
      omega)
    have hrecord := ih k d hk hd f hf z hz o c hr
    rwa [hsame, List.drop_take, List.drop_drop, List.take_take, min_eq_left (by omega)] at hrecord

section

variable {S : Setting} {σ : Store} {machine : Machine} {image : Image} {arguments : List UInt8}

/-- What has been read lies there. -/
theorem Memory.has_of_read {m : Memory} {a : Int} {n : Nat} {p : Place}
    (h : m.read a n = .ok (σ.read p n)) : m.Has a (σ.read p n) := by
  rwa [Memory.Has, Store.length_read]

/-- Where a field lies in a store whose data sets lie in a machine. -/
theorem Store.has_field (hfields : Slot.AllWithin S.ctx.program.types 0 S.data S.ctx.fields)
    (hdata : machine.memory.Has image.dynamicBase (σ.read (.data 0) S.data)) {slot : Slot}
    (hslot : slot ∈ S.ctx.fields) {n : Nat} (hn : S.ctx.program.types.size? slot.type = some n) :
    machine.memory.Has (image.address slot) (σ.read (.data slot.offset) n) := by
  obtain ⟨z, hz, -, hhigh⟩ := hfields slot hslot
  obtain rfl := Option.some.inj (hz.symm.trans hn)
  have hpart := hdata.part (i := slot.offset) (n := z) (by rwa [Store.length_read])
  rwa [Store.take_drop_read _ _ hhigh, Place.plus, zero_add] at hpart

/-- A function that is called finds all records of the data sets and of its arguments in order. -/
theorem Store.Starts.headed (hσ : σ.Starts S.ctx S.result machine image arguments)
    (hdata : image.dataSize = S.data)
    (hfields : Slot.AllWithin S.ctx.program.types 0 S.data S.ctx.fields)
    (hslots : Slot.AllWithin S.ctx.program.types Layout.linkSize
      (Layout.linkSize + S.ctx.body.frame.arguments) S.ctx.body.arguments)
    (hheaded : machine.Headed S.ctx.program S.ctx.fields image)
    (hrecords : S.ctx.body.Headed S.ctx.program arguments) : S.Headed [] σ := by
  intro d t place n hd hknown
  cases d with
  | constant i => cases hd.type
  | localVar i => cases hknown i rfl
  | argument i =>
    obtain ⟨slot, hslot, rfl, rfl⟩ := hd.exists_argument
    have hmem := List.mem_of_getElem? hslot
    obtain ⟨z, hz, hlow, hhigh⟩ := hslots slot hmem
    obtain rfl := Option.some.inj (hz.symm.trans hd.size)
    have hheaded := hrecords slot hmem z hz
    rw [← hσ.arguments, Store.take_drop_read _ _ (by omega), Place.plus] at hheaded
    have hoffset : ((Layout.linkSize : Nat) : Int) + ((slot.offset - Layout.linkSize : Nat) : Int) =
      slot.offset := by omega
    rwa [hoffset] at hheaded
  | dataField i =>
    obtain ⟨slot, hslot, rfl, rfl⟩ := hd.exists_field
    have hmem := List.mem_of_getElem? hslot
    obtain ⟨data, hsize, hhas, hheaded⟩ := hheaded slot hmem
    obtain rfl := Option.some.inj (hsize.symm.trans hd.size)
    have hread := hσ.data
    rw [hdata, Int.toNat_natCast] at hread
    have hfield := Store.has_field hfields (Memory.has_of_read hread) hmem hsize
    rwa [← hfield.unique hhas (Store.length_read ..).symm]

/-- A machine with the data sets of a store has their records in order if the store has. -/
theorem Machine.headed_of_has (h : S.Headed [] σ)
    (hfields : Slot.AllWithin S.ctx.program.types 0 S.data S.ctx.fields)
    (hdata : machine.memory.Has image.dynamicBase (σ.read (.data 0) S.data)) :
    machine.Headed S.ctx.program S.ctx.fields image := by
  intro slot hslot
  obtain ⟨n, hn, -⟩ := hfields slot hslot
  obtain ⟨i, hi⟩ := List.mem_iff_getElem?.1 hslot
  have hd : S.ctx.Declares (.dataField i) slot.type (.data slot.offset) n :=
    ⟨congrArg (Option.map _) hi, congrArg (Option.map _) hi, hn⟩
  refine ⟨σ.read (.data slot.offset) n, by rwa [Store.length_read],
    Store.has_field hfields hdata hslot hn, h _ _ _ _ hd fun k hk => by cases hk⟩

end

/-- A machine that has been started has all records of the data sets in order. -/
theorem Machine.headed_of_start {raw : Raw.Program} {p : Program} {m : Module} {image : Image}
    {size : Nat} {machine : Machine} (hp : Program.analyse raw = .ok p) (hm : m ∈ p.modules)
    (himage : m.image p = .ok image) (hstart : Machine.start image size = .ok machine) :
    machine.Headed p m.fields image := by
  have h := Program.complete_of_analyse hp
  have hfollow := (Program.channelled_of_analyse hp).follow m hm
  intro slot hslot
  obtain ⟨n, hn, -⟩ := h.analysed.laidOut.modules m hm slot hslot
  exact ⟨p.initialBytes slot.type, by rw [Program.length_initialBytes hn, hn],
    Image.data_of_start h hfollow hm himage hstart hslot,
    (Program.packed_of_analyse hp).headed_initialBytes slot.type n hn⟩

namespace Module

variable {raw : Raw.Program} {p : Program} {m : Module} {a : Assembly} {image : Image}
  {u : Emission.Done} {f : Function} {body : UserBody} {machine : Machine}
  {arguments : List UInt8}

/-- **The string records in the data sets keep their capacity** when a function is called that reads
its variables only after they have got their first values, and that has no calls, addresses and
counting loops. -/
theorem headed_of_invoke (hp : Program.analyse raw = .ok p) (hm : m ∈ p.modules)
    (ha : m.assembly p = .ok a) (himage : m.image p = .ok image) (hu : u ∈ a.units)
    (hf : p.functions[u.number]? = some f) (hbody : f.user? = some body)
    (hstructured : Stmt.areStructured body.statements = true) (hsettled : body.isSettled = true)
    (hholds : machine.Holds image) (hheaded : machine.Headed p m.fields image)
    (harguments : arguments.length = body.frame.arguments) (hrecords : body.Headed p arguments)
    (hroom : machine.limit + EmissionContext.stack ⟨p, f, body, m.fields⟩ u.result ≤
      machine.memory.top) :
    ∃ machine', (Step.invoke (a.entry u) arguments).run machine = .ok () machine' ∧
      ∀ (natives : Natives) n result data,
        (machine'.run natives n).StopsWith image (a.entry u) result data →
          (machine'.run natives n).Headed p m.fields image := by
  have h := Program.complete_of_analyse hp
  obtain ⟨q, hq, hplaced⟩ := Program.exists_layout_of_analyse hp
  have htiled := Program.tiled_of_layout hq hplaced
  obtain ⟨a', start, z, ha', hbuilt⟩ := built_of_image (h.analysed.static m hm) himage
  obtain rfl : a' = a := Except.ok.inj (ha'.symm.trans ha)
  obtain ⟨f', body', code, hfor⟩ := hbuilt.code.code u hu
  obtain rfl := Option.some.inj (hf.symm.trans hfor.function)
  obtain rfl := Option.some.inj (hbody.symm.trans hfor.user)
  have hS := h.fits hm hfor.callable.1 hf hbody hfor.result (counts_id p) z
    (fun k => .call (some k) ∈ f.mentions) fun _ => True
  have hapart := h.apart (Program.packed_of_analyse hp) htiled hm hfor.callable.1 hf hbody
    u.result z (fun k => .call (some k) ∈ f.mentions) (fun _ => True) id
  have ht := h.analysed.typed u.number f hf body hbody
  obtain ⟨machine', hrun, hstarts, hanswers⟩ :=
    hbuilt.answers h hm hu hf hbody hstructured hholds harguments hroom
  refine ⟨machine', hrun, fun natives n result data hstops => ?_⟩
  have hlaid := h.analysed.laidOut
  have hfields := hlaid.modules m hm
  have hbegun := hstarts.headed (S := ⟨⟨p, f, body, m.fields⟩, z, u.result, m.dataSize, _, _, id⟩)
    hbuilt.dataSize hfields (hS.frame ▸ (hlaid.functions u.number f hf body hbody).arguments)
    hheaded hrecords
  obtain ⟨fuel, σ, hσ, -, rfl⟩ := ((hanswers natives).1 result data).1 ⟨n, hstops⟩
  have hboth := (hS.invariant_headed hapart).exec_both hsettled ht ⟨rfl, hbegun⟩ fuel
  rw [hσ] at hboth
  obtain _ | ⟨-, hended⟩ := hboth
  have hdata := hstops.data
  rw [hbuilt.dataSize] at hdata
  exact Machine.headed_of_has hended hfields (Memory.has_of_read hdata)

end Module

end ChannelBasic
