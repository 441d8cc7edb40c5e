import ChannelBasic.Program.Layout
import ChannelBasic.Proofs.Passes
import ChannelBasic.Proofs.Typing.Statements

/-!
# Proofs/Program/Layout — everything lies inside what it belongs to

A field lies inside its structured type, a data field inside the data of its module, an argument
between the link and the result of its frame, a variable or a temporary between the frame pointer
and the end of the frame.  A structured type gets its size **once**: while it is being laid out it
is among those `around`, and meeting it there again is refused (`ends_structSize`).
-/

namespace ChannelBasic

/-- Every place has a size and lies between two offsets. -/
def Slot.AllWithin (t : TypeTable) (low high : Nat) (slots : List Slot) : Prop :=
  ∀ f ∈ slots, ∃ n, t.size? f.type = some n ∧ low ≤ f.offset ∧ f.offset + n ≤ high

/-- The bytes of values of some types, one after the other. -/
def TypeTable.bytes (t : TypeTable) (types : List TypeId) : Nat :=
  (types.map fun id => (t.size? id).getD 0).sum

theorem TypeTable.sizeAt_eq_ok {t : TypeTable} {place : Location} {type : Option TypeId} {n : Nat} :
    t.sizeAt place type = .ok n ↔ type.bind t.size? = some n := by
  unfold sizeAt
  split
  next h => rw [h, Except.ok.injEq, Option.some.injEq]
  next h => simp [h]

/-- Sizes stay known as more sizes of structured types become known. -/
structure TypeTable.Measures (t t' : TypeTable) : Prop where
  entries : t'.entries = t.entries
  structSizes : ∀ k z, t.structSizes.lookup k = some z → t'.structSizes.lookup k = some z

namespace TypeTable.Measures

variable {t t' t'' : TypeTable}

theorem refl (t : TypeTable) : t.Measures t := ⟨rfl, fun _ _ h => h⟩

theorem trans (h : t.Measures t') (h' : t'.Measures t'') : t.Measures t'' :=
  ⟨h'.entries.trans h.entries, fun k z hz => h'.structSizes k z (h.structSizes k z hz)⟩

theorem get_eq (h : t.Measures t') : t'.get = t.get := by
  funext id
  rw [get, get, h.entries]

theorem shape?_eq (h : t.Measures t') (id : TypeId) : t'.shape? id = t.shape? id := by
  rw [shape?, shape?, baseEntry, baseEntry, base, base, h.get_eq]

theorem struct?_eq (h : t.Measures t') (id : TypeId) : t'.struct? id = t.struct? id := by
  rw [struct?, struct?, baseEntry, baseEntry, base, base, h.get_eq]

theorem toExtends (h : t.Measures t') : t.Extends t' where
  size_le := by rw [h.entries]
  resolved id _ := by rw [h.get_eq]
  constant id b _ hb := by rwa [h.get_eq] at hb

theorem size? (h : t.Measures t') {id : TypeId} {n : Nat} (hn : t.size? id = some n) :
    t'.size? id = some n := by
  obtain ⟨σ, hσ, hn⟩ := shape?_of_size? hn
  rw [size?_eq, h.shape?_eq, hσ, Option.bind_some]
  cases σ with
  | struct k => exact h.structSizes k n hn
  | _ => exact hn

theorem allWithin (h : t.Measures t') {low high : Nat} {slots : List Slot}
    (hs : Slot.AllWithin t low high slots) : Slot.AllWithin t' low high slots := by
  intro f hf
  obtain ⟨n, hn, hb⟩ := hs f hf
  exact ⟨n, h.size? hn, hb⟩

end TypeTable.Measures

/-- A size that is found for the first time changes none that is known. -/
theorem TypeTable.measures_setStructSize {t : TypeTable} {k : Nat}
    (h : t.structSizes.lookup k = none) (size : Nat) : t.Measures (t.setStructSize k size) := by
  refine ⟨rfl, fun j z hz => ?_⟩
  have hne : (j == k) = false := by
    rw [beq_eq_false_iff_ne]
    rintro rfl
    rw [hz] at h
    cases h
  rw [setStructSize, List.lookup_cons, hne]
  exact hz

theorem Slot.AllWithin.cons {t : TypeTable} {f : Slot} {fs : List Slot} {offset size stop : Nat}
    (hf : t.size? f.type = some size) (ho : f.offset = offset)
    (hstop : offset + size ≤ stop) (h : AllWithin t (offset + size) stop fs) :
    AllWithin t offset stop (f :: fs) := by
  intro g hg
  obtain rfl | hg := List.mem_cons.1 hg
  · exact ⟨size, hf, ho.ge, by omega⟩
  · obtain ⟨n, hn, hlow, hhigh⟩ := h g hg
    exact ⟨n, hn, by omega, hhigh⟩

namespace Layout

/-! ## Places one after the other -/

/-- **Places one after the other** have their sizes as distances. -/
theorem slots_eq_ok {t : TypeTable} {fs placed : List Slot} {offset stop : Nat}
    (h : slots t offset fs = .ok (placed, stop)) :
    placed.map (·.type) = fs.map (·.type) ∧ Slot.AllWithin t offset stop placed ∧
      stop = offset + t.bytes (fs.map (·.type)) := by
  induction fs generalizing offset placed with
  | nil =>
    obtain ⟨rfl, rfl⟩ : [] = placed ∧ offset = stop := by simpa [slots] using h
    exact ⟨rfl, by simp [Slot.AllWithin], rfl⟩
  | cons f rest ih =>
    obtain ⟨size, hsize, h⟩ := Checked.bind_eq_ok.1 h
    obtain ⟨⟨later, stop'⟩, hrest, h⟩ := Checked.bind_eq_ok.1 h
    obtain ⟨rfl, rfl⟩ := Prod.mk.inj (Checked.pure_eq_ok.1 h)
    obtain ⟨htypes, hwithin, hstop⟩ := ih hrest
    have hsize : t.size? f.type = some size := TypeTable.sizeAt_eq_ok.1 hsize
    refine ⟨by simp [htypes], Slot.AllWithin.cons hsize rfl (by omega) hwithin, ?_⟩
    rw [hstop, List.map_cons, TypeTable.bytes, TypeTable.bytes, List.map_cons, List.sum_cons,
      hsize, Option.getD_some, Nat.add_assoc]

/-! ## Structured types -/

namespace Sizing

/-- The size of a structured type, once it is known. -/
def size? (s : Sizing) (k : Nat) : Option Nat := s.types.structSizes.lookup k

/-- The types of the fields of a structured type. -/
def fieldTypes? (s : Sizing) (k : Nat) : Option (List TypeId) :=
  (s.structs[k]?).map fun d => d.fields.map (·.type)

/-- Fields lie inside the types whose sizes are known. -/
def Sound (s : Sizing) : Prop :=
  ∀ k z, s.size? k = some z → ∀ d, s.structs[k]? = some d → Slot.AllWithin s.types 0 z d.fields

/-- More sizes are known, and none of those of the types around. -/
structure Grows (around : List Nat) (s s' : Sizing) : Prop where
  types : s.types.Measures s'.types
  fields : ∀ k, s'.fieldTypes? k = s.fieldTypes? k
  held : ∀ k ∈ around, s.size? k = none → s'.size? k = none

theorem Grows.passage (around : List Nat) : Passage (Grows around) where
  refl _ := ⟨.refl _, fun _ => rfl, fun _ _ h => h⟩
  trans h h' := ⟨h.types.trans h'.types, fun k => (h'.fields k).trans (h.fields k),
    fun k hk hn => h'.held k hk (h.held k hk hn)⟩

theorem lt_size_iff (s : Sizing) (k : Nat) :
    k < s.structs.size ↔ (s.fieldTypes? k).isSome = true := by
  rw [fieldTypes?, Option.isSome_map]
  by_cases h : k < s.structs.size <;> simp [h]

theorem Grows.size_eq {around : List Nat} {s s' : Sizing} (h : Grows around s s') :
    s'.structs.size = s.structs.size := by
  have hlt (k : Nat) : k < s'.structs.size ↔ k < s.structs.size := by
    rw [lt_size_iff, lt_size_iff, h.fields]
  exact Nat.le_antisymm (Nat.le_of_not_lt fun h => Nat.lt_irrefl _ ((hlt _).1 h))
    (Nat.le_of_not_lt fun h => Nat.lt_irrefl _ ((hlt _).2 h))

theorem Grows.isSome {around : List Nat} {s s' : Sizing} (h : Grows around s s') {k : Nat}
    (hk : (s.size? k).isSome = true) : (s'.size? k).isSome = true := by
  obtain ⟨z, hz⟩ := Option.isSome_iff_exists.1 hk
  exact Option.isSome_iff_exists.2 ⟨z, h.types.structSizes k z hz⟩

end Sizing

theorem ends_structFields {around : List Nat} {inner : Nat → StateT Sizing Checked Unit}
    (hinner : ∀ n s, s.Sound → Ends (inner n) s fun _ s' => s'.Sound ∧ s.Grows around s')
    (fs : List Slot) : (offset : Nat) → (s : Sizing) → s.Sound →
      Ends (structFields inner offset fs) s fun r s' => s'.Sound ∧ s.Grows around s' ∧
        r.1.map (·.type) = fs.map (·.type) ∧ Slot.AllWithin s'.types offset r.2 r.1 ∧
          offset ≤ r.2 := by
  induction fs with
  | nil =>
    intro offset s hs
    unfold structFields
    exact Ends.value ⟨hs, (Sizing.Grows.passage around).refl s, rfl, by simp [Slot.AllWithin],
      le_rfl⟩
  | cons f rest ih =>
    intro offset s hs
    have place (s₁ : Sizing) (hs₁ : s₁.Sound) (hg₁ : s.Grows around s₁) :
        Ends (do
          let size ← (← get).types.sizeAt f.location (some f.type)
          let later ← structFields inner (offset + size) rest
          return ({ f with offset } :: later.1, later.2) : StateT Sizing Checked _) s₁ fun r s' =>
            s'.Sound ∧ s.Grows around s' ∧ r.1.map (·.type) = (f :: rest).map (·.type) ∧
              Slot.AllWithin s'.types offset r.2 r.1 ∧ offset ≤ r.2 := by
      refine Ends.reads ?_
      refine (Ends.lifts (Q := fun n s₂ => s₁ = s₂ ∧ (some f.type).bind s₁.types.size? = some n)
        fun n hn => ⟨rfl, TypeTable.sizeAt_eq_ok.1 hn⟩).seq fun size s₂ h₂ => ?_
      obtain ⟨rfl, hsize⟩ := h₂
      refine (ih (offset + size) s₁ hs₁).seq fun r s₃ h₃ => ?_
      obtain ⟨hs₃, hg₃, htypes, hwithin, hle⟩ := h₃
      exact Ends.value ⟨hs₃, (Sizing.Grows.passage around).trans hg₁ hg₃, by simp [htypes],
        .cons (hg₃.types.size? hsize) rfl hle hwithin, by omega⟩
    unfold structFields
    refine Ends.reads ?_
    dsimp only
    split
    · exact (hinner _ s hs).seq fun _ s₁ h₁ => place s₁ h₁.1 h₁.2
    · exact Ends.value_seq (place s hs ((Sizing.Grows.passage around).refl s))

/-- A structured type whose size was not known gets its fields placed and its size. -/
theorem sound_set {around : List Nat} {s s' : Sizing} {k : Nat} {d : Struct} {fields : List Slot}
    {size : Nat} (hk : k ∉ around) (hnone : s.size? k = none) (hd : s.structs[k]? = some d)
    (hs' : s'.Sound) (hg : s.Grows (k :: around) s')
    (htypes : fields.map (·.type) = d.fields.map (·.type))
    (hwithin : Slot.AllWithin s'.types 0 size fields) :
    Sizing.Sound ⟨s'.types.setStructSize k size,
        s'.structs.setIfInBounds k { d with fields }⟩ ∧
      s.Grows around ⟨s'.types.setStructSize k size,
        s'.structs.setIfInBounds k { d with fields }⟩ := by
  have hnone' : s'.size? k = none := hg.held k (by simp) hnone
  have hset := TypeTable.measures_setStructSize hnone' size
  refine ⟨fun j z hz e he => ?_, hg.types.trans hset, fun j => ?_, fun j hj hn => ?_⟩
  · by_cases hjk : j = k
    · subst hjk
      obtain rfl : size = z := by
        simpa [Sizing.size?, TypeTable.setStructSize] using hz
      rw [Array.getElem?_setIfInBounds_self] at he
      split at he
      · obtain rfl := Option.some.inj he
        exact hset.allWithin hwithin
      · cases he
    · have hz' : s'.size? j = some z := by
        simpa [Sizing.size?, TypeTable.setStructSize, List.lookup_cons,
          beq_eq_false_iff_ne.2 hjk] using hz
      rw [Array.getElem?_setIfInBounds_ne (Ne.symm hjk)] at he
      exact hset.allWithin (hs' j z hz' e he)
  · by_cases hjk : k = j
    · subst hjk
      have hold : s.fieldTypes? k = some (d.fields.map (·.type)) := by
        rw [Sizing.fieldTypes?, hd, Option.map_some]
      have hlt : k < s'.structs.size := by
        have := (hg.fields k).trans hold
        obtain ⟨e, he, -⟩ := Option.map_eq_some_iff.1 this
        exact (Array.getElem?_eq_some_iff.1 he).1
      rw [hold, Sizing.fieldTypes?, Array.getElem?_setIfInBounds_self_of_lt hlt, Option.map_some,
        htypes]
    · rw [← hg.fields j, Sizing.fieldTypes?, Sizing.fieldTypes?,
        Array.getElem?_setIfInBounds_ne hjk]
  · have hjk : (j == k) = false := by
      rw [beq_eq_false_iff_ne]
      rintro rfl
      exact hk hj
    have hj' := hg.held j (by simp [hj]) hn
    rw [Sizing.size?, TypeTable.setStructSize, List.lookup_cons, hjk]
    exact hj'

/-- **A structured type gets its size once**, and its fields lie inside it. -/
theorem ends_structSize (bound : Nat) : (around : List Nat) → (k : Nat) → (s : Sizing) →
    s.Sound → Ends (structSize bound around k) s fun _ s' => s'.Sound ∧ s.Grows around s' ∧
      (k < s.structs.size → (s'.size? k).isSome = true) := by
  induction bound with
  | zero => exact fun _ _ _ _ => Ends.refused
  | succ bound ih =>
    intro around k s hs
    unfold structSize
    refine Ends.reads ?_
    split
    next hk =>
      refine Ends.value ⟨hs, (Sizing.Grows.passage around).refl s, fun hlt => ?_⟩
      rw [Array.getElem?_eq_getElem hlt] at hk
      cases hk
    next d hd =>
      dsimp only
      split
      next hsize => exact Ends.value ⟨hs, (Sizing.Grows.passage around).refl s, fun _ => hsize⟩
      next hsize =>
        split
        · exact Ends.refused_seq
        next hk =>
          have hnone : s.size? k = none := Option.not_isSome_iff_eq_none.1 hsize
          refine (ends_structFields (fun n s hs => (ih (k :: around) n s hs).mono fun _ _ h =>
            ⟨h.1, h.2.1⟩) d.fields 0 s hs).seq fun r s' h => ?_
          obtain ⟨hs', hg, htypes, hwithin, -⟩ := h
          obtain ⟨hsound, hgrows⟩ := sound_set (by simpa using hk) hnone hd hs' hg htypes hwithin
          refine Ends.modifies ⟨hsound, hgrows, fun _ => ?_⟩
          simp [Sizing.size?, TypeTable.setStructSize]

end Layout

/-! ## Temporaries -/

mutual

/-- Every temporary of the expression lies between an offset and the frame pointer, and there is one
for each address that takes a copy. -/
def Expr.Framed (t : TypeTable) (constant : Nat → Option Literal) (low : Int) : Expr → Prop
  | .literal _ _ | .name _ _ _ => True
  | .member _ target _ _ => target.Framed t constant low
  | .call _ _ arguments _ => Expr.FramedAll t constant low arguments
  | .unary _ _ operand | .cast _ operand => operand.Framed t constant low
  | .binary _ _ left right => left.Framed t constant low ∧ right.Framed t constant low
  | .pointer _ target temp =>
    target.Framed t constant low ∧ (temp = none → target.needsTemp t constant = false) ∧
      ∀ o, temp = some o → ∃ n : Nat, target.type?.bind t.size? = some n ∧ low ≤ o ∧ o + n ≤ 0

/-- Expressions whose temporaries lie in the frame. -/
def Expr.FramedAll (t : TypeTable) (constant : Nat → Option Literal) (low : Int) :
    List Expr → Prop
  | [] => True
  | e :: rest => e.Framed t constant low ∧ Expr.FramedAll t constant low rest

end

mutual

/-- Every temporary of the statement lies between an offset and the frame pointer. -/
def Stmt.Framed (t : TypeTable) (constant : Nat → Option Literal) (low : Int) : Stmt → Prop
  | .var _ _ value => ∀ e, value = some e → e.Framed t constant low
  | .assign _ value target => value.Framed t constant low ∧ target.Framed t constant low
  | .invoke _ call => call.Framed t constant low
  | .return _ value => ∀ e, value = some e → e.Framed t constant low
  | .choose _ branches => branches.Framed t constant low
  | .count _ counter start finish step body temps =>
    ((∃ n : Nat, counter.type?.bind t.size? = some n ∧ low ≤ temps.finish ∧ temps.finish + n ≤ 0 ∧
      low ≤ temps.step ∧ temps.step + n ≤ 0 ∧ low ≤ temps.sign ∧ temps.sign + 1 ≤ 0) ∧
      counter.Framed t constant low ∧ start.Framed t constant low ∧ finish.Framed t constant low ∧
        ∀ e, step = some e → e.Framed t constant low) ∧ Stmt.FramedAll t constant low body
  | .loop _ condition body =>
    (∀ c, condition = some c → c.value.Framed t constant low) ∧
      Stmt.FramedAll t constant low body

/-- Statements whose temporaries lie in the frame. -/
def Stmt.FramedAll (t : TypeTable) (constant : Nat → Option Literal) (low : Int) :
    List Stmt → Prop
  | [] => True
  | s :: rest => s.Framed t constant low ∧ Stmt.FramedAll t constant low rest

/-- Branches whose temporaries lie in the frame. -/
def Branches.Framed (t : TypeTable) (constant : Nat → Option Literal) (low : Int) :
    Branches → Prop
  | .done => True
  | .otherwise body => Stmt.FramedAll t constant low body
  | .branch condition body rest =>
    condition.Framed t constant low ∧ Stmt.FramedAll t constant low body ∧
      rest.Framed t constant low

end

section Mono

variable {t : TypeTable} {constant : Nat → Option Literal} {low low' : Int}

mutual

theorem Expr.Framed.mono (hl : low' ≤ low) :
    (e : Expr) → e.Framed t constant low → e.Framed t constant low'
  | .literal _ _, _ | .name _ _ _, _ => trivial
  | .member _ target _ _, h => Expr.Framed.mono hl target h
  | .call _ _ arguments _, h => Expr.FramedAll.mono hl arguments h
  | .unary _ _ operand, h | .cast _ operand, h => Expr.Framed.mono hl operand h
  | .binary _ _ left right, ⟨h, h'⟩ => ⟨Expr.Framed.mono hl left h, Expr.Framed.mono hl right h'⟩
  | .pointer _ target _, ⟨h, hn, hs⟩ => ⟨Expr.Framed.mono hl target h, hn, fun o ho => by
      obtain ⟨n, hn, hlow, hhigh⟩ := hs o ho
      exact ⟨n, hn, hl.trans hlow, hhigh⟩⟩

theorem Expr.FramedAll.mono (hl : low' ≤ low) :
    (es : List Expr) → Expr.FramedAll t constant low es → Expr.FramedAll t constant low' es
  | [], _ => trivial
  | e :: rest, ⟨h, h'⟩ => ⟨Expr.Framed.mono hl e h, Expr.FramedAll.mono hl rest h'⟩

end

mutual

theorem Stmt.Framed.mono (hl : low' ≤ low) :
    (s : Stmt) → s.Framed t constant low → s.Framed t constant low'
  | .var _ _ _, h | .return _ _, h => fun e he => (h e he).mono hl
  | .assign _ _ _, ⟨h, h'⟩ => ⟨h.mono hl, h'.mono hl⟩
  | .invoke _ call, h => Expr.Framed.mono hl call h
  | .choose _ branches, h => Branches.Framed.mono hl branches h
  | .count _ _ _ _ _ body _, ⟨⟨⟨n, hn, hf, hf', hs, hs', hg, hg'⟩, hc, hst, hfi, hstep⟩, hb⟩ =>
    ⟨⟨⟨n, hn, hl.trans hf, hf', hl.trans hs, hs', hl.trans hg, hg'⟩, hc.mono hl, hst.mono hl,
      hfi.mono hl, fun e he => (hstep e he).mono hl⟩, Stmt.FramedAll.mono hl body hb⟩
  | .loop _ _ body, ⟨hc, hb⟩ =>
    ⟨fun c h => (hc c h).mono hl, Stmt.FramedAll.mono hl body hb⟩

theorem Stmt.FramedAll.mono (hl : low' ≤ low) :
    (l : List Stmt) → Stmt.FramedAll t constant low l → Stmt.FramedAll t constant low' l
  | [], _ => trivial
  | s :: rest, ⟨h, h'⟩ => ⟨Stmt.Framed.mono hl s h, Stmt.FramedAll.mono hl rest h'⟩

theorem Branches.Framed.mono (hl : low' ≤ low) :
    (b : Branches) → b.Framed t constant low → b.Framed t constant low'
  | .done, _ => trivial
  | .otherwise body, h => Stmt.FramedAll.mono hl body h
  | .branch _ body rest, ⟨hc, hb, hr⟩ =>
    ⟨hc.mono hl, Stmt.FramedAll.mono hl body hb, Branches.Framed.mono hl rest hr⟩

end

end Mono

/-- An expression with its temporaries placed is the same expression otherwise. -/
structure Expr.Relaid (t : TypeTable) (constant : Nat → Option Literal) (low : Int)
    (e e' : Expr) : Prop where
  info : e'.info = e.info
  addressable : e'.isAddressable = e.isAddressable
  fold : ∀ types values, e'.fold types values = e.fold types values
  typed : ∀ Γ, e.Typed Γ → e'.Typed Γ
  framed : e'.Framed t constant low

theorem Expr.TypedAll.relaid {t : TypeTable} {constant : Nat → Option Literal} {Γ : Env}
    {ps : List TypeId} {es es' : List Expr} (h : Expr.TypedAll Γ ps es)
    (hr : List.Forall₂ (fun e e' => ∃ low, e.Relaid t constant low e') es es') :
    Expr.TypedAll Γ ps es' := by
  induction hr generalizing ps with
  | nil => exact h
  | @cons e e' es es' he _ ih =>
    obtain ⟨low, he⟩ := he
    cases ps with
    | nil => exact h
    | cons p ps =>
      rw [Expr.typedAll_iff, List.forall₂_cons] at h ⊢
      obtain ⟨⟨ht, σ, hσ, hσ'⟩, h⟩ := h
      exact ⟨⟨he.typed Γ ht, σ, hσ, by rwa [he.info]⟩, Expr.typedAll_iff.1
        (ih (Expr.typedAll_iff.2 h))⟩

namespace Layout

variable {t : TypeTable} {constant : Nat → Option Literal}

theorem ends_room (n : Nat) {s : FrameState} (hs : s.cursor ≤ 0) :
    Ends (room n) s fun o s' => s'.locals = s.locals ∧ s'.cursor ≤ s.cursor ∧ o = s'.cursor ∧
      o + n ≤ 0 :=
  Ends.changes ⟨rfl, by dsimp only; omega, rfl, by dsimp only; omega⟩

mutual

theorem ends_expr : (e : Expr) → (s : FrameState) → s.cursor ≤ 0 →
    Ends (expr t constant e) s fun e' s' => s'.locals = s.locals ∧ s'.cursor ≤ s.cursor ∧
      e.Relaid t constant s'.cursor e'
  | .literal i v, s, hs => by
    unfold expr
    exact Ends.value ⟨rfl, le_rfl, rfl, rfl, fun _ _ => rfl, fun _ h => h, trivial⟩
  | .name i n d, s, hs => by
    unfold expr
    exact Ends.value ⟨rfl, le_rfl, rfl, rfl, fun _ _ => rfl, fun _ h => h, trivial⟩
  | .member i target field d, s, hs => by
    unfold expr
    refine (ends_expr target s hs).seq fun e s₁ h₁ => ?_
    obtain ⟨hl, hc, h⟩ := h₁
    refine Ends.value ⟨hl, hc, rfl, h.addressable, fun _ _ => rfl, fun Γ ht => ?_, h.framed⟩
    match d, ht with
    | some r, ⟨ht, ha, hσ, hm⟩ =>
      exact ⟨h.typed Γ ht, h.addressable.trans ha, by rwa [h.info], hm⟩
  | .call i f arguments c, s, hs => by
    unfold expr
    refine (ends_exprs arguments s hs).seq fun es s₁ h₁ => ?_
    obtain ⟨hl, hc, hall, hf⟩ := h₁
    refine Ends.value ⟨hl, hc, rfl, rfl, fun _ _ => rfl, fun Γ ht => ?_, hf⟩
    match c, ht with
    | some n, ⟨⟨ps, hps, hargs⟩, hret⟩ =>
      exact ⟨⟨ps, hps, Expr.TypedAll.relaid hargs hall⟩, hret⟩
  | .unary i op operand, s, hs => by
    unfold expr
    refine (ends_expr operand s hs).seq fun e s₁ h₁ => ?_
    obtain ⟨hl, hc, h⟩ := h₁
    refine Ends.value ⟨hl, hc, rfl, rfl, fun T C => ?_, fun Γ ht => ?_, h.framed⟩
    · simp only [Expr.fold, h.fold]
    · obtain ⟨ho, σ, hσ, hop, hσ'⟩ := ht
      exact ⟨h.typed Γ ho, σ, by rwa [h.info], hop, hσ'⟩
  | .binary i op left right, s, hs => by
    unfold expr
    refine (ends_expr left s hs).seq fun e s₁ h₁ => ?_
    obtain ⟨hl, hc, h⟩ := h₁
    refine (ends_expr right s₁ (hc.trans hs)).seq fun e' s₂ h₂ => ?_
    obtain ⟨hl', hc', h'⟩ := h₂
    refine Ends.value ⟨hl'.trans hl, hc'.trans hc, rfl, rfl, fun T C => ?_, fun Γ ht => ?_,
      h.framed.mono hc', h'.framed⟩
    · simp only [Expr.fold, h.fold, h'.fold]
    · obtain ⟨ht, ht', a, b, c, ha, hb, hop, hσ⟩ := ht
      exact ⟨h.typed Γ ht, h'.typed Γ ht', a, b, c, by rwa [h.info], by rwa [h'.info], hop, hσ⟩
  | .cast i operand, s, hs => by
    unfold expr
    refine (ends_expr operand s hs).seq fun e s₁ h₁ => ?_
    obtain ⟨hl, hc, h⟩ := h₁
    refine Ends.value ⟨hl, hc, rfl, rfl, fun T C => ?_, fun Γ ht => ?_, h.framed⟩
    · simp only [Expr.fold, h.fold]
    · obtain ⟨ho, hnone, σ, τ, hσ, hτ, hconv⟩ := ht
      exact ⟨h.typed Γ ho, (h.fold _ _).trans hnone, σ, τ, by rwa [h.info], hτ, hconv⟩
  | .pointer i target temp, s, hs => by
    have rest (p : Option Int) (s₁ : FrameState) (hl : s₁.locals = s.locals)
        (hc : s₁.cursor ≤ s.cursor) (hnone : p = none → target.needsTemp t constant = false)
        (hsome : ∀ o, p = some o → ∃ n : Nat, target.type?.bind t.size? = some n ∧
          s₁.cursor ≤ o ∧ o + n ≤ 0) :
        Ends (do return Expr.pointer i (← expr t constant target) p) s₁ fun e' s' =>
          s'.locals = s.locals ∧ s'.cursor ≤ s.cursor ∧
            (Expr.pointer i target temp).Relaid t constant s'.cursor e' := by
      refine (ends_expr target s₁ (hc.trans hs)).seq fun e s₂ h₂ => ?_
      obtain ⟨hl', hc', h⟩ := h₂
      have hneeds : e.needsTemp t constant = target.needsTemp t constant := by
        rw [Expr.needsTemp, Expr.needsTemp, h.addressable, h.fold]
      refine Ends.value ⟨hl'.trans hl, hc'.trans hc, rfl, rfl, fun _ _ => rfl, fun Γ ht => ?_,
        h.framed, fun hp => hneeds.trans (hnone hp), fun o ho => ?_⟩
      · obtain ⟨ht, hp, σ, hσ⟩ := ht
        exact ⟨h.typed Γ ht, hp, σ, by rwa [h.info]⟩
      · obtain ⟨n, hn, hlow, hhigh⟩ := hsome o ho
        exact ⟨n, by rwa [Expr.type?, h.info], hc'.trans hlow, hhigh⟩
    unfold expr
    dsimp only
    split
    next hneeds =>
      refine (Ends.lifts (Q := fun n s₁ => s₁ = s ∧ target.type?.bind t.size? = some n)
        fun n hn => ⟨rfl, TypeTable.sizeAt_eq_ok.1 hn⟩).seq fun n s₁ h₁ => ?_
      obtain ⟨rfl, hn⟩ := h₁
      refine (ends_room n hs).seq fun o s₂ h₂ => ?_
      obtain ⟨hl, hc, rfl, hhigh⟩ := h₂
      refine Ends.value_seq (rest _ _ hl hc (by simp) fun o ho => ?_)
      obtain rfl := Option.some.inj ho
      exact ⟨n, hn, le_rfl, hhigh⟩
    next hneeds =>
      exact Ends.value_seq (rest _ _ rfl le_rfl (fun _ => by simpa using hneeds) (by simp))

theorem ends_exprs : (es : List Expr) → (s : FrameState) → s.cursor ≤ 0 →
    Ends (exprs t constant es) s fun es' s' => s'.locals = s.locals ∧ s'.cursor ≤ s.cursor ∧
      List.Forall₂ (fun e e' => ∃ low, e.Relaid t constant low e') es es' ∧
        Expr.FramedAll t constant s'.cursor es'
  | [], s, hs => by
    unfold exprs
    exact Ends.value ⟨rfl, le_rfl, .nil, trivial⟩
  | e :: rest, s, hs => by
    unfold exprs
    refine (ends_expr e s hs).seq fun e' s₁ h₁ => ?_
    obtain ⟨hl, hc, h⟩ := h₁
    refine (ends_exprs rest s₁ (hc.trans hs)).seq fun es s₂ h₂ => ?_
    obtain ⟨hl', hc', h', hf⟩ := h₂
    exact Ends.value ⟨hl'.trans hl, hc'.trans hc, .cons ⟨_, h⟩ h', h.framed.mono hc', hf⟩

end

theorem ends_expr? {e : Option Expr} {s : FrameState} (hs : s.cursor ≤ 0) :
    Ends (expr? t constant e) s fun r s' => s'.locals = s.locals ∧ s'.cursor ≤ s.cursor ∧
      Option.Rel (Expr.Relaid t constant s'.cursor) e r := by
  unfold expr?
  split
  next e =>
    refine (ends_expr e s hs).seq fun e' s₁ h₁ => ?_
    exact Ends.value ⟨h₁.1, h₁.2.1, .some h₁.2.2⟩
  next => exact Ends.value ⟨rfl, le_rfl, .none⟩

/-! ## Variables -/

end Layout

namespace Layout.FrameState

/-- A variable lies between what was placed last and the frame pointer. -/
def Placed (t : TypeTable) (s : FrameState) (i : Nat) : Prop :=
  ∀ v, s.locals[i]? = some v →
    ∃ n : Nat, v.type.bind t.size? = some n ∧ s.cursor ≤ v.offset ∧ v.offset + n ≤ 0

/-- Variables keep their types, and those with a place keep having one. -/
structure Moves (t : TypeTable) (s s' : FrameState) : Prop where
  cursor : s'.cursor ≤ s.cursor
  types : ∀ i : Nat, (s'.locals[i]?).map (·.type) = (s.locals[i]?).map (·.type)
  placed : ∀ i, s.Placed t i → s'.Placed t i

theorem Moves.passage (t : TypeTable) : Passage (Moves t) where
  refl _ := ⟨le_rfl, fun _ => rfl, fun _ h => h⟩
  trans h h' := ⟨h'.cursor.trans h.cursor, fun i => (h'.types i).trans (h.types i),
    fun i hi => h'.placed i (h.placed i hi)⟩

theorem Placed.lower {t : TypeTable} {s s' : FrameState} {i : Nat} (h : s.Placed t i)
    (hl : s'.locals = s.locals) (hc : s'.cursor ≤ s.cursor) : s'.Placed t i := by
  intro v hv
  obtain ⟨n, hn, hlow, hhigh⟩ := h v (hl ▸ hv)
  exact ⟨n, hn, hc.trans hlow, hhigh⟩

theorem moves_lower {t : TypeTable} {s s' : FrameState} (hl : s'.locals = s.locals)
    (hc : s'.cursor ≤ s.cursor) : s.Moves t s' :=
  ⟨hc, fun _ => by rw [hl], fun _ h => h.lower hl hc⟩

end Layout.FrameState

namespace Layout

variable {t : TypeTable} {constant : Nat → Option Literal} {s : FrameState}

theorem ends_placeLocal (index : Nat) (hs : s.cursor ≤ 0) :
    Ends (placeLocal t index) s fun _ s' => s.Moves t s' ∧ s'.Placed t index := by
  unfold placeLocal
  refine Ends.reads ?_
  split
  next h => exact Ends.value ⟨(FrameState.Moves.passage t).refl s, by simp [FrameState.Placed, h]⟩
  next v hv =>
    refine (Ends.lifts (Q := fun n s₁ => s₁ = s ∧ v.type.bind t.size? = some n)
      fun n hn => ⟨rfl, TypeTable.sizeAt_eq_ok.1 hn⟩).seq fun n s₁ h₁ => ?_
    obtain ⟨rfl, hn⟩ := h₁
    refine (ends_room n hs).seq fun o s₂ h₂ => ?_
    obtain ⟨hl, hc, rfl, hhigh⟩ := h₂
    have hplaced : FrameState.Placed t { s₂ with
        locals := s₂.locals.modify index fun v => { v with offset := s₂.cursor } } index := by
      intro w hw
      rw [Array.getElem?_modify, if_pos rfl, hl, hv] at hw
      obtain rfl := Option.some.inj hw
      exact ⟨n, hn, le_rfl, hhigh⟩
    refine Ends.modifies ⟨⟨hc, fun i => ?_, fun i hi => ?_⟩, hplaced⟩
    · dsimp only
      rw [Array.getElem?_modify, hl]
      split
      · cases s₁.locals[i]? <;> rfl
      · rfl
    · by_cases hindex : index = i
      · exact hindex ▸ hplaced
      · intro w hw
        rw [Array.getElem?_modify, if_neg hindex] at hw
        exact hi.lower hl hc w hw

theorem ends_implicit (indices : List Nat) : (s : FrameState) → s.cursor ≤ 0 →
    Ends (indices.forM (placeLocal t)) s fun _ s' => s.Moves t s' ∧
      ∀ i ∈ indices, s'.Placed t i := by
  induction indices with
  | nil => exact fun s _ => Ends.value ⟨(FrameState.Moves.passage t).refl s, by simp⟩
  | cons index rest ih =>
    intro s hs
    refine (ends_placeLocal index hs).seq fun _ s₁ h₁ => ?_
    refine (ih s₁ (h₁.1.cursor.trans hs)).mono fun _ s₂ h₂ => ?_
    refine ⟨(FrameState.Moves.passage t).trans h₁.1 h₂.1, fun i hi => ?_⟩
    obtain rfl | hi := List.mem_cons.1 hi
    · exact h₂.1.placed i h₁.2
    · exact h₂.2 i hi

theorem ends_temps (counter : Expr) (hs : s.cursor ≤ 0) :
    Ends (temps t counter) s fun r s' => s'.locals = s.locals ∧ s'.cursor ≤ s.cursor ∧
      ∃ n : Nat, counter.type?.bind t.size? = some n ∧ s'.cursor ≤ r.finish ∧ r.finish + n ≤ 0 ∧
        s'.cursor ≤ r.step ∧ r.step + n ≤ 0 ∧ s'.cursor ≤ r.sign ∧ r.sign + 1 ≤ 0 := by
  unfold temps
  refine (Ends.lifts (Q := fun n s₁ => s₁ = s ∧ counter.type?.bind t.size? = some n)
    fun n hn => ⟨rfl, TypeTable.sizeAt_eq_ok.1 hn⟩).seq fun n s₁ h₁ => ?_
  obtain ⟨rfl, hn⟩ := h₁
  refine (ends_room n hs).seq fun finish s₂ h₂ => ?_
  obtain ⟨hl₂, hc₂, rfl, hf⟩ := h₂
  refine (ends_room n (hc₂.trans hs)).seq fun step s₃ h₃ => ?_
  obtain ⟨hl₃, hc₃, rfl, hst⟩ := h₃
  refine (ends_room 1 (hc₃.trans (hc₂.trans hs))).seq fun sign s₄ h₄ => ?_
  obtain ⟨hl₄, hc₄, rfl, hsg⟩ := h₄
  exact Ends.value ⟨hl₄.trans (hl₃.trans hl₂), hc₄.trans (hc₃.trans hc₂), n, hn,
    hc₄.trans hc₃, hf, hc₄, hst, le_rfl, hsg⟩

mutual

theorem ends_stmt : (r : Stmt) → (s : FrameState) → s.cursor ≤ 0 →
    Ends (stmt t constant r) s fun r' s' => s.Moves t s' ∧ (∀ i ∈ r.variables, s'.Placed t i) ∧
      r'.Framed t constant s'.cursor ∧ ∀ Γ returns, r.Typed Γ returns → r'.Typed Γ returns
  | .var l index value, s, hs => by
    unfold stmt
    refine (ends_placeLocal index hs).seq fun _ s₁ h₁ => ?_
    obtain ⟨hm, hp⟩ := h₁
    refine (ends_expr? (hm.cursor.trans hs)).seq fun e s₂ h₂ => ?_
    obtain ⟨hl, hc, hrel⟩ := h₂
    refine Ends.value ⟨(FrameState.Moves.passage t).trans hm (FrameState.moves_lower hl hc), ?_, ?_,
      fun Γ returns ht => ?_⟩
    · intro i hi
      obtain rfl : i = index := by simpa [Stmt.variables] using hi
      exact hp.lower hl hc
    · rintro e' rfl
      cases hrel with
      | some h => exact h.framed
    · cases hrel with
      | some h =>
        obtain ⟨he, u, σ, hu, hσ, hσ'⟩ := ht
        exact ⟨h.typed Γ he, u, σ, hu, hσ, by rwa [h.info]⟩
      | none => trivial
  | .assign l value target, s, hs => by
    unfold stmt
    refine (ends_expr value s hs).seq fun e s₁ h₁ => ?_
    obtain ⟨hl, hc, h⟩ := h₁
    refine (ends_expr target s₁ (hc.trans hs)).seq fun e' s₂ h₂ => ?_
    obtain ⟨hl', hc', h'⟩ := h₂
    refine Ends.value ⟨FrameState.moves_lower (hl'.trans hl) (hc'.trans hc),
      by simp [Stmt.variables], ⟨h.framed.mono hc', h'.framed⟩, fun Γ returns ht => ?_⟩
    obtain ⟨hv, htg, ha, σ, hσ, hσ'⟩ := ht
    exact ⟨h.typed Γ hv, h'.typed Γ htg, h'.addressable.trans ha, σ, by rwa [h.info],
      by rwa [h'.info]⟩
  | .invoke l call, s, hs => by
    unfold stmt
    refine (ends_expr call s hs).seq fun e s₁ h₁ => ?_
    obtain ⟨hl, hc, h⟩ := h₁
    exact Ends.value ⟨FrameState.moves_lower hl hc, by simp [Stmt.variables], h.framed,
      fun Γ _ ht => h.typed Γ ht⟩
  | .return l value, s, hs => by
    unfold stmt
    refine (ends_expr? hs).seq fun e s₁ h₁ => ?_
    obtain ⟨hl, hc, hrel⟩ := h₁
    refine Ends.value ⟨FrameState.moves_lower hl hc, by simp [Stmt.variables], ?_,
      fun Γ returns ht => ?_⟩
    · rintro e' rfl
      cases hrel with
      | some h => exact h.framed
    · cases hrel with
      | some h =>
        obtain ⟨he, u, σ, hu, hσ, hσ'⟩ := ht
        exact ⟨h.typed Γ he, u, σ, hu, hσ, by rwa [h.info]⟩
      | none => trivial
  | .choose l branches, s, hs => by
    unfold stmt
    exact (ends_choices branches s hs).seq fun b s₁ h₁ => Ends.value h₁
  | .count l counter start finish step body places, s, hs => by
    unfold stmt
    refine (ends_temps counter hs).seq fun places' s₁ h₁ => ?_
    obtain ⟨hl₁, hc₁, n, hn, hf, hf', hst, hst', hsg, hsg'⟩ := h₁
    refine (ends_expr counter s₁ (hc₁.trans hs)).seq fun e₂ s₂ h₂ => ?_
    obtain ⟨hl₂, hc₂, h₂⟩ := h₂
    have hs₂ := hc₂.trans (hc₁.trans hs)
    refine (ends_expr start s₂ hs₂).seq fun e₃ s₃ h₃ => ?_
    obtain ⟨hl₃, hc₃, h₃⟩ := h₃
    refine (ends_expr finish s₃ (hc₃.trans hs₂)).seq fun e₄ s₄ h₄ => ?_
    obtain ⟨hl₄, hc₄, h₄⟩ := h₄
    refine (ends_expr? (hc₄.trans (hc₃.trans hs₂))).seq fun e₅ s₅ h₅ => ?_
    obtain ⟨hl₅, hc₅, h₅⟩ := h₅
    refine (ends_stmts body s₅ (hc₅.trans (hc₄.trans (hc₃.trans hs₂)))).seq fun b s₆ h₆ => ?_
    obtain ⟨hm₆, hp₆, hf₆, ht₆⟩ := h₆
    have hc₄₆ := hm₆.cursor.trans hc₅
    have hc₃₆ := hc₄₆.trans hc₄
    have hc₂₆ := hc₃₆.trans hc₃
    have hc₁₆ := hc₂₆.trans hc₂
    refine Ends.value ⟨(FrameState.Moves.passage t).trans (FrameState.moves_lower
      (hl₅.trans (hl₄.trans (hl₃.trans (hl₂.trans hl₁))))
      (hc₅.trans (hc₄.trans (hc₃.trans (hc₂.trans hc₁))))) hm₆, hp₆,
      ⟨⟨⟨n, by rwa [Expr.type?, h₂.info], hc₁₆.trans hf, hf', hc₁₆.trans hst, hst',
        hc₁₆.trans hsg, hsg'⟩, h₂.framed.mono hc₂₆, h₃.framed.mono hc₃₆, h₄.framed.mono hc₄₆, ?_⟩,
        hf₆⟩, fun Γ returns ht => ?_⟩
    · rintro e rfl
      cases h₅ with
      | some h => exact h.framed.mono hm₆.cursor
    · obtain ⟨⟨hc, ha, hs, hf, σ, hσ, hσc, hσs, hσf, hstep⟩, hb⟩ := ht
      refine ⟨⟨h₂.typed Γ hc, h₂.addressable.trans ha, h₃.typed Γ hs, h₄.typed Γ hf, σ, hσ,
        by rwa [h₂.info], by rwa [h₃.info], by rwa [h₄.info], ?_⟩, ht₆ Γ returns hb⟩
      rintro e rfl
      cases h₅ with
      | some h => exact ⟨h.typed Γ (hstep _ rfl).1, by rw [h.info]; exact (hstep _ rfl).2⟩
  | .loop l condition body, s, hs => by
    have rest (c : Option Condition) (s₁ : FrameState) (hl : s₁.locals = s.locals)
        (hc : s₁.cursor ≤ s.cursor)
        (hcond : ∀ d, c = some d → ∃ d₀, condition = some d₀ ∧
          d₀.value.Relaid t constant s₁.cursor d.value) :
        Ends (do return Stmt.loop l c (← stmts t constant body)) s₁ fun r' s' => s.Moves t s' ∧
          (∀ i ∈ Stmt.variablesAll body, s'.Placed t i) ∧ r'.Framed t constant s'.cursor ∧
            ∀ Γ returns, (Stmt.loop l condition body).Typed Γ returns → r'.Typed Γ returns := by
      refine (ends_stmts body s₁ (hc.trans hs)).seq fun b s₂ h₂ => ?_
      obtain ⟨hm, hp, hf, ht⟩ := h₂
      refine Ends.value ⟨(FrameState.Moves.passage t).trans (FrameState.moves_lower hl hc) hm, hp,
        ⟨fun d hd => ?_, hf⟩, fun Γ returns ht' => ⟨fun d hd => ?_, ht Γ returns ht'.2⟩⟩
      · obtain ⟨d₀, -, h⟩ := hcond d hd
        exact h.framed.mono hm.cursor
      · obtain ⟨d₀, hd₀, h⟩ := hcond d hd
        obtain ⟨hv, hσ⟩ := ht'.1 d₀ hd₀
        exact ⟨h.typed Γ hv, by rwa [h.info]⟩
    unfold stmt
    dsimp only
    split
    next c =>
      refine (ends_expr c.value s hs).seq fun e s₁ h₁ => ?_
      obtain ⟨hl, hc, h⟩ := h₁
      refine Ends.value_seq (rest _ _ hl hc fun d hd => ?_)
      obtain rfl := Option.some.inj hd
      exact ⟨c, rfl, h⟩
    next => exact Ends.value_seq (rest _ _ rfl le_rfl (by simp))

theorem ends_stmts : (rs : List Stmt) → (s : FrameState) → s.cursor ≤ 0 →
    Ends (stmts t constant rs) s fun rs' s' => s.Moves t s' ∧
      (∀ i ∈ Stmt.variablesAll rs, s'.Placed t i) ∧ Stmt.FramedAll t constant s'.cursor rs' ∧
        ∀ Γ returns, Stmt.TypedAll Γ returns rs → Stmt.TypedAll Γ returns rs'
  | [], s, hs => by
    unfold stmts
    exact Ends.value ⟨(FrameState.Moves.passage t).refl s, by simp [Stmt.variablesAll], trivial,
      fun _ _ h => h⟩
  | r :: rest, s, hs => by
    unfold stmts
    refine (ends_stmt r s hs).seq fun r' s₁ h₁ => ?_
    obtain ⟨hm, hp, hf, ht⟩ := h₁
    refine (ends_stmts rest s₁ (hm.cursor.trans hs)).seq fun rs' s₂ h₂ => ?_
    obtain ⟨hm', hp', hf', ht'⟩ := h₂
    refine Ends.value ⟨(FrameState.Moves.passage t).trans hm hm', fun i hi => ?_,
      ⟨hf.mono hm'.cursor, hf'⟩, fun Γ returns h => ⟨ht Γ returns h.1, ht' Γ returns h.2⟩⟩
    obtain hi | hi := List.mem_append.1 hi
    · exact hm'.placed i (hp i hi)
    · exact hp' i hi

theorem ends_choices : (b : Branches) → (s : FrameState) → s.cursor ≤ 0 →
    Ends (choices t constant b) s fun b' s' => s.Moves t s' ∧
      (∀ i ∈ b.variables, s'.Placed t i) ∧ b'.Framed t constant s'.cursor ∧
        ∀ Γ returns, b.Typed Γ returns → b'.Typed Γ returns
  | .done, s, hs => by
    unfold choices
    exact Ends.value ⟨(FrameState.Moves.passage t).refl s, by simp [Branches.variables], trivial,
      fun _ _ h => h⟩
  | .otherwise body, s, hs => by
    unfold choices
    exact (ends_stmts body s hs).seq fun b s₁ h₁ => Ends.value h₁
  | .branch condition body rest, s, hs => by
    unfold choices
    refine (ends_expr condition s hs).seq fun c s₁ h₁ => ?_
    obtain ⟨hl, hc, h⟩ := h₁
    refine (ends_stmts body s₁ (hc.trans hs)).seq fun b s₂ h₂ => ?_
    obtain ⟨hm, hp, hf, ht⟩ := h₂
    refine (ends_choices rest s₂ (hm.cursor.trans (hc.trans hs))).seq fun b' s₃ h₃ => ?_
    obtain ⟨hm', hp', hf', ht'⟩ := h₃
    refine Ends.value ⟨(FrameState.Moves.passage t).trans (FrameState.moves_lower hl hc)
      ((FrameState.Moves.passage t).trans hm hm'), fun i hi => ?_,
      ⟨h.framed.mono (hm'.cursor.trans hm.cursor), hf.mono hm'.cursor, hf'⟩,
      fun Γ returns htyped => ?_⟩
    · obtain hi | hi := List.mem_append.1 hi
      · exact hm'.placed i (hp i hi)
      · exact hp' i hi
    · obtain ⟨⟨hv, hσ⟩, hb, hr⟩ := htyped
      exact ⟨⟨h.typed Γ hv, by rwa [h.info]⟩, ht Γ returns hb, ht' Γ returns hr⟩

end

mutual

theorem variables_stmt : (r : Stmt) → (s : FrameState) →
    Ends (stmt t constant r) s fun r' _ => r'.variables = r.variables
  | .var l index value, s => by
    unfold stmt
    exact Ends.after fun _ _ => Ends.after fun _ _ => Ends.value rfl
  | .assign l value target, s => by
    unfold stmt
    exact Ends.after fun _ _ => Ends.after fun _ _ => Ends.value rfl
  | .invoke l call, s => by
    unfold stmt
    exact Ends.after fun _ _ => Ends.value rfl
  | .return l value, s => by
    unfold stmt
    exact Ends.after fun _ _ => Ends.value rfl
  | .choose l branches, s => by
    unfold stmt
    exact (variables_choices branches s).seq fun _ _ h => Ends.value h
  | .count l counter start finish step body places, s => by
    unfold stmt
    refine Ends.after fun _ _ => Ends.after fun _ _ => Ends.after fun _ _ => Ends.after fun _ _ =>
      Ends.after fun _ s₁ => ?_
    exact (variables_stmts body s₁).seq fun _ _ h => Ends.value h
  | .loop l condition body, s => by
    unfold stmt
    dsimp only
    split
    · refine Ends.after fun _ _ => Ends.after fun _ s₁ => ?_
      exact (variables_stmts body s₁).seq fun _ _ h => Ends.value h
    · refine Ends.after fun _ s₁ => ?_
      exact (variables_stmts body s₁).seq fun _ _ h => Ends.value h

/-- Placing variables changes nothing about which there are. -/
theorem variables_stmts : (rs : List Stmt) → (s : FrameState) →
    Ends (stmts t constant rs) s fun rs' _ => Stmt.variablesAll rs' = Stmt.variablesAll rs
  | [], s => by
    unfold stmts
    exact Ends.value rfl
  | r :: rest, s => by
    unfold stmts
    refine (variables_stmt r s).seq fun r' s₁ h => ?_
    exact (variables_stmts rest s₁).seq fun rs' _ h' => Ends.value (congrArg₂ _ h h')

theorem variables_choices : (b : Branches) → (s : FrameState) →
    Ends (choices t constant b) s fun b' _ => b'.variables = b.variables
  | .done, s => by
    unfold choices
    exact Ends.value rfl
  | .otherwise body, s => by
    unfold choices
    exact (variables_stmts body s).seq fun _ _ h => Ends.value h
  | .branch condition body rest, s => by
    unfold choices
    refine Ends.after fun _ s₁ => (variables_stmts body s₁).seq fun b s₂ h => ?_
    exact (variables_choices rest s₂).seq fun b' _ h' => Ends.value (congrArg₂ _ h h')

end

end Layout

/-! ## Functions, modules and programs -/

/-- Arguments, variables and temporaries lie where the frame has room for them. -/
structure UserBody.LaidOut (body : UserBody) (t : TypeTable) (constant : Nat → Option Literal) :
    Prop where
  result : body.frame.result = Layout.linkSize + body.frame.arguments
  size : body.frame.arguments = t.bytes (body.arguments.map (·.type))
  arguments : Slot.AllWithin t Layout.linkSize body.frame.result body.arguments
  locals : ∀ (i : Nat) (v : Local), body.locals[i]? = some v →
    ∃ n : Nat, v.type.bind t.size? = some n ∧ -(body.frame.locals : Int) ≤ v.offset ∧
      v.offset + n ≤ 0
  statements : Stmt.FramedAll t constant (-(body.frame.locals : Int)) body.statements

/-- A body that has got its places is the same body otherwise. -/
structure UserBody.Relaid (body body' : UserBody) : Prop where
  arguments : body'.arguments.map (·.type) = body.arguments.map (·.type)
  locals : ∀ i : Nat, (body'.locals[i]?).map (·.type) = (body.locals[i]?).map (·.type)
  implicit : body'.implicit = body.implicit
  declared : Stmt.variablesAll body'.statements = Stmt.variablesAll body.statements
  typed : ∀ Γ returns, Stmt.TypedAll Γ returns body.statements →
    Stmt.TypedAll Γ returns body'.statements

theorem UserBody.Relaid.exists_local {body body' : UserBody} (h : body.Relaid body') {i : Nat}
    {t : TypeId} (ht : (body.locals[i]?).bind (·.type) = some t) :
    ∃ v, body'.locals[i]? = some v ∧ v.type = some t := by
  obtain ⟨v, hv, hvt⟩ := Option.bind_eq_some_iff.1 ht
  have hmap := h.locals i
  rw [hv, Option.map_some] at hmap
  obtain ⟨v', hv', hvt'⟩ := Option.map_eq_some_iff.1 hmap
  exact ⟨v', hv', hvt'.trans hvt⟩

/-- A function that is the same to those who call it, its body being related to what it was. -/
structure Function.Like (R : UserBody → UserBody → Prop) (f f' : Function) : Prop where
  owner : f'.owner = f.owner
  returns : f'.returns = f.returns
  parameters : f'.parameters = f.parameters
  isUser : f'.isUser = f.isUser
  user : ∀ body', f'.user? = some body' → ∃ body, f.user? = some body ∧ R body body'

theorem Function.Like.exists_user {R : UserBody → UserBody → Prop} {f f' : Function}
    (h : f.Like R f') {body : UserBody} (hb : f.user? = some body) :
    ∃ body', f'.user? = some body' ∧ R body body' := by
  have hu : f'.isUser = true := by
    rw [h.isUser, Function.isUser, hb]
    rfl
  obtain ⟨body', hb'⟩ := Option.isSome_iff_exists.1 hu
  obtain ⟨body₀, hb₀, hr⟩ := h.user body' hb'
  obtain rfl : body₀ = body := Option.some.inj (hb₀.symm.trans hb)
  exact ⟨body', hb', hr⟩

namespace Layout

variable {t : TypeTable} {constant : Nat → Option Literal}

/-- **A function gets a frame with room for everything in it.** -/
theorem function_eq_ok {f f' : Function} (h : function t constant f = .ok f')
    (hcovered : ∀ body, f.user? = some body → ∀ i < body.locals.size,
      i ∈ body.implicit ∨ i ∈ Stmt.variablesAll body.statements) :
    f.Like UserBody.Relaid f' ∧ ∀ body', f'.user? = some body' → body'.LaidOut t constant := by
  unfold function at h
  split at h
  next arguments hbody =>
    obtain rfl : f = f' := by simpa using h
    have hnone : f.user? = none := by rw [Function.user?, hbody]
    exact ⟨⟨rfl, rfl, rfl, rfl, by simp [hnone]⟩, by simp [hnone]⟩
  next body hbody =>
    have huser : f.user? = some body := by rw [Function.user?, hbody]
    obtain ⟨⟨arguments, result⟩, hslots, h⟩ := Checked.bind_eq_ok.1 h
    obtain ⟨⟨statements, s'⟩, hrun, h⟩ := Checked.bind_eq_ok.1 h
    obtain rfl := Checked.pure_eq_ok.1 h
    obtain ⟨htypes, hwithin, hresult⟩ := slots_eq_ok hslots
    obtain ⟨_, s₁, hfirst, hstmts⟩ := run_bind_eq_ok.1 hrun
    -- variables without a statement are placed first, the others where they are declared
    obtain ⟨hm₁, hp₁⟩ := ends_implicit (t := t) body.implicit ⟨0, body.locals⟩ le_rfl _ _ hfirst
    obtain ⟨hm, hp, hf, ht⟩ := ends_stmts body.statements s₁ hm₁.cursor _ _ hstmts
    have hmoves := (FrameState.Moves.passage t).trans hm₁ hm
    have hlow : -((-s'.cursor).toNat : Int) = s'.cursor := by
      have := hmoves.cursor
      simp only at this
      omega
    refine ⟨⟨rfl, rfl, ?_, ?_, ?_⟩, ?_⟩
    · rw [Function.parameters, Function.parameters, hbody]
      exact htypes
    · rw [Function.isUser, Function.isUser, huser]
      rfl
    · rintro body' hbody'
      obtain rfl := Option.some.inj hbody'
      exact ⟨body, huser, htypes, hmoves.types, rfl, variables_stmts _ _ _ _ hstmts, ht⟩
    · rintro body' hbody'
      obtain rfl := Option.some.inj hbody'
      refine ⟨by dsimp only; omega, ?_, hwithin, fun i v hv => ?_, ?_⟩
      · dsimp only
        rw [htypes]
        omega
      · dsimp only at hv ⊢
        rw [hlow]
        have hi : i < body.locals.size := by
          have := hmoves.types i
          rw [hv] at this
          obtain ⟨w, hw, -⟩ := Option.map_eq_some_iff.1 this.symm
          exact (Array.getElem?_eq_some_iff.1 hw).1
        obtain hi | hi := hcovered body huser i hi
        · exact hm.placed i (hp₁ i hi) v hv
        · exact hp i hi v hv
      · dsimp only
        rw [hlow]
        exact hf

/-- The fields of all data sets follow each other. -/
theorem dataSets_eq_ok {ds placed : List DataSet} {offset stop : Nat}
    (h : dataSets t offset ds = .ok (placed, stop)) : offset ≤ stop ∧
      (placed.flatMap (·.fields)).map (·.type) = (ds.flatMap (·.fields)).map (·.type) ∧
        Slot.AllWithin t offset stop (placed.flatMap (·.fields)) := by
  induction ds generalizing offset placed with
  | nil =>
    obtain ⟨rfl, rfl⟩ : [] = placed ∧ offset = stop := by simpa [dataSets] using h
    exact ⟨le_rfl, rfl, by simp [Slot.AllWithin]⟩
  | cons d rest ih =>
    obtain ⟨⟨fields, middle⟩, hslots, h⟩ := Checked.bind_eq_ok.1 h
    obtain ⟨⟨later, stop'⟩, hrest, h⟩ := Checked.bind_eq_ok.1 h
    obtain ⟨rfl, rfl⟩ := Prod.mk.inj (Checked.pure_eq_ok.1 h)
    obtain ⟨htypes, hwithin, hmiddle⟩ := slots_eq_ok hslots
    obtain ⟨hle, htypes', hwithin'⟩ := ih hrest
    refine ⟨by omega, ?_, fun f hf => ?_⟩
    · simp only [List.flatMap_cons, List.map_append, htypes, htypes']
    · obtain hf | hf := List.mem_append.1 (List.flatMap_cons ▸ hf)
      · obtain ⟨n, hn, hlow, hhigh⟩ := hwithin f hf
        exact ⟨n, hn, hlow, by omega⟩
      · obtain ⟨n, hn, hlow, hhigh⟩ := hwithin' f hf
        exact ⟨n, hn, by omega, hhigh⟩

end Layout

/-- A module that has got its places is the same module otherwise. -/
structure Module.Relaid (m m' : Module) : Prop where
  functions : m'.functions = m.functions
  fields : m'.fields.map (·.type) = m.fields.map (·.type)
  static : m'.static = m.static

/-- Everything lies where there is room for it. -/
structure Program.LaidOut (p : Program) : Prop where
  structs : ∀ k z, p.types.structSizes.lookup k = some z → ∀ d, p.structs[k]? = some d →
    Slot.AllWithin p.types 0 z d.fields
  functions : ∀ (n : Nat) (f : Function), p.functions[n]? = some f → ∀ body,
    f.user? = some body → body.LaidOut p.types p.constantValue
  modules : ∀ m ∈ p.modules, Slot.AllWithin p.types 0 m.dataSize m.fields
  sized : ∀ k < p.structs.size, (p.types.structSizes.lookup k).isSome = true

/-- A program that has got its places is the same program otherwise. -/
structure Program.Relaid (p p' : Program) : Prop where
  types : p.types.Measures p'.types
  constants : p'.constants = p.constants
  structs : ∀ k : Nat, (p'.structs[k]?).map (fun d => d.fields.map (·.type)) =
    (p.structs[k]?).map fun d => d.fields.map (·.type)
  count : p'.structs.size = p.structs.size
  functions : List.Forall₂ (Function.Like UserBody.Relaid) p.functions.toList p'.functions.toList
  modules : List.Forall₂ Module.Relaid p.modules p'.modules
  channels : p'.channels = p.channels

namespace Program

variable {p p' : Program}

/-- A program is laid out part by part, when the sizes of all types are known. -/
structure LaysOut (p p' : Program) : Prop where
  modules : List.Forall₂ (fun m m' => Layout.module p'.types m = .ok m') p.modules p'.modules
  functions : List.Forall₂ (fun f f' => Layout.function p'.types p.constantValue f = .ok f')
    p.functions.toList p'.functions.toList
  constants : p'.constants = p.constants
  libraries : p'.libraries = p.libraries

theorem laysOut_of_layout (h : p.layout = .ok p') : p.LaysOut p' := by
  obtain ⟨p₁, hstructs, h⟩ := Checked.bind_eq_ok.1 h
  obtain ⟨modules, hmodules, h⟩ := Checked.bind_eq_ok.1 h
  obtain ⟨functions, hfunctions, h⟩ := Checked.bind_eq_ok.1 h
  obtain rfl := Checked.pure_eq_ok.1 h
  obtain ⟨s, -, hstructs⟩ := Checked.bind_eq_ok.1 hstructs
  obtain rfl := Checked.pure_eq_ok.1 hstructs
  exact ⟨Checked.mapM_eq_ok.1 hmodules, Checked.mapM_eq_ok.1 hfunctions, rfl, rfl⟩

/-- What has been laid out was a function before. -/
theorem LaysOut.exists_function (h : p.LaysOut p') {n : Nat} {g : Function}
    (hg : p'.functions[n]? = some g) : ∃ f, p.functions[n]? = some f ∧
      Layout.function p'.types p.constantValue f = .ok g := by
  obtain ⟨f, hf, hlaid⟩ := forall₂_right h.functions (k := n) (by simpa using hg)
  exact ⟨f, by simpa using hf, hlaid⟩

theorem layoutStructs_eq_ok (h : p.layoutStructs = .ok p') (hsizes : p.types.structSizes = []) :
    ∃ s : Layout.Sizing, p' = { p with types := s.types, structs := s.structs } ∧ s.Sound ∧
      Layout.Sizing.Grows [] ⟨p.types, p.structs⟩ s ∧
        ∀ k < p.structs.size, (s.size? k).isSome = true := by
  obtain ⟨⟨_, s⟩, hrun, h⟩ := Checked.bind_eq_ok.1 h
  obtain rfl := Checked.pure_eq_ok.1 h
  have hsound : Layout.Sizing.Sound ⟨p.types, p.structs⟩ := by
    intro k z hz
    simp [Layout.Sizing.size?, hsizes] at hz
  have hpassage := Layout.Sizing.Grows.passage []
  obtain ⟨⟨hs, hg⟩, -, hsized⟩ := Ends.eachHas (K := Layout.Sizing.Grows [])
    (I := fun s' => s'.Sound ∧ Layout.Sizing.Grows [] ⟨p.types, p.structs⟩ s')
    (Q := fun k s' => k < p.structs.size → (s'.size? k).isSome = true) hpassage.refl hpassage.trans
    (fun hk hg hlt => hg.isSome (hk hlt))
    (fun k _ s₁ h₁ => (Layout.ends_structSize _ [] k s₁ h₁.1).mono fun _ s₂ h₂ =>
      ⟨⟨h₂.1, hpassage.trans h₁.2 h₂.2.1⟩, h₂.2.1, fun hlt => h₂.2.2 (h₁.2.size_eq ▸ hlt)⟩)
    ⟨hsound, hpassage.refl _⟩ _ _ hrun
  exact ⟨s, rfl, hs, hg, fun k hk => hsized k (List.mem_range.2 hk) hk⟩

/-- **Everything in a laid out program lies where there is room for it.** -/
theorem layout_eq_ok (h : p.layout = .ok p') (hsizes : p.types.structSizes = [])
    (hcovered : ∀ (n : Nat) (f : Function), p.functions[n]? = some f → ∀ body,
      f.user? = some body → ∀ i < body.locals.size,
        i ∈ body.implicit ∨ i ∈ Stmt.variablesAll body.statements) :
    p.Relaid p' ∧ p'.LaidOut := by
  obtain ⟨p₁, hstructs, h⟩ := Checked.bind_eq_ok.1 h
  obtain ⟨modules, hmodules, h⟩ := Checked.bind_eq_ok.1 h
  obtain ⟨functions, hfunctions, h⟩ := Checked.bind_eq_ok.1 h
  obtain rfl := Checked.pure_eq_ok.1 h
  obtain ⟨s, rfl, hsound, hgrows, hsized⟩ := layoutStructs_eq_ok hstructs hsizes
  rw [Checked.mapM_eq_ok] at hmodules hfunctions
  have hmodule {m m' : Module} (h : Layout.module s.types m = .ok m') : m.Relaid m' ∧
      Slot.AllWithin s.types 0 m'.dataSize m'.fields := by
    obtain ⟨⟨ds, size⟩, hds, h⟩ := Checked.bind_eq_ok.1 h
    obtain rfl := Checked.pure_eq_ok.1 h
    obtain ⟨-, htypes, hwithin⟩ := Layout.dataSets_eq_ok hds
    exact ⟨⟨rfl, htypes, rfl⟩, hwithin⟩
  have hfunction {n : Nat} {f f' : Function} (hf : p.functions[n]? = some f)
      (h : Layout.function s.types p.constantValue f = .ok f') :=
    Layout.function_eq_ok h (hcovered n f hf)
  have hsize : s.structs.size = p.structs.size := hgrows.size_eq
  have hlookup {n : Nat} {f : Function} (hf : p.functions.toList[n]? = some f) :
      p.functions[n]? = some f := by simpa using hf
  refine ⟨⟨hgrows.types, rfl, hgrows.fields, hsize, ?_, hmodules.imp fun _ _ h => (hmodule h).1, rfl⟩,
    ⟨hsound, fun n f' hf' => ?_, fun m' hm' => ?_, fun k hk => hsized k (hsize ▸ hk)⟩⟩
  · refine List.forall₂_iff_get.2 ⟨by simpa using hfunctions.length_eq, fun n hn hn' => ?_⟩
    have hn'' : n < functions.length := by simpa using hn'
    exact (hfunction (hlookup (List.getElem?_eq_getElem hn)) (hfunctions.get hn hn'')).1
  · obtain ⟨f, hf, h⟩ := forall₂_right hfunctions (k := n) (by simpa using hf')
    exact (hfunction (hlookup hf) h).2
  · obtain ⟨k, hk⟩ := List.mem_iff_getElem?.1 hm'
    obtain ⟨m, -, h⟩ := forall₂_right hmodules hk
    exact (hmodule h).2

/-- **The strings inside a value lie inside it.** -/
theorem LaidOut.stringsWithin (hp : p.LaidOut) (bound : Nat) : ∀ {type : TypeId} {size : Nat},
    p.types.size? type = some size → ∀ x ∈ p.stringsWithin bound type,
      x.1 + stringSize x.2 ≤ size := by
  have record {type : TypeId} {size capacity : Nat} (hsize : p.types.size? type = some size)
      (hc : p.types.capacity? type = some capacity) : 0 + stringSize capacity ≤ size := by
    rw [TypeTable.size?_eq, TypeTable.capacity?_iff.1 hc] at hsize
    obtain rfl : stringSize capacity = size := by simpa [Shape.size?] using hsize
    omega
  induction bound with
  | zero =>
    intro type size hsize x hx
    unfold Program.stringsWithin at hx
    split at hx
    next capacity hc =>
      obtain rfl : x = (0, capacity) := by simpa using hx
      exact record hsize hc
    next => simp at hx
  | succ bound ih =>
    intro type size hsize x hx
    unfold Program.stringsWithin at hx
    split at hx
    next capacity hc =>
      obtain rfl : x = (0, capacity) := by simpa using hx
      exact record hsize hc
    next =>
      dsimp only at hx
      split at hx
      next d hd =>
        obtain ⟨k, hk, hd⟩ := Option.bind_eq_some_iff.1 hd
        obtain ⟨f, hf, hx⟩ := List.mem_flatMap.1 hx
        obtain ⟨y, hy, rfl⟩ := List.mem_map.1 hx
        rw [TypeTable.size?_eq, TypeTable.shape?_of_struct? hk] at hsize
        obtain ⟨n, hn, -, hhigh⟩ := hp.structs k size hsize d hd f hf
        have := ih hn y hy
        dsimp only
        omega
      next => simp at hx

end Program

end ChannelBasic
