import Mathlib.Data.List.Perm.Basic
import ChannelBasic.Proofs.Typing.Sizes

/-!
# Proofs/Program/Tiling — storage is used up, and nothing lies over anything else

Data fields and arguments are laid out one after the other, so they **tile** the data of their
module and the space between the link and the result of their frame.  Below the frame pointer three
kinds of things mix in one walk: variables, where they are declared; the end, the step and the sign
of a counting loop; and the copies that addresses point to.  Each of them is put right below what
was put last, so whatever their order they lie apart and fill the frame (`places_stmts`), provided
that no variable is placed twice.  None is, since a function has as many variables as there are
statements declaring one (`UserBody.Written.perm_range`).
-/

namespace ChannelBasic

/-! ## Extents -/

/-- Some bytes of a frame, in their place. -/
structure Extent where
  offset : Int
  size : Nat
  deriving DecidableEq, Repr

namespace Extent

/-- Whether a byte is one of the extent. -/
def Covers (r : Extent) (x : Int) : Prop := r.offset ≤ x ∧ x < r.offset + r.size

/-- Extents without a byte in common. -/
def Apart (a b : Extent) : Prop := ∀ x, a.Covers x → ¬ b.Covers x

theorem Apart.symm {a b : Extent} (h : a.Apart b) : b.Apart a := fun x hb ha => h x ha hb

/-- Extents that are all known, lie apart, and together are the bytes from one offset to another. -/
def Fill (low high : Int) (parts : List (Option Extent)) : Prop :=
  ∃ extents : List Extent, parts = extents.map some ∧ extents.Pairwise Apart ∧
    ∀ x, (low ≤ x ∧ x < high) ↔ ∃ r ∈ extents, r.Covers x

/-- Of two different parts none has a byte of the other. -/
theorem Fill.apart {low high : Int} {parts : List (Option Extent)} (h : Fill low high parts)
    {i j : Nat} (hij : i ≠ j) {a b : Extent} (ha : parts[i]? = some (some a))
    (hb : parts[j]? = some (some b)) : a.Apart b := by
  obtain ⟨extents, rfl, hpairs, -⟩ := h
  rw [List.getElem?_map, Option.map_eq_some_iff] at ha hb
  obtain ⟨a', ha, ha'⟩ := ha
  obtain ⟨b', hb, hb'⟩ := hb
  obtain rfl := Option.some.inj ha'
  obtain rfl := Option.some.inj hb'
  obtain ⟨hi, rfl⟩ := List.getElem?_eq_some_iff.1 ha
  obtain ⟨hj, rfl⟩ := List.getElem?_eq_some_iff.1 hb
  obtain hlt | hgt := Nat.lt_or_gt_of_ne hij
  · exact List.pairwise_iff_getElem.1 hpairs i j hi hj hlt
  · exact (List.pairwise_iff_getElem.1 hpairs j i hj hi hgt).symm

/-- Extents one right below the other, from one offset down to another. -/
def Stack (high low : Int) : List Extent → Prop
  | [] => high = low
  | r :: rest => r.offset + r.size = high ∧ Stack r.offset low rest

variable {low middle high : Int} {extents : List Extent}

theorem Stack.le (h : Stack high low extents) : low ≤ high := by
  induction extents generalizing high with
  | nil => exact Int.le_of_eq h.symm
  | cons r rest ih =>
    have := ih h.2
    have := h.1
    omega

theorem Stack.append {later : List Extent} (h : Stack high middle extents)
    (h' : Stack middle low later) : Stack high low (extents ++ later) := by
  induction extents generalizing high with
  | nil => exact (show high = middle from h) ▸ h'
  | cons r rest ih => exact ⟨h.1, ih h.2⟩

/-- The bytes of extents one below the other are those between the ends. -/
theorem Stack.covers_iff (h : Stack high low extents) (x : Int) :
    (low ≤ x ∧ x < high) ↔ ∃ r ∈ extents, r.Covers x := by
  induction extents generalizing high with
  | nil =>
    have : high = low := h
    simp only [List.not_mem_nil, false_and, exists_false, iff_false]
    omega
  | cons r rest ih =>
    have hle := h.2.le
    have htop := h.1
    rw [List.exists_mem_cons_iff, ← ih h.2, Covers]
    omega

theorem Stack.pairwise (h : Stack high low extents) : extents.Pairwise Apart := by
  induction extents generalizing high with
  | nil => exact .nil
  | cons r rest ih =>
    refine .cons (fun b hb x hr hx => ?_) (ih h.2)
    have := ((h.2.covers_iff x).2 ⟨b, hb, hx⟩).2
    have := hr.1
    omega

/-- Parts that, in some order, are extents one right below the other. -/
def Stacked (high low : Int) (parts : List (Option Extent)) : Prop :=
  ∃ extents : List Extent, parts.Perm (extents.map some) ∧ Stack high low extents

variable {parts later : List (Option Extent)}

theorem Stacked.nil (high : Int) : Stacked high high [] := ⟨[], .refl _, rfl⟩

theorem Stacked.one (high : Int) (size : Nat) :
    Stacked high (high - size) [some ⟨high - size, size⟩] :=
  ⟨[⟨high - size, size⟩], .refl _, by dsimp only; omega, rfl⟩

theorem Stacked.append (h : Stacked high middle parts) (h' : Stacked middle low later) :
    Stacked high low (parts ++ later) := by
  obtain ⟨extents, hperm, hstack⟩ := h
  obtain ⟨extents', hperm', hstack'⟩ := h'
  exact ⟨extents ++ extents', by simpa using hperm.append hperm', hstack.append hstack'⟩

theorem Stacked.perm (h : Stacked high low parts) (hp : later.Perm parts) :
    Stacked high low later := by
  obtain ⟨extents, hperm, hstack⟩ := h
  exact ⟨extents, hp.trans hperm, hstack⟩

theorem Stacked.le (h : Stacked high low parts) : low ≤ high := by
  obtain ⟨extents, -, hstack⟩ := h
  exact hstack.le

/-- **What is put right below what was put last lies apart from it**, in whatever order it is
listed. -/
theorem Stacked.fill (h : Stacked high low parts) : Fill low high parts := by
  obtain ⟨extents, hperm, hstack⟩ := h
  have hlisted : Relation.Comp (· = List.map some ·) List.Perm parts extents := by
    rw [List.eq_map_comp_perm]
    exact hperm
  obtain ⟨listed, rfl, hp⟩ := hlisted
  refine ⟨listed, rfl, (hp.pairwise_iff Apart.symm).2 hstack.pairwise, fun x => ?_⟩
  rw [hstack.covers_iff]
  simp only [hp.mem_iff]

end Extent

/-- The extent of a value of a type at an offset, if the type and its size are known. -/
def TypeTable.extent? (t : TypeTable) (offset : Int) (type : Option TypeId) : Option Extent :=
  (type.bind t.size?).map fun size => ⟨offset, size⟩

/-! ## What a program lays out -/

/-- Slots one after the other fill the bytes from one offset to another. -/
def Slot.Tile (t : TypeTable) (low high : Nat) : List Slot → Prop
  | [] => low = high
  | f :: rest => f.offset = low ∧ ∃ n, t.size? f.type = some n ∧ Tile t (low + n) high rest

/-- The extents of the end, the step and the sign of the step of a counting loop. -/
def Stmt.temporaries (t : TypeTable) : Stmt → List (Option Extent)
  | .count _ counter _ _ _ _ temps =>
    [t.extent? temps.finish counter.type?, t.extent? temps.step counter.type?,
      some ⟨temps.sign, 1⟩]
  | _ => []

/-- The extent of the copy that an address points to, if it takes one. -/
def Expr.temporaries (t : TypeTable) (constant : Nat → Option Literal) :
    Expr → List (Option Extent)
  | .pointer _ target temp =>
    if target.needsTemp t constant then [temp.bind fun offset => t.extent? offset target.type?]
    else []
  | _ => []

/-- The extents of all variables of a function, of what its counting loops keep and of the copies
that its addresses point to. -/
def UserBody.extents (body : UserBody) (t : TypeTable) (constant : Nat → Option Literal) :
    List (Option Extent) :=
  body.locals.toList.map (fun v => t.extent? v.offset v.type) ++
    (Stmt.withinAll body.statements).flatMap (Stmt.temporaries t) ++
      (Stmt.nodesAll body.statements).flatMap (Expr.temporaries t constant)

/-- **Storage is used up, and nothing lies over anything else**: data fields and arguments come one
after the other, and variables and temporaries fill their frame without a byte in common. -/
structure Program.Tiled (p : Program) : Prop where
  data : ∀ m ∈ p.modules, Slot.Tile p.types 0 m.dataSize m.fields
  arguments : ∀ f ∈ p.functions, ∀ body, f.user? = some body →
    Slot.Tile p.types 8 body.frame.result body.arguments
  frames : ∀ f ∈ p.functions, ∀ body, f.user? = some body →
    Extent.Fill (-(body.frame.locals : Int)) 0 (body.extents p.types p.constantValue)

/-! ## Places one after the other -/

theorem Slot.Tile.append {t : TypeTable} {low middle high : Nat} {fs gs : List Slot}
    (h : Tile t low middle fs) (h' : Tile t middle high gs) : Tile t low high (fs ++ gs) := by
  induction fs generalizing low with
  | nil => exact (show low = middle from h) ▸ h'
  | cons f rest ih =>
    obtain ⟨ho, n, hn, hrest⟩ := h
    exact ⟨ho, n, hn, ih hrest⟩

namespace Layout

variable {t : TypeTable} {constant : Nat → Option Literal}

theorem tile_slots {fs placed : List Slot} {offset stop : Nat}
    (h : slots t offset fs = .ok (placed, stop)) : Slot.Tile t offset stop placed := by
  induction fs generalizing offset placed with
  | nil =>
    obtain ⟨rfl, rfl⟩ : [] = placed ∧ offset = stop := by simpa [slots] using h
    rfl
  | cons f rest ih =>
    obtain ⟨size, hsize, h⟩ := Checked.bind_eq_ok.1 h
    obtain ⟨⟨later, stop'⟩, hrest, h⟩ := Checked.bind_eq_ok.1 h
    obtain ⟨rfl, rfl⟩ := Prod.mk.inj (Checked.pure_eq_ok.1 h)
    exact ⟨rfl, size, TypeTable.sizeAt_eq_ok.1 hsize, ih hrest⟩

theorem tile_dataSets {ds placed : List DataSet} {offset stop : Nat}
    (h : dataSets t offset ds = .ok (placed, stop)) :
    Slot.Tile t offset stop (placed.flatMap (·.fields)) := by
  induction ds generalizing offset placed with
  | nil =>
    obtain ⟨rfl, rfl⟩ : [] = placed ∧ offset = stop := by simpa [dataSets] using h
    rfl
  | cons d rest ih =>
    obtain ⟨⟨fields, middle⟩, hslots, h⟩ := Checked.bind_eq_ok.1 h
    obtain ⟨⟨later, stop'⟩, hrest, h⟩ := Checked.bind_eq_ok.1 h
    obtain ⟨rfl, rfl⟩ := Prod.mk.inj (Checked.pure_eq_ok.1 h)
    rw [List.flatMap_cons]
    exact (tile_slots hslots).append (ih hrest)

/-! ## Temporaries of expressions -/

open Extent

theorem stacked_room (n : Nat) (s : FrameState) :
    Ends (room n) s fun o s' => s'.locals = s.locals ∧ o = s'.cursor ∧
      Stacked s.cursor s'.cursor [some ⟨s'.cursor, n⟩] :=
  Ends.changes ⟨rfl, rfl, .one _ _⟩

mutual

theorem stacked_expr : (e : Expr) → (s : FrameState) → s.cursor ≤ 0 →
    Ends (expr t constant e) s fun e' s' =>
      Stacked s.cursor s'.cursor (e'.nodes.flatMap (Expr.temporaries t constant))
  | .literal _ _, s, _ | .name _ _ _, s, _ => by
    unfold expr
    exact Ends.value (.nil _)
  | .member i target field d, s, hs => by
    unfold expr
    exact (stacked_expr target s hs).seq fun e s₁ h₁ => Ends.value h₁
  | .call i f arguments c, s, hs => by
    unfold expr
    exact (stacked_exprs arguments s hs).seq fun es s₁ h₁ => Ends.value h₁
  | .unary i op operand, s, hs => by
    unfold expr
    exact (stacked_expr operand s hs).seq fun e s₁ h₁ => Ends.value h₁
  | .binary i op left right, s, hs => by
    unfold expr
    refine (stacked_expr left s hs).seq fun e s₁ h₁ => ?_
    refine (stacked_expr right s₁ (h₁.le.trans hs)).seq fun e' s₂ h₂ => Ends.value ?_
    rw [Expr.nodes, List.flatMap_cons, List.flatMap_append]
    exact h₁.append h₂
  | .cast i operand, s, hs => by
    unfold expr
    exact (stacked_expr operand s hs).seq fun e s₁ h₁ => Ends.value h₁
  | .pointer i target temp, s, hs => by
    -- a target keeps its type and whether it needs a copy when its own parts are placed
    have rest (p : Option Int) (s₁ : FrameState) (hs₁ : s₁.cursor ≤ 0)
        (hp : Stacked s.cursor s₁.cursor ((Expr.pointer i target p).temporaries t constant)) :
        Ends (do return Expr.pointer i (← expr t constant target) p) s₁ fun e' s' =>
          Stacked s.cursor s'.cursor (e'.nodes.flatMap (Expr.temporaries t constant)) := by
      refine ((stacked_expr target s₁ hs₁).both (ends_expr target s₁ hs₁)).seq fun e s₂ h₂ => ?_
      obtain ⟨hstacked, -, -, he⟩ := h₂
      refine Ends.value ?_
      have hneeds : e.needsTemp t constant = target.needsTemp t constant := by
        rw [Expr.needsTemp, Expr.needsTemp, he.addressable, he.fold]
      have htemp : (Expr.pointer i e p).temporaries t constant =
          (Expr.pointer i target p).temporaries t constant := by
        rw [Expr.temporaries, Expr.temporaries, hneeds, Expr.type?, Expr.type?, he.info]
      rw [Expr.nodes, List.flatMap_cons, htemp]
      exact hp.append hstacked
    unfold expr
    dsimp only
    split
    next hneeds =>
      refine (Ends.lifts (Q := fun n s₁ => s₁ = s ∧ target.type?.bind t.size? = some n)
        fun n hn => ⟨rfl, TypeTable.sizeAt_eq_ok.1 hn⟩).seq fun n s₁ h₁ => ?_
      obtain ⟨rfl, hn⟩ := h₁
      refine (stacked_room n s₁).seq fun o s₂ h₂ => ?_
      obtain ⟨-, rfl, hroom⟩ := h₂
      refine Ends.value_seq (rest _ _ (hroom.le.trans hs) ?_)
      rw [Expr.temporaries, if_pos hneeds, Option.bind_some, TypeTable.extent?, hn]
      exact hroom
    next hneeds =>
      refine Ends.value_seq (rest _ _ hs ?_)
      rw [Expr.temporaries, if_neg hneeds]
      exact .nil _

theorem stacked_exprs : (es : List Expr) → (s : FrameState) → s.cursor ≤ 0 →
    Ends (exprs t constant es) s fun es' s' =>
      Stacked s.cursor s'.cursor ((Expr.nodesAll es').flatMap (Expr.temporaries t constant))
  | [], s, _ => by
    unfold exprs
    exact Ends.value (.nil _)
  | e :: rest, s, hs => by
    unfold exprs
    refine (stacked_expr e s hs).seq fun e' s₁ h₁ => ?_
    refine (stacked_exprs rest s₁ (h₁.le.trans hs)).seq fun es s₂ h₂ => Ends.value ?_
    rw [Expr.nodesAll, List.flatMap_append]
    exact h₁.append h₂

end

theorem stacked_expr? (e : Option Expr) {s : FrameState} (hs : s.cursor ≤ 0) :
    Ends (expr? t constant e) s fun e' s' =>
      Stacked s.cursor s'.cursor ((Expr.nodesOf e').flatMap (Expr.temporaries t constant)) := by
  unfold expr?
  split
  next e => exact (stacked_expr e s hs).seq fun e' s₁ h₁ => Ends.value h₁
  next => exact Ends.value (.nil _)

/-! ## Variables and temporaries of statements -/

/-- The extent of a variable. -/
def FrameState.extent? (s : FrameState) (t : TypeTable) (i : Nat) : Option Extent :=
  (s.locals[i]?).bind fun v => t.extent? v.offset v.type

/-- Some variables are placed, and with some other parts they fill what lies between the cursors;
no other variable is touched. -/
structure FrameState.Places (t : TypeTable) (s s' : FrameState) (indices : List Nat)
    (parts : List (Option Extent)) : Prop where
  size : s'.locals.size = s.locals.size
  others : ∀ i, i ∉ indices → s'.locals[i]? = s.locals[i]?
  stacked : Stacked s.cursor s'.cursor (indices.map (s'.extent? t) ++ parts)

namespace FrameState.Places

variable {s s₁ s₂ : FrameState} {is js : List Nat} {ps qs : List (Option Extent)}

theorem le (h : Places t s s₁ is ps) : s₁.cursor ≤ s.cursor := h.stacked.le

theorem perm (h : Places t s s₁ is ps) (hp : qs.Perm ps) : Places t s s₁ is qs :=
  ⟨h.size, h.others, h.stacked.perm (hp.append_left _)⟩

/-- What is placed first stays where it is. -/
theorem seq (h : Places t s s₁ is ps) (h' : Places t s₁ s₂ js qs) (hd : (is ++ js).Nodup) :
    Places t s s₂ (is ++ js) (ps ++ qs) where
  size := h'.size.trans h.size
  others i hi := by
    rw [List.mem_append, not_or] at hi
    rw [h'.others i hi.2, h.others i hi.1]
  stacked := by
    have hkeep : is.map (s₂.extent? t) = is.map (s₁.extent? t) := by
      refine List.map_congr_left fun i hi => ?_
      rw [extent?, extent?, h'.others i fun hj => (List.nodup_append.1 hd).2.2 i hi i hj rfl]
    refine (h.stacked.append h'.stacked).perm ?_
    rw [List.map_append, hkeep, List.perm_iff_count]
    intro r
    simp only [List.count_append]
    omega

/-- Temporaries are placed without touching a variable. -/
theorem of_stacked (hl : s₁.locals = s.locals) (h : Stacked s.cursor s₁.cursor ps) :
    Places t s s₁ [] ps :=
  ⟨by rw [hl], fun i _ => by rw [hl], h⟩

/-- Temporaries may be placed before or after variables. -/
theorem before (hl : s₁.locals = s.locals) (h : Stacked s.cursor s₁.cursor ps)
    (h' : Places t s₁ s₂ js qs) (hd : js.Nodup) : Places t s s₂ js (ps ++ qs) :=
  (of_stacked hl h).seq h' hd

end FrameState.Places

variable {s : FrameState}

/-- The parts of statements: those of the statements inside, then those of the expressions. -/
def parts (t : TypeTable) (constant : Nat → Option Literal) (within : List Stmt)
    (nodes : List Expr) : List (Option Extent) :=
  within.flatMap (Stmt.temporaries t) ++ nodes.flatMap (Expr.temporaries t constant)

theorem parts_append (within within' : List Stmt) (nodes nodes' : List Expr) :
    (parts t constant (within ++ within') (nodes ++ nodes')).Perm
      (parts t constant within nodes ++ parts t constant within' nodes') := by
  rw [List.perm_iff_count]
  intro r
  simp only [parts, List.flatMap_append, List.count_append]
  omega

theorem places_expr (e : Expr) (hs : s.cursor ≤ 0) :
    Ends (expr t constant e) s fun e' s' => s'.locals = s.locals ∧
      Stacked s.cursor s'.cursor (e'.nodes.flatMap (Expr.temporaries t constant)) :=
  ((ends_expr e s hs).both (stacked_expr e s hs)).mono fun _ _ h => ⟨h.1.1, h.2⟩

theorem places_expr? (e : Option Expr) (hs : s.cursor ≤ 0) :
    Ends (expr? t constant e) s fun e' s' => s'.locals = s.locals ∧
      Stacked s.cursor s'.cursor ((Expr.nodesOf e').flatMap (Expr.temporaries t constant)) :=
  ((ends_expr? hs).both (stacked_expr? e hs)).mono fun _ _ h => ⟨h.1.1, h.2⟩

theorem places_placeLocal {index : Nat} (hi : index < s.locals.size) :
    Ends (placeLocal t index) s fun _ s' => s.Places t s' [index] [] := by
  unfold placeLocal
  refine Ends.reads ?_
  rw [Array.getElem?_eq_getElem hi]
  dsimp only
  refine (Ends.lifts (Q := fun n s₁ => s₁ = s ∧ s.locals[index].type.bind t.size? = some n)
    fun n hn => ⟨rfl, TypeTable.sizeAt_eq_ok.1 hn⟩).seq fun n s₁ h₁ => ?_
  obtain ⟨rfl, hn⟩ := h₁
  refine (stacked_room n s₁).seq fun o s₂ h₂ => ?_
  obtain ⟨hl, rfl, hroom⟩ := h₂
  refine Ends.modifies ⟨by simp [hl], fun i hne => ?_, ?_⟩
  · rw [List.mem_singleton] at hne
    rw [Array.getElem?_modify, if_neg (Ne.symm hne), hl]
  · have hextent : FrameState.extent? { s₂ with
        locals := s₂.locals.modify index fun v => { v with offset := s₂.cursor } } t index =
          some ⟨s₂.cursor, n⟩ := by
      rw [FrameState.extent?, Array.getElem?_modify, if_pos rfl, hl,
        Array.getElem?_eq_getElem hi, Option.map_some, Option.bind_some, TypeTable.extent?, hn,
        Option.map_some]
    rw [List.map_singleton, hextent]
    exact hroom

theorem places_implicit (indices : List Nat) : (s : FrameState) → indices.Nodup →
    (∀ i ∈ indices, i < s.locals.size) →
      Ends (indices.forM (placeLocal t)) s fun _ s' => s.Places t s' indices [] := by
  induction indices with
  | nil => exact fun s _ _ => Ends.value (.of_stacked rfl (.nil _))
  | cons index rest ih =>
    intro s hn hlt
    refine (places_placeLocal (hlt index (by simp))).seq fun _ s₁ h₁ => ?_
    refine (ih s₁ hn.of_cons fun i hi => ?_).mono fun _ s₂ h₂ => h₁.seq h₂ hn
    rw [h₁.size]
    exact hlt i (by simp [hi])

theorem places_temps (counter : Expr) :
    Ends (temps t counter) s fun r s' => s'.locals = s.locals ∧
      Stacked s.cursor s'.cursor [t.extent? r.finish counter.type?,
        t.extent? r.step counter.type?, some ⟨r.sign, 1⟩] := by
  unfold temps
  refine (Ends.lifts (Q := fun n s₁ => s₁ = s ∧ counter.type?.bind t.size? = some n)
    fun n hn => ⟨rfl, TypeTable.sizeAt_eq_ok.1 hn⟩).seq fun n s₁ h₁ => ?_
  obtain ⟨rfl, hn⟩ := h₁
  refine (stacked_room n s₁).seq fun finish s₂ h₂ => ?_
  obtain ⟨hl₂, rfl, hf⟩ := h₂
  refine (stacked_room n s₂).seq fun step s₃ h₃ => ?_
  obtain ⟨hl₃, rfl, hst⟩ := h₃
  refine (stacked_room 1 s₃).seq fun sign s₄ h₄ => ?_
  obtain ⟨hl₄, rfl, hsg⟩ := h₄
  refine Ends.value ⟨hl₄.trans (hl₃.trans hl₂), ?_⟩
  simp only [TypeTable.extent?, hn, Option.map_some]
  exact hf.append (hst.append hsg)

mutual

theorem places_stmt : (r : Stmt) → (s : FrameState) → s.cursor ≤ 0 → r.variables.Nodup →
    (∀ i ∈ r.variables, i < s.locals.size) →
      Ends (stmt t constant r) s fun r' s' =>
        s.Places t s' r.variables (parts t constant r'.within r'.nodes)
  | .var l index value, s, hs, hn, hlt => by
    unfold stmt
    refine (places_placeLocal (hlt index (by simp [Stmt.variables]))).seq fun _ s₁ h₁ => ?_
    refine (places_expr? value (h₁.le.trans hs)).seq fun e s₂ h₂ => Ends.value ?_
    exact h₁.seq (.of_stacked h₂.1 h₂.2) hn
  | .assign l value target, s, hs, hn, hlt => by
    unfold stmt
    refine (places_expr value hs).seq fun e s₁ h₁ => ?_
    refine (places_expr target (h₁.2.le.trans hs)).seq fun e' s₂ h₂ => Ends.value ?_
    rw [Stmt.nodes, parts, List.flatMap_append]
    exact .of_stacked (h₂.1.trans h₁.1) (h₁.2.append h₂.2)
  | .invoke l call, s, hs, hn, hlt => by
    unfold stmt
    exact (places_expr call hs).seq fun e s₁ h₁ => Ends.value (.of_stacked h₁.1 h₁.2)
  | .return l value, s, hs, hn, hlt => by
    unfold stmt
    exact (places_expr? value hs).seq fun e s₁ h₁ => Ends.value (.of_stacked h₁.1 h₁.2)
  | .choose l branches, s, hs, hn, hlt => by
    unfold stmt
    exact (places_choices branches s hs hn hlt).seq fun b s₁ h₁ => Ends.value h₁
  | .count l counter start finish step body places, s, hs, hn, hlt => by
    unfold stmt
    refine (places_temps counter).seq fun places' s₁ h₁ => ?_
    have hs₁ := h₁.2.le.trans hs
    refine ((ends_expr counter s₁ hs₁).both (places_expr counter hs₁)).seq fun e₂ s₂ h₂ => ?_
    have hs₂ := h₂.2.2.le.trans hs₁
    refine (places_expr start hs₂).seq fun e₃ s₃ h₃ => ?_
    have hs₃ := h₃.2.le.trans hs₂
    refine (places_expr finish hs₃).seq fun e₄ s₄ h₄ => ?_
    have hs₄ := h₄.2.le.trans hs₃
    refine (places_expr? step hs₄).seq fun e₅ s₅ h₅ => ?_
    have hlocals : s₅.locals = s.locals :=
      h₅.1.trans (h₄.1.trans (h₃.1.trans (h₂.2.1.trans h₁.1)))
    refine (places_stmts body s₅ (h₅.2.le.trans hs₄) hn (hlocals ▸ hlt)).seq fun b s₆ h₆ =>
      Ends.value ?_
    have hcounter : e₂.type? = counter.type? := congrArg Info.type h₂.1.2.2.info
    have hall := h₁.2.append (h₂.2.2.append (h₃.2.append (h₄.2.append h₅.2)))
    refine (FrameState.Places.before hlocals hall h₆ hn).perm ?_
    rw [List.perm_iff_count]
    intro r
    simp only [parts, Stmt.within, Stmt.nodes, Stmt.temporaries, hcounter, List.flatMap_cons,
      List.flatMap_append, List.count_append]
    omega
  | .loop l condition body, s, hs, hn, hlt => by
    have rest (c : Option Condition) (s₁ : FrameState) (hl : s₁.locals = s.locals)
        (hc : Stacked s.cursor s₁.cursor
          ((Expr.nodesOf (c.map (·.value))).flatMap (Expr.temporaries t constant))) :
        Ends (do return Stmt.loop l c (← stmts t constant body)) s₁ fun r' s' =>
          s.Places t s' (Stmt.variablesAll body) (parts t constant r'.within r'.nodes) := by
      refine (places_stmts body s₁ (hc.le.trans hs) hn (hl ▸ hlt)).seq fun b s₂ h₂ => Ends.value ?_
      refine (FrameState.Places.before hl hc h₂ hn).perm ?_
      rw [List.perm_iff_count]
      intro r
      simp only [parts, Stmt.within, Stmt.nodes, Stmt.temporaries, List.flatMap_cons,
        List.flatMap_append, List.count_append, List.nil_append]
      omega
    unfold stmt
    dsimp only
    split
    next c =>
      refine (places_expr c.value hs).seq fun e s₁ h₁ => ?_
      exact Ends.value_seq (rest _ _ h₁.1 h₁.2)
    next => exact Ends.value_seq (rest _ _ rfl (.nil _))

/-- **Variables and temporaries are placed one right below the other**, each in its own place. -/
theorem places_stmts : (rs : List Stmt) → (s : FrameState) → s.cursor ≤ 0 →
    (Stmt.variablesAll rs).Nodup → (∀ i ∈ Stmt.variablesAll rs, i < s.locals.size) →
      Ends (stmts t constant rs) s fun rs' s' =>
        s.Places t s' (Stmt.variablesAll rs)
          (parts t constant (Stmt.withinAll rs') (Stmt.nodesAll rs'))
  | [], s, _, _, _ => by
    unfold stmts
    exact Ends.value (.of_stacked rfl (.nil _))
  | r :: rest, s, hs, hn, hlt => by
    unfold stmts
    obtain ⟨hn₁, hn₂, -⟩ := List.nodup_append.1 hn
    refine (places_stmt r s hs hn₁ fun i hi => hlt i (List.mem_append_left _ hi)).seq
      fun r' s₁ h₁ => ?_
    refine (places_stmts rest s₁ (h₁.le.trans hs) hn₂ fun i hi => ?_).seq fun rs' s₂ h₂ =>
      Ends.value ((h₁.seq h₂ hn).perm (parts_append ..))
    rw [h₁.size]
    exact hlt i (List.mem_append_right _ hi)

theorem places_choices : (b : Branches) → (s : FrameState) → s.cursor ≤ 0 → b.variables.Nodup →
    (∀ i ∈ b.variables, i < s.locals.size) →
      Ends (choices t constant b) s fun b' s' =>
        s.Places t s' b.variables (parts t constant b'.within b'.nodes)
  | .done, s, _, _, _ => by
    unfold choices
    exact Ends.value (.of_stacked rfl (.nil _))
  | .otherwise body, s, hs, hn, hlt => by
    unfold choices
    exact (places_stmts body s hs hn hlt).seq fun b s₁ h₁ => Ends.value h₁
  | .branch condition body rest, s, hs, hn, hlt => by
    unfold choices
    obtain ⟨hn₁, hn₂, -⟩ := List.nodup_append.1 hn
    refine (places_expr condition hs).seq fun c s₁ h₁ => ?_
    have hs₁ := h₁.2.le.trans hs
    refine (places_stmts body s₁ hs₁ hn₁ fun i hi => ?_).seq fun b s₂ h₂ => ?_
    · rw [h₁.1]
      exact hlt i (List.mem_append_left _ hi)
    refine (places_choices rest s₂ (h₂.le.trans hs₁) hn₂ fun i hi => ?_).seq fun b' s₃ h₃ =>
      Ends.value ?_
    · rw [h₂.size, h₁.1]
      exact hlt i (List.mem_append_right _ hi)
    have hall := (FrameState.Places.before h₁.1 h₁.2 (h₂.seq h₃ hn) hn)
    refine hall.perm ?_
    rw [List.perm_iff_count]
    intro r
    simp only [parts, Branches.within, Branches.nodes, List.flatMap_append, List.count_append]
    omega

end

theorem map_extent?_range (s : FrameState) :
    (List.range s.locals.size).map (s.extent? t) =
      s.locals.toList.map fun v => t.extent? v.offset v.type := by
  refine List.ext_getElem (by simp) fun i hi hi' => ?_
  have hlt : i < s.locals.size := by simpa using hi
  simp [FrameState.extent?, hlt]

/-- **The frame of a function is filled**, if each variable is placed once. -/
theorem tiled_function {f f' : Function} (h : function t constant f = .ok f')
    (hplaced : ∀ body, f.user? = some body → (body.implicit ++
      Stmt.variablesAll body.statements).Perm (List.range body.locals.size)) :
    ∀ body', f'.user? = some body' → Slot.Tile t 8 body'.frame.result body'.arguments ∧
      Fill (-(body'.frame.locals : Int)) 0 (body'.extents t constant) := by
  unfold function at h
  split at h
  next arguments hbody =>
    obtain rfl : f = f' := by simpa using h
    simp [Function.user?, hbody]
  next body hbody =>
    obtain ⟨⟨arguments, result⟩, hslots, h⟩ := Checked.bind_eq_ok.1 h
    obtain ⟨⟨statements, s'⟩, hrun, h⟩ := Checked.bind_eq_ok.1 h
    obtain rfl := Checked.pure_eq_ok.1 h
    obtain ⟨_, s₁, hfirst, hstmts⟩ := run_bind_eq_ok.1 hrun
    rintro body' hbody'
    obtain rfl := Option.some.inj hbody'
    refine ⟨tile_slots hslots, ?_⟩
    have hperm := hplaced body (by rw [Function.user?, hbody])
    have hn := hperm.nodup_iff.2 List.nodup_range
    obtain ⟨hn₁, hn₂, -⟩ := List.nodup_append.1 hn
    have hlt (i : Nat) (hi : i ∈ body.implicit ++ Stmt.variablesAll body.statements) :
        i < body.locals.size := List.mem_range.1 (hperm.mem_iff.1 hi)
    -- variables without a statement are placed first, the others where they are declared
    have h₁ := places_implicit (t := t) body.implicit ⟨0, body.locals⟩ hn₁
      (fun i hi => hlt i (List.mem_append_left _ hi)) _ _ hfirst
    have h₂ := places_stmts body.statements s₁ h₁.le hn₂
      (fun i hi => by
        rw [h₁.size]
        exact hlt i (List.mem_append_right _ hi)) _ _ hstmts
    have hall := h₁.seq h₂ hn
    have hlow : -((-s'.cursor).toNat : Int) = s'.cursor := by
      have : s'.cursor ≤ 0 := hall.le
      omega
    dsimp only
    rw [hlow]
    refine (hall.stacked.perm ?_).fill
    rw [UserBody.extents, ← map_extent?_range, hall.size, List.append_assoc]
    exact (hperm.symm.map _).append_right _

end Layout

/-! ## Programs -/

/-- A function has as many variables as there are statements that declare one, so each is declared
once. -/
theorem UserBody.Written.perm_range {body : UserBody} {t : TypeTable} {visible : Nat → Bool}
    (h : body.Written t visible) : (body.implicit ++ Stmt.variablesAll body.statements).Perm
      (List.range body.locals.size) := by
  have hsubset : List.range body.locals.size ⊆
      body.implicit ++ Stmt.variablesAll body.statements := fun i hi =>
    List.mem_append.2 (h.covered i (List.mem_range.1 hi))
  refine ((List.nodup_range.subperm hsubset).perm_of_length_le ?_).symm
  rw [List.length_append, List.length_range, h.count]

namespace Program

open Checking

variable {raw : Raw.Program} {p q : Program}

/-- A program whose functions declare each variable once gets all its storage filled. -/
theorem tiled_of_layout (h : p.layout = .ok q) (hplaced : ∀ f ∈ p.functions, ∀ body,
    f.user? = some body → (body.implicit ++ Stmt.variablesAll body.statements).Perm
      (List.range body.locals.size)) : q.Tiled := by
  have hlays := laysOut_of_layout h
  have hconstant : q.constantValue = p.constantValue := by
    unfold Program.constantValue
    rw [hlays.constants]
  have function {f' : Function} (hf' : f' ∈ q.functions) {body : UserBody}
      (hb : f'.user? = some body) :
      Slot.Tile q.types 8 body.frame.result body.arguments ∧
        Extent.Fill (-(body.frame.locals : Int)) 0 (body.extents q.types q.constantValue) := by
    obtain ⟨n, hn⟩ := Array.mem_iff_getElem?.1 hf'
    obtain ⟨f, hf, h⟩ := hlays.exists_function hn
    rw [hconstant]
    exact Layout.tiled_function h (hplaced f (Array.mem_of_getElem? hf)) body hb
  refine ⟨fun m' hm' => ?_, fun f' hf' body hb => (function hf' hb).1,
    fun f' hf' body hb => (function hf' hb).2⟩
  obtain ⟨k, hk⟩ := List.mem_iff_getElem?.1 hm'
  obtain ⟨m, -, h⟩ := forall₂_right hlays.modules hk
  obtain ⟨⟨ds, size⟩, hds, h⟩ := Checked.bind_eq_ok.1 h
  obtain rfl := Checked.pure_eq_ok.1 h
  exact Layout.tile_dataSets hds

/-- What is laid out is a program whose functions declare each variable once. -/
theorem exists_layout_of_analyse (h : analyse raw = .ok p) : ∃ q : Program, q.layout = .ok p ∧
    ∀ f ∈ q.functions, ∀ body, f.user? = some body →
      (body.implicit ++ Stmt.variablesAll body.statements).Perm (List.range body.locals.size) := by
  obtain ⟨p₀, h₀, h⟩ := Checked.bind_eq_ok.1 h
  obtain ⟨p₁, h₁, h⟩ := Checked.bind_eq_ok.1 h
  obtain ⟨p₂, h₂, h⟩ := Checked.bind_eq_ok.1 h
  obtain ⟨hw₀, hu₀⟩ := written_ofRaw h₀
  have hw := (hw₀.bound hu₀ h₁).withReach
  generalize p₁.withReach = p at hw h₂
  obtain ⟨⟨fs, s'⟩, hrun, h₂⟩ := Checked.bind_eq_ok.1 h₂
  obtain rfl := Checked.pure_eq_ok.1 h₂
  obtain ⟨s, hr, hrun⟩ := program_eq_ok hw hrun
  obtain ⟨-, hchecked, -⟩ := known_of_checked hrun
  refine ⟨_, h, fun f' hf' body' hb' => ?_⟩
  obtain ⟨k, hk⟩ := List.mem_iff_getElem?.1 (List.mem_toArray.1 hf')
  obtain ⟨f, hf, hre⟩ := forall₂_right hchecked hk
  obtain ⟨body, hb, hbody⟩ := hre.user body' hb'
  rw [hbody.implicit, hbody.declared, hbody.width]
  exact (hw.functions k f (by simpa using hf) body hb).perm_range

/-- **Analysis lays a program out so that all storage is used and nothing lies over anything
else.** -/
theorem tiled_of_analyse (h : analyse raw = .ok p) : p.Tiled := by
  obtain ⟨q, hq, hplaced⟩ := exists_layout_of_analyse h
  exact tiled_of_layout hq hplaced

theorem tiled_of_analyse_joining : ∃ p, analyse .joining = .ok p ∧ p.Tiled := by
  have h : analyse .joining = .ok ((analyse .joining).toOption.getD default) :=
    Checked.eq_ok (by decide +kernel)
  exact ⟨_, h, tiled_of_analyse h⟩

end Program

end ChannelBasic
