import ChannelBasic.Proofs.Execution.Folding
import ChannelBasic.Proofs.Execution.Interpretation
import ChannelBasic.Proofs.Execution.Soundness

/-!
# Proofs/Execution/Simulation — code does what the tree says

A machine mirrors a store (`Machine.Mirrors`) if it runs the code of a function, and the places that
the function can reach have the bytes of the store.  It follows what a part of the function comes to
(`Machine.Follows`): it mirrors the store that the part leaves behind, it stops, it divides by zero,
or it still runs after as many steps as there was fuel.  **The code of a statement does what the
statement makes of a store** (`Stmt.follows`), by induction on the tree.  For a loop it is by
induction on the fuel, since each round ends with a jump and so takes a step (`Follows.again`,
`Mirrors.decides`).
-/

namespace ChannelBasic

open Code

/-! ## Places in memory -/

namespace Place

variable {place p : Place} {lp base : Int} {n i : Nat}

theorem address_plus (place : Place) (i : Nat) :
    (place.plus i).address lp base = place.address lp base + i := by
  cases place <;> simp only [plus, address] <;> ring

/-- A place lies behind another one by the difference of their addresses. -/
theorem address_of_behind? (h : place.behind? p = some i) :
    p.address lp base = place.address lp base + i := by
  cases place <;> cases p <;> simp only [behind?, reduceCtorEq] at h
  all_goals
    split at h
    · obtain rfl := Option.some.inj h
      simp only [address]
      omega
    · cases h

end Place

/-- Memory has the bytes of a store wherever the code of a function can reach. -/
def Memory.Shows (mem : Memory) (S : Setting) (lp base : Int) (σ : Store) : Prop :=
  ∀ place, S.Has place 1 → mem.byte? (place.address lp base) = some (σ.byte place)

section Shows

variable {S : Setting} {mem mem' : Memory} {σ : Store} {place : Place} {lp base : Int} {n : Nat}
  {P : Int → Prop}

/-- The bytes of a store lie at its places. -/
theorem Memory.Shows.has (h : mem.Shows S lp base σ) (hplace : S.Has place n)
    (hlow : 0 ≤ place.address lp base) (hhigh : place.address lp base + n ≤ mem.size) :
    mem.Has (place.address lp base) (σ.read place n) := by
  refine Memory.has_iff.2 ⟨hlow, by rwa [Store.length_read], fun i hi => ?_⟩
  rw [Store.length_read] at hi
  rw [Store.getElem?_read σ place hi, ← h _ (hplace.plus hi), Place.address_plus]

theorem Memory.Shows.same (h : mem.Shows S lp base σ) (hs : mem.Same P mem')
    (hP : ∀ place, S.Has place 1 → P (place.address lp base)) : mem'.Shows S lp base σ :=
  fun place hplace => (hs.byte _ (hP place hplace)).trans (h place hplace)

end Shows

/-! ## Machines that run a function -/

/-- The frame of a function called from outside, with room for some bytes above the data sets. -/
structure Activation.Hosts (a : Activation) (S : Setting) (image : Image) (l : Link)
    (room : Nat) : Prop where
  within : S.In image l
  proper : a.Proper image
  frame : a.Of S
  outermost : a.lp + 8 = a.entrySp
  room : image.dynamicBase + image.dataSize + room ≤ a.lp - a.locals

namespace Activation.Hosts

variable {S : Setting} {image : Image} {l : Link} {a : Activation} {room : Nat} {place p : Place}
  {n : Nat}

theorem has (hA : a.Hosts S image l room) (h : S.Has place n) :
    place.Within a.locals a.above S.data n := by
  rw [hA.frame.locals, hA.frame.above]
  exact h

/-- A place of the function lies in its frame or in the data sets. -/
theorem bounds (hA : a.Hosts S image l room) (h : S.Has place n) :
    (∃ offset, place = .frame offset ∧ a.lp - a.locals ≤ place.address a.lp image.dynamicBase ∧
      place.address a.lp image.dynamicBase + n ≤ a.memory.top) ∨
    ∃ offset, place = .data offset ∧ image.dynamicBase ≤ place.address a.lp image.dynamicBase ∧
      place.address a.lp image.dynamicBase + n ≤ image.dynamicBase + image.dataSize := by
  have hwithin := hA.has h
  have htop := hA.proper.top
  have hdata := hA.within.data
  have hlink : Layout.linkSize = 8 := rfl
  cases place with
  | frame offset =>
    refine .inl ⟨offset, rfl, ?_, ?_⟩ <;> simp only [Place.address] <;>
      rcases hwithin with hwithin | hwithin <;> omega
  | data offset =>
    obtain ⟨hlow, hhigh⟩ := hwithin
    refine .inr ⟨offset, rfl, ?_, ?_⟩ <;> simp only [Place.address] <;> omega

/-- A byte that is not behind the start of a place is not part of the place. -/
theorem apart_of_behind? (hA : a.Hosts S image l room) (h : S.Has place n) (hp : S.Has p 1)
    (hbehind : place.behind? p = none) :
    ¬ (place.address a.lp image.dynamicBase ≤ p.address a.lp image.dynamicBase ∧
      p.address a.lp image.dynamicBase < place.address a.lp image.dynamicBase + n) := by
  have hlow := hA.proper.low
  -- either both are counted from one base, or the frame lies above the data sets
  cases place with
  | frame o =>
    cases p with
    | frame o' =>
      simp only [Place.behind?, ite_eq_right_iff, reduceCtorEq, imp_false] at hbehind
      simp only [Place.address]
      omega
    | data o' =>
      obtain ⟨_, hp, -⟩ | ⟨_, -, -, hp⟩ := hA.bounds hp
      · cases hp
      obtain ⟨_, -, h, -⟩ | ⟨_, h, -⟩ := hA.bounds h
      · omega
      · cases h
  | data o =>
    cases p with
    | frame o' =>
      obtain ⟨_, -, hp, -⟩ | ⟨_, hp, -⟩ := hA.bounds hp
      · obtain ⟨_, h, -⟩ | ⟨_, -, -, h⟩ := hA.bounds h
        · cases h
        · omega
      · cases hp
    | data o' =>
      simp only [Place.behind?, ite_eq_right_iff, reduceCtorEq, imp_false] at hbehind
      simp only [Place.address]
      omega

theorem room_lt (hA : a.Hosts S image l room) : room < 2 ^ 31 := by
  have hroom := hA.room
  have htop := hA.proper.top
  have hlt := a.memory.top_lt
  have hdata := hA.within.data
  omega

end Activation.Hosts

namespace Machine

/-- A machine that runs a function's code at an address, some bytes having been pushed and the
function's places having the bytes of a store. -/
structure Mirrors (m : Machine) (S : Setting) (image : Image) (a : Activation) (ip : Int)
    (top : List UInt8) (σ : Store) : Prop where
  runs : m.Runs image a ip top.length
  tops : m.Tops top
  shows : m.memory.Shows S a.lp image.dynamicBase σ

variable {S : Setting} {image : Image} {l : Link} {a : Activation} {room : Nat} {m m' : Machine}
  {ip target : Int} {σ : Store} {top data : List UInt8} {natives : Natives} {place : Place}
  {k n : Nat} {rest code : List Piece} {label : Label}

theorem Mirrors.reaches (h : m.Mirrors S image a ip top σ) (hA : a.Hosts S image l room)
    (hplace : S.Has place n) : m.Reaches l place n :=
  h.runs.reaches hA.proper hA.within (hA.has hplace)

/-- With nothing pushed, a function has its frame on top. -/
theorem mirrors_nil (h : m.Runs image a ip 0) (hA : a.Hosts S image l room)
    (hσ : m.memory.Shows S a.lp image.dynamicBase σ) : m.Mirrors S image a ip [] σ := by
  have hready := h.ready hA.proper hA.within
  have hroom := h.room
  have hlimit := hready.limit
  exact ⟨h, .nil hready (by omega), hσ⟩

theorem Mirrors.hasRoom (h : m.Mirrors S image a ip [] σ) (hA : a.Hosts S image l room)
    (hn : n ≤ room) : m.HasRoom n := by
  have hsp := h.runs.sp
  have hlimit := h.runs.limit
  have hhosts := hA.room
  rw [List.length_nil] at hsp
  unfold HasRoom
  omega

theorem Mirrors.run_one (h : m.Mirrors S image a ip top σ) (natives : Natives) :
    m.run natives 1 = m.tick natives :=
  run_succ h.runs.running 0

/-- What code pushes leaves the places of a function alone. -/
theorem Mirrors.pushes (h : m.Mirrors S image a ip [] σ) (hA : a.Hosts S image l room)
    (hpush : m.Pushes m' k data) (hroom : m.HasRoom data.length) :
    m'.Mirrors S image a (ip + (recordSize * k : Nat)) data σ := by
  have hruns := h.runs
  have hlimit := hruns.limit
  have hsp := hruns.sp
  have hdata := hA.within.data
  have hlow := hA.proper.low
  unfold HasRoom at hroom
  rw [List.length_nil] at hsp
  refine ⟨⟨hpush.running, ?_, ?_, hpush.lp.trans hruns.lp, hpush.entrySp.trans hruns.entrySp,
    hpush.limit.trans hlimit, ?_, hruns.same.trans (hpush.same.mono fun x hx => ?_)⟩, hpush.tops,
    h.shows.same hpush.same fun p hp => ?_⟩
  · rw [hpush.ip, hruns.ip]
  · rw [hpush.sp]
    omega
  · rw [hpush.limit, hpush.sp]
    exact hroom
  · rcases hx with hx | hx | hx <;> omega
  · obtain ⟨o, -, hbound, -⟩ | ⟨o, -, -, hbound⟩ := hA.bounds hp
    · omega
    · rw [hlimit]
      exact .inl (by omega)

/-- What is popped into a place is what the store has there. -/
theorem Mirrors.store_above (natives : Natives) (h : m.Mirrors S image a ip (data ++ top) σ)
    (hA : a.Hosts S image l room)
    (hcode : image.Lies l ip (.op (place.store data.length) :: rest))
    (hplace : S.Has place data.length) :
    (m.tick natives).Mirrors S image a (ip + recordSize) top (σ.write place data) := by
  obtain ⟨hdata, htop⟩ := tops_append.1 h.tops
  have hreaches := h.reaches hA hplace
  have hlow := hreaches.nonneg
  have hhigh := hreaches.le_top
  have hsize := Memory.top_le_size m.memory
  have hruns := h.runs.store natives hA.proper hA.within hcode
    (by rw [List.length_append]; exact Nat.le_add_right _ _) (hA.has hplace)
  rw [List.length_append, Nat.add_sub_cancel_left] at hruns
  have htick := h.runs.tick_store natives hA.proper hA.within hcode hdata hreaches
  have hbase := hA.within.links.dynamicBase
  rw [htick] at hruns ⊢
  refine ⟨hruns, ⟨?_, ?_⟩, fun p hp => ?_⟩
  · -- what stays on the stack lies apart from every place of the function
    have hfits : place.address m.lp l.dynamicBase.toInt + data.length ≤ m.memory.size := by omega
    refine htop.has.same (Memory.same_put hlow hfits) fun x hx hx' => ?_
    have hsp := h.runs.sp
    have hlimit := h.runs.limit
    have hroom := h.runs.room
    rw [List.length_append] at hsp
    rw [h.runs.lp, hbase]
    change m.sp + data.length ≤ x at hx
    change x < m.sp + data.length + top.length at hx'
    obtain ⟨o, -, hbound, -⟩ | ⟨o, -, -, hbound⟩ := hA.bounds hplace <;> omega
  · change m.sp + data.length + top.length ≤ (m.memory.put _ data).top
    rw [Memory.top_put]
    exact htop.le_top
  change (m.memory.put (place.address m.lp l.dynamicBase.toInt) data).byte?
    (p.address a.lp image.dynamicBase) = _
  rw [Memory.byte?_put hlow (by omega), h.runs.lp, hbase]
  simp only [Store.write]
  cases hbehind : place.behind? p with
  | some i =>
    have haddress : p.address a.lp image.dynamicBase = place.address a.lp image.dynamicBase + i :=
      Place.address_of_behind? hbehind
    rw [haddress, Option.bind_some]
    by_cases hi : i < data.length
    · rw [if_pos (by omega), List.getElem?_eq_getElem (by omega), List.getElem?_eq_getElem hi,
        Option.getD_some]
      congr 2
      omega
    · rw [if_neg (by omega), List.getElem?_eq_none (by omega), Option.getD_none, ← haddress]
      exact h.shows p hp
  | none =>
    rw [if_neg (hA.apart_of_behind? hplace hp hbehind), Option.bind_none, Option.getD_none]
    exact h.shows p hp

/-- What is popped into a place leaves nothing pushed. -/
theorem Mirrors.store (natives : Natives) (h : m.Mirrors S image a ip data σ)
    (hA : a.Hosts S image l room)
    (hcode : image.Lies l ip (.op (place.store data.length) :: rest))
    (hplace : S.Has place data.length) :
    (m.tick natives).Mirrors S image a (ip + recordSize) [] (σ.write place data) :=
  Mirrors.store_above natives (by rwa [List.append_nil]) hA hcode hplace

/-- A jump leaves everything as it is. -/
theorem Mirrors.jump (natives : Natives) (h : m.Mirrors S image a ip [] σ)
    (hA : a.Hosts S image l room)
    (hcode : image.Lies l ip (.op (.jump label) :: rest)) (hmark : l.Marks label target) :
    (m.tick natives).Mirrors S image a target [] σ := by
  refine mirrors_nil (h.runs.jump natives hA.proper hA.within hcode hmark) hA ?_
  rw [h.runs.tick_jump natives hA.proper hA.within hcode hmark]
  exact h.shows

/-- A branch goes to a label if what it pops is the value wanted. -/
theorem Mirrors.branch (natives : Natives) {b : UInt8} {value : Bool}
    (h : m.Mirrors S image a ip [b] σ)
    (hA : a.Hosts S image l room)
    (hcode : image.Lies l ip (Emission.branchOn value label :: rest)) (hmark : l.Marks label target) :
    (m.tick natives).Mirrors S image a (if (b != 0) == value then target else ip + recordSize) []
      σ := by
  have hlaid := (h.runs.loaded hA.proper hA.within hcode).laid
  rw [tick_branchOn hlaid hmark h.tops]
  have hmoved (address : Int) : ((m.popped (1 : Nat)).jumped address).Mirrors S image a address [] σ :=
    mirrors_nil (h.runs.moved le_rfl address) hA h.shows
  split
  · exact hmoved target
  · rw [← h.runs.ip]
    exact hmoved (m.ip + recordSize)

end Machine

/-! ## Expressions -/

namespace Expr

variable {Γ : Env} {S : Setting} {ctx : EmissionContext} {z : EmissionState} {e : Expr}
  {read : Place → Nat → List UInt8} {τ : Shape} {code : List Piece} {m : Machine}
  {natives : Natives} {l : Link}

/-- The places that an expression reads are within reach. -/
theorem Typed.has_reads (hS : S.Fits Γ) (h : e.Typed Γ) {x : Place × Nat}
    (hx : x ∈ e.reads S.ctx) : S.Has x.1 x.2 := by
  -- what a name or a member reads is the place it stands for
  have place {e : Expr} (he : e.Typed Γ) (hx : x ∈ ((S.ctx.place? e).bind fun place =>
      (S.ctx.size? e.info).map fun n => (place, n)).toList) : S.Has x.1 x.2 := by
    obtain ⟨place, hplace, hx⟩ := Option.bind_eq_some_iff.1 (Option.mem_toList.1 hx)
    obtain ⟨n, hn, rfl⟩ := Option.map_eq_some_iff.1 hx
    obtain ⟨k, hk, hhas⟩ := hS.has_place he hplace
    obtain rfl := Option.some.inj (hk.symm.trans hn)
    exact hhas
  induction e using Expr.induct with
  | name i title decl => exact place h hx
  | member i target field decl _ => exact place h hx
  | unary i op operand ih => exact ih h.1 hx
  | cast i operand ih => exact ih h.1 hx
  | binary i op left right ihl ihr =>
    obtain hx | hx := List.mem_append.1 hx
    · exact ihr h.2.1 hx
    · exact ihl h.1 hx
  | literal | call | pointer => cases hx

/-- An expression that is no value is a place. -/
theorem Typed.exists_place (h : e.Typed Γ) (hp : e.isPlain = true) (hτ : Γ.shape e.info = some τ)
    (hval : τ.isValue = false) (hcode : e.Loads ctx z code) :
    (∀ i o, e ≠ .unary i .plus o) ∧ ∃ kind n place, ctx.Types e kind n ∧
      ctx.place? e = some place ∧ code = [.op (place.load n)] ∧ (place, n) ∈ e.reads ctx := by
  have absurd_of {σ : Shape} (hσ : Γ.shape e.info = some σ) (hvalue : σ.isValue = true) : False := by
    obtain rfl := Option.some.inj (hσ.symm.trans hτ)
    rw [hvalue] at hval
    cases hval
  -- the code of a name or a member loads what lies at its place
  have place {e' : Expr} (he : e' = e) (hplus : ∀ i o, e' ≠ .unary i .plus o)
      (hreads : e'.reads ctx = ((ctx.place? e').bind fun place =>
        (ctx.size? e'.info).map fun n => (place, n)).toList)
      (hload : ∃ kind n place, ctx.Types e' kind n ∧ ctx.place? e' = some place ∧
        code = [.op (place.load n)]) :
      (∀ i o, e ≠ .unary i .plus o) ∧ ∃ kind n place, ctx.Types e kind n ∧
        ctx.place? e = some place ∧ code = [.op (place.load n)] ∧ (place, n) ∈ e.reads ctx := by
    subst he
    obtain ⟨kind, n, place, ht, hplace, hload⟩ := hload
    refine ⟨hplus, kind, n, place, ht, hplace, hload, ?_⟩
    rw [hreads, hplace, Option.bind_some, ht.size?_eq]
    exact List.mem_singleton_self _
  match e, h, hp, hcode with
  | .literal i v, ⟨σ, hσ, hfit⟩, _, _ =>
    exact (absurd_of hσ (Literal.isValue_of_fits hfit)).elim
  | .name i title (some (.constant k)), ⟨σ, v, hσ, _, hfit⟩, _, _ =>
    exact (absurd_of hσ (Literal.isValue_of_fits hfit)).elim
  | .name i title none, h, _, _ => exact h.elim
  | .name i title (some (.localVar k)), _, _, hcode => exact place rfl (by simp) rfl hcode
  | .name i title (some (.argument k)), _, _, hcode => exact place rfl (by simp) rfl hcode
  | .name i title (some (.dataField k)), _, _, hcode => exact place rfl (by simp) rfl hcode
  | .member i target field decl, _, _, hcode => exact place rfl (by simp) rfl hcode
  | .unary i op operand, ⟨_, σ, _, hop, hσ⟩, _, _ =>
    exact (absurd_of hσ (Shape.isValue_of_takes hop)).elim
  | .binary i op left right, ⟨_, _, a, b, c, _, _, hop, hσ⟩, _, _ =>
    exact (absurd_of hσ (Shape.isValue_of_binary hop).2.2).elim
  | .cast i operand, ⟨_, _, σ, τ', _, hσ, hconv⟩, _, _ =>
    exact (absurd_of hσ (Shape.isValue_of_converts hconv).2).elim

/-- What the code of an expression does: it pushes the expression's bytes, or it divides by zero
where the expression does. -/
theorem Typed.computes (natives : Natives) (hΓ : Γ.For ctx) (he : e.Typed Γ)
    (hp : e.isPlain = true) (hτ : Γ.shape e.info = some τ) (hcode : e.Loads ctx z code)
    (hm : m.Ready) (hlaid : l.Laid m.memory m.ip code)
    (hapart : m.ip + Piece.size code ≤ m.limit ∨ m.sp ≤ m.ip)
    (hsees : m.Sees l z read (e.reads ctx)) (hroom : m.HasRoom (e.room ctx)) :
    (∃ data, e.bytes ctx read = .ok data ∧ ctx.size? e.info = some data.length ∧
      m.Pushes (m.run natives (Piece.count code)) (Piece.count code) data) ∨
    e.bytes ctx read = .error .divisionByZero ∧
      (m.run natives (Piece.count code)).event = .halted (.fault .divisionByZero) := by
  by_cases hval : τ.isValue = true
  · have hrun : m.Delivers natives (Piece.count code) _ :=
      he.runs hΓ hp hτ hval hcode hm hlaid hapart hsees hroom
    obtain ⟨v, data, hy⟩ | hd := he.yields_or_divides hΓ hp hτ hval hcode hsees.length
      (hm.room_lt hroom)
    · exact .inl ⟨data, hy.bytes, hy.length, hrun.ok data hy.bytes⟩
    · exact .inr ⟨hd.bytes, hrun.error hd.bytes⟩
  · obtain ⟨hplus, kind, n, place, ht, hplace, rfl, hmem⟩ :=
      he.exists_place hp hτ (Bool.eq_false_iff.2 hval) hcode
    have hn := ht.size?_eq
    have hbytes : e.bytes ctx read = .ok (read place n) := by
      unfold Expr.bytes
      split
      next i o => exact absurd rfl (hplus i o)
      next => simp only [hplace, hn]
    have hwidth : m.HasRoom ((ctx.size? e.info).getD 0 : Nat) := by
      rw [hn, Option.getD_some]
      exact hroom.mono (he.size_le_room hΓ hτ hn)
    have hrun : m.Delivers natives 1 _ :=
      Expr.delivers_place ht hplace hplus hm hlaid hsees hmem hwidth
    have hlength : ctx.size? e.info = some (read place n).length := by
      rw [hn, hsees.length place n hmem]
    exact .inl ⟨_, hbytes, hlength, hrun.ok _ hbytes⟩

end Expr

namespace Machine

variable {Γ : Env} {S : Setting} {image : Image} {l : Link} {a : Activation} {room : Nat}
  {m : Machine} {ip : Int} {σ : Store} {natives : Natives} {place : Place} {n : Nat} {e : Expr}
  {τ : Shape} {code rest : List Piece} {label : Label} {target : Int}

/-- A machine sees the bytes of the store that it mirrors. -/
theorem Mirrors.sees {top : List UInt8} (h : m.Mirrors S image a ip top σ)
    (hA : a.Hosts S image l room)
    (hcode : image.Lies l ip code) {places : List (Place × Nat)}
    (hplaces : ∀ x ∈ places, S.Has x.1 x.2) : m.Sees l S.state σ.read places := by
  have hsees := (h.runs.loaded hA.proper hA.within hcode).sees fun x hx =>
    h.reaches hA (hplaces x hx)
  refine ⟨hsees.texts, fun p n _ => σ.length_read p n, hsees.fits, fun p n hx => ?_⟩
  have hreaches : m.Reaches l p n := h.reaches hA (hplaces (p, n) hx)
  have hsize := Memory.top_le_size m.memory
  have hbase := hA.within.links.dynamicBase
  have hlow := hreaches.nonneg
  have hhigh := hreaches.le_top
  have hapart := hreaches.apart
  rw [h.runs.lp, hbase] at hlow hhigh hapart ⊢
  exact ⟨h.shows.has (hplaces (p, n) hx) hlow (by omega), by rwa [Store.length_read]⟩

/-- What the code of an expression makes of a machine: it has pushed the expression's bytes, or it
has divided by zero where the expression does. -/
theorem Mirrors.computes (natives : Natives) (h : m.Mirrors S image a ip [] σ)
    (hA : a.Hosts S image l room) (hS : S.Fits Γ) (he : e.Typed Γ) (hp : e.isPlain = true)
    (hτ : Γ.shape e.info = some τ) (hcode : e.Loads S.ctx S.state code)
    (hlies : image.Lies l ip code) (hroom : e.room S.ctx ≤ room) :
    (∃ data, e.bytes S.ctx σ.read = .ok data ∧ S.ctx.size? e.info = some data.length ∧
      (m.run natives (Piece.count code)).Mirrors S image a (ip + Piece.size code) data σ) ∨
    e.bytes S.ctx σ.read = .error .divisionByZero ∧
      (m.run natives (Piece.count code)).event = .halted (.fault .divisionByZero) := by
  have hready := h.runs.ready hA.proper hA.within
  have hloaded := h.runs.loaded hA.proper hA.within hlies
  have hsees := h.sees hA hlies fun x hx => he.has_reads hS hx
  have hm : m.HasRoom (e.room S.ctx) := h.hasRoom hA hroom
  obtain ⟨data, hbytes, hn, hpush⟩ | hdivides :=
    he.computes natives hS.env hp hτ hcode hready hloaded.laid hloaded.apart hsees hm
  · exact .inl ⟨data, hbytes, hn, h.pushes hA hpush (hm.mono (he.size_le_room hS.env hτ hn))⟩
  · exact .inr hdivides

/-- The code of a condition pushes a byte that says whether the condition is true. -/
theorem Mirrors.tests (natives : Natives) (h : m.Mirrors S image a ip [] σ)
    (hA : a.Hosts S image l room) (hS : S.Fits Γ) (he : e.Typed Γ) (hp : e.isPlain = true)
    (hτ : Γ.shape e.info = some (.scalar .boolean)) (hcode : e.Loads S.ctx S.state code)
    (hlies : image.Lies l ip code) (hroom : e.room S.ctx ≤ room) :
    (∃ b : UInt8, e.holds S.ctx σ = .ok (b != 0) ∧
      (m.run natives (Piece.count code)).Mirrors S image a (ip + Piece.size code) [b] σ) ∨
    e.holds S.ctx σ = .error .divisionByZero ∧
      (m.run natives (Piece.count code)).event = .halted (.fault .divisionByZero) := by
  have hcomputes := h.computes natives hA hS he hp hτ hcode hlies hroom
  obtain ⟨v, data, hy⟩ | hd := he.yields_or_divides hS.env hp hτ rfl hcode
    (h.sees hA hlies fun x hx => he.has_reads hS hx).length (hroom.trans_lt hA.room_lt)
  · obtain ⟨data', hdata, hlength, hrun⟩ | ⟨hdiv, -⟩ := hcomputes
    · obtain rfl := Except.ok.inj (hdata.symm.trans hy.bytes)
      have hsize : S.ctx.size? e.info = some 1 := hS.env.size?_eq hτ
      obtain ⟨b, rfl⟩ := List.length_eq_one_iff.1 (Option.some.inj (hlength.symm.trans hsize))
      obtain rfl : .boolean (b != 0) = v := Except.ok.inj hy.decode
      refine .inl ⟨b, ?_, hrun⟩
      simp only [Expr.holds, hy.eval]
      rfl
    · rw [hy.bytes] at hdiv
      cases hdiv
  · obtain ⟨data', hdata, -⟩ | ⟨-, hrun⟩ := hcomputes
    · rw [hd.bytes] at hdata
      cases hdata
    · refine .inr ⟨?_, hrun⟩
      simp only [Expr.holds, hd.eval]
      rfl

/-! ## Parts of a function -/

/-- What a machine does while a part of a function comes to something, the code of the part ending
at an address.  If the part is not done, the machine still runs after as many steps as there was
fuel. -/
def Follows (m : Machine) (natives : Natives) (S : Setting) (image : Image) (a : Activation)
    (ip : Int) (fuel : Nat) : Completion → Prop
  | .next σ => ∃ k, (m.run natives k).Mirrors S image a ip [] σ
  | .returned σ => ∃ k, (m.run natives k).event = .halted .stopped ∧
      (m.run natives k).memory.size = a.memory.size ∧
        (m.run natives k).memory.Shows S a.lp image.dynamicBase σ
  | .faulted f => f = .divisionByZero ∧ ∃ k, (m.run natives k).event = .halted (.fault f)
  | .unfinished => ∃ k, fuel ≤ k ∧ (m.run natives k).event = .running

variable {k fuel fuel' : Nat} {ip' : Int} {c : Completion} {f : Store → Completion}
  {data : List UInt8} {i : Instruction}

/-- A machine that follows after some steps follows, and these steps count. -/
theorem Follows.of_run (h : (m.run natives k).Follows natives S image a ip fuel c) :
    m.Follows natives S image a ip (k + fuel) c := by
  cases c with
  | next σ =>
    obtain ⟨j, hrun⟩ := h
    exact ⟨k + j, by rwa [run_add]⟩
  | returned σ =>
    obtain ⟨j, hrun⟩ := h
    exact ⟨k + j, by rwa [run_add]⟩
  | faulted e =>
    obtain ⟨hdiv, j, hrun⟩ := h
    exact ⟨hdiv, k + j, by rwa [run_add]⟩
  | unfinished =>
    obtain ⟨j, hj, hrun⟩ := h
    exact ⟨k + j, by omega, by rwa [run_add]⟩

theorem Follows.mono (h : m.Follows natives S image a ip fuel c) (hle : fuel' ≤ fuel) :
    m.Follows natives S image a ip fuel' c := by
  cases c with
  | next σ | returned σ | faulted e => exact h
  | unfinished =>
    obtain ⟨j, hj, hrun⟩ := h
    exact ⟨j, hle.trans hj, hrun⟩

/-- Parts of a function follow one after the other. -/
theorem Follows.andThen (h : m.Follows natives S image a ip fuel c)
    (hf : ∀ (m' : Machine) σ, m'.Mirrors S image a ip [] σ →
      m'.Follows natives S image a ip' fuel (f σ)) :
    m.Follows natives S image a ip' fuel (c.andThen f) := by
  cases c with
  | next σ =>
    obtain ⟨j, hrun⟩ := h
    exact (hf _ σ hrun).of_run.mono (Nat.le_add_left fuel j)
  | returned σ | faulted e | unfinished => exact h

/-- **A condition decides where a machine goes on**, and the branch that looks at it takes a step. -/
theorem Mirrors.decides (natives : Natives) (h : m.Mirrors S image a ip [] σ)
    (hA : a.Hosts S image l room) (hS : S.Fits Γ) (he : e.Typed Γ) (hp : e.isPlain = true)
    (hτ : Γ.shape e.info = some (.scalar .boolean)) (hcode : e.Loads S.ctx S.state code)
    (hlies : image.Lies l ip code) (hroom : e.room S.ctx ≤ room) {value : Bool}
    (hbranch : image.Lies l (ip + Piece.size code) (Emission.branchOn value label :: rest))
    (hmark : l.Marks label target) {f : Bool → Completion}
    (hf : ∀ (m' : Machine) b, m'.Mirrors S image a
      (if b == value then target else ip + Piece.size code + recordSize) [] σ →
        m'.Follows natives S image a ip' fuel (f b)) :
    m.Follows natives S image a ip' (fuel + 1) (.given (e.holds S.ctx σ) f) := by
  obtain ⟨b, hb, hrun⟩ | ⟨hdiv, hrun⟩ := h.tests natives hA hS he hp hτ hcode hlies hroom
  · have hnext := hrun.branch natives hA hbranch hmark
    rw [← hrun.run_one natives, ← run_add] at hnext
    rw [hb]
    exact (hf _ _ hnext).of_run.mono (by omega)
  · rw [hdiv]
    exact ⟨rfl, _, hrun⟩

/-- **The value of an expression is put at a place.** -/
theorem Mirrors.puts (natives : Natives) (h : m.Mirrors S image a ip [] σ)
    (hA : a.Hosts S image l room) (hS : S.Fits Γ) (he : e.Typed Γ) (hp : e.isPlain = true)
    (hτ : Γ.shape e.info = some τ) (hcode : e.Loads S.ctx S.state code)
    (hlies : image.Lies l ip code) (hroom : e.room S.ctx ≤ room)
    (hstore : image.Lies l (ip + Piece.size code) (.op (place.store n) :: rest))
    (hn : S.ctx.size? e.info = some n) (hplace : S.Has place n) (fuel : Nat) :
    m.Follows natives S image a (ip + Piece.size code + recordSize) fuel
      (e.put S.ctx (some place) σ) := by
  obtain ⟨data, hdata, hlength, hrun⟩ | ⟨hdiv, hrun⟩ :=
    h.computes natives hA hS he hp hτ hcode hlies hroom
  · obtain rfl : data.length = n := Option.some.inj (hlength.symm.trans hn)
    have hnext := hrun.store natives hA hstore hplace
    rw [← hrun.run_one natives, ← run_add] at hnext
    rw [Expr.put, hdata]
    exact ⟨_, hnext⟩
  · rw [Expr.put, hdiv]
    exact ⟨rfl, _, hrun⟩

/-- **The end of a function called from outside ends the machine**, and nothing is written. -/
theorem Mirrors.leaves (natives : Natives) (h : m.Mirrors S image a ip [] σ)
    (hA : a.Hosts S image l room) (hlies : image.Lies l ip (Emission.leave S.ctx ++ rest))
    (ip' : Int) (fuel : Nat) : m.Follows natives S image a ip' fuel (.returned σ) := by
  rw [Emission.leave, ← hA.frame.locals] at hlies
  have hleave := h.runs.tick_leave natives hA.proper hA.within hlies
  have hret := h.runs.tick_ret natives hA.proper hlies.tail
  have hended : m.ended a = { m.returned a with event := .halted .stopped } := if_pos hA.outermost
  have hrun : m.run natives 2 = m.ended a := by
    have hclosed : (m.closed a (ip + recordSize)).event = .running := h.runs.running
    rw [run_succ h.runs.running, hleave, run_succ hclosed, hret]
    rfl
  refine ⟨2, ?_, ?_, ?_⟩ <;> rw [hrun, hended]
  · exact h.runs.same.size
  · exact h.shows

/-! ### Variables -/

/-- Known bytes are pushed and put at a place. -/
theorem Mirrors.fills (natives : Natives) (h : m.Mirrors S image a ip [] σ)
    (hA : a.Hosts S image l room) (htick : m.tick natives = m.answered data)
    (hroom : data.length ≤ room)
    (hlies : image.Lies l ip (.op i :: .op (place.store data.length) :: rest))
    (hplace : S.Has place data.length) :
    (m.run natives 2).Mirrors S image a (ip + recordSize + recordSize) [] (σ.write place data) := by
  have hready := h.runs.ready hA.proper hA.within
  have hm : m.HasRoom data.length := h.hasRoom hA hroom
  have hpush := h.pushes hA (hready.pushes_answered hm) hm
  rw [← htick] at hpush
  have hstore := hpush.store natives hA hlies.tail hplace
  rw [run_succ h.runs.running, hpush.run_one natives]
  exact hstore

/-- Two instructions lie one behind the other. -/
theorem add_size_two (ip : Int) (i j : Instruction) :
    ip + Piece.size [.op i, .op j] = ip + recordSize + recordSize := by
  simp only [Piece.size_op, Piece.size_nil]
  push_cast
  ring

/-- Empty records are written into the strings of a variable, one after the other. -/
theorem Mirrors.fills_strings (natives : Natives) (hA : a.Hosts S image l room) {base : Int}
    {strings : List (Nat × Nat)} {records : List (List Piece)}
    (hrecords : List.Forall₂ (fun r pieces => ∃ x, S.state.Text "" r.2 x ∧
      pieces = [Piece.op (.load .global (Word.size32 (stringSize r.2)) x),
        .op ((Place.frame (base + r.1)).store (stringSize r.2))]) strings records)
    (hplaces : ∀ r ∈ strings, S.Has (.frame (base + r.1)) (stringSize r.2))
    (hroom : ∀ r ∈ strings, stringSize r.2 ≤ room) (h : m.Mirrors S image a ip [] σ)
    (hlies : image.Lies l ip records.flatten) :
    ∃ k, (m.run natives k).Mirrors S image a (ip + Piece.size records.flatten) []
      (strings.foldl
        (fun σ r => σ.write (.frame (base + r.1)) (encodeString [] (stringSize r.2))) σ) := by
  induction hrecords generalizing m ip σ with
  | nil => exact ⟨0, by simpa [Machine.run] using h⟩
  | @cons r pieces strings records hr _ ih =>
    obtain ⟨x, hx, rfl⟩ := hr
    obtain ⟨hplace, hplaces⟩ := List.forall_mem_cons.1 hplaces
    obtain ⟨hle, hroom⟩ := List.forall_mem_cons.1 hroom
    have hlen : (encodeString [] (stringSize r.2)).length = stringSize r.2 := by
      rw [length_encodeString, max_eq_left (stringHeader_le_stringSize r.2)]
    rw [List.flatten_cons] at hlies ⊢
    have hfirst := hlies.left
    have htick := h.runs.tick_text natives hA.proper hA.within hx hfirst
    rw [← hlen] at hfirst hplace
    have hrun := h.fills natives hA htick (hlen.le.trans hle) hfirst hplace
    have hlater := hlies.right
    rw [add_size_two] at hlater
    obtain ⟨k, hk⟩ := ih hplaces hroom hrun hlater
    refine ⟨2 + k, ?_⟩
    rw [run_add, Piece.size_append, Nat.cast_add, ← add_assoc, add_size_two]
    exact hk

/-- A variable is filled with zeros. -/
theorem Mirrors.fills_zeros (natives : Natives) (h : m.Mirrors S image a ip [] σ)
    (hA : a.Hosts S image l room) {offset : Int} (hhas : S.Has (.frame offset) n) (hroom : n ≤ room)
    (hlies : image.Lies l ip
      (Emission.loadZeros n :: .op ((Place.frame offset).store n) :: rest)) :
    (m.run natives 2).Mirrors S image a (ip + recordSize + recordSize) []
      (σ.write (.frame offset) (List.replicate n 0)) := by
  have hlen : (List.replicate n (0 : UInt8)).length = n := List.length_replicate
  obtain ⟨x0, x1, x2, h0, h1, h2, hat⟩ := (h.runs.laid hA.proper hA.within hlies).at
  obtain rfl : Word.size32 n = x0 := Except.ok.inj h0
  have htick : m.tick natives = m.answered (List.replicate n 0) :=
    tick_loadZero (h.runs.ready hA.proper hA.within) hat
      (Word.toInt_size32 (hroom.trans_lt hA.room_lt))
  rw [Emission.loadZeros] at hlies
  rw [← hlen] at hhas
  exact h.fills natives hA htick (hlen.le.trans hroom) (by rwa [hlen]) hhas

/-- **A variable gets its first value.** -/
theorem Mirrors.clears (natives : Natives) (h : m.Mirrors S image a ip [] σ)
    (hA : a.Hosts S image l room) (hS : S.Fits Γ) {index : Nat}
    (hcode : S.ctx.Initialises S.state index code) (hlies : image.Lies l ip code)
    (hroom : S.ctx.localSize index ≤ room) :
    ∃ k, (m.run natives k).Mirrors S image a (ip + Piece.size code) [] (S.ctx.cleared σ index) := by
  obtain ⟨v, t, n, zeros, records, hv, ht, hn, hzeros, hrecords, rfl⟩ := hcode
  obtain ⟨n', hn', hhas⟩ := hS.locals index v hv
  rw [ht, Option.bind_some, hn] at hn'
  obtain rfl := Option.some.inj hn'
  have hsize : S.ctx.localSize index = n := by
    simp [EmissionContext.localSize, hv, ht, hn]
  rw [hsize] at hroom
  have hcleared : S.ctx.cleared σ index = (S.ctx.program.strings t).foldl
      (fun σ r => σ.write (.frame (v.offset + r.1)) (encodeString [] (stringSize r.2)))
      (σ.write (.frame v.offset) (List.replicate n 0)) := by
    simp [EmissionContext.cleared, hv, ht, hn]
  have hplaces : ∀ r ∈ S.ctx.program.strings t,
      S.Has (.frame (v.offset + r.1)) (stringSize r.2) :=
    fun r hr => hhas.plus (hS.strings t n hn r hr)
  have hrooms : ∀ r ∈ S.ctx.program.strings t, stringSize r.2 ≤ room := fun r hr => by
    have := hS.strings t n hn r hr
    omega
  rw [hcleared]
  obtain rfl | ⟨rfl, c, later, hstrings, rfl⟩ := hzeros
  · have hrun := h.fills_zeros natives hA hhas hroom hlies.left
    have hlater := hlies.right
    rw [Emission.loadZeros, add_size_two] at hlater
    obtain ⟨k, hk⟩ := hrun.fills_strings natives hA hrecords hplaces hrooms hlater
    refine ⟨2 + k, ?_⟩
    rw [run_add, Piece.size_append, Nat.cast_add, ← add_assoc, Emission.loadZeros, add_size_two]
    exact hk
  · -- a record that fills the variable leaves nothing of the zeros
    obtain ⟨k, hk⟩ := h.fills_strings natives hA hrecords hplaces hrooms hlies
    refine ⟨k, ?_⟩
    rw [hstrings, List.foldl_cons] at hk ⊢
    have hlen : (List.replicate (stringSize c) (0 : UInt8)).length ≤
        (encodeString [] (stringSize c)).length := by
      rw [List.length_replicate, length_encodeString]
      exact le_max_left _ _
    rw [Nat.cast_zero, add_zero] at hk ⊢
    rw [Store.write_write σ _ hlen]
    exact hk

/-! ### Loops -/

section Loops

variable {condition : Condition} {body test : List Piece} {head exit : Label} {n : Nat}

/-- A body is run, and the machine jumps back for another round, which takes a step. -/
theorem Follows.again (natives : Natives) (hA : a.Hosts S image l room)
    (h : m.Follows natives S image a ip fuel c)
    (hjump : image.Lies l ip (.op (.jump head) :: rest)) (hmark : l.Marks head target)
    (hagain : ∀ (m' : Machine) σ, m'.Mirrors S image a target [] σ →
      m'.Follows natives S image a ip' n (f σ)) (hn : n < fuel) :
    m.Follows natives S image a ip' (n + 1) (c.andThen f) := by
  refine (h.mono hn).andThen fun m' σ' h' => ?_
  have hback := h'.jump natives hA hjump hmark
  rw [← h'.run_one natives] at hback
  exact (hagain _ σ' hback).of_run.mono (by omega)

/-- **A loop without a condition** runs its body again and again. -/
theorem Mirrors.repeats (natives : Natives) (h : m.Mirrors S image a ip [] σ)
    (hA : a.Hosts S image l room)
    (hbody : ∀ (m : Machine) σ, m.Mirrors S image a ip [] σ →
      m.Follows natives S image a (ip + Piece.size body) fuel (f σ))
    (hjump : image.Lies l (ip + Piece.size body) (.op (.jump head) :: rest))
    (hmark : l.Marks head ip) (ip' : Int) (hn : n ≤ fuel) :
    m.Follows natives S image a ip' n (S.ctx.rounds none f n σ) := by
  induction n generalizing m σ with
  | zero => exact ⟨0, le_rfl, h.runs.running⟩
  | succ n ih =>
    exact (hbody m σ h).again natives hA hjump hmark (fun m' σ' h' => ih h' (by omega)) hn

theorem goesOn_post (b : Bool) : (b == !condition.negative) = condition.goesOn b := by
  cases b <;> cases h : condition.negative <;> simp [Condition.goesOn, h]

/-- **A loop that is tested after its body** goes back to it as long as it goes on. -/
theorem Mirrors.repeats_post (natives : Natives) (h : m.Mirrors S image a ip [] σ)
    (hA : a.Hosts S image l room) (hS : S.Fits Γ) (hpost : condition.post = true)
    (he : condition.value.Typed Γ) (hp : condition.value.isPlain = true)
    (hτ : Γ.shape condition.value.info = some (.scalar .boolean))
    (hcode : condition.value.Loads S.ctx S.state test)
    (hroom : condition.value.room S.ctx ≤ room)
    (hbody : ∀ (m : Machine) σ, m.Mirrors S image a ip [] σ →
      m.Follows natives S image a (ip + Piece.size body) fuel (f σ))
    (htest : image.Lies l (ip + Piece.size body) test)
    (hbranch : image.Lies l (ip + Piece.size body + Piece.size test)
      (Emission.branchOn (!condition.negative) head :: rest))
    (hmark : l.Marks head ip) (hn : n ≤ fuel) :
    m.Follows natives S image a (ip + Piece.size body + Piece.size test + recordSize) n
      (S.ctx.rounds (some condition) f n σ) := by
  induction n generalizing m σ with
  | zero => exact ⟨0, le_rfl, h.runs.running⟩
  | succ n ih =>
    rw [EmissionContext.rounds]
    simp only [hpost, if_true]
    refine ((hbody m σ h).mono hn).andThen fun m' σ' h' => ?_
    refine h'.decides natives hA hS he hp hτ hcode htest hroom hbranch hmark fun m'' b h'' => ?_
    rw [goesOn_post] at h''
    cases hb : condition.goesOn b with
    | true =>
      rw [hb, if_pos rfl] at h''
      exact ih h'' (by omega)
    | false =>
      rw [hb, if_neg Bool.false_ne_true] at h''
      exact ⟨0, h''⟩

theorem goesOn_pre (b : Bool) : (b == condition.negative) = !condition.goesOn b := by
  cases b <;> cases h : condition.negative <;> simp [Condition.goesOn, h]

/-- **A loop that is tested before its body** leaves as soon as it does not go on. -/
theorem Mirrors.repeats_pre (natives : Natives) (h : m.Mirrors S image a ip [] σ)
    (hA : a.Hosts S image l room) (hS : S.Fits Γ) (hpre : condition.post = false)
    (he : condition.value.Typed Γ) (hp : condition.value.isPlain = true)
    (hτ : Γ.shape condition.value.info = some (.scalar .boolean))
    (hcode : condition.value.Loads S.ctx S.state test)
    (hroom : condition.value.room S.ctx ≤ room) (htest : image.Lies l ip test)
    (hbranch : image.Lies l (ip + Piece.size test)
      (Emission.branchOn condition.negative exit :: rest)) (hexit : l.Marks exit ip')
    (hbody : ∀ (m : Machine) σ, m.Mirrors S image a (ip + Piece.size test + recordSize) [] σ →
      m.Follows natives S image a (ip + Piece.size test + recordSize + Piece.size body) fuel (f σ))
    {rest' : List Piece}
    (hjump : image.Lies l (ip + Piece.size test + recordSize + Piece.size body)
      (.op (.jump head) :: rest')) (hmark : l.Marks head ip) (hn : n ≤ fuel) :
    m.Follows natives S image a ip' n (S.ctx.rounds (some condition) f n σ) := by
  induction n generalizing m σ with
  | zero => exact ⟨0, le_rfl, h.runs.running⟩
  | succ n ih =>
    rw [EmissionContext.rounds]
    simp only [hpre, Bool.false_eq_true, if_false]
    refine h.decides natives hA hS he hp hτ hcode htest hroom hbranch hexit fun m' b h' => ?_
    rw [goesOn_pre] at h'
    cases hb : condition.goesOn b with
    | true =>
      rw [hb, Bool.not_true, if_neg Bool.false_ne_true] at h'
      exact ((hbody m' σ h').again natives hA hjump hmark (fun m'' σ' h'' => ih h'' (by omega))
        hn).mono (Nat.le_succ n)
    | false =>
      rw [hb, Bool.not_false, if_pos rfl] at h'
      exact ⟨0, h'⟩

end Loops

end Machine

/-! ## Statements -/

section Statements

/-- Once a branch is done, what is left of the `IF` is jumped over, if anything is. -/
theorem Machine.Follows.skip {S : Setting} {image : Image} {l : Link} {a : Activation}
    {room fuel : Nat} {m : Machine} {ip target : Int} {c : Completion} {rest : Branches}
    {exit : Label} (natives : Natives) (hA : a.Hosts S image l room)
    (h : m.Follows natives S image a ip fuel c) (hlies : image.Lies l ip (rest.skip exit))
    (hexit : l.Marks exit target) (hdone : rest.skip exit = [] → target = ip) :
    m.Follows natives S image a target fuel c := by
  have jumped (hskip : rest.skip exit = [.op (.jump exit)]) :
      m.Follows natives S image a target fuel c := by
    rw [hskip] at hlies
    cases c with
    | next σ =>
      obtain ⟨k, hrun⟩ := h
      have hnext := hrun.jump natives hA hlies hexit
      rw [← hrun.run_one natives, ← run_add] at hnext
      exact ⟨_, hnext⟩
    | returned | faulted | unfinished => exact h
  cases rest with
  | done =>
    rw [hdone rfl]
    exact h
  | otherwise | branch => exact jumped rfl

variable {Γ : Env} {S : Setting} {image : Image} {l : Link} {a : Activation} {room fuel : Nat}

mutual

/-- **The code of a statement does what the statement makes of a store.** -/
theorem Stmt.follows (natives : Natives) (hA : a.Hosts S image l room) (hS : S.Fits Γ) :
    (s : Stmt) → {code : List Piece} → {ip : Int} → {m : Machine} → {σ : Store} →
    s.isStructured = true → s.Typed Γ S.ctx.function.returns → s.room S.ctx ≤ room →
    s.Emits S.ctx S.state code → image.Lies l ip code → m.Mirrors S image a ip [] σ →
    m.Follows natives S image a (ip + Piece.size code) fuel (s.exec S.ctx fuel σ)
  | .var _ index none, code, ip, m, σ, _, _, hroom, hcode, hlies, h =>
    h.clears natives hA hS hcode hlies hroom
  | .var _ index (some e), code, ip, m, σ, hp, ⟨he, t, τ, ht, hτt, hτ⟩, hroom,
      ⟨v, t', n, first, hv, ht', hn, hfirst, hcode⟩, hlies, h => by
    obtain ⟨n', hn', hhas⟩ := hS.locals index v hv
    rw [ht', Option.bind_some, hn] at hn'
    obtain rfl := Option.some.inj hn'
    have hsize : S.ctx.size? e.info = some n :=
      (hS.env.size?_eq hτ).trans (hS.declared_size ht hv ht' hτt hn)
    have hplace : S.ctx.declarationPlace? (.localVar index) = some (.frame v.offset) := by
      simp [EmissionContext.declarationPlace?, hv]
    rw [hcode] at hlies ⊢
    have hrun := h.puts natives hA hS he hp hτ hfirst hlies.left hroom hlies.right hsize hhas fuel
    rw [Stmt.exec, hplace]
    simpa [add_assoc] using hrun
  | .assign _ value target, code, ip, m, σ, hp, ⟨hv, ht, _, τ, hτ, hτ'⟩, hroom,
      ⟨first, kind, n, place, hfirst, hn, hplace, hcode⟩, hlies, h => by
    obtain ⟨n', hn', hhas⟩ := hS.has_place ht hplace
    obtain rfl : n' = n := Option.some.inj (hn'.symm.trans hn.size?_eq)
    have hsize : S.ctx.size? value.info = some n' := by
      rw [hS.env.size?_eq hτ, ← hS.env.size?_eq hτ', hn']
    rw [hcode] at hlies ⊢
    have hrun := h.puts natives hA hS hv (Bool.and_eq_true_iff.1 hp).1 hτ hfirst hlies.left hroom
      hlies.right hsize hhas fuel
    rw [Stmt.exec, hplace]
    simpa [add_assoc] using hrun
  | .return _ none, code, ip, m, σ, _, _, _, hcode, hlies, h => by
    have hlies : image.Lies l ip (Emission.leave S.ctx ++ []) := by
      rw [List.append_nil, ← show code = Emission.leave S.ctx from hcode]
      exact hlies
    exact h.leaves natives hA hlies _ fuel
  | .return _ (some e), code, ip, m, σ, hp, ⟨he, t, τ, ht, hτt, hτ⟩, hroom,
      ⟨t', n, first, ht', hn, hfirst, hcode⟩, hlies, h => by
    obtain rfl : t' = t := Option.some.inj (ht'.symm.trans ht)
    obtain rfl : S.result = n := Option.some.inj ((hS.result t' ht').symm.trans hn)
    have hsize : S.ctx.size? e.info = some S.result := by
      rw [TypeTable.size?_eq, ← hS.env.types, hτt, Option.bind_some, hS.env.types] at hn
      exact (hS.env.size?_eq hτ).trans hn
    rw [hcode, List.append_assoc] at hlies
    have hrun := h.puts natives hA hS he hp hτ hfirst hlies.left hroom hlies.right hsize
      hS.has_result fuel
    have hleave : image.Lies l (ip + Piece.size first + recordSize) (Emission.leave S.ctx ++ []) := by
      rw [List.append_nil]
      exact hlies.right.tail
    exact hrun.andThen fun m' σ' h' => h'.leaves natives hA hleave _ fuel
  | .choose _ branches, code, ip, m, σ, hp, ht, hroom, ⟨exit, first, hfirst, hcode⟩, hlies, h => by
    rw [hcode] at hlies ⊢
    have hmark := hlies.right.marks image.has_bytes
    have hrun := Branches.follows natives hA hS branches hp ht hroom hfirst hlies.left hmark rfl h
    rw [Stmt.exec]
    simpa using hrun
  | .loop _ none body, code, ip, m, σ, hp, ⟨_, hb⟩, hroom, ⟨head, exit, bodyCode, hbody, hcode⟩,
      hlies, h => by
    have hroomb : Stmt.roomAll S.ctx body ≤ room := (max_le_iff.1 hroom).2
    have hpb : Stmt.areStructured body = true := hp
    rw [hcode] at hlies ⊢
    have hinner := hlies.left.after_mark
    refine h.repeats natives hA (fun m σ h => Stmt.followsAll natives hA hS body hpb hb hroomb hbody
      hinner h) hlies.right (hlies.left.marks image.has_bytes) _ le_rfl
  | .loop _ (some c) body, code, ip, m, σ, hp, ⟨hc, hb⟩, hroom,
      ⟨head, exit, test, bodyCode, htest, hbody, hcode⟩, hlies, h => by
    obtain ⟨hpc, hpb⟩ := Bool.and_eq_true_iff.1 hp
    obtain ⟨hroomc, hroomb⟩ := max_le_iff.1 hroom
    obtain ⟨hc, hτ⟩ := hc c rfl
    cases hpost : c.post with
    | true =>
      rw [hpost, if_pos rfl] at hcode
      rw [hcode] at hlies ⊢
      have hinner := hlies.left.left.after_mark
      have hbranch := hlies.right
      rw [Piece.size_append, Nat.cast_add, ← add_assoc] at hbranch
      have hrun := h.repeats_post natives hA hS hpost hc hpc hτ htest hroomc
        (fun m σ h => Stmt.followsAll natives hA hS body hpb hb hroomb hbody hinner h)
        hlies.left.right hbranch (hlies.left.left.marks image.has_bytes) le_rfl
      rw [Stmt.exec]
      simpa [Emission.branchOn, add_assoc] using hrun
    | false =>
      rw [hpost, if_neg Bool.false_ne_true] at hcode
      rw [hcode] at hlies ⊢
      have hinner : image.Lies l (ip + Piece.size test + recordSize) bodyCode := by
        simpa [Emission.branchOn, add_assoc] using hlies.left.right
      have hend : image.Lies l (ip + Piece.size test + recordSize + Piece.size bodyCode)
          [.op (.jump head), .mark exit] := by
        simpa [Emission.branchOn, add_assoc] using hlies.right
      have hrun := h.repeats_pre natives hA hS hpost hc hpc hτ htest hroomc
        hlies.left.left.left.after_mark hlies.left.left.right (hend.tail.marks image.has_bytes)
        (fun m σ h => Stmt.followsAll natives hA hS body hpb hb hroomb hbody hinner h) hend
        (hlies.left.left.left.marks image.has_bytes) le_rfl
      rw [Stmt.exec]
      simpa [Emission.branchOn, add_assoc] using hrun
  | .invoke _ call, _, _, _, _, hp, _, _, _, _, _ => by cases hp
  | .count _ _ _ _ _ _ _, _, _, _, _, hp, _, _, _, _, _ => by cases hp

theorem Stmt.followsAll (natives : Natives) (hA : a.Hosts S image l room) (hS : S.Fits Γ) :
    (ss : List Stmt) → {code : List Piece} → {ip : Int} → {m : Machine} → {σ : Store} →
    Stmt.areStructured ss = true → Stmt.TypedAll Γ S.ctx.function.returns ss →
    Stmt.roomAll S.ctx ss ≤ room → Stmt.EmitsAll S.ctx S.state code ss → image.Lies l ip code →
    m.Mirrors S image a ip [] σ →
    m.Follows natives S image a (ip + Piece.size code) fuel (Stmt.execAll S.ctx fuel ss σ)
  | [], code, ip, m, σ, _, _, _, hcode, _, h => by
    obtain rfl : code = [] := hcode
    exact ⟨0, by simpa [Machine.run] using h⟩
  | s :: rest, code, ip, m, σ, hp, ⟨hs, hrest⟩, hroom, ⟨first, later, hfirst, hlater, hcode⟩, hlies,
      h => by
    obtain ⟨hps, hprest⟩ := Bool.and_eq_true_iff.1 hp
    obtain ⟨hrooms, hroomrest⟩ := max_le_iff.1 hroom
    rw [hcode] at hlies ⊢
    rw [Piece.size_append, Nat.cast_add, ← add_assoc]
    exact (Stmt.follows natives hA hS s hps hs hrooms hfirst hlies.left h).andThen fun m' σ' h' =>
      Stmt.followsAll natives hA hS rest hprest hrest hroomrest hlater hlies.right h'

theorem Branches.follows (natives : Natives) (hA : a.Hosts S image l room) (hS : S.Fits Γ)
    {exit : Label} {target : Int} : (b : Branches) → {code : List Piece} → {ip : Int} →
    {m : Machine} → {σ : Store} → b.isStructured = true → b.Typed Γ S.ctx.function.returns →
    b.room S.ctx ≤ room → b.Emits S.ctx S.state exit code → image.Lies l ip code →
    l.Marks exit target → target = ip + Piece.size code → m.Mirrors S image a ip [] σ →
    m.Follows natives S image a target fuel (b.exec S.ctx fuel σ)
  | .done, code, ip, m, σ, _, _, _, hcode, _, _, htarget, h => by
    obtain rfl : code = [] := hcode
    exact ⟨0, by simpa [Machine.run, htarget] using h⟩
  | .otherwise body, code, ip, m, σ, hp, ht, hroom, hcode, hlies, _, htarget, h => by
    rw [htarget]
    exact Stmt.followsAll natives hA hS body hp ht hroom hcode hlies h
  | .branch condition body rest, code, ip, m, σ, hp, ⟨⟨hc, hτ⟩, hb, hr⟩, hroom,
      ⟨next, test, bodyCode, others, htest, hbody, hothers, hcode⟩, hlies, hexit, htarget, h => by
    rw [Branches.isStructured, Bool.and_eq_true, Bool.and_eq_true] at hp
    obtain ⟨⟨hpc, hpb⟩, hpr⟩ := hp
    obtain ⟨hroomc, hroombr⟩ := max_le_iff.1 hroom
    obtain ⟨hroomb, hroomr⟩ := max_le_iff.1 hroombr
    rw [hcode] at hlies htarget
    have hinner : image.Lies l (ip + Piece.size test + recordSize) bodyCode := by
      simpa [Emission.branchOn, add_assoc] using hlies.left.left.left.right
    have hskip : image.Lies l (ip + Piece.size test + recordSize + Piece.size bodyCode)
        (rest.skip exit) := by
      simpa [Emission.branchOn, add_assoc] using hlies.left.left.right
    have hnext : image.Lies l (ip + Piece.size test + recordSize + Piece.size bodyCode +
        Piece.size (rest.skip exit)) [.mark next] := by
      simpa [Emission.branchOn, add_assoc] using hlies.left.right
    have hlater : image.Lies l (ip + Piece.size test + recordSize + Piece.size bodyCode +
        Piece.size (rest.skip exit)) others := by
      simpa [Emission.branchOn, add_assoc] using hlies.right
    have hend : target = ip + Piece.size test + recordSize + Piece.size bodyCode +
        Piece.size (rest.skip exit) + Piece.size others := by
      simpa [Emission.branchOn, add_assoc] using htarget
    refine (h.decides natives hA hS hc hpc hτ htest hlies.left.left.left.left.left hroomc
      hlies.left.left.left.left.right (hnext.marks image.has_bytes) fun m' b h' => ?_).mono
        (Nat.le_succ fuel)
    cases b with
    | false => exact Branches.follows natives hA hS rest hpr hr hroomr hothers hlater hexit hend h'
    | true =>
      have hrun := Stmt.followsAll natives hA hS body hpb hb hroomb hbody hinner h'
      exact hrun.skip natives hA hskip hexit fun hskip => by
        cases rest with
        | done =>
          obtain rfl : others = [] := hothers
          rw [hend]
          simp [Branches.skip]
        | otherwise | branch => cases hskip

end

end Statements

end ChannelBasic
