import ChannelBasic.Proofs.Execution.Expressions
import ChannelBasic.Proofs.Typing.Nodes

/-!
# Proofs/Execution/Computation — expressions of analysed programs are computed

An analysed program has the right types, so the code that is emitted for one of its expressions
**pushes the expression's value, or divides by zero where the expression does**
(`Program.load_computes_value`).  What the code needs of a machine is said by `Machine.Loaded` and
`Machine.Reaches`; what the expression reads is read from that machine.
-/

namespace ChannelBasic

open Code

namespace Machine

variable {m : Machine} {l : Link} {s : EmissionState} {code : List Piece} {place : Place} {n : Nat}

/-- The bytes that a machine has at a place. -/
def bytesAt (m : Machine) (l : Link) (place : Place) (n : Nat) : List UInt8 :=
  (m.memory.read (place.address m.lp l.dynamicBase.toInt) n).toOption.getD []

/-- A place can be reached by an instruction's operand, and lies inside the memory and not in the
free part of the stack. -/
structure Reaches (m : Machine) (l : Link) (place : Place) (n : Nat) : Prop where
  offset : Word.fits32 place.offset = true
  nonneg : 0 ≤ place.address m.lp l.dynamicBase.toInt
  le_top : place.address m.lp l.dynamicBase.toInt + n ≤ m.memory.top
  apart : place.address m.lp l.dynamicBase.toInt + n ≤ m.limit ∨
    m.sp ≤ place.address m.lp l.dynamicBase.toInt

instance (m : Machine) (l : Link) (place : Place) (n : Nat) : Decidable (m.Reaches l place n) :=
  decidable_of_iff (Word.fits32 place.offset = true ∧ 0 ≤ place.address m.lp l.dynamicBase.toInt ∧
    place.address m.lp l.dynamicBase.toInt + n ≤ m.memory.top ∧
    (place.address m.lp l.dynamicBase.toInt + n ≤ m.limit ∨
      m.sp ≤ place.address m.lp l.dynamicBase.toInt))
    ⟨fun h => ⟨h.1, h.2.1, h.2.2.1, h.2.2.2⟩, fun h => ⟨h.1, h.2, h.3, h.4⟩⟩

/-- Code lies at the instruction pointer, and the texts handed out lie where its operands say, none
of them in the free part of the stack. -/
structure Loaded (m : Machine) (l : Link) (s : EmissionState) (code : List Piece) : Prop where
  laid : l.Laid m.memory m.ip code
  apart : m.ip + Piece.size code ≤ m.limit ∨ m.sp ≤ m.ip
  texts : ∀ t ∈ s.static.texts, m.Keeps (l.staticBase + Int32.ofNat t.offset).toInt t.record

/-- What lies at a place within reach. -/
theorem Reaches.keeps (h : m.Reaches l place n) : (m.bytesAt l place n).length = n ∧
    m.Keeps (place.address m.lp l.dynamicBase.toInt) (m.bytesAt l place n) := by
  obtain ⟨data, hlen, hhas⟩ := Memory.exists_has h.nonneg (h.le_top.trans m.memory.top_le_size)
  have hbytes : m.bytesAt l place n = data := by
    rw [bytesAt, hhas.read (by rw [hlen])]
    rfl
  rw [hbytes]
  exact ⟨hlen, hhas, hlen.symm ▸ h.apart⟩

theorem Loaded.sees (h : m.Loaded l s code) {places : List (Place × Nat)}
    (hp : ∀ x ∈ places, m.Reaches l x.1 x.2) :
    m.Sees l s (m.bytesAt l) places where
  texts := h.texts
  length place n hx := (hp (place, n) hx).keeps.1
  fits place n hx := by
    have h₁ : 0 ≤ place.address m.lp l.dynamicBase.toInt := (hp (place, n) hx).nonneg
    have h₂ : place.address m.lp l.dynamicBase.toInt + n ≤ m.memory.top := (hp (place, n) hx).le_top
    have h₃ := m.memory.top_lt
    refine ⟨(hp (place, n) hx).offset, ?_⟩
    simp only [Word.fits32, Bool.and_eq_true, decide_eq_true_eq]
    omega
  places place n hx := (hp (place, n) hx).keeps.2

end Machine

/-- Operators work on the values of a type whose shape is that of a value. -/
theorem Emission.isOperable_kind (σ : Shape) : isOperable σ.kind = σ.isValue := by
  cases σ with
  | scalar s => cases s <;> rfl
  | _ => rfl

namespace Expr

variable {Γ : Env} {ctx : EmissionContext} {e : Expr} {σ : Shape} {code : List Piece} {m : Machine}
  {natives : Natives} {l : Link} {s s' : EmissionState}

/-- The code emitted for an expression delivers the expression's value. -/
theorem Typed.runs_load (hΓ : Γ.For ctx) (h : e.Typed Γ) (hp : e.isPlain = true)
    (hσ : Γ.shape e.info = some σ) (hval : σ.isValue = true)
    (hcode : (Emission.load ctx e).run s = .ok (code, s')) (hm : m.Ready)
    (hload : m.Loaded l s' code)
    (hplaces : ∀ x ∈ e.reads ctx, m.Reaches l x.1 x.2)
    (hroom : m.HasRoom (e.room ctx)) :
    (∃ v data, e.Yields ctx (m.bytesAt l) σ v data ∧
      m.Pushes (m.run natives (Piece.count code)) (Piece.count code) data) ∨
    (e.Divides ctx (m.bytesAt l) ∧
      (m.run natives (Piece.count code)).event = .halted (.fault .divisionByZero)) := by
  obtain ⟨-, hloads⟩ := Emission.ends_load (C := fun _ => True) e s (fun _ _ _ => trivial) _ _ hcode
  have hloads := hloads s' (.refl s')
  have hsees := hload.sees hplaces
  have hrun : m.Delivers natives (Piece.count code) _ :=
    h.runs hΓ hp hσ hval hloads hm hload.laid hload.apart hsees hroom
  obtain ⟨v, data, hy⟩ | hd := h.yields_or_divides hΓ hp hσ hval hloads hsees.length
    (hm.room_lt hroom)
  · exact .inl ⟨v, data, hy, hrun.ok data hy.bytes⟩
  · exact .inr ⟨hd, hrun.error hd.bytes⟩

end Expr

/-- **The code of an expression computes the expression.**  In an analysed program, the code of an
expression that makes no call and takes no address pushes bytes of the size of the expression's type
that stand for its value, and changes nothing else; or it divides by zero, and does so exactly if
the expression does. -/
theorem Program.load_computes_value {raw : Raw.Program} {p : Program} (hp : analyse raw = .ok p)
    {number : Nat} {f : Function} {body : UserBody} (hf : p.functions[number]? = some f)
    (hbody : f.user? = some body) {e : Expr} (he : e ∈ Stmt.nodesAll body.statements)
    (hplain : e.isPlain = true) {t : TypeId} (ht : e.type? = some t)
    (hval : Emission.isOperable (p.types.valueType t) = true) {fields : List Slot}
    {s s' : EmissionState} {code : List Piece}
    (hcode : (Emission.load ⟨p, f, body, fields⟩ e).run s = .ok (code, s'))
    {m : Machine} (natives : Natives) {l : Link} (hm : m.Ready) (hload : m.Loaded l s' code)
    (hplaces : ∀ x ∈ e.reads ⟨p, f, body, fields⟩, m.Reaches l x.1 x.2)
    (hroom : m.HasRoom (e.room ⟨p, f, body, fields⟩)) :
    (∃ v data, e.eval ⟨p, f, body, fields⟩ (m.bytesAt l) = .ok v ∧
      p.types.size? t = some data.length ∧
      Value.decode (p.types.valueType t) data = .ok v ∧
      m.Pushes (m.run natives (Piece.count code)) (Piece.count code) data) ∨
    (e.eval ⟨p, f, body, fields⟩ (m.bytesAt l) = .error .divisionByZero ∧
      (m.run natives (Piece.count code)).event = .halted (.fault .divisionByZero)) := by
  have hanalysed := analysed_of_analyse hp
  have htyped := Stmt.TypedAll.node _ (hanalysed.typed number f hf body hbody) he
  obtain ⟨σ, hσt⟩ := htyped.exists_shape ht
  have hkind : p.types.valueType t = σ.kind := TypeTable.valueType_eq hσt
  rw [hkind, Emission.isOperable_kind] at hval
  obtain ⟨v, data, hy, hpush⟩ | ⟨hd, hfault⟩ := htyped.runs_load ⟨rfl, rfl⟩ hplain
    (Env.shape_eq_some.2 ⟨t, ht, hσt⟩) hval hcode hm hload hplaces hroom
  · refine .inl ⟨v, data, hy.eval, ?_, hkind ▸ hy.decode, hpush⟩
    have ht' : e.info.type = some t := ht
    simpa only [EmissionContext.size?, ht', Option.bind_some] using hy.length
  · exact .inr ⟨hd.eval, hfault⟩

/-- A module whose function `LESS` takes one from its argument. -/
def Raw.Program.less : Raw.Program :=
  let place : Location := default
  ⟨[], [], [], [⟨place, "M", "NODE", [], [⟨place, [], [⟨place, "LESS", some (.scalar .integer),
    .user [⟨place, "N", .scalar .integer⟩] [.return place
      (some (.binary place .subtract (.name place "N") (.integer place 1)))]⟩]⟩]⟩], []⟩

/-- What `Raw.Program.less` means. -/
def Program.less : Program := (analyse .less).toOption.getD default

theorem Program.analyse_less : analyse .less = .ok less := Checked.eq_ok (by decide +kernel)

/-- The body of `LESS`. -/
def UserBody.less : UserBody := ((Program.less.functions[0]?).getD default).user?.getD default

/-- A machine with the code of `N - 1` at its start, and 42 where `N` lies. -/
def Machine.less : Machine where
  memory := ⟨((Record.of .LOAD 2 0 4 1 0).encode ++ (Record.of .LOAD 1 0 4 8 0).encode ++
    (Record.of .SUB 5 0 4 4 4).encode ++ List.replicate 40 0 ++ Word.ofInt 4 42).toArray⟩
  ip := 0
  sp := 80
  lp := 80
  entrySp := 80
  limit := 48
  event := .running
  printed := #[]

/-- Taking one from 42 gives 41. -/
theorem Program.load_computes_value_less : ∃ data, Value.decode .integer data = .ok (.integral 41) ∧
    Machine.less.Pushes (Machine.less.run .empty 3) 3 data := by
  let f : Function := (less.functions[0]?).getD default
  let e : Expr := (Stmt.nodesAll UserBody.less.statements)[0]?.getD default
  let l : Link := ⟨.empty, 48, 48⟩
  let code : List Piece := [.op (.loadImmediate 4 1), .op (.load .frame 4 (.value 8)),
    .op (.binary .SUB .integer 4 4 4)]
  have hf : less.functions[0]? = some f := (Option.getD_of_ne_none (by decide +kernel) _).symm
  have hb : f.user? = some .less := (Option.getD_of_ne_none (by decide +kernel) _).symm
  have he : e ∈ Stmt.nodesAll UserBody.less.statements :=
    List.mem_of_getElem? (Option.getD_of_ne_none (by decide +kernel) _).symm
  have hcode : (Emission.load ⟨less, f, .less, []⟩ e).run ⟨.empty, .empty, [], []⟩ =
    .ok (code, ⟨.empty, .empty, [], []⟩) := by decide +kernel
  have hload : Machine.less.Loaded l ⟨.empty, .empty, [], []⟩ code :=
    ⟨by decide +kernel, by decide +kernel, by decide +kernel⟩
  have hkind : less.types.valueType 3 = .integer := by decide +kernel
  have heval : e.eval ⟨less, f, .less, []⟩ (Machine.less.bytesAt l) = .ok (.integral 41) := by
    decide +kernel
  have hcomputed := load_computes_value analyse_less hf hb he
    (by decide +kernel) (t := 3) (by decide +kernel) (by decide +kernel) hcode .empty
    ⟨rfl, by decide +kernel, by decide +kernel⟩ hload (by decide +kernel) (by decide +kernel)
  rw [heval, hkind] at hcomputed
  obtain ⟨v, data, hv, -, hdata, hpush⟩ | ⟨hv, -⟩ := hcomputed
  · obtain rfl := Except.ok.inj hv
    exact ⟨data, hdata, hpush⟩
  · cases hv

end ChannelBasic
