import ChannelBasic.Proofs.Execution.Computation
import ChannelBasic.Proofs.Execution.Names
import ChannelBasic.Proofs.Execution.Simulation

/-!
# Proofs/Execution/Frames — what a function finds when it is called

A function looks for its arguments and for the place of its result above the frame pointer, which it
is going to put right below its return address.  **It finds all of them there** (`Machine.Finds`):
each argument where it declares it, and zeros where its result is going to be, whether it is called
by another function (`Program.finds_of_call`), from outside (`Module.finds_of_invoke`), or, if it
takes no arguments, as the function that a module starts with (`Module.finds_of_start`).
-/

namespace ChannelBasic

open Code

/-! ## Values one after the other -/

/-- Values of the types of slots, in the order of the slots. -/
def Slot.Values (t : TypeTable) (slots : List Slot) (values : List (List UInt8)) : Prop :=
  List.Forall₂ (fun slot value => t.size? slot.type = some value.length) slots values

section Slots

variable {t : TypeTable} {low high : Nat} {slots : List Slot} {values : List (List UInt8)}

theorem Slot.Tile.le (h : Slot.Tile t low high slots) : low ≤ high := by
  induction slots generalizing low with
  | nil => exact Nat.le_of_eq h
  | cons slot slots ih =>
    obtain ⟨-, n, -, hrest⟩ := h
    exact (Nat.le_add_right _ _).trans (ih hrest)

theorem Slot.Tile.length_flatten (h : Slot.Tile t low high slots)
    (hv : Slot.Values t slots values) : low + values.flatten.length = high := by
  induction hv generalizing low with
  | nil => exact h
  | cons hn _ ih =>
    obtain ⟨-, n, hn', hrest⟩ := h
    obtain rfl := Option.some.inj (hn'.symm.trans hn)
    rw [List.flatten_cons, List.length_append, ← ih hrest]
    omega

/-- Values that lie one after the other lie where slots that fill the same bytes do. -/
theorem Slot.Tile.has (h : Slot.Tile t low high slots) (hv : Slot.Values t slots values)
    {m : Memory} {base : Int} (hhas : m.Has (base + low) values.flatten) :
    List.Forall₂ (fun slot value => m.Has (base + slot.offset) value) slots values := by
  induction hv generalizing low with
  | nil => exact .nil
  | @cons slot value _ _ hn _ ih =>
    obtain ⟨hlow, n, hn', hrest⟩ := h
    obtain rfl := Option.some.inj (hn'.symm.trans hn)
    rw [List.flatten_cons] at hhas
    refine .cons (hlow ▸ hhas.left) (ih hrest ?_)
    have hlater := hhas.right
    rw [add_assoc] at hlater
    exact_mod_cast hlater

/-- Bytes can be cut into values of slots that fill as many. -/
theorem Slot.Tile.exists_values (h : Slot.Tile t low high slots) (bytes : List UInt8)
    (hlen : low + bytes.length = high) :
    ∃ values, values.flatten = bytes ∧ Slot.Values t slots values := by
  induction slots generalizing low bytes with
  | nil =>
    have hsame : low = high := h
    obtain rfl : bytes = [] := List.length_eq_zero_iff.1 (by omega)
    exact ⟨[], rfl, .nil⟩
  | cons slot slots ih =>
    obtain ⟨-, n, hn, hrest⟩ := h
    have hle := hrest.le
    obtain ⟨values, hflatten, hvalues⟩ := ih hrest (bytes.drop n) (by rw [List.length_drop]; omega)
    refine ⟨bytes.take n :: values, ?_, .cons ?_ hvalues⟩
    · rw [List.flatten_cons, hflatten, List.take_append_drop]
    · rw [hn, List.length_take, min_eq_left (by omega)]

end Slots

/-! ## Arguments -/

/-- The bytes that some expressions come to. -/
def EmissionContext.widthAll (ctx : EmissionContext) (es : List Expr) : Nat :=
  (es.map fun e => ctx.width e.info).sum

/-- The most bytes of the stack that are in use while arguments are computed, the last one first. -/
def EmissionContext.roomAll (ctx : EmissionContext) : List Expr → Nat
  | [] => 0
  | e :: rest => max (ctx.roomAll rest) (ctx.widthAll rest + e.room ctx)

/-- What some expressions come to. -/
def Expr.ComeTo (ctx : EmissionContext) (read : Place → Nat → List UInt8) (es : List Expr)
    (values : List (List UInt8)) : Prop :=
  List.Forall₂ (fun e value => e.bytes ctx read = .ok value ∧
    ctx.size? e.info = some value.length) es values

/-- Code that is empty pushes nothing. -/
theorem Machine.Ready.pushes_nil {m : Machine} (hm : m.Ready) (hroom : m.HasRoom 0) :
    m.Pushes m 0 [] := by
  have hlimit := hm.limit
  unfold Machine.HasRoom at hroom
  exact ⟨hm.running, by simp, by simp, rfl, rfl, rfl, rfl, ⟨rfl, fun _ _ => rfl⟩,
    .nil hm (by omega)⟩

section Arguments

variable {Γ : Env} {ctx : EmissionContext} {z : EmissionState} {read : Place → Nat → List UInt8}
  {m : Machine} {natives : Natives} {l : Link} {es : List Expr} {values : List (List UInt8)}
  {parameters : List TypeId} {bytes : Nat} {code : List Piece}

theorem Expr.ComeTo.length_flatten (h : Expr.ComeTo ctx read es values) :
    values.flatten.length = ctx.widthAll es := by
  induction h with
  | nil => rfl
  | cons h _ ih =>
    rw [List.flatten_cons, List.length_append, ih, EmissionContext.widthAll,
      EmissionContext.widthAll, List.map_cons, List.sum_cons, EmissionContext.width, h.2,
      Option.getD_some]

/-- **The code of arguments pushes them, the first one on top**, or it divides by zero where one of
them does. -/
theorem Expr.TypedAll.computes (natives : Natives) (hΓ : Γ.For ctx)
    (h : Expr.TypedAll Γ parameters es) (hp : ∀ e ∈ es, e.isPlain = true)
    (hcode : Expr.LoadsAll ctx z code bytes es) (hm : m.Ready)
    (hlaid : l.Laid m.memory m.ip code) (hapart : m.ip + Piece.size code ≤ m.limit ∨ m.sp ≤ m.ip)
    (hsees : ∀ e ∈ es, m.Sees l z read (e.reads ctx)) (hroom : m.HasRoom (ctx.roomAll es)) :
    (∃ values, Expr.ComeTo ctx read es values ∧
      m.Pushes (m.run natives (Piece.count code)) (Piece.count code) values.flatten) ∨
    (∃ e ∈ es, e.bytes ctx read = .error .divisionByZero) ∧
      (m.run natives (Piece.count code)).event = .halted (.fault .divisionByZero) := by
  induction es generalizing parameters code bytes with
  | nil =>
    obtain ⟨rfl, -⟩ := hcode
    exact .inl ⟨[], .nil, hm.pushes_nil hroom⟩
  | cons e es ih =>
    obtain ⟨later, k, first, kind, n, hlater, hfirst, ht, rfl, -⟩ := hcode
    cases parameters with
    | nil => cases h
    | cons parameter parameters =>
      obtain ⟨he, ⟨σ, -, hσ⟩, hes⟩ := h
      obtain ⟨hpe, hpes⟩ := List.forall_mem_cons.1 hp
      obtain ⟨hseese, hseeses⟩ := List.forall_mem_cons.1 hsees
      have hbehind : m.ip + Piece.size later ≤ m.limit ∨ m.sp ≤ m.ip := by
        rw [Piece.size_append] at hapart
        omega
      rw [Piece.count_append]
      obtain ⟨values, hvalues, hpush⟩ | ⟨⟨e', he', hdiv⟩, hfault⟩ :=
        ih hes hpes hlater hlaid.left hbehind hseeses (hroom.mono (le_max_left _ _))
      · have hroome : (m.run natives (Piece.count later)).HasRoom (e.room ctx) := by
          have hle := hroom.mono (le_max_right _ _)
          rw [← hvalues.length_flatten] at hle
          unfold Machine.HasRoom at hle ⊢
          rw [hpush.limit, hpush.sp]
          omega
        obtain ⟨data, hdata, hn, hpush'⟩ | ⟨hdiv, hfault⟩ := he.computes natives hΓ hpe hσ hfirst
          (hpush.ready hm) (hpush.laid_next hlaid hapart) (hpush.apart_next hapart)
          (hpush.sees hseese) hroome
        · refine .inl ⟨data :: values, .cons ⟨hdata, hn⟩ hvalues, ?_⟩
          have hboth := hpush.append hpush'
          rwa [← Machine.run_add] at hboth
        · refine .inr ⟨⟨e, List.mem_cons_self, hdiv⟩, ?_⟩
          rwa [← Machine.run_add] at hfault
      · refine .inr ⟨⟨e', List.mem_cons_of_mem _ he', hdiv⟩, ?_⟩
        rw [Machine.run_add_of_fault hfault]
        exact hfault

/-- Arguments are values of the types of the slots that they are put into. -/
theorem Slot.values_of_comeTo {slots : List Slot} (h : Expr.ComeTo ctx read es values)
    (hΓ : Γ.For ctx) (ht : Expr.TypedAll Γ (slots.map (·.type)) es) :
    Slot.Values ctx.program.types slots values := by
  induction h generalizing slots with
  | nil =>
    cases slots with
    | nil => exact .nil
    | cons slot slots => cases ht
  | cons h _ ih =>
    cases slots with
    | nil => cases ht
    | cons slot slots =>
      obtain ⟨-, ⟨σ, hσ, hi⟩, hrest⟩ := ht
      refine .cons ?_ (ih hrest)
      rw [hΓ.types] at hσ
      rw [TypeTable.size?_eq, hσ, Option.bind_some, ← hΓ.size?_eq hi, h.2]

end Arguments

/-! ## The frame of a function -/

/-- What a function finds that is going to put its frame pointer four bytes below the stack pointer:
its return address, each of its arguments where it looks for it, and zeros in the place of its
result, all of them inside memory. -/
structure Machine.Finds (m : Machine) (p : Program) (f : Function) (body : UserBody) (back : Int)
    (arguments : List (List UInt8)) : Prop where
  running : m.event = .running
  back : m.memory.Has m.sp (Word.ofInt 4 back)
  values : Slot.Values p.types body.arguments arguments
  arguments : List.Forall₂ (fun slot value => m.memory.Has (m.sp - 4 + slot.offset) value)
    body.arguments arguments
  result : ∃ n, p.types.resultSize? f.returns = some n ∧
    m.memory.Has (m.sp - 4 + body.frame.result) (List.replicate n 0) ∧
      m.sp - 4 + body.frame.result + n ≤ m.memory.top

namespace Machine

variable {m m₁ : Machine} {natives : Natives} {l : Link} {k n : Nat} {data : List UInt8}
  {p : Program} {f : Function} {body : UserBody} {back : Int} {values : List (List UInt8)}

/-- What lies on top of the stack is the frame of a function. -/
theorem finds_of_tops (hrunning : m.event = .running)
    (htile : Slot.Tile p.types 8 body.frame.result body.arguments)
    (hvalues : Slot.Values p.types body.arguments values)
    (hn : p.types.resultSize? f.returns = some n)
    (htops : m.Tops (Word.ofInt 4 back ++ values.flatten ++ List.replicate n 0)) :
    m.Finds p f body back values := by
  have hlength := htile.length_flatten hvalues
  have hfour : (Word.ofInt 4 back).length = 4 := Word.length_ofInt ..
  have hframe := htops.has
  have harguments := hframe.left.right
  have hresult := hframe.right
  have htop := htops.le_top
  rw [List.length_append, List.length_append, hfour, List.length_replicate] at htop
  rw [List.length_append, hfour] at hresult
  rw [hfour] at harguments
  refine ⟨hrunning, hframe.left.left, hvalues, htile.has hvalues ?_, n, hn, ?_, ?_⟩
  · have hsame : m.sp - 4 + ((8 : Nat) : Int) = m.sp + ((4 : Nat) : Int) := by omega
    rwa [hsame]
  · have hsame : m.sp - 4 + (body.frame.result : Int) =
        m.sp + ((4 + values.flatten.length : Nat) : Int) := by omega
    rwa [hsame]
  · omega

/-- Room is made for the result of a function that is going to be called. -/
theorem Ready.pushes_room {types : TypeTable} {returns : Option TypeId} (natives : Natives)
    (hm : m.Ready) (hn : types.resultSize? returns = some n)
    (hlaid : l.Laid m.memory m.ip (roomFor returns n)) (hroom : m.HasRoom n) :
    m.Pushes (m.run natives (Piece.count (roomFor returns n))) (Piece.count (roomFor returns n))
      (List.replicate n 0) := by
  cases returns with
  | none =>
    obtain rfl : 0 = n := Option.some.inj hn
    exact hm.pushes_nil hroom
  | some t =>
    obtain ⟨x0, x1, x2, h0, -, -, hat⟩ := hlaid.at
    obtain rfl : Word.size32 n = x0 := Except.ok.inj h0
    have htick : m.tick natives = m.answered (List.replicate n 0) :=
      tick_loadZero hm hat (Word.toInt_size32 (hm.room_lt hroom))
    rw [← List.length_replicate (n := n) (a := (0 : UInt8))] at hroom
    exact (hm.delivers hroom htick).ok _ rfl

/-- The operand that a label has become is where the label stands. -/
theorem marks_of_resolve {label : Label} {x : Int32} (h : l.resolve (.label label) = .ok x) :
    l.Marks label x.toInt := by
  rw [Link.resolve] at h
  split at h
  next address hlabel => exact ⟨address, hlabel, congrArg _ (Except.ok.inj h)⟩
  next => cases h

/-- **A call leaves the return address on what has been pushed** and goes to its label. -/
theorem Pushes.calls {label : Label} {rest : List Piece} (natives : Natives)
    (h : m.Pushes m₁ k data) (hm : m.Ready)
    (hlaid : l.Laid m₁.memory m₁.ip (.op (.call .user (.label label)) :: rest))
    (hroom : m₁.HasRoom 4) : ∃ target, l.Marks label target ∧
      (m₁.tick natives).event = .running ∧ (m₁.tick natives).ip = target ∧
        (m₁.tick natives).lp = m.lp ∧
          (m₁.tick natives).Tops (Word.ofInt 4 (m₁.ip + recordSize) ++ data) := by
  have hready := h.ready hm
  obtain ⟨x0, x1, x2, h0, h1, h2, hat⟩ := hlaid.at
  have hat : m₁.At (.of .CALL CallKind.user.code 0 x0 x1 x2) := hat
  have hroom' : m₁.HasRoom (Word.ofInt 4 (m₁.ip + recordSize)).length := by
    rwa [Word.length_ofInt]
  refine ⟨x0.toInt, marks_of_resolve h0, ?_⟩
  rw [tick_call hready hat, if_pos hroom]
  have htops := hready.tops_pushed_append hroom' h.tops
  exact ⟨h.running, rfl, h.lp, htops.has, htops.le_top⟩

/-- **A function finds its frame** when the code of a call has run, or the machine has divided by
zero as one of the arguments does. -/
theorem Ready.finds {Γ : Env} {ctx : EmissionContext} {z : EmissionState}
    {read : Place → Nat → List UInt8} {es : List Expr} {bytes : Nat} {pushed rest : List Piece}
    {label : Label} (natives : Natives) (hm : m.Ready) (hΓ : Γ.For ctx)
    (htile : Slot.Tile ctx.program.types 8 body.frame.result body.arguments)
    (ht : Expr.TypedAll Γ (body.arguments.map (·.type)) es) (hp : ∀ e ∈ es, e.isPlain = true)
    (hn : ctx.program.types.resultSize? f.returns = some n)
    (hcode : Expr.LoadsAll ctx z pushed bytes es)
    (hlaid : l.Laid m.memory m.ip
      (roomFor f.returns n ++ (pushed ++ .op (.call .user (.label label)) :: rest)))
    (hapart : m.ip + Piece.size
      (roomFor f.returns n ++ (pushed ++ .op (.call .user (.label label)) :: rest)) ≤ m.limit ∨
        m.sp ≤ m.ip)
    (hsees : ∀ e ∈ es, m.Sees l z read (e.reads ctx))
    (hroom : m.HasRoom (n + max (ctx.roomAll es) (ctx.widthAll es + 4) : Nat)) :
    ∃ k, (∃ values target, Expr.ComeTo ctx read es values ∧ l.Marks label target ∧
        (m.run natives k).ip = target ∧ (m.run natives k).lp = m.lp ∧
          (m.run natives k).Finds ctx.program f body (m.ip + (recordSize * k : Nat)) values) ∨
      (∃ e ∈ es, e.bytes ctx read = .error .divisionByZero) ∧
        (m.run natives k).event = .halted (.fault .divisionByZero) := by
  have hpushr := hm.pushes_room natives hn hlaid.left (hroom.mono (Nat.le_add_right _ _))
  have hready := hpushr.ready hm
  have hlaid₁ := hpushr.laid_next hlaid hapart
  have hapart₁ := hpushr.apart_next hapart
  obtain ⟨m₁, hrun₁⟩ : ∃ m₁, m₁ = m.run natives (Piece.count (roomFor f.returns n)) := ⟨_, rfl⟩
  rw [← hrun₁] at hpushr hready hlaid₁ hapart₁
  have hroom₁ : m₁.HasRoom (max (ctx.roomAll es) (ctx.widthAll es + 4) : Nat) := by
    unfold HasRoom at hroom ⊢
    rw [hpushr.limit, hpushr.sp, List.length_replicate]
    push_cast at hroom ⊢
    omega
  have hbehind : m₁.ip + Piece.size pushed ≤ m₁.limit ∨ m₁.sp ≤ m₁.ip := by
    rw [Piece.size_append] at hapart₁
    omega
  obtain ⟨values, hvalues, hpush⟩ | ⟨hdivides, hfault⟩ := ht.computes natives hΓ hp hcode hready
    hlaid₁.left hbehind (fun e he => hpushr.sees (hsees e he)) (hroom₁.mono (le_max_left _ _))
  · have hboth := hpushr.append hpush
    have hnext := hpush.laid_next hlaid₁ hapart₁
    have hfour : (m₁.run natives (Piece.count pushed)).HasRoom 4 := by
      have hle := hroom₁.mono (le_max_right _ _)
      rw [← hvalues.length_flatten] at hle
      unfold HasRoom at hle ⊢
      rw [hpush.limit, hpush.sp]
      push_cast at hle
      omega
    obtain ⟨target, hmark, hrunning, hip, hlp, htops⟩ := hboth.calls natives hm hnext hfour
    rw [hrun₁, ← run_add] at hrunning hip hlp htops hboth
    rw [← run_one (hboth.ready hm), ← run_add] at hrunning hip hlp htops
    refine ⟨_, .inl ⟨values, target, hvalues, hmark, hip, hlp, ?_⟩⟩
    refine finds_of_tops hrunning htile (Slot.values_of_comeTo hvalues hΓ ht) hn ?_
    rw [hboth.ip, ← List.append_assoc] at htops
    rwa [Nat.mul_succ, Nat.cast_add, ← Int.add_assoc]
  · rw [hrun₁, ← run_add] at hfault
    exact ⟨_, .inr ⟨hdivides, hfault⟩⟩

end Machine

/-! ## Calls in analysed programs -/

section

variable {raw : Raw.Program} {p : Program} {f g : Function} {body body' : UserBody} {n : Nat}

/-- The arguments of an analysed function fill the space between its link and its result. -/
theorem Program.tile_arguments (hp : Program.analyse raw = .ok p) {number : Nat}
    (hf : p.functions[number]? = some f) (hbody : f.user? = some body) :
    Slot.Tile p.types 8 body.frame.result body.arguments := by
  obtain ⟨q, hq, hplaced⟩ := Program.exists_layout_of_analyse hp
  exact (Program.tiled_of_layout hq hplaced).arguments f (Array.mem_of_getElem? hf) body hbody

/-- **A function that is called by another one finds its frame**, each argument having come to what
the expression in its place comes to, or the machine has divided by zero as one of the arguments
does.  Calls and addresses do not occur in the arguments. -/
theorem Program.finds_of_call (hp : Program.analyse raw = .ok p) {number : Nat}
    (hf : p.functions[number]? = some f) (hbody : f.user? = some body) {i : Info} {title : String}
    {arguments : List Expr} {callee : Nat}
    (he : .call i title arguments (some callee) ∈ Stmt.nodesAll body.statements)
    (hplain : ∀ e ∈ arguments, e.isPlain = true) (hg : p.functions[callee]? = some g)
    (hbody' : g.user? = some body') (hn : p.types.resultSize? g.returns = some n)
    {fields : List Slot} {s s' : EmissionState} {code : List Piece}
    (hcode : (Emission.load ⟨p, f, body, fields⟩ (.call i title arguments (some callee))).run s =
      .ok (code, s')) {m : Machine} (natives : Natives) {l : Link} (hm : m.Ready)
    (hload : m.Loaded l s' code)
    (hplaces : ∀ e ∈ arguments, ∀ x ∈ e.reads ⟨p, f, body, fields⟩, m.Reaches l x.1 x.2)
    (hroom : m.HasRoom (n + max (EmissionContext.roomAll ⟨p, f, body, fields⟩ arguments)
      (EmissionContext.widthAll ⟨p, f, body, fields⟩ arguments + 4) : Nat)) :
    ∃ k, (∃ values label target,
        Expr.ComeTo ⟨p, f, body, fields⟩ (m.bytesAt l) arguments values ∧
          (callee, label) ∈ s'.entries ∧ l.Marks label target ∧ (m.run natives k).ip = target ∧
            (m.run natives k).lp = m.lp ∧
              (m.run natives k).Finds p g body' (m.ip + (recordSize * k : Nat)) values) ∨
      (∃ e ∈ arguments, e.bytes ⟨p, f, body, fields⟩ (m.bytesAt l) = .error .divisionByZero) ∧
        (m.run natives k).event = .halted (.fault .divisionByZero) := by
  have htyped := Stmt.TypedAll.node _ ((analysed_of_analyse hp).typed number f hf body hbody) he
  obtain ⟨⟨parameters, hfunction, ht⟩, -⟩ := htyped
  obtain rfl : parameters = body'.arguments.map (·.type) := by
    dsimp only [Env.ofBody] at hfunction
    split at hfunction
    next =>
      rw [hg, Option.map_some] at hfunction
      rw [← Function.parameters_of_user? hbody']
      exact (congrArg Prod.fst (Option.some.inj hfunction)).symm
    next => cases hfunction
  obtain ⟨-, hloads⟩ := Emission.ends_load (C := fun _ => True) _ s (fun _ _ _ => trivial) _ _ hcode
  obtain ⟨number', g', size, pushed, bytes, last, hnumber, hg', hsize, hargs, hcalls, rfl⟩ :=
    hloads s' (.refl s')
  obtain rfl := Option.some.inj hnumber
  obtain rfl := Option.some.inj (hg'.symm.trans hg)
  obtain rfl := Option.some.inj (hsize.symm.trans hn)
  obtain ⟨label, hentry, rfl⟩ : ∃ label, (callee, label) ∈ s'.entries ∧
      last = .call .user (.label label) := by
    unfold EmissionState.Calls at hcalls
    unfold Function.user? at hbody'
    split at hcalls
    next hnative =>
      rw [hnative] at hbody'
      cases hbody'
    next => exact hcalls
  have hsplit : roomFor g'.returns size ++ pushed ++ [.op (.call .user (.label label))] ++
      dropped bytes =
        roomFor g'.returns size ++
          (pushed ++ .op (.call .user (.label label)) :: dropped bytes) := by
    simp only [List.append_assoc, List.singleton_append]
  have hlaid := hload.laid
  have hapart := hload.apart
  rw [hsplit] at hlaid hapart
  obtain ⟨k, ⟨values, target, hvalues, hmark, hip, hlp, hfinds⟩ | hdivides⟩ :=
    hm.finds natives ⟨rfl, rfl⟩ (Program.tile_arguments hp hg hbody') ht hplain hsize hargs hlaid
      hapart (fun e he => hload.sees (hplaces e he)) hroom
  · exact ⟨k, .inl ⟨values, label, target, hvalues, hentry, hmark, hip, hlp, hfinds⟩⟩
  · exact ⟨k, .inr hdivides⟩

/-- **A function that is called from outside finds its frame**, its arguments being the bytes that
it is called with. -/
theorem Module.finds_of_invoke {m : Module} {a : Assembly} {image : Image} {u : Emission.Done}
    {machine machine' : Machine} {arguments : List UInt8} (hp : Program.analyse raw = .ok p)
    (hm : m ∈ p.modules) (ha : m.assembly p = .ok a) (himage : m.image p = .ok image)
    (hu : u ∈ a.units) (hf : p.functions[u.number]? = some f) (hbody : f.user? = some body)
    (hholds : machine.Holds image)
    (hrun : (Step.invoke (a.entry u) arguments).run machine = .ok () machine') :
    ∃ values, values.flatten = arguments ∧ machine'.ip = (a.entry u).address ∧
      machine'.Finds p f body 0 values := by
  have h := Program.complete_of_analyse hp
  obtain ⟨a', start, z, ha', hbuilt⟩ := built_of_image (h.analysed.static m hm) himage
  obtain rfl : a' = a := Except.ok.inj (ha'.symm.trans ha)
  obtain ⟨f', body', code, hfor⟩ := hbuilt.code.code u hu
  obtain rfl := Option.some.inj (hf.symm.trans hfor.function)
  obtain rfl := Option.some.inj (hbody.symm.trans hfor.user)
  have hlimit : 0 ≤ machine.limit := by
    have hdata := hbuilt.dataSize
    rw [hholds.limit]
    omega
  have hinvoked := Step.invoked_of_invoke hlimit hrun
  have htile := Program.tile_arguments hp hf hbody
  have hlaid := h.analysed.laidOut.functions u.number f hf body hbody
  have hlength : 8 + arguments.length = body.frame.result := by
    have hlen : (arguments.length : Int) = u.arguments := hinvoked.length
    rw [hfor.arguments] at hlen
    rw [hlaid.result]
    exact congrArg (8 + ·) (Int.ofNat.inj hlen)
  obtain ⟨values, rfl, hvalues⟩ := htile.exists_values arguments hlength
  have hframe := hinvoked.frame
  have hresult : (a'.entry u).result.toNat = u.result := Int.toNat_natCast u.result
  rw [hresult] at hframe
  have htop : machine'.sp + 4 + values.flatten.length + u.result = machine'.memory.top := by
    have hsp := hinvoked.sp
    rw [← hinvoked.length] at hsp
    rw [hinvoked.same.top, hsp, show (a'.entry u).result = u.result from rfl]
    ring
  refine ⟨values, rfl, hinvoked.ip, Machine.finds_of_tops hinvoked.running htile hvalues
    hfor.result ⟨hframe, ?_⟩⟩
  rw [List.length_append, List.length_append, Word.length_ofInt, List.length_replicate]
  omega

/-- **The function that a module starts with finds its frame** if it takes no arguments. -/
theorem Module.finds_of_start {m : Module} {a : Assembly} {image : Image} {machine : Machine}
    {number size : Nat} (hp : Program.analyse raw = .ok p) (hm : m ∈ p.modules)
    (ha : m.assembly p = .ok a) (himage : m.image p = .ok image)
    (hmain : Emission.main? p m = some (number, f)) (hbody : f.user? = some body)
    (hnone : body.arguments = []) (hn : p.types.resultSize? f.returns = some n)
    (hstart : Machine.start image size = .ok machine) (natives : Natives)
    (hroom : machine.limit + n + 4 ≤ machine.memory.top) :
    ∃ k u, u ∈ a.units ∧ u.number = number ∧ (machine.run natives k).ip = (a.entry u).address ∧
      (machine.run natives k).Finds p f body (recordSize * k : Nat) [] := by
  have h := Program.complete_of_analyse hp
  obtain ⟨a', start, z, ha', hbuilt⟩ := built_of_image (h.analysed.static m hm) himage
  obtain rfl : a' = a := Except.ok.inj (ha'.symm.trans ha)
  obtain ⟨-, hf, -⟩ := Emission.main?_eq_some hmain
  have hstarts := hbuilt.code.starts
  simp only [Emission.Starts, hmain] at hstarts
  obtain ⟨n', label, hsize, hentry, rfl⟩ := hstarts
  obtain rfl := Option.some.inj (hsize.symm.trans hn)
  have hholds := Machine.holds_of_start hstart
  have hlaid := (hbuilt.laid machine.memory hholds.bytes
    (hholds.dynamicBase_lt (by rw [hbuilt.dataSize]; omega))).left
  obtain ⟨u, hu, hlabel⟩ := List.mem_map.1 (hbuilt.code.entries.mem_iff.2 hentry)
  obtain ⟨rfl, rfl⟩ := Prod.mk.inj hlabel
  obtain ⟨hmachine, -⟩ := Machine.start_eq_ok hstart
  obtain ⟨hmemory, hlimit, hnonneg, -⟩ := Machine.bounded_of_start hstart
  have hip : machine.ip = 0 := by rw [hmachine]
  have hrunning : machine.event = .running := by rw [hmachine]
  have hsp : machine.sp = machine.memory.top := by
    have htop : machine.sp = (Memory.zeros size).top := by rw [hmachine]
    rw [htop]
    exact Memory.top_eq ((Machine.size_zeros size).trans hmemory.symm)
  have hcode := hbuilt.codeSize
  have hcode' := hbuilt.codeSize_le
  have hdata := hbuilt.dataSize
  rw [Piece.size_append] at hcode
  rw [← hip] at hlaid
  -- the call of the first function has no arguments
  have hΓ : (Env.ofBody p.types p.constantValue p f.owner body []).For ⟨p, f, body, m.fields⟩ :=
    ⟨rfl, rfl⟩
  have htyped : Expr.TypedAll (Env.ofBody p.types p.constantValue p f.owner body [])
      (body.arguments.map (·.type)) [] := by
    rw [hnone]
    trivial
  have hloads : Expr.LoadsAll ⟨p, f, body, m.fields⟩ z [] 0 [] := ⟨rfl, rfl⟩
  have hsees : ∀ e ∈ ([] : List Expr), machine.Sees a'.link z (machine.bytesAt a'.link)
      (e.reads ⟨p, f, body, m.fields⟩) := fun _ he => by cases he
  have hplain : ∀ e ∈ ([] : List Expr), e.isPlain = true := fun _ he => by cases he
  have hready : machine.Ready := ⟨hrunning, hnonneg, hsp.le⟩
  have hspace : machine.HasRoom ((n' + 4 : Nat) : Int) := by
    unfold Machine.HasRoom
    omega
  obtain ⟨k, ⟨values, target, hvalues, hmark, hip', -, hfinds⟩ | ⟨⟨e, he, -⟩, -⟩⟩ :=
    hready.finds natives hΓ (Program.tile_arguments hp hf hbody) htyped hplain hsize hloads hlaid
      (.inl (by rw [List.nil_append]; omega)) hsees hspace
  · cases hvalues
    obtain ⟨address, haddress, rfl⟩ := hmark
    refine ⟨k, u, hu, rfl, ?_, by rwa [hip, zero_add] at hfinds⟩
    have haddress : a'.labels.address? u.label = some address := haddress
    rw [hip', Assembly.entry, haddress, Option.getD_some]
  · cases he

end

end ChannelBasic
