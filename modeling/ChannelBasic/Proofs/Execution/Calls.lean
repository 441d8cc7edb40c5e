import ChannelBasic.Proofs.Emission.Units

/-!
# Proofs/Execution/Calls — the calls in code are the calls in the body it was made from

A body calls functions in the order in which its expressions are evaluated: arguments from the last
to the first and then the function itself, the right operand before the left one, the end of a
counting loop before its step and its start.  **The `CALL`s in the code of a function are these, in
this order** (`EmissionContext.Body.calls`), each with the label of the function that is called.
-/

namespace ChannelBasic

open Code

/-! ## The calls in a body -/

mutual

/-- The functions an expression calls, in the order of evaluation. -/
def Expr.calls : Expr → List Nat
  | .literal _ _ | .name _ _ _ | .member _ _ _ _ | .pointer _ _ none => []
  | .call _ _ arguments callee => Expr.callsAll arguments ++ callee.toList
  | .unary _ _ operand | .cast _ operand => operand.calls
  | .binary _ _ left right => right.calls ++ left.calls
  | .pointer _ target (some _) => target.calls

/-- The functions that arguments call, the last argument being evaluated first. -/
def Expr.callsAll : List Expr → List Nat
  | [] => []
  | e :: rest => Expr.callsAll rest ++ e.calls

end

/-- The functions an expression calls, if there is one. -/
def Expr.callsOf : Option Expr → List Nat
  | some e => e.calls
  | none => []

mutual

/-- The functions a statement calls, in the order in which its calls are written down as code. -/
def Stmt.calls : Stmt → List Nat
  | .var _ _ value | .return _ value => Expr.callsOf value
  | .assign _ value _ => value.calls
  | .invoke _ call => call.calls
  | .choose _ branches => branches.calls
  | .count _ _ start finish step body _ =>
    finish.calls ++ Expr.callsOf step ++ start.calls ++ Stmt.callsAll body
  | .loop _ none body => Stmt.callsAll body
  | .loop _ (some c) body =>
    if c.post then Stmt.callsAll body ++ c.value.calls else c.value.calls ++ Stmt.callsAll body

/-- The functions that statements call. -/
def Stmt.callsAll : List Stmt → List Nat
  | [] => []
  | s :: rest => s.calls ++ Stmt.callsAll rest

/-- The functions that the branches of an `IF` call. -/
def Branches.calls : Branches → List Nat
  | .done => []
  | .otherwise body => Stmt.callsAll body
  | .branch condition body rest => condition.calls ++ Stmt.callsAll body ++ rest.calls

end

/-! ## The calls in code -/

namespace Piece

/-- The `CALL` that a piece is, if it is one. -/
def call? : Piece → Option Instruction
  | .op i => if i.opcode = .CALL then some i else none
  | .mark _ => none

/-- The `CALL`s in some code. -/
def calls (code : List Piece) : List Instruction := code.filterMap call?

variable {xs ys : List Piece} {i : Instruction}

@[simp] theorem calls_nil : calls [] = [] := rfl

@[simp] theorem calls_append (xs ys : List Piece) : calls (xs ++ ys) = calls xs ++ calls ys :=
  List.filterMap_append

@[simp] theorem calls_mark (l : Label) (xs : List Piece) : calls (.mark l :: xs) = calls xs := rfl

theorem calls_op (hi : i.opcode ≠ .CALL) (xs : List Piece) : calls (.op i :: xs) = calls xs := by
  rw [calls, List.filterMap_cons, call?, if_neg hi]
  rfl

theorem calls_call (hi : i.opcode = .CALL) (xs : List Piece) :
    calls (.op i :: xs) = i :: calls xs := by
  rw [calls, List.filterMap_cons, call?, if_pos hi]
  rfl

theorem calls_of_opcodes (h : ∀ i, .op i ∈ xs → i.opcode ≠ .CALL) : calls xs = [] := by
  induction xs with
  | nil => rfl
  | cons x xs ih =>
    have hrest := ih fun i hi => h i (List.mem_cons_of_mem _ hi)
    cases x with
    | op i => rw [calls_op (h i List.mem_cons_self), hrest]
    | mark l => rw [calls_mark, hrest]

end Piece

theorem Place.opcode_load (n : Nat) (place : Place) : (place.load n).opcode = .LOAD := by
  cases place <;> rfl

theorem Place.opcode_store (n : Nat) (place : Place) : (place.store n).opcode = .STORE := by
  cases place <;> rfl

theorem Place.opcode_pointer (place : Place) : place.pointer.opcode = .LOAD := by
  cases place <;> rfl

theorem Literal.Loads.opcode {types : TypeTable} {z : EmissionState} {t : TypeId} {n : Nat}
    {i : Instruction} {v : Literal} (h : v.Loads types z t n i) : i.opcode = .LOAD := by
  cases v with
  | text content =>
    obtain ⟨x, -, rfl⟩ := h
    rfl
  | boolean | integral | real =>
    obtain rfl := h
    rfl

theorem BinaryOp.Emits.opcode_ne {op : BinaryOp} {kind : ValueType} {left right : Nat}
    {P : Nat → Prop} {i : Instruction} (h : op.Emits kind left right P i) : i.opcode ≠ .CALL := by
  obtain ⟨c, -, rfl⟩ | ⟨-, code, n, hcode, -, rfl⟩ := h
  · exact Opcode.noConfusion
  · cases op <;> simp [BinaryOp.opcode?] at hcode <;> subst hcode <;> exact Opcode.noConfusion

theorem EmissionState.Calls.opcode {z : EmissionState} {f : Function} {number : Nat}
    {i : Instruction} (h : z.Calls f number i) : i.opcode = .CALL := by
  unfold Calls at h
  split at h
  next =>
    obtain ⟨x, -, rfl⟩ := h
    rfl
  next =>
    obtain ⟨l, -, rfl⟩ := h
    rfl

/-- The instruction calls the function that has a number. -/
def EmissionContext.Calls (ctx : EmissionContext) (z : EmissionState) (i : Instruction)
    (number : Nat) : Prop :=
  ∃ f, ctx.program.functions[number]? = some f ∧ z.Calls f number i

section Emission

variable {ctx : EmissionContext} {z : EmissionState}

/-- A place is named without calling anything. -/
theorem EmissionContext.calls_of_place {e : Expr} {place : Place} (h : ctx.place? e = some place) :
    e.calls = [] := by
  cases e with
  | name | member => rfl
  | literal | call | unary | binary | cast | pointer => cases h

mutual

/-- **The calls in the code of an expression.** -/
theorem Expr.Loads.calls : (e : Expr) → {code : List Piece} → e.Loads ctx z code →
    List.Forall₂ (ctx.Calls z) (Piece.calls code) e.calls
  | .literal i v, code, ⟨t, n, last, _, _, hlast, hcode⟩ => by
    rw [hcode, Piece.calls_op (by simp [hlast.opcode])]
    exact .nil
  | .name i title (some (.constant k)), code, ⟨t, v, n, last, _, _, _, hlast, hcode⟩ => by
    rw [hcode, Piece.calls_op (by simp [hlast.opcode])]
    exact .nil
  | .name i title none, code, ⟨kind, n, place, _, _, hcode⟩
  | .name i title (some (.localVar k)), code, ⟨kind, n, place, _, _, hcode⟩
  | .name i title (some (.argument k)), code, ⟨kind, n, place, _, _, hcode⟩
  | .name i title (some (.dataField k)), code, ⟨kind, n, place, _, _, hcode⟩
  | .member i target field decl, code, ⟨kind, n, place, _, _, hcode⟩ => by
    rw [hcode, Piece.calls_op (by simp [Place.opcode_load])]
    exact .nil
  | .call i title arguments callee, code,
      ⟨number, f, size, pushed, bytes, last, hnumber, hf, _, hpushed, hlast, hcode⟩ => by
    have hroom : Piece.calls (roomFor f.returns size) = [] := by
      unfold roomFor
      split
      · exact Piece.calls_op Opcode.noConfusion []
      · rfl
    have hdropped : Piece.calls (dropped bytes) = [] := by
      unfold dropped
      split
      · rfl
      · exact Piece.calls_op Opcode.noConfusion []
    rw [hcode, hnumber, Expr.calls, Piece.calls_append, Piece.calls_append, Piece.calls_append,
      hroom, hdropped, List.nil_append, List.append_nil, Piece.calls_call hlast.opcode]
    exact List.rel_append (Expr.LoadsAll.calls arguments hpushed) (.cons ⟨f, hf, hlast⟩ .nil)
  | .unary i op operand, code, ⟨kind, n, first, hfirst, _, hcode⟩ => by
    have htail : Piece.calls (op.tail kind n) = [] := by
      cases op with
      | plus => rfl
      | minus | not => exact Piece.calls_op Opcode.noConfusion []
    rw [hcode, Piece.calls_append, htail, List.append_nil]
    exact Expr.Loads.calls operand hfirst
  | .binary i op left right, code,
      ⟨kind, l, kind', r, first, second, last, _, _, hfirst, hsecond, hlast, hcode⟩ => by
    rw [hcode, Piece.calls_append, Piece.calls_append, Piece.calls_op hlast.opcode_ne,
      Piece.calls_nil, List.append_nil]
    exact List.rel_append (Expr.Loads.calls right hfirst) (Expr.Loads.calls left hsecond)
  | .cast i operand, code, ⟨source, n, target, n', first, hfirst, _, _, hcode⟩ => by
    rw [hcode, Piece.calls_append, Piece.calls_op Opcode.noConfusion, Piece.calls_nil,
      List.append_nil]
    exact Expr.Loads.calls operand hfirst
  | .pointer i target (some offset), code, ⟨kind, n, first, _, hfirst, hcode⟩ => by
    rw [hcode, Piece.calls_append, Piece.calls_op (by simp [Place.opcode_store]),
      Piece.calls_op (by simp [Place.opcode_pointer]), Piece.calls_nil, List.append_nil]
    exact Expr.Loads.calls target hfirst
  | .pointer i target none, code, h => by
    obtain ⟨place, -, rfl⟩ | ⟨content, capacity, x, -, -, rfl⟩ := h
    · rw [Piece.calls_op (by simp [Place.opcode_pointer])]
      exact .nil
    · rw [Piece.calls_op Opcode.noConfusion]
      exact .nil

/-- The calls in the code of arguments. -/
theorem Expr.LoadsAll.calls : (es : List Expr) → {code : List Piece} → {bytes : Nat} →
    Expr.LoadsAll ctx z code bytes es →
    List.Forall₂ (ctx.Calls z) (Piece.calls code) (Expr.callsAll es)
  | [], code, bytes, ⟨hcode, _⟩ => by
    rw [hcode]
    exact .nil
  | e :: rest, code, bytes, ⟨later, k, first, kind, n, hlater, hfirst, _, hcode, _⟩ => by
    rw [hcode, Piece.calls_append]
    exact List.rel_append (Expr.LoadsAll.calls rest hlater) (Expr.Loads.calls e hfirst)

end

/-- Giving a variable its first value calls nothing. -/
theorem EmissionContext.Initialises.calls {index : Nat} {code : List Piece}
    (h : ctx.Initialises z index code) : Piece.calls code = [] := by
  obtain ⟨v, t, n, zeros, records, -, -, -, hzeros, hrecords, rfl⟩ := h
  refine Piece.calls_of_opcodes fun i hi => ?_
  obtain hi | hi := List.mem_append.1 hi
  · obtain rfl | ⟨rfl, -⟩ := hzeros
    · obtain rfl | rfl : i = _ ∨ i = _ := by simpa [Emission.loadZeros] using hi
      · exact Opcode.noConfusion
      · simp [Place.opcode_store]
    · cases hi
  · obtain ⟨pieces, hpieces, hi⟩ := List.mem_flatten.1 hi
    obtain ⟨k, hk⟩ := List.mem_iff_getElem?.1 hpieces
    obtain ⟨r, -, x, -, rfl⟩ := forall₂_right hrecords hk
    obtain rfl | rfl : i = _ ∨ i = _ := by simpa using hi
    · exact Opcode.noConfusion
    · simp [Place.opcode_store]

/-- The calls in the step of a counting loop; without a step there are none. -/
theorem EmissionContext.LoadsStep.calls {counter : Expr} {code : List Piece} {step : Option Expr}
    (h : ctx.LoadsStep z counter code step) :
    List.Forall₂ (ctx.Calls z) (Piece.calls code) (Expr.callsOf step) := by
  cases step with
  | some e => exact Expr.Loads.calls e h
  | none =>
    obtain ⟨t, n, last, -, -, hlast, rfl⟩ := h
    rw [Piece.calls_op (by simp [hlast.opcode])]
    exact .nil

/-- Only the parts of a counting loop call anything. -/
theorem calls_countCode (kind : ValueType) (n : Nat) (place : Place) (temps : Temps)
    (head exit : Label) (finish step start load load' body : List Piece) :
    Piece.calls (countCode kind n place temps head exit finish step start load load' body) =
      Piece.calls finish ++ Piece.calls step ++ Piece.calls start ++ Piece.calls load ++
        Piece.calls body ++ Piece.calls load' := by
  have ops : Piece.calls [.op ((Place.frame temps.finish).store n)] = [] ∧
      Piece.calls [.op (place.store n)] = [] ∧
      Piece.calls [.op ((Place.frame temps.finish).load n)] = [] ∧
      Piece.calls [.op ((Place.frame temps.step).load n)] = [] :=
    ⟨Piece.calls_op (by simp [Place.opcode_store]) [],
      Piece.calls_op (by simp [Place.opcode_store]) [],
      Piece.calls_op (by simp [Place.opcode_load]) [], Piece.calls_op (by simp [Place.opcode_load]) []⟩
  have between : Piece.calls [.op (.dup (Word.size32 n)), .op ((Place.frame temps.step).store n),
      .op (.unary .SIGN kind (Word.size32 n)), .op ((Place.frame temps.sign).store 1)] = [] := rfl
  have test : Piece.calls [.op (.binary .SUB kind (Word.size32 n) (Word.size32 n) (Word.size32 n)),
      .op (.unary .SIGN kind (Word.size32 n)), .op ((Place.frame temps.sign).load 1),
      .op (.compare .byte .equal 1 1), Emission.branchOn true exit] = [] := rfl
  have next : Piece.calls
      [.op (.binary .ADD kind (Word.size32 n) (Word.size32 n) (Word.size32 n))] = [] := rfl
  have back : Piece.calls [.op (.jump head), .mark exit] = [] := rfl
  have mark : Piece.calls [.mark head] = [] := rfl
  simp only [countCode, Piece.calls_append, ops, between, test, next, back, mark, List.append_nil,
    List.nil_append, List.append_assoc]

theorem calls_branchOn (value : Bool) (l : Label) (xs : List Piece) :
    Piece.calls (Emission.branchOn value l :: xs) = Piece.calls xs :=
  Piece.calls_op Opcode.noConfusion xs

theorem calls_jump (l : Label) (xs : List Piece) :
    Piece.calls (.op (.jump l) :: xs) = Piece.calls xs := Piece.calls_op Opcode.noConfusion xs

theorem calls_leave (ctx : EmissionContext) : Piece.calls (Emission.leave ctx) = [] := rfl

mutual

/-- **The calls in the code of a statement.** -/
theorem Stmt.Emits.calls : (s : Stmt) → {code : List Piece} → s.Emits ctx z code →
    List.Forall₂ (ctx.Calls z) (Piece.calls code) s.calls
  | .var l index (some value), code, ⟨v, t, n, first, _, _, _, hfirst, hcode⟩ => by
    rw [hcode, Piece.calls_append, Piece.calls_op (by simp [Place.opcode_store]), Piece.calls_nil,
      List.append_nil]
    exact Expr.Loads.calls value hfirst
  | .var l index none, code, h => by
    rw [EmissionContext.Initialises.calls h]
    exact .nil
  | .assign l value target, code, ⟨first, kind, n, place, hfirst, _, _, hcode⟩ => by
    rw [hcode, Piece.calls_append, Piece.calls_op (by simp [Place.opcode_store]), Piece.calls_nil,
      List.append_nil]
    exact Expr.Loads.calls value hfirst
  | .invoke l call, code, ⟨first, hfirst, hcode⟩ => by
    have hcalls := Expr.Loads.calls call hfirst
    obtain ⟨-, rfl⟩ | ⟨kind, n, -, rfl⟩ := hcode
    · exact hcalls
    · rw [Piece.calls_append, Piece.calls_op Opcode.noConfusion, Piece.calls_nil, List.append_nil]
      exact hcalls
  | .return l none, code, hcode => by
    rw [show code = Emission.leave ctx from hcode, calls_leave]
    exact .nil
  | .return l (some e), code, ⟨t, n, first, _, _, hfirst, hcode⟩ => by
    rw [hcode, Piece.calls_append, Piece.calls_append, Piece.calls_op (by simp [Place.opcode_store]),
      Piece.calls_nil, calls_leave, List.append_nil, List.append_nil]
    exact Expr.Loads.calls e hfirst
  | .choose l branches, code, ⟨exit, first, hfirst, hcode⟩ => by
    rw [hcode, Piece.calls_append, Piece.calls_mark, Piece.calls_nil, List.append_nil]
    exact Branches.Emits.calls branches hfirst
  | .count l counter start finish step body temps, code,
      ⟨kind, n, place, head, exit, finishCode, stepCode, startCode, load, load', bodyCode, _, hplace,
        hfinish, hstep, hstart, hload, hload', hbody, hcode⟩ => by
    have hcounter {code : List Piece} (h : counter.Loads ctx z code) : Piece.calls code = [] := by
      have hcalls := Expr.Loads.calls counter h
      rw [EmissionContext.calls_of_place hplace] at hcalls
      exact List.forall₂_nil_right_iff.1 hcalls
    rw [hcode, calls_countCode, hcounter hload, hcounter hload', List.append_nil, List.append_nil]
    have hbefore := List.rel_append (List.rel_append (Expr.Loads.calls finish hfinish) hstep.calls)
      (Expr.Loads.calls start hstart)
    exact List.rel_append hbefore (Stmt.EmitsAll.calls body hbody)
  | .loop l none body, code, ⟨head, exit, bodyCode, hbody, hcode⟩ => by
    rw [hcode, Piece.calls_append, Piece.calls_append, calls_jump, Piece.calls_mark,
      Piece.calls_mark, Piece.calls_nil, List.append_nil, List.nil_append]
    exact Stmt.EmitsAll.calls body hbody
  | .loop l (some c) body, code, ⟨head, exit, test, bodyCode, htest, hbody, hcode⟩ => by
    have htests := Expr.Loads.calls c.value htest
    have hcalls := Stmt.EmitsAll.calls body hbody
    rw [Stmt.calls]
    split at hcode
    next hpost =>
      rw [hcode, if_pos hpost]
      simp only [Piece.calls_append, calls_branchOn, Piece.calls_mark, Piece.calls_nil,
        List.append_nil, List.nil_append]
      exact List.rel_append hcalls htests
    next hpost =>
      rw [hcode, if_neg hpost]
      simp only [Piece.calls_append, calls_branchOn, calls_jump, Piece.calls_mark, Piece.calls_nil,
        List.append_nil, List.nil_append]
      exact List.rel_append htests hcalls

/-- The calls in the code of statements. -/
theorem Stmt.EmitsAll.calls : (ss : List Stmt) → {code : List Piece} → Stmt.EmitsAll ctx z code ss →
    List.Forall₂ (ctx.Calls z) (Piece.calls code) (Stmt.callsAll ss)
  | [], code, hcode => by
    rw [show code = [] from hcode]
    exact .nil
  | s :: rest, code, ⟨first, later, hfirst, hlater, hcode⟩ => by
    rw [hcode, Piece.calls_append]
    exact List.rel_append (Stmt.Emits.calls s hfirst) (Stmt.EmitsAll.calls rest hlater)

/-- The calls in the code of the branches of an `IF`. -/
theorem Branches.Emits.calls {exit : Label} : (b : Branches) → {code : List Piece} →
    b.Emits ctx z exit code → List.Forall₂ (ctx.Calls z) (Piece.calls code) b.calls
  | .done, code, hcode => by
    rw [show code = [] from hcode]
    exact .nil
  | .otherwise body, code, h => Stmt.EmitsAll.calls body h
  | .branch condition body rest, code,
      ⟨next, test, bodyCode, others, htest, hbody, hothers, hcode⟩ => by
    have hskip : Piece.calls (rest.skip exit) = [] := by
      cases rest with
      | done => rfl
      | otherwise | branch => exact calls_jump exit []
    rw [hcode]
    simp only [Piece.calls_append, calls_branchOn, hskip, Piece.calls_mark, Piece.calls_nil,
      List.append_nil]
    have hbefore := List.rel_append (Expr.Loads.calls condition htest)
      (Stmt.EmitsAll.calls body hbody)
    exact List.rel_append hbefore (Branches.Emits.calls rest hothers)

end

/-- **The calls in the code of a function are those in its body.** -/
theorem EmissionContext.Body.calls {code : List Piece} (h : ctx.Body z code) :
    List.Forall₂ (ctx.Calls z) (Piece.calls code) (Stmt.callsAll ctx.body.statements) := by
  obtain ⟨first, statements, hfirst, hstatements, rfl⟩ := h
  have hvariables : Piece.calls first.flatten = [] := by
    refine Piece.calls_of_opcodes fun i hi hcall => ?_
    obtain ⟨code, hcode, hi⟩ := List.mem_flatten.1 hi
    obtain ⟨k, hk⟩ := List.mem_iff_getElem?.1 hcode
    obtain ⟨index, -, h⟩ := forall₂_right hfirst hk
    have hmem : i ∈ Piece.calls code :=
      List.mem_filterMap.2 ⟨.op i, hi, if_pos hcall⟩
    rw [h.calls] at hmem
    cases hmem
  simp only [Piece.calls_append, hvariables, calls_leave, List.append_nil]
  rw [Piece.calls_op Opcode.noConfusion, Piece.calls_nil, List.nil_append]
  exact Stmt.EmitsAll.calls _ hstatements

end Emission

end ChannelBasic
