import ChannelBasic.Proofs.Execution.Counting
import ChannelBasic.Proofs.Execution.Invariants
import ChannelBasic.Proofs.Execution.Refinement

/-!
# Proofs/Execution/Leftovers — what the stack has held before

A variable has what earlier calls have left on the stack until it gets its first value.  **A
function that reads its variables only after they have got their first values
(`UserBody.isSettled`) answers the same whatever the stack has held before**
(`Module.answers_alike_of_invoke`), if it has no calls, addresses and counting loops.  What its runs
have in common are the bytes outside of variables that have no value yet (`Setting.Settled`).
-/

namespace ChannelBasic

/-! ## Bytes that belong to no variable without a value -/

/-- The byte at a place is no part of a variable that has no value. -/
def Setting.Settled (S : Setting) (known : List Nat) (place : Place) : Prop :=
  S.Has place 1 ∧ ∀ offset < 0, place = .frame offset → ∃ k ∈ known, ∃ v,
    S.ctx.body.locals[k]? = some v ∧ v.offset ≤ offset ∧ offset < v.offset + S.ctx.localSize k

/-- Two stores have the same bytes at some places. -/
def Store.Alike (P : Place → Prop) (σ τ : Store) : Prop :=
  ∀ place, P place → σ.byte place = τ.byte place

namespace Store.Alike

variable {P Q : Place → Prop} {σ τ : Store} {place : Place} {n : Nat} {data : List UInt8}

theorem mono (h : Alike P σ τ) (hle : ∀ p, Q p → P p) : Alike Q σ τ := fun p hp => h p (hle p hp)

theorem read (h : Alike P σ τ) (hP : ∀ i < n, P (place.plus i)) :
    σ.read place n = τ.read place n :=
  List.map_congr_left fun i hi => h _ (hP i (List.mem_range.1 hi))

/-- What is written in both is the same there. -/
theorem write (h : Alike P σ τ)
    (hQ : ∀ p, Q p → P p ∨ ∃ i < data.length, p = place.plus i) :
    Alike Q (σ.write place data) (τ.write place data) := by
  intro p hp
  simp only [Store.write]
  obtain hp | ⟨i, hi, rfl⟩ := hQ p hp
  · rw [h p hp]
  · simp [hi]

end Store.Alike

section Settled

variable {S : Setting} {Γ : Env} {known : List Nat} {e : Expr} {place : Place} {σ τ : Store}

theorem Setting.Settled.forget {known' : List Nat} (hle : known ⊆ known') {p : Place}
    (h : S.Settled known p) : S.Settled known' p := by
  refine ⟨h.1, fun offset hlt hp => ?_⟩
  obtain ⟨k, hk, v, hv⟩ := h.2 offset hlt hp
  exact ⟨k, hle hk, v, hv⟩

/-- Above the frame pointer and in the data sets there are no variables. -/
theorem Setting.settled_of_apart (h : S.Has place 1)
    (hplace : ∀ offset < 0, place ≠ .frame offset) : S.Settled known place :=
  ⟨h, fun offset hlt hp => (hplace offset hlt hp).elim⟩

/-- **A place that an expression stands for is part of no variable but the one that it reads.** -/
theorem Expr.Typed.settled (hS : S.Fits Γ) (he : e.Typed Γ) (hr : e.readsOnly known = true)
    (hplace : S.ctx.place? e = some place) :
    ∃ n, S.ctx.size? e.info = some n ∧ ∀ i < n, S.Settled known (place.plus i) := by
  induction e using Expr.induct generalizing place with
  | name i title decl =>
    obtain ⟨n, hn, hhas⟩ := hS.has_place he hplace
    refine ⟨n, hn, fun j hj => ?_⟩
    have hbyte : S.Has (place.plus j) 1 := hhas.plus hj
    cases decl with
    | none => cases hplace
    | some d =>
      cases d with
      | constant k => cases hplace
      | argument k =>
        obtain ⟨slot, -, rfl⟩ := Option.map_eq_some_iff.1 hplace
        refine S.settled_of_apart hbyte fun offset hlt hp => ?_
        simp only [Place.plus, Place.frame.injEq] at hp
        omega
      | dataField k =>
        obtain ⟨slot, -, rfl⟩ := Option.map_eq_some_iff.1 hplace
        exact S.settled_of_apart hbyte fun _ _ hp => by cases hp
      | localVar k =>
        obtain ⟨v, hv, rfl⟩ := Option.map_eq_some_iff.1 hplace
        obtain ⟨htype, -⟩ := he
        refine ⟨hbyte, fun offset _ hp => ⟨k, List.contains_iff_mem.1 hr, v, hv, ?_⟩⟩
        have hsize : S.ctx.localSize k = n := by
          rw [EmissionContext.localSize, ← hS.declared, ← htype]
          exact congrArg (Option.getD · 0) hn
        simp only [Place.plus, Place.frame.injEq] at hp
        omega
  | member i target field decl ih =>
    cases decl with
    | none => cases he
    | some r =>
      obtain ⟨htarget, _, hstruct, t, s, ht, hs, hi⟩ := he
      obtain ⟨base, hbase, hplace⟩ := Option.bind_eq_some_iff.1 hplace
      obtain ⟨slot, hslot, hplace⟩ := Option.bind_eq_some_iff.1 hplace
      obtain rfl := Option.some.inj hplace
      obtain ⟨z, hz, hsettled⟩ := ih htarget hr hbase
      rw [hS.env.size?_eq hstruct] at hz
      obtain ⟨n, hn, hle⟩ := hS.members r t slot z ht hslot hz
      rw [TypeTable.size?_eq, ← hS.env.types, hs, hS.env.types] at hn
      refine ⟨n, (hS.env.size?_eq hi).trans hn, fun j hj => ?_⟩
      rw [Place.plus_plus]
      exact hsettled _ (by omega)
  | literal | call | unary | binary | cast | pointer => cases hplace

/-- What an expression reads is part of no variable without a value. -/
theorem Expr.Typed.settled_reads (hS : S.Fits Γ) (he : e.Typed Γ) (hr : e.readsOnly known = true)
    {x : Place × Nat} (hx : x ∈ e.reads S.ctx) : ∀ i < x.2, S.Settled known (x.1.plus i) := by
  -- what a name or a member reads is the place it stands for
  have place {e : Expr} (he : e.Typed Γ) (hr : e.readsOnly known = true)
      (hx : x ∈ ((S.ctx.place? e).bind fun place =>
        (S.ctx.size? e.info).map fun n => (place, n)).toList) :
      ∀ i < x.2, S.Settled known (x.1.plus i) := by
    obtain ⟨place, hplace, hx⟩ := Option.bind_eq_some_iff.1 (Option.mem_toList.1 hx)
    obtain ⟨n, hn, rfl⟩ := Option.map_eq_some_iff.1 hx
    obtain ⟨k, hk, hsettled⟩ := he.settled hS hr hplace
    obtain rfl := Option.some.inj (hk.symm.trans hn)
    exact hsettled
  induction e using Expr.induct with
  | name i title decl => exact place he hr hx
  | member i target field decl _ => exact place he hr hx
  | unary i op operand ih => exact ih he.1 hr hx
  | cast i operand ih => exact ih he.1 hr hx
  | binary i op left right ihl ihr =>
    obtain ⟨hrl, hrr⟩ := Bool.and_eq_true_iff.1 hr
    obtain hx | hx := List.mem_append.1 hx
    · exact ihr he.2.1 hrr hx
    · exact ihl he.1 hrl hx
  | literal | call | pointer => cases hx

/-- A byte that a variable with a new value settles belongs to the variable, or was settled
before. -/
theorem Setting.settled_cons {index : Nat} {p : Place} (h : S.Settled (index :: known) p) :
    S.Settled known p ∨ ∃ v, S.ctx.body.locals[index]? = some v ∧
      ∃ i < S.ctx.localSize index, p = (Place.frame v.offset).plus i := by
  by_cases hp : S.Settled known p
  · exact .inl hp
  · obtain ⟨offset, hlt, hplace, hnone⟩ : ∃ offset < 0, p = .frame offset ∧ ¬ ∃ k ∈ known, ∃ v,
        S.ctx.body.locals[k]? = some v ∧ v.offset ≤ offset ∧
          offset < v.offset + S.ctx.localSize k := by
      by_contra hall
      exact hp ⟨h.1, fun offset hlt hplace => by_contra fun hnone =>
        hall ⟨offset, hlt, hplace, hnone⟩⟩
    obtain ⟨k, hk, v, hv, hlow, hhigh⟩ := h.2 offset hlt hplace
    obtain rfl | hk := List.mem_cons.1 hk
    · refine .inr ⟨v, hv, (offset - v.offset).toNat, by omega, ?_⟩
      rw [hplace, Place.plus]
      congr 1
      omega
    · exact absurd ⟨k, hk, v, hv, hlow, hhigh⟩ hnone

/-- A variable that is filled in both runs has the same bytes in both. -/
theorem Store.Alike.fill {index : Nat} {v : Local} {data : List UInt8}
    (h : Alike (S.Settled known) σ τ) (hv : S.ctx.body.locals[index]? = some v)
    (hlen : S.ctx.localSize index ≤ data.length) :
    Alike (S.Settled (index :: known)) (σ.write (.frame v.offset) data)
      (τ.write (.frame v.offset) data) := by
  refine h.write fun p hp => ?_
  obtain hp | ⟨v', hv', i, hi, rfl⟩ := S.settled_cons hp
  · exact .inl hp
  · obtain rfl := Option.some.inj (hv.symm.trans hv')
    exact .inr ⟨i, hi.trans_le hlen, rfl⟩

/-- A variable that gets its first value has the same bytes in both runs. -/
theorem Store.Alike.cleared (h : Alike (S.Settled known) σ τ) (index : Nat) :
    Alike (S.Settled (index :: known)) (S.ctx.cleared σ index) (S.ctx.cleared τ index) := by
  have strings (records : List (Nat × Nat)) (offset : Int) : ∀ {σ τ : Store},
      Alike (S.Settled (index :: known)) σ τ →
      Alike (S.Settled (index :: known))
        (records.foldl (fun σ r => σ.write (.frame (offset + r.1))
          (encodeString [] (stringSize r.2))) σ)
        (records.foldl (fun σ r => σ.write (.frame (offset + r.1))
          (encodeString [] (stringSize r.2))) τ) := by
    induction records with
    | nil => exact fun h => h
    | cons r records ih => exact fun h => ih (h.write fun _ hp => .inl hp)
  unfold EmissionContext.cleared
  split
  next v t hv ht =>
    refine strings _ _ (h.fill hv ?_)
    rw [EmissionContext.localSize, ht, Option.bind_some, List.length_replicate]
  next hnone =>
    refine h.mono fun p hp => ?_
    obtain hp | ⟨v, hv, i, hi, -⟩ := S.settled_cons hp
    · exact hp
    · -- a variable without a type has no bytes
      cases ht : (S.ctx.body.locals[index]?).bind (·.type) with
      | some t => exact (hnone v t hv ht).elim
      | none => simp [EmissionContext.localSize, ht] at hi

/-- **The bytes outside of variables without a value are the same in both runs of a function.** -/
theorem Setting.Fits.invariant_alike (hS : S.Fits Γ) :
    S.Invariant Γ fun known => Store.Alike (S.Settled known) where
  forget hle h := h.mono fun _ => .forget hle
  reads h he hr := by
    have hread := fun x hx => h.read (he.settled_reads hS hr (x := x) hx)
    exact ⟨Expr.eval_congr hread, Expr.bytes_congr hread⟩
  assigns h _ _ _ _ _ _ _ := h.write fun _ hp => .inl hp
  declares {_ _ _ e index place data t s} h he hr hdata hτ ht hs hp := by
    obtain ⟨v, hv, rfl⟩ := Option.map_eq_some_iff.1 hp
    refine h.fill hv (he.length_bytes_of_size hS.env hr hτ ?_ hdata).ge
    rw [hS.declared, hv, Option.bind_some] at ht
    obtain ⟨n, hn, -⟩ := hS.locals index v hv
    rw [EmissionContext.localSize, hv, Option.bind_some, hn, Option.getD_some]
    rw [ht, Option.bind_some] at hn
    rw [hS.env.size?_eq hτ]
    exact hS.declared_size (by rw [hS.declared, hv, Option.bind_some, ht]) hv ht hs hn
  clears index h := h.cleared index
  returns h _ _ _ _ _ _ := h.write fun _ hp => .inl hp

end Settled

/-! ## Calls from outside -/

theorem Store.byte_eq_of_read {σ τ : Store} {place : Place} {n i : Nat}
    (h : σ.read place n = τ.read place n) (hi : i < n) :
    σ.byte (place.plus i) = τ.byte (place.plus i) := by
  have hget := congrArg (·[i]?) h
  simp only [Store.getElem?_read _ _ hi] at hget
  exact Option.some.inj hget

/-- **Two machines with the same data sets that are called with the same arguments** have the same
bytes outside of the variables of the function. -/
theorem Store.Starts.alike {S : Setting} {Γ : Env} (hS : S.Fits Γ) {σ τ : Store}
    {machine machine' : Machine} {image : Image} {arguments : List UInt8}
    (hσ : σ.Starts S.ctx S.result machine image arguments)
    (hτ : τ.Starts S.ctx S.result machine' image arguments) (hdata : image.dataSize = S.data)
    (hsame : machine.memory.read image.dynamicBase image.dataSize =
      machine'.memory.read image.dynamicBase image.dataSize) : Alike (S.Settled []) σ τ := by
  intro p ⟨hhas, hvariable⟩
  have hresult := hσ.result.trans hτ.result.symm
  have harguments := hσ.arguments.trans hτ.arguments.symm
  have hfields := Except.ok.inj ((hσ.data.symm.trans hsame).trans hτ.data)
  have hframe := hS.frame
  cases p with
  | data offset =>
    obtain ⟨hlow, hhigh⟩ := hhas
    have hbyte := byte_eq_of_read (i := offset.toNat) hfields (by omega)
    rwa [Place.plus, Int.toNat_of_nonneg hlow, zero_add] at hbyte
  | frame offset =>
    have hlow : 0 ≤ offset := by
      by_contra hlt
      obtain ⟨k, hk, -⟩ := hvariable offset (by omega) rfl
      cases hk
    have hlink : Layout.linkSize = 8 := rfl
    obtain hhas | ⟨hstart, hstop⟩ := hhas
    · omega
    by_cases hargument : offset < Layout.linkSize + S.ctx.body.frame.arguments
    · have hbyte := byte_eq_of_read (i := (offset - Layout.linkSize).toNat) harguments (by omega)
      rwa [Place.plus, Int.toNat_of_nonneg (by omega), add_sub_cancel] at hbyte
    · have hbyte := byte_eq_of_read (i := (offset - S.ctx.body.frame.result).toNat) hresult
        (by omega)
      rwa [Place.plus, Int.toNat_of_nonneg (by omega), add_sub_cancel] at hbyte

section

variable {S : Setting} {Γ : Env} {σ τ : Store}

/-- A function answers the same in stores that have the same bytes outside of its variables. -/
theorem Setting.Fits.returned_alike (hS : S.Fits Γ) (hr : S.ctx.body.isSettled = true)
    (ht : Stmt.TypedAll Γ S.ctx.function.returns S.ctx.body.statements)
    (h : Store.Alike (S.Settled []) σ τ) {fuel : Nat} {σ' : Store}
    (hσ : S.ctx.exec fuel σ = .returned σ') :
    ∃ τ', S.ctx.exec fuel τ = .returned τ' ∧
      τ'.read (.frame S.ctx.body.frame.result) S.result =
        σ'.read (.frame S.ctx.body.frame.result) S.result ∧
      τ'.read (.data 0) S.data = σ'.read (.data 0) S.data := by
  have hboth := hS.invariant_alike.exec_both hr ht h fuel
  rw [hσ] at hboth
  generalize S.ctx.exec fuel τ = c at hboth
  obtain _ | ⟨halike⟩ := hboth
  have hframe := hS.frame
  refine ⟨_, rfl, (halike.read fun i hi => ?_).symm, (halike.read fun i hi => ?_).symm⟩
  · refine S.settled_of_apart (hS.has_result.plus (by omega)) fun offset hlt hp => ?_
    simp only [Place.plus, Place.frame.injEq] at hp
    omega
  · exact S.settled_of_apart (S.has_data.plus (by omega)) fun _ _ hp => by cases hp

/-- A function divides by zero in all stores that have the same bytes outside of its variables, or
in none. -/
theorem Setting.Fits.faulted_alike (hS : S.Fits Γ) (hr : S.ctx.body.isSettled = true)
    (ht : Stmt.TypedAll Γ S.ctx.function.returns S.ctx.body.statements)
    (h : Store.Alike (S.Settled []) σ τ) {fuel : Nat} {f : Fault}
    (hσ : S.ctx.exec fuel σ = .faulted f) : S.ctx.exec fuel τ = .faulted f := by
  have hboth := hS.invariant_alike.exec_both hr ht h fuel
  rw [hσ] at hboth
  generalize S.ctx.exec fuel τ = c at hboth
  cases hboth
  rfl

end

namespace Module

variable {raw : Raw.Program} {p : Program} {m : Module} {a : Assembly} {image : Image}
  {u : Emission.Done} {f : Function} {body : UserBody} {machine₁ machine₂ : Machine}
  {arguments : List UInt8}

/-- **What the stack has held before makes no difference** to a function that reads its variables
only after they have got their first values, and that has no calls, addresses and counting loops.
Let two machines hold its module with the same data sets, and have the stack that it needs.  Called
with the same arguments both stop with the same result and the same data sets, or both divide by
zero. -/
theorem answers_alike_of_invoke (hp : Program.analyse raw = .ok p) (hm : m ∈ p.modules)
    (ha : m.assembly p = .ok a) (himage : m.image p = .ok image) (hu : u ∈ a.units)
    (hf : p.functions[u.number]? = some f) (hbody : f.user? = some body)
    (hstructured : Stmt.areStructured body.statements = true) (hsettled : body.isSettled = true)
    (hholds₁ : machine₁.Holds image) (hholds₂ : machine₂.Holds image)
    (hsame : machine₁.memory.read image.dynamicBase image.dataSize =
      machine₂.memory.read image.dynamicBase image.dataSize)
    (harguments : arguments.length = body.frame.arguments)
    (hroom₁ : machine₁.limit + EmissionContext.stack ⟨p, f, body, m.fields⟩ u.result ≤
      machine₁.memory.top)
    (hroom₂ : machine₂.limit + EmissionContext.stack ⟨p, f, body, m.fields⟩ u.result ≤
      machine₂.memory.top) :
    ∃ machine₁' machine₂', (Step.invoke (a.entry u) arguments).run machine₁ = .ok () machine₁' ∧
      (Step.invoke (a.entry u) arguments).run machine₂ = .ok () machine₂' ∧ ∀ natives : Natives,
        (∀ result data, (∃ n, (machine₁'.run natives n).StopsWith image (a.entry u) result data) ↔
          ∃ n, (machine₂'.run natives n).StopsWith image (a.entry u) result data) ∧
        ((∃ n, (machine₁'.run natives n).event = .halted (.fault .divisionByZero)) ↔
          ∃ n, (machine₂'.run natives n).event = .halted (.fault .divisionByZero)) := by
  have h := Program.complete_of_analyse hp
  obtain ⟨a', start, z, ha', hbuilt⟩ := built_of_image (h.analysed.static m hm) himage
  obtain rfl : a' = a := Except.ok.inj (ha'.symm.trans ha)
  obtain ⟨f', body', code, hfor⟩ := hbuilt.code.code u hu
  obtain rfl := Option.some.inj (hf.symm.trans hfor.function)
  obtain rfl := Option.some.inj (hbody.symm.trans hfor.user)
  have hS := h.fits hm hfor.callable.1 hf hbody hfor.result (counts_id p) z
    (fun k => .call (some k) ∈ f.mentions) fun _ => True
  have ht := h.analysed.typed u.number f hf body hbody
  obtain ⟨machine₁', hrun₁, hstarts₁, hanswers₁⟩ :=
    hbuilt.answers h hm hu hf hbody hstructured hholds₁ harguments hroom₁
  obtain ⟨machine₂', hrun₂, hstarts₂, hanswers₂⟩ :=
    hbuilt.answers h hm hu hf hbody hstructured hholds₂ harguments hroom₂
  have halike := Store.Starts.alike hS hstarts₁ hstarts₂ hbuilt.dataSize hsame
  have halike' := Store.Starts.alike hS hstarts₂ hstarts₁ hbuilt.dataSize hsame.symm
  refine ⟨machine₁', machine₂', hrun₁, hrun₂, fun natives => ⟨fun result data => ?_, ?_⟩⟩
  · rw [(hanswers₁ natives).1, (hanswers₂ natives).1]
    constructor
    · rintro ⟨fuel, σ, hσ, rfl, rfl⟩
      obtain ⟨τ, hτ, hresult, hdata⟩ := hS.returned_alike hsettled ht halike hσ
      exact ⟨fuel, τ, hτ, hresult, hdata⟩
    · rintro ⟨fuel, σ, hσ, rfl, rfl⟩
      obtain ⟨τ, hτ, hresult, hdata⟩ := hS.returned_alike hsettled ht halike' hσ
      exact ⟨fuel, τ, hτ, hresult, hdata⟩
  · rw [(hanswers₁ natives).2, (hanswers₂ natives).2]
    exact ⟨fun ⟨fuel, hσ⟩ => ⟨fuel, hS.faulted_alike hsettled ht halike hσ⟩,
      fun ⟨fuel, hσ⟩ => ⟨fuel, hS.faulted_alike hsettled ht halike' hσ⟩⟩

end Module

/-- The function of `Raw.Program.sum` has all its variables settled before it reads them. -/
theorem UserBody.isSettled_sum :
    ∀ f ∈ Program.sum.functions, ∀ body, f.user? = some body → body.isSettled = true := by
  decide +kernel

end ChannelBasic
