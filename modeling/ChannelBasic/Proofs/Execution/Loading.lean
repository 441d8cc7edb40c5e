import ChannelBasic.Proofs.Emission.Placement
import ChannelBasic.Proofs.Emission.Units
import ChannelBasic.Proofs.Machine.Safety

/-!
# Proofs/Execution/Loading — a machine with a module in it

The bytes of a module are its code and its texts, so a machine that has them from address 0 on has
**all code laid out and all texts where the code expects them** (`Module.Built`).  A machine that
has been started holds its module, and the call of a function leaves it there: arguments and result
go to the top of memory (`Machine.Invoked`).
-/

namespace ChannelBasic

open Code

/-! ## The image of a module -/

/-- An image is a memory of its own. -/
theorem Image.has_bytes (image : Image) : Memory.Has ⟨image.bytes.toArray⟩ 0 image.bytes := by
  simp [Memory.Has, Memory.read, Memory.inside, Memory.size]

/-- The code and the texts of a module, as they lie in memory. -/
structure Module.Built (p : Program) (m : Module) (a : Assembly) (image : Image)
    (start : List Piece) (z : EmissionState) : Prop where
  code : Emission.ModuleCode p m start a.units z
  codeSize : image.codeSize = Piece.size (start ++ a.units.flatMap (·.code))
  codeSize_le : image.codeSize ≤ image.dynamicBase
  dataSize : image.dataSize = m.dataSize
  dynamicBase : image.dynamicBase < 2 ^ 31 → a.link.dynamicBase.toInt = image.dynamicBase
  laid : ∀ mem : Memory, mem.Has 0 image.bytes → image.dynamicBase < 2 ^ 31 →
    a.link.Laid mem 0 (start ++ a.units.flatMap (·.code))
  texts : ∀ mem : Memory, mem.Has 0 image.bytes → image.dynamicBase < 2 ^ 31 →
    ∀ t ∈ z.static.texts, ∃ x : Nat, (a.link.staticBase + Int32.ofNat t.offset).toInt = x ∧
      mem.Has x t.record ∧ x + stringSize t.capacity ≤ image.dynamicBase

namespace Module

variable {p : Program} {m : Module} {a : Assembly} {image : Image} {start : List Piece}
  {z : EmissionState}

/-- A text lies where its offset says, counted from the end of the code. -/
theorem has_text {mem : Memory} {linked : List UInt8} (hz : z.static.Sound)
    (hmem : mem.Has 0 (linked ++ z.static.bytes))
    (hlt : linked.length + z.static.bytes.length < 2 ^ 31) {t : StaticText}
    (ht : t ∈ z.static.texts) :
    ∃ x : Nat, (Int32.ofNat linked.length + Int32.ofNat t.offset).toInt = x ∧
      mem.Has x t.record ∧ x + stringSize t.capacity ≤ linked.length + z.static.bytes.length := by
  obtain ⟨before, after, hbytes, hoffset⟩ := hz.texts t ht
  have hlen : z.static.bytes.length = t.offset + stringSize t.capacity + after.length := by
    rw [hbytes, List.length_append, List.length_append, t.length_record, hoffset]
  refine ⟨linked.length + t.offset, ?_, ?_, by omega⟩
  · rw [← Int32.ofNat_add, Int32.toInt_ofNat_of_lt (by omega)]
  · rw [hbytes, ← List.append_assoc, ← List.append_assoc] at hmem
    have hrecord := hmem.left.right
    rw [List.length_append, hoffset, Int.zero_add] at hrecord
    exact hrecord

theorem length_encoded (records : List Record) :
    (records.flatMap Record.encode).length = records.length * recordSize := by
  induction records with
  | nil => rfl
  | cons r rs ih =>
    rw [List.flatMap_cons, List.length_append, Record.length_encode, ih, List.length_cons,
      Nat.succ_mul, Nat.add_comm]

/-- **An image is its records, one for each instruction, and then its texts.** -/
theorem linked_of_image (h : m.image p = .ok image) : ∃ a records, m.assembly p = .ok a ∧
    a.link.records a.code = .ok records ∧
    image = { name := m.name, executor := m.executor,
              bytes := records.flatMap Record.encode ++ a.static.bytes, codeSize := a.codeSize,
              dataSize := m.dataSize, data := (m.initialData p).toList,
              entries := a.units.foldl (fun es u => Image.insertEntry u.name (a.entry u) es) [] } := by
  obtain ⟨a, ha, h⟩ := Checked.bind_eq_ok.1 h
  obtain ⟨linked, hlink, h⟩ := Checked.bind_eq_ok.1 h
  unfold Link.link at hlink
  split at hlink
  · cases hlink
  · obtain ⟨records, hrecords, hlink⟩ := Checked.bind_eq_ok.1 hlink
    obtain rfl := Checked.pure_eq_ok.1 hlink
    exact ⟨a, records, ha, hrecords, (Checked.pure_eq_ok.1 h).symm⟩

/-- **The image of a module holds its code and its texts.** -/
theorem built_of_image (hstatic : m.static.Sound) (h : m.image p = .ok image) :
    ∃ a start z, m.assembly p = .ok a ∧ m.Built p a image start z := by
  obtain ⟨a, records, ha, hrecords, rfl⟩ := linked_of_image h
  obtain ⟨start, z, -, hcode, htexts, hmodule⟩ := emitted_of_assembly hstatic ha
  have hcount := length_of_assembleFrom hcode
  have hlinked : (records.flatMap Record.encode).length = a.code.length * recordSize := by
    rw [length_encoded, (Checked.mapM_eq_ok.1 hrecords).length_eq]
  have hsize : a.code.length * recordSize =
      Piece.size (start ++ a.units.flatMap (·.code)) := by
    rw [hcount, Nat.mul_comm]
    rfl
  refine ⟨a, start, z, ha, hmodule, hsize, ?_, rfl, fun hlt => ?_, fun mem hmem hlt => ?_,
    fun mem hmem hlt t ht => ?_⟩
  · simp only [Image.dynamicBase, Assembly.codeSize, List.length_append, hlinked]
    omega
  · simp only [Image.dynamicBase, List.length_append, hlinked] at hlt ⊢
    rw [htexts] at hlt ⊢
    rw [Assembly.link, Assembly.codeSize, htexts, hmodule.sound.size]
    exact Int32.toInt_ofNat_of_lt hlt
  · simp only [Image.dynamicBase, List.length_append, hlinked, hsize] at hlt
    exact laid_of_assembleFrom hcode hrecords hmem.left (by
      rw [Nat.zero_add]
      exact lt_of_le_of_lt (Nat.le_add_right _ _) hlt)
  · simp only [Image.dynamicBase, List.length_append] at hlt ⊢
    have hbase : a.link.staticBase = Int32.ofNat (records.flatMap Record.encode).length := by
      rw [hlinked]
      rfl
    rw [hbase]
    rw [htexts] at hmem hlt ⊢
    exact has_text hmodule.sound hmem hlt ht

end Module

/-! ## Started machines -/

/-- A machine that has a module in its memory. -/
structure Machine.Holds (m : Machine) (image : Image) : Prop where
  bytes : m.memory.Has 0 image.bytes
  limit : m.limit = image.dynamicBase + image.dataSize
  le_top : m.limit ≤ m.memory.top

namespace Machine

variable {m m' : Machine} {image : Image}

theorem Holds.dynamicBase_lt (h : m.Holds image) (hdata : 0 ≤ image.dataSize) :
    image.dynamicBase < 2 ^ 31 := by
  have h₁ := h.limit
  have h₂ := h.le_top
  have h₃ := m.memory.top_lt
  omega

/-- **A machine that has been started holds its module.** -/
theorem holds_of_start {size : Nat} (h : start image size = .ok m) : m.Holds image := by
  obtain ⟨rfl, htop, hdata, hfits⟩ := start_eq_ok h
  have hzeros : (Memory.zeros size).top ≤ size := by
    have hle := Memory.top_le_size (Memory.zeros size)
    rwa [size_zeros] at hle
  refine ⟨?_, rfl, ?_⟩
  · refine (Memory.has_put le_rfl ?_).same (Memory.same_put (Int.natCast_nonneg _) ?_)
      fun x hx hx' => .inl ?_
    · rw [size_zeros]
      have hbase : (image.dynamicBase : Int) = image.bytes.length := rfl
      omega
    · rw [Memory.size_put, size_zeros]
      omega
    · rw [Image.dynamicBase]
      omega
  · dsimp only
    rw [Memory.top_eq ((size_loaded image size).trans (size_zeros size).symm)]
    exact htop

end Machine

/-! ## Calls from outside -/

/-- A machine that is about to run a function: its arguments and room for its result lie at the top
of memory, below them the return address 0. -/
structure Machine.Invoked (m m' : Machine) (entry : Entry) (arguments : List UInt8) : Prop where
  length : (arguments.length : Int) = entry.arguments
  result : 0 ≤ entry.result
  running : m'.event = .running
  ip : m'.ip = entry.address
  sp : m'.sp = m.memory.top - entry.result - entry.arguments - 4
  lp : m'.lp = m.memory.top
  entrySp : m'.entrySp = m'.sp + 4
  limit : m'.limit = m.limit
  room : m.limit ≤ m'.sp
  same : m.memory.Same (· < m.limit) m'.memory
  frame : m'.memory.Has m'.sp
    (Word.ofInt 4 0 ++ arguments ++ List.replicate entry.result.toNat 0)

/-- What is pushed lies on what lay on top before. -/
theorem Machine.Ready.tops_pushed_append {m : Machine} {data xs : List UInt8} (h : m.Ready)
    (hroom : m.HasRoom data.length) (hx : m.Tops xs) : (m.pushed data).Tops (data ++ xs) := by
  have hsp : (m.pushed data).sp + data.length = m.sp := sub_add_cancel ..
  refine tops_append.2 ⟨h.tops_pushed hroom, ?_, ?_⟩
  · change (m.pushed data).memory.Has ((m.pushed data).sp + data.length) xs
    rw [hsp]
    exact hx.has.same (h.same_pushed hroom) fun x hx _ => .inr hx
  · change (m.pushed data).sp + data.length + xs.length ≤ (m.pushed data).memory.top
    rw [hsp, (h.same_pushed hroom).top]
    exact hx.le_top

namespace Step

open Machine

variable {α β : Type} {m m' : Machine} {x : Step α} {f : α → Step β} {b : β} {data : List UInt8}
  {n : Int}

theorem bind_eq_ok (h : (x >>= f) m = .ok b m') : ∃ a m₁, x m = .ok a m₁ ∧ f a m₁ = .ok b m' := by
  cases hx : x m with
  | ok a m₁ => exact ⟨a, m₁, rfl, by rwa [bind_ok hx] at h⟩
  | error e m₁ => rw [bind_error hx] at h; cases h

theorem modify_eq_ok {g : Machine → Machine} {a : PUnit} (h : (modify g : Step PUnit) m = .ok a m') :
    m' = g m := by
  injection h with _ h
  exact h.symm

theorem reserve_eq_ok {a : Int} (h : reserve n m = .ok a m') : 0 ≤ n ∧ m.HasRoom n := by
  unfold reserve at h
  split at h
  next hn => exact hn
  next => cases h

theorem push_eq_ok (hm : m.Ready) (h : push data m = .ok () m') :
    m.HasRoom data.length ∧ m' = m.pushed data := by
  obtain ⟨a, m₁, hr, -⟩ := bind_eq_ok h
  have hroom := (reserve_eq_ok hr).2
  rw [push_ok hm hroom] at h
  injection h with _ h
  exact ⟨hroom, h.symm⟩

theorem pushZeros_eq_ok (hm : m.Ready) (h : pushZeros n m = .ok () m') :
    0 ≤ n ∧ m.HasRoom (List.replicate n.toNat (0 : UInt8)).length ∧
      m' = m.pushed (List.replicate n.toNat 0) := by
  obtain ⟨a, m₁, hr, -⟩ := bind_eq_ok h
  obtain ⟨hn, hroom⟩ := reserve_eq_ok hr
  have hlen : n = (List.replicate n.toNat (0 : UInt8)).length := by simp [hn]
  rw [pushZeros, reserve_write hm hlen hroom] at h
  injection h with _ h
  exact ⟨hn, hlen ▸ hroom, h.symm⟩

/-- **A call from outside puts arguments and room for the result at the top of memory.** -/
theorem invoked_of_invoke {entry : Entry} {arguments : List UInt8} (hlimit : 0 ≤ m.limit)
    (h : (invoke entry arguments).run m = .ok () m') : m.Invoked m' entry arguments := by
  change invoke entry arguments m = .ok () m' at h
  unfold invoke at h
  split at h
  · obtain ⟨_, _, h, -⟩ := bind_eq_ok h
    cases h
  next hlen =>
    obtain ⟨_, m₁, h₁, h⟩ := bind_eq_ok h
    obtain ⟨_, m₂, h₂, h⟩ := bind_eq_ok h
    obtain ⟨_, m₃, h₃, h⟩ := bind_eq_ok h
    obtain ⟨_, m₄, h₄, h⟩ := bind_eq_ok h
    obtain ⟨_, m₅, h₅, h⟩ := bind_eq_ok h
    have e₁ := modify_eq_ok h₁
    have ready₁ : m₁.Ready := by
      rw [e₁]
      refine ⟨rfl, hlimit, ?_⟩
      dsimp only
      exact le_refl _
    obtain ⟨hresult, room₁, e₂⟩ := pushZeros_eq_ok ready₁ h₂
    have ready₂ : m₂.Ready := e₂ ▸ ready₁.pushed
    obtain ⟨room₂, e₃⟩ := push_eq_ok ready₂ h₃
    have ready₃ : m₃.Ready := e₃ ▸ ready₂.pushed
    have e₄ := modify_eq_ok h₄
    have ready₄ : m₄.Ready := by rw [e₄]; exact ⟨ready₃.running, ready₃.limit, ready₃.sp⟩
    obtain ⟨room₃, e₅⟩ := push_eq_ok ready₄ h₅
    have e₆ := modify_eq_ok h
    have hlen' : (arguments.length : Int) = entry.arguments := by simpa using hlen
    have sp₁ : m₁.sp = m.memory.top := by rw [e₁]
    have sp₂ : m₂.sp = m₁.sp - entry.result := by
      rw [e₂]
      change m₁.sp - (List.replicate entry.result.toNat (0 : UInt8)).length = _
      rw [List.length_replicate, Int.toNat_of_nonneg hresult]
    have sp₃ : m₃.sp = m₂.sp - entry.arguments := by rw [e₃, ← hlen']; rfl
    have sp₄ : m₄.sp = m₃.sp := by rw [e₄]
    have sp₅ : m₅.sp = m₄.sp - 4 := by rw [e₅]; rfl
    have limit₂ : m₂.limit = m.limit := by rw [e₂, e₁]; rfl
    have limit₄ : m₄.limit = m.limit := by rw [e₄, e₃, ← limit₂]; rfl
    have low₅ : m.limit ≤ m₅.sp := by
      have hroom : m₄.limit ≤ m₄.sp - 4 := room₃
      omega
    have low₁ : 0 ≤ m₁.sp := by omega
    have tops₂ := ready₁.tops_pushed_append room₁ (Tops.nil ready₁ low₁)
    have tops₃ := ready₂.tops_pushed_append room₂ (e₂ ▸ tops₂)
    have tops₄ : m₄.Tops (arguments ++ (List.replicate entry.result.toNat 0 ++ [])) := by
      rw [← e₃] at tops₃
      rw [e₄]
      exact ⟨tops₃.has, tops₃.le_top⟩
    have tops₅ := ready₄.tops_pushed_append room₃ tops₄
    have same₂ := ready₁.same_pushed room₁
    have same₃ := ready₂.same_pushed room₂
    have same₅ := ready₄.same_pushed room₃
    rw [← e₂] at same₂
    rw [← e₃] at same₃
    rw [← e₅] at tops₅ same₅
    have event₅ : m₅.event = .running := e₅ ▸ ready₄.pushed.running
    have lp₅ : m₅.lp = m.memory.top := by
      have lp₃ : m₃.lp = m₁.lp := by rw [e₃, e₂]; rfl
      rw [e₅, e₄]
      change m₃.lp = _
      rw [lp₃, e₁]
    have entry₅ : m₅.entrySp = m₃.sp := by rw [e₅, e₄]; rfl
    have limit₅ : m₅.limit = m.limit := by rw [e₅, ← limit₄]; rfl
    rw [e₆]
    refine ⟨hlen', hresult, event₅, rfl, ?_, lp₅, ?_, limit₅, low₅, ?_, ?_⟩
    · change m₅.sp = _
      omega
    · change m₅.entrySp = m₅.sp + 4
      omega
    · have memory₁ : m₁.memory = m.memory := by rw [e₁]
      have memory₄ : m₄.memory = m₃.memory := by rw [e₄]
      have limit₁ : m₁.limit = m.limit := by rw [e₁]
      rw [memory₁, limit₁] at same₂
      rw [limit₂] at same₃
      rw [memory₄, limit₄] at same₅
      exact (same₂.mono fun x => .inl).trans
        ((same₃.mono fun x => .inl).trans (same₅.mono fun x => .inl))
    · rw [List.append_assoc, ← List.append_nil (List.replicate entry.result.toNat 0)]
      exact tops₅.has

/-- A call from outside succeeds if there is room for the arguments, the result and the return
address. -/
theorem exists_invoke {entry : Entry} {arguments : List UInt8} (hlimit : 0 ≤ m.limit)
    (hlength : (arguments.length : Int) = entry.arguments) (hresult : 0 ≤ entry.result)
    (hroom : m.limit + entry.result + entry.arguments + 4 ≤ m.memory.top) :
    ∃ m', (invoke entry arguments).run m = .ok () m' := by
  obtain ⟨zeros, hzeros⟩ : ∃ zeros : List UInt8, zeros = List.replicate entry.result.toNat 0 :=
    ⟨_, rfl⟩
  obtain ⟨m₁, h₁⟩ : ∃ m₁ : Machine,
      m₁ = { m with sp := m.memory.top, lp := m.memory.top, event := .running } := ⟨_, rfl⟩
  obtain ⟨m₃, h₃⟩ : ∃ m₃ : Machine, m₃ = (m₁.pushed zeros).pushed arguments := ⟨_, rfl⟩
  obtain ⟨m₄, h₄⟩ : ∃ m₄ : Machine, m₄ = { m₃ with entrySp := m₃.sp } := ⟨_, rfl⟩
  have hlen : entry.result = zeros.length := by simp [hzeros, hresult]
  have ready₁ : m₁.Ready := by
    rw [h₁]
    refine ⟨rfl, hlimit, ?_⟩
    dsimp only
    exact le_refl _
  have ready₃ : m₃.Ready := h₃ ▸ ready₁.pushed.pushed
  have ready₄ : m₄.Ready := by
    rw [h₄]
    exact ⟨ready₃.running, ready₃.limit, ready₃.sp⟩
  have sp₁ : m₁.sp = m.memory.top := by rw [h₁]
  have sp₂ : (m₁.pushed zeros).sp = m₁.sp - zeros.length := rfl
  have sp₄ : m₄.sp = (m₁.pushed zeros).sp - arguments.length := by rw [h₄, h₃]; rfl
  have limit₁ : m₁.limit = m.limit := by rw [h₁]
  have limit₂ : (m₁.pushed zeros).limit = m₁.limit := rfl
  have limit₄ : m₄.limit = m₁.limit := by rw [h₄, h₃]; rfl
  have zeroed : pushZeros entry.result m₁ = .ok () (m₁.pushed zeros) := by
    rw [pushZeros, ← hzeros]
    refine reserve_write ready₁ hlen ?_
    unfold HasRoom
    omega
  have passed : push arguments (m₁.pushed zeros) = .ok () m₃ := by
    rw [h₃]
    refine push_ok ready₁.pushed ?_
    unfold HasRoom
    omega
  have linked : push (Word.ofInt 4 0) m₄ = .ok () (m₄.pushed (Word.ofInt 4 0)) := by
    refine push_ok ready₄ ?_
    rw [Word.length_ofInt]
    unfold HasRoom
    omega
  have top : (modify fun m : Machine =>
      { m with sp := m.memory.top, lp := m.memory.top, event := .running } : Step PUnit) m =
        .ok ⟨⟩ m₁ := by
    rw [h₁]
    rfl
  have entered : (modify fun m : Machine => { m with entrySp := m.sp } : Step PUnit) m₃ =
      .ok ⟨⟩ m₄ := by
    rw [h₄]
    rfl
  obtain ⟨m₅, h₅⟩ : ∃ m', goto entry.address (m₄.pushed (Word.ofInt 4 0)) = .ok () m' := ⟨_, rfl⟩
  refine ⟨m₅, ?_⟩
  change invoke entry arguments m = _
  rw [invoke, if_neg (by simp [hlength])]
  dsimp only
  rw [bind_ok top, bind_ok zeroed, bind_ok passed, bind_ok entered, pushInt, bind_ok linked, h₅]

end Step

end ChannelBasic
