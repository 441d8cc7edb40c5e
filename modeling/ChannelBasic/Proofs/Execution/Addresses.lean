import ChannelBasic.Proofs.Emission.References
import ChannelBasic.Proofs.Execution.Verification
import ChannelBasic.Proofs.Machine.Strings
import ChannelBasic.Proofs.Network.Transfer

/-!
# Proofs/Execution/Addresses — everything lies where it is looked for

Offsets of texts are handed out while the static data grows, and where the data sets start is known
only when all code is there.  The linker, the image, the machine and the wires each compute addresses
for themselves, and **they all mean the same bytes** (`Image.agrees_of_analyse`): a symbolic operand
becomes the address of the record that was entered for it, or of the data field that the expression
names, and there the machine has put the field's first bytes and there its channels end.
-/

namespace ChannelBasic

open Code

/-! ## First bytes of data fields -/

namespace Memory

variable {m : Memory} {a : Int} {data : List UInt8} {strings : List (Nat × Nat)}

/-- An empty record at each of some addresses, with its capacity. -/
def filled (m : Memory) (strings : List (Nat × Nat)) : Memory :=
  strings.foldl (fun m r => m.put r.1 (encodeString [] (stringSize r.2))) m

theorem filled_append (m : Memory) (xs ys : List (Nat × Nat)) :
    m.filled (xs ++ ys) = (m.filled xs).filled ys := List.foldl_append

theorem has_zeros {size a n : Nat} (h : a + n ≤ size) :
    (zeros size).Has a (List.replicate n 0) := by
  refine has_iff.2 ⟨Int.natCast_nonneg a, ?_, fun i hi => ?_⟩
  · rw [Machine.size_zeros, List.length_replicate]
    exact_mod_cast h
  · rw [List.length_replicate] at hi
    rw [byte?, if_pos (by omega), zeros, Array.getElem?_replicate, if_pos (by omega),
      List.getElem?_replicate, if_pos hi]

/-- **Records leave alone what lies between them.** -/
theorem same_filled (h : ∀ r ∈ strings, r.1 + stringSize r.2 ≤ m.size) :
    m.Same (fun x => ∀ r ∈ strings, x < r.1 ∨ ((r.1 + stringSize r.2 : Nat) : Int) ≤ x)
      (m.filled strings) := by
  induction strings generalizing m with
  | nil => exact .refl _ _
  | cons r rest ih =>
    have hfits := h r List.mem_cons_self
    have hend : (r.1 : Int) + (encodeString [] (stringSize r.2)).length ≤ m.size := by
      rw [length_record]
      exact_mod_cast hfits
    have hput := same_put (Int.natCast_nonneg _) hend
    have hrest := ih (m := m.put r.1 (encodeString [] (stringSize r.2))) fun s hs => by
      rw [size_put]
      exact h s (List.mem_cons_of_mem _ hs)
    refine (hput.mono fun x hx => ?_).trans (hrest.mono fun x hx s hs =>
      hx s (List.mem_cons_of_mem _ hs))
    rw [length_record]
    exact_mod_cast hx r List.mem_cons_self

/-- Where bytes inside of some others have become other ones, the others have changed there. -/
theorem Has.overwritten {m' : Memory} {P : Int → Prop} {n : Nat} {ys : List UInt8}
    (h : m.Has a data) (hs : m.Same P m') (hys : m'.Has (a + n) ys)
    (hn : n + ys.length ≤ data.length) (hP : ∀ x, a ≤ x → x < a + data.length →
      (x < a + n ∨ a + n + ys.length ≤ x) → P x) :
    m'.Has a (overwrite data.toArray n ys).toList := by
  obtain ⟨ha, hsize, hbyte⟩ := has_iff.1 h
  obtain ⟨-, -, hnew⟩ := has_iff.1 hys
  have hlen : (overwrite data.toArray n ys).toList.length = data.length := by simp
  refine has_iff.2 ⟨ha, by rw [hlen, hs.size]; exact hsize, fun i hi => ?_⟩
  rw [hlen] at hi
  have hget : (overwrite data.toArray n ys).toList[i]? =
      if n ≤ i ∧ i < n + ys.length then ys[i - n]? else data[i]? := by
    rw [Array.getElem?_toList, getElem?_overwrite _ _ _ _ (by simpa using hn),
      List.getElem?_toArray]
  rw [hget]
  by_cases hin : n ≤ i ∧ i < n + ys.length
  · rw [if_pos hin, ← hnew (i - n) (by omega)]
    congr 1
    omega
  · rw [if_neg hin, hs.byte _ (hP _ (by omega) (by omega) (by omega))]
    exact hbyte i hi

/-- What is put inside of some bytes changes these. -/
theorem Has.put_inside (h : m.Has a data) {n : Nat} {ys : List UInt8}
    (hn : n + ys.length ≤ data.length) :
    (m.put (a + n) ys).Has a (overwrite data.toArray n ys).toList := by
  have ha := h.nonneg
  have hsize := h.le_size
  exact h.overwritten (same_put (by omega) (by omega)) (has_put (by omega) (by omega)) hn
    fun x _ _ hx => hx

/-- What lies inside of some bytes lies where these do. -/
theorem Has.inside {a n : Nat} {ys : List UInt8} (h : m.Has a data)
    (hys : Has ⟨data.toArray⟩ n ys) : m.Has (a + n : Nat) ys := by
  obtain ⟨-, hsize, hbyte⟩ := has_iff.1 h
  obtain ⟨-, hfits, hinner⟩ := has_iff.1 hys
  have hfits : (n : Int) + ys.length ≤ data.length := by simpa [Memory.size] using hfits
  refine has_iff.2 ⟨Int.natCast_nonneg _, by push_cast; omega, fun i hi => ?_⟩
  have hget := hinner i hi
  rw [byte?, if_pos (by omega)] at hget
  rw [← hget, List.getElem?_toArray, show ((n : Int) + i).toNat = n + i by omega,
    ← hbyte (n + i) (by omega)]
  push_cast
  rw [add_assoc]

end Memory

/-- What a value of a type starts with: zeros, and an empty record for each string in it. -/
def Program.initialBytes (p : Program) (type : TypeId) : List UInt8 :=
  ((p.strings type).foldl (fun bytes r =>
    Memory.overwrite bytes r.1 (encodeString [] (stringSize r.2)))
      (Array.replicate ((p.types.size? type).getD 0) 0)).toList

theorem Program.length_initialBytes {p : Program} {type : TypeId} {n : Nat}
    (hn : p.types.size? type = some n) : (p.initialBytes type).length = n := by
  have key (strings : List (Nat × Nat)) (bytes : Array UInt8) : (strings.foldl (fun bytes r =>
      Memory.overwrite bytes r.1 (encodeString [] (stringSize r.2))) bytes).size = bytes.size := by
    induction strings generalizing bytes with
    | nil => rfl
    | cons r rest ih => rw [List.foldl_cons, ih, Memory.size_overwrite]
  rw [initialBytes, Array.length_toList, key, Array.size_replicate, hn, Option.getD_some]

/-- Records inside of some bytes, counted from the first of them. -/
theorem Memory.Has.filled {m : Memory} {a : Nat} {bytes : Array UInt8}
    {strings : List (Nat × Nat)} (h : m.Has a bytes.toList)
    (hfits : ∀ r ∈ strings, r.1 + stringSize r.2 ≤ bytes.size) :
    (m.filled (strings.map fun r => (a + r.1, r.2))).Has a
      (strings.foldl (fun bytes r =>
        overwrite bytes r.1 (encodeString [] (stringSize r.2))) bytes).toList := by
  induction strings generalizing m bytes with
  | nil => exact h
  | cons r rest ih =>
    refine ih (m := m.put (a + r.1 : Nat) _) ?_ fun s hs => ?_
    · have hend : r.1 + (encodeString [] (stringSize r.2)).length ≤ bytes.toList.length := by
        rw [length_record, Array.length_toList]
        exact hfits r List.mem_cons_self
      simpa using h.put_inside hend
    · rw [size_overwrite]
      exact hfits s (List.mem_cons_of_mem _ hs)

namespace Module

variable {p : Program} {m : Module}

/-- The strings in some data fields, each with its offset and capacity. -/
def strings (p : Program) (fields : List Slot) : List (Nat × Nat) :=
  fields.flatMap fun f => (p.strings f.type).map fun r => (f.offset + r.1, r.2)

theorem initialData_eq (p : Program) (m : Module) :
    (⟨m.initialData p⟩ : Memory) = (Memory.zeros m.dataSize).filled (strings p m.fields) :=
  (List.foldl_hom Memory.mk fun _ _ => rfl).symm

/-- The strings in a data field lie inside the field. -/
theorem strings_within (hp : p.LaidOut) {fields : List Slot} {low high : Nat}
    (h : Slot.AllWithin p.types low high fields) {r : Nat × Nat} (hr : r ∈ strings p fields) :
    ∃ g ∈ fields, ∃ n, p.types.size? g.type = some n ∧ g.offset ≤ r.1 ∧
      r.1 + stringSize r.2 ≤ g.offset + n ∧ g.offset + n ≤ high := by
  obtain ⟨g, hg, hr⟩ := List.mem_flatMap.1 hr
  obtain ⟨s, hs, rfl⟩ := List.mem_map.1 hr
  obtain ⟨n, hn, -, hhigh⟩ := h g hg
  have hfits := hp.stringsWithin _ hn s hs
  refine ⟨g, hg, n, hn, Nat.le_add_right _ _, ?_, hhigh⟩
  dsimp only
  omega

/-- **Zeros with the strings of some fields in them have the first bytes of each field**, where the
field lies. -/
theorem has_initialBytes (hp : p.LaidOut) {fields : List Slot} {size : Nat}
    (hwithin : Slot.AllWithin p.types 0 size fields) (hfollow : Slot.Follow p.types fields)
    {f : Slot} (hf : f ∈ fields) :
    ((Memory.zeros size).filled (strings p fields)).Has f.offset (p.initialBytes f.type) := by
  obtain ⟨n, hn, -, hhigh⟩ := hwithin f hf
  obtain ⟨before, after, rfl⟩ := List.append_of_mem hf
  have hstrings : strings p (before ++ f :: after) = strings p before ++
      ((p.strings f.type).map fun r => (f.offset + r.1, r.2)) ++ strings p after := by
    simp only [strings, List.flatMap_append, List.flatMap_cons, List.append_assoc]
  have hinside {r : Nat × Nat} (hr : r ∈ strings p (before ++ f :: after)) :
      r.1 + stringSize r.2 ≤ size := by
    obtain ⟨g, -, k, -, -, h₁, h₂⟩ := strings_within hp hwithin hr
    omega
  obtain ⟨-, hafter, hbefore⟩ := List.pairwise_append.1 hfollow
  -- records of fields before or after this one do not reach into it
  have hapart (fs : List Slot) (hfs : ∀ g ∈ fs, g ∈ before ++ f :: after ∧
      ∀ k, p.types.size? g.type = some k → g.offset + k ≤ f.offset ∨ f.offset + n ≤ g.offset)
      {mem : Memory} (hsize : mem.size = size) {bytes : List UInt8}
      (hlen : bytes.length = n) (h : mem.Has f.offset bytes) :
      (mem.filled (strings p fs)).Has f.offset bytes := by
    have hw : Slot.AllWithin p.types 0 size fs := fun g hg => hwithin g (hfs g hg).1
    refine h.same (Memory.same_filled fun r hr => ?_) fun x hx hx' r hr => ?_
    · obtain ⟨g, -, k, -, -, h₁, h₂⟩ := strings_within hp hw hr
      omega
    · obtain ⟨g, hg, k, hk, h₀, h₁, -⟩ := strings_within hp hw hr
      obtain h₂ | h₂ := (hfs g hg).2 k hk <;> omega
  have hstart := hapart before (fun g hg => ⟨List.mem_append_left _ hg, fun k hk =>
      .inl (hbefore g hg f List.mem_cons_self k hk)⟩) (Machine.size_zeros _) List.length_replicate
    (Memory.has_zeros hhigh)
  have hsize : ((Memory.zeros size).filled (strings p before)).size = size := by
    refine (Memory.same_filled fun r hr => ?_).size.trans (Machine.size_zeros _)
    rw [Machine.size_zeros]
    exact hinside (by rw [hstrings]; simp [hr])
  have hown : (((Memory.zeros size).filled (strings p before)).filled
      ((p.strings f.type).map fun r => (f.offset + r.1, r.2))).Has f.offset
        (p.initialBytes f.type) := by
    rw [Program.initialBytes, hn, Option.getD_some]
    refine Memory.Has.filled (by simpa using hstart) fun r hr => ?_
    rw [Array.size_replicate]
    exact hp.stringsWithin _ hn r hr
  rw [hstrings, Memory.filled_append, Memory.filled_append]
  refine hapart after (fun g hg => ⟨List.mem_append_right _ (List.mem_cons_of_mem f hg),
    fun k hk => .inr ((List.pairwise_cons.1 hafter).1 g hg n hn)⟩) ?_
    (Program.length_initialBytes hn) hown
  refine (Memory.same_filled fun r hr => ?_).size.trans hsize
  rw [hsize]
  exact hinside (by rw [hstrings]; simp only [List.mem_append, hr, or_true, true_or])

/-- **The data sets start with the first bytes of each field**, where the field lies. -/
theorem has_initialData (hp : p.LaidOut) (hfollow : Slot.Follow p.types m.fields)
    (hm : m ∈ p.modules) {f : Slot} (hf : f ∈ m.fields) :
    Memory.Has ⟨m.initialData p⟩ f.offset (p.initialBytes f.type) := by
  rw [initialData_eq]
  exact has_initialBytes hp (hp.modules m hm) hfollow hf

end Module

/-! ## Texts -/

namespace Image

/-- Where a data field of the module lies. -/
def address (image : Image) (f : Slot) : Nat := image.dynamicBase + f.offset

/-- The bytes of the module as a memory of their own. -/
def memory (image : Image) : Memory := ⟨image.bytes.toArray⟩

/-- A text has its record in the static data, and its capacity and its code units are found there
where the record lies at addresses of 32 bits. -/
structure TextAt (image : Image) (n : Nat) (content : String) (capacity : Nat) : Prop where
  low : image.staticBase ≤ n
  high : n + stringSize capacity ≤ image.dynamicBase
  record : image.memory.Has n (encodeString (Utf16.encode content) (stringSize capacity))
  size : n + stringSize capacity < 2 ^ 31 →
    image.memory.stringSizeAt n = .ok (stringSize capacity)
  units : n + stringSize capacity < 2 ^ 31 →
    decodeString (encodeString (Utf16.encode content) (stringSize capacity)) =
      Utf16.encode content
  text : n + stringSize capacity < 2 ^ 31 → image.memory.readString n = .ok content

/-- The record of an instruction has the address of what the instruction refers to. -/
def Refers (image : Image) (m : Module) (i : Instruction) (r : Record) : Reference → Prop
  | .text content capacity => ∃ storage size offset n,
      i = .load storage size (.static offset) ∧ r.x1 = Int32.ofNat n ∧
        image.TextAt n content capacity
  | .native name => ∃ offset n, i = .call .native (.static offset) ∧ r.x0 = Int32.ofNat n ∧
      image.TextAt n name (Utf16.units name)
  | .field index within => ∃ f storage size offset, m.fields[index]? = some f ∧
      (i = .load storage size (.dynamic offset) ∨ i = .store storage size (.dynamic offset)) ∧
        r.x1 = Int32.ofNat (image.address f + within)

/-- **A text is found where its offset says**, counted from the end of the code. -/
theorem textAt_of_sound {image : Image} {code : List UInt8} {d : StaticData} (hd : d.Sound)
    (hbytes : image.bytes = code ++ d.bytes) (hcode : code.length = image.codeSize) {t : StaticText}
    (ht : t ∈ d.texts) (hfits : Utf16.units t.content ≤ t.capacity) :
    image.TextAt (image.staticBase + t.offset) t.content t.capacity := by
  obtain ⟨before, after, hrecords, hoffset⟩ := hd.texts t ht
  have hall : image.bytes = code ++ before ++ t.record ++ after := by
    rw [hbytes, hrecords]
    simp only [List.append_assoc]
  have hlength : image.dynamicBase =
      image.staticBase + t.offset + stringSize t.capacity + after.length := by
    rw [dynamicBase, hall, List.length_append, List.length_append, List.length_append,
      t.length_record, hoffset, hcode, staticBase]
  have hrecord : image.memory.Has (image.staticBase + t.offset : Nat)
      (encodeString (Utf16.encode t.content) (stringSize t.capacity)) := by
    have hhas : image.memory.Has 0 (code ++ before ++ t.record ++ after) := by
      rw [← hall]
      exact image.has_bytes
    have h := hhas.left.right
    rwa [List.length_append, hcode, hoffset, Int.zero_add] at h
  refine ⟨Nat.le_add_right _ _, by omega, hrecord, fun hlt => ?_, fun hlt => ?_, fun hlt => ?_⟩
  · exact (Memory.hasRecord_of_has hrecord (by exact_mod_cast hlt)).stringSizeAt
  · rw [decodeString_encodeString _ (by rw [stringSize] at hlt; omega),
      List.take_of_length_le hfits]
  · rw [Memory.readString_record hrecord (by exact_mod_cast hlt), List.take_of_length_le hfits,
      Utf16.decode_encode]

/-- What an instruction is made for is what it refers to once it is linked. -/
theorem refers_of_resolve {image : Image} {m : Module} {l : Link} {z : EmissionState}
    {i : Instruction} {r : Record} {reference : Reference} (hr : i.resolve l.resolve = .ok r)
    (hstatic : l.staticBase = Int32.ofNat image.staticBase)
    (hdynamic : l.dynamicBase = Int32.ofNat image.dynamicBase)
    (htexts : ∀ t ∈ z.static.texts, Utf16.units t.content ≤ t.capacity →
      image.TextAt (image.staticBase + t.offset) t.content t.capacity)
    (hfits : reference.Fits) (h : z.Refers m.fields i reference) : image.Refers m i r reference := by
  obtain ⟨x0, x1, x2, h0, h1, -, rfl⟩ := Link.resolve_eq_ok hr
  cases reference with
  | text content capacity =>
    obtain ⟨x, n, ⟨t, ht, rfl, rfl, rfl⟩, hi⟩ := h
    have hx : x1 = Int32.ofNat (image.staticBase + t.offset) := by
      have hx : l.staticBase + Int32.ofNat t.offset = x1 := by
        obtain rfl | rfl := hi <;> exact Except.ok.inj h1
      rw [← hx, hstatic, Int32.ofNat_add]
    obtain rfl | rfl := hi
    · exact ⟨_, _, _, _, rfl, hx, htexts t ht hfits⟩
    · exact ⟨_, _, _, _, rfl, hx, htexts t ht hfits⟩
  | native name =>
    obtain ⟨x, ⟨t, ht, rfl, hcapacity, rfl⟩, rfl⟩ := h
    have hx : l.staticBase + Int32.ofNat t.offset = x0 := Except.ok.inj h0
    refine ⟨_, image.staticBase + t.offset, rfl, ?_, hcapacity ▸ htexts t ht hcapacity.ge⟩
    change x0 = _
    rw [← hx, hstatic, Int32.ofNat_add]
  | field index within =>
    obtain ⟨f, hf, hi⟩ := h
    have hx (h : l.resolve (.dynamic (Int32.ofInt (f.offset + within))) = .ok x1) :
        x1 = Int32.ofNat (image.address f + within) := by
      have hx : l.dynamicBase + Int32.ofInt (f.offset + within) = x1 := Except.ok.inj h
      rw [← hx, hdynamic, address, Nat.add_assoc, Int32.ofNat_add]
      rfl
    obtain ⟨n, rfl | rfl⟩ | rfl := hi
    · exact ⟨f, _, _, _, hf, .inl rfl, hx h1⟩
    · exact ⟨f, _, _, _, hf, .inr rfl, hx h1⟩
    · exact ⟨f, _, _, _, hf, .inl rfl, hx h1⟩

end Image

/-! ## References of a module -/

/-- What a function whose code is done refers to. -/
def Emission.Done.references (p : Program) (u : Emission.Done) : List Reference :=
  match (p.functions[u.number]?).bind (·.user?) with
  | some body => body.references p
  | none => []

/-- What the code of a module refers to, function by function. -/
def Assembly.references (a : Assembly) (p : Program) : List Reference :=
  a.units.flatMap (Emission.Done.references p)

namespace Emission

variable {p : Program} {m : Module} {start : List Piece} {units : List Done} {z : EmissionState}

theorem Done.For.references_eq {u : Done} {f : Function} {body : UserBody} {code : List Piece}
    (h : u.For p m z f body code) : u.references p = body.references p := by
  rw [Done.references, h.function, Option.bind_some, h.user]

theorem Starts.referring (h : Starts p m start z) : Piece.referring start = [] := by
  unfold Starts at h
  split at h
  next => rw [h, Piece.referring_op rfl, Piece.referring_nil]
  next =>
    obtain ⟨size, l, -, -, rfl⟩ := h
    rw [Piece.referring_append, Piece.referring_roomFor, Piece.referring_op rfl,
      Piece.referring_op rfl, Piece.referring_nil, List.append_nil]

/-- **What the code of a module refers to is what its functions do.** -/
theorem ModuleCode.references (h : ModuleCode p m start units z) :
    List.Forall₂ (z.Refers m.fields) (Piece.referring (start ++ units.flatMap (·.code)))
      (units.flatMap (Done.references p)) := by
  rw [Piece.referring_append, h.starts.referring, List.nil_append]
  refine Piece.forall₂_flatten (List.forall₂_map_right_iff.2 (List.forall₂_same.2 fun u hu => ?_))
  obtain ⟨f, body, code, hfor⟩ := h.code u hu
  rw [hfor.pieces, Piece.referring_mark, hfor.references_eq]
  exact hfor.emitted.references

/-- The texts among them fit their records. -/
theorem ModuleCode.fits_references (hp : p.Analysed) (h : ModuleCode p m start units z)
    {r : Reference} (hr : r ∈ units.flatMap (Done.references p)) : r.Fits := by
  obtain ⟨u, hu, hr⟩ := List.mem_flatMap.1 hr
  obtain ⟨f, body, code, hfor⟩ := h.code u hu
  rw [hfor.references_eq] at hr
  exact UserBody.fits_references (by rfl) (by rfl) (hp.typed u.number f hfor.function body hfor.user)
    hr

end Emission

/-- Labels apart, code is assembled as it is. -/
theorem referring_of_assembleFrom {pieces : List Piece} {ls ls' : Labels} {a : Nat}
    {code : List Instruction} (h : assembleFrom ls a pieces = .ok (code, ls')) :
    code.filter (·.isReferring) = Piece.referring pieces := by
  induction pieces generalizing ls a code with
  | nil =>
    obtain ⟨rfl, rfl⟩ := Prod.mk.inj (Except.ok.inj h)
    rfl
  | cons x rest ih =>
    cases x with
    | mark l =>
      obtain ⟨ls₁, -, h⟩ := Checked.bind_eq_ok.1 h
      exact ih h
    | op i =>
      obtain ⟨⟨code', ls₁⟩, hrest, h⟩ := Checked.bind_eq_ok.1 h
      obtain ⟨rfl, rfl⟩ := Prod.mk.inj (Checked.pure_eq_ok.1 h)
      cases hi : i.isReferring with
      | true => rw [List.filter_cons_of_pos hi, Piece.referring_reference hi, ih hrest]
      | false => rw [List.filter_cons_of_neg (by simp [hi]), Piece.referring_op hi, ih hrest]

/-! ## All addresses of a module -/

namespace Image

/-- An end of a channel lies where the data field does, if that is one of the module's, which is the
`k`th. -/
def Ends (image : Image) (m : Module) (k : Nat) (r : DataFieldRef) (t : Terminal) : Prop :=
  r.owner = k → ∃ f, m.fields[r.index]? = some f ∧ t = ⟨image.name, image.address f⟩

/-- All that is computed about the addresses of a module agrees. -/
structure Agrees (image : Image) (p : Program) (m : Module) (a : Assembly) : Prop where
  bytes : ∃ records, List.Forall₂ (fun i r => i.resolve a.link.resolve = .ok r) a.code records ∧
    image.bytes = records.flatMap Record.encode ++ a.static.bytes
  codeSize : image.codeSize = recordSize * a.code.length
  records : ∀ (k : Nat) (i : Instruction), a.code[k]? = some i →
    ∃ r, i.resolve a.link.resolve = .ok r ∧ image.record? k = some r
  staticBase : a.link.staticBase = Int32.ofNat image.staticBase
  dynamicBase : a.link.dynamicBase = Int32.ofNat image.dynamicBase
  references : List.Forall₂ (fun x reference => ∃ r, image.record? x.2 = some r ∧
    image.Refers m x.1 r reference) (a.code.zipIdx.filter (·.1.isReferring)) (a.references p)
  data : ∀ size machine, Machine.start image size = .ok machine → ∀ f ∈ m.fields,
    machine.memory.Has (image.address f) (p.initialBytes f.type)
  channels : ∀ x k, Executable.ofProgram p = .ok x → p.modules[k]? = some m →
    List.Forall₂ (fun c w => ∃ output input, c.fields = some (output, input) ∧
      image.Ends m k output w.source ∧ image.Ends m k input w.destination) p.channels x.wires

variable {raw : Raw.Program} {p : Program} {m : Module} {a : Assembly} {image : Image}

/-- **Code, texts and data sets start where the linker takes them to start.** -/
theorem bases_of_image (hp : p.Analysed) (hm : m ∈ p.modules) (ha : m.assembly p = .ok a)
    (himage : m.image p = .ok image) : a.link.staticBase = Int32.ofNat image.staticBase ∧
      a.link.dynamicBase = Int32.ofNat image.dynamicBase := by
  obtain ⟨a', records, ha', hrecords, rfl⟩ := Module.linked_of_image himage
  obtain rfl : a' = a := Except.ok.inj (ha'.symm.trans ha)
  refine ⟨rfl, ?_⟩
  obtain ⟨start, z, -, -, hstatic, hcode⟩ := Module.emitted_of_assembly (hp.static m hm) ha
  rw [dynamicBase, List.length_append, Module.length_encoded,
    ← (Checked.mapM_eq_ok.1 hrecords).length_eq, hstatic, ← hcode.sound.size, ← hstatic]
  rfl

/-- **Every symbolic operand has become the address of what it stands for.** -/
theorem references_of_image (hp : p.Analysed) (hm : m ∈ p.modules) (ha : m.assembly p = .ok a)
    (himage : m.image p = .ok image) :
    List.Forall₂ (fun x reference => ∃ r, image.record? x.2 = some r ∧
      image.Refers m x.1 r reference) (a.code.zipIdx.filter (·.1.isReferring)) (a.references p) := by
  obtain ⟨hstatic, hdynamic⟩ := bases_of_image hp hm ha himage
  obtain ⟨-, hrecords⟩ := Module.record?_of_image ha himage
  obtain ⟨start, z, -, hassemble, htexts, hcode⟩ := Module.emitted_of_assembly (hp.static m hm) ha
  obtain ⟨a', linked, ha', hlinked, rfl⟩ := Module.linked_of_image himage
  obtain rfl : a' = a := Except.ok.inj (ha'.symm.trans ha)
  have hlength : (linked.flatMap Record.encode).length = a'.code.length * recordSize := by
    rw [Module.length_encoded, ← (Checked.mapM_eq_ok.1 hlinked).length_eq]
  have hmade : List.Forall₂ (fun x reference => z.Refers m.fields x.1 reference)
      (a'.code.zipIdx.filter (·.1.isReferring)) (a'.references p) := by
    have h := hcode.references
    rw [← referring_of_assembleFrom hassemble, ← List.zipIdx_map_fst 0 a'.code,
      List.filter_map] at h
    exact List.forall₂_map_left_iff.1 h
  refine List.forall₂_iff_get.2 ⟨hmade.length_eq, fun k hk hk' => ?_⟩
  have hmem := (List.mem_filter.1 (List.get_mem _ ⟨k, hk⟩)).1
  obtain ⟨r, hr, hrecord⟩ := hrecords _ _ (List.mem_zipIdx_iff_getElem?.1 hmem)
  refine ⟨r, hrecord, refers_of_resolve hr hstatic hdynamic (fun t ht hfits => ?_)
    (hcode.fits_references hp (List.get_mem _ ⟨k, hk'⟩)) (hmade.get hk hk')⟩
  exact textAt_of_sound hcode.sound (by rw [htexts]) hlength ht hfits

/-- **A machine that has been started has the first bytes of every field where the field lies.** -/
theorem data_of_start (hp : p.Complete) (hfollow : Slot.Follow p.types m.fields)
    (hm : m ∈ p.modules) (himage : m.image p = .ok image) {size : Nat} {machine : Machine}
    (hstart : Machine.start image size = .ok machine) {f : Slot} (hf : f ∈ m.fields) :
    machine.memory.Has (image.address f) (p.initialBytes f.type) := by
  obtain ⟨a, records, -, -, himage⟩ := Module.linked_of_image himage
  have hdata : image.data = (m.initialData p).toList := by rw [himage]
  have hinitial : (⟨image.data.toArray⟩ : Memory).Has f.offset (p.initialBytes f.type) := by
    rw [hdata, Array.toArray_toList]
    exact Module.has_initialData hp.analysed.laidOut hfollow hm hf
  obtain ⟨rfl, -, -, hfits⟩ := Machine.start_eq_ok hstart
  refine Memory.Has.inside (a := image.dynamicBase) (Memory.has_put (Int.natCast_nonneg _) ?_)
    hinitial
  rw [Memory.size_put, Machine.size_zeros]
  exact_mod_cast hfits

/-- **Channels end where the data fields lie.** -/
theorem ends_of_ofProgram (hp : p.Channelled) (himage : m.image p = .ok image) {x : Executable}
    {k : Nat} (hx : Executable.ofProgram p = .ok x) (hk : p.modules[k]? = some m) :
    List.Forall₂ (fun c w => ∃ output input, c.fields = some (output, input) ∧
      image.Ends m k output w.source ∧ image.Ends m k input w.destination)
        p.channels x.wires := by
  have hlocated {r : DataFieldRef} {n : Nat} {t : Terminal} (h : Executable.Located p x r n t) :
      image.Ends m k r t := by
    rintro rfl
    obtain ⟨m', image', f, hm', himage', hf, -, rfl⟩ := h.exists_field
    obtain rfl : m' = m := Option.some.inj (hm'.symm.trans hk)
    obtain ⟨m'', hm'', h''⟩ := forall₂_right (Executable.images_of_ofProgram hx) himage'
    obtain rfl : m'' = m' := Option.some.inj (hm''.symm.trans hk)
    obtain rfl : image' = image := Except.ok.inj (h''.symm.trans himage)
    exact ⟨f, hf, rfl⟩
  refine (Executable.draws_of_ofProgram hp hx).imp fun c w hdraws => ?_
  obtain ⟨output, input, hfields, -, -, hsource, hdestination⟩ := hdraws.exists_ends
  exact ⟨output, input, hfields, hlocated hsource, hlocated hdestination⟩

end Image

/-- A module that fills a data field with a text and prints both it and another text, and a module
that the field is sent to. -/
def Raw.Program.notice : Raw.Program :=
  let place : Location := default
  let data (access : Access) : Raw.DataSet :=
    ⟨place, access, [⟨place, "COUNT", .scalar .integer⟩,
      ⟨place, "TITLE", .stringOf (.integer place 8)⟩]⟩
  let print (e : Raw.Expr) : Raw.Stmt := .call place (.call place "print" [e])
  let main : Raw.Function := ⟨place, "MAIN", none,
    .user [] [.assign place (.name place "TITLE") (.text place "HELLO"),
      print (.name place "TITLE"), print (.text place "DONE")]⟩
  ⟨[], [], [⟨place, [], [⟨place, "print", none, .native [.pointer (.constant .string)]⟩]⟩],
    [⟨place, "A", "NODE", [data .output], [⟨place, [], [main]⟩]⟩,
      ⟨place, "B", "NODE", [data .input], []⟩],
    [⟨place, ⟨"A", "TITLE"⟩, ⟨"B", "TITLE"⟩⟩]⟩

/-- What `Raw.Program.notice` means. -/
def Program.notice : Program := (analyse .notice).toOption.getD default

end ChannelBasic
