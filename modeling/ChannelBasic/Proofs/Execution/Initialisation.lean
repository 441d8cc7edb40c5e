import ChannelBasic.Proofs.Execution.Computation
import ChannelBasic.Proofs.Execution.Discipline
import ChannelBasic.Proofs.Program.Strings

/-!
# Proofs/Execution/Initialisation — variables and data fields start alike

A variable gets its first bytes from instructions, a data field from the image of its module.  Both
go by the list of the strings inside a type.  **They come to the same bytes, whatever lay in memory
before** (`Program.starts_alike_of_analyse`): an empty record for a string, what the fields start
with one after the other for a structured type, zeros for everything else (`Program.Starts`).

The code of a variable pushes zeros and stores them, and then an empty record for each string
(`Machine.Writes.records`).  The zeros are left out where the first record is as large as the
variable, which leaves nothing of what was there before (`Machine.Poised.initialises`).
-/

namespace ChannelBasic

open Code

/-! ## What a value starts with -/

/-- A string record without any code units in it. -/
def emptyRecord (capacity : Nat) : List UInt8 :=
  Word.bytes 4 0 ++ Word.bytes 4 capacity ++ List.replicate (2 * capacity) 0

theorem encodeString_nil (c : Nat) : encodeString [] (stringSize c) = emptyRecord c := by
  rw [encodeString_eq, List.take_nil, List.length_nil, Nat.sub_zero]
  rfl

namespace Program

mutual

/-- The bytes that a value of a type starts with: an empty record with its capacity, what the fields
start with, or zeros. -/
inductive Starts (p : Program) : TypeId → List UInt8 → Prop
  | string {t : TypeId} {c : Nat} (hc : p.types.capacity? t = some c) : Starts p t (emptyRecord c)
  | struct {t : TypeId} {k : Nat} {d : Struct} {bytes : List UInt8}
      (hk : p.types.struct? t = some k) (hd : p.structs[k]? = some d)
      (h : StartsAll p d.fields bytes) : Starts p t bytes
  | zeros {t : TypeId} {n : Nat} (hc : p.types.capacity? t = none)
      (hk : p.types.struct? t = none) (hn : p.types.size? t = some n) :
      Starts p t (List.replicate n 0)

/-- The bytes that fields start with, one after the other. -/
inductive StartsAll (p : Program) : List Slot → List UInt8 → Prop
  | nil : StartsAll p [] []
  | cons {f : Slot} {fs : List Slot} {first later : List UInt8} (h : Starts p f.type first)
      (hs : StartsAll p fs later) : StartsAll p (f :: fs) (first ++ later)

end

variable {p : Program} {t : TypeId} {c k n : Nat} {d : Struct} {fs : List Slot}

theorem startsAll_iff (h : ∀ f ∈ fs, ∀ b, p.Starts f.type b ↔ b = p.initialBytes f.type)
    (b : List UInt8) : p.StartsAll fs b ↔ b = fs.flatMap fun f => p.initialBytes f.type := by
  induction fs generalizing b with
  | nil => exact ⟨fun h => (by cases h; rfl), fun h => h ▸ .nil⟩
  | cons f fs ih =>
    have hf := h f List.mem_cons_self
    have hfs := ih fun g hg => h g (List.mem_cons_of_mem f hg)
    rw [List.flatMap_cons]
    refine ⟨fun h => ?_, fun h => h ▸ .cons ((hf _).2 rfl) ((hfs _).2 rfl)⟩
    cases h with
    | cons h hs => rw [(hf _).1 h, (hfs _).1 hs]

/-- Zeros with the strings of a type in them are what a value of the type starts with. -/
theorem LaidOut.has_initialBytes (hp : p.LaidOut) (hn : p.types.size? t = some n) :
    ((Memory.zeros n).filled (p.strings t)).Has 0 (p.initialBytes t) := by
  have hzeros : (Memory.zeros n).Has (0 : Nat) (List.replicate n 0) :=
    Memory.has_zeros (Nat.zero_add n).le
  rw [← Array.toList_replicate] at hzeros
  have hfits : ∀ r ∈ p.strings t, r.1 + stringSize r.2 ≤ (Array.replicate n (0 : UInt8)).size :=
    fun r hr => by simpa using hp.stringsWithin _ hn r hr
  have hfilled := hzeros.filled hfits
  rw [initialBytes, hn, Option.getD_some]
  simpa using hfilled

/-- Bytes of fields that lie where the fields do without gaps lie one after the other. -/
theorem has_flatMap {m : Memory} {bytes : Slot → List UInt8} (hfs : ∀ f ∈ fs, ∀ offset,
      bytes { f with offset } = bytes f ∧ p.types.size? f.type = some (bytes f).length)
    (offset : Nat) (hsize : offset + p.types.bytes (fs.map (·.type)) ≤ m.size)
    (h : ∀ f ∈ Slot.packed p.types offset fs, m.Has f.offset (bytes f)) :
    m.Has offset (fs.flatMap bytes) := by
  induction fs generalizing offset with
  | nil =>
    have hle : offset ≤ m.size := by simpa [TypeTable.bytes] using hsize
    exact Memory.has_iff.2 ⟨Int.natCast_nonneg _, by simpa using hle, by simp⟩
  | cons f fs ih =>
    obtain ⟨hf, hlen⟩ := hfs f List.mem_cons_self offset
    rw [List.map_cons, TypeTable.bytes_cons, hlen, Option.getD_some] at hsize
    rw [Slot.packed_cons, hlen, Option.getD_some, List.forall_mem_cons, hf] at h
    rw [List.flatMap_cons, Memory.has_append]
    exact ⟨h.1, ih (fun g hg => hfs g (List.mem_cons_of_mem f hg)) _ (by omega) h.2⟩

/-- **A structured type starts with what its fields start with**, one after the other. -/
theorem Packed.initialBytes_struct (hp : p.Packed) (hk : p.types.struct? t = some k)
    (hd : p.structs[k]? = some d) :
    p.initialBytes t = d.fields.flatMap fun f => p.initialBytes f.type := by
  have hn := hp.size?_struct hk hd
  have hfield {f : Slot} (hf : f ∈ d.fields) :
      p.types.size? f.type = some (p.initialBytes f.type).length := by
    obtain ⟨n, hn, -⟩ := hp.allWithin hd f hf
    rw [length_initialBytes hn, hn]
  have hall := hp.analysed.laidOut.has_initialBytes hn
  rw [hp.strings_of_struct hk hd] at hall
  have hsize := hall.le_size
  rw [length_initialBytes hn] at hsize
  have hpacked : ∀ f ∈ Slot.packed p.types 0 d.fields,
      ((Memory.zeros (p.types.bytes (d.fields.map (·.type)))).filled
        (Module.strings p d.fields)).Has f.offset (p.initialBytes f.type) := fun f hf =>
    Module.has_initialBytes hp.analysed.laidOut (hp.allWithin hd) (hp.follow hd)
      (hp.fields k d hd ▸ hf)
  have hfields := has_flatMap (fun f hf _ => ⟨rfl, hfield hf⟩) 0 (by simpa using hsize) hpacked
  refine hfields.unique hall ?_
  rw [length_initialBytes hn, List.length_flatMap, TypeTable.bytes, List.map_map]
  exact congrArg List.sum (List.map_congr_left fun f hf => by simp [hfield hf])

/-- **The first bytes of a type are what a value of it starts with**, and nothing else is. -/
theorem Packed.starts_iff (hp : p.Packed) (t : TypeId) : ∀ n, p.types.size? t = some n →
    ∀ b, p.Starts t b ↔ b = p.initialBytes t := by
  induction t using hp.induction with
  | h t ih =>
  intro n hn b
  have hhas := hp.analysed.laidOut.has_initialBytes hn
  have hlen := length_initialBytes hn
  cases hc : p.types.capacity? t with
  | some c =>
    obtain rfl : stringSize c = n := by
      rw [TypeTable.size?_eq, TypeTable.capacity?_iff.1 hc] at hn
      exact Option.some.inj hn
    have hrecord : p.initialBytes t = emptyRecord c := by
      rw [strings, stringsWithin_of_string hc, Memory.filled, List.foldl_cons, List.foldl_nil,
        encodeString_nil] at hhas
      have hlength : (emptyRecord c).length = stringSize c := by
        rw [← encodeString_nil, Memory.length_record]
      refine (Memory.has_put le_rfl ?_).unique hhas (by rw [hlen, hlength])
      rw [hlength, Machine.size_zeros, zero_add]
    rw [hrecord]
    refine ⟨fun h => ?_, fun h => h ▸ .string hc⟩
    cases h with
    | string hc' => rw [Option.some.inj (hc'.symm.trans hc)]
    | struct hk => exact absurd hc (by simp [TypeTable.capacity?_of_struct? hk])
    | zeros hc' => rw [hc] at hc'; cases hc'
  | none =>
    cases hk : p.types.struct? t with
    | some k =>
      obtain ⟨d, hd⟩ := hp.analysed.exists_struct hk
      have hfields : ∀ f ∈ d.fields, ∀ b, p.Starts f.type b ↔ b = p.initialBytes f.type := by
        intro f hf
        obtain ⟨m, hm, -⟩ := hp.allWithin hd f hf
        exact ih k d hk hd f hf m hm
      have hall := startsAll_iff hfields
      rw [hp.initialBytes_struct hk hd, ← hall]
      refine ⟨fun h => ?_, .struct hk hd⟩
      cases h with
      | string hc' => rw [hc] at hc'; cases hc'
      | struct hk' hd' h =>
        obtain rfl := Option.some.inj (hk.symm.trans hk')
        obtain rfl := Option.some.inj (hd.symm.trans hd')
        exact h
      | zeros _ hk' => rw [hk] at hk'; cases hk'
    | none =>
      have hzeros : p.initialBytes t = List.replicate n 0 := by
        rw [initialBytes, strings, stringsWithin_of_plain hc hk, hn]
        simp
      rw [hzeros]
      refine ⟨fun h => ?_, fun h => h ▸ .zeros hc hk hn⟩
      cases h with
      | string hc' => rw [hc] at hc'; cases hc'
      | struct hk' => rw [hk] at hk'; cases hk'
      | zeros _ _ hn' => rw [Option.some.inj (hn'.symm.trans hn)]

end Program

/-! ## Bytes that are put in a frame -/

/-- Bytes that are written over as many others are all that is left. -/
theorem Memory.overwrite_all {bytes : Array UInt8} {data : List UInt8}
    (h : data.length = bytes.size) : overwrite bytes 0 data = data.toArray := by
  refine Array.ext_getElem? fun i => ?_
  rw [getElem?_overwrite _ _ _ _ (by omega), Nat.zero_add, Nat.sub_zero]
  split
  · exact List.getElem?_toArray.symm
  · rw [Array.getElem?_eq_none (by omega), Array.getElem?_eq_none (by simp; omega)]

namespace Machine

variable {m m' m'' : Machine} {natives : Natives} {l : Link} {z : EmissionState}
  {code xs ys : List Piece} {i : Instruction} {rest : List Piece} {k j n : Nat} {a o : Int}
  {data bytes : List UInt8}

/-- A machine that has run `k` instructions, which have left some bytes at an address and changed
nothing else but the free part of the stack. -/
structure Writes (m m' : Machine) (k : Nat) (a : Int) (data : List UInt8) : Prop where
  running : m'.event = .running
  ip : m'.ip = m.ip + (recordSize * k : Nat)
  sp : m'.sp = m.sp
  lp : m'.lp = m.lp
  entrySp : m'.entrySp = m.entrySp
  limit : m'.limit = m.limit
  printed : m'.printed = m.printed
  same : m.memory.Same (fun x => (x < m.limit ∨ m.sp ≤ x) ∧ (x < a ∨ a + data.length ≤ x))
    m'.memory
  has : m'.memory.Has a data

/-- A machine that is about to run code of a function: the code and the texts lie below the stack,
the function's frame lies in it. -/
structure Poised (m : Machine) (l : Link) (z : EmissionState) (code : List Piece) : Prop where
  ready : m.Ready
  laid : l.Laid m.memory m.ip code
  below : m.ip + Piece.size code ≤ m.limit
  texts : ∀ t ∈ z.static.texts, m.memory.Has (l.staticBase + Int32.ofNat t.offset).toInt t.record ∧
    (l.staticBase + Int32.ofNat t.offset).toInt + t.record.length ≤ m.limit
  frame : m.lp ≤ m.memory.top

/-- A machine that runs a function of its module is poised for the code that lies there. -/
theorem Runs.poised {image : Image} {f : Activation} {S : Setting} {ip : Int} {depth : Nat}
    (h : m.Runs image f ip depth) (hf : f.Proper image) (hS : S.In image l)
    (hcode : image.Lies l ip code) : m.Poised l S.state code := by
  have hbytes := h.bytes hf
  have hlimit := h.limit
  have hdata := hS.data
  have hinside := hcode.inside
  have hbase := hS.links.code
  refine ⟨h.ready hf hS, h.ip ▸ hcode.laid m.memory hbytes, ?_, fun t ht => ?_, ?_⟩
  · rw [h.ip]
    omega
  · obtain ⟨x, hx, hhas, hle⟩ := hS.links.texts m.memory hbytes t ht
    rw [hx]
    exact ⟨hhas, by rw [t.length_record]; omega⟩
  · have := hf.top
    rw [h.lp, h.top_eq]
    omega

/-- Nothing has been run, and what lies somewhere lies there. -/
theorem Writes.start (hm : m.Ready) (h : m.memory.Has a data) : m.Writes m 0 a data :=
  ⟨hm.running, by simp, rfl, rfl, rfl, rfl, rfl, .refl _ _, h⟩

/-- What is left inside of the bytes left before changes these. -/
theorem Writes.inside (h : m.Writes m' k a data) (ha : m.sp ≤ a) {i : Nat}
    (h' : m'.Writes m'' j (a + i) bytes) (hi : i + bytes.length ≤ data.length) :
    m.Writes m'' (k + j) a (Memory.overwrite data.toArray i bytes).toList where
  running := h'.running
  ip := by rw [h'.ip, h.ip, Nat.mul_add]; push_cast; ring
  sp := h'.sp.trans h.sp
  lp := h'.lp.trans h.lp
  entrySp := h'.entrySp.trans h.entrySp
  limit := h'.limit.trans h.limit
  printed := h'.printed.trans h.printed
  same := by
    have hlen : (Memory.overwrite data.toArray i bytes).toList.length = data.length := by simp
    rw [hlen]
    refine h.same.trans (h'.same.mono fun x hx => ?_)
    rw [h.limit, h.sp]
    omega
  has := h.has.overwritten h'.same h'.has hi fun x hx hx' hout => by
    rw [h.sp]
    omega

/-- A machine that has put bytes in a frame goes on with the code behind. -/
theorem Poised.after (h : m.Poised l z (xs ++ ys)) (hw : m.Writes m' (Piece.count xs) a data)
    (ha : m.limit ≤ a) : m'.Poised l z ys := by
  have hbelow := h.below
  rw [Piece.size_append] at hbelow
  have hip : m'.ip = m.ip + Piece.size xs := hw.ip
  have hkept {x : Int} (hx : x < m.limit) :
      (x < m.limit ∨ m.sp ≤ x) ∧ (x < a ∨ a + data.length ≤ x) := by omega
  refine ⟨⟨hw.running, by rw [hw.limit]; exact h.ready.limit, ?_⟩, ?_, ?_, fun t ht => ?_, ?_⟩
  · rw [hw.sp, hw.same.top]
    exact h.ready.sp
  · rw [hip]
    exact h.laid.right.same hw.same fun x _ hx => hkept (by omega)
  · rw [hip, hw.limit]
    omega
  · obtain ⟨hhas, hle⟩ := h.texts t ht
    exact ⟨hhas.same hw.same fun x _ hx => hkept (by omega), by rwa [hw.limit]⟩
  · rw [hw.lp, hw.same.top]
    exact h.frame

/-- **What is pushed and then stored in a frame lies there.** -/
theorem Poised.puts (h : m.Poised l z ([.op i, .op ((Place.frame o).store n)] ++ rest))
    (htick : m.tick natives = m.answered data) (hn : data.length = n) (hroom : m.HasRoom n)
    (hlow : m.sp ≤ m.lp + o) (hhigh : o + n ≤ 0) :
    m.Writes (m.run natives 2) 2 (m.lp + o) data ∧ (m.run natives 2).Poised l z rest := by
  suffices hw : m.Writes (m.run natives 2) 2 (m.lp + o) data from
    ⟨hw, h.after hw (by unfold HasRoom at hroom; omega)⟩
  subst hn
  rw [List.cons_append, List.singleton_append] at h
  have hm := h.ready
  have hlimit := hm.limit
  have htop := m.memory.top_lt
  have hframe := h.frame
  have hsize := m.memory.top_le_size
  have hpush := hm.pushes_answered hroom
  rw [← htick] at hpush
  have hbelow := h.below
  rw [Piece.size_op] at hbelow
  have hlaid : l.Laid (m.tick natives).memory (m.tick natives).ip
      (.op ((Place.frame o).store data.length) :: rest) := by
    rw [hpush.ip]
    have hsplit : l.Laid m.memory m.ip ([.op i] ++ .op ((Place.frame o).store data.length) :: rest) :=
      h.laid
    refine hsplit.right.same hpush.same fun x _ hx => .inl ?_
    rw [Piece.size_op, Piece.size_nil] at hx
    push_cast at hx
    omega
  have hsp := hpush.sp
  have hlp := hpush.lp
  unfold HasRoom at hroom
  obtain ⟨x0, x1, x2, h0, h1, h2, hat⟩ := hlaid.at
  obtain rfl : Word.size32 data.length = x0 := Except.ok.inj h0
  obtain rfl : Int32.ofInt o = x1 := Except.ok.inj h1
  have ho : (Int32.ofInt o).toInt = o := Word.toInt_ofInt (Word.fits32_iff.2 (by omega))
  have hsize' : (m.tick natives).memory.size = m.memory.size := hpush.same.size
  have hend : (m.tick natives).lp + o + data.length ≤ (m.tick natives).memory.size := by omega
  have hstore : (m.tick natives).tick natives = (((m.tick natives).stored
      ((m.tick natives).lp + (Int32.ofInt o).toInt) data).popped data.length).next :=
    tick_storeFrame hat hpush.tops (Word.toInt_size32 (by omega))
      (by rw [ho, Word.fits32_iff]; omega) (by rw [ho]; omega) (by rw [ho]; exact hend)
  rw [run_succ hm.running, run_succ hpush.running, hstore, ho, hlp]
  refine ⟨hpush.running, ?_, ?_, hlp, hpush.entrySp, hpush.limit, hpush.printed,
    (hpush.same.mono fun x hx => hx.1).trans ((Memory.same_put (by omega) ?_).mono fun x hx => hx.2),
    Memory.has_put (by omega) ?_⟩
  · change (m.tick natives).ip + recordSize = _
    rw [hpush.ip]
    push_cast
    ring
  · change (m.tick natives).sp + data.length = _
    omega
  · omega
  · omega

/-- A text is pushed as its record. -/
theorem Poised.tick_text {c : Nat} {content : String} {x : Operand} (natives : Natives)
    (h : m.Poised l z (.op (.load .global (Word.size32 (stringSize c)) x) :: rest))
    (hx : z.Text content c x) (hroom : m.HasRoom (stringSize c)) :
    m.tick natives = m.answered (encodeString (Utf16.encode content) (stringSize c)) := by
  obtain ⟨t, ht, rfl, rfl, rfl⟩ := hx
  obtain ⟨x0, x1, x2, h0, h1, h2, hat⟩ := h.laid.at
  obtain rfl : Word.size32 (stringSize t.capacity) = x0 := Except.ok.inj h0
  obtain rfl : l.staticBase + Int32.ofNat t.offset = x1 := Except.ok.inj h1
  refine tick_loadGlobal h.ready hat ?_ fun _ => (h.texts t ht).1
  rw [Word.toInt_size32 (h.ready.room_lt hroom), Memory.length_record]

/-- **The records of a variable are put into it**, one after the other. -/
theorem Writes.records {strings : List (Nat × Nat)} {records : List (List Piece)}
    (hrecords : List.Forall₂ (fun r pieces => ∃ x, z.Text "" r.2 x ∧
      pieces = [Piece.op (.load .global (Word.size32 (stringSize r.2)) x),
        .op ((Place.frame (o + r.1)).store (stringSize r.2))]) strings records)
    (hw : m.Writes m' k (m.lp + o) data) (h : m'.Poised l z records.flatten)
    (hlow : m.sp ≤ m.lp + o) (hhigh : o + data.length ≤ 0) (hroom : m.HasRoom data.length)
    (hinside : ∀ r ∈ strings, r.1 + stringSize r.2 ≤ data.length) (natives : Natives) :
    m.Writes (m'.run natives (Piece.count records.flatten)) (k + Piece.count records.flatten)
      (m.lp + o) (strings.foldl (fun bytes r =>
        Memory.overwrite bytes r.1 (encodeString [] (stringSize r.2))) data.toArray).toList := by
  induction hrecords generalizing m' k data with
  | nil => exact hw
  | @cons r pieces strings records hr _ ih =>
    obtain ⟨x, hx, rfl⟩ := hr
    have hfits := hinside r List.mem_cons_self
    have hlen : (encodeString [] (stringSize r.2)).length = stringSize r.2 :=
      Memory.length_record [] r.2
    have hsp := hw.sp
    have hlp := hw.lp
    have hlimit := hw.limit
    unfold HasRoom at hroom
    have hroom' : m'.HasRoom (stringSize r.2) := by
      unfold HasRoom
      omega
    rw [List.flatten_cons] at h
    have htick := h.tick_text natives hx hroom'
    rw [show Utf16.encode "" = [] from rfl] at htick
    obtain ⟨hputs, hafter⟩ := h.puts htick hlen hroom' (by omega) (by omega)
    rw [hlp, ← add_assoc] at hputs
    have hfirst := hw.inside hlow hputs (by omega)
    have hlength : (Memory.overwrite data.toArray r.1
        (encodeString [] (stringSize r.2))).toList.length = data.length := by simp
    have hrest := ih hfirst hafter (by omega) (by unfold HasRoom; omega) fun s hs => by
      rw [hlength]
      exact hinside s (List.mem_cons_of_mem _ hs)
    rw [Array.toArray_toList, Nat.add_assoc, ← run_add] at hrest
    rw [List.flatten_cons, Piece.count_append, List.foldl_cons]
    exact hrest

/-- **A variable gets the bytes that its type starts with**, whatever lay there before. -/
theorem Poised.initialises {ctx : EmissionContext} {index : Nat} {v : Local} {t : TypeId}
    (hp : ctx.program.LaidOut) (hcode : ctx.Initialises z index code)
    (hv : ctx.body.locals[index]? = some v) (ht : v.type = some t)
    (hn : ctx.program.types.size? t = some n) (hhigh : v.offset + n ≤ 0)
    (h : m.Poised l z code) (hlow : m.sp ≤ m.lp + v.offset) (hroom : m.HasRoom n)
    (natives : Natives) :
    m.Writes (m.run natives (Piece.count code)) (Piece.count code) (m.lp + v.offset)
      (ctx.program.initialBytes t) := by
  obtain ⟨v', t', n', zeros, records, hv', ht', hn', hzeros, hrecords, rfl⟩ := hcode
  obtain rfl : v = v' := Option.some.inj (hv.symm.trans hv')
  obtain rfl : t = t' := Option.some.inj (ht.symm.trans ht')
  obtain rfl : n = n' := Option.some.inj (hn.symm.trans hn')
  have hinside := hp.stringsWithin (ctx.program.structs.size + 1) hn
  have hroom' : m.limit ≤ m.sp - n := hroom
  have hlimit := h.ready.limit
  have hframe := h.frame
  have hsize := m.memory.top_le_size
  obtain rfl | ⟨rfl, c, later, hstrings, rfl⟩ := hzeros
  · obtain ⟨x0, x1, x2, h0, h1, h2, hat⟩ := h.laid.left.at
    obtain rfl : Word.size32 n = x0 := Except.ok.inj h0
    have htick : m.tick natives = m.answered (List.replicate n 0) :=
      tick_loadZero h.ready hat (Word.toInt_size32 (h.ready.room_lt hroom))
    have hlen : (List.replicate n (0 : UInt8)).length = n := List.length_replicate
    obtain ⟨hfirst, hafter⟩ := h.puts htick hlen hroom hlow hhigh
    have hrest := hfirst.records hrecords hafter hlow (by rw [hlen]; exact hhigh)
      (by rw [hlen]; exact hroom) (by rw [hlen]; exact hinside) natives
    rw [← run_add, List.toArray_replicate] at hrest
    rw [Program.initialBytes, hn, Option.getD_some, Piece.count_append]
    exact hrest
  · -- a record that fills the variable leaves nothing of what lay there
    obtain ⟨data, hlen, hdata⟩ := Memory.exists_has (m := m.memory) (a := m.lp + v.offset)
      (n := stringSize c) (by omega) (by omega)
    have hrest := (Writes.start h.ready hdata).records hrecords h hlow (by rw [hlen]; exact hhigh)
      (by rw [hlen]; exact hroom) (by rw [hlen]; exact hinside) natives
    have hrecord : (encodeString [] (stringSize c)).length = stringSize c :=
      Memory.length_record [] c
    rw [Nat.zero_add, hstrings, List.foldl_cons,
      Memory.overwrite_all (by rw [hrecord, List.size_toArray, hlen])] at hrest
    rw [Program.initialBytes, hn, Option.getD_some, hstrings, List.foldl_cons,
      Memory.overwrite_all (by rw [hrecord, Array.size_replicate])]
    exact hrest

end Machine

/-! ## Variables and data fields -/

namespace Program

variable {raw : Raw.Program} {p : Program} {t : TypeId} {n : Nat}

/-- The code of a variable whose type has a size is emitted. -/
theorem exists_initialise {ctx : EmissionContext} {index : Nat} {v : Local}
    (hv : ctx.body.locals[index]? = some v) (ht : v.type = some t)
    (hn : ctx.program.types.size? t = some n) (s : EmissionState) :
    ∃ code s', (Emission.initialise ctx index).run s = .ok (code, s') := by
  have hcomes : Comes (Emission.initialise ctx index) s (fun _ _ => True) fun _ => False := by
    unfold Emission.initialise
    rw [hv]
    dsimp only
    rw [ht]
    refine .seq (.lifts (Q := fun _ _ => True) (fun _ _ => trivial) fun d hd => ?_) fun _ s₁ _ => ?_
    · rw [TypeTable.sizeAt_eq_ok.2 (by rwa [Option.bind_some])] at hd
      cases hd
    · refine .seq (.eachOf (I := fun _ => True) (fun r _ s _ => ?_) trivial) fun _ _ _ =>
        .value trivial
      exact .seq (.changes (Q := fun _ _ => True) trivial) fun _ _ _ => .value trivial
  cases hr : (Emission.initialise ctx index).run s with
  | error d => exact (hcomes.refuses d hr).elim
  | ok r => exact ⟨r.1, r.2, rfl⟩

/-- What a type starts with depends on its shape only. -/
theorem initialBytes_congr {u : TypeId} (h : p.types.shape? u = p.types.shape? t) :
    p.initialBytes u = p.initialBytes t := by
  have hc : p.types.capacity? u = p.types.capacity? t := by
    refine Option.ext fun c => ?_
    rw [TypeTable.capacity?_iff, TypeTable.capacity?_iff, h]
  have hk : p.types.struct? u = p.types.struct? t := by
    refine Option.ext fun k => ⟨fun hk => ?_, fun hk => ?_⟩ <;>
      refine TypeTable.struct?_of_shape? ?_
    · rw [← h, TypeTable.shape?_of_struct? hk]
    · rw [h, TypeTable.shape?_of_struct? hk]
  have hstrings : p.strings u = p.strings t := by
    rw [strings, strings, stringsWithin, stringsWithin, hc, hk]
  rw [initialBytes, initialBytes, hstrings, TypeTable.size?_eq, TypeTable.size?_eq, h]

/-- The variables and the data fields of a type start with some bytes, which are what a value of the
type starts with, and each string record in them is found once.  A variable starts with them once
its code has been run, wherever that lies and whatever else lies in memory.  A type that has been
written twice stands twice in the table, so its shape tells which values are of it. -/
structure StartsAlike (p : Program) (t : TypeId) (bytes : List UInt8) : Prop where
  size : p.types.size? t = some bytes.length
  starts : ∀ b, p.Starts t b ↔ b = bytes
  strings : p.Lists t bytes.length (p.strings t)
  data : ∀ m ∈ p.modules, ∀ f ∈ m.fields, p.types.shape? f.type = p.types.shape? t →
    Memory.Has ⟨m.initialData p⟩ f.offset bytes
  locals : ∀ (k : Nat) (f : Function) (body : UserBody), p.functions[k]? = some f →
    f.user? = some body → ∀ (index : Nat) (v : Local) (u : TypeId),
      body.locals[index]? = some v → v.type = some u → p.types.shape? u = p.types.shape? t →
        ∀ (fields : List Slot) (s : EmissionState), ∃ code s',
          (Emission.initialise ⟨p, f, body, fields⟩ index).run s = .ok (code, s') ∧
          ∀ (natives : Natives) (l : Link) (m : Machine), m.Poised l s' code →
            m.sp ≤ m.lp + v.offset → m.HasRoom bytes.length →
              m.Writes (m.run natives (Piece.count code)) (Piece.count code) (m.lp + v.offset)
                bytes

end Program

/-- A module with a note, which its function `MAIN` declares as well: a count and a title. -/
def Raw.Program.noted : Raw.Program :=
  let place : Location := default
  let note : Raw.DataType := .named place "NOTE"
  ⟨[], [⟨place, "NOTE", [⟨place, "COUNT", .scalar .integer⟩,
      ⟨place, "TITLE", .stringOf (.integer place 3)⟩]⟩], [],
    [⟨place, "M", "NODE", [⟨place, .hidden, [⟨place, "LAST", note⟩]⟩],
      [⟨place, [], [⟨place, "MAIN", none, .user [] [.var place "N" (some note) none]⟩]⟩]⟩], []⟩

/-- What `Raw.Program.noted` means. -/
def Program.noted : Program := (analyse .noted).toOption.getD default

/-- The body of `MAIN`. -/
def UserBody.noted : UserBody := ((Program.noted.functions[0]?).getD default).user?.getD default

/-- A machine that is about to give the note of `MAIN` its first bytes, and has ones wherever there
is no code and no text. -/
def Machine.noted : Machine where
  memory := ⟨((Record.of .LOAD Storage.zero.code 0 18 0 0).encode ++
    (Record.of .STORE Storage.frame.code 0 18 (-18) 0).encode ++
    (Record.of .LOAD Storage.global.code 0 14 64 0).encode ++
    (Record.of .STORE Storage.frame.code 0 14 (-14) 0).encode ++ emptyRecord 3 ++
    List.replicate 70 255).toArray⟩
  ip := 0
  sp := 130
  lp := 148
  entrySp := 148
  limit := 80
  event := .running
  printed := #[]

end ChannelBasic
