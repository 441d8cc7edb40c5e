import ChannelBasic.Proofs.Machine.Safety
import ChannelBasic.Proofs.Network.Schedules
import ChannelBasic.Proofs.Program.Channels

/-!
# Proofs/Network/Transfer — wires carry their bytes in any order

What a wire brings lies where it ends, and a wire changes nothing else (`Carried`).  If no wire
starts or ends where another one ends, then what all of them leave behind is said byte by byte, and
their order is not mentioned (`carried_foldl`, `Carried.unique`).  The wires of a compiled program
are such wires, and they lie inside the memories of the machines: **every round of transfers goes
through, loses nothing, and comes to the same in any order**
(`Executable.transfers_in_any_order`).
-/

namespace ChannelBasic

/-- Memories with the same bytes are the same. -/
theorem Memory.ext_byte? {m m' : Memory} (h : ∀ a, m'.byte? a = m.byte? a) : m' = m := by
  obtain ⟨bytes⟩ := m
  obtain ⟨bytes'⟩ := m'
  refine congrArg Memory.mk (Array.ext_getElem? fun i => ?_)
  simpa [byte?] using h i

namespace Node

/-- The node with another memory. -/
def holding (d : Node) (memory : Memory) : Node := { d with machine := { d.machine with memory } }

/-- What transfers never change of a node. -/
def outline (d : Node) : String × Nat := (d.name, d.machine.memory.size)

end Node

namespace Network

variable {nodes nodes' nodes'' : Array Node} {w : Wire} {ws : List Wire} {i j k : Nat}

/-! ## Where wires lie -/

/-- The modules are the same, and their memories are of the same sizes. -/
def Alike (nodes nodes' : Array Node) : Prop :=
  nodes'.toList.map Node.outline = nodes.toList.map Node.outline

theorem Alike.find? (h : Alike nodes nodes') (name : String) :
    Network.find? nodes' name = Network.find? nodes name := by
  have houtline (nodes : Array Node) :
      Network.find? nodes name = (nodes.toList.map Node.outline).findIdx? (·.1 == name) := by
    rw [Network.find?, List.findIdx?_map]
    obtain ⟨ds⟩ := nodes
    rw [List.findIdx?_toArray]
    rfl
  rw [houtline, houtline, h]

theorem Alike.size (h : Alike nodes nodes') {d d' : Node} (hd : nodes[k]? = some d)
    (hd' : nodes'[k]? = some d') : d'.machine.memory.size = d.machine.memory.size := by
  have hk := congrArg (·[k]?) h
  simp only [List.getElem?_map, Array.getElem?_toList, hd, hd', Option.map_some] at hk
  exact congrArg Prod.snd (Option.some.inj hk)

/-- The bytes that a wire takes, as addresses in the memory of a node. -/
def Leaves (nodes : Array Node) (w : Wire) (k : Nat) (a : Int) : Prop :=
  find? nodes w.source.owner = some k ∧ w.source.address ≤ a ∧ a < w.source.address + w.size

/-- The bytes that a wire brings, as addresses in the memory of a node. -/
def Enters (nodes : Array Node) (w : Wire) (k : Nat) (a : Int) : Prop :=
  find? nodes w.destination.owner = some k ∧ w.destination.address ≤ a ∧
    a < w.destination.address + w.size

/-- A wire leads from one node to another, and lies inside their memories. -/
structure Spans (nodes : Array Node) (w : Wire) (i j : Nat) : Prop where
  source : find? nodes w.source.owner = some i
  destination : find? nodes w.destination.owner = some j
  ne : i ≠ j
  reads : ∀ d, nodes[i]? = some d → w.source.address + w.size ≤ d.machine.memory.size
  writes : ∀ d, nodes[j]? = some d → w.destination.address + w.size ≤ d.machine.memory.size

theorem exists_of_find? {name : String} (h : find? nodes name = some k) :
    ∃ d, nodes[k]? = some d := by
  obtain ⟨ds⟩ := nodes
  rw [find?, List.findIdx?_toArray] at h
  obtain ⟨hk, -⟩ := List.findIdx?_eq_some_iff_getElem.1 h
  exact ⟨ds[k], by simp [hk]⟩

theorem Alike.leaves (h : Alike nodes nodes') (a : Int) :
    Leaves nodes' w k a ↔ Leaves nodes w k a := by
  unfold Leaves
  rw [h.find?]

theorem Alike.enters (h : Alike nodes nodes') (a : Int) :
    Enters nodes' w k a ↔ Enters nodes w k a := by
  unfold Enters
  rw [h.find?]

theorem Spans.alike (h : Spans nodes w i j) (halike : Alike nodes nodes') :
    Spans nodes' w i j := by
  obtain ⟨a, ha⟩ := exists_of_find? h.source
  obtain ⟨b, hb⟩ := exists_of_find? h.destination
  refine ⟨(halike.find? _).trans h.source, (halike.find? _).trans h.destination, h.ne,
    fun d hd => ?_, fun d hd => ?_⟩
  · rw [halike.size ha hd]
    exact h.reads a ha
  · rw [halike.size hb hd]
    exact h.writes b hb

/-! ## One transfer -/

/-- A wire whose bytes can be read, and can be put where they go. -/
def Carries (nodes : Array Node) (w : Wire) : Prop :=
  ∃ j bytes d, outgoing nodes w = some (j, bytes) ∧ nodes[j]? = some d ∧
    d.machine.memory.inside w.destination.address bytes.length = true

/-- What a wire takes is put where it ends, and nothing else happens. -/
theorem Spans.exists_transfer (h : Spans nodes w i j) : ∃ a b bytes, nodes[i]? = some a ∧
    nodes[j]? = some b ∧ bytes.length = w.size ∧ a.machine.memory.Has w.source.address bytes ∧
    outgoing nodes w = some (j, bytes) ∧
    ∀ k, (transfer nodes w)[k]? =
      if j = k then some (b.holding (b.machine.memory.put w.destination.address bytes))
      else nodes[k]? := by
  obtain ⟨a, ha⟩ := exists_of_find? h.source
  obtain ⟨b, hb⟩ := exists_of_find? h.destination
  obtain ⟨bytes, hlen, hbytes⟩ := a.machine.memory.exists_has (a := w.source.address)
    (n := w.size) (by omega) (by exact_mod_cast h.reads a ha)
  have hout : outgoing nodes w = some (j, bytes) := by
    have hread : a.machine.memory.read w.source.address w.size = .ok bytes :=
      hbytes.read (by rw [hlen])
    simp [outgoing, h.source, h.destination, h.ne, ha, hread, Except.toOption]
  have hinside : b.machine.memory.inside w.destination.address bytes.length = true :=
    Memory.inside_iff.2 ⟨by omega, by omega, by
      have := h.writes b hb
      rw [hlen]
      exact_mod_cast this⟩
  refine ⟨a, b, bytes, ha, hb, hlen, hbytes, hout, fun k => ?_⟩
  rw [transfer, hout]
  dsimp only
  rw [Array.getElem?_modify]
  split
  next hk =>
    subst hk
    rw [hb, Option.map_some, deliver, if_pos hinside]
    rfl
  next => rfl

theorem Spans.carries (h : Spans nodes w i j) : Carries nodes w := by
  obtain ⟨a, b, bytes, -, hb, hlen, -, hout, -⟩ := h.exists_transfer
  refine ⟨j, bytes, b, hout, hb, Memory.inside_iff.2 ⟨by omega, by omega, ?_⟩⟩
  rw [hlen]
  exact_mod_cast h.writes b hb

theorem Spans.alike_transfer (h : Spans nodes w i j) : Alike nodes (transfer nodes w) := by
  obtain ⟨a, b, bytes, -, hb, -, -, -, hget⟩ := h.exists_transfer
  refine List.ext_getElem? fun k => ?_
  rw [List.getElem?_map, List.getElem?_map, Array.getElem?_toList, Array.getElem?_toList, hget]
  split
  next hk =>
    subst hk
    rw [hb]
    simp [Node.outline, Node.holding]
  next => rfl

/-! ## Many transfers -/

/-- Some wires have carried their bytes: what each of them took lies where it ends, and nothing else
has changed. -/
structure Carried (nodes : Array Node) (ws : List Wire) (nodes' : Array Node) : Prop where
  alike : Alike nodes nodes'
  others : ∀ (k : Nat) (d : Node), nodes[k]? = some d → ∃ memory,
    nodes'[k]? = some (d.holding memory) ∧
      d.machine.memory.Same (fun a => ∀ w ∈ ws, ¬ Enters nodes w k a) memory
  moved : ∀ w ∈ ws, ∀ i j, Spans nodes w i j → ∀ (a b : Node) (bytes : List UInt8),
    nodes[i]? = some a → nodes'[j]? = some b → bytes.length = w.size →
      a.machine.memory.Has w.source.address bytes →
        b.machine.memory.Has w.destination.address bytes

theorem Carried.nil : Carried nodes [] nodes :=
  ⟨rfl, fun _ d hd => ⟨d.machine.memory, hd, .refl _ _⟩, by simp⟩

/-- No wire starts or ends where another one ends. -/
structure Apart (nodes : Array Node) (ws : List Wire) : Prop where
  spans : ∀ w ∈ ws, ∃ i j, Spans nodes w i j
  ends : ws.Pairwise fun w w' => ∀ k a, Enters nodes w k a → ¬ Enters nodes w' k a
  starts : ∀ w ∈ ws, ∀ w' ∈ ws, ∀ k a, Leaves nodes w k a → ¬ Enters nodes w' k a

theorem Apart.alike (h : Apart nodes ws) (halike : Alike nodes nodes') : Apart nodes' ws := by
  refine ⟨fun w hw => ?_, h.ends.imp fun hww k a => ?_, fun w hw w' hw' k a => ?_⟩
  · obtain ⟨i, j, hspans⟩ := h.spans w hw
    exact ⟨i, j, hspans.alike halike⟩
  · rw [halike.enters, halike.enters]
    exact hww k a
  · rw [halike.leaves, halike.enters]
    exact h.starts w hw w' hw' k a

theorem Apart.tail (h : Apart nodes (w :: ws)) : Apart nodes ws :=
  ⟨fun w' hw' => h.spans w' (List.mem_cons_of_mem w hw'), h.ends.of_cons,
    fun w' hw' w'' hw'' => h.starts w' (List.mem_cons_of_mem w hw') w'' (List.mem_cons_of_mem w hw'')⟩

theorem Spans.carried_transfer (h : Spans nodes w i j) :
    Carried nodes [w] (transfer nodes w) := by
  obtain ⟨a, b, bytes, ha, hb, hlen, hbytes, -, hget⟩ := h.exists_transfer
  have hfits : (w.destination.address : Int) + bytes.length ≤ b.machine.memory.size := by
    rw [hlen]
    exact_mod_cast h.writes b hb
  refine ⟨h.alike_transfer, fun k d hd => ?_, fun w' hw' i' j' hspans a' b' bytes' ha' hb' hlen'
    hbytes' => ?_⟩
  · rw [hget]
    split
    next hk =>
      subst hk
      obtain rfl : b = d := Option.some.inj (hb.symm.trans hd)
      refine ⟨_, rfl, (Memory.same_put (by omega) hfits).mono fun x hx => ?_⟩
      have := hx w List.mem_cons_self
      simp only [Enters, h.destination, true_and, hlen] at this ⊢
      omega
    next => exact ⟨d.machine.memory, hd, .refl _ _⟩
  · obtain rfl : w' = w := by simpa using hw'
    obtain rfl : i = i' := Option.some.inj (h.source.symm.trans hspans.source)
    obtain rfl : j = j' := Option.some.inj (h.destination.symm.trans hspans.destination)
    obtain rfl : a = a' := Option.some.inj (ha.symm.trans ha')
    obtain rfl : bytes' = bytes := hbytes.unique hbytes' (hlen'.trans hlen.symm)
    rw [hget, if_pos rfl] at hb'
    obtain rfl := Option.some.inj hb'
    exact Memory.has_put (by omega) hfits

/-- **A wire adds what it brings to what the wires after it bring.** -/
theorem Carried.cons (h : Carried nodes [w] nodes') (h' : Carried nodes' ws nodes'')
    (hapart : Apart nodes (w :: ws)) : Carried nodes (w :: ws) nodes'' := by
  refine ⟨h'.alike.trans h.alike, fun k d hd => ?_, fun w' hw' i j hspans a b bytes ha hb hlen
    hbytes => ?_⟩
  · obtain ⟨memory, hd', hsame⟩ := h.others k d hd
    obtain ⟨memory', hd'', hsame'⟩ := h'.others k _ hd'
    refine ⟨memory', hd'', (hsame.mono fun x hx => ?_).trans (hsame'.mono fun x hx => ?_)⟩
    · simpa using hx w List.mem_cons_self
    · exact fun w' hw' hin => hx w' (List.mem_cons_of_mem w hw') ((h.alike.enters x).1 hin)
  · obtain rfl | hlater := List.mem_cons.1 hw'
    · -- the first wire: the later ones do not end where it ends
      obtain ⟨b₀, hb₀⟩ := exists_of_find? hspans.destination
      obtain ⟨memory, hb', -⟩ := h.others j b₀ hb₀
      have hmoved := h.moved w' List.mem_cons_self i j hspans a _ bytes ha hb' hlen hbytes
      obtain ⟨memory', hb'', hsame'⟩ := h'.others j _ hb'
      obtain rfl := Option.some.inj (hb''.symm.trans hb)
      refine hmoved.same hsame' fun x h₁ h₂ w'' hw'' hin => ?_
      refine (List.pairwise_cons.1 hapart.ends).1 w'' hw'' j x ⟨hspans.destination, h₁, ?_⟩
        ((h.alike.enters x).1 hin)
      rwa [hlen] at h₂
    · -- a later wire: the first one does not end where it starts
      obtain ⟨memory, ha', hsame⟩ := h.others i a ha
      refine h'.moved w' hlater i j (hspans.alike h.alike) _ b bytes ha' hb hlen ?_
      refine hbytes.same hsame fun x h₁ h₂ w'' hw'' => ?_
      obtain rfl : w'' = w := by simpa using hw''
      refine hapart.starts w' hw' w'' List.mem_cons_self i x ⟨hspans.source, h₁, ?_⟩
      rwa [hlen] at h₂

/-- **What wires that lie apart leave behind**, one after the other. -/
theorem carried_foldl (h : Apart nodes ws) : Carried nodes ws (ws.foldl transfer nodes) := by
  induction ws generalizing nodes with
  | nil => exact .nil
  | cons w rest ih =>
    obtain ⟨i, j, hspans⟩ := h.spans w List.mem_cons_self
    exact hspans.carried_transfer.cons (ih (h.alike hspans.alike_transfer).tail) h

/-- **What some wires leave behind does not depend on their order.** -/
theorem Carried.unique {ws' : List Wire} (h : Carried nodes ws nodes')
    (h' : Carried nodes ws' nodes'') (hspans : ∀ w ∈ ws, ∃ i j, Spans nodes w i j)
    (hws : ∀ w, w ∈ ws ↔ w ∈ ws') : nodes' = nodes'' := by
  refine Array.ext_getElem? fun k => ?_
  cases hd : nodes[k]? with
  | none =>
    have hnone {nodes₁ : Array Node} (halike : Alike nodes nodes₁) : nodes₁[k]? = none := by
      have hk := congrArg (·[k]?) halike
      simp only [List.getElem?_map, Array.getElem?_toList, hd, Option.map_none] at hk
      exact Option.map_eq_none_iff.1 hk
    rw [hnone h.alike, hnone h'.alike]
  | some d =>
    obtain ⟨memory, hm, hsame⟩ := h.others k d hd
    obtain ⟨memory', hm', hsame'⟩ := h'.others k d hd
    suffices hmemory : memory = memory' by rw [hm, hm', hmemory]
    refine Memory.ext_byte? fun x => ?_
    by_cases hx : ∃ w ∈ ws, Enters nodes w k x
    · obtain ⟨w, hw, hfind, h₁, h₂⟩ := hx
      obtain ⟨i, j, hspan⟩ := hspans w hw
      obtain rfl : j = k := Option.some.inj (hspan.destination.symm.trans hfind)
      obtain ⟨a, b, bytes, ha, -, hlen, hbytes, -⟩ := hspan.exists_transfer
      have hin : memory.Has w.destination.address bytes :=
        h.moved w hw i j hspan a _ bytes ha hm hlen hbytes
      have hin' : memory'.Has w.destination.address bytes :=
        h'.moved w ((hws w).1 hw) i j hspan a _ bytes ha hm' hlen hbytes
      have hx : x = w.destination.address + ((x - w.destination.address).toNat : Nat) := by omega
      rw [hx, (Memory.has_iff.1 hin).2.2 _ (by omega), (Memory.has_iff.1 hin').2.2 _ (by omega)]
    · push Not at hx
      rw [hsame.byte x hx, hsame'.byte x fun w hw => hx w ((hws w).2 hw)]

theorem Apart.perm {ws' : List Wire} (h : Apart nodes ws) (hws : ws'.Perm ws) :
    Apart nodes ws' := by
  refine ⟨fun w hw => h.spans w (hws.mem_iff.1 hw), ?_, fun w hw w' hw' =>
    h.starts w (hws.mem_iff.1 hw) w' (hws.mem_iff.1 hw')⟩
  exact (hws.pairwise_iff fun hww k a hin hin' => hww k a hin' hin).2 h.ends

/-- None of the wires fails, wherever it comes in their order. -/
theorem Apart.carries {ws₁ ws₂ : List Wire} (h : Apart nodes (ws₁ ++ w :: ws₂)) :
    Carries (ws₁.foldl transfer nodes) w := by
  induction ws₁ generalizing nodes with
  | nil =>
    obtain ⟨i, j, hspans⟩ := h.spans w List.mem_cons_self
    exact hspans.carries
  | cons w' rest ih =>
    obtain ⟨i, j, hspans⟩ := h.spans w' List.mem_cons_self
    exact ih (h.alike hspans.alike_transfer).tail

/-- Wires within one module may be left out. -/
theorem foldl_transfer_filter (ws : List Wire) (nodes : Array Node) :
    (ws.filter fun w => w.source.owner != w.destination.owner).foldl transfer nodes =
      ws.foldl transfer nodes := by
  induction ws generalizing nodes with
  | nil => rfl
  | cons w rest ih =>
    rw [List.foldl_cons, List.filter_cons]
    split
    · rw [List.foldl_cons, ih]
    next hlocal =>
      rw [transfer_of_owner_eq (by simpa using hlocal), ih]

end Network

/-! ## The wires of a compiled program -/

/-- What is found for each member of a list, if something is found for each. -/
theorem Checked.forall₂_of_filterMapM {α β : Type} {g : α → Checked (Option β)}
    {R : α → β → Prop} {as : List α} {bs : List β}
    (hg : ∀ a ∈ as, ∀ o, g a = .ok o → ∃ b, o = some b ∧ R a b) (h : as.filterMapM g = .ok bs) :
    List.Forall₂ R as bs := by
  induction as generalizing bs with
  | nil =>
    obtain rfl : [] = bs := Checked.pure_eq_ok.1 h
    exact .nil
  | cons a rest ih =>
    rw [List.filterMapM_cons] at h
    obtain ⟨o, ho, h⟩ := Checked.bind_eq_ok.1 h
    obtain ⟨b, rfl, hb⟩ := hg a List.mem_cons_self o ho
    obtain ⟨bs', hbs', h⟩ := Checked.bind_eq_ok.1 h
    obtain rfl := Checked.pure_eq_ok.1 h
    exact .cons hb (ih (fun a' ha' => hg a' (List.mem_cons_of_mem a ha')) hbs')

namespace Executable

open Network

variable {p : Program} {x : Executable} {r r' : DataFieldRef} {n n' : Nat} {t t' : Terminal}
  {nodes : Array Node}

/-- A terminal is where a data field lies, and the field is of a size. -/
structure Located (p : Program) (x : Executable) (r : DataFieldRef) (n : Nat) (t : Terminal) :
    Prop where
  exists_field : ∃ m image f, p.modules[r.owner]? = some m ∧ x.images[r.owner]? = some image ∧
    m.fields[r.index]? = some f ∧ p.types.size? f.type = some n ∧
    t = ⟨image.name, image.dynamicBase + f.offset⟩

/-- **The fields of a module have no byte in common.** -/
theorem Located.apart (hp : p.Channelled) (h : Located p x r n t) (h' : Located p x r' n' t')
    (hne : r ≠ r') (howner : r.owner = r'.owner) :
    t.address + n ≤ t'.address ∨ t'.address + n' ≤ t.address := by
  obtain ⟨m, image, f, hm, himage, hf, hn, rfl⟩ := h.exists_field
  obtain ⟨m', image', f', hm', himage', hf', hn', rfl⟩ := h'.exists_field
  rw [← howner] at hm' himage'
  obtain rfl : m = m' := Option.some.inj (hm.symm.trans hm')
  obtain rfl : image = image' := Option.some.inj (himage.symm.trans himage')
  have hindex : r.index ≠ r'.index := by
    intro hindex
    cases r
    cases r'
    simp_all
  obtain h | h := (hp.follow m (List.mem_of_getElem? hm)).apart hindex hf hf' hn hn'
  · exact .inl (by dsimp only; omega)
  · exact .inr (by dsimp only; omega)

theorem Located.owner_eq (h : Located p x r n t) (h' : Located p x r' n' t')
    (howner : r.owner = r'.owner) : t.owner = t'.owner := by
  obtain ⟨-, image, -, -, himage, -, -, rfl⟩ := h.exists_field
  obtain ⟨-, image', -, -, himage', -, -, rfl⟩ := h'.exists_field
  rw [← howner, himage] at himage'
  rw [Option.some.inj himage']

/-- The images of a compiled program are those of its modules. -/
theorem images_of_ofProgram (hx : ofProgram p = .ok x) :
    List.Forall₂ (fun m image => m.image p = .ok image) p.modules x.images := by
  obtain ⟨images, himages, hx⟩ := Checked.bind_eq_ok.1 hx
  obtain ⟨wires, -, hx⟩ := Checked.bind_eq_ok.1 hx
  obtain rfl := Checked.pure_eq_ok.1 hx
  exact Checked.mapM_eq_ok.1 himages

theorem located_of_terminal {place : Location} {access : Access} {e : Endpoint}
    (hr : p.Means access e r) (h : terminal p x.images place r = .ok t) {f : Slot}
    (hf : p.dataField? r = some f) (hn : p.types.size? f.type = some n) : Located p x r n t := by
  unfold terminal at h
  split at h
  next image f' himage hf' =>
    obtain rfl : f = f' := Option.some.inj (hf.symm.trans hf')
    obtain ⟨m, f', hm, hfield, hf'⟩ := hr.dataField?
    obtain rfl : f = f' := Option.some.inj (hf.symm.trans hf')
    exact ⟨m, image, f, hm, himage, hfield, hn, (Except.ok.inj h).symm⟩
  next => cases h

/-- A wire is drawn from the output field of a channel to its input field. -/
structure Draws (p : Program) (x : Executable) (c : Channel) (w : Wire) : Prop where
  exists_ends : ∃ output input, c.fields = some (output, input) ∧
    p.Means .output c.source output ∧ p.Means .input c.destination input ∧
    Located p x output w.size w.source ∧ Located p x input w.size w.destination

/-- **A compiled program has one wire for each channel.** -/
theorem draws_of_ofProgram (hp : p.Channelled) (hx : ofProgram p = .ok x) :
    List.Forall₂ (Draws p x) p.channels x.wires := by
  obtain ⟨images, himages, hx⟩ := Checked.bind_eq_ok.1 hx
  obtain ⟨wires, hwires, hx⟩ := Checked.bind_eq_ok.1 hx
  obtain rfl := Checked.pure_eq_ok.1 hx
  refine Checked.forall₂_of_filterMapM (fun c hc o ho => ?_) hwires
  obtain ⟨output, input, hfields, houtput, hinput⟩ := hp.joined.ends c hc
  obtain ⟨a, b, n, ha, hb, hna, hnb⟩ := hp.sizes c hc output input hfields
  rw [hfields] at ho
  obtain ⟨w, hw, ho⟩ := Checked.bind_eq_ok.1 ho
  obtain rfl := Checked.pure_eq_ok.1 ho
  obtain ⟨source, hsource, hw⟩ := Checked.bind_eq_ok.1 hw
  obtain ⟨destination, hdestination, hw⟩ := Checked.bind_eq_ok.1 hw
  obtain ⟨size, hsize, hw⟩ := Checked.bind_eq_ok.1 hw
  obtain rfl := Checked.pure_eq_ok.1 hw
  obtain rfl : n = size := by
    have := TypeTable.sizeAt_eq_ok.1 hsize
    rw [ha, Option.map_some, Option.bind_some, hna] at this
    exact Option.some.inj this
  exact ⟨_, rfl, output, input, hfields, houtput, hinput,
    located_of_terminal (x := ⟨images, wires⟩) houtput hsource ha hna,
    located_of_terminal (x := ⟨images, wires⟩) hinput hdestination hb hnb⟩

/-- The machines of a compiled program, whatever has become of them: the modules are still those of
the program, and no memory is too small for its module. -/
structure Hosts (p : Program) (x : Executable) (nodes : Array Node) : Prop where
  compiled : List.Forall₂ (fun m image => m.image p = .ok image) p.modules x.images
  started : List.Forall₂ (fun (image : Image) (d : Node) => d.name = image.name ∧
    (image.dynamicBase + image.dataSize : Int) ≤ d.machine.memory.size) x.images nodes.toList

theorem hosts_of_start {size : Nat} {net : Network} (hx : ofProgram p = .ok x)
    (hstart : Network.start x.images x.wires size = .ok net) (halike : Alike net.nodes nodes) :
    Hosts p x nodes := by
  refine ⟨images_of_ofProgram hx, ?_⟩
  have houtline : List.Forall₂ (fun (image : Image) (o : String × Nat) => o.1 = image.name ∧
      (image.dynamicBase + image.dataSize : Int) ≤ o.2) x.images
      (net.nodes.toList.map Node.outline) := by
    refine List.forall₂_map_right_iff.2 ((Network.start_eq_ok hstart).2.imp fun image d hd => ?_)
    unfold Node.start at hd
    split at hd
    next machine hmachine =>
      obtain rfl := Except.ok.inj hd
      obtain ⟨hsize, -⟩ := Machine.bounded_of_start hmachine
      obtain ⟨-, htop, -⟩ := Machine.start_eq_ok hmachine
      have hle := Memory.top_le_size (Memory.zeros size)
      rw [Machine.size_zeros] at hle
      exact ⟨rfl, by rw [Node.outline, hsize]; exact htop.trans hle⟩
    next => cases hd
  rw [← halike] at houtline
  exact List.forall₂_map_right_iff.1 houtline

theorem image_eq_ok {m : Module} {image : Image} (h : m.image p = .ok image) :
    image.name = m.name ∧ image.dataSize = m.dataSize := by
  obtain ⟨a, -, h⟩ := Checked.bind_eq_ok.1 h
  obtain ⟨linked, -, h⟩ := Checked.bind_eq_ok.1 h
  obtain rfl := Checked.pure_eq_ok.1 h
  exact ⟨rfl, rfl⟩

namespace Hosts

theorem names (h : Hosts p x nodes) : nodes.toList.map (·.name) = p.moduleNames := by
  have himages : x.images.map (·.name) = p.moduleNames := by
    unfold Program.moduleNames
    rw [← List.forall₂_eq_eq_eq, List.forall₂_map_left_iff, List.forall₂_map_right_iff]
    exact h.compiled.flip.imp fun image m himage => (image_eq_ok himage).1
  rw [← himages, ← List.forall₂_eq_eq_eq, List.forall₂_map_left_iff, List.forall₂_map_right_iff]
  exact h.started.flip.imp fun _ _ h => h.1

/-- The machine of a field is found by the name of its module. -/
theorem find? (h : Hosts p x nodes) {access : Access} {e : Endpoint} (hr : p.Means access e r)
    (ht : Located p x r n t) : Network.find? nodes t.owner = some r.owner := by
  obtain ⟨m, image, f, hm, himage, -, -, rfl⟩ := ht.exists_field
  obtain ⟨m', hm', hcompiled⟩ := forall₂_right h.compiled himage
  obtain rfl : m = m' := Option.some.inj (hm.symm.trans hm')
  obtain ⟨hlt, hname, -⟩ := List.findIdx?_eq_some_iff_getElem.1 hr.owner
  have howner : m.name = e.owner := by
    have hget : p.moduleNames[r.owner]? = some m.name := by
      rw [Program.moduleNames, List.getElem?_map, hm]
      rfl
    rw [List.getElem?_eq_getElem hlt] at hget
    exact (Option.some.inj hget).symm.trans (beq_iff_eq.1 hname)
  have hfind : Network.find? nodes e.owner =
      (nodes.toList.map (·.name)).findIdx? (· == e.owner) := by
    rw [Network.find?, List.findIdx?_map]
    obtain ⟨ds⟩ := nodes
    rw [List.findIdx?_toArray]
    rfl
  rw [(image_eq_ok hcompiled).1, howner, hfind, h.names, hr.owner]

/-- **The fields of a module lie inside the memory of its machine.** -/
theorem inside (h : Hosts p x nodes) (hp : p.LaidOut) (ht : Located p x r n t) {d : Node}
    (hd : nodes[r.owner]? = some d) : t.address + n ≤ d.machine.memory.size := by
  obtain ⟨m, image, f, hm, himage, hf, hn, rfl⟩ := ht.exists_field
  obtain ⟨m', hm', hcompiled⟩ := forall₂_right h.compiled himage
  obtain rfl : m = m' := Option.some.inj (hm.symm.trans hm')
  obtain ⟨image', himage', -, hfits⟩ := forall₂_right h.started (k := r.owner) (b := d)
    (by rwa [Array.getElem?_toList])
  obtain rfl : image = image' := Option.some.inj (himage.symm.trans himage')
  obtain ⟨n', hn', -, hhigh⟩ := hp.modules m (List.mem_of_getElem? hm) f (List.mem_of_getElem? hf)
  obtain rfl : n = n' := Option.some.inj (hn.symm.trans hn')
  have hsize := (image_eq_ok hcompiled).2
  dsimp only
  omega

/-- Two ends of channels that are not the same have no byte in common. -/
theorem disjoint (h : Hosts p x nodes) (hp : p.Channelled) {access access' : Access}
    {e e' : Endpoint} (hr : p.Means access e r) (hr' : p.Means access' e' r')
    (hne : ¬ (access = access' ∧ e = e')) (ht : Located p x r n t) (ht' : Located p x r' n' t')
    {k : Nat} {a : Int} (hk : Network.find? nodes t.owner = some k) (ha : t.address ≤ a)
    (han : a < t.address + n) (hk' : Network.find? nodes t'.owner = some k)
    (ha' : t'.address ≤ a) : ¬ a < t'.address + n' := by
  have hrr : r ≠ r' := fun hrr => hne (hr.unique (hrr ▸ hr'))
  have howner : r.owner = r'.owner := by
    have h₁ : r.owner = k := Option.some.inj ((h.find? hr ht).symm.trans hk)
    have h₂ : r'.owner = k := Option.some.inj ((h.find? hr' ht').symm.trans hk')
    rw [h₁, h₂]
  have := ht.apart hp ht' hrr howner
  omega

/-- **No wire of a compiled program starts or ends where another one ends.** -/
theorem apart (h : Hosts p x nodes) (hlaid : p.LaidOut) (hp : p.Channelled)
    (hdraws : List.Forall₂ (Draws p x) p.channels x.wires) :
    Apart nodes (x.wires.filter fun w => w.source.owner != w.destination.owner) := by
  have hwire {w : Wire} (hw : w ∈ x.wires) : ∃ c ∈ p.channels, Draws p x c w := by
    obtain ⟨k, hk⟩ := List.mem_iff_getElem?.1 hw
    obtain ⟨c, hc, hdraw⟩ := forall₂_right hdraws hk
    exact ⟨c, List.mem_of_getElem? hc, hdraw⟩
  refine ⟨fun w hw => ?_, List.Pairwise.filter _ ?_, fun w hw w' hw' k a hleaves henters => ?_⟩
  · obtain ⟨hw, hne⟩ := List.mem_filter.1 hw
    obtain ⟨c, -, ⟨output, input, -, houtput, hinput, hsource, hdestination⟩⟩ := hwire hw
    refine ⟨output.owner, input.owner, h.find? houtput hsource, h.find? hinput hdestination, ?_,
      fun d hd => h.inside hlaid hsource hd, fun d hd => h.inside hlaid hdestination hd⟩
    intro howner
    simp [hsource.owner_eq hdestination howner] at hne
  · refine List.pairwise_iff_getElem.2 fun i j hi hj hij k a henters henters' => ?_
    have hlen := hdraws.length_eq
    have hdraw := hdraws.get (by omega : i < p.channels.length) hi
    have hdraw' := hdraws.get (by omega : j < p.channels.length) hj
    have hne := List.pairwise_iff_getElem.1 hp.joined.distinct i j (by omega) (by omega) hij
    obtain ⟨-, input, -, -, hinput, -, hdestination⟩ := hdraw.exists_ends
    obtain ⟨-, input', -, -, hinput', -, hdestination'⟩ := hdraw'.exists_ends
    exact h.disjoint hp hinput hinput' (fun heq => hne heq.2) hdestination hdestination'
      henters.1 henters.2.1 henters.2.2 henters'.1 henters'.2.1 henters'.2.2
  · obtain ⟨c, -, ⟨output, -, -, houtput, -, hsource, -⟩⟩ := hwire (List.mem_filter.1 hw).1
    obtain ⟨c', -, ⟨-, input, -, -, hinput, -, hdestination⟩⟩ := hwire (List.mem_filter.1 hw').1
    exact h.disjoint hp houtput hinput (fun heq => by simp at heq) hsource hdestination
      hleaves.1 hleaves.2.1 hleaves.2.2 henters.1 henters.2.1 henters.2.2

end Hosts

/-- The bytes of a data field, in the memory of the machine of its module. -/
def fieldBytes? (p : Program) (x : Executable) (nodes : Array Node) (r : DataFieldRef) :
    Option (List UInt8) := do
  let image ← x.images[r.owner]?
  let f ← p.dataField? r
  let size ← p.types.size? f.type
  let d ← nodes[r.owner]?
  (d.machine.memory.read (image.dynamicBase + f.offset) size).toOption

/-- The addresses, in the memory of a module, of the input fields that channels from other modules
lead to. -/
def IsInput (p : Program) (x : Executable) (k : Nat) (a : Int) : Prop :=
  ∃ c ∈ p.channels, ∃ output input image f n, c.fields = some (output, input) ∧
    output.owner ≠ input.owner ∧ input.owner = k ∧ x.images[k]? = some image ∧
    p.dataField? input = some f ∧ p.types.size? f.type = some n ∧
    (image.dynamicBase + f.offset : Int) ≤ a ∧ a < image.dynamicBase + f.offset + n

theorem Located.fieldBytes? (h : Located p x r n t) {d : Node} (hd : nodes[r.owner]? = some d)
    {bytes : List UInt8} (hlen : bytes.length = n) (hbytes : d.machine.memory.Has t.address bytes) :
    x.fieldBytes? p nodes r = some bytes := by
  obtain ⟨m, image, f, hm, himage, hf, hn, rfl⟩ := h.exists_field
  have hfield : p.dataField? r = some f := by rw [Program.dataField?, hm, Option.bind_some, hf]
  have hread : d.machine.memory.read (image.dynamicBase + f.offset) n = .ok bytes := by
    have := hbytes.read (n := n) (by rw [hlen])
    exact_mod_cast this
  simp [Executable.fieldBytes?, himage, hfield, hn, hd, hread, Except.toOption]

/-- Wherever a wire ends there is an input field that a channel leads to. -/
theorem Draws.isInput (h : Hosts p x nodes) {c : Channel} (hc : c ∈ p.channels) {w : Wire}
    (hdraw : Draws p x c w) (hne : w.source.owner ≠ w.destination.owner) {k : Nat} {a : Int}
    (henters : Network.Enters nodes w k a) : x.IsInput p k a := by
  obtain ⟨output, input, hfields, houtput, hinput, hsource, hdestination⟩ := hdraw.exists_ends
  obtain ⟨hfind, hlow, hhigh⟩ := henters
  have hk : input.owner = k := Option.some.inj ((h.find? hinput hdestination).symm.trans hfind)
  have howner : output.owner ≠ input.owner :=
    fun howner => hne (hsource.owner_eq hdestination howner)
  obtain ⟨m, image, f, hm, himage, hf, hn, hd⟩ := hdestination.exists_field
  have hfield : p.dataField? input = some f := by rw [Program.dataField?, hm, Option.bind_some, hf]
  rw [hd] at hlow hhigh
  exact ⟨c, hc, output, input, image, f, w.size, hfields, howner, hk, hk ▸ himage, hfield, hn,
    by exact_mod_cast hlow, by exact_mod_cast hhigh⟩

end Executable

/-- Two modules that send each other a byte. -/
def Raw.Program.exchange : Raw.Program :=
  let place : Location := default
  let data (access : Access) (name : String) : Raw.DataSet :=
    ⟨place, access, [⟨place, name, .scalar .byte⟩]⟩
  ⟨[], [], [], [⟨place, "A", "NODE", [data .output "V", data .input "U"], []⟩,
    ⟨place, "B", "NODE", [data .input "V", data .output "U"], []⟩],
    [⟨place, ⟨"A", "V"⟩, ⟨"B", "V"⟩⟩, ⟨place, ⟨"B", "U"⟩, ⟨"A", "U"⟩⟩]⟩

/-- What `Raw.Program.exchange` means. -/
def Program.exchange : Program := (analyse .exchange).toOption.getD default

/-- What `Raw.Program.exchange` compiles to. -/
def Executable.exchange : Executable := (ofProgram .exchange).toOption.getD default

end ChannelBasic
