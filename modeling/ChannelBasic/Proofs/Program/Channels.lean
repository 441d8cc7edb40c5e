import ChannelBasic.Proofs.Faultless.Emission

/-!
# Proofs/Program/Channels — what the channels of a program join

One end of a channel names a field, and the field found for it has that name and the access that the
end asks for; so two ends with different names are two fields, and an end for reading is never one
for writing (`Means.unique`).  No two channels lead to one end, both ends of a channel are of one
size, and the data fields of a module lie one behind the other.  All this is found by one pass or
another, and **the passes after it leave it as it is** (`channelled_of_analyse`).
-/

namespace ChannelBasic

/-! ## Fields one behind the other -/

/-- Each place ends before the later ones start. -/
def Slot.Follow (t : TypeTable) (slots : List Slot) : Prop :=
  slots.Pairwise fun f g => ∀ n, t.size? f.type = some n → f.offset + n ≤ g.offset

/-- Two different places of a row have no byte in common. -/
theorem Slot.Follow.apart {t : TypeTable} {slots : List Slot} (h : Slot.Follow t slots) {i j : Nat}
    (hij : i ≠ j) {f g : Slot} (hf : slots[i]? = some f) (hg : slots[j]? = some g) {m n : Nat}
    (hm : t.size? f.type = some m) (hn : t.size? g.type = some n) :
    f.offset + m ≤ g.offset ∨ g.offset + n ≤ f.offset := by
  obtain ⟨hi, rfl⟩ := List.getElem?_eq_some_iff.1 hf
  obtain ⟨hj, rfl⟩ := List.getElem?_eq_some_iff.1 hg
  obtain hlt | hgt := Nat.lt_or_gt_of_ne hij
  · exact .inl (List.pairwise_iff_getElem.1 h i j hi hj hlt m hm)
  · exact .inr (List.pairwise_iff_getElem.1 h j i hj hi hgt n hn)

namespace Layout

variable {t : TypeTable}

theorem follow_slots {fs placed : List Slot} {offset stop : Nat}
    (h : slots t offset fs = .ok (placed, stop)) : Slot.Follow t placed := by
  induction fs generalizing offset placed with
  | nil =>
    obtain ⟨rfl, -⟩ : [] = placed ∧ offset = stop := by simpa [slots] using h
    exact .nil
  | cons f rest ih =>
    obtain ⟨size, hsize, h⟩ := Checked.bind_eq_ok.1 h
    obtain ⟨⟨later, stop'⟩, hrest, h⟩ := Checked.bind_eq_ok.1 h
    obtain ⟨rfl, rfl⟩ := Prod.mk.inj (Checked.pure_eq_ok.1 h)
    have hsize : t.size? f.type = some size := TypeTable.sizeAt_eq_ok.1 hsize
    refine .cons (fun g hg n hn => ?_) (ih hrest)
    obtain ⟨-, -, hlow, -⟩ := (slots_eq_ok hrest).2.1 g hg
    obtain rfl : size = n := Option.some.inj (hsize.symm.trans hn)
    exact hlow

theorem follow_dataSets {ds placed : List DataSet} {offset stop : Nat}
    (h : dataSets t offset ds = .ok (placed, stop)) :
    Slot.Follow t (placed.flatMap (·.fields)) := by
  induction ds generalizing offset placed with
  | nil =>
    obtain ⟨rfl, -⟩ : [] = placed ∧ offset = stop := by simpa [dataSets] using h
    exact .nil
  | cons d rest ih =>
    obtain ⟨⟨fields, middle⟩, hslots, h⟩ := Checked.bind_eq_ok.1 h
    obtain ⟨⟨later, stop'⟩, hrest, h⟩ := Checked.bind_eq_ok.1 h
    obtain ⟨rfl, rfl⟩ := Prod.mk.inj (Checked.pure_eq_ok.1 h)
    rw [List.flatMap_cons]
    refine List.pairwise_append.2 ⟨follow_slots hslots, ih hrest, fun f hf g hg n hn => ?_⟩
    obtain ⟨n', hn', -, hhigh⟩ := (slots_eq_ok hslots).2.1 f hf
    obtain ⟨-, -, hlow, -⟩ := (dataSets_eq_ok hrest).2.2 g hg
    obtain rfl : n' = n := Option.some.inj (hn'.symm.trans hn)
    exact hhigh.trans hlow

end Layout

/-! ## What an end of a channel means -/

/-- The name, the access and the type of each data field of a module. -/
def Module.outline (m : Module) : List (String × Access × TypeId) :=
  m.dataSets.flatMap fun d => d.fields.map fun f => (f.name, d.access, f.type)

theorem Module.map_type_outline (m : Module) :
    m.outline.map (·.2.2) = m.fields.map (·.type) := by
  simp [outline, fields, List.map_flatMap, Function.comp_def]

theorem Module.outline_of_mem_fieldsOf {m : Module} {access : Access} {f : Slot} {i : Nat}
    (h : (f, i) ∈ m.fieldsOf access) : m.outline[i]? = some (f.name, access, f.type) := by
  obtain ⟨x, hx, hfi⟩ := List.mem_map.1 h
  obtain ⟨rfl, rfl⟩ := Prod.mk.inj hfi
  obtain ⟨hmem, haccess⟩ := List.mem_filter.1 hx
  have hget := List.mem_zipIdx_iff_getElem?.1 hmem
  have houtline : m.outline = (m.dataSets.flatMap fun d => d.fields.map fun f =>
      (f, d.access)).map fun x => (x.1.name, x.2, x.1.type) := by
    simp [outline, List.map_flatMap, Function.comp_def]
  obtain rfl : x.1.2 = access := by simpa using haccess
  rw [houtline, List.getElem?_map, hget]
  rfl

namespace Layout

variable {t : TypeTable}

/-- Places say nothing about what a field is called. -/
theorem map_slots {α : Type} {g : Slot → α} (hg : ∀ (f : Slot) (offset : Nat),
    g { f with offset } = g f) {fs placed : List Slot} {offset stop : Nat}
    (h : slots t offset fs = .ok (placed, stop)) : placed.map g = fs.map g := by
  induction fs generalizing offset placed with
  | nil =>
    obtain ⟨rfl, -⟩ : [] = placed ∧ offset = stop := by simpa [slots] using h
    rfl
  | cons f rest ih =>
    obtain ⟨size, hsize, h⟩ := Checked.bind_eq_ok.1 h
    obtain ⟨⟨later, stop'⟩, hrest, h⟩ := Checked.bind_eq_ok.1 h
    obtain ⟨rfl, rfl⟩ := Prod.mk.inj (Checked.pure_eq_ok.1 h)
    rw [List.map_cons, List.map_cons, hg, ih hrest]

theorem outline_dataSets {m : Module} {placed : List DataSet} {offset stop : Nat}
    (h : dataSets t offset m.dataSets = .ok (placed, stop)) :
    ({ m with dataSets := placed } : Module).outline = m.outline := by
  unfold Module.outline
  dsimp only
  generalize m.dataSets = ds at h
  induction ds generalizing offset placed with
  | nil =>
    obtain ⟨rfl, -⟩ : [] = placed ∧ offset = stop := by simpa [dataSets] using h
    rfl
  | cons d rest ih =>
    obtain ⟨⟨fields, middle⟩, hslots, h⟩ := Checked.bind_eq_ok.1 h
    obtain ⟨⟨later, stop'⟩, hrest, h⟩ := Checked.bind_eq_ok.1 h
    obtain ⟨rfl, rfl⟩ := Prod.mk.inj (Checked.pure_eq_ok.1 h)
    rw [List.flatMap_cons, List.flatMap_cons, ih hrest]
    dsimp only
    rw [map_slots (fun _ _ => rfl) hslots]

end Layout

namespace Program

variable {p q : Program}

/-- What the modules are called. -/
def moduleNames (p : Program) : List String := p.modules.map (·.name)

/-- An end of a channel means a data field: that of its name and of an access, in the first module of
its name. -/
structure Means (p : Program) (access : Access) (e : Endpoint) (r : DataFieldRef) : Prop where
  owner : p.moduleNames.findIdx? (· == e.owner) = some r.owner
  field : ∃ m t, p.modules[r.owner]? = some m ∧ m.outline[r.index]? = some (e.field, access, t)

/-- **Different ends mean different fields.** -/
theorem Means.unique {access access' : Access} {e e' : Endpoint} {r : DataFieldRef}
    (h : p.Means access e r) (h' : p.Means access' e' r) : access = access' ∧ e = e' := by
  obtain ⟨m, t, hm, ht⟩ := h.field
  obtain ⟨m', t', hm', ht'⟩ := h'.field
  obtain rfl : m = m' := Option.some.inj (hm.symm.trans hm')
  obtain ⟨hfield, haccess, -⟩ : e.field = e'.field ∧ access = access' ∧ t = t' := by
    simpa using ht.symm.trans ht'
  obtain ⟨hlt, howner, -⟩ := List.findIdx?_eq_some_iff_getElem.1 h.owner
  obtain ⟨_, howner', -⟩ := List.findIdx?_eq_some_iff_getElem.1 h'.owner
  have howner : e.owner = e'.owner := (beq_iff_eq.1 howner).symm.trans (beq_iff_eq.1 howner')
  exact ⟨haccess, by cases e; cases e'; simp_all⟩

theorem Means.dataField? {access : Access} {e : Endpoint} {r : DataFieldRef}
    (h : p.Means access e r) : ∃ m f, p.modules[r.owner]? = some m ∧ m.fields[r.index]? = some f ∧
      p.dataField? r = some f := by
  obtain ⟨m, t, hm, ht⟩ := h.field
  have htype : (m.fields.map (·.type))[r.index]? = some t := by
    rw [← m.map_type_outline, List.getElem?_map, ht]
    rfl
  rw [List.getElem?_map] at htype
  obtain ⟨f, hf, -⟩ := Option.map_eq_some_iff.1 htype
  exact ⟨m, f, hm, hf, by rw [Program.dataField?, hm, Option.bind_some, hf]⟩

/-- The modules have kept their names, and their fields are the same but for their places. -/
structure Redrawn (p q : Program) : Prop where
  names : q.moduleNames = p.moduleNames
  outlines : q.modules.map Module.outline = p.modules.map Module.outline

theorem Means.redrawn {access : Access} {e : Endpoint} {r : DataFieldRef} (h : p.Means access e r)
    (hq : p.Redrawn q) : q.Means access e r := by
  refine ⟨hq.names ▸ h.owner, ?_⟩
  obtain ⟨m, t, hm, ht⟩ := h.field
  have hmap : (q.modules.map Module.outline)[r.owner]? = some m.outline := by
    rw [hq.outlines, List.getElem?_map, hm]
    rfl
  rw [List.getElem?_map] at hmap
  obtain ⟨m', hm', houtline⟩ := Option.map_eq_some_iff.1 hmap
  exact ⟨m', t, hm', houtline ▸ ht⟩

/-- A module that is found by its name is the first of that name. -/
theorem findIdx?_of_moduleNamed? {name : String} {i : Nat} {m : Module}
    (h : p.moduleNamed? name = some (i, m)) :
    p.moduleNames.findIdx? (· == name) = some i ∧ p.modules[i]? = some m := by
  obtain ⟨x, hx, hxm⟩ := Option.map_eq_some_iff.1 h
  obtain ⟨rfl, rfl⟩ := Prod.mk.inj hxm
  obtain ⟨hname, k, hk, hxk, hearlier⟩ := List.find?_eq_some_iff_getElem.1 hx
  have hlt : k < p.modules.length := by simpa using hk
  obtain ⟨hm, hi⟩ : p.modules[k] = x.1 ∧ k = x.2 := by
    rw [List.getElem_zipIdx, Nat.zero_add] at hxk
    exact Prod.mk.inj hxk
  rw [← hm] at hname ⊢
  rw [← hi]
  refine ⟨List.findIdx?_eq_some_iff_getElem.2 ⟨by simpa [moduleNames] using hlt, ?_, ?_⟩,
    List.getElem?_eq_getElem hlt⟩
  · simpa [moduleNames] using hname
  · intro j hj
    simpa [moduleNames] using hearlier j hj

theorem Redrawn.dataField? (h : p.Redrawn q) {r : DataFieldRef} {f : Slot}
    (hf : p.dataField? r = some f) : ∃ f', q.dataField? r = some f' ∧ f'.type = f.type := by
  have htypes (p : Program) : (p.dataField? r).map (·.type) =
      ((p.modules.map Module.outline)[r.owner]?).bind fun o => (o[r.index]?).map (·.2.2) := by
    rw [Program.dataField?, List.getElem?_map]
    cases p.modules[r.owner]? with
    | none => rfl
    | some m =>
      rw [Option.bind_some, Option.map_some, Option.bind_some, ← List.getElem?_map,
        ← List.getElem?_map, m.map_type_outline]
  have hmap : (q.dataField? r).map (·.type) = some f.type := by
    rw [htypes, h.outlines, ← htypes, hf]
    rfl
  exact Option.map_eq_some_iff.1 hmap

theorem means_of_bindEndpoint {place : Location} {access : Access} {rule : Rule} {e : Endpoint}
    {r : DataFieldRef} (h : p.bindEndpoint place access rule e = .ok r) : p.Means access e r := by
  unfold bindEndpoint at h
  split at h
  · cases h
  next owner m hm =>
    split at h
    next slot index hfind =>
      obtain rfl : (⟨owner, index⟩ : DataFieldRef) = r := by simpa using h
      obtain ⟨hfirst, hmodule⟩ := findIdx?_of_moduleNamed? hm
      have hslot : slot.name = e.field := by simpa using List.find?_some hfind
      have hfield := Module.outline_of_mem_fieldsOf (List.mem_of_find?_eq_some hfind)
      exact ⟨hfirst, m, slot.type, hmodule, hslot ▸ hfield⟩
    · cases h

/-! ## The passes -/

/-- What is true of the channels of a program once names are bound. -/
structure Joined (p : Program) (channels : List Channel) : Prop where
  ends : ∀ c ∈ channels, ∃ output input, c.fields = some (output, input) ∧
    p.Means .output c.source output ∧ p.Means .input c.destination input
  distinct : channels.Pairwise fun c c' => c.destination ≠ c'.destination

theorem Joined.redrawn {channels : List Channel} (h : p.Joined channels) (hq : p.Redrawn q) :
    q.Joined channels := by
  refine ⟨fun c hc => ?_, h.distinct⟩
  obtain ⟨output, input, hfields, ho, hi⟩ := h.ends c hc
  exact ⟨output, input, hfields, ho.redrawn hq, hi.redrawn hq⟩

/-- **No two channels that have been bound lead to one end.** -/
theorem joined_bindChannels {cs cs' : List Channel} {taken : List Endpoint}
    (h : p.bindChannels taken cs = .ok cs') :
    p.Joined cs' ∧ ∀ c ∈ cs', c.destination ∉ taken := by
  induction cs generalizing taken cs' with
  | nil =>
    obtain rfl : [] = cs' := by simpa [bindChannels] using h
    exact ⟨⟨by simp, .nil⟩, by simp⟩
  | cons c rest ih =>
    unfold bindChannels at h
    obtain ⟨output, ho, h⟩ := Checked.bind_eq_ok.1 h
    obtain ⟨input, hi, h⟩ := Checked.bind_eq_ok.1 h
    dsimp only at h
    split at h
    · cases h
    next hfree =>
      obtain ⟨cs'', hcs, h⟩ := Checked.bind_eq_ok.1 h
      obtain rfl := Checked.pure_eq_ok.1 h
      obtain ⟨hjoined, hfresh⟩ := ih hcs
      refine ⟨⟨fun c' hc' => ?_, .cons (fun c' hc' => ?_) hjoined.distinct⟩, fun c' hc' => ?_⟩
      · obtain rfl | hc' := List.mem_cons.1 hc'
        · exact ⟨output, input, rfl, means_of_bindEndpoint ho, means_of_bindEndpoint hi⟩
        · exact hjoined.ends c' hc'
      · rintro hsame
        exact hfresh c' hc' (by simp [← hsame])
      · obtain rfl | hc' := List.mem_cons.1 hc'
        · simpa using hfree
        · exact fun hmem => hfresh c' hc' (List.mem_cons_of_mem _ hmem)

theorem redrawn_withReach : p.Redrawn p.withReach :=
  ⟨by simp [moduleNames, withReach, Function.comp_def],
    by simp [withReach, Function.comp_def, Module.outline]⟩

end Program

namespace Checking

/-- The two ends of a channel whose types have been checked are of one shape. -/
theorem ends_checkChannel_shape {p : Program} (c : Channel) (s : CheckState) :
    Ends (checkChannel p c) s fun _ s' => s' = s ∧ ∀ output input, c.fields = some (output, input) →
      ∃ a b, p.dataField? output = some a ∧ p.dataField? input = some b ∧
        s.types.shape? a.type = s.types.shape? b.type := by
  unfold checkChannel
  split
  next hnone => exact Ends.value ⟨rfl, by simp [hnone]⟩
  next output input hfields =>
    split
    next a b ha hb =>
      refine Ends.reads ?_
      dsimp only
      split
      · exact Ends.refused
      next hanalog =>
        refine Ends.value ⟨rfl, fun o i hoi => ?_⟩
        obtain ⟨rfl, rfl⟩ : output = o ∧ input = i := by simpa [hfields] using hoi
        have hanalog : s.types.isAnalog a.type b.type = true := by
          simp only [Bool.or_eq_true, Bool.not_eq_true', not_or] at hanalog
          simpa using hanalog.2
        exact ⟨a, b, ha, hb, TypeTable.shape?_of_isAnalog hanalog⟩
    · exact Ends.refused

end Checking

namespace Program

variable {p q : Program}

theorem shape?_of_checkTypes (h : p.checkTypes = .ok q) :
    ∀ c ∈ p.channels, ∀ output input, c.fields = some (output, input) →
      ∃ a b, p.dataField? output = some a ∧ p.dataField? input = some b ∧
        q.types.shape? a.type = q.types.shape? b.type := by
  obtain ⟨⟨fs, s'⟩, hrun, h⟩ := Checked.bind_eq_ok.1 h
  obtain rfl := Checked.pure_eq_ok.1 h
  unfold Checking.program at hrun
  -- the channels come last, so that what is checked of them is true of the types in the end
  have hlast : Ends (Checking.program p) ⟨p.types, p.constants, [], [], #[]⟩ fun _ s' =>
      ∀ c ∈ p.channels, ∀ output input, c.fields = some (output, input) →
        ∃ a b, p.dataField? output = some a ∧ p.dataField? input = some b ∧
          s'.types.shape? a.type = s'.types.shape? b.type := by
    unfold Checking.program
    refine Ends.after fun _ _ => Ends.after fun _ _ => Ends.after fun _ _ => Ends.after fun _ _ =>
      Ends.after fun _ _ => Ends.after fun _ _ => Ends.after fun _ _ => Ends.after fun _ s => ?_
    refine (Checking.ends_checks p.channels Checking.ends_checkChannel_shape s).seq
      fun _ s' hs' => Ends.value ?_
    obtain ⟨rfl, hshape⟩ := hs'
    exact hshape
  exact hlast _ _ hrun

theorem outline_module {t : TypeTable} {m m' : Module} (h : Layout.module t m = .ok m') :
    m'.name = m.name ∧ m'.outline = m.outline ∧ Slot.Follow t m'.fields := by
  obtain ⟨⟨ds, size⟩, hds, h⟩ := Checked.bind_eq_ok.1 h
  obtain rfl := Checked.pure_eq_ok.1 h
  exact ⟨rfl, Layout.outline_dataSets hds, Layout.follow_dataSets hds⟩

theorem redrawn_layout (h : p.layout = .ok q) : p.Redrawn q := by
  have hmap {α : Type} {g : Module → α} (hg : ∀ {m m' : Module},
      Layout.module q.types m = .ok m' → g m' = g m) : q.modules.map g = p.modules.map g := by
    rw [← List.forall₂_eq_eq_eq, List.forall₂_map_left_iff, List.forall₂_map_right_iff]
    exact (laysOut_of_layout h).modules.flip.imp fun _ _ hm => hg hm
  exact ⟨hmap fun hm => (outline_module hm).1, hmap fun hm => (outline_module hm).2.1⟩

/-- The channels of a program lead from output fields to input fields of the same size, no two of
them to the same field, and the fields of a module lie one behind the other. -/
structure Channelled (p : Program) : Prop where
  joined : p.Joined p.channels
  sizes : ∀ c ∈ p.channels, ∀ output input, c.fields = some (output, input) →
    ∃ a b n, p.dataField? output = some a ∧ p.dataField? input = some b ∧
      p.types.size? a.type = some n ∧ p.types.size? b.type = some n
  follow : ∀ m ∈ p.modules, Slot.Follow p.types m.fields

/-- **The channels of an analysed program are sound.** -/
theorem channelled_of_analyse {raw : Raw.Program} (h : analyse raw = .ok q) : q.Channelled := by
  have hcomplete := complete_of_analyse h
  obtain ⟨p₀, h₀, h⟩ := Checked.bind_eq_ok.1 h
  obtain ⟨p₁, h₁, h⟩ := Checked.bind_eq_ok.1 h
  obtain ⟨p₂, h₂, h⟩ := Checked.bind_eq_ok.1 h
  obtain ⟨hw₀, hu₀⟩ := written_ofRaw h₀
  have hw := (hw₀.bound hu₀ h₁).withReach
  obtain ⟨hrelaid, -⟩ := relaid_of_checkTypes hw h₂ h
  have hshapes := shape?_of_checkTypes h₂
  obtain ⟨hchecked, hchannels⟩ : p₁.withReach.Redrawn p₂ ∧ p₂.channels = p₁.channels := by
    obtain ⟨⟨fs, s'⟩, -, h₂⟩ := Checked.bind_eq_ok.1 h₂
    obtain rfl := Checked.pure_eq_ok.1 h₂
    exact ⟨⟨rfl, rfl⟩, rfl⟩
  have hjoined : p₁.Joined p₁.channels := by
    obtain ⟨constants, -, h₁⟩ := Checked.bind_eq_ok.1 h₁
    obtain ⟨lengths, -, h₁⟩ := Checked.bind_eq_ok.1 h₁
    obtain ⟨functions, -, h₁⟩ := Checked.bind_eq_ok.1 h₁
    obtain ⟨channels, hcs, h₁⟩ := Checked.bind_eq_ok.1 h₁
    obtain rfl := Checked.pure_eq_ok.1 h₁
    exact (joined_bindChannels hcs).1.redrawn ⟨rfl, rfl⟩
  have hlayout := redrawn_layout h
  refine ⟨?_, fun c hc output input hfields => ?_, fun m' hm' => ?_⟩
  · rw [hrelaid.channels, hchannels]
    exact ((hjoined.redrawn redrawn_withReach).redrawn hchecked).redrawn hlayout
  · rw [hrelaid.channels, hchannels] at hc
    obtain ⟨a, b, ha, hb, hshape⟩ := hshapes c hc output input hfields
    obtain ⟨a₂, ha₂, hta₂⟩ := hchecked.dataField? ha
    obtain ⟨b₂, hb₂, htb₂⟩ := hchecked.dataField? hb
    obtain ⟨a', ha', hta⟩ := hlayout.dataField? ha₂
    obtain ⟨b', hb', htb⟩ := hlayout.dataField? hb₂
    obtain ⟨m, hm, hf⟩ := Option.bind_eq_some_iff.1 ha'
    obtain ⟨n, hn, -⟩ := hcomplete.analysed.laidOut.modules m (List.mem_of_getElem? hm) a'
      (List.mem_of_getElem? hf)
    refine ⟨a', b', n, ha', hb', hn, ?_⟩
    rw [TypeTable.size?_eq, hrelaid.types.shape?_eq, htb, htb₂, ← hshape, ← hta₂, ← hta,
      ← hrelaid.types.shape?_eq, ← TypeTable.size?_eq, hn]
  · obtain ⟨k, hk⟩ := List.mem_iff_getElem?.1 hm'
    obtain ⟨m, -, hm⟩ := forall₂_right (laysOut_of_layout h).modules hk
    exact (outline_module hm).2.2

end Program

end ChannelBasic
