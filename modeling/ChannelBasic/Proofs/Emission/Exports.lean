import ChannelBasic.Proofs.Emission.Contents
import ChannelBasic.Proofs.Execution.Verification

/-!
# Proofs/Emission/Exports — which function an entry stands for

The entries of an image are found by name, and all functions that a module reaches are entered: its
own ones and those of libraries, which may have the same names.  **The last function of a name
counts** (`Module.entry?_of_image`).  So a name stands for the module's own function if no other
function that the module reaches has it (`Module.entry?_own`), and for another one if that comes
later.
-/

namespace ChannelBasic

open Code

namespace Image

theorem lookup_cons_eq (k n : String) (e : Entry) (es : List (String × Entry)) :
    ((k, e) :: es).lookup n = if n = k then some e else es.lookup n := by
  rw [List.lookup_cons]
  by_cases h : n = k
  · rw [h, beq_self_eq_true, if_pos rfl]
  · rw [beq_false_of_ne h, if_neg h]

/-- A further entry replaces the one of its name and leaves all others. -/
theorem lookup_insertEntry (name : String) (e : Entry) (es : List (String × Entry)) (n : String) :
    (insertEntry name e es).lookup n = if n = name then some e else es.lookup n := by
  induction es with
  | nil => exact lookup_cons_eq name n e []
  | cons x es ih =>
    obtain ⟨k, e'⟩ := x
    rw [insertEntry]
    split
    next heq =>
      obtain rfl : name = k := eq_of_beq heq
      rw [lookup_cons_eq, lookup_cons_eq]
      split <;> rfl
    next hne =>
      have hk : name ≠ k := ne_of_beq_false (by simpa using hne)
      split
      · exact lookup_cons_eq name n e _
      · rw [lookup_cons_eq, lookup_cons_eq, ih]
        by_cases h : n = name
        · rw [if_neg (h ▸ hk), if_pos h, if_pos h]
        · rw [if_neg h, if_neg h]

/-- Entries that are added one after the other: **the last one of a name counts**. -/
theorem lookup_foldl_insertEntry (g : Emission.Done → Entry) (units : List Emission.Done)
    (es : List (String × Entry)) (name : String) :
    (units.foldl (fun es u => insertEntry u.name (g u) es) es).lookup name =
      (((units.filter fun u => u.name = name).getLast?).map g).or (es.lookup name) := by
  induction units generalizing es with
  | nil => rfl
  | cons u units ih =>
    rw [List.foldl_cons, ih, lookup_insertEntry, List.filter_cons]
    by_cases h : u.name = name
    · rw [if_pos h.symm, if_pos (decide_eq_true h), List.getLast?_cons]
      cases (units.filter fun u => u.name = name).getLast? <;> rfl
    · rw [if_neg (Ne.symm h), if_neg (by simpa using h)]

end Image

namespace Module

variable {raw : Raw.Program} {p : Program} {m : Module} {a : Assembly} {image : Image}

/-- **A name stands for the last function that has it**, whether it is the module's own or a
library's. -/
theorem entry?_of_image (ha : m.assembly p = .ok a) (h : m.image p = .ok image) (name : String) :
    image.entry? name = ((a.units.filter fun u => u.name = name).getLast?).map a.entry := by
  obtain ⟨a', records, ha', -, rfl⟩ := linked_of_image h
  obtain rfl : a' = a := Except.ok.inj (ha'.symm.trans ha)
  rw [Image.entry?, Image.lookup_foldl_insertEntry]
  exact Option.or_none

/-- **A function of the module is found by its name** if no other function with a body that the
module reaches has that name: its entry is where its code lies, with the bytes of its frame's
arguments and of its result. -/
theorem entry?_own (hp : Program.analyse raw = .ok p) (hm : m ∈ p.modules)
    (ha : m.assembly p = .ok a) (himage : m.image p = .ok image)
    (hbytes : image.bytes.length < 2 ^ 31) {n : Nat} {f : Function} {body : UserBody}
    (hn : n ∈ m.functions) (hf : p.functions[n]? = some f) (hbody : f.user? = some body)
    (hname : ∀ k ∈ m.reachable, ∀ g, p.functions[k]? = some g → g.isUser = true →
      g.name = f.name → k = n) :
    ∃ u ∈ a.units, u.number = n ∧ ∃ size, p.types.resultSize? f.returns = some size ∧
      image.entry? f.name =
        some ⟨(recordSize * (a.stretch u).first : Nat), body.frame.arguments, size⟩ ∧
      image.Shows a.link (a.stretch u).first u.code := by
  have h := Program.complete_of_analyse hp
  obtain ⟨start, z, hs⟩ := shown_of_image h hm ha himage hbytes
  have hreachable : n ∈ m.reachable :=
    ((Program.exactly_reachable hp hm).2 n).2 ⟨.own hn, .inl hn⟩
  have hcovers := Assembly.covers_of_analyse hp hm ha
  obtain ⟨u, hu, hnumber⟩ :=
    List.mem_map.1 ((hcovers.units n).2 ⟨hreachable, f, body, hf, hbody⟩)
  -- the last function of the name is this one, since no other has the name
  obtain ⟨v, hv⟩ : ∃ v, (a.units.filter fun v => v.name = f.name).getLast? = some v := by
    obtain ⟨g, body', code, hfor⟩ := hs.code.code u hu
    obtain rfl : f = g := Option.some.inj (hf.symm.trans (hnumber ▸ hfor.function))
    have hmem : u ∈ a.units.filter fun v => v.name = f.name :=
      List.mem_filter.2 ⟨hu, decide_eq_true hfor.name⟩
    exact Option.ne_none_iff_exists'.1 (mt List.getLast?_eq_none_iff.1 (List.ne_nil_of_mem hmem))
  obtain ⟨hv', hsame⟩ := List.mem_filter.1 (List.mem_of_getLast? hv)
  obtain ⟨g, body', code, hfor⟩ := hs.code.code v hv'
  have hnumber' : v.number = n := by
    refine hname _ ((hcovers.units _).1 (List.mem_map_of_mem hv')).1 g hfor.function ?_ ?_
    · rw [Function.isUser, hfor.user]
      rfl
    · rw [← hfor.name]
      exact of_decide_eq_true hsame
  obtain rfl : f = g := Option.some.inj (hf.symm.trans (hnumber' ▸ hfor.function))
  obtain rfl : body = body' := Option.some.inj (hbody.symm.trans hfor.user)
  obtain ⟨haddress, hshows⟩ := hs.units v hv'
  refine ⟨v, hv', hnumber', v.result, hfor.result, ?_, hshows⟩
  rw [entry?_of_image ha himage, hv, Option.map_some, ← haddress, ← hfor.arguments]
  rfl

end Module

/-- A module with a function that has the name of one of a library's, which it reaches. -/
def Raw.Program.namesakes : Raw.Program :=
  let place : Location := default
  let function (name : String) (value : Raw.Expr) : Raw.Function :=
    ⟨place, name, some (.scalar .integer), .user [] [.return place (some value)]⟩
  ⟨[], [], [⟨place, [], [function "HELPER" (.integer place 1),
      function "LIB" (.call place "HELPER" [])]⟩],
    [⟨place, "M", "LOCAL", [], [⟨place, [], [function "HELPER" (.integer place 2),
      function "MAIN" (.call place "LIB" [])]⟩]⟩], []⟩

/-- The name stands for the library's function, which comes later. -/
example : (do
    let p ← Program.analyse .namesakes
    p.modules.mapM fun (m : Module) => do
      let a ← m.assembly p
      let image ← m.image p
      let own := (a.units.filter fun u => u.number ∈ m.functions).map fun u => (u.name, a.entry u)
      return (own, image.entry? "HELPER") : Checked _) =
    .ok [([("MAIN", ⟨48, 0, 4⟩), ("HELPER", ⟨176, 0, 4⟩)], some ⟨416, 0, 4⟩)] := by
  decide +kernel

end ChannelBasic
