import Mathlib.Logic.Relation
import ChannelBasic.Proofs.Faultless.Reading

/-!
# Proofs/Source/Expansion — a program is the expansion of its main file

`Splices` is how files are put together, written down as the rules of a derivation: there is no bound
on the depth, and the files that are loaded are listed in order.  A file that is loaded from memory
was not seen before, so **the bound is never met** (`splices_spliceFile`), and **no file is loaded
twice** (`Splices.fresh`).

What it comes to is said without the files that were seen so far.  A file `Unfolds` into a tree of
lines and of imported files, each of them opened or left out; in the expansion of a main file
(`IsExpansion`) a file is opened exactly where it is mentioned first.  **Splicing succeeds exactly with
the lines of the expansion** (`splice_eq_ok_iff`), and these are the lines of all files that can be
reached, each of them once (`lines_of_splices`).
-/

namespace ChannelBasic

namespace Source

/-! ## What a file says -/

/-- A line of some texts, the first one having this number, as it is read. -/
def Reads (name : String) (number : Nat) (texts : List String) (line : Line) : Prop :=
  ∃ i text, texts[i]? = some text ∧ Line.read name (number + i) text = .ok line

/-- A line of a file, as it is read. -/
def LineOf (load : Loader) (name : String) (line : Line) : Prop :=
  ∃ text, load name = .ok text ∧ Reads name 1 (Text.lines text) line

/-- A file has a line that imports another file. -/
def Imports (load : Loader) (name imported : String) : Prop :=
  ∃ line, LineOf load name line ∧ Import.ofLine line = .file imported

/-- A file that is imported, directly or not, or that is the first file itself. -/
abbrev Reaches (load : Loader) : String → String → Prop := Relation.ReflTransGen (Imports load)

/-- A line that belongs to the program: it is not empty, and it imports nothing. -/
def Kept (line : Line) : Prop := line.tokens ≠ [] ∧ Import.ofLine line = .none

variable {load : Loader} {name imported text : String} {number : Nat} {texts loads : List String}
  {place : Option Location} {line : Line} {found next : Spliced} {outcome : Checked Spliced}

theorem not_reads_nil : ¬ Reads name number [] line := by
  rintro ⟨i, raw, hraw, -⟩
  cases hraw

theorem reads_cons : Reads name number (text :: texts) line ↔
    Line.read name number text = .ok line ∨ Reads name (number + 1) texts line := by
  constructor
  · rintro ⟨_ | i, raw, hraw, hread⟩
    · obtain rfl := Option.some.inj hraw
      exact .inl hread
    · exact .inr ⟨i, raw, hraw, by rwa [Nat.add_right_comm]⟩
  · rintro (hread | ⟨i, raw, hraw, hread⟩)
    · exact ⟨0, text, rfl, hread⟩
    · exact ⟨i + 1, raw, hraw, by rwa [Nat.add_right_comm] at hread⟩

theorem place_of_read (h : Line.read name number text = .ok line) :
    line.file = name ∧ line.number = number := by
  obtain ⟨tokens, -, h⟩ := Checked.bind_eq_ok.1 h
  obtain rfl := Checked.pure_eq_ok.1 h
  exact ⟨rfl, rfl⟩

theorem Reads.stands (h : Reads name number texts line) :
    line.file = name ∧ number ≤ line.number := by
  obtain ⟨i, raw, -, hread⟩ := h
  obtain ⟨hfile, hnumber⟩ := place_of_read hread
  exact ⟨hfile, by omega⟩

theorem LineOf.file (h : LineOf load name line) : line.file = name := by
  obtain ⟨text, -, h⟩ := h
  exact h.stands.1

/-! ## One line -/

section

variable {file : String → Location → Spliced → Checked Spliced}

theorem isEmpty_of_import (h : Import.ofLine line ≠ .none) : line.tokens.isEmpty = false := by
  unfold Import.ofLine at h
  cases htokens : line.tokens with
  | nil => simp [htokens] at h
  | cons t ts => rfl

theorem spliceLines_unread {d : Diagnostic} (h : Line.read name number text = .error d) :
    spliceLines file name number found (text :: texts) = .error d := by
  simp [spliceLines, h, bind, Except.bind]

theorem spliceLines_empty (h : Line.read name number text = .ok line) (hempty : line.tokens = []) :
    spliceLines file name number found (text :: texts) =
      spliceLines file name (number + 1) found texts := by
  simp [spliceLines, h, hempty, bind, Except.bind, pure, Except.pure]

theorem spliceLines_kept (h : Line.read name number text = .ok line) (hkept : Kept line) :
    spliceLines file name number found (text :: texts) =
      spliceLines file name (number + 1) { found with lines := line :: found.lines } texts := by
  simp [spliceLines, h, hkept.1, hkept.2, bind, Except.bind, pure, Except.pure]

theorem spliceLines_unnamed {location : Location} (h : Line.read name number text = .ok line)
    (himport : Import.ofLine line = .unnamed location) :
    spliceLines file name number found (text :: texts) =
      .error (Rule.expectedFileName.here location) := by
  have hfilled : line.tokens.isEmpty = false := isEmpty_of_import (by simp [himport])
  simp [spliceLines, h, hfilled, himport, bind, Except.bind]

theorem spliceLines_imports (h : Line.read name number text = .ok line)
    (himport : Import.ofLine line = .file imported) :
    spliceLines file name number found (text :: texts) =
      (file imported line.whole found >>= fun next =>
        spliceLines file name (number + 1) next texts) := by
  have hfilled : line.tokens.isEmpty = false := isEmpty_of_import (by simp [himport])
  simp [spliceLines, h, hfilled, himport, bind, Except.bind]

end

/-! ## Splicing without a bound -/

mutual

/-- A file is added to what was found: the files that are loaded for it, in order, and what it
comes to. -/
inductive Splices (load : Loader) :
    Spliced → String → Option Location → List String → Checked Spliced → Prop where
  | seen {found : Spliced} {name : String} {place : Option Location} (h : name ∈ found.seen) :
      Splices load found name place [] (.ok found)
  | missing {found : Spliced} {name reason : String} {place : Option Location}
      (h : name ∉ found.seen) (hload : load name = .error reason) :
      Splices load found name place [name]
        (.error ⟨.importNotFound, place, name ++ ": " ++ reason⟩)
  | text {found : Spliced} {name text : String} {place : Option Location} {loads : List String}
      {outcome : Checked Spliced} (h : name ∉ found.seen) (hload : load name = .ok text)
      (hlines : SplicesLines load name 1 { found with seen := name :: found.seen }
        (Text.lines text) loads outcome) :
      Splices load found name place (name :: loads) outcome

/-- Some lines of a file are added to what was found. -/
inductive SplicesLines (load : Loader) :
    String → Nat → Spliced → List String → List String → Checked Spliced → Prop where
  | nil {name : String} {number : Nat} {found : Spliced} :
      SplicesLines load name number found [] [] (.ok found)
  | unread {name text : String} {number : Nat} {found : Spliced} {texts : List String}
      {d : Diagnostic} (h : Line.read name number text = .error d) :
      SplicesLines load name number found (text :: texts) [] (.error d)
  | empty {name text : String} {number : Nat} {found : Spliced} {texts loads : List String}
      {line : Line} {outcome : Checked Spliced} (h : Line.read name number text = .ok line)
      (hempty : line.tokens = [])
      (hrest : SplicesLines load name (number + 1) found texts loads outcome) :
      SplicesLines load name number found (text :: texts) loads outcome
  | kept {name text : String} {number : Nat} {found : Spliced} {texts loads : List String}
      {line : Line} {outcome : Checked Spliced} (h : Line.read name number text = .ok line)
      (hkept : Kept line)
      (hrest : SplicesLines load name (number + 1) { found with lines := line :: found.lines }
        texts loads outcome) :
      SplicesLines load name number found (text :: texts) loads outcome
  | unnamed {name text : String} {number : Nat} {found : Spliced} {texts : List String}
      {line : Line} {location : Location} (h : Line.read name number text = .ok line)
      (himport : Import.ofLine line = .unnamed location) :
      SplicesLines load name number found (text :: texts) []
        (.error (Rule.expectedFileName.here location))
  | refused {name text imported : String} {number : Nat} {found : Spliced}
      {texts loads : List String} {line : Line} {d : Diagnostic}
      (h : Line.read name number text = .ok line) (himport : Import.ofLine line = .file imported)
      (hfile : Splices load found imported (some line.whole) loads (.error d)) :
      SplicesLines load name number found (text :: texts) loads (.error d)
  | imports {name text imported : String} {number : Nat} {found next : Spliced}
      {texts loads loads' : List String} {line : Line} {outcome : Checked Spliced}
      (h : Line.read name number text = .ok line) (himport : Import.ofLine line = .file imported)
      (hfile : Splices load found imported (some line.whole) loads (.ok next))
      (hrest : SplicesLines load name (number + 1) next texts loads' outcome) :
      SplicesLines load name number found (text :: texts) (loads ++ loads') outcome

end

/-- What was loaded was not seen before, and is seen afterwards. -/
structure Fresh (found : Spliced) (loads : List String) (outcome : Checked Spliced) : Prop where
  nodup : loads.Nodup
  unseen : ∀ x ∈ loads, x ∉ found.seen
  seen : ∀ next, outcome = .ok next → next.seen = loads.reverse ++ found.seen

namespace Fresh

theorem same (h : next.seen = found.seen) : Fresh found [] (.ok next) where
  nodup := .nil
  unseen := by simp
  seen := by rintro _ ⟨⟩; exact h

theorem error {d : Diagnostic} : Fresh found [] (.error d) where
  nodup := .nil
  unseen := by simp
  seen := by rintro _ ⟨⟩

theorem cons (hname : name ∉ found.seen)
    (h : Fresh { found with seen := name :: found.seen } loads outcome) :
    Fresh found (name :: loads) outcome where
  nodup := List.nodup_cons.2 ⟨fun hmem => h.unseen name hmem (.head _), h.nodup⟩
  unseen := List.forall_mem_cons.2
    ⟨hname, fun x hx hseen => h.unseen x hx (.tail _ hseen)⟩
  seen next hnext := by simp [h.seen next hnext]

theorem append {loads' : List String} (h : Fresh found loads (.ok next))
    (h' : Fresh next loads' outcome) : Fresh found (loads ++ loads') outcome where
  nodup := by
    refine List.nodup_append.2 ⟨h.nodup, h'.nodup, fun x hx y hy hxy => h'.unseen y hy ?_⟩
    simp [h.seen next rfl, ← hxy, hx]
  unseen x hx hseen := by
    rcases List.mem_append.1 hx with hx | hx
    · exact h.unseen x hx hseen
    · exact h'.unseen x hx (by simp [h.seen next rfl, hseen])
  seen last hlast := by simp [h'.seen last hlast, h.seen next rfl]

end Fresh

mutual

/-- **No file is loaded twice**, and the files that were loaded are the ones that were seen. -/
theorem Splices.fresh {found name place loads outcome} :
    Splices load found name place loads outcome → Fresh found loads outcome
  | .seen _ => .same rfl
  | .missing h _ => {
      nodup := by simp
      unseen := by simpa using h
      seen := by rintro _ ⟨⟩ }
  | .text h _ hlines => hlines.fresh.cons h

theorem SplicesLines.fresh {name number found texts loads outcome} :
    SplicesLines load name number found texts loads outcome → Fresh found loads outcome
  | .nil => .same rfl
  | .unread _ | .unnamed _ _ => .error
  | .empty _ _ hrest => hrest.fresh
  | .kept _ _ hrest => ⟨hrest.fresh.nodup, hrest.fresh.unseen, hrest.fresh.seen⟩
  | .refused _ _ hfile => hfile.fresh
  | .imports _ _ hfile hrest => hfile.fresh.append hrest.fresh

end

/-! ## The bound is never met

A file that is loaded from memory is one that was not seen, and after that it is seen.  So the files
that were not seen bound how deep files still import files. -/

/-- The files in memory that were not seen. -/
def unseen (files : Files) (seen : List String) : Nat :=
  files.countP fun file => decide (file.1 ∉ seen)

variable {files : Files} {seen : List String} {depth : Nat}

theorem unseen_mono {seen' : List String} (h : seen ⊆ seen') :
    unseen files seen' ≤ unseen files seen := by
  refine List.countP_mono_left fun file _ hfile => ?_
  rw [decide_eq_true_eq] at hfile ⊢
  exact fun hseen => hfile (h hseen)

theorem lookup_of_loader (h : files.loader name = .ok text) : files.lookup name = some text := by
  unfold Files.loader at h
  split at h
  next hlookup =>
    cases h
    exact hlookup
  next => cases h

theorem lookup_of_missing {reason : String} (h : files.loader name = .error reason) :
    files.lookup name = none ∧ reason = name := by
  unfold Files.loader at h
  split at h
  next => cases h
  next hlookup =>
    cases h
    exact ⟨hlookup, rfl⟩

theorem unseen_lt (hload : files.loader name = .ok text) (h : name ∉ seen) :
    unseen files (name :: seen) < unseen files seen := by
  obtain ⟨before, after, rfl, -⟩ := List.lookup_eq_some_iff.1 (lookup_of_loader hload)
  have hmono (files : Files) : unseen files (name :: seen) ≤ unseen files seen :=
    unseen_mono fun _ => .tail _
  have hbefore := hmono before
  have hafter := hmono after
  rw [unseen, unseen, List.countP_append, List.countP_append, List.countP_cons_of_neg (by simp),
    List.countP_cons_of_pos (by simpa using h)]
  simp only [unseen] at hbefore hafter
  omega

/-- The lines of a file are spliced as the rules say if the files that they import are. -/
theorem splices_spliceLines {file : String → Location → Spliced → Checked Spliced}
    (hfile : ∀ found imported place, unseen files found.seen < depth →
      ∃ loads, Splices files.loader found imported (some place) loads (file imported place found))
    (name : String) (number : Nat) (texts : List String) (h : unseen files found.seen < depth) :
    ∃ loads, SplicesLines files.loader name number found texts loads
      (spliceLines file name number found texts) := by
  induction texts generalizing number found with
  | nil => exact ⟨[], .nil⟩
  | cons text texts ih =>
    cases hread : Line.read name number text with
    | error d => exact ⟨[], spliceLines_unread hread ▸ .unread hread⟩
    | ok line =>
      by_cases hempty : line.tokens = []
      · obtain ⟨loads, hrest⟩ := ih (number + 1) h
        exact ⟨loads, spliceLines_empty hread hempty ▸ .empty hread hempty hrest⟩
      cases himport : Import.ofLine line with
      | none =>
        have hkept : Kept line := ⟨hempty, himport⟩
        obtain ⟨loads, hrest⟩ := @ih { found with lines := line :: found.lines } (number + 1) h
        exact ⟨loads, spliceLines_kept hread hkept ▸ .kept hread hkept hrest⟩
      | unnamed location =>
        exact ⟨[], spliceLines_unnamed hread himport ▸ .unnamed hread himport⟩
      | file imported =>
        obtain ⟨loads, hloads⟩ := hfile found imported line.whole h
        rw [spliceLines_imports hread himport]
        cases hnext : file imported line.whole found with
        | error d => exact ⟨loads, .refused hread himport (hnext ▸ hloads)⟩
        | ok next =>
          rw [hnext] at hloads
          have hless : unseen files next.seen < depth := by
            refine Nat.lt_of_le_of_lt (unseen_mono ?_) h
            rw [hloads.fresh.seen next rfl]
            exact List.subset_append_right _ _
          obtain ⟨loads', hrest⟩ := ih (number + 1) hless
          exact ⟨loads ++ loads', .imports hread himport hloads hrest⟩

/-- **Files are spliced as the rules say** as long as files may import each other deeper than there are
files that were not seen. -/
theorem splices_spliceFile (files : Files) (found : Spliced) (name : String)
    (place : Option Location) (h : unseen files found.seen < depth) :
    ∃ loads, Splices files.loader found name place loads
      (spliceFile files.loader depth name place found) := by
  induction depth generalizing found name place with
  | zero => exact absurd h (Nat.not_lt_zero _)
  | succ depth ih =>
    rw [spliceFile]
    split
    next hseen => exact ⟨[], .seen (by simpa using hseen)⟩
    next hseen =>
      have hnew : name ∉ found.seen := by simpa using hseen
      cases hload : files.loader name with
      | error reason => exact ⟨[name], .missing hnew hload⟩
      | ok text =>
        let opened : Spliced := { found with seen := name :: found.seen }
        have hless : unseen files opened.seen < depth :=
          Nat.lt_of_lt_of_le (unseen_lt hload hnew) (Nat.le_of_lt_succ h)
        obtain ⟨loads, hlines⟩ := splices_spliceLines
          (fun found imported place hdepth => ih found imported (some place) hdepth)
          name 1 (Text.lines text) hless
        exact ⟨name :: loads, .text hnew hload hlines⟩

mutual

/-- What the rules say is what splicing comes to at every greater depth. -/
theorem Splices.spliceFile_eq {found name place loads outcome} :
    Splices load found name place loads outcome →
      ∃ bound, ∀ depth, spliceFile load (bound + depth) name place found = outcome
  | .seen h => ⟨1, fun depth => by simp [Nat.add_comm 1, spliceFile, h]⟩
  | .missing h hload => ⟨1, fun depth => by simp [Nat.add_comm 1, spliceFile, h, hload]⟩
  | .text h hload hlines => by
    obtain ⟨bound, hbound⟩ := hlines.spliceLines_eq
    exact ⟨bound + 1, fun depth => by simp [Nat.add_right_comm, spliceFile, h, hload, hbound]⟩

theorem SplicesLines.spliceLines_eq {name number found texts loads outcome} :
    SplicesLines load name number found texts loads outcome → ∃ bound, ∀ depth,
      spliceLines (fun imported place => spliceFile load (bound + depth) imported (some place)) name
        number found texts = outcome
  | .nil => ⟨0, fun _ => rfl⟩
  | .unread h => ⟨0, fun _ => spliceLines_unread h⟩
  | .empty h hempty hrest => by
    obtain ⟨bound, hbound⟩ := hrest.spliceLines_eq
    exact ⟨bound, fun depth => (spliceLines_empty h hempty).trans (hbound depth)⟩
  | .kept h hkept hrest => by
    obtain ⟨bound, hbound⟩ := hrest.spliceLines_eq
    exact ⟨bound, fun depth => (spliceLines_kept h hkept).trans (hbound depth)⟩
  | .unnamed h himport => ⟨0, fun _ => spliceLines_unnamed h himport⟩
  | .refused h himport hfile => by
    obtain ⟨bound, hbound⟩ := hfile.spliceFile_eq
    exact ⟨bound, fun depth => by rw [spliceLines_imports h himport, hbound]; rfl⟩
  | .imports h himport hfile hrest => by
    obtain ⟨bound, hbound⟩ := hfile.spliceFile_eq
    obtain ⟨bound', hbound'⟩ := hrest.spliceLines_eq
    refine ⟨bound + bound', fun depth => ?_⟩
    have hlast := hbound' (bound + depth)
    rw [← Nat.add_assoc, Nat.add_comm bound' bound] at hlast
    rw [spliceLines_imports h himport, Nat.add_assoc, hbound, ← Nat.add_assoc]
    exact hlast

end

/-- **What the rules say is what splicing comes to** at every depth that is deep enough. -/
theorem Splices.eq_spliceFile (h : Splices files.loader found name place loads outcome)
    (hdepth : unseen files found.seen < depth) :
    spliceFile files.loader depth name place found = outcome := by
  obtain ⟨_, hown⟩ := splices_spliceFile files found name place hdepth
  obtain ⟨bound, hbound⟩ := h.spliceFile_eq
  obtain ⟨bound', hbound'⟩ := hown.spliceFile_eq
  rw [← hbound' bound, Nat.add_comm, hbound]

/-! ## Trees of lines and files -/

/-- A part of a file: a line, a file that is opened, or a file that is left out. -/
inductive Entry where
  | line (line : Line)
  | opened (name : String) (entries : List Entry)
  | again (name : String)

namespace Entry

mutual

/-- The lines of an entry. -/
def lines : Entry → List Line
  | .line line => [line]
  | .opened _ entries => linesAll entries
  | .again _ => []

/-- The lines of some entries. -/
def linesAll : List Entry → List Line
  | [] => []
  | e :: es => e.lines ++ linesAll es

end

mutual

/-- The files that an entry mentions, in order, and whether they are opened there. -/
def mentions : Entry → List (String × Bool)
  | .line _ => []
  | .opened name entries => (name, true) :: mentionsAll entries
  | .again name => [(name, false)]

/-- The files that some entries mention. -/
def mentionsAll : List Entry → List (String × Bool)
  | [] => []
  | e :: es => e.mentions ++ mentionsAll es

end

end Entry

mutual

/-- The text of a file, part by part; whether a file is opened where it is imported is left open. -/
inductive Unfolds (load : Loader) : String → List Entry → Prop where
  | text {name text : String} {entries : List Entry} (hload : load name = .ok text)
      (hlines : UnfoldsLines load name 1 (Text.lines text) entries) : Unfolds load name entries

/-- Some lines of a file, part by part; an empty line is no part. -/
inductive UnfoldsLines (load : Loader) : String → Nat → List String → List Entry → Prop where
  | nil {name : String} {number : Nat} : UnfoldsLines load name number [] []
  | empty {name text : String} {number : Nat} {texts : List String} {entries : List Entry}
      {line : Line} (h : Line.read name number text = .ok line) (hempty : line.tokens = [])
      (hrest : UnfoldsLines load name (number + 1) texts entries) :
      UnfoldsLines load name number (text :: texts) entries
  | kept {name text : String} {number : Nat} {texts : List String} {entries : List Entry}
      {line : Line} (h : Line.read name number text = .ok line) (hkept : Kept line)
      (hrest : UnfoldsLines load name (number + 1) texts entries) :
      UnfoldsLines load name number (text :: texts) (.line line :: entries)
  | opened {name text imported : String} {number : Nat} {texts : List String}
      {inner entries : List Entry} {line : Line} (h : Line.read name number text = .ok line)
      (himport : Import.ofLine line = .file imported) (hfile : Unfolds load imported inner)
      (hrest : UnfoldsLines load name (number + 1) texts entries) :
      UnfoldsLines load name number (text :: texts) (.opened imported inner :: entries)
  | again {name text imported : String} {number : Nat} {texts : List String}
      {entries : List Entry} {line : Line} (h : Line.read name number text = .ok line)
      (himport : Import.ofLine line = .file imported)
      (hrest : UnfoldsLines load name (number + 1) texts entries) :
      UnfoldsLines load name number (text :: texts) (.again imported :: entries)

end

/-- Each file is opened exactly where it is mentioned first, `seen` being mentioned already. -/
def OpensFirst (seen : List String) : List (String × Bool) → Prop
  | [] => True
  | (name, opened) :: rest => (opened = true ↔ name ∉ seen) ∧ OpensFirst (name :: seen) rest

/-- The depth-first expansion of a main file: the lines of a tree that opens each file where it is
mentioned first, the main file being mentioned before everything else. -/
def IsExpansion (load : Loader) (main : String) (lines : List Line) : Prop :=
  ∃ entries, Unfolds load main entries ∧ OpensFirst [main] (Entry.mentionsAll entries) ∧
    lines = Entry.linesAll entries

theorem opensFirst_congr {seen seen' : List String} (h : ∀ x, x ∈ seen ↔ x ∈ seen')
    (mentions : List (String × Bool)) : OpensFirst seen mentions ↔ OpensFirst seen' mentions := by
  induction mentions generalizing seen seen' with
  | nil => exact Iff.rfl
  | cons mention rest ih =>
    obtain ⟨name, opened⟩ := mention
    have hrest : ∀ x, x ∈ name :: seen ↔ x ∈ name :: seen' := by simp [h]
    rw [OpensFirst, OpensFirst, h name, ih hrest]

theorem opensFirst_append {seen seen' : List String} {mentions rest : List (String × Bool)}
    (h : ∀ x, x ∈ seen' ↔ x ∈ mentions.map Prod.fst ∨ x ∈ seen) :
    OpensFirst seen (mentions ++ rest) ↔ OpensFirst seen mentions ∧ OpensFirst seen' rest := by
  induction mentions generalizing seen with
  | nil =>
    have hseen : ∀ x, x ∈ seen ↔ x ∈ seen' := by simp [h]
    rw [List.nil_append, opensFirst_congr hseen]
    simp [OpensFirst]
  | cons mention mentions ih =>
    obtain ⟨name, opened⟩ := mention
    rw [List.cons_append, OpensFirst, OpensFirst, ih, and_assoc]
    intro x
    rw [h, List.map_cons, List.mem_cons, List.mem_cons]
    tauto

theorem OpensFirst.left {seen : List String} {mentions rest : List (String × Bool)}
    (h : OpensFirst seen (mentions ++ rest)) : OpensFirst seen mentions :=
  have hseen (x : String) : x ∈ mentions.map Prod.fst ++ seen ↔ _ := List.mem_append
  ((opensFirst_append hseen).1 h).1

/-- What was found grows by some entries. -/
structure Grows (found : Spliced) (entries : List Entry) (next : Spliced) : Prop where
  opens : OpensFirst found.seen (Entry.mentionsAll entries)
  lines : next.lines = (Entry.linesAll entries).reverse ++ found.lines
  seen : ∀ x, x ∈ next.seen ↔ x ∈ (Entry.mentionsAll entries).map Prod.fst ∨ x ∈ found.seen

namespace Grows

variable {entries inner : List Entry} {last : Spliced}

theorem nil : Grows found [] found where
  opens := trivial
  lines := rfl
  seen := by simp [Entry.mentionsAll]

theorem kept (h : Grows { found with lines := line :: found.lines } entries next) :
    Grows found (.line line :: entries) next where
  opens := h.opens
  lines := by simp [h.lines, Entry.linesAll, Entry.lines]
  seen := h.seen

theorem again (hname : name ∈ found.seen) (h : Grows found entries next) :
    Grows found (.again name :: entries) next where
  opens := by
    refine ⟨by simp [hname], (opensFirst_congr ?_ _).1 h.opens⟩
    simp [hname]
  lines := h.lines
  seen x := by
    rw [h.seen, Entry.mentionsAll, Entry.mentions, List.singleton_append, List.map_cons,
      List.mem_cons]
    refine ⟨.imp_left .inr, ?_⟩
    rintro ((rfl | hx) | hx)
    · exact .inr hname
    · exact .inl hx
    · exact .inr hx

theorem opened (hname : name ∉ found.seen)
    (h : Grows { found with seen := name :: found.seen } inner next) (h' : Grows next entries last) :
    Grows found (.opened name inner :: entries) last where
  opens := ⟨by simp [hname], (opensFirst_append h.seen).2 ⟨h.opens, h'.opens⟩⟩
  lines := by simp [h'.lines, h.lines, Entry.linesAll, Entry.lines]
  seen x := by
    rw [h'.seen, h.seen, Entry.mentionsAll, Entry.mentions, List.cons_append, List.map_cons,
      List.map_append, List.mem_cons, List.mem_cons, List.mem_append]
    tauto

end Grows

mutual

/-- Splicing a file that was not seen unfolds it. -/
theorem Splices.unfolds {found name place loads outcome} :
    Splices load found name place loads outcome → ∀ next, outcome = .ok next →
      name ∈ found.seen ∧ next = found ∨
        name ∉ found.seen ∧ ∃ entries, Unfolds load name entries ∧
          Grows { found with seen := name :: found.seen } entries next
  | .seen h => by
    rintro _ ⟨⟩
    exact .inl ⟨h, rfl⟩
  | .missing _ _ => by rintro _ ⟨⟩
  | .text h hload hlines => fun next hnext => by
    obtain ⟨entries, hentries, hgrows⟩ := hlines.unfolds next hnext
    exact .inr ⟨h, entries, .text hload hentries, hgrows⟩

theorem SplicesLines.unfolds {name number found texts loads outcome} :
    SplicesLines load name number found texts loads outcome → ∀ next, outcome = .ok next →
      ∃ entries, UnfoldsLines load name number texts entries ∧ Grows found entries next
  | .nil => by
    rintro _ ⟨⟩
    exact ⟨[], .nil, .nil⟩
  | .unread _ | .unnamed _ _ | .refused _ _ _ => by rintro _ ⟨⟩
  | .empty h hempty hrest => fun next hnext => by
    obtain ⟨entries, hentries, hgrows⟩ := hrest.unfolds next hnext
    exact ⟨entries, .empty h hempty hentries, hgrows⟩
  | .kept h hkept hrest => fun next hnext => by
    obtain ⟨entries, hentries, hgrows⟩ := hrest.unfolds next hnext
    exact ⟨_, .kept h hkept hentries, hgrows.kept⟩
  | .imports h himport hfile hrest => fun last hlast => by
    obtain ⟨entries, hentries, hgrows⟩ := hrest.unfolds last hlast
    obtain ⟨hseen, rfl⟩ | ⟨hnew, inner, hinner, hnext⟩ := hfile.unfolds _ rfl
    · exact ⟨_, .again h himport hentries, hgrows.again hseen⟩
    · exact ⟨_, .opened h himport hinner hentries, hnext.opened hnew hgrows⟩

end

mutual

/-- A file that unfolds into a tree that opens each file first is spliced. -/
theorem Unfolds.splices {name entries} : Unfolds load name entries →
    ∀ (found : Spliced) (place : Option Location), name ∉ found.seen →
      OpensFirst (name :: found.seen) (Entry.mentionsAll entries) →
      ∃ loads next, Splices load found name place loads (.ok next) ∧
        Grows { found with seen := name :: found.seen } entries next
  | .text hload hlines => fun found place hname hopens => by
    obtain ⟨loads, next, hsplices, hgrows⟩ :=
      hlines.splices { found with seen := name :: found.seen } hopens
    exact ⟨_, next, .text hname hload hsplices, hgrows⟩

theorem UnfoldsLines.splices {name number texts entries} :
    UnfoldsLines load name number texts entries → ∀ found : Spliced,
      OpensFirst found.seen (Entry.mentionsAll entries) →
      ∃ loads next, SplicesLines load name number found texts loads (.ok next) ∧
        Grows found entries next
  | .nil => fun found _ => ⟨[], found, .nil, .nil⟩
  | .empty h hempty hrest => fun found hopens => by
    obtain ⟨loads, next, hsplices, hgrows⟩ := hrest.splices found hopens
    exact ⟨loads, next, .empty h hempty hsplices, hgrows⟩
  | @UnfoldsLines.kept _ _ _ _ _ _ line h hkept hrest => fun found hopens => by
    obtain ⟨loads, next, hsplices, hgrows⟩ :=
      hrest.splices { found with lines := line :: found.lines } hopens
    exact ⟨loads, next, .kept h hkept hsplices, hgrows.kept⟩
  | .opened h himport hfile hrest => fun found hopens => by
    have hnew := hopens.1.1 rfl
    obtain ⟨loads, next, hnext, hgrows⟩ := hfile.splices found (some _) hnew hopens.2.left
    obtain ⟨loads', last, hlast, hgrows'⟩ := hrest.splices next
      ((opensFirst_append hgrows.seen).1 hopens.2).2
    exact ⟨_, last, .imports h himport hnext hlast, hgrows.opened hnew hgrows'⟩
  | @UnfoldsLines.again _ _ _ imported _ _ _ _ h himport hrest => fun found hopens => by
    have hseen : imported ∈ found.seen := by simpa using hopens.1
    have hsame : ∀ x, x ∈ imported :: found.seen ↔ x ∈ found.seen := by simp [hseen]
    have hopens := (opensFirst_congr hsame _).1 hopens.2
    obtain ⟨loads, next, hnext, hgrows⟩ := hrest.splices found hopens
    exact ⟨_, next, .imports h himport (.seen hseen) hnext, hgrows.again hseen⟩

end

/-! ## The lines that are found -/

/-- The lines that were added: what stands in `texts` or in a file that was loaded, each of it
once. -/
def Gathers (load : Loader) (own : Line → Prop) (loads : List String) (found next : Spliced) :
    Prop :=
  ∃ new, next.lines = new ++ found.lines ∧
    (∀ line, line ∈ new ↔ Kept line ∧ (own line ∨ ∃ x ∈ loads, LineOf load x line)) ∧
    (new.map fun line => (line.file, line.number)).Nodup

theorem Gathers.congr {own own' : Line → Prop} (h : Gathers load own loads found next)
    (hlines : ∀ line, Kept line → (own line ↔ own' line)) : Gathers load own' loads found next := by
  obtain ⟨new, hnew, hmem, hnodup⟩ := h
  refine ⟨new, hnew, fun line => ?_, hnodup⟩
  rw [hmem]
  exact and_congr_right fun hkept => or_congr_left (hlines line hkept)

/-- A file that was not seen gathers its own lines and those of the files loaded for it. -/
theorem Gathers.file (hload : load name = .ok text) (h : Gathers load
      (Reads name 1 (Text.lines text)) loads { found with seen := name :: found.seen } next) :
    Gathers load (fun _ => False) (name :: loads) found next := by
  obtain ⟨new, hnew, hmem, hnodup⟩ := h
  refine ⟨new, hnew, fun line => ?_, hnodup⟩
  have hown : LineOf load name line ↔ Reads name 1 (Text.lines text) line := by
    simp [LineOf, hload]
  simp [hmem, hown]

/-- A line that is kept stands before what the other lines gather. -/
theorem Gathers.kept (hread : Line.read name number text = .ok line) (hkept : Kept line)
    (hname : name ∈ found.seen) (hfresh : ∀ x ∈ loads, x ∉ found.seen)
    (h : Gathers load (Reads name (number + 1) texts) loads
      { found with lines := line :: found.lines } next) :
    Gathers load (Reads name number (text :: texts)) loads found next := by
  obtain ⟨new, hnew, hmem, hnodup⟩ := h
  refine ⟨new ++ [line], by simp [hnew], fun other => ?_, ?_⟩
  · have hfirst : Line.read name number text = .ok other ↔ other = line := by
      rw [hread, Except.ok.injEq]
      exact eq_comm
    rw [List.mem_append, hmem, List.mem_singleton, reads_cons, hfirst]
    constructor
    · rintro (⟨hother, hown | hloaded⟩ | rfl)
      · exact ⟨hother, .inl (.inr hown)⟩
      · exact ⟨hother, .inr hloaded⟩
      · exact ⟨hkept, .inl (.inl rfl)⟩
    · rintro ⟨hother, (rfl | hown) | hloaded⟩
      · exact .inr rfl
      · exact .inl ⟨hother, .inl hown⟩
      · exact .inl ⟨hother, .inr hloaded⟩
  · obtain ⟨hfile, hnumber⟩ := place_of_read hread
    rw [List.map_append, List.nodup_append]
    refine ⟨hnodup, by simp, ?_⟩
    -- a line of the same file comes later, and no line of another file has this file's name
    simp only [List.mem_map, List.map_cons, List.map_nil, List.mem_singleton]
    rintro _ ⟨other, hother, rfl⟩ _ rfl heq
    obtain ⟨heqFile, heqNumber⟩ := Prod.mk.inj heq
    obtain ⟨-, hown | ⟨x, hx, hline⟩⟩ := (hmem other).1 hother
    · have := hown.stands.2
      omega
    · refine hfresh x hx ?_
      rwa [← hline.file, heqFile, hfile]

/-- What a file gathers stands before what the lines after its `IMPORT` gather. -/
theorem Gathers.append {loads' : List String} {last : Spliced} {own : Line → Prop}
    (hown : ∀ line, own line → line.file ∈ found.seen) (hfresh : Fresh found loads (.ok next))
    (hfresh' : Fresh next loads' (.ok last)) (h : Gathers load (fun _ => False) loads found next)
    (h' : Gathers load own loads' next last) : Gathers load own (loads ++ loads') found last := by
  obtain ⟨new, hnew, hmem, hnodup⟩ := h
  obtain ⟨new', hnew', hmem', hnodup'⟩ := h'
  simp only [false_or] at hmem
  refine ⟨new' ++ new, by simp [hnew, hnew'], fun line => ?_, ?_⟩
  · simp only [List.mem_append, hmem, hmem']
    grind
  · rw [List.map_append, List.nodup_append]
    refine ⟨hnodup', hnodup, ?_⟩
    -- the files are different: `new` has lines of `loads` only, `new'` has none of these
    simp only [List.mem_map]
    rintro _ ⟨line', hline', rfl⟩ _ ⟨line, hline, rfl⟩ heq
    obtain ⟨heqFile, -⟩ := Prod.mk.inj heq
    obtain ⟨-, x, hx, hof⟩ := (hmem line).1 hline
    have hseen : line.file ∈ next.seen := by simp [hfresh.seen next rfl, hof.file, hx]
    obtain ⟨-, hown' | ⟨x', hx', hof'⟩⟩ := (hmem' line').1 hline'
    · have hold := hown line' hown'
      rw [heqFile, hof.file] at hold
      exact hfresh.unseen x hx hold
    · rw [← heqFile, hof'.file] at hseen
      exact hfresh'.unseen x' hx' hseen

mutual

theorem Splices.gathers {found name place loads outcome} :
    Splices load found name place loads outcome → ∀ next, outcome = .ok next →
      Gathers load (fun _ => False) loads found next
  | .seen _ => by
    rintro _ ⟨⟩
    exact ⟨[], by simp⟩
  | .missing _ _ => by rintro _ ⟨⟩
  | .text h hload hlines => fun next hnext =>
    (hlines.gathers (.head _) next hnext).file hload

/-- The lines of a file that counts as seen gather what stands in them and in the files that they
import; the file itself is not loaded again, so no line comes twice. -/
theorem SplicesLines.gathers {name number found texts loads outcome} :
    SplicesLines load name number found texts loads outcome → name ∈ found.seen →
      ∀ next, outcome = .ok next → Gathers load (Reads name number texts) loads found next
  | .nil => by
    rintro _ _ ⟨⟩
    exact ⟨[], by simp [not_reads_nil]⟩
  | .unread _ | .unnamed _ _ | .refused _ _ _ => by rintro _ _ ⟨⟩
  | .empty h hempty hrest => fun hname next hnext => by
    refine (hrest.gathers hname next hnext).congr fun line hline => ?_
    rw [reads_cons, h, Except.ok.injEq]
    exact (or_iff_right fun heq : _ = line => hline.1 (heq ▸ hempty)).symm
  | .kept h hkept hrest => fun hname next hnext =>
    (hrest.gathers hname next hnext).kept h hkept hname hrest.fresh.unseen
  | @SplicesLines.imports _ _ _ _ _ _ next _ _ _ _ _ h himport hfile hrest =>
    fun hname last hlast => by
    have hseen : name ∈ next.seen := by simp [hfile.fresh.seen next rfl, hname]
    have hlines := (hfile.gathers next rfl).append (fun line hline => hline.stands.1 ▸ hname)
      hfile.fresh (hlast ▸ hrest.fresh) (hrest.gathers hseen last hlast)
    refine hlines.congr fun line hline => ?_
    rw [reads_cons, h, Except.ok.injEq]
    refine (or_iff_right ?_).symm
    rintro rfl
    exact absurd (himport.symm.trans hline.2) (by simp)

end

/-! ## The files that are loaded -/

mutual

/-- Every file that is loaded can be reached. -/
theorem Splices.reaches {found name place loads outcome} :
    Splices load found name place loads outcome → ∀ x ∈ loads, Reaches load name x
  | .seen _ => by simp
  | .missing _ _ => by simpa using Relation.ReflTransGen.refl
  | .text _ hload hlines => by
    refine List.forall_mem_cons.2 ⟨.refl, fun x hx => ?_⟩
    obtain ⟨line, imported, hline, himport, hreaches⟩ := hlines.reaches x hx
    exact .head ⟨line, ⟨_, hload, hline⟩, himport⟩ hreaches

theorem SplicesLines.reaches {name number found texts loads outcome} :
    SplicesLines load name number found texts loads outcome → ∀ x ∈ loads,
      ∃ line imported, Reads name number texts line ∧ Import.ofLine line = .file imported ∧
        Reaches load imported x
  | .nil | .unread _ | .unnamed _ _ => by simp
  | .empty _ _ hrest | .kept _ _ hrest => fun x hx => by
    obtain ⟨line, imported, hline, hreaches⟩ := hrest.reaches x hx
    exact ⟨line, imported, reads_cons.2 (.inr hline), hreaches⟩
  | .refused h himport hfile => fun x hx =>
    ⟨_, _, reads_cons.2 (.inl h), himport, hfile.reaches x hx⟩
  | .imports h himport hfile hrest => fun x hx => by
    rcases List.mem_append.1 hx with hx | hx
    · exact ⟨_, _, reads_cons.2 (.inl h), himport, hfile.reaches x hx⟩
    · obtain ⟨line, imported, hline, hreaches⟩ := hrest.reaches x hx
      exact ⟨line, imported, reads_cons.2 (.inr hline), hreaches⟩

end

mutual

/-- A file that is spliced, and every file that a file loaded for it imports, was seen then. -/
theorem Splices.closed {found name place loads outcome} :
    Splices load found name place loads outcome → ∀ next, outcome = .ok next →
      name ∈ next.seen ∧ ∀ x ∈ loads, ∀ y, Imports load x y → y ∈ next.seen
  | .seen h => by
    rintro _ ⟨⟩
    exact ⟨h, by simp⟩
  | .missing _ _ => by rintro _ ⟨⟩
  | .text _ hload hlines => fun next hnext => by
    obtain ⟨hown, hloads⟩ := hlines.closed next hnext
    refine ⟨by simp [hlines.fresh.seen next hnext], List.forall_mem_cons.2 ⟨?_, hloads⟩⟩
    rintro y ⟨line, ⟨text, htext, hline⟩, himport⟩
    obtain rfl := Except.ok.inj (hload.symm.trans htext)
    exact hown line y hline himport

theorem SplicesLines.closed {name number found texts loads outcome} :
    SplicesLines load name number found texts loads outcome → ∀ next, outcome = .ok next →
      (∀ line y, Reads name number texts line → Import.ofLine line = .file y → y ∈ next.seen) ∧
        ∀ x ∈ loads, ∀ y, Imports load x y → y ∈ next.seen
  | .nil => by
    rintro _ ⟨⟩
    exact ⟨fun line y h => absurd h not_reads_nil, by simp⟩
  | .unread _ | .unnamed _ _ | .refused _ _ _ => by rintro _ ⟨⟩
  | .empty h hempty hrest => fun next hnext => by
    obtain ⟨hown, hloads⟩ := hrest.closed next hnext
    refine ⟨fun line y hline himport => ?_, hloads⟩
    obtain hfirst | hline := reads_cons.1 hline
    · obtain rfl := Except.ok.inj (h.symm.trans hfirst)
      simp [Import.ofLine, hempty] at himport
    · exact hown line y hline himport
  | .kept h hkept hrest => fun next hnext => by
    obtain ⟨hown, hloads⟩ := hrest.closed next hnext
    refine ⟨fun line y hline himport => ?_, hloads⟩
    obtain hfirst | hline := reads_cons.1 hline
    · obtain rfl := Except.ok.inj (h.symm.trans hfirst)
      exact absurd (hkept.2.symm.trans himport) (by simp)
    · exact hown line y hline himport
  | @SplicesLines.imports _ _ _ _ _ _ next _ _ _ _ _ h himport hfile hrest =>
    fun last hlast => by
    obtain ⟨hname, hloads⟩ := hfile.closed next rfl
    obtain ⟨hown, hloads'⟩ := hrest.closed last hlast
    have hkeep : ∀ y ∈ next.seen, y ∈ last.seen := fun y hy => by
      simp [hrest.fresh.seen last hlast, hy]
    refine ⟨fun line y hline himport' => ?_, fun x hx y hy => ?_⟩
    · obtain hfirst | hline := reads_cons.1 hline
      · obtain rfl := Except.ok.inj (h.symm.trans hfirst)
        obtain rfl := Import.file.inj (himport.symm.trans himport')
        exact hkeep _ hname
      · exact hown line y hline himport'
    · rcases List.mem_append.1 hx with hx | hx
      · exact hkeep y (hloads x hx y hy)
      · exact hloads' x hx y hy

end

mutual

/-- A file that is reported as missing was asked for, and it is not there. -/
theorem Splices.missed {found name place loads outcome} :
    Splices load found name place loads outcome → ∀ d, outcome = .error d →
      d.rule = .importNotFound → ∃ x ∈ loads, ∃ reason, load x = .error reason ∧
        d.detail = x ++ ": " ++ reason
  | .seen _ => by rintro _ ⟨⟩
  | .missing _ hload => by
    rintro _ ⟨⟩ -
    exact ⟨_, List.mem_singleton_self _, _, hload, rfl⟩
  | .text _ _ hlines => fun d hd hrule => by
    obtain ⟨x, hx, hmissing⟩ := hlines.missed d hd hrule
    exact ⟨x, .tail _ hx, hmissing⟩

theorem SplicesLines.missed {name number found texts loads outcome} :
    SplicesLines load name number found texts loads outcome → ∀ d, outcome = .error d →
      d.rule = .importNotFound → ∃ x ∈ loads, ∃ reason, load x = .error reason ∧
        d.detail = x ++ ": " ++ reason
  | .nil => by rintro _ ⟨⟩
  | .unread h => by
    rintro d ⟨⟩ hrule
    exact absurd (hrule ▸ Line.rule_read h) (by decide)
  | .unnamed _ _ => by rintro _ ⟨⟩ ⟨⟩
  | .empty _ _ hrest | .kept _ _ hrest => hrest.missed
  | .refused _ _ hfile => hfile.missed
  | .imports _ _ _ hrest => fun d hd hrule => by
    obtain ⟨x, hx, hmissing⟩ := hrest.missed d hd hrule
    exact ⟨x, List.mem_append_right _ hx, hmissing⟩

end

/-! ## A main file and all it imports -/

variable {main : String} {lines : List Line}

theorem unseen_lt_depth (files : Files) : unseen files [] < files.sources.depth :=
  Nat.lt_of_le_of_lt List.countP_le_length (Nat.lt_add_of_pos_right (by decide))

theorem exists_splices (files : Files) (main : String) :
    ∃ loads outcome, Splices files.loader ⟨[], []⟩ main none loads outcome := by
  obtain ⟨loads, h⟩ := splices_spliceFile files ⟨[], []⟩ main none (unseen_lt_depth files)
  exact ⟨loads, _, h⟩

theorem splice_eq (h : Splices files.loader ⟨[], []⟩ main none loads outcome) :
    files.sources.splice main = (fun found => found.lines.reverse) <$> outcome := by
  rw [Sources.splice, splice, ← h.eq_spliceFile (unseen_lt_depth files)]
  rfl

theorem splice_eq_ok (h : Splices files.loader ⟨[], []⟩ main none loads outcome) :
    files.sources.splice main = .ok lines ↔
      ∃ found, outcome = .ok found ∧ lines = found.lines.reverse := by
  rw [splice_eq h]
  cases outcome with
  | error d => simp [Functor.map, Except.map]
  | ok found => simp [Functor.map, Except.map, eq_comm]

/-- **Splicing succeeds exactly with the lines of the expansion.** -/
theorem splice_eq_ok_iff (files : Files) (main : String) (lines : List Line) :
    files.sources.splice main = .ok lines ↔ IsExpansion files.loader main lines := by
  constructor
  · intro h
    obtain ⟨loads, outcome, hsplices⟩ := exists_splices files main
    obtain ⟨found, hfound, rfl⟩ := (splice_eq_ok hsplices).1 h
    obtain ⟨hseen, -⟩ | ⟨-, entries, hentries, hgrows⟩ := hsplices.unfolds found hfound
    · cases hseen
    · exact ⟨entries, hentries, hgrows.opens, by simp [hgrows.lines]⟩
  · rintro ⟨entries, hentries, hopens, rfl⟩
    obtain ⟨loads, found, hsplices, hgrows⟩ :=
      hentries.splices ⟨[], []⟩ none List.not_mem_nil hopens
    exact (splice_eq_ok hsplices).2 ⟨found, rfl, by simp [hgrows.lines]⟩

/-- What is loaded for a program is what its main file reaches. -/
theorem mem_loads (h : Splices files.loader ⟨[], []⟩ main none loads (.ok found)) :
    name ∈ loads ↔ Reaches files.loader main name := by
  refine ⟨fun hname => h.reaches name hname, fun hreaches => ?_⟩
  obtain ⟨hmain, hclosed⟩ := h.closed found rfl
  have hseen : ∀ x, x ∈ found.seen ↔ x ∈ loads := by simp [h.fresh.seen found rfl]
  induction hreaches with
  | refl => exact (hseen main).1 hmain
  | tail _ himports ih => exact (hseen _).1 (hclosed _ ih _ himports)

/-- **The lines of a program are the lines of all files that its main file reaches**, each of them
once. -/
theorem lines_of_splices (h : Splices files.loader ⟨[], []⟩ main none loads (.ok found)) :
    (∀ line, line ∈ found.lines.reverse ↔
      Kept line ∧ ∃ name, Reaches files.loader main name ∧ LineOf files.loader name line) ∧
    (found.lines.reverse.map fun line => (line.file, line.number)).Nodup := by
  obtain ⟨new, hnew, hmem, hnodup⟩ := h.gathers found rfl
  rw [List.append_nil] at hnew
  subst hnew
  refine ⟨fun line => ?_, ?_⟩
  · rw [List.mem_reverse, hmem, false_or]
    simp only [mem_loads h]
  · rw [List.map_reverse]
    exact (List.reverse_perm _).nodup_iff.2 hnodup

end Source

open Source

/-- **Files are put together by a once-only expansion, depth first.**  Splicing is what the rules say,
which know no bound, and loads no file twice; it succeeds exactly with the lines of the expansion,
and these are the lines of all files that can be reached, each of them once and at its own place; and a
file that is reported as missing can be reached, and is not there. -/
theorem Files.splice_expands (files : Files) (main : String) :
    ∃ loads outcome, Splices files.loader ⟨[], []⟩ main none loads outcome ∧
      files.sources.splice main = (fun found => found.lines.reverse) <$> outcome ∧ loads.Nodup ∧
      (∀ lines, files.sources.splice main = .ok lines ↔ IsExpansion files.loader main lines) ∧
      (∀ lines, files.sources.splice main = .ok lines →
        (∀ name, name ∈ loads ↔ Reaches files.loader main name) ∧
        (∀ line, line ∈ lines ↔
          Kept line ∧ ∃ name, Reaches files.loader main name ∧ LineOf files.loader name line) ∧
        (lines.map fun line => (line.file, line.number)).Nodup) ∧
      ∀ d, files.sources.splice main = .error d → d.rule = .importNotFound →
        ∃ name, Reaches files.loader main name ∧ files.lookup name = none ∧
          d.detail = name ++ ": " ++ name := by
  obtain ⟨loads, outcome, hsplices⟩ := exists_splices files main
  refine ⟨loads, outcome, hsplices, splice_eq hsplices, hsplices.fresh.nodup,
    splice_eq_ok_iff files main, fun lines hlines => ?_, fun d hd hrule => ?_⟩
  · obtain ⟨found, rfl, rfl⟩ := (splice_eq_ok hsplices).1 hlines
    exact ⟨fun name => mem_loads hsplices, lines_of_splices hsplices⟩
  · have herror : outcome = .error d := by
      rw [splice_eq hsplices] at hd
      cases outcome with
      | ok found => cases hd
      | error d' => simpa [Functor.map, Except.map] using hd
    obtain ⟨name, hname, reason, hmissing, hdetail⟩ := hsplices.missed d herror hrule
    obtain ⟨hlookup, rfl⟩ := lookup_of_missing hmissing
    exact ⟨_, hsplices.reaches _ hname, hlookup, hdetail⟩

/-- Two files that import each other and themselves, and a line after each import. -/
def Files.circular : Files :=
  [("main", "IMPORT \"a\"\nIMPORT \"b\"\nX"), ("a", "IMPORT \"b\"\nY ' IMPORT"),
    ("b", "\nZ\nIMPORT \"a\"\nIMPORT \"b\"\nIMPORT \"main\"\nV")]

theorem Files.splice_expands_circular : ∃ lines,
    Files.circular.sources.splice "main" = .ok lines ∧
      lines.map (fun line => (line.file, line.number, line.render)) =
        [("b", 2, "Z"), ("b", 6, "V"), ("a", 2, "Y"), ("main", 3, "X")] ∧
      IsExpansion Files.circular.loader "main" lines := by
  have hlines := Checked.eq_ok (x := Files.circular.sources.splice "main") (by decide +kernel)
  obtain ⟨_, _, -, -, -, hexpansion, -⟩ := Files.splice_expands .circular "main"
  exact ⟨_, hlines, by decide +kernel, (hexpansion _).1 hlines⟩

end ChannelBasic
