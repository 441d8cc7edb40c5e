import Mathlib.Data.List.Nodup
import ChannelBasic.Program.Lowering
import ChannelBasic.Proofs.Outcomes
import ChannelBasic.Raw.ProgramReader

/-!
# Proofs/Program/Refusals — what the declarations of a program are refused for

Expressions, types and statements are entered into tables whatever they are; only a name can be
refused.  What is refused breaks a rule of `R`, if `R` has the rules that declarations can break,
and it needs `functionAlreadyExists` only where **a module has a name twice**
(`refusedFor_blockFunctions`).  `Program.rule_ofRaw` says so of a whole program.
-/

namespace ChannelBasic

namespace Lowering

variable {R : Rule → Prop}

/-! ## What is never refused -/

theorem refusedFor_addType (type : DataType) : RefusedFor R (addType type) := .changes

mutual

theorem refusedFor_expr : (e : Raw.Expr) → RefusedFor R (expr e)
  | .integer .. | .real .. | .boolean .. | .name .. => by
    unfold expr
    exact .value
  | .text .. => by
    unfold expr
    exact .seq (refusedFor_addType _) fun _ => .value
  | .member _ target _ => by
    unfold expr
    exact .seq (refusedFor_expr target) fun _ => .value
  | .call _ _ arguments => by
    unfold expr
    exact .seq (refusedFor_exprs arguments) fun _ => .value
  | .unary _ _ operand => by
    unfold expr
    exact .seq (refusedFor_expr operand) fun _ => .value
  | .binary _ _ left right => by
    unfold expr
    exact .seq (refusedFor_expr left) fun _ => .seq (refusedFor_expr right) fun _ => .value

theorem refusedFor_exprs : (es : List Raw.Expr) → RefusedFor R (exprs es)
  | [] => by
    unfold exprs
    exact .value
  | e :: rest => by
    unfold exprs
    exact .seq (refusedFor_expr e) fun _ => .seq (refusedFor_exprs rest) fun _ => .value

end

theorem refusedFor_expr? : (e : Option Raw.Expr) → RefusedFor R (expr? e)
  | some e => .seq (refusedFor_expr e) fun _ => .value
  | none => .value

theorem refusedFor_dataType (t : Raw.DataType) : RefusedFor R (dataType t) := by
  induction t with
  | scalar | string => exact .value
  | stringOf length =>
    exact .seq (refusedFor_expr length) fun _ => .seq .changes fun _ => refusedFor_addType _
  | pointer _ ih => exact .seq ih fun _ => refusedFor_addType _
  | constant _ ih => exact .seq ih fun _ => refusedFor_addType _
  | named => exact .seq (refusedFor_addType _) fun _ => .seq .changes fun _ => .value

theorem refusedFor_dataType? : (t : Option Raw.DataType) → RefusedFor R (dataType? t)
  | some t => .seq (refusedFor_dataType t) fun _ => .value
  | none => .value

mutual

theorem refusedFor_stmt : (r : Raw.Stmt) → RefusedFor R (stmt r)
  | .var _ _ type value => by
    unfold stmt
    exact .seq (refusedFor_dataType? type) fun _ => .seq (refusedFor_expr? value) fun _ =>
      .seq .changes fun _ => .value
  | .assign _ target value => by
    unfold stmt
    exact .seq (refusedFor_expr value) fun _ => .seq (refusedFor_expr target) fun _ => .value
  | .call _ call => by
    unfold stmt
    exact .seq (refusedFor_expr call) fun _ => .value
  | .return _ value => by
    unfold stmt
    exact .seq (refusedFor_expr? value) fun _ => .value
  | .choose _ branches => by
    unfold stmt
    exact .seq (refusedFor_choices branches) fun _ => .value
  | .count _ counter start finish step body => by
    unfold stmt
    exact .seq (refusedFor_expr counter) fun _ => .seq (refusedFor_expr start) fun _ =>
      .seq (refusedFor_expr finish) fun _ => .seq (refusedFor_expr? step) fun _ =>
      .seq (refusedFor_stmts body) fun _ => .value
  | .loop _ condition body => by
    have hbody := refusedFor_stmts body
    unfold stmt
    dsimp only
    split
    next c =>
      exact .seq (refusedFor_expr c.value) fun _ => .seq .value fun _ =>
        .seq hbody fun _ => .value
    next => exact .seq .value fun _ => .seq hbody fun _ => .value

theorem refusedFor_stmts : (rs : List Raw.Stmt) → RefusedFor R (stmts rs)
  | [] => by
    unfold stmts
    exact .value
  | r :: rest => by
    unfold stmts
    exact .seq (refusedFor_stmt r) fun _ => .seq (refusedFor_stmts rest) fun _ => .value

theorem refusedFor_choices : (b : Raw.Branches) → RefusedFor R (choices b)
  | .done => by
    unfold choices
    exact .value
  | .otherwise body => by
    unfold choices
    exact .seq (refusedFor_stmts body) fun _ => .value
  | .branch condition body rest => by
    unfold choices
    exact .seq (refusedFor_expr condition) fun _ => .seq (refusedFor_stmts body) fun _ =>
      .seq (refusedFor_choices rest) fun _ => .value

end

/-! ## Names -/

theorem refusedFor_slots {rule : Rule} (h : R rule) (fields : List Raw.Field)
    (taken : List String) : RefusedFor R (slots rule taken fields) := by
  induction fields generalizing taken with
  | nil => exact .value
  | cons f rest ih =>
    unfold slots
    split
    · exact .refused_seq h
    · exact .seq (refusedFor_dataType f.type) fun _ => .seq (ih _) fun _ => .value

theorem refusedFor_function (h : R .duplicateArgument) (owner : Owner) (f : Raw.Function) :
    RefusedFor R (function owner f) := by
  have hreturns := refusedFor_dataType? (R := R) f.returns
  unfold function
  dsimp only
  split
  · exact .seq (.eachOf fun t _ => refusedFor_dataType t) fun _ => .seq hreturns fun _ =>
      .seq .value fun _ => .changes
  next arguments statements _ =>
    exact .seq .changes fun _ => .seq (refusedFor_slots h arguments _) fun _ =>
      .seq hreturns fun _ => .seq (refusedFor_stmts statements) fun _ =>
      .reads fun _ => .seq .value fun _ => .changes

theorem refusedFor_constants (h : R .duplicateConstant) (cs : List Raw.Constant)
    (taken : List String) : RefusedFor R (constants taken cs) := by
  induction cs generalizing taken with
  | nil => exact .value
  | cons c rest ih =>
    unfold constants
    refine .seq ?_ fun _ => .seq (ih _) fun _ => .value
    unfold constant
    dsimp only
    split
    · exact .refused_seq h
    · exact .seq (refusedFor_dataType? c.type) fun _ => .seq (refusedFor_expr c.value) fun _ =>
        .value

theorem refusedFor_struct (h : R .duplicateField) (s : Raw.Struct) (number : Nat) :
    RefusedFor R (struct s number) :=
  .seq (refusedFor_slots h s.fields _) fun _ => .seq (refusedFor_addType _) fun _ => .value

theorem refusedFor_library (h : R .duplicateArgument) (b : Raw.CodeBlock) (number : Nat) :
    RefusedFor R (library b number) :=
  .seq (.eachOf fun f _ => refusedFor_function h _ f) fun _ => .value

theorem refusedFor_dataSets (h : R .duplicateField) (ds : List Raw.DataSet)
    (taken : List String) : RefusedFor R (dataSets taken ds) := by
  induction ds generalizing taken with
  | nil => exact .value
  | cons d rest ih =>
    unfold dataSets
    exact .seq (refusedFor_slots h d.fields _) fun _ => .seq (ih _) fun _ => .value

/-- The names that are taken are gathered last one first, and nothing else is done; a refusal needs
one that is there twice. -/
theorem comes_takenNames (fs : List Raw.Function) (taken : List String)
    (h : ¬ ((fs.map (·.name)).reverse ++ taken).Nodup → R .functionAlreadyExists) (s : Lowered) :
    Comes (fs.foldlM (fun taken f => do
      if taken.contains f.name then throw (Rule.functionAlreadyExists.about f.location f.name)
      return f.name :: taken) taken : Lowering (List String)) s
      (fun taken' s' => taken' = (fs.map (·.name)).reverse ++ taken ∧ s' = s) fun d => R d.rule := by
  induction fs generalizing taken with
  | nil => exact .value ⟨rfl, rfl⟩
  | cons f fs ih =>
    rw [List.map_cons, List.reverse_cons, List.append_assoc, List.singleton_append] at h ⊢
    rw [List.foldlM_cons]
    dsimp only
    split
    next htaken =>
      -- the name stands in front of the names that are taken, and among them
      refine .seq (.refused_seq (h fun hnodup => ?_) (R := fun _ _ => False)) fun _ _ h => h.elim
      exact (List.nodup_cons.1 (List.nodup_append'.1 hnodup).2.1).1 (by simpa using htaken)
    · exact .value_seq (ih _ h)

/-- **A function is refused for its name only if its module has that name twice.** -/
theorem refusedFor_blockFunctions (hargument : R .duplicateArgument) (owner : Owner)
    (bs : List Raw.CodeBlock) (taken : List String)
    (h : ¬ (((bs.flatMap (·.functions)).map (·.name)).reverse ++ taken).Nodup →
      R .functionAlreadyExists) : RefusedFor R (blockFunctions owner taken bs) := by
  induction bs generalizing taken with
  | nil => exact .value
  | cons b rest ih =>
    rw [List.flatMap_cons, List.map_append, List.reverse_append, List.append_assoc] at h
    have hblock := comes_takenNames b.functions taken fun hb =>
      h fun hnodup => hb (List.nodup_append'.1 hnodup).2.1
    unfold blockFunctions
    refine .seqOf (fun s => (hblock s).refuses) (fun s => (hblock s).ends.mono fun _ _ h => h.1)
      fun taken' htaken => ?_
    subst htaken
    exact .seq (.eachOf fun f _ => refusedFor_function hargument _ f) fun _ =>
      .seq (ih _ h) fun _ => .value

theorem refusedFor_module (hfield : R .duplicateField) (hargument : R .duplicateArgument)
    {m : Raw.Module} (h : ¬ (m.functions.map (·.name)).Nodup → R .functionAlreadyExists)
    (number : Nat) : RefusedFor R (module m number) := by
  refine .seq (refusedFor_dataSets hfield m.dataSets _) fun _ =>
    .seq (refusedFor_blockFunctions hargument _ _ _ fun hnames => h ?_) fun _ => .value
  rwa [List.append_nil, List.nodup_reverse] at hnames

theorem refusedFor_numbered {α β : Type} {enter : α → Nat → Lowering β} {as : List α}
    (h : ∀ a ∈ as, ∀ number, RefusedFor R (enter a number)) (number : Nat) :
    RefusedFor R (numbered enter number as) := by
  induction as generalizing number with
  | nil => exact .value
  | cons a rest ih =>
    unfold numbered
    exact .seq (h a List.mem_cons_self number) fun _ =>
      .seq (ih (fun b hb => h b (List.mem_cons_of_mem _ hb)) _) fun _ => .value

theorem refusedFor_program (hconstant : R .duplicateConstant) (hfield : R .duplicateField)
    (hargument : R .duplicateArgument) {p : Raw.Program}
    (h : ∀ m ∈ p.modules, ¬ (m.functions.map (·.name)).Nodup → R .functionAlreadyExists) :
    RefusedFor R (program p) :=
  .seq (refusedFor_constants hconstant p.constants _) fun _ =>
    .seq (refusedFor_numbered (fun s _ => refusedFor_struct hfield s) _) fun _ =>
    .seq (refusedFor_numbered (fun b _ => refusedFor_library hargument b) _) fun _ =>
    .seq (refusedFor_numbered (fun m hm => refusedFor_module hfield hargument (h m hm)) _) fun _ =>
    .reads fun _ => .value

end Lowering

namespace Program

theorem rule_bindTypes {ms : List TypeMention} {p : Program} {d : Diagnostic}
    (h : p.bindTypes ms = .error d) : d.rule = .unknownType := by
  induction ms generalizing p with
  | nil => cases h
  | cons m rest ih =>
    unfold bindTypes at h
    split at h
    · split at h
      · exact ih h
      · cases h
        rfl
    · exact ih h

/-- **A program that does not go into tables names something twice in one place, or a type that
there is not**; it is refused for a function only if one of its modules has two of that name. -/
theorem rule_ofRaw {R : Rule → Prop} {p : Raw.Program} (hconstant : R .duplicateConstant)
    (hfield : R .duplicateField) (hargument : R .duplicateArgument) (htype : R .unknownType)
    (hfunction : ∀ m ∈ p.modules,
      ¬ (m.functions.map (·.name)).Nodup → R .functionAlreadyExists)
    {d : Diagnostic} (h : ofRaw p = .error d) : R d.rule := by
  unfold ofRaw at h
  cases hrun : (Lowering.program p).run' ⟨.initial, #[], [], #[], #[]⟩ with
  | error d' =>
    rw [hrun] at h
    obtain rfl : d' = d := Except.error.inj h
    exact Lowering.refusedFor_program hconstant hfield hargument hfunction _ _
      (run'_eq_error.1 hrun)
  | ok r =>
    rw [hrun] at h
    exact rule_bindTypes h ▸ htype

end Program

end ChannelBasic
