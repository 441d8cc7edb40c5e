import ChannelBasic.Program.Basic

/-!
# Program/Reach — what a module can come to run, and the texts that takes

A module reaches its own functions and every function with a body that those call, directly or not.
The texts of a module are those of all functions it reaches, in the order in which they are met.
-/

namespace ChannelBasic.Program

/-- Adds the functions with a body that some mentions call and that are not found yet. -/
def newCallees (p : Program) (found : List Nat) : List Mention → List Nat
  | [] => []
  | .call (some callee) :: rest =>
    if !found.contains callee && ((p.functions[callee]?).map Function.isUser).getD false then
      callee :: p.newCallees (callee :: found) rest
    else p.newCallees found rest
  | _ :: rest => p.newCallees found rest

/-- What a function mentions, by its number. -/
def mentionsOf (p : Program) (index : Nat) : List Mention :=
  ((p.functions[index]?).map Function.mentions).getD []

/-- The functions found so far and those that the ones in `queue` lead to; each is looked into once,
so `bound` need not exceed their number. -/
def reachFrom (p : Program) : Nat → List Nat → List Nat → List Nat
  | 0, found, _ => found
  | _, found, [] => found
  | bound + 1, found, index :: queue =>
    let new := p.newCallees found (p.mentionsOf index)
    p.reachFrom bound (found ++ new) (queue ++ new)

/-- The functions a module can come to run, its own first. -/
def reachable (p : Program) (m : Module) : List Nat :=
  p.reachFrom (p.functions.size + 1) m.functions m.functions

/-- Enters the text that a mention takes. -/
def internMention (p : Program) (d : StaticData) : Mention → StaticData
  | .text content type => (d.intern content ((type.bind p.types.capacity?).getD 0)).2
  | .call callee =>
    match callee.bind fun index => p.functions[index]? with
    | some f => if f.isUser then d else (d.internName f.name).2
    | none => d

/-- The texts of some functions. -/
def staticTexts (p : Program) (functions : List Nat) : StaticData :=
  (functions.flatMap p.mentionsOf).foldl p.internMention .empty

/-- Finds what each module reaches, and its texts. -/
def withReach (p : Program) : Program :=
  { p with modules := p.modules.map fun m =>
      let reachable := p.reachable m
      { m with reachable, static := p.staticTexts reachable } }

end ChannelBasic.Program
