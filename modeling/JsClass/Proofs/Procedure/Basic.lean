import JsClass.Grammar.Function
import JsClass.Grammar.Word
import Mathlib.Logic.Function.Basic

/-!
Procedures on a machine with flags. A parser is told in which kind of code it stands by a context
that it cannot change. Here the same steps run on a machine whose flags are set before an inner step
and set back behind it, however that step ends, and whose class bodies are left in the same way.
Both ways to run agree, and so the machine ends with the flags that it started with.
-/
namespace JsClass

/-- What a machine remembers of the code around a place. -/
inductive Flag where
  | strict | inFunction | inAsync | inGenerator | inStaticField | inPrivateMethod
deriving DecidableEq

/-- The flags of a machine. -/
abbrev Flags := Flag → Bool

def Flags.assign (flags : Flags) (values : List (Flag × Bool)) : Flags :=
  values.foldl (fun flags x => Function.update flags x.1 x.2) flags

/-- The present values of the flags that are about to be set. -/
def Flags.saved (flags : Flags) (values : List (Flag × Bool)) : List (Flag × Bool) :=
  values.map fun x => (x.1, flags x.1)

namespace Context

def set (c : Context) : Flag → Bool → Context
  | .strict, b => { c with strict := b }
  | .inFunction, b => { c with inFunction := b }
  | .inAsync, b => { c with inAsync := b }
  | .inGenerator, b => { c with inGenerator := b }
  | .inStaticField, b => { c with inStaticField := b }
  | .inPrivateMethod, b => { c with inPrivateMethod := b }

def assign (values : List (Flag × Bool)) (c : Context) : Context :=
  values.foldl (fun c x => c.set x.1 x.2) c

/-- The flags as a context shows them. -/
def flags (c : Context) : Flags
  | .strict => c.strict
  | .inFunction => c.inFunction
  | .inAsync => c.inAsync
  | .inGenerator => c.inGenerator
  | .inStaticField => c.inStaticField
  | .inPrivateMethod => c.inPrivateMethod

/-- The context that a machine shows: what never changes is that of `c`. -/
def withFlags (c : Context) (flags : Flags) : Context :=
  { c with
    strict := flags .strict
    inFunction := flags .inFunction
    inAsync := flags .inAsync
    inGenerator := flags .inGenerator
    inStaticField := flags .inStaticField
    inPrivateMethod := flags .inPrivateMethod }

@[simp] theorem withFlags_flags (c : Context) : c.withFlags c.flags = c := rfl

theorem set_withFlags (c : Context) (flags : Flags) (flag : Flag) (b : Bool) :
    (c.withFlags flags).set flag b = c.withFlags (Function.update flags flag b) := by
  cases flag <;> rfl

theorem assign_withFlags (c : Context) (flags : Flags) (values : List (Flag × Bool)) :
    (c.withFlags flags).assign values = c.withFlags (flags.assign values) := by
  induction values generalizing flags with
  | nil => rfl
  | cons x rest ih =>
    have hset := set_withFlags c flags x.1 x.2
    unfold assign Flags.assign at ih ⊢
    rw [List.foldl_cons, List.foldl_cons, hset, ih]

end Context

namespace Flags

variable {before now : Flags} {values : List (Flag × Bool)}

theorem assign_of_notMem {flag : Flag} (h : flag ∉ values.map Prod.fst) :
    before.assign values flag = before flag := by
  induction values generalizing before with
  | nil => rfl
  | cons x rest ih =>
    simp only [List.map_cons, List.mem_cons, not_or] at h
    have hrest := @ih (Function.update before x.1 x.2) h.2
    rw [Function.update_of_ne h.1] at hrest
    exact hrest

/-- Setting back what was saved undoes every change to the flags that were saved. -/
theorem assign_saved_of_agree (h : ∀ flag, flag ∉ values.map Prod.fst → now flag = before flag) :
    now.assign (before.saved values) = before := by
  induction values generalizing now with
  | nil => exact funext fun flag => h flag (by simp)
  | cons x rest ih =>
    refine @ih (Function.update now x.1 (before x.1)) fun flag hflag => ?_
    by_cases hx : flag = x.1
    · rw [hx, Function.update_self]
    · rw [Function.update_of_ne hx]
      exact h flag (by simp [hx, hflag])

theorem assign_saved (before : Flags) (values : List (Flag × Bool)) :
    (before.assign values).assign (before.saved values) = before :=
  assign_saved_of_agree fun _ => assign_of_notMem

end Flags

/-- The steps of reading, and how they are put together. -/
inductive Procedure : Type → Type 1 where
  | pure {α : Type} (a : α) : Procedure α
  | bind {α β : Type} (p : Procedure α) (f : α → Procedure β) : Procedure β
  | fail {α : Type} (fault : Fault) : Procedure α
  | report (cause : Cause) (pos : Position) : Procedure Unit
  | context : Procedure Context
  /-- A step for whose time some flags have other values. -/
  | under {α : Type} (values : List (Flag × Bool)) (p : Procedure α) : Procedure α
  | peek : Procedure Token
  | peekAt (n : Nat) : Procedure Token
  | advance : Procedure Token
  | pending : Procedure (List Token)
  | restore (tokens : List Token) : Procedure Unit
  | use (name : String) (pos : Position) : Procedure Unit
  | declare (name : String) (kind : ElementKind) (pos : Position) : Procedure Unit
  /-- A step in a class body of its own. -/
  | classBody {α : Type} (p : Procedure α) : Procedure α

namespace Procedure

variable {α β : Type}

/-- The parser that a procedure stands for. -/
def denote : {α : Type} → Procedure α → Parser α
  | _, .pure a => Pure.pure a
  | _, .bind p f => p.denote >>= fun a => (f a).denote
  | _, .fail fault => Parser.fail fault
  | _, .report cause pos => Parser.report cause pos
  | _, .context => Parser.context
  | _, .under values p => Parser.within (Context.assign values) p.denote
  | _, .peek => Parser.peek
  | _, .peekAt n => Parser.peekAt n
  | _, .advance => Parser.advance
  | _, .pending => Parser.pending
  | _, .restore tokens => Parser.restore tokens
  | _, .use name pos => Parser.onScope (·.use name pos)
  | _, .declare name kind pos => Parser.onScope (·.declare name kind pos)
  | _, .classBody p => Parser.inClassBody p.denote

/-- The steps that leave the flags alone: the parser is shown what the flags are. -/
def still (p : Parser α) (c : Context) (flags : Flags) (s : State) : Reply α × Flags :=
  (p (c.withFlags flags) s, flags)

/-- A run on a machine with flags: how it ends, and the flags that it ends with. Of the context `c`
it sees only what never changes. -/
def exec (c : Context) : {α : Type} → Procedure α → Flags → State → Reply α × Flags
  | _, .bind p f, flags, s =>
    match p.exec c flags s with
    | (.ok a s, flags) => (f a).exec c flags s
    | (.error e s, flags) => (.error e s, flags)
  | _, .under values p, flags, s =>
    match p.exec c (flags.assign values) s with
    | (reply, now) => (reply, now.assign (flags.saved values))
  | _, .classBody p, flags, s =>
    match p.exec c flags { s with scope := s.scope.enter } with
    | (.ok a s, flags) => still (Parser.onScope Scope.exit >>= fun _ => Pure.pure a) c flags s
    | (.error e s, flags) => (.error e { s with scope := s.scope.abandon.2 }, flags)
  | _, .pure a, flags, s => still (Pure.pure a) c flags s
  | _, .fail fault, flags, s => still (Parser.fail fault) c flags s
  | _, .report cause pos, flags, s => still (Parser.report cause pos) c flags s
  | _, .context, flags, s => still Parser.context c flags s
  | _, .peek, flags, s => still Parser.peek c flags s
  | _, .peekAt n, flags, s => still (Parser.peekAt n) c flags s
  | _, .advance, flags, s => still Parser.advance c flags s
  | _, .pending, flags, s => still Parser.pending c flags s
  | _, .restore tokens, flags, s => still (Parser.restore tokens) c flags s
  | _, .use name pos, flags, s => still (Parser.onScope (·.use name pos)) c flags s
  | _, .declare name kind pos, flags, s =>
    still (Parser.onScope (·.declare name kind pos)) c flags s

/-- On the machine a procedure ends as its parser does, with the flags that it was given. -/
theorem exec_eq (c : Context) (p : Procedure α) (flags : Flags) (s : State) :
    p.exec c flags s = (p.denote (c.withFlags flags) s, flags) := by
  induction p generalizing flags s with
  | bind p f ihp ihf =>
    simp only [exec, denote, ihp, Parser.bind_apply]
    cases p.denote (c.withFlags flags) s with
    | ok a t => exact ihf a flags t
    | error e t => rfl
  | under values p ih =>
    simp only [exec, denote, ih, Parser.within, Context.assign_withFlags, Flags.assign_saved]
  | classBody p ih =>
    simp only [exec, denote, ih, Parser.inClassBody]
    cases p.denote (c.withFlags flags) { s with scope := s.scope.enter } with
    | ok a t => rfl
    | error e t => rfl
  | _ => rfl

end Procedure

end JsClass
