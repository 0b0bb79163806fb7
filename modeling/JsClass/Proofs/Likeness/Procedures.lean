import JsClass.Proofs.Grammar.Classes
import JsClass.Proofs.Likeness.Range
import JsClass.Proofs.Procedure.Basic
import Mathlib.Tactic.Choose

/-!
Every rule is a procedure. All rules are put together from the steps that a machine with flags has,
so whatever holds of every procedure holds of the whole grammar.
-/
namespace JsClass

variable {α β : Type}

namespace Procedure

/-- The rule is the meaning of a procedure, and its values are among those that are related. -/
def Runs (V : α → β → Prop) (p : Parser α) (_ : Parser β) : Prop :=
  (∀ c s a t, p c s = .ok a t → ∃ b, V a b) ∧ ∃ P : Procedure α, P.denote = p

variable {V : α → β → Prop} {p q : Parser α} {p' q' : Parser β}

theorem runs_pure {a : α} {b : β} (h : V a b) : Runs V (Pure.pure a) (Pure.pure b) := by
  refine ⟨?_, .pure a, rfl⟩
  intro c s a' t ha
  cases ha
  exact ⟨b, h⟩

theorem runs_fail (f : Fault) : Runs V (Parser.fail f) (Parser.fail f) := by
  refine ⟨?_, .fail f, rfl⟩
  intro c s a t ha
  cases ha

/-- A step whose values are related to themselves. -/
theorem runs_step {R : α → α → Prop} (hR : ∀ a, R a a) (P : Procedure α) {q : Parser α}
    (hP : P.denote = p) : Runs R p q :=
  ⟨fun _ _ a _ _ => ⟨a, hR a⟩, P, hP⟩

theorem runs_bind {α' β' : Type} {U : α' → β' → Prop} {f : α → Parser α'} {f' : β → Parser β'}
    (hp : Runs V p p') (hf : ∀ a b, V a b → Runs U (f a) (f' b)) :
    Runs U (p >>= f) (p' >>= f') := by
  obtain ⟨hvalues, P, rfl⟩ := hp
  -- only the values that `P` can return have a procedure to go on with
  have hnext : ∀ a, ∃ Q : Procedure α', (∃ b, V a b) → Q.denote = f a := by
    intro a
    by_cases ha : ∃ b, V a b
    · obtain ⟨b, hb⟩ := ha
      obtain ⟨-, Q, hQ⟩ := hf a b hb
      exact ⟨Q, fun _ => hQ⟩
    · exact ⟨.fail .exhausted, fun h => absurd h ha⟩
  choose Q hQ using hnext
  refine ⟨?_, P.bind Q, ?_⟩
  · intro c s a' t ha'
    obtain ⟨a, u, ha, hfa⟩ := Parser.bind_eq_ok.1 ha'
    obtain ⟨b, hb⟩ := hvalues c s a u ha
    exact (hf a b hb).1 c u a' t hfa
  · funext c s
    rw [denote, Parser.bind_apply, Parser.bind_apply]
    cases hrun : P.denote c s with
    | ok a t => exact congrFun (congrFun (hQ a (hvalues c s a t hrun)) c) t
    | error e t => rfl

/-- What a rule changes about the code it stands in, it changes by setting flags. -/
theorem assign_of_isChange {f : Context → Context} (hf : Context.IsChange f) :
    ∃ values, Context.assign values = f := by
  cases hf with
  | function isAsync isGenerator =>
    exact ⟨[(.inFunction, true), (.inAsync, isAsync), (.inGenerator, isGenerator),
      (.inStaticField, false)], rfl⟩
  | arrow => exact ⟨[(.inFunction, true), (.inGenerator, false)], rfl⟩
  | strict => exact ⟨[(.strict, true)], rfl⟩
  | privateMethod b => exact ⟨[(.inPrivateMethod, b)], rfl⟩
  | staticField b => exact ⟨[(.inStaticField, b)], rfl⟩

theorem runs_within {f : Context → Context} (hf : Context.IsChange f) (hp : Runs V p p') :
    Runs V (Parser.within f p) (Parser.within f p') := by
  obtain ⟨values, rfl⟩ := assign_of_isChange hf
  obtain ⟨hvalues, P, rfl⟩ := hp
  exact ⟨fun c s => hvalues (c.assign values) s, P.under values, rfl⟩

theorem runs_context {f : Context → Parser α} {f' : Context → Parser β}
    (hf : ∀ c, Runs V (f c) (f' c)) :
    Runs V (Parser.context >>= f) (Parser.context >>= f') := by
  refine runs_bind (V := Eq) (runs_step (fun _ => rfl) .context rfl) ?_
  rintro c _ rfl
  exact hf c

theorem runs_ite {P : Prop} [Decidable P] (hp : Runs V p p') (hq : Runs V q q') :
    Runs V (if P then p else q) (if P then p' else q') := by
  split
  · exact hp
  · exact hq

theorem runs_checkUnreserved (word : String) (pos : Position) :
    Runs (fun _ _ => True) (Parser.checkUnreserved word pos)
      (Parser.checkUnreserved word pos) :=
  runs_context fun _ => runs_ite (runs_fail _) (runs_ite (runs_fail _) (runs_ite (runs_fail _)
    (runs_ite (runs_step (fun _ => trivial) (.report (.reservedWord word) pos) rfl)
      (runs_pure trivial))))

theorem runs_checkIfNever (i : Ident) :
    Runs (fun _ _ => True) (Parser.checkIfNever i) (Parser.checkIfNever i) :=
  runs_context fun _ => runs_ite (runs_checkUnreserved _ _) (runs_pure trivial)

theorem runs_checkDelete {t t' : Token} {n n' : Node} (ht : t.Alike .equal t')
    (hn : n.Alike .equal n') :
    Runs (fun _ _ => True) (Grammar.checkDelete t n) (Grammar.checkDelete t' n') := by
  have hpos : t.pos = t'.pos := ht.pos
  refine runs_context fun c => ?_
  rw [← hn.isIdentifier, ← hn.isPrivateAccess, ← hpos]
  exact runs_ite (runs_fail _) (runs_ite (runs_fail _) (runs_pure trivial))

/-- What a body returns is what the rule inside it returns. -/
theorem runs_inClassBody (hp : Runs V p p') :
    Runs V (Parser.inClassBody p) (Parser.inClassBody p') := by
  obtain ⟨hvalues, P, rfl⟩ := hp
  refine ⟨?_, P.classBody, rfl⟩
  intro c s a t ha
  obtain ⟨u, hu, -⟩ := Parser.inClassBody_eq_ok.1 ha
  exact hvalues _ _ _ _ hu

end Procedure

/-- Being a procedure is a likeness, so all rules are procedures. -/
def Likeness.procedures : Likeness .equal where
  runs := Procedure.Runs
  streams ts ts' := ts = ts'
  streams_alike := Token.forall₂_alike_of_eq
  pure := Procedure.runs_pure
  bind := Procedure.runs_bind
  exhausted := @fun _ _ _ => Procedure.runs_fail _
  unreadable := @fun _ _ _ => Procedure.runs_fail _
  reject h := by
    cases h.eq
    exact Procedure.runs_fail _
  report {k pos _} _ _ := Procedure.runs_step (fun _ => trivial) (.report k pos) rfl
  context := Procedure.runs_step
    (fun _ => ⟨rfl, rfl, Alignment.token_alike _, rfl, rfl, rfl, rfl, rfl⟩) .context rfl
  within := Procedure.runs_within
  peek := Procedure.runs_step Alignment.token_alike .peek rfl
  peekAt n := Procedure.runs_step Alignment.token_alike (.peekAt n) rfl
  advance := Procedure.runs_step Alignment.token_alike .advance rfl
  pending := Procedure.runs_step (fun _ => rfl) .pending rfl
  restore {ts _} _ := Procedure.runs_step (fun _ => trivial) (.restore ts) rfl
  checkUnreserved word _ _ hp := by
    cases hp
    exact Procedure.runs_checkUnreserved word _
  checkIfNever hi := by
    cases hi.eq
    exact Procedure.runs_checkIfNever _
  checkPrivate hi := by
    cases hi.eq
    exact Procedure.runs_checkIfNever _
  checkDelete := Procedure.runs_checkDelete
  use {w _ p _} _ _ := Procedure.runs_step (fun _ => trivial) (.use w p) rfl
  declare {w _ kind p _} _ _ :=
    Procedure.runs_step (fun _ => trivial) (.declare w kind p) rfl
  inClassBody := Procedure.runs_inClassBody

theorem Likeness.exists_denote {V : α → β → Prop} {p : Parser α} {p' : Parser β}
    (h : procedures.runs V p p') : ∃ P : Procedure α, P.denote = p :=
  h.2

end JsClass
