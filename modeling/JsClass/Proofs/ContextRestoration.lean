import JsClass.Parse
import JsClass.Proofs.Likeness.Procedures
import JsClass.Proofs.Procedure.Scopes

/-!
However reading ends, the parser is as it was before: every flag has its first value and no class
body is open. And a class leaves nothing behind but its open uses, in the body right around it.
-/
namespace JsClass

namespace Grammar

theorem program_isProcedure (n : Nat) :
    ∃ P : Procedure (List Node), P.denote = (level n).program :=
  Likeness.exists_denote (Likeness.program (Likeness.procedures.level n))

theorem classRest_isProcedure (n turns : Nat) (isExpression : Bool) :
    ∃ P : Procedure Node, P.denote = { level n with turns }.classRest isExpression := by
  have hgrammars := (Likeness.procedures.level n).withTurns (Eq.refl turns)
  exact Likeness.exists_denote (Likeness.classRest hgrammars isExpression)

/-- A class is read in a body of its own. -/
theorem class_leaves (n turns : Nat) (isExpression : Bool) {c : Context}
    (hdialect : c.dialect = .withPrivate) (s : State) :
    ({ level n with turns }.class_ isExpression c s).LeavesClass s.scope := by
  obtain ⟨P, hP⟩ := classRest_isProcedure n turns isExpression
  have hbody := Parser.inClassBody_leaves P.denote_sameBelow c s
  have hclass : { level n with turns }.class_ isExpression c s =
      Parser.inClassBody P.denote c s := by
    rw [hP, class_, Parser.bind_apply]
    simp only [Parser.context, hdialect]
  rw [hclass]
  exact hbody

end Grammar

/-- Where reading begins. -/
def TokenStream.start (options : Options) (ts : TokenStream) : Context :=
  .initial .withPrivate options ts.finish

/-- On a machine with flags, the program ends as its parser does, and in the end all flags have
their first values and no class body is open, whether the statements are read or not. Whenever a
class ends, whatever was open before it, all that it has changed is that there are more open uses,
or earlier ones, in the body right around it; if it fails, it has changed nothing. -/
theorem context_restored (options : Options) (ts : TokenStream) :
    (∃ P : Procedure (List Node), P.denote = (Grammar.level (ts.tokens.length + 1)).program) ∧
    (∀ P : Procedure (List Node), P.denote = (Grammar.level (ts.tokens.length + 1)).program →
      P.exec (ts.start options) (ts.start options).flags ⟨ts.tokens, [], .empty⟩ =
        (ts.statements .withPrivate options, (ts.start options).flags)) ∧
    (ts.statements .withPrivate options).scope = .empty ∧
    ∀ n turns isExpression (c : Context) (s : State), c.dialect = .withPrivate →
      ({ Grammar.level n with turns }.class_ isExpression c s).LeavesClass s.scope := by
  obtain ⟨P, hP⟩ := Grammar.program_isProcedure (ts.tokens.length + 1)
  refine ⟨⟨P, hP⟩, ?_, ?_, ?_⟩
  · intro Q hQ
    rw [Q.exec_eq, hQ, Context.withFlags_flags, TokenStream.statements, TokenStream.start]
  · have hkept := P.denote_sameBelow (ts.start options) ⟨ts.tokens, [], .empty⟩
    rw [hP] at hkept
    exact Scope.eq_empty_of_sameBelow hkept
  · intro n turns isExpression c s hdialect
    exact Grammar.class_leaves n turns isExpression hdialect s

/-- A name is declared twice, in a class inside of a method of another class. -/
def innerDuplicateText : String :=
  "class A \x7b #a; m() \x7b this.#c; class B \x7b #b; #b; \x7d \x7d \x7d"

/-- Where the name is declared for the second time. -/
def innerDuplicate : Diagnostic := ⟨.duplicatePrivate "b", ⟨1, 44⟩⟩

theorem innerDuplicateText_restored : ∃ (ts : TokenStream) (P : Procedure (List Node)) (t : State),
    tokenize .withPrivate innerDuplicateText = .ok ts ∧
    ts.statements .withPrivate .default = .error (.rejected innerDuplicate) t ∧
    t.scope = .empty ∧
    P.exec (ts.start .default) (ts.start .default).flags ⟨ts.tokens, [], .empty⟩ =
      (.error (.rejected innerDuplicate) t, (ts.start .default).flags) ∧
    ∀ outer, ((Grammar.level ts.tokens.length).class_ false (ts.start .default)
      ⟨ts.tokens, [], outer⟩).LeavesClass outer := by
  have hrefused : ((tokenize .withPrivate innerDuplicateText).toOption.bind fun ts =>
      (ts.statements .withPrivate .default).fault?) = some (.rejected innerDuplicate) := by
    decide +kernel
  cases hts : tokenize .withPrivate innerDuplicateText with
  | error e => simp [hts, Except.toOption] at hrefused
  | ok ts =>
    obtain ⟨⟨P, hP⟩, hexec, hscope, hclass⟩ := context_restored .default ts
    have hrun := hexec P hP
    have hleaves := fun outer : Scope =>
      hclass ts.tokens.length (Grammar.level ts.tokens.length).turns false (ts.start .default)
        ⟨ts.tokens, [], outer⟩ rfl
    cases hend : ts.statements .withPrivate .default with
    | ok body t => simp [hts, hend, Except.toOption, Reply.fault?] at hrefused
    | error fault t =>
      simp only [hts, hend, Except.toOption, Option.bind_some, Reply.fault?,
        Option.some.injEq] at hrefused
      subst hrefused
      rw [hend] at hrun hscope
      exact ⟨ts, P, t, rfl, hend, hscope, hrun, hleaves⟩

end JsClass
