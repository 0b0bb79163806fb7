import JsClass.Proofs.Writing.Statements

/-!
Which accessors are reported can be seen from the tree. Going through it with the inner nodes before
the outer ones, one meets the problems of accessors in the order in which they were recorded.
-/
namespace JsClass

/-- The recorded problems of accessors are those of the tree, in the order of a walk that comes to a
node behind all nodes inside of it. -/
theorem accessor_problems_of_tree {options : Options} {source : String} {parsed : Parsed}
    (h : parse options source = .ok parsed) :
    parsed.reported.filter (·.cause.ofAccessor) = parsed.program.accessorProblems := by
  obtain ⟨s, t, hs, -⟩ := parse_eq_ok h
  exact (accounts_of_parse hs h).accessors

/-- An accessor in the body of another one that has a reserved word for a parameter, and one with a
private name. -/
def nestedAccessorsText : String :=
  "class A \x7b get a(public) \x7b return \x7b set b() \x7b\x7d \x7d \x7d " ++
    "static set #c(...r) \x7b\x7d \x7d"

theorem nestedAccessorsText_problems : ∃ parsed, parse .default nestedAccessorsText = .ok parsed ∧
    parsed.reported.length = 4 ∧
    parsed.reported.filter (·.cause.ofAccessor) = parsed.program.accessorProblems ∧
    parsed.program.accessorProblems =
      [⟨.setterArity, ⟨1, 41⟩⟩, ⟨.getterParams, ⟨1, 16⟩⟩, ⟨.setterRest, ⟨1, 65⟩⟩] := by
  have hread : (parse .default nestedAccessorsText).toOption.map
      (fun parsed => (parsed.reported.length, parsed.program.accessorProblems)) =
      some (4, [⟨.setterArity, ⟨1, 41⟩⟩, ⟨.getterParams, ⟨1, 16⟩⟩, ⟨.setterRest, ⟨1, 65⟩⟩]) := by
    decide +kernel
  cases hp : parse .default nestedAccessorsText with
  | error e => simp [hp, Except.toOption] at hread
  | ok parsed =>
    simp only [hp, Except.toOption, Option.map_some, Option.some.injEq, Prod.mk.injEq] at hread
    exact ⟨parsed, rfl, hread.1, accessor_problems_of_tree hp, hread.2⟩

end JsClass
