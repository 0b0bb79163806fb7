import JsClass.Proofs.Grammar.Success
import JsClass.Syntax.Fields

/-! What is wrong with the parameters of accessors, as the finished tree has it. -/
namespace JsClass

namespace Cause

/-- Whether the cause is one of accessors. -/
def ofAccessor : Cause → Bool
  | .getterParams | .setterArity | .setterRest => true
  | _ => false

end Cause

def MethodKind.accessor? : MethodKind → Option Accessor
  | .get => some .get
  | .set => some .set
  | .method | .constructor => none

def PropertyKind.accessor? : PropertyKind → Option Accessor
  | .get => some .get
  | .set => some .set
  | .init => none

/-- A getter has no parameters, and a setter has one that takes a single value. -/
def paramProblems (function : Node) : Option Accessor → List Diagnostic
  | none => []
  | some .get => if function.params.isEmpty then [] else [⟨.getterParams, function.pos⟩]
  | some .set =>
    (if function.params.length = 1 then [] else [⟨.setterArity, function.pos⟩]) ++
      match function.params with
      | [] => []
      | first :: _ => if first.isRest then [⟨.setterRest, first.pos⟩] else []

namespace Node

/-- The problems of a member of a class or an object, if it is an accessor. -/
def ownProblems (n : Node) : List Diagnostic :=
  match n.shape with
  | .method _ value kind _ _ => paramProblems value kind.accessor?
  | .property _ value kind _ _ _ => paramProblems value kind.accessor?
  | _ => []

/-- The problems of all accessors, those inside of a node before its own. -/
def accessorProblems : Node → List Diagnostic :=
  recurse fun n s => s.children.flatten ++ n.ownProblems

theorem accessorProblems_eq (n : Node) :
    n.accessorProblems = n.children.flatMap accessorProblems ++ n.ownProblems := by
  rw [accessorProblems, recurse_eq, Shape.children_map, ← accessorProblems, children,
    List.flatMap_def]

theorem accessorProblems_of_quiet {n : Node} (h : n.ownProblems = []) :
    n.accessorProblems = n.children.flatMap accessorProblems := by
  rw [accessorProblems_eq, h, List.append_nil]

end Node

def Program.accessorProblems (p : Program) : List Diagnostic :=
  p.body.flatMap Node.accessorProblems

/-- Where a rest parameter comes alone, an accessor has one problem at most: at its function, or at
its rest parameter. -/
theorem paramProblems_cases {function : Node} (accessor : Option Accessor)
    (hrest : ∀ n ∈ function.params.head?, n.isRest = true → function.params = [n]) :
    paramProblems function accessor = [] ∨ ∃ d : Diagnostic, d.cause.ofAccessor = true ∧
      paramProblems function accessor = [d] ∧ (d.pos = function.pos ∨
        ∃ n, function.params = [n] ∧ n.isRest = true ∧ d.pos = n.pos) := by
  rcases accessor with _ | _ | _
  · exact .inl rfl
  · cases hp : function.params with
    | nil => exact .inl (by simp [paramProblems, hp])
    | cons =>
      exact .inr ⟨⟨.getterParams, function.pos⟩, rfl, by simp [paramProblems, hp], .inl rfl⟩
  · cases hp : function.params with
    | nil =>
      exact .inr ⟨⟨.setterArity, function.pos⟩, rfl, by simp [paramProblems, hp], .inl rfl⟩
    | cons first rest =>
      by_cases hfirst : first.isRest = true
      · have hone := hrest first (by simp [hp]) hfirst
        rw [hp] at hone
        exact .inr ⟨⟨.setterRest, first.pos⟩, rfl, by simp [paramProblems, hp, hone, hfirst],
          .inr ⟨first, hone, hfirst, rfl⟩⟩
      · by_cases hone : rest = []
        · exact .inl (by simp [paramProblems, hp, hfirst, hone])
        · exact .inr ⟨⟨.setterArity, function.pos⟩, rfl,
            by simp [paramProblems, hp, hfirst, hone], .inl rfl⟩

open JsClass.Parser in
/-- The check of an accessor records its problems and leaves all else alone. -/
theorem Grammar.checkAccessor_eq_ok {accessor : Option Accessor} {function : Node} {u : Unit}
    {c : Context} {s t : State} : checkAccessor accessor function c s = .ok u t ↔
      { s with reported := s.reported ++ paramProblems function accessor } = t := by
  rcases accessor with _ | _ | _
  · simp [checkAccessor, paramProblems]
  · cases hp : function.params <;> simp [checkAccessor, paramProblems, hp]
  · cases hp : function.params with
    | nil => simp [checkAccessor, paramProblems, hp]
    | cons first rest =>
      by_cases hrest : first.isRest = true <;> by_cases hone : rest = [] <;>
        simp [checkAccessor, paramProblems, hp, hrest, hone]

end JsClass
