import Mathlib.Logic.Relation
import JsClass.Proofs.ClassLegality

/-!
What the place of a node forbids: no private member is deleted, the value of a static field sees
neither `super` nor `arguments`, and a private method does not call `super`.
-/
namespace JsClass

variable {n x : Node} {c : Context} {p : Part}

namespace Node

/-- The parts of a node that run with the static field around it. The inside of a function does
not, the value of an instance's field does not, and a word that is spelled out does not run. -/
def fieldParts (n : Node) : List Node :=
  match n.shape with
  | .function _ name _ _ _ _ => name.toList
  | .field key value isStatic computed =>
    (if computed then [key] else []) ++ (if isStatic then value.toList else [])
  | .method key value _ _ computed | .property key value _ computed _ _ =>
    (if computed then [key] else []) ++ [value]
  | .member object property computed => object :: if computed then [property] else []
  | s => s.children

/-- The parts of a node that belong to the private method around it: all but the methods with
another kind of key. -/
def methodParts (n : Node) : List Node :=
  match n.shape with
  | .method key value _ _ _ => key :: if key.isPrivateName then [value] else []
  | s => s.children

/-- A node is reached from another one over such parts. -/
abbrev Reaches (parts : Node → List Node) : Node → Node → Prop :=
  Relation.ReflTransGen fun n x => x ∈ parts n

/-- The rules for one node with all that is below it. -/
structure RespectsContext (n : Node) : Prop where
  delete : ∀ operand, n.shape = .unary .delete operand → operand.isPrivateAccess = false
  staticField : ∀ key value computed, n.shape = .field key (some value) true computed →
    ∀ x, Reaches fieldParts value x → x.shape ≠ .super ∧ x.shape ≠ .identifier "arguments"
  privateMethod : ∀ key value kind isStatic computed,
    n.shape = .method key value kind isStatic computed → key.isPrivateName →
    ∀ x, Reaches methodParts value x → ∀ callee args,
      x.shape = .call callee args ∨ x.shape = .new_ callee args → callee.shape ≠ .super

theorem isSuper_eq_false : n.isSuper = false ↔ n.shape ≠ .super := by
  cases hs : n.shape <;> simp [isSuper, hs]

end Node

namespace Part

/-- Runs with a static field, and is no word that is spelled out. -/
def inStaticField (p : Part) : Bool := p.context.inStaticField && p.role != .label

/-- Belongs to a private method. -/
def inPrivateMethod (p : Part) : Bool := p.context.inPrivateMethod

@[simp] theorem inStaticField_ordinary : (ordinary c x).inStaticField = c.inStaticField := by
  simp [inStaticField]

@[simp] theorem inStaticField_member : (member c x).inStaticField = c.inStaticField := by
  simp [inStaticField]

@[simp] theorem inStaticField_key {computed : Bool} :
    (key computed c x).inStaticField = (c.inStaticField && computed) := by
  cases computed <;> simp [key, inStaticField]

@[simp] theorem inPrivateMethod_ordinary : (ordinary c x).inPrivateMethod = c.inPrivateMethod := rfl

@[simp] theorem inPrivateMethod_member : (member c x).inPrivateMethod = c.inPrivateMethod := rfl

@[simp] theorem inPrivateMethod_key {computed : Bool} :
    (key computed c x).inPrivateMethod = c.inPrivateMethod := by
  cases computed <;> rfl

/-- The tree tells which parts of a node still run with the static field around it. -/
theorem fieldParts_eq (hc : c.inStaticField = true) (n : Node) :
    n.fieldParts = ((n.shape.parts c).filter inStaticField).map node := by
  cases hs : n.shape
  case function =>
    simp [Node.fieldParts, Shape.parts, hs, hc, List.filter_map, Function.comp_def,
      Context.function]
  case field key value isStatic computed =>
    cases isStatic <;> cases computed <;>
      simp [Node.fieldParts, Shape.parts, hs, hc, List.filter_map, Function.comp_def,
        Context.fieldValue]
  case method key value kind isStatic computed =>
    cases computed <;> simp [Node.fieldParts, Shape.parts, hs, hc, Context.methodOf]
  case property key value kind computed shorthand method =>
    cases computed <;> simp [Node.fieldParts, Shape.parts, hs, hc]
  case member object property computed =>
    cases computed <;> simp [Node.fieldParts, Shape.parts, hs, hc]
  all_goals
    rw [List.filter_eq_self.2, map_node_parts]
    · simp [Node.fieldParts, hs]
    · simp [Shape.parts, hc, Context.classBody, Context.arrow, or_imp, forall_and]

/-- The tree tells which parts of a node still belong to the private method around it. -/
theorem methodParts_eq (hc : c.inPrivateMethod = true) (n : Node) :
    n.methodParts = ((n.shape.parts c).filter inPrivateMethod).map node := by
  cases hs : n.shape
  case method key value kind isStatic computed =>
    cases hk : key.isPrivateName <;>
      simp [Node.methodParts, Shape.parts, hs, hc, hk, Context.methodOf, List.filter_cons]
  all_goals
    rw [List.filter_eq_self.2, map_node_parts]
    · simp [Node.methodParts, hs]
    · simp [Shape.parts, hc, Context.function, Context.fieldValue, Context.classBody,
        Context.arrow, or_imp, forall_and]

/-- Over the parts that are kept, a formed node reaches formed nodes that are kept. -/
theorem Formed.of_reaches (keep : Part → Bool) {parts : Node → List Node}
    (hparts : ∀ p : Part, keep p →
      parts p.node = ((p.node.shape.parts p.context).filter keep).map node)
    (h : p.Formed) (hp : keep p) (hx : Node.Reaches parts p.node x) :
    ∃ q : Part, q.Formed ∧ keep q ∧ q.node = x := by
  induction hx with
  | refl => exact ⟨p, h, hp, rfl⟩
  | tail _ hstep ih =>
    obtain ⟨q, hq, hkeep, rfl⟩ := ih
    rw [hparts q hkeep] at hstep
    obtain ⟨r, hr, rfl⟩ := List.mem_map.1 hstep
    obtain ⟨hr, hkeep⟩ := List.mem_filter.1 hr
    exact ⟨r, hq.parts hr, hkeep, rfl⟩

/-- What runs with a static field is neither `super` nor `arguments`. -/
theorem Formed.of_inStaticField (h : p.Formed) (hp : p.inStaticField) :
    p.node.shape ≠ .super ∧ p.node.shape ≠ .identifier "arguments" := by
  obtain ⟨role, c, n⟩ := p
  have hallowed := h.allowed
  simp only [inStaticField, Bool.and_eq_true, bne_iff_ne, ne_eq] at hp
  constructor
  all_goals
    intro hs
    cases role <;> simp_all [Allowed, Shape.IsMember, Shape.IsOrdinary]

/-- What belongs to a private method is no call of `super`. -/
theorem Formed.of_inPrivateMethod (h : p.Formed) (hp : p.inPrivateMethod) {callee : Node}
    {args : List Node} (hs : p.node.shape = .call callee args ∨ p.node.shape = .new_ callee args) :
    callee.shape ≠ .super := by
  obtain ⟨role, c, n⟩ := p
  have hallowed := h.allowed
  have hc : c.inPrivateMethod = true := hp
  rw [← Node.isSuper_eq_false]
  rcases hs with hs | hs
  all_goals
    simp only [Allowed, hs] at hallowed
    cases role with
    | label => exact hallowed.elim
    | member => exact hallowed.elim
    | ordinary => simpa [Shape.IsOrdinary, hc] using hallowed

theorem Formed.respectsContext (h : p.Formed) : p.node.RespectsContext := by
  refine ⟨?_, ?_, ?_⟩
  · intro operand hs
    have hallowed := h.allowed
    simp only [Allowed, hs] at hallowed
    cases hr : p.role <;> simp only [hr] at hallowed
    · exact hallowed.elim
    · exact hallowed.elim
    · exact hallowed
  · intro key value computed hs x hx
    have hvalue : (ordinary (p.context.fieldValue true) value).Formed := by
      apply h.parts
      simp [hs, Shape.parts]
    obtain ⟨q, hq, hkeep, rfl⟩ := hvalue.of_reaches inStaticField
      (fun q hq => fieldParts_eq (by simp_all [inStaticField]) q.node) rfl hx
    exact hq.of_inStaticField hkeep
  · intro key value kind isStatic computed hs hkey x hx callee args hcall
    have hvalue : (ordinary (p.context.methodOf key) value).Formed := by
      apply h.parts
      simp [hs, Shape.parts]
    obtain ⟨q, hq, hkeep, rfl⟩ := hvalue.of_reaches inPrivateMethod
      (fun q hq => methodParts_eq hq q.node) (by simpa [Context.methodOf] using hkey) hx
    exact hq.of_inPrivateMethod hkeep hcall

end Part

/-- Every node of an accepted program keeps to the rules of its place. -/
theorem accepted_programs_respect_context (options : Options) (source : String) (parsed : Parsed)
    (h : parse options source = .ok parsed) : ∀ n ∈ parsed.program.nodes, n.RespectsContext := by
  obtain ⟨stream, t, -, hs⟩ := parse_eq_ok h
  intro n hn
  obtain ⟨q, hq, rfl, -⟩ := TokenStream.formed_of_mem hs hn
  exact hq.respectsContext

/-- A static field and a private method with the words that the rules forbid, in places where the
rules do not reach. -/
def placesText : String := "class A { static f = function () { super.f(arguments) } }" ++
  "class B { #m() { delete (m.a); class C { constructor() { super() } } } }"

theorem placesText_respects_context : ∃ parsed, parse .default placesText = .ok parsed ∧
    (∃ n ∈ parsed.program.nodes, n.isField ∧ n.isStaticMember) ∧
    (∃ n ∈ parsed.program.nodes, n.privateKey? = some "m") ∧
    ∀ n ∈ parsed.program.nodes, n.RespectsContext := by
  have hread : ((parse .default placesText).toOption.map fun p =>
      (p.program.nodes.any fun n => n.isField && n.isStaticMember) &&
        p.program.nodes.any fun n => n.privateKey? = some "m") = some true := by
    decide +kernel
  cases hp : parse .default placesText with
  | error e => simp [hp, Except.toOption] at hread
  | ok parsed =>
    simp only [hp, Except.toOption, Option.map_some, Option.some.injEq, Bool.and_eq_true,
      List.any_eq_true, decide_eq_true_eq] at hread
    exact ⟨parsed, rfl, hread.1, hread.2,
      accepted_programs_respect_context .default placesText parsed hp⟩

end JsClass
