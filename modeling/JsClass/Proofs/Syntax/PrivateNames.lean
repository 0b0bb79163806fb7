import JsClass.Proofs.Scope.Calls
import JsClass.Syntax.Fields

/-!
Private names in a finished tree: which names a class declares, and which accesses stand inside of
which classes. The calls of a tree are those that reading it makes on the scope; two passes over
them leave unresolved what no class around it in the tree declares.
-/
namespace JsClass

open Scope

def MethodKind.elementKind : MethodKind → ElementKind
  | .method | .constructor => .method
  | .get => .get
  | .set => .set

namespace Node

/-- To prove a property of all nodes it may be assumed of the children. -/
theorem induction {P : Node → Prop} (step : ∀ n, (∀ x ∈ n.children, P x) → P n) (n : Node) :
    P n := by
  generalize hk : n.walk.length = k
  induction k using Nat.strongRecOn generalizing n with
  | ind k ih =>
    apply step
    intro x hx
    have hlt : x.walk.length < k := by
      obtain ⟨before, behind, hc⟩ := List.append_of_mem hx
      rw [← hk, walk_eq n, hc]
      simp
      omega
    exact ih _ hlt x rfl

/-- The members of a class. -/
def members (n : Node) : List Node :=
  match n.shape with
  | .class_ _ _ members _ => members
  | _ => []

/-- The private name that a node is, with its position. -/
def privateName? (n : Node) : Option (String × Position) :=
  match n.shape with
  | .privateName name => some (name, n.pos)
  | _ => none

/-- What a member of a class declares if its key is a private name. -/
def declaration? (n : Node) : Option (String × ElementKind) :=
  match n.shape with
  | .method key _ kind _ _ => key.privateName?.map fun p => (p.1, kind.elementKind)
  | .field key _ _ _ => key.privateName?.map fun p => (p.1, .field)
  | _ => none

/-- The private names of a class with what they stand for, in the order of its members. -/
def declarations (n : Node) : List (String × ElementKind) := n.members.filterMap declaration?

/-- Whether a class has a member with the private name. -/
def declaresPrivate (n : Node) (name : String) : Bool := n.declarations.any (·.1 = name)

/-- The private name that is read by an access, with its position. -/
def accessed? (n : Node) : Option (String × Position) :=
  match n.shape with
  | .member _ property _ => property.privateName?
  | _ => none

end Node

/-- An access to a private member, and the classes that it stands in: a class counts if the access
is part of its superclass or of its members. The innermost class comes first. -/
structure Access where
  name : String
  pos : Position
  classes : List Node

namespace Access

def inside (n : Node) (a : Access) : Access := { a with classes := a.classes ++ [n] }

/-- Whether one of the classes around the access declares its name, before or behind it. -/
def isResolved (a : Access) : Bool := a.classes.any (·.declaresPrivate a.name)

/-- Name and position. -/
def use (a : Access) : String × Position := (a.name, a.pos)

end Access

namespace Node

/-- All accesses to private members in a tree. -/
def accesses : Node → List Access := recurse fun n s =>
  match s with
  | .class_ name superclass members _ =>
    name.toList.flatten ++ (superclass.toList.flatten ++ members.flatten).map (.inside n)
  | s => s.children.flatten ++ n.accessed?.toList.map fun p => ⟨p.1, p.2, []⟩

def declareCall? (m : Node) : Option Call :=
  m.declaration?.map fun d => .declare d.1 d.2 m.pos

/-- The calls on the scope that reading the tree makes. -/
def calls : Node → List Call := recurse fun n s =>
  match s with
  | .class_ name superclass members _ =>
    name.toList.flatten ++ .enter :: (superclass.toList.flatten
      ++ (List.zipWith (fun m calls => m.declareCall?.toList ++ calls) n.members members).flatten
      ++ [.exit])
  | s => s.children.flatten ++ n.accessed?.toList.map fun p => .use p.1 p.2

/-- The calls for a member of a class: its key is declared before its value is read. -/
def memberCalls (m : Node) : List Call := m.declareCall?.toList ++ m.calls

def isClass (n : Node) : Bool :=
  match n.shape with
  | .class_ .. => true
  | _ => false

variable {n : Node} {name superclass : Option Node} {members : List Node} {isExpression : Bool}

/-- A node is a class, or it is none and has no more calls than its children and its own access. -/
theorem class_or_not (n : Node) :
    (∃ name superclass members isExpression, n.shape = .class_ name superclass members isExpression)
      ∨ n.isClass = false := by
  cases hs : n.shape
  case class_ name superclass members isExpression => exact Or.inl ⟨_, _, _, _, rfl⟩
  all_goals exact Or.inr (by simp [isClass, hs])

theorem accesses_class (h : n.shape = .class_ name superclass members isExpression) :
    n.accesses = name.toList.flatMap accesses
      ++ (superclass.toList.flatMap accesses ++ members.flatMap accesses).map (.inside n) := by
  rw [accesses, recurse_eq, h, ← accesses]
  simp [Shape.map, List.flatMap_def, Option.toList_map]

theorem accesses_of_not_class (h : n.isClass = false) :
    n.accesses = n.children.flatMap accesses ++ n.accessed?.toList.map fun p => ⟨p.1, p.2, []⟩ := by
  rw [accesses, recurse_eq, ← accesses, children, List.flatMap_def, ← Shape.children_map]
  cases hs : n.shape
  case class_ => simp [isClass, hs] at h
  all_goals rfl

theorem calls_class (h : n.shape = .class_ name superclass members isExpression) :
    n.calls = name.toList.flatMap calls ++ .enter :: (superclass.toList.flatMap calls
      ++ members.flatMap memberCalls ++ [.exit]) := by
  have hm : n.members = members := by simp [Node.members, h]
  rw [calls, recurse_eq, h, ← calls]
  simp [Shape.map, List.flatMap_def, Option.toList_map, hm, List.zipWith_map_right]
  rfl

theorem calls_of_not_class (h : n.isClass = false) :
    n.calls = n.children.flatMap calls ++ n.accessed?.toList.map fun p => .use p.1 p.2 := by
  rw [calls, recurse_eq, ← calls, children, List.flatMap_def, ← Shape.children_map]
  cases hs : n.shape
  case class_ => simp [isClass, hs] at h
  all_goals rfl

theorem children_class (h : n.shape = .class_ name superclass members isExpression) :
    n.children = name.toList ++ superclass.toList ++ members := by
  simp [children, h, Shape.children, Shape.fields, Field.children]

end Node

/-- A function of the depth and the calls to come that goes in and out with the bodies, and is
concerned with no declaration further in. -/
structure Nesting {γ : Type} (F : Nat → List Call → γ) : Prop where
  enter : ∀ depth rest, F depth (.enter :: rest) = F (depth + 1) rest
  exit : ∀ depth rest, F (depth + 1) (.exit :: rest) = F depth rest
  use : ∀ depth name pos rest, F depth (.use name pos :: rest) = F depth rest
  declare : ∀ depth name kind pos rest,
    F (depth + 1) (.declare name kind pos :: rest) = F (depth + 1) rest

namespace Nesting

variable {γ : Type} {F : Nat → List Call → γ}

theorem flatMap {α : Type} {f : α → List Call} {xs : List α} {depth : Nat}
    (h : ∀ x ∈ xs, ∀ rest, F depth (f x ++ rest) = F depth rest) (rest : List Call) :
    F depth (xs.flatMap f ++ rest) = F depth rest := by
  induction xs with
  | nil => rfl
  | cons x xs ih =>
    rw [List.flatMap_cons, List.append_assoc, h x (by simp)]
    exact ih fun y hy => h y (List.mem_cons_of_mem _ hy)

theorem memberCalls (hF : Nesting F) {m : Node} {depth : Nat}
    (h : ∀ rest, F (depth + 1) (m.calls ++ rest) = F (depth + 1) rest) (rest : List Call) :
    F (depth + 1) (m.memberCalls ++ rest) = F (depth + 1) rest := by
  rw [Node.memberCalls, List.append_assoc, Node.declareCall?]
  cases m.declaration? with
  | none => exact h rest
  | some d => exact (hF.declare _ _ _ _ _).trans (h rest)

/-- A node closes what it opens, and declares only inside of it. -/
theorem calls (hF : Nesting F) (n : Node) (depth : Nat) (rest : List Call) :
    F depth (n.calls ++ rest) = F depth rest := by
  induction n using Node.induction generalizing depth rest with
  | step n ih =>
    rcases n.class_or_not with ⟨name, superclass, members, isExpression, hs⟩ | hs
    · rw [Node.children_class hs] at ih
      have hname : ∀ x ∈ name.toList, ∀ rest, F depth (x.calls ++ rest) = F depth rest :=
        fun x hx rest => ih x (by simp_all) depth rest
      have hsuper : ∀ x ∈ superclass.toList, ∀ rest,
          F (depth + 1) (x.calls ++ rest) = F (depth + 1) rest :=
        fun x hx rest => ih x (by simp_all) _ rest
      have hmembers : ∀ x ∈ members, ∀ rest,
          F (depth + 1) (x.memberCalls ++ rest) = F (depth + 1) rest :=
        fun x hx rest => hF.memberCalls (fun rest => ih x (by simp_all) _ rest) rest
      rw [Node.calls_class hs, List.append_assoc, flatMap hname, List.cons_append, hF.enter,
        List.append_assoc, List.append_assoc, flatMap hsuper, flatMap hmembers, List.cons_append,
        hF.exit, List.nil_append]
    · rw [Node.calls_of_not_class hs, List.append_assoc,
        flatMap fun x hx rest => ih x hx depth rest]
      cases n.accessed? with
      | none => rfl
      | some p => exact hF.use _ _ _ _

end Nesting

theorem nesting_declares : Nesting declares where
  enter := by simp [declares]
  exit := by simp [declares]
  use := by simp [declares]
  declare := by simp [declares]

theorem nesting_closes : Nesting fun depth => closes (depth + 1) where
  enter := by simp [closes]
  exit := by simp [closes]
  use := by simp [closes]
  declare := by simp [closes]

namespace Node

/-- In the calls of a class, what the body declares is what the members declare. -/
theorem declares_members (members : List Node) (rest : List Call) :
    Scope.declares 0 (members.flatMap memberCalls ++ .exit :: rest) =
      members.filterMap declaration? := by
  induction members with
  | nil => rfl
  | cons m members ih =>
    rw [List.flatMap_cons, memberCalls, declareCall?, List.filterMap_cons]
    cases m.declaration? with
    | none => simpa [nesting_declares.calls] using ih
    | some d => simpa [Scope.declares, nesting_declares.calls] using ih

theorem bodyNames_class {n : Node} {name superclass : Option Node} {members : List Node}
    {isExpression : Bool} (h : n.shape = .class_ name superclass members isExpression)
    (rest : List Call) :
    bodyNames (superclass.toList.flatMap calls ++ (members.flatMap memberCalls ++ .exit :: rest)) =
      n.declarations.map (·.1) := by
  rw [bodyNames, Nesting.flatMap fun x _ rest => nesting_declares.calls x 0 rest,
    declares_members, declarations]
  simp [Node.members, h]

end Node

/-- The accesses that neither a class around them in the tree nor one of the given bodies
resolves. -/
def openUses (bodies : List (List String)) (accesses : List Access) : List (String × Position) :=
  (accesses.filter fun a => !a.isResolved && !declaredIn bodies a.name).map Access.use

theorem openUses_append (bodies : List (List String)) (xs ys : List Access) :
    openUses bodies (xs ++ ys) = openUses bodies xs ++ openUses bodies ys := by
  simp [openUses]

/-- A class resolves for the accesses inside of it what it declares. -/
theorem openUses_inside (n : Node) (bodies : List (List String)) (xs : List Access) :
    openUses bodies (xs.map (.inside n)) = openUses (n.declarations.map (·.1) :: bodies) xs := by
  have hr : ∀ a : Access, (!(a.inside n).isResolved && !declaredIn bodies a.name) =
      (!a.isResolved && !declaredIn (n.declarations.map (·.1) :: bodies) a.name) := by
    intro a
    have hd : n.declaresPrivate a.name = (n.declarations.map (·.1)).contains a.name := by
      rw [Bool.eq_iff_iff]
      simp [Node.declaresPrivate]
    simp [Access.isResolved, Access.inside, declaredIn, hd, Bool.and_assoc]
  simp only [openUses, List.filter_map, List.map_map]
  congr 1
  exact List.filter_congr fun a _ => hr a

theorem unresolved_flatMap {bodies : List (List String)} {f : Node → List Call} {xs : List Node}
    (h : ∀ x ∈ xs, ∀ rest, unresolved bodies (f x ++ rest) =
      openUses bodies x.accesses ++ unresolved bodies rest) (rest : List Call) :
    unresolved bodies (xs.flatMap f ++ rest) =
      openUses bodies (xs.flatMap Node.accesses) ++ unresolved bodies rest := by
  induction xs with
  | nil => rfl
  | cons x xs ih =>
    rw [List.flatMap_cons, List.append_assoc, h x (by simp),
      ih fun y hy => h y (List.mem_cons_of_mem _ hy), List.flatMap_cons, openUses_append,
      List.append_assoc]

theorem unresolved_memberCalls (bodies : List (List String)) (m : Node) (rest : List Call) :
    unresolved bodies (m.memberCalls ++ rest) = unresolved bodies (m.calls ++ rest) := by
  rw [Node.memberCalls, List.append_assoc, Node.declareCall?]
  cases m.declaration? <;> rfl

/-- Two passes over the calls of a tree leave the accesses that nothing resolves. -/
theorem unresolved_calls (n : Node) (bodies : List (List String)) (rest : List Call) :
    unresolved bodies (n.calls ++ rest) =
      openUses bodies n.accesses ++ unresolved bodies rest := by
  induction n using Node.induction generalizing bodies rest with
  | step n ih =>
    rcases n.class_or_not with ⟨name, superclass, members, isExpression, hs⟩ | hs
    · rw [Node.children_class hs] at ih
      have hname := fun rest => unresolved_flatMap
        (fun x (hx : x ∈ name.toList) => ih x (by simp_all) bodies) rest
      have hsuper := fun bodies rest => unresolved_flatMap
        (fun x (hx : x ∈ superclass.toList) => ih x (by simp_all) bodies) rest
      have hmembers := fun bodies rest => unresolved_flatMap
        (fun x (hx : x ∈ members) rest =>
          (unresolved_memberCalls bodies x rest).trans (ih x (by simp_all) bodies rest)) rest
      rw [Node.calls_class hs, Node.accesses_class hs, List.append_assoc, hname, openUses_append]
      simp only [List.cons_append, List.append_assoc, List.nil_append, unresolved]
      rw [Node.bodyNames_class hs, hsuper, hmembers, openUses_inside, openUses_append,
        List.append_assoc]
      rfl
    · rw [Node.calls_of_not_class hs, Node.accesses_of_not_class hs, List.append_assoc,
        unresolved_flatMap fun x hx => ih x hx bodies, openUses_append, List.append_assoc]
      congr 1
      cases n.accessed? with
      | none => rfl
      | some p =>
        by_cases hd : declaredIn bodies p.1 = true <;>
          simp [unresolved, openUses, Access.isResolved, Access.use, hd]

theorem conflictFree_flatMap {f : Node → List Call} {xs : List Node}
    (h : ∀ x ∈ xs, ∀ rest, conflictFree (f x ++ rest) =
      ((x.walk.all fun y => compatible y.declarations) && conflictFree rest)) (rest : List Call) :
    conflictFree (xs.flatMap f ++ rest) =
      (((xs.flatMap Node.walk).all fun y => compatible y.declarations) && conflictFree rest) := by
  induction xs with
  | nil => rfl
  | cons x xs ih =>
    rw [List.flatMap_cons, List.append_assoc, h x (by simp),
      ih fun y hy => h y (List.mem_cons_of_mem _ hy), List.flatMap_cons, List.all_append,
      Bool.and_assoc]

theorem conflictFree_memberCalls (m : Node) (rest : List Call) :
    conflictFree (m.memberCalls ++ rest) = conflictFree (m.calls ++ rest) := by
  rw [Node.memberCalls, List.append_assoc, Node.declareCall?]
  cases m.declaration? <;> rfl

/-- The calls of a tree are free of conflicts if and only if all its classes are. -/
theorem conflictFree_calls (n : Node) (rest : List Call) :
    conflictFree (n.calls ++ rest) =
      ((n.walk.all fun x => compatible x.declarations) && conflictFree rest) := by
  induction n using Node.induction generalizing rest with
  | step n ih =>
    rw [Node.walk_eq, List.all_cons]
    rcases n.class_or_not with ⟨name, superclass, members, isExpression, hs⟩ | hs
    · rw [Node.children_class hs] at ih ⊢
      have hname := fun rest => conflictFree_flatMap
        (fun x (hx : x ∈ name.toList) => ih x (by simp_all)) rest
      have hsuper := fun rest => conflictFree_flatMap
        (fun x (hx : x ∈ superclass.toList) => ih x (by simp_all)) rest
      have hmembers := fun rest => conflictFree_flatMap
        (fun x (hx : x ∈ members) rest =>
          (conflictFree_memberCalls x rest).trans (ih x (by simp_all) rest)) rest
      have hbody : Scope.declares 0 (superclass.toList.flatMap Node.calls
          ++ (members.flatMap Node.memberCalls ++ .exit :: rest)) = n.declarations := by
        rw [Nesting.flatMap fun x _ rest => nesting_declares.calls x 0 rest,
          Node.declares_members, Node.declarations]
        simp [Node.members, hs]
      rw [Node.calls_class hs, List.append_assoc, hname]
      simp only [List.cons_append, List.append_assoc, List.nil_append, conflictFree, hbody,
        hsuper, hmembers, List.flatMap_append, List.all_append]
      ac_rfl
    · have hd : compatible n.declarations = true := by
        cases hn : n.shape
        case class_ => simp [Node.isClass, hn] at hs
        all_goals simp [Node.declarations, Node.members, hn, compatible]
      rw [Node.calls_of_not_class hs, List.append_assoc,
        conflictFree_flatMap fun x hx => ih x hx, hd, Bool.true_and]
      cases n.accessed? <;> rfl

end JsClass
