import JsClass.Proofs.Grammar.Statements
import JsClass.Proofs.Scope.Resolution
import JsClass.Proofs.Syntax.Members

/-!
The rules that the language has for the members of a class, said of the tree alone, and that they
hold of every class of a program that was accepted.
-/
namespace JsClass

open Scope

namespace Node

/-- The rules for one member. -/
structure IsLegalMember (m : Node) : Prop where
  staticPrivate : m.isStaticMember → m.privateKey? ≠ some "constructor" ∧
    (m.isField → m.privateKey? ≠ some "prototype")
  staticSpelled : m.isStaticMember → m.spelledKey? ≠ some (.ofString "prototype") ∧
    (m.spelledKey? = some (.ofString "constructor") →
      m.methodKind? = some .get ∨ m.methodKind? = some .set)
  constructor_iff : m.methodKind?.isSome → (m.methodKind? = some .constructor ↔
    m.isStaticMember = false ∧ m.spelledKey? = some (.ofString "constructor"))
  constructor_plain : m.methodKind? = some .constructor → m.isPlainMethod
  field : m.isField → m.isStaticMember ∨ m.privateKey?.isSome
  accessor_plain : m.methodKind? = some .get ∨ m.methodKind? = some .set → m.isPlainMethod

/-- The rules for a class: a private name belongs to one member, or to a getter and a setter. -/
structure IsLegalClass (n : Node) : Prop where
  privateKeys : ∀ name, (n.members.filter (·.privateKey? = some name)).length ≤ 1 ∨
    ∃ x y, n.members.filter (·.privateKey? = some name) = [x, y] ∧
      (x.methodKind? = some .get ∧ y.methodKind? = some .set ∨
        x.methodKind? = some .set ∧ y.methodKind? = some .get)
  oneConstructor : n.members.countP (·.methodKind? = some .constructor) ≤ 1
  members : ∀ m ∈ n.members, m.IsLegalMember

end Node

/-! Single members. -/

theorem isLegalMember_method {c : Context} (hd : c.dialect = .withPrivate) {m key value : Node}
    {kind : MethodKind} {isStatic computed : Bool}
    (hs : m.shape = .method key value kind isStatic computed)
    (h : Shape.MethodRules c key value kind isStatic computed) : m.IsLegalMember := by
  have hkey : m.memberKey? = some (key, computed) := by simp [Node.memberKey?, hs]
  have hkind : m.methodKind? = some kind := by simp [Node.methodKind?, hs]
  have hstatic : m.isStaticMember = isStatic := by simp [Node.isStaticMember, hs]
  have hfield : m.isField = false := by simp [Node.isField, hs]
  have hplain : kind ≠ .method → m.isPlainMethod := by
    intro hk
    obtain ⟨params, body, isAsync, isGenerator, hvalue, hflags⟩ := h.function
    simp [Node.isPlainMethod, hs, hvalue, hflags hk]
  refine ⟨?_, ?_, ?_, ?_, ?_, ?_⟩
  · intro hst
    rw [hstatic] at hst
    refine ⟨?_, by simp [hfield]⟩
    rw [privateKey?_eq hkey, ne_eq, Option.map_eq_some_iff]
    exact h.privateConstructor hst
  · intro hst
    rw [hstatic] at hst
    rw [ne_eq, spelledKey?_eq_some hkey, spelledKey?_eq_some hkey, hkind, Option.some.injEq,
      Option.some.injEq]
    exact ⟨h.prototype hst, h.staticConstructor hd hst⟩
  · intro _
    rw [hkind, Option.some.injEq, hstatic, spelledKey?_eq_some hkey]
    exact h.constructor_iff
  · intro hk
    rw [hkind, Option.some.injEq] at hk
    exact hplain (by simp [hk])
  · simp [hfield]
  · intro hk
    rw [hkind, Option.some.injEq, Option.some.injEq] at hk
    exact hplain (by rcases hk with hk | hk <;> simp [hk])

theorem isLegalMember_field {c : Context} {m key : Node} {value : Option Node}
    {isStatic computed : Bool} (hs : m.shape = .field key value isStatic computed)
    (h : Shape.FieldRules c key isStatic computed) : m.IsLegalMember := by
  have hkey : m.memberKey? = some (key, computed) := by simp [Node.memberKey?, hs]
  have hkind : m.methodKind? = none := by simp [Node.methodKind?, hs]
  have hstatic : m.isStaticMember = isStatic := by simp [Node.isStaticMember, hs]
  refine ⟨?_, ?_, ?_, ?_, ?_, ?_⟩
  · intro hst
    rw [hstatic] at hst
    rw [privateKey?_eq hkey]
    have hnames := h.privateNames hst
    refine ⟨?_, fun _ => ?_⟩
    · rw [ne_eq, Option.map_eq_some_iff]
      rintro ⟨p, hp, hword⟩
      exact hnames ⟨p, hp, Or.inl hword⟩
    · rw [ne_eq, Option.map_eq_some_iff]
      rintro ⟨p, hp, hword⟩
      exact hnames ⟨p, hp, Or.inr hword⟩
  · intro hst
    rw [hstatic] at hst
    rw [ne_eq, spelledKey?_eq_some hkey, spelledKey?_eq_some hkey]
    exact ⟨(h.names hst).1, fun hsp => absurd hsp (h.names hst).2⟩
  · simp [hkind]
  · simp [hkind]
  · intro _
    rw [hstatic, privateKey?_eq hkey]
    rcases h.isStatic_or with hst | hp
    · exact Or.inl hst
    · right
      cases hshape : key.shape <;> simp_all [Node.isPrivateName, Node.privateName?]
  · simp [hkind]

theorem isLegalMember_of_isMember {c : Context} (hd : c.dialect = .withPrivate) {m : Node}
    (h : m.shape.IsMember c) : m.IsLegalMember := by
  cases hs : m.shape
  case method =>
    rw [hs] at h
    exact isLegalMember_method hd hs h
  case field =>
    rw [hs] at h
    exact isLegalMember_field hs h
  all_goals
    rw [hs] at h
    exact h.elim

/-! Private names of one class. -/

theorem privateKey?_of_declaration? {m : Node} : m.privateKey? = m.declaration?.map (·.1) := by
  cases hs : m.shape <;> simp [Node.privateKey?, Node.memberKey?, Node.declaration?, hs,
    Function.comp_def]

theorem kindsOf_declarations (ms : List Node) (name : String) :
    kindsOf name (ms.filterMap Node.declaration?) =
      (ms.filter (·.privateKey? = some name)).filterMap fun m => m.declaration?.map (·.2) := by
  induction ms with
  | nil => rfl
  | cons m ms ih =>
    rw [List.filterMap_cons, List.filter_cons, privateKey?_of_declaration?]
    cases hm : m.declaration? with
    | none => simpa using ih
    | some d =>
      obtain ⟨other, kind⟩ := d
      by_cases hd : other = name
      · subst hd
        simpa [kindsOf_cons_self, hm] using ih
      · simpa [kindsOf_cons_ne hd, hd] using ih

theorem methodKind?_of_declaration? {m : Node} {name : String} {kind : MethodKind}
    (hk : kind = .get ∨ kind = .set) (h : m.declaration? = some (name, kind.elementKind)) :
    m.methodKind? = some kind := by
  cases hs : m.shape
  case method key value k isStatic computed =>
    simp only [Node.declaration?, hs, Option.map_eq_some_iff, Prod.mk.injEq] at h
    obtain ⟨p, -, -, hkind⟩ := h
    have hkind : k = kind := by
      rcases hk with rfl | rfl <;> cases k <;> simp [MethodKind.elementKind] at hkind ⊢
    simp [Node.methodKind?, hs, hkind]
  case field =>
    simp only [Node.declaration?, hs, Option.map_eq_some_iff, Prod.mk.injEq] at h
    obtain ⟨p, -, -, hkind⟩ := h
    rcases hk with rfl | rfl <;> simp [MethodKind.elementKind] at hkind
  all_goals simp [Node.declaration?, hs] at h

/-- What the scope accepts of one body is what the tree may hold. -/
theorem privateKeys_of_compatible {n : Node} (h : compatible n.declarations) (name : String) :
    (n.members.filter (·.privateKey? = some name)).length ≤ 1 ∨
    ∃ x y, n.members.filter (·.privateKey? = some name) = [x, y] ∧
      (x.methodKind? = some .get ∧ y.methodKind? = some .set ∨
        x.methodKind? = some .set ∧ y.methodKind? = some .get) := by
  have hshare := compatible_iff.1 h name
  rw [Node.declarations, kindsOf_declarations] at hshare
  have hdeclared : ∀ m ∈ n.members.filter (·.privateKey? = some name),
      ∃ kind, m.declaration? = some (name, kind) := by
    intro m hm
    have hkey := (List.mem_filter.1 hm).2
    simp only [privateKey?_of_declaration?, decide_eq_true_eq, Option.map_eq_some_iff] at hkey
    obtain ⟨⟨_, kind⟩, hd, rfl⟩ := hkey
    exact ⟨kind, hd⟩
  generalize n.members.filter (·.privateKey? = some name) = ms at hshare hdeclared ⊢
  rcases ms with _ | ⟨x, _ | ⟨y, _ | ⟨z, rest⟩⟩⟩
  · exact Or.inl (by simp)
  · exact Or.inl (by simp)
  · obtain ⟨kx, hx⟩ := hdeclared x (by simp)
    obtain ⟨ky, hy⟩ := hdeclared y (by simp)
    refine Or.inr ⟨x, y, rfl, ?_⟩
    have hkinds : canShare [kx, ky] := by simpa [hx, hy] using hshare
    have hpair : kx = .get ∧ ky = .set ∨ kx = .set ∧ ky = .get := by
      cases kx <;> cases ky <;> simp [canShare] at hkinds ⊢
    rcases hpair with ⟨rfl, rfl⟩ | ⟨rfl, rfl⟩
    · exact Or.inl ⟨methodKind?_of_declaration? (Or.inl rfl) hx,
        methodKind?_of_declaration? (Or.inr rfl) hy⟩
    · exact Or.inr ⟨methodKind?_of_declaration? (Or.inr rfl) hx,
        methodKind?_of_declaration? (Or.inl rfl) hy⟩
  · obtain ⟨kx, hx⟩ := hdeclared x (by simp)
    obtain ⟨ky, hy⟩ := hdeclared y (by simp)
    obtain ⟨kz, hz⟩ := hdeclared z (by simp)
    simp [hx, hy, hz, canShare] at hshare

/-! Trees. -/

namespace Part

/-- Every node below a formed one is formed where it stands. -/
theorem Formed.of_mem_walk {p : Part} (h : p.Formed) {x : Node} (hx : x ∈ p.node.walk) :
    ∃ q : Part, q.Formed ∧ q.node = x ∧ q.context.dialect = p.context.dialect := by
  generalize hn : p.node = n at hx
  induction n using Node.induction generalizing p with
  | step n ih =>
    subst hn
    rw [Node.walk_eq, List.mem_cons, List.mem_flatMap] at hx
    rcases hx with rfl | ⟨y, hy, hx⟩
    · exact ⟨p, h, rfl, rfl⟩
    · have hy' := hy
      rw [Node.children, ← map_node_parts p.context] at hy
      obtain ⟨q, hq, rfl⟩ := List.mem_map.1 hy
      obtain ⟨r, hr, hrx, hrd⟩ := ih _ hy' (h.parts hq) rfl hx
      exact ⟨r, hr, hrx, hrd.trans (settings_of_mem_parts _ _ q hq).1⟩

/-- A class is neither a label nor a member. -/
theorem Formed.class_parts {p : Part} (h : p.Formed) {name superclass : Option Node}
    {members : List Node} {isExpression : Bool}
    (hs : p.node.shape = .class_ name superclass members isExpression) :
    members.countP Node.isConstructor ≤ 1 ∧
      ∀ m ∈ members, (Part.member p.context.classBody m).Formed := by
  constructor
  · have hallowed := h.allowed
    simp only [Allowed, hs] at hallowed
    cases hr : p.role <;> simp only [hr] at hallowed
    · exact hallowed.elim
    · exact hallowed.elim
    · exact hallowed
  · intro m hm
    apply h.parts
    simp [hs, Shape.parts, hm]

theorem Formed.of_ordinary {c : Context} {n : Node} (h : (ordinary c n).Formed) :
    n.isPrivateName = false ∧ n.isMember = false := by
  have hallowed : n.shape.IsOrdinary c := h.allowed
  cases hs : n.shape <;>
    simp_all [Node.isPrivateName, Node.isMember, Node.memberKey?, Shape.IsOrdinary]

theorem Formed.of_member {c : Context} {n : Node} (h : (member c n).Formed) :
    n.isPrivateName = false ∧ n.isMember = true := by
  have hallowed : n.shape.IsMember c := h.allowed
  cases hs : n.shape <;>
    simp_all [Node.isPrivateName, Node.isMember, Node.memberKey?, Shape.IsMember]

theorem Formed.of_label {c : Context} {n : Node} (h : (label c n).Formed) : n.isMember = false := by
  have hallowed : n.shape.IsLabel c := h.allowed
  cases hs : n.shape <;> simp_all [Node.isMember, Node.memberKey?, Shape.IsLabel]

/-- The key of a property is no private name. -/
theorem Formed.allowed_property {p : Part} (h : p.Formed) {key value : Node} {kind : PropertyKind}
    {computed shorthand method : Bool}
    (hs : p.node.shape = .property key value kind computed shorthand method) :
    key.isPrivateName = false := by
  have hallowed := h.allowed
  simp only [Allowed, hs] at hallowed
  cases hr : p.role <;> simp only [hr] at hallowed
  · exact hallowed.elim
  · exact hallowed.elim
  · exact hallowed

/-- The parts with the role of a label are what the node spells out, keys of properties included. -/
theorem map_node_labels (n : Node) (c : Context) :
    ((n.shape.parts c).filter (·.role = .label)).map node =
      match n.shape with
      | .property key _ _ false _ _ => [key]
      | _ => n.labels := by
  cases hs : n.shape
  case method _ _ _ _ computed =>
    cases computed <;> simp [Shape.parts, Node.labels, hs, key]
  case field _ _ _ computed =>
    cases computed <;> simp [Shape.parts, Node.labels, hs, key, List.filter_map, Function.comp_def]
  case member _ _ computed =>
    cases computed <;> simp [Shape.parts, Node.labels, hs, key]
  case property _ _ _ computed _ _ =>
    cases computed <;> simp [Shape.parts, Node.labels, hs, key]
  all_goals simp [Shape.parts, Node.labels, hs, List.filter_map, Function.comp_def]

/-- The parts with the role of a member are the members of a class. -/
theorem map_node_members (n : Node) (c : Context) :
    ((n.shape.parts c).filter (·.role = .member)).map node = n.members := by
  have hkey : ∀ computed x, (key computed c x).role ≠ .member := by
    intro computed x
    cases computed <;> simp [key]
  cases hs : n.shape <;>
    simp [Shape.parts, Node.members, hs, hkey, List.filter_map, Function.comp_def]

/-- A private name is not an ordinary part, and not a member. -/
theorem Formed.privateNames {p : Part} (h : p.Formed) :
    p.node.children.filter Node.isPrivateName = p.node.labels.filter Node.isPrivateName := by
  have hlabel : ∀ q ∈ p.node.shape.parts p.context,
      (Node.isPrivateName ∘ node) q = (q.role = .label && q.node.isPrivateName) := by
    rintro ⟨role, c, n⟩ hq
    cases role with
    | label => rfl
    | member => simpa using (h.parts hq).of_member.1
    | ordinary => simpa using (h.parts hq).of_ordinary.1
  have hnames : p.node.children.filter Node.isPrivateName =
      (((p.node.shape.parts p.context).filter (·.role = .label)).map node).filter
        Node.isPrivateName := by
    rw [Node.children, ← map_node_parts p.context, List.filter_map, List.filter_map,
      List.filter_filter, List.filter_congr hlabel]
    simp [Bool.and_comm]
  rw [hnames, map_node_labels]
  split
  · rename_i hs
    have hkey := h.allowed_property hs
    simp [Node.labels, hs, hkey]
  · rfl

/-- A member is not an ordinary part, and not a label. -/
theorem Formed.members {p : Part} (h : p.Formed) :
    p.node.children.filter Node.isMember = p.node.members := by
  have hmember : ∀ q ∈ p.node.shape.parts p.context,
      (Node.isMember ∘ node) q = decide (q.role = .member) := by
    rintro ⟨role, c, n⟩ hq
    cases role with
    | label => simpa using (h.parts hq).of_label
    | member => simpa using (h.parts hq).of_member.2
    | ordinary => simpa using (h.parts hq).of_ordinary.2
  rw [Node.children, ← map_node_parts p.context, List.filter_map, List.filter_congr hmember,
    map_node_members]

end Part

/-! Accepted programs. -/

theorem isConstructor_eq (m : Node) :
    m.isConstructor = decide (m.methodKind? = some .constructor) := by
  cases hs : m.shape
  case method key value kind isStatic computed =>
    cases kind <;> simp [Node.isConstructor, Node.methodKind?, hs]
  all_goals simp [Node.isConstructor, Node.methodKind?, hs]

theorem isLegalClass_of_formed {p : Part} (h : p.Formed) (hd : p.context.dialect = .withPrivate)
    (hc : compatible p.node.declarations) (hclass : p.node.isClass = true) :
    p.node.IsLegalClass := by
  obtain ⟨name, superclass, members, isExpression, hs⟩ | hs := p.node.class_or_not
  · have hmembers : p.node.members = members := by simp [Node.members, hs]
    obtain ⟨hcount, hformed⟩ := h.class_parts hs
    refine ⟨privateKeys_of_compatible hc, ?_, ?_⟩
    · have hkind : (fun m : Node => decide (m.methodKind? = some .constructor)) =
          Node.isConstructor := funext fun m => (isConstructor_eq m).symm
      rw [hmembers, hkind]
      exact hcount
    · intro m hm
      rw [hmembers] at hm
      exact isLegalMember_of_isMember (c := p.context.classBody) hd (hformed m hm).allowed
  · rw [hs] at hclass
    cases hclass

/-- Every node of what was read is formed where it stands. -/
theorem TokenStream.formed_of_mem {s : TokenStream} {d : Dialect} {options : Options}
    {body : List Node} {t : State} (h : s.statements d options = .ok body t) {n : Node}
    (hn : n ∈ body.flatMap Node.walk) :
    ∃ q : Part, q.Formed ∧ q.node = n ∧ q.context.dialect = d := by
  obtain ⟨statement, hst, hn⟩ := List.mem_flatMap.1 hn
  exact ((statements_reads h).formed _ (List.mem_map.2 ⟨statement, hst, rfl⟩)).of_mem_walk hn

/-- Every class of an accepted program is legal. Private names are only the keys of members and the
properties of accesses, computed ones apart, and members are only in classes. -/
theorem accepted_classes_are_legal (options : Options) (source : String) (parsed : Parsed)
    (h : parse options source = .ok parsed) :
    (∀ n ∈ parsed.program.nodes, n.isClass → n.IsLegalClass) ∧
    (∀ n ∈ parsed.program.nodes,
      n.children.filter Node.isPrivateName = n.labels.filter Node.isPrivateName ∧
      n.children.filter Node.isMember = n.members) ∧
    ∀ n ∈ parsed.program.body, n.isPrivateName = false ∧ n.isMember = false := by
  obtain ⟨stream, t, -, hs⟩ := parse_eq_ok h
  have hreads := TokenStream.statements_reads hs
  have hcompatible : ∀ n ∈ parsed.program.nodes, compatible n.declarations := by
    have hfree := (accept_of_run (hreads.scope rfl)).2
    have hcalls : (parsed.program.body.map
        (Part.ordinary (.initial .withPrivate options stream.finish))).flatMap Part.calls =
          parsed.program.body.flatMap Node.calls ++ [] := by
      simp [List.flatMap_map]
    rw [hcalls, conflictFree_flatMap fun x _ => conflictFree_calls x, Bool.and_eq_true,
      List.all_eq_true] at hfree
    exact hfree.1
  refine ⟨?_, ?_, ?_⟩
  · intro n hn hclass
    obtain ⟨q, hq, rfl, hd⟩ := TokenStream.formed_of_mem hs hn
    exact isLegalClass_of_formed hq hd (hcompatible _ hn) hclass
  · intro n hn
    obtain ⟨q, hq, rfl, -⟩ := TokenStream.formed_of_mem hs hn
    exact ⟨hq.privateNames, hq.members⟩
  · intro n hn
    exact (hreads.formed _ (List.mem_map.2 ⟨n, hn, rfl⟩)).of_ordinary

/-- Getter and setter of one private name, a getter that is called like the constructor, and a
static field that is called like a modifier. -/
def membersText : String :=
  "class A { get #a() {} static get constructor() {} set #a(v) {} static async; constructor() {} }"

theorem membersText_legal : ∃ parsed, parse .default membersText = .ok parsed ∧
    ∃ n ∈ parsed.program.nodes, n.isClass ∧ n.members.length = 5 ∧ n.IsLegalClass := by
  have hread : ((parse .default membersText).toOption.map fun p =>
      p.program.nodes.any fun n => n.isClass && n.members.length == 5) = some true := by
    decide +kernel
  cases hp : parse .default membersText with
  | error e => simp [hp, Except.toOption] at hread
  | ok parsed =>
    simp only [hp, Except.toOption, Option.map_some, Option.some.injEq, List.any_eq_true,
      Bool.and_eq_true, beq_iff_eq] at hread
    obtain ⟨n, hn, hclass, hlength⟩ := hread
    exact ⟨parsed, rfl, n, hn, hclass, hlength,
      (accepted_classes_are_legal .default membersText parsed hp).1 n hn hclass⟩

end JsClass
