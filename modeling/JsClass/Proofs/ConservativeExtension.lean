import JsClass.Proofs.ClassLegality
import JsClass.Proofs.Extension.Statements

/-!
The dialect with private members extends the plain one and changes nothing in it, apart from one
rule: a static member must not be called like the constructor.
-/
namespace JsClass

/-- The end of input stands behind all tokens, and nowhere else. -/
structure TokenStream.IsClosed (s : TokenStream) : Prop where
  finish : s.finish.kind = .eof
  tokens : ∀ x ∈ s.tokens, x.kind ≠ .eof

/-! Private names. -/

theorem Part.Formed.not_private {p : Part} (h : p.Formed) (hd : p.context.dialect = .plain) :
    p.node.isPrivateName = false := by
  obtain ⟨role, c, n⟩ := p
  cases role with
  | label =>
    have hallowed : n.shape.IsLabel c := h.allowed
    have hd : c.dialect = .plain := hd
    cases hs : n.shape <;> simp_all [Node.isPrivateName, Shape.IsLabel]
  | member => exact h.of_member.1
  | ordinary => exact h.of_ordinary.1

theorem Node.mem_leaves {n : Node} {l : Kind × Position} (h : l ∈ n.leaves) :
    ∃ x ∈ n.walk, x.leaf? = some l := by
  induction n using Node.induction with
  | step n ih =>
    rw [Node.leaves_eq, List.mem_append, List.mem_flatMap, Option.mem_toList] at h
    rw [Node.walk_eq]
    rcases h with h | ⟨y, hy, h⟩
    · exact ⟨n, List.mem_cons_self, h⟩
    · obtain ⟨x, hx, hl⟩ := ih y hy h
      exact ⟨x, List.mem_cons_of_mem _ (List.mem_flatMap.2 ⟨y, hy, hx⟩), hl⟩

/-- All tokens are read, and the leaves among them are in the tree. -/
theorem TokenStream.IsClosed.leaves {s : TokenStream} (hs : s.IsClosed) {d : Dialect}
    {options : Options} {body : List Node} {t : State}
    (h : s.statements d options = .ok body t) :
    s.tokens.filterMap Token.leaf? = body.flatMap Node.leaves := by
  have hend := Grammar.program_next h
  obtain ⟨taken, htaken, hleaves⟩ := (statements_reads h).tokens hs.finish
  have htaken : s.tokens = taken ++ t.pending := htaken
  have hpending : t.pending = [] := by
    cases hp : t.pending with
    | nil => rfl
    | cons x rest =>
      have hx : x.kind = .eof := by simpa [Context.next, hp] using hend
      exact absurd hx (hs.tokens x (by simp [htaken, hp]))
  rw [htaken, hpending, List.append_nil, hleaves, List.flatMap_map]
  rfl

theorem TokenStream.IsClosed.not_private {s : TokenStream} (hs : s.IsClosed) {options : Options}
    {body : List Node} {t : State} (h : s.statements .plain options = .ok body t) :
    ∀ x ∈ s.tokens, x.kind.isPrivateName = false := by
  intro x hx
  cases hk : x.kind with
  | privateName word =>
    have hleaf : x.leaf? = some (.privateName word, x.pos) := by simp [Token.leaf?, hk, Kind.isLeaf]
    have hmem : (.privateName word, x.pos) ∈ s.tokens.filterMap Token.leaf? :=
      List.mem_filterMap.2 ⟨x, hx, hleaf⟩
    rw [hs.leaves h] at hmem
    obtain ⟨statement, hst, hmem⟩ := List.mem_flatMap.1 hmem
    obtain ⟨n, hn, hl⟩ := Node.mem_leaves hmem
    obtain ⟨q, hq, rfl, hd⟩ := formed_of_mem h (List.mem_flatMap.2 ⟨statement, hst, hn⟩)
    have hname := hq.not_private hd
    cases hshape : q.node.shape <;> simp_all [Node.leaf?, Node.isPrivateName]
  | _ => rfl

/-! Static members that are called like the constructor. -/

theorem Node.mem_walk {n x : Node} (h : x ∈ n.walk) : x = n ∨ ∃ y ∈ n.walk, x ∈ y.children := by
  induction n using Node.induction with
  | step n ih =>
    rw [Node.walk_eq, List.mem_cons, List.mem_flatMap] at h
    rcases h with rfl | ⟨y, hy, h⟩
    · exact Or.inl rfl
    · right
      rcases ih y hy h with rfl | ⟨z, hz, hx⟩
      · exact ⟨n, by rw [Node.walk_eq]; exact List.mem_cons_self, hy⟩
      · refine ⟨z, ?_, hx⟩
        rw [Node.walk_eq]
        exact List.mem_cons_of_mem _ (List.mem_flatMap.2 ⟨y, hy, hz⟩)

theorem Node.isMember_of_isStaticConstructor {m : Node} (h : m.isStaticConstructor = true) :
    m.isMember = true := by
  cases hs : m.shape <;> simp_all [Node.isStaticConstructor, Node.isStaticMember, Node.isMember,
    Node.memberKey?]

theorem Node.isClass_of_mem_members {n m : Node} (h : m ∈ n.members) : n.isClass = true := by
  cases hs : n.shape <;> simp_all [Node.members, Node.isClass]

theorem Node.IsLegalMember.isStaticConstructor_eq_false {m : Node} (h : m.IsLegalMember) :
    m.isStaticConstructor = false := by
  rw [Bool.eq_false_iff]
  intro hm
  simp only [Node.isStaticConstructor, Bool.and_eq_true, beq_iff_eq, bne_iff_ne, ne_eq] at hm
  obtain ⟨⟨⟨hs, hk⟩, hget⟩, hset⟩ := hm
  rcases (h.staticSpelled hs).2 hk with hk | hk
  · exact hget hk
  · exact hset hk

/-- Members are only in classes. -/
theorem TokenStream.class_of_isStaticConstructor {s : TokenStream} {d : Dialect}
    {options : Options} {body : List Node} {t : State} (h : s.statements d options = .ok body t)
    {m : Node} (hm : m ∈ body.flatMap Node.walk) (hc : m.isStaticConstructor = true) :
    ∃ n ∈ body.flatMap Node.walk, n.isClass ∧ m ∈ n.members := by
  have hmember := Node.isMember_of_isStaticConstructor hc
  obtain ⟨statement, hst, hwalk⟩ := List.mem_flatMap.1 hm
  rcases Node.mem_walk hwalk with rfl | ⟨n, hn, hchild⟩
  · have hformed := (statements_reads h).formed _ (List.mem_map.2 ⟨m, hst, rfl⟩)
    rw [hformed.of_ordinary.2] at hmember
    cases hmember
  · have hn : n ∈ body.flatMap Node.walk := List.mem_flatMap.2 ⟨statement, hst, hn⟩
    obtain ⟨q, hq, rfl, -⟩ := formed_of_mem h hn
    have hmem : m ∈ q.node.members := by
      rw [← hq.members]
      exact List.mem_filter.2 ⟨hchild, hmember⟩
    exact ⟨q.node, hn, Node.isClass_of_mem_members hmem, hmem⟩

/-- With private members there is no such member. -/
theorem TokenStream.not_isStaticConstructor {s : TokenStream} {options : Options} {body : List Node}
    {t : State} (h : s.statements .withPrivate options = .ok body t) {n m : Node}
    (hn : n ∈ body.flatMap Node.walk) (hm : m ∈ n.members) : m.isStaticConstructor = false := by
  obtain ⟨q, hq, rfl, hd⟩ := formed_of_mem h hn
  obtain ⟨name, superclass, members, isExpression, hs⟩ | hs := q.node.class_or_not
  · have hmembers : q.node.members = members := by simp [Node.members, hs]
    rw [hmembers] at hm
    have hallowed := ((hq.class_parts hs).2 m hm).allowed
    exact (isLegalMember_of_isMember (c := q.context.classBody) hd
      hallowed).isStaticConstructor_eq_false
  · rw [Node.isClass_of_mem_members hm] at hs
    cases hs

/-! Both dialects. -/

/-- What the plain dialect reads has no private names in it, and with private members it is read
to the same tree with the same problems, or it is refused for a static member that is called like
the constructor. It is refused if and only if a class of the tree has such a member. -/
theorem withPrivate_extends_plain (s : TokenStream) (hs : s.IsClosed) (options : Options)
    (parsed : Parsed) (h : s.parse .plain options = .ok parsed) :
    (∀ x ∈ s.tokens, x.kind.isPrivateName = false) ∧
    (s.parse .withPrivate options = .ok parsed ∨
      ∃ pos, s.parse .withPrivate options = .error (.rejected ⟨.staticConstructor, pos⟩)) ∧
    ((∃ pos, s.parse .withPrivate options = .error (.rejected ⟨.staticConstructor, pos⟩)) ↔
      ∃ n ∈ parsed.program.nodes, n.isClass ∧ ∃ m ∈ n.members, m.isStaticConstructor) := by
  obtain ⟨body, t, hplain, rfl⟩ := TokenStream.parse_eq_ok.1 h
  have hkeeps : Keeps (∀ x ∈ body.flatMap Node.walk, x.isStaticConstructor = false)
      (body.map (.ordinary (.initial .plain options s.finish))) := by
    intro hq p hp x hx
    obtain ⟨statement, hst, rfl⟩ := List.mem_map.1 hp
    exact hq x (List.mem_flatMap.2 ⟨statement, hst, hx⟩)
  refine ⟨hs.not_private hplain, ?_⟩
  rcases TokenStream.statements_follows hplain hkeeps with hok | ⟨hq, pos, u, herror⟩
  · have hparse : s.parse .withPrivate options =
        .ok ⟨⟨body, options.sourceType⟩, t.reported⟩ :=
      TokenStream.parse_eq_ok.2 ⟨body, _, hok, rfl⟩
    refine ⟨Or.inl hparse, ?_, ?_⟩
    · rintro ⟨pos, herror⟩
      rw [hparse] at herror
      cases herror
    · rintro ⟨n, hn, -, m, hm, hc⟩
      rw [TokenStream.not_isStaticConstructor hok hn hm] at hc
      cases hc
  · have hparse : s.parse .withPrivate options = .error (.rejected ⟨.staticConstructor, pos⟩) := by
      rw [TokenStream.parse, herror]
      rfl
    refine ⟨Or.inr ⟨pos, hparse⟩, fun _ => ?_, fun _ => ⟨pos, hparse⟩⟩
    simp only [not_forall, Bool.not_eq_false] at hq
    obtain ⟨m, hm, hc⟩ := hq
    obtain ⟨n, hn, hclass, hmem⟩ := TokenStream.class_of_isStaticConstructor hplain hm hc
    exact ⟨n, hn, hclass, m, hmem, hc⟩

/-- A static accessor and a method that is called like a modifier pass, and the static method of an
inner class does not. -/
def innerText : String :=
  "class A { static get constructor() {} async() { class B { static constructor() {} } } }"

theorem innerText_refused : ∃ s parsed, tokenize .withPrivate innerText = .ok s ∧ s.IsClosed ∧
    s.parse .plain .default = .ok parsed ∧
    ∃ pos, s.parse .withPrivate .default = .error (.rejected ⟨.staticConstructor, pos⟩) := by
  have hread : ((tokenize .withPrivate innerText).toOption.bind fun s =>
      (s.parse .plain .default).toOption.map fun parsed =>
        (s.finish.kind == .eof) && s.tokens.all (·.kind != .eof) &&
          parsed.program.nodes.any fun n => n.isClass && n.members.any Node.isStaticConstructor) =
      some true := by
    decide +kernel
  cases hs : tokenize .withPrivate innerText with
  | error e => simp [hs, Except.toOption] at hread
  | ok s =>
    cases hp : s.parse .plain .default with
    | error e => simp [hs, hp, Except.toOption] at hread
    | ok parsed =>
      simp only [hs, hp, Except.toOption, Option.bind_some, Option.map_some, Option.some.injEq,
        Bool.and_eq_true, beq_iff_eq, List.all_eq_true, bne_iff_ne, List.any_eq_true] at hread
      obtain ⟨⟨hfinish, htokens⟩, n, hn, hclass, m, hm, hc⟩ := hread
      have hclosed : s.IsClosed := ⟨hfinish, htokens⟩
      obtain ⟨-, -, hiff⟩ := withPrivate_extends_plain s hclosed .default parsed hp
      exact ⟨s, parsed, rfl, hclosed, hp, hiff.2 ⟨n, hn, hclass, m, hm, hc⟩⟩

end JsClass
