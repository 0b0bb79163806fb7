import JsClass.Proofs.Writing.Statements

/-!
A tree keeps what its tokens say. Literals and private names stand in it one for one and in order,
every identifier is a word of the text, and every name of the text that has no meaning in the
grammar stands in the tree once, or twice where it is key and value of a property.
-/
namespace JsClass

variable {t : Token} {ts : List Token} {ns : List Node} {n : Node}

/-! Literals and private names. -/

theorem Node.leaf?_of_isPlain (h : n.isPlain = true) : n.leaf? = none := by
  simp only [isPlain, Bool.and_eq_true, Option.isNone_iff_eq_none] at h
  exact h.1.1

theorem Node.isIdentifier_of_isPlain (h : n.isPlain = true) : n.isIdentifier = false := by
  simp only [isPlain, Bool.and_eq_true, Bool.not_eq_true'] at h
  exact h.1.2

theorem Token.leaf?_of_dispensable (h : t.kind.isDispensable = true) : t.leaf? = none := by
  cases hk : t.kind <;> simp_all [Kind.isDispensable, leaf?, Kind.isLeaf]

theorem Token.leaf?_of_word {w : String} (h : t.kind.word? = some w) : t.leaf? = none := by
  cases hk : t.kind <;> simp_all [Kind.word?, leaf?, Kind.isLeaf]

/-- A leaf of the tree is read from a token that is one. -/
theorem Token.leaf?_of_node (h : n.leaf? = some (t.kind, t.pos)) :
    t.leaf? = some (t.kind, t.pos) := by
  have hleaf : t.kind.isLeaf = true := by
    cases hs : n.shape <;> simp [Node.leaf?, hs] at h
    all_goals
      rw [← h.1]
      rfl
  simp [leaf?, hleaf]

theorem Token.Bears.leaves (h : t.Bears ns) : ns.filterMap Node.leaf? = t.leaf?.toList := by
  induction h with
  | nothing h => simp [leaf?_of_dispensable h]
  | leaf h => simp [leaf?_of_node h, h]
  | word h => simp [leaf?_of_word h, Node.leaf?, Node.shape]
  | shorthand h =>
    have hword : t.leaf? = none := leaf?_of_word (by rw [h]; rfl)
    simp [hword, Node.leaf?, Node.shape]
  | around plain _ _ ih =>
    rw [List.filterMap_cons, Node.leaf?_of_isPlain plain]
    exact ih

theorem Written.leaves (h : Written ts ns) :
    ns.filterMap Node.leaf? = ts.filterMap Token.leaf? := by
  induction h with
  | nil => rfl
  | @cons t ts ns ms h _ ih =>
    rw [List.filterMap_append, h.leaves, ih]
    cases hl : t.leaf? <;> simp [hl]

/-! Identifiers. -/

theorem Token.Bears.identifier (h : t.Bears ns) {w : String} (hn : n ∈ ns)
    (hw : n.shape = .identifier w) : t.kind.word? = some w := by
  induction h with
  | nothing => cases hn
  | leaf h =>
    obtain rfl := List.mem_singleton.1 hn
    simp [Node.leaf?, hw] at h
  | word h =>
    obtain rfl := List.mem_singleton.1 hn
    cases hw
    exact h
  | shorthand h =>
    simp only [List.mem_cons, List.not_mem_nil, or_false] at hn
    rcases hn with rfl | rfl | rfl
    · cases hw
    · cases hw
      rw [h]
      rfl
    · cases hw
      rw [h]
      rfl
  | around plain _ _ ih =>
    rcases List.mem_cons.1 hn with rfl | hn
    · simp [Node.isPlain, Node.isIdentifier, hw] at plain
    · exact ih hn

theorem Written.identifier (h : Written ts ns) {w : String} (hn : n ∈ ns)
    (hw : n.shape = .identifier w) : ∃ t ∈ ts, t.kind.word? = some w ∧ t.pos = n.pos := by
  induction h with
  | nil => cases hn
  | cons h _ ih =>
    rcases List.mem_append.1 hn with hn | hn
    · exact ⟨_, List.mem_cons_self, h.identifier hn hw, (h.pos_eq n hn).symm⟩
    · obtain ⟨t, ht, hword⟩ := ih hn
      exact ⟨t, List.mem_cons_of_mem _ ht, hword⟩

/-! Names. -/

/-- The nodes at a token's position are its own, since no other token stands there. -/
theorem Written.filter_pos (h : Written ts ns) (hts : ts.Pairwise fun t u => t.pos.lt u.pos)
    (ht : t ∈ ts) : t.Bears (ns.filter fun n => n.pos == t.pos) := by
  induction h with
  | nil => cases ht
  | @cons x ts ns ms h hs ih =>
    obtain ⟨hfirst, hrest⟩ := List.pairwise_cons.1 hts
    have hne : ∀ u ∈ ts, x.pos ≠ u.pos := by
      intro u hu heq
      have hlt := hfirst u hu
      rw [heq] at hlt
      exact Position.not_lt_self _ hlt
    rw [List.filter_append]
    rcases List.mem_cons.1 ht with rfl | ht
    · have hown : (ns.filter fun n => n.pos == t.pos) = ns := by
        refine List.filter_eq_self.2 fun n hn => ?_
        simpa using h.pos_eq n hn
      have hother : (ms.filter fun n => n.pos == t.pos) = [] := by
        refine List.filter_eq_nil_iff.2 fun m hm => ?_
        obtain ⟨u, hu, hpos⟩ := hs.exists_token hm
        have huq := hne u hu
        simpa [hpos] using huq.symm
      rw [hown, hother, List.append_nil]
      exact h
    · have hother : (ns.filter fun n => n.pos == t.pos) = [] := by
        refine List.filter_eq_nil_iff.2 fun n hn => ?_
        simpa [h.pos_eq n hn] using hne t ht
      rw [hother, List.nil_append]
      exact ih hrest ht

/-- How often a word stands in the tree at one position: as one identifier that belongs to no
shorthand property, or as the two identifiers of one. -/
inductive Node.Names (i : Node) (ns : List Node) : Prop
  | once (h : ns.filter Node.isIdentifier = [i]) (none : ∀ n ∈ ns, n.isShorthand = false)
  | twice (h : ns.filter Node.isIdentifier = [i, i]) {property : Node} (mem : property ∈ ns)
    (shape : property.shape = .property i i .init false true false)

theorem Token.Bears.names {w : String} (h : t.Bears ns) (hk : t.kind = .name w)
    (hw : w ∉ grammarWords) : Node.Names ⟨.identifier w, t.pos⟩ ns := by
  induction h with
  | nothing h => simp [hk, Kind.isDispensable, hw] at h
  | leaf h =>
    have hleaf := leaf?_of_node h
    simp [leaf?, hk, Kind.isLeaf] at hleaf
  | word h =>
    rw [hk] at h
    cases h
    exact .once rfl (by simp [Node.isShorthand, Node.shape])
  | shorthand h =>
    rw [hk] at h
    cases h
    exact .twice rfl List.mem_cons_self rfl
  | @around n ns plain pos _ ih =>
    have hfilter : (n :: ns).filter Node.isIdentifier = ns.filter Node.isIdentifier :=
      List.filter_cons_of_neg (by simp [Node.isIdentifier_of_isPlain plain])
    cases ih with
    | once h none =>
      refine .once (hfilter.trans h) fun m hm => ?_
      rcases List.mem_cons.1 hm with rfl | hm
      · exact Node.isShorthand_of_isPlain plain
      · exact none m hm
    | twice h mem shape => exact .twice (hfilter.trans h) (List.mem_cons_of_mem _ mem) shape

/-- Of a program that was read, the literals and private names in walking order are those among the
tokens, each at its position; every identifier is a word of the text and stands where it does; and
every name without a meaning in the grammar is one identifier at its position, or it is two, the key
and the value of a shorthand property. -/
theorem tree_keeps_tokens {options : Options} {source : String} {parsed : Parsed}
    (h : parse options source = .ok parsed) :
    ∃ s, tokenize .withPrivate source = .ok s ∧
      parsed.program.nodes.filterMap Node.leaf? = s.tokens.filterMap Token.leaf? ∧
      (∀ n ∈ parsed.program.nodes, ∀ w, n.shape = .identifier w →
        ∃ t ∈ s.tokens, t.kind.word? = some w ∧ t.pos = n.pos) ∧
      ∀ t ∈ s.tokens, ∀ w, t.kind = .name w → w ∉ grammarWords →
        Node.Names ⟨.identifier w, t.pos⟩
          (parsed.program.nodes.filter fun n => n.pos == t.pos) := by
  obtain ⟨s, t, hs, -⟩ := parse_eq_ok h
  have hwritten := written_of_parse hs h
  refine ⟨s, hs, hwritten.leaves, fun n hn w hw => hwritten.identifier hn hw, ?_⟩
  intro t ht w hk hw
  exact (hwritten.filter_pos (tokens_pairwise_lt hs) ht).names hk hw

/-- Words of the grammar as modifiers and as names, a shorthand property, parameters that are first
read as an expression, and every kind of literal. -/
def mixedText : String :=
  "class A \x7b static get #p() \x7b return 'x' + 0x1F \x7d\n" ++
  "async() \x7b this.#p \x7d #q; get() \x7b\x7d \x7d\n" ++
  "let v = (a, b) => [a, 'y', \x7b b, get: 2 \x7d];\nfor (let of of v) of.set"

theorem mixedText_kept : ∃ parsed s, parse .default mixedText = .ok parsed ∧
    tokenize .withPrivate mixedText = .ok s ∧
    (parsed.program.nodes.filterMap Node.leaf?).length = 7 ∧
    parsed.program.nodes.filterMap Node.leaf? = s.tokens.filterMap Token.leaf? ∧
    (∀ n ∈ parsed.program.nodes, ∀ w, n.shape = .identifier w →
      ∃ t ∈ s.tokens, t.kind.word? = some w ∧ t.pos = n.pos) ∧
    ∀ t ∈ s.tokens, ∀ w, t.kind = .name w → w ∉ grammarWords →
      Node.Names ⟨.identifier w, t.pos⟩
        (parsed.program.nodes.filter fun n => n.pos == t.pos) := by
  have hread : (parse .default mixedText).toOption.map
      (fun parsed => (parsed.program.nodes.filterMap Node.leaf?).length) = some 7 := by
    decide +kernel
  cases hp : parse .default mixedText with
  | error e => simp [hp, Except.toOption] at hread
  | ok parsed =>
    obtain ⟨s, hs, hkept⟩ := tree_keeps_tokens hp
    have hlength : (parsed.program.nodes.filterMap Node.leaf?).length = 7 := by
      simpa [hp, Except.toOption] using hread
    exact ⟨parsed, s, rfl, hs, hlength, hkept⟩

end JsClass
