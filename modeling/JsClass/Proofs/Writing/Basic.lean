import JsClass.Proofs.Grammar.Repeat
import JsClass.Proofs.Syntax.Accessors

/-!
What a run leaves behind, token by token. Walking through the nodes that were read, one comes upon
the tokens in their order: each token has a place in the walk, where its own nodes stand, and the
nodes that begin with it stand right before them. The problems that were recorded are at tokens too,
and no token has two of them.
-/
namespace JsClass

/-- Words with a meaning in the grammar that are no keywords. -/
def grammarWords : List String :=
  ["async", "get", "set", "static", "let", "of", "await", "yield"]

/-- Whether a token may be taken without a trace. -/
def Kind.isDispensable : Kind → Bool
  | .punct _ | .keyword _ => true
  | .name word => grammarWords.contains word
  | .number _ | .string _ | .privateName _ | .eof => false

/-- Whether the node is a property whose one name is key and value. -/
def Node.isShorthand (n : Node) : Bool :=
  match n.shape with
  | .property _ _ _ _ shorthand _ => shorthand
  | _ => false

/-- A node without a word of its own. -/
def Node.isPlain (n : Node) : Bool := n.leaf?.isNone && !n.isIdentifier && !n.isShorthand

/-- The nodes with the position of a token: what it says, perhaps with nodes around it that begin
with it. -/
inductive Token.Bears (t : Token) : List Node → Prop
  | nothing (h : t.kind.isDispensable = true) : Bears t []
  | leaf {n : Node} (h : n.leaf? = some (t.kind, t.pos)) : Bears t [n]
  | word {w : String} (h : t.kind.word? = some w) : Bears t [⟨.identifier w, t.pos⟩]
  | shorthand {w : String} (h : t.kind = .name w) :
    Bears t [⟨.property ⟨.identifier w, t.pos⟩ ⟨.identifier w, t.pos⟩ .init false true false,
      t.pos⟩, ⟨.identifier w, t.pos⟩, ⟨.identifier w, t.pos⟩]
  | around {n : Node} {ns : List Node} (plain : n.isPlain = true) (pos : n.pos = t.pos)
    (h : Bears t ns) : Bears t (n :: ns)

/-- The nodes of one token after another. -/
inductive Written : List Token → List Node → Prop
  | nil : Written [] []
  | cons {t : Token} {ts : List Token} {ns ms : List Node} (h : t.Bears ns) (hs : Written ts ms) :
    Written (t :: ts) (ns ++ ms)

namespace Node

variable {n : Node}

theorem leaf?_pos {k : Kind} {pos : Position} (h : n.leaf? = some (k, pos)) : n.pos = pos := by
  cases hs : n.shape <;> simp_all [leaf?]

theorem children_of_leaf? {leaf : Kind × Position} (h : n.leaf? = some leaf) : n.children = [] := by
  cases hs : n.shape <;> simp_all [leaf?]
  all_goals simp [children, hs, Shape.children, Shape.fields, Field.children, Field.word]

theorem walk_ne_nil (n : Node) : n.walk ≠ [] := by
  rw [walk_eq]
  exact List.cons_ne_nil _ _

theorem walk_of_children (h : n.children = []) : n.walk = [n] := by
  rw [walk_eq, h]
  rfl

/-- Members have a key at least, so a node without children is none. -/
theorem quiet_of_children (h : n.children = []) :
    n.isShorthand = false ∧ n.ownProblems = [] := by
  cases hs : n.shape <;> simp_all [isShorthand, ownProblems]
  all_goals simp [children, hs, Shape.children, Shape.fields, Field.children] at h

theorem accessorProblems_of_children (h : n.children = []) : n.accessorProblems = [] := by
  rw [accessorProblems_of_quiet (quiet_of_children h).2, h]
  rfl

end Node

theorem Token.Bears.pos_eq {t : Token} {ns : List Node} (h : t.Bears ns) :
    ∀ n ∈ ns, n.pos = t.pos := by
  induction h with
  | nothing => simp
  | leaf h => simpa using Node.leaf?_pos h
  | word | shorthand => simp [Node.pos]
  | around _ pos _ ih => simpa using ⟨pos, ih⟩

namespace Written

variable {t : Token} {ts us : List Token} {n m : Node} {ns ms : List Node}

theorem append (h : Written ts ns) (h' : Written us ms) : Written (ts ++ us) (ns ++ ms) := by
  induction h with
  | nil => exact h'
  | cons h _ ih =>
    rw [List.append_assoc]
    exact .cons h ih

/-- A node that begins with the first token. -/
theorem begin (h : Written (t :: ts) ns) (plain : n.isPlain = true) (pos : n.pos = t.pos) :
    Written (t :: ts) (n :: ns) := by
  cases h with
  | cons h hs => exact .cons (.around plain pos h) hs

/-- A node that begins where the first node does, which need not be at the first token. -/
theorem wrap (h : Written ts (m :: ns)) (plain : n.isPlain = true) (pos : n.pos = m.pos) :
    Written ts (n :: m :: ns) := by
  generalize hl : m :: ns = l at h ⊢
  induction h with
  | nil => cases hl
  | @cons t ts gs ms h hs ih =>
    cases gs with
    | nil => exact .cons h (ih hl)
    | cons g gs =>
      obtain rfl : m = g := (List.cons.inj hl).1
      have hg := h.pos_eq m List.mem_cons_self
      exact .cons (.around plain (pos.trans hg) h) hs

theorem exists_token (h : Written ts ns) (hn : n ∈ ns) : ∃ t ∈ ts, n.pos = t.pos := by
  induction h with
  | nil => cases hn
  | cons h _ ih =>
    rcases List.mem_append.1 hn with hn | hn
    · exact ⟨_, List.mem_cons_self, h.pos_eq n hn⟩
    · obtain ⟨t, ht, hpos⟩ := ih hn
      exact ⟨t, List.mem_cons_of_mem _ ht, hpos⟩

end Written

/-! Problems. -/

/-- How often the name of a shorthand property is checked: as its value, and under the strictest
policy also as its key. -/
def ReservedPolicy.nameChecks : ReservedPolicy → Nat
  | .never => 2
  | .allowed | .forbidden | .numeric _ => 1

/-- Problems at tokens, one at most for each, next to the positions of shorthand properties. The
problem of a shorthand property is there as often as its name is checked. -/
inductive Noted (policy : ReservedPolicy) : List Token → List Position → List Diagnostic → Prop
  | nil : Noted policy [] [] []
  | silent {t : Token} {ts : List Token} {ps : List Position} {ds : List Diagnostic}
    (h : Noted policy ts ps ds) : Noted policy (t :: ts) ps ds
  | problem {t : Token} {ts : List Token} {ps : List Position} {d : Diagnostic}
    {ds : List Diagnostic} (pos : d.pos = t.pos) (h : Noted policy ts ps ds) :
    Noted policy (t :: ts) ps (d :: ds)
  | shorthand {t : Token} {ts : List Token} {ps : List Position} {ds es : List Diagnostic}
    (name : ds = [] ∨ ∃ d, d.pos = t.pos ∧ ds = List.replicate policy.nameChecks d)
    (h : Noted policy ts ps es) : Noted policy (t :: ts) (t.pos :: ps) (ds ++ es)

theorem Noted.append {policy : ReservedPolicy} {ts us : List Token} {ps qs : List Position}
    {ds es : List Diagnostic} (h : Noted policy ts ps ds) (h' : Noted policy us qs es) :
    Noted policy (ts ++ us) (ps ++ qs) (ds ++ es) := by
  induction h with
  | nil => exact h'
  | silent _ ih => exact .silent ih
  | problem pos _ ih => exact .problem pos ih
  | shorthand name _ ih =>
    rw [List.append_assoc]
    exact .shorthand name ih

/-- The positions of the shorthand properties among the nodes and below them. -/
def shorthands (ns : List Node) : List Position :=
  ((ns.flatMap Node.walk).filter Node.isShorthand).map Node.pos

theorem shorthands_append (ns ms : List Node) :
    shorthands (ns ++ ms) = shorthands ns ++ shorthands ms := by
  simp [shorthands]

theorem Node.isShorthand_of_isPlain {n : Node} (h : n.isPlain = true) : n.isShorthand = false := by
  simp only [isPlain, Bool.and_eq_true, Bool.not_eq_true'] at h
  exact h.2

theorem shorthands_of_isPlain {n : Node} (h : n.isPlain = true) (ms : List Node) :
    shorthands (n :: ms) = shorthands (n.children ++ ms) := by
  simp [shorthands, n.walk_eq, Node.isShorthand_of_isPlain h]

/-- Tokens account for nodes and for problems, of which the last list has those of accessors. -/
structure Accounts (policy : ReservedPolicy) (ts : List Token) (ns : List Node)
    (ds accessors : List Diagnostic) : Prop where
  written : Written ts (ns.flatMap Node.walk)
  noted : ∃ es, ds.Perm es ∧ Noted policy ts (shorthands ns) es
  accessors : ds.filter (·.cause.ofAccessor) = accessors

namespace Accounts

variable {policy : ReservedPolicy} {x : Token} {ts us : List Token} {n : Node} {ns ms : List Node}
  {d : Diagnostic} {ds es ps qs : List Diagnostic}

theorem nil : Accounts policy [] [] [] [] := ⟨.nil, ⟨[], .refl _, .nil⟩, rfl⟩

theorem append (h : Accounts policy ts ns ds ps) (h' : Accounts policy us ms es qs) :
    Accounts policy (ts ++ us) (ns ++ ms) (ds ++ es) (ps ++ qs) := by
  obtain ⟨as, has, hnoted⟩ := h.noted
  obtain ⟨bs, hbs, hnoted'⟩ := h'.noted
  refine ⟨?_, ⟨as ++ bs, has.append hbs, ?_⟩, ?_⟩
  · rw [List.flatMap_append]
    exact h.written.append h'.written
  · rw [shorthands_append]
    exact hnoted.append hnoted'
  · rw [List.filter_append, h.accessors, h'.accessors]

/-- A token of which nothing need be kept. -/
theorem token (h : x.kind.isDispensable = true) : Accounts policy [x] [] [] [] :=
  ⟨.cons (.nothing h) .nil, ⟨[], .refl _, .silent .nil⟩, rfl⟩

/-- A token that is one node, and whose word may be a problem. -/
theorem single (h : x.Bears [n]) (hc : n.children = [])
    (hds : ds = [] ∨ ∃ w, ds = [⟨.reservedWord w, x.pos⟩]) : Accounts policy [x] [n] ds [] := by
  have hwalk := Node.walk_of_children hc
  have hshorthands : shorthands [n] = [] := by
    simp [shorthands, hwalk, (Node.quiet_of_children hc).1]
  refine ⟨by simpa [hwalk] using Written.cons h .nil, ?_, ?_⟩
  · rw [hshorthands]
    obtain rfl | ⟨w, rfl⟩ := hds
    · exact ⟨[], .refl _, .silent .nil⟩
    · exact ⟨_, .refl _, .problem rfl .nil⟩
  · obtain rfl | ⟨w, rfl⟩ := hds
    · rfl
    · rfl

/-- A name that is a whole property. -/
theorem shorthand {w : String} (h : x.kind = .name w)
    (hds : ds = [] ∨ ds = List.replicate policy.nameChecks ⟨.reservedWord w, x.pos⟩) :
    Accounts policy [x] [⟨.property ⟨.identifier w, x.pos⟩ ⟨.identifier w, x.pos⟩ .init false true
      false, x.pos⟩] ds [] := by
  refine ⟨.cons (.shorthand h) .nil, ⟨ds, .refl _, ?_⟩, ?_⟩
  · have hnoted : Noted policy [x] [x.pos] (ds ++ []) := by
      refine .shorthand ?_ .nil
      exact hds.imp id fun h => ⟨_, rfl, h⟩
    rwa [List.append_nil] at hnoted
  · obtain rfl | rfl := hds
    · rfl
    · simp [Cause.ofAccessor]

/-- A node that begins with the first token. -/
theorem begin (h : Accounts policy (x :: ts) (n.children ++ ms) ds ps) (plain : n.isPlain = true)
    (pos : n.pos = x.pos) : Accounts policy (x :: ts) (n :: ms) ds ps := by
  have hwritten := h.written
  refine ⟨?_, ?_, h.accessors⟩
  · rw [List.flatMap_append] at hwritten
    rw [List.flatMap_cons, Node.walk_eq]
    exact hwritten.begin plain pos
  · rw [shorthands_of_isPlain plain]
    exact h.noted

/-- A node that begins where its first child does. -/
theorem wrap (h : Accounts policy ts n.children ds ps) (plain : n.isPlain = true)
    (pos : n.children.head?.map Node.pos = some n.pos) : Accounts policy ts [n] ds ps := by
  have hwritten := h.written
  refine ⟨?_, ?_, h.accessors⟩
  · rw [List.flatMap_singleton, Node.walk_eq]
    cases hc : n.children with
    | nil => simp [hc] at pos
    | cons m ms =>
      have hpos : m.pos = n.pos := by simpa [hc] using pos
      rw [hc, List.flatMap_cons, m.walk_eq] at hwritten
      rw [List.flatMap_cons, m.walk_eq]
      exact hwritten.wrap plain hpos.symm
  · rw [shorthands_of_isPlain plain, List.append_nil]
    exact h.noted

/-- A problem of an accessor at a token that has none, recorded behind all that was read since. -/
theorem note (h : Accounts policy ts ns ds ps) (hx : x.kind.isDispensable = true)
    (hpos : d.pos = x.pos) (hd : d.cause.ofAccessor = true) :
    Accounts policy (x :: ts) ns (ds ++ [d]) (ps ++ [d]) := by
  obtain ⟨es, hes, hnoted⟩ := h.noted
  refine ⟨.cons (.nothing hx) h.written, ⟨d :: es, ?_, .problem hpos hnoted⟩, ?_⟩
  · exact List.perm_append_singleton d ds |>.trans (hes.cons d)
  · simp [h.accessors, hd]

end Accounts

/-- On the way from one state to another the nodes are written and the problems of accessors
recorded, before an end of input. -/
def Records (e : Token) (policy : ReservedPolicy) (s : State) (ns : List Node)
    (ps : List Diagnostic) (t : State) : Prop :=
  e.kind = .eof → ∃ taken ds, s.pending = taken ++ t.pending ∧ t.reported = s.reported ++ ds ∧
    Accounts policy taken ns ds ps

abbrev Context.Records (c : Context) (s : State) (ns : List Node) (ps : List Diagnostic)
    (t : State) : Prop :=
  JsClass.Records c.finish c.options.reserved s ns ps t

/-- The nodes are written, and those problems of accessors recorded that they call for. -/
def Writes (e : Token) (policy : ReservedPolicy) (s : State) (ns : List Node) (t : State) : Prop :=
  Records e policy s ns (ns.flatMap Node.accessorProblems) t

/-- What a rule writes in a context. -/
abbrev Context.Writes (c : Context) (s : State) (ns : List Node) (t : State) : Prop :=
  JsClass.Writes c.finish c.options.reserved s ns t

/-- A token is taken of which nothing need be kept. -/
structure Context.Takes (c : Context) (s : State) (x : Token) (t : State) : Prop where
  next : c.next s = x
  skip : s.skip = t
  dispensable : x.kind.isDispensable = true

namespace Records

variable {c : Context} {s t u : State} {n : Node} {ns ms : List Node} {ps qs : List Diagnostic}

theorem trans (h : c.Records s ns ps u) (h' : c.Records u ms qs t) :
    c.Records s (ns ++ ms) (ps ++ qs) t := by
  intro he
  obtain ⟨xs, ds, hxs, hds, hns⟩ := h he
  obtain ⟨ys, es, hys, hes, hms⟩ := h' he
  refine ⟨xs ++ ys, ds ++ es, ?_, ?_, hns.append hms⟩
  · rw [hxs, hys, List.append_assoc]
  · rw [hes, hds, List.append_assoc]

/-- A node that begins with the first token, before its siblings. -/
theorem begin (h : c.Records s (n.children ++ ms) ps t) (hne : n.children ++ ms ≠ [])
    (plain : n.isPlain = true) (pos : n.pos = (c.next s).pos) : c.Records s (n :: ms) ps t := by
  intro he
  obtain ⟨taken, ds, htaken, hds, haccounts⟩ := h he
  cases taken with
  | nil =>
    have hwritten := haccounts.written
    generalize hl : (n.children ++ ms).flatMap Node.walk = l at hwritten
    cases hwritten
    obtain ⟨m, hm⟩ := List.exists_mem_of_ne_nil _ hne
    exact absurd (List.flatMap_eq_nil_iff.1 hl m hm) m.walk_ne_nil
  | cons y rest =>
    have hnext : c.next s = y := by simp [Context.next, htaken]
    exact ⟨y :: rest, ds, htaken, hds, haccounts.begin plain (hnext ▸ pos)⟩

/-- What the next token alone accounts for. -/
theorem single {ds : List Diagnostic} (h : Accounts c.options.reserved [c.next s] ns ds ps)
    (hk : (c.next s).kind ≠ .eof) (hpending : t.pending = s.pending.tail)
    (hreported : t.reported = s.reported ++ ds) : c.Records s ns ps t := by
  intro he
  refine ⟨[c.next s], ds, ?_, hreported, h⟩
  rw [hpending]
  exact Context.pending_eq he hk

theorem around (h : c.Records s ns ps t) (hne : ns ≠ []) (children : n.children = ns)
    (plain : n.isPlain = true) (pos : n.pos = (c.next s).pos) : c.Records s [n] ps t := by
  rw [← List.append_nil ns] at h hne
  subst children
  exact h.begin hne plain pos

end Records

namespace Writes

variable {c : Context} {s t u : State} {n : Node} {ns ms : List Node} {ps : List Diagnostic}

/-- What was recorded is what the nodes call for. -/
theorem of_records (h : c.Records s ns ps t) (hps : ns.flatMap Node.accessorProblems = ps) :
    c.Writes s ns t := by
  subst hps
  exact h

theorem refl (hpending : s.pending = t.pending) (hreported : s.reported = t.reported) :
    c.Writes s [] t :=
  fun _ => ⟨[], [], hpending, by simp [hreported], .nil⟩

theorem rfl' : c.Writes s [] s := refl rfl rfl

theorem trans (h : c.Writes s ns u) (h' : c.Writes u ms t) : c.Writes s (ns ++ ms) t := by
  have hrecords := Records.trans h h'
  rwa [← List.flatMap_append] at hrecords

/-- The last list of children stands before an empty rest. -/
theorem done (h : c.Writes s ns t) : c.Writes s (ns ++ []) t := h.trans rfl'

/-- A node that is written by the next token alone. -/
theorem single {ds : List Diagnostic} (h : (c.next s).Bears [n]) (hc : n.children = [])
    (hds : ds = [] ∨ ∃ w, ds = [⟨.reservedWord w, (c.next s).pos⟩]) (hk : (c.next s).kind ≠ .eof)
    (ht : t = { s.skip with reported := s.reported ++ ds }) : c.Writes s [n] t := by
  subst ht
  refine .of_records (.single (.single h hc hds) hk rfl rfl) ?_
  rw [List.flatMap_singleton, Node.accessorProblems_of_children hc]

theorem leaf (h : n.leaf? = some ((c.next s).kind, (c.next s).pos))
    (hk : (c.next s).kind.isLeaf = true) : c.Writes s [n] s.skip := by
  refine single (.leaf h) (Node.children_of_leaf? h) (.inl rfl) ?_ (by simp [State.skip])
  intro heof
  rw [heof] at hk
  cases hk

/-- A node that begins with the first token of its children. -/
theorem around (h : c.Writes s ns t) (hne : ns ≠ []) (children : n.children = ns)
    (plain : n.isPlain = true) (pos : n.pos = (c.next s).pos)
    (quiet : n.ownProblems = []) : c.Writes s [n] t := by
  refine .of_records (Records.around h hne children plain pos) ?_
  rw [List.flatMap_singleton, Node.accessorProblems_of_quiet quiet, children]

/-- A member of a class or an object, whose own problems are recorded behind its value. -/
theorem member {key value : Node} (hk : c.Writes s [key] u)
    (hv : c.Records u [value] (value.accessorProblems ++ n.ownProblems) t)
    (children : n.children = [key, value]) (plain : n.isPlain = true)
    (pos : n.pos = (c.next s).pos) : c.Writes s [n] t := by
  refine .of_records ((Records.trans hk hv).around (List.cons_ne_nil _ _) children plain pos) ?_
  rw [List.flatMap_singleton, n.accessorProblems_eq, children]
  simp

/-- A node that begins where its first child does. -/
theorem wrap (h : c.Writes s n.children t) (plain : n.isPlain = true)
    (pos : n.children.head?.map Node.pos = some n.pos) (quiet : n.ownProblems = []) :
    c.Writes s [n] t := by
  intro he
  obtain ⟨taken, ds, htaken, hds, haccounts⟩ := h he
  refine ⟨taken, ds, htaken, hds, ?_⟩
  rw [List.flatMap_singleton, Node.accessorProblems_of_quiet quiet]
  exact haccounts.wrap plain pos

end Writes

namespace Context.Takes

variable {c : Context} {s t u : State} {x : Token} {shape : Shape Node} {ns : List Node}
  {ps : List Diagnostic} {d : Diagnostic}

/-- The token that was taken is no end of input. -/
theorem pending_eq (he : c.finish.kind = .eof) (h : c.Takes s x t) :
    s.pending = x :: t.pending := by
  obtain ⟨rfl, rfl, hk⟩ := h
  refine Context.pending_eq he fun heof => ?_
  rw [heof] at hk
  cases hk

theorem reported_eq (h : c.Takes s x t) : t.reported = s.reported := by
  rw [← h.skip]
  rfl

theorem writes (h : c.Takes s x t) : c.Writes s [] t := fun he =>
  ⟨[x], [], h.pending_eq he, by simp [h.reported_eq], .token h.dispensable⟩

/-- A node that begins with the token that was taken. -/
theorem node (h : c.Takes s x u) (hc : c.Writes u shape.children t)
    (plain : (x.node shape).isPlain = true) (quiet : (x.node shape).ownProblems = []) :
    c.Writes s [x.node shape] t := by
  intro he
  obtain ⟨taken, ds, htaken, hds, haccounts⟩ := hc he
  refine ⟨x :: taken, ds, ?_, ?_, ?_⟩
  · rw [h.pending_eq he, htaken]
    rfl
  · rw [hds, h.reported_eq]
  · have hopened : Accounts c.options.reserved (x :: taken) (x.node shape).children ds
        ((x.node shape).children.flatMap Node.accessorProblems) :=
      (Accounts.token h.dispensable).append haccounts
    rw [List.flatMap_singleton, Node.accessorProblems_of_quiet quiet]
    refine Accounts.begin ?_ plain rfl
    rwa [List.append_nil]

/-- A problem of an accessor that is recorded at the token behind all that was read since. -/
theorem note (h : c.Takes s x u) (hc : c.Records u ns ps t) (hpos : d.pos = x.pos)
    (hd : d.cause.ofAccessor = true) :
    c.Records s ns (ps ++ [d]) { t with reported := t.reported ++ [d] } := by
  intro he
  obtain ⟨taken, ds, htaken, hds, haccounts⟩ := hc he
  refine ⟨x :: taken, ds ++ [d], ?_, ?_, haccounts.note h.dispensable hpos hd⟩
  · rw [h.pending_eq he, htaken]
    rfl
  · rw [hds, h.reported_eq, List.append_assoc]

end Context.Takes

namespace Parser

variable {σ α : Type} {c : Context} {s t : State} {x : Token}

theorem acceptKind_writes {k : Kind} {r : Bool} (hk : k.isDispensable = true)
    (h : acceptKind k c s = .ok r t) : c.Writes s [] t := by
  rcases acceptKind_eq_ok.1 h with ⟨hn, -, hs⟩ | ⟨-, -, rfl⟩
  · exact Context.Takes.writes ⟨rfl, hs, by rw [hn, hk]⟩
  · exact .rfl'

theorem accept_writes {p : Punct} {r : Bool} (h : accept p c s = .ok r t) : c.Writes s [] t :=
  acceptKind_writes rfl h

theorem acceptKeyword_writes {k : Keyword} {r : Bool} (h : acceptKeyword k c s = .ok r t) :
    c.Writes s [] t :=
  acceptKind_writes rfl h

theorem accept_takes {p : Punct} (h : accept p c s = .ok true t) : c.Takes s (c.next s) t := by
  rcases accept_eq_ok.1 h with ⟨hn, -, hs⟩ | ⟨-, hb, -⟩
  · exact ⟨rfl, hs, by rw [hn]; rfl⟩
  · cases hb

theorem expect_takes {p : Punct} (h : expect p c s = .ok x t) : c.Takes s x t := by
  obtain ⟨hn, hx, hs⟩ := expect_eq_ok.1 h
  exact ⟨hx, hs, by rw [← hx, hn]; rfl⟩

theorem expect_writes {p : Punct} (h : expect p c s = .ok x t) : c.Writes s [] t :=
  (expect_takes h).writes

theorem expectKeyword_takes {k : Keyword} (h : expectKeyword k c s = .ok x t) :
    c.Takes s x t := by
  obtain ⟨hn, hx, hs⟩ := expectKeyword_eq_ok.1 h
  exact ⟨hx, hs, by rw [← hx, hn]; rfl⟩

theorem advance_takes (hk : (c.next s).kind.isDispensable = true) (h : advance c s = .ok x t) :
    c.Takes s x t := by
  obtain ⟨hx, hs⟩ := advance_eq_ok.1 h
  exact ⟨hx, hs, hx ▸ hk⟩

theorem advance_writes (hk : (c.next s).kind.isDispensable = true) (h : advance c s = .ok x t) :
    c.Writes s [] t :=
  (advance_takes hk h).writes

theorem semicolon_writes {u : Unit} (h : semicolon c s = .ok u t) : c.Writes s [] t := by
  simp only [semicolon, bind_eq_ok, ite_eq_ok, pure_eq_ok, canInsertSemicolon_eq_ok,
    unexpectedNext_eq_ok, and_false, or_false] at h
  obtain ⟨r, v, hv, ⟨-, -, rfl⟩ | ⟨-, _, _, ⟨-, rfl⟩, -, -, rfl⟩⟩ := h
  · exact accept_writes hv
  · exact accept_writes hv

/-! Words. -/

/-- What the check of a word records. -/
def reservedProblems (c : Context) (i : Ident) : List Diagnostic :=
  if c.isReserved i.name then [⟨.reservedWord i.name, i.pos⟩] else []

theorem reservedProblems_cases (c : Context) (i : Ident) :
    reservedProblems c i = [] ∨ ∃ w, reservedProblems c i = [⟨.reservedWord w, i.pos⟩] := by
  unfold reservedProblems
  split
  · exact .inr ⟨_, rfl⟩
  · exact .inl rfl

theorem checkUnreserved_records {i : Ident} {u : Unit}
    (h : checkUnreserved i.name i.pos c s = .ok u t) :
    t = { s with reported := s.reported ++ reservedProblems c i } := by
  simp only [checkUnreserved, bind_eq_ok, context_eq_ok, ite_eq_ok, reject_eq_ok, report_eq_ok,
    pure_eq_ok, and_false, false_or] at h
  obtain ⟨_, _, ⟨rfl, rfl⟩, -, -, -, ⟨hr, rfl⟩ | ⟨hr, -, rfl⟩⟩ := h
  · rw [reservedProblems, if_pos hr]
  · rw [reservedProblems, if_neg hr, List.append_nil]

/-- Names of properties are checked under the strictest policy only. -/
def propertyProblems (c : Context) (i : Ident) : List Diagnostic :=
  if c.options.reserved = .never then reservedProblems c i else []

theorem propertyProblems_cases (c : Context) (i : Ident) :
    propertyProblems c i = [] ∨ ∃ w, propertyProblems c i = [⟨.reservedWord w, i.pos⟩] := by
  unfold propertyProblems
  split
  · exact reservedProblems_cases c i
  · exact .inl rfl

theorem checkIfNever_records {i : Ident} {u : Unit} (h : checkIfNever i c s = .ok u t) :
    t = { s with reported := s.reported ++ propertyProblems c i } := by
  simp only [checkIfNever, bind_eq_ok, context_eq_ok, ite_eq_ok, pure_eq_ok, beq_iff_eq] at h
  obtain ⟨_, _, ⟨rfl, rfl⟩, ⟨hn, h⟩ | ⟨hn, -, rfl⟩⟩ := h
  · rw [propertyProblems, if_pos hn]
    exact checkUnreserved_records h
  · rw [propertyProblems, if_neg hn, List.append_nil]

/-- The check of a property's name and that of the same name as a value. -/
theorem nameProblems_cases (c : Context) (i : Ident) :
    propertyProblems c i ++ reservedProblems c i = [] ∨
      propertyProblems c i ++ reservedProblems c i =
        List.replicate c.options.reserved.nameChecks ⟨.reservedWord i.name, i.pos⟩ := by
  unfold propertyProblems reservedProblems
  cases c.options.reserved <;> cases c.isReserved i.name <;>
    simp [ReservedPolicy.nameChecks, List.replicate]

/-- A word that is taken, and perhaps recorded as a problem. -/
theorem word_writes {i : Ident} {u : State} {ds : List Diagnostic} (h : anyWord c s = .ok i u)
    (hds : ds = [] ∨ ∃ w, ds = [⟨.reservedWord w, i.pos⟩])
    (ht : t = { u with reported := u.reported ++ ds }) : c.Writes s [i.node] t := by
  obtain ⟨word, hw, rfl, rfl⟩ := anyWord_eq_ok.1 h
  refine .single (.word hw) rfl hds ?_ ht
  intro heof
  rw [heof] at hw
  cases hw

theorem anyWord_writes {i : Ident} (h : anyWord c s = .ok i t) : c.Writes s [i.node] t :=
  word_writes h (.inl rfl) (by simp)

theorem ident_records {i : Ident} (h : ident c s = .ok i t) :
    ∃ u, anyWord c s = .ok i u ∧ t = { u with reported := u.reported ++ reservedProblems c i } := by
  simp only [ident, bind_eq_ok, context_eq_ok, ite_eq_ok, reject_eq_ok, pure_eq_ok, and_false,
    false_or] at h
  obtain ⟨i, u, hw, _, v, hu, _, _, ⟨rfl, rfl⟩, -, rfl, rfl⟩ := h
  exact ⟨u, hw, checkUnreserved_records hu⟩

theorem ident_writes {i : Ident} (h : ident c s = .ok i t) : c.Writes s [i.node] t := by
  obtain ⟨u, hw, ht⟩ := ident_records h
  exact word_writes hw (reservedProblems_cases c i) ht

theorem propertyWord_records {i : Ident} (h : propertyWord c s = .ok i t) :
    ∃ u, anyWord c s = .ok i u ∧ t = { u with reported := u.reported ++ propertyProblems c i } := by
  simp only [propertyWord, bind_eq_ok, pure_eq_ok] at h
  obtain ⟨i, u, hw, _, v, hu, rfl, rfl⟩ := h
  exact ⟨u, hw, checkIfNever_records hu⟩

theorem propertyWord_writes {i : Ident} (h : propertyWord c s = .ok i t) :
    c.Writes s [i.node] t := by
  obtain ⟨u, hw, ht⟩ := propertyWord_records h
  exact word_writes hw (propertyProblems_cases c i) ht

theorem privateName_writes {i : Ident} (h : privateName c s = .ok i t) :
    c.Writes s [⟨.privateName i.name, i.pos⟩] t := by
  obtain ⟨hk, hpos, -, u, hcheck⟩ := privateName_next h
  have hproblems := propertyProblems_cases c i
  rw [← hpos] at hproblems
  refine .single (.leaf ?_) rfl hproblems ?_ (checkIfNever_records hcheck)
  · rw [hk, hpos]
    rfl
  · rw [hk]
    exact Kind.noConfusion

/-! Repetitions. -/

theorem collectFrom_writes {turn : σ → Parser (Turn σ α)} {view : α → List Node}
    (hturn : ∀ {x s r t}, turn x c s = .ok r t → c.Writes s (r.items.flatMap view) t)
    {turns : Nat} {x : σ} {items : List α} (h : collectFrom turn turns x c s = .ok items t) :
    c.Writes s (items.flatMap view) t := by
  refine collectFrom_induction (P := fun _ s items t => c.Writes s (items.flatMap view) t)
    (fun hr => hturn hr) ?_ h
  intro _ s found _ u rest t hr ih
  rw [List.flatMap_append]
  exact (hturn hr).trans ih

theorem separated_writes {item : Parser α} {view : α → List Node}
    (hitem : ∀ {s x t}, item c s = .ok x t → c.Writes s (view x) t)
    {turns : Nat} {close : Punct} {items : List α}
    (h : separated turns close item c s = .ok items t) : c.Writes s (items.flatMap view) t := by
  simp only [separated, bind_eq_ok, ite_eq_ok, pure_eq_ok] at h
  obtain ⟨_, u, hu, ⟨-, rfl, rfl⟩ | ⟨-, first, v, hv, rest, w, hw, rfl, rfl⟩⟩ := h
  · exact accept_writes hu
  · rw [List.flatMap_cons]
    refine (accept_writes hu).trans ((hitem hv).trans (collectFrom_writes ?_ hw))
    intro _ s r t hr
    simp only [bind_eq_ok, ite_eq_ok, pure_eq_ok] at hr
    obtain ⟨_, u, hu, ⟨-, rfl, rfl⟩ | ⟨-, _, v, hv, _, w, hw,
      ⟨-, rfl, rfl⟩ | ⟨-, x, _, hx, rfl, rfl⟩⟩⟩ := hr
    · exact accept_writes hu
    · exact (accept_writes hu).trans ((expect_writes hv).trans (accept_writes hw))
    · have hmore := (accept_writes hu).trans ((expect_writes hv).trans
        ((accept_writes hw).trans (hitem hx)))
      simpa [Turn.items] using hmore

end Parser

end JsClass
