import JsClass.Proofs.Endings.LastMember

/-!
The end of a class body. A field ends with a semicolon, or without one before the brace that closes
its class; so the last semicolon of a class may be left out. But a static field that is called
`get` or `set` needs it, since before a brace these words are taken for modifiers.
-/
namespace JsClass

namespace Endings

open JsClass.Parser

variable {q : Endings} {g : Grammar} {c : Context} {s t u v : State} {n : Node} {z : Token}

theorem classTurn_member {hasConstructor : Bool} (hbrace : (c.next s).kind ≠ .punct .rbrace)
    (hend : (c.next s).kind ≠ .eof) : classTurn g hasConstructor c s =
      (do afterMember hasConstructor (← g.classElement) : Parser (Turn Bool Node)) c s := by
  have haccept : accept .rbrace c s = .ok false s := accept_eq_ok.2 (Or.inr ⟨hbrace, rfl, rfl⟩)
  have hatEnd : atEnd c s = .ok false s :=
    atEnd_eq_ok.2 ⟨by simpa using hend, rfl⟩
  rw [classTurn, bind_apply, haccept]
  simp only [Bool.false_eq_true, if_false]
  rw [bind_apply, hatEnd]
  simp only [Bool.false_eq_true, if_false]

theorem classTurn_brace {hasConstructor : Bool} (hbrace : (c.next s).kind = .punct .rbrace) :
    classTurn g hasConstructor c s = .ok (.stop []) s.skip := by
  have haccept : accept .rbrace c s = .ok true s.skip :=
    accept_eq_ok.2 (Or.inl ⟨hbrace, rfl, rfl⟩)
  rw [classTurn, bind_apply, haccept]
  rfl

/-- What a turn has read that is not the last one: a member, or a stray semicolon. -/
structure TurnReads (g : Grammar) (c : Context) (s : State) (hasConstructor : Bool)
    (member : Option Node) (items : List Node) (next : Bool) (u : State) : Prop where
  noBrace : (c.next s).kind ≠ .punct .rbrace
  noEnd : (c.next s).kind ≠ .eof
  element : g.classElement c s = .ok member u
  after : ∀ d v, afterMember hasConstructor member d v = .ok (.more items next) v

theorem classTurn_more {hasConstructor : Bool} {r : Turn Bool Node}
    (hbrace : (c.next s).kind ≠ .punct .rbrace)
    (hrun : classTurn g hasConstructor c s = .ok r u) :
    ∃ member items next, r = .more items next ∧
      TurnReads g c s hasConstructor member items next u := by
  have hend : (c.next s).kind ≠ .eof := by
    intro hend
    have haccept : accept .rbrace c s = .ok false s := accept_eq_ok.2 (Or.inr ⟨hbrace, rfl, rfl⟩)
    have hatEnd : atEnd c s = .ok true s := atEnd_eq_ok.2 ⟨by simpa using hend, rfl⟩
    rw [classTurn, bind_apply, haccept] at hrun
    simp only [Bool.false_eq_true, if_false] at hrun
    rw [bind_apply, hatEnd] at hrun
    exact unexpectedNext_eq_ok.1 hrun
  rw [classTurn_member hbrace hend] at hrun
  obtain ⟨member, v, helement, hafter⟩ := bind_eq_ok.1 hrun
  obtain ⟨hgoes, rfl, hsame⟩ := afterMember_eq_ok hafter
  cases r with
  | stop items => exact hgoes.elim
  | more items next => exact ⟨member, items, next, rfl, hbrace, hend, helement, hsame⟩

section

variable {turns : Nat} {hasConstructor next : Bool} {member : Option Node} {items later : List Node}

/-- Where the other run sees the same token, it reads a member, and the members behind it. -/
theorem collectFrom_member (hfinish : q.finish = c.finish)
    (hturn : TurnReads g c s hasConstructor member items next u) (hleft : q.Left 1 s)
    (hmember : q.ReadsOrRefuses s member v (g.classElement c (q.state s)))
    (hlater : q.ReadsOrRefuses s later t (Parser.collectFrom (classTurn g) turns next c v)) :
    q.ReadsOrRefuses s (items ++ later) t
      (Parser.collectFrom (classTurn g) (turns + 1) hasConstructor c (q.state s)) := by
  have hnext : c.next (q.state s) = c.next s := by
    rw [← next_state hleft, context_self hfinish]
  have hread : q.ReadsOrRefuses s (.more items next) v
      (classTurn g hasConstructor c (q.state s)) := by
    rw [classTurn_member (by rw [hnext]; exact hturn.noBrace) (by rw [hnext]; exact hturn.noEnd)]
    exact hmember.bind (Or.inl (hturn.after c v))
  exact hread.bind (hlater.bind (Or.inl rfl))

/-- A stray semicolon before the brace leaves no member. -/
theorem collectFrom_stray (hq : q.Drops) (hfinish : q.finish = c.finish) (hs : s.pending = q.first)
    (hrun : Parser.collectFrom (classTurn g) turns next c s.skip = .ok later t) :
    Parser.collectFrom (classTurn g) (turns + 1) next c (q.state s) = .ok later t := by
  have hskip : s.skip.pending = q.second := by
    obtain ⟨semi, -, hfirst⟩ := hq.first
    rw [State.skip, hs, hfirst, List.tail_cons]
  have hstate : q.state s = s.skip := by
    rw [state_beyond hs, ← beyond_self hskip]
    rfl
  have hbrace : (c.next s.skip).kind = .punct .rbrace := by
    rw [Context.next, hskip, ← hfinish]
    exact hq.second
  cases turns with
  | zero => exact (fail_eq_ok.1 hrun).elim
  | succ turns =>
    rw [hstate]
    rw [Parser.collectFrom, bind_apply, classTurn_brace hbrace] at hrun ⊢
    exact hrun

/-- Before the last member both runs read the same. -/
theorem collectFrom_before (hg : q.Keeps g) (hc : c.finish.kind = .eof)
    (hfinish : q.finish = c.finish) (hturn : TurnReads g c s hasConstructor member items next u)
    (hmore : q.Left 1 u)
    (hlater : q.ReadsOrRefuses s later t
      (Parser.collectFrom (classTurn g) turns next c (q.state u))) :
    q.ReadsOrRefuses s (items ++ later) t
      (Parser.collectFrom (classTurn g) (turns + 1) hasConstructor c (q.state s)) := by
  have hmember := classElement hg (S := .anywhere) hc trivial hturn.element
  have hsame := hmember.resumes hmore
  rw [context_self hfinish] at hsame
  exact collectFrom_member hfinish hturn (hmore.since hmember.suffix) (Or.inl hsame) hlater

/-- Behind the last member the other run is at the brace, and so may this one be. If only the
semicolon is left before it, that is read for no member. -/
theorem collectFrom_last (hq : q.Drops) (hg : q.Keeps g) (hc : c.finish.kind = .eof)
    (hd : c.dialect = .withPrivate) (hfinish : q.finish = c.finish)
    (hturn : TurnReads g c s hasConstructor member items next u) (hs : q.Left 0 s)
    (hmeets : q.Meets u)
    (hrun : Parser.collectFrom (classTurn g) turns next c u = .ok later t)
    (hlater : q.Left 0 u → q.ReadsOrRefuses s later t
      (Parser.collectFrom (classTurn g) turns next c (q.state u))) :
    q.ReadsOrRefuses s (items ++ later) t
      (Parser.collectFrom (classTurn g) (turns + 1) hasConstructor c (q.state s)) := by
  rcases classElement_beyond hq hg hc hd hturn.element hs hmeets with
    ⟨hleft, hbeyond⟩ | ⟨rfl, hfirst, rfl⟩
  · have hlater' : q.ReadsOrRefuses s later t
        (Parser.collectFrom (classTurn g) turns next c (q.beyond u)) := by
      rcases hmeets with hu | hu
      · rw [← state_beyond hu]
        exact hlater (left_iff.2 ⟨[], hu, Nat.le_refl _⟩)
      · rw [beyond_self hu]
        exact Or.inl hrun
    rw [context_self hfinish] at hbeyond
    exact collectFrom_member hfinish hturn hleft hbeyond hlater'
  · obtain ⟨rfl, rfl⟩ := Turn.more.inj (Reply.ok.inj (hturn.after c s)).1
    exact Or.inl (collectFrom_stray hq hfinish hfirst hrun)

end

/-- The brace that ends the members stands behind the semicolon. -/
theorem Drops.not_left (hq : q.Drops) (hbrace : q.second = z :: s.skip.pending) :
    ¬ q.Left 0 s := by
  intro hs
  have hlength := hq.length
  have hle := hs.2
  rw [hbrace] at hlength
  simp only [State.skip, List.length_cons, List.length_tail] at hlength
  omega

/-- Members up to the brace are the same without the semicolon before it. The induction is on the
turns; the member before the semicolon is the last one, or nothing stands between it and a member
that has ended before. -/
theorem members_beyond (hq : q.Drops) (hg : q.Keeps g) (hc : c.finish.kind = .eof)
    (hd : c.dialect = .withPrivate) (hfinish : q.finish = c.finish)
    (ht : ∃ brace, q.second = brace :: t.pending) {turns : Nat} {hasConstructor : Bool}
    {members : List Node} (hs : q.Left 0 s)
    (hrun : Parser.collectFrom (classTurn g) turns hasConstructor c s = .ok members t) :
    q.ReadsOrRefuses s members t
      (Parser.collectFrom (classTurn g) turns hasConstructor c (q.state s)) := by
  obtain ⟨brace, hsecond⟩ := ht
  induction turns generalizing s hasConstructor members with
  | zero => exact (fail_eq_ok.1 hrun).elim
  | succ turns ih =>
    obtain ⟨r, u, hturn, hrest⟩ := bind_eq_ok.1 hrun
    by_cases hbrace : (c.next s).kind = .punct .rbrace
    · rw [classTurn_brace hbrace] at hturn
      obtain ⟨rfl, rfl⟩ := Reply.ok.inj hturn
      obtain ⟨-, rfl⟩ := pure_eq_ok.1 hrest
      exact absurd hs (hq.not_left hsecond)
    · obtain ⟨member, items, next, rfl, hreads⟩ := classTurn_more hbrace hturn
      obtain ⟨later, v, hlater, hrest⟩ := bind_eq_ok.1 hrest
      obtain ⟨rfl, rfl⟩ := pure_eq_ok.1 hrest
      have hmember := classElement hg (S := .anywhere) hc trivial hreads.element
      have hagain (hu : q.Left 0 u) := (ih hu hlater).since hmember.suffix
      by_cases hmore : q.Left 1 u
      · exact collectFrom_before hg hc hfinish hreads hmore (hagain (hmore.mono (Nat.zero_le 1)))
      · have hshorter : v.pending.length < u.pending.length :=
          (collectFrom_closed (classTurn_closed hg) next hc trivial hlater).takes trivial
        have hmeets : q.Meets u := hq.meets hs hmember.suffix hmore (by
          rw [hsecond, List.length_cons]
          exact hshorter)
        exact collectFrom_last hq hg hc hd hfinish hreads hs hmeets hlater hagain

/-! Whole classes. -/

theorem classMembers_beyond (hq : q.Drops) (hg : q.Keeps g) (hc : c.finish.kind = .eof)
    (hd : c.dialect = .withPrivate) (hfinish : q.finish = c.finish)
    (ht : ∃ brace, q.second = brace :: t.pending) {members : List Node} (hs : q.Left 0 s)
    (hrun : g.classMembers c s = .ok members t) :
    q.Left 1 s ∧ q.ReadsOrRefuses s members t (g.classMembers c (q.state s)) := by
  have hcontext : q.context c = c := context_self hfinish
  rw [classMembers_eq] at hrun ⊢
  obtain ⟨z, u, hopen, hrest⟩ := bind_eq_ok.1 hrun
  obtain ⟨hk, -, rfl⟩ := expect_eq_ok.1 hopen
  have hleft : q.Left 1 s := hq.left_of_ne (c := c) hs (by simp [hk])
  have hopen' : expect .lbrace c (q.state s) = .ok z (q.state s.skip) := by
    have h := (Runs.expect (q := q) (k := .lbrace) (by decide) (S := .anywhere) hc trivial
      hopen).resumes hleft.skip
    rwa [hcontext] at h
  refine ⟨hleft, ?_⟩
  rw [bind_apply, hopen']
  exact (members_beyond hq hg hc hd hfinish ht hleft.skip hrest).since s.passes_skip.pending

/-- The members of a class are in braces of their own. -/
theorem classMembers_length (hg : q.Keeps g) (hc : c.finish.kind = .eof) {members : List Node}
    (hrun : g.classMembers c s = .ok members t) :
    t.pending.length + 2 ≤ s.pending.length := by
  rw [classMembers_eq] at hrun
  obtain ⟨_, u, hopen, hrest⟩ := bind_eq_ok.1 hrun
  have hopen := (Runs.expect (q := q) (k := .lbrace) (by decide) (S := .anywhere) hc trivial
    hopen).takes trivial
  have hclosed := (collectFrom_closed (classTurn_closed hg) false hc trivial hrest).takes trivial
  omega

/-- A class behind its keyword. -/
theorem classParts_beyond (hq : q.Drops) (hg : q.Keeps g) (hc : c.finish.kind = .eof)
    (hd : c.dialect = .withPrivate) (hfinish : q.finish = c.finish)
    (ht : ∃ brace, q.second = brace :: t.pending) {isExpression : Bool} {parts : Parser Node}
    (make : Option Node → Option Node → List Node → Node)
    (hparts : parts = do
      let name ← Grammar.className? isExpression
      let superclass ← g.superclass?
      let members ← g.classMembers
      return make name superclass members)
    (hs : ∀ v : State, v.pending <:+ s.pending → t.pending.length + 2 ≤ v.pending.length →
      q.Left 0 v)
    (hrun : parts c s = .ok n t) :
    q.Left 0 s ∧ q.ReadsOrRefuses s n t (parts c (q.state s)) := by
  have hcontext : q.context c = c := context_self hfinish
  rw [hparts] at hrun ⊢
  obtain ⟨name, v, hname, hrest⟩ := bind_eq_ok.1 hrun
  obtain ⟨base, w, hbase, hrest⟩ := bind_eq_ok.1 hrest
  obtain ⟨members, x, hmembers, hrest⟩ := bind_eq_ok.1 hrest
  obtain ⟨rfl, hx⟩ := pure_eq_ok.1 hrest
  rw [hx] at hmembers
  have hname' := className? (q := q) isExpression (S := .anywhere) hc trivial hname
  have hbase' := superclass? hg (S := .anywhere) hc trivial hbase
  have hsuffix : w.pending <:+ s.pending := hbase'.suffix.trans hname'.suffix
  have hleft : q.Left 0 w := hs w hsuffix (classMembers_length hg hc hmembers)
  obtain ⟨hmore, hbeyond⟩ := classMembers_beyond hq hg hc hd hfinish ht hleft hmembers
  have hname' := hname'.resumes (hmore.since hbase'.suffix)
  have hbase' := hbase'.resumes hleft
  rw [hcontext] at hname' hbase'
  refine ⟨hleft.since hsuffix, ?_⟩
  rw [bind_apply, hname']
  dsimp only
  rw [bind_apply, hbase']
  exact (hbeyond.since hsuffix).bind (Or.inl rfl)

theorem classRest_beyond (hq : q.Drops) (hg : q.Keeps g) (hc : c.finish.kind = .eof)
    (hd : c.dialect = .withPrivate) (hfinish : q.finish = c.finish)
    (ht : ∃ brace, q.second = brace :: t.pending) {isExpression : Bool} (hs : q.Left 0 s)
    (hrun : g.classRest isExpression c s = .ok n t) :
    q.ReadsOrRefuses s n t (g.classRest isExpression c (q.state s)) := by
  have hcontext : q.context c = c := context_self hfinish
  obtain ⟨z, u, hclass, hrest⟩ := bind_eq_ok.1 hrun
  rw [within_apply] at hrest
  have hclass' := Runs.expectKeyword (q := q) .class_ (S := .anywhere) hc trivial hclass
  have hlong (v : State) (hv : v.pending <:+ u.pending)
      (hlength : t.pending.length + 2 ≤ v.pending.length) : q.Left 0 v := by
    obtain ⟨brace, hsecond⟩ := ht
    have hle : q.first.length ≤ v.pending.length := by
      rw [hq.length, hsecond, List.length_cons]
      exact hlength
    exact ⟨List.suffix_of_suffix_length_le hs.1 (hv.trans hclass'.suffix) hle, hle⟩
  obtain ⟨hleft, hbeyond⟩ := classParts_beyond (c := { c with strict := true })
    hq hg hc hd hfinish ht
    (fun name superclass members => z.node (.class_ name superclass members isExpression)) rfl
    hlong hrest
  have hclass'' := hclass'.resumes hleft
  rw [hcontext] at hclass''
  rw [Grammar.classRest, bind_apply, hclass'']
  dsimp only
  rw [within_apply]
  exact hbeyond.since hclass'.suffix

theorem class_beyond (hq : q.Drops) (hg : q.Keeps g) (hc : c.finish.kind = .eof)
    (hd : c.dialect = .withPrivate) (hfinish : q.finish = c.finish)
    (ht : ∃ brace, q.second = brace :: t.pending) {isExpression : Bool} (hs : q.Left 0 s)
    (hrun : g.class_ isExpression c s = .ok n t) :
    q.ReadsOrRefuses s n t (g.class_ isExpression c (q.state s)) := by
  have hclass (v : State) : g.class_ isExpression c v =
      inClassBody (g.classRest isExpression) c v := by
    have hcontext : Parser.context c v = .ok c v := rfl
    rw [Grammar.class_, bind_apply, hcontext]
    simp only [hd]
  rw [hclass] at hrun ⊢
  obtain ⟨u, hu, scope, hscope, rfl⟩ := inClassBody_eq_ok.1 hrun
  have hs' : q.Left 0 { s with scope := s.scope.enter } := hs
  have ht : ∃ brace, q.second = brace :: u.pending := ht
  rcases classRest_beyond hq hg hc hd hfinish ht hs' hu with hsame | ⟨hends, v, hv⟩
  · exact Or.inl (inClassBody_eq_ok.2 ⟨u, hsame, scope, hscope, rfl⟩)
  · have hv : g.classRest isExpression c { q.state s with scope := (q.state s).scope.enter } =
      _ := hv
    refine Or.inr ⟨hends, { v with scope := v.scope.abandon.2 }, ?_⟩
    rw [inClassBody, hv]

end Endings

/-- The semicolon before the brace that closes a class may be left out. The tree, what is recorded
and the place behind the class are the same, unless the last member is a static field that is called
`get` or `set`: before the brace, such a word is taken for a modifier, and the brace is refused. -/
theorem last_semicolon_dispensable (level turns : Nat) (isExpression : Bool) (c : Context)
    (s t : State) (n : Node) (before behind : List Token) (semi brace : Token)
    (hdialect : c.dialect = .withPrivate) (hfinish : c.finish.kind = .eof)
    (hsemi : semi.kind = .punct .semicolon) (hbrace : brace.kind = .punct .rbrace)
    (hs : s.pending = before ++ semi :: brace :: behind) (ht : t.pending = behind)
    (h : { Grammar.level level with turns }.class_ isExpression c s = .ok n t) :
    { Grammar.level level with turns }.class_ isExpression c
        { s with pending := before ++ brace :: behind } = .ok n t ∨
      (∃ zs z w, before = zs ++ [z, w] ∧ z.kind = .name "static" ∧
        (w.kind = .name "get" ∨ w.kind = .name "set")) ∧
      ∃ u, { Grammar.level level with turns }.class_ isExpression c
        { s with pending := before ++ brace :: behind } =
          .error (.rejected ⟨.unexpectedToken (.ofString "\x7d"), brace.pos⟩) u := by
  let q : Endings := {
    first := semi :: brace :: behind
    second := brace :: behind
    finish := c.finish
    first_ends := by
      rintro z ⟨⟩
      exact Or.inr (Or.inl hsemi)
    second_ends := Or.inr (Or.inr (Or.inr (Or.inr hbrace))) }
  have hq : q.Drops := ⟨⟨semi, hsemi, rfl⟩, hbrace⟩
  have hg : q.Keeps { Grammar.level level with turns } :=
    (Endings.Keeps.level q level).withTurns turns
  have hstate : q.state s = { s with pending := before ++ brace :: behind } :=
    Endings.state_eq before hs
  have hleft : q.Left 0 s := Endings.left_iff.2 ⟨before, hs, Nat.zero_le _⟩
  rcases Endings.class_beyond hq hg hfinish hdialect rfl ⟨brace, by rw [ht]⟩ hleft h with
    hsame | ⟨⟨zs, z, w, hzs, hwords⟩, u, hu⟩
  · rw [hstate] at hsame
    exact Or.inl hsame
  · rw [hstate] at hu
    refine Or.inr ⟨⟨zs, z, w, ?_, hwords⟩, u, hu⟩
    have hzs : before ++ q.first = (zs ++ [z, w]) ++ q.first := by
      rw [List.append_assoc]
      exact hs.symm.trans hzs
    exact List.append_cancel_right hzs

/-- A class up to the value, or the name, of its last field. -/
def openClass (member : List Kind) : List Token :=
  ([.keyword .class_, .name "A", .punct .lbrace, .name "static"] ++ member : List Kind).map
    (⟨·, .start, false⟩)

def lastSemicolon : Token := ⟨.punct .semicolon, .start, false⟩

def lastBrace : Token := ⟨.punct .rbrace, .start, false⟩

/-- A class alone in a program. -/
def readClass (tokens : List Token) : Reply Node :=
  { Grammar.level 9 with turns := 9 }.class_ false
    (.initial .withPrivate .default ⟨.eof, .start, false⟩) ⟨tokens, [], .empty⟩

theorem openClass_last_semicolon : ∃ n t, t.pending = [] ∧
    readClass (openClass [.name "x", .punct .eq, .number "1"] ++ lastSemicolon :: lastBrace :: []) =
      .ok n t ∧
    readClass (openClass [.name "x", .punct .eq, .number "1"] ++ lastBrace :: []) = .ok n t := by
  have hread : (match readClass (openClass [.name "x", .punct .eq, .number "1"] ++
      lastSemicolon :: lastBrace :: []) with
    | .ok _ t => t.pending.isEmpty
    | .error .. => false) = true := by
    decide +kernel
  cases h : readClass (openClass [.name "x", .punct .eq, .number "1"] ++
      lastSemicolon :: lastBrace :: []) with
  | error e t => simp [h] at hread
  | ok n t =>
    have ht : t.pending = [] := by simpa [h] using hread
    refine ⟨n, t, ht, rfl, ?_⟩
    rcases last_semicolon_dispensable 9 9 false _ ⟨_, [], .empty⟩ t n _ [] lastSemicolon lastBrace
      rfl rfl rfl rfl rfl ht h with hsame | ⟨⟨zs, z, w, hlast, hz, -⟩, -⟩
    · exact hsame
    · -- the word `static` does not stand before the value
      have hkind := congrArg (fun tokens => tokens.reverse[1]?.map Token.kind) hlast
      simp [openClass, hz] at hkind

/-- A static field that is called `get` cannot do without its semicolon. -/
theorem static_get_needs_semicolon :
    ¬ ∀ (level turns : Nat) (isExpression : Bool) (c : Context) (s t : State) (n : Node)
      (before behind : List Token) (semi brace : Token), c.dialect = .withPrivate →
      c.finish.kind = .eof → semi.kind = .punct .semicolon → brace.kind = .punct .rbrace →
      s.pending = before ++ semi :: brace :: behind → t.pending = behind →
      { Grammar.level level with turns }.class_ isExpression c s = .ok n t →
      { Grammar.level level with turns }.class_ isExpression c
        { s with pending := before ++ brace :: behind } = .ok n t := by
  intro hall
  have hread : (match readClass (openClass [.name "get"] ++ lastSemicolon :: lastBrace :: []),
      readClass (openClass [.name "get"] ++ lastBrace :: []) with
    | .ok _ t, .error .. => t.pending.isEmpty
    | _, _ => false) = true := by
    decide +kernel
  cases h : readClass (openClass [.name "get"] ++ lastSemicolon :: lastBrace :: []) with
  | error e t => simp [h] at hread
  | ok n t =>
    cases h' : readClass (openClass [.name "get"] ++ lastBrace :: []) with
    | ok n' t' => simp [h, h'] at hread
    | error e t' =>
      have ht : t.pending = [] := by simpa [h, h'] using hread
      have hsame := hall 9 9 false _ ⟨_, [], .empty⟩ t n _ [] lastSemicolon lastBrace rfl rfl rfl
        rfl rfl ht h
      cases h'.symm.trans hsame

end JsClass
