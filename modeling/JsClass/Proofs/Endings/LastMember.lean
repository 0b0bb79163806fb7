import JsClass.Proofs.Endings.Closing

/-!
The last member of a class, when one of two runs lacks the semicolon behind it. The word before the
semicolon is at the brace in that run, and what a word before a brace stands for is asked anew: it
is the name of a field in both runs, but for the words of accessors behind `static`.
-/
namespace JsClass

namespace Endings

open JsClass.Parser

variable {α β : Type} {q : Endings} {g : Grammar} {c : Context} {s t u : State} {S : Site}
  {h : Grammar.Head} {n : Node}

/-! Words before the semicolon. -/

/-- A punctuator that starts no key is refused there. -/
theorem propertyKey_refused {p : Punct} (hp : p ≠ .lbracket) (hk : (c.next s).kind = .punct p) :
    g.propertyKey c s =
      .error (.rejected ⟨.unexpectedToken (Kind.punct p).text, (c.next s).pos⟩) s := by
  have hpeek : peek c s = .ok (c.next s) s := rfl
  have hword : propertyWord c s =
      .error (.rejected ⟨.unexpectedToken (Kind.punct p).text, (c.next s).pos⟩) s := by
    simp only [propertyWord, anyWord, bind_apply, hpeek, hk, Kind.word?, unexpected, reject, fail]
  rw [Grammar.propertyKey, bind_apply, hpeek]
  simp only [hk]
  cases p <;> first | exact absurd rfl hp | simp only [bind_apply, hword]

theorem elementRest_refused {p : Punct} (hp : p ≠ .lbracket) (hkey : h.key = none)
    (hk : (c.next s).kind = .punct p) : g.elementRest h c s =
      .error (.rejected ⟨.unexpectedToken (Kind.punct p).text, (c.next s).pos⟩) s := by
  have hpeek : peek c s = .ok (c.next s) s := rfl
  have hnot : (c.next s).kind.isPrivateName = false := by rw [hk]; rfl
  rw [Grammar.elementRest, hkey]
  simp only [bind_apply, hpeek, hnot, Bool.false_eq_true, if_false, propertyKey_refused hp hk]

/-- A word is a name if what follows can only stand behind one. -/
theorem tryModifier_of_word {word : String} {noLineBreak : Bool} (hd : c.dialect = .withPrivate)
    (hkey : h.key = none) (hk : (c.next s).kind = .name word) :
    Grammar.tryModifier h word noLineBreak c s =
      .ok (if Grammar.isMemberFollower (c.next s.skip).kind || (noLineBreak &&
          ((c.next s.skip).kind == .eof || (c.next s.skip).kind == .punct .rbrace ||
            (c.next s.skip).newlineBefore))
        then (false, { h with key := some ⟨(c.next s).node (.identifier word), false⟩ })
        else (true, h)) s.skip := by
  have hpeek : peek c s = .ok (c.next s) s := rfl
  have haccept : acceptKind (.name word) c s = .ok true s.skip :=
    acceptKind_eq_ok.2 (Or.inl ⟨hk, rfl, rfl⟩)
  have hends : Grammar.endsMemberName c s.skip =
      .ok (Grammar.isMemberFollower (c.next s.skip).kind) s.skip := by
    have hpeek' : peek c s.skip = .ok (c.next s.skip) s.skip := rfl
    have hcontext : Parser.context c s.skip = .ok c s.skip := rfl
    simp only [Grammar.endsMemberName, bind_apply, hpeek', hcontext, hd]
    rfl
  have hbreak : canInsertSemicolon c s.skip = .ok ((c.next s.skip).kind == .eof ||
      (c.next s.skip).kind == .punct .rbrace || (c.next s.skip).newlineBefore) s.skip := rfl
  have hnone : h.key.isSome = false := by rw [hkey]; rfl
  simp only [Grammar.tryModifier, Grammar.modifierWord, bind_apply, hpeek, haccept, if_true, hends,
    hbreak, hnone, Bool.false_eq_true, if_false]
  split_ifs
  · rfl
  · rfl

theorem tryModifier_absent {word : String} {noLineBreak : Bool}
    (hk : (c.next s).kind ≠ .name word) :
    Grammar.tryModifier h word noLineBreak c s = .ok (false, h) s := by
  have hpeek : peek c s = .ok (c.next s) s := rfl
  have haccept : acceptKind (.name word) c s = .ok false s :=
    acceptKind_eq_ok.2 (Or.inr ⟨hk, rfl, rfl⟩)
  simp only [Grammar.tryModifier, Grammar.modifierWord, bind_apply, hpeek, haccept,
    Bool.false_eq_true, if_false, pure_apply]

/-- Either accessor's word is taken, whether it is a name or not. -/
theorem accessorWord_word {h' : Grammar.Head} (hd : c.dialect = .withPrivate) (hkey : h.key = none)
    (hrun : Grammar.accessorWord h c s = .ok h' t) :
    ((c.next s).kind = .name "get" ∨ (c.next s).kind = .name "set") ∧ s.skip = t ∨
      h' = h ∧ s = t := by
  rw [Grammar.accessorWord, bind_apply] at hrun
  by_cases hget : (c.next s).kind = .name "get"
  · left
    refine ⟨Or.inl hget, ?_⟩
    rw [tryModifier_of_word hd hkey hget] at hrun
    by_cases hname : Grammar.isMemberFollower (c.next s.skip).kind
    · have hset : (c.next s.skip).kind ≠ .name "set" := fun hk => by
        simp [hk, Grammar.isMemberFollower] at hname
      simp only [hname, Bool.true_or, if_true, Bool.false_eq_true, if_false, bind_apply,
        tryModifier_absent hset, pure_apply, Reply.ok.injEq] at hrun
      exact hrun.2
    · simp only [hname, Bool.false_and, Bool.or_false, if_true, Bool.false_eq_true, if_false,
        pure_apply, Reply.ok.injEq] at hrun
      exact hrun.2
  · rw [tryModifier_absent hget] at hrun
    simp only [Bool.false_eq_true, if_false, bind_eq_ok] at hrun
    obtain ⟨⟨isSetter, h₂⟩, u, hset, hrun⟩ := hrun
    obtain ⟨rfl, rfl⟩ := pure_eq_ok.1 hrun
    rcases Grammar.tryModifier_word hset with ⟨hn, hu, -⟩ | ⟨-, rfl, rfl, hu⟩
    · exact Or.inl ⟨Or.inr hn, hu⟩
    · exact Or.inr ⟨rfl, hu⟩

/-! Members that begin with `async`. -/

/-- The word `async` names a property without a problem. -/
theorem propertyWord_async {i : Ident} (hk : (c.next s).kind = .name "async")
    (hrun : propertyWord c s = .ok i t) : i = ⟨"async", (c.next s).pos⟩ ∧ s.skip = t := by
  refine ⟨Grammar.propertyWord_name hk hrun, ?_⟩
  have hcheck {d : Context} {u v : State} {pos : Position} {x : Unit}
      (h : checkUnreserved "async" pos d u = .ok x v) : u = v := by
    have hkeyword : (Keyword.ofWord? "async").isSome = false := by decide
    have hreserved : d.isReserved "async" = false := by
      simp [Context.isReserved, reservedWords, strictReservedWords]
    simp only [checkUnreserved, bind_eq_ok, context_eq_ok] at h
    obtain ⟨_, _, ⟨rfl, rfl⟩, h⟩ := h
    simpa [hkeyword, hreserved] using h
  simp only [propertyWord, checkIfNever, bind_eq_ok, anyWord_eq_ok, pure_eq_ok, context_eq_ok,
    ite_eq_ok] at hrun
  obtain ⟨_, _, ⟨word, hword, rfl, rfl⟩, _, u, ⟨_, _, ⟨rfl, rfl⟩, hchecked⟩, -, rfl⟩ := hrun
  obtain rfl : "async" = word := by simpa [hk, Kind.word?] using hword
  rcases hchecked with ⟨-, hchecked⟩ | ⟨-, -, hsame⟩
  · exact hcheck hchecked
  · exact hsame

/-- One token before the semicolon, and the other run before the brace. -/
theorem exists_last (h : q.Left 1 s) (hnot : ¬ q.Left 2 s) :
    s.pending = c.next s :: q.first ∧ s.skip.pending = q.first := by
  obtain ⟨x, zs, hzs⟩ := h.cons
  cases zs with
  | nil => simp [Context.next, State.skip, hzs]
  | cons y zs => exact absurd (left_iff.2 ⟨x :: y :: zs, by simp [hzs], by simp⟩) hnot

/-- A static member without parameters and modifiers is the field that it looks like. -/
theorem methodOrField_field {k : Grammar.PropertyKey} (hparen : (c.next s).kind ≠ .punct .lparen)
    (hedition : 8 ≤ c.options.edition.number) (hstatic : h.isStatic = true)
    (hmodifiers : h.modifiers = .absent) (hname : k.name? ≠ some (.ofString "constructor"))
    (hfield : g.fieldElement h k c s = .ok n t) : g.methodOrField h k c s = .ok n t := by
  refine bind_eq_ok.2 ⟨false, s, check_eq_ok.2 ⟨by simpa using hparen, rfl⟩, ?_⟩
  refine bind_eq_ok.2 ⟨c, s, rfl, ?_⟩
  rw [if_pos (by
    simp [hstatic, hmodifiers, hedition, Grammar.Modifiers.areAbsent, Grammar.Modifiers.absent])]
  refine bind_eq_ok.2 ⟨n, t, hfield, ?_⟩
  rw [Grammar.checkStaticConstructor, if_neg (by simp [hname])]
  rfl

theorem asyncElement_last (hq : q.Drops) (hg : q.Keeps g) (hc : c.finish.kind = .eof)
    (hd : c.dialect = .withPrivate) (hedition : 8 ≤ c.options.edition.number)
    (hword : (c.next s).kind = .name "async") (hs : s.skip.pending = q.first)
    (hleft : q.Left 1 s) (hkey : h.key = none) (hmodifiers : h.modifiers = .absent)
    (hstatic : h.isStatic = true) (hrun : g.asyncElement h c s = .ok n t) (hmeets : q.Meets t) :
    g.asyncElement h (q.context c) (q.state s) = .ok n (q.beyond t) := by
  have hnext : (s.pending.drop 1).headD c.finish = c.next s.skip := Grammar.next_skip c s
  have hnext' : ((q.state s).pending.drop 1).headD (q.context c).finish =
      (q.context c).next (q.state s).skip := Grammar.next_skip _ _
  have hbrace : ((q.context c).next (q.state s).skip).kind = .punct .rbrace :=
    hq.next_skip hleft hs
  have hsemi : (c.next s.skip).kind = .punct .semicolon := hq.next_first hs
  -- this run takes the word for the name of a field because of the semicolon
  obtain ⟨_, _, hpeek, hrun⟩ := bind_eq_ok.1 hrun
  obtain ⟨rfl, rfl⟩ := peekAt_eq_ok.1 hpeek
  rw [hnext, if_pos (by simp [hstatic, hsemi])] at hrun
  obtain ⟨name, u, hname, hrun⟩ := bind_eq_ok.1 hrun
  obtain ⟨rfl, rfl⟩ := propertyWord_async hword hname
  have hfield := (fieldElement_closes hq hg h _ (S := .anywhere) hc trivial hrun).2
    (left_iff.2 ⟨[], hs, Nat.le_refl _⟩) hmeets
  -- the other one does so because a member may end at the brace
  have htry : Grammar.tryModifier h "async" true (q.context c) (q.state s) =
      .ok (false, { h with key := some ⟨(c.next s).node (.identifier "async"), false⟩ })
        (q.state s.skip) := by
    have hword' : ((q.context c).next (q.state s)).kind = .name "async" := by
      rwa [next_state hleft]
    rw [tryModifier_of_word (c := q.context c) hd hkey hword', if_pos (by simp [hbrace]),
      next_state hleft, skip_state hleft]
  have hpeek' : peekAt 1 (q.context c) (q.state s) =
      .ok ((q.context c).next (q.state s).skip) (q.state s) := by
    rw [← hnext']
    rfl
  rw [Grammar.asyncElement, bind_apply, hpeek']
  simp only [hbrace]
  rw [if_neg (by simp), bind_apply, htry]
  refine methodOrField_field (c := q.context c) ?_ hedition hstatic hmodifiers ?_ hfield
  · rw [← skip_state hleft, hbrace]
    decide
  · show some (Text.ofString "async") ≠ some (Text.ofString "constructor")
    decide

/-- A member that begins with `async` ends at the brace as well. -/
theorem asyncElement_beyond (hq : q.Drops) (hg : q.Keeps g) (hc : c.finish.kind = .eof)
    (hd : c.dialect = .withPrivate) (hedition : 8 ≤ c.options.edition.number)
    (hword : (c.next s).kind = .name "async") (hkey : h.key = none)
    (hmodifiers : h.modifiers = .absent) (hstatic : s.skip.pending = q.first → h.isStatic = true)
    (hrun : g.asyncElement h c s = .ok n t) (hs : q.Left 0 s) (hmeets : q.Meets t) :
    g.asyncElement h (q.context c) (q.state s) = .ok n (q.beyond t) := by
  have hleft : q.Left 1 s := hq.left_of_ne (c := c) hs (by simp [hword])
  by_cases hmore : q.Left 2 s
  · obtain ⟨w, hw, hsame⟩ := Looks.peekAt (q := q) 1 (s := s) hc
    rw [Grammar.asyncElement, bind_apply, hw] at hrun
    rw [Grammar.asyncElement, bind_apply, hsame hmore]
    dsimp only
    rcases ite_eq_ok.1 hrun with ⟨hfield, hrun⟩ | ⟨hnot, hrun⟩
    · have hrule : q.Closes .anywhere (do
          let name ← propertyWord
          g.fieldElement h ⟨name.node, false⟩) :=
        .bind hq .propertyWord fun _ => fieldElement_closes hq hg h _
      rw [if_pos hfield]
      exact (hrule hc trivial hrun).2 hs hmeets
    · obtain ⟨⟨isAsync, h'⟩, u, htry, hrun⟩ := bind_eq_ok.1 hrun
      have hu : q.Left 1 u := by
        rcases Grammar.tryModifier_word htry with ⟨-, rfl, -⟩ | ⟨hne, -⟩
        · exact hmore.skip
        · exact absurd hword hne
      have hrule : q.Closes .anywhere
          (if isAsync then do g.elementRest (← Grammar.asyncHead h') else g.elementRest h') :=
        .ite (fun _ => .bind hq (asyncHead h') fun _ => elementRest_closes hq hg _)
          fun _ => elementRest_closes hq hg h'
      rw [if_neg hnot, bind_apply, (tryModifier h "async" true (S := .anywhere) hc trivial
        htry).resumes hu]
      exact (hrule hc trivial hrun).2 (hu.mono (Nat.zero_le 1)) hmeets
  · have hskip := (exists_last (c := c) hleft hmore).2
    exact asyncElement_last hq hg hc hd hedition hword hskip hleft hkey hmodifiers
      (hstatic hskip) hrun hmeets

/-! Members that begin with an accessor's word. -/

/-- The other run is refused at the brace. -/
def Refuses (q : Endings) (x : Reply α) : Prop :=
  ∃ u, x = .error (.rejected
    ⟨.unexpectedToken (Kind.punct .rbrace).text, (q.second.headD q.finish).pos⟩) u

/-- The words that make accessors. -/
def isAccessorWord (k : Kind) : Prop := k = .name "get" ∨ k = .name "set"

/-- An accessor's word modifies what follows, unless that can only stand behind a name. -/
theorem accessorWord_modifier (hd : c.dialect = .withPrivate) (hkey : h.key = none)
    (hword : isAccessorWord (c.next s).kind)
    (hnot : Grammar.isMemberFollower (c.next s.skip).kind = false) :
    ∃ a, Grammar.accessorWord h c s = .ok (h.withAccessor a) s.skip := by
  rcases hword with hget | hset
  · refine ⟨.get, ?_⟩
    rw [Grammar.accessorWord, bind_apply, tryModifier_of_word hd hkey hget, if_neg (by simp [hnot])]
    rfl
  · refine ⟨.set, ?_⟩
    rw [Grammar.accessorWord, bind_apply, tryModifier_absent (by simp [hset])]
    simp only [Bool.false_eq_true, if_false]
    rw [bind_apply, tryModifier_of_word hd hkey hset, if_neg (by simp [hnot])]
    rfl

/-- Before a brace, the word is taken for a modifier, and the key that it modifies is missing. -/
theorem accessorElement_refused (hq : q.Drops) (hd : c.dialect = .withPrivate)
    (hkey : h.key = none) (hleft : q.Left 1 s) (hs : s.skip.pending = q.first)
    (hword : isAccessorWord (c.next s).kind) :
    q.Refuses ((Grammar.accessorWord h >>= g.elementRest) (q.context c) (q.state s)) := by
  have hbrace : ((q.context c).next (q.state s).skip).kind = .punct .rbrace :=
    hq.next_skip hleft hs
  obtain ⟨a, ha⟩ := accessorWord_modifier (c := q.context c) (s := q.state s) hd hkey
    (by rwa [next_state hleft]) (by rw [hbrace]; rfl)
  have hrefused := elementRest_refused (g := g) (h := h.withAccessor a) (p := .rbrace) (by decide)
    hkey hbrace
  rw [skip_beyond hleft hs] at ha hrefused
  rw [bind_apply, ha]
  exact ⟨_, hrefused⟩

/-- A member that may begin with an accessor's word ends at the brace as well, or it is that word
alone and is refused there. -/
theorem accessorElement_beyond (hq : q.Drops) (hg : q.Keeps g) (hc : c.finish.kind = .eof)
    (hd : c.dialect = .withPrivate) (hkey : h.key = none)
    (hrun : (Grammar.accessorWord h >>= g.elementRest) c s = .ok n t) (hs : q.Left 0 s)
    (hmeets : q.Meets t) :
    (Grammar.accessorWord h >>= g.elementRest) (q.context c) (q.state s) = .ok n (q.beyond t) ∨
      (isAccessorWord (c.next s).kind ∧ q.Left 1 s ∧ s.skip.pending = q.first) ∧
        q.Refuses ((Grammar.accessorWord h >>= g.elementRest) (q.context c) (q.state s)) := by
  obtain ⟨h', u, haccessor, hrest⟩ := bind_eq_ok.1 hrun
  have haccessor' := accessorWord (q := q) h (S := .anywhere) hc trivial haccessor
  have hmember := elementRest_closes hq hg h' (S := .anywhere) hc trivial hrest
  have hu : q.Left 0 u := hq.left_behind haccessor' hs hmember.1 hmeets
  by_cases hmore : q.Left 1 u
  · left
    rw [bind_apply, haccessor'.resumes hmore]
    exact hmember.2 hu hmeets
  · have hfirst := hu.at_end hmore
    rcases accessorWord_word hd hkey haccessor with ⟨hword, rfl⟩ | ⟨rfl, rfl⟩
    · have hleft : q.Left 1 s :=
        hq.left_of_ne (c := c) hs (by rcases hword with hk | hk <;> simp [hk])
      exact Or.inr ⟨⟨hword, hleft, hfirst⟩,
        accessorElement_refused hq hd hkey hleft hfirst hword⟩
    · have hsemi := hq.next_first (c := c) hfirst
      rw [elementRest_refused (p := .semicolon) (by decide) hkey hsemi] at hrest
      cases hrest

/-! Members that may be fields. -/

theorem extendedElement_star (hk : (c.next s).kind = .punct .star) : g.extendedElement h c s =
    g.elementRest { h with modifiers := ⟨false, true, none⟩ } c s.skip := by
  have hstar : accept .star c s = .ok true s.skip := accept_eq_ok.2 (Or.inl ⟨hk, rfl, rfl⟩)
  rw [Grammar.extendedElement, bind_apply, hstar]
  rfl

theorem extendedElement_word (hk : (c.next s).kind ≠ .punct .star) : g.extendedElement h c s =
    (if 8 ≤ c.options.edition.number ∧ (c.next s).kind = .name "async" then g.asyncElement h
      else Grammar.accessorWord h >>= g.elementRest) c s := by
  have hstar : accept .star c s = .ok false s := accept_eq_ok.2 (Or.inr ⟨hk, rfl, rfl⟩)
  have hcontext : Parser.context c s = .ok c s := rfl
  have hasync : checkWord "async" c s = .ok ((c.next s).kind == .name "async") s := rfl
  rw [Grammar.extendedElement, bind_apply, hstar]
  simp only [Bool.false_eq_true, if_false, bind_apply, hcontext, hasync, Bool.and_eq_true,
    decide_eq_true_eq, beq_iff_eq]

/-- Both runs see a kind that cannot stand behind an expression, or neither does. -/
theorem next_kind_iff {k : Kind} (hk : ¬ k.EndsExpression) (hc : c.finish.kind = .eof)
    (hs : q.Left 0 s) : ((q.context c).next (q.state s)).kind = k ↔ (c.next s).kind = k := by
  by_cases hleft : q.Left 1 s
  · rw [next_state hleft]
  · obtain ⟨hfirst, hsecond⟩ := next_ends hc hs hleft
    exact iff_of_false (fun h => hk (h ▸ hsecond)) fun h => hk (h ▸ hfirst)

/-- A member that may be a field ends at the brace as well, or it is refused there. -/
theorem extendedElement_beyond (hq : q.Drops) (hg : q.Keeps g) (hc : c.finish.kind = .eof)
    (hd : c.dialect = .withPrivate) (hkey : h.key = none) (hmodifiers : h.modifiers = .absent)
    (hstatic : (c.next s).kind = .name "async" → s.skip.pending = q.first → h.isStatic = true)
    (hrun : g.extendedElement h c s = .ok n t) (hs : q.Left 0 s) (hmeets : q.Meets t) :
    g.extendedElement h (q.context c) (q.state s) = .ok n (q.beyond t) ∨
      (isAccessorWord (c.next s).kind ∧ q.Left 1 s ∧ s.skip.pending = q.first) ∧
        q.Refuses (g.extendedElement h (q.context c) (q.state s)) := by
  by_cases hstar : (c.next s).kind = .punct .star
  · have hleft : q.Left 1 s := hq.left_of_ne (c := c) hs (by simp [hstar])
    rw [extendedElement_star hstar] at hrun
    rw [extendedElement_star (by rwa [next_state hleft]), skip_state hleft]
    exact Or.inl ((elementRest_closes hq hg _ (S := .anywhere) hc trivial hrun).2 hleft.skip hmeets)
  have hasync := next_kind_iff (k := .name "async") (by decide) hc hs
  rw [extendedElement_word hstar] at hrun
  rw [extendedElement_word (mt (next_kind_iff (by decide) hc hs).1 hstar)]
  by_cases hword : 8 ≤ c.options.edition.number ∧ (c.next s).kind = .name "async"
  · rw [if_pos hword] at hrun
    rw [if_pos ⟨hword.1, hasync.2 hword.2⟩]
    exact Or.inl (asyncElement_beyond hq hg hc hd hword.1 hword.2 hkey hmodifiers
      (hstatic hword.2) hrun hs hmeets)
  · rw [if_neg hword] at hrun
    rw [if_neg fun h => hword ⟨h.1, hasync.1 h.2⟩]
    exact accessorElement_beyond hq hg hc hd hkey hrun hs hmeets

/-! Members of both kinds. -/

/-- Before what may stand behind an expression, only a private name itself begins a private
member. -/
theorem startsPrivateElement_last
    (hends : ((s.pending.drop 1).headD c.finish).kind.EndsExpression) :
    Grammar.startsPrivateElement c s = .ok (c.next s).kind.isPrivateName s := by
  have hnot : ((s.pending.drop 1).headD c.finish).kind.isPrivateName = false := by
    rcases hends with hk | hk | hk | hk | hk <;> rw [hk] <;> rfl
  have hstar : (((s.pending.drop 1).headD c.finish).kind == .punct .star) = false := by
    rcases hends with hk | hk | hk | hk | hk <;> rw [hk] <;> rfl
  have hpeek : peek c s = .ok (c.next s) s := rfl
  have hnext : peekAt 1 c s = .ok ((s.pending.drop 1).headD c.finish) s := rfl
  -- a token behind which the look ahead goes on is no private name itself
  have hlater (h : (c.next s).kind.isPrivateName = false) :
      (do return (← peekAt 1).kind.isPrivateName : Parser Bool) c s =
        .ok (c.next s).kind.isPrivateName s := by
    rw [bind_apply, hnext, h, ← hnot]
    rfl
  simp only [Grammar.startsPrivateElement, bind_apply, hpeek, hnext, hstar, Bool.false_eq_true,
    if_false]
  split_ifs with hgenerator _ hasync haccessor
  · exact hlater (by rw [beq_iff_eq.1 hgenerator]; rfl)
  · rfl
  · exact hlater (by rw [beq_iff_eq.1 (Bool.and_eq_true_iff.1 hasync).1]; rfl)
  · rcases Bool.or_eq_true_iff.1 haccessor with hk | hk
    · exact hlater (by rw [beq_iff_eq.1 hk]; rfl)
    · exact hlater (by rw [beq_iff_eq.1 hk]; rfl)
  · rfl

/-- A member without the words before it. -/
theorem plainElement_not_static (hq : q.Drops) (hg : q.Keeps g) (hc : c.finish.kind = .eof)
    (hword : (c.next s).kind = .name "static") (hs : s.skip.pending = q.first)
    (hmeets : q.Meets t) : g.plainElement c s ≠ .ok n t := by
  intro hrun
  obtain ⟨start, u, hpeek, hrun⟩ := bind_eq_ok.1 hrun
  obtain ⟨rfl, rfl⟩ := peek_eq_ok.1 hpeek
  obtain ⟨⟨isStatic, h⟩, u, htry, hrun⟩ := bind_eq_ok.1 hrun
  have hu : u.pending = q.first := by
    rcases Grammar.tryModifier_word htry with ⟨-, rfl, -⟩ | ⟨hne, -⟩
    · exact hs
    · exact absurd hword hne
  have hrule : q.Takes .anywhere (do
      let h ← Grammar.plainModifiers { h with isStatic }
      let key ← g.memberKey h
      let kind ← Grammar.methodKindFor h key
      g.methodElement h key kind) :=
    .inner (plainModifiers _) fun _ => .bind (memberKey hg _) fun _ =>
      .bind (methodKindFor _ _) fun _ => methodElement hg _ _ _
  exact hq.not_between (hrule hc trivial hrun) hu hmeets

theorem privateDialectElement_static
    (htry : Grammar.tryModifier (.start (c.next s)) "static" false c s = .ok (true, h) u) :
    g.privateDialectElement c s = g.extendedElement { h with isStatic := true } c u := by
  have hpeek : peek c s = .ok (c.next s) s := rfl
  have hpending : Parser.pending c s = .ok s.pending s := rfl
  simp only [Grammar.privateDialectElement, bind_apply, hpeek, hpending, htry, if_true]

/-- A member without `static` is read again. -/
theorem privateDialectElement_other
    (htry : Grammar.tryModifier (.start (c.next s)) "static" false c s = .ok (false, h) u) :
    g.privateDialectElement c s =
      (do if ← Grammar.startsPrivateElement then g.extendedElement (.start (c.next s))
          else g.plainElement : Parser Node) c s := by
  have hpeek : peek c s = .ok (c.next s) s := rfl
  have hpending : Parser.pending c s = .ok s.pending s := rfl
  have hrestore : restore s.pending c u = .ok () s :=
    congrArg (Reply.ok ()) (Grammar.tryModifier_restore htry)
  simp only [Grammar.privateDialectElement, bind_apply, hpeek, hpending, htry, hrestore,
    Bool.false_eq_true, if_false]

/-- The last member of a class is a static field that is called like an accessor's word. -/
def EndsWithAccessorWord (q : Endings) (s : State) : Prop :=
  ∃ zs z w, s.pending = zs ++ z :: w :: q.first ∧ z.kind = .name "static" ∧ isAccessorWord w.kind

theorem EndsWithAccessorWord.since (h : q.EndsWithAccessorWord t) (ht : t.pending <:+ s.pending) :
    q.EndsWithAccessorWord s := by
  obtain ⟨ys, hys⟩ := ht
  obtain ⟨zs, z, w, hzs, hwords⟩ := h
  exact ⟨ys ++ zs, z, w, by rw [← hys, hzs, List.append_assoc], hwords⟩

theorem Refuses.bind {p : Parser α} {f : α → Parser β} (h : q.Refuses (p c s)) :
    q.Refuses ((p >>= f) c s) := by
  obtain ⟨u, hu⟩ := h
  exact ⟨u, by rw [bind_apply, hu]⟩

/-- The other run reads the same, or it is refused because of what the last member is called. -/
def ReadsOrRefuses (q : Endings) (s : State) (a : α) (t : State) (x : Reply α) : Prop :=
  x = .ok a t ∨ q.EndsWithAccessorWord s ∧ q.Refuses x

namespace ReadsOrRefuses

variable {a : α} {b : β}

theorem since {x : Reply α} (h : q.ReadsOrRefuses u a t x) (hu : u.pending <:+ s.pending) :
    q.ReadsOrRefuses s a t x :=
  h.imp_right fun h => ⟨h.1.since hu, h.2⟩

theorem bind {p : Parser α} {f : α → Parser β} {v : State}
    (h : q.ReadsOrRefuses s a u (p c v)) (hf : q.ReadsOrRefuses s b t (f a c u)) :
    q.ReadsOrRefuses s b t ((p >>= f) c v) := by
  rcases h with hsame | ⟨hends, hrefused⟩
  · rw [bind_apply, hsame]
    exact hf
  · exact Or.inr ⟨hends, hrefused.bind⟩

end ReadsOrRefuses

theorem staticElement_beyond (hq : q.Drops) (hg : q.Keeps g) (hc : c.finish.kind = .eof)
    (hd : c.dialect = .withPrivate)
    (htry : Grammar.tryModifier (.start (c.next s)) "static" false c s = .ok (true, h) u)
    (hrun : g.extendedElement { h with isStatic := true } c u = .ok n t) (hs : q.Left 0 s)
    (hmeets : q.Meets t) :
    q.ReadsOrRefuses s n (q.beyond t) (g.privateDialectElement (q.context c) (q.state s)) := by
  obtain rfl : h = .start (c.next s) := (Grammar.tryModifier_key htry).2 rfl
  have htry' := tryModifier (q := q) (.start (c.next s)) "static" false (S := .anywhere) hc trivial
    htry
  have hmember := extendedElement hg (h := { Grammar.Head.start (c.next s) with isStatic := true })
    rfl (S := .anywhere) hc trivial hrun
  have hu : q.Left 0 u := hq.left_behind htry' hs hmember.suffix hmeets
  obtain ⟨hword, rfl⟩ : (c.next s).kind = .name "static" ∧ s.skip = u := by
    rcases Grammar.tryModifier_word htry with ⟨hword, hskip, -⟩ | ⟨-, hb, -⟩
    · exact ⟨hword, hskip⟩
    · cases hb
  have hmore : q.Left 1 s.skip := by
    -- before the semicolon, the word would be a name
    by_contra hnot
    have hnext := hq.next_first (c := c) (hu.at_end hnot)
    rw [tryModifier_of_word hd rfl hword, if_pos (by rw [hnext]; rfl)] at htry
    cases htry
  have hleft : q.Left 1 s := hmore.since s.passes_skip.pending
  have hrun' := htry'.resumes hmore
  rw [← next_state hleft] at hrun'
  rw [privateDialectElement_static hrun', next_state hleft]
  rcases extendedElement_beyond hq hg hc hd rfl rfl (fun _ _ => rfl) hrun hu hmeets with
    hsame | ⟨⟨haccessor, -, hlast⟩, hrefused⟩
  · exact Or.inl hsame
  · refine Or.inr ⟨⟨[], c.next s, c.next s.skip, ?_, hword, haccessor⟩, hrefused⟩
    have hne : (c.next s.skip).kind ≠ .eof := by rcases haccessor with hk | hk <;> simp [hk]
    rw [List.nil_append, ← hlast, ← Context.pending_eq hc hne]
    exact Context.pending_eq hc (by simp [hword])

/-- The look ahead for a private member sees the same before the brace. Behind a word alone it finds
none. -/
theorem startsPrivateElement_beyond (hq : q.Drops) (hc : c.finish.kind = .eof)
    {starts : Bool} (hstarts : Grammar.startsPrivateElement c s = .ok starts s)
    (hleft : q.Left 1 s) :
    Grammar.startsPrivateElement (q.context c) (q.state s) = .ok starts (q.state s) ∧
      (s.skip.pending = q.first → starts = (c.next s).kind.isPrivateName) := by
  have hlast (hskip : s.skip.pending = q.first) : starts = (c.next s).kind.isPrivateName := by
    have hends : ((s.pending.drop 1).headD c.finish).kind.EndsExpression := by
      rw [Grammar.next_skip, hq.next_first hskip]
      decide
    rw [startsPrivateElement_last hends] at hstarts
    exact (Reply.ok.inj hstarts).1.symm
  refine ⟨?_, hlast⟩
  by_cases hmore : q.Left 2 s
  · obtain ⟨a, ha, hsame⟩ := startsPrivateElement (q := q) (s := s) hc
    cases hstarts.symm.trans ha
    exact hsame hmore
  · have hskip := (exists_last (c := c) hleft hmore).2
    rw [hlast hskip, ← next_state hleft]
    refine startsPrivateElement_last ?_
    rw [Grammar.next_skip, hq.next_skip hleft hskip]
    decide

/-- A member that begins without `static` does so in the other run, where a token is left behind
the word. -/
theorem tryModifier_static_absent (hc : c.finish.kind = .eof)
    (htry : Grammar.tryModifier (.start (c.next s)) "static" false c s = .ok (false, h) u)
    (hleft : q.Left 1 s) (hmore : (c.next s).kind = .name "static" → q.Left 2 s) :
    ∃ h' u', Grammar.tryModifier (.start ((q.context c).next (q.state s))) "static" false
      (q.context c) (q.state s) = .ok (false, h') u' := by
  by_cases hword : (c.next s).kind = .name "static"
  · have hu : q.Left 1 u := by
      rcases Grammar.tryModifier_word htry with ⟨-, rfl, -⟩ | ⟨hne, -⟩
      · exact (hmore hword).skip
      · exact absurd hword hne
    rw [next_state hleft]
    exact ⟨_, _, (tryModifier _ "static" false (S := .anywhere) hc trivial htry).resumes hu⟩
  · exact ⟨_, _, tryModifier_absent (by rwa [next_state hleft])⟩

theorem otherElement_beyond (hq : q.Drops) (hg : q.Keeps g) (hc : c.finish.kind = .eof)
    (hd : c.dialect = .withPrivate)
    (htry : Grammar.tryModifier (.start (c.next s)) "static" false c s = .ok (false, h) u)
    (hrun : (do if ← Grammar.startsPrivateElement then g.extendedElement (.start (c.next s))
                else g.plainElement : Parser Node) c s = .ok n t)
    (hs : q.Left 0 s) (hmeets : q.Meets t) :
    g.privateDialectElement (q.context c) (q.state s) = .ok n (q.beyond t) := by
  obtain ⟨starts, v, hstarts, hrest⟩ := bind_eq_ok.1 hrun
  obtain ⟨a, ha, -⟩ := startsPrivateElement (q := q) (s := s) hc
  cases hstarts.symm.trans ha
  have hleft : q.Left 1 s := by
    by_contra hnot
    have hfirst := hs.at_end hnot
    rw [startsPrivateElement_last (hq.behind_first hc hfirst), hq.next_first hfirst] at hstarts
    cases hstarts
    exact hq.not_between (plainElement hg (S := .anywhere) hc trivial hrest) hfirst hmeets
  obtain ⟨hstarts', hlast⟩ := startsPrivateElement_beyond hq hc hstarts hleft
  -- a name alone before the semicolon begins no private member, and no other one either
  have hname (word : String) (hword : (c.next s).kind = .name word)
      (hskip : s.skip.pending = q.first) : starts = false := by
    rw [hlast hskip, hword]
    rfl
  have hmore (hword : (c.next s).kind = .name "static") : q.Left 2 s := by
    by_contra hnot
    have hskip := (exists_last (c := c) hleft hnot).2
    rw [hname _ hword hskip] at hrest
    exact plainElement_not_static hq hg hc hword hskip hmeets hrest
  obtain ⟨h', u', htry'⟩ := tryModifier_static_absent hc htry hleft hmore
  rw [privateDialectElement_other htry', next_state hleft, bind_apply, hstarts']
  cases starts with
  | true =>
    rcases extendedElement_beyond hq hg hc hd rfl rfl
      (fun hword hskip => nomatch hname _ hword hskip) hrest hs hmeets with
      hsame | ⟨⟨hword, -, hskip⟩, -⟩
    · exact hsame
    · rcases hword with hk | hk
      · exact nomatch hname _ hk hskip
      · exact nomatch hname _ hk hskip
  | false =>
    exact (Closes.of_runs hq (plainElement hg (S := .anywhere)) hc trivial hrest).2 hs hmeets

/-- A member ends at the brace as well, unless it is a static field that is called like the word of
an accessor. -/
theorem privateDialectElement_beyond (hq : q.Drops) (hg : q.Keeps g) (hc : c.finish.kind = .eof)
    (hd : c.dialect = .withPrivate) (hrun : g.privateDialectElement c s = .ok n t)
    (hs : q.Left 0 s) (hmeets : q.Meets t) :
    q.ReadsOrRefuses s n (q.beyond t) (g.privateDialectElement (q.context c) (q.state s)) := by
  have htry : ∃ isStatic h u, Grammar.tryModifier (.start (c.next s)) "static" false c s =
      .ok (isStatic, h) u := by
    obtain ⟨_, _, hpeek, hrun⟩ := bind_eq_ok.1 hrun
    obtain ⟨rfl, rfl⟩ := peek_eq_ok.1 hpeek
    obtain ⟨_, _, hpending, hrun⟩ := bind_eq_ok.1 hrun
    obtain ⟨rfl, rfl⟩ := pending_eq_ok.1 hpending
    obtain ⟨⟨isStatic, h⟩, u, htry, -⟩ := bind_eq_ok.1 hrun
    exact ⟨isStatic, h, u, htry⟩
  obtain ⟨isStatic, h, u, htry⟩ := htry
  cases isStatic with
  | true =>
    rw [privateDialectElement_static htry] at hrun
    exact staticElement_beyond hq hg hc hd htry hrun hs hmeets
  | false =>
    rw [privateDialectElement_other htry] at hrun
    exact Or.inl (otherElement_beyond hq hg hc hd htry hrun hs hmeets)

/-! Classes. -/

theorem classElement_semicolon (hk : (c.next s).kind = .punct .semicolon) :
    g.classElement c s = .ok none s.skip := by
  have haccept : accept .semicolon c s = .ok true s.skip := accept_eq_ok.2 (Or.inl ⟨hk, rfl, rfl⟩)
  rw [Grammar.classElement, bind_apply, haccept]
  rfl

theorem classElement_member (hd : c.dialect = .withPrivate)
    (hk : (c.next s).kind ≠ .punct .semicolon) :
    g.classElement c s = (do return some (← g.privateDialectElement) : Parser _) c s := by
  have haccept : accept .semicolon c s = .ok false s := accept_eq_ok.2 (Or.inr ⟨hk, rfl, rfl⟩)
  have hcontext : Parser.context c s = .ok c s := rfl
  rw [Grammar.classElement, bind_apply, haccept]
  simp only [Bool.false_eq_true, if_false]
  rw [bind_apply, hcontext]
  simp only [hd]

/-- A member, or the stray semicolon that the other run lacks. -/
theorem classElement_beyond (hq : q.Drops) (hg : q.Keeps g) (hc : c.finish.kind = .eof)
    (hd : c.dialect = .withPrivate) {member : Option Node}
    (hrun : g.classElement c s = .ok member t) (hs : q.Left 0 s) (hmeets : q.Meets t) :
    q.Left 1 s ∧
        q.ReadsOrRefuses s member (q.beyond t) (g.classElement (q.context c) (q.state s)) ∨
      member = none ∧ s.pending = q.first ∧ s.skip = t := by
  by_cases hleft : q.Left 1 s
  · refine Or.inl ⟨hleft, ?_⟩
    by_cases hk : (c.next s).kind = .punct .semicolon
    · rw [classElement_semicolon hk] at hrun
      obtain ⟨rfl, rfl⟩ := Reply.ok.inj hrun
      have ht : s.skip.pending = q.first := hq.first_of_left hleft.skip hmeets
      left
      rw [classElement_semicolon (by rwa [next_state hleft]), skip_state hleft, state_beyond ht]
    · rw [classElement_member hd hk] at hrun
      rw [classElement_member (c := q.context c) hd (by rwa [next_state hleft])]
      obtain ⟨n, u, hmember, hrun⟩ := bind_eq_ok.1 hrun
      obtain ⟨rfl, rfl⟩ := pure_eq_ok.1 hrun
      exact (privateDialectElement_beyond hq hg hc hd hmember hs hmeets).bind (Or.inl rfl)
  · have hfirst := hs.at_end hleft
    rw [classElement_semicolon (hq.next_first hfirst)] at hrun
    obtain ⟨rfl, rfl⟩ := Reply.ok.inj hrun
    exact Or.inr ⟨rfl, hfirst, rfl⟩

end Endings

end JsClass
