import JsClass.Proofs.Extension.Functions
import JsClass.Proofs.Grammar.Members

/-!
The members of classes in both dialects. A word before the key of a member modifies in one of them
and is a name in the other only if a field may go on behind it; the plain dialect never gets past
such a place.
-/
namespace JsClass.Grammar

open JsClass.Parser

variable {g : Grammar} {c : Context} {Q : Prop} {s t u v : State} {n : Node} {h h' : Head}
  {k : PropertyKey} {word : String} {noLineBreak b : Bool}

/-- What comes next cannot go on a member of the plain dialect. -/
def Blocked (c : Context) (s : State) : Prop :=
  (c.next s).kind = .punct .eq ∨ (c.next s).kind = .punct .semicolon ∨
    (c.next s).kind.isPrivateName = true

theorem Blocked.kind_ne (hb : Blocked c s) {x : Kind} (he : x ≠ .punct .eq)
    (hs : x ≠ .punct .semicolon) (hp : x.isPrivateName = false) : (c.next s).kind ≠ x := by
  rintro rfl
  rcases hb with hb | hb | hb
  · exact he hb
  · exact hs hb
  · rw [hp] at hb
    cases hb

theorem Blocked.name_ne (hb : Blocked c s) : (c.next s).kind ≠ .name word :=
  hb.kind_ne (by simp) (by simp) rfl

theorem Blocked.star_ne (hb : Blocked c s) : (c.next s).kind ≠ .punct .star :=
  hb.kind_ne (by simp) (by simp) rfl

/-! Heads. If the plain dialect is not blocked behind a part of a head, it was not before it. -/

theorem tryModifier_not_blocked (hr : tryModifier h word noLineBreak c s = .ok (b, h') t)
    (ht : ¬ Blocked c t) : ¬ Blocked c s := by
  rcases tryModifier_word hr with ⟨hn, -⟩ | ⟨-, -, -, rfl⟩
  · exact fun hs => hs.name_ne hn
  · exact ht

theorem accessorWord_not_blocked (hr : accessorWord h c s = .ok h' t) (ht : ¬ Blocked c t) :
    ¬ Blocked c s := by
  simp only [accessorWord, bind_eq_ok, ite_eq_ok, pure_eq_ok] at hr
  obtain ⟨⟨b, h₁⟩, u, hu, ⟨-, -, rfl⟩ | ⟨-, ⟨b', h₂⟩, v, hv, -, rfl⟩⟩ := hr
  · exact tryModifier_not_blocked hu ht
  · exact tryModifier_not_blocked hu (tryModifier_not_blocked hv ht)

theorem asyncHead_not_blocked (hr : asyncHead h c s = .ok h' t) (ht : ¬ Blocked c t) :
    ¬ Blocked c s := by
  simp only [asyncHead, bind_eq_ok, pure_eq_ok] at hr
  obtain ⟨_, u, hu, -, rfl⟩ := hr
  rcases asyncStar_next hu with rfl | ⟨hn, -⟩
  · exact ht
  · exact fun hs => hs.star_ne hn

/-- What is read behind a word `async`, by whether it modifies. -/
def AsyncTail (c : Context) (b : Bool) (h : Head) (s : State) (h' : Head) (t : State) : Prop :=
  b = true ∧ asyncHead h c s = .ok h' t ∨ ¬ b = true ∧ accessorWord h c s = .ok h' t

theorem AsyncTail.not_blocked (hr : AsyncTail c b h s h' t) (ht : ¬ Blocked c t) :
    ¬ Blocked c s := by
  rcases hr with ⟨-, hr⟩ | ⟨-, hr⟩
  · exact asyncHead_not_blocked hr ht
  · exact accessorWord_not_blocked hr ht

theorem plainModifiers_cases (hr : plainModifiers h c s = .ok h' t) :
    (c.next s).kind = .punct .star ∧ s.skip = t ∨
      (c.next s).kind ≠ .punct .star ∧ (accessorWord h c s = .ok h' t ∨
        ∃ b h₁ u, tryModifier h "async" true c s = .ok (b, h₁) u ∧ AsyncTail c b h₁ u h' t) := by
  simp only [plainModifiers, bind_eq_ok, accept_eq_ok, ite_eq_ok, context_eq_ok, pure_eq_ok] at hr
  obtain ⟨_, u, ⟨hn, rfl, rfl⟩ | ⟨hn, rfl, rfl⟩, hr⟩ := hr
  · obtain ⟨-, -, rfl⟩ | ⟨hf, -⟩ := hr
    · exact Or.inl ⟨hn, rfl⟩
    · exact absurd rfl hf
  · obtain ⟨hf, -⟩ | ⟨-, _, _, ⟨rfl, rfl⟩, ⟨-, ⟨b, h₁⟩, v, hv, hr⟩ | ⟨-, hr⟩⟩ := hr
    · cases hf
    · exact Or.inr ⟨hn, Or.inr ⟨b, h₁, v, hv, hr⟩⟩
    · exact Or.inr ⟨hn, Or.inl hr⟩

theorem plainModifiers_not_blocked (hr : plainModifiers h c s = .ok h' t) (ht : ¬ Blocked c t) :
    ¬ Blocked c s := by
  obtain ⟨hn, -⟩ | ⟨-, hr | ⟨b, h₁, u, hu, hr⟩⟩ := plainModifiers_cases hr
  · exact fun hs => hs.star_ne hn
  · exact accessorWord_not_blocked hr ht
  · exact tryModifier_not_blocked hu (hr.not_blocked ht)

/-- The two dialects see the end of a name at the same tokens, apart from those of fields. -/
theorem endsMemberName_follows (hc : c.dialect = .plain) (hs : ¬ Blocked c s)
    (h : endsMemberName c s = .ok b t) : c.Follows Q endsMemberName s b t := by
  intro scope
  left
  have heq : ((c.next s).kind == .punct .eq) = false := by
    simpa using fun hk => hs (Or.inl hk)
  have hsemicolon : ((c.next s).kind == .punct .semicolon) = false := by
    simpa using fun hk => hs (Or.inr (Or.inl hk))
  simp only [endsMemberName, bind_eq_ok, peek_eq_ok, context_eq_ok] at h
  obtain ⟨_, _, ⟨rfl, rfl⟩, _, _, ⟨rfl, rfl⟩, h⟩ := h
  simp only [hc, pure_eq_ok] at h
  obtain ⟨rfl, rfl⟩ := h
  have hrun : endsMemberName c.extended (s.withScope scope) =
      .ok (isMemberFollower (c.next s).kind) (s.withScope scope) := rfl
  rw [hrun]
  simp [isMemberFollower, heq, hsemicolon]

theorem modifierWord_follows (hc : c.dialect = .plain) {m : ModifierWord}
    (h : modifierWord word noLineBreak c s = .ok m t) (ht : ¬ Blocked c t) :
    c.Follows Q (modifierWord word noLineBreak) s m t := by
  simp only [modifierWord, bind_eq_ok, ite_eq_ok, pure_eq_ok] at h
  obtain ⟨_, u, hu, _, v, hv, ⟨hb, _, w, hw, _, x, hx, h⟩ | ⟨hb, rfl, rfl⟩⟩ := h
  · have hstate : v = t := by
      obtain rfl := endsMemberName_eq_ok hw
      obtain ⟨-, rfl⟩ := canInsertSemicolon_eq_ok.1 hx
      obtain ⟨-, -, rfl⟩ | ⟨-, -, rfl⟩ := h
      · rfl
      · rfl
    rw [← hstate] at ht
    refine .step .peek hu (.step (.acceptKind _) hv (.pos hb ((endsMemberName_follows hc ht hw).bind
      (.step .canInsertSemicolon hx ?_))))
    obtain ⟨he, rfl, rfl⟩ | ⟨he, rfl, rfl⟩ := h
    · exact .pos he (.pure _ _)
    · exact .neg he (.pure _ _)
  · exact .step .peek hu (.step (.acceptKind _) hv (.neg hb (.pure _ _)))

theorem tryModifier_follows (hc : c.dialect = .plain) {r : Bool × Head}
    (hr : tryModifier h word noLineBreak c s = .ok r t) (ht : ¬ Blocked c t) :
    c.Follows Q (tryModifier h word noLineBreak) s r t := by
  simp only [tryModifier, bind_eq_ok] at hr
  obtain ⟨m, u, hm, hr⟩ := hr
  cases m with
  | absent | modifier =>
    obtain ⟨rfl, rfl⟩ := pure_eq_ok.1 hr
    exact (modifierWord_follows hc hm ht).bind (.pure _ _)
  | name k =>
    simp only [ite_eq_ok, unexpectedNext_eq_ok, pure_eq_ok, and_false, false_or] at hr
    obtain ⟨hk, rfl, rfl⟩ := hr
    exact (modifierWord_follows hc hm ht).bind (.neg hk (.pure _ _))

theorem accessorWord_follows (hc : c.dialect = .plain) (hr : accessorWord h c s = .ok h' t)
    (ht : ¬ Blocked c t) : c.Follows Q (accessorWord h) s h' t := by
  simp only [accessorWord, bind_eq_ok, ite_eq_ok, pure_eq_ok] at hr
  obtain ⟨⟨b, h₁⟩, u, hu, ⟨hb, rfl, rfl⟩ | ⟨hb, ⟨b', h₂⟩, v, hv, rfl, rfl⟩⟩ := hr
  · exact (tryModifier_follows hc hu ht).bind (.pos hb (.pure _ _))
  · have hblock := tryModifier_not_blocked hv ht
    exact (tryModifier_follows hc hu hblock).bind (.neg hb
      ((tryModifier_follows hc hv ht).bind (.pure _ _)))

theorem asyncHead_quiet (h : Head) : (asyncHead h).Quiet :=
  .bind asyncStar_quiet fun _ => .pure _

theorem plainModifiers_follows (hc : c.dialect = .plain) (hr : plainModifiers h c s = .ok h' t)
    (ht : ¬ Blocked c t) : c.Follows Q (plainModifiers h) s h' t := by
  simp only [plainModifiers, bind_eq_ok, ite_eq_ok, context_eq_ok, pure_eq_ok] at hr
  obtain ⟨_, u, hu, ⟨hb, rfl, rfl⟩ | ⟨hb, _, _, ⟨rfl, rfl⟩, ⟨he, ⟨b, h₁⟩, v, hv, hr⟩ |
    ⟨he, hr⟩⟩⟩ := hr
  · exact .step (.accept _) hu (.pos hb (.pure _ _))
  · refine .step (.accept _) hu (.neg hb (.context rfl (.pos he ?_)))
    have htail : AsyncTail c b h₁ v h' t := hr
    have hblock := htail.not_blocked ht
    rcases hr with ⟨hasync, hr⟩ | ⟨hasync, hr⟩
    · exact (tryModifier_follows hc hv hblock).bind (.pos hasync
        (.of_quiet (asyncHead_quiet _) hr))
    · exact (tryModifier_follows hc hv hblock).bind (.neg hasync (accessorWord_follows hc hr ht))
  · exact .step (.accept _) hu (.neg hb (.context rfl (.neg he (accessorWord_follows hc hr ht))))

/-! A member that has its key already. -/

theorem modifierWord_modifier (hr : modifierWord word noLineBreak c s = .ok .modifier t) :
    (c.next t).kind ≠ .punct .lparen := by
  simp only [modifierWord, endsMemberName, bind_eq_ok, peek_eq_ok, context_eq_ok, ite_eq_ok,
    canInsertSemicolon_eq_ok, pure_eq_ok, reduceCtorEq, and_false, false_and, or_false,
    false_or] at hr
  obtain ⟨_, _, ⟨rfl, rfl⟩, _, u, -, -, _, _, ⟨_, _, ⟨rfl, rfl⟩, _, _, ⟨rfl, rfl⟩, hr⟩, _, _,
    ⟨-, rfl⟩, hb, -, rfl⟩ := hr
  intro hn
  cases hd : c.dialect
  all_goals
    simp only [hd, pure_eq_ok] at hr
    obtain ⟨rfl, rfl⟩ := hr
    simp [hn, isMemberFollower] at hb

theorem tryModifier_of_key (hk : h.key.isSome)
    (hr : tryModifier h word noLineBreak c s = .ok (b, h') t) :
    h' = h ∧ (b = false ∧ s = t ∨ b = true ∧ (c.next t).kind ≠ .punct .lparen) := by
  simp only [tryModifier, bind_eq_ok] at hr
  obtain ⟨m, u, hm, hr⟩ := hr
  cases m with
  | absent =>
    simp only [pure_eq_ok, Prod.mk.injEq] at hr
    obtain ⟨⟨rfl, rfl⟩, rfl⟩ := hr
    refine ⟨rfl, Or.inl ⟨rfl, ?_⟩⟩
    rcases modifierWord_next hm with ⟨hne, -⟩ | ⟨-, -, rfl⟩
    · exact absurd rfl hne
    · rfl
  | modifier =>
    simp only [pure_eq_ok, Prod.mk.injEq] at hr
    obtain ⟨⟨rfl, rfl⟩, rfl⟩ := hr
    exact ⟨rfl, Or.inr ⟨rfl, modifierWord_modifier hm⟩⟩
  | name k => simp [hk] at hr

theorem accessorWord_of_key (hk : h.key.isSome)
    (hr : accessorWord h c s = .ok h' t) :
    h'.key.isSome ∧ (h' = h ∧ s = t ∨ (c.next t).kind ≠ .punct .lparen) := by
  simp only [accessorWord, bind_eq_ok, ite_eq_ok, pure_eq_ok] at hr
  obtain ⟨⟨b, h₁⟩, u, hu, hr⟩ := hr
  obtain ⟨rfl, hget⟩ := tryModifier_of_key hk hu
  obtain ⟨hb, rfl, rfl⟩ | ⟨hb, ⟨b', h₂⟩, v, hv, rfl, rfl⟩ := hr
  · rcases hget with ⟨hf, -⟩ | ⟨-, hn⟩
    · exact absurd hb (by simp [hf])
    · exact ⟨hk, Or.inr hn⟩
  · obtain ⟨-, rfl⟩ | ⟨ht, -⟩ := hget
    · obtain ⟨rfl, ⟨rfl, rfl⟩ | ⟨rfl, hn⟩⟩ := tryModifier_of_key hk hv
      · exact ⟨hk, Or.inl ⟨rfl, rfl⟩⟩
      · exact ⟨hk, Or.inr hn⟩
    · exact absurd ht hb

/-! Methods. -/

theorem memberKey_follows (hg : g.Follows) (h : Head) :
    (g.memberKey h).FollowsBy fun c k => [.key k.computed c k.node] := by
  unfold memberKey
  split
  · exact FollowsBy.of_quiet (.pure _)
  · exact propertyKey_follows hg

theorem methodKindFor_quiet (h : Head) (k : PropertyKey) : (methodKindFor h k).Quiet :=
  .ite (.ite (.reject _ _) (.ite (.reject _ _) (.ite (.reject _ _) (.pure _))))
    (.ite (.reject _ _) (.pure _))

theorem methodElement_follows (hg : g.Follows) (hc : c.dialect = .plain) {kind : MethodKind}
    (hr : g.methodElement h k kind c s = .ok n t) (hQ : Keeps Q [.member c n]) :
    Keeps Q [.key k.computed c k.node] ∧ c.Follows Q (g.methodElement h k kind) s n t := by
  simp only [methodElement, within_apply, bind_eq_ok, pure_eq_ok] at hr
  obtain ⟨value, u, hu, _, v, hv, rfl, rfl⟩ := hr
  have hc : (c.methodOf k.node).dialect = .plain := hc
  refine ⟨hQ.parts.head, .bind (.within rfl (method_follows hg _ _ hc hu hQ.parts.tail)) ?_⟩
  exact .step (checkAccessor_quiet _ _) hv (.pure _ _)

/-- The parameters of a method are in parentheses. -/
theorem methodElement_next {kind : MethodKind} (hr : g.methodElement h k kind c s = .ok n t) :
    (c.next s).kind = .punct .lparen := by
  simp only [methodElement, method, functionRest, params, within_apply, bind_eq_ok, peek_eq_ok,
    expect_eq_ok] at hr
  obtain ⟨_, _, ⟨_, _, ⟨-, rfl⟩, _, _, ⟨_, _, ⟨_, _, ⟨hn, -⟩, -⟩, -⟩, -⟩, -⟩ := hr
  exact hn

/-- A member of the plain dialect behind its modifiers. -/
def memberRest (g : Grammar) (h : Head) : Parser Node := do
  let key ← g.memberKey h
  let kind ← methodKindFor h key
  g.methodElement h key kind

theorem memberRest_next (hr : g.memberRest h c s = .ok n t) :
    ¬ Blocked c s ∧ (c.next s).kind ≠ .punct .star := by
  simp only [memberRest, bind_eq_ok] at hr
  obtain ⟨k, u, hk, kind, v, hv, ht⟩ := hr
  obtain rfl := (methodKindFor_cases hv).1
  have hn := methodElement_next ht
  cases hkey : h.key with
  | some key =>
    simp only [memberKey, hkey, pure_eq_ok] at hk
    obtain ⟨-, rfl⟩ := hk
    refine ⟨fun hb => hb.kind_ne (by simp) (by simp) rfl hn, ?_⟩
    simp [hn]
  | none =>
    simp only [memberKey, hkey] at hk
    refine ⟨fun hb => ?_, fun hs => propertyKey_star hs hk⟩
    simp only [propertyKey, bind_eq_ok, peek_eq_ok] at hk
    obtain ⟨_, _, ⟨rfl, rfl⟩, hk⟩ := hk
    rcases hb with hb | hb | hb
    · simp [hb, propertyWord, Kind.word?] at hk
    · simp [hb, propertyWord, Kind.word?] at hk
    · obtain ⟨word, hb⟩ := isPrivateName_kind hb
      simp [hb, propertyWord, Kind.word?] at hk

/-- Behind a key that was read as a modifier's word, only the parameters are left. -/
theorem memberRest_of_key (hk : h.key.isSome) (hr : g.memberRest h c s = .ok n t) :
    (c.next s).kind = .punct .lparen := by
  obtain ⟨key, hk⟩ := Option.isSome_iff_exists.1 hk
  simp only [memberRest, memberKey, hk, bind_eq_ok, pure_eq_ok] at hr
  obtain ⟨_, _, ⟨rfl, rfl⟩, kind, v, hv, ht⟩ := hr
  obtain rfl := (methodKindFor_cases hv).1
  exact methodElement_next ht

theorem memberRest_follows (hg : g.Follows) (hc : c.dialect = .plain)
    (hr : g.memberRest h c s = .ok n t) (hQ : Keeps Q [.member c n]) :
    c.Follows Q (g.memberRest h) s n t := by
  simp only [memberRest, bind_eq_ok] at hr
  obtain ⟨k, u, hk, kind, v, hv, ht⟩ := hr
  obtain ⟨hkey, hrest⟩ := methodElement_follows hg hc ht hQ
  exact (memberKey_follows hg h hc hk hkey).bind (.step (methodKindFor_quiet h k) hv hrest)

theorem plainElement_eq : g.plainElement = (do
    let start ← peek
    let (isStatic, h) ← tryModifier (.start start) "static" false
    let h ← plainModifiers { h with isStatic }
    g.memberRest h) := rfl

/-! Static members. -/

/-- What the check refuses is in the tree. -/
theorem checkStaticConstructor_follows {value : Node} {pos : Position}
    (hQ : Keeps Q [.member c
      ⟨.method k.node value h.modifiers.methodKind h.isStatic k.computed, pos⟩]) (s : State) :
    c.Follows Q (checkStaticConstructor h k) s () s := by
  intro scope
  by_cases hb : h.isStatic && h.modifiers.accessor.isNone &&
      k.name? == some (.ofString "constructor")
  · right
    simp only [Bool.and_eq_true, Option.isNone_iff_eq_none, PropertyKey.name?_beq] at hb
    obtain ⟨⟨hs, ha⟩, hk⟩ := hb
    refine ⟨fun q => ?_, k.node.pos, s.withScope scope, ?_⟩
    · have hm := hQ.self q
      simp [Node.isStaticConstructor, Node.isStaticMember, Node.methodKind?, Node.spelledKey?,
        Node.memberKey?, Node.shape, Modifiers.methodKind, hs, ha, hk.1, hk.2] at hm
    · simp [checkStaticConstructor, hs, ha, PropertyKey.name?, hk.1, hk.2, reject, fail]
  · left
    simp only [checkStaticConstructor, hb]
    rfl

theorem methodOrField_follows (hg : g.Follows) (hc : c.dialect = .plain)
    (hr : g.methodElement h k h.modifiers.methodKind c s = .ok n t) (hQ : Keeps Q [.member c n]) :
    Keeps Q [.key k.computed c k.node] ∧ c.Follows Q (g.methodOrField h k) s n t := by
  have hn := methodElement_next hr
  obtain ⟨hkey, hmethod⟩ := methodElement_follows hg hc hr hQ
  have hcheck : c.Follows Q (checkStaticConstructor h k) t () t := by
    simp only [methodElement, within_apply, bind_eq_ok, pure_eq_ok] at hr
    obtain ⟨value, u, -, _, v, -, rfl, rfl⟩ := hr
    exact checkStaticConstructor_follows hQ _
  have hparams : check .lparen c s = .ok true s := check_eq_ok.2 ⟨by simp [hn], rfl⟩
  refine ⟨hkey, .step (.check _) hparams (.context rfl (.neg ?_ (hmethod.bind ?_)))⟩
  · simp
  · exact hcheck.bind (.pure _ _)

theorem elementRest_follows (hg : g.Follows) (hc : c.dialect = .plain) (hs : h.isStatic = true)
    (hr : g.memberRest h c s = .ok n t) (hQ : Keeps Q [.member c n]) :
    c.Follows Q (g.elementRest h) s n t := by
  have hprivate : (c.next s).kind.isPrivateName = false := by
    simpa [Blocked] using fun hp => (memberRest_next hr).1 (Or.inr (Or.inr hp))
  simp only [memberRest, bind_eq_ok] at hr
  obtain ⟨k, u, hk, kind, v, hv, ht⟩ := hr
  obtain ⟨rfl, ⟨-, hf, -⟩ | ⟨rfl, -, hproto⟩⟩ := methodKindFor_cases hv
  · rw [hs] at hf
    cases hf
  · obtain ⟨hkey, hrest⟩ := methodOrField_follows hg hc ht hQ
    unfold elementRest
    cases hkey' : h.key with
    | some key =>
      simp only [memberKey, hkey', pure_eq_ok] at hk
      obtain ⟨rfl, rfl⟩ := hk
      exact hrest
    | none =>
      simp only [memberKey, hkey'] at hk
      have hpeek : peek c s = .ok (c.next s) s := rfl
      refine .step .peek hpeek (.neg (by simpa using hprivate) ?_)
      refine (propertyKey_follows hg hc hk hkey).bind (.neg ?_ hrest)
      rw [PropertyKey.name?_beq]
      exact hproto hs

theorem asyncElement_follows (hg : g.Follows) (hc : c.dialect = .plain) {h₁ : Head}
    (hn : (c.next s).kind = .name "async")
    (hu : tryModifier h "async" true c s = .ok (b, h₁) u)
    (hm : AsyncTail c b h₁ u h' v)
    (hs : h'.isStatic = true) (hr : g.memberRest h' c v = .ok n t) (hQ : Keeps Q [.member c n]) :
    c.Follows Q (g.asyncElement h) s n t := by
  have hblock := hm.not_blocked (memberRest_next hr).1
  have hskip : s.skip = u := by
    rcases tryModifier_word hu with ⟨-, hu, -⟩ | ⟨hn', -⟩
    · exact hu
    · exact absurd hn hn'
  have hpeek : peekAt 1 c s = .ok (c.next u) s := peekAt_eq_ok.2 ⟨hskip ▸ next_skip c s, rfl⟩
  refine .step (.peekAt _) hpeek (.neg ?_ ((tryModifier_follows hc hu hblock).bind ?_))
  · simp only [Bool.and_eq_true, Bool.or_eq_true, beq_iff_eq, not_and]
    rintro - (hk | hk)
    · exact hblock (Or.inr (Or.inl hk))
    · exact hblock (Or.inl hk)
  · rcases hm with ⟨hb, hm⟩ | ⟨hb, hm⟩
    · exact .pos hb (.step (asyncHead_quiet _) hm (elementRest_follows hg hc hs hr hQ))
    · -- `async` was a name, so no accessor's word can have been taken behind it.
      have hkey : h₁.key.isSome := by
        rcases tryModifier_word hu with ⟨-, -, hword⟩ | ⟨hn', -⟩
        · exact hword.resolve_left hb
        · exact absurd hn hn'
      obtain ⟨hkey', ⟨rfl, rfl⟩ | hparen⟩ := accessorWord_of_key hkey hm
      · exact .neg hb (elementRest_follows hg hc hs hr hQ)
      · exact absurd (memberRest_of_key hkey' hr) hparen

/-- A static member of the plain dialect is read by the rule for static members. -/
theorem extendedElement_follows (hg : g.Follows) (hc : c.dialect = .plain) (hs : h.isStatic = true)
    (hk : h.key = none) (ha : h.modifiers = .absent) (hm : plainModifiers h c s = .ok h' u)
    (hr : g.memberRest h' c u = .ok n t) (hQ : Keeps Q [.member c n]) :
    c.Follows Q (g.extendedElement h) s n t := by
  have hread : h.Read c s s :=
    ⟨by simpa [hk] using .rfl', by simp [hk], by simp [ha, Modifiers.absent],
      ha ▸ functionSince_sync _ _⟩
  have hs' : h'.isStatic = true := (plainModifiers_reads hread ha hm).2.2.trans hs
  have hblock := (memberRest_next hr).1
  simp only [plainModifiers, bind_eq_ok, ite_eq_ok, context_eq_ok, pure_eq_ok] at hm
  obtain ⟨b, v, hv, ⟨hb, rfl, rfl⟩ | ⟨hb, _, _, ⟨rfl, rfl⟩, hm⟩⟩ := hm
  · exact .step (.accept _) hv (.pos hb (elementRest_follows hg hc hs' hr hQ))
  · refine .step (.accept _) hv (.neg hb (.context rfl ?_))
    have hcheck : checkWord "async" c v = .ok ((c.next v).kind == .name "async") v := rfl
    refine .step (.checkWord _) hcheck ?_
    obtain ⟨he, ⟨b, h₁⟩, w, hw, hm⟩ | ⟨he, hm⟩ := hm
    · by_cases hn : (c.next v).kind = .name "async"
      · exact .pos (by simp [he, hn]) (asyncElement_follows hg hc hn hw hm hs' hr hQ)
      · obtain ⟨hn', -⟩ | ⟨-, rfl, rfl, rfl⟩ := tryModifier_word hw
        · exact absurd hn' hn
        · obtain ⟨hf, -⟩ | ⟨-, hm⟩ := hm
          · cases hf
          · exact .neg (by simp [hn]) ((accessorWord_follows hc hm hblock).bind
              (elementRest_follows hg hc hs' hr hQ))
    · exact .neg (by simp [he]) ((accessorWord_follows hc hm hblock).bind
        (elementRest_follows hg hc hs' hr hQ))

/-! Members that are not static. -/

theorem startsPrivateElement_quiet : startsPrivateElement.Quiet :=
  .bind .peek fun _ => .bind (.peekAt _) fun _ => .bind (.peekAt _) fun _ => .pure _

theorem accessorWord_word (hr : accessorWord h c s = .ok h' t) (hb : ¬ Blocked c t) :
    (((c.next s).kind = .name "get" ∨ (c.next s).kind = .name "set") → ¬ Blocked c s.skip) ∧
      ((c.next s).kind ≠ .name "get" → (c.next s).kind ≠ .name "set" → h' = h ∧ s = t) := by
  simp only [accessorWord, bind_eq_ok, ite_eq_ok, pure_eq_ok] at hr
  obtain ⟨⟨b, h₁⟩, u, hu, hr⟩ := hr
  have hblock : ¬ Blocked c u := by
    obtain ⟨-, -, rfl⟩ | ⟨-, ⟨b', h₂⟩, v, hv, -, rfl⟩ := hr
    · exact hb
    · exact tryModifier_not_blocked hv hb
  rcases tryModifier_word hu with ⟨hn, rfl, -⟩ | ⟨hn, rfl, rfl, rfl⟩
  · exact ⟨fun _ => hblock, fun hn' => absurd hn hn'⟩
  · obtain ⟨hf, -⟩ | ⟨-, ⟨b', h₂⟩, v, hv, rfl, rfl⟩ := hr
    · cases hf
    · rcases tryModifier_word hv with ⟨hn', rfl, -⟩ | ⟨hn', rfl, rfl, rfl⟩
      · exact ⟨fun _ => hb, fun _ hset => absurd hn' hset⟩
      · exact ⟨fun hword => absurd hword (by simp [hn, hn']), fun _ _ => ⟨rfl, rfl⟩⟩

theorem propertyWord_pending {i : Ident} (hr : propertyWord c s = .ok i t) :
    c.next t = c.next s.skip := by
  simp only [propertyWord, checkIfNever, checkUnreserved, bind_eq_ok, anyWord_eq_ok, context_eq_ok,
    ite_eq_ok, reject_eq_ok, report_eq_ok, pure_eq_ok, and_false, false_or] at hr
  obtain ⟨_, _, ⟨_, -, rfl, rfl⟩, _, _, ⟨_, _, ⟨rfl, rfl⟩,
    ⟨-, _, _, ⟨rfl, rfl⟩, -, -, -, ⟨-, rfl⟩ | ⟨-, -, rfl⟩⟩ | ⟨-, -, rfl⟩⟩, rfl, rfl⟩ := hr
  all_goals rfl

/-- A name that is the key of a method is followed by its parameters. -/
theorem memberRest_name (hk : h.key = none) (hn : (c.next s).kind = .name word)
    (hr : g.memberRest h c s = .ok n t) : (c.next s.skip).kind = .punct .lparen := by
  simp only [memberRest, memberKey, hk, propertyKey, bind_eq_ok, peek_eq_ok] at hr
  obtain ⟨k, u, ⟨_, _, ⟨rfl, rfl⟩, hkey⟩, kind, v, hv, ht⟩ := hr
  obtain rfl := (methodKindFor_cases hv).1
  simp only [hn, bind_eq_ok, pure_eq_ok] at hkey
  obtain ⟨i, w, hw, -, rfl⟩ := hkey
  rw [← propertyWord_pending hw]
  exact methodElement_next ht

/-- Where the plain dialect reads a member there is no private key behind modifiers. -/
theorem plainModifiers_not_private (hk : h.key = none) (hm : plainModifiers h c s = .ok h' u)
    (hr : g.memberRest h' c u = .ok n t) : startsPrivateElement c s ≠ .ok true s := by
  intro hp
  obtain ⟨hb, hstar⟩ := memberRest_next hr
  have hs := plainModifiers_not_blocked hm hb
  have hm := plainModifiers_cases hm
  obtain ⟨-, ⟨hn, hp⟩ | hp | ⟨hn, hp⟩ | ⟨hn, hp⟩⟩ := startsPrivateElement_cases hp
  · obtain ⟨-, rfl⟩ | ⟨hn', -⟩ := hm
    · exact hb (Or.inr (Or.inr hp))
    · exact hn' hn
  · exact hs (Or.inr (Or.inr hp))
  · -- `async` is a modifier, or in the early editions a name that no parameters follow.
    obtain ⟨hn', -⟩ | ⟨-, hm | ⟨b, h₁, v, hv, hm⟩⟩ := hm
    · simp [hn] at hn'
    · obtain ⟨rfl, rfl⟩ := (accessorWord_word hm hb).2 (by simp [hn]) (by simp [hn])
      have hparen := memberRest_name hk hn hr
      simp [hparen, Kind.isPrivateName] at hp
    · obtain ⟨-, rfl, -⟩ | ⟨hn', -⟩ := tryModifier_word hv
      · rcases hp with hp | ⟨hstar', hp⟩
        · exact hm.not_blocked hb (Or.inr (Or.inr hp))
        · rcases hm with ⟨-, hm⟩ | ⟨-, hm⟩
          · simp only [asyncHead, bind_eq_ok, pure_eq_ok] at hm
            obtain ⟨_, w, hw, -, rfl⟩ := hm
            obtain rfl | ⟨-, rfl⟩ := asyncStar_next hw
            · exact hstar hstar'
            · exact hb (Or.inr (Or.inr hp))
          · obtain ⟨-, rfl⟩ := (accessorWord_word hm hb).2 (by simp [hstar']) (by simp [hstar'])
            exact hstar hstar'
      · exact hn' hn
  · have hnames : (c.next s).kind ≠ .punct .star ∧ (c.next s).kind ≠ .name "async" := by
      rcases hn with hn | hn <;> simp [hn]
    obtain ⟨hn', -⟩ | ⟨-, hm | ⟨b, h₁, v, hv, hm⟩⟩ := hm
    · exact hnames.1 hn'
    · exact (accessorWord_word hm hb).1 hn (Or.inr (Or.inr hp))
    · obtain ⟨hn', -⟩ | ⟨-, rfl, rfl, rfl⟩ := tryModifier_word hv
      · exact hnames.2 hn'
      · obtain ⟨hf, -⟩ | ⟨-, hm⟩ := hm
        · cases hf
        · exact (accessorWord_word hm hb).1 hn (Or.inr (Or.inr hp))

/-- A member of the plain dialect is read from its start again if it is not static. -/
theorem privateDialectElement_follows (hg : g.Follows) (hc : c.dialect = .plain)
    (hr : g.plainElement c s = .ok n t) (hQ : Keeps Q [.member c n]) :
    c.Follows Q g.privateDialectElement s n t := by
  have hpeek : peek c s = .ok (c.next s) s := rfl
  have hpending : pending c s = .ok s.pending s := rfl
  simp only [plainElement_eq, bind_eq_ok, peek_eq_ok] at hr
  obtain ⟨_, _, ⟨rfl, rfl⟩, ⟨isStatic, h₁⟩, u, hu, h₂, v, hv, hr⟩ := hr
  have hblock := plainModifiers_not_blocked hv (memberRest_next hr).1
  have hstatic := tryModifier_follows (Q := Q) hc hu hblock
  refine .step .peek hpeek (.step .pending hpending (hstatic.bind ?_))
  cases isStatic with
  | true =>
    obtain rfl := (tryModifier_key hu).2 rfl
    exact .pos rfl (extendedElement_follows hg hc rfl rfl rfl hv hr hQ)
  | false =>
    have hrestore : restore s.pending c u = .ok () s := restore_eq_ok.2 (tryModifier_restore hu)
    have hstarts : ∃ b, startsPrivateElement c s = .ok b s := ⟨_, rfl⟩
    obtain ⟨b, hstarts⟩ := hstarts
    have hb : ¬ b = true := by
      rintro rfl
      obtain ⟨hn, -⟩ | ⟨-, -, rfl, rfl⟩ := tryModifier_word hu
      · obtain ⟨-, hp⟩ := startsPrivateElement_cases hstarts
        simp [hn, Kind.isPrivateName] at hp
      · exact plainModifiers_not_private rfl hv hr hstarts
    refine .neg (by simp) (.step (.restore _) hrestore
      (.step startsPrivateElement_quiet hstarts (.neg hb ?_)))
    rw [plainElement_eq]
    refine .step .peek hpeek (hstatic.bind ?_)
    exact (plainModifiers_follows hc hv (memberRest_next hr).1).bind
      (memberRest_follows hg hc hr hQ)

end JsClass.Grammar
