import JsClass.Proofs.Edition.Functions

/-!
The members of classes in two editions. Where only one of them has asynchronous methods, the word
`async` is tried as a modifier in one and read as a key in the other; both come to the same member
if parameters follow.
-/
namespace JsClass.Grammar

open JsClass.Parser

variable {e : Edition} {g : Grammar} {c : Context} {s t u v : State} {n : Node} {h h' : Head}
  {k : PropertyKey}

/-- The edition that a method with these modifiers needs. -/
def Head.since (h : Head) : Nat := functionSince h.modifiers.isAsync h.modifiers.isGenerator

theorem Head.since_of_sync (ha : h.modifiers.isAsync = false) : h.since ≤ e.number := by
  rw [Head.since, ha]
  exact functionSince_sync _ _

theorem Head.since_of_absent (ha : h.modifiers.areAbsent = true) : h.since ≤ e.number := by
  apply Head.since_of_sync
  simp only [Modifiers.areAbsent, Bool.and_eq_true, Bool.not_eq_true'] at ha
  exact ha.1.1

/-! Words that do not ask for the edition. -/

theorem endsMemberName_ageless : endsMemberName.Ageless := by
  refine .bind .peek fun x => .context (fun _ _ => rfl) fun c => ?_
  split
  · exact .pure _
  · exact .pure _

theorem modifierWord_ageless (word : String) (noLineBreak : Bool) :
    (modifierWord word noLineBreak).Ageless :=
  .bind .peek fun _ => .bind (.acceptKind _) fun _ => .ite (.bind endsMemberName_ageless fun _ =>
    .bind .canInsertSemicolon fun _ => .ite (.pure _) (.pure _)) (.pure _)

theorem tryModifier_ageless (h : Head) (word : String) (noLineBreak : Bool) :
    (tryModifier h word noLineBreak).Ageless := by
  refine .bind (modifierWord_ageless _ _) fun m => ?_
  cases m with
  | absent | modifier => exact .pure _
  | name k => exact .ite .unexpectedNext (.pure _)

theorem accessorWord_ageless (h : Head) : (accessorWord h).Ageless :=
  .bind (tryModifier_ageless _ _ _) fun _ => .ite (.pure _)
    (.bind (tryModifier_ageless _ _ _) fun _ => .pure _)

theorem methodKindFor_ageless (h : Head) (k : PropertyKey) : (methodKindFor h k).Ageless :=
  .ite (.ite (.reject _ _) (.ite (.reject _ _) (.ite (.reject _ _) (.pure _))))
    (.ite (.reject _ _) (.pure _))

theorem checkStaticConstructor_ageless (h : Head) (k : PropertyKey) :
    (checkStaticConstructor h k).Ageless :=
  .ite (.reject _ _) (.pure _)

theorem elementKind_ageless (h : Head) : (elementKind h).Ageless := by
  unfold elementKind
  split
  · exact .pure _
  · exact .bind (.check _) fun _ => .ite (.pure _) (.pure _)

theorem privateKey_ageless (h : Head) : (privateKey h).Ageless :=
  .bind .privateName fun _ => .ite (.reject _ _) (.bind (elementKind_ageless h) fun _ =>
    .bind (.onScope _) fun _ => .pure _)

theorem startsPrivateElement_ageless : startsPrivateElement.Ageless :=
  .bind .peek fun _ => .bind (.peekAt _) fun _ => .bind (.peekAt _) fun _ => .pure _

/-! Methods and fields. -/

theorem methodElement_carries (hg : g.Carries e) (h : Head) (k : PropertyKey) (kind : MethodKind) :
    (g.methodElement h k kind).Carries e (k.node.Fits e ∧ h.since ≤ e.number) .anywhere
      (Node.Fits e) fun _ => .anywhere := by
  refine .bind_also (.within (fun _ => rfl) (fun _ _ h => h) (method_carries hg _ _)) fun value =>
    .step (checkAccessor_ageless _ _) fun _ => .node ?_
  simp +contextual [Node.AllFit, Shape.children, Shape.fields, Field.children]

theorem fieldElement_carries (hg : g.Carries e) (h : Head) (k : PropertyKey) :
    (g.fieldElement h k).Carries e (k.node.Fits e ∧ (k.node.isPrivateName ∨ 8 ≤ e.number))
      .anywhere (Node.Fits e) fun _ => .anywhere := by
  refine .bind (.within (fun _ => rfl) (fun _ _ h => h) (initializer?_carries hg)) fun value =>
    .semicolon fun _ => .node ?_
  intro hsince hchildren
  simp only [Shape.children, Shape.fields, Field.children, List.flatMap_cons, List.flatMap_nil,
    List.append_nil, List.singleton_append, Node.allFit_cons] at hchildren
  refine ⟨⟨hchildren.1, ?_⟩, hchildren.2⟩
  cases hp : k.node.isPrivateName with
  | true => exact Or.inl rfl
  | false => exact Or.inr (by simpa [Shape.since, hp] using hsince)

/-- Behind a key come the parameters of a method, or both editions have fields. -/
def afterKey (e : Edition) : Site := fun c s =>
  (c.next s).kind = .punct .lparen ∨ 8 ≤ c.options.edition.number ∧ 8 ≤ e.number

theorem methodOrField_carries (hg : g.Carries e)
    (hk : k.node.isPrivateName = false ∨ (c.next s).kind = .punct .lparen)
    (hr : g.methodOrField h k c s = .ok n t) (hn : n.Fits e) :
    (h.since ≤ e.number ∧ k.node.Fits e) ∧ afterKey e c s ∧
      g.methodOrField h k (c.inEdition e) s = .ok n t := by
  have hsame : ∀ {m : Node} {u : State}, checkStaticConstructor h k c u = .ok () t → m = n →
      (do checkStaticConstructor h k; return m : Parser Node) (c.inEdition e) u = .ok n t := by
    rintro m u hu rfl
    refine bind_eq_ok.2 ⟨(), t, ?_, rfl⟩
    rwa [checkStaticConstructor_ageless]
  simp only [methodOrField, bind_eq_ok, check_eq_ok, context_eq_ok, ite_eq_ok, pure_eq_ok] at hr
  obtain ⟨_, _, ⟨rfl, rfl⟩, _, _, ⟨rfl, rfl⟩, ⟨hb, m, u, hm, _, _, hu, rfl, rfl⟩ |
    ⟨hb, m, u, hm, _, _, hu, rfl, rfl⟩⟩ := hr
  · obtain ⟨⟨hkey, hprivate⟩, -, hm'⟩ := fieldElement_carries hg h k hm hn trivial
    simp only [Bool.and_eq_true, decide_eq_true_eq, Bool.not_eq_true', beq_eq_false_iff_ne] at hb
    obtain ⟨⟨⟨hstatic, habsent⟩, height⟩, hparen⟩ := hb
    have he : 8 ≤ e.number := by
      rcases hprivate with hp | he
      · rw [hk.resolve_right hparen] at hp
        cases hp
      · exact he
    refine ⟨⟨Head.since_of_absent habsent, hkey⟩, Or.inr ⟨height, he⟩, ?_⟩
    have hcheck : check .lparen (c.inEdition e) s = .ok false s :=
      check_eq_ok.2 ⟨beq_eq_false_iff_ne.2 hparen, rfl⟩
    refine bind_eq_ok.2 ⟨_, _, hcheck, bind_eq_ok.2 ⟨_, _, rfl, ?_⟩⟩
    refine ite_eq_ok.2 (Or.inl ⟨?_, bind_eq_ok.2 ⟨m, u, hm', hsame hu rfl⟩⟩)
    simp [hstatic, habsent, Context.inEdition, he]
  · obtain ⟨⟨hkey, hsince⟩, -, hm'⟩ := methodElement_carries hg h k _ hm hn trivial
    have hparen := methodElement_next hm
    refine ⟨⟨hsince, hkey⟩, Or.inl hparen, ?_⟩
    have hcheck : check .lparen (c.inEdition e) s = .ok true s :=
      check_eq_ok.2 ⟨beq_iff_eq.2 hparen, rfl⟩
    refine bind_eq_ok.2 ⟨_, _, hcheck, bind_eq_ok.2 ⟨_, _, rfl, ?_⟩⟩
    exact ite_eq_ok.2 (Or.inr ⟨by simp, bind_eq_ok.2 ⟨m, u, hm', hsame hu rfl⟩⟩)

theorem privateField_carries (hg : g.Carries e) (h : Head) (k : PropertyKey) :
    (g.privateField h k).Carries e (h.since ≤ e.number) .anywhere (Node.Fits e)
      fun _ => .anywhere := by
  refine .ite (fun _ => .unexpectedNext) fun ha => ?_
  have habsent : h.since ≤ e.number := Head.since_of_absent (by simpa using ha)
  have hfield := (fieldElement_carries hg h k).mono (fun _ => habsent) (fun _ _ h => h)
    fun _ _ _ h => h
  split
  · exact .ite (fun _ => .reject _ _) fun _ => hfield
  · exact hfield

/-- A key that was read already is no private name. -/
def Head.Public (h : Head) : Prop := ∀ k ∈ h.key, k.node.isPrivateName = false

theorem propertyKey_public (hs : g.Sound) :
    g.propertyKey.Returns fun k => k.node.isPrivateName = false := by
  intro c s k t h
  exact (propertyKey_reads hs h).2

theorem elementRest_carries (hg : g.Carries e) (hs : g.Sound) (hk : h.Public) :
    (g.elementRest h).Carries e (h.since ≤ e.number) .anywhere (Node.Fits e)
      fun _ => .anywhere := by
  unfold elementRest
  split
  · rename_i key hkey
    intro c s n t hr hn _
    obtain ⟨⟨hsince, -⟩, -, hr'⟩ := methodOrField_carries hg (Or.inl (hk key hkey)) hr hn
    exact ⟨hsince, trivial, hr'⟩
  · refine .step .peek fun x =>
      .ite (fun _ => .step (privateKey_ageless h) fun key => ?_) fun _ => ?_
    · -- a private key before parameters, which keep it from being a field
      intro c s n t hr hn _
      obtain ⟨b, u, hb, hr⟩ := bind_eq_ok.1 hr
      have hb' : check .lparen (c.inEdition e) s = .ok b u := hb
      obtain ⟨hparen, rfl⟩ := check_eq_ok.1 hb
      obtain ⟨htrue, hr⟩ | ⟨hfalse, hr⟩ := ite_eq_ok.1 hr
      · rw [htrue, beq_iff_eq] at hparen
        obtain ⟨⟨hsince, -⟩, -, hr'⟩ := methodOrField_carries hg (Or.inr hparen) hr hn
        exact ⟨hsince, trivial, bind_eq_ok.2 ⟨b, s, hb', ite_eq_ok.2 (Or.inl ⟨htrue, hr'⟩)⟩⟩
      · obtain ⟨hsince, -, hr'⟩ := privateField_carries hg h key hr hn trivial
        exact ⟨hsince, trivial, bind_eq_ok.2 ⟨b, s, hb', ite_eq_ok.2 (Or.inr ⟨hfalse, hr'⟩)⟩⟩
    · refine .bind_of (propertyKey_carries hg) (propertyKey_public hs) fun key hpublic => ?_
      refine .ite (fun _ => .reject _ _) fun _ => ?_
      intro c s n t hr hn _
      obtain ⟨hR, -, hr'⟩ := methodOrField_carries hg (Or.inl hpublic) hr hn
      exact ⟨hR, trivial, hr'⟩

/-! The word `async` before a member. -/

/-- The head with the word that comes next as its key. -/
def Head.named (h : Head) (c : Context) (s : State) : Head :=
  { h with key := some ⟨⟨.identifier "async", (c.next s).pos⟩, false⟩ }

theorem elementRest_async (hk : h.key = none) (hn : (c.next s).kind = .name "async") :
    g.elementRest h c s = g.elementRest (h.named c s) c s.skip := by
  have hkey : g.propertyKey c s = _ := propertyKey_async hn
  unfold elementRest
  rw [hk]
  show (if (c.next s).kind.isPrivateName = true then _ else _ : Parser Node) c s = _
  rw [hn, if_neg (by simp [Kind.isPrivateName]), bind_apply, hkey]
  rfl

theorem memberRest_async (hk : h.key = none) (hn : (c.next s).kind = .name "async") :
    g.memberRest h c s = g.memberRest (h.named c s) c s.skip := by
  have hkey : g.propertyKey c s = _ := propertyKey_async hn
  have hmember : g.memberKey h = g.propertyKey := by rw [memberKey, hk]
  unfold memberRest
  rw [hmember, bind_apply, hkey]
  rfl

theorem accessorWord_other (hget : (c.next s).kind ≠ .name "get")
    (hset : (c.next s).kind ≠ .name "set") : accessorWord h c s = .ok h s := by
  simp [accessorWord, tryModifier, modifierWord, hget, hset]

theorem accessorWord_async (hn : (c.next s).kind = .name "async") : accessorWord h c s = .ok h s :=
  accessorWord_other (by simp [hn]) (by simp [hn])

theorem tryModifier_other {word : String} {noLineBreak : Bool} (hn : (c.next s).kind ≠ .name word) :
    tryModifier h word noLineBreak c s = .ok (false, h) s := by
  simp [tryModifier, modifierWord, hn]

/-- The word is a name if parameters follow. -/
theorem tryModifier_async (hk : h.key = none) (hn : (c.next s).kind = .name "async")
    (hparen : (c.next s.skip).kind = .punct .lparen) :
    tryModifier h "async" true c s = .ok (false, h.named c s) s.skip := by
  have hends : endsMemberName c s.skip = .ok true s.skip := by
    refine bind_eq_ok.2 ⟨c.next s.skip, _, rfl, bind_eq_ok.2 ⟨c, _, rfl, ?_⟩⟩
    cases hd : c.dialect <;> simp [hparen, isMemberFollower]
  simp [tryModifier, modifierWord, hn, hends, hk, Head.named, Token.node]

/-- Behind a word `async` that does not modify, the member has this key. -/
theorem tryModifier_async_name (hn : (c.next s).kind = .name "async")
    (hr : tryModifier h "async" true c s = .ok (false, h') u) :
    h.key = none ∧ h' = h.named c s ∧ s.skip = u := by
  simp only [tryModifier, bind_eq_ok] at hr
  obtain ⟨m, v, hm, hr⟩ := hr
  obtain ⟨hne, -, rfl⟩ | ⟨-, hn', -⟩ := modifierWord_next hm
  · cases m with
    | absent => exact absurd rfl hne
    | modifier => simp at hr
    | name key =>
      simp only [ite_eq_ok, unexpectedNext_eq_ok, pure_eq_ok, and_false, false_or, Prod.mk.injEq,
        true_and, Option.not_isSome_iff_eq_none] at hr
      obtain ⟨hk, rfl, rfl⟩ := hr
      rw [(modifierWord_reads hm).2 key rfl]
      exact ⟨hk, rfl, rfl⟩
  · exact absurd hn hn'

theorem tryModifier_public (hk : h.Public) (word : String) (noLineBreak : Bool) :
    (tryModifier h word noLineBreak).Returns fun r => r.2.Public := by
  have hname : (modifierWord word noLineBreak).Returns fun m =>
      ∀ k, m = .name k → k.node.isPrivateName = false := by
    intro c s m t hm k hkey
    rw [(modifierWord_reads hm).2 k hkey]
    rfl
  refine .bind_of hname fun m hm => ?_
  cases m with
  | absent | modifier => exact .pure hk
  | name k =>
    refine .ite (.bind fun _ => ?_) (.pure ?_)
    · intro c s r t h
      exact (unexpected_eq_ok.1 h).elim
    · intro key hkey
      cases hkey
      exact hm k rfl

theorem accessorWord_public (hk : h.Public) : (accessorWord h).Returns Head.Public := by
  refine .bind_of (tryModifier_public hk _ _) fun r hr => .ite (.pure hr) ?_
  refine .bind_of (tryModifier_public hr _ _) fun r hr => .pure ?_
  cases r.1
  · exact hr
  · exact hr

/-- An asynchronous member, from behind its word on. -/
theorem asyncHead_carries {rest : Head → Parser Node}
    (hrest : ∀ h', h'.key = h.key → (rest h').Carries e (h'.since ≤ e.number) notStar (Node.Fits e)
      fun _ => .anywhere) :
    (asyncHead h >>= rest).Carries e (8 ≤ e.number) .anywhere (Node.Fits e)
      fun _ => .anywhere := by
  intro c s n t hr hn _
  obtain ⟨h', u, hu, hr⟩ := bind_eq_ok.1 hr
  simp only [asyncHead, bind_eq_ok, pure_eq_ok] at hu
  obtain ⟨isGenerator, v, hv, rfl, rfl⟩ := hu
  obtain ⟨hsince, hstar, hr'⟩ :=
    hrest { h with modifiers := ⟨true, isGenerator, none⟩ } rfl hr hn trivial
  obtain ⟨height, hnine⟩ := (functionSince_le e).1 hsince
  have hv' := asyncStar_carries hv (hnine rfl) hstar
  exact ⟨height rfl, trivial, bind_eq_ok.2 ⟨_, _, bind_eq_ok.2 ⟨_, _, hv', rfl⟩, hr'⟩⟩

/-! Static and private members. -/

theorem elementRest_notStar (hk : h.key = none) (hr : g.elementRest h c s = .ok n t) :
    notStar c s := by
  intro hstar
  simp only [elementRest, hk, bind_eq_ok, peek_eq_ok, ite_eq_ok] at hr
  obtain ⟨_, _, ⟨rfl, rfl⟩, ⟨hp, -⟩ | ⟨-, k, u, hu, -⟩⟩ := hr
  · simp [hstar, Kind.isPrivateName] at hp
  · exact propertyKey_star hstar hu

theorem Head.public_of_none (hk : h.key = none) : h.Public := by
  intro k hkey
  rw [hk] at hkey
  cases hkey

theorem asyncRest_carries (hg : g.Carries e) (hs : g.Sound) (hk : h.key = none) :
    (asyncHead h >>= g.elementRest).Carries e (8 ≤ e.number) .anywhere (Node.Fits e)
      fun _ => .anywhere := by
  refine asyncHead_carries fun h' hkey => ?_
  have hnone : h'.key = none := hkey.trans hk
  exact .starts (elementRest_notStar hnone) (elementRest_carries hg hs (Head.public_of_none hnone))

theorem asyncElement_carries (hg : g.Carries e) (hs : g.Sound) (hk : h.key = none) :
    (g.asyncElement h).CarriesNode e .anywhere := by
  refine .step (.peekAt _) fun next => .ite (fun _ => .step .propertyWord fun _ => ?_) fun _ => ?_
  · exact (fieldElement_carries hg _ _).mono (fun _ => trivial) (fun _ _ h => h) fun _ _ _ h => h
  · intro c s n t hr hn _
    obtain ⟨⟨b, h₁⟩, u, hu, hr⟩ := bind_eq_ok.1 hr
    have hu' : tryModifier h "async" true (c.inEdition e) s = .ok (b, h₁) u := by
      rwa [tryModifier_ageless]
    refine ⟨trivial, trivial, bind_eq_ok.2 ⟨_, _, hu', ?_⟩⟩
    obtain ⟨hb, hr⟩ | ⟨hb, hr⟩ := ite_eq_ok.1 hr
    · have hkey : h₁.key = none := by
        rw [(tryModifier_key hu).2 hb]
        exact hk
      obtain ⟨-, -, hr'⟩ := asyncRest_carries hg hs hkey hr hn trivial
      exact ite_eq_ok.2 (Or.inl ⟨hb, hr'⟩)
    · have hpublic : h₁.Public := (tryModifier_public (Head.public_of_none hk) _ _).of_ok hu
      obtain ⟨-, -, hr'⟩ := elementRest_carries hg hs hpublic hr hn trivial
      exact ite_eq_ok.2 (Or.inr ⟨hb, hr'⟩)

/-- A static or private member without a star, in the later editions. -/
def lateElement (g : Grammar) (h : Head) : Parser Node := do
  if ← checkWord "async" then g.asyncElement h else accessorWord h >>= g.elementRest

theorem extendedElement_eq (h : Head) : g.extendedElement h = (do
    if ← accept .star then g.elementRest { h with modifiers := ⟨false, true, none⟩ }
    else if 8 ≤ (← context).options.edition.number then g.lateElement h
    else accessorWord h >>= g.elementRest) := by
  have hrest : (do
      let edition := (← context).options.edition
      let isAsync ← checkWord "async"
      if 8 ≤ edition.number && isAsync then g.asyncElement h
      else g.elementRest (← accessorWord h)) = (do
        if 8 ≤ (← context).options.edition.number then g.lateElement h
        else accessorWord h >>= g.elementRest) := by
    funext c s
    by_cases he : 8 ≤ c.options.edition.number
    · simp [bind_apply, context, checkWord, checkKind, peek, lateElement, he]
    · simp [bind_apply, context, checkWord, checkKind, peek, he]
  rw [extendedElement, hrest]

/-- Where early editions read the word `async` as a key, the later ones do. -/
theorem asyncElement_of_elementRest (hk : h.key = none) (hc : ¬ 8 ≤ c.options.edition.number)
    (hn : (c.next s).kind = .name "async") (hr : g.elementRest h c s = .ok n t) :
    g.asyncElement h c s = .ok n t := by
  rw [elementRest_async hk hn] at hr
  have hparen : (c.next s.skip).kind = .punct .lparen := by
    have hr' : g.methodOrField (h.named c s) _ c s.skip = .ok n t := hr
    simp only [methodOrField, bind_eq_ok, check_eq_ok, context_eq_ok, ite_eq_ok, pure_eq_ok] at hr'
    obtain ⟨_, _, ⟨rfl, rfl⟩, _, _, ⟨rfl, rfl⟩, ⟨hb, -⟩ | ⟨-, m, u, hm, -⟩⟩ := hr'
    · simp [hc] at hb
    · exact methodElement_next hm
  have hpeek : peekAt 1 c s = .ok (c.next s.skip) s := peekAt_eq_ok.2 ⟨next_skip c s, rfl⟩
  refine bind_eq_ok.2 ⟨_, _, hpeek, ite_eq_ok.2 (Or.inr ⟨by simp [hparen], ?_⟩)⟩
  refine bind_eq_ok.2 ⟨_, _, tryModifier_async hk hn hparen, ?_⟩
  exact ite_eq_ok.2 (Or.inr ⟨by simp, hr⟩)

/-- What the later editions read behind the word has a place in the early ones if it is a method
of this name. -/
theorem elementRest_of_asyncElement (hg : g.Carries e) (hs : g.Sound) (hk : h.key = none)
    (he : ¬ 8 ≤ e.number) (hn : (c.next s).kind = .name "async")
    (hr : g.asyncElement h c s = .ok n t) (hfits : n.Fits e) : g.elementRest h c s = .ok n t := by
  simp only [asyncElement, bind_eq_ok, peekAt_eq_ok, ite_eq_ok] at hr
  obtain ⟨_, _, ⟨rfl, rfl⟩, ⟨-, i, u, hu, hr⟩ | ⟨-, ⟨b, h₁⟩, u, hu, hr⟩⟩ := hr
  · obtain ⟨⟨-, hfield⟩, -⟩ := fieldElement_carries hg _ _ hr hfits trivial
    rcases hfield with hp | hfield
    · cases hp
    · exact absurd hfield he
  · obtain ⟨hb, h₂, v, hv, hr⟩ | ⟨hb, hr⟩ := hr
    · have hkey : h₁.key = none := by
        rw [(tryModifier_key hu).2 hb]
        exact hk
      have hrest := bind_eq_ok.2 ⟨h₂, v, hv, hr⟩
      obtain ⟨height, -⟩ := asyncRest_carries hg hs hkey hrest hfits trivial
      exact absurd height he
    · rw [Bool.not_eq_true] at hb
      subst hb
      obtain ⟨-, rfl, rfl⟩ := tryModifier_async_name hn hu
      rwa [elementRest_async hk hn]

theorem extendedElement_carries (hg : g.Carries e) (hs : g.Sound) (hk : h.key = none) :
    (g.extendedElement h).CarriesNode e .anywhere := by
  have hrest : ∀ h', h'.Public → (g.elementRest h').CarriesNode e .anywhere := fun h' hp =>
    (elementRest_carries hg hs hp).mono (fun _ => trivial) (fun _ _ h => h) fun _ _ _ h => h
  have hearly : (accessorWord h >>= g.elementRest).CarriesNode e .anywhere :=
    .bind_of (U := fun _ => True) (D := fun _ => .anywhere) (.ageless (accessorWord_ageless h))
      (accessorWord_public (Head.public_of_none hk)) fun h' hp =>
        (hrest h' hp).mono (fun _ => ⟨trivial, trivial⟩) (fun _ _ h => h) fun _ _ _ h => h
  have hstar : Head.Public { h with modifiers := ⟨false, true, none⟩ } := Head.public_of_none hk
  rw [extendedElement_eq]
  refine .accept (fun _ => trivial) (hrest _ hstar) (.edition ?_ hearly ?_ ?_)
  · exact .step (.checkWord _) fun _ =>
      .ite (fun _ => asyncElement_carries hg hs hk) fun _ => hearly
  · intro c s n t hc hr
    refine bind_eq_ok.2 ⟨_, _, checkWord_eq_ok.2 ⟨rfl, rfl⟩, ite_eq_ok.2 ?_⟩
    by_cases hn : (c.next s).kind = .name "async"
    · rw [bind_apply, accessorWord_async hn] at hr
      exact Or.inl ⟨beq_iff_eq.2 hn, asyncElement_of_elementRest hk hc hn hr⟩
    · exact Or.inr ⟨by simpa using hn, hr⟩
  · intro c s n t he hr hn _
    obtain ⟨b, _, hb, hr⟩ := bind_eq_ok.1 hr
    obtain ⟨rfl, rfl⟩ := checkWord_eq_ok.1 hb
    obtain ⟨hb, hr⟩ | ⟨-, hr⟩ := ite_eq_ok.1 hr
    · have hname := beq_iff_eq.1 hb
      rw [bind_apply, accessorWord_async hname]
      exact elementRest_of_asyncElement hg hs hk he hname hr hn
    · exact hr

/-! Members of the plain dialect. -/

theorem memberKey_carries (hg : g.Carries e) (h : Head) :
    (g.memberKey h).Carries e True .anywhere (fun k => k.node.Fits e) fun _ => .anywhere := by
  unfold memberKey
  split
  · exact .ageless (.pure _)
  · exact propertyKey_carries hg

theorem memberRest_carries (hg : g.Carries e) (h : Head) :
    (g.memberRest h).Carries e (h.since ≤ e.number) notStar (Node.Fits e) fun _ => .anywhere :=
  .starts (fun hr => (memberRest_next hr).2) (.bind (memberKey_carries hg h) fun k =>
    .step (methodKindFor_ageless h k) fun kind =>
      (methodElement_carries hg h k kind).mono And.symm (fun _ _ h => h) fun _ _ _ h => h)

/-- The modifiers of a member without a star, in the later editions. -/
def lateModifiers (h : Head) : Parser Head := do
  let (isAsync, h) ← tryModifier h "async" true
  if isAsync then asyncHead h else accessorWord h

theorem plainModifiers_bind {β : Type} (h : Head) (rest : Head → Parser β) :
    plainModifiers h >>= rest = (do
      if ← accept .star then rest { h with modifiers := ⟨false, true, none⟩ }
      else if 8 ≤ (← context).options.edition.number then lateModifiers h >>= rest
      else accessorWord h >>= rest) := by
  simp only [plainModifiers, lateModifiers, bind_bind, ite_bind]
  rfl

theorem lateModifiers_bind {β : Type} (h : Head) (rest : Head → Parser β) :
    lateModifiers h >>= rest = (do
      let (isAsync, h) ← tryModifier h "async" true
      if isAsync then asyncHead h >>= rest else accessorWord h >>= rest) := by
  simp only [lateModifiers, bind_bind, ite_bind]

theorem earlyMember_carries (hg : g.Carries e) (h : Head) :
    (accessorWord h >>= g.memberRest).CarriesNode e .anywhere :=
  .step (accessorWord_ageless h) fun h' => (memberRest_carries hg h').anywhere.mono
    (fun _ => trivial) (fun _ _ h => h) fun _ _ _ h => h

theorem asyncMember_carries (hg : g.Carries e) (h : Head) :
    (asyncHead h >>= g.memberRest).Carries e (8 ≤ e.number) .anywhere (Node.Fits e)
      fun _ => .anywhere :=
  asyncHead_carries fun h' _ => memberRest_carries hg h'

theorem lateMember_carries (hg : g.Carries e) (h : Head) :
    (lateModifiers h >>= g.memberRest).CarriesNode e .anywhere := by
  rw [lateModifiers_bind]
  refine .step (tryModifier_ageless _ _ _) fun r => .ite (fun _ => ?_) fun _ =>
    earlyMember_carries hg r.2
  exact (asyncMember_carries hg r.2).mono (fun _ => trivial) (fun _ _ h => h) fun _ _ _ h => h

/-- Where early editions read the word `async` as a key, the later ones do. -/
theorem lateMember_of_early (hr : (accessorWord h >>= g.memberRest) c s = .ok n t) :
    (lateModifiers h >>= g.memberRest) c s = .ok n t := by
  by_cases hn : (c.next s).kind = .name "async"
  · rw [bind_apply, accessorWord_async hn] at hr
    have hk : h.key = none := by
      by_contra hk
      have hparen := memberRest_of_key (Option.isSome_iff_ne_none.2 hk) hr
      simp [hn] at hparen
    have hparen := memberRest_name hk hn hr
    have hword : accessorWord (h.named c s) c s.skip = .ok (h.named c s) s.skip :=
      accessorWord_other (by simp [hparen]) (by simp [hparen])
    have hlate : lateModifiers h c s = .ok (h.named c s) s.skip :=
      bind_eq_ok.2 ⟨_, _, tryModifier_async hk hn hparen, hword⟩
    refine bind_eq_ok.2 ⟨_, _, hlate, ?_⟩
    rwa [← memberRest_async hk hn]
  · obtain ⟨h', u, hu, hr⟩ := bind_eq_ok.1 hr
    refine bind_eq_ok.2 ⟨h', u, bind_eq_ok.2 ⟨_, _, tryModifier_other hn, hu⟩, hr⟩

/-- What the later editions read behind the word has a place in the early ones if it is a method
of this name. -/
theorem earlyMember_of_late (hg : g.Carries e) (he : ¬ 8 ≤ e.number)
    (hr : (lateModifiers h >>= g.memberRest) c s = .ok n t) (hfits : n.Fits e) :
    (accessorWord h >>= g.memberRest) c s = .ok n t := by
  rw [lateModifiers_bind] at hr
  obtain ⟨⟨b, h₁⟩, u, hu, hr⟩ := bind_eq_ok.1 hr
  obtain ⟨-, hr⟩ | ⟨hb, hr⟩ := ite_eq_ok.1 hr
  · exact absurd (asyncMember_carries hg h₁ hr hfits trivial).1 he
  · rw [Bool.not_eq_true] at hb
    subst hb
    by_cases hn : (c.next s).kind = .name "async"
    · obtain ⟨hk, rfl, rfl⟩ := tryModifier_async_name hn hu
      obtain ⟨h₂, v, hv, hr⟩ := bind_eq_ok.1 hr
      have hkey : (h.named c s).key.isSome := rfl
      obtain ⟨hkey', ⟨rfl, rfl⟩ | hparen⟩ := accessorWord_of_key hkey hv
      · rw [bind_apply, accessorWord_async hn]
        exact (memberRest_async hk hn).trans hr
      · exact absurd (memberRest_of_key hkey' hr) hparen
    · rw [tryModifier_other hn] at hu
      cases hu
      exact hr

theorem plainElement_carries (hg : g.Carries e) : g.plainElement.CarriesNode e .anywhere := by
  have hmember : ∀ h : Head, (plainModifiers h >>= g.memberRest).CarriesNode e .anywhere := by
    intro h
    rw [plainModifiers_bind]
    refine .accept (fun _ => trivial) ?_ (.edition (lateMember_carries hg h)
      (earlyMember_carries hg h) (fun _ _ _ _ _ hr => lateMember_of_early hr)
      fun _ _ _ _ he hr hn _ => earlyMember_of_late hg he hr hn)
    exact (memberRest_carries hg _).anywhere.mono (fun _ => trivial) (fun _ _ h => h)
      fun _ _ _ h => h
  rw [plainElement_eq]
  exact .step .peek fun _ => .step (tryModifier_ageless _ _ _) fun _ => hmember _

theorem privateDialectElement_carries (hg : g.Carries e) (hs : g.Sound) :
    g.privateDialectElement.CarriesNode e .anywhere := by
  refine .step .peek fun start => .step .pending fun before => ?_
  intro c s n t hr hn _
  obtain ⟨⟨b, h⟩, u, hu, hr⟩ := bind_eq_ok.1 hr
  have hu' : tryModifier (.start start) "static" false (c.inEdition e) s = .ok (b, h) u := by
    rwa [tryModifier_ageless]
  refine ⟨trivial, trivial, bind_eq_ok.2 ⟨_, _, hu', ?_⟩⟩
  have hrest : Parser.CarriesNode e .anywhere (do
      restore before
      if ← startsPrivateElement then g.extendedElement (.start start) else g.plainElement) :=
    .step (.restore _) fun _ => .step startsPrivateElement_ageless fun _ =>
      .ite (fun _ => extendedElement_carries hg hs rfl) fun _ => plainElement_carries hg
  obtain ⟨hb, hr⟩ | ⟨hb, hr⟩ := ite_eq_ok.1 hr
  · have hkey : h = .start start := (tryModifier_key hu).2 hb
    subst hkey
    exact ite_eq_ok.2 (Or.inl ⟨hb, (extendedElement_carries hg hs rfl hr hn trivial).2.2⟩)
  · exact ite_eq_ok.2 (Or.inr ⟨hb, (hrest hr hn trivial).2.2⟩)

end JsClass.Grammar
