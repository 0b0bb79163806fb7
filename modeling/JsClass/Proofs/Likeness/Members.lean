import JsClass.Proofs.Likeness.Functions

/-! Classes and their members. -/
namespace JsClass.Likeness

open JsClass.Grammar

variable {m : Matching} {L : Likeness m} {g g' : Grammar} {h h' : Head} {k k' : PropertyKey}

/-! Words before a member. -/

theorem endsMemberName : L.same Grammar.endsMemberName Grammar.endsMemberName := by
  refine L.bind L.peek fun t t' ht => L.bind L.context fun c c' hc => ?_
  rw [← hc.dialect]
  cases c.dialect with
  | plain => exact L.pure (ht.is rfl)
  | withPrivate => exact L.pure (ht.kind.congr isMemberFollower fun _ _ => rfl)

theorem modifierWord (word : String) (noLineBreak : Bool) :
    L.runs (ModifierWord.Alike m) (Grammar.modifierWord word noLineBreak)
      (Grammar.modifierWord word noLineBreak) := by
  refine L.bind L.peek fun t t' ht => choose (acceptKind rfl) (L.bind endsMemberName ?_)
    (L.pure .absent)
  rintro ends _ rfl
  refine L.bind canInsertSemicolon fun broken broken' hb => ite (by rw [hb]) ?_ (L.pure .modifier)
  exact L.pure (.name ⟨ht.node .identifier, rfl⟩)

/-- Whether a word modifies, with the heads behind it. -/
abbrev Tried (m : Matching) (r r' : Bool × Head) : Prop := r.1 = r'.1 ∧ r.2.Alike m r'.2

theorem tryModifier (hh : h.Alike m h') (word : String) (noLineBreak : Bool) :
    L.runs (Tried m) (Grammar.tryModifier h word noLineBreak)
      (Grammar.tryModifier h' word noLineBreak) := by
  refine L.bind (modifierWord word noLineBreak) fun w w' hw => ?_
  cases hw with
  | absent => exact L.pure ⟨rfl, hh⟩
  | modifier => exact L.pure ⟨rfl, hh⟩
  | name hk =>
    refine ite ?_ unexpectedNext (L.pure ⟨rfl, hh.pos, hh.isStatic, .some hk, hh.modifiers⟩)
    have hkey := hh.key
    generalize h.key = key at hkey ⊢
    generalize h'.key = key' at hkey ⊢
    cases hkey with
    | some => rfl
    | none => rfl

theorem withAccessor (hh : h.Alike m h') (a : Accessor) :
    (h.withAccessor a).Alike m (h'.withAccessor a) :=
  ⟨hh.pos, hh.isStatic, hh.key, by simp [Head.withAccessor, hh.modifiers]⟩

theorem withModifiers (hh : h.Alike m h') (ms : Modifiers) :
    Head.Alike m { h with modifiers := ms } { h' with modifiers := ms } :=
  ⟨hh.pos, hh.isStatic, hh.key, rfl⟩

theorem accessorWord (hh : h.Alike m h') :
    L.runs (Head.Alike m) (Grammar.accessorWord h) (Grammar.accessorWord h') := by
  refine L.bind (tryModifier hh _ _) ?_
  rintro ⟨isGetter, h₁⟩ ⟨_, h₁'⟩ ⟨rfl, hh₁⟩
  refine ite rfl (L.pure (withAccessor hh₁ .get)) (L.bind (tryModifier hh₁ _ _) ?_)
  rintro ⟨isSetter, h₂⟩ ⟨_, h₂'⟩ ⟨rfl, hh₂⟩
  cases isSetter with
  | true => exact L.pure (withAccessor hh₂ .set)
  | false => exact L.pure hh₂

theorem asyncHead (hh : h.Alike m h') :
    L.runs (Head.Alike m) (Grammar.asyncHead h) (Grammar.asyncHead h') := by
  refine L.bind asyncStar ?_
  rintro star _ rfl
  exact L.pure (withModifiers hh _)

theorem plainModifiers (hh : h.Alike m h') :
    L.runs (Head.Alike m) (Grammar.plainModifiers h) (Grammar.plainModifiers h') := by
  refine choose (accept _) (L.pure (withModifiers hh _)) (L.bind L.context fun c c' hc =>
    ite_iff (by rw [hc.edition]) (L.bind (tryModifier hh _ _) ?_) (accessorWord hh))
  rintro ⟨isAsync, h₁⟩ ⟨_, h₁'⟩ ⟨rfl, hh₁⟩
  exact ite rfl (asyncHead hh₁) (accessorWord hh₁)

theorem methodKindFor (hh : h.Alike m h') (hk : k.Alike m k') :
    L.same (Grammar.methodKindFor h k) (Grammar.methodKindFor h' k') := by
  unfold Grammar.methodKindFor
  rw [hh.isStatic, hh.modifiers, hk.name?]
  exact ite rfl
    (ite rfl (L.reject (.same rfl rfl hk.node.pos)) (ite rfl (L.reject (.same rfl rfl hk.node.pos))
      (ite rfl (L.reject (.same rfl rfl hk.node.pos)) done)))
    (ite rfl (L.reject (.same rfl rfl hk.node.pos)) done)

/-! Methods and fields. -/

theorem memberKey (hg : L.Grammars g g') (hh : h.Alike m h') :
    L.runs (PropertyKey.Alike m) (g.memberKey h) (g'.memberKey h') := by
  unfold Grammar.memberKey
  have hkey := hh.key
  generalize h.key = key at hkey ⊢
  generalize h'.key = key' at hkey ⊢
  cases hkey with
  | some hk => exact L.pure hk
  | none => exact propertyKey hg

theorem methodElement (hg : L.Grammars g g') (hh : h.Alike m h') (hk : k.Alike m k')
    (kind : MethodKind) : L.nodes (g.methodElement h k kind) (g'.methodElement h' k' kind) := by
  unfold Grammar.methodElement
  rw [hh.modifiers, hh.isStatic, hk.computed, hk.node.isPrivateName]
  exact L.bind (L.within (.privateMethod _) (method hg _ _)) fun _ _ hvalue =>
    step (checkAccessor _ hvalue) fun _ _ => L.pure ⟨.method hk.node hvalue, hh.pos⟩

theorem fieldElement (hg : L.Grammars g g') (hh : h.Alike m h') (hk : k.Alike m k') :
    L.nodes (g.fieldElement h k) (g'.fieldElement h' k') := by
  unfold Grammar.fieldElement
  rw [hh.isStatic, hk.computed]
  exact L.bind (L.within (.staticField _) (initializer? hg)) fun _ _ hvalue =>
    step semicolon fun _ _ => L.pure ⟨.field hk.node hvalue, hh.pos⟩

theorem start {t t' : Token} (ht : t.Alike m t') : (Head.start t).Alike m (.start t') :=
  ⟨ht.pos, rfl, .none, rfl⟩

theorem withStatic (hh : h.Alike m h') (isStatic : Bool) :
    Head.Alike m { h with isStatic } { h' with isStatic } :=
  ⟨hh.pos, rfl, hh.key, hh.modifiers⟩

theorem plainElement (hg : L.Grammars g g') : L.nodes g.plainElement g'.plainElement := by
  refine L.bind L.peek fun t t' ht => L.bind (tryModifier (start ht) _ _) ?_
  rintro ⟨isStatic, h⟩ ⟨_, h'⟩ ⟨rfl, hh⟩
  refine L.bind (plainModifiers (withStatic hh _)) fun _ _ hh => L.bind (memberKey hg hh)
    fun _ _ hk => L.bind (methodKindFor hh hk) ?_
  rintro kind _ rfl
  exact methodElement hg hh hk kind

theorem checkStaticConstructor (hh : h.Alike m h') (hk : k.Alike m k') :
    L.steps (Grammar.checkStaticConstructor h k) (Grammar.checkStaticConstructor h' k') :=
  ite (by rw [hh.isStatic, hh.modifiers, hk.name?]) (L.reject (.same rfl rfl hk.node.pos))
    (L.pure trivial)

theorem methodOrField (hg : L.Grammars g g') (hh : h.Alike m h') (hk : k.Alike m k') :
    L.nodes (g.methodOrField h k) (g'.methodOrField h' k') := by
  refine L.bind (check _) ?_
  rintro hasParams _ rfl
  refine L.bind L.context fun c c' hc => ite ?_ ?_ ?_
  · rw [hh.isStatic, hh.modifiers, hc.edition]
  · exact L.bind (fieldElement hg hh hk) fun _ _ hn => step (checkStaticConstructor hh hk)
      fun _ _ => L.pure hn
  · rw [hh.modifiers]
    exact L.bind (methodElement hg hh hk _) fun _ _ hn => step (checkStaticConstructor hh hk)
      fun _ _ => L.pure hn

theorem privateField (hg : L.Grammars g g') (hh : h.Alike m h') (hk : k.Alike m k') :
    L.nodes (g.privateField h k) (g'.privateField h' k') := by
  refine ite (by rw [hh.modifiers]) unexpectedNext ?_
  have hfield := fieldElement hg hh hk
  have hpos := hk.node.pos
  have hshape := hk.node.shape
  generalize k.node.shape = s at hshape ⊢
  generalize k'.node.shape = s' at hshape ⊢
  cases hshape
  case privateName hw =>
    refine ite ?_ (L.reject (.same rfl rfl hpos)) hfield
    rw [hh.isStatic, m.word_beq hw (by simp)]
  all_goals exact hfield

/-! Private members. -/

theorem elementKind (hh : h.Alike m h') :
    L.same (Grammar.elementKind h) (Grammar.elementKind h') := by
  unfold Grammar.elementKind
  rw [hh.modifiers]
  split
  · exact done
  · exact choose (check _) done done

theorem privateKey (hh : h.Alike m h') :
    L.runs (PropertyKey.Alike m) (Grammar.privateKey h) (Grammar.privateKey h') := by
  refine L.bind privateName fun i i' hi => ite ?_ (L.reject (.same rfl rfl hi.pos))
    (L.bind (elementKind hh) ?_)
  · rw [hh.isStatic, m.word_beq hi.word (by simp)]
  · rintro kind _ rfl
    exact step (L.declare hi.word hh.pos) fun _ _ => L.pure ⟨⟨.privateName hi.word, hi.pos⟩, rfl⟩

theorem elementRest (hg : L.Grammars g g') (hh : h.Alike m h') :
    L.nodes (g.elementRest h) (g'.elementRest h') := by
  unfold Grammar.elementRest
  have hkey := hh.key
  generalize h.key = key at hkey ⊢
  generalize h'.key = key' at hkey ⊢
  cases hkey with
  | some hk => exact methodOrField hg hh hk
  | none =>
    refine L.bind L.peek fun t t' ht => ite (ht.kind.congr Kind.isPrivateName fun _ _ => rfl) ?_ ?_
    · exact L.bind (privateKey hh) fun _ _ hk => choose (check _) (methodOrField hg hh hk)
        (privateField hg hh hk)
    · exact L.bind (propertyKey hg) fun _ _ hk => ite (by rw [hk.name?])
        (L.reject (.same rfl rfl hk.node.pos)) (methodOrField hg hh hk)

theorem asyncElement (hg : L.Grammars g g') (hh : h.Alike m h') :
    L.nodes (g.asyncElement h) (g'.asyncElement h') := by
  refine L.bind (L.peekAt 1) fun t t' ht => ite ?_ ?_ (L.bind (tryModifier hh _ _) ?_)
  · rw [hh.isStatic, ht.is rfl, ht.is rfl]
  · exact L.bind propertyWord fun _ _ hi => fieldElement hg hh ⟨hi.node, rfl⟩
  · rintro ⟨isAsync, h₁⟩ ⟨_, h₁'⟩ ⟨rfl, hh₁⟩
    exact ite rfl (L.bind (asyncHead hh₁) fun _ _ hh₂ => elementRest hg hh₂) (elementRest hg hh₁)

theorem extendedElement (hg : L.Grammars g g') (hh : h.Alike m h') :
    L.nodes (g.extendedElement h) (g'.extendedElement h') := by
  refine choose (accept _) (elementRest hg (withModifiers hh _)) (L.bind L.context fun c c' hc =>
    L.bind (checkWord _) ?_)
  rintro isAsync _ rfl
  exact ite (by rw [hc.edition]) (asyncElement hg hh)
    (L.bind (accessorWord hh) fun _ _ hh₁ => elementRest hg hh₁)

theorem startsPrivateElement :
    L.same Grammar.startsPrivateElement Grammar.startsPrivateElement := by
  refine L.bind L.peek fun t t' ht => L.bind (L.peekAt 1) fun u u' hu => ?_
  have hfollower : isMemberFollower u.kind = isMemberFollower u'.kind :=
    hu.kind.congr isMemberFollower fun _ _ => rfl
  simp only [ht.is (k := .punct .star) rfl, ht.is (k := .name "async") rfl,
    ht.is (k := .name "get") rfl, ht.is (k := .name "set") rfl, hu.is (k := .punct .star) rfl,
    hu.newline, hfollower]
  exact L.bind (L.peekAt _) fun _ _ hx => L.pure (hx.kind.congr Kind.isPrivateName fun _ _ => rfl)

theorem privateDialectElement (hg : L.Grammars g g') :
    L.nodes g.privateDialectElement g'.privateDialectElement := by
  refine L.bind L.peek fun t t' ht => L.bind L.pending fun ts ts' hts =>
    L.bind (tryModifier (start ht) _ _) ?_
  rintro ⟨isStatic, h⟩ ⟨_, h'⟩ ⟨rfl, hh⟩
  refine ite rfl (extendedElement hg (withStatic hh true)) (step (L.restore hts) fun _ _ => ?_)
  exact choose startsPrivateElement (extendedElement hg (start ht)) (plainElement hg)

/-! Classes. -/

theorem className? (isExpression : Bool) :
    L.runs (Option.Rel (Node.Alike m)) (Grammar.className? isExpression)
      (Grammar.className? isExpression) :=
  L.bind L.peek fun _ _ ht => ite (ht.kind.congr Kind.isName fun _ _ => rfl)
    (L.bind ident fun _ _ hi => L.pure (.some hi.node))
    (ite rfl (L.pure .none) (L.reject (.same rfl rfl ht.pos)))

theorem classElement (hg : L.Grammars g g') :
    L.runs (Option.Rel (Node.Alike m)) g.classElement g'.classElement := by
  refine choose (accept _) (L.pure .none) (L.bind L.context fun c c' hc => ?_)
  rw [← hc.dialect]
  cases c.dialect with
  | plain => exact L.bind (plainElement hg) fun _ _ hn => L.pure (.some hn)
  | withPrivate => exact L.bind (privateDialectElement hg) fun _ _ hn => L.pure (.some hn)

theorem classMembers (hg : L.Grammars g g') :
    L.runs (List.Forall₂ (Node.Alike m)) g.classMembers g'.classMembers := by
  unfold Grammar.classMembers
  rw [← hg.turns]
  refine step (expect _) fun _ _ => collectFrom (S := Eq) ?_ g.turns rfl
  rintro hasConstructor _ rfl
  refine choose (accept _) (L.pure (.stop .nil)) (choose atEnd unexpectedNext
    (L.bind (classElement hg) fun r r' hr => ?_))
  cases hr with
  | none => exact L.pure (.more .nil rfl)
  | some hn =>
    refine ite (by rw [hn.isConstructor]) (L.reject (.same rfl rfl hn.pos)) ?_
    exact L.pure (.more (.cons hn .nil) (by rw [hn.isConstructor]))

theorem superclass? (hg : L.Grammars g g') :
    L.runs (Option.Rel (Node.Alike m)) g.superclass? g'.superclass? :=
  choose (acceptKeyword _) (L.bind hg.subscripted fun _ _ h => L.pure (.some h)) (L.pure .none)

theorem classRest (hg : L.Grammars g g') (isExpression : Bool) :
    L.nodes (g.classRest isExpression) (g'.classRest isExpression) :=
  L.bind (expectKeyword _) fun _ _ ht => L.within .strict (L.bind (className? isExpression)
    fun _ _ hname => L.bind (superclass? hg) fun _ _ hsuper => L.bind (classMembers hg)
      fun _ _ hmembers => L.pure (ht.node (.class_ hname hsuper hmembers)))

theorem class_ (hg : L.Grammars g g') (isExpression : Bool) :
    L.nodes (g.class_ isExpression) (g'.class_ isExpression) := by
  refine L.bind L.context fun c c' hc => ?_
  rw [← hc.dialect]
  cases c.dialect with
  | plain => exact classRest hg isExpression
  | withPrivate => exact L.inClassBody (classRest hg isExpression)

end JsClass.Likeness
