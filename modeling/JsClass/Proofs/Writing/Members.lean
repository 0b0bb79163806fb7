import JsClass.Proofs.Writing.Functions

/-! What the rules for classes and their members write. -/
namespace JsClass.Grammar

open JsClass.Parser

variable {g : Grammar} {c : Context} {r s t : State} {n : Node} {h h' : Head} {k : PropertyKey}

/-! Heads. -/

/-- The key of a head, if it has one, has been written from where the member begins. -/
structure Head.Written (h : Head) (c : Context) (r s : State) : Prop where
  pos : h.pos = (c.next r).pos
  writes : c.Writes r (h.key.toList.map PropertyKey.node) s

theorem Head.written_start : (Head.start (c.next s)).Written c s s := ⟨rfl, .rfl'⟩

theorem Head.Written.then (hh : h.Written c r s) (hw : c.Writes s [] t) : h.Written c r t := by
  have hwrites := hh.writes.trans hw
  rw [List.append_nil] at hwrites
  exact ⟨hh.pos, hwrites⟩

/-- Modifiers are not written. -/
theorem Head.Written.of_key (hh : h.Written c r s) (hpos : h'.pos = h.pos) (hkey : h'.key = h.key) :
    h'.Written c r s :=
  ⟨hpos.trans hh.pos, hkey ▸ hh.writes⟩

/-- A modifier's word leaves no trace, and as a name it is the key. -/
theorem tryModifier_written {word : String} {noLineBreak b : Bool}
    (hword : grammarWords.contains word = true) (hh : h.Written c r s)
    (ht : tryModifier h word noLineBreak c s = .ok (b, h') t) : h'.Written c r t := by
  simp only [tryModifier, bind_eq_ok] at ht
  obtain ⟨m, u, hm, ht⟩ := ht
  obtain ⟨-, hname⟩ := modifierWord_reads hm
  rcases modifierWord_next hm with ⟨hne, hn, rfl⟩ | ⟨rfl, -, rfl⟩
  · cases m with
    | absent => exact absurd rfl hne
    | modifier =>
      simp only [pure_eq_ok, Prod.mk.injEq] at ht
      obtain ⟨⟨rfl, rfl⟩, rfl⟩ := ht
      have htakes : c.Takes s (c.next s) s.skip := ⟨rfl, rfl, by rw [hn]; exact hword⟩
      exact hh.then htakes.writes
    | name key =>
      simp only [ite_eq_ok, unexpectedNext_eq_ok, pure_eq_ok, Prod.mk.injEq, and_false,
        false_or] at ht
      obtain ⟨hnone, ⟨rfl, rfl⟩, rfl⟩ := ht
      simp only [Bool.not_eq_true, Option.isSome_eq_false_iff, Option.isNone_iff_eq_none] at hnone
      obtain rfl := hname key rfl
      have hany : anyWord c s = .ok ⟨word, (c.next s).pos⟩ s.skip :=
        anyWord_eq_ok.2 ⟨word, by rw [hn]; rfl, rfl, rfl⟩
      have hwrites := hh.writes
      rw [hnone] at hwrites
      exact ⟨hh.pos, hwrites.trans (anyWord_writes hany)⟩
  · simp only [pure_eq_ok, Prod.mk.injEq] at ht
    obtain ⟨⟨rfl, rfl⟩, rfl⟩ := ht
    exact hh

theorem accessorWord_written (hh : h.Written c r s) (ht : accessorWord h c s = .ok h' t) :
    h'.Written c r t := by
  simp only [accessorWord, bind_eq_ok, ite_eq_ok, pure_eq_ok] at ht
  obtain ⟨⟨b, h₁⟩, u, hu, ⟨-, rfl, rfl⟩ | ⟨-, ⟨b', h₂⟩, v, hv, rfl, rfl⟩⟩ := ht
  · exact (tryModifier_written rfl hh hu).of_key rfl rfl
  · have hwritten := tryModifier_written rfl (tryModifier_written rfl hh hu) hv
    cases b' with
    | true => exact hwritten.of_key rfl rfl
    | false => exact hwritten

theorem asyncHead_written (hh : h.Written c r s) (ht : asyncHead h c s = .ok h' t) :
    h'.Written c r t := by
  simp only [asyncHead, bind_eq_ok, pure_eq_ok] at ht
  obtain ⟨b, u, hu, rfl, rfl⟩ := ht
  exact (hh.then (asyncStar_writes hu)).of_key rfl rfl

theorem plainModifiers_written (hh : h.Written c r s) (ht : plainModifiers h c s = .ok h' t) :
    h'.Written c r t := by
  simp only [plainModifiers, bind_eq_ok, ite_eq_ok, context_eq_ok, pure_eq_ok] at ht
  obtain ⟨_, u, hu, ht⟩ := ht
  have hu := hh.then (accept_writes hu)
  obtain ⟨-, rfl, rfl⟩ | ⟨-, _, _, ⟨rfl, rfl⟩, ⟨-, ⟨b, h₁⟩, v, hv, ht⟩ | ⟨-, ht⟩⟩ := ht
  · exact hu.of_key rfl rfl
  · have hv := tryModifier_written rfl hu hv
    rcases ht with ⟨-, ht⟩ | ⟨-, ht⟩
    · exact asyncHead_written hv ht
    · exact accessorWord_written hv ht
  · exact accessorWord_written hu ht

/-! Methods and fields. -/

theorem Modifiers.accessor?_methodKind (m : Modifiers) : m.methodKind.accessor? = m.accessor := by
  rcases ha : m.accessor with _ | _ | _ <;> simp [methodKind, ha] <;> rfl

/-- A constructor has no modifiers, so the kind of a method says which accessor it is. -/
theorem methodKindFor_accessor {kind : MethodKind} (ht : methodKindFor h k c s = .ok kind t) :
    kind.accessor? = h.modifiers.accessor := by
  simp only [methodKindFor, ite_eq_ok, reject_eq_ok, and_false, false_or, pure_eq_ok] at ht
  obtain ⟨-, hnone, -, -, rfl, -⟩ | ⟨-, -, rfl, -⟩ := ht
  · exact (by simpa using hnone : h.modifiers.accessor = none).symm
  · exact h.modifiers.accessor?_methodKind

theorem methodElement_writes (hg : g.Faithful) {kind : MethodKind} (hpos : h.pos = (c.next r).pos)
    (hkind : kind.accessor? = h.modifiers.accessor) (hk : c.Writes r [k.node] s)
    (ht : g.methodElement h k kind c s = .ok n t) : c.Writes r [n] t := by
  simp only [methodElement, within_apply, bind_eq_ok, pure_eq_ok] at ht
  obtain ⟨value, u, hu, _, v, hv, rfl, rfl⟩ := ht
  have hvalue := method_records hg hu hv
  rw [← hkind] at hvalue
  exact hk.member hvalue rfl rfl hpos

theorem fieldElement_writes (hg : g.Faithful) (hpos : h.pos = (c.next r).pos)
    (hk : c.Writes r [k.node] s) (ht : g.fieldElement h k c s = .ok n t) : c.Writes r [n] t := by
  simp only [fieldElement, within_apply, bind_eq_ok, pure_eq_ok] at ht
  obtain ⟨value, u, hu, _, v, hv, rfl, rfl⟩ := ht
  have hvalue := initializer?_writes hg hu
  have hsemicolon := semicolon_writes hv
  have hparts := hk.trans (hvalue.trans hsemicolon)
  exact hparts.around (List.cons_ne_nil _ _) rfl rfl hpos rfl

theorem memberKey_writes (hg : g.Faithful) (hh : h.Written c r s)
    (ht : g.memberKey h c s = .ok k t) : c.Writes r [k.node] t := by
  have hwrites := hh.writes
  cases hk : h.key with
  | none =>
    rw [memberKey, hk] at ht
    rw [hk] at hwrites
    exact hwrites.trans (propertyKey_writes hg ht)
  | some key =>
    simp only [memberKey, hk, pure_eq_ok] at ht
    obtain ⟨rfl, rfl⟩ := ht
    rw [hk] at hwrites
    exact hwrites

theorem plainElement_writes (hg : g.Faithful) (ht : g.plainElement c s = .ok n t) :
    c.Writes s [n] t := by
  simp only [plainElement, bind_eq_ok, peek_eq_ok] at ht
  obtain ⟨_, _, ⟨rfl, rfl⟩, ⟨isStatic, h₁⟩, u, hu, h₂, v, hv, k, w, hw, kind, x, hx, ht⟩ := ht
  have h₁written := tryModifier_written rfl Head.written_start hu
  have h₁written : Head.Written { h₁ with isStatic } c s u := h₁written.of_key rfl rfl
  have h₂written := plainModifiers_written h₁written hv
  have hkind := methodKindFor_accessor hx
  obtain ⟨rfl, -⟩ := methodKindFor_cases hx
  exact methodElement_writes hg h₂written.pos hkind (memberKey_writes hg h₂written hw) ht

/-! Static members and members with a private key. -/

theorem privateKey_writes (ht : privateKey h c s = .ok k t) : c.Writes s [k.node] t := by
  simp only [privateKey, bind_eq_ok, ite_eq_ok, reject_eq_ok, onScope_eq_ok, pure_eq_ok, and_false,
    false_or] at ht
  obtain ⟨name, u, hu, -, kind, v, hv, _, _, ⟨scope, -, rfl⟩, rfl, rfl⟩ := ht
  obtain ⟨rfl, -⟩ := elementKind_cases hv
  exact (privateName_writes hu).trans (.refl rfl rfl)

theorem methodOrField_writes (hg : g.Faithful) (hpos : h.pos = (c.next r).pos)
    (hk : c.Writes r [k.node] s) (ht : g.methodOrField h k c s = .ok n t) : c.Writes r [n] t := by
  simp only [methodOrField, bind_eq_ok, ite_eq_ok, check_eq_ok, context_eq_ok, pure_eq_ok] at ht
  obtain ⟨_, _, ⟨rfl, rfl⟩, _, _, ⟨rfl, rfl⟩, ⟨-, _, u, hu, _, v, hv, rfl, rfl⟩ |
    ⟨-, _, u, hu, _, v, hv, rfl, rfl⟩⟩ := ht
  · obtain ⟨rfl, -⟩ := checkStaticConstructor_eq_ok hv
    exact fieldElement_writes hg hpos hk hu
  · obtain ⟨rfl, -⟩ := checkStaticConstructor_eq_ok hv
    exact methodElement_writes hg hpos h.modifiers.accessor?_methodKind hk hu

theorem privateField_writes (hg : g.Faithful) (hpos : h.pos = (c.next r).pos)
    (hk : c.Writes r [k.node] s) (ht : g.privateField h k c s = .ok n t) : c.Writes r [n] t := by
  simp only [privateField, ite_eq_ok, unexpectedNext_eq_ok, and_false, false_or] at ht
  obtain ⟨-, ht⟩ := ht
  cases hshape : k.node.shape <;> simp only [hshape] at ht
  case privateName name =>
    simp only [ite_eq_ok, reject_eq_ok, and_false, false_or] at ht
    exact fieldElement_writes hg hpos hk ht.2
  all_goals exact fieldElement_writes hg hpos hk ht

theorem elementRest_writes (hg : g.Faithful) (hh : h.Written c r s)
    (ht : g.elementRest h c s = .ok n t) : c.Writes r [n] t := by
  have hwrites := hh.writes
  cases hkey : h.key with
  | some k =>
    simp only [elementRest, hkey] at ht
    rw [hkey] at hwrites
    exact methodOrField_writes hg hh.pos hwrites ht
  | none =>
    rw [hkey] at hwrites
    simp only [elementRest, hkey, bind_eq_ok, peek_eq_ok, ite_eq_ok, check_eq_ok, reject_eq_ok,
      and_false, false_or] at ht
    obtain ⟨_, _, ⟨rfl, rfl⟩, ⟨-, k, u, hu, _, _, ⟨-, rfl⟩, ht⟩ | ⟨-, k, u, hu, -, ht⟩⟩ := ht
    · have hk := hwrites.trans (privateKey_writes hu)
      rcases ht with ⟨-, ht⟩ | ⟨-, ht⟩
      · exact methodOrField_writes hg hh.pos hk ht
      · exact privateField_writes hg hh.pos hk ht
    · exact methodOrField_writes hg hh.pos (hwrites.trans (propertyKey_writes hg hu)) ht

theorem asyncElement_writes (hg : g.Faithful) (hh : h.Written c r s) (hk : h.key = none)
    (ht : g.asyncElement h c s = .ok n t) : c.Writes r [n] t := by
  simp only [asyncElement, bind_eq_ok, peekAt_eq_ok, ite_eq_ok] at ht
  obtain ⟨_, _, ⟨rfl, rfl⟩, ⟨-, i, u, hu, ht⟩ | ⟨-, ⟨b, h₁⟩, u, hu, ht⟩⟩ := ht
  · have hwrites := hh.writes
    rw [hk] at hwrites
    have hkey : c.Writes r [(PropertyKey.mk i.node false).node] u :=
      hwrites.trans (propertyWord_writes hu)
    exact fieldElement_writes hg hh.pos hkey ht
  · have h₁written := tryModifier_written rfl hh hu
    rcases ht with ⟨-, h₂, v, hv, ht⟩ | ⟨-, ht⟩
    · exact elementRest_writes hg (asyncHead_written h₁written hv) ht
    · exact elementRest_writes hg h₁written ht

theorem extendedElement_writes (hg : g.Faithful) (hh : h.Written c r s) (hk : h.key = none)
    (ht : g.extendedElement h c s = .ok n t) : c.Writes r [n] t := by
  simp only [extendedElement, bind_eq_ok, ite_eq_ok, context_eq_ok, checkWord_eq_ok] at ht
  obtain ⟨_, u, hu, ht⟩ := ht
  have hu := hh.then (accept_writes hu)
  obtain ⟨-, ht⟩ | ⟨-, _, _, ⟨rfl, rfl⟩, _, _, ⟨-, rfl⟩, ⟨-, ht⟩ | ⟨-, h₁, v, hv, ht⟩⟩ := ht
  · refine elementRest_writes hg ?_ ht
    exact hu.of_key rfl rfl
  · exact asyncElement_writes hg hu hk ht
  · exact elementRest_writes hg (accessorWord_written hu hv) ht

theorem startsPrivateElement_eq_ok {b : Bool} (h : startsPrivateElement c s = .ok b t) :
    s = t := by
  simp only [startsPrivateElement, bind_eq_ok, peek_eq_ok, peekAt_eq_ok, pure_eq_ok] at h
  obtain ⟨_, _, ⟨-, rfl⟩, _, _, ⟨-, rfl⟩, _, _, ⟨-, rfl⟩, -, rfl⟩ := h
  rfl

/-- What was read for a look at `static` is read again, so it is written once. -/
theorem privateDialectElement_writes (hg : g.Faithful)
    (ht : g.privateDialectElement c s = .ok n t) : c.Writes s [n] t := by
  simp only [privateDialectElement, bind_eq_ok, peek_eq_ok, pending_eq_ok, ite_eq_ok,
    restore_eq_ok] at ht
  obtain ⟨_, _, ⟨rfl, rfl⟩, _, _, ⟨rfl, rfl⟩, ⟨b, h⟩, u, hu, ⟨hb, ht⟩ | ⟨-, _, _, rfl, ht⟩⟩ := ht
  · have hwritten := tryModifier_written rfl Head.written_start hu
    obtain rfl := (tryModifier_key hu).2 hb
    refine extendedElement_writes hg ?_ rfl ht
    exact hwritten.of_key rfl rfl
  · rw [tryModifier_restore hu] at ht
    obtain ⟨p, v, hv, ⟨-, ht⟩ | ⟨-, ht⟩⟩ := ht
    · obtain rfl := startsPrivateElement_eq_ok hv
      exact extendedElement_writes hg Head.written_start rfl ht
    · obtain rfl := startsPrivateElement_eq_ok hv
      exact plainElement_writes hg ht

/-! Classes. -/

theorem className?_writes {isExpression : Bool} {name : Option Node}
    (h : className? isExpression c s = .ok name t) : c.Writes s name.toList t := by
  simp only [className?, bind_eq_ok, peek_eq_ok, ite_eq_ok, reject_eq_ok, pure_eq_ok, and_false,
    or_false] at h
  obtain ⟨_, _, ⟨rfl, rfl⟩, ⟨-, i, u, hu, rfl, rfl⟩ | ⟨-, -, rfl, rfl⟩⟩ := h
  · exact ident_writes hu
  · exact .rfl'

theorem classElement_writes (hg : g.Faithful) {m : Option Node}
    (h : g.classElement c s = .ok m t) : c.Writes s m.toList t := by
  simp only [classElement, bind_eq_ok, ite_eq_ok, context_eq_ok, pure_eq_ok] at h
  obtain ⟨_, u, hu, ⟨-, rfl, rfl⟩ | ⟨-, _, _, ⟨rfl, rfl⟩, h⟩⟩ := h
  · exact accept_writes hu
  · cases hd : c.dialect with
    | plain =>
      simp only [hd, bind_eq_ok, pure_eq_ok] at h
      obtain ⟨m, v, hv, rfl, rfl⟩ := h
      exact (accept_writes hu).trans (plainElement_writes hg hv)
    | withPrivate =>
      simp only [hd, bind_eq_ok, pure_eq_ok] at h
      obtain ⟨m, v, hv, rfl, rfl⟩ := h
      exact (accept_writes hu).trans (privateDialectElement_writes hg hv)

theorem classMembers_writes (hg : g.Faithful) {members : List Node}
    (h : g.classMembers c s = .ok members t) : c.Writes s members t := by
  simp only [classMembers, bind_eq_ok] at h
  obtain ⟨_, u, hu, h⟩ := h
  rw [← List.flatMap_singleton' members]
  refine (expect_writes hu).trans (collectFrom_writes ?_ h)
  intro hasConstructor s r t hr
  simp only [bind_eq_ok, ite_eq_ok, pure_eq_ok, atEnd_eq_ok, unexpectedNext_eq_ok, and_false,
    false_or] at hr
  obtain ⟨_, v, hv, ⟨-, rfl, rfl⟩ | ⟨-, _, _, ⟨-, rfl⟩, -, m, w, hw, h⟩⟩ := hr
  · exact accept_writes hv
  · have hm := (accept_writes hv).trans (classElement_writes hg hw)
    cases m with
    | none =>
      obtain ⟨rfl, rfl⟩ := pure_eq_ok.1 h
      exact hm
    | some m =>
      simp only [ite_eq_ok, reject_eq_ok, pure_eq_ok, and_false, false_or] at h
      obtain ⟨-, rfl, rfl⟩ := h
      exact hm

theorem superclass?_writes (hg : g.Faithful) {n : Option Node}
    (h : g.superclass? c s = .ok n t) : c.Writes s n.toList t := by
  simp only [superclass?, bind_eq_ok, ite_eq_ok, pure_eq_ok] at h
  obtain ⟨_, u, hu, ⟨-, x, v, hx, rfl, rfl⟩ | ⟨-, rfl, rfl⟩⟩ := h
  · exact (acceptKeyword_writes hu).trans (hg.subscripted hx)
  · exact acceptKeyword_writes hu

theorem classRest_writes (hg : g.Faithful) {isExpression : Bool}
    (h : g.classRest isExpression c s = .ok n t) : c.Writes s [n] t := by
  simp only [classRest, within_apply, bind_eq_ok, pure_eq_ok] at h
  obtain ⟨x, u, hu, name, v, hv, superclass, w, hw, members, y, hy, rfl, rfl⟩ := h
  have hname := className?_writes hv
  have hsuper := superclass?_writes hg hw
  have hmembers := classMembers_writes hg hy
  exact (expectKeyword_takes hu).node (hname.trans (hsuper.trans hmembers.done)) rfl rfl

theorem class_writes (hg : g.Faithful) {isExpression : Bool}
    (h : g.class_ isExpression c s = .ok n t) : c.Writes s [n] t := by
  simp only [class_, bind_eq_ok, context_eq_ok] at h
  obtain ⟨_, _, ⟨rfl, rfl⟩, h⟩ := h
  cases hd : c.dialect with
  | plain =>
    simp only [hd] at h
    exact classRest_writes hg h
  | withPrivate =>
    simp only [hd, inClassBody_eq_ok] at h
    obtain ⟨u, hu, scope, -, rfl⟩ := h
    have hclass := classRest_writes hg hu
    exact hclass

end JsClass.Grammar
