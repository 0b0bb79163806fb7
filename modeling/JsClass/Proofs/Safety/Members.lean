import JsClass.Proofs.Extension.Members
import JsClass.Proofs.Safety.Functions

/-!
Classes and their members. A member takes a token at least: if its key was not among the words
before it, then behind them.
-/
namespace JsClass.Grammar

open JsClass.Parser

variable {m : Nat} {g : Grammar} {c : Context} {s t u : State} {S : Site} {h : Head}

/-! Words before a member. -/

theorem endsMemberName_safe : endsMemberName.Steady m S := by
  refine .glance fun _ => .context fun d => ?_
  cases d.dialect with
  | plain | withPrivate => exact .done

theorem modifierWord_safe (word : String) (noLineBreak : Bool) [S.Stable] :
    (modifierWord word noLineBreak).Steady m S :=
  .glance fun _ => .acceptKind_ite nofun (.bind endsMemberName_safe fun _ =>
    .canInsertSemicolon fun _ => .ite (fun _ => .done) fun _ => .done) .done

theorem tryModifier_safe (h : Head) (word : String) (noLineBreak : Bool) [S.Stable] :
    (tryModifier h word noLineBreak).Safe m S fun r =>
      r.1 = true ∨ h.key = none ∧ r.2.key.isSome := by
  -- whether the word was there is not seen from the steps, but from the result
  have hsteady : (tryModifier h word noLineBreak).Steady m S := by
    refine .bind (modifierWord_safe word noLineBreak) fun w => ?_
    cases w with
    | absent | modifier => exact .done
    | name k => exact .ite (fun _ => .unexpectedNext) fun _ => .done
  refine hsteady.takes_of fun {c s r t} hc hr htaken => ?_
  rcases tryModifier_word hr with ⟨hn, rfl, -⟩ | ⟨-, hb, hsame, -⟩
  · exact (Context.next_mem hc (by simp [hn])).2
  · rw [hb, hsame] at htaken
    obtain ⟨⟨⟩⟩ | ⟨hnone, hsome⟩ := htaken
    simp [hnone] at hsome

theorem accessorWord_safe (h : Head) [S.Stable] :
    (accessorWord h).Safe m S fun h' => h.key = none ∧ h'.key.isSome := by
  refine .bind_of (tryModifier_safe h "get" false) fun ⟨isGetter, h₁⟩ => .ite (fun hget => ?_)
    fun _ => .bind_of (tryModifier_safe h₁ "set" false) fun ⟨isSetter, h₂⟩ => ?_
  · exact .pure fun hT => hT.2 (Or.inl hget)
  · refine .pure fun hT => ?_
    obtain ⟨⟨⟨hnone, hsome⟩, hget⟩, hset⟩ := hT
    cases isSetter <;> simp_all

theorem asyncHead_safe (h : Head) [S.Stable] : (asyncHead h).Steady m S :=
  .bind asyncStar_safe fun _ => .done

theorem plainModifiers_safe (h : Head) : (plainModifiers h).Steady m .anywhere := by
  refine .accept (V := fun _ => False) .done (.context fun _ => .ite (fun _ => ?_) fun _ => ?_)
  · refine .bind (tryModifier_safe _ _ _) fun r => .ite (fun _ => asyncHead_safe _) fun _ => ?_
    exact (accessorWord_safe _).steady
  · exact (accessorWord_safe _).steady

theorem methodKindFor_safe (h : Head) (k : PropertyKey) : (methodKindFor h k).Steady m S :=
  .ite (fun _ => .ite (fun _ => .reject _ _) fun _ => .ite (fun _ => .reject _ _) fun _ =>
    .ite (fun _ => .reject _ _) fun _ => .done)
    fun _ => .ite (fun _ => .reject _ _) fun _ => .done

/-! Methods and fields. -/

theorem methodElement_safe (hg : g.Safe m) (h : Head) (k : PropertyKey) (kind : MethodKind) :
    (g.methodElement h k kind).Takes m .anywhere :=
  .take (.within (fun _ => rfl) (fun _ _ h => h) (method_safe hg _ _).fewer) fun _ =>
    .bind (checkAccessor_safe _ _) fun _ => .done

theorem fieldElement_safe (hg : g.Safe m) (h : Head) (k : PropertyKey) :
    (g.fieldElement h k).Steady m .anywhere :=
  .bind (.within (fun _ => rfl) (fun _ _ h => h) (initializer?_safe hg)) fun _ =>
    .bind .semicolon fun _ => .done

theorem memberKey_safe (hg : g.Safe m) (h : Head) : (g.memberKey h).Steady m .anywhere := by
  unfold memberKey
  split
  · exact .done
  · exact (propertyKey_safe hg).fewer.weaken

theorem plainElement_safe (hg : g.Safe m) : g.plainElement.Takes m .anywhere :=
  .glance fun _ => .bind (tryModifier_safe _ _ _) fun _ => .bind (plainModifiers_safe _) fun _ =>
    .bind (memberKey_safe hg _) fun _ => .bind (methodKindFor_safe _ _) fun _ =>
      methodElement_safe hg _ _ _

theorem checkStaticConstructor_safe (h : Head) (k : PropertyKey) :
    (checkStaticConstructor h k).Steady m S :=
  .ite (fun _ => .reject _ _) fun _ => .done

theorem methodOrField_safe (hg : g.Safe m) (h : Head) (k : PropertyKey) :
    (g.methodOrField h k).Steady m .anywhere :=
  .check _ fun _ => .context fun _ => .ite
    (fun _ => .bind (fieldElement_safe hg h k) fun _ =>
      .bind (checkStaticConstructor_safe h k) fun _ => .done)
    fun _ => .bind (methodElement_safe hg h k _) fun _ =>
      .bind (checkStaticConstructor_safe h k) fun _ => .done

theorem privateField_safe (hg : g.Safe m) (h : Head) (k : PropertyKey) :
    (g.privateField h k).Steady m .anywhere := by
  refine .ite (fun _ => .unexpectedNext) fun _ => ?_
  split
  · exact .ite (fun _ => .reject _ _) fun _ => fieldElement_safe hg h k
  · exact fieldElement_safe hg h k

/-! Private members, which need the class that they are declared in. -/

theorem elementKind_safe (h : Head) : (elementKind h).Steady m S := by
  unfold elementKind
  split
  · exact .done
  · exact .check _ fun _ => .ite (fun _ => .done) fun _ => .done

theorem privateKey_safe (h : Head) : (privateKey h).Takes m .inBody :=
  .take .privateName fun _ => .ite (fun _ => .reject _ _) fun _ =>
    .bind (elementKind_safe h) fun _ =>
      .bind (.onScope fun _ _ hbody => Scope.declare_depth hbody _ _ _) fun _ => .done

theorem elementRest_safe (hg : g.Safe m) (h : Head) :
    (g.elementRest h).Safe m .inBody fun _ => h.key = none := by
  unfold elementRest
  split
  · next key hkey =>
    refine ((methodOrField_safe hg h key).mono (Nat.le_refl m) fun _ hnone => ?_).anyplace
    simp [hkey] at hnone
  · refine .glance fun _ => .ite (fun _ => ?_) fun _ => ?_
    · exact .take (privateKey_safe h) fun key => .check _ fun _ =>
        .ite (fun _ => (methodOrField_safe hg h key).anyplace) fun _ =>
          (privateField_safe hg h key).anyplace
    · exact .take (propertyKey_safe hg).fewer.anyplace fun key => .ite (fun _ => .reject _ _)
        fun _ => (methodOrField_safe hg h key).anyplace

theorem asyncElement_safe (hg : g.Safe m) (h : Head) :
    (g.asyncElement h).Safe m .inBody fun _ => h.key = none := by
  refine .peekAt _ fun _ => .ite (fun _ => ?_) fun _ => ?_
  · exact .take .propertyWord fun _ => (fieldElement_safe hg h _).anyplace
  · refine .bind_of (tryModifier_safe h "async" true) fun ⟨isAsync, h'⟩ =>
      .ite (fun hb => ?_) fun _ => ?_
    · refine (Safe.bind (asyncHead_safe h') fun h => (elementRest_safe hg h).steady).mono
        (Nat.le_refl m) fun _ hT => hT.2 (Or.inl hb)
    · refine (elementRest_safe hg h').mono (Nat.le_refl m) fun _ hT => ?_
      simp_all

theorem extendedElement_safe (hg : g.Safe m) (h : Head) :
    (g.extendedElement h).Safe m .inBody fun _ => h.key = none := by
  refine .accept (elementRest_safe hg _) (.context fun _ => .checkKind _ fun _ =>
    .ite (fun _ => asyncElement_safe hg h) fun _ => .bind_of (accessorWord_safe h) fun h' => ?_)
  refine (elementRest_safe hg h').mono (Nat.le_refl m) fun _ hT => ?_
  simp_all

theorem privateDialectElement_safe (hg : g.Safe m) : g.privateDialectElement.Takes m .inBody := by
  intro c s hc hs hS
  show ((tryModifier (.start (c.next s)) "static" false >>= _) c s).Settled s _
  refine (tryModifier_safe _ _ _ hc hs hS).bind fun ⟨isStatic, h⟩ t hst hlt hrun => ?_
  cases isStatic with
  | true =>
    have ht : t.pending.length < m := Nat.lt_of_le_of_lt hst.length_le hs
    exact (extendedElement_safe hg _ hc ht (Site.Stable.passes hS hst)).behind hst
      (hlt (Or.inl rfl))
  | false =>
    -- the member is read again from its first token on
    show ((do
      if ← startsPrivateElement then g.extendedElement (.start (c.next s)) else g.plainElement :
        Parser Node) c { t with pending := s.pending }).Settled s _
    rw [tryModifier_restore hrun]
    refine Parser.Safe.look (S := .inBody) (fun _ _ => ⟨_, rfl⟩) (fun _ => .ite (fun _ => ?_)
      fun _ => (plainElement_safe hg).anyplace) hc hs hS
    exact (extendedElement_safe hg _).mono (Nat.le_refl m) fun _ _ => rfl

/-! Classes. -/

theorem className?_safe (isExpression : Bool) [S.Stable] : (className? isExpression).Steady m S :=
  .glance fun _ => .ite (fun _ => .bind .ident fun _ => .done) fun _ =>
    .ite (fun _ => .done) fun _ => .reject _ _

theorem classElement_safe (hg : g.Safe m) : g.classElement.Takes m .inClass := by
  refine .accept (V := fun _ => False) .done (.context_of fun d => ?_)
  cases hd : d.dialect with
  | plain => exact .map (plainElement_safe hg).anyplace
  | withPrivate =>
    refine .map ((privateDialectElement_safe hg).site ?_)
    rintro _ s ⟨rfl, hclass⟩
    exact hclass hd

theorem classMembers_safe (hg : g.Safe m) : g.classMembers.Takes (m + 1) .inClass := by
  refine .first (.expect _) fun _ => collectFrom_safe (fun hasConstructor => ?_) hg.turns _
  refine .accept (V := fun _ => False) .done (.look (fun _ _ => ⟨_, rfl⟩) fun _ =>
    .ite (fun _ => .unexpectedNext) fun _ =>
      .take (V := fun _ => False) (classElement_safe hg) fun member => ?_)
  cases member with
  | none => exact .done
  | some member => exact .ite (fun _ => .reject _ _) fun _ => .done

theorem superclass?_safe (hg : g.Safe m) : g.superclass?.Steady m .anywhere :=
  .acceptKeyword (.bind hg.subscripted fun _ => .done) .done

theorem classRest_safe (hg : g.Safe m) (isExpression : Bool) :
    (g.classRest isExpression).Takes (m + 1) .inClass :=
  .first (.expectKeyword _) fun _ => .within (fun _ => rfl) (fun _ _ h => h)
    (.bind (className?_safe isExpression) fun _ => .bind (superclass?_safe hg).anyplace fun _ =>
      .bind (classMembers_safe hg).fewer fun _ => .done)

theorem class_safe (hg : g.Safe m) (isExpression : Bool) :
    (g.class_ isExpression).Takes (m + 1) .anywhere := by
  refine .context_of fun d => ?_
  cases hd : d.dialect with
  | plain =>
    refine (classRest_safe hg isExpression).site ?_
    rintro _ s ⟨rfl, -⟩ hprivate
    simp [hd] at hprivate
  | withPrivate =>
    have hbody : (g.classRest isExpression).Takes (m + 1) .inBody :=
      (classRest_safe hg isExpression).site fun _ _ h _ => h
    exact (Parser.Safe.inClassBody hbody).anyplace

end JsClass.Grammar
