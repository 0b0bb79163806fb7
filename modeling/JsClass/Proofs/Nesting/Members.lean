import JsClass.Proofs.Extension.Members
import JsClass.Proofs.Nesting.Functions

/-! Classes and their members. -/
namespace JsClass.Grammar

open JsClass.Parser

variable {g : Grammar} {c : Context} {s t u : State} {S : Site} {st : List Punct}

/-! Words before a member. -/

theorem endsMemberName_still : endsMemberName.Still := by
  refine .bind .peek fun _ => .bind .context fun d => ?_
  cases d.dialect with
  | plain | withPrivate => exact .pure

theorem modifierWord_nests (word : String) (noLineBreak : Bool) :
    (modifierWord word noLineBreak).Closes S st :=
  .step .peek fun _ => .acceptKind rfl (.step endsMemberName_still fun _ =>
    .look (fun _ _ => ⟨_, rfl⟩) fun _ => .ite (fun _ => .done) fun _ => .done) .done

theorem tryModifier_nests (h : Head) (word : String) (noLineBreak : Bool) :
    (tryModifier h word noLineBreak).Closes S st := by
  refine .bind (modifierWord_nests word noLineBreak) fun w => ?_
  cases w with
  | absent | modifier => exact .done
  | name k => exact .ite (fun _ => .unexpectedNext) fun _ => .done

theorem accessorWord_nests (h : Head) : (accessorWord h).Closes S st :=
  .bind (tryModifier_nests h "get" false) fun _ => .ite (fun _ => .done) fun _ =>
    .bind (tryModifier_nests _ "set" false) fun _ => .done

theorem asyncHead_nests (h : Head) : (asyncHead h).Closes S st :=
  .bind asyncStar_nests fun _ => .done

theorem plainModifiers_nests (h : Head) : (plainModifiers h).Closes S st :=
  .accept rfl .done (.step .context fun _ => .ite
    (fun _ => .bind (tryModifier_nests _ _ _) fun _ => .ite (fun _ => asyncHead_nests _) fun _ =>
      accessorWord_nests _)
    fun _ => accessorWord_nests _)

theorem methodKindFor_still (h : Head) (k : PropertyKey) : (methodKindFor h k).Still :=
  .ite (.ite (.reject _ _) (.ite (.reject _ _) (.ite (.reject _ _) .pure)))
    (.ite (.reject _ _) .pure)

/-! Methods and fields. -/

theorem methodElement_nests (hg : g.Nests) (h : Head) (k : PropertyKey) (kind : MethodKind) :
    (g.methodElement h k kind).Closes S st :=
  .bind (.within (fun _ => rfl) (method_nests hg _ _)) fun _ =>
    .step (checkAccessor_still _ _) fun _ => .done

theorem fieldElement_nests (hg : g.Nests) (h : Head) (k : PropertyKey) :
    (g.fieldElement h k).Closes S st :=
  .bind (.within (fun _ => rfl) (initializer?_nests hg)) fun _ => .bind .semicolon fun _ => .done

theorem memberKey_nests (hg : g.Nests) (h : Head) : (g.memberKey h).Closes S st := by
  unfold memberKey
  split
  · exact .done
  · exact propertyKey_nests hg

theorem plainElement_nests (hg : g.Nests) : g.plainElement.Closes S st :=
  .step .peek fun _ => .bind (tryModifier_nests _ _ _) fun _ => .bind (plainModifiers_nests _)
    fun _ => .bind (memberKey_nests hg _) fun _ => .step (methodKindFor_still _ _) fun _ =>
      methodElement_nests hg _ _ _

theorem checkStaticConstructor_still (h : Head) (k : PropertyKey) :
    (checkStaticConstructor h k).Still :=
  .ite (.reject _ _) .pure

theorem methodOrField_nests (hg : g.Nests) (h : Head) (k : PropertyKey) :
    (g.methodOrField h k).Closes S st :=
  .look (fun _ _ => ⟨_, rfl⟩) fun _ => .step .context fun _ => .ite
    (fun _ => .bind (fieldElement_nests hg h k) fun _ =>
      .step (checkStaticConstructor_still h k) fun _ => .done)
    fun _ => .bind (methodElement_nests hg h k _) fun _ =>
      .step (checkStaticConstructor_still h k) fun _ => .done

theorem privateField_nests (hg : g.Nests) (h : Head) (k : PropertyKey) :
    (g.privateField h k).Closes S st := by
  refine .ite (fun _ => .unexpectedNext) fun _ => ?_
  split
  · exact .ite (fun _ => .reject _ _) fun _ => fieldElement_nests hg h k
  · exact fieldElement_nests hg h k

/-! Private members. -/

theorem elementKind_still (h : Head) : (elementKind h).Still := by
  unfold elementKind
  split
  · exact .pure
  · exact .bind (.look fun _ _ => ⟨_, rfl⟩) fun _ => .ite .pure .pure

theorem privateKey_nests (h : Head) : (privateKey h).Closes S st :=
  .bind .privateName fun _ => .ite (fun _ => .reject _ _) fun _ =>
    .step (elementKind_still h) fun _ => .step (.onScope _) fun _ => .done

theorem elementRest_nests (hg : g.Nests) (h : Head) : (g.elementRest h).Closes S st := by
  unfold elementRest
  split
  · exact methodOrField_nests hg h _
  · refine .step .peek fun _ => .ite (fun _ => ?_) fun _ => ?_
    · exact .bind (privateKey_nests h) fun key => .look (fun _ _ => ⟨_, rfl⟩) fun _ =>
        .ite (fun _ => methodOrField_nests hg h key) fun _ => privateField_nests hg h key
    · exact .bind (propertyKey_nests hg) fun key => .ite (fun _ => .reject _ _)
        fun _ => methodOrField_nests hg h key

theorem asyncElement_nests (hg : g.Nests) (h : Head) : (g.asyncElement h).Closes S st :=
  .look (fun _ _ => ⟨_, rfl⟩) fun _ => .ite
    (fun _ => .bind .propertyWord fun _ => fieldElement_nests hg h _)
    fun _ => .bind (tryModifier_nests h "async" true) fun _ => .ite
      (fun _ => .bind (asyncHead_nests _) fun h => elementRest_nests hg h)
      fun _ => elementRest_nests hg _

theorem extendedElement_nests (hg : g.Nests) (h : Head) : (g.extendedElement h).Closes S st :=
  .accept rfl (elementRest_nests hg _) (.step .context fun _ => .look (fun _ _ => ⟨_, rfl⟩)
    fun _ => .ite (fun _ => asyncElement_nests hg h) fun _ => .bind (accessorWord_nests h)
      fun h => elementRest_nests hg h)

theorem startsPrivateElement_still : startsPrivateElement.Still := .look fun _ _ => ⟨_, rfl⟩

/-- A member that is read again is read from its first token on. -/
theorem privateDialectElement_nests (hg : g.Nests) : g.privateDialectElement.Closes S st := by
  intro c s n t hc _ h
  simp only [privateDialectElement, bind_eq_ok, peek_eq_ok, pending_eq_ok, ite_eq_ok] at h
  obtain ⟨_, _, ⟨rfl, rfl⟩, _, _, ⟨rfl, rfl⟩, ⟨b, k⟩, u, hu, h⟩ := h
  rcases h with ⟨-, h⟩ | ⟨-, _, _, hv, h⟩
  · have hword : s.Nests st u st := tryModifier_nests _ _ _ (S := .anywhere) hc trivial hu
    exact hword.trans (extendedElement_nests hg _ (S := .anywhere) hc trivial h)
  · obtain rfl := restore_eq_ok.1 hv
    rw [tryModifier_restore hu] at h
    obtain ⟨_, v, hv, h⟩ := h
    have hlook : s.Nests st v st := .of_eq (startsPrivateElement_still hv)
    rcases h with ⟨-, h⟩ | ⟨-, h⟩
    · exact hlook.trans (extendedElement_nests hg _ (S := .anywhere) hc trivial h)
    · exact hlook.trans (plainElement_nests hg (S := .anywhere) hc trivial h)

/-! Classes. -/

theorem className?_nests (isExpression : Bool) : (className? isExpression).Closes S st :=
  .step .peek fun _ => .ite (fun _ => .bind .ident fun _ => .done) fun _ =>
    .ite (fun _ => .done) fun _ => .reject _ _

theorem classElement_nests (hg : g.Nests) : g.classElement.Closes S st := by
  refine .accept rfl .done (.step .context fun d => ?_)
  cases d.dialect with
  | plain => exact .bind (plainElement_nests hg) fun _ => .done
  | withPrivate => exact .bind (privateDialectElement_nests hg) fun _ => .done

theorem classMembers_nests (hg : g.Nests) : g.classMembers.Closes S st := by
  refine .bind (.expect rfl) fun _ => collectFrom_nests (fun hasConstructor => ?_) _
  refine .accept rfl (.pure rfl) (.look (fun _ _ => ⟨_, rfl⟩) fun _ =>
    .ite (fun _ => .unexpectedNext) fun _ => .bind (classElement_nests hg) fun member => ?_)
  cases member with
  | none => exact .pure rfl
  | some member => exact .ite (fun _ => .reject _ _) fun _ => .pure rfl

theorem superclass?_nests (hg : g.Nests) : g.superclass?.Closes S st :=
  .acceptKeyword (.bind (hg.subscripted _ _) fun _ => .done) .done

theorem classRest_nests (hg : g.Nests) (isExpression : Bool) :
    (g.classRest isExpression).Closes S st :=
  .bind (.expectKeyword _) fun _ => .within (fun _ => rfl)
    (.bind (className?_nests isExpression) fun _ => .bind (superclass?_nests hg) fun _ =>
      .bind (classMembers_nests hg) fun _ => .done)

theorem class_nests (hg : g.Nests) (isExpression : Bool) : (g.class_ isExpression).Closes S st := by
  refine .step .context fun d => ?_
  cases d.dialect with
  | plain => exact classRest_nests hg isExpression
  | withPrivate => exact .inClassBody (classRest_nests hg isExpression)

end JsClass.Grammar
