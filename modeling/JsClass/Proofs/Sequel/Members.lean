import JsClass.Proofs.Extension.Members
import JsClass.Proofs.Sequel.Functions

/-!
Classes and their members. Behind a member there is always a token, the brace that closes the class
at least.
-/
namespace JsClass.Sequel

open JsClass.Parser

variable {q : Sequel} {g g' : Grammar} {c : Context} {s t u : State} {S : Site}
  {h : Grammar.Head}

/-! Words before a member. -/

theorem endsMemberName : q.Looks 1 Grammar.endsMemberName Grammar.endsMemberName := by
  refine .bind .peek fun _ => .context fun d => ?_
  rw [q.context_dialect]
  cases d.dialect with
  | plain | withPrivate => exact .pure _

theorem modifierWord (word : String) (noLineBreak : Bool) :
    q.Inner S (fun _ => False) (Grammar.modifierWord word noLineBreak)
      (Grammar.modifierWord word noLineBreak) :=
  .peek_inner fun _ => .acceptKind_ite (by simp [Kind.EndsStatement])
    (.look_at endsMemberName (fun _ => Or.inl (Nat.le_refl _)) fun _ =>
      .look_at .canInsertSemicolon (fun _ => Or.inl (Nat.le_refl _)) fun _ =>
        .ite (fun _ => .done) fun _ => .done) .done

theorem tryModifier (h : Grammar.Head) (word : String) (noLineBreak : Bool) :
    q.Inner S (fun r => r.1 = true ∨ h.key = none ∧ r.2.key.isSome)
      (Grammar.tryModifier h word noLineBreak) (Grammar.tryModifier h word noLineBreak) := by
  -- whether the word was there is not seen from the steps, but from the result
  have hsteady : q.Inner S (fun _ => False) (Grammar.tryModifier h word noLineBreak)
      (Grammar.tryModifier h word noLineBreak) := by
    refine .also (modifierWord word noLineBreak) fun w => ?_
    cases w with
    | absent | modifier => exact .done
    | name k => exact .ite (fun _ => .unexpectedNext) fun _ => .done
  refine hsteady.takes_of fun {c s r t} hc hr htaken => ?_
  rcases Grammar.tryModifier_word hr with ⟨hn, rfl, -⟩ | ⟨-, hb, hsame, -⟩
  · exact (Context.next_mem hc (by simp [hn])).2
  · rw [hb, hsame] at htaken
    obtain ⟨⟨⟩⟩ | ⟨hnone, hsome⟩ := htaken
    simp [hnone] at hsome

theorem accessorWord (h : Grammar.Head) :
    q.Inner S (fun h' => h.key = none ∧ h'.key.isSome) (Grammar.accessorWord h)
      (Grammar.accessorWord h) := by
  refine .also_of (tryModifier h "get" false) fun ⟨isGetter, h₁⟩ => .ite (fun hget => ?_)
    fun _ => .also_of (tryModifier h₁ "set" false) fun ⟨isSetter, h₂⟩ => ?_
  · exact .pure fun hT => hT.2 (Or.inl hget)
  · refine .pure fun hT => ?_
    obtain ⟨⟨⟨hnone, hsome⟩, hget⟩, hset⟩ := hT
    cases isSetter <;> simp_all

theorem asyncHead (h : Grammar.Head) : q.Steady S (Grammar.asyncHead h) (Grammar.asyncHead h) :=
  .bind asyncStar fun _ => .done

theorem plainModifiers (h : Grammar.Head) :
    q.Inner S (fun _ => False) (Grammar.plainModifiers h) (Grammar.plainModifiers h) := by
  refine .accept_ite (V := fun _ => False) nofun .done (.context fun _ => .ite (fun _ => ?_)
    fun _ => (accessorWord _).steady)
  exact .also (tryModifier _ _ _) fun _ => .ite (fun _ => (asyncHead _).inside) fun _ =>
    (accessorWord _).steady

theorem methodKindFor (h : Grammar.Head) (k : Grammar.PropertyKey) :
    q.Steady S (Grammar.methodKindFor h k) (Grammar.methodKindFor h k) :=
  .ite (fun _ => .ite (fun _ => .reject _ _) fun _ => .ite (fun _ => .reject _ _) fun _ =>
    .ite (fun _ => .reject _ _) fun _ => .done)
    fun _ => .ite (fun _ => .reject _ _) fun _ => .done

/-! Methods and fields. -/

theorem methodElement (hg : q.Grammars g g') (h : Grammar.Head) (k : Grammar.PropertyKey)
    (kind : MethodKind) : q.Takes S (g.methodElement h k kind) (g'.methodElement h k kind) :=
  .take (.within (fun _ => rfl) (fun _ => rfl) (method hg _ _)) fun _ =>
    .bind (checkAccessor _ _) fun _ => .done

theorem fieldElement (hg : q.Grammars g g') (h : Grammar.Head) (k : Grammar.PropertyKey) :
    q.Inner S (fun _ => False) (g.fieldElement h k) (g'.fieldElement h k) :=
  .bind (.within (fun _ => rfl) (fun _ => rfl) (initializer? hg)) fun _ =>
    .also Runs.semicolon.inside fun _ => .done

theorem memberKey (hg : q.Grammars g g') (h : Grammar.Head) :
    q.Steady S (g.memberKey h) (g'.memberKey h) := by
  unfold Grammar.memberKey
  split
  · exact .done
  · exact (propertyKey hg).steady

theorem plainElement (hg : q.Grammars g g') : q.Takes S g.plainElement g'.plainElement :=
  .peek fun _ => .inner (tryModifier _ _ _) fun _ => .inner (plainModifiers _) fun _ =>
    .bind (memberKey hg _) fun _ => .bind (methodKindFor _ _) fun _ => methodElement hg _ _ _

theorem checkStaticConstructor (h : Grammar.Head) (k : Grammar.PropertyKey) :
    q.Steady S (Grammar.checkStaticConstructor h k) (Grammar.checkStaticConstructor h k) :=
  .ite (fun _ => .reject _ _) fun _ => .done

theorem methodOrField (hg : q.Grammars g g') (h : Grammar.Head) (k : Grammar.PropertyKey) :
    q.Inner S (fun _ => False) (g.methodOrField h k) (g'.methodOrField h k) :=
  .look (.check nofun) fun _ => .context fun _ => .ite
    (fun _ => .also (fieldElement hg h k) fun _ => .bind (checkStaticConstructor h k) fun _ =>
      .done)
    fun _ => .bind (methodElement hg h k _) fun _ => .bind (checkStaticConstructor h k) fun _ =>
      .done

theorem privateField (hg : q.Grammars g g') (h : Grammar.Head) (k : Grammar.PropertyKey) :
    q.Inner S (fun _ => False) (g.privateField h k) (g'.privateField h k) := by
  refine .ite (fun _ => .unexpectedNext) fun _ => ?_
  split
  · exact .ite (fun _ => .reject _ _) fun _ => fieldElement hg h k
  · exact fieldElement hg h k

/-! Private members. -/

theorem elementKind (h : Grammar.Head) :
    q.Steady S (Grammar.elementKind h) (Grammar.elementKind h) := by
  unfold Grammar.elementKind
  split
  · exact .done
  · exact .look (.check nofun) fun _ => .ite (fun _ => .done) fun _ => .done

theorem privateKey (h : Grammar.Head) : q.Takes S (Grammar.privateKey h) (Grammar.privateKey h) :=
  .take .privateName fun _ => .ite (fun _ => .reject _ _) fun _ => .bind (elementKind h) fun _ =>
    .bind (.onScope _) fun _ => .done

theorem elementRest (hg : q.Grammars g g') (h : Grammar.Head) :
    q.Inner S (fun _ => h.key = none) (g.elementRest h) (g'.elementRest h) := by
  unfold Grammar.elementRest
  split
  · next key hkey =>
    refine (methodOrField hg h key).mono fun _ hnone => ?_
    simp [hkey] at hnone
  · refine .peek_inner fun _ => .ite (fun _ => ?_) fun _ => ?_
    · exact .take (privateKey h) fun key => .look (.check nofun) fun _ =>
        .ite (fun _ => methodOrField hg h key) fun _ => privateField hg h key
    · exact .take (propertyKey hg) fun key => .ite (fun _ => .reject _ _) fun _ =>
        methodOrField hg h key

/-- Two tokens are there at least: one that is taken, and one behind the member. -/
theorem asyncElement (hg : q.Grammars g g') (hkey : h.key = none) :
    q.Inner S (fun _ => True) (g.asyncElement h) (g'.asyncElement h) := by
  refine .look_at (.peekAt 1) (fun _ => Or.inr ⟨trivial, Nat.le_refl _⟩) fun _ =>
    .ite (fun _ => ?_) fun _ => ?_
  · exact .take .propertyWord fun _ => fieldElement hg h _
  · refine .also_of (tryModifier h "async" true) fun ⟨isAsync, h'⟩ =>
      .ite (fun hb => ?_) fun _ => ?_
    · exact (Runs.bind (asyncHead h') fun h => (elementRest hg h).steady).mono fun _ hT =>
        hT.2 (Or.inl hb)
    · refine (elementRest hg h').mono fun _ hT => ?_
      simp_all

theorem extendedElement (hg : q.Grammars g g') (hkey : h.key = none) :
    q.Inner S (fun _ => True) (g.extendedElement h) (g'.extendedElement h) := by
  refine .accept_ite nofun (elementRest hg _) (.context fun _ =>
    .look (.checkKind (by simp [Kind.EndsStatement])) fun _ =>
      .ite (fun _ => asyncElement hg hkey) fun _ => .also_of (accessorWord h) fun h' => ?_)
  refine (elementRest hg h').mono fun _ hT => ?_
  simp_all

theorem startsPrivateElement :
    q.Looks 2 Grammar.startsPrivateElement Grammar.startsPrivateElement := by
  refine .bind (Looks.peek.mono (Nat.le_succ 1)) fun z => .bind (.peekAt 1) fun w => ?_
  refine Looks.mono (.test (p := pure false) ?_ (fun _ => .pure _) _) ?_
  · rintro y (hy | hy) <;> rw [hy] <;> rfl
  · split_ifs <;> omega

/-- A member that is read again is read from its first token on, in both runs. -/
theorem privateDialectElement (hg : q.Grammars g g') :
    q.Inner S (fun _ => True) g.privateDialectElement g'.privateDialectElement := by
  refine .peek fun start => .pending fun before => ?_
  rintro c s n t hc rfl hrun
  refine .bind_of (tryModifier (.start start) "static" false) hc (S := .anywhere) trivial hrun
    fun ⟨isStatic, h⟩ u hu hsuffix htakes hrest => ?_
  cases isStatic with
  | true =>
    have hkey : h.key = none := by
      rw [(Grammar.tryModifier_key hu).2 rfl]
      rfl
    have hmember := extendedElement hg (h := { h with isStatic := true }) hkey (S := .anywhere) hc
      trivial hrest
    refine ⟨fun hleft => ?_, hmember.behind hsuffix (htakes (Or.inl rfl))⟩
    exact Nat.le_trans hleft hmember.suffix.length_le
  | false =>
    obtain ⟨_, v, hv, hagain⟩ := bind_eq_ok.1 hrest
    obtain rfl := restore_eq_ok.1 hv
    have hsame : { u with pending := s.pending } = s := Grammar.tryModifier_restore hu
    rw [hsame] at hagain
    have hmember := Runs.look_at (S := .anywhere) startsPrivateElement
      (fun _ => Or.inr ⟨trivial, Nat.le_refl _⟩) (fun _ => .ite (fun _ => extendedElement hg rfl)
        fun _ => (plainElement hg).inside) hc trivial hagain
    refine ⟨fun hleft => ?_, ?_⟩
    · have hlt := hmember.takes trivial
      have hle := Grammar.tryModifier_length hu
      omega
    · have hstate : q.state { u with pending := s.pending } = q.state s := congrArg q.state hsame
      rw [← hstate] at hmember
      exact hmember

/-! Classes. -/

theorem className? (isExpression : Bool) :
    q.Inner S (fun _ => False) (Grammar.className? isExpression)
      (Grammar.className? isExpression) :=
  .peek_inner fun _ => .ite (fun _ => .bind .ident fun _ => .done) fun _ =>
    .ite (fun _ => .done) fun _ => .reject _ _

theorem classElement (hg : q.Grammars g g') :
    q.Inner S (fun _ => True) g.classElement g'.classElement := by
  refine .also_of (.accept_inner _) fun b => .ite (fun hb => ?_) fun _ => ?_
  · exact .pure fun hT => hT.2 hb
  · refine .mono (.context fun d => ?_) fun _ _ => trivial
    rw [q.context_dialect]
    cases d.dialect with
    | plain => exact .map (plainElement hg).inside
    | withPrivate => exact .map (privateDialectElement hg)

theorem classMembers (hg : q.Grammars g g') : q.Takes S g.classMembers g'.classMembers := by
  refine .take (.expect _) fun _ => collectFrom_closed hg.turns (fun hasConstructor => ?_) _
  refine .accept_ite (V := fun _ => False) nofun .done ?_
  -- a member never ends the repetition
  refine .left_of (l := fun _ => 1) ?_ fun {c s r t} h => ?_
  · refine .look_at .atEnd (fun _ => Or.inl (Nat.le_refl _)) fun _ => .ite
      (fun _ => .unexpectedNext) fun _ => .also_of (classElement hg) fun member => ?_
    cases member with
    | none => exact .pure fun hT => hT.2 trivial
    | some member =>
      exact .ite (fun _ => .reject _ _) fun _ => .pure fun hT => hT.2 trivial
  · simp only [bind_eq_ok, ite_eq_ok, unexpectedNext_eq_ok, and_false, false_or] at h
    obtain ⟨_, _, -, -, member, u, -, h⟩ := h
    cases member with
    | none =>
      obtain ⟨rfl, -⟩ := pure_eq_ok.1 h
      exact Nat.le_refl _
    | some member =>
      obtain ⟨-, h⟩ | ⟨-, h⟩ := ite_eq_ok.1 h
      · exact (reject_eq_ok.1 h).elim
      · obtain ⟨rfl, -⟩ := pure_eq_ok.1 h
        exact Nat.le_refl _

theorem superclass? (hg : q.Grammars g g') : q.Steady S g.superclass? g'.superclass? :=
  .acceptKeyword_ite (.map hg.subscripted) .done

theorem classRest (hg : q.Grammars g g') (isExpression : Bool) :
    q.Takes S (g.classRest isExpression) (g'.classRest isExpression) :=
  .take (.expectKeyword _) fun _ => .within (fun _ => rfl) (fun _ => rfl)
    (.inner (className? isExpression) fun _ => .bind (superclass? hg) fun _ =>
      .map (classMembers hg))

theorem class_ (hg : q.Grammars g g') (isExpression : Bool) :
    q.Takes S (g.class_ isExpression) (g'.class_ isExpression) := by
  refine .context fun d => ?_
  rw [q.context_dialect]
  cases d.dialect with
  | plain => exact classRest hg isExpression
  | withPrivate => exact .inClassBody (classRest hg isExpression)

end JsClass.Sequel
