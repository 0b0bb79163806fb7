import JsClass.Proofs.Endings.Functions
import JsClass.Proofs.Extension.Members

/-!
Classes and their members. A member may end with a semicolon or see the brace behind it, so a token
must be left there; the class itself ends with its own brace.
-/
namespace JsClass.Endings

open JsClass.Parser

variable {q : Endings} {g : Grammar} {c : Context} {s t u : State} {S : Site}
  {h : Grammar.Head}

/-! Words before a member. -/

theorem endsMemberName : q.Looks 1 Grammar.endsMemberName := by
  refine .bind .peek fun _ => .context (fun _ => rfl) fun d => ?_
  cases d.dialect with
  | plain | withPrivate => exact .pure _

theorem modifierWord (word : String) (noLineBreak : Bool) :
    q.Inner S (fun _ => False) (Grammar.modifierWord word noLineBreak) :=
  .peek_inner fun _ => .acceptKind_ite (by simp [Kind.EndsExpression])
    (.look_at endsMemberName (fun _ => Or.inl (Nat.le_refl _)) fun _ =>
      .look_at .canInsertSemicolon (fun _ => Or.inl (Nat.le_refl _)) fun _ =>
        .ite (fun _ => .done) fun _ => .done) .done

theorem tryModifier (h : Grammar.Head) (word : String) (noLineBreak : Bool) :
    q.Inner S (fun r => r.1 = true ∨ h.key = none ∧ r.2.key.isSome)
      (Grammar.tryModifier h word noLineBreak) := by
  -- whether the word was there is not seen from the steps, but from the result
  have hsteady : q.Inner S (fun _ => False) (Grammar.tryModifier h word noLineBreak) := by
    refine .also (modifierWord word noLineBreak) fun w => ?_
    cases w with
    | absent | modifier => exact .done
    | name k => exact .ite (fun _ => .unexpectedNext) fun _ => .done
  refine hsteady.takes_of fun {c s r t} hc hr htaken => ?_
  rcases Grammar.tryModifier_word hr with ⟨hn, rfl, -⟩ | ⟨-, hb, hsame, -⟩
  · exact (Context.next_mem hc (by simp [hn])).2
  · rw [hb, hsame] at htaken
    obtain ⟨⟨⟩⟩ | ⟨hnone, hsome⟩ := htaken
    simp [hnone] at hsome

theorem accessorWord (h : Grammar.Head) :
    q.Inner S (fun h' => h.key = none ∧ h'.key.isSome) (Grammar.accessorWord h) := by
  refine .also_of (tryModifier h "get" false) fun ⟨isGetter, h₁⟩ => .ite (fun hget => ?_)
    fun _ => .also_of (tryModifier h₁ "set" false) fun ⟨isSetter, h₂⟩ => ?_
  · exact .pure fun hT => hT.2 (Or.inl hget)
  · refine .pure fun hT => ?_
    obtain ⟨⟨⟨hnone, hsome⟩, hget⟩, hset⟩ := hT
    cases isSetter <;> simp_all

theorem asyncHead (h : Grammar.Head) : q.Steady S (Grammar.asyncHead h) :=
  .bind asyncStar fun _ => .done

theorem plainModifiers (h : Grammar.Head) :
    q.Inner S (fun _ => False) (Grammar.plainModifiers h) := by
  refine .accept_ite (V := fun _ => False) (by decide) .done (.context (fun _ => rfl) fun _ =>
    .ite (fun _ => ?_) fun _ => (accessorWord _).steady)
  exact .also (tryModifier _ _ _) fun _ => .ite (fun _ => (asyncHead _).inside) fun _ =>
    (accessorWord _).steady

theorem methodKindFor (h : Grammar.Head) (k : Grammar.PropertyKey) :
    q.Steady S (Grammar.methodKindFor h k) :=
  .ite (fun _ => .ite (fun _ => .reject _ _) fun _ => .ite (fun _ => .reject _ _) fun _ =>
    .ite (fun _ => .reject _ _) fun _ => .done)
    fun _ => .ite (fun _ => .reject _ _) fun _ => .done

/-! Methods and fields. -/

theorem methodElement (hg : q.Keeps g) (h : Grammar.Head) (k : Grammar.PropertyKey)
    (kind : MethodKind) : q.Takes S (g.methodElement h k kind) :=
  .take (.within (fun _ => rfl) (fun _ => rfl) (method hg _ _)) fun _ =>
    .bind (checkAccessor _ _) fun _ => .done

theorem fieldElement (hg : q.Keeps g) (h : Grammar.Head) (k : Grammar.PropertyKey) :
    q.Ends S (fun _ => False) (g.fieldElement h k) :=
  .bind (.within (fun _ => rfl) (fun _ => rfl) (initializer? hg)) fun _ =>
    .also .semicolon fun _ => .done

theorem memberKey (hg : q.Keeps g) (h : Grammar.Head) : q.Steady S (g.memberKey h) := by
  unfold Grammar.memberKey
  split
  · exact .done
  · exact (propertyKey hg).steady

theorem plainElement (hg : q.Keeps g) : q.Takes S g.plainElement :=
  .peek fun _ => .inner (tryModifier _ _ _) fun _ => .inner (plainModifiers _) fun _ =>
    .bind (memberKey hg _) fun _ => .bind (methodKindFor _ _) fun _ => methodElement hg _ _ _

theorem checkStaticConstructor (h : Grammar.Head) (k : Grammar.PropertyKey) :
    q.Steady S (Grammar.checkStaticConstructor h k) :=
  .ite (fun _ => .reject _ _) fun _ => .done

theorem methodOrField (hg : q.Keeps g) (h : Grammar.Head) (k : Grammar.PropertyKey) :
    q.Ends S (fun _ => False) (g.methodOrField h k) :=
  .look (.check (by decide)) fun _ => .context (fun _ => rfl) fun _ => .ite
    (fun _ => .also (fieldElement hg h k) fun _ => .bind (checkStaticConstructor h k) fun _ =>
      .done)
    fun _ => .bind (methodElement hg h k _) fun _ => .bind (checkStaticConstructor h k) fun _ =>
      .done

theorem privateField (hg : q.Keeps g) (h : Grammar.Head) (k : Grammar.PropertyKey) :
    q.Ends S (fun _ => False) (g.privateField h k) := by
  refine .ite (fun _ => .unexpectedNext) fun _ => ?_
  split
  · exact .ite (fun _ => .reject _ _) fun _ => fieldElement hg h k
  · exact fieldElement hg h k

/-! Private members. -/

theorem elementKind (h : Grammar.Head) : q.Steady S (Grammar.elementKind h) := by
  unfold Grammar.elementKind
  split
  · exact .done
  · exact .look (.check (by decide)) fun _ => .ite (fun _ => .done) fun _ => .done

theorem privateKey (h : Grammar.Head) : q.Takes S (Grammar.privateKey h) :=
  .take .privateName fun _ => .ite (fun _ => .reject _ _) fun _ => .bind (elementKind h) fun _ =>
    .bind (.onScope _) fun _ => .done

theorem elementRest (hg : q.Keeps g) (h : Grammar.Head) :
    q.Ends S (fun _ => h.key = none) (g.elementRest h) := by
  unfold Grammar.elementRest
  split
  · next key hkey =>
    refine (methodOrField hg h key).mono fun _ hnone => ?_
    simp [hkey] at hnone
  · refine .peek_inner fun _ => .ite (fun _ => ?_) fun _ => ?_
    · exact .take (privateKey h) fun key => .look (.check (by decide)) fun _ =>
        .ite (fun _ => methodOrField hg h key) fun _ => privateField hg h key
    · exact .take (propertyKey hg) fun key => .ite (fun _ => .reject _ _) fun _ =>
        methodOrField hg h key

/-- Two tokens are there at least: one that is taken, and one behind the member. -/
theorem asyncElement (hg : q.Keeps g) (hkey : h.key = none) :
    q.Ends S (fun _ => True) (g.asyncElement h) := by
  refine .look_at (.peekAt 1) (fun _ => Or.inr ⟨trivial, Nat.le_refl _⟩) fun _ =>
    .ite (fun _ => ?_) fun _ => ?_
  · exact .take .propertyWord fun _ => fieldElement hg h _
  · refine .also_of (tryModifier h "async" true).ends fun ⟨isAsync, h'⟩ =>
      .ite (fun hb => ?_) fun _ => ?_
    · exact (Runs.bind (asyncHead h') fun h => (elementRest hg h).steady).mono fun _ hT =>
        hT.2 (Or.inl hb)
    · refine (elementRest hg h').mono fun _ hT => ?_
      simp_all

theorem extendedElement (hg : q.Keeps g) (hkey : h.key = none) :
    q.Ends S (fun _ => True) (g.extendedElement h) := by
  refine .accept_ite (by decide) (elementRest hg _) (.context (fun _ => rfl) fun _ =>
    .look (.checkKind (by decide)) fun _ => .ite (fun _ => asyncElement hg hkey)
      fun _ => .also_of (accessorWord h).ends fun h' => ?_)
  refine (elementRest hg h').mono fun _ hT => ?_
  simp_all

theorem startsPrivateElement : q.Looks 2 Grammar.startsPrivateElement := by
  refine .bind (Looks.peek.mono (Nat.le_succ 1)) fun z => .bind (.peekAt 1) fun w => ?_
  refine Looks.mono (.test (p := pure false) ?_ (fun _ => .pure _) _) ?_
  · rintro y (hy | hy | hy | hy | hy) <;> rw [hy] <;> rfl
  · split_ifs <;> omega

/-- A member that is read again is read from its first token on, in both runs. -/
theorem privateDialectElement (hg : q.Keeps g) :
    q.Ends S (fun _ => True) g.privateDialectElement := by
  refine .peek fun start => ?_
  intro c s n t hc _ hrun
  refine .pending hrun fun hrun => .bind (tryModifier (.start start) "static" false) hc
    (S := .anywhere) trivial hrun fun ⟨isStatic, h⟩ u hu hsuffix _ hrest => ?_
  cases isStatic with
  | true =>
    have hkey : h.key = none := by
      rw [(Grammar.tryModifier_key hu).2 rfl]
      rfl
    have hmember := extendedElement hg (h := { h with isStatic := true }) hkey (S := .anywhere) hc
      trivial hrest
    exact ⟨fun hleft => hleft.since hmember.suffix,
      hmember.behind hsuffix (hmember.takes trivial)⟩
  | false =>
    obtain ⟨_, v, hv, hagain⟩ := bind_eq_ok.1 hrest
    obtain rfl := restore_eq_ok.1 hv
    have hsame : { u with pending := s.pending } = s := Grammar.tryModifier_restore hu
    rw [hsame] at hagain
    have hmember := Runs.look_at (S := .anywhere) startsPrivateElement
      (fun _ => Or.inr ⟨trivial, Nat.le_refl _⟩) (fun _ => .ite (fun _ => extendedElement hg rfl)
        fun _ => (plainElement hg).inside.ends) hc trivial hagain
    refine ⟨fun hleft => hleft.since ?_, ?_⟩
    · have hlt := hmember.takes trivial
      have hle := Grammar.tryModifier_length hu
      exact List.suffix_of_suffix_length_le hmember.suffix hsuffix (by omega)
    · have hstate : q.state { u with pending := s.pending } = q.state s := congrArg q.state hsame
      rw [← hstate] at hmember
      exact hmember

/-! Classes. -/

theorem className? (isExpression : Bool) :
    q.Inner S (fun _ => False) (Grammar.className? isExpression) :=
  .peek_inner fun _ => .ite (fun _ => .bind .ident fun _ => .done) fun _ =>
    .ite (fun _ => .done) fun _ => .reject _ _

theorem classElement (hg : q.Keeps g) : q.Ends S (fun _ => True) g.classElement := by
  refine .also_of .accept_semicolon fun b => .ite (fun hb => ?_) fun _ => ?_
  · exact .pure fun hT => hT.2 hb
  · refine .mono (.context (fun _ => rfl) fun d => ?_) fun _ _ => trivial
    cases d.dialect with
    | plain => exact .map (plainElement hg).inside.ends
    | withPrivate => exact .map (privateDialectElement hg)

/-- What a member does to the turn that reads it. -/
def afterMember (hasConstructor : Bool) : Option Node → Parser (Turn Bool Node)
  | none => return .more [] hasConstructor
  | some member =>
    if member.isConstructor && hasConstructor then reject .duplicateConstructor member.pos
    else return .more [member] (hasConstructor || member.isConstructor)

theorem afterMember_eq_ok {hasConstructor : Bool} {member : Option Node} {r : Turn Bool Node}
    (h : afterMember hasConstructor member c u = .ok r t) :
    r.GoesOn ∧ t = u ∧ ∀ d v, afterMember hasConstructor member d v = .ok r v := by
  cases member with
  | none =>
    obtain ⟨rfl, rfl⟩ := pure_eq_ok.1 h
    exact ⟨trivial, rfl, fun _ _ => rfl⟩
  | some member =>
    obtain ⟨-, h⟩ | ⟨hnot, h⟩ := ite_eq_ok.1 h
    · exact (reject_eq_ok.1 h).elim
    · obtain ⟨rfl, rfl⟩ := pure_eq_ok.1 h
      refine ⟨trivial, rfl, fun _ _ => ?_⟩
      rw [afterMember, if_neg hnot]
      rfl

/-- One turn of reading members: the closing brace, or a member. -/
def classTurn (g : Grammar) (hasConstructor : Bool) : Parser (Turn Bool Node) := do
  if ← accept .rbrace then return .stop []
  else if ← atEnd then unexpectedNext
  else afterMember hasConstructor (← g.classElement)

theorem classMembers_eq (g : Grammar) : g.classMembers = (do
    let _ ← expect .lbrace
    Parser.collectFrom (classTurn g) g.turns false) := rfl

theorem classTurn_closed (hg : q.Keeps g) (hasConstructor : Bool) :
    q.Runs .anywhere left (fun _ => True) Turn.GoesOn (classTurn g hasConstructor) := by
  refine .accept_closer nofun (fun _ => Or.inl trivial) (.done (q := q))
    (.mono (.goesOn (T := fun _ => True) (e := fun _ => True) ?_ fun {c s r t} h => ?_)
      fun _ => Or.inl)
  · refine .look_at .atEnd (fun _ => Or.inl (Nat.le_refl _)) fun _ => .ite
      (fun _ => .unexpectedNext) fun _ => .also_of (classElement hg) fun member => ?_
    cases member with
    | none => exact .pure fun hT => hT.2 trivial
    | some member => exact .ite (fun _ => .reject _ _) fun _ => .pure fun hT => hT.2 trivial
  · simp only [bind_eq_ok, ite_eq_ok, unexpectedNext_eq_ok, and_false, false_or] at h
    obtain ⟨_, _, -, -, member, u, -, h⟩ := h
    exact (afterMember_eq_ok h).1

theorem classMembers (hg : q.Keeps g) : q.Takes S g.classMembers := by
  rw [classMembers_eq]
  exact .take (.expect nofun) fun _ => collectFrom_closed (classTurn_closed hg) _

theorem superclass? (hg : q.Keeps g) : q.Steady S g.superclass? :=
  .acceptKeyword_ite (.map hg.subscripted) .done

theorem classRest (hg : q.Keeps g) (isExpression : Bool) :
    q.Takes S (g.classRest isExpression) :=
  .take (.expectKeyword _) fun _ => .within (fun _ => rfl) (fun _ => rfl)
    (.inner (className? isExpression) fun _ => .bind (superclass? hg) fun _ =>
      .map (classMembers hg))

theorem class_ (hg : q.Keeps g) (isExpression : Bool) : q.Takes S (g.class_ isExpression) := by
  refine .context (fun _ => rfl) fun d => ?_
  cases d.dialect with
  | plain => exact classRest hg isExpression
  | withPrivate => exact .inClassBody (classRest hg isExpression)

end JsClass.Endings
