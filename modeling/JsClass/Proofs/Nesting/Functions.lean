import JsClass.Proofs.Edition.Functions
import JsClass.Proofs.Nesting.Basic

/-! The rules for functions and for the properties of objects. -/
namespace JsClass.Grammar

open JsClass.Parser

variable {g : Grammar} {c : Context} {s t u : State} {S : Site} {st : List Punct}

/-- The rules close what they open. -/
structure Nests (g : Grammar) : Prop where
  statement : g.statement.Balanced
  assignment : g.assignment.Balanced
  unary : g.unary.Balanced
  subscripted : g.subscripted.Balanced
  atom : g.atom.Balanced

theorem commaExpression_nests {turns : Nat} {assignment : Parser Node} (ha : assignment.Balanced) :
    (commaExpression turns assignment).Closes S st :=
  .bind (ha _ _) fun _ => .look (fun _ _ => ⟨_, rfl⟩) fun _ => .ite
    (fun _ => .bind (collect_nests (.accept rfl (.bind (ha _ _) fun _ => .pure rfl) (.pure rfl)))
      fun _ => .done)
    fun _ => .done

theorem expression_nests (hg : g.Nests) : g.expression.Closes S st :=
  commaExpression_nests hg.assignment

theorem parenthesized_nests (hg : g.Nests) : g.parenthesized.Closes S st :=
  .bind (.expect rfl) fun _ => .bind (expression_nests hg) fun _ => .bind (.expect rfl) fun _ =>
    .done

theorem statementsUntil_nests (hg : g.Nests) (ends : Kind → Bool) :
    (g.statementsUntil ends).Closes S st :=
  collect_nests (.step .peek fun _ => .ite (fun _ => .pure rfl) fun _ =>
    .bind (hg.statement _ _) fun _ => .pure rfl)

theorem block_nests (hg : g.Nests) : g.block.Closes S st :=
  .bind (.expect rfl) fun _ => .bind (statementsUntil_nests hg _) fun _ => .bind (.expect rfl)
    fun _ => .done

/-! Functions. -/

theorem closeRest_nests : closeRest.Nests S (.rparen :: st) fun _ => st := by
  refine .peek fun x => .ite (fun hx => ?_) fun _ => .reject _ _
  exact .advance (by rw [beq_iff_eq.1 hx]; rfl) fun _ => .done

theorem initializer?_nests (hg : g.Nests) : g.initializer?.Closes S st :=
  .accept rfl (.bind (hg.assignment _ _) fun _ => .done) .done

theorem params_nests (hg : g.Nests) : g.params.Closes S st := by
  refine .bind (.expect rfl) fun _ => collect_nests (.accept rfl (.pure rfl)
    (.step .peek fun _ => .accept rfl ?_ ?_))
  · exact .bind .ident fun _ => .bind closeRest_nests fun _ => .pure rfl
  · exact .bind .ident fun _ => .bind (initializer?_nests hg) fun _ =>
      .look (fun _ _ => ⟨_, rfl⟩) fun _ => .ite (fun _ => .pure rfl) fun _ =>
        .bind (.expect rfl) fun _ => .pure rfl

theorem functionRest_nests (hg : g.Nests) (isAsync isGenerator : Bool) :
    (g.functionRest isAsync isGenerator).Closes S st :=
  .within (fun _ => rfl) (.bind (params_nests hg) fun _ => .bind (block_nests hg) fun _ => .done)

theorem functionName?_nests (form : FunctionForm) : (functionName? form).Closes S st :=
  .step .peek fun _ => .ite (fun _ => .bind .ident fun _ => .done) fun _ =>
    .ite (fun _ => .reject _ _) fun _ => .done

theorem function_nests (hg : g.Nests) (form : FunctionForm) (isAsync : Bool) :
    (g.function form isAsync).Closes S st :=
  .bind (.expectKeyword _) fun _ => .bind (.optional fun _ => rfl) fun _ => .step .context fun _ =>
    .ite (fun _ => .reject _ _) fun _ => .bind (functionName?_nests form) fun _ =>
      .bind (functionRest_nests hg _ _) fun _ => .done

theorem method_nests (hg : g.Nests) (isAsync isGenerator : Bool) :
    (g.method isAsync isGenerator).Closes S st :=
  .step .peek fun _ => .bind (functionRest_nests hg _ _) fun _ => .done

theorem arrow_nests (hg : g.Nests) (params : List Node) (start : Token) :
    (g.arrow params start).Closes S st :=
  .bind (.expect rfl) fun _ => .within (fun _ => rfl) (.look (fun _ _ => ⟨_, rfl⟩) fun _ =>
    .ite (fun _ => .bind (block_nests hg) fun _ => .done) fun _ =>
      .bind (hg.assignment _ _) fun _ => .done)

/-! Keys and properties. -/

theorem numberLiteral_still (x : Token) (raw : String) : (numberLiteral x raw).Still := by
  unfold numberLiteral
  split
  · exact .pure
  · exact fun _ _ _ _ h => (fail_eq_ok.1 h).elim

theorem checkAccessor_still (accessor : Option Accessor) (function : Node) :
    (checkAccessor accessor function).Still := by
  unfold checkAccessor
  rcases accessor with _ | _ | _
  · exact .pure
  · cases function.params with
    | nil => exact .pure
    | cons => exact .report _ _
  · cases function.params with
    | nil => exact .ite (.bind (.report _ _) fun _ => .pure) .pure
    | cons =>
      exact .ite (.bind (.report _ _) fun _ => .ite (.report _ _) .pure) (.ite (.report _ _) .pure)

theorem propertyKey_nests (hg : g.Nests) : g.propertyKey.Closes S st := by
  refine .peek fun x => ?_
  split
  · next hx =>
    exact .advance (by rw [hx]; rfl) fun _ => .bind (hg.assignment _ _) fun _ =>
      .bind (.expect rfl) fun _ => .done
  · next hx =>
    exact .advance (by rw [hx]; rfl) fun _ => .step (numberLiteral_still _ _) fun _ => .done
  · next hx => exact .advance (by rw [hx]; rfl) fun _ => .done
  · exact .bind .propertyWord fun _ => .done

theorem asyncStar_nests : asyncStar.Closes S st :=
  .step .context fun _ => .ite (fun _ => .optional fun _ => rfl) fun _ => .done

theorem propertyAccessor?_nests : propertyAccessor?.Closes S st :=
  .look (fun _ _ => ⟨_, rfl⟩) fun _ => .ite (fun _ => .done) fun _ =>
    .acceptKind rfl .done (.acceptKind rfl .done .done)

theorem propertyModifiers_nests : propertyModifiers.Closes S st := by
  refine .step .context fun _ => .peek fun x => .look (fun _ _ => ⟨_, rfl⟩) fun _ =>
    .ite (fun hb => ?_) fun _ => ?_
  · have hx : x.kind = .name "async" := by simp_all
    exact .advance (by rw [hx]; rfl) fun _ => .bind asyncStar_nests fun _ => .done
  · exact .accept rfl .done (.bind propertyAccessor?_nests fun _ => .done)

theorem methodProperty_nests (hg : g.Nests) (start : Token) (k : PropertyKey) (ms : Modifiers) :
    (g.methodProperty start k ms).Closes S st :=
  .bind (method_nests hg _ _) fun _ => .step (checkAccessor_still _ _) fun _ => .done

/-- A name takes just its token, as a key and as a variable. -/
theorem propertyKey_skips {k : PropertyKey} (hname : (c.next s).kind.isName)
    (h : g.propertyKey c s = .ok k t) : t.pending = s.skip.pending := by
  obtain ⟨word, hword⟩ : ∃ word, (c.next s).kind = .name word := by
    cases hk : (c.next s).kind <;> simp [hk, Kind.isName] at hname ⊢
  simp only [propertyKey, propertyWord, bind_eq_ok, peek_eq_ok] at h
  obtain ⟨_, _, ⟨rfl, rfl⟩, h⟩ := h
  simp only [hword, bind_eq_ok, anyWord_eq_ok, pure_eq_ok] at h
  obtain ⟨_, _, ⟨_, _, ⟨_, -, -, rfl⟩, _, _, hcheck, -, rfl⟩, -, rfl⟩ := h
  exact Parser.Still.checkIfNever _ hcheck

theorem ident_skips {i : Ident} (h : ident c s = .ok i t) : t.pending = s.skip.pending := by
  simp only [ident, bind_eq_ok, anyWord_eq_ok, context_eq_ok, ite_eq_ok, reject_eq_ok, and_false,
    pure_eq_ok, false_or] at h
  obtain ⟨_, _, ⟨_, -, -, rfl⟩, _, _, hcheck, _, _, ⟨rfl, rfl⟩, -, -, rfl⟩ := h
  exact Parser.Still.checkUnreserved _ _ hcheck

/-- A name that is key and value is read again from where the key was. -/
theorem plainProperty_nests (hg : g.Nests) {start keyToken : Token} {before : List Token}
    {k : PropertyKey} {n : Node} (hc : c.finish.kind = .eof)
    (h : g.plainProperty start keyToken before k c s = .ok n t) :
    s.Nests st t st ∨ ∀ r : State, r.pending = before → r.Nests st t st := by
  obtain ⟨b, u, hb, h⟩ := bind_eq_ok.1 h
  have hu : s.Nests st u st := Nests.optional (fun _ => rfl) hc (S := .anywhere) trivial hb
  rcases ite_eq_ok.1 h with ⟨-, h⟩ | ⟨-, h⟩
  · obtain ⟨v, w, hv, h⟩ := bind_eq_ok.1 h
    obtain ⟨-, rfl⟩ := pure_eq_ok.1 h
    exact Or.inl (hu.trans (hg.assignment .anywhere st hc trivial hv))
  · rcases ite_eq_ok.1 h with ⟨-, h⟩ | ⟨-, h⟩
    · obtain ⟨_, v, hv, h⟩ := bind_eq_ok.1 h
      obtain rfl := restore_eq_ok.1 hv
      obtain ⟨i, w, hw, h⟩ := bind_eq_ok.1 h
      obtain ⟨-, rfl⟩ := pure_eq_ok.1 h
      have hname : State.Nests _ st w st := Parser.Nests.ident (S := .anywhere) hc trivial hw
      exact Or.inr fun r hr => hname.congr hr
    · exact (unexpectedNext_eq_ok.1 h).elim

theorem propertyRest_nests (hg : g.Nests) (start : Token) (ms : Modifiers) :
    (g.propertyRest start ms).Closes S st := by
  intro c s n t hc _ h
  simp only [propertyRest, bind_eq_ok, peek_eq_ok, pending_eq_ok, check_eq_ok, ite_eq_ok] at h
  obtain ⟨_, _, ⟨rfl, rfl⟩, _, _, ⟨rfl, rfl⟩, k, u, hk, _, _, ⟨rfl, rfl⟩, h⟩ := h
  have hkey : s.Nests st u st := propertyKey_nests hg (S := .anywhere) hc trivial hk
  rcases h with ⟨-, h⟩ | ⟨-, h⟩
  · exact hkey.trans (methodProperty_nests hg start k ms (S := .anywhere) hc trivial h)
  · rcases plainProperty_nests hg hc h with hplain | hagain
    · exact hkey.trans hplain
    · exact hagain s rfl

theorem property_nests (hg : g.Nests) : g.property.Closes S st := by
  rw [property_eq]
  exact .step .peek fun _ => .accept rfl (.bind (hg.assignment _ _) fun _ => .done)
    (.bind propertyModifiers_nests fun _ => propertyRest_nests hg _ _)

theorem object_nests (hg : g.Nests) : g.object.Closes S st :=
  .bind (.expect rfl) fun _ => .bind (separated_nests rfl fun _ _ => property_nests hg) fun _ =>
    .done

/-- The bracket behind an expression in parentheses is the partner of the one before it. -/
theorem afterPartner_parenthesized (hg : g.Nests) {n : Node} (hc : c.finish.kind = .eof)
    (h : g.parenthesized c s = .ok n t) (more : List Token) :
    afterPartner 0 (s.pending ++ more) = t.pending ++ more := by
  simp only [parenthesized, bind_eq_ok, expect_eq_ok, pure_eq_ok] at h
  obtain ⟨_, _, ⟨hopen, -, rfl⟩, e, u, he, _, _, ⟨hclose, -, rfl⟩, -, rfl⟩ := h
  have hexpression : s.skip.Nests [] u [] := expression_nests hg (S := .anywhere) hc trivial he
  obtain ⟨inner, hinner, hnest⟩ := hexpression
  have hs : s.pending = c.next s :: s.skip.pending := Context.pending_eq hc (by simp [hopen])
  have hu : u.pending = c.next u :: u.skip.pending := Context.pending_eq hc (by simp [hclose])
  calc afterPartner 0 (s.pending ++ more)
      = afterPartner 1 (inner ++ (u.pending ++ more)) := by
        rw [hs, hinner, List.cons_append, List.append_assoc, afterPartner, hopen]
        rfl
    _ = afterPartner 1 (u.pending ++ more) := afterPartner_nest hnest _
    _ = u.skip.pending ++ more := by
        rw [hu, List.cons_append, afterPartner, hclose]
        rfl

end JsClass.Grammar
