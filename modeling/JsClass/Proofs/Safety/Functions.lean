import JsClass.Proofs.Edition.Functions
import JsClass.Proofs.Safety.Basic

/-! The rules for functions and for the properties of objects. -/
namespace JsClass.Grammar

open JsClass.Parser

variable {m : Nat} {g : Grammar} {c : Context} {s t u : State} {S : Site}

/-- The rules are good for less than `m` tokens. Each of them takes one at least. -/
structure Safe (m : Nat) (g : Grammar) : Prop where
  turns : m ≤ g.turns
  statement : g.statement.Takes m .anywhere
  assignment : g.assignment.Takes m .anywhere
  unary : g.unary.Takes m .anywhere
  subscripted : g.subscripted.Takes m .anywhere
  atom : g.atom.Takes m .anywhere

theorem commaExpression_safe {turns : Nat} {assignment : Parser Node}
    (ha : assignment.Takes (m + 1) .anywhere) (hm : m ≤ turns) :
    (commaExpression turns assignment).Takes (m + 1) .anywhere := by
  refine .first (V := fun _ => False) ha fun first => .check _ fun _ => .ite (fun _ => ?_)
    fun _ => .done
  exact .bind (collect_safe (.accept (.bind ha.fewer fun _ => .done) (.pure id)) hm)
    fun rest => .done

theorem expression_safe (hg : g.Safe m) : g.expression.Takes m .anywhere := by
  cases m with
  | zero => exact .zero
  | succ m => exact commaExpression_safe hg.assignment (Nat.le_of_succ_le hg.turns)

theorem parenthesized_safe (hg : g.Safe m) : g.parenthesized.Takes (m + 1) .anywhere :=
  .first (.expect _) fun _ => .bind (expression_safe hg) fun _ => .bind (.expect _) fun _ => .done

theorem statementsUntil_safe (hg : g.Safe m) (ends : Kind → Bool) :
    (g.statementsUntil ends).Steady m .anywhere :=
  collect_safe (.glance fun _ => .ite (fun _ => .pure id) fun _ =>
    .take hg.statement fun _ => .done) hg.turns

theorem block_safe (hg : g.Safe m) : g.block.Takes (m + 1) .anywhere :=
  .first (.expect _) fun _ => .bind (statementsUntil_safe hg _) fun _ =>
    .bind (.expect _) fun _ => .done

/-! Functions. -/

theorem closeRest_safe [S.Stable] : closeRest.Steady m S :=
  .glance fun _ => .ite (fun _ => .bind .advance_steady fun _ => .done) fun _ => .reject _ _

theorem initializer?_safe (hg : g.Safe m) : g.initializer?.Steady m .anywhere :=
  .accept (.bind hg.assignment fun _ => .done) .done

theorem params_safe (hg : g.Safe m) : g.params.Takes (m + 1) .anywhere := by
  refine .first (.expect _) fun _ => collect_safe (.accept (V := fun _ => False) .done
    (.glance fun _ => .accept (V := fun _ => False) ?_ ?_)) hg.turns
  · exact .bind .ident fun _ => .bind closeRest_safe fun _ => .done
  · exact .take .ident fun _ => .bind (initializer?_safe hg) fun _ => .check _ fun _ =>
      .ite (fun _ => .done) fun _ => .bind (.expect _) fun _ => .done

theorem functionRest_safe (hg : g.Safe m) (isAsync isGenerator : Bool) :
    (g.functionRest isAsync isGenerator).Takes (m + 1) .anywhere :=
  .within (fun _ => rfl) (fun _ _ h => h) (.first (params_safe hg) fun _ =>
    .bind (block_safe hg).fewer fun _ => .done)

theorem functionName?_safe (form : FunctionForm) : (functionName? form).Steady m .anywhere :=
  .glance fun _ => .ite (fun _ => .bind .ident fun _ => .done) fun _ =>
    .ite (fun _ => .reject _ _) fun _ => .done

theorem function_safe (hg : g.Safe m) (form : FunctionForm) (isAsync : Bool) :
    (g.function form isAsync).Takes (m + 1) .anywhere :=
  .first (.expectKeyword _) fun _ => .bind (.accept_steady _) fun _ => .context fun _ =>
    .ite (fun _ => .reject _ _) fun _ => .bind (functionName?_safe form) fun _ =>
      .bind (functionRest_safe hg _ _).fewer fun _ => .done

theorem method_safe (hg : g.Safe m) (isAsync isGenerator : Bool) :
    (g.method isAsync isGenerator).Takes (m + 1) .anywhere :=
  .glance fun _ => .take (functionRest_safe hg _ _) fun _ => .done

theorem arrow_safe (hg : g.Safe m) (params : List Node) (start : Token) :
    (g.arrow params start).Takes (m + 1) .anywhere :=
  .first (.expect _) fun _ => .within (fun _ => rfl) (fun _ _ h => h) (.check _ fun _ =>
    .ite (fun _ => .bind (block_safe hg).fewer fun _ => .done) fun _ =>
      .bind hg.assignment fun _ => .done)

/-! Keys and properties. -/

/-- A number that comes next accounts for its own fault. -/
theorem number_safe {x : Token} {raw : String} (hx : x.kind = .number raw) :
    (advance >>= fun _ => numberLiteral x raw).Takes m (.before x) := by
  intro c s hc hs hS
  have hS : c.next s = x := hS
  obtain ⟨hmem, hlt⟩ := Context.next_mem hc (s := s) (by simp [hS, hx])
  rw [bind_apply, advance_apply]
  show (numberLiteral x raw c s.skip).Settled s _
  unfold numberLiteral
  cases hvalue : Numeral.ofText? raw with
  | some value => exact ⟨s.passes_skip, fun _ => hlt⟩
  | none =>
    refine ⟨x, hS ▸ hmem, fun hlegible => ?_⟩
    have := hlegible raw hx
    simp [hvalue] at this

theorem checkAccessor_safe (accessor : Option Accessor) (function : Node) [S.Stable] :
    (checkAccessor accessor function).Steady m S := by
  unfold checkAccessor
  rcases accessor with _ | _ | _
  · exact .done
  · cases function.params with
    | nil => exact .done
    | cons => exact .report _ _
  · cases function.params with
    | nil => exact .ite (fun _ => .bind (.report _ _) fun _ => .done) fun _ => .done
    | cons =>
      exact .ite (fun _ => .bind (.report _ _) fun _ => .ite (fun _ => .report _ _) fun _ => .done)
        fun _ => .ite (fun _ => .report _ _) fun _ => .done

theorem propertyKey_safe (hg : g.Safe m) : g.propertyKey.Takes (m + 1) .anywhere := by
  refine .peek fun x => ?_
  split
  · next hx =>
    exact .advance (by simp [hx]) fun _ => .bind hg.assignment fun _ => .bind (.expect _) fun _ =>
      .done
  · next raw hx =>
    rw [← bind_bind]
    exact .map (number_safe hx)
  · next hx => exact .advance (by simp [hx]) fun _ => .done
  · exact .anyplace (.take .propertyWord fun _ => .done)

theorem asyncStar_safe [S.Stable] : asyncStar.Steady m S :=
  .context fun _ => .ite (fun _ => .accept_steady _) fun _ => .done

theorem propertyAccessor?_safe : propertyAccessor?.Steady m .anywhere :=
  .peekAt _ fun _ => .ite (fun _ => .done) fun _ => .bind (.acceptKind nofun) fun _ =>
    .ite (fun _ => .done) fun _ => .bind (.acceptKind nofun) fun _ =>
      .ite (fun _ => .done) fun _ => .done

theorem propertyModifiers_safe : propertyModifiers.Steady m .anywhere :=
  .context fun _ => .glance fun _ => .peekAt _ fun _ => .ite
    (fun _ => .bind .advance_steady fun _ => .bind asyncStar_safe fun _ => .done)
    fun _ => .accept .done (.bind propertyAccessor?_safe fun _ => .done)

theorem methodProperty_safe (hg : g.Safe m) (start : Token) (k : PropertyKey) (ms : Modifiers) :
    (g.methodProperty start k ms).Takes (m + 1) .anywhere :=
  .take (method_safe hg _ _) fun _ => .bind (checkAccessor_safe _ _) fun _ => .done

/-- A name that is key and value is read again from where the key was. -/
theorem plainProperty_safe (hg : g.Safe m) (start keyToken : Token) (k : PropertyKey)
    (hc : c.finish.kind = .eof) (hs : s.pending.length < m) (hst : s.Passes t) :
    (g.plainProperty start keyToken s.pending k c t).Settled s fun _ => False := by
  have ht : t.pending.length < m := Nat.lt_of_le_of_lt hst.length_le hs
  have hcolon := Parser.Safe.accept_steady (S := .anywhere) .colon hc ht trivial
  refine (hcolon.since hst).bind fun b u hsu _ _ => ?_
  have hu : u.pending.length < m := Nat.lt_of_le_of_lt hsu.length_le hs
  cases b with
  | true => exact ((Parser.Safe.bind hg.assignment fun _ => .done) hc hu trivial).since hsu
  | false =>
    rw [if_neg nofun]
    split
    · have hrestored : s.Passes { u with pending := s.pending } := ⟨List.suffix_rfl, hsu.depth⟩
      have hname : (Parser.ident c { u with pending := s.pending }).Settled _ _ :=
        Parser.Safe.ident (S := .anywhere) hc hs trivial
      exact (hname.since hrestored).bind fun _ _ hsv _ _ => ⟨hsv, False.elim⟩
    · exact (Parser.Safe.unexpectedNext (S := .anywhere) hc hu trivial).since hsu

theorem propertyRest_safe (hg : g.Safe m) (start : Token) (ms : Modifiers) :
    (g.propertyRest start ms).Steady m .anywhere := by
  intro c s hc hs _
  show ((g.propertyKey >>= _) c s).Settled s _
  refine ((propertyKey_safe hg).fewer hc hs trivial).bind fun k t hst _ _ => ?_
  have ht : t.pending.length < m := Nat.lt_of_le_of_lt hst.length_le hs
  rw [bind_apply]
  -- the tokens from the key on are kept, in case that the key is the value too
  show ((if _ then g.methodProperty start k ms
    else g.plainProperty start _ s.pending k) c t).Settled s _
  split
  · exact ((methodProperty_safe hg _ _ _).fewer.weaken hc ht trivial).since hst
  · exact plainProperty_safe hg _ _ _ hc hs hst

theorem property_safe (hg : g.Safe m) : g.property.Steady m .anywhere := by
  rw [property_eq]
  exact .glance fun _ => .accept (.bind hg.assignment fun _ => .done)
    (.bind propertyModifiers_safe fun _ => propertyRest_safe hg _ _)

theorem object_safe (hg : g.Safe m) : g.object.Takes (m + 1) .anywhere :=
  .first (.expect _) fun _ => .bind (separated_safe (property_safe hg) hg.turns) fun _ => .done

end JsClass.Grammar
