import JsClass.Proofs.Edition.Basic

/-! The rules for functions and for the properties of objects in two editions. -/
namespace JsClass.Grammar

open JsClass.Parser

variable {e : Edition} {g : Grammar} {c : Context} {s t u : State} {n : Node}

-- A node that is built fits an edition if its parts do.
attribute [local simp] Shape.children Shape.fields Field.children

structure Carries (e : Edition) (g : Grammar) : Prop where
  statement : g.statement.CarriesNode e .anywhere
  assignment : g.assignment.CarriesNode e .free
  unary : g.unary.CarriesNode e .free
  subscripted : g.subscripted.CarriesNode e .free
  atom : g.atom.CarriesNode e .free

theorem commaExpression_carries {S : Site} {turns : Nat} {assignment : Parser Node}
    (ha : assignment.Carries e True S (Node.Fits e) fun _ => .free) :
    (commaExpression turns assignment).Carries e True S (Node.Fits e) fun _ => .free := by
  refine .bind ha fun first => .check Site.free_punct ?_ (.pure ?_)
  · refine .bind (collect_carries (V := Node.Fits e) (S := .free) (T := .free) ?_ turns).anywhere
      fun rest => .node ?_
    · refine .accept Site.free_punct ?_ (.pure fun _ _ _ hE => ⟨trivial, hE⟩)
      refine ha.anywhere.bind fun x => .pure fun _ _ hV hE => ⟨⟨trivial, ?_⟩, hE⟩
      exact hV x (by simp [Turn.items])
    · simp +contextual [Node.AllFit]
  · exact fun _ _ hV hE => ⟨⟨trivial, hV⟩, hE⟩

theorem expression_carries (hg : g.Carries e) : g.expression.CarriesNode e .free :=
  commaExpression_carries hg.assignment

theorem parenthesized_carries (hg : g.Carries e) : g.parenthesized.CarriesNode e .anywhere :=
  .step (.expect _) fun _ => .bind (expression_carries hg) fun _ =>
    .expect Site.free_punct fun _ => .pure fun _ _ hV _ => ⟨⟨trivial, hV⟩, trivial⟩

theorem statementsUntil_carries (hg : g.Carries e) (ends : Kind → Bool) :
    (g.statementsUntil ends).Carries e True .anywhere (Node.AllFit e) fun _ => .anywhere := by
  refine collect_carries (V := Node.Fits e) (T := .anywhere) ?_ _
  refine .step .peek fun _ => .ite (fun _ => .pure fun _ _ _ _ => ⟨trivial, trivial⟩) fun _ => ?_
  refine .bind hg.statement fun x => .pure fun _ _ hV _ => ⟨⟨trivial, ?_⟩, trivial⟩
  exact hV x (by simp [Turn.items])

theorem block_carries (hg : g.Carries e) : g.block.CarriesNode e .anywhere := by
  refine .step (.expect _) fun _ => .bind (statementsUntil_carries hg _) fun ns =>
    .step (.expect _) fun _ => .node ?_
  simp +contextual [Node.AllFit]

/-! Functions. -/

theorem closeRest_ageless : closeRest.Ageless :=
  .bind .peek fun _ => .ite (.bind .advance fun _ => .pure _) (.reject _ _)

theorem initializer?_carries (hg : g.Carries e) :
    g.initializer?.Carries e True .anywhere (fun n => Node.AllFit e n.toList) fun _ => .free := by
  refine .accept (fun _ => trivial) ?_ (.ageless (.pure _))
  exact .bind hg.assignment fun x => .pure fun _ _ hV hE => ⟨⟨trivial, by simpa using hV⟩, hE⟩

theorem params_carries (hg : g.Carries e) :
    g.params.Carries e True .anywhere (Node.AllFit e) fun _ => .anywhere := by
  refine .step (.expect _) fun _ => collect_carries (V := Node.Fits e) (T := .anywhere) ?_ _
  refine .accept (fun _ => trivial) (.pure fun _ _ _ _ => ⟨trivial, trivial⟩) ?_
  refine .step .peek fun x => .accept (fun _ => trivial) ?_ ?_
  · exact .step .ident fun _ => .step closeRest_ageless fun _ =>
      .pure fun _ _ _ _ => ⟨trivial, trivial⟩
  · refine .step .ident fun name => .bind (initializer?_carries hg) fun value => ?_
    have hparam : ∀ items : List Node, (∀ b ∈ items, Node.Fits e b) →
        x.node (.param name.node value false) ∈ items → Node.AllFit e value.toList := by
      intro items hV hx
      have hchildren := (Node.fits_token.1 (hV _ hx)).2
      simp only [Shape.children, Shape.fields, Field.children, List.flatMap_cons,
        List.flatMap_nil, List.append_nil, Node.allFit_append] at hchildren
      exact hchildren.2
    refine .check Site.free_punct (.pure fun _ _ hV _ => ⟨⟨trivial, hparam _ hV ?_⟩, trivial⟩)
      (.expect Site.free_punct fun _ => .pure fun _ _ hV _ => ⟨⟨trivial, hparam _ hV ?_⟩, trivial⟩)
    · simp [Turn.items]
    · simp [Turn.items]

theorem functionRest_carries (hg : g.Carries e) (isAsync isGenerator : Bool) :
    (g.functionRest isAsync isGenerator).Carries e True .anywhere
      (fun r => Node.AllFit e r.1 ∧ r.2.Fits e) fun _ => .anywhere := by
  refine .within (fun _ => rfl) (fun _ _ h => h) ?_
  exact .bind (params_carries hg) fun _ => .bind (block_carries hg) fun _ =>
    .pure fun _ _ hV _ => ⟨⟨⟨trivial, hV.1⟩, hV.2⟩, trivial⟩

theorem functionName?_ageless (form : FunctionForm) : (functionName? form).Ageless :=
  .bind .peek fun _ => .ite (.bind .ident fun _ => .pure _) (.ite (.reject _ _) (.pure _))

/-- A function that has a place in the edition is not refused there. -/
theorem function_carries (hg : g.Carries e) (form : FunctionForm) (isAsync : Bool) :
    (g.function form isAsync).Carries e (isAsync → 8 ≤ e.number) .anywhere (Node.Fits e)
      fun _ => .anywhere := by
  refine .step (.expectKeyword _) fun x => .step (.accept _) fun isGenerator => ?_
  have hrest : Parser.Carries e (functionSince isAsync isGenerator ≤ e.number) .anywhere
      (Node.Fits e) (fun _ => .anywhere) (do
        let name ← functionName? form
        let r ← g.functionRest isAsync isGenerator
        return x.node (.function form name r.1 r.2 isAsync isGenerator)) := by
    refine .step (functionName?_ageless form) fun name => .bind (functionRest_carries hg _ _)
      fun r => .node ?_
    simp +contextual [Node.AllFit, Shape.since]
  intro c s n t h hV hE
  obtain ⟨_, _, hc, h⟩ := bind_eq_ok.1 h
  obtain ⟨rfl, rfl⟩ := context_eq_ok.1 hc
  rw [ite_eq_ok, reject_eq_ok, and_false, false_or] at h
  obtain ⟨hsince, -, h'⟩ := hrest h.2 hV hE
  obtain ⟨height, hnine⟩ := (functionSince_le e).1 hsince
  refine ⟨height, trivial, bind_eq_ok.2 ⟨_, _, rfl, ?_⟩⟩
  have hearly : ¬ (isAsync && isGenerator && decide (e.number < 9)) = true := by
    simp only [Bool.and_eq_true, decide_eq_true_eq]
    rintro ⟨⟨ha, hgen⟩, hlt⟩
    have := hnine ha hgen
    omega
  exact ite_eq_ok.2 (Or.inr ⟨hearly, h'⟩)

/-- A method's value is a function. -/
theorem method_carries (hg : g.Carries e) (isAsync isGenerator : Bool) :
    (g.method isAsync isGenerator).Carries e (functionSince isAsync isGenerator ≤ e.number)
      .anywhere (Node.Fits e) fun _ => .anywhere := by
  refine .step .peek fun x => .bind (functionRest_carries hg _ _) fun r => .node ?_
  simp +contextual [Node.AllFit, Shape.since]

theorem isArrowParams_ageless : isArrowParams.Ageless :=
  .bind .pending fun _ => .context (fun _ _ => rfl) fun _ => .pure _

theorem arrow_carries (hg : g.Carries e) (params : List Node) (start : Token) :
    (g.arrow params start).Carries e (Node.AllFit e params) .anywhere (Node.Fits e)
      fun _ => .free := by
  refine .step (.expect _) fun _ => .within (fun _ => rfl) (fun _ _ h => h) ?_
  refine .check (fun _ => trivial) ?_ ?_
  · refine .bind (block_carries hg) fun body => .pure fun _ _ hV _ => ⟨?_, trivial⟩
    simpa using (Node.fits_token.1 hV).2
  · refine .bind hg.assignment fun body => .node ?_
    simp +contextual [Node.AllFit]

/-! Keys and properties. -/

theorem numberLiteral_ageless (x : Token) (raw : String) : (numberLiteral x raw).Ageless := by
  unfold numberLiteral
  split
  · exact .pure _
  · exact .fail _

theorem checkAccessor_ageless (accessor : Option Accessor) (function : Node) :
    (checkAccessor accessor function).Ageless := by
  unfold checkAccessor
  rcases accessor with _ | _ | _
  · exact .pure _
  · cases function.params with
    | nil => exact .pure _
    | cons => exact .report _ _
  · cases function.params with
    | nil => exact .ite (.bind (.report _ _) fun _ => .pure _) (.pure _)
    | cons =>
      exact .ite (.bind (.report _ _) fun _ => .ite (.report _ _) (.pure _))
        (.ite (.report _ _) (.pure _))

theorem propertyKey_carries (hg : g.Carries e) :
    g.propertyKey.Carries e True .anywhere (fun k => k.node.Fits e) fun _ => .anywhere := by
  refine .step .peek fun x => ?_
  split
  · exact .step .advance fun _ => .bind hg.assignment fun _ => .expect Site.free_punct fun _ =>
      .pure fun _ _ hV _ => ⟨⟨trivial, hV⟩, trivial⟩
  · exact .ageless (.bind .advance fun _ => .bind (numberLiteral_ageless _ _) fun _ => .pure _)
  · exact .ageless (.bind .advance fun _ => .pure _)
  · exact .ageless (.bind .propertyWord fun _ => .pure _)

theorem methodProperty_carries (hg : g.Carries e) (start : Token) (k : PropertyKey)
    (m : Modifiers) :
    (g.methodProperty start k m).Carries e
      (k.node.Fits e ∧ functionSince m.isAsync m.isGenerator ≤ e.number) .anywhere (Node.Fits e)
      fun _ => .anywhere := by
  refine .bind_also (method_carries hg _ _) fun value => .step (checkAccessor_ageless _ _)
    fun _ => .node ?_
  simp +contextual [Node.AllFit]

/-- What can come behind a property. -/
def afterProperty : Site := fun c s =>
  (c.next s).kind = .punct .comma ∨ (c.next s).kind = .punct .rbrace

theorem free_of_afterProperty (h : afterProperty c s) : Site.free c s := by
  rcases h with h | h
  · exact Site.free_punct h
  · exact Site.free_punct h

theorem plainProperty_carries (hg : g.Carries e) (start keyToken : Token) (before : List Token)
    (k : PropertyKey) :
    (g.plainProperty start keyToken before k).Carries e (k.node.Fits e) .anywhere (Node.Fits e)
      fun _ => afterProperty := by
  refine .accept (fun _ => trivial) ?_ ?_
  · refine .bind hg.assignment fun value => .pure fun c s hV hE => ⟨?_, free_of_afterProperty hE⟩
    simpa [Field.word] using (Node.fits_token.1 hV).2
  · refine .ite (fun _ => .step (.restore _) fun _ => .step .ident fun value =>
      .pure fun _ _ hV _ => ⟨?_, trivial⟩) fun _ => .unexpectedNext
    have := (Node.fits_token.1 hV).2
    simp only [Shape.children, Shape.fields, Field.children, List.flatMap_cons,
      List.singleton_append, Node.allFit_cons] at this
    exact this.1

/-- A property behind its modifiers. -/
def propertyRest (g : Grammar) (start : Token) (m : Modifiers) : Parser Node := do
  let keyToken ← peek
  let before ← pending
  let key ← g.propertyKey
  let hasParams ← check .lparen
  if !m.areAbsent || hasParams then g.methodProperty start key m
  else g.plainProperty start keyToken before key

theorem property_eq : g.property = (do
    let start ← peek
    if ← accept .ellipsis then return start.node (.spread (← g.assignment))
    else
      let m ← propertyModifiers
      g.propertyRest start m) := rfl

/-- No key starts with a star. -/
def notStar : Site := fun c s => (c.next s).kind ≠ .punct .star

theorem propertyRest_notStar {start : Token} {m : Modifiers}
    (h : g.propertyRest start m c s = .ok n t) : notStar c s := by
  simp only [propertyRest, bind_eq_ok, peek_eq_ok, pending_eq_ok] at h
  obtain ⟨_, _, ⟨-, rfl⟩, _, _, ⟨-, rfl⟩, k, u, hk, -⟩ := h
  exact fun hs => propertyKey_star hs hk

theorem propertyRest_carries (hg : g.Carries e) (start : Token) (m : Modifiers) :
    (g.propertyRest start m).Carries e (functionSince m.isAsync m.isGenerator ≤ e.number) notStar
      (Node.Fits e) fun _ => afterProperty := by
  refine .starts propertyRest_notStar (.step .peek fun keyToken => .step .pending fun before =>
    .bind (propertyKey_carries hg) fun k => .step (.check _) fun hasParams => .ite ?_ ?_)
  · intro _
    exact (methodProperty_carries hg start k m).mono And.symm (fun _ _ h => h)
      fun _ _ _ _ => trivial
  · intro hm
    refine (plainProperty_carries hg start keyToken before k).mono (fun hk => ⟨?_, hk⟩)
      (fun _ _ h => h) fun _ _ _ h => h
    have hasync : m.isAsync = false := by
      simp only [Modifiers.areAbsent, Bool.or_eq_true, Bool.not_eq_true', not_or] at hm
      cases ha : m.isAsync <;> simp [ha] at hm ⊢
    rw [hasync]
    exact functionSince_sync _ _

theorem asyncStar_carries {b : Bool} (h : asyncStar c s = .ok b t) (hb : b → 9 ≤ e.number)
    (ht : notStar c t) : asyncStar (c.inEdition e) s = .ok b t := by
  simp only [asyncStar, bind_eq_ok, context_eq_ok, ite_eq_ok, accept_eq_ok, pure_eq_ok] at h ⊢
  refine ⟨_, _, ⟨rfl, rfl⟩, ?_⟩
  obtain ⟨_, _, ⟨rfl, rfl⟩, ⟨-, ⟨hk, rfl, rfl⟩ | ⟨hk, rfl, rfl⟩⟩ | ⟨-, rfl, rfl⟩⟩ := h
  · exact Or.inl ⟨hb rfl, Or.inl ⟨hk, rfl, rfl⟩⟩
  · by_cases he : 9 ≤ e.number
    · exact Or.inl ⟨he, Or.inr ⟨hk, rfl, rfl⟩⟩
    · exact Or.inr ⟨he, rfl, rfl⟩
  · by_cases he : 9 ≤ e.number
    · exact Or.inl ⟨he, Or.inr ⟨ht, rfl, rfl⟩⟩
    · exact Or.inr ⟨he, rfl, rfl⟩

/-! The word `async` as a name. -/

theorem checkUnreserved_async (pos : Position) : checkUnreserved "async" pos c s = .ok () s := by
  have hkeyword : (Keyword.ofWord? "async").isSome = false := by decide
  have hreserved : c.isReserved "async" = false := by
    simp [Context.isReserved, reservedWords, strictReservedWords]
  simp [checkUnreserved, hkeyword, hreserved]

theorem propertyWord_async (hn : (c.next s).kind = .name "async") :
    propertyWord c s = .ok ⟨"async", (c.next s).pos⟩ s.skip := by
  have hnever : checkIfNever ⟨"async", (c.next s).pos⟩ c s.skip = .ok () s.skip := by
    refine bind_eq_ok.2 ⟨c, s.skip, rfl, ?_⟩
    split
    · exact checkUnreserved_async _
    · rfl
  refine bind_eq_ok.2 ⟨_, _, anyWord_eq_ok.2 ⟨"async", by rw [hn]; rfl, rfl, rfl⟩, ?_⟩
  exact bind_eq_ok.2 ⟨_, _, hnever, rfl⟩

theorem propertyKey_async (hn : (c.next s).kind = .name "async") :
    g.propertyKey c s = .ok ⟨⟨.identifier "async", (c.next s).pos⟩, false⟩ s.skip := by
  refine bind_eq_ok.2 ⟨c.next s, s, rfl, ?_⟩
  simp only [hn]
  exact bind_eq_ok.2 ⟨_, _, propertyWord_async hn, rfl⟩

theorem ident_async (hn : (c.next s).kind = .name "async") :
    ident c s = .ok ⟨"async", (c.next s).pos⟩ s.skip := by
  refine bind_eq_ok.2 ⟨_, _, anyWord_eq_ok.2 ⟨"async", by rw [hn]; rfl, rfl, rfl⟩, ?_⟩
  refine bind_eq_ok.2 ⟨_, _, checkUnreserved_async _, ?_⟩
  refine bind_eq_ok.2 ⟨c, s.skip, rfl, ?_⟩
  simp

/-- The word `async` before what may be the key of an asynchronous method. -/
def AsyncKey (c : Context) (s : State) : Prop :=
  (c.next s).kind = .name "async" ∧ endsPropertyKey (c.next s.skip).kind = false ∧
    (c.next s.skip).newlineBefore = false

/-- Read as a key of its own, the word is followed by nothing that may follow a property. -/
theorem propertyRest_async {start : Token} (hs : AsyncKey c s)
    (h : g.propertyRest start .absent c s = .ok n t) : ¬ afterProperty c t := by
  obtain ⟨hn, hends, -⟩ := hs
  simp only [endsPropertyKey, Bool.or_eq_false_iff, beq_eq_false_iff_ne] at hends
  obtain ⟨⟨⟨⟨hcomma, hrbrace⟩, hcolon⟩, hlparen⟩, -⟩ := hends
  simp only [propertyRest, bind_eq_ok, peek_eq_ok, pending_eq_ok, check_eq_ok, ite_eq_ok] at h
  obtain ⟨_, _, ⟨rfl, rfl⟩, _, _, ⟨rfl, rfl⟩, k, u, hk, _, _, ⟨rfl, rfl⟩, h⟩ := h
  rw [propertyKey_async hn] at hk
  cases hk
  obtain ⟨hb, -⟩ | ⟨-, h⟩ := h
  · exact absurd (by simpa [Modifiers.areAbsent, Modifiers.absent] using hb) hlparen
  · simp only [plainProperty, bind_eq_ok, accept_eq_ok, ite_eq_ok, restore_eq_ok, pure_eq_ok,
      unexpectedNext_eq_ok, and_false, or_false] at h
    obtain ⟨b, v, ⟨hk, -⟩ | ⟨-, rfl, rfl⟩, h⟩ := h
    · exact absurd hk hcolon
    · obtain ⟨hb, -⟩ | ⟨-, -, _, w, rfl, i, x, hi, rfl, rfl⟩ := h
      · cases hb
      · have hstate : { s.skip with pending := s.pending } = s := rfl
        rw [hstate, ident_async hn] at hi
        cases hi
        exact fun h => h.elim hcomma hrbrace

theorem propertyAccessor?_ageless : propertyAccessor?.Ageless :=
  .bind (.peekAt _) fun _ => .ite (.pure _) (.bind (.acceptKind _) fun _ => .ite (.pure _)
    (.bind (.acceptKind _) fun _ => .ite (.pure _) (.pure _)))

/-- The modifiers of a property but for `async`. -/
def otherModifiers : Parser Modifiers := do
  if ← accept .star then return ⟨false, true, none⟩
  else return ⟨false, false, ← propertyAccessor?⟩

theorem otherModifiers_ageless : otherModifiers.Ageless :=
  .bind (.accept _) fun _ => .ite (.pure _) (.bind propertyAccessor?_ageless fun _ => .pure _)

theorem otherModifiers_async (hn : (c.next s).kind = .name "async") :
    otherModifiers c s = .ok .absent s := by
  have haccessor : propertyAccessor? c s = .ok none s := by
    simp [propertyAccessor?, hn, or_iff_not_imp_left]
  simp [otherModifiers, hn, haccessor, Modifiers.absent]

theorem propertyModifiers_eq_ok {m : Modifiers} : propertyModifiers c s = .ok m t ↔
    (8 ≤ c.options.edition.number ∧ AsyncKey c s) ∧
      (∃ isGenerator, asyncStar c s.skip = .ok isGenerator t ∧ ⟨true, isGenerator, none⟩ = m) ∨
    ¬ (8 ≤ c.options.edition.number ∧ AsyncKey c s) ∧ otherModifiers c s = .ok m t := by
  have hrun : propertyModifiers c s = (if 8 ≤ c.options.edition.number &&
      (c.next s).kind == .name "async" && !endsPropertyKey (c.next s.skip).kind &&
        !(c.next s.skip).newlineBefore then do
          let _ ← advance
          return ⟨true, ← asyncStar, none⟩
      else otherModifiers) c s := by
    rw [← next_skip]
    rfl
  have hkey : (8 ≤ c.options.edition.number && (c.next s).kind == .name "async" &&
      !endsPropertyKey (c.next s.skip).kind && !(c.next s.skip).newlineBefore) = true ↔
      8 ≤ c.options.edition.number ∧ AsyncKey c s := by
    simp [AsyncKey, and_assoc]
  rw [hrun, ite_eq_ok, hkey]
  simp

/-- The modifiers of the other edition, unless the word `async` is a key in this one only. -/
theorem propertyModifiers_carries {m : Modifiers} (h : propertyModifiers c s = .ok m t)
    (hm : functionSince m.isAsync m.isGenerator ≤ e.number) (ht : notStar c t) :
    propertyModifiers (c.inEdition e) s = .ok m t ∨ AsyncKey c s ∧ m = .absent ∧ s = t := by
  rw [propertyModifiers_eq_ok] at h ⊢
  obtain ⟨⟨-, hkey⟩, isGenerator, hstar, rfl⟩ | ⟨-, h⟩ := h
  · obtain ⟨height, hnine⟩ := (functionSince_le e).1 hm
    exact Or.inl (Or.inl ⟨⟨height rfl, hkey⟩, _, asyncStar_carries hstar (hnine rfl) ht, rfl⟩)
  · by_cases hkey : AsyncKey c s
    · rw [otherModifiers_async hkey.1] at h
      cases h
      exact Or.inr ⟨hkey, rfl, rfl⟩
    · left
      right
      rw [otherModifiers_ageless]
      exact ⟨fun h => hkey h.2, h⟩

theorem property_carries (hg : g.Carries e) : g.property.CarriesNode e afterProperty := by
  rw [property_eq]
  refine .step .peek fun start => .accept (fun _ => trivial) ?_ ?_
  · refine .bind hg.assignment fun value => .pure fun c s hV hE => ⟨?_, free_of_afterProperty hE⟩
    simpa using (Node.fits_token.1 hV).2
  · intro c s n t h hV hE
    obtain ⟨m, u, hm, h⟩ := bind_eq_ok.1 h
    obtain ⟨hsince, hstar, h'⟩ := propertyRest_carries hg start m h hV hE
    rcases propertyModifiers_carries hm hsince hstar with hm' | ⟨hkey, rfl, rfl⟩
    · exact ⟨trivial, trivial, bind_eq_ok.2 ⟨m, u, hm', h'⟩⟩
    · exact absurd hE (propertyRest_async hkey h)

theorem object_carries (hg : g.Carries e) : g.object.CarriesNode e .anywhere := by
  have hproperties := separated_carries .rbrace id (property_carries hg) g.turns
  refine .step (.expect _) fun x => .bind hproperties fun ns => .node ?_
  simp +contextual [Node.AllFit]

end JsClass.Grammar
