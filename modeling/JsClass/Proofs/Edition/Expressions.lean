import JsClass.Proofs.Edition.Members
import JsClass.Proofs.Grammar.Expressions

/-! Classes and expressions in two editions. -/
namespace JsClass.Grammar

open JsClass.Parser

variable {e : Edition} {g : Grammar} {c : Context} {s t : State} {n : Node}

-- A node that is built fits an edition if its parts do.
attribute [local simp] Shape.children Shape.fields Field.children

/-! Classes. -/

theorem className?_ageless (isExpression : Bool) : (className? isExpression).Ageless :=
  .bind .peek fun _ => .ite (.bind .ident fun _ => .pure _) (.ite (.pure _) (.reject _ _))

theorem classElement_carries (hg : g.Carries e) (hs : g.Sound) :
    g.classElement.Carries e True .anywhere (fun m => Node.AllFit e m.toList)
      fun _ => .anywhere := by
  refine .accept (fun _ => trivial) (.ageless (.pure _)) (.context (fun _ => rfl) fun c => ?_)
  split
  · exact .bind (plainElement_carries hg) fun m => .pure fun _ _ hV _ =>
      ⟨⟨trivial, by simpa using hV⟩, trivial⟩
  · exact .bind (privateDialectElement_carries hg hs) fun m => .pure fun _ _ hV _ =>
      ⟨⟨trivial, by simpa using hV⟩, trivial⟩

theorem classMembers_carries (hg : g.Carries e) (hs : g.Sound) :
    g.classMembers.Carries e True (fun c s => (c.next s).kind = .punct .lbrace) (Node.AllFit e)
      fun _ => .anywhere := by
  refine .expect id fun _ =>
    collectFrom_carries (V := Node.Fits e) (T := .anywhere) (fun x => ?_) _ _
  refine .accept (fun _ => trivial) (.pure fun _ _ _ _ => ⟨trivial, trivial⟩) ?_
  refine .step .atEnd fun _ => .ite (fun _ => .unexpectedNext) fun _ => ?_
  refine .bind (classElement_carries hg hs) fun m => ?_
  cases m with
  | none => exact .pure fun _ _ _ _ => ⟨⟨trivial, by simp⟩, trivial⟩
  | some m =>
    refine .ite (fun _ => .reject _ _) fun _ => .pure fun _ _ hV _ => ⟨⟨trivial, ?_⟩, trivial⟩
    simpa using hV m (by simp [Turn.items])

theorem superclass?_carries (hg : g.Carries e) :
    g.superclass?.Carries e True .anywhere (fun n => Node.AllFit e n.toList) fun _ => .free := by
  refine .step (.acceptKeyword _) fun _ => .ite (fun _ => ?_) fun _ => .ageless (.pure _)
  exact .bind hg.subscripted fun x => .pure fun _ _ hV hE => ⟨⟨trivial, by simpa using hV⟩, hE⟩

theorem classRest_carries (hg : g.Carries e) (hs : g.Sound) (isExpression : Bool) :
    (g.classRest isExpression).CarriesNode e .anywhere := by
  refine .step (.expectKeyword _) fun x => .within (fun _ => rfl) (fun _ _ h => h) ?_
  refine .step (className?_ageless _) fun name =>
    .bind (superclass?_carries hg) fun superclass => ?_
  have hmembers : g.classMembers.Carries e True .free (Node.AllFit e) fun _ => .anywhere :=
    (classMembers_carries hg hs).mono id (fun _ _ h => Site.free_punct h) fun _ _ _ h => h
  refine .bind hmembers fun members => .node ?_
  simp +contextual [Node.AllFit]

theorem class_carries (hg : g.Carries e) (hs : g.Sound) (isExpression : Bool) :
    (g.class_ isExpression).CarriesNode e .anywhere := by
  refine .context (fun _ => rfl) fun c => ?_
  split
  · exact classRest_carries hg hs isExpression
  · exact .inClassBody (classRest_carries hg hs isExpression)

/-! Arguments, elements and accesses. -/

theorem spreadable_carries (hg : g.Carries e) : g.spreadable.CarriesNode e .free := by
  refine .step .peek fun x => .accept (fun _ => trivial) ?_ hg.assignment
  refine .bind hg.assignment fun value => .pure fun c s hV hE => ⟨?_, hE⟩
  simpa using (Node.fits_token.1 hV).2

theorem arguments_carries (hg : g.Carries e) :
    g.arguments.Carries e True .anywhere (Node.AllFit e) fun _ => .anywhere :=
  separated_carries _ (fun h => h.elim Site.free_punct Site.free_punct) (spreadable_carries hg) _

theorem element_carries (hg : g.Carries e) :
    g.element.Carries e True .anywhere (fun x => Node.AllFit e x.toList) fun _ => .free := by
  refine .check (fun _ => trivial) (.ageless (.pure _)) ?_
  exact .bind (spreadable_carries hg) fun x => .pure fun _ _ hV hE =>
    ⟨⟨trivial, by simpa using hV⟩, hE⟩

theorem array_carries (hg : g.Carries e) : g.array.CarriesNode e .anywhere := by
  have helements := separated_carries .rbracket
    (fun h => h.elim Site.free_punct Site.free_punct) (element_carries hg) g.turns
  refine .step (.expect _) fun x => .bind helements fun ns => .node fun _ hchildren => ?_
  refine ⟨trivial, fun x hx y hy => hchildren y ?_⟩
  obtain rfl := Option.mem_toList.1 hy
  simpa using hx

theorem dotProperty_ageless : dotProperty.Ageless :=
  .bind .peek fun _ => .context (fun _ _ => rfl) fun _ => .ite
    (.bind .privateName fun _ => .bind (.onScope _) fun _ => .pure _)
    (.bind .propertyWord fun _ => .pure _)

theorem subscript_carries (hg : g.Carries e) (calls : Bool) (base : Node) :
    (g.subscript calls base).Carries e (base.Fits e) .free (fun r => (r.getD base).Fits e)
      fun _ => .free := by
  refine .peek fun x => ?_
  split
  · rename_i hx
    refine .known (fun h => Site.free_punct (h.trans hx)) (.step .advance fun _ =>
      .step dotProperty_ageless fun _ => .pure fun _ _ hV _ => ⟨?_, trivial⟩)
    have hchildren := (Node.fits_wrap.1 hV).2
    simp only [Shape.children, Shape.fields, Field.children, List.flatMap_cons,
      List.singleton_append, Node.allFit_cons] at hchildren
    exact hchildren.1
  · rename_i hx
    refine .known (fun h => Site.free_punct (h.trans hx)) (.step .advance fun _ =>
      .bind (expression_carries hg) fun property => .expect Site.free_punct fun _ =>
        .pure fun _ _ hV _ => ⟨?_, trivial⟩)
    simpa using (Node.fits_wrap.1 hV).2
  · rename_i hx
    refine .ite (fun _ => ?_) fun _ => .pure fun _ _ hV hE => ⟨hV, fun _ => hE⟩
    refine .known (fun h => Site.free_punct (h.trans hx)) (.step .advance fun _ =>
      .bind (arguments_carries hg) fun ns => .pure fun _ _ hV _ => ⟨?_, trivial⟩)
    simpa using (Node.fits_wrap.1 hV).2
  · exact .pure fun _ _ hV hE => ⟨hV, fun _ => hE⟩

theorem subscripts_carries (hg : g.Carries e) (calls : Bool) (base : Node) :
    (g.subscripts calls base).Carries e (base.Fits e) .free (Node.Fits e) fun _ => .free :=
  extend_carries (subscript_carries hg calls) _ _

theorem newExpression_carries (hg : g.Carries e) : g.newExpression.CarriesNode e .free := by
  refine .step (.expectKeyword _) fun x => .step .peek fun next => .ite (fun _ => .reject _ _)
    fun _ => .bind hg.atom fun callee => ?_
  have hsubscripts := (subscripts_carries hg false callee)
  refine (hsubscripts.bind_also (R := True) fun callee => ?_).mono
    id (fun _ _ h => h) fun _ _ _ h => h
  refine .accept Site.free_punct
    (.bind (arguments_carries hg) fun ns => .pure fun _ _ hV _ => ⟨?_, trivial⟩)
    (.pure fun _ _ hV hE => ⟨?_, hE⟩)
  · simpa [and_assoc] using (Node.fits_token.1 hV).2
  · simpa using (Node.fits_token.1 hV).2

/-! Atoms. -/

theorem superExpression_ageless : superExpression.Ageless := by
  refine .bind (.expectKeyword _) fun _ => ?_
  refine .context (fun _ _ => rfl) fun c => .bind .peek fun _ => ?_
  split
  · exact .ite (.reject _ _) (.ite (.reject _ _) (.pure _))
  · exact .ite (.reject _ _) (.pure _)
  · exact .ite (.reject _ _) (.pure _)
  · exact .unexpected _

/-- The word `async` before a function on the same line. -/
def AsyncFunction (c : Context) (s : State) : Prop :=
  (c.next s).kind = .name "async" ∧ (c.next s.skip).kind = .keyword .function_ ∧
    (c.next s.skip).newlineBefore = false

theorem isAsyncFunction_iff {b : Bool} : isAsyncFunction c s = .ok b t ↔
    (b = true ↔ 8 ≤ c.options.edition.number ∧ AsyncFunction c s) ∧ s = t := by
  have hrun : isAsyncFunction c s = .ok (8 ≤ c.options.edition.number &&
      (c.next s).kind == .name "async" && (c.next s.skip).kind == .keyword .function_ &&
        !(c.next s.skip).newlineBefore) s := by
    rw [← next_skip]
    rfl
  rw [hrun, Reply.ok.injEq, Bool.eq_iff_iff]
  simp only [Bool.and_eq_true, decide_eq_true_eq, beq_iff_eq, Bool.not_eq_true', AsyncFunction,
    and_assoc, iff_comm]

/-- Not at an asynchronous function that only the edition `e` has. -/
def settled (e : Edition) : Site := fun c s =>
  8 ≤ e.number → AsyncFunction c s → 8 ≤ c.options.edition.number

theorem settled_of_ne (h : (c.next s).kind ≠ .name "async") : settled e c s :=
  fun _ ha => absurd ha.1 h

/-- A name that does not start an asynchronous function. -/
def plainName (g : Grammar) (start : Token) : Parser Node := do
  let name ← ident
  let next ← peek
  if next.kind == .punct .fatArrow && !next.newlineBefore then g.arrow [name.param] start
  else return name.node

theorem nameExpression_eq : g.nameExpression = (do
    let start ← peek
    if ← isAsyncFunction then
      let _ ← advance
      g.function .expression true
    else g.plainName start) := rfl

/-- Read as a name of its own, the word `async` leaves a function behind it. -/
theorem plainName_async {start : Token} (ha : AsyncFunction c s)
    (h : g.plainName start c s = .ok n t) : ¬ Site.free c t := by
  obtain ⟨hn, hfunction, hline⟩ := ha
  simp only [plainName, bind_eq_ok, peek_eq_ok, ident_async hn, Reply.ok.injEq, ite_eq_ok,
    pure_eq_ok] at h
  obtain ⟨_, _, ⟨rfl, rfl⟩, _, _, ⟨rfl, rfl⟩, ⟨harrow, -⟩ | ⟨-, -, rfl⟩⟩ := h
  · simp [hfunction] at harrow
  · exact fun hfree => hfree ⟨hfunction, hline⟩

theorem plainName_carries (hg : g.Carries e) (start : Token) :
    (g.plainName start).Carries e True (settled e) (Node.Fits e) fun _ => .free := by
  have hrest : (g.plainName start).CarriesNode e .free := by
    refine .step .ident fun name => .step .peek fun next => .ite (fun _ => ?_) fun _ =>
      .ageless (.pure _)
    exact (arrow_carries hg _ start).mono (fun _ => trivial) (fun _ _ h => h) fun _ _ _ h => h
  intro c s n t h hV hE
  exact ⟨trivial, fun _ ha => absurd hE (plainName_async ha h), (hrest h hV hE).2.2⟩

/-- The choice between an asynchronous function and what else may start with its word. -/
theorem asyncChoice_carries (hg : g.Carries e) (form : FunctionForm) {p : Parser Node} {E : Site}
    (hp : p.Carries e True (settled e) (Node.Fits e) fun _ => E) :
    Parser.Carries e True (settled e) (Node.Fits e) (fun _ => E) (do
      if ← isAsyncFunction then
        let _ ← advance
        g.function form true
      else p) := by
  intro c s n t h hV hE
  obtain ⟨b, u, hu, h⟩ := bind_eq_ok.1 h
  obtain ⟨hb, rfl⟩ := isAsyncFunction_iff.1 hu
  have hrun : ∀ b : Bool, (b = true ↔ 8 ≤ e.number ∧ AsyncFunction c s) →
      isAsyncFunction (c.inEdition e) s = .ok b s := fun b hb => isAsyncFunction_iff.2 ⟨hb, rfl⟩
  obtain ⟨hasync, h⟩ | ⟨hasync, h⟩ := ite_eq_ok.1 h
  · obtain ⟨_, v, hv, h⟩ := bind_eq_ok.1 h
    obtain ⟨hc, hfunction⟩ := hb.1 hasync
    obtain ⟨height, -, h'⟩ := function_carries hg form true h hV trivial
    have hb' := hrun true ⟨fun _ => ⟨height rfl, hfunction⟩, fun _ => rfl⟩
    exact ⟨trivial, fun _ _ => hc, bind_eq_ok.2 ⟨true, s, hb', bind_eq_ok.2 ⟨_, v, hv, h'⟩⟩⟩
  · obtain ⟨-, hsettled, h'⟩ := hp h hV hE
    have hnone : ¬ (8 ≤ e.number ∧ AsyncFunction c s) := by
      rintro ⟨he, ha⟩
      exact hasync (hb.2 ⟨hsettled he ha, ha⟩)
    have hb' := hrun false ⟨(nomatch ·), fun h => absurd h hnone⟩
    exact ⟨trivial, hsettled, bind_eq_ok.2 ⟨false, s, hb', h'⟩⟩

theorem nameExpression_carries (hg : g.Carries e) :
    g.nameExpression.Carries e True (settled e) (Node.Fits e) fun _ => .free := by
  rw [nameExpression_eq]
  exact .peek fun start => .unlooked (asyncChoice_carries hg .expression
    (plainName_carries hg start))

theorem parenExpression_carries (hg : g.Carries e) : g.parenExpression.CarriesNode e .free := by
  refine .step .peek fun x => .step isArrowParams_ageless fun _ => .ite (fun _ => ?_) fun _ => ?_
  · refine .bind (params_carries hg) fun ps => ?_
    exact (arrow_carries hg ps x).mono (fun h => ⟨trivial, h⟩) (fun _ _ h => h) fun _ _ _ h => h
  · exact (parenthesized_carries hg).mono id (fun _ _ h => h) fun _ _ _ _ => trivial

theorem atomRule_carries (hg : g.Carries e) (hs : g.Sound) :
    g.atomRule.Carries e True (settled e) (Node.Fits e) fun _ => .free := by
  refine .peek fun x => ?_
  have hother : ∀ {p : Parser Node} {k : Kind}, x.kind = k → k ≠ .name "async" →
      p.CarriesNode e .free →
      p.Carries e True (fun c s => (c.next s).kind = x.kind → settled e c s) (Node.Fits e)
        fun _ => .free :=
    fun hx hk hp => .known (fun h => settled_of_ne (h.trans hx ▸ hk)) hp
  have hfree : ∀ {p : Parser Node}, p.CarriesNode e .anywhere → p.CarriesNode e .free :=
    fun hp => hp.mono id (fun _ _ h => h) fun _ _ _ _ => trivial
  split
  · exact hother ‹_› (by simp) (.ageless superExpression_ageless)
  · exact hother ‹_› (by simp) (.ageless (.bind .advance fun _ => .pure _))
  · exact .unlooked (nameExpression_carries hg)
  · exact hother ‹_› (by simp) (.ageless (.bind .advance fun _ => numberLiteral_ageless _ _))
  · exact hother ‹_› (by simp) (.ageless (.bind .advance fun _ => .pure _))
  · exact hother ‹_› (by simp) (.ageless (.bind .advance fun _ => .pure _))
  · exact hother ‹_› (by simp) (.ageless (.bind .advance fun _ => .pure _))
  · exact hother ‹_› (by simp) (.ageless (.bind .advance fun _ => .pure _))
  · exact hother ‹_› (by simp) (parenExpression_carries hg)
  · exact hother ‹_› (by simp) (hfree (array_carries hg))
  · exact hother ‹_› (by simp) (hfree (object_carries hg))
  · exact hother ‹_› (by simp) (hfree ((function_carries hg _ _).mono (fun _ => trivial)
      (fun _ _ h => h) fun _ _ _ h => h))
  · exact hother ‹_› (by simp) (hfree (class_carries hg hs _))
  · exact hother ‹_› (by simp) (newExpression_carries hg)
  · exact .unexpected _

theorem subscriptedRule_carries (hg : g.Carries e) (hs : g.Sound) :
    g.subscriptedRule.Carries e True (settled e) (Node.Fits e) fun _ => .free := by
  refine .bind (atomRule_carries hg hs) fun atom => .ite (fun _ => ?_) fun _ => ?_
  · exact .pure fun _ _ hV hE => ⟨⟨trivial, hV⟩, hE⟩
  · exact (subscripts_carries hg true atom).mono (fun h => ⟨trivial, h⟩) (fun _ _ h => h)
      fun _ _ _ h => h

/-! Operators. -/

theorem checkTarget_ageless (n : Node) : (checkTarget n).Ageless := .ite (.pure _) (.reject _ _)

theorem postfixUpdate_carries (operand : Node) :
    (postfixUpdate operand).Carries e (operand.Fits e) .free (fun r => (r.getD operand).Fits e)
      fun _ => .free := by
  refine .peek fun x => ?_
  split
  · rename_i op hop
    refine .ite (fun _ => .pure fun _ _ hV hE => ⟨hV, fun _ => hE⟩) fun _ => ?_
    refine .known (fun h => ?_) (.step (checkTarget_ageless _) fun _ => .step .advance fun _ =>
      .pure fun _ _ hV _ => ⟨?_, trivial⟩)
    · rintro ⟨hk, -⟩
      rw [← h, hk] at hop
      cases hop
    · simpa [Field.ofKind, Field.word] using
        (Node.fits_wrap.1 hV).2
  · exact .pure fun _ _ hV hE => ⟨hV, fun _ => hE⟩

theorem checkDelete_ageless (x : Token) (operand : Node) : (checkDelete x operand).Ageless :=
  .context (fun _ _ => rfl) fun _ => .ite (.reject _ _) (.ite (.reject _ _) (.pure _))

theorem checkDelete_eq_ok {x : Token} {u : Unit} (h : checkDelete x n c s = .ok u t) : s = t := by
  simp only [checkDelete, bind_eq_ok, context_eq_ok, ite_eq_ok, reject_eq_ok, pure_eq_ok, and_false,
    false_or] at h
  obtain ⟨_, _, ⟨rfl, rfl⟩, -, -, -, rfl⟩ := h
  rfl

theorem unaryOperator_carries (hg : g.Carries e) (x : Token) (op : UnaryOp) :
    (g.unaryOperator x op).CarriesNode e .free := by
  refine .bind hg.unary fun operand => ?_
  have hnode : Parser.Carries e (True ∧ operand.Fits e) .free (Node.Fits e) (fun _ => .free)
      (pure (x.node (.unary op operand))) := by
    refine .node ?_
    simp +contextual [Node.AllFit, Field.ofKind]
  exact .ite (fun _ => .stay (checkDelete_ageless _ _) checkDelete_eq_ok fun _ => hnode)
    fun _ => hnode

theorem prefixUpdate_carries (hg : g.Carries e) (x : Token) (op : UpdateOp) :
    (g.prefixUpdate x op).CarriesNode e .free := by
  refine .bind hg.unary fun operand => .stay (checkTarget_ageless _) checkTarget_eq_ok fun _ =>
    .node ?_
  simp +contextual [Node.AllFit, Field.ofKind]

theorem unaryRule_carries (hg : g.Carries e) (hs : g.Sound) :
    g.unaryRule.Carries e True (settled e) (Node.Fits e) fun _ => .free := by
  refine .peek fun x => .context (fun _ => rfl) fun d => .ite (fun hb => ?_) fun _ => ?_
  · have hawait : x.kind = .name "await" := by simpa using (Bool.and_eq_true_iff.1 hb).2
    refine .known (fun h => settled_of_ne (by simp [h, hawait])) (.step .advance fun _ =>
      .bind hg.unary fun operand => .node ?_)
    simp +contextual [Node.AllFit]
  · split
    · rename_i op hop
      refine .known (fun h => settled_of_ne fun hn => ?_) (.step .advance fun _ =>
        unaryOperator_carries hg x op)
      rw [← h, hn] at hop
      cases hop
    · rename_i op _ hop
      refine .known (fun h => settled_of_ne fun hn => ?_) (.step .advance fun _ =>
        prefixUpdate_carries hg x op)
      rw [← h, hn] at hop
      cases hop
    · refine .unlooked (.bind (subscriptedRule_carries hg hs) fun y => ?_)
      exact (extend_carries postfixUpdate_carries _ y).mono (fun h => ⟨trivial, h⟩)
        (fun _ _ h => h) fun _ _ _ h => h

/-- The left operand is kept through the whole climb. -/
theorem climb_carries {unary : Parser Node} {S : Site}
    (hu : unary.Carries e True S (Node.Fits e) fun _ => .free) (turns bound : Nat) (left : Node) :
    (climb unary turns bound left).Carries e (left.Fits e) .free (Node.Fits e) fun _ => .free := by
  induction turns generalizing bound left with
  | zero => exact .fail _
  | succ turns ih =>
    refine .peek fun x => ?_
    split
    · exact .pure fun _ _ hV hE => ⟨hV, fun _ => hE⟩
    · rename_i op hop
      refine .ite (fun _ => .pure fun _ _ hV hE => ⟨hV, fun _ => hE⟩) fun _ => ?_
      refine .known (fun h => ?_) (.step .advance fun _ => .bind hu.anywhere fun y => ?_)
      · rintro ⟨hk, -⟩
        rw [← h, hk] at hop
        cases hop
      · refine ((ih op.rightBound y).bind_also (R := left.Fits e) fun right => ?_)
        refine (ih bound _).mono (fun h => ?_) (fun _ _ h => h) fun _ _ _ h => h
        simpa [Field.ofKind, Field.word] using
          (Node.fits_wrap.1 h).2

theorem binaryRule_carries (hg : g.Carries e) (hs : g.Sound) :
    g.binaryRule.Carries e True (settled e) (Node.Fits e) fun _ => .free := by
  refine .bind (unaryRule_carries hg hs) fun left => ?_
  exact (climb_carries (unaryRule_carries hg hs) _ _ left).mono (fun h => ⟨trivial, h⟩)
    (fun _ _ h => h) fun _ _ _ h => h

theorem conditionalRule_carries (hg : g.Carries e) (hs : g.Sound) :
    g.conditionalRule.Carries e True (settled e) (Node.Fits e) fun _ => .free := by
  refine .bind (binaryRule_carries hg hs) fun condition => .accept Site.free_punct ?_ ?_
  · refine .bind hg.assignment fun consequent => .expect Site.free_punct fun _ =>
      .bind hg.assignment fun alternate => .node ?_
    simp +contextual [Node.AllFit]
  · exact .pure fun _ _ hV hE => ⟨⟨trivial, hV⟩, hE⟩

theorem yieldExpression_carries (hg : g.Carries e) : g.yieldExpression.CarriesNode e .free := by
  refine .step .advance fun x => .step .peek fun next =>
    .ite (fun _ => .ageless (.pure _)) fun _ => ?_
  refine .step (.accept _) fun delegate => .bind hg.assignment fun argument => .node ?_
  simp +contextual [Node.AllFit]

theorem assignmentRule_carries (hg : g.Carries e) (hs : g.Sound) :
    g.assignmentRule.Carries e True (settled e) (Node.Fits e) fun _ => .free := by
  refine .look (.checkWord _) checkWord_eq_ok.1 fun isYield => .context (fun _ => rfl) fun d =>
    .ite (fun hb => .known (fun h => settled_of_ne fun hn => ?_) (yieldExpression_carries hg))
      fun _ => .unlooked (.bind (conditionalRule_carries hg hs) fun target => .peek fun x => ?_)
  · simp only [Bool.and_eq_true] at hb
    simp [hn, hb.2] at h
  · split
    · exact .pure fun _ _ hV hE => ⟨⟨trivial, hV⟩, fun _ => hE⟩
    · rename_i op hop
      refine .known (fun h => ?_) (.step (checkTarget_ageless _) fun _ => .step .advance fun _ =>
        .bind hg.assignment fun value => .node ?_)
      · rintro ⟨hk, -⟩
        rw [← h, hk] at hop
        cases hop
      · simp +contextual [Node.AllFit, Field.ofKind]

theorem expressionRule_carries (hg : g.Carries e) (hs : g.Sound) :
    g.expressionRule.Carries e True (settled e) (Node.Fits e) fun _ => .free :=
  commaExpression_carries (assignmentRule_carries hg hs)

end JsClass.Grammar
