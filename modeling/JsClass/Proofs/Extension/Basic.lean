import JsClass.Proofs.Grammar.Repeat
import JsClass.Proofs.Syntax.Members

/-!
The two dialects side by side. A run in the plain dialect is followed by the dialect with private
members if that one, whatever class bodies are open, reads the same from the same tokens, or
refuses a static member that is called like the constructor.
-/
namespace JsClass

variable {α β σ : Type}

/-- The same place of a program in the dialect with private members. -/
def Context.extended (c : Context) : Context := { c with dialect := .withPrivate }

def State.withScope (s : State) (scope : Scope) : State := { s with scope }

def Reply.withScope (scope : Scope) : Reply α → Reply α
  | .ok a s => .ok a (s.withScope scope)
  | .error e s => .error e (s.withScope scope)

/-- If `Q` holds, then the parts hold nothing that the dialect with private members refuses. -/
def Keeps (Q : Prop) (ps : List Part) : Prop :=
  Q → ∀ p ∈ ps, ∀ x ∈ p.node.walk, x.isStaticConstructor = false

/-- What a plain run has read is also read with private members, unless `Q` fails. -/
def Context.Follows (c : Context) (Q : Prop) (p : Parser α) (s : State) (a : α) (t : State) :
    Prop :=
  ∀ scope, p c.extended (s.withScope scope) = .ok a (t.withScope scope) ∨
    ¬ Q ∧ ∃ pos u, p c.extended (s.withScope scope) = .error (.rejected ⟨.staticConstructor, pos⟩) u

/-! Rules that look neither at the dialect nor at the open class bodies. -/

namespace Parser

def Quiet (p : Parser α) : Prop :=
  ∀ c s scope, p c.extended (s.withScope scope) = (p c s).withScope scope

namespace Quiet

theorem pure (a : α) : Quiet (Pure.pure a : Parser α) := fun _ _ _ => rfl

theorem bind {p : Parser α} {f : α → Parser β} (hp : Quiet p) (hf : ∀ a, Quiet (f a)) :
    Quiet (p >>= f) := by
  intro c s scope
  rw [bind_apply, bind_apply, hp]
  cases p c s with
  | ok a t => exact hf a c t scope
  | error e t => rfl

theorem ite {P : Prop} [Decidable P] {p q : Parser α} (hp : Quiet p) (hq : Quiet q) :
    Quiet (if P then p else q) := by
  split
  · exact hp
  · exact hq

theorem fail (e : Fault) : Quiet (Parser.fail e : Parser α) := fun _ _ _ => rfl

theorem reject (cause : Cause) (pos : Position) : Quiet (Parser.reject cause pos : Parser α) :=
  fun _ _ _ => rfl

theorem report (cause : Cause) (pos : Position) : Quiet (Parser.report cause pos) :=
  fun _ _ _ => rfl

/-- The context may be asked for anything but the dialect. -/
theorem context {f : Context → Parser β} (he : ∀ c, f c.extended = f c) (hf : ∀ c, Quiet (f c)) :
    Quiet (Parser.context >>= f) := by
  intro c s scope
  show f c.extended c.extended (s.withScope scope) = (f c c s).withScope scope
  rw [he c, hf c c s scope]

theorem peek : Quiet Parser.peek := fun _ _ _ => rfl

theorem peekAt (n : Nat) : Quiet (Parser.peekAt n) := fun _ _ _ => rfl

theorem advance : Quiet Parser.advance := by
  rintro c ⟨_ | _, reported, scope⟩ _ <;> rfl

theorem pending : Quiet Parser.pending := fun _ _ _ => rfl

theorem restore (tokens : List Token) : Quiet (Parser.restore tokens) := fun _ _ _ => rfl

theorem checkKind (k : Kind) : Quiet (Parser.checkKind k) := fun _ _ _ => rfl

theorem check (p : Punct) : Quiet (Parser.check p) := checkKind _

theorem checkWord (word : String) : Quiet (Parser.checkWord word) := checkKind _

theorem atEnd : Quiet Parser.atEnd := fun _ _ _ => rfl

theorem acceptKind (k : Kind) : Quiet (Parser.acceptKind k) :=
  (checkKind k).bind fun _ => ite (advance.bind fun _ => pure _) (pure _)

theorem accept (p : Punct) : Quiet (Parser.accept p) := acceptKind _

theorem acceptKeyword (k : Keyword) : Quiet (Parser.acceptKeyword k) := acceptKind _

theorem unexpected (x : Token) : Quiet (Parser.unexpected x : Parser α) := by
  unfold Parser.unexpected
  split <;> exact reject _ _

theorem unexpectedNext : Quiet (Parser.unexpectedNext : Parser α) := peek.bind unexpected

theorem expectKind (k : Kind) : Quiet (Parser.expectKind k) :=
  peek.bind fun _ => ite advance (unexpected _)

theorem expect (p : Punct) : Quiet (Parser.expect p) := expectKind _

theorem expectKeyword (k : Keyword) : Quiet (Parser.expectKeyword k) := expectKind _

theorem canInsertSemicolon : Quiet Parser.canInsertSemicolon := fun _ _ _ => rfl

theorem semicolon : Quiet Parser.semicolon :=
  (accept _).bind fun _ => ite (pure _) (canInsertSemicolon.bind fun _ =>
    ite (pure _) unexpectedNext)

theorem checkUnreserved (word : String) (pos : Position) :
    Quiet (Parser.checkUnreserved word pos) :=
  context (fun _ => rfl) fun _ => ite (reject _ _) (ite (reject _ _) (ite (reject _ _)
    (ite (report _ _) (pure _))))

theorem anyWord : Quiet Parser.anyWord := by
  refine peek.bind fun x => ?_
  split
  · exact unexpected _
  · exact advance.bind fun _ => pure _

theorem ident : Quiet Parser.ident :=
  anyWord.bind fun _ => (checkUnreserved _ _).bind fun _ =>
    context (fun _ => rfl) fun _ => ite (reject _ _) (pure _)

theorem checkIfNever (i : Ident) : Quiet (Parser.checkIfNever i) :=
  context (fun _ => rfl) fun _ => ite (checkUnreserved _ _) (pure _)

theorem propertyWord : Quiet Parser.propertyWord :=
  anyWord.bind fun _ => (checkIfNever _).bind fun _ => pure _

end Quiet

end Parser

/-! Rules that follow. -/

namespace Keeps

variable {Q : Prop} {p : Part} {ps qs : List Part}

theorem left (h : Keeps Q (ps ++ qs)) : Keeps Q ps :=
  fun q p hp => h q p (List.mem_append_left _ hp)

theorem right (h : Keeps Q (ps ++ qs)) : Keeps Q qs :=
  fun q p hp => h q p (List.mem_append_right _ hp)

theorem head (h : Keeps Q (p :: ps)) : Keeps Q [p] := by
  have h : Keeps Q ([p] ++ ps) := h
  exact h.left

theorem tail (h : Keeps Q (p :: ps)) : Keeps Q ps := by
  have h : Keeps Q ([p] ++ ps) := h
  exact h.right

theorem nil : Keeps Q [] := by
  intro _ p hp
  cases hp

theorem flatMap {f : α → Part} {xs : List α} (h : Keeps Q (xs.map f)) :
    Keeps Q (xs.flatMap fun x => [f x]) := by
  rwa [← List.map_eq_flatMap]

theorem walk (h : Keeps Q [p]) (q : Q) : ∀ x ∈ p.node.walk, x.isStaticConstructor = false :=
  h q p List.mem_cons_self

theorem self (h : Keeps Q [p]) (q : Q) : p.node.isStaticConstructor = false := by
  apply h.walk q
  rw [Node.walk_eq]
  exact List.mem_cons_self

/-- What a tree lacks its parts lack. -/
theorem parts (h : Keeps Q [p]) : Keeps Q (p.node.shape.parts p.context) := by
  intro q r hr x hx
  apply h.walk q
  have hr : r.node ∈ p.node.children := by
    rw [Node.children, ← Part.map_node_parts p.context]
    exact List.mem_map.2 ⟨r, hr, rfl⟩
  rw [Node.walk_eq]
  exact List.mem_cons_of_mem _ (List.mem_flatMap.2 ⟨r.node, hr, hx⟩)

end Keeps

namespace Context.Follows

open JsClass.Parser

variable {c : Context} {Q : Prop} {s t u : State} {a : α} {b : β}

theorem of_quiet {p : Parser α} (hq : p.Quiet) (h : p c s = .ok a t) : c.Follows Q p s a t := by
  intro scope
  left
  rw [hq, h]
  rfl

theorem pure (a : α) (s : State) : c.Follows Q (Pure.pure a) s a s := fun _ => Or.inl rfl

theorem bind {p : Parser α} {f : α → Parser β} (hp : c.Follows Q p s a u)
    (hf : c.Follows Q (f a) u b t) : c.Follows Q (p >>= f) s b t := by
  intro scope
  rw [bind_apply]
  rcases hp scope with hp | ⟨hq, pos, v, hp⟩
  · rw [hp]
    exact hf scope
  · rw [hp]
    exact Or.inr ⟨hq, pos, v, rfl⟩

/-- A quiet step, and then the rest. -/
theorem step {p : Parser α} {f : α → Parser β} (hq : p.Quiet) (hp : p c s = .ok a u)
    (hf : c.Follows Q (f a) u b t) : c.Follows Q (p >>= f) s b t :=
  (of_quiet hq hp).bind hf

/-- A choice by the dialect. -/
theorem extended {f : Context → Parser β} (hf : c.Follows Q (f c.extended) s b t) :
    c.Follows Q (Parser.context >>= f) s b t := hf

theorem context {f : Context → Parser β} (he : f c.extended = f c)
    (hf : c.Follows Q (f c) s b t) : c.Follows Q (Parser.context >>= f) s b t := by
  rw [← he] at hf
  exact extended hf

/-- A change of context that leaves the dialect alone. -/
theorem within {f : Context → Context} {p : Parser α} (he : f c.extended = (f c).extended)
    (hp : (f c).Follows Q p s a t) : c.Follows Q (Parser.within f p) s a t := by
  intro scope
  have hrun : Parser.within f p c.extended (s.withScope scope) =
      p (f c).extended (s.withScope scope) := congrArg (p · _) he
  rw [hrun]
  exact hp scope

/-- A class body in which nothing is declared or used leaves no trace. -/
theorem inClassBody {p : Parser α} (hp : c.Follows Q p s a t) :
    c.Follows Q (Parser.inClassBody p) s a t := by
  intro scope
  have hexit : scope.enter.exit = (.ok (), scope) := by
    obtain ⟨frames⟩ := scope
    cases frames <;> rfl
  have hstate : { s.withScope scope with scope := (s.withScope scope).scope.enter } =
      s.withScope scope.enter := rfl
  unfold Parser.inClassBody
  rw [hstate]
  rcases hp scope.enter with hp | ⟨hq, pos, u, hp⟩
  · left
    rw [hp]
    refine bind_eq_ok.2 ⟨(), t.withScope scope, ?_, rfl⟩
    exact onScope_eq_ok.2 ⟨scope, hexit, rfl⟩
  · right
    rw [hp]
    exact ⟨hq, pos, _, rfl⟩

theorem pos {P : Prop} [Decidable P] {p q : Parser α} (h : P) (hp : c.Follows Q p s a t) :
    c.Follows Q (if P then p else q) s a t := by
  rwa [if_pos h]

theorem neg {P : Prop} [Decidable P] {p q : Parser α} (h : ¬ P) (hq : c.Follows Q q s a t) :
    c.Follows Q (if P then p else q) s a t := by
  rwa [if_neg h]

end Context.Follows

/-! Rules all of whose plain runs are followed. -/

namespace Parser

variable {view : Context → β → List Part}

/-- Every plain run is followed, where `view` gives the parts of what the rule returns. -/
def FollowsBy (view : Context → β → List Part) (p : Parser β) : Prop :=
  ∀ ⦃c s b t Q⦄, c.dialect = .plain → p c s = .ok b t → Keeps Q (view c b) → c.Follows Q p s b t

/-- The part that a node is on its own. -/
def nodeView (c : Context) (n : Node) : List Part := [.ordinary c n]

def FollowsNode (p : Parser Node) : Prop := p.FollowsBy nodeView

namespace FollowsBy

theorem of_quiet {p : Parser β} (hq : p.Quiet) : p.FollowsBy view := by
  intro c s b t Q _ h _
  exact .of_quiet hq h

/-- Cases on what a quiet step returns are cases of the rule. -/
theorem step {p : Parser α} {f : α → Parser β} (hp : p.Quiet) (hf : ∀ a, (f a).FollowsBy view) :
    (p >>= f).FollowsBy view := by
  intro c s b t Q hc h hQ
  obtain ⟨a, u, ha, h⟩ := bind_eq_ok.1 h
  exact .step hp ha (hf a hc h hQ)

theorem context {f : Context → Parser β} (he : ∀ c, f c.extended = f c)
    (hf : ∀ c, (f c).FollowsBy view) : (Parser.context >>= f).FollowsBy view := by
  intro c s b t Q hc h hQ
  exact .context (he c) (hf c hc h hQ)

theorem ite {P : Prop} [Decidable P] {p q : Parser β} (hp : p.FollowsBy view)
    (hq : q.FollowsBy view) : (if P then p else q).FollowsBy view := by
  split
  · exact hp
  · exact hq

end FollowsBy

/-- Every plain run that goes on from `x`, or stops there, is followed, and it keeps `x`. -/
def FollowsFrom (x : Node) (p : Parser (Option Node)) : Prop :=
  ∀ ⦃c s r t Q⦄, c.dialect = .plain → p c s = .ok r t → Keeps Q [.ordinary c (r.getD x)] →
    Keeps Q [.ordinary c x] ∧ c.Follows Q p s r t

namespace FollowsFrom

variable {x : Node}

theorem none : FollowsFrom x (pure none) := by
  intro c s r t Q _ h hQ
  obtain ⟨rfl, rfl⟩ := pure_eq_ok.1 h
  exact ⟨hQ, .pure _ _⟩

theorem step {p : Parser α} {f : α → Parser (Option Node)} (hp : p.Quiet)
    (hf : ∀ a, (f a).FollowsFrom x) : (p >>= f).FollowsFrom x := by
  intro c s r t Q hc h hQ
  obtain ⟨a, u, ha, h⟩ := bind_eq_ok.1 h
  obtain ⟨hx, hrest⟩ := hf a hc h hQ
  exact ⟨hx, .step hp ha hrest⟩

theorem ite {P : Prop} [Decidable P] {p q : Parser (Option Node)} (hp : p.FollowsFrom x)
    (hq : q.FollowsFrom x) : (if P then p else q).FollowsFrom x := by
  split
  · exact hp
  · exact hq

end FollowsFrom

/-! Repetitions. -/

theorem collectFrom_follows (view : Context → β → List Part) {turn : σ → Parser (Turn σ β)}
    (hturn : ∀ x, (turn x).FollowsBy fun c r => r.items.flatMap (view c)) (turns : Nat) (x : σ) :
    (collectFrom turn turns x).FollowsBy fun c items => items.flatMap (view c) := by
  induction turns generalizing x with
  | zero =>
    intro c s items t Q _ h
    simp [collectFrom] at h
  | succ turns ih =>
    intro c s items t Q hc h hQ
    simp only [collectFrom, bind_eq_ok] at h
    obtain ⟨r, u, hr, h⟩ := h
    cases r with
    | stop found =>
      obtain ⟨rfl, rfl⟩ := pure_eq_ok.1 h
      exact (hturn x hc hr hQ).bind (.pure _ _)
    | more found y =>
      simp only [bind_eq_ok, pure_eq_ok] at h
      obtain ⟨rest, v, hv, rfl, rfl⟩ := h
      have hQ : Keeps Q ((found ++ rest).flatMap (view c)) := hQ
      rw [List.flatMap_append] at hQ
      exact (hturn x hc hr hQ.left).bind ((ih y hc hv hQ.right).bind (.pure _ _))

theorem collect_follows (view : Context → β → List Part) {turn : Parser (Turn Unit β)}
    (hturn : turn.FollowsBy fun c r => r.items.flatMap (view c)) (turns : Nat) :
    (collect turns turn).FollowsBy fun c items => items.flatMap (view c) :=
  collectFrom_follows view (fun _ => hturn) turns ()

theorem separated_follows {item : Parser β} (hitem : item.FollowsBy view) (turns : Nat)
    (close : Punct) :
    (separated turns close item).FollowsBy fun c items => items.flatMap (view c) := by
  refine FollowsBy.step (.accept _) fun _ => .ite (.of_quiet (.pure _)) ?_
  intro c s items t Q hc h hQ
  simp only [bind_eq_ok, pure_eq_ok] at h
  obtain ⟨first, v, hv, rest, w, hw, rfl, rfl⟩ := h
  have hQ : Keeps Q ((first :: rest).flatMap (view c)) := hQ
  rw [List.flatMap_cons] at hQ
  refine (hitem hc hv hQ.left).bind (.bind (collect_follows view ?_ _ hc hw hQ.right) (.pure _ _))
  refine FollowsBy.step (.accept _) fun _ => .ite (.of_quiet (.pure _)) ?_
  refine .step (.expect _) fun _ => .step (.accept _) fun _ => .ite (.of_quiet (.pure _)) ?_
  intro c s r t Q hc h hQ
  simp only [bind_eq_ok, pure_eq_ok] at h
  obtain ⟨x, u, hu, rfl, rfl⟩ := h
  have hQ : Keeps Q ([x].flatMap (view c)) := hQ
  rw [List.flatMap_singleton] at hQ
  exact (hitem hc hu hQ).bind (.pure _ _)

/-- What is extended is kept from the first step on. -/
theorem extend_follows {step : Node → Parser (Option Node)}
    (hstep : ∀ x, (step x).FollowsFrom x) {c : Context} (hc : c.dialect = .plain) {Q : Prop}
    {s t : State} {turns : Nat} {x n : Node} (h : extend step turns x c s = .ok n t)
    (hQ : Keeps Q [.ordinary c n]) :
    Keeps Q [.ordinary c x] ∧ c.Follows Q (extend step turns x) s n t := by
  induction turns generalizing x s with
  | zero => simp [extend] at h
  | succ turns ih =>
    simp only [extend, bind_eq_ok] at h
    obtain ⟨r, u, hr, h⟩ := h
    cases r with
    | none =>
      obtain ⟨rfl, rfl⟩ := pure_eq_ok.1 h
      exact ⟨hQ, (hstep x hc hr hQ).2.bind (.pure _ _)⟩
    | some y =>
      obtain ⟨hy, hrest⟩ := ih h
      exact ⟨(hstep x hc hr hy).1, (hstep x hc hr hy).2.bind hrest⟩

end Parser

end JsClass
