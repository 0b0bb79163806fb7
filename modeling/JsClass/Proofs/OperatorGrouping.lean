import JsClass.Grammar.Program
import JsClass.Proofs.Grammar.Success

/-!
Binary operators are read from left to right, with a bound on how loosely the next one may bind.
What this builds is said here without a bound: the sequence is split at its loosest operator, and
both sides again in the same way. Only one tree holds a given sequence in order and respects the
precedences, so it is enough that both trees do.
-/
namespace JsClass

/-! How operators bind. -/

namespace BinaryOp

/-- Of two operators in a row, the left one takes the operand between them. It does if it binds more
tightly, and among equals unless they are powers. -/
def BindsBefore (o p : BinaryOp) : Prop :=
  p.precedence < o.precedence ∨ p.precedence = o.precedence ∧ o ≠ .pow

instance (o p : BinaryOp) : Decidable (o.BindsBefore p) :=
  inferInstanceAs (Decidable (_ ∨ _))

theorem precedence_pos (o : BinaryOp) : 0 < o.precedence := by
  cases o <;> decide

theorem precedence_le_pow (o : BinaryOp) : o.precedence ≤ precedence .pow := by
  cases o <;> decide

theorem eq_pow_iff (o : BinaryOp) : o = .pow ↔ o.precedence = precedence .pow := by
  cases o <;> decide

theorem rightBound_eq (o : BinaryOp) :
    o.rightBound = if o = .pow then o.precedence - 1 else o.precedence := by
  cases o <;> rfl

theorem precedence_le_rightBound_succ (o : BinaryOp) : o.precedence ≤ o.rightBound + 1 := by
  rw [rightBound_eq]
  split <;> omega

theorem bindsBefore_iff {o p : BinaryOp} : o.BindsBefore p ↔ p.precedence ≤ o.rightBound := by
  have := o.precedence_pos
  by_cases ho : o = .pow
  · simp [BindsBefore, rightBound_eq, ho, precedence]
    omega
  · simp [BindsBefore, rightBound_eq, ho]
    omega

theorem not_bindsBefore_iff {o p : BinaryOp} :
    ¬ o.BindsBefore p ↔ o.rightBound < p.precedence := by
  rw [bindsBefore_iff, Nat.not_le]

theorem BindsBefore.trans {o p q : BinaryOp} (hop : o.BindsBefore p) (hpq : p.BindsBefore q) :
    o.BindsBefore q := by
  simp only [BindsBefore, ne_eq, eq_pow_iff] at *
  omega

theorem BindsBefore.of_not {o p q : BinaryOp} (hop : ¬ o.BindsBefore p) (hoq : o.BindsBefore q) :
    p.BindsBefore q := by
  simp only [BindsBefore, ne_eq, eq_pow_iff] at *
  omega

end BinaryOp

/-! Trees of operators. -/

/-- How binary operators and their operands are grouped. An operand is any expression, also one that
has operators of its own. -/
inductive Grouping where
  | operand (n : Node)
  | apply (left : Grouping) (op : BinaryOp) (right : Grouping)

namespace Grouping

variable {G H : Grouping}

/-- The expression; an operation begins where its left operand does. -/
def node : Grouping → Node
  | operand n => n
  | apply left op right => left.node.wrap (.binary left.node op right.node)

/-- The operand that is written first. -/
def first : Grouping → Node
  | operand n => n
  | apply left _ _ => left.first

/-- The operators as they are written, each with the operand that comes behind it. -/
def rest : Grouping → List (BinaryOp × Node)
  | operand _ => []
  | apply left op right => left.rest ++ (op, right.first) :: right.rest

/-- In every operation, the operators inside its left operand bind before its own, and its own binds
before none of those inside its right operand. -/
def Respects : Grouping → Prop
  | operand _ => True
  | apply left op right => left.Respects ∧ right.Respects ∧
      (∀ o ∈ left.rest, o.1.BindsBefore op) ∧ ∀ o ∈ right.rest, ¬ op.BindsBefore o.1

theorem pos_node (G : Grouping) : G.node.pos = G.first.pos := by
  induction G with
  | operand n => rfl
  | apply left op right ihl ihr => exact ihl

/-- Of two splits of a sequence, the operator of the earlier one is on the left side of the later
one, and the operator of the later one is on the right side of the earlier one. -/
theorem mem_of_split_lt {l l' r r' : List (BinaryOp × Node)} {o o' : BinaryOp × Node}
    (h : l ++ o :: r = l' ++ o' :: r') (hlt : l.length < l'.length) : o ∈ l' ∧ o' ∈ r := by
  obtain ⟨between, rfl, hcons⟩ | ⟨between, rfl, -⟩ := List.append_eq_append_iff.1 h
  · cases between with
    | nil => simp at hlt
    | cons p between =>
      simp only [List.cons_append, List.cons.injEq] at hcons
      obtain ⟨rfl, rfl⟩ := hcons
      simp
  · simp only [List.length_append] at hlt
    omega

/-- A sequence is grouped in one way only: of two operators at which it is split, the left one would
have to bind before the right one and not to. -/
theorem Respects.unique (hG : G.Respects) (hH : H.Respects) (hfirst : G.first = H.first)
    (hrest : G.rest = H.rest) : G = H := by
  induction G generalizing H with
  | operand n =>
    cases H with
    | operand m => rw [show n = m from hfirst]
    | apply left op right => simp [rest] at hrest
  | apply left op right ihl ihr =>
    cases H with
    | operand m => simp [rest] at hrest
    | apply left' op' right' =>
      obtain ⟨hl, hr, hbefore, hbehind⟩ := hG
      obtain ⟨hl', hr', hbefore', hbehind'⟩ := hH
      rcases Nat.lt_trichotomy left.rest.length left'.rest.length with hlt | heq | hlt
      · obtain ⟨hmem, hmem'⟩ := mem_of_split_lt hrest hlt
        exact absurd (hbefore' _ hmem) (hbehind _ hmem')
      · obtain ⟨hleft, hright⟩ := List.append_inj hrest heq
        simp only [List.cons.injEq, Prod.mk.injEq] at hright
        rw [ihl hl hl' hfirst hleft, hright.1.1, ihr hr hr' hright.1.2 hright.2]
      · obtain ⟨hmem, hmem'⟩ := mem_of_split_lt hrest.symm hlt
        exact absurd (hbefore _ hmem) (hbehind' _ hmem')

end Grouping

/-! Splitting at the loosest operator. -/

section Splitting

variable {α : Type} {p : α → Bool} {l b r : List α} {x : α}

/-- The first item that passes the test, with what is before and behind it. -/
def splitFirst (p : α → Bool) : List α → Option (List α × α × List α)
  | [] => none
  | x :: xs =>
    if p x then some ([], x, xs)
    else (splitFirst p xs).map fun (before, y, behind) => (x :: before, y, behind)

/-- The last item that passes the test, with what is before and behind it. -/
def splitLast (p : α → Bool) : List α → Option (List α × α × List α)
  | [] => none
  | x :: xs =>
    match splitLast p xs with
    | some (before, y, behind) => some (x :: before, y, behind)
    | none => if p x then some ([], x, xs) else none

theorem splitFirst_eq_some (h : splitFirst p l = some (b, x, r)) :
    l = b ++ x :: r ∧ p x ∧ ∀ y ∈ b, p y = false := by
  induction l generalizing b with
  | nil => simp [splitFirst] at h
  | cons y ys ih =>
    simp only [splitFirst] at h
    split at h
    · cases h
      simpa
    · obtain ⟨⟨b', x', r'⟩, hys, h⟩ := Option.map_eq_some_iff.1 h
      cases h
      obtain ⟨rfl, hx, hb⟩ := ih hys
      simp_all

theorem splitLast_eq_none : splitLast p l = none ↔ ∀ y ∈ l, p y = false := by
  induction l with
  | nil => simp [splitLast]
  | cons y ys ih => cases h : splitLast p ys <;> simp_all [splitLast]

theorem splitFirst_eq_none : splitFirst p l = none ↔ ∀ y ∈ l, p y = false := by
  induction l with
  | nil => simp [splitFirst]
  | cons y ys ih => cases h : p y <;> simp_all [splitFirst]

theorem splitLast_eq_some (h : splitLast p l = some (b, x, r)) :
    l = b ++ x :: r ∧ p x ∧ ∀ y ∈ r, p y = false := by
  induction l generalizing b with
  | nil => simp [splitLast] at h
  | cons y ys ih =>
    simp only [splitLast] at h
    split at h
    · rename_i hys
      cases h
      obtain ⟨rfl, hx, hr⟩ := ih hys
      simp_all
    · rename_i hys
      split at h
      · cases h
        exact ⟨rfl, ‹_›, splitLast_eq_none.1 hys⟩
      · cases h

end Splitting

namespace Grouping

variable {x : Node} {ops before behind : List (BinaryOp × Node)} {o : BinaryOp × Node}

/-- Splits a sequence at the last operator of the lowest precedence, but at the first one if these
are powers. -/
def split (ops : List (BinaryOp × Node)) :
    Option (List (BinaryOp × Node) × (BinaryOp × Node) × List (BinaryOp × Node)) := do
  let lowest ← (ops.map (·.1.precedence)).min?
  if lowest == BinaryOp.precedence .pow then splitFirst (·.1.precedence == lowest) ops
  else splitLast (·.1.precedence == lowest) ops

theorem split_eq_some (h : split ops = some (before, o, behind)) :
    ops = before ++ o :: behind ∧ (∀ p ∈ before, p.1.BindsBefore o.1) ∧
      ∀ p ∈ behind, ¬ o.1.BindsBefore p.1 := by
  simp only [split, Option.bind_eq_bind, Option.bind_eq_some_iff, List.min?_eq_some_iff] at h
  obtain ⟨lowest, ⟨-, hle⟩, h⟩ := h
  have hlow : ∀ p ∈ ops, lowest ≤ p.1.precedence := fun p hp =>
    hle _ (List.mem_map.2 ⟨p, hp, rfl⟩)
  split at h
  · obtain ⟨hops, ho, hbefore⟩ := splitFirst_eq_some h
    simp only [beq_iff_eq, beq_eq_false_iff_ne, hops, List.mem_append, List.mem_cons] at *
    refine ⟨trivial, fun p hp => ?_, fun p hp => ?_⟩
    · -- No operator binds more tightly than a power, so none can be before the first one.
      have := hlow p (.inl hp)
      have := hbefore p hp
      have := p.1.precedence_le_pow
      omega
    · have := hlow p (.inr (.inr hp))
      have := p.1.precedence_le_pow
      simp only [BinaryOp.BindsBefore, ne_eq, BinaryOp.eq_pow_iff]
      omega
  · obtain ⟨hops, ho, hbehind⟩ := splitLast_eq_some h
    simp only [beq_iff_eq, beq_eq_false_iff_ne, hops, List.mem_append, List.mem_cons] at *
    refine ⟨trivial, fun p hp => ?_, fun p hp => ?_⟩
    · have := hlow p (.inl hp)
      simp only [BinaryOp.BindsBefore, ne_eq, BinaryOp.eq_pow_iff]
      omega
    · have := hlow p (.inr (.inr hp))
      have := hbehind p hp
      simp only [BinaryOp.BindsBefore]
      omega

theorem split_eq_none (h : split ops = none) : ops = [] := by
  cases hmin : (ops.map (·.1.precedence)).min? with
  | none => simpa using hmin
  | some lowest =>
    obtain ⟨p, hp, hlowest⟩ := List.mem_map.1 (List.min?_eq_some_iff.1 hmin).1
    have hnone : ∀ y ∈ ops, (y.1.precedence == lowest) = false := by
      simp only [split, hmin, Option.bind_eq_bind, Option.bind_some] at h
      split at h
      · exact splitFirst_eq_none.1 h
      · exact splitLast_eq_none.1 h
    simpa [hlowest] using hnone p hp

theorem split_length_lt (h : split ops = some (before, o, behind)) :
    before.length < ops.length ∧ behind.length < ops.length := by
  rw [(split_eq_some h).1]
  simp
  omega

/-- The grouping of a sequence: split at its loosest operator, and both sides again. -/
def ofSequence (x : Node) (ops : List (BinaryOp × Node)) : Grouping :=
  match h : split ops with
  | none => .operand x
  | some (before, (op, y), behind) =>
    have := split_length_lt h
    .apply (ofSequence x before) op (ofSequence y behind)
termination_by ops.length

theorem ofSequence_spec (x : Node) (ops : List (BinaryOp × Node)) :
    (ofSequence x ops).first = x ∧ (ofSequence x ops).rest = ops ∧ (ofSequence x ops).Respects := by
  fun_induction ofSequence x ops with
  | case1 x ops h => exact ⟨rfl, (split_eq_none h).symm, trivial⟩
  | case2 x ops before op y behind h _ ihbefore ihbehind =>
    obtain ⟨hfirst, hrest, hrespects⟩ := ihbefore
    obtain ⟨hfirst', hrest', hrespects'⟩ := ihbehind
    obtain ⟨hops, hbefore, hbehind⟩ := split_eq_some h
    refine ⟨hfirst, ?_, hrespects, hrespects', ?_, ?_⟩
    · rw [rest, hrest, hrest', hfirst', hops]
    · rwa [hrest]
    · rwa [hrest']

end Grouping

/-! What the parser builds. -/

section Climbing

variable {unary : Parser Node} {c : Context} {s t u : State} {x y : Node}
  {ops taken left : List (BinaryOp × Node)}

/-- An operand: the rule gives this expression and takes tokens from the front. -/
structure Operand (unary : Parser Node) (c : Context) (s : State) (x : Node) (t : State) :
    Prop where
  run : unary c s = .ok x t
  suffix : t.pending <:+ s.pending

/-- The tokens to come are operators with an operand behind each, up to a token that is no binary
operator. -/
inductive Operations (unary : Parser Node) (c : Context) :
    State → List (BinaryOp × Node) → State → Prop where
  | done {s : State} (stop : BinaryOp.ofKind? (c.next s).kind = none) : Operations unary c s [] s
  | more {s t u : State} {o : Token} {tokens : List Token} {op : BinaryOp} {y : Node}
      {ops : List (BinaryOp × Node)} (pending : s.pending = o :: tokens)
      (operator : BinaryOp.ofKind? o.kind = some op)
      (operand : Operand unary c { s with pending := tokens } y t)
      (rest : Operations unary c t ops u) : Operations unary c s ((op, y) :: ops) u

theorem Operations.length_le (h : Operations unary c s ops t) :
    ops.length ≤ s.pending.length := by
  induction h with
  | done => exact Nat.zero_le _
  | more pending operator operand rest ih =>
    have := operand.suffix.length_le
    simp only [pending, List.length_cons] at *
    omega

open Grammar JsClass.Parser

theorem climb_stop {turns bound : Nat} {left : Node}
    (h : ∀ op ∈ BinaryOp.ofKind? (c.next s).kind, op.precedence ≤ bound) :
    climb unary (turns + 1) bound left c s = .ok left s := by
  simp only [climb, bind_eq_ok, peek_eq_ok]
  refine ⟨_, s, ⟨rfl, rfl⟩, ?_⟩
  cases hop : BinaryOp.ofKind? (c.next s).kind with
  | none => rfl
  | some op =>
    simp only [if_pos (h op hop)]
    rfl

theorem climb_apply {turns bound : Nat} {left right : Node} {op : BinaryOp} {v : State}
    (hop : BinaryOp.ofKind? (c.next s).kind = some op) (hbound : bound < op.precedence)
    (hy : unary c s.skip = .ok y t) (hright : climb unary turns op.rightBound y c t = .ok right v)
    (hrest : climb unary turns bound (left.wrap (.binary left op right)) c v = .ok x u) :
    climb unary (turns + 1) bound left c s = .ok x u := by
  simp only [climb, bind_eq_ok, peek_eq_ok]
  refine ⟨_, s, ⟨rfl, rfl⟩, ?_⟩
  simp only [hop, if_neg (Nat.not_le.2 hbound), bind_eq_ok, advance_eq_ok]
  exact ⟨_, _, ⟨rfl, rfl⟩, y, t, hy, right, v, hright, hrest⟩

/-- What climbing makes of a grouping: it takes operators that bind more tightly than the bound, and
stops before the first other one. -/
structure Climbed (unary : Parser Node) (c : Context) (bound : Nat) (G H : Grouping)
    (taken left : List (BinaryOp × Node)) (t u : State) : Prop where
  respects : H.Respects
  first : H.first = G.first
  rest : H.rest = G.rest ++ taken
  tighter : ∀ o ∈ taken, bound < o.1.precedence
  stops : ∀ o ∈ left.head?, o.1.precedence ≤ bound
  operations : Operations unary c t left u

/-- One turn: an operator that leaves the operators before it alone takes the right operand that was
climbed for it, and the operator behind that leaves all of them alone. -/
theorem Climbed.turn {G H : Grouping} {op : BinaryOp} (hG : G.Respects)
    (hnext : ∀ p ∈ G.rest, p.1.BindsBefore op)
    (hright : Climbed unary c op.rightBound (.operand y) H taken left t u) :
    (Grouping.apply G op H).Respects ∧
      ∀ o ∈ left.head?, ∀ p ∈ (Grouping.apply G op H).rest, p.1.BindsBefore o.1 := by
  have hrest : H.rest = taken := hright.rest
  refine ⟨⟨hG, hright.respects, hnext, fun o ho => ?_⟩, fun o ho p hp => ?_⟩
  · rw [BinaryOp.not_bindsBefore_iff]
    exact hright.tighter o (hrest ▸ ho)
  · have hop : op.BindsBefore o.1 := BinaryOp.bindsBefore_iff.2 (hright.stops o ho)
    simp only [Grouping.rest, List.mem_append, List.mem_cons] at hp
    obtain hp | rfl | hp := hp
    · exact (hnext p hp).trans hop
    · exact hop
    · exact .of_not (BinaryOp.not_bindsBefore_iff.2 (hright.tighter p (hrest ▸ hp))) hop

/-- What the turns behind this one take is taken behind the operator and its right operand. -/
theorem Climbed.join {bound : Nat} {G H K : Grouping} {op : BinaryOp} {v : State}
    {taken' left' : List (BinaryOp × Node)}
    (hright : Climbed unary c op.rightBound (.operand y) H taken left t u)
    (hbound : bound < op.precedence)
    (hrest : Climbed unary c bound (.apply G op H) K taken' left' v u) :
    Climbed unary c bound G K ((op, y) :: taken ++ taken') left' v u := by
  refine ⟨hrest.respects, hrest.first, ?_, ?_, hrest.stops, hrest.operations⟩
  · have hfirst : H.first = y := hright.first
    have htaken : H.rest = taken := hright.rest
    simp [hrest.rest, Grouping.rest, hfirst, htaken]
  · intro o ho
    simp only [List.cons_append, List.mem_cons, List.mem_append] at ho
    obtain rfl | ho | ho := ho
    · exact hbound
    · have := hright.tighter o ho
      have := op.precedence_le_rightBound_succ
      omega
    · exact hrest.tighter o ho

/-- With a turn for each operator and one more, climbing comes to an end. The induction is on the
turns and is used twice: for the right operand, with the bound of its operator, and for what comes
behind it, with the bound as it was. -/
theorem climb_groups {turns : Nat} (bound : Nat) {G : Grouping} (hG : G.Respects)
    (hops : Operations unary c s ops u) (henough : ops.length < turns)
    (hnext : ∀ o ∈ ops.head?, ∀ p ∈ G.rest, p.1.BindsBefore o.1) :
    ∃ H t taken left, climb unary turns bound G.node c s = .ok (Grouping.node H) t ∧
      ops = taken ++ left ∧ Climbed unary c bound G H taken left t u := by
  induction turns generalizing bound G s ops with
  | zero => simp at henough
  | succ turns ih =>
    cases hops with
    | done stop =>
      refine ⟨G, u, [], [], climb_stop (by simp [stop]), rfl, ?_⟩
      exact ⟨hG, rfl, by simp, by simp, by simp, .done stop⟩
    | @more _ t _ o tokens op y ops pending operator operand rest =>
      have hop : BinaryOp.ofKind? (c.next s).kind = some op := by
        simpa [Context.next, pending] using operator
      have hskip : s.skip = { s with pending := tokens } := by simp [State.skip, pending]
      by_cases hbound : op.precedence ≤ bound
      · refine ⟨G, s, [], (op, y) :: ops, climb_stop (by simpa [hop]), rfl, ?_⟩
        exact ⟨hG, rfl, by simp, by simp, by simpa, .more pending operator operand rest⟩
      · simp only [List.length_cons, Nat.add_lt_add_iff_right] at henough
        obtain ⟨H, v, taken, left, hclimb, rfl, hright⟩ :=
          ih op.rightBound (G := .operand y) trivial rest henough
            (by simp [Grouping.rest])
        obtain ⟨happly, hleft⟩ := Climbed.turn hG (by simpa using hnext) hright
        have hshort : left.length < turns := by
          simp only [List.length_append] at henough
          omega
        obtain ⟨K, w, taken', left', hclimb', rfl, hrest⟩ :=
          ih bound happly hright.operations hshort hleft
        refine ⟨K, w, (op, y) :: taken ++ taken', left', ?_, by simp, ?_⟩
        · exact climb_apply hop (Nat.not_le.1 hbound) (hskip ▸ operand.run) hclimb hclimb'
        · exact hright.join (Nat.not_le.1 hbound) hrest

/-- Operators and operands that are read in a row become the expression that results from splitting
them at their loosest operators, and nothing else is read. It holds them in the order in which they
are written, with powers grouped from the right and all else from the left, and it begins where the
first operand does. One turn more than there are tokens is enough. -/
theorem binaryRule_groups (g : Grammar) (henough : s.pending.length < g.turns)
    (hx : Operand g.unaryRule c s x t) (hops : Operations g.unaryRule c t ops u) :
    g.binaryRule c s = .ok (Grouping.ofSequence x ops).node u ∧
      (Grouping.ofSequence x ops).first = x ∧ (Grouping.ofSequence x ops).rest = ops ∧
      (Grouping.ofSequence x ops).Respects ∧ (Grouping.ofSequence x ops).node.pos = x.pos := by
  obtain ⟨hfirst, hrest, hrespects⟩ := Grouping.ofSequence_spec x ops
  refine ⟨?_, hfirst, hrest, hrespects, by rw [Grouping.pos_node, hfirst]⟩
  have hshort : ops.length < g.turns :=
    Nat.lt_of_le_of_lt (Nat.le_trans hops.length_le hx.suffix.length_le) henough
  obtain ⟨H, v, taken, left, hclimb, rfl, hH⟩ :=
    climb_groups 0 (G := .operand x) trivial hops hshort (by simp [Grouping.rest])
  -- Every operator binds more tightly than nothing, so all of them are taken.
  have hleft : left = [] := by
    cases left with
    | nil => rfl
    | cons o left =>
      have := hH.stops o rfl
      have := o.1.precedence_pos
      omega
  subst hleft
  cases hH.operations with
  | done _ =>
    have hsame : H = Grouping.ofSequence x (taken ++ []) :=
      hH.respects.unique hrespects (hH.first.trans hfirst.symm)
        ((hH.rest.trans (by simp [Grouping.rest])).trans hrest.symm)
    rw [← hsame]
    exact bind_eq_ok.2 ⟨x, t, hx.run, hclimb⟩

/-! The tokens of `a ** b ** c - d - e`. -/

def sumTokens : List Token :=
  [((1 : Nat), Kind.name "a"), (3, .punct .starStar), (6, .name "b"), (8, .punct .starStar),
    (11, .name "c"), (13, .punct .minus), (15, .name "d"), (17, .punct .minus),
    (19, .name "e")].map fun (col, kind) => ⟨kind, ⟨⟨1, col⟩, col - 1⟩, false⟩

/-- The state behind some of these tokens. -/
def sumState (n : Nat) : State := ⟨sumTokens.drop n, [], .empty⟩

def sumContext : Context := .initial .withPrivate .default ⟨.eof, ⟨⟨1, 20⟩, 19⟩, false⟩

def sumOperand (word : String) (col : Nat) : Grouping := .operand ⟨.identifier word, ⟨1, col⟩⟩

/-- The powers are grouped from the right, and then the differences from the left. -/
def sumGrouping : Grouping :=
  let powers : Grouping :=
    .apply (sumOperand "a" 1) .pow (.apply (sumOperand "b" 6) .pow (sumOperand "c" 11))
  .apply (.apply powers .sub (sumOperand "d" 15)) .sub (sumOperand "e" 19)

theorem sumTokens_grouped :
    { level 9 with turns := 10 }.binaryRule sumContext (sumState 0) =
      .ok sumGrouping.node (sumState 9) := by
  have hoperand : ∀ p ∈ [(0, "a", 1), (2, "b", 6), (4, "c", 11), (6, "d", 15), (8, "e", 19)],
      Operand { level 9 with turns := 10 }.unaryRule sumContext (sumState p.1)
        ⟨.identifier p.2.1, ⟨1, p.2.2⟩⟩ (sumState (p.1 + 1)) := by
    simp only [List.forall_mem_cons]
    refine ⟨?_, ?_, ?_, ?_, ?_, by simp⟩ <;>
      exact ⟨rfl, [_], rfl⟩
  simp only [List.forall_mem_cons] at hoperand
  obtain ⟨ha, hb, hc, hd, he, -⟩ := hoperand
  have hops : Operations { level 9 with turns := 10 }.unaryRule sumContext (sumState 1)
      sumGrouping.rest (sumState 9) :=
    .more rfl rfl hb (.more rfl rfl hc (.more rfl rfl hd (.more rfl rfl he (.done rfl))))
  have hspec := binaryRule_groups _ (by decide) ha hops
  have hrespects : sumGrouping.Respects := by
    simp only [sumGrouping, sumOperand, Grouping.Respects, Grouping.rest]
    decide
  rw [hspec.1, hspec.2.2.2.1.unique hrespects hspec.2.1 hspec.2.2.1]

end Climbing

end JsClass
