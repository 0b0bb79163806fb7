import JsClass.Grammar.Property

/-!
When the primitives of parsing succeed, and with what. A run of a rule is taken apart by these
equivalences, down to the runs of the rules that it calls.
-/
namespace JsClass

/-- The token that comes next, or the end of input. -/
def Context.next (c : Context) (s : State) : Token := s.pending.headD c.finish

/-- The state behind the next token. -/
def State.skip (s : State) : State := { s with pending := s.pending.tail }

/-- Where anything but the end of input comes next, a token is left. -/
theorem Context.pending_eq {c : Context} {s : State} (hc : c.finish.kind = .eof)
    (hk : (c.next s).kind ≠ .eof) : s.pending = c.next s :: s.skip.pending := by
  cases hp : s.pending with
  | nil => simp [next, hp, hc] at hk
  | cons x rest => simp [next, State.skip, hp]

def Reply.value? {α : Type} : Reply α → Option α
  | .ok a _ => some a
  | .error .. => none

def Reply.fault? {α : Type} : Reply α → Option Fault
  | .ok .. => none
  | .error fault _ => some fault

/-- What is so of all kinds in a table is so of a kind that is found there. -/
theorem Kind.of_find? {α : Type} {ops : List α} {kind : α → Kind} {k : Kind} {op : α}
    {P : Kind → Prop} (hops : ∀ op, P (kind op)) (h : ops.find? (kind · == k) = some op) : P k := by
  have hk : kind op = k := by simpa using List.find?_some h
  rw [← hk]
  exact hops op

/-- What is found in a result was computed from one. -/
theorem exists_of_toOption {ε α β : Type} {x : Except ε α} {f : α → β} {b : β}
    (h : x.toOption.map f = some b) : ∃ a, x = .ok a ∧ f a = b := by
  cases x with
  | error e => cases h
  | ok a => exact ⟨a, rfl, Option.some.inj h⟩

/-- What a rule asks of the place where it begins or ends. -/
abbrev Site := Context → State → Prop

def Site.anywhere : Site := fun _ _ => True

namespace Parser

variable {α β : Type} {c : Context} {s t : State} {a b : α}

attribute [simp] bind_eq_ok

@[simp] theorem pure_eq_ok : (pure a : Parser α) c s = .ok b t ↔ a = b ∧ s = t := by
  simp [pure_apply]

@[simp] theorem ite_eq_ok {p : Prop} [Decidable p] {x y : Parser α} :
    (if p then x else y) c s = .ok b t ↔ p ∧ x c s = .ok b t ∨ ¬ p ∧ y c s = .ok b t := by
  by_cases h : p <;> simp [h]

@[simp] theorem fail_eq_ok {e : Fault} : (fail e : Parser α) c s = .ok b t ↔ False := by
  simp [fail]

@[simp] theorem reject_eq_ok {cause : Cause} {pos : Position} :
    (reject cause pos : Parser α) c s = .ok b t ↔ False := by
  simp [reject]

@[simp] theorem report_eq_ok {cause : Cause} {pos : Position} {u : Unit} :
    report cause pos c s = .ok u t ↔ { s with reported := s.reported ++ [⟨cause, pos⟩] } = t := by
  simp [report]

@[simp] theorem onScope_eq_ok {op : Scope → Scope.Attempt} {u : Unit} :
    onScope op c s = .ok u t ↔ ∃ scope, op s.scope = (.ok (), scope) ∧ { s with scope } = t := by
  rcases h : op s.scope with ⟨_ | _, scope⟩
  · rename_i e
    cases e <;> simp [onScope, h]
  · simp [onScope, h]

@[simp] theorem context_eq_ok {d : Context} : context c s = .ok d t ↔ c = d ∧ s = t := by
  simp [context]

@[simp] theorem within_apply (f : Context → Context) (p : Parser α) (c : Context) (s : State) :
    within f p c s = p (f c) s := rfl

@[simp] theorem peek_eq_ok {x : Token} : peek c s = .ok x t ↔ c.next s = x ∧ s = t := by
  simp [peek, Context.next]

@[simp] theorem peekAt_eq_ok {n : Nat} {x : Token} :
    peekAt n c s = .ok x t ↔ (s.pending.drop n).headD c.finish = x ∧ s = t := by
  simp [peekAt]

@[simp] theorem pending_eq_ok {xs : List Token} :
    pending c s = .ok xs t ↔ s.pending = xs ∧ s = t := by
  simp [pending]

@[simp] theorem restore_eq_ok {xs : List Token} {u : Unit} :
    restore xs c s = .ok u t ↔ { s with pending := xs } = t := by
  simp [restore]

@[simp] theorem advance_eq_ok {x : Token} : advance c s = .ok x t ↔ c.next s = x ∧ s.skip = t := by
  obtain ⟨pending, reported, scope⟩ := s
  cases pending <;> simp [advance, Context.next, State.skip]

@[simp] theorem unexpected_eq_ok {x : Token} : (unexpected x : Parser α) c s = .ok b t ↔ False := by
  cases hk : x.kind <;> simp [unexpected, hk]

@[simp] theorem unexpectedNext_eq_ok : (unexpectedNext : Parser α) c s = .ok b t ↔ False := by
  simp [unexpectedNext]

@[simp] theorem atEnd_eq_ok {r : Bool} :
    atEnd c s = .ok r t ↔ ((c.next s).kind == .eof) = r ∧ s = t := by
  simp [atEnd, and_assoc, and_comm]

@[simp] theorem checkKind_eq_ok {k : Kind} {r : Bool} :
    checkKind k c s = .ok r t ↔ ((c.next s).kind == k) = r ∧ s = t := by
  simp [checkKind, and_assoc, and_comm]

@[simp] theorem check_eq_ok {p : Punct} {r : Bool} :
    check p c s = .ok r t ↔ ((c.next s).kind == .punct p) = r ∧ s = t := checkKind_eq_ok

@[simp] theorem checkWord_eq_ok {word : String} {r : Bool} :
    checkWord word c s = .ok r t ↔ ((c.next s).kind == .name word) = r ∧ s = t := checkKind_eq_ok

@[simp] theorem acceptKind_eq_ok {k : Kind} {r : Bool} :
    acceptKind k c s = .ok r t ↔
      (c.next s).kind = k ∧ true = r ∧ s.skip = t ∨ (c.next s).kind ≠ k ∧ false = r ∧ s = t := by
  by_cases h : (c.next s).kind = k <;> simp [acceptKind, and_assoc, h]

@[simp] theorem accept_eq_ok {p : Punct} {r : Bool} :
    accept p c s = .ok r t ↔ (c.next s).kind = .punct p ∧ true = r ∧ s.skip = t ∨
      (c.next s).kind ≠ .punct p ∧ false = r ∧ s = t := acceptKind_eq_ok

@[simp] theorem acceptKeyword_eq_ok {k : Keyword} {r : Bool} :
    acceptKeyword k c s = .ok r t ↔ (c.next s).kind = .keyword k ∧ true = r ∧ s.skip = t ∨
      (c.next s).kind ≠ .keyword k ∧ false = r ∧ s = t := acceptKind_eq_ok

@[simp] theorem expectKind_eq_ok {k : Kind} {x : Token} :
    expectKind k c s = .ok x t ↔ (c.next s).kind = k ∧ c.next s = x ∧ s.skip = t := by
  by_cases h : (c.next s).kind = k <;> simp [expectKind, and_assoc, h]

@[simp] theorem expect_eq_ok {p : Punct} {x : Token} :
    expect p c s = .ok x t ↔ (c.next s).kind = .punct p ∧ c.next s = x ∧ s.skip = t :=
  expectKind_eq_ok

@[simp] theorem expectKeyword_eq_ok {k : Keyword} {x : Token} :
    expectKeyword k c s = .ok x t ↔ (c.next s).kind = .keyword k ∧ c.next s = x ∧ s.skip = t :=
  expectKind_eq_ok

@[simp] theorem canInsertSemicolon_eq_ok {r : Bool} :
    canInsertSemicolon c s = .ok r t ↔ ((c.next s).kind == .eof || (c.next s).kind == .punct .rbrace
      || (c.next s).newlineBefore) = r ∧ s = t := by
  simp [canInsertSemicolon, and_assoc, and_comm]

@[simp] theorem anyWord_eq_ok {i : Ident} : anyWord c s = .ok i t ↔
    ∃ word, (c.next s).kind.word? = some word ∧ ⟨word, (c.next s).pos⟩ = i ∧ s.skip = t := by
  cases h : (c.next s).kind.word? <;> simp [anyWord, and_assoc, h]

end Parser

end JsClass
