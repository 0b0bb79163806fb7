import JsClass.Scope.Trace

/-!
Sequences of calls on a scope, and how to resolve them in two passes: the names of a class body are
collected first, also those that it declares behind a use, and only then its uses are looked up.
-/
namespace JsClass.Scope

inductive Call where
  | enter
  | declare (name : String) (kind : ElementKind) (pos : Position)
  | use (name : String) (pos : Position)
  | exit
deriving DecidableEq

namespace Call

def step : Call → Step
  | .enter => .enter
  | .declare name kind pos => .declare name kind pos
  | .use name pos => .use name pos
  | .exit => .exit

def apply (s : Scope) : Call → Attempt
  | .enter => (.ok (), s.enter)
  | .declare name kind pos => s.declare name kind pos
  | .use name pos => s.use name pos
  | .exit => s.exit

end Call

/-- All calls, or those up to the first that is refused. -/
def run (s : Scope) : List Call → Attempt
  | [] => (.ok (), s)
  | call :: rest =>
    match call.apply s with
    | (.ok (), t) => run t rest
    | (.error e, t) => (.error e, t)

/-- What the body that stands open `depth` bodies further out still declares until its end. -/
def declares : Nat → List Call → List (String × ElementKind)
  | _, [] => []
  | depth, .enter :: rest => declares (depth + 1) rest
  | 0, .exit :: _ => []
  | depth + 1, .exit :: rest => declares depth rest
  | 0, .declare name kind _ :: rest => (name, kind) :: declares 0 rest
  | depth + 1, .declare .. :: rest => declares (depth + 1) rest
  | depth, .use .. :: rest => declares depth rest

/-- The names that a body declares behind its opening. -/
def bodyNames (rest : List Call) : List String := (declares 0 rest).map (·.1)

/-- Whether one of the bodies has the name. -/
def declaredIn (bodies : List (List String)) (name : String) : Bool := bodies.any (·.contains name)

/-- The uses whose name neither the body around them nor one further out declares anywhere. All
names of the bodies that are open are given, the innermost first. -/
def unresolved : List (List String) → List Call → List (String × Position)
  | _, [] => []
  | bodies, .enter :: rest => unresolved (bodyNames rest :: bodies) rest
  | bodies, .exit :: rest => unresolved bodies.tail rest
  | bodies, .declare .. :: rest => unresolved bodies rest
  | bodies, .use name pos :: rest =>
    if declaredIn bodies name then unresolved bodies rest
    else (name, pos) :: unresolved bodies rest

/-- Whether the last call, and no call before it, ends the outermost of `depth` open bodies. -/
def closes : Nat → List Call → Bool
  | 0, rest => rest.isEmpty
  | _ + 1, [] => false
  | depth + 1, .enter :: rest => closes (depth + 2) rest
  | depth + 1, .exit :: rest => closes depth rest
  | depth + 1, .declare .. :: rest | depth + 1, .use .. :: rest => closes (depth + 1) rest

/-- Whether the calls open one outermost body and end with it. -/
def isOneClass : List Call → Bool
  | .enter :: rest => closes 1 rest
  | _ => false

/-- The kinds that one body may declare one name with, in their order. -/
def canShare : List ElementKind → Bool
  | [] | [_] | [.get, .set] | [.set, .get] => true
  | _ => false

def kindsOf (name : String) (ds : List (String × ElementKind)) : List ElementKind :=
  (ds.filter (·.1 = name)).map (·.2)

/-- Whether no name is declared twice, a getter and a setter apart. -/
def compatible (ds : List (String × ElementKind)) : Bool :=
  ds.all fun d => canShare (kindsOf d.1 ds)

/-- Whether the declarations of every body that the calls open are compatible. -/
def conflictFree : List Call → Bool
  | [] => true
  | .enter :: rest => compatible (declares 0 rest) && conflictFree rest
  | _ :: rest => conflictFree rest

section

variable {s t : Scope} {xs ys : List Call}

theorem run_cons_ok {call : Call} (h : call.apply s = (.ok (), t)) :
    run s (call :: xs) = run t xs := by
  simp only [run, h]

theorem run_cons_eq_ok {call : Call} :
    run s (call :: xs) = (.ok (), t) ↔
      ∃ u, call.apply s = (.ok (), u) ∧ run u xs = (.ok (), t) := by
  rw [run]
  rcases h : call.apply s with ⟨⟨e⟩ | ⟨⟩, u⟩ <;> simp

theorem run_append (h : run s xs = (.ok (), t)) : run s (xs ++ ys) = run t ys := by
  induction xs generalizing s with
  | nil =>
    simp only [run, Prod.mk.injEq, true_and] at h
    simp [h]
  | cons call xs ih =>
    obtain ⟨u, hu, hr⟩ := run_cons_eq_ok.1 h
    rw [List.cons_append, run_cons_ok hu, ih hr]

theorem run_append_eq_ok :
    run s (xs ++ ys) = (.ok (), t) ↔ ∃ u, run s xs = (.ok (), u) ∧ run u ys = (.ok (), t) := by
  induction xs generalizing s with
  | nil => simp [run]
  | cons call xs ih =>
    rw [List.cons_append, run_cons_eq_ok]
    constructor
    · rintro ⟨v, hv, hr⟩
      obtain ⟨u, hu, ht⟩ := ih.1 hr
      exact ⟨u, run_cons_eq_ok.2 ⟨v, hv, hu⟩, ht⟩
    · rintro ⟨u, hu, ht⟩
      obtain ⟨v, hv, hr⟩ := run_cons_eq_ok.1 hu
      exact ⟨v, hv, ih.2 ⟨u, hr, ht⟩⟩

end

theorem declares_append_exit (depth : Nat) (calls : List Call) :
    declares depth (calls ++ [.exit]) = declares depth calls := by
  induction calls generalizing depth with
  | nil => cases depth <;> rfl
  | cons call calls ih => cases call <;> cases depth <;> simp [declares, ih]

theorem conflictFree_append_exit (calls : List Call) :
    conflictFree (calls ++ [.exit]) = conflictFree calls := by
  induction calls with
  | nil => rfl
  | cons call calls ih => cases call <;> simp [conflictFree, ih, declares_append_exit]

/-- A name that no declaration has cannot be in conflict, so all names may be asked for. -/
theorem compatible_iff {ds : List (String × ElementKind)} :
    compatible ds ↔ ∀ name, canShare (kindsOf name ds) := by
  simp only [compatible, List.all_eq_true]
  constructor
  · intro h name
    by_cases hn : ∃ d ∈ ds, d.1 = name
    · obtain ⟨d, hd, rfl⟩ := hn
      exact h d hd
    · have : kindsOf name ds = [] := by
        simp only [kindsOf, List.map_eq_nil_iff, List.filter_eq_nil_iff, decide_eq_true_eq]
        intro d hd he
        exact hn ⟨d, hd, he⟩
      simp [this, canShare]
  · intro h d _
    exact h d.1

end JsClass.Scope
