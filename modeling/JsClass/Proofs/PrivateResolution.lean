import JsClass.Proofs.Grammar.Statements
import JsClass.Proofs.Scope.Resolution

/-!
Private names are resolved while the tokens are read, and what comes out is lexical resolution on
the finished tree.
-/
namespace JsClass

open Scope

theorem unresolved_nil_calls (n : Node) : unresolved [] n.calls = openUses [] n.accesses := by
  simpa [unresolved] using unresolved_calls n [] []

theorem mem_openUses {accesses : List Access} {u : String × Position} :
    u ∈ openUses [] accesses ↔ ∃ a ∈ accesses, a.isResolved = false ∧ a.use = u := by
  simp [openUses, declaredIn, and_assoc]

theorem openUses_eq_nil {accesses : List Access} :
    openUses [] accesses = [] ↔ ∀ a ∈ accesses, a.isResolved := by
  simp [openUses, declaredIn]

/-- The calls for a class, its name apart, open one outermost body. -/
theorem isOneClass_calls (superclass : Option Node) (members : List Node) :
    isOneClass (.enter :: (superclass.toList.flatMap Node.calls
      ++ members.flatMap Node.memberCalls ++ [.exit])) := by
  have hsuper : ∀ x ∈ superclass.toList, ∀ rest, closes 1 (x.calls ++ rest) = closes 1 rest :=
    fun x _ rest => nesting_closes.calls x 0 rest
  have hmembers : ∀ x ∈ members, ∀ rest, closes 1 (x.memberCalls ++ rest) = closes 1 rest := by
    intro x _ rest
    have hx := nesting_closes.calls x 0 rest
    rw [Node.memberCalls, List.append_assoc, Node.declareCall?]
    cases x.declaration? <;> exact hx
  rw [isOneClass, List.append_assoc, Nesting.flatMap hsuper, Nesting.flatMap hmembers]
  rfl

/-! The end of an outermost class. -/

/-- The end of a class that is read with no other class around it reports by the tree. -/
theorem exit_class_reports {g : Grammar} (hg : g.Sound) {isExpression : Bool} {c : Context}
    {s t : State} {n : Node} (hd : c.dialect = .withPrivate) (hs : s.scope = .empty)
    (h : g.classRest isExpression c { s with scope := s.scope.enter } = .ok n t) :
    ∃ said, t.scope.exit = (said, .empty) ∧ Reports (openUses [] n.accesses) said := by
  obtain ⟨name, superclass, members, hshape, hreads, hname, -⟩ := Grammar.classRest_reads hg h
  have hcalls := Grammar.calls_classParts (c := c) hshape hname
  have hrun := hreads.scope hd
  rw [hs] at hrun
  have hbefore : run .empty (.enter :: (n.shape.parts c).flatMap Part.calls) =
      (.ok (), t.scope) := by
    rw [run_cons_ok rfl]
    exact hrun
  have hone : isOneClass n.calls := by
    have := isOneClass_calls superclass members
    rwa [Node.calls_class hshape, hname]
  have hfree : conflictFree n.calls := by
    rw [hcalls, ← List.cons_append, conflictFree_append_exit]
    exact (accept_of_run hbefore).2
  obtain ⟨before, last, said, heq, hlast, hexit, hsaid⟩ := run_oneClass hone hfree
  rw [hcalls, ← List.cons_append, List.append_left_inj] at heq
  rw [← heq, hbefore, Prod.mk.injEq] at hlast
  rw [hlast.2, ← unresolved_nil_calls]
  exact ⟨said, hexit, hsaid⟩

/-- What the end of a class says is what the rule for the class replies. -/
theorem class_reply {g : Grammar} {isExpression : Bool} {c : Context} {s t : State} {n : Node}
    (hd : c.dialect = .withPrivate)
    (h : g.classRest isExpression c { s with scope := s.scope.enter } = .ok n t) :
    g.class_ isExpression c s = (do Parser.onScope Scope.exit; pure n : Parser Node) c t := by
  simp only [Grammar.class_, Parser.bind_apply, Parser.context, hd, Parser.inClassBody, h]

/-! Programs. -/

/-- A class that is read without being refused leaves nothing unresolved. -/
theorem run_oneClass_ok {calls : List Call} {t : Scope} (one : isOneClass calls)
    (h : run .empty calls = (.ok (), t)) : t = .empty ∧ unresolved [] calls = [] := by
  obtain ⟨before, last, said, heq, hlast, hexit, hsaid⟩ := run_oneClass one (accept_of_run h).2
  rw [heq, run_append hlast] at h
  rcases hsaid with ⟨rfl, huses⟩ | ⟨u, -, rfl, -⟩
  · simp only [run, Call.apply, hexit, Prod.mk.injEq, true_and] at h
    exact ⟨h.symm, huses⟩
  · simp [run, Call.apply, hexit] at h

/-- Statements that are read one after another leave no class open and no access unresolved. -/
theorem run_flatMap_resolved {xs : List Node} {t : Scope}
    (ih : ∀ x ∈ xs, ∀ t, run .empty x.calls = (.ok (), t) →
      t = .empty ∧ openUses [] x.accesses = [])
    (h : run .empty (xs.flatMap Node.calls) = (.ok (), t)) :
    t = .empty ∧ openUses [] (xs.flatMap Node.accesses) = [] := by
  induction xs with
  | nil =>
    simp only [List.flatMap_nil, run, Prod.mk.injEq, true_and] at h
    exact ⟨h.symm, rfl⟩
  | cons x xs hxs =>
    rw [List.flatMap_cons, run_append_eq_ok] at h
    obtain ⟨u, hu, h⟩ := h
    obtain ⟨rfl, hx⟩ := ih x List.mem_cons_self u hu
    obtain ⟨rfl, hrest⟩ := hxs (fun y hy => ih y (List.mem_cons_of_mem _ hy)) h
    refine ⟨rfl, ?_⟩
    rw [List.flatMap_cons, openUses_append, hx, hrest]
    rfl

theorem run_calls_resolved (n : Node) {t : Scope} (h : run .empty n.calls = (.ok (), t)) :
    t = .empty ∧ openUses [] n.accesses = [] := by
  induction n using Node.induction generalizing t with
  | step n ih =>
    rcases n.class_or_not with ⟨name, superclass, members, isExpression, hs⟩ | hs
    · rw [Node.children_class hs] at ih
      have huses := unresolved_nil_calls n
      rw [Node.calls_class hs] at h huses
      rw [run_append_eq_ok] at h
      obtain ⟨u, hu, h⟩ := h
      obtain ⟨rfl, hname⟩ := run_flatMap_resolved (fun x hx t ht => ih x (by simp_all) ht) hu
      obtain ⟨rfl, hbody⟩ := run_oneClass_ok (isOneClass_calls superclass members) h
      refine ⟨rfl, ?_⟩
      rw [← huses, unresolved_flatMap fun x _ => unresolved_calls x [], hname, hbody]
      rfl
    · rw [Node.calls_of_not_class hs, run_append_eq_ok] at h
      obtain ⟨u, hu, h⟩ := h
      obtain ⟨rfl, hchildren⟩ := run_flatMap_resolved (fun x hx t ht => ih x hx ht) hu
      cases ha : n.accessed? with
      | none =>
        rw [ha] at h
        simp only [Option.toList_none, List.map_nil, run, Prod.mk.injEq, true_and] at h
        refine ⟨h.symm, ?_⟩
        rw [Node.accesses_of_not_class hs, ha, openUses_append, hchildren]
        rfl
      | some p =>
        rw [ha] at h
        simp [run, Call.apply, Scope.use, Scope.empty] at h

theorem parse_resolved {options : Options} {source : String} {parsed : Parsed}
    (h : parse options source = .ok parsed) :
    ∀ n ∈ parsed.program.body, ∀ a ∈ n.accesses, a.isResolved := by
  obtain ⟨stream, t, -, hs⟩ := parse_eq_ok h
  have hrun := (TokenStream.statements_reads hs).scope rfl
  have hcalls : (parsed.program.body.map
      (Part.ordinary (.initial .withPrivate options stream.finish))).flatMap Part.calls =
        parsed.program.body.flatMap Node.calls := by
    simp [List.flatMap_map]
  rw [hcalls] at hrun
  have hopen := (run_flatMap_resolved (fun x _ _ => run_calls_resolved x) hrun).2
  intro n hn a ha
  exact openUses_eq_nil.1 hopen a (List.mem_flatMap.2 ⟨n, hn, ha⟩)

/-- The rules of a level, with any number of turns. A class with no other class around it has
been read up to its end; then the whole class is accepted if and only if every access to a private
member in it is inside of a class that declares the name, and otherwise the first access of all that
are not is reported. So in a program that is accepted every access is inside of such a class. -/
theorem classes_resolve_lexically :
    (∀ (level turns : Nat) (isExpression : Bool) (c : Context) (s t : State) (n : Node),
      c.dialect = .withPrivate → s.scope = .empty →
      { Grammar.level level with turns }.classRest isExpression c
        { s with scope := s.scope.enter } = .ok n t →
      ((∃ u, { Grammar.level level with turns }.class_ isExpression c s = .ok n u) ↔
        ∀ a ∈ n.accesses, a.isResolved) ∧
      (¬ (∀ a ∈ n.accesses, a.isResolved) →
        ∃ a ∈ n.accesses, a.isResolved = false ∧
          (∀ b ∈ n.accesses, b.isResolved = false → ¬ b.pos.lt a.pos) ∧
          ∃ u, { Grammar.level level with turns }.class_ isExpression c s =
            .error (.rejected ⟨.undeclaredPrivate a.name, a.pos⟩) u)) ∧
    ∀ (options : Options) (source : String) (parsed : Parsed),
      parse options source = .ok parsed →
      ∀ n ∈ parsed.program.body, ∀ a ∈ n.accesses, a.classes ≠ [] ∧ a.isResolved := by
  constructor
  · intro level turns isExpression c s t n hd hs h
    have hg := (Grammar.level_sound level).withTurns turns
    obtain ⟨said, hexit, hsaid⟩ := exit_class_reports hg hd hs h
    rw [class_reply hd h]
    rcases hsaid with ⟨rfl, hnone⟩ | ⟨u, hu, rfl, hleast⟩
    · have hall := openUses_eq_nil.1 hnone
      refine ⟨?_, fun hn => absurd hall hn⟩
      simp [Parser.onScope, Parser.bind_apply, hexit]
      exact hall
    · obtain ⟨a, ha, hopen, rfl⟩ := mem_openUses.1 hu
      refine ⟨?_, fun _ => ⟨a, ha, hopen, ?_, ?_⟩⟩
      · simp [Parser.onScope, Parser.bind_apply, hexit]
        exact ⟨a, ha, hopen⟩
      · exact fun b hb hb' => hleast b.use (mem_openUses.2 ⟨b, hb, hb', rfl⟩)
      · simp [Parser.onScope, Parser.bind_apply, hexit, Access.use]
  · intro options source parsed h n hn a ha
    have hr := parse_resolved h n hn a ha
    refine ⟨?_, hr⟩
    intro hc
    simp [Access.isResolved, hc] at hr

/-- The class that is extended uses a name that the class around it declares further behind, and a
name that only the extended class declares is used outside of it. -/
def heritageText : String := "class A extends class { #y; m() { a.#x } } { m() { b.#y } #x }"

/-- The outer class up to its end. -/
def heritageClass (s : TokenStream) : Reply Node :=
  { Grammar.level 30 with turns := 30 }.classRest false
    (.initial .withPrivate .default s.finish) ⟨s.tokens, [], Scope.empty.enter⟩

theorem heritageText_unresolved :
    (∃ s n t, tokenize .withPrivate heritageText = .ok s ∧ heritageClass s = .ok n t ∧
      n.accesses.map (fun a => (a.name, a.isResolved)) = [("x", true), ("y", false)] ∧
      ∃ a ∈ n.accesses, a.isResolved = false ∧
        ∃ u, { Grammar.level 30 with turns := 30 }.class_ false
          (.initial .withPrivate .default s.finish) ⟨s.tokens, [], .empty⟩ =
            .error (.rejected ⟨.undeclaredPrivate a.name, a.pos⟩) u) ∧
    ∃ parsed, parse .default "class A { m() { this.#x } #x }" = .ok parsed ∧
      ∃ n ∈ parsed.program.body, ∃ a ∈ n.accesses, a.classes ≠ [] ∧ a.isResolved := by
  constructor
  · have hread : ((tokenize .withPrivate heritageText).toOption.bind fun s =>
        (heritageClass s).value?.map fun n => n.accesses.map fun a => (a.name, a.isResolved)) =
          some [("x", true), ("y", false)] := by decide +kernel
    cases hs : tokenize .withPrivate heritageText with
    | error e => simp [hs, Except.toOption] at hread
    | ok s =>
      cases hn : heritageClass s with
      | error e t => simp [hs, hn, Except.toOption, Reply.value?] at hread
      | ok n t =>
        simp only [hs, hn, Except.toOption, Reply.value?, Option.bind_some, Option.map_some,
          Option.some.injEq] at hread
        have hopen : ¬ ∀ a ∈ n.accesses, a.isResolved := by
          intro hall
          have hy : ("y", false) ∈ n.accesses.map fun a => (a.name, a.isResolved) := by
            simp [hread]
          obtain ⟨a, ha, heq⟩ := List.mem_map.1 hy
          rw [hall a ha] at heq
          simp at heq
        obtain ⟨a, ha, hfalse, -, hu⟩ := (classes_resolve_lexically.1 30 30 false
          (.initial .withPrivate .default s.finish) ⟨s.tokens, [], .empty⟩ t n rfl rfl hn).2 hopen
        exact ⟨s, n, t, rfl, hn, hread, a, ha, hfalse, hu⟩
  · have hread : ((parse .default "class A { m() { this.#x } #x }").toOption.map fun p =>
        (p.program.body.flatMap Node.accesses).map Access.name) = some ["x"] := by decide +kernel
    cases hp : parse .default "class A { m() { this.#x } #x }" with
    | error e => simp [hp, Except.toOption] at hread
    | ok parsed =>
      simp only [hp, Except.toOption, Option.map_some, Option.some.injEq] at hread
      have hx : "x" ∈ (parsed.program.body.flatMap Node.accesses).map Access.name := by simp [hread]
      obtain ⟨a, ha, -⟩ := List.mem_map.1 hx
      obtain ⟨n, hn, ha⟩ := List.mem_flatMap.1 ha
      exact ⟨parsed, rfl, n, hn, a, ha, classes_resolve_lexically.2 .default _ parsed hp n hn a ha⟩

end JsClass
