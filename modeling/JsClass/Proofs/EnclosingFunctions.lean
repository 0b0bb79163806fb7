import JsClass.Proofs.ClassLegality

/-!
Which functions `await` and `yield` belong to. `await` passes by the arrow functions around it, and
`yield` stops at their bodies, but not at their parameters.
-/
namespace JsClass

variable {root n x : Node} {c : Context} {fs : List Node} {arrowParams isInside : Bool}

namespace Node

theorem isAsync_of_isArrow (h : n.isArrow) : n.isAsync = false := by
  unfold isArrow at h
  split at h
  · next hs => rw [isAsync, hs]
  · cases h

def isAwait (n : Node) : Bool :=
  match n.shape with
  | .await _ => true
  | _ => false

def isYield (n : Node) : Bool :=
  match n.shape with
  | .yield .. => true
  | _ => false

/-- The children of a node, and which of them are inside of it if it is a function. The parameters
of an arrow function are counted either way. -/
def functionParts (arrowParams : Bool) (n : Node) : List (Bool × Node) :=
  match n.shape with
  | .function _ name params body _ _ =>
    name.toList.map (false, ·) ++ (params.map (true, ·) ++ [(true, body)])
  | .arrow params body _ => params.map (arrowParams, ·) ++ [(true, body)]
  | s => s.children.map (false, ·)

theorem map_functionParts (arrowParams : Bool) (n : Node) :
    (n.functionParts arrowParams).map Prod.snd = n.children := by
  rw [functionParts, children]
  split
  · next hs => simp [hs, Shape.children, Shape.fields, Field.children, Function.comp_def]
  · next hs => simp [hs, Shape.children, Shape.fields, Field.children, Function.comp_def]
  · simp [Function.comp_def]

/-- A node stands in another one, with these functions around it, the innermost one first. -/
inductive Inside (arrowParams : Bool) (root : Node) : List Node → Node → Prop where
  | root : Inside arrowParams root [] root
  | outer {fs : List Node} {n x : Node} (h : Inside arrowParams root fs n)
    (hx : (false, x) ∈ n.functionParts arrowParams) : Inside arrowParams root fs x
  | inner {fs : List Node} {n x : Node} (h : Inside arrowParams root fs n)
    (hx : (true, x) ∈ n.functionParts arrowParams) : Inside arrowParams root (n :: fs) x

/-- Every node of a tree stands in it. -/
theorem Inside.of_mem_walk (h : Inside arrowParams root fs n) (hx : x ∈ n.walk) :
    ∃ fs, Inside arrowParams root fs x := by
  induction n using Node.induction generalizing fs with
  | step n ih =>
    rw [walk_eq, List.mem_cons, List.mem_flatMap] at hx
    rcases hx with rfl | ⟨y, hy, hx⟩
    · exact ⟨fs, h⟩
    · have hpart := hy
      rw [← map_functionParts arrowParams, List.mem_map] at hpart
      obtain ⟨⟨isInside, _⟩, hpart, rfl⟩ := hpart
      cases isInside with
      | false => exact ih _ hy (h.outer hpart) hx
      | true => exact ih _ hy (h.inner hpart) hx

end Node

/-- What a context allows is what the functions around allow: `await` the innermost one that is no
arrow function, and `yield` the innermost one. -/
structure Context.AllowedBy (fs : List Node) (c : Context) : Prop where
  await : c.inAsync → ∃ f, fs.find? (!·.isArrow) = some f ∧ f.isAsync
  yield : c.inGenerator → ∃ f, fs.head? = some f ∧ f.isGenerator

theorem Context.allowedBy_initial (d : Dialect) (options : Options) (finish : Token) :
    (Context.initial d options finish).AllowedBy [] := by
  constructor <;> simp [Context.initial]

theorem Context.AllowedBy.congr {c' : Context} (h : c.AllowedBy fs)
    (hasync : c'.inAsync = c.inAsync) (hgenerator : c'.inGenerator = c.inGenerator) :
    c'.AllowedBy fs :=
  ⟨fun hc => h.await (hasync ▸ hc), fun hc => h.yield (hgenerator ▸ hc)⟩

/-- Inside a function its own kind counts. -/
theorem Context.AllowedBy.function {form : FunctionForm} {name : Option Node} {params : List Node}
    {body : Node} {isAsync isGenerator : Bool}
    (hs : n.shape = .function form name params body isAsync isGenerator) :
    (c.function isAsync isGenerator).AllowedBy (n :: fs) :=
  ⟨fun hasync => ⟨n, by simp [Node.isArrow, hs], by rwa [Node.isAsync, hs]⟩,
    fun hgenerator => ⟨n, rfl, by rwa [Node.isGenerator, hs]⟩⟩

/-- An arrow function keeps `await` as it is and forbids `yield`. -/
theorem Context.AllowedBy.arrow (h : c.AllowedBy fs) (hn : n.isArrow) :
    c.arrow.AllowedBy (n :: fs) := by
  constructor
  · intro hasync
    rw [List.find?_cons_of_neg (by simpa using hn)]
    exact h.await hasync
  · simp [Context.arrow]

namespace Part

/-- Only functions change what may be used in a node. -/
theorem flags_of_mem_parts (c : Context) {s : Shape Node}
    (hfunction : ∀ form name params body isAsync isGenerator,
      s ≠ .function form name params body isAsync isGenerator)
    (harrow : ∀ params body isExpression, s ≠ .arrow params body isExpression) :
    ∀ q ∈ s.parts c, q.context.inAsync = c.inAsync ∧ q.context.inGenerator = c.inGenerator := by
  cases s
  case function => exact (hfunction _ _ _ _ _ _ rfl).elim
  case arrow => exact (harrow _ _ _ rfl).elim
  all_goals simp [Shape.parts, or_imp, forall_and, Context.classBody, Context.methodOf,
    Context.fieldValue]

/-- Every child is read in a context that the functions around it allow. -/
theorem exists_of_functionParts (hc : c.AllowedBy fs)
    (hx : (isInside, x) ∈ n.functionParts false) :
    ∃ q ∈ n.shape.parts c, q.node = x ∧
      q.context.AllowedBy (if isInside then n :: fs else fs) := by
  rw [Node.functionParts] at hx
  split at hx
  next form name params body isAsync isGenerator hs =>
    simp only [List.mem_append, List.mem_map, List.mem_singleton, Prod.mk.injEq] at hx
    rw [hs]
    rcases hx with ⟨x, hname, rfl, rfl⟩ | ⟨x, hparam, rfl, rfl⟩ | ⟨rfl, rfl⟩
    · exact ⟨.ordinary c x, by simp_all [Shape.parts], rfl, hc⟩
    · exact ⟨.ordinary (c.function isAsync isGenerator) x, by simp [Shape.parts, hparam], rfl,
        .function hs⟩
    · exact ⟨.ordinary (c.function isAsync isGenerator) x, by simp [Shape.parts], rfl,
        .function hs⟩
  next params body isExpression hs =>
    simp only [List.mem_append, List.mem_map, List.mem_singleton, Prod.mk.injEq] at hx
    rw [hs]
    rcases hx with ⟨x, hparam, rfl, rfl⟩ | ⟨rfl, rfl⟩
    · exact ⟨.ordinary c x, by simp [Shape.parts, hparam], rfl, hc⟩
    · exact ⟨.ordinary c.arrow x, by simp [Shape.parts], rfl, hc.arrow (by simp [Node.isArrow, hs])⟩
  next hfunction harrow =>
    rw [← map_node_parts c, List.map_map] at hx
    obtain ⟨q, hq, hx⟩ := List.mem_map.1 hx
    obtain ⟨rfl, rfl⟩ := Prod.mk.inj hx
    obtain ⟨hasync, hgenerator⟩ := flags_of_mem_parts c hfunction harrow q hq
    exact ⟨q, hq, rfl, hc.congr hasync hgenerator⟩

end Part

/-- Where a formed node stands, its functions allow what its context allows. -/
theorem Part.Formed.of_inside {p : Part} (h : p.Formed) (hp : p.context.AllowedBy [])
    (hx : p.node.Inside false fs x) :
    ∃ q : Part, q.Formed ∧ q.node = x ∧ q.context.AllowedBy fs := by
  induction hx with
  | root => exact ⟨p, h, rfl, hp⟩
  | outer _ hx ih =>
    obtain ⟨q, hq, rfl, hallowed⟩ := ih
    obtain ⟨r, hr, rfl, hallowed⟩ := exists_of_functionParts hallowed hx
    exact ⟨r, hq.parts hr, rfl, hallowed⟩
  | inner _ hx ih =>
    obtain ⟨q, hq, rfl, hallowed⟩ := ih
    obtain ⟨r, hr, rfl, hallowed⟩ := exists_of_functionParts hallowed hx
    exact ⟨r, hq.parts hr, rfl, hallowed⟩

/-- `await` and `yield` stand where their context allows them. -/
theorem Part.Formed.operators {p : Part} (h : p.Formed) :
    (p.node.isAwait → p.context.inAsync) ∧ (p.node.isYield → p.context.inGenerator) := by
  obtain ⟨role, c, n⟩ := p
  have hallowed := h.allowed
  constructor
  all_goals
    cases hs : n.shape <;> cases role <;>
      simp_all [Node.isAwait, Node.isYield, Allowed, Shape.IsLabel, Shape.IsMember,
        Shape.IsOrdinary]

/-- Every node of an accepted program stands in one of its statements. Where `await` stands, the
innermost function around it that is no arrow function is asynchronous. Where `yield` stands, the
innermost function around it is a generator; the parameters of an arrow function do not count as
its inside. -/
theorem await_and_yield_enclosed (options : Options) (source : String) (parsed : Parsed)
    (h : parse options source = .ok parsed) :
    (∀ n ∈ parsed.program.nodes, ∃ root ∈ parsed.program.body, ∃ fs, root.Inside false fs n) ∧
    ∀ root ∈ parsed.program.body, ∀ fs n, root.Inside false fs n →
      (n.isAwait → ∃ f, fs.find? (!·.isArrow) = some f ∧ f.isAsync) ∧
      (n.isYield → ∃ f, fs.head? = some f ∧ f.isGenerator) := by
  obtain ⟨stream, t, -, hs⟩ := parse_eq_ok h
  have hreads := TokenStream.statements_reads hs
  constructor
  · intro n hn
    obtain ⟨root, hroot, hn⟩ := List.mem_flatMap.1 hn
    exact ⟨root, hroot, Node.Inside.root.of_mem_walk hn⟩
  · intro root hroot fs n hn
    have hformed := hreads.formed _ (List.mem_map.2 ⟨root, hroot, rfl⟩)
    obtain ⟨q, hq, rfl, hallowed⟩ := hformed.of_inside (Context.allowedBy_initial ..) hn
    exact ⟨fun hn => hallowed.await (hq.operators.1 hn),
      fun hn => hallowed.yield (hq.operators.2 hn)⟩

/-- An arrow function in an asynchronous function, and one with `yield` among its parameters. -/
def enclosedText : String :=
  "async function f() { () => await 0 } function* g() { (a = yield) => a }"

theorem enclosedText_enclosed : ∃ parsed, parse .default enclosedText = .ok parsed ∧
    parsed.program.nodes.countP Node.isAwait = 1 ∧ parsed.program.nodes.countP Node.isYield = 1 ∧
    ∀ root ∈ parsed.program.body, ∀ fs n, root.Inside false fs n →
      (n.isAwait → ∃ f, fs.find? (!·.isArrow) = some f ∧ f.isAsync) ∧
      (n.isYield → ∃ f, fs.head? = some f ∧ f.isGenerator) := by
  have hread : ((parse .default enclosedText).toOption.map fun p =>
      (p.program.nodes.countP Node.isAwait, p.program.nodes.countP Node.isYield)) =
      some (1, 1) := by
    decide +kernel
  obtain ⟨parsed, hp, hcounts⟩ := exists_of_toOption hread
  obtain ⟨hawait, hyield⟩ := Prod.mk.inj hcounts
  exact ⟨parsed, hp, hawait, hyield, (await_and_yield_enclosed .default enclosedText parsed hp).2⟩

def inheritedText : String := "async function f() { () => await 0 }"

/-- `await` need not belong to the innermost function, with arrow functions among them. -/
theorem await_inherited_by_arrows :
    ¬ ∀ options source parsed, parse options source = .ok parsed →
      ∀ root ∈ parsed.program.body, ∀ fs n, root.Inside true fs n →
        (n.isAwait → ∃ f, fs.head? = some f ∧ f.isAsync) ∧
        (n.isYield → ∃ f, fs.head? = some f ∧ f.isGenerator) := by
  intro h
  -- the way from the function over its body, the statement and the arrow function to the operator
  have hread : ((parse .default inheritedText).toOption.map fun p =>
      p.program.body.any fun f => (f.functionParts true).any fun block =>
        (block.1 = true) && (block.2.functionParts true).any fun statement =>
          (statement.1 = false) && (statement.2.functionParts true).any fun arrow =>
            (arrow.1 = false) && (arrow.2.isArrow && (arrow.2.functionParts true).any fun await =>
              (await.1 = true) && await.2.isAwait)) = some true := by
    decide +kernel
  obtain ⟨parsed, hp, hway⟩ := exists_of_toOption hread
  simp only [List.any_eq_true, Bool.and_eq_true, decide_eq_true_eq] at hway
  obtain ⟨f, hf, ⟨_, block⟩, hblock, rfl, ⟨_, statement⟩, hstatement, rfl, ⟨_, arrow⟩, harrow,
    rfl, hisArrow, ⟨_, await⟩, hawait, rfl, hisAwait⟩ := hway
  have hinside : f.Inside true [arrow, f] await :=
    .inner (.outer (.outer (.inner .root hblock) hstatement) harrow) hawait
  obtain ⟨g, hg, hasync⟩ := (h _ _ _ hp f hf _ _ hinside).1 hisAwait
  obtain rfl := Option.some.inj hg
  simp [Node.isAsync_of_isArrow hisArrow] at hasync

end JsClass
