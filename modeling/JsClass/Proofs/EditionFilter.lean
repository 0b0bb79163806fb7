import JsClass.Proofs.Edition.Statements
import JsClass.Proofs.Syntax.Members

/-!
The editions differ only in what they leave out. A text is a program of an edition if and only if
it is one of the latest edition and its tree has nothing in it that came later.
-/
namespace JsClass

variable {e : Edition} {n : Node} {p : Part} {options : Options} {source : String} {parsed : Parsed}

namespace Node

/-- Whether the node is a field whose key is no private name. -/
def isPublicField (n : Node) : Bool :=
  match n.shape with
  | .field key .. => !key.isPrivateName
  | _ => false

end Node

/-- What an edition has a place for. -/
structure Edition.Admits (e : Edition) (n : Node) : Prop where
  async : e.number < 8 → n.isAsync = false
  publicField : e.number < 8 → n.isPublicField = false
  asyncGenerator : e.number < 9 → (n.isAsync && n.isGenerator) = false

theorem Edition.admits_iff : e.Admits n ↔ n.shape.since ≤ e.number := by
  have hadmits : e.Admits n ↔ (e.number < 8 → n.isAsync = false) ∧
      (e.number < 8 → n.isPublicField = false) ∧
      (e.number < 9 → (n.isAsync && n.isGenerator) = false) :=
    ⟨fun h => ⟨h.async, h.publicField, h.asyncGenerator⟩, fun h => ⟨h.1, h.2.1, h.2.2⟩⟩
  have hlower := e.lower
  rw [hadmits]
  cases hs : n.shape
  case function form name params body isAsync isGenerator =>
    simp only [Node.isAsync, Node.isPublicField, Node.isGenerator, hs, Shape.since]
    cases isAsync <;> cases isGenerator <;> simp [functionSince] <;> omega
  case field key value isStatic computed =>
    simp only [Node.isAsync, Node.isPublicField, Node.isGenerator, hs, Shape.since]
    cases key.isPrivateName with
    | true => simpa using hlower
    | false => simp
  all_goals simp [Node.isAsync, Node.isPublicField, hs, Shape.since, hlower]

theorem Part.Allowed.since (h : p.Allowed) :
    p.node.shape.since ≤ p.context.options.edition.number := by
  obtain ⟨role, c, n⟩ := p
  have hlower := c.options.edition.lower
  cases hs : n.shape with
  | function form name params body isAsync isGenerator =>
    cases role <;> simp_all [Allowed, Shape.IsLabel, Shape.IsMember, Shape.IsOrdinary, Shape.since]
  | field key value isStatic computed =>
    cases role with
    | member =>
      have hrules : Shape.FieldRules c key isStatic computed := by
        simpa [Allowed, Shape.IsMember, hs] using h
      rcases hrules.edition with hk | hk
      · simpa [Shape.since, hs, hk] using hlower
      · simp only [Shape.since]
        split
        · exact hlower
        · exact hk
    | label | ordinary => simp [Allowed, hs, Shape.IsLabel, Shape.IsOrdinary] at h
  | _ => exact hlower

/-- What is formed in an edition has nothing newer in it. -/
theorem Part.Formed.fits (h : p.Formed) : p.node.Fits p.context.options.edition := by
  induction h with
  | @mk p allowed parts ih =>
    refine Node.fits_iff.2 ⟨allowed.since, fun x hx => ?_⟩
    rw [Node.children, ← map_node_parts p.context] at hx
    obtain ⟨q, hq, rfl⟩ := List.mem_map.1 hx
    rw [← (settings_of_mem_parts p.context p.node.shape q hq).2]
    exact ih q hq

theorem parse_iff : parse options source = .ok parsed ↔
    ∃ s body t, tokenize .withPrivate source = .ok s ∧
      s.statements .withPrivate options = .ok body t ∧
      ⟨⟨body, options.sourceType⟩, t.reported⟩ = parsed := by
  cases hs : tokenize .withPrivate source with
  | error e => simp [parse, parseWith, hs, bind, Except.bind]
  | ok s => simp [parse, parseWith, hs, bind, Except.bind, TokenStream.parse_eq_ok]

theorem Program.admits_iff {program : Program} : (∀ n ∈ program.nodes, e.Admits n) ↔
    Node.AllFit e program.body := by
  simp only [Program.nodes, List.mem_flatMap, Node.AllFit, Node.Fits, Edition.admits_iff]
  constructor
  · exact fun h n hn x hx => h x ⟨n, hn, hx⟩
  · rintro h x ⟨n, hn, hx⟩
    exact h n hn x hx

/-- Every program fits the edition that it was read in. -/
theorem admits_of_parse (h : parse options source = .ok parsed) :
    ∀ n ∈ parsed.program.nodes, options.edition.Admits n := by
  obtain ⟨s, t, -, hs⟩ := parse_eq_ok h
  rw [Program.admits_iff]
  intro n hn
  have hformed := (TokenStream.statements_reads hs).formed _ (List.mem_map.2 ⟨n, hn, rfl⟩)
  exact hformed.fits

theorem parse_inEdition (options : Options) (h : parse options source = .ok parsed)
    (hadmits : ∀ n ∈ parsed.program.nodes, e.Admits n) :
    parse { options with edition := e } source = .ok parsed := by
  obtain ⟨s, body, t, hs, hbody, rfl⟩ := parse_iff.1 h
  have hbody' := TokenStream.statements_carries hbody (Program.admits_iff.1 hadmits)
  exact parse_iff.2 ⟨s, body, t, hs, hbody', rfl⟩

theorem Edition.Admits.mono {later : Edition} (h : e.Admits n) (hle : e.number ≤ later.number) :
    later.Admits n := by
  rw [admits_iff] at h ⊢
  exact Nat.le_trans h hle

/-- A text is read in an edition if and only if it is read in the latest one, to the same tree with
the same problems, and the edition has a place for every node of the tree. So it is read in every
later edition too. -/
theorem edition_filters_latest (options : Options) (source : String) (parsed : Parsed) :
    (parse options source = .ok parsed ↔
      parse { options with edition := .latest } source = .ok parsed ∧
        ∀ n ∈ parsed.program.nodes, options.edition.Admits n) ∧
    ∀ later : Edition, options.edition.number ≤ later.number →
      parse options source = .ok parsed →
        parse { options with edition := later } source = .ok parsed := by
  have hlater : ∀ later : Edition, options.edition.number ≤ later.number →
      parse options source = .ok parsed →
        parse { options with edition := later } source = .ok parsed := by
    intro later hle h
    exact parse_inEdition options h fun n hn => (admits_of_parse h n hn).mono hle
  refine ⟨⟨fun h => ⟨hlater .latest options.edition.upper h, admits_of_parse h⟩, ?_⟩, hlater⟩
  rintro ⟨h, hadmits⟩
  exact parse_inEdition { options with edition := .latest } h hadmits

/-- Before the editions with asynchronous functions, their word is a name like any other. -/
def asyncText : String := "async\nfunction f() {} class A { static async() { async } #a = async }"

def Edition.seventh : Edition := ⟨7, by decide, by decide, none⟩

def Edition.eighth : Edition := ⟨8, by decide, by decide, none⟩

theorem asyncText_read_later : ∃ parsed,
    parse { Options.default with edition := .seventh } asyncText = .ok parsed ∧
      parse { Options.default with edition := .eighth } asyncText = .ok parsed ∧
      parse .default asyncText = .ok parsed := by
  have hread : (parse { Options.default with edition := .seventh } asyncText).isOk := by
    decide +kernel
  cases hp : parse { Options.default with edition := .seventh } asyncText with
  | error e => simp [hp, Except.isOk, Except.toBool] at hread
  | ok parsed =>
    obtain ⟨hiff, hlater⟩ := edition_filters_latest { Options.default with edition := .seventh }
      asyncText parsed
    exact ⟨parsed, rfl, hlater .eighth (by decide) hp, (hiff.1 hp).1⟩

end JsClass
