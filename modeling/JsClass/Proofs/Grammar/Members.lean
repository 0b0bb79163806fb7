import JsClass.Grammar.PrivateElement
import JsClass.Proofs.Grammar.Functions

/-! What the rules for the members of a class read, and which members they let pass. -/
namespace JsClass

open Scope JsClass.Parser

/-- A key has been read, and it has been declared if it is a private name. -/
structure Context.ReadsKey (c : Context) (r : State) (k : Grammar.PropertyKey) (pos : Position)
    (kind : ElementKind) (s : State) : Prop where
  formed : (Part.key k.computed c k.node).Formed
  scope : c.dialect = .withPrivate →
    run r.scope ((k.node.privateName?.map fun p => Call.declare p.1 kind pos).toList
      ++ k.node.calls) = (.ok (), s.scope)
  tokens : c.finish.kind = .eof → ∃ taken, r.pending = taken ++ s.pending ∧
    taken.filterMap Token.leaf? = k.node.leaves

theorem Node.privateName?_eq_none {n : Node} (h : n.isPrivateName = false) :
    n.privateName? = none := by
  cases hs : n.shape <;> simp_all [Node.isPrivateName, Node.privateName?]

namespace Context.ReadsKey

variable {c : Context} {r s t : State} {k : Grammar.PropertyKey} {pos : Position}
  {kind : ElementKind}

/-- No other key is declared. -/
theorem of_reads (h : c.Reads r [.key k.computed c k.node] s) (hk : k.node.isPrivateName = false) :
    c.ReadsKey r k pos kind s := by
  refine ⟨h.formed _ List.mem_cons_self, ?_, ?_⟩
  · intro hd
    simpa [Node.privateName?_eq_none hk] using h.scope hd
  · intro he
    simpa [Part.leaves] using h.tokens he

/-- A member from its key and what is behind it. -/
theorem member {m : Node} {rest : List Part} (hk : c.ReadsKey r k m.pos kind s)
    (hr : c.Reads s rest t) (hparts : m.shape.parts c = .key k.computed c k.node :: rest)
    (declaration : m.declaration? = k.node.privateName?.map fun p => (p.1, kind))
    (silent : m.isSilent = true) (allowed : m.shape.IsMember c) : c.Reads r [.member c m] t := by
  simp only [Node.isSilent, Bool.and_eq_true, Option.isNone_iff_eq_none,
    Bool.not_eq_true'] at silent
  obtain ⟨⟨haccess, hclass⟩, hleaf⟩ := silent
  refine .single ⟨allowed, ?_⟩ ?_ ?_
  · intro q hq
    have hq : q ∈ m.shape.parts c := hq
    rw [hparts, List.mem_cons] at hq
    rcases hq with rfl | hq
    · exact hk.formed
    · exact hr.formed q hq
  · intro hd
    have hcalls : m.calls = k.node.calls ++ rest.flatMap Part.calls := by
      rw [Node.calls_of_not_class hclass, haccess, ← Part.calls_parts c hclass, hparts]
      simp
    have hdeclare : m.declareCall? =
        k.node.privateName?.map fun p => Call.declare p.1 kind m.pos := by
      simp [Node.declareCall?, declaration, Function.comp_def]
    rw [Part.calls_member, Node.memberCalls, hdeclare, hcalls, ← List.append_assoc,
      run_append (hk.scope hd), hr.scope hd]
  · intro he
    obtain ⟨xs, hx, hxl⟩ := hk.tokens he
    obtain ⟨ys, hy, hyl⟩ := hr.tokens he
    have hleaves : m.leaves = k.node.leaves ++ rest.flatMap Part.leaves := by
      rw [Node.leaves_eq, hleaf, ← Part.leaves_parts c, hparts]
      simp [Part.leaves]
    refine ⟨xs ++ ys, by simp [hx, hy], ?_⟩
    simp [hxl, hyl, Part.leaves, hleaves]

end Context.ReadsKey

namespace Grammar

variable {g : Grammar} {c : Context} {r s t : State} {n : Node} {h h' : Head} {k : PropertyKey}

/-! Heads. -/

/-- The words that can stand before the key of a member. -/
def modifierWords : List String := ["static", "async", "get", "set"]

/-- What holds of a head from its first word on. -/
structure Head.Read (h : Head) (c : Context) (r s : State) : Prop where
  reads : c.Reads r (h.key.toList.map fun k => .key k.computed c k.node) s
  key : ∀ k ∈ h.key, ∃ word ∈ modifierWords, ∃ pos, k = ⟨⟨.identifier word, pos⟩, false⟩
  accessor : h.modifiers.accessor.isSome →
    h.modifiers.isAsync = false ∧ h.modifiers.isGenerator = false
  since : functionSince h.modifiers.isAsync h.modifiers.isGenerator ≤ c.options.edition.number

theorem Head.read_start (x : Token) : (Head.start x).Read c s s :=
  ⟨.rfl', by simp [Head.start], by simp [Head.start, Modifiers.absent], functionSince_sync _ _⟩

theorem Head.Read.then (hh : h.Read c r s) (hr : c.Reads s [] t) : h.Read c r t :=
  ⟨by simpa using hh.reads.trans hr, hh.key, hh.accessor, hh.since⟩

theorem endsMemberName_eq_ok {b : Bool} (h : endsMemberName c s = .ok b t) : s = t := by
  simp only [endsMemberName, bind_eq_ok, peek_eq_ok, context_eq_ok] at h
  obtain ⟨_, _, ⟨rfl, rfl⟩, _, _, ⟨rfl, rfl⟩, h⟩ := h
  cases hd : c.dialect <;> simp only [hd, pure_eq_ok] at h <;> exact h.2

theorem modifierWord_reads {word : String} {noLineBreak : Bool} {m : ModifierWord}
    (h : modifierWord word noLineBreak c s = .ok m t) : c.Reads s [] t ∧
      ∀ k, m = .name k → k = ⟨⟨.identifier word, (c.next s).pos⟩, false⟩ := by
  simp only [modifierWord, bind_eq_ok, peek_eq_ok, ite_eq_ok, canInsertSemicolon_eq_ok,
    pure_eq_ok] at h
  obtain ⟨_, _, ⟨rfl, rfl⟩, _, u, hu, h⟩ := h
  have hu : c.Reads s [] u := acceptKind_reads rfl hu
  obtain ⟨-, _, v, hv, _, _, ⟨-, rfl⟩, ⟨-, rfl, rfl⟩ | ⟨-, rfl, rfl⟩⟩ | ⟨-, rfl, rfl⟩ := h
  · obtain rfl := endsMemberName_eq_ok hv
    exact ⟨hu, fun k hk => (ModifierWord.name.inj hk).symm⟩
  · obtain rfl := endsMemberName_eq_ok hv
    exact ⟨hu, by simp⟩
  · exact ⟨hu, by simp⟩

/-- Only the key of a head changes, and it changes only if the word does not modify. -/
theorem tryModifier_reads {word : String} (hw : word ∈ modifierWords) {noLineBreak b : Bool}
    (hh : h.Read c r s) (ht : tryModifier h word noLineBreak c s = .ok (b, h') t) :
    h'.Read c r t ∧ h'.pos = h.pos ∧ h'.isStatic = h.isStatic ∧ h'.modifiers = h.modifiers := by
  simp only [tryModifier, bind_eq_ok] at ht
  obtain ⟨m, u, hm, ht⟩ := ht
  obtain ⟨hu, hname⟩ := modifierWord_reads hm
  cases m with
  | absent =>
    simp only [pure_eq_ok, Prod.mk.injEq] at ht
    obtain ⟨⟨rfl, rfl⟩, rfl⟩ := ht
    exact ⟨hh.then hu, rfl, rfl, rfl⟩
  | modifier =>
    simp only [pure_eq_ok, Prod.mk.injEq] at ht
    obtain ⟨⟨rfl, rfl⟩, rfl⟩ := ht
    exact ⟨hh.then hu, rfl, rfl, rfl⟩
  | name k =>
    simp only [ite_eq_ok, unexpectedNext_eq_ok, pure_eq_ok, Prod.mk.injEq, and_false,
      false_or] at ht
    obtain ⟨hk, ⟨rfl, rfl⟩, rfl⟩ := ht
    have hreads := (hh.then hu).reads
    simp only [Bool.not_eq_true, Option.isSome_eq_false_iff, Option.isNone_iff_eq_none] at hk
    obtain rfl := hname k rfl
    refine ⟨⟨?_, ?_, hh.accessor, hh.since⟩, rfl, rfl, rfl⟩
    · rw [hk] at hreads
      exact hreads.label ⟨word, _⟩
    · simp only [Option.mem_def, Option.some.injEq, forall_eq']
      exact ⟨word, hw, _, rfl⟩

theorem Head.Read.withAccessor (hh : h.Read c r s) (ha : h.modifiers = .absent) (a : Accessor) :
    (h.withAccessor a).Read c r s :=
  ⟨hh.reads, hh.key, fun _ => by simp [Head.withAccessor, ha, Modifiers.absent], hh.since⟩

theorem accessorWord_reads (hh : h.Read c r s) (ha : h.modifiers = .absent)
    (ht : accessorWord h c s = .ok h' t) :
    h'.Read c r t ∧ h'.pos = h.pos ∧ h'.isStatic = h.isStatic := by
  simp only [accessorWord, bind_eq_ok, ite_eq_ok, pure_eq_ok] at ht
  obtain ⟨⟨b, h₁⟩, u, hu, ⟨-, rfl, rfl⟩ | ⟨-, ⟨b', h₂⟩, v, hv, rfl, rfl⟩⟩ := ht
  · obtain ⟨hr, hpos, hstatic, hm⟩ := tryModifier_reads (by decide) hh hu
    exact ⟨hr.withAccessor (hm.trans ha) _, hpos, hstatic⟩
  · obtain ⟨hr, hpos, hstatic, hm⟩ := tryModifier_reads (by decide) hh hu
    obtain ⟨hr₂, hpos₂, hstatic₂, hm₂⟩ := tryModifier_reads (by decide) hr hv
    cases b' with
    | true =>
      exact ⟨hr₂.withAccessor (hm₂.trans (hm.trans ha)) _, hpos₂.trans hpos,
        hstatic₂.trans hstatic⟩
    | false => exact ⟨hr₂, hpos₂.trans hpos, hstatic₂.trans hstatic⟩

theorem asyncHead_reads (hh : h.Read c r s) (he : 8 ≤ c.options.edition.number)
    (ht : asyncHead h c s = .ok h' t) :
    h'.Read c r t ∧ h'.pos = h.pos ∧ h'.isStatic = h.isStatic := by
  simp only [asyncHead, bind_eq_ok, pure_eq_ok] at ht
  obtain ⟨b, u, hu, rfl, rfl⟩ := ht
  obtain ⟨hstar, hnine⟩ := asyncStar_reads hu
  have hread := hh.then hstar
  have hsince : functionSince true b ≤ c.options.edition.number :=
    (functionSince_le _).2 ⟨fun _ => he, fun _ => hnine⟩
  exact ⟨⟨hread.reads, hread.key, by simp, hsince⟩, rfl, rfl⟩

theorem Head.Read.generator (hh : h.Read c r s) :
    { h with modifiers := ⟨false, true, none⟩ : Head }.Read c r s :=
  ⟨hh.reads, hh.key, by simp, functionSince_sync _ _⟩

theorem plainModifiers_reads (hh : h.Read c r s) (ha : h.modifiers = .absent)
    (ht : plainModifiers h c s = .ok h' t) :
    h'.Read c r t ∧ h'.pos = h.pos ∧ h'.isStatic = h.isStatic := by
  simp only [plainModifiers, bind_eq_ok, ite_eq_ok, context_eq_ok, pure_eq_ok] at ht
  obtain ⟨_, u, hu, ht⟩ := ht
  have hu := hh.then (accept_reads hu)
  obtain ⟨-, rfl, rfl⟩ | ⟨-, _, _, ⟨rfl, rfl⟩, ⟨he, ⟨b, h₁⟩, v, hv, ht⟩ | ⟨-, ht⟩⟩ := ht
  · exact ⟨hu.generator, rfl, rfl⟩
  · obtain ⟨hv, hpos, hstatic, hm⟩ := tryModifier_reads (by decide) hu hv
    rw [← hpos, ← hstatic]
    rcases ht with ⟨-, ht⟩ | ⟨-, ht⟩
    · exact asyncHead_reads hv he ht
    · exact accessorWord_reads hv (hm.trans ha) ht
  · exact accessorWord_reads hu ha ht

/-! Methods and fields. -/

theorem PropertyKey.name?_eq_some {word : String} :
    k.name? = some (.ofString word) ↔ Shape.spells k.computed k.node word := by
  cases hc : k.computed <;> simp [PropertyKey.name?, Shape.spells, hc]

theorem PropertyKey.name?_beq {word : String} :
    (k.name? == some (.ofString word)) = true ↔ Shape.spells k.computed k.node word := by
  rw [beq_iff_eq, name?_eq_some]

/-- An accessor is neither asynchronous nor a generator. -/
theorem Head.Read.methodKind (hh : h.Read c r s) (hk : h.modifiers.methodKind ≠ .method) :
    h.modifiers.isAsync = false ∧ h.modifiers.isGenerator = false := by
  apply hh.accessor
  cases ha : h.modifiers.accessor with
  | none => simp [Modifiers.methodKind, ha] at hk
  | some a => rfl

theorem Modifiers.accessor_of_areAbsent (m : Modifiers) (h : m.areAbsent = true) :
    m.accessor = none := by
  simp only [areAbsent, Bool.and_eq_true, Option.isNone_iff_eq_none] at h
  exact h.2

theorem Modifiers.methodKind_of_accessor {m : Modifiers} (ha : m.accessor ≠ none) :
    m.methodKind = .get ∨ m.methodKind = .set := by
  rcases h : m.accessor with _ | _ | _
  · exact absurd h ha
  · simp [methodKind, Accessor.methodKind, h]
  · simp [methodKind, Accessor.methodKind, h]

theorem methodElement_reads (hg : g.Sound) {kind : MethodKind} {r₀ s₀ : State}
    (hh : h.Read c r₀ s₀) (hk : c.ReadsKey r k h.pos kind.elementKind s)
    (rules : ∀ value, (∃ params body, value.shape = .function .expression none params body
      h.modifiers.isAsync h.modifiers.isGenerator) →
        Shape.MethodRules c k.node value kind h.isStatic k.computed)
    (ht : g.methodElement h k kind c s = .ok n t) : c.Reads r [.member c n] t := by
  simp only [methodElement, within_apply, bind_eq_ok, pure_eq_ok] at ht
  obtain ⟨value, u, hu, _, v, hv, rfl, rfl⟩ := ht
  have hsince : functionSince h.modifiers.isAsync h.modifiers.isGenerator ≤
      (c.methodOf k.node).options.edition.number := hh.since
  obtain ⟨hvalue, hfunction⟩ := method_reads hg hsince hu
  have hcheck := checkAccessor_reads hv
  have hrest : c.Reads s [.ordinary (c.methodOf k.node) value] v := hvalue.trans hcheck
  exact Context.ReadsKey.member hk hrest rfl rfl rfl (rules value hfunction)

theorem fieldElement_reads (hg : g.Sound) (hk : c.ReadsKey r k h.pos .field s)
    (rules : Shape.FieldRules c k.node h.isStatic k.computed)
    (ht : g.fieldElement h k c s = .ok n t) : c.Reads r [.member c n] t := by
  simp only [fieldElement, within_apply, bind_eq_ok, pure_eq_ok] at ht
  obtain ⟨value, u, hu, _, v, hv, rfl, rfl⟩ := ht
  have hvalue := (initializer?_reads hg hu).trans (semicolon_reads hv)
  rw [List.append_nil] at hvalue
  have hrest : c.Reads s (value.toList.map (.ordinary (c.fieldValue h.isStatic))) v := hvalue
  exact Context.ReadsKey.member hk hrest rfl rfl rfl rules

theorem methodKindFor_cases {kind : MethodKind} (ht : methodKindFor h k c s = .ok kind t) : s = t ∧
    (kind = .constructor ∧ h.isStatic = false ∧ Shape.spells k.computed k.node "constructor" ∧
        h.modifiers.isAsync = false ∧ h.modifiers.isGenerator = false ∨
      kind = h.modifiers.methodKind ∧
        ¬ (h.isStatic = false ∧ Shape.spells k.computed k.node "constructor") ∧
        (h.isStatic → ¬ Shape.spells k.computed k.node "prototype")) := by
  simp only [methodKindFor, ite_eq_ok, reject_eq_ok, and_false, false_or, pure_eq_ok,
    Bool.and_eq_true, Bool.not_eq_true', PropertyKey.name?_beq] at ht
  obtain ⟨⟨hstatic, hspells⟩, -, hg, ha, rfl, rfl⟩ | ⟨hc, hproto, rfl, rfl⟩ := ht
  · exact ⟨rfl, Or.inl ⟨rfl, hstatic, hspells, by simpa using ha, by simpa using hg⟩⟩
  · exact ⟨rfl, Or.inr ⟨rfl, hc, fun hs hsp => hproto ⟨hs, hsp⟩⟩⟩

theorem Modifiers.methodKind_ne_constructor (m : Modifiers) : m.methodKind ≠ .constructor := by
  rcases ha : m.accessor with _ | _ | _ <;> simp [methodKind, Accessor.methodKind, ha]

/-- The rules for methods hold of what the plain rule lets pass, if its key is no private name. -/
theorem methodKindFor_rules {kind : MethodKind} {value : Node} {u : State} (hh : h.Read c r s)
    (hp : k.node.isPrivateName = false) (hs : c.dialect = .withPrivate → h.isStatic = false)
    (hv : ∃ params body, value.shape = .function .expression none params body
      h.modifiers.isAsync h.modifiers.isGenerator)
    (ht : methodKindFor h k c u = .ok kind t) :
    Shape.MethodRules c k.node value kind h.isStatic k.computed := by
  obtain ⟨params, body, hv⟩ := hv
  have hprivate : h.isStatic → ¬ ∃ p, k.node.privateName? = some p ∧ p.1 = "constructor" := by
    simp [Node.privateName?_eq_none hp]
  obtain ⟨-, ⟨rfl, hstatic, hspells, ha, hg⟩ | ⟨rfl, hc, hproto⟩⟩ := methodKindFor_cases ht
  · refine ⟨?_, ?_, ?_, ?_, hprivate⟩
    · exact ⟨params, body, _, _, hv, fun _ => ⟨ha, hg⟩⟩
    · simp [hstatic, hspells]
    · simp [hstatic]
    · simp [hstatic]
  · refine ⟨?_, ?_, hproto, ?_, hprivate⟩
    · exact ⟨params, body, _, _, hv, hh.methodKind⟩
    · exact ⟨fun hk => absurd hk h.modifiers.methodKind_ne_constructor, fun hsp => absurd hsp hc⟩
    · intro hd hstatic
      rw [hs hd] at hstatic
      cases hstatic

theorem memberKey_reads (hg : g.Sound) (hh : h.Read c r s) (ht : g.memberKey h c s = .ok k t) :
    c.Reads r [.key k.computed c k.node] t ∧ k.node.isPrivateName = false := by
  have hreads := hh.reads
  cases hk : h.key with
  | none =>
    rw [memberKey, hk] at ht
    obtain ⟨hkey, hp⟩ := propertyKey_reads hg ht
    rw [hk] at hreads
    exact ⟨hreads.trans hkey, hp⟩
  | some key =>
    simp only [memberKey, hk, pure_eq_ok] at ht
    obtain ⟨rfl, rfl⟩ := ht
    obtain ⟨word, -, pos, rfl⟩ := hh.key key hk
    rw [hk] at hreads
    exact ⟨hreads, rfl⟩

/-- With private members the plain rule reads no static ones, since `static` has been tried. -/
theorem plainElement_reads (hg : g.Sound)
    (hs : c.dialect = .withPrivate → ∀ h u,
      tryModifier (.start (c.next s)) "static" false c s ≠ .ok (true, h) u)
    (ht : g.plainElement c s = .ok n t) : c.Reads s [.member c n] t := by
  simp only [plainElement, bind_eq_ok, peek_eq_ok] at ht
  obtain ⟨_, _, ⟨rfl, rfl⟩, ⟨isStatic, h₁⟩, u, hu, h₂, v, hv, k, w, hw, kind, x, hx, ht⟩ := ht
  obtain ⟨h₁read, h₁pos, -, h₁m⟩ := tryModifier_reads (by decide) (Head.read_start _) hu
  have h₁read : Head.Read { h₁ with isStatic } c s u :=
    ⟨h₁read.reads, h₁read.key, h₁read.accessor, h₁read.since⟩
  obtain ⟨h₂read, h₂pos, h₂static⟩ := plainModifiers_reads h₁read h₁m hv
  obtain ⟨hk, hp⟩ := memberKey_reads hg h₂read hw
  have hstatic : c.dialect = .withPrivate → h₂.isStatic = false := by
    intro hd
    rw [h₂static]
    cases isStatic with
    | true => exact absurd hu (hs hd _ _)
    | false => rfl
  obtain ⟨rfl, -⟩ := methodKindFor_cases hx
  refine methodElement_reads hg h₂read (.of_reads hk hp) ?_ ht
  intro value hvalue
  exact methodKindFor_rules h₂read hp hstatic hvalue hx

/-! Static members and members with a private key. -/

theorem elementKind_cases {kind : ElementKind} (ht : elementKind h c s = .ok kind t) : s = t ∧
    ((c.next s).kind = .punct .lparen → kind = h.modifiers.methodKind.elementKind) ∧
    ((c.next s).kind ≠ .punct .lparen → h.modifiers.accessor = none → kind = .field) := by
  rcases ha : h.modifiers.accessor with _ | _ | _
  · simp only [elementKind, ha, bind_eq_ok, check_eq_ok, ite_eq_ok, pure_eq_ok] at ht
    obtain ⟨_, _, ⟨rfl, rfl⟩, ⟨hp, rfl, rfl⟩ | ⟨hp, rfl, rfl⟩⟩ := ht
    · refine ⟨rfl, fun _ => ?_, fun hn => absurd (beq_iff_eq.1 hp) hn⟩
      simp [Modifiers.methodKind, ha, MethodKind.elementKind]
    · exact ⟨rfl, fun hn => absurd (beq_iff_eq.2 hn) hp, fun _ _ => rfl⟩
  · simp only [elementKind, ha, pure_eq_ok] at ht
    obtain ⟨rfl, rfl⟩ := ht
    simp [Modifiers.methodKind, ha, Accessor.methodKind, Accessor.elementKind,
      MethodKind.elementKind]
  · simp only [elementKind, ha, pure_eq_ok] at ht
    obtain ⟨rfl, rfl⟩ := ht
    simp [Modifiers.methodKind, ha, Accessor.methodKind, Accessor.elementKind,
      MethodKind.elementKind]

/-- A private key is declared as what the token behind it makes of the member. -/
theorem privateKey_reads (hd : c.dialect = .withPrivate) (hh : h.Read c r s) (hn : h.key = none)
    (ht : privateKey h c s = .ok k t) :
    ∃ name pos kind, k = ⟨⟨.privateName name, pos⟩, false⟩ ∧
      (h.isStatic → name ≠ "constructor") ∧ c.ReadsKey r k h.pos kind t ∧
      ((c.next t).kind = .punct .lparen → kind = h.modifiers.methodKind.elementKind) ∧
      ((c.next t).kind ≠ .punct .lparen → h.modifiers.accessor = none → kind = .field) := by
  simp only [privateKey, bind_eq_ok, ite_eq_ok, reject_eq_ok, onScope_eq_ok, pure_eq_ok, and_false,
    false_or, Bool.and_eq_true, beq_iff_eq, not_and] at ht
  obtain ⟨name, u, hu, hname, kind, v, hv, _, _, ⟨scope, hdeclare, rfl⟩, rfl, rfl⟩ := ht
  obtain ⟨rfl, hmethod, hfield⟩ := elementKind_cases hv
  have hreads := hh.reads
  rw [hn] at hreads
  have hu := hreads.trans (privateName_reads hd rfl hu)
  refine ⟨name.name, name.pos, kind, rfl, hname, ⟨hu.formed _ List.mem_cons_self, ?_, ?_⟩,
    hmethod, hfield⟩
  · intro _
    have hscope : run r.scope [] = (.ok (), u.scope) := hu.scope hd
    simp only [run, Prod.mk.injEq, true_and] at hscope
    rw [hscope]
    show run u.scope [.declare name.name kind h.pos] = (.ok (), scope)
    simp [run, Call.apply, hdeclare]
  · intro he
    simpa [Part.leaves] using hu.tokens he

/-- What a key is not, if it belongs to a static or private member. -/
structure Head.Admits (h : Head) (k : PropertyKey) : Prop where
  prototype : ¬ Shape.spells k.computed k.node "prototype"
  constructor : h.isStatic = false → ¬ Shape.spells k.computed k.node "constructor"
  privateConstructor : h.isStatic → ¬ ∃ p, k.node.privateName? = some p ∧ p.1 = "constructor"

theorem spells_identifier {computed : Bool} {pos : Position} {word other : String} :
    Shape.spells computed ⟨.identifier word, pos⟩ other ↔
      computed = false ∧ Text.ofString word = Text.ofString other := by
  simp [Shape.spells, Node.keyName?, Node.shape]

theorem not_spells_of_modifier {computed : Bool} {word : String} {pos : Position}
    (hw : word ∈ modifierWords) :
    ¬ Shape.spells computed ⟨.identifier word, pos⟩ "prototype" ∧
      ¬ Shape.spells computed ⟨.identifier word, pos⟩ "constructor" := by
  have hne : ∀ word ∈ modifierWords, Text.ofString word ≠ Text.ofString "prototype" ∧
      Text.ofString word ≠ Text.ofString "constructor" := by decide
  obtain ⟨hproto, hconstructor⟩ := hne word hw
  exact ⟨fun h => hproto (spells_identifier.1 h).2, fun h => hconstructor (spells_identifier.1 h).2⟩

theorem Head.admits_word {word : String} {pos : Position} (hw : word ∈ modifierWords) :
    h.Admits ⟨⟨.identifier word, pos⟩, false⟩ :=
  ⟨(not_spells_of_modifier hw).1, fun _ => (not_spells_of_modifier hw).2,
    by simp [Node.privateName?, Node.shape]⟩

theorem checkStaticConstructor_eq_ok {u : Unit} (ht : checkStaticConstructor h k c s = .ok u t) :
    s = t ∧ (h.isStatic → h.modifiers.accessor = none →
      ¬ Shape.spells k.computed k.node "constructor") := by
  simp only [checkStaticConstructor, ite_eq_ok, reject_eq_ok, and_false, false_or, pure_eq_ok,
    Bool.and_eq_true, PropertyKey.name?_beq, Option.isNone_iff_eq_none] at ht
  obtain ⟨hn, -, rfl⟩ := ht
  exact ⟨rfl, fun hs ha hsp => hn ⟨⟨hs, ha⟩, hsp⟩⟩

theorem methodOrField_reads (hg : g.Sound) (hd : c.dialect = .withPrivate) {r₀ s₀ : State}
    (hh : h.Read c r₀ s₀) (hadmits : h.Admits k)
    (hm : c.ReadsKey r k h.pos h.modifiers.methodKind.elementKind s)
    (hf : (c.next s).kind = .punct .lparen ∨
      c.Reads r [.key k.computed c k.node] s ∧ k.node.isPrivateName = false)
    (ht : g.methodOrField h k c s = .ok n t) : c.Reads r [.member c n] t := by
  simp only [methodOrField, bind_eq_ok, ite_eq_ok, check_eq_ok, context_eq_ok, pure_eq_ok,
    Bool.and_eq_true, Bool.not_eq_true'] at ht
  obtain ⟨_, _, ⟨rfl, rfl⟩, _, _, ⟨rfl, rfl⟩,
    ⟨⟨⟨⟨hstatic, habsent⟩, he⟩, hparen⟩, _, u, hu, _, v, hv, rfl, rfl⟩ |
    ⟨-, _, u, hu, _, v, hv, rfl, rfl⟩⟩ := ht
  · obtain ⟨rfl, hconstructor⟩ := checkStaticConstructor_eq_ok hv
    have haccessor := h.modifiers.accessor_of_areAbsent habsent
    rcases hf with hf | ⟨hk, hp⟩
    · exact absurd hf (by simpa using hparen)
    · refine fieldElement_reads hg (.of_reads hk hp) ⟨hd, Or.inl hstatic, ?_, ?_, ?_⟩ hu
      · exact fun _ => ⟨hadmits.prototype, hconstructor hstatic haccessor⟩
      · simp [Node.privateName?_eq_none hp]
      · exact Or.inr (by simpa using he)
  · obtain ⟨rfl, hconstructor⟩ := checkStaticConstructor_eq_ok hv
    refine methodElement_reads hg hh hm ?_ hu
    rintro value ⟨params, body, hvalue⟩
    refine ⟨⟨params, body, _, _, hvalue, hh.methodKind⟩, ?_, fun _ => hadmits.prototype, ?_,
      hadmits.privateConstructor⟩
    · refine ⟨fun hk => absurd hk h.modifiers.methodKind_ne_constructor, ?_⟩
      rintro ⟨hstatic, hspells⟩
      exact absurd hspells (hadmits.constructor hstatic)
    · intro _ hstatic hspells
      refine Modifiers.methodKind_of_accessor fun ha => ?_
      exact hconstructor hstatic ha hspells

theorem privateField_reads (hg : g.Sound) (hd : c.dialect = .withPrivate) {name : String}
    {pos : Position} (hk : k = ⟨⟨.privateName name, pos⟩, false⟩)
    (hname : h.isStatic → name ≠ "constructor")
    (hf : h.modifiers.accessor = none → c.ReadsKey r k h.pos .field s)
    (ht : g.privateField h k c s = .ok n t) : c.Reads r [.member c n] t := by
  subst hk
  simp only [privateField, Node.shape, ite_eq_ok, unexpectedNext_eq_ok, reject_eq_ok, and_false,
    false_or, Bool.and_eq_true, beq_iff_eq, not_and, Bool.not_eq_true, Bool.not_eq_false'] at ht
  obtain ⟨habsent, hproto, ht⟩ := ht
  have hk := hf (h.modifiers.accessor_of_areAbsent habsent)
  refine fieldElement_reads hg hk ⟨hd, Or.inr rfl, ?_, ?_, Or.inl rfl⟩ ht
  · simp [Shape.spells, Node.keyName?, Node.shape]
  · rintro hstatic ⟨p, hp, h⟩
    cases hp
    exact h.elim (hname hstatic) (hproto hstatic)

/-- A token that cannot be a key spelled `constructor`. -/
def isNoConstructor (k : Kind) : Prop :=
  k.isPrivateName = true ∨ k = .name "async" ∨ k = .punct .star

theorem propertyWord_name {word : String} {i : Ident} (hk : (c.next s).kind = .name word)
    (ht : propertyWord c s = .ok i t) : i = ⟨word, (c.next s).pos⟩ := by
  simp only [propertyWord, bind_eq_ok, anyWord_eq_ok, pure_eq_ok, hk, Kind.word?] at ht
  obtain ⟨_, _, ⟨_, hw, rfl, -⟩, _, _, -, rfl, -⟩ := ht
  rw [Option.some.inj hw]

theorem propertyKey_name {word : String} (hk : (c.next s).kind = .name word)
    (ht : g.propertyKey c s = .ok k t) :
    k = ⟨⟨.identifier word, (c.next s).pos⟩, false⟩ := by
  simp only [propertyKey, bind_eq_ok, peek_eq_ok] at ht
  obtain ⟨_, _, ⟨rfl, rfl⟩, ht⟩ := ht
  simp only [hk, bind_eq_ok, pure_eq_ok] at ht
  obtain ⟨i, u, hi, rfl, -⟩ := ht
  rw [propertyWord_name hk hi]
  rfl

theorem propertyKey_star (hk : (c.next s).kind = .punct .star) : g.propertyKey c s ≠ .ok k t := by
  intro ht
  simp only [propertyKey, bind_eq_ok, peek_eq_ok] at ht
  obtain ⟨_, _, ⟨rfl, rfl⟩, ht⟩ := ht
  simp [hk, propertyWord, Kind.word?] at ht

theorem elementRest_admits (hk : isNoConstructor (c.next s).kind)
    (hp : (c.next s).kind.isPrivateName = false) (ht : g.propertyKey c s = .ok k t) :
    ¬ Shape.spells k.computed k.node "constructor" := by
  rcases hk with hk | hk | hk
  · simp [hp] at hk
  · rw [propertyKey_name hk ht]
    exact (not_spells_of_modifier (by decide)).2
  · exact absurd ht (propertyKey_star hk)

theorem elementRest_reads (hg : g.Sound) (hd : c.dialect = .withPrivate) (hh : h.Read c r s)
    (hs : h.isStatic = false → h.key = none → isNoConstructor (c.next s).kind)
    (ht : g.elementRest h c s = .ok n t) : c.Reads r [.member c n] t := by
  have hreads := hh.reads
  cases hkey : h.key with
  | some k =>
    simp only [elementRest, hkey] at ht
    obtain ⟨word, hw, pos, rfl⟩ := hh.key k hkey
    rw [hkey] at hreads
    exact methodOrField_reads hg hd hh (Head.admits_word hw) (.of_reads hreads rfl)
      (Or.inr ⟨hreads, rfl⟩) ht
  | none =>
    simp only [elementRest, hkey, bind_eq_ok, peek_eq_ok, ite_eq_ok, check_eq_ok, reject_eq_ok,
      and_false, false_or, PropertyKey.name?_beq] at ht
    obtain ⟨_, _, ⟨rfl, rfl⟩, ⟨hp, k, u, hu, _, _, ⟨hb, rfl⟩, ht⟩ |
      ⟨hp, k, u, hu, hproto, ht⟩⟩ := ht
    · obtain ⟨name, pos, kind, rfl, hname, hk, hmethod, hfield⟩ := privateKey_reads hd hh hkey hu
      rcases ht with ⟨rfl, ht⟩ | ⟨hn, ht⟩
      · have hparen := beq_iff_eq.1 hb
        rw [hmethod hparen] at hk
        refine methodOrField_reads hg hd hh ⟨?_, ?_, ?_⟩ hk (Or.inl hparen) ht
        · simp [Shape.spells, Node.keyName?, Node.shape]
        · simp [Shape.spells, Node.keyName?, Node.shape]
        · rintro hstatic ⟨p, hp, h⟩
          cases hp
          exact hname hstatic h
      · have hparen : (c.next u).kind ≠ .punct .lparen := by
          intro h
          exact hn (hb ▸ beq_iff_eq.2 h)
        refine privateField_reads hg hd rfl hname ?_ ht
        intro ha
        rwa [hfield hparen ha] at hk
    · obtain ⟨hk, hpriv⟩ := propertyKey_reads hg hu
      rw [hkey] at hreads
      have hk : c.Reads r [.key k.computed c k.node] u := hreads.trans hk
      refine methodOrField_reads hg hd hh ⟨?_, ?_, ?_⟩ (.of_reads hk hpriv) (Or.inr ⟨hk, hpriv⟩) ht
      · exact hproto
      · exact fun hstatic => elementRest_admits (hs hstatic hkey) (by simpa using hp) hu
      · simp [Node.privateName?_eq_none hpriv]

/-! Looking ahead for a private key. -/

theorem next_skip (c : Context) (s : State) :
    (s.pending.drop 1).headD c.finish = c.next s.skip := by
  simp [Context.next, State.skip]

theorem next_skip_skip (c : Context) (s : State) :
    (s.pending.drop 2).headD c.finish = c.next s.skip.skip := by
  simp [Context.next, State.skip]

theorem modifierWord_next {word : String} {noLineBreak : Bool} {m : ModifierWord}
    (ht : modifierWord word noLineBreak c s = .ok m t) :
    m ≠ .absent ∧ (c.next s).kind = .name word ∧ s.skip = t ∨
      m = .absent ∧ (c.next s).kind ≠ .name word ∧ s = t := by
  simp only [modifierWord, bind_eq_ok, peek_eq_ok, ite_eq_ok, acceptKind_eq_ok,
    canInsertSemicolon_eq_ok, pure_eq_ok] at ht
  obtain ⟨_, _, ⟨rfl, rfl⟩, b, u, ⟨hn, rfl, rfl⟩ | ⟨hn, rfl, rfl⟩,
    ⟨hb, _, v, hv, _, _, ⟨-, rfl⟩, hm⟩ | ⟨hb, rfl, rfl⟩⟩ := ht
  · obtain rfl := endsMemberName_eq_ok hv
    obtain ⟨-, rfl, rfl⟩ | ⟨-, rfl, rfl⟩ := hm
    · exact Or.inl ⟨by simp, hn, rfl⟩
    · exact Or.inl ⟨by simp, hn, rfl⟩
  · simp at hb
  · simp at hb
  · exact Or.inr ⟨rfl, hn, rfl⟩

/-- A word that comes next is taken, as a modifier or as the key. -/
theorem tryModifier_word {word : String} {noLineBreak b : Bool}
    (ht : tryModifier h word noLineBreak c s = .ok (b, h') t) :
    (c.next s).kind = .name word ∧ s.skip = t ∧ (b = true ∨ h'.key.isSome) ∨
      (c.next s).kind ≠ .name word ∧ b = false ∧ h' = h ∧ s = t := by
  simp only [tryModifier, bind_eq_ok] at ht
  obtain ⟨m, u, hm, ht⟩ := ht
  rcases modifierWord_next hm with ⟨hne, hn, rfl⟩ | ⟨rfl, hn, rfl⟩
  · left
    cases m with
    | absent => exact absurd rfl hne
    | modifier =>
      simp only [pure_eq_ok, Prod.mk.injEq] at ht
      obtain ⟨⟨rfl, rfl⟩, rfl⟩ := ht
      exact ⟨hn, rfl, Or.inl rfl⟩
    | name k =>
      simp only [ite_eq_ok, unexpectedNext_eq_ok, pure_eq_ok, Prod.mk.injEq, and_false,
        false_or] at ht
      obtain ⟨-, ⟨rfl, rfl⟩, rfl⟩ := ht
      exact ⟨hn, rfl, Or.inr rfl⟩
  · simp only [pure_eq_ok, Prod.mk.injEq] at ht
    obtain ⟨⟨rfl, rfl⟩, rfl⟩ := ht
    exact Or.inr ⟨hn, rfl, rfl, rfl⟩

/-- No more than the word is taken. -/
theorem tryModifier_length {word : String} {noLineBreak b : Bool}
    (ht : tryModifier h word noLineBreak c s = .ok (b, h') t) :
    s.pending.length ≤ t.pending.length + 1 := by
  rcases tryModifier_word ht with ⟨-, rfl, -⟩ | ⟨-, -, -, rfl⟩
  · rw [State.skip, List.length_tail]
    omega
  · exact Nat.le_succ _

/-- A head without a key tells whether the word was there. -/
theorem tryModifier_next {word : String} {noLineBreak b : Bool}
    (ht : tryModifier h word noLineBreak c s = .ok (b, h') t) (hk : h'.key = none) :
    b = true ∧ (c.next s).kind = .name word ∧ s.skip = t ∨
      b = false ∧ (c.next s).kind ≠ .name word ∧ s = t := by
  rcases tryModifier_word ht with ⟨hn, hs, hb | hkey⟩ | ⟨hn, hb, -, hs⟩
  · exact Or.inl ⟨hb, hn, hs⟩
  · rw [hk] at hkey
    cases hkey
  · exact Or.inr ⟨hb, hn, hs⟩

/-- A key stays, and a word that modifies leaves the head as it is. -/
theorem tryModifier_key {word : String} {noLineBreak b : Bool}
    (ht : tryModifier h word noLineBreak c s = .ok (b, h') t) :
    (h'.key = none → h.key = none) ∧ (b = true → h' = h) := by
  simp only [tryModifier, bind_eq_ok] at ht
  obtain ⟨m, u, -, ht⟩ := ht
  cases m with
  | absent | modifier =>
    simp only [pure_eq_ok, Prod.mk.injEq] at ht
    obtain ⟨⟨-, rfl⟩, -⟩ := ht
    exact ⟨id, fun _ => rfl⟩
  | name k =>
    simp only [ite_eq_ok, unexpectedNext_eq_ok, pure_eq_ok, Prod.mk.injEq, and_false,
      false_or] at ht
    obtain ⟨-, ⟨rfl, rfl⟩, -⟩ := ht
    simp

/-- At most the word is taken. -/
theorem tryModifier_restore {word : String} {noLineBreak b : Bool}
    (ht : tryModifier h word noLineBreak c s = .ok (b, h') t) :
    { t with pending := s.pending } = s := by
  rcases tryModifier_word ht with ⟨-, rfl, -⟩ | ⟨-, -, -, rfl⟩
  · rfl
  · rfl

theorem accessorWord_next (ht : accessorWord h c s = .ok h' t) (hk : h'.key = none) :
    ((c.next s).kind = .name "get" ∨ (c.next s).kind = .name "set") ∧ s.skip = t ∨
      ((c.next s).kind ≠ .name "get" ∧ (c.next s).kind ≠ .name "set") ∧ s = t := by
  simp only [accessorWord, bind_eq_ok, ite_eq_ok, pure_eq_ok] at ht
  obtain ⟨⟨b, h₁⟩, u, hu, ⟨hb, rfl, rfl⟩ | ⟨hb, ⟨b', h₂⟩, v, hv, rfl, rfl⟩⟩ := ht
  · rcases tryModifier_next hu hk with ⟨-, hn, rfl⟩ | ⟨hb', -, -⟩
    · exact Or.inl ⟨Or.inl hn, rfl⟩
    · exact absurd hb (by simp [hb'])
  · have hkey : h₂.key = none := by
      cases b' <;> exact hk
    rcases tryModifier_next hu ((tryModifier_key hv).1 hkey) with ⟨hb', -, -⟩ | ⟨-, hn, rfl⟩
    · exact absurd hb' hb
    · rcases tryModifier_next hv hkey with ⟨-, hn', rfl⟩ | ⟨-, hn', rfl⟩
      · exact Or.inl ⟨Or.inr hn', rfl⟩
      · exact Or.inr ⟨⟨hn, hn'⟩, rfl⟩

theorem asyncStar_next {b : Bool} (ht : asyncStar c s = .ok b t) :
    s = t ∨ (c.next s).kind = .punct .star ∧ s.skip = t := by
  simp only [asyncStar, bind_eq_ok, context_eq_ok, ite_eq_ok, accept_eq_ok, pure_eq_ok] at ht
  obtain ⟨_, _, ⟨rfl, rfl⟩, ⟨-, ⟨hn, -, rfl⟩ | ⟨-, -, rfl⟩⟩ | ⟨-, -, rfl⟩⟩ := ht
  · exact Or.inr ⟨hn, rfl⟩
  · exact Or.inl rfl
  · exact Or.inl rfl

/-- Where a private key comes next: behind a star, at once, behind `async` or behind an accessor. -/
theorem startsPrivateElement_cases (ht : startsPrivateElement c s = .ok true t) : s = t ∧
    ((c.next s).kind = .punct .star ∧ (c.next s.skip).kind.isPrivateName ∨
      (c.next s).kind.isPrivateName ∨
      (c.next s).kind = .name "async" ∧ ((c.next s.skip).kind.isPrivateName ∨
        (c.next s.skip).kind = .punct .star ∧ (c.next s.skip.skip).kind.isPrivateName) ∨
      ((c.next s).kind = .name "get" ∨ (c.next s).kind = .name "set") ∧
        (c.next s.skip).kind.isPrivateName) := by
  simp only [startsPrivateElement, bind_eq_ok, peek_eq_ok, peekAt_eq_ok, pure_eq_ok] at ht
  obtain ⟨_, _, ⟨rfl, rfl⟩, _, _, ⟨rfl, rfl⟩, _, _, ⟨rfl, rfl⟩, hp, rfl⟩ := ht
  refine ⟨rfl, ?_⟩
  rw [next_skip] at hp
  split at hp
  case isTrue hstar =>
    rw [next_skip] at hp
    exact Or.inl ⟨by simpa using hstar, hp⟩
  split at hp
  case isTrue => exact Or.inr (Or.inl hp)
  split at hp
  case isTrue hasync =>
    simp only [Bool.and_eq_true, beq_iff_eq] at hasync
    split at hp
    case isTrue hstar =>
      rw [next_skip_skip] at hp
      exact Or.inr (Or.inr (Or.inl ⟨hasync.1, Or.inr ⟨by simpa using hstar, hp⟩⟩))
    case isFalse =>
      rw [next_skip] at hp
      exact Or.inr (Or.inr (Or.inl ⟨hasync.1, Or.inl hp⟩))
  split at hp
  case isTrue haccessor =>
    rw [next_skip] at hp
    exact Or.inr (Or.inr (Or.inr ⟨by simpa using haccessor, hp⟩))
  case isFalse => exact Or.inr (Or.inl hp)

theorem isPrivateName_kind {k : Kind} (h : k.isPrivateName = true) :
    ∃ word, k = .privateName word := by
  cases k <;> simp [Kind.isPrivateName] at h
  exact ⟨_, rfl⟩

/-- Behind `async` there is a private key, or a star that is no key. -/
theorem asyncElement_reads (hg : g.Sound) (hd : c.dialect = .withPrivate)
    (he : 8 ≤ c.options.edition.number) (hh : h.Read c r s) (hk : h.key = none)
    (hn : (c.next s).kind = .name "async")
    (hs : h.isStatic = false → startsPrivateElement c s = .ok true s)
    (ht : g.asyncElement h c s = .ok n t) : c.Reads r [.member c n] t := by
  simp only [asyncElement, bind_eq_ok, peekAt_eq_ok, ite_eq_ok, Bool.and_eq_true] at ht
  obtain ⟨_, _, ⟨rfl, rfl⟩, ⟨⟨hstatic, -⟩, i, u, hu, ht⟩ | ⟨-, ⟨b, h₁⟩, u, hu, ht⟩⟩ := ht
  · have hkey := hh.reads
    rw [hk] at hkey
    have hkey : c.Reads r [.key false c i.node] u := hkey.trans (propertyWord_reads hu)
    refine fieldElement_reads hg (.of_reads hkey rfl)
      ⟨hd, Or.inl hstatic, fun _ => ?_, ?_, Or.inr he⟩ ht
    · have hasync : "async" ∈ modifierWords := by decide
      obtain rfl := propertyWord_name hn hu
      exact not_spells_of_modifier hasync
    · simp [Ident.node, Node.privateName?, Node.shape]
  · obtain ⟨h₁read, -, h₁static, -⟩ := tryModifier_reads (by decide) hh hu
    have hbehind : h.isStatic = false → (c.next s.skip).kind.isPrivateName ∨
        (c.next s.skip).kind = .punct .star ∧ (c.next s.skip.skip).kind.isPrivateName := by
      intro hstatic
      simpa [hn, Kind.isPrivateName] using (startsPrivateElement_cases (hs hstatic)).2
    rcases ht with ⟨-, h₂, v, hv, ht⟩ | ⟨hb, ht⟩
    · obtain ⟨h₂read, -, h₂static⟩ := asyncHead_reads h₁read he hv
      refine elementRest_reads hg hd h₂read ?_ ht
      intro hstatic hkey
      have hbehind := hbehind (h₁static ▸ h₂static ▸ hstatic)
      simp only [asyncHead, bind_eq_ok, pure_eq_ok] at hv
      obtain ⟨_, w, hw, rfl, rfl⟩ := hv
      obtain ⟨-, -, rfl⟩ | ⟨-, hn', -⟩ := tryModifier_next hu hkey
      · rcases asyncStar_next hw with rfl | ⟨hstar, rfl⟩
        · exact hbehind.imp_right fun h => Or.inr h.1
        · rcases hbehind with h | h
          · simp [hstar, Kind.isPrivateName] at h
          · exact Or.inl h.2
      · exact absurd hn hn'
    · refine elementRest_reads hg hd h₁read ?_ ht
      intro _ hkey
      rcases tryModifier_next hu hkey with ⟨hb', -, -⟩ | ⟨-, hn', -⟩
      · exact absurd hb' hb
      · exact absurd hn hn'

theorem extendedElement_reads (hg : g.Sound) (hd : c.dialect = .withPrivate) (hh : h.Read c r s)
    (hk : h.key = none) (hm : h.modifiers = .absent)
    (hs : h.isStatic = false → startsPrivateElement c s = .ok true s)
    (ht : g.extendedElement h c s = .ok n t) : c.Reads r [.member c n] t := by
  have hcases := fun hstatic => (startsPrivateElement_cases (hs hstatic)).2
  simp only [extendedElement, bind_eq_ok, accept_eq_ok, ite_eq_ok, context_eq_ok, checkWord_eq_ok,
    Bool.and_eq_true] at ht
  obtain ⟨b, u, hu, ht⟩ := ht
  have hu' := hh.then (accept_reads (accept_eq_ok.2 hu))
  rcases hu with ⟨hn, rfl, rfl⟩ | ⟨hn, rfl, rfl⟩
  · simp only [true_and, not_true_eq_false, false_and, or_false] at ht
    refine elementRest_reads hg hd hu'.generator ?_ ht
    intro hstatic _
    exact Or.inl (by simpa [hn, Kind.isPrivateName] using hcases hstatic)
  · simp only [Bool.false_eq_true, false_and, not_false_eq_true, true_and, false_or] at ht
    obtain ⟨_, _, ⟨rfl, rfl⟩, _, _, ⟨rfl, rfl⟩, ⟨⟨he, hasync⟩, ht⟩ | ⟨-, h₁, v, hv, ht⟩⟩ := ht
    · exact asyncElement_reads hg hd (by simpa using he) hh hk (by simpa using hasync) hs ht
    · obtain ⟨h₁read, -, h₁static⟩ := accessorWord_reads hh hm hv
      refine elementRest_reads hg hd h₁read ?_ ht
      intro hstatic hkey
      have hcases := hcases (h₁static ▸ hstatic)
      rcases accessorWord_next hv hkey with ⟨hword, rfl⟩ | ⟨hword, rfl⟩
      · left
        rcases hword with hword | hword <;> simpa [hword, Kind.isPrivateName] using hcases
      · rcases hcases with h | h | h | h
        · exact absurd h.1 hn
        · exact Or.inl h
        · exact Or.inr (Or.inl h.1)
        · exact absurd h.1 (by simp [hword])

/-- A member that is neither static nor private is read by the plain rule from its start. -/
theorem privateDialectElement_reads (hg : g.Sound) (hd : c.dialect = .withPrivate)
    (ht : g.privateDialectElement c s = .ok n t) : c.Reads s [.member c n] t := by
  simp only [privateDialectElement, bind_eq_ok, peek_eq_ok, pending_eq_ok, ite_eq_ok,
    restore_eq_ok] at ht
  obtain ⟨_, _, ⟨rfl, rfl⟩, _, _, ⟨rfl, rfl⟩, ⟨b, h⟩, u, hu, ⟨hb, ht⟩ | ⟨hb, _, _, rfl, ht⟩⟩ := ht
  · obtain ⟨hread, -, -, -⟩ := tryModifier_reads (by decide) (Head.read_start _) hu
    obtain rfl := (tryModifier_key hu).2 hb
    have hstatic : Head.Read { Head.start (c.next s) with isStatic := true } c s u :=
      ⟨hread.reads, hread.key, hread.accessor, hread.since⟩
    exact extendedElement_reads hg hd hstatic rfl rfl (by simp) ht
  · rw [tryModifier_restore hu] at ht
    obtain ⟨p, v, hv, ⟨rfl, ht⟩ | ⟨-, ht⟩⟩ := ht
    · obtain ⟨rfl, -⟩ := startsPrivateElement_cases hv
      exact extendedElement_reads hg hd (Head.read_start _) rfl rfl (fun _ => hv) ht
    · simp only [startsPrivateElement, bind_eq_ok, peek_eq_ok, peekAt_eq_ok, pure_eq_ok] at hv
      obtain ⟨_, _, ⟨-, rfl⟩, _, _, ⟨-, rfl⟩, _, _, ⟨-, rfl⟩, -, rfl⟩ := hv
      refine plainElement_reads hg (fun _ h' u' hu' => ?_) ht
      rw [hu] at hu'
      cases hu'
      exact hb rfl

end Grammar

end JsClass
