import JsClass.Proofs.Writing.Statements

/-!
How often a problem is recorded. Tokens stand one behind the other, and each has one problem at
most. It is recorded once, except that the strictest policy checks the name of a shorthand property
both as a key and as a value.
-/
namespace JsClass

theorem ReservedPolicy.nameChecks_eq (policy : ReservedPolicy) :
    policy.nameChecks = if policy = .never then 2 else 1 := by
  cases policy <;> rfl

namespace Noted

variable {policy : ReservedPolicy} {t : Token} {ts : List Token} {ps : List Position}
  {d e : Diagnostic} {ds : List Diagnostic}

/-- Shorthand properties and problems are at tokens. -/
theorem exists_token (h : Noted policy ts ps ds) :
    (∀ p ∈ ps, ∃ t ∈ ts, t.pos = p) ∧ ∀ d ∈ ds, ∃ t ∈ ts, t.pos = d.pos := by
  induction h with
  | nil => simp
  | silent _ ih =>
    simp only [List.exists_mem_cons_iff]
    exact ⟨fun p hp => .inr (ih.1 p hp), fun d hd => .inr (ih.2 d hd)⟩
  | problem pos _ ih =>
    simp only [List.exists_mem_cons_iff, List.forall_mem_cons]
    exact ⟨fun p hp => .inr (ih.1 p hp), .inl pos.symm, fun d hd => .inr (ih.2 d hd)⟩
  | shorthand name _ ih =>
    simp only [List.exists_mem_cons_iff, List.forall_mem_cons, List.forall_mem_append]
    refine ⟨⟨.inl trivial, fun p hp => .inr (ih.1 p hp)⟩, fun d hd => .inl ?_,
      fun d hd => .inr (ih.2 d hd)⟩
    obtain rfl | ⟨d', hpos, rfl⟩ := name
    · cases hd
    · rw [List.eq_of_mem_replicate hd, hpos]

/-- Nothing that is noted of later tokens is at an earlier one. -/
theorem apart (h : Noted policy ts ps ds) (hts : (t :: ts).Pairwise fun t u => t.pos.lt u.pos) :
    t.pos ∉ ps ∧ ∀ d ∈ ds, d.pos ≠ t.pos := by
  have hne : ∀ u ∈ ts, u.pos ≠ t.pos := by
    intro u hu hpos
    have hlt := List.rel_of_pairwise_cons hts hu
    rw [hpos] at hlt
    exact Position.not_lt_self _ hlt
  refine ⟨fun hp => ?_, fun d hd hpos => ?_⟩
  · obtain ⟨u, hu, hpos⟩ := h.exists_token.1 _ hp
    exact hne u hu hpos
  · obtain ⟨u, hu, hu'⟩ := h.exists_token.2 d hd
    exact hne u hu (hu'.trans hpos)

/-- At one position there is one problem. -/
theorem eq_of_pos (h : Noted policy ts ps ds) (hts : ts.Pairwise fun t u => t.pos.lt u.pos)
    (hd : d ∈ ds) (he : e ∈ ds) (hpos : e.pos = d.pos) : e = d := by
  induction h with
  | nil => cases hd
  | silent _ ih => exact ih hts.of_cons hd he
  | problem pos h ih =>
    have hapart := (h.apart hts).2
    rcases List.mem_cons.1 hd with rfl | hd' <;> rcases List.mem_cons.1 he with rfl | he'
    · rfl
    · exact absurd (hpos.trans pos) (hapart e he')
    · exact absurd (hpos.symm.trans pos) (hapart d hd')
    · exact ih hts.of_cons hd' he'
  | shorthand name h ih =>
    have hapart := (h.apart hts).2
    obtain rfl | ⟨d', pos, rfl⟩ := name
    · exact ih hts.of_cons hd he
    · rcases List.mem_append.1 hd with hd | hd <;> rcases List.mem_append.1 he with he | he
      · rw [List.eq_of_mem_replicate hd, List.eq_of_mem_replicate he]
      · rw [List.eq_of_mem_replicate hd] at hpos
        exact absurd (hpos.trans pos) (hapart e he)
      · rw [List.eq_of_mem_replicate he] at hpos
        exact absurd (hpos.symm.trans pos) (hapart d hd)
      · exact ih hts.of_cons hd he

/-- A problem is noted as often as the name of a shorthand property is checked if it is at one, and
else once. -/
theorem count_eq (h : Noted policy ts ps ds) (hts : ts.Pairwise fun t u => t.pos.lt u.pos)
    (hd : d ∈ ds) : ds.count d = if d.pos ∈ ps then policy.nameChecks else 1 := by
  induction h with
  | nil => cases hd
  | silent _ ih => exact ih hts.of_cons hd
  | @problem t ts ps d' ds pos h ih =>
    obtain ⟨hps, hapart⟩ := h.apart hts
    rcases List.mem_cons.1 hd with rfl | hd
    · have hnot : d ∉ ds := fun hd => hapart d hd pos
      rw [List.count_cons_self, List.count_eq_zero.2 hnot, pos, if_neg hps]
    · have hne : d' ≠ d := fun heq => hapart d hd (heq ▸ pos)
      rw [List.count_cons_of_ne hne, ih hts.of_cons hd]
  | @shorthand t ts ps ds es name h ih =>
    obtain ⟨hps, hapart⟩ := h.apart hts
    rw [List.count_append]
    rcases List.mem_append.1 hd with hname | hrest
    · obtain rfl | ⟨d', pos, rfl⟩ := name
      · cases hname
      · obtain rfl := List.eq_of_mem_replicate hname
        have hnot : d ∉ es := fun hmem => hapart d hmem pos
        rw [List.count_replicate_self, List.count_eq_zero.2 hnot, pos,
          if_pos List.mem_cons_self, Nat.add_zero]
    · have hnot : d ∉ ds := by
        intro hmem
        obtain rfl | ⟨d', pos, rfl⟩ := name
        · cases hmem
        · obtain rfl := List.eq_of_mem_replicate hmem
          exact hapart d hrest pos
      have hmem : d.pos ∈ t.pos :: ps ↔ d.pos ∈ ps :=
        List.mem_cons.trans (or_iff_right (hapart d hrest))
      rw [List.count_eq_zero.2 hnot, ih hts.of_cons hrest, Nat.zero_add]
      simp only [hmem]

end Noted

/-- A problem that was recorded is the only one at its position. It is there once, or twice where
reserved words are never allowed and a shorthand property is at that position. -/
theorem recorded_count {options : Options} {source : String} {parsed : Parsed}
    (h : parse options source = .ok parsed) {d : Diagnostic} (hd : d ∈ parsed.reported) :
    (∀ e ∈ parsed.reported, e.pos = d.pos → e = d) ∧ parsed.reported.count d =
      if options.reserved = .never ∧ d.pos ∈ shorthands parsed.program.body then 2 else 1 := by
  obtain ⟨s, t, hs, -⟩ := parse_eq_ok h
  obtain ⟨es, hperm, hnoted⟩ := (accounts_of_parse hs h).noted
  have hsorted := tokens_pairwise_lt hs
  refine ⟨fun e he => hnoted.eq_of_pos hsorted (hperm.mem_iff.1 hd) (hperm.mem_iff.1 he), ?_⟩
  rw [hperm.count_eq, hnoted.count_eq hsorted (hperm.mem_iff.1 hd), ReservedPolicy.nameChecks_eq]
  by_cases hnever : options.reserved = .never <;> simp [hnever]

/-- The word comes as a shorthand property and in the body of an accessor that has a problem too. -/
def reservedPropertiesText : String := "(\x7benum, get a(b) \x7b return enum \x7d\x7d)"

theorem reservedPropertiesText_counts : ∃ parsed,
    parse ⟨.latest, .never, .script⟩ reservedPropertiesText = .ok parsed ∧
    parsed.reported = [⟨.reservedWord "enum", ⟨1, 3⟩⟩, ⟨.reservedWord "enum", ⟨1, 3⟩⟩,
      ⟨.reservedWord "enum", ⟨1, 27⟩⟩, ⟨.getterParams, ⟨1, 14⟩⟩] ∧
    ∀ d ∈ parsed.reported, (∀ e ∈ parsed.reported, e.pos = d.pos → e = d) ∧
      parsed.reported.count d = if d.pos = ⟨1, 3⟩ then 2 else 1 := by
  have hread : (parse ⟨.latest, .never, .script⟩ reservedPropertiesText).toOption.map
      (fun parsed => (parsed.reported, shorthands parsed.program.body)) =
      some ([⟨.reservedWord "enum", ⟨1, 3⟩⟩, ⟨.reservedWord "enum", ⟨1, 3⟩⟩,
        ⟨.reservedWord "enum", ⟨1, 27⟩⟩, ⟨.getterParams, ⟨1, 14⟩⟩], [⟨1, 3⟩]) := by
    decide +kernel
  cases hp : parse ⟨.latest, .never, .script⟩ reservedPropertiesText with
  | error e => simp [hp, Except.toOption] at hread
  | ok parsed =>
    simp only [hp, Except.toOption, Option.map_some, Option.some.injEq, Prod.mk.injEq] at hread
    refine ⟨parsed, rfl, hread.1, fun d hd => ?_⟩
    obtain ⟨hone, hcount⟩ := recorded_count hp hd
    refine ⟨hone, ?_⟩
    simpa [hread.2] using hcount

/-- The name of a shorthand property, checked twice, is one problem and recorded as two. -/
theorem shorthand_recorded_twice : ¬ ∀ (options : Options) (source : String) (parsed : Parsed),
    parse options source = .ok parsed → parsed.reported.Nodup := by
  intro h
  have hread : (parse ⟨.latest, .never, .module⟩ "(\x7benum\x7d)").toOption.map (·.reported) =
      some [⟨.reservedWord "enum", ⟨1, 3⟩⟩, ⟨.reservedWord "enum", ⟨1, 3⟩⟩] := by
    decide +kernel
  cases hp : parse ⟨.latest, .never, .module⟩ "(\x7benum\x7d)" with
  | error e => simp [hp, Except.toOption] at hread
  | ok parsed =>
    simp only [hp, Except.toOption, Option.map_some, Option.some.injEq] at hread
    have hnodup := h _ _ parsed hp
    rw [hread] at hnodup
    revert hnodup
    decide

end JsClass
