import JsClass.Grammar.Repeat
import JsClass.Proofs.Grammar.Reads

/-! Repetitions, by induction over their turns. -/
namespace JsClass

/-- What a rule reads in a context. -/
abbrev Context.Reads (c : Context) (s : State) (ps : List Part) (t : State) : Prop :=
  JsClass.Reads c.dialect c.finish s ps t

namespace Parser

variable {σ α : Type} {c : Context} {s t : State}

/-- The items of a turn. -/
def Turn.items : Turn σ α → List α
  | .stop items | .more items _ => items

theorem collectFrom_induction {turn : σ → Parser (Turn σ α)}
    {P : σ → State → List α → State → Prop}
    (stop : ∀ {x s items t}, turn x c s = .ok (.stop items) t → P x s items t)
    (more : ∀ {x s items y u rest t}, turn x c s = .ok (.more items y) u → P y u rest t →
      P x s (items ++ rest) t)
    {turns : Nat} {x : σ} {items : List α} (h : collectFrom turn turns x c s = .ok items t) :
    P x s items t := by
  induction turns generalizing x s items with
  | zero => simp [collectFrom] at h
  | succ turns ih =>
    simp only [collectFrom, bind_eq_ok] at h
    obtain ⟨r, u, hr, h⟩ := h
    cases r with
    | stop found =>
      simp only [pure_eq_ok] at h
      obtain ⟨rfl, rfl⟩ := h
      exact stop hr
    | more found y =>
      simp only [bind_eq_ok, pure_eq_ok] at h
      obtain ⟨rest, v, hv, rfl, rfl⟩ := h
      exact more hr (ih hv)

theorem extend_induction {step : α → Parser (Option α)} {P : α → State → α → State → Prop}
    (done : ∀ {x s t}, step x c s = .ok none t → P x s x t)
    (more : ∀ {x s y u z t}, step x c s = .ok (some y) u → P y u z t → P x s z t)
    {turns : Nat} {x y : α} (h : extend step turns x c s = .ok y t) : P x s y t := by
  induction turns generalizing x s with
  | zero => simp [extend] at h
  | succ turns ih =>
    simp only [extend, bind_eq_ok] at h
    obtain ⟨r, u, hr, h⟩ := h
    cases r with
    | none =>
      simp only [pure_eq_ok] at h
      obtain ⟨rfl, rfl⟩ := h
      exact done hr
    | some z => exact more hr (ih h)

theorem collectFrom_reads {turn : σ → Parser (Turn σ α)} {view : α → List Part}
    (hturn : ∀ {x s r t}, turn x c s = .ok r t → c.Reads s (r.items.flatMap view) t)
    {turns : Nat} {x : σ} {items : List α} (h : collectFrom turn turns x c s = .ok items t) :
    c.Reads s (items.flatMap view) t := by
  refine collectFrom_induction (P := fun _ s items t => c.Reads s (items.flatMap view) t)
    (fun hr => hturn hr) ?_ h
  intro _ s found _ u rest t hr ih
  rw [List.flatMap_append]
  exact (hturn hr).trans ih

theorem collect_reads {turn : Parser (Turn Unit α)} {view : α → List Part}
    (hturn : ∀ {s r t}, turn c s = .ok r t → c.Reads s (r.items.flatMap view) t)
    {turns : Nat} {items : List α} (h : collect turns turn c s = .ok items t) :
    c.Reads s (items.flatMap view) t :=
  collectFrom_reads hturn h

theorem separated_reads {item : Parser α} {view : α → List Part}
    (hitem : ∀ {s x t}, item c s = .ok x t → c.Reads s (view x) t)
    {turns : Nat} {close : Punct} {items : List α}
    (h : separated turns close item c s = .ok items t) : c.Reads s (items.flatMap view) t := by
  simp only [separated, bind_eq_ok, ite_eq_ok, pure_eq_ok] at h
  obtain ⟨_, u, hu, ⟨-, rfl, rfl⟩ | ⟨-, first, v, hv, rest, w, hw, rfl, rfl⟩⟩ := h
  · exact accept_reads hu
  · rw [List.flatMap_cons]
    refine (accept_reads hu).trans ((hitem hv).trans (collect_reads ?_ hw))
    intro s r t hr
    simp only [bind_eq_ok, ite_eq_ok, pure_eq_ok] at hr
    obtain ⟨_, u, hu, ⟨-, rfl, rfl⟩ | ⟨-, _, v, hv, _, w, hw,
      ⟨-, rfl, rfl⟩ | ⟨-, x, _, hx, rfl, rfl⟩⟩⟩ := hr
    · exact accept_reads hu
    · exact (accept_reads hu).trans ((expect_reads hv).trans (accept_reads hw))
    · have := (accept_reads hu).trans ((expect_reads hv).trans ((accept_reads hw).trans (hitem hx)))
      simpa [Turn.items] using this

end Parser

end JsClass
