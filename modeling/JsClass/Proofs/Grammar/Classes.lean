import JsClass.Grammar.Class
import JsClass.Proofs.Grammar.Members

/-! What the rules for classes read. The calls for a class stand between its opening and its end. -/
namespace JsClass

open Scope

namespace Parser

variable {α : Type} {c : Context} {s t : State} {a : α}

theorem inClassBody_eq_ok {p : Parser α} : inClassBody p c s = .ok a t ↔
    ∃ u, p c { s with scope := s.scope.enter } = .ok a u ∧
      ∃ scope, u.scope.exit = (.ok (), scope) ∧ { u with scope } = t := by
  cases h : p c { s with scope := s.scope.enter } with
  | ok b u =>
    simp only [inClassBody, h, bind_eq_ok, onScope_eq_ok, pure_eq_ok]
    constructor
    · rintro ⟨_, _, hexit, rfl, rfl⟩
      exact ⟨u, rfl, hexit⟩
    · rintro ⟨u, hu, hexit⟩
      cases hu
      exact ⟨(), t, hexit, rfl, rfl⟩
  | error e u => simp [inClassBody, h]

end Parser

namespace Grammar

open JsClass.Parser

variable {g : Grammar} {c : Context} {s t : State} {n : Node}

theorem className?_reads {isExpression : Bool} {name : Option Node}
    (h : className? isExpression c s = .ok name t) :
    c.Reads s (name.toList.map (.ordinary c)) t ∧ name.toList.flatMap Node.calls = [] := by
  simp only [className?, bind_eq_ok, peek_eq_ok, ite_eq_ok, reject_eq_ok, pure_eq_ok, and_false,
    or_false] at h
  obtain ⟨_, _, ⟨rfl, rfl⟩, ⟨-, i, u, hu, rfl, rfl⟩ | ⟨-, -, rfl, rfl⟩⟩ := h
  · exact ⟨ident_reads hu, rfl⟩
  · exact ⟨.rfl', rfl⟩

theorem classElement_reads (hg : g.Sound) {m : Option Node} (h : g.classElement c s = .ok m t) :
    c.Reads s (m.toList.map (.member c)) t := by
  simp only [classElement, bind_eq_ok, ite_eq_ok, context_eq_ok, pure_eq_ok] at h
  obtain ⟨_, u, hu, ⟨-, rfl, rfl⟩ | ⟨-, _, _, ⟨rfl, rfl⟩, h⟩⟩ := h
  · exact accept_reads hu
  · cases hd : c.dialect with
    | plain =>
      simp only [hd, bind_eq_ok, pure_eq_ok] at h
      obtain ⟨m, v, hv, rfl, rfl⟩ := h
      exact (accept_reads hu).trans (plainElement_reads hg (by simp [hd]) hv)
    | withPrivate =>
      simp only [hd, bind_eq_ok, pure_eq_ok] at h
      obtain ⟨m, v, hv, rfl, rfl⟩ := h
      exact (accept_reads hu).trans (privateDialectElement_reads hg hd hv)

/-- A class has one constructor at most, since the members remember whether there was one. -/
theorem classMembers_reads (hg : g.Sound) {members : List Node}
    (h : g.classMembers c s = .ok members t) :
    c.Reads s (members.map (.member c)) t ∧ members.countP Node.isConstructor ≤ 1 := by
  simp only [classMembers, bind_eq_ok] at h
  obtain ⟨_, u, hu, h⟩ := h
  have := collectFrom_induction (P := fun hasConstructor s members t =>
    c.Reads s (members.map (.member c)) t ∧
      members.countP Node.isConstructor + hasConstructor.toNat ≤ 1) ?_ ?_ h
  · obtain ⟨hreads, hcount⟩ := this
    exact ⟨(expect_reads hu).trans hreads, by simpa using hcount⟩
  · intro hasConstructor s members t hturn
    simp only [bind_eq_ok, ite_eq_ok, pure_eq_ok, atEnd_eq_ok, unexpectedNext_eq_ok, and_false,
      false_or, Turn.stop.injEq] at hturn
    obtain ⟨_, v, hv, ⟨-, rfl, rfl⟩ | ⟨-, _, _, -, -, m, w, -, h⟩⟩ := hturn
    · exact ⟨accept_reads hv, by simpa using Bool.toNat_le hasConstructor⟩
    · cases m <;> simp at h
  · intro hasConstructor s members y u rest t hturn ih
    simp only [bind_eq_ok, ite_eq_ok, pure_eq_ok, atEnd_eq_ok, unexpectedNext_eq_ok, and_false,
      false_or, reduceCtorEq, false_and] at hturn
    obtain ⟨_, v, hv, -, _, _, ⟨-, rfl⟩, -, m, w, hw, h⟩ := hturn
    have hm := (accept_reads hv).trans (classElement_reads hg hw)
    cases m with
    | none =>
      simp only [pure_eq_ok, Turn.more.injEq] at h
      obtain ⟨⟨rfl, rfl⟩, rfl⟩ := h
      exact ⟨hm.trans ih.1, ih.2⟩
    | some m =>
      simp only [ite_eq_ok, reject_eq_ok, pure_eq_ok, Turn.more.injEq, and_false, false_or] at h
      obtain ⟨hc, ⟨rfl, rfl⟩, rfl⟩ := h
      refine ⟨hm.trans ih.1, ?_⟩
      have hcount := ih.2
      cases hasConstructor <;> cases hmc : m.isConstructor <;>
        simp_all

theorem superclass?_reads (hg : g.Sound) {n : Option Node} (h : g.superclass? c s = .ok n t) :
    c.Reads s (n.toList.map (.ordinary c)) t := by
  simp only [superclass?, bind_eq_ok, ite_eq_ok, pure_eq_ok] at h
  obtain ⟨_, u, hu, ⟨-, x, v, hx, rfl, rfl⟩ | ⟨-, rfl, rfl⟩⟩ := h
  · exact (acceptKeyword_reads hu).trans (hg.subscripted hx)
  · exact acceptKeyword_reads hu

/-- A class without its opening and its end. -/
theorem classRest_reads (hg : g.Sound) {isExpression : Bool}
    (h : g.classRest isExpression c s = .ok n t) :
    ∃ name superclass members, n.shape = .class_ name superclass members isExpression ∧
      c.Reads s (n.shape.parts c) t ∧ name.toList.flatMap Node.calls = [] ∧
      members.countP Node.isConstructor ≤ 1 := by
  simp only [classRest, within_apply, bind_eq_ok, pure_eq_ok] at h
  obtain ⟨x, u, hu, name, v, hv, superclass, w, hw, members, y, hy, rfl, rfl⟩ := h
  obtain ⟨hname, hcalls⟩ := className?_reads hv
  obtain ⟨hmembers, hcount⟩ := classMembers_reads hg hy
  have hsuper := superclass?_reads hg hw
  refine ⟨name, superclass, members, rfl, ?_, hcalls, hcount⟩
  exact (expectKeyword_reads hu).trans (hname.trans (hsuper.trans hmembers))

/-- What the parts of a class call stands behind its opening. -/
theorem calls_classParts {name superclass : Option Node} {members : List Node} {isExpression : Bool}
    (h : n.shape = .class_ name superclass members isExpression)
    (hname : name.toList.flatMap Node.calls = []) :
    n.calls = .enter :: ((n.shape.parts c).flatMap Part.calls ++ [.exit]) := by
  have hparts : (n.shape.parts c).flatMap Part.calls = name.toList.flatMap Node.calls
      ++ (superclass.toList.flatMap Node.calls ++ members.flatMap Node.memberCalls) := by
    rw [h]
    simp [Shape.parts, List.flatMap_map]
  rw [Node.calls_class h, hparts, hname]
  simp

/-- A class from its parts, which are read with another scope. -/
theorem class_of_parts {u v : State} {name superclass : Option Node} {members : List Node}
    {isExpression : Bool} (h : n.shape = .class_ name superclass members isExpression)
    (hparts : c.Reads u (n.shape.parts c) v) (hcount : members.countP Node.isConstructor ≤ 1)
    (hu : u.pending = s.pending) (hv : v.pending = t.pending)
    (scope : c.dialect = .withPrivate → run s.scope n.calls = (.ok (), t.scope)) :
    c.Reads s [.ordinary c n] t := by
  refine .single ⟨?_, hparts.formed⟩ scope ?_
  · show n.shape.IsOrdinary c
    rw [h]
    exact hcount
  · intro he
    obtain ⟨taken, htaken, hleaves⟩ := hparts.tokens he
    refine ⟨taken, by rw [← hu, ← hv, htaken], ?_⟩
    have hleaf : n.leaf? = none := by simp [Node.leaf?, h]
    rw [hleaves, Part.leaves_parts, Part.leaves, Node.leaves_eq n, hleaf]
    rfl

theorem class_reads (hg : g.Sound) {isExpression : Bool} (h : g.class_ isExpression c s = .ok n t) :
    c.Reads s [.ordinary c n] t := by
  simp only [class_, bind_eq_ok, context_eq_ok] at h
  obtain ⟨_, _, ⟨rfl, rfl⟩, h⟩ := h
  cases hd : c.dialect with
  | plain =>
    simp only [hd] at h
    obtain ⟨name, superclass, members, hshape, hreads, -, hcount⟩ := classRest_reads hg h
    exact class_of_parts hshape hreads hcount rfl rfl (by simp [hd])
  | withPrivate =>
    simp only [hd, inClassBody_eq_ok] at h
    obtain ⟨u, hu, scope, hexit, rfl⟩ := h
    obtain ⟨name, superclass, members, hshape, hreads, hname, hcount⟩ := classRest_reads hg hu
    refine class_of_parts hshape hreads hcount rfl rfl fun _ => ?_
    rw [calls_classParts hshape hname]
    have hrun := hreads.scope hd
    show run s.scope.enter _ = _
    rw [run_append hrun]
    simp [run, Call.apply, hexit]

end Grammar

end JsClass
