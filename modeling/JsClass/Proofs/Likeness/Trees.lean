import JsClass.Proofs.Likeness.Values
import JsClass.Proofs.Syntax.PrivateNames

/-!
Alike trees, node by node. Trees that are alike come to the same tree when what the matching lets
differ is made the same on both sides.
-/
namespace JsClass

variable {m : Matching} {α β γ : Type} {R : α → β → Prop} {f : α → γ} {f' : β → γ}

section Lists

variable {xs zs : List α} {ys ws : List β} {x : Option α} {y : Option β}

theorem forall₂_single {a : α} {b : β} (h : R a b) : List.Forall₂ R [a] [b] := .cons h .nil

theorem forall₂_append (h : List.Forall₂ R xs ys) (h' : List.Forall₂ R zs ws) :
    List.Forall₂ R (xs ++ zs) (ys ++ ws) :=
  List.rel_append h h'

theorem forall₂_toList (h : Option.Rel R x y) : List.Forall₂ R x.toList y.toList := by
  cases h with
  | none => exact .nil
  | some h => exact forall₂_single h

theorem forall₂_somes {xs : List (Option α)} {ys : List (Option β)}
    (h : List.Forall₂ (Option.Rel R) xs ys) :
    List.Forall₂ R (xs.filterMap id) (ys.filterMap id) := by
  induction h with
  | nil => exact .nil
  | cons hxy _ ih =>
    cases hxy with
    | none => exact ih
    | some h => exact .cons h ih

theorem map_eq_of_forall₂ (h : List.Forall₂ R xs ys)
    (hf : ∀ x ∈ xs, ∀ y, R x y → f x = f' y) : xs.map f = ys.map f' := by
  induction h with
  | nil => rfl
  | cons hxy _ ih =>
    rw [List.forall_mem_cons] at hf
    rw [List.map_cons, List.map_cons, hf.1 _ hxy, ih hf.2]

theorem map_eq_of_rel (h : Option.Rel R x y) (hf : ∀ a ∈ x.toList, ∀ b, R a b → f a = f' b) :
    x.map f = y.map f' := by
  cases h with
  | none => rfl
  | some hxy => exact congrArg some (hf _ (List.mem_singleton.2 rfl) _ hxy)

theorem map_eq_of_somes {xs : List (Option α)} {ys : List (Option β)}
    (h : List.Forall₂ (Option.Rel R) xs ys)
    (hf : ∀ x ∈ xs.filterMap id, ∀ y, R x y → f x = f' y) :
    xs.map (·.map f) = ys.map (·.map f') :=
  map_eq_of_forall₂ h fun x hx _ hxy => map_eq_of_rel hxy fun a ha =>
    hf a (List.mem_filterMap.2 ⟨x, hx, Option.mem_toList.1 ha⟩)

end Lists

/-- The shape with its private word renamed, if it has one. -/
def Shape.renameWord (r : String → String) : Shape α → Shape α
  | .privateName word => .privateName (r word)
  | s => s

theorem Shape.renameWord_id (s : Shape α) : s.renameWord id = s := by
  cases s <;> rfl

theorem Shape.map_id (s : Shape α) : s.map id = s := by
  cases s <;> simp [Shape.map]

namespace Shape.Alike

variable {s : Shape α} {s' : Shape β}

theorem children (h : Shape.Alike m R s s') : List.Forall₂ R s.children s'.children := by
  cases h <;> simp only [Shape.children, Shape.fields, Field.children, Field.word, Field.ofKind,
    List.flatMap_cons, List.flatMap_nil, List.append_nil, List.nil_append] <;>
    grind [forall₂_append, forall₂_single, forall₂_toList, forall₂_somes, List.Forall₂.nil]

/-- Where both renamings take matched words to one word, and both functions take related children
to one value, the shapes come out the same. -/
theorem renameWord_map_eq {r r' : String → String} (h : Shape.Alike m R s s')
    (hword : ∀ {w w'}, m.word w w' → r w = r' w')
    (hf : ∀ x ∈ s.children, ∀ y, R x y → f x = f' y) :
    (s.map f).renameWord r = (s'.map f').renameWord r' := by
  cases h <;> simp only [Shape.map, Shape.renameWord, Shape.children, Shape.fields, Field.children,
    List.flatMap_cons, List.flatMap_nil, List.append_nil, List.mem_append, List.mem_singleton,
    List.not_mem_nil, or_imp, forall_and, forall_eq] at hf ⊢ <;>
    grind [map_eq_of_forall₂, map_eq_of_rel, map_eq_of_somes]

theorem map_eq (h : Shape.Alike m R s s') (hword : ∀ {w w'}, m.word w w' → w = w')
    (hf : ∀ x ∈ s.children, ∀ y, R x y → f x = f' y) : s.map f = s'.map f' := by
  have hrenamed : (s.map f).renameWord id = (s'.map f').renameWord id :=
    h.renameWord_map_eq hword hf
  rwa [Shape.renameWord_id, Shape.renameWord_id] at hrenamed

end Shape.Alike

namespace Node.Alike

variable {n n' : Node}

theorem walk (h : n.Alike m n') : List.Forall₂ (Node.Alike m) n.walk n'.walk := by
  induction n using Node.induction generalizing n' with
  | step n ih =>
    rw [Node.walk_eq, Node.walk_eq]
    refine .cons h ?_
    have hchildren : List.Forall₂ (Node.Alike m) n.children n'.children := h.shape.children
    -- child by child
    generalize n.children = ns at ih hchildren
    generalize n'.children = ns' at hchildren
    induction hchildren with
    | nil => exact .nil
    | cons hx _ hrest =>
      rw [List.forall_mem_cons] at ih
      exact forall₂_append (ih.1 hx) (hrest ih.2)

end Node.Alike

theorem nodes_pos {ns ns' : List Node} (h : List.Forall₂ (Node.Alike m) ns ns') :
    List.Forall₂ m.pos ((ns.flatMap Node.walk).map Node.pos)
      ((ns'.flatMap Node.walk).map Node.pos) := by
  rw [List.forall₂_map_left_iff, List.forall₂_map_right_iff]
  induction h with
  | nil => exact .nil
  | cons hnode _ ih => exact forall₂_append (hnode.walk.imp fun _ _ h => h.pos) ih

end JsClass
