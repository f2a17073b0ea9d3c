import Mathlib.Logic.Relation

/-!
# Trees given by the children of a node

What occurs in a tree at any depth, the induction over the children of a node, and the rule for a search
that looks at a node and then at its children.
-/

namespace Circom.Lib

variable {α : Type*} {children : α → List α}

/-- `x` is `e`, a child of `e`, a child of one of these and so on. -/
def Occurs (children : α → List α) (x e : α) : Prop :=
  Relation.ReflTransGen (fun a b => a ∈ children b) x e

theorem Occurs.refl (x : α) : Occurs children x x := Relation.ReflTransGen.refl

theorem Occurs.of_mem {x c e : α} (h : Occurs children x c) (hc : c ∈ children e) :
    Occurs children x e := Relation.ReflTransGen.tail h hc

theorem Occurs.trans {x y z : α} (h : Occurs children x y) (h' : Occurs children y z) :
    Occurs children x z := Relation.ReflTransGen.trans h h'

/-- What occurs in `e` is `e` itself or occurs in one of its children. -/
theorem occurs_iff {x e : α} :
    Occurs children x e ↔ x = e ∨ ∃ c ∈ children e, Occurs children x c := by
  constructor
  · intro h
    cases h with
    | refl => exact Or.inl rfl
    | tail hx hc => exact Or.inr ⟨_, hc, hx⟩
  · rintro (rfl | ⟨c, hc, hx⟩)
    · exact Occurs.refl x
    · exact hx.of_mem hc

theorem forall_occurs_iff {p : α → Prop} {e : α} :
    (∀ x, Occurs children x e → p x) ↔
      p e ∧ ∀ c ∈ children e, ∀ x, Occurs children x c → p x := by
  constructor
  · intro h
    exact ⟨h e (Occurs.refl e), fun c hc x hx => h x (hx.of_mem hc)⟩
  · rintro ⟨he, hc⟩ x hx
    rcases occurs_iff.mp hx with rfl | ⟨c, hmem, hx⟩
    · exact he
    · exact hc c hmem x hx

/-- What a property gives for a node and hands on to its children holds everywhere. -/
theorem forall_occurs_of_hereditary {F p : α → Prop}
    (h : ∀ e, F e → p e ∧ ∀ c ∈ children e, F c) {e x : α} (he : F e) (hx : Occurs children x e) :
    p x := by
  have hF : F x := by
    induction hx using Relation.ReflTransGen.head_induction_on with
    | refl => exact he
    | head hc _ ih => exact (h _ ih).2 _ hc
  exact (h x hF).1

/-- The children of a node are smaller. -/
theorem children_induction [SizeOf α] (hsize : ∀ e, ∀ c ∈ children e, sizeOf c < sizeOf e)
    {motive : α → Prop} (step : ∀ e, (∀ c ∈ children e, motive c) → motive e) (e : α) :
    motive e := by
  have hall : ∀ n e, sizeOf e < n → motive e := by
    intro n
    induction n with
    | zero => exact fun e he => absurd he (Nat.not_lt_zero _)
    | succ n ih =>
      intro e he
      apply step
      intro c hc
      exact ih c (Nat.lt_of_lt_of_le (hsize e c hc) (Nat.le_of_lt_succ he))
  exact hall (sizeOf e + 1) e (Nat.lt_succ_self _)

/-- Induction with the hypothesis for everything that occurs below. -/
theorem occurs_induction [SizeOf α] (hsize : ∀ e, ∀ c ∈ children e, sizeOf c < sizeOf e)
    {motive : α → Prop}
    (step : ∀ e, (∀ c ∈ children e, ∀ x, Occurs children x c → motive x) → motive e) (e : α) :
    motive e := by
  have hall : ∀ x, Occurs children x e → motive x := by
    induction e using children_induction hsize with
    | step e ih =>
      intro x hx
      rcases occurs_iff.mp hx with rfl | ⟨c, hc, hx⟩
      · exact step x ih
      · exact ih c hc x hx
  exact hall e (Occurs.refl e)

/-- A search through the whole tree finds what occurs in it. -/
theorem search_eq_false_iff [SizeOf α] (hsize : ∀ e, ∀ c ∈ children e, sizeOf c < sizeOf e)
    {search test : α → Bool} (hsearch : ∀ e, search e = (test e || (children e).any search)) (e : α) :
    search e = false ↔ ∀ x, Occurs children x e → test x = false := by
  induction e using children_induction hsize with
  | step e ih =>
    rw [hsearch, Bool.or_eq_false_iff, List.any_eq_false, forall_occurs_iff]
    refine and_congr_right fun _ => forall_congr' fun c => forall_congr' fun hc => ?_
    rw [← ih c hc, Bool.not_eq_true]

end Circom.Lib
