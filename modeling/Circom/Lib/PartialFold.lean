import Mathlib.Data.List.Forall2

/-!
# Loops that can fail

The rules for a loop over a list whose body returns an `Option`: what each round keeps, given the items
that are still to come, the whole loop keeps, and a map of a body that never fails never fails.
-/

namespace Circom.Lib

variable {α β σ : Type*}

/-- The invariant may mention the items that are left. -/
theorem foldlM_invariant {f : σ → α → Option σ} (inv : List α → σ → Prop)
    (step : ∀ a l s, inv (a :: l) s → ∃ s', f s a = some s' ∧ inv l s') {l : List α} {s : σ}
    (h : inv l s) : ∃ s', l.foldlM f s = some s' ∧ inv [] s' := by
  induction l generalizing s with
  | nil => exact ⟨s, rfl, h⟩
  | cons a l ih =>
    obtain ⟨s', hf, hs'⟩ := step a l s h
    obtain ⟨s'', hl, hs''⟩ := ih hs'
    exact ⟨s'', by rw [List.foldlM_cons, hf]; exact hl, hs''⟩

/-- A loop whose result is known keeps the invariant in every round that was run. -/
theorem foldlM_preserves {f : σ → α → Option σ} (inv : List α → σ → Prop)
    (step : ∀ a l s s', inv (a :: l) s → f s a = some s' → inv l s') {l : List α} {s t : σ}
    (h : inv l s) (ht : l.foldlM f s = some t) : inv [] t := by
  induction l generalizing s with
  | nil => cases ht; exact h
  | cons a l ih =>
    rw [List.foldlM_cons] at ht
    obtain ⟨s', hf, hs'⟩ := Option.bind_eq_some_iff.mp ht
    exact ih (step a l s s' h hf) hs'

theorem foldlM_flatMap (f : σ → β → Option σ) (k : α → List β) (l : List α) (s : σ) :
    (l.flatMap k).foldlM f s = l.foldlM (fun s a => (k a).foldlM f s) s := by
  induction l generalizing s with
  | nil => rfl
  | cons a l ih =>
    rw [List.flatMap_cons, List.foldlM_append, List.foldlM_cons]
    exact bind_congr fun s' => ih s'

theorem foldlM_congr_mem {f f' : σ → α → Option σ} {l : List α}
    (h : ∀ a ∈ l, ∀ s, f s a = f' s a) (s : σ) : l.foldlM f s = l.foldlM f' s := by
  induction l generalizing s with
  | nil => rfl
  | cons a l ih =>
    rw [List.foldlM_cons, List.foldlM_cons, h a List.mem_cons_self]
    exact bind_congr fun s' => ih (fun b hb => h b (List.mem_cons_of_mem a hb)) s'

/-- A loop that ends has run every round. -/
theorem exists_round {f : σ → α → Option σ} {l : List α} {s t : σ} (h : l.foldlM f s = some t)
    {a : α} (ha : a ∈ l) : ∃ s' s'', f s' a = some s'' := by
  induction l generalizing s with
  | nil => cases ha
  | cons b l ih =>
    rw [List.foldlM_cons] at h
    obtain ⟨s', hs', hl⟩ := Option.bind_eq_some_iff.mp h
    rcases List.mem_cons.mp ha with rfl | ha
    · exact ⟨s, s', hs'⟩
    · exact ih hl ha

theorem foldlM_some (f : σ → α → σ) (l : List α) (s : σ) :
    l.foldlM (fun s a => some (f s a)) s = some (l.foldl f s) := by
  induction l generalizing s with
  | nil => rfl
  | cons a l ih => exact ih (f s a)

theorem exists_mapM {f : α → Option β} {P : α → β → Prop} {l : List α}
    (h : ∀ a ∈ l, ∃ b, f a = some b ∧ P a b) :
    ∃ bs, l.mapM f = some bs ∧ List.Forall₂ P l bs := by
  induction l with
  | nil => exact ⟨[], rfl, .nil⟩
  | cons a l ih =>
    obtain ⟨b, hb, hab⟩ := h a List.mem_cons_self
    obtain ⟨bs, hbs, hl⟩ := ih fun x hx => h x (List.mem_cons_of_mem a hx)
    exact ⟨b :: bs, by rw [List.mapM_cons, hb, hbs]; rfl, .cons hab hl⟩

theorem forall₂_of_mapM {f : α → Option β} {l : List α} {bs : List β} (h : l.mapM f = some bs) :
    List.Forall₂ (fun a b => f a = some b) l bs := by
  induction l generalizing bs with
  | nil => cases h; exact .nil
  | cons a l ih =>
    simp only [List.mapM_cons, Option.bind_eq_bind, Option.bind_eq_some_iff] at h
    obtain ⟨b, hb, bs', hbs, hr⟩ := h
    cases hr
    exact .cons hb (ih hbs)

theorem exists_of_forall₂_right {P : α → β → Prop} {l : List α} {bs : List β}
    (h : List.Forall₂ P l bs) {b : β} (hb : b ∈ bs) : ∃ a ∈ l, P a b := by
  induction h with
  | nil => cases hb
  | cons hab _ ih =>
    rcases List.mem_cons.mp hb with rfl | hb
    · exact ⟨_, List.mem_cons_self, hab⟩
    · obtain ⟨a, ha, hP⟩ := ih hb
      exact ⟨a, List.mem_cons_of_mem _ ha, hP⟩

theorem exists_of_forall₂_left {P : α → β → Prop} {l : List α} {bs : List β}
    (h : List.Forall₂ P l bs) {a : α} (ha : a ∈ l) : ∃ b ∈ bs, P a b :=
  exists_of_forall₂_right h.flip ha

theorem getElem?_of_forall₂ {P : α → β → Prop} {l : List α} {bs : List β} (h : List.Forall₂ P l bs)
    {i : ℕ} {a : α} (ha : l[i]? = some a) : ∃ b, bs[i]? = some b ∧ P a b := by
  induction h generalizing i with
  | nil => cases ha
  | cons hab _ ih =>
    cases i with
    | zero =>
      obtain rfl := Option.some.inj ha
      exact ⟨_, rfl, hab⟩
    | succ i => exact ih ha

theorem forall₂_set {P : α → β → Prop} {l : List α} {bs : List β} (h : List.Forall₂ P l bs) (i : ℕ)
    {a : α} {b : β} (hab : P a b) : List.Forall₂ P (l.set i a) (bs.set i b) := by
  induction h generalizing i with
  | nil => exact .nil
  | cons hcd h ih =>
    cases i with
    | zero => exact .cons hab h
    | succ i => exact .cons hcd (ih i)

theorem map_eq_of_forall₂ {γ : Type*} {P : α → β → Prop} {f : α → γ} {g : β → γ} {l : List α}
    {bs : List β} (h : List.Forall₂ P l bs) (hP : ∀ a b, P a b → g b = f a) :
    bs.map g = l.map f := by
  induction h with
  | nil => rfl
  | cons hab _ ih => rw [List.map_cons, List.map_cons, hP _ _ hab, ih]

/-- Composes two correspondences along the list in the middle. -/
theorem forall₂_comp {γ : Type*} {R : α → β → Prop} {S : α → γ → Prop} {T : β → γ → Prop}
    {as : List α} {bs : List β} {cs : List γ} (hR : List.Forall₂ R as bs) (hS : List.Forall₂ S as cs)
    (h : ∀ a b c, a ∈ as → R a b → S a c → T b c) : List.Forall₂ T bs cs := by
  induction hR generalizing cs with
  | nil =>
    cases hS
    exact List.Forall₂.nil
  | cons hab _ ih =>
    cases hS with
    | cons hac hS =>
      exact List.Forall₂.cons (h _ _ _ List.mem_cons_self hab hac)
        (ih hS fun a b c ha => h a b c (List.mem_cons_of_mem _ ha))

theorem foldlM_append_eq (f : α → List β) (l : List α) (bs : List β) :
    l.foldlM (fun bs a => some (bs ++ f a)) bs = some (bs ++ l.flatMap f) := by
  induction l generalizing bs with
  | nil => simp
  | cons a l ih =>
    rw [List.foldlM_cons]
    refine (ih (bs ++ f a)).trans ?_
    rw [List.flatMap_cons, List.append_assoc]

/-! ## What a computation returns -/

section Yields

variable {α β : Type} {P : α → Prop} {Q : β → Prop}

/-- Everything that the computation can return satisfies `P`. -/
def Yields (P : α → Prop) (x : Option α) : Prop := ∀ a, x = some a → P a

theorem yields_some {a : α} (h : P a) : Yields P (some a) := fun _ ha => Option.some.inj ha ▸ h

theorem yields_none : Yields P none := fun _ ha => by cases ha

theorem yields_true (x : Option α) : Yields (fun _ => True) x := fun _ _ => trivial

theorem Yields.bind {x : Option α} {f : α → Option β} (h : Yields P x) (hf : ∀ a, P a → Yields Q (f a)) :
    Yields Q (x >>= f) := by
  intro b hb
  obtain ⟨a, ha, hb⟩ := Option.bind_eq_some_iff.mp hb
  exact hf a (h a ha) b hb

theorem Yields.ite {c : Prop} [Decidable c] {x y : Option α} (hx : c → Yields P x) (hy : ¬ c → Yields P y) :
    Yields P (if c then x else y) := by
  by_cases h : c
  · rw [if_pos h]
    exact hx h
  · rw [if_neg h]
    exact hy h

theorem yields_foldlM {f : α → β → Option α} {l : List β} (h : ∀ a, P a → ∀ b ∈ l, Yields P (f a b)) {a : α}
    (ha : P a) : Yields P (l.foldlM f a) := by
  induction l generalizing a with
  | nil => exact yields_some ha
  | cons b l ih =>
    rw [List.foldlM_cons]
    exact (h a ha b List.mem_cons_self).bind fun a' ha' =>
      ih (fun a ha b hb => h a ha b (List.mem_cons_of_mem _ hb)) ha'

theorem yields_mapM {f : α → Option β} {l : List α} (h : ∀ a ∈ l, Yields Q (f a)) :
    Yields (fun bs => ∀ b ∈ bs, Q b) (l.mapM f) := by
  intro bs hbs b hb
  obtain ⟨a, ha, hf⟩ := exists_of_forall₂_right (forall₂_of_mapM hbs) hb
  exact h a ha b hf

end Yields

end Circom.Lib
