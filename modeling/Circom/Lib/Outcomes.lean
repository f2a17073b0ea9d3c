import Mathlib.Data.Nat.Notation
import Mathlib.Data.List.Forall2

/-!
# Outcomes of computations with a state and errors

A computation from a state ends in a value with a new state, or with an error. `Ensures` says what holds in the
first case and which errors are admissible in the second; the rules follow the combinators of the monad.
-/

namespace Circom.Lib

variable {σ ε α β : Type} {s : σ} {E : ε → Prop}

/-- From the state `s` the computation ends with the property `Q`, or with an admissible error. -/
def Ensures (x : StateT σ (Except ε) α) (s : σ) (Q : α → σ → Prop) (E : ε → Prop) : Prop :=
  match x.run s with
  | .ok (a, t) => Q a t
  | .error e => E e

theorem ensures_iff {x : StateT σ (Except ε) α} {Q : α → σ → Prop} :
    Ensures x s Q E ↔
      (∀ a t, x.run s = .ok (a, t) → Q a t) ∧ ∀ e, x.run s = .error e → E e := by
  unfold Ensures
  cases x.run s with
  | error e => exact ⟨fun h => ⟨fun _ _ h => (by cases h), fun _ he => by cases he; exact h⟩, fun h => h.2 e rfl⟩
  | ok r => exact ⟨fun h => ⟨fun _ _ he => by cases he; exact h, fun _ h => (by cases h)⟩, fun h => h.1 _ _ rfl⟩

/-- Without admissible errors the computation ends in a value. -/
theorem Ensures.exists_ok {x : StateT σ (Except ε) α} {Q : α → σ → Prop} (h : Ensures x s Q fun _ => False) :
    ∃ a t, x.run s = .ok (a, t) ∧ Q a t := by
  unfold Ensures at h
  cases hrun : x.run s with
  | error e =>
    rw [hrun] at h
    exact h.elim
  | ok r =>
    rw [hrun] at h
    exact ⟨r.1, r.2, rfl, h⟩

theorem Ensures.mono {x : StateT σ (Except ε) α} {P Q : α → σ → Prop} {E' : ε → Prop}
    (h : Ensures x s P E) (hQ : ∀ a t, P a t → Q a t) (hE : ∀ e, E e → E' e) : Ensures x s Q E' :=
  ensures_iff.mpr ⟨fun a t hx => hQ a t ((ensures_iff.mp h).1 a t hx),
    fun e hx => hE e ((ensures_iff.mp h).2 e hx)⟩

theorem Ensures.imp {x : StateT σ (Except ε) α} {P Q : α → σ → Prop} (h : Ensures x s P E)
    (hQ : ∀ a t, P a t → Q a t) : Ensures x s Q E := h.mono hQ fun _ h => h

theorem Ensures.bind {x : StateT σ (Except ε) α} {f : α → StateT σ (Except ε) β} {P : α → σ → Prop}
    {Q : β → σ → Prop} (hx : Ensures x s P E) (hf : ∀ a t, P a t → Ensures (f a) t Q E) :
    Ensures (x >>= f) s Q E := by
  unfold Ensures at hx
  rcases hrun : x.run s with e | ⟨a, t⟩
  · rw [hrun] at hx
    have hbind : (x >>= f).run s = .error e := by
      rw [StateT.run_bind, hrun]
      rfl
    rw [Ensures, hbind]
    exact hx
  · rw [hrun] at hx
    have hbind : (x >>= f).run s = (f a).run t := by
      rw [StateT.run_bind, hrun]
      rfl
    rw [Ensures, hbind]
    exact hf a t hx

theorem ensures_pure {a : α} {Q : α → σ → Prop} (h : Q a s) :
    Ensures (pure a : StateT σ (Except ε) α) s Q E := h

theorem ensures_get_bind {f : σ → StateT σ (Except ε) β} {Q : β → σ → Prop} (h : Ensures (f s) s Q E) :
    Ensures (get >>= f) s Q E := h

theorem ensures_set {t : σ} {Q : PUnit → σ → Prop} (h : Q ⟨⟩ t) :
    Ensures (set t : StateT σ (Except ε) PUnit) s Q E := h

theorem ensures_modify {f : σ → σ} {Q : PUnit → σ → Prop} (h : Q ⟨⟩ (f s)) :
    Ensures (modify f : StateT σ (Except ε) PUnit) s Q E := h

theorem ensures_throw {e : ε} {Q : α → σ → Prop} (h : E e) :
    Ensures (throw e : StateT σ (Except ε) α) s Q E := h

theorem ensures_lift {x : Except ε α} {Q : α → σ → Prop} (hok : ∀ a, x = .ok a → Q a s)
    (herror : ∀ e, x = .error e → E e) : Ensures (liftM x : StateT σ (Except ε) α) s Q E := by
  cases x with
  | error e => exact herror e rfl
  | ok a => exact hok a rfl

theorem Ensures.ite {c : Prop} [Decidable c] {x y : StateT σ (Except ε) α} {Q : α → σ → Prop}
    (hx : c → Ensures x s Q E) (hy : ¬ c → Ensures y s Q E) : Ensures (if c then x else y) s Q E := by
  by_cases hc : c
  · rw [if_pos hc]
    exact hx hc
  · rw [if_neg hc]
    exact hy hc

/-!
## Computations that can fail with an error

Taking the result of a sequence of `Except` computations apart, and lists whose elements correspond.
-/

variable {α β ε : Type}

theorem bind_eq_ok {x : Except ε α} {f : α → Except ε β} {b : β} (h : (x >>= f) = .ok b) :
    ∃ a, x = .ok a ∧ f a = .ok b := by
  cases x with
  | error e => cases h
  | ok a => exact ⟨a, rfl, h⟩

theorem bind_eq_error {x : Except ε α} {f : α → Except ε β} {e : ε}
    (h : (x >>= f) = .error e) : x = .error e ∨ ∃ a, x = .ok a ∧ f a = .error e := by
  cases x with
  | error e' =>
    cases h
    exact Or.inl rfl
  | ok a => exact Or.inr ⟨a, rfl, h⟩

theorem bind_ne_error {x : Except ε α} {f : α → Except ε β} {e : ε} (hx : x ≠ .error e)
    (hf : ∀ a, x = .ok a → f a ≠ .error e) : (x >>= f) ≠ .error e := by
  intro h
  rcases bind_eq_error h with h | ⟨a, ha, h⟩
  · exact hx h
  · exact hf a ha h

theorem ok_ne_error {a : α} {e : ε} : (.ok a : Except ε α) ≠ .error e := fun h => by cases h

/-! ## Extension -/

/-- The second computation returns what the first one returns. -/
def Extends (x y : Except ε α) : Prop := ∀ a, x = .ok a → y = .ok a

theorem Extends.refl (x : Except ε α) : Extends x x := fun _ h => h

theorem Extends.error {e : ε} {y : Except ε α} : Extends (.error e) y := fun _ h => by cases h

theorem Extends.bind {x y : Except ε α} {f g : α → Except ε β} (h : Extends x y)
    (hf : ∀ a, Extends (f a) (g a)) : Extends (x >>= f) (y >>= g) := by
  intro b hb
  obtain ⟨a, ha, hb⟩ := bind_eq_ok hb
  rw [h a ha]
  exact hf a b hb

theorem Extends.ite {c : Prop} [Decidable c] {x y x' y' : Except ε α} (h : Extends x y)
    (h' : Extends x' y') : Extends (if c then x else x') (if c then y else y') := by
  by_cases hc : c
  · rw [if_pos hc, if_pos hc]
    exact h
  · rw [if_neg hc, if_neg hc]
    exact h'

/-! ## Corresponding lists -/

theorem forall₂_mem_left {α β : Type*} {R : α → β → Prop} {l : List α} {l' : List β}
    (h : List.Forall₂ R l l') {a : α} (ha : a ∈ l) : ∃ b ∈ l', R a b := by
  induction h with
  | nil => cases ha
  | cons hab _ ih =>
    rcases List.mem_cons.mp ha with rfl | ha
    · exact ⟨_, List.mem_cons_self, hab⟩
    · obtain ⟨b, hb, hR⟩ := ih ha
      exact ⟨b, List.mem_cons_of_mem _ hb, hR⟩

theorem forall₂_mem_right {α β : Type*} {R : α → β → Prop} {l : List α} {l' : List β}
    (h : List.Forall₂ R l l') {b : β} (hb : b ∈ l') : ∃ a ∈ l, R a b := by
  obtain ⟨a, ha, hR⟩ := forall₂_mem_left (List.Forall₂.flip h) hb
  exact ⟨a, ha, hR⟩

/-!
## Computations that record events

A computation with a state that may fail and whose run is observed through the events it emits. A failure keeps
the state and the events before it. `Holds` says what a run does whose events are all regular: each of them is
right, and the computation ends as it should. A property of every run is thus reduced to the runs in which no step
takes a wrong turn, and the events say where a turn is taken.
-/

/-- From a state: the outcome, the state at the end and the events of the run. -/
def Traced (σ ω ε α : Type) := σ → Except ε α × σ × List ω

variable {σ ω ε α β : Type}

namespace Traced

protected def bind (x : Traced σ ω ε α) (f : α → Traced σ ω ε β) : Traced σ ω ε β := fun s =>
  match x s with
  | (.ok a, t, events) => ((f a t).1, (f a t).2.1, events ++ (f a t).2.2)
  | (.error e, t, events) => (.error e, t, events)

instance : Monad (Traced σ ω ε) where
  pure a := fun s => (.ok a, s, [])
  bind := Traced.bind

def fail (e : ε) : Traced σ ω ε α := fun s => (.error e, s, [])

def get : Traced σ ω ε σ := fun s => (.ok s, s, [])

def modify (f : σ → σ) : Traced σ ω ε Unit := fun s => (.ok (), f s, [])

def emit (event : ω) : Traced σ ω ε Unit := fun s => (.ok (), s, [event])

variable {regular right : ω → Prop}

/-- From the state `s`, in a run whose events are all regular: the events are right, and the computation ends
with the property `Q`, or with an admissible failure. -/
def Holds (regular right : ω → Prop) (x : Traced σ ω ε α) (s : σ) (Q : α → σ → Prop) (E : ε → Prop) : Prop :=
  (∀ event ∈ (x s).2.2, regular event) → (∀ event ∈ (x s).2.2, right event) ∧
    match (x s).1 with
    | .ok a => Q a (x s).2.1
    | .error e => E e

variable {s : σ} {Q : α → σ → Prop} {E : ε → Prop}

theorem Holds.imp {x : Traced σ ω ε α} {P : α → σ → Prop} (h : Holds regular right x s P E)
    (hQ : ∀ a t, P a t → Q a t) : Holds regular right x s Q E := by
  intro hregular
  obtain ⟨hright, hend⟩ := h hregular
  refine ⟨hright, ?_⟩
  revert hend
  cases (x s).1 with
  | error e => exact id
  | ok a => exact hQ a _

theorem Holds.bind {x : Traced σ ω ε α} {f : α → Traced σ ω ε β} {P : α → σ → Prop} {Q : β → σ → Prop}
    (hx : Holds regular right x s P E) (hf : ∀ a t, P a t → Holds regular right (f a) t Q E) :
    Holds regular right (x >>= f) s Q E := by
  show Holds regular right (x.bind f) s Q E
  unfold Holds Traced.bind at *
  rcases hrun : x s with ⟨e | a, t, events⟩
  · rw [hrun] at hx
    exact hx
  · rw [hrun] at hx
    intro hregular
    obtain ⟨hregular, hregular'⟩ := List.forall_mem_append.mp hregular
    obtain ⟨hright, hP⟩ := hx hregular
    obtain ⟨hright', hQ⟩ := hf a t hP hregular'
    exact ⟨List.forall_mem_append.mpr ⟨hright, hright'⟩, hQ⟩

/-- Without events the end is what counts. -/
theorem Holds.silent {x : Traced σ ω ε α} {a : α} {t : σ} (hx : x s = (.ok a, t, [])) (h : Q a t) :
    Holds regular right x s Q E := by
  unfold Holds
  rw [hx]
  exact fun _ => ⟨fun _ he => (by cases he), h⟩

theorem Holds.fail {e : ε} (h : E e) : Holds regular right (Traced.fail e : Traced σ ω ε α) s Q E :=
  fun _ => ⟨fun _ he => (by cases he), h⟩

theorem Holds.emit {event : ω} {Q : Unit → σ → Prop} (h : regular event → right event ∧ Q () s) :
    Holds regular right (Traced.emit event : Traced σ ω ε Unit) s Q E := by
  intro hregular
  obtain ⟨hright, hQ⟩ := h (hregular event (List.mem_singleton.mpr rfl))
  exact ⟨List.forall_mem_singleton.mpr hright, hQ⟩

end Traced

end Circom.Lib
