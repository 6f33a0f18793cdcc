import Mathlib.Algebra.Order.Ring.Int
import Mathlib.Data.List.Basic

/-!
# Stateful computations that may fail

A failed computation keeps the state it had reached, as a method does that returns early through a mutable
reference. `wp` has one postcondition for each of the two outcomes.
-/

namespace AerOS.Lib

def Action (σ ε α : Type) : Type := σ → Except ε α × σ

namespace Action
variable {σ ε α β : Type}

protected def pure (a : α) : Action σ ε α := fun s => (.ok a, s)

protected def bind (x : Action σ ε α) (f : α → Action σ ε β) : Action σ ε β := fun s =>
  match x s with
  | (.ok a, s') => f a s'
  | (.error e, s') => (.error e, s')

instance : Monad (Action σ ε) where
  pure := Action.pure
  bind := Action.bind

def get : Action σ ε σ := fun s => (.ok s, s)

def modify (f : σ → σ) : Action σ ε Unit := fun s => (.ok (), f s)

def throw (e : ε) : Action σ ε α := fun s => (.error e, s)

/-- Goes on with `f` when `x` returns and with `g`, from the state it had reached, when it fails. -/
def attempt (x : Action σ ε α) (f : α → Action σ ε β) (g : ε → Action σ ε β) : Action σ ε β := fun s =>
  match x s with
  | (.ok a, s') => f a s'
  | (.error e, s') => g e s'

def forEach : List α → (α → Action σ ε Unit) → Action σ ε Unit
  | [], _ => pure ()
  | x :: xs, body => do
    body x
    forEach xs body

def wp (x : Action σ ε α) (ok : α → σ → Prop) (err : ε → σ → Prop) (s : σ) : Prop :=
  match x s with
  | (.ok a, s') => ok a s'
  | (.error e, s') => err e s'

variable {ok ok' : α → σ → Prop} {err err' : ε → σ → Prop} {s : σ}

@[simp] theorem wp_pure (a : α) : wp (pure a : Action σ ε α) ok err s ↔ ok a s := Iff.rfl

@[simp] theorem wp_get {ok : σ → σ → Prop} : wp (get : Action σ ε σ) ok err s ↔ ok s s := Iff.rfl

@[simp] theorem wp_modify (f : σ → σ) {ok : Unit → σ → Prop} :
    wp (modify f : Action σ ε Unit) ok err s ↔ ok () (f s) := Iff.rfl

@[simp] theorem wp_throw (e : ε) : wp (throw e : Action σ ε α) ok err s ↔ err e s := Iff.rfl

@[simp] theorem wp_bind (x : Action σ ε α) (f : α → Action σ ε β) {ok : β → σ → Prop} :
    wp (x >>= f) ok err s ↔ wp x (fun a s' => wp (f a) ok err s') err s := by
  change wp (Action.bind x f) ok err s ↔ _
  unfold wp Action.bind
  rcases x s with ⟨a | e, s'⟩ <;> rfl

@[simp] theorem wp_attempt (x : Action σ ε α) (f : α → Action σ ε β) (g : ε → Action σ ε β) {ok : β → σ → Prop} :
    wp (attempt x f g) ok err s ↔ wp x (fun a s' => wp (f a) ok err s') (fun e s' => wp (g e) ok err s') s := by
  unfold wp attempt
  rcases x s with ⟨a | e, s'⟩ <;> rfl

theorem wp_mono {x : Action σ ε α} (h : wp x ok err s) (hok : ∀ a s', ok a s' → ok' a s')
    (herr : ∀ e s', err e s' → err' e s') : wp x ok' err' s := by
  unfold wp at h ⊢
  cases run : x s with
  | mk result s' =>
    rw [run] at h
    cases result with
    | error e => exact herr e s' h
    | ok a => exact hok a s' h

theorem wp_of_ok {x : Action σ ε α} (h : wp x ok (fun _ _ => False) s) (hok : ∀ a s', ok a s' → ok' a s') :
    wp x ok' err s :=
  wp_mono h hok fun _ _ => False.elim

@[simp] theorem wp_true (x : Action σ ε α) : wp x (fun _ _ => True) (fun _ _ => True) s := by
  unfold wp
  split
  · trivial
  · trivial

theorem run_of_wp {x : Action σ ε α} (h : wp x ok err s) :
    (∃ a s', x s = (.ok a, s') ∧ ok a s') ∨ ∃ e s', x s = (.error e, s') ∧ err e s' := by
  unfold wp at h
  rcases run : x s with ⟨e | a, s'⟩
  · rw [run] at h
    exact .inr ⟨e, s', rfl, h⟩
  rw [run] at h
  exact .inl ⟨a, s', rfl, h⟩

theorem returns_of_wp {x : Action σ ε α} (h : wp x ok (fun _ _ => False) s) :
    ∃ a s', x s = (.ok a, s') ∧ ok a s' := by
  obtain run | ⟨_, _, _, absurd⟩ := run_of_wp h
  · exact run
  · exact absurd.elim

theorem state_of_wp {x : Action σ ε α} {P : σ → Prop} (h : wp x (fun _ s' => P s') (fun _ s' => P s') s) :
    P (x s).2 := by
  obtain ⟨_, _, run, h⟩ | ⟨_, _, run, h⟩ := run_of_wp h
  · rw [run]
    exact h
  rw [run]
  exact h

@[simp] theorem wp_forEach_nil (body : α → Action σ ε Unit) {ok : Unit → σ → Prop} :
    wp (forEach [] body) ok err s ↔ ok () s := Iff.rfl

@[simp] theorem wp_forEach_cons (x : α) (xs : List α) (body : α → Action σ ε Unit) {ok : Unit → σ → Prop} :
    wp (forEach (x :: xs) body) ok err s ↔
      wp (body x) (fun _ s' => wp (forEach xs body) ok err s') err s := by
  rw [forEach, wp_bind]

def Preserves (P : σ → Prop) (x : Action σ ε α) : Prop :=
  ∀ s, P s → wp x (fun _ s' => P s') (fun _ s' => P s') s

section
variable {P : σ → Prop}

theorem preserves_pure (a : α) : Preserves P (pure a : Action σ ε α) := fun _ h => h

theorem preserves_throw (e : ε) : Preserves P (throw e : Action σ ε α) := fun _ h => h

theorem preserves_modify {f : σ → σ} (h : ∀ s, P s → P (f s)) :
    Preserves P (modify f : Action σ ε Unit) := h

theorem preserves_bind {x : Action σ ε α} {f : α → Action σ ε β} (hx : Preserves P x)
    (hf : ∀ a, Preserves P (f a)) : Preserves P (x >>= f) := by
  intro s h
  rw [wp_bind]
  exact wp_mono (hx s h) (fun a s' h' => hf a s' h') (fun _ _ h' => h')

theorem preserves_get_bind {f : σ → Action σ ε β}
    (hf : ∀ s, P s → wp (f s) (fun _ s' => P s') (fun _ s' => P s') s) : Preserves P (get >>= f) := by
  intro s h
  rw [wp_bind]
  exact hf s h

theorem preserves_attempt {x : Action σ ε α} {f : α → Action σ ε β} {g : ε → Action σ ε β} (hx : Preserves P x)
    (hf : ∀ a, Preserves P (f a)) (hg : ∀ e, Preserves P (g e)) : Preserves P (attempt x f g) := by
  intro s h
  rw [wp_attempt]
  exact wp_mono (hx s h) (fun a s' h' => hf a s' h') (fun e s' h' => hg e s' h')

theorem preserves_forEach {xs : List α} {body : α → Action σ ε Unit}
    (h : ∀ x ∈ xs, Preserves P (body x)) : Preserves P (forEach xs body) := by
  induction xs with
  | nil => exact preserves_pure ()
  | cons x xs ih =>
    exact preserves_bind (h x (by simp)) fun _ => ih fun y hy => h y (by simp [hy])

end

end Action
end AerOS.Lib
