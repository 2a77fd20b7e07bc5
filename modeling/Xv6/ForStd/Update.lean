import Mathlib.Logic.Function.Basic

/-!
# Point updates that compute

`Function.update` is dependent and casts along the equality of the arguments, so the
kernel has to unify them before it can return the new value. `upd` is the
non-dependent version: it evaluates its decidable test and nothing else.
-/

variable {α β : Type*} [DecidableEq α]

/-- `f` with the value at `a` replaced by `b`. -/
def upd (f : α → β) (a : α) (b : β) : α → β :=
  fun x => if x = a then b else f x

@[simp] theorem upd_self (f : α → β) (a : α) (b : β) : upd f a b a = b :=
  if_pos rfl

variable {f : α → β}

@[simp] theorem upd_of_ne {a x : α} (h : x ≠ a) (b : β) : upd f a b x = f x :=
  if_neg h

theorem upd_apply (f : α → β) (a : α) (b : β) (x : α) :
    upd f a b x = if x = a then b else f x := rfl

/-- Writing back the old value changes nothing. -/
@[simp] theorem upd_eq_self (f : α → β) (a : α) : upd f a (f a) = f := by
  funext x
  by_cases h : x = a
  · rw [h, upd_self]
  · rw [upd_of_ne h]

variable {a : α} {b : β}

theorem upd_of_eq (h : f a = b) : upd f a b = f := by
  rw [← h, upd_eq_self]

/-- Of two updates at one point the later one counts. -/
@[simp] theorem upd_upd (f : α → β) (a : α) (b b' : β) : upd (upd f a b) a b' = upd f a b' := by
  funext x
  by_cases h : x = a
  · rw [h, upd_self, upd_self]
  · rw [upd_of_ne h, upd_of_ne h, upd_of_ne h]

/-- What holds of the new value and of the old ones elsewhere holds of the updated function. -/
theorem forall_upd {P : α → β → Prop} (ha : P a b) (h : ∀ x, x ≠ a → P x (f x)) (x : α) :
    P x (upd f a b x) := by
  by_cases hx : x = a
  · subst hx
    rwa [upd_self]
  · rw [upd_of_ne hx]
    exact h x hx

/-- An update that does not change `F` of the value does not change `F` anywhere. -/
theorem apply_upd {γ : Sort*} {F : β → γ} (h : F b = F (f a)) (x : α) :
    F (upd f a b x) = F (f x) :=
  forall_upd (P := fun x y => F y = F (f x)) h (fun _ _ => rfl) x
