import Mathlib.Logic.Function.Basic

/-!
# Programs as sequences of atomic actions

A program over states `S` is a tree of atomic actions. An action that cannot be taken either
panics or blocks. `exec` runs a program alone, `after k` is the state after its first `k`
actions, and `step` takes one action, so that programs can also be interleaved.

`wp I E p Q s` says that `p` started in `s` keeps `I` true in every state on the way, ends in
a state that meets `Q`, and stops early only for a reason in `E`. With `I` as the condition
that a crash has to find, these are the rules of a crash Hoare logic (`wp_after`).
-/

/-- Why a program does not go on. -/
inductive Stop where
  | panic (msg : String)
  | block
deriving DecidableEq, Repr

/-- The result of an action or of a program. -/
inductive Outcome (S R : Type) where
  | ok (r : R) (s : S)
  | stop (why : Stop)

/-- The result meets `Q`, or the reason to stop is in `E`. -/
def Outcome.Meets {S R : Type} (E : Stop → Prop) (Q : R → S → Prop) : Outcome S R → Prop
  | ok r s => Q r s
  | stop why => E why

theorem Outcome.Meets.mono {S R : Type} {E : Stop → Prop} {Q Q' : R → S → Prop}
    (hQ : ∀ r s, Q r s → Q' r s) {o : Outcome S R} (h : o.Meets E Q) : o.Meets E Q' := by
  cases o with
  | ok r s => exact hQ r s h
  | stop why => exact h

/-- Programs that act on `S` and return an `R`. -/
inductive Prog (S R : Type) : Type 1 where
  | ret (r : R)
  | act {B : Type} (f : S → Outcome S B) (k : B → Prog S R)

namespace Prog

variable {S R R' : Type}

def bind : Prog S R → (R → Prog S R') → Prog S R'
  | ret r, g => g r
  | act f k, g => act f fun b => (k b).bind g

instance : Monad (Prog S) where
  pure := ret
  bind := bind

/-- A single action. -/
def atomic (f : S → Outcome S R) : Prog S R := act f ret

/-- An action that changes the state and always succeeds. -/
def modify (f : S → S) : Prog S Unit := atomic fun s => .ok () (f s)

/-- An action that reads the state. -/
def gets (f : S → R) : Prog S R := atomic fun s => .ok (f s) s

/-- Stop with a message. -/
def panic (msg : String) : Prog S R := atomic fun _ => .stop (.panic msg)

/-! ## Running a program -/

/-- One action; `none` at the end of the program and when the action cannot be taken. -/
def step : Prog S R → S → Option (Prog S R × S)
  | ret _, _ => none
  | act f k, s =>
    match f s with
    | .ok b s' => some (k b, s')
    | .stop _ => none

/-- The actions that lead from one point of a program to another. -/
inductive Steps : Prog S R → S → Prog S R → S → Prop
  | refl (p : Prog S R) (s : S) : Steps p s p s
  | tail {p p' p'' : Prog S R} {s s' s'' : S} :
      Steps p s p' s' → p'.step s' = some (p'', s'') → Steps p s p'' s''

/-- Run a program alone to its end. -/
def exec : Prog S R → S → Outcome S R
  | ret r, s => .ok r s
  | act f k, s =>
    match f s with
    | .ok b s' => (k b).exec s'
    | .stop why => .stop why

/-- The state after the first `n` actions of a program that runs alone. -/
def after : Nat → Prog S R → S → S
  | 0, _, s => s
  | n + 1, p, s =>
    match p.step s with
    | some (p', s') => after n p' s'
    | none => s

/-! ## Loops -/

/-- `for(i = a; i < a + n; i++) body(i)`. -/
def forUp (body : Nat → Prog S Unit) : (a n : Nat) → Prog S Unit
  | _, 0 => pure ()
  | a, n + 1 => do
    body a
    forUp body (a + 1) n

/-- The same loop with a body that may return from it. -/
def findUp (body : Nat → Prog S (Option R)) : (a n : Nat) → Prog S (Option R)
  | _, 0 => pure none
  | a, n + 1 => do
    match ← body a with
    | some r => pure (some r)
    | none => findUp body (a + 1) n

/-! ## Weakest preconditions -/

/-- `I` holds from `s` on up to the end, where `Q` holds, and `p` stops early only for a reason
    in `E`. -/
def wp (I : S → Prop) (E : Stop → Prop) : Prog S R → (R → S → Prop) → S → Prop
  | ret r, Q, s => I s ∧ Q r s
  | act f k, Q, s => I s ∧ (f s).Meets E fun b s' => (k b).wp I E Q s'

variable {I : S → Prop} {E : Stop → Prop} {Q Q' : R → S → Prop} {p : Prog S R} {s : S}

theorem wp_inv (h : p.wp I E Q s) : I s := by
  cases p with
  | ret r => exact h.1
  | act f k => exact h.1

@[simp] theorem wp_pure {r : R} : (pure r : Prog S R).wp I E Q s ↔ I s ∧ Q r s := Iff.rfl

theorem wp_act {B : Type} {f : S → Outcome S B} {k : B → Prog S R} :
    (act f k).wp I E Q s ↔ I s ∧ (f s).Meets E fun b s' => (k b).wp I E Q s' := Iff.rfl

@[simp] theorem wp_bind {g : R → Prog S R'} {Q : R' → S → Prop} :
    (p >>= g).wp I E Q s ↔ p.wp I E (fun r s => (g r).wp I E Q s) s := by
  show (p.bind g).wp I E Q s ↔ _
  induction p generalizing s with
  | ret r =>
    constructor
    · exact fun h => ⟨wp_inv h, h⟩
    · exact fun h => h.2
  | act f k ih =>
    rw [bind, wp_act, wp_act]
    cases f s with
    | stop why => exact Iff.rfl
    | ok b s' => exact and_congr_right fun _ => ih b

@[simp] theorem wp_atomic {f : S → Outcome S R} :
    (atomic f).wp I E Q s ↔ I s ∧ (f s).Meets E fun r s' => I s' ∧ Q r s' := Iff.rfl

@[simp] theorem wp_modify {f : S → S} {Q : Unit → S → Prop} :
    (modify f).wp I E Q s ↔ I s ∧ I (f s) ∧ Q () (f s) := Iff.rfl

@[simp] theorem wp_gets {f : S → R} : (gets f).wp I E Q s ↔ I s ∧ I s ∧ Q (f s) s := Iff.rfl

@[simp] theorem wp_panic {msg : String} :
    (panic msg : Prog S R).wp I E Q s ↔ I s ∧ E (.panic msg) := Iff.rfl

/-- The rule of consequence, with a weaker condition on the way. -/
theorem wp_imp {I' : S → Prop} (hI : ∀ s, I s → I' s) (hQ : ∀ r s, I s → Q r s → Q' r s)
    (h : p.wp I E Q s) : p.wp I' E Q' s := by
  induction p generalizing s with
  | ret r => exact ⟨hI _ h.1, hQ _ _ h.1 h.2⟩
  | act f k ih => exact ⟨hI _ h.1, h.2.mono fun b s' => ih b⟩

/-- The rule of consequence. -/
theorem wp_mono (hQ : ∀ r s, I s → Q r s → Q' r s) (h : p.wp I E Q s) : p.wp I E Q' s :=
  wp_imp (fun _ hs => hs) hQ h

variable {J : Nat → S → Prop} {body : Nat → Prog S Unit} {a n : Nat}

/-- A loop that keeps `J` from one round to the next. -/
theorem wp_forUp (hI : ∀ i s, J i s → I s)
    (hbody : ∀ i s, a ≤ i → i < a + n → J i s → (body i).wp I E (fun _ => J (i + 1)) s) (h : J a s) :
    (forUp body a n).wp I E (fun _ => J (a + n)) s := by
  induction n generalizing a s with
  | zero => exact ⟨hI a s h, h⟩
  | succ n ih =>
    rw [forUp, wp_bind]
    refine wp_mono (fun _ s' _ hs' => ?_) (hbody a s (Nat.le_refl a) (by omega) h)
    have hrest := ih (fun i s hi hlt => hbody i s (by omega) (by omega)) hs'
    rwa [Nat.add_assoc, Nat.add_comm 1 n] at hrest

/-- A loop from 0 on. -/
theorem wp_for (hI : ∀ i s, J i s → I s)
    (hbody : ∀ i s, i < n → J i s → (body i).wp I E (fun _ => J (i + 1)) s) (h : J 0 s) :
    (forUp body 0 n).wp I E (fun _ => J n) s := by
  have hloop := wp_forUp (n := n) hI (fun i s _ hlt => hbody i s (by omega)) h
  rwa [Nat.zero_add] at hloop

/-- A loop that keeps `J` as long as it goes on and meets `Q` when its body returns. -/
theorem wp_findUp {body : Nat → Prog S (Option R)} (hI : ∀ i s, J i s → I s)
    (hbody : ∀ i s, a ≤ i → i < a + n → J i s →
      (body i).wp I E
        (fun r s => match r with
          | some r => Q r s
          | none => J (i + 1) s) s) (h : J a s) :
    (findUp body a n).wp I E
      (fun r s => match r with
        | some r => Q r s
        | none => J (a + n) s) s := by
  induction n generalizing a s with
  | zero => exact ⟨hI a s h, h⟩
  | succ n ih =>
    rw [findUp, wp_bind]
    refine wp_mono (fun r s' hs hs' => ?_) (hbody a s (Nat.le_refl a) (by omega) h)
    cases r with
    | some r => exact ⟨hs, hs'⟩
    | none =>
      have hrest := ih (fun i s hi hlt => hbody i s (by omega) (by omega)) hs'
      rwa [Nat.add_assoc, Nat.add_comm 1 n] at hrest

/-! ## Programs that run alone

For a program that nothing interrupts only its end matters. -/

/-- `p` started in `s` ends in a state that meets `Q`, or stops for a reason in `E`. -/
def Ends (E : Stop → Prop) (p : Prog S R) (Q : R → S → Prop) (s : S) : Prop :=
  p.wp (fun _ => True) E Q s

@[simp] theorem ends_pure {r : R} : (pure r : Prog S R).Ends E Q s ↔ Q r s := by
  simp [Ends]

@[simp] theorem ends_bind {g : R → Prog S R'} {Q : R' → S → Prop} :
    (p >>= g).Ends E Q s ↔ p.Ends E (fun r s => (g r).Ends E Q s) s := wp_bind

@[simp] theorem ends_atomic {f : S → Outcome S R} :
    (atomic f).Ends E Q s ↔ (f s).Meets E Q := by
  simp [Ends]

@[simp] theorem ends_modify {f : S → S} {Q : Unit → S → Prop} :
    (modify f).Ends E Q s ↔ Q () (f s) := by
  simp [Ends]

@[simp] theorem ends_gets {f : S → R} : (gets f).Ends E Q s ↔ Q (f s) s := by
  simp [Ends]

@[simp] theorem ends_panic {msg : String} : (panic msg : Prog S R).Ends E Q s ↔ E (.panic msg) := by
  simp [Ends]

theorem Ends.mono (h : p.Ends E Q s) (hQ : ∀ r s, Q r s → Q' r s) : p.Ends E Q' s :=
  wp_mono (fun r s _ => hQ r s) h

/-- The rule of conjunction. -/
theorem Ends.and (h : p.Ends E Q s) (h' : p.Ends E Q' s) :
    p.Ends E (fun r s => Q r s ∧ Q' r s) s := by
  unfold Ends at h h' ⊢
  induction p generalizing s with
  | ret r => exact ⟨trivial, h.2, h'.2⟩
  | act f k ih =>
    rw [wp_act] at h h' ⊢
    refine ⟨trivial, ?_⟩
    have h2 := h.2
    have h2' := h'.2
    cases hf : f s with
    | stop why =>
      rw [hf] at h2
      exact h2
    | ok b s' =>
      rw [hf] at h2 h2'
      exact ih b h2 h2'

theorem ends_for (hbody : ∀ i s, i < n → J i s → (body i).Ends E (fun _ => J (i + 1)) s) (h : J 0 s) :
    (forUp body 0 n).Ends E (fun _ => J n) s :=
  wp_for (fun _ _ _ => trivial) hbody h

theorem ends_findUp {body : Nat → Prog S (Option R)} (hbody : ∀ i s, a ≤ i → i < a + n → J i s →
      (body i).Ends E
        (fun r s => match r with
          | some r => Q r s
          | none => J (i + 1) s) s) (h : J a s) :
    (findUp body a n).Ends E
      (fun r s => match r with
        | some r => Q r s
        | none => J (a + n) s) s :=
  wp_findUp (fun _ _ _ => trivial) hbody h

/-! ## Programs on a part of the state -/

/-- A part of type `S` of a state of type `T`. -/
structure Part (T S : Type) where
  get : T → S
  set : S → T → T
  get_set : ∀ s t, get (set s t) = s
  set_get : ∀ t, set (get t) t = t
  set_set : ∀ s s' t, set s' (set s t) = set s' t

/-- A program on a part of the state as a program on the whole. -/
def zoom {T : Type} (l : Part T S) : Prog S R → Prog T R
  | ret r => ret r
  | act f k =>
    act
      (fun t =>
        match f (l.get t) with
        | .ok b s => .ok b (l.set s t)
        | .stop why => .stop why)
      fun b => (k b).zoom l

theorem zoom_bind {T : Type} (l : Part T S) (p : Prog S R) (k : R → Prog S R') :
    (p >>= k).zoom l = p.zoom l >>= fun r => (k r).zoom l := by
  show (p.bind k).zoom l = (p.zoom l).bind fun r => (k r).zoom l
  induction p with
  | ret r => rfl
  | act f k' ih =>
    simp only [bind, zoom]
    exact congrArg (act _) (funext ih)

/-- A program on a part leaves the rest of the state as it is. -/
theorem wp_zoom {T : Type} {l : Part T S} {J : T → Prop} {Q : R → T → Prop} {t : T} :
    (p.zoom l).wp J E Q t ↔
      p.wp (fun s => J (l.set s t)) E (fun r s => Q r (l.set s t)) (l.get t) := by
  induction p generalizing t with
  | ret r =>
    show _ ∧ _ ↔ J (l.set (l.get t) t) ∧ Q r (l.set (l.get t) t)
    rw [l.set_get]
  | act f k ih =>
    rw [zoom, wp_act, wp_act, l.set_get]
    refine and_congr_right fun _ => ?_
    cases f (l.get t) with
    | stop why => exact Iff.rfl
    | ok b s =>
      show ((k b).zoom l).wp J E Q (l.set s t) ↔ (k b).wp _ E _ s
      rw [ih, l.get_set]
      simp only [l.set_set]

theorem ends_zoom {T : Type} {l : Part T S} {Q : R → T → Prop} {t : T} :
    (p.zoom l).Ends E Q t ↔ p.Ends E (fun r s => Q r (l.set s t)) (l.get t) :=
  wp_zoom

/-! ## What the weakest precondition says of runs -/

/-- A program that runs alone and does not stop early ends in a state that meets `Q`. -/
theorem exec_of_wp (h : p.wp I E Q s) : (p.exec s).Meets E fun r s' => I s' ∧ Q r s' := by
  induction p generalizing s with
  | ret r => exact h
  | act f k ih =>
    have h2 := h.2
    rw [exec]
    cases hf : f s with
    | stop why =>
      rw [hf] at h2
      exact h2
    | ok b s' =>
      rw [hf] at h2
      exact ih b h2

theorem Ends.exec (h : p.Ends E Q s) : (p.exec s).Meets E Q :=
  (exec_of_wp h).mono fun _ _ hq => hq.2

/-- A program with no reason to stop early has a result. -/
theorem Ends.exists_ok (h : p.Ends (fun _ => False) Q s) : ∃ r s', p.exec s = .ok r s' ∧ Q r s' := by
  have hexec := h.exec
  cases hrun : p.exec s with
  | ok r s' =>
    rw [hrun] at hexec
    exact ⟨r, s', rfl, hexec⟩
  | stop why =>
    rw [hrun] at hexec
    exact absurd hexec id

/-- The result of a program that has one. -/
theorem Ends.of_exec (h : p.Ends E Q s) {r : R} {s' : S} (hrun : p.exec s = .ok r s') : Q r s' := by
  have hexec := h.exec
  rwa [hrun] at hexec

/-- A program that stops exactly if `c` does not hold. -/
theorem Ends.exists_ok_iff {c : Prop} (h : p.Ends (fun _ => ¬ c) (fun r s' => c ∧ Q r s') s) :
    (∃ r s', p.exec s = .ok r s' ∧ Q r s') ↔ c := by
  constructor
  · rintro ⟨r, s', hrun, -⟩
    exact (h.of_exec hrun).1
  · intro hc
    have hexec := h.exec
    cases hrun : p.exec s with
    | ok r s' =>
      rw [hrun] at hexec
      exact ⟨r, s', rfl, hexec.2⟩
    | stop why =>
      rw [hrun] at hexec
      exact absurd hc hexec

/-- One action preserves a weakest precondition. -/
theorem wp_step {p' : Prog S R} {s' : S} (h : p.wp I E Q s) (hs : p.step s = some (p', s')) :
    p'.wp I E Q s' := by
  cases p with
  | ret r => cases hs
  | act f k =>
    have h2 := h.2
    rw [step] at hs
    cases hf : f s with
    | stop why =>
      rw [hf] at hs
      cases hs
    | ok b t =>
      rw [hf] at h2 hs
      cases hs
      exact h2

theorem wp_steps {p' : Prog S R} {s' : S} (h : p.wp I E Q s) (hs : Steps p s p' s') :
    p'.wp I E Q s' := by
  induction hs with
  | refl => exact h
  | tail _ hstep ih => exact wp_step (ih h) hstep

/-- A crash after any number of actions finds `I`. -/
theorem wp_after (n : Nat) (h : p.wp I E Q s) : I (p.after n s) := by
  induction n generalizing p s with
  | zero => exact wp_inv h
  | succ n ih =>
    rw [after]
    cases hs : p.step s with
    | none => exact wp_inv h
    | some x => exact ih (wp_step h hs)

end Prog
