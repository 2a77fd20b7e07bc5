import Xv6.ForStd.Prog
import Xv6.ForStd.Update

/-!
# Programs that run in parallel

`N` threads run programs over one shared state; any thread may take the next action
(`Threads`). A `Protocol` says what the threads keep to. Every thread owns something, a value of
`G` that exists in proofs only, and `inv` ties the shared state to what all of them own. Whatever a
thread knows of the shared state it knows through what it owns: the actions of the others keep
`inv` and leave its share alone, so its knowledge is never lost.

* `Valid P p m Q g`: thread `p` that owns `g` may run `m`; at the end it owns something that meets
  `Q`. `valid_bind` and `valid_atomic` are the rules.
* `Only R E m`: all actions of `m` are in the relation `R`.
* `valid_of_wp`: a thread that owns the whole state runs as if it were alone.
* `Follows.step`: threads that run valid programs keep the invariant.
-/

/-- Why an action is not taken, if it is not. -/
def Outcome.why {S R : Type} : Outcome S R → Option Stop
  | ok _ _ => none
  | stop why => some why

theorem Outcome.eq_stop_of_why {S R : Type} {o : Outcome S R} {why : Stop} (h : o.why = some why) :
    o = .stop why := by
  cases o with
  | ok r s => cases h
  | stop why' => exact congrArg _ (Option.some.inj h)

/-- What `N` threads that share a state keep to. -/
structure Protocol (S G : Type) (N : Nat) where
  /-- What the threads own, and what holds of the shared state. -/
  inv : S → (Fin N → G) → Prop
  /-- What is assumed of every step that is taken. -/
  guard : S → S → Prop
  /-- What is required of an action that a thread is about to take. -/
  safe : Fin N → G → S → (S → Option Stop) → Prop

namespace Prog

variable {S G R R' : Type} {N : Nat}

/-! ## Programs that keep a relation -/

/-- Every action of the program changes the state by `R`, or stops for a reason in `E`. -/
def Only (T : S → S → Prop) (E : Stop → Prop) : Prog S R → Prop
  | ret _ => True
  | act f k => ∀ s, (f s).Meets E fun b s' => T s s' ∧ (k b).Only T E

section Only

variable {T : S → S → Prop} {E : Stop → Prop}

theorem only_pure (r : R) : (pure r : Prog S R).Only T E := trivial

theorem only_bind {m : Prog S R} {k : R → Prog S R'} (hm : m.Only T E) (hk : ∀ r, (k r).Only T E) :
    (m >>= k).Only T E := by
  show (m.bind k).Only T E
  induction m with
  | ret r => exact hk r
  | act f k' ih => exact fun s => (hm s).mono fun b s' h => ⟨h.1, ih b h.2⟩

theorem only_atomic {f : S → Outcome S R} (h : ∀ s, (f s).Meets E fun _ s' => T s s') :
    (atomic f).Only T E :=
  fun s => (h s).mono fun _ _ hs => ⟨hs, trivial⟩

end Only

/-! ## Programs that keep to a protocol -/

/-- Thread `p` that owns `g` may run the program, and owns something that meets `Q` at its end. -/
def Valid (P : Protocol S G N) (p : Fin N) : Prog S R → (R → G → Prop) → G → Prop
  | ret r, Q, g => Q r g
  | act f k, Q, g => ∀ s c, c p = g → P.inv s c →
      P.safe p g s (fun s => (f s).why) ∧
      ∀ b s', f s = .ok b s' → P.guard s s' →
        ∃ g', P.inv s' (upd c p g') ∧ (k b).Valid P p Q g'

variable {P : Protocol S G N} {p : Fin N} {Q Q' : R → G → Prop} {g : G}
variable {m : Prog S R}

theorem Valid.mono (h : m.Valid P p Q g) (hQ : ∀ r g, Q r g → Q' r g) :
    m.Valid P p Q' g := by
  induction m generalizing g with
  | ret r => exact hQ r g h
  | act f k ih =>
    intro s c hg hi
    obtain ⟨hsafe, hstep⟩ := h s c hg hi
    refine ⟨hsafe, fun b s' hf hguard => ?_⟩
    obtain ⟨g', hi', hk⟩ := hstep b s' hf hguard
    exact ⟨g', hi', ih b hk⟩

theorem valid_bind {k : R → Prog S R'} {Q : R' → G → Prop}
    (h : m.Valid P p (fun r g => (k r).Valid P p Q g) g) : (m >>= k).Valid P p Q g := by
  show (m.bind k).Valid P p Q g
  induction m generalizing g with
  | ret r => exact h
  | act f k' ih =>
    intro s c hg hi
    obtain ⟨hsafe, hstep⟩ := h s c hg hi
    refine ⟨hsafe, fun b s' hf hguard => ?_⟩
    obtain ⟨g', hi', hk⟩ := hstep b s' hf hguard
    exact ⟨g', hi', ih b hk⟩

/-- Sequential composition, from what the first part is known to do. -/
theorem Valid.bind {k : R → Prog S R'} {Q' : R' → G → Prop}
    (h : m.Valid P p Q g) (hk : ∀ r g, Q r g → (k r).Valid P p Q' g) :
    (m >>= k).Valid P p Q' g :=
  valid_bind (h.mono hk)

/-- A single action. -/
theorem valid_atomic {f : S → Outcome S R}
    (hsafe : ∀ s c, c p = g → P.inv s c → P.safe p g s fun s => (f s).why)
    (hstep : ∀ s c b s', c p = g → P.inv s c → f s = .ok b s' → P.guard s s' →
      ∃ g', P.inv s' (upd c p g') ∧ Q b g') :
    (atomic f).Valid P p Q g :=
  fun s c hg hi => ⟨hsafe s c hg hi, fun b s' hf hguard => hstep s c b s' hg hi hf hguard⟩

/-- An action that reads the state. -/
theorem valid_gets {f : S → R} (hsafe : ∀ s c, c p = g → P.inv s c → P.safe p g s fun _ => none)
    (hQ : ∀ s c, c p = g → P.inv s c → Q (f s) g) : (gets f).Valid P p Q g := by
  refine valid_atomic hsafe fun s c b s' hg hi hf _ => ?_
  cases hf
  exact ⟨g, by rwa [upd_of_eq hg], hQ s c hg hi⟩

/-- A program that ends in `Q` and keeps `I` by what its actions do. -/
theorem Ends.wp_of_only {I : S → Prop} {T : S → S → Prop} {E E' : Stop → Prop} {Q : R → S → Prop}
    {s : S} (h : m.Ends E Q s) (ho : m.Only T E') (hs : I s) (hT : ∀ s s', I s → T s s' → I s') :
    m.wp I E Q s := by
  induction m generalizing s with
  | ret r => exact ⟨hs, h.2⟩
  | act f k ih =>
    have hs' := ho s
    have hm := h.2
    refine ⟨hs, ?_⟩
    cases hf : f s with
    | stop why =>
      rw [hf] at hm
      exact hm
    | ok b s' =>
      rw [hf] at hm hs'
      exact ih b hm hs'.2 (hT s s' hs hs'.1)

/-- A thread that owns the state itself, as `own`, runs as if it were alone, as long as it keeps
    what the others may still see of the state. -/
theorem valid_of_wp {I : S → Prop} {E : Stop → Prop} {Q : R → S → Prop} {own : S → G}
    (hexact : ∀ s c t, c p = own t → P.inv s c → s = t)
    (hmove : ∀ s c s', c p = own s → P.inv s c → I s' → P.inv s' (upd c p (own s')))
    (hsafe : ∀ s c w, c p = own s → P.inv s c → (∀ why, w s = some why → E why) →
      P.safe p (own s) s w) {s : S} (h : m.wp I E Q s) :
    m.Valid P p (fun r g => ∃ s', Q r s' ∧ g = own s') (own s) := by
  induction m generalizing s with
  | ret r => exact ⟨s, h.2, rfl⟩
  | act f k ih =>
    intro t c hg hi
    obtain rfl := hexact t c s hg hi
    have hm := h.2
    refine ⟨hsafe t c _ hg hi fun why hwhy => ?_, fun b s' hf _ => ?_⟩
    · cases hf : f t with
      | ok b s' => simp only [hf, Outcome.why] at hwhy; cases hwhy
      | stop why' =>
        simp only [hf, Outcome.why, Option.some.injEq] at hwhy
        rw [hf] at hm
        exact hwhy ▸ hm
    · rw [hf] at hm
      exact ⟨own s', hmove t c s' hg hi (wp_inv hm), ih b hm⟩

/-- The program is at its end. -/
def done : Prog S R → Bool
  | ret _ => true
  | act _ _ => false

/-- The result of a program that is at its end. -/
def value : Prog S R → Option R
  | ret r => some r
  | act _ _ => none

theorem eq_ret_of_value {r : R} (h : m.value = some r) : m = ret r := by
  cases m with
  | ret r' => exact congrArg ret (Option.some.inj h)
  | act f k => cases h

end Prog

/-! ## Threads -/

/-- Threads and the state they share; a thread at the end of its program is idle. -/
structure Threads (S R : Type) (N : Nat) where
  shared : S
  prog : Fin N → Prog S R

namespace Threads

variable {S R G : Type} {N : Nat}

/-- No thread is in a program. -/
def Idle (x : Threads S R N) : Prop := ∀ p, (x.prog p).done = true

/-- Thread `p` takes its next action. -/
def step (x : Threads S R N) (p : Fin N) : Option (Threads S R N) :=
  ((x.prog p).step x.shared).map fun y => ⟨y.2, upd x.prog p y.1⟩

/-- The threads keep to the protocol, and at the end of their programs they own what meets `Q`. -/
def Follows (P : Protocol S G N) (Q : Fin N → R → G → Prop) (x : Threads S R N) : Prop :=
  ∃ c, P.inv x.shared c ∧ ∀ p, (x.prog p).Valid P p (Q p) (c p)

variable {P : Protocol S G N} {Q : Fin N → R → G → Prop} {x y : Threads S R N} {p : Fin N}

theorem Follows.step (h : x.Follows P Q) (hs : x.step p = some y) (hguard : P.guard x.shared y.shared) :
    y.Follows P Q := by
  obtain ⟨c, hi, hv⟩ := h
  obtain ⟨⟨m, s'⟩, hstep, rfl⟩ := Option.map_eq_some_iff.mp hs
  have hp := hv p
  cases hm : x.prog p with
  | ret r => rw [hm] at hstep; cases hstep
  | act f k =>
    rw [hm] at hp hstep
    obtain ⟨-, hnext⟩ := hp x.shared c rfl hi
    cases hf : f x.shared with
    | stop why => simp only [Prog.step, hf] at hstep; cases hstep
    | ok b t =>
      simp only [Prog.step, hf, Option.some.injEq, Prod.mk.injEq] at hstep
      obtain ⟨rfl, rfl⟩ := hstep
      obtain ⟨g', hi', hk⟩ := hnext b t hf hguard
      refine ⟨upd c p g', hi', fun q => ?_⟩
      show (upd x.prog p (k b) q).Valid P q _ (upd c p g' q)
      by_cases hq : q = p
      · subst hq
        rw [upd_self, upd_self]
        exact hk
      · rw [upd_of_ne hq, upd_of_ne hq]
        exact hv q

/-- When no thread is in a program, they own what they had at the end of their programs. -/
theorem Follows.idle (h : x.Follows P Q) (hidle : x.Idle) :
    ∃ c, P.inv x.shared c ∧ ∀ p, ∃ r, x.prog p = .ret r ∧ Q p r (c p) := by
  obtain ⟨c, hi, hv⟩ := h
  refine ⟨c, hi, fun p => ?_⟩
  have hp := hv p
  have hd := hidle p
  cases hm : x.prog p with
  | act f k => rw [hm] at hd; cases hd
  | ret r =>
    rw [hm] at hp
    exact ⟨r, rfl, hp⟩

end Threads
