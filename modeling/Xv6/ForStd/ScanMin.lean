import Mathlib.Data.List.Induction
import Mathlib.Order.Bounds.Basic

/-!
# A running minimum with a sentinel

`scanMin x l` is the loop that looks for the minimum of `l` in a variable that starts with the
value `x` and takes `x` to mean that nothing was found yet. If `x` itself is in the list, the next
element replaces it whatever its value is.

`scanMin_isLeast_iff` says exactly when the result is the least element: unless the least
element is `x` and `x` is not the last one.
-/

variable {α : Type*} [LinearOrder α] {x a m : α} {l : List α}

/-- One round: take `a` if nothing was found yet or if it is smaller. -/
def scanStep (x m a : α) : α := if m = x ∨ a < m then a else m

/-- The minimum that the loop finds. -/
def scanMin (x : α) (l : List α) : α := l.foldl (scanStep x) x

theorem scanMin_concat : scanMin x (l ++ [a]) = scanStep x (scanMin x l) a := by
  simp only [scanMin, List.foldl_append, List.foldl_cons, List.foldl_nil]

/-- The least element is `x`, and the loop has lost it. -/
def Forgotten (x m : α) (l : List α) : Prop := m ≠ x ∧ x ∈ l ∧ ∀ b ∈ l, x ≤ b

/-- What holds of the variable after a round. -/
theorem scanStep_concat (hm : l = [] ∧ m = x ∨ m ∈ l ∧ ((∀ b ∈ l, m ≤ b) ∨ Forgotten x m l)) :
    scanStep x m a ∈ l ++ [a] ∧
      ((∀ b ∈ l ++ [a], scanStep x m a ≤ b) ∨ Forgotten x (scanStep x m a) (l ++ [a])) := by
  have hmem : ∀ b, b ∈ l ++ [a] ↔ b ∈ l ∨ b = a := fun b => by simp
  simp only [Forgotten, hmem, scanStep]
  rcases hm with ⟨rfl, rfl⟩ | ⟨hml, hm⟩
  · simp
  split
  · -- the round takes `a`
    rename_i h
    refine ⟨.inr rfl, ?_⟩
    by_cases hax : a ≤ x
    · -- then `a` is smaller than whatever was forgotten
      refine .inl fun b hb => ?_
      rcases hb with hb | rfl
      · rcases hm with hm | ⟨-, -, hx⟩
        · rcases h with rfl | h
          · exact hax.trans (hm b hb)
          · exact h.le.trans (hm b hb)
        · exact hax.trans (hx b hb)
      · exact le_refl _
    · have hlt : x < a := lt_of_not_ge hax
      rcases hm with hm | ⟨-, hxl, hx⟩
      · rcases h with rfl | h
        · exact .inr ⟨hlt.ne', .inl hml, fun b hb => hb.elim (hm b) fun hb => hb ▸ hlt.le⟩
        · exact .inl fun b hb => hb.elim (fun hb => h.le.trans (hm b hb)) fun hb => hb.ge
      · exact .inr ⟨hlt.ne', .inl hxl, fun b hb => hb.elim (hx b) fun hb => hb ▸ hlt.le⟩
  · -- the round keeps `m`
    rename_i h
    rw [not_or, not_lt] at h
    obtain ⟨hmx, hma⟩ := h
    refine ⟨.inl hml, ?_⟩
    rcases hm with hm | ⟨-, hxl, hx⟩
    · exact .inl fun b hb => hb.elim (hm b) fun hb => hb ▸ hma
    · exact .inr ⟨hmx, .inl hxl, fun b hb => hb.elim (hx b) fun hb => hb ▸ (hx m hml).trans hma⟩

theorem scanMin_spec (hl : l ≠ []) :
    scanMin x l ∈ l ∧ ((∀ b ∈ l, scanMin x l ≤ b) ∨ Forgotten x (scanMin x l) l) := by
  induction l using List.reverseRecOn with
  | nil => exact absurd rfl hl
  | append_singleton l a ih =>
    rw [scanMin_concat]
    refine scanStep_concat ?_
    by_cases hnil : l = []
    · subst hnil
      exact .inl ⟨rfl, rfl⟩
    · exact .inr (ih hnil)

/-- The loop finds the least element unless that is `x` and another element comes last. -/
theorem scanMin_isLeast_iff (hl : l ≠ []) :
    IsLeast { b | b ∈ l } (scanMin x l) ↔ ¬ (IsLeast { b | b ∈ l } x ∧ l.getLast hl ≠ x) := by
  obtain ⟨hmem, hspec⟩ := scanMin_spec (x := x) hl
  -- with `x` as the least element the loop ends with `x` exactly if `x` comes last
  have hlast : IsLeast { b | b ∈ l } x → (scanMin x l = x ↔ l.getLast hl = x) := by
    rintro ⟨-, hx⟩
    obtain ⟨l, a, rfl⟩ : ∃ l' a, l = l' ++ [a] := ⟨_, _, (List.dropLast_concat_getLast hl).symm⟩
    rw [scanMin_concat, List.getLast_concat]
    have hmx : x ≤ scanMin x l := by
      by_cases hnil : l = []
      · subst hnil
        exact le_refl _
      · exact hx (List.mem_append_left _ (scanMin_spec hnil).1)
    rw [scanStep]
    split
    · exact Iff.rfl
    · rename_i h
      rw [not_or, not_lt] at h
      exact ⟨fun heq => absurd heq h.1, fun heq => absurd (le_antisymm (heq ▸ h.2) hmx) h.1⟩
  constructor
  · rintro hleast ⟨hx, hne⟩
    exact hne ((hlast hx).mp (hleast.unique hx))
  · intro h
    refine ⟨hmem, hspec.resolve_right ?_⟩
    rintro ⟨hne, hxl, hx⟩
    have hxleast : IsLeast { b | b ∈ l } x := ⟨hxl, hx⟩
    exact h ⟨hxleast, fun heq => hne ((hlast hxleast).mpr heq)⟩
