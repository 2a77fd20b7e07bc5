import Mathlib.Data.List.Nodup
import Xv6.ForStd.Update

/-!
# Circular doubly linked lists

Nodes of type `α` with the link fields `next` and `prev`, and a node `h` that closes the circle.
`IsRing l h xs` says that `next` leads from `h` through `xs` back to `h`, that `prev` leads the other
way round, and that no node is met twice. `unlink` and `insertFirst` are the usual sequences
of assignments, each of which sees the ones before it; on the list of nodes they remove
an element and add one in front. `search` is a loop that follows one of the links until it meets a
node or comes back to `h`.
-/

variable {α : Type*}

/-! ## Paths along one link -/

/-- Following `f` from `a` meets the nodes `xs` and then `b`. -/
def LinkPath (f : α → α) (a : α) : List α → α → Prop
  | [], b => f a = b
  | x :: xs, b => f a = x ∧ LinkPath f x xs b

namespace LinkPath

variable {f : α → α} {a b c x : α} {xs ys : List α}

theorem append_cons : LinkPath f a (xs ++ x :: ys) b ↔ LinkPath f a xs x ∧ LinkPath f x ys b := by
  induction xs generalizing a with
  | nil => exact Iff.rfl
  | cons y xs ih =>
    simp only [List.cons_append, LinkPath, ih, and_assoc]

/-- The first node after the start. -/
theorem first (h : LinkPath f a xs b) : (xs ++ [b]).head? = some (f a) := by
  cases xs with
  | nil => exact congrArg some h.symm
  | cons x xs => exact congrArg some h.1.symm

variable [DecidableEq α] {v : α}

/-- A link of a node off the path does not matter. -/
theorem upd_of_notMem (h : LinkPath f a xs b) (hc : c ∉ a :: xs) : LinkPath (upd f c v) a xs b := by
  induction xs generalizing a with
  | nil =>
    have hac : a ≠ c := fun heq => hc (by simp [heq])
    show upd f c v a = b
    rw [upd_of_ne hac]
    exact h
  | cons x xs ih =>
    simp only [List.mem_cons, not_or] at hc
    refine ⟨?_, ih h.2 (by simp [hc.2.1, hc.2.2])⟩
    rw [upd_of_ne (Ne.symm hc.1)]
    exact h.1

/-- The last node of a path is led to another end. -/
theorem upd_last (h : LinkPath f a xs b) (hd : (a :: xs).Nodup) (hc : (a :: xs).getLast? = some c) :
    LinkPath (upd f c v) a xs v := by
  induction xs generalizing a with
  | nil =>
    obtain rfl : a = c := by simpa using hc
    exact upd_self f a v
  | cons x xs ih =>
    rw [List.getLast?_cons_cons] at hc
    rw [List.nodup_cons] at hd
    have hne : a ≠ c := fun heq => hd.1 (heq ▸ List.mem_of_getLast? hc)
    refine ⟨?_, ih h.2 hd.2 hc⟩
    rw [upd_of_ne hne]
    exact h.1

end LinkPath

/-! ## Following a link -/

/-- `for(a = ...; a != h; a = f(a)) if(p(a)) return`. The result is `none` when the loop has not
    come to an end after `fuel` rounds, and `some none` when it came back to `h`. -/
def search [DecidableEq α] {β : Type*} (f : α → α) (h : α) (p : α → Option β) :
    (fuel : Nat) → α → Option (Option β)
  | 0, _ => none
  | fuel + 1, a =>
    if a = h then some none
    else
      match p a with
      | some r => some (some r)
      | none => search f h p fuel (f a)

/-- Along a path that ends at `h` the loop is a search in the list of its nodes. -/
theorem search_eq_findSome [DecidableEq α] {β : Type*} {f : α → α} {h : α} {p : α → Option β} {a : α}
    {xs : List α} {fuel : Nat} (hp : LinkPath f a xs h) (hh : h ∉ xs) (hfuel : xs.length < fuel) :
    search f h p fuel (f a) = some (xs.findSome? p) := by
  induction xs generalizing a fuel with
  | nil =>
    obtain ⟨fuel, rfl⟩ := Nat.exists_eq_add_one_of_ne_zero (show fuel ≠ 0 by omega)
    have ha : f a = h := hp
    simp [search, ha]
  | cons x xs ih =>
    obtain ⟨fuel, rfl⟩ := Nat.exists_eq_add_one_of_ne_zero (show fuel ≠ 0 by omega)
    simp only [List.mem_cons, not_or] at hh
    rw [hp.1, search, if_neg (Ne.symm hh.1), List.findSome?_cons]
    cases p x with
    | some r => rfl
    | none =>
      simp only [List.length_cons] at hfuel
      exact ih hp.2 hh.2 (by omega)

/-! ## Rings -/

/-- The link fields of all nodes. -/
structure Links (α : Type*) where
  prev : α → α
  next : α → α

/-- The ring through `h` and the nodes `xs`, in the order of `next`. -/
structure IsRing (l : Links α) (h : α) (xs : List α) : Prop where
  next : LinkPath l.next h xs h
  prev : LinkPath l.prev h xs.reverse h
  nodup : (h :: xs).Nodup

namespace Links

variable [DecidableEq α]

/-- `b->next->prev = b->prev; b->prev->next = b->next;` -/
def unlink (l : Links α) (b : α) : Links α :=
  let l : Links α := { l with prev := upd l.prev (l.next b) (l.prev b) }
  { l with next := upd l.next (l.prev b) (l.next b) }

/-- `b->next = h->next; b->prev = h; h->next->prev = b; h->next = b;` -/
def insertFirst (l : Links α) (h b : α) : Links α :=
  let l : Links α := { l with next := upd l.next b (l.next h) }
  let l : Links α := { l with prev := upd l.prev b h }
  let l : Links α := { l with prev := upd l.prev (l.next h) b }
  { l with next := upd l.next h b }

end Links

namespace IsRing

variable {l : Links α} {h b : α} {xs ys : List α}

/-- A node alone. -/
theorem nil (hn : l.next h = h) (hp : l.prev h = h) : IsRing l h [] := ⟨hn, hp, by simp⟩

/-- The ring seen from the other side. -/
theorem swap (hr : IsRing l h xs) : IsRing ⟨l.next, l.prev⟩ h xs.reverse := by
  refine ⟨hr.prev, ?_, ?_⟩
  · rw [List.reverse_reverse]
    exact hr.next
  · have hd := hr.nodup
    simpa using hd

/-- The node before `b`. -/
private theorem getLast_prev (hr : IsRing l h (xs ++ b :: ys)) :
    (h :: xs).getLast? = some (l.prev b) := by
  have hp := hr.prev
  rw [List.reverse_append, List.reverse_cons, List.append_assoc] at hp
  have hfirst : (xs.reverse ++ [h]).head? = _ := (LinkPath.append_cons.mp hp).2.first
  rw [← hfirst, ← List.reverse_cons, List.head?_reverse]

variable [DecidableEq α]

/-- The neighbours of `b` are linked by `f`, where `a` is the node before `b`. -/
private theorem path_skip {f : α → α} {a : α} (hf : LinkPath f h (xs ++ b :: ys) h)
    (hd : (h :: (xs ++ b :: ys)).Nodup) (ha : (h :: xs).getLast? = some a) :
    LinkPath (upd f a (f b)) h (xs ++ ys) h := by
  obtain ⟨hxs, hys⟩ := LinkPath.append_cons.mp hf
  have hd' : ((h :: xs) ++ b :: ys).Nodup := hd
  rw [List.nodup_append] at hd'
  obtain ⟨hdx, -, hdisj⟩ := hd'
  have hmid := hxs.upd_last (v := f b) hdx ha
  cases ys with
  | nil =>
    -- `b` was the last node, so its successor is `h`
    have hb : f b = h := hys
    rw [List.append_nil]
    rw [hb] at hmid ⊢
    exact hmid
  | cons y ys =>
    rw [hys.1] at hmid ⊢
    refine LinkPath.append_cons.mpr ⟨hmid, hys.2.upd_of_notMem fun hmem => ?_⟩
    exact hdisj a (List.mem_of_getLast? ha) a (List.mem_cons_of_mem _ hmem) rfl

/-- Taking out a node. -/
theorem unlink (hr : IsRing l h (xs ++ b :: ys)) : IsRing (l.unlink b) h (xs ++ ys) := by
  have hr' := hr.swap
  rw [List.reverse_append, List.reverse_cons, List.append_assoc] at hr'
  have hprev := getLast_prev hr
  have hnext : (h :: ys.reverse).getLast? = some (l.next b) := getLast_prev hr'
  have hd := hr.nodup
  simp only [List.nodup_cons, List.mem_append, List.mem_cons, List.nodup_append, not_or] at hd
  -- the first assignment does not change `b->prev`
  have hb : b ≠ l.next b := by
    intro heq
    have hmem := List.mem_of_getLast? hnext
    rw [← heq, List.mem_cons, List.mem_reverse] at hmem
    cases hmem with
    | inl hbh => exact hd.1.2.1 hbh.symm
    | inr hby => exact hd.2.2.1.1 hby
  have hlinks : l.unlink b =
      ⟨upd l.prev (l.next b) (l.prev b), upd l.next (l.prev b) (l.next b)⟩ := by
    simp only [Links.unlink, upd_of_ne hb]
  rw [hlinks]
  refine ⟨?_, ?_, ?_⟩
  · show LinkPath (upd l.next (l.prev b) (l.next b)) h (xs ++ ys) h
    exact path_skip hr.next hr.nodup hprev
  · show LinkPath (upd l.prev (l.next b) (l.prev b)) h (xs ++ ys).reverse h
    rw [List.reverse_append]
    exact path_skip hr'.next hr'.nodup hnext
  · simp only [List.nodup_cons, List.mem_append, List.nodup_append, not_or]
    exact ⟨⟨hd.1.1, hd.1.2.2⟩, hd.2.1, hd.2.2.1.2, fun x hx y hy => hd.2.2.2 x hx y (.inr hy)⟩

/-- Putting a node in front. -/
theorem insertFirst (hr : IsRing l h xs) (hb : b ∉ h :: xs) :
    IsRing (l.insertFirst h b) h (b :: xs) := by
  have hd := hr.nodup
  simp only [List.mem_cons, not_or] at hb
  have hfirst : (xs ++ [h]).head? = some (l.next h) := hr.next.first
  have hne : l.next h ≠ b := by
    intro heq
    have hmem := List.mem_of_head? hfirst
    rw [heq, List.mem_append, List.mem_singleton] at hmem
    cases hmem with
    | inl hbx => exact hb.2 hbx
    | inr hbh => exact hb.1 hbh
  have hlinks : l.insertFirst h b =
      ⟨upd (upd l.prev b h) (l.next h) b, upd (upd l.next b (l.next h)) h b⟩ := by
    simp only [Links.insertFirst, upd_of_ne (Ne.symm hb.1)]
  rw [hlinks]
  refine ⟨⟨upd_self _ _ _, ?_⟩, ?_, ?_⟩
  · -- from `b` on `next` is as it was from `h` on
    show LinkPath (upd (upd l.next b (l.next h)) h b) b xs h
    have hpath : LinkPath (upd l.next b (l.next h)) b xs h := by
      have hnext := hr.next
      cases xs with
      | nil =>
        show upd l.next b (l.next h) b = h
        rw [upd_self]
        exact hnext
      | cons x xs =>
        refine ⟨?_, hnext.2.upd_of_notMem hb.2⟩
        rw [upd_self]
        exact hnext.1
    refine hpath.upd_of_notMem ?_
    rw [List.mem_cons, not_or]
    exact ⟨Ne.symm hb.1, (List.nodup_cons.mp hd).1⟩
  · -- `prev` runs from `h` to the old first node, which now leads to `b`
    show LinkPath (upd (upd l.prev b h) (l.next h) b) h (b :: xs).reverse h
    rw [List.reverse_cons]
    refine LinkPath.append_cons.mpr ⟨?_, ?_⟩
    · have hold : LinkPath (upd l.prev b h) h xs.reverse h :=
        hr.prev.upd_of_notMem (by simp [hb.1, hb.2])
      refine hold.upd_last (by simpa using hd) ?_
      rw [← hfirst, ← List.getLast?_reverse, List.reverse_append, List.reverse_singleton,
        List.singleton_append]
    · show upd (upd l.prev b h) (l.next h) b b = h
      rw [upd_of_ne (Ne.symm hne), upd_self]
  · rw [List.nodup_cons] at hd
    simp only [List.nodup_cons, List.mem_cons, not_or]
    exact ⟨⟨Ne.symm hb.1, hd.1⟩, hb.2, hd.2⟩

variable {β : Type*} {p : α → Option β} {fuel : Nat}

/-- The loop along `next`. -/
theorem search_next (hr : IsRing l h xs) (hfuel : xs.length < fuel) :
    search l.next h p fuel (l.next h) = some (xs.findSome? p) :=
  search_eq_findSome hr.next (List.nodup_cons.mp hr.nodup).1 hfuel

/-- The loop along `prev`. -/
theorem search_prev (hr : IsRing l h xs) (hfuel : xs.length < fuel) :
    search l.prev h p fuel (l.prev h) = some (xs.reverse.findSome? p) :=
  hr.swap.search_next (by simpa using hfuel)

end IsRing
