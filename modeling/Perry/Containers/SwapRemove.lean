import Mathlib.Tactic

/-! Removal from a row by moving its last element into the gap. -/
namespace Perry.Containers

open scoped List

variable {α : Type*}

/-- `swap_remove`, of a place inside the row. -/
def swapRemove (xs : List α) (place : Nat) : List α :=
  match xs.getLast? with
  | none => xs
  | some last => (xs.set place last).dropLast

variable {xs : List α} {place : Nat} {x : α}

theorem swapRemove_concat (front : List α) (last : α) (place : Nat) :
    swapRemove (front ++ [last]) place = ((front ++ [last]).set place last).dropLast := by
  simp [swapRemove]

theorem swapRemove_end (front : List α) (last : α) : swapRemove (front ++ [last]) front.length = front := by
  simp [swapRemove_concat]

theorem swapRemove_inner {front : List α} (inner : place < front.length) (last : α) :
    swapRemove (front ++ [last]) place = front.set place last := by
  rw [swapRemove_concat,List.set_append_left _ _ inner,List.dropLast_concat]

/-- A place that is in the row is the end, or lies in front of it. -/
theorem split_at (found : xs[place]? = some x) :
    (∃ front,xs = front ++ [x] ∧ place = front.length) ∨
      ∃ front last,xs = front ++ [last] ∧ front[place]? = some x := by
  obtain rfl | ⟨front,last,rfl⟩ := xs.eq_nil_or_concat
  · simp at found
  rw [List.concat_eq_append] at found ⊢
  obtain inner | outer := lt_or_ge place front.length
  · rw [List.getElem?_append_left inner] at found
    exact .inr ⟨front,last,rfl,found⟩
  · obtain ⟨inside,rfl⟩ := List.getElem?_eq_some_iff.mp found
    have at_end : place = front.length := by
      rw [List.length_append,List.length_singleton] at inside
      omega
    subst at_end
    exact .inl ⟨front,by simp,rfl⟩

theorem length_swapRemove (found : xs[place]? = some x) : (swapRemove xs place).length + 1 = xs.length := by
  obtain ⟨front,rfl,rfl⟩ | ⟨front,last,rfl,inside⟩ := split_at found
  · rw [swapRemove_end,List.length_append,List.length_singleton]
  · rw [swapRemove_inner (List.getElem?_eq_some_iff.mp inside).1,List.length_set,List.length_append,List.length_singleton]

theorem take_swapRemove (found : xs[place]? = some x) : (swapRemove xs place).take place = xs.take place := by
  obtain ⟨front,rfl,rfl⟩ | ⟨front,last,rfl,inside⟩ := split_at found
  · rw [swapRemove_end,List.take_append_of_le_length (Nat.le_refl _)]
  · have inner := (List.getElem?_eq_some_iff.mp inside).1
    rw [swapRemove_inner inner,List.take_append_of_le_length inner.le,List.take_set_of_le (Nat.le_refl _)]

/-- What was removed, and what is left in another order. -/
theorem swapRemove_perm (found : xs[place]? = some x) : (x :: swapRemove xs place).Perm xs := by
  obtain ⟨front,rfl,rfl⟩ | ⟨front,last,rfl,inside⟩ := split_at found
  · rw [swapRemove_end]
    exact (List.perm_append_singleton x front).symm
  · obtain ⟨inner,rfl⟩ := List.getElem?_eq_some_iff.mp inside
    rw [swapRemove_inner inner]
    obtain ⟨before,after,cut,_,placed⟩ : ∃ before after,front = before ++ front[place] :: after ∧ before.length = place ∧
        front.set place last = before ++ last :: after := List.exists_of_set inner
    rw [placed]
    calc front[place] :: (before ++ last :: after)
      _ ~ front[place] :: last :: (before ++ after) := List.perm_middle.cons _
      _ ~ last :: front[place] :: (before ++ after) := .swap ..
      _ ~ last :: (before ++ front[place] :: after) := List.perm_middle.symm.cons _
      _ ~ (before ++ front[place] :: after) ++ [last] := (List.perm_append_singleton ..).symm
      _ ~ front ++ [last] := by rw [← cut]

end Perry.Containers
