import Mathlib.Data.List.ReduceOption
import Mathlib.Tactic

/-! Append-only buffers whose deleted entries stay behind as holes.
A position of the buffer is known by the live entries on its two sides. Squeezing the holes out
moves a position down by the holes below it and keeps both sides.
-/
namespace Perry.Containers

variable {α β : Type*}

/-- The holes among the first `position` slots. -/
def holesBelow (slots : List (Option α)) (position : Nat) : Nat :=
  (slots.take position).countP Option.isNone

def squeeze (slots : List (Option α)) : List (Option α) :=
  slots.filter Option.isSome

/-- The raw indices of the holes, ascending, of a buffer whose first slot has the given index. -/
def removedFrom : Nat → List (Option α) → List Nat
  | _, [] => []
  | index, none :: rest => index :: removedFrom (index + 1) rest
  | index, some _ :: rest => removedFrom (index + 1) rest

/-- The first occupied index at or after the given one. -/
def nextLive (slots : List (Option α)) (index : Nat) : Option Nat :=
  ((slots.drop index).findIdx? Option.isSome).map (· + index)

/-- The raw index of the occupied slot with the given number of occupied slots before it. -/
def liveToRaw : List (Option α) → Nat → Option Nat
  | [], _ => none
  | none :: rest, index => (liveToRaw rest index).map (· + 1)
  | some _ :: _, 0 => some 0
  | some _ :: rest, index + 1 => (liveToRaw rest index).map (· + 1)

/-- Two positions of two buffers with the same live entries before them and after them. -/
structure Aligned (slots : List (Option α)) (position : Nat)
    (slots' : List (Option α)) (position' : Nat) : Prop where
  inside : position ≤ slots.length
  inside' : position' ≤ slots'.length
  before : (slots.take position).reduceOption = (slots'.take position').reduceOption
  after : (slots.drop position).reduceOption = (slots'.drop position').reduceOption

section Squeezing

variable (slots : List (Option α)) (position : Nat)

@[simp] theorem reduceOption_squeeze : (squeeze slots).reduceOption = slots.reduceOption := by
  induction slots with
  | nil => rfl
  | cons slot rest step => cases slot <;> simp_all [squeeze]

@[simp] theorem length_squeeze : (squeeze slots).length = slots.reduceOption.length := by
  induction slots with
  | nil => rfl
  | cons slot rest step => cases slot <;> simp_all [squeeze]

theorem squeeze_eq_map : squeeze slots = slots.reduceOption.map some := by
  induction slots with
  | nil => rfl
  | cons slot rest step => cases slot <;> simp_all [squeeze]

theorem squeeze_append (front back : List (Option α)) :
    squeeze (front ++ back) = squeeze front ++ squeeze back := by
  simp [squeeze]

theorem length_take_eq : (slots.take position).length =
    holesBelow slots position + (slots.take position).reduceOption.length := by
  unfold holesBelow
  induction slots.take position with
  | nil => rfl
  | cons slot rest step =>
    cases slot with
    | none => simp_all; omega
    | some entry => simp_all; omega

theorem sub_holesBelow (inside : position ≤ slots.length) :
    position - holesBelow slots position = (squeeze (slots.take position)).length := by
  have split := length_take_eq slots position
  rw [List.length_take_of_le inside] at split
  rw [length_squeeze]
  omega

theorem take_squeeze (inside : position ≤ slots.length) :
    (squeeze slots).take (position - holesBelow slots position) = squeeze (slots.take position) := by
  rw [sub_holesBelow slots position inside]
  conv_lhs => rw [← List.take_append_drop position slots,squeeze_append]
  exact List.take_left' (by simp)

theorem drop_squeeze (inside : position ≤ slots.length) :
    (squeeze slots).drop (position - holesBelow slots position) = squeeze (slots.drop position) := by
  rw [sub_holesBelow slots position inside]
  conv_lhs => rw [← List.take_append_drop position slots,squeeze_append]
  exact List.drop_left' (by simp)

theorem removedFrom_ge (index : Nat) : ∀ hole ∈ removedFrom index slots, index ≤ hole := by
  induction slots generalizing index with
  | nil => simp [removedFrom]
  | cons slot rest step =>
    intro hole member
    cases slot with
    | none =>
      simp only [removedFrom,List.mem_cons] at member
      rcases member with rfl | member
      · exact le_rfl
      · exact Nat.le_of_succ_le (step _ hole member)
    | some entry => exact Nat.le_of_succ_le (step _ hole member)

/-- Counting the removed indices below a position counts the holes below it. -/
theorem length_takeWhile_removedFrom (index : Nat) :
    ((removedFrom index slots).takeWhile (· < position)).length =
      holesBelow slots (position - index) := by
  induction slots generalizing index with
  | nil => simp [removedFrom,holesBelow]
  | cons slot rest step =>
    by_cases reached : index < position
    · obtain ⟨gap,rfl⟩ : ∃ gap, position = index + (gap + 1) := ⟨position - index - 1,by omega⟩
      have rest_gap : index + (gap + 1) - (index + 1) = gap := by omega
      have gap_eq : index + (gap + 1) - index = gap + 1 := by omega
      have tail := step (index + 1)
      rw [rest_gap] at tail
      rw [gap_eq]
      cases slot with
      | none => simpa [removedFrom,holesBelow,reached] using tail
      | some entry => simpa [removedFrom,holesBelow] using tail
    · have none_below : ∀ hole ∈ removedFrom index (slot :: rest), ¬ hole < position := by
        intro hole member
        have := removedFrom_ge (slot :: rest) index hole member
        omega
      have empty : (removedFrom index (slot :: rest)).takeWhile (· < position) = [] := by
        cases shape : removedFrom index (slot :: rest) with
        | nil => rfl
        | cons hole more =>
          have := none_below hole (by simp [shape])
          simp [this]
      rw [empty,Nat.sub_eq_zero_of_le (by omega)]
      rfl

/-- The slot of a live index holds the element of that index. -/
theorem slot_liveToRaw (slots : List (Option α)) (index : Nat) :
    (liveToRaw slots index).bind (slots[·]?) = slots.reduceOption[index]?.map some := by
  induction slots generalizing index with
  | nil => rfl
  | cons slot rest step =>
    cases slot with
    | none =>
      rw [List.reduceOption_cons_of_none,← step,liveToRaw]
      cases liveToRaw rest index <;> rfl
    | some entry =>
      cases index with
      | zero => rfl
      | succ index =>
        rw [List.reduceOption_cons_of_some,List.getElem?_cons_succ,← step,liveToRaw]
        cases liveToRaw rest index <;> rfl

end Squeezing

namespace Aligned

variable {slots slots' : List (Option α)} {position position' : Nat}

theorem whole (aligned : Aligned slots position slots' position') :
    slots.reduceOption = slots'.reduceOption := by
  rw [← List.take_append_drop position slots,← List.take_append_drop position' slots',
    List.reduceOption_append,List.reduceOption_append,aligned.before,aligned.after]

theorem start (same : slots.reduceOption = slots'.reduceOption) : Aligned slots 0 slots' 0 where
  inside := Nat.zero_le _
  inside' := Nat.zero_le _
  before := rfl
  after := same

/-- Squeezing the first buffer moves its position down by the holes below it. -/
theorem squeeze (aligned : Aligned slots position slots' position') :
    Aligned (squeeze slots) (position - holesBelow slots position) slots' position' where
  inside := by
    rw [sub_holesBelow slots position aligned.inside,length_squeeze,length_squeeze]
    exact ((List.take_sublist position slots).filterMap id).length_le
  inside' := aligned.inside'
  before := by rw [take_squeeze slots position aligned.inside,reduceOption_squeeze,aligned.before]
  after := by rw [drop_squeeze slots position aligned.inside,reduceOption_squeeze,aligned.after]

/-- Replacing every slot by what the same rule makes of it keeps two positions aligned. -/
theorem map (rule : α → Option α) (aligned : Aligned slots position slots' position') :
    Aligned (slots.map (·.bind rule)) position (slots'.map (·.bind rule)) position' := by
  have commutes : ∀ buffer : List (Option α),
      (buffer.map (·.bind rule)).reduceOption = buffer.reduceOption.filterMap rule := by
    intro buffer
    induction buffer with
    | nil => rfl
    | cons slot rest step =>
      cases slot with
      | none => simpa using step
      | some entry => cases shape : rule entry <;> simp_all
  constructor
  · simpa using aligned.inside
  · simpa using aligned.inside'
  · rw [← List.map_take,← List.map_take,commutes,commutes,aligned.before]
  · rw [← List.map_drop,← List.map_drop,commutes,commutes,aligned.after]

theorem append (entry : α) (aligned : Aligned slots position slots' position') :
    Aligned (slots ++ [some entry]) position (slots' ++ [some entry]) position' where
  inside := by simp; have := aligned.inside; omega
  inside' := by simp; have := aligned.inside'; omega
  before := by
    rw [List.take_append_of_le_length aligned.inside,List.take_append_of_le_length aligned.inside',
      aligned.before]
  after := by
    rw [List.drop_append_of_le_length aligned.inside,List.drop_append_of_le_length aligned.inside',
      List.reduceOption_append,List.reduceOption_append,aligned.after]

end Aligned

theorem nextLive_eq_none {slots : List (Option α)} {index : Nat}
    (exhausted : nextLive slots index = none) : (slots.drop index).reduceOption = [] := by
  simp only [nextLive,Option.map_eq_none_iff,List.findIdx?_eq_none_iff] at exhausted
  rw [List.reduceOption_eq_nil_iff]
  exact ⟨_,List.eq_replicate_of_mem fun slot member => by simpa using exhausted slot member⟩

/-- The slot found holds the first entry that is live at or after the index. -/
theorem nextLive_eq_some {slots : List (Option α)} {index found : Nat}
    (reached : nextLive slots index = some found) :
    ∃ entry, slots[found]? = some (some entry) ∧ index ≤ found ∧
      (slots.drop index).reduceOption = entry :: (slots.drop (found + 1)).reduceOption ∧
      (slots.take (found + 1)).reduceOption = (slots.take index).reduceOption ++ [entry] := by
  simp only [nextLive,Option.map_eq_some_iff] at reached
  obtain ⟨offset,at_offset,rfl⟩ := reached
  rw [List.findIdx?_eq_some_iff_getElem] at at_offset
  obtain ⟨bound,occupied,earlier⟩ := at_offset
  obtain ⟨entry,holds⟩ := Option.isSome_iff_exists.mp occupied
  have skipped : ((slots.drop index).take offset).reduceOption = [] := by
    rw [List.reduceOption_eq_nil_iff]
    refine ⟨_,List.eq_replicate_of_mem fun slot member => ?_⟩
    obtain ⟨at_slot,inside,rfl⟩ := List.mem_iff_getElem.mp member
    have := earlier at_slot (by simp at inside; omega)
    simpa using this
  have suffix : slots.drop index =
      (slots.drop index).take offset ++ some entry :: slots.drop (offset + index + 1) := by
    conv_lhs => rw [← List.take_append_drop offset (slots.drop index)]
    rw [List.drop_eq_getElem_cons bound,holds,List.drop_drop]
    congr 3
    omega
  have place : slots[offset + index]? = some (some entry) := by
    rw [← holds,List.getElem_drop,Nat.add_comm]
    exact List.getElem?_eq_getElem (by simp at bound; omega)
  refine ⟨entry,place,by omega,?_,?_⟩
  · conv_lhs => rw [suffix]
    rw [List.reduceOption_append,skipped,List.reduceOption_cons_of_some]
    rfl
  · have front : slots.take (offset + index + 1) =
        slots.take index ++ ((slots.drop index).take offset ++ [some entry]) := by
      rw [Nat.add_comm offset index,Nat.add_assoc,List.take_add,List.take_add_one]
      congr 2
      rw [List.getElem?_drop,Nat.add_comm,place]
      rfl
    rw [front,List.reduceOption_append,List.reduceOption_append,skipped]
    rfl

/-- Aligned positions find the same next entry, and stay aligned past it. -/
theorem Aligned.next {slots slots' : List (Option α)} {position position' : Nat}
    (aligned : Aligned slots position slots' position') :
    (nextLive slots position = none ∧ nextLive slots' position' = none) ∨
      ∃ found found' entry, nextLive slots position = some found ∧
        nextLive slots' position' = some found' ∧ slots[found]? = some (some entry) ∧
        slots'[found']? = some (some entry) ∧ Aligned slots (found + 1) slots' (found' + 1) := by
  cases reached : nextLive slots position with
  | none =>
    cases reached' : nextLive slots' position' with
    | none => exact Or.inl ⟨rfl,rfl⟩
    | some found' =>
      obtain ⟨entry,_,_,rest,_⟩ := nextLive_eq_some reached'
      have empty := nextLive_eq_none reached
      rw [aligned.after,rest] at empty
      simp at empty
  | some found =>
    obtain ⟨entry,place,_,rest,front⟩ := nextLive_eq_some reached
    cases reached' : nextLive slots' position' with
    | none =>
      have empty := nextLive_eq_none reached'
      rw [← aligned.after,rest] at empty
      simp at empty
    | some found' =>
      obtain ⟨entry',place',_,rest',front'⟩ := nextLive_eq_some reached'
      have both := aligned.after
      rw [rest,rest',List.cons.injEq] at both
      obtain ⟨rfl,tails⟩ := both
      refine Or.inr ⟨found,found',entry,rfl,rfl,place,place',?_,?_,?_,tails⟩
      · exact (List.getElem?_eq_some_iff.mp place).1
      · exact (List.getElem?_eq_some_iff.mp place').1
      · rw [front,front',aligned.before]

end Perry.Containers
