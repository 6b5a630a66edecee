import Perry.Containers.Tombstones

/-! Lists without repetitions, built by appending what is not there yet, and buffers whose first
slots are read as if none of them were a hole. -/
namespace Perry.Containers

variable {α : Type*} [DecidableEq α]

def appendNew (xs : List α) (y : α) : List α := if y ∈ xs then xs else xs ++ [y]

/-- What the second list adds to the first. -/
def additions (xs ys : List α) : List α := (ys.filter (· ∉ xs)).eraseDups

section Appending

variable {xs ys zs : List α} {y z : α}

theorem mem_appendNew : z ∈ appendNew xs y ↔ z ∈ xs ∨ z = y := by
  unfold appendNew
  split
  · rename_i known
    constructor
    · exact Or.inl
    · rintro (member | rfl)
      · exact member
      · exact known
  · simp

theorem additions_cons : additions xs (y :: ys) = (if y ∈ xs then [] else [y]) ++ additions (appendNew xs y) ys := by
  unfold additions
  by_cases known : y ∈ xs
  · rw [if_pos known,appendNew,if_pos known,List.filter_cons_of_neg (by simpa using known),List.nil_append]
  · rw [if_neg known,List.filter_cons_of_pos (by simpa using known),List.eraseDups_cons,List.filter_filter]
    have same : ∀ z ∈ ys,(!z == y && decide (z ∉ xs)) = decide (z ∉ appendNew xs y) := by
      intro z _
      rw [Bool.eq_iff_iff]
      simp [mem_appendNew]
      tauto
    rw [List.filter_congr same]
    rfl

/-- Appending one after the other appends what is added. -/
theorem foldl_appendNew : ys.foldl appendNew xs = xs ++ additions xs ys := by
  induction ys generalizing xs with
  | nil => exact (List.append_nil xs).symm
  | cons y ys step =>
    rw [List.foldl_cons,step,additions_cons,← List.append_assoc]
    congr 1
    unfold appendNew
    split <;> simp

theorem additions_of_nodup (distinct : ys.Nodup) : additions xs ys = ys.filter (· ∉ xs) := by
  induction ys generalizing xs with
  | nil => rfl
  | cons y ys step =>
    obtain ⟨outside,distinct⟩ := List.nodup_cons.mp distinct
    have same : ∀ z ∈ ys,decide (z ∉ appendNew xs y) = decide (z ∉ xs) := by
      intro z member
      have differ : z ≠ y := fun equal => outside (equal ▸ member)
      simp [mem_appendNew,differ]
    rw [additions_cons,step distinct,List.filter_congr same,List.filter_cons]
    by_cases known : y ∈ xs <;> simp [known]

theorem additions_filter (inside : ∀ x ∈ xs,x ∈ zs) : additions xs (ys.filter (· ∉ zs)) = additions zs ys := by
  unfold additions
  rw [List.filter_filter]
  congr 1
  apply List.filter_congr
  intro y _
  have := inside y
  rw [Bool.eq_iff_iff]
  simp
  tauto

end Appending

section Reading

variable (filler : α)

/-- The slots as values, a hole as the filler. -/
def readAs (slots : List (Option α)) : List α := slots.map (·.getD filler)

variable {filler} {xs : List α} {slots : List (Option α)}

end Reading

end Perry.Containers
