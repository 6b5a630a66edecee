import Mathlib.Data.List.Perm.Subperm
import Mathlib.Tactic

/-! Rows that are sorted with their ties left in place, and rows in which the first member that is
looked for is changed. -/
namespace Perry.Containers

variable {α β : Type*}

/-- Members that all compare alike keep their order when the row is sorted. -/
theorem filter_mergeSort {le : α → α → Bool} (transitive : ∀ a b c,le a b → le b c → le a c)
    (total : ∀ a b,le a b || le b a) {keep : α → Bool} (alike : ∀ a b,keep a → keep b → le a b) (row : List α) :
    (row.mergeSort le).filter keep = row.filter keep := by
  have sorted : (row.filter keep).Pairwise fun a b => le a b := by
    apply List.pairwise_of_forall_mem_list
    intro a first b second
    exact alike a b (List.mem_filter.mp first).2 (List.mem_filter.mp second).2
  have inside : (row.filter keep).Sublist (row.mergeSort le) :=
    List.sublist_mergeSort transitive total sorted List.filter_sublist
  have kept : (row.filter keep).Sublist ((row.mergeSort le).filter keep) := by
    simpa using inside.filter keep
  have size := ((List.mergeSort_perm row le).filter keep).length_eq
  exact (kept.eq_of_length size.symm).symm

/-- Nothing, where no member is found. -/
def modifyFirst (found : α → Bool) (change : α → α) : List α → Option (List α)
  | [] => none
  | a :: row => if found a then some (change a :: row) else (modifyFirst found change row).map (a :: ·)

theorem modifyFirst_map {found : α → Bool} {change : α → α} {view : α → β} (kept : ∀ a,view (change a) = view a)
    {row changed : List α} (done : modifyFirst found change row = some changed) : changed.map view = row.map view := by
  induction row generalizing changed with
  | nil => cases done
  | cons a row ih =>
    rw [modifyFirst] at done
    split at done
    · obtain rfl := Option.some.inj done
      simp [kept]
    · obtain ⟨rest,later,rfl⟩ := Option.map_eq_some_iff.mp done
      simp [ih later]

theorem mem_modifyFirst {found : α → Bool} {change : α → α} {row changed : List α} {b : α}
    (done : modifyFirst found change row = some changed) (member : b ∈ changed) : b ∈ row ∨ ∃ a ∈ row,b = change a := by
  induction row generalizing changed with
  | nil => cases done
  | cons a row ih =>
    rw [modifyFirst] at done
    split at done
    · obtain rfl := Option.some.inj done
      rcases List.mem_cons.mp member with rfl | later
      · exact .inr ⟨a,List.mem_cons_self,rfl⟩
      · exact .inl (List.mem_cons_of_mem a later)
    · obtain ⟨rest,later,rfl⟩ := Option.map_eq_some_iff.mp done
      rcases List.mem_cons.mp member with rfl | further
      · exact .inl List.mem_cons_self
      · rcases ih later further with old | ⟨c,inside,rfl⟩
        · exact .inl (List.mem_cons_of_mem a old)
        · exact .inr ⟨c,List.mem_cons_of_mem a inside,rfl⟩

/-- A row none of whose members stands more often than in a row without doubles has none either. -/
theorem nodup_of_subperm {few many : List α} (inside : few.Subperm many) (distinct : many.Nodup) : few.Nodup := by
  obtain ⟨row,same,part⟩ := inside
  exact same.nodup_iff.mp (distinct.sublist part)

end Perry.Containers
