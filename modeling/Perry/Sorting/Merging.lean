import Perry.Sorting.Stable

/-! Lists that are sorted by inserting and merging. What a comparison may answer is a relation, so one
account covers answers that contradict each other and the answers of an order. -/
namespace Perry.Sorting

/-- The last element moves to the left past every element it is not to stand behind. -/
inductive Inserts {α : Type*} (answers : α → α → Bool → Prop) : List α → α → List α → Prop
  | bottom (b : α) : Inserts answers [] b [b]
  | stay {a b : α} (as : List α) (answer : answers a b true) : Inserts answers (as ++ [a]) b (as ++ [a,b])
  | pass {a b : α} {as bs : List α} (answer : answers a b false) (inserted : Inserts answers as b bs) :
      Inserts answers (as ++ [a]) b (bs ++ [a])

inductive Merges {α : Type*} (answers : α → α → Bool → Prop) : List α → List α → List α → Prop
  | left (as : List α) : Merges answers as [] as
  | right (bs : List α) : Merges answers [] bs bs
  | first {a b : α} {as bs cs : List α} (answer : answers a b true) (merged : Merges answers as (b :: bs) cs) :
      Merges answers (a :: as) (b :: bs) (a :: cs)
  | second {a b : α} {as bs cs : List α} (answer : answers a b false) (merged : Merges answers (a :: as) bs cs) :
      Merges answers (a :: as) (b :: bs) (b :: cs)

/-- What insertions and merges make of a list. -/
inductive Arranges {α : Type*} (answers : α → α → Bool → Prop) : List α → List α → Prop
  | nil : Arranges answers [] []
  | insert {vals as bs : List α} {b : α} (arranged : Arranges answers vals as) (inserted : Inserts answers as b bs) :
      Arranges answers (vals ++ [b]) bs
  | merge {vals vals' as bs cs : List α} (arranged : Arranges answers vals as) (arranged' : Arranges answers vals' bs)
      (merged : Merges answers as bs cs) : Arranges answers (vals ++ vals') cs

/-- Every block of the width is arranged by itself; the last one may be shorter. -/
inductive Runs {α : Type*} (answers : α → α → Bool → Prop) (width : Nat) : List α → List α → Prop
  | last {vals as : List α} (short : vals.length ≤ width) (arranged : Arranges answers vals as) : Runs answers width vals as
  | more {vals as rest bs : List α} (full : vals.length = width) (arranged : Arranges answers vals as)
      (runs : Runs answers width rest bs) : Runs answers width (vals ++ rest) (as ++ bs)

section perm

variable {α : Type*} {answers : α → α → Bool → Prop} {vals as bs cs : List α} {b : α} {width : Nat}

theorem Inserts.perm (inserts : Inserts answers as b bs) : bs.Perm (as ++ [b]) := by
  induction inserts with
  | bottom b => exact .refl _
  | stay as answer => rw [List.append_assoc]; exact .refl _
  | pass answer inserted ih =>
    apply (ih.append_right _).trans
    rw [List.append_assoc,List.append_assoc]
    exact (List.Perm.swap _ _ []).append_left _

theorem Merges.perm (merges : Merges answers as bs cs) : cs.Perm (as ++ bs) := by
  induction merges with
  | left as => rw [List.append_nil]
  | right bs => exact .refl _
  | first answer merged ih => exact ih.cons _
  | second answer merged ih => exact (ih.cons _).trans List.perm_middle.symm

theorem Arranges.perm (arranges : Arranges answers vals as) : as.Perm vals := by
  induction arranges with
  | nil => exact .refl _
  | insert arranged inserted ih => exact inserted.perm.trans (ih.append_right _)
  | merge arranged arranged' merged ih ih' => exact merged.perm.trans (ih.append ih')

theorem Runs.perm (runs : Runs answers width vals as) : as.Perm vals := by
  induction runs with
  | last short arranged => exact arranged.perm
  | more full arranged runs ih => exact arranged.perm.append ih

/-- A block that is as wide as the list is the list. -/
theorem Runs.whole (runs : Runs answers width vals as) (wide : vals.length ≤ width) : Arranges answers vals as := by
  cases runs with
  | last short arranged => exact arranged
  | more full arranged runs =>
    rw [List.length_append,full] at wide
    have none := List.length_eq_zero_iff.mp (Nat.le_zero.mp (Nat.le_of_add_le_add_left wide))
    subst none
    rw [List.perm_nil.mp runs.perm,List.append_nil,List.append_nil]
    exact arranged

/-- The first block of a list, and the blocks behind it. -/
theorem Runs.split (runs : Runs answers width vals as) :
    Arranges answers (vals.take width) (as.take width) ∧ Runs answers width (vals.drop width) (as.drop width) := by
  cases runs with
  | last short arranged =>
    have short' := arranged.perm.length_eq.le.trans short
    rw [List.take_of_length_le short,List.take_of_length_le short',List.drop_of_length_le short,List.drop_of_length_le short']
    exact ⟨arranged,.last (Nat.zero_le _) .nil⟩
  | more full arranged runs =>
    have full' := arranged.perm.length_eq.trans full
    rw [← full,List.take_left,List.drop_left,full,← full',List.take_left,List.drop_left,full']
    exact ⟨arranged,runs⟩

theorem Runs.block (arranged : Arranges answers (vals.take width) as) (runs : Runs answers width (vals.drop width) bs) :
    Runs answers width vals (as ++ bs) := by
  obtain short | long := Nat.le_total vals.length width
  · rw [List.drop_of_length_le short] at runs
    rw [List.take_of_length_le short] at arranged
    rw [List.perm_nil.mp runs.perm,List.append_nil]
    exact .last short arranged
  · have joined := Runs.more (List.length_take_of_le long) arranged runs
    rwa [List.take_append_drop] at joined

end perm

/-- The comparison gives the answers of an order. -/
def Orders {α : Type*} (le : α → α → Bool) (a b : α) (answer : Bool) : Prop := answer = le a b

section stable

variable {α : Type*} {le : α → α → Bool} {vals as bs cs : List α} {a b : α}

theorem apart_of_above (order : TotalPreorder le) (above : le a b = false) (c : α) :
    [b].filter (alike le c) ++ [a].filter (alike le c) = [a].filter (alike le c) ++ [b].filter (alike le c) := by
  cases first : alike le c a with
  | false => simp [first]
  | true =>
    cases second : alike le c b with
    | false => simp [second]
    | true =>
      rw [alike,Bool.and_eq_true] at first second
      exact absurd (order.trans _ _ _ first.2 second.1) (Bool.eq_false_iff.mp above)

namespace Inserts

theorem kept (order : TotalPreorder le) (inserts : Inserts (Orders le) as b bs) (c : α) :
    bs.filter (alike le c) = (as ++ [b]).filter (alike le c) := by
  induction inserts with
  | bottom b => rfl
  | stay as answer => rw [List.append_assoc]; rfl
  | pass answer inserted ih =>
    rw [List.filter_append,ih,List.filter_append,List.append_assoc,apart_of_above order answer.symm,← List.append_assoc,
      ← List.filter_append,← List.filter_append]

theorem sorted (order : TotalPreorder le) (inserts : Inserts (Orders le) as b bs)
    (sorted : as.Pairwise fun a b => le a b = true) : bs.Pairwise fun a b => le a b = true := by
  induction inserts with
  | bottom b => exact List.pairwise_singleton _ b
  | stay as answer =>
    obtain ⟨front,-,below⟩ := List.pairwise_append.mp sorted
    apply List.pairwise_append.mpr
    refine ⟨front,List.pairwise_pair.mpr answer.symm,fun c member d later => ?_⟩
    have near := below c member _ (List.mem_singleton_self _)
    obtain rfl | last := List.mem_cons.mp later
    · exact near
    · rw [List.mem_singleton.mp last]
      exact order.trans _ _ _ near answer.symm
  | pass answer inserted ih =>
    obtain ⟨front,-,below⟩ := List.pairwise_append.mp sorted
    refine List.pairwise_append.mpr ⟨ih front,List.pairwise_singleton _ _,fun c member d last => ?_⟩
    obtain earlier | new := List.mem_append.mp (inserted.perm.mem_iff.mp member)
    · exact below c earlier d last
    · rw [List.mem_singleton.mp last,List.mem_singleton.mp new]
      exact order.of_not answer.symm

end Inserts

namespace Merges

theorem kept (order : TotalPreorder le) (merges : Merges (Orders le) as bs cs)
    (sorted : as.Pairwise fun a b => le a b = true) (c : α) :
    cs.filter (alike le c) = (as ++ bs).filter (alike le c) := by
  induction merges with
  | left as => rw [List.append_nil]
  | right bs => rfl
  | first answer merged ih =>
    rw [List.filter_cons,ih (List.pairwise_cons.mp sorted).2,List.cons_append,List.filter_cons]
  | @second a b as bs cs answer merged ih =>
    rw [List.filter_cons,ih sorted,List.filter_append,List.filter_append,List.filter_cons (x := b)]
    split_ifs with like
    · -- everything that is left stands above the second
      have none : (a :: as).filter (alike le c) = [] := by
        rw [List.filter_eq_nil_iff]
        intro d member like'
        rw [alike,Bool.and_eq_true] at like like'
        have near : le d b = true := order.trans _ _ _ like'.2 like.1
        obtain rfl | later := List.mem_cons.mp member
        · exact absurd near (Bool.eq_false_iff.mp answer.symm)
        · exact absurd (order.trans _ _ _ ((List.pairwise_cons.mp sorted).1 d later) near) (Bool.eq_false_iff.mp answer.symm)
      rw [none]
      rfl
    · rfl

theorem sorted (order : TotalPreorder le) (merges : Merges (Orders le) as bs cs)
    (sorted : as.Pairwise fun a b => le a b = true) (sorted' : bs.Pairwise fun a b => le a b = true) :
    cs.Pairwise fun a b => le a b = true := by
  induction merges with
  | left as => exact sorted
  | right bs => exact sorted'
  | first answer merged ih =>
    obtain ⟨below,rest⟩ := List.pairwise_cons.mp sorted
    refine List.pairwise_cons.mpr ⟨fun c member => ?_,ih rest sorted'⟩
    obtain earlier | later := List.mem_append.mp (merged.perm.mem_iff.mp member)
    · exact below c earlier
    · obtain rfl | later := List.mem_cons.mp later
      · exact answer.symm
      · exact order.trans _ _ _ answer.symm ((List.pairwise_cons.mp sorted').1 c later)
  | second answer merged ih =>
    obtain ⟨below,rest⟩ := List.pairwise_cons.mp sorted'
    refine List.pairwise_cons.mpr ⟨fun c member => ?_,ih sorted rest⟩
    have near := order.of_not answer.symm
    obtain earlier | later := List.mem_append.mp (merged.perm.mem_iff.mp member)
    · obtain rfl | later := List.mem_cons.mp earlier
      · exact near
      · exact order.trans _ _ _ near ((List.pairwise_cons.mp sorted).1 c later)
    · exact below c later

end Merges

/-- With the answers of an order, a list is arranged into its stable sort. -/
theorem Arranges.stable (order : TotalPreorder le) (arranges : Arranges (Orders le) vals as) : IsStableSort le vals as := by
  induction arranges with
  | nil => exact ⟨.refl _,.nil,fun _ => rfl⟩
  | insert arranged inserted ih =>
    refine ⟨(arranged.insert inserted).perm,inserted.sorted order ih.sorted,fun c => ?_⟩
    rw [inserted.kept order,List.filter_append,List.filter_append,ih.kept]
  | merge arranged arranged' merged ih ih' =>
    refine ⟨(arranged.merge arranged' merged).perm,merged.sorted order ih.sorted ih'.sorted,fun c => ?_⟩
    rw [merged.kept order ih.sorted,List.filter_append,List.filter_append,ih.kept,ih'.kept]

end stable
end Perry.Sorting
