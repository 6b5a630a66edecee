import Mathlib.Data.List.Sort
import Mathlib.Data.List.FinRange

/-! Stable sorts. The result is ordered, and elements that the order does not tell apart stand in it
as they stood before. Elements are followed through a sort by their ranks. -/
namespace Perry.Sorting

/-- A relation that orders all elements, some of them alike. -/
structure TotalPreorder {α : Type*} (le : α → α → Bool) : Prop where
  total : ∀ a b,(le a b || le b a) = true
  trans : ∀ a b c,le a b = true → le b c = true → le a c = true

def alike {α : Type*} (le : α → α → Bool) (a b : α) : Bool := le a b && le b a

structure IsStableSort {α : Type*} (le : α → α → Bool) (vals result : List α) : Prop where
  perm : result.Perm vals
  sorted : result.Pairwise fun a b => le a b = true
  kept : ∀ a,result.filter (alike le a) = vals.filter (alike le a)

/-- The first rank goes before the second: it did before and is not above it, or it is below it. -/
def Before {α : Type*} (le : α → α → Bool) (vals : List α) (i j : Fin vals.length) : Prop :=
  i < j ∧ le (vals.get i) (vals.get j) = true ∨ j < i ∧ le (vals.get j) (vals.get i) = false

variable {α : Type*} {le : α → α → Bool} {a b : α} {as bs vals : List α}

namespace TotalPreorder

variable (order : TotalPreorder le)
include order

theorem refl (a : α) : le a a = true := by simpa using order.total a a

theorem of_not (above : le b a = false) : le a b = true := by
  have either := order.total a b
  rwa [above,Bool.or_false] at either

theorem alike_self (a : α) : alike le a a = true := by rw [alike,order.refl a,Bool.and_self]

theorem eq_of_filter_eq (sorted : as.Pairwise fun a b => le a b = true) (sorted' : bs.Pairwise fun a b => le a b = true)
    (same : ∀ a,as.filter (alike le a) = bs.filter (alike le a)) : as = bs := by
  have inhabited {a : α} {as : List α} : (a :: as).filter (alike le a) ≠ [] := by
    rw [List.filter_cons_of_pos (order.alike_self a)]
    exact List.cons_ne_nil _ _
  have least {a b : α} {as bs : List α} (sorted : (b :: bs).Pairwise fun a b => le a b = true)
      (same : ∀ c,(a :: as).filter (alike le c) = (b :: bs).filter (alike le c)) : le b a = true := by
    have member : a ∈ (b :: bs).filter (alike le a) := by
      rw [← same a,List.filter_cons_of_pos (order.alike_self a)]
      exact List.mem_cons_self
    obtain rfl | later := List.mem_cons.mp (List.mem_filter.mp member).1
    · exact order.refl a
    · exact (List.pairwise_cons.mp sorted).1 a later
  induction as generalizing bs with
  | nil =>
    cases bs with
    | nil => rfl
    | cons b bs => exact absurd (same b).symm inhabited
  | cons a as ih =>
    cases bs with
    | nil => exact absurd (same a) inhabited
    | cons b bs =>
      have both : alike le a b = true := by
        rw [alike,least sorted fun c => (same c).symm,least sorted' same,Bool.and_self]
      have heads := same a
      rw [List.filter_cons_of_pos (order.alike_self a),List.filter_cons_of_pos both] at heads
      obtain ⟨rfl,-⟩ := List.cons.inj heads
      rw [ih (List.pairwise_cons.mp sorted).2 (List.pairwise_cons.mp sorted').2]
      intro c
      have tails := same c
      rw [List.filter_cons,List.filter_cons] at tails
      split_ifs at tails with shared
      · exact (List.cons.inj tails).2
      · exact tails

end TotalPreorder

/-- There is one stable sort of a list. -/
theorem IsStableSort.unique (order : TotalPreorder le) (left : IsStableSort le vals as) (right : IsStableSort le vals bs) :
    as = bs := by
  apply order.eq_of_filter_eq left.sorted right.sorted
  intro a
  rw [left.kept,right.kept]

section ranks

variable {ranks : List (Fin vals.length)}

theorem not_both_ways (distinct : as.Nodup) (placed : [a,b].Sublist as) : ¬ [b,a].Sublist as := by
  intro turned
  induction as with
  | nil => cases placed
  | cons c as ih =>
    obtain ⟨absent,rest⟩ := List.nodup_cons.mp distinct
    cases placed with
    | cons _ placed =>
      cases turned with
      | cons _ turned => exact ih rest placed turned
      | cons_cons _ turned => exact absent (placed.subset (List.mem_cons_of_mem a List.mem_cons_self))
    | cons_cons _ placed =>
      cases turned with
      | cons _ turned => exact absent (turned.subset (List.mem_cons_of_mem b List.mem_cons_self))
      | cons_cons _ turned => exact absent (turned.subset List.mem_cons_self)

theorem before_mergeSort (order : TotalPreorder le) (vals : List α) :
    ((List.finRange vals.length).mergeSort fun i j => le (vals.get i) (vals.get j)).Pairwise (Before le vals) := by
  have total : ∀ i j : Fin vals.length,(le (vals.get i) (vals.get j) || le (vals.get j) (vals.get i)) = true :=
    fun i j => order.total _ _
  have trans : ∀ i j k : Fin vals.length,le (vals.get i) (vals.get j) = true → le (vals.get j) (vals.get k) = true →
      le (vals.get i) (vals.get k) = true :=
    fun i j k => order.trans _ _ _
  have perm := List.mergeSort_perm (List.finRange vals.length) fun i j => le (vals.get i) (vals.get j)
  have distinct := perm.nodup_iff.mpr (List.nodup_finRange _)
  rw [List.pairwise_iff_forall_sublist]
  intro i j placed
  have sorted := List.pairwise_iff_forall_sublist.mp (List.pairwise_mergeSort trans total (List.finRange vals.length)) placed
  obtain earlier | same | later := lt_trichotomy i j
  · exact .inl ⟨earlier,sorted⟩
  · exact absurd same (List.pairwise_iff_forall_sublist.mp distinct placed)
  · refine .inr ⟨later,Bool.eq_false_iff.mpr fun below => ?_⟩
    have first : [j,i].Sublist (List.finRange vals.length) := by
      apply List.sublist_of_subperm_of_pairwise (r := (· < ·))
      · apply List.subperm_of_subset (List.pairwise_pair.mpr later.ne)
        intro k _
        exact List.mem_finRange k
      · exact List.pairwise_pair.mpr later
      · exact List.pairwise_lt_finRange _
    exact not_both_ways distinct placed (List.pair_sublist_mergeSort trans total below first)

theorem stable_of_before (order : TotalPreorder le) (perm : ranks.Perm (List.finRange vals.length))
    (placed : ranks.Pairwise (Before le vals)) : IsStableSort le vals (ranks.map vals.get) := by
  refine ⟨?_,?_,fun a => ?_⟩
  · have all := perm.map vals.get
    rwa [List.map_get_finRange] at all
  · rw [List.pairwise_map]
    apply placed.imp
    rintro i j (⟨-,below⟩ | ⟨-,above⟩)
    · exact below
    · exact order.of_not above
  · conv_rhs => rw [← List.map_get_finRange vals]
    rw [List.filter_map,List.filter_map]
    congr 1
    apply List.Perm.eq_of_pairwise (fun i j _ _ (less : i < j) (greater : j < i) => absurd greater less.not_gt)
    · rw [List.pairwise_filter]
      apply placed.imp
      rintro i j (⟨earlier,-⟩ | ⟨-,above⟩) like like'
      · exact earlier
      · simp only [Function.comp_apply,alike,Bool.and_eq_true] at like like'
        exact absurd (order.trans _ _ _ like'.2 like.1) (Bool.eq_false_iff.mp above)
    · exact (List.pairwise_lt_finRange _).filter _
    · exact perm.filter _

end ranks

end Perry.Sorting
