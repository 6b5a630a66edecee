import Mathlib.Data.List.Sort
import Mathlib.Tactic

/-! Where a list occurs in another, and the occurrences that do not overlap, taken from the left.
A code that spells every element by a list carries the places over. -/
namespace Perry.Containers

section Searches

variable {α : Type*}

def Occurs (needle hay : List α) (i : Nat) : Prop := i ≤ hay.length ∧ needle <+: hay.drop i

/-- The places that are not closer than the width to the one that was taken before. -/
def separate (width : Nat) : Nat → List Nat → List Nat
  | _,[] => []
  | free,i :: places => if free ≤ i then i :: separate width (i + width) places else separate width free places

/-- What lies between the matches, and before the first and behind the last. -/
def stretches (width stop : Nat) : Nat → List Nat → List (Nat × Nat)
  | start,[] => [(start,stop)]
  | start,i :: places => (start,i) :: stretches width stop (i + width) places

section Splits

variable {needle hay : List α} {i : Nat}

theorem occurs_split : Occurs needle hay i ↔ ∃ front back,hay = front ++ (needle ++ back) ∧ front.length = i := by
  constructor
  · rintro ⟨inside,back,whole⟩
    refine ⟨hay.take i,back,?_,List.length_take_of_le inside⟩
    rw [whole,List.take_append_drop]
  · rintro ⟨front,back,rfl,rfl⟩
    refine ⟨?_,back,?_⟩
    · rw [List.length_append]
      exact Nat.le_add_right _ _
    · rw [List.drop_left]

theorem Occurs.fits (occurs : Occurs needle hay i) : i + needle.length ≤ hay.length := by
  obtain ⟨front,back,rfl,rfl⟩ := occurs_split.mp occurs
  rw [List.length_append,List.length_append]
  omega

end Splits

section Scans

variable {width free : Nat} {places : List Nat}

theorem separate_absent (absent : free ∉ places) : separate width free places = separate width (free + 1) places := by
  induction places generalizing free with
  | nil => rfl
  | cons i places ih =>
    rw [List.mem_cons,not_or] at absent
    rw [separate,separate]
    split_ifs with taken later later
    · rfl
    · omega
    · omega
    · exact ih absent.2

theorem separate_present (wide : 0 < width) (sorted : places.Pairwise (· < ·)) (member : free ∈ places) :
    separate width free places = free :: separate width (free + width) places := by
  induction places with
  | nil => cases member
  | cons i places ih =>
    obtain ⟨after,later⟩ := List.pairwise_cons.mp sorted
    rw [separate,separate]
    obtain rfl | member := List.mem_cons.mp member
    · rw [if_pos (Nat.le_refl _),if_neg (by omega)]
    · have less := after free member
      rw [if_neg (by omega),if_neg (by omega),ih later member]

theorem separate_beyond (beyond : ∀ i ∈ places,i < free) : separate width free places = [] := by
  induction places with
  | nil => rfl
  | cons i places ih =>
    obtain ⟨first,others⟩ := List.forall_mem_cons.mp beyond
    rw [separate,if_neg (Nat.not_le.mpr first),ih others]

theorem stretches_ne_nil (width stop start : Nat) (places : List Nat) : stretches width stop start places ≠ [] := by
  cases places <;> exact List.cons_ne_nil _ _

/-- The elements of a stretch. -/
def stretch (hay : List α) (ends : Nat × Nat) : List α := (hay.drop ends.1).take (ends.2 - ends.1)

/-- Joined by the needle, the stretches are what they were taken from. -/
theorem join_stretches {needle hay : List α} (all : ∀ i ∈ places,Occurs needle hay i) :
    needle.intercalate ((stretches needle.length hay.length free (separate needle.length free places)).map (stretch hay)) =
      hay.drop free := by
  induction places generalizing free with
  | nil =>
    rw [separate,stretches,List.map_singleton,List.intercalate_singleton,stretch]
    exact List.take_of_length_le (by rw [List.length_drop])
  | cons i places ih =>
    obtain ⟨occurs,others⟩ := List.forall_mem_cons.mp all
    rw [separate]
    split_ifs with taken
    · obtain ⟨n,rfl⟩ := Nat.exists_eq_add_of_le taken
      obtain ⟨-,back,whole⟩ := occurs
      have rest : hay.drop (free + n + needle.length) = back := by
        rw [← List.drop_drop,← whole,List.drop_left]
      rw [stretches,List.map_cons,List.intercalate_cons_of_ne_nil ((List.map_eq_nil_iff.not).mpr (stretches_ne_nil _ _ _ _)),
        ih others,rest,List.append_assoc,whole,stretch]
      dsimp only
      rw [Nat.add_sub_cancel_left,← List.drop_drop,List.take_append_drop]
    · exact ih others

end Scans

variable [DecidableEq α]

instance (needle hay : List α) (i : Nat) : Decidable (Occurs needle hay i) := inferInstanceAs (Decidable (_ ∧ _))

def occurrences (needle hay : List α) : List Nat := (List.range (hay.length + 1)).filter (Occurs needle hay ·)

def find (needle hay : List α) : Option Nat := (occurrences needle hay).head?

def rfind (needle hay : List α) : Option Nat := (occurrences needle hay).getLast?

def matchIndices (needle hay : List α) : List Nat := separate needle.length 0 (occurrences needle hay)

/-- What is left of a list when the matches are taken out. -/
def splitRanges (needle hay : List α) : List (Nat × Nat) := stretches needle.length hay.length 0 (matchIndices needle hay)

variable {needle hay : List α} {i : Nat}

theorem mem_occurrences : i ∈ occurrences needle hay ↔ Occurs needle hay i := by
  rw [occurrences,List.mem_filter,List.mem_range,decide_eq_true_iff,Nat.lt_succ_iff]
  exact and_iff_right_of_imp And.left

theorem occurrences_sorted (needle hay : List α) : (occurrences needle hay).Pairwise (· < ·) :=
  List.pairwise_lt_range.filter _

theorem find_eq_some : find needle hay = some i ↔ Occurs needle hay i ∧ ∀ j < i,¬ Occurs needle hay j := by
  have sorted := occurrences_sorted needle hay
  rw [find]
  simp only [← mem_occurrences]
  generalize occurrences needle hay = places at sorted ⊢
  cases places with
  | nil => simp
  | cons k places =>
    have after := (List.pairwise_cons.mp sorted).1
    rw [List.head?_cons,Option.some_inj]
    constructor
    · rintro rfl
      refine ⟨List.mem_cons_self,fun j less member => ?_⟩
      obtain rfl | member := List.mem_cons.mp member
      · exact Nat.lt_irrefl _ less
      · exact Nat.lt_asymm less (after j member)
    · rintro ⟨member,least⟩
      obtain rfl | member := List.mem_cons.mp member
      · rfl
      · exact absurd List.mem_cons_self (least k (after i member))

theorem find_eq_none : find needle hay = none ↔ ∀ i,¬ Occurs needle hay i := by
  rw [find,List.head?_eq_none_iff,List.eq_nil_iff_forall_not_mem]
  simp only [mem_occurrences]

theorem rfind_eq_some : rfind needle hay = some i ↔ Occurs needle hay i ∧ ∀ j,i < j → ¬ Occurs needle hay j := by
  have sorted := occurrences_sorted needle hay
  rw [rfind]
  simp only [← mem_occurrences]
  obtain none | ⟨places,k,whole⟩ := List.eq_nil_or_concat (occurrences needle hay)
  · rw [none]
    simp
  · rw [whole,List.concat_eq_append] at sorted ⊢
    have before := (List.pairwise_append.mp sorted).2.2
    rw [List.getLast?_concat,Option.some_inj]
    constructor
    · rintro rfl
      refine ⟨List.mem_append_right _ List.mem_cons_self,fun j less member => ?_⟩
      obtain member | member := List.mem_append.mp member
      · exact Nat.lt_asymm less (before j member k List.mem_cons_self)
      · rw [List.mem_singleton.mp member] at less
        exact Nat.lt_irrefl _ less
    · rintro ⟨member,greatest⟩
      obtain member | member := List.mem_append.mp member
      · exact absurd (List.mem_append_right _ List.mem_cons_self) (greatest k (before i member k List.mem_cons_self))
      · exact (List.mem_singleton.mp member).symm

theorem rfind_eq_none : rfind needle hay = none ↔ ∀ i,¬ Occurs needle hay i := by
  rw [rfind,List.getLast?_eq_none_iff,List.eq_nil_iff_forall_not_mem]
  simp only [mem_occurrences]

theorem separate_sublist (width free : Nat) (places : List Nat) : (separate width free places).Sublist places := by
  induction places generalizing free with
  | nil => exact .slnil
  | cons i places ih =>
    rw [separate]
    split_ifs
    · exact (ih _).cons_cons i
    · exact (ih _).cons i

theorem matchIndices_sorted (needle hay : List α) : (matchIndices needle hay).Pairwise (· < ·) :=
  (occurrences_sorted needle hay).sublist (separate_sublist _ _ _)

theorem occurs_of_mem_matchIndices (member : i ∈ matchIndices needle hay) : Occurs needle hay i :=
  mem_occurrences.mp ((separate_sublist _ _ _).subset member)

theorem join_splitRanges (needle hay : List α) : needle.intercalate ((splitRanges needle hay).map (stretch hay)) = hay :=
  join_stretches fun _ member => mem_occurrences.mp member

end Searches

section Codes

variable {α β : Type*}

/-- Where the code of an element starts. -/
def place (code : α → List β) (hay : List α) (i : Nat) : Nat := ((hay.take i).flatMap code).length

variable {code : α → List β} {needle hay : List α} {i j : Nat}

theorem place_left (front back : List α) : place code (front ++ back) front.length = (front.flatMap code).length := by
  rw [place,List.take_left]

/-- Elements with a code take up some room. -/
theorem place_lt (some : ∀ c ∈ hay,code c ≠ []) (less : i < j) (inside : j ≤ hay.length) : place code hay i < place code hay j := by
  obtain ⟨n,rfl⟩ := Nat.exists_eq_add_of_lt less
  have more : hay.take (i + n + 1) = hay.take i ++ (hay.drop i).take (n + 1) := by
    rw [Nat.add_assoc,List.take_add]
  cases rest : hay.drop i with
  | nil =>
    have short := List.drop_eq_nil_iff.mp rest
    omega
  | cons c others =>
    have member : c ∈ hay := List.mem_of_mem_drop (rest ▸ List.mem_cons_self)
    have room := List.length_pos_of_ne_nil (some c member)
    rw [place,place,more,rest,List.take_succ_cons,List.flatMap_append,List.flatMap_cons,List.length_append,List.length_append]
    omega

theorem place_le_iff (some : ∀ c ∈ hay,code c ≠ []) (left : i ≤ hay.length) (right : j ≤ hay.length) :
    place code hay i ≤ place code hay j ↔ i ≤ j := by
  constructor
  · intro le
    by_contra less
    exact absurd (place_lt some (Nat.lt_of_not_le less) left) (Nat.not_lt.mpr le)
  · intro le
    obtain rfl | less := Nat.eq_or_lt_of_le le
    · exact Nat.le_refl _
    · exact (place_lt some less right).le

theorem place_add (occurs : Occurs needle hay i) : place code hay (i + needle.length) = place code hay i + (needle.flatMap code).length := by
  obtain ⟨front,back,rfl,rfl⟩ := occurs_split.mp occurs
  rw [place_left,← List.append_assoc,← List.length_append,place_left,List.flatMap_append,List.length_append]

theorem separate_map (some : ∀ c ∈ hay,code c ≠ []) {places : List Nat} (all : ∀ i ∈ places,Occurs needle hay i) {free : Nat}
    (inside : free ≤ hay.length) : separate (needle.flatMap code).length (place code hay free) (places.map (place code hay)) =
      (separate needle.length free places).map (place code hay) := by
  induction places generalizing free with
  | nil => rfl
  | cons i places ih =>
    obtain ⟨first,others⟩ := List.forall_mem_cons.mp all
    rw [List.map_cons,separate,separate,← place_add first,ih others first.fits,ih others inside]
    simp only [place_le_iff some inside first.1]
    split_ifs <;> rfl

variable [DecidableEq α] [DecidableEq β]

/-- Where the code occurs as the elements do, it does in the same order. -/
theorem occurrences_flatMap (some : ∀ c ∈ hay,code c ≠ [])
    (same : ∀ b,Occurs (needle.flatMap code) (hay.flatMap code) b ↔ ∃ i,Occurs needle hay i ∧ place code hay i = b) :
    occurrences (needle.flatMap code) (hay.flatMap code) = (occurrences needle hay).map (place code hay) := by
  have sorted : ((occurrences needle hay).map (place code hay)).Pairwise (· < ·) := by
    rw [List.pairwise_map]
    refine (occurrences_sorted needle hay).imp_of_mem fun _ later less => place_lt some less ?_
    exact (mem_occurrences.mp later).1
  apply List.Perm.eq_of_pairwise (fun a b _ _ (less : a < b) (greater : b < a) => absurd less (Nat.lt_asymm greater))
    (occurrences_sorted _ _) sorted
  rw [List.perm_ext_iff_of_nodup ((occurrences_sorted _ _).imp Nat.ne_of_lt) (sorted.imp Nat.ne_of_lt)]
  intro b
  rw [mem_occurrences,same,List.mem_map]
  simp only [mem_occurrences]

end Codes

section Extremes

variable {near hits : Nat → Prop} {start stop : Nat} {result : Int}

/-- The least hit from a place on, or -1. -/
def IsFirst (hits : Nat → Prop) (start : Nat) (result : Int) : Prop :=
  (∃ i : Nat,result = i ∧ start ≤ i ∧ hits i ∧ ∀ j,start ≤ j → hits j → i ≤ j) ∨ result = -1 ∧ ∀ j,start ≤ j → ¬ hits j

/-- The greatest hit up to a place, or -1. -/
def IsLast (hits : Nat → Prop) (stop : Nat) (result : Int) : Prop :=
  (∃ i : Nat,result = i ∧ i ≤ stop ∧ hits i ∧ ∀ j,j ≤ stop → hits j → j ≤ i) ∨ result = -1 ∧ ∀ j,j ≤ stop → ¬ hits j

/-- The least of some hits is the least of all where one of them comes no later than any hit. -/
theorem isFirst_iff (only : ∀ i,near i → hits i) (first : IsFirst near start result) :
    IsFirst hits start result ↔ ∀ i,start ≤ i → hits i → ∃ j,start ≤ j ∧ j ≤ i ∧ near j := by
  obtain ⟨i,rfl,beyond,hit,least⟩ | ⟨rfl,none⟩ := first
  · constructor
    · rintro (⟨i',same,-,-,least'⟩ | ⟨missing,-⟩)
      · intro j beyond' hit'
        refine ⟨i,beyond,?_,hit⟩
        rw [Int.natCast_inj.mp same]
        exact least' j beyond' hit'
      · omega
    · intro sooner
      refine .inl ⟨i,rfl,beyond,only i hit,fun j beyond' hit' => ?_⟩
      obtain ⟨k,beyond'',before,hit''⟩ := sooner j beyond' hit'
      exact (least k beyond'' hit'').trans before
  · constructor
    · rintro (⟨i,same,-⟩ | ⟨-,none'⟩)
      · omega
      · exact fun i beyond hit => absurd hit (none' i beyond)
    · intro sooner
      refine .inr ⟨rfl,fun j beyond hit => ?_⟩
      obtain ⟨k,beyond',-,hit'⟩ := sooner j beyond hit
      exact none k beyond' hit'

theorem isLast_iff (only : ∀ i,near i → hits i) (last : IsLast near stop result) :
    IsLast hits stop result ↔ ∀ i,i ≤ stop → hits i → ∃ j,j ≤ stop ∧ i ≤ j ∧ near j := by
  obtain ⟨i,rfl,before,hit,greatest⟩ | ⟨rfl,none⟩ := last
  · constructor
    · rintro (⟨i',same,-,-,greatest'⟩ | ⟨missing,-⟩)
      · intro j before' hit'
        refine ⟨i,before,?_,hit⟩
        rw [Int.natCast_inj.mp same]
        exact greatest' j before' hit'
      · omega
    · intro later
      refine .inl ⟨i,rfl,before,only i hit,fun j before' hit' => ?_⟩
      obtain ⟨k,before'',beyond,hit''⟩ := later j before' hit'
      exact beyond.trans (greatest k before'' hit'')
  · constructor
    · rintro (⟨i,same,-⟩ | ⟨-,none'⟩)
      · omega
      · exact fun i before hit => absurd hit (none' i before)
    · intro later
      refine .inr ⟨rfl,fun j before hit => ?_⟩
      obtain ⟨k,before',-,hit'⟩ := later j before hit
      exact none k before' hit'

end Extremes

end Perry.Containers
