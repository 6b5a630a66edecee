import Perry.Sorting.Stable
import Perry.Strings.Compare

/-! The sort without a comparator. Every element gets an owned key, and the ranks are sorted by the
keys; a key that is not UTF-8 is taken as the empty string. -/
namespace Perry.Sorting

open Strings Unicode

/-- The bytes of the key. A null pointer and bytes that are not UTF-8 give the empty key. -/
def sortKeyString : Option StringHeader → List UInt8
  | none => []
  | some s => match fromUtf8 s.bytes with
    | some _ => s.bytes
    | none => []

def sortDefaultRooted {α : Type*} (toString : α → Option StringHeader) (vals : List α) : List α :=
  if vals.length ≤ 1 then vals
  else
    let keys := fun i : Fin vals.length => sortKeyString (toString vals[i])
    let order := (List.finRange vals.length).mergeSort fun a b => (utf16CmpBytes (keys a) (keys b)).isLE
    order.map vals.get

/-- The order of the code units. -/
def unitsLe (a b : Text) : Bool := (compare a.units b.units).isLE

def lone (t : Text) : Bool := t.points.any isSurrogate

def emptyText : Text := .empty

/-- The string that an element is sorted by. -/
def keyOf (t : Text) : Text := if lone t then emptyText else t

/-- An element before another one, where the empty key for a lone surrogate keeps them in order. -/
def Fine (a b : Text) : Prop :=
  if lone a then unitsLe a b = true else lone b = true → a.points = [] ∨ unitsLe a b = false

section keys

theorem text_eq {a b : Text} (same : a.points = b.points) : a = b := by
  cases a
  cases b
  cases same
  rfl

theorem unitsLe_order {α : Type*} (text : α → Text) : TotalPreorder fun a b => unitsLe (text a) (text b) := by
  refine ⟨fun a b => ?_,fun a b c => ?_⟩
  · rw [unitsLe,unitsLe,← compare_swap]
    cases compare (text b).units (text a).units <;> rfl
  · exact Std.TransCmp.isLE_trans

theorem keyOf_scalars (t : Text) : (keyOf t).points.any isSurrogate = false := by
  rw [keyOf]
  split_ifs with surrogate
  · rfl
  · exact Bool.eq_false_iff.mpr surrogate

theorem sortKeyString_text (t : Text) : sortKeyString (some t.header) = (keyOf t).bytes := by
  have bytes : t.header.bytes = t.bytes := rfl
  rw [sortKeyString,bytes,Text.bytes,fromUtf8_wtf8 t.bounded,keyOf,lone]
  split_ifs <;> rfl

theorem compare_keys (a b : Text) :
    (utf16CmpBytes (sortKeyString (some a.header)) (sortKeyString (some b.header))).isLE = unitsLe (keyOf a) (keyOf b) := by
  rw [sortKeyString_text,sortKeyString_text,Text.bytes,Text.bytes,utf16CmpBytes_wtf8 (keyOf a).bounded (keyOf b).bounded,
    keyOf_scalars,keyOf_scalars]
  rfl

theorem emptyText_le (b : Text) : unitsLe emptyText b = true := by
  have empty : emptyText.units = [] := rfl
  rw [unitsLe,empty]
  cases b.units <;> rfl

theorem le_emptyText (a : Text) : unitsLe a emptyText = decide (a.points = []) := by
  have empty : emptyText.units = [] := rfl
  rw [unitsLe,empty,Text.units]
  cases a.points with
  | nil => rfl
  | cons c points =>
    obtain narrow | wide := Nat.lt_or_ge c 0x10000
    · rw [units_narrow narrow]
      rfl
    · rw [units_astral wide]
      rfl

theorem unitsLe_antisymm {a b : Text} (below : unitsLe a b = true) (above : unitsLe b a = true) : a = b := by
  rw [unitsLe,← compare_swap] at above
  have same : compare a.units b.units = .eq := by
    rw [unitsLe] at below
    cases decided : compare a.units b.units <;> simp_all
  exact text_eq (units_injective a.bounded b.bounded a.joined b.joined ((compare_eq_iff _ _).mp same))

/-- The pairs on which the keys are ordered as the strings are. -/
theorem fine_iff (a b : Text) : Fine a b ↔ unitsLe (keyOf a) (keyOf b) = unitsLe a b := by
  unfold Fine keyOf
  cases lone a with
  | true =>
    rw [if_pos rfl,if_pos rfl,emptyText_le]
    exact eq_comm
  | false =>
    cases lone b with
    | true =>
      rw [if_pos rfl]
      simp only [Bool.false_eq_true,if_false,forall_const,le_emptyText]
      by_cases empty : a.points = []
      · have same : a = emptyText := text_eq empty
        exact iff_of_true (.inl empty) (by rw [same,emptyText_le]; rfl)
      · rw [decide_eq_false empty,or_iff_right empty]
        exact eq_comm
    | false => simp

end keys

section ranks

variable {α : Type*} (text : α → Text) (vals : List α)

def textLe (a b : α) : Bool := unitsLe (text a) (text b)

def keyLe (a b : α) : Bool := unitsLe (keyOf (text a)) (keyOf (text b))

/-- The ranks in the order of the keys. -/
def keyRanks : List (Fin vals.length) := (List.finRange vals.length).mergeSort fun i j => keyLe text vals[i] vals[j]

/-- The pair is fine, whichever of them stands first. -/
def Settled (i j : Fin vals.length) : Prop :=
  (i < j → Fine (text vals[i]) (text vals[j])) ∧ (j < i → Fine (text vals[j]) (text vals[i]))

instance : Std.Symm (Settled text vals) := ⟨fun _ _ both => both.symm⟩

theorem textLe_order : TotalPreorder (textLe text) := unitsLe_order text

theorem keyLe_order : TotalPreorder (keyLe text) := unitsLe_order fun a => keyOf (text a)

theorem keyRanks_perm : (keyRanks text vals).Perm (List.finRange vals.length) := List.mergeSort_perm _ _

theorem keyRanks_before : (keyRanks text vals).Pairwise (Before (keyLe text) vals) := before_mergeSort (keyLe_order text) vals

theorem sortDefaultRooted_ranks (several : 1 < vals.length) :
    sortDefaultRooted (fun a => some (text a).header) vals = (keyRanks text vals).map vals.get := by
  rw [sortDefaultRooted,if_neg several.not_ge]
  simp only [compare_keys]
  rfl

variable {text vals}

theorem fine_keys {a b : α} (fine : Fine (text a) (text b)) : keyLe text a b = textLe text a b := (fine_iff _ _).mp fine

theorem fine_pairs : vals.Pairwise (fun a b => Fine (text a) (text b)) ↔
    ∀ i j : Fin vals.length,i < j → Fine (text vals[i]) (text vals[j]) := by
  rw [List.pairwise_iff_get]
  rfl

theorem stable_of_fine (fine : vals.Pairwise fun a b => Fine (text a) (text b)) :
    IsStableSort (textLe text) vals ((keyRanks text vals).map vals.get) := by
  rw [fine_pairs] at fine
  apply stable_of_before (textLe_order text) (keyRanks_perm text vals)
  apply (keyRanks_before text vals).imp
  rintro i j (⟨earlier,below⟩ | ⟨later,above⟩)
  · exact .inl ⟨earlier,fine_keys (fine i j earlier) ▸ below⟩
  · exact .inr ⟨later,fine_keys (fine j i later) ▸ above⟩

theorem fine_of_sorted (sorted : ((keyRanks text vals).map vals.get).Pairwise fun a b => textLe text a b = true) :
    vals.Pairwise fun a b => Fine (text a) (text b) := by
  have placed : (keyRanks text vals).Pairwise (Settled text vals) := by
    apply ((keyRanks_before text vals).and (List.pairwise_map.mp sorted)).imp
    rintro i j ⟨⟨earlier,below⟩ | ⟨later,above⟩,ordered⟩
    · refine ⟨fun _ => (fine_iff _ _).mpr (below.trans ordered.symm),fun later => absurd earlier later.not_gt⟩
    · refine ⟨fun earlier => absurd later earlier.not_gt,fun _ => (fine_iff _ _).mpr (above.trans ?_)⟩
      symm
      rw [Bool.eq_false_iff]
      intro below
      -- alike strings have one key
      have same : text (vals.get j) = text (vals.get i) := unitsLe_antisymm below ordered
      rw [keyLe,same] at above
      exact Bool.eq_false_iff.mp above ((unitsLe_order keyOf).refl _)
  rw [fine_pairs]
  intro i j earlier
  have all {k : Fin vals.length} : k ∈ keyRanks text vals := (keyRanks_perm text vals).mem_iff.mpr (List.mem_finRange k)
  exact (placed.forall all all earlier.ne).1 earlier

end ranks

/-- The sort permutes the list. It is the stable sort by the code units exactly where every string
with a lone surrogate is placed as the empty string would be. -/
theorem sortDefaultRooted_exact {α : Type*} (text : α → Text) (vals : List α) :
    (sortDefaultRooted (fun a => some (text a).header) vals).Perm vals ∧
    (IsStableSort (fun a b => unitsLe (text a) (text b)) vals (sortDefaultRooted (fun a => some (text a).header) vals) ↔
      vals.Pairwise fun a b => Fine (text a) (text b)) := by
  obtain small | several := Nat.lt_or_ge 1 vals.length |>.symm
  · have kept : sortDefaultRooted (fun a => some (text a).header) vals = vals := if_pos small
    have alone (r : α → α → Prop) : vals.Pairwise r := by
      cases vals with
      | nil => exact .nil
      | cons a vals =>
        rw [List.length_eq_zero_iff.mp (Nat.le_zero.mp (Nat.le_of_succ_le_succ small))]
        exact List.pairwise_singleton r a
    rw [kept]
    exact ⟨.refl vals,iff_of_true ⟨.refl vals,alone _,fun _ => rfl⟩ (alone _)⟩
  · rw [sortDefaultRooted_ranks text vals several]
    refine ⟨?_,fun stable => fine_of_sorted stable.sorted,stable_of_fine⟩
    have all := (keyRanks_perm text vals).map vals.get
    rwa [List.map_get_finRange] at all

theorem sortDefaultRooted_pair {α : Type*} (toString : α → Option StringHeader) (a b : α) : sortDefaultRooted toString [a,b] =
    if (utf16CmpBytes (sortKeyString (toString a)) (sortKeyString (toString b))).isLE then [a,b] else [b,a] := by
  have ranks : List.finRange 2 = [0,1] := rfl
  rw [sortDefaultRooted,if_neg (by simp)]
  simp [ranks,List.mergeSort,List.MergeSort.Internal.splitInTwo,List.merge]
  split_ifs <;> rfl

/-- A lone surrogate is sorted in front of everything. -/
theorem sortDefaultRooted_lone : ∃ a b : Text,a.units = [0x61] ∧ b.units = [0xD83D] ∧
    sortDefaultRooted (fun t => some t.header) [a,b] = [b,a] ∧
    ¬ IsStableSort unitsLe [a,b] (sortDefaultRooted (fun t : Text => some t.header) [a,b]) := by
  refine ⟨⟨[0x61],by decide,.singleton _⟩,⟨[0xD83D],by decide,.singleton _⟩,by decide,by decide,?_,?_⟩
  · rw [sortDefaultRooted_pair,if_neg (by decide)]
  · rw [sortDefaultRooted_pair,if_neg (by decide)]
    intro stable
    exact absurd (List.pairwise_pair.mp stable.sorted) (by decide)

end Perry.Sorting
