import Mathlib.Tactic

/-! Records whose entries stand in the order of their insertion. An assignment overwrites
in place or appends. Enumeration lists the entries with an index first, by that index. -/

namespace Perry.Containers

variable {K V : Type*} [DecidableEq K]

def assign (key : K) (value : V) : List (K × V) → List (K × V)
  | [] => [(key,value)]
  | entry :: entries => if entry.1 = key then (key,value) :: entries else entry :: assign key value entries

def assignAll (pairs entries : List (K × V)) : List (K × V) :=
  pairs.foldl (fun entries pair => assign pair.1 pair.2 entries) entries

def getEntry (key : K) : List (K × V) → Option V
  | [] => none
  | entry :: entries => if entry.1 = key then some entry.2 else getEntry key entries

/-- The keys in the order in which each was first seen. -/
def enlist (seen keys : List K) : List K :=
  keys.foldl (fun seen key => if key ∈ seen then seen else seen ++ [key]) seen

section keys

theorem keys_assign (key : K) (value : V) (entries : List (K × V)) : (assign key value entries).map Prod.fst =
    if key ∈ entries.map Prod.fst then entries.map Prod.fst else entries.map Prod.fst ++ [key] := by
  induction entries with
  | nil => rfl
  | cons entry entries ih =>
    rw [assign,List.map_cons]
    by_cases same : entry.1 = key
    · rw [if_pos same,if_pos (by rw [same]; exact List.mem_cons_self),List.map_cons,same]
    · rw [if_neg same,List.map_cons,ih]
      by_cases member : key ∈ entries.map Prod.fst
      · rw [if_pos member,if_pos (List.mem_cons_of_mem _ member)]
      · have absent : key ∉ entry.1 :: entries.map Prod.fst := by
          rw [List.mem_cons,not_or]
          exact ⟨Ne.symm same,member⟩
        rw [if_neg member,if_neg absent,List.cons_append]

theorem keys_assignAll (pairs entries : List (K × V)) :
    (assignAll pairs entries).map Prod.fst = enlist (entries.map Prod.fst) (pairs.map Prod.fst) := by
  induction pairs generalizing entries with
  | nil => rfl
  | cons pair pairs ih =>
    rw [assignAll,List.foldl_cons,← assignAll,ih,keys_assign,List.map_cons,enlist,enlist,List.foldl_cons]

theorem enlist_cons (seen keys : List K) (key : K) :
    enlist seen (key :: keys) = enlist (if key ∈ seen then seen else seen ++ [key]) keys := rfl

theorem mem_enlist {seen keys : List K} {key : K} : key ∈ enlist seen keys ↔ key ∈ seen ∨ key ∈ keys := by
  induction keys generalizing seen with
  | nil => simp [enlist]
  | cons other keys ih =>
    rw [enlist_cons,ih]
    split
    · next member =>
      constructor
      · rintro (old | new)
        · exact .inl old
        · exact .inr (List.mem_cons_of_mem _ new)
      · rintro (old | new)
        · exact .inl old
        · obtain rfl | new := List.mem_cons.mp new
          · exact .inl member
          · exact .inr new
    · rw [List.mem_append,List.mem_singleton,List.mem_cons,or_assoc]

theorem nodup_enlist {seen : List K} (distinct : seen.Nodup) (keys : List K) : (enlist seen keys).Nodup := by
  induction keys generalizing seen with
  | nil => exact distinct
  | cons key keys ih =>
    rw [enlist_cons]
    split
    · exact ih distinct
    · next absent => exact ih (List.nodup_append'.mpr ⟨distinct,List.nodup_singleton key,by simpa using absent⟩)

/-- Keys already seen stand in front, and drop out of the rest. -/
theorem enlist_append (front seen keys : List K) :
    enlist (front ++ seen.filter (· ∉ front)) keys = front ++ (enlist seen keys).filter (· ∉ front) := by
  induction keys generalizing seen with
  | nil => rfl
  | cons key keys ih =>
    rw [enlist_cons,enlist_cons]
    by_cases member : key ∈ seen
    · rw [if_pos member,← ih seen,if_pos]
      by_cases known : key ∈ front
      · exact List.mem_append_left _ known
      · exact List.mem_append_right _ (List.mem_filter.mpr ⟨member,by simpa using known⟩)
    · rw [if_neg member,← ih (seen ++ [key]),List.filter_append]
      by_cases known : key ∈ front
      · rw [if_pos (List.mem_append_left _ known)]
        simp [known]
      · rw [if_neg (by simp [known,member])]
        simp [known]

theorem enlist_eq (front keys : List K) : enlist front keys = front ++ (enlist [] keys).filter (· ∉ front) := by
  simpa using enlist_append front [] keys

end keys

section entries

theorem getEntry_assign (key other : K) (value : V) (entries : List (K × V)) :
    getEntry other (assign key value entries) = if key = other then some value else getEntry other entries := by
  induction entries with
  | nil => rfl
  | cons entry entries ih =>
    rw [assign]
    by_cases same : entry.1 = key
    · rw [if_pos same,getEntry,getEntry,same]
      split <;> rfl
    · rw [if_neg same,getEntry,ih,getEntry]
      by_cases mine : entry.1 = other
      · rw [if_pos mine,if_pos mine,if_neg fun same' => same (mine.trans same'.symm)]
      · rw [if_neg mine,if_neg mine]

/-- What was there before matters only to keys that are not assigned. -/
theorem getEntry_assignAll {pairs entries others : List (K × V)} {key : K}
    (known : key ∈ pairs.map Prod.fst ∨ getEntry key entries = getEntry key others) :
    getEntry key (assignAll pairs entries) = getEntry key (assignAll pairs others) := by
  induction pairs generalizing entries others with
  | nil => exact known.resolve_left (by simp)
  | cons pair pairs ih =>
    refine ih ?_
    rw [getEntry_assign,getEntry_assign]
    by_cases same : pair.1 = key
    · rw [if_pos same,if_pos same]
      exact .inr rfl
    · rw [if_neg same,if_neg same]
      obtain member | before := known
      · exact .inl ((List.mem_cons.mp member).resolve_left (Ne.symm same))
      · exact .inr before

theorem mem_iff_getEntry {entries : List (K × V)} (distinct : (entries.map Prod.fst).Nodup) {key : K} {value : V} :
    (key,value) ∈ entries ↔ getEntry key entries = some value := by
  induction entries with
  | nil => simp [getEntry]
  | cons entry entries ih =>
    obtain ⟨first,others⟩ := List.nodup_cons.mp distinct
    rw [List.mem_cons,getEntry,ih others]
    by_cases same : entry.1 = key
    · rw [if_pos same]
      constructor
      · rintro (rfl | found)
        · rfl
        · have member := (ih others).mpr found
          exact absurd (List.mem_map.mpr ⟨_,member,same.symm⟩) first
      · rintro ⟨⟩
        exact .inl (Prod.ext same.symm rfl)
    · rw [if_neg same]
      refine ⟨fun either => either.resolve_left ?_,.inr⟩
      rintro rfl
      exact same rfl

theorem getEntry_isSome {entries : List (K × V)} {key : K} : (getEntry key entries).isSome ↔ key ∈ entries.map Prod.fst := by
  induction entries with
  | nil => simp [getEntry]
  | cons entry entries ih =>
    rw [getEntry,List.map_cons,List.mem_cons]
    by_cases same : entry.1 = key
    · rw [if_pos same]
      exact iff_of_true rfl (.inl same.symm)
    · rw [if_neg same,ih]
      exact (or_iff_right (Ne.symm same)).symm

theorem mem_assign {key : K} {value : V} {entries : List (K × V)} {e : K × V} (member : e ∈ assign key value entries) :
    e = (key,value) ∨ e ∈ entries := by
  induction entries with
  | nil => exact .inl (List.mem_singleton.mp member)
  | cons entry entries ih =>
    rw [assign] at member
    split at member
    · exact (List.mem_cons.mp member).imp_right (List.mem_cons_of_mem _)
    · obtain rfl | within := List.mem_cons.mp member
      · exact .inr List.mem_cons_self
      · exact (ih within).imp_right (List.mem_cons_of_mem _)

theorem nodup_assign {key : K} {entries : List (K × V)} (value : V) (distinct : (entries.map Prod.fst).Nodup) :
    ((assign key value entries).map Prod.fst).Nodup := by
  rw [keys_assign]
  split
  · exact distinct
  · next absent =>
    rw [List.nodup_append]
    refine ⟨distinct,List.nodup_singleton key,fun a member b single => ?_⟩
    rw [List.mem_singleton.mp single]
    exact fun same => absent (same ▸ member)

theorem getEntry_filter (key other : K) (entries : List (K × V)) :
    getEntry other (entries.filter (·.1 ≠ key)) = if key = other then none else getEntry other entries := by
  induction entries with
  | nil => simp [getEntry]
  | cons entry entries ih =>
    rw [List.filter_cons,getEntry]
    by_cases same : entry.1 = key
    · rw [if_neg (by simp [same]),ih,same]
      split <;> rfl
    · rw [if_pos (by simp [same]),getEntry,ih]
      by_cases mine : entry.1 = other
      · rw [if_pos mine,if_neg fun wrong => same (mine.trans wrong.symm),if_pos mine]
      · rw [if_neg mine,if_neg mine]

theorem keys_filter (key : K) (entries : List (K × V)) :
    (entries.filter (·.1 ≠ key)).map Prod.fst = (entries.map Prod.fst).filter (· ≠ key) := by
  rw [List.filter_map]
  rfl

theorem assign_absent {key : K} (value : V) {entries : List (K × V)} (absent : key ∉ entries.map Prod.fst) :
    assign key value entries = entries ++ [(key,value)] := by
  induction entries with
  | nil => rfl
  | cons entry entries ih =>
    rw [List.map_cons,List.mem_cons,not_or] at absent
    rw [assign,if_neg (Ne.symm absent.1),ih absent.2,List.cons_append]

/-- Distinct keys are appended in their order. -/
theorem assignAll_distinct {pairs entries : List (K × V)} (distinct : ((entries ++ pairs).map Prod.fst).Nodup) :
    assignAll pairs entries = entries ++ pairs := by
  induction pairs generalizing entries with
  | nil => exact (List.append_nil entries).symm
  | cons pair pairs ih =>
    have whole : entries ++ pair :: pairs = (entries ++ [pair]) ++ pairs := by simp
    have absent : pair.1 ∉ entries.map Prod.fst := by
      rw [List.map_append,List.map_cons] at distinct
      exact fun member => (List.nodup_append.mp distinct).2.2 _ member _ List.mem_cons_self rfl
    rw [whole] at distinct ⊢
    rw [← ih distinct,← assign_absent pair.2 absent]
    rfl

/-- A record with distinct keys is known by its keys and what it holds for them. -/
theorem entries_ext {entries others : List (K × V)} (distinct : (entries.map Prod.fst).Nodup)
    (keys : entries.map Prod.fst = others.map Prod.fst)
    (held : ∀ key ∈ entries.map Prod.fst, getEntry key entries = getEntry key others) : entries = others := by
  induction entries generalizing others with
  | nil => exact (List.map_eq_nil_iff.mp keys.symm).symm
  | cons entry entries ih =>
    cases others with
    | nil => cases keys
    | cons other others =>
      rw [List.map_cons,List.map_cons,List.cons.injEq] at keys
      obtain ⟨same,keys⟩ := keys
      obtain ⟨first,distinct⟩ := List.nodup_cons.mp distinct
      have value := held entry.1 List.mem_cons_self
      rw [getEntry,getEntry,if_pos rfl,if_pos same.symm] at value
      rw [Prod.ext same (Option.some.inj value),ih distinct keys fun key member => ?_]
      have later := held key (List.mem_cons_of_mem _ member)
      have other_key : entry.1 ≠ key := by
        rintro rfl
        exact first member
      rwa [getEntry,getEntry,if_neg other_key,if_neg (same ▸ other_key)] at later

end entries

section order

variable (index : K → Option Nat)

def byIndex (a b : K × V) : Bool := decide ((index a.1).getD 0 ≤ (index b.1).getD 0)

/-- Entries with an index by that index, then the others in their order. -/
def ownOrder (entries : List (K × V)) : List (K × V) :=
  (entries.filter fun entry => (index entry.1).isSome).mergeSort (byIndex index) ++
    entries.filter fun entry => (index entry.1).isNone

omit [DecidableEq K] in
theorem ownOrder_perm (entries : List (K × V)) : (ownOrder index entries).Perm entries := by
  have parts := List.filter_append_perm (fun entry : K × V => (index entry.1).isSome) entries
  simp only [Option.not_isSome] at parts
  exact ((List.mergeSort_perm ..).append_right _).trans parts

/-- The keys assigned to a record start with those it is to have, as far as the order of
insertion shows, and none of those is missing. -/
def Covers (names keys : List K) : Prop :=
  (∀ name ∈ names, name ∈ keys) ∧
    names.filter (fun key => (index key).isNone) <+: keys.filter fun key => (index key).isNone

variable {index}

omit [DecidableEq K] in
theorem plain_ownOrder (entries : List (K × V)) : (ownOrder index entries).filter (fun entry => (index entry.1).isNone) =
    entries.filter fun entry => (index entry.1).isNone := by
  have none_left : ((entries.filter fun entry => (index entry.1).isSome).mergeSort (byIndex index)).filter
      (fun entry => (index entry.1).isNone) = [] := by
    rw [List.filter_eq_nil_iff]
    intro entry member
    rw [List.mem_mergeSort,List.mem_filter] at member
    simp [Option.isSome_iff_ne_none.mp member.2]
  rw [ownOrder,List.filter_append,none_left,List.nil_append,List.filter_filter]
  simp only [Bool.and_self]

omit [DecidableEq K] in
theorem sorted_ext (injective : ∀ {a b n}, index a = some n → index b = some n → a = b) {entries others : List (K × V)}
    (distinct : (entries.map Prod.fst).Nodup) (same : entries.Perm others) :
    (entries.filter fun entry => (index entry.1).isSome).mergeSort (byIndex index) =
      (others.filter fun entry => (index entry.1).isSome).mergeSort (byIndex index) := by
  have sorted (entries : List (K × V)) :
      (entries.mergeSort (byIndex index)).Pairwise fun a b => byIndex index a b = true := by
    apply List.pairwise_mergeSort
    · simp only [byIndex,decide_eq_true_eq]
      exact fun _ _ _ => le_trans
    · simp only [byIndex,Bool.or_eq_true,decide_eq_true_eq]
      exact fun _ _ => le_total ..
  refine List.Perm.eq_of_pairwise ?_ (sorted _) (sorted _)
    ((List.mergeSort_perm ..).trans ((same.filter _).trans (List.mergeSort_perm ..).symm))
  intro a b left right below above
  rw [List.mem_mergeSort,List.mem_filter] at left right
  obtain ⟨left,indexed⟩ := left
  obtain ⟨right,indexed'⟩ := right
  obtain ⟨n,held⟩ := Option.isSome_iff_exists.mp indexed
  obtain ⟨m,held'⟩ := Option.isSome_iff_exists.mp indexed'
  rw [byIndex,held,held',Option.getD_some,Option.getD_some,decide_eq_true_eq] at below above
  obtain rfl := le_antisymm below above
  exact List.inj_on_of_nodup_map distinct left (same.mem_iff.mpr right) (injective held held')

theorem perm_keys_ext {entries others : List (K × V)} (distinct : (entries.map Prod.fst).Nodup)
    (keys : entries.map Prod.fst = others.map Prod.fst) (same : entries.Perm others) : entries = others := by
  refine entries_ext distinct keys fun key _ => Option.ext fun value => ?_
  rw [← mem_iff_getEntry distinct,← mem_iff_getEntry (keys ▸ distinct),same.mem_iff]

theorem covered_keys {names keys : List K} (distinct : keys.Nodup) (covers : Covers index names keys) :
    (names ++ keys.filter (· ∉ names)).filter (fun key => (index key).isNone) =
      keys.filter fun key => (index key).isNone := by
  obtain ⟨-,others,shape⟩ := covers
  have apart := shape ▸ distinct.filter fun key => (index key).isNone
  have fresh : ∀ key ∈ others, key ∉ names := by
    intro key member known
    have plain : (index key).isNone := by
      have member' : key ∈ keys.filter fun key => (index key).isNone := shape ▸ List.mem_append_right _ member
      exact (List.mem_filter.mp member').2
    exact List.disjoint_of_nodup_append apart (List.mem_filter.mpr ⟨known,plain⟩) member
  rw [List.filter_append,List.filter_comm,← shape,List.filter_append]
  congr 1
  have known : (names.filter fun key => (index key).isNone).filter (· ∉ names) = [] := by
    rw [List.filter_eq_nil_iff]
    intro key member
    simp [(List.mem_filter.mp member).1]
  rw [known,List.nil_append,List.filter_eq_self]
  simpa using fresh

/-- A record that had its keys from the start is enumerated like one that got them with
their values just when the assignments cover those keys. -/
theorem ownOrder_assignAll_iff (injective : ∀ {a b n}, index a = some n → index b = some n → a = b)
    {names : List K} (distinct : names.Nodup) (value : V) (pairs : List (K × V)) :
    ownOrder index (assignAll pairs (names.map (·,value))) = ownOrder index (assignAll pairs []) ↔
      Covers index names (enlist [] (pairs.map Prod.fst)) := by
  have front : (assignAll pairs (names.map (·,value))).map Prod.fst =
      names ++ (enlist [] (pairs.map Prod.fst)).filter (· ∉ names) := by
    rw [keys_assignAll,List.map_map,← enlist_eq]
    exact congrArg (enlist · _) (List.map_id names)
  have back : (assignAll pairs []).map Prod.fst = enlist [] (pairs.map Prod.fst) := keys_assignAll pairs []
  have distinct_back := nodup_enlist List.nodup_nil (pairs.map Prod.fst)
  have distinct_front := enlist_eq names (pairs.map Prod.fst) ▸ nodup_enlist distinct (pairs.map Prod.fst)
  generalize keys_def : enlist [] (pairs.map Prod.fst) = keys at *
  constructor
  · intro same
    have perm := (ownOrder_perm index _).symm.trans (same ▸ ownOrder_perm index (assignAll pairs []))
    have plain := congrArg (List.filter fun entry => (index entry.1).isNone) same
    rw [plain_ownOrder,plain_ownOrder] at plain
    have plain_keys := congrArg (List.map Prod.fst) plain
    rw [← Function.comp_def (fun key => (index key).isNone) Prod.fst,← List.filter_map,← List.filter_map,front,back,
      List.filter_append] at plain_keys
    refine ⟨fun name member => ?_,_,plain_keys⟩
    rw [← back]
    refine (perm.map Prod.fst).mem_iff.mp ?_
    rw [front]
    exact List.mem_append_left _ member
  · intro covers
    have perm : (assignAll pairs (names.map (·,value))).Perm (assignAll pairs []) := by
      rw [List.perm_ext_iff_of_nodup (front ▸ distinct_front).of_map (back ▸ distinct_back).of_map]
      intro entry
      by_cases assigned : entry.1 ∈ pairs.map Prod.fst
      · rw [mem_iff_getEntry (front ▸ distinct_front),mem_iff_getEntry (back ▸ distinct_back),
          getEntry_assignAll (.inl assigned)]
      · have absent : entry.1 ∉ keys := by
          rw [← keys_def,mem_enlist]
          simpa using assigned
        constructor
        · intro member
          have known := front ▸ List.mem_map_of_mem (f := Prod.fst) member
          obtain name | other := List.mem_append.mp known
          · exact absurd (covers.1 _ name) absent
          · exact absurd (List.mem_filter.mp other).1 absent
        · intro member
          exact absurd (back ▸ List.mem_map_of_mem (f := Prod.fst) member) absent
    rw [ownOrder,ownOrder,sorted_ext injective (front ▸ distinct_front) perm]
    congr 1
    refine perm_keys_ext ?_ ?_ (perm.filter _)
    · exact (front ▸ distinct_front).sublist ((List.filter_sublist ..).map _)
    · rw [← Function.comp_def (fun key => (index key).isNone) Prod.fst,← List.filter_map,← List.filter_map,front,back,
        covered_keys distinct_back covers]

end order

end Perry.Containers
