import Mathlib.Data.List.GetD
import Perry.Runtime.NumericIndex

/-! The index answers as a plain map does, as long as a run does not use both zeros. -/

namespace Perry.Runtime.MapIndex

open Perry.Containers Perry.Words

section keys

variable {key key' : Key} {integer : Nat}

theorem denseIntegerKey_value (exact : denseIntegerKey key = some integer) :
    ∃ d,Binary64.fromBits key = .finite d ∧ d.value = integer ∧ integer < 2 ^ 32 := by
  unfold denseIntegerKey at exact
  dsimp only at exact
  split at exact
  · next same =>
    obtain rfl := Option.some.inj exact
    cases shape : Binary64.fromBits key with
    | nan => rw [shape] at same; cases same
    | infinite negative => rw [shape] at same; cases same
    | finite d =>
      rw [shape] at same
      refine ⟨d,rfl,(of_decide_eq_true same).symm,?_⟩
      rw [asU32]
      omega
  · cases exact

/-- Apart from the two zeros an integer has one key. -/
theorem denseIntegerKey_inj (exact : denseIntegerKey key = some integer) (exact' : denseIntegerKey key' = some integer) :
    key = key' ∨ (key = Binary64.zero false ∨ key = Binary64.zero true) ∧ (key' = Binary64.zero false ∨ key' = Binary64.zero true) := by
  obtain ⟨d,shape,value,-⟩ := denseIntegerKey_value exact
  obtain ⟨d',shape',value',-⟩ := denseIntegerKey_value exact'
  by_cases some : d.value = 0
  · exact .inr ⟨Binary64.fromBits_zero shape some,Binary64.fromBits_zero shape' (value'.trans (value.symm.trans some))⟩
  · exact .inl (Binary64.fromBits_value_inj shape shape' (value.trans value'.symm) some)

end keys

/-- Keys among which no two denote one integer. -/
def Apart (Chosen : Key → Prop) : Prop :=
  ∀ key key' integer,Chosen key → Chosen key' → denseIntegerKey key = some integer → denseIntegerKey key' = some integer → key = key'

/-- The key has a slot in the range table. -/
def Inside (index : NumericIndex) (key : Key) (dense : DenseNumericIndex) (offset : Nat) : Prop :=
  index.dense = some dense ∧ denseIntegerKey key = some (dense.base + offset) ∧ offset < dense.slots.length

section slots

variable {slots : List Nat} {offset other entry : Nat}

theorem entryAt_eq_some : entryAt slots offset = some entry ↔ slots.getD offset denseNumericEmpty = entry ∧ entry ≠ denseNumericEmpty := by
  rw [entryAt]
  split
  · next some =>
    rw [Option.some_inj]
    exact ⟨fun same => ⟨same,same ▸ some⟩,And.left⟩
  · next none =>
    rw [not_not] at none
    exact ⟨nofun,fun both => absurd (both.1.symm.trans none) both.2⟩

theorem entryAt_lt (filled : entryAt slots offset = some entry) : offset < slots.length := by
  by_contra beyond
  obtain ⟨read,some⟩ := entryAt_eq_some.mp filled
  rw [List.getD_eq_default _ _ (Nat.not_lt.mp beyond)] at read
  exact some read.symm

theorem entryAt_set (inside : offset < slots.length) : entryAt (slots.set offset entry) other =
    if offset = other then (if entry ≠ denseNumericEmpty then some entry else none) else entryAt slots other := by
  have read : (slots.set offset entry).getD other denseNumericEmpty =
      if offset = other then entry else slots.getD other denseNumericEmpty := by
    rw [List.getD_eq_getElem?_getD,List.getElem?_set,List.getD_eq_getElem?_getD]
    by_cases same : offset = other
    · rw [if_pos same,if_pos same,if_pos inside]
      rfl
    · rw [if_neg same,if_neg same]
  rw [entryAt,read]
  by_cases same : offset = other
  · rw [if_pos same,if_pos same]
  · rw [if_neg same,if_neg same]
    rfl

theorem entryAt_replicate (n : Nat) : entryAt (List.replicate n denseNumericEmpty) offset = none := by
  rw [entryAt,List.getD_eq_getElem?_getD,List.getElem?_replicate,if_neg]
  split <;> exact fun some => some rfl

end slots

section lookups

variable {index : NumericIndex} {key : Key} {dense : DenseNumericIndex} {offset : Nat}

theorem denseSlot_inside (inside : Inside index key dense offset) : denseSlot index key = .ok (some (dense,offset)) := by
  obtain ⟨table,exact,fits⟩ := inside
  rw [denseSlot,table,exact]
  dsimp only
  rw [if_pos (Nat.le_add_right _ _),sub,if_pos (Nat.le_add_right _ _),Nat.add_sub_cancel_left]
  change Except.ok _ = _
  rw [if_pos fits]

theorem denseSlot_outside (outside : ∀ dense offset,¬ Inside index key dense offset) : denseSlot index key = .ok none := by
  rw [denseSlot]
  split
  · next integer dense exact table =>
    split
    · next above =>
      rw [sub,if_pos above]
      change Except.ok _ = _
      rw [if_neg fun fits => outside dense (integer - dense.base) ⟨table,by rw [exact,Nat.add_sub_cancel' above],fits⟩]
    · rfl
  · rfl

/-- What a get answers. -/
def look (index : NumericIndex) (key : Key) : Option Nat :=
  match denseSlot index key with
  | .ok (some (dense,offset)) => entryAt dense.slots offset
  | .ok none => getEntry key index.hashed
  | .error _ => none

theorem look_inside (inside : Inside index key dense offset) : look index key = entryAt dense.slots offset := by
  rw [look,denseSlot_inside inside]

theorem look_outside (outside : ∀ dense offset,¬ Inside index key dense offset) : look index key = getEntry key index.hashed := by
  rw [look,denseSlot_outside outside]

theorem get_eq (index : NumericIndex) (key : Key) : get index key = .ok (look index key) := by
  by_cases inside : ∃ dense offset,Inside index key dense offset
  · obtain ⟨dense,offset,inside⟩ := inside
    rw [get,denseSlot_inside inside,look_inside inside]
    rfl
  · have outside : ∀ dense offset,¬ Inside index key dense offset := fun dense offset here => inside ⟨dense,offset,here⟩
    rw [get,denseSlot_outside outside,look_outside outside]
    rfl

end lookups

section rebuilding

variable {Chosen : Key → Prop} {base : Nat}

theorem copyHashed_spec (base : Nat) {e : Key × Nat} (held : e.2 ≠ denseNumericEmpty) (slots : List Nat) :
    ∃ slots',copyHashed base slots e = .ok slots' ∧ slots'.length = slots.length ∧
      (∀ offset < slots.length,denseIntegerKey e.1 = some (base + offset) → entryAt slots' offset = some e.2) ∧
      ∀ offset,denseIntegerKey e.1 ≠ some (base + offset) → entryAt slots' offset = entryAt slots offset := by
  rw [copyHashed]
  cases exact : denseIntegerKey e.1 with
  | none => exact ⟨slots,rfl,rfl,nofun,fun _ _ => rfl⟩
  | some integer =>
    dsimp only
    by_cases above : base ≤ integer
    · rw [if_pos above,sub,if_pos above]
      change ∃ slots',Except.ok (ε := Wrapped) (if integer - base < slots.length then _ else _) = .ok slots' ∧ _
      by_cases inside : integer - base < slots.length
      · rw [if_pos inside]
        refine ⟨_,rfl,List.length_set,fun offset _ same => ?_,fun offset other => ?_⟩
        · have here : integer - base = offset := by
            have := Option.some.inj same
            omega
          rw [entryAt_set inside,if_pos here,if_pos held]
        · have there : integer - base ≠ offset := by
            rintro rfl
            exact other (by rw [Nat.add_sub_cancel' above])
          rw [entryAt_set inside,if_neg there]
      · rw [if_neg inside]
        refine ⟨slots,rfl,rfl,fun offset fits same => ?_,fun _ _ => rfl⟩
        have := Option.some.inj same
        omega
    · rw [if_neg above]
      refine ⟨slots,rfl,rfl,fun offset _ same => ?_,fun _ _ => rfl⟩
      have := Option.some.inj same
      omega

/-- Each entry has the slot of its integer, and the other slots are as they were. -/
theorem copyHashed_all (base : Nat) (apart : Apart Chosen) {entries : List (Key × Nat)} (chosen : ∀ e ∈ entries,Chosen e.1)
    (distinct : (entries.map Prod.fst).Nodup) (held : ∀ e ∈ entries,e.2 ≠ denseNumericEmpty) (slots : List Nat) :
    ∃ slots',entries.foldlM (copyHashed base) slots = .ok slots' ∧ slots'.length = slots.length ∧
      (∀ e ∈ entries,∀ offset < slots.length,denseIntegerKey e.1 = some (base + offset) → entryAt slots' offset = some e.2) ∧
      ∀ offset,(∀ e ∈ entries,denseIntegerKey e.1 ≠ some (base + offset)) → entryAt slots' offset = entryAt slots offset := by
  induction entries generalizing slots with
  | nil => exact ⟨slots,rfl,rfl,nofun,fun _ _ => rfl⟩
  | cons e entries ih =>
    obtain ⟨chosen_e,chosen'⟩ := List.forall_mem_cons.mp chosen
    obtain ⟨held_e,held'⟩ := List.forall_mem_cons.mp held
    obtain ⟨absent,distinct'⟩ := List.nodup_cons.mp distinct
    obtain ⟨next,copied,size,here,there⟩ := copyHashed_spec base held_e slots
    obtain ⟨last,rest,size',here',there'⟩ := ih chosen' distinct' held' next
    refine ⟨last,?_,size'.trans size,?_,fun offset others => ?_⟩
    · rw [List.foldlM_cons,copied]
      exact rest
    · rw [List.forall_mem_cons]
      refine ⟨fun offset fits exact => ?_,fun f member offset fits exact => here' f member offset (size ▸ fits) exact⟩
      rw [there',here offset fits exact]
      intro f member exact'
      have same := apart e.1 f.1 _ chosen_e (chosen' f member) exact exact'
      exact absent (same ▸ List.mem_map_of_mem member)
    · obtain ⟨other,others'⟩ := List.forall_mem_cons.mp others
      rw [there' offset others',there offset other]

theorem copySlot_spec {slots : List Nat} {oldBase start : Nat} (hashed : List (Key × Nat)) (old : Nat)
    (below : base ≤ oldBase + start) (covered : oldBase + start < base + slots.length) (narrow : base + slots.length < 2 ^ 64) :
    ∃ next,copySlot base oldBase (slots,hashed) (old,start) = .ok (next,hashed) ∧ next.length = slots.length ∧
      ∀ offset,entryAt next offset =
        if oldBase + start = base + offset then (entryAt [old] 0).or (entryAt slots offset) else entryAt slots offset := by
  rw [copySlot]
  by_cases empty : old = denseNumericEmpty
  · rw [if_pos empty]
    refine ⟨slots,rfl,rfl,fun offset => ?_⟩
    rw [empty]
    split <;> rfl
  · have inside : oldBase + start - base < slots.length := by omega
    have filled : entryAt [old] 0 = some old := if_pos empty
    rw [if_neg empty,fit,if_pos (by omega)]
    change ∃ next,(if base ≤ oldBase + start then _ else _) = _ ∧ _
    rw [if_pos below,sub,if_pos below]
    change ∃ next,Except.ok (ε := Wrapped) (if oldBase + start - base < slots.length then _ else _) = _ ∧ _
    rw [if_pos inside]
    refine ⟨_,rfl,List.length_set,fun offset => ?_⟩
    rw [entryAt_set inside,if_pos empty,filled]
    by_cases same : oldBase + start = base + offset
    · rw [if_pos same,if_pos (by omega)]
      rfl
    · rw [if_neg same,if_neg (by omega)]

/-- The slots of a table that the new one covers are copied where they are filled. -/
theorem copySlot_all (base oldBase : Nat) (olds : List Nat) (start : Nat) (slots : List Nat) (hashed : List (Key × Nat))
    (below : base ≤ oldBase) (covered : oldBase + start + olds.length ≤ base + slots.length) (narrow : base + slots.length < 2 ^ 64) :
    ∃ slots',(olds.zipIdx start).foldlM (copySlot base oldBase) (slots,hashed) = .ok (slots',hashed) ∧ slots'.length = slots.length ∧
      ∀ offset,entryAt slots' offset = if oldBase + start ≤ base + offset then
        (entryAt olds (base + offset - (oldBase + start))).or (entryAt slots offset) else entryAt slots offset := by
  induction olds generalizing start slots with
  | nil =>
    refine ⟨slots,rfl,rfl,fun offset => ?_⟩
    split
    · rfl
    · rfl
  | cons old olds ih =>
    rw [List.length_cons] at covered
    obtain ⟨next,copied,size,entries⟩ : ∃ next,copySlot base oldBase (slots,hashed) (old,start) = .ok (next,hashed) ∧
        next.length = slots.length ∧ ∀ offset,entryAt next offset =
          if oldBase + start = base + offset then (entryAt [old] 0).or (entryAt slots offset) else entryAt slots offset :=
      copySlot_spec hashed old (by omega) (by omega) narrow
    obtain ⟨last,rest,size',entries'⟩ := ih (start + 1) next (by omega) (by omega)
    refine ⟨last,?_,size'.trans size,fun offset => ?_⟩
    · rw [List.zipIdx_cons,List.foldlM_cons,copied]
      exact rest
    · rw [entries',entries]
      obtain less | same | more := Nat.lt_trichotomy (base + offset) (oldBase + start)
      · rw [if_neg (by omega),if_neg (by omega),if_neg (by omega)]
      · rw [if_neg (by omega),if_pos same.symm,if_pos same.ge,same,Nat.sub_self]
        rfl
      · obtain ⟨k,shape⟩ := Nat.exists_eq_add_of_lt more
        have first : base + offset - (oldBase + start) = k + 1 := by omega
        have second : base + offset - (oldBase + (start + 1)) = k := by omega
        rw [if_pos (by omega),if_neg (by omega),if_pos (by omega),first,second]
        rfl

/-- What holds of every index: a copy of a key in the hash table stands behind a filled slot. -/
structure Sound (Chosen : Key → Prop) (index : NumericIndex) : Prop where
  chosen : ∀ e ∈ index.hashed,Chosen e.1
  held : ∀ e ∈ index.hashed,e.2 ≠ denseNumericEmpty
  distinct : (index.hashed.map Prod.fst).Nodup
  narrow : ∀ dense,index.dense = some dense → dense.base < 2 ^ 32 ∧ dense.slots.length ≤ denseNumericMaxSlots
  shadow : ∀ key dense offset,Inside index key dense offset → getEntry key index.hashed ≠ none → entryAt dense.slots offset ≠ none

variable {index : NumericIndex} {len : Nat}

theorem copyHashed_index (apart : Apart Chosen) (sound : Sound Chosen index) (base len : Nat) :
    ∃ slots,index.hashed.foldlM (copyHashed base) (List.replicate len denseNumericEmpty) = .ok slots ∧ slots.length = len ∧
      ∀ key offset,Chosen key → offset < len → denseIntegerKey key = some (base + offset) →
        entryAt slots offset = getEntry key index.hashed := by
  obtain ⟨slots,copied,size,here,there⟩ := copyHashed_all base apart sound.chosen sound.distinct sound.held
    (List.replicate len denseNumericEmpty)
  rw [List.length_replicate] at size here
  refine ⟨slots,copied,size,fun key offset chosen fits exact => ?_⟩
  cases found : getEntry key index.hashed with
  | some entry =>
    exact here (key,entry) ((mem_iff_getEntry sound.distinct).mpr found) offset fits exact
  | none =>
    rw [there offset,entryAt_replicate]
    intro e member exact'
    obtain rfl := apart key e.1 _ chosen (sound.chosen e member) exact exact'
    rw [(mem_iff_getEntry sound.distinct).mp member] at found
    cases found

/-- A rebuilt table answers for its keys as the index did. -/
theorem rebuild_slots (apart : Apart Chosen) (sound : Sound Chosen index) (small : base < 2 ^ 32) (short : len ≤ denseNumericMaxSlots)
    (covers : ∀ dense,index.dense = some dense → base ≤ dense.base ∧ dense.base + dense.slots.length ≤ base + len) :
    ∃ slots,rebuildDense index base len = .ok ⟨index.hashed,some ⟨base,slots⟩,index.denseKeyCount⟩ ∧ slots.length = len ∧
      ∀ key offset,Chosen key → offset < len → denseIntegerKey key = some (base + offset) → entryAt slots offset = look index key := by
  obtain ⟨slots,copied,size,entries⟩ := copyHashed_index apart sound base len
  rw [rebuildDense,copied]
  cases table : index.dense with
  | none =>
    refine ⟨slots,rfl,size,fun key offset chosen fits exact => ?_⟩
    have outside : ∀ dense offset,¬ Inside index key dense offset := by
      rintro dense offset ⟨here,-⟩
      rw [table] at here
      cases here
    rw [entries key offset chosen fits exact,look_outside outside]
  | some old =>
    obtain ⟨below,covered⟩ := covers old table
    have room : base + slots.length < 2 ^ 64 := by
      rw [size]
      unfold denseNumericMaxSlots at short
      omega
    obtain ⟨slots',copied',size',entries'⟩ := copySlot_all base old.base old.slots 0 slots index.hashed below
      (by rw [size]; omega) room
    refine ⟨slots',?_,size'.trans size,fun key offset chosen fits exact => ?_⟩
    · change (do
        let state ← old.slots.zipIdx.foldlM (copySlot base old.base) (slots,index.hashed)
        pure { index with hashed := state.2,dense := some ⟨base,state.1⟩ } : Checked NumericIndex) = _
      rw [copied']
      rfl
    · rw [entries',Nat.add_zero,entries key offset chosen fits exact]
      by_cases inside : ∃ dense offset,Inside index key dense offset
      · obtain ⟨dense,place,inside⟩ := inside
        obtain rfl := Option.some.inj (table.symm.trans inside.1)
        have same := Option.some.inj (exact.symm.trans inside.2.1)
        rw [look_inside inside,same,if_pos (Nat.le_add_right _ _),Nat.add_sub_cancel_left]
        cases filled : entryAt old.slots place with
        | some entry => rfl
        | none =>
          rw [Option.none_or]
          by_contra copy
          exact sound.shadow key old place inside copy filled
      · have outside : ∀ dense offset,¬ Inside index key dense offset := fun dense offset here => inside ⟨dense,offset,here⟩
        rw [look_outside outside]
        split
        · next above =>
          have none : entryAt old.slots (base + offset - old.base) = none := by
            by_contra some
            obtain ⟨entry,filled⟩ := Option.ne_none_iff_exists'.mp some
            exact outside old _ ⟨table,by rw [exact,Nat.add_sub_cancel' above],entryAt_lt filled⟩
          rw [none,Option.none_or]
        · rfl

theorem rebuildDense_spec (apart : Apart Chosen) (sound : Sound Chosen index) (small : base < 2 ^ 32)
    (short : len ≤ denseNumericMaxSlots)
    (covers : ∀ dense,index.dense = some dense → base ≤ dense.base ∧ dense.base + dense.slots.length ≤ base + len) :
    ∃ index',rebuildDense index base len = .ok index' ∧ Sound Chosen index' ∧ index'.denseKeyCount = index.denseKeyCount ∧
      ∀ key,Chosen key → look index' key = look index key := by
  obtain ⟨slots,rebuilt,size,entries⟩ := rebuild_slots apart sound small short covers
  refine ⟨_,rebuilt,⟨sound.chosen,sound.held,sound.distinct,?_,?_⟩,rfl,fun key chosen => ?_⟩
  · rintro dense ⟨⟩
    exact ⟨small,size.trans_le short⟩
  · rintro key dense offset ⟨⟨⟩,exact,fits⟩ copy empty
    obtain ⟨entry,found⟩ := Option.ne_none_iff_exists'.mp copy
    have chosen := sound.chosen _ ((mem_iff_getEntry sound.distinct).mpr found)
    rw [entries key offset chosen (size ▸ fits) exact] at empty
    by_cases inside : ∃ dense offset,Inside index key dense offset
    · obtain ⟨dense,place,inside⟩ := inside
      rw [look_inside inside] at empty
      exact sound.shadow key dense place inside copy empty
    · rw [look_outside fun dense offset here => inside ⟨dense,offset,here⟩] at empty
      exact copy empty
  · by_cases inside : ∃ offset < len,denseIntegerKey key = some (base + offset)
    · obtain ⟨offset,fits,exact⟩ := inside
      rw [← entries key offset chosen fits exact]
      have inside : Inside ⟨index.hashed,some ⟨base,slots⟩,index.denseKeyCount⟩ key ⟨base,slots⟩ offset :=
        ⟨rfl,exact,by rw [size]; exact fits⟩
      exact look_inside inside
    · rw [look_outside,look_outside]
      · rintro dense offset ⟨table,exact,fits⟩
        obtain ⟨below,covered⟩ := covers dense table
        exact inside ⟨dense.base + offset - base,by omega,by rw [exact]; congr 1; omega⟩
      · rintro dense offset ⟨⟨⟩,exact,fits⟩
        exact inside ⟨offset,size ▸ fits,exact⟩

end rebuilding

section spans

variable {Chosen : Key → Prop} {index : NumericIndex}

/-- What a widening may leave: the same answers, and as many keys. -/
def Kept (Chosen : Key → Prop) (index index' : NumericIndex) : Prop :=
  Sound Chosen index' ∧ index'.denseKeyCount = index.denseKeyCount ∧ ∀ key,Chosen key → look index' key = look index key

theorem Kept.refl (sound : Sound Chosen index) : Kept Chosen index index := ⟨sound,rfl,fun _ _ => rfl⟩

theorem allowedDenseSpan_le (index : NumericIndex) : allowedDenseSpan index ≤ denseNumericMaxSlots := Nat.min_le_right _ _

theorem foldl_min_le (integers : List Nat) (start : Nat) :
    integers.foldl min start ≤ start ∧ ∀ n ∈ integers,integers.foldl min start ≤ n := by
  induction integers generalizing start with
  | nil => exact ⟨Nat.le_refl _,nofun⟩
  | cons m integers ih =>
    obtain ⟨below,all⟩ := ih (min start m)
    rw [List.foldl_cons,List.forall_mem_cons]
    exact ⟨below.trans (Nat.min_le_left _ _),below.trans (Nat.min_le_right _ _),all⟩

theorem le_foldl_max (integers : List Nat) (start : Nat) :
    start ≤ integers.foldl max start ∧ ∀ n ∈ integers,n ≤ integers.foldl max start := by
  induction integers generalizing start with
  | nil => exact ⟨Nat.le_refl _,nofun⟩
  | cons m integers ih =>
    obtain ⟨above,all⟩ := ih (max start m)
    rw [List.foldl_cons,List.forall_mem_cons]
    exact ⟨(Nat.le_max_left _ _).trans above,(Nat.le_max_right _ _).trans above,all⟩

theorem foldl_max_lt (integers : List Nat) {start bound : Nat} (first : start < bound) (all : ∀ n ∈ integers,n < bound) :
    integers.foldl max start < bound := by
  induction integers generalizing start with
  | nil => exact first
  | cons m integers ih =>
    obtain ⟨here,others⟩ := List.forall_mem_cons.mp all
    exact ih (Nat.max_lt.mpr ⟨first,here⟩) others

theorem nextPowerOfTwo_le {n : Nat} (short : n ≤ denseNumericMaxSlots) : nextPowerOfTwo n ≤ denseNumericMaxSlots :=
  Nat.pow_le_pow_right (by decide) (Nat.clog_le_of_le_pow short)

/-- With an integer key in the hash table the least is not above the greatest. -/
theorem maybeInitializeDense_spec (apart : Apart Chosen) (sound : Sound Chosen index) (bare : index.dense = none) {key : Key}
    {integer : Nat} (exact : denseIntegerKey key = some integer) (found : getEntry key index.hashed ≠ none) :
    ∃ index',maybeInitializeDense index = .ok index' ∧ Kept Chosen index index' := by
  rw [maybeInitializeDense]
  split
  · exact ⟨index,rfl,.refl sound⟩
  · have member : integer ∈ index.hashed.filterMap fun entry => denseIntegerKey entry.1 := by
      obtain ⟨entry,found⟩ := Option.ne_none_iff_exists'.mp found
      exact List.mem_filterMap.mpr ⟨_,(mem_iff_getEntry sound.distinct).mpr found,exact⟩
    have bounded : ∀ n ∈ index.hashed.filterMap fun entry => denseIntegerKey entry.1,n < 2 ^ 32 := by
      intro n within
      obtain ⟨e,-,here⟩ := List.mem_filterMap.mp within
      obtain ⟨-,-,-,small⟩ := denseIntegerKey_value here
      exact small
    have least := (foldl_min_le (index.hashed.filterMap fun entry => denseIntegerKey entry.1) (2 ^ 32 - 1)).2 _ member
    have most := (le_foldl_max (index.hashed.filterMap fun entry => denseIntegerKey entry.1) 0).2 _ member
    have small := foldl_max_lt _ (by decide : 0 < 2 ^ 32) bounded
    dsimp only
    generalize (index.hashed.filterMap fun entry => denseIntegerKey entry.1).foldl min (2 ^ 32 - 1) = minKey at least ⊢
    generalize (index.hashed.filterMap fun entry => denseIntegerKey entry.1).foldl max 0 = maxKey at most small ⊢
    have ordered : minKey ≤ maxKey := least.trans most
    have width : (maxKey - minKey + 1) < 2 ^ 64 := by omega
    rw [sub,if_pos ordered]
    change ∃ index',(fit (maxKey - minKey + 1) >>= _) = _ ∧ _
    rw [fit,if_pos width]
    change ∃ index',(if allowedDenseSpan index < maxKey - minKey + 1 then _ else _) = _ ∧ _
    split
    · exact ⟨index,rfl,.refl sound⟩
    · next allowed =>
      have short : maxKey - minKey + 1 ≤ denseNumericMaxSlots := (Nat.not_lt.mp allowed).trans (allowedDenseSpan_le index)
      have rounded : nextPowerOfTwo (maxKey - minKey + 1) < 2 ^ 64 := (nextPowerOfTwo_le short).trans_lt (by decide)
      rw [fit,if_pos rounded]
      refine rebuildDense_spec apart sound (ordered.trans_lt small) (Nat.max_le.mpr ⟨?_,short⟩) fun dense table => ?_
      · exact (Nat.min_le_right _ _).trans (allowedDenseSpan_le index)
      · rw [bare] at table
        cases table

theorem maybeExpandDense_spec (apart : Apart Chosen) (sound : Sound Chosen index) {dense : DenseNumericIndex}
    (table : index.dense = some dense) {integer : Nat} (small : integer < 2 ^ 32) :
    ∃ index',maybeExpandDense index dense integer = .ok index' ∧ Kept Chosen index index' := by
  obtain ⟨low,short⟩ := sound.narrow dense table
  have room : dense.base + dense.slots.length < 2 ^ 64 := by
    unfold denseNumericMaxSlots at short
    omega
  have ordered : min dense.base integer ≤ max (dense.base + dense.slots.length) (integer + 1) := by omega
  have lower : min dense.base integer < 2 ^ 32 := by omega
  rw [maybeExpandDense,fit,if_pos room]
  change ∃ index',(sub (max (dense.base + dense.slots.length) (integer + 1)) (min dense.base integer) >>= _) = _ ∧ _
  rw [sub,if_pos ordered]
  change ∃ index',(if allowedDenseSpan index < _ then _ else _) = _ ∧ _
  split
  · exact ⟨index,rfl,.refl sound⟩
  · rw [sub,if_pos lower.le]
    change ∃ index',(if _ ≤ _ then _ else _) = _ ∧ _
    split
    · next enough =>
      rw [Nat.mod_eq_of_lt lower]
      refine rebuildDense_spec apart sound lower ?_ fun old here => ?_
      · exact (Nat.min_le_left _ _).trans ((Nat.min_le_right _ _).trans (allowedDenseSpan_le index))
      · obtain rfl := Option.some.inj (table.symm.trans here)
        exact ⟨Nat.min_le_left _ _,by omega⟩
    · exact ⟨index,rfl,.refl sound⟩

end spans

section operations

variable {Chosen : Key → Prop} {index : NumericIndex} {key : Key} {entry : Nat}

theorem insertHashed_spec (apart : Apart Chosen) (sound : Sound Chosen index) (chosen : Chosen key) (held : entry ≠ denseNumericEmpty)
    (room : index.denseKeyCount + 1 < 2 ^ 64) (outside : ∀ dense offset,¬ Inside index key dense offset) :
    ∃ index',insertHashed index key entry = .ok index' ∧ Sound Chosen index' ∧
      index'.denseKeyCount = index.denseKeyCount + (if (look index key).isNone && (denseIntegerKey key).isSome then 1 else 0) ∧
      ∀ other,Chosen other → look index' other = if key = other then some entry else look index other := by
  have fits : index.denseKeyCount + (if (getEntry key index.hashed).isNone && (denseIntegerKey key).isSome then 1 else 0) < 2 ^ 64 := by
    split <;> omega
  rw [insertHashed]
  dsimp only
  rw [fit,if_pos fits,look_outside outside]
  generalize shape : index.denseKeyCount + (if (getEntry key index.hashed).isNone && (denseIntegerKey key).isSome then 1 else 0) =
    count at fits ⊢
  obtain ⟨next,next_eq⟩ : ∃ next : NumericIndex,next = ⟨assign key entry index.hashed,index.dense,count⟩ := ⟨_,rfl⟩
  have sound' : Sound Chosen next := by
    subst next_eq
    refine ⟨fun e member => ?_,fun e member => ?_,nodup_assign entry sound.distinct,sound.narrow,fun other dense offset inside copy => ?_⟩
    · obtain rfl | before := mem_assign member
      · exact chosen
      · exact sound.chosen e before
    · obtain rfl | before := mem_assign member
      · exact held
      · exact sound.held e before
    · refine sound.shadow other dense offset inside ?_
      rwa [getEntry_assign,if_neg] at copy
      rintro rfl
      exact outside dense offset inside
  have looks : ∀ other,look next other = if key = other then some entry else look index other := by
    subst next_eq
    intro other
    by_cases inside : ∃ dense offset,Inside index other dense offset
    · obtain ⟨dense,offset,inside⟩ := inside
      have apart' : key ≠ other := by
        rintro rfl
        exact outside dense offset inside
      rw [if_neg apart',look_inside inside]
      exact look_inside inside
    · rw [look_outside fun dense offset here => inside ⟨dense,offset,here⟩,← getEntry_assign]
      exact look_outside fun dense offset here => inside ⟨dense,offset,here⟩
  have finish {result : Checked NumericIndex} (kept : ∃ index',result = .ok index' ∧ Kept Chosen next index') :
      ∃ index',result = .ok index' ∧ Sound Chosen index' ∧ index'.denseKeyCount = count ∧
        ∀ other,Chosen other → look index' other = if key = other then some entry else look index other := by
    obtain ⟨index',done,sound'',count',same⟩ := kept
    exact ⟨index',done,sound'',count'.trans (congrArg NumericIndex.denseKeyCount next_eq),
      fun other chosen' => (same other chosen').trans (looks other)⟩
  simp only [bind,Except.bind]
  rw [← next_eq]
  cases exact : denseIntegerKey key with
  | none => exact finish ⟨next,rfl,.refl sound'⟩
  | some integer =>
    obtain ⟨-,-,-,small⟩ := denseIntegerKey_value exact
    cases table : index.dense with
    | some dense => exact finish (maybeExpandDense_spec apart sound' (by rw [next_eq]; exact table) small)
    | none =>
      refine finish (maybeInitializeDense_spec apart sound' (by rw [next_eq]; exact table) exact ?_)
      rw [next_eq,getEntry_assign,if_pos rfl]
      exact Option.some_ne_none _

/-- In the table a slot is the key's own. -/
theorem Inside.other (apart : Apart Chosen) {dense : DenseNumericIndex} {offset offset' : Nat} {other : Key}
    (inside : Inside index key dense offset) (inside' : Inside index other dense offset') (chosen : Chosen key)
    (chosen' : Chosen other) : offset = offset' ↔ key = other := by
  constructor
  · rintro rfl
    exact apart key other _ chosen chosen' inside.2.1 inside'.2.1
  · rintro rfl
    exact Nat.add_left_cancel (Option.some.inj (inside.2.1.symm.trans inside'.2.1))

/-- A write to the slot of a key changes the answer for that key alone. -/
theorem look_set (apart : Apart Chosen) {dense : DenseNumericIndex} {offset count : Nat} {hashed : List (Key × Nat)}
    (inside : Inside index key dense offset) (chosen : Chosen key) (value : Nat)
    (others : ∀ other,key ≠ other → getEntry other hashed = getEntry other index.hashed) (other : Key) (chosen' : Chosen other) :
    look ⟨hashed,some { dense with slots := dense.slots.set offset value },count⟩ other =
      if key = other then (if value ≠ denseNumericEmpty then some value else none) else look index other := by
  obtain ⟨written,written_eq⟩ : ∃ written : NumericIndex,
      written = ⟨hashed,some { dense with slots := dense.slots.set offset value },count⟩ := ⟨_,rfl⟩
  rw [← written_eq]
  by_cases within : ∃ dense offset,Inside index other dense offset
  · obtain ⟨dense',offset',within⟩ := within
    obtain rfl := Option.some.inj (inside.1.symm.trans within.1)
    have within' : Inside written other { dense with slots := dense.slots.set offset value } offset' :=
      ⟨by rw [written_eq],within.2.1,by rw [List.length_set]; exact within.2.2⟩
    rw [look_inside within,look_inside within',entryAt_set inside.2.2,if_congr (inside.other apart within chosen chosen') rfl rfl]
  · have apart' : key ≠ other := by
      rintro rfl
      exact within ⟨dense,offset,inside⟩
    rw [if_neg apart',look_outside fun dense offset here => within ⟨dense,offset,here⟩,look_outside,written_eq,others other apart']
    rintro dense' offset' ⟨table,exact,fits⟩
    rw [written_eq] at table
    obtain rfl := Option.some.inj table
    rw [List.length_set] at fits
    exact within ⟨dense,offset',inside.1,exact,fits⟩

theorem insert_spec (apart : Apart Chosen) (sound : Sound Chosen index) (chosen : Chosen key) (held : entry ≠ denseNumericEmpty)
    (room : index.denseKeyCount + 1 < 2 ^ 64) :
    ∃ index',insert index key entry = .ok index' ∧ Sound Chosen index' ∧
      index'.denseKeyCount = index.denseKeyCount + (if (look index key).isNone && (denseIntegerKey key).isSome then 1 else 0) ∧
      ∀ other,Chosen other → look index' other = if key = other then some entry else look index other := by
  by_cases inside : ∃ dense offset,Inside index key dense offset
  · obtain ⟨dense,offset,inside⟩ := inside
    have fits : index.denseKeyCount + (if (entryAt dense.slots offset).isNone then 1 else 0) < 2 ^ 64 := by
      split <;> omega
    rw [insert,denseSlot_inside inside]
    change ∃ index',(fit (index.denseKeyCount + if (entryAt dense.slots offset).isNone then 1 else 0) >>= _) = _ ∧ _
    rw [fit,if_pos fits,look_inside inside,inside.2.1,Option.isSome_some,Bool.and_true]
    refine ⟨_,rfl,⟨sound.chosen,sound.held,sound.distinct,?_,?_⟩,rfl,fun other chosen' => ?_⟩
    · rintro _ ⟨⟩
      obtain ⟨low,short⟩ := sound.narrow dense inside.1
      exact ⟨low,by rw [List.length_set]; exact short⟩
    · rintro other _ offset' ⟨⟨⟩,exact,fits'⟩ copy
      rw [List.length_set] at fits'
      rw [entryAt_set inside.2.2,if_pos held]
      split
      · exact Option.some_ne_none _
      · exact sound.shadow other dense offset' ⟨inside.1,exact,fits'⟩ copy
    · rw [look_set apart inside chosen entry (fun _ _ => rfl) other chosen',if_pos held]
  · have outside : ∀ dense offset,¬ Inside index key dense offset := fun dense offset here => inside ⟨dense,offset,here⟩
    rw [insert,denseSlot_outside outside]
    exact insertHashed_spec apart sound chosen held room outside

theorem Sound.filter (sound : Sound Chosen index) (key : Key) : (∀ e ∈ index.hashed.filter (·.1 ≠ key),Chosen e.1) ∧
    (∀ e ∈ index.hashed.filter (·.1 ≠ key),e.2 ≠ denseNumericEmpty) ∧ ((index.hashed.filter (·.1 ≠ key)).map Prod.fst).Nodup := by
  refine ⟨fun e member => sound.chosen e (List.mem_of_mem_filter member),fun e member => sound.held e (List.mem_of_mem_filter member),?_⟩
  rw [keys_filter]
  exact sound.distinct.filter _

theorem remove_spec (apart : Apart Chosen) (sound : Sound Chosen index) (chosen : Chosen key) :
    ∃ removed index',remove index key = .ok (removed,index') ∧ Sound Chosen index' ∧
      index'.denseKeyCount = index.denseKeyCount - (if (look index key).isSome && (denseIntegerKey key).isSome then 1 else 0) ∧
      ∀ other,Chosen other → look index' other = if key = other then none else look index other := by
  obtain ⟨chosen',held',distinct'⟩ := sound.filter key
  have count (removed : Option Nat) : (if removed.isSome && (denseIntegerKey key).isSome then index.denseKeyCount - 1
      else index.denseKeyCount) = index.denseKeyCount - (if removed.isSome && (denseIntegerKey key).isSome then 1 else 0) := by
    split <;> rfl
  have shadow (other : Key) (copy : getEntry other (index.hashed.filter (·.1 ≠ key)) ≠ none) :
      key ≠ other ∧ getEntry other index.hashed ≠ none := by
    rw [getEntry_filter] at copy
    by_cases same : key = other
    · rw [if_pos same] at copy
      exact absurd rfl copy
    · rw [if_neg same] at copy
      exact ⟨same,copy⟩
  have others (other : Key) (apart' : key ≠ other) :
      getEntry other (index.hashed.filter (·.1 ≠ key)) = getEntry other index.hashed := by
    rw [getEntry_filter,if_neg apart']
  /- Nothing changes in the table. -/
  have alone (gone : look index key = getEntry key index.hashed)
      (empty : ∀ dense offset,Inside index key dense offset → entryAt dense.slots offset = none) (count : Nat) :
      Sound Chosen ⟨index.hashed.filter (·.1 ≠ key),index.dense,count⟩ ∧
        ∀ other,Chosen other → look ⟨index.hashed.filter (·.1 ≠ key),index.dense,count⟩ other =
          if key = other then none else look index other := by
    refine ⟨⟨chosen',held',distinct',sound.narrow,fun other dense offset inside copy =>
      sound.shadow other dense offset inside (shadow other copy).2⟩,fun other _ => ?_⟩
    by_cases inside : ∃ dense offset,Inside index other dense offset
    · obtain ⟨dense,offset,inside⟩ := inside
      rw [look_inside inside,@look_inside ⟨_,index.dense,count⟩ _ _ _ inside]
      split
      · next same => exact empty dense offset (same ▸ inside)
      · rfl
    · have outside : ∀ dense offset,¬ Inside index other dense offset := fun dense offset here => inside ⟨dense,offset,here⟩
      rw [look_outside outside,← getEntry_filter]
      exact look_outside outside
  have done (found : Option (DenseNumericIndex × Nat)) (slot : denseSlot index key = .ok found) :
      remove index key = .ok ((emptySlot index (getEntry key index.hashed) found).1,
        ⟨index.hashed.filter (·.1 ≠ key),(emptySlot index (getEntry key index.hashed) found).2,
          if (emptySlot index (getEntry key index.hashed) found).1.isSome && (denseIntegerKey key).isSome then
            index.denseKeyCount - 1 else index.denseKeyCount⟩) := by
    rw [remove,slot]
    rfl
  by_cases inside : ∃ dense offset,Inside index key dense offset
  · obtain ⟨dense,offset,inside⟩ := inside
    have looked := look_inside inside
    have removed := done _ (denseSlot_inside inside)
    cases filled : entryAt dense.slots offset with
    | none =>
      have bare : getEntry key index.hashed = none := by
        by_contra copy
        exact sound.shadow key dense offset inside copy filled
      rw [emptySlot,filled,bare,count none] at removed
      obtain ⟨sound',looks⟩ := alone (by rw [looked,filled,bare]) (fun dense' offset' here => by
        rw [← look_inside here,looked,filled]) (index.denseKeyCount - if (none : Option Nat).isSome && (denseIntegerKey key).isSome then 1 else 0)
      rw [looked,filled]
      exact ⟨_,_,removed,sound',rfl,looks⟩
    | some value =>
      rw [emptySlot,filled,count] at removed
      have held : ((getEntry key index.hashed).or (some value)).isSome = true := by simp
      rw [looked,filled,Option.isSome_some]
      rw [held] at removed
      refine ⟨_,_,removed,⟨chosen',held',distinct',?_,?_⟩,rfl,fun other chosen'' => ?_⟩
      · rintro _ ⟨⟩
        obtain ⟨low,short⟩ := sound.narrow dense inside.1
        exact ⟨low,by rw [List.length_set]; exact short⟩
      · rintro other _ offset' ⟨⟨⟩,exact,fits⟩ copy
        rw [List.length_set] at fits
        obtain ⟨apart',copy'⟩ := shadow other copy
        have within : Inside index other dense offset' := ⟨inside.1,exact,fits⟩
        obtain ⟨entry,found⟩ := Option.ne_none_iff_exists'.mp copy'
        have chosen'' := sound.chosen _ ((mem_iff_getEntry sound.distinct).mpr found)
        rw [entryAt_set inside.2.2,if_neg fun same => apart' ((inside.other apart within chosen chosen'').mp same)]
        exact sound.shadow other dense offset' within copy'
      · rw [look_set apart inside chosen denseNumericEmpty others other chosen'',if_neg (not_not.mpr rfl)]
  · have outside : ∀ dense offset,¬ Inside index key dense offset := fun dense offset here => inside ⟨dense,offset,here⟩
    have removed := done _ (denseSlot_outside outside)
    rw [emptySlot,count] at removed
    obtain ⟨sound',looks⟩ := alone (look_outside outside) (fun dense offset here => absurd here (outside dense offset))
      (index.denseKeyCount - if (getEntry key index.hashed).isSome && (denseIntegerKey key).isSome then 1 else 0)
    rw [look_outside outside]
    exact ⟨_,_,removed,sound',rfl,looks⟩

theorem clear_spec (sound : Sound Chosen index) : Sound Chosen (clear index) ∧ ∀ key,look (clear index) key = none := by
  refine ⟨⟨nofun,nofun,List.nodup_nil,?_,?_⟩,fun key => ?_⟩
  · intro dense table
    obtain ⟨old,before,rfl⟩ := Option.map_eq_some_iff.mp table
    obtain ⟨low,short⟩ := sound.narrow old before
    exact ⟨low,by rw [List.length_replicate]; exact short⟩
  · rintro key dense offset - copy
    exact absurd rfl copy
  · by_cases inside : ∃ dense offset,Inside (clear index) key dense offset
    · obtain ⟨dense,offset,inside⟩ := inside
      obtain ⟨old,-,rfl⟩ := Option.map_eq_some_iff.mp inside.1
      rw [look_inside inside,entryAt_replicate]
    · exact look_outside fun dense offset here => inside ⟨dense,offset,here⟩

end operations

section counting

variable {Chosen : Key → Prop} {entries : List (Key × Nat)} {key : Key}

def integerKeys (entries : List (Key × Nat)) : Nat := (entries.map Prod.fst).countP fun key => (denseIntegerKey key).isSome

theorem integerKeys_assign (entry : Nat) : integerKeys (assign key entry entries) =
    integerKeys entries + (if (getEntry key entries).isNone && (denseIntegerKey key).isSome then 1 else 0) := by
  rw [integerKeys,integerKeys,keys_assign]
  by_cases member : key ∈ entries.map Prod.fst
  · obtain ⟨held,found⟩ := Option.isSome_iff_exists.mp (getEntry_isSome.mpr member)
    rw [if_pos member,found]
    rfl
  · have missing := getEntry_isSome.not.mpr member
    rw [Option.not_isSome_iff_eq_none] at missing
    rw [if_neg member,missing,List.countP_append,List.countP_singleton,Option.isNone_none,Bool.true_and]

theorem integerKeys_filter (distinct : (entries.map Prod.fst).Nodup) : integerKeys (entries.filter (·.1 ≠ key)) =
    integerKeys entries - (if (getEntry key entries).isSome && (denseIntegerKey key).isSome then 1 else 0) := by
  have erased : (entries.map Prod.fst).filter (fun other => other ≠ key) = (entries.map Prod.fst).erase key := by
    rw [distinct.erase_eq_filter]
    exact List.filter_congr fun other _ => by rw [bne,beq_eq_decide,decide_not]
  rw [integerKeys,integerKeys,keys_filter,erased]
  by_cases member : key ∈ entries.map Prod.fst
  · obtain ⟨held,found⟩ := Option.isSome_iff_exists.mp (getEntry_isSome.mpr member)
    have counted := (List.perm_cons_erase member).countP_eq fun key => (denseIntegerKey key).isSome
    rw [List.countP_cons] at counted
    rw [found,Option.isSome_some,Bool.true_and,counted,Nat.add_sub_cancel]
  · have missing := getEntry_isSome.not.mpr member
    rw [Option.not_isSome_iff_eq_none] at missing
    rw [List.erase_of_not_mem member,missing]
    rfl

/-- There are no more integer keys than integers. -/
theorem integerKeys_le (apart : Apart Chosen) (chosen : ∀ key ∈ entries.map Prod.fst,Chosen key)
    (distinct : (entries.map Prod.fst).Nodup) : integerKeys entries ≤ 2 ^ 32 := by
  have apart' : ((entries.map Prod.fst).filterMap denseIntegerKey).Nodup := by
    rw [List.Nodup,List.pairwise_filterMap]
    refine List.Pairwise.imp_of_mem (fun {key key'} member member' other integer exact integer' exact' same => ?_) distinct
    subst same
    exact other (apart key key' integer (chosen key member) (chosen key' member') exact exact')
  have small : (entries.map Prod.fst).filterMap denseIntegerKey ⊆ List.range (2 ^ 32) := by
    intro integer within
    obtain ⟨key,-,exact⟩ := List.mem_filterMap.mp within
    obtain ⟨-,-,-,bound⟩ := denseIntegerKey_value exact
    exact List.mem_range.mpr bound
  calc integerKeys entries = ((entries.map Prod.fst).filterMap denseIntegerKey).length :=
      (List.length_filterMap_eq_countP ..).symm
    _ ≤ (List.range (2 ^ 32)).length := (apart'.subperm small).length_le
    _ = 2 ^ 32 := List.length_range

end counting

section runs

variable {Chosen : Key → Prop} {index : NumericIndex} {entries : List (Key × Nat)}

/-- The index stands for the plain map. -/
structure Stands (Chosen : Key → Prop) (index : NumericIndex) (entries : List (Key × Nat)) : Prop where
  sound : Sound Chosen index
  answers : ∀ key,Chosen key → look index key = getEntry key entries
  chosen : ∀ key ∈ entries.map Prod.fst,Chosen key
  distinct : (entries.map Prod.fst).Nodup
  count : index.denseKeyCount = integerKeys entries

theorem Stands.new : Stands Chosen new [] := by
  refine ⟨⟨nofun,nofun,List.nodup_nil,nofun,fun key dense offset inside => ?_⟩,fun key _ => ?_,nofun,List.nodup_nil,rfl⟩
  · exact absurd inside.1 nofun
  · exact look_outside fun dense offset inside => absurd inside.1 nofun

theorem Stands.insert {key : Key} {entry : Nat} (apart : Apart Chosen) (stands : Stands Chosen index entries) (chosen : Chosen key)
    (held : entry ≠ denseNumericEmpty) : ∃ index',insert index key entry = .ok index' ∧ Stands Chosen index' (assign key entry entries) := by
  have room := integerKeys_le apart stands.chosen stands.distinct
  obtain ⟨index',inserted,sound,count,looks⟩ := insert_spec apart stands.sound chosen held (by rw [stands.count]; omega)
  refine ⟨index',inserted,sound,fun other chosen' => ?_,?_,nodup_assign entry stands.distinct,?_⟩
  · rw [looks other chosen',stands.answers other chosen']
    exact (getEntry_assign key other entry entries).symm
  · intro other member
    obtain ⟨e,within,rfl⟩ := List.mem_map.mp member
    obtain rfl | before := mem_assign within
    · exact chosen
    · exact stands.chosen _ (List.mem_map_of_mem before)
  · rw [count,stands.answers key chosen,stands.count]
    exact (integerKeys_assign entry).symm

theorem Stands.remove {key : Key} (apart : Apart Chosen) (stands : Stands Chosen index entries) (chosen : Chosen key) :
    ∃ removed index',remove index key = .ok (removed,index') ∧ Stands Chosen index' (entries.filter (·.1 ≠ key)) := by
  obtain ⟨removed,index',done,sound,count,looks⟩ := remove_spec apart stands.sound chosen
  refine ⟨removed,index',done,sound,fun other chosen' => ?_,?_,?_,?_⟩
  · rw [looks other chosen',stands.answers other chosen']
    exact (getEntry_filter key other entries).symm
  · intro other member
    obtain ⟨e,within,rfl⟩ := List.mem_map.mp member
    exact stands.chosen _ (List.mem_map_of_mem (List.mem_of_mem_filter within))
  · rw [keys_filter]
    exact stands.distinct.filter _
  · rw [count,stands.answers key chosen,stands.count]
    exact (integerKeys_filter stands.distinct).symm

theorem Stands.clear (stands : Stands Chosen index entries) : Stands Chosen (MapIndex.clear index) [] := by
  obtain ⟨sound,looks⟩ := clear_spec stands.sound
  exact ⟨sound,fun key _ => looks key,nofun,List.nodup_nil,rfl⟩

theorem Stands.perform (apart : Apart Chosen) (stands : Stands Chosen index entries) {operation : Operation}
    (chosen : ∀ key ∈ operation.keys,Chosen key) (held : ∀ key entry,operation = .insert key entry → entry ≠ denseNumericEmpty)
    (answers : List (Option Nat)) :
    ∃ index',perform (index,answers) operation = .ok (index',(performPlain (entries,answers) operation).2) ∧
      Stands Chosen index' (performPlain (entries,answers) operation).1 := by
  cases operation with
  | insert key entry =>
    obtain ⟨index',inserted,stands'⟩ := stands.insert apart (chosen key (List.mem_singleton_self key)) (held key entry rfl)
    exact ⟨index',by rw [MapIndex.perform,inserted]; rfl,stands'⟩
  | get key =>
    refine ⟨index,?_,stands⟩
    rw [MapIndex.perform,get_eq,stands.answers key (chosen key (List.mem_singleton_self key))]
    rfl
  | remove key =>
    obtain ⟨removed,index',done,stands'⟩ := stands.remove apart (chosen key (List.mem_singleton_self key))
    exact ⟨index',by rw [MapIndex.perform,done]; rfl,stands'⟩
  | clear => exact ⟨MapIndex.clear index,rfl,stands.clear⟩

theorem Stands.run (apart : Apart Chosen) (stands : Stands Chosen index entries) {operations : List Operation}
    (chosen : ∀ key ∈ operations.flatMap Operation.keys,Chosen key)
    (held : ∀ key entry,Operation.insert key entry ∈ operations → entry ≠ denseNumericEmpty) (answers : List (Option Nat)) :
    ∃ index',operations.foldlM MapIndex.perform (index,answers) = .ok (index',(operations.foldl performPlain (entries,answers)).2) ∧
      Stands Chosen index' (operations.foldl performPlain (entries,answers)).1 := by
  induction operations generalizing index entries answers with
  | nil => exact ⟨index,rfl,stands⟩
  | cons operation operations ih =>
    rw [List.flatMap_cons,List.forall_mem_append] at chosen
    obtain ⟨next,performed,stands'⟩ := stands.perform apart chosen.1
      (fun key entry same => held key entry (same ▸ List.mem_cons_self)) answers
    obtain ⟨last,rest,whole⟩ := ih stands' chosen.2 (fun key entry member => held key entry (List.mem_cons_of_mem _ member))
      (performPlain (entries,answers) operation).2
    refine ⟨last,?_,whole⟩
    rw [List.foldlM_cons,performed]
    exact rest

end runs

/-- In a run that does not use both zeros every get is answered as by a plain map, the counter is the
number of integer keys, and no copy in the hash table of a key with a slot is ever read. -/
theorem numericIndex_exact (operations : List Operation)
    (held : ∀ key entry,Operation.insert key entry ∈ operations → entry ≠ denseNumericEmpty)
    (zeros : ¬ (Binary64.zero false ∈ operations.flatMap Operation.keys ∧ Binary64.zero true ∈ operations.flatMap Operation.keys)) :
    ∃ index,operations.foldlM perform (new,[]) = .ok (index,(operations.foldl performPlain ([],[])).2) ∧
      (∀ key ∈ operations.flatMap Operation.keys,get index key = .ok (getEntry key (operations.foldl performPlain ([],[])).1)) ∧
      index.denseKeyCount = integerKeys (operations.foldl performPlain ([],[])).1 ∧
      ∀ key dense offset,Inside index key dense offset → get index key = .ok (entryAt dense.slots offset) ∧
        (getEntry key index.hashed ≠ none → entryAt dense.slots offset ≠ none) := by
  have apart : Apart (· ∈ operations.flatMap Operation.keys) := by
    intro key key' integer member member' exact exact'
    obtain same | ⟨rfl | rfl,rfl | rfl⟩ := denseIntegerKey_inj exact exact'
    · exact same
    · rfl
    · exact absurd ⟨member,member'⟩ zeros
    · exact absurd ⟨member',member⟩ zeros
    · rfl
  obtain ⟨index,done,stands⟩ := Stands.new.run apart (fun _ member => member) held []
  refine ⟨index,done,fun key member => ?_,stands.count,fun key dense offset inside => ⟨?_,stands.sound.shadow key dense offset inside⟩⟩
  · rw [get_eq,stands.answers key member]
  · rw [get_eq,look_inside inside]

/-- The keys of the first integers, enough of them for a table. -/
def firstKeys (n : Nat) : List Operation := (List.range n).map fun i => .insert (Binary64.toBits (Binary64.ofNat i)) i

def tableOperations : List Operation := firstKeys 8 ++ [.remove (Binary64.toBits (Binary64.ofNat 5)),
  .get (Binary64.toBits (Binary64.ofNat 3)),.get (Binary64.toBits (Binary64.ofNat 5))]

theorem numericIndex_exact_dense : ∃ index,tableOperations.foldlM perform (new,[]) = .ok (index,[some 3,none]) ∧
    index.denseKeyCount = 7 ∧ index.dense.isSome = true := by
  have held : ∀ key entry,Operation.insert key entry ∈ tableOperations → entry ≠ denseNumericEmpty := by
    intro key entry member
    rcases List.mem_append.mp member with first | rest
    · obtain ⟨i,small,same⟩ := List.mem_map.mp first
      obtain ⟨-,rfl⟩ := Operation.insert.inj same
      exact ((List.mem_range.mp small).trans (by decide)).ne
    · simp at rest
  obtain ⟨index,run,-,count,-⟩ := numericIndex_exact tableOperations held (by decide +kernel)
  have answers : (tableOperations.foldl performPlain ([],[])).2 = [some 3,none] := by decide +kernel
  have dense : (tableOperations.foldlM perform (new,[])).toOption.map (·.1.dense.isSome) = some true := by decide +kernel
  rw [answers] at run
  rw [run] at dense
  exact ⟨index,run,count.trans (by decide +kernel),Option.some.inj dense⟩

/-- With a table the two zeros are one key, the greatest entry is none, and copies in the hash table grow stale. -/
theorem numericIndex_table :
    (¬ ∀ operations : List Operation,∃ index,
      operations.foldlM perform (new,[]) = .ok (index,(operations.foldl performPlain ([],[])).2)) ∧
    ((firstKeys 8 ++ [Operation.insert (Binary64.toBits (Binary64.ofNat 3)) denseNumericEmpty,
      Operation.get (Binary64.toBits (Binary64.ofNat 3))]).foldlM perform (new,[])).toOption.map Prod.snd = some [none] ∧
    ((firstKeys 8 ++ [Operation.insert (Binary64.toBits (Binary64.ofNat 3)) 77]).foldlM perform (new,[])).toOption.map
      (fun state => getEntry (Binary64.toBits (Binary64.ofNat 3)) state.1.hashed) = some (some 3) := by
  refine ⟨fun all => ?_,by decide +kernel,by decide +kernel⟩
  obtain ⟨index,run⟩ := all (firstKeys 8 ++ [Operation.get (Binary64.zero true)])
  have answers : ((firstKeys 8 ++ [Operation.get (Binary64.zero true)]).foldlM perform (new,[])).toOption.map Prod.snd =
      some ((firstKeys 8 ++ [Operation.get (Binary64.zero true)]).foldl performPlain ([],[])).2 := by
    rw [run]
    rfl
  exact absurd answers (by decide +kernel)

end Perry.Runtime.MapIndex
