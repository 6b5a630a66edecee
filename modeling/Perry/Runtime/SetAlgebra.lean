import Perry.Containers.Additions
import Perry.Machine.Runs
import Perry.Runtime.SetElements

/-! The set composition methods, on the sets of a heap; the two operands may be one set.
Each squeezes its receiver and walks raw slots up to the live count. The other operand, which three
of them walk as well, is squeezed only where it is the receiver. A result whose capacity would wrap is refused.
-/
namespace Perry.Runtime.JsSet

open Perry.Containers Perry.Machine

variable {V : Type} [DecidableEq V]

abbrev Heap (V : Type) := Nat → SetHeader V

section Methods

variable (elements : Elements V) (heap : Heap V) (set other : Nat)

def compactAt : Heap V := Function.update heap set (compactIfHoleySet (heap set))

/-- What a walk up to the live count reads. -/
def rawElements (set : SetHeader V) : List (Option V) := set.slots.take set.size

/-- The values that pass the test are added one after the other. -/
def addWhere (keep : Option V → Bool) (raws : List (Option V)) (result : SetHeader V) : Option (SetHeader V) :=
  raws.foldlM (fun result v => if keep v then jsSetAdd elements result v else some result) result

def jsSetUnion : Option (Heap V × SetHeader V) := do
  let heap := compactAt heap set
  let result ← addWhere elements (fun _ => true) (rawElements (heap set)) (jsSetAlloc 4)
  let result ← addWhere elements (fun _ => true) (rawElements (heap other)) result
  return (heap,result)

def jsSetIntersection : Option (Heap V × SetHeader V) := do
  let heap := compactAt heap set
  let result ← addWhere elements (fun v => jsSetHas elements (heap other) v) (rawElements (heap set)) (jsSetAlloc 4)
  return (heap,result)

def jsSetDifference : Option (Heap V × SetHeader V) := do
  let heap := compactAt heap set
  let result ← addWhere elements (fun v => !jsSetHas elements (heap other) v) (rawElements (heap set)) (jsSetAlloc 4)
  return (heap,result)

def jsSetSymmetricDifference : Option (Heap V × SetHeader V) := do
  let heap := compactAt heap set
  let result ← addWhere elements (fun v => !jsSetHas elements (heap other) v) (rawElements (heap set)) (jsSetAlloc 4)
  let result ← addWhere elements (fun v => !jsSetHas elements (heap set) v) (rawElements (heap other)) result
  return (heap,result)

def jsSetIsSubsetOf : Heap V × Bool :=
  let heap := compactAt heap set
  (heap,(rawElements (heap set)).all fun v => jsSetHas elements (heap other) v)

def jsSetIsSupersetOf : Heap V × Bool :=
  let heap := compactAt heap set
  (heap,(rawElements (heap other)).all fun v => jsSetHas elements (heap set) v)

def jsSetIsDisjointFrom : Heap V × Bool :=
  let heap := compactAt heap set
  (heap,(rawElements (heap set)).all fun v => !jsSetHas elements (heap other) v)

/-- The sets of a program, each changed by operations of its own. -/
def performAt (step : Nat × Op V) : Option (Heap V) :=
  (perform elements (heap step.1) step.2).map (Function.update heap step.1)

def FitsAt (step : Nat × Op V) : Prop := Fits elements (heap step.1) step.2

instance (step : Nat × Op V) : Decidable (FitsAt elements heap step) := inferInstanceAs (Decidable (Fits elements (heap step.1) step.2))

end Methods

section Building

/-- A set that has only been added to. -/
structure Built (result : SetHeader V) : Prop where
  well : result.WellFormed
  dense : result.used = result.size
  doubled : ∃ n,result.capacity = 2 ^ n ∧ n ≤ 31

/-- These are the elements of the set that is built, unless they are too many. -/
def Builds (made : Option (SetHeader V)) (members : List V) : Prop :=
  (∃ after,made = some after ∧ Built after ∧ after.live = members) ∧ members.length ≤ 2 ^ 31 ∨
    made = none ∧ 2 ^ 31 < members.length

/-- The method changes the heap to this one and returns a set of these elements, unless they are too many. -/
def Returns (outcome : Option (Heap V × SetHeader V)) (heap : Heap V) (members : List V) : Prop :=
  (∃ result,outcome = some (heap,result) ∧ result.live = members) ∧ members.length ≤ 2 ^ 31 ∨
    outcome = none ∧ 2 ^ 31 < members.length

variable {elements : Elements V} {result : SetHeader V} {made : Option (SetHeader V)} {members members' : List V} {heap : Heap V}
  {outcome : Option (Heap V × SetHeader V)}

omit [DecidableEq V] in
theorem Built.narrow (built : Built result) : result.used ≤ 2 ^ 31 := by
  obtain ⟨n,capacity,small⟩ := built.doubled
  have room := built.well.room.1
  rw [capacity] at room
  exact room.trans (Nat.pow_le_pow_right Nat.two_pos small)

omit [DecidableEq V] in
theorem Built.length (built : Built result) : result.live.length = result.used := by
  rw [built.dense,built.well.sized]

omit [DecidableEq V] in
theorem Builds.bind {next : SetHeader V → Option (SetHeader V)} (first : Builds made members) (longer : members.length ≤ members'.length)
    (builds : ∀ {result},Built result → result.live = members → Builds (next result) members') : Builds (made >>= next) members' := by
  obtain ⟨⟨after,rfl,built,live⟩,-⟩ | ⟨rfl,large⟩ := first
  · exact builds built live
  · exact .inr ⟨rfl,large.trans_le longer⟩

omit [DecidableEq V] in
theorem Builds.returned (builds : Builds made members) : Returns (made >>= fun result => pure (heap,result)) heap members := by
  obtain ⟨⟨after,rfl,-,live⟩,small⟩ | ⟨rfl,large⟩ := builds
  · exact .inl ⟨⟨after,rfl,live⟩,small⟩
  · exact .inr ⟨rfl,large⟩

omit [DecidableEq V] in
theorem Builds.continued {next : SetHeader V → Option (Heap V × SetHeader V)} (first : Builds made members)
    (longer : members.length ≤ members'.length)
    (returns : ∀ {result},Built result → result.live = members → Returns (next result) heap members') :
    Returns (made >>= next) heap members' := by
  obtain ⟨⟨after,rfl,built,live⟩,-⟩ | ⟨rfl,large⟩ := first
  · exact returns built live
  · exact .inr ⟨rfl,large.trans_le longer⟩

omit [DecidableEq V] in
theorem Returns.map_fst (returns : Returns outcome heap members) :
    outcome.map Prod.fst = if members.length ≤ 2 ^ 31 then some heap else none := by
  obtain ⟨⟨result,rfl,rfl⟩,small⟩ | ⟨rfl,large⟩ := returns
  · exact (if_pos small).symm
  · exact (if_neg large.not_ge).symm

omit [DecidableEq V] in
theorem Built.alloc : Built (jsSetAlloc 4 : SetHeader V) := ⟨.alloc 4,rfl,2,rfl,by decide⟩

omit [DecidableEq V] in
theorem Built.grown (built : Built result) {room : SetHeader V} (made : RoomMade result room) : ∃ n,room.capacity = 2 ^ n ∧ n ≤ 31 := by
  obtain ⟨n,capacity,small⟩ := built.doubled
  obtain same | ⟨twice,narrow⟩ := made.capacity
  · exact ⟨n,same.trans capacity,small⟩
  · rw [capacity,← Nat.pow_succ] at twice
    rw [twice] at narrow
    exact ⟨n + 1,twice,Nat.lt_succ_iff.mp ((Nat.pow_lt_pow_iff_right (by decide)).mp narrow)⟩

theorem Built.add (built : Built result) (raw : Option V) :
    Builds (jsSetAdd elements result raw) (appendNew result.live (normalizeZero elements raw)) := by
  have full : ¬ Reclaims result := fun reclaims => (built.dense ▸ reclaims.2.1).false
  have length := built.length
  cases done : jsSetAdd elements result raw with
  | some after =>
    refine .inl ?_
    obtain ⟨known,rfl⟩ | ⟨absent,room,made,rfl⟩ :=
      jsSetAdd_cases built.well built.narrow (fun _ reclaims => absurd reclaims full) done
    · rw [appendNew,if_pos known]
      exact ⟨⟨_,rfl,built,rfl⟩,length.trans_le built.narrow⟩
    · have built' : Built (appendElement room (normalizeZero elements raw)) := by
        refine ⟨appendElement_wellFormed made.well made.space (made.live ▸ absent),?_,(built.grown made : _)⟩
        change List.length (_ ++ _) = _ + 1
        rw [List.length_append,made.kept full,made.size,← built.dense]
        rfl
      rw [appendNew,if_neg absent,← made.live,← appendElement_live]
      exact ⟨⟨_,rfl,built',rfl⟩,built'.length.trans_le built'.narrow⟩
  | none =>
    refine .inr ⟨rfl,?_⟩
    by_contra small
    have can : normalizeZero elements raw ∉ result.live → CanGrow result := by
      intro absent
      refine ⟨fun reclaims => absurd reclaims full,fun whole _ => ?_⟩
      rw [appendNew,if_neg absent,List.length_append,length,whole,List.length_singleton] at small
      omega
    obtain ⟨after,added⟩ := jsSetAdd_done built.well built.narrow can
    rw [done] at added
    cases added

theorem addWhere_builds (elements : Elements V) (keep : Option V → Bool) (raws : List (Option V)) (built : Built result) :
    Builds (addWhere elements keep raws result)
      (result.live ++ additions result.live (readAs elements.undefined (raws.filter keep))) := by
  rw [← foldl_appendNew]
  induction raws generalizing result with
  | nil => exact .inl ⟨⟨_,rfl,built,rfl⟩,built.length.trans_le built.narrow⟩
  | cons raw raws step =>
    rw [addWhere,List.foldlM_cons,List.filter_cons]
    split
    · rw [readAs,List.map_cons,List.foldl_cons]
      refine (built.add raw).bind ?_ fun built live => ?_
      · rw [foldl_appendNew,List.length_append]
        exact Nat.le_add_right _ _
      · rw [← normalizeZero,← live]
        exact step built
    · exact step built

end Building

section Specs

variable {elements : Elements V} {heap : Heap V} {set other : Nat}

theorem performAt_wellFormed {step : Nat × Op V} (well : ∀ place,(heap place).WellFormed) (fits : FitsAt elements heap step) :
    ∃ after,performAt elements heap step = some after ∧ ∀ place,(after place).WellFormed := by
  obtain ⟨set,op⟩ := step
  obtain ⟨after,done,kept⟩ := perform_wellFormed (well set) fits
  refine ⟨Function.update heap set after,by rw [performAt,done]; rfl,fun place => ?_⟩
  rw [Function.update_apply]
  split
  · exact kept
  · exact well place

/-- A run within the bounds of its operations is not refused. -/
theorem runs_wellFormed {run : List (Nat × Op V)} (fits : Throughout (performAt elements) (FitsAt elements) heap run)
    (well : ∀ place,(heap place).WellFormed) :
    ∃ after,Runs (performAt elements) heap run after ∧ ∀ place,(after place).WellFormed := by
  exact fits.invariant performAt_wellFormed well

theorem compactAt_live (place : Nat) : (compactAt heap set place).live = (heap place).live := by
  rw [compactAt,Function.update_apply]
  split
  · rename_i same
    rw [compactIfHoleySet_live,same]
  · rfl

variable (well : ∀ place,(heap place).WellFormed)

include well

theorem compactAt_wellFormed (can : CanSqueeze (heap set)) (place : Nat) : (compactAt heap set place).WellFormed := by
  rw [compactAt,Function.update_apply]
  split
  · exact compactIfHoleySet_wellFormed (well set) can
  · exact well place

theorem compactAt_used (place : Nat) : (compactAt heap set place).used ≤ (heap place).used := by
  rw [compactAt,Function.update_apply]
  split
  · rename_i same
    rw [same,SetHeader.used,compactIfHoleySet_slots (well set),List.length_map,← (well set).sized]
    exact (well set).size_le
  · exact le_rfl

/-- The squeezed receiver is read as its elements. -/
theorem rawElements_receiver : rawElements (compactAt heap set set) = (heap set).live.map some := by
  rw [compactAt,Function.update_self,rawElements,compactIfHoleySet_slots (well set),compactIfHoleySet_size,
    (well set).sized]
  exact List.take_of_length_le (by rw [List.length_map])

theorem jsSetHas_compactAt (can : CanSqueeze (heap set)) {place : Nat} (narrow : (heap place).used ≤ 2 ^ 31) (raw : Option V) :
    jsSetHas elements (compactAt heap set place) raw = decide (normalizeZero elements raw ∈ (heap place).live) := by
  rw [Bool.eq_iff_iff,(compactAt_wellFormed well can place).jsSetHas_iff ((compactAt_used well place).trans narrow),
    compactAt_live,decide_eq_true_iff]

theorem jsSetHas_some (can : CanSqueeze (heap set)) (narrow : (heap other).used ≤ 2 ^ 31) (v : V) :
    jsSetHas elements (compactAt heap set other) (some v) = decide (v ∈ (heap other).live) :=
  jsSetHas_compactAt well can narrow (some v)

theorem not_jsSetHas_some (can : CanSqueeze (heap set)) (narrow : (heap other).used ≤ 2 ^ 31) (v : V) :
    (!jsSetHas elements (compactAt heap set other) (some v)) = decide (v ∉ (heap other).live) := by
  rw [jsSetHas_some well can narrow,decide_not]

/-- The elements of the receiver that pass a test of their membership. -/
theorem receiver_builds (elements : Elements V) (set : Nat) (keep : Option V → Bool) (rule : V → Bool)
    (same : ∀ v,keep (some v) = rule v) :
    Builds (addWhere elements keep (rawElements (compactAt heap set set)) (jsSetAlloc 4)) ((heap set).live.filter rule) := by
  have builds := addWhere_builds elements keep ((heap set).live.map some) Built.alloc
  have values : readAs elements.undefined (((heap set).live.map some).filter keep) = (heap set).live.filter rule := by
    rw [List.filter_map,readAs,List.map_map,show keep ∘ some = rule from funext same]
    exact List.map_id _
  have all : ((heap set).live.filter rule).filter (· ∉ ([] : List V)) = (heap set).live.filter rule :=
    List.filter_eq_self.mpr fun v _ => decide_eq_true List.not_mem_nil
  rw [values] at builds
  change Builds _ ([] ++ additions [] _) at builds
  rw [additions_of_nodup ((well set).distinct.filter _),all] at builds
  rw [rawElements_receiver well]
  exact builds

/-- What the walk over the other operand's raw slots reads. -/
theorem filter_has (can : CanSqueeze (heap set)) (narrow : (heap set).used ≤ 2 ^ 31) (raws : List (Option V)) :
    readAs elements.undefined (raws.filter fun v => !jsSetHas elements (compactAt heap set set) v) =
      (readAs elements.undefined raws).filter (· ∉ (heap set).live) := by
  have same : (fun v => !jsSetHas elements (compactAt heap set set) v) =
      (fun v => decide (v ∉ (heap set).live)) ∘ fun raw : Option V => raw.getD elements.undefined := by
    funext raw
    rw [jsSetHas_compactAt well can narrow]
    exact (decide_not ..).symm
  rw [readAs,readAs,same,List.filter_map]

theorem intersection_returns (can : CanSqueeze (heap set)) (narrow : (heap other).used ≤ 2 ^ 31) :
    Returns (jsSetIntersection elements heap set other) (compactAt heap set) ((heap set).live.filter (· ∈ (heap other).live)) :=
  (receiver_builds well elements set _ _ (jsSetHas_some well can narrow)).returned

theorem difference_returns (can : CanSqueeze (heap set)) (narrow : (heap other).used ≤ 2 ^ 31) :
    Returns (jsSetDifference elements heap set other) (compactAt heap set) ((heap set).live.filter (· ∉ (heap other).live)) :=
  (receiver_builds well elements set _ _ (not_jsSetHas_some well can narrow)).returned

theorem union_returns : Returns (jsSetUnion elements heap set other) (compactAt heap set) ((heap set).live ++
    additions (heap set).live (readAs elements.undefined (rawElements (compactAt heap set other)))) := by
  have first := receiver_builds well elements set (fun _ => true) (fun _ => true) fun _ => rfl
  rw [List.filter_true] at first
  refine first.continued (by rw [List.length_append]; exact Nat.le_add_right _ _) fun built live => ?_
  have second := addWhere_builds elements (fun _ => true) (rawElements (compactAt heap set other)) built
  rw [live,List.filter_true] at second
  exact second.returned

theorem symmetricDifference_returns (can : CanSqueeze (heap set)) (receiver : (heap set).used ≤ 2 ^ 31)
    (narrow : (heap other).used ≤ 2 ^ 31) :
    Returns (jsSetSymmetricDifference elements heap set other) (compactAt heap set)
      ((heap set).live.filter (· ∉ (heap other).live) ++
        additions (heap set).live (readAs elements.undefined (rawElements (compactAt heap set other)))) := by
  have first := receiver_builds well elements set (fun v => !jsSetHas elements (compactAt heap set other) v)
    (· ∉ (heap other).live) (not_jsSetHas_some well can narrow)
  refine first.continued (by rw [List.length_append]; exact Nat.le_add_right _ _) fun built live => ?_
  have second := addWhere_builds elements (fun v => !jsSetHas elements (compactAt heap set set) v)
    (rawElements (compactAt heap set other)) built
  rw [live,filter_has well can receiver,additions_filter fun v member => (List.mem_filter.mp member).1] at second
  exact second.returned

end Specs

variable (elements : Elements V) (capacities : Nat → BitVec 32)

end Perry.Runtime.JsSet
