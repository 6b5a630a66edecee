import Perry.Runtime.SetAlgebra

/-! `forEach` walks over the sets of a program, whose callbacks change and read these sets and walk
them again. A walk keeps a raw slot counter; the specification walks `[[SetData]]`, whose deleted
elements stay as empty records. -/
namespace Perry.Runtime.JsSet

open Perry.Containers Perry.Machine

variable {V : Type}

inductive Method
  | union
  | intersection
  | difference
  | symmetricDifference
  | isSubsetOf
  | isSupersetOf
  | isDisjointFrom
  deriving DecidableEq,Repr

inductive Operation (V : Type)
  | add (set : Nat) (raw : Option V)
  | delete (set : Nat) (raw : Option V)
  | clear (set : Nat)
  | has (set : Nat) (raw : Option V)
  | valueAt (set index : Nat)
  | toArray (set : Nat)
  | compose (method : Method) (set other : Nat)
  deriving DecidableEq,Repr

/-- One action of a callback. -/
inductive Action (V : Type)
  | op (operation : Operation V)
  | forEach (set : Nat)
  deriving DecidableEq,Repr

/-- What a program sees; what is read from a slot is an element or the hole marker. -/
inductive Observation (V : Type)
  | visited (set : Nat) (raw : Option V)
  | flag (answer : Bool)
  | element (read : Option (Option V))
  | array (read : List (Option V))
  deriving DecidableEq,Repr

/-- A walk: its counter, and what its current callback has still to do. -/
structure Walk (V : Type) where
  set : Nat
  counter : Nat
  pending : List (Action V)
  deriving DecidableEq,Repr

/-- A state of the run, the innermost walk first. -/
structure Machine (Store V : Type) where
  heap : Nat → Store
  walks : List (Walk V)
  calls : Nat
  seen : List (Observation V)

/-- How sets are kept. -/
structure Storage (Store V : Type) where
  slots : Store → List (Option V)
  enter : Store → Store
  leave : Store → Store
  perform : (Nat → Store) → Operation V → Option ((Nat → Store) × List (Observation V))

section Model

variable [DecidableEq V] (elements : Elements V) (set : SetHeader V)

def liveIndexToRawSet (idx : Nat) : SetHeader V × Option Nat :=
  if set.size ≤ idx then (set,none)
  else if !setForeachIsActive set then (compactIfHoleySet set,some idx)
  else (set,liveToRaw set.slots idx)

def jsSetValueAt (i : Nat) : SetHeader V × Option (Option V) :=
  let (set,raw) := liveIndexToRawSet set i
  (set,raw.bind (set.slots[·]?))

def jsSetToArray : SetHeader V × List (Option V) :=
  let set := compactIfHoleySet set
  (set,rawElements set)

def Method.call (heap : Heap V) (set other : Nat) : Method → Option (Heap V)
  | union => (jsSetUnion elements heap set other).map Prod.fst
  | intersection => (jsSetIntersection elements heap set other).map Prod.fst
  | difference => (jsSetDifference elements heap set other).map Prod.fst
  | symmetricDifference => (jsSetSymmetricDifference elements heap set other).map Prod.fst
  | isSubsetOf => some (jsSetIsSubsetOf elements heap set other).1
  | isSupersetOf => some (jsSetIsSupersetOf elements heap set other).1
  | isDisjointFrom => some (jsSetIsDisjointFrom elements heap set other).1

/-- The runtime's sets. What a composition method answers is not looked at here. -/
def setHeaders : Storage (SetHeader V) V where
  slots := SetHeader.slots
  enter := jsSetForeachStart
  leave := jsSetForeachFinish
  perform heap
    | .add set raw => (jsSetAdd elements (heap set) raw).map fun after => (Function.update heap set after,[])
    | .delete set raw =>
      let (after,answer) := jsSetDelete elements (heap set) raw
      some (Function.update heap set after,[.flag answer])
    | .clear set => some (Function.update heap set (jsSetClear (heap set)),[])
    | .has set raw => some (heap,[.flag (jsSetHas elements (heap set) raw)])
    | .valueAt set index =>
      let (after,answer) := jsSetValueAt (heap set) index
      some (Function.update heap set after,[.element answer])
    | .toArray set =>
      let (after,answer) := jsSetToArray (heap set)
      some (Function.update heap set after,[.array answer])
    | .compose method set other => (method.call elements heap set other).map (·,[])

/-- The specification's `[[SetData]]`. -/
abbrev SetData (V : Type) := List (Option V)

def SetData.add (data : SetData V) (v : V) : SetData V := if some v ∈ data then data else data ++ [some v]

def SetData.clear (data : SetData V) : SetData V := data.map fun _ => none

def SetData.delete (data : SetData V) (v : V) : SetData V := data.map fun slot => if slot = some v then none else slot

/-- The specification's sets. -/
def setDatas : Storage (SetData V) V where
  slots := id
  enter := id
  leave := id
  perform datas
    | .add set raw => some (Function.update datas set (SetData.add (datas set) (normalizeZero elements raw)),[])
    | .delete set raw =>
      let v := normalizeZero elements raw
      some (Function.update datas set (SetData.delete (datas set) v),[.flag (some v ∈ datas set)])
    | .clear set => some (Function.update datas set (SetData.clear (datas set)),[])
    | .has set raw => some (datas,[.flag (some (normalizeZero elements raw) ∈ datas set)])
    | .valueAt set index => some (datas,[.element ((datas set).reduceOption[index]?.map some)])
    | .toArray set => some (datas,[.array ((datas set).reduceOption.map some)])
    | .compose _ _ _ => some (datas,[])

end Model

section Runs

variable {Store : Type} (storage : Storage Store V)

/-- One step of `js_set_foreach_impl` and of the callbacks it calls; the callback that is called
`calls`-th over the whole run performs `script calls`. -/
def foreachStep (script : Nat → List (Action V)) (machine : Machine Store V) : Option (Machine Store V) :=
  match machine.walks with
  | [] => some machine
  | walk :: outer => match walk.pending with
    | .op operation :: rest => do
      let (heap,answers) ← storage.perform machine.heap operation
      return { machine with
        heap
        walks := { walk with pending := rest } :: outer
        seen := machine.seen ++ answers }
    | .forEach set :: rest =>
      some { machine with
        heap := Function.update machine.heap set (storage.enter (machine.heap set))
        walks := ⟨set,0,[]⟩ :: { walk with pending := rest } :: outer }
    | [] => match nextLive (storage.slots (machine.heap walk.set)) walk.counter with
      | none =>
        some { machine with
          heap := Function.update machine.heap walk.set (storage.leave (machine.heap walk.set))
          walks := outer }
      | some index =>
        some { machine with
          walks := ⟨walk.set,index + 1,script machine.calls⟩ :: outer
          calls := machine.calls + 1
          seen := machine.seen ++ ((storage.slots (machine.heap walk.set))[index]?.map (.visited walk.set)).toList }

theorem foreachStep_op {script : Nat → List (Action V)} {heap heap' : Nat → Store} {set counter calls : Nat} {outer : List (Walk V)}
    {operation : Operation V} {later : List (Action V)} {seen answers : List (Observation V)}
    (done : storage.perform heap operation = some (heap',answers)) :
    foreachStep storage script ⟨heap,⟨set,counter,.op operation :: later⟩ :: outer,calls,seen⟩ =
      some ⟨heap',⟨set,counter,later⟩ :: outer,calls,seen ++ answers⟩ := by
  simp only [foreachStep,done]
  rfl

/-- A run that starts with one call of `forEach`. -/
def foreachRun (script : Nat → List (Action V)) (heap : Nat → Store) (set : Nat) : Nat → Option (Machine Store V)
  | 0 => some ⟨Function.update heap set (storage.enter (heap set)),[⟨set,0,[]⟩],0,[]⟩
  | steps + 1 => (foreachRun script heap set steps).bind (foreachStep storage script)

end Runs

/-- The set that an operation squeezes whether or not it is walked. -/
def Operation.squeezes : Operation V → Option Nat
  | .toArray set => some set
  | .compose _ set _ => some set
  | _ => none

section Bounds

variable [DecidableEq V] (elements : Elements V) (heap : Heap V)

/-- What a composition method looks up is found by an `i32`, and a set that it builds is small enough. -/
def Method.Fits (set other : Nat) : Method → Prop
  | union => ((heap set).live ++ additions (heap set).live
      (readAs elements.undefined (rawElements (compactAt heap set other)))).length ≤ 2 ^ 31
  | intersection => (heap other).used ≤ 2 ^ 31 ∧ ((heap set).live.filter (· ∈ (heap other).live)).length ≤ 2 ^ 31
  | difference => (heap other).used ≤ 2 ^ 31 ∧ ((heap set).live.filter (· ∉ (heap other).live)).length ≤ 2 ^ 31
  | symmetricDifference => (heap set).used ≤ 2 ^ 31 ∧ (heap other).used ≤ 2 ^ 31 ∧
      ((heap set).live.filter (· ∉ (heap other).live) ++ additions (heap set).live
        (readAs elements.undefined (rawElements (compactAt heap set other)))).length ≤ 2 ^ 31
  | _ => True

/-- The bounds that the operation relies on. -/
def Operation.Fits : Operation V → Prop
  | .add set raw => JsSet.Fits elements (heap set) (.add raw)
  | .delete set raw => JsSet.Fits elements (heap set) (.delete raw)
  | .clear _ => True
  | .has set _ => (heap set).used ≤ 2 ^ 31
  | .valueAt set index => index < (heap set).size → setForeachIsActive (heap set) = false → CanSqueeze (heap set)
  | .toArray set => CanSqueeze (heap set)
  | .compose method set other => CanSqueeze (heap set) ∧ method.Fits elements heap set other

/-- The next step is disturbed neither by holes below the counter of an active walk, where the step
squeezes the set whether or not it is walked, nor by the extent of a set. -/
def Undisturbed (machine : Machine (SetHeader V) V) : Prop :=
  match machine.walks with
  | [] => True
  | walk :: outer => match walk.pending with
    | .op operation :: _ => operation.Fits elements machine.heap ∧ ∀ active ∈ walk :: outer,operation.squeezes = some active.set →
        holesBelow (machine.heap active.set).slots active.counter = 0
    | .forEach set :: _ => Fits elements (machine.heap set) .foreachStart
    | [] => nextLive (machine.heap walk.set).slots walk.counter = none → Fits elements (machine.heap walk.set) .foreachFinish

instance (set other : Nat) : (method : Method) → Decidable (method.Fits elements heap set other)
  | .union => inferInstanceAs (Decidable (_ ≤ _))
  | .intersection => inferInstanceAs (Decidable (_ ∧ _))
  | .difference => inferInstanceAs (Decidable (_ ∧ _))
  | .symmetricDifference => inferInstanceAs (Decidable (_ ∧ _))
  | .isSubsetOf => .isTrue trivial
  | .isSupersetOf => .isTrue trivial
  | .isDisjointFrom => .isTrue trivial

instance : (operation : Operation V) → Decidable (operation.Fits elements heap)
  | .add set raw => inferInstanceAs (Decidable (JsSet.Fits elements (heap set) (.add raw)))
  | .delete set raw => inferInstanceAs (Decidable (JsSet.Fits elements (heap set) (.delete raw)))
  | .clear _ => .isTrue trivial
  | .has _ _ => inferInstanceAs (Decidable (_ ≤ _))
  | .valueAt _ _ => inferInstanceAs (Decidable (_ → _))
  | .toArray set => inferInstanceAs (Decidable (CanSqueeze (heap set)))
  | .compose method set other => inferInstanceAs (Decidable (CanSqueeze (heap set) ∧ method.Fits elements heap set other))

instance : (machine : Machine (SetHeader V) V) → Decidable (Undisturbed elements machine)
  | ⟨_,[],_,_⟩ => .isTrue trivial
  | ⟨_,⟨_,_,.op _ :: _⟩ :: _,_,_⟩ => inferInstanceAs (Decidable (_ ∧ _))
  | ⟨heap,⟨_,_,.forEach set :: _⟩ :: _,_,_⟩ => inferInstanceAs (Decidable (JsSet.Fits elements (heap set) .foreachStart))
  | ⟨_,⟨_,_,[]⟩ :: _,_,_⟩ => inferInstanceAs (Decidable (_ → _))

end Bounds

/-- One operation on a set and on its `[[SetData]]`: the elements stay the same, and so do the places
of the active walks, if a squeeze finds no hole below them. -/
structure Tracks (squeezes : Prop) (set after : SetHeader V) (data data' : SetData V) : Prop where
  well : after.WellFormed
  same : after.live = data'.reduceOption
  walks : after.walks = set.walks
  aligned : ∀ {counter place},setForeachIsActive set = true → (squeezes → holesBelow set.slots counter = 0) →
    Aligned set.slots counter data place → Aligned after.slots counter data' place

section operations

variable [DecidableEq V] {squeezes : Prop} {elements : Elements V} {set : SetHeader V} {data : SetData V}

theorem compactIfHoleySet_walks : (compactIfHoleySet set).walks = set.walks := by
  unfold compactIfHoleySet
  split <;> rfl

omit [DecidableEq V] in
theorem mem_data (same : set.live = data.reduceOption) {v : V} : v ∈ set.live ↔ some v ∈ data := by
  rw [same]
  exact List.reduceOption_mem_iff

omit [DecidableEq V] in
theorem Tracks.refl (well : set.WellFormed) (same : set.live = data.reduceOption) :
    Tracks squeezes set set data data :=
  ⟨well,same,rfl,fun _ _ aligned => aligned⟩

theorem Tracks.compact (well : set.WellFormed) (can : CanSqueeze set) (same : set.live = data.reduceOption)
    (warned : setForeachIsActive set = true → squeezes) : Tracks squeezes set (compactIfHoleySet set) data data where
  well := compactIfHoleySet_wellFormed well can
  same := by rw [compactIfHoleySet_live,same]
  walks := compactIfHoleySet_walks
  aligned active clean aligned := by
    have moved := aligned.squeeze
    rw [clean (warned active),Nat.sub_zero,squeeze_eq_map] at moved
    rw [compactIfHoleySet_slots well]
    exact moved

omit [DecidableEq V] in
theorem not_reclaims (active : setForeachIsActive set = true) : ¬ Reclaims set := by
  rintro ⟨-,-,idle⟩
  rw [active] at idle
  cases idle

theorem Tracks.add {raw : Option V} (well : set.WellFormed) (fits : Fits elements set (.add raw)) (same : set.live = data.reduceOption) :
    ∃ after,jsSetAdd elements set raw = some after ∧
      Tracks squeezes set after data (SetData.add data (normalizeZero elements raw)) := by
  obtain ⟨narrow,can⟩ := fits
  obtain ⟨after,done⟩ := jsSetAdd_done well narrow can
  refine ⟨after,done,?_⟩
  have reclaimed (absent : normalizeZero elements raw ∉ set.live) := (can absent).reclaimed
  obtain ⟨kept,live⟩ := jsSetAdd_spec well narrow reclaimed done
  obtain ⟨known,rfl⟩ | ⟨absent,made,room,rfl⟩ := jsSetAdd_cases well narrow reclaimed done
  · rw [SetData.add,if_pos ((mem_data same).mp known)]
    exact .refl well same
  · rw [if_neg absent] at live
    rw [SetData.add,if_neg (mt (mem_data same).mpr absent)]
    refine ⟨kept,?_,room.walks,fun active _ aligned => ?_⟩
    · rw [live,List.reduceOption_append,same]
      rfl
    · rw [appendElement,room.kept (not_reclaims active)]
      exact aligned.append _

/-- The slot of an element is the one slot that becomes a hole. -/
theorem set_none (well : set.WellFormed) {v : V} {place : Nat} (held : set.slots[place]? = some (some v)) :
    set.slots.set place none = SetData.delete set.slots v := by
  refine List.ext_getElem? fun other => ?_
  rw [SetData.delete,List.getElem?_map,List.getElem?_set]
  split
  · rename_i here
    rw [← here,held,if_pos (List.getElem?_eq_some_iff.mp held).1,Option.map_some,if_pos rfl]
  · rename_i elsewhere
    cases slot : set.slots[other]? with
    | none => rfl
    | some slot' =>
      rw [Option.map_some,if_neg]
      rintro rfl
      rw [← well.indexed,(well.indexed v place).mpr held] at slot
      exact elsewhere (Option.some_inj.mp slot)

omit [DecidableEq V] in
theorem aligned_clear {slots : List (Option V)} {counter place : Nat} (aligned : Aligned slots counter data place) :
    Aligned (SetData.clear slots) counter (SetData.clear data) place := by
  have emptied (slots : SetData V) : SetData.clear slots = slots.map (·.bind fun _ => none) :=
    List.map_congr_left fun slot _ => by cases slot <;> rfl
  rw [emptied,emptied]
  exact aligned.map fun _ => none

theorem aligned_delete {slots : List (Option V)} {counter place : Nat} (aligned : Aligned slots counter data place) (v : V) :
    Aligned (SetData.delete slots v) counter (SetData.delete data v) place := by
  have dropped (slots : SetData V) :
      SetData.delete slots v = slots.map (·.bind fun other => if other = v then none else some other) := by
    refine List.map_congr_left fun slot _ => ?_
    cases slot with
    | none => rfl
    | some other => simp
  rw [dropped,dropped]
  exact aligned.map _

theorem reduceOption_delete (data : SetData V) (v : V) : (SetData.delete data v).reduceOption = data.reduceOption.filter (· ≠ v) := by
  induction data with
  | nil => rfl
  | cons slot rest step =>
    rw [SetData.delete,List.map_cons,← SetData.delete]
    cases slot with
    | none => exact step
    | some other =>
      rw [List.reduceOption_cons_of_some,List.filter_cons,← step]
      by_cases same : other = v <;> simp [same]

theorem delete_absent {slots : List (Option V)} {v : V} (absent : some v ∉ slots) : SetData.delete slots v = slots := by
  refine (List.map_congr_left fun slot member => if_neg ?_).trans (List.map_id slots)
  rintro rfl
  exact absent member

theorem Tracks.delete {raw : Option V} (well : set.WellFormed) (fits : Fits elements set (.delete raw))
    (same : set.live = data.reduceOption) :
    Tracks squeezes set (jsSetDelete elements set raw).1 data (SetData.delete data (normalizeZero elements raw)) := by
  obtain ⟨kept,live,-⟩ := jsSetDelete_spec well fits
  refine ⟨kept,?_,?_,?_⟩
  · rw [live,well.distinct.erase_eq_filter,reduceOption_delete,same]
    exact List.filter_congr fun v _ => by by_cases found : v = normalizeZero elements raw <;> simp [found]
  · unfold jsSetDelete
    split
    · rfl
    · dsimp only
      split <;> rfl
  · intro counter place active _ aligned
    have moved := aligned_delete aligned (normalizeZero elements raw)
    unfold jsSetDelete
    split
    · rename_i missing
      rwa [delete_absent (mt mem_slots.mp ((well.findValueIndex_none fits.1).mp missing))] at moved
    · rename_i slot found
      have walked : setForeachIsActive (dropSlot set slot) = true := active
      rw [← set_none well ((well.findValueIndex_some fits.1).mp found)] at moved
      dsimp only
      rw [walked,if_neg (fun squeezes => absurd squeezes.2.2 Bool.false_ne_true)]
      exact moved

omit [DecidableEq V] in
theorem Tracks.clear (well : set.WellFormed) : Tracks squeezes set (jsSetClear set) data (SetData.clear data) where
  well := (jsSetClear_spec well).1
  same := by
    rw [(jsSetClear_spec well).2]
    exact (List.reduceOption_eq_nil_iff _).mpr ⟨_,List.map_const' ..⟩ |>.symm
  walks := by
    unfold jsSetClear
    split
    · split <;> rfl
    · split <;> rfl
  aligned active _ aligned := by
    have moved := aligned_clear aligned
    unfold jsSetClear
    rw [active]
    split
    · rename_i empty
      have none_left : set.slots.reduceOption = [] := List.length_eq_zero_iff.mp (well.sized.symm.trans empty)
      obtain ⟨n,holes⟩ := (List.reduceOption_eq_nil_iff _).mp none_left
      rw [if_neg (fun squeezes => absurd squeezes.1 Bool.false_ne_true)]
      have same : SetData.clear set.slots = set.slots := by rw [SetData.clear,holes,List.map_replicate]
      rwa [same] at moved
    · exact moved

theorem jsSetValueAt_cases (set : SetHeader V) (index : Nat) : jsSetValueAt set index =
    if set.size ≤ index then (set,none)
    else if !setForeachIsActive set then (compactIfHoleySet set,(compactIfHoleySet set).slots[index]?)
    else (set,(liveToRaw set.slots index).bind (set.slots[·]?)) := by
  simp only [jsSetValueAt,liveIndexToRawSet]
  split_ifs <;> rfl

theorem Tracks.valueAt {index : Nat} (well : set.WellFormed) (same : set.live = data.reduceOption)
    (fits : index < set.size → setForeachIsActive set = false → CanSqueeze set) :
    Tracks squeezes set (jsSetValueAt set index).1 data data := by
  rw [jsSetValueAt_cases]
  split
  · exact .refl well same
  · rename_i inside
    split
    · rename_i idle
      have idle : setForeachIsActive set = false := Bool.not_eq_true' _ |>.mp idle
      refine .compact well (fits (not_le.mp inside) idle) same fun active => ?_
      rw [active] at idle
      cases idle
    · exact .refl well same

theorem jsSetValueAt_answer (well : set.WellFormed) (index : Nat) : (jsSetValueAt set index).2 = set.live[index]?.map some := by
  rw [jsSetValueAt_cases]
  split
  · rename_i past
    rw [well.sized] at past
    rw [List.getElem?_eq_none past]
    rfl
  · split
    · dsimp only
      rw [compactIfHoleySet_slots well,List.getElem?_map]
    · exact slot_liveToRaw set.slots index

theorem jsSetForeachStart_spec : (jsSetForeachStart set).live = set.live ∧ (jsSetForeachStart set).walks = set.walks + 1 ∧
    (setForeachIsActive set = true → (jsSetForeachStart set).slots = set.slots) := by
  unfold jsSetForeachStart
  split
  · exact ⟨rfl,rfl,fun _ => rfl⟩
  · rename_i idle
    exact ⟨compactIfHoleySet_live,congrArg (· + 1) compactIfHoleySet_walks,fun active => absurd active idle⟩

theorem jsSetForeachFinish_spec : (jsSetForeachFinish set).live = set.live ∧ (jsSetForeachFinish set).walks = set.walks - 1 ∧
    (1 < set.walks → (jsSetForeachFinish set).slots = set.slots) := by
  unfold jsSetForeachFinish
  dsimp only
  split
  · exact ⟨rfl,rfl,fun _ => rfl⟩
  · rename_i idle
    refine ⟨compactIfHoleySet_live,compactIfHoleySet_walks,fun inner => ?_⟩
    exact absurd (decide_eq_true (by dsimp only; omega)) idle

theorem jsSetToArray_answer (well : set.WellFormed) : (jsSetToArray set).2 = set.live.map some := by
  change List.take _ _ = _
  rw [compactIfHoleySet_slots well,compactIfHoleySet_size,well.sized]
  exact List.take_of_length_le (by rw [List.length_map])

end operations

section heaps

variable [DecidableEq V] {elements : Elements V} {heap : Nat → SetHeader V} {datas : Nat → SetData V}

omit [DecidableEq V] in
theorem Tracks.update (p : Nat → Prop) {set : Nat} {after : SetHeader V} {data' : SetData V}
    (well : ∀ place,(heap place).WellFormed) (same : ∀ place,(heap place).live = (datas place).reduceOption)
    (here : Tracks (p set) (heap set) after (datas set) data') (place : Nat) :
    Tracks (p place) (heap place) (Function.update heap set after place) (datas place)
      (Function.update datas set data' place) := by
  rw [Function.update_apply,Function.update_apply]
  split
  · rename_i there
    rw [there]
    exact here
  · exact .refl (well place) (same place)

theorem Method.call_eq {method : Method} {set other : Nat} (well : ∀ place,(heap place).WellFormed) (can : CanSqueeze (heap set))
    (fits : method.Fits elements heap set other) : method.call elements heap set other = some (compactAt heap set) := by
  cases method with
  | union => exact (union_returns well).map_fst.trans (if_pos fits)
  | intersection => exact (intersection_returns well can fits.1).map_fst.trans (if_pos fits.2)
  | difference => exact (difference_returns well can fits.1).map_fst.trans (if_pos fits.2)
  | symmetricDifference => exact (symmetricDifference_returns well can fits.1 fits.2.1).map_fst.trans (if_pos fits.2.2)
  | isSubsetOf => rfl
  | isSupersetOf => rfl
  | isDisjointFrom => rfl

/-- An operation on the sets answers as the specification, and the places of the walks stay aligned. -/
theorem perform_tracks {operation : Operation V} (well : ∀ place,(heap place).WellFormed)
    (same : ∀ place,(heap place).live = (datas place).reduceOption) (fits : operation.Fits elements heap) :
    ∃ heap' datas' answers,(setHeaders elements).perform heap operation = some (heap',answers) ∧
      (setDatas elements).perform datas operation = some (datas',answers) ∧
      ∀ place,Tracks (operation.squeezes = some place) (heap place) (heap' place) (datas place) (datas' place) := by
  have known (set : Nat) (raw : Option V) : normalizeZero elements raw ∈ (heap set).live ↔
      decide (some (normalizeZero elements raw) ∈ datas set) = true := by
    rw [decide_eq_true_iff]
    exact mem_data (same set)
  have read {set : Nat} {after : SetHeader V} (here : Tracks (operation.squeezes = some set) (heap set) after (datas set) (datas set))
      (place : Nat) : Tracks (operation.squeezes = some place) (heap place) (Function.update heap set after place)
        (datas place) (datas place) := by
    have updated := here.update (fun place => operation.squeezes = some place) well same place
    rwa [Function.update_eq_self] at updated
  cases operation with
  | add set raw =>
    obtain ⟨after,done,tracks⟩ := Tracks.add (well set) fits (same set)
    refine ⟨_,_,_,?_,rfl,Tracks.update (fun place => _ = some place) well same tracks⟩
    exact congrArg (Option.map fun after => (Function.update heap set after,[])) done
  | delete set raw =>
    refine ⟨_,_,_,?_,rfl,Tracks.update (fun place => _ = some place) well same (.delete (well set) fits (same set))⟩
    refine congrArg (fun answer => some (_,[Observation.flag answer])) ?_
    exact Bool.eq_iff_iff.mpr ((jsSetDelete_spec (well set) fits).2.2.trans (known set raw))
  | clear set => exact ⟨_,_,_,rfl,rfl,Tracks.update (fun place => _ = some place) well same (.clear (well set))⟩
  | has set raw =>
    refine ⟨_,_,_,?_,rfl,fun place => .refl (well place) (same place)⟩
    refine congrArg (fun answer => some (_,[Observation.flag answer])) ?_
    exact Bool.eq_iff_iff.mpr (((well set).jsSetHas_iff fits raw).trans (known set raw))
  | valueAt set index =>
    refine ⟨_,_,_,?_,rfl,read (.valueAt (well set) (same set) fits)⟩
    refine congrArg (fun answer => some (_,[Observation.element answer])) ?_
    rw [← same set]
    exact jsSetValueAt_answer (well set) index
  | toArray set =>
    refine ⟨_,_,_,?_,rfl,read (.compact (well set) fits (same set) fun _ => rfl)⟩
    refine congrArg (fun answer => some (_,[Observation.array answer])) ?_
    rw [← same set]
    exact jsSetToArray_answer (well set)
  | compose method set other =>
    refine ⟨_,_,_,?_,rfl,read (.compact (well set) fits.1 (same set) fun _ => rfl)⟩
    exact congrArg (Option.map (·,[])) (Method.call_eq well fits.1 fits.2)

end heaps

section simulation

variable [DecidableEq V] {elements : Elements V} {code : Machine (SetHeader V) V} {spec : Machine (SetData V) V}

/-- The walks do the same on both sides, at aligned places. -/
abbrev AlignedWalks (heap : Nat → SetHeader V) (datas : Nat → SetData V) : List (Walk V) → List (Walk V) → Prop :=
  List.Forall₂ fun walk walk' => walk.set = walk'.set ∧ walk.pending = walk'.pending ∧
    Aligned (heap walk.set).slots walk.counter (datas walk.set) walk'.counter

structure InStep (code : Machine (SetHeader V) V) (spec : Machine (SetData V) V) : Prop where
  well : ∀ place,(code.heap place).WellFormed
  same : ∀ place,(code.heap place).live = (spec.heap place).reduceOption
  active : ∀ place,code.walks.countP (·.set = place) ≤ (code.heap place).walks
  calls : code.calls = spec.calls
  seen : code.seen = spec.seen
  walks : AlignedWalks code.heap spec.heap code.walks spec.walks

omit [DecidableEq V] in
theorem AlignedWalks.imp {heap heap' : Nat → SetHeader V} {datas datas' : Nat → SetData V} {walks walks' : List (Walk V)}
    (aligned : AlignedWalks heap datas walks walks')
    (kept : ∀ walk ∈ walks,∀ place,Aligned (heap walk.set).slots walk.counter (datas walk.set) place →
      Aligned (heap' walk.set).slots walk.counter (datas' walk.set) place) : AlignedWalks heap' datas' walks walks' := by
  induction aligned with
  | nil => exact .nil
  | cons pair rest step =>
    obtain ⟨there,pending,placed⟩ := pair
    refine .cons ⟨there,pending,kept _ List.mem_cons_self _ placed⟩ (step fun walk member => ?_)
    exact kept walk (List.mem_cons_of_mem _ member)

omit [DecidableEq V] in
theorem InStep.walked (inStep : InStep code spec) {walk : Walk V} (member : walk ∈ code.walks) :
    setForeachIsActive (code.heap walk.set) = true := by
  have counted := inStep.active walk.set
  have walking : 0 < code.walks.countP (·.set = walk.set) := List.countP_pos_iff.mpr ⟨walk,member,decide_eq_true rfl⟩
  exact decide_eq_true (walking.trans_le counted)

omit [DecidableEq V] in
/-- An operation of the innermost callback. -/
theorem InStep.operation {heap heap' : Nat → SetHeader V} {datas datas' : Nat → SetData V} {walk walk' : Walk V} {outer outer' : List (Walk V)}
    {calls calls' : Nat} {seen seen' answers : List (Observation V)} {operation : Operation V} {rest : List (Action V)}
    (inStep : InStep ⟨heap,⟨walk.set,walk.counter,.op operation :: rest⟩ :: outer,calls,seen⟩ ⟨datas,walk' :: outer',calls',seen'⟩)
    (clean : ∀ active ∈ ⟨walk.set,walk.counter,.op operation :: rest⟩ :: outer,operation.squeezes = some active.set →
      holesBelow (heap active.set).slots active.counter = 0)
    (tracks : ∀ place,Tracks (operation.squeezes = some place) (heap place) (heap' place) (datas place) (datas' place)) :
    InStep ⟨heap',⟨walk.set,walk.counter,rest⟩ :: outer,calls,seen ++ answers⟩
      ⟨datas',{ walk' with pending := rest } :: outer',calls',seen' ++ answers⟩ := by
  have kept (walk : Walk V) (member : walk ∈ _) (place : Nat)
      (aligned : Aligned (heap walk.set).slots walk.counter (datas walk.set) place) :=
    (tracks walk.set).aligned (inStep.walked member) (clean walk member) aligned
  obtain ⟨pair,others⟩ := List.forall₂_cons.mp inStep.walks
  constructor
  · exact fun place => (tracks place).well
  · exact fun place => (tracks place).same
  · intro place
    rw [(tracks place).walks]
    exact inStep.active place
  · exact inStep.calls
  · exact congrArg (· ++ answers) inStep.seen
  · refine .cons ⟨pair.1,rfl,kept _ List.mem_cons_self _ pair.2.2⟩ (AlignedWalks.imp others fun walk member place => ?_)
    exact kept walk (List.mem_cons_of_mem _ member) place

/-- One more walk, of a set that may be walked already. -/
theorem InStep.enter {heap : Nat → SetHeader V} {datas : Nat → SetData V} {walks walks' : List (Walk V)}
    {calls calls' : Nat} {seen seen' : List (Observation V)} (inStep : InStep ⟨heap,walks,calls,seen⟩ ⟨datas,walks',calls',seen'⟩)
    {set : Nat} (fits : setForeachIsActive (heap set) = false → CanSqueeze (heap set)) :
    InStep ⟨Function.update heap set (jsSetForeachStart (heap set)),⟨set,0,[]⟩ :: walks,calls,seen⟩
      ⟨Function.update datas set (datas set),⟨set,0,[]⟩ :: walks',calls',seen'⟩ := by
  have well := jsSetForeachStart_wellFormed (inStep.well set) fits
  obtain ⟨same,walks_eq,slots⟩ := @jsSetForeachStart_spec _ _ (heap set)
  rw [Function.update_eq_self]
  have live (place : Nat) : (Function.update heap set (jsSetForeachStart (heap set)) place).live = (datas place).reduceOption := by
    rw [Function.update_apply]
    split
    · rename_i there
      rw [there,same]
      exact inStep.same set
    · exact inStep.same place
  constructor
  · intro place
    dsimp only
    rw [Function.update_apply]
    split
    · exact well
    · exact inStep.well place
  · exact live
  · intro place
    have counted := inStep.active place
    dsimp only at counted ⊢
    rw [List.countP_cons,Function.update_apply]
    by_cases there : place = set
    · rw [if_pos there,there,walks_eq]
      rw [there] at counted
      simpa using counted
    · rw [if_neg there,if_neg (by simpa using Ne.symm there)]
      exact counted
  · exact inStep.calls
  · exact inStep.seen
  · refine .cons ⟨rfl,rfl,.start (live set)⟩ (AlignedWalks.imp inStep.walks fun walk member place aligned => ?_)
    dsimp only
    rw [Function.update_apply]
    split
    · rename_i there
      have active := inStep.walked member
      rw [there] at active aligned ⊢
      rw [slots active]
      exact aligned
    · exact aligned

/-- The innermost walk is complete. -/
theorem InStep.leave {heap : Nat → SetHeader V} {datas : Nat → SetData V} {walk walk' : Walk V} {outer outer' : List (Walk V)}
    {calls calls' : Nat} {seen seen' : List (Observation V)}
    (inStep : InStep ⟨heap,walk :: outer,calls,seen⟩ ⟨datas,walk' :: outer',calls',seen'⟩)
    (fits : (heap walk.set).walks ≤ 1 → CanSqueeze (heap walk.set)) :
    InStep ⟨Function.update heap walk.set (jsSetForeachFinish (heap walk.set)),outer,calls,seen⟩
      ⟨Function.update datas walk'.set (datas walk'.set),outer',calls',seen'⟩ := by
  have well := jsSetForeachFinish_wellFormed (inStep.well walk.set) fits
  obtain ⟨same,walks_eq,slots⟩ := @jsSetForeachFinish_spec _ _ (heap walk.set)
  rw [Function.update_eq_self]
  have counted (place : Nat) : outer.countP (·.set = place) + (if walk.set = place then 1 else 0) ≤ (heap place).walks := by
    have all := inStep.active place
    dsimp only at all
    rw [List.countP_cons] at all
    simpa using all
  constructor
  · intro place
    dsimp only
    rw [Function.update_apply]
    split
    · exact well
    · exact inStep.well place
  · intro place
    dsimp only
    rw [Function.update_apply]
    split
    · rename_i there
      rw [there,same]
      exact inStep.same walk.set
    · exact inStep.same place
  · intro place
    have room := counted place
    dsimp only
    rw [Function.update_apply]
    split
    · rename_i there
      rw [if_pos there.symm] at room
      rw [walks_eq,← there]
      omega
    · exact (Nat.le_add_right _ _).trans room
  · exact inStep.calls
  · exact inStep.seen
  · obtain ⟨-,others⟩ := List.forall₂_cons.mp inStep.walks
    refine AlignedWalks.imp others fun other member place aligned => ?_
    dsimp only
    rw [Function.update_apply]
    split
    · rename_i there
      have twice : 0 < outer.countP (·.set = walk.set) := List.countP_pos_iff.mpr ⟨other,member,decide_eq_true there⟩
      have room := counted walk.set
      rw [if_pos rfl] at room
      rw [there] at aligned ⊢
      rw [slots (by omega)]
      exact aligned
    · exact aligned

/-- A step keeps the two runs in step. -/
theorem InStep.step (inStep : InStep code spec) (undisturbed : Undisturbed elements code) (script : Nat → List (Action V)) :
    ∃ code' spec',foreachStep (setHeaders elements) script code = some code' ∧
      foreachStep (setDatas elements) script spec = some spec' ∧ InStep code' spec' := by
  obtain ⟨heap,walks,calls,seen⟩ := code
  obtain ⟨datas,walks',calls',seen'⟩ := spec
  obtain ⟨well,same,active,rfl,rfl,paired⟩ := inStep
  dsimp only at well same active paired
  have whole : InStep ⟨heap,walks,calls,seen⟩ ⟨datas,walks',calls,seen⟩ := ⟨well,same,active,rfl,rfl,paired⟩
  cases paired with
  | nil => exact ⟨_,_,rfl,rfl,whole⟩
  | @cons walk walk' outer outer' pair rest =>
    obtain ⟨set,counter,pending⟩ := walk
    obtain ⟨set',counter',pending'⟩ := walk'
    obtain ⟨rfl,rfl,aligned⟩ := pair
    match pending with
    | .op operation :: later =>
      obtain ⟨fits,clean⟩ := undisturbed
      obtain ⟨heap',datas',answers,done,done',tracks⟩ := perform_tracks well same fits
      have after : InStep ⟨heap',⟨set,counter,later⟩ :: outer,calls,seen ++ answers⟩
          ⟨datas',⟨set,counter',later⟩ :: outer',calls,seen ++ answers⟩ :=
        @InStep.operation _ _ _ _ _ ⟨set,counter,[]⟩ ⟨set,counter',_⟩ _ _ _ _ _ _ _ _ _ whole clean tracks
      exact ⟨_,_,foreachStep_op _ done,foreachStep_op _ done',after⟩
    | .forEach other :: later =>
      have resumed : InStep ⟨heap,⟨set,counter,later⟩ :: outer,calls,seen⟩ ⟨datas,⟨set,counter',later⟩ :: outer',calls,seen⟩ :=
        ⟨well,same,active,rfl,rfl,.cons ⟨rfl,rfl,aligned⟩ rest⟩
      exact ⟨_,_,rfl,rfl,resumed.enter undisturbed⟩
    | [] =>
      dsimp only at aligned
      obtain ⟨spent,spent'⟩ | ⟨found,found',v,here,here',read,read',past⟩ := aligned.next
      · have after : foreachStep (setHeaders elements) script ⟨heap,⟨set,counter,[]⟩ :: outer,calls,seen⟩ =
            some ⟨Function.update heap set (jsSetForeachFinish (heap set)),outer,calls,seen⟩ := by
          simp only [foreachStep,setHeaders,spent]
        have after' : foreachStep (setDatas elements) script ⟨datas,⟨set,counter',[]⟩ :: outer',calls,seen⟩ =
            some ⟨Function.update datas set (datas set),outer',calls,seen⟩ := by
          simp only [foreachStep,setDatas,id_eq,spent']
        exact ⟨_,_,after,after',whole.leave (undisturbed spent)⟩
      · have after : foreachStep (setHeaders elements) script ⟨heap,⟨set,counter,[]⟩ :: outer,calls,seen⟩ =
            some ⟨heap,⟨set,found + 1,script calls⟩ :: outer,calls + 1,seen ++ [.visited set (some v)]⟩ := by
          simp only [foreachStep,setHeaders,here,read]
          rfl
        have after' : foreachStep (setDatas elements) script ⟨datas,⟨set,counter',[]⟩ :: outer',calls,seen⟩ =
            some ⟨datas,⟨set,found' + 1,script calls⟩ :: outer',calls + 1,seen ++ [.visited set (some v)]⟩ := by
          simp only [foreachStep,setDatas,id_eq,here',read']
          rfl
        exact ⟨_,_,after,after',well,same,active,rfl,rfl,.cons ⟨rfl,rfl,past⟩ rest⟩

/-- The runs stay in step while no step is disturbed. -/
theorem InStep.run {heap : Nat → SetHeader V} {datas : Nat → SetData V} {set : Nat} {script : Nat → List (Action V)}
    (start : InStep ⟨Function.update heap set (jsSetForeachStart (heap set)),[⟨set,0,[]⟩],0,[]⟩
      ⟨Function.update datas set (datas set),[⟨set,0,[]⟩],0,[]⟩) {steps : Nat}
    (undisturbed : ∀ earlier < steps,∀ machine ∈ foreachRun (setHeaders elements) script heap set earlier,
      Undisturbed elements machine) :
    ∃ code spec,foreachRun (setHeaders elements) script heap set steps = some code ∧
      foreachRun (setDatas elements) script datas set steps = some spec ∧ InStep code spec := by
  induction steps with
  | zero => exact ⟨_,_,rfl,rfl,start⟩
  | succ steps step =>
    obtain ⟨code,spec,reached,reached',inStep⟩ := step fun earlier before => undisturbed earlier (before.trans (Nat.lt_succ_self steps))
    obtain ⟨code',spec',done,done',inStep'⟩ := inStep.step (undisturbed steps (Nat.lt_succ_self steps) code reached) script
    refine ⟨code',spec',?_,?_,inStep'⟩
    · rw [foreachRun,reached,Option.bind_some,done]
    · rw [foreachRun,reached',Option.bind_some,done']

end simulation

variable [DecidableEq V] (elements : Elements V) (capacities : Nat → BitVec 32)

/-- On the sets that operations within their bounds left, `forEach` and the walks its callbacks start
visit what the specification visits, the callbacks are answered the same, and the walks end together. -/
theorem setForEach_exact (setup : List (Nat × Op V)) (script : Nat → List (Action V)) (set steps : Nat)
    (fits : Throughout (performAt elements) (FitsAt elements) (fun place => jsSetAlloc (capacities place)) setup) :
    ∃ heap,Runs (performAt elements) (fun place => jsSetAlloc (capacities place)) setup heap ∧
      (Fits elements (heap set) .foreachStart →
        (∀ earlier < steps,∀ machine ∈ foreachRun (setHeaders elements) script heap set earlier,
          Undisturbed elements machine) →
        ∃ code spec,foreachRun (setHeaders elements) script heap set steps = some code ∧
          foreachRun (setDatas elements) script (fun place => (heap place).live.map some) set steps = some spec ∧
          code.seen = spec.seen ∧ code.walks.length = spec.walks.length ∧
            ∀ place,(code.heap place).live = (spec.heap place).reduceOption) := by
  obtain ⟨heap,reached,well⟩ := runs_wellFormed fits fun place => SetHeader.WellFormed.alloc (capacities place)
  refine ⟨heap,reached,fun entered undisturbed => ?_⟩
  have same (place : Nat) : (heap place).live = ((heap place).live.map some).reduceOption := by
    rw [List.reduceOption,List.filterMap_map]
    exact List.filterMap_some.symm
  have idle : InStep ⟨heap,[],0,[]⟩ ⟨fun place => (heap place).live.map some,[],0,[]⟩ :=
    ⟨well,same,fun place => Nat.zero_le _,rfl,rfl,.nil⟩
  obtain ⟨code,spec,run,run',inStep⟩ := (idle.enter entered).run undisturbed
  exact ⟨code,spec,run,run',inStep.seen,inStep.walks.length_eq,inStep.same⟩

/-- A callback that deletes ahead of the counter, copies the set, joins it, adds and walks again. -/
theorem setForEach_exact_deletesAhead :
    let elements : Elements Nat := ⟨0,fun v => v ≠ 0⟩
    let script : Nat → List (Action Nat) := fun call =>
      if call = 0 then [.op (.delete 0 (some 3)),.op (.toArray 0),.op (.compose .union 0 1),.op (.add 0 (some 4)),.forEach 0]
      else [.op (.has 0 (some 1))]
    ∃ heap code,Runs (performAt elements) (fun _ => jsSetAlloc 4) [(0,.add (some 1)),(0,.add (some 2)),(0,.add (some 3))] heap ∧
      foreachRun (setHeaders elements) script heap 0 20 = some code ∧
      code.seen.filterMap (fun | .visited _ raw => raw | _ => none) = [1,1,2,4,2,4] := by
  intro elements script
  obtain ⟨heap,reached,walk⟩ := setForEach_exact elements (fun _ => 4)
    [(0,.add (some 1)),(0,.add (some 2)),(0,.add (some 3))] script 0 20 (by decide)
  have left := Option.some.inj reached.foldlM_eq
  rw [← left] at walk reached
  obtain ⟨code,spec,run,run',seen,-,-⟩ := walk (by decide +kernel) (by decide +kernel)
  refine ⟨_,code,reached,run,?_⟩
  have visits := congrArg (Option.map fun machine => machine.seen.filterMap fun | .visited _ raw => raw | _ => none) run'
  rw [seen]
  exact Option.some.inj (visits.symm.trans (by decide +kernel))

/-- A callback that deletes the element it was called with and copies the set: the squeeze moves the
next element below the counter, and the walk skips it. -/
theorem setForEach_toArray_skips :
    let elements : Elements Nat := ⟨0,fun v => v ≠ 0⟩
    let script : Nat → List (Action Nat) := fun call => if call = 0 then [.op (.delete 0 (some 1)),.op (.toArray 0)] else []
    ∃ heap code spec,Runs (performAt elements) (fun _ => jsSetAlloc 4) [(0,.add (some 1)),(0,.add (some 2)),(0,.add (some 3))] heap ∧
      foreachRun (setHeaders elements) script heap 0 8 = some code ∧
      foreachRun (setDatas elements) script (fun place => (heap place).live.map some) 0 8 = some spec ∧
      code.seen = [.visited 0 (some 1),.flag true,.array [some 2,some 3],.visited 0 (some 3)] ∧ code.walks = [] ∧
      spec.seen = [.visited 0 (some 1),.flag true,.array [some 2,some 3],.visited 0 (some 2),.visited 0 (some 3)] :=
  ⟨_,_,_,.cons rfl (.cons rfl (.cons rfl (.nil _))),rfl,rfl,by decide +kernel,by decide +kernel,by decide +kernel⟩

end Perry.Runtime.JsSet
