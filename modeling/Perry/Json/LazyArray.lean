import Perry.Json.Materialize

/-! The lazy top-level array: elements are materialised one at a time and cached, until
the access pattern asks for the whole array, by the tape or by parsing the text again.
Every materialisation hands out addresses. -/
namespace Perry.Json

namespace Tape

variable {F : Type} (doubles : Doubles F)

section elements

/-- The index after the value that starts at `idx`. -/
def hop (entry : TapeEntry) (idx : Nat) : Nat :=
  if entry.kind = .objStart ∨ entry.kind = .arrStart then entry.link + 1 else idx + 1

variable (tape : List TapeEntry)

def countFrom (endIdx : Nat) : Nat → Nat → Nat → Option Nat
  | 0,_,_ => none
  | n + 1,i,count =>
    if i < endIdx then
      match tape[i]? with
      | none => none
      | some entry => countFrom endIdx n (hop entry i) (count + 1)
    else some count

def countArrayLength (rootIdx : Nat) : Option Nat :=
  match tape[rootIdx]? with
  | none => some 0
  | some root => if root.kind = .arrStart then countFrom tape root.link (tape.length + 1) (rootIdx + 1) 0 else some 0

/-- Step over `k` elements, or to the end. -/
def walkTo (endIdx : Nat) : Nat → Nat → Option Nat
  | 0,idx => some idx
  | k + 1,idx =>
    if idx < endIdx then
      match tape[idx]? with
      | none => none
      | some entry => walkTo endIdx k (hop entry idx)
    else some idx

end elements

/-- A value on the heap. -/
structure Ref (F : Type) where
  address : Nat
  value : Value Bytes F

/-- Values that are allocated one after the other. -/
def allocate : Nat → List (Value Bytes F) → List (Ref F)
  | _,[] => []
  | next,value :: values => ⟨next,value⟩ :: allocate (next + 1) values

/-- A lazy array, with the next free address. A slot of the cache holds an element once its bit is set; the
tape is empty once it is disowned. -/
structure LazyArrayHeader (F : Type) where
  cachedLength : Nat
  rootIdx : Nat
  tape : List TapeEntry
  blob : Bytes
  materialized : Option (List (Ref F))
  cache : List (Option (Ref F))
  walk : Option (Nat × Nat)
  cumulativeWalkSteps : Nat
  sequentialStreak : Nat
  next : Nat

def allocLazyArray (tape : List TapeEntry) (rootIdx cachedLength : Nat) (blob : Bytes) (next : Nat) : LazyArrayHeader F where
  cachedLength
  rootIdx
  tape
  blob
  materialized := none
  cache := List.replicate cachedLength none
  walk := none
  cumulativeWalkSteps := 0
  sequentialStreak := 0
  next

namespace LazyArrayHeader

def scanFlipThreshold (cachedLength : Nat) : Nat := max 64 (cachedLength / 64)

def lazyCachedCount (h : LazyArrayHeader F) : Nat := (h.cache.filter Option.isSome).length

def installMaterialized (h : LazyArrayHeader F) (elements : List (Ref F)) (next : Nat) : LazyArrayHeader F :=
  { h with materialized := some elements, tape := [], next }

/-- Parse the whole text again; the parsed elements are new objects, and the cached ones are stored over them. -/
def reparseMaterialize (h : LazyArrayHeader F) : Option (List (Ref F) × Nat) :=
  if h.rootIdx = 0 ∧ h.blob ≠ [] then
    match Direct.parseRoot doubles h.blob with
    | some (.array elements,_) =>
      if elements.length = h.cachedLength then
        some (List.zipWith (fun element slot => slot.getD element) (allocate h.next elements) h.cache,h.next + elements.length)
      else none
    | _ => none
  else none

/-- The walk that takes each element from the cache or else from the tape. -/
def mergeWalk (blob : Bytes) (tape : List TapeEntry) (endIdx : Nat) :
    List (Option (Ref F)) → Nat → Nat → Option (List (Ref F) × Nat)
  | [],_,next => some ([],next)
  | slot :: slots,idx,next =>
    if idx < endIdx then do
      let (element,next) ← match slot with
        | some element => some (element,next)
        | none => (materializeFromIdx doubles blob tape idx).map fun value => (⟨next,value⟩,next + 1)
      let entry ← tape[idx]?
      let (elements,next) ← mergeWalk blob tape endIdx slots (hop entry idx) next
      pure (element :: elements,next)
    else none

/-- The elements as the tape has them, with the cached ones in their slots. -/
def walkMaterialize (h : LazyArrayHeader F) : Option (List (Ref F) × Nat) :=
  if h.lazyCachedCount = 0 then
    match materializeFromIdx doubles h.blob h.tape h.rootIdx with
    | some (.array elements) => some (allocate h.next elements,h.next + elements.length)
    | _ => none
  else
    match h.tape[h.rootIdx]? with
    | none => none
    | some root =>
      if root.kind = .arrStart then mergeWalk doubles h.blob h.tape root.link h.cache (h.rootIdx + 1) h.next
      else some ([],h.next)

def forceMaterializeLazy (h : LazyArrayHeader F) : Option (List (Ref F) × LazyArrayHeader F) :=
  match h.materialized with
  | some elements => some (elements,h)
  | none =>
    match if h.lazyCachedCount * 2 < h.cachedLength then reparseMaterialize doubles h else none with
    | some (elements,next) => some (elements,h.installMaterialized elements next)
    | none => (walkMaterialize doubles h).map fun (elements,next) => (elements,h.installMaterialized elements next)

/-- Where the walk to element `i` starts: element and tape index. -/
def cursor (h : LazyArrayHeader F) (i : Nat) : Nat × Nat :=
  match h.walk with
  | some (prev,pos) => if prev ≤ i then (prev,pos) else (0,h.rootIdx + 1)
  | none => (0,h.rootIdx + 1)

def continues (h : LazyArrayHeader F) (i : Nat) : Bool :=
  match h.walk with
  | some (prev,_) => i = prev + 1
  | none => false

/-- Element `i`, found at `idx`, is allocated and cached. -/
def cacheElement (h : LazyArrayHeader F) (i idx : Nat) (value : Value Bytes F) : LazyArrayHeader F :=
  { h with
    cache := h.cache.set i (some ⟨h.next,value⟩)
    walk := some (i,idx)
    cumulativeWalkSteps := h.cumulativeWalkSteps + (i - (h.cursor i).1)
    sequentialStreak := if h.continues i then h.sequentialStreak + 1 else 1
    next := h.next + 1 }

/-- The cold read of element `i`, which the walk found at `idx`. -/
def coldRead (h : LazyArrayHeader F) (i idx : Nat) : Option (Ref F × LazyArrayHeader F) := do
  let value ← materializeFromIdx doubles h.blob h.tape idx
  let element : Ref F := ⟨h.next,value⟩
  let h := h.cacheElement i idx value
  if h.cachedLength * 2 < h.cumulativeWalkSteps ∨
      (scanFlipThreshold h.cachedLength ≤ h.sequentialStreak ∧ h.lazyCachedCount * 2 < h.cachedLength) then
    let (_,h) ← forceMaterializeLazy doubles h
    pure (element,h)
  else pure (element,h)

/-- `lazy_get`; an element that is not there is undefined. -/
def lazyGet (h : LazyArrayHeader F) (i : Nat) : Option (Option (Ref F) × LazyArrayHeader F) :=
  match h.materialized with
  | some elements => some (elements[i]?,h)
  | none =>
    if h.cachedLength ≤ i then some (none,h)
    else match h.cache[i]? with
      | some (some element) => some (some element,h)
      | _ =>
        match h.tape[h.rootIdx]? with
        | none => some (none,h)
        | some root =>
          if root.kind = .arrStart then
            match walkTo h.tape root.link (i - (h.cursor i).1) (h.cursor i).2 with
            | none => some (none,h)
            | some idx =>
              if idx < root.link then (coldRead doubles h i idx).map fun (element,h) => (some element,h) else some (none,h)
          else some (none,h)

end LazyArrayHeader

inductive LazyOp where
  | get (i : Nat)
  | force
  deriving DecidableEq, Repr

/-- What an access answers: an element, if there is one, or all of them. -/
inductive LazyAnswer (E : Type) where
  | element (element : Option E)
  | whole (elements : List E)

def LazyAnswer.map {E E' : Type} (f : E → E') : LazyAnswer E → LazyAnswer E'
  | .element found => .element (found.map f)
  | .whole elements => .whole (elements.map f)

/-- The answer the array of these elements gives. -/
def answerOf {E : Type} (elements : List E) : LazyOp → LazyAnswer E
  | .get i => .element elements[i]?
  | .force => .whole elements

theorem map_answerOf {E E' : Type} (f : E → E') (elements : List E) (op : LazyOp) :
    (answerOf elements op).map f = answerOf (elements.map f) op := by
  cases op with
  | get i => exact congrArg LazyAnswer.element List.getElem?_map.symm
  | force => rfl

def accessLazy (h : LazyArrayHeader F) : LazyOp → Option (LazyAnswer (Ref F) × LazyArrayHeader F)
  | .get i => (h.lazyGet doubles i).map fun (element,h) => (.element element,h)
  | .force => (h.forceMaterializeLazy doubles).map fun (elements,h) => (.whole elements,h)

/-- The answers to a sequence of accesses. -/
def runLazy : LazyArrayHeader F → List LazyOp → Option (List (LazyAnswer (Ref F)))
  | _,[] => some []
  | h,op :: ops => do
    let (answer,h) ← accessLazy doubles h op
    let answers ← runLazy h ops
    pure (answer :: answers)

end Tape

section layout

open Tape

variable {F : Type} (doubles : Doubles F) (blob : Bytes) (tape : List TapeEntry) (endIdx : Nat)

/-- The values whose entries lie from one index up to the end, each a hop from the one
before. -/
inductive Laid : Nat → List (Value Bytes F) → Prop
  | nil : Laid endIdx []
  | cons {idx : Nat} {entry : TapeEntry} {value : Value Bytes F} {values : List (Value Bytes F)} (inside : idx < endIdx)
      (found : tape[idx]? = some entry) (here : materializeFromIdx doubles blob tape idx = some value)
      (next : Laid (hop entry idx) values) : Laid idx (value :: values)

variable {doubles blob tape endIdx}

theorem Laid.walk {idx : Nat} {values : List (Value Bytes F)} (laid : Laid doubles blob tape endIdx idx values) (k : Nat)
    (few : k ≤ values.length) :
    ∃ pos, walkTo tape endIdx k idx = some pos ∧ Laid doubles blob tape endIdx pos (values.drop k) := by
  induction k generalizing idx values with
  | zero => exact ⟨idx,rfl,laid⟩
  | succ k ih =>
    cases laid with
    | nil => cases few
    | cons inside found here next =>
      obtain ⟨pos,walked,rest⟩ := ih next (Nat.le_of_succ_le_succ few)
      refine ⟨pos,?_,rest⟩
      rw [walkTo,if_pos inside,found]
      exact walked

theorem Laid.count {idx : Nat} {values : List (Value Bytes F)} (laid : Laid doubles blob tape endIdx idx values) (n : Nat)
    (fuel : values.length < n) (count : Nat) : countFrom tape endIdx n idx count = some (count + values.length) := by
  induction n generalizing idx values count with
  | zero => cases fuel
  | succ n ih =>
    cases laid with
    | nil =>
      rw [countFrom,if_neg (Nat.lt_irrefl _)]
      rfl
    | cons inside found here next =>
      rw [countFrom,if_pos inside,found,List.length_cons]
      dsimp only
      rw [ih next (Nat.lt_of_succ_lt_succ fuel),Nat.add_assoc,Nat.add_comm 1]

/-- The merging walk yields the values, if the cache holds nothing else. -/
theorem Laid.merge {idx : Nat} {values : List (Value Bytes F)} (laid : Laid doubles blob tape endIdx idx values)
    {slots : List (Option (Ref F))} (size : slots.length = values.length)
    (cached : ∀ (i : Nat) (element : Ref F), slots[i]? = some (some element) → values[i]? = some element.value) (next : Nat) :
    ∃ elements next', LazyArrayHeader.mergeWalk doubles blob tape endIdx slots idx next = some (elements,next') ∧
      elements.map Ref.value = values := by
  induction slots generalizing idx values next with
  | nil =>
    cases List.length_eq_zero_iff.mp size.symm
    exact ⟨[],next,rfl,rfl⟩
  | cons slot slots ih =>
    cases laid with
    | nil => cases size
    | @cons _ entry value values inside found here rest =>
      have others := ih rest (Nat.succ.inj size) fun i element slot => cached (i + 1) element slot
      rw [LazyArrayHeader.mergeWalk,if_pos inside]
      cases slot with
      | none =>
        obtain ⟨elements,next',walked,same⟩ := others (next + 1)
        refine ⟨⟨next,value⟩ :: elements,next',by simp [here,found,walked],?_⟩
        rw [List.map_cons,same]
      | some kept =>
        obtain ⟨elements,next',walked,same⟩ := others next
        cases cached 0 kept rfl
        refine ⟨kept :: elements,next',by simp [found,walked],?_⟩
        rw [List.map_cons,same]

end layout

section sound

open Tape

variable {F : Type} (doubles : Doubles F)

/-- Text and tape agree on the elements of the array. -/
structure Backed (blob : Bytes) (tape : List TapeEntry) (values : List (Value Bytes F)) : Prop where
  root : ∃ root, tape[0]? = some root ∧ root.kind = .arrStart ∧ Laid doubles blob tape root.link 1 values
  whole : materializeFromIdx doubles blob tape 0 = some (.array values)
  text : ∃ rest, Direct.parseRoot doubles blob = some (.array values,rest)

/-- The invariant of a lazy array that stands for `values`. -/
structure Faithful (h : LazyArrayHeader F) (values : List (Value Bytes F)) : Prop where
  done : ∀ elements, h.materialized = some elements → elements.map Ref.value = values
  backed : h.materialized = none → Backed doubles h.blob h.tape values
  rooted : h.rootIdx = 0
  length : h.cachedLength = values.length
  slots : h.cache.length = values.length
  cached : ∀ (i : Nat) (element : Ref F), h.cache[i]? = some (some element) → values[i]? = some element.value
  walked : ∀ prev pos, h.walk = some (prev,pos) → h.materialized = none →
    ∃ root, h.tape[0]? = some root ∧ prev ≤ values.length ∧ Laid doubles h.blob h.tape root.link pos (values.drop prev)

theorem length_allocate (next : Nat) (values : List (Value Bytes F)) : (allocate next values).length = values.length := by
  induction values generalizing next with
  | nil => rfl
  | cons value values ih => exact congrArg (· + 1) (ih (next + 1))

theorem values_allocate (next : Nat) (values : List (Value Bytes F)) : (allocate next values).map Ref.value = values := by
  induction values generalizing next with
  | nil => rfl
  | cons value values ih => exact congrArg (value :: ·) (ih (next + 1))

variable {doubles} {h : LazyArrayHeader F} {values : List (Value Bytes F)}

theorem Faithful.install (faithful : Faithful doubles h values) {elements : List (Ref F)} (same : elements.map Ref.value = values)
    (next : Nat) : Faithful doubles (h.installMaterialized elements next) values where
  done elements given := by
    cases given
    exact same
  backed none := by cases none
  rooted := faithful.rooted
  length := faithful.length
  slots := faithful.slots
  cached := faithful.cached
  walked prev pos _ none := by cases none

/-- Cached elements that are stored over new ones leave the values as they are. -/
theorem values_patched {refs : List (Ref F)} {slots : List (Option (Ref F))} (size : slots.length = refs.length)
    (cached : ∀ (i : Nat) (element : Ref F), slots[i]? = some (some element) → (refs.map Ref.value)[i]? = some element.value) :
    (List.zipWith (fun element slot => slot.getD element) refs slots).map Ref.value = refs.map Ref.value := by
  apply List.ext_getElem
  · rw [List.length_map,List.length_map,List.length_zipWith,size,Nat.min_self]
  · intro i left right
    rw [List.length_map] at right
    have within : i < slots.length := size ▸ right
    rw [List.getElem_map,List.getElem_zipWith,List.getElem_map]
    cases slot : slots[i] with
    | none => rfl
    | some element =>
      have known := cached i element (by rw [List.getElem?_eq_getElem within,slot])
      rw [List.getElem?_map,List.getElem?_eq_getElem right] at known
      exact (Option.some.inj known).symm

theorem Faithful.reparse (faithful : Faithful doubles h values) (lazy : h.materialized = none)
    {elements : List (Ref F)} {next : Nat} (parsed : h.reparseMaterialize doubles = some (elements,next)) :
    elements.map Ref.value = values := by
  obtain ⟨rest,text⟩ := (faithful.backed lazy).text
  rw [LazyArrayHeader.reparseMaterialize,text] at parsed
  split at parsed
  · dsimp only at parsed
    rw [if_pos faithful.length.symm] at parsed
    cases parsed
    have size : h.cache.length = (allocate h.next values).length := by rw [length_allocate,faithful.slots]
    have cached := faithful.cached
    rw [← values_allocate h.next values] at cached
    rw [values_patched size cached,values_allocate]
  · cases parsed

theorem Faithful.walkMaterialize (faithful : Faithful doubles h values) (lazy : h.materialized = none) :
    ∃ elements next, h.walkMaterialize doubles = some (elements,next) ∧ elements.map Ref.value = values := by
  have backed := faithful.backed lazy
  obtain ⟨root,found,array,laid⟩ := backed.root
  rw [LazyArrayHeader.walkMaterialize,faithful.rooted]
  split
  · rw [backed.whole]
    exact ⟨_,_,rfl,values_allocate _ _⟩
  · rw [found]
    dsimp only
    rw [if_pos array]
    exact laid.merge faithful.slots faithful.cached _

/-- Forcing the array gives its values, by whichever producer. -/
theorem Faithful.force (faithful : Faithful doubles h values) :
    ∃ elements h', h.forceMaterializeLazy doubles = some (elements,h') ∧ elements.map Ref.value = values ∧
      Faithful doubles h' values := by
  unfold LazyArrayHeader.forceMaterializeLazy
  cases lazy : h.materialized with
  | some elements => exact ⟨elements,h,rfl,faithful.done elements lazy,faithful⟩
  | none =>
    dsimp only
    split
    · next elements next parsed =>
      split at parsed
      · have same := faithful.reparse lazy parsed
        exact ⟨elements,_,rfl,same,faithful.install same next⟩
      · cases parsed
    · obtain ⟨elements,next,walked,same⟩ := faithful.walkMaterialize lazy
      rw [walked]
      exact ⟨elements,_,rfl,same,faithful.install same next⟩

/-- The walk to an element starts at or before it. -/
theorem Faithful.cursor (faithful : Faithful doubles h values) (lazy : h.materialized = none) {root : TapeEntry}
    (found : h.tape[0]? = some root) (array : Laid doubles h.blob h.tape root.link 1 values) (i : Nat) :
    (h.cursor i).1 ≤ i ∧ Laid doubles h.blob h.tape root.link (h.cursor i).2 (values.drop (h.cursor i).1) := by
  have start : Laid doubles h.blob h.tape root.link (h.rootIdx + 1) (values.drop 0) := by
    rw [faithful.rooted]
    exact array
  unfold LazyArrayHeader.cursor
  cases walk : h.walk with
  | none => exact ⟨Nat.zero_le i,start⟩
  | some place =>
    obtain ⟨prev,pos⟩ := place
    dsimp only
    split
    · next ahead =>
      obtain ⟨root',found',-,laid⟩ := faithful.walked prev pos walk lazy
      cases found.symm.trans found'
      exact ⟨ahead,laid⟩
    · exact ⟨Nat.zero_le i,start⟩

theorem Faithful.cacheElement (faithful : Faithful doubles h values) {root : TapeEntry} (found : h.tape[0]? = some root)
    {i idx : Nat} {value : Value Bytes F} (here : values[i]? = some value)
    (laid : Laid doubles h.blob h.tape root.link idx (values.drop i)) : Faithful doubles (h.cacheElement i idx value) values where
  done := faithful.done
  backed := faithful.backed
  rooted := faithful.rooted
  length := faithful.length
  slots := List.length_set.trans faithful.slots
  cached j other slot := by
    rw [LazyArrayHeader.cacheElement,List.getElem?_set] at slot
    split at slot
    · next same =>
      subst same
      split at slot
      · cases slot
        exact here
      · cases slot
    · exact faithful.cached j other slot
  walked prev pos walk _ := by
    cases walk
    exact ⟨root,found,Nat.le_of_lt (List.getElem?_eq_some_iff.mp here).1,laid⟩

theorem Faithful.coldRead (faithful : Faithful doubles h values) {root : TapeEntry}
    (found : h.tape[0]? = some root) {i idx : Nat} {value : Value Bytes F} (here : values[i]? = some value)
    (laid : Laid doubles h.blob h.tape root.link idx (values.drop i))
    (read : materializeFromIdx doubles h.blob h.tape idx = some value) :
    ∃ h', h.coldRead doubles i idx = some (⟨h.next,value⟩,h') ∧ Faithful doubles h' values := by
  have after := faithful.cacheElement found here laid
  unfold LazyArrayHeader.coldRead
  rw [read]
  simp only [Option.bind_eq_bind,Option.bind_some]
  split
  · obtain ⟨elements,h',forced,-,later⟩ := after.force
    rw [forced]
    exact ⟨h',rfl,later⟩
  · exact ⟨_,rfl,after⟩

/-- Reading an element gives it, from the array, from the cache or from the tape. -/
theorem Faithful.get (faithful : Faithful doubles h values) (i : Nat) :
    ∃ answer h', h.lazyGet doubles i = some (answer,h') ∧ answer.map Ref.value = values[i]? ∧ Faithful doubles h' values := by
  unfold LazyArrayHeader.lazyGet
  cases lazy : h.materialized with
  | some elements =>
    refine ⟨_,h,rfl,?_,faithful⟩
    rw [← faithful.done elements lazy,List.getElem?_map]
  | none =>
    dsimp only
    split
    · next beyond =>
      rw [faithful.length] at beyond
      rw [List.getElem?_eq_none beyond]
      exact ⟨none,h,rfl,rfl,faithful⟩
    · next inside =>
      rw [faithful.length,Nat.not_le] at inside
      split
      · next element hit => exact ⟨_,h,rfl,(faithful.cached i element hit).symm,faithful⟩
      · obtain ⟨root,found,array,laid⟩ := (faithful.backed lazy).root
        obtain ⟨before,rest⟩ := faithful.cursor lazy found laid i
        obtain ⟨idx,walked,place⟩ := rest.walk (i - (h.cursor i).1) (by rw [List.length_drop]; omega)
        rw [List.drop_drop,Nat.add_sub_cancel' before,List.drop_eq_getElem_cons inside] at place
        rw [faithful.rooted,found]
        dsimp only
        rw [if_pos array,walked]
        dsimp only
        have place' := place
        cases place with
        | cons within entry read _ =>
          rw [if_pos within]
          rw [← List.drop_eq_getElem_cons inside] at place'
          have here := List.getElem?_eq_getElem inside
          obtain ⟨h',cold,after⟩ := faithful.coldRead found here place' read
          rw [cold,here]
          exact ⟨_,h',rfl,rfl,after⟩

theorem faithful_alloc {blob : Bytes} {tape : List TapeEntry} (backed : Backed doubles blob tape values) (next : Nat) :
    Faithful doubles (allocLazyArray tape 0 values.length blob next) values where
  done _ none := by cases none
  backed _ := backed
  rooted := rfl
  length := rfl
  slots := List.length_replicate
  cached i element slot := by
    have empty : (List.replicate values.length (none : Option (Ref F)))[i]? = some (some element) := slot
    rw [List.getElem?_replicate] at empty
    split at empty <;> cases empty
  walked _ _ none := by cases none

end sound

section texts

open Tape

variable {F : Type} (doubles : Doubles F)

/-- The first entry of a value, from which a hop leads past it. -/
theorem Doc.hop (d : Doc) (pos idx : Nat) :
    ∃ entry more, d.tape pos idx = entry :: more ∧ hop entry idx = idx + (d.tape pos idx).length := by
  cases d with
  | array elements | object members =>
    refine ⟨_,_,rfl,?_⟩
    simp only [Tape.hop,Doc.tape,List.length_cons,List.length_append,List.length_nil]
    simp
    omega
  | bool b => cases b <;> exact ⟨_,_,rfl,rfl⟩
  | _ => exact ⟨_,_,rfl,rfl⟩

variable (bytes : Bytes) (tape : List TapeEntry)

theorem Laid.doc {d : Doc} {pos idx endIdx : Nat} {rest : Bytes} (ends : Ends rest)
    (here : bytes.drop pos = d.render ++ rest) {more : List TapeEntry} (found : tape.drop idx = d.tape pos idx ++ more)
    (inside : idx < endIdx) {values : List (Value Bytes F)}
    (next : Laid doubles bytes tape endIdx (idx + (d.tape pos idx).length) values) :
    Laid doubles bytes tape endIdx idx (d.value doubles tapeBytes :: values) := by
  obtain ⟨entry,tail,first,hopped⟩ := d.hop pos idx
  have read := materializeFromIdx_doc doubles bytes tape d pos idx ends here found
  rw [← hopped] at next
  rw [first] at found
  exact .cons inside (entry_at found) read next

theorem Elements.laid : (es : Elements) → (pos idx : Nat) → {rest : Bytes} →
    bytes.drop pos = es.render ++ closeBracket :: rest → {more : List TapeEntry} → tape.drop idx = es.tape pos idx ++ more →
    {endIdx : Nat} → endIdx = idx + (es.tape pos idx).length →
    Laid doubles bytes tape endIdx idx (es.values doubles tapeBytes)
  | .last before d after,pos,idx,rest,here,more,found,endIdx,ending => by
    rw [Elements.render,List.append_assoc,List.append_assoc] at here
    have place := drop_move here
    rw [length_gap] at place
    have some := d.tape_length_pos (pos + before.length) idx
    rw [Elements.tape] at ending
    refine Laid.doc doubles bytes tape (ends_gap after (.inr (.inl rfl)) rest) place found (by omega) ?_
    rw [← ending]
    exact .nil
  | .cons before d after others,pos,idx,rest,here,more,found,endIdx,ending => by
    rw [Elements.render,List.append_assoc,List.append_assoc,List.append_assoc,List.cons_append] at here
    have place := drop_move here
    rw [length_gap] at place
    have next := drop_next (drop_move (drop_move place))
    rw [length_gap] at next
    rw [Elements.tape,List.append_assoc] at found
    rw [Elements.tape,List.length_append] at ending
    have some := d.tape_length_pos (pos + before.length) idx
    exact Laid.doc doubles bytes tape (ends_gap after (.inl rfl) _) place found (by omega)
      (others.laid _ _ next (drop_move found) (by omega))

/-- The tape of a text whose value is an array lays out its elements. -/
theorem Text.laid (t : Text) {values : List (Value Bytes F)} (tapes : t.doc.value doubles tapeBytes = .array values) :
    ∃ root, (t.doc.tape t.before.length 0)[0]? = some root ∧ root.kind = .arrStart ∧
      Laid doubles t.render (t.doc.tape t.before.length 0) root.link 1 values := by
  have place := t.drop_before
  cases shape : t.doc with
  | emptyArray gap =>
    rw [shape] at tapes
    cases tapes
    exact ⟨_,rfl,rfl,.nil⟩
  | array elements =>
    rw [shape] at tapes place
    cases tapes
    rw [Doc.render,List.cons_append,List.append_assoc,List.singleton_append] at place
    refine ⟨_,rfl,rfl,elements.laid doubles t.render _ (t.before.length + 1) 1 (drop_next place) rfl ?_⟩
    exact Nat.zero_add _ ▸ rfl
  | bool b => cases b <;> simp [shape,Doc.value] at tapes
  | _ => simp [shape,Doc.value] at tapes

/-- The tape of a text whose value is an array backs a lazy array. -/
theorem Text.backed (t : Text) {values : List (Value Bytes F)} (tapes : t.doc.value doubles tapeBytes = .array values)
    (directs : t.doc.value doubles directBytes = .array values) :
    Backed doubles t.render (t.doc.tape t.before.length 0) values where
  root := t.laid doubles tapes
  whole := by
    rw [← tapes]
    exact materialize_render doubles t
  text := ⟨_,by rw [parseRoot_render,directs]⟩

theorem countArrayLength_render (t : Text) {values : List (Value Bytes F)}
    (tapes : t.doc.value doubles tapeBytes = .array values) :
    countArrayLength (t.doc.tape t.before.length 0) 0 = some values.length := by
  have place := t.drop_before
  cases shape : t.doc with
  | emptyArray gap =>
    rw [shape] at tapes
    cases tapes
    rfl
  | array elements =>
    rw [shape] at tapes place
    cases tapes
    rw [Doc.render,List.cons_append,List.append_assoc,List.singleton_append] at place
    have laid := elements.laid doubles t.render (Doc.tape t.before.length 0 (.array elements)) (t.before.length + 1) 1
      (drop_next place) rfl rfl
    have few := elements.values_length_le doubles tapeBytes (t.before.length + 1) 1
    have counted := laid.count ((Doc.tape t.before.length 0 (.array elements)).length + 1) (by
      simp only [Doc.tape,List.length_cons,List.length_append,Nat.zero_add]
      omega) 0
    rw [Nat.zero_add] at counted
    exact counted
  | bool b => cases b <;> simp [shape,Doc.value] at tapes
  | _ => simp [shape,Doc.value] at tapes

end texts

end Perry.Json
