import Perry.Json.TapeBuilder

/-! Both materialisers over a tape: the recursive one, which hops by container links,
and the one with its frames on the heap, for documents too deep to recurse into. -/
namespace Perry.Json

namespace Tape

variable {F : Type} (doubles : Doubles F) (bytes : Bytes)

section decode

def bytesFromOffset (offset : Nat) : Bytes := if offset ≤ bytes.length then bytes.drop offset else []

def materializeStringValue (offset : Nat) : Value Bytes F :=
  match parseStringBytesStatic (bytesFromOffset bytes offset) with
  | some s => .string s
  | none => .null

def decodeKeyToInternedString (offset : Nat) : Option Bytes := parseStringBytesStatic (bytesFromOffset bytes offset)

/-- The value of a scalar token. -/
def materializeScalar (entry : TapeEntry) : Option (Value Bytes F) :=
  match entry.kind with
  | .string => some (materializeStringValue bytes entry.offset)
  | .number => some (.number (materializeNumber doubles (bytesFromOffset bytes entry.offset)))
  | .true => some (.bool true)
  | .false => some (.bool false)
  | .null => some .null
  | _ => none

end decode

section recursive

variable (tape : List TapeEntry)

mutual

/-- `materialize_value_source`: the value at an index, and the index after it. -/
def materializeValueSource : Nat → Nat → Option (Value Bytes F × Nat)
  | 0,_ => none
  | n + 1,idx =>
    match tape[idx]? with
    | none => some (.null,idx)
    | some entry =>
      if entry.kind = .objStart then materializeObject n entry.link [] (idx + 1)
      else if entry.kind = .arrStart then materializeArray n entry.link [] (idx + 1)
      else match materializeScalar doubles bytes entry with
        | some value => some (value,idx + 1)
        | none => some (.null,idx)

def materializeObject : Nat → Nat → List (Field Bytes F) → Nat → Option (Value Bytes F × Nat)
  | 0,_,_,_ => none
  | n + 1,endIdx,fields,idx =>
    if idx < endIdx then
      match tape[idx]? with
      | none => some (.object fields,endIdx + 1)
      | some key => do
        let (value,idx) ← materializeValueSource n (idx + 1)
        match decodeKeyToInternedString bytes key.offset with
        | some key => materializeObject n endIdx (setField key value fields) idx
        | none => materializeObject n endIdx fields idx
    else some (.object fields,endIdx + 1)

def materializeArray : Nat → Nat → List (Value Bytes F) → Nat → Option (Value Bytes F × Nat)
  | 0,_,_,_ => none
  | n + 1,endIdx,elements,idx =>
    if idx < endIdx then do
      let (value,idx) ← materializeValueSource n idx
      materializeArray n endIdx (elements ++ [value]) idx
    else some (.array elements,endIdx + 1)

end

section

-- equations, made here once and not by the first proofs that unfold these
attribute [local simp] materializeValueSource materializeObject materializeArray

end

/-- `materialize_from_idx`; a turn for every entry is enough. -/
def materializeFromIdx (startIdx : Nat) : Option (Value Bytes F) :=
  (materializeValueSource doubles bytes tape (tape.length + 1) startIdx).map Prod.fst

def materialize : Option (Value Bytes F) := materializeFromIdx doubles bytes tape 0

end recursive

section iterative

inductive BuildFrame (F : Type) where
  | array (values : List (Value Bytes F))
  | object (keys : List Bytes) (values : List (Value Bytes F))

def BuildFrame.pushValue (value : Value Bytes F) : BuildFrame F → Option (BuildFrame F)
  | .array values => some (.array (values ++ [value]))
  | .object keys values => if values.length < keys.length then some (.object keys (values ++ [value])) else none

def finishFrame : BuildFrame F → Option (Value Bytes F)
  | .array values => if values.length < 2 ^ 32 then some (.array values) else none
  | .object keys values =>
    if keys.length = values.length ∧ keys.length < 2 ^ 32 then
      some (.object ((keys.zip values).foldl (fun fields (key,value) => setField key value fields) []))
    else none

structure Building (F : Type) where
  frames : List (BuildFrame F)
  root : Option (Value Bytes F)

def attachValue (s : Building F) (value : Value Bytes F) : Option (Building F) :=
  match s.frames with
  | parent :: frames => (parent.pushValue value).map fun parent => { s with frames := parent :: frames }
  | [] => if s.root.isNone then some { s with root := some value } else none

/-- The end of a container, which must be of the same sort as its start. -/
def endFrame (s : Building F) (object : Bool) : Option (Building F) :=
  match s.frames with
  | [] => none
  | frame :: frames =>
    match frame,object with
    | .array _,true => none
    | .object _ _,false => none
    | frame,_ => do
      let value ← finishFrame frame
      attachValue { s with frames } value

def buildEntry (s : Building F) (entry : TapeEntry) : Option (Building F) :=
  match entry.kind with
  | .objStart => some { s with frames := .object [] [] :: s.frames }
  | .arrStart => some { s with frames := .array [] :: s.frames }
  | .key =>
    match s.frames with
    | .object keys values :: frames =>
      if keys.length = values.length then
        (decodeKeyToInternedString bytes entry.offset).map fun key =>
          { s with frames := .object (keys ++ [key]) values :: frames }
      else none
    | _ => none
  | .objEnd => endFrame s true
  | .arrEnd => endFrame s false
  | _ => do
    let value ← materializeScalar doubles bytes entry
    attachValue s value

def materializeIterative (tape : List TapeEntry) : Option (Value Bytes F) := do
  let s ← tape.foldlM (buildEntry doubles bytes) ⟨[],none⟩
  if s.frames.isEmpty then s.root else none

end iterative

end Tape

section reading

open Tape

variable {F : Type} (doubles : Doubles F) {bytes : Bytes} {pos : Nat}

theorem bytesFromOffset_eq (bytes : Bytes) (offset : Nat) : bytesFromOffset bytes offset = bytes.drop offset := by
  unfold bytesFromOffset
  split
  · rfl
  · next beyond => exact (List.drop_eq_nil_of_le (by omega)).symm

theorem drop_move {α : Type} {l first rest : List α} {i : Nat} (here : l.drop i = first ++ rest) :
    l.drop (i + first.length) = rest := by
  rw [← List.drop_drop,here,List.drop_left]

theorem drop_next {α : Type} {l rest : List α} {a : α} {i : Nat} (here : l.drop i = a :: rest) : l.drop (i + 1) = rest := by
  rw [← List.drop_drop,here]
  rfl

theorem entry_at {tape more : List TapeEntry} {idx : Nat} {entry : TapeEntry} (found : tape.drop idx = entry :: more) :
    tape[idx]? = some entry := by
  rw [← Nat.add_zero idx,← List.getElem?_drop,found]
  rfl

theorem materializeStringValue_eq {items : List Item} {rest : Bytes} (here : bytes.drop pos = renderString items ++ rest) :
    materializeStringValue (F := F) bytes pos = .string (tapeBytes items) := by
  rw [materializeStringValue,bytesFromOffset_eq,here,parseStringBytesStatic_literal]

theorem decodeKey_eq {items : List Item} {rest : Bytes} (here : bytes.drop pos = renderString items ++ rest) :
    decodeKeyToInternedString bytes pos = some (tapeBytes items) := by
  rw [decodeKeyToInternedString,bytesFromOffset_eq,here,parseStringBytesStatic_literal]

/-- Values that take one entry. -/
def Doc.scalar : Doc → Bool
  | .null | .bool _ | .number _ | .string _ => true
  | _ => false

theorem materializeScalar_eq (d : Doc) (scalar : d.scalar = true) {rest : Bytes} (ends : Ends rest)
    (here : bytes.drop pos = d.render ++ rest) (idx : Nat) :
    ∃ entry, d.tape pos idx = [entry] ∧ materializeScalar doubles bytes entry = some (d.value doubles tapeBytes) := by
  cases d with
  | null => exact ⟨_,rfl,rfl⟩
  | bool b => cases b <;> exact ⟨_,rfl,rfl⟩
  | number n =>
    refine ⟨_,rfl,?_⟩
    rw [Doc.render] at here
    rw [materializeScalar,bytesFromOffset_eq,here,materializeNumber_render doubles n ends.stops]
    rfl
  | string items =>
    refine ⟨_,rfl,?_⟩
    rw [materializeScalar,materializeStringValue_eq here]
    rfl
  | _ => cases scalar

/-- Both materialisers decode a scalar's entry alike. -/
theorem scalar_entry {entry : TapeEntry} {value : Value Bytes F}
    (scalar : materializeScalar doubles bytes entry = some value) :
    entry.kind ≠ .objStart ∧ entry.kind ≠ .arrStart ∧
      ∀ s, buildEntry doubles bytes s entry = attachValue s value := by
  cases kind : entry.kind with
  | objStart | objEnd | arrStart | arrEnd | key => simp [materializeScalar,kind] at scalar
  | _ =>
    refine ⟨by simp,by simp,fun s => ?_⟩
    simp [buildEntry,kind,scalar]

end reading

section recursive

open Tape

variable {F : Type} (doubles : Doubles F) (bytes : Bytes) (tape : List TapeEntry)

theorem Doc.tape_length_pos (d : Doc) (pos idx : Nat) : 0 < (d.tape pos idx).length := by
  cases d <;> simp [Doc.tape]

mutual

/-- Over its own entries a value materialises to what the text says, decoded the
tape's way. -/
theorem Doc.materializes (d : Doc) (n pos idx : Nat) (fuel : (d.tape pos idx).length ≤ n) {rest : Bytes}
    (ends : Ends rest) (here : bytes.drop pos = d.render ++ rest) {more : List TapeEntry}
    (found : tape.drop idx = d.tape pos idx ++ more) :
    materializeValueSource doubles bytes tape n idx = some (d.value doubles tapeBytes,idx + (d.tape pos idx).length) := by
  have leaf (scalar : d.scalar = true) : materializeValueSource doubles bytes tape n idx =
      some (d.value doubles tapeBytes,idx + (d.tape pos idx).length) := by
    obtain ⟨entry,single,value⟩ := materializeScalar_eq doubles d scalar ends here idx
    rw [single,List.length_singleton] at fuel ⊢
    obtain ⟨notObject,notArray,-⟩ := scalar_entry doubles value
    obtain ⟨n,rfl⟩ : ∃ m, n = m + 1 := ⟨n - 1,by omega⟩
    rw [single] at found
    rw [materializeValueSource,entry_at found]
    dsimp only
    rw [if_neg notObject,if_neg notArray,value]
  cases d with
  | null | bool | number | string => exact leaf rfl
  | emptyArray gap =>
    simp only [Doc.tape,List.length_cons,List.length_nil] at fuel
    obtain ⟨n,rfl⟩ : ∃ m, n = m + 1 + 1 := ⟨n - 2,by omega⟩
    rw [materializeValueSource,entry_at found]
    dsimp only
    rw [if_neg (by simp),if_pos rfl,materializeArray,if_neg (Nat.lt_irrefl _)]
    rfl
  | array elements =>
    simp only [Doc.tape,List.length_cons,List.length_append,List.length_nil] at fuel
    obtain ⟨n,rfl⟩ : ∃ m, n = m + 1 := ⟨n - 1,by omega⟩
    rw [Doc.tape,List.cons_append] at found
    rw [Doc.render,List.cons_append,List.append_assoc,List.singleton_append] at here
    have following := drop_next found
    rw [List.append_assoc] at following
    have inner := elements.materializes n (pos + 1) (idx + 1) (by omega) (drop_next here) following rfl []
    rw [materializeValueSource,entry_at found]
    dsimp only
    rw [if_neg (by simp),if_pos rfl,inner]
    simp only [Doc.value,Doc.tape,List.nil_append,List.length_cons,List.length_append,List.length_nil]
    congr 2
    omega
  | emptyObject gap =>
    simp only [Doc.tape,List.length_cons,List.length_nil] at fuel
    obtain ⟨n,rfl⟩ : ∃ m, n = m + 1 + 1 := ⟨n - 2,by omega⟩
    rw [materializeValueSource,entry_at found]
    dsimp only
    rw [if_pos rfl,materializeObject,if_neg (Nat.lt_irrefl _)]
    rfl
  | object members =>
    simp only [Doc.tape,List.length_cons,List.length_append,List.length_nil] at fuel
    obtain ⟨n,rfl⟩ : ∃ m, n = m + 1 := ⟨n - 1,by omega⟩
    rw [Doc.tape,List.cons_append] at found
    rw [Doc.render,List.cons_append,List.append_assoc,List.singleton_append] at here
    have following := drop_next found
    rw [List.append_assoc] at following
    have inner := members.materializes n (pos + 1) (idx + 1) (by omega) (drop_next here) following rfl []
    rw [materializeValueSource,entry_at found]
    dsimp only
    rw [if_pos rfl,inner]
    simp only [Doc.value,Doc.tape,List.length_cons,List.length_append,List.length_nil]
    congr 2
    omega

theorem Elements.materializes (es : Elements) (n pos idx : Nat) (fuel : (es.tape pos idx).length < n)
    {rest : Bytes} (here : bytes.drop pos = es.render ++ closeBracket :: rest) {more : List TapeEntry}
    (found : tape.drop idx = es.tape pos idx ++ more) {endIdx : Nat} (ending : endIdx = idx + (es.tape pos idx).length)
    (values : List (Value Bytes F)) :
    materializeArray doubles bytes tape n endIdx values idx =
      some (.array (values ++ es.values doubles tapeBytes),endIdx + 1) := by
  obtain ⟨n,rfl⟩ : ∃ m, n = m + 1 := ⟨n - 1,by omega⟩
  subst ending
  cases es with
  | last before d after =>
    rw [Elements.render,List.append_assoc,List.append_assoc] at here
    have place := drop_move here
    rw [length_gap] at place
    rw [Elements.tape] at fuel found ⊢
    have some := d.tape_length_pos (pos + before.length) idx
    rw [materializeArray,if_pos (by omega),
      d.materializes n _ _ (by omega) (ends_gap after (.inr (.inl rfl)) rest) place found]
    simp only [Option.bind_eq_bind,Option.bind_some]
    obtain ⟨n,rfl⟩ : ∃ m, n = m + 1 := ⟨n - 1,by omega⟩
    rw [materializeArray,if_neg (Nat.lt_irrefl _)]
    rfl
  | cons before d after others =>
    rw [Elements.render,List.append_assoc,List.append_assoc,List.append_assoc,List.cons_append] at here
    have place := drop_move here
    rw [length_gap] at place
    have next := drop_next (drop_move (drop_move place))
    rw [length_gap] at next
    rw [Elements.tape,List.append_assoc] at found
    rw [Elements.tape,List.length_append] at fuel ⊢
    have some := d.tape_length_pos (pos + before.length) idx
    rw [materializeArray,if_pos (by omega),
      d.materializes n _ _ (by omega) (ends_gap after (.inl rfl) _) place found]
    simp only [Option.bind_eq_bind,Option.bind_some]
    rw [others.materializes n _ _ (by omega) next (drop_move found) (by omega),List.append_assoc]
    rfl

theorem Members.materializes (ms : Members) (n pos idx : Nat) (fuel : (ms.tape pos idx).length < n)
    {rest : Bytes} (here : bytes.drop pos = ms.render ++ closeBrace :: rest) {more : List TapeEntry}
    (found : tape.drop idx = ms.tape pos idx ++ more) {endIdx : Nat} (ending : endIdx = idx + (ms.tape pos idx).length)
    (fields : List (Field Bytes F)) :
    materializeObject doubles bytes tape n endIdx fields idx =
      some (.object (ms.fields doubles tapeBytes fields),endIdx + 1) := by
  obtain ⟨n,rfl⟩ : ∃ m, n = m + 1 := ⟨n - 1,by omega⟩
  subst ending
  cases ms with
  | last before key mid after d close =>
    simp only [Members.render,List.append_assoc,List.cons_append] at here
    have name := drop_move here
    rw [length_gap] at name
    have place := drop_move (drop_next (drop_move (drop_move name)))
    rw [length_gap,length_gap] at place
    rw [Members.tape,List.length_cons] at fuel ⊢
    rw [Members.tape,List.cons_append] at found
    rw [materializeObject,if_pos (by omega),entry_at found]
    dsimp only
    rw [d.materializes n _ _ (by omega) (ends_gap close (.inr (.inr rfl)) rest) place (drop_next found),
      decodeKey_eq name]
    simp only [Option.bind_eq_bind,Option.bind_some]
    obtain ⟨n,rfl⟩ : ∃ m, n = m + 1 := ⟨n - 1,by omega⟩
    rw [materializeObject,if_neg (by omega)]
    rfl
  | cons before key mid after d close others =>
    simp only [Members.render,List.append_assoc,List.cons_append] at here
    have name := drop_move here
    rw [length_gap] at name
    have place := drop_move (drop_next (drop_move (drop_move name)))
    rw [length_gap,length_gap] at place
    have next := drop_next (drop_move (drop_move place))
    rw [length_gap] at next
    simp only [Members.tape,List.length_append,List.length_cons] at fuel ⊢
    simp only [Members.tape,List.append_assoc,List.cons_append,List.length_cons] at found
    generalize start : pos + before.length + (renderString key).length + mid.length + 1 + after.length = spot at *
    have index : idx + ((d.tape spot (idx + 1)).length + 1) = idx + 1 + (d.tape spot (idx + 1)).length := by omega
    rw [index] at fuel found ⊢
    have value := drop_next found
    rw [materializeObject,if_pos (by omega),entry_at found]
    dsimp only
    rw [d.materializes n _ _ (by omega) (ends_gap close (.inl rfl) _) place value,decodeKey_eq name]
    simp only [Option.bind_eq_bind,Option.bind_some]
    rw [others.materializes n _ _ (by omega) next (drop_move value) (by omega)]
    rfl

end

theorem materializeFromIdx_doc (d : Doc) (pos idx : Nat) {rest : Bytes} (ends : Ends rest)
    (here : bytes.drop pos = d.render ++ rest) {more : List TapeEntry} (found : tape.drop idx = d.tape pos idx ++ more) :
    materializeFromIdx doubles bytes tape idx = some (d.value doubles tapeBytes) := by
  have enough := congrArg List.length found
  rw [List.length_drop,List.length_append] at enough
  rw [materializeFromIdx,d.materializes doubles bytes tape _ pos idx (by omega) ends here found]
  rfl

end recursive

section iterative

open Tape

variable {F : Type} (doubles : Doubles F) (bytes : Bytes)

section members

variable (decode : List Item → Bytes)

def Members.keys : Members → List Bytes
  | .last _ key _ _ _ _ => [decode key]
  | .cons _ key _ _ _ _ rest => decode key :: rest.keys

def Members.values : Members → List (Value Bytes F)
  | .last _ _ _ _ d _ => [d.value doubles decode]
  | .cons _ _ _ _ d _ rest => d.value doubles decode :: rest.values

theorem Members.keys_length : (ms : Members) → (ms.keys decode).length = (ms.values doubles decode).length
  | .last .. => rfl
  | .cons _ _ _ _ _ _ rest => congrArg Nat.succ rest.keys_length

theorem Members.fields_eq : (ms : Members) → (fields : List (Field Bytes F)) →
    ((ms.keys decode).zip (ms.values doubles decode)).foldl (fun fields (key,value) => setField key value fields) fields =
      ms.fields doubles decode fields
  | .last .., _ => rfl
  | .cons _ _ _ _ _ _ rest, _ => rest.fields_eq _

theorem Members.keys_length_le (pos idx : Nat) : (ms : Members) → (ms.keys decode).length ≤ (ms.tape pos idx).length
  | .last .. => by simp [Members.keys,Members.tape]
  | .cons before key mid after d close rest => by
    have others := rest.keys_length_le
      (pos + before.length + (renderString key).length + mid.length + 1 + after.length + d.render.length + close.length + 1)
      (idx + ((d.tape (pos + before.length + (renderString key).length + mid.length + 1 + after.length)
        (idx + 1)).length + 1))
    simp only [Members.keys,Members.tape,List.length_cons,List.length_append]
    omega

theorem Elements.values_length_le (pos idx : Nat) : (es : Elements) →
    (es.values doubles decode).length ≤ (es.tape pos idx).length
  | .last before d _ => d.tape_length_pos (pos + before.length) idx
  | .cons before d after rest => by
    have first := d.tape_length_pos (pos + before.length) idx
    have others := rest.values_length_le (pos + before.length + d.render.length + after.length + 1)
      (idx + (d.tape (pos + before.length) idx).length)
    simp only [Elements.values,Elements.tape,List.length_cons,List.length_append]
    omega

end members

mutual

/-- Over its own entries a value is built on the frames and handed to the innermost
one. -/
theorem Doc.iterates (d : Doc) (pos idx : Nat) (small : (d.tape pos idx).length < 2 ^ 32) {rest : Bytes} (ends : Ends rest)
    (here : bytes.drop pos = d.render ++ rest) (s : Building F) :
    (d.tape pos idx).foldlM (buildEntry doubles bytes) s = attachValue s (d.value doubles tapeBytes) := by
  have leaf (scalar : d.scalar = true) :
      (d.tape pos idx).foldlM (buildEntry doubles bytes) s = attachValue s (d.value doubles tapeBytes) := by
    obtain ⟨entry,single,value⟩ := materializeScalar_eq doubles d scalar ends here idx
    rw [single,List.foldlM_cons,(scalar_entry doubles value).2.2 s]
    exact bind_pure _
  cases d with
  | null | bool | number | string => exact leaf rfl
  | emptyArray gap =>
    simp [Doc.tape,buildEntry,endFrame,finishFrame,Doc.value]
  | array elements =>
    rw [Doc.tape,List.length_cons,List.length_append] at small
    rw [Doc.render,List.cons_append,List.append_assoc,List.singleton_append] at here
    have few := elements.values_length_le doubles tapeBytes (pos + 1) (idx + 1)
    have inner := elements.iterates (pos + 1) (idx + 1) (by omega) (drop_next here) [] s.frames s.root
    have finished : finishFrame (.array (elements.values doubles tapeBytes)) =
        some (.array (elements.values doubles tapeBytes)) := if_pos (by omega)
    rw [Doc.tape,List.foldlM_cons]
    simp [buildEntry,List.foldlM_append,inner,endFrame,finished,Doc.value]
  | emptyObject gap =>
    simp [Doc.tape,buildEntry,endFrame,finishFrame,Doc.value]
  | object members =>
    rw [Doc.tape,List.length_cons,List.length_append] at small
    rw [Doc.render,List.cons_append,List.append_assoc,List.singleton_append] at here
    have few := members.keys_length_le tapeBytes (pos + 1) (idx + 1)
    have inner := members.iterates (pos + 1) (idx + 1) (by omega) (drop_next here) [] [] rfl s.frames s.root
    have finished : finishFrame (.object (members.keys tapeBytes) (members.values doubles tapeBytes)) =
        some (.object (members.fields doubles tapeBytes [])) := by
      rw [finishFrame,if_pos ⟨members.keys_length doubles tapeBytes,by omega⟩,members.fields_eq]
    rw [Doc.tape,List.foldlM_cons]
    simp [buildEntry,List.foldlM_append,inner,endFrame,finished,Doc.value]

theorem Elements.iterates (es : Elements) (pos idx : Nat) (small : (es.tape pos idx).length < 2 ^ 32) {rest : Bytes}
    (here : bytes.drop pos = es.render ++ closeBracket :: rest) (values : List (Value Bytes F))
    (frames : List (BuildFrame F)) (root : Option (Value Bytes F)) :
    (es.tape pos idx).foldlM (buildEntry doubles bytes) ⟨.array values :: frames,root⟩ =
      some ⟨.array (values ++ es.values doubles tapeBytes) :: frames,root⟩ := by
  cases es with
  | last before d after =>
    rw [Elements.render,List.append_assoc,List.append_assoc] at here
    have place := drop_move here
    rw [length_gap] at place
    exact d.iterates (pos + before.length) idx small (ends_gap after (.inr (.inl rfl)) rest) place _
  | cons before d after others =>
    rw [Elements.render,List.append_assoc,List.append_assoc,List.append_assoc,List.cons_append] at here
    have place := drop_move here
    rw [length_gap] at place
    have next := drop_next (drop_move (drop_move place))
    rw [length_gap] at next
    rw [Elements.tape,List.length_append] at small
    rw [Elements.tape,List.foldlM_append,
      d.iterates (pos + before.length) idx (by omega) (ends_gap after (.inl rfl) _) place]
    refine (others.iterates _ _ (by omega) next (values ++ [d.value doubles tapeBytes]) frames root).trans ?_
    rw [List.append_assoc]
    rfl

theorem Members.iterates (ms : Members) (pos idx : Nat) (small : (ms.tape pos idx).length < 2 ^ 32) {rest : Bytes}
    (here : bytes.drop pos = ms.render ++ closeBrace :: rest) (keys : List Bytes) (values : List (Value Bytes F))
    (same : keys.length = values.length) (frames : List (BuildFrame F)) (root : Option (Value Bytes F)) :
    (ms.tape pos idx).foldlM (buildEntry doubles bytes) ⟨.object keys values :: frames,root⟩ =
      some ⟨.object (keys ++ ms.keys tapeBytes) (values ++ ms.values doubles tapeBytes) :: frames,root⟩ := by
  cases ms with
  | last before key mid after d close =>
    simp only [Members.render,List.append_assoc,List.cons_append] at here
    have name := drop_move here
    rw [length_gap] at name
    have place := drop_move (drop_next (drop_move (drop_move name)))
    rw [length_gap,length_gap] at place
    rw [Members.tape,List.length_cons] at small
    rw [Members.tape,List.foldlM_cons]
    simp only [buildEntry,same,if_true,decodeKey_eq name,Option.map_some,Option.bind_eq_bind,Option.bind_some]
    rw [d.iterates _ _ (by omega) (ends_gap close (.inr (.inr rfl)) rest) place]
    simp [attachValue,BuildFrame.pushValue,same,Members.keys,Members.values]
  | cons before key mid after d close others =>
    simp only [Members.render,List.append_assoc,List.cons_append] at here
    have name := drop_move here
    rw [length_gap] at name
    have place := drop_move (drop_next (drop_move (drop_move name)))
    rw [length_gap,length_gap] at place
    have next := drop_next (drop_move (drop_move place))
    rw [length_gap] at next
    simp only [Members.tape,List.length_append,List.length_cons] at small
    simp only [Members.tape,List.cons_append]
    rw [List.foldlM_cons]
    simp only [buildEntry,same,if_true,decodeKey_eq name,Option.map_some,Option.bind_eq_bind,Option.bind_some]
    rw [List.foldlM_append,d.iterates _ _ (by omega) (ends_gap close (.inl rfl) _) place]
    have grown : (keys ++ [tapeBytes key]).length = (values ++ [d.value doubles tapeBytes]).length := by
      rw [List.length_append,List.length_append,same]
      rfl
    have fits : values.length < (keys ++ [tapeBytes key]).length := by
      rw [List.length_append,same]
      exact Nat.lt_succ_self _
    simp only [attachValue,BuildFrame.pushValue,fits,if_true,Option.map_some,Option.bind_eq_bind,Option.bind_some]
    refine (others.iterates _ _ (by simp only [List.length_cons]; omega) next _ _ grown frames root).trans ?_
    rw [List.append_assoc,List.append_assoc]
    rfl

end

end iterative

section texts

open Tape

variable {F : Type} (doubles : Doubles F) (t : Text)

theorem Text.drop_before : t.render.drop t.before.length = t.doc.render ++ renderGap t.after := by
  rw [Text.render,List.append_assoc,← length_gap,List.drop_left]

theorem materialize_render :
    materialize doubles t.render (t.doc.tape t.before.length 0) = some (t.doc.value doubles tapeBytes) :=
  materializeFromIdx_doc doubles t.render _ t.doc t.before.length 0 (ends_gap_end t.after) t.drop_before
    (List.append_nil _).symm

theorem materializeIterative_render (small : t.render.length < 2 ^ 32) :
    materializeIterative doubles t.render (t.doc.tape t.before.length 0) = some (t.doc.value doubles tapeBytes) := by
  have few := t.doc.tape_length_le t.before.length 0
  have part : t.doc.render.length ≤ t.render.length := by
    simp only [Text.render,List.length_append]
    omega
  rw [materializeIterative,
    t.doc.iterates doubles t.render t.before.length 0 (by omega) (ends_gap_end t.after) t.drop_before]
  rfl

end texts

end Perry.Json
