import Perry.Json.LazyIdentity

/-! The four front ends build the same value from a text exactly when its surrogate
escapes stand in pairs, in every string that is still there at the end. -/
namespace Perry.Json

open Perry.Unicode Tape

section paired

mutual

/-- Every key, and every string that no later field of the same key replaces, has its
surrogate escapes in pairs. -/
def Doc.paired : Doc → Bool
  | .string s => Json.paired s
  | .array elements => elements.paired
  | .object members => members.paired
  | _ => true

def Elements.paired : Elements → Bool
  | .last _ d _ => d.paired
  | .cons _ d _ rest => d.paired && rest.paired

def Members.paired : Members → Bool
  | .last _ key _ _ d _ => Json.paired key && d.paired
  | .cons _ key _ _ d _ rest =>
    Json.paired key && ((rest.keys directBytes).contains (directBytes key) || d.paired) && rest.paired

end

section

-- equations, made here once and not by the first proofs that unfold these
attribute [local simp] Doc.paired Elements.paired Members.paired

end

end paired

section fields

variable {F : Type} {S : Type} [DecidableEq S]

def lookup (key : S) : List (Field S F) → Option (Value S F)
  | [] => none
  | field :: fields => if field.key = key then some field.value else lookup key fields

theorem lookup_setField (key other : S) (value : Value S F) (fields : List (Field S F)) :
    lookup other (setField key value fields) = if key = other then some value else lookup other fields := by
  induction fields with
  | nil => rfl
  | cons field fields ih =>
    rw [setField]
    split
    · next same =>
      rw [lookup,lookup,Field.key,same]
      split <;> rfl
    · next differ =>
      rw [lookup,ih,lookup]
      by_cases mine : field.key = other
      · rw [if_pos mine,if_pos mine,if_neg fun same => differ (mine.trans same.symm)]
      · rw [if_neg mine,if_neg mine]

theorem map_key_setField (key : S) (v w : Value S F) {fields others : List (Field S F)}
    (same : fields.map Field.key = others.map Field.key) :
    (setField key v fields).map Field.key = (setField key w others).map Field.key := by
  induction fields generalizing others with
  | nil =>
    cases others with
    | nil => rfl
    | cons => cases same
  | cons field fields ih =>
    cases others with
    | nil => cases same
    | cons other others =>
      obtain ⟨first,rest⟩ := List.cons.inj same
      rw [setField,setField,first]
      split
      · rw [List.map_cons,List.map_cons,rest]
        rfl
      · rw [List.map_cons,List.map_cons,first,ih rest]

theorem mem_keys_setField (key : S) (value : Value S F) (fields : List (Field S F)) (other : S) :
    other ∈ (setField key value fields).map Field.key ↔ other = key ∨ other ∈ fields.map Field.key := by
  induction fields with
  | nil => simp [setField,Field.key]
  | cons field fields ih =>
    rw [setField]
    split
    · next same =>
      subst same
      simp [Field.key]
    · rw [List.map_cons,List.mem_cons,ih,List.map_cons,List.mem_cons]
      exact or_left_comm

theorem nodup_setField {key : S} (value : Value S F) {fields : List (Field S F)} (distinct : (fields.map Field.key).Nodup) :
    ((setField key value fields).map Field.key).Nodup := by
  induction fields with
  | nil => exact List.nodup_singleton key
  | cons field fields ih =>
    obtain ⟨absent,rest⟩ := List.nodup_cons.mp distinct
    rw [setField]
    split
    · next same =>
      subst same
      exact distinct
    · next differ =>
      refine List.nodup_cons.mpr ⟨fun member => ?_,ih rest⟩
      obtain same | member := (mem_keys_setField ..).mp member
      · exact differ same
      · exact absent member

/-- Fields with the same distinct keys in the same order, and the same values. -/
theorem fields_ext {fields others : List (Field S F)} (keys : fields.map Field.key = others.map Field.key)
    (distinct : (fields.map Field.key).Nodup) (values : ∀ key, lookup key fields = lookup key others) : fields = others := by
  induction fields generalizing others with
  | nil =>
    cases others with
    | nil => rfl
    | cons => cases keys
  | cons field fields ih =>
    cases others with
    | nil => cases keys
    | cons other others =>
      obtain ⟨first,rest⟩ := List.cons.inj keys
      obtain ⟨absent,distinct⟩ := List.nodup_cons.mp distinct
      have head := values field.key
      rw [lookup,if_pos rfl,lookup,if_pos first.symm] at head
      have missing {list : List (Field S F)} {key : S} (absent : key ∉ list.map Field.key) : lookup key list = none := by
        induction list with
        | nil => rfl
        | cons field list ih =>
          rw [List.map_cons,List.mem_cons,not_or] at absent
          rw [lookup,if_neg (Ne.symm absent.1),ih absent.2]
      have tail : fields = others := by
        refine ih rest distinct fun key => ?_
        by_cases same : field.key = key
        · subst same
          rw [missing absent,missing (rest ▸ absent)]
        · have value := values key
          rw [lookup,if_neg same,lookup,if_neg (first ▸ same)] at value
          exact value
      obtain ⟨key,value⟩ := field
      obtain ⟨key',value'⟩ := other
      cases first
      cases Option.some.inj head
      rw [tail]

theorem lookup_map {T : Type} (f : S → T) {fields others : List (Field S F)}
    (keys : fields.map Field.key = others.map Field.key) (values : mapFields f fields = mapFields f others) (key : S) :
    (lookup key fields).map (Value.map f) = (lookup key others).map (Value.map f) := by
  induction fields generalizing others with
  | nil =>
    cases others with
    | nil => rfl
    | cons => cases keys
  | cons field fields ih =>
    cases others with
    | nil => cases keys
    | cons other others =>
      obtain ⟨first,rest⟩ := List.cons.inj keys
      obtain ⟨k,value⟩ := field
      obtain ⟨k',value'⟩ := other
      rw [mapFields,mapFields] at values
      obtain ⟨head,tail⟩ := List.cons.inj values
      rw [lookup,lookup,first]
      split
      · simp only [Field.value,Option.map_some]
        exact congrArg some (Field.mk.inj head).2
      · exact ih rest tail

omit [DecidableEq S] in
theorem mapFields_keys {T : Type} (f : S → T) (fields : List (Field S F)) :
    (mapFields f fields).map Field.key = (fields.map Field.key).map f := by
  induction fields with
  | nil => rfl
  | cons field fields ih =>
    obtain ⟨key,value⟩ := field
    rw [mapFields,List.map_cons,List.map_cons,List.map_cons,ih]
    rfl

end fields

section values

variable {F : Type} (doubles : Doubles F)

mutual

/-- On paired texts both decoders give one value. -/
theorem Doc.value_eq (d : Doc) (pairs : d.paired = true) : d.value doubles tapeBytes = d.value doubles directBytes := by
  cases d with
  | string s => rw [Doc.value,Doc.value,tapeBytes_eq s pairs]
  | array elements => rw [Doc.value,Doc.value,elements.values_eq pairs]
  | object members =>
    rw [Doc.value,Doc.value]
    exact congrArg Value.object (members.fields_same pairs rfl List.nodup_nil fun _ _ => rfl)
  | _ => rfl

theorem Elements.values_eq (es : Elements) (pairs : es.paired = true) :
    es.values doubles tapeBytes = es.values doubles directBytes := by
  cases es with
  | last before d after => rw [Elements.values,Elements.values,d.value_eq pairs]
  | cons before d after rest =>
    obtain ⟨first,others⟩ := Bool.and_eq_true_iff.mp pairs
    rw [Elements.values,Elements.values,d.value_eq first,rest.values_eq others]

theorem Members.fields_same (ms : Members) (pairs : ms.paired = true) {fields others : List (Field Bytes F)}
    (keys : fields.map Field.key = others.map Field.key) (distinct : (fields.map Field.key).Nodup)
    (kept : ∀ key, key ∉ ms.keys directBytes → lookup key fields = lookup key others) :
    ms.fields doubles tapeBytes fields = ms.fields doubles directBytes others := by
  cases ms with
  | last before key mid after d close =>
    obtain ⟨name,value⟩ := Bool.and_eq_true_iff.mp pairs
    rw [Members.fields,Members.fields,tapeBytes_eq key name,d.value_eq value]
    refine fields_ext (map_key_setField _ _ _ keys) (nodup_setField _ distinct) fun other => ?_
    rw [lookup_setField,lookup_setField]
    split
    · rfl
    · next differ => exact kept other fun member => differ (List.mem_singleton.mp member).symm
  | cons before key mid after d close rest =>
    obtain ⟨first,others'⟩ := Bool.and_eq_true_iff.mp pairs
    obtain ⟨name,value⟩ := Bool.and_eq_true_iff.mp first
    rw [Members.fields,Members.fields,tapeBytes_eq key name]
    refine rest.fields_same others' (map_key_setField _ _ _ keys) (nodup_setField _ distinct) fun other pending => ?_
    rw [lookup_setField,lookup_setField]
    split
    · next same =>
      subst same
      obtain replaced | value := Bool.or_eq_true_iff.mp value
      · exact absurd (List.contains_iff_mem.mp replaced) pending
      · rw [d.value_eq value]
    · next differ =>
      refine kept other fun member => ?_
      obtain same | member := List.mem_cons.mp member
      · exact differ same.symm
      · exact pending member

end

variable {doubles}

theorem Members.lookup_other (decode : List Item → Bytes) : (ms : Members) → {key : Bytes} → key ∉ ms.keys decode →
    (fields : List (Field Bytes F)) → lookup key (ms.fields doubles decode fields) = lookup key fields
  | .last before name mid after d close,key,absent,fields => by
    rw [Members.fields,lookup_setField,if_neg fun same => absent (List.mem_singleton.mpr same.symm)]
  | .cons before name mid after d close rest,key,absent,fields => by
    rw [Members.keys,List.mem_cons,not_or] at absent
    rw [Members.fields,rest.lookup_other decode absent.2,lookup_setField,if_neg (Ne.symm absent.1)]

theorem Members.mem_keys (decode : List Item → Bytes) : (ms : Members) → (fields : List (Field Bytes F)) → {key : Bytes} →
    (key ∈ (ms.fields doubles decode fields).map Field.key ↔ key ∈ ms.keys decode ∨ key ∈ fields.map Field.key)
  | .last before name mid after d close,fields,key => by
    rw [Members.fields,mem_keys_setField,Members.keys,List.mem_singleton]
  | .cons before name mid after d close rest,fields,key => by
    rw [Members.fields,rest.mem_keys decode,mem_keys_setField,Members.keys,List.mem_cons]
    exact ⟨fun h => by tauto,fun h => by tauto⟩

def Members.names : Members → List (List Item)
  | .last _ key _ _ _ _ => [key]
  | .cons _ key _ _ _ _ rest => key :: rest.names

theorem Members.keys_eq_map (decode : List Item → Bytes) : (ms : Members) → ms.keys decode = ms.names.map decode
  | .last .. => rfl
  | .cons _ _ _ _ _ _ rest => congrArg _ (rest.keys_eq_map decode)

theorem Members.Utf8.names : {ms : Members} → ms.Utf8 → ∀ name ∈ ms.names, Utf8Items name
  | .last ..,utf8,name,member => by
    cases List.mem_singleton.mp member
    exact utf8.1
  | .cons ..,utf8,name,member => by
    obtain rfl | member := List.mem_cons.mp member
    · exact utf8.1
    · exact Members.Utf8.names utf8.2.2 name member

/-- If the objects agree unit for unit, every key is paired. -/
theorem Members.names_paired (ms : Members) (utf8 : ms.Utf8)
    (same : mapFields utf16 (ms.fields doubles tapeBytes []) = mapFields utf16 (ms.fields doubles directBytes [])) :
    ∀ name ∈ ms.names, Json.paired name = true := by
  intro name member
  have here : directBytes name ∈ (ms.fields doubles directBytes []).map Field.key :=
    (ms.mem_keys directBytes []).mpr (.inl (by rw [Members.keys_eq_map]; exact List.mem_map_of_mem member))
  have there : utf16 (directBytes name) ∈ ((ms.fields doubles tapeBytes []).map Field.key).map utf16 := by
    rw [← mapFields_keys,same,mapFields_keys]
    exact List.mem_map_of_mem here
  obtain ⟨key,found,units⟩ := List.mem_map.mp there
  obtain known | none := (ms.mem_keys tapeBytes []).mp found
  · rw [Members.keys_eq_map] at known
    obtain ⟨other,listed,rfl⟩ := List.mem_map.mp known
    have formed := wellFormed_tapeBytes other (utf8.names other listed)
    rw [units,utf16_directBytes name (utf8.names name member)] at formed
    exact paired_of_wellFormed name (utf8.names name member) formed
  · cases none

theorem Members.keys_same : (ms : Members) → (∀ name ∈ ms.names, Json.paired name = true) →
    {fields others : List (Field Bytes F)} → fields.map Field.key = others.map Field.key →
    (ms.fields doubles tapeBytes fields).map Field.key = (ms.fields doubles directBytes others).map Field.key
  | .last before key mid after d close,names,fields,others,keys => by
    rw [Members.fields,Members.fields,tapeBytes_eq key (names key List.mem_cons_self)]
    exact map_key_setField _ _ _ keys
  | .cons before key mid after d close rest,names,fields,others,keys => by
    rw [Members.fields,Members.fields,tapeBytes_eq key (names key List.mem_cons_self)]
    exact rest.keys_same (fun name member => names name (List.mem_cons_of_mem _ member)) (map_key_setField _ _ _ keys)

mutual

/-- Values that agree unit for unit come from paired texts only. -/
theorem Doc.paired_of_units (d : Doc) (utf8 : d.Utf8)
    (same : (d.value doubles tapeBytes).units = (d.value doubles directBytes).units) : d.paired = true := by
  cases d with
  | string s => exact (utf16_bytes_iff s utf8).mp (Value.string.inj same)
  | array elements => exact elements.paired_of_units utf8 (Value.array.inj same)
  | object members =>
    have fields := Value.object.inj same
    exact members.paired_of_units utf8 (members.names_paired utf8 fields) rfl fields
  | _ => rfl

theorem Elements.paired_of_units (es : Elements) (utf8 : es.Utf8)
    (same : mapElements utf16 (es.values doubles tapeBytes) = mapElements utf16 (es.values doubles directBytes)) :
    es.paired = true := by
  cases es with
  | last before d after => exact d.paired_of_units utf8 (List.cons.inj same).1
  | cons before d after rest =>
    obtain ⟨first,others⟩ := List.cons.inj same
    exact Bool.and_eq_true_iff.mpr ⟨d.paired_of_units utf8.1 first,rest.paired_of_units utf8.2 others⟩

theorem Members.paired_of_units (ms : Members) (utf8 : ms.Utf8) (names : ∀ name ∈ ms.names, Json.paired name = true)
    {fields others : List (Field Bytes F)} (keys : fields.map Field.key = others.map Field.key)
    (same : mapFields utf16 (ms.fields doubles tapeBytes fields) = mapFields utf16 (ms.fields doubles directBytes others)) :
    ms.paired = true := by
  cases ms with
  | last before key mid after d close =>
    have name := names key List.mem_cons_self
    rw [Members.fields,Members.fields,tapeBytes_eq key name] at same
    have value := lookup_map utf16 (map_key_setField _ _ _ keys) same (directBytes key)
    rw [lookup_setField,lookup_setField,if_pos rfl,if_pos rfl] at value
    exact Bool.and_eq_true_iff.mpr ⟨name,d.paired_of_units utf8.2 (Option.some.inj value)⟩
  | cons before key mid after d close rest =>
    have name := names key List.mem_cons_self
    have restNames : ∀ name ∈ rest.names, Json.paired name = true := fun name member =>
      names name (List.mem_cons_of_mem _ member)
    rw [Members.fields,Members.fields,tapeBytes_eq key name] at same
    have aligned := map_key_setField (directBytes key) (d.value doubles tapeBytes) (d.value doubles directBytes) keys
    refine Bool.and_eq_true_iff.mpr ⟨Bool.and_eq_true_iff.mpr ⟨name,?_⟩,
      rest.paired_of_units utf8.2.2 restNames aligned same⟩
    by_cases replaced : directBytes key ∈ rest.keys directBytes
    · exact Bool.or_eq_true_iff.mpr (.inl (List.contains_iff_mem.mpr replaced))
    · have kept : directBytes key ∉ rest.keys tapeBytes := by
        rw [Members.keys_eq_map] at replaced ⊢
        intro member
        obtain ⟨other,listed,equal⟩ := List.mem_map.mp member
        rw [tapeBytes_eq other (restNames other listed)] at equal
        exact replaced (List.mem_map.mpr ⟨other,listed,equal⟩)
      have value := lookup_map utf16 (rest.keys_same restNames aligned) same (directBytes key)
      rw [rest.lookup_other tapeBytes kept,rest.lookup_other directBytes replaced,lookup_setField,lookup_setField,
        if_pos rfl,if_pos rfl] at value
      exact Bool.or_eq_true_iff.mpr (.inr (d.paired_of_units utf8.2.1 (Option.some.inj value)))

end

end values

section agreement

variable {F : Type} (doubles : Doubles F)

/-- The four front ends build the same value from a text: the direct parser, both
materialisers, and the lazy array through any accesses. -/
def Agree (t : Text) : Prop :=
  ∃ value tape, Direct.parse doubles t.render = some value ∧ buildTape t.render = some tape ∧
    (materialize doubles t.render tape).map Value.units = some value.units ∧
    (materializeIterative doubles t.render tape).map Value.units = some value.units ∧
    ∀ elements, value = .array elements → ∃ length, countArrayLength tape 0 = some length ∧
      ∀ next ops, (runLazy doubles (allocLazyArray tape 0 length t.render next) ops).map (·.map (LazyAnswer.map (·.value.units))) =
        some (ops.map (answerOf (elements.map Value.units)))

theorem agree_of_paired {t : Text} (small : t.render.length < 2 ^ 32) (pairs : t.doc.paired = true) : Agree doubles t := by
  have same := t.doc.value_eq doubles pairs
  refine ⟨_,_,parse_render doubles t,buildTape_render t small,?_,?_,fun elements array => ?_⟩
  · rw [materialize_render,same]
    rfl
  · rw [materializeIterative_render doubles t small,same]
    rfl
  · have tapes := same.trans array
    refine ⟨_,countArrayLength_render doubles t tapes,fun next ops => ?_⟩
    obtain ⟨refs,values,-,answered⟩ := runLazy_refs (faithful_alloc (t.backed doubles tapes array) next) ops
    have units : refs.map (·.value.units) = elements.map Value.units := by
      rw [← values,List.map_map]
      rfl
    rw [answered,Option.map_some,List.map_map,← units]
    exact congrArg some (List.map_congr_left fun op _ => map_answerOf _ refs op)

theorem paired_of_agree {t : Text} (small : t.render.length < 2 ^ 32) (utf8 : t.doc.Utf8) (agree : Agree doubles t) :
    t.doc.paired = true := by
  obtain ⟨value,tape,parsed,built,same,-,-⟩ := agree
  rw [parse_render] at parsed
  rw [buildTape_render t small] at built
  cases parsed
  cases built
  rw [materialize_render] at same
  exact t.doc.paired_of_units utf8 (Option.some.inj same)

/-- For every UTF-8 text of a string's length, the front ends agree exactly when its
surrogate escapes stand in pairs. -/
theorem agree_iff_paired (t : Text) (small : t.render.length < 2 ^ 32) (utf8 : t.doc.Utf8) :
    Agree doubles t ↔ t.doc.paired = true :=
  ⟨paired_of_agree doubles small utf8,agree_of_paired doubles small⟩

section texts

/-- A model of the doubles for runs on texts without numbers. -/
def rationals : Doubles ℚ := ⟨id,Neg.neg⟩

def hexD : HexDigit := ⟨0x64,by decide⟩

def hexE : HexDigit := ⟨0x65,by decide⟩

def hexDigit (d : Fin 10) : HexDigit := ⟨Digit.byte d,by revert d; decide⟩

/-- An array of one string that is nothing but escapes. -/
def escapesText (items : List Item) : Text := ⟨[],.array (.last [] (.string items) []),[]⟩

def loneHigh : Text := escapesText [.unicode hexD (hexDigit 8) (hexDigit 0) (hexDigit 0)]

def pair : Text :=
  escapesText [.unicode hexD (hexDigit 8) (hexDigit 3) hexD,.unicode hexD hexE (hexDigit 0) (hexDigit 0)]

/-- One lone surrogate in one string is enough for the front ends to part. -/
theorem loneHigh_disagrees : loneHigh.render = [0x5B,0x22,0x5C,0x75,0x64,0x38,0x30,0x30,0x22,0x5D] ∧ ¬Agree rationals loneHigh := by
  have utf8 : loneHigh.doc.Utf8 := by
    intro r member
    simp at member
  refine ⟨by decide,fun agree => ?_⟩
  exact absurd (paired_of_agree rationals (by decide) utf8 agree) (by decide)

theorem pair_agrees : Agree rationals pair := by
  have utf8 : pair.doc.Utf8 := by
    intro r member
    simp at member
  exact (agree_iff_paired rationals pair (by decide) utf8).mpr (by decide)

end texts

end agreement

end Perry.Json
