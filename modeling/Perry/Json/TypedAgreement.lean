import Perry.Json.TypedParser
import Perry.Json.Acceptance

/-! The typed parse against the generic one. Both read the same fields from every object;
what the typed one makes of them differs as soon as a declared field is missing, or stands
elsewhere than the declaration has it. -/
namespace Perry.Json

open Containers Direct

variable {F : Type}

section views

def slotsOf (fields : List (Field Bytes F)) : List (Bytes × Option (Value Bytes F)) :=
  fields.map fun field => (field.key,some field.value)

/-- A value of the generic parser as an element of a typed array. -/
def elementOf : Value Bytes F → Typed F
  | .object fields => .record (slotsOf fields)
  | v => .value v

def rootOf : Value Bytes F → TypedRoot F
  | .array elements => .array (elements.map elementOf)
  | v => .value v

/-- The same value to a program, which sees the own keys of an object in their order. -/
def Typed.Same : Typed F → Typed F → Prop
  | .value v,.value w => v = w
  | .record slots,.record others => ownOrder canonicalArrayIndex slots = ownOrder canonicalArrayIndex others
  | _,_ => False

def TypedRoot.Same : TypedRoot F → TypedRoot F → Prop
  | .value v,.value w => v = w
  | .array elements,.array others => List.Forall₂ Typed.Same elements others
  | _,_ => False

/-- The keys of an object of the text, as they come. -/
def Doc.recordKeys : Doc → Option (List Bytes)
  | .emptyObject _ => some []
  | .object members => some (members.keys directBytes)
  | _ => none

def Elements.records : Elements → List (List Bytes)
  | .last _ d _ => d.recordKeys.toList
  | .cons _ d _ rest => d.recordKeys.toList ++ rest.records

/-- The keys of each object in the top-level array. -/
def Text.records (t : Text) : List (List Bytes) :=
  match t.doc with
  | .array elements => elements.records
  | _ => []

/-- The declared names are distinct and each occurs among the keys, which begin with them. -/
def Declares (names keys : List Bytes) : Prop :=
  names.Nodup ∧ Covers canonicalArrayIndex names (enlist [] keys)

end views

section fields

variable (names : List Bytes)

def shape (pairs : List (Bytes × Value Bytes F)) (s : Shaping F) : Shaping F :=
  pairs.foldl (fun s pair => s.write names pair.1 pair.2) s

def setFields (pairs : List (Bytes × Value Bytes F)) (fields : List (Field Bytes F)) : List (Field Bytes F) :=
  pairs.foldl (fun fields pair => setField pair.1 pair.2 fields) fields

theorem slotsOf_setField (key : Bytes) (value : Value Bytes F) (fields : List (Field Bytes F)) :
    slotsOf (setField key value fields) = assign key (some value) (slotsOf fields) := by
  induction fields with
  | nil => rfl
  | cons field fields ih =>
    rw [setField,slotsOf,slotsOf,List.map_cons,assign]
    by_cases same : field.key = key
    · rw [if_pos same,if_pos same]
      rfl
    · rw [if_neg same,if_neg same,List.map_cons]
      exact congrArg _ ih

theorem slotsOf_setFields (pairs : List (Bytes × Value Bytes F)) (fields : List (Field Bytes F)) :
    slotsOf (setFields pairs fields) = assignAll (pairs.map fun pair => (pair.1,some pair.2)) (slotsOf fields) := by
  induction pairs generalizing fields with
  | nil => rfl
  | cons pair pairs ih => exact (ih _).trans (congrArg _ (slotsOf_setField ..))

theorem keys_slotsOf (fields : List (Field Bytes F)) : (slotsOf fields).map Prod.fst = fields.map Field.key :=
  List.map_map ..

theorem keys_setFields (pairs : List (Bytes × Value Bytes F)) :
    (setFields pairs []).map Field.key = enlist [] (pairs.map Prod.fst) := by
  rw [← keys_slotsOf,slotsOf_setFields,keys_assignAll,List.map_map]
  rfl

/-- A write to the slot of a key is an assignment to that key. -/
theorem modify_eq_assign {V : Type} {key : Bytes} (value : V) {slots : List (Bytes × V)} {i : Nat}
    (distinct : (slots.map Prod.fst).Nodup) (slot : (slots.map Prod.fst)[i]? = some key) :
    slots.modify i (fun slot => (slot.1,value)) = assign key value slots := by
  induction slots generalizing i with
  | nil => cases slot
  | cons entry slots ih =>
    obtain ⟨first,distinct⟩ := List.nodup_cons.mp distinct
    cases i with
    | zero =>
      have same : entry.1 = key := Option.some.inj slot
      rw [List.modify_zero_cons,assign,if_pos same,same]
    | succ i =>
      have slot : (slots.map Prod.fst)[i]? = some key := slot
      have other : entry.1 ≠ key := by
        rintro rfl
        exact first (List.mem_of_getElem? slot)
      rw [List.modify_succ_cons,assign,if_neg other,ih distinct slot]

theorem keys_modify {V : Type} (value : V) (slots : List (Bytes × V)) (i : Nat) :
    (slots.modify i (fun slot => (slot.1,value))).map Prod.fst = slots.map Prod.fst := by
  induction slots generalizing i with
  | nil => rw [List.modify_nil]
  | cons entry slots ih =>
    cases i with
    | zero => rfl
    | succ i => rw [List.modify_succ_cons,List.map_cons,ih,List.map_cons]

variable {names}

theorem write_declared {s : Shaping F} (declared : names <+: s.slots.map Prod.fst) (key : Bytes) (value : Value Bytes F) :
    names <+: (s.write names key value).slots.map Prod.fst := by
  unfold Shaping.write
  split
  · rwa [keys_modify]
  · rw [keys_assign]
    split
    · exact declared
    · exact declared.trans (List.prefix_append ..)

/-- The declared fields stay in front, whatever the text holds. -/
theorem shape_declared {s : Shaping F} (declared : names <+: s.slots.map Prod.fst) (pairs : List (Bytes × Value Bytes F)) :
    names <+: (shape names pairs s).slots.map Prod.fst := by
  induction pairs generalizing s with
  | nil => exact declared
  | cons pair pairs ih => exact ih (write_declared declared pair.1 pair.2)

theorem write_eq_assign {s : Shaping F} (declared : names <+: s.slots.map Prod.fst) (distinct : (s.slots.map Prod.fst).Nodup)
    (key : Bytes) (value : Value Bytes F) : (s.write names key value).slots = assign key (some value) s.slots := by
  unfold Shaping.write
  split
  · next expected =>
    refine modify_eq_assign _ distinct ?_
    obtain ⟨others,keys⟩ := declared
    obtain ⟨bound,-⟩ := List.getElem?_eq_some_iff.mp expected
    rwa [← keys,List.getElem?_append_left bound]
  · rfl

theorem shape_eq_assignAll {s : Shaping F} (declared : names <+: s.slots.map Prod.fst)
    (distinct : (s.slots.map Prod.fst).Nodup) (pairs : List (Bytes × Value Bytes F)) :
    (shape names pairs s).slots = assignAll (pairs.map fun pair => (pair.1,some pair.2)) s.slots := by
  induction pairs generalizing s with
  | nil => rfl
  | cons pair pairs ih =>
    have written := write_eq_assign declared distinct pair.1 pair.2
    have distinct' : ((s.write names pair.1 pair.2).slots.map Prod.fst).Nodup := by
      rw [written,keys_assign]
      split
      · exact distinct
      · next absent => exact List.nodup_append'.mpr ⟨distinct,List.nodup_singleton _,by simpa using absent⟩
    exact (ih (write_declared declared _ _) distinct').trans (congrArg _ written)

/-- The object that the typed parse builds is the generic one just when its fields declare the names. -/
theorem shape_same_iff (pairs : List (Bytes × Value Bytes F)) :
    ownOrder canonicalArrayIndex (shape names pairs (.start names)).slots =
        ownOrder canonicalArrayIndex (slotsOf (setFields pairs [])) ↔
      Declares names (pairs.map Prod.fst) := by
  have start : (Shaping.start (F := F) names).slots.map Prod.fst = names := by
    rw [Shaping.start,List.map_map]
    exact List.map_id names
  have declared : names <+: (Shaping.start (F := F) names).slots.map Prod.fst := by rw [start]
  by_cases distinct : names.Nodup
  · have distinct_start : ((Shaping.start (F := F) names).slots.map Prod.fst).Nodup := by rwa [start]
    rw [shape_eq_assignAll declared distinct_start,slotsOf_setFields,Shaping.start,
      show slotsOf (F := F) [] = [] from rfl,ownOrder_assignAll_iff canonicalArrayIndex_injective distinct,List.map_map]
    exact (and_iff_right distinct).symm
  · refine iff_of_false (fun same => distinct ?_) fun declares => distinct declares.1
    have perm := (ownOrder_perm canonicalArrayIndex (shape names pairs (.start names)).slots).symm
    rw [same] at perm
    replace perm := perm.trans (ownOrder_perm ..)
    have generic : ((slotsOf (setFields pairs [])).map Prod.fst).Nodup := by
      rw [keys_slotsOf,keys_setFields]
      exact nodup_enlist List.nodup_nil _
    exact ((perm.map Prod.fst).nodup_iff.mpr generic).sublist (shape_declared declared pairs).sublist

end fields

section simulation

variable (doubles : Doubles F) (names : List Bytes)

/-- What the two parses make of one element. -/
inductive Renders : Typed F → Value Bytes F → Prop
  | value {v : Value Bytes F} (plain : ∀ fields, v ≠ .object fields) : Renders (.value v) v
  | record (pairs : List (Bytes × Value Bytes F)) :
    Renders (.record (shape names pairs (.start names)).slots) (.object (setFields pairs []))

inductive RendersRoot : TypedRoot F → Value Bytes F → Prop
  | value {v : Value Bytes F} (plain : ∀ elements, v ≠ .array elements) : RendersRoot (.value v) v
  | array {elements : List (Typed F)} {values : List (Value Bytes F)} (each : List.Forall₂ (Renders names) elements values) :
    RendersRoot (.array elements) (.array values)

variable {names} in
theorem Renders.same_iff {e : Typed F} {v : Value Bytes F} (renders : Renders names e v) :
    e.Same (elementOf v) ↔ ∀ fields, v = .object fields → names.Nodup ∧ Covers canonicalArrayIndex names (fields.map Field.key) := by
  cases renders with
  | value plain =>
    have plain_view : elementOf v = .value v := by
      unfold elementOf
      split
      · next fields => exact absurd rfl (plain fields)
      · rfl
    rw [plain_view]
    exact iff_of_true rfl fun fields same => absurd same (plain fields)
  | record pairs =>
    rw [elementOf,Typed.Same,shape_same_iff,Declares,← keys_setFields]
    constructor
    · rintro declares fields ⟨⟩
      exact declares
    · exact fun all => all _ rfl

theorem elements_same_iff {elements : List (Typed F)} {values : List (Value Bytes F)}
    (each : List.Forall₂ (Renders names) elements values) : List.Forall₂ Typed.Same elements (values.map elementOf) ↔
      ∀ fields, .object fields ∈ values → names.Nodup ∧ Covers canonicalArrayIndex names (fields.map Field.key) := by
  induction each with
  | nil => exact iff_of_true .nil fun fields member => by cases member
  | cons renders _ ih =>
    rw [List.map_cons,List.forall₂_cons,renders.same_iff,ih]
    constructor
    · rintro ⟨first,others⟩ fields member
      obtain same | later := List.mem_cons.mp member
      · exact first fields same.symm
      · exact others fields later
    · intro all
      exact ⟨fun fields same => all fields (same ▸ List.mem_cons_self),
        fun fields member => all fields (List.mem_cons_of_mem _ member)⟩

variable {names} in
theorem RendersRoot.same_iff {root : TypedRoot F} {v : Value Bytes F} (renders : RendersRoot names root v) :
    root.Same (rootOf v) ↔ ∀ values, v = .array values → ∀ fields, .object fields ∈ values →
      names.Nodup ∧ Covers canonicalArrayIndex names (fields.map Field.key) := by
  cases renders with
  | value plain =>
    have plain_view : rootOf v = .value v := by
      unfold rootOf
      split
      · next elements => exact absurd rfl (plain elements)
      · rfl
    rw [plain_view]
    exact iff_of_true rfl fun elements same => absurd same (plain elements)
  | array each =>
    rw [rootOf,TypedRoot.Same,elements_same_iff names each]
    constructor
    · rintro all values ⟨⟩
      exact all
    · exact fun all => all _ rfl

end simulation

section text

variable (doubles : Doubles F)

theorem keys_setField (key : Bytes) (value : Value Bytes F) (fields : List (Field Bytes F)) :
    (setField key value fields).map Field.key = enlist (fields.map Field.key) [key] := by
  rw [← keys_slotsOf,slotsOf_setField,keys_assign,keys_slotsOf]
  rfl

theorem Members.keys_fields (decode : List Item → Bytes) : (ms : Members) → (fields : List (Field Bytes F)) →
    (ms.fields doubles decode fields).map Field.key = enlist (fields.map Field.key) (ms.keys decode)
  | .last before name mid after d close,fields => by rw [Members.fields,Members.keys,keys_setField]
  | .cons before name mid after d close rest,fields => by
    rw [Members.fields,Members.keys,rest.keys_fields decode,keys_setField]
    rfl

theorem Doc.record_iff (d : Doc) {P : List Bytes → Prop} :
    (∀ fields, d.value doubles directBytes = .object fields → P (fields.map Field.key)) ↔
      ∀ keys ∈ d.recordKeys.toList, P (enlist [] keys) := by
  cases d with
  | emptyObject gap =>
    rw [Doc.value,Doc.recordKeys,Option.toList_some,List.forall_mem_singleton]
    exact ⟨fun all => all [] rfl,fun one fields => by rintro ⟨⟩; exact one⟩
  | object members =>
    rw [Doc.value,Doc.recordKeys,Option.toList_some,List.forall_mem_singleton]
    have keys := members.keys_fields doubles directBytes []
    exact ⟨fun all => keys ▸ all _ rfl,fun one fields => by rintro ⟨⟩; exact keys ▸ one⟩
  | _ => exact iff_of_true (fun fields same => by rw [Doc.value] at same; cases same) fun keys member => by cases member

theorem Elements.records_iff {P : List Bytes → Prop} : (es : Elements) →
    ((∀ fields, .object fields ∈ es.values doubles directBytes → P (fields.map Field.key)) ↔
      ∀ keys ∈ es.records, P (enlist [] keys))
  | .last before d after => by
    rw [Elements.values,Elements.records,← d.record_iff doubles]
    exact forall_congr' fun fields => by rw [List.mem_singleton,eq_comm]
  | .cons before d after rest => by
    rw [Elements.values,Elements.records,List.forall_mem_append,← d.record_iff doubles,← rest.records_iff]
    constructor
    · intro all
      exact ⟨fun fields same => all fields (same ▸ List.mem_cons_self),
        fun fields member => all fields (List.mem_cons_of_mem _ member)⟩
    · rintro ⟨first,others⟩ fields member
      obtain same | later := List.mem_cons.mp member
      · exact first fields same.symm
      · exact others fields later

theorem Text.records_iff (t : Text) {P : List Bytes → Prop} :
    (∀ values, t.doc.value doubles directBytes = .array values → ∀ fields, .object fields ∈ values → P (fields.map Field.key)) ↔
      ∀ keys ∈ t.records, P (enlist [] keys) := by
  unfold Text.records
  split
  · next elements shape =>
    rw [shape,Doc.value,← elements.records_iff doubles]
    exact ⟨fun all => all _ rfl,fun one values => by rintro ⟨⟩; exact one⟩
  · next other =>
    refine iff_of_true (fun values same fields member => ?_) fun keys member => by cases member
    cases shape : t.doc with
    | array elements => exact absurd shape (other elements)
    | emptyArray gap =>
      rw [shape,Doc.value] at same
      cases same
      cases member
    | _ =>
      rw [shape,Doc.value] at same
      cases same

end text

end Perry.Json
