import Perry.Strings.Compare
import Perry.Strings.ReplaceExpand

/-! The expanders produce what `GetSubstitution` does, read as code units. -/
namespace Perry.Strings.ReplaceExpand
open Unicode Substitution

section specification

/-- A range of places. -/
structure Span (n : Nat) where
  start : Nat
  stop : Nat
  ordered : start ≤ stop
  inside : stop ≤ n

/-- The record of a match, with the ranges and the names of its groups. No two groups have one name. -/
structure MatchRecord (n : Nat) where
  full : Span n
  groups : List (Option (Span n))
  names : List (Option (List Char))
  aligned : names.length = groups.length
  filled : some [] ∉ names
  distinct : names.Pairwise fun a b => a ≠ none → a ≠ b

def codes (name : List Char) : List Nat := name.map Char.toNat

namespace Span

variable {n : Nat} (span : Span n)

def of {α : Type} (text : List α) : List α := (text.drop span.start).take (span.stop - span.start)

def range : Range := (span.start,span.stop)

/-- The range that the places lie at when each symbol is encoded. -/
def through {τ : Type} (encode : Nat → List τ) (text : List Nat) (span : Span text.length) : Span (text.flatMap encode).length where
  start := ((text.take span.start).flatMap encode).length
  stop := ((text.take span.stop).flatMap encode).length
  ordered := by
    have front := (List.take_prefix_take_left span.ordered : text.take span.start <+: text.take span.stop)
    exact (front.flatMap encode).length_le
  inside := ((List.take_prefix span.stop text).flatMap encode).length_le

end Span

namespace MatchRecord

variable {n : Nat} (found : MatchRecord n)

def hasNamedGroups : Bool := found.names.any Option.isSome

/-- What the group with a name, given in code units, has captured. -/
def lookup {α : Type} (text : List α) (name : List Nat) : Option (List α) :=
  (found.names.zip found.groups).findSome? fun group =>
    if group.1.map (units ∘ codes) = some name then group.2.map (·.of text) else none

/-- `GetSubstitution` for the match, in a subject of code units. -/
def substitution (str template : List Nat) : List Nat :=
  getSubstitution id (found.full.of str) str found.full.start (found.groups.map (Option.map (·.of str)))
    (if found.hasNamedGroups then some (found.lookup str) else none) template

def through {τ : Type} (encode : Nat → List τ) (text : List Nat) (found : MatchRecord text.length) :
    MatchRecord (text.flatMap encode).length where
  full := found.full.through encode text
  groups := found.groups.map (Option.map (Span.through encode text))
  names := found.names
  aligned := by rw [List.length_map,found.aligned]
  filled := found.filled
  distinct := found.distinct

def captures : Captures where
  spans := some found.full.range :: found.groups.map (Option.map Span.range)
  names := none :: found.names.map (Option.map (wtf8 ∘ codes))

def compiled : RepeatMatcherRegex := ⟨found.names.map (Option.map (wtf8 ∘ codes))⟩

def regress : Match where
  range := found.full.range
  captures := found.groups.map (Option.map Span.range)
  groupNames := found.names.map fun name => (name.map (wtf8 ∘ codes)).getD []

end MatchRecord

end specification

section encodings

variable {τ : Type} {encode : Nat → List τ} {text : List Nat}

theorem take_encoded (encode : Nat → List τ) (text : List Nat) (i : Nat) :
    (text.flatMap encode).take ((text.take i).flatMap encode).length = (text.take i).flatMap encode := by
  have whole : text.flatMap encode = (text.take i).flatMap encode ++ (text.drop i).flatMap encode := by
    rw [← List.flatMap_append,List.take_append_drop]
  rw [whole,List.take_left]

theorem drop_encoded (encode : Nat → List τ) (text : List Nat) (i : Nat) :
    (text.flatMap encode).drop ((text.take i).flatMap encode).length = (text.drop i).flatMap encode := by
  have whole : text.flatMap encode = (text.take i).flatMap encode ++ (text.drop i).flatMap encode := by
    rw [← List.flatMap_append,List.take_append_drop]
  rw [whole,List.drop_left]

theorem of_through (span : Span text.length) : (span.through encode text).of (text.flatMap encode) = (span.of text).flatMap encode := by
  have front : (text.take span.stop).take span.start = text.take span.start := by
    rw [List.take_take,Nat.min_eq_left span.ordered]
  have within := drop_encoded encode (text.take span.stop) span.start
  rw [front,List.drop_take] at within
  rw [Span.of,Span.of,Span.through,← List.drop_take,take_encoded,within]

theorem lookup_through (found : MatchRecord text.length) (name : List Nat) :
    (found.through encode text).lookup (text.flatMap encode) name = (found.lookup text name).map (List.flatMap encode) := by
  rw [MatchRecord.lookup,MatchRecord.lookup,MatchRecord.through,List.zip_map_right,List.findSome?_map,List.map_findSome?]
  congr 1
  funext group
  obtain ⟨called,_ | span⟩ := group
  · simp only [Function.comp_apply,Prod.map_apply,Option.map_none,ite_self]
  · simp only [Function.comp_apply,Prod.map_apply,Option.map_some,id_eq]
    split_ifs
    · rw [Option.map_some,of_through]
    · rfl

/-- The texts that a template can refer to; the groups object is asked in code units. -/
def MatchRecord.source {n : Nat} (found : MatchRecord n) (spell : List Nat → List Nat) (str : List Nat) : Source Nat where
  before := str.take found.full.start
  matched := found.full.of str
  after := str.drop found.full.stop
  captures := found.groups.map (Option.map (·.of str))
  namedCaptures := if found.hasNamedGroups then some fun name => found.lookup str (spell name) else none

theorem substitution_eq {n : Nat} (found : MatchRecord n) (str template : List Nat) (size : str.length = n) :
    found.substitution str template = substitute id (found.source id str) template := by
  have ordered := found.full.ordered
  have inside := found.full.inside
  have tail : min (found.full.start + (found.full.of str).length) str.length = found.full.stop := by
    rw [Span.of,List.length_take,List.length_drop]
    omega
  rw [MatchRecord.substitution,getSubstitution,tail]
  rfl

end encodings

section names

theorem codes_scalar (name : List Char) : ∀ c ∈ codes name,isScalar c = true := by
  intro c member
  obtain ⟨char,-,rfl⟩ := List.mem_map.mp member
  rw [isScalar,decide_eq_true_iff]
  have valid := char.valid
  unfold UInt32.isValidChar Nat.isValidChar at valid
  unfold Char.toNat
  omega

theorem codes_injective {a b : List Char} (same : codes a = codes b) : a = b :=
  List.map_injective_iff.mpr (fun _ _ equal => Char.toNat_inj.mp equal) same

theorem codes_joined (name : List Char) : (codes name).IsChain fun c d => ¬ (isHigh c = true ∧ isLow d = true) := by
  apply List.Pairwise.isChain
  apply List.pairwise_of_forall_mem_list
  rintro c member d -
  have scalar := codes_scalar name c member
  rw [isScalar,decide_eq_true_iff] at scalar
  rw [isHigh,decide_eq_true_iff]
  omega

/-- A name of bytes is the name of a group where it is in code units. -/
theorem called_iff (called : Option (List Char)) {name : List Nat} (bounded : Bounded name)
    (joined : name.IsChain fun c d => ¬ (isHigh c = true ∧ isLow d = true)) :
    called.map (wtf8 ∘ codes) = some (wtf8 name) ↔ called.map (units ∘ codes) = some (units name) := by
  cases called with
  | none => exact iff_of_false nofun nofun
  | some chars =>
    have scalars := bounded_scalars (codes_scalar chars)
    rw [Option.map_some,Option.map_some,Option.some.injEq,Option.some.injEq]
    constructor
    · exact fun same => congrArg units (wtf8_injective scalars bounded same)
    · exact fun same => congrArg wtf8 (units_injective scalars bounded (codes_joined chars) joined same)

theorem idxOf_bind {γ : Type} {names : List (Option (List Char))} {groups : List (Option γ)} (aligned : names.length = groups.length)
    (distinct : names.Pairwise fun a b => a ≠ none → a ≠ b) (name : List UInt8) :
    ((names.map (Option.map (wtf8 ∘ codes))).idxOf? (some name)).bind (fun i => groups.getD i none) =
      (names.zip groups).findSome? fun group => if group.1.map (wtf8 ∘ codes) = some name then group.2 else none := by
  induction names generalizing groups with
  | nil => rfl
  | cons called names ih =>
    obtain ⟨group,groups,rfl⟩ := List.exists_cons_of_length_eq_add_one aligned.symm
    obtain ⟨apart,distinct⟩ := List.pairwise_cons.mp distinct
    rw [List.length_cons,List.length_cons,Nat.add_right_cancel_iff] at aligned
    rw [List.map_cons,List.idxOf?_cons,List.zip_cons_cons,List.findSome?_cons]
    by_cases hit : called.map (wtf8 ∘ codes) = some name
    · have others : ∀ pair ∈ names.zip groups,pair.1.map (wtf8 ∘ codes) ≠ some name := by
        intro pair member same
        obtain ⟨a,mapped,spelled⟩ := Option.map_eq_some_iff.mp hit
        obtain ⟨b,mapped',spelled'⟩ := Option.map_eq_some_iff.mp same
        have equal : a = b := codes_injective (wtf8_injective (bounded_scalars (codes_scalar a)) (bounded_scalars (codes_scalar b))
          (spelled.trans spelled'.symm))
        refine apart pair.1 (List.of_mem_zip member).1 (by rw [mapped]; exact Option.some_ne_none a) ?_
        rw [mapped,mapped',equal]
      rw [hit,if_pos (beq_self_eq_true _),if_pos rfl]
      have none_else : (names.zip groups).findSome? (fun group => if group.1.map (wtf8 ∘ codes) = some name then group.2 else none) = none :=
        List.findSome?_eq_none_iff.mpr fun pair member => if_neg (others pair member)
      rw [none_else]
      cases group <;> rfl
    · rw [if_neg hit,if_neg (by simpa using hit),← ih aligned distinct]
      cases (names.map (Option.map (wtf8 ∘ codes))).idxOf? (some name) <;> rfl

end names

section symbols

theorem transparent_encodeUtf8 {c : Nat} (small : c < 0x110000) : Transparent id UInt8.toNat encodeUtf8 c := by
  by_cases ascii : c < 0x80
  · refine .inl ⟨.ofNat c,?_,toNat_ofNat_of_lt (by omega)⟩
    rw [encodeUtf8,if_pos ascii]
  · have wide : ∀ n ∈ digits c,0x80 ≤ n := by
      unfold digits
      split_ifs <;> simp <;> omega
    rw [← digits_toNat small,List.forall_mem_map] at wide
    exact .inr ⟨Nat.not_lt.mp ascii,List.ne_nil_of_length_pos (length_encodeUtf8_pos c),wide⟩

theorem units_lt {points : List Nat} (bounded : Bounded points) : ∀ u ∈ units points,u < 0x10000 := by
  intro u member
  obtain ⟨c,inside,part⟩ := List.mem_flatMap.mp member
  have small := bounded c inside
  by_cases narrow : c < 0x10000
  · rw [unitsOf,if_pos narrow,List.mem_singleton] at part
    omega
  · rw [unitsOf,if_neg narrow,List.mem_pair] at part
    omega

theorem transparent_unitsOf (c : Nat) : Transparent id id unitsOf c := by
  by_cases narrow : c < 0x10000
  · refine .inl ⟨c,?_,rfl⟩
    rw [unitsOf,if_pos narrow]
  · refine .inr ⟨by rw [id_eq]; omega,?_⟩
    rw [unitsOf,if_neg narrow]
    refine ⟨List.cons_ne_nil _ _,List.forall_mem_cons.mpr ⟨?_,List.forall_mem_singleton.mpr ?_⟩⟩
    · rw [id_eq]
      omega
    · rw [id_eq]
      omega

theorem map_range_getD {α : Type} (l : List (Option α)) : (List.range l.length).map (fun i => l.getD i none) = l := by
  apply List.ext_getElem
  · rw [List.length_map,List.length_range]
  · intro i inside inside'
    rw [List.getElem_map,List.getElem_range,← List.getElem_eq_getD]

end symbols

section sources

variable {template : Text} {points : List Nat}

theorem encodes_units (found : MatchRecord points.length) (template : List Nat) :
    Encodes unitsOf template (found.source units points) ((found.through unitsOf points).source id (units points)) where
  before := take_encoded unitsOf points found.full.start
  matched := of_through found.full
  after := drop_encoded unitsOf points found.full.stop
  captures := by
    rw [MatchRecord.source,MatchRecord.source,MatchRecord.through,List.map_map,List.map_map]
    apply List.map_congr_left
    rintro (_ | span) -
    · rfl
    · exact congrArg some (of_through span)
  namedCaptures := by
    by_cases named : found.hasNamedGroups = true
    · refine .inr ⟨_,_,if_pos named,if_pos named,fun name _ => lookup_through found (units name)⟩
    · exact .inl ⟨if_neg named,if_neg named⟩

/-- Code units are encoded one by one. -/
theorem flatMap_unit {us : List Nat} (narrow : ∀ u ∈ us,u < 0x10000) : us.flatMap unitsOf = us := by
  induction us with
  | nil => rfl
  | cons u us ih =>
    obtain ⟨first,others⟩ := List.forall_mem_cons.mp narrow
    rw [List.flatMap_cons,ih others,unitsOf,if_pos first,List.singleton_append]

theorem appendWtf8Unit_eq {u : Nat} (narrow : u < 0x10000) : appendWtf8Unit u = encodeUtf8 u := by
  unfold appendWtf8Unit
  split_ifs with scalar
  · rfl
  · rw [isScalar,decide_eq_true_iff] at scalar
    have high : u / 4096 % 16 = u / 4096 := Nat.mod_eq_of_lt (by omega)
    rw [encodeUtf8,if_neg (by omega),if_neg (by omega),if_pos narrow,high]

theorem appendUnitRange_eq {us : List Nat} (narrow : ∀ u ∈ us,u < 0x10000) (range : Range) :
    appendUnitRange us range = ((us.drop range.1).take (range.2 - range.1)).flatMap encodeUtf8 := by
  rw [appendUnitRange,List.flatMap_def,List.flatMap_def]
  congr 1
  apply List.map_congr_left
  exact fun u member => appendWtf8Unit_eq (narrow u (List.mem_of_mem_drop (List.mem_of_mem_take member)))

theorem Span.mem {n : Nat} {α : Type} {span : Span n} {text : List α} {a : α} (member : a ∈ span.of text) : a ∈ text :=
  List.mem_of_mem_drop (List.mem_of_mem_take member)

theorem lookup_mem {n : Nat} {α : Type} (found : MatchRecord n) {text : List α} {name : List Nat} {part : List α}
    (captured : found.lookup text name = some part) : ∀ a ∈ part,a ∈ text := by
  obtain ⟨group,-,hit⟩ := List.exists_of_findSome?_eq_some captured
  split_ifs at hit
  obtain ⟨span,-,rfl⟩ := Option.map_eq_some_iff.mp hit
  exact fun a member => Span.mem member

theorem source_all {n : Nat} (found : MatchRecord n) (spell : List Nat → List Nat) {text : List Nat} {p : Nat → Prop}
    (all : ∀ c ∈ text,p c) : (found.source spell text).All p where
  before c member := all c (List.mem_of_mem_take member)
  matched c member := all c (Span.mem member)
  after c member := all c (List.mem_of_mem_drop member)
  captures group member c within := by
    obtain ⟨span,-,rfl⟩ := List.mem_map.mp member
    cases span with
    | none => cases within
    | some span => exact all c (Span.mem within)
  namedCaptures get known name c within := by
    unfold MatchRecord.source at known
    split_ifs at known
    obtain rfl := Option.some.inj known
    beta_reduce at within
    cases captured : found.lookup text (spell name) with
    | none =>
      rw [captured] at within
      cases within
    | some part =>
      rw [captured] at within
      exact all c (lookup_mem found captured c within)

/-- A subject that is code units already is its own encoding. -/
theorem encodes_narrow {n : Nat} (found : MatchRecord n) {us : List Nat} (narrow : ∀ u ∈ us,u < 0x10000) (template : List Nat) :
    Encodes unitsOf template (found.source units us) (found.source id us) where
  before := (flatMap_unit fun u member => narrow u (List.mem_of_mem_take member)).symm
  matched := (flatMap_unit fun u member => narrow u (Span.mem member)).symm
  after := (flatMap_unit fun u member => narrow u (List.mem_of_mem_drop member)).symm
  captures := by
    rw [MatchRecord.source,MatchRecord.source,List.map_map]
    apply List.map_congr_left
    rintro (_ | span) -
    · rfl
    · exact congrArg some (flatMap_unit fun u member => narrow u (Span.mem member)).symm
  namedCaptures := by
    by_cases named : found.hasNamedGroups = true
    · refine .inr ⟨_,_,if_pos named,if_pos named,fun name _ => ?_⟩
      rw [id_eq]
      cases captured : found.lookup us (units name) with
      | none =>
        rw [Option.map_none]
        exact captured
      | some part =>
        rw [Option.map_some,flatMap_unit fun u member => narrow u (lookup_mem found captured u member)]
        exact captured
    · exact .inl ⟨if_neg named,if_neg named⟩

/-- What a name in the template finds among the names in bytes. -/
theorem idxOf_called {n : Nat} {γ : Type} (found : MatchRecord n) (text : Span n → γ) {name : List Nat} (bounded : Bounded name)
    (joined : name.IsChain fun c d => ¬ (isHigh c = true ∧ isLow d = true)) :
    (((found.names.map (Option.map (wtf8 ∘ codes))).idxOf? (some (wtf8 name))).bind fun i =>
      (found.groups.map (Option.map text)).getD i none) =
      (found.names.zip found.groups).findSome? fun group =>
        if group.1.map (units ∘ codes) = some (units name) then group.2.map text else none := by
  rw [idxOf_bind (by rw [List.length_map,found.aligned]) found.distinct,List.zip_map_right,List.findSome?_map]
  congr 1
  funext group
  simp only [Function.comp_apply,Prod.map_fst,Prod.map_snd,id_eq,called_iff group.1 bounded joined]

variable {template : Text}

/-- The expanders over UTF-8 read the match where it lies in the bytes. -/
structure Reads (groups : Groups) (found : MatchRecord points.length) : Prop where
  count : groups.count = found.groups.length + 1
  full : groups.full = (found.through encodeUtf8 points).full.range
  get : ∀ g,groups.get (g + 1) = (found.groups.map (Option.map fun span => (span.through encodeUtf8 points).range)).getD g none
  name : ∀ name,groups.name name = ((found.names.map (Option.map (wtf8 ∘ codes))).idxOf? (some name)).bind fun g =>
    (found.groups.map (Option.map fun span => (span.through encodeUtf8 points).range)).getD g none

theorem slice_tail (bytes : List UInt8) (i : Nat) : slice bytes i bytes.length = bytes.drop i := by
  rw [slice,List.take_of_length_le (by rw [List.length_drop])]

theorem slice_through (span : Span points.length) :
    slice (wtf8 points) (span.through encodeUtf8 points).start (span.through encodeUtf8 points).stop = wtf8 (span.of points) :=
  of_through span

theorem Reads.encodes {groups : Groups} {found : MatchRecord points.length} (reads : Reads groups found) (template : Text) :
    Encodes encodeUtf8 template.points (found.source units points) (groups.source (wtf8 points) found.hasNamedGroups) where
  before := by
    have front := take_encoded encodeUtf8 points found.full.start
    rw [Groups.source,reads.full,slice,List.drop_zero,Nat.sub_zero]
    exact front
  matched := by
    rw [Groups.source,reads.full]
    exact slice_through found.full
  after := by
    rw [Groups.source,reads.full]
    exact (slice_tail _ _).trans (drop_encoded encodeUtf8 points found.full.stop)
  captures := by
    have ranges := map_range_getD (found.groups.map (Option.map fun span => (span.through encodeUtf8 points).range))
    rw [List.length_map] at ranges
    have texts := congrArg (List.map (Option.map fun range : Range => slice (wtf8 points) range.1 range.2)) ranges
    rw [List.map_map,List.map_map] at texts
    rw [Groups.source,reads.count,Nat.add_sub_cancel,MatchRecord.source,List.map_map]
    simp only [reads.get]
    refine texts.trans (List.map_congr_left ?_)
    rintro (_ | span) -
    · rfl
    · exact congrArg some (slice_through span)
  namedCaptures := by
    by_cases named : found.hasNamedGroups = true
    · refine .inr ⟨_,_,if_pos named,if_pos named,fun name inside => ?_⟩
      have bounded : Bounded name := fun c member => template.bounded c (inside.subset member)
      have called := congrArg (Option.map fun range : Range => slice (wtf8 points) range.1 range.2)
        (idxOf_called found (fun span => (span.through encodeUtf8 points).range) bounded ( List.IsChain.infix template.joined inside))
      rw [← reads.name] at called
      refine called.trans ?_
      rw [MatchRecord.lookup,List.map_findSome?,List.map_findSome?]
      congr 1
      funext group
      obtain ⟨name',_ | span⟩ := group
      · simp only [Function.comp_apply,Option.map_none,ite_self]
      · simp only [Function.comp_apply,Option.map_some]
        split_ifs
        · exact congrArg some (slice_through span)
        · rfl
    · exact .inl ⟨if_neg named,if_neg named⟩

/-- The empty name that stands for none is not looked for. -/
theorem idxOf_sentinel {name : List UInt8} (filled : name ≠ []) (names : List (Option (List Char))) :
    (names.map fun called => (called.map (wtf8 ∘ codes)).getD []).idxOf? name =
      (names.map (Option.map (wtf8 ∘ codes))).idxOf? (some name) := by
  induction names with
  | nil => rfl
  | cons called names ih =>
    have same : ((called.map (wtf8 ∘ codes)).getD [] == name) = (called.map (wtf8 ∘ codes) == some name) := by
      cases called with
      | none => exact beq_eq_false_iff_ne.mpr filled.symm
      | some chars => rfl
    rw [List.map_cons,List.map_cons,List.idxOf?_cons,List.idxOf?_cons,ih,same]

theorem namedGroup_regress {n : Nat} (found : MatchRecord n) {name : List Nat} (bounded : Bounded name)
    (joined : name.IsChain fun c d => ¬ (isHigh c = true ∧ isLow d = true)) :
    found.regress.namedGroup (nameOrDefault (wtf8 name)) =
      (found.names.zip found.groups).findSome? fun group =>
        if group.1.map (units ∘ codes) = some (units name) then group.2.map Span.range else none := by
  have unknown (none : ∀ called ∈ found.names,called.map (wtf8 ∘ codes) ≠ some (wtf8 name)) :
      ((found.names.zip found.groups).findSome? fun group =>
        if group.1.map (units ∘ codes) = some (units name) then group.2.map Span.range else Option.none) = Option.none := by
    refine List.findSome?_eq_none_iff.mpr fun pair member => if_neg fun hit => ?_
    exact none pair.1 (List.of_mem_zip member).1 ((called_iff pair.1 bounded joined).mpr hit)
  by_cases surrogates : name.any isSurrogate = true
  · rw [nameOrDefault,fromUtf8_wtf8 bounded,if_pos surrogates,if_neg (by exact Bool.false_ne_true),Match.namedGroup,if_pos rfl,unknown]
    intro called member hit
    obtain ⟨chars,rfl,spelled⟩ := Option.map_eq_some_iff.mp hit
    obtain ⟨c,inside,surrogate⟩ := List.any_eq_true.mp surrogates
    rw [← wtf8_injective (bounded_scalars (codes_scalar chars)) bounded spelled] at inside
    have scalar := codes_scalar chars c inside
    rw [isScalar_eq (bounded_scalars (codes_scalar chars) c inside),surrogate] at scalar
    cases scalar
  · rw [nameOrDefault,fromUtf8_wtf8 bounded,if_neg surrogates,if_pos (by rfl),Match.namedGroup]
    split_ifs with empty
    · rw [unknown]
      intro called member hit
      obtain ⟨chars,rfl,spelled⟩ := Option.map_eq_some_iff.mp hit
      have none : codes chars = [] := wtf8_injective (bounded_scalars (codes_scalar chars)) (List.forall_mem_nil _) (spelled.trans empty)
      rw [codes,List.map_eq_nil_iff] at none
      exact found.filled (none ▸ member)
    · rw [MatchRecord.regress,idxOf_sentinel empty]
      exact idxOf_called found Span.range bounded joined

theorem encodes_regress {n : Nat} (found : MatchRecord n) {us : List Nat} (narrow : ∀ u ∈ us,u < 0x10000)
    (template : Text) : Encodes encodeUtf8 template.points (found.source units us) (found.regress.source us found.hasNamedGroups) where
  before := by
    rw [Match.source,appendUnitRange_eq narrow]
    rfl
  matched := appendUnitRange_eq narrow _
  after := by
    have whole : (us.drop found.full.stop).take (us.length - found.full.stop) = us.drop found.full.stop :=
      List.take_of_length_le (by rw [List.length_drop])
    exact (appendUnitRange_eq narrow _).trans (congrArg (List.flatMap encodeUtf8) whole)
  captures := by
    have ranges := map_range_getD (found.groups.map (Option.map Span.range))
    have texts := congrArg (List.map (Option.map (appendUnitRange us))) ranges
    rw [List.map_map,List.map_map] at texts
    rw [MatchRecord.source,List.map_map]
    refine texts.trans (List.map_congr_left ?_)
    rintro (_ | span) -
    · rfl
    · exact congrArg some (appendUnitRange_eq narrow span.range)
  namedCaptures := by
    by_cases named : found.hasNamedGroups = true
    · refine .inr ⟨_,_,if_pos named,if_pos named,fun name inside => ?_⟩
      have bounded : Bounded name := fun c member => template.bounded c (inside.subset member)
      have called := congrArg (Option.map (appendUnitRange us)) (namedGroup_regress found bounded ( List.IsChain.infix template.joined inside))
      refine called.trans ?_
      rw [MatchRecord.lookup,List.map_findSome?,List.map_findSome?]
      congr 1
      funext group
      obtain ⟨name',_ | span⟩ := group
      · simp only [Function.comp_apply,Option.map_none,ite_self]
      · simp only [Function.comp_apply,Option.map_some]
        split_ifs
        · exact congrArg some (appendUnitRange_eq narrow span.range)
        · rfl
    · exact .inl ⟨if_neg named,if_neg named⟩

end sources

section results

variable {template : Text}

/-- Bytes that spell what the template stands for have the code units of `GetSubstitution`. -/
theorem utf16_substitute {s : Source Nat} {s' : Source UInt8} {s'' : Source Nat} (bytes : Encodes encodeUtf8 template.points s s')
    (codeUnits : Encodes unitsOf template.points s s'') (all : s.All (· < 0x110000)) :
    utf16 (substitute UInt8.toNat s' template.bytes) = substitute id s'' template.units := by
  have spelled := substitute_encoded bytes (fun c member => transparent_encodeUtf8 (template.bounded c member))
  have read := substitute_encoded codeUnits (fun c _ => transparent_unitsOf c)
  rw [Text.bytes,wtf8,spelled,Text.units,units,read]
  exact utf16_wtf8 (all.substitute template.bounded)

theorem expandFrom_exact {points : List Nat} (bounded : Bounded points) {groups : Groups} {found : MatchRecord points.length}
    (reads : Reads groups found) : utf16 (expandFrom groups (wtf8 points) found.hasNamedGroups template.bytes) =
      (found.through unitsOf points).substitution (units points) template.units := by
  rw [expandFrom_eq (by rw [reads.count]; exact Nat.succ_pos _)]
  refine Eq.trans ?_ (substitution_eq (found.through unitsOf points) (units points) template.units rfl).symm
  exact utf16_substitute (reads.encodes template) (encodes_units found template.points) (source_all found units bounded)

theorem appendReplacement_exact {n : Nat} (found : MatchRecord n) {us : List Nat} (narrow : ∀ u ∈ us,u < 0x10000) (size : us.length = n) :
    utf16 (appendReplacement template.bytes us found.regress) = found.substitution us template.units := by
  have named : found.regress.groupNames.any (· ≠ []) = found.hasNamedGroups := by
    rw [MatchRecord.regress,List.any_map,MatchRecord.hasNamedGroups,Bool.eq_iff_iff,List.any_eq_true,List.any_eq_true]
    refine exists_congr fun called => and_congr_right fun member => ?_
    cases called with
    | none => exact iff_of_false (by simp) (by simp)
    | some chars =>
      refine iff_of_true (decide_eq_true fun empty => ?_) rfl
      have none : codes chars = [] := wtf8_injective (bounded_scalars (codes_scalar chars)) (List.forall_mem_nil _) empty
      rw [codes,List.map_eq_nil_iff] at none
      exact found.filled (none ▸ member)
  rw [appendReplacement,appendFrom_eq,named,substitution_eq found us template.units size]
  exact utf16_substitute (encodes_regress found narrow template) (encodes_narrow found narrow template.points)
    (source_all found units fun u member => (narrow u member).trans (by decide))

theorem ranges_through {points : List Nat} (found : MatchRecord points.length) :
    (found.through encodeUtf8 points).groups.map (Option.map Span.range) =
      found.groups.map (Option.map fun span => (span.through encodeUtf8 points).range) := by
  rw [MatchRecord.through,List.map_map]
  apply List.map_congr_left
  rintro (_ | span) -
  · rfl
  · rfl

theorem Reads.captures {points : List Nat} (found : MatchRecord points.length) :
    Reads ⟨(found.through encodeUtf8 points).captures.len,(found.through encodeUtf8 points).full.range,
      (found.through encodeUtf8 points).captures.get,(found.through encodeUtf8 points).captures.name⟩ found where
  count := by
    rw [Captures.len,MatchRecord.captures,List.length_cons,ranges_through,List.length_map]
  full := rfl
  get g := by
    rw [← ranges_through]
    rfl
  name name := by
    have skip : (none == some name) = false := rfl
    change ((none :: found.names.map (Option.map (wtf8 ∘ codes))).idxOf? (some name)).bind
      (found.through encodeUtf8 points).captures.get = _
    rw [← ranges_through,List.idxOf?_cons,skip,if_neg Bool.false_ne_true,Option.bind_map]
    rfl

theorem Reads.repeatMatcher {points : List Nat} (found : MatchRecord points.length) :
    Reads ⟨(found.through encodeUtf8 points).regress.captures.length + 1,(found.through encodeUtf8 points).regress.range,
      (found.through encodeUtf8 points).regress.group,
      found.compiled.namedGroupRange (found.through encodeUtf8 points).regress⟩ found where
  count := by
    rw [MatchRecord.regress,ranges_through,List.length_map]
  full := rfl
  get g := by
    rw [← ranges_through]
    rfl
  name name := by
    rw [← ranges_through]
    rfl

/-- Each expander produces what `GetSubstitution` does; the last one also over code units that are cut within a character. -/
theorem expanders_getSubstitution (template : Text) :
    (∀ (subject : Text) (found : MatchRecord subject.units.length),
      utf16 (appendReplacement template.bytes subject.units found.regress) = found.substitution subject.units template.units) ∧
    ∀ (subject : Subject) (found : MatchRecord subject.points.length),
      let inBytes := found.through encodeUtf8 subject.points
      let inUnits := found.through unitsOf subject.points
      let text := inUnits.substitution (units subject.points) template.units
      utf16 (expandJsReplacement template.bytes inBytes.captures subject.bytes found.hasNamedGroups) = text ∧
        utf16 (expandJsReplacementFancy template.bytes inBytes.captures subject.bytes found.hasNamedGroups) = text ∧
        utf16 (found.compiled.expandReplacement template.bytes inBytes.regress subject.bytes) = text ∧
        utf16 (appendReplacement template.bytes (units subject.points) inUnits.regress) = text := by
  refine ⟨fun subject found => appendReplacement_exact found (units_lt subject.bounded) rfl,fun subject found => ?_⟩
  have bounded := bounded_scalars subject.scalars
  refine ⟨?_,?_,?_,?_⟩
  · exact expandFrom_exact bounded (Reads.captures found)
  · exact expandFrom_exact bounded (Reads.captures found)
  · have named : found.compiled.captureNames.any Option.isSome = found.hasNamedGroups := by
      rw [MatchRecord.compiled,List.any_map,MatchRecord.hasNamedGroups]
      congr 1
      funext called
      exact Option.isSome_map
    rw [RepeatMatcherRegex.expandReplacement,named]
    exact expandFrom_exact bounded (Reads.repeatMatcher found)
  · exact appendReplacement_exact _ (units_lt bounded) rfl

/-- In three places, a match with a group that has a name and one that took no part. -/
def oneNamed : MatchRecord 3 where
  full := ⟨0,3,by decide,by decide⟩
  groups := [some ⟨0,1,by decide,by decide⟩,none]
  names := [some ['x'],none]
  aligned := rfl
  filled := by decide
  distinct := by decide

example : oneNamed.captures.len = 3 ∧ oneNamed.captures.get 1 = some (0,1) ∧ oneNamed.captures.get 2 = none ∧
    oneNamed.captures.name (wtf8 (codes ['x'])) = some (0,1) ∧ oneNamed.captures.name (wtf8 (codes ['y'])) = none := by decide

example : oneNamed.regress.group 0 = some (0,3) ∧ oneNamed.regress.group 1 = some (0,1) ∧ oneNamed.regress.group 2 = none ∧
    oneNamed.regress.namedGroup (wtf8 (codes ['x'])) = some (0,1) ∧ oneNamed.regress.namedGroup [] = none := by decide

end results

end Perry.Strings.ReplaceExpand
