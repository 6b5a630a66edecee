import Perry.Json.Agreement

/-! When the reads of a lazy array agree with the parsed text. -/
namespace Perry.Json

section reads

open Tape

variable {F : Type} (doubles : Doubles F)

/-- The lazy array of a text has the length of the parsed array, and one array of objects with the
parsed values answers every run of reads and switches. -/
def LazyReads (t : Text) (elements : List (Value Bytes F)) : Prop :=
  ∃ tape,buildTape t.render = some tape ∧ countArrayLength tape 0 = some elements.length ∧
    ∀ next ops,∃ refs : List (Ref F),refs.map (·.value.units) = elements.map Value.units ∧
      runLazy doubles (allocLazyArray tape 0 elements.length t.render next) ops = some (ops.map (answerOf refs))

variable {elements : List (Value Bytes F)} {t : Text}

theorem lazyReads_of_paired (small : t.render.length < 2 ^ 32) (parsed : Direct.parse doubles t.render = some (.array elements))
    (pairs : t.doc.paired = true) : LazyReads doubles t elements := by
  rw [parse_render] at parsed
  have directs := Option.some.inj parsed
  have tapes := (t.doc.value_eq doubles pairs).trans directs
  refine ⟨_,buildTape_render t small,countArrayLength_render doubles t tapes,fun next ops => ?_⟩
  obtain ⟨refs,same,_,answered⟩ := runLazy_refs (faithful_alloc (t.backed doubles tapes directs) next) ops
  refine ⟨refs,?_,answered⟩
  rw [← same,List.map_map]
  rfl

/-- A first read takes the element from the tape and is no reason to switch. -/
theorem lazyGet_alloc {tape : List TapeEntry} {blob : Bytes} {root : TapeEntry} (found : tape[0]? = some root)
    (array : root.kind = .arrStart) (laid : Laid doubles blob tape root.link 1 elements) {i : Nat} (inside : i < elements.length)
    (next : Nat) : ∃ after,(allocLazyArray tape 0 elements.length blob next).lazyGet doubles i =
      some (some ⟨next,elements[i]⟩,after) := by
  obtain ⟨pos,walked,place⟩ := laid.walk i (Nat.le_of_lt inside)
  rw [List.drop_eq_getElem_cons inside] at place
  cases place with
  | cons within entry read _ =>
    generalize fresh : allocLazyArray tape 0 elements.length blob next = h
    have lazy : h.materialized = none := fresh ▸ rfl
    have short : ¬h.cachedLength ≤ i := fresh ▸ Nat.not_le.mpr inside
    have empty : h.cache[i]? = some none := by
      subst fresh
      change (List.replicate elements.length none)[i]? = _
      rw [List.getElem?_replicate,if_pos inside]
    have rooted : h.tape[h.rootIdx]? = some root := fresh ▸ found
    have start : h.cursor i = (0,1) := fresh ▸ rfl
    have reached : walkTo h.tape root.link i 1 = some pos := fresh ▸ walked
    have cold : h.coldRead doubles i pos = some (⟨next,elements[i]⟩,h.cacheElement i pos elements[i]) := by
      subst fresh
      rw [LazyArrayHeader.coldRead]
      change (materializeFromIdx doubles blob tape pos).bind _ = _
      rw [read,Option.bind_some]
      apply if_neg
      change ¬(elements.length * 2 < 0 + (i - 0) ∨ max 64 (elements.length / 64) ≤ 1 ∧ _)
      omega
    refine ⟨h.cacheElement i pos elements[i],?_⟩
    simp only [LazyArrayHeader.lazyGet,lazy,if_neg short,empty,rooted,if_pos array,start,Nat.sub_zero,reached,if_pos within,cold,
      Option.map_some]

theorem mapElements_eq {S T : Type} (f : S → T) (values : List (Value S F)) : mapElements f values = values.map (Value.map f) := by
  induction values with
  | nil => rw [mapElements,List.map_nil]
  | cons value values ih => rw [mapElements,ih,List.map_cons]

theorem exists_tapes (parsed : Direct.parse doubles t.render = some (.array elements)) :
    ∃ values,t.doc.value doubles tapeBytes = .array values := by
  rw [parse_render] at parsed
  have directs := Option.some.inj parsed
  cases shape : t.doc with
  | emptyArray gap => exact ⟨_,rfl⟩
  | array elements => exact ⟨_,rfl⟩
  | bool b => cases b <;> simp [shape,Doc.value] at directs
  | _ => simp [shape,Doc.value] at directs

/-- Where every element is read alone, the tape has the parsed elements. -/
theorem paired_of_lazyReads (small : t.render.length < 2 ^ 32) (utf8 : t.doc.Utf8)
    (parsed : Direct.parse doubles t.render = some (.array elements)) (reads : LazyReads doubles t elements) :
    t.doc.paired = true := by
  obtain ⟨values,tapes⟩ := exists_tapes doubles parsed
  obtain ⟨tape,built,counted,answers⟩ := reads
  rw [parse_render] at parsed
  rw [buildTape_render t small] at built
  cases built
  rw [countArrayLength_render doubles t tapes] at counted
  have size : values.length = elements.length := Option.some.inj counted
  obtain ⟨root,found,array,laid⟩ := t.laid doubles tapes
  have units : values.map Value.units = elements.map Value.units := by
    apply List.ext_getElem
    · rw [List.length_map,List.length_map,size]
    · intro i left right
      rw [List.length_map] at left right
      obtain ⟨refs,same,answered⟩ := answers 0 [.get i]
      obtain ⟨after,read⟩ := lazyGet_alloc doubles found array laid left 0
      rw [size] at read
      rw [runLazy,accessLazy,read] at answered
      simp [runLazy,answerOf] at answered
      have value : (refs.map (·.value.units))[i]? = (elements.map Value.units)[i]? := congrArg (·[i]?) same
      rw [List.getElem?_map,← answered,List.getElem?_map,List.getElem?_eq_getElem (size ▸ left)] at value
      rw [List.getElem_map,List.getElem_map]
      exact Option.some.inj value
  have same : (t.doc.value doubles tapeBytes).units = (t.doc.value doubles directBytes).units := by
    rw [tapes,Option.some.inj parsed]
    unfold Value.units
    rw [Value.map,Value.map,mapElements_eq,mapElements_eq]
    exact congrArg Value.array units
  exact t.doc.paired_of_units utf8 same

/-- The reads of a lazy array are faithful and keep identity exactly when the surrogate escapes of its
text stand in pairs. -/
theorem lazyReads_iff_paired (t : Text) (small : t.render.length < 2 ^ 32) (utf8 : t.doc.Utf8) {elements : List (Value Bytes F)}
    (parsed : Direct.parse doubles t.render = some (.array elements)) : LazyReads doubles t elements ↔ t.doc.paired = true :=
  ⟨paired_of_lazyReads doubles small utf8 parsed,lazyReads_of_paired doubles small parsed⟩

theorem pair_reads : ∃ elements,Direct.parse rationals pair.render = some (.array elements) ∧ LazyReads rationals pair elements := by
  have utf8 : pair.doc.Utf8 := by
    intro r member
    simp at member
  have parsed := parse_render rationals pair
  exact ⟨_,parsed,(lazyReads_iff_paired rationals pair (by decide) utf8 parsed).mpr (by decide)⟩

/-- The string of one lone surrogate is read as the empty one. -/
theorem loneHigh_reads : ∃ elements,Direct.parse rationals loneHigh.render = some (.array elements) ∧
    ¬LazyReads rationals loneHigh elements := by
  have utf8 : loneHigh.doc.Utf8 := by
    intro r member
    simp at member
  have parsed := parse_render rationals loneHigh
  refine ⟨_,parsed,fun reads => ?_⟩
  exact absurd (paired_of_lazyReads rationals (by decide) utf8 parsed reads) (by decide)

end reads

end Perry.Json
