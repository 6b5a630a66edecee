import Perry.Json.LazyArray

/-! What a read of a lazy array answers is one object, in the cache, in the whole array and before and
after the switch between them. -/
namespace Perry.Json

section identity

open Tape

variable {F : Type} {doubles : Doubles F} {h after : LazyArrayHeader F} {values : List (Value Bytes F)} {elements : List (Ref F)}

namespace Tape.LazyArrayHeader

/-- The object that element `i` is from now on. -/
def known (h : LazyArrayHeader F) (i : Nat) : Option (Ref F) :=
  match h.materialized with
  | some elements => elements[i]?
  | none => h.cache[i]?.join

theorem known_of_lazy (lazy : h.materialized = none) {i : Nat} {element : Ref F} :
    h.known i = some element ↔ h.cache[i]? = some (some element) := by
  rw [known,lazy]
  exact Option.join_eq_some_iff

theorem reparse_keeps (slots : h.cache.length = h.cachedLength) {next : Nat}
    (parsed : h.reparseMaterialize doubles = some (elements,next)) {i : Nat} {element : Ref F}
    (cached : h.cache[i]? = some (some element)) : elements[i]? = some element := by
  unfold reparseMaterialize at parsed
  split at parsed
  · split at parsed
    · split at parsed
      · rename_i fresh _ _ _ size
        cases parsed
        have inside := (List.getElem?_eq_some_iff.mp cached).1
        rw [List.getElem?_zipWith,cached,List.getElem?_eq_getElem (by rw [length_allocate,size,← slots]; exact inside)]
        rfl
      · cases parsed
    · cases parsed
  · cases parsed

/-- One step of the merging walk. -/
theorem mergeWalk_cons {blob : Bytes} {tape : List TapeEntry} {endIdx idx next next' : Nat} {slot : Option (Ref F)}
    {slots : List (Option (Ref F))} (walked : mergeWalk doubles blob tape endIdx (slot :: slots) idx next = some (elements,next')) :
    ∃ first rest entry later,elements = first :: rest ∧ first = slot.getD first ∧
      mergeWalk doubles blob tape endIdx slots (hop entry idx) later = some (rest,next') := by
  rw [mergeWalk] at walked
  split at walked
  · cases slot with
    | none =>
      simp only [Option.bind_eq_bind,Option.bind_eq_some_iff] at walked
      obtain ⟨⟨first,later⟩,_,entry,_,⟨rest,last⟩,walked,done⟩ := walked
      cases done
      exact ⟨first,rest,entry,later,rfl,rfl,walked⟩
    | some kept =>
      simp only [Option.bind_eq_bind,Option.bind_eq_some_iff] at walked
      obtain ⟨_,taken,entry,_,⟨rest,last⟩,walked,done⟩ := walked
      cases taken
      cases done
      exact ⟨kept,rest,entry,next,rfl,rfl,walked⟩
  · cases walked

theorem mergeWalk_keeps {blob : Bytes} {tape : List TapeEntry} {endIdx idx next next' : Nat} {slots : List (Option (Ref F))}
    (walked : mergeWalk doubles blob tape endIdx slots idx next = some (elements,next')) {i : Nat} {element : Ref F}
    (cached : slots[i]? = some (some element)) : elements[i]? = some element := by
  induction slots generalizing idx next elements i with
  | nil => cases cached
  | cons slot slots ih =>
    obtain ⟨first,rest,entry,later,rfl,kept,walked⟩ := mergeWalk_cons walked
    cases i with
    | zero =>
      cases cached
      exact congrArg some kept
    | succ i => exact ih walked cached

/-- What the accesses rely on when they keep objects. -/
structure Shaped (h : LazyArrayHeader F) : Prop where
  slots : h.cache.length = h.cachedLength
  array : h.materialized = none → ∃ root,h.tape[h.rootIdx]? = some root ∧ root.kind = .arrStart

theorem walk_keeps (shaped : h.Shaped) (lazy : h.materialized = none) {next : Nat} (walked : h.walkMaterialize doubles = some (elements,next)) {i : Nat} {element : Ref F}
    (cached : h.cache[i]? = some (some element)) : elements[i]? = some element := by
  obtain ⟨root,found,array⟩ := shaped.array lazy
  unfold walkMaterialize at walked
  split at walked
  · rename_i none
    have member : some element ∈ h.cache.filter Option.isSome := List.mem_filter.mpr ⟨List.mem_of_getElem? cached,rfl⟩
    rw [List.length_eq_zero_iff.mp none] at member
    cases member
  · rw [found] at walked
    dsimp only at walked
    rw [if_pos array] at walked
    exact mergeWalk_keeps walked cached

/-- The switch keeps every object that was read before. -/
theorem force_keeps (shaped : h.Shaped) (forced : h.forceMaterializeLazy doubles = some (elements,after)) :
    after.materialized = some elements ∧ ∀ i element,h.known i = some element → elements[i]? = some element := by
  unfold forceMaterializeLazy at forced
  split at forced
  · rename_i same
    cases forced
    refine ⟨same,fun i element read => ?_⟩
    rw [known,same] at read
    exact read
  · rename_i lazy
    split at forced
    · rename_i parsed
      cases forced
      refine ⟨rfl,fun i element read => ?_⟩
      rw [known_of_lazy lazy] at read
      split at parsed
      · exact reparse_keeps shaped.slots parsed read
      · cases parsed
    · rw [Option.map_eq_some_iff] at forced
      obtain ⟨⟨built,next⟩,walked,done⟩ := forced
      cases done
      refine ⟨rfl,fun i element read => ?_⟩
      rw [known_of_lazy lazy] at read
      exact walk_keeps shaped lazy walked read

theorem known_cacheElement (lazy : h.materialized = none) {i idx : Nat} {value : Value Bytes F} (inside : i < h.cache.length)
    (unread : ∀ element,h.cache[i]? ≠ some (some element)) :
    (h.cacheElement i idx value).known i = some ⟨h.next,value⟩ ∧
      ∀ j element,h.known j = some element → (h.cacheElement i idx value).known j = some element := by
  have still : (h.cacheElement i idx value).materialized = none := lazy
  constructor
  · rw [known_of_lazy still]
    exact List.getElem?_set_self inside
  · intro j element read
    rw [known_of_lazy lazy] at read
    rw [known_of_lazy still]
    change (h.cache.set i _)[j]? = _
    rw [List.getElem?_set_ne]
    · exact read
    · rintro rfl
      exact unread element read

theorem Shaped.cacheElement (shaped : h.Shaped) (i idx : Nat) (value : Value Bytes F) : (h.cacheElement i idx value).Shaped where
  slots := List.length_set.trans shaped.slots
  array := shaped.array

theorem coldRead_keeps (shaped : h.Shaped) (lazy : h.materialized = none) {i idx : Nat} {first : Ref F} (inside : i < h.cache.length)
    (unread : ∀ element,h.cache[i]? ≠ some (some element)) (read : h.coldRead doubles i idx = some (first,after)) :
    (∀ j element,h.known j = some element → after.known j = some element) ∧ after.known i = some first := by
  unfold coldRead at read
  rw [Option.bind_eq_bind,Option.bind_eq_some_iff] at read
  obtain ⟨value,_,read⟩ := read
  obtain ⟨here,others⟩ := @known_cacheElement F h lazy i idx value inside unread
  dsimp only at read
  split at read
  · rw [Option.bind_eq_bind,Option.bind_eq_some_iff] at read
    obtain ⟨⟨elements,last⟩,forced,done⟩ := read
    cases done
    obtain ⟨whole,kept⟩ := force_keeps (shaped.cacheElement i idx value) forced
    have held : ∀ j element,(h.cacheElement i idx value).known j = some element → last.known j = some element := by
      intro j element known
      rw [LazyArrayHeader.known,whole]
      exact kept j element known
    exact ⟨fun j element known => held j element (others j element known),held i _ here⟩
  · cases read
    exact ⟨others,here⟩

/-- A read answers what is known from then on, and keeps the rest. -/
theorem get_keeps (shaped : h.Shaped) {i : Nat} {answer : Option (Ref F)}
    (read : h.lazyGet doubles i = some (answer,after)) :
    (∀ j element,h.known j = some element → after.known j = some element) ∧
      ∀ element,answer = some element → after.known i = some element := by
  unfold lazyGet at read
  split at read
  · rename_i same
    cases read
    refine ⟨fun _ _ kept => kept,fun element found => ?_⟩
    rw [known,same]
    exact found
  · rename_i lazy
    split at read
    · cases read
      exact ⟨fun _ _ kept => kept,fun _ none => by cases none⟩
    · rename_i within
      split at read
      · rename_i element cached
        cases read
        refine ⟨fun _ _ kept => kept,fun other same => ?_⟩
        rw [known_of_lazy lazy,cached,same]
      · rename_i unread
        have none_read {last : LazyArrayHeader F} (read : some (none,h) = some (answer,last)) :
            (∀ j element,h.known j = some element → last.known j = some element) ∧
              ∀ element,answer = some element → last.known i = some element := by
          cases read
          exact ⟨fun _ _ kept => kept,fun _ none => by cases none⟩
        split at read
        · exact none_read read
        · split at read
          · split at read
            · exact none_read read
            · split at read
              · rw [Option.map_eq_some_iff] at read
                obtain ⟨⟨first,last⟩,cold,done⟩ := read
                cases done
                have inside : i < h.cache.length := by
                  rw [shaped.slots]
                  exact Nat.not_le.mp within
                obtain ⟨kept,here⟩ := coldRead_keeps shaped lazy inside unread cold
                refine ⟨kept,fun element same => ?_⟩
                cases same
                exact here
              · exact none_read read
          · exact none_read read

end Tape.LazyArrayHeader

theorem Faithful.shaped (faithful : Faithful doubles h values) : h.Shaped where
  slots := faithful.slots.trans faithful.length.symm
  array lazy := by
    obtain ⟨root,found,array,_⟩ := (faithful.backed lazy).root
    exact ⟨root,faithful.rooted ▸ found,array⟩

/-- One array of objects answers a whole run. -/
theorem runLazy_refs (faithful : Faithful doubles h values) (ops : List LazyOp) :
    ∃ refs : List (Ref F),refs.map Ref.value = values ∧ (∀ i element,h.known i = some element → refs[i]? = some element) ∧
      runLazy doubles h ops = some (ops.map (answerOf refs)) := by
  induction ops generalizing h with
  | nil =>
    obtain ⟨elements,after,forced,same,_⟩ := faithful.force
    exact ⟨elements,same,(LazyArrayHeader.force_keeps faithful.shaped forced).2,rfl⟩
  | cons op ops ih =>
    cases op with
    | get i =>
      obtain ⟨answer,after,read,value,later⟩ := faithful.get i
      obtain ⟨kept,here⟩ := LazyArrayHeader.get_keeps faithful.shaped read
      obtain ⟨refs,same,all,answered⟩ := ih later
      have found : answer = refs[i]? := by
        cases answer with
        | some element => exact (all i element (here element rfl)).symm
        | none =>
          rw [← same,List.getElem?_map] at value
          exact (Option.map_eq_none_iff.mp value.symm).symm
      refine ⟨refs,same,fun j element read => all j element (kept j element read),?_⟩
      rw [runLazy,accessLazy,read,found]
      simp [answered,answerOf]
    | force =>
      obtain ⟨elements,after,forced,value,later⟩ := faithful.force
      obtain ⟨whole,kept⟩ := LazyArrayHeader.force_keeps faithful.shaped forced
      obtain ⟨refs,same,all,answered⟩ := ih later
      have found : elements = refs := by
        have size : elements.length = refs.length := by
          rw [← List.length_map Ref.value,value,← same,List.length_map]
        apply List.ext_getElem size
        intro i left right
        have read : after.known i = some elements[i] := by
          rw [LazyArrayHeader.known,whole]
          exact List.getElem?_eq_getElem left
        have held := all i _ read
        rw [List.getElem?_eq_getElem right] at held
        exact (Option.some.inj held).symm
      refine ⟨refs,same,fun j element read => found ▸ kept j element read,?_⟩
      rw [runLazy,accessLazy,forced,found]
      simp [answered,answerOf]

end identity

end Perry.Json
