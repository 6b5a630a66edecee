import Mathlib.Data.List.Rotate
import Mathlib.Tactic

/-! Members taking turns. Those in front of an index have had their turn in this round, and the
others come up before them.
-/
namespace Perry.Containers

variable {α : Type*}

/-- The members in the order of their turns. -/
def turns (members : List α) (next : Nat) : List α := members.drop next ++ members.take next

/-- The first of two members has its turn before the second, and still in this round if the second
is no member. The lists are those that had their turn and those that did not. -/
inductive Precedes (first second : α) : List α → List α → Prop
  | ahead {done sooner later : List α} (apart : second ∉ sooner) : Precedes first second done (sooner ++ first :: later)
  | around {sooner between later waiting : List α} (apart : second ∉ sooner) (absent : second ∉ waiting) :
      Precedes first second (sooner ++ first :: (between ++ second :: later)) waiting

section Turns

variable {members done waiting skipped rest : List α} {first second taken : α}

theorem turns_eq_rotate {next : Nat} (inside : next ≤ members.length) : turns members next = members.rotate next :=
  (List.rotate_eq_drop_append_take inside).symm

/-- Who had a turn goes to the end, behind those who were passed. -/
theorem turns_turn {next : Nat} (inside : next ≤ members.length) (split : turns members next = skipped ++ taken :: rest) :
    turns members ((next + skipped.length + 1) % members.length) = rest ++ skipped ++ [taken] := by
  have size := congrArg List.length split
  rw [turns_eq_rotate inside,List.length_rotate,List.length_append,List.length_cons] at size
  have whole : skipped ++ taken :: rest = (skipped ++ [taken]) ++ rest := by simp
  rw [turns_eq_rotate (Nat.mod_lt _ (by omega)).le,List.rotate_mod,Nat.add_assoc,← List.rotate_rotate,← turns_eq_rotate inside,
    split,whole,← List.length_singleton (a := taken),← List.length_append,List.rotate_append_length_eq,List.append_assoc]

/-- What is taken before a certain member stands before it. -/
theorem split_before {before after : List α} (split : before ++ first :: after = skipped ++ taken :: rest)
    (passed : first ∉ skipped) (other : taken ≠ first) : ∃ left, before = skipped ++ taken :: left := by
  obtain ⟨more,rfl,back⟩ | ⟨more,rfl,back⟩ := List.append_eq_append_iff.mp split
  · cases more with
    | nil => exact absurd (List.cons.inj back).1.symm other
    | cons head more =>
      obtain ⟨rfl,-⟩ := List.cons.inj back
      exact absurd (List.mem_append_right _ List.mem_cons_self) passed
  · cases more with
    | nil => exact absurd (List.cons.inj back).1 other
    | cons head more =>
      obtain ⟨rfl,-⟩ := List.cons.inj back
      exact ⟨more,rfl⟩

theorem take_drop_length (done left : List α) (some : left ≠ []) : (done ++ left).take (done.length % (done ++ left).length) = done ∧
    (done ++ left).drop (done.length % (done ++ left).length) = left := by
  have positive := List.length_pos_of_ne_nil some
  rw [Nat.mod_eq_of_lt (by rw [List.length_append]; omega)]
  exact ⟨List.take_left,List.drop_left⟩

theorem Precedes.of_split (rest left : List α) {next : Nat} (shape : members = rest ++ left) (some : left ≠ [])
    (place : next = rest.length ∨ next = rest.length + members.length) (precedes : Precedes first second rest left) :
    Precedes first second (members.take (next % members.length)) (members.drop (next % members.length)) := by
  have here : next % members.length = rest.length % members.length := by
    obtain rfl | rfl := place
    · rfl
    · exact Nat.add_mod_right ..
  obtain ⟨before,after⟩ := take_drop_length rest left some
  rw [here,shape,before,after]
  exact precedes

theorem Precedes.mem (precedes : Precedes first second done waiting) : first ∈ done ++ waiting := by
  cases precedes <;> simp

/-- Once everyone waiting was passed, the round starts again. -/
theorem Precedes.again {sooner later more left : List α} (shape : done = sooner ++ first :: later)
    (apart : second ∉ sooner) (front : sooner = more ++ taken :: left) (place : skipped.length = waiting.length + more.length) :
    taken ≠ second ∧
      Precedes first second ((done ++ waiting).take ((done.length + skipped.length + 1) % (done ++ waiting).length))
        ((done ++ waiting).drop ((done.length + skipped.length + 1) % (done ++ waiting).length)) := by
  rw [front,List.mem_append,List.mem_cons,not_or,not_or] at apart
  refine ⟨Ne.symm apart.2.1,.of_split (more ++ [taken]) (left ++ first :: (later ++ waiting)) ?_ (by simp)
    (.inr ?_) (.ahead apart.2.2)⟩
  · simp [shape,front]
  · simp only [List.length_append,List.length_singleton]
    omega

/-- A turn of another member is none of the second's, and leaves the order as it was. -/
theorem Precedes.turn (precedes : Precedes first second done waiting) (split : waiting ++ done = skipped ++ taken :: rest)
    (passed : first ∉ skipped) (other : taken ≠ first) : taken ≠ second ∧
      Precedes first second ((done ++ waiting).take ((done.length + skipped.length + 1) % (done ++ waiting).length))
        ((done ++ waiting).drop ((done.length + skipped.length + 1) % (done ++ waiting).length)) := by
  cases precedes with
  | @ahead done sooner later apart =>
    rw [List.append_assoc,List.cons_append] at split
    obtain ⟨left,rfl⟩ := split_before split passed other
    rw [List.mem_append,List.mem_cons,not_or,not_or] at apart
    refine ⟨Ne.symm apart.2.1,.of_split (done ++ (skipped ++ [taken])) (left ++ first :: later) ?_ (by simp)
      (.inl ?_) (.ahead apart.2.2)⟩
    · simp
    · simp only [List.length_append,List.length_singleton,Nat.add_assoc]
  | @around sooner between later waiting apart absent =>
    obtain ⟨done,shape⟩ : ∃ done, done = sooner ++ first :: (between ++ second :: later) := ⟨_,rfl⟩
    rw [← shape]
    rw [← shape] at split
    obtain ⟨more,front,back⟩ | ⟨more,front,back⟩ := List.append_eq_append_iff.mp split
    · obtain ⟨left,before⟩ := split_before (shape ▸ back) (fun member => passed (front ▸ List.mem_append_right _ member)) other
      exact Precedes.again shape apart before (by rw [front,List.length_append])
    · cases more with
      | nil =>
        obtain ⟨left,before⟩ := @split_before _ [] _ _ _ _ _ (shape ▸ back.symm) List.not_mem_nil other
        exact Precedes.again shape apart before (by rw [front,List.append_nil,List.length_nil,Nat.add_zero])
      | cons head more =>
        obtain ⟨rfl,-⟩ := List.cons.inj back
        rw [front,List.mem_append,List.mem_cons,not_or,not_or] at absent
        refine ⟨Ne.symm absent.2.1,?_⟩
        cases more with
        | nil =>
          refine .of_split [] (done ++ waiting) rfl (by simp [shape]) (.inr ?_) ?_
          · simp [front]
            omega
          · rw [shape,List.append_assoc]
            exact .ahead apart
        | cons head more =>
          refine .of_split (done ++ (skipped ++ [taken])) (head :: more) ?_ (by simp) (.inl ?_) ?_
          · simp [front]
          · simp only [List.length_append,List.length_singleton,Nat.add_assoc]
          · rw [shape,List.append_assoc,List.cons_append,List.append_assoc,List.cons_append]
            exact .around apart absent.2.2

/-- Everyone has a turn before the one that comes last. -/
theorem Precedes.of_last {before : List α} (last : waiting ++ done = before ++ [second]) (distinct : (waiting ++ done).Nodup)
    (member : first ∈ before) : Precedes first second done waiting := by
  obtain ⟨sooner,later,rfl⟩ := List.append_of_mem member
  have apart : second ∉ sooner ++ first :: later := by
    rw [last] at distinct
    exact fun twice => (List.nodup_append.mp distinct).2.2 second twice second List.mem_cons_self rfl
  rw [List.append_assoc,List.cons_append] at last
  obtain ⟨more,front,back⟩ | ⟨more,front,back⟩ := List.append_eq_append_iff.mp last
  · have shape : done = more ++ first :: (later ++ second :: []) := back
    subst shape
    rw [front,List.append_assoc,List.mem_append,List.mem_append,not_or,not_or] at apart
    exact .around apart.2.1 apart.1
  · cases more with
    | nil =>
      rw [List.append_nil] at front
      rw [List.nil_append] at back
      rw [← back,front]
      rw [← List.nil_append (first :: _)]
      refine Precedes.around List.not_mem_nil fun member => apart (List.mem_append_left _ member)
    | cons head more =>
      obtain ⟨rfl,-⟩ := List.cons.inj back
      rw [front]
      exact .ahead fun member => apart (List.mem_append_left _ member)

theorem Precedes.append (precedes : Precedes first second done waiting) (new : taken ∉ done) :
    Precedes first second done (waiting ++ [taken]) := by
  cases precedes with
  | ahead apart =>
    rw [List.append_assoc,List.cons_append]
    exact .ahead apart
  | around apart absent =>
    refine .around apart ?_
    rw [List.mem_append,List.mem_singleton,not_or]
    exact ⟨absent,fun same => new (same ▸ by simp)⟩

theorem Precedes.erase [DecidableEq α] (precedes : Precedes first second done waiting) (other : taken ≠ first) :
    Precedes first second done (waiting.erase taken) := by
  cases precedes with
  | @ahead done sooner later apart =>
    rw [List.erase_append]
    split
    · exact .ahead fun member => apart (List.mem_of_mem_erase member)
    · rw [List.erase_cons_tail (by simpa using Ne.symm other)]
      exact .ahead apart
  | around apart absent => exact .around apart fun member => absent (List.mem_of_mem_erase member)

theorem Precedes.restart (precedes : Precedes first second done []) : Precedes first second [] done := by
  generalize none : ([] : List α) = waiting at precedes
  cases precedes with
  | ahead => simp at none
  | around apart => subst none; exact .ahead apart

end Turns

end Perry.Containers
