import Perry.Sorting.ComparatorRuns

/-! The sort of a receiver by a comparator: what is left in the receiver, what the comparator is
asked, and what a comparator that throws leaves behind. -/
namespace Perry.Sorting

open Effect Run Strings

variable {σ ε V B : Type}

def Slot.value? : Slot V → Option V
  | .defined v => some v
  | _ => none

def Slot.isUndefined : Slot V → Bool
  | .undefined => true
  | _ => false

def Slot.isHole : Slot V → Bool
  | .hole => true
  | _ => false

def definedOf (cells : List (Slot V)) : List V := cells.filterMap Slot.value?

/-- The values, then what was undefined, then the holes. -/
def settled (cells : List (Slot V)) (sorted : List V) : List (Slot V) :=
  slotsOf sorted ++ List.replicate (cells.countP Slot.isUndefined) .undefined ++
    List.replicate (cells.countP Slot.isHole) .hole

/-- The states that the comparator reaches by being called, without a throw, on these values. -/
def Asked (c : ComparatorCall σ ε V B) (vals : List V) : σ → σ → Prop :=
  Relation.ReflTransGen fun s t => ∃ a ∈ vals,∃ b ∈ vals,∃ n,compareAt c (.defined a) (.defined b) s = (.ok n,t)

/-- On these values the comparator answers, and as the order does. -/
def Consistent (c : ComparatorCall σ ε V B) (le : V → V → Bool) (vals : List V) : Prop :=
  ∀ a ∈ vals,∀ b ∈ vals,∀ s,∃ n t,compareAt c (.defined a) (.defined b) s = (.ok n,t) ∧ atMostZero n = le a b

section cells

theorem definedOf_defined (v : V) (cells : List (Slot V)) : definedOf (.defined v :: cells) = v :: definedOf cells := rfl

theorem definedOf_undefined (cells : List (Slot V)) : definedOf (.undefined :: cells) = definedOf cells := rfl

theorem definedOf_hole (cells : List (Slot V)) : definedOf (.hole :: cells) = definedOf cells := rfl

theorem slotsOf_definedOf {cells : List (Slot V)} (plain : cells.any Slot.special = false) :
    cells = slotsOf (definedOf cells) ∧ cells.countP Slot.isUndefined = 0 ∧ cells.countP Slot.isHole = 0 := by
  induction cells with
  | nil => exact ⟨rfl,rfl,rfl⟩
  | cons cell cells ih =>
    rw [List.any_cons,Bool.or_eq_false_iff] at plain
    obtain ⟨first,others⟩ := plain
    obtain ⟨whole,undefineds,holes⟩ := ih others
    cases cell with
    | defined v => exact ⟨congrArg (Slot.defined v :: ·) whole,undefineds,holes⟩
    | undefined => cases first
    | hole => cases first

theorem length_cells (cells : List (Slot V)) :
    (definedOf cells).length + cells.countP Slot.isUndefined + cells.countP Slot.isHole = cells.length := by
  induction cells with
  | nil => rfl
  | cons cell cells ih =>
    rw [List.countP_cons,List.countP_cons,List.length_cons,← ih]
    cases cell with
    | defined v =>
      rw [definedOf_defined,List.length_cons]
      simp only [Slot.isUndefined,Slot.isHole,Bool.false_eq_true,if_false]
      omega
    | undefined =>
      rw [definedOf_undefined]
      simp only [Slot.isUndefined,Slot.isHole,Bool.false_eq_true,if_true,if_false]
      omega
    | hole =>
      rw [definedOf_hole]
      simp only [Slot.isUndefined,Slot.isHole,Bool.false_eq_true,if_true,if_false]
      omega

theorem settled_plain {cells : List (Slot V)} (plain : cells.any Slot.special = false) (sorted : List V) :
    settled cells sorted = slotsOf sorted := by
  obtain ⟨-,undefineds,holes⟩ := slotsOf_definedOf plain
  rw [settled,undefineds,holes,List.replicate_zero,List.replicate_zero,List.append_nil,List.append_nil]

end cells

section receiver

variable {c : ComparatorCall σ ε V B} {good : V → Prop} {answers : V → V → Bool → Prop} {I : σ → Prop}
  {abrupt : ε → σ → Prop} {slots : List (Slot V)} {f : Rooted → List (Slot V)} (toString : Slot V → Option StringHeader)
  {E : ε → Memory σ V → Prop}

theorem sortComparatorRooted_arranges (asks : Asks (comparatorLe c) good answers I abrupt) {vals : List V}
    (goods : ∀ v ∈ vals,good v) (kept : f .receiver = slots) (shape : f .temp = slotsOf vals)
    (room : (f .scratch).length = vals.length) :
    Triple (Holds I f) (sortComparatorRooted c .temp .scratch vals.length)
      (fun _ m => ∃ g bs,Holds I g m ∧ Arranges answers vals bs ∧ g .receiver = slots ∧ g .temp = slotsOf bs)
      (Kept slots abrupt) := by
  have shape' : f .temp = [] ++ slotsOf vals := shape
  apply Triple.bind (insertionRuns_runs asks (by decide) goods kept rfl (Nat.zero_add _).symm shape')
  rintro _ m ⟨zs,runs,holds⟩
  rw [← runs.perm.length_eq]
  apply stableMergeSortRooted_arranges asks (by decide) (by decide) (by decide) _ runs goods _ _ _ m holds
  · decide
  · rw [Function.update_of_ne (by decide),kept]
  · rw [Function.update_self]
    rfl
  · rw [Function.update_of_ne (by decide),room,runs.perm.length_eq]

theorem arranges_short {vals : List V} (short : vals.length ≤ 1) : Arranges answers vals vals := by
  cases vals with
  | nil => exact .nil
  | cons v vals =>
    rw [List.length_eq_zero_iff.mp (Nat.le_zero.mp (Nat.le_of_succ_le_succ short))]
    have alone : Arranges answers ([] ++ [v]) [v] := .insert .nil (.bottom v)
    exact alone

theorem sortRootedValues_arranges (asks : Asks (comparatorLe c) good answers I abrupt) {vals : List V}
    (goods : ∀ v ∈ vals,good v) (kept : f .receiver = slots) (shape : f .temp = slotsOf vals) :
    Triple (Holds I f) (sortRootedValues toString vals.length (some c))
      (fun _ m => ∃ g bs,Holds I g m ∧ Arranges answers vals bs ∧ g .receiver = slots ∧ g .temp = slotsOf bs)
      (Kept slots abrupt) := by
  rw [sortRootedValues]
  apply Triple.ite
  · intro short
    apply pure_holds
    intro m holds
    exact ⟨f,vals,holds,arranges_short short,kept,shape⟩
  · intro long
    apply put_then
    apply sortComparatorRooted_arranges asks goods
    · rw [Function.update_of_ne (by decide),kept]
    · rw [Function.update_of_ne (by decide),shape]
    · rw [Function.update_self,List.length_replicate]

theorem gather_counts {cells done old : List (Slot V)} {count undefCount holeCount : Nat} (shape : f .temp = done ++ old)
    (place : done.length = count) (room : (definedOf cells).length ≤ old.length) :
    Triple (Holds I f) (gather cells count undefCount holeCount)
      (fun r m => r = (count + (definedOf cells).length,undefCount + cells.countP Slot.isUndefined,
        holeCount + cells.countP Slot.isHole) ∧
        Holds I (Function.update f .temp (done ++ slotsOf (definedOf cells) ++ old.drop (definedOf cells).length)) m) E := by
  induction cells generalizing f done old count undefCount holeCount with
  | nil =>
    apply pure_holds
    intro m holds
    have same : done ++ slotsOf (definedOf []) ++ old.drop (definedOf ([] : List (Slot V))).length = f .temp := by
      rw [shape]
      simp [definedOf,slotsOf]
    exact ⟨rfl,by rwa [same,Function.update_eq_self]⟩
  | cons cell cells ih =>
    cases cell with
    | defined v =>
      rw [definedOf_defined,List.length_cons] at room
      cases old with
      | nil => exact absurd room (Nat.not_succ_le_zero _)
      | cons o old =>
        apply set_then
        have shape' : done ++ Slot.defined v :: old = done ++ [.defined v] ++ old := List.append_cons _ _ _
        rw [shape,set_middle place,shape']
        apply (ih (Function.update_self .temp _ f) (by rw [List.length_append,place]; rfl) (Nat.le_of_succ_le_succ room)).post
        rintro r m ⟨rfl,holds⟩
        rw [Function.update_idem] at holds
        refine ⟨?_,by simpa [definedOf_defined,slotsOf] using holds⟩
        rw [definedOf_defined,List.length_cons,Nat.add_right_comm,Nat.add_assoc count]
        rfl
    | undefined =>
      apply (ih shape place room).post
      rintro r m ⟨rfl,holds⟩
      refine ⟨?_,holds⟩
      rw [definedOf_undefined,List.countP_cons_of_pos rfl,Nat.add_assoc,Nat.add_comm 1]
      rfl
    | hole =>
      apply (ih shape place room).post
      rintro r m ⟨rfl,holds⟩
      refine ⟨?_,holds⟩
      rw [definedOf_hole,List.countP_cons_of_pos (p := Slot.isHole) rfl,Nat.add_assoc holeCount,Nat.add_comm 1]
      rfl

theorem fill_fills {a : Rooted} {done old : List (Slot V)} {start count : Nat} (slot : Slot V) (shape : f a = done ++ old)
    (place : done.length = start) (room : count ≤ old.length) :
    Triple (Holds I f) (fill a start count slot)
      (fun _ => Holds I (Function.update f a (done ++ List.replicate count slot ++ old.drop count))) E := by
  rw [fill]
  induction count generalizing f done old start with
  | zero =>
    apply pure_holds
    intro m holds
    have same : done ++ List.replicate 0 slot ++ old.drop 0 = f a := by rw [List.replicate_zero,List.append_nil,shape]; rfl
    rwa [same,Function.update_eq_self]
  | succ count ih =>
    cases old with
    | nil => exact absurd room (Nat.not_succ_le_zero _)
    | cons o old =>
      apply set_then
      have shape' : done ++ slot :: old = done ++ [slot] ++ old := List.append_cons _ _ _
      rw [shape,set_middle place,shape']
      apply (ih (Function.update_self a _ f) (by rw [List.length_append,place]; rfl) (Nat.le_of_succ_le_succ room)).post
      intro _ m holds
      rw [Function.update_idem] at holds
      simpa [List.replicate_succ] using holds

theorem cells_short {cells : List (Slot V)} (short : cells.length ≤ 1) : settled cells (definedOf cells) = cells := by
  cases cells with
  | nil => rfl
  | cons cell cells =>
    rw [List.length_eq_zero_iff.mp (Nat.le_zero.mp (Nat.le_of_succ_le_succ short))]
    cases cell <;> rfl

theorem sortSpecial_arranges (asks : Asks (comparatorLe c) good answers I abrupt) (goods : ∀ v ∈ definedOf slots,good v)
    (kept : f .receiver = slots) :
    Triple (Holds I f) (sortSpecial toString (some c) slots)
      (fun _ m => ∃ sorted,Arranges answers (definedOf slots) sorted ∧ m.elems .receiver = settled slots sorted ∧ I m.host)
      (Kept slots abrupt) := by
  have total := length_cells slots
  have room : (definedOf slots).length ≤ (List.replicate slots.length (Slot.hole (V := V))).length := by
    rw [List.length_replicate]
    omega
  have fresh : Function.update f .temp (List.replicate slots.length .hole) .temp = [] ++ List.replicate slots.length .hole :=
    Function.update_self _ _ f
  apply put_then
  apply Triple.bind (gather_counts fresh rfl room)
  rintro _ m ⟨rfl,holds⟩
  simp only [List.length_nil,Nat.zero_add]
  rw [Function.update_idem] at holds
  apply truncate_then _ m holds
  rw [Function.update_idem,Function.update_self,List.nil_append,← slotsOf_length (definedOf slots),List.take_left,slotsOf_length]
  apply Triple.bind (sortRootedValues_arranges toString asks goods (by rw [Function.update_of_ne (by decide),kept]) (Function.update_self _ _ f))
  rintro _ m ⟨g,bs,holds,arranged,kept',shape⟩
  have size : bs.length = (definedOf slots).length := arranged.perm.length_eq
  have count : (g .temp).length = (definedOf slots).length := by rw [shape,slotsOf_length,size]
  apply Triple.bind (copyElems_copies (by decide) count (by rw [kept']; omega)) _ m holds
  intro _
  rw [shape,kept']
  apply Triple.bind (fill_fills .undefined (Function.update_self .receiver _ g) (by rw [slotsOf_length,size])
    (by rw [List.length_drop]; omega))
  intro _
  rw [Function.update_idem]
  apply (fill_fills .hole (Function.update_self .receiver _ g) (by rw [List.length_append,slotsOf_length,size,List.length_replicate])
    (by rw [List.length_drop,List.length_drop]; omega)).post
  rintro _ m ⟨same,inside⟩
  refine ⟨bs,arranged,?_,inside⟩
  have rest : ((slots.drop (definedOf slots).length).drop (slots.countP Slot.isUndefined)).drop (slots.countP Slot.isHole) = [] := by
    rw [List.drop_drop,List.drop_drop,List.drop_eq_nil_iff]
    omega
  rw [same,Function.update_idem,Function.update_self,rest,List.append_nil,settled]

theorem sortDense_arranges (asks : Asks (comparatorLe c) good answers I abrupt) (goods : ∀ v ∈ definedOf slots,good v)
    (plain : slots.any Slot.special = false) (kept : f .receiver = slots) :
    Triple (Holds I f) (sortDense c slots.length)
      (fun _ m => ∃ sorted,Arranges answers (definedOf slots) sorted ∧ m.elems .receiver = settled slots sorted ∧ I m.host)
      (Kept slots abrupt) := by
  have whole := (slotsOf_definedOf plain).1
  have size : slots.length = (definedOf slots).length := (congrArg List.length whole).trans (slotsOf_length _)
  have fresh : Function.update f .temp (List.replicate slots.length .hole) .receiver = slots := by
    rw [Function.update_of_ne (by decide),kept]
  have room : (Function.update f .temp (List.replicate slots.length .hole) .temp).length = slots.length := by
    rw [Function.update_self,List.length_replicate]
  apply put_then
  apply Triple.bind (copyElems_copies (by decide) (congrArg List.length fresh) room.ge)
  intro _
  rw [Function.update_idem,fresh,List.drop_of_length_le room.le,List.append_nil]
  apply put_then
  rw [size]
  apply Triple.bind (sortComparatorRooted_arranges asks goods _ _ _)
  · rintro _ m ⟨g,bs,holds,arranged,kept',shape⟩
    have count : (g .temp).length = (definedOf slots).length := by rw [shape,slotsOf_length,arranged.perm.length_eq]
    have room' : (g .receiver).length = (definedOf slots).length := by rw [kept',size]
    apply (copyElems_copies (by decide) count room'.ge).post _ m holds
    rintro _ m ⟨same,inside⟩
    refine ⟨bs,arranged,?_,inside⟩
    rw [same,Function.update_self,shape,List.drop_of_length_le room'.le,List.append_nil,settled_plain plain]
  · rw [Function.update_of_ne (by decide),Function.update_of_ne (by decide),kept]
  · rw [Function.update_of_ne (by decide),Function.update_self,← whole]
  · rw [Function.update_self,List.length_replicate]

/-- A receiver is arranged by the answers, and where a call ends abruptly it is as it was. -/
theorem sortArrayReceiver_arranges (asks : Asks (comparatorLe c) good answers I abrupt)
    (goods : ∀ v ∈ definedOf slots,good v) :
    Triple (fun m => m.elems .receiver = slots ∧ I m.host) (sortArrayReceiver toString (some c))
      (fun _ m => ∃ sorted,Arranges answers (definedOf slots) sorted ∧ m.elems .receiver = settled slots sorted ∧ I m.host)
      (Kept slots abrupt) := by
  rintro m ⟨kept,inside⟩
  unfold sortArrayReceiver
  simp only [kept]
  split_ifs with short special
  · have all := length_cells slots
    exact ⟨definedOf slots,arranges_short (by omega),kept.trans (cells_short short).symm,inside⟩
  · exact sortSpecial_arranges toString asks goods kept m ⟨rfl,inside⟩
  · exact sortDense_arranges asks goods (Bool.eq_false_iff.mpr special) kept m ⟨rfl,inside⟩

end receiver

section claims

variable {c : ComparatorCall σ ε V B} {vals : List V} {s : σ} {le : V → V → Bool}

theorem asks_asked (c : ComparatorCall σ ε V B) (vals : List V) (s : σ) :
    Asks (comparatorLe c) (· ∈ vals) (fun _ _ _ => True) (Asked c vals s) fun e t =>
      ∃ u,Asked c vals s u ∧ ∃ a ∈ vals,∃ b ∈ vals,compareAt c (.defined a) (.defined b) u = (.error e,t) := by
  intro a b memberA memberB
  apply Triple.bind (Q := fun _ => Asked c vals s)
  · intro u asked
    rcases reply : compareAt c (.defined a) (.defined b) u with ⟨e | n,t⟩
    · exact ⟨u,asked,a,memberA,b,memberB,reply⟩
    · exact asked.tail ⟨a,memberA,b,memberB,n,reply⟩
  · exact fun n => Triple.pure fun t asked => ⟨trivial,asked⟩

theorem asks_consistent (consistent : Consistent c le vals) :
    Asks (comparatorLe c) (· ∈ vals) (Orders le) (fun _ => True) fun _ _ => False := by
  intro a b memberA memberB u _
  obtain ⟨n,t,reply,answer⟩ := consistent a memberA b memberB u
  rw [comparatorLe,bind_ok reply]
  exact ⟨answer,trivial⟩

end claims

/-- The sort ends, with the values in some order, what was undefined behind them and the holes last;
the comparator was asked about values of the receiver only. Where a call threw, the receiver is as
it was. A comparator that answers as an order does gives the one stable sort. -/
theorem sortArrayReceiver_exact (toString : Slot V → Option StringHeader) (c : ComparatorCall σ ε V B) (m : Memory σ V) :
    (match sortArrayReceiver toString (some c) m with
      | (.ok _,m') => Asked c (definedOf (m.elems .receiver)) m.host m'.host ∧
        ∃ sorted,sorted.Perm (definedOf (m.elems .receiver)) ∧ m'.elems .receiver = settled (m.elems .receiver) sorted
      | (.error e,m') => m'.elems .receiver = m.elems .receiver ∧
        ∃ s,Asked c (definedOf (m.elems .receiver)) m.host s ∧ ∃ a ∈ definedOf (m.elems .receiver),
          ∃ b ∈ definedOf (m.elems .receiver),compareAt c (.defined a) (.defined b) s = (.error e,m'.host)) ∧
    ∀ le,TotalPreorder le → Consistent c le (definedOf (m.elems .receiver)) →
      ∃ m' sorted,sortArrayReceiver toString (some c) m = (.ok (),m') ∧ m'.elems .receiver = settled (m.elems .receiver) sorted ∧
        ∀ other,IsStableSort le (definedOf (m.elems .receiver)) other ↔ other = sorted := by
  refine ⟨?_,fun le order consistent => ?_⟩
  · have ended := sortArrayReceiver_arranges toString (asks_asked c (definedOf (m.elems .receiver)) m.host)
      (fun v member => member) m ⟨rfl,.refl⟩
    rcases ran : sortArrayReceiver toString (some c) m with ⟨e | _,m'⟩
    · rw [ran] at ended
      exact ended
    · rw [ran] at ended
      obtain ⟨sorted,arranged,shape,asked⟩ := ended
      exact ⟨asked,sorted,arranged.perm,shape⟩
  · have ended := sortArrayReceiver_arranges toString (asks_consistent consistent) (fun v member => member) m ⟨rfl,trivial⟩
    rcases ran : sortArrayReceiver toString (some c) m with ⟨e | _,m'⟩
    · rw [ran] at ended
      exact ended.2.elim
    · rw [ran] at ended
      obtain ⟨sorted,arranged,shape,-⟩ := ended
      have stable := arranged.stable order
      refine ⟨m',sorted,rfl,shape,fun other => ⟨fun also => also.unique order stable,?_⟩⟩
      rintro rfl
      exact stable

section pairs

/-- Compares the first numbers of pairs, and counts its calls. -/
def byFirst : ComparatorCall Nat Empty (Nat × Nat) Empty where
  call a b s := match a,b with
    | .defined a,.defined b => (.ok (.number (.infinite (a.1 ≤ b.1))),s + 1)
    | _,_ => (.ok (.number positiveZero),s + 1)
  jsNumberCoerce _ := pure positiveZero

def firsts (a b : Nat × Nat) : Bool := a.1 ≤ b.1

theorem firsts_order : TotalPreorder firsts where
  total a b := by
    rw [firsts,firsts,Bool.or_eq_true,decide_eq_true_iff,decide_eq_true_iff]
    exact Nat.le_total a.1 b.1
  trans a b c below above := decide_eq_true ((of_decide_eq_true below).trans (of_decide_eq_true above))

theorem byFirst_consistent (vals : List (Nat × Nat)) : Consistent byFirst firsts vals :=
  fun _ _ _ _ s => ⟨_,s + 1,rfl,rfl⟩

def pairs : Memory Nat (Nat × Nat) where
  elems
    | .receiver => [.defined (2,0),.hole,.defined (1,1),.undefined,.defined (2,2),.defined (1,3)]
    | _ => []
  host := 0

theorem pairs_stable : IsStableSort firsts [(2,0),(1,1),(2,2),(1,3)] [(1,1),(1,3),(2,0),(2,2)] where
  perm := by decide
  sorted := by decide
  kept a := by
    have same (b : Nat × Nat) : alike firsts a b = decide (a.1 = b.1) := by
      rw [alike,firsts,firsts,← Bool.decide_and,decide_eq_decide]
      exact Nat.le_antisymm_iff.symm
    simp only [List.filter_cons,List.filter_nil,same,decide_eq_true_iff]
    split_ifs with one two
    · omega
    all_goals rfl

theorem sortArrayReceiver_exact_pairs : ∃ m',sortArrayReceiver (fun _ => none) (some byFirst) pairs = (.ok (),m') ∧
    m'.elems .receiver = [.defined (1,1),.defined (1,3),.defined (2,0),.defined (2,2),.undefined,.hole] := by
  obtain ⟨m',sorted,done,shape,only⟩ :=
    (sortArrayReceiver_exact (fun _ => none) byFirst pairs).2 firsts firsts_order (byFirst_consistent _)
  rw [← (only _).mp pairs_stable] at shape
  exact ⟨m',done,shape⟩

end pairs

end Perry.Sorting
