import Perry.Sorting.Comparator
import Perry.Sorting.Merging

/-! What the loops of a sort leave in the arrays. Every loop is proved to insert and to merge by the
answers it was given, whatever they are, and never to ask about anything but values. -/
namespace Perry.Sorting

open Effect Run

variable {σ ε V α β : Type}

def slotsOf (vals : List V) : List (Slot V) := vals.map .defined

theorem slotsOf_append (as bs : List V) : slotsOf (as ++ bs) = slotsOf as ++ slotsOf bs := List.map_append

theorem slotsOf_length (as : List V) : (slotsOf as).length = as.length := List.length_map _

theorem slotsOf_cut (as : List V) (n : Nat) : slotsOf (as.take n) ++ slotsOf (as.drop n) = slotsOf as := by
  rw [← slotsOf_append,List.take_append_drop]

/-- The arrays are these, and the state of the user code is one of those. -/
def Holds (I : σ → Prop) (f : Rooted → List (Slot V)) (m : Memory σ V) : Prop := m.elems = f ∧ I m.host

/-- Where a call ended abruptly, the receiver is as it was. -/
def Kept (slots : List (Slot V)) (abrupt : ε → σ → Prop) (e : ε) (m : Memory σ V) : Prop :=
  m.elems .receiver = slots ∧ abrupt e m.host

/-- What is known of a comparison of two values. -/
def Asks (le : Slot V → Slot V → Run σ ε Bool) (good : V → Prop) (answers : V → V → Bool → Prop) (I : σ → Prop)
    (abrupt : ε → σ → Prop) : Prop :=
  ∀ a b,good a → good b → Triple I (le (.defined a) (.defined b)) (fun answer s => answers a b answer ∧ I s) abrupt

section rules

variable {I : σ → Prop} {f : Rooted → List (Slot V)} {a : Rooted} {i : Nat} {v : Slot V} {Q : β → Memory σ V → Prop}
  {E : ε → Memory σ V → Prop}

theorem get_then {k : Slot V → Run (Memory σ V) ε β} (rest : Triple (Holds I f) (k ((f a).getD i .hole)) Q E) :
    Triple (Holds I f) (get a i >>= k) Q E := by
  rintro m ⟨rfl,inside⟩
  exact rest m ⟨rfl,inside⟩

theorem set_then {k : Unit → Run (Memory σ V) ε β}
    (rest : Triple (Holds I (Function.update f a ((f a).set i v))) (k ()) Q E) :
    Triple (Holds I f) (set a i v >>= k) Q E := by
  rintro m ⟨rfl,inside⟩
  exact rest _ ⟨rfl,inside⟩

theorem put_then {k : Unit → Run (Memory σ V) ε β} {slots : List (Slot V)}
    (rest : Triple (Holds I (Function.update f a slots)) (k ()) Q E) : Triple (Holds I f) (put a slots >>= k) Q E := by
  rintro m ⟨rfl,inside⟩
  exact rest _ ⟨rfl,inside⟩

theorem truncate_then {k : Unit → Run (Memory σ V) ε β} {count : Nat}
    (rest : Triple (Holds I (Function.update f a ((f a).take count))) (k ()) Q E) :
    Triple (Holds I f) (truncate a count >>= k) Q E := by
  rintro m ⟨rfl,inside⟩
  exact rest _ ⟨rfl,inside⟩

theorem consult_then {le : Slot V → Slot V → Run σ ε Bool} {good : V → Prop} {answers : V → V → Bool → Prop}
    {abrupt : ε → σ → Prop} {slots : List (Slot V)} {k : Bool → Run (Memory σ V) ε β} {x y : V}
    (asks : Asks le good answers I abrupt) (goodX : good x) (goodY : good y) (kept : f .receiver = slots)
    (rest : ∀ answer,answers x y answer → Triple (Holds I f) (k answer) Q (Kept slots abrupt)) :
    Triple (Holds I f) (consult le (.defined x) (.defined y) >>= k) Q (Kept slots abrupt) := by
  apply Triple.bind (Q := fun answer m => answers x y answer ∧ Holds I f m)
  · rintro m ⟨rfl,inside⟩
    have ended := asks x y goodX goodY m.host inside
    unfold consult
    cases reply : (le (.defined x) (.defined y) m.host).1 with
    | error e =>
      rw [reply] at ended
      exact ⟨kept,ended⟩
    | ok answer =>
      rw [reply] at ended
      exact ⟨ended.1,rfl,ended.2⟩
  · rintro answer m ⟨given,holds⟩
    exact rest answer given m holds

theorem pure_holds {x : α} {Q : α → Memory σ V → Prop} (ends : ∀ m,Holds I f m → Q x m) :
    Triple (Holds I f) (pure x : Run (Memory σ V) ε α) Q E := ends

end rules

section places

variable {front back : List α} {a b d : α} {i : Nat}

theorem getD_middle (place : front.length = i) : (front ++ a :: back).getD i d = a := by
  subst place
  simp

theorem set_middle (place : front.length = i) : (front ++ a :: back).set i b = front ++ b :: back := by
  subst place
  simp

theorem drop_cons {xs : List α} (shape : xs.drop i = a :: back) : xs.getD i d = a ∧ xs.drop (i + 1) = back := by
  have head : xs[i]? = some a := by rw [← List.head?_drop,shape]; rfl
  exact ⟨by rw [List.getD,head]; rfl,by rw [← List.tail_drop,shape]; rfl⟩

end places

section engines

variable {le : Slot V → Slot V → Run σ ε Bool} {good : V → Prop} {answers : V → V → Bool → Prop} {I : σ → Prop}
  {abrupt : ε → σ → Prop} {slots : List (Slot V)} {f : Rooted → List (Slot V)} {a : Rooted}

theorem sink_inserts (asks : Asks le good answers I abrupt) (apart : a ≠ .receiver) {ys : List V} {x : V}
    (goodX : good x) (goods : ∀ y ∈ ys,good y) (kept : f .receiver = slots) {pre post : List (Slot V)} {start i : Nat}
    (place : pre.length = start) (here : i = start + ys.length) (shape : f a = pre ++ slotsOf ys ++ .defined x :: post) :
    Triple (Holds I f) (sink le a start i)
      (fun _ m => ∃ zs,Inserts answers ys x zs ∧ Holds I (Function.update f a (pre ++ slotsOf zs ++ post)) m)
      (Kept slots abrupt) := by
  induction ys using List.reverseRecOn generalizing f post i with
  | nil =>
    have ended : (sink le a start i : Run (Memory σ V) ε Unit) = pure () := by
      rw [here]
      cases start with
      | zero => rfl
      | succ j =>
        rw [List.length_nil,Nat.add_zero,sink,if_neg (Nat.lt_irrefl _)]
    rw [ended]
    apply pure_holds
    intro m holds
    have same : pre ++ slotsOf [x] ++ post = f a := by
      rw [shape,List.append_assoc,List.append_assoc]
      rfl
    exact ⟨[x],.bottom x,by rwa [same,Function.update_eq_self]⟩
  | append_singleton ys y ih =>
    obtain ⟨goods,goodY⟩ := List.forall_mem_append.mp goods
    have front : (pre ++ slotsOf ys).length = start + ys.length := by rw [List.length_append,place,slotsOf_length]
    have shape : f a = (pre ++ slotsOf ys) ++ .defined y :: .defined x :: post := by
      rw [shape,slotsOf_append,← List.append_assoc,List.append_assoc]
      rfl
    have next : f a = ((pre ++ slotsOf ys) ++ [.defined y]) ++ .defined x :: post := shape.trans (List.append_cons _ _ _)
    have front' (z : Slot V) : ((pre ++ slotsOf ys) ++ [z]).length = start + ys.length + 1 := by
      rw [List.length_append,front]
      rfl
    have lower : (f a).getD (start + ys.length) .hole = .defined y := by rw [shape,getD_middle front]
    have upper : (f a).getD (start + ys.length + 1) .hole = .defined x := by rw [next,getD_middle (front' _)]
    rw [here,List.length_append,List.length_singleton,← Nat.add_assoc,sink,if_pos (by omega)]
    apply get_then
    apply get_then
    rw [lower,upper]
    apply consult_then asks (goodY y (List.mem_singleton_self y)) goodX kept
    intro answer given
    cases answer with
    | true =>
      apply pure_holds
      intro m holds
      refine ⟨ys ++ [y,x],.stay ys given,?_⟩
      have same : pre ++ slotsOf (ys ++ [y,x]) ++ post = f a := by
        rw [shape,slotsOf_append,List.append_assoc,List.append_assoc,List.append_assoc]
        rfl
      rwa [same,Function.update_eq_self]
    | false =>
      apply get_then
      apply get_then
      rw [lower,upper]
      apply set_then
      apply set_then
      have swapped : (((f a).set (start + ys.length) (.defined x)).set (start + ys.length + 1) (.defined y)) =
          pre ++ slotsOf ys ++ .defined x :: .defined y :: post := by
        rw [shape,set_middle front,List.append_cons,set_middle (front' _),← List.append_cons]
      rw [Function.update_self,Function.update_idem,swapped]
      apply (ih goods _ rfl (Function.update_self a _ f)).post
      · rintro _ m ⟨zs,inserted,holds⟩
        refine ⟨zs ++ [y],.pass given inserted,?_⟩
        rw [Function.update_idem] at holds
        rwa [slotsOf_append,← List.append_assoc,List.append_assoc (pre ++ _)]
      · rw [Function.update_of_ne apart.symm,kept]

theorem sinks_arrange (asks : Asks le good answers I abrupt) (apart : a ≠ .receiver) {vals zs rest : List V}
    (arranged : Arranges answers vals zs) (goods : ∀ v ∈ vals ++ rest,good v) (kept : f .receiver = slots)
    {pre post : List (Slot V)} {start i : Nat} (place : pre.length = start) (here : i = start + zs.length)
    (shape : f a = pre ++ slotsOf zs ++ (slotsOf rest ++ post)) :
    Triple (Holds I f) ((List.range' i rest.length).forM (sink le a start))
      (fun _ m => ∃ zs',Arranges answers (vals ++ rest) zs' ∧ Holds I (Function.update f a (pre ++ slotsOf zs' ++ post)) m)
      (Kept slots abrupt) := by
  induction rest generalizing f vals zs i with
  | nil =>
    apply pure_holds
    intro m holds
    have same : pre ++ slotsOf zs ++ post = f a := shape.symm
    exact ⟨zs,by rwa [List.append_nil],by rwa [same,Function.update_eq_self]⟩
  | cons x rest ih =>
    have goods' := List.forall_mem_append.mp goods
    have inside : ∀ v ∈ zs,good v := fun v member => goods'.1 v (arranged.perm.mem_iff.mp member)
    apply Triple.bind (sink_inserts asks apart (goods'.2 x List.mem_cons_self) inside kept place here shape)
    rintro _ m ⟨zs',inserted,holds⟩
    have longer : i + 1 = start + zs'.length := by
      rw [inserted.perm.length_eq,List.length_append,here]
      rfl
    have regrouped : vals ++ x :: rest = vals ++ [x] ++ rest := List.append_cons _ _ _
    rw [regrouped] at goods ⊢
    apply (ih (arranged.insert inserted) goods (by rw [Function.update_of_ne apart.symm,kept]) longer
      (Function.update_self a _ f)).post _ m holds
    rintro _ m ⟨zs'',arranged',holds⟩
    rw [Function.update_idem] at holds
    exact ⟨zs'',arranged',holds⟩

theorem insertionSortRooted_arranges (asks : Asks le good answers I abrupt) (apart : a ≠ .receiver) {vals : List V}
    (goods : ∀ v ∈ vals,good v) (kept : f .receiver = slots) {pre post : List (Slot V)} {start stop : Nat}
    (place : pre.length = start) (ends : stop = start + vals.length) (shape : f a = pre ++ slotsOf vals ++ post) :
    Triple (Holds I f) (insertionSortRooted le a start stop)
      (fun _ m => ∃ zs,Arranges answers vals zs ∧ Holds I (Function.update f a (pre ++ slotsOf zs ++ post)) m)
      (Kept slots abrupt) := by
  rw [insertionSortRooted]
  cases vals with
  | nil =>
    have none : stop - (start + 1) = 0 := by rw [ends,List.length_nil]; omega
    rw [none]
    apply pure_holds
    intro m holds
    exact ⟨[],.nil,by rwa [← shape,Function.update_eq_self]⟩
  | cons x rest =>
    have count : stop - (start + 1) = rest.length := by rw [ends,List.length_cons]; omega
    have first : Arranges answers ([] ++ [x]) [x] := .insert .nil (.bottom x)
    rw [count]
    exact sinks_arrange asks apart first goods kept place rfl (by rw [shape]; simp [slotsOf])

theorem insertionRuns_runs (asks : Asks le good answers I abrupt) (apart : a ≠ .receiver) {vals : List V}
    (goods : ∀ v ∈ vals,good v) (kept : f .receiver = slots) {pre : List (Slot V)} {n runStart : Nat}
    (place : pre.length = runStart) (ends : n = runStart + vals.length) (shape : f a = pre ++ slotsOf vals) :
    Triple (Holds I f) (insertionRuns le a n runStart)
      (fun _ m => ∃ zs,Runs answers insertionThreshold vals zs ∧ Holds I (Function.update f a (pre ++ slotsOf zs)) m)
      (Kept slots abrupt) := by
  induction size : vals.length using Nat.strongRecOn generalizing f vals pre runStart with
  | ind size' ih =>
    rw [insertionRuns]
    apply Triple.ite
    · intro more
      have split : f a = pre ++ slotsOf (vals.take insertionThreshold) ++ slotsOf (vals.drop insertionThreshold) := by
        rw [shape,List.append_assoc,slotsOf_cut]
      have stop : min (runStart + insertionThreshold) n = runStart + (vals.take insertionThreshold).length := by
        rw [List.length_take]
        omega
      have goods' : (∀ v ∈ vals.take insertionThreshold,good v) ∧ ∀ v ∈ vals.drop insertionThreshold,good v := by
        rw [← List.forall_mem_append,List.take_append_drop]
        exact goods
      apply Triple.bind (insertionSortRooted_arranges asks apart goods'.1 kept place stop split)
      rintro _ m ⟨zs,arranged,holds⟩
      have later : (vals.drop insertionThreshold).length < size' := by
        rw [List.length_drop,insertionThreshold]
        omega
      have place' : (pre ++ slotsOf zs).length = min (runStart + insertionThreshold) n := by
        rw [stop,List.length_append,place,slotsOf_length,arranged.perm.length_eq]
      have ends' : n = min (runStart + insertionThreshold) n + (vals.drop insertionThreshold).length := by
        rw [List.length_drop]
        omega
      apply (ih _ later goods'.2 (by rw [Function.update_of_ne apart.symm,kept]) place' ends'
        (Function.update_self a _ f) rfl).post _ m holds
      rintro _ m ⟨bs,runs,holds⟩
      rw [Function.update_idem,List.append_assoc] at holds
      exact ⟨zs ++ bs,.block arranged runs,by rwa [slotsOf_append]⟩
    · intro done
      have empty : vals = [] := List.length_eq_zero_iff.mp (by omega)
      subst empty
      apply pure_holds
      intro m holds
      exact ⟨[],.last (Nat.zero_le _) .nil,by rwa [← shape,Function.update_eq_self]⟩

section merging

variable {src dst : Rooted} {E : ε → Memory σ V → Prop}

theorem mergeRest_copies (apart : src ≠ dst) {as : List V} {tail done old : List (Slot V)} {stop l k : Nat}
    (left : (f src).drop l = slotsOf as ++ tail) (ends : stop = l + as.length) (shape : f dst = done ++ old)
    (place : done.length = k) (room : as.length ≤ old.length) :
    Triple (Holds I f) (mergeRest src dst stop l k)
      (fun k' m => k' = k + as.length ∧ Holds I (Function.update f dst (done ++ slotsOf as ++ old.drop as.length)) m) E := by
  induction as generalizing f done old l k with
  | nil =>
    rw [mergeRest,if_neg (by rw [ends]; exact Nat.lt_irrefl _)]
    apply pure_holds
    intro m holds
    have same : done ++ slotsOf [] ++ old = f dst := by rw [shape,slotsOf,List.map_nil,List.append_nil]
    exact ⟨rfl,by rwa [List.length_nil,List.drop_zero,same,Function.update_eq_self]⟩
  | cons a as ih =>
    obtain ⟨first,rest⟩ := drop_cons (d := Slot.hole) left
    cases old with
    | nil => exact absurd room (Nat.not_succ_le_zero _)
    | cons o old =>
      rw [mergeRest,if_pos (by rw [ends,List.length_cons]; omega)]
      apply get_then
      rw [first]
      apply set_then
      rw [shape,set_middle place]
      have shape' : done ++ Slot.defined a :: old = done ++ [.defined a] ++ old := List.append_cons _ _ _
      have place' : (done ++ [Slot.defined a]).length = k + 1 := by rw [List.length_append,place]; rfl
      rw [shape']
      apply (ih (f := Function.update f dst _) (by rw [Function.update_of_ne apart]; exact rest)
        (by rw [ends,List.length_cons]; omega) (Function.update_self dst _ f) place' (Nat.le_of_succ_le_succ room)).post
      rintro k' m ⟨count,holds⟩
      rw [Function.update_idem] at holds
      refine ⟨by rw [count,List.length_cons]; omega,?_⟩
      simpa [slotsOf] using holds

theorem mergeRests_copy (apart : src ≠ dst) {as bs : List V} {tail tail' done old : List (Slot V)} {mid right l r k : Nat}
    (left : (f src).drop l = slotsOf as ++ tail) (left' : (f src).drop r = slotsOf bs ++ tail') (ends : mid = l + as.length)
    (ends' : right = r + bs.length) (shape : f dst = done ++ old) (place : done.length = k)
    (room : as.length + bs.length ≤ old.length) :
    Triple (Holds I f) (mergeRests src dst mid right l r k)
      (fun _ => Holds I (Function.update f dst (done ++ slotsOf (as ++ bs) ++ old.drop (as ++ bs).length))) E := by
  apply Triple.bind (mergeRest_copies apart left ends shape place (Nat.le_of_add_right_le room))
  rintro k' m ⟨rfl,holds⟩
  have place' : (done ++ slotsOf as).length = k + as.length := by rw [List.length_append,place,slotsOf_length]
  have room' : bs.length ≤ (old.drop as.length).length := by
    rw [List.length_drop]
    omega
  have both := mergeRest_copies (I := I) (E := E) (f := Function.update f dst _) apart (by rwa [Function.update_of_ne apart]) ends'
    (Function.update_self dst _ f) place' room'
  have whole : done ++ slotsOf as ++ slotsOf bs ++ (old.drop as.length).drop bs.length =
      done ++ slotsOf (as ++ bs) ++ old.drop (as ++ bs).length := by
    rw [slotsOf_append,List.drop_drop,List.length_append,List.append_assoc done]
  rw [Function.update_idem,whole] at both
  apply Triple.bind both ?_ m holds
  exact fun _ => Triple.pure fun m ended => ended.2

/-- Both runs are merged, and the rest of the array stays. -/
theorem mergeBoth_merges (asks : Asks le good answers I abrupt) (apart : src ≠ dst) (inner : dst ≠ .receiver)
    {as bs : List V} (goods : ∀ v ∈ as ++ bs,good v) (kept : f .receiver = slots) {tail tail' done old : List (Slot V)}
    {mid right l r k : Nat} (left : (f src).drop l = slotsOf as ++ tail) (left' : (f src).drop r = slotsOf bs ++ tail')
    (ends : mid = l + as.length) (ends' : right = r + bs.length) (shape : f dst = done ++ old) (place : done.length = k)
    (room : as.length + bs.length ≤ old.length) :
    Triple (Holds I f) (mergeBoth le src dst mid right l r k >>= fun p => mergeRests src dst mid right p.1 p.2.1 p.2.2)
      (fun _ m => ∃ cs,Merges answers as bs cs ∧ Holds I (Function.update f dst (done ++ slotsOf cs ++ old.drop cs.length)) m)
      (Kept slots abrupt) := by
  have finished {f : Rooted → List (Slot V)} {as bs : List V} {tail tail' done old : List (Slot V)} {l r k : Nat}
      (empty : as = [] ∨ bs = []) (left : (f src).drop l = slotsOf as ++ tail) (left' : (f src).drop r = slotsOf bs ++ tail')
      (ends : mid = l + as.length) (ends' : right = r + bs.length) (shape : f dst = done ++ old) (place : done.length = k)
      (room : as.length + bs.length ≤ old.length) :
      Triple (Holds I f) (mergeBoth le src dst mid right l r k >>= fun p => mergeRests src dst mid right p.1 p.2.1 p.2.2)
        (fun _ m => ∃ cs,Merges answers as bs cs ∧ Holds I (Function.update f dst (done ++ slotsOf cs ++ old.drop cs.length)) m)
        (Kept slots abrupt) := by
    have merged : Merges answers as bs (as ++ bs) := by
      obtain rfl | rfl := empty
      · exact .right bs
      · rw [List.append_nil]
        exact .left as
    have stopped : ¬ (l < mid ∧ r < right) := by
      obtain rfl | rfl := empty
      · rw [ends]
        exact fun more => absurd more.1 (Nat.lt_irrefl _)
      · rw [ends']
        exact fun more => absurd more.2 (Nat.lt_irrefl _)
    rw [mergeBoth,if_neg stopped,pure_bind]
    exact (mergeRests_copy apart left left' ends ends' shape place room).post fun _ m holds => ⟨as ++ bs,merged,holds⟩
  induction size : as.length + bs.length using Nat.strongRecOn generalizing f as bs tail tail' done old l r k with
  | ind size' ih =>
    cases as with
    | nil => exact finished (.inl rfl) left left' ends ends' shape place room
    | cons a as =>
      cases bs with
      | nil => exact finished (.inr rfl) left left' ends ends' shape place room
      | cons b bs =>
        cases old with
        | nil => exact absurd room (by rw [List.length_cons,List.length_nil]; omega)
        | cons o old =>
          obtain ⟨first,rest⟩ := drop_cons (d := Slot.hole) left
          obtain ⟨second,rest'⟩ := drop_cons (d := Slot.hole) left'
          obtain ⟨goods',goods''⟩ := List.forall_mem_append.mp goods
          rw [List.length_cons] at ends ends' room size
          rw [List.length_cons] at room size
          rw [List.length_cons] at room
          rw [mergeBoth,if_pos (by omega)]
          simp only [bind_assoc]
          apply get_then
          apply get_then
          rw [first,second]
          apply consult_then asks (goods' a List.mem_cons_self) (goods'' b List.mem_cons_self) kept
          intro answer given
          have shape' (v : V) : done ++ Slot.defined v :: old = done ++ [.defined v] ++ old := List.append_cons _ _ _
          have place' (v : V) : (done ++ [Slot.defined v]).length = k + 1 := by rw [List.length_append,place]; rfl
          cases answer with
          | true =>
            simp only [if_true,bind_assoc]
            apply get_then
            rw [first]
            apply set_then
            rw [shape,set_middle place,shape']
            apply (ih (as.length + (b :: bs).length) (by rw [List.length_cons]; omega) (f := Function.update f dst _)
              (fun v member => goods v (List.mem_cons_of_mem a member)) (by rw [Function.update_of_ne inner.symm,kept])
              (by rw [Function.update_of_ne apart]; exact rest) (by rw [Function.update_of_ne apart]; exact left')
              (by omega) (by rw [ends',List.length_cons]) (Function.update_self dst _ f) (place' a)
              (by rw [List.length_cons]; omega) rfl).post
            rintro _ m ⟨cs,merged,holds⟩
            rw [Function.update_idem] at holds
            exact ⟨a :: cs,.first given merged,by simpa [slotsOf] using holds⟩
          | false =>
            simp only [Bool.false_eq_true,if_false,bind_assoc]
            apply get_then
            rw [second]
            apply set_then
            rw [shape,set_middle place,shape']
            apply (ih ((a :: as).length + bs.length) (by rw [List.length_cons]; omega) (f := Function.update f dst _)
              (fun v member => goods v (by simp only [List.mem_append,List.mem_cons] at member ⊢; tauto))
              (by rw [Function.update_of_ne inner.symm,kept])
              (by rw [Function.update_of_ne apart]; exact left) (by rw [Function.update_of_ne apart]; exact rest')
              (by rw [ends,List.length_cons]) (by omega) (Function.update_self dst _ f) (place' b)
              (by rw [List.length_cons]; omega) rfl).post
            rintro _ m ⟨cs,merged,holds⟩
            rw [Function.update_idem] at holds
            exact ⟨b :: cs,.second given merged,by simpa [slotsOf] using holds⟩

theorem mergeRuns_merges (asks : Asks le good answers I abrupt) (apart : src ≠ dst) (inner : dst ≠ .receiver)
    {as bs : List V} (goods : ∀ v ∈ as ++ bs,good v) (kept : f .receiver = slots) {front tail done old : List (Slot V)}
    {mid right i : Nat} (shape : f src = front ++ (slotsOf as ++ (slotsOf bs ++ tail))) (begins : front.length = i)
    (ends : mid = i + as.length) (ends' : right = mid + bs.length) (shape' : f dst = done ++ old) (place : done.length = i)
    (room : as.length + bs.length ≤ old.length) :
    Triple (Holds I f) (mergeRuns le src dst i mid right)
      (fun _ m => ∃ cs,Merges answers as bs cs ∧ Holds I (Function.update f dst (done ++ slotsOf cs ++ old.drop cs.length)) m)
      (Kept slots abrupt) := by
  apply mergeBoth_merges asks apart inner goods kept _ _ ends ends' shape' place room
  · exact slotsOf bs ++ tail
  · exact tail
  · rw [shape,← begins,List.drop_left]
  · have longer : (front ++ slotsOf as).length = mid := by rw [ends,List.length_append,begins,slotsOf_length]
    rw [shape,← List.append_assoc,← longer,List.drop_left]

theorem mergeBlocks_runs (asks : Asks le good answers I abrupt) (apart : src ≠ dst) (inner : dst ≠ .receiver)
    {width n i : Nat} (wide : 0 < width) {vals as : List V} (runs : Runs answers width vals as) (goods : ∀ v ∈ vals,good v)
    (kept : f .receiver = slots) {front done old : List (Slot V)} (shape : f src = front ++ slotsOf as)
    (shape' : f dst = done ++ old) (room : old.length = as.length)
    (place : as = [] ∧ n ≤ i ∨ front.length = i ∧ done.length = i ∧ n = i + as.length) :
    Triple (Holds I f) (mergeBlocks le src dst n width wide i)
      (fun _ m => ∃ bs,Runs answers (width * 2) vals bs ∧ Holds I (Function.update f dst (done ++ slotsOf bs)) m)
      (Kept slots abrupt) := by
  induction size : as.length using Nat.strongRecOn generalizing f vals as front done old i with
  | ind size' ih =>
    rw [mergeBlocks]
    apply Triple.ite
    · intro more
      obtain ⟨begins,begins',ends⟩ := place.resolve_left fun none => absurd more none.2.not_gt
      obtain ⟨first,runs'⟩ := runs.split
      obtain ⟨second,later⟩ := runs'.split
      have members : ∀ v ∈ as.take width ++ (as.drop width).take width,good v := by
        intro v member
        apply goods v
        apply runs.perm.mem_iff.mp
        rw [← List.take_add] at member
        exact List.mem_of_mem_take member
      have cut : f src = front ++ (slotsOf (as.take width) ++
          (slotsOf ((as.drop width).take width) ++ slotsOf ((as.drop width).drop width))) := by
        rw [shape,slotsOf_cut,slotsOf_cut]
      have mid : min (i + width) n = i + (as.take width).length := by
        rw [List.length_take]
        omega
      have right : min (i + 2 * width) n = min (i + width) n + ((as.drop width).take width).length := by
        rw [List.length_take,List.length_drop]
        omega
      have fits : (as.take width).length + ((as.drop width).take width).length ≤ old.length := by
        rw [List.length_take,List.length_take,List.length_drop]
        omega
      apply Triple.bind (mergeRuns_merges asks apart inner members kept cut begins mid right shape' begins' fits)
      rintro _ m ⟨cs,merged,holds⟩
      have size : cs.length = (as.take width).length + ((as.drop width).take width).length := by
        rw [merged.perm.length_eq,List.length_append]
      rw [List.length_take,List.length_take,List.length_drop] at size
      have fewer : ((as.drop width).drop width).length < size' := by
        rw [List.length_drop,List.length_drop]
        omega
      have cut' : Function.update f dst (done ++ slotsOf cs ++ old.drop cs.length) src =
          (front ++ slotsOf (as.take width) ++ slotsOf ((as.drop width).take width)) ++ slotsOf ((as.drop width).drop width) := by
        rw [Function.update_of_ne apart,cut,List.append_assoc,List.append_assoc]
      have room' : (old.drop cs.length).length = ((as.drop width).drop width).length := by
        rw [List.length_drop,List.length_drop,List.length_drop]
        omega
      have place' : (as.drop width).drop width = [] ∧ n ≤ i + 2 * width ∨
          (front ++ slotsOf (as.take width) ++ slotsOf ((as.drop width).take width)).length = i + 2 * width ∧
          (done ++ slotsOf cs).length = i + 2 * width ∧ n = i + 2 * width + ((as.drop width).drop width).length := by
        simp only [List.length_append,slotsOf_length,List.length_take,List.length_drop,List.drop_drop,List.drop_eq_nil_iff]
        omega
      apply (ih _ fewer later (fun v member => goods v (List.mem_of_mem_drop (List.mem_of_mem_drop member)))
        (by rw [Function.update_of_ne inner.symm,kept]) cut' (Function.update_self dst _ f) room' place' rfl).post _ m holds
      rintro _ m ⟨bs,runs'',holds⟩
      rw [Function.update_idem,List.append_assoc,← slotsOf_append] at holds
      rw [Nat.mul_two] at runs'' ⊢
      refine ⟨cs ++ bs,.block ?_ ?_,holds⟩
      · rw [List.take_add]
        exact first.merge second merged
      · rwa [← List.drop_drop]
    · intro stopped
      have none : as = [] := by
        obtain ⟨none,-⟩ | ⟨-,-,ends⟩ := place
        · exact none
        · exact List.length_eq_zero_iff.mp (by omega)
      subst none
      apply pure_holds
      intro m holds
      refine ⟨[],?_,?_⟩
      · rw [List.nil_perm.mp runs.perm]
        exact .last (Nat.zero_le _) .nil
      · have same : done ++ slotsOf [] = f dst := by rw [shape',List.length_eq_zero_iff.mp room]; rfl
        rwa [same,Function.update_eq_self]

theorem copies_from (apart : src ≠ dst) {done copied old : List (Slot V)} {n k : Nat} (left : (f src).drop k = copied)
    (shape : f dst = done ++ old) (place : done.length = k) (size : copied.length = n) (room : n ≤ old.length) :
    Triple (Holds I f) ((List.range' k n).forM fun i => do set dst i (← get src i))
      (fun _ => Holds I (Function.update f dst (done ++ copied ++ old.drop n))) E := by
  induction n generalizing f done copied old k with
  | zero =>
    apply pure_holds
    intro m holds
    have same : done ++ copied ++ old.drop 0 = f dst := by rw [List.length_eq_zero_iff.mp size,List.append_nil,shape]; rfl
    rwa [same,Function.update_eq_self]
  | succ n ih =>
    cases copied with
    | nil => cases size
    | cons v copied =>
      cases old with
      | nil => exact absurd room (Nat.not_succ_le_zero _)
      | cons o old =>
        obtain ⟨first,rest⟩ := drop_cons (d := Slot.hole) left
        rw [List.range'_succ]
        change Triple _ ((get src k >>= fun v => set dst k v) >>= fun _ => (List.range' (k + 1) n).forM _) _ _
        rw [bind_assoc]
        apply get_then
        rw [first]
        apply set_then
        have shape' : done ++ v :: old = done ++ [v] ++ old := List.append_cons _ _ _
        rw [shape,set_middle place,shape']
        apply (ih (by rw [Function.update_of_ne apart]; exact rest) (Function.update_self dst _ f)
          (by rw [List.length_append,place]; rfl) (Nat.succ.inj size) (Nat.le_of_succ_le_succ room)).post
        intro _ m holds
        rw [Function.update_idem] at holds
        simpa using holds

theorem copyElems_copies (apart : src ≠ dst) {n : Nat} (size : (f src).length = n) (room : n ≤ (f dst).length) :
    Triple (Holds I f) (copyElems src dst n) (fun _ => Holds I (Function.update f dst (f src ++ (f dst).drop n))) E := by
  rw [copyElems,List.range_eq_range']
  exact copies_from apart rfl (List.nil_append _).symm rfl size room

end merging

section passes

variable {data spare : Rooted}

/-- The array that holds the runs. -/
def holder (data spare : Rooted) (inData : Bool) : Rooted := if inData then data else spare

theorem holder_inner (inner : data ≠ .receiver) (inner' : spare ≠ .receiver) (inData : Bool) :
    holder data spare inData ≠ .receiver := by
  cases inData
  · exact inner'
  · exact inner

theorem holder_apart (apart : data ≠ spare) (inData : Bool) : holder data spare inData ≠ holder data spare !inData := by
  cases inData
  · exact apart.symm
  · exact apart

theorem mergePasses_arranges (asks : Asks le good answers I abrupt) (apart : data ≠ spare) (inner : data ≠ .receiver)
    (inner' : spare ≠ .receiver) {width n : Nat} (wide : 0 < width) {inData : Bool} {vals as : List V}
    (runs : Runs answers width vals as) (goods : ∀ v ∈ vals,good v) (kept : f .receiver = slots)
    (shape : f (holder data spare inData) = slotsOf as) (size : as.length = n)
    (room : (f (holder data spare !inData)).length = n) :
    Triple (Holds I f) (mergePasses le data spare n width wide inData)
      (fun inData m => ∃ g bs,Holds I g m ∧ Arranges answers vals bs ∧ g .receiver = slots ∧
        g (holder data spare inData) = slotsOf bs ∧ (g (holder data spare !inData)).length = n)
      (Kept slots abrupt) := by
  induction left : n - width using Nat.strongRecOn generalizing f as width inData with
  | ind left' ih =>
    rw [mergePasses]
    apply Triple.ite
    · intro more
      have other : (if inData then spare else data) = holder data spare !inData := by cases inData <;> rfl
      have inner'' := holder_inner inner inner' !inData
      have apart' := holder_apart apart inData
      have front : f (holder data spare inData) = [] ++ slotsOf as := shape
      have ends : n = 0 + as.length := by rw [Nat.zero_add,size]
      rw [other]
      apply Triple.bind (mergeBlocks_runs asks apart' inner'' wide runs goods kept front (List.nil_append _).symm
        (room.trans size.symm) (.inr ⟨rfl,rfl,ends⟩))
      rintro _ m ⟨bs,runs',holds⟩
      have size' : bs.length = n := by rw [runs'.perm.length_eq,← runs.perm.length_eq,size]
      apply ih (n - width * 2) (by omega) (by omega) runs' (by rw [Function.update_of_ne inner''.symm,kept])
        (Function.update_self _ _ f) size' _ rfl m holds
      rw [Bool.not_not,Function.update_of_ne apart',shape,slotsOf_length,size]
    · intro stopped
      apply pure_holds
      intro m holds
      exact ⟨f,as,holds,runs.whole (by rw [← runs.perm.length_eq]; omega),kept,shape,room⟩

theorem stableMergeSortRooted_arranges (asks : Asks le good answers I abrupt) (apart : data ≠ spare)
    (inner : data ≠ .receiver) (inner' : spare ≠ .receiver) {startWidth : Nat} {vals as : List V} (wide : 0 < startWidth)
    (runs : Runs answers startWidth vals as) (goods : ∀ v ∈ vals,good v) (kept : f .receiver = slots)
    (shape : f data = slotsOf as) (room : (f spare).length = as.length) :
    Triple (Holds I f) (stableMergeSortRooted le data spare as.length startWidth)
      (fun _ m => ∃ g bs,Holds I g m ∧ Arranges answers vals bs ∧ g .receiver = slots ∧ g data = slotsOf bs)
      (Kept slots abrupt) := by
  rw [stableMergeSortRooted]
  apply Triple.ite
  · intro small
    apply pure_holds
    intro m holds
    exact ⟨f,as,holds,runs.whole (by rw [← runs.perm.length_eq]; omega),kept,shape⟩
  · intro large
    have width : max startWidth 1 = startWidth := Nat.max_eq_left wide
    rw [← width] at runs
    have held : f (holder data spare true) = slotsOf as := shape
    have room : (f (holder data spare !true)).length = as.length := room
    apply Triple.bind (mergePasses_arranges asks apart inner inner' _ runs goods kept held rfl room)
    rintro inData m ⟨g,bs,holds,arranged,kept',shape',room'⟩
    cases inData with
    | true => exact ⟨g,bs,holds,arranged,kept',shape'⟩
    | false =>
      have whole : g spare = slotsOf bs := shape'
      have room' : (g data).length = as.length := room'
      have size : (g spare).length = as.length := by
        rw [whole,slotsOf_length,arranged.perm.length_eq,runs.perm.length_eq]
      apply (copyElems_copies apart.symm size room'.ge).post _ m holds
      intro _ m holds
      refine ⟨_,bs,holds,arranged,?_,?_⟩
      · rw [Function.update_of_ne inner.symm,kept']
      · rw [Function.update_self,whole,List.drop_of_length_le room'.le,List.append_nil]

end passes

end engines
end Perry.Sorting
