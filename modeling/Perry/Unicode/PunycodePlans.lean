import Perry.Unicode.PunycodeWalk

/-! The plan of a string, and the encoder that writes it as long as no distance in it leaves 32 bits. -/
namespace Perry.Unicode.Punycode

section plans

variable (m : Nat)

/-- The insertions of one code point, after so many code points that are not above it. -/
def sweepPlan : Nat → List Nat → List Insertion
  | _,[] => []
  | count,cp :: rest =>
    if cp < m then sweepPlan (count + 1) rest
    else if cp = m then (m,count) :: sweepPlan (count + 1) rest
    else sweepPlan count rest

/-- The insertions of all code points from the given one on. -/
def planFrom (input : List Nat) (n : Nat) : List Insertion :=
  if n ≤ nextPoint input n ∧ nextPoint input n ∈ input then
    sweepPlan (nextPoint input n) 0 input ++ planFrom input (nextPoint input n + 1)
  else []
termination_by (input.filter (n ≤ ·)).length
decreasing_by
  rename_i left
  exact filter_shrinks left.2 left.1

/-- The largest code point below the given one, or the last basic one. -/
def previous (input : List Nat) (c : Nat) : Nat := (input.filter (· < c)).foldl max initialN

/-- How many smaller code points stand before the first occurrence. -/
def placeOf (input : List Nat) (c : Nat) : Nat := ((input.takeWhile (· ≠ c)).filter (· < c)).length

/-- At the first occurrence of every code point that is not basic, the decoder's `i` fits 32 bits. -/
def NoOverflow (input : List Nat) : Prop :=
  ∀ c ∈ input,0x80 ≤ c → (c - previous input c) * ((input.filter (· < c)).length + 1) + placeOf input c < 2 ^ 32

end plans

section sweeping

variable {m count : Nat} {rest input output : List Nat} {walk : Walk}

/-- Where a sweep over the rest of the string leaves the walk. -/
theorem after_sweepPlan (len : walk.len = count + (rest.filter (· < m)).length) :
    (walk.after (sweepPlan m count rest)).len = count + (rest.filter (· ≤ m)).length ∧
      (m ∈ rest ∨ walk.n = m → (walk.after (sweepPlan m count rest)).n = m) ∧
      (m ∈ rest ∨ 0 < walk.i → 0 < (walk.after (sweepPlan m count rest)).i) := by
  induction rest generalizing walk count with
  | nil => exact ⟨len,by simp [sweepPlan,Walk.after],by simp [sweepPlan,Walk.after]⟩
  | cons cp rest ih =>
    rw [sweepPlan]
    split
    · rename_i low
      have spec := @ih (count + 1) walk (by simp [low] at len; omega)
      simp only [List.filter_cons,low.le,low.ne',decide_true,if_true,List.length_cons,List.mem_cons,false_or]
      rw [← Nat.add_assoc,Nat.add_right_comm]
      exact spec
    · rename_i notLow
      split
      · rename_i same
        subst same
        have spec := @ih (count + 1) (walk.next (cp,count)) (by simp at len; change walk.len + 1 = _; omega)
        simp only [List.filter_cons,le_refl,decide_true,if_true,List.length_cons]
        rw [← Nat.add_assoc,Nat.add_right_comm]
        exact ⟨spec.1,fun _ => spec.2.1 (.inr rfl),fun _ => spec.2.2 (.inr (Nat.succ_pos _))⟩
      · rename_i differ
        have high : ¬cp ≤ m := by omega
        have spec := @ih count walk (by simpa [notLow] using len)
        simp only [List.filter_cons,high,decide_false,Bool.false_eq_true,if_false,List.mem_cons,Ne.symm differ,false_or]
        exact spec

theorem follows_sweepPlan (onward : walk.n < m ∨ walk.n = m ∧ walk.i ≤ count)
    (len : walk.len = count + (rest.filter (· < m)).length) : walk.Follows (sweepPlan m count rest) := by
  induction rest generalizing walk count with
  | nil => trivial
  | cons cp rest ih =>
    rw [sweepPlan]
    split
    · rename_i low
      apply ih
      · omega
      · simp [low] at len
        omega
    · rename_i notLow
      split
      · rename_i same
        subst same
        simp at len
        refine ⟨onward,by omega,ih (.inr ⟨rfl,le_rfl⟩) ?_⟩
        change walk.len + 1 = _
        omega
      · apply ih onward
        simpa [notLow] using len

theorem placeOf_cons_of_lt {cp : Nat} (low : cp < m) : placeOf (cp :: rest) m = placeOf rest m + 1 := by
  simp [placeOf,low,low.ne]

theorem placeOf_cons_self : placeOf (m :: rest) m = 0 := by simp [placeOf]

theorem placeOf_cons_of_gt {cp : Nat} (high : m < cp) : placeOf (cp :: rest) m = placeOf rest m := by
  simp [placeOf,high.ne',high.not_gt]

/-- Only the first occurrence can be far. -/
theorem bounded_sweepPlan (short : count + rest.length < 2 ^ 32) : walk.Bounded (sweepPlan m count rest) ↔
    (m ∈ rest → (m - walk.n) * (walk.len + 1) + count + placeOf rest m < 2 ^ 32) := by
  induction rest generalizing walk count with
  | nil => simp [sweepPlan,Walk.Bounded]
  | cons cp rest ih =>
    rw [List.length_cons] at short
    rw [sweepPlan]
    split
    · rename_i low
      rw [ih (by omega),placeOf_cons_of_lt low]
      simp only [List.mem_cons,low.ne',false_or]
      exact imp_congr_right fun _ => by omega
    · split
      · rename_i same
        subst same
        have later : (walk.next (cp,count)).Bounded (sweepPlan cp (count + 1) rest) := by
          rw [ih (by omega)]
          intro _
          have none : cp - (walk.next (cp,count)).n = 0 := Nat.sub_self cp
          have part : placeOf rest cp ≤ rest.length :=
            (List.length_filter_le _ _).trans (List.takeWhile_sublist _).length_le
          rw [none,Nat.zero_mul]
          omega
        simp only [Walk.Bounded,later,and_true,List.mem_cons,true_or,true_imp_iff,placeOf_cons_self,Nat.add_zero]
        rfl
      · rename_i notLow differ
        rw [ih (by omega),placeOf_cons_of_gt (by omega)]
        simp only [List.mem_cons,Ne.symm differ,false_or]

theorem insertIdx_length_append (front back : List Nat) (cp : Nat) :
    (front ++ back).insertIdx front.length cp = front ++ cp :: back := by
  induction front with
  | nil => rfl
  | cons first front ih => exact congrArg _ ih

/-- A sweep inserts the code point where the string has it. -/
theorem build_sweepPlan {front : List Nat} (length : front.length = count) :
    build (front ++ rest.filter (· < m)) (sweepPlan m count rest) = front ++ rest.filter (· ≤ m) := by
  induction rest generalizing front count with
  | nil => rfl
  | cons cp rest ih =>
    rw [sweepPlan]
    split
    · rename_i low
      have step := @ih (count + 1) (front ++ [cp]) (by rw [List.length_append,length]; rfl)
      simpa [low,low.le] using step
    · rename_i notLow
      split
      · rename_i same
        subst same
        have step := @ih (count + 1) (front ++ [cp]) (by rw [List.length_append,length]; rfl)
        have inserted : (front ++ rest.filter (· < cp)).insertIdx count cp = front ++ [cp] ++ rest.filter (· < cp) := by
          rw [List.append_assoc,← length]
          exact insertIdx_length_append front _ cp
        simp only [List.filter_cons,lt_irrefl,decide_false,Bool.false_eq_true,if_false,le_refl,decide_true,if_true]
        rw [build,List.foldl_cons,← build,inserted,step]
        simp
      · rename_i differ
        have high : ¬cp ≤ m := by omega
        simpa [notLow,high] using ih length

end sweeping

section plans

variable {input : List Nat} {n c m : Nat} {walk : Walk}

theorem foldl_nextPoint (xs : List Nat) (start : Nat) :
    let found := xs.foldl (fun m cp => if n ≤ cp ∧ cp < m then cp else m) start
    found ≤ start ∧ (∀ cp ∈ xs,n ≤ cp → found ≤ cp) ∧ (found = start ∨ n ≤ found ∧ found ∈ xs) := by
  induction xs generalizing start with
  | nil => exact ⟨le_rfl,by simp,.inl rfl⟩
  | cons x xs ih =>
    obtain ⟨below,least,origin⟩ := ih (if n ≤ x ∧ x < start then x else start)
    dsimp only [List.foldl_cons] at below least origin ⊢
    generalize xs.foldl (fun m cp => if n ≤ cp ∧ cp < m then cp else m) (if n ≤ x ∧ x < start then x else start) = found at *
    refine ⟨?_,fun cp member above => ?_,?_⟩
    · split at below <;> omega
    · rcases List.mem_cons.mp member with rfl | member
      · split at below <;> omega
      · exact least cp member above
    · rcases origin with same | ⟨above,member⟩
      · split at same
        · rename_i here
          exact .inr ⟨same ▸ here.1,same ▸ List.mem_cons_self⟩
        · exact .inl same
      · exact .inr ⟨above,List.mem_cons_of_mem _ member⟩

/-- A code point is left exactly when the next one is found. -/
theorem nextPoint_iff (points : ∀ cp ∈ input,cp < 0x110000) :
    (n ≤ nextPoint input n ∧ nextPoint input n ∈ input) ↔ ∃ cp ∈ input,n ≤ cp := by
  obtain ⟨_,least,origin⟩ := foldl_nextPoint (n := n) input (2 ^ 32 - 1)
  constructor
  · exact fun found => ⟨_,found.2,found.1⟩
  · rintro ⟨cp,member,above⟩
    rcases origin with none | found
    · have low := least cp member above
      have point := points cp member
      rw [none] at low
      omega
    · exact found

theorem nextPoint_le {cp : Nat} (member : cp ∈ input) (above : n ≤ cp) : nextPoint input n ≤ cp :=
  (foldl_nextPoint (n := n) input (2 ^ 32 - 1)).2.1 cp member above

/-- No code point lies between. -/
theorem below_nextPoint : input.filter (· < nextPoint input n) = input.filter (· < n) ∨ nextPoint input n < n := by
  by_cases high : nextPoint input n < n
  · exact .inr high
  · refine .inl (List.filter_congr fun cp member => ?_)
    rw [Bool.eq_iff_iff,decide_eq_true_iff,decide_eq_true_iff]
    constructor
    · intro low
      by_contra above
      exact absurd (nextPoint_le member (Nat.not_lt.mp above)) (Nat.not_le.mpr low)
    · exact fun low => by omega

theorem foldl_max_le {xs : List Nat} {start bound : Nat} : xs.foldl max start ≤ bound ↔ start ≤ bound ∧ ∀ x ∈ xs,x ≤ bound := by
  induction xs generalizing start with
  | nil => simp
  | cons x xs ih =>
    rw [List.foldl_cons,ih,max_le_iff,List.forall_mem_cons,and_assoc]

theorem previous_succ (member : m ∈ input) (high : initialN ≤ m) : previous input (m + 1) = m := by
  apply Nat.le_antisymm
  · rw [previous,foldl_max_le]
    refine ⟨high,fun x inside => ?_⟩
    have low := (List.mem_filter.mp inside).2
    rw [decide_eq_true_iff] at low
    omega
  · have bound := (foldl_max_le.mp (le_refl (previous input (m + 1)))).2
    exact bound m (List.mem_filter.mpr ⟨member,by simp⟩)

/-- The walk has inserted the code points below the given one. -/
structure Stands (input : List Nat) (n : Nat) (walk : Walk) : Prop where
  last : walk.n = previous input n
  len : walk.len = (input.filter (· < n)).length
  onward : walk.n < n ∨ walk.n = n ∧ walk.i = 0
  high : initialN ≤ n

theorem filter_succ (m : Nat) : input.filter (· < m + 1) = input.filter (· ≤ m) := by
  simp only [Nat.lt_succ_iff]

/-- What one sweep adds. -/
theorem Stands.sweep (stands : Stands input n walk) (left : n ≤ nextPoint input n ∧ nextPoint input n ∈ input) :
    (walk.n = previous input (nextPoint input n) ∧ walk.len = (input.filter (· < nextPoint input n)).length ∧
      (walk.n < nextPoint input n ∨ walk.n = nextPoint input n ∧ walk.i ≤ 0)) ∧
      Stands input (nextPoint input n + 1) (walk.after (sweepPlan (nextPoint input n) 0 input)) := by
  obtain ⟨last,len,onward,high⟩ := stands
  have same : input.filter (· < nextPoint input n) = input.filter (· < n) :=
    (below_nextPoint (n := n)).resolve_right (Nat.not_lt.mpr left.1)
  have start : walk.len = 0 + (input.filter (· < nextPoint input n)).length := by rw [same,len,Nat.zero_add]
  obtain ⟨length,code,_⟩ := after_sweepPlan start
  rw [Nat.zero_add] at start length
  refine ⟨⟨?_,start,by omega⟩,?_⟩
  · rw [last,previous,previous,same]
  · constructor
    · rw [code (.inl left.2),previous_succ left.2 (high.trans left.1)]
    · rw [length,filter_succ]
    · rw [code (.inl left.2)]
      exact .inl (Nat.lt_succ_self _)
    · omega

theorem follows_planFrom (stands : Stands input n walk) : walk.Follows (planFrom input n) := by
  fun_induction planFrom input n generalizing walk with
  | case1 n left ih =>
    obtain ⟨⟨_,len,onward⟩,next⟩ := stands.sweep left
    exact follows_append.mpr ⟨follows_sweepPlan onward (len.trans (Nat.zero_add _).symm),ih next⟩
  | case2 n none => trivial

/-- The plan builds the string from its smaller code points. -/
theorem build_planFrom (points : ∀ cp ∈ input,cp < 0x110000) :
    build (input.filter (· < n)) (planFrom input n) = input := by
  fun_induction planFrom input n with
  | case1 n left ih =>
    have same : input.filter (· < nextPoint input n) = input.filter (· < n) :=
      (below_nextPoint (n := n)).resolve_right (Nat.not_lt.mpr left.1)
    have swept : build ([] ++ input.filter (· < nextPoint input n)) (sweepPlan (nextPoint input n) 0 input) =
        [] ++ input.filter (· ≤ nextPoint input n) := build_sweepPlan rfl
    rw [List.nil_append,same] at swept
    rw [build_append,swept,List.nil_append,← filter_succ]
    exact ih
  | case2 n none =>
    rw [nextPoint_iff points] at none
    apply List.filter_eq_self.mpr
    intro cp member
    rw [decide_eq_true_iff]
    by_contra above
    exact none ⟨cp,member,Nat.not_lt.mp above⟩

theorem bounded_planFrom (points : ∀ cp ∈ input,cp < 0x110000) (short : input.length < 2 ^ 32) (stands : Stands input n walk) :
    walk.Bounded (planFrom input n) ↔ ∀ c ∈ input,n ≤ c →
      (c - previous input c) * ((input.filter (· < c)).length + 1) + placeOf input c < 2 ^ 32 := by
  fun_induction planFrom input n generalizing walk with
  | case1 n left ih =>
    obtain ⟨⟨last,len,_⟩,next⟩ := stands.sweep left
    rw [bounded_append,bounded_sweepPlan (by omega),ih next,last,len,Nat.add_zero]
    constructor
    · rintro ⟨here,later⟩ c member above
      rcases (nextPoint_le member above).eq_or_lt with same | more
      · rw [← same]
        exact here left.2
      · exact later c member more
    · exact fun all => ⟨fun _ => all _ left.2 left.1,fun c member above => all c member (by omega)⟩
  | case2 n none =>
    rw [nextPoint_iff points] at none
    exact ⟨fun _ c member above => absurd ⟨c,member,above⟩ none,fun _ => trivial⟩

end plans

section encoding

variable {wrap : Arithmetic} {basicLength m n count : Nat} {walk : Walk} {state : EncodeState} {rest input : List Nat}

/-- The encoder stands where the walk does: its distance is from there to the given code point and
place. -/
structure Ready (basicLength m count : Nat) (walk : Walk) (state : EncodeState) : Prop where
  handled : state.handled = walk.len
  bias : state.bias = walk.bias
  distance : state.delta + walk.i = (m - walk.n) * (walk.len + 1) + count
  first : walk.i = 0 ↔ walk.len = basicLength
  least : basicLength ≤ walk.len

theorem encodePoint_lt {cp : Nat} (low : cp < m) :
    encodePoint wrap basicLength m state cp = { state with delta := wrap (state.delta + 1) } := by
  rw [encodePoint,if_pos low,if_neg low.ne]

theorem encodePoint_gt {cp : Nat} (high : m < cp) : encodePoint wrap basicLength m state cp = state := by
  rw [encodePoint,if_neg high.not_gt,if_neg high.ne']

/-- An insertion is written. -/
theorem encodePoint_self (wrap : Arithmetic) (ready : Ready basicLength m count walk state) :
    (encodePoint wrap basicLength m state m).output = state.output ++ encodeDigits walk.bias base (walk.steps (m,count) - walk.i) ∧
      Ready basicLength m (count + 1) (walk.next (m,count)) (encodePoint wrap basicLength m state m) := by
  obtain ⟨handled,bias,distance,first,least⟩ := ready
  have delta : state.delta = walk.steps (m,count) - walk.i := by
    unfold Walk.steps
    dsimp only
    omega
  have once : decide (state.handled = basicLength) = decide (walk.i = 0) := by
    rw [Bool.eq_iff_iff,decide_eq_true_iff,decide_eq_true_iff,first,handled]
  rw [encodePoint,if_neg (lt_irrefl m),if_pos rfl,once,delta,bias,handled]
  refine ⟨rfl,rfl,rfl,?_,?_,Nat.le_succ_of_le least⟩
  · change 0 + (count + 1) = (m - m) * (walk.len + 1 + 1) + (count + 1)
    rw [Nat.sub_self,Nat.zero_mul]
  · change count + 1 = 0 ↔ walk.len + 1 = basicLength
    omega

theorem foldl_encodePoint (exact_below : ∀ x < 2 ^ 32,wrap x = x) (ready : Ready basicLength m count walk state)
    (bounded : walk.Bounded (sweepPlan m count rest)) (due : m ∈ rest ∨ walk.n = m) (short : count + rest.length < 2 ^ 32) :
    (rest.foldl (encodePoint wrap basicLength m) state).output = state.output ++ walk.spell (sweepPlan m count rest) ∧
      Ready basicLength m (count + (rest.filter (· ≤ m)).length) (walk.after (sweepPlan m count rest))
        (rest.foldl (encodePoint wrap basicLength m) state) := by
  induction rest generalizing walk count state with
  | nil => exact ⟨(List.append_nil _).symm,ready⟩
  | cons cp rest ih =>
    rw [List.length_cons] at short
    rw [List.foldl_cons]
    rcases Nat.lt_trichotomy cp m with low | rfl | high
    · rw [sweepPlan,if_pos low] at bounded ⊢
      have due_rest : m ∈ rest ∨ walk.n = m := due.imp_left fun member => (List.mem_cons.mp member).resolve_left low.ne'
      have fits : state.delta + 1 < 2 ^ 32 := by
        have distance := ready.distance
        rcases due_rest with member | same
        · have far := (bounded_sweepPlan (by omega)).mp bounded member
          omega
        · rw [same,Nat.sub_self,Nat.zero_mul] at distance
          omega
      have moved : Ready basicLength m (count + 1) walk { state with delta := wrap (state.delta + 1) } := by
        refine ⟨ready.handled,ready.bias,?_,ready.first,ready.least⟩
        have distance := ready.distance
        rw [exact_below _ fits]
        dsimp only
        omega
      rw [encodePoint_lt low,List.filter_cons_of_pos (by simpa using low.le),List.length_cons,← Nat.add_assoc,
        Nat.add_right_comm]
      exact ih moved bounded due_rest (by omega)
    · rw [sweepPlan,if_neg (lt_irrefl cp),if_pos rfl] at bounded ⊢
      obtain ⟨written,moved⟩ := encodePoint_self wrap ready
      obtain ⟨output,ends⟩ := ih moved bounded.2 (.inr rfl) (by omega)
      rw [List.filter_cons_of_pos (by simp),List.length_cons,← Nat.add_assoc,Nat.add_right_comm]
      refine ⟨?_,ends⟩
      rw [output,written,List.append_assoc]
      rfl
    · rw [sweepPlan,if_neg high.not_gt,if_neg high.ne'] at bounded ⊢
      have due_rest : m ∈ rest ∨ walk.n = m := due.imp_left fun member => (List.mem_cons.mp member).resolve_left high.ne
      rw [encodePoint_gt high,List.filter_cons_of_neg (by simpa using high)]
      exact ih ready bounded due_rest (by omega)

/-- The encoder writes the plan. -/
theorem encodeLoop_output (exact_below : ∀ x < 2 ^ 32,wrap x = x) (points : ∀ cp ∈ input,cp < 0x110000)
    (short : input.length < 2 ^ 32) (stands : Stands input n walk) (ready : Ready basicLength n 0 walk state)
    (bounded : walk.Bounded (planFrom input n)) :
    (encodeLoop wrap basicLength input input.length n state).output = state.output ++ walk.spell (planFrom input n) := by
  fun_induction planFrom input n generalizing walk state with
  | case1 n left ih =>
    obtain ⟨⟨_,len,_⟩,next⟩ := stands.sweep left
    obtain ⟨sweeping,later⟩ := bounded_append.mp bounded
    have far := (bounded_sweepPlan (by omega)).mp sweeping left.2
    have some : state.handled < input.length := by
      rw [ready.handled,stands.len]
      apply List.length_filter_lt_length_iff_exists.mpr
      exact ⟨_,left.2,by simpa using left.1⟩
    have distance := ready.distance
    have low : walk.n ≤ n := by have := stands.onward; omega
    have parts : (nextPoint input n - walk.n) * (walk.len + 1) =
        (nextPoint input n - n) * (walk.len + 1) + (n - walk.n) * (walk.len + 1) := by
      rw [← Nat.add_mul]
      congr 1
      omega
    have moved : Ready basicLength (nextPoint input n) 0 walk
        { state with delta := wrap (state.delta + wrap ((nextPoint input n - n) * (state.handled + 1))) } := by
      refine ⟨ready.handled,ready.bias,?_,ready.first,ready.least⟩
      have product := exact_below ((nextPoint input n - n) * (walk.len + 1)) (by omega)
      rw [ready.handled,product,exact_below _ (by omega)]
      dsimp only
      omega
    obtain ⟨written,swept⟩ := foldl_encodePoint exact_below moved sweeping (.inl left.2) (by omega)
    have start : walk.len = 0 + (input.filter (· < nextPoint input n)).length := len.trans (Nat.zero_add _).symm
    obtain ⟨length,code,place⟩ := after_sweepPlan start
    rw [encodeLoop,if_pos some,dif_pos left,spell_append,← List.append_assoc,← written]
    dsimp only
    generalize input.foldl (encodePoint wrap basicLength (nextPoint input n)) _ = arrived at swept ⊢
    have passed : Ready basicLength (nextPoint input n + 1) 0 (walk.after (sweepPlan (nextPoint input n) 0 input))
        { arrived with delta := wrap (arrived.delta + 1) } := by
      refine ⟨swept.handled,swept.bias,?_,swept.first,swept.least⟩
      have reached := swept.distance
      have behind := place (.inl left.2)
      have whole := List.length_filter_le (· ≤ nextPoint input n) input
      rw [code (.inl left.2),Nat.sub_self,Nat.zero_mul] at reached
      rw [code (.inl left.2),Nat.add_sub_cancel_left,Nat.one_mul,length,exact_below _ (by omega)]
      dsimp only
      omega
    exact ih next passed later
  | case2 n none =>
    rw [nextPoint_iff points] at none
    have all : input.filter (· < n) = input := by
      apply List.filter_eq_self.mpr
      intro cp member
      rw [decide_eq_true_iff]
      by_contra above
      exact none ⟨cp,member,Nat.not_lt.mp above⟩
    have done : ¬state.handled < input.length := by
      rw [ready.handled,stands.len,all]
      exact lt_irrefl _
    rw [encodeLoop,if_neg done]
    exact (List.append_nil _).symm

end encoding

end Perry.Unicode.Punycode
