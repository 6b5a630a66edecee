import Perry.Unicode.Punycode

/-! The insertions that a Punycode string stands for, in the order of their code points and, for one
code point, of their places. The digits spell how far each one is from the last. -/
namespace Perry.Unicode.Punycode

/-- A code point and the place it is inserted at. -/
abbrev Insertion := Nat × Nat

/-- Where the insertions stand: the last code point, the place behind it, the length and the bias. -/
structure Walk where
  n : Nat
  i : Nat
  len : Nat
  bias : Nat

namespace Walk

variable (walk : Walk)

/-- The decoder's `i` at an insertion. -/
def steps (e : Insertion) : Nat := (e.1 - walk.n) * (walk.len + 1) + e.2

def next (e : Insertion) : Walk :=
  ⟨e.1,e.2 + 1,walk.len + 1,adapt (walk.steps e - walk.i) (walk.len + 1) (walk.i = 0)⟩

def after (walk : Walk) (plan : List Insertion) : Walk := plan.foldl next walk

def spell (walk : Walk) : List Insertion → List Nat
  | [] => []
  | e :: plan => encodeDigits walk.bias base (walk.steps e - walk.i) ++ (walk.next e).spell plan

/-- The insertions go on from where they stand. -/
def Follows (walk : Walk) : List Insertion → Prop
  | [] => True
  | e :: plan => (walk.n < e.1 ∨ walk.n = e.1 ∧ walk.i ≤ e.2) ∧ e.2 ≤ walk.len ∧ (walk.next e).Follows plan

/-- The decoder's `i` fits 32 bits at every insertion. -/
def Bounded (walk : Walk) : List Insertion → Prop
  | [] => True
  | e :: plan => walk.steps e < 2 ^ 32 ∧ (walk.next e).Bounded plan

end Walk

def build (output : List Nat) (plan : List Insertion) : List Nat :=
  plan.foldl (fun output e => output.insertIdx e.2 e.1) output

section appending

variable {walk : Walk} {plan more : List Insertion}

theorem build_append {output : List Nat} : build output (plan ++ more) = build (build output plan) more :=
  List.foldl_append

theorem spell_append : walk.spell (plan ++ more) = walk.spell plan ++ (walk.after plan).spell more := by
  induction plan generalizing walk with
  | nil => rfl
  | cons e plan ih =>
    rw [List.cons_append,Walk.spell,ih,Walk.spell,List.append_assoc]
    rfl

theorem follows_append : walk.Follows (plan ++ more) ↔ walk.Follows plan ∧ (walk.after plan).Follows more := by
  induction plan generalizing walk with
  | nil => exact (true_and _).symm ▸ Iff.rfl
  | cons e plan ih =>
    rw [List.cons_append,Walk.Follows,ih,Walk.Follows,and_assoc,and_assoc]
    rfl

theorem bounded_append : walk.Bounded (plan ++ more) ↔ walk.Bounded plan ∧ (walk.after plan).Bounded more := by
  induction plan generalizing walk with
  | nil => exact (true_and _).symm ▸ Iff.rfl
  | cons e plan ih =>
    rw [List.cons_append,Walk.Bounded,ih,Walk.Bounded,and_assoc]
    rfl

end appending

section unique

variable {n i c place : Nat} {output : List Nat}

/-- No code point is above the last one, and behind its place all are below. -/
structure Settled (n i : Nat) (output : List Nat) : Prop where
  inside : i ≤ output.length
  most : ∀ cp ∈ output,cp ≤ n
  behind : ∀ cp ∈ output.drop i,cp < n

theorem drop_insertIdx (inside : place ≤ output.length) : (output.insertIdx place c).drop (place + 1) = output.drop place := by
  induction place generalizing output with
  | zero => rfl
  | succ place ih =>
    cases output with
    | nil => cases inside
    | cons cp output => exact ih (Nat.le_of_succ_le_succ inside)

theorem Settled.insert (settled : Settled n i output) (onward : n < c ∨ n = c ∧ i ≤ place) (inside : place ≤ output.length) :
    Settled c (place + 1) (output.insertIdx place c) where
  inside := by
    rw [List.length_insertIdx_of_le_length inside]
    exact Nat.succ_le_succ inside
  most := by
    intro cp member
    rcases (List.mem_insertIdx inside).mp member with rfl | member
    · exact le_rfl
    · exact (settled.most cp member).trans (by omega)
  behind := by
    intro cp member
    rw [drop_insertIdx inside] at member
    rcases onward with above | ⟨rfl,behind⟩
    · exact Nat.lt_of_le_of_lt (settled.most cp (List.mem_of_mem_drop member)) above
    · exact settled.behind cp (List.drop_subset_drop_left output behind member)

/-- Two last insertions with one result: neither place is behind the other. -/
theorem insert_place {place' : Nat} {output' : List Nat} (settled : Settled c (place + 1) (output.insertIdx place c))
    (inside' : place' ≤ output'.length) (same : output.insertIdx place c = output'.insertIdx place' c) : place' ≤ place := by
  by_contra behind
  have held : (output.insertIdx place c)[place']? = some c := by
    rw [same,List.getElem?_insertIdx_self,if_pos inside']
  have member : c ∈ (output.insertIdx place c).drop (place + 1) := by
    rw [List.mem_iff_getElem?]
    refine ⟨place' - (place + 1),?_⟩
    rw [List.getElem?_drop,Nat.add_sub_of_le (by omega)]
    exact held
  exact lt_irrefl c (settled.behind c member)

/-- The last insertion can be read off the result. -/
theorem insert_unique {c' place' : Nat} {output' : List Nat}
    (settled : Settled c (place + 1) (output.insertIdx place c)) (settled' : Settled c' (place' + 1) (output'.insertIdx place' c'))
    (inside : place ≤ output.length) (inside' : place' ≤ output'.length)
    (same : output.insertIdx place c = output'.insertIdx place' c') : c = c' ∧ place = place' ∧ output = output' := by
  have first : c ≤ c' := settled'.most c (same ▸ (List.mem_insertIdx inside).mpr (.inl rfl))
  have second : c' ≤ c := settled.most c' (same ▸ (List.mem_insertIdx inside').mpr (.inl rfl))
  obtain rfl := Nat.le_antisymm first second
  obtain rfl := Nat.le_antisymm (insert_place settled' inside same.symm) (insert_place settled inside' same)
  exact ⟨rfl,rfl,List.insertIdx_injective place c same⟩

variable {walk : Walk} {plan other : List Insertion}

theorem settled_after (settled : Settled walk.n walk.i output) (len : output.length = walk.len) (follows : walk.Follows plan) :
    Settled (walk.after plan).n (walk.after plan).i (build output plan) ∧
      (build output plan).length = (walk.after plan).len := by
  induction plan generalizing walk output with
  | nil => exact ⟨settled,len⟩
  | cons e plan ih =>
    obtain ⟨onward,inside,rest⟩ := follows
    have place : e.2 ≤ output.length := len ▸ inside
    apply ih (settled.insert onward place) _ rest
    rw [List.length_insertIdx_of_le_length place,len]
    rfl

theorem n_le_after (follows : walk.Follows plan) : walk.n ≤ (walk.after plan).n := by
  induction plan generalizing walk with
  | nil => exact le_rfl
  | cons e plan ih =>
    obtain ⟨onward,_,rest⟩ := follows
    have step : walk.n ≤ e.1 := by omega
    exact step.trans (ih rest)

/-- The last insertion of a plan. -/
theorem last_spec {e : Insertion} (settled : Settled walk.n walk.i output) (len : output.length = walk.len)
    (follows : walk.Follows (plan ++ [e])) :
    Settled e.1 (e.2 + 1) ((build output plan).insertIdx e.2 e.1) ∧ e.2 ≤ (build output plan).length ∧ walk.n ≤ e.1 ∧
      walk.Follows plan := by
  obtain ⟨before,onward,inside,_⟩ := follows_append.mp follows
  obtain ⟨part,length⟩ := settled_after settled len before
  have low := n_le_after before
  exact ⟨part.insert onward (length ▸ inside),length ▸ inside,by omega,before⟩

/-- A string has one plan: its last insertion is the last occurrence of its largest code point. -/
theorem plan_unique (settled : Settled walk.n walk.i output) (len : output.length = walk.len)
    (basic : ∀ cp ∈ output,cp < walk.n) (follows : walk.Follows plan) (follows' : walk.Follows other)
    (same : build output plan = build output other) : plan = other := by
  have absurd {plan : List Insertion} {e : Insertion} (follows : walk.Follows (plan ++ [e])) :
      build output (plan ++ [e]) ≠ output := by
    obtain ⟨_,inside,low,_⟩ := last_spec settled len follows
    intro none
    have member : e.1 ∈ build output (plan ++ [e]) := by
      rw [build_append]
      exact (List.mem_insertIdx inside).mpr (.inl rfl)
    rw [none] at member
    exact absurd (basic e.1 member) (Nat.not_lt.mpr low)
  induction plan using List.reverseRecOn generalizing other with
  | nil =>
    cases other using List.reverseRecOn with
    | nil => rfl
    | append_singleton other e => exact (absurd follows' same.symm).elim
  | append_singleton plan e ih =>
    cases other using List.reverseRecOn with
    | nil => exact (absurd follows same).elim
    | append_singleton other e' =>
      obtain ⟨ends,inside,_,before⟩ := last_spec settled len follows
      obtain ⟨ends',inside',_,before'⟩ := last_spec settled len follows'
      rw [build_append,build_append] at same
      obtain ⟨code,place,rest⟩ := insert_unique ends ends' inside inside' same
      rw [ih before before' rest,Prod.ext code place]

end unique

section decoding

variable {walk : Walk} {plan : List Insertion} {n i bias : Nat} {output result input : List Nat}

theorem steps_div {e : Insertion} (onward : walk.n ≤ e.1) (inside : e.2 ≤ walk.len) :
    walk.n + walk.steps e / (walk.len + 1) = e.1 ∧ walk.steps e % (walk.len + 1) = e.2 := by
  have small : e.2 < walk.len + 1 := Nat.lt_succ_of_le inside
  unfold Walk.steps
  rw [Nat.add_comm walk.n,Nat.mul_comm,Nat.add_comm (_ * _),Nat.add_mul_mod_self_left,Nat.mod_eq_of_lt small,Nat.add_mul_div_left _ _ (Nat.succ_pos _),
    Nat.div_eq_of_lt small,Nat.zero_add]
  exact ⟨Nat.sub_add_cancel onward,rfl⟩

theorem i_le_steps {e : Insertion} (onward : walk.n < e.1 ∨ walk.n = e.1 ∧ walk.i ≤ e.2) (inside : walk.i ≤ walk.len) :
    walk.i ≤ walk.steps e := by
  unfold Walk.steps
  rcases onward with above | ⟨_,behind⟩
  · have once : 1 * (walk.len + 1) ≤ (e.1 - walk.n) * (walk.len + 1) := Nat.mul_le_mul_right _ (by omega)
    omega
  · exact behind.trans (Nat.le_add_left _ _)

theorem decodeLoop_step {next : Nat} {rest : List Nat} (read : decodeInteger bias input base 1 i = .ok (next,rest))
    (short : output.length + 1 < 2 ^ 32) : decodeLoop n i bias output input =
      if 2 ^ 32 ≤ n + next / (output.length + 1) then .error invalidInput
      else decodeLoop (n + next / (output.length + 1)) (next % (output.length + 1) + 1)
        (adapt (next - i) (output.length + 1) (i = 0))
        (output.insertIdx (next % (output.length + 1)) (n + next / (output.length + 1))) rest := by
  have some : input ≠ [] := by
    rintro rfl
    cases read
  have outLen : output.length % 2 ^ 32 = output.length := Nat.mod_eq_of_lt (by omega)
  have inside : ¬output.length < next % (output.length + 1) :=
    Nat.not_lt.mpr (Nat.le_of_lt_succ (Nat.mod_lt _ (Nat.succ_pos _)))
  conv_lhs => rw [decodeLoop,if_neg some]
  split
  · rename_i failed
    rw [read] at failed
    cases failed
  · rename_i decoded
    rw [read] at decoded
    cases decoded
    dsimp only
    rw [outLen,if_neg (by omega),if_neg inside]

/-- The decoder inserts what is spelled. -/
theorem decodeLoop_spell (follows : walk.Follows plan) (bounded : walk.Bounded plan) (points : ∀ e ∈ plan,e.1 < 0x110000)
    (len : output.length = walk.len) (inside : walk.i ≤ walk.len) (low : walk.bias ≤ 213)
    (short : walk.len + plan.length < 2 ^ 32) :
    decodeLoop walk.n walk.i walk.bias output (walk.spell plan) = .ok (build output plan) := by
  induction plan generalizing walk output with
  | nil =>
    rw [Walk.spell,decodeLoop,if_pos rfl]
    rfl
  | cons e plan ih =>
    obtain ⟨onward,place,rest⟩ := follows
    obtain ⟨fits,more⟩ := bounded
    rw [List.length_cons] at short
    have reach := i_le_steps onward inside
    have read := decodeInteger_encodeDigits 0 (w := 1) (i := walk.i) (q := walk.steps e - walk.i) low (by decide)
      (by decide) (by omega) ((walk.next e).spell plan)
    have sum : walk.i + (walk.steps e - walk.i) * 1 = walk.steps e := by omega
    rw [sum] at read
    obtain ⟨code,index⟩ := steps_div (by omega) place
    have point := points e List.mem_cons_self
    have longer : (output.insertIdx e.2 e.1).length = (walk.next e).len := by
      rw [List.length_insertIdx_of_le_length (len ▸ place),len]
      rfl
    have shorter : (walk.next e).len + plan.length < 2 ^ 32 := by
      change walk.len + 1 + _ < _
      omega
    have settled := ih rest more (fun e member => points e (List.mem_cons_of_mem _ member)) longer
      (Nat.succ_le_succ place) (adapt_le (by omega)) shorter
    rw [Walk.spell,decodeLoop_step read (by omega),len,code,index,if_neg (by omega)]
    exact settled

theorem decodeLoop_grows (decoded : decodeLoop n i bias output input = .ok result) :
    output.length ≤ result.length ∧ (input ≠ [] → output.length < result.length) := by
  induction size : input.length using Nat.strong_induction_on generalizing n i bias output input with
  | _ size ih =>
    subst size
    rw [decodeLoop] at decoded
    split at decoded
    · rename_i empty
      cases decoded
      exact ⟨le_rfl,fun some => absurd empty some⟩
    · split at decoded
      · cases decoded
      · rename_i next rest read
        dsimp only at decoded
        split_ifs at decoded with wide far outside
        have shorter := decodeInteger_length read
        have rest_grows := (ih _ shorter decoded rfl).1
        rw [List.length_insertIdx_of_le_length (Nat.not_lt.mp outside)] at rest_grows
        exact ⟨by omega,fun _ => by omega⟩

/-- What the decoder accepts, in lower case digits, spells the insertions it makes. -/
theorem decodeLoop_sound (decoded : decodeLoop walk.n walk.i walk.bias output input = .ok result)
    (lower : LowerDigits input) (len : output.length = walk.len) (inside : walk.i ≤ walk.len) (short : result.length < 2 ^ 32) :
    ∃ plan,walk.Follows plan ∧ walk.Bounded plan ∧ build output plan = result ∧ input = walk.spell plan := by
  induction size : input.length using Nat.strong_induction_on generalizing walk output input with
  | _ size ih =>
    subst size
    by_cases empty : input = []
    · subst empty
      rw [decodeLoop,if_pos rfl] at decoded
      cases decoded
      exact ⟨[],trivial,trivial,rfl,rfl⟩
    · have grows := (decodeLoop_grows decoded).2 empty
      cases read : decodeInteger walk.bias input base 1 walk.i with
      | error failure =>
        rw [decodeLoop,if_neg empty] at decoded
        split at decoded
        · cases decoded
        · rename_i other
          rw [read] at other
          cases other
      | ok pair =>
        obtain ⟨next,rest⟩ := pair
        obtain ⟨q,value,bound,spelled⟩ := decodeInteger_sound lower read
        have shorter := decodeInteger_length read
        rw [decodeLoop_step read (by omega)] at decoded
        split at decoded
        · cases decoded
        · let e : Insertion := (walk.n + next / (output.length + 1),next % (output.length + 1))
          have place : e.2 ≤ walk.len := by
            rw [← len]
            exact Nat.le_of_lt_succ (Nat.mod_lt _ (Nat.succ_pos _))
          have steps : walk.steps e = next := by
            unfold Walk.steps
            rw [Nat.add_sub_cancel_left,← len,Nat.mul_comm]
            exact Nat.div_add_mod next (output.length + 1)
          have delta : next - walk.i = q := by omega
          have onward : walk.n < e.1 ∨ walk.n = e.1 ∧ walk.i ≤ e.2 := by
            change walk.n < walk.n + next / (output.length + 1) ∨ walk.n = walk.n + next / (output.length + 1) ∧
              walk.i ≤ next % (output.length + 1)
            rcases Nat.eq_zero_or_pos (next / (output.length + 1)) with none | some
            · have small := (Nat.div_eq_zero_iff_lt (Nat.succ_pos _)).mp none
              rw [none,Nat.mod_eq_of_lt small]
              omega
            · exact .inl (by omega)
          have decoded' : decodeLoop (walk.next e).n (walk.next e).i (walk.next e).bias (output.insertIdx e.2 e.1) rest =
              .ok result := by
            change decodeLoop e.1 (e.2 + 1) (adapt (walk.steps e - walk.i) (walk.len + 1) (walk.i = 0)) _ _ = _
            rw [steps,← len]
            exact decoded
          have longer : (output.insertIdx e.2 e.1).length = (walk.next e).len := by
            rw [List.length_insertIdx_of_le_length (len ▸ place),len]
            rfl
          have lower_rest : LowerDigits rest := by
            intro cp member
            apply lower cp
            rw [spelled]
            exact List.mem_append_right _ member
          obtain ⟨plan,follows,bounded,built,rest_spelled⟩ := ih _ shorter decoded' lower_rest longer (Nat.succ_le_succ place) rfl
          refine ⟨e :: plan,⟨onward,place,follows⟩,⟨steps ▸ bound,bounded⟩,built,?_⟩
          rw [Walk.spell,steps,delta,← rest_spelled]
          exact spelled

theorem decodeInteger_error {k w : Nat} {failure : Failure} (failed : decodeInteger bias input k w i = .error failure) :
    failure = invalidInput := by
  induction input generalizing k w i with
  | nil =>
    cases failed
    rfl
  | cons cp rest ih =>
    unfold decodeInteger at failed
    split at failed
    · cases failed
      rfl
    · split_ifs at failed with outside last more
      · cases failed
        rfl
      · cases failed
        rfl
      · exact ih failed

/-- No check of an index or a length fails. -/
theorem decodeLoop_safe (short : output.length + input.length < 2 ^ 32) :
    decodeLoop n i bias output input ≠ .error .panic := by
  induction size : input.length using Nat.strong_induction_on generalizing n i bias output input with
  | _ size ih =>
    subst size
    cases read : decodeInteger bias input base 1 i with
    | error failure =>
      rw [decodeLoop]
      split
      · exact fun wrong => by cases wrong
      · split
        · rename_i other failed
          rw [decodeInteger_error failed]
          exact fun wrong => by cases wrong
        · rename_i decoded
          rw [read] at decoded
          cases decoded
    | ok pair =>
      obtain ⟨next,rest⟩ := pair
      have shorter := decodeInteger_length read
      dsimp only at shorter
      rw [decodeLoop_step read (by omega)]
      split
      · exact fun wrong => by cases wrong
      · apply ih _ shorter _ rfl
        rw [List.length_insertIdx_of_le_length (Nat.le_of_lt_succ (Nat.mod_lt _ (Nat.succ_pos _)))]
        omega

end decoding

end Perry.Unicode.Punycode
