import Perry.Unicode.PunycodePlans

/-! When `decode` gives back what `encode` was given. The decoder's own results are always encoded
as they were spelled; a string with a distance that leaves 32 bits is lost. -/
namespace Perry.Unicode.Punycode

section joining

variable {basic extended input result : List Nat}

/-- The basic code points and the digits behind the last delimiter. -/
def join (basic extended : List Nat) : List Nat := (if basic = [] then basic else basic ++ [delimiter]) ++ extended

theorem rfindDelimiter_none (free : delimiter ∉ input) : rfindDelimiter input = none := by
  induction input with
  | nil => rfl
  | cons cp input ih =>
    rw [List.mem_cons,not_or] at free
    rw [rfindDelimiter,ih free.2]
    exact if_neg (Ne.symm free.1)

theorem rfindDelimiter_append (free : delimiter ∉ extended) :
    rfindDelimiter (basic ++ delimiter :: extended) = some basic.length := by
  induction basic with
  | nil =>
    rw [List.nil_append,rfindDelimiter,rfindDelimiter_none free]
    exact if_pos rfl
  | cons cp basic ih =>
    rw [List.cons_append,rfindDelimiter,ih]
    rfl

theorem rfindDelimiter_sound : match rfindDelimiter input with
    | none => delimiter ∉ input
    | some place => ∃ basic extended,input = basic ++ delimiter :: extended ∧ basic.length = place ∧ delimiter ∉ extended := by
  induction input with
  | nil => exact List.not_mem_nil
  | cons cp input ih =>
    rw [rfindDelimiter]
    cases found : rfindDelimiter input with
    | some place =>
      rw [found] at ih
      obtain ⟨basic,extended,parts,length,free⟩ := ih
      refine ⟨cp :: basic,extended,?_,?_,free⟩
      · rw [parts,List.cons_append]
      · rw [List.length_cons,length]
    | none =>
      rw [found] at ih
      dsimp only at ih ⊢
      split_ifs with here
      · exact ⟨[],input,by rw [here,List.nil_append],rfl,ih⟩
      · exact fun member => (List.mem_cons.mp member).elim (fun same => here same.symm) ih

/-- The loop's result is checked for surrogates. -/
def finish (output : Except Failure (List Nat)) : Except Failure (List Nat) := do
  let output ← output
  if output.all isScalar then pure output else .error invalidInput

theorem finish_ok {output : Except Failure (List Nat)} :
    finish output = .ok result ↔ output = .ok result ∧ result.all isScalar := by
  cases output with
  | error failure =>
    constructor
    · intro wrong
      cases wrong
    · rintro ⟨wrong,_⟩
      cases wrong
  | ok output =>
    change (if output.all isScalar then Except.ok output else _) = _ ↔ _
    split_ifs with scalar
    · constructor
      · intro same
        cases same
        exact ⟨rfl,scalar⟩
      · exact And.left
    · constructor
      · intro wrong
        cases wrong
      · rintro ⟨same,all⟩
        cases same
        exact absurd all scalar

theorem decode_join (ascii : ∀ cp ∈ basic,cp < 0x80) (free : delimiter ∉ extended) :
    decode (join basic extended) = finish (decodeLoop initialN 0 initialBias basic extended) := by
  by_cases empty : basic = []
  · subst empty
    rw [join,if_pos rfl,List.nil_append,decode,rfindDelimiter_none free]
    rfl
  · have some : basic.length ≠ 0 := fun none => empty (List.length_eq_zero_iff.mp none)
    have plain : ¬basic.any (0x80 ≤ ·) := by
      rw [List.any_eq_true]
      rintro ⟨cp,member,high⟩
      exact absurd (ascii cp member) (Nat.not_lt.mpr (of_decide_eq_true high))
    rw [join,if_neg empty,List.append_assoc,List.singleton_append,decode,rfindDelimiter_append free]
    dsimp only
    rw [if_neg some,List.take_left,if_neg plain,← List.drop_drop,List.drop_left]
    rfl

/-- What is accepted is basic code points and an input of the loop. -/
theorem decode_ok (decoded : decode input = .ok result) :
    ∃ basic extended,input = join basic extended ∧ (∀ cp ∈ basic,cp < 0x80) ∧
      decodeLoop initialN 0 initialBias basic extended = .ok result ∧ result.all isScalar := by
  have spec := @rfindDelimiter_sound input
  rw [decode] at decoded
  cases found : rfindDelimiter input with
  | none =>
    rw [found] at decoded
    exact ⟨[],input,rfl,by simp,finish_ok.mp decoded⟩
  | some place =>
    rw [found] at decoded spec
    obtain ⟨basic,extended,rfl,rfl,_⟩ := spec
    dsimp only at decoded
    rw [List.take_left,← List.drop_drop,List.drop_left] at decoded
    split_ifs at decoded with empty high
    · cases decoded
    · cases decoded
    · have nonempty : basic ≠ [] := fun none => empty (none ▸ rfl)
      refine ⟨basic,extended,?_,fun cp member => ?_,finish_ok.mp decoded⟩
      · rw [join,if_neg nonempty,List.append_assoc,List.singleton_append]
      · by_contra above
        exact high (List.any_eq_true.mpr ⟨cp,member,decide_eq_true (Nat.not_lt.mp above)⟩)

end joining

section spelling

variable {wrap : Arithmetic} {basicLength n total : Nat} {state : EncodeState} {input : List Nat}

/-- Digits only, none of them in upper case. -/
def Digits (input : List Nat) : Prop := ∀ cp ∈ input,∃ d : Fin 36,cp = digitToBasic d

theorem digitToBasic_plain : ∀ d : Fin 36,digitToBasic d ≠ delimiter ∧ ¬(0x41 ≤ digitToBasic d ∧ digitToBasic d ≤ 0x5A) := by
  decide

theorem Digits.free (digits : Digits input) : delimiter ∉ input := by
  intro member
  obtain ⟨d,same⟩ := digits _ member
  exact (digitToBasic_plain d).1 same.symm

theorem Digits.lower (digits : Digits input) : LowerDigits input := by
  intro cp member
  obtain ⟨d,rfl⟩ := digits cp member
  exact (digitToBasic_plain d).2

theorem Digits.append {more : List Nat} (digits : Digits input) (digits' : Digits more) : Digits (input ++ more) := by
  intro cp member
  exact (List.mem_append.mp member).elim (digits cp) (digits' cp)

theorem digits_encodeDigits (bias k q : Nat) : Digits (encodeDigits bias k q) := by
  fun_induction encodeDigits bias k q with
  | case1 k q last =>
    intro cp member
    have top := threshold_le k bias
    exact ⟨⟨q,by omega⟩,List.mem_singleton.mp member⟩
  | case2 k q more ih =>
    intro cp member
    rcases List.mem_cons.mp member with rfl | member
    · have top := threshold_le k bias
      have reach := Nat.mod_lt (q - threshold k bias) (show 0 < base - threshold k bias by unfold base; omega)
      exact ⟨⟨threshold k bias + (q - threshold k bias) % (base - threshold k bias),by unfold base at reach ⊢; omega⟩,rfl⟩
    · exact ih cp member

theorem digits_encodePoint (wrap : Arithmetic) (basicLength n : Nat) (state : EncodeState) (cp : Nat) :
    ∃ more,(encodePoint wrap basicLength n state cp).output = state.output ++ more ∧ Digits more := by
  rcases Nat.lt_trichotomy cp n with low | rfl | high
  · rw [encodePoint_lt low]
    exact ⟨[],(List.append_nil _).symm,by simp [Digits]⟩
  · rw [encodePoint,if_neg (lt_irrefl cp),if_pos rfl]
    exact ⟨_,rfl,digits_encodeDigits _ _ _⟩
  · rw [encodePoint_gt high]
    exact ⟨[],(List.append_nil _).symm,by simp [Digits]⟩

theorem digits_foldl (wrap : Arithmetic) (basicLength n : Nat) (state : EncodeState) (rest : List Nat) :
    ∃ more,(rest.foldl (encodePoint wrap basicLength n) state).output = state.output ++ more ∧ Digits more := by
  induction rest generalizing state with
  | nil => exact ⟨[],(List.append_nil _).symm,by simp [Digits]⟩
  | cons cp rest ih =>
    obtain ⟨first,written,digits⟩ := digits_encodePoint wrap basicLength n state cp
    obtain ⟨more,output,digits'⟩ := ih (encodePoint wrap basicLength n state cp)
    refine ⟨first ++ more,?_,digits.append digits'⟩
    rw [List.foldl_cons,output,written,List.append_assoc]

/-- Whatever the arithmetic does, only digits are written. -/
theorem digits_encodeLoop :
    ∃ more,(encodeLoop wrap basicLength input total n state).output = state.output ++ more ∧ Digits more := by
  fun_induction encodeLoop wrap basicLength input total n state with
  | case1 n state some left m moved swept ih =>
    obtain ⟨first,written,digits⟩ := digits_foldl wrap basicLength m moved input
    obtain ⟨more,output,digits'⟩ := ih
    have same : swept = input.foldl (encodePoint wrap basicLength m) moved := by simp [swept]
    rw [same] at output
    refine ⟨first ++ more,?_,digits.append digits'⟩
    dsimp only
    rw [output]
    change (input.foldl (encodePoint wrap basicLength m) moved).output ++ more = _
    rw [written,List.append_assoc]
  | case2 n state some none => exact ⟨[],(List.append_nil _).symm,by simp [Digits]⟩
  | case3 n state none => exact ⟨[],(List.append_nil _).symm,by simp [Digits]⟩

theorem encodeWith_join (wrap : Arithmetic) (input : List Nat) :
    ∃ extended,encodeWith wrap input = join (input.filter (· < 0x80)) extended ∧ Digits extended :=
  digits_encodeLoop

end spelling

section laws

variable {basic extended input result : List Nat}

/-- Where the decoder stands after the basic code points. -/
def start (basicLength : Nat) : Walk := ⟨initialN,0,basicLength,initialBias⟩

theorem stands_start (input : List Nat) : Stands input initialN (start (input.filter (· < 0x80)).length) where
  last := by
    apply Nat.le_antisymm
    · exact (foldl_max_le.mp (le_refl (previous input initialN))).1
    · rw [previous,foldl_max_le]
      exact ⟨le_rfl,fun cp member => (of_decide_eq_true (List.mem_filter.mp member).2).le⟩
  len := rfl
  onward := .inr ⟨rfl,rfl⟩
  high := le_rfl

theorem filter_insertIdx {place c : Nat} (above : ¬c < 0x80) (inside : place ≤ input.length) :
    (input.insertIdx place c).filter (· < 0x80) = input.filter (· < 0x80) := by
  induction place generalizing input with
  | zero =>
    rw [List.insertIdx_zero,List.filter_cons_of_neg (by simpa using above)]
  | succ place ih =>
    cases input with
    | nil => cases inside
    | cons cp input =>
      rw [List.insertIdx_succ_cons,List.filter_cons,List.filter_cons,ih (Nat.le_of_succ_le_succ inside)]

/-- Insertions from the start on leave the basic code points as they are. -/
theorem filter_build {walk : Walk} {plan : List Insertion} (follows : walk.Follows plan) (high : initialN ≤ walk.n)
    (len : input.length = walk.len) : (build input plan).filter (· < 0x80) = input.filter (· < 0x80) := by
  induction plan generalizing walk input with
  | nil => rfl
  | cons e plan ih =>
    obtain ⟨onward,place,rest⟩ := follows
    have above : ¬e.1 < 0x80 := by
      unfold initialN at high
      omega
    have longer : (input.insertIdx e.2 e.1).length = (walk.next e).len := by
      rw [List.length_insertIdx_of_le_length (len ▸ place),len]
      rfl
    have inserted : (input.insertIdx e.2 e.1).filter (· < 0x80) = input.filter (· < 0x80) :=
      filter_insertIdx above (len ▸ place)
    change (build (input.insertIdx e.2 e.1) plan).filter _ = _
    rw [ih rest (by change _ ≤ e.1; omega) longer,inserted]

theorem settled_basic (ascii : ∀ cp ∈ basic,cp < 0x80) : Settled (start basic.length).n (start basic.length).i basic where
  inside := Nat.zero_le _
  most cp member := (ascii cp member).le
  behind cp member := ascii cp (List.mem_of_mem_drop member)

/-- A result of the loop has the plan that was spelled, and no distance of it leaves 32 bits. -/
theorem noOverflow_of_decodeLoop (ascii : ∀ cp ∈ basic,cp < 0x80) (lower : LowerDigits extended) (short : result.length < 2 ^ 32)
    (points : ∀ cp ∈ result,cp < 0x110000) (decoded : decodeLoop initialN 0 initialBias basic extended = .ok result) :
    NoOverflow result ∧ basic = result.filter (· < 0x80) ∧ extended = (start basic.length).spell (planFrom result initialN) := by
  have inside : (start basic.length).i ≤ (start basic.length).len := Nat.zero_le _
  obtain ⟨plan,follows,bounded,built,spelled⟩ := @decodeLoop_sound (start basic.length) _ _ _ decoded lower rfl inside short
  have kept : result.filter (· < 0x80) = basic := by
    rw [← built,filter_build follows le_rfl rfl]
    exact List.filter_eq_self.mpr fun cp member => decide_eq_true (ascii cp member)
  have stands := stands_start result
  rw [kept] at stands
  have whole : build basic (planFrom result initialN) = result := by
    conv_lhs => rw [← kept]
    exact build_planFrom points
  have same := plan_unique (settled_basic ascii) rfl ascii follows (follows_planFrom stands) (built.trans whole.symm)
  rw [same] at bounded spelled
  exact ⟨(bounded_planFrom points short stands).mp bounded,kept.symm,spelled⟩

/-- A Rust string; the length of a string header has 32 bits. -/
structure Text where
  points : List Nat
  scalar : points.all isScalar
  short : points.length < 2 ^ 32

theorem Text.point (s : Text) : ∀ cp ∈ s.points,cp < 0x110000 := by
  intro cp member
  have scalar := List.all_eq_true.mp s.scalar cp member
  exact (of_decide_eq_true scalar).1

/-- No sum or product of the encoder leaves 32 bits: what the arithmetic does there does not matter. -/
def NeverWraps (input : List Nat) : Prop :=
  ∀ wrap : Arithmetic,(∀ x < 2 ^ 32,wrap x = x) → encodeWith wrap input = encode input

theorem encodeWith_eq (s : Text) (far : NoOverflow s.points) {wrap : Arithmetic} (exact_below : ∀ x < 2 ^ 32,wrap x = x) :
    encodeWith wrap s.points = join (s.points.filter (· < 0x80))
      ((start (s.points.filter (· < 0x80)).length).spell (planFrom s.points initialN)) := by
  have stands := stands_start s.points
  have ready (output : List Nat) : Ready (s.points.filter (· < 0x80)).length initialN 0 (start (s.points.filter (· < 0x80)).length)
      ⟨output,0,initialBias,(s.points.filter (· < 0x80)).length⟩ := by
    refine ⟨rfl,rfl,?_,by simp [start],le_rfl⟩
    simp [start]
  have bounded := (bounded_planFrom s.point s.short stands).mpr far
  unfold encodeWith
  dsimp only
  rw [Nat.mod_eq_of_lt s.short,encodeLoop_output exact_below s.point s.short stands (ready _) bounded]
  rfl

theorem mod_exact : ∀ x < 2 ^ 32,x % 2 ^ 32 = x := fun _ => Nat.mod_eq_of_lt

theorem len_after {walk : Walk} {plan : List Insertion} : (walk.after plan).len = walk.len + plan.length := by
  induction plan generalizing walk with
  | nil => rfl
  | cons e plan ih =>
    change ((walk.next e).after plan).len = _
    rw [ih,List.length_cons,Nat.add_comm plan.length,← Nat.add_assoc]
    rfl

theorem mem_sweepPlan {m count : Nat} {e : Insertion} (member : e ∈ sweepPlan m count input) : e.1 = m := by
  induction input generalizing count with
  | nil => cases member
  | cons cp input ih =>
    rw [sweepPlan] at member
    split_ifs at member with low same
    · exact ih member
    · rcases List.mem_cons.mp member with rfl | member
      · rfl
      · exact ih member
    · exact ih member

theorem mem_planFrom {n : Nat} {e : Insertion} (member : e ∈ planFrom input n) : e.1 ∈ input := by
  fun_induction planFrom input n with
  | case1 n left ih =>
    rcases List.mem_append.mp member with here | later
    · exact mem_sweepPlan here ▸ left.2
    · exact ih later
  | case2 n none => cases member

/-- Without overflow the string is read back. -/
theorem decode_encode (s : Text) (far : NoOverflow s.points) : decode (encode s.points) = .ok s.points := by
  obtain ⟨extended,joined,digits⟩ := encodeWith_join (· % 2 ^ 32) s.points
  have spelled := encodeWith_eq s far mod_exact
  have ascii : ∀ cp ∈ s.points.filter (· < 0x80),cp < 0x80 := fun cp member => of_decide_eq_true (List.mem_filter.mp member).2
  have stands := stands_start s.points
  have follows := follows_planFrom stands
  have whole := build_planFrom (n := initialN) s.point
  have same : extended = (start (s.points.filter (· < 0x80)).length).spell (planFrom s.points initialN) :=
    List.append_cancel_left (joined.symm.trans spelled)
  rw [encode,joined,decode_join ascii digits.free,finish_ok]
  refine ⟨?_,s.scalar⟩
  have length := (settled_after (settled_basic ascii) rfl follows).2
  rw [len_after] at length
  rw [same]
  have short : (start (s.points.filter (· < 0x80)).length).len + (planFrom s.points initialN).length < 2 ^ 32 := by
    rw [← length,whole]
    exact s.short
  have bounded := (bounded_planFrom s.point s.short stands).mpr far
  have points : ∀ e ∈ planFrom s.points initialN,e.1 < 0x110000 := fun e member => s.point e.1 (mem_planFrom member)
  have low : (start (s.points.filter (· < 0x80)).length).bias ≤ 213 := show initialBias ≤ 213 by decide
  have read := @decodeLoop_spell _ _ (s.points.filter (· < 0x80)) follows bounded points rfl (Nat.zero_le _) low short
  rw [whole] at read
  exact read

/-- Without overflow nothing wraps. -/
theorem neverWraps (s : Text) (far : NoOverflow s.points) : NeverWraps s.points := by
  intro wrap exact_below
  rw [encodeWith_eq s far exact_below,encode,encodeWith_eq s far mod_exact]

/-- A string that is read back has no overflow. -/
theorem noOverflow_of_decode_encode (s : Text) (decoded : decode (encode s.points) = .ok s.points) : NoOverflow s.points := by
  obtain ⟨extended,joined,digits⟩ := encodeWith_join (· % 2 ^ 32) s.points
  have ascii : ∀ cp ∈ s.points.filter (· < 0x80),cp < 0x80 := fun cp member => of_decide_eq_true (List.mem_filter.mp member).2
  rw [encode,joined,decode_join ascii digits.free,finish_ok] at decoded
  exact (noOverflow_of_decodeLoop ascii digits.lower s.short s.point decoded.1).1

/-- What the decoder accepts is no shorter than its result. -/
theorem length_le_of_decodeLoop {n i bias : Nat} {output : List Nat} (decoded : decodeLoop n i bias output input = .ok result) :
    result.length ≤ output.length + input.length := by
  induction size : input.length using Nat.strong_induction_on generalizing n i bias output input with
  | _ size ih =>
    subst size
    rw [decodeLoop] at decoded
    split at decoded
    · cases decoded
      exact Nat.le_add_right _ _
    · split at decoded
      · cases decoded
      · rename_i next rest read
        dsimp only at decoded
        split_ifs at decoded with wide far outside
        have shorter := decodeInteger_length read
        have bound := ih _ shorter decoded rfl
        rw [List.length_insertIdx_of_le_length (Nat.not_lt.mp outside)] at bound
        omega

/-- The decoder's results are encoded as they were spelled. -/
theorem encode_of_decode (t : Text) (lower : LowerDigits t.points) (decoded : decode t.points = .ok result) :
    encode result = t.points := by
  obtain ⟨basic,extended,parts,ascii,looped,scalar⟩ := decode_ok decoded
  have length := length_le_of_decodeLoop looped
  have short : result.length < 2 ^ 32 := by
    have whole := t.short
    rw [parts,join,List.length_append] at whole
    split_ifs at whole
    · omega
    · rw [List.length_append] at whole
      omega
  let s : Text := ⟨result,scalar,short⟩
  have lower_extended : LowerDigits extended := by
    intro cp member
    apply lower cp
    rw [parts]
    exact List.mem_append_right _ member
  obtain ⟨far,kept,spelled⟩ := noOverflow_of_decodeLoop ascii lower_extended short s.point looped
  rw [encode,encodeWith_eq s far mod_exact,parts]
  change join (result.filter (· < 0x80)) _ = _
  rw [← kept,← spelled]

theorem finish_safe {output : Except Failure (List Nat)} (safe : output ≠ .error .panic) : finish output ≠ .error .panic := by
  cases output with
  | error failure => exact fun wrong => safe (by cases wrong; rfl)
  | ok output =>
    change (if output.all isScalar then Except.ok output else .error invalidInput) ≠ _
    split_ifs <;> exact fun wrong => by cases wrong

/-- Every string is decoded or refused. -/
theorem decode_safe (t : Text) : decode t.points ≠ .error .panic := by
  have short := t.short
  have spec := @rfindDelimiter_sound t.points
  rw [decode]
  cases found : rfindDelimiter t.points with
  | none =>
    apply finish_safe
    apply decodeLoop_safe
    rw [List.length_nil,Nat.zero_add]
    exact short
  | some place =>
    rw [found] at spec
    obtain ⟨basic,extended,parts,rfl,_⟩ := spec
    dsimp only
    split_ifs with empty high
    · exact fun wrong => by cases wrong
    · exact fun wrong => by cases wrong
    · apply finish_safe
      apply decodeLoop_safe
      rw [parts,List.take_left,← List.drop_drop,List.drop_left,List.drop_one,List.tail_cons]
      rw [parts,List.length_append,List.length_cons] at short
      omega

/-- A string is read back and nothing wraps exactly when no distance leaves 32 bits; what the decoder
accepts in lower case is always encoded as it was spelled, and the decoder does not panic. -/
theorem punycode_roundTrip_iff (s t : Text) :
    ((decode (encode s.points) = .ok s.points ∧ NeverWraps s.points) ↔ NoOverflow s.points) ∧
      decode t.points ≠ .error .panic ∧
      ∀ result,decode t.points = .ok result → LowerDigits t.points → encode result = t.points := by
  refine ⟨⟨?_,?_⟩,decode_safe t,?_⟩
  · rintro ⟨decoded,_⟩
    exact noOverflow_of_decode_encode s decoded
  · intro far
    exact ⟨decode_encode s far,neverWraps s far⟩
  · intro result decoded lower
    exact encode_of_decode t lower decoded

/-- Four thousand letters in front of the last code point. -/
def farText : Text where
  points := List.replicate 4000 0x61 ++ [0x10FFFF]
  scalar := by
    rw [List.all_append,List.all_replicate]
    rfl
  short := by
    rw [List.length_append,List.length_replicate]
    norm_num

/-- The distance of the last code point wraps around, and the string is not read back. -/
theorem punycode_farText : decode (encode farText.points) ≠ .ok farText.points := by
  intro decoded
  have member : 0x10FFFF ∈ farText.points := List.mem_append_right _ List.mem_cons_self
  have far := noOverflow_of_decode_encode farText decoded 0x10FFFF member (by decide)
  have low : farText.points.filter (· < 0x10FFFF) = List.replicate 4000 0x61 := by
    rw [farText,List.filter_append,List.filter_replicate_of_pos (by decide),List.filter_cons_of_neg (by decide),
      List.filter_nil,List.append_nil]
  have before : previous farText.points 0x10FFFF ≤ initialN := by
    rw [previous,low,foldl_max_le]
    refine ⟨le_rfl,fun cp letter => ?_⟩
    rw [List.eq_of_mem_replicate letter]
    decide
  rw [low,List.length_replicate] at far
  have least : (0x10FFFF - initialN) * (4000 + 1) ≤ (0x10FFFF - previous farText.points 0x10FFFF) * (4000 + 1) :=
    Nat.mul_le_mul_right _ (Nat.sub_le_sub_left before _)
  unfold initialN at least
  omega

end laws

end Perry.Unicode.Punycode
