import Perry.Unicode.Lossy

/-! Sequences of code points, surrogates among them, as bytes and as code units. The bytes can be
cut where no continuation byte stands, and their order is the order of the code points. -/
namespace Perry.Unicode

def isSurrogate (c : Nat) : Bool := 0xD800 ≤ c ∧ c ≤ 0xDFFF

def Bounded (points : List Nat) : Prop := ∀ c ∈ points,c < 0x110000

instance (points : List Nat) : Decidable (Bounded points) := inferInstanceAs (Decidable (∀ c ∈ points,c < 0x110000))

theorem bounded_scalars {points : List Nat} (scalars : ∀ c ∈ points,isScalar c = true) : Bounded points := by
  intro c member
  have scalar := scalars c member
  rw [isScalar,decide_eq_true_iff] at scalar
  exact scalar.1

def wtf8 (points : List Nat) : List UInt8 := points.flatMap encodeUtf8

def units (points : List Nat) : List Nat := points.flatMap unitsOf

/-- The bytes of a code point as numbers. -/
def digits (c : Nat) : List Nat :=
  if c < 0x80 then [c]
  else if c < 0x800 then [0xC0 + c / 64,0x80 + c % 64]
  else if c < 0x10000 then [0xE0 + c / 4096,0x80 + c / 64 % 64,0x80 + c % 64]
  else [0xF0 + c / 262144,0x80 + c / 4096 % 64,0x80 + c / 64 % 64,0x80 + c % 64]

section lists

variable {points front back : List Nat} {c : Nat}

@[simp] theorem wtf8_nil : wtf8 [] = [] := rfl

theorem wtf8_cons (c : Nat) (points : List Nat) : wtf8 (c :: points) = encodeUtf8 c ++ wtf8 points := List.flatMap_cons

theorem wtf8_append (front back : List Nat) : wtf8 (front ++ back) = wtf8 front ++ wtf8 back := List.flatMap_append

@[simp] theorem units_nil : units [] = [] := rfl

theorem units_cons (c : Nat) (points : List Nat) : units (c :: points) = unitsOf c ++ units points := List.flatMap_cons

theorem units_append (front back : List Nat) : units (front ++ back) = units front ++ units back := List.flatMap_append

theorem Bounded.cons (bounded : Bounded (c :: points)) : c < 0x110000 ∧ Bounded points := List.forall_mem_cons.mp bounded

theorem Bounded.append (bounded : Bounded (front ++ back)) : Bounded front ∧ Bounded back := List.forall_mem_append.mp bounded

theorem utf16_wtf8 (bounded : Bounded points) : utf16 (wtf8 points) = units points := by
  induction points with
  | nil => rfl
  | cons c points ih =>
    obtain ⟨small,others⟩ := bounded.cons
    rw [wtf8_cons,units_cons,utf16_encodeUtf8 small,ih others]

theorem digits_toNat (small : c < 0x110000) : (encodeUtf8 c).map UInt8.toNat = digits c := by
  have byte {n m : Nat} (value : n = m) (narrow : m < 256) : (UInt8.ofNat n).toNat = m := by
    rw [value]
    exact toNat_ofNat_of_lt narrow
  unfold encodeUtf8 digits
  split
  · next one => rw [List.map_singleton,byte rfl (by omega)]
  split
  · next one two =>
    rw [List.map_cons,List.map_singleton,byte (m := 0xC0 + c / 64) (by omega) (by omega),byte rfl (by omega)]
  split
  · next one two three =>
    rw [List.map_cons,List.map_cons,List.map_singleton,byte (m := 0xE0 + c / 4096) (by omega) (by omega),
      byte rfl (by omega),byte rfl (by omega)]
  · rw [List.map_cons,List.map_cons,List.map_cons,List.map_singleton,
      byte (m := 0xF0 + c / 262144) (by omega) (by omega),byte rfl (by omega),byte rfl (by omega),byte rfl (by omega)]

end lists

section order

variable {c d : Nat} {as bs : List Nat}

/-- At the first place where they differ, the first list is below the second. -/
inductive Below : List Nat → List Nat → Prop
  | head {a b : Nat} (less : a < b) (as bs : List Nat) : Below (a :: as) (b :: bs)
  | tail (a : Nat) {as bs : List Nat} (later : Below as bs) : Below (a :: as) (a :: bs)

theorem Below.compare {as bs : List Nat} (below : Below as bs) (as' bs' : List Nat) :
    compare (as ++ as') (bs ++ bs') = .lt := by
  induction below with
  | head less as bs =>
    rw [List.cons_append,List.cons_append,List.compare_cons_cons,Nat.compare_eq_lt.mpr less]
    rfl
  | tail a later ih =>
    rw [List.cons_append,List.cons_append,List.compare_cons_cons,Nat.compare_eq_eq.mpr rfl,ih]
    rfl

theorem compare_append (front as bs : List Nat) : compare (front ++ as) (front ++ bs) = compare as bs := by
  induction front with
  | nil => rfl
  | cons c front ih =>
    rw [List.cons_append,List.cons_append,List.compare_cons_cons,Nat.compare_eq_eq.mpr rfl,ih]
    rfl

theorem compare_self (as : List Nat) : compare as as = .eq := by
  have whole := compare_append as [] []
  rwa [List.append_nil] at whole

theorem compare_swap (as bs : List Nat) : (compare as bs).swap = compare bs as := by
  induction as generalizing bs with
  | nil => cases bs <;> rfl
  | cons a as ih =>
    cases bs with
    | nil => rfl
    | cons b bs => rw [List.compare_cons_cons,List.compare_cons_cons,Ordering.swap_then,ih,Nat.compare_swap]

/-- The bytes of a smaller code point are below. -/
theorem digits_below (less : c < d) (small : d < 0x110000) : Below (digits c) (digits d) := by
  unfold digits
  split_ifs
  any_goals omega
  any_goals
    apply Below.head
    omega
  · by_cases first : c / 64 = d / 64
    · rw [first]
      exact .tail _ (.head (by omega) _ _)
    · exact .head (by omega) _ _
  · by_cases first : c / 4096 = d / 4096
    · rw [first]
      apply Below.tail
      by_cases second : c / 64 % 64 = d / 64 % 64
      · rw [second]
        exact .tail _ (.head (by omega) _ _)
      · exact .head (by omega) _ _
    · exact .head (by omega) _ _
  · by_cases first : c / 262144 = d / 262144
    · rw [first]
      apply Below.tail
      by_cases second : c / 4096 % 64 = d / 4096 % 64
      · rw [second]
        apply Below.tail
        by_cases third : c / 64 % 64 = d / 64 % 64
        · rw [third]
          exact .tail _ (.head (by omega) _ _)
        · exact .head (by omega) _ _
      · exact .head (by omega) _ _
    · exact .head (by omega) _ _

/-- Bytes are ordered as the code points are. -/
theorem compare_wtf8 (bounded : Bounded as) (bounded' : Bounded bs) :
    compare ((wtf8 as).map UInt8.toNat) ((wtf8 bs).map UInt8.toNat) = compare as bs := by
  have whole {c : Nat} {as : List Nat} (bounded : Bounded (c :: as)) :
      (wtf8 (c :: as)).map UInt8.toNat = digits c ++ (wtf8 as).map UInt8.toNat := by
    rw [wtf8_cons,List.map_append,digits_toNat bounded.cons.1]
  have some (c : Nat) : ∃ b rest,digits c = b :: rest := by
    unfold digits
    split_ifs <;> exact ⟨_,_,rfl⟩
  induction as generalizing bs with
  | nil =>
    cases bs with
    | nil => rfl
    | cons d bs =>
      obtain ⟨b,rest,shape⟩ := some d
      rw [whole bounded',shape]
      rfl
  | cons c as ih =>
    cases bs with
    | nil =>
      obtain ⟨b,rest,shape⟩ := some c
      rw [whole bounded,shape]
      rfl
    | cons d bs =>
      rw [whole bounded,whole bounded',List.compare_cons_cons]
      obtain less | rfl | greater := Nat.lt_trichotomy c d
      · rw [(digits_below less bounded'.cons.1).compare,Nat.compare_eq_lt.mpr less]
        rfl
      · rw [compare_append,ih bounded.cons.2 bounded'.cons.2,Nat.compare_eq_eq.mpr rfl]
        rfl
      · rw [← compare_swap,(digits_below greater bounded.cons.1).compare,Nat.compare_eq_gt.mpr greater]
        rfl

end order

section cuts

variable {points as bs : List Nat} {c : Nat} {front back rest : List UInt8}

theorem isContinuation_ofNat {n : Nat} (narrow : n < 256) :
    isContinuation (.ofNat n) = decide (0x80 ≤ n ∧ n < 0xC0) := by
  rw [isContinuation,toNat_ofNat_of_lt narrow]

/-- A code point is a first byte and continuation bytes. -/
theorem encodeUtf8_lead (small : c < 0x110000) : ∃ lead conts,encodeUtf8 c = lead :: conts ∧ isContinuation lead = false ∧
    ∀ b ∈ conts,isContinuation b = true := by
  have continues (n : Nat) : isContinuation (.ofNat (0x80 + n % 64)) = true := by
    rw [isContinuation_ofNat (by omega),decide_eq_true_eq]
    omega
  have leads {n : Nat} (narrow : n < 256) (high : n < 0x80 ∨ 0xC0 ≤ n) : isContinuation (.ofNat n) = false := by
    rw [isContinuation_ofNat narrow,decide_eq_false_iff_not]
    omega
  have last (n : Nat) : ∀ b ∈ [UInt8.ofNat (0x80 + n % 64)],isContinuation b = true := List.forall_mem_singleton.mpr (continues n)
  unfold encodeUtf8
  split_ifs
  · exact ⟨_,_,rfl,leads (by omega) (by omega),List.forall_mem_nil _⟩
  · exact ⟨_,_,rfl,leads (by omega) (by omega),last c⟩
  · exact ⟨_,_,rfl,leads (by omega) (by omega),List.forall_mem_cons.mpr ⟨continues _,last c⟩⟩
  · refine ⟨_,_,rfl,leads (by omega) (by omega),List.forall_mem_cons.mpr ⟨continues _,?_⟩⟩
    exact List.forall_mem_cons.mpr ⟨continues _,last c⟩

/-- Bytes that do not start with a continuation byte. -/
def Clean (bytes : List UInt8) : Prop := ∀ b rest,bytes = b :: rest → isContinuation b = false

theorem clean_wtf8 (bounded : Bounded points) (rest : List UInt8) (clean : Clean rest) : Clean (wtf8 points ++ rest) := by
  cases points with
  | nil => exact clean
  | cons c points =>
    obtain ⟨lead,conts,encoded,starts,-⟩ := encodeUtf8_lead bounded.cons.1
    intro b more shape
    rw [wtf8_cons,encoded,List.append_assoc,List.cons_append,List.cons.injEq] at shape
    rw [← shape.1]
    exact starts

/-- Where no continuation byte follows, a cut of the bytes is one between code points. -/
theorem wtf8_cut (bounded : Bounded points) (same : wtf8 points = front ++ back) (clean : Clean back) :
    ∃ as bs,points = as ++ bs ∧ front = wtf8 as ∧ back = wtf8 bs := by
  induction points generalizing front with
  | nil =>
    obtain ⟨rfl,rfl⟩ := List.append_eq_nil_iff.mp same.symm
    exact ⟨[],[],rfl,rfl,rfl⟩
  | cons c points ih =>
    obtain ⟨lead,conts,encoded,-,continuation⟩ := encodeUtf8_lead bounded.cons.1
    cases front with
    | nil => exact ⟨[],c :: points,rfl,rfl,same.symm⟩
    | cons b front =>
      rw [wtf8_cons,encoded,List.cons_append,List.cons_append,List.cons.injEq] at same
      obtain ⟨rfl,same⟩ := same
      obtain ⟨more,rfl,later⟩ | ⟨more,rfl,later⟩ := List.append_eq_append_iff.mp same
      · obtain ⟨as,bs,rfl,rfl,rfl⟩ := ih bounded.cons.2 later
        exact ⟨c :: as,bs,rfl,by rw [wtf8_cons,encoded,List.cons_append],rfl⟩
      · cases more with
        | nil =>
          rw [List.append_nil] at encoded
          exact ⟨[c],points,rfl,by rw [wtf8_cons,encoded,wtf8_nil,List.append_nil],later⟩
        | cons x more =>
          have starts := clean x _ later
          rw [continuation x (List.mem_append_right _ List.mem_cons_self)] at starts
          cases starts

/-- No code point's bytes start with the bytes of another. -/
theorem wtf8_prefix (bounded : Bounded as) (bounded' : Bounded bs) (same : wtf8 as = wtf8 bs ++ rest) :
    ∃ cs,as = bs ++ cs ∧ rest = wtf8 cs := by
  induction bs generalizing as with
  | nil => exact ⟨as,rfl,same.symm⟩
  | cons d bs ih =>
    cases as with
    | nil =>
      obtain ⟨lead,conts,encoded,-⟩ := encodeUtf8_lead bounded'.cons.1
      rw [wtf8_cons,encoded] at same
      cases same
    | cons c as =>
      rw [wtf8_cons,wtf8_cons,List.append_assoc] at same
      have compared := congrArg (List.map UInt8.toNat) same
      rw [List.map_append,List.map_append,digits_toNat bounded.cons.1,digits_toNat bounded'.cons.1] at compared
      obtain less | rfl | greater := Nat.lt_trichotomy c d
      · have order := (digits_below less bounded'.cons.1).compare ((wtf8 as).map UInt8.toNat) ((wtf8 bs ++ rest).map UInt8.toNat)
        rw [compared,compare_self] at order
        cases order
      · obtain ⟨cs,rfl,rfl⟩ := ih bounded.cons.2 bounded'.cons.2 (List.append_cancel_left same)
        exact ⟨cs,rfl,rfl⟩
      · have order := (digits_below greater bounded.cons.1).compare ((wtf8 bs ++ rest).map UInt8.toNat) ((wtf8 as).map UInt8.toNat)
        rw [compared,compare_self] at order
        cases order

/-- Bytes of code points occur among others only where the code points do. -/
theorem wtf8_occurrence (bounded : Bounded points) (bounded' : Bounded bs) (some : bs ≠ [])
    (same : wtf8 points = front ++ (wtf8 bs ++ back)) :
    ∃ as cs,points = as ++ (bs ++ cs) ∧ front = wtf8 as ∧ back = wtf8 cs := by
  have clean : Clean (wtf8 bs ++ back) := by
    obtain ⟨d,bs,rfl⟩ := List.exists_cons_of_ne_nil some
    obtain ⟨lead,conts,encoded,starts,-⟩ := encodeUtf8_lead bounded'.cons.1
    intro b more shape
    rw [wtf8_cons,encoded,List.cons_append,List.cons_append,List.cons.injEq] at shape
    rw [← shape.1]
    exact starts
  obtain ⟨as,more,rfl,rfl,later⟩ := wtf8_cut bounded same clean
  obtain ⟨cs,rfl,rfl⟩ := wtf8_prefix bounded.append.2 bounded' later.symm
  exact ⟨as,cs,rfl,rfl,rfl⟩

/-- The bytes determine the code points. -/
theorem wtf8_injective (bounded : Bounded as) (bounded' : Bounded bs) (same : wtf8 as = wtf8 bs) : as = bs := by
  rw [← List.append_nil (wtf8 bs)] at same
  obtain ⟨cs,rfl,none⟩ := wtf8_prefix bounded bounded' same
  cases cs with
  | nil => exact List.append_nil bs
  | cons c cs =>
    obtain ⟨lead,conts,encoded,-⟩ := encodeUtf8_lead bounded.append.2.cons.1
    rw [wtf8_cons,encoded] at none
    cases none

end cuts

section validity

variable {points : List Nat} {c : Nat}

theorem isScalar_eq (small : c < 0x110000) : isScalar c = !isSurrogate c := by
  rw [isScalar,isSurrogate,decide_eq_decide.mpr (and_iff_right small),decide_not]

/-- No sequence of UTF-8 starts as a surrogate is spelled. -/
theorem parts_surrogate (surrogate : isSurrogate c = true) (rest : List UInt8) :
    none ∈ parts (encodeUtf8 c ++ rest) := by
  rw [isSurrogate,decide_eq_true_eq] at surrogate
  have lead := toNat_ofNat_of_lt (n := 0xE0 + c / 4096 % 16) (by omega)
  have second := toNat_ofNat_of_lt (n := 0x80 + c / 64 % 64) (by omega)
  have starts : followers (.ofNat (0xE0 + c / 4096 % 16)) = some [(0x80,0x9F),(0x80,0xBF)] := by
    unfold followers
    rw [lead,if_neg (by omega),if_neg (by omega),if_neg (by omega),if_neg (by omega),if_pos (by omega)]
  have none_fits : extent (.ofNat (0xE0 + c / 4096 % 16)) (.ofNat (0x80 + c / 64 % 64) :: .ofNat (0x80 + c % 64) :: rest) = 0 := by
    rw [extent,starts,Option.map_some,Option.getD_some,fitting,if_neg]
    rw [second]
    omega
  rw [encodeUtf8,if_neg (by omega),if_neg (by omega),if_pos (by omega),List.cons_append,List.cons_append,List.singleton_append,
    parts_cons,sequence,none_fits,starts]
  exact List.mem_cons_self

theorem parts_wtf8 (scalars : ∀ c ∈ points,isScalar c = true) : parts (wtf8 points) = points.map some :=
  parts_encoded scalars

/-- The bytes are UTF-8 where no surrogate is spelled. -/
theorem fromUtf8_wtf8 (bounded : Bounded points) :
    fromUtf8 (wtf8 points) = if points.any isSurrogate then none else some points := by
  split
  · next surrogates =>
    obtain ⟨c,member,surrogate⟩ := List.any_eq_true.mp surrogates
    have ill : none ∈ parts (wtf8 points) := by
      clear surrogates
      induction points with
      | nil => cases member
      | cons d points ih =>
        rw [wtf8_cons]
        cases scalar : isScalar d with
        | false =>
          rw [isScalar_eq bounded.cons.1,Bool.not_eq_false'] at scalar
          exact parts_surrogate scalar _
        | true =>
          rw [parts_encoded_cons scalar]
          refine List.mem_cons_of_mem _ (ih bounded.cons.2 ((List.mem_cons.mp member).resolve_left ?_))
          rintro rfl
          rw [isScalar_eq bounded.cons.1,surrogate] at scalar
          cases scalar
    rw [fromUtf8,if_neg]
    intro all
    have good := List.all_eq_true.mp all none ill
    cases good
  · next scalars =>
    have all : ∀ c ∈ points,isScalar c = true := by
      intro c member
      rw [isScalar_eq (bounded c member)]
      cases surrogate : isSurrogate c with
      | false => rfl
      | true => exact absurd (List.any_eq_true.mpr ⟨c,member,surrogate⟩) scalars
    have whole : (points.map some).all Option.isSome = true := by
      rw [List.all_map,List.all_eq_true]
      exact fun _ _ => rfl
    rw [fromUtf8,fromUtf8Lossy,parts_wtf8 all,if_pos whole,List.map_map]
    exact congrArg some (List.map_id _)

end validity

end Perry.Unicode
