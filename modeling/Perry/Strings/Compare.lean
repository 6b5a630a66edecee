import Perry.Strings.Header

/-! The order of strings. Units decide where both strings are UTF-8, bytes where one of them holds a
lone surrogate, and bytes are ordered as code points are. -/
namespace Perry.Strings

open Unicode

/-- `<[u8]>::cmp`. -/
def cmpBytes (a b : List UInt8) : Ordering := compare (a.map UInt8.toNat) (b.map UInt8.toNat)

def utf16CmpBytes (a b : List UInt8) : Ordering :=
  if allAscii a && allAscii b then cmpBytes a b
  else match fromUtf8 a,fromUtf8 b with
    | some as,some bs => compare (units as) (units bs)
    | _,_ => cmpBytes a b

def sign : Ordering → Int
  | .lt => -1
  | .eq => 0
  | .gt => 1

/-- A pointer that is not valid reads as none. -/
def jsStringCompare : Option StringHeader → Option StringHeader → Int
  | none,none => 0
  | none,some _ => -1
  | some _,none => 1
  | some a,some b => sign (utf16CmpBytes a.bytes b.bytes)

/-- The first half of an astral code point. -/
def leadOf (c : Nat) : Nat := 0xD800 + (c - 0x10000) / 1024

/-- Where the lists first differ, the first has the smaller code point and the greater unit: an
astral code point meets one that is above its first half, or a lone surrogate equal to that half
with a unit from 0xE000 on behind it. -/
def Turned : List Nat → List Nat → Prop
  | c :: as,d :: bs =>
    if c = d then Turned as bs
    else c < 0x10000 ∧ 0x10000 ≤ d ∧
      (leadOf d < c ∨ c = leadOf d ∧ as.head?.any (fun e => 0xE000 ≤ e && e < 0x10000) = true)
  | _,_ => False

section order

variable {as bs : List Nat} {c d : Nat}

theorem compare_cons_lt {a b : Nat} (less : a < b) (as bs : List Nat) : compare (a :: as) (b :: bs) = .lt :=
  (Below.head less [] []).compare as bs

theorem compare_cons_gt {a b : Nat} (less : b < a) (as bs : List Nat) : compare (a :: as) (b :: bs) = .gt := by
  rw [← compare_swap,compare_cons_lt less]
  rfl

theorem units_narrow (narrow : c < 0x10000) (as : List Nat) : units (c :: as) = c :: units as := by
  rw [units_cons,unitsOf,if_pos narrow]
  rfl

theorem units_astral (astral : 0x10000 ≤ c) (as : List Nat) :
    units (c :: as) = leadOf c :: (0xDC00 + (c - 0x10000) % 1024) :: units as := by
  rw [units_cons,unitsOf,if_neg (by omega)]
  rfl

/-- A smaller code point has the smaller units, unless an astral one meets a greater unit. -/
theorem units_lt_iff (less : c < d) (bounded : Bounded (c :: as)) (small : d < 0x110000)
    (joined : (c :: as).IsChain fun c d => ¬ (isHigh c = true ∧ isLow d = true)) :
    compare (units (c :: as)) (units (d :: bs)) = .lt ↔ ¬ (c < 0x10000 ∧ 0x10000 ≤ d ∧
      (leadOf d < c ∨ c = leadOf d ∧ as.head?.any (fun e => 0xE000 ≤ e && e < 0x10000) = true)) := by
  by_cases astral : 0x10000 ≤ d
  · rw [units_astral astral]
    by_cases narrow : c < 0x10000
    · rw [units_narrow narrow]
      obtain before | same | after := Nat.lt_trichotomy c (leadOf d)
      · rw [compare_cons_lt before]
        simp only [true_iff]
        omega
      · have half : isHigh c = true := by
          rw [isHigh,decide_eq_true_iff,same,leadOf]
          omega
        rw [← same,List.compare_cons_cons,Nat.compare_eq_eq.mpr rfl,Ordering.eq_then]
        cases as with
        | nil => simp
        | cons e as =>
          have apart : isLow e = false := by
            have pair := (List.isChain_cons_cons.mp joined).1
            simpa [half] using pair
          have bound := bounded.cons.2.cons.1
          rw [isLow,decide_eq_false_iff_not] at apart
          by_cases wide : 0x10000 ≤ e
          · rw [units_astral wide,compare_cons_lt]
            · simp [wide]
            · rw [leadOf]
              omega
          · rw [units_narrow (by omega)]
            by_cases low : e < 0xDC00
            · rw [compare_cons_lt (by omega)]
              simp
              omega
            · rw [compare_cons_gt (by omega)]
              simp
              omega
      · rw [compare_cons_gt after]
        simp [narrow,astral,after]
    · rw [units_astral (c := c) (by omega)]
      simp only [narrow,false_and,not_false_eq_true,iff_true]
      by_cases same : leadOf c = leadOf d
      · rw [same,List.compare_cons_cons,Nat.compare_eq_eq.mpr rfl,Ordering.eq_then,compare_cons_lt]
        unfold leadOf at same
        omega
      · rw [compare_cons_lt]
        unfold leadOf at same ⊢
        omega
  · rw [units_narrow (c := c) (by omega),units_narrow (c := d) (by omega),compare_cons_lt less]
    simp [astral]

/-- Units are ordered as code points are, unless they are turned. -/
theorem compare_units_iff (bounded : Bounded as) (bounded' : Bounded bs)
    (joined : as.IsChain fun c d => ¬ (isHigh c = true ∧ isLow d = true))
    (joined' : bs.IsChain fun c d => ¬ (isHigh c = true ∧ isLow d = true)) :
    compare (units as) (units bs) = compare as bs ↔ ¬ Turned as bs ∧ ¬ Turned bs as := by
  have some (c : Nat) (as : List Nat) : ∃ u us,units (c :: as) = u :: us := by
    obtain narrow | wide := Nat.lt_or_ge c 0x10000
    · exact ⟨_,_,units_narrow narrow as⟩
    · exact ⟨_,_,units_astral wide as⟩
  induction as generalizing bs with
  | nil =>
    cases bs with
    | nil => simp [Turned]
    | cons d bs =>
      obtain ⟨u,us,shape⟩ := some d bs
      rw [shape]
      simp [Turned]
  | cons c as ih =>
    cases bs with
    | nil =>
      obtain ⟨u,us,shape⟩ := some c as
      rw [shape]
      simp [Turned]
    | cons d bs =>
      rw [Turned,Turned,List.compare_cons_cons]
      obtain less | rfl | greater := Nat.lt_trichotomy c d
      · rw [Nat.compare_eq_lt.mpr less,Ordering.lt_then,units_lt_iff less bounded bounded'.cons.1 joined,if_neg less.ne,
          if_neg less.ne']
        exact (and_iff_left fun wrong => absurd (wrong.1.trans_le wrong.2.1) less.not_gt).symm
      · rw [if_pos rfl,if_pos rfl,Nat.compare_eq_eq.mpr rfl,Ordering.eq_then,units_cons,units_cons,compare_append]
        exact ih bounded.cons.2 bounded'.cons.2 joined.tail joined'.tail
      · have turned := @units_lt_iff _ as _ _ greater bounded' bounded.cons.1 joined'
        rw [Nat.compare_eq_gt.mpr greater,Ordering.gt_then,← compare_swap,Ordering.swap_eq_gt,turned,if_neg greater.ne,
          if_neg greater.ne']
        exact (and_iff_right fun wrong => absurd (wrong.1.trans_le wrong.2.1) greater.not_gt).symm

/-- The units determine the code points of well-formed WTF-8. -/
theorem units_injective (bounded : Bounded as) (bounded' : Bounded bs)
    (joined : as.IsChain fun c d => ¬ (isHigh c = true ∧ isLow d = true))
    (joined' : bs.IsChain fun c d => ¬ (isHigh c = true ∧ isLow d = true)) (same : units as = units bs) : as = bs := by
  have apart {c d : Nat} {as bs : List Nat} (narrow : c < 0x10000) (wide : 0x10000 ≤ d) (bounded : Bounded (c :: as))
      (small : d < 0x110000) (joined : (c :: as).IsChain fun c d => ¬ (isHigh c = true ∧ isLow d = true)) :
      units (c :: as) ≠ units (d :: bs) := by
    rw [units_narrow narrow,units_astral wide]
    intro same
    obtain ⟨lead,same⟩ := List.cons.inj same
    cases as with
    | nil => cases same
    | cons e as =>
      have bound := bounded.cons.2.cons.1
      by_cases astral : 0x10000 ≤ e
      · rw [units_astral astral] at same
        have first := (List.cons.inj same).1
        rw [leadOf] at first
        omega
      · rw [units_narrow (by omega)] at same
        have first := (List.cons.inj same).1
        rw [leadOf] at lead
        have pair := (List.isChain_cons_cons.mp joined).1
        rw [isHigh,isLow,decide_eq_true_iff,decide_eq_true_iff] at pair
        omega
  have some (c : Nat) (as : List Nat) : units (c :: as) ≠ [] := by
    obtain narrow | wide := Nat.lt_or_ge c 0x10000
    · rw [units_narrow narrow]
      exact List.cons_ne_nil _ _
    · rw [units_astral wide]
      exact List.cons_ne_nil _ _
  induction as generalizing bs with
  | nil =>
    cases bs with
    | nil => rfl
    | cons d bs => exact absurd same.symm (some d bs)
  | cons c as ih =>
    cases bs with
    | nil => exact absurd same (some c as)
    | cons d bs =>
      have later := ih bounded.cons.2 bounded'.cons.2 joined.tail joined'.tail
      by_cases narrow : c < 0x10000
      · by_cases narrow' : d < 0x10000
        · rw [units_narrow narrow,units_narrow narrow'] at same
          obtain ⟨rfl,rest⟩ := List.cons.inj same
          rw [later rest]
        · exact absurd same (apart narrow (by omega) bounded bounded'.cons.1 joined)
      · by_cases narrow' : d < 0x10000
        · exact absurd same.symm (apart narrow' (by omega) bounded' bounded.cons.1 joined')
        · rw [units_astral (by omega),units_astral (by omega)] at same
          obtain ⟨lead,same⟩ := List.cons.inj same
          obtain ⟨trail,same⟩ := List.cons.inj same
          unfold leadOf at lead
          have both : c = d := by omega
          rw [both,later same]

theorem compare_eq_iff (as bs : List Nat) : compare as bs = .eq ↔ as = bs := by
  induction as generalizing bs with
  | nil => cases bs <;> simp
  | cons a as ih =>
    cases bs with
    | nil => simp
    | cons b bs => rw [List.compare_cons_cons,Ordering.then_eq_eq,Nat.compare_eq_eq,ih,List.cons.injEq]

theorem utf16CmpBytes_wtf8 (bounded : Bounded as) (bounded' : Bounded bs) : utf16CmpBytes (wtf8 as) (wtf8 bs) =
    if as.any isSurrogate || bs.any isSurrogate then compare as bs else compare (units as) (units bs) := by
  have plain {as : List Nat} (ascii : as.all (· < 0x80) = true) : as.any isSurrogate = false ∧ units as = as := by
    rw [List.all_eq_true] at ascii
    refine ⟨List.any_eq_false.mpr fun c member => ?_,units_ascii fun c member => of_decide_eq_true (ascii c member)⟩
    have small := of_decide_eq_true (ascii c member)
    rw [isSurrogate,decide_eq_true_iff]
    omega
  rw [utf16CmpBytes,allAscii_wtf8 bounded,allAscii_wtf8 bounded',cmpBytes,compare_wtf8 bounded bounded',
    fromUtf8_wtf8 bounded,fromUtf8_wtf8 bounded']
  by_cases ascii : (as.all (· < 0x80) && bs.all (· < 0x80)) = true
  · rw [if_pos ascii]
    rw [Bool.and_eq_true] at ascii
    obtain ⟨scalars,same⟩ := plain ascii.1
    obtain ⟨scalars',same'⟩ := plain ascii.2
    rw [scalars,scalars',same,same']
    rfl
  · rw [if_neg ascii]
    cases as.any isSurrogate <;> cases bs.any isSurrogate <;> rfl

end order

/-- The comparison gives the order of the code units exactly where both strings are UTF-8 or their
order in bytes is not turned. It is antisymmetric, and tells different strings apart. -/
theorem utf16CmpBytes_iff (a b : Text) :
    (utf16CmpBytes a.bytes b.bytes = compare a.units b.units ↔
      (∀ c ∈ a.points ++ b.points,isSurrogate c = false) ∨ ¬ Turned a.points b.points ∧ ¬ Turned b.points a.points) ∧
    (jsStringCompare (some a.header) (some b.header) = sign (compare a.units b.units) ↔
      (∀ c ∈ a.points ++ b.points,isSurrogate c = false) ∨ ¬ Turned a.points b.points ∧ ¬ Turned b.points a.points) ∧
    utf16CmpBytes b.bytes a.bytes = (utf16CmpBytes a.bytes b.bytes).swap ∧
    (utf16CmpBytes a.bytes b.bytes = .eq ↔ a.points = b.points) := by
  have turned := compare_units_iff a.bounded b.bounded a.joined b.joined
  have exact_iff : utf16CmpBytes a.bytes b.bytes = compare a.units b.units ↔
      (∀ c ∈ a.points ++ b.points,isSurrogate c = false) ∨ ¬ Turned a.points b.points ∧ ¬ Turned b.points a.points := by
    rw [← turned,Text.bytes,Text.bytes,utf16CmpBytes_wtf8 a.bounded b.bounded,← List.any_append]
    split_ifs with lone
    · obtain ⟨c,member,surrogate⟩ := List.any_eq_true.mp lone
      rw [or_iff_right fun scalars => absurd (scalars c member) (by rw [surrogate]; decide)]
      exact eq_comm
    · rw [Bool.not_eq_true,List.any_eq_false] at lone
      simp only [Bool.not_eq_true] at lone
      exact iff_of_true rfl (.inl lone)
  refine ⟨exact_iff,?_,?_,?_⟩
  · rw [← exact_iff]
    have signs : ∀ o o' : Ordering,sign o = sign o' ↔ o = o' := by decide
    exact signs _ _
  · rw [Text.bytes,Text.bytes,utf16CmpBytes_wtf8 a.bounded b.bounded,utf16CmpBytes_wtf8 b.bounded a.bounded,Bool.or_comm]
    split_ifs <;> rw [compare_swap]
  · rw [Text.bytes,Text.bytes,utf16CmpBytes_wtf8 a.bounded b.bounded]
    split_ifs
    · exact compare_eq_iff _ _
    · rw [compare_eq_iff]
      exact ⟨units_injective a.bounded b.bounded a.joined b.joined,congrArg units⟩

/-- Three strings in a cycle: U+E000, the same with a lone surrogate behind it, and an astral
character. The first two and the last two are compared by bytes, against the units. -/
theorem utf16CmpBytes_cycle : ∃ a b c : Text,a.units = [0xE000] ∧ b.units = [0xE000,0xD800] ∧ c.units = [0xD83D,0xDE00] ∧
    utf16CmpBytes a.bytes b.bytes = .lt ∧ utf16CmpBytes b.bytes c.bytes = .lt ∧ utf16CmpBytes c.bytes a.bytes = .lt ∧
    compare b.units c.units = .gt := by
  exact ⟨⟨[0xE000],by decide,.singleton _⟩,⟨[0xE000,0xD800],by decide,List.isChain_pair.mpr (by decide)⟩,
    ⟨[0x1F600],by decide,.singleton _⟩,by decide,by decide,by decide,by decide,by decide,by decide,by decide⟩

end Perry.Strings
