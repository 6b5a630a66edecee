import Mathlib.Data.List.TakeWhile
import Perry.Runtime.DateText

/-! ISO texts of time values are read back. -/
namespace Perry.Runtime.Date

open Perry.Calendar Perry.Words
open Perry.Runtime.BigInt (isWhitespace trim trim_plain)

section Fields

variable {n least : Nat} {rest : List Char}

theorem length_two (fits : n < 100) : (padded 2 n).length = 2 := length_padded (by omega) fits

theorem head_padded (width n : Nat) (rest : List Char) : ∃ c,c.isDigit ∧ (padded width n ++ rest).head? = some c := by
  have some_digit : padded width n ≠ [] := padded_ne_nil
  obtain ⟨c,tail,shape⟩ := List.exists_cons_of_ne_nil some_digit
  exact ⟨c,isDigit_padded c (shape ▸ List.mem_cons_self ..),by rw [shape]; rfl⟩

theorem not_signed_padded (width n : Nat) (rest : List Char) : signed (padded width n ++ rest) = false := by
  obtain ⟨c,digit,head⟩ := head_padded width n rest
  have plus : c ≠ '+' := fun same => absurd (same ▸ digit) (by decide)
  have minus : c ≠ '-' := fun same => absurd (same ▸ digit) (by decide)
  simp [signed,head,plus,minus]

theorem parseSigned_padded {width : Nat} (fits : n < 2 ^ 63) : parseSigned (padded width n) = some ↑n := by
  rw [parseSigned_digits padded_ne_nil isDigit_padded (by rwa [digitsValue_padded]),digitsValue_padded]

theorem parseUnsigned_padded {width limit : Nat} (fits : n < limit) : parseUnsigned limit (padded width n) = some n := by
  rw [parseUnsigned_digits padded_ne_nil isDigit_padded (by rwa [digitsValue_padded]),digitsValue_padded]

theorem parseClockDigits_padded (fits : n < 100) (small : least ≤ 2) :
    parseClockDigits least 2 (padded 2 n ++ rest) = some (↑n,rest) := by
  have digits : (padded 2 n).takeWhile Char.isDigit = padded 2 n := List.takeWhile_eq_self_iff.mpr isDigit_padded
  rw [parseClockDigits,List.take_left' (length_two fits),digits,length_two fits,if_neg (by omega),parseSigned_padded (by omega),
    List.drop_left' (length_two fits)]
  rfl

theorem normalizeMillis_padded (fits : n < 1000) : normalizeMillis (padded 3 n) = n := by
  obtain ⟨a,b,c,shape⟩ := List.length_eq_three.mp (length_padded (by omega) fits)
  have value : digitsValue (padded 3 n) = n := digitsValue_padded
  rw [shape] at value ⊢
  simp only [digitsValue,List.foldl_cons,List.foldl_nil] at value
  simp only [normalizeMillis,List.take,List.zipIdx,List.foldl_cons,List.foldl_nil]
  omega

theorem parseIsoYear_signed {sign : Char} (is_sign : sign = '+' ∨ sign = '-') (fits : n < 1000000) (some_year : sign = '-' → n ≠ 0) :
    parseIsoYear (sign :: (padded 6 n ++ rest)) = some (if sign = '-' then -(n : Int) else n,rest) := by
  have six : (padded 6 n).length = 6 := length_padded (by omega) fits
  have long : ¬(sign :: (padded 6 n ++ rest)).length < 7 := by simp [six]
  have digits : ((sign :: (padded 6 n ++ rest)).drop 1).take 6 = padded 6 n := List.take_left' six
  have left : (sign :: (padded 6 n ++ rest)).drop 7 = rest := List.drop_left' six
  have is_signed : signed (sign :: (padded 6 n ++ rest)) = true := by
    obtain rfl | rfl := is_sign
    · rfl
    · rfl
  rw [parseIsoYear,if_pos is_signed,digits,left,if_neg (not_or.mpr ⟨long,not_not.mpr (List.all_eq_true.mpr isDigit_padded)⟩),
    parseSigned_padded (by omega),Option.bind_some,List.head?_cons]
  obtain rfl | rfl := is_sign
  · rfl
  · rw [if_pos rfl,if_neg (by simpa using some_year rfl),if_pos rfl]

theorem parseIsoYear_isoYear {year : Int} (least : -1000000 < year) (most : year < 1000000) :
    parseIsoYear (isoYear year ++ rest) = some (year,rest) := by
  unfold isoYear
  split
  · next plain =>
    have four : (padded 4 year.toNat).length = 4 := length_padded (by omega) (by omega)
    have long : ¬(padded 4 year.toNat ++ rest).length < 4 := by rw [List.length_append]; omega
    rw [parseIsoYear,if_neg (by rw [not_signed_padded]; exact Bool.false_ne_true),List.take_left' four,List.drop_left' four,
      if_neg (not_or.mpr ⟨long,not_not.mpr (List.all_eq_true.mpr isDigit_padded)⟩),parseSigned_padded (by omega)]
    simp [plain.1]
  split
  · next negative =>
    rw [List.cons_append,parseIsoYear_signed (.inr rfl) (by omega) (by omega),if_pos rfl,Int.toNat_of_nonneg (by omega),neg_neg]
  · next positive =>
    rw [List.cons_append,parseIsoYear_signed (.inl rfl) (by omega) (by simp),if_neg (by decide),Int.toNat_of_nonneg (by omega)]

theorem parseIsoMonth_padded {month day : Nat} (month_pos : 1 ≤ month) (month_le : month ≤ 12) (day_pos : 1 ≤ day) (day_le : day ≤ 31) :
    parseIsoMonth ('-' :: (padded 2 month ++ '-' :: (padded 2 day ++ rest))) = some (month,↑day,rest) := by
  have month_length := length_two (n := month) (by omega)
  have day_length := length_two (n := day) (by omega)
  have behind : ('-' :: (padded 2 month ++ '-' :: (padded 2 day ++ rest))).drop 3 = '-' :: (padded 2 day ++ rest) :=
    List.drop_left' month_length
  have at_month : (('-' :: (padded 2 month ++ '-' :: (padded 2 day ++ rest))).drop 1).take 2 = padded 2 month := List.take_left' month_length
  have at_day : (('-' :: (padded 2 day ++ rest)).drop 1).take 2 = padded 2 day := List.take_left' day_length
  have left : ('-' :: (padded 2 day ++ rest)).drop 3 = rest := List.drop_left' day_length
  rw [parseIsoMonth,List.head?_cons,if_pos rfl,if_neg (by simp [month_length]),behind,at_month,at_day,left,
    parseUnsigned_padded (by omega),Option.bind_some,if_neg (by omega),List.head?_cons,if_pos rfl,if_neg (by simp [day_length]),
    parseSigned_padded (by omega),Option.bind_some,if_neg (by omega)]

theorem parseClockToken_iso {fields : Components} {ms : Nat} (hour : fields.hour < 24) (minute : fields.minute < 60) (second : fields.second < 60)
    (millis : ms < 1000) : parseClockToken (clockText fields ++ '.' :: (padded 3 ms ++ ['Z'])) true =
      some ⟨fields.hour,fields.minute,fields.second,ms,some 0⟩ := by
  have digit : ((padded 2 fields.second ++ '.' :: (padded 3 ms ++ ['Z'])).head?).any Char.isDigit := by
    obtain ⟨c,digit,head⟩ := head_padded 2 fields.second ('.' :: (padded 3 ms ++ ['Z']))
    rw [head]
    exact digit
  have fraction : (padded 3 ms ++ ['Z']).takeWhile Char.isDigit = padded 3 ms := by
    rw [List.takeWhile_append_of_pos isDigit_padded]
    exact List.append_nil _
  have seconds : parseClockSeconds true 2 (':' :: (padded 2 fields.second ++ '.' :: (padded 3 ms ++ ['Z']))) =
      some (↑fields.second,↑ms,['Z']) := by
    rw [parseClockSeconds,List.head?_cons,if_pos rfl,List.tail_cons,if_pos digit,parseClockDigits_padded (by omega) (Nat.le_refl 2),
      Option.bind_some]
    dsimp only
    rw [List.head?_cons,if_pos rfl,List.tail_cons,fraction,if_neg padded_ne_nil,normalizeMillis_padded millis,List.drop_left]
  have text : clockText fields ++ '.' :: (padded 3 ms ++ ['Z']) =
      padded 2 fields.hour ++ ':' :: (padded 2 fields.minute ++ ':' :: (padded 2 fields.second ++ '.' :: (padded 3 ms ++ ['Z']))) := by
    simp [clockText]
  rw [text,parseClockToken,if_pos rfl,parseClockDigits_padded (by omega) (Nat.le_refl 2),Option.bind_some]
  dsimp only
  rw [List.head?_cons,if_neg (by simp),List.tail_cons,parseClockDigits_padded (by omega) (Nat.le_refl 2),Option.bind_some]
  dsimp only
  rw [seconds,Option.bind_some]
  dsimp only
  rw [if_neg (by omega),if_neg (by omega)]
  rfl

end Fields

/-- The days of time values are less than a million years away. -/
theorem year_bounds {date : Civil} {ts : Int} (number : date.number = ts / 1000 / 86400) (clipped : |ts| ≤ 8640000000000000) :
    -1000000 < date.year ∧ date.year < 1000000 := by
  have lower := date.le_number
  have upper := date.number_lt
  obtain ⟨least,most⟩ := abs_le.mp clipped
  rw [number] at lower upper
  have february : daysBefore date.year 12 ≤ 335 := by
    have whole : daysBefore date.year 12 = 0 + 31 + (if IsLeap date.year then 29 else 28) + 31 + 30 + 31 + 30 + 31 + 31 + 30 + 31 + 30 := rfl
    rw [whole]
    split <;> omega
  unfold yearStart at lower upper
  omega

theorem parseIso8601_iso (tzOffset : Int → Int) {ts : Int} (clipped : |ts| ≤ 8640000000000000) :
    parseIso8601 tzOffset (jsDateToIsoString (some ts)) = some ts := by
  obtain ⟨date,reads⟩ := timestampToComponents_reads (ts / 1000)
  obtain ⟨least,most⟩ := year_bounds reads.number clipped
  have day_le : date.day ≤ 31 := by
    refine date.day_le.trans ?_
    unfold daysIn
    split_ifs <;> omega
  have whole := makeUtcMs_reads reads (ts % 1000)
  have millis : ((ts % 1000).toNat : Int) = ts % 1000 := by omega
  unfold jsDateToIsoString
  dsimp only
  rw [parseIso8601,parseIsoYear_isoYear (by rwa [reads.year]) (by rwa [reads.year]),Option.bind_some]
  dsimp only
  rw [parseIsoMonth_padded (by rw [reads.month]; exact date.month_pos) (by rw [reads.month]; exact date.month_le)
    (by rw [reads.day]; exact date.day_pos) (by rwa [reads.day]),Option.bind_some]
  dsimp only
  rw [parseIsoTail,if_pos rfl,parseClockToken_iso reads.hour reads.minute reads.second (by omega),Option.map_some,Option.map_some]
  dsimp only [Option.getD]
  rw [millis,whole]
  congr 1
  omega

theorem not_whitespace_digit {c : Char} (digit : c.isDigit) : isWhitespace c = false := by
  simp only [Char.isDigit,Bool.and_eq_true,decide_eq_true_eq,UInt32.le_iff_toNat_le] at digit
  have lower : 48 ≤ c.toNat := digit.1
  have upper : c.toNat ≤ 57 := digit.2
  simp only [isWhitespace,decide_eq_false_iff_not,List.mem_cons,List.not_mem_nil,or_false]
  omega

theorem padded_plain (width n : Nat) : ∀ c ∈ padded width n,isWhitespace c = false :=
  fun c member => not_whitespace_digit (isDigit_padded c member)

theorem isoYear_plain (year : Int) : ∀ c ∈ isoYear year,isWhitespace c = false := by
  unfold isoYear
  split_ifs
  · exact padded_plain _ _
  · exact List.forall_mem_cons.mpr ⟨rfl,padded_plain _ _⟩
  · exact List.forall_mem_cons.mpr ⟨rfl,padded_plain _ _⟩

theorem clockText_plain (fields : Components) : ∀ c ∈ clockText fields,isWhitespace c = false :=
  List.forall_mem_append.mpr ⟨padded_plain _ _,List.forall_mem_cons.mpr ⟨rfl,List.forall_mem_append.mpr
    ⟨padded_plain _ _,List.forall_mem_cons.mpr ⟨rfl,padded_plain _ _⟩⟩⟩⟩

theorem iso_plain (ts : Int) : ∀ c ∈ jsDateToIsoString (some ts),isWhitespace c = false := by
  unfold jsDateToIsoString
  dsimp only
  refine List.forall_mem_append.mpr ⟨isoYear_plain _,List.forall_mem_cons.mpr ⟨rfl,?_⟩⟩
  refine List.forall_mem_append.mpr ⟨padded_plain _ _,List.forall_mem_cons.mpr ⟨rfl,?_⟩⟩
  refine List.forall_mem_append.mpr ⟨padded_plain _ _,List.forall_mem_cons.mpr ⟨rfl,?_⟩⟩
  refine List.forall_mem_append.mpr ⟨clockText_plain _,List.forall_mem_cons.mpr ⟨rfl,?_⟩⟩
  exact List.forall_mem_append.mpr ⟨padded_plain _ _,List.forall_mem_singleton.mpr rfl⟩

theorem parse_invalid (tzOffset : Int → Int) : parseDateString tzOffset "Invalid Date".toList = none := by
  rfl

theorem timeClip_eq_some {x ts : Int} : timeClip x = some ts ↔ x = ts ∧ |ts| ≤ 8640000000000000 := by
  rw [timeClip]
  constructor
  · intro clip
    split at clip
    · cases clip
    · next inside =>
      obtain rfl := Option.some.inj clip
      exact ⟨rfl,Int.not_lt.mp inside⟩
  · rintro ⟨rfl,inside⟩
    exact if_neg (Int.not_lt.mpr inside)

theorem iso_round_trip (tzOffset : Int → Int) (x : Int) : parseDateString tzOffset (jsDateToIsoString (timeClip x)) = timeClip x := by
  cases clip : timeClip x with
  | none => exact parse_invalid tzOffset
  | some ts =>
    obtain ⟨-,clipped⟩ := timeClip_eq_some.mp clip
    have some_text : jsDateToIsoString (some ts) ≠ [] := by
      unfold jsDateToIsoString
      exact List.append_ne_nil_of_right_ne_nil _ (List.cons_ne_nil _ _)
    rw [parseDateString,trim_plain (iso_plain ts),if_neg some_text,parseIso8601_iso tzOffset clipped,Option.some_or,Option.bind_some]
    exact timeClip_eq_some.mpr ⟨rfl,clipped⟩

end Perry.Runtime.Date
