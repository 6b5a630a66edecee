import Mathlib.Tactic.NormNum
import Perry.Compose.Dotenv
import Perry.Runtime.DateIso

/-! The texts of `toUTCString` are read back, to the second, but for years that are taken for an offset. -/
namespace Perry.Runtime.Date

open Perry.Calendar Perry.Words
open Perry.Compose (trim_bounded)
open Perry.Runtime.BigInt (isWhitespace trim trim_plain)

/-- A year before the epoch of the calendar whose four digits can be the hours and minutes of an offset. -/
def LikeOffset (year : Int) : Prop := year < 0 ∧ -year < 10000 ∧ -year / 100 ≤ 23 ∧ -year % 100 ≤ 59

instance (year : Int) : Decidable (LikeOffset year) := inferInstanceAs (Decidable (_ ∧ _))

section Tokens

variable {date : NamedDate} {tok rest : List Char} {n width : Nat}

theorem splitWhitespace_word (word : tok ≠ []) (plain : ∀ c ∈ tok,isWhitespace c = false) (rest : List Char) :
    splitWhitespace (tok ++ ' ' :: rest) = tok :: splitWhitespace rest := by
  rw [splitWhitespace,List.splitOnP_append_cons_of_forall_mem plain ' ' rfl,List.filter_cons_of_pos (by simpa using word)]
  rfl

theorem splitWhitespace_space (rest : List Char) : splitWhitespace (' ' :: rest) = splitWhitespace rest := by
  have first : ([] ++ ' ' :: rest).splitOnP isWhitespace = [] :: rest.splitOnP isWhitespace :=
    List.splitOnP_append_cons_of_forall_mem (List.forall_mem_nil _) ' ' rfl rest
  rw [List.nil_append] at first
  rw [splitWhitespace,first,List.filter_cons_of_neg (by simp)]
  rfl

theorem splitWhitespace_last (word : tok ≠ []) (plain : ∀ c ∈ tok,isWhitespace c = false) : splitWhitespace tok = [tok] := by
  rw [splitWhitespace,List.splitOnP_eq_singleton plain,List.filter_cons_of_pos (by simpa using word)]
  rfl

/-- The tokens that start a number or a clock. -/
structure Numeric (tok : List Char) : Prop where
  start : ∃ c rest,tok = c :: rest ∧ (c.isDigit ∨ c = '-')
  chars : ∀ c ∈ tok,c.isDigit ∨ c = '-' ∨ c = ':'

theorem lower_of_numeric {c : Char} (numeric : c.isDigit ∨ c = '-' ∨ c = ':') : c.toLower = c ∧ c.toNat < 97 := by
  obtain digit | rfl | rfl := numeric
  · simp only [Char.isDigit,Bool.and_eq_true,decide_eq_true_eq,UInt32.le_iff_toNat_le] at digit
    have upper : c.toNat ≤ 57 := digit.2
    refine ⟨dif_neg fun capital => ?_,by omega⟩
    have letter : 65 ≤ c.toNat := UInt32.le_iff_toNat_le.mp capital.1
    omega
  · exact ⟨rfl,by decide⟩
  · exact ⟨rfl,by decide⟩

namespace Numeric

theorem lower (numeric : Numeric tok) : tok.map Char.toLower = tok := by
  rw [List.map_congr_left fun c member => (lower_of_numeric (numeric.chars c member)).1,List.map_id']

theorem monthFromName (numeric : Numeric tok) : monthFromName tok = none := by
  have names : ∀ name ∈ fullMonths,name.head?.all fun c => decide (97 ≤ c.toNat) := by decide
  have last : ∀ c ∈ tok.reverse.head?,decide (c = ',') = false := by
    intro c member
    obtain digit | rfl | rfl := numeric.chars c (List.mem_reverse.mp (List.mem_of_mem_head? member))
    · exact decide_eq_false fun same => absurd (same ▸ digit) (by decide)
    · rfl
    · rfl
  have kept : tok.reverse.dropWhile (· = ',') = tok.reverse := by
    cases shape : tok.reverse with
    | nil => rfl
    | cons c rest => rw [List.dropWhile_cons_of_neg]; rw [last c (by rw [shape]; rfl)]; exact Bool.false_ne_true
  rw [Date.monthFromName,kept,List.reverse_reverse,numeric.lower]
  split
  · rfl
  · rw [Option.map_eq_none_iff,List.findIdx?_eq_none_iff]
    intro name member
    obtain ⟨c,rest,rfl,first⟩ := numeric.start
    have small := (lower_of_numeric (numeric.chars c (List.mem_cons_self ..))).2
    cases name with
    | nil => rfl
    | cons d name =>
      have large : 97 ≤ d.toNat := of_decide_eq_true (names _ member)
      have different : (c == d) = false := beq_false_of_ne fun same => by subst same; omega
      simp [List.take,List.isPrefixOf,different]

theorem weekdayLike (numeric : Numeric tok) : weekdayLike tok = false := by
  rw [Date.weekdayLike,numeric.lower]
  obtain ⟨c,rest,rfl,first⟩ := numeric.start
  have small := (lower_of_numeric (numeric.chars c (List.mem_cons_self ..))).2
  have different {d : Char} (large : 97 ≤ d.toNat) : (d == c) = false := beq_false_of_ne fun same => by subst same; omega
  simp [List.isPrefixOf,different (d := 's'),different (d := 'm'),different (d := 't'),different (d := 'w'),different (d := 'f')]

end Numeric

theorem Numeric.of_digits (some_digit : tok ≠ []) (digits : ∀ c ∈ tok,c.isDigit) : Numeric tok := by
  obtain ⟨c,rest,rfl⟩ := List.exists_cons_of_ne_nil some_digit
  exact ⟨⟨c,rest,rfl,.inl (digits c (List.mem_cons_self ..))⟩,fun c member => .inl (digits c member)⟩

theorem Numeric.padded (width n : Nat) : Numeric (padded width n) := .of_digits padded_ne_nil isDigit_padded

theorem namedToken_clock {fields : Components} (hour : fields.hour < 100) (minute : fields.minute < 100) (second : fields.second < 100) :
    namedToken date (clockText fields) = some { date with hour := fields.hour,minute := fields.minute,second := fields.second } := by
  have free {n : Nat} : ':' ∉ padded 2 n := fun member => absurd (isDigit_padded _ member) (by decide)
  have numeric : Numeric (clockText fields) := by
    obtain ⟨c,rest,shape,first⟩ := (Numeric.padded 2 fields.hour).start
    refine ⟨⟨c,_,by rw [clockText,shape]; rfl,first⟩,?_⟩
    exact List.forall_mem_append.mpr ⟨(Numeric.padded _ _).chars,List.forall_mem_cons.mpr ⟨.inr (.inr rfl),List.forall_mem_append.mpr
      ⟨(Numeric.padded _ _).chars,List.forall_mem_cons.mpr ⟨.inr (.inr rfl),(Numeric.padded _ _).chars⟩⟩⟩⟩
  have parts : (clockText fields).splitOn ':' = [padded 2 fields.hour,padded 2 fields.minute,padded 2 fields.second] := by
    rw [clockText,List.splitOn_append_cons_self_of_not_mem free,List.splitOn_append_cons_self_of_not_mem free,List.splitOn_eq_singleton free]
  have colon : ':' ∈ clockText fields := List.mem_append_right _ (List.mem_cons_self ..)
  rw [namedToken,numeric.weekdayLike,if_neg (by simp),numeric.monthFromName]
  dsimp only
  rw [if_pos colon,parts]
  simp only [List.getD_cons_zero,List.getD_cons_succ,List.length_cons,List.length_nil]
  rw [parseSigned_padded (by omega),parseSigned_padded (by omega),parseSigned_padded (by omega)]
  rfl

/-- A token that is neither a name nor a clock is a zone or a number. -/
theorem namedToken_number (numeric : Numeric tok) (colon : ':' ∉ tok) :
    namedToken date tok = some (if signed tok ∧ 3 ≤ tok.length ∧ ((parseTzOffset tok).filter (· ≠ absent)).isSome then
      { date with tzMinutesEast := parseTzOffset tok } else numberToken date tok) := by
  have other {d : Char} {name : List Char} (letter : d.isDigit = false ∧ d ≠ '-') : tok ≠ d :: name := by
    obtain ⟨c,rest,rfl,first⟩ := numeric.start
    intro same
    obtain rfl := (List.cons.inj same).1
    simp [letter] at first
  have zone {d : Char} {name : List Char} (letter : d.isDigit = false ∧ d ≠ '-') : (d :: name).isPrefixOf tok = false := by
    rw [Bool.eq_false_iff,ne_eq,List.isPrefixOf_iff_prefix]
    rintro ⟨back,same⟩
    exact other letter same.symm
  have gmt : "GMT".toList.isPrefixOf tok = false := zone (by decide)
  have utc : "UTC".toList.isPrefixOf tok = false := zone (by decide)
  have names : ¬(tok = "gmt".toList ∨ tok = "utc".toList ∨ tok = "z".toList) :=
    not_or.mpr ⟨other (by decide),not_or.mpr ⟨other (by decide),other (by decide)⟩⟩
  rw [namedToken,numeric.weekdayLike,if_neg (by simp),numeric.monthFromName]
  dsimp only
  rw [if_neg colon,numeric.lower,if_neg names,gmt,utc,if_neg (by simp)]
  split
  · rfl
  · rfl

theorem signed_padded (width n : Nat) : signed (padded width n) = false := by
  have plain := not_signed_padded width n []
  rwa [List.append_nil] at plain

theorem dropWhile_sign (width n : Nat) : (padded width n).dropWhile (fun c => c = '+' ∨ c = '-') = padded width n := by
  have some_digit : padded width n ≠ [] := padded_ne_nil
  obtain ⟨c,rest,shape⟩ := List.exists_cons_of_ne_nil some_digit
  have digit : c.isDigit := isDigit_padded c (shape ▸ List.mem_cons_self ..)
  have sign : ¬(c = '+' ∨ c = '-') := by
    rintro (rfl | rfl)
    · cases digit
    · cases digit
  rw [shape,List.dropWhile_cons_of_neg (by simpa using sign)]

theorem numberToken_day (unset : date.day = none) (day_pos : 1 ≤ n) (day_le : n ≤ 31) :
    numberToken date (padded 2 n) = { date with day := some n } := by
  have short : ¬(4 ≤ (padded 2 n).length ∧ date.year = none) := by
    rw [length_two (by omega)]
    omega
  rw [numberToken,parseSigned_padded (by omega)]
  dsimp only
  rw [dropWhile_sign,if_neg short,if_pos ⟨unset,by omega,by omega⟩]

theorem numberToken_year (unset : date.year = none) (fits : n < 2 ^ 63) : numberToken date (padded 4 n) = { date with year := some n } := by
  rw [numberToken,parseSigned_padded fits]
  dsimp only
  rw [dropWhile_sign,if_pos ⟨le_length_padded,unset⟩]

theorem numberToken_minus (unset : date.year = none) (fits : n < 2 ^ 63) :
    numberToken date ('-' :: padded 4 n) = { date with year := some (-(n : Int)) } := by
  have minus : parseSigned ('-' :: padded 4 n) = some (-(n : Int)) := by
    rw [parseSigned_minus padded_ne_nil isDigit_padded (by rw [digitsValue_padded]; omega),digitsValue_padded]
  rw [numberToken,minus]
  dsimp only
  rw [List.dropWhile_cons_of_pos (by decide),dropWhile_sign,if_pos ⟨le_length_padded,unset⟩]

/-- The four digits of a year, as hours and minutes. -/
theorem parseTzOffset_year (n : Nat) : parseTzOffset ('-' :: padded 4 n) =
    if n < 10000 ∧ n / 100 ≤ 23 ∧ n % 100 ≤ 59 then some (-((n / 100 * 60 + n % 100 : Nat) : Int)) else none := by
  have plain : ∀ c ∈ '-' :: padded 4 n,isWhitespace c = false := List.forall_mem_cons.mpr ⟨rfl,padded_plain _ _⟩
  have letter : ('-' :: padded 4 n).map Char.toLower ≠ ['z'] := by
    intro same
    have short := congrArg List.length same
    have long : 4 ≤ (padded 4 n).length := le_length_padded
    simp only [List.map_cons,List.length_cons,List.length_map,List.length_nil] at short
    omega
  have colon : splitOnce ':' (padded 4 n) = none := if_neg fun member => absurd (isDigit_padded _ member) (by decide)
  rw [parseTzOffset,trim_plain plain,if_neg (List.cons_ne_nil _ _),if_neg letter,List.head?_cons,if_pos (.inr rfl),List.tail_cons]
  dsimp only
  rw [colon,Option.none_or]
  by_cases fits : n < 10000
  · have length : (padded 4 n).length = 4 := length_padded (by omega) fits
    have digits : ∀ part : List Char,part ⊆ padded 4 n → ∀ c ∈ part,c.isDigit := fun part inside c member => isDigit_padded c (inside member)
    have hours := digits _ (List.take_subset 2 (padded 4 n))
    have minutes := digits _ (List.drop_subset 2 (padded 4 n))
    have hours_length : ((padded 4 n).take 2).length = 2 := by rw [List.length_take,length]; rfl
    have minutes_length : ((padded 4 n).drop 2).length = 2 := by rw [List.length_drop,length]
    have hours_lt := digitsValue_lt hours
    have minutes_lt := digitsValue_lt minutes
    have whole := digitsValue_append ((padded 4 n).take 2) ((padded 4 n).drop 2)
    rw [List.take_append_drop,digitsValue_padded,minutes_length] at whole
    rw [hours_length] at hours_lt
    rw [minutes_length] at minutes_lt
    have hour : digitsValue ((padded 4 n).take 2) = n / 100 := by omega
    have minute : digitsValue ((padded 4 n).drop 2) = n % 100 := by omega
    rw [if_pos length,Option.bind_some]
    dsimp only
    rw [parseSigned_digits (List.ne_nil_of_length_pos (by omega)) hours (by omega),
      parseSigned_digits (List.ne_nil_of_length_pos (by omega)) minutes (by omega),Option.bind_some,Option.bind_some,hour,minute]
    by_cases clock : n / 100 ≤ 23 ∧ n % 100 ≤ 59
    · have inside : ¬(23 < ((n / 100 : Nat) : Int) ∨ 59 < ((n % 100 : Nat) : Int)) := by omega
      have like : n < 10000 ∧ n / 100 ≤ 23 ∧ n % 100 ≤ 59 := ⟨fits,clock⟩
      have minus : some '-' ≠ some '+' := by decide
      rw [if_neg inside,if_pos like,if_neg minus]
      push_cast
      congr 1
      ring
    · have outside : 23 < ((n / 100 : Nat) : Int) ∨ 59 < ((n % 100 : Nat) : Int) := by omega
      have unlike : ¬(n < 10000 ∧ n / 100 ≤ 23 ∧ n % 100 ≤ 59) := fun like => clock like.2
      rw [if_pos outside,if_neg unlike]
  · have long : 4 < (padded 4 n).length := lt_length_padded (by omega) (by omega)
    have not_four : (padded 4 n).length ≠ 4 := by omega
    have not_two : (padded 4 n).length ≠ 2 := by omega
    have unlike : ¬(n < 10000 ∧ n / 100 ≤ 23 ∧ n % 100 ≤ 59) := fun like => fits like.1
    rw [if_neg not_four,if_neg not_two,if_neg unlike]
    rfl

theorem namedToken_day (unset : date.day = none) (day_pos : 1 ≤ n) (day_le : n ≤ 31) :
    namedToken date (padded 2 n) = some { date with day := some n } := by
  have colon : ':' ∉ padded 2 n := fun member => absurd (isDigit_padded _ member) (by decide)
  rw [namedToken_number (.padded 2 n) colon,signed_padded,if_neg (by simp),numberToken_day unset day_pos day_le]

/-- A year that is like an offset is taken for one. -/
theorem namedToken_year {year : Int} (unset : date.year = none) (least : -1000000 < year) (most : year < 1000000) :
    namedToken date (formatYear year) = some (if LikeOffset year then { date with tzMinutesEast := parseTzOffset (formatYear year) }
      else { date with year := some year }) := by
  have colon {n : Nat} : ':' ∉ padded 4 n := fun member => absurd (isDigit_padded _ member) (by decide)
  unfold formatYear
  split
  · next negative =>
    have numeric : Numeric ('-' :: padded 4 (-year).toNat) :=
      ⟨⟨'-',_,rfl,.inr rfl⟩,List.forall_mem_cons.mpr ⟨.inr (.inl rfl),(Numeric.padded _ _).chars⟩⟩
    have free : ':' ∉ '-' :: padded 4 (-year).toNat := by
      rw [List.mem_cons,not_or]
      exact ⟨by decide,colon⟩
    have long : 3 ≤ ('-' :: padded 4 (-year).toNat).length := by
      have four : 4 ≤ (padded 4 (-year).toNat).length := le_length_padded
      rw [List.length_cons]
      omega
    rw [namedToken_number numeric free]
    by_cases like : LikeOffset year
    · have zone : (-year).toNat < 10000 ∧ (-year).toNat / 100 ≤ 23 ∧ (-year).toNat % 100 ≤ 59 := by
        obtain ⟨_,small,hours,minutes⟩ := like
        omega
      have present : ((parseTzOffset ('-' :: padded 4 (-year).toNat)).filter (· ≠ absent)).isSome := by
        have different : (-((((-year).toNat / 100 * 60 + (-year).toNat % 100 : Nat)) : Int)) ≠ absent := by
          unfold absent
          omega
        rw [parseTzOffset_year,if_pos zone,Option.filter_some,if_pos (by simpa using different)]
        rfl
      rw [if_pos ⟨rfl,long,present⟩,if_pos like]
    · have zone : ¬((-year).toNat < 10000 ∧ (-year).toNat / 100 ≤ 23 ∧ (-year).toNat % 100 ≤ 59) := by
        rintro ⟨small,hours,minutes⟩
        exact like ⟨negative,by omega,by omega,by omega⟩
      have missing : ¬((parseTzOffset ('-' :: padded 4 (-year).toNat)).filter (· ≠ absent)).isSome := by
        rw [parseTzOffset_year,if_neg zone]
        exact Bool.false_ne_true
      rw [if_neg fun zone => missing zone.2.2,if_neg like,numberToken_minus unset (by omega),Int.toNat_of_nonneg (by omega),neg_neg]
  · next positive =>
    have unlike : ¬LikeOffset year := fun like => positive like.1
    rw [namedToken_number (.padded 4 _) colon,signed_padded,if_neg (by simp),numberToken_year unset (by omega),if_neg unlike,
      Int.toNat_of_nonneg (by omega)]

theorem weekday_word : ∀ i < 7,(weekdayNames.getD i "").toList ≠ [] ∧ (∀ c ∈ (weekdayNames.getD i "").toList,c.isAlpha) ∧
    weekdayLike (weekdayNames.getD i "").toList ∧ monthFromName (weekdayNames.getD i "").toList = none := by
  simp only [← List.all_eq_true]
  decide

theorem month_word : ∀ i < 12,(monthNames.getD i "").toList ≠ [] ∧ (∀ c ∈ (monthNames.getD i "").toList,c.isAlpha) ∧
    monthFromName (monthNames.getD i "").toList = some (i + 1) := by
  simp only [← List.all_eq_true]
  decide

/-- The characters of words: neither blank nor a separator. -/
def Wordy (c : Char) : Prop := isWhitespace c = false ∧ c ≠ ',' ∧ c ≠ '/'

theorem letter_wordy {c : Char} (letter : c.isAlpha) : Wordy c ∧ c.isDigit = false ∧ c ≠ '+' ∧ c ≠ '-' := by
  have range : 65 ≤ c.toNat ∧ c.toNat ≤ 90 ∨ 97 ≤ c.toNat ∧ c.toNat ≤ 122 := by
    change (decide (65 ≤ c.val ∧ c.val ≤ 90) || decide (97 ≤ c.val) && decide (c.val ≤ 122)) = true at letter
    simpa [UInt32.le_iff_toNat_le] using letter
  have other {d : Char} (outside : d.toNat < 65) : c ≠ d := fun same => by subst same; omega
  refine ⟨⟨?_,other (by decide),other (by decide)⟩,?_,other (by decide),other (by decide)⟩
  · simp only [isWhitespace,decide_eq_false_iff_not,List.mem_cons,List.not_mem_nil,or_false]
    omega
  · by_contra digit
    simp only [Bool.not_eq_false,Char.isDigit,Bool.and_eq_true,decide_eq_true_eq,UInt32.le_iff_toNat_le] at digit
    have upper : c.toNat ≤ 57 := digit.2
    omega

theorem padded_wordy (width n : Nat) : ∀ c ∈ padded width n,Wordy c := by
  intro c member
  have digit := isDigit_padded c member
  refine ⟨not_whitespace_digit digit,fun same => ?_,fun same => ?_⟩
  · subst same
    cases digit
  · subst same
    cases digit

theorem formatYear_wordy (year : Int) : ∀ c ∈ formatYear year,Wordy c := by
  unfold formatYear
  split
  · exact List.forall_mem_cons.mpr ⟨⟨rfl,by decide,by decide⟩,padded_wordy _ _⟩
  · exact padded_wordy _ _

theorem clockText_wordy (fields : Components) : ∀ c ∈ clockText fields,Wordy c := by
  have colon : Wordy ':' := ⟨rfl,by decide,by decide⟩
  exact List.forall_mem_append.mpr ⟨padded_wordy _ _,List.forall_mem_cons.mpr ⟨colon,List.forall_mem_append.mpr
    ⟨padded_wordy _ _,List.forall_mem_cons.mpr ⟨colon,padded_wordy _ _⟩⟩⟩⟩

theorem map_wordy (wordy : ∀ c ∈ tok,Wordy c) : tok.map (fun c => if c = ',' then ' ' else c) = tok := by
  rw [List.map_congr_left fun c member => if_neg (wordy c member).2.1,List.map_id']

theorem namedToken_weekday {i : Nat} (inside : i < 7) : namedToken date (weekdayNames.getD i "").toList = some date := by
  obtain ⟨some_letter,letters,like,month⟩ := weekday_word i inside
  have head : ¬(weekdayNames.getD i "").toList.head?.any Char.isDigit := by
    obtain ⟨c,rest,shape⟩ := List.exists_cons_of_ne_nil some_letter
    have letter := letters c (shape ▸ List.mem_cons_self ..)
    rw [shape,List.head?_cons,Option.any_some,(letter_wordy letter).2.1]
    exact Bool.false_ne_true
  rw [namedToken,if_pos ⟨like,month,head⟩]

theorem namedToken_month {i : Nat} (inside : i < 12) :
    namedToken date (monthNames.getD i "").toList = some { date with month := some (i + 1) } := by
  obtain ⟨some_letter,letters,month⟩ := month_word i inside
  rw [namedToken,month,if_neg (by simp)]

end Tokens

/-- A text in the form of `toUTCString`. -/
structure UtcWords (weekday day month year clock : List Char) : Prop where
  letters : weekday ≠ [] ∧ ∀ c ∈ weekday,c.isAlpha
  day : day ≠ [] ∧ ∀ c ∈ day,Wordy c
  month : month ≠ [] ∧ ∀ c ∈ month,Wordy c
  year : year ≠ [] ∧ ∀ c ∈ year,Wordy c
  clock : clock ≠ [] ∧ ∀ c ∈ clock,Wordy c

def utcText (weekday day month year clock : List Char) : List Char :=
  weekday ++ ',' :: ' ' :: (day ++ ' ' :: (month ++ ' ' :: (year ++ ' ' :: (clock ++ " GMT".toList))))

namespace UtcWords

variable {weekday day month year clock : List Char} (words : UtcWords weekday day month year clock)

include words

theorem tokens : splitWhitespace ((utcText weekday day month year clock).map fun c => if c = ',' then ' ' else c) =
    [weekday,day,month,year,clock,"GMT".toList] := by
  have weekday_wordy : ∀ c ∈ weekday,Wordy c := fun c member => (letter_wordy (words.letters.2 c member)).1
  have letters : "GMT".toList.all Char.isAlpha := by decide
  have gmt : splitWhitespace "GMT".toList = ["GMT".toList] :=
    splitWhitespace_last (by simp) fun c member => (letter_wordy (List.all_eq_true.mp letters c member)).1.1
  have mapped : (utcText weekday day month year clock).map (fun c => if c = ',' then ' ' else c) =
      weekday ++ ' ' :: ' ' :: (day ++ ' ' :: (month ++ ' ' :: (year ++ ' ' :: (clock ++ ' ' :: "GMT".toList)))) := by
    unfold utcText
    simp only [List.map_append,List.map_cons,map_wordy weekday_wordy,map_wordy words.day.2,map_wordy words.month.2,map_wordy words.year.2,
      map_wordy words.clock.2]
    rfl
  rw [mapped,splitWhitespace_word words.letters.1 fun c member => (weekday_wordy c member).1,splitWhitespace_space,
    splitWhitespace_word words.day.1 fun c member => (words.day.2 c member).1,
    splitWhitespace_word words.month.1 fun c member => (words.month.2 c member).1,
    splitWhitespace_word words.year.1 fun c member => (words.year.2 c member).1,
    splitWhitespace_word words.clock.1 fun c member => (words.clock.2 c member).1,gmt]

theorem start : ∃ c rest,utcText weekday day month year clock = c :: rest ∧ c.isAlpha := by
  obtain ⟨c,rest,rfl⟩ := List.exists_cons_of_ne_nil words.letters.1
  exact ⟨c,_,rfl,words.letters.2 c (List.mem_cons_self ..)⟩

theorem trim_text : trim (utcText weekday day month year clock) = utcText weekday day month year clock := by
  obtain ⟨first,rest,shape,letter⟩ := words.start
  refine trim_bounded ?_ ?_
  · rw [shape]
    rintro c ⟨⟩
    exact (letter_wordy letter).1.1
  · have ends : utcText weekday day month year clock =
        weekday ++ ',' :: ' ' :: (day ++ ' ' :: (month ++ ' ' :: (year ++ ' ' :: (clock ++ " GM".toList)))) ++ ['T'] := by
      simp [utcText]
    rw [ends,List.getLast?_concat]
    rintro c ⟨⟩
    rfl

theorem not_iso (tzOffset : Int → Int) : parseIso8601 tzOffset (utcText weekday day month year clock) = none := by
  obtain ⟨first,rest,shape,letter⟩ := words.start
  obtain ⟨_,digit,plus,minus⟩ := letter_wordy letter
  have unsigned : signed (first :: rest) = false := by simp [signed,plus,minus]
  have letters : ¬((first :: rest).take 4).all Char.isDigit := by simp [digit]
  rw [shape,parseIso8601,parseIsoYear,unsigned,if_neg (by simp),if_pos (.inr letters)]
  rfl

theorem not_slash (tzOffset : Int → Int) : parseSlashDate tzOffset (utcText weekday day month year clock) = none := by
  refine if_pos ?_
  have free {word : List Char} (wordy : ∀ c ∈ word,Wordy c) : '/' ∉ word := fun member => (wordy _ member).2.2 rfl
  have weekday_wordy : ∀ c ∈ weekday,Wordy c := fun c member => (letter_wordy (words.letters.2 c member)).1
  simp [utcText,free weekday_wordy,free words.day.2,free words.month.2,free words.year.2,free words.clock.2]

end UtcWords

theorem utc_words {ts : Int} {date : Civil} (reads : (timestampToComponents (ts / 1000)).Reads date (ts / 1000)) :
    UtcWords (weekdayNames.getD (weekdayFromTimestamp (ts / 1000)) "").toList (padded 2 (timestampToComponents (ts / 1000)).day)
      (monthNames.getD ((timestampToComponents (ts / 1000)).month - 1) "").toList (formatYear (timestampToComponents (ts / 1000)).year)
      (clockText (timestampToComponents (ts / 1000))) := by
  have weekday : weekdayFromTimestamp (ts / 1000) < 7 := by
    unfold weekdayFromTimestamp
    dsimp only
    omega
  have month : (timestampToComponents (ts / 1000)).month - 1 < 12 := by
    have := date.month_le
    rw [reads.month]
    omega
  obtain ⟨some_letter,letters,_⟩ := weekday_word _ weekday
  obtain ⟨some_month,month_letters,_⟩ := month_word _ month
  refine ⟨⟨some_letter,letters⟩,⟨padded_ne_nil,padded_wordy _ _⟩,⟨some_month,fun c member => (letter_wordy (month_letters c member)).1⟩,
    ⟨?_,formatYear_wordy _⟩,?_,clockText_wordy _⟩
  · unfold formatYear
    split
    · exact List.cons_ne_nil _ _
    · exact padded_ne_nil
  · exact List.append_ne_nil_of_right_ne_nil _ (List.cons_ne_nil _ _)

theorem parseRfcOrNamed_utc (tzOffset : Int → Int) {ts : Int} (clipped : |ts| ≤ 8640000000000000) :
    parseRfcOrNamed tzOffset (jsDateToUtcString (some ts)) =
      if LikeOffset (timestampToComponents (ts / 1000)).year then none else some (ts / 1000 * 1000) := by
  obtain ⟨date,reads⟩ := timestampToComponents_reads (ts / 1000)
  obtain ⟨least,most⟩ := year_bounds reads.number clipped
  have words := utc_words reads
  have day_le : date.day ≤ 31 := by
    refine date.day_le.trans ?_
    unfold daysIn
    split_ifs <;> omega
  have month_pos := date.month_pos
  have month_le := date.month_le
  have whole := makeUtcMs_reads reads 0
  have weekday : weekdayFromTimestamp (ts / 1000) < 7 := by
    unfold weekdayFromTimestamp
    dsimp only
    omega
  have text : jsDateToUtcString (some ts) = utcText (weekdayNames.getD (weekdayFromTimestamp (ts / 1000)) "").toList
      (padded 2 (timestampToComponents (ts / 1000)).day) (monthNames.getD ((timestampToComponents (ts / 1000)).month - 1) "").toList
      (formatYear (timestampToComponents (ts / 1000)).year) (clockText (timestampToComponents (ts / 1000))) := rfl
  have gmt : ∀ date : NamedDate,namedToken date "GMT".toList = some { date with tzMinutesEast := some 0 } := fun _ => rfl
  rw [text,parseRfcOrNamed,words.tokens]
  generalize timestampToComponents (ts / 1000) = fields at reads whole ⊢
  rw [List.foldlM_cons,namedToken_weekday weekday,Option.bind_eq_bind,Option.bind_some,
    List.foldlM_cons,namedToken_day rfl (by rw [reads.day]; exact date.day_pos) (by rwa [reads.day]),Option.bind_eq_bind,Option.bind_some,
    List.foldlM_cons,namedToken_month (by rw [reads.month]; omega),Option.bind_eq_bind,Option.bind_some,
    List.foldlM_cons,namedToken_year rfl (by rwa [reads.year]) (by rwa [reads.year]),Option.bind_eq_bind,Option.bind_some,
    List.foldlM_cons,namedToken_clock (by have := reads.hour; omega) (by have := reads.minute; omega) (by have := reads.second; omega),
    Option.bind_eq_bind,Option.bind_some,List.foldlM_cons,gmt,Option.bind_eq_bind,Option.bind_some,List.foldlM_nil]
  by_cases like : LikeOffset fields.year
  · rw [if_pos like,if_pos like]
    rfl
  · rw [if_neg like,if_neg like]
    have month : ((fields.month - 1 + 1 : Nat) : Int) = fields.month := by rw [reads.month]; omega
    rw [Option.pure_def,Option.bind_some]
    dsimp only [Option.bind_some,Option.map_some,Option.getD]
    rw [month,whole]
    congr 1
    omega

/-- What `toUTCString` writes is read back to the second, or not at all. -/
theorem utc_round_trip (tzOffset : Int → Int) (x : Int) : parseDateString tzOffset (jsDateToUtcString (timeClip x)) =
    (timeClip x).bind fun ts => if LikeOffset (timestampToComponents (ts / 1000)).year then none else some (ts / 1000 * 1000) := by
  cases clip : timeClip x with
  | none => exact parse_invalid tzOffset
  | some ts =>
    obtain ⟨-,clipped⟩ := timeClip_eq_some.mp clip
    obtain ⟨date,reads⟩ := timestampToComponents_reads (ts / 1000)
    have words := utc_words reads
    have some_text : jsDateToUtcString (some ts) ≠ [] := by
      obtain ⟨_,_,shape,_⟩ := words.start
      exact fun empty => List.cons_ne_nil _ _ (shape.symm.trans empty)
    have trimmed : trim (jsDateToUtcString (some ts)) = jsDateToUtcString (some ts) := words.trim_text
    have iso : parseIso8601 tzOffset (jsDateToUtcString (some ts)) = none := words.not_iso tzOffset
    have slash : parseSlashDate tzOffset (jsDateToUtcString (some ts)) = none := words.not_slash tzOffset
    rw [parseDateString,trimmed,if_neg some_text,iso,slash,Option.none_or,Option.or_none,parseRfcOrNamed_utc tzOffset clipped,Option.bind_some]
    split
    · rfl
    · rw [Option.bind_some]
      obtain ⟨least,most⟩ := abs_le.mp clipped
      exact timeClip_eq_some.mpr ⟨rfl,abs_le.mpr ⟨by omega,by omega⟩⟩

end Perry.Runtime.Date
