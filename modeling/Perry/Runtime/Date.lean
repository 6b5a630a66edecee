import Perry.Calendar.Civil

/-! Time values and the fields of their days in Universal Time. The casts between `i64` and `f64` are left out: they are
exact on time values. -/
namespace Perry.Runtime.Date

open Perry.Calendar

/-- The days from the epoch to a date. The day may lie outside of its month. -/
def daysFromCivil (year : Int) (month : Nat) (day : Int) : Int :=
  let y := if month ≤ 2 then year - 1 else year
  let era := (if 0 ≤ y then y else y - 399).tdiv 400
  let yoe := y - era * 400
  let mp : Int := if 2 < month then (month : Int) - 3 else month + 9
  let doy := (153 * mp + 2).tdiv 5 + day - 1
  let doe := yoe * 365 + yoe.tdiv 4 - yoe.tdiv 100 + doy
  era * 146097 + doe - 719468

/-- `make_utc_ms`, with a month that is counted from 0 and may lie outside of its year. -/
def makeUtcMs (year month0 day hour min sec ms : Int) : Int :=
  let totalMonths := year * 12 + month0
  let days := daysFromCivil (totalMonths / 12) (totalMonths % 12 + 1).toNat day
  (days * 86400 + hour * 3600 + min * 60 + sec) * 1000 + ms

def timeClip (t : Int) : Option Int := if 8640000000000000 < |t| then none else some t

structure Components where
  year : Int
  month : Nat
  day : Nat
  hour : Nat
  minute : Nat
  second : Nat

/-- The days and the clock of `timestamp_to_components`. -/
def splitSeconds (secs : Int) : Int × Nat × Nat × Nat :=
  let absSecs := secs.natAbs
  let rest := if absSecs % 86400 = 0 then 0 else 1
  if secs < 0 then
    let adjusted := 86400 - absSecs % 86400
    (-(absSecs / 86400 : Nat) - rest,
      if absSecs % 86400 = 0 then (absSecs / 3600 % 24,absSecs / 60 % 60,absSecs % 60) else (adjusted / 3600 % 24,adjusted / 60 % 60,adjusted % 60))
  else ((absSecs / 86400 : Nat),absSecs / 3600 % 24,absSecs / 60 % 60,absSecs % 60)

def civilFromDays (days : Int) : Int × Nat × Nat :=
  let z := days + 719468
  let era := (if 0 ≤ z then z else z - 146096).tdiv 146097
  let doe := (z - era * 146097).toNat
  let yoe := (doe - doe / 1460 + doe / 36524 - doe / 146096) / 365
  let y := yoe + era * 400
  let doy := doe - (365 * yoe + yoe / 4 - yoe / 100)
  let mp := (5 * doy + 2) / 153
  let d := doy - (153 * mp + 2) / 5 + 1
  let m := if mp < 10 then mp + 3 else mp - 9
  (if m ≤ 2 then y + 1 else y,m,d)

def timestampToComponents (secs : Int) : Components :=
  let (days,hour,minute,second) := splitSeconds secs
  let (year,month,day) := civilFromDays days
  ⟨year,month,day,hour,minute,second⟩

def weekdayFromTimestamp (secs : Int) : Nat :=
  let days := if 0 ≤ secs then secs.tdiv 86400 else (secs - 86399).tdiv 86400
  ((days + 4) % 7).toNat

/-- Truncated division of a quotient that is made to round down. -/
theorem tdiv_down (x : Int) {k : Int} (pos : 0 < k) : (if 0 ≤ x then x else x - (k - 1)).tdiv k = x / k := by
  split
  · next nonneg => exact Int.tdiv_eq_ediv_of_nonneg nonneg
  · next negative =>
    have turned : x - (k - 1) = -(k - 1 - x) := by ring
    rw [turned,Int.neg_tdiv,Int.tdiv_eq_ediv_of_nonneg (by omega)]
    have lower := Int.ediv_mul_le (k - 1 - x) pos.ne'
    have upper := Int.lt_ediv_add_one_mul_self (k - 1 - x) pos
    exact ((Int.ediv_eq_iff_of_pos pos).mpr ⟨by linarith,by linarith⟩).symm

theorem daysFromCivil_eq {year : Int} {month : Nat} (pos : 1 ≤ month) (le : month ≤ 12) (day : Int) :
    daysFromCivil year month day = number year month day := by
  have feb : daysIn year 2 = if IsLeap year then 29 else 28 := rfl
  have sums : daysBefore year month = if month ≤ 2 then 31 * (month - 1) else daysIn year 2 + (153 * (month - 3) + 2) / 5 + 31 := by
    have others : ∀ other,other ≠ 2 → daysIn year other = if other = 4 ∨ other = 6 ∨ other = 9 ∨ other = 11 then 30 else 31 :=
      fun _ different => if_neg different
    interval_cases month <;> simp [daysBefore,others] <;> omega
  have era : ∀ y : Int,(if 0 ≤ y then y else y - 399).tdiv 400 = y / 400 := fun y => tdiv_down y (show (0 : Int) < 400 by omega)
  unfold daysFromCivil number yearStart
  rw [sums,feb]
  dsimp only
  by_cases early : month ≤ 2
  · simp only [if_pos early,if_neg (Nat.not_lt.mpr early),era]
    simp (disch := omega) only [Int.tdiv_eq_ediv_of_nonneg]
    omega
  · simp only [if_neg early,if_pos (Nat.lt_of_not_le early),era]
    simp (disch := omega) only [Int.tdiv_eq_ediv_of_nonneg]
    split
    · next leap =>
      obtain ⟨four,hundred⟩ := leap
      omega
    · next common =>
      unfold IsLeap at common
      omega

/-- Four centuries as centuries, fours, years and days. The last of each may be longer. -/
theorem four_centuries {doe : Nat} (inside : doe < 146097) : ∃ c q r s,c < 4 ∧ q < 25 ∧ r < 4 ∧ s < 366 ∧
    (s = 365 → r = 3 ∧ (q < 24 ∨ c = 3)) ∧ doe = 36524 * c + 1461 * q + 365 * r + s := by
  obtain ⟨c,century⟩ : ∃ c,c = min (doe / 36524) 3 := ⟨_,rfl⟩
  obtain ⟨q,four⟩ : ∃ q,q = (doe - 36524 * c) / 1461 := ⟨_,rfl⟩
  obtain ⟨r,year⟩ : ∃ r,r = min ((doe - 36524 * c - 1461 * q) / 365) 3 := ⟨_,rfl⟩
  have rest : doe - 36524 * c < 36525 := by omega
  have none_left : 36524 * c ≤ doe := by omega
  have leap : 36524 ≤ doe - 36524 * c → c = 3 := by omega
  refine ⟨c,q,r,doe - 36524 * c - 1461 * q - 365 * r,by omega,by omega,by omega,by omega,by omega,by omega⟩

theorem yoe_eq {c q r s doe : Nat} (c_lt : c < 4) (q_lt : q < 25) (r_lt : r < 4) (s_lt : s < 366)
    (last : s = 365 → r = 3 ∧ (q < 24 ∨ c = 3)) (sum : doe = 36524 * c + 1461 * q + 365 * r + s) :
    (doe - doe / 1460 + doe / 36524 - doe / 146096) / 365 = 100 * c + 4 * q + r := by
  have leaps : doe / 1460 = 25 * c + q ∨ doe / 1460 = 25 * c + q + 1 := by omega
  by_cases top : doe = 146096
  · have : c = 3 := by omega
    have : q = 24 := by omega
    have : r = 3 := by omega
    subst doe
    omega
  · have short : 1461 * q + 365 * r + s < 36524 := by omega
    have centuries : doe / 36524 = c := by omega
    have no_cycle : doe / 146096 = 0 := by omega
    obtain leaps | leaps := leaps
    · omega
    · omega

/-- The day of a year that starts in March. -/
theorem doy_valid {s mp : Nat} {year : Int} (s_lt : s < 366) (proxy : mp = (5 * s + 2) / 153) (leap : s = 365 → IsLeap year) :
    s - (153 * mp + 2) / 5 + 1 ≤ daysIn year (if mp < 10 then mp + 3 else mp - 9) := by
  have feb : daysIn year 2 = if IsLeap year then 29 else 28 := rfl
  have others : ∀ other,other ≠ 2 → daysIn year other = if other = 4 ∨ other = 6 ∨ other = 9 ∨ other = 11 then 30 else 31 :=
    fun _ different => if_neg different
  by_cases february : mp = 11
  · rw [february,if_neg (by omega),feb]
    by_cases day : s = 365
    · rw [if_pos (leap day)]
      omega
    · split <;> omega
  · rw [others _ (by split <;> omega)]
    have : mp < 11 := by omega
    interval_cases mp <;> simp <;> omega

/-- A day by its era, its year in the era and its place in a year that starts in March. -/
theorem daysFromCivil_march {y era : Int} {yoe s mp : Nat} (yoe_lt : yoe < 400) (s_lt : s < 366) (proxy : mp = (5 * s + 2) / 153)
    (start : y = yoe + era * 400) :
    daysFromCivil (if (if mp < 10 then mp + 3 else mp - 9) ≤ 2 then y + 1 else y) (if mp < 10 then mp + 3 else mp - 9)
      (s - (153 * mp + 2) / 5 + 1 : Nat) = era * 146097 + (yoe * 365 + yoe / 4 - yoe / 100 + s) - 719468 := by
  have down : ∀ y : Int,(if 0 ≤ y then y else y - 399).tdiv 400 = y / 400 := fun y => tdiv_down y (show (0 : Int) < 400 by omega)
  have cycle : y / 400 = era := by omega
  have within : y - era * 400 = yoe := by omega
  have front : (153 * mp + 2) / 5 ≤ s := by omega
  unfold daysFromCivil
  dsimp only
  rw [down]
  by_cases late : mp < 10
  · simp only [if_pos late,if_neg (show ¬mp + 3 ≤ 2 by omega),if_pos (show 2 < mp + 3 by omega),cycle,within]
    simp (disch := omega) only [Int.tdiv_eq_ediv_of_nonneg]
    omega
  · have year : y + 1 - 1 = y := by omega
    simp only [if_neg late,if_pos (show mp - 9 ≤ 2 by omega),if_neg (show ¬2 < mp - 9 by omega),year,cycle,within]
    simp (disch := omega) only [Int.tdiv_eq_ediv_of_nonneg]
    omega

theorem doy_eq {c q r s doe yoe : Nat} (c_lt : c < 4) (q_lt : q < 25) (r_lt : r < 4) (sum : doe = 36524 * c + 1461 * q + 365 * r + s)
    (whole : yoe = 100 * c + 4 * q + r) : doe = 365 * yoe + yoe / 4 - yoe / 100 + s := by
  have fourths : yoe / 4 = 25 * c + q := by omega
  have hundreds : yoe / 100 = c := by omega
  rw [fourths,hundreds]
  omega

/-- The years and the days of an era. -/
theorem civilFromDays_parts (days : Int) : ∃ (era y : Int) (yoe s mp : Nat),yoe < 400 ∧ s < 366 ∧ mp = (5 * s + 2) / 153 ∧
    y = yoe + era * 400 ∧ (s = 365 → IsLeap (y + 1)) ∧ days = era * 146097 + (yoe * 365 + yoe / 4 - yoe / 100 + s) - 719468 ∧
    civilFromDays days = (if (if mp < 10 then mp + 3 else mp - 9) ≤ 2 then y + 1 else y,if mp < 10 then mp + 3 else mp - 9,
      s - (153 * mp + 2) / 5 + 1) := by
  have era : ∀ z : Int,(if 0 ≤ z then z else z - 146096).tdiv 146097 = z / 146097 := fun z => tdiv_down z (show (0 : Int) < 146097 by omega)
  obtain ⟨doe,same⟩ : ∃ doe,doe = (days + 719468 - (days + 719468) / 146097 * 146097).toNat := ⟨_,rfl⟩
  have inside : doe < 146097 := by omega
  obtain ⟨c,q,r,s,c_lt,q_lt,r_lt,s_lt,last,sum⟩ := four_centuries inside
  obtain ⟨yoe,whole⟩ : ∃ yoe,yoe = 100 * c + 4 * q + r := ⟨_,rfl⟩
  have total := doy_eq c_lt q_lt r_lt sum whole
  refine ⟨(days + 719468) / 146097,yoe + (days + 719468) / 146097 * 400,yoe,s,(5 * s + 2) / 153,by omega,s_lt,rfl,rfl,?_,?_,?_⟩
  · intro day
    obtain ⟨three,cycle⟩ := last day
    unfold IsLeap
    omega
  · omega
  · have year := yoe_eq c_lt q_lt r_lt s_lt last sum
    rw [← whole] at year
    have doy : doe - (365 * yoe + yoe / 4 - yoe / 100) = s := by rw [total,Nat.add_sub_cancel_left]
    unfold civilFromDays
    simp only [era,← same,year,doy]

theorem civilFromDays_spec (days : Int) :
    ∃ date : Civil,civilFromDays days = (date.year,date.month,date.day) ∧ date.number = days := by
  obtain ⟨era,y,yoe,s,mp,yoe_lt,s_lt,proxy,start,leap,total,fields⟩ := civilFromDays_parts days
  have month_pos : 1 ≤ if mp < 10 then mp + 3 else mp - 9 := by split <;> omega
  have month_le : (if mp < 10 then mp + 3 else mp - 9) ≤ 12 := by split <;> omega
  have day_le : s - (153 * mp + 2) / 5 + 1 ≤
      daysIn (if (if mp < 10 then mp + 3 else mp - 9) ≤ 2 then y + 1 else y) (if mp < 10 then mp + 3 else mp - 9) := by
    refine doy_valid s_lt proxy fun day => ?_
    have february : (if mp < 10 then mp + 3 else mp - 9) ≤ 2 := by split <;> omega
    rw [if_pos february]
    exact leap day
  refine ⟨⟨_,_,_,month_pos,month_le,Nat.le_add_left 1 _,day_le⟩,fields,?_⟩
  rw [Civil.number,← daysFromCivil_eq month_pos month_le,daysFromCivil_march yoe_lt s_lt proxy start,total]

/-- The clock of a number of seconds within a day. -/
theorem clock_spec (secs : Nat) : secs / 3600 % 24 < 24 ∧ secs / 60 % 60 < 60 ∧ secs % 60 < 60 ∧
    3600 * (secs / 3600 % 24) + 60 * (secs / 60 % 60) + secs % 60 = secs % 86400 := by
  refine ⟨Nat.mod_lt _ (by omega),Nat.mod_lt _ (by omega),Nat.mod_lt _ (by omega),?_⟩
  omega

theorem splitSeconds_spec (secs : Int) :
    ∃ hour minute second,splitSeconds secs = (secs / 86400,hour,minute,second) ∧ hour < 24 ∧ minute < 60 ∧ second < 60 ∧
      3600 * (hour : Int) + 60 * minute + second = secs % 86400 := by
  unfold splitSeconds
  dsimp only
  by_cases negative : secs < 0
  · rw [if_pos negative]
    by_cases whole : secs.natAbs % 86400 = 0
    · have days : -((secs.natAbs / 86400 : Nat) : Int) - 0 = secs / 86400 := by omega
      have rest : secs % 86400 = (secs.natAbs % 86400 : Nat) := by omega
      obtain ⟨hour_lt,minute_lt,second_lt,clock⟩ := clock_spec secs.natAbs
      rw [if_pos whole,if_pos whole,days]
      refine ⟨_,_,_,rfl,hour_lt,minute_lt,second_lt,?_⟩
      rw [rest,← clock]
      push_cast
      ring
    · have days : -((secs.natAbs / 86400 : Nat) : Int) - 1 = secs / 86400 := by omega
      have rest : secs % 86400 = ((86400 - secs.natAbs % 86400) % 86400 : Nat) := by omega
      obtain ⟨hour_lt,minute_lt,second_lt,clock⟩ := clock_spec (86400 - secs.natAbs % 86400)
      rw [if_neg whole,if_neg whole,days]
      refine ⟨_,_,_,rfl,hour_lt,minute_lt,second_lt,?_⟩
      rw [rest,← clock]
      push_cast
      ring
  · have days : ((secs.natAbs / 86400 : Nat) : Int) = secs / 86400 := by omega
    have rest : secs % 86400 = (secs.natAbs % 86400 : Nat) := by omega
    obtain ⟨hour_lt,minute_lt,second_lt,clock⟩ := clock_spec secs.natAbs
    rw [if_neg negative,days]
    refine ⟨_,_,_,rfl,hour_lt,minute_lt,second_lt,?_⟩
    rw [rest,← clock]
    push_cast
    ring

/-- What the fields of a time value are in the calendar. -/
structure Components.Reads (fields : Components) (date : Civil) (secs : Int) : Prop where
  year : fields.year = date.year
  month : fields.month = date.month
  day : fields.day = date.day
  hour : fields.hour < 24
  minute : fields.minute < 60
  second : fields.second < 60
  number : date.number = secs / 86400
  clock : 3600 * (fields.hour : Int) + 60 * fields.minute + fields.second = secs % 86400

theorem timestampToComponents_reads (secs : Int) : ∃ date,(timestampToComponents secs).Reads date secs := by
  obtain ⟨hour,minute,second,split,hour_lt,minute_lt,second_lt,clock⟩ := splitSeconds_spec secs
  obtain ⟨date,civil,number⟩ := civilFromDays_spec (secs / 86400)
  refine ⟨date,?_⟩
  unfold timestampToComponents
  rw [split]
  dsimp only
  rw [civil]
  exact ⟨rfl,rfl,rfl,hour_lt,minute_lt,second_lt,number,clock⟩

/-- The fields of a time value, put together. -/
theorem makeUtcMs_reads {fields : Components} {date : Civil} {secs : Int} (reads : fields.Reads date secs) (ms : Int) :
    makeUtcMs fields.year (fields.month - 1) fields.day fields.hour fields.minute fields.second ms = secs * 1000 + ms := by
  have pos := date.month_pos
  have le := date.month_le
  have year : (fields.year * 12 + ((fields.month : Int) - 1)) / 12 = date.year := by
    rw [reads.year,reads.month]
    omega
  have month : ((fields.year * 12 + ((fields.month : Int) - 1)) % 12 + 1).toNat = date.month := by
    rw [reads.month]
    omega
  have clock := reads.clock
  have number := reads.number
  rw [Civil.number] at number
  unfold makeUtcMs
  dsimp only
  rw [year,month,daysFromCivil_eq pos le,reads.day,number]
  omega

/-- The fields of all instants follow the calendar, day by day from the epoch, and determine the instant. -/
theorem fields_follow_calendar : (timestampToComponents 0).Reads epoch 0 ∧ weekdayFromTimestamp 0 = 4 ∧
    ∀ secs ms : Int,∃ date : Civil,(timestampToComponents secs).Reads date secs ∧
      (timestampToComponents (secs + 86400)).Reads date.next (secs + 86400) ∧
      weekdayFromTimestamp (secs + 86400) = (weekdayFromTimestamp secs + 1) % 7 ∧
      makeUtcMs (timestampToComponents secs).year ((timestampToComponents secs).month - 1) (timestampToComponents secs).day
        (timestampToComponents secs).hour (timestampToComponents secs).minute (timestampToComponents secs).second ms = secs * 1000 + ms := by
  have named {secs : Int} {date : Civil} (number : date.number = secs / 86400) : (timestampToComponents secs).Reads date secs := by
    obtain ⟨other,reads⟩ := timestampToComponents_reads secs
    rwa [Civil.number_injective (number.trans reads.number.symm)]
  have weekday : ∀ secs,weekdayFromTimestamp secs = ((secs / 86400 + 4) % 7).toNat := by
    intro secs
    have down : (if 0 ≤ secs then secs else secs - 86399).tdiv 86400 = secs / 86400 := tdiv_down secs (show (0 : Int) < 86400 by omega)
    rw [weekdayFromTimestamp,← down]
    split <;> rfl
  refine ⟨named Civil.number_epoch,rfl,fun secs ms => ?_⟩
  obtain ⟨date,reads⟩ := timestampToComponents_reads secs
  have later : (secs + 86400) / 86400 = secs / 86400 + 1 := by omega
  refine ⟨date,reads,named ?_,?_,makeUtcMs_reads reads ms⟩
  · rw [date.number_next,reads.number,later]
  · rw [weekday,weekday,later]
    omega

end Perry.Runtime.Date
