import Mathlib.Tactic

/-! The Gregorian calendar in both directions, day by day, and the number of a day in it. -/
namespace Perry.Calendar

def IsLeap (year : Int) : Prop := 4 ∣ year ∧ (¬100 ∣ year ∨ 400 ∣ year)

instance : DecidablePred IsLeap := fun year => inferInstanceAs (Decidable (4 ∣ year ∧ (¬100 ∣ year ∨ 400 ∣ year)))

def daysIn (year : Int) (month : Nat) : Nat :=
  if month = 2 then if IsLeap year then 29 else 28
  else if month = 4 ∨ month = 6 ∨ month = 9 ∨ month = 11 then 30 else 31

@[ext]
structure Civil where
  year : Int
  month : Nat
  day : Nat
  month_pos : 1 ≤ month
  month_le : month ≤ 12
  day_pos : 1 ≤ day
  day_le : day ≤ daysIn year month

theorem daysIn_pos (year : Int) (month : Nat) : 1 ≤ daysIn year month := by
  unfold daysIn
  split_ifs <;> omega

def epoch : Civil := ⟨1970,1,1,by omega,by omega,by omega,daysIn_pos _ _⟩

/-- The day behind a day. -/
def Civil.next (date : Civil) : Civil :=
  if inside : date.day < daysIn date.year date.month then { date with day := date.day + 1,day_pos := Nat.le_add_left 1 _,day_le := inside }
  else if inside : date.month < 12 then ⟨date.year,date.month + 1,1,Nat.le_add_left 1 _,inside,Nat.le_refl 1,daysIn_pos _ _⟩
  else ⟨date.year + 1,1,1,Nat.le_refl 1,by omega,Nat.le_refl 1,daysIn_pos _ _⟩

/-- The days of a year in front of a month. -/
def daysBefore (year : Int) : Nat → Nat
  | 0 | 1 => 0
  | month + 2 => daysBefore year (month + 1) + daysIn year (month + 1)

/-- The days from the epoch to the start of a year. -/
def yearStart (year : Int) : Int := 365 * (year - 1970) + (year - 1) / 4 - (year - 1) / 100 + (year - 1) / 400 - 477

def number (year : Int) (month : Nat) (day : Int) : Int := yearStart year + daysBefore year month + day - 1

def Civil.number (date : Civil) : Int := Calendar.number date.year date.month date.day

theorem yearStart_succ (year : Int) : yearStart (year + 1) = yearStart year + daysBefore year 12 + 31 := by
  have whole : daysBefore year 12 = 0 + 31 + (if IsLeap year then 29 else 28) + 31 + 30 + 31 + 30 + 31 + 31 + 30 + 31 + 30 := rfl
  rw [whole]
  unfold yearStart
  split
  · next leap =>
    obtain ⟨four,hundred⟩ := leap
    omega
  · next common =>
    unfold IsLeap at common
    omega

theorem daysBefore_succ (year : Int) {month : Nat} (pos : 1 ≤ month) :
    daysBefore year (month + 1) = daysBefore year month + daysIn year month := by
  obtain ⟨month,rfl⟩ := Nat.exists_eq_add_of_le' pos
  rfl

theorem daysBefore_add_le (year : Int) {month later : Nat} (pos : 1 ≤ month) (before : month < later) :
    daysBefore year month + daysIn year month ≤ daysBefore year later := by
  induction later, Nat.succ_le_of_lt before using Nat.le_induction with
  | base => rw [Nat.succ_eq_add_one,daysBefore_succ year pos]
  | succ later after ih =>
    rw [daysBefore_succ year (by omega)]
    exact (ih (by omega)).trans (Nat.le_add_right _ _)

theorem yearStart_add_le {year later : Int} (before : year < later) : yearStart year + daysBefore year 12 + 31 ≤ yearStart later := by
  induction later, Int.add_one_le_of_lt before using Int.leInduction with
  | base => rw [yearStart_succ]
  | succ later after ih =>
    rw [yearStart_succ]
    have := ih (by omega)
    omega

namespace Civil

/-- Days follow each other as their numbers do. -/
theorem number_next (date : Civil) : date.next.number = date.number + 1 := by
  unfold next number Calendar.number
  have pos := date.month_pos
  have last := date.day_le
  split
  · push_cast
    ring
  next outside =>
  have ends : date.day = daysIn date.year date.month := by omega
  split
  · dsimp only
    rw [daysBefore_succ _ pos,ends]
    push_cast
    ring
  · next december =>
    have twelve : date.month = 12 := by have := date.month_le; omega
    rw [twelve] at ends
    have thirty_one : daysIn date.year 12 = 31 := rfl
    dsimp only
    rw [yearStart_succ,twelve,ends,thirty_one]
    have none_before : daysBefore (date.year + 1) 1 = 0 := rfl
    rw [none_before]
    push_cast
    ring

theorem number_epoch : epoch.number = 0 := by
  decide

theorem le_number (date : Civil) : yearStart date.year ≤ date.number := by
  unfold number Calendar.number
  have := date.day_pos
  omega

theorem number_lt (date : Civil) : date.number < yearStart date.year + daysBefore date.year 12 + 31 := by
  unfold number Calendar.number
  have last := date.day_le
  obtain before | twelve := Nat.lt_or_eq_of_le date.month_le
  · have := daysBefore_add_le date.year date.month_pos before
    omega
  · rw [twelve] at last ⊢
    have thirty_one : daysIn date.year 12 = 31 := rfl
    omega

theorem number_injective : Function.Injective number := by
  intro date other same
  have years : date.year = other.year := by
    have lower := date.le_number
    have upper := date.number_lt
    have lower' := other.le_number
    have upper' := other.number_lt
    obtain before | equal | behind := lt_trichotomy date.year other.year
    · have := yearStart_add_le before
      omega
    · exact equal
    · have := yearStart_add_le behind
      omega
  obtain ⟨year,month,day,month_pos,month_le,day_pos,day_le⟩ := date
  obtain ⟨year',month',day',month_pos',month_le',day_pos',day_le'⟩ := other
  obtain rfl : year = year' := years
  unfold number Calendar.number at same
  dsimp only at same
  have months : month = month' := by
    obtain before | equal | behind := lt_trichotomy month month'
    · have := daysBefore_add_le year month_pos before
      omega
    · exact equal
    · have := daysBefore_add_le year month_pos' behind
      omega
  subst months
  obtain rfl : day = day' := by omega
  rfl

end Civil

end Perry.Calendar
