import Mathlib.Data.Nat.Digits.Lemmas
import Mathlib.Tactic

/-! Digits of one width regrouped to digits of another width, the most significant first: the digits that
have come out, and the bits that are left. -/
namespace Perry.Words

/-- The number of a row of digits, the most significant first. -/
def bigEndian (base : Nat) (ds : List Nat) : Nat := Nat.ofDigits base ds.reverse

variable {base d accum bits k l : Nat} {ds es xs ys : List Nat}

theorem bigEndian_append (base : Nat) (front back : List Nat) :
    bigEndian base (front ++ back) = bigEndian base front * base ^ back.length + bigEndian base back := by
  rw [bigEndian,List.reverse_append,Nat.ofDigits_append,List.length_reverse]
  unfold bigEndian
  ring

@[simp] theorem bigEndian_nil (base : Nat) : bigEndian base [] = 0 := rfl

@[simp] theorem bigEndian_singleton (base d : Nat) : bigEndian base [d] = d := Nat.ofDigits_singleton

theorem bigEndian_cons (base d : Nat) (ds : List Nat) : bigEndian base (d :: ds) = d * base ^ ds.length + bigEndian base ds := by
  rw [← List.singleton_append,bigEndian_append,bigEndian_singleton]

theorem bigEndian_lt (digits : ∀ d ∈ ds,d < base) : bigEndian base ds < base ^ ds.length := by
  induction ds with
  | nil => exact Nat.one_pos
  | cons d ds ih =>
    obtain ⟨first,rest⟩ := List.forall_mem_cons.mp digits
    have below := ih rest
    rw [bigEndian_cons,List.length_cons,pow_succ]
    calc d * base ^ ds.length + bigEndian base ds < d * base ^ ds.length + base ^ ds.length := by omega
      _ = (d + 1) * base ^ ds.length := by ring
      _ ≤ base * base ^ ds.length := Nat.mul_le_mul_right _ first
      _ = base ^ ds.length * base := Nat.mul_comm ..

theorem bigEndian_injective (digits : ∀ d ∈ ds,d < base) (other_digits : ∀ e ∈ es,e < base) (lengths : ds.length = es.length)
    (same : bigEndian base ds = bigEndian base es) : ds = es := by
  induction ds generalizing es with
  | nil => exact (List.length_eq_zero_iff.mp lengths.symm).symm
  | cons d ds ih =>
    obtain ⟨e,es,rfl⟩ := List.exists_cons_of_length_pos (by rw [← lengths]; exact Nat.succ_pos _)
    obtain ⟨first,rest⟩ := List.forall_mem_cons.mp digits
    obtain ⟨_,other_rest⟩ := List.forall_mem_cons.mp other_digits
    have rest_lengths : ds.length = es.length := Nat.succ.inj lengths
    have pos : 0 < base := Nat.zero_lt_of_lt first
    have below := bigEndian_lt rest
    have other_below := bigEndian_lt other_rest
    rw [bigEndian_cons,bigEndian_cons,← rest_lengths] at same
    rw [← rest_lengths] at other_below
    have quotients := congrArg (· / base ^ ds.length) same
    have remainders := congrArg (· % base ^ ds.length) same
    have positive : 0 < base ^ ds.length := Nat.pow_pos pos
    simp only [Nat.mul_comm _ (base ^ ds.length),Nat.mul_add_div positive,Nat.mul_add_mod,Nat.div_eq_of_lt below,
      Nat.div_eq_of_lt other_below,Nat.mod_eq_of_lt below,Nat.mod_eq_of_lt other_below,Nat.add_zero] at quotients remainders
    rw [quotients,ih rest other_rest rest_lengths remainders]

/-- Digits of `k` bits on the way to digits of `l` bits: what has come out, and the bits that are left. -/
structure Regrouping (k l : Nat) (ds es : List Nat) (accum bits : Nat) : Prop where
  digits : ∀ e ∈ es,e < 2 ^ l
  length : k * ds.length = l * es.length + bits
  accum_lt : accum < 2 ^ bits
  value : bigEndian (2 ^ k) ds = bigEndian (2 ^ l) es * 2 ^ bits + accum

namespace Regrouping

theorem nil : Regrouping k l [] [] 0 0 := ⟨by simp,rfl,Nat.one_pos,rfl⟩

variable (regrouping : Regrouping k l ds es accum bits)

include regrouping

theorem push (fits : d < 2 ^ k) : Regrouping k l (ds ++ [d]) es (accum * 2 ^ k + d) (bits + k) where
  digits := regrouping.digits
  length := by
    rw [List.length_append,List.length_singleton,Nat.mul_add,regrouping.length]
    ring
  accum_lt := by
    rw [pow_add]
    have room : accum + 1 ≤ 2 ^ bits := regrouping.accum_lt
    calc accum * 2 ^ k + d < accum * 2 ^ k + 2 ^ k := by omega
      _ = (accum + 1) * 2 ^ k := by ring
      _ ≤ 2 ^ bits * 2 ^ k := Nat.mul_le_mul_right _ room
  value := by
    rw [bigEndian_append,bigEndian_singleton,List.length_singleton,regrouping.value,pow_add]
    ring

theorem emit (enough : l ≤ bits) : Regrouping k l ds (es ++ [accum / 2 ^ (bits - l)]) (accum % 2 ^ (bits - l)) (bits - l) where
  digits := by
    refine List.forall_mem_append.mpr ⟨regrouping.digits,List.forall_mem_singleton.mpr ?_⟩
    rw [Nat.div_lt_iff_lt_mul (Nat.two_pow_pos _),← pow_add,Nat.add_sub_cancel' enough]
    exact regrouping.accum_lt
  length := by
    rw [regrouping.length,List.length_append,List.length_singleton,Nat.mul_add]
    omega
  accum_lt := Nat.mod_lt _ (Nat.two_pow_pos _)
  value := by
    have split : 2 ^ bits = 2 ^ l * 2 ^ (bits - l) := by rw [← pow_add,Nat.add_sub_cancel' enough]
    have parts := Nat.div_add_mod accum (2 ^ (bits - l))
    rw [regrouping.value,bigEndian_append,bigEndian_singleton,List.length_singleton,split,pow_one]
    conv_lhs => rw [← parts]
    ring

/-- Digits that leave nothing over come in front. -/
theorem group (front : Regrouping k l xs ys 0 0) : Regrouping k l (xs ++ ds) (ys ++ es) accum bits where
  digits := List.forall_mem_append.mpr ⟨front.digits,regrouping.digits⟩
  length := by
    have lengths := front.length
    rw [List.length_append,List.length_append,Nat.mul_add,Nat.mul_add,regrouping.length,lengths]
    ring
  accum_lt := regrouping.accum_lt
  value := by
    have lengths : (2 ^ k) ^ ds.length = (2 ^ l) ^ es.length * 2 ^ bits := by
      rw [← pow_mul,← pow_mul,← pow_add,regrouping.length]
    rw [bigEndian_append,bigEndian_append,front.value,regrouping.value,lengths]
    ring

end Regrouping

/-- The bits that are left do not make another digit. -/
def Regroups (k l : Nat) (ds es : List Nat) : Prop := ∃ accum bits,Regrouping k l ds es accum bits ∧ bits < l

theorem Regroups.group (front : Regrouping k l xs ys 0 0) (regroups : Regroups k l ds es) : Regroups k l (xs ++ ds) (ys ++ es) := by
  obtain ⟨accum,bits,regrouping,few⟩ := regroups
  exact ⟨accum,bits,regrouping.group front,few⟩

/-- Regrouping has one result. -/
theorem Regroups.unique {es' : List Nat} (regroups : Regroups k l ds es) (others : Regroups k l ds es') : es = es' := by
  obtain ⟨accum,bits,regrouping,few⟩ := regroups
  obtain ⟨accum',bits',regrouping',few'⟩ := others
  have total := regrouping.length.symm.trans regrouping'.length
  have lengths : es.length = es'.length := by
    have pos : 0 < l := Nat.zero_lt_of_lt few
    have quotients := congrArg (· / l) total
    simpa only [Nat.mul_add_div pos,Nat.div_eq_of_lt few,Nat.div_eq_of_lt few',Nat.add_zero] using quotients
  obtain rfl : bits = bits' := by
    rw [lengths] at total
    exact Nat.add_left_cancel total
  have values := regrouping.value.symm.trans regrouping'.value
  have quotients := congrArg (· / 2 ^ bits) values
  simp only [Nat.mul_comm _ (2 ^ bits),Nat.mul_add_div (Nat.two_pow_pos bits),Nat.div_eq_of_lt regrouping.accum_lt,
    Nat.div_eq_of_lt regrouping'.accum_lt,Nat.add_zero] at quotients
  exact bigEndian_injective regrouping.digits regrouping'.digits lengths quotients

theorem Regroups.length_le (regroups : Regroups k l ds es) : l * es.length ≤ k * ds.length := by
  obtain ⟨accum,bits,regrouping,_⟩ := regroups
  have := regrouping.length
  omega

end Perry.Words
