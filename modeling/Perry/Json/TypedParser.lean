import Perry.Containers.Records
import Perry.Json.DirectParser

/-! `JSON.parse` with the field names of the records declared. An object of the top-level
array gets all its declared fields at once, filled in by position as long as the names of
the text keep to the declared order and by name from then on. -/
namespace Perry.Json

open Containers

section index

/-- `canonical_array_index`: a decimal numeral without leading zeros, below 2^32 - 1. -/
def canonicalArrayIndex (b : Bytes) : Option Nat :=
  if b = [0x30] then some 0
  else if b.isEmpty ∨ b.head? = some 0x30 ∨ ¬ b.all isDigit then none
  else if bytesValue b ≤ 4294967294 then some (bytesValue b) else none

example : canonicalArrayIndex [0x31,0x30] = some 10 ∧ canonicalArrayIndex [0x30,0x31] = none := by decide

/-- The decimal digits of a numeral, the last one first. -/
def decimals (b : Bytes) : List Nat := b.reverse.map fun c => c.toNat - 0x30

theorem bytesValue_eq (b : Bytes) : bytesValue b = Nat.ofDigits 10 (decimals b) := by
  rw [Nat.ofDigits_eq_foldr,decimals,List.foldr_map,List.foldr_reverse,bytesValue]
  congr 1
  funext acc c
  exact (Nat.add_comm ..).trans (congrArg _ (Nat.mul_comm ..))

theorem digit_range {c : UInt8} (digit : isDigit c = true) : 0x30 ≤ c.toNat ∧ c.toNat ≤ 0x39 := by
  simpa [isDigit,UInt8.le_iff_toNat_le] using digit

theorem bytes_decimals {b : Bytes} (digits : ∀ c ∈ b, isDigit c = true) :
    (decimals b).reverse.map (fun d => UInt8.ofNat (d + 0x30)) = b := by
  rw [decimals,← List.map_reverse,List.reverse_reverse,List.map_map]
  refine (List.map_congr_left fun c member => ?_).trans (List.map_id b)
  have range := digit_range (digits c member)
  apply UInt8.toNat_inj.mp
  simp only [Function.comp_apply,UInt8.toNat_ofNat',id_eq]
  omega

theorem digits_bytesValue {b : Bytes} (digits : ∀ c ∈ b, isDigit c = true) (lead : b.head? ≠ some 0x30) :
    Nat.digits 10 (bytesValue b) = decimals b := by
  rw [bytesValue_eq]
  refine Nat.digits_ofDigits 10 (by omega) _ (fun d member => ?_) fun nonempty => ?_
  · obtain ⟨c,inside,rfl⟩ := List.mem_map.mp member
    have range := digit_range (digits c (List.mem_reverse.mp inside))
    omega
  · cases b with
    | nil => exact absurd rfl nonempty
    | cons c cs =>
      have range := digit_range (digits c List.mem_cons_self)
      have nonzero : c.toNat ≠ 0x30 := fun zero => lead (congrArg some (UInt8.toNat_inj.mp zero))
      simp only [decimals,List.reverse_cons,List.map_append,List.map_cons,List.map_nil,List.getLast_append_singleton]
      omega

theorem canonicalArrayIndex_eq {b : Bytes} {n : Nat} (index : canonicalArrayIndex b = some n) :
    b = [0x30] ∧ n = 0 ∨ b ≠ [] ∧ (∀ c ∈ b, isDigit c = true) ∧ b.head? ≠ some 0x30 ∧ n = bytesValue b := by
  unfold canonicalArrayIndex at index
  split at index
  · next zero => exact .inl ⟨zero,(Option.some.inj index).symm⟩
  · split at index
    · cases index
    · next numeral =>
      simp only [List.isEmpty_iff,not_or,not_not,List.all_eq_true] at numeral
      split at index
      · exact .inr ⟨numeral.1,numeral.2.2,numeral.2.1,(Option.some.inj index).symm⟩
      · cases index

theorem canonicalArrayIndex_injective {a b : Bytes} {n : Nat} (first : canonicalArrayIndex a = some n)
    (second : canonicalArrayIndex b = some n) : a = b := by
  obtain ⟨rfl,rfl⟩ | ⟨some,digits,lead,rfl⟩ := canonicalArrayIndex_eq first
  · obtain ⟨rfl,-⟩ | ⟨some,digits,lead,zero⟩ := canonicalArrayIndex_eq second
    · rfl
    · have none_left := digits_bytesValue digits lead
      rw [← zero,Nat.digits_zero] at none_left
      rw [← bytes_decimals digits,← none_left] at some
      exact absurd rfl some
  · obtain ⟨rfl,zero⟩ | ⟨-,digits',lead',same⟩ := canonicalArrayIndex_eq second
    · have none_left := digits_bytesValue digits lead
      rw [zero,Nat.digits_zero] at none_left
      rw [← bytes_decimals digits,← none_left] at some
      exact absurd rfl some
    · rw [← bytes_decimals digits,← bytes_decimals digits',← digits_bytesValue digits lead,same,
        digits_bytesValue digits' lead']

end index

section parser

variable {F : Type}

/-- An element of a typed array. A declared field that was not written holds undefined. -/
inductive Typed (F : Type) where
  | value (v : Value Bytes F)
  | record (slots : List (Bytes × Option (Value Bytes F)))

inductive TypedRoot (F : Type) where
  | value (v : Value Bytes F)
  | array (elements : List (Typed F))

/-- An object under construction, with the declared field that is expected next. -/
structure Shaping (F : Type) where
  slots : List (Bytes × Option (Value Bytes F))
  fastIdx : Nat := 0

variable (doubles : Doubles F) (names : List Bytes)

def Shaping.start : Shaping F := { slots := names.map (·,none) }

/-- The expected field goes to its slot. Any other one is set by its name, and then so are
all that follow. -/
def Shaping.write (key : Bytes) (value : Value Bytes F) (s : Shaping F) : Shaping F :=
  if names[s.fastIdx]? = some key then
    { slots := s.slots.modify s.fastIdx fun slot => (slot.1,some value),fastIdx := s.fastIdx + 1 }
  else { slots := assign key (some value) s.slots,fastIdx := names.length }

end parser

end Perry.Json
