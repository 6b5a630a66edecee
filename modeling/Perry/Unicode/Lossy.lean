import Mathlib.Data.List.TakeWhile
import Perry.Unicode.Wtf8

/-! Bytes cut into UTF-8 sequences and, where there is none, into maximal ill-formed
parts, as `core::str` cuts them. -/
namespace Perry.Unicode

abbrev replacement : Nat := 0xFFFD

def isContinuation (b : UInt8) : Bool := 0x80 ≤ b.toNat ∧ b.toNat < 0xC0

/-- The ranges of the bytes after the first one; none where no sequence starts so. -/
def followers (b : UInt8) : Option (List (Nat × Nat)) :=
  if b.toNat < 0x80 then some []
  else if b.toNat < 0xC2 then none
  else if b.toNat < 0xE0 then some [(0x80,0xBF)]
  else if b.toNat = 0xE0 then some [(0xA0,0xBF),(0x80,0xBF)]
  else if b.toNat = 0xED then some [(0x80,0x9F),(0x80,0xBF)]
  else if b.toNat < 0xF0 then some [(0x80,0xBF),(0x80,0xBF)]
  else if b.toNat = 0xF0 then some [(0x90,0xBF),(0x80,0xBF),(0x80,0xBF)]
  else if b.toNat < 0xF4 then some [(0x80,0xBF),(0x80,0xBF),(0x80,0xBF)]
  else if b.toNat = 0xF4 then some [(0x80,0x8F),(0x80,0xBF),(0x80,0xBF)]
  else none

/-- The length of a sequence as the bits of its first byte announce it. -/
def announced (b : UInt8) : Nat :=
  if b.toNat < 0xC0 then 0
  else if b.toNat < 0xE0 then 2
  else if b.toNat < 0xF0 then 3
  else if b.toNat < 0xF8 then 4
  else 0

/-- How many bytes fit their ranges, up to the first that does not. -/
def fitting : List (Nat × Nat) → List UInt8 → Nat
  | (low,high) :: ranges,b :: rest => if low ≤ b.toNat ∧ b.toNat ≤ high then fitting ranges rest + 1 else 0
  | _,_ => 0

/-- The code point that the bits of a sequence spell. -/
def codePoint : List UInt8 → Nat
  | [a] => a.toNat
  | [a,b] => a.toNat % 32 * 64 + b.toNat % 64
  | [a,b,c] => a.toNat % 16 * 4096 + b.toNat % 64 * 64 + c.toNat % 64
  | [a,b,c,d] => a.toNat % 8 * 262144 + b.toNat % 64 * 4096 + c.toNat % 64 * 64 + d.toNat % 64
  | _ => 0

/-- How many bytes behind its first one a part has. -/
def extent (b : UInt8) (rest : List UInt8) : Nat := ((followers b).map fun ranges => fitting ranges rest).getD 0

/-- The code point of a part, if it is a sequence. -/
def sequence (b : UInt8) (rest : List UInt8) : Option Nat :=
  if (followers b).map List.length = some (extent b rest) then some (codePoint (b :: rest.take (extent b rest))) else none

/-- The parts from the byte on where the next one starts. -/
def partsAfter : Nat → List UInt8 → List (Option Nat)
  | _,[] => []
  | 0,b :: rest => sequence b rest :: partsAfter (extent b rest) rest
  | skip + 1,_ :: rest => partsAfter skip rest

def parts (bytes : List UInt8) : List (Option Nat) := partsAfter 0 bytes

def render (part : Option Nat) : Nat := part.getD replacement

/-- `String::from_utf8_lossy`. -/
def fromUtf8Lossy (bytes : List UInt8) : List Nat := (parts bytes).map render

/-- `str::from_utf8`. -/
def fromUtf8 (bytes : List UInt8) : Option (List Nat) :=
  if (parts bytes).all Option.isSome then some (fromUtf8Lossy bytes) else none

example : fromUtf8Lossy [0x41,0xE2,0x82,0xF0,0x80] = [0x41,replacement,replacement,replacement] := by decide

section parts

theorem forall_byte {p : UInt8 → Prop} (holds : ∀ n : Fin 256, p (.ofNat n.val)) : ∀ b, p b := by
  intro b
  have same := holds ⟨b.toNat,b.toNat_lt⟩
  rwa [UInt8.ofNat_toNat] at same

/-- What the tables say of a byte, over all 256 of them. -/
theorem tables (b : UInt8) :
    (∀ r ∈ (followers b).getD [], 0x80 ≤ r.1 ∧ r.2 ≤ 0xBF) ∧
    ((followers b).getD [] = [] ∨ announced b = ((followers b).getD []).length + 1) ∧
    announced b ≤ 4 ∧ announced b ≠ 1 ∧ (followers b = some [] → announced b = 0) ∧
    (isContinuation b = true → announced b = 0 ∧ followers b = none) := by
  revert b
  exact forall_byte (by decide +kernel)

/-- Only continuation bytes follow. -/
theorem followers_range (b : UInt8) : ∀ r ∈ (followers b).getD [], 0x80 ≤ r.1 ∧ r.2 ≤ 0xBF := (tables b).1

theorem followers_announced (b : UInt8) : (followers b).getD [] = [] ∨ announced b = ((followers b).getD []).length + 1 :=
  (tables b).2.1

theorem announced_le (b : UInt8) : announced b ≤ 4 := (tables b).2.2.1

theorem announced_ne_one (b : UInt8) : announced b ≠ 1 := (tables b).2.2.2.1

/-- Only a byte below 0x80 is a sequence of its own. -/
theorem announced_single (b : UInt8) : followers b = some [] → announced b = 0 := (tables b).2.2.2.2.1

theorem announced_continuation (b : UInt8) (continuation : isContinuation b = true) : announced b = 0 :=
  ((tables b).2.2.2.2.2 continuation).1

theorem followers_continuation (b : UInt8) (continuation : isContinuation b = true) : followers b = none :=
  ((tables b).2.2.2.2.2 continuation).2

theorem fitting_le (ranges : List (Nat × Nat)) (rest : List UInt8) :
    fitting ranges rest ≤ ranges.length ∧ fitting ranges rest ≤ rest.length := by
  fun_induction fitting ranges rest with
  | case1 low high ranges b rest fits ih =>
    rw [List.length_cons,List.length_cons]
    omega
  | case2 => simp
  | case3 => simp

theorem fitting_continuation {ranges : List (Nat × Nat)} (narrow : ∀ r ∈ ranges, 0x80 ≤ r.1 ∧ r.2 ≤ 0xBF) (rest : List UInt8) :
    ∀ x ∈ rest.take (fitting ranges rest), isContinuation x = true := by
  fun_induction fitting ranges rest with
  | case1 low high ranges b rest fits ih =>
    obtain ⟨range,others⟩ := List.forall_mem_cons.mp narrow
    rw [List.take_succ_cons]
    refine List.forall_mem_cons.mpr ⟨?_,ih others⟩
    rw [isContinuation,decide_eq_true_eq]
    omega
  | case2 => simp
  | case3 => simp

/-- Behind bytes that all fit, the fitting goes on. -/
theorem fitting_append (ranges : List (Nat × Nat)) (front back : List UInt8) : fitting ranges (front ++ back) =
    if fitting ranges front = front.length then front.length + fitting (ranges.drop front.length) back
    else fitting ranges front := by
  fun_induction fitting ranges front with
  | case1 low high ranges b rest fits ih =>
    rw [List.cons_append,fitting,if_pos fits,ih,List.length_cons,List.drop_succ_cons]
    split
    · next whole =>
      rw [if_pos (by omega)]
      omega
    · next part => rw [if_neg (by omega)]
  | case2 low high ranges b rest differs =>
    rw [List.cons_append,fitting,if_neg differs,if_neg (by simp)]
  | case3 ranges front other =>
    cases front with
    | nil => simp
    | cons b rest =>
      cases ranges with
      | nil => simp [fitting]
      | cons r ranges => exact absurd rfl (other r.1 r.2 ranges b rest rfl)

theorem partsAfter_eq (skip : Nat) (bytes : List UInt8) : partsAfter skip bytes = parts (bytes.drop skip) := by
  induction bytes generalizing skip with
  | nil => cases skip <;> rfl
  | cons b bytes ih =>
    cases skip with
    | zero => rfl
    | succ skip => exact ih skip

@[simp] theorem parts_nil : parts [] = [] := rfl

theorem parts_cons (b : UInt8) (rest : List UInt8) :
    parts (b :: rest) = sequence b rest :: parts (rest.drop (extent b rest)) := by
  rw [← partsAfter_eq]
  rfl

theorem extent_eq (b : UInt8) (rest : List UInt8) : extent b rest = fitting ((followers b).getD []) rest := by
  rw [extent]
  cases followers b with
  | none => simp [fitting]
  | some ranges => rfl

theorem extent_le (b : UInt8) (rest : List UInt8) : extent b rest ≤ rest.length := by
  rw [extent_eq]
  exact (fitting_le _ _).2

theorem extent_continuation (b : UInt8) (rest : List UInt8) : ∀ x ∈ rest.take (extent b rest), isContinuation x = true := by
  rw [extent_eq]
  exact fitting_continuation (followers_range b) rest

/-- The bytes end inside a sequence that its first byte announces longer. -/
def Truncated (bytes : List UInt8) : Prop :=
  ∃ before lead conts, bytes = before ++ lead :: conts ∧ (∀ x ∈ conts, isContinuation x = true) ∧
    conts.length + 1 < announced lead

theorem Truncated.append (before : List UInt8) {bytes : List UInt8} (truncated : Truncated bytes) :
    Truncated (before ++ bytes) := by
  obtain ⟨more,lead,conts,rfl,continuation,short⟩ := truncated
  exact ⟨before ++ more,lead,conts,by rw [List.append_assoc],continuation,short⟩

/-- No part spans the cut. -/
def Separate (front back : List UInt8) : Prop :=
  Truncated front → ∃ b rest, back = b :: rest ∧ isContinuation b = false

theorem extent_append {b : UInt8} {front back : List UInt8} (separate : Separate (b :: front) back) :
    extent b (front ++ back) = extent b front := by
  have whole := fitting_append ((followers b).getD []) front back
  rw [extent_eq,extent_eq,whole]
  split
  · next fits =>
    rw [fits]
    suffices fitting (((followers b).getD []).drop front.length) back = 0 by omega
    obtain ⟨below,-⟩ := fitting_le ((followers b).getD []) front
    by_cases ended : ((followers b).getD []).length ≤ front.length
    · rw [List.drop_eq_nil_of_le ended]
      cases back <;> rfl
    · have announces : announced b = ((followers b).getD []).length + 1 := by
        obtain none | announces := followers_announced b
        · rw [none] at ended
          exact absurd (Nat.zero_le _) ended
        · exact announces
      have continuation := fitting_continuation (followers_range b) front
      rw [fits,List.take_length] at continuation
      obtain ⟨x,rest,rfl,other⟩ := separate ⟨[],b,front,rfl,continuation,by omega⟩
      obtain ⟨r,ranges,shape⟩ := List.exists_cons_of_ne_nil (fun none => ended (List.drop_eq_nil_iff.mp none))
      have range := followers_range b r (List.mem_of_mem_drop (shape ▸ List.mem_cons_self))
      rw [shape,fitting,if_neg]
      intro fits
      rw [isContinuation,decide_eq_false_iff_not] at other
      omega
  · rfl

theorem parts_append {front back : List UInt8} (separate : Separate front back) :
    parts (front ++ back) = parts front ++ parts back := by
  obtain ⟨n,size⟩ : ∃ n, front.length = n := ⟨_,rfl⟩
  induction n using Nat.strong_induction_on generalizing front with
  | _ n ih =>
    cases front with
    | nil => rfl
    | cons b front =>
      have within := extent_le b front
      have same : sequence b (front ++ back) = sequence b front := by
        rw [sequence,sequence,extent_append separate,List.take_append_of_le_length within]
      have later : Separate (front.drop (extent b front)) back := fun truncated => separate (by
        have whole := truncated.append (b :: front.take (extent b front))
        rwa [List.cons_append,List.take_append_drop] at whole)
      rw [List.cons_append,parts_cons,parts_cons,same,extent_append separate,List.drop_append_of_le_length within,
        ih _ (by rw [List.length_drop,← size,List.length_cons]; omega) later rfl]
      rfl

theorem fromUtf8Lossy_append {front back : List UInt8} (separate : Separate front back) :
    fromUtf8Lossy (front ++ back) = fromUtf8Lossy front ++ fromUtf8Lossy back := by
  rw [fromUtf8Lossy,parts_append separate,List.map_append]
  rfl

/-- Continuation bytes that nothing precedes are ill-formed one by one. -/
theorem fromUtf8Lossy_continuation {bytes : List UInt8} (all : ∀ x ∈ bytes, isContinuation x = true) :
    fromUtf8Lossy bytes = List.replicate bytes.length replacement := by
  induction bytes with
  | nil => rfl
  | cons b bytes ih =>
    obtain ⟨first,others⟩ := List.forall_mem_cons.mp all
    have alone : sequence b bytes = none ∧ extent b bytes = 0 := by simp [sequence,extent,followers_continuation b first]
    rw [fromUtf8Lossy,parts_cons,alone.1,alone.2,List.drop_zero,List.map_cons,← fromUtf8Lossy,ih others]
    rfl

theorem not_truncated {lead : UInt8} {conts : List UInt8} (continuation : ∀ x ∈ conts, isContinuation x = true)
    (long : announced lead ≤ conts.length + 1) : ¬Truncated (lead :: conts) := by
  rintro ⟨before,other,more,shape,-,short⟩
  cases before with
  | nil =>
    obtain ⟨rfl,rfl⟩ := List.cons.inj shape
    omega
  | cons b before =>
    have member : other ∈ conts := (List.cons.inj shape).2 ▸ List.mem_append_right _ List.mem_cons_self
    rw [announced_continuation other (continuation other member)] at short
    exact absurd short (Nat.not_lt_zero _)

/-- As many bytes as announced are well formed only if they are one sequence. -/
theorem continuation_of_wellFormed {lead : UInt8} {rest : List UInt8} (announces : announced lead = rest.length + 1)
    (wellFormed : (fromUtf8 (lead :: rest)).isSome = true) : ∀ x ∈ rest, isContinuation x = true := by
  have all : (parts (lead :: rest)).all Option.isSome = true := by
    rw [fromUtf8] at wellFormed
    split at wellFormed
    · assumption
    · cases wellFormed
  rw [parts_cons,List.all_cons,Bool.and_eq_true] at all
  have whole : (followers lead).map List.length = some (extent lead rest) := by
    by_contra differs
    rw [sequence,if_neg differs] at all
    cases all.1
  obtain ⟨ranges,leads,length⟩ := Option.map_eq_some_iff.mp whole
  have announces' := followers_announced lead
  rw [leads,Option.getD_some] at announces'
  have extent_eq : extent lead rest = rest.length := by
    obtain rfl | announces' := announces'
    · rw [announced_single lead leads] at announces
      cases announces
    · omega
  have continuation := extent_continuation lead rest
  rwa [extent_eq,List.take_length] at continuation

end parts

section ends

/-- How many bytes at the end belong to a sequence announced longer. -/
def truncation (bytes : List UInt8) : Nat :=
  match bytes.reverse.dropWhile isContinuation with
  | [] => 0
  | lead :: _ =>
    let length := (bytes.reverse.takeWhile isContinuation).length + 1
    if length < announced lead then length else 0

/-- The bytes with a truncated sequence at their end replaced as one part. -/
def lossyAtEnd (bytes : List UInt8) : List Nat :=
  fromUtf8Lossy (bytes.take (bytes.length - truncation bytes)) ++ if truncation bytes = 0 then [] else [replacement]

theorem truncation_lead (before : List UInt8) {lead : UInt8} {conts : List UInt8} (starts : isContinuation lead = false)
    (continuation : ∀ x ∈ conts, isContinuation x = true) :
    truncation (before ++ lead :: conts) = if conts.length + 1 < announced lead then conts.length + 1 else 0 := by
  have shape : (before ++ lead :: conts).reverse = conts.reverse ++ lead :: before.reverse := by simp
  have all : ∀ x ∈ conts.reverse, isContinuation x = true := fun x member => continuation x (List.mem_reverse.mp member)
  rw [truncation,shape,List.dropWhile_append_of_pos all,List.takeWhile_append_of_pos all,
    List.dropWhile_cons_of_neg (by rw [starts]; decide),List.takeWhile_cons_of_neg (by rw [starts]; decide)]
  simp

theorem lead_not_continuation {lead : UInt8} {n : Nat} (announces : n < announced lead) : isContinuation lead = false := by
  by_contra continuation
  rw [announced_continuation lead (by simpa using continuation)] at announces
  exact absurd announces (Nat.not_lt_zero n)

theorem lossyAtEnd_truncated (before : List UInt8) {lead : UInt8} {conts : List UInt8}
    (continuation : ∀ x ∈ conts, isContinuation x = true) (short : conts.length + 1 < announced lead) :
    lossyAtEnd (before ++ lead :: conts) = fromUtf8Lossy before ++ [replacement] := by
  have length := truncation_lead before (lead_not_continuation short) continuation
  rw [if_pos short] at length
  rw [lossyAtEnd,length,if_neg (Nat.succ_ne_zero _),List.length_append,List.length_cons,Nat.add_sub_cancel,List.take_left]

/-- All continuation bytes, or a last byte that is none and continuation bytes behind it. -/
theorem split_lead (bytes : List UInt8) : (∀ x ∈ bytes, isContinuation x = true) ∨
    ∃ before lead conts, bytes = before ++ lead :: conts ∧ isContinuation lead = false ∧
      ∀ x ∈ conts, isContinuation x = true := by
  induction bytes with
  | nil => exact .inl (List.forall_mem_nil _)
  | cons b bytes ih =>
    obtain all | ⟨before,lead,conts,rfl,starts,continuation⟩ := ih
    · cases continuation : isContinuation b with
      | true => exact .inl (List.forall_mem_cons.mpr ⟨continuation,all⟩)
      | false => exact .inr ⟨[],b,bytes,rfl,continuation,all⟩
    · exact .inr ⟨b :: before,lead,conts,rfl,starts,continuation⟩

theorem truncation_continuation {bytes : List UInt8} (all : ∀ x ∈ bytes, isContinuation x = true) : truncation bytes = 0 := by
  have dropped : bytes.reverse.dropWhile isContinuation = [] :=
    List.dropWhile_eq_nil_iff.mpr fun x member => all x (List.mem_reverse.mp member)
  rw [truncation,dropped]

theorem truncation_eq_zero {bytes : List UInt8} (whole : ¬Truncated bytes) : truncation bytes = 0 := by
  obtain all | ⟨before,lead,conts,rfl,starts,continuation⟩ := split_lead bytes
  · exact truncation_continuation all
  · rw [truncation_lead before starts continuation,if_neg fun short => whole ⟨before,lead,conts,rfl,continuation,short⟩]

theorem lossyAtEnd_whole {bytes : List UInt8} (whole : ¬Truncated bytes) : lossyAtEnd bytes = fromUtf8Lossy bytes := by
  rw [lossyAtEnd,truncation_eq_zero whole]
  simp

theorem lossyAtEnd_continuation {bytes : List UInt8} (all : ∀ x ∈ bytes, isContinuation x = true) :
    lossyAtEnd bytes = List.replicate bytes.length replacement := by
  rw [lossyAtEnd,truncation_continuation all,← fromUtf8Lossy_continuation all]
  simp

theorem fromUtf8Lossy_cons_ne_nil (b : UInt8) (bytes : List UInt8) : fromUtf8Lossy (b :: bytes) ≠ [] := by
  rw [fromUtf8Lossy,parts_cons]
  exact List.cons_ne_nil _ _

theorem lossyAtEnd_cons_ne_nil (b : UInt8) (bytes : List UInt8) : lossyAtEnd (b :: bytes) ≠ [] := by
  rw [lossyAtEnd]
  split
  · next none =>
    rw [none,List.append_nil,Nat.sub_zero,List.take_length]
    exact fromUtf8Lossy_cons_ne_nil b bytes
  · simp

theorem Separate.truncated {front back : List UInt8} (separate : Separate front back) (truncated : Truncated (front ++ back)) :
    Truncated back := by
  obtain ⟨before,lead,conts,shape,continuation,short⟩ := truncated
  obtain ⟨more,rfl,rest⟩ | ⟨more,rfl,rest⟩ := List.append_eq_append_iff.mp shape
  · exact ⟨more,lead,conts,rest,continuation,short⟩
  · cases more with
    | nil => exact ⟨[],lead,conts,rest.symm,continuation,short⟩
    | cons b more =>
      rw [List.cons_append,List.cons.injEq] at rest
      obtain ⟨rfl,rfl⟩ := rest
      rw [List.length_append] at short
      obtain ⟨x,rest,rfl,other⟩ := separate ⟨before,lead,more,rfl,
        fun x member => continuation x (List.mem_append_left _ member),by omega⟩
      rw [continuation x (List.mem_append_right _ List.mem_cons_self)] at other
      cases other

theorem lossyAtEnd_append {front back : List UInt8} (separate : Separate front back) :
    lossyAtEnd (front ++ back) = fromUtf8Lossy front ++ lossyAtEnd back := by
  by_cases truncated : Truncated back
  · obtain ⟨before,lead,conts,rfl,continuation,short⟩ := truncated
    have apart : fromUtf8Lossy (front ++ before) = fromUtf8Lossy front ++ fromUtf8Lossy before := by
      cases before with
      | nil => rw [List.append_nil]; exact (List.append_nil _).symm
      | cons b before =>
        refine fromUtf8Lossy_append fun truncated => ?_
        obtain ⟨x,rest,shape,other⟩ := separate truncated
        exact ⟨b,before,rfl,(List.cons.inj shape).1 ▸ other⟩
    rw [← List.append_assoc,lossyAtEnd_truncated _ continuation short,lossyAtEnd_truncated _ continuation short,apart,
      List.append_assoc]
  · rw [lossyAtEnd_whole fun both => truncated (separate.truncated both),lossyAtEnd_whole truncated,
      fromUtf8Lossy_append separate]

end ends

section encoded

variable {c : Nat}

/-- A lead byte and its continuation bytes, read back as the code point whatever follows. -/
structure Spells (lead : UInt8) (conts : List UInt8) (c : Nat) : Prop where
  continuation : ∀ x ∈ conts, isContinuation x = true
  announces : announced lead = if conts = [] then 0 else conts.length + 1
  extent : ∀ rest, extent lead (conts ++ rest) = conts.length
  sequence : ∀ rest, sequence lead (conts ++ rest) = some c

/-- A byte lies in its range. -/
def Within (r : Nat × Nat) (b : UInt8) : Prop := r.1 ≤ b.toNat ∧ b.toNat ≤ r.2

theorem fitting_within {ranges : List (Nat × Nat)} {conts : List UInt8} (fits : List.Forall₂ Within ranges conts)
    (rest : List UInt8) : fitting ranges (conts ++ rest) = conts.length := by
  induction fits with
  | nil => simp [fitting]
  | cons within _ ih =>
    rw [Within] at within
    rw [List.cons_append,fitting,if_pos within,ih,List.length_cons]

theorem spells_of {lead : UInt8} {conts : List UInt8} {ranges : List (Nat × Nat)} (leads : followers lead = some ranges)
    (fits : List.Forall₂ Within ranges conts) (code : codePoint (lead :: conts) = c) : Spells lead conts c := by
  have spans (rest : List UInt8) : extent lead (conts ++ rest) = conts.length := by
    rw [extent_eq,leads]
    exact fitting_within fits rest
  refine ⟨?_,?_,spans,fun rest => ?_⟩
  · have continuation := extent_continuation lead (conts ++ [])
    rwa [spans,List.append_nil,List.take_length] at continuation
  · cases fits with
    | nil => exact announced_single lead leads
    | cons within others =>
      have announces := followers_announced lead
      rw [leads,Option.getD_some] at announces
      rw [announces.resolve_left (List.cons_ne_nil _ _),if_neg (List.cons_ne_nil _ _),List.length_cons,List.length_cons,
        others.length_eq]
  · rw [sequence,leads,spans,if_pos (by rw [Option.map_some,fits.length_eq]),List.take_left,code]

theorem encodeUtf8_spells (scalar : isScalar c = true) : ∃ lead conts, encodeUtf8 c = lead :: conts ∧ Spells lead conts c := by
  have range : c < 0x110000 ∧ ¬(0xD800 ≤ c ∧ c ≤ 0xDFFF) := by
    simp only [isScalar,decide_eq_true_eq] at scalar
    exact scalar
  unfold encodeUtf8
  split
  · next one =>
    have first : (UInt8.ofNat c).toNat = c := toNat_ofNat_of_lt (by omega)
    refine ⟨_,_,rfl,spells_of (by rw [followers,first,if_pos one]) .nil ?_⟩
    simp [codePoint,first]
  split
  · next one two =>
    have first := toNat_ofNat_of_lt (n := 0xC0 + c / 64 % 32) (by omega)
    have second := toNat_ofNat_of_lt (n := 0x80 + c % 64) (by omega)
    refine ⟨_,_,rfl,spells_of (by rw [followers,first,if_neg (by omega),if_neg (by omega),if_pos (by omega)])
      (.cons (by rw [Within,second]; omega) .nil) ?_⟩
    rw [codePoint,first,second]
    omega
  split
  · next one two three =>
    have first := toNat_ofNat_of_lt (n := 0xE0 + c / 4096 % 16) (by omega)
    have second := toNat_ofNat_of_lt (n := 0x80 + c / 64 % 64) (by omega)
    have third := toNat_ofNat_of_lt (n := 0x80 + c % 64) (by omega)
    have code : codePoint [.ofNat (0xE0 + c / 4096 % 16),.ofNat (0x80 + c / 64 % 64),.ofNat (0x80 + c % 64)] = c := by
      rw [codePoint,first,second,third]
      omega
    have last : Within (0x80,0xBF) (.ofNat (0x80 + c % 64)) := by
      rw [Within,third]
      omega
    have ranges (low high : Nat) (leads : followers (.ofNat (0xE0 + c / 4096 % 16)) = some [(low,high),(0x80,0xBF)])
        (bounds : low ≤ 0x80 + c / 64 % 64 ∧ 0x80 + c / 64 % 64 ≤ high) :
        ∃ lead conts, [UInt8.ofNat (0xE0 + c / 4096 % 16),.ofNat (0x80 + c / 64 % 64),.ofNat (0x80 + c % 64)] = lead :: conts ∧
          Spells lead conts c :=
      ⟨_,_,rfl,spells_of leads (.cons (by rwa [Within,second]) (.cons last .nil)) code⟩
    rw [followers,first,if_neg (by omega),if_neg (by omega),if_neg (by omega)] at ranges
    by_cases e0 : 0xE0 + c / 4096 % 16 = 0xE0
    · exact ranges 0xA0 0xBF (if_pos e0) (by omega)
    by_cases ed : 0xE0 + c / 4096 % 16 = 0xED
    · exact ranges 0x80 0x9F ((if_neg e0).trans (if_pos ed)) (by omega)
    · exact ranges 0x80 0xBF ((if_neg e0).trans <| (if_neg ed).trans <| if_pos (by omega)) (by omega)
  · next one two three =>
    have first := toNat_ofNat_of_lt (n := 0xF0 + c / 262144 % 8) (by omega)
    have second := toNat_ofNat_of_lt (n := 0x80 + c / 4096 % 64) (by omega)
    have third := toNat_ofNat_of_lt (n := 0x80 + c / 64 % 64) (by omega)
    have fourth := toNat_ofNat_of_lt (n := 0x80 + c % 64) (by omega)
    have code : codePoint [.ofNat (0xF0 + c / 262144 % 8),.ofNat (0x80 + c / 4096 % 64),.ofNat (0x80 + c / 64 % 64),
        .ofNat (0x80 + c % 64)] = c := by
      rw [codePoint,first,second,third,fourth]
      omega
    have last : Within (0x80,0xBF) (.ofNat (0x80 + c / 64 % 64)) ∧ Within (0x80,0xBF) (.ofNat (0x80 + c % 64)) := by
      rw [Within,Within,third,fourth]
      omega
    have ranges (low high : Nat) (leads : followers (.ofNat (0xF0 + c / 262144 % 8)) = some [(low,high),(0x80,0xBF),(0x80,0xBF)])
        (bounds : low ≤ 0x80 + c / 4096 % 64 ∧ 0x80 + c / 4096 % 64 ≤ high) :
        ∃ lead conts, [UInt8.ofNat (0xF0 + c / 262144 % 8),.ofNat (0x80 + c / 4096 % 64),.ofNat (0x80 + c / 64 % 64),
          .ofNat (0x80 + c % 64)] = lead :: conts ∧ Spells lead conts c :=
      ⟨_,_,rfl,spells_of leads (.cons (by rwa [Within,second]) (.cons last.1 (.cons last.2 .nil))) code⟩
    rw [followers,first,if_neg (by omega),if_neg (by omega),if_neg (by omega),if_neg (by omega),if_neg (by omega),
      if_neg (by omega)] at ranges
    by_cases f0 : 0xF0 + c / 262144 % 8 = 0xF0
    · exact ranges 0x90 0xBF (if_pos f0) (by omega)
    by_cases f4 : 0xF0 + c / 262144 % 8 = 0xF4
    · exact ranges 0x80 0x8F ((if_neg f0).trans <| (if_neg (by omega)).trans <| if_pos f4) (by omega)
    · exact ranges 0x80 0xBF ((if_neg f0).trans <| if_pos (by omega)) (by omega)

theorem parts_encoded_cons (scalar : isScalar c = true) (rest : List UInt8) :
    parts (encodeUtf8 c ++ rest) = some c :: parts rest := by
  obtain ⟨lead,conts,encoded,spells⟩ := encodeUtf8_spells scalar
  rw [encoded,List.cons_append,parts_cons,spells.sequence,spells.extent,List.drop_left]

theorem parts_encoded {text : List Nat} (scalars : ∀ c ∈ text,isScalar c = true) :
    parts (text.flatMap encodeUtf8) = text.map some := by
  induction text with
  | nil => rfl
  | cons c text ih =>
    obtain ⟨first,others⟩ := List.forall_mem_cons.mp scalars
    rw [List.flatMap_cons,parts_encoded_cons first,ih others,List.map_cons]

theorem fromUtf8Lossy_encodeUtf8 (scalar : isScalar c = true) (rest : List UInt8) :
    fromUtf8Lossy (encodeUtf8 c ++ rest) = c :: fromUtf8Lossy rest := by
  rw [fromUtf8Lossy,parts_encoded_cons scalar]
  rfl

theorem fromUtf8_encodeUtf8 (scalar : isScalar c = true) : fromUtf8 (encodeUtf8 c) = some [c] := by
  have alone := parts_encoded_cons scalar []
  rw [List.append_nil] at alone
  rw [fromUtf8,fromUtf8Lossy,alone]
  rfl

theorem not_truncated_encodeUtf8 (scalar : isScalar c = true) : ¬Truncated (encodeUtf8 c) := by
  obtain ⟨lead,conts,encoded,spells⟩ := encodeUtf8_spells scalar
  rw [encoded]
  apply not_truncated spells.continuation
  rw [spells.announces]
  split <;> simp

/-- Text that is encoded reads back. -/
theorem lossyAtEnd_encoded {text : List Nat} (scalars : ∀ c ∈ text, isScalar c = true) :
    lossyAtEnd (text.flatMap encodeUtf8) = text := by
  induction text with
  | nil => rfl
  | cons c text ih =>
    obtain ⟨first,others⟩ := List.forall_mem_cons.mp scalars
    have alone := fromUtf8Lossy_encodeUtf8 first []
    rw [List.append_nil] at alone
    rw [List.flatMap_cons,lossyAtEnd_append fun truncated => absurd truncated (not_truncated_encodeUtf8 first),alone,ih others]
    rfl

end encoded

end Perry.Unicode
