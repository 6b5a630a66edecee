import Perry.Json.Acceptance

/-! `nesting_depth_exceeds`: one pass over the bytes, which knows strings and their
escapes but no grammar. On a text it decides the depth of the document. -/
namespace Perry.Json

section guard

/-- The variables of the loop. -/
structure DepthScan where
  depth : Nat
  inString : Bool
  escaped : Bool

/-- One byte; `none` is the early `return true`. -/
def DepthScan.step (limit : Nat) (s : DepthScan) (byte : UInt8) : Option DepthScan :=
  if s.inString then
    if s.escaped then some {s with escaped := false}
    else if byte = backslash then some {s with escaped := true}
    else if byte = quote then some {s with inString := false}
    else some s
  else if byte = quote then some {s with inString := true}
  else if byte = openBracket ∨ byte = openBrace then
    if limit < s.depth + 1 then none else some {s with depth := s.depth + 1}
  -- a closer without an opener leaves the depth at zero
  else if byte = closeBracket ∨ byte = closeBrace then some {s with depth := s.depth - 1}
  else some s

def nestingDepthExceeds (bytes : Bytes) (limit : Nat) : Bool :=
  (bytes.foldlM (DepthScan.step limit) ⟨0,false,false⟩).isNone

end guard

section tokens

/-- The rest of the scan, from outside a string. -/
def scanFrom (limit depth : Nat) (bytes : Bytes) : Option DepthScan :=
  bytes.foldlM (DepthScan.step limit) ⟨depth,false,false⟩

/-- The rest of the scan, from inside a string. -/
def scanString (limit depth : Nat) (bytes : Bytes) : Option DepthScan :=
  bytes.foldlM (DepthScan.step limit) ⟨depth,true,false⟩

/-- A byte which says nothing about the depth outside a string. -/
def Flat (b : UInt8) : Prop :=
  b ≠ quote ∧ ¬(b = openBracket ∨ b = openBrace) ∧ ¬(b = closeBracket ∨ b = closeBrace)

instance (b : UInt8) : Decidable (Flat b) := by unfold Flat; infer_instance

variable {limit depth : Nat} {b : UInt8} {rest : Bytes}

theorem scan_nil : scanFrom limit depth [] = some ⟨depth,false,false⟩ := rfl

theorem scan_flat (flat : Flat b) : scanFrom limit depth (b :: rest) = scanFrom limit depth rest := by
  rw [scanFrom,List.foldlM_cons,DepthScan.step,if_neg Bool.false_ne_true,if_neg flat.1,if_neg flat.2.1,if_neg flat.2.2]
  rfl

theorem scan_flats {bs : Bytes} (flat : ∀ b ∈ bs, Flat b) : scanFrom limit depth (bs ++ rest) = scanFrom limit depth rest := by
  induction bs with
  | nil => rfl
  | cons b bs ih =>
    rw [List.cons_append,scan_flat (flat b List.mem_cons_self)]
    exact ih fun c member => flat c (List.mem_cons_of_mem _ member)

theorem flat_word {word : Bytes} (flat : word.all (fun b => decide (Flat b)) = true) : ∀ b ∈ word, Flat b :=
  fun b member => of_decide_eq_true (List.all_eq_true.mp flat b member)

theorem scan_opener (opens : b = openBracket ∨ b = openBrace) :
    scanFrom limit depth (b :: rest) = if depth + 1 ≤ limit then scanFrom limit (depth + 1) rest else none := by
  have unquoted : b ≠ quote := by obtain rfl | rfl := opens <;> decide
  rw [scanFrom,List.foldlM_cons,DepthScan.step,if_neg Bool.false_ne_true,if_neg unquoted,if_pos opens]
  by_cases room : depth + 1 ≤ limit
  · rw [if_neg (by simpa using room),if_pos room]
    rfl
  · rw [if_pos (by simpa using room),if_neg room]
    rfl

theorem scan_closer (closes : b = closeBracket ∨ b = closeBrace) :
    scanFrom limit (depth + 1) (b :: rest) = scanFrom limit depth rest := by
  have unquoted : b ≠ quote := by obtain rfl | rfl := closes <;> decide
  have shut : ¬(b = openBracket ∨ b = openBrace) := by obtain rfl | rfl := closes <;> decide
  rw [scanFrom,List.foldlM_cons,DepthScan.step,if_neg Bool.false_ne_true,if_neg unquoted,if_neg shut,if_pos closes]
  rfl

theorem string_flat (plain : b ≠ backslash) (inner : b ≠ quote) :
    scanString limit depth (b :: rest) = scanString limit depth rest := by
  rw [scanString,List.foldlM_cons,DepthScan.step,if_pos rfl,if_neg Bool.false_ne_true,if_neg plain,if_neg inner]
  rfl

theorem string_flats {bs : Bytes} (plain : ∀ b ∈ bs, b ≠ backslash ∧ b ≠ quote) :
    scanString limit depth (bs ++ rest) = scanString limit depth rest := by
  induction bs with
  | nil => rfl
  | cons b bs ih =>
    have first := plain b List.mem_cons_self
    rw [List.cons_append,string_flat first.1 first.2]
    exact ih fun c member => plain c (List.mem_cons_of_mem _ member)

/-- The byte after a backslash is passed over, whatever it is. -/
theorem string_escape : scanString limit depth (backslash :: b :: rest) = scanString limit depth rest := rfl

theorem HexDigit.inner (d : HexDigit) : d.byte ≠ backslash ∧ d.byte ≠ quote := by
  have valid := d.valid
  constructor <;> intro same <;> rw [same] at valid <;> revert valid <;> decide

theorem string_item (item : Item) : scanString limit depth (item.render ++ rest) = scanString limit depth rest := by
  cases item with
  | raw r => exact string_flats fun b member => ⟨(r.plain b member).2.1,(r.plain b member).1⟩
  | escape e => exact string_escape
  | unicode a b c d =>
    have inner : ∀ x ∈ [a.byte,b.byte,c.byte,d.byte], x ≠ backslash ∧ x ≠ quote := by
      intro x member
      simp only [List.mem_cons,List.not_mem_nil,or_false] at member
      obtain rfl | rfl | rfl | rfl := member <;> exact HexDigit.inner _
    exact string_escape.trans (string_flats inner)

theorem string_items (items : List Item) :
    scanString limit depth (renderItems items ++ rest) = scanString limit depth rest := by
  induction items with
  | nil => rfl
  | cons item items ih => rw [renderItems_cons,List.append_assoc,string_item,ih]

/-- A string literal leaves the scan as it was, brackets and escapes inside it included. -/
theorem scan_literal (items : List Item) :
    scanFrom limit depth (renderString items ++ rest) = scanFrom limit depth rest := by
  have opened : scanFrom limit depth (renderString items ++ rest) =
      scanString limit depth (renderItems items ++ (quote :: rest)) := by
    rw [renderString,List.cons_append,List.append_assoc]
    rfl
  rw [opened,string_items]
  rfl

theorem flat_space (space : isSpace b = true) : Flat b := by
  simp only [isSpace,decide_eq_true_eq] at space
  obtain rfl | rfl | rfl | rfl := space <;> decide

theorem flat_digit (digit : isDigit b = true) : Flat b := by
  simp only [isDigit,decide_eq_true_eq,UInt8.le_iff_toNat_le] at digit
  refine ⟨?_,not_or.mpr ⟨?_,?_⟩,not_or.mpr ⟨?_,?_⟩⟩ <;> rintro rfl <;> exact absurd digit (by decide)

theorem scan_gap (gap : Gap) : scanFrom limit depth (renderGap gap ++ rest) = scanFrom limit depth rest :=
  scan_flats fun b member => flat_space (isSpace_of_mem b member)

theorem scan_skip (input : Bytes) : scanFrom limit depth (skipWhitespace input) = scanFrom limit depth input := by
  obtain ⟨gap,split⟩ := split_gap input
  conv_rhs => rw [split,scan_gap]

theorem flat_digits {ds : List Digit} : ∀ b ∈ renderDigits ds, Flat b := fun b member => flat_digit (isDigit_of_mem b member)

theorem flat_exponent (e : Exponent) : ∀ b ∈ e.render, Flat b := by
  intro b member
  rw [Exponent.render,List.mem_cons,List.mem_append] at member
  obtain rfl | sign | digit := member
  · cases e.upper <;> decide
  · rw [renderSign.eq_def] at sign
    split at sign
    · cases sign
    · next negative _ =>
      rw [List.mem_singleton.mp sign]
      cases negative <;> decide
  · exact flat_digits b digit

theorem flat_numeral (n : Numeral) : ∀ b ∈ n.render, Flat b := by
  intro b member
  rw [Numeral.render,List.mem_append,List.mem_append,List.mem_append] at member
  obtain ((sign | digit) | fraction) | exponent := member
  · split at sign
    · rw [List.mem_singleton.mp sign]
      decide
    · cases sign
  · exact flat_digits b digit
  · rw [Numeral.renderFraction] at fraction
    split at fraction
    · cases fraction
    · obtain rfl | digit := List.mem_cons.mp fraction
      · decide
      · exact flat_digits b digit
  · rw [Numeral.renderExponent] at exponent
    split at exponent
    · cases exponent
    · exact flat_exponent _ b exponent

theorem scan_numeral (n : Numeral) : scanFrom limit depth (n.render ++ rest) = scanFrom limit depth rest :=
  scan_flats (flat_numeral n)

end tokens

section documents

mutual

/-- How many arrays and objects enclose the innermost one, itself included. -/
def Doc.depth : Doc → Nat
  | .null => 0
  | .bool _ => 0
  | .number _ => 0
  | .string _ => 0
  | .emptyArray _ => 1
  | .array elements => elements.depth + 1
  | .emptyObject _ => 1
  | .object members => members.depth + 1

def Elements.depth : Elements → Nat
  | .last _ d _ => d.depth
  | .cons _ d _ rest => max d.depth rest.depth

def Members.depth : Members → Nat
  | .last _ _ _ _ d _ => d.depth
  | .cons _ _ _ _ d _ rest => max d.depth rest.depth

end

section

-- equations, made here once and not by the first proofs that unfold these
attribute [local simp] Doc.depth Elements.depth Members.depth

end

variable {limit : Nat}

/-- Two parts one after the other fit when the deeper one does. -/
theorem fits_max {α : Type} (depth a b : Nat) (x : Option α) :
    (if depth + a ≤ limit then if depth + b ≤ limit then x else none else none) =
      if depth + max a b ≤ limit then x else none := by
  by_cases first : depth + a ≤ limit
  · by_cases second : depth + b ≤ limit
    · rw [if_pos first,if_pos second,if_pos (by omega)]
    · rw [if_pos first,if_neg second,if_neg (by omega)]
  · rw [if_neg first,if_neg (by omega)]

mutual

/-- The scan goes on behind a document if it fits, at the depth it came with. -/
theorem scan_doc (d : Doc) {depth : Nat} (within : depth ≤ limit) (rest : Bytes) :
    scanFrom limit depth (d.render ++ rest) = if depth + d.depth ≤ limit then scanFrom limit depth rest else none := by
  cases d with
  | null =>
    rw [Doc.depth,Nat.add_zero,if_pos within,Doc.render]
    exact scan_flats (flat_word (by decide))
  | bool b =>
    rw [Doc.depth,Nat.add_zero,if_pos within,Doc.render]
    exact scan_flats (flat_word (by cases b <;> decide))
  | number n => rw [Doc.depth,Nat.add_zero,if_pos within,Doc.render,scan_numeral]
  | string s => rw [Doc.depth,Nat.add_zero,if_pos within,Doc.render,scan_literal]
  | emptyArray gap =>
    rw [Doc.depth,Doc.render,List.cons_append,List.append_assoc,scan_opener (.inl rfl),scan_gap,List.singleton_append,
      scan_closer (.inl rfl)]
  | array elements =>
    rw [Doc.depth,Doc.render,List.cons_append,List.append_assoc,scan_opener (.inl rfl),List.singleton_append]
    by_cases room : depth + 1 ≤ limit
    · rw [if_pos room,scan_elements elements room,scan_closer (.inl rfl),Nat.add_assoc,Nat.add_comm 1]
    · rw [if_neg room,if_neg (by omega)]
  | emptyObject gap =>
    rw [Doc.depth,Doc.render,List.cons_append,List.append_assoc,scan_opener (.inr rfl),scan_gap,List.singleton_append,
      scan_closer (.inr rfl)]
  | object members =>
    rw [Doc.depth,Doc.render,List.cons_append,List.append_assoc,scan_opener (.inr rfl),List.singleton_append]
    by_cases room : depth + 1 ≤ limit
    · rw [if_pos room,scan_members members room,scan_closer (.inr rfl),Nat.add_assoc,Nat.add_comm 1]
    · rw [if_neg room,if_neg (by omega)]

theorem scan_elements (es : Elements) {depth : Nat} (within : depth ≤ limit) (rest : Bytes) :
    scanFrom limit depth (es.render ++ rest) = if depth + es.depth ≤ limit then scanFrom limit depth rest else none := by
  cases es with
  | last before d after =>
    rw [Elements.render,Elements.depth,List.append_assoc,List.append_assoc,scan_gap,scan_doc d within,scan_gap]
  | cons before d after more =>
    rw [Elements.render,Elements.depth,List.append_assoc,List.append_assoc,List.append_assoc,scan_gap,scan_doc d within,
      scan_gap,List.cons_append,scan_flat (by decide),scan_elements more within,fits_max]

theorem scan_members (ms : Members) {depth : Nat} (within : depth ≤ limit) (rest : Bytes) :
    scanFrom limit depth (ms.render ++ rest) = if depth + ms.depth ≤ limit then scanFrom limit depth rest else none := by
  cases ms with
  | last before key mid after d close =>
    rw [Members.render,Members.depth,List.append_assoc,List.append_assoc,List.append_assoc,scan_gap,scan_literal,scan_gap,
      List.cons_append,scan_flat (by decide),List.append_assoc,List.append_assoc,scan_gap,scan_doc d within,scan_gap]
  | cons before key mid after d close more =>
    rw [Members.render,Members.depth,List.append_assoc,List.append_assoc,List.append_assoc,scan_gap,scan_literal,scan_gap,
      List.cons_append,scan_flat (by decide),List.append_assoc,List.append_assoc,List.append_assoc,scan_gap,
      scan_doc d within,scan_gap,List.cons_append,scan_flat (by decide),scan_members more within,fits_max]

end

/-- On a text the guard compares the depth of the document with the limit. -/
theorem exceeds_render (t : Text) : nestingDepthExceeds t.render limit = decide (limit < t.doc.depth) := by
  have scanned : scanFrom limit 0 t.render = if t.doc.depth ≤ limit then some ⟨0,false,false⟩ else none := by
    have gap : scanFrom limit 0 (renderGap t.after) = some ⟨0,false,false⟩ := by
      rw [← List.append_nil (renderGap t.after),scan_gap,scan_nil]
    rw [Text.render,List.append_assoc,scan_gap,scan_doc t.doc limit.zero_le,Nat.zero_add,gap]
  have guard : nestingDepthExceeds t.render limit = (scanFrom limit 0 t.render).isNone := rfl
  rw [guard,scanned]
  by_cases fits : t.doc.depth ≤ limit
  · simp [fits]
  · simp [fits,Nat.not_le.mp fits]

-- the two brackets stand in a string, behind an escaped quote
example : nestingDepthExceeds [quote,backslash,quote,openBracket,openBracket,quote] 0 = false := by decide

end documents

end Perry.Json
