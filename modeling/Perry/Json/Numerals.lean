import Perry.Json.Scan

/-! The number scanners over a numeral: both parsers end at the same byte and read the
double nearest to what is written, whichever path they take. -/
namespace Perry.Json

section digits

/-- What may follow a value: white space, a comma or a closing bracket. -/
def Ends (rest : Bytes) : Prop :=
  ∀ b ∈ rest.head?, isSpace b = true ∨ b = comma ∨ b = closeBracket ∨ b = closeBrace

/-- Nothing of the input would lengthen a numeral before it. -/
structure Stops (rest : Bytes) : Prop where
  digit : ∀ b ∈ rest.head?, isDigit b = false
  dot : rest.head? ≠ some dot
  lower : rest.head? ≠ some lowerE
  upper : rest.head? ≠ some upperE

theorem Ends.stops {rest : Bytes} (ends : Ends rest) : Stops rest := by
  have known : ∀ b ∈ rest.head?, isDigit b = false ∧ b ≠ Json.dot ∧ b ≠ lowerE ∧ b ≠ upperE := by
    intro b head
    obtain space | rfl | rfl | rfl := ends b head
    · simp only [isSpace,decide_eq_true_eq] at space
      obtain rfl | rfl | rfl | rfl := space <;> decide
    · decide
    · decide
    · decide
  exact ⟨fun b head => (known b head).1,fun head => (known _ head).2.1 rfl,fun head => (known _ head).2.2.1 rfl,
    fun head => (known _ head).2.2.2 rfl⟩

theorem Digit.facts (d : Digit) : isDigit d.byte = true ∧ d.byte ≠ minus ∧ d.byte ≠ plus ∧ d.byte.toNat - 0x30 = d.val ∧
    (d.byte = 0x30 ↔ d = 0) := by
  revert d
  decide

theorem isDigit_of_mem {ds : List Digit} : ∀ b ∈ renderDigits ds, isDigit b = true := by
  intro b member
  obtain ⟨d,-,rfl⟩ := List.mem_map.mp member
  exact d.facts.1

theorem span_digits (ds : List Digit) {rest : Bytes} (stop : ∀ b ∈ rest.head?, isDigit b = false) :
    (renderDigits ds ++ rest).takeWhile isDigit = renderDigits ds ∧ (renderDigits ds ++ rest).dropWhile isDigit = rest := by
  rw [List.takeWhile_append_of_pos isDigit_of_mem,List.dropWhile_append_of_pos isDigit_of_mem]
  cases rest with
  | nil => simp
  | cons b rest => simp [stop b rfl]

theorem bytesValue_digits (ds : List Digit) : bytesValue (renderDigits ds) = digitsValue ds := by
  have step (acc : Nat) : (renderDigits ds).foldl (fun acc b => acc * 10 + (b.toNat - 0x30)) acc =
      ds.foldl (fun acc d => acc * 10 + d.val) acc := by
    induction ds generalizing acc with
    | nil => rfl
    | cons d ds ih =>
      have value := d.facts.2.2.2.1
      rw [renderDigits,List.map_cons,List.foldl_cons,List.foldl_cons,value]
      exact ih _
  exact step 0

theorem renderDigits_append (ds es : List Digit) : renderDigits (ds ++ es) = renderDigits ds ++ renderDigits es :=
  List.map_append

theorem renderDigits_cons (d : Digit) (ds : List Digit) : renderDigits (d :: ds) = d.byte :: renderDigits ds := rfl

end digits

section parts

theorem sign_minus (sign : Option Bool) (d : Digit) (ds : List Digit) (rest : Bytes) :
    (renderSign sign ++ (renderDigits (d :: ds) ++ rest)).head? = some minus ↔ sign = some true := by
  obtain - | - | - := sign
  · simp [renderSign,renderDigits_cons,d.facts.2.1]
  · simp [renderSign,show plus ≠ minus by decide]
  · simp [renderSign]

theorem strip_sign (sign : Option Bool) (d : Digit) (ds : List Digit) (rest : Bytes) :
    (if (renderSign sign ++ (renderDigits (d :: ds) ++ rest)).head? = some plus ∨
        (renderSign sign ++ (renderDigits (d :: ds) ++ rest)).head? = some minus then
      (renderSign sign ++ (renderDigits (d :: ds) ++ rest)).tail
      else renderSign sign ++ (renderDigits (d :: ds) ++ rest)) = renderDigits (d :: ds) ++ rest := by
  obtain - | - | - := sign
  · simp [renderSign,renderDigits_cons,d.facts.2.1,d.facts.2.2.1]
  · simp [renderSign]
  · simp [renderSign]

variable {n : Numeral} {rest : Bytes} (stops : Stops rest)
include stops

theorem stop_exponent : (∀ b ∈ (n.renderExponent ++ rest).head?, isDigit b = false) ∧
    (n.renderExponent ++ rest).head? ≠ some dot := by
  rw [Numeral.renderExponent]
  split
  · exact ⟨stops.digit,stops.dot⟩
  · next e _ =>
    rw [Exponent.render,List.cons_append,List.head?_cons]
    cases e.upper <;> simp <;> decide

theorem stop_fraction : ∀ b ∈ (n.renderFraction ++ (n.renderExponent ++ rest)).head?, isDigit b = false := by
  rw [Numeral.renderFraction]
  split
  · exact (stop_exponent stops).1
  · intro b head
    cases head
    decide

theorem skipExponent_render : skipExponent (n.renderExponent ++ rest) = some rest := by
  rw [Numeral.renderExponent]
  split
  · cases rest with
    | nil => rfl
    | cons b rest =>
      have lower : b ≠ lowerE := fun equal => stops.lower (by rw [equal]; rfl)
      have upper : b ≠ upperE := fun equal => stops.upper (by rw [equal]; rfl)
      rw [List.nil_append,skipExponent,if_neg (not_or.mpr ⟨lower,upper⟩)]
  · next e _ =>
    have marker : (if e.upper = true then upperE else lowerE) = lowerE ∨ (if e.upper = true then upperE else lowerE) = upperE := by
      cases e.upper <;> simp
    obtain ⟨taken,dropped⟩ := span_digits e.digits stops.digit
    rw [Exponent.render,List.cons_append,List.append_assoc,skipExponent,if_pos marker]
    have strip := strip_sign e.sign e.first e.more rest
    rw [Exponent.digits] at taken dropped ⊢
    dsimp only
    rw [strip,taken,dropped]
    rfl

theorem startsExponent_render : Direct.startsExponent (n.renderExponent ++ rest) = n.exponent.isSome := by
  rw [Numeral.renderExponent]
  split
  · next none =>
    simp [Direct.startsExponent,stops.lower,stops.upper,none]
  · next e some =>
    rw [some,Exponent.render,List.cons_append]
    cases e.upper <;> simp [Direct.startsExponent]

omit stops in
theorem body_sign : ((if n.negative then [minus] else []) ++ (renderDigits n.integer ++ rest)).head? = some minus ↔
    n.negative = true := by
  cases n.negative with
  | false => simp [Numeral.integer,renderDigits_cons,n.first.facts.2.1]
  | true => simp

omit stops in
theorem body_unsigned : (if n.negative = true then
      ((if n.negative then [minus] else []) ++ (renderDigits n.integer ++ rest)).tail
      else (if n.negative then [minus] else []) ++ (renderDigits n.integer ++ rest)) = renderDigits n.integer ++ rest := by
  cases n.negative <;> simp

omit stops in
theorem render_append (n : Numeral) (rest : Bytes) : n.render ++ rest =
    (if n.negative then [minus] else []) ++ (renderDigits n.integer ++ (n.renderFraction ++ (n.renderExponent ++ rest))) := by
  simp [Numeral.render]

theorem fraction_pointed : (n.renderFraction ++ (n.renderExponent ++ rest)).head? = some dot ↔ n.fraction.isSome = true := by
  have noDot := (stop_exponent (n := n) stops).2
  cases fraction : n.fraction with
  | none => simpa [Numeral.renderFraction,fraction] using noDot
  | some p => simp [Numeral.renderFraction,fraction]

theorem fraction_taken : (if (n.renderFraction ++ (n.renderExponent ++ rest)).head? = some dot then
      (n.renderFraction ++ (n.renderExponent ++ rest)).tail.takeWhile isDigit else []) = renderDigits n.decimals := by
  have pointed := fraction_pointed (n := n) stops
  cases fraction : n.fraction with
  | none =>
    rw [if_neg (fun head => by simpa [fraction] using pointed.mp head),Numeral.decimals,fraction]
    rfl
  | some p =>
    obtain ⟨d,ds⟩ := p
    rw [if_pos (pointed.mpr (by rw [fraction]; rfl)),Numeral.renderFraction,Numeral.decimals,fraction]
    exact (span_digits (d :: ds) (stop_exponent stops).1).1

theorem fraction_dropped : (if (n.renderFraction ++ (n.renderExponent ++ rest)).head? = some dot then
      (n.renderFraction ++ (n.renderExponent ++ rest)).tail.dropWhile isDigit
      else n.renderFraction ++ (n.renderExponent ++ rest)) = n.renderExponent ++ rest := by
  have pointed := fraction_pointed (n := n) stops
  cases fraction : n.fraction with
  | none =>
    rw [if_neg (fun head => by simpa [fraction] using pointed.mp head),Numeral.renderFraction,fraction]
    rfl
  | some p =>
    obtain ⟨d,ds⟩ := p
    rw [if_pos (pointed.mpr (by rw [fraction]; rfl)),Numeral.renderFraction,fraction]
    exact (span_digits (d :: ds) (stop_exponent stops).1).2

end parts

section doubles

variable {F : Type} (doubles : Doubles F) (n : Numeral)

theorem stops_nil : Stops [] where
  digit _ none := by cases none
  dot := by simp
  lower := by simp
  upper := by simp

theorem parseF64_render : parseF64 doubles n.render = some (n.value doubles) := by
  obtain ⟨taken,dropped⟩ := span_digits n.integer (stop_fraction (n := n) stops_nil)
  have whole := render_append n []
  rw [List.append_nil] at whole
  unfold parseF64
  rw [whole]
  dsimp only
  simp only [body_sign,body_unsigned,taken,dropped,fraction_taken stops_nil,fraction_dropped stops_nil]
  have digits : bytesValue (renderDigits n.integer ++ renderDigits n.decimals) = digitsValue (n.integer ++ n.decimals) := by
    rw [← renderDigits_append,bytesValue_digits]
  have length : (renderDigits n.decimals).length = n.decimals.length := List.length_map ..
  rw [if_neg (fun both => by cases both.1),digits,length,List.append_nil,Bool.decide_eq_true,Numeral.value,
    Numeral.magnitude]
  cases exponent : n.exponent with
  | none => simp [Numeral.renderExponent,Numeral.power,exponent]
  | some e =>
    have marker : (if e.upper = true then upperE else lowerE) = lowerE ∨ (if e.upper = true then upperE else lowerE) = upperE := by
      cases e.upper <;> simp
    have strip := strip_sign e.sign e.first e.more []
    have below := sign_minus e.sign e.first e.more []
    rw [List.append_nil] at strip below
    simp only [Numeral.renderExponent,Numeral.power,Exponent.value,Exponent.render,Exponent.digits,exponent,if_pos marker]
    have order (p q : Prop) : (p ∨ q) = (q ∨ p) := propext or_comm
    simp only [order (_ = some minus) (_ = some plus)]
    rw [strip]
    have scanned : ¬((renderDigits (e.first :: e.more)).isEmpty = true ∨
        (renderDigits (e.first :: e.more)).any (fun b => !isDigit b) = true) := by
      intro wrong
      obtain none | other := wrong
      · cases none
      · obtain ⟨b,member,other⟩ := List.any_eq_true.mp other
        rw [isDigit_of_mem b member] at other
        cases other
    simp only [if_neg scanned,below,bytesValue_digits]

variable {rest : Bytes} (stops : Stops rest)
include stops

omit stops in
/-- What a scanner consumed, if it leaves `rest`. -/
theorem take_render : (n.render ++ rest).take ((n.render ++ rest).length - rest.length) = n.render := by
  rw [List.length_append,Nat.add_sub_cancel,List.take_left]

theorem numberEnd_render : Tape.numberEnd (n.render ++ rest) = rest := by
  obtain ⟨-,dropped⟩ := span_digits n.integer (stop_fraction (n := n) stops)
  unfold Tape.numberEnd
  rw [render_append]
  dsimp only
  simp only [body_sign,body_unsigned,dropped,fraction_dropped stops]
  have marked : ((n.renderExponent ++ rest).head? = some lowerE ∨ (n.renderExponent ++ rest).head? = some upperE) ↔
      n.exponent.isSome = true := by
    rw [← startsExponent_render stops,Direct.startsExponent,decide_eq_true_eq]
  cases exponent : n.exponent with
  | none =>
    rw [if_neg (fun head => by simpa [exponent] using marked.mp head),Numeral.renderExponent,exponent]
    rfl
  | some e =>
    rw [if_pos (marked.mpr (by rw [exponent]; rfl)),Numeral.renderExponent,exponent]
    simp only [Exponent.render,List.cons_append,List.tail_cons,List.append_assoc,Exponent.digits]
    rw [strip_sign]
    exact (span_digits (e.first :: e.more) stops.digit).2

theorem materializeNumber_render : Tape.materializeNumber doubles (n.render ++ rest) = n.value doubles := by
  rw [Tape.materializeNumber,numberEnd_render n stops,take_render,parseF64_render]
  rfl

theorem parseGeneral_render :
    Direct.parseGeneral doubles (n.render ++ rest) (n.renderExponent ++ rest) = some (n.value doubles,rest) := by
  rw [Direct.parseGeneral,skipExponent_render stops]
  simp [parseF64_render]

/-- The integer and the fixed-point paths read what the general parser reads. -/
theorem parseAfterInteger_render : Direct.parseAfterInteger doubles (n.render ++ rest) n.negative (renderDigits n.integer)
    (n.renderFraction ++ (n.renderExponent ++ rest)) = some (n.value doubles,rest) := by
  have pointed := fraction_pointed (n := n) stops
  have taken := fraction_taken (n := n) stops
  have dropped := fraction_dropped (n := n) stops
  have general := parseGeneral_render doubles n stops
  rw [Direct.parseAfterInteger]
  cases fraction : n.fraction with
  | none =>
    have noPoint : ¬(n.renderFraction ++ (n.renderExponent ++ rest)).head? = some dot := fun head => by
      simpa [fraction] using pointed.mp head
    rw [if_neg noPoint] at dropped
    rw [if_neg noPoint,dropped,startsExponent_render stops]
    split
    · next fast =>
      have whole : n.exponent = none := by simpa using fast.1
      simp [Numeral.value,Numeral.magnitude,Numeral.power,Numeral.decimals,fraction,whole,bytesValue_digits,
        Numeral.renderExponent]
    · exact general
  | some p =>
    have point : (n.renderFraction ++ (n.renderExponent ++ rest)).head? = some dot := pointed.mpr (by rw [fraction]; rfl)
    rw [if_pos point] at taken dropped
    have some : (renderDigits n.decimals).isEmpty = false := by
      rw [Numeral.decimals,fraction]
      rfl
    dsimp only
    rw [if_pos point,taken,dropped,some,startsExponent_render stops]
    simp only [Bool.false_eq_true,if_false]
    split
    · next fast =>
      have whole : n.exponent = none := by simpa using fast.1
      rw [← renderDigits_append,bytesValue_digits]
      simp [Numeral.value,Numeral.magnitude,Numeral.power,whole,Numeral.renderExponent,renderDigits,div_eq_mul_inv]
    · exact general

omit stops in
theorem first_zero (zero : n.first.byte = 0x30) : n.more = [] := n.canonical (n.first.facts.2.2.2.2.mp zero)

theorem parseNumber_render : Direct.parseNumber doubles (n.render ++ rest) = some (n.value doubles,rest) := by
  have after := parseAfterInteger_render doubles n stops
  have stop := stop_fraction (n := n) stops
  obtain ⟨taken,dropped⟩ := span_digits n.integer stop
  rw [render_append] at after ⊢
  unfold Direct.parseNumber
  dsimp only
  simp only [body_sign,body_unsigned,Bool.decide_eq_true]
  split
  · next none => cases none
  · next b tail body =>
    rw [Numeral.integer,renderDigits_cons,List.cons_append,List.cons.injEq] at body
    obtain ⟨rfl,rfl⟩ := body
    split
    · next zero =>
      have single := first_zero n zero
      have integer : n.integer = [n.first] := by rw [Numeral.integer,single]
      rw [integer] at after
      rw [integer,single,if_neg]
      · exact after
      · intro more
        obtain ⟨b,head,digit⟩ := (Option.any_eq_true _ _).mp more
        rw [stop b head] at digit
        cases digit
    · rw [if_pos n.first.facts.1,taken,dropped]
      exact after

end doubles

section tape

variable (n : Numeral) {rest : Bytes} (stops : Stops rest)
include stops

theorem skipNumber_render : Tape.skipNumber (n.render ++ rest) = some rest := by
  have stop := stop_fraction (n := n) stops
  have after := skipExponent_render (n := n) stops
  obtain ⟨-,dropped⟩ := span_digits n.more stop
  have pointed := fraction_pointed (n := n) stops
  have fractionTaken := fraction_taken (n := n) stops
  have fractionDropped := fraction_dropped (n := n) stops
  have body : (if n.first.byte = 0x30 then renderDigits n.more ++ (n.renderFraction ++ (n.renderExponent ++ rest))
      else (renderDigits n.more ++ (n.renderFraction ++ (n.renderExponent ++ rest))).dropWhile isDigit) =
      n.renderFraction ++ (n.renderExponent ++ rest) := by
    split
    · next zero =>
      rw [first_zero n zero]
      rfl
    · exact dropped
  rw [render_append]
  unfold Tape.skipNumber
  dsimp only
  simp only [body_sign,body_unsigned]
  simp only [Numeral.integer,renderDigits_cons,List.cons_append]
  rw [if_pos (.inr n.first.facts.1),body]
  cases fraction : n.fraction with
  | none =>
    have noPoint : ¬(n.renderFraction ++ (n.renderExponent ++ rest)).head? = some dot := fun head => by
      simpa [fraction] using pointed.mp head
    rw [if_neg noPoint] at fractionDropped ⊢
    rw [fractionDropped,after]
  | some p =>
    have point : (n.renderFraction ++ (n.renderExponent ++ rest)).head? = some dot := pointed.mpr (by rw [fraction]; rfl)
    have some : (renderDigits n.decimals).isEmpty = false := by
      rw [Numeral.decimals,fraction]
      rfl
    rw [if_pos point] at fractionTaken fractionDropped ⊢
    rw [fractionTaken,fractionDropped,some,after]
    rfl

end tape

end Perry.Json
