import Perry.Json.Text

/-! The scanners of `json/parser.rs` and `json_tape.rs`: each reads a token off the
front of the input and leaves the rest. -/
namespace Perry.Json

open Perry.Unicode

section shared

def skipWhitespace (input : Bytes) : Bytes := input.dropWhile isSpace

def bytesValue (bs : Bytes) : Nat := bs.foldl (fun acc b => acc * 10 + (b.toNat - 0x30)) 0

/-- What follows an optional exponent, which needs a digit. -/
def skipExponent : Bytes → Option Bytes
  | [] => some []
  | b :: rest =>
    if b = lowerE ∨ b = upperE then
      let rest := if rest.head? = some plus ∨ rest.head? = some minus then rest.tail else rest
      if (rest.takeWhile isDigit).isEmpty then none else some (rest.dropWhile isDigit)
    else some (b :: rest)

variable {F : Type} (doubles : Doubles F)

/-- `str::parse::<f64>` on decimal notation. -/
def parseF64 (text : Bytes) : Option F :=
  let negative := text.head? = some minus
  let text := if negative then text.tail else text
  let int := text.takeWhile isDigit
  let text := text.dropWhile isDigit
  let pointed := text.head? = some dot
  let frac := if pointed then text.tail.takeWhile isDigit else []
  let text := if pointed then text.tail.dropWhile isDigit else text
  if int.isEmpty ∧ frac.isEmpty then none
  else match text with
    | [] => some (doubles.signed negative ((bytesValue (int ++ frac) : ℚ) * 10 ^ (-(frac.length : Int))))
    | b :: text =>
      if b = lowerE ∨ b = upperE then
        let below := text.head? = some minus
        let text := if below ∨ text.head? = some plus then text.tail else text
        let ten : Int := bytesValue text
        if text.isEmpty ∨ text.any (!isDigit ·) then none
        else some (doubles.signed negative
          ((bytesValue (int ++ frac) : ℚ) * 10 ^ ((if below then -ten else ten) - (frac.length : Int))))
      else none

def simpleEscape (esc : UInt8) : Option UInt8 :=
  if esc = quote then some quote
  else if esc = backslash then some backslash
  else if esc = slash then some slash
  else if esc = lowerN then some 0x0A
  else if esc = lowerR then some 0x0D
  else if esc = lowerT then some 0x09
  else if esc = lowerB then some 0x08
  else if esc = lowerF then some 0x0C
  else none

def hexDigits (bs : Bytes) : Option Nat := bs.foldlM (fun value b => (hexValue b).map (value * 16 + ·)) 0

end shared

namespace Direct

def decodeHexU16 (bs : Bytes) : Option Nat := if bs.length = 4 then hexDigits bs else none

/-- The bytes of a code unit; a surrogate is spelled as three bytes. -/
def pushCodeUnitWtf8 (unit : Nat) : Bytes :=
  if 0xD800 ≤ unit ∧ unit ≤ 0xDFFF then
    [.ofNat (0xE0 + unit / 4096),.ofNat (0x80 + unit / 64 % 64),.ofNat (0x80 + unit % 64)]
  else encodeUtf8 unit

/-- The low surrogate escaped right after a high one. -/
def pairedLow (code : Nat) (rest : Bytes) : Option Nat :=
  if isHigh code ∧ 6 ≤ rest.length ∧ rest.head? = some backslash ∧ rest.tail.head? = some lowerU then
    (decodeHexU16 ((rest.drop 2).take 4)).filter isLow
  else none

/-- `parse_string_bytes_slow`, from the first escape on. -/
def parseStringBytesSlow : Nat → Bytes → Bytes → Option (Bytes × Bytes)
  | 0,_,_ => none
  | _ + 1,_,[] => none
  | n + 1,result,ch :: rest =>
    if ch = quote then some (result,rest)
    else if ch = backslash then
      match rest with
      | [] => none
      | esc :: rest =>
        match simpleEscape esc with
        | some b => parseStringBytesSlow n (result ++ [b]) rest
        | none =>
          if esc = lowerU then
            match decodeHexU16 (rest.take 4) with
            | none => none
            | some code =>
              match pairedLow code (rest.drop 4) with
              | some low =>
                parseStringBytesSlow n (result ++ encodeUtf8 (0x10000 + (code - 0xD800) * 1024 + (low - 0xDC00)))
                  (rest.drop 10)
              | none => parseStringBytesSlow n (result ++ pushCodeUnitWtf8 code) (rest.drop 4)
          else none
    else if ch < 0x20 then none
    else parseStringBytesSlow n (result ++ [ch]) rest

def isTerminator (b : UInt8) : Bool := b = quote ∨ b = backslash ∨ b < 0x20

def parseStringBytes : Bytes → Option (Bytes × Bytes)
  | [] => none
  | b :: input =>
    if b = quote then
      match input.dropWhile (!isTerminator ·) with
      | [] => none
      | ch :: rest =>
        if ch = quote then some (input.takeWhile (!isTerminator ·),rest)
        else if ch < 0x20 then none
        else parseStringBytesSlow (input.length + 1) (input.takeWhile (!isTerminator ·)) (ch :: rest)
    else none

variable {F : Type} (doubles : Doubles F)

/-- The end of `parse_number`: an optional exponent, then the general parser over
the whole text of the number. -/
def parseGeneral (input rest : Bytes) : Option (F × Bytes) := do
  let rest ← skipExponent rest
  let x ← parseF64 doubles (input.take (input.length - rest.length))
  pure (x,rest)

def startsExponent (rest : Bytes) : Bool := rest.head? = some lowerE ∨ rest.head? = some upperE

/-- `parse_number` after the digits before the point. -/
def parseAfterInteger (input : Bytes) (negative : Bool) (int rest : Bytes) : Option (F × Bytes) :=
  if rest.head? = some dot then
    let frac := rest.tail.takeWhile isDigit
    let rest := rest.tail.dropWhile isDigit
    if frac.isEmpty then none
    else if !startsExponent rest ∧ frac.length ≤ 9 ∧ int.length + frac.length ≤ 17 ∧
        bytesValue (int ++ frac) ≤ 2 ^ 53 then
      some (doubles.signed negative ((bytesValue (int ++ frac) : ℚ) / 10 ^ frac.length),rest)
    else parseGeneral doubles input rest
  else if !startsExponent rest ∧ int.length ≤ 18 then some (doubles.signed negative (bytesValue int),rest)
  else parseGeneral doubles input rest

def parseNumber (input : Bytes) : Option (F × Bytes) :=
  let negative := input.head? = some minus
  let body := if negative then input.tail else input
  match body with
  | [] => none
  | b :: rest =>
    if b = 0x30 then
      if rest.head?.any isDigit then none else parseAfterInteger doubles input negative [b] rest
    else if isDigit b then
      parseAfterInteger doubles input negative (body.takeWhile isDigit) (body.dropWhile isDigit)
    else none

end Direct

namespace Tape

def isSimple (esc : UInt8) : Bool := (simpleEscape esc).isSome

/-- `skip_string` after the opening quote. -/
def skipString : Nat → Bytes → Option Bytes
  | 0,_ => none
  | _ + 1,[] => none
  | n + 1,c :: rest =>
    if c = quote then some rest
    else if c = backslash then
      match rest with
      | [] => none
      | esc :: rest =>
        if isSimple esc then skipString n rest
        else if esc = lowerU then
          if 4 ≤ rest.length ∧ (rest.take 4).all fun b => (hexValue b).isSome then skipString n (rest.drop 4) else none
        else none
    else if c < 0x20 then none
    else skipString n rest

def skipNumber (input : Bytes) : Option Bytes :=
  let body := if input.head? = some minus then input.tail else input
  match body with
  | [] => none
  | b :: rest =>
    if b = 0x30 ∨ isDigit b then
      let rest := if b = 0x30 then rest else rest.dropWhile isDigit
      if rest.head? = some dot then
        if (rest.tail.takeWhile isDigit).isEmpty then none else skipExponent (rest.tail.dropWhile isDigit)
      else skipExponent rest
    else none

/-- `u16::from_str_radix(_, 16)` on at most four bytes, which takes a plus sign too. -/
def fromStrRadix16 (bs : Bytes) : Option Nat :=
  let digits := if bs.head? = some plus then bs.tail else bs
  if digits.isEmpty then none else hexDigits digits

/-- The bytes of a code point, if `char::from_u32` accepts it. -/
def pushScalar (c : Nat) : Bytes := if isScalar c then encodeUtf8 c else []

/-- `parse_string_bytes_slow` of the tape; code points are computed in 32 bits. -/
def parseStringBytesSlow : Nat → Bytes → Bytes → Option Bytes
  | 0,_,_ => none
  | _ + 1,_,[] => none
  | n + 1,result,c :: rest =>
    if c = quote then some result
    else if c = backslash then
      match rest with
      | [] => none
      | esc :: rest =>
        match simpleEscape esc with
        | some b => parseStringBytesSlow n (result ++ [b]) rest
        | none =>
          if esc = lowerU then
            match if 4 ≤ rest.length then fromStrRadix16 (rest.take 4) else none with
            | none => none
            | some code =>
              if isHigh code then
                if 6 ≤ (rest.drop 4).length ∧ (rest.drop 4).head? = some backslash ∧
                    (rest.drop 4).tail.head? = some lowerU then
                  match fromStrRadix16 ((rest.drop 6).take 4) with
                  | none => none
                  | some low =>
                    let c := (0x10000 + (code - 0xD800) * 1024 + (low + 0x100000000 - 0xDC00)) % 0x100000000
                    parseStringBytesSlow n (result ++ pushScalar c) (rest.drop 10)
                else parseStringBytesSlow n result (rest.drop 4)
              else parseStringBytesSlow n (result ++ pushScalar code) (rest.drop 4)
          else parseStringBytesSlow n (result ++ [esc]) rest
    else parseStringBytesSlow n (result ++ [c]) rest

def isTerminator (b : UInt8) : Bool := b = quote ∨ b = backslash

def parseStringBytesStatic : Bytes → Option Bytes
  | [] => none
  | b :: input =>
    if b = quote then
      match input.dropWhile (!isTerminator ·) with
      | [] => none
      | c :: rest =>
        if c = quote then some (input.takeWhile (!isTerminator ·))
        else parseStringBytesSlow (input.length + 1) (input.takeWhile (!isTerminator ·)) (c :: rest)
    else none

/-- The end of a number as `materialize_number` finds it. -/
def numberEnd (bytes : Bytes) : Bytes :=
  let rest := if bytes.head? = some minus then bytes.tail else bytes
  let rest := rest.dropWhile isDigit
  let rest := if rest.head? = some dot then rest.tail.dropWhile isDigit else rest
  if rest.head? = some lowerE ∨ rest.head? = some upperE then
    let rest := rest.tail
    let rest := if rest.head? = some plus ∨ rest.head? = some minus then rest.tail else rest
    rest.dropWhile isDigit
  else rest

variable {F : Type} (doubles : Doubles F)

def materializeNumber (bytes : Bytes) : F :=
  (parseF64 doubles (bytes.take (bytes.length - (numberEnd bytes).length))).getD (doubles.nearest 0)

end Tape

end Perry.Json
