import Perry.Unicode.Wtf8

/-! JSON text as its grammar derives it, byte by byte, and the value it stands for
once its strings are decoded one way or another. -/
namespace Perry.Json

open Perry.Unicode

abbrev Bytes := List UInt8

section bytes

abbrev quote : UInt8 := 0x22
abbrev plus : UInt8 := 0x2B
abbrev comma : UInt8 := 0x2C
abbrev minus : UInt8 := 0x2D
abbrev dot : UInt8 := 0x2E
abbrev slash : UInt8 := 0x2F
abbrev colon : UInt8 := 0x3A
abbrev upperE : UInt8 := 0x45
abbrev openBracket : UInt8 := 0x5B
abbrev backslash : UInt8 := 0x5C
abbrev closeBracket : UInt8 := 0x5D
abbrev lowerB : UInt8 := 0x62
abbrev lowerE : UInt8 := 0x65
abbrev lowerF : UInt8 := 0x66
abbrev lowerN : UInt8 := 0x6E
abbrev lowerR : UInt8 := 0x72
abbrev lowerT : UInt8 := 0x74
abbrev lowerU : UInt8 := 0x75
abbrev openBrace : UInt8 := 0x7B
abbrev closeBrace : UInt8 := 0x7D

def nullBytes : Bytes := [0x6E,0x75,0x6C,0x6C]

def trueBytes : Bytes := [0x74,0x72,0x75,0x65]

def falseBytes : Bytes := [0x66,0x61,0x6C,0x73,0x65]

def isSpace (b : UInt8) : Bool := b = 0x20 ∨ b = 0x09 ∨ b = 0x0A ∨ b = 0x0D

def isDigit (b : UInt8) : Bool := 0x30 ≤ b ∧ b ≤ 0x39

def hexValue (b : UInt8) : Option Nat :=
  if 0x30 ≤ b ∧ b ≤ 0x39 then some (b.toNat - 0x30)
  else if 0x61 ≤ b ∧ b ≤ 0x66 then some (b.toNat - 0x61 + 10)
  else if 0x41 ≤ b ∧ b ≤ 0x46 then some (b.toNat - 0x41 + 10)
  else none

end bytes

section tokens

inductive Space where
  | blank | tab | newline | carriage
  deriving DecidableEq, Repr

def Space.byte : Space → UInt8
  | .blank => 0x20
  | .tab => 0x09
  | .newline => 0x0A
  | .carriage => 0x0D

abbrev Gap := List Space

def renderGap (gap : Gap) : Bytes := gap.map Space.byte

/-- A byte that stands for itself in a string. -/
def Plain (b : UInt8) : Prop := b ≠ quote ∧ b ≠ backslash ∧ ¬b < 0x20

/-- A character that stands for itself in a string, by its bytes. -/
structure Raw where
  bytes : Bytes
  some : bytes ≠ []
  plain : ∀ b ∈ bytes, Plain b

def Raw.Utf8 (r : Raw) : Prop := ∃ c, isScalar c = true ∧ r.bytes = encodeUtf8 c

inductive Escape where
  | quote | backslash | slash | newline | carriage | tab | backspace | formFeed
  deriving DecidableEq, Repr

namespace Escape

def letter : Escape → UInt8
  | .quote => Json.quote
  | .backslash => Json.backslash
  | .slash => Json.slash
  | .newline => lowerN
  | .carriage => lowerR
  | .tab => lowerT
  | .backspace => lowerB
  | .formFeed => lowerF

def byte : Escape → UInt8
  | .quote => Json.quote
  | .backslash => Json.backslash
  | .slash => Json.slash
  | .newline => 0x0A
  | .carriage => 0x0D
  | .tab => 0x09
  | .backspace => 0x08
  | .formFeed => 0x0C

end Escape

structure HexDigit where
  byte : UInt8
  valid : (hexValue byte).isSome = true

def HexDigit.value (d : HexDigit) : Nat := (hexValue d.byte).getD 0

inductive Item where
  | raw (r : Raw)
  | escape (e : Escape)
  | unicode (a b c d : HexDigit)

/-- The code unit of a `\u` escape. -/
def unitOf (a b c d : HexDigit) : Nat := ((a.value * 16 + b.value) * 16 + c.value) * 16 + d.value

def Item.render : Item → Bytes
  | .raw r => r.bytes
  | .escape e => [backslash,e.letter]
  | .unicode a b c d => [backslash,lowerU,a.byte,b.byte,c.byte,d.byte]

def renderItems (items : List Item) : Bytes := items.flatMap Item.render

/-- A string between its quotes. -/
def renderString (items : List Item) : Bytes := quote :: (renderItems items ++ [quote])

abbrev Digit := Fin 10

def Digit.byte (d : Digit) : UInt8 := .ofNat (0x30 + d.val)

def renderDigits (ds : List Digit) : Bytes := ds.map Digit.byte

structure Exponent where
  upper : Bool
  sign : Option Bool
  first : Digit
  more : List Digit

def renderSign : Option Bool → Bytes
  | none => []
  | some negative => [if negative then minus else plus]

def Exponent.digits (e : Exponent) : List Digit := e.first :: e.more

def Exponent.render (e : Exponent) : Bytes :=
  (if e.upper then upperE else lowerE) :: (renderSign e.sign ++ renderDigits e.digits)

/-- A number as it is written; only a lone zero starts with zero. -/
structure Numeral where
  negative : Bool
  first : Digit
  more : List Digit
  canonical : first = 0 → more = []
  fraction : Option (Digit × List Digit)
  exponent : Option Exponent

namespace Numeral

def integer (n : Numeral) : List Digit := n.first :: n.more

def decimals (n : Numeral) : List Digit :=
  match n.fraction with
  | none => []
  | some (d,ds) => d :: ds

def renderFraction (n : Numeral) : Bytes :=
  match n.fraction with
  | none => []
  | some (d,ds) => dot :: renderDigits (d :: ds)

def renderExponent (n : Numeral) : Bytes :=
  match n.exponent with
  | none => []
  | some e => e.render

def render (n : Numeral) : Bytes :=
  (if n.negative then [minus] else []) ++ renderDigits n.integer ++ n.renderFraction ++ n.renderExponent

end Numeral

end tokens

section documents

mutual

inductive Doc where
  | null
  | bool (b : Bool)
  | number (n : Numeral)
  | string (s : List Item)
  | emptyArray (gap : Gap)
  | array (elements : Elements)
  | emptyObject (gap : Gap)
  | object (members : Members)

inductive Elements where
  | last (before : Gap) (d : Doc) (after : Gap)
  | cons (before : Gap) (d : Doc) (after : Gap) (rest : Elements)

inductive Members where
  | last (before : Gap) (key : List Item) (mid after : Gap) (d : Doc) (close : Gap)
  | cons (before : Gap) (key : List Item) (mid after : Gap) (d : Doc) (close : Gap) (rest : Members)

end

mutual

def Doc.render : Doc → Bytes
  | .null => nullBytes
  | .bool b => if b then trueBytes else falseBytes
  | .number n => n.render
  | .string s => renderString s
  | .emptyArray gap => openBracket :: (renderGap gap ++ [closeBracket])
  | .array elements => openBracket :: (elements.render ++ [closeBracket])
  | .emptyObject gap => openBrace :: (renderGap gap ++ [closeBrace])
  | .object members => openBrace :: (members.render ++ [closeBrace])

def Elements.render : Elements → Bytes
  | .last before d after => renderGap before ++ d.render ++ renderGap after
  | .cons before d after rest => renderGap before ++ d.render ++ renderGap after ++ comma :: rest.render

def Members.render : Members → Bytes
  | .last before key mid after d close =>
    renderGap before ++ renderString key ++ renderGap mid ++ colon :: (renderGap after ++ d.render ++ renderGap close)
  | .cons before key mid after d close rest =>
    renderGap before ++ renderString key ++ renderGap mid ++ colon :: (renderGap after ++ d.render ++ renderGap close ++
      comma :: rest.render)

end

section

-- equations, made here once and not by the first proofs that unfold these
attribute [local simp] Doc.render Elements.render Members.render

end

/-- A text: one value, with white space around it. -/
structure Text where
  before : Gap
  doc : Doc
  after : Gap

def Text.render (t : Text) : Bytes := renderGap t.before ++ t.doc.render ++ renderGap t.after

def Utf8Items (items : List Item) : Prop := ∀ r, .raw r ∈ items → r.Utf8

mutual

/-- Every string is written in UTF-8. -/
def Doc.Utf8 : Doc → Prop
  | .string s => Utf8Items s
  | .array elements => elements.Utf8
  | .object members => members.Utf8
  | _ => True

def Elements.Utf8 : Elements → Prop
  | .last _ d _ => d.Utf8
  | .cons _ d _ rest => d.Utf8 ∧ rest.Utf8

def Members.Utf8 : Members → Prop
  | .last _ key _ _ d _ => Utf8Items key ∧ d.Utf8
  | .cons _ key _ _ d _ rest => Utf8Items key ∧ d.Utf8 ∧ rest.Utf8

end

section

-- equations, made here once and not by the first proofs that unfold these
attribute [local simp] Doc.Utf8 Elements.Utf8 Members.Utf8

end

end documents

section values

variable {S T F : Type}

mutual

/-- A parsed value, over the strings and the numbers it holds. -/
inductive Value (S F : Type) where
  | null
  | bool (b : Bool)
  | number (x : F)
  | string (s : S)
  | array (elements : List (Value S F))
  | object (fields : List (Field S F))

inductive Field (S F : Type) where
  | mk (key : S) (value : Value S F)

end

namespace Field

def key : Field S F → S
  | mk key _ => key

def value : Field S F → Value S F
  | mk _ value => value

end Field

mutual

def Value.map (f : S → T) : Value S F → Value T F
  | .null => .null
  | .bool b => .bool b
  | .number x => .number x
  | .string s => .string (f s)
  | .array elements => .array (mapElements f elements)
  | .object fields => .object (mapFields f fields)

def mapElements (f : S → T) : List (Value S F) → List (Value T F)
  | [] => []
  | v :: vs => v.map f :: mapElements f vs

def mapFields (f : S → T) : List (Field S F) → List (Field T F)
  | [] => []
  | .mk key value :: fields => .mk (f key) (value.map f) :: mapFields f fields

end

section

-- equations, made here once and not by the first proofs that unfold these
attribute [local simp] Value.map mapElements mapFields

end

/-- The value with every string as its UTF-16 code units. -/
def Value.units (v : Value Bytes F) : Value (List Nat) F := v.map utf16

/-- Overwrite the field of that name in place, or append a new one. -/
def setField [DecidableEq S] (key : S) (value : Value S F) : List (Field S F) → List (Field S F)
  | [] => [.mk key value]
  | field :: fields => if field.key = key then .mk key value :: fields else field :: setField key value fields

end values

section meaning

variable {F : Type}

/-- Doubles, as far as texts need them: the double nearest to a magnitude, and its
negative. -/
structure Doubles (F : Type) where
  nearest : ℚ → F
  negate : F → F

def Doubles.signed (doubles : Doubles F) (negative : Bool) (x : ℚ) : F :=
  if negative then doubles.negate (doubles.nearest x) else doubles.nearest x

def digitsValue (ds : List Digit) : Nat := ds.foldl (fun acc d => acc * 10 + d.val) 0

def Exponent.value (e : Exponent) : Int :=
  if e.sign = some true then -(digitsValue e.digits : Int) else digitsValue e.digits

namespace Numeral

def power (n : Numeral) : Int :=
  match n.exponent with
  | none => 0
  | some e => e.value

def magnitude (n : Numeral) : ℚ :=
  (digitsValue (n.integer ++ n.decimals) : ℚ) * 10 ^ (n.power - n.decimals.length)

def value (doubles : Doubles F) (n : Numeral) : F := doubles.signed n.negative n.magnitude

end Numeral

variable (doubles : Doubles F) (decode : List Item → Bytes)

mutual

/-- The value of a text; a later field of the same name replaces the value of the
earlier one. -/
def Doc.value : Doc → Value Bytes F
  | .null => .null
  | .bool b => .bool b
  | .number n => .number (n.value doubles)
  | .string s => .string (decode s)
  | .emptyArray _ => .array []
  | .array elements => .array elements.values
  | .emptyObject _ => .object []
  | .object members => .object (members.fields [])

def Elements.values : Elements → List (Value Bytes F)
  | .last _ d _ => [d.value]
  | .cons _ d _ rest => d.value :: rest.values

def Members.fields (fields : List (Field Bytes F)) : Members → List (Field Bytes F)
  | .last _ key _ _ d _ => setField (decode key) d.value fields
  | .cons _ key _ _ d _ rest => rest.fields (setField (decode key) d.value fields)

end

section

-- equations, made here once and not by the first proofs that unfold these
attribute [local simp] Doc.value Elements.values Members.fields

end

end meaning

end Perry.Json
