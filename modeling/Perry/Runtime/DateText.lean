import Perry.Runtime.BigIntConvert
import Perry.Runtime.Date
import Perry.Words.Decimals

/-! The texts of time values and how texts are read as time values, in ASCII. The zone of the host is its offset
at an instant, in seconds. -/
namespace Perry.Runtime.Date

open Perry.Words
open Perry.Runtime.BigInt (isWhitespace trim)

def weekdayNames : List String := ["Sun","Mon","Tue","Wed","Thu","Fri","Sat"]

def monthNames : List String := ["Jan","Feb","Mar","Apr","May","Jun","Jul","Aug","Sep","Oct","Nov","Dec"]

def isoYear (year : Int) : List Char :=
  if 0 ≤ year ∧ year ≤ 9999 then padded 4 year.toNat
  else if year < 0 then '-' :: padded 6 (-year).toNat
  else '+' :: padded 6 year.toNat

def formatYear (year : Int) : List Char := if year < 0 then '-' :: padded 4 (-year).toNat else padded 4 year.toNat

/-- `{:02}:{:02}:{:02}` of a clock. -/
def clockText (fields : Components) : List Char :=
  padded 2 fields.hour ++ ':' :: (padded 2 fields.minute ++ ':' :: padded 2 fields.second)

def jsDateToIsoString : Option Int → List Char
  | none => "Invalid Date".toList
  | some ts =>
    let fields := timestampToComponents (ts / 1000)
    isoYear fields.year ++ '-' :: (padded 2 fields.month ++ '-' :: (padded 2 fields.day ++ 'T' ::
      (clockText fields ++ '.' :: (padded 3 (ts % 1000).toNat ++ ['Z']))))

def jsDateToUtcString : Option Int → List Char
  | none => "Invalid Date".toList
  | some ts =>
    let fields := timestampToComponents (ts / 1000)
    (weekdayNames.getD (weekdayFromTimestamp (ts / 1000)) "").toList ++ ',' :: ' ' :: (padded 2 fields.day ++ ' ' ::
      ((monthNames.getD (fields.month - 1) "").toList ++ ' ' :: (formatYear fields.year ++ ' ' :: (clockText fields ++ " GMT".toList))))

/-- `i64::MAX`, where there is no designator. -/
def absent : Int := 2 ^ 63 - 1

def splitOnce (c : Char) (text : List Char) : Option (List Char × List Char) :=
  if c ∈ text then some (text.takeWhile (· ≠ c),(text.dropWhile (· ≠ c)).tail) else none

def parseTzOffset (rest : List Char) : Option Int :=
  let rest := trim rest
  if rest = [] then some absent
  else if rest.map Char.toLower = ['z'] then some 0
  else if rest.head? = some '+' ∨ rest.head? = some '-' then
    let body := rest.tail
    ((splitOnce ':' body).or
      (if body.length = 4 then some (body.take 2,body.drop 2) else if body.length = 2 then some (body,['0']) else none)).bind fun (hh,mm) =>
        (parseSigned hh).bind fun h => (parseSigned mm).bind fun m =>
          if 23 < h ∨ 59 < m then none else some ((if rest.head? = some '+' then 1 else -1) * (h * 60 + m))
  else none

def zoneNames : List (List Char × Int) :=
  [("ut".toList,0),("utc".toList,0),("gmt".toList,0),("z".toList,0),("edt".toList,-240),("est".toList,-300),("cdt".toList,-300),
    ("cst".toList,-360),("mdt".toList,-360),("mst".toList,-420),("pdt".toList,-420),("pst".toList,-480)]

/-- Whether a text starts with a sign. -/
def signed (text : List Char) : Bool := text.head? = some '+' || text.head? = some '-'

def namedTzOffset (token : List Char) : Option Int :=
  let lower := token.map Char.toLower
  (zoneNames.lookup lower).or
    ((["utc","gmt","ut","z"].find? fun name =>
        name.toList.isPrefixOf lower && decide (name.length < lower.length) && signed (token.drop name.length)).bind fun name =>
      (parseTzOffset (token.drop name.length)).filter (· ≠ absent))

structure ParsedClock where
  hour : Int
  minute : Int
  second : Int
  millis : Int
  attachedTz : Option Int

def parseClockDigits (least most : Nat) (rest : List Char) : Option (Int × List Char) :=
  let digits := (rest.take most).takeWhile Char.isDigit
  if digits.length < least then none else (parseSigned digits).map fun n => (n,rest.drop digits.length)

def normalizeMillis (digits : List Char) : Nat :=
  (digits.take 3).zipIdx.foldl (fun ms entry => ms + (entry.1.toNat - 48) * 10 ^ (2 - entry.2)) 0

/-- The seconds of a clock and their fraction, which may be missing. -/
def parseClockSeconds (strictIso : Bool) (fieldMin : Nat) (rest : List Char) : Option (Int × Int × List Char) :=
  if rest.head? = some ':' then
    (if rest.tail.head?.any Char.isDigit then parseClockDigits fieldMin 2 rest.tail
      else if strictIso ∨ rest.tail ≠ [] then none
      else some (0,rest.tail)).bind fun (second,rest) =>
        if rest.head? = some '.' then
          let fraction := rest.tail.takeWhile Char.isDigit
          if fraction = [] then none else some (second,normalizeMillis fraction,rest.tail.drop fraction.length)
        else some (second,0,rest)
  else some (0,0,rest)

def parseClockToken (token : List Char) (strictIso : Bool) : Option ParsedClock :=
  let fieldMin := if strictIso then 2 else 1
  (parseClockDigits fieldMin 2 token).bind fun (hour,rest) =>
    if rest.head? ≠ some ':' then none
    else
      (parseClockDigits fieldMin 2 rest.tail).bind fun (minute,rest) =>
        (parseClockSeconds strictIso fieldMin rest).bind fun (second,millis,rest) =>
          if 59 < minute ∨ 59 < second then none
          else if 24 < hour ∨ hour = 24 ∧ (minute ≠ 0 ∨ second ≠ 0 ∨ millis ≠ 0) then none
          else if rest = [] then some ⟨hour,minute,second,millis,none⟩
          else if rest.map Char.toLower = ['z'] ∨ signed rest then
            ((parseTzOffset rest).filter (· ≠ absent)).map fun offset => ⟨hour,minute,second,millis,some offset⟩
          else none

/-- `str::split_whitespace`. -/
def splitWhitespace (text : List Char) : List (List Char) := (text.splitOnP isWhitespace).filter (· ≠ [])

structure LegacyTail where
  clock : Option ParsedClock
  /-- Whether it is the afternoon. -/
  meridiem : Option Bool
  tzMinutesEast : Option Int
  inComment : Bool

def legacyToken (tail : LegacyTail) (token : List Char) : Option LegacyTail :=
  let lower := token.map Char.toLower
  if tail.inComment then some (if token.getLast? = some ')' then { tail with inComment := false } else tail)
  else if token.head? = some '(' then
    if token.getLast? = some ')' then some tail else if ')' ∈ token then none else some { tail with inComment := true }
  else if '(' ∈ token ∨ ')' ∈ token then none
  else if lower = "am".toList ∨ lower = "pm".toList then some { tail with meridiem := some (lower = "pm".toList) }
  else
    match namedTzOffset token with
    | some offset => some { tail with tzMinutesEast := some offset }
    | none =>
      if signed token ∧ tail.clock.isSome then
        (parseTzOffset token).bind fun offset => if offset = absent then none else some { tail with tzMinutesEast := some offset }
      else
        (parseClockToken token false).bind fun parsed =>
          if tail.clock.isSome then none else some { tail with clock := some parsed,tzMinutesEast := parsed.attachedTz.or tail.tzMinutesEast }

def twelveHours (isPm : Bool) (hour : Int) : Int :=
  if isPm then if hour = 12 then 12 else hour + 12 else if hour = 12 then 0 else hour

def parseLegacyIsoTail (text : List Char) : Option (Option ParsedClock × Option Int) :=
  ((splitWhitespace text).foldlM legacyToken ⟨none,none,none,false⟩).bind fun tail =>
    if tail.inComment then none
    else
      match tail.meridiem with
      | none => some (tail.clock,tail.tzMinutesEast)
      | some isPm => tail.clock.bind fun parsed =>
        if 12 < parsed.hour then none else some (some { parsed with hour := twelveHours isPm parsed.hour },tail.tzMinutesEast)

def localWallClockToUtc (tzOffset : Int → Int) (base : Int) : Int := base - tzOffset (base / 1000) * 1000

def parseIsoYear (s : List Char) : Option (Int × List Char) :=
  if signed s then
    if s.length < 7 ∨ ¬((s.drop 1).take 6).all Char.isDigit then none
    else (parseSigned ((s.drop 1).take 6)).bind fun mag =>
      if s.head? = some '-' then if mag = 0 then none else some (-mag,s.drop 7) else some (mag,s.drop 7)
  else if s.length < 4 ∨ ¬(s.take 4).all Char.isDigit then none
  else (parseSigned (s.take 4)).map fun year => (year,s.drop 4)

def parseIsoMonth (rest : List Char) : Option (Nat × Int × List Char) :=
  if rest.head? = some '-' then
    if rest.length < 3 then none
    else (parseUnsigned (2 ^ 32) ((rest.drop 1).take 2)).bind fun month1 =>
      if month1 < 1 ∨ 12 < month1 then none
      else if (rest.drop 3).head? = some '-' then
        if (rest.drop 3).length < 3 then none
        else (parseSigned (((rest.drop 3).drop 1).take 2)).bind fun day =>
          if day < 1 ∨ 31 < day then none else some (month1,day,(rest.drop 3).drop 3)
      else some (month1,1,rest.drop 3)
  else some (1,1,rest)

/-- The time and the zone behind the date. -/
def parseIsoTail (rest : List Char) : Option (Option ParsedClock × Option Int) :=
  match rest with
  | [] => some (none,none)
  | c :: more =>
    if c = 'T' then (parseClockToken more true).map fun parsed => (some parsed,parsed.attachedTz)
    else if c ∈ [' ','\t','\n','\r',Char.ofNat 12] ∨ c.isAlpha then parseLegacyIsoTail rest
    else none

def parseIso8601 (tzOffset : Int → Int) (s : List Char) : Option Int :=
  (parseIsoYear s).bind fun (year,rest) =>
    (parseIsoMonth rest).bind fun (month1,day,rest) =>
      (parseIsoTail rest).map fun (clock,tzMinutesEast) =>
        let parsed := clock.getD ⟨0,0,0,0,none⟩
        let base := makeUtcMs year (month1 - 1) day parsed.hour parsed.minute parsed.second parsed.millis
        match tzMinutesEast with
        | some off => base - off * 60000
        | none => if clock.isSome then localWallClockToUtc tzOffset base else base

def fullMonths : List (List Char) :=
  ["january".toList,"february".toList,"march".toList,"april".toList,"may".toList,"june".toList,"july".toList,"august".toList,
    "september".toList,"october".toList,"november".toList,"december".toList]

def monthFromName (tok : List Char) : Option Nat :=
  let t := ((tok.reverse.dropWhile (· = ',')).reverse).map Char.toLower
  if t.length < 3 then none
  else (fullMonths.findIdx? fun name => (t.take 3).isPrefixOf name && decide (t.length ≤ name.length) && t.isPrefixOf name).map (· + 1)

/-- Whether a token is, or starts like, the name of a weekday. -/
def weekdayLike (tok : List Char) : Bool :=
  ["sun","mon","tue","wed","thu","fri","sat"].any fun day => day.toList.isPrefixOf (tok.map Char.toLower)

structure NamedDate where
  year : Option Int
  month : Option Nat
  day : Option Int
  hour : Int
  minute : Int
  second : Int
  tzMinutesEast : Option Int

/-- The day or the year that a number stands for. -/
def numberToken (date : NamedDate) (tok : List Char) : NamedDate :=
  match parseSigned tok with
  | none => date
  | some n =>
    if 4 ≤ (tok.dropWhile fun c => c = '+' ∨ c = '-').length ∧ date.year = none then { date with year := some n }
    else if date.day = none ∧ 1 ≤ n ∧ n ≤ 31 then { date with day := some n }
    else if date.year = none then { date with year := some n }
    else date

def namedToken (date : NamedDate) (tok : List Char) : Option NamedDate :=
  let low := tok.map Char.toLower
  if weekdayLike tok ∧ monthFromName tok = none ∧ ¬tok.head?.any Char.isDigit then some date
  else if let some m := monthFromName tok then some { date with month := some m }
  else if ':' ∈ tok then
    let parts := tok.splitOn ':'
    (parseSigned (parts.getD 0 [])).bind fun hour => (parseSigned (parts.getD 1 [])).map fun minute =>
      { date with hour := hour,minute := minute,second := if 3 ≤ parts.length then (parseSigned (parts.getD 2 [])).getD 0 else date.second }
  else if low = "gmt".toList ∨ low = "utc".toList ∨ low = "z".toList then some { date with tzMinutesEast := some 0 }
  else if "GMT".toList.isPrefixOf tok ∨ "UTC".toList.isPrefixOf tok then
    some { date with tzMinutesEast := ((parseTzOffset (tok.drop 3)).filter (· ≠ absent)).or date.tzMinutesEast }
  else if signed tok ∧ 3 ≤ tok.length ∧ ((parseTzOffset tok).filter (· ≠ absent)).isSome then
    some { date with tzMinutesEast := parseTzOffset tok }
  else some (numberToken date tok)

def parseRfcOrNamed (tzOffset : Int → Int) (s : List Char) : Option Int :=
  ((splitWhitespace (s.map fun c => if c = ',' then ' ' else c)).foldlM namedToken ⟨none,none,none,0,0,0,none⟩).bind fun date =>
    date.year.bind fun y => date.month.map fun m : Nat =>
      let base := makeUtcMs y (m - 1) (date.day.getD 1) date.hour date.minute date.second 0
      match date.tzMinutesEast with
      | some off => base - off * 60000
      | none => localWallClockToUtc tzOffset base

structure SlashDate where
  comps : List Int
  namedMonth : Option Int
  hour : Int
  minute : Int
  second : Int
  millis : Int
  sawTime : Bool
  pm : Option Bool
  tzMinutesEast : Option Int

/-- The clock of a date with slashes, with its seconds and their fraction if it has any. -/
def slashClock (date : SlashDate) (tok : List Char) : Option SlashDate :=
  let parts := tok.splitOn ':'
  if date.sawTime ∨ parts.length < 2 ∨ 3 < parts.length then none
  else
    (parseSigned (parts.getD 0 [])).bind fun hour => (parseSigned (parts.getD 1 [])).bind fun minute =>
      let timed := { date with hour := hour,minute := minute,sawTime := true }
      if parts.length = 3 then
        match splitOnce '.' (parts.getD 2 []) with
        | none => (parseSigned (parts.getD 2 [])).map fun second => { timed with second := second }
        | some (whole,frac) => (parseSigned whole).bind fun second =>
          if frac = [] ∨ ¬frac.all Char.isDigit then none else some { timed with second := second,millis := normalizeMillis frac }
      else some timed

def slashToken (date : SlashDate) (tok : List Char) : Option SlashDate :=
  let low := tok.map Char.toLower
  let digits := tok.dropWhile fun c => c = '+' ∨ c = '-'
  if tok.head? = some '(' then some date
  else if weekdayLike tok ∧ monthFromName tok = none then some date
  else if let some m := monthFromName tok then if date.namedMonth.isSome then none else some { date with namedMonth := some m }
  else if ':' ∈ tok then slashClock date tok
  else if low = "am".toList ∨ low = "a.m.".toList then some { date with pm := some false }
  else if low = "pm".toList ∨ low = "p.m.".toList then some { date with pm := some true }
  else if low = "gmt".toList ∨ low = "utc".toList ∨ low = "ut".toList ∨ low = "z".toList then some { date with tzMinutesEast := some 0 }
  else if "gmt".toList.isPrefixOf low ∨ "utc".toList.isPrefixOf low then
    (parseTzOffset (tok.drop 3)).map fun off => if off = absent then date else { date with tzMinutesEast := some off }
  else if date.sawTime ∧ signed tok ∧ 3 ≤ tok.length then
    (parseTzOffset tok).map fun off => if off = absent then date else { date with tzMinutesEast := some off }
  else if digits ≠ [] ∧ digits.all Char.isDigit then
    if date.comps.length = 3 then none else (parseSigned digits).map fun n => { date with comps := date.comps ++ [n] }
  else none

/-- Year, month and day. The first number is the year if it cannot be a day. -/
def slashFields (comps : List Int) (namedMonth : Option Int) : Int × Int × Int :=
  let first := comps.getD 0 1
  let second := comps.getD 1 1
  let third := comps.getD 2 1
  let isDay := 1 ≤ first ∧ first ≤ 31
  match namedMonth with
  | none => if isDay then (third,first,second) else (first,second,third)
  | some m => if isDay then (second,m,first) else (first,m,second)

def parseSlashDate (tzOffset : Int → Int) (s : List Char) : Option Int :=
  if '/' ∉ s then none
  else
    ((splitWhitespace (s.map fun c => if c = ',' ∨ c = '/' then ' ' else c)).foldlM slashToken
      ⟨[],none,0,0,0,0,false,none,none⟩).bind fun date =>
        let (year,month,day) := slashFields date.comps date.namedMonth
        let year := if 0 ≤ year ∧ year ≤ 49 then year + 2000 else if 50 ≤ year ∧ year ≤ 99 then year + 1900 else year
        if date.comps = [] then none
        else if month < 1 ∨ 12 < month ∨ day < 1 ∨ 31 < day then none
        else if date.pm.isSome ∧ (date.hour < 1 ∨ 12 < date.hour) then none
        else if date.pm = none ∧ (24 < date.hour ∨ date.hour = 24 ∧ (date.minute ≠ 0 ∨ date.second ≠ 0 ∨ date.millis ≠ 0)) then none
        else if 59 < date.minute ∨ 59 < date.second then none
        else
          let hour := date.pm.elim date.hour fun isPm => twelveHours isPm date.hour
          let base := makeUtcMs year (month - 1) day hour date.minute date.second date.millis
          match date.tzMinutesEast with
          | some off => some (base - off * 60000)
          | none => some (localWallClockToUtc tzOffset base)

/-- The time value of a text, none for `NaN`. -/
def parseDateString (tzOffset : Int → Int) (s : List Char) : Option Int :=
  let s := trim s
  if s = [] then none
  else
    ((parseIso8601 tzOffset s).or ((parseRfcOrNamed tzOffset s).or (parseSlashDate tzOffset s))).bind timeClip

end Perry.Runtime.Date
