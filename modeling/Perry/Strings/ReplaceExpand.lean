import Perry.Strings.RegexSplit
import Perry.Strings.Substitution

/-! The expanders of a replacement template. Two read the captures of a Rust engine, one those of the backtracking
engine, and one runs over a subject of code units. -/
namespace Perry.Strings.ReplaceExpand
open Unicode Substitution

abbrev Range := Nat × Nat

section captures

/-- `Captures` of `regex` and of `fancy_regex`, group zero in front. -/
structure Captures where
  spans : List (Option Range)
  names : List (Option (List UInt8))

namespace Captures

def len (caps : Captures) : Nat := caps.spans.length

def get (caps : Captures) (g : Nat) : Option Range := caps.spans.getD g none

def name (caps : Captures) (name : List UInt8) : Option Range := (caps.names.idxOf? (some name)).bind caps.get

end Captures

/-- `regress::Match`; a group without a name has the empty one. -/
structure Match where
  range : Range
  captures : List (Option Range)
  groupNames : List (List UInt8)

namespace Match

def group (matched : Match) (idx : Nat) : Option Range :=
  if idx = 0 then some matched.range else matched.captures.getD (idx - 1) none

def namedGroup (matched : Match) (name : List UInt8) : Option Range :=
  if name = [] then none else (matched.groupNames.idxOf? name).bind fun pos => matched.captures.getD pos none

end Match

end captures

section expanders

/-- The group of a reference by number, and how many digits it takes. -/
def numberedGroup (groupCount d1 : Nat) (next : Option UInt8) : Option (Nat × Nat) :=
  match next.filter fun b => isDigit b.toNat with
  | some d2 =>
    let two := d1 * 10 + digit d2.toNat
    if 1 ≤ two ∧ two < groupCount then some (two,2) else if 1 ≤ d1 ∧ d1 < groupCount then some (d1,1) else none
  | none => if 1 ≤ d1 ∧ d1 < groupCount then some (d1,1) else none

/-- `str::find` of an ASCII character, as what is in front of it and what is behind. -/
def splitAtByte (c : Char) (text : List UInt8) : Option (List UInt8 × List UInt8) :=
  if text.any (·.toNat = c.toNat) then
    some (text.takeWhile (·.toNat ≠ c.toNat),(text.dropWhile (·.toNat ≠ c.toNat)).tail)
  else none

theorem length_splitAtByte {c : Char} {text name rest : List UInt8} (split : splitAtByte c text = some (name,rest)) :
    rest.length ≤ text.length := by
  unfold splitAtByte at split
  split_ifs at split
  obtain ⟨-,rfl⟩ := Prod.mk.injEq .. ▸ Option.some.inj split
  exact ((List.tail_suffix _).trans (List.dropWhile_suffix _)).length_le

/-- What the three expanders over UTF-8 ask of a match. -/
structure Groups where
  count : Nat
  full : Range
  get : Nat → Option Range
  name : List UInt8 → Option Range

def textOf (subject : List UInt8) (range : Option Range) : List UInt8 := (range.map fun range => slice subject range.1 range.2).getD []

/-- The loop over the template, which copies a run without a dollar in one go. -/
def expandFrom (groups : Groups) (subject : List UInt8) (hasNamedGroups : Bool) : List UInt8 → List UInt8
  | [] => []
  | b :: rest =>
    if b.toNat ≠ '$'.toNat then
      b :: (rest.takeWhile (·.toNat ≠ '$'.toNat) ++
        expandFrom groups subject hasNamedGroups (rest.dropWhile (·.toNat ≠ '$'.toNat)))
    else match rest with
      | [] => [b]
      | e :: more =>
        if e.toNat = '$'.toNat then b :: expandFrom groups subject hasNamedGroups more
        else if e.toNat = '&'.toNat then
          slice subject groups.full.1 groups.full.2 ++ expandFrom groups subject hasNamedGroups more
        else if e.toNat = '`'.toNat then slice subject 0 groups.full.1 ++ expandFrom groups subject hasNamedGroups more
        else if e.toNat = '\''.toNat then
          slice subject groups.full.2 subject.length ++ expandFrom groups subject hasNamedGroups more
        else if isDigit e.toNat then
          match numberedGroup groups.count (digit e.toNat) more.head? with
          | some (g,consumed) =>
            textOf subject (groups.get g) ++ expandFrom groups subject hasNamedGroups ((e :: more).drop consumed)
          | none => b :: expandFrom groups subject hasNamedGroups (e :: more)
        else if e.toNat = '<'.toNat ∧ hasNamedGroups = true then
          match _found : splitAtByte '>' more with
          | some (name,others) => textOf subject (groups.name name) ++ expandFrom groups subject hasNamedGroups others
          | none => b :: expandFrom groups subject hasNamedGroups (e :: more)
        else b :: expandFrom groups subject hasNamedGroups (e :: more)
termination_by template => template.length
decreasing_by
  all_goals simp only [List.length_cons,List.length_drop]
  · exact Nat.lt_succ_of_le (List.dropWhile_suffix _).length_le
  all_goals try omega
  have shorter := length_splitAtByte _found
  omega

def expandJsReplacement (repl : List UInt8) (caps : Captures) (subject : List UInt8) (hasNamedGroups : Bool) : List UInt8 :=
  match caps.get 0 with
  | none => []
  | some m0 => expandFrom ⟨caps.len,m0,caps.get,caps.name⟩ subject hasNamedGroups repl

def expandJsReplacementFancy (repl : List UInt8) (caps : Captures) (subject : List UInt8) (hasNamedGroups : Bool) : List UInt8 :=
  match caps.get 0 with
  | none => []
  | some m0 => expandFrom ⟨caps.len,m0,caps.get,caps.name⟩ subject hasNamedGroups repl

/-- A compiled matcher knows the names of its captures. -/
structure RepeatMatcherRegex where
  captureNames : List (Option (List UInt8))

def RepeatMatcherRegex.namedGroupRange (re : RepeatMatcherRegex) (matched : Match) (name : List UInt8) : Option Range :=
  (re.captureNames.idxOf? (some name)).bind fun index => matched.group (index + 1)

def RepeatMatcherRegex.expandReplacement (re : RepeatMatcherRegex) (replacement : List UInt8) (matched : Match) (subject : List UInt8) :
    List UInt8 :=
  expandFrom ⟨matched.captures.length + 1,matched.range,matched.group,re.namedGroupRange matched⟩ subject
    (re.captureNames.any Option.isSome) replacement

def appendWtf8Unit (unit : Nat) : List UInt8 :=
  if isScalar unit then encodeUtf8 unit
  else [.ofNat (0xE0 + unit / 4096),.ofNat (0x80 + unit / 64 % 64),.ofNat (0x80 + unit % 64)]

def appendUnitRange (units : List Nat) (range : Range) : List UInt8 :=
  ((units.drop range.1).take (range.2 - range.1)).flatMap appendWtf8Unit

def appendGroup (units : List Nat) (range : Option Range) : List UInt8 := (range.map (appendUnitRange units)).getD []

/-- `str::from_utf8(..).unwrap_or_default()` -/
def nameOrDefault (bytes : List UInt8) : List UInt8 := if (fromUtf8 bytes).isSome then bytes else []

/-- The loop over the bytes of the template, which copies them one by one. -/
def appendFrom (units : List Nat) (matched : Match) (hasNamedGroups : Bool) : List UInt8 → List UInt8
  | [] => []
  | [b] => [b]
  | b :: e :: more =>
    if b.toNat ≠ '$'.toNat then b :: appendFrom units matched hasNamedGroups (e :: more)
    else if e.toNat = '$'.toNat then b :: appendFrom units matched hasNamedGroups more
    else if e.toNat = '&'.toNat then appendUnitRange units matched.range ++ appendFrom units matched hasNamedGroups more
    else if e.toNat = '`'.toNat then appendUnitRange units (0,matched.range.1) ++ appendFrom units matched hasNamedGroups more
    else if e.toNat = '\''.toNat then
      appendUnitRange units (matched.range.2,units.length) ++ appendFrom units matched hasNamedGroups more
    else if isDigit e.toNat then
      match numberedGroup (matched.captures.length + 1) (digit e.toNat) more.head? with
      | some (g,consumed) => appendGroup units (matched.group g) ++ appendFrom units matched hasNamedGroups ((e :: more).drop consumed)
      | none => b :: appendFrom units matched hasNamedGroups (e :: more)
    else if e.toNat = '<'.toNat ∧ hasNamedGroups = true then
      match _found : splitAtByte '>' more with
      | some (name,others) =>
        appendGroup units (matched.namedGroup (nameOrDefault name)) ++ appendFrom units matched hasNamedGroups others
      | none => b :: appendFrom units matched hasNamedGroups (e :: more)
    else b :: appendFrom units matched hasNamedGroups (e :: more)
termination_by template => template.length
decreasing_by
  all_goals simp only [List.length_cons,List.length_drop]
  all_goals try omega
  have shorter := length_splitAtByte _found
  omega

def appendReplacement (replacement : List UInt8) (units : List Nat) (matched : Match) : List UInt8 :=
  appendFrom units matched (matched.groupNames.any (· ≠ [])) replacement

end expanders

section references

variable {s : Source UInt8} {d e : UInt8} {more : List UInt8} {count : Nat}

/-- The captures of a source are the texts of the groups but the first. -/
structure Numbers (s : Source UInt8) (count : Nat) (text : Nat → List UInt8) : Prop where
  length : count = s.captures.length + 1
  texts : ∀ g,1 ≤ g → g < count → (s.captures.getD (g - 1) none).getD [] = text g

theorem capture_inside {text : Nat → List UInt8} (numbers : Numbers s count text) (ref : List UInt8) {g : Nat} (inside : 1 ≤ g ∧ g < count) :
    capture s ref g = text g := by
  have length := numbers.length
  rw [capture,if_pos ⟨inside.1,by omega⟩,numbers.texts g inside.1 inside.2]

theorem capture_outside {text : Nat → List UInt8} (numbers : Numbers s count text) (ref : List UInt8) {g : Nat} (outside : ¬ (1 ≤ g ∧ g < count)) :
    capture s ref g = ref := by
  have length := numbers.length
  rw [capture,if_neg]
  omega

theorem digit_ne {n m : Nat} (digit : isDigit n = true) (other : isDigit m = false) : n ≠ m := by
  rintro rfl
  rw [digit] at other
  cases other

theorem digit_ne_dollar {n : Nat} (digit : isDigit n = true) : n ≠ '$'.toNat := digit_ne digit (by decide)

/-- A reference by number, with the group that the expanders find. -/
theorem substitute_numbered {text : Nat → List UInt8} (numbers : Numbers s count text) (dollar : d.toNat = '$'.toNat)
    (digits : isDigit e.toNat = true) :
    substitute UInt8.toNat s (d :: e :: more) =
      match numberedGroup count (digit e.toNat) more.head? with
      | some (g,consumed) => text g ++ substitute UInt8.toNat s ((e :: more).drop consumed)
      | none => d :: substitute UInt8.toNat s (e :: more) := by
  have one (others : List UInt8) : (capture s [d,e] (digit e.toNat),others).1 ++ substitute UInt8.toNat s (capture s [d,e] (digit e.toNat),others).2 =
      match (if 1 ≤ digit e.toNat ∧ digit e.toNat < count then some (digit e.toNat,1) else none : Option (Nat × Nat)) with
      | some (g,consumed) => text g ++ substitute UInt8.toNat s ((e :: others).drop consumed)
      | none => d :: substitute UInt8.toNat s (e :: others) := by
    split_ifs with inside
    · rw [capture_inside numbers _ inside]
      rfl
    · rw [capture_outside numbers _ inside,substitute_literal (digit_ne_dollar digits)]
      rfl
  rw [substitute_dollar dollar,reference,if_neg (digit_ne_dollar digits),if_neg (digit_ne digits (by decide)),
    if_neg (digit_ne digits (by decide)),if_neg (digit_ne digits (by decide)),if_pos digits]
  cases more with
  | nil => exact one []
  | cons f more =>
    rw [numbered,List.head?_cons,numberedGroup]
    by_cases second : isDigit f.toNat = true
    · have length := numbers.length
      rw [Option.filter_some,if_pos second]
      by_cases inside : 1 ≤ digit e.toNat * 10 + digit f.toNat ∧ digit e.toNat * 10 + digit f.toNat < count
      · rw [if_pos ⟨second,by omega⟩,capture_inside numbers _ inside]
        simp only [if_pos inside]
        rfl
      · simp only [if_neg inside]
        by_cases zero : digit e.toNat * 10 + digit f.toNat ≤ s.captures.length
        · have none : ¬ (1 ≤ digit e.toNat ∧ digit e.toNat < count) := by omega
          rw [if_pos ⟨second,zero⟩,capture_outside numbers _ inside,if_neg none,substitute_literal (digit_ne_dollar digits),
            substitute_literal (digit_ne_dollar second)]
          rfl
        · rw [if_neg fun both => zero both.2]
          exact one (f :: more)
    · rw [Option.filter_some,if_neg second,if_neg fun both => second both.1]
      exact one (f :: more)

theorem substitute_double (dollar : d.toNat = '$'.toNat) (double : e.toNat = '$'.toNat) :
    substitute UInt8.toNat s (d :: e :: more) = d :: substitute UInt8.toNat s more := by
  rw [substitute_dollar dollar,reference,if_pos double,List.singleton_append]

theorem substitute_matched (dollar : d.toNat = '$'.toNat) (whole : e.toNat = '&'.toNat) :
    substitute UInt8.toNat s (d :: e :: more) = s.matched ++ substitute UInt8.toNat s more := by
  rw [substitute_dollar dollar,reference,if_neg (by rw [whole]; decide),if_neg (by rw [whole]; decide),if_pos whole]

theorem substitute_before (dollar : d.toNat = '$'.toNat) (front : e.toNat = '`'.toNat) :
    substitute UInt8.toNat s (d :: e :: more) = s.before ++ substitute UInt8.toNat s more := by
  rw [substitute_dollar dollar,reference,if_neg (by rw [front]; decide),if_pos front]

theorem substitute_after (dollar : d.toNat = '$'.toNat) (back : e.toNat = '\''.toNat) :
    substitute UInt8.toNat s (d :: e :: more) = s.after ++ substitute UInt8.toNat s more := by
  rw [substitute_dollar dollar,reference,if_neg (by rw [back]; decide),if_neg (by rw [back]; decide),if_neg (by rw [back]; decide),
    if_pos back]

theorem substitute_angle (dollar : d.toNat = '$'.toNat) (angle : e.toNat = '<'.toNat) :
    substitute UInt8.toNat s (d :: e :: more) =
      match s.namedCaptures,splitAtByte '>' more with
      | some get,some (name,others) => (get name).getD [] ++ substitute UInt8.toNat s others
      | _,_ => d :: substitute UInt8.toNat s (e :: more) := by
  have literal : [d,e] ++ substitute UInt8.toNat s more = d :: substitute UInt8.toNat s (e :: more) := by
    rw [substitute_literal (d := e) (by rw [angle]; decide)]
    rfl
  rw [substitute_dollar dollar,reference,if_neg (by rw [angle]; decide),if_neg (by rw [angle]; decide),if_neg (by rw [angle]; decide),
    if_neg (by rw [angle]; decide),if_neg (by rw [angle]; decide),if_pos angle,named,splitAtByte]
  cases s.namedCaptures with
  | none => exact literal
  | some get =>
    split_ifs with closed
    · rfl
    · exact literal

/-- A dollar that introduces nothing. -/
theorem substitute_stray (dollar : d.toNat = '$'.toNat) (double : e.toNat ≠ '$'.toNat) (whole : e.toNat ≠ '&'.toNat)
    (front : e.toNat ≠ '`'.toNat) (back : e.toNat ≠ '\''.toNat) (digits : ¬ isDigit e.toNat = true)
    (angle : ¬ (e.toNat = '<'.toNat ∧ s.namedCaptures.isSome = true)) :
    substitute UInt8.toNat s (d :: e :: more) = d :: substitute UInt8.toNat s (e :: more) := by
  by_cases opens : e.toNat = '<'.toNat
  · have unnamed : s.namedCaptures = none := by
      rw [← Option.not_isSome_iff_eq_none]
      exact fun named => angle ⟨opens,named⟩
    rw [substitute_angle dollar opens,unnamed]
  · rw [substitute_dollar dollar,reference,if_neg double,if_neg front,if_neg whole,if_neg back,if_neg digits,if_neg opens,
      List.singleton_append]

end references

section sources

def Groups.source (groups : Groups) (subject : List UInt8) (hasNamedGroups : Bool) : Source UInt8 where
  before := slice subject 0 groups.full.1
  matched := slice subject groups.full.1 groups.full.2
  after := slice subject groups.full.2 subject.length
  captures := (List.range (groups.count - 1)).map fun g => (groups.get (g + 1)).map fun range => slice subject range.1 range.2
  namedCaptures := if hasNamedGroups then some fun name => (groups.name name).map fun range => slice subject range.1 range.2 else none

def Match.source (matched : Match) (units : List Nat) (hasNamedGroups : Bool) : Source UInt8 where
  before := appendUnitRange units (0,matched.range.1)
  matched := appendUnitRange units matched.range
  after := appendUnitRange units (matched.range.2,units.length)
  captures := (List.range matched.captures.length).map fun g => (matched.group (g + 1)).map (appendUnitRange units)
  namedCaptures := if hasNamedGroups then
    some fun name => (matched.namedGroup (nameOrDefault name)).map (appendUnitRange units) else none

theorem numbers_range {s : Source UInt8} {n : Nat} {text : Nat → Option (List UInt8)}
    (captures : s.captures = (List.range n).map fun g => text (g + 1)) : Numbers s (n + 1) fun g => (text g).getD [] where
  length := by rw [captures,List.length_map,List.length_range]
  texts g some inside := by
    rw [captures,List.getD_eq_getElem?_getD,List.getElem?_map,List.getElem?_range (by omega),Option.map_some,Nat.sub_add_cancel some]
    rfl

variable {units : List Nat} {matched : Match} {groups : Groups} {subject : List UInt8} {hasNamedGroups : Bool}

theorem expandFrom_eq (counted : 0 < groups.count) (template : List UInt8) : expandFrom groups subject hasNamedGroups template =
    substitute UInt8.toNat (groups.source subject hasNamedGroups) template := by
  have numbers : Numbers (groups.source subject hasNamedGroups) groups.count fun g => textOf subject (groups.get g) := by
    have all := @numbers_range (groups.source subject hasNamedGroups) (groups.count - 1)
      (fun g => (groups.get g).map fun range => slice subject range.1 range.2) rfl
    rwa [Nat.sub_add_cancel counted] at all
  fun_induction expandFrom groups subject hasNamedGroups template with
  | case1 => rw [substitute_nil]
  | case2 b rest other ih =>
    rw [ih,substitute_literal other,← substitute_literals,List.takeWhile_append_dropWhile]
    exact fun c member => by simpa using List.mem_takeWhile_imp member
  | case3 b dollar => rw [substitute_dollar (not_not.mp dollar),reference,substitute_nil,List.append_nil]
  | case4 b dollar e more double ih => rw [substitute_double (not_not.mp dollar) double,ih]
  | case5 b dollar e more _ whole ih => rw [substitute_matched (not_not.mp dollar) whole,ih]; rfl
  | case6 b dollar e more _ _ front ih => rw [substitute_before (not_not.mp dollar) front,ih]; rfl
  | case7 b dollar e more _ _ _ back ih => rw [substitute_after (not_not.mp dollar) back,ih]; rfl
  | case8 b dollar e more _ _ _ _ digits g consumed found ih => rw [substitute_numbered numbers (not_not.mp dollar) digits,found,ih]
  | case9 b dollar e more _ _ _ _ digits none ih => rw [substitute_numbered numbers (not_not.mp dollar) digits,none,ih]
  | case10 b dollar e more _ _ _ _ _ angle name others found ih =>
    rw [substitute_angle (not_not.mp dollar) angle.1,found,ih,Groups.source,if_pos angle.2]
    rfl
  | case11 b dollar e more _ _ _ _ _ angle none ih =>
    rw [substitute_angle (not_not.mp dollar) angle.1,none,ih]
    cases (groups.source subject hasNamedGroups).namedCaptures <;> rfl
  | case12 b dollar e more double whole front back digits other ih =>
    rw [substitute_stray (not_not.mp dollar) double whole front back digits,ih]
    rintro ⟨angle,named⟩
    refine other ⟨angle,?_⟩
    cases hasNamedGroups with
    | true => rfl
    | false => cases named

theorem appendFrom_eq (template : List UInt8) : appendFrom units matched hasNamedGroups template =
    substitute UInt8.toNat (matched.source units hasNamedGroups) template := by
  have numbers : Numbers (matched.source units hasNamedGroups) (matched.captures.length + 1) fun g => appendGroup units (matched.group g) :=
    @numbers_range (matched.source units hasNamedGroups) matched.captures.length (fun g => (matched.group g).map (appendUnitRange units)) rfl
  fun_induction appendFrom units matched hasNamedGroups template with
  | case1 => rw [substitute_nil]
  | case2 b =>
    by_cases dollar : b.toNat = '$'.toNat
    · rw [substitute_dollar dollar,reference,substitute_nil,List.append_nil]
    · rw [substitute_literal dollar,substitute_nil]
  | case3 b e more other ih => rw [substitute_literal other,ih]
  | case4 b e more dollar double ih => rw [substitute_double (not_not.mp dollar) double,ih]
  | case5 b e more dollar _ whole ih => rw [substitute_matched (not_not.mp dollar) whole,ih]; rfl
  | case6 b e more dollar _ _ front ih => rw [substitute_before (not_not.mp dollar) front,ih]; rfl
  | case7 b e more dollar _ _ _ back ih => rw [substitute_after (not_not.mp dollar) back,ih]; rfl
  | case8 b e more dollar _ _ _ _ digits g consumed found ih => rw [substitute_numbered numbers (not_not.mp dollar) digits,found,ih]
  | case9 b e more dollar _ _ _ _ digits none ih => rw [substitute_numbered numbers (not_not.mp dollar) digits,none,ih]
  | case10 b e more dollar _ _ _ _ _ angle name others found ih =>
    rw [substitute_angle (not_not.mp dollar) angle.1,found,ih,Match.source,if_pos angle.2]
    rfl
  | case11 b e more dollar _ _ _ _ _ angle none ih =>
    rw [substitute_angle (not_not.mp dollar) angle.1,none,ih]
    cases (matched.source units hasNamedGroups).namedCaptures <;> rfl
  | case12 b e more dollar double whole front back digits other ih =>
    rw [substitute_stray (not_not.mp dollar) double whole front back digits,ih]
    rintro ⟨angle,named⟩
    refine other ⟨angle,?_⟩
    cases hasNamedGroups with
    | true => rfl
    | false => cases named

end sources

end Perry.Strings.ReplaceExpand
