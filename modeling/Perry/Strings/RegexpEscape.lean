import Perry.Unicode.Points

/-! `RegExp.escape`, and its output read back as a sequence of pattern atoms. -/
namespace Perry.Strings.RegexpEscape
open Perry.Unicode

/-- `char::from_u32`. -/
def charFromU32 (n : Nat) : Option Char := if n.isValidChar then some (Char.ofNat n) else none

def hexDigit (d : Nat) : Char := Char.ofNat (if d < 10 then 48 + d else 87 + d)

/-- The format `{:0width$x}` of a number with at most so many digits. -/
def hex : Nat → Nat → List Char
  | 0,_ => []
  | width + 1,n => hex width (n / 16) ++ [hexDigit (n % 16)]

def regexpEscapeIsWhitespace (cp : Nat) : Bool :=
  cp = 0x0009 ∨ cp = 0x000B ∨ cp = 0x000C ∨ cp = 0x0020 ∨ cp = 0x00A0 ∨ cp = 0xFEFF ∨ cp = 0x1680 ∨
    (0x2000 ≤ cp ∧ cp ≤ 0x200A) ∨ cp = 0x202F ∨ cp = 0x205F ∨ cp = 0x3000

def regexpEscapeIsLineTerminator (cp : Nat) : Bool := cp = 0x000A ∨ cp = 0x000D ∨ cp = 0x2028 ∨ cp = 0x2029

def regexpEscapeUnicode (unit : Nat) : List Char :=
  if unit ≤ 0xFF then '\\' :: 'x' :: hex 2 unit else '\\' :: 'u' :: hex 4 unit

/-- The characters that a backslash is put in front of. -/
def isBackslashed (c : Char) : Bool := c ∈ ['^','$','\\','.','*','+','?','(',')','[',']','{','}','|','/']

def namedControl (c : Char) : Option Char :=
  if c = '\t' then some 't' else if c = '\n' then some 'n' else if c = '\x0B' then some 'v'
  else if c = '\x0C' then some 'f' else if c = '\r' then some 'r' else none

def isOtherPunctuator (c : Char) : Bool := c ∈ [',','-','=','<','>','#','&','!','%',':',';','@','~','\'','`','"']

/-- `String::from_utf16_lossy` of a single code unit. -/
def fromUtf16Lossy (unit : Nat) : List Char := [(charFromU32 unit).getD '\uFFFD']

def escapeUnit (i unit : Nat) : List Char :=
  let c := charFromU32 unit
  if i = 0 ∧ c.any Char.isAlphanum then regexpEscapeUnicode unit
  else if c.any isBackslashed then '\\' :: c.toList
  else match c.bind namedControl with
    | some name => ['\\',name]
    | none =>
      if c.any isOtherPunctuator ∨ regexpEscapeIsWhitespace unit ∨ regexpEscapeIsLineTerminator unit then regexpEscapeUnicode unit
      else match c with
        | some ch => [ch]
        | none => fromUtf16Lossy unit

def escapeFrom : Nat → List Nat → List Char
  | _,[] => []
  | i,unit :: units => escapeUnit i unit ++ escapeFrom (i + 1) units

/-- `str::encode_utf16`. -/
def encodeUtf16 (s : List Char) : List Nat := s.flatMap fun c => unitsOf c.toNat

/-- An argument that is a string, or is not. -/
inductive Argument where
  | string (s : List Char)
  | other

structure TypeError where
  message : String

def jsRegexpEscape : Argument → Except TypeError (List Char)
  | .string s => .ok (escapeFrom 0 (encodeUtf16 s))
  | .other => .error ⟨"input argument must be a string"⟩

section atoms

/-- An atom of a pattern that stands for one character or code unit. -/
inductive Atom where
  | literal (c : Char)
  | escaped (c : Char)
  | control (unit : Nat)
  | coded (unit : Nat)

def Atom.units : Atom → List Nat
  | .literal c => unitsOf c.toNat
  | .escaped c => unitsOf c.toNat
  | .control unit => [unit]
  | .coded unit => [unit]

/-- `SyntaxCharacter` and the solidus. -/
def isSyntaxCharacter (c : Char) : Bool := c ∈ ['^','$','\\','.','*','+','?','(',')','[',']','{','}','|','/']

/-- The punctuators other than syntax characters. -/
def isPunctuator (c : Char) : Bool := c ∈ [',','-','=','<','>','#','&','!','%',':',';','@','~','\'','`','"']

def isSpaceSeparator (c : Char) : Bool :=
  c ∈ ['\x20','\xA0','\u1680','\u2000','\u2001','\u2002','\u2003','\u2004','\u2005','\u2006','\u2007','\u2008','\u2009','\u200A',
    '\u202F','\u205F','\u3000']

def isWhiteSpace (c : Char) : Bool := c ∈ ['\t','\x0B','\x0C','\uFEFF'] ∨ isSpaceSeparator c

def isLineTerminator (c : Char) : Bool := c ∈ ['\n','\r','\u2028','\u2029']

/-- A character that a pattern may not contain as it is. -/
def Reserved (c : Char) : Prop := isSyntaxCharacter c ∨ isPunctuator c ∨ isWhiteSpace c ∨ isLineTerminator c

def hexValue (c : Char) : Option Nat :=
  if '0' ≤ c ∧ c ≤ '9' then some (c.toNat - 48) else if 'a' ≤ c ∧ c ≤ 'f' then some (c.toNat - 87)
  else if 'A' ≤ c ∧ c ≤ 'F' then some (c.toNat - 55) else none

def hexNumber (digits : List Char) : Option Nat := digits.foldlM (fun value c => (hexValue c).map (value * 16 + ·)) 0

def escapedAtom (c : Char) : Option Atom :=
  if c = 't' then some (.control 0x0009) else if c = 'n' then some (.control 0x000A) else if c = 'v' then some (.control 0x000B)
  else if c = 'f' then some (.control 0x000C) else if c = 'r' then some (.control 0x000D)
  else if isSyntaxCharacter c then some (.escaped c) else none

def readAtoms : List Char → Option (List Atom)
  | [] => some []
  | '\\' :: 'x' :: a :: b :: rest => do pure (.coded (← hexNumber [a,b]) :: (← readAtoms rest))
  | '\\' :: 'u' :: a :: b :: c :: d :: rest => do pure (.coded (← hexNumber [a,b,c,d]) :: (← readAtoms rest))
  | '\\' :: c :: rest => do pure ((← escapedAtom c) :: (← readAtoms rest))
  | ['\\'] => none
  | c :: rest => do pure (.literal c :: (← readAtoms rest))

/-- The output spells the code units of the string, with nothing reserved left in it, and does not begin with a
letter or a digit. -/
def Faithful (s : List Char) : Prop := ∃ out atoms,jsRegexpEscape (.string s) = .ok out ∧ readAtoms out = some atoms ∧
  atoms.flatMap Atom.units = encodeUtf16 s ∧ (∀ c,.literal c ∈ atoms → ¬Reserved c) ∧
  ∀ c,atoms.head? = some (.literal c) → ¬c.isAlphanum

end atoms

section reading

variable {unit i : Nat} {rest : List Char} {c : Char}

theorem hexValue_hexDigit : ∀ d : Fin 16,hexValue (hexDigit d) = some d.val := by decide

theorem hexValue_mod (n : Nat) : hexValue (hexDigit (n % 16)) = some (n % 16) := hexValue_hexDigit ⟨n % 16,Nat.mod_lt _ (by decide)⟩

theorem hexNumber_hex (width n : Nat) : hexNumber (hex width n) = some (n % 16 ^ width) := by
  induction width generalizing n with
  | zero => rw [pow_zero,Nat.mod_one]; rfl
  | succ width ih =>
    have step := ih (n / 16)
    rw [hexNumber] at step
    rw [hex,hexNumber,List.foldlM_append,step,Option.bind_eq_bind,Option.bind_some,List.foldlM_cons,hexValue_mod,Option.map_some,
      Option.bind_eq_bind,Option.bind_some,List.foldlM_nil,pow_succ',Nat.mod_mul,Nat.add_comm,Nat.mul_comm]
    rfl

theorem readAtoms_unicode (small : unit < 0x10000) :
    readAtoms (regexpEscapeUnicode unit ++ rest) = (readAtoms rest).map (.coded unit :: ·) := by
  unfold regexpEscapeUnicode
  split
  · next short =>
    have number := hexNumber_hex 2 unit
    rw [Nat.mod_eq_of_lt (by omega)] at number
    simp only [hex,List.nil_append,List.cons_append] at number ⊢
    rw [readAtoms,number]
    cases readAtoms rest <;> rfl
  · have number := hexNumber_hex 4 unit
    rw [Nat.mod_eq_of_lt (by omega)] at number
    simp only [hex,List.nil_append,List.cons_append] at number ⊢
    rw [readAtoms,number]
    cases readAtoms rest <;> rfl

theorem readAtoms_literal (plain : c ≠ '\\') : readAtoms (c :: rest) = (readAtoms rest).map (.literal c :: ·) := by
  rw [readAtoms]
  · cases readAtoms rest <;> rfl
  all_goals simp_all

theorem readAtoms_escaped {atom : Atom} (known : escapedAtom c = some atom) :
    readAtoms ('\\' :: c :: rest) = (readAtoms rest).map (atom :: ·) := by
  rw [readAtoms,known]
  · cases readAtoms rest <;> rfl
  · rintro a b rest' rfl
    cases known
  · rintro a b c' d rest' rfl
    cases known

end reading

section units

variable {unit i : Nat} {c : Char}

theorem charFromU32_surrogate (surrogate : isSurrogate unit = true) : charFromU32 unit = none := by
  rw [isSurrogate,decide_eq_true_eq] at surrogate
  rw [charFromU32,if_neg]
  rintro (low | ⟨high,-⟩) <;> omega

theorem charFromU32_scalar (small : unit < 0x10000) (scalar : isSurrogate unit = false) :
    ∃ c,charFromU32 unit = some c ∧ c.toNat = unit := by
  rw [isSurrogate,decide_eq_false_iff_not] at scalar
  have valid : unit.isValidChar := by
    by_cases low : unit < 0xD800
    · exact .inl low
    · exact .inr ⟨by omega,by omega⟩
  rw [charFromU32,if_pos valid]
  refine ⟨_,rfl,?_⟩
  rw [Char.ofNat,dif_pos valid]
  rfl

/-- The code unit that is read back. -/
def restored (unit : Nat) : Nat := if isSurrogate unit then 0xFFFD else unit

/-- What one code unit becomes is read back as one atom, in front of anything. -/
structure Reads (i unit : Nat) (atom : Atom) : Prop where
  read : ∀ rest,readAtoms (escapeUnit i unit ++ rest) = (readAtoms rest).map (atom :: ·)
  units : atom.units = [restored unit]
  plain : ∀ c,atom = .literal c → ¬Reserved c
  first : i = 0 → ∀ c,atom = .literal c → ¬c.isAlphanum

theorem reads_coded (small : unit < 0x10000) (scalar : isSurrogate unit = false)
    (shape : escapeUnit i unit = regexpEscapeUnicode unit) : Reads i unit (.coded unit) where
  read rest := by rw [shape,readAtoms_unicode small]
  units := by rw [restored,scalar]; rfl
  plain := nofun
  first := nofun

theorem reads_surrogate (surrogate : isSurrogate unit = true) : Reads i unit (.literal '\uFFFD') := by
  have none := charFromU32_surrogate surrogate
  have shape : escapeUnit i unit = ['\uFFFD'] := by
    rw [isSurrogate,decide_eq_true_eq] at surrogate
    have space : regexpEscapeIsWhitespace unit = false := by
      rw [regexpEscapeIsWhitespace,decide_eq_false_iff_not]
      omega
    have line : regexpEscapeIsLineTerminator unit = false := by
      rw [regexpEscapeIsLineTerminator,decide_eq_false_iff_not]
      omega
    simp [escapeUnit,none,space,line,fromUtf16Lossy]
  refine ⟨fun rest => ?_,?_,?_,?_⟩
  · rw [shape]
    exact readAtoms_literal (by decide)
  · rw [restored,if_pos surrogate]
    rfl
  · rintro c same
    cases same
    unfold Reserved
    decide
  · rintro - c same
    cases same
    decide

theorem named_control {name : Char} (named : namedControl c = some name) : escapedAtom name = some (.control c.toNat) := by
  unfold namedControl at named
  split_ifs at named with tab line vertical form back
  all_goals
    cases named
    subst c
    rfl

theorem backslashed (syn : isBackslashed c = true) : escapedAtom c = some (.escaped c) := by
  have apart {d : Char} (other : isBackslashed d = false) : c ≠ d := by
    rintro rfl
    rw [other] at syn
    cases syn
  rw [escapedAtom,if_neg (apart rfl),if_neg (apart rfl),if_neg (apart rfl),if_neg (apart rfl),if_neg (apart rfl)]
  exact if_pos syn

theorem whiteSpace_of_isWhiteSpace (space : isWhiteSpace c = true) : regexpEscapeIsWhitespace c.toNat = true := by
  have controls : ∀ c ∈ ['\t','\x0B','\x0C','\uFEFF'],regexpEscapeIsWhitespace c.toNat = true :=
    List.all_eq_true.mp (by decide)
  have separators : ∀ c,isSpaceSeparator c = true → regexpEscapeIsWhitespace c.toNat = true := by
    simp only [isSpaceSeparator,decide_eq_true_eq]
    exact List.all_eq_true.mp (by decide)
  rw [isWhiteSpace,decide_eq_true_eq] at space
  obtain control | separator := space
  · exact controls c control
  · exact separators c separator

theorem lineTerminator_of_isLineTerminator (line : isLineTerminator c = true) : regexpEscapeIsLineTerminator c.toNat = true := by
  have terminators : ∀ c ∈ ['\n','\r','\u2028','\u2029'],regexpEscapeIsLineTerminator c.toNat = true :=
    List.all_eq_true.mp (by decide)
  rw [isLineTerminator,decide_eq_true_eq] at line
  exact terminators c line

theorem reads_exists (small : unit < 0x10000) : ∃ atom,Reads i unit atom := by
  by_cases surrogate : isSurrogate unit = true
  · exact ⟨_,reads_surrogate surrogate⟩
  have scalar := Bool.eq_false_of_not_eq_true surrogate
  obtain ⟨c,char,number⟩ := charFromU32_scalar small scalar
  have whole : restored unit = c.toNat := by rw [restored,scalar,number]; rfl
  have single : unitsOf c.toNat = [c.toNat] := if_pos (by omega)
  by_cases start : i = 0 ∧ c.isAlphanum
  · refine ⟨_,reads_coded small scalar ?_⟩
    simp only [escapeUnit,char,Option.any_some]
    exact if_pos start
  by_cases syn : isBackslashed c = true
  · have shape : escapeUnit i unit = ['\\',c] := by
      simp only [escapeUnit,char,Option.any_some]
      rw [if_neg start,if_pos syn]
      rfl
    refine ⟨.escaped c,fun rest => ?_,?_,nofun,nofun⟩
    · rw [shape]
      exact readAtoms_escaped (backslashed syn)
    · rw [whole]
      exact single
  cases named : namedControl c with
  | some name =>
    have shape : escapeUnit i unit = ['\\',name] := by
      simp only [escapeUnit,char,Option.any_some,Option.bind_some,named]
      rw [if_neg start,if_neg syn]
    refine ⟨.control c.toNat,fun rest => ?_,?_,nofun,nofun⟩
    · rw [shape]
      exact readAtoms_escaped (named_control named)
    · rw [whole]
      rfl
  | none =>
    by_cases reserved : isOtherPunctuator c = true ∨ regexpEscapeIsWhitespace unit = true ∨ regexpEscapeIsLineTerminator unit = true
    · refine ⟨_,reads_coded small scalar ?_⟩
      simp only [escapeUnit,char,Option.any_some,Option.bind_some,named]
      rw [if_neg start,if_neg syn,if_pos reserved]
    · have shape : escapeUnit i unit = [c] := by
        simp only [escapeUnit,char,Option.any_some,Option.bind_some,named]
        rw [if_neg start,if_neg syn,if_neg reserved]
      refine ⟨.literal c,fun rest => ?_,?_,?_,?_⟩
      · rw [shape]
        apply readAtoms_literal
        rintro rfl
        exact syn rfl
      · rw [whole]
        exact single
      · rintro c' same
        cases same
        rw [← number] at reserved
        rintro (syn' | punctuator | space | line)
        · exact syn syn'
        · exact reserved (.inl punctuator)
        · exact reserved (.inr (.inl (whiteSpace_of_isWhiteSpace space)))
        · exact reserved (.inr (.inr (lineTerminator_of_isLineTerminator line)))
      · rintro zero c' same alphanumeric
        cases same
        exact start ⟨zero,alphanumeric⟩

theorem escapeFrom_reads {units : List Nat} (small : ∀ unit ∈ units,unit < 0x10000) (i : Nat) :
    ∃ atoms,readAtoms (escapeFrom i units) = some atoms ∧ atoms.flatMap Atom.units = units.map restored ∧
      (∀ c,.literal c ∈ atoms → ¬Reserved c) ∧ (i = 0 → ∀ c,atoms.head? = some (.literal c) → ¬c.isAlphanum) := by
  induction units generalizing i with
  | nil => exact ⟨[],rfl,rfl,nofun,nofun⟩
  | cons unit units ih =>
    rw [List.forall_mem_cons] at small
    obtain ⟨atom,reads⟩ := reads_exists (i := i) small.1
    obtain ⟨atoms,rest,spelled,plain,-⟩ := ih small.2 (i + 1)
    refine ⟨atom :: atoms,?_,?_,?_,?_⟩
    · rw [escapeFrom,reads.read,rest]
      rfl
    · rw [List.flatMap_cons,reads.units,spelled]
      rfl
    · intro c member
      obtain same | later := List.mem_cons.mp member
      · exact reads.plain c same.symm
      · exact plain c later
    · intro zero c head
      exact reads.first zero c (Option.some.inj head)

theorem unitsOf_lt (c : Char) : ∀ unit ∈ unitsOf c.toNat,unit < 0x10000 := by
  have bound : c.toNat < 0x110000 := c.valid.elim (fun low => by change c.val.toNat < _; omega) fun high => high.2
  unfold unitsOf
  split
  · next basic =>
    rintro unit (_ | ⟨-,other⟩)
    · exact basic
    · cases other
  · intro unit member
    simp only [List.mem_cons,List.not_mem_nil,or_false] at member
    omega

theorem restored_unitsOf (c : Char) : (unitsOf c.toNat).map restored = unitsOf c.toNat ↔ c.toNat < 0x10000 := by
  unfold unitsOf
  split
  · next basic =>
    have scalar : isSurrogate c.toNat = false := by
      have valid : c.toNat.isValidChar := c.valid
      rw [isSurrogate,decide_eq_false_iff_not]
      obtain low | ⟨high,-⟩ := valid <;> omega
    rw [List.map_singleton,restored,scalar]
    exact iff_of_true rfl basic
  · next astral =>
    refine iff_of_false (fun same => ?_) astral
    have valid : c.toNat < 0x110000 := by
      obtain low | ⟨-,high⟩ := show c.toNat.isValidChar from c.valid
      · omega
      · exact high
    have half := (List.cons.inj same).1
    have surrogate : isSurrogate (0xD800 + (c.toNat - 0x10000) / 1024) = true := by
      rw [isSurrogate,decide_eq_true_eq]
      omega
    rw [restored,if_pos surrogate] at half
    omega

theorem restored_encodeUtf16 (s : List Char) : (encodeUtf16 s).map restored = encodeUtf16 s ↔ ∀ c ∈ s,c.toNat < 0x10000 := by
  induction s with
  | nil => exact iff_of_true rfl nofun
  | cons c s ih =>
    have split : encodeUtf16 (c :: s) = unitsOf c.toNat ++ encodeUtf16 s := List.flatMap_cons
    rw [split,List.map_append,List.forall_mem_cons,← ih,← restored_unitsOf c]
    constructor
    · intro same
      exact List.append_inj same (List.length_map _)
    · rintro ⟨first,later⟩
      rw [first,later]

end units

theorem faithful_iff (s : List Char) : Faithful s ↔ (encodeUtf16 s).map restored = encodeUtf16 s := by
  have small : ∀ unit ∈ encodeUtf16 s,unit < 0x10000 := by
    intro unit member
    obtain ⟨c,-,inside⟩ := List.mem_flatMap.mp member
    exact unitsOf_lt c unit inside
  obtain ⟨atoms,read,spelled,plain,first⟩ := escapeFrom_reads small 0
  constructor
  · rintro ⟨out,atoms',escaped,read',faithful,-⟩
    cases escaped
    rw [read] at read'
    cases read'
    exact spelled.symm.trans faithful
  · intro same
    exact ⟨_,atoms,rfl,read,spelled.trans same,plain,first rfl⟩

/-- The escape is faithful exactly for strings without characters outside the basic plane. -/
theorem jsRegexpEscape_faithful_iff (s : List Char) : Faithful s ↔ ∀ c ∈ s,c.toNat < 0x10000 := by
  rw [faithful_iff,restored_encodeUtf16]

/-- Both halves of an astral character are replaced. -/
theorem jsRegexpEscape_astral : ¬Faithful ['😀'] := by
  rw [faithful_iff]
  decide

end Perry.Strings.RegexpEscape
