import Perry.Containers.Occurrences
import Perry.Containers.Records
import Perry.Runtime.BigIntConvert

/-! `.env` files, line by line, with the escapes of the values in double quotes. -/

namespace Perry.Compose

open Perry.Containers
open Perry.Runtime.BigInt (isWhitespace trim)

section parser

/-- `str::lines`: a line ends at a line feed, with a carriage return before it or not. -/
def linesFrom (line : List Char) : List Char → List (List Char)
  | [] => if line = [] then [] else [line]
  | c :: rest =>
    if c = '\n' then (if line.getLast? = some '\r' then line.dropLast else line) :: linesFrom [] rest
    else linesFrom (line ++ [c]) rest

def lines (text : List Char) : List (List Char) := linesFrom [] text

def splitOnce (c : Char) (text : List Char) : Option (List Char × List Char) :=
  if c ∈ text then some (text.takeWhile (· ≠ c),(text.dropWhile (· ≠ c)).tail) else none

/-- `str::replace`, with as many characters to skip as are left of the match. -/
def replaceFrom (pattern replacement : List Char) : Nat → List Char → List Char
  | _,[] => []
  | skip + 1,_ :: rest => replaceFrom pattern replacement skip rest
  | 0,c :: rest =>
    if pattern.isPrefixOf (c :: rest) then replacement ++ replaceFrom pattern replacement (pattern.length - 1) rest
    else c :: replaceFrom pattern replacement 0 rest

def replace (pattern replacement text : List Char) : List Char := replaceFrom pattern replacement 0 text

def trimEnd (text : List Char) : List Char := (text.reverse.dropWhile isWhitespace).reverse

def parseDotenvValue (raw : List Char) : List Char :=
  if raw = [] then []
  else if raw.head? = some '"' ∧ raw.getLast? = some '"' ∧ 2 ≤ raw.length then
    replace ['\\','\\'] ['\\'] (replace ['\\','"'] ['"'] (replace ['\\','n'] ['\n'] raw.tail.dropLast))
  else if raw.head? = some '\'' ∧ raw.getLast? = some '\'' ∧ 2 ≤ raw.length then raw.tail.dropLast
  else
    match (find [' ','#'] raw).or (find ['\t','#'] raw) with
    | some pos => trimEnd (raw.take pos)
    | none => raw

def parseDotenvLine (map : List (List Char × List Char)) (line : List Char) : List (List Char × List Char) :=
  let line := trim line
  if line = [] ∨ line.head? = some '#' then map
  else
    match splitOnce '=' line with
    | none => map
    | some (key,rawVal) => if trim key = [] then map else assign (trim key) (parseDotenvValue (trim rawVal)) map

def parseDotenv (content : List Char) : List (List Char × List Char) := (lines content).foldl parseDotenvLine []

end parser

/-- How a character stands between double quotes. -/
def escape (c : Char) : List Char :=
  if c = '\\' then ['\\','\\'] else if c = '"' then ['\\','"'] else if c = '\n' then ['\\','n'] else [c]

def quotedLine (key value : List Char) : List Char := key ++ '=' :: '"' :: (value.flatMap escape ++ ['"'])

structure IsKey (key : List Char) : Prop where
  filled : key ≠ []
  comment : key.head? ≠ some '#'
  plain : ∀ c ∈ key,c ≠ '=' ∧ isWhitespace c = false

section passes

variable {pattern replacement text : List Char} {a b c : Char}

theorem replace_miss (miss : pattern.isPrefixOf (c :: text) = false) :
    replace pattern replacement (c :: text) = c :: replace pattern replacement text := by
  rw [replace,replaceFrom,if_neg (by rw [miss]; exact Bool.false_ne_true)]
  rfl

theorem replace_pair (a b : Char) (replacement text : List Char) :
    replace [a,b] replacement (a :: b :: text) = replacement ++ replace [a,b] replacement text := by
  rw [replace,replaceFrom,if_pos (by simp [List.isPrefixOf])]
  rfl

theorem replace_other (other : c ≠ a) : replace [a,b] replacement (c :: text) = c :: replace [a,b] replacement text := by
  apply replace_miss
  simp [List.isPrefixOf,Ne.symm other]

theorem replace_alone (other : text.head? ≠ some b) :
    replace [a,b] replacement (c :: text) = c :: replace [a,b] replacement text := by
  apply replace_miss
  cases text with
  | nil => simp [List.isPrefixOf]
  | cons d text =>
    have apart : b ≠ d := fun same => other (congrArg some same.symm)
    simp [List.isPrefixOf,apart]

/-- A letter that is in neither the pattern nor the replacement is kept. -/
theorem count_replace (apart : a ≠ c) (apart' : b ≠ c) (absent : c ∉ replacement) (text : List Char) :
    (replace [a,b] replacement text).count c = text.count c := by
  induction text using List.twoStepInduction with
  | nil => rfl
  | singleton d =>
    rw [replace_alone (by simp)]
    rfl
  | cons_cons d e text ih ih' =>
    by_cases match_ : d = a ∧ e = b
    · obtain ⟨rfl,rfl⟩ := match_
      rw [replace_pair,List.count_append,List.count_eq_zero.mpr absent,ih,List.count_cons_of_ne apart,
        List.count_cons_of_ne apart',Nat.zero_add]
    · have alone : replace [a,b] replacement (d :: e :: text) = d :: replace [a,b] replacement (e :: text) := by
        by_cases first : d = a
        · exact replace_alone fun same => match_ ⟨first,Option.some.inj same⟩
        · exact replace_other first
      rw [alone,List.count_cons,List.count_cons,ih' e]

end passes

/-- What the first pass leaves of an escape. -/
def reading (c : Char) : List Char := if c = '\n' then ['\n'] else escape c

/-- The text behind the first pass: where a backslash stands before the letter, the second character
of its escape is taken for the beginning of another. -/
def firstPass : List Char → List Char
  | '\\' :: 'n' :: rest => '\\' :: '\n' :: firstPass rest
  | c :: rest => reading c ++ firstPass rest
  | [] => []

section decoding

variable {value : List Char}

theorem escape_cases (c : Char) : c = '\\' ∧ escape c = ['\\','\\'] ∨ c = '"' ∧ escape c = ['\\','"'] ∨
    c = '\n' ∧ escape c = ['\\','n'] ∨ c ≠ '\\' ∧ c ≠ '"' ∧ c ≠ '\n' ∧ escape c = [c] := by
  rw [escape]
  split_ifs with h h' h'' <;> simp_all

theorem head_escape (filled : (value.flatMap escape).head? = some 'n') : ∃ rest,value = 'n' :: rest := by
  cases value with
  | nil => cases filled
  | cons c rest =>
    rw [List.flatMap_cons] at filled
    obtain ⟨rfl,shape⟩ | ⟨rfl,shape⟩ | ⟨rfl,shape⟩ | ⟨-,-,-,shape⟩ := escape_cases c
    · rw [shape] at filled
      exact absurd (Option.some.inj filled) (by decide)
    · rw [shape] at filled
      exact absurd (Option.some.inj filled) (by decide)
    · rw [shape] at filled
      exact absurd (Option.some.inj filled) (by decide)
    · rw [shape] at filled
      obtain rfl := Option.some.inj filled
      exact ⟨rest,rfl⟩

theorem replace_escape (value : List Char) : replace ['\\','n'] ['\n'] (value.flatMap escape) = firstPass value := by
  fun_induction firstPass value with
  | case1 rest ih =>
    rw [List.flatMap_cons,List.flatMap_cons]
    change replace _ _ ('\\' :: '\\' :: 'n' :: rest.flatMap escape) = _
    rw [replace_alone (by simp),replace_pair,ih]
    rfl
  | case2 c rest other ih =>
    rw [List.flatMap_cons,reading,← ih]
    obtain ⟨rfl,shape⟩ | ⟨rfl,shape⟩ | ⟨rfl,shape⟩ | ⟨apart,-,apart',shape⟩ := escape_cases c
    · have alone : (rest.flatMap escape).head? ≠ some 'n' := fun first => by
        obtain ⟨rest,rfl⟩ := head_escape first
        exact other rest rfl rfl
      rw [if_neg (by decide),shape]
      exact (replace_alone (by simp)).trans (congrArg _ (replace_alone alone))
    · rw [if_neg (by decide),shape]
      exact (replace_alone (by simp)).trans (congrArg _ (replace_other (by decide)))
    · rw [if_pos rfl,shape]
      exact replace_pair ..
    · rw [if_neg apart',shape]
      exact replace_other apart
  | case3 => rfl

/-- The value has a backslash in front of the letter. -/
def Misread (value : List Char) : Prop := ['\\','n'] <:+: value

theorem firstPass_clean (clean : ¬ Misread value) : firstPass value = value.flatMap reading := by
  fun_induction firstPass value with
  | case1 rest ih => exact absurd (List.infix_append' [] ['\\','n'] rest) clean
  | case2 c rest other ih =>
    rw [List.flatMap_cons,ih fun within => clean (List.infix_cons within)]
  | case3 => rfl

theorem count_reading (c : Char) : (reading c).count 'n' = [c].count 'n' := by
  rw [reading]
  obtain ⟨rfl,shape⟩ | ⟨rfl,shape⟩ | ⟨rfl,shape⟩ | ⟨-,-,apart,shape⟩ := escape_cases c
  · rw [shape]
    decide
  · rw [shape]
    decide
  · decide
  · rw [if_neg apart,shape]

theorem count_firstPass (value : List Char) : (firstPass value).count 'n' ≤ value.count 'n' ∧
    (Misread value → (firstPass value).count 'n' < value.count 'n') := by
  fun_induction firstPass value with
  | case1 rest ih =>
    have less : ('\\' :: '\n' :: firstPass rest).count 'n' < ('\\' :: 'n' :: rest).count 'n' := by
      simp
      omega
    exact ⟨less.le,fun _ => less⟩
  | case2 c rest other ih =>
    have whole : (c :: rest).count 'n' = [c].count 'n' + rest.count 'n' := by
      rw [← List.count_append]
      rfl
    rw [List.count_append,count_reading,whole]
    refine ⟨Nat.add_le_add_left ih.1 _,fun within => Nat.add_lt_add_left (ih.2 ?_) _⟩
    refine (List.infix_cons_iff.mp within).resolve_left fun front => ?_
    obtain ⟨more,shape⟩ := front
    obtain ⟨rfl,shape'⟩ := List.cons.inj shape
    exact other more rfl shape'.symm
  | case3 => exact ⟨Nat.le_refl _,fun within => absurd (List.infix_nil.mp within) (List.cons_ne_nil _ _)⟩

/-- What the second pass leaves. -/
def doubled (c : Char) : List Char := if c = '\\' then ['\\','\\'] else [c]

theorem reading_cases (c : Char) : c = '\\' ∧ reading c = ['\\','\\'] ∨ c = '"' ∧ reading c = ['\\','"'] ∨
    c ≠ '\\' ∧ c ≠ '"' ∧ reading c = [c] := by
  rw [reading]
  obtain ⟨rfl,shape⟩ | ⟨rfl,shape⟩ | ⟨rfl,shape⟩ | ⟨first,second,third,shape⟩ := escape_cases c
  · exact .inl ⟨rfl,shape⟩
  · exact .inr (.inl ⟨rfl,shape⟩)
  · exact .inr (.inr ⟨by decide,by decide,rfl⟩)
  · rw [if_neg third]
    exact .inr (.inr ⟨first,second,shape⟩)

theorem head_reading (value : List Char) : (value.flatMap reading).head? ≠ some '"' := by
  cases value with
  | nil => nofun
  | cons c rest =>
    rw [List.flatMap_cons]
    obtain ⟨rfl,shape⟩ | ⟨rfl,shape⟩ | ⟨-,apart,shape⟩ := reading_cases c
    · rw [shape]
      exact fun same => absurd (Option.some.inj same) (by decide)
    · rw [shape]
      exact fun same => absurd (Option.some.inj same) (by decide)
    · rw [shape]
      exact fun same => apart (Option.some.inj same)

theorem replace_reading (value : List Char) : replace ['\\','"'] ['"'] (value.flatMap reading) = value.flatMap doubled := by
  induction value with
  | nil => rfl
  | cons c rest ih =>
    rw [List.flatMap_cons,List.flatMap_cons,doubled,← ih]
    obtain ⟨rfl,shape⟩ | ⟨rfl,shape⟩ | ⟨apart,-,shape⟩ := reading_cases c
    · rw [if_pos rfl,shape]
      exact (replace_alone (by simp)).trans (congrArg _ (replace_alone (head_reading rest)))
    · rw [if_neg (by decide),shape]
      exact replace_pair ..
    · rw [if_neg apart,shape]
      exact replace_other apart

theorem replace_doubled (value : List Char) : replace ['\\','\\'] ['\\'] (value.flatMap doubled) = value := by
  induction value with
  | nil => rfl
  | cons c rest ih =>
    rw [List.flatMap_cons,doubled]
    split
    · next same =>
      rw [same]
      exact (replace_pair ..).trans (congrArg _ ih)
    · next apart => exact (replace_other apart).trans (congrArg _ ih)

theorem passes_eq_iff (value : List Char) : replace ['\\','\\'] ['\\'] (replace ['\\','"'] ['"']
    (replace ['\\','n'] ['\n'] (value.flatMap escape))) = value ↔ ¬ Misread value := by
  rw [replace_escape]
  constructor
  · intro same within
    have counted := congrArg (List.count 'n') same
    rw [count_replace (by decide) (by decide) (by decide),count_replace (by decide) (by decide) (by decide)] at counted
    exact absurd counted ((count_firstPass value).2 within).ne
  · intro clean
    rw [firstPass_clean clean,replace_reading,replace_doubled]

end decoding

section reading

variable {key text line : List Char}

theorem trim_bounded (first : ∀ c ∈ text.head?,isWhitespace c = false) (last : ∀ c ∈ text.getLast?,isWhitespace c = false) :
    trim text = text := by
  have kept (text : List Char) (first : ∀ c ∈ text.head?,isWhitespace c = false) : text.dropWhile isWhitespace = text := by
    cases text with
    | nil => rfl
    | cons c rest =>
      rw [List.dropWhile_cons_of_neg]
      rw [first c rfl]
      exact Bool.false_ne_true
  rw [trim,kept text first,kept text.reverse (by rwa [List.head?_reverse]),List.reverse_reverse]

theorem linesFrom_line (line front : List Char) (plain : '\n' ∉ line) (rest : List Char) :
    linesFrom front (line ++ rest) = linesFrom (front ++ line) rest := by
  induction line generalizing front with
  | nil => rw [List.nil_append,List.append_nil]
  | cons c line ih =>
    rw [List.mem_cons,not_or] at plain
    rw [List.cons_append,linesFrom,if_neg (Ne.symm plain.1),ih _ plain.2,List.append_assoc,List.singleton_append]

/-- A file with one line, ended or not. -/
theorem lines_single (filled : line ≠ []) (plain : '\n' ∉ line) (last : line.getLast? ≠ some '\r') {ending : List Char}
    (ends : ending = [] ∨ ending = ['\n']) : lines (line ++ ending) = [line] := by
  rw [lines,linesFrom_line line [] plain,List.nil_append]
  obtain rfl | rfl := ends
  · rw [linesFrom,if_neg filled]
  · rw [linesFrom,if_pos rfl,if_neg last]
    rfl

theorem splitOnce_key (plain : ∀ c ∈ key,c ≠ '=') (rest : List Char) : splitOnce '=' (key ++ '=' :: rest) = some (key,rest) := by
  have all : ∀ c ∈ key,decide (c ≠ '=') = true := fun c member => decide_eq_true (plain c member)
  rw [splitOnce,if_pos (List.mem_append_right _ List.mem_cons_self),List.takeWhile_append_of_pos all,
    List.dropWhile_append_of_pos all]
  simp

theorem newline_escape (value : List Char) : '\n' ∉ value.flatMap escape := by
  rw [List.mem_flatMap]
  rintro ⟨c,-,within⟩
  obtain ⟨rfl,shape⟩ | ⟨rfl,shape⟩ | ⟨rfl,shape⟩ | ⟨-,-,apart,shape⟩ := escape_cases c
  · rw [shape] at within
    exact absurd within (by decide)
  · rw [shape] at within
    exact absurd within (by decide)
  · rw [shape] at within
    exact absurd within (by decide)
  · rw [shape,List.mem_singleton] at within
    exact apart within.symm

theorem parseDotenvValue_quoted (value : List Char) : parseDotenvValue ('"' :: (value.flatMap escape ++ ['"'])) =
    replace ['\\','\\'] ['\\'] (replace ['\\','"'] ['"'] (replace ['\\','n'] ['\n'] (value.flatMap escape))) := by
  rw [parseDotenvValue,if_neg (List.cons_ne_nil _ _),if_pos,List.tail_cons,List.dropLast_concat]
  refine ⟨rfl,?_,?_⟩
  · rw [← List.cons_append,List.getLast?_concat]
  · rw [List.length_cons,List.length_append,List.length_singleton]
    omega

theorem head_key (isKey : IsKey key) (rest : List Char) : ∃ c,c ≠ '#' ∧ isWhitespace c = false ∧ (key ++ rest).head? = some c := by
  obtain ⟨filled,comment,plain⟩ := isKey
  cases key with
  | nil => exact absurd rfl filled
  | cons c key => exact ⟨c,fun same => comment (congrArg some same),(plain c List.mem_cons_self).2,rfl⟩

theorem trim_quoted (text : List Char) (first : ∃ c,isWhitespace c = false ∧ (text ++ ['"']).head? = some c) : trim (text ++ ['"']) = text ++ ['"'] := by
  obtain ⟨c,plain,front⟩ := first
  refine trim_bounded ?_ ?_
  · rw [front]
    rintro _ ⟨⟩
    exact plain
  · rw [List.getLast?_concat]
    rintro _ ⟨⟩
    decide

theorem parseDotenv_quoted (isKey : IsKey key) (value : List Char) {ending : List Char} (ends : ending = [] ∨ ending = ['\n']) :
    getEntry key (parseDotenv (quotedLine key value ++ ending)) = some (replace ['\\','\\'] ['\\']
      (replace ['\\','"'] ['"'] (replace ['\\','n'] ['\n'] (value.flatMap escape)))) := by
  have quoted : quotedLine key value = (key ++ '=' :: '"' :: value.flatMap escape) ++ ['"'] := by
    rw [quotedLine,List.append_assoc]
    rfl
  obtain ⟨c,uncommented,visible,front⟩ := head_key isKey ('=' :: '"' :: value.flatMap escape ++ ['"'])
  rw [← List.append_assoc,← quoted] at front
  have plain : '\n' ∉ quotedLine key value := by
    rw [quotedLine,List.mem_append,List.mem_cons,List.mem_cons,List.mem_append,List.mem_singleton]
    rintro (within | same | same | within | same)
    · exact absurd (isKey.plain _ within).2 (by decide)
    · exact absurd same (by decide)
    · exact absurd same (by decide)
    · exact newline_escape value within
    · exact absurd same (by decide)
  have last : (quotedLine key value).getLast? = some '"' := by rw [quoted,List.getLast?_concat]
  have filled : quotedLine key value ≠ [] := fun empty => by rw [empty] at last; cases last
  have kept : trim (quotedLine key value) = quotedLine key value := by
    rw [quoted] at front ⊢
    exact trim_quoted _ ⟨c,visible,front⟩
  have keyKept : trim key = key := Runtime.BigInt.trim_plain fun d member => (isKey.plain d member).2
  have valueKept : trim ('"' :: (value.flatMap escape ++ ['"'])) = '"' :: (value.flatMap escape ++ ['"']) :=
    trim_quoted ('"' :: value.flatMap escape) ⟨'"',by decide,rfl⟩
  have uncommented' : ¬ (quotedLine key value = [] ∨ (quotedLine key value).head? = some '#') := by
    rw [front,not_or]
    exact ⟨filled,fun same => uncommented (Option.some.inj same)⟩
  rw [parseDotenv,lines_single filled plain (by rw [last]; decide) ends,List.foldl_cons,List.foldl_nil,parseDotenvLine]
  rw [kept,if_neg uncommented',quotedLine,splitOnce_key fun d member => (isKey.plain d member).1]
  dsimp only
  rw [keyKept,valueKept,if_neg isKey.filled,getEntry_assign,if_pos rfl,parseDotenvValue_quoted]

end reading

/-- A quoted value is read as it was written exactly where no backslash stands before the letter `n`. -/
theorem parseDotenv_quoted_iff {key : List Char} (isKey : IsKey key) (value : List Char) {ending : List Char}
    (ends : ending = [] ∨ ending = ['\n']) :
    getEntry key (parseDotenv (quotedLine key value ++ ending)) = some value ↔ ¬ ['\\','n'] <:+: value := by
  rw [parseDotenv_quoted isKey value ends,Option.some_inj]
  exact passes_eq_iff value

theorem parseDotenv_quoted_iff_letters :
    getEntry ['K'] (parseDotenv (quotedLine ['K'] ['n','\\','"'] ++ [])) = some ['n','\\','"'] ↔ ¬ ['\\','n'] <:+: ['n','\\','"'] :=
  parseDotenv_quoted_iff ⟨by decide,by decide,List.forall_mem_singleton.mpr (by decide)⟩ _ (.inl rfl)

theorem parseDotenv_quoted_path : ¬ ∀ key value : List Char,IsKey key → '\r' ∉ value →
    getEntry key (parseDotenv (quotedLine key value)) = some value := by
  intro all
  have read := all ['K'] ['C',':','\\','n'] ⟨by decide,by decide,List.forall_mem_singleton.mpr (by decide)⟩ (by decide)
  exact absurd read (by decide)

end Perry.Compose
