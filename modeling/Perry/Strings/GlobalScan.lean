import Perry.Strings.ReplaceExpand

/-! The scan of a subject for every match, and the replacements that are spliced in between what does not match. -/
namespace Perry.Strings.GlobalScan
open Unicode ReplaceExpand

section loops

variable {T : Type} {bytes : List UInt8}

def advancePastEmpty (haystack : List UInt8) (stop : Nat) : Nat := skipContinuation haystack (stop + 1)

/-- The loop, for so many rounds; nothing comes out where they do not suffice. -/
def scanFrom (haystack : List UInt8) (findAt : Nat → Option (Nat × Nat × T)) : Nat → List T → Nat → Option (List T)
  | 0,_,_ => none
  | rounds + 1,out,cursor =>
    if cursor ≤ haystack.length then
      match findAt cursor with
      | some (matchStart,matchEnd,item) =>
        scanFrom haystack findAt rounds (out ++ [item])
          (if matchEnd = matchStart then advancePastEmpty haystack matchEnd else matchEnd)
      | none => some out
    else some out

def scan (haystack : List UInt8) (start : Nat) (findAt : Nat → Option (Nat × Nat × T)) (rounds : Nat) : Option (List T) :=
  scanFrom haystack findAt rounds [] start

/-- How the callers of the scan ask an engine, with what they collect of a match. -/
def asking (matcher : Matcher bytes) (item : Found → T) (cursor : Nat) : Option (Nat × Nat × T) :=
  (matcher.find cursor).map fun m => (m.start,m.stop,item m)

def stdCaptures (matcher : Matcher bytes) (start rounds : Nat) : Option (List Found) := scan bytes start (asking matcher id) rounds

def fancyCaptures (matcher : Matcher bytes) (start rounds : Nat) : Option (List Found) := scan bytes start (asking matcher id) rounds

/-- `&s[i..j]`, which panics out of order, out of bounds or within a character. -/
def sliceStr (s : List UInt8) (i j : Nat) : Option (List UInt8) :=
  if i ≤ j ∧ j ≤ s.length ∧ isCharBoundary s i = true ∧ isCharBoundary s j = true then some (slice s i j) else none

/-- The loop over the matches, and the rest of the subject behind it. -/
def spliceFrom (strData : List UInt8) (expand : Found → List UInt8) : List Found → List UInt8 → Nat → Option (List UInt8)
  | [],result,lastEnd => (sliceStr strData lastEnd strData.length).map (result ++ ·)
  | m :: others,result,lastEnd =>
    (sliceStr strData lastEnd m.start).bind fun front =>
      spliceFrom strData expand others (result ++ front ++ expand m) m.stop

def capturesOf (names : List (Option (List UInt8))) (m : Found) : Captures := ⟨some (m.start,m.stop) :: m.captures,none :: names⟩

def hasNamedGroups (names : List (Option (List UInt8))) : Bool := names.any Option.isSome

/-- What `js_string_replace_regex` does with the linear engine. -/
def jsStringReplaceRegex (matcher : Matcher bytes) (names : List (Option (List UInt8))) (replStr : List UInt8) (global : Bool)
    (rounds : Nat) : Option (List UInt8) :=
  (if global then stdCaptures matcher 0 rounds else some (matcher.find 0).toList).bind fun capturesList =>
    spliceFrom bytes (fun m => expandJsReplacement replStr (capturesOf names m) bytes (hasNamedGroups names)) capturesList [] 0

/-- What it does with the fallback. -/
def replaceRegexStrFancy (matcher : Matcher bytes) (names : List (Option (List UInt8))) (replStr : List UInt8) (global : Bool)
    (rounds : Nat) : Option (List UInt8) :=
  (if global then fancyCaptures matcher 0 rounds else some (matcher.find 0).toList).bind fun capturesList =>
    spliceFrom bytes (fun m => expandJsReplacementFancy replStr (capturesOf names m) bytes (hasNamedGroups names)) capturesList [] 0

end loops

section specification

variable {bytes : List UInt8}

/-- `RegExpExec`: a match is tried at each character from the last index on. -/
def exec (points : List Nat) (matcher : Matcher bytes) (lastIndex : Nat) : Option Found :=
  if lastIndex ≤ bytes.length then
    match sticky matcher lastIndex with
    | some m => some m
    | none => exec points matcher (lastIndex + stepOver points lastIndex)
  else none
termination_by bytes.length + 1 - lastIndex
decreasing_by
  have forward := stepOver_pos points lastIndex
  omega

theorem exec_within {points : List Nat} {matcher : Matcher bytes} {lastIndex : Nat} {m : Found}
    (found : exec points matcher lastIndex = some m) : lastIndex ≤ m.start ∧ m.start ≤ m.stop ∧ m.stop ≤ bytes.length := by
  fun_induction exec points matcher lastIndex with
  | case1 lastIndex inside m' hit =>
    obtain rfl := Option.some.inj found
    obtain ⟨hit,starts⟩ := Option.filter_eq_some_iff.mp hit
    exact ⟨(of_decide_eq_true starts).ge,matcher.ordered hit,matcher.inside hit⟩
  | case2 lastIndex inside miss ih =>
    obtain ⟨ahead,rest⟩ := ih found
    exact ⟨(Nat.le_add_right _ _).trans ahead,rest⟩
  | case3 => cases found

/-- The matches of a global regular expression: each is searched from the end of the previous one, or one character behind
it where that was empty. -/
def matchSequence (points : List Nat) (matcher : Matcher bytes) (lastIndex : Nat) : List Found :=
  match _found : exec points matcher lastIndex with
  | some m => m :: matchSequence points matcher (if m.stop = m.start then m.stop + stepOver points m.stop else m.stop)
  | none => []
termination_by bytes.length + 1 - lastIndex
decreasing_by
  have within := exec_within _found
  have forward := stepOver_pos points m.stop
  split_ifs <;> omega

end specification

section searching

variable {points : List Nat} (matcher : Matcher (wtf8 points)) {q r : Nat}

/-- Characters where no match starts are passed one by one. -/
theorem exec_skip (bounded : Bounded points) (left : isCharBoundary (wtf8 points) q = true)
    (right : isCharBoundary (wtf8 points) r = true) (le : q ≤ r) (inside : r ≤ (wtf8 points).length)
    (none : ∀ x,q ≤ x → x < r → sticky matcher x = none) : exec points matcher q = exec points matcher r := by
  induction gap : r - q using Nat.strong_induction_on generalizing q with
  | h n ih =>
    obtain rfl | less := Nat.eq_or_lt_of_le le
    · rfl
    · have step := step_le bounded left right less
      have forward := stepOver_pos points q
      have boundary := boundary_step bounded left (by omega)
      rw [exec,if_pos (by omega),none q (Nat.le_refl q) less]
      exact ih _ (by omega) boundary step (fun x above below => none x (by omega) below) rfl

theorem exec_past (past : (wtf8 points).length < q) : exec points matcher q = none := by
  rw [exec,if_neg (by omega)]

/-- The engine finds what trying each character does. -/
theorem exec_eq_find (bounded : Bounded points) (boundary : isCharBoundary (wtf8 points) q = true) (inside : q ≤ (wtf8 points).length) :
    exec points matcher q = matcher.find q := by
  cases found : matcher.find q with
  | none =>
    have miss (x : Nat) (above : q ≤ x) : sticky matcher x = none :=
      sticky_none matcher fun m found' => matcher.exhausted found x m above found'
    have forward := stepOver_pos points (wtf8 points).length
    rw [exec_skip matcher bounded boundary (boundary_end _) inside (Nat.le_refl _) fun x above _ => miss x above,exec,
      if_pos (Nat.le_refl _),miss _ inside]
    exact exec_past matcher (by omega)
  | some m =>
    have ordered := matcher.ordered found
    have within := matcher.inside found
    rw [exec_skip matcher bounded boundary (matcher.boundaries found).1 (matcher.ahead found) (by omega),exec,if_pos (by omega),
      sticky_of_start matcher (matcher.again found) rfl]
    intro x above below
    exact sticky_none matcher fun m' found' => matcher.leftmost found x m' above below found'

theorem stepOver_end (points : List Nat) : stepOver points (wtf8 points).length = 1 := by
  induction points with
  | nil => rfl
  | cons c points ih => rw [stepOver,wtf8_cons,List.length_append,if_neg (by omega),Nat.add_sub_cancel_left,ih]

theorem advancePastEmpty_eq (bounded : Bounded points) (boundary : isCharBoundary (wtf8 points) q = true)
    (inside : q ≤ (wtf8 points).length) : advancePastEmpty (wtf8 points) q = q + stepOver points q := by
  obtain rfl | less := Nat.eq_or_lt_of_le inside
  · rw [stepOver_end,advancePastEmpty,skipContinuation,if_neg (by omega)]
  · obtain ⟨front,c,back,rfl,rfl⟩ := boundary_cons bounded boundary less
    rw [stepOver_front]
    exact nextCharBoundary_eq bounded

/-- Where the search goes on is a boundary, or past the end. -/
theorem boundary_next (bounded : Bounded points) {m : Found} (found : matcher.find q = some m) :
    let next := if m.stop = m.start then m.stop + stepOver points m.stop else m.stop
    q < next ∧ (next ≤ (wtf8 points).length → isCharBoundary (wtf8 points) next = true) := by
  have ahead := matcher.ahead found
  have ordered := matcher.ordered found
  have boundary := (matcher.boundaries found).2
  have forward := stepOver_pos points m.stop
  split_ifs with empty
  · exact ⟨by omega,fun inside => boundary_step bounded boundary (by omega)⟩
  · exact ⟨by omega,fun _ => boundary⟩

theorem matchSequence_eq (points : List Nat) (matcher : Matcher (wtf8 points)) (q : Nat) : matchSequence points matcher q =
    match exec points matcher q with
    | some m => m :: matchSequence points matcher (if m.stop = m.start then m.stop + stepOver points m.stop else m.stop)
    | none => [] := by
  rw [matchSequence]
  split
  · next found => rw [found]
  · next none => rw [none]

variable {T : Type} (item : Found → T)

/-- The scan collects the matches, in any number of rounds that reach past the end. -/
theorem scanFrom_eq (bounded : Bounded points) {rounds : Nat} (out : List T) (enough : (wtf8 points).length + 1 - q < rounds)
    (boundary : q ≤ (wtf8 points).length → isCharBoundary (wtf8 points) q = true) :
    scanFrom (wtf8 points) (asking matcher item) rounds out q = some (out ++ (matchSequence points matcher q).map item) := by
  induction rounds generalizing out q with
  | zero => exact absurd enough (Nat.not_lt_zero _)
  | succ rounds ih =>
    by_cases inside : q ≤ (wtf8 points).length
    · rw [scanFrom,if_pos inside,asking,matchSequence_eq,exec_eq_find matcher bounded (boundary inside) inside]
      cases found : matcher.find q with
      | none => rw [List.map_nil,List.append_nil]; rfl
      | some m =>
        obtain ⟨further,boundary'⟩ := boundary_next matcher bounded found
        have later := ih (out ++ [item m]) (by omega) boundary'
        rw [List.append_assoc,List.singleton_append] at later
        rw [List.map_cons,← later,Option.map_some]
        simp only [advancePastEmpty_eq bounded (matcher.boundaries found).2 (matcher.inside found)]
    · rw [scanFrom,if_neg inside,matchSequence_eq,exec_past matcher (by omega),List.map_nil,List.append_nil]

end searching

section splicing

variable {points : List Nat} (matcher : Matcher (wtf8 points)) {q : Nat}

/-- Matches from an offset on, none of which overlap, with their ends on boundaries. -/
inductive Ordered (bytes : List UInt8) : Nat → List Found → Prop
  | nil {last : Nat} : Ordered bytes last []
  | cons {last : Nat} {m : Found} {others : List Found} (ahead : last ≤ m.start) (ordered : m.start ≤ m.stop)
    (inside : m.stop ≤ bytes.length) (left : isCharBoundary bytes m.start = true) (right : isCharBoundary bytes m.stop = true)
    (later : Ordered bytes m.stop others) : Ordered bytes last (m :: others)

theorem Ordered.weaken {bytes : List UInt8} {last last' : Nat} {ms : List Found} (ordered : Ordered bytes last ms) (le : last' ≤ last) :
    Ordered bytes last' ms := by
  cases ordered with
  | nil => exact .nil
  | cons ahead ordered inside left right later => exact .cons (le.trans ahead) ordered inside left right later

theorem ordered_matchSequence (bounded : Bounded points) (boundary : q ≤ (wtf8 points).length → isCharBoundary (wtf8 points) q = true) :
    Ordered (wtf8 points) q (matchSequence points matcher q) := by
  fun_induction matchSequence points matcher q with
  | case1 q m found ih =>
    obtain ⟨ahead,ordered,inside⟩ := exec_within found
    rw [exec_eq_find matcher bounded (boundary (by omega)) (by omega)] at found
    obtain ⟨-,boundary'⟩ := boundary_next matcher bounded found
    obtain ⟨left,right⟩ := matcher.boundaries found
    refine .cons ahead ordered inside left right ((ih boundary').weaken ?_)
    split_ifs
    · exact Nat.le_add_right _ _
    · exact Nat.le_refl _
  | case2 q none => exact .nil

theorem Ordered.ahead {bytes : List UInt8} {last : Nat} {ms : List Found} (ordered : Ordered bytes last ms) :
    ∀ m ∈ ms,last ≤ m.start := by
  induction ordered with
  | nil => exact List.forall_mem_nil _
  | cons ahead ordered inside left right later ih =>
    refine List.forall_mem_cons.mpr ⟨ahead,fun m member => ?_⟩
    exact ahead.trans (ordered.trans (ih m member))

/-- No two of the matches overlap. -/
theorem Ordered.pairwise {bytes : List UInt8} {last : Nat} {ms : List Found} (ordered : Ordered bytes last ms) :
    ms.Pairwise fun a b => a.stop ≤ b.start := by
  induction ordered with
  | nil => exact .nil
  | cons ahead ordered inside left right later ih => exact .cons later.ahead ih

variable {bytes : List UInt8} {expand : Found → List UInt8} {ms : List Found} {last : Nat}

theorem sliceStr_ok {i j : Nat} (ordered : i ≤ j) (inside : j ≤ bytes.length) (left : isCharBoundary bytes i = true)
    (right : isCharBoundary bytes j = true) : sliceStr bytes i j = some (slice bytes i j) :=
  if_pos ⟨ordered,inside,left,right⟩

/-- Ordered matches are spliced without a panic. -/
theorem spliceFrom_isSome (ordered : Ordered bytes last ms) (inside : last ≤ bytes.length) (boundary : isCharBoundary bytes last = true)
    (result : List UInt8) : (spliceFrom bytes expand ms result last).isSome = true := by
  induction ordered generalizing result with
  | nil =>
    rw [spliceFrom,sliceStr_ok inside (Nat.le_refl _) boundary (boundary_end bytes)]
    rfl
  | cons ahead ordered inside' left right later ih =>
    rw [spliceFrom,sliceStr_ok ahead (ordered.trans inside') boundary left]
    exact ih inside' right _

theorem slice_slice {i j : Nat} (ordered : i ≤ j) : slice bytes i j ++ bytes.drop j = bytes.drop i := by
  have rest : (bytes.drop i).drop (j - i) = bytes.drop j := by rw [List.drop_drop,Nat.add_sub_cancel' ordered]
  rw [slice,← rest,List.take_append_drop]

/-- Where each match is replaced by itself the subject is put together again. -/
theorem spliceFrom_whole (ordered : Ordered bytes last ms) (inside : last ≤ bytes.length) (boundary : isCharBoundary bytes last = true)
    (itself : ∀ m,expand m = slice bytes m.start m.stop) (result : List UInt8) :
    spliceFrom bytes expand ms result last = some (result ++ bytes.drop last) := by
  induction ordered generalizing result with
  | @nil last =>
    rw [spliceFrom,sliceStr_ok inside (Nat.le_refl _) boundary (boundary_end bytes),slice,List.take_of_length_le (by rw [List.length_drop])]
    rfl
  | @cons last m others ahead ordered inside' left right later ih =>
    have whole : slice bytes last m.start ++ (slice bytes m.start m.stop ++ bytes.drop m.stop) = bytes.drop last := by
      rw [slice_slice ordered,slice_slice ahead]
    rw [spliceFrom,sliceStr_ok ahead (ordered.trans inside') boundary left,Option.bind_some,ih inside' right,itself m,← whole,
      List.append_assoc,List.append_assoc]

/-- `$&` -/
theorem expandFrom_matched (groups : Groups) (subject : List UInt8) (named : Bool) :
    expandFrom groups subject named ['$'.toUInt8,'&'.toUInt8] = slice subject groups.full.1 groups.full.2 := by
  rw [expandFrom,if_neg (by decide)]
  rw [if_neg (by decide),if_pos (by decide),expandFrom,List.append_nil]

end splicing

section results

/-- The scan collects the matches of ECMAScript in as many rounds as there are offsets, whatever is collected of them; none
overlap; nothing is sliced out of order; and the matches put in their own places give the subject back. -/
theorem globalScan_partitions (subject : Text) (matcher : Matcher subject.bytes) :
    (∀ {T : Type} (item : Found → T) (rounds : Nat),subject.bytes.length + 1 < rounds →
      scan subject.bytes 0 (asking matcher item) rounds = some ((matchSequence subject.points matcher 0).map item)) ∧
    (matchSequence subject.points matcher 0).Pairwise (fun a b => a.stop ≤ b.start) ∧
    ∀ (names : List (Option (List UInt8))) (rounds : Nat),subject.bytes.length + 1 < rounds →
      (∀ replStr,(jsStringReplaceRegex matcher names replStr true rounds).isSome = true ∧
        (replaceRegexStrFancy matcher names replStr true rounds).isSome = true) ∧
      jsStringReplaceRegex matcher names ['$'.toUInt8,'&'.toUInt8] true rounds = some subject.bytes ∧
        replaceRegexStrFancy matcher names ['$'.toUInt8,'&'.toUInt8] true rounds = some subject.bytes := by
  have boundary : isCharBoundary subject.bytes 0 = true := decide_eq_true (.inl rfl)
  have ordered := ordered_matchSequence matcher (q := 0) subject.bounded fun _ => boundary
  have collected {T : Type} (item : Found → T) (rounds : Nat) (enough : subject.bytes.length + 1 < rounds) :
      scan subject.bytes 0 (asking matcher item) rounds = some ((matchSequence subject.points matcher 0).map item) :=
    scanFrom_eq matcher item subject.bounded [] enough fun _ => boundary
  refine ⟨collected,ordered.pairwise,fun names rounds enough => ?_⟩
  have captures := collected id rounds enough
  rw [List.map_id] at captures
  have spliced (expand : Found → List UInt8) := @spliceFrom_isSome _ expand _ _ ordered (Nat.zero_le _) boundary []
  have whole (expand : Found → List UInt8) (itself : ∀ m,expand m = slice subject.bytes m.start m.stop) :=
    spliceFrom_whole ordered (Nat.zero_le _) boundary itself []
  refine ⟨fun replStr => ⟨?_,?_⟩,?_,?_⟩
  · rw [jsStringReplaceRegex,if_pos rfl,stdCaptures,captures]
    exact spliced _
  · rw [replaceRegexStrFancy,if_pos rfl,fancyCaptures,captures]
    exact spliced _
  · rw [jsStringReplaceRegex,if_pos rfl,stdCaptures,captures]
    exact whole _ fun m => expandFrom_matched _ _ _
  · rw [replaceRegexStrFancy,if_pos rfl,fancyCaptures,captures]
    exact whole _ fun m => expandFrom_matched _ _ _

def commaText : Text := ⟨commaSubject.points,by decide,by decide⟩

def commaIn : Matcher commaText.bytes := comma

theorem globalScan_partitions_comma : matchSequence commaText.points commaIn 0 = [⟨1,2,[some (1,2)]⟩] ∧
    jsStringReplaceRegex commaIn [none] ['$'.toUInt8,'&'.toUInt8] true 5 = some commaText.bytes := by
  obtain ⟨collected,-,replaced⟩ := globalScan_partitions commaText commaIn
  have scanned : scan commaText.bytes 0 (asking commaIn id) 5 = some [⟨1,2,[some (1,2)]⟩] := rfl
  have same := collected id 5 (by decide)
  rw [List.map_id,scanned] at same
  exact ⟨(Option.some.inj same).symm,(replaced [none] 5 (by decide)).2.1⟩

end results

end Perry.Strings.GlobalScan
