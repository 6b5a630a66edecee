import Perry.Strings.Header

/-! Split by a regular expression. The three engines run one loop, which searches ahead; the
specification probes every character for a match that starts there. -/
namespace Perry.Strings

open Unicode

/-- What a match has captured, as bytes, or nothing for a group that took no part. -/
abbrev Piece := Option (List UInt8)

structure Found where
  start : Nat
  stop : Nat
  captures : List (Option (Nat × Nat))
  deriving DecidableEq,Repr

/-- A subject is characters, which a position between bytes may cut. -/
structure Subject where
  points : List Nat
  scalars : ∀ c ∈ points,isScalar c = true

def Subject.bytes (subject : Subject) : List UInt8 := wtf8 subject.points

def isCharBoundary (bytes : List UInt8) (i : Nat) : Bool :=
  i = 0 ∨ i = bytes.length ∨ i < bytes.length ∧ ¬ isContinuation (bytes.getD i 0) = true

/-- The search of an engine: the leftmost match from an offset on, the same from every offset up to
its start. -/
structure Matcher (bytes : List UInt8) where
  find : Nat → Option Found
  ahead : ∀ {q m},find q = some m → q ≤ m.start
  ordered : ∀ {q m},find q = some m → m.start ≤ m.stop
  inside : ∀ {q m},find q = some m → m.stop ≤ bytes.length
  boundaries : ∀ {q m},find q = some m → isCharBoundary bytes m.start = true ∧ isCharBoundary bytes m.stop = true
  again : ∀ {q m},find q = some m → find m.start = some m
  leftmost : ∀ {q m},find q = some m → ∀ x m',q ≤ x → x < m.start → find x = some m' → m'.start ≠ x
  exhausted : ∀ {q},find q = none → ∀ x m',q ≤ x → find x = some m' → m'.start ≠ x

variable {bytes : List UInt8}

def slice (bytes : List UInt8) (start stop : Nat) : List UInt8 := (bytes.drop start).take (stop - start)

def captured (bytes : List UInt8) (m : Found) : List Piece := m.captures.map (Option.map fun range => slice bytes range.1 range.2)

section engines

def skipContinuation (bytes : List UInt8) (j : Nat) : Nat :=
  if j < bytes.length ∧ isCharBoundary bytes j = false then skipContinuation bytes (j + 1) else j
termination_by bytes.length - j

def nextCharBoundary (bytes : List UInt8) (i : Nat) : Nat := skipContinuation bytes (i + 1)

theorem le_skipContinuation (bytes : List UInt8) (j : Nat) : j ≤ skipContinuation bytes j := by
  fun_induction skipContinuation bytes j with
  | case1 j more ih => exact (Nat.le_succ j).trans ih
  | case2 j done => exact Nat.le_refl j

/-- Where the copies of the loop differ: the step over a character, and how captures are read. -/
structure Engine where
  next : Nat → Nat
  forward : ∀ q,q < next q
  spliced : Nat → Found → List Piece

/-- The standard engine searches a second time for the captures. -/
def stdEngine (matcher : Matcher bytes) : Engine where
  next := nextCharBoundary bytes
  forward q := le_skipContinuation bytes (q + 1)
  spliced q _ :=
    match matcher.find q with
    | some caps => captured bytes caps
    | none => []

def fancyEngine (bytes : List UInt8) : Engine where
  next := nextCharBoundary bytes
  forward q := le_skipContinuation bytes (q + 1)
  spliced _ m := captured bytes m

theorem length_encodeUtf8_pos (c : Nat) : 0 < (encodeUtf8 c).length := by
  unfold encodeUtf8
  split_ifs <;> exact Nat.succ_pos _

/-- The length of the character behind a position. -/
def charLen (bytes : List UInt8) : Nat :=
  match parts bytes with
  | some c :: _ => (encodeUtf8 c).length
  | _ => 1

theorem charLen_pos (bytes : List UInt8) : 0 < charLen bytes := by
  unfold charLen
  split
  · exact length_encodeUtf8_pos _
  · exact Nat.zero_lt_one

def repeatMatcherEngine (bytes : List UInt8) : Engine where
  next cursor := cursor + charLen (bytes.drop cursor)
  forward _ := Nat.lt_add_of_pos_right (charLen_pos _)
  spliced _ m := captured bytes m

end engines

section loops

/-- The list with one more element, and whether it is full. -/
def push (limit : Int) (out : List Piece) (v : Piece) : List Piece × Bool :=
  (out ++ [v],0 ≤ limit ∧ limit ≤ (out ++ [v]).length)

def pushAll (limit : Int) : List Piece → List Piece → List Piece × Bool
  | out,[] => (out,false)
  | out,v :: vs =>
    match push limit out v with
    | (out,true) => (out,true)
    | (out,false) => pushAll limit out vs

def finish (bytes : List UInt8) (limit : Int) (out : List Piece) (p : Nat) : List Piece :=
  if limit < 0 ∨ out.length < limit then out ++ [some (slice bytes p bytes.length)] else out

/-- The loop: p is where the pending piece starts, q is the cursor. -/
def splitFrom (engine : Engine) (matcher : Matcher bytes) (limit : Int) (out : List Piece) (p q : Nat) : List Piece :=
  if q < bytes.length then
    match _found : matcher.find q with
    | none => finish bytes limit out p
    | some m =>
      if m.start = q then
        if min m.stop bytes.length = p then splitFrom engine matcher limit out p (engine.next q)
        else
          match push limit out (some (slice bytes p q)) with
          | (out,true) => out
          | (out,false) =>
            match pushAll limit out (engine.spliced q m) with
            | (out,true) => out
            | (out,false) => splitFrom engine matcher limit out (min m.stop bytes.length) (min m.stop bytes.length)
      else splitFrom engine matcher limit out p m.start
  else finish bytes limit out p
termination_by 2 * (bytes.length - q) + if p = q then 0 else 1
decreasing_by
  · have forward := engine.forward q
    split_ifs <;> omega
  · have ordered := matcher.ordered _found
    split_ifs <;> omega
  · have ahead := matcher.ahead _found
    split_ifs <;> omega

/-- `spec_regex_split` -/
def specRegexSplit (matcher : Matcher bytes) (limit : Int) : List Piece :=
  if bytes.length = 0 then if (matcher.find 0).isNone then [some []] else []
  else splitFrom (stdEngine matcher) matcher limit [] 0 0

def specFancyRegexSplit (matcher : Matcher bytes) (limit : Int) : List Piece :=
  if limit = 0 then []
  else if bytes.length = 0 then if (matcher.find 0).isNone then [some []] else []
  else splitFrom (fancyEngine bytes) matcher limit [] 0 0

/-- `RepeatMatcherRegex::split` -/
def repeatMatcherSplit (matcher : Matcher bytes) (limit : Int) : List Piece :=
  if bytes.length = 0 then if (matcher.find 0).isNone then [some []] else []
  else splitFrom (repeatMatcherEngine bytes) matcher limit [] 0 0

/-- Which engine a pattern was compiled for. -/
inductive Compiled
  | repeatMatcher
  | fancy
  | standard
  deriving DecidableEq,Repr

/-- What `js_string_split_regex_n` puts into the array. -/
def jsStringSplitRegexN (compiled : Compiled) (matcher : Matcher bytes) (limit : Int) : List Piece :=
  if limit = 0 then []
  else match compiled with
    | .repeatMatcher => repeatMatcherSplit matcher limit
    | .fancy => specFancyRegexSplit matcher limit
    | .standard => specRegexSplit matcher limit

end loops

section specification

/-- How far it is to the end of the character that holds an offset. -/
def stepOver : List Nat → Nat → Nat
  | [],_ => 1
  | c :: points,q => if q < (encodeUtf8 c).length then (encodeUtf8 c).length - q else stepOver points (q - (encodeUtf8 c).length)

theorem stepOver_pos (points : List Nat) (q : Nat) : 0 < stepOver points q := by
  induction points generalizing q with
  | nil => exact Nat.zero_lt_one
  | cons c points ih =>
    rw [stepOver]
    split_ifs with within
    · omega
    · exact ih _

/-- The match that starts at an offset. -/
def sticky (matcher : Matcher bytes) (q : Nat) : Option Found := (matcher.find q).filter (·.start = q)

/-- The pieces and captures from a state on when every character is probed. -/
def stickyPieces (points : List Nat) (matcher : Matcher bytes) (p q : Nat) : List Piece :=
  if q < bytes.length then
    match _found : sticky matcher q with
    | none => stickyPieces points matcher p (q + stepOver points q)
    | some m =>
      if min m.stop bytes.length = p then stickyPieces points matcher p (q + stepOver points q)
      else some (slice bytes p q) :: captured bytes m ++
        stickyPieces points matcher (min m.stop bytes.length) (min m.stop bytes.length)
  else [some (slice bytes p bytes.length)]
termination_by 2 * (bytes.length - q) + if p = q then 0 else 1
decreasing_by
  · have forward := stepOver_pos points q
    split_ifs <;> omega
  · have forward := stepOver_pos points q
    split_ifs <;> omega
  · obtain ⟨found,starts⟩ := Option.filter_eq_some_iff.mp _found
    have ordered := matcher.ordered found
    rw [decide_eq_true_iff] at starts
    split_ifs <;> omega

def cut (limit : Int) (pieces : List Piece) : List Piece := if limit < 0 then pieces else pieces.take limit.toNat

/-- `RegExp.prototype[Symbol.split]`: a negative limit stands for none. -/
def symbolSplit (subject : Subject) (matcher : Matcher subject.bytes) (limit : Int) : List Piece :=
  cut limit (if subject.bytes.length = 0 then if (sticky matcher 0).isSome then [] else [some []]
    else stickyPieces subject.points matcher 0 0)

end specification

section characters

variable {points front back : List Nat} {c i q r : Nat}

/-- A boundary cuts the subject between two characters. -/
theorem boundary_cut (bounded : Bounded points) (boundary : isCharBoundary (wtf8 points) i = true) :
    ∃ front back,points = front ++ back ∧ (wtf8 front).length = i := by
  rw [isCharBoundary,decide_eq_true_iff] at boundary
  obtain rfl | rfl | ⟨inside,lead⟩ := boundary
  · exact ⟨[],points,rfl,rfl⟩
  · exact ⟨points,[],(List.append_nil _).symm,rfl⟩
  · have clean : Clean ((wtf8 points).drop i) := by
      intro b rest shape
      have read : (wtf8 points).getD i 0 = b := by
        rw [List.getD_eq_getElem?_getD,← List.head?_drop,shape]
        rfl
      rw [read] at lead
      exact Bool.eq_false_iff.mpr lead
    obtain ⟨front,back,rfl,taken,-⟩ := wtf8_cut bounded (List.take_append_drop i (wtf8 points)).symm clean
    refine ⟨front,back,rfl,?_⟩
    rw [← taken,List.length_take_of_le inside.le]

theorem stepOver_front (front back : List Nat) (c : Nat) :
    stepOver (front ++ c :: back) (wtf8 front).length = (encodeUtf8 c).length := by
  induction front with
  | nil => exact if_pos (length_encodeUtf8_pos c)
  | cons d front ih =>
    rw [List.cons_append,stepOver,wtf8_cons,List.length_append,if_neg (by omega),Nat.add_sub_cancel_left,ih]

/-- The continuation bytes in front of a clean rest are stepped over. -/
theorem skipContinuation_eq (pre : List UInt8) {conts post : List UInt8} (positive : 0 < pre.length) (continuation : ∀ b ∈ conts,isContinuation b = true)
    (clean : Clean post) : skipContinuation (pre ++ (conts ++ post)) pre.length = pre.length + conts.length := by
  induction conts generalizing pre with
  | nil =>
    rw [skipContinuation,if_neg]
    · rfl
    · rintro ⟨inside,other⟩
      rw [isCharBoundary,decide_eq_false_iff_not] at other
      refine other (.inr (.inr ⟨inside,?_⟩))
      rw [List.nil_append,List.length_append] at inside
      obtain ⟨b,rest,rfl⟩ := List.exists_cons_of_length_pos (l := post) (by omega)
      rw [List.nil_append,List.getD_eq_getElem?_getD,List.getElem?_append_right (Nat.le_refl _),Nat.sub_self,
        List.getElem?_cons_zero,Option.getD_some,clean b rest rfl]
      exact Bool.false_ne_true
  | cons b conts ih =>
    obtain ⟨first,others⟩ := List.forall_mem_cons.mp continuation
    have size : (pre ++ (b :: conts ++ post)).length = pre.length + (conts.length + 1) + post.length := by
      simp only [List.length_append,List.length_cons]
      omega
    have later := @ih (pre ++ [b]) (by simp) others
    rw [List.append_assoc,List.length_append,List.length_singleton,List.singleton_append] at later
    rw [skipContinuation,if_pos,List.cons_append,later,List.length_cons]
    · omega
    · refine ⟨by omega,?_⟩
      rw [isCharBoundary,decide_eq_false_iff_not,not_or,not_or]
      refine ⟨by omega,by omega,?_⟩
      rintro ⟨-,other⟩
      rw [List.getD_eq_getElem?_getD,List.getElem?_append_right (Nat.le_refl _),Nat.sub_self,List.cons_append,
        List.getElem?_cons_zero,Option.getD_some] at other
      exact other first

theorem nextCharBoundary_eq (bounded : Bounded (front ++ c :: back)) :
    nextCharBoundary (wtf8 (front ++ c :: back)) (wtf8 front).length = (wtf8 front).length + (encodeUtf8 c).length := by
  obtain ⟨lead,conts,encoded,-,continuation⟩ := encodeUtf8_lead bounded.append.2.cons.1
  have clean : Clean (wtf8 back) := by
    have whole := clean_wtf8 bounded.append.2.cons.2 [] (by rintro b rest ⟨⟩)
    rwa [List.append_nil] at whole
  have skipped := skipContinuation_eq (wtf8 front ++ [lead]) (by simp) continuation clean
  rw [List.append_assoc,List.length_append,List.length_singleton] at skipped
  rw [nextCharBoundary,wtf8_append,wtf8_cons,encoded,List.length_cons]
  rw [List.singleton_append,← List.cons_append] at skipped
  omega

theorem charLen_eq (scalars : ∀ d ∈ front ++ c :: back,isScalar d = true) :
    charLen ((wtf8 (front ++ c :: back)).drop (wtf8 front).length) = (encodeUtf8 c).length := by
  have others : ∀ d ∈ c :: back,isScalar d = true := fun d member => scalars d (List.mem_append_right _ member)
  rw [wtf8_append,List.drop_left,charLen,parts_wtf8 others]
  rfl

theorem boundary_front (bounded : Bounded (front ++ back)) : isCharBoundary (wtf8 (front ++ back)) (wtf8 front).length = true := by
  rw [isCharBoundary,decide_eq_true_iff]
  cases back with
  | nil => exact .inr (.inl (by rw [List.append_nil]))
  | cons c back =>
    obtain ⟨lead,conts,encoded,starts,-⟩ := encodeUtf8_lead bounded.append.2.cons.1
    refine .inr (.inr ⟨?_,?_⟩)
    · rw [wtf8_append,wtf8_cons,encoded,List.length_append,List.cons_append,List.length_cons]
      omega
    · rw [wtf8_append,wtf8_cons,encoded,List.getD_eq_getElem?_getD,List.getElem?_append_right (Nat.le_refl _),Nat.sub_self,
        List.cons_append,List.getElem?_cons_zero,Option.getD_some,starts]
      exact Bool.false_ne_true

/-- In front of the end a boundary has a character behind it. -/
theorem boundary_cons (bounded : Bounded points) (boundary : isCharBoundary (wtf8 points) q = true) (inside : q < (wtf8 points).length) :
    ∃ front c back,points = front ++ c :: back ∧ (wtf8 front).length = q := by
  obtain ⟨front,back,rfl,rfl⟩ := boundary_cut bounded boundary
  cases back with
  | nil =>
    rw [List.append_nil] at inside
    exact absurd inside (Nat.lt_irrefl _)
  | cons c back => exact ⟨front,c,back,rfl,rfl⟩

theorem boundary_step (bounded : Bounded points) (boundary : isCharBoundary (wtf8 points) q = true) (inside : q < (wtf8 points).length) :
    isCharBoundary (wtf8 points) (q + stepOver points q) = true := by
  obtain ⟨front,c,back,rfl,rfl⟩ := boundary_cons bounded boundary inside
  have whole : front ++ c :: back = (front ++ [c]) ++ back := by rw [List.append_assoc,List.singleton_append]
  have behind := @boundary_front (front ++ [c]) back (whole ▸ bounded)
  rw [← whole,wtf8_append front [c],wtf8_cons c [],wtf8_nil,List.append_nil,List.length_append] at behind
  rw [stepOver_front]
  exact behind

/-- No boundary is within a character. -/
theorem step_le (bounded : Bounded points) (left : isCharBoundary (wtf8 points) q = true)
    (right : isCharBoundary (wtf8 points) r = true) (less : q < r) : q + stepOver points q ≤ r := by
  obtain ⟨front,back,rfl,rfl⟩ := boundary_cut bounded left
  obtain ⟨front',back',same,rfl⟩ := boundary_cut bounded right
  obtain ⟨more,rfl,rfl⟩ | ⟨more,rfl,rfl⟩ := List.append_eq_append_iff.mp same
  · cases more with
    | nil =>
      rw [List.append_nil] at less
      exact absurd less (Nat.lt_irrefl _)
    | cons c more =>
      rw [List.cons_append,stepOver_front,wtf8_append,wtf8_cons,List.length_append,List.length_append]
      omega
  · rw [wtf8_append,List.length_append] at less
    omega

end characters

section limits

variable {limit : Int} {out pieces vs : List Piece} {v : Piece}

/-- There is room for one more element. -/
def Room (limit : Int) (out : List Piece) : Prop := limit < 0 ∨ out.length < limit

theorem cut_of_le (fits : limit < 0 ∨ out.length ≤ limit) : cut limit out = out := by
  unfold cut
  split_ifs
  · rfl
  · exact List.take_of_length_le (by omega)

theorem cut_full (full : 0 ≤ limit) (reached : limit ≤ out.length) (pieces : List Piece) : cut limit (out ++ pieces) = cut limit out := by
  unfold cut
  rw [if_neg (by omega),if_neg (by omega),List.take_append_of_le_length (by omega)]

/-- After an element there is room again, or the list is the one that is asked for. -/
theorem push_cases (room : Room limit out) (v : Piece) :
    push limit out v = (out ++ [v],false) ∧ Room limit (out ++ [v]) ∨
      push limit out v = (out ++ [v],true) ∧ ∀ pieces,cut limit (out ++ [v] ++ pieces) = out ++ [v] := by
  have size : (out ++ [v]).length = out.length + 1 := by rw [List.length_append,List.length_singleton]
  unfold push Room at *
  by_cases full : 0 ≤ limit ∧ limit ≤ (out ++ [v]).length
  · refine .inr ⟨by rw [decide_eq_true full],fun pieces => ?_⟩
    rw [cut_full full.1 full.2,cut_of_le (by omega)]
  · exact .inl ⟨by rw [decide_eq_false full],by omega⟩

theorem pushAll_cases (room : Room limit out) (vs : List Piece) :
    pushAll limit out vs = (out ++ vs,false) ∧ Room limit (out ++ vs) ∨
      ∃ full,pushAll limit out vs = (full,true) ∧ ∀ pieces,cut limit (out ++ vs ++ pieces) = full := by
  induction vs generalizing out with
  | nil =>
    rw [List.append_nil]
    exact .inl ⟨rfl,room⟩
  | cons v vs ih =>
    rw [pushAll]
    obtain ⟨pushed,room'⟩ | ⟨pushed,all⟩ := push_cases room v
    · have later := ih room'
      rw [List.append_assoc,List.singleton_append] at later
      rw [pushed]
      exact later
    · rw [pushed]
      refine .inr ⟨_,rfl,fun pieces => ?_⟩
      have cuts := all (vs ++ pieces)
      rwa [List.append_assoc,List.singleton_append,← List.cons_append,← List.append_assoc] at cuts

theorem finish_eq (room : Room limit out) (bytes : List UInt8) (p : Nat) :
    finish bytes limit out p = cut limit (out ++ [some (slice bytes p bytes.length)]) := by
  unfold Room at room
  rw [finish,if_pos room,cut_of_le]
  rw [List.length_append,List.length_singleton]
  omega

end limits

section probing

variable {points : List Nat} (matcher : Matcher (wtf8 points)) {p q r : Nat}

/-- Characters where no match starts are passed one by one. -/
theorem stickyPieces_skip (bounded : Bounded points) (left : isCharBoundary (wtf8 points) q = true)
    (right : isCharBoundary (wtf8 points) r = true) (le : q ≤ r) (inside : r ≤ (wtf8 points).length)
    (none : ∀ x,q ≤ x → x < r → sticky matcher x = none) : stickyPieces points matcher p q = stickyPieces points matcher p r := by
  induction gap : r - q using Nat.strong_induction_on generalizing q with
  | h n ih =>
    obtain rfl | less := Nat.eq_or_lt_of_le le
    · rfl
    · have step := step_le bounded left right less
      have forward := stepOver_pos points q
      have boundary := boundary_step bounded left (by omega)
      rw [stickyPieces,if_pos (by omega),none q (Nat.le_refl q) less]
      exact ih _ (by omega) boundary step (fun x above below => none x (by omega) below) rfl

theorem sticky_of_start {m : Found} (found : matcher.find q = some m) (starts : m.start = q) : sticky matcher q = some m := by
  rw [sticky,found]
  exact if_pos (decide_eq_true starts)

theorem sticky_none (apart : ∀ m,matcher.find q = some m → m.start ≠ q) : sticky matcher q = none :=
  Option.filter_eq_none_iff.mpr fun m found => decide_eq_false (apart m found) ▸ Bool.false_ne_true

theorem boundary_end (bytes : List UInt8) : isCharBoundary bytes bytes.length = true := decide_eq_true (.inr (.inl rfl))

theorem stickyPieces_end (p : Nat) : stickyPieces points matcher p (wtf8 points).length =
    [some (slice (wtf8 points) p (wtf8 points).length)] := by
  rw [stickyPieces,if_neg (Nat.lt_irrefl _)]

theorem stickyPieces_skipped {m : Found} (inside : q < (wtf8 points).length) (hit : sticky matcher q = some m)
    (skipped : min m.stop (wtf8 points).length = p) :
    stickyPieces points matcher p q = stickyPieces points matcher p (q + stepOver points q) := by
  rw [stickyPieces,if_pos inside,hit]
  exact if_pos skipped

theorem stickyPieces_split {m : Found} (inside : q < (wtf8 points).length) (hit : sticky matcher q = some m)
    (other : ¬ min m.stop (wtf8 points).length = p) : stickyPieces points matcher p q =
      some (slice (wtf8 points) p q) :: captured (wtf8 points) m ++
        stickyPieces points matcher (min m.stop (wtf8 points).length) (min m.stop (wtf8 points).length) := by
  rw [stickyPieces,if_pos inside,hit]
  exact if_neg other

/-- The loop collects what probing every character does, as far as there is room. -/
theorem splitFrom_eq (bounded : Bounded points) {engine : Engine} {limit : Int}
    (next : ∀ q,isCharBoundary (wtf8 points) q = true → q < (wtf8 points).length → engine.next q = q + stepOver points q)
    (spliced : ∀ q m,matcher.find q = some m → engine.spliced q m = captured (wtf8 points) m)
    (out : List Piece) (p q : Nat) (room : Room limit out) (boundary : isCharBoundary (wtf8 points) q = true)
    (within : q ≤ (wtf8 points).length) :
    splitFrom engine matcher limit out p q = cut limit (out ++ stickyPieces points matcher p q) := by
  fun_induction splitFrom engine matcher limit out p q with
  | case1 out p q inside none =>
    rw [finish_eq room,stickyPieces_skip matcher bounded boundary (boundary_end _) within (Nat.le_refl _),stickyPieces_end]
    intro x above _
    exact sticky_none matcher fun m found => matcher.exhausted none x m above found
  | case2 out m inside found ih =>
    have step := next m.start boundary inside
    have probed := stickyPieces_skipped matcher inside (sticky_of_start matcher found rfl) rfl
    rw [probed,← step]
    refine ih room ?_ ?_
    · rw [step]
      exact boundary_step bounded boundary inside
    · rw [step]
      exact step_le bounded boundary (boundary_end _) inside
  | case3 out p m other full inside found pushed =>
    have probed := stickyPieces_split matcher inside (sticky_of_start matcher found rfl) other
    obtain ⟨pushed',-⟩ | ⟨pushed',all⟩ := push_cases room (some (slice (wtf8 points) p m.start))
    · rw [pushed] at pushed'
      cases pushed'
    · rw [pushed] at pushed'
      obtain ⟨rfl,-⟩ := Prod.mk.inj pushed'
      have cuts := all (captured (wtf8 points) m ++ stickyPieces points matcher (min m.stop (wtf8 points).length)
        (min m.stop (wtf8 points).length))
      rw [List.append_assoc,List.singleton_append] at cuts
      rw [probed,List.cons_append]
      exact cuts.symm
  | case4 out p m other out' full inside found pushed filled =>
    have probed := stickyPieces_split matcher inside (sticky_of_start matcher found rfl) other
    obtain ⟨pushed',room'⟩ | ⟨pushed',-⟩ := push_cases room (some (slice (wtf8 points) p m.start))
    · rw [pushed] at pushed'
      obtain ⟨rfl,-⟩ := Prod.mk.inj pushed'
      obtain ⟨filled',-⟩ | ⟨full',filled',all⟩ := pushAll_cases room' (engine.spliced m.start m)
      · rw [filled] at filled'
        cases filled'
      · rw [filled] at filled'
        obtain ⟨rfl,-⟩ := Prod.mk.inj filled'
        rw [probed,← all,spliced m.start m found,List.append_assoc,List.append_assoc]
        rfl
    · rw [pushed] at pushed'
      cases pushed'
  | case5 out p m other out' out'' inside found pushed filled ih =>
    have probed := stickyPieces_split matcher inside (sticky_of_start matcher found rfl) other
    obtain ⟨pushed',room'⟩ | ⟨pushed',-⟩ := push_cases room (some (slice (wtf8 points) p m.start))
    · rw [pushed] at pushed'
      obtain ⟨rfl,-⟩ := Prod.mk.inj pushed'
      obtain ⟨filled',room''⟩ | ⟨full',filled',-⟩ := pushAll_cases room' (engine.spliced m.start m)
      · rw [filled] at filled'
        obtain ⟨rfl,-⟩ := Prod.mk.inj filled'
        rw [ih room'' ?_ (Nat.min_le_right _ _),probed,spliced m.start m found,List.append_assoc,List.append_assoc]
        · rfl
        · rw [Nat.min_eq_left (matcher.inside found)]
          exact (matcher.boundaries found).2
      · rw [filled] at filled'
        cases filled'
    · rw [pushed] at pushed'
      cases pushed'
  | case6 out p q inside m found starts ih =>
    have stops := matcher.inside found
    have ordered := matcher.ordered found
    have target := (matcher.boundaries found).1
    rw [ih room target (by omega),stickyPieces_skip matcher bounded boundary target (matcher.ahead found) (by omega)]
    intro x above below
    exact sticky_none matcher fun m' found' => matcher.leftmost found x m' above below found'
  | case7 out p q outside =>
    obtain rfl := Nat.le_antisymm within (Nat.le_of_not_lt outside)
    rw [finish_eq room,stickyPieces_end]

end probing

section engines

variable (subject : Subject) (matcher : Matcher subject.bytes) {limit : Int}

theorem room_nil (given : limit ≠ 0) : Room limit [] := by
  rw [Room,List.length_nil]
  omega

theorem symbolSplit_empty (given : limit ≠ 0) (empty : subject.bytes.length = 0) :
    (if (matcher.find 0).isNone then [some []] else []) = symbolSplit subject matcher limit := by
  rw [symbolSplit,if_pos empty]
  cases found : matcher.find 0 with
  | none =>
    have none : sticky matcher 0 = none := sticky_none matcher fun m hit => by rw [found] at hit; cases hit
    rw [none,cut_of_le]
    · rfl
    · change limit < 0 ∨ (1 : Int) ≤ limit
      omega
  | some m =>
    have ordered := matcher.ordered found
    have inside := matcher.inside found
    have hit : sticky matcher 0 = some m := sticky_of_start matcher found (by omega)
    rw [hit,cut_of_le]
    · rfl
    · change limit < 0 ∨ (0 : Int) ≤ limit
      omega

/-- Whatever steps over characters and reads captures as it should splits as the specification says. -/
theorem splitFrom_symbolSplit {engine : Engine} (given : limit ≠ 0) (nonempty : ¬ subject.bytes.length = 0)
    (next : ∀ q,isCharBoundary subject.bytes q = true → q < subject.bytes.length → engine.next q = q + stepOver subject.points q)
    (spliced : ∀ q m,matcher.find q = some m → engine.spliced q m = captured subject.bytes m) :
    splitFrom engine matcher limit [] 0 0 = symbolSplit subject matcher limit := by
  rw [symbolSplit,if_neg nonempty]
  exact splitFrom_eq matcher (bounded_scalars subject.scalars) next spliced [] 0 0 (room_nil given) (decide_eq_true (.inl rfl))
    (Nat.zero_le _)

theorem nextCharBoundary_step (q : Nat) (boundary : isCharBoundary subject.bytes q = true) (inside : q < subject.bytes.length) :
    nextCharBoundary subject.bytes q = q + stepOver subject.points q := by
  have bounded := bounded_scalars subject.scalars
  obtain ⟨front,c,back,whole,rfl⟩ := boundary_cons bounded boundary inside
  rw [whole] at bounded
  rw [Subject.bytes,whole,nextCharBoundary_eq bounded,stepOver_front]

theorem charLen_step (q : Nat) (boundary : isCharBoundary subject.bytes q = true) (inside : q < subject.bytes.length) :
    q + charLen (subject.bytes.drop q) = q + stepOver subject.points q := by
  have scalars := subject.scalars
  obtain ⟨front,c,back,whole,rfl⟩ := boundary_cons (bounded_scalars scalars) boundary inside
  rw [whole] at scalars
  rw [Subject.bytes,whole,charLen_eq scalars,stepOver_front]

/-- With any limit but zero the three engines split as the specification does, and so does their
caller with every limit. -/
theorem splits_agree (limit : Int) (compiled : Compiled) :
    (limit ≠ 0 → specRegexSplit matcher limit = symbolSplit subject matcher limit ∧
      specFancyRegexSplit matcher limit = symbolSplit subject matcher limit ∧
      repeatMatcherSplit matcher limit = symbolSplit subject matcher limit) ∧
    jsStringSplitRegexN compiled matcher limit = symbolSplit subject matcher limit := by
  have standard (given : limit ≠ 0) : specRegexSplit matcher limit = symbolSplit subject matcher limit := by
    by_cases empty : subject.bytes.length = 0
    · rw [specRegexSplit,if_pos empty]
      exact symbolSplit_empty subject matcher given empty
    · rw [specRegexSplit,if_neg empty]
      refine splitFrom_symbolSplit subject matcher given empty (nextCharBoundary_step subject) fun q m found => ?_
      simp only [stdEngine,found]
  have fancy (given : limit ≠ 0) : specFancyRegexSplit matcher limit = symbolSplit subject matcher limit := by
    by_cases empty : subject.bytes.length = 0
    · rw [specFancyRegexSplit,if_neg given,if_pos empty]
      exact symbolSplit_empty subject matcher given empty
    · rw [specFancyRegexSplit,if_neg given,if_neg empty]
      exact splitFrom_symbolSplit subject matcher given empty (nextCharBoundary_step subject) fun _ _ _ => rfl
  have repeats (given : limit ≠ 0) : repeatMatcherSplit matcher limit = symbolSplit subject matcher limit := by
    by_cases empty : subject.bytes.length = 0
    · rw [repeatMatcherSplit,if_pos empty]
      exact symbolSplit_empty subject matcher given empty
    · rw [repeatMatcherSplit,if_neg empty]
      exact splitFrom_symbolSplit subject matcher given empty (charLen_step subject) fun _ _ _ => rfl
  refine ⟨fun given => ⟨standard given,fancy given,repeats given⟩,?_⟩
  unfold jsStringSplitRegexN
  split_ifs with zero
  · rw [symbolSplit,zero]
    rfl
  · cases compiled with
    | repeatMatcher => exact repeats zero
    | fancy => exact fancy zero
    | standard => exact standard zero

/-- A pattern that matches in one place. -/
def once (m : Found) (ordered : m.start ≤ m.stop) (inside : m.stop ≤ bytes.length)
    (boundaries : isCharBoundary bytes m.start = true ∧ isCharBoundary bytes m.stop = true) : Matcher bytes where
  find q := if q ≤ m.start then some m else none
  ahead found := by
    obtain ⟨reached,same⟩ := Option.ite_none_right_eq_some.mp found
    exact Option.some.inj same ▸ reached
  ordered found := by
    obtain ⟨-,same⟩ := Option.ite_none_right_eq_some.mp found
    exact Option.some.inj same ▸ ordered
  inside found := by
    obtain ⟨-,same⟩ := Option.ite_none_right_eq_some.mp found
    exact Option.some.inj same ▸ inside
  boundaries found := by
    obtain ⟨-,same⟩ := Option.ite_none_right_eq_some.mp found
    exact Option.some.inj same ▸ boundaries
  again found := by
    obtain ⟨-,same⟩ := Option.ite_none_right_eq_some.mp found
    obtain rfl := Option.some.inj same
    exact if_pos (Nat.le_refl _)
  leftmost found x m' _ before found' := by
    obtain ⟨-,same⟩ := Option.ite_none_right_eq_some.mp found
    obtain ⟨-,same'⟩ := Option.ite_none_right_eq_some.mp found'
    rw [← Option.some.inj same',Option.some.inj same]
    exact before.ne'
  exhausted found x m' later found' := by
    obtain ⟨reached,-⟩ := Option.ite_none_right_eq_some.mp found'
    rw [if_pos (later.trans reached)] at found
    cases found

def commaSubject : Subject := ⟨[0x61,0x2C,0x62],by decide⟩

/-- A comma that is captured. -/
def comma : Matcher commaSubject.bytes := once ⟨1,2,[some (1,2)]⟩ (by decide) (by decide) (by decide)

theorem stickyPieces_comma : stickyPieces commaSubject.points comma 0 0 = [some [0x61],some [0x2C],some [0x62]] := by
  have missed : sticky comma 0 = none := rfl
  have hit : sticky comma 1 = some ⟨1,2,[some (1,2)]⟩ := rfl
  have missed' : sticky comma 2 = none := rfl
  rw [stickyPieces,if_pos (by decide),missed]
  change stickyPieces commaSubject.points comma 0 1 = _
  rw [stickyPieces,if_pos (by decide),hit]
  change some [0x61] :: [some [0x2C]] ++ stickyPieces commaSubject.points comma 2 2 = _
  rw [stickyPieces,if_pos (by decide),missed']
  change some [0x61] :: [some [0x2C]] ++ stickyPieces commaSubject.points comma 2 3 = _
  rw [stickyPieces,if_neg (by decide)]
  rfl

theorem splits_agree_comma : specRegexSplit comma (-1) = [some [0x61],some [0x2C],some [0x62]] ∧
    jsStringSplitRegexN .repeatMatcher comma 2 = [some [0x61],some [0x2C]] := by
  have whole (limit : Int) : symbolSplit commaSubject comma limit = cut limit [some [0x61],some [0x2C],some [0x62]] := by
    rw [symbolSplit,if_neg (by decide),stickyPieces_comma]
  constructor
  · rw [((splits_agree commaSubject comma (-1) .standard).1 (by decide)).1,whole]
    rfl
  · rw [(splits_agree commaSubject comma 2 .repeatMatcher).2,whole]
    rfl
/-- A pattern that matches nowhere. -/
def never (bytes : List UInt8) : Matcher bytes where
  find _ := none
  ahead := by rintro _ _ ⟨⟩
  ordered := by rintro _ _ ⟨⟩
  inside := by rintro _ _ ⟨⟩
  boundaries := by rintro _ _ ⟨⟩
  again := by rintro _ _ ⟨⟩
  leftmost := by rintro _ _ ⟨⟩
  exhausted := by rintro _ _ _ _ _ ⟨⟩

/-- Only one of the engines looks at the limit before it answers for an empty subject. -/
theorem splits_differ : specRegexSplit (never (Subject.bytes ⟨[],by decide⟩)) 0 = [some []] ∧
    specFancyRegexSplit (never (Subject.bytes ⟨[],by decide⟩)) 0 = [] ∧
    symbolSplit ⟨[],by decide⟩ (never _) 0 = [] := by
  refine ⟨rfl,rfl,rfl⟩

end engines

end Perry.Strings
