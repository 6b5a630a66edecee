import Perry.Unicode.Lossy

/-! `utf8_stream_decoder.rs`: an incremental decoder that holds a sequence cut by the
end of a chunk until later chunks bring the bytes it still needs. -/
namespace Perry.Runtime.Utf8Stream

open Perry.Unicode

section decoder

/-- `lastChar` holds the `last_char_len` bytes in use. -/
structure Utf8StreamDecoder where
  lastNeed : Nat := 0
  lastTotal : Nat := 0
  lastChar : List UInt8 := []

/-- The length a lead byte announces; zero where nothing is held back. -/
def totalOf (b : UInt8) : Nat :=
  if b &&& 0xF8 = 0xF0 then 4
  else if b &&& 0xF0 = 0xE0 then 3
  else if b &&& 0xE0 = 0xC0 then 2
  else 0

/-- The walk back from the end: how many bytes to hold, and the total they announce. -/
def walkBack : Nat → List UInt8 → Option (Nat × Nat)
  | _,[] => none
  | steps,b :: before =>
    if b &&& 0xC0 = 0x80 then walkBack (steps + 1) before
    else if steps + 1 < totalOf b then some (steps + 1,totalOf b)
    else none

def utf8CheckIncomplete (state : Utf8StreamDecoder) (buf : List UInt8) : Utf8StreamDecoder × Nat :=
  match walkBack 0 (buf.reverse.take 3) with
  | none => (state,0)
  | some (steps,total) =>
    ({ lastNeed := total - steps,lastTotal := total,lastChar := buf.drop (buf.length - steps) },steps)

def writeUtf8Tail (state : Utf8StreamDecoder) (bytes : List UInt8) : Utf8StreamDecoder × List Nat :=
  if bytes.isEmpty then (state,[])
  else
    let (state,trail) := utf8CheckIncomplete state bytes
    (state,fromUtf8Lossy (bytes.take (bytes.length - trail)))

def writeUtf8 (state : Utf8StreamDecoder) (bytes : List UInt8) : Utf8StreamDecoder × List Nat :=
  if 0 < state.lastNeed then
    if bytes.length < state.lastNeed then
      if state.lastChar.length + bytes.length ≤ 4 then
        ({ state with lastChar := state.lastChar ++ bytes,lastNeed := state.lastNeed - bytes.length },[])
      else ({},[])
    else
      let takeNew := state.lastTotal - state.lastChar.length
      let out := match fromUtf8 (state.lastChar ++ bytes.take takeNew) with
        | some s => s
        | none => [replacement]
      let (state,rest) := writeUtf8Tail {} (bytes.drop takeNew)
      (state,out ++ rest)
  else writeUtf8Tail state bytes

def endUtf8 (state : Utf8StreamDecoder) (bytes : Option (List UInt8)) : Utf8StreamDecoder × List Nat :=
  let (state,out) := match bytes with
    | some b => writeUtf8 state b
    | none => (state,[])
  if 0 < state.lastNeed then ({},out ++ [replacement]) else (state,out)

/-- The outputs of a write for each chunk and of the end, one after the other. -/
def stream : Utf8StreamDecoder → List (List UInt8) → List Nat
  | state,[] => (endUtf8 state none).2
  | state,chunk :: chunks => (writeUtf8 state chunk).2 ++ stream (writeUtf8 state chunk).1 chunks

def decode (chunks : List (List UInt8)) : List Nat := stream {} chunks

example : decode [[0xE2,0x82],[],[0xAC,0x41]] = [0x20AC,0x41] := by decide

end decoder

section masks

theorem totalOf_eq (b : UInt8) : totalOf b = announced b := by
  revert b
  exact forall_byte (by decide +kernel)

theorem mask_eq (b : UInt8) : (b &&& 0xC0 = 0x80) ↔ isContinuation b = true := by
  revert b
  exact forall_byte (by decide +kernel)

theorem walkBack_continuation {conts : List UInt8} (continuation : ∀ x ∈ conts, isContinuation x = true) (steps : Nat)
    (before : List UInt8) : walkBack steps (conts ++ before) = walkBack (steps + conts.length) before := by
  induction conts generalizing steps with
  | nil => rfl
  | cons b conts ih =>
    obtain ⟨first,others⟩ := List.forall_mem_cons.mp continuation
    rw [List.cons_append,walkBack,if_pos ((mask_eq b).mpr first),ih others,List.length_cons]
    congr 1
    omega

theorem walkBack_all {bytes : List UInt8} (continuation : ∀ x ∈ bytes, isContinuation x = true) (steps : Nat) :
    walkBack steps bytes = none := by
  have walked := walkBack_continuation continuation steps []
  rwa [List.append_nil,walkBack] at walked

theorem walkBack_lead (before : List UInt8) {lead : UInt8} {conts : List UInt8} (starts : isContinuation lead = false)
    (continuation : ∀ x ∈ conts, isContinuation x = true) :
    walkBack 0 ((before ++ lead :: conts).reverse.take 3) =
      if conts.length + 1 < announced lead then some (conts.length + 1,announced lead) else none := by
  have all : ∀ x ∈ conts.reverse, isContinuation x = true := fun x member => continuation x (List.mem_reverse.mp member)
  have shape : (before ++ lead :: conts).reverse = conts.reverse ++ lead :: before.reverse := by simp
  have limit := announced_le lead
  rw [shape]
  by_cases near : conts.length ≤ 2
  · obtain ⟨n,three⟩ : ∃ n, 3 = conts.reverse.length + (n + 1) := ⟨2 - conts.length,by rw [List.length_reverse]; omega⟩
    rw [three,List.take_length_add_append,walkBack_continuation all,List.take_succ_cons,walkBack,
      if_neg (by rw [mask_eq,starts]; decide),totalOf_eq,List.length_reverse,Nat.zero_add]
  · rw [if_neg (by omega),List.take_append_of_le_length (by rw [List.length_reverse]; omega)]
    exact walkBack_all (fun x member => all x (List.mem_of_mem_take member)) 0

end masks

section writes

/-- The decoder while it holds part of a sequence. -/
def holding (total : Nat) (held : List UInt8) : Utf8StreamDecoder :=
  { lastNeed := total - held.length,lastTotal := total,lastChar := held }

/-- What the held bytes become once their number is complete. -/
def completed (bytes : List UInt8) : List Nat := (fromUtf8 bytes).getD [replacement]

theorem write_whole {bytes : List UInt8} (whole : ¬Truncated bytes) : writeUtf8 {} bytes = ({},fromUtf8Lossy bytes) := by
  have none : walkBack 0 (bytes.reverse.take 3) = none := by
    obtain all | ⟨before,lead,conts,rfl,starts,continuation⟩ := split_lead bytes
    · exact walkBack_all (fun x member => all x (List.mem_reverse.mp (List.mem_of_mem_take member))) 0
    · rw [walkBack_lead before starts continuation,
        if_neg fun short => whole ⟨before,lead,conts,rfl,continuation,short⟩]
  rw [writeUtf8,if_neg (Nat.lt_irrefl 0),writeUtf8Tail,utf8CheckIncomplete,none]
  cases bytes <;> simp [fromUtf8Lossy]

theorem write_truncated (before : List UInt8) {lead : UInt8} {conts : List UInt8}
    (continuation : ∀ x ∈ conts, isContinuation x = true) (short : conts.length + 1 < announced lead) :
    writeUtf8 {} (before ++ lead :: conts) = (holding (announced lead) (lead :: conts),fromUtf8Lossy before) := by
  have walked := walkBack_lead before (lead_not_continuation short) continuation
  rw [if_pos short] at walked
  have cut : (before ++ lead :: conts).length - (conts.length + 1) = before.length := by
    rw [List.length_append,List.length_cons,Nat.add_sub_cancel]
  rw [writeUtf8,if_neg (Nat.lt_irrefl 0),writeUtf8Tail,if_neg (by simp),utf8CheckIncomplete,walked]
  dsimp only
  rw [cut,List.take_left,List.drop_left]
  rfl

theorem write_completing {total : Nat} {held bytes : List UInt8} (short : held.length < total)
    (enough : total - held.length ≤ bytes.length) : writeUtf8 (holding total held) bytes =
      ((writeUtf8 {} (bytes.drop (total - held.length))).1,
        completed (held ++ bytes.take (total - held.length)) ++ (writeUtf8 {} (bytes.drop (total - held.length))).2) := by
  rw [writeUtf8,holding,if_pos (Nat.sub_pos_of_lt short),if_neg (Nat.not_lt_of_le enough),writeUtf8,
    if_neg (Nat.lt_irrefl 0),completed]
  dsimp only
  cases fromUtf8 (held ++ bytes.take (total - held.length)) <;> rfl

theorem write_holding {total : Nat} {held bytes : List UInt8} (short : held.length + bytes.length < total)
    (small : total ≤ 4) : writeUtf8 (holding total held) bytes = (holding total (held ++ bytes),[]) := by
  rw [writeUtf8,holding,if_pos (by dsimp only; omega),if_pos (by dsimp only; omega),if_pos (by dsimp only; omega),holding,
    List.length_append,Nat.sub_sub]

end writes

section streams

theorem stream_cons (state : Utf8StreamDecoder) (chunk : List UInt8) (chunks : List (List UInt8)) :
    stream state (chunk :: chunks) = (writeUtf8 state chunk).2 ++ stream (writeUtf8 state chunk).1 chunks := rfl

theorem stream_completing {total : Nat} {held bytes : List UInt8} (short : held.length < total)
    (enough : total - held.length ≤ bytes.length) (chunks : List (List UInt8)) :
    stream (holding total held) (bytes :: chunks) = completed (held ++ bytes.take (total - held.length)) ++
      stream {} (bytes.drop (total - held.length) :: chunks) := by
  rw [stream_cons,stream_cons,write_completing short enough,List.append_assoc]

/-- A sequence still held at the end is one U+FFFD, whatever its bytes. -/
theorem stream_unfinished {total : Nat} (small : total ≤ 4) (chunks : List (List UInt8)) {held : List UInt8}
    (short : held.length + chunks.flatten.length < total) : stream (holding total held) chunks = [replacement] := by
  induction chunks generalizing held with
  | nil =>
    rw [stream,endUtf8,holding]
    dsimp only
    rw [if_pos (Nat.sub_pos_of_lt (by simpa using short))]
    rfl
  | cons chunk chunks ih =>
    rw [List.flatten_cons,List.length_append] at short
    rw [stream_cons,write_holding (by omega) small,List.nil_append]
    exact ih (by rw [List.length_append]; omega)

/-- The bytes that a held sequence still needs are taken from the next chunks, and the
decoding starts afresh behind them. -/
theorem stream_held {total : Nat} (small : total ≤ 4) (chunks : List (List UInt8)) {held : List UInt8}
    (short : held.length < total) (enough : total ≤ held.length + chunks.flatten.length) :
    ∃ later, later.length ≤ chunks.length ∧ later.flatten = chunks.flatten.drop (total - held.length) ∧
      stream (holding total held) chunks =
        completed (held ++ chunks.flatten.take (total - held.length)) ++ stream {} later := by
  induction chunks generalizing held with
  | nil =>
    rw [List.flatten_nil,List.length_nil] at enough
    omega
  | cons chunk chunks ih =>
    rw [List.flatten_cons,List.length_append] at enough
    by_cases here : total - held.length ≤ chunk.length
    · refine ⟨chunk.drop (total - held.length) :: chunks,by simp,?_,?_⟩
      · rw [List.flatten_cons,List.flatten_cons,List.drop_append_of_le_length here]
      · rw [stream_completing short here,List.flatten_cons,List.take_append_of_le_length here]
    · have short' : (held ++ chunk).length < total := by
        rw [List.length_append]
        omega
      obtain ⟨later,fewer,rest,streamed⟩ := ih short' (by rw [List.length_append]; omega)
      have need : total - held.length = chunk.length + (total - (held ++ chunk).length) := by
        rw [List.length_append]
        omega
      refine ⟨later,by rw [List.length_cons]; omega,?_,?_⟩
      · rw [rest,List.flatten_cons,need,List.drop_length_add_append]
      · rw [stream_cons,write_holding (by omega) small,List.nil_append,streamed,List.flatten_cons,need,
          List.take_length_add_append,List.append_assoc]

theorem decode_singleton (bytes : List UInt8) : decode [bytes] = lossyAtEnd bytes := by
  rw [decode,stream_cons]
  by_cases truncated : Truncated bytes
  · obtain ⟨before,lead,conts,rfl,continuation,short⟩ := truncated
    rw [write_truncated before continuation short,lossyAtEnd_truncated before continuation short]
    dsimp only
    rw [stream_unfinished (announced_le lead) [] (by simpa using short)]
  · rw [write_whole truncated,lossyAtEnd_whole truncated]
    exact List.append_nil _

end streams

section condition

/-- The decoder takes the announced bytes for one U+FFFD. The parts of the whole input
meet that again at the end of the continuation bytes that follow, with as many U+FFFDs. -/
def EvensOut (lead : UInt8) (rest : List UInt8) : Prop :=
  let taken := (lead :: rest).take (announced lead)
  let conts := ((lead :: rest).drop (announced lead)).takeWhile isContinuation
  let window := taken ++ conts
  (if window.length = rest.length + 1 then lossyAtEnd window else fromUtf8Lossy window) =
    List.replicate (conts.length + 1) replacement

/-- Holding this lead byte back does not change what is decoded. -/
def HoldsSafely (lead : UInt8) (rest : List UInt8) : Prop :=
  if rest.length + 1 < announced lead then ∀ x ∈ rest, isContinuation x = true
  else (fromUtf8 ((lead :: rest).take (announced lead))).isSome = true ∨ EvensOut lead rest

/-- Every lead byte can be held back. -/
def CutsSafely (bytes : List UInt8) : Prop :=
  ∀ before lead rest, bytes = before ++ lead :: rest → 0 < announced lead → HoldsSafely lead rest

theorem CutsSafely.drop {bytes : List UInt8} (safe : CutsSafely bytes) (n : Nat) : CutsSafely (bytes.drop n) := by
  intro before lead rest shape announces
  refine safe (bytes.take n ++ before) lead rest ?_ announces
  rw [List.append_assoc,← shape,List.take_append_drop]

variable {lead : UInt8} {rest : List UInt8}

theorem separate_of_starts {front back : List UInt8} {b : UInt8} (starts : isContinuation b = false) :
    Separate front (b :: back) := fun _ => ⟨b,back,rfl,starts⟩

/-- A first byte that is no continuation byte, and what follows the continuation bytes behind it. -/
theorem split_continuation (bytes : List UInt8) : bytes.dropWhile isContinuation = [] ∨
    ∃ b back, bytes.dropWhile isContinuation = b :: back ∧ isContinuation b = false := by
  cases shape : bytes.dropWhile isContinuation with
  | nil => exact .inl rfl
  | cons b back =>
    have starts := List.head?_dropWhile_not isContinuation bytes
    rw [shape,List.head?_cons] at starts
    exact .inr ⟨b,back,rfl,by simpa using starts⟩

theorem holdsSafely_short (short : rest.length + 1 < announced lead) :
    HoldsSafely lead rest ↔ lossyAtEnd (lead :: rest) = [replacement] := by
  rw [HoldsSafely,if_pos short]
  constructor
  · intro continuation
    exact lossyAtEnd_truncated [] continuation short
  · intro single
    obtain none | ⟨b,back,shape,starts⟩ := split_continuation rest
    · exact List.dropWhile_eq_nil_iff.mp none
    · have whole : lead :: rest = (lead :: rest.takeWhile isContinuation) ++ b :: back := by
        rw [List.cons_append,← shape,List.takeWhile_append_dropWhile]
      rw [whole,lossyAtEnd_append (separate_of_starts starts)] at single
      obtain ⟨c,cs,first⟩ := List.exists_cons_of_ne_nil (fromUtf8Lossy_cons_ne_nil lead (rest.takeWhile isContinuation))
      obtain ⟨d,ds,second⟩ := List.exists_cons_of_ne_nil (lossyAtEnd_cons_ne_nil b back)
      rw [first,second] at single
      simp at single

/-- A well-formed sequence is decoded alike with and without what follows it. -/
theorem lossyAtEnd_wellFormed {s : List Nat} (long : announced lead ≤ rest.length + 1) (announces : 0 < announced lead)
    (decoded : fromUtf8 ((lead :: rest).take (announced lead)) = some s) :
    lossyAtEnd (lead :: rest) = s ++ lossyAtEnd ((lead :: rest).drop (announced lead)) := by
  obtain ⟨n,total⟩ : ∃ n, announced lead = n + 1 := ⟨announced lead - 1,by omega⟩
  have split := List.take_append_drop (announced lead) (lead :: rest)
  rw [total,List.take_succ_cons] at decoded split
  rw [total] at long ⊢
  have length : (rest.take n).length = n := List.length_take_of_le (by omega)
  have wellFormed := continuation_of_wellFormed (by rw [length,total]) (by rw [decoded]; rfl)
  have whole : ¬Truncated (lead :: rest.take n) := not_truncated wellFormed (by rw [length,total])
  have same : s = fromUtf8Lossy (lead :: rest.take n) := by
    rw [fromUtf8] at decoded
    split at decoded
    · exact (Option.some.inj decoded).symm
    · cases decoded
  rw [same,← lossyAtEnd_append fun truncated => absurd truncated whole,split]

/-- Over the window that the continuation bytes behind the taken ones close, both
decodings have run to the same byte. -/
theorem evensOut_iff (long : announced lead ≤ rest.length + 1) : EvensOut lead rest ↔
    replacement :: lossyAtEnd ((lead :: rest).drop (announced lead)) = lossyAtEnd (lead :: rest) := by
  have length : ((lead :: rest).take (announced lead)).length = announced lead :=
    List.length_take_of_le (by rwa [List.length_cons])
  have whole := List.take_append_drop (announced lead) (lead :: rest)
  rw [EvensOut]
  generalize (lead :: rest).take (announced lead) = taken at length whole ⊢
  generalize (lead :: rest).drop (announced lead) = after at whole ⊢
  have split := List.takeWhile_append_dropWhile (p := isContinuation) (l := after)
  have continuation : ∀ x ∈ after.takeWhile isContinuation, isContinuation x = true :=
    fun x member => List.mem_takeWhile_imp member
  have ends := split_continuation after
  generalize after.takeWhile isContinuation = conts at split continuation ⊢
  generalize after.dropWhile isContinuation = back at split ends ⊢
  have size : taken.length + (conts.length + back.length) = rest.length + 1 := by
    rw [← List.length_append,split,← List.length_append,whole,List.length_cons]
  rw [← whole,← split]
  obtain rfl | ⟨b,back,rfl,starts⟩ := ends
  · rw [if_pos (by rw [List.length_append,← size]; rfl),List.append_nil,lossyAtEnd_continuation continuation,eq_comm]
    rfl
  · rw [if_neg (by rw [List.length_append,← size,List.length_cons]; omega),
      lossyAtEnd_append (separate_of_starts starts),fromUtf8Lossy_continuation continuation,← List.append_assoc,
      lossyAtEnd_append (separate_of_starts starts),← List.cons_append,List.append_cancel_right_eq,eq_comm]
    rfl

theorem holdsSafely_long (announces : 0 < announced lead) (long : announced lead ≤ rest.length + 1) :
    HoldsSafely lead rest ↔ completed ((lead :: rest).take (announced lead)) ++
      lossyAtEnd ((lead :: rest).drop (announced lead)) = lossyAtEnd (lead :: rest) := by
  rw [HoldsSafely,if_neg (Nat.not_lt_of_le long),completed,evensOut_iff long]
  cases decoded : fromUtf8 ((lead :: rest).take (announced lead)) with
  | some s => exact iff_of_true (.inl rfl) (lossyAtEnd_wellFormed long announces decoded).symm
  | none => exact ⟨fun either => either.resolve_left (by simp),.inr⟩

end condition

section chunks

/-- Where every lead byte can be held back, the chunks do not matter. -/
theorem stream_eq (chunks : List (List UInt8)) (safe : CutsSafely chunks.flatten) :
    stream {} chunks = lossyAtEnd chunks.flatten := by
  obtain ⟨n,size⟩ : ∃ n, chunks.flatten.length + chunks.length = n := ⟨_,rfl⟩
  induction n using Nat.strong_induction_on generalizing chunks with
  | _ n ih =>
    cases chunks with
    | nil => rfl
    | cons chunk chunks =>
      rw [List.flatten_cons] at safe size ⊢
      rw [List.length_append,List.length_cons] at size
      rw [stream_cons]
      by_cases truncated : Truncated chunk
      · obtain ⟨before,lead,conts,rfl,continuation,short⟩ := truncated
        have holds := safe before lead (conts ++ chunks.flatten) (by rw [List.append_assoc,List.cons_append]) (by omega)
        rw [write_truncated before continuation short,List.append_assoc,List.cons_append,
          lossyAtEnd_append (separate_of_starts (lead_not_continuation short))]
        dsimp only
        congr 1
        by_cases unfinished : conts.length + 1 + chunks.flatten.length < announced lead
        · have remaining : (conts ++ chunks.flatten).length + 1 < announced lead := by
            rw [List.length_append]
            omega
          rw [stream_unfinished (announced_le lead) chunks (by rwa [List.length_cons]),
            (holdsSafely_short remaining).mp holds]
        · have enough : announced lead ≤ (conts ++ chunks.flatten).length + 1 := by
            rw [List.length_append]
            omega
          have held : (lead :: conts).length < announced lead := short
          obtain ⟨later,fewer,rest,streamed⟩ := stream_held (announced_le lead) chunks held
            (by rw [List.length_cons]; omega)
          have taken : lead :: conts ++ chunks.flatten.take (announced lead - (lead :: conts).length) =
              (lead :: (conts ++ chunks.flatten)).take (announced lead) := by
            rw [← List.cons_append,List.take_append,List.take_of_length_le held.le]
          have dropped : chunks.flatten.drop (announced lead - (lead :: conts).length) =
              (lead :: (conts ++ chunks.flatten)).drop (announced lead) := by
            rw [← List.cons_append,List.drop_append,List.drop_eq_nil_of_le held.le,List.nil_append]
          have remaining : later.flatten.length ≤ chunks.flatten.length := by
            rw [rest,List.length_drop]
            omega
          have after : CutsSafely later.flatten := by
            rw [rest,dropped]
            have kept := safe.drop (before.length + announced lead)
            rwa [List.append_assoc,List.drop_length_add_append,List.cons_append] at kept
          rw [streamed,ih _ (by rw [← size]; omega) later after rfl,taken,rest,dropped]
          exact (holdsSafely_long (by omega) enough).mp holds
      · have after : CutsSafely chunks.flatten := by
          have kept := safe.drop chunk.length
          rwa [List.drop_left] at kept
        rw [write_whole truncated,ih _ (by rw [← size]; omega) chunks after rfl,
          lossyAtEnd_append fun wrong => absurd wrong truncated]

theorem decode_eq {bytes : List UInt8} (safe : CutsSafely bytes) {chunks : List (List UInt8)}
    (whole : chunks.flatten = bytes) : decode chunks = decode [bytes] := by
  subst whole
  rw [decode_singleton,decode,stream_eq chunks safe]

/-- The cut behind a lead byte shows what holding it back does. -/
theorem decode_cut (before : List UInt8) {lead : UInt8} (rest : List UInt8) (announces : 0 < announced lead) :
    decode [before ++ [lead],rest] = fromUtf8Lossy before ++
      if rest.length + 1 < announced lead then [replacement]
      else completed ((lead :: rest).take (announced lead)) ++ lossyAtEnd ((lead :: rest).drop (announced lead)) := by
  have several : 1 < announced lead := lt_of_le_of_ne announces (announced_ne_one lead).symm
  rw [decode,stream_cons,write_truncated before (List.forall_mem_nil _) several]
  dsimp only
  congr 1
  split
  · next short => exact stream_unfinished (announced_le lead) [rest] (by simpa [Nat.add_comm] using short)
  · next long =>
    obtain ⟨n,total⟩ : ∃ n, announced lead = n + 1 := ⟨announced lead - 1,by omega⟩
    have enough : announced lead - [lead].length ≤ rest.length := by
      rw [List.length_singleton]
      omega
    have completing := stream_completing (show [lead].length < announced lead from several) enough []
    rw [completing,← decode,decode_singleton,List.length_singleton,total,Nat.add_sub_cancel]
    rfl

/-- Decoding does not depend on the chunks exactly when every lead byte can be held back. -/
theorem decode_iff (bytes : List UInt8) :
    (∀ chunks : List (List UInt8), chunks.flatten = bytes → decode chunks = decode [bytes]) ↔ CutsSafely bytes := by
  constructor
  · rintro same before lead rest rfl announces
    have starts := lead_not_continuation announces
    have cut := same [before ++ [lead],rest] (by simp)
    rw [decode_cut before rest announces,decode_singleton,lossyAtEnd_append (separate_of_starts starts),
      List.append_cancel_left_eq] at cut
    by_cases short : rest.length + 1 < announced lead
    · rw [if_pos short] at cut
      exact (holdsSafely_short short).mpr cut.symm
    · rw [if_neg short] at cut
      exact (holdsSafely_long announces (Nat.not_lt.mp short)).mpr cut
  · intro safe chunks whole
    exact decode_eq safe whole

/-- Encoded text can be cut anywhere. -/
theorem cutsSafely_encoded {text : List Nat} (scalars : ∀ c ∈ text, isScalar c = true) :
    CutsSafely (text.flatMap encodeUtf8) := by
  induction text with
  | nil =>
    intro before lead rest shape
    simp at shape
  | cons c text ih =>
    obtain ⟨first,others⟩ := List.forall_mem_cons.mp scalars
    obtain ⟨start,conts,encoded,spells⟩ := encodeUtf8_spells first
    intro before lead rest shape announces
    rw [List.flatMap_cons,encoded,List.cons_append] at shape
    cases before with
    | nil =>
      rw [List.nil_append,List.cons.injEq] at shape
      obtain ⟨rfl,rfl⟩ := shape
      have total : announced start = conts.length + 1 := by
        have total := spells.announces
        split at total
        · omega
        · exact total
      rw [HoldsSafely,total,if_neg (by rw [List.length_append]; omega),List.take_succ_cons,List.take_left,← encoded,
        fromUtf8_encodeUtf8 first]
      exact .inl rfl
    | cons b before =>
      rw [List.cons_append,List.cons.injEq] at shape
      obtain ⟨more,rfl,tail⟩ | ⟨more,rfl,tail⟩ := List.append_eq_append_iff.mp shape.2
      · exact ih others more lead rest tail announces
      · cases more with
        | nil => exact ih others [] lead rest tail.symm announces
        | cons x more =>
          have same : lead = x := (List.cons.inj tail).1
          have continuation := spells.continuation lead (by simp [same])
          rw [announced_continuation lead continuation] at announces
          exact absurd announces (Nat.lt_irrefl 0)

/-- Encoded text comes back as it was, whatever the chunks. -/
theorem decode_encoded {text : List Nat} (scalars : ∀ c ∈ text, isScalar c = true) {chunks : List (List UInt8)}
    (whole : chunks.flatten = text.flatMap encodeUtf8) : decode chunks = text := by
  rw [decode_eq (cutsSafely_encoded scalars) whole,decode_singleton,lossyAtEnd_encoded scalars]

/-- The chunks do not matter, and encoded text comes back, exactly when every lead byte can be held back. -/
theorem decode_chunks_iff (bytes : List UInt8) :
    ((∀ chunks : List (List UInt8), chunks.flatten = bytes → decode chunks = decode [bytes]) ∧
      ∀ text : List Nat, (∀ c ∈ text, isScalar c = true) → text.flatMap encodeUtf8 = bytes →
        ∀ chunks : List (List UInt8), chunks.flatten = bytes → decode chunks = text) ↔ CutsSafely bytes := by
  constructor
  · rintro ⟨same,-⟩
    exact (decode_iff bytes).mp same
  · intro safe
    refine ⟨(decode_iff bytes).mpr safe,?_⟩
    rintro text scalars rfl chunks whole
    exact decode_encoded scalars whole

/-- A lead byte at the end of a chunk takes the text after it along. -/
theorem ascii_swallowed : decode [[0xE2,0x41,0x42]] = [replacement,0x41,0x42] ∧
    decode [[0xE2],[0x41,0x42]] = [replacement] := by decide

end chunks

end Perry.Runtime.Utf8Stream
