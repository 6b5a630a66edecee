import Perry.Runtime.ClusterReplies

/-! A worker's reader handles the messages of its channel one by one, wherever the stream
is cut, as long as no message is mistaken for another kind. -/
namespace Perry.Runtime.Cluster

open Perry.Unicode Perry.Machine Perry.Machine.Framing

section frames

variable {φ : Type}

/-- A frame of the channel: one that passes a descriptor, or one with a body. -/
inductive Frame (φ : Type) where
  | descriptor (keyId : Nat)
  | body (effects : List (Effect φ))

def Frame.takes : Frame φ → Bool
  | .descriptor _ => true
  | .body _ => false

/-- What is done with a frame and the descriptor it got. -/
def Frame.effects : Frame φ × Option φ → List (Effect φ)
  | (.descriptor keyId,fd) => (fd.map (Effect.route keyId)).toList
  | (.body effects,_) => effects

def nextFrame (body : Bytes → Option (List (Effect φ) × Nat)) (acc : Bytes) : Option (Frame φ × Nat) :=
  if acc = [] then none
  else if acc.head? = some fdFrameTag then
    if acc.length < fdFrameLen then none else some (.descriptor (fromBe ((acc.drop 1).take 4)),fdFrameLen)
  else (body acc).map fun found => (.body found.1,found.2)

/-- A body is found once all its bytes are there, and then stays. -/
structure Lawful (body : Bytes → Option (List (Effect φ) × Nat)) : Prop where
  sized : ∀ {acc effects k}, acc ≠ [] → body acc = some (effects,k) → 0 < k ∧ k ≤ acc.length
  stable : ∀ {acc found} more, body acc = some found → body (acc ++ more) = some found

variable {body : Bytes → Option (List (Effect φ) × Nat)}

def framing (lawful : Lawful body) : Framing UInt8 (Frame φ) where
  next := nextFrame body
  sized := by
    intro acc i k first
    rw [nextFrame] at first
    split at first
    · exact absurd first.symm (Option.some_ne_none _)
    · next nonempty =>
      split at first
      · split at first
        · exact absurd first.symm (Option.some_ne_none _)
        · next long =>
          rw [Option.some.injEq,Prod.mk.injEq] at first
          rw [← first.2]
          exact ⟨by decide,by omega⟩
      · obtain ⟨found,inside,same⟩ := Option.map_eq_some_iff.mp first
        rw [Prod.mk.injEq] at same
        rw [← same.2]
        exact lawful.sized nonempty inside
  stable := by
    intro acc i k more first
    rw [nextFrame] at first ⊢
    split at first
    · exact absurd first.symm (Option.some_ne_none _)
    · next nonempty =>
      obtain ⟨b,bs,rfl⟩ := List.exists_cons_of_ne_nil nonempty
      rw [if_neg (by rw [List.cons_append]; exact List.cons_ne_nil _ _),List.cons_append,List.head?_cons]
      rw [List.head?_cons] at first
      split at first
      · next tag =>
        split at first
        · exact absurd first.symm (Option.some_ne_none _)
        · next long =>
          rw [if_pos tag,if_neg (by rw [List.length_cons,List.length_append]; rw [List.length_cons] at long; omega),← first]
          rw [List.length_cons,fdFrameLen] at long
          rw [List.drop_succ_cons,List.drop_zero,List.drop_succ_cons,List.drop_zero,List.take_append_of_le_length (by omega)]
      · next other =>
        obtain ⟨found,inside,same⟩ := Option.map_eq_some_iff.mp first
        rw [if_neg other,← List.cons_append,lawful.stable more inside,← same]
        rfl

theorem framing_next (lawful : Lawful body) (acc : Bytes) : (framing lawful).next acc = nextFrame body acc := rfl

section drain

variable {acc : Bytes} {fuel k : Nat} {i : Frame φ}

theorem drainFrames_none (unfinished : nextFrame body acc = none) (fdQueue : List φ) :
    drainFrames body (fuel + 1) acc fdQueue = ([],acc,fdQueue) := by
  rw [nextFrame] at unfinished
  rw [drainFrames]
  split
  · rfl
  · next nonempty =>
    rw [if_neg nonempty] at unfinished
    split
    · next tag =>
      rw [if_pos tag] at unfinished
      split
      · rfl
      · next long =>
        rw [if_neg long] at unfinished
        exact absurd unfinished (Option.some_ne_none _)
    · next other =>
      rw [if_neg other,Option.map_eq_none_iff] at unfinished
      rw [unfinished]

theorem drainFrames_some (first : nextFrame body acc = some (i,k)) (fdQueue : List φ) : drainFrames body (fuel + 1) acc fdQueue =
    ((attach Frame.takes [i] fdQueue).flatMap Frame.effects ++
      (drainFrames body fuel (acc.drop k) (fdQueue.drop ([i].countP Frame.takes))).1,
        (drainFrames body fuel (acc.drop k) (fdQueue.drop ([i].countP Frame.takes))).2) := by
  rw [nextFrame] at first
  rw [drainFrames]
  split at first
  · exact absurd first.symm (Option.some_ne_none _)
  · next nonempty =>
    rw [if_neg nonempty]
    split at first
    · next tag =>
      rw [if_pos tag]
      split at first
      · exact absurd first.symm (Option.some_ne_none _)
      · next long =>
        rw [Option.some.injEq,Prod.mk.injEq] at first
        obtain ⟨rfl,rfl⟩ := first
        have alone (keyId : Nat) : attach Frame.takes [Frame.descriptor (φ := φ) keyId] fdQueue =
          [(.descriptor keyId,fdQueue.head?)] := rfl
        have taken (keyId : Nat) : [Frame.descriptor (φ := φ) keyId].countP Frame.takes = 1 := rfl
        rw [if_neg long,alone,taken,List.flatMap_singleton,List.drop_one (l := fdQueue),Frame.effects]
    · next other =>
      obtain ⟨found,inside,same⟩ := Option.map_eq_some_iff.mp first
      rw [Prod.mk.injEq] at same
      obtain ⟨rfl,rfl⟩ := same
      have alone : attach Frame.takes [.body found.1] fdQueue = [(.body found.1,none)] := rfl
      rw [if_neg other,inside,alone,List.flatMap_singleton]
      rfl

end drain

/-- The loop handles the frames of what it holds, in order. -/
theorem drainFrames_cut (lawful : Lawful body) {acc rest : Bytes} {items : List (Frame φ)} (cut : Cut (framing lawful) acc items rest)
    {fuel : Nat} (enough : acc.length ≤ fuel) (fdQueue : List φ) : drainFrames body fuel acc fdQueue =
      ((attach Frame.takes items fdQueue).flatMap Frame.effects,rest,fdQueue.drop (items.countP Frame.takes)) := by
  induction fuel generalizing acc items fdQueue with
  | zero =>
    have empty := List.eq_nil_of_length_eq_zero (Nat.le_zero.mp enough)
    subst empty
    obtain ⟨rfl,rfl⟩ := cut.unique (.short next_nil)
    rfl
  | succ fuel ih =>
    cases cut with
    | short unfinished => exact drainFrames_none unfinished fdQueue
    | @frame _ i k items _ first others =>
      have sized := (framing lawful).sized first
      rw [drainFrames_some first,ih others (by rw [List.length_drop]; omega),← List.flatMap_append,← attach_append,List.drop_drop,
        ← List.countP_append]
      rfl

theorem workerRecvLoop_received (lawful : Lawful body) (acc : Bytes) (fdQueue : List φ) (pieces : List (List φ × Bytes)) :
    ∃ events, Received (framing lawful) Frame.takes acc fdQueue pieces events ∧
      workerRecvLoop (fun acc fdQueue => drainFrames body acc.length acc fdQueue) acc fdQueue pieces =
        events.flatMap Frame.effects := by
  induction pieces generalizing acc fdQueue with
  | nil => exact ⟨[],.nothing,rfl⟩
  | cons piece pieces ih =>
    obtain ⟨fds,data⟩ := piece
    obtain ⟨items,rest,cut⟩ := exists_cut (framing lawful) (acc ++ data)
    obtain ⟨events,received,run⟩ := ih rest ((fdQueue ++ fds).drop (items.countP Frame.takes))
    refine ⟨_,.piece cut received,?_⟩
    rw [workerRecvLoop,drainFrames_cut lawful cut le_rfl,List.flatMap_append,← run]

/-- A loop over a lawful body handles messages that read back one by one. -/
theorem workerRecvLoop_messages {μ : Type} (lawful : Lawful body) {write : μ → Bytes} {fds : μ → List φ} {frame : μ → Frame φ}
    {ms : List μ} {received : List (List φ × Bytes)} (reads : ∀ m ∈ ms, Reads (framing lawful) write frame m)
    (fits : ∀ m ∈ ms, (fds m).length = if (frame m).takes then 1 else 0) (delivers : Delivers write fds ms received) :
    workerRecvLoop (fun acc fdQueue => drainFrames body acc.length acc fdQueue) [] [] received =
      ms.flatMap fun m => Frame.effects (frame m,(fds m).head?) := by
  obtain ⟨events,run,handled⟩ := workerRecvLoop_received lawful [] [] received
  rw [handled,run.messages reads fits delivers,List.flatMap_map]

/-- Whatever is handled is part of a body that was found somewhere, or a routed descriptor. -/
theorem workerRecvLoop_source (lawful : Lawful body) (received : List (List φ × Bytes)) {effect : Effect φ}
    (handled : effect ∈ workerRecvLoop (fun acc fdQueue => drainFrames body acc.length acc fdQueue) [] [] received) :
    (∃ keyId fd, effect = .route keyId fd) ∨
      ∃ acc effects k, acc.head? ≠ some fdFrameTag ∧ body acc = some (effects,k) ∧ effect ∈ effects := by
  obtain ⟨events,run,all⟩ := workerRecvLoop_received lawful [] [] received
  rw [all] at handled
  obtain ⟨⟨frame,fd⟩,event,inside⟩ := List.mem_flatMap.mp handled
  obtain ⟨acc,k,first⟩ := run.source _ event
  cases frame with
  | descriptor keyId =>
    obtain ⟨taken,_,route⟩ := Option.map_eq_some_iff.mp (Option.mem_toList.mp inside)
    exact .inl ⟨keyId,taken,route.symm⟩
  | body effects =>
    change nextFrame body acc = _ at first
    rw [nextFrame] at first
    split at first
    · exact absurd first.symm (Option.some_ne_none _)
    · split at first
      · split at first
        · exact absurd first.symm (Option.some_ne_none _)
        · rw [Option.some.injEq,Prod.mk.injEq] at first
          have clash : Frame.descriptor _ = Frame.body effects := first.1
          cases clash
      · next other =>
        obtain ⟨found,inner,same⟩ := Option.map_eq_some_iff.mp first
        rw [Prod.mk.injEq,Frame.body.injEq] at same
        exact .inr ⟨acc,effects,found.2,other,by rw [inner,← same.1],inside⟩

end frames

section json

variable {φ : Type}

theorem takeWhile_line {acc : Bytes} (ended : newline ∈ acc) (more : Bytes) :
    (acc ++ more).takeWhile (· ≠ newline) = acc.takeWhile (· ≠ newline) := by
  induction acc with
  | nil => exact absurd ended List.not_mem_nil
  | cons b acc ih =>
    rw [List.cons_append,List.takeWhile_cons,List.takeWhile_cons]
    split
    · next other =>
      rw [ih ((List.mem_cons.mp ended).resolve_left fun same => of_decide_eq_true other same.symm)]
    · rfl

theorem length_line_lt {acc : Bytes} (ended : newline ∈ acc) : (acc.takeWhile (· ≠ newline)).length < acc.length := by
  obtain ⟨front,back,rfl⟩ := List.append_of_mem ended
  by_contra long
  have whole := (List.takeWhile_prefix (l := front ++ newline :: back) (· ≠ newline)).eq_of_length_le (by omega)
  have inside : newline ∈ (front ++ newline :: back).takeWhile (· ≠ newline) := by
    rw [whole]
    exact List.mem_append_right _ List.mem_cons_self
  have other := List.mem_takeWhile_imp inside
  exact of_decide_eq_true other rfl

theorem lawful_jsonBody : Lawful (jsonBody (φ := φ)) where
  sized := by
    intro acc effects k nonempty found
    rw [jsonBody] at found
    split at found
    · next ended =>
      have shorter := length_line_lt ended
      rw [Option.some.injEq,Prod.mk.injEq] at found
      rw [← found.2]
      exact ⟨Nat.succ_pos _,shorter⟩
    · exact absurd found.symm (Option.some_ne_none _)
  stable := by
    intro acc found more there
    rw [jsonBody] at there ⊢
    split at there
    · next ended => rw [if_pos (List.mem_append_left _ ended),takeWhile_line ended,there]
    · exact absurd there.symm (Option.some_ne_none _)

end json

section advanced

variable {φ : Type}

theorem fromBe_toBe (n : Nat) : fromBe (toBe n) = n % 2 ^ 32 := by
  simp only [fromBe,toBe,List.foldl_cons,List.foldl_nil,UInt8.toNat_ofNat']
  omega

theorem lawful_advancedBody : Lawful (advancedBody (φ := φ)) where
  sized := by
    intro acc effects k nonempty found
    rw [advancedBody] at found
    split at found
    · exact absurd found.symm (Option.some_ne_none _)
    · next long =>
      simp only at found
      split at found
      · exact absurd found.symm (Option.some_ne_none _)
      · rw [Option.some.injEq,Prod.mk.injEq] at found
        omega
  stable := by
    intro acc found more there
    rw [advancedBody] at there ⊢
    split at there
    · exact absurd there.symm (Option.some_ne_none _)
    · next long =>
      simp only at there ⊢
      split at there
      · exact absurd there.symm (Option.some_ne_none _)
      · next whole =>
        have header : (acc ++ more).take 4 = acc.take 4 := List.take_append_of_le_length (by omega)
        rw [header,if_neg (by rw [List.length_append]; omega),if_neg (by rw [List.length_append]; omega),← there,
          List.drop_append_of_le_length (by omega),List.take_append_of_le_length (by rw [List.length_drop]; omega)]

/-- A length whose prefix is four bytes that do not begin like a passed descriptor. -/
def Representable (n : Nat) : Prop := n < 2 ^ 32 ∧ ¬(0xFE000000 ≤ n ∧ n < 0xFF000000)

theorem representable_fromBe {acc : Bytes} (long : ¬acc.length < 4) (other : acc.head? ≠ some fdFrameTag) :
    Representable (fromBe (acc.take 4)) := by
  rcases acc with _ | ⟨a,_ | ⟨b,_ | ⟨c,_ | ⟨d,rest⟩⟩⟩⟩
  iterate 4 exact absurd (by simp) long
  have first : a.toNat ≠ 0xFE := fun same => other (congrArg some (UInt8.toNat_inj.mp same))
  have value : fromBe ((a :: b :: c :: d :: rest).take 4) = ((a.toNat * 256 + b.toNat) * 256 + c.toNat) * 256 + d.toNat := by
    simp [fromBe]
  have bounds := And.intro a.toNat_lt (And.intro b.toNat_lt (And.intro c.toNat_lt d.toNat_lt))
  rw [value]
  constructor <;> omega

theorem head_toBe {n : Nat} (small : n < 2 ^ 32) (rest : Bytes) :
    (toBe n ++ rest).head? = some fdFrameTag ↔ 0xFE000000 ≤ n ∧ n < 0xFF000000 := by
  change some (UInt8.ofNat (n / 2 ^ 24)) = some 0xFE ↔ _
  rw [Option.some.injEq,← UInt8.toNat_inj,toNat_ofNat_of_lt (by omega)]
  change _ = 0xFE ↔ _
  omega

end advanced

section messages

variable {υ φ : Type} {user : υ → Bytes} {reply : Chars → Option (Fin (2 ^ 16)) → Bytes}

def Message.frame (user : υ → Bytes) (reply : Chars → Option (Fin (2 ^ 16)) → Bytes) : Message υ φ → Frame φ
  | .descriptor keyId _ => .descriptor keyId.val
  | message => .body [message.effect user reply]

theorem Message.fds_frame (message : Message υ φ) :
    message.fds.length = if (message.frame user reply).takes then 1 else 0 := by
  cases message <;> rfl

theorem Message.effects_frame (messages : List (Message υ φ)) :
    messages.flatMap (fun m => Frame.effects (m.frame user reply,m.fds.head?)) = messages.map (Message.effect user reply) := by
  rw [List.map_eq_flatMap]
  congr 1
  funext message
  cases message <;> rfl

theorem nextFrame_descriptor (body : Bytes → Option (List (Effect φ) × Nat)) (keyId : Fin (2 ^ 32)) (more : Bytes) :
    nextFrame body (sendFdOver keyId.val ++ more) = some (.descriptor keyId.val,fdFrameLen) := by
  have key := fromBe_toBe keyId.val
  rw [Nat.mod_eq_of_lt keyId.isLt] at key
  rw [nextFrame,if_neg (by exact List.cons_ne_nil _ _),if_pos (by rfl),if_neg (by
    change ¬(more.length + 1 + 1 + 1 + 1 + 1 < 5)
    omega)]
  change some (Frame.descriptor (fromBe (toBe keyId.val)),fdFrameLen) = _
  rw [key]

theorem nextFrame_body {body : Bytes → Option (List (Effect φ) × Nat)} {acc : Bytes} {effects : List (Effect φ)} {k : Nat}
    (nonempty : acc ≠ []) (other : acc.head? ≠ some fdFrameTag) (found : body acc = some (effects,k)) :
    nextFrame body acc = some (.body effects,k) := by
  rw [nextFrame,if_neg nonempty,if_neg other,found]
  rfl

/-- The reader finds neither of the two things a reply line is known by. -/
def JsonClear : Message JsonText φ → Prop
  | .user message => ¬(actNeedle <:+: message.chars ∧ ∃ key, jsonStrField message.chars (codes "reqKey") = some key)
  | .reply reqKey _ => 0x0A ∉ reqKey.chars
  | .descriptor _ _ => True

/-- The payload is no flat object with the act of a reply and a key, and its length can be told from a tag. -/
def AdvancedClear : Message Bytes φ → Prop
  | .user payload => (¬∃ key port, FlatV8Reader.readObject payload = some ⟨some (codes "queryServerReply"),some key,port⟩) ∧
      Representable payload.length
  | .reply reqKey port => Representable (replyPayload reqKey.chars port).length
  | .descriptor _ _ => True

theorem queryReply_eq_none (s : Chars) :
    queryReply s = none ↔ ¬(actNeedle <:+: s ∧ ∃ key, jsonStrField s (codes "reqKey") = some key) := by
  rw [queryReply,← afterFirst_isSome]
  split
  · next there => simp [there,Option.eq_none_iff_forall_ne_some]
  · next missing => simp [missing]

theorem tryConsumeAdvancedQueryReply_eq_none (payload : Bytes) : tryConsumeAdvancedQueryReply payload = none ↔
    ¬∃ key port, FlatV8Reader.readObject payload = some ⟨some (codes "queryServerReply"),some key,port⟩ := by
  rw [tryConsumeAdvancedQueryReply]
  cases FlatV8Reader.readObject payload with
  | none => simp
  | some fields =>
    obtain ⟨act,reqKey,port⟩ := fields
    by_cases same : act = some (codes "queryServerReply")
    · subst same
      cases reqKey <;> simp
    · simp [same]

theorem nextFrame_line {line : Bytes} (oneLine : newline ∉ line) (other : fdFrameTag ∉ line) (more : Bytes) :
    nextFrame jsonBody (line ++ [newline] ++ more) = some (.body (handleLine (φ := φ) line),(line ++ [newline]).length) := by
  have ended : newline ∈ line ++ [newline] := List.mem_append_right _ (List.mem_singleton_self _)
  have all : ∀ b ∈ line, decide (b ≠ newline) = true := by
    intro b inside
    apply decide_eq_true
    rintro rfl
    exact oneLine inside
  have cut : (line ++ [newline]).takeWhile (· ≠ newline) = line := by
    rw [List.takeWhile_append_of_pos all]
    exact List.append_nil line
  apply nextFrame_body
  · simp
  · rw [List.append_assoc]
    intro tag
    cases line with
    | nil => exact absurd (Option.some.inj tag) (by decide)
    | cons b line =>
      obtain rfl := Option.some.inj tag
      exact other List.mem_cons_self
  · rw [jsonBody,if_pos (List.mem_append_left _ ended),takeWhile_line ended,cut,List.length_append]
    rfl

theorem handleLine_reply {line : Bytes} {reqKey : Chars} {port : Int} (nonempty : line ≠ [])
    (taken : tryConsumeQueryReply line = some (reqKey,port)) : handleLine (φ := φ) line = [.reply line reqKey port] := by
  rw [handleLine,if_neg nonempty,taken]

theorem handleLine_message {line : Bytes} {chars : Chars} (nonempty : line ≠ []) (kept : tryConsumeQueryReply line = none)
    (text : fromUtf8 line = some chars) : handleLine (φ := φ) line = [.message line] := by
  rw [handleLine,if_neg nonempty,kept,text]
  rfl

theorem reads_json {message : Message JsonText φ} (clear : JsonClear message) :
    Reads (framing lawful_jsonBody) writeJson
      (Message.frame (fun text => encode text.chars) fun reqKey port => encode (replyJson reqKey port)) message := by
  intro more
  cases message with
  | user message =>
    have text := fromUtf8_encode message.scalars
    have kept : tryConsumeQueryReply (encode message.chars) = none := by
      rw [tryConsumeQueryReply,text]
      exact (queryReply_eq_none _).mpr clear
    have line := nextFrame_line (φ := φ) (fun inside => message.oneLine (newline_mem_encode.mp inside)) tag_not_mem_encode more
    rwa [handleLine_message (encode_ne_nil message.nonempty) kept text] at line
  | reply reqKey port =>
    have scalars : ∀ c ∈ replyJson reqKey.chars port, isScalar c = true := by
      intro c inside
      obtain here | ⟨small,_⟩ := (mem_replyJson reqKey.chars port).2 inside
      · exact reqKey.scalars c here
      · rw [isScalar,decide_eq_true_eq]
        omega
    have oneLine : newline ∉ encode (replyJson reqKey.chars port) := by
      rw [newline_mem_encode]
      intro inside
      obtain here | ⟨_,other⟩ := (mem_replyJson reqKey.chars port).2 inside
      · exact clear here
      · exact other rfl
    have nonempty : replyJson reqKey.chars port ≠ [] := by
      rw [replyJson]
      exact List.append_ne_nil_of_right_ne_nil _ (List.cons_ne_nil _ _)
    have taken : tryConsumeQueryReply (encode (replyJson reqKey.chars port)) = some (reqKey.chars,portValue port) := by
      rw [tryConsumeQueryReply,fromUtf8_encode scalars]
      exact queryReply_replyJson reqKey.chars port
    have line := nextFrame_line (φ := φ) oneLine tag_not_mem_encode more
    rw [handleLine_reply (encode_ne_nil nonempty) taken] at line
    rw [framing_next,writeJson,Message.frame,Message.effect]
    · exact line
    · rintro _ _ ⟨⟩
  | descriptor keyId fd => exact nextFrame_descriptor jsonBody keyId more

theorem nextFrame_payload {payload : Bytes} (sized : Representable payload.length) (more : Bytes) :
    nextFrame advancedBody (toBe payload.length ++ payload ++ more) =
      some (.body (handlePayload (φ := φ) payload),(toBe payload.length ++ payload).length) := by
  have four : (toBe payload.length).length = 4 := rfl
  have header : (toBe payload.length ++ payload ++ more).take 4 = toBe payload.length := by
    rw [List.append_assoc,← four,List.take_left]
  have behind : (toBe payload.length ++ payload ++ more).drop 4 = payload ++ more := by
    rw [List.append_assoc,← four,List.drop_left]
  apply nextFrame_body
  · exact List.cons_ne_nil _ _
  · rw [List.append_assoc]
    exact fun tag => sized.2 ((head_toBe sized.1 _).mp tag)
  · rw [advancedBody,if_neg (by simp only [List.length_append,four]; omega)]
    simp only [header,behind,fromBe_toBe,Nat.mod_eq_of_lt sized.1]
    rw [if_neg (by simp only [List.length_append,four]; omega),List.take_left,List.length_append,four]

theorem reads_advanced {message : Message Bytes φ} (clear : AdvancedClear message) :
    Reads (framing lawful_advancedBody) writeAdvanced (Message.frame id replyPayload) message := by
  intro more
  cases message with
  | user payload =>
    refine (nextFrame_payload clear.2 more).trans ?_
    rw [handlePayload,(tryConsumeAdvancedQueryReply_eq_none payload).mpr clear.1]
    rfl
  | reply reqKey port =>
    have sized : Representable (replyPayload reqKey.chars port).length := clear
    refine (nextFrame_payload sized more).trans ?_
    rw [handlePayload,tryConsumeAdvancedQueryReply_reply reqKey.scalars port (sized.1.trans (by decide))]
    rfl
  | descriptor keyId fd => exact nextFrame_descriptor advancedBody keyId more

theorem mem_handleLine {line : Bytes} {effect : Effect φ} (inside : effect ∈ handleLine line) :
    (∃ reqKey port, effect = .reply line reqKey port) ∨ effect = .message line ∧ tryConsumeQueryReply line = none := by
  rw [handleLine] at inside
  split at inside
  · exact absurd inside List.not_mem_nil
  · split at inside
    · next reqKey port _ => exact .inl ⟨reqKey,port,List.mem_singleton.mp inside⟩
    · next kept =>
      split at inside
      · exact .inr ⟨List.mem_singleton.mp inside,kept⟩
      · exact absurd inside List.not_mem_nil

theorem mem_handlePayload {payload : Bytes} {effect : Effect φ} (inside : effect ∈ handlePayload payload) :
    (∃ reqKey port, effect = .reply payload reqKey port) ∨
      effect = .message payload ∧ tryConsumeAdvancedQueryReply payload = none := by
  rw [handlePayload] at inside
  split at inside
  · next reqKey port _ => exact .inl ⟨reqKey,port,List.mem_singleton.mp inside⟩
  · next kept => exact .inr ⟨List.mem_singleton.mp inside,kept⟩

/-- Nothing but a clear message is ever handled as that message. -/
theorem clear_json {received : List (List φ × Bytes)} {message : Message JsonText φ}
    (handled : message.effect (fun text => encode text.chars) (fun reqKey port => encode (replyJson reqKey port)) ∈
      workerRecvLoop drainJsonFrames [] [] received) : JsonClear message := by
  obtain ⟨keyId,fd,route⟩ | ⟨acc,effects,k,_,found,inside⟩ := workerRecvLoop_source lawful_jsonBody received handled
  · cases message with
    | descriptor _ _ => exact trivial
    | user _ => cases route
    | reply _ _ => cases route
  · rw [jsonBody] at found
    split at found
    · rw [Option.some.injEq,Prod.mk.injEq] at found
      rw [← found.1] at inside
      have oneLine : newline ∉ acc.takeWhile (· ≠ newline) := fun ends => by
        have other := List.mem_takeWhile_imp ends
        exact of_decide_eq_true other rfl
      cases message with
      | descriptor _ _ => exact trivial
      | user message =>
        obtain ⟨_,_,clash⟩ | ⟨same,kept⟩ := mem_handleLine inside
        · cases clash
        · rw [Message.effect,Effect.message.injEq] at same
          rw [← same,tryConsumeQueryReply,fromUtf8_encode message.scalars] at kept
          exact (queryReply_eq_none _).mp kept
      | reply reqKey port =>
        obtain ⟨_,_,same⟩ | ⟨clash,_⟩ := mem_handleLine inside
        · rw [Message.effect,Effect.reply.injEq] at same
          rw [← same.1,newline_mem_encode] at oneLine
          exact fun ends => oneLine ((mem_replyJson reqKey.chars port).1 ends)
        · cases clash
    · exact absurd found.symm (Option.some_ne_none _)

theorem clear_advanced {received : List (List φ × Bytes)} {message : Message Bytes φ}
    (handled : message.effect id replyPayload ∈ workerRecvLoop drainAdvancedFrames [] [] received) : AdvancedClear message := by
  obtain ⟨keyId,fd,route⟩ | ⟨acc,effects,k,other,found,inside⟩ := workerRecvLoop_source lawful_advancedBody received handled
  · cases message with
    | descriptor _ _ => exact trivial
    | user _ => cases route
    | reply _ _ => cases route
  · rw [advancedBody] at found
    split at found
    · exact absurd found.symm (Option.some_ne_none _)
    · next long =>
      simp only at found
      split at found
      · exact absurd found.symm (Option.some_ne_none _)
      · next whole =>
        rw [Option.some.injEq,Prod.mk.injEq] at found
        rw [← found.1] at inside
        have size : ((acc.drop 4).take (fromBe (acc.take 4))).length = fromBe (acc.take 4) := by
          rw [List.length_take,List.length_drop]
          omega
        have sized := representable_fromBe long other
        rw [← size] at sized
        cases message with
        | descriptor _ _ => exact trivial
        | user payload =>
          obtain ⟨_,_,clash⟩ | ⟨same,kept⟩ := mem_handlePayload inside
          · cases clash
          · rw [Message.effect,Effect.message.injEq] at same
            rw [← same] at sized kept
            exact ⟨(tryConsumeAdvancedQueryReply_eq_none payload).mp kept,sized⟩
        | reply reqKey port =>
          obtain ⟨_,_,same⟩ | ⟨clash,_⟩ := mem_handlePayload inside
          · rw [Message.effect,Effect.reply.injEq] at same
            rw [← same.1] at sized
            exact sized
          · cases clash

/-- Either channel, however its stream is cut: every user message is handed on unchanged and in
order, exactly the replies are consumed and every descriptor is routed by its own key, if and
only if no message is of a kind that the reader mistakes for another. -/
theorem workerRecvLoop_lossless :
    (∀ (messages : List (Message JsonText φ)) (received : List (List φ × Bytes)), Delivers writeJson Message.fds messages received →
      (workerRecvLoop drainJsonFrames [] [] received = messages.map
        (Message.effect (fun text => encode text.chars) fun reqKey port => encode (replyJson reqKey port)) ↔
          ∀ message ∈ messages, JsonClear message)) ∧
    ∀ (messages : List (Message Bytes φ)) (received : List (List φ × Bytes)), Delivers writeAdvanced Message.fds messages received →
      (workerRecvLoop drainAdvancedFrames [] [] received = messages.map (Message.effect id replyPayload) ↔
        ∀ message ∈ messages, AdvancedClear message) := by
  constructor
  · intro messages received delivers
    constructor
    · intro same message inside
      exact clear_json (same ▸ List.mem_map_of_mem inside)
    · intro clear
      exact (workerRecvLoop_messages lawful_jsonBody (fun m inside => reads_json (clear m inside))
        (fun m _ => m.fds_frame) delivers).trans (Message.effects_frame messages)
  · intro messages received delivers
    constructor
    · intro same message inside
      exact clear_advanced (same ▸ List.mem_map_of_mem inside)
    · intro clear
      exact (workerRecvLoop_messages lawful_advancedBody (fun m inside => reads_advanced (clear m inside))
        (fun m _ => m.fds_frame) delivers).trans (Message.effects_frame messages)

/-- A passed descriptor, cut in its tag, and a user message behind it. -/
theorem workerRecvLoop_cut :
    workerRecvLoop drainJsonFrames [] [] [([5],[0xFE,0]),([],[0,0,7,0x31,0x0A])] = [Effect.route 7 5,.message [0x31]] ∧
      workerRecvLoop drainAdvancedFrames [] [] [([5],[0xFE,0]),([],[0,0,7,0,0,0,1,0x31])] =
        [Effect.route 7 5,.message [0x31]] := by
  have timely (last : List UInt8) (begun : Nat → Nat) (zero : begun 0 = 0) (bound : ∀ n, begun n ≤ 1) (n : Nat) :
      begun ((([([5],[0xFE,0]),([],last)] : List (List Nat × List UInt8)).take n).flatMap Prod.snd).length ≤
        ((([([5],[0xFE,0]),([],last)] : List (List Nat × List UInt8)).take n).flatMap Prod.fst).length := by
    rcases n with _ | _ | n
    · exact zero.le
    · exact bound 2
    · rw [List.take_of_length_le (by simp)]
      exact bound _
  have text : ∀ c ∈ codes "1", isScalar c = true := by decide
  have oneLine : 0x0A ∉ codes "1" := by decide
  have other (key : Chars) (port : Option Int) :
      FlatV8Reader.readObject [0x31] ≠ some ⟨some (codes "queryServerReply"),some key,port⟩ := Option.some_ne_none _ ∘ Eq.symm
  have short : ¬actNeedle <:+: codes "1" := fun inside => absurd inside.length_le (by decide)
  refine ⟨(workerRecvLoop_lossless.1 [.descriptor 7 5,.user ⟨⟨codes "1",text⟩,List.cons_ne_nil _ _,oneLine⟩] _
    ⟨rfl,rfl,timely _ _ rfl ?_⟩).mpr ?_,(workerRecvLoop_lossless.2 [.descriptor 7 5,.user [0x31]] _
    ⟨rfl,rfl,timely _ _ rfl ?_⟩).mpr ?_⟩
  · intro n
    cases n <;> simp [begun,Message.fds]
  · exact List.forall_mem_cons.mpr ⟨trivial,List.forall_mem_singleton.mpr fun both => short both.1⟩
  · intro n
    cases n <;> simp [begun,Message.fds]
  · refine List.forall_mem_cons.mpr ⟨trivial,List.forall_mem_singleton.mpr ⟨?_,by decide,by decide⟩⟩
    rintro ⟨key,port,read⟩
    exact other key port read

/-- A user message with the two substrings is swallowed as a reply that nobody sent. -/
def swallowed : JsonText where
  chars := codes "\x7b\"act\":\"queryServerReply\",\"reqKey\":\"\"\x7d"
  scalars := by decide
  nonempty := by decide
  oneLine := by decide

theorem workerRecvLoop_swallowed :
    Delivers writeJson Message.fds [.user swallowed] [(([] : List Nat),writeJson (φ := Nat) (.user swallowed))] ∧
      workerRecvLoop drainJsonFrames [] [] [(([] : List Nat),writeJson (φ := Nat) (.user swallowed))] ≠
        [Message.user swallowed].map
          (Message.effect (fun text => encode text.chars) fun reqKey port => encode (replyJson reqKey port)) := by
  refine ⟨⟨?_,rfl,fun n => ?_⟩,by decide +kernel⟩
  · rw [List.flatMap_singleton,List.flatMap_singleton]
  · rw [begun,begun]
    split <;> exact Nat.zero_le _

end messages

end Perry.Runtime.Cluster
