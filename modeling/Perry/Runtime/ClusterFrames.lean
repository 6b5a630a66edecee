import Perry.Machine.Framing
import Perry.Unicode.Lossy

/-! The channel of a cluster worker: what a primary writes, and how the worker's reader
splits it into messages, replies and passed descriptors (`cluster_sched.rs`). -/
namespace Perry.Runtime.Cluster

open Perry.Unicode

abbrev Bytes := List UInt8

abbrev Chars := List Nat

def codes (s : String) : Chars := s.toList.map Char.toNat

def fdFrameTag : UInt8 := 0xFE

def fdFrameLen : Nat := 5

/-- What the reader does: `on_message`, a query slot resolved by a consumed frame, or a
descriptor pushed to the queue of a key id. -/
inductive Effect (φ : Type) where
  | message (body : Bytes)
  | reply (body : Bytes) (reqKey : Chars) (port : Int)
  | route (keyId : Nat) (fd : φ)
  deriving DecidableEq

def fromBe (bytes : Bytes) : Nat := bytes.foldl (fun n b => n * 256 + b.toNat) 0

/-- `(n as u32).to_be_bytes()`. -/
def toBe (n : Nat) : Bytes := [.ofNat (n / 2 ^ 24),.ofNat (n / 2 ^ 16),.ofNat (n / 2 ^ 8),.ofNat n]

/-! The fields of a reply in a JSON line. -/

/-- What follows the first match of `str::find`. -/
def afterFirst (needle : Chars) : Chars → Option Chars
  | [] => if needle = [] then some [] else none
  | c :: rest => if needle.isPrefixOf (c :: rest) then some ((c :: rest).drop needle.length) else afterFirst needle rest

def quoteMark : Nat := 0x22

def backslash : Nat := 0x5C

def unescaped : Chars → Option Chars
  | [] => none
  | c :: rest =>
    if c = quoteMark then some []
    else if c = backslash then
      match rest with
      | [] => none
      | n :: rest => (unescaped rest).map (n :: ·)
    else (unescaped rest).map (c :: ·)

def jsonStrField (s name : Chars) : Option Chars := (afterFirst (codes "\"" ++ name ++ codes "\":\"") s).bind unescaped

def isDigit (c : Nat) : Bool := 0x30 ≤ c ∧ c ≤ 0x39

def digitsValue (digits : Chars) : Option Nat :=
  if digits ≠ [] ∧ digits.all isDigit then some (digits.foldl (fun n c => n * 10 + (c - 0x30)) 0) else none

/-- `str::parse::<i32>` of a text of digits and minus signs. -/
def parseI32 (text : Chars) : Option Int :=
  if text.head? = some 0x2D then (digitsValue text.tail).bind fun n => if n ≤ 2 ^ 31 then some (-(n : Int)) else none
  else (digitsValue text).bind fun n => if n < 2 ^ 31 then some (n : Int) else none

def jsonNumField (s name : Chars) : Option Int :=
  (afterFirst (codes "\"" ++ name ++ codes "\":") s).bind fun rest => parseI32 (rest.takeWhile fun c => c = 0x2D ∨ isDigit c)

def actNeedle : Chars := codes "\"act\":\"queryServerReply\""

/-- The request key and the port when the line is taken for a reply. -/
def queryReply (s : Chars) : Option (Chars × Int) :=
  if (afterFirst actNeedle s).isSome then
    (jsonStrField s (codes "reqKey")).map fun reqKey => (reqKey,(jsonNumField s (codes "port")).getD (-1))
  else none

def tryConsumeQueryReply (line : Bytes) : Option (Chars × Int) := (fromUtf8 line).bind queryReply

/-! The fields of a reply in a structured-clone payload. -/

/-- `FlatV8Reader`: a reader takes the bytes from `pos` on and returns what it leaves. -/
abbrev Reader (α : Type) := Bytes → Option (α × Bytes)

namespace FlatV8Reader

def byte : Reader UInt8
  | [] => none
  | b :: rest => some (b,rest)

/-- The groups of seven bits have no bit in common, so the sum is their union. -/
def varintFrom (shift : Nat) : Reader Nat
  | [] => none
  | b :: rest =>
    if b.toNat < 0x80 then some (b.toNat * 2 ^ shift % 2 ^ 64,rest)
    else if 64 ≤ shift + 7 then none
    else (varintFrom (shift + 7) rest).map fun read => (b.toNat % 0x80 * 2 ^ shift % 2 ^ 64 + read.1,read.2)

def varint : Reader Nat := varintFrom 0

def raw (len : Nat) : Reader Bytes := fun bytes => if len ≤ bytes.length then some (bytes.take len,bytes.drop len) else none

def unitsLe : Bytes → List Nat
  | low :: high :: rest => (low.toNat + 256 * high.toNat) :: unitsLe rest
  | _ => []

/-- `String::from_utf16`. -/
def fromUtf16 : List Nat → Option Chars
  | [] => some []
  | [u] => if isHigh u || isLow u then none else some [u]
  | u :: v :: rest =>
    if isHigh u then
      if isLow v then (fromUtf16 rest).map ((0x10000 + (u - 0xD800) * 1024 + (v - 0xDC00)) :: ·) else none
    else if isLow u then none else (fromUtf16 (v :: rest)).map (u :: ·)

def string : Reader Chars := fun bytes => do
  let (tag,rest) ← byte bytes
  if tag = 0x53 ∨ tag = 0x22 then
    let (len,rest) ← varint rest
    let (bytes,rest) ← raw len rest
    return (fromUtf8Lossy bytes,rest)
  else if tag = 0x63 then
    let (len,rest) ← varint rest
    let (bytes,rest) ← raw len rest
    if bytes.length % 2 ≠ 0 then none
    else return (← fromUtf16 (unitsLe bytes),rest)
  else none

/-- `as i32` of a wider integer. -/
def wrap (n : Int) : Int := n.bmod (2 ^ 32)

/-- `f64::from_le_bytes(bytes) as i32`, by the bits of the double. -/
def doubleAsI32 (bits : Nat) : Int :=
  let exponent := bits / 2 ^ 52 % 2 ^ 11
  let fraction := bits % 2 ^ 52
  let magnitude : Nat :=
    if exponent = 0 then 0
    else if exponent ≤ 1075 then (2 ^ 52 + fraction) / 2 ^ (1075 - exponent)
    else (2 ^ 52 + fraction) * 2 ^ (exponent - 1075)
  if exponent = 2047 ∧ fraction ≠ 0 then 0
  else if bits / 2 ^ 63 % 2 = 1 then max (-magnitude) (-2 ^ 31)
  else min magnitude (2 ^ 31 - 1)

def number : Reader Int := fun bytes => do
  let (tag,rest) ← byte bytes
  if tag = 0x49 then
    let (value,rest) ← varint rest
    return (wrap (if value % 2 = 0 then value / 2 else -(value / 2 : Nat) - 1),rest)
  else if tag = 0x55 then
    let (value,rest) ← varint rest
    return (wrap value,rest)
  else if tag = 0x4E then
    let (bytes,rest) ← raw 8 rest
    return (doubleAsI32 (fromBe bytes.reverse),rest)
  else none

structure QueryReplyFields where
  act : Option Chars
  reqKey : Option Chars
  port : Option Int

/-- The loop of `read_object`; each turn reads a byte or ends. -/
def readFields : Nat → QueryReplyFields → Bytes → Option QueryReplyFields
  | 0,_,_ => none
  | fuel + 1,fields,bytes =>
    if bytes.head? = some 0x7B then (varint bytes.tail).map fun _ => fields
    else do
      let (key,rest) ← string bytes
      if key = codes "cmd" then
        let (_,rest) ← string rest
        readFields fuel fields rest
      else if key = codes "act" then
        let (act,rest) ← string rest
        readFields fuel { fields with act := some act } rest
      else if key = codes "reqKey" then
        let (reqKey,rest) ← string rest
        readFields fuel { fields with reqKey := some reqKey } rest
      else if key = codes "port" then
        let (port,rest) ← number rest
        readFields fuel { fields with port := some port } rest
      else none

def readObject (bytes : Bytes) : Option QueryReplyFields := do
  let (version,rest) ← byte bytes
  if version ≠ 0xFF then none
  else
    let (_,rest) ← varint rest
    let (tag,rest) ← byte rest
    if tag ≠ 0x6F then none else readFields (rest.length + 1) ⟨none,none,none⟩ rest

end FlatV8Reader

def tryConsumeAdvancedQueryReply (payload : Bytes) : Option (Chars × Int) := do
  let fields ← FlatV8Reader.readObject payload
  if fields.act ≠ some (codes "queryServerReply") then none
  else (fields.reqKey).map fun reqKey => (reqKey,fields.port.getD (-1))

/-! The reader. -/

section drain

variable {φ : Type}

/-- The loop of both `drain_*_frames`, which differ in `body`: the first frame that passes
no descriptor, as what is done with it and its length. -/
def drainFrames (body : Bytes → Option (List (Effect φ) × Nat)) :
    Nat → Bytes → List φ → List (Effect φ) × Bytes × List φ
  | 0,acc,fdQueue => ([],acc,fdQueue)
  | fuel + 1,acc,fdQueue =>
    if acc = [] then ([],acc,fdQueue)
    else if acc.head? = some fdFrameTag then
      if acc.length < fdFrameLen then ([],acc,fdQueue)
      else
        let routed := fdQueue.head?.map (Effect.route (fromBe ((acc.drop 1).take 4)))
        let others := drainFrames body fuel (acc.drop fdFrameLen) fdQueue.tail
        (routed.toList ++ others.1,others.2)
    else
      match body acc with
      | none => ([],acc,fdQueue)
      | some (effects,length) =>
        let others := drainFrames body fuel (acc.drop length) fdQueue
        (effects ++ others.1,others.2)

def newline : UInt8 := 0x0A

/-- What is done with a JSON line; one that is no UTF-8 is dropped. -/
def handleLine (line : Bytes) : List (Effect φ) :=
  if line = [] then []
  else
    match tryConsumeQueryReply line with
    | some (reqKey,port) => [.reply line reqKey port]
    | none => if (fromUtf8 line).isSome then [.message line] else []

def jsonBody (acc : Bytes) : Option (List (Effect φ) × Nat) :=
  if newline ∈ acc then
    let line := acc.takeWhile (· ≠ newline)
    some (handleLine line,line.length + 1)
  else none

def handlePayload (payload : Bytes) : List (Effect φ) :=
  match tryConsumeAdvancedQueryReply payload with
  | some (reqKey,port) => [.reply payload reqKey port]
  | none => [.message payload]

def advancedBody (acc : Bytes) : Option (List (Effect φ) × Nat) :=
  if acc.length < 4 then none
  else
    let len := fromBe (acc.take 4)
    if acc.length - 4 < len then none else some (handlePayload ((acc.drop 4).take len),4 + len)

def drainJsonFrames (acc : Bytes) (fdQueue : List φ) : List (Effect φ) × Bytes × List φ :=
  drainFrames jsonBody acc.length acc fdQueue

def drainAdvancedFrames (acc : Bytes) (fdQueue : List φ) : List (Effect φ) × Bytes × List φ :=
  drainFrames advancedBody acc.length acc fdQueue

/-- The loop of `worker_recv_loop` over what each `recvmsg` brings: descriptors and bytes. -/
def workerRecvLoop (drain : Bytes → List φ → List (Effect φ) × Bytes × List φ) :
    Bytes → List φ → List (List φ × Bytes) → List (Effect φ)
  | _,_,[] => []
  | acc,fdQueue,(fds,data) :: received =>
    let drained := drain (acc ++ data) (fdQueue ++ fds)
    drained.1 ++ workerRecvLoop drain drained.2.1 drained.2.2 received

end drain

/-! The primary. -/

/-- A `String`: a text of scalar values. -/
structure Text where
  chars : Chars
  scalars : ∀ c ∈ chars, isScalar c = true

def encode (chars : Chars) : Bytes := chars.flatMap encodeUtf8

/-- What `JSON.stringify` returns: never empty, and a raw newline never in it. -/
structure JsonText extends Text where
  nonempty : chars ≠ []
  oneLine : 0x0A ∉ chars

/-- `send` of a user message, `primary_handle_query_server` and `cp_ipc_send_fd`. A reply's
port is the bound one, or none when the primary could not bind. -/
inductive Message (υ φ : Type) where
  | user (message : υ)
  | reply (reqKey : Text) (port : Option (Fin (2 ^ 16)))
  | descriptor (keyId : Fin (2 ^ 32)) (fd : φ)

def portValue (port : Option (Fin (2 ^ 16))) : Int := port.elim (-1) fun p => (p.val : Int)

/-- `replace('\\', "\\\\").replace('"', "\\\"")`. -/
def escape (chars : Chars) : Chars :=
  (chars.flatMap fun c => if c = backslash then [backslash,backslash] else [c]).flatMap fun c =>
    if c = quoteMark then [backslash,quoteMark] else [c]

def showNat (n : Nat) : Chars := if n = 0 then [0x30] else (Nat.digits 10 n).reverse.map (0x30 + ·)

def showPort (port : Option (Fin (2 ^ 16))) : Chars := port.elim (codes "-1") fun p => showNat p.val

def replyJson (reqKey : Chars) (port : Option (Fin (2 ^ 16))) : Chars :=
  codes "\x7b\"cmd\":\"NODE_CLUSTER\",\"act\":\"queryServerReply\",\"reqKey\":\"" ++ escape reqKey ++ codes "\",\"port\":" ++
    showPort port ++ codes "\x7d"

/-! `v8_serialize` of the value of that JSON text. -/

def writeVarintIn : Nat → Nat → Bytes
  | 0,_ => []
  | fuel + 1,value =>
    if value / 0x80 = 0 then [.ofNat (value % 0x80)] else .ofNat (value % 0x80 + 0x80) :: writeVarintIn fuel (value / 0x80)

/-- A `u64` has at most ten groups of seven bits. -/
def writeVarint (value : Nat) : Bytes := writeVarintIn 10 value

def writeZigzag (value : Int) : Bytes := writeVarint (if 0 ≤ value then 2 * value.toNat else 2 * value.natAbs - 1)

def encodeUtf16 (chars : Chars) : Bytes := (chars.flatMap unitsOf).flatMap fun u => [.ofNat (u % 256),.ofNat (u / 256)]

def writeString (chars : Chars) : Bytes :=
  if (encode chars).all (·.toNat < 0x80) then 0x22 :: (writeVarint (encode chars).length ++ encode chars)
  else 0x63 :: (writeVarint (encodeUtf16 chars).length ++ encodeUtf16 chars)

def replyPayload (reqKey : Chars) (port : Option (Fin (2 ^ 16))) : Bytes :=
  0xFF :: (writeVarint 15 ++ 0x6F :: (writeString (codes "cmd") ++ (writeString (codes "NODE_CLUSTER") ++
    (writeString (codes "act") ++ (writeString (codes "queryServerReply") ++ (writeString (codes "reqKey") ++
      (writeString reqKey ++ (writeString (codes "port") ++ (0x49 :: (writeZigzag (portValue port) ++
        0x7B :: writeVarint 4))))))))))

section messages

variable {υ φ : Type}

/-- The body of a message that is no descriptor: the line or the payload. -/
def Message.body (user : υ → Bytes) (reply : Chars → Option (Fin (2 ^ 16)) → Bytes) : Message υ φ → Bytes
  | .user message => user message
  | .reply reqKey port => reply reqKey.chars port
  | .descriptor _ _ => []

def Message.fds : Message υ φ → List φ
  | .descriptor _ fd => [fd]
  | _ => []

def sendFdOver (keyId : Nat) : Bytes := fdFrameTag :: toBe keyId

def writeJson : Message JsonText φ → Bytes
  | .user message => encode message.chars ++ [newline]
  | .reply reqKey port => encode (replyJson reqKey.chars port) ++ [newline]
  | .descriptor keyId _ => sendFdOver keyId.val

def writeAdvanced : Message Bytes φ → Bytes
  | .user payload => toBe payload.length ++ payload
  | .reply reqKey port => toBe (replyPayload reqKey.chars port).length ++ replyPayload reqKey.chars port
  | .descriptor keyId _ => sendFdOver keyId.val

/-- What a reader that loses nothing does with a message. -/
def Message.effect (user : υ → Bytes) (reply : Chars → Option (Fin (2 ^ 16)) → Bytes) : Message υ φ → Effect φ
  | .user message => .message (user message)
  | .reply reqKey port => .reply (reply reqKey.chars port) reqKey.chars (portValue port)
  | .descriptor keyId fd => .route keyId.val fd

end messages

end Perry.Runtime.Cluster
