import Mathlib.Data.List.Basic
import Mathlib.Tactic

/-! Frames on a stream that arrives in pieces. A reader keeps the bytes of an unfinished
frame; some frames also take the next attachment from a second channel, which is matched
with them by order alone. -/
namespace Perry.Machine

/-- How the first frame of a stream is found: what it is and how long, once it is there. -/
structure Framing (β ι : Type) where
  next : List β → Option (ι × Nat)
  sized : ∀ {bytes i k}, next bytes = some (i,k) → 0 < k ∧ k ≤ bytes.length
  stable : ∀ {bytes i k} more, next bytes = some (i,k) → next (bytes ++ more) = some (i,k)

namespace Framing

variable {β ι φ μ : Type} {framing : Framing β ι} {bytes rest : List β} {items : List ι}

theorem next_nil : framing.next [] = none := by
  cases first : framing.next [] with
  | none => rfl
  | some frame =>
    have sized := framing.sized first
    simp only [List.length_nil] at sized
    omega

/-- The frames of a byte sequence and what is left of it. -/
inductive Cut (framing : Framing β ι) : List β → List ι → List β → Prop
  | short {bytes : List β} (unfinished : framing.next bytes = none) : Cut framing bytes [] bytes
  | frame {bytes : List β} {i : ι} {k : Nat} {items : List ι} {rest : List β} (first : framing.next bytes = some (i,k))
      (others : Cut framing (bytes.drop k) items rest) : Cut framing bytes (i :: items) rest

theorem exists_cut (framing : Framing β ι) (bytes : List β) : ∃ items rest, Cut framing bytes items rest := by
  induction size : bytes.length using Nat.strongRecOn generalizing bytes with
  | _ n ih =>
    cases first : framing.next bytes with
    | none => exact ⟨[],bytes,.short first⟩
    | some frame =>
      obtain ⟨i,k⟩ := frame
      have sized := framing.sized first
      obtain ⟨items,rest,others⟩ := ih (bytes.drop k).length (by rw [List.length_drop]; omega) (bytes.drop k) rfl
      exact ⟨i :: items,rest,.frame first others⟩

theorem Cut.unique {others : List ι} {left : List β} (cut : Cut framing bytes items rest) (again : Cut framing bytes others left) :
    items = others ∧ rest = left := by
  induction cut generalizing others left with
  | short unfinished =>
    cases again with
    | short _ => exact ⟨rfl,rfl⟩
    | frame first _ => rw [unfinished] at first; cases first
  | frame first _ ih =>
    cases again with
    | short unfinished => rw [unfinished] at first; cases first
    | frame again behind =>
      rw [first,Option.some.injEq,Prod.mk.injEq] at again
      obtain ⟨rfl,rfl⟩ := again
      obtain ⟨rfl,rfl⟩ := ih behind
      exact ⟨rfl,rfl⟩

/-- Bytes that come later change no frame that was there, and are cut with what was left. -/
theorem Cut.append {more : List β} {later : List ι} {left : List β} (cut : Cut framing bytes items rest)
    (behind : Cut framing (rest ++ more) later left) : Cut framing (bytes ++ more) (items ++ later) left := by
  induction cut with
  | short _ => exact behind
  | frame first _ ih =>
    refine .frame (framing.stable more first) ?_
    rw [List.drop_append_of_le_length (framing.sized first).2]
    exact ih behind

theorem Cut.unfinished (cut : Cut framing bytes items rest) : framing.next rest = none := by
  induction cut with
  | short unfinished => exact unfinished
  | frame _ _ ih => exact ih

theorem Cut.item (cut : Cut framing bytes items rest) : ∀ i ∈ items, ∃ source k, framing.next source = some (i,k) := by
  induction cut with
  | short _ => exact fun i inside => absurd inside List.not_mem_nil
  | @frame bytes j k items rest first _ ih => exact List.forall_mem_cons.mpr ⟨⟨bytes,k,first⟩,ih⟩

section messages

variable (framing) (encode : μ → List β) (item : μ → ι)

/-- The message is read back from its bytes, whatever follows them. -/
def Reads (m : μ) : Prop := ∀ more, framing.next (encode m ++ more) = some (item m,(encode m).length)

variable {framing} {encode} {item} {ms : List μ}

theorem cut_messages (reads : ∀ m ∈ ms, Reads framing encode item m) : Cut framing (ms.flatMap encode) (ms.map item) [] := by
  induction ms with
  | nil => exact .short next_nil
  | cons m ms ih =>
    obtain ⟨first,others⟩ := List.forall_mem_cons.mp reads
    rw [List.flatMap_cons]
    refine .frame (first _) ?_
    rw [List.drop_left]
    exact ih others

end messages

section attachments

variable (takes : ι → Bool)

/-- Each frame that takes an attachment gets the next one, if there is one. -/
def attach : List ι → List φ → List (ι × Option φ)
  | [],_ => []
  | i :: items,queue => if takes i then (i,queue.head?) :: attach items queue.tail else (i,none) :: attach items queue

variable {takes} {queue : List φ}

theorem attach_append (front back : List ι) :
    attach takes (front ++ back) queue = attach takes front queue ++ attach takes back (queue.drop (front.countP takes)) := by
  induction front generalizing queue with
  | nil => rfl
  | cons i front ih =>
    rw [List.cons_append,attach,attach,List.countP_cons]
    split
    · rw [ih,List.cons_append,← List.drop_one,List.drop_drop,Nat.add_comm 1]
    · rw [ih,List.cons_append,Nat.add_zero]

theorem attach_more (more : List φ) (enough : items.countP takes ≤ queue.length) :
    attach takes items (queue ++ more) = attach takes items queue := by
  induction items generalizing queue with
  | nil => rfl
  | cons i items ih =>
    rw [List.countP_cons] at enough
    rw [attach,attach]
    split
    · next taking =>
      rw [if_pos taking] at enough
      cases queue with
      | nil => rw [List.length_nil] at enough; omega
      | cons fd queue =>
        rw [List.length_cons] at enough
        rw [List.cons_append,List.head?_cons,List.head?_cons,List.tail_cons,List.tail_cons,ih (by omega)]
    · next leaving =>
      rw [if_neg leaving] at enough
      rw [ih (by omega)]

theorem mem_attach {event : ι × Option φ} (inside : event ∈ attach takes items queue) : event.1 ∈ items := by
  induction items generalizing queue with
  | nil => exact absurd inside List.not_mem_nil
  | cons i items ih =>
    rw [attach] at inside
    split at inside
    all_goals
      obtain rfl | behind := List.mem_cons.mp inside
      · exact List.mem_cons_self
      · exact List.mem_cons_of_mem _ (ih behind)

/-- A piece brings attachments and bytes; the attachments are queued before the bytes are
looked at, and each new frame takes what it needs from the queue. -/
inductive Received (framing : Framing β ι) (takes : ι → Bool) :
    List β → List φ → List (List φ × List β) → List (ι × Option φ) → Prop
  | nothing {acc : List β} {queue : List φ} : Received framing takes acc queue [] []
  | piece {acc acc' bytes : List β} {queue fds : List φ} {items : List ι} {pieces : List (List φ × List β)}
      {events : List (ι × Option φ)} (cut : Cut framing (acc ++ bytes) items acc')
      (others : Received framing takes acc' ((queue ++ fds).drop (items.countP takes)) pieces events) :
      Received framing takes acc queue ((fds,bytes) :: pieces) (attach takes items (queue ++ fds) ++ events)

variable {acc : List β} {pieces : List (List φ × List β)} {events : List (ι × Option φ)} {ms : List μ} {encode : μ → List β}
  {item : μ → ι} {attached : μ → List φ}

/-- No piece completes a frame whose attachment has not come with it or before. -/
def Timely (framing : Framing β ι) (takes : ι → Bool) (acc : List β) (queue : List φ) (pieces : List (List φ × List β)) : Prop :=
  ∀ front back items rest, pieces = front ++ back → Cut framing (acc ++ front.flatMap Prod.snd) items rest →
    items.countP takes ≤ queue.length + (front.flatMap Prod.fst).length

/-- Where the cuts are does not matter: the frames are those of the whole stream, and each
has the attachment that its place among the taking frames gives it. -/
theorem Received.whole (received : Received framing takes acc queue pieces events) (timely : Timely framing takes acc queue pieces)
    (cut : Cut framing (acc ++ pieces.flatMap Prod.snd) items rest) (nothing : framing.next acc = none) :
    events = attach takes items (queue ++ pieces.flatMap Prod.fst) := by
  induction received generalizing items with
  | nothing =>
    rw [List.flatMap_nil,List.append_nil] at cut
    rw [(cut.unique (.short nothing)).1,attach]
  | @piece acc acc' bytes queue fds first pieces events here others ih =>
    have enough : first.countP takes ≤ (queue ++ fds).length := by
      have bound := timely [(fds,bytes)] pieces first acc' rfl (by rwa [List.flatMap_singleton])
      rwa [List.flatMap_singleton,← List.length_append] at bound
    obtain ⟨later,left,behind⟩ := exists_cut framing (acc' ++ pieces.flatMap Prod.snd)
    have whole := here.append behind
    rw [List.append_assoc] at whole
    obtain ⟨rfl,rfl⟩ := cut.unique whole
    have next : Timely framing takes acc' ((queue ++ fds).drop (first.countP takes)) pieces := by
      intro front back more remaining split cut
      have total := timely ((fds,bytes) :: front) back (first ++ more) remaining (by rw [split]; rfl) (by
        rw [List.flatMap_cons,← List.append_assoc]
        exact here.append cut)
      rw [List.countP_append,List.flatMap_cons,List.length_append] at total
      rw [List.length_append] at enough
      rw [List.length_drop,List.length_append]
      change _ ≤ queue.length + (fds.length + _) at total
      omega
    rw [ih next behind here.unfinished,attach_append,List.flatMap_cons,← List.append_assoc,attach_more _ enough,
      List.drop_append_of_le_length enough]

/-- How many attachments belong to messages that begin before the byte at a position. -/
def begun (attached : μ → List φ) (encode : μ → List β) : List μ → Nat → Nat
  | [],_ => 0
  | m :: ms,n => if n = 0 then 0 else (attached m).length + begun attached encode ms (n - (encode m).length)

/-- No frame is complete before its first byte has come. -/
theorem countP_le_begun {n : Nat} (reads : ∀ m ∈ ms, Reads framing encode item m)
    (fits : ∀ m ∈ ms, (attached m).length = if takes (item m) then 1 else 0)
    (cut : Cut framing ((ms.flatMap encode).take n) items rest) : items.countP takes ≤ begun attached encode ms n := by
  induction ms generalizing n items with
  | nil =>
    rw [List.flatMap_nil,List.take_nil] at cut
    rw [(cut.unique (.short next_nil)).1]
    exact Nat.zero_le _
  | cons m ms ih =>
    obtain ⟨first,others⟩ := List.forall_mem_cons.mp reads
    obtain ⟨fit,fits⟩ := List.forall_mem_cons.mp fits
    cases cut with
    | short _ => exact Nat.zero_le _
    | @frame _ i k items _ found behind =>
      have sized := framing.sized found
      have whole := framing.stable (((m :: ms).flatMap encode).drop n) found
      rw [List.take_append_drop,List.flatMap_cons,first,Option.some.injEq,Prod.mk.injEq] at whole
      obtain ⟨rfl,rfl⟩ := whole
      rw [List.length_take] at sized
      have later := ih others fits (n := n - (encode m).length) (by
        rwa [List.flatMap_cons,List.drop_take,List.drop_left] at behind)
      rw [begun,if_neg (by omega),List.countP_cons,fit]
      omega

theorem attach_messages (fits : ∀ m ∈ ms, (attached m).length = if takes (item m) then 1 else 0) :
    attach takes (ms.map item) (ms.flatMap attached) = ms.map fun m => (item m,(attached m).head?) := by
  induction ms with
  | nil => rfl
  | cons m ms ih =>
    obtain ⟨fit,others⟩ := List.forall_mem_cons.mp fits
    rw [List.map_cons,List.map_cons,List.flatMap_cons,attach]
    split
    · next taking =>
      rw [if_pos taking] at fit
      obtain ⟨a,only⟩ := List.length_eq_one_iff.mp fit
      rw [only,List.singleton_append,List.tail_cons,ih others]
      rfl
    · next leaving =>
      rw [if_neg leaving] at fit
      rw [List.eq_nil_of_length_eq_zero fit,List.nil_append,ih others]
      rfl

/-- The pieces carry these messages, and every attachment comes no later than the first
byte of its message. -/
structure Delivers (encode : μ → List β) (attached : μ → List φ) (ms : List μ) (pieces : List (List φ × List β)) : Prop where
  bytes : pieces.flatMap Prod.snd = ms.flatMap encode
  attachments : pieces.flatMap Prod.fst = ms.flatMap attached
  timely : ∀ n, begun attached encode ms ((pieces.take n).flatMap Prod.snd).length ≤ ((pieces.take n).flatMap Prod.fst).length

/-- Messages that read back are received in order, each with its own attachment. -/
theorem Received.messages (reads : ∀ m ∈ ms, Reads framing encode item m)
    (fits : ∀ m ∈ ms, (attached m).length = if takes (item m) then 1 else 0) (delivers : Delivers encode attached ms pieces)
    (received : Received framing takes [] [] pieces events) : events = ms.map fun m => (item m,(attached m).head?) := by
  have timely : Timely framing takes [] [] pieces := by
    intro front back items rest split cut
    have stream : front.flatMap Prod.snd = (ms.flatMap encode).take (front.flatMap Prod.snd).length := by
      rw [← delivers.bytes,split,List.flatMap_append,List.take_left]
    rw [List.nil_append,stream] at cut
    rw [List.length_nil,Nat.zero_add]
    have begun := delivers.timely front.length
    rw [split,List.take_left] at begun
    exact (countP_le_begun reads fits cut).trans begun
  have cut := cut_messages reads
  rw [← delivers.bytes,← List.nil_append (pieces.flatMap _)] at cut
  rw [received.whole timely cut next_nil,List.nil_append,delivers.attachments,attach_messages fits]

theorem Received.source (received : Received framing takes acc queue pieces events) :
    ∀ event ∈ events, ∃ source k, framing.next source = some (event.1,k) := by
  induction received with
  | nothing => exact fun event inside => absurd inside List.not_mem_nil
  | piece cut _ ih =>
    intro event inside
    obtain here | later := List.mem_append.mp inside
    · exact cut.item _ (mem_attach here)
    · exact ih event later

end attachments

end Framing

end Perry.Machine
