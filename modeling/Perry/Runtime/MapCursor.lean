import Perry.Machine.Runs
import Perry.Runtime.MapAnswers

/-! The raw-index cursor of a `for…of` walk.
Between two steps the loop body may squeeze or discard the entries it has passed; the cursor finds
its place again through the squeeze history. A clear wipes the history before it, so the extent it
discarded has to reach the cursor that was stored before.
-/
namespace Perry.Runtime.Map

open Perry.Containers Perry.Machine

variable {K V : Type}

def isSince (loopEpoch : UInt32) (record : CompactionRecord) : Bool :=
  0 < (record.epoch - loopEpoch).toInt32

def rebaseThrough (cursor : Nat) (records : List CompactionRecord) : Nat :=
  records.foldl (fun cursor record => cursor - record.removed.countBelow cursor) cursor

def rebaseMapCursor (buffer : Buffer K V) (cursor : Nat) (loopEpoch : UInt32) : Nat :=
  if buffer.compactionEpoch = loopEpoch then cursor
  else rebaseThrough cursor (buffer.log.records.filter (isSince loopEpoch))

def mapCursorNextRaw (buffer : Buffer K V) (cursor : Nat) (loopEpoch : UInt32) : Option Nat :=
  nextLive buffer.slots (rebaseMapCursor buffer cursor loopEpoch)

/-- The walk of the specification over `[[MapData]]`. -/
def MapData.forOf [DecidableEq K] : List (List (Act K V)) → MapData K V → Nat → List (Option (K × V))
  | bodies, data, index =>
    match nextLive data index with
    | none => []
    | some found => data[found]?.join :: match bodies with
      | [] => []
      | body :: rest => MapData.forOf rest (data.performAll body) (found + 1)

/-- What the squeezes between two steps of a walk left in the history. -/
structure Window where
  squeezes : Nat
  cost : Nat
  within : Bool
  discarded : Option Nat
  deriving DecidableEq,Repr

namespace Window

def start : Window := ⟨0,0,true,none⟩

/-- A clear starts the history again, a squeeze adds the slots it removed to what is retained. -/
def note (window : Window) (budget : Nat) : RemovedSlots → Window
  | .extent slots => ⟨window.squeezes + 1,1,window.within,some slots⟩
  | .indices holes =>
    ⟨window.squeezes + 1,window.cost + holes.length,
      window.within && decide (window.cost + holes.length ≤ budget),window.discarded⟩

def change (window : Window) (buffer : Buffer K V) : Change K V → Window
  | .squeeze =>
    if (removedFrom 0 buffer.slots).isEmpty then window
    else window.note buffer.budget (.indices (removedFrom 0 buffer.slots))
  | .discard => window.note buffer.budget (.extent buffer.used)
  | _ => window

def changes : Window → Buffer K V → List (Change K V) → Window
  | window, _, [] => window
  | window, buffer, change :: rest => (window.change buffer change).changes (change.apply buffer) rest

def acts [DecidableEq K] : Window → Buffer K V → List (Act K V) → Window
  | window, _, [] => window
  | window, buffer, act :: rest => (window.changes buffer (buffer.actChanges act)).acts (buffer.act act) rest

end Window

section History

/-- Records that fit the budget together survive, whatever stands before them. -/
theorem trimRecords_append (budget : Nat) {newer : List CompactionRecord} (some_newer : newer ≠ [])
    (fits : cost newer ≤ budget) (older : List CompactionRecord) :
    ∃ kept, (trimRecords budget (older ++ newer) (cost (older ++ newer))).1 = kept ++ newer ∧
      kept <:+ older := by
  induction older with
  | nil =>
    refine ⟨[],?_,List.nil_suffix⟩
    match newer,some_newer with
    | [record],_ => rfl
    | oldest :: record :: rest,_ =>
      rw [List.nil_append,trimRecords,if_neg (by omega)]
  | cons oldest older step =>
    obtain ⟨kept,result,suffix⟩ := step
    obtain ⟨record,rest,shape⟩ : ∃ record rest, older ++ newer = record :: rest :=
      List.exists_cons_of_ne_nil (by simp [some_newer])
    rw [List.cons_append,shape,trimRecords]
    split
    · have dropped : cost (oldest :: record :: rest) - oldest.removed.retainedLen =
          cost (record :: rest) := by simp [cost]
      rw [dropped,← shape,result]
      exact ⟨kept,rfl,suffix.trans (List.suffix_cons _ _)⟩
    · exact ⟨oldest :: older,by rw [List.cons_append,shape],List.suffix_refl _⟩

theorem trimRecords_suffix (budget : Nat) (records : List CompactionRecord) :
    (trimRecords budget records (cost records)).1 <:+ records ∧
      (cost (trimRecords budget records (cost records)).1 ≤ budget ∨
        (trimRecords budget records (cost records)).1.length ≤ 1) := by
  induction records with
  | nil => exact ⟨List.suffix_refl _,Or.inr (by simp [trimRecords])⟩
  | cons oldest rest step =>
    cases rest with
    | nil => exact ⟨List.suffix_refl _,Or.inr (by simp [trimRecords])⟩
    | cons record rest =>
      rw [trimRecords]
      split
      · have dropped : cost (oldest :: record :: rest) - oldest.removed.retainedLen =
            cost (record :: rest) := by simp [cost]
        rw [dropped]
        exact ⟨step.1.trans (List.suffix_cons _ _),step.2⟩
      · exact ⟨List.suffix_refl _,Or.inl (Nat.le_of_not_lt ‹_›)⟩

/-- The records date back one epoch each from the buffer's, and cost at least one slot each. -/
structure Dated (buffer : Buffer K V) : Prop where
  epochs : ∀ distance record, buffer.log.records.reverse[distance]? = some record →
    record.epoch = buffer.compactionEpoch - UInt32.ofNat distance
  charged : ∀ record ∈ buffer.log.records, 0 < record.removed.retainedLen
  bounded : buffer.log.records.length ≤ buffer.budget

theorem length_le_cost {records : List CompactionRecord}
    (charged : ∀ record ∈ records, 0 < record.removed.retainedLen) :
    records.length ≤ cost records := by
  induction records with
  | nil => simp
  | cons record rest step =>
    rw [List.forall_mem_cons] at charged
    have tail := step charged.2
    have head := charged.1
    simp only [List.length_cons,cost,List.map_cons,List.sum_cons] at tail ⊢
    omega

theorem one_le_budget (buffer : Buffer K V) : 1 ≤ buffer.budget := by
  simp [Buffer.budget,mapCompactionLogMinBudget]

/-- The records a squeeze is added to. -/
def historyBefore (buffer : Buffer K V) : RemovedSlots → List CompactionRecord
  | .extent _ => []
  | .indices _ => buffer.log.records

theorem records_trim (log : MapCompactionLog) (budget : Nat) :
    (log.trim budget).records = (trimRecords budget log.records (cost log.records)).1 := by
  rw [← log.exact]
  rfl

theorem records_note (buffer : Buffer K V) (removed : RemovedSlots) :
    (buffer.noteMapCompaction removed).log.records =
      let records := historyBefore buffer removed ++ [⟨buffer.compactionEpoch + 1,removed⟩]
      (trimRecords buffer.budget records (cost records)).1 := by
  cases removed <;> exact records_trim _ _

theorem historyBefore_subset (buffer : Buffer K V) (removed : RemovedSlots) :
    ∀ record ∈ historyBefore buffer removed, record ∈ buffer.log.records := by
  cases removed <;> simp [historyBefore]

theorem historyBefore_reverse (buffer : Buffer K V) (removed : RemovedSlots) {distance : Nat}
    {record : CompactionRecord} (found : (historyBefore buffer removed).reverse[distance]? = some record) :
    buffer.log.records.reverse[distance]? = some record := by
  cases removed with
  | extent slots => simp [historyBefore] at found
  | indices holes => exact found

theorem Dated.note {buffer : Buffer K V} (dated : Dated buffer) {removed : RemovedSlots}
    (charged : 0 < removed.retainedLen) : Dated (buffer.noteMapCompaction removed) := by
  have records := records_note buffer removed
  obtain ⟨suffix,small⟩ := trimRecords_suffix buffer.budget
    (historyBefore buffer removed ++ [⟨buffer.compactionEpoch + 1,removed⟩])
  dsimp only at records
  rw [← records] at suffix small
  have all_charged : ∀ record ∈ (buffer.noteMapCompaction removed).log.records,
      0 < record.removed.retainedLen := by
    intro record member
    rcases List.mem_append.mp (suffix.subset member) with old | new
    · exact dated.charged record (historyBefore_subset buffer removed record old)
    · rw [List.mem_singleton.mp new]
      exact charged
  constructor
  · intro distance record found
    obtain ⟨more,whole⟩ := List.reverse_prefix.mpr suffix
    have reversed : ((buffer.noteMapCompaction removed).log.records.reverse ++ more)[distance]? =
        some record := by
      rw [List.getElem?_append_left (List.getElem?_eq_some_iff.mp found).1,found]
    rw [whole,List.reverse_append,List.reverse_singleton,List.singleton_append] at reversed
    have advanced : (buffer.noteMapCompaction removed).compactionEpoch = buffer.compactionEpoch + 1 := rfl
    rw [advanced]
    cases distance with
    | zero =>
      rw [List.getElem?_cons_zero] at reversed
      cases reversed
      simp
    | succ distance =>
      rw [List.getElem?_cons_succ] at reversed
      rw [dated.epochs distance record (historyBefore_reverse buffer removed reversed),
        Nat.succ_eq_add_one,UInt32.ofNat_add]
      grind
  · exact all_charged
  · have budget : (buffer.noteMapCompaction removed).budget = buffer.budget := rfl
    rw [budget]
    have counted := length_le_cost all_charged
    have := one_le_budget buffer
    omega

theorem Dated.apply {buffer : Buffer K V} (dated : Dated buffer) (change : Change K V) :
    Dated (change.apply buffer) := by
  cases change with
  | rewrite rule => exact ⟨dated.epochs,dated.charged,dated.bounded⟩
  | append entry => exact ⟨dated.epochs,dated.charged,dated.bounded⟩
  | squeeze =>
    simp only [Change.apply,Buffer.squeezeEntries]
    split
    · exact ⟨dated.epochs,dated.charged,dated.bounded⟩
    · rename_i some_removed
      have squeezed : Dated { buffer with slots := squeeze buffer.slots } :=
        ⟨dated.epochs,dated.charged,dated.bounded⟩
      apply squeezed.note
      simpa [RemovedSlots.retainedLen,List.length_pos_iff] using some_removed
  | discard =>
    have emptied : Dated (K := K) (V := V) { buffer with slots := [] } :=
      ⟨dated.epochs,dated.charged,dated.bounded⟩
    have charged : 0 < (RemovedSlots.extent buffer.used).retainedLen := Nat.one_pos
    exact emptied.note charged
  | grow =>
    refine ⟨dated.epochs,dated.charged,dated.bounded.trans ?_⟩
    simp only [Change.apply,Buffer.budget]
    omega
  | enter => exact ⟨dated.epochs,dated.charged,dated.bounded⟩
  | leave => exact ⟨dated.epochs,dated.charged,dated.bounded⟩

theorem Dated.applyAll (plan : List (Change K V)) {buffer : Buffer K V} (dated : Dated buffer) :
    Dated (applyAll buffer plan) := by
  induction plan generalizing buffer with
  | nil => exact dated
  | cons change rest step => exact step (dated.apply change)

end History

/-- The stored cursor, seen through the records since it was stored, is where the cursor stands
now; after a clear the part of the history that is left starts at the clear. -/
structure Tracks (stored : Nat) (loopEpoch : UInt32) (window : Window) (buffer : Buffer K V)
    (now : Nat) : Prop where
  epoch : buffer.compactionEpoch = loopEpoch + UInt32.ofNat window.squeezes
  unwiped : window.within = true → window.discarded = none → ∃ older newer,
    buffer.log.records = older ++ newer ∧ newer.length = window.squeezes ∧
      cost newer = window.cost ∧ rebaseThrough stored newer = now
  wiped : window.within = true → ∀ slots, window.discarded = some slots → ∃ record newer,
    buffer.log.records = record :: newer ∧ record.removed = .extent slots ∧
      newer.length < window.squeezes ∧ cost (record :: newer) = window.cost ∧
      rebaseThrough 0 newer = now

theorem Tracks.start (buffer : Buffer K V) (cursor : Nat) :
    Tracks cursor buffer.compactionEpoch .start buffer cursor where
  epoch := by simp [Window.start]
  unwiped := fun _ _ => ⟨buffer.log.records,[],by simp [Window.start,cost,rebaseThrough]⟩
  wiped := fun _ slots discarded => by simp [Window.start] at discarded

theorem rebaseThrough_snoc (cursor : Nat) (records : List CompactionRecord)
    (record : CompactionRecord) : rebaseThrough cursor (records ++ [record]) =
      rebaseThrough cursor records - record.removed.countBelow (rebaseThrough cursor records) := by
  simp [rebaseThrough]

theorem cost_snoc (records : List CompactionRecord) (record : CompactionRecord) :
    cost (records ++ [record]) = cost records + record.removed.retainedLen := by
  simp [cost]

/-- A squeeze that fits the budget is added to the records since the last step. -/
theorem Tracks.squeeze {stored : Nat} {loopEpoch : UInt32} {window : Window}
    {buffer : Buffer K V} {now : Nat} (tracks : Tracks stored loopEpoch window buffer now)
    (holes : List Nat) : Tracks stored loopEpoch (window.note buffer.budget (.indices holes))
      (buffer.noteMapCompaction (.indices holes)) (now - RemovedSlots.countBelow now (.indices holes)) := by
  have records := records_note buffer (.indices holes)
  simp only [historyBefore] at records
  constructor
  · have advanced : (buffer.noteMapCompaction (.indices holes)).compactionEpoch =
        buffer.compactionEpoch + 1 := rfl
    rw [advanced,tracks.epoch]
    simp only [Window.note,UInt32.ofNat_add]
    grind
  · intro within discarded
    simp only [Window.note,Bool.and_eq_true,decide_eq_true_eq] at within discarded
    obtain ⟨older,newer,whole,count,paid,rebased⟩ := tracks.unwiped within.1 discarded
    have fits : cost (newer ++ [⟨buffer.compactionEpoch + 1,.indices holes⟩]) ≤ buffer.budget := by
      rw [cost_snoc,paid]
      exact within.2
    obtain ⟨kept,result,_⟩ := trimRecords_append buffer.budget (by simp) fits older
    rw [whole,List.append_assoc,result] at records
    refine ⟨kept,_,records,?_,?_,?_⟩
    · simp [Window.note,count]
    · rw [cost_snoc,paid]
      rfl
    · rw [rebaseThrough_snoc,rebased]
  · intro within slots discarded
    simp only [Window.note,Bool.and_eq_true,decide_eq_true_eq] at within discarded
    obtain ⟨record,newer,whole,extent,count,paid,rebased⟩ := tracks.wiped within.1 slots discarded
    have fits : cost ((record :: newer) ++ [⟨buffer.compactionEpoch + 1,.indices holes⟩]) ≤
        buffer.budget := by
      rw [cost_snoc,paid]
      exact within.2
    obtain ⟨kept,result,suffix⟩ := trimRecords_append buffer.budget (by simp) fits []
    rw [List.suffix_nil.mp suffix] at result
    rw [List.nil_append] at result
    rw [whole,result,List.cons_append] at records
    refine ⟨record,newer ++ [⟨buffer.compactionEpoch + 1,.indices holes⟩],records,extent,?_,?_,?_⟩
    · simp [Window.note,count]
    · rw [← List.cons_append,cost_snoc,paid]
      rfl
    · rw [rebaseThrough_snoc,rebased]

theorem Tracks.discard {stored : Nat} {loopEpoch : UInt32} {window : Window}
    {buffer : Buffer K V} {now : Nat} (tracks : Tracks stored loopEpoch window buffer now)
    (slots : Nat) : Tracks stored loopEpoch (window.note buffer.budget (.extent slots))
      (buffer.noteMapCompaction (.extent slots)) 0 := by
  have records := records_note buffer (.extent slots)
  simp only [historyBefore,List.nil_append,trimRecords] at records
  constructor
  · have advanced : (buffer.noteMapCompaction (.extent slots)).compactionEpoch =
        buffer.compactionEpoch + 1 := rfl
    rw [advanced,tracks.epoch]
    simp only [Window.note,UInt32.ofNat_add]
    grind
  · intro _ discarded
    simp [Window.note] at discarded
  · intro _ extent discarded
    simp only [Window.note,Option.some.injEq] at discarded
    refine ⟨_,[],records,by simp [discarded],?_,?_,rfl⟩
    · simp [Window.note]
    · simp [Window.note,cost,RemovedSlots.retainedLen]

theorem Tracks.apply {stored : Nat} {loopEpoch : UInt32} {window : Window}
    {buffer : Buffer K V} {now : Nat} (tracks : Tracks stored loopEpoch window buffer now)
    (change : Change K V) : Tracks stored loopEpoch (window.change buffer change) (change.apply buffer)
      (change.shift buffer now) := by
  cases change with
  | rewrite rule => exact ⟨tracks.epoch,tracks.unwiped,tracks.wiped⟩
  | append entry => exact ⟨tracks.epoch,tracks.unwiped,tracks.wiped⟩
  | squeeze =>
    have counted := length_takeWhile_removedFrom buffer.slots now 0
    simp only [Window.change,Change.apply,Change.shift,Buffer.squeezeEntries]
    split
    · rename_i none_removed
      rw [List.isEmpty_iff] at none_removed
      rw [none_removed] at counted
      have unmoved : now - holesBelow buffer.slots now = now := by
        rw [Nat.sub_zero] at counted
        rw [← counted]
        rfl
      rw [unmoved]
      exact ⟨tracks.epoch,tracks.unwiped,tracks.wiped⟩
    · rw [Nat.sub_zero] at counted
      have squeezed : Tracks stored loopEpoch window { buffer with slots := Containers.squeeze buffer.slots }
          now :=
        ⟨tracks.epoch,tracks.unwiped,tracks.wiped⟩
      have noted := squeezed.squeeze (removedFrom 0 buffer.slots)
      rw [RemovedSlots.countBelow,counted] at noted
      exact noted
  | discard =>
    have emptied : Tracks (K := K) (V := V) stored loopEpoch window { buffer with slots := [] } now :=
      ⟨tracks.epoch,tracks.unwiped,tracks.wiped⟩
    exact emptied.discard buffer.used
  | grow => exact ⟨tracks.epoch,tracks.unwiped,tracks.wiped⟩
  | enter => exact ⟨tracks.epoch,tracks.unwiped,tracks.wiped⟩
  | leave => exact ⟨tracks.epoch,tracks.unwiped,tracks.wiped⟩

theorem Tracks.applyAll {stored : Nat} {loopEpoch : UInt32} (plan : List (Change K V))
    {window : Window} {buffer : Buffer K V} {now : Nat}
    (tracks : Tracks stored loopEpoch window buffer now) :
    Tracks stored loopEpoch (window.changes buffer plan) (applyAll buffer plan) (shiftAll buffer now plan) := by
  induction plan generalizing window buffer now with
  | nil => exact tracks
  | cons change rest step => exact step (tracks.apply change)

section Rebasing

theorem isSince_of_newer {record : CompactionRecord} {loopEpoch : UInt32} {squeezes distance : Nat}
    (dated : record.epoch = loopEpoch + UInt32.ofNat squeezes - UInt32.ofNat distance)
    (newer : distance < squeezes) (few : squeezes < 2 ^ 31) : isSince loopEpoch record = true := by
  have ahead : record.epoch - loopEpoch = UInt32.ofNat (squeezes - distance) := by
    rw [dated,UInt32.ofNat_sub (by omega)]
    grind
  rw [isSince,ahead,UInt32.toInt32_ofNat',decide_eq_true_eq,Int32.lt_iff_toInt_lt,
    Int32.toInt_ofNat_of_lt (by omega)]
  simp
  omega

theorem isSince_of_older {record : CompactionRecord} {loopEpoch : UInt32} {squeezes distance : Nat}
    (dated : record.epoch = loopEpoch + UInt32.ofNat squeezes - UInt32.ofNat distance)
    (older : squeezes ≤ distance) (near : distance - squeezes ≤ 2 ^ 31) :
    isSince loopEpoch record = false := by
  have behind : record.epoch - loopEpoch = -UInt32.ofNat (distance - squeezes) := by
    rw [dated,UInt32.ofNat_sub (by omega)]
    grind
  rw [isSince,behind,UInt32.toInt32_neg,UInt32.toInt32_ofNat',decide_eq_false_iff_not,
    Int32.lt_iff_toInt_lt,Int32.toInt_neg,Int32.toInt_ofNat]
  simp [Int.bmod]
  omega

/-- The epoch test keeps exactly the records of the squeezes since the last step. -/
theorem filter_isSince {buffer : Buffer K V} (dated : Dated buffer) {loopEpoch : UInt32}
    {squeezes : Nat} (epoch : buffer.compactionEpoch = loopEpoch + UInt32.ofNat squeezes)
    (few : squeezes < 2 ^ 31) (small : buffer.capacity ≤ 2 ^ 31) {older newer : List CompactionRecord}
    (whole : buffer.log.records = older ++ newer) (count : newer.length ≤ squeezes)
    (split : older = [] ∨ newer.length = squeezes) :
    buffer.log.records.filter (isSince loopEpoch) = newer := by
  have bounded : older.length + newer.length ≤ 2 ^ 31 := by
    have bound := dated.bounded
    have floor : mapCompactionLogMinBudget = 4096 := rfl
    rw [whole,List.length_append,Buffer.budget,floor] at bound
    omega
  have reversed : buffer.log.records.reverse = newer.reverse ++ older.reverse := by
    rw [whole,List.reverse_append]
  have none_older : older.filter (isSince loopEpoch) = [] := by
    rw [List.filter_eq_nil_iff]
    intro record member
    obtain ⟨place,inside,rfl⟩ := List.mem_iff_getElem.mp (List.mem_reverse.mpr member)
    rw [Bool.not_eq_true]
    have found : buffer.log.records.reverse[newer.length + place]? = some older.reverse[place] := by
      rw [reversed,List.getElem?_append_right (by simp)]
      simp [List.getElem?_eq_getElem inside]
    have epochs := dated.epochs _ _ found
    rw [epoch] at epochs
    rw [List.length_reverse] at inside
    rcases split with rfl | exact_count
    · simp at inside
    · exact isSince_of_older epochs (by omega) (by omega)
  have all_newer : newer.filter (isSince loopEpoch) = newer := by
    rw [List.filter_eq_self]
    intro record member
    obtain ⟨place,inside,rfl⟩ := List.mem_iff_getElem.mp (List.mem_reverse.mpr member)
    have found : buffer.log.records.reverse[place]? = some newer.reverse[place] := by
      rw [reversed,List.getElem?_append_left inside,List.getElem?_eq_getElem inside]
    have epochs := dated.epochs _ _ found
    rw [epoch] at epochs
    rw [List.length_reverse] at inside
    exact isSince_of_newer epochs (by omega) few
  rw [whole,List.filter_append,none_older,all_newer,List.nil_append]

/-- What the body may do between two steps: the squeezes since the last clear fit the budget, the
last clear discards every slot below the stored cursor, and epochs do not wrap. -/
structure Window.Kept (window : Window) (stored : Nat) (buffer : Buffer K V) : Prop where
  within : window.within = true
  few : window.squeezes < 2 ^ 31
  small : buffer.capacity ≤ 2 ^ 31
  reaches : ∀ slots ∈ window.discarded, stored ≤ slots

instance (window : Window) (stored : Nat) (buffer : Buffer K V) : Decidable (window.Kept stored buffer) :=
  decidable_of_iff (window.within = true ∧ window.squeezes < 2 ^ 31 ∧ buffer.capacity ≤ 2 ^ 31 ∧
      ∀ slots ∈ window.discarded, stored ≤ slots)
    ⟨fun ⟨within,few,small,reaches⟩ => ⟨within,few,small,reaches⟩,
      fun kept => ⟨kept.within,kept.few,kept.small,kept.reaches⟩⟩

theorem Tracks.rebase {stored : Nat} {loopEpoch : UInt32} {window : Window} {buffer : Buffer K V}
    {now : Nat} (tracks : Tracks stored loopEpoch window buffer now) (dated : Dated buffer)
    (kept : window.Kept stored buffer) : rebaseMapCursor buffer stored loopEpoch = now := by
  have through : ∃ newer, buffer.log.records.filter (isSince loopEpoch) = newer ∧
      rebaseThrough stored newer = now ∧ newer.length ≤ window.squeezes ∧
      (window.squeezes = 0 → newer = []) := by
    cases discarded : window.discarded with
    | none =>
      obtain ⟨older,newer,whole,count,_,rebased⟩ := tracks.unwiped kept.within discarded
      refine ⟨newer,?_,rebased,by omega,?_⟩
      · exact filter_isSince dated tracks.epoch kept.few kept.small whole (by omega) (Or.inr count)
      · intro unmoved
        exact List.eq_nil_of_length_eq_zero (by omega)
    | some slots =>
      obtain ⟨record,newer,whole,extent,count,_,rebased⟩ := tracks.wiped kept.within slots discarded
      have alone : buffer.log.records = [] ++ record :: newer := whole
      refine ⟨record :: newer,?_,?_,by simpa using count,by omega⟩
      · exact filter_isSince dated tracks.epoch kept.few kept.small alone (by simpa using count)
          (Or.inl rfl)
      · have reached : stored ≤ slots := kept.reaches slots (by simp [discarded])
        have zero : stored - min stored slots = 0 := by omega
        simpa [rebaseThrough,extent,RemovedSlots.countBelow,zero] using rebased
  obtain ⟨newer,filtered,rebased,_,unmoved⟩ := through
  unfold rebaseMapCursor
  split
  · rename_i same
    have still : window.squeezes = 0 := by
      have epoch := tracks.epoch
      rw [same] at epoch
      have zero : UInt32.ofNat window.squeezes = 0 := by grind
      have few := kept.few
      have value := congrArg UInt32.toNat zero
      simp at value
      omega
    rw [unmoved still] at rebased
    simpa [rebaseThrough] using rebased
  · rw [filtered,rebased]

theorem rebaseThrough_zero (records : List CompactionRecord) : rebaseThrough 0 records = 0 := by
  induction records with
  | nil => rfl
  | cons record rest step => simpa [rebaseThrough] using step

theorem rebaseMapCursor_zero (buffer : Buffer K V) (epoch : UInt32) :
    rebaseMapCursor buffer 0 epoch = 0 := by
  unfold rebaseMapCursor
  split
  · rfl
  · exact rebaseThrough_zero _

theorem Dated.alloc (capacity : BitVec 32) : Dated (jsMapAlloc capacity : MapHeader K V).toBuffer := by
  constructor <;> simp [jsMapAlloc,MapCompactionLog.empty]

end Rebasing

section Steps

variable [DecidableEq K]

/-- A buffer between two steps of a walk, beside the specification's list. -/
structure Following (stored : Nat) (loopEpoch : UInt32) (window : Window) (buffer : Buffer K V)
    (data : MapData K V) (index : Nat) (now : Nat) : Prop where
  dated : Dated buffer
  aligned : Aligned buffer.slots now data index
  tracks : Tracks stored loopEpoch window buffer now

theorem Following.act {stored : Nat} {loopEpoch : UInt32} {window : Window} {buffer : Buffer K V}
    {data : MapData K V} {index now : Nat}
    (following : Following stored loopEpoch window buffer data index now) (act : Act K V) :
    Following stored loopEpoch (window.changes buffer (buffer.actChanges act)) (buffer.act act)
      (data.act act) index (shiftAll buffer now (buffer.actChanges act)) where
  dated := following.dated.applyAll (buffer.actChanges act)
  aligned := act_aligned following.aligned act
  tracks := following.tracks.applyAll (buffer.actChanges act)

theorem Following.acts {stored : Nat} {loopEpoch : UInt32} {index : Nat} (body : List (Act K V))
    {window : Window} {buffer : Buffer K V} {data : MapData K V} {now : Nat}
    (following : Following stored loopEpoch window buffer data index now) :
    ∃ now', Following stored loopEpoch (window.acts buffer body) (body.foldl Buffer.act buffer)
      (data.performAll body) index now' := by
  induction body generalizing window buffer data now with
  | nil => exact ⟨now,following⟩
  | cons act rest step => exact step (following.act act)

variable (keys : Keys K)

/-- The pairs a `for…of` walk reads, with what its body does after each of them. -/
def forOf : List (List (Act K V)) → MapHeader K V → Nat → UInt32 → Option (List (Option (K × V)))
  | bodies, map, cursor, epoch =>
    match mapCursorNextRaw map.toBuffer cursor epoch with
    | none => some []
    | some index => match bodies with
      | [] => some [map.mapEntryRaw index]
      | body :: rest => do
        let after ← body.foldlM (Act.perform keys) map
        let walked ← forOf rest after (index + 1) map.compactionEpoch
        return map.mapEntryRaw index :: walked

/-- Every body of a walk stays within the bounds of its acts, and leaves the cursor a history it can
be found through. -/
def ForOfKept : List (List (Act K V)) → MapHeader K V → Nat → UInt32 → Prop
  | bodies, map, cursor, epoch =>
    match mapCursorNextRaw map.toBuffer cursor epoch with
    | none => True
    | some index => match bodies with
      | [] => True
      | body :: rest => Throughout (Act.perform keys) (Act.Fits keys) map body ∧
        ∀ after ∈ body.foldlM (Act.perform keys) map,
          (Window.start.acts map.toBuffer body).Kept (index + 1) after.toBuffer ∧
            ForOfKept rest after (index + 1) map.compactionEpoch

instance ForOfKept.decidable : (bodies : List (List (Act K V))) → (map : MapHeader K V) →
    (cursor : Nat) → (epoch : UInt32) → Decidable (ForOfKept keys bodies map cursor epoch)
  | [], map, cursor, epoch =>
    match found : mapCursorNextRaw map.toBuffer cursor epoch with
    | none => isTrue (by simp [ForOfKept,found])
    | some index => isTrue (by simp [ForOfKept,found])
  | body :: rest, map, cursor, epoch =>
    match found : mapCursorNextRaw map.toBuffer cursor epoch with
    | none => isTrue (by simp [ForOfKept,found])
    | some index =>
      have later (after : MapHeader K V) := ForOfKept.decidable rest after (index + 1) map.compactionEpoch
      decidable_of_iff (Throughout (Act.perform keys) (Act.Fits keys) map body ∧
        ∀ after ∈ body.foldlM (Act.perform keys) map,
          (Window.start.acts map.toBuffer body).Kept (index + 1) after.toBuffer ∧
            ForOfKept keys rest after (index + 1) map.compactionEpoch)
        (by conv_rhs => rw [ForOfKept,found])

variable {keys} {map : MapHeader K V}

/-- Acts within their bounds are performed, and make their changes one after another. -/
theorem runs_acts {acts : List (Act K V)} (fits : Throughout (Act.perform keys) (Act.Fits keys) map acts)
    (well : WellIndexed keys map) :
    ∃ after, Runs (Act.perform keys) map acts after ∧ WellIndexed keys after ∧
      after.toBuffer = acts.foldl Buffer.act map.toBuffer := by
  refine Throughout.refines (R := fun map buffer => WellIndexed keys map ∧ map.toBuffer = buffer) ?_ fits ⟨well,rfl⟩
  rintro map buffer act ⟨well,rfl⟩ fits
  exact Act.perform_spec well fits

theorem forOf_eq (bodies : List (List (Act K V))) {cursor : Nat} {epoch : UInt32} {data : MapData K V}
    {index : Nat} (well : WellIndexed keys map) (dated : Dated map.toBuffer)
    (aligned : Aligned map.slots (rebaseMapCursor map.toBuffer cursor epoch) data index)
    (kept : ForOfKept keys bodies map cursor epoch) :
    forOf keys bodies map cursor epoch = some (data.forOf bodies index) := by
  induction bodies generalizing map cursor epoch data index with
  | nil =>
    rw [forOf,MapData.forOf,mapCursorNextRaw]
    rcases aligned.next with ⟨spent,spent'⟩ | ⟨found,found',entry,here,here',read,read',_⟩
    · rw [spent,spent']
    · rw [here,here']
      simp [Buffer.mapEntryRaw,read,read']
  | cons body rest step =>
    rw [forOf,MapData.forOf]
    rw [ForOfKept] at kept
    unfold mapCursorNextRaw at kept ⊢
    rcases aligned.next with ⟨spent,spent'⟩ | ⟨found,found',entry,here,here',read,read',past⟩
    · rw [spent,spent']
    · rw [here] at kept
      obtain ⟨fits,later⟩ := kept
      obtain ⟨after,ran,well',same⟩ := runs_acts fits well
      have performed := ran.foldlM_eq
      obtain ⟨window,kept⟩ := later after performed
      have start : Following (found + 1) map.compactionEpoch .start map.toBuffer data (found' + 1)
          (found + 1) := ⟨dated,past,Tracks.start map.toBuffer (found + 1)⟩
      obtain ⟨now,following⟩ := start.acts body
      rw [← same] at following
      have rebased := following.tracks.rebase following.dated window
      have walked := step well' following.dated (rebased ▸ following.aligned) kept
      rw [here,here']
      dsimp only
      rw [performed,Option.bind_eq_bind,Option.bind_some,walked]
      simp [Buffer.mapEntryRaw,read,read']

/-- A buffer and the specification's list after the same acts. -/
theorem acts_related (acts : List (Act K V)) {buffer : Buffer K V} (data : MapData K V) (dated : Dated buffer)
    (same : buffer.slots.reduceOption = data.reduceOption) :
    Dated (acts.foldl Buffer.act buffer) ∧
      (acts.foldl Buffer.act buffer).slots.reduceOption = (data.performAll acts).reduceOption := by
  induction acts generalizing buffer data with
  | nil => exact ⟨dated,same⟩
  | cons act rest step => exact step (data.act act) (dated.applyAll (buffer.actChanges act)) (reduceOption_act same act)

/-- On a map that acts within their bounds built a walk reads what the specification's walk reads. -/
theorem forOf_exact (keys : Keys K) (capacity : BitVec 32) (setup : List (Act K V)) (bodies : List (List (Act K V)))
    (fits : Throughout (Act.perform keys) (Act.Fits keys) (jsMapAlloc capacity) setup) :
    ∃ map, Runs (Act.perform keys) (jsMapAlloc capacity) setup map ∧ (ForOfKept keys bodies map 0 0 →
      forOf keys bodies map 0 0 = some (MapData.forOf bodies (MapData.performAll [] setup) 0)) := by
  obtain ⟨map,ran,well,changed⟩ := runs_acts fits (.alloc capacity)
  obtain ⟨dated,same⟩ := acts_related setup [] (Dated.alloc capacity) rfl
  rw [← changed] at dated same
  refine ⟨map,ran,forOf_eq bodies well dated ?_⟩
  rw [rebaseMapCursor_zero]
  exact Aligned.start same

/-- Deletes that squeeze the buffer under the walk, and a clear that reaches the cursor. -/
theorem forOf_exact_squeezed :
    ∃ map, Runs (Act.perform Keys.mixed) (jsMapAlloc 4) ((List.range 20).map fun key => .op (.set key key)) map ∧
      forOf Keys.mixed [(List.range 12).map fun key => .op (.delete key),[.op .clear,.op (.set 40 1)],[.op (.set 41 1)]]
        map 0 0 = some [some (0,0),some (12,12),some (40,1),some (41,1)] := by
  obtain ⟨map,ran,walk⟩ := forOf_exact Keys.mixed 4 ((List.range 20).map fun key => .op (.set key key))
    [(List.range 12).map fun key => .op (.delete key),[.op .clear,.op (.set 40 1)],[.op (.set 41 1)]] (by decide +kernel)
  have kept : ∀ map ∈ ((List.range 20).map fun key => Act.op (.set key key)).foldlM (Act.perform Keys.mixed) (jsMapAlloc 4),
      ForOfKept Keys.mixed [(List.range 12).map fun key => .op (.delete key),[.op .clear,.op (.set 40 1)],[.op (.set 41 1)]]
        map 0 0 := by
    decide +kernel
  refine ⟨map,ran,(walk (kept map ran.foldlM_eq)).trans ?_⟩
  decide +kernel

end Steps

/-- The slots that squeezes and clears removed. -/
def slotsRemoved [DecidableEq K] : Buffer K V → List (Act K V) → Nat
  | _, [] => 0
  | buffer, act :: rest =>
    (removedBy buffer (buffer.actChanges act)) + slotsRemoved (buffer.act act) rest
where
  removedBy : Buffer K V → List (Change K V) → Nat
    | _, [] => 0
    | buffer, change :: rest => (match change with
        | .squeeze => holesBelow buffer.slots buffer.used
        | .discard => buffer.used
        | _ => 0) + removedBy (change.apply buffer) rest

/-- A second clear that discards less than the cursor had passed wipes the record of the first: the
pair added after it is skipped. -/
theorem forOf_clearTwice_skips :
    let body : List (Act Nat Nat) := [.op .clear,.op (.set 3 3),.op .clear,.op (.set 4 4)]
    ∃ map, Runs (Act.perform Keys.mixed) (jsMapAlloc 4) [.op (.set 1 1),.op (.set 2 2)] map ∧
      slotsRemoved map.toBuffer body ≤ max mapCompactionLogMinBudget map.capacity ∧
      forOf Keys.mixed [[],body] map 0 0 = some [some (1,1),some (2,2)] ∧
      MapData.forOf [[],body] (MapData.performAll [] [.op (.set 1 1),.op (.set 2 2)]) 0 =
        [some (1,1),some (2,2),some (4,4)] := by
  intro body
  have fits : Throughout (Act.perform Keys.mixed) (Act.Fits Keys.mixed) (jsMapAlloc 4) [.op (.set 1 1),.op (.set 2 2)] := by
    decide +kernel
  obtain ⟨map,ran,-,-⟩ := runs_acts fits (.alloc 4)
  have walked : ∀ map ∈ [Act.op (.set 1 1),.op (.set 2 2)].foldlM (Act.perform Keys.mixed) (jsMapAlloc 4),
      slotsRemoved map.toBuffer body ≤ max mapCompactionLogMinBudget map.capacity ∧
        forOf Keys.mixed [[],body] map 0 0 = some [some (1,1),some (2,2)] := by
    decide +kernel
  obtain ⟨removed,read⟩ := walked map ran.foldlM_eq
  exact ⟨map,ran,removed,read,by decide +kernel⟩

end Perry.Runtime.Map
