import Perry.Runtime.KeyedTable

/-! Runs over a keyed table: what it gives back is what was parked, in the order in which it was parked,
whatever the collector does in between. -/
namespace Perry.Runtime.KeyedTable

open Perry.Machine

variable {T : Type*}

inductive Op (T : Type*)
  | push (key : Nat) (value : T)
  | takeAll (key : Nat)
  | removeKey (key : Nat)
  /-- The scanner at one entry, which is named by its `seq`. -/
  | visit (seq : Nat) (forward : Nat → Nat)
  | scan (forward : Nat → Nat)
  | retain (fate : Nat → Option Nat)

/-- A table, and what it has given back so far. -/
structure Tabled (T : Type*) where
  table : PromiseKeyedTable T
  given : List (List T)

def step (state : Tabled T) : Op T → Option (Tabled T)
  | .push key value => (state.table.push key value).map fun table => { state with table := table }
  | .takeAll key => (state.table.takeAll key).map fun (table,values) => ⟨table,state.given ++ [values]⟩
  | .removeKey key => (state.table.removeKey key).map fun table => { state with table := table }
  | .visit seq forward => some { state with table := state.table.visit (state.table.entries.findIdx (·.seq = seq)) forward }
  | .scan forward => some { state with table := state.table.scan forward }
  | .retain fate => some { state with table := state.table.retainMut fate }

/-- The reactions that are waiting, in the order of their registration, each with its ticket and the
address of its promise. -/
structure Waiting (T : Type*) where
  rows : List (Nat × Nat × T)
  next : Nat
  given : List (List T)

def spec (state : Waiting T) : Op T → Waiting T
  | .push key value => { state with rows := state.rows ++ [(state.next,key,value)], next := state.next + 1 }
  | .takeAll key =>
    { state with
      rows := state.rows.filter (·.2.1 ≠ key)
      given := state.given ++ [(state.rows.filter (·.2.1 = key)).map (·.2.2)] }
  | .removeKey key => { state with rows := state.rows.filter (·.2.1 ≠ key) }
  | .visit ticket forward =>
    { state with rows := state.rows.map fun row => if row.1 = ticket then (row.1,forward row.2.1,row.2.2) else row }
  | .scan forward => { state with rows := state.rows.map fun row => (row.1,forward row.2.1,row.2.2) }
  | .retain fate => { state with rows := state.rows.filterMap fun row => (fate row.2.1).map fun key => (row.1,key,row.2.2) }

/-- There is room for one more entry. -/
def Room (state : Tabled T) : Op T → Prop
  | .push _ _ => state.table.entries.length < 2 ^ 32 ∧ state.table.nextSeq + 1 < 2 ^ 64
  | _ => True

instance (state : Tabled T) : (op : Op T) → Decidable (Room state op)
  | .push _ _ => inferInstanceAs (Decidable (_ ∧ _))
  | .takeAll _ | .removeKey _ | .visit _ _ | .scan _ | .retain _ => .isTrue trivial

structure Stands (state : Tabled T) (waiting : Waiting T) : Prop where
  wf : state.table.WellFormed
  perm : state.table.rows.Perm waiting.rows
  sorted : waiting.rows.Pairwise (·.1 < ·.1)
  next : state.table.nextSeq = waiting.next
  given : state.given = waiting.given

variable {state : Tabled T} {waiting : Waiting T}

theorem Stands.push (stands : Stands state waiting) (room : state.table.entries.length < 2 ^ 32 ∧ state.table.nextSeq + 1 < 2 ^ 64)
    (key : Nat) (value : T) : ∃ after,step state (.push key value) = some after ∧ Stands after (spec waiting (.push key value)) := by
  obtain ⟨table,pushed,wf,rows,next⟩ := PromiseKeyedTable.push_spec stands.wf room key value
  refine ⟨⟨table,state.given⟩,by rw [step,pushed]; rfl,wf,?_,?_,?_,stands.given⟩
  · rw [rows,stands.next]
    exact stands.perm.append_right _
  · rw [spec,List.pairwise_append]
    refine ⟨stands.sorted,List.pairwise_singleton ..,?_⟩
    intro row member last single
    obtain rfl := List.mem_singleton.mp single
    obtain ⟨e,present,rfl⟩ := List.mem_map.mp (stands.perm.mem_iff.mpr member)
    exact stands.next ▸ stands.wf.fresh e present
  · rw [next,stands.next,spec]

theorem Stands.takeAll (stands : Stands state waiting) (key : Nat) :
    ∃ after,step state (.takeAll key) = some after ∧ Stands after (spec waiting (.takeAll key)) := by
  obtain ⟨table,taken,wf,left,next⟩ := PromiseKeyedTable.takeAll_spec stands.wf key stands.perm stands.sorted
  refine ⟨_,by rw [step,taken]; rfl,wf,left,stands.sorted.sublist List.filter_sublist,next.trans stands.next,?_⟩
  rw [spec,← stands.given]

theorem Stands.removeKey (stands : Stands state waiting) (key : Nat) :
    ∃ after,step state (.removeKey key) = some after ∧ Stands after (spec waiting (.removeKey key)) := by
  obtain ⟨table,taken,wf,left,next⟩ := PromiseKeyedTable.takeAll_spec stands.wf key stands.perm stands.sorted
  rw [step,PromiseKeyedTable.removeKey]
  split
  · next empty =>
    have none_of_key : ∀ e ∈ state.table.entries,e.key ≠ key := by simp [List.isEmpty_iff.mp empty]
    have all := (PromiseKeyedTable.no_rows stands.perm none_of_key).2
    refine ⟨state,rfl,stands.wf,?_,stands.sorted.sublist List.filter_sublist,stands.next,stands.given⟩
    rw [spec,all]
    exact stands.perm
  · refine ⟨⟨table,state.given⟩,by rw [taken]; rfl,wf,left,stands.sorted.sublist List.filter_sublist,next.trans stands.next,stands.given⟩

/-- The collector changes keys and drops entries; the tickets and their order stay. -/
theorem Stands.rewritten (stands : Stands state waiting) {table : PromiseKeyedTable T} {rows : List (Nat × Nat × T)}
    (perm : table.rows.Perm rows) (sorted : rows.Pairwise (·.1 < ·.1)) (old : ∀ row ∈ rows,∃ before ∈ waiting.rows,before.1 = row.1)
    (next : table.nextSeq = state.table.nextSeq)
    (indexed : table.indexDirty = false → table.index = state.table.index ∧ table.entries = state.table.entries ∧
      state.table.indexDirty = false) :
    Stands ⟨table,state.given⟩ ⟨rows,waiting.next,waiting.given⟩ where
  wf := {
    fresh e member := by
      obtain ⟨before,present,same⟩ := old _ (perm.mem_iff.mp (List.mem_map_of_mem (f := Entry.row) member))
      obtain ⟨known,was,rfl⟩ := List.mem_map.mp (stands.perm.mem_iff.mpr present)
      rw [next]
      have was_seq : known.seq = e.seq := same
      exact was_seq ▸ stands.wf.fresh known was
    distinct := by
      rw [← PromiseKeyedTable.seq_rows]
      exact (perm.map Prod.fst).nodup_iff.mpr (List.pairwise_map.mpr (sorted.imp Nat.ne_of_lt))
    indexed clean := by
      obtain ⟨index,entries,before⟩ := indexed clean
      rw [index,entries]
      exact stands.wf.indexed before }
  perm := perm
  sorted := sorted
  next := next.trans stands.next
  given := stands.given

theorem Stands.scan (stands : Stands state waiting) (forward : Nat → Nat) :
    ∃ after,step state (.scan forward) = some after ∧ Stands after (spec waiting (.scan forward)) := by
  refine ⟨_,rfl,stands.rewritten ?_ (List.pairwise_map.mpr stands.sorted) ?_ rfl ?_⟩
  · rw [PromiseKeyedTable.rows,PromiseKeyedTable.scan,List.map_map]
    have mapped := stands.perm.map fun row => (row.1,forward row.2.1,row.2.2)
    rwa [PromiseKeyedTable.rows,List.map_map] at mapped
  · intro row member
    obtain ⟨before,present,rfl⟩ := List.mem_map.mp member
    exact ⟨before,present,rfl⟩
  · intro clean
    rw [PromiseKeyedTable.scan,Bool.or_eq_false_iff,List.any_eq_false] at clean
    refine ⟨rfl,?_,clean.1⟩
    rw [PromiseKeyedTable.scan,List.map_congr_left (g := id) fun e member => ?_,List.map_id]
    have same : forward e.key = e.key := by simpa using clean.2 e member
    rw [same,id]

theorem Stands.retain (stands : Stands state waiting) (fate : Nat → Option Nat) :
    ∃ after,step state (.retain fate) = some after ∧ Stands after (spec waiting (.retain fate)) := by
  refine ⟨_,rfl,stands.rewritten ?_ ?_ ?_ ?_ ?_⟩
  · have mapped := stands.perm.filterMap fun row => (fate row.2.1).map fun key => (row.1,key,row.2.2)
    rw [PromiseKeyedTable.retainMut]
    split
    · next empty =>
      rw [PromiseKeyedTable.rows,List.isEmpty_iff.mp empty] at mapped ⊢
      exact mapped
    · rw [PromiseKeyedTable.rows,List.filterMap_map] at mapped
      rw [PromiseKeyedTable.rows,List.map_filterMap]
      refine (List.Perm.of_eq (List.filterMap_congr fun e _ => ?_)).trans mapped
      rw [Option.map_map]
      rfl
  · refine List.pairwise_filterMap.mpr (stands.sorted.imp ?_)
    intro a b less row first row' second
    obtain ⟨_,_,rfl⟩ := Option.map_eq_some_iff.mp first
    obtain ⟨_,_,rfl⟩ := Option.map_eq_some_iff.mp second
    exact less
  · intro row member
    obtain ⟨before,present,kept⟩ := List.mem_filterMap.mp member
    obtain ⟨_,_,rfl⟩ := Option.map_eq_some_iff.mp kept
    exact ⟨before,present,rfl⟩
  · rw [PromiseKeyedTable.retainMut]
    split <;> rfl
  · rw [PromiseKeyedTable.retainMut]
    split
    · exact fun clean => ⟨rfl,rfl,clean⟩
    · exact fun dirty => absurd dirty (by simp)

/-- Entries are told apart by their `seq`, so that the one found by it is the only one it names. -/
theorem modify_findIdx {entries : List (Entry T)} (distinct : (entries.map Entry.seq).Nodup) (seq : Nat) (f : Entry T → Entry T) :
    entries.modify (entries.findIdx (·.seq = seq)) f = entries.map fun e => if e.seq = seq then f e else e := by
  induction entries with
  | nil => rfl
  | cons e entries ih =>
    rw [List.map_cons,List.nodup_cons] at distinct
    rw [List.findIdx_cons,List.map_cons]
    by_cases here : e.seq = seq
    · have others : ∀ other ∈ entries,(if other.seq = seq then f other else other) = id other := by
        intro other member
        exact if_neg fun same : other.seq = seq => distinct.1 (List.mem_map.mpr ⟨other,member,same.trans here.symm⟩)
      rw [List.map_congr_left others,List.map_id,if_pos here,decide_eq_true here,cond_true,List.modify_zero_cons]
    · rw [if_neg here,decide_eq_false here,cond_false,List.modify_succ_cons,ih distinct.2]

theorem entries_visit (table : PromiseKeyedTable T) (position : Nat) (forward : Nat → Nat) :
    (table.visit position forward).entries = table.entries.modify position fun e => { e with key := forward e.key } := by
  rw [PromiseKeyedTable.visit,List.modify_eq_set_getElem?]
  split
  · next missing => rw [missing]; rfl
  · next e found => rw [found]; rfl

theorem rows_visit (wf : state.table.WellFormed) (seq : Nat) (forward : Nat → Nat) :
    (state.table.visit (state.table.entries.findIdx (·.seq = seq)) forward).rows =
      state.table.rows.map fun row => if row.1 = seq then (row.1,forward row.2.1,row.2.2) else row := by
  rw [PromiseKeyedTable.rows,entries_visit,modify_findIdx wf.distinct,PromiseKeyedTable.rows,List.map_map,List.map_map]
  refine List.map_congr_left fun e _ => ?_
  rw [Function.comp_apply,Function.comp_apply,Entry.row,Entry.row]
  split <;> rfl

theorem Stands.visit (stands : Stands state waiting) (seq : Nat) (forward : Nat → Nat) :
    ∃ after,step state (.visit seq forward) = some after ∧ Stands after (spec waiting (.visit seq forward)) := by
  have mapped := stands.perm.map fun row => if row.1 = seq then (row.1,forward row.2.1,row.2.2) else row
  refine ⟨_,rfl,stands.rewritten ?_ ?_ ?_ ?_ ?_⟩
  · exact (List.Perm.of_eq (rows_visit stands.wf seq forward)).trans mapped
  · refine List.pairwise_map.mpr (stands.sorted.imp ?_)
    intro a b less
    split <;> split <;> exact less
  · intro row member
    obtain ⟨before,present,rfl⟩ := List.mem_map.mp member
    refine ⟨before,present,?_⟩
    split <;> rfl
  · rw [PromiseKeyedTable.visit]
    split <;> rfl
  · rw [PromiseKeyedTable.visit]
    split
    · exact fun clean => ⟨rfl,rfl,clean⟩
    · next e found =>
      intro clean
      rw [Bool.or_eq_false_iff] at clean
      refine ⟨rfl,?_,clean.1⟩
      have same : forward e.key = e.key := by simpa using clean.2
      rw [same]
      obtain ⟨inside,rfl⟩ := List.getElem?_eq_some_iff.mp found
      exact List.set_getElem_self inside

theorem Stands.step (stands : Stands state waiting) {op : Op T} (room : Room state op) :
    ∃ after,step state op = some after ∧ Stands after (spec waiting op) := by
  cases op with
  | push key value => exact stands.push room key value
  | takeAll key => exact stands.takeAll key
  | removeKey key => exact stands.removeKey key
  | visit seq forward => exact stands.visit seq forward
  | scan forward => exact stands.scan forward
  | retain fate => exact stands.retain fate

theorem stands_new : Stands ⟨(PromiseKeyedTable.new : PromiseKeyedTable T),[]⟩ ⟨[],0,[]⟩ :=
  ⟨PromiseKeyedTable.wellFormed_new,.refl _,.nil,rfl,rfl⟩

/-- In any interleaving of registrations, drains and collections, no operation is refused, each drain gives
all the reactions of its promise in the order of their registration, and every other one stays. -/
theorem drains_in_order (ops : List (Op T)) (room : Throughout step Room ⟨PromiseKeyedTable.new,[]⟩ ops) :
    ∃ state,Runs step ⟨PromiseKeyedTable.new,[]⟩ ops state ∧ state.given = (ops.foldl spec ⟨[],0,[]⟩).given ∧
      state.table.rows.Perm (ops.foldl spec ⟨[],0,[]⟩).rows := by
  obtain ⟨state,run,stands⟩ := Throughout.refines (fun stands room => stands.step room) room stands_new
  exact ⟨state,run,stands.given,stands.perm⟩

/-- Two promises, the first of which moves to the place of a third one between its registrations. -/
theorem drains_in_order_moved : ∃ state : Tabled Char,
    Runs step ⟨PromiseKeyedTable.new,[]⟩
      [.push 1 'a',.push 2 'b',.scan (fun key => if key = 1 then 3 else key),.push 3 'c',.takeAll 3] state ∧
      state.given = [['a','c']] ∧ state.table.rows.Perm [(1,2,'b')] :=
  drains_in_order [.push 1 'a',.push 2 'b',.scan (fun key => if key = 1 then 3 else key),.push 3 'c',.takeAll 3] <| by
    refine ⟨by decide,?_⟩
    rintro _ ⟨⟩
    refine ⟨by decide,?_⟩
    rintro _ ⟨⟩
    refine ⟨trivial,?_⟩
    rintro _ ⟨⟩
    refine ⟨by decide,?_⟩
    rintro _ ⟨⟩
    exact ⟨trivial,fun _ _ => trivial⟩

end Perry.Runtime.KeyedTable
