import Perry.Runtime.ContextStore

/-! Runs over the context store: a finite map from promises to snapshots, whose keys follow the promises
when a copying collection moves them. -/
namespace Perry.Runtime.ContextStore

open Perry.Containers Perry.Machine

variable {S : Type*}

/-- The fate of a key, where `moves` says for each address where its promise is now, if it lives. -/
def fateOf (moves : Nat ≃. Nat) (key : Nat) : CopiedMinorPromiseKeyFate :=
  match moves key with
  | none => .drop
  | some new => if new = key then .keep else .rekey new

inductive Op (S : Type*)
  | insert (key : Nat) (snapshot : S)
  | get (key : Nat)
  | remove (key : Nat)
  | cleanup (moves : Nat ≃. Nat)
  | scan (moves : Nat ≃. Nat) (visit : S → S)

/-- A store, and what it has answered so far. -/
structure Stored (S : Type*) where
  store : PromiseContextStore S
  given : List (Option S)

def step (state : Stored S) : Op S → Option (Stored S)
  | .insert key snapshot => some { state with store := state.store.insert key snapshot }
  | .get key => some { state with given := state.given ++ [state.store.get key] }
  | .remove key => (state.store.remove key).map fun (store,snapshot) => ⟨store,state.given ++ [snapshot]⟩
  | .cleanup moves => (state.store.cleanup (fateOf moves)).map ({ state with store := · })
  | .scan moves visit => (state.store.scan (fun key => (moves key).getD key) visit).map ({ state with store := · })

structure Known (S : Type*) where
  contents : Nat → Option S
  given : List (Option S)

/-- What is at an address after a collection is what was at the address its promise came from. -/
def spec (state : Known S) : Op S → Known S
  | .insert key snapshot => { state with contents := Function.update state.contents key (some snapshot) }
  | .get key => { state with given := state.given ++ [state.contents key] }
  | .remove key => ⟨Function.update state.contents key none,state.given ++ [state.contents key]⟩
  | .cleanup moves => { state with contents := fun key => (moves.symm key).bind state.contents }
  | .scan moves visit => { state with contents := fun key => (moves.symm key).bind fun old => (state.contents old).map visit }

/-- Promises move to addresses that are not in use, and the scanner drops none. -/
def Apart (state : Stored S) : Op S → Prop
  | .cleanup moves => ∀ key ∈ state.store.keys,∀ new ∈ moves key,new ≠ key → new ∉ state.store.keys
  | .scan moves _ => ∀ key ∈ state.store.keys,∃ new ∈ moves key,new ≠ key → new ∉ state.store.keys
  | _ => True

/-- The keys whose promise has moved. -/
def movers (moves : Nat ≃. Nat) (keys : List Nat) : List (Nat × Nat) :=
  keys.filterMap fun key => ((moves key).filter (· ≠ key)).map (key,·)

theorem mem_movers {moves : Nat ≃. Nat} {keys : List Nat} {pair : Nat × Nat} :
    pair ∈ movers moves keys ↔ pair.1 ∈ keys ∧ moves pair.1 = some pair.2 ∧ pair.2 ≠ pair.1 := by
  obtain ⟨old,new⟩ := pair
  simp only [movers,List.mem_filterMap,Option.map_eq_some_iff,Option.filter_eq_some_iff,decide_eq_true_eq,Prod.mk.injEq]
  constructor
  · rintro ⟨_,member,_,⟨found,moved⟩,rfl,rfl⟩
    exact ⟨member,found,moved⟩
  · rintro ⟨member,found,moved⟩
    exact ⟨old,member,new,⟨found,moved⟩,rfl,rfl⟩

theorem movers_fst {moves : Nat ≃. Nat} (keys : List Nat) :
    ((movers moves keys).map Prod.fst).Sublist keys := by
  induction keys with
  | nil => exact .slnil
  | cons key keys ih =>
    rw [movers,List.filterMap_cons]
    split
    · exact ih.cons key
    · next pair found =>
      obtain ⟨_,_,rfl⟩ := Option.map_eq_some_iff.mp found
      exact ih.cons_cons key

theorem foldl_apart {moved : List (Nat × Nat)} {contents : Nat → Option S} {key : Nat}
    (apart : ∀ pair ∈ moved,pair.1 ≠ key ∧ pair.2 ≠ key) : moved.foldl rekeyed contents key = contents key := by
  induction moved generalizing contents with
  | nil => rfl
  | cons pair moved ih =>
    obtain ⟨⟨first,second⟩,others⟩ := List.forall_mem_cons.mp apart
    rw [List.foldl_cons,ih others,rekeyed]
    split
    · rfl
    cases contents pair.1 with
    | none => rfl
    | some context => rw [Option.elim_some,Function.update_of_ne second.symm,Function.update_of_ne first.symm]

theorem foldl_rekeyed {before after : List (Nat × Nat)} {pair : Nat × Nat} {contents : Nat → Option S} {context : S}
    (apart : ∀ other ∈ before ++ after,(other.1 ≠ pair.1 ∧ other.2 ≠ pair.1) ∧ other.1 ≠ pair.2 ∧ other.2 ≠ pair.2)
    (away : pair.1 ≠ pair.2) (there : contents pair.1 = some context) :
    (before ++ pair :: after).foldl rekeyed contents pair.1 = none ∧
      (before ++ pair :: after).foldl rekeyed contents pair.2 = some context := by
  obtain ⟨ahead,behind⟩ := List.forall_mem_append.mp apart
  have held : before.foldl rekeyed contents pair.1 = some context :=
    (foldl_apart fun other member => (ahead other member).1).trans there
  rw [List.foldl_append,List.foldl_cons,foldl_apart fun other member => (behind other member).1,
    foldl_apart fun other member => (behind other member).2,rekeyed,if_neg away,held,Option.elim_some]
  exact ⟨by rw [Function.update_of_ne away,Function.update_self],Function.update_self ..⟩

/-- One by one, the snapshots get to where their promises are, since no promise moves to an address in use. -/
theorem rekeyed_movers {moves : Nat ≃. Nat} {keys : List Nat} {contents : Nat → Option S} (distinct : keys.Nodup)
    (present : ∀ key,key ∈ keys ↔ (contents key).isSome)
    (apart : ∀ key ∈ keys,∃ new ∈ moves key,new ≠ key → new ∉ keys) (key : Nat) :
    (movers moves keys).foldl rekeyed contents key = (moves.symm key).bind contents := by
  have free : ∀ pair ∈ movers moves keys,pair.2 ∉ keys := by
    intro pair member
    obtain ⟨held,moved,away⟩ := mem_movers.mp member
    obtain ⟨new,found,out⟩ := apart pair.1 held
    obtain rfl : new = pair.2 := Option.some.inj (found.symm.trans moved)
    exact out away
  have moved : ∀ pair ∈ movers moves keys,(movers moves keys).foldl rekeyed contents pair.1 = none ∧
      (movers moves keys).foldl rekeyed contents pair.2 = contents pair.1 := by
    intro pair member
    obtain ⟨held,found,away⟩ := mem_movers.mp member
    obtain ⟨context,there⟩ := Option.isSome_iff_exists.mp ((present pair.1).mp held)
    obtain ⟨before,after,split⟩ := List.append_of_mem member
    have firsts : ((movers moves keys).map Prod.fst).Nodup := (movers_fst keys).nodup distinct
    rw [split,List.map_append,List.map_cons,List.nodup_middle,List.nodup_cons,← List.map_append] at firsts
    have inside : ∀ other ∈ before ++ after,other ∈ movers moves keys := by
      intro other among
      rw [split]
      exact List.mem_append.mpr ((List.mem_append.mp among).imp_right (List.mem_cons_of_mem pair))
    rw [there,split]
    refine foldl_rekeyed (fun other among => ?_) away.symm there
    have other_first : other.1 ≠ pair.1 := fun same => firsts.1 (List.mem_map.mpr ⟨other,among,same⟩)
    obtain ⟨other_held,other_found,_⟩ := mem_movers.mp (inside other among)
    refine ⟨⟨other_first,?_⟩,?_,?_⟩
    · exact fun same => free other (inside other among) (same ▸ held)
    · exact fun same => free pair member (same ▸ other_held)
    · exact fun same => other_first (moves.inj other_found (same ▸ found))
  cases back : moves.symm key with
  | none =>
    have out : key ∉ keys → (movers moves keys).foldl rekeyed contents key = none := by
      intro out
      rw [foldl_apart,Option.not_isSome_iff_eq_none.mp (mt (present key).mpr out)]
      intro pair member
      obtain ⟨held,found,_⟩ := mem_movers.mp member
      refine ⟨fun same => out (same ▸ held),fun same => ?_⟩
      rw [same,← moves.eq_some_iff,back] at found
      cases found
    by_cases held : key ∈ keys
    · obtain ⟨new,found,_⟩ := apart key held
      have away : new ≠ key := by
        rintro rfl
        rw [moves.eq_some_iff.mpr found] at back
        cases back
      exact (moved (key,new) (mem_movers.mpr ⟨held,found,away⟩)).1
    · exact out held
  | some old =>
    have forth := moves.eq_some_iff.mp back
    rw [Option.bind_some]
    by_cases member : (old,key) ∈ movers moves keys
    · exact (moved (old,key) member).2
    by_cases same : key = old
    · subst same
      refine foldl_apart fun pair member => ?_
      obtain ⟨_,found,away⟩ := mem_movers.mp member
      refine ⟨fun first => ?_,fun second => ?_⟩
      · rw [first,forth,Option.some.injEq] at found
        exact away (found.symm.trans first.symm)
      · exact away (second.trans (moves.inj found (second ▸ forth)).symm)
    · have dead : old ∉ keys := fun held => member (mem_movers.mpr ⟨held,forth,same⟩)
      rw [Option.not_isSome_iff_eq_none.mp (mt (present old).mpr dead)]
      by_cases held : key ∈ keys
      · obtain ⟨new,found,_⟩ := apart key held
        have away : new ≠ key := by
          rintro rfl
          exact same (moves.inj found forth)
        exact (moved (key,new) (mem_movers.mpr ⟨held,found,away⟩)).1
      · rw [foldl_apart,Option.not_isSome_iff_eq_none.mp (mt (present key).mpr held)]
        intro pair member
        obtain ⟨pair_held,found,_⟩ := mem_movers.mp member
        refine ⟨fun first => held (first ▸ pair_held),fun second => dead ?_⟩
        exact moves.inj found (second ▸ forth) ▸ pair_held

variable {store : PromiseContextStore S} {contents : Nat → Option S}

theorem movers_append (moves : Nat ≃. Nat) (keys rest : List Nat) : movers moves (keys ++ rest) = movers moves keys ++ movers moves rest :=
  List.filterMap_append

theorem keepKey_fateOf (moves : Nat ≃. Nat) (moved : List (Nat × Nat)) (key : Nat) :
    keepKey (fateOf moves) moved key = (moved ++ movers moves [key],(moves key).isSome) := by
  rw [keepKey,fateOf,movers]
  cases found : moves key with
  | none => simp [found]
  | some new => by_cases same : new = key <;> simp [found,same]

/-- The keys in front of the index have been judged and stay; a removal brings an unjudged one to the index. -/
theorem Agrees.retainFrom {moves : Nat ≃. Nat} (agrees : Agrees store contents) {index rounds : Nat}
    (kept : ∀ key ∈ store.keys.take index,(moves key).isSome) (inside : index ≤ store.keys.length)
    (enough : store.keys.length < rounds + index) :
    ∃ after,PromiseContextStore.retainFrom (keepKey (fateOf moves)) rounds index (movers moves (store.keys.take index)) store =
        some (movers moves after.keys,after) ∧
      Agrees after fun key => if (moves key).isSome then contents key else none := by
  induction rounds generalizing store contents index with
  | zero => omega
  | succ rounds ih =>
    rw [PromiseContextStore.retainFrom]
    cases found : store.keys[index]? with
    | none =>
      have all := List.take_of_length_le (List.getElem?_eq_none_iff.mp found)
      rw [all] at kept ⊢
      refine ⟨store,rfl,agrees.ext fun key => ?_⟩
      split
      · rfl
      · next dead => exact Option.not_isSome_iff_eq_none.mp (mt agrees.present.mpr fun member => dead (kept key member))
    | some key =>
      have here := (List.getElem?_eq_some_iff.mp found).1
      obtain ⟨_,held⟩ := agrees.placed index key found
      have longer : store.keys.take (index + 1) = store.keys.take index ++ [key] := by
        rw [List.take_add_one,found]
        rfl
      dsimp only
      rw [held,Option.isSome_some,if_pos rfl,keepKey_fateOf]
      dsimp only
      split
      · next lives =>
        rw [← movers_append,← longer]
        refine ih agrees ?_ here (by omega)
        rw [longer]
        exact List.forall_mem_append.mpr ⟨kept,by simpa using lives⟩
      · next dead =>
        rw [Option.not_isSome_iff_eq_none] at dead
        obtain ⟨next,removed,agrees,keys⟩ := agrees.remove key
        have keys := keys index found
        have shorter := length_swapRemove found
        have none_here : movers moves [key] = [] := by simp [movers,dead]
        rw [removed,Option.bind_some,none_here,List.append_nil,← take_swapRemove found,← keys]
        have still_kept : ∀ key ∈ next.keys.take index,(moves key).isSome := by rwa [keys,take_swapRemove found]
        obtain ⟨after,run,agrees⟩ := ih agrees still_kept (by rw [keys]; omega) (by rw [keys]; omega)
        refine ⟨after,run,agrees.ext fun other => ?_⟩
        rw [Function.update_apply]
        by_cases same : other = key
        · simp [same,dead]
        · rw [if_neg same]

theorem Agrees.cleanup {moves : Nat ≃. Nat} (agrees : Agrees store contents)
    (apart : ∀ key ∈ store.keys,∀ new ∈ moves key,new ≠ key → new ∉ store.keys) :
    ∃ after,store.cleanup (fateOf moves) = some after ∧ Agrees after fun key => (moves.symm key).bind contents := by
  have none_yet : ∀ key ∈ store.keys.take 0,(moves key).isSome := by simp
  have enough : store.keys.length < store.keys.length + 1 + 0 := by omega
  obtain ⟨kept,retained,agrees_kept⟩ := agrees.retainFrom none_yet (Nat.zero_le _) enough
  obtain ⟨after,moved,reached⟩ := agrees_kept.rekeyAll (movers moves kept.keys)
  have present : ∀ {key : Nat},key ∈ kept.keys ↔ (moves key).isSome ∧ key ∈ store.keys := by
    intro key
    rw [agrees_kept.present,agrees.present]
    split
    · next lives => exact (and_iff_right lives).symm
    · next dead => simp [dead]
  refine ⟨after,?_,reached.ext fun key => ?_⟩
  · rw [PromiseContextStore.cleanup,PromiseContextStore.retain]
    rw [List.take_zero] at retained
    rw [show ([] : List (Nat × Nat)) = movers moves [] from rfl,retained]
    exact moved
  · rw [rekeyed_movers agrees_kept.nodup (fun key => agrees_kept.present) ?_ key]
    · cases back : moves.symm key with
      | none => rfl
      | some old =>
        have lives : (moves old).isSome := by rw [moves.eq_some_iff.mp back]; rfl
        simp [lives]
    · intro key member
      obtain ⟨lives,member⟩ := present.mp member
      obtain ⟨new,found⟩ := Option.isSome_iff_exists.mp lives
      exact ⟨new,found,fun away among => apart key member new found away (present.mp among).2⟩

theorem foldl_scanKey (moves : Nat ≃. Nat) (visit : S → S) {keys : List Nat} (distinct : keys.Nodup)
    (entries : Nat → Option (S × Nat)) (moved : List (Nat × Nat)) (lives : ∀ key ∈ keys,(moves key).isSome) :
    keys.foldl (scanKey (fun key => (moves key).getD key) visit) (entries,moved) =
      (fun key => if key ∈ keys then (entries key).map fun entry => (visit entry.1,entry.2) else entries key,
        moved ++ movers moves keys) := by
  induction keys generalizing entries moved with
  | nil => simp [movers]
  | cons key keys ih =>
    obtain ⟨out,distinct⟩ := List.nodup_cons.mp distinct
    obtain ⟨here,lives⟩ := List.forall_mem_cons.mp lives
    obtain ⟨new,found⟩ := Option.isSome_iff_exists.mp here
    rw [List.foldl_cons,scanKey,ih distinct _ _ lives,found,Option.getD_some]
    refine Prod.ext (funext fun other => ?_) ?_
    · by_cases same : other = key
      · subst same
        cases held : entries other <;> simp [out,held]
      · cases held : entries key <;> simp [same,held]
    · by_cases same : new = key <;> simp [movers,found,same]

theorem Agrees.scan {moves : Nat ≃. Nat} (agrees : Agrees store contents) (visit : S → S)
    (apart : ∀ key ∈ store.keys,∃ new ∈ moves key,new ≠ key → new ∉ store.keys) :
    ∃ after,store.scan (fun key => (moves key).getD key) visit = some after ∧
      Agrees after fun key => (moves.symm key).bind fun old => (contents old).map visit := by
  have lives : ∀ key ∈ store.keys,(moves key).isSome := by
    intro key member
    obtain ⟨new,found,_⟩ := apart key member
    exact Option.isSome_iff_exists.mpr ⟨new,found⟩
  have visited : Agrees { store with entries := fun key => (store.entries key).map fun entry => (visit entry.1,entry.2) }
      fun key => (contents key).map visit := by
    refine ⟨?_,?_,?_⟩
    · intro p key found
      obtain ⟨snapshot,held⟩ := agrees.placed p key found
      exact ⟨visit snapshot,by simp [held]⟩
    · intro key snapshot p held
      obtain ⟨⟨old,place⟩,before,same⟩ := Option.map_eq_some_iff.mp held
      obtain ⟨_,rfl⟩ := Prod.mk.inj same
      exact agrees.listed key old place before
    · intro key
      rw [← agrees.get,PromiseContextStore.get,PromiseContextStore.get,Option.map_map,Option.map_map]
      rfl
  have scanned := foldl_scanKey moves visit agrees.nodup store.entries [] lives
  have same : (fun key => if key ∈ store.keys then (store.entries key).map fun entry => (visit entry.1,entry.2) else store.entries key) =
      fun key => (store.entries key).map fun entry => (visit entry.1,entry.2) := by
    funext key
    split
    · rfl
    · next out =>
      have missing := Option.not_isSome_iff_eq_none.mp (mt agrees.present.mpr out)
      rw [← agrees.get,PromiseContextStore.get,Option.map_eq_none_iff] at missing
      rw [missing]
      rfl
  rw [same,List.nil_append] at scanned
  obtain ⟨after,moved,reached⟩ := visited.rekeyAll (movers moves store.keys)
  refine ⟨after,?_,reached.ext fun key => rekeyed_movers agrees.nodup (fun key => ?_) apart key⟩
  · rw [PromiseContextStore.scan,scanned]
    exact moved
  · rw [Option.isSome_map]
    exact agrees.present

structure Stands (state : Stored S) (known : Known S) : Prop where
  agrees : Agrees state.store known.contents
  given : state.given = known.given

theorem Stands.step {state : Stored S} {known : Known S} (stands : Stands state known) {op : Op S} (apart : Apart state op) :
    ∃ after,step state op = some after ∧ Stands after (spec known op) := by
  obtain ⟨agrees,given⟩ := stands
  cases op with
  | insert key snapshot => exact ⟨_,rfl,agrees.insert key snapshot,given⟩
  | get key => exact ⟨_,rfl,agrees,by rw [spec,given,agrees.get]⟩
  | remove key =>
    obtain ⟨after,removed,agrees,_⟩ := agrees.remove key
    exact ⟨⟨after,state.given ++ [known.contents key]⟩,by rw [ContextStore.step,removed]; rfl,agrees,by rw [spec,given]⟩
  | cleanup moves =>
    obtain ⟨after,cleaned,agrees⟩ := agrees.cleanup apart
    exact ⟨⟨after,state.given⟩,by rw [ContextStore.step,cleaned]; rfl,agrees,given⟩
  | scan moves visit =>
    obtain ⟨after,scanned,agrees⟩ := agrees.scan visit apart
    exact ⟨⟨after,state.given⟩,by rw [ContextStore.step,scanned]; rfl,agrees,given⟩

/-- In any interleaving of insertions, lookups, removals and collections, nothing panics, every answer is that
of a finite map whose keys move with the promises, and the keys that the collector walks are those of the map,
each of them once. -/
theorem follows_the_promises (ops : List (Op S)) (apart : Throughout step Apart ⟨.empty,[]⟩ ops) :
    ∃ state,Runs step ⟨.empty,[]⟩ ops state ∧ state.given = (ops.foldl spec ⟨fun _ => none,[]⟩).given ∧
      (∀ key,state.store.get key = (ops.foldl spec ⟨fun _ => none,[]⟩).contents key) ∧ state.store.keys.Nodup ∧
      ∀ key,key ∈ state.store.keys ↔ ((ops.foldl spec ⟨fun _ => none,[]⟩).contents key).isSome := by
  obtain ⟨state,run,stands⟩ := Throughout.refines (fun stands apart => stands.step apart) apart
    (⟨agrees_empty,rfl⟩ : Stands ⟨.empty,[]⟩ ⟨fun _ => none,[]⟩)
  exact ⟨state,run,stands.given,stands.agrees.get,stands.agrees.nodup,fun _ => stands.agrees.present⟩

/-- One promise moves, and the other one dies. -/
theorem follows_the_promises_moved : ∃ state : Stored Char,
    Runs step ⟨.empty,[]⟩ [.insert 1 'a',.insert 2 'b',.cleanup (.single 1 5),.get 5,.get 2] state ∧
      state.given = [some 'a',none] := by
  obtain ⟨state,run,given,_⟩ := follows_the_promises [.insert 1 'a',.insert 2 'b',.cleanup (.single 1 5),.get 5,.get 2] <| by
    refine ⟨trivial,?_⟩
    rintro _ ⟨⟩
    refine ⟨trivial,?_⟩
    rintro _ ⟨⟩
    refine ⟨by simp only [Apart]; decide,?_⟩
    rintro _ -
    refine ⟨trivial,?_⟩
    rintro _ -
    exact ⟨trivial,fun _ _ => trivial⟩
  exact ⟨state,run,given.trans (by decide)⟩

end Perry.Runtime.ContextStore
