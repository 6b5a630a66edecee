import Mathlib.Data.PEquiv
import Perry.Containers.SwapRemove
import Perry.Machine.Runs

/-! `PromiseContextStore`: the context snapshot of each promise. A place stands with each snapshot, so
that a removal is constant time while the collector can walk the keys in a row. -/
namespace Perry.Runtime.ContextStore

open Perry.Containers Perry.Machine

structure PromiseContextStore (S : Type*) where
  entries : Nat → Option (S × Nat)
  keys : List Nat

inductive CopiedMinorPromiseKeyFate
  | keep
  | rekey (new : Nat)
  | drop

variable {S A : Type*}

/-- What the collection's cleanup says about a key, with the moves it has noted so far. -/
def keepKey (fate : Nat → CopiedMinorPromiseKeyFate) (moved : List (Nat × Nat)) (key : Nat) : List (Nat × Nat) × Bool :=
  match fate key with
  | .keep => (moved,true)
  | .rekey new => (moved ++ [(key,new)],true)
  | .drop => (moved,false)

/-- One round of the root scanner. -/
def scanKey (forward : Nat → Nat) (visit : S → S) (state : (Nat → Option (S × Nat)) × List (Nat × Nat)) (key : Nat) :
    (Nat → Option (S × Nat)) × List (Nat × Nat) :=
  ((state.1 key).elim state.1 fun entry => Function.update state.1 key (some (visit entry.1,entry.2)),
    if forward key = key then state.2 else state.2 ++ [(key,forward key)])

namespace PromiseContextStore

def empty : PromiseContextStore S := ⟨fun _ => none,[]⟩

variable (store : PromiseContextStore S)

def insert (key : Nat) (snapshot : S) : PromiseContextStore S :=
  match store.entries key with
  | some (_,position) => { store with entries := Function.update store.entries key (some (snapshot,position)) }
  | none =>
    { entries := Function.update store.entries key (some (snapshot,store.keys.length))
      keys := store.keys ++ [key] }

def get (key : Nat) : Option S := (store.entries key).map Prod.fst

/-- The end of `remove` and of a `rekey` that collides: the last key moves into the gap, and its entry
learns of it. A place outside the row and a key without an entry panic. -/
def closeGap (position : Nat) : Option (PromiseContextStore S) :=
  if position < store.keys.length then
    let keys := swapRemove store.keys position
    match keys[position]? with
    | none => some { store with keys := keys }
    | some moved => (store.entries moved).map fun entry =>
      { entries := Function.update store.entries moved (some (entry.1,position)), keys := keys }
  else none

def remove (key : Nat) : Option (PromiseContextStore S × Option S) :=
  match store.entries key with
  | none => some (store,none)
  | some (snapshot,position) =>
    (closeGap { store with entries := Function.update store.entries key none } position).map (·,some snapshot)

/-- The rest of `retain` from an index on. A removal brings another key to the index. -/
def retainFrom (keep : A → Nat → A × Bool) : Nat → Nat → A → PromiseContextStore S → Option (A × PromiseContextStore S)
  | 0,_,_,_ => none
  | rounds + 1,index,state,store =>
    match store.keys[index]? with
    | none => some (state,store)
    | some key =>
      let answer := if (store.entries key).isSome then keep state key else (state,false)
      if answer.2 then retainFrom keep rounds (index + 1) answer.1 store
      else (store.remove key).bind fun removed => retainFrom keep rounds index answer.1 removed.1

def retain (keep : A → Nat → A × Bool) (state : A) : Option (A × PromiseContextStore S) :=
  retainFrom keep (store.keys.length + 1) 0 state store

def rekey (oldKey newKey : Nat) : Option (PromiseContextStore S) :=
  if oldKey = newKey then some store
  else match store.entries oldKey with
    | none => some store
    | some (context,position) =>
      let entries := Function.update store.entries oldKey none
      if (entries newKey).isSome then
        -- The snapshot that moves is kept, and the one it finds is dropped.
        (closeGap { store with entries := entries } position).bind fun closed =>
          (closed.entries newKey).map fun target =>
            { closed with entries := Function.update closed.entries newKey (some (context,target.2)) }
      else if position < store.keys.length then
        some ⟨Function.update entries newKey (some (context,position)),store.keys.set position newKey⟩
      else none

def rekeyAll (moved : List (Nat × Nat)) : Option (PromiseContextStore S) :=
  moved.foldlM (fun store pair => store.rekey pair.1 pair.2) store

/-- `cleanup_copied_minor_promise_contexts_for_gc`. -/
def cleanup (fate : Nat → CopiedMinorPromiseKeyFate) : Option (PromiseContextStore S) :=
  (store.retain (keepKey fate) []).bind fun kept => kept.2.rekeyAll kept.1

/-- The root scanner: every snapshot is scanned, and only then the keys change. -/
def scan (forward : Nat → Nat) (visit : S → S) : Option (PromiseContextStore S) :=
  let scanned := store.keys.foldl (scanKey forward visit) (store.entries,[])
  rekeyAll { store with entries := scanned.1 } scanned.2

end PromiseContextStore

/-- The places and the entries say the same, and the store holds a finite map. -/
structure Agrees (store : PromiseContextStore S) (contents : Nat → Option S) : Prop where
  placed : ∀ p key,store.keys[p]? = some key → ∃ snapshot,store.entries key = some (snapshot,p)
  listed : ∀ key snapshot p,store.entries key = some (snapshot,p) → store.keys[p]? = some key
  get : ∀ key,store.get key = contents key

/-- As before, but for one key, whose entry is out while its place is still there. -/
structure Gapped (store : PromiseContextStore S) (key position : Nat) (contents : Nat → Option S) : Prop where
  gap : store.keys[position]? = some key
  out : store.entries key = none
  placed : ∀ p other,p ≠ position → store.keys[p]? = some other → ∃ snapshot,store.entries other = some (snapshot,p)
  listed : ∀ other snapshot p,store.entries other = some (snapshot,p) → store.keys[p]? = some other
  get : ∀ other,store.get other = contents other

variable {store : PromiseContextStore S} {contents : Nat → Option S} {key : Nat}

theorem get_update (store : PromiseContextStore S) {keys : List Nat} (key other : Nat) (entry : Option (S × Nat)) :
    (PromiseContextStore.mk (Function.update store.entries key entry) keys).get other =
      Function.update store.get key (entry.map Prod.fst) other := by
  simp only [PromiseContextStore.get,Function.update_apply]
  split <;> rfl

theorem Agrees.ext {other : Nat → Option S} (agrees : Agrees store contents) (same : ∀ key,contents key = other key) :
    Agrees store other := ⟨agrees.placed,agrees.listed,fun key => (agrees.get key).trans (same key)⟩

theorem Agrees.get_eq (agrees : Agrees store contents) : store.get = contents := funext agrees.get

theorem Agrees.present (agrees : Agrees store contents) : key ∈ store.keys ↔ (contents key).isSome := by
  rw [← agrees.get,PromiseContextStore.get,Option.isSome_map]
  constructor
  · intro member
    obtain ⟨p,found⟩ := List.mem_iff_getElem?.mp member
    obtain ⟨snapshot,held⟩ := agrees.placed p key found
    rw [held]
    rfl
  · intro held
    obtain ⟨⟨snapshot,p⟩,held⟩ := Option.isSome_iff_exists.mp held
    exact List.mem_of_getElem? (agrees.listed key snapshot p held)

theorem Agrees.nodup (agrees : Agrees store contents) : store.keys.Nodup := by
  rw [List.nodup_iff_getElem?_ne_getElem?]
  intro i j less inside same
  have found := List.getElem?_eq_getElem inside
  obtain ⟨_,first⟩ := agrees.placed j _ found
  obtain ⟨_,second⟩ := agrees.placed i _ (same.trans found)
  rw [first,Option.some.injEq,Prod.mk.injEq] at second
  omega

theorem agrees_empty : Agrees (.empty : PromiseContextStore S) fun _ => none :=
  ⟨by simp [PromiseContextStore.empty],by simp [PromiseContextStore.empty],by simp [PromiseContextStore.empty,PromiseContextStore.get]⟩

theorem Agrees.insert (agrees : Agrees store contents) (key : Nat) (snapshot : S) :
    Agrees (store.insert key snapshot) (Function.update contents key (some snapshot)) := by
  rw [PromiseContextStore.insert]
  split
  · next old position held =>
    refine ⟨?_,?_,?_⟩
    · intro p other found
      simp only [Function.update_apply]
      split
      · next same =>
        obtain ⟨_,known⟩ := agrees.placed p other found
        rw [same,held,Option.some.injEq,Prod.mk.injEq] at known
        exact ⟨snapshot,by rw [known.2]⟩
      · exact agrees.placed p other found
    · intro other new p held'
      simp only [Function.update_apply] at held'
      split at held'
      · next same =>
        obtain ⟨_,rfl⟩ := Prod.mk.inj (Option.some.inj held')
        exact same ▸ agrees.listed key old position held
      · exact agrees.listed other new p held'
    · intro other
      rw [get_update store,← agrees.get_eq]
      rfl
  · next missing =>
    refine ⟨?_,?_,?_⟩
    · intro p other found
      dsimp only at found ⊢
      obtain before | behind := lt_or_ge p store.keys.length
      · rw [List.getElem?_append_left before] at found
        obtain ⟨old,held⟩ := agrees.placed p other found
        refine ⟨old,?_⟩
        rw [Function.update_of_ne (fun same => by rw [same,missing] at held; cases held),held]
      · rw [List.getElem?_append_right behind,List.getElem?_singleton] at found
        split at found
        · next last =>
          obtain rfl := Option.some.inj found
          exact ⟨snapshot,by rw [Function.update_self,show p = store.keys.length by omega]⟩
        · cases found
    · intro other new p held
      simp only [Function.update_apply] at held
      split at held
      · next same =>
        obtain ⟨_,rfl⟩ := Prod.mk.inj (Option.some.inj held)
        rw [List.getElem?_concat_length,same]
      · have found := agrees.listed other new p held
        rw [List.getElem?_append_left (List.getElem?_eq_some_iff.mp found).1,found]
    · intro other
      rw [get_update store,← agrees.get_eq]
      rfl

theorem Gapped.close {position : Nat} (gapped : Gapped store key position contents) :
    ∃ after,store.closeGap position = some after ∧ Agrees after contents ∧ after.keys = swapRemove store.keys position := by
  have inside := (List.getElem?_eq_some_iff.mp gapped.gap).1
  rw [PromiseContextStore.closeGap,if_pos inside]
  have away : ∀ {p : Nat} {other : Nat} {snapshot : S},store.entries other = some (snapshot,p) → p ≠ position := by
    rintro p other snapshot held rfl
    have found := gapped.listed other snapshot p held
    rw [gapped.gap,Option.some.injEq] at found
    rw [← found,gapped.out] at held
    cases held
  obtain ⟨front,cut,at_end⟩ | ⟨front,last,cut,inner⟩ := split_at gapped.gap
  · dsimp only
    rw [cut,at_end,swapRemove_end,List.getElem?_eq_none (Nat.le_refl _)]
    refine ⟨_,rfl,⟨?_,?_,gapped.get⟩,rfl⟩
    · intro p other found
      have bound := (List.getElem?_eq_some_iff.mp found).1
      exact gapped.placed p other (at_end ▸ bound.ne) (by rw [cut,List.getElem?_append_left bound,found])
    · intro other snapshot p held
      have found := gapped.listed other snapshot p held
      have bound := (List.getElem?_eq_some_iff.mp found).1
      rw [cut,List.length_append,List.length_singleton] at bound
      have different := away held
      rwa [cut,List.getElem?_append_left (by omega)] at found
  · have inner := (List.getElem?_eq_some_iff.mp inner).1
    have last_at : store.keys[front.length]? = some last := by rw [cut,List.getElem?_concat_length]
    obtain ⟨snapshot,held⟩ := gapped.placed _ last inner.ne' last_at
    dsimp only
    rw [cut,swapRemove_inner inner,List.getElem?_set_self inner]
    dsimp only
    rw [held]
    refine ⟨_,rfl,⟨?_,?_,?_⟩,rfl⟩
    · intro p other found
      dsimp only at found ⊢
      by_cases here : p = position
      · rw [here,List.getElem?_set_self inner,Option.some.injEq] at found
        exact ⟨snapshot,by rw [← found,Function.update_self,here]⟩
      · rw [List.getElem?_set_ne (Ne.symm here)] at found
        have bound := (List.getElem?_eq_some_iff.mp found).1
        obtain ⟨old,known⟩ := gapped.placed p other here (by rw [cut,List.getElem?_append_left bound,found])
        have different : other ≠ last := by
          rintro rfl
          rw [held,Option.some.injEq,Prod.mk.injEq] at known
          omega
        exact ⟨old,by rw [Function.update_of_ne different,known]⟩
    · intro other new p known
      simp only [Function.update_apply] at known
      split at known
      · next same =>
        obtain ⟨_,rfl⟩ := Prod.mk.inj (Option.some.inj known)
        rw [List.getElem?_set_self inner,same]
      · next different =>
        have found := gapped.listed other new p known
        have bound := (List.getElem?_eq_some_iff.mp found).1
        rw [cut,List.length_append,List.length_singleton] at bound
        have before : p ≠ front.length := by
          rintro rfl
          rw [last_at,Option.some.injEq] at found
          exact different found.symm
        rw [List.getElem?_set_ne (away known).symm]
        rwa [cut,List.getElem?_append_left (by omega)] at found
    · intro other
      rw [get_update store,← gapped.get]
      refine congrFun (Function.update_eq_self_iff.mpr ?_) other
      rw [PromiseContextStore.get,held]
      rfl

theorem Agrees.gapped {snapshot : S} {position : Nat} (agrees : Agrees store contents)
    (held : store.entries key = some (snapshot,position)) :
    Gapped { store with entries := Function.update store.entries key none } key position (Function.update contents key none) where
  gap := agrees.listed key snapshot position held
  out := Function.update_self ..
  placed p other away found := by
    have different : other ≠ key := by
      rintro rfl
      obtain ⟨_,known⟩ := agrees.placed p other found
      rw [held,Option.some.injEq,Prod.mk.injEq] at known
      exact away known.2.symm
    dsimp only
    rw [Function.update_of_ne different]
    exact agrees.placed p other found
  listed other new p known := by
    simp only [Function.update_apply] at known
    split at known
    · cases known
    · exact agrees.listed other new p known
  get other := by
    rw [get_update store,← agrees.get_eq]
    rfl

theorem Agrees.remove (agrees : Agrees store contents) (key : Nat) :
    ∃ after,store.remove key = some (after,contents key) ∧ Agrees after (Function.update contents key none) ∧
      ∀ p,store.keys[p]? = some key → after.keys = swapRemove store.keys p := by
  have known := agrees.get key
  rw [PromiseContextStore.get] at known
  rw [PromiseContextStore.remove]
  split
  · next missing =>
    rw [missing] at known
    refine ⟨store,by rw [← known]; rfl,agrees.ext fun other => ?_,fun p found => ?_⟩
    · rw [Function.update_eq_self_iff.mpr known]
    · obtain ⟨_,held⟩ := agrees.placed p key found
      rw [missing] at held
      cases held
  · next snapshot position held =>
    obtain ⟨after,closed,removed,keys⟩ := (agrees.gapped held).close
    rw [held] at known
    refine ⟨after,by rw [closed,← known]; rfl,removed,fun p found => ?_⟩
    obtain ⟨_,same⟩ := agrees.placed p key found
    rw [held,Option.some.injEq,Prod.mk.injEq] at same
    rw [keys,same.2]

/-- What `rekey` is to do: the snapshot moves, over one that is there. -/
def rekeyed (contents : Nat → Option S) (pair : Nat × Nat) : Nat → Option S :=
  if pair.1 = pair.2 then contents
  else (contents pair.1).elim contents fun context => Function.update (Function.update contents pair.1 none) pair.2 (some context)

theorem Agrees.rekey (agrees : Agrees store contents) (oldKey newKey : Nat) :
    ∃ after,store.rekey oldKey newKey = some after ∧ Agrees after (rekeyed contents (oldKey,newKey)) := by
  have known := agrees.get oldKey
  rw [PromiseContextStore.get] at known
  rw [PromiseContextStore.rekey,rekeyed]
  split
  · exact ⟨store,rfl,agrees⟩
  next different =>
  split
  · next missing =>
    rw [missing] at known
    exact ⟨store,rfl,by rw [← known]; exact agrees⟩
  next context position held =>
  rw [held] at known
  have gapped := agrees.gapped held
  have inside := (List.getElem?_eq_some_iff.mp gapped.gap).1
  rw [← known]
  dsimp only [Option.map_some,Option.elim_some]
  split
  · next collides =>
    obtain ⟨closed,close,agrees,_⟩ := gapped.close
    rw [close]
    have there : (closed.get newKey).isSome := by
      rw [agrees.get,← gapped.get,PromiseContextStore.get,Option.isSome_map]
      exact collides
    rw [PromiseContextStore.get,Option.isSome_map] at there
    obtain ⟨⟨old,place⟩,there⟩ := Option.isSome_iff_exists.mp there
    have target := agrees.insert newKey context
    rw [PromiseContextStore.insert,there] at target
    exact ⟨_,by rw [Option.bind_some,there]; rfl,target⟩
  · next free =>
    rw [Option.not_isSome_iff_eq_none] at free
    refine ⟨_,rfl,?_,?_,?_⟩
    · intro p other found
      dsimp only at found ⊢
      by_cases here : p = position
      · rw [here,List.getElem?_set_self inside,Option.some.injEq] at found
        exact ⟨context,by rw [← found,Function.update_self,here]⟩
      · rw [List.getElem?_set_ne (Ne.symm here)] at found
        obtain ⟨old,there⟩ := gapped.placed p other here found
        dsimp only at there
        have different : other ≠ newKey := by
          rintro rfl
          rw [free] at there
          cases there
        exact ⟨old,by rw [Function.update_of_ne different,there]⟩
    · intro other new p there
      dsimp only at there
      rw [Function.update_apply _ newKey] at there
      split at there
      · next same =>
        obtain ⟨_,rfl⟩ := Prod.mk.inj (Option.some.inj there)
        rw [List.getElem?_set_self inside,same]
      · have found := gapped.listed other new p there
        rw [List.getElem?_set_ne,found]
        rintro rfl
        rw [gapped.gap,Option.some.injEq] at found
        rw [← found,Function.update_self] at there
        cases there
    · intro other
      rw [get_update { store with entries := Function.update store.entries oldKey none },← funext gapped.get]
      rfl

theorem Agrees.rekeyAll (agrees : Agrees store contents) (moved : List (Nat × Nat)) :
    ∃ after,store.rekeyAll moved = some after ∧ Agrees after (moved.foldl rekeyed contents) := by
  induction moved generalizing store contents with
  | nil => exact ⟨store,rfl,agrees⟩
  | cons pair moved ih =>
    obtain ⟨next,first,agrees⟩ := agrees.rekey pair.1 pair.2
    obtain ⟨after,run,agrees⟩ := ih agrees
    refine ⟨after,?_,agrees⟩
    rw [PromiseContextStore.rekeyAll,List.foldlM_cons,first]
    exact run

end Perry.Runtime.ContextStore
