import Perry.Compose.Up

/-! What is left behind when `up` fails. -/
namespace Perry.Compose.Up
open Perry.Containers Perry.Machine

section conditions

variable (engine : Engine) (faults : Faults)

end conditions

section calls

variable {faults : Faults} {α : Type} {op : Backend → Except String (α × Backend)} {s : Session}

theorem call_error {message : String} (granted : faults s.calls = none) (error : op s.backend = .error message) :
    call faults op s = (.error message,{ s with calls := s.calls + 1 }) := by
  rw [call,granted,error]

theorem call_ok {value : α} {backend : Backend} (granted : faults s.calls = none) (ok : op s.backend = .ok (value,backend)) :
    call faults op s = (.ok value,{ s with calls := s.calls + 1,backend := backend }) := by
  rw [call,granted,ok]

/-- A call changes nothing but the backend. -/
theorem call_frame : (call faults op s).2.containers = s.containers ∧ (call faults op s).2.created = s.created ∧
    (call faults op s).2.unremoved = s.unremoved := by
  unfold call
  split <;> exact ⟨rfl,rfl,rfl⟩

/-- What holds where the call fails, and where the operation is done, holds after the call. -/
theorem call_reaches {P : Session → Prop} (failed : P { s with calls := s.calls + 1 })
    (done : ∀ value backend,op s.backend = .ok (value,backend) → P { s with calls := s.calls + 1,backend := backend }) :
    P (call faults op s).2 := by
  unfold call
  split
  · exact failed
  · exact failed
  · next ok => exact done _ _ ok

end calls

section removals

variable {faults : Faults} {s : Session}

/-- The containers but for some. -/
def Backend.withoutContainers (b : Backend) (names : List String) : Backend :=
  { b with containers := fun name => if name ∈ names then none else b.containers name }

def Backend.withoutShared (b : Backend) (kind : Kind) (names : List String) : Backend :=
  { b with shared := Function.update b.shared kind fun name => if name ∈ names then none else b.shared kind name }

theorem removal_granted {op : Backend → Except String (Unit × Backend)} (clean : (removal faults op s).unremoved = false) :
    s.unremoved = false ∧ faults s.calls = none := by
  rw [removal,Bool.or_eq_false_iff,Option.isSome_eq_false_iff,Option.isNone_iff_eq_none] at clean
  exact clean

theorem removeContainer_backend {id : String} (granted : faults s.calls = none) :
    (removal faults (·.remove id) s).backend = s.backend.withoutContainers [id] := by
  have shape (b : Backend) : (b.putContainer id none) = b.withoutContainers [id] := by
    rw [Backend.putContainer,Backend.withoutContainers]
    congr 1
    funext name
    rw [Function.update_apply]
    simp only [List.mem_singleton]
  cases found : s.backend.containers id with
  | none =>
    have refused : s.backend.remove id = .error "not found" := by rw [Backend.remove,found]
    rw [removal,call_error granted refused,← shape,Backend.putContainer,← found,Function.update_eq_self]
  | some c =>
    have done : s.backend.remove id = .ok ((),s.backend.putContainer id none) := by rw [Backend.remove,found]
    rw [removal,call_ok granted done,shape]

theorem removeShared_backend {kind : Kind} {name : String} (granted : faults s.calls = none) :
    (removal faults (·.removeShared kind name) s).backend = s.backend.withoutShared kind [name] := by
  have shape (b : Backend) : (b.putShared kind name none) = b.withoutShared kind [name] := by
    rw [Backend.putShared,Backend.withoutShared]
    congr 2
    funext other
    rw [Function.update_apply]
    simp only [List.mem_singleton]
  cases found : s.backend.shared kind name with
  | none =>
    have refused : s.backend.removeShared kind name = .error "not found" := by rw [Backend.removeShared,found]
    rw [removal,call_error granted refused,← shape,Backend.putShared,← found,Function.update_eq_self,Function.update_eq_self]
  | some settings =>
    have done : s.backend.removeShared kind name = .ok ((),s.backend.putShared kind name none) := by rw [Backend.removeShared,found]
    rw [removal,call_ok granted done,shape]

theorem putContainer_without (b : Backend) (id : String) (c : Option Container) :
    (b.putContainer id c).withoutContainers [id] = b.withoutContainers [id] := by
  rw [Backend.withoutContainers,Backend.withoutContainers,Backend.putContainer]
  congr 1
  funext name
  split_ifs with same
  · rfl
  · exact Function.update_of_ne (fun equal => same (List.mem_singleton.mpr equal)) _ _

theorem stop_without (id : String) : (call faults (·.stop id) s).2.backend.withoutContainers [id] = s.backend.withoutContainers [id] := by
  apply call_reaches (P := fun t => t.backend.withoutContainers [id] = s.backend.withoutContainers [id])
  · rfl
  · intro _ backend stopped
    unfold Backend.stop at stopped
    split at stopped
    · obtain ⟨-,rfl⟩ := Prod.mk.inj (Except.ok.inj stopped)
      exact putContainer_without _ _ _
    · cases stopped

theorem withoutContainers_cons (b : Backend) (id : String) (ids : List String) :
    (b.withoutContainers [id]).withoutContainers ids = b.withoutContainers (id :: ids) := by
  rw [Backend.withoutContainers,Backend.withoutContainers,Backend.withoutContainers]
  congr 1
  funext name
  simp only [List.mem_cons,List.not_mem_nil,or_false]
  split_ifs <;> tauto

theorem withoutShared_cons (b : Backend) (kind : Kind) (name : String) (names : List String) :
    (b.withoutShared kind [name]).withoutShared kind names = b.withoutShared kind (name :: names) := by
  rw [Backend.withoutShared,Backend.withoutShared,Backend.withoutShared,Function.update_idem]
  congr 2
  funext other
  simp only [Function.update_self,List.mem_cons,List.not_mem_nil,or_false]
  split_ifs <;> tauto

theorem removeContainers_spec {ids : List String} (clean : (removeContainers faults ids s).unremoved = false) :
    s.unremoved = false ∧ (removeContainers faults ids s).backend = s.backend.withoutContainers ids ∧
      (removeContainers faults ids s).created = s.created := by
  induction ids generalizing s with
  | nil => exact ⟨clean,rfl,rfl⟩
  | cons id ids ih =>
    obtain ⟨clean',backend,created⟩ := ih clean
    obtain ⟨clean',granted⟩ := removal_granted clean'
    obtain ⟨-,kept,same⟩ := @call_frame faults _ (·.stop id) s
    refine ⟨same ▸ clean',?_,?_⟩
    · rw [removeContainers,backend,removeContainer_backend granted,stop_without,withoutContainers_cons]
    · rw [removeContainers,created,← kept]
      exact call_frame.2.1

theorem removeAll_spec {kind : Kind} {names : List String} (clean : (removeAll faults kind names s).unremoved = false) :
    s.unremoved = false ∧ (removeAll faults kind names s).backend = s.backend.withoutShared kind names ∧
      (removeAll faults kind names s).created = s.created := by
  induction names generalizing s with
  | nil =>
    refine ⟨clean,?_,rfl⟩
    rw [removeAll,Backend.withoutShared]
    simp only [List.not_mem_nil,if_false]
    rw [Function.update_eq_self]
  | cons name names ih =>
    obtain ⟨clean',backend,created⟩ := ih clean
    obtain ⟨clean',granted⟩ := removal_granted clean'
    refine ⟨clean',?_,?_⟩
    · rw [removeAll,backend,removeShared_backend granted,withoutShared_cons]
    · rw [removeAll,created]
      exact call_frame.2.1

/-- Where no removal fails the roll-back takes away what the session has noted, and nothing else. -/
theorem rollback_spec (clean : (rollback faults s).unremoved = false) : s.unremoved = false ∧
    (∀ name,(rollback faults s).backend.containers name = if name ∈ s.containers then none else s.backend.containers name) ∧
      ∀ kind name,(rollback faults s).backend.shared kind name = if name ∈ s.created kind then none else s.backend.shared kind name := by
  obtain ⟨clean₁,backend₁,-⟩ := removeAll_spec clean
  obtain ⟨clean₂,backend₂,created₂⟩ := removeAll_spec clean₁
  obtain ⟨clean₃,backend₃,created₃⟩ := removeContainers_spec clean₂
  have final : (rollback faults s).backend = _ := backend₁
  rw [backend₂,backend₃,created₂,created₃] at final
  refine ⟨clean₃,fun name => ?_,fun kind name => ?_⟩
  · rw [final]
    simp only [Backend.withoutShared,Backend.withoutContainers,List.mem_reverse]
  · rw [final]
    cases kind <;> simp [Backend.withoutShared,Backend.withoutContainers]

end removals

section invariants

variable {faults : Faults} {w : Backend} {s : Session}

/-- What there was is as it was, but for what the session has noted, which was not there. -/
structure Clean (w : Backend) (s : Session) : Prop where
  unremoved : s.unremoved = false
  tracked : ∀ name ∈ s.containers,w.containers name = none
  untracked : ∀ name,name ∉ s.containers → s.backend.containers name = w.containers name
  made : ∀ kind,∀ name ∈ s.created kind,w.shared kind name = none ∧ (s.backend.shared kind name).isSome = true
  kept : ∀ kind name,name ∉ s.created kind → s.backend.shared kind name = w.shared kind name

/-- A container that was there is noted as one of the session. -/
def Held (w : Backend) (s : Session) : Prop := ∃ name ∈ s.containers,w.containers name ≠ none

theorem Clean.opened (w : Backend) : Clean w (.opened w) where
  unremoved := rfl
  tracked := List.forall_mem_nil _
  untracked _ _ := rfl
  made _ := List.forall_mem_nil _
  kept _ _ _ := rfl

theorem Clean.restored (clean : Clean w s) (removed : (rollback faults s).unremoved = false) : (rollback faults s).backend = w := by
  obtain ⟨-,containers,shared⟩ := rollback_spec removed
  apply Backend.ext
  · funext kind name
    rw [shared]
    split_ifs with noted
    · rw [(clean.made kind name noted).1]
    · rw [clean.kept kind name noted]
  · funext name
    rw [containers]
    split_ifs with noted
    · rw [clean.tracked name noted]
    · rw [clean.untracked name noted]

/-- Another call that leaves the backend alone. -/
theorem Clean.called (clean : Clean w s) (calls : Nat) : Clean w { s with calls := calls } :=
  ⟨clean.unremoved,clean.tracked,clean.untracked,clean.made,clean.kept⟩

end invariants

section loops

variable {ι : Type} {step : ι → Session → Except Failure Unit × Session} {condition : Session → ι → Prop} {s t : Session} {i : ι}
  {is : List ι}

end loops

section shared

variable {engine : Engine} {faults : Faults} {w : Backend} {s : Session} {kind : Kind} {entry : String × Option Settings}

theorem putShared_shared (b : Backend) (kind other : Kind) (name name' : String) (settings : Option Settings) :
    (b.putShared kind name settings).shared other name' = if other = kind ∧ name' = name then settings else b.shared other name' := by
  rw [Backend.putShared]
  by_cases same : other = kind
  · subst same
    simp only [Function.update_self,Function.update_apply,true_and]
  · simp only [Function.update_of_ne same,same,false_and,if_false]

theorem mem_push (s : Session) (kind other : Kind) (name name' : String) :
    name' ∈ (s.push kind name).created other ↔ name' ∈ s.created other ∨ other = kind ∧ name' = name := by
  rw [Session.push]
  by_cases same : other = kind
  · subst same
    simp only [Function.update_self,List.mem_append,List.mem_singleton,true_and]
  · simp only [Function.update_of_ne same,same,false_and,or_false]

theorem Clean.pushed (clean : Clean w s) {name : String} (absent : s.backend.shared kind name = none) (settings : Settings) (calls : Nat) :
    Clean w ({ s with calls := calls,backend := s.backend.putShared kind name (some settings) }.push kind name) where
  unremoved := clean.unremoved
  tracked := clean.tracked
  untracked := clean.untracked
  made other name' noted := by
    show w.shared other name' = none ∧ ((s.backend.putShared kind name (some settings)).shared other name').isSome = true
    rw [putShared_shared]
    rcases (mem_push _ _ _ _ _).mp noted with before | ⟨rfl,rfl⟩
    · refine ⟨(clean.made other name' before).1,?_⟩
      split_ifs
      · rfl
      · exact (clean.made other name' before).2
    · refine ⟨?_,by rw [if_pos ⟨rfl,rfl⟩]; rfl⟩
      by_cases before : name' ∈ s.created other
      · exact (clean.made other name' before).1
      · rw [← clean.kept other name' before,absent]
  kept other name' unnoted := by
    rw [mem_push,not_or] at unnoted
    show (s.backend.putShared kind name (some settings)).shared other name' = _
    rw [putShared_shared,if_neg unnoted.2,clean.kept other name' unnoted.1]

end shared

section services

variable {engine : Engine} {faults : Faults} {w : Backend} {s : Session} {svcName : String} {svc : Service}

/-- A step is done, or it fails with a roll-back. -/
def Ends (faults : Faults) (done rolledBack : Session → Prop) : Except Failure Unit × Session → Prop
  | (.ok _,s) => done s
  | (.error (.fails _),s) => ∃ before,s = rollback faults before ∧ rolledBack before
  | (.error .panics,_) => True

theorem Ends.mono {done done' rolledBack rolledBack' : Session → Prop} {result : Except Failure Unit × Session}
    (ends : Ends faults done rolledBack result) (ok : ∀ s,done s → done' s) (failed : ∀ s,rolledBack s → rolledBack' s) :
    Ends faults done' rolledBack' result := by
  match result,ends with
  | (.ok _,s),reached => exact ok s reached
  | (.error (.fails _),_),⟨before,same,reached⟩ => exact ⟨before,same,failed before reached⟩
  | (.error .panics,_),_ => exact trivial

theorem Clean.touched (clean : Clean w s) {name : String} (noted : name ∈ s.containers) (c : Option Container) (calls : Nat) :
    Clean w { s with calls := calls,backend := s.backend.putContainer name c } where
  unremoved := clean.unremoved
  tracked := clean.tracked
  untracked other unnoted := by
    have differ : other ≠ name := fun same => unnoted (same ▸ noted)
    exact (Function.update_of_ne differ _ _).trans (clean.untracked other unnoted)
  made := clean.made
  kept := clean.kept

/-- A container is made under a name that was free. -/
theorem Clean.placed (clean : Clean w s) {name : String} (free : w.containers name = none) (c : Option Container) (calls : Nat) :
    Clean w ({ s with calls := calls,backend := s.backend.putContainer name c }.track name) where
  unremoved := clean.unremoved
  tracked other noted := by
    rcases List.mem_append.mp noted with before | new
    · exact clean.tracked other before
    · rw [List.mem_singleton.mp new,free]
  untracked other unnoted := by
    rw [Session.track,List.mem_append,List.mem_singleton,not_or] at unnoted
    exact (Function.update_of_ne unnoted.2 _ _).trans (clean.untracked other unnoted.1)
  made := clean.made
  kept := clean.kept

theorem Held.called {α : Type} {op : Backend → Except String (α × Backend)} {result : Except String α × Session} (held : Held w s)
    (called : call faults op s = result) : Held w result.2 := by
  rw [← called,Held,call_frame.1]
  exact held

theorem Held.tracked (held : Held w s) (id : String) : Held w (s.track id) := by
  obtain ⟨name,noted,there⟩ := held
  exact ⟨name,List.mem_append_left _ noted,there⟩

end services

section exits

/-- An engine whose project declares a network or a volume, and no services. -/
def declaring (networks volumes : List (String × Option Settings)) : Engine where
  file := ⟨[],List.nodup_nil,networks,volumes⟩
  projectName := "app"
  userBridgeSupported := true
  enforcement := .lenient
  serviceSpecHash _ := ""
  warnings _ _ := []
  cachedName _ := none
  generatedName := id

/-- One whose project has a service besides. -/
def serving : Engine where
  __ := declaring [("net",none)] [("data",none)]
  file := ⟨[("web",{ image := some "server" })],List.nodup_singleton _,[("net",none)],[("data",none)]⟩

end exits

end Perry.Compose.Up
