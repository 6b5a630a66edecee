import Perry.Codegen.IntValuedSound

/-! Whichever activations run, of the function, of the closures it builds and of the module's other
functions, an admitted local that only the judged writes assign holds integers that fit its register. -/
namespace Perry.Codegen.IntValued

open Perry.Effect Perry.Hir

section unjudged

/-- The locals a node gives a value that neither pass looks at: what a `with` write falls back to, and a
closure's parameters. -/
def unjudgedIds : Node → List LocalId
  | .expr (.withSet _ _ _ fallback _) => fallback.target.toList
  | v => v.params

/-- The locals a node gives a value. -/
def touchedIds : Node → List LocalId
  | .bind id _ | .caught id => [id]
  | v => (writtenId v).toList ++ unjudgedIds v

/-- The locals the code assigns in any way, closures included. -/
def touched (code : Code) : List LocalId := code.params.map (·.id) ++ (code.nodes true).flatMap touchedIds

/-- The locals of a function that are given values outside the two passes' sight: parameters, what
parameter defaults assign, and what the nodes of its body assign unjudged. -/
def unjudged (code : Code) : List LocalId :=
  code.params.map (·.id) ++ (code.params.flatMap fun p => nodesOfOption true p.default).flatMap touchedIds ++
    (nodesOfStmts true code.body).flatMap unjudgedIds

/-- A node that gives the local only what the passes let stand. -/
structure Allowed (id : LocalId) (delta : Nat) (v : Node) : Prop where
  seeded : Seeded id v
  judged : Judged id delta v
  apart : id ∉ unjudgedIds v

variable {id : LocalId} {delta bits : Nat} {code : Code} {others : List Code}

theorem allowed_of_untouched {v : Node} (untouched : id ∉ touchedIds v) : Allowed id delta v := by
  have other {x : LocalId} {rest : List LocalId} (apart : id ∉ x :: rest) : x ≠ id := fun same => apart (same ▸ List.mem_cons_self ..)
  cases v with
  | bind x init => exact ⟨fun same => absurd same (other untouched),trivial,List.not_mem_nil⟩
  | caught x => exact ⟨other untouched,trivial,List.not_mem_nil⟩
  | expr e =>
    simp only [touchedIds,List.mem_append,Option.mem_toList,not_or] at untouched
    exact ⟨trivial,judged_of_unwritten untouched.1,untouched.2⟩

/-- All code of the module, if neither what the passes do not see nor the other functions assign the local. -/
theorem allowed_nodes (admitted : Admitted code.body id bits delta) (sole : id ∉ unjudged code)
    (apart : ∀ other ∈ others, id ∉ touched other) : ∀ outer ∈ code :: others, ∀ v ∈ outer.nodes true, Allowed id delta v := by
  intro outer member v inside
  rcases List.mem_cons.mp member with rfl | other
  · simp only [unjudged,List.mem_append,List.mem_flatMap,not_or,not_exists,not_and] at sole
    rcases List.mem_append.mp inside with default | body
    · obtain ⟨p,held,stands⟩ := List.mem_flatMap.mp default
      exact allowed_of_untouched (sole.1.2 v ⟨p,held,stands⟩)
    · exact ⟨admitted.seeded v body,admitted.judged v body,sole.2 v body⟩
  · refine allowed_of_untouched fun touches => apart outer other ?_
    exact List.mem_append_right _ (List.mem_flatMap.mpr ⟨v,inside,touches⟩)

theorem unbound_params (sole : id ∉ unjudged code) (apart : ∀ other ∈ others, id ∉ touched other) :
    ∀ outer ∈ code :: others, id ∉ outer.params.map (·.id) := by
  intro outer member bound
  rcases List.mem_cons.mp member with rfl | other
  · exact sole (List.mem_append_left _ (List.mem_append_left _ bound))
  · exact apart outer other (List.mem_append_left _ bound)

/-- Code that runs binds the local by no parameter. -/
theorem unbound_entered {starts : List Code} {c : Code} (entered : Enters starts c)
    (allowed : ∀ outer ∈ starts, ∀ v ∈ outer.nodes true, Allowed id delta v)
    (unbound : ∀ outer ∈ starts, id ∉ outer.params.map (·.id)) : ∀ p ∈ c.params, ¬p.id = id := by
  obtain ⟨outer,member,within⟩ := entered.inside
  rintro p held rfl
  rcases List.mem_append.mp (within.params p held) with own | closure
  · exact unbound outer member own
  · obtain ⟨v,inside,binds⟩ := List.mem_flatMap.mp closure
    have apart := (allowed outer member v inside).apart
    cases v with
    | expr e =>
      cases e with
      | closure funcId params defaults captures mutableCaptures flags body => exact apart binds
      | _ => cases binds
    | _ => cases binds

end unjudged

section runs

/-- The local holds the value in some activation: of the function, of a closure, or of another function of the
module. Each runs against a host of its own; what it finds for the local, some activation has given it. -/
inductive Held (code : Code) (others : List Code) (id : LocalId) : Val → Prop where
  | run {W : Type} (host : Host W) (place : Place host id) (mode : Mode) (n : Nat) (c : Code) (args : List Val)
      (store : LocalId → Val) (world : W) (entered : Enters (code :: others) c) (rounds : Rounds host)
      (inherited : place.captured = true → Held code others id (store id))
      (kept : ∀ v, place.held world = some v → Held code others id v)
      (shared : ∀ (α : Type) (m : Run W Signal α), host.Asks m → ∀ w v, place.held (m w).2 = some v → place.held w ≠ some v →
        Held code others id v)
      (ordered : ¬place.tooEarly (activation host mode n c args ⟨store,world,[]⟩).2) (v : Val)
      (holds : (∃ e ∈ (activation host mode n c args ⟨store,world,[]⟩).2.trace, assigned id e = some v) ∨
        place.value (activation host mode n c args ⟨store,world,[]⟩).2 = some v) : Held code others id v

variable {W : Type} {host : Host W} {id : LocalId} {place : Place host id} {code : Code} {others : List Code} {delta bits : Nat}

theorem settles_allowed (ceiling : Ceiling delta bits) (rounds : Rounds host) (receives : place.Receives (Register bits)) {v : Node}
    (allowed : Allowed id delta v) : Settles host (· = id) (place.Holds bits) v := by
  cases v with
  | bind x init =>
    intro same
    subst same
    have literal := allowed.seeded rfl
    unfold isLiteral at literal
    split at literal
    · next n => exact Place.holds_declare (register_literal ceiling (of_decide_eq_true literal))
    · cases literal
  | caught x => exact allowed.seeded
  | expr e =>
    cases e with
    | localSet x rhs =>
      intro same
      subst same
      obtain ⟨d,small,admissible⟩ := allowed.judged rfl
      exact holds_localSet ceiling rounds receives small admissible
    | update x op pre =>
      intro same
      subst same
      exact holds_update ceiling rounds receives (allowed.judged rfl) op pre
    | withSet object property value fallback strict =>
      rintro x target rfl
      exact allowed.apart (Option.mem_toList.mpr target)
    | _ => trivial

/-- What one activation keeps. -/
theorem activation_holds (ceiling : Ceiling delta bits) (rounds : Rounds host) (receives : place.Receives (Register bits)) {c : Code}
    (allowed : ∀ v ∈ c.nodes true, Allowed id delta v) (unbound : ∀ p ∈ c.params, ¬p.id = id) (mode : Mode) (n : Nat)
    (args : List Val) : Maintains (place.Holds bits) (activation host mode n c args) := by
  have settles (v : Node) (inside : v ∈ c.nodes true) : Settles host (· = id) (place.Holds bits) v :=
    settles_allowed ceiling rounds receives (allowed v inside)
  refine (Place.steady_holds receives).activation unbound (fun p member v (inside : v ∈ nodesOfOption true p.default) => ?_)
    fun v (inside : v ∈ nodesOfStmts true c.body) => settles v (List.mem_append_right _ inside)
  exact settles v (List.mem_append_left _ (List.mem_flatMap.mpr ⟨p,member,inside⟩))

/-- Where only what the two passes judge assigns an admitted local, every value it holds fits its register,
in every activation that does not read it before its declaration. -/
theorem intValued_register (collected : collectIntValuedI64Locals code.body id = some bits) (sole : id ∉ unjudged code)
    (apart : ∀ other ∈ others, id ∉ touched other) {v : Val} (held : Held code others id v) : Register bits v := by
  obtain ⟨delta,admitted⟩ := admitted collected
  have allowed : ∀ outer ∈ code :: others, ∀ v ∈ outer.nodes true, Allowed id delta v := allowed_nodes admitted sole apart
  have unbound : ∀ outer ∈ code :: others, id ∉ outer.params.map (·.id) := unbound_params sole apart
  induction held with
  | run host place mode n c args store world entered rounds inherited kept shared ordered v holds ihInherited ihKept ihShared =>
    have receives : place.Receives (Register bits) := by
      intro α m asks w v held
      by_cases old : place.held w = some v
      · exact .inl old
      · exact .inr (ihShared α m asks w v held old)
    have start : place.Holds bits ⟨store,world,[]⟩ := by
      refine .inr ⟨fun e none => absurd none List.not_mem_nil,fun v holds => ?_⟩
      unfold Place.value at holds
      split at holds
      · exact ihKept v holds
      · split at holds
        · next fresh =>
          cases holds
          exact ihInherited (by simpa using fresh)
        · cases holds
    obtain ⟨outer,member,within⟩ := entered.inside
    have inside (v : Node) (stands : v ∈ c.nodes true) : Allowed id delta v := allowed outer member v (within.nodes stands)
    have keeps := activation_holds admitted.ceiling rounds receives inside (unbound_entered entered allowed unbound) mode n args
    have fits := (keeps.final start).resolve_left ordered
    rcases holds with ⟨e,given,gives⟩ | current
    · exact fits.assigned e given v gives
    · exact fits.value v current

section samples

/-- A host with a cell for local 4; it adds and subtracts integers as doubles. -/
def celled : Host (Option Val) where
  boxed id := id = 4
  readBox _ := fun cell =>
    match cell with
    | some v => (.ok v,cell)
    | none => (.error (.throw .undefined),cell)
  writeBox id v := fun cell => (.ok (),if id = 4 then some v else cell)
  declareBox id v := fun cell => (.ok (),if id = 4 then some v else cell)
  allocateBox _ _ := pure ()
  releaseBox _ := pure ()
  op op args := fun cell =>
    match op,args with
    | .binary .add,[.num (.int a),.num (.int b)] => (.ok (.num (.ofInt (a + b))),cell)
    | .binary .sub,[.num (.int a),.num (.int b)] => (.ok (.num (.ofInt (a - b))),cell)
    | _,_ => (.ok .undefined,cell)
  closure funcId _ _ := pure (.func funcId)
  refuseWith _ _ := Run.raise .halt
  await v := pure v
  yield v _ := pure v

theorem celled_asks {α : Type} {m : Run (Option Val) Signal α} (asks : celled.Asks m) (cell : Option Val) : (m cell).2 = cell := by
  cases asks with
  | op op args =>
    simp only [celled]
    split <;> rfl
  | _ => rfl

theorem celled_rounds : Rounds celled := ⟨fun _ _ _ _ _ => rfl,fun _ _ _ _ _ => rfl⟩

theorem celled_reads (x : LocalId) (cell : Option Val) : (celled.readBox x cell).2 = cell := by
  cases cell <;> rfl

def cell : Place celled 4 where
  captured := false
  held cell := cell
  early _ := False
  full w v held := by
    subst held
    rfl
  empty w none := by
    subst none
    exact .inr ⟨_,rfl⟩
  reads x w := ⟨fun none => none,fun v held => .inl (celled_reads x w ▸ held)⟩
  writes x v w := ⟨fun none => none,fun u held => by
    by_cases own : x = 4
    · exact .inr ⟨own,by simpa [celled,own] using held⟩
    · exact .inl (by simpa [celled,own] using held)⟩
  declares x v w := ⟨fun none => none,fun u held => by
    by_cases own : x = 4
    · exact .inr ⟨own,by simpa [celled,own] using held⟩
    · exact .inl (by simpa [celled,own] using held)⟩
  asks _ _ none := none

/-- `let x = 0; const f = () => x % 7; while (x < 100) { x = x + 64 }; x--` -/
def climbing : Code :=
  ⟨[],[.let 4 true (some (.integer 0)),
    .let 5 false (some (.closure 1 [] [] [4] [] {} [.return (some (.binary .mod (.localGet 4) (.integer 7)))])),
    .while (.compare .lt (.localGet 4) (.integer 100))
      [.expr (.localSet 4 (.binary .add (.localGet 4) (.integer 64)))],
    .expr (.update 4 .decrement false)]⟩

/-- `function g(y) { return y }` -/
def echo : Code := ⟨[{ id := 6 }],[.return (some (.localGet 6))]⟩

theorem held_climbing : Held climbing [echo] 4 (.int 127) := by
  refine .run celled cell .ecma 3 climbing [] (fun _ => .undefined) none (.start _ (List.mem_cons_self ..))
    celled_rounds (fun inherits => by cases inherits) (fun v none => by cases none) ?_ (fun early => early) _ (.inr (by rfl))
  intro α m asks w v held differs
  rw [celled_asks asks] at held
  exact absurd held differs

theorem intValued_register_climbing : Held climbing [echo] 4 (.int 127) ∧ Register 62 (.int 127) :=
  ⟨held_climbing,intValued_register (by decide +kernel) (by decide +kernel) (by decide +kernel) held_climbing⟩

/-- The place of a local that the host keeps no box for. -/
def unboxed (id : LocalId) : Place celled id where
  captured := false
  held _ := none
  early _ := True
  full _ _ none := by cases none
  empty _ _ := .inl trivial
  reads _ _ := ⟨fun h => h,fun _ none => by cases none⟩
  writes _ _ _ := ⟨fun h => h,fun _ none => by cases none⟩
  declares _ _ _ := ⟨fun h => h,fun _ none => by cases none⟩
  asks _ _ h := h

/-- `function f(x) { x % 7; var x = 5 }`: the declaration reuses the parameter. -/
def redeclared : Code :=
  ⟨[{ id := 9 }],[.expr (.binary .mod (.localGet 9) (.integer 7)),.let 9 true (some (.integer 5))]⟩

theorem held_redeclared : Held redeclared [] 9 (.str "nine") := by
  have trace : (activation celled .ecma 1 redeclared [.str "nine"] ⟨fun _ => .undefined,none,[]⟩).2.trace =
      [.declare 9 (.int 5),.read 9,.declare 9 (.str "nine")] := rfl
  refine .run celled (unboxed 9) .ecma 1 redeclared [.str "nine"] (fun _ => .undefined) none (.start _ (List.mem_cons_self ..))
    celled_rounds (fun inherits => by cases inherits) (fun v none => by cases none) (fun α m _ w v none => by cases none) ?_ _
    (.inl ⟨.declare 9 (.str "nine"),by simp [trace],rfl⟩)
  rw [Place.tooEarly_unboxed rfl,trace]
  decide

theorem intValued_redeclared :
    collectIntValuedI64Locals redeclared.body 9 = some 31 ∧ Held redeclared [] 9 (.str "nine") ∧ ¬Register 31 (.str "nine") := by
  refine ⟨by decide +kernel,held_redeclared,?_⟩
  rintro ⟨r,same,-⟩
  cases same

end samples

end runs

end Perry.Codegen.IntValued
