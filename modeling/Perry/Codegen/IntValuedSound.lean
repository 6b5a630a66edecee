import Perry.Codegen.IntValued

/-! Steps of an activation: they keep an admitted local within its magnitude, so that a 64-bit register
holds it, whatever else may assign it. -/
namespace Perry.Codegen.IntValued

open Perry.Effect Perry.Hir

section rounding

theorem roundNat_le_of_lt {m k : Nat} (positive : m ≠ 0) (below : m < 2 ^ k) : roundNat m ≤ 2 ^ k := by
  have top : m.log2 + 1 ≤ k := (Nat.log2_lt positive).mpr below
  have fits : m < 2 ^ (m.log2 + 1 - 53) * 2 ^ (m.log2 + 1 - (m.log2 + 1 - 53)) := by
    rw [← Nat.pow_add,Nat.add_sub_cancel' (Nat.sub_le ..)]
    exact Nat.lt_log2_self
  have kept : m / 2 ^ (m.log2 + 1 - 53) + 1 ≤ 2 ^ (m.log2 + 1 - (m.log2 + 1 - 53)) :=
    Nat.div_lt_of_lt_mul fits
  have up : (m / 2 ^ (m.log2 + 1 - 53) + 1) * 2 ^ (m.log2 + 1 - 53) ≤ 2 ^ k := calc
    _ ≤ 2 ^ (m.log2 + 1 - (m.log2 + 1 - 53)) * 2 ^ (m.log2 + 1 - 53) := Nat.mul_le_mul_right _ kept
    _ = 2 ^ (m.log2 + 1) := by rw [← Nat.pow_add,Nat.sub_add_cancel (Nat.sub_le ..)]
    _ ≤ 2 ^ k := Nat.pow_le_pow_right (by decide) top
  unfold roundNat
  dsimp only
  split
  · exact up
  · exact Nat.le_trans (Nat.mul_le_mul_right _ (Nat.le_succ _)) up

/-- Past a power of two, what is at most half a unit is rounded away. -/
theorem roundNat_absorbs {m k : Nat} (wide : 53 ≤ k) (above : 2 ^ k ≤ m) (near : m ≤ 2 ^ k + 2 ^ (k - 53)) :
    roundNat m = 2 ^ k := by
  obtain ⟨j,rfl⟩ : ∃ j, k = j + 53 := ⟨k - 53,by omega⟩
  rw [Nat.add_sub_cancel] at near
  have half : 0 < 2 ^ j := Nat.two_pow_pos j
  have whole : 2 ^ (j + 53) = 2 ^ 52 * 2 ^ (j + 1) := by
    rw [← Nat.pow_add]
    congr 1
    omega
  have unit : 2 ^ (j + 1) = 2 * 2 ^ j := Nat.pow_succ'
  have length : m.log2 = j + 53 := by
    rw [Nat.log2_eq_iff (by omega)]
    exact ⟨above,by rw [Nat.pow_succ 2 (j + 53)]; omega⟩
  obtain ⟨r,rfl⟩ : ∃ r, m = 2 ^ (j + 53) + r := ⟨m - 2 ^ (j + 53),by omega⟩
  have shift : j + 53 + 1 - 53 = j + 1 := by omega
  have small : r < 2 ^ (j + 1) := by omega
  unfold roundNat
  simp only [length,shift]
  have kept : (2 ^ (j + 53) + r) / Nat.pow 2 (j + 1) = 2 ^ 52 := by
    show (2 ^ (j + 53) + r) / 2 ^ (j + 1) = 2 ^ 52
    rw [whole,Nat.add_comm,Nat.add_mul_div_right _ _ (by omega),Nat.div_eq_of_lt small,Nat.zero_add]
  have rest : (2 ^ (j + 53) + r) % Nat.pow 2 (j + 1) = r := by
    show (2 ^ (j + 53) + r) % 2 ^ (j + 1) = r
    rw [whole,Nat.add_comm,Nat.add_mul_mod_self_right,Nat.mod_eq_of_lt small]
  rw [kept,rest,if_neg]
  · exact whole.symm
  · show ¬(2 ^ (j + 1) < 2 * r ∨ 2 ^ (j + 1) = 2 * r ∧ 2 ^ 52 % 2 = 1)
    rintro (above | ⟨_,odd⟩)
    · omega
    · cases odd

theorem roundNat_le {m k : Nat} (wide : 53 ≤ k) (near : m ≤ 2 ^ k + 2 ^ (k - 53)) : roundNat m ≤ 2 ^ k := by
  by_cases below : m < 2 ^ k
  · by_cases zero : m = 0
    · subst zero
      simp [roundNat]
    · exact roundNat_le_of_lt zero below
  · exact Nat.le_of_eq (roundNat_absorbs wide (by omega) near)

theorem ofInt_bounded {n : Int} {k : Nat} (wide : 53 ≤ k) (near : n.natAbs ≤ 2 ^ k + 2 ^ (k - 53)) :
    ∃ r : Int, Hir.Num.ofInt n = .int r ∧ r.natAbs ≤ 2 ^ k := by
  unfold Hir.Num.ofInt
  split
  · next small =>
    have top : maxExact ≤ 2 ^ k := Nat.pow_le_pow_right (n := 2) (by decide) wide
    exact ⟨n,rfl,Nat.le_trans small top⟩
  · split
    · exact ⟨_,rfl,by simpa using roundNat_le wide near⟩
    · exact ⟨_,rfl,by simpa using roundNat_le wide near⟩

end rounding

/-- The value as a 64-bit register holds it, at most `2 ^ bits` in magnitude. -/
def Register (bits : Nat) (v : Val) : Prop := ∃ r : Int64, v = .int r.toInt ∧ r.toInt.natAbs ≤ 2 ^ bits

theorem register_int {bits : Nat} {n : Int} (narrow : bits ≤ 62) (small : n.natAbs ≤ 2 ^ bits) :
    Register bits (.int n) := by
  have top : 2 ^ bits ≤ 2 ^ 62 := Nat.pow_le_pow_right (by decide) narrow
  have same : (Int64.ofInt n).toInt = n := Int64.toInt_ofInt_of_le (by omega) (by omega)
  exact ⟨.ofInt n,by rw [same],by rwa [same]⟩

/-- Sums of integers past the exact range are the nearest doubles. -/
structure Rounds {W : Type} (host : Host W) : Prop where
  add : ∀ a b w, maxExact < (a + b).natAbs → (a + b).natAbs ≤ 2 ^ 63 →
    host.op (.binary .add) [.int a,.int b] w = (.ok (.num (.ofInt (a + b))),w)
  sub : ∀ a b w, maxExact < (a - b).natAbs → (a - b).natAbs ≤ 2 ^ 63 →
    host.op (.binary .sub) [.int a,.int b] w = (.ok (.num (.ofInt (a - b))),w)

section steps

variable {W : Type} {host : Host W} {delta bits : Nat}

theorem Ceiling.rounded (ceiling : Ceiling delta bits) {n : Int} (near : n.natAbs ≤ 2 ^ bits + delta) :
    n.natAbs ≤ 2 ^ 63 ∧ ∃ r : Int, Hir.Num.ofInt n = .int r ∧ r.natAbs ≤ 2 ^ bits := by
  have top : 2 ^ bits ≤ 2 ^ 62 := Nat.pow_le_pow_right (by decide) ceiling.register
  obtain rfl | ⟨wide,absorbed⟩ := ceiling.absorbs
  · refine ⟨by omega,?_⟩
    by_cases low : 53 ≤ bits
    · exact ofInt_bounded low (Nat.le_add_right_of_le near)
    · have small : 2 ^ bits ≤ 2 ^ 53 := Nat.pow_le_pow_right (by decide) (by omega)
      exact ⟨n,if_pos (by unfold maxExact; omega),near⟩
  · have half : 2 ^ (bits - 53) ≤ 2 ^ 9 := Nat.pow_le_pow_right (by decide) (by have := ceiling.register; omega)
    exact ⟨by omega,ofInt_bounded wide (by omega)⟩

/-- One step of an admitted local, at the bound as everywhere below it. -/
theorem applyOp_register (ceiling : Ceiling delta bits) {op : BinaryOp} {a b n : Int}
    (exact : Op.pure? (.binary op) [.int a,.int b] = exactInt n)
    (rounds : ∀ w, maxExact < n.natAbs → n.natAbs ≤ 2 ^ 63 →
      host.op (.binary op) [.int a,.int b] w = (.ok (.num (.ofInt n)),w))
    (near : n.natAbs ≤ 2 ^ bits + delta) (s : State W) :
    ∃ v, applyOp host (.binary op) [.int a,.int b] s = (.ok v,s) ∧ Register bits v := by
  obtain ⟨short,r,rounded,small⟩ := ceiling.rounded near
  refine ⟨.int r,?_,register_int ceiling.register small⟩
  by_cases held : n.natAbs ≤ maxExact
  · rw [Hir.Num.ofInt,if_pos held] at rounded
    cases rounded
    rw [exactInt,if_pos held] at exact
    rw [applyOp,exact]
    rfl
  · rw [exactInt,if_neg held] at exact
    have asked := rounds s.world (by omega) short
    rw [rounded] at asked
    simp only [applyOp,exact,Host.lift,asked]
    rfl

end steps

section binding

/-- The value an event gives the local. -/
def assigned (id : LocalId) : Event → Option Val
  | .declare x v | .write x v => if x = id then some v else none
  | _ => none

/-- Some read, latest event first, comes before every assignment. -/
def readEarly (id : LocalId) : List Event → Bool
  | [] => false
  | .read x :: earlier => (x == id && !earlier.any fun e => (assigned id e).isSome) || readEarly id earlier
  | _ :: earlier => readEarly id earlier

/-- What an operation of the host does to a box: nothing, empty it, or put a value of `given` in it. -/
structure Leaves {W : Type} (held : W → Option Val) (early : W → Prop) (given : Val → Prop) (w w' : W) : Prop where
  early : early w → early w'
  held : ∀ v, held w' = some v → held w = some v ∨ given v

/-- Where an activation has a local: in a box, which the host fills as it is told to and whose reads it tells
to be too early, or in its own store, where a closure finds what it captured from the start. -/
structure Place {W : Type} (host : Host W) (id : LocalId) where
  captured : Bool
  held : W → Option Val
  early : W → Prop
  full : ∀ w v, held w = some v → host.readBox id w = (.ok v,w)
  empty : ∀ w, held w = none → early (host.readBox id w).2 ∨ ∃ e, (host.readBox id w).1 = .error e
  reads : ∀ x w, Leaves held early (fun _ => False) w (host.readBox x w).2
  writes : ∀ x v w, Leaves held early (fun u => x = id ∧ v = u) w (host.writeBox x v w).2
  declares : ∀ x v w, Leaves held early (fun u => x = id ∧ v = u) w (host.declareBox x v w).2
  asks : ∀ {α : Type} {m : Run W Signal α}, host.Asks m → ∀ w, early w → early (m w).2

variable {W : Type} {host : Host W} {id : LocalId} (place : Place host id)

namespace Place

/-- What the local holds, once it has been assigned. -/
def value (s : State W) : Option Val :=
  if host.boxed id then place.held s.world
  else if place.captured || s.trace.any fun e => (assigned id e).isSome then some (s.store id) else none

/-- The local has been read before it was assigned. -/
def tooEarly (s : State W) : Prop :=
  if host.boxed id then place.early s.world else place.captured = false ∧ readEarly id s.trace = true

/-- What the host does between the activation's own steps puts only these values in the box. -/
def Receives (foreign : Val → Prop) : Prop :=
  ∀ {α : Type} {m : Run W Signal α}, host.Asks m → ∀ w v, place.held (m w).2 = some v → place.held w = some v ∨ foreign v

/-- Every value the local was given, and the one it holds, fits the register. -/
structure Fits (bits : Nat) (s : State W) : Prop where
  assigned : ∀ e ∈ s.trace, ∀ v, assigned id e = some v → Register bits v
  value : ∀ v, place.value s = some v → Register bits v

/-- A step that gives the local at most values of `given`. -/
structure Moves (given : Val → Prop) (s t : State W) : Prop where
  early : place.tooEarly s → place.tooEarly t
  assigned : ∀ e ∈ t.trace, ∀ v, assigned id e = some v → e ∈ s.trace ∨ given v
  value : ∀ v, place.value t = some v → place.value s = some v ∨ given v

variable {place} {bits : Nat} {given foreign : Val → Prop}

theorem value_boxed (boxed : host.boxed id = true) (s : State W) : place.value s = place.held s.world := if_pos boxed

theorem value_unboxed (unboxed : host.boxed id = false) (s : State W) : place.value s =
    if place.captured || s.trace.any fun e => (IntValued.assigned id e).isSome then some (s.store id) else none :=
  if_neg (by simp [unboxed])

theorem tooEarly_boxed (boxed : host.boxed id = true) (s : State W) : place.tooEarly s = place.early s.world := if_pos boxed

theorem tooEarly_unboxed (unboxed : host.boxed id = false) (s : State W) :
    place.tooEarly s = (place.captured = false ∧ readEarly id s.trace = true) :=
  if_neg (by simp [unboxed])

theorem Moves.mono {s t : State W} (moves : place.Moves given s t) (more : ∀ v, given v → foreign v) : place.Moves foreign s t :=
  ⟨moves.early,fun e member v gives => (moves.assigned e member v gives).imp_right (more v),
    fun v holds => (moves.value v holds).imp_right (more v)⟩

theorem Moves.fits {s t : State W} (moves : place.Moves given s t) (good : ∀ v, given v → Register bits v)
    (fits : place.Fits bits s) : place.Fits bits t := by
  refine ⟨fun e member v gives => ?_,fun v holds => ?_⟩
  · rcases moves.assigned e member v gives with old | new
    · exact fits.assigned e old v gives
    · exact good v new
  · rcases moves.value v holds with old | new
    · exact fits.value v old
    · exact good v new

theorem Moves.maintains {ε α : Type} {m : Run (State W) ε α} (moves : ∀ s, place.Moves given s (m s).2)
    (good : ∀ v, given v → Register bits v) : Maintains (fun s => place.tooEarly s ∨ place.Fits bits s) m := by
  refine .of_final fun s holds => ?_
  rcases holds with early | fits
  · exact .inl ((moves s).early early)
  · exact .inr ((moves s).fits good fits)

theorem Moves.maintains_early {ε α : Type} {m : Run (State W) ε α} (moves : ∀ s, place.Moves given s (m s).2) :
    Maintains place.tooEarly m :=
  .of_final fun s => (moves s).early

theorem moves_lift {α : Type} {m : Run W Signal α} (leaves : ∀ w, Leaves place.held place.early given w (m w).2)
    (s : State W) : place.Moves given s (Host.lift m s).2 := by
  have ended : (Host.lift m s).2 = { s with world := (m s.world).2 } := by
    unfold Host.lift
    split <;> simp_all
  rw [ended]
  cases own : host.boxed id with
  | true =>
    refine ⟨?_,fun e member v _ => .inl member,?_⟩
    · simpa only [tooEarly_boxed own] using (leaves s.world).early
    · simpa only [value_boxed own] using (leaves s.world).held
  | false =>
    refine ⟨?_,fun e member v _ => .inl member,?_⟩
    · simp only [tooEarly_unboxed own,imp_self]
    · simp only [value_unboxed own]
      exact fun v holds => .inl holds

/-- An event that neither reads nor assigns the local. -/
theorem moves_emit {ε : Type} {e : Event} (quiet : assigned id e = none) (s : State W) :
    place.Moves given s ((emit e : Run (State W) ε Unit) s).2 := by
  have grows : readEarly id s.trace = true → readEarly id (e :: s.trace) = true := by
    intro early
    cases e <;> simp [readEarly,early]
  have trace : ∀ f ∈ e :: s.trace, ∀ v, assigned id f = some v → f ∈ s.trace ∨ given v := by
    intro f member v gives
    rcases List.mem_cons.mp member with rfl | old
    · rw [quiet] at gives
      cases gives
    · exact .inl old
  have ended : ((emit e : Run (State W) ε Unit) s).2 = { s with trace := e :: s.trace } := rfl
  rw [ended]
  cases own : host.boxed id with
  | true =>
    refine ⟨?_,trace,?_⟩
    · simp only [tooEarly_boxed own,imp_self]
    · simp only [value_boxed own]
      exact fun v holds => .inl holds
  | false =>
    refine ⟨?_,trace,?_⟩
    · simpa only [tooEarly_unboxed own] using And.imp_right grows
    · simp only [value_unboxed own,List.any_cons,quiet,Option.isSome_none,Bool.false_or]
      exact fun v holds => .inl holds

/-- The common shape of a write and of a declaration. -/
theorem moves_assign {e : Event} {m : Run W Signal Unit} {x : LocalId} {v : Val}
    (gives : assigned id e = if x = id then some v else none) (silent : ∀ y, e ≠ .read y)
    (leaves : ∀ w, Leaves place.held place.early (fun u => x = id ∧ v = u) w (m w).2) (s : State W) :
    place.Moves (fun u => x = id ∧ v = u) s
      ((emit e >>= fun _ => if host.boxed x then Host.lift m else setStore x v : Eval W Unit) s).2 := by
  have same : readEarly id (e :: s.trace) = readEarly id s.trace := by
    cases e with
    | read y => exact absurd rfl (silent y)
    | _ => rfl
  have trace : ∀ f ∈ e :: s.trace, ∀ u, assigned id f = some u → f ∈ s.trace ∨ x = id ∧ v = u := by
    intro f member u given
    rcases List.mem_cons.mp member with rfl | old
    · rw [gives] at given
      split at given
      · next equal =>
        cases given
        exact .inr ⟨equal,rfl⟩
      · cases given
    · exact .inl old
  by_cases boxed : host.boxed x = true
  · have ended : ((emit e >>= fun _ => if host.boxed x then Host.lift m else setStore x v : Eval W Unit) s).2 =
        { s with trace := e :: s.trace,world := (m s.world).2 } := by
      simp only [boxed,if_true,Run.bind_apply,emit,Run.update,Host.lift]
      split <;> simp_all
    rw [ended]
    cases own : host.boxed id with
    | true =>
      refine ⟨?_,trace,?_⟩
      · simpa only [tooEarly_boxed own] using (leaves s.world).early
      · simpa only [value_boxed own] using (leaves s.world).held
    | false =>
      have differ : x ≠ id := fun equal => by rw [equal,own] at boxed; cases boxed
      rw [if_neg differ] at gives
      refine ⟨?_,trace,?_⟩
      · simp only [tooEarly_unboxed own,same,imp_self]
      · simp only [value_unboxed own,List.any_cons,gives,Option.isSome_none,Bool.false_or]
        exact fun v holds => .inl holds
  · have ended : ((emit e >>= fun _ => if host.boxed x then Host.lift m else setStore x v : Eval W Unit) s).2 =
        { s with trace := e :: s.trace,store := Function.update s.store x v } := by
      rw [if_neg boxed]
      rfl
    rw [ended]
    cases own : host.boxed id with
    | true =>
      refine ⟨?_,trace,?_⟩
      · simp only [tooEarly_boxed own,imp_self]
      · simp only [value_boxed own]
        exact fun v holds => .inl holds
    | false =>
      refine ⟨?_,trace,?_⟩
      · simp only [tooEarly_unboxed own,same,imp_self]
      · simp only [value_unboxed own,List.any_cons,gives]
        intro u holds
        by_cases equal : x = id
        · subst equal
          exact .inr ⟨rfl,by simpa using holds⟩
        · exact .inl (by simpa [equal,Function.update_of_ne (Ne.symm equal)] using holds)

theorem moves_write (x : LocalId) (v : Val) (s : State W) :
    place.Moves (fun u => x = id ∧ v = u) s (writeLocal host x v s).2 :=
  moves_assign rfl (fun _ same => by cases same) (place.writes x v) s

theorem moves_declare (x : LocalId) (v : Val) (s : State W) :
    place.Moves (fun u => x = id ∧ v = u) s (declareLocal host x v s).2 :=
  moves_assign rfl (fun _ same => by cases same) (place.declares x v) s

/-- What is kept by every step that gives the local foreign values at most is kept by all other steps. -/
theorem steady (receives : place.Receives foreign) {guarded : LocalId → Prop} {I : State W → Prop}
    (still : ∀ {ε α : Type} {m : Run (State W) ε α}, (∀ s, place.Moves foreign s (m s).2) → Maintains I m)
    (write : ∀ x v, ¬guarded x → Maintains I (writeLocal host x v))
    (declare : ∀ x v, ¬guarded x → Maintains I (declareLocal host x v)) : Steady host guarded I where
  read x := by
    have asked (s : State W) : place.Moves foreign s (Host.lift (host.readBox x) s).2 :=
      (moves_lift (place.reads x) s).mono fun _ none => none.elim
    refine .bind (still (moves_emit rfl)) fun _ => .ite (still asked) ?_
    exact .of_final fun s holds => holds
  write := write
  declare := declare
  ask asks := still (moves_lift fun w => ⟨place.asks asks w,receives asks w⟩)
  suspend := still (moves_emit rfl)
  iteration body := still (moves_emit rfl)

theorem steady_early : Steady host (fun _ => False) place.tooEarly := by
  have receives : place.Receives fun _ => True := fun _ _ _ _ => .inr trivial
  exact steady receives Moves.maintains_early (fun x v _ => Moves.maintains_early (moves_write x v)) fun x v _ =>
    Moves.maintains_early (moves_declare x v)

variable (place bits) in
/-- The invariant of a run: an early read, or only values that fit. -/
def Holds (s : State W) : Prop := place.tooEarly s ∨ place.Fits bits s

theorem steady_holds (receives : place.Receives (Register bits)) : Steady host (· = id) (place.Holds bits) := by
  refine steady receives (fun moves => Moves.maintains moves fun v good => good) (fun x v free => ?_) fun x v free => ?_
  · exact Moves.maintains (moves_write x v) fun u given => absurd given.1 free
  · exact Moves.maintains (moves_declare x v) fun u given => absurd given.1 free

theorem holds_write {v : Val} (good : Register bits v) : Maintains (place.Holds bits) (writeLocal host id v) :=
  Moves.maintains (moves_write id v) fun _ given => given.2 ▸ good

theorem holds_declare {v : Val} (good : Register bits v) : Maintains (place.Holds bits) (declareLocal host id v) :=
  Moves.maintains (moves_declare id v) fun _ given => given.2 ▸ good

/-- A read gives a value that fits, unless it comes too early or throws. -/
theorem read_register (receives : place.Receives (Register bits)) (s : State W) (holds : place.Holds bits s) :
    Run.Post (fun v t => place.tooEarly t ∨ place.Holds bits t ∧ Register bits v) (fun _ t => place.Holds bits t)
      (readLocal host id s).1 (readLocal host id s).2 := by
  have kept : place.Holds bits (readLocal host id s).2 := ((steady_holds receives).read id).final holds
  rcases holds with early | fits
  · have still := (steady_early.read id).final early
    rcases ran : readLocal host id s with ⟨e | v,t⟩
    · rw [ran] at still
      exact .inl still
    · rw [ran] at still
      exact .inl still
  cases own : host.boxed id with
  | true =>
    have shape : readLocal host id s = Host.lift (host.readBox id) { s with trace := .read id :: s.trace } := by
      simp only [readLocal,fetchLocal,own,if_true,Run.bind_apply,emit,Run.update]
    cases held : place.held s.world with
    | some v =>
      have ran : readLocal host id s = (.ok v,{ s with trace := .read id :: s.trace }) := by
        simp only [shape,Host.lift,place.full s.world v held]
      rw [ran] at kept ⊢
      exact .inr ⟨kept,fits.value v (by rw [value_boxed own,held])⟩
    | none =>
      have early := place.empty s.world held
      rcases ran : host.readBox id s.world with ⟨e | v,w⟩
      · have threw : readLocal host id s = (.error e,{ s with trace := .read id :: s.trace,world := w }) := by
          simp only [shape,Host.lift,ran]
        rw [threw] at kept ⊢
        exact kept
      · have gave : readLocal host id s = (.ok v,{ s with trace := .read id :: s.trace,world := w }) := by
          simp only [shape,Host.lift,ran]
        rw [ran] at early
        rw [gave]
        refine .inl ?_
        rw [tooEarly_boxed own]
        exact early.resolve_right fun ⟨e,threw⟩ => by cases threw
  | false =>
    have ran : readLocal host id s = (.ok (s.store id),{ s with trace := .read id :: s.trace }) := by
      simp only [readLocal,fetchLocal,own,Run.bind_apply,emit,Run.update]
      rfl
    rw [ran] at kept ⊢
    cases set : place.captured || s.trace.any fun e => (IntValued.assigned id e).isSome with
    | true => exact .inr ⟨kept,fits.value _ (by rw [value_unboxed own,set,if_pos rfl])⟩
    | false =>
      obtain ⟨fresh,unassigned⟩ := Bool.or_eq_false_iff.mp set
      refine .inl ?_
      rw [tooEarly_unboxed own]
      refine ⟨fresh,?_⟩
      simp only [readEarly,unassigned,beq_self_eq_true,Bool.not_false,Bool.and_self,Bool.true_or]

/-- What follows a read keeps the invariant if it does so for every value that fits. -/
theorem holds_read (receives : place.Receives (Register bits)) {α : Type} {k : Val → Eval W α} (early : ∀ v, Maintains place.tooEarly (k v))
    (good : ∀ v, Register bits v → Maintains (place.Holds bits) (k v)) :
    Maintains (place.Holds bits) (readLocal host id >>= k) := by
  refine .of_final fun s holds => ?_
  have ended := read_register receives s holds
  rw [Run.bind_apply]
  rcases ran : readLocal host id s with ⟨e | v,t⟩
  · rw [ran] at ended
    exact ended
  · rw [ran] at ended
    rcases ended with soon | ⟨kept,fits⟩
    · exact .inl ((early v).final soon)
    · exact (good v fits).final kept

end Place

end binding

section judged

variable {W : Type} {host : Host W} {id : LocalId} {place : Place host id} {delta bits : Nat}

theorem register_literal (ceiling : Ceiling delta bits) {n : Int} (small : n.natAbs ≤ maxLiteral) :
    Register bits (Lit.integer n).val := by
  have exact : n.natAbs ≤ maxExact := by
    unfold maxLiteral at small
    unfold maxExact
    omega
  have top : maxLiteral ≤ 2 ^ bits := Nat.pow_le_pow_right (n := 2) (by decide) ceiling.literal
  have same : (Lit.integer n).val = .int n := by
    simp only [Lit.val,Hir.Num.ofInt,if_pos exact]
    rfl
  rw [same]
  exact register_int ceiling.register (Nat.le_trans small top)

theorem val_small {n : Int} (small : n.natAbs ≤ maxDelta) : (Lit.integer n).val = .int n := by
  have exact : n.natAbs ≤ maxExact := by
    unfold maxDelta at small
    unfold maxExact
    omega
  simp only [Lit.val,Hir.Num.ofInt,if_pos exact]
  rfl

variable (ceiling : Ceiling delta bits) (rounds : Rounds host)
include ceiling rounds

theorem always_add {a b : Int} (near : (a + b).natAbs ≤ 2 ^ bits + delta) :
    Run.Always (place.Holds bits) (Register bits) (fun _ => True) (applyOp host (.binary .add) [.int a,.int b]) := by
  intro s holds
  obtain ⟨r,ran,fits⟩ := applyOp_register ceiling rfl (rounds.add a b) near s
  rw [ran]
  exact ⟨fits,holds⟩

theorem always_sub {a b : Int} (near : (a - b).natAbs ≤ 2 ^ bits + delta) :
    Run.Always (place.Holds bits) (Register bits) (fun _ => True) (applyOp host (.binary .sub) [.int a,.int b]) := by
  intro s holds
  obtain ⟨r,ran,fits⟩ := applyOp_register ceiling rfl (rounds.sub a b) near s
  rw [ran]
  exact ⟨fits,holds⟩

variable (receives : place.Receives (Register bits))
include receives

/-- Every write the second pass lets stand. -/
theorem holds_localSet {rhs : Expr} {d : Nat} (small : d ≤ delta) (admissible : writeDelta id rhs = some d) :
    Maintains (place.Holds bits) (eval host (.localSet id rhs)) := by
  have moved {op : BinaryOp} {args : Val → List Val} (steps : ∀ v, Register bits v →
      Run.Always (place.Holds bits) (Register bits) (fun _ => True) (applyOp host (.binary op) (args v))) :
      Maintains (place.Holds bits) (readLocal host id >>= fun v => applyOp host (.binary op) (args v) >>= fun r =>
        writeLocal host id r >>= fun _ => pure r) := by
    refine Place.holds_read receives (fun v => ?_) fun v good => ?_
    · refine .bind (Place.steady_early.applyOp _ _) fun r => ?_
      exact .bind (Place.steady_early.write id r fun no => no) fun _ => .pure r
    · exact Run.Always.bind (steps v good) fun r fits => Maintains.bind (Place.holds_write fits) fun _ => .pure r
  obtain ⟨_,v,rfl,literal⟩ | ⟨k,size,bound,rfl | rfl | rfl⟩ := writeDelta_cases admissible
  · simp only [eval,pure_bind]
    exact .bind (Place.holds_write (register_literal ceiling literal)) fun _ => .pure _
  all_goals
    simp only [eval,evalArgs,bind_assoc,pure_bind,val_small (n := k) (by omega)]
    refine moved fun v good => ?_
    obtain ⟨r,rfl,fits⟩ := good
  · exact always_add ceiling rounds (by omega)
  · exact always_sub ceiling rounds (by omega)
  · exact always_add ceiling rounds (by omega)

theorem holds_update (moves : 1 ≤ delta) (op : UpdateOp) (pre : Bool) :
    Maintains (place.Holds bits) (updateLocal host id op pre) := by
  refine Place.holds_read receives (fun v => ?_) fun v good => ?_
  · refine .bind (Place.steady_early.applyOp _ _) fun old => .bind (Place.steady_early.applyOp _ _) fun new => ?_
    exact .bind (Place.steady_early.write id new fun no => no) fun _ => .pure _
  · obtain ⟨r,rfl,fits⟩ := good
    have step : Run.Always (place.Holds bits) (Register bits) (fun _ => True)
        (applyOp host (.binary op.binary) [.int r.toInt,.int 1]) := by
      cases op with
      | increment => exact always_add ceiling rounds (by omega)
      | decrement => exact always_sub ceiling rounds (by omega)
    have numeric : applyOp host .toNumeric [.int r.toInt] = pure (.int r.toInt) := rfl
    rw [numeric,pure_bind]
    exact Run.Always.bind step fun new good => Maintains.bind (Place.holds_write good) fun _ => .pure _

end judged

end Perry.Codegen.IntValued
