import Mathlib.Algebra.GroupWithZero.Nat
import Perry.Hir.Closures

/-! `collectors/int_valued_i64_locals.rs`: the locals that start at a small integer
literal and move by bounded steps, with the bits their magnitude needs. -/
namespace Perry.Codegen.IntValued

open Perry.Hir

def maxDelta : Nat := 64

def maxLiteral : Nat := 2147483648

def literalOnlyBits : Nat := 31

def stepBitsBase : Nat := 56

/-- Of a 64-bit word. -/
def leadingZeros (m : Nat) : Nat := if m = 0 then 64 else 63 - m.log2

def ceilLog2Abs (v : Int) : Nat :=
  if v.natAbs ≤ 1 then 0 else 64 - leadingZeros (v.natAbs - 1)

structure Cand where
  maxDelta : Nat
  deriving DecidableEq, Repr

def Cand.magnitudeBits (c : Cand) : Nat :=
  if c.maxDelta = 0 then literalOnlyBits else stepBitsBase + ceilLog2Abs c.maxDelta

structure Walk where
  cands : LocalId → Option Cand := fun _ => none
  rejected : List LocalId := []

namespace Walk

variable (w : Walk)

def reject (ids : List LocalId) : Walk := { w with rejected := ids ++ w.rejected }

def insert (id : LocalId) (c : Cand) : Walk := { w with cands := Function.update w.cands id (some c) }

end Walk

def isLiteral : Option Expr → Bool
  | some (.integer v) => v.natAbs ≤ maxLiteral
  | _ => false

/-- The first pass: `seed_stmts` and `seed_expr` at one node. -/
def Walk.seed (w : Walk) : Node → Walk
  | .bind id init =>
    if isLiteral init then
      if (w.cands id).isSome then (w.insert id ⟨0⟩).reject [id] else w.insert id ⟨0⟩
    else w.reject [id]
  | .caught id => w.reject [id]
  | .expr _ => w

def boundedDelta (d : Int) : Option Nat := if d.natAbs ≤ maxDelta then some d.natAbs else none

/-- How far the write moves the local, if it is a literal reset or a bounded step. -/
def writeDelta (id : LocalId) : Expr → Option Nat
  | .integer v => if v.natAbs ≤ maxLiteral then some 0 else none
  | .binary .add (.localGet l) (.integer d) => if l = id then boundedDelta d else none
  | .binary .sub (.localGet l) (.integer d) => if l = id then boundedDelta d else none
  | .binary .add (.integer d) (.localGet l) => if l = id then boundedDelta d else none
  | _ => none

def writtenId : Node → Option LocalId
  | .expr (.localSet id _) | .expr (.update id ..) => some id
  | _ => none

/-- The locals assigned in a closure body, nested closures included. -/
def collectWrittenIds (stmts : List Stmt) : List LocalId := (nodesOfStmts true stmts).filterMap writtenId

/-- The second pass: `judge_expr` at one node. -/
def Walk.judge (w : Walk) : Node → Walk
  | .expr (.localSet id rhs) =>
    match w.cands id with
    | none => w
    | some c =>
      match writeDelta id rhs with
      | some d => w.insert id ⟨max c.maxDelta d⟩
      | none => w.reject [id]
  | .expr (.update id ..) =>
    match w.cands id with
    | none => w
    | some c => w.insert id ⟨max c.maxDelta 1⟩
  | .expr (.closure _ _ _ _ mutableCaptures _ body) => w.reject (collectWrittenIds body ++ mutableCaptures)
  | _ => w

section

-- equations, made here once and not by the first proofs that unfold these
attribute [local simp] Walk.judge

end

def seeded (stmts : List Stmt) : Walk := (nodesOfStmts true stmts).foldl Walk.seed {}

def judged (stmts : List Stmt) : Walk := (nodesOfStmts false stmts).foldl Walk.judge (seeded stmts)

/-- The magnitude recorded for a local, in bits. -/
def collectIntValuedI64Locals (stmts : List Stmt) (id : LocalId) : Option Nat :=
  if id ∈ (judged stmts).rejected then none else ((judged stmts).cands id).map Cand.magnitudeBits

section bits

theorem le_ceilLog2Abs {v : Int} (small : v.natAbs ≤ 2 ^ 63) : v.natAbs ≤ 2 ^ ceilLog2Abs v := by
  unfold ceilLog2Abs leadingZeros
  by_cases tiny : v.natAbs ≤ 1
  · simp [tiny]
  · have positive : v.natAbs - 1 ≠ 0 := by omega
    have below : v.natAbs - 1 < 2 ^ ((v.natAbs - 1).log2 + 1) := Nat.lt_log2_self
    have short : (v.natAbs - 1).log2 < 63 := (Nat.log2_lt positive).mpr (by omega)
    have width : 64 - (63 - (v.natAbs - 1).log2) = (v.natAbs - 1).log2 + 1 := by omega
    rw [if_neg tiny,if_neg positive,width]
    omega

theorem ceilLog2Abs_le {v : Int} (small : v.natAbs ≤ maxDelta) : ceilLog2Abs v ≤ 6 := by
  unfold ceilLog2Abs leadingZeros
  by_cases tiny : v.natAbs ≤ 1
  · simp [tiny]
  · have positive : v.natAbs - 1 ≠ 0 := by omega
    have bound : v.natAbs - 1 < 2 ^ 6 := by
      unfold maxDelta at small
      omega
    have short : (v.natAbs - 1).log2 < 6 := (Nat.log2_lt positive).mpr bound
    rw [if_neg tiny,if_neg positive]
    omega

/-- Steps of at most `delta` stay within `2 ^ bits`: either nothing moves, or a step
is at most half the distance between doubles at the bound. -/
structure Ceiling (delta bits : Nat) : Prop where
  literal : 31 ≤ bits
  register : bits ≤ 62
  absorbs : delta = 0 ∨ 53 ≤ bits ∧ delta ≤ 2 ^ (bits - 53)

theorem Cand.ceiling (c : Cand) (small : c.maxDelta ≤ IntValued.maxDelta) : Ceiling c.maxDelta c.magnitudeBits := by
  unfold Cand.magnitudeBits
  by_cases still : c.maxDelta = 0
  · rw [if_pos still]
    exact ⟨by decide,by decide,.inl still⟩
  · have top := ceilLog2Abs_le (v := c.maxDelta) (by simpa using small)
    have covers := le_ceilLog2Abs (v := c.maxDelta) (by simp only [Int.natAbs_natCast,IntValued.maxDelta] at small ⊢; omega)
    simp only [Int.natAbs_natCast] at covers
    rw [if_neg still]
    unfold stepBitsBase
    refine ⟨by omega,by omega,.inr ⟨by omega,Nat.le_trans covers ?_⟩⟩
    exact Nat.pow_le_pow_right (by decide) (by omega)

end bits

section admission

variable {id : LocalId}

/-- A binding the first pass lets stand. -/
def Seeded (id : LocalId) : Node → Prop
  | .bind x init => x = id → isLiteral init = true
  | .caught x => x ≠ id
  | .expr _ => True

/-- A write the second pass lets stand, among steps of at most `delta`. -/
def Judged (id : LocalId) (delta : Nat) : Node → Prop
  | .expr (.localSet x rhs) => x = id → ∃ d ≤ delta, writeDelta id rhs = some d
  | .expr (.update x ..) => x = id → 1 ≤ delta
  | _ => True

/-- Rule 3: a closure whose body does not assign the local. -/
def Spared (id : LocalId) (v : Node) : Prop := ∀ u ∈ v.inner, writtenId u ≠ some id

theorem seed_passes {w : Walk} {v : Node} (kept : id ∉ (w.seed v).rejected) : id ∉ w.rejected ∧ Seeded id v := by
  cases v with
  | bind x init =>
    cases literal : isLiteral init with
    | false =>
      simp only [Walk.seed,literal,Bool.false_eq_true,if_false,Walk.reject,List.mem_append,List.mem_singleton,
        not_or] at kept
      exact ⟨kept.2,fun same => absurd same.symm kept.1⟩
    | true =>
      simp only [Walk.seed,literal,if_true] at kept
      refine ⟨fun old => kept ?_,fun _ => literal⟩
      split <;> simp [Walk.insert,Walk.reject,old]
  | caught x =>
    simp only [Walk.seed,Walk.reject,List.mem_append,List.mem_singleton,not_or] at kept
    exact ⟨kept.2,fun same => kept.1 same.symm⟩
  | expr e => exact ⟨kept,trivial⟩

theorem seed_cands {w : Walk} {v : Node} {c : Cand} (found : (w.seed v).cands id = some c) :
    w.cands id = some c ∨ c.maxDelta = 0 := by
  have inserted {x : LocalId} (found : (w.insert x ⟨0⟩).cands id = some c) : w.cands id = some c ∨ c.maxDelta = 0 := by
    by_cases same : id = x
    · subst same
      simp only [Walk.insert,Function.update_self,Option.some.injEq] at found
      exact .inr (found ▸ rfl)
    · simp only [Walk.insert,Function.update_of_ne same] at found
      exact .inl found
  cases v with
  | bind x init =>
    simp only [Walk.seed] at found
    split at found
    · split at found
      · exact inserted found
      · exact inserted found
    · exact .inl found
  | caught x => exact .inl found
  | expr e => exact .inl found

theorem foldl_seed {nodes : List Node} {w : Walk} (kept : id ∉ (nodes.foldl Walk.seed w).rejected) :
    id ∉ w.rejected ∧ ∀ v ∈ nodes, Seeded id v := by
  induction nodes generalizing w with
  | nil => exact ⟨kept,by simp⟩
  | cons v nodes ih =>
    obtain ⟨now,rest⟩ := ih kept
    obtain ⟨before,first⟩ := seed_passes now
    exact ⟨before,List.forall_mem_cons.mpr ⟨first,rest⟩⟩

theorem foldl_seed_cands {nodes : List Node} {w : Walk} {c : Cand} (still : ∀ c, w.cands id = some c → c.maxDelta = 0)
    (found : (nodes.foldl Walk.seed w).cands id = some c) : c.maxDelta = 0 := by
  induction nodes generalizing w with
  | nil => exact still c found
  | cons v nodes ih => exact ih (fun d old => (seed_cands old).elim (still d) fun zero => zero) found

/-- A judged node neither readmits a local nor shortens its steps. -/
structure Advances (id : LocalId) (v : Node) (w : Walk) (c : Cand) : Prop where
  kept : id ∉ w.rejected
  judged : Judged id c.maxDelta v
  spared : Spared id v
  before : ∃ d, w.cands id = some d ∧ d.maxDelta ≤ c.maxDelta ∧ (d.maxDelta ≤ maxDelta → c.maxDelta ≤ maxDelta)

/-- The admissible writes: a literal, or a step to either side. -/
theorem writeDelta_cases {rhs : Expr} {d : Nat} (delta : writeDelta id rhs = some d) :
    (d = 0 ∧ ∃ v : Int, rhs = .integer v ∧ v.natAbs ≤ maxLiteral) ∨
      ∃ k : Int, k.natAbs = d ∧ d ≤ maxDelta ∧ (rhs = .binary .add (.localGet id) (.integer k) ∨
        rhs = .binary .sub (.localGet id) (.integer k) ∨ rhs = .binary .add (.integer k) (.localGet id)) := by
  have bounded {l : LocalId} {k : Int} (step : (if l = id then boundedDelta k else none) = some d) :
      l = id ∧ k.natAbs = d ∧ d ≤ maxDelta := by
    unfold boundedDelta at step
    split at step
    · next same =>
      split at step
      · next small =>
        cases step
        exact ⟨same,rfl,small⟩
      · cases step
    · cases step
  unfold writeDelta at delta
  split at delta
  · next v =>
    split at delta
    · next small =>
      cases delta
      exact .inl ⟨rfl,v,rfl,small⟩
    · cases delta
  · next l k =>
    obtain ⟨rfl,size,small⟩ := bounded delta
    exact .inr ⟨k,size,small,.inl rfl⟩
  · next l k =>
    obtain ⟨rfl,size,small⟩ := bounded delta
    exact .inr ⟨k,size,small,.inr (.inl rfl)⟩
  · next k l =>
    obtain ⟨rfl,size,small⟩ := bounded delta
    exact .inr ⟨k,size,small,.inr (.inr rfl)⟩
  · cases delta

theorem writeDelta_le {rhs : Expr} {d : Nat} (delta : writeDelta id rhs = some d) : d ≤ maxDelta := by
  obtain ⟨zero,_⟩ | ⟨_,_,small,_⟩ := writeDelta_cases delta
  · omega
  · exact small

theorem judge_advances {w : Walk} {v : Node} {c : Cand} (kept : id ∉ (w.judge v).rejected)
    (found : (w.judge v).cands id = some c) : Advances id v w c := by
  have same (kept : id ∉ w.rejected) (judged : Judged id c.maxDelta v) (spared : Spared id v) (found : w.cands id = some c) :
      Advances id v w c := ⟨kept,judged,spared,c,found,Nat.le_refl _,fun small => small⟩
  have inserted {x : LocalId} {old : Cand} {d : Nat} (kept : id ∉ w.rejected) (known : w.cands x = some old)
      (small : d ≤ maxDelta) (judged : ∀ delta, d ≤ delta → Judged id delta v)
      (other : x ≠ id → ∀ delta, Judged id delta v) (spared : Spared id v)
      (found : (w.insert x ⟨max old.maxDelta d⟩).cands id = some c) : Advances id v w c := by
    by_cases equal : id = x
    · subst equal
      simp only [Walk.insert,Function.update_self,Option.some.injEq] at found
      subst found
      exact ⟨kept,judged _ (Nat.le_max_right ..),spared,old,known,Nat.le_max_left ..,fun low => Nat.max_le.mpr ⟨low,small⟩⟩
    · simp only [Walk.insert,Function.update_of_ne equal] at found
      exact same kept (other (Ne.symm equal) _) spared found
  have flat (empty : v.inner = []) : Spared id v := fun u inside => absurd (empty ▸ inside) List.not_mem_nil
  cases v with
  | bind x init => exact same kept trivial (flat rfl) found
  | caught x => exact same kept trivial (flat rfl) found
  | expr e =>
    cases e with
    | localSet x rhs =>
      simp only [Walk.judge] at kept found
      cases known : w.cands x with
      | none =>
        simp only [known] at kept found
        refine same kept (fun equal => ?_) (flat rfl) found
        subst equal
        cases known.symm.trans found
      | some old =>
        cases delta : writeDelta x rhs with
        | none =>
          simp only [known,delta,Walk.reject,List.mem_append,List.mem_singleton,not_or] at kept found
          exact same kept.2 (fun equal => absurd equal.symm kept.1) (flat rfl) found
        | some d =>
          simp only [known,delta] at kept found
          refine inserted kept known (writeDelta_le delta) (fun most bound equal => ?_) (fun differ _ equal => absurd equal differ)
            (flat rfl) found
          subst equal
          exact ⟨d,bound,delta⟩
    | update x op pre =>
      simp only [Walk.judge] at kept found
      cases known : w.cands x with
      | none =>
        simp only [known] at kept found
        refine same kept (fun equal => ?_) (flat rfl) found
        subst equal
        cases known.symm.trans found
      | some old =>
        simp only [known] at kept found
        exact inserted kept known (by decide) (fun most bound _ => bound) (fun differ _ equal => absurd equal differ) (flat rfl) found
    | closure funcId params defaults captures mutableCaptures flags body =>
      simp only [Walk.judge,Walk.reject,List.mem_append,not_or] at kept found
      exact same kept.2 trivial (fun u inside writes => kept.1.1 (List.mem_filterMap.mpr ⟨u,inside,writes⟩)) found
    | _ => exact same kept trivial (flat rfl) found

theorem foldl_judge {nodes : List Node} {w : Walk} {c : Cand} (kept : id ∉ (nodes.foldl Walk.judge w).rejected)
    (found : (nodes.foldl Walk.judge w).cands id = some c) :
    id ∉ w.rejected ∧ (∀ v ∈ nodes, Judged id c.maxDelta v ∧ Spared id v) ∧
      ∃ d, w.cands id = some d ∧ d.maxDelta ≤ c.maxDelta ∧ (d.maxDelta ≤ maxDelta → c.maxDelta ≤ maxDelta) := by
  induction nodes generalizing w with
  | nil => exact ⟨kept,by simp,c,found,Nat.le_refl _,fun small => small⟩
  | cons v nodes ih =>
    obtain ⟨now,rest,d,known,grows,stays⟩ := ih kept found
    obtain ⟨before,first,spared,b,old,grew,stayed⟩ := judge_advances now known
    refine ⟨before,List.forall_mem_cons.mpr ⟨⟨?_,spared⟩,rest⟩,b,old,Nat.le_trans grew grows,fun small => stays (stayed small)⟩
    cases v with
    | bind x init => trivial
    | caught x => trivial
    | expr e =>
      cases e with
      | localSet x rhs =>
        intro same
        obtain ⟨k,small,delta⟩ := first same
        exact ⟨k,Nat.le_trans small grows,delta⟩
      | update x op pre => exact fun same => Nat.le_trans (first same) grows
      | _ => trivial

theorem judged_of_unwritten {delta : Nat} {v : Node} (unwritten : writtenId v ≠ some id) : Judged id delta v := by
  cases v with
  | bind x init => trivial
  | caught x => trivial
  | expr e =>
    cases e with
    | localSet x rhs => exact fun same => absurd (congrArg some same) unwritten
    | update x op pre => exact fun same => absurd (congrArg some same) unwritten
    | _ => trivial

/-- What the two passes have checked of an admitted local, closure bodies included. -/
structure Admitted (stmts : List Stmt) (id : LocalId) (bits delta : Nat) : Prop where
  ceiling : Ceiling delta bits
  seeded : ∀ v ∈ nodesOfStmts true stmts, Seeded id v
  judged : ∀ v ∈ nodesOfStmts true stmts, Judged id delta v

theorem admitted {stmts : List Stmt} {bits : Nat} (collected : collectIntValuedI64Locals stmts id = some bits) :
    ∃ delta, Admitted stmts id bits delta := by
  unfold collectIntValuedI64Locals at collected
  split at collected
  · cases collected
  · next kept =>
    obtain ⟨c,found,rfl⟩ := Option.map_eq_some_iff.mp collected
    obtain ⟨now,judged,d,known,_,stays⟩ := foldl_judge kept found
    have still : d.maxDelta = 0 := foldl_seed_cands (w := {}) (fun c none => by cases none) known
    have small : c.maxDelta ≤ maxDelta := stays (by omega)
    refine ⟨c.maxDelta,c.ceiling small,(foldl_seed (w := {}) now).2,fun v member => ?_⟩
    rcases opens_stmts member with outside | ⟨closure,stands,inside⟩
    · exact (judged v outside).1
    · exact judged_of_unwritten ((judged closure stands).2 v inside)

end admission

end Perry.Codegen.IntValued
