import Perry.Hir.Frame

/-! Moving parts of an expression into statements before it. `Splits` says when
an evaluation may be replaced by hoisted statements and a residual: the two agree
even when private code runs between them, which is what lets the residuals of
earlier operands stay behind the statements hoisted from later ones. Every pass
that hoists suspensions out of expressions is assembled from the rules below. -/
namespace Perry.Hir

open Perry.Effect

variable {W : Type}

/-- Reads of program locals, and writes of those listed. -/
def reach (bound : LocalId) (written : List LocalId) : Access → Prop
  | .read id => id < bound
  | .write id => id < bound ∧ id ∈ written

/-- The locals that these accesses write. -/
def written (accesses : List Access) : List LocalId :=
  accesses.filterMap fun
    | .read _ => none
    | .write id => some id

theorem mem_written {id : LocalId} {accesses : List Access} : id ∈ written accesses ↔ .write id ∈ accesses := by
  simp only [written,List.mem_filterMap]
  constructor
  · rintro ⟨a,member,equal⟩
    cases a with
    | read i => cases equal
    | write i =>
      cases equal
      exact member
  · intro member
    exact ⟨_,member,rfl⟩

@[simp] theorem written_append (as bs : List Access) : written (as ++ bs) = written as ++ written bs := by
  simp [written]

theorem written_mono {as bs : List Access} (fewer : as ⊆ bs) : written as ⊆ written bs :=
  fun _ member => mem_written.mpr (fewer (mem_written.mp member))

theorem reach_of_inside {bound : LocalId} {accesses : List Access} {ids : List LocalId}
    (inside : ∀ a ∈ accesses, a.id < bound) (fewer : written accesses ⊆ ids) :
    ∀ a ∈ accesses, reach bound ids a := by
  intro a member
  cases a with
  | read id => exact inside _ member
  | write id => exact ⟨inside _ member,fewer (mem_written.mpr member)⟩

theorem Framed.mono {allowed allowed' : Access → Prop} {R : State W → State W → Prop}
    (framed : Framed allowed R) (fewer : ∀ a, allowed' a → allowed a) : Framed allowed' R where
  locals h inside := framed.locals h (fewer _ inside)
  worlds := framed.worlds
  assign v h inside := framed.assign v h (fewer _ inside)
  advance := framed.advance
  forget := framed.forget

theorem Framed.subset {bound : LocalId} {written written' : List LocalId} {R : State W → State W → Prop}
    (framed : Framed (reach bound written) R) (fewer : written' ⊆ written) :
    Framed (reach bound written') R := by
  refine framed.mono fun a inside => ?_
  cases a with
  | read id => exact inside
  | write id => exact ⟨inside.1,fewer inside.2⟩

/-- The relation says nothing about the second program's temporaries from `lo` on. -/
def Room (lo : LocalId) (R : State W → State W → Prop) : Prop :=
  ∀ s t id v, R s t → lo ≤ id → R s { t with store := Function.update t.store id v }

theorem Room.above {lo hi : LocalId} {R : State W → State W → Prop} (room : Room lo R) (higher : lo ≤ hi) :
    Room hi R := fun s t id v h large => room s t id v h (Nat.le_trans higher large)

/-- Code of the second program alone: it answers `b`, leads from `R` to `R'`, and
leaves program locals and the temporaries from `lo` on as they are. -/
def Private {β : Type} (bound lo : LocalId) (R R' : State W → State W → Prop) (x : Act W β) (b : β) : Prop :=
  ∀ s t, R s t → ∃ t', x t = (.ok b,t') ∧ R' s t' ∧
    ∀ id, id < bound ∨ lo ≤ id → t'.store id = t.store id

theorem Private.pure {β : Type} {bound lo : LocalId} {R R' : State W → State W → Prop}
    (weaker : ∀ s t, R s t → R' s t) (b : β) : Private bound lo R R' (Pure.pure b) b :=
  fun s t h => ⟨t,rfl,weaker s t h,fun _ _ => rfl⟩

theorem Private.above {β : Type} {bound lo hi : LocalId} {R R' : State W → State W → Prop} {x : Act W β} {b : β}
    (alone : Private bound lo R R' x b) (higher : lo ≤ hi) : Private bound hi R R' x b := by
  intro s t h
  obtain ⟨t',ran,related,kept⟩ := alone s t h
  refine ⟨t',ran,related,fun id range => kept id ?_⟩
  exact range.imp_right fun large => Nat.le_trans higher large

theorem Sim.afterPrivate {α β γ : Type} {bound lo : LocalId} {R R' : State W → State W → Prop} {x : Act W β} {b : β}
    {post : α → γ → State W → State W → Prop} {fail : Comp → Comp → State W → State W → Prop}
    {m : Act W α} {l : β → Act W γ} (alone : Private bound lo R R' x b) (rest : Sim R' post fail m (l b)) :
    Sim R post fail m (x >>= l) := by
  intro s t h
  obtain ⟨t',ran,related,_⟩ := alone s t h
  rw [Run.bind_ok ran]
  exact rest s t' related

/-- The second program also hands on what its private code answered. -/
theorem Keeps.tag {α β : Type} {R : State W → State W → Prop} {m l : Act W α} (same : Keeps R m l) (b : β) :
    Sim R (fun a p s t => p = (b,a) ∧ R s t) (fun e f s t => e = f ∧ R s t) m
      (l >>= fun a => pure (b,a)) := by
  rw [← bind_pure m]
  refine Sim.bind same ?_
  rintro a _ s t ⟨rfl,h⟩
  exact ⟨rfl,h⟩

/-- An evaluation that has no effect and depends on the `used` locals only. -/
def Inert {α : Type} (used : LocalId → Prop) (m : Eval W α) (value : (LocalId → Val) → α) : Prop :=
  (∀ t, ∃ trace, m t = (.ok (value t.store),{ t with trace := trace })) ∧
    ∀ g g', (∀ id, used id → g id = g' id) → value g = value g'

/-- The listed locals and the temporaries between `lo` and `hi`. -/
def span (used : List LocalId) (lo hi : LocalId) (id : LocalId) : Prop := id ∈ used ∨ lo ≤ id ∧ id < hi

/-- An inert evaluation with answers in `P`. -/
def Settled {α : Type} (used : LocalId → Prop) (m : Eval W α) (P : α → Prop) : Prop :=
  ∃ value, Inert used m value ∧ ∀ store, P (value store)

namespace Settled

variable {α β : Type} {used used' : LocalId → Prop} {P : α → Prop} {Q : β → Prop}

theorem pure {a : α} (holds : P a) : Settled (W := W) used (Pure.pure a) P :=
  ⟨fun _ => a,⟨fun t => ⟨t.trace,rfl⟩,fun _ _ _ => rfl⟩,fun _ => holds⟩

theorem read {host : Host W} {id : LocalId} (unboxed : host.boxed id = false) (known : used id) :
    Settled used (readLocal host id) fun _ => True :=
  ⟨fun store => store id,⟨fun t => ⟨_,readLocal_unboxed unboxed t⟩,fun _ _ same => same id known⟩,fun _ => trivial⟩

theorem wider {m : Eval W α} (settled : Settled used m P) (fewer : ∀ id, used id → used' id) :
    Settled used' m P := by
  obtain ⟨value,inert,holds⟩ := settled
  exact ⟨value,⟨inert.1,fun g g' same => inert.2 g g' fun id member => same id (fewer id member)⟩,holds⟩

theorem bind {m : Eval W α} {k : α → Eval W β} (first : Settled used m P)
    (rest : ∀ a, P a → Settled used (k a) Q) : Settled used (m >>= k) Q := by
  obtain ⟨value,inert,holds⟩ := first
  choose values inerts hold using rest
  refine ⟨fun store => values (value store) (holds store) store,⟨fun t => ?_,fun g g' same => ?_⟩,
    fun store => hold _ _ _⟩
  · obtain ⟨trace,ran⟩ := inert.1 t
    obtain ⟨trace',ran'⟩ := (inerts _ (holds t.store)).1 { t with trace := trace }
    exact ⟨trace',by rw [Run.bind_ok ran,ran']⟩
  · have equal : ∀ a b (ha : P a) (hb : P b), a = b → values a ha g = values b hb g' := by
      rintro a _ ha hb rfl
      exact (inerts a ha).2 g g' same
    exact equal _ _ _ _ (inert.2 g g' same)

theorem map {m : Eval W α} {k : α → Eval W β} {g : α → β} (first : Settled used m P)
    (holds : ∀ a, P a → Q (g a)) (plain : ∀ a, P a → k a = Pure.pure (g a)) : Settled used (m >>= k) Q := by
  refine first.bind fun a known => ?_
  rw [plain a known]
  exact Settled.pure (holds a known)

theorem ite {c : Prop} [Decidable c] {m l : Eval W α} (yes : Settled used m P) (no : Settled used l P) :
    Settled used (if c then m else l) P := by
  by_cases h : c
  · simpa only [h,if_true] using yes
  · simpa only [h,if_false] using no

end Settled

theorem span_mono {used used' : List LocalId} {lo lo' hi hi' : LocalId} (fewer : used ⊆ used') (lower : lo' ≤ lo)
    (upper : hi ≤ hi') (id : LocalId) (inside : span used lo hi id) : span used' lo' hi' id := by
  rcases inside with known | ⟨low,high⟩
  · exact .inl (fewer known)
  · exact .inr ⟨Nat.le_trans lower low,Nat.lt_of_lt_of_le high upper⟩

section judgment

variable (host : Host W) (mode : Mode) (n : Nat) (bound : LocalId)

/-- `m` may be replaced by the statements `hoisted` and, later, the residual `m'`.
The hoisted part writes at most the locals `early`, the whole at most `written`;
both use temporaries from `lo` on. -/
def Splits {α : Type} (lo : LocalId) (early written : List LocalId) (m : Eval W α) (hoisted : List Stmt)
    (m' : Eval W α) : Prop :=
  ∀ (β : Type) (R R' : State W → State W → Prop) (x : Act W β) (b : β),
    Framed (reach bound early) R → Framed (reach bound written) R' → (∀ s t, R s t → R' s t) →
    Room lo R → Room lo R' → Private bound lo R R' x b →
    Sim R (fun a p s t => p = (b,a) ∧ R' s t) (fun e f s t => e = f ∧ R' s t) (perform m)
      (execList host mode n [] hoisted >>= fun _ => x >>= fun b => perform m' >>= fun a => pure (b,a))

/-- The statements leave the value of `m` in the temporary `id`. -/
def Fills (lo id : LocalId) (written : List LocalId) (m : Eval W Val) (code : List Stmt) : Prop :=
  ∀ (R : State W → State W → Prop), Framed (reach bound written) R → Room lo R →
    Sim R (fun a _ s t => R s t ∧ t.store id = a) (fun e f s t => e = f ∧ R s t) (perform m)
      (execList host mode n [] code)

end judgment

variable {host : Host W} {mode : Mode} {n : Nat} {bound : LocalId}

/-- An evaluation that both programs can perform in place. -/
def Stays (bound : LocalId) (written : List LocalId) {α : Type} (m m' : Eval W α) : Prop :=
  ∀ R, Framed (reach bound written) R → Keeps R m m'

theorem stays_eval {e : Expr} {ids : List LocalId} (inside : ∀ a ∈ e.accesses, a.id < bound)
    (fewer : written e.accesses ⊆ ids) : Stays bound ids (eval host e) (eval host e) :=
  fun _ framed => framed.eval host (reach_of_inside inside fewer)

theorem stays_evalArgs {es : List Expr} {ids : List LocalId} (inside : ∀ a ∈ accessesOfList es, a.id < bound)
    (fewer : written (accessesOfList es) ⊆ ids) : Stays bound ids (evalArgs host es) (evalArgs host es) := by
  intro R framed
  refine Keeps.evalArgs (List.forall₂_same.mpr fun e member => ?_)
  refine framed.eval host fun a touched => ?_
  exact reach_of_inside inside fewer a (mem_accessesOfList.mpr ⟨e,member,touched⟩)

namespace Splits

variable {α β : Type} {lo hi : LocalId} {early written : List LocalId} {m m' : Eval W α} {hoisted : List Stmt}

theorem refl (stays : Stays bound written m m') : Splits host mode n bound lo early written m [] m' := by
  intro γ R R' x b framed framed' weaker room room' alone
  rw [execList,pure_bind]
  exact Sim.afterPrivate alone (Keeps.tag (Keeps.perform (stays R' framed')) b)

theorem subset (splits : Splits host mode n bound lo early written m hoisted m') {early' written' : List LocalId}
    (fewer : early ⊆ early') (fewer' : written ⊆ written') :
    Splits host mode n bound lo early' written' m hoisted m' :=
  fun _ R R' x b framed framed' weaker room room' alone =>
    splits _ R R' x b (framed.subset fewer) (framed'.subset fewer') weaker room room' alone

theorem above (splits : Splits host mode n bound hi early written m hoisted m') (higher : lo ≤ hi) :
    Splits host mode n bound lo early written m hoisted m' :=
  fun _ R R' x b framed framed' weaker room room' alone =>
    splits _ R R' x b framed framed' weaker (room.above higher) (room'.above higher) (alone.above higher)

/-- The simplest use: nothing runs between the hoisted statements and the residual. -/
theorem run (splits : Splits host mode n bound lo early written m hoisted m') {R : State W → State W → Prop}
    (framed : Framed (reach bound written) R) (fewer : early ⊆ written) (room : Room lo R) :
    Keeps R (perform m) (execList host mode n [] hoisted >>= fun _ => perform m') := by
  have all := splits _ R R (pure ()) () (framed.subset fewer) framed (fun _ _ h => h) room room
    (Private.pure (fun _ _ h => h) ())
  intro s t h
  have one := all s t h
  revert one
  have shape : (execList host mode n [] hoisted >>= fun _ => (pure () : Act W Unit) >>= fun b =>
      perform m' >>= fun a => pure (b,a)) =
      (execList host mode n [] hoisted >>= fun _ => perform m') >>= fun a => pure ((),a) := by
    simp only [pure_bind,bind_assoc]
  rw [shape,Run.bind_apply]
  rcases perform m s with ⟨_ | a,s'⟩ <;>
    rcases (execList host mode n [] hoisted >>= fun _ => perform m') t with ⟨_ | a',t'⟩ <;> intro one
  · exact one
  · exact one.elim
  · exact one.elim
  · exact ⟨(Prod.mk.inj one.1).2.symm,one.2⟩

/-- A continuation that both programs perform in place. -/
theorem bind (splits : Splits host mode n bound lo early written m hoisted m') {all : List LocalId}
    (fewer : written ⊆ all) {k l : α → Eval W β} (stays : ∀ a, Stays bound all (k a) (l a)) :
    Splits host mode n bound lo early all (m >>= k) hoisted (m' >>= l) := by
  intro γ R R' x b framed framed' weaker room room' alone
  have first := splits _ R R' x b framed (framed'.subset fewer) weaker room room' alone
  have shape : (execList host mode n [] hoisted >>= fun _ => x >>= fun b => perform (m' >>= l) >>= fun a =>
      pure (b,a)) = (execList host mode n [] hoisted >>= fun _ => x >>= fun b => perform m' >>= fun a =>
      pure (b,a)) >>= fun p => perform (l p.2) >>= fun a => pure (p.1,a) := by
    simp only [perform_bind,bind_assoc,pure_bind]
  rw [shape,perform_bind]
  refine Sim.bind first ?_
  rintro a p s t ⟨rfl,h⟩
  exact Keeps.tag (Keeps.perform (stays a R' framed')) b s t h

/-- When the residual is inert, the hoisted statements alone match the evaluation. -/
theorem hoistedOnly {value : (LocalId → Val) → α} {used : LocalId → Prop}
    (first : Splits host mode n bound lo early early m hoisted m') (inert : Inert used m' value)
    {R : State W → State W → Prop} (framed : Framed (reach bound early) R) (room : Room lo R) :
    Sim R (fun v _ s t => R s t ∧ value t.store = v) (fun e f s t => e = f ∧ R s t) (perform m)
      (execList host mode n [] hoisted) := by
  intro s t h
  have both := first.run framed (List.Subset.refl _) room s t h
  revert both
  rw [Run.bind_apply]
  rcases perform m s with ⟨_ | a,s'⟩ <;> rcases execList host mode n [] hoisted t with ⟨_ | u,t'⟩
  · exact id
  · obtain ⟨trace,ran⟩ := inert.1 t'
    simp only [perform,Run.mapError,ran]
    exact False.elim
  · exact id
  · obtain ⟨trace,ran⟩ := inert.1 t'
    simp only [perform,Run.mapError,ran]
    rintro ⟨same,related⟩
    exact ⟨framed.forget (t := { t' with trace := trace }) s'.trace t'.trace related,same.symm⟩

/-- Two operands. The residual of the first may stay behind the statements hoisted
from the second when it is inert and these write none of the locals it reads. -/
theorem both {early₁ early₂ written₂ all allEarly : List LocalId} {r r' : Eval W β} {hoisted₂ : List Stmt}
    {used : LocalId → Prop} {P : α → Prop} {γ : Type} {k k' : α → β → Eval W γ}
    (first : Splits host mode n bound lo early₁ early₁ m hoisted m') (settled : Settled used m' P)
    (second : Splits host mode n bound hi early₂ written₂ r hoisted₂ r') (higher : lo ≤ hi)
    (low : ∀ id, used id → (id < bound ∨ lo ≤ id) ∧ id < hi) (apart : ∀ id, used id → id ∉ early₂) (fewer₁ : early₁ ⊆ allEarly)
    (fewer₂ : early₂ ⊆ allEarly) (fewer₃ : written₂ ⊆ all) (stays : ∀ a b, Stays bound all (k a b) (k' a b)) :
    Splits host mode n bound lo allEarly all (m >>= fun a => r >>= fun b => k a b) (hoisted ++ hoisted₂)
      (m' >>= fun a => r' >>= fun b => k' a b) := by
  intro δ R R' x b framed framed' weaker room room' alone
  obtain ⟨value,inert,_⟩ := settled
  have start := hoistedOnly first inert (framed.subset fewer₁) room
  -- what the second operand's statements must keep: the value the first residual will have
  let Holds (v : α) (s t : State W) : Prop := R s t ∧ value t.store = v
  have same (g : LocalId → Val) (id : LocalId) (v : Val) (other : ¬used id) :
      value (Function.update g id v) = value g := by
    refine inert.2 _ _ fun i member => Function.update_of_ne ?_ v g
    rintro rfl
    exact other member
  have framedHolds (v : α) : Framed (reach bound early₂) (Holds v) :=
    { locals := fun h inside => framed.locals h.1 inside
      worlds := fun h => framed.worlds h.1
      assign := fun {s t id} c h inside =>
        ⟨framed.assign c h.1 ⟨inside.1,fewer₂ inside.2⟩,
          (same t.store id c fun member => apart id member inside.2).trans h.2⟩
      advance := fun w h => ⟨framed.advance w h.1,h.2⟩
      forget := fun a b h => ⟨framed.forget a b h.1,h.2⟩ }
  have roomHolds (v : α) : Room hi (Holds v) := fun s t id c h large =>
    ⟨room s t id c h.1 (Nat.le_trans higher large),
      (same t.store id c fun member => Nat.not_lt.mpr large (low id member).2).trans h.2⟩
  have aloneBoth (v : α) :
      Private bound hi (Holds v) R' (x >>= fun b => perform m' >>= fun a => pure (b,a)) (b,v) := by
    intro s t h
    obtain ⟨t₁,ran,related,kept⟩ := alone s t h.1
    obtain ⟨trace,residual⟩ := inert.1 t₁
    have held : value t₁.store = v := by
      rw [← h.2]
      exact inert.2 _ _ fun id member => kept id (low id member).1
    refine ⟨{ t₁ with trace := trace },?_,framed'.forget s.trace trace related,?_⟩
    · rw [Run.bind_ok ran,Run.bind_ok (perform_ok residual),held]
      rfl
    · intro id range
      refine kept id ?_
      rcases range with small | large
      · exact .inl small
      · exact .inr (Nat.le_trans higher large)
  have shape : (execList host mode n [] (hoisted ++ hoisted₂) >>= fun _ => x >>= fun b =>
      perform (m' >>= fun a => r' >>= fun c => k' a c) >>= fun d => pure (b,d)) =
      execList host mode n [] hoisted >>= fun _ => ((execList host mode n [] hoisted₂ >>= fun _ =>
        (x >>= fun b => perform m' >>= fun a => pure (b,a)) >>= fun p => perform r' >>= fun c => pure (p,c)) >>=
        fun q => perform (k' q.1.2 q.2) >>= fun d => pure (q.1.1,d)) := by
    simp only [execList_append,perform_bind,bind_assoc,pure_bind]
  rw [shape,perform_bind]
  refine Sim.bind (Sim.conseq start (fun _ _ h => h) (fun _ _ _ _ h => h)
    fun _ _ s t h => ⟨h.1,weaker s t h.2⟩) fun v _ => ?_
  rw [perform_bind]
  refine Sim.bind (second _ (Holds v) R' _ (b,v) (framedHolds v) (framed'.subset fewer₃)
    (fun s t h => weaker s t h.1) (roomHolds v) (room'.above higher) (aloneBoth v)) ?_
  rintro c q s t ⟨rfl,h⟩
  exact Keeps.tag (Keeps.perform (stays v c R' framed')) b s t h

/-- An operand evaluated for its effect only, as a statement of its own. -/
theorem discard {written₂ early₂ all allEarly : List LocalId} {k : α → Eval W β} {r' : Eval W β}
    {hoisted₂ : List Stmt} (first : Splits host mode n bound lo early written m hoisted m')
    (fewer : early ⊆ written) {d : Stmt} (executes : exec host mode n [] d = perform (m' >>= fun _ => pure ()))
    (second : ∀ a, Splits host mode n bound hi early₂ written₂ (k a) hoisted₂ r') (higher : lo ≤ hi)
    (fewer₁ : written ⊆ allEarly) (fewer₂ : early₂ ⊆ allEarly) (fewer₃ : written₂ ⊆ all) :
    Splits host mode n bound lo allEarly all (m >>= k) (hoisted ++ d :: hoisted₂) r' := by
  intro γ R R' x b framed framed' weaker room room' alone
  have start := first.run (framed.subset fewer₁) fewer room
  have shape : (execList host mode n [] (hoisted ++ d :: hoisted₂) >>= fun _ => x >>= fun b =>
      perform r' >>= fun d => pure (b,d)) =
      (execList host mode n [] hoisted >>= fun _ => perform m') >>= fun _ =>
        (execList host mode n [] hoisted₂ >>= fun _ => x >>= fun b => perform r' >>= fun d => pure (b,d)) := by
    simp only [execList_append,execList,executes,perform_bind,perform_pure,bind_assoc,pure_bind]
  rw [shape,perform_bind]
  refine Sim.bind (Sim.conseq start (fun _ _ h => h) (fun _ _ _ _ h => h)
    fun _ _ s t h => ⟨h.1,weaker s t h.2⟩) ?_
  rintro a _ s t ⟨_,h⟩
  exact second a _ R R' x b (framed.subset fewer₂) (framed'.subset fewer₃) weaker (room.above higher)
    (room'.above higher) (alone.above higher) s t h

end Splits

namespace Fills

variable {lo hi id : LocalId} {early written : List LocalId} {m m' : Eval W Val} {code : List Stmt}

/-- A statement that evaluates the residual into the temporary. -/
theorem ofStore (splits : Splits host mode n bound lo early written m code m') (fewer : early ⊆ written)
    (large : lo ≤ id) {d : Stmt} {store : Val → Eval W Unit}
    (executes : exec host mode n [] d = perform (m' >>= store))
    (stores : ∀ v t, ∃ trace, store v t =
      (.ok (),{ t with store := Function.update t.store id v, trace := trace })) :
    Fills host mode n bound lo id written m (code ++ [d]) := by
  intro R framed room
  have start := splits.run framed fewer room
  rw [execList_append,execList_singleton,executes,perform_bind,← bind_assoc,← bind_pure (perform m)]
  refine Sim.bind start ?_
  rintro v _ s t ⟨rfl,h⟩
  obtain ⟨trace,ran⟩ := stores v t
  rw [perform_ok ran]
  exact ⟨framed.forget s.trace trace (room s t id v h large),by simp⟩

theorem ofLet (splits : Splits host mode n bound lo early written m code m') (fewer : early ⊆ written)
    (large : lo ≤ id) (unboxed : host.boxed id = false) {d : Stmt}
    (executes : exec host mode n [] d = perform (m' >>= fun v => declareLocal host id v)) :
    Fills host mode n bound lo id written m (code ++ [d]) :=
  ofStore splits fewer large executes fun v t => ⟨_,declareLocal_unboxed unboxed v t⟩

theorem ofSet (splits : Splits host mode n bound lo early written m code m') (fewer : early ⊆ written)
    (large : lo ≤ id) (unboxed : host.boxed id = false) {d : Stmt}
    (executes : exec host mode n [] d = perform (m' >>= fun v => writeLocal host id v)) :
    Fills host mode n bound lo id written m (code ++ [d]) :=
  ofStore splits fewer large executes fun v t => ⟨_,writeLocal_unboxed unboxed v t⟩

theorem subset (fills : Fills host mode n bound lo id written m code) {all : List LocalId}
    (fewer : written ⊆ all) : Fills host mode n bound lo id all m code :=
  fun R framed room => fills R (framed.subset fewer) room

theorem above (fills : Fills host mode n bound hi id written m code) (higher : lo ≤ hi) :
    Fills host mode n bound lo id written m code :=
  fun R framed room => fills R framed (room.above higher)

theorem splits (fills : Fills host mode n bound lo id written m code) (large : lo ≤ id)
    (unboxed : host.boxed id = false) :
    Splits host mode n bound lo written written m code (readLocal host id) := by
  intro γ R R' x b framed framed' weaker room room' alone
  have start := fills R framed room
  rw [← bind_pure (perform m)]
  refine Sim.bind (Sim.conseq start (fun _ _ h => h) (fun _ _ _ _ h => h)
    fun _ _ s t h => ⟨h.1,weaker s t h.2⟩) ?_
  rintro v _ s t ⟨h,held⟩
  obtain ⟨t',ran,related,kept⟩ := alone s t h
  rw [Run.bind_ok ran,Run.bind_ok (perform_ok (readLocal_unboxed unboxed t'))]
  refine ⟨?_,framed'.forget s.trace _ related⟩
  rw [kept id (.inr large),held]

/-- Code for an operand evaluated for its effect only comes before. -/
theorem discard {α : Type} {before : List LocalId} {r r' : Eval W α} {hoisted : List Stmt}
    (first : Splits host mode n bound hi early before r hoisted r') (fewer : early ⊆ before) {d : Stmt}
    (executes : exec host mode n [] d = perform (r' >>= fun _ => pure ())) (higher : lo ≤ hi)
    {k : α → Eval W Val} (fills : ∀ a, Fills host mode n bound lo id written (k a) code) {all : List LocalId}
    (fewer₁ : before ⊆ all) (fewer₂ : written ⊆ all) :
    Fills host mode n bound lo id all (r >>= k) (hoisted ++ d :: code) := by
  intro R framed room
  have start := first.run (framed.subset fewer₁) fewer (room.above higher)
  have shape : execList host mode n [] (hoisted ++ d :: code) =
      (execList host mode n [] hoisted >>= fun _ => perform r') >>= fun _ => execList host mode n [] code := by
    simp only [execList_append,execList,executes,perform_bind,perform_pure,bind_assoc,pure_bind]
  rw [shape,perform_bind]
  refine Sim.bind start ?_
  rintro a _ s t ⟨_,h⟩
  exact fills a R (framed.subset fewer₂) room s t h

/-- The temporary is declared first. -/
theorem declare (fills : Fills host mode n bound lo id written m code) (large : lo ≤ id)
    (unboxed : host.boxed id = false) (isMutable : Bool) :
    Fills host mode n bound lo id written m (.let id isMutable none :: code) := by
  intro R framed room s t h
  rw [execList,exec,evalOption,pure_bind,Run.bind_ok (perform_ok (declareLocal_unboxed unboxed .undefined t))]
  exact fills R framed room s _ (framed.forget s.trace _ (room s t id .undefined h large))

/-- A conditional as an `if` whose branches fill the temporary. -/
theorem conditional {c c' : Expr} {hoisted codeThen codeElse : List Stmt} {mThen mElse : Eval W Val}
    {earlyCond writtenCond writtenThen writtenElse : List LocalId}
    (cond : Splits host mode n bound hi earlyCond writtenCond (eval host c) hoisted (eval host c'))
    (fewer : earlyCond ⊆ writtenCond) (large : lo ≤ id) (low : id < hi) (temp : bound ≤ id)
    (unboxed : host.boxed id = false)
    (yes : Fills host mode n bound lo id writtenThen mThen codeThen)
    (no : Fills host mode n bound lo id writtenElse mElse codeElse) (isMutable : Bool) {all : List LocalId}
    (fewer₁ : writtenCond ⊆ all) (fewer₂ : writtenThen ⊆ all) (fewer₃ : writtenElse ⊆ all) :
    Fills host mode n bound lo id all (eval host c >>= fun v => if v.truthy then mThen else mElse)
      (hoisted ++ [.let id isMutable none,.if c' codeThen (some codeElse)]) := by
  intro R framed room
  have alone : Private bound hi R R (exec host mode n [] (.let id isMutable none)) () := by
    intro s t h
    refine ⟨_,perform_ok (declareLocal_unboxed unboxed .undefined t),
      framed.forget s.trace _ (room s t id .undefined h large),?_⟩
    intro i range
    refine Function.update_of_ne ?_ _ _
    rintro rfl
    rcases range with small | wide
    · exact Nat.not_lt.mpr temp small
    · exact Nat.not_le.mpr low wide
  have start := cond _ R R _ () (framed.subset (List.Subset.trans fewer fewer₁)) (framed.subset fewer₁) (fun _ _ h => h)
    (room.above (Nat.le_trans large (Nat.le_of_lt low))) (room.above (Nat.le_trans large (Nat.le_of_lt low)))
    alone
  have shape : execList host mode n [] (hoisted ++ [.let id isMutable none,.if c' codeThen (some codeElse)]) =
      (execList host mode n [] hoisted >>= fun _ => exec host mode n [] (.let id isMutable none) >>= fun b =>
        perform (eval host c') >>= fun a => pure (b,a)) >>= fun p =>
        if p.2.truthy then execList host mode n [] codeThen else execList host mode n [] codeElse := by
    rw [execList_append,execList,execList_singleton]
    simp only [exec,execElse,evalTest,perform_bind,perform_pure,bind_assoc,pure_bind]
  rw [shape,perform_bind]
  refine Sim.bind start ?_
  rintro v p s t ⟨rfl,h⟩
  simp only
  by_cases taken : v.truthy
  · simp only [taken,if_true]
    exact yes R (framed.subset fewer₂) room s t h
  · simp only [taken,Bool.false_eq_true]
    exact no R (framed.subset fewer₃) room s t h

/-- A test that tells from the temporary whether the right operand is needed. -/
def Guards (host : Host W) (op : LogicalOp) (id : LocalId) (guard : Expr) : Prop :=
  ∀ t, ∃ trace, evalTest host guard t = (.ok !op.stops (t.store id),{ t with trace := trace })

/-- A short-circuit operator as an `if` on the left value, kept in the temporary. -/
theorem logical {op : LogicalOp} {guard : Expr} {codeRight : List Stmt} {mRight : Eval W Val}
    {writtenRight all : List LocalId} (left : Fills host mode n bound lo id written m code)
    (guards : Guards host op id guard) (right : Fills host mode n bound lo id writtenRight mRight codeRight)
    (fewer₁ : written ⊆ all) (fewer₂ : writtenRight ⊆ all) :
    Fills host mode n bound lo id all (m >>= fun v => if op.stops v then pure v else mRight)
      (code ++ [.if guard codeRight none]) := by
  intro R framed room
  rw [execList_append,execList_singleton,perform_bind]
  refine Sim.bind (left R (framed.subset fewer₁) room) ?_
  rintro v _ s t ⟨h,held⟩
  obtain ⟨trace,tested⟩ := guards t
  have related := framed.forget s.trace trace h
  rw [exec,Run.bind_ok (perform_ok tested),held]
  by_cases stop : op.stops v
  · simp only [stop,if_true,Bool.not_true,Bool.false_eq_true,if_false]
    exact ⟨related,held⟩
  · simp only [stop,Bool.not_false,if_true]
    exact right R (framed.subset fewer₂) room s _ related

end Fills

/-- A relation between the two programs at statement boundaries: program locals and
worlds agree, and temporaries from `lo` on are free. -/
structure Tracks (bound lo : LocalId) (R : State W → State W → Prop) : Prop where
  framed : Framed (fun a => a.id < bound) R
  room : Room lo R

theorem Tracks.reach {R : State W → State W → Prop} {lo : LocalId} (tracks : Tracks bound lo R)
    (ids : List LocalId) : Framed (reach bound ids) R := by
  refine tracks.framed.mono fun a inside => ?_
  cases a with
  | read id => exact inside
  | write id => exact inside.1

theorem Tracks.later {R : State W → State W → Prop} {lo hi : LocalId} (tracks : Tracks bound lo R)
    (higher : lo ≤ hi) : Tracks bound hi R := ⟨tracks.framed,tracks.room.above higher⟩

/-- Equal worlds and equal locals below `bound`. -/
def SameBelow (bound : LocalId) (s t : State W) : Prop :=
  s.world = t.world ∧ ∀ id < bound, s.store id = t.store id

theorem tracks_sameBelow (bound : LocalId) : Tracks (W := W) bound bound (SameBelow bound) where
  framed :=
    { locals := fun h inside => h.2 _ inside
      worlds := fun h => h.1
      assign := fun {s t id} v h _ => by
        refine ⟨h.1,fun i small => ?_⟩
        by_cases same : i = id
        · subst same
          simp
        · simpa [Function.update_of_ne same] using h.2 i small
      advance := fun w h => ⟨rfl,h.2⟩
      forget := fun _ _ h => h }
  room := fun s t id v h large => by
    refine ⟨h.1,fun i small => ?_⟩
    have apart : i ≠ id := fun same => Nat.not_lt.mpr large (same ▸ small)
    simpa [Function.update_of_ne apart] using h.2 i small

/-- A statement that starts with an evaluation, after the statements hoisted from it. -/
theorem Splits.statement {α : Type} {R : State W → State W → Prop} {lo hi : LocalId} {early written : List LocalId}
    {m m' : Eval W α} {hoisted : List Stmt} {f f' : α → Act W Unit} (tracks : Tracks bound lo R)
    (splits : Splits host mode n bound hi early written m hoisted m') (fewer : early ⊆ written) (above : lo ≤ hi)
    (rest : ∀ a, Keeps R (f a) (f' a)) :
    Keeps R (perform m >>= f) (execList host mode n [] hoisted >>= fun _ => perform m' >>= f') := by
  rw [← bind_assoc]
  exact (splits.run (tracks.reach written) fewer (tracks.room.above above)).bind rest

section straight

mutual

/-- Statements that neither loop nor jump: all that hoisting puts before a statement. -/
def straight : Stmt → Bool
  | .let .. | .expr _ => true
  | .if _ t e => straightAll t && straightBlock e
  | _ => false

def straightAll : List Stmt → Bool
  | [] => true
  | s :: ss => straight s && straightAll ss

def straightBlock : Option (List Stmt) → Bool
  | none => true
  | some body => straightAll body

end

section

-- equations, made here once and not by the first proofs that unfold these
attribute [local simp] straight straightAll straightBlock

end

@[simp] theorem straightAll_nil : straightAll [] = true := rfl

@[simp] theorem straightAll_cons (s : Stmt) (ss : List Stmt) : straightAll (s :: ss) = (straight s && straightAll ss) :=
  rfl

@[simp] theorem straightAll_append (ss ts : List Stmt) : straightAll (ss ++ ts) = (straightAll ss && straightAll ts) := by
  induction ss with
  | nil => rfl
  | cons s ss ih => simp only [List.cons_append,straightAll_cons,ih,Bool.and_assoc]

@[simp] theorem straight_let (id : LocalId) (m : Bool) (init : Option Expr) : straight (.let id m init) = true := rfl

@[simp] theorem straight_expr (e : Expr) : straight (.expr e) = true := rfl

@[simp] theorem straight_if (c : Expr) (t : List Stmt) (e : Option (List Stmt)) :
    straight (.if c t e) = (straightAll t && straightAll (e.getD [])) := by
  cases e <;> rfl

theorem straight_of_mem {ss : List Stmt} (plain : straightAll ss = true) : ∀ s ∈ ss, straight s = true := by
  induction ss with
  | nil => simp
  | cons s ss ih =>
    rw [straightAll_cons,Bool.and_eq_true] at plain
    simpa using ⟨plain.1,ih plain.2⟩

/-- The completions a host can cause. -/
def Comp.isSignal : Comp → Prop
  | .throw _ | .close _ | .halt => True
  | _ => False

theorem raises_signal {α : Type} (m : Eval W α) : Run.Raises Comp.isSignal (perform m) :=
  raises_perform (fun s => by cases s <;> trivial) m

variable {labels : List String}

private theorem execList_straight_of_each {ss : List Stmt} (each : ∀ s ∈ ss,
    exec host mode n labels s = exec host mode n [] s) :
    execList host mode n labels ss = execList host mode n [] ss := by
  induction ss with
  | nil => rfl
  | cons s ss ih =>
    simp only [execList,each s (by simp),ih fun t member => each t (by simp [member])]

theorem exec_straight {s : Stmt} (plain : straight s = true) (labels : List String) :
    exec host mode n labels s = exec host mode n [] s := by
  induction s using Stmt.induct generalizing labels with
  | letNone id m => rfl
  | letSome id m e => rfl
  | expr e => rfl
  | ifStmt c t e iht ihe =>
    rw [straight_if,Bool.and_eq_true] at plain
    have yes := execList_straight_of_each fun s member => iht s member (straight_of_mem plain.1 s member) labels
    have no := execList_straight_of_each fun s member => ihe s member (straight_of_mem plain.2 s member) labels
    simp only [exec_if,yes,no]
  | _ => cases plain

theorem execList_straight {ss : List Stmt} (plain : straightAll ss = true) (labels : List String) :
    execList host mode n labels ss = execList host mode n [] ss :=
  execList_straight_of_each fun s member => exec_straight (straight_of_mem plain s member) labels

private theorem raises_straight_of_each {ss : List Stmt}
    (each : ∀ s ∈ ss, Run.Raises Comp.isSignal (exec host mode n [] s)) :
    Run.Raises Comp.isSignal (execList host mode n [] ss) := by
  induction ss with
  | nil => exact Run.Raises.pure ()
  | cons s ss ih => exact Run.Raises.bind (each s (by simp)) fun _ => ih fun t member => each t (by simp [member])

theorem raises_straight {s : Stmt} (plain : straight s = true) : Run.Raises Comp.isSignal (exec host mode n [] s) := by
  induction s using Stmt.induct with
  | letNone id m => exact raises_signal _
  | letSome id m e => exact raises_signal _
  | expr e => exact raises_signal _
  | ifStmt c t e iht ihe =>
    rw [straight_if,Bool.and_eq_true] at plain
    have yes := raises_straight_of_each fun s member => iht s member (straight_of_mem plain.1 s member)
    have no := raises_straight_of_each fun s member => ihe s member (straight_of_mem plain.2 s member)
    rw [exec_if]
    refine Run.Raises.bind (raises_signal _) fun v => ?_
    cases v with
    | false => exact no
    | true => exact yes
  | _ => cases plain

theorem raises_straightAll (host : Host W) (mode : Mode) (n : Nat) {ss : List Stmt} (plain : straightAll ss = true) :
    Run.Raises Comp.isSignal (execList host mode n [] ss) :=
  raises_straight_of_each fun s member => raises_straight (straight_of_mem plain s member)

end straight

end Perry.Hir
