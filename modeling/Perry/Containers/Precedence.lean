import Mathlib.Tactic

/-! Elements that wait for others. An order that takes an available element at every step
reaches all of them exactly when none waits, through others, for itself. -/

namespace Perry.Containers

variable {α : Type*} (nodes : List α) (deps : α → List α)

def DependsOn (a b : α) : Prop := a ∈ nodes ∧ b ∈ deps a

def Acyclic : Prop := ∀ a,¬ Relation.TransGen (DependsOn nodes deps) a a

/-- Not placed yet, with everything it waits for placed. -/
structure Available (placed : List α) (a : α) : Prop where
  node : a ∈ nodes
  left : a ∉ placed
  ready : ∀ b ∈ deps a,b ∈ placed

/-- Each element is the least of those that are available behind the ones in front of it. -/
def TakesLeast [LE α] (order : List α) : Prop :=
  ∀ front a back,order = front ++ a :: back → IsLeast { b | Available nodes deps front b } a

variable {nodes deps}

theorem exists_available {placed : List α} (acyclic : Acyclic nodes deps) (closed : ∀ a ∈ nodes,∀ b ∈ deps a,b ∈ nodes)
    {a : α} (node : a ∈ nodes) (left : a ∉ placed) : ∃ b,Available nodes deps placed b := by
  let later (b c : { x // x ∈ nodes }) : Prop := Relation.TransGen (DependsOn nodes deps) c.1 b.1
  have finite : Finite { x // x ∈ nodes } := (List.finite_toSet nodes).to_subtype
  have trans : IsTrans _ later := ⟨fun _ _ _ first second => Relation.TransGen.trans second first⟩
  have irrefl : Std.Irrefl later := ⟨fun b cycle => acyclic b.1 cycle⟩
  have founded : WellFounded later := Finite.wellFounded_of_trans_of_irrefl later
  obtain ⟨⟨b,member⟩,absent,least⟩ := founded.has_min { b | b.1 ∉ placed } ⟨⟨a,node⟩,left⟩
  refine ⟨b,member,absent,fun c dep => ?_⟩
  by_contra missing
  exact least ⟨c,closed b member c dep⟩ missing (.single ⟨member,dep⟩)

namespace TakesLeast

section LE
variable [LE α] {order front back : List α} {a : α}

theorem nil : TakesLeast nodes deps [] := by
  intro front a back shape
  cases front <;> cases shape

theorem of_append (least : TakesLeast nodes deps (front ++ back)) : TakesLeast nodes deps front := by
  rintro left a right rfl
  exact least left a (right ++ back) (by rw [List.append_assoc,List.cons_append])

theorem concat (least : TakesLeast nodes deps order) (next : IsLeast { b | Available nodes deps order b } a) :
    TakesLeast nodes deps (order ++ [a]) := by
  intro front b back shape
  obtain ⟨more,rfl,same⟩ | ⟨more,rfl,same⟩ := List.append_eq_append_iff.mp shape
  · cases more with
    | nil =>
      obtain ⟨rfl,-⟩ := List.cons.inj same
      rwa [List.append_nil]
    | cons c more => cases more <;> cases same
  · cases more with
    | nil =>
      obtain ⟨rfl,-⟩ := List.cons.inj same
      rwa [List.append_nil] at next
    | cons c more =>
      obtain ⟨rfl,-⟩ := List.cons.inj same
      exact least front b more rfl

theorem available (least : TakesLeast nodes deps (front ++ a :: back)) : Available nodes deps front a :=
  (least front a back rfl).1

theorem nodup (least : TakesLeast nodes deps order) : order.Nodup := by
  induction order using List.reverseRecOn with
  | nil => exact List.nodup_nil
  | append_singleton order a ih =>
    rw [List.nodup_append]
    refine ⟨ih least.of_append,List.nodup_singleton a,?_⟩
    rintro b member c single rfl
    rw [List.mem_singleton] at single
    exact least.available.left (single ▸ member)

theorem mem_nodes (least : TakesLeast nodes deps order) (member : a ∈ order) : a ∈ nodes := by
  obtain ⟨front,back,rfl⟩ := List.append_of_mem member
  exact least.available.node

theorem mem_deps (least : TakesLeast nodes deps order) (member : a ∈ order) {b : α} (dep : b ∈ deps a) : b ∈ order := by
  obtain ⟨front,back,rfl⟩ := List.append_of_mem member
  exact List.mem_append_left _ (least.available.ready b dep)

end LE

theorem acyclic [DecidableEq α] [LE α] {order : List α} (least : TakesLeast nodes deps order) (whole : ∀ a ∈ nodes,a ∈ order) :
    Acyclic nodes deps := by
  have earlier {a b : α} (depends : DependsOn nodes deps a b) : order.idxOf b < order.idxOf a := by
    obtain ⟨front,back,rfl⟩ := List.append_of_mem (whole a depends.1)
    have here := least.available
    have before := here.ready b depends.2
    rw [List.idxOf_append_of_mem before,List.idxOf_append_of_notMem here.left,List.idxOf_cons_self]
    exact List.idxOf_lt_length_of_mem before
  intro a cycle
  have less {b : α} (reached : Relation.TransGen (DependsOn nodes deps) a b) : order.idxOf b < order.idxOf a := by
    induction reached with
    | single depends => exact earlier depends
    | tail _ depends ih => exact (earlier depends).trans ih
  exact Nat.lt_irrefl _ (less cycle)

end TakesLeast

end Perry.Containers
