import Mathlib.Tactic

/-! Depth-first walks that leave a node behind everything it leads to. A node that is still being
visited is passed over, so that only a circle puts a node in front of one of its successors. -/
namespace Perry.Containers

variable {V : Type*}

structure Walk (V : Type*) where
  /-- The nodes that have been left, in order. -/
  visited : List V
  visiting : List V

def visit [DecidableEq V] (succ : V → List V) : Nat → Walk V → V → Option (Walk V)
  | 0,_,_ => none
  | rounds + 1,walk,v =>
    if v ∈ walk.visited ∨ v ∈ walk.visiting then some walk
    else ((succ v).foldlM (visit succ rounds) { walk with visiting := v :: walk.visiting }).map fun walk =>
      ⟨walk.visited ++ [v],walk.visiting.erase v⟩

def visitAll [DecidableEq V] (succ : V → List V) (rounds : Nat) (roots : List V) : Option (Walk V) :=
  roots.foldlM (visit succ rounds) ⟨[],[]⟩

def Leads (succ : V → List V) : V → V → Prop := Relation.ReflTransGen fun a b => b ∈ succ a

/-- Each element has its successors in front of it, but for those that lead back. -/
def Ordered (succ : V → List V) (order : List V) : Prop :=
  ∀ front v back,order = front ++ v :: back → ∀ d ∈ succ v,d ∈ front ∨ Leads succ d v

variable {succ : V → List V} {walk : Walk V} {v : V}

namespace Ordered

theorem nil : Ordered succ [] := by
  intro front v back shape
  cases front <;> cases shape

theorem concat {order : List V} (ordered : Ordered succ order) (ready : ∀ d ∈ succ v,d ∈ order ∨ Leads succ d v) :
    Ordered succ (order ++ [v]) := by
  intro front u back shape
  obtain ⟨more,rfl,same⟩ | ⟨more,rfl,same⟩ := List.append_eq_append_iff.mp shape
  · cases more with
    | nil =>
      obtain ⟨rfl,-⟩ := List.cons.inj same
      rwa [List.append_nil]
    | cons c more => cases more <;> cases same
  · cases more with
    | nil =>
      obtain ⟨rfl,-⟩ := List.cons.inj same
      rwa [List.append_nil] at ready
    | cons c more =>
      obtain ⟨rfl,-⟩ := List.cons.inj same
      exact ordered front u more rfl

/-- In a row without repetitions, a successor stands in front or leads back. -/
theorem idxOf [DecidableEq V] {order : List V} (ordered : Ordered succ order) (nodup : order.Nodup) (member : v ∈ order) {d : V} (edge : d ∈ succ v) :
    d ∈ order ∧ order.idxOf d < order.idxOf v ∨ Leads succ d v := by
  obtain ⟨front,back,rfl⟩ := List.append_of_mem member
  refine (ordered front v back rfl d edge).imp_left fun before => ⟨List.mem_append_left _ before,?_⟩
  have out : v ∉ front := by
    intro twice
    exact (List.nodup_append.mp nodup).2.2 v twice v (List.mem_cons_self ..) rfl
  rw [List.idxOf_append_of_mem before,List.idxOf_append_of_notMem out,List.idxOf_cons_self]
  exact List.idxOf_lt_length_of_mem before

end Ordered

structure Sound (succ : V → List V) (walk : Walk V) : Prop where
  nodup : walk.visited.Nodup
  distinct : walk.visiting.Nodup
  apart : ∀ v ∈ walk.visiting,v ∉ walk.visited
  ordered : Ordered succ walk.visited

/-- What visits add that start from some nodes. -/
structure Adds (succ : V → List V) (starts : List V) (walk after : Walk V) : Prop where
  sound : Sound succ after
  visiting : after.visiting = walk.visiting
  visited : ∃ new,after.visited = walk.visited ++ new ∧ ∀ x ∈ new,∃ start ∈ starts,Leads succ start x
  started : ∀ start ∈ starts,start ∈ after.visited ∨ start ∈ walk.visiting

variable [DecidableEq V]

def unseen (nodes : List V) (walk : Walk V) : Nat :=
  nodes.countP fun v => v ∉ walk.visited ∧ v ∉ walk.visiting

theorem unseen_enter {nodes : List V} (node : v ∈ nodes) (fresh : ¬(v ∈ walk.visited ∨ v ∈ walk.visiting)) :
    unseen nodes { walk with visiting := v :: walk.visiting } < unseen nodes walk := by
  obtain ⟨front,back,rfl⟩ := List.append_of_mem node
  have fewer : ∀ part : List V,part.countP (fun u => decide (u ∉ walk.visited ∧ u ∉ v :: walk.visiting)) ≤
      part.countP fun u => decide (u ∉ walk.visited ∧ u ∉ walk.visiting) := by
    refine fun part => List.countP_mono_left fun u _ => ?_
    rw [decide_eq_true_eq,decide_eq_true_eq]
    exact fun ⟨out,off⟩ => ⟨out,fun member => off (List.mem_cons_of_mem v member)⟩
  have counted : decide (v ∉ walk.visited ∧ v ∉ walk.visiting) = true := decide_eq_true (not_or.mp fresh)
  have passed : decide (v ∉ walk.visited ∧ v ∉ v :: walk.visiting) = false :=
    decide_eq_false fun ⟨_,off⟩ => off (List.mem_cons_self ..)
  have front_fewer := fewer front
  have back_fewer := fewer back
  simp only [unseen,List.countP_append,List.countP_cons,counted,passed]
  simp only [if_true,Bool.false_eq_true,if_false]
  omega

theorem Adds.unseen_le {nodes : List V} {starts : List V} {after : Walk V} (adds : Adds succ starts walk after) :
    unseen nodes after ≤ unseen nodes walk := by
  obtain ⟨new,visited,_⟩ := adds.visited
  refine List.countP_mono_left fun u _ => ?_
  rw [decide_eq_true_eq,decide_eq_true_eq,visited,adds.visiting,List.mem_append]
  exact fun ⟨out,off⟩ => ⟨fun member => out (.inl member),off⟩

section Visits

variable {nodes : List V} (closed : ∀ v ∈ nodes,∀ d ∈ succ v,d ∈ nodes)

/-- The visits of a row of nodes, each of which adds what it is to add. -/
theorem fold_visits (nodes : List V) (bound : Nat) {step : Walk V → V → Option (Walk V)} {starts : List V}
    (one : ∀ {walk : Walk V} {v : V},v ∈ starts → Sound succ walk → (∀ u ∈ walk.visiting,Leads succ u v) → unseen nodes walk < bound →
      ∃ after,step walk v = some after ∧ Adds succ [v] walk after)
    (sound : Sound succ walk) (stack : ∀ u ∈ walk.visiting,∀ v ∈ starts,Leads succ u v) (enough : unseen nodes walk < bound) :
    ∃ after,starts.foldlM step walk = some after ∧ Adds succ starts walk after := by
  induction starts generalizing walk with
  | nil => exact ⟨walk,rfl,sound,rfl,⟨[],by simp,by simp⟩,by simp⟩
  | cons v starts ih =>
    obtain ⟨next,first,adds⟩ := one (List.mem_cons_self ..) sound (fun u member => stack u member v (List.mem_cons_self ..)) enough
    have still : ∀ u ∈ next.visiting,∀ w ∈ starts,Leads succ u w := by
      rw [adds.visiting]
      exact fun u member w later => stack u member w (List.mem_cons_of_mem v later)
    obtain ⟨after,rest,more⟩ := ih (fun later => one (List.mem_cons_of_mem v later)) adds.sound still
      (adds.unseen_le.trans_lt enough)
    obtain ⟨new,visited,led⟩ := adds.visited
    obtain ⟨newer,visited_later,led_later⟩ := more.visited
    refine ⟨after,by rw [List.foldlM_cons,first]; exact rest,more.sound,more.visiting.trans adds.visiting,⟨new ++ newer,?_,?_⟩,?_⟩
    · rw [visited_later,visited,List.append_assoc]
    · intro x member
      obtain early | late := List.mem_append.mp member
      · obtain ⟨start,single,leads⟩ := led x early
        exact ⟨v,List.mem_cons_self ..,List.mem_singleton.mp single ▸ leads⟩
      · obtain ⟨start,later,leads⟩ := led_later x late
        exact ⟨start,List.mem_cons_of_mem v later,leads⟩
    · refine List.forall_mem_cons.mpr ⟨?_,fun start later => adds.visiting ▸ more.started start later⟩
      refine (adds.started v (List.mem_singleton_self v)).imp_left fun member => ?_
      rw [visited_later]
      exact List.mem_append_left _ member

include closed in
theorem visit_spec {rounds : Nat} (node : v ∈ nodes) (sound : Sound succ walk) (stack : ∀ u ∈ walk.visiting,Leads succ u v)
    (enough : unseen nodes walk < rounds) : ∃ after,visit succ rounds walk v = some after ∧ Adds succ [v] walk after := by
  induction rounds generalizing walk v with
  | zero => omega
  | succ rounds ih =>
    rw [visit]
    split
    · next seen => exact ⟨walk,rfl,sound,rfl,⟨[],by simp,by simp⟩,by simpa using seen⟩
    next fresh =>
    have entered : Sound succ { walk with visiting := v :: walk.visiting } :=
      ⟨sound.nodup,List.nodup_cons.mpr ⟨fun member => fresh (.inr member),sound.distinct⟩,
        List.forall_mem_cons.mpr ⟨fun member => fresh (.inl member),sound.apart⟩,sound.ordered⟩
    have below : ∀ u ∈ v :: walk.visiting,∀ d ∈ succ v,Leads succ u d := by
      intro u member d edge
      obtain rfl | member := List.mem_cons.mp member
      · exact .single edge
      · exact (stack u member).tail edge
    obtain ⟨after,walked,adds⟩ := fold_visits nodes rounds
      (fun edge sound stack enough => ih (closed v node _ edge) sound stack enough) entered below
      (by have := unseen_enter node fresh; omega)
    obtain ⟨new,visited,led⟩ := adds.visited
    have out : v ∉ after.visited := adds.sound.apart v (by rw [adds.visiting]; exact List.mem_cons_self ..)
    have left : after.visiting.erase v = walk.visiting := by rw [adds.visiting,List.erase_cons_head]
    refine ⟨_,by rw [walked]; rfl,⟨?_,?_,?_,?_⟩,left,⟨new ++ [v],?_,?_⟩,?_⟩
    · exact List.nodup_append.mpr ⟨adds.sound.nodup,List.nodup_singleton v,by
        rintro a member b single rfl
        exact out (List.mem_singleton.mp single ▸ member)⟩
    · dsimp only
      rw [left]
      exact sound.distinct
    · dsimp only
      rw [left]
      intro u member
      rw [List.mem_append,List.mem_singleton]
      rintro (before | rfl)
      · exact adds.sound.apart u (by rw [adds.visiting]; exact List.mem_cons_of_mem v member) before
      · exact fresh (.inr member)
    · refine adds.sound.ordered.concat fun d edge => ?_
      obtain done | open_ := adds.started d edge
      · exact .inl done
      · obtain rfl | member := List.mem_cons.mp open_
        · exact .inr .refl
        · exact .inr (stack d member)
    · dsimp only
      rw [visited,List.append_assoc]
    · intro x member
      refine ⟨v,List.mem_singleton_self v,?_⟩
      obtain earlier | single := List.mem_append.mp member
      · obtain ⟨d,edge,leads⟩ := led x earlier
        exact .head edge leads
      · rw [List.mem_singleton.mp single]
        exact .refl
    · intro start single
      rw [List.mem_singleton.mp single]
      exact .inl (List.mem_append_right _ (List.mem_singleton_self v))

include closed in
/-- A walk over all roots: what they lead to, and nothing else, each node once and behind its successors. -/
theorem visitAll_spec {rounds : Nat} {roots : List V} (inside : ∀ root ∈ roots,root ∈ nodes) (enough : nodes.length < rounds) :
    ∃ after,visitAll succ rounds roots = some after ∧ after.visiting = [] ∧ after.visited.Nodup ∧ Ordered succ after.visited ∧
      (∀ root ∈ roots,root ∈ after.visited) ∧ ∀ v ∈ after.visited,∃ root ∈ roots,Leads succ root v := by
  have start : Sound succ (⟨[],[]⟩ : Walk V) := ⟨List.nodup_nil,List.nodup_nil,by simp,.nil⟩
  obtain ⟨after,walked,adds⟩ := fold_visits nodes rounds
    (fun member sound stack enough => visit_spec closed (inside _ member) sound stack enough) start (by simp)
    (List.countP_le_length.trans_lt enough)
  obtain ⟨new,visited,led⟩ := adds.visited
  rw [List.nil_append] at visited
  refine ⟨after,walked,adds.visiting,adds.sound.nodup,adds.sound.ordered,fun root member => ?_,visited ▸ led⟩
  simpa using adds.started root member

end Visits

/-- A node whose successors have all been left is left at once. -/
theorem visit_ready {rounds : Nat} {visited : List V} (fresh : v ∉ visited) (ready : ∀ d ∈ succ v,d ∈ visited) :
    visit succ (rounds + 2) ⟨visited,[]⟩ v = some ⟨visited ++ [v],[]⟩ := by
  have passed : ∀ ds : List V,(∀ d ∈ ds,d ∈ visited) → ds.foldlM (visit succ (rounds + 1)) ⟨visited,[v]⟩ = some ⟨visited,[v]⟩ := by
    intro ds
    induction ds with
    | nil => exact fun _ => rfl
    | cons d ds ih =>
      intro ready
      obtain ⟨here,later⟩ := List.forall_mem_cons.mp ready
      rw [List.foldlM_cons,visit,if_pos (.inl here)]
      exact ih later
  rw [visit,if_neg (by simpa using fresh),passed _ ready,Option.map_some,List.erase_cons_head]

/-- Where each node comes behind its successors already, the walk is the row itself. -/
theorem foldlM_ready {rounds : Nat} {order : List V} (nodup : order.Nodup)
    (ready : ∀ front v back,order = front ++ v :: back → ∀ d ∈ succ v,d ∈ front) :
    order.foldlM (visit succ (rounds + 2)) ⟨[],[]⟩ = some ⟨order,[]⟩ := by
  have whole : ∀ back front : List V,order = front ++ back → back.foldlM (visit succ (rounds + 2)) ⟨front,[]⟩ = some ⟨order,[]⟩ := by
    intro back
    induction back with
    | nil => exact fun front same => by rw [same,List.append_nil]; rfl
    | cons v back ih =>
      intro front same
      have fresh : v ∉ front := by
        intro twice
        exact (List.nodup_append.mp (same ▸ nodup)).2.2 v twice v (List.mem_cons_self ..) rfl
      rw [List.foldlM_cons,visit_ready fresh (ready front v back same)]
      exact ih (front ++ [v]) (by rw [same,List.append_assoc]; rfl)
  exact whole order [] rfl

end Perry.Containers
