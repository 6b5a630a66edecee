import Mathlib.Tactic

/-! `GetSubstitution`, over symbols of which only the codes are looked at. It commutes with an encoding that
leaves the ASCII symbols alone. -/
namespace Perry.Strings.Substitution

/-- What a replacement template can refer to. -/
structure Source (σ : Type) where
  before : List σ
  matched : List σ
  after : List σ
  captures : List (Option (List σ))
  namedCaptures : Option (List σ → Option (List σ))

section definitions

variable {σ : Type} (code : σ → Nat) (s : Source σ)

def isDigit (c : Nat) : Bool := '0'.toNat ≤ c ∧ c ≤ '9'.toNat

def digit (c : Nat) : Nat := c - '0'.toNat

/-- A reference by number; it stands for itself where no capture has the number. -/
def capture (ref : List σ) (index : Nat) : List σ :=
  if 1 ≤ index ∧ index ≤ s.captures.length then (s.captures.getD (index - 1) none).getD [] else ref

/-- Two digits, unless they are out of range. -/
def numbered (d e : σ) : List σ → List σ × List σ
  | [] => (capture s [d,e] (digit (code e)),[])
  | f :: more =>
    if isDigit (code f) = true ∧ digit (code e) * 10 + digit (code f) ≤ s.captures.length then
      (capture s [d,e,f] (digit (code e) * 10 + digit (code f)),more)
    else (capture s [d,e] (digit (code e)),f :: more)

def named (d e : σ) (more : List σ) : List σ × List σ :=
  match s.namedCaptures with
  | some get =>
    if more.any (code · = '>'.toNat) then
      ((get (more.takeWhile (code · ≠ '>'.toNat))).getD [],(more.dropWhile (code · ≠ '>'.toNat)).tail)
    else ([d,e],more)
  | none => ([d,e],more)

/-- What the reference behind a dollar stands for, and what is left of the template. -/
def reference (d : σ) : List σ → List σ × List σ
  | [] => ([d],[])
  | e :: more =>
    if code e = '$'.toNat then ([d],more)
    else if code e = '`'.toNat then (s.before,more)
    else if code e = '&'.toNat then (s.matched,more)
    else if code e = '\''.toNat then (s.after,more)
    else if isDigit (code e) = true then numbered code s d e more
    else if code e = '<'.toNat then named code s d e more
    else ([d],e :: more)

theorem numbered_suffix (d e : σ) (more : List σ) : (numbered code s d e more).2 <:+ more := by
  cases more with
  | nil => exact List.suffix_refl []
  | cons f more =>
    rw [numbered]
    split_ifs
    · exact List.suffix_cons f more
    · exact List.suffix_refl _

theorem named_suffix (d e : σ) (more : List σ) : (named code s d e more).2 <:+ more := by
  unfold named
  split
  · split_ifs
    · exact (List.tail_suffix _).trans (List.dropWhile_suffix _)
    · exact List.suffix_refl more
  · exact List.suffix_refl more

theorem reference_suffix (d : σ) (rest : List σ) : (reference code s d rest).2 <:+ rest := by
  cases rest with
  | nil => exact List.suffix_refl []
  | cons e more =>
    rw [reference]
    split_ifs
    · exact List.suffix_cons e more
    · exact List.suffix_cons e more
    · exact List.suffix_cons e more
    · exact List.suffix_cons e more
    · exact (numbered_suffix code s d e more).trans (List.suffix_cons e more)
    · exact (named_suffix code s d e more).trans (List.suffix_cons e more)
    · exact List.suffix_refl _

def substitute : List σ → List σ
  | [] => []
  | d :: rest =>
    if code d = '$'.toNat then (reference code s d rest).1 ++ substitute (reference code s d rest).2
    else d :: substitute rest
termination_by template => template.length
decreasing_by
  · exact Nat.lt_succ_of_le (reference_suffix code s d rest).length_le
  · exact Nat.lt_succ_self _

end definitions

/-- `GetSubstitution` -/
def getSubstitution {σ : Type} (code : σ → Nat) (matched str : List σ) (position : Nat) (captures : List (Option (List σ)))
    (namedCaptures : Option (List σ → Option (List σ))) (replacementTemplate : List σ) : List σ :=
  substitute code ⟨str.take position,matched,str.drop (min (position + matched.length) str.length),captures,namedCaptures⟩
    replacementTemplate

section templates

variable {σ : Type} {code : σ → Nat} {s : Source σ} {d : σ}

theorem not_isDigit {n : Nat} (wide : 0x80 ≤ n) : isDigit n ≠ true := by
  rw [isDigit,Ne,decide_eq_true_iff]
  exact fun within => absurd (wide.trans within.2) (by decide)

theorem reference_wide {e : σ} (wide : 0x80 ≤ code e) (more : List σ) : reference code s d (e :: more) = ([d],e :: more) := by
  have other {n : Nat} (ascii : n < 0x80) : code e ≠ n := by omega
  rw [reference,if_neg (other (by decide)),if_neg (other (by decide)),if_neg (other (by decide)),if_neg (other (by decide)),
    if_neg (not_isDigit wide),if_neg (other (by decide))]

@[simp] theorem substitute_nil : substitute code s [] = [] := by rw [substitute]

theorem substitute_dollar (dollar : code d = '$'.toNat) (rest : List σ) :
    substitute code s (d :: rest) = (reference code s d rest).1 ++ substitute code s (reference code s d rest).2 := by
  rw [substitute,if_pos dollar]

theorem substitute_literal (other : code d ≠ '$'.toNat) (rest : List σ) :
    substitute code s (d :: rest) = d :: substitute code s rest := by
  rw [substitute,if_neg other]

theorem substitute_literals {run : List σ} (others : ∀ c ∈ run,code c ≠ '$'.toNat) (rest : List σ) :
    substitute code s (run ++ rest) = run ++ substitute code s rest := by
  induction run with
  | nil => rfl
  | cons c run ih =>
    obtain ⟨other,others⟩ := List.forall_mem_cons.mp others
    rw [List.cons_append,substitute_literal other,ih others,List.cons_append]

end templates

section members

variable {σ : Type} {code : σ → Nat} {s : Source σ} {p : σ → Prop}

/-- All that the text is made of. -/
structure Source.All (s : Source σ) (p : σ → Prop) : Prop where
  before : ∀ c ∈ s.before,p c
  matched : ∀ c ∈ s.matched,p c
  after : ∀ c ∈ s.after,p c
  captures : ∀ found ∈ s.captures,∀ c ∈ found.getD [],p c
  namedCaptures : ∀ get,s.namedCaptures = some get → ∀ name,∀ c ∈ (get name).getD [],p c

theorem Source.All.capture (all : s.All p) {ref : List σ} (own : ∀ c ∈ ref,p c) (index : Nat) : ∀ c ∈ capture s ref index,p c := by
  unfold Substitution.capture
  split_ifs with within
  · have inside : index - 1 < s.captures.length := by omega
    rw [← List.getElem_eq_getD (h := inside)]
    exact all.captures _ (List.getElem_mem _)
  · exact own

theorem Source.All.reference (all : s.All p) {d : σ} {rest : List σ} (own : p d) (others : ∀ c ∈ rest,p c) :
    ∀ c ∈ (reference code s d rest).1,p c := by
  have itself : ∀ c ∈ [d],p c := List.forall_mem_singleton.mpr own
  cases rest with
  | nil => exact itself
  | cons e more =>
    obtain ⟨own',others⟩ := List.forall_mem_cons.mp others
    have both : ∀ c ∈ [d,e],p c := List.forall_mem_cons.mpr ⟨own,List.forall_mem_singleton.mpr own'⟩
    rw [Substitution.reference]
    split_ifs
    · exact itself
    · exact all.before
    · exact all.matched
    · exact all.after
    · cases more with
      | nil => exact all.capture both _
      | cons f more =>
        rw [numbered]
        split_ifs
        · refine all.capture ?_ _
          exact List.forall_mem_cons.mpr ⟨own,List.forall_mem_cons.mpr ⟨own',List.forall_mem_singleton.mpr (others f List.mem_cons_self)⟩⟩
        · exact all.capture both _
    · unfold named
      split
      · next get known =>
        split_ifs
        · exact all.namedCaptures get known _
        · exact both
      · exact both
    · exact itself

theorem Source.All.substitute (all : s.All p) {template : List σ} (own : ∀ c ∈ template,p c) :
    ∀ c ∈ substitute code s template,p c := by
  induction size : template.length using Nat.strong_induction_on generalizing template with
  | _ size ih =>
    cases template with
    | nil =>
      rw [substitute_nil]
      exact List.forall_mem_nil p
    | cons d rest =>
      obtain ⟨first,others⟩ := List.forall_mem_cons.mp own
      rw [List.length_cons] at size
      by_cases dollar : code d = '$'.toNat
      · have suffix := reference_suffix code s d rest
        have shorter := suffix.length_le
        rw [substitute_dollar dollar]
        exact List.forall_mem_append.mpr ⟨all.reference first others,
          ih _ (by omega) (fun c member => others c (suffix.subset member)) rfl⟩
      · rw [substitute_literal dollar]
        exact List.forall_mem_cons.mpr ⟨first,ih _ (by omega) others rfl⟩

end members

section encodings

variable {σ τ : Type} {code : σ → Nat} {code' : τ → Nat} {encode : σ → List τ}

/-- An ASCII symbol stays one symbol with its code, and the others have no ASCII symbol in their encodings. -/
def Transparent (code : σ → Nat) (code' : τ → Nat) (encode : σ → List τ) (c : σ) : Prop :=
  (∃ t,encode c = [t] ∧ code' t = code c) ∨ 0x80 ≤ code c ∧ encode c ≠ [] ∧ ∀ t ∈ encode c,0x80 ≤ code' t

/-- One source in another alphabet, for a template that asks for no other names. -/
structure Encodes (encode : σ → List τ) (template : List σ) (s : Source σ) (s' : Source τ) : Prop where
  before : s'.before = s.before.flatMap encode
  matched : s'.matched = s.matched.flatMap encode
  after : s'.after = s.after.flatMap encode
  captures : s'.captures = s.captures.map (Option.map (List.flatMap encode))
  namedCaptures : s.namedCaptures = none ∧ s'.namedCaptures = none ∨ ∃ get get',s.namedCaptures = some get ∧
    s'.namedCaptures = some get' ∧ ∀ name,name <:+: template → get' (name.flatMap encode) = (get name).map (List.flatMap encode)

variable {template : List σ} {s : Source σ} {s' : Source τ}

theorem Encodes.within {template' : List σ} (encodes : Encodes encode template s s') (inside : template' <:+: template) :
    Encodes encode template' s s' where
  before := encodes.before
  matched := encodes.matched
  after := encodes.after
  captures := encodes.captures
  namedCaptures := by
    obtain none | ⟨get,get',named,named',same⟩ := encodes.namedCaptures
    · exact .inl none
    · exact .inr ⟨get,get',named,named',fun name within => same name (within.trans inside)⟩

theorem Encodes.capture (encodes : Encodes encode template s s') (ref : List σ) (index : Nat) :
    capture s' (ref.flatMap encode) index = (capture s ref index).flatMap encode := by
  unfold Substitution.capture
  rw [encodes.captures,List.length_map]
  split_ifs
  · rw [List.getD_eq_getElem?_getD,List.getElem?_map,List.getD_eq_getElem?_getD]
    cases s.captures[index - 1]? with
    | none => rfl
    | some found => cases found <;> rfl
  · rfl

theorem Transparent.ascii {c : σ} (transparent : Transparent code code' encode c) (ascii : code c < 0x80) :
    ∃ t,encode c = [t] ∧ code' t = code c :=
  transparent.resolve_right fun wide => absurd wide.1 (Nat.not_le.mpr ascii)

/-- Whether a symbol is a certain ASCII one can be seen on its encoding. -/
theorem Transparent.test {c : σ} (transparent : Transparent code code' encode c) {n : Nat} (ascii : n < 0x80) :
    (∃ t,encode c = [t] ∧ code' t = n ∧ code c = n) ∨ code c ≠ n ∧ encode c ≠ [] ∧ ∀ t ∈ encode c,code' t ≠ n := by
  obtain ⟨t,shape,same⟩ | ⟨wide,some,others⟩ := transparent
  · by_cases hit : code c = n
    · exact .inl ⟨t,shape,same.trans hit,hit⟩
    · refine .inr ⟨hit,by rw [shape]; exact List.cons_ne_nil t [],?_⟩
      rw [shape]
      exact List.forall_mem_singleton.mpr (same ▸ hit)
  · refine .inr ⟨by omega,some,fun t member => ?_⟩
    have wide' := others t member
    omega

variable {d e : σ} {d' e' : τ}

theorem numbered_encoded (encodes : Encodes encode template s s') (first : encode d = [d']) (second : encode e = [e'])
    (same : code' e' = code e) {more : List σ} (symbols : ∀ c ∈ more,Transparent code code' encode c) :
    numbered code' s' d' e' (more.flatMap encode) =
      (numbered code s d e more).map (List.flatMap encode) (List.flatMap encode) := by
  have one := encodes.capture [d,e] (digit (code e))
  rw [List.flatMap_cons,List.flatMap_cons,List.flatMap_nil,first,second] at one
  cases more with
  | nil =>
    rw [List.flatMap_nil,numbered,numbered,same]
    exact Prod.ext one rfl
  | cons f more =>
    rw [List.flatMap_cons]
    obtain ⟨f',third,same'⟩ | ⟨wide,some,others⟩ := symbols f List.mem_cons_self
    · have two := encodes.capture [d,e,f] (digit (code e) * 10 + digit (code f))
      rw [List.flatMap_cons,List.flatMap_cons,List.flatMap_cons,List.flatMap_nil,first,second,third] at two
      rw [third,List.singleton_append,numbered,numbered,same,same',encodes.captures,List.length_map]
      split_ifs
      · exact Prod.ext two rfl
      · refine Prod.ext one ?_
        rw [Prod.map_snd,List.flatMap_cons,third]
        rfl
    · obtain ⟨f',rest,shape⟩ := List.exists_cons_of_ne_nil some
      have wide' := others f' (by rw [shape]; exact List.mem_cons_self)
      rw [shape,List.cons_append,numbered,numbered,if_neg fun both => not_isDigit wide' both.1,
        if_neg fun both => not_isDigit wide both.1,same]
      refine Prod.ext one ?_
      rw [Prod.map_snd,List.flatMap_cons,shape,List.cons_append]

section searches

variable {n : Nat}

theorem any_encoded (symbols : ∀ c ∈ template,Transparent code code' encode c) (ascii : n < 0x80) :
    (template.flatMap encode).any (code' · = n) = template.any (code · = n) := by
  induction template with
  | nil => rfl
  | cons c template ih =>
    obtain ⟨symbol,symbols⟩ := List.forall_mem_cons.mp symbols
    rw [List.flatMap_cons,List.any_append,List.any_cons,ih symbols]
    congr 1
    obtain ⟨t,shape,hit',hit⟩ | ⟨miss,-,misses⟩ := symbol.test ascii
    · rw [shape,List.any_cons,List.any_nil,Bool.or_false,decide_eq_true hit',decide_eq_true hit]
    · rw [decide_eq_false miss,List.any_eq_false]
      exact fun t member hit => misses t member (of_decide_eq_true hit)

theorem takeWhile_encoded (symbols : ∀ c ∈ template,Transparent code code' encode c) (ascii : n < 0x80) :
    (template.flatMap encode).takeWhile (code' · ≠ n) = (template.takeWhile (code · ≠ n)).flatMap encode := by
  induction template with
  | nil => rfl
  | cons c template ih =>
    obtain ⟨symbol,symbols⟩ := List.forall_mem_cons.mp symbols
    rw [List.flatMap_cons]
    obtain ⟨t,shape,hit',hit⟩ | ⟨miss,-,misses⟩ := symbol.test ascii
    · rw [shape,List.singleton_append,List.takeWhile_cons_of_neg (by simpa using hit'),List.takeWhile_cons_of_neg (by simpa using hit)]
      rfl
    · rw [List.takeWhile_append_of_pos (fun t member => decide_eq_true (misses t member)),
        List.takeWhile_cons_of_pos (by simpa using miss),ih symbols,List.flatMap_cons]

theorem dropWhile_encoded (symbols : ∀ c ∈ template,Transparent code code' encode c) (ascii : n < 0x80) :
    ((template.flatMap encode).dropWhile (code' · ≠ n)).tail = (template.dropWhile (code · ≠ n)).tail.flatMap encode := by
  induction template with
  | nil => rfl
  | cons c template ih =>
    obtain ⟨symbol,symbols⟩ := List.forall_mem_cons.mp symbols
    rw [List.flatMap_cons]
    obtain ⟨t,shape,hit',hit⟩ | ⟨miss,-,misses⟩ := symbol.test ascii
    · rw [shape,List.singleton_append,List.dropWhile_cons_of_neg (by simpa using hit'),List.dropWhile_cons_of_neg (by simpa using hit)]
      rfl
    · rw [List.dropWhile_append_of_pos (fun t member => decide_eq_true (misses t member)),
        List.dropWhile_cons_of_pos (by simpa using miss),ih symbols]

end searches

theorem named_encoded {more : List σ} (encodes : Encodes encode more s s') (first : encode d = [d']) (second : encode e = [e'])
    (symbols : ∀ c ∈ more,Transparent code code' encode c) :
    named code' s' d' e' (more.flatMap encode) = (named code s d e more).map (List.flatMap encode) (List.flatMap encode) := by
  have itself : [d',e'] = [d,e].flatMap encode := by
    rw [List.flatMap_cons,List.flatMap_cons,List.flatMap_nil,first,second]
    rfl
  unfold named
  obtain ⟨none,none'⟩ | ⟨get,get',known,known',agree⟩ := encodes.namedCaptures
  · rw [none,none']
    exact Prod.ext itself rfl
  · rw [known,known']
    simp only [any_encoded symbols (show '>'.toNat < 0x80 by decide)]
    split_ifs
    · refine Prod.ext ?_ (dropWhile_encoded symbols (by decide))
      rw [takeWhile_encoded symbols (by decide),agree _ (List.takeWhile_prefix _).isInfix]
      cases get (more.takeWhile (code · ≠ '>'.toNat)) <;> rfl
    · exact Prod.ext itself rfl

theorem reference_encoded {rest : List σ} (encodes : Encodes encode rest s s') (first : encode d = [d'])
    (symbols : ∀ c ∈ rest,Transparent code code' encode c) :
    reference code' s' d' (rest.flatMap encode) = (reference code s d rest).map (List.flatMap encode) (List.flatMap encode) := by
  have itself : [d'] = [d].flatMap encode := by
    rw [List.flatMap_cons,List.flatMap_nil,first]
    rfl
  cases rest with
  | nil => exact Prod.ext itself rfl
  | cons e more =>
    obtain ⟨symbol,symbols⟩ := List.forall_mem_cons.mp symbols
    rw [List.flatMap_cons]
    obtain ⟨e',second,same⟩ | ⟨wide,some,others⟩ := symbol
    · rw [second,List.singleton_append,reference,reference,same]
      split_ifs
      · exact Prod.ext itself rfl
      · exact Prod.ext encodes.before rfl
      · exact Prod.ext encodes.matched rfl
      · exact Prod.ext encodes.after rfl
      · exact numbered_encoded encodes first second same symbols
      · exact named_encoded (encodes.within (List.suffix_cons e more).isInfix) first second symbols
      · refine Prod.ext itself ?_
        rw [Prod.map_snd,List.flatMap_cons,second]
        rfl
    · obtain ⟨e',block,shape⟩ := List.exists_cons_of_ne_nil some
      have wide' := others e' (by rw [shape]; exact List.mem_cons_self)
      rw [reference_wide wide,shape,List.cons_append,reference_wide wide']
      refine Prod.ext itself ?_
      rw [Prod.map_snd,List.flatMap_cons,shape,List.cons_append]

theorem substitute_encoded {template : List σ} (encodes : Encodes encode template s s')
    (symbols : ∀ c ∈ template,Transparent code code' encode c) :
    substitute code' s' (template.flatMap encode) = (substitute code s template).flatMap encode := by
  induction size : template.length using Nat.strong_induction_on generalizing template with
  | _ size ih =>
    cases template with
    | nil => rw [List.flatMap_nil,substitute_nil,substitute_nil,List.flatMap_nil]
    | cons d rest =>
      have inside : rest <:+: d :: rest := (List.suffix_cons d rest).isInfix
      obtain ⟨symbol,symbols⟩ := List.forall_mem_cons.mp symbols
      rw [List.length_cons] at size
      rw [List.flatMap_cons]
      obtain ⟨d',shape,dollar',dollar⟩ | ⟨other,-,others⟩ := symbol.test (n := '$'.toNat) (by decide)
      · have suffix := reference_suffix code s d rest
        have shorter := suffix.length_le
        have later := ih _ (by omega) (encodes.within (suffix.isInfix.trans inside)) (fun c member => symbols c (suffix.subset member)) rfl
        rw [shape,List.singleton_append,substitute_dollar dollar',substitute_dollar dollar,List.flatMap_append,
          reference_encoded (encodes.within inside) shape symbols,← later]
        rfl
      · rw [substitute_literals others,substitute_literal other,List.flatMap_cons,ih _ (by omega) (encodes.within inside) symbols rfl]

end encodings

end Perry.Strings.Substitution
