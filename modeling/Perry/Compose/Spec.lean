import Mathlib.Data.String.Basic
import Perry.Containers.Records

/-! Compose specifications: the services by name, and what each one depends on. -/

namespace Perry.Compose

/-- The conditions that the map form gives for its entries are not read. -/
inductive DependsOnSpec where
  | list (names : List String)
  | map (names : List String)

def DependsOnSpec.serviceNames : DependsOnSpec → List String
  | .list names => names
  | .map names => names

structure ComposeService where
  dependsOn : Option DependsOnSpec := none

/-- An `IndexMap` holds its entries in the order of their insertion, one for each name. -/
structure ComposeSpec where
  services : List (String × ComposeService)
  distinct : (services.map Prod.fst).Nodup

inductive ComposeError where
  | dependencyCycle (services : List String)
  | validationError (message : String)

/-- Besides an error a computation can panic, or not come to an end. -/
inductive Halt where
  | fails (error : ComposeError)
  | panics
  | runsOn

def unwrap {α : Type} : Option α → Except Halt α
  | some value => .ok value
  | none => .error .panics

/-- `usize` subtraction, checked. -/
def subtract (a b : Nat) : Except Halt Nat := if b ≤ a then .ok (a - b) else .error .panics

end Perry.Compose
