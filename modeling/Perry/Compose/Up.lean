import Perry.Compose.StartupOrder
import Perry.Machine.Runs

/-! `ComposeEngine::up` on a backend whose calls may fail, and its roll-back. -/
namespace Perry.Compose.Up
open Perry.Containers

section declarations

/-- What is declared of a network or a volume. -/
structure Settings where
  name : Option String := none
  external : Option Bool := none
  driver : Option String := none
  deriving DecidableEq,Repr

/-- A container is reached by its name; the label holds the hash of the service it was made for. -/
structure Container where
  specHash : Option String
  running : Bool
  image : String
  deriving DecidableEq,Repr

structure Service extends ComposeService where
  image : Option String := none
  build : Option String := none
  containerName : Option String := none

def Service.needsBuild (svc : Service) : Bool := svc.build.isSome && svc.image.isNone

def Service.imageRef (svc : Service) (serviceName : String) : String := svc.image.getD (serviceName ++ "-image")

/-- Where networks, volumes and services are declared, each in the order of its entries. -/
structure ComposeFile where
  services : List (String × Service)
  distinct : (services.map Prod.fst).Nodup
  networks : List (String × Option Settings)
  volumes : List (String × Option Settings)

/-- The view that the startup order is computed from. -/
def ComposeFile.spec (file : ComposeFile) : ComposeSpec where
  services := file.services.map fun entry => (entry.1,entry.2.toComposeService)
  distinct := by
    rw [List.map_map]
    exact file.distinct

inductive Kind
  | network
  | volume
  deriving DecidableEq,Repr

end declarations

section backends

/-- The networks, volumes and containers there are. -/
@[ext] structure Backend where
  shared : Kind → String → Option Settings
  containers : String → Option Container

namespace Backend

variable (b : Backend)

def putShared (kind : Kind) (name : String) (settings : Option Settings) : Backend :=
  { b with shared := Function.update b.shared kind (Function.update (b.shared kind) name settings) }

def putContainer (name : String) (container : Option Container) : Backend :=
  { b with containers := Function.update b.containers name container }

def inspectShared (kind : Kind) (name : String) : Except String (Unit × Backend) :=
  match b.shared kind name with
  | some _ => .ok ((),b)
  | none => .error "not found"

def createShared (kind : Kind) (name : String) (settings : Settings) : Except String (Unit × Backend) :=
  match b.shared kind name with
  | some _ => .error "already exists"
  | none => .ok ((),b.putShared kind name (some settings))

def removeShared (kind : Kind) (name : String) : Except String (Unit × Backend) :=
  match b.shared kind name with
  | some _ => .ok ((),b.putShared kind name none)
  | none => .error "not found"

def inspect (name : String) : Except String (Container × Backend) :=
  match b.containers name with
  | some c => .ok (c,b)
  | none => .error "not found"

def start (name : String) : Except String (Unit × Backend) :=
  match b.containers name with
  | some c => .ok ((),b.putContainer name (some { c with running := true }))
  | none => .error "not found"

def stop (name : String) : Except String (Unit × Backend) :=
  match b.containers name with
  | some c => .ok ((),b.putContainer name (some { c with running := false }))
  | none => .error "not found"

/-- By force, whether it runs or not. -/
def remove (name : String) : Except String (Unit × Backend) :=
  match b.containers name with
  | some _ => .ok ((),b.putContainer name none)
  | none => .error "not found"

def run (name : String) (container : Container) : Except String (String × Backend) :=
  match b.containers name with
  | some _ => .error "name in use"
  | none => .ok (name,b.putContainer name (some container))

def build : Except String (Unit × Backend) := .ok ((),b)

end Backend

/-- What a call of `up` keeps track of: the resources it has to roll back, and how many calls of the backend it has made. That
a removal has failed while it rolled back is noted beside them. -/
structure Session where
  backend : Backend
  calls : Nat
  containers : List String
  created : Kind → List String
  unremoved : Bool

/-- Which calls fail although the backend could do them, with the message. -/
abbrev Faults := Nat → Option String

def call {α : Type} (faults : Faults) (op : Backend → Except String (α × Backend)) (s : Session) : Except String α × Session :=
  match faults s.calls,op s.backend with
  | some message,_ => (.error message,{ s with calls := s.calls + 1 })
  | none,.error message => (.error message,{ s with calls := s.calls + 1 })
  | none,.ok (value,backend) => (.ok value,{ s with calls := s.calls + 1,backend := backend })

def Session.push (s : Session) (kind : Kind) (name : String) : Session :=
  { s with created := Function.update s.created kind (s.created kind ++ [name]) }

def Session.track (s : Session) (id : String) : Session := { s with containers := s.containers ++ [id] }

end backends

section rollbacks

variable (faults : Faults)

/-- A removal of the roll-back, whose result is not looked at. -/
def removal (op : Backend → Except String (Unit × Backend)) (s : Session) : Session :=
  { (call faults op s).2 with unremoved := s.unremoved || (faults s.calls).isSome }

def removeContainers : List String → Session → Session
  | [],s => s
  | id :: ids,s => removeContainers ids (removal faults (·.remove id) (call faults (·.stop id) s).2)

def removeAll (kind : Kind) : List String → Session → Session
  | [],s => s
  | name :: names,s => removeAll kind names (removal faults (·.removeShared kind name) s)

/-- The lists are drained. -/
def rollback (s : Session) : Session :=
  let s := removeContainers faults s.containers.reverse s
  let s := removeAll faults .network (s.created .network).reverse s
  let s := removeAll faults .volume (s.created .volume).reverse s
  { s with containers := [],created := fun _ => [] }

end rollbacks

inductive EnforcementMode
  | lenient
  | warnUser
  | strict
  deriving DecidableEq,Repr

inductive UpError
  | backend (message : String)
  | order (error : ComposeError)
  | serviceStartupFailed (service message : String)
  | enforcementViolation (service : String) (details : List String)

inductive Failure
  | fails (error : UpError)
  | panics

/-- Besides the file: the project, what the backend supports, and what is computed of a service, its hash, the warnings of the
normalization and a fresh name for its container, if none is cached. -/
structure Engine where
  file : ComposeFile
  projectName : String
  userBridgeSupported : Bool
  enforcement : EnforcementMode
  serviceSpecHash : Service → String
  warnings : String → Service → List String
  cachedName : String → Option String
  generatedName : String → String

section engine

variable (engine : Engine) (faults : Faults)

def Engine.projectScopedName (name : String) : String := engine.projectName ++ "_" ++ name

/-- `resolve_network_name` and `resolve_volume_name` -/
def Engine.resolveName (declName : String) (config : Option Settings) : String :=
  match config with
  | some cfg =>
    if cfg.external.getD false then cfg.name.getD declName
    else match cfg.name with
      | some explicit => explicit
      | none => engine.projectScopedName declName
  | none => engine.projectScopedName declName

def isExternal (config : Option Settings) : Bool := (config.bind Settings.external).getD false

/-- The networks and volumes that `up` takes care of. -/
def Engine.manages (kind : Kind) (config : Option Settings) : Bool :=
  !isExternal config && (kind ≠ .network || engine.userBridgeSupported)

def ensure (kind : Kind) (entry : String × Option Settings) (s : Session) : Except Failure Unit × Session :=
  if engine.manages kind entry.2 then
    match call faults (·.inspectShared kind (engine.resolveName entry.1 entry.2)) s with
    | (.ok _,s) => (.ok (),s)
    | (.error _,s) =>
      match call faults (·.createShared kind (engine.resolveName entry.1 entry.2) (entry.2.getD {})) s with
      | (.ok _,s) => (.ok (),s.push kind (engine.resolveName entry.1 entry.2))
      | (.error message,s) => (.error (.fails (.backend message)),s)
  else (.ok (),s)

def Engine.containerName (svcName : String) (svc : Service) : String :=
  (engine.cachedName svcName).getD (svc.containerName.getD (engine.generatedName svcName))

def startupFailed (svcName message : String) (s : Session) : Except Failure Unit × Session :=
  (.error (.fails (.serviceStartupFailed svcName message)),rollback faults s)

def runService (svcName : String) (svc : Service) (s : Session) : Except Failure Unit × Session :=
  let image := if svc.needsBuild then svc.imageRef svcName else svc.image.getD ""
  match call faults (·.run (engine.containerName svcName svc) ⟨some (engine.serviceSpecHash svc),true,image⟩) s with
  | (.ok id,s) => (.ok (),s.track id)
  | (.error message,s) => startupFailed faults svcName message s

/-- The container that is there is kept, started or replaced. -/
def placeService (svcName : String) (svc : Service) (s : Session) : Except Failure Unit × Session :=
  match call faults (·.inspect (engine.containerName svcName svc)) s with
  | (.error _,s) => runService engine faults svcName svc s
  | (.ok info,s) =>
    if info.specHash ≠ some (engine.serviceSpecHash svc) then
      let s := (call faults (·.stop (engine.containerName svcName svc)) s).2
      let s := (call faults (·.remove (engine.containerName svcName svc)) s).2
      runService engine faults svcName svc s
    else if info.running then (.ok (),s)
    else match call faults (·.start (engine.containerName svcName svc)) s with
      | (.ok _,s) => (.ok (),s.track (engine.containerName svcName svc))
      | (.error message,s) => startupFailed faults svcName message s

def buildImage (svc : Service) (s : Session) : Except String Unit × Session :=
  if svc.needsBuild then call faults Backend.build s else (.ok (),s)

def startService (svcName : String) (s : Session) : Except Failure Unit × Session :=
  match getEntry svcName engine.file.services with
  | none => (.error .panics,s)
  | some svc =>
    match buildImage faults svc s with
    | (.error message,s) => startupFailed faults svcName ("build failed: " ++ message) s
    | (.ok _,s) =>
      if engine.warnings svcName svc ≠ [] ∧ engine.enforcement = .strict then
        (.error (.fails (.enforcementViolation svcName (engine.warnings svcName svc))),rollback faults s)
      else placeService engine faults svcName svc s

/-- A loop of `up`: the state of the next round, if there is one. -/
def goesOn {ι : Type} (step : ι → Session → Except Failure Unit × Session) (s : Session) (i : ι) : Option Session :=
  match step i s with
  | (.ok _,s) => some s
  | (.error _,_) => none

def forEach {ι : Type} (step : ι → Session → Except Failure Unit × Session) : List ι → Session → Except Failure Unit × Session
  | [],s => (.ok (),s)
  | i :: is,s =>
    match step i s with
    | (.ok _,s) => forEach step is s
    | (.error failure,s) => (.error failure,s)

def Session.opened (backend : Backend) : Session := ⟨backend,0,[],fun _ => [],false⟩

def targets (services order : List String) : List String := if services = [] then order else order.filter (· ∈ services)

def up (services : List String) (backend : Backend) : Except Failure Unit × Session :=
  match forEach (ensure engine faults .network) engine.file.networks (.opened backend) with
  | (.error failure,s) => (.error failure,s)
  | (.ok _,s) =>
    match forEach (ensure engine faults .volume) engine.file.volumes s with
    | (.error failure,s) => (.error failure,s)
    | (.ok _,s) =>
      match resolveStartupOrder engine.file.spec with
      | .error (.fails error) => (.error (.fails (.order error)),s)
      | .error _ => (.error .panics,s)
      | .ok order => forEach (startService engine faults) (targets services order) s

end engine

end Perry.Compose.Up
