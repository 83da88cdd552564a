import Vuma.Lib.HashMap
import Vuma.Ipc.Seccomp

/-!
# Workers

`FfiWorkerLifecycle` and `Supervisor` of `ipc.rs`. Both keep a table of workers, answer calls from
it and let a worker be restarted until its budget is used up.
-/

namespace Vuma.Ipc

open Lib

/-! ## `FfiWorkerLifecycle` -/

/-- `FfiWorkerConfig`, without the sandbox, which the operations do not read. -/
structure FfiWorkerConfig where
  libraryPath : String
  functionName : String
  trustLevel : TrustLevel
  maxRestarts : UInt32
  timeoutMs : UInt64
  deriving DecidableEq, Repr

/-- The library and the function are the same, by which prior workers are found. -/
def FfiWorkerConfig.sameTarget (config config' : FfiWorkerConfig) : Bool :=
  config.libraryPath == config'.libraryPath && config.functionName == config'.functionName

structure FfiCall where
  functionName : String
  args : Bytes
  returnTypeHash : UInt64
  deriving DecidableEq, Repr

def FfiCall.marshal (call : FfiCall) (args : Bytes) : Bytes :=
  leBytes 4 (UInt32.ofNat args.length).toNat ++ leBytes 8 call.returnTypeHash.toNat ++ args

structure FfiResult where
  success : Bool
  returnValue : Bytes
  error : Option String
  elapsedMs : UInt64
  deriving DecidableEq, Repr

def FfiResult.ok (returnValue : Bytes) (elapsedMs : UInt64) : FfiResult :=
  ⟨true, returnValue, none, elapsedMs⟩

/-- The errors of `IpcError` that the operations on workers and on encrypted frames return. -/
inductive IpcError where
  | crcMismatch (expected actual : UInt32)
  | permissionDenied
  | deserializationError
  | tooManyProcesses
  | workerNotFound
  | workerCrashed (code : Int32)
  | workerTimeout
  | maxRestartsExceeded
  deriving DecidableEq, Repr

structure FfiWorkerEntry where
  config : FfiWorkerConfig
  restartCount : UInt32
  alive : Bool
  deriving DecidableEq, Repr

structure FfiWorkerLifecycle where
  workers : HashMap UInt32 FfiWorkerEntry
  nextPid : UInt32

namespace FfiWorkerLifecycle

def new : FfiWorkerLifecycle := ⟨∅, 1000⟩

/-- A new worker gets the next pid. -/
def push (s : FfiWorkerLifecycle) (entry : FfiWorkerEntry) :
    Except IpcError UInt32 × FfiWorkerLifecycle :=
  if s.nextPid.toNat + 1 < 2 ^ 32 then
    (.ok s.nextPid, ⟨s.workers.insert s.nextPid entry, s.nextPid + 1⟩)
  else (.error .tooManyProcesses, s)

def spawnFfiWorker (s : FfiWorkerLifecycle) (config : FfiWorkerConfig) :
    Except IpcError UInt32 × FfiWorkerLifecycle :=
  s.push ⟨config, 0, true⟩

def callFfi (s : FfiWorkerLifecycle) (pid : UInt32) (call : FfiCall) (timeoutMs : UInt64) :
    Except IpcError FfiResult :=
  match s.workers.lookup pid with
  | none => .error .workerNotFound
  | some entry =>
    if !entry.alive then .error (.workerCrashed 0)
    else if timeoutMs = 0 then .error .workerTimeout
    else .ok (.ok (call.marshal call.args) (if timeoutMs < 10 then timeoutMs else 10))

def killFfiWorker (s : FfiWorkerLifecycle) (pid : UInt32) :
    Except IpcError Unit × FfiWorkerLifecycle :=
  match s.workers.lookup pid with
  | none => (.error .workerNotFound, s)
  | some entry => (.ok (), { s with workers := s.workers.insert pid { entry with alive := false } })

/-- The highest restart count among the prior workers for a configuration. -/
def prevRestartCount (s : FfiWorkerLifecycle) (config : FfiWorkerConfig) : Option UInt32 :=
  (((s.workers.entries.map Sigma.snd).filter fun e => e.config.sameTarget config).map
    FfiWorkerEntry.restartCount).max?

def restartFfiWorker (s : FfiWorkerLifecycle) (config : FfiWorkerConfig) :
    Except IpcError UInt32 × FfiWorkerLifecycle :=
  match s.prevRestartCount config with
  | none => (.error .workerNotFound, s)
  | some prev =>
    if prev ≥ config.maxRestarts then (.error .maxRestartsExceeded, s)
    else s.push ⟨config, prev + 1, true⟩

def isAlive (s : FfiWorkerLifecycle) (pid : UInt32) : Bool :=
  ((s.workers.lookup pid).map FfiWorkerEntry.alive).getD false

end FfiWorkerLifecycle

/-- A call of one of the operations. -/
inductive LifecycleOp where
  | spawn (config : FfiWorkerConfig)
  | restart (config : FfiWorkerConfig)
  | kill (pid : UInt32)
  | call (pid : UInt32) (call : FfiCall) (timeoutMs : UInt64)

/-- What an operation answers when there is no error. -/
inductive LifecycleAnswer where
  | pid (pid : UInt32)
  | done
  | result (result : FfiResult)
  deriving DecidableEq, Repr

/-- The configuration that is passed. -/
def LifecycleOp.config? : LifecycleOp → Option FfiWorkerConfig
  | spawn config => some config
  | restart config => some config
  | _ => none

/-- An operation, with its answer. -/
def LifecycleOp.exec (s : FfiWorkerLifecycle) :
    LifecycleOp → Except IpcError LifecycleAnswer × FfiWorkerLifecycle
  | spawn config => ((s.spawnFfiWorker config).1.map .pid, (s.spawnFfiWorker config).2)
  | restart config => ((s.restartFfiWorker config).1.map .pid, (s.restartFfiWorker config).2)
  | kill pid => ((s.killFfiWorker pid).1.map fun _ => .done, (s.killFfiWorker pid).2)
  | call pid c timeoutMs => ((s.callFfi pid c timeoutMs).map .result, s)

/-! ## `Supervisor` -/

structure WorkerState where
  pid : UInt64
  isAlive : Bool
  restartCount : UInt32
  lastExitCode : Int32
  lastSignal : Int32
  deriving DecidableEq, Repr

def WorkerState.new (pid : UInt64) : WorkerState := ⟨pid, true, 0, 0, 0⟩

inductive RecoveryAction where
  | restart
  | terminate
  | escalate
  deriving DecidableEq, Repr

def shouldRestart (config : WorkerConfig) (exitCode : Int32) : Bool :=
  if exitCode = 0 then false
  else if config.maxRestarts = 0 then false
  else true

structure Supervisor where
  maxRestarts : UInt32
  timeoutMs : UInt64
  restartCount : UInt32
  workers : HashMap UInt64 WorkerState

namespace Supervisor

def new (maxRestarts : UInt32) (timeoutMs : UInt64) : Supervisor :=
  ⟨maxRestarts, timeoutMs, 0, ∅⟩

def registerWorker (s : Supervisor) (pid : UInt64) : Supervisor :=
  match s.workers.lookup pid with
  | some _ => s
  | none => { s with workers := s.workers.insert pid (.new pid) }

def unregisterWorker (s : Supervisor) (pid : UInt64) : Except IpcError Unit × Supervisor :=
  match s.workers.lookup pid with
  | some _ => (.ok (), { s with workers := s.workers.erase pid })
  | none => (.error .workerNotFound, s)

/-- The action for a worker that has exited, and its state. -/
def recover (s : Supervisor) (state : WorkerState) (exitCode : Int32) :
    RecoveryAction × WorkerState :=
  let config : WorkerConfig := ⟨.untrusted, s.maxRestarts, s.timeoutMs⟩
  if exitCode = 0 then (.terminate, state)
  else if !shouldRestart config exitCode then (.escalate, state)
  else if state.restartCount ≥ s.maxRestarts then (.escalate, state)
  else (.restart, { state with restartCount := state.restartCount + 1, isAlive := true })

def handleWorkerExit (s : Supervisor) (pid : UInt64) (exitCode signal : Int32) :
    Except IpcError RecoveryAction × Supervisor :=
  match s.workers.lookup pid with
  | none => (.error .workerNotFound, s)
  | some state =>
    let (action, state) := s.recover
      { state with isAlive := false, lastExitCode := exitCode, lastSignal := signal } exitCode
    (.ok action, { s with workers := s.workers.insert pid state })

end Supervisor

/-- A call of one of the operations. -/
inductive SupervisorOp where
  | register (pid : UInt64)
  | unregister (pid : UInt64)
  | exit (pid : UInt64) (exitCode signal : Int32)

/-- What is recorded of a worker. -/
inductive WorkerEvent where
  | registered
  | unregistered
  | exited (action : RecoveryAction)
  deriving DecidableEq, Repr

/-- The supervisor after an operation. -/
def SupervisorOp.exec (s : Supervisor) : SupervisorOp → Supervisor
  | register pid => s.registerWorker pid
  | unregister pid => (s.unregisterWorker pid).2
  | exit pid exitCode signal => (s.handleWorkerExit pid exitCode signal).2

/-- What an operation records. A worker that is tracked is not registered again. -/
def SupervisorOp.record (s : Supervisor) : SupervisorOp → Option (UInt64 × WorkerEvent)
  | register pid => if (s.workers.lookup pid).isNone then some (pid, .registered) else none
  | unregister pid =>
    match (s.unregisterWorker pid).1 with
    | .ok _ => some (pid, .unregistered)
    | .error _ => none
  | exit pid exitCode signal =>
    match (s.handleWorkerExit pid exitCode signal).1 with
    | .ok action => some (pid, .exited action)
    | .error _ => none

end Vuma.Ipc
