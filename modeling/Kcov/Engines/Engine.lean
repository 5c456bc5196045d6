/-! What engines tell their listeners, and what `waitpid` tells the engines. -/

namespace Kcov

/-- `event_type`. -/
inductive EventType where
  | error
  | breakpoint
  | signal
  | exit
  | exitFirstProcess
  | signalExit
  deriving DecidableEq, Repr

/-- `IEngine::Event`, with addresses of the type `α`. -/
structure EngineEvent (α : Type) where
  type : EventType
  data : Int
  addr : α
  deriving DecidableEq, Repr

/-- What `waitpid` tells about a process. -/
inductive WaitStatus where
  | stopped (sig event : Nat)
  | signaled (sig : Nat)
  | exited (exitStatus : Nat)
  deriving DecidableEq, Repr

end Kcov
