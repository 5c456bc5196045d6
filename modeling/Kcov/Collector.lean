import Kcov.Engines.Engine
import Kcov.Numbers
import Kcov.Reporter.Database

/-! The collector, which makes calls of the reporter, and the exit code of kcov, of the events of an
engine. -/

namespace Kcov

/-- The fields of `Collector` that events change, and what it writes to `done.fifo`. -/
structure Collector where
  exitCode : Int
  signalExit : Bool
  doneFifo : List Text
  deriving DecidableEq, Repr

namespace Collector

def create : Collector where
  exitCode := -1
  signalExit := false
  doneFifo := []

/-- `onEvent`, with `daemonize-on-first-process-exit`, and the calls of the listener. -/
def onEvent (daemonize : Bool) (c : Collector) (ev : EngineEvent U64) :
    Collector × List Reporter.Event :=
  match ev.type with
  | .error | .signal => (c, [])
  | .signalExit => ({ c with exitCode := ev.data, signalExit := true }, [])
  | .exitFirstProcess =>
    let exitCode := printUnsigned (BitVec.ofInt 32 ev.data)
    ({ c with
       exitCode := ev.data
       doneFifo := if daemonize then c.doneFifo ++ [exitCode] else c.doneFifo }, [])
  | .exit => (if c.signalExit then c else { c with exitCode := ev.data }, [])
  | .breakpoint => (c, [.hit ev.addr 1])

/-- What the listener is told of an event. -/
theorem onEvent_calls (daemonize : Bool) (c : Collector) (ev : EngineEvent U64) :
    (c.onEvent daemonize ev).2 = if ev.type = .breakpoint then [.hit ev.addr 1] else [] := by
  unfold onEvent
  cases ev.type <;> rfl

end Collector

end Kcov
