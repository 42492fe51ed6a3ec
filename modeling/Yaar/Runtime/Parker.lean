/-! The park state of `runtime/internal/parker.rs`. -/
namespace Yaar.Runtime

inductive ParkState where
  | empty
  | waiting
  | polling
  | notified (workerIndex : Option Nat)
  deriving DecidableEq

namespace ParkState

/-- The update of `unpark`. A worker is only given to a thread that is parked. -/
def unpark (state : ParkState) (workerIndex : Option Nat) : Option ParkState :=
  match state with
  | .notified _ => none
  | .empty => if workerIndex.isSome then none else some (.notified workerIndex)
  | .waiting | .polling => some (.notified workerIndex)

/-- The state a thread parks in. -/
def parked (isPolling : Bool) : ParkState := if isPolling then .polling else .waiting

end ParkState
end Yaar.Runtime
