import Mathlib.Data.List.Basic

/-! `runtime/internal/queue.rs`: the run queue of a worker, seen from the thread that
has its producer while no other thread takes from it. -/
namespace Yaar.Runtime

/-- `crossbeam_deque::Steal` -/
inductive Steal (R : Type*) where
  | empty
  | success (runnable : R)
  | retry
  deriving DecidableEq

@[simp] def Steal.isRetry {R : Type*} : Steal R → Bool
  | .retry => true
  | _ => false

/-- The runnables stand in the order in which they were pushed. -/
structure Producer (R : Type*) where
  beFair : Bool
  worker : List R
  deriving DecidableEq

/-- A run queue has its producer while no thread runs the worker. -/
structure RunQueue (R : Type*) where
  producer : Option (Producer R)

/-- `Queue::new` -/
def RunQueue.new {R : Type*} : RunQueue R := ⟨some ⟨false, []⟩⟩

namespace Producer

variable {R : Type*}

def push (producer : Producer R) (runnable : R) (beFair : Bool) : Producer R where
  beFair := if beFair then true else producer.beFair
  worker := producer.worker ++ [runnable]

/-- `pop`: the newest runnable, or when it is to be fair the oldest. The flag is not
looked at, and stays, where the caller asks for fairness. -/
def pop (producer : Producer R) (beFair : Bool) : Option R × Producer R :=
  let fair := beFair || producer.beFair
  let producer := if beFair then producer else { producer with beFair := false }
  if !fair then (producer.worker.getLast?, { producer with worker := producer.worker.dropLast })
  else (producer.worker.head?, { producer with worker := producer.worker.tail })

end Producer
end Yaar.Runtime
