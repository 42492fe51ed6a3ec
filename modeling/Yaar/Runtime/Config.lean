import Yaar.Runtime.Random
import Yaar.Runtime.RunQueue
import Yaar.Time.Queue

/-! How a runtime is configured and put together: `runtime/builder.rs`,
`internal/config.rs` and the constructors of `executor.rs` and `thread_pool.rs`. -/
namespace Yaar.Runtime.Build

open Time

/-- The numbers of threads in a configuration. -/
structure Config where
  workerThreads : Option (NonZero Nat)
  blockingThreads : Option (NonZero Nat)

/-- `max_threads` -/
def Config.maxThreads (target : Target) (config : Config) : Except Panic (Option (NonZero Nat)) :=
  match config.workerThreads with
  | none => .ok none
  | some workerThreads => do
      let numThreads := workerThreads.get
      let numThreads ← match config.blockingThreads with
        | some blockingThreads => target.add numThreads blockingThreads.get
        | none => .ok numThreads
      return NonZero.new numThreads

structure Builder where
  config : Config

namespace Builder

def new : Builder := ⟨⟨none, none⟩⟩

def workerThreads (builder : Builder) (threads : Nat) : Builder :=
  ⟨{ builder.config with workerThreads := NonZero.new threads }⟩

def maxBlockingThreads (builder : Builder) (threads : Nat) : Builder :=
  ⟨{ builder.config with blockingThreads := NonZero.new threads }⟩

/-- The configuration that `build` makes a runtime from, where `numCpus` is what
`num_cpus::get` answers. -/
def build (builder : Builder) (numCpus : Nat) : Config where
  workerThreads := builder.config.workerThreads.or (NonZero.new numCpus)
  blockingThreads := builder.config.blockingThreads.or (NonZero.new 512)

end Builder

structure IdleQueue where
  pending : Bool
  indices : List Nat

/-- `From<NonZeroUsize>` -/
def IdleQueue.from (count : NonZero Nat) : IdleQueue where
  pending := true
  indices := List.range count.get

/-- The pool with the capacity of its list of idle threads. -/
structure ThreadPool where
  config : Config
  running : Bool
  pending : Nat
  spawned : Nat
  capacity : Nat

/-- `ThreadPool::from` -/
def ThreadPool.from (target : Target) (config : Config) : Except Panic ThreadPool := do
  let maxThreads ← unwrap (← config.maxThreads target)
  return { config, running := true, pending := 0, spawned := 0, capacity := maxThreads.get }

structure Worker (R W : Type) where
  runQueue : RunQueue R
  timerQueue : Queue W

structure Executor (R W : Type) where
  idle : IdleQueue
  searching : Nat
  threadPool : ThreadPool
  injector : List R
  rngIterSource : RandomIterSource
  workers : List (Worker R W)

/-- `Executor::from` at the time `started`. The network poller is made without an
error. -/
def Executor.from {R W : Type} (target : Target) (config : Config) (started : Instant) :
    Except Panic (Executor R W) := do
  let workerThreads ← unwrap config.workerThreads
  let threadPool ← ThreadPool.from target config
  let rngIterSource ← RandomIterSource.from workerThreads
  return {
    idle := IdleQueue.from workerThreads
    searching := 0
    threadPool
    rngIterSource
    injector := []
    workers := List.replicate workerThreads.get ⟨RunQueue.new, Queue.new started⟩ }

/-- A configuration as the builder gives it for numbers of threads set on it. -/
def configure (workerThreads blockingThreads numCpus : Nat) : Config :=
  ((Builder.new.workerThreads workerThreads).maxBlockingThreads blockingThreads).build numCpus

/-- The executor is made, with as many workers and a source that visits them. -/
def Builds (target : Target) (config : Config) : Prop :=
  ∃ workerThreads maxThreads, config.workerThreads = some workerThreads ∧
    config.maxThreads target = .ok (some maxThreads) ∧
    ∀ (R W : Type) (started : Instant), ∃ executor : Executor R W,
      Executor.from target config started = .ok executor ∧
      executor.workers.length = workerThreads.get ∧
      executor.rngIterSource.range = workerThreads ∧
      workerThreads.get / 2 ≤ executor.rngIterSource.prime.get ∧
      0 < executor.rngIterSource.prime.get ∧
      executor.rngIterSource.prime.get < workerThreads.get ∧
      executor.rngIterSource.prime.get.gcd workerThreads.get = 1

variable {target : Target}

/-- Where the sum of the two numbers does not overflow it is the limit of the pool. -/
theorem maxThreads_eq {workerThreads blockingThreads : NonZero Nat}
    (h : workerThreads.get + blockingThreads.get ≤ target.max) :
    Config.maxThreads target ⟨some workerThreads, some blockingThreads⟩ =
      .ok (some ⟨workerThreads.get + blockingThreads.get, by
        have hPos := workerThreads.ne_zero
        omega⟩) := by
  have hNum : workerThreads.get + blockingThreads.get ≠ 0 := by
    have hPos := workerThreads.ne_zero
    omega
  rw [Config.maxThreads]
  simp only [Target.add_of_le h, bind, Except.bind, pure, Except.pure, NonZero.new_of_ne_zero hNum]

/-- The pool is made, and the workers, once there is an order to visit them in. -/
theorem from_eq {R W : Type} {workerThreads blockingThreads : NonZero Nat} (started : Instant)
    (h : workerThreads.get + blockingThreads.get ≤ target.max) (hTwo : 2 ≤ workerThreads.get) :
    ∃ executor : Executor R W,
      Executor.from target ⟨some workerThreads, some blockingThreads⟩ started = .ok executor ∧
      executor.workers = List.replicate workerThreads.get ⟨RunQueue.new, Queue.new started⟩ ∧
      RandomIterSource.from workerThreads = .ok executor.rngIterSource := by
  simp only [Executor.from, ThreadPool.from, maxThreads_eq h, unwrap, bind, Except.bind, pure,
    Except.pure, RandomIterSource.from_eq hTwo]
  refine ⟨_, rfl, ?_, ?_⟩
  · rfl
  · rfl

/-- The range of one has no number that is both coprime to it and not zero. -/
theorem Builds.two_le {config : Config} {workerThreads : NonZero Nat} (h : Builds target config)
    (hWorkers : config.workerThreads = some workerThreads) : 2 ≤ workerThreads.get := by
  obtain ⟨_, maxThreads, _, hMax, hFrom⟩ := h
  obtain ⟨executor, hExecutor, _⟩ := hFrom Unit Unit 0
  rw [Executor.from, ThreadPool.from, hMax, hWorkers] at hExecutor
  cases hSource : RandomIterSource.from workerThreads with
  | ok source => exact (RandomIterSource.from_ok hSource).1
  | error panic =>
      simp only [hSource, unwrap, bind, Except.bind, pure, Except.pure] at hExecutor
      cases hExecutor

/-- A runtime is built, whatever its numbers of threads, unless it has one worker. -/
theorem builds_iff {workerThreads blockingThreads : NonZero Nat}
    (h : workerThreads.get + blockingThreads.get ≤ target.max) :
    Builds target ⟨some workerThreads, some blockingThreads⟩ ↔ 2 ≤ workerThreads.get := by
  constructor
  · intro hBuilds
    exact hBuilds.two_le rfl
  · intro hTwo
    refine ⟨workerThreads, _, rfl, maxThreads_eq h, fun R W started => ?_⟩
    obtain ⟨executor, hExecutor, hWorkers, hSource⟩ := from_eq (R := R) (W := W) started h hTwo
    obtain ⟨_, hRange, hPrime⟩ := RandomIterSource.from_ok hSource
    refine ⟨executor, hExecutor, by rw [hWorkers, List.length_replicate], hRange, by omega,
      by omega, by omega, ?_⟩
    rw [hPrime]
    exact coprime_pred hTwo

/-- Four workers and the threads that the builder admits by default. -/
theorem builds_four : Builds .bits64 (configure 4 512 1) :=
  (builds_iff (by decide)).mpr (by decide)

/-- One worker, set on the builder or found on a machine with one processor. -/
theorem single_worker_panics :
    ¬Builds .bits64 (configure 1 512 8) ∧ ¬Builds .bits64 (Builder.new.build 1) := by
  constructor
  · intro hBuilds
    have hTwo : 2 ≤ 1 := Builds.two_le hBuilds (rfl : _ = some (⟨1, by decide⟩ : NonZero Nat))
    omega
  · intro hBuilds
    have hTwo : 2 ≤ 1 := Builds.two_le hBuilds (rfl : _ = some (⟨1, by decide⟩ : NonZero Nat))
    omega

end Yaar.Runtime.Build
