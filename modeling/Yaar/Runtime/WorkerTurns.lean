import Yaar.Runtime.PollWorkerSearch

/-! The loop of `WorkerContext::run` while `poll_worker` gives runnables, and how
often it comes to the injector. -/
namespace Yaar.Runtime.PollWorker

variable {target : Target} {S R : Type}

/-- A call of `poll_worker`: its tick, its result and the calls it made. -/
structure Call (target : Target) (R : Type) where
  tick : BitVec target.width
  runnable : Option R
  events : List (Event R)

/-- So many calls one after another, unless one gives no runnable. What a runnable
does, and all that happens until the next call, is `runs`. -/
def Outside.turns (outside : Outside S R) (workers : Workers target) (workerIndex : Nat)
    (runs : R → Turn target S → Except Panic (Turn target S)) :
    Nat → BitVec target.width → Turn target S → Except Panic (List (Call target R))
  | 0, _, _ => .ok []
  | count + 1, tick, turn => do
      let polled ← outside.pollWorker workers workerIndex tick turn
      let call : Call target R := ⟨tick, polled.runnable, polled.events⟩
      match polled.runnable with
      | none => return [call]
      | some runnable =>
          let turn ← runs runnable { polled.turn with searching := false }
          let calls ← turns outside workers workerIndex runs count (tick + 1) turn
          return call :: calls

namespace Call

/-- The tick asks for fairness. -/
def Fair (call : Call target R) : Prop := call.tick % 61 = 0

/-- A runnable is taken out of the injector. -/
def Takes (call : Call target R) : Prop :=
  ∃ attempt runnable, .consume attempt (.success runnable) ∈ call.events

/-- The network gives a runnable. -/
def Polls (call : Call target R) : Prop := ∃ runnable, .pollIo (some runnable) ∈ call.events

/-- The local queue is not found empty. -/
def Busy (call : Call target R) : Prop := ∀ beFair, .pop beFair none ∉ call.events

/-- The injector is found neither empty nor contended. -/
def Fed (call : Call target R) : Prop :=
  ∀ attempt answer, .consume attempt answer ∈ call.events → ∃ runnable, answer = .success runnable

end Call

/-! ## One call -/

namespace Outside

variable {outside : Outside S R} {workers : Workers target} {workerIndex : Nat}
  {tick : BitVec target.width} {turn : Turn target S} {polled : Polled target S R}

/-- A call that gives no runnable has found the local queue empty. -/
theorem pollWorker_idle (h : outside.pollWorker workers workerIndex tick turn = .ok polled)
    (hNone : polled.runnable = none) : ∃ beFair, .pop beFair none ∈ polled.events := by
  rcases Part.orElse_ok h with ⟨_, hSome⟩ | ⟨fair, rest, _, _, hRest, rfl⟩
  · simp [hNone] at hSome
  rcases Part.orElse_ok hRest with ⟨_, hSome⟩ | ⟨timers, popped, _, _, hPopped, rfl⟩
  · rw [Polled.after_runnable] at hNone
    simp [hNone] at hSome
  rcases Part.orElse_ok hPopped with ⟨_, hSome⟩ | ⟨pop, others, hPop, hEmpty, _, rfl⟩
  · simp only [Polled.after_runnable] at hNone
    simp [hNone] at hSome
  · cases hPop
    refine ⟨tick % 61 == 0, ?_⟩
    simp only [Polled.after_events, List.mem_append]
    exact .inr (.inr (.inl (List.mem_singleton.mpr (congrArg (Event.pop _) hEmpty.symm))))

/-- A call at a fair tick asks the injector unless the network gives a runnable. -/
theorem pollWorker_fair (h : outside.pollWorker workers workerIndex tick turn = .ok polled)
    (hFair : tick % 61 = 0) :
    (∃ runnable, .pollIo (some runnable) ∈ polled.events) ∨
      ∃ answer, .consume none answer ∈ polled.events := by
  have hPart : (if (tick % 61 == 0 : Bool) then outside.ioPart.orElse outside.consumePart
      else Part.skip : Part target S R) = outside.ioPart.orElse outside.consumePart :=
    if_pos (by simpa using hFair)
  have hFirst {before : Polled target S R}
      (hBefore : outside.ioPart.orElse outside.consumePart turn = .ok before) :
      (∃ runnable, .pollIo (some runnable) ∈ before.events) ∨
        ∃ answer, .consume none answer ∈ before.events := by
    rcases Part.orElse_ok hBefore with ⟨hIo, hSome⟩ | ⟨io, consumed, _, _, hConsumed, rfl⟩
    · cases hIo
      obtain ⟨runnable, hRunnable⟩ := Option.isSome_iff_exists.mp hSome
      refine .inl ⟨runnable, List.mem_singleton.mpr ?_⟩
      exact congrArg Event.pollIo hRunnable.symm
    · cases hConsumed
      exact .inr ⟨_, List.mem_append_right _ (List.mem_singleton.mpr rfl)⟩
  rw [pollWorker, hPart] at h
  rcases Part.orElse_ok h with ⟨hFairPart, _⟩ | ⟨before, rest, hFairPart, _, _, rfl⟩
  · exact hFirst hFairPart
  · rcases hFirst hFairPart with ⟨runnable, member⟩ | ⟨answer, member⟩
    · exact .inl ⟨runnable, List.mem_append_left _ member⟩
    · exact .inr ⟨answer, List.mem_append_left _ member⟩

end Outside

/-! ## The ticks -/

/-- Of 61 ticks in a row one asks for fairness, also where they wrap around. -/
theorem exists_fair_tick (tick : BitVec target.width) :
    ∃ i < 61, (tick + BitVec.ofNat target.width i) % 61 = 0 := by
  have hWidth : 32 ≤ target.width := by cases target <;> decide
  have hSize : 2 ^ 32 ≤ 2 ^ target.width := Nat.pow_le_pow_right (by decide) hWidth
  have hTick : tick.toNat < 2 ^ target.width := tick.isLt
  have hMod : (61 : BitVec target.width).toNat = 61 := by
    show 61 % 2 ^ target.width = 61
    exact Nat.mod_eq_of_lt (by omega)
  have hFair (i : Nat) (h : (tick.toNat + i) % 2 ^ target.width % 61 = 0) :
      (tick + BitVec.ofNat target.width i) % 61 = 0 := by
    apply BitVec.eq_of_toNat_eq
    rw [BitVec.toNat_umod, BitVec.toNat_add, BitVec.toNat_ofNat, Nat.add_mod_mod, hMod, h]
    rfl
  by_cases hWrap : tick.toNat + (61 - tick.toNat % 61) % 61 < 2 ^ target.width
  · refine ⟨(61 - tick.toNat % 61) % 61, by omega, hFair _ ?_⟩
    rw [Nat.mod_eq_of_lt hWrap]
    omega
  · refine ⟨2 ^ target.width - tick.toNat, by omega, hFair _ ?_⟩
    rw [show tick.toNat + (2 ^ target.width - tick.toNat) = 2 ^ target.width by omega,
      Nat.mod_self]

/-! ## Calls in a row -/

section

variable (outside : Outside S R) (workers : Workers target) (workerIndex : Nat)
  (runs : R → Turn target S → Turn target S)

/-- What each call of a run has done at its tick. The run ends early only after a
call that has found the local queue empty. -/
theorem turns_ok (count : Nat) (tick : BitVec target.width) (turn : Turn target S) :
    ∃ calls, outside.turns workers workerIndex (fun runnable turn => .ok (runs runnable turn))
        count tick turn = .ok calls ∧
      (∀ i (h : i < calls.length), (calls.get ⟨i, h⟩).tick = tick + BitVec.ofNat target.width i) ∧
      (∀ call ∈ calls, call.Fair →
        call.Polls ∨ ∃ answer, .consume none answer ∈ call.events) ∧
      ((∀ call ∈ calls, call.Busy) → calls.length = count) := by
  induction count generalizing tick turn with
  | zero => exact ⟨[], rfl, by simp, by simp, fun _ => rfl⟩
  | succ count ih =>
      obtain ⟨polled, hOk, _⟩ := outside.pollWorker_searches workers workerIndex tick turn
      have hFair (hTick : tick % 61 = 0) := Outside.pollWorker_fair hOk hTick
      cases hRunnable : polled.runnable with
      | none =>
          obtain ⟨beFair, hPop⟩ := Outside.pollWorker_idle hOk hRunnable
          refine ⟨[⟨tick, none, polled.events⟩], ?_, ?_, ?_, ?_⟩
          · simp only [Outside.turns, hOk, bind, Except.bind, hRunnable]
            rfl
          · intro i h
            obtain rfl : i = 0 := by simpa using h
            simp
          · intro call member hTick
            obtain rfl := List.mem_singleton.mp member
            exact hFair hTick
          · intro hBusy
            exact absurd hPop (hBusy _ (List.mem_singleton.mpr rfl) beFair)
      | some runnable =>
          obtain ⟨calls, hCalls, hTicks, hAsked, hLength⟩ :=
            ih (tick + 1) (runs runnable { polled.turn with searching := false })
          refine ⟨⟨tick, some runnable, polled.events⟩ :: calls, ?_, ?_, ?_, ?_⟩
          · simp only [Outside.turns, hOk, bind, Except.bind, hRunnable, hCalls]
            rfl
          · intro i h
            cases i with
            | zero => simp
            | succ i =>
                have hLt : i < calls.length := by simpa using h
                show (calls.get ⟨i, hLt⟩).tick = _
                rw [hTicks i hLt, BitVec.add_assoc]
                congr 1
                rw [Nat.add_comm i 1, BitVec.ofNat_add]
                rfl
          · intro call member hTick
            rcases List.mem_cons.mp member with rfl | member
            · exact hFair hTick
            · exact hAsked call member hTick
          · intro hBusy
            rw [List.length_cons, hLength fun call member => hBusy call (List.mem_cons_of_mem _ member)]

/-- Of 61 calls in a row of a worker whose local queue does not become empty, one at
least is at a fair tick. Each of those takes a runnable out of the injector, if there
are some, unless the network has just given one. -/
theorem turns_takes (tick : BitVec target.width) (turn : Turn target S) :
    ∃ calls, outside.turns workers workerIndex (fun runnable turn => .ok (runs runnable turn))
        61 tick turn = .ok calls ∧
      ((∀ call ∈ calls, call.Busy ∧ call.Fed) → calls.length = 61 ∧
        (∃ call ∈ calls, call.Fair) ∧ ∀ call ∈ calls, call.Fair → call.Polls ∨ call.Takes) := by
  obtain ⟨calls, hCalls, hTicks, hAsked, hLength⟩ :=
    turns_ok outside workers workerIndex runs 61 tick turn
  refine ⟨calls, hCalls, fun hCondition => ?_⟩
  have hAll : calls.length = 61 := hLength fun call member => (hCondition call member).1
  refine ⟨hAll, ?_, fun call member hFair => ?_⟩
  · obtain ⟨i, hLt, hFair⟩ := exists_fair_tick tick
    refine ⟨calls.get ⟨i, by omega⟩, List.get_mem calls _, ?_⟩
    show (calls.get ⟨i, by omega⟩).tick % 61 = 0
    rw [hTicks i (by omega), hFair]
  · rcases hAsked call member hFair with hPolls | ⟨answer, hConsume⟩
    · exact .inl hPolls
    · obtain ⟨runnable, rfl⟩ := (hCondition call member).2 none answer hConsume
      exact .inr ⟨none, runnable, hConsume⟩

end

/-- Queues that are never empty, with a network that always gives the same. -/
def fullQueues (io : Option Nat) : Outside Unit Nat where
  pollIo := fun s => (io, s)
  consume := fun s => (.success 1, s)
  pollTimers := fun _ s => (none, s)
  pop := fun _ s => (some 2, s)
  searchBegin := fun s => (true, s)
  steal := fun _ s => (.empty, s)

/-- A call polls the network and then the injector at a fair tick, and takes a runnable
of the local queue at the others. -/
theorem fullQueues_call (io : Option Nat) (tick : BitVec Target.bits64.width)
    (turn : Turn Target.bits64 Unit) :
    ∃ runnable events, (fullQueues io).pollWorker twoWorkers 0 tick turn =
      .ok ⟨some runnable, turn, events⟩ ∧ (∀ beFair, .pop beFair none ∉ events) ∧
      (∀ attempt answer, .consume attempt answer ∈ events → answer = .success 1 ∧ io = none) ∧
      ∀ given, .pollIo (some given) ∈ events → io = some given := by
  have hIo : (fullQueues io).ioPart turn = .ok ⟨io, turn, [.pollIo io]⟩ := rfl
  have hConsume : (fullQueues io).consumePart turn =
      .ok ⟨some 1, turn, [.consume none (.success 1)]⟩ := rfl
  have hSkip : (Part.skip : Part .bits64 Unit Nat) turn = .ok ⟨none, turn, []⟩ := rfl
  have hTimers : (fullQueues io).timersPart 0 turn = .ok ⟨none, turn, [.pollTimers 0 none]⟩ := rfl
  have hPop (beFair : Bool) : (fullQueues io).popPart beFair turn =
      .ok ⟨some 2, turn, [.pop beFair (some 2)]⟩ := rfl
  cases hFair : (tick % 61 == 0) with
  | true =>
      cases io with
      | some given =>
          refine ⟨given, [.pollIo (some given)], ?_, by simp, by simp, by simp⟩
          rw [Outside.pollWorker]
          simp only [hFair, if_true]
          exact Part.orElse_some (Part.orElse_some hIo rfl) rfl
      | none =>
          refine ⟨1, [.pollIo none, .consume none (.success 1)], ?_, by simp, by simp, by simp⟩
          rw [Outside.pollWorker]
          simp only [hFair, if_true]
          exact Part.orElse_some (Part.orElse_none hIo rfl hConsume) rfl
  | false =>
      refine ⟨2, [.pollTimers 0 none, .pop false (some 2)], ?_, by simp, by simp, by simp⟩
      rw [Outside.pollWorker]
      simp only [hFair, Bool.false_eq_true, if_false]
      exact Part.orElse_none hSkip rfl
        (Part.orElse_none hTimers rfl (Part.orElse_some (hPop false) rfl))

/-- With queues that are never empty all calls of the worker are busy. -/
theorem fullQueues_calls (io : Option Nat) (count : Nat) (tick : BitVec Target.bits64.width)
    (turn : Turn Target.bits64 Unit) :
    ∃ calls, (fullQueues io).turns twoWorkers 0 (fun _ turn => .ok turn) count tick turn =
        .ok calls ∧ calls.length = count ∧
      ∀ call ∈ calls, call.Busy ∧ call.Fed ∧ (call.Takes → io = none) ∧
        (call.Polls → io.isSome) := by
  induction count generalizing tick turn with
  | zero => exact ⟨[], rfl, rfl, by simp⟩
  | succ count ih =>
      obtain ⟨runnable, events, hCall, hBusy, hAsked, hGiven⟩ := fullQueues_call io tick turn
      obtain ⟨calls, hCalls, hLength, hAll⟩ := ih (tick + 1) { turn with searching := false }
      refine ⟨⟨tick, some runnable, events⟩ :: calls, ?_, by simp [hLength], ?_⟩
      · simp only [Outside.turns, hCall, bind, Except.bind, hCalls]
        rfl
      · intro call member
        rcases List.mem_cons.mp member with rfl | member
        · refine ⟨hBusy, fun attempt answer hConsume => ⟨1, (hAsked attempt answer hConsume).1⟩, ?_,
            ?_⟩
          · rintro ⟨attempt, runnable, hConsume⟩
            exact (hAsked attempt _ hConsume).2
          · rintro ⟨given, hPoll⟩
            simp [hGiven given hPoll]
        · exact hAll call member

/-- Where the network has nothing, a fair tick takes a runnable out of the injector. -/
theorem turns_takes_quietNetwork :
    ∃ calls, (fullQueues none).turns twoWorkers 0 (fun _ turn => .ok turn) 61 1 searcher =
      .ok calls ∧ calls.length = 61 ∧ ∃ call ∈ calls, call.Fair ∧ call.Takes := by
  obtain ⟨calls, hCalls, -, hAll⟩ := fullQueues_calls none 61 1 searcher
  obtain ⟨calls', hCalls', hTakes⟩ :=
    turns_takes (fullQueues none) twoWorkers 0 (fun _ turn => turn) 1 searcher
  obtain rfl : calls = calls' := Except.ok.inj (hCalls.symm.trans hCalls')
  obtain ⟨hLength, ⟨call, member, hFair⟩, hFairs⟩ :=
    hTakes fun call member => ⟨(hAll call member).1, (hAll call member).2.1⟩
  refine ⟨calls, hCalls, hLength, call, member, hFair, (hFairs call member hFair).resolve_left ?_⟩
  intro hPolls
  have hSome := (hAll call member).2.2.2 hPolls
  simp at hSome

/-- In 61 calls nothing is taken out of the injector where the network always has an
event, for at the fair tick among them the network comes first. -/
theorem busyNetwork_starves :
    ∃ calls, (fullQueues (some 0)).turns twoWorkers 0 (fun _ turn => .ok turn) 61 1 searcher =
      .ok calls ∧ calls.length = 61 ∧ ∀ call ∈ calls, call.Busy ∧ call.Fed ∧ ¬call.Takes := by
  obtain ⟨calls, hCalls, hLength, hAll⟩ := fullQueues_calls (some 0) 61 1 searcher
  refine ⟨calls, hCalls, hLength, fun call member => ?_⟩
  obtain ⟨hBusy, hFed, hTakes, -⟩ := hAll call member
  exact ⟨hBusy, hFed, fun hTaken => by simpa using hTakes hTaken⟩

end Yaar.Runtime.PollWorker
