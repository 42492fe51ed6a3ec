import Yaar.Data.Tally
import Yaar.Runtime.ThreadPool

/-! How many threads the pool has: the count that `spawn` raises and `finish`
lowers, and the loop of `spawn`. -/
namespace Yaar.Runtime.ThreadPool

open Machine

variable {T K : Type*}

/-- The count has been raised for a thread that is being started. -/
def Pc.starting : Pc T → Bool
  | .create _ => true
  | _ => false

/-- It has been raised for one that could not be started. -/
def Pc.failed : Pc T → Bool
  | .createFailed _ => true
  | _ => false

/-- What a thread stands for in the count. -/
def Thread.share (th : Thread T) : Nat :=
  th.pooled.toNat + (th.pc.starting.toNat + th.pc.failed.toNat)

/-- The share of a thread depends on whether it is in the pool and on its place in
`spawn`. -/
theorem share_congr {th th' : Thread T} (hPooled : th'.pooled = th.pooled)
    (hPc : th'.pc.starting = th.pc.starting ∧ th'.pc.failed = th.pc.failed) :
    th'.share = th.share := by
  rw [Thread.share, Thread.share, hPooled, hPc.1, hPc.2]

/-- What a step does to the count. -/
inductive Effect (maxThreads : Nat) (s s' : State T K) : Prop where
  | keep (spawned : s'.spawned = s.spawned)
      (shares : ∀ u, (s'.threads u).share = (s.threads u).share)
  | raise (t : T) (room : s.spawned < maxThreads) (spawned : s'.spawned = s.spawned + 1)
      (share : (s'.threads t).share = (s.threads t).share + 1)
      (others : ∀ u, u ≠ t → s'.threads u = s.threads u)
  | start (t u : T) (other : u ≠ t) (spawned : s'.spawned = s.spawned)
      (share : (s.threads t).share = (s'.threads t).share + 1)
      (started : (s'.threads u).share = (s.threads u).share + 1)
      (others : ∀ v, v ≠ t → v ≠ u → s'.threads v = s.threads v)
  | lower (t : T) (sound : s.spawned ≤ maxThreads ∧ s.spawned ≠ 0)
      (spawned : s'.spawned = s.spawned - 1)
      (share : (s.threads t).share = (s'.threads t).share + 1)
      (others : ∀ u, u ≠ t → s'.threads u = s.threads u)
  | fail (t : T) (unsound : ¬(s.spawned ≤ maxThreads ∧ s.spawned ≠ 0))
      (share : 0 < (s.threads t).share)

section
variable [DecidableEq T]

theorem Effect.of {maxThreads : Nat} {s s' : State T K} {t : T} {th : Thread T}
    (hThreads : s'.threads = Function.update s.threads t th) (hSpawned : s'.spawned = s.spawned)
    (hPooled : th.pooled = (s.threads t).pooled)
    (hPc : th.pc.starting = (s.threads t).pc.starting ∧ th.pc.failed = (s.threads t).pc.failed) :
    Effect maxThreads s s' := by
  apply Effect.keep hSpawned
  intro u
  rw [hThreads]
  by_cases hEq : u = t
  · subst hEq
    rw [Function.update_self]
    exact share_congr hPooled hPc
  · rw [Function.update_of_ne hEq]

theorem Effect.pollUnparked (maxThreads : Nat) (s : State T K) (t : T) {some none otherwise : Pc T}
    (hLine : (s.threads t).pc.starting = false ∧ (s.threads t).pc.failed = false)
    (hSome : some.starting = false ∧ some.failed = false)
    (hNone : none.starting = false ∧ none.failed = false)
    (hOtherwise : otherwise.starting = false ∧ otherwise.failed = false) :
    Effect maxThreads s (s.pollUnparked t some none otherwise) := by
  simp only [State.pollUnparked]
  split
  · exact .of rfl rfl rfl ⟨hSome.1.trans hLine.1.symm, hSome.2.trans hLine.2.symm⟩
  · exact .of rfl rfl rfl ⟨hNone.1.trans hLine.1.symm, hNone.2.trans hLine.2.symm⟩
  · exact .of rfl rfl rfl ⟨hOtherwise.1.trans hLine.1.symm, hOtherwise.2.trans hLine.2.symm⟩

/-- `unpark`, and then another line for the thread that calls it. -/
theorem Effect.unpark {maxThreads : Nat} {s s' : State T K} {t u : T} {workerIndex : Option Nat}
    {pc : Pc T} (h : s.unpark u workerIndex = some s')
    (hPc : pc.starting = (s.threads t).pc.starting ∧ pc.failed = (s.threads t).pc.failed) :
    Effect maxThreads s (s'.goto t pc) := by
  obtain ⟨park, _, rfl⟩ := unpark_eq h
  refine Effect.keep ?_ fun v => ?_
  · rfl
  have hUnparked : ((s.setThread u { s.threads u with park := park }).threads v).pooled =
      (s.threads v).pooled ∧
      ((s.setThread u { s.threads u with park := park }).threads v).pc = (s.threads v).pc := by
    by_cases hEq : v = u
    · subst hEq
      rw [setThread_self]
      exact ⟨rfl, rfl⟩
    · rw [setThread_of_ne _ _ hEq]
      exact ⟨rfl, rfl⟩
  by_cases hEq : v = t
  · subst hEq
    rw [goto_self]
    exact share_congr hUnparked.1 hPc
  · rw [goto_of_ne _ _ hEq]
    exact share_congr hUnparked.1 (by rw [hUnparked.2]; exact ⟨rfl, rfl⟩)

/-- The lock section of `finish`, by a thread that is counted before and not after. -/
theorem Effect.finish (maxThreads : Nat) (s : State T K) {t : T} {th : Thread T}
    (hShare : (s.threads t).share = th.share + 1) :
    Effect maxThreads s (s.finish maxThreads t th) := by
  unfold State.finish
  split
  · next hSound =>
      refine .lower t hSound rfl ?_ fun u hNe => setThread_of_ne _ _ hNe
      rw [setThread_self]
      exact hShare
  · next hUnsound => exact .fail t hUnsound (by omega)

/-- A step of a call raises the count for a new thread, lowers it where that could not
be started, or leaves it. An assertion that fails is the last case. -/
theorem effect_step {maxThreads : Nat} {s s' : State T K} {t : T}
    (h : step maxThreads s t = some s') : Effect maxThreads s s' := by
  cases hp : (s.threads t).pc <;> simp only [step, hp, reduceCtorEq] at h
  case spawnUnpark i parker =>
    split at h
    · next s'' hUnpark =>
        obtain rfl := Option.some.inj h
        exact .unpark hUnpark (by rw [hp]; exact ⟨rfl, rfl⟩)
    · obtain rfl := Option.some.inj h
      exact .of rfl rfl rfl (by rw [hp]; exact ⟨rfl, rfl⟩)
  case shutdownUnpark idle =>
    cases idle with
    | nil =>
        obtain rfl := Option.some.inj h
        exact .of rfl rfl rfl (by rw [hp]; exact ⟨rfl, rfl⟩)
    | cons parker idle =>
        obtain rfl := Option.some.inj h
        cases hUnpark : s.unpark parker none with
        | none => exact .of rfl rfl rfl (by rw [hp]; exact ⟨rfl, rfl⟩)
        | some s'' => exact .unpark hUnpark (by rw [hp]; exact ⟨rfl, rfl⟩)
  case waitFirst | waitThird | waitUnwrap =>
    obtain rfl := Option.some.inj h
    exact .pollUnparked _ _ _ (by rw [hp]; exact ⟨rfl, rfl⟩) ⟨rfl, rfl⟩ ⟨rfl, rfl⟩ ⟨rfl, rfl⟩
  case waitLock =>
    split at h
    · obtain rfl := Option.some.inj h
      exact .pollUnparked _ _ _ (by rw [hp]; exact ⟨rfl, rfl⟩) ⟨rfl, rfl⟩ ⟨rfl, rfl⟩ ⟨rfl, rfl⟩
    · obtain rfl := Option.some.inj h
      exact .of rfl rfl rfl (by rw [hp]; exact ⟨rfl, rfl⟩)
  case createFailed i =>
    obtain rfl := Option.some.inj h
    apply Effect.finish
    simp [Thread.share, hp, Pc.starting, Pc.failed]
  case spawnLock i =>
    obtain rfl := Option.some.inj h
    split
    · exact .of rfl rfl rfl (by rw [hp]; exact ⟨rfl, rfl⟩)
    · split
      · exact .of rfl rfl rfl (by rw [hp]; exact ⟨rfl, rfl⟩)
      · split
        · exact .of rfl rfl rfl (by rw [hp]; exact ⟨rfl, rfl⟩)
        · split
          · exact .of rfl rfl rfl (by rw [hp]; exact ⟨rfl, rfl⟩)
          · next hMax hFull =>
              refine .raise t (by omega) rfl ?_ fun u hNe => goto_of_ne _ _ hNe
              rw [goto_self]
              simp [Thread.share, hp, Pc.starting, Pc.failed]
  case waitPark | waitEmpty =>
    split at h <;> obtain rfl := Option.some.inj h <;>
      exact .of rfl rfl rfl (by rw [hp]; exact ⟨rfl, rfl⟩)
  case shutdownLock =>
    obtain rfl := Option.some.inj h
    split <;> exact .of rfl rfl rfl (by rw [hp]; exact ⟨rfl, rfl⟩)
  case completed pending =>
    obtain rfl := Option.some.inj h
    refine .of rfl rfl rfl ?_
    rw [hp]
    by_cases hZero : pending = 0 <;> simp [hZero, Pc.starting, Pc.failed]
  case spawnLoad | shutdownLoad =>
    obtain rfl := Option.some.inj h
    refine .of rfl rfl rfl ?_
    rw [hp]
    split <;> exact ⟨rfl, rfl⟩
  all_goals
    obtain rfl := Option.some.inj h
    exact .of rfl rfl rfl (by rw [hp]; exact ⟨rfl, rfl⟩)

variable [DecidableEq K]

/-- A thread that is started takes over the share of the call that has started it, and
gives it back when it returns. -/
theorem effect_next {maxThreads : Nat} {s s' : State T K} {e : Event T K}
    (h : next maxThreads s e = some s') : Effect maxThreads s s' := by
  cases e with
  | step t => exact effect_step h
  | spawn t i | wait t | shutdown t =>
      obtain ⟨hOutside, rfl⟩ := call_eq h
      exact .of rfl rfl rfl (by rw [hOutside]; exact ⟨rfl, rfl⟩)
  | taskBegin t job | taskComplete t job =>
      simp only [next] at h
      split at h
      · obtain ⟨hOutside, rfl⟩ := call_eq h
        refine .of rfl rfl rfl ?_
        rw [show (s.threads t).pc = .outside from hOutside]
        exact ⟨rfl, rfl⟩
      · cases h
  | finish t =>
      simp only [next] at h
      split at h
      · next hPool =>
          obtain rfl := Option.some.inj h
          apply Effect.finish
          simp [Thread.share, hPool.1, hPool.2, Pc.starting, Pc.failed]
      · cases h
  | poll t isPolling =>
      simp only [next] at h
      split at h
      · next hPoll =>
          obtain rfl := Option.some.inj h
          exact .of rfl rfl rfl (by rw [hPoll]; exact ⟨rfl, rfl⟩)
      · cases h
  | wakeUp t =>
      simp only [next] at h
      split at h
      · next isPolling hParked =>
          obtain rfl := Option.some.inj h
          exact .of rfl rfl rfl (by rw [hParked]; exact ⟨rfl, rfl⟩)
      · cases h
  | start t u =>
      simp only [next] at h
      split at h
      · next i hCreate =>
          split at h
          · next hNew =>
              obtain rfl := Option.some.inj h
              have hNe : u ≠ t := by
                intro hEq
                rw [hEq, hCreate] at hNew
                cases hNew.1
              refine .start t u hNe rfl ?_ ?_ fun v hT hU => ?_
              · rw [goto_self, setThread_of_ne _ _ hNe.symm]
                simp [Thread.share, hCreate, Pc.starting, Pc.failed]
              · rw [goto_of_ne _ _ hNe, setThread_self]
                simp [Thread.share, hNew.1, hNew.2, Pc.starting, Pc.failed]
              · rw [goto_of_ne _ _ hT, setThread_of_ne _ _ hU]
          · cases h
      · cases h
  | error t =>
      simp only [next] at h
      split at h
      · next i hCreate =>
          obtain rfl := Option.some.inj h
          refine .keep rfl fun u => ?_
          by_cases hEq : u = t
          · subst hEq
            rw [goto_self]
            simp [Thread.share, hCreate, Pc.starting, Pc.failed]
          · rw [goto_of_ne _ _ hEq]
      · cases h
  | wake t =>
      obtain ⟨park, _, rfl⟩ := unpark_eq h
      exact .of rfl rfl rfl ⟨rfl, rfl⟩

/-! ## The count -/

/-- The count is exact and within its bound. -/
structure Counted [Fintype T] (maxThreads : Nat) (s : State T K) : Prop where
  exact : Tally.total Thread.share s.threads = s.spawned
  bound : s.spawned ≤ maxThreads

omit [DecidableEq K] in
/-- Each of these keeps the count exact, and an assertion that failed would contradict
it. -/
theorem Counted.effect [Fintype T] {maxThreads : Nat} {s s' : State T K}
    (counted : Counted maxThreads s) (effect : Effect maxThreads s s') : Counted maxThreads s' := by
  have hUpdate (g g' : T → Thread T) (t : T) (hOthers : ∀ u, u ≠ t → g' u = g u) :
      (g t).share + Tally.total Thread.share g' = (g' t).share + Tally.total Thread.share g := by
    have hEq : g' = Function.update g t (g' t) := by
      funext u
      by_cases hEq : u = t
      · rw [hEq, Function.update_self]
      · rw [hOthers u hEq, Function.update_of_ne hEq]
    rw [hEq, Tally.total_update, Function.update_self]
  obtain ⟨hExact, hBound⟩ := counted
  cases effect with
  | keep spawned shares =>
      have hTotal : Tally.total Thread.share s'.threads = Tally.total Thread.share s.threads :=
        Finset.sum_congr rfl fun u _ => shares u
      exact ⟨by omega, by omega⟩
  | raise t room spawned share others =>
      have hTotal := hUpdate s.threads s'.threads t others
      exact ⟨by omega, by omega⟩
  | start t u other spawned share started others =>
      have hFirst := hUpdate s.threads (Function.update s.threads t (s'.threads t)) t
        fun v hNe => Function.update_of_ne hNe _ _
      have hSecond := hUpdate (Function.update s.threads t (s'.threads t)) s'.threads u
        fun v hNe => by
          by_cases hEq : v = t
          · rw [hEq, Function.update_self]
          · rw [Function.update_of_ne hEq, others v hEq hNe]
      rw [Function.update_self] at hFirst
      rw [Function.update_of_ne other] at hSecond
      exact ⟨by omega, by omega⟩
  | lower t sound spawned share others =>
      have hTotal := hUpdate s.threads s'.threads t others
      exact ⟨by omega, by omega⟩
  | fail t unsound share =>
      have hLe := Tally.le_total Thread.share s.threads t
      exact absurd ⟨hBound, by omega⟩ unsound

theorem counted_of_reachable [Fintype T] {maxThreads : Nat} {s : State T K}
    (h : (system T K maxThreads).Reachable s) : Counted maxThreads s := by
  apply System.Reachable.keeps h
  · exact ⟨by simp [system, Tally.total, Thread.share, Pc.starting, Pc.failed], Nat.zero_le _⟩
  · intro u e v counted hNext
    exact counted.effect (effect_next hNext)

omit [DecidableEq T] [DecidableEq K] in
/-- What makes up the count. -/
theorem total_share [Fintype T] (threads : T → Thread T) :
    Tally.total Thread.share threads =
      (Finset.univ.filter fun t => (threads t).pooled).card +
        ((Finset.univ.filter fun t => (threads t).pc.starting).card +
          (Finset.univ.filter fun t => (threads t).pc.failed).card) := by
  have hCard (f : Thread T → Bool) : Tally.total (fun th => (f th).toNat) threads =
      (Finset.univ.filter fun t => f (threads t)).card := by
    rw [Finset.card_filter]
    apply Finset.sum_congr rfl
    intro t _
    show (f (threads t)).toNat = _
    cases f (threads t) <;> rfl
  rw [← hCard, ← hCard fun th => th.pc.starting, ← hCard fun th => th.pc.failed,
    ← Tally.total_add, ← Tally.total_add]
  rfl

/-- The thread that checks an assertion of `spawn` or `finish` in a step. -/
def asserting (s : State T K) : Event T K → Option T
  | .step t =>
      match (s.threads t).pc with
      | .spawnLock _ | .createFailed _ => some t
      | _ => none
  | .finish t => some t
  | _ => none

omit [DecidableEq K] in
theorem finish_passes {maxThreads : Nat} {s : State T K} (h : s.spawned ≤ maxThreads ∧ s.spawned ≠ 0)
    (t : T) (th : Thread T) : (s.finish maxThreads t th).threads t = th := by
  rw [State.finish, if_pos h, setThread_self]

/-- With the count exact, no assertion on it fails. -/
theorem Counted.passes [Fintype T] {maxThreads : Nat} {s s' : State T K} {e : Event T K} {t : T}
    (counted : Counted maxThreads s) (h : next maxThreads s e = some s')
    (hAsserting : asserting s e = some t) : (s'.threads t).pc ≠ .panicked := by
  have hLe := Tally.le_total Thread.share s.threads t
  have hExact := counted.exact
  cases e with
  | step u =>
      simp only [asserting] at hAsserting
      split at hAsserting
      · next i hp =>
          obtain rfl := Option.some.inj hAsserting
          simp only [next, step, hp] at h
          obtain rfl := Option.some.inj h
          rw [if_neg (Nat.not_lt.mpr counted.bound)]
          split
          · simp
          · split
            · simp
            · split <;> simp
      · next i hp =>
          obtain rfl := Option.some.inj hAsserting
          simp only [next, step, hp] at h
          obtain rfl := Option.some.inj h
          have hShare : 0 < (s.threads u).share := by
            simp [Thread.share, hp, Pc.starting, Pc.failed]
          rw [finish_passes ⟨counted.bound, by omega⟩]
          simp
      · cases hAsserting
  | finish u =>
      obtain rfl := Option.some.inj hAsserting
      simp only [next] at h
      split at h
      · next hPool =>
          obtain rfl := Option.some.inj h
          have hShare : 0 < (s.threads u).share := by
            simp [Thread.share, hPool.1]
          rw [finish_passes ⟨counted.bound, by omega⟩]
          simp [hPool.2]
      · cases h
  | _ => cases hAsserting

/-! ## The loop of `spawn` -/

def Pc.loops : Pc T → Bool
  | .spawnLoad _ | .spawnLock _ | .spawnUnpark _ _ => true
  | _ => false

/-- A parker is pushed to the idle list. -/
def Pushes (s : State T K) : Event T K → Prop
  | .step t => (s.threads t).pc = .waitLock ∧ ∀ w, (s.threads t).park ≠ .notified w
  | _ => False

/-- How many steps are left in the loop if no parker is pushed. -/
def loopRank (s : State T K) (t : T) : Nat :=
  3 * s.idle.length + match (s.threads t).pc with
    | .spawnLoad _ => 2
    | .spawnLock _ => 1
    | .spawnUnpark _ _ => 3
    | _ => 0

omit [DecidableEq K] in
/-- A thread in the loop is never blocked, and each step of its own takes it nearer
to the end. -/
theorem loop_step {maxThreads : Nat} {s : State T K} {t : T} (h : (s.threads t).pc.loops) :
    ∃ s', step maxThreads s t = some s' ∧
      ((s'.threads t).pc.loops → loopRank s' t < loopRank s t) := by
  cases hp : (s.threads t).pc <;> simp only [hp, Pc.loops, Bool.false_eq_true] at h
  case spawnLoad i =>
    refine ⟨_, by rw [step, hp], fun hLoops => ?_⟩
    cases hRunning : s.running with
    | true =>
        simp only [loopRank, hp, if_true, goto_self]
        show 3 * s.idle.length + 1 < _
        omega
    | false => simp [hRunning, Pc.loops] at hLoops
  case spawnLock i =>
    refine ⟨_, by rw [step, hp], fun hLoops => ?_⟩
    cases hRunning : s.running with
    | false => simp [hRunning, Pc.loops] at hLoops
    | true =>
        cases hIdle : s.idle with
        | nil =>
            by_cases hOver : maxThreads < s.spawned
            · simp [hRunning, hIdle, hOver, Pc.loops] at hLoops
            · by_cases hFull : s.spawned = maxThreads <;>
                simp [hRunning, hIdle, hOver, hFull, Pc.loops] at hLoops
        | cons parker idle =>
            have hShort := (swapRemove_cons_perm parker idle).length_eq
            rw [if_neg (by simp)]
            simp only [loopRank, hp, goto_self]
            show 3 * (swapRemove (parker :: idle) 0).length + 3 < 3 * s.idle.length + 1
            rw [hIdle]
            simp only [List.length_cons] at hShort ⊢
            omega
  case spawnUnpark i parker =>
    cases hUnpark : s.unpark parker (some i) with
    | some s' =>
        refine ⟨s'.goto t (.spawned i true), by rw [step, hp]; simp only [hUnpark],
          fun hLoops => ?_⟩
        simp [Pc.loops] at hLoops
    | none =>
        refine ⟨s.goto t (.spawnLoad i), by rw [step, hp]; simp only [hUnpark], fun _ => ?_⟩
        simp only [loopRank, hp, goto_self]
        show 3 * s.idle.length + 2 < _
        omega

omit [DecidableEq K] in
theorem pollUnparked_idle (s : State T K) (t : T) (some none otherwise : Pc T) :
    (s.pollUnparked t some none otherwise).idle = s.idle := by
  obtain ⟨th, hEq, _⟩ := pollUnparked_eq s t some none otherwise
  rw [hEq]
  rfl

omit [DecidableEq K] in
/-- The list grows only by a push. -/
theorem idle_step {maxThreads : Nat} {s s' : State T K} {t : T} (h : step maxThreads s t = some s')
    (hPush : (s.threads t).pc = .waitLock → ∃ w, (s.threads t).park = .notified w) :
    s'.idle.length ≤ s.idle.length := by
  cases hp : (s.threads t).pc <;> simp only [step, hp, reduceCtorEq] at h
  case spawnUnpark i parker =>
    split at h
    · next s'' hUnpark =>
        obtain rfl := Option.some.inj h
        obtain ⟨park, _, rfl⟩ := unpark_eq hUnpark
        exact le_rfl
    · obtain rfl := Option.some.inj h
      exact le_rfl
  case shutdownUnpark idle =>
    cases idle with
    | nil =>
        obtain rfl := Option.some.inj h
        exact le_rfl
    | cons parker idle =>
        obtain rfl := Option.some.inj h
        cases hUnpark : s.unpark parker none with
        | none => exact le_rfl
        | some s'' =>
            obtain ⟨park, _, rfl⟩ := unpark_eq hUnpark
            exact le_rfl
  case waitFirst | waitThird | waitUnwrap =>
    obtain rfl := Option.some.inj h
    exact (congrArg List.length (pollUnparked_idle s t _ _ _)).le
  case waitLock =>
    obtain ⟨w, hPark⟩ := hPush hp
    rw [hPark] at h
    obtain rfl := Option.some.inj h
    exact (congrArg List.length (pollUnparked_idle s t _ _ _)).le
  case createFailed i =>
    obtain rfl := Option.some.inj h
    unfold State.finish
    split <;> exact le_rfl
  case spawnLock i =>
    obtain rfl := Option.some.inj h
    split
    · exact le_rfl
    · split
      · next parker idle hIdle =>
          have hShort := (swapRemove_cons_perm parker idle).length_eq
          show (swapRemove s.idle 0).length ≤ s.idle.length
          rw [hIdle]
          simp only [List.length_cons] at hShort ⊢
          omega
      · repeat' split
        all_goals exact le_rfl
  case waitRemove =>
    obtain rfl := Option.some.inj h
    show (if t ∈ s.idle then swapRemove s.idle (s.idle.idxOf t) else s.idle).length ≤ _
    split
    · next hMem =>
        have hShort := (swapRemove_idxOf_perm hMem).length_eq
        simp only [List.length_cons] at hShort
        omega
    · exact le_rfl
  case waitPark | waitEmpty =>
    split at h <;> obtain rfl := Option.some.inj h <;> exact le_rfl
  case shutdownLock =>
    obtain rfl := Option.some.inj h
    split
    · exact Nat.zero_le _
    · exact le_rfl
  all_goals
    obtain rfl := Option.some.inj h
    exact le_rfl

omit [DecidableEq K] in
theorem line_others {maxThreads : Nat} {s s' : State T K} {t u : T}
    (h : step maxThreads s u = some s') (hNe : t ≠ u) :
    (s'.threads t).pc = (s.threads t).pc := by
  by_cases hShuts : (s.threads u).pc ≠ .shutdownLock ∨ s.running = false
  · exact (frame_step hShuts h).others t hNe
  · obtain ⟨hp, hRunning⟩ := not_or.mp hShuts
    simp only [step, not_not.mp hp] at h
    obtain rfl := Option.some.inj h
    rw [if_pos (by simpa using hRunning), goto_of_ne _ _ hNe]

/-- What others do brings a thread in the loop no farther from its end, unless a
parker is pushed. -/
theorem rank_others {maxThreads : Nat} {s s' : State T K} {e : Event T K} {t : T}
    (h : next maxThreads s e = some s') (hOther : e ≠ .step t) (hPush : ¬Pushes s e)
    (hLoops : (s.threads t).pc.loops) : loopRank s' t ≤ loopRank s t := by
  suffices hKeep : s'.idle.length ≤ s.idle.length ∧ (s'.threads t).pc = (s.threads t).pc by
    simp only [loopRank, hKeep.2]
    omega
  have hApart {u : T} (hLine : (s.threads u).pc.loops = false) : t ≠ u := by
    rintro rfl
    simp [hLine] at hLoops
  cases e with
  | step u =>
      refine ⟨idle_step h fun hp => ?_, line_others h fun hEq => hOther (by rw [hEq])⟩
      by_contra hNone
      exact hPush ⟨hp, fun w hPark => hNone ⟨w, hPark⟩⟩
  | spawn u i | wait u | shutdown u =>
      obtain ⟨hOutside, rfl⟩ := call_eq h
      exact ⟨le_rfl, by rw [goto_of_ne _ _ (hApart (by rw [hOutside]; rfl))]⟩
  | taskBegin u job | taskComplete u job =>
      simp only [next] at h
      split at h
      · obtain ⟨hOutside, rfl⟩ := call_eq h
        have hLine : (s.threads u).pc.loops = false := by
          rw [show (s.threads u).pc = .outside from hOutside]
          rfl
        exact ⟨le_rfl, by rw [goto_of_ne _ _ (hApart hLine)]⟩
      · cases h
  | finish u =>
      simp only [next] at h
      split at h
      · next hPool =>
          obtain rfl := Option.some.inj h
          have hNe := hApart (show (s.threads u).pc.loops = false by rw [hPool.2]; rfl)
          unfold State.finish
          split
          · exact ⟨le_rfl, by rw [setThread_of_ne _ _ hNe]⟩
          · exact ⟨le_rfl, by rw [goto_of_ne _ _ hNe]⟩
      · cases h
  | poll u isPolling =>
      simp only [next] at h
      split at h
      · next hPoll =>
          obtain rfl := Option.some.inj h
          exact ⟨le_rfl, by rw [goto_of_ne _ _ (hApart (by rw [hPoll]; rfl))]⟩
      · cases h
  | wakeUp u =>
      simp only [next] at h
      split at h
      · next isPolling hParked =>
          obtain rfl := Option.some.inj h
          exact ⟨le_rfl, by rw [goto_of_ne _ _ (hApart (by rw [hParked]; rfl))]⟩
      · cases h
  | start u v =>
      simp only [next] at h
      split at h
      · next i hCreate =>
          split at h
          · next hNew =>
              obtain rfl := Option.some.inj h
              refine ⟨le_rfl, ?_⟩
              rw [goto_of_ne _ _ (hApart (by rw [hCreate]; rfl)),
                setThread_of_ne _ _ (hApart (by rw [hNew.1]; rfl))]
          · cases h
      · cases h
  | error u =>
      simp only [next] at h
      split at h
      · next i hCreate =>
          obtain rfl := Option.some.inj h
          exact ⟨le_rfl, by rw [goto_of_ne _ _ (hApart (by rw [hCreate]; rfl))]⟩
      · cases h
  | wake u =>
      refine ⟨?_, unpark_pc h t⟩
      obtain ⟨park, _, rfl⟩ := unpark_eq h
      exact le_rfl

/-- The call of `spawn` has come to its result. -/
def Returns (s : State T K) (t : T) : Prop := ∃ i ok, (s.threads t).pc = .spawned i ok

/-- A parked thread or a new one gets the worker of the call. -/
def HandsOver (t : T) (s : State T K) (e : Event T K) : Prop :=
  (e = .step t ∧ ∃ i parker park, (s.threads t).pc = .spawnUnpark i parker ∧
    (s.threads parker).park.unpark (some i) = some park) ∨ ∃ u, e = .start t u

/-- A call that has handed its worker over returns `Ok`. -/
theorem handsOver_step {maxThreads : Nat} {s s' : State T K} {e : Event T K} {t : T}
    (h : next maxThreads s e = some s') (hOver : HandsOver t s e) :
    ∃ i, (s'.threads t).pc = .spawned i true := by
  rcases hOver with ⟨rfl, i, parker, park, hp, hUnpark⟩ | ⟨u, rfl⟩
  · have hDone : s.unpark parker (some i) = some _ := congrArg _ hUnpark
    simp only [next, step, hp, hDone] at h
    obtain rfl := Option.some.inj h
    exact ⟨i, by simp⟩
  · simp only [next] at h
    split at h
    · next i hCreate =>
        split at h
        · obtain rfl := Option.some.inj h
          exact ⟨i, by simp⟩
        · cases h
    · cases h

/-- A call that fails has given its worker to no one. -/
theorem failed_handsNothing {maxThreads : Nat} {s s' : State T K}
    {steps : List (State T K × Event T K)} {t : T} {i : Nat}
    (path : (system T K maxThreads).Path s steps s') (hCall : ∀ x ∈ steps, ¬Returns x.1 t)
    (hFailed : (s'.threads t).pc = .spawned i false) : ∀ x ∈ steps, ¬HandsOver t x.1 x.2 := by
  intro x member hOver
  obtain ⟨first, second, rfl⟩ := List.append_of_mem member
  obtain ⟨u, _, hNext, hRest⟩ := path.split
  obtain ⟨j, hSpawned⟩ := handsOver_step hNext hOver
  cases second with
  | nil =>
      rw [hRest.eq_of_nil, hSpawned] at hFailed
      cases hFailed
  | cons y second =>
      refine hCall y (by simp) ⟨j, true, ?_⟩
      rw [hRest.eq_of_cons, hSpawned]

/-- The loop of `spawn` ends in a run in which its thread goes on and parkers are
pushed only finitely often. -/
theorem loop_ends {maxThreads : Nat} (run : (system T K maxThreads).Endless) {t : T} (start : Nat)
    (hOften : ∀ n, ∃ k, n ≤ k ∧ run.event k = .step t)
    (hPushes : ∃ last, ∀ n, last ≤ n → ¬Pushes (run.state n) (run.event n)) :
    ∃ n, start ≤ n ∧ ((run.state n).threads t).pc.loops = false := by
  obtain ⟨last, hQuiet⟩ := hPushes
  have hFalls (n : Nat) (hStep : run.event n = .step t)
      (hLoops : ((run.state n).threads t).pc.loops)
      (hStill : ((run.state (n + 1)).threads t).pc.loops) :
      loopRank (run.state (n + 1)) t < loopRank (run.state n) t := by
    have hNext := run.step n
    rw [hStep] at hNext
    obtain ⟨s', hTaken, hLess⟩ : ∃ s', step maxThreads (run.state n) t = some s' ∧
      ((s'.threads t).pc.loops → loopRank s' t < loopRank (run.state n) t) := loop_step hLoops
    obtain rfl : s' = run.state (n + 1) := Option.some.inj (hTaken.symm.trans hNext)
    exact hLess hStill
  have hKeep (n : Nat) (hn : max start last ≤ n) (hLoops : ((run.state n).threads t).pc.loops)
      (hStill : ((run.state (n + 1)).threads t).pc.loops) :
      loopRank (run.state (n + 1)) t ≤ loopRank (run.state n) t := by
    by_cases hStep : run.event n = .step t
    · exact (hFalls n hStep hLoops hStill).le
    · exact rank_others (run.step n) hStep (hQuiet n (by omega)) hLoops
  obtain ⟨n, hn, hLeft⟩ := run.leaves (fun s => (s.threads t).pc.loops) (loopRank · t)
    (fun n => run.event n = .step t) hOften (max start last) hKeep fun n _ => hFalls n
  exact ⟨n, by omega, by simpa using hLeft⟩

/-- The count is that of the threads which are of the pool, are being started or have
not been started; it stays within its bound, and no assertion on it fails. The loop
of `spawn` ends where parkers are pushed only finitely often, and a call that fails
has given its worker to no one. -/
theorem spawned_exact (maxThreads : Nat) :
    (∀ [Fintype T] (s : State T K), (system T K maxThreads).Reachable s →
      s.spawned = (Finset.univ.filter fun t => (s.threads t).pooled).card +
        ((Finset.univ.filter fun t => (s.threads t).pc.starting).card +
          (Finset.univ.filter fun t => (s.threads t).pc.failed).card) ∧
      s.spawned ≤ maxThreads ∧
      ∀ e t s', (system T K maxThreads).next s e = some s' → asserting s e = some t →
        (s'.threads t).pc ≠ .panicked) ∧
    (∀ (run : (system T K maxThreads).Endless) (t : T) (start : Nat),
      (∀ n, ∃ k, n ≤ k ∧ run.event k = .step t) →
      (∃ last, ∀ n, last ≤ n → ¬Pushes (run.state n) (run.event n)) →
      ∃ n, start ≤ n ∧ ((run.state n).threads t).pc.loops = false) ∧
    ∀ (s s' : State T K) (steps : List (State T K × Event T K)) (t : T) (i : Nat),
      (system T K maxThreads).Path s steps s' → (∀ x ∈ steps, ¬Returns x.1 t) →
      (s'.threads t).pc = .spawned i false → ∀ x ∈ steps, ¬HandsOver t x.1 x.2 := by
  refine ⟨?_, fun run t start hOften hPushes => loop_ends run start hOften hPushes,
    fun s s' steps t i path hCall hFailed => failed_handsNothing path hCall hFailed⟩
  · intro _ s hReachable
    have counted := counted_of_reachable hReachable
    refine ⟨?_, counted.bound, fun e t s' hNext hAsserting => counted.passes hNext hAsserting⟩
    rw [← total_share, counted.exact]

end

/-- A thread at a line of its calls of `spawn` on a pool without threads. -/
def spawning (pc : Pc Unit) : State Unit Unit :=
  { (system Unit Unit 0).initial with threads := fun _ => ⟨pc, .empty, false⟩ }

/-- Call after call of `spawn`, which all fail. -/
def failingCalls : (system Unit Unit 0).Endless where
  state n := spawning (match n % 4 with
    | 0 => .outside
    | 1 => .spawnLoad 5
    | 2 => .spawnLock 5
    | _ => .spawned 5 false)
  event n := if n % 4 = 0 then .spawn () 5 else .step ()
  step n := by
    obtain h | h | h | h : n % 4 = 0 ∨ n % 4 = 1 ∨ n % 4 = 2 ∨ n % 4 = 3 := by omega
    all_goals
      simp only [Nat.add_mod n 1 4, h]
      simp [system, next, step, spawning, State.call, State.goto, State.setThread]
      exact Function.update_eq_const_of_subsingleton _ _ _

/-- The calls of a thread end again and again, and one that fails hands nothing over. -/
theorem spawned_exact_failingCalls :
    (∀ start, ∃ n, start ≤ n ∧ ((failingCalls.state n).threads ()).pc.loops = false) ∧
    ∃ steps s, (system Unit Unit 0).Path (spawning (.spawnLoad 5)) steps s ∧
      (s.threads ()).pc = .spawned 5 false ∧ ∀ x ∈ steps, ¬HandsOver () x.1 x.2 := by
  obtain ⟨-, hEnds, hFails⟩ := spawned_exact (T := Unit) (K := Unit) 0
  constructor
  · intro start
    refine hEnds failingCalls () start (fun n => ⟨4 * n + 1, by omega, ?_⟩) ⟨0, fun n _ hPush => ?_⟩
    · simp only [failingCalls]
      rw [if_neg (by omega)]
    · obtain h | h | h | h : n % 4 = 0 ∨ n % 4 = 1 ∨ n % 4 = 2 ∨ n % 4 = 3 := by omega
      all_goals simp [failingCalls, Pushes, spawning, h] at hPush
  · obtain ⟨s, hReplay, hs⟩ := Option.map_eq_some_iff.mp (by decide :
      ((system Unit Unit 0).replay (spawning (.spawnLoad 5)) [.step (), .step ()]).map
        (fun s => (s.threads ()).pc) = some (.spawned 5 false))
    have path := System.path_of_replay hReplay
    have hInside : ∀ x ∈ (system Unit Unit 0).trace (spawning (.spawnLoad 5)) [.step (), .step ()],
        (x.1.threads ()).pc = .spawnLoad 5 ∨ (x.1.threads ()).pc = .spawnLock 5 := by decide
    refine ⟨_, s, path, hs, hFails _ s _ () 5 path ?_ hs⟩
    rintro x hx ⟨i, ok, hp⟩
    rcases hInside x hx with h | h <;> simp [h] at hp

end Yaar.Runtime.ThreadPool
