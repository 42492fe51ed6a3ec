import Yaar.Runtime.ParkerHandshake

/-! The word of a parker is always one its owner expects, and a blocked owner is
woken for a notification. -/
namespace Yaar.Runtime.Parker

open Machine

variable {U : Type*}

/-- The state of the parker as it is where the owner stands. -/
def Owner.Ok (state : ParkState) : Owner → Prop
  | .idle | .pollLoad | .tryPoll | .swapParked _ | .dropGuard =>
      state = .empty ∨ state = .notified none
  | .pollStore workerIndex => workerIndex = none ∧ state = .notified none
  | .netPoll | .netDrop => state = .polling ∨ ∃ w, state = .notified w
  | .swapEmpty isPolling => state = .parked isPolling ∨ ∃ w, state = .notified w
  | .lock | .loadFirst | .wait | .blocked | .relock | .loadSecond | .unlock =>
      state = .waiting ∨ ∃ w, state = .notified w
  | .unwrapLoad _ => ∃ w, state = .notified w
  | .unwrapStore _ workerIndex => state = .notified workerIndex
  | .panicked => False

/-- The owner has the mutex. -/
def Owner.locks : Owner → Bool
  | .loadFirst | .wait | .loadSecond | .unlock => true
  | _ => false

/-- What a call of `unpark` knows: its exchange stores what it accepts, and it fails
for an index it does not accept only. -/
def Call.Ok (bits : Nat) : Call → Prop
  | .swap workerIndex word =>
      (∃ state, decode word = some state ∧ state.unpark workerIndex = some (.notified workerIndex)) ∧
        Accepted bits (.notified workerIndex)
  | .panicked workerIndex => ¬Accepted bits (.notified workerIndex)
  | _ => True

theorem unpark_notified {state new : ParkState} {workerIndex : Option Nat}
    (h : state.unpark workerIndex = some new) : new = .notified workerIndex := by
  cases state with
  | empty =>
      simp only [ParkState.unpark] at h
      split at h
      · simp at h
      · exact (Option.some.inj h).symm
  | notified w => simp [ParkState.unpark] at h
  | _ => exact (Option.some.inj h).symm

/-- A call about to exchange has read a word that stands for a state, so what it stores
is accepted. -/
theorem update_ok {bits : Nat} {workerIndex : Option Nat} {word : Nat} {state : ParkState}
    (hWord : decode word = some state) : (update bits workerIndex word).Ok bits := by
  simp only [update, hWord]
  cases hUnpark : state.unpark workerIndex with
  | none => trivial
  | some new =>
      obtain rfl := unpark_notified hUnpark
      simp only
      split
      · next hAccepted => exact ⟨⟨state, hWord, hUnpark⟩, hAccepted⟩
      · next hAccepted => exact hAccepted

/-- The word of the parker is that of a state. -/
def Holds (bits : Nat) (s : State U) (state : ParkState) : Prop :=
  encode bits state = some s.word

theorem Holds.decode {bits : Nat} {s : State U} {state : ParkState} (h : Holds bits s state) :
    decode s.word = some state :=
  decode_encode h

theorem Holds.unique {bits : Nat} {s : State U} {state state' : ParkState}
    (h : Holds bits s state) (h' : Holds bits s state') : state = state' :=
  Option.some.inj (h.decode.symm.trans h'.decode)

variable [DecidableEq U]

/-- The word, the calls and the mutex are as they should be. -/
structure Sound (bits : Nat) (s : State U) : Prop where
  word : ∃ state, Holds bits s state ∧ s.owner.Ok state
  calls : ∀ u, (s.calls u).Ok bits
  owns : s.mutex = some .owner ↔ s.owner.locks = true
  holder : ∀ u, s.mutex = some (.call u) ↔ ∃ w, s.calls u = .unlock w

omit [DecidableEq U] in
/-- A step of the owner that leaves the word and the mutex. -/
theorem Sound.owner {bits : Nat} {s s' : State U} (sound : Sound bits s)
    (hWord : s'.word = s.word) (hMutex : s'.mutex = s.mutex) (hCalls : s'.calls = s.calls)
    (hLocks : s'.owner.locks = s.owner.locks)
    (hOk : ∀ state, Holds bits s state → s.owner.Ok state → s'.owner.Ok state) :
    Sound bits s' := by
  obtain ⟨state, hState, hOwner⟩ := sound.word
  refine ⟨⟨state, by unfold Holds; rw [hWord]; exact hState, hOk state hState hOwner⟩,
    fun u => ?_, ?_, fun u => ?_⟩
  · rw [hCalls]
    exact sound.calls u
  · rw [hMutex, hLocks]
    exact sound.owns
  · rw [hMutex, hCalls]
    exact sound.holder u

omit [DecidableEq U] in
/-- A step of the owner that stores a state. -/
theorem Sound.store {bits : Nat} {s s' : State U} {state : ParkState} (sound : Sound bits s)
    (hState : Holds bits s' state) (hMutex : s'.mutex = s.mutex) (hCalls : s'.calls = s.calls)
    (hLocks : s'.owner.locks = s.owner.locks) (hOk : s'.owner.Ok state) : Sound bits s' := by
  refine ⟨⟨state, hState, hOk⟩, fun u => ?_, ?_, fun u => ?_⟩
  · rw [hCalls]
    exact sound.calls u
  · rw [hMutex, hLocks]
    exact sound.owns
  · rw [hMutex, hCalls]
    exact sound.holder u

omit [DecidableEq U] in
/-- The owner takes or gives back the mutex. -/
theorem Sound.mutex {bits : Nat} {s s' : State U} (sound : Sound bits s)
    (hWord : s'.word = s.word) (hCalls : s'.calls = s.calls)
    (hMutex : s'.mutex = if s'.owner.locks then some .owner else none)
    (hFree : ∀ u, s.mutex ≠ some (.call u))
    (hOk : ∀ state, Holds bits s state → s.owner.Ok state → s'.owner.Ok state) :
    Sound bits s' := by
  obtain ⟨state, hState, hOwner⟩ := sound.word
  refine ⟨⟨state, by unfold Holds; rw [hWord]; exact hState, hOk state hState hOwner⟩,
    fun u => ?_, ?_, fun u => ?_⟩
  · rw [hCalls]
    exact sound.calls u
  · rw [hMutex]
    split <;> simp_all
  · rw [hMutex, hCalls, ← sound.holder u]
    split <;> simp [hFree u]

omit [DecidableEq U] in
/-- The owner's exchange in `park`. -/
theorem Sound.exchange {bits : Nat} {s : State U} {state current new : ParkState} {a b : Nat}
    {success failure : Owner} (sound : Sound bits s) (hState : Holds bits s state)
    (hCurrent : encode bits current = some a) (hNew : encode bits new = some b)
    (hSuccess : success.Ok new) (hFailure : state ≠ current → failure.Ok state)
    (hLocks : success.locks = s.owner.locks ∧ failure.locks = s.owner.locks) :
    Sound bits (s.exchange bits current new success failure) := by
  simp only [State.exchange, hCurrent, hNew]
  split
  · exact sound.store hNew rfl rfl hLocks.1 hSuccess
  · next hNe =>
      refine sound.store hState rfl rfl hLocks.2 (hFailure ?_)
      rintro rfl
      exact hNe (Option.some.inj (hState.symm.trans hCurrent))

omit [DecidableEq U] in
/-- A step of the owner keeps word, calls and mutex right. Its exchange fails only where
a call has notified it meanwhile. -/
theorem Sound.ownerStep {bits : Nat} {s s' : State U} (sound : Sound bits s)
    (h : ownerStep bits s = some s') : Sound bits s' := by
  obtain ⟨state, hState, hOwner⟩ := sound.word
  have hDecode := hState.decode
  have hOwns := sound.owns
  have hGoto : ∀ owner : Owner, owner.locks = s.owner.locks → owner.Ok state →
      Sound bits (s.setOwner owner) := fun owner hLocks hOk =>
    sound.store hState rfl rfl hLocks hOk
  have hEmpty : ∀ owner : Owner, owner.locks = s.owner.locks → owner.Ok .empty →
      Sound bits ({ s with word := 0 }.setOwner owner) := fun owner hLocks hOk =>
    sound.store (show Holds bits _ .empty from rfl) rfl rfl hLocks hOk
  have hParked : ∀ isPolling, ∃ word, encode bits (.parked isPolling) = some word := by
    intro isPolling
    cases isPolling <;> exact ⟨_, rfl⟩
  cases hp : s.owner <;> simp only [Parker.ownerStep, hp, reduceCtorEq] at h <;>
    simp only [hp, Owner.Ok] at hOwner
  case pollLoad =>
    obtain rfl := Option.some.inj h
    refine hGoto _ ?_ ?_ <;> rcases hOwner with rfl | rfl <;>
      simp [pollLoad, hDecode, hp, Owner.locks, Owner.Ok]
  case pollStore w =>
    obtain rfl := Option.some.inj h
    exact hEmpty _ (by rw [hp]; rfl) (Or.inl rfl)
  case swapParked isPolling =>
    obtain rfl := Option.some.inj h
    obtain ⟨word, hWord⟩ := hParked isPolling
    refine sound.exchange hState rfl hWord ?_ (fun hNe => ?_) ?_
    · cases isPolling <;> exact Or.inl rfl
    · exact ⟨none, hOwner.resolve_left hNe⟩
    · cases isPolling <;> simp [hp, Owner.locks]
  case netDrop =>
    obtain rfl := Option.some.inj h
    exact hGoto _ (by rw [hp]; rfl) hOwner
  case swapEmpty isPolling =>
    obtain rfl := Option.some.inj h
    obtain ⟨word, hWord⟩ := hParked isPolling
    exact sound.exchange hState hWord rfl (Or.inl rfl) (fun hNe => hOwner.resolve_left hNe)
      (by simp [hp, Owner.locks])
  case unwrapLoad guarded =>
    obtain rfl := Option.some.inj h
    obtain ⟨w, rfl⟩ := hOwner
    refine hGoto _ ?_ ?_ <;> simp [pollLoad, hDecode, hp, Owner.locks, Owner.Ok]
  case unwrapStore guarded w =>
    obtain rfl := Option.some.inj h
    refine hEmpty _ ?_ ?_ <;> cases guarded <;> simp [hp, Owner.locks, Owner.Ok]
  case dropGuard =>
    obtain rfl := Option.some.inj h
    exact hGoto _ (by rw [hp]; rfl) hOwner
  case lock | relock =>
    split at h
    · next hFree =>
        obtain rfl := Option.some.inj h
        refine sound.mutex rfl rfl rfl (by simp [hFree]) fun state' hState' _ => ?_
        obtain rfl := hState.unique hState'
        exact hOwner
    · simp at h
  case loadFirst | loadSecond =>
    obtain rfl := Option.some.inj h
    refine hGoto _ ?_ ?_ <;> rcases hOwner with rfl | ⟨w, rfl⟩ <;>
      simp [loadLocked, hDecode, hp, Owner.locks, Owner.Ok]
  case wait | unlock =>
    obtain rfl := Option.some.inj h
    have hMine : s.mutex = some .owner := hOwns.mpr (by rw [hp]; rfl)
    refine sound.mutex rfl rfl rfl (by simp [hMine]) fun state' hState' _ => ?_
    obtain rfl := hState.unique hState'
    exact hOwner

omit [DecidableEq U] in
/-- A notification is one the owner expects where it stands. -/
theorem Owner.Ok.notify {owner : Owner} {state : ParkState} {workerIndex : Option Nat}
    (h : owner.Ok state) (hUnpark : state.unpark workerIndex = some (.notified workerIndex)) :
    owner.Ok (.notified workerIndex) := by
  have hNotNotified : ∀ w, state ≠ .notified w := by
    rintro w rfl
    simp [ParkState.unpark] at hUnpark
  have hEmpty : state = .empty → workerIndex = none := by
    rintro rfl
    cases workerIndex <;> simp [ParkState.unpark] at hUnpark ⊢
  cases owner <;> simp only [Owner.Ok] at h ⊢
  case idle | pollLoad | tryPoll | swapParked | dropGuard =>
    rw [hEmpty (h.resolve_right (hNotNotified none))]
    exact Or.inr rfl
  case pollStore => exact absurd h.2 (hNotNotified none)
  case unwrapLoad => exact absurd h.choose_spec (hNotNotified _)
  case unwrapStore => exact absurd h (hNotNotified _)
  all_goals exact Or.inr ⟨workerIndex, rfl⟩

/-- A step of a call that does not concern the mutex. -/
theorem Sound.call {bits : Nat} {s s' : State U} {u : U} {call : Call} (sound : Sound bits s)
    (hWord : ∃ state, Holds bits s' state ∧ s'.owner.Ok state) (hOwner : s'.owner = s.owner)
    (hMutex : s'.mutex = s.mutex) (hCalls : s'.calls = Function.update s.calls u call)
    (hOk : call.Ok bits) (hOld : ∀ w, s.calls u ≠ .unlock w) (hNew : ∀ w, call ≠ .unlock w) :
    Sound bits s' := by
  refine ⟨hWord, fun v => ?_, ?_, fun v => ?_⟩
  · rw [hCalls]
    by_cases hv : v = u
    · subst hv
      simpa using hOk
    · simpa [hv] using sound.calls v
  · rw [hMutex, hOwner]
    exact sound.owns
  · rw [hMutex, hCalls]
    by_cases hv : v = u
    · subst hv
      simpa [sound.holder, hNew] using hOld
    · simpa [hv] using sound.holder v

omit [DecidableEq U] in
theorem update_ne_unlock {bits : Nat} {workerIndex : Option Nat} {word : Nat} (w : Option Nat) :
    update bits workerIndex word ≠ .unlock w := by
  unfold update
  split
  · simp
  · split
    · simp
    · split <;> simp

/-- The closure of `fetch_update` on the word as it is. -/
theorem Sound.update {bits : Nat} {s : State U} {u : U} (sound : Sound bits s)
    (workerIndex : Option Nat) (hOld : ∀ w, s.calls u ≠ .unlock w) :
    Sound bits (s.setCall u (update bits workerIndex s.word)) := by
  obtain ⟨state, hState, hOwner⟩ := sound.word
  exact sound.call ⟨state, hState, hOwner⟩ rfl rfl rfl (update_ok hState.decode) hOld
    update_ne_unlock

/-- A step of a call keeps them right. Where its exchange goes through, the word has not
changed since the call read it. -/
theorem Sound.callStep {bits : Nat} {s s' : State U} {u : U} (sound : Sound bits s)
    (h : callStep bits s u = some s') : Sound bits s' := by
  obtain ⟨state, hState, hOwner⟩ := sound.word
  have hCall := sound.calls u
  cases hp : s.calls u <;> simp only [Parker.callStep, hp, reduceCtorEq] at h
  case load workerIndex =>
    obtain rfl := Option.some.inj h
    exact sound.update workerIndex (by simp [hp])
  case swap workerIndex word =>
    obtain rfl := Option.some.inj h
    split
    · next hWord =>
        rw [hp] at hCall
        obtain ⟨⟨state', hDecode, hUnpark⟩, hAccepted⟩ := hCall
        obtain rfl : state' = state := by
          rw [← hWord, hState.decode] at hDecode
          exact (Option.some.inj hDecode).symm
        obtain ⟨word', hWord'⟩ := Option.isSome_iff_exists.mp hAccepted
        refine sound.call ⟨_, ?_, hOwner.notify hUnpark⟩ rfl rfl rfl ?_ (by simp [hp]) ?_
        · simp [Holds, State.setCall, hWord']
        all_goals
          simp only [signal, hDecode]
          cases state' <;> simp [Call.Ok]
    · exact sound.update workerIndex (by simp [hp])
  case signalNet workerIndex =>
    obtain rfl := Option.some.inj h
    exact sound.call ⟨state, hState, hOwner⟩ rfl rfl rfl trivial (by simp [hp]) (by simp)
  case lock workerIndex =>
    split at h
    · next hFree =>
        obtain rfl := Option.some.inj h
        have hOwns : s.owner.locks = false := by
          have := sound.owns
          simpa [hFree] using this
        refine ⟨⟨state, hState, hOwner⟩, fun v => ?_, ?_, fun v => ?_⟩
        · by_cases hv : v = u
          · subst hv
            simp [State.setCall, Call.Ok]
          · simpa [State.setCall, hv] using sound.calls v
        · simp [State.setCall, hOwns]
        · by_cases hv : v = u
          · subst hv
            simp [State.setCall]
          · have hHolder := sound.holder v
            simp only [hFree, reduceCtorEq, false_iff] at hHolder
            simpa [State.setCall, hv, Ne.symm hv] using hHolder
    · simp at h
  case unlock workerIndex =>
    obtain rfl := Option.some.inj h
    have hMine : s.mutex = some (.call u) := (sound.holder u).mpr ⟨workerIndex, hp⟩
    refine ⟨⟨state, hState, hOwner⟩, fun v => ?_, ?_, fun v => ?_⟩
    · by_cases hv : v = u
      · subst hv
        simp [State.setCall, Call.Ok]
      · simpa [State.setCall, hv] using sound.calls v
    · have hOwns := sound.owns
      simpa [State.setCall, hMine] using hOwns
    · by_cases hv : v = u
      · subst hv
        simp [State.setCall]
      · have hHolder := sound.holder v
        simpa [State.setCall, hv, hMine, Ne.symm hv] using hHolder
  case notify workerIndex =>
    obtain rfl := Option.some.inj h
    exact sound.call ⟨state, hState, hOwner⟩ rfl rfl rfl trivial (by simp [hp]) (by simp)

theorem Sound.next {bits : Nat} {s s' : State U} {e : Event U} (sound : Sound bits s)
    (h : next bits s e = some s') : Sound bits s' := by
  cases e with
  | owner => exact sound.ownerStep h
  | call u => exact sound.callStep h
  | pollUnparked | park | guard =>
      simp only [Parker.next] at h
      split at h
      · next hp =>
          obtain rfl := Option.some.inj h
          refine sound.owner rfl rfl rfl (by rw [hp]; rfl) fun state _ hOk => ?_
          rw [hp] at hOk
          exact hOk
      · simp at h
  | wakeUp =>
      simp only [Parker.next] at h
      split at h
      · next hp =>
          obtain rfl := Option.some.inj h
          refine sound.owner rfl rfl rfl (by rw [hp]; rfl) fun state _ hOk => ?_
          rw [hp] at hOk
          exact hOk
      · next hp =>
          obtain rfl := Option.some.inj h
          refine sound.owner rfl rfl rfl (by rw [hp]; rfl) fun state _ hOk => ?_
          rw [hp] at hOk
          exact hOk
      · simp at h
  | unpark u workerIndex =>
      simp only [Parker.next] at h
      split at h
      · next hp =>
          obtain rfl := Option.some.inj h
          exact sound.call sound.word rfl rfl rfl trivial (by simp [hp]) (by simp)
      · simp at h
  | spurious u =>
      simp only [Parker.next] at h
      split at h
      · next workerIndex word hp =>
          obtain rfl := Option.some.inj h
          exact sound.update workerIndex (by simp [hp])
      · simp at h
  | otherPoll =>
      simp only [Parker.next] at h
      split at h
      · simp at h
      · obtain rfl := Option.some.inj h
        exact sound.owner rfl rfl rfl rfl fun _ _ hOk => hOk
  | otherNotify =>
      obtain rfl := Option.some.inj h
      exact sound.owner rfl rfl rfl rfl fun _ _ hOk => hOk

theorem sound_reachable {bits : Nat} {s : State U} (h : (system U bits).Reachable s) :
    Sound bits s := by
  refine h.keeps ⟨⟨.empty, rfl, Or.inl rfl⟩, fun _ => trivial, ?_, fun u => ?_⟩
    fun _ _ _ sound hNext => sound.next hNext
  · simp [system, Owner.locks]
  · simp [system]

/-- A blocked owner that is notified has a signal pending or a call about to signal. -/
structure Signalled (s : State U) : Prop where
  waiting : ∀ w, decode s.word = some (.notified w) → s.owner = .wait ∨ s.owner = .blocked →
    (∃ u i, s.calls u = .lock i) ∨ s.owner = .blocked ∧
      (s.condSignal = true ∨ ∃ u i, s.calls u = .unlock i ∨ s.calls u = .notify i)
  polling : ∀ w, decode s.word = some (.notified w) → s.owner = .netPoll →
    s.netSignal = true ∨ ∃ u i, s.calls u = .signalNet i

omit [DecidableEq U] in
/-- An owner that is neither blocked nor about to block waits for no signal. -/
theorem Signalled.awake {s : State U} (hWait : s.owner ≠ .wait) (hBlocked : s.owner ≠ .blocked)
    (hPoll : s.owner ≠ .netPoll) : Signalled s :=
  ⟨fun _ _ h => (h.elim hWait hBlocked).elim, fun _ _ h => (hPoll h).elim⟩

omit [DecidableEq U] in
/-- A step of the owner misses no signal: between its last load and the wait it has the
mutex. -/
theorem Signalled.ownerStep {bits : Nat} {s s' : State U} (signalled : Signalled s)
    (sound : Sound bits s) (h : ownerStep bits s = some s') : Signalled s' := by
  obtain ⟨state, hState, hOwner⟩ := sound.word
  cases hp : s.owner <;> simp only [Parker.ownerStep, hp, reduceCtorEq] at h
  case swapParked isPolling =>
    obtain rfl := Option.some.inj h
    simp only [State.exchange]
    split
    · next current new hCurrent hNew =>
        split
        · have hDecode : decode new = some (.parked isPolling) := decode_encode hNew
          constructor <;> intro w hWord <;>
            cases isPolling <;> simp [State.setOwner, hDecode, ParkState.parked] at hWord
        · exact .awake (by simp [State.setOwner]) (by simp [State.setOwner])
            (by simp [State.setOwner])
    · exact .awake (by simp [State.setOwner]) (by simp [State.setOwner]) (by simp [State.setOwner])
  case swapEmpty isPolling =>
    obtain rfl := Option.some.inj h
    simp only [State.exchange]
    split
    · split <;> exact .awake (by simp [State.setOwner]) (by simp [State.setOwner])
        (by simp [State.setOwner])
    · exact .awake (by simp [State.setOwner]) (by simp [State.setOwner]) (by simp [State.setOwner])
  case pollLoad | unwrapLoad =>
    obtain rfl := Option.some.inj h
    simp only [pollLoad]
    split <;> exact .awake (by simp [State.setOwner]) (by simp [State.setOwner])
      (by simp [State.setOwner])
  case unwrapStore guarded w =>
    obtain rfl := Option.some.inj h
    cases guarded <;> exact .awake (by simp [State.setOwner]) (by simp [State.setOwner])
      (by simp [State.setOwner])
  case loadFirst =>
    obtain rfl := Option.some.inj h
    rw [hp] at hOwner
    rcases hOwner with rfl | ⟨w, rfl⟩
    · constructor <;> intro w hWord <;> simp [State.setOwner, hState.decode] at hWord
    · exact .awake (by simp [State.setOwner, loadLocked, hState.decode])
        (by simp [State.setOwner, loadLocked, hState.decode])
        (by simp [State.setOwner, loadLocked, hState.decode])
  case loadSecond =>
    obtain rfl := Option.some.inj h
    simp only [loadLocked]
    split <;> exact .awake (by simp [State.setOwner]) (by simp [State.setOwner])
      (by simp [State.setOwner])
  case wait =>
    obtain rfl := Option.some.inj h
    refine ⟨fun w hWord _ => ?_, by simp [State.setOwner]⟩
    rcases signalled.waiting w hWord (Or.inl hp) with hLock | ⟨hBlocked, _⟩
    · exact Or.inl hLock
    · simp [hp] at hBlocked
  case lock | relock =>
    split at h
    · obtain rfl := Option.some.inj h
      exact .awake (by simp [State.setOwner]) (by simp [State.setOwner]) (by simp [State.setOwner])
    · simp at h
  all_goals
    obtain rfl := Option.some.inj h
    exact .awake (by simp [State.setOwner]) (by simp [State.setOwner]) (by simp [State.setOwner])

/-- A call elsewhere stays where it is. -/
theorem State.setCall_kept {s : State U} {u v : U} {call place : Call} (hv : s.calls v = place)
    (hu : s.calls u ≠ place) : (s.setCall u call).calls v = place := by
  have hNe : v ≠ u := by
    rintro rfl
    exact hu hv
  simpa [State.setCall, hNe] using hv

/-- A call that leaves the word and was not about to signal. -/
theorem Signalled.call {s : State U} {u : U} (signalled : Signalled s) (call : Call)
    (hOld : ∀ i, s.calls u ≠ .lock i ∧ s.calls u ≠ .unlock i ∧ s.calls u ≠ .notify i ∧
      s.calls u ≠ .signalNet i) : Signalled (s.setCall u call) := by
  constructor
  · intro w hWord hParked
    rcases signalled.waiting w hWord hParked with
      ⟨v, i, hv⟩ | ⟨hBlocked, hSignal | ⟨v, i, hv | hv⟩⟩
    · exact Or.inl ⟨v, i, State.setCall_kept hv (hOld i).1⟩
    · exact Or.inr ⟨hBlocked, Or.inl hSignal⟩
    · exact Or.inr ⟨hBlocked, Or.inr ⟨v, i, Or.inl (State.setCall_kept hv (hOld i).2.1)⟩⟩
    · exact Or.inr ⟨hBlocked, Or.inr ⟨v, i, Or.inr (State.setCall_kept hv (hOld i).2.2.1)⟩⟩
  · intro w hWord hParked
    rcases signalled.polling w hWord hParked with hSignal | ⟨v, i, hv⟩
    · exact Or.inl hSignal
    · exact Or.inr ⟨v, i, State.setCall_kept hv (hOld i).2.2.2⟩

/-- A call that has stored its notification goes on to the mutex and to the signal. -/
theorem Signalled.callStep {bits : Nat} {s s' : State U} {u : U} (signalled : Signalled s)
    (sound : Sound bits s) (h : callStep bits s u = some s') : Signalled s' := by
  obtain ⟨state, hState, hOwner⟩ := sound.word
  have hCall := sound.calls u
  cases hp : s.calls u <;> simp only [Parker.callStep, hp, reduceCtorEq] at h
  case load workerIndex =>
    obtain rfl := Option.some.inj h
    exact signalled.call _ (by simp [hp])
  case swap workerIndex word =>
    obtain rfl := Option.some.inj h
    split
    · next hWord =>
        rw [hp] at hCall
        obtain ⟨⟨state', hDecode, hUnpark⟩, _⟩ := hCall
        obtain rfl : state' = state := by
          rw [← hWord, hState.decode] at hDecode
          exact (Option.some.inj hDecode).symm
        have hNot : ∀ w, state' ≠ .notified w := by
          rintro w rfl
          simp [ParkState.unpark] at hUnpark
        refine ⟨fun w _ hParked => Or.inl ⟨u, workerIndex, ?_⟩,
          fun w _ hParked => Or.inr ⟨u, workerIndex, ?_⟩⟩
        · have hWaiting : state' = .waiting := by
            rcases hParked with hParked | hParked <;>
              · rw [show s.owner = _ from hParked] at hOwner
                exact hOwner.resolve_right fun ⟨w, hw⟩ => hNot w hw
          subst hWaiting
          simp [State.setCall, signal, hDecode]
        · have hPolling : state' = .polling := by
            rw [show s.owner = _ from hParked] at hOwner
            exact hOwner.resolve_right fun ⟨w, hw⟩ => hNot w hw
          subst hPolling
          simp [State.setCall, signal, hDecode]
    · exact signalled.call _ (by simp [hp])
  case signalNet workerIndex =>
    obtain rfl := Option.some.inj h
    refine ⟨fun w hWord hParked => ?_, fun _ _ _ => Or.inl rfl⟩
    rcases signalled.waiting w hWord hParked with
      ⟨v, i, hv⟩ | ⟨hBlocked, hSignal | ⟨v, i, hv | hv⟩⟩
    · exact Or.inl ⟨v, i, State.setCall_kept hv (by simp [hp])⟩
    · exact Or.inr ⟨hBlocked, Or.inl hSignal⟩
    · exact Or.inr ⟨hBlocked, Or.inr ⟨v, i, Or.inl (State.setCall_kept hv (by simp [hp]))⟩⟩
    · exact Or.inr ⟨hBlocked, Or.inr ⟨v, i, Or.inr (State.setCall_kept hv (by simp [hp]))⟩⟩
  case lock workerIndex =>
    split at h
    · next hFree =>
        obtain rfl := Option.some.inj h
        have hOwns : s.owner.locks ≠ true := fun hLocks => by
          simpa [hFree] using sound.owns.mpr hLocks
        refine ⟨fun w hWord hParked => Or.inr ⟨?_, Or.inr ⟨u, workerIndex, ?_⟩⟩,
          fun w hWord hParked => ?_⟩
        · refine hParked.resolve_left fun hWait => hOwns ?_
          rw [show s.owner = _ from hWait]
          rfl
        · simp [State.setCall]
        · refine (signalled.polling w hWord hParked).imp id ?_
          rintro ⟨v, i, hv⟩
          exact ⟨v, i, State.setCall_kept hv (by simp [hp])⟩
    · simp at h
  case unlock workerIndex =>
    obtain rfl := Option.some.inj h
    have hMine : s.mutex = some (.call u) := (sound.holder u).mpr ⟨workerIndex, hp⟩
    have hOwns : s.owner.locks ≠ true := fun hLocks => by
      simpa [hMine] using sound.owns.mpr hLocks
    refine ⟨fun w hWord hParked => Or.inr ⟨?_, Or.inr ⟨u, workerIndex, ?_⟩⟩,
      fun w hWord hParked => ?_⟩
    · refine hParked.resolve_left fun hWait => hOwns ?_
      rw [show s.owner = _ from hWait]
      rfl
    · simp [State.setCall]
    · refine (signalled.polling w hWord hParked).imp id ?_
      rintro ⟨v, i, hv⟩
      exact ⟨v, i, State.setCall_kept hv (by simp [hp])⟩
  case notify workerIndex =>
    obtain rfl := Option.some.inj h
    refine ⟨fun w hWord hParked => ?_, fun w hWord hParked => ?_⟩
    · rcases hParked with hWait | hBlocked
      · rcases signalled.waiting w hWord (Or.inl hWait) with ⟨v, i, hv⟩ | ⟨hBlocked, _⟩
        · exact Or.inl ⟨v, i, State.setCall_kept hv (by simp [hp])⟩
        · rw [show s.owner = _ from hWait] at hBlocked
          simp at hBlocked
      · refine Or.inr ⟨hBlocked, Or.inl ?_⟩
        have hOwner : s.owner = .blocked := hBlocked
        simp [State.setCall, hOwner]
    · refine (signalled.polling w hWord hParked).imp id ?_
      rintro ⟨v, i, hv⟩
      exact ⟨v, i, State.setCall_kept hv (by simp [hp])⟩

/-- Hence a notified owner is never left without a signal. -/
theorem Signalled.next {bits : Nat} {s s' : State U} {e : Event U} (signalled : Signalled s)
    (sound : Sound bits s) (h : next bits s e = some s') : Signalled s' := by
  cases e with
  | owner => exact signalled.ownerStep sound h
  | call u => exact signalled.callStep sound h
  | pollUnparked | park | guard =>
      simp only [Parker.next] at h
      split at h
      · obtain rfl := Option.some.inj h
        exact .awake (by simp [State.setOwner]) (by simp [State.setOwner])
          (by simp [State.setOwner])
      · simp at h
  | wakeUp =>
      simp only [Parker.next] at h
      split at h
      · obtain rfl := Option.some.inj h
        exact .awake (by simp [State.setOwner]) (by simp [State.setOwner])
          (by simp [State.setOwner])
      · obtain rfl := Option.some.inj h
        exact .awake (by simp [State.setOwner]) (by simp [State.setOwner])
          (by simp [State.setOwner])
      · simp at h
  | unpark u workerIndex =>
      simp only [Parker.next] at h
      split at h
      · next hp =>
          obtain rfl := Option.some.inj h
          exact signalled.call _ (by simp [hp])
      · simp at h
  | spurious u =>
      simp only [Parker.next] at h
      split at h
      · next workerIndex word hp =>
          obtain rfl := Option.some.inj h
          exact signalled.call _ (by simp [hp])
      · simp at h
  | otherPoll =>
      simp only [Parker.next] at h
      split at h
      · simp at h
      · next hFree =>
          obtain rfl := Option.some.inj h
          refine ⟨signalled.waiting, fun w _ hPoll => (hFree ?_).elim⟩
          rw [show s.owner = _ from hPoll]
          rfl
  | otherNotify =>
      obtain rfl := Option.some.inj h
      exact ⟨signalled.waiting, fun _ _ _ => Or.inl rfl⟩

theorem signalled_reachable {bits : Nat} {s : State U} (h : (system U bits).Reachable s) :
    Signalled s := by
  obtain ⟨steps, run⟩ := h
  refine run.keeps (fun _ _ => True) (Sound bits) (fun _ _ => trivial)
    (fun _ _ run _ => sound_reachable ⟨_, run⟩) ?_ fun _ _ _ sound signalled _ hNext =>
      signalled.next sound hNext
  exact .awake (by simp [system]) (by simp [system]) (by simp [system])

end Yaar.Runtime.Parker
