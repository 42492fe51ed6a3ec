import Yaar.Runtime.ParkerSound

/-! Every notification is given to the owner once, by the next of its calls that sees
one, and `unpark` tells the caller whether its index was. -/
namespace Yaar.Runtime.Parker

open Machine

/-- An entry of a longer list is its last one or an entry of the list before. -/
theorem append_singleton_cases {α : Type*} {xs before after : List α} {x y : α}
    (h : xs ++ [y] = before ++ x :: after) :
    after = [] ∧ y = x ∧ xs = before ∨ ∃ first, after = first ++ [y] ∧ xs = before ++ x :: first := by
  induction after using List.reverseRecOn with
  | nil =>
      obtain ⟨hxs, hy⟩ := List.append_inj' h rfl
      exact Or.inl ⟨rfl, by simpa using hy, hxs⟩
  | append_singleton first z _ =>
      have h' : xs ++ [y] = (before ++ x :: first) ++ [z] := by simpa using h
      obtain ⟨hxs, hy⟩ := List.append_inj' h' rfl
      obtain rfl : y = z := by simpa using hy
      exact Or.inr ⟨first, rfl, hxs⟩

variable {U : Type*}

/-- A call's exchange stores a notification, or the owner takes one and returns it. -/
inductive Mark (U : Type*) where
  | sent (u : U) (workerIndex : Option Nat)
  | taken (workerIndex : Option Nat)
  deriving DecidableEq

def mark (s : State U) : Event U → Option (Mark U)
  | .call u =>
      match s.calls u with
      | .swap workerIndex word => if s.word = word then some (.sent u workerIndex) else none
      | _ => none
  | .owner =>
      match s.owner with
      | .pollStore workerIndex | .unwrapStore _ workerIndex => some (.taken workerIndex)
      | _ => none
  | _ => none

/-- The marks of a run in their order. -/
def marks (steps : List (State U × Event U)) : List (Mark U) :=
  steps.filterMap fun x => mark x.1 x.2

/-- What one call has stored. -/
def sents [DecidableEq U] (u : U) (ms : List (Mark U)) : List (Option Nat) :=
  ms.filterMap fun
    | .sent v workerIndex => if v = u then some workerIndex else none
    | .taken _ => none

/-- Notifications and the owner's calls that return them alternate. -/
structure Ledger (bits : Nat) (ms : List (Mark U)) (s : State U) : Prop where
  sent : ∀ before u w after, ms = before ++ .sent u w :: after →
    after = [] ∧ Holds bits s (.notified w) ∨ ∃ rest, after = .taken w :: rest
  taken : ∀ before w after, ms = before ++ .taken w :: after →
    ∃ first u, before = first ++ [.sent u w]
  pending : ∀ w, Holds bits s (.notified w) → ∃ first u, ms = first ++ [.sent u w]

/-- What a call has stored by where it is. -/
def Call.Stored (stored : List (Option Nat)) : Call → Prop
  | .fresh | .load _ | .swap _ _ | .panicked _ => stored = []
  | .signalNet w | .lock w | .unlock w | .notify w | .done w true => stored = [w]
  | .done (some _) false => stored = []
  | .done none false => stored = [] ∨ stored = [none]

/-- A step without a mark leaves the ledger if it leaves the notification. -/
theorem Ledger.unmarked {bits : Nat} {ms : List (Mark U)} {s s' : State U}
    (ledger : Ledger bits ms s)
    (hSame : ∀ w, Holds bits s' (.notified w) ↔ Holds bits s (.notified w)) : Ledger bits ms s' := by
  refine ⟨fun before u w after h => ?_, ledger.taken, fun w hw => ledger.pending w ((hSame w).mp hw)⟩
  exact (ledger.sent before u w after h).imp (fun hLast => ⟨hLast.1, (hSame w).mpr hLast.2⟩) id

/-- A step without a mark that leaves the word. -/
theorem Ledger.silent {bits : Nat} {ms : List (Mark U)} {s s' : State U} {e : Event U}
    (ledger : Ledger bits ms s) (hMark : mark s e = none) (hWord : s'.word = s.word) :
    Ledger bits (ms ++ (mark s e).toList) s' := by
  rw [hMark, Option.toList_none, List.append_nil]
  exact ledger.unmarked fun w => by rw [Holds, Holds, hWord]

/-- A call stores its notification where none was. -/
theorem Ledger.store {bits : Nat} {ms : List (Mark U)} {s s' : State U} {u : U} {w : Option Nat}
    (ledger : Ledger bits ms s) (hBefore : ∀ w, ¬Holds bits s (.notified w))
    (hAfter : Holds bits s' (.notified w)) : Ledger bits (ms ++ [.sent u w]) s' := by
  refine ⟨fun before v w' after h => ?_, fun before w' after h => ?_, fun w' hw' => ?_⟩
  · rcases append_singleton_cases h with ⟨rfl, hMark, rfl⟩ | ⟨first, rfl, hms⟩
    · obtain ⟨rfl, rfl⟩ : u = v ∧ w = w' := by simpa using hMark
      exact Or.inl ⟨rfl, hAfter⟩
    · rcases ledger.sent _ _ _ _ hms with ⟨rfl, hHolds⟩ | ⟨rest, rfl⟩
      · exact (hBefore _ hHolds).elim
      · exact Or.inr ⟨rest ++ [.sent u w], rfl⟩
  · rcases append_singleton_cases h with ⟨rfl, hMark, rfl⟩ | ⟨first, rfl, hms⟩
    · simp at hMark
    · exact ledger.taken _ _ _ hms
  · obtain rfl : w' = w := by simpa using hw'.unique hAfter
    exact ⟨ms, u, rfl⟩

/-- The owner takes the notification. -/
theorem Ledger.take {bits : Nat} {ms : List (Mark U)} {s s' : State U} {w : Option Nat}
    (ledger : Ledger bits ms s) (hBefore : Holds bits s (.notified w))
    (hAfter : ∀ w, ¬Holds bits s' (.notified w)) : Ledger bits (ms ++ [.taken w]) s' := by
  refine ⟨fun before u w' after h => ?_, fun before w' after h => ?_,
    fun w' hw' => (hAfter w' hw').elim⟩
  · rcases append_singleton_cases h with ⟨rfl, hMark, rfl⟩ | ⟨first, rfl, hms⟩
    · simp at hMark
    · rcases ledger.sent _ _ _ _ hms with ⟨rfl, hHolds⟩ | ⟨rest, rfl⟩
      · obtain rfl : w' = w := by simpa using hHolds.unique hBefore
        exact Or.inr ⟨[], rfl⟩
      · exact Or.inr ⟨rest ++ [.taken w], rfl⟩
  · rcases append_singleton_cases h with ⟨rfl, hMark, rfl⟩ | ⟨first, rfl, hms⟩
    · obtain rfl : w = w' := by simpa using hMark
      exact ledger.pending w hBefore
    · exact ledger.taken _ _ _ hms

/-- The owner's exchange leaves a notification as it is. -/
theorem State.exchange_notified {bits : Nat} {s : State U} {current new : ParkState}
    {success failure : Owner} (hCurrent : ∀ w, current ≠ .notified w)
    (hNew : ∀ w, new ≠ .notified w) (w : Option Nat) :
    Holds bits (s.exchange bits current new success failure) (.notified w) ↔
      Holds bits s (.notified w) := by
  simp only [State.exchange]
  split
  · next a b ha hb =>
      split
      · next hWord =>
          have hBefore : Holds bits s current := by rw [Holds, hWord, ha]
          have hAfter : Holds bits ({ s with word := b }.setOwner success) new := hb
          exact ⟨fun h => (hNew w (hAfter.unique h)).elim,
            fun h => (hCurrent w (hBefore.unique h)).elim⟩
      · rfl
  · rfl

/-- A step of the owner keeps the ledger: a notification is taken once, and only if it
is there. -/
theorem Ledger.ownerStep {bits : Nat} {ms : List (Mark U)} {s s' : State U}
    (ledger : Ledger bits ms s) (sound : Sound bits s) (h : ownerStep bits s = some s') :
    Ledger bits (ms ++ (mark s .owner).toList) s' := by
  obtain ⟨state, hState, hOwner⟩ := sound.word
  have hParked : ∀ isPolling w, ParkState.parked isPolling ≠ .notified w := by
    intro isPolling w
    cases isPolling <;> simp [ParkState.parked]
  have hTake : ∀ owner w, state = .notified w →
      Ledger bits (ms ++ [.taken w]) ({ s with word := 0 }.setOwner owner) := by
    rintro owner w rfl
    refine ledger.take hState fun w' h => ?_
    have hEmpty : Holds bits ({ s with word := 0 }.setOwner owner) .empty := rfl
    exact absurd (hEmpty.unique h) (by simp)
  cases hp : s.owner <;> simp only [Parker.ownerStep, hp, reduceCtorEq] at h <;>
    simp only [hp, Owner.Ok] at hOwner <;> simp only [mark, hp, Option.toList, List.append_nil]
  case pollStore w =>
    obtain rfl := Option.some.inj h
    obtain ⟨rfl, hNotified⟩ := hOwner
    exact hTake _ _ hNotified
  case unwrapStore guarded w =>
    obtain rfl := Option.some.inj h
    exact hTake _ _ hOwner
  case swapParked isPolling =>
    obtain rfl := Option.some.inj h
    exact ledger.unmarked (State.exchange_notified (by simp) (hParked isPolling))
  case swapEmpty isPolling =>
    obtain rfl := Option.some.inj h
    exact ledger.unmarked (State.exchange_notified (hParked isPolling) (by simp))
  case lock | relock =>
    split at h
    · obtain rfl := Option.some.inj h
      exact ledger.unmarked fun _ => Iff.rfl
    · simp at h
  all_goals
    obtain rfl := Option.some.inj h
    exact ledger.unmarked fun _ => Iff.rfl

variable [DecidableEq U]

/-- So does a step of a call: it stores a notification only where none is pending. -/
theorem Ledger.callStep {bits : Nat} {ms : List (Mark U)} {s s' : State U} {u : U}
    (ledger : Ledger bits ms s) (sound : Sound bits s) (h : callStep bits s u = some s') :
    Ledger bits (ms ++ (mark s (.call u)).toList) s' := by
  have hCall := sound.calls u
  cases hp : s.calls u <;> simp only [Parker.callStep, hp, reduceCtorEq] at h
  case swap workerIndex word =>
    obtain rfl := Option.some.inj h
    rw [hp] at hCall
    obtain ⟨⟨state, hDecode, hUnpark⟩, hAccepted⟩ := hCall
    split
    · next hWord =>
        simp only [mark, hp, hWord, if_true, Option.toList]
        refine ledger.store (fun w hNotified => ?_) ?_
        · rw [← hWord, hNotified.decode] at hDecode
          obtain rfl := Option.some.inj hDecode
          simp [ParkState.unpark] at hUnpark
        · obtain ⟨word', hWord'⟩ := Option.isSome_iff_exists.mp hAccepted
          simp [Holds, State.setCall, hWord']
    · next hWord => exact ledger.silent (by simp [mark, hp, hWord]) rfl
  case lock workerIndex =>
    split at h
    · obtain rfl := Option.some.inj h
      exact ledger.silent (by simp [mark, hp]) rfl
    · simp at h
  all_goals
    obtain rfl := Option.some.inj h
    exact ledger.silent (by simp [mark, hp]) rfl

/-- Hence sending and taking alternate along the marks of a run. -/
theorem Ledger.next {bits : Nat} {ms : List (Mark U)} {s s' : State U} {e : Event U}
    (ledger : Ledger bits ms s) (sound : Sound bits s) (h : next bits s e = some s') :
    Ledger bits (ms ++ (mark s e).toList) s' := by
  cases e with
  | owner => exact ledger.ownerStep sound h
  | call u => exact ledger.callStep sound h
  | otherNotify =>
      obtain rfl := Option.some.inj h
      exact ledger.silent rfl rfl
  | wakeUp =>
      simp only [Parker.next] at h
      split at h
      · obtain rfl := Option.some.inj h
        exact ledger.silent rfl rfl
      · obtain rfl := Option.some.inj h
        exact ledger.silent rfl rfl
      · simp at h
  | spurious u =>
      simp only [Parker.next] at h
      split at h
      · obtain rfl := Option.some.inj h
        exact ledger.silent rfl rfl
      · simp at h
  | otherPoll =>
      simp only [Parker.next] at h
      split at h
      · simp at h
      · obtain rfl := Option.some.inj h
        exact ledger.silent rfl rfl
  | _ =>
      simp only [Parker.next] at h
      split at h
      · obtain rfl := Option.some.inj h
        exact ledger.silent rfl rfl
      · simp at h

@[simp] theorem sents_append (u : U) (first second : List (Mark U)) :
    sents u (first ++ second) = sents u first ++ sents u second := by
  simp [sents]

@[simp] theorem sents_sent (u v : U) (w : Option Nat) :
    sents u [.sent v w] = if v = u then [w] else [] := by
  simp only [sents, List.filterMap_cons, List.filterMap_nil]
  split <;> simp_all

/-- A call that has stored nothing yet may end or go on to its exchange. -/
theorem Call.Stored.update {bits : Nat} {workerIndex : Option Nat} {word : Nat}
    {stored : List (Option Nat)} (h : stored = []) :
    (update bits workerIndex word).Stored stored := by
  unfold Parker.update
  split
  · exact h
  · split
    · cases workerIndex with
      | none => exact Or.inl h
      | some i => exact h
    · split <;> exact h

/-- What a step of its own does to what a call has stored. -/
theorem Call.Stored.step {bits : Nat} {ms : List (Mark U)} {s s' : State U} {u : U}
    (stored : (s.calls u).Stored (sents u ms)) (sound : Sound bits s)
    (h : callStep bits s u = some s') :
    (s'.calls u).Stored (sents u (ms ++ (mark s (.call u)).toList)) := by
  have hCall := sound.calls u
  have hSilent : ∀ call : Call, mark s (.call u) = none → call.Stored (sents u ms) →
      call.Stored (sents u (ms ++ (mark s (.call u)).toList)) := by
    intro call hMark hStored
    rwa [hMark, Option.toList_none, List.append_nil]
  cases hp : s.calls u <;> simp only [Parker.callStep, hp, reduceCtorEq] at h <;>
    rw [hp] at stored
  case load workerIndex =>
    obtain rfl := Option.some.inj h
    simp only [State.setCall, Function.update_self]
    exact hSilent _ (by simp [mark, hp]) (Call.Stored.update stored)
  case swap workerIndex word =>
    obtain rfl := Option.some.inj h
    rw [hp] at hCall
    obtain ⟨⟨state, hDecode, hUnpark⟩, _⟩ := hCall
    have hNone : sents u ms = [] := stored
    split
    · next hWord =>
        have hSent : sents u (ms ++ (mark s (.call u)).toList) = [workerIndex] := by
          simp [mark, hp, hWord, hNone]
        rw [hSent]
        simp only [State.setCall, Function.update_self, signal, hDecode]
        cases state with
        | empty =>
            cases workerIndex with
            | none => exact Or.inr rfl
            | some i => simp [ParkState.unpark] at hUnpark
        | notified w => simp [ParkState.unpark] at hUnpark
        | _ => rfl
    · next hWord =>
        simp only [State.setCall, Function.update_self]
        exact hSilent _ (by simp [mark, hp, hWord]) (Call.Stored.update hNone)
  case lock workerIndex =>
    split at h
    · obtain rfl := Option.some.inj h
      simp only [State.setCall, Function.update_self]
      exact hSilent _ (by simp [mark, hp]) stored
    · simp at h
  all_goals
    obtain rfl := Option.some.inj h
    simp only [State.setCall, Function.update_self]
    exact hSilent _ (by simp [mark, hp]) stored

/-- What a call has stored is by its own steps. -/
theorem sents_mark_of_ne {s : State U} {e : Event U} {u : U} (h : e ≠ .call u) :
    sents u (mark s e).toList = [] := by
  cases e with
  | call v =>
      have hNe : v ≠ u := fun hv => h (hv ▸ rfl)
      simp only [mark]
      split
      · split <;> simp [sents, hNe]
      · rfl
  | owner =>
      simp only [mark]
      split <;> rfl
  | _ => rfl

omit [DecidableEq U] in
theorem ownerStep_calls {bits : Nat} {s s' : State U} (h : ownerStep bits s = some s') :
    s'.calls = s.calls := by
  have hExchange : ∀ current new success failure,
      (s.exchange bits current new success failure).calls = s.calls := by
    intro current new success failure
    simp only [State.exchange]
    split
    · split <;> rfl
    · rfl
  cases hp : s.owner <;> simp only [Parker.ownerStep, hp, reduceCtorEq] at h
  case lock | relock =>
    split at h
    · obtain rfl := Option.some.inj h
      rfl
    · simp at h
  all_goals
    obtain rfl := Option.some.inj h
    first
    | rfl
    | exact hExchange ..

theorem callStep_calls_of_ne {bits : Nat} {s s' : State U} {u v : U}
    (h : callStep bits s v = some s') (hNe : u ≠ v) : s'.calls u = s.calls u := by
  cases hp : s.calls v <;> simp only [Parker.callStep, hp, reduceCtorEq] at h
  case lock =>
    split at h
    · obtain rfl := Option.some.inj h
      simp [State.setCall, hNe]
    · simp at h
  case swap =>
    obtain rfl := Option.some.inj h
    split <;> simp [State.setCall, hNe]
  all_goals
    obtain rfl := Option.some.inj h
    simp [State.setCall, hNe]

/-- A step that is not its own leaves a call, begins it or fails its exchange. -/
theorem Call.Stored.other {bits : Nat} {stored : List (Option Nat)} {s s' : State U} {e : Event U}
    {u : U} (hStored : (s.calls u).Stored stored) (h : next bits s e = some s')
    (hOther : e ≠ .call u) : (s'.calls u).Stored stored := by
  cases e with
  | owner => rwa [ownerStep_calls h]
  | call v => rwa [callStep_calls_of_ne h fun hv => hOther (hv ▸ rfl)]
  | unpark v w =>
      simp only [Parker.next] at h
      split at h
      · next hFresh =>
          obtain rfl := Option.some.inj h
          by_cases hv : u = v
          · subst hv
            rw [hFresh] at hStored
            simp only [State.setCall, Function.update_self]
            exact hStored
          · simpa [State.setCall, hv] using hStored
      · simp at h
  | spurious v =>
      simp only [Parker.next] at h
      split at h
      · next w word hSwap =>
          obtain rfl := Option.some.inj h
          by_cases hv : u = v
          · subst hv
            rw [hSwap] at hStored
            simpa [State.setCall] using Call.Stored.update hStored
          · simpa [State.setCall, hv] using hStored
      · simp at h
  | otherNotify =>
      obtain rfl := Option.some.inj h
      exact hStored
  | wakeUp =>
      simp only [Parker.next] at h
      split at h
      · obtain rfl := Option.some.inj h
        exact hStored
      · obtain rfl := Option.some.inj h
        exact hStored
      · simp at h
  | otherPoll =>
      simp only [Parker.next] at h
      split at h
      · simp at h
      · obtain rfl := Option.some.inj h
        exact hStored
  | _ =>
      simp only [Parker.next] at h
      split at h
      · obtain rfl := Option.some.inj h
        exact hStored
      · simp at h

/-- One step keeps what every call has stored. -/
theorem Call.Stored.next {bits : Nat} {ms : List (Mark U)} {s s' : State U} {e : Event U} {u : U}
    (stored : (s.calls u).Stored (sents u ms)) (sound : Sound bits s)
    (h : next bits s e = some s') :
    (s'.calls u).Stored (sents u (ms ++ (mark s e).toList)) := by
  by_cases he : e = .call u
  · subst he
    exact stored.step sound h
  · rw [sents_append, sents_mark_of_ne he, List.append_nil]
    exact stored.other h he

omit [DecidableEq U] in
theorem marks_append (steps : List (State U × Event U)) (s : State U) (e : Event U) :
    marks (steps ++ [(s, e)]) = marks steps ++ (mark s e).toList := by
  simp only [marks, List.filterMap_append, List.filterMap_cons, List.filterMap_nil]
  cases mark s e <;> rfl

/-- What holds of the notifications after a run. -/
theorem ledger_run {bits : Nat} {steps : List (State U × Event U)} {s : State U}
    (run : (system U bits).Run steps s) :
    Ledger bits (marks steps) s ∧ ∀ u, (s.calls u).Stored (sents u (marks steps)) := by
  induction run with
  | refl =>
      refine ⟨⟨fun before u w after h => ?_, fun before w after h => ?_, fun w h => ?_⟩, fun _ => rfl⟩
      · simp [marks] at h
      · simp [marks] at h
      · have hEmpty : Holds bits (system U bits).initial .empty := rfl
        exact absurd (hEmpty.unique h) (by simp)
  | step prior last ih =>
      have sound := sound_reachable ⟨_, prior⟩
      rw [marks_append]
      exact ⟨ih.1.next sound last, fun u => (ih.2 u).next sound last⟩

/-- What the callers of `unpark` and the owner of the parker are promised. -/
structure Handshake (bits : Nat) (steps : List (State U × Event U)) (s : State U) : Prop where
  /-- `unpark(Some(i))` has stored its index once if it returns true, and else not. -/
  returned : ∀ u i result, s.calls u = .done (some i) result →
    sents u (marks steps) = if result then [some i] else []
  /-- `unpark(None)` has stored no index, and the notification if it returns true. -/
  returnedNone : ∀ u result, s.calls u = .done none result →
    sents u (marks steps) = [none] ∨ result = false ∧ sents u (marks steps) = []
  /-- A notification is the one that the next call of the owner to see one returns. -/
  delivered : ∀ before u w after, marks steps = before ++ .sent u w :: after →
    after = [] ∧ decode s.word = some (.notified w) ∨ ∃ rest, after = .taken w :: rest
  /-- The owner returns nothing else. -/
  caused : ∀ before w after, marks steps = before ++ .taken w :: after →
    ∃ first u, before = first ++ [.sent u w]
  signalled : Signalled s
  lossless : ∀ state word, encode bits state = some word → decode word = some state
  /-- No `unwrap` fails and no `unreachable` is reached, and a call fails at the
  assertion for an index it does not accept only. -/
  noPanic : s.owner ≠ .panicked ∧ ∀ u w, s.calls u = .panicked w → ¬Accepted bits (.notified w)

/-- In every interleaving of the owner with any calls of `unpark` each index that a
caller is told to be delivered is delivered once. -/
theorem handshake_run {bits : Nat} {steps : List (State U × Event U)} {s : State U}
    (run : (system U bits).Run steps s) : Handshake bits steps s := by
  obtain ⟨ledger, stored⟩ := ledger_run run
  have sound := sound_reachable ⟨_, run⟩
  refine ⟨fun u i result h => ?_, fun u result h => ?_, fun before u w after h => ?_, ledger.taken,
    signalled_reachable ⟨_, run⟩, fun _ _ => decode_encode, ?_, fun u w h => ?_⟩
  · have hStored := stored u
    rw [h] at hStored
    cases result <;> exact hStored
  · have hStored := stored u
    rw [h] at hStored
    cases result with
    | false => exact hStored.symm.imp id fun hNone => ⟨rfl, hNone⟩
    | true => exact Or.inl hStored
  · exact (ledger.sent before u w after h).imp (fun hLast => ⟨hLast.1, hLast.2.decode⟩) id
  · rintro hPanicked
    obtain ⟨state, _, hOwner⟩ := sound.word
    rw [hPanicked] at hOwner
    exact hOwner
  · have hCall := sound.calls u
    rwa [h] at hCall

/-- A waiting owner is given the index of a call that returns true. -/
def waitingOwner : List (Event Unit) :=
  [.park, .guard false, .owner, .owner, .owner, .owner, .unpark () (some 1), .call (), .call (),
    .call (), .call (), .call (), .wakeUp, .owner, .owner, .owner, .owner, .owner, .owner]

/-- A waiting owner returns the index that a call has stored, and that call returns
true. -/
theorem handshake_waitingOwner : ∃ (steps : List (State Unit × Event Unit)) (s : State Unit),
    s.calls () = .done (some 1) true ∧ marks steps = [.sent () (some 1), .taken (some 1)] ∧
      Handshake 64 steps s := by
  obtain ⟨s, run, hs⟩ := (system Unit 64).exists_run_of_replay waitingOwner (fun s => s.calls ())
    (.done (some 1) true) (by decide)
  exact ⟨_, s, hs, by decide, handshake_run run⟩

/-- `unpark(None)` finds a thread that is not parked, and `poll_unparked` follows. -/
def idleOwner : List (Event Unit) :=
  [.unpark () none, .call (), .call (), .pollUnparked, .owner, .owner]

/-- A call that returns false may leave a notification, though one with no index. -/
theorem falseCall_delivers : ∃ (steps : List (State Unit × Event Unit)) (s : State Unit),
    (system Unit 64).Run steps s ∧ s.calls () = .done none false ∧
      marks steps = [.sent () none, .taken none] ∧ s.owner = .idle := by
  obtain ⟨s, run, hs⟩ := (system Unit 64).exists_run_of_replay idleOwner
    (fun s => (s.calls (), s.owner)) (.done none false, .idle) (by decide)
  exact ⟨_, s, run, congrArg Prod.fst hs, by decide, congrArg Prod.snd hs⟩

end Yaar.Runtime.Parker
