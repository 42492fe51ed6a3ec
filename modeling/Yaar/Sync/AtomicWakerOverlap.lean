import Yaar.Sync.AtomicWaker

/-! One `AtomicWaker` under several calls of `poll` and `reset` at once. It was made for
one, and still serves more as long as no two of them meet in the state word. -/
namespace Yaar.AtomicWaker

variable {T U W : Type*}

/-- The waker that is stored between the two exchanges of a registration. -/
def updating? : Poller W → Option W
  | .tryLock w | .store w | .swapWaiting w => some w
  | _ => none

/-- A call is about to meet another one in its registration: it loads the `UPDATING` of
the other, takes the state that both have loaded, or stores `EMPTY` over the state that
the other relies on. -/
def Clashes (state : UInt8) : Poller W → Poller W → Prop
  | .loadState _, other => state = UPDATING ∧ (updating? other).isSome
  | .swapUpdating _ seen, .swapUpdating _ _ => state = seen
  | .storeEmpty, .swapUpdating _ seen => seen = WAITING
  | .storeEmpty, other => (updating? other).isSome
  | _, _ => False

instance (state : UInt8) (at_ other : Poller W) : Decidable (Clashes state at_ other) := by
  cases at_ <;> cases other <;> unfold Clashes <;> infer_instance

/-- What the next operation of a call needs to find in the waker to go through. -/
def Serves (c : Cell U W) : Poller W → Prop
  | .loadState _ => Settled c.state
  | .swapUpdating _ seen => c.state = seen ∨ c.state = NOTIFIED
  | .tryLock _ => c.lock = none
  | .swapWaiting _ => c.state = UPDATING ∨ c.state = NOTIFIED
  | .resetLoad => c.notified = true
  | _ => True

/-- A state that some operation of the waker has written. -/
def ValidState (state : UInt8) : Prop :=
  state = EMPTY ∨ state = UPDATING ∨ state = WAITING ∨ state = NOTIFIED

/-- A call in its registration finds the state as it left it, or a wake. -/
def Suits (state : UInt8) : Poller W → Prop
  | .swapUpdating _ seen => (seen = EMPTY ∨ seen = WAITING) ∧ (state = seen ∨ state = NOTIFIED)
  | .tryLock _ | .store _ | .swapWaiting _ => state = UPDATING ∨ state = NOTIFIED
  | _ => True

/-- The calls of one waker do not get in each other's way: a call between its exchanges is
the only one past its load, and `UPDATING` is the mark of such a call. -/
structure Separate (state : UInt8) (polls : T → Poller W) : Prop where
  suits : ∀ t, Suits state (polls t)
  alone : ∀ t u, (updating? (polls t)).isSome → (updating? (polls u)).isSome → t = u
  first : ∀ t u w seen, (updating? (polls t)).isSome → polls u ≠ .swapUpdating w seen
  marked : state = UPDATING → ∃ t, (updating? (polls t)).isSome

/-- A call that has not loaded the state, or is done with it. -/
def Clear (at_ : Poller W) : Prop := updating? at_ = none ∧ ∀ w seen, at_ ≠ .swapUpdating w seen

variable {c c' : Cell U W} {polls : T → Poller W} {p p' : Poller W} {state state' : UInt8} {t : T}

theorem Clear.suits (clear : Clear p) : Suits state p := by
  obtain ⟨hUpdating, hSwap⟩ := clear
  cases p with
  | swapUpdating w seen => exact absurd rfl (hSwap w seen)
  | tryLock w | store w | swapWaiting w => simp [updating?] at hUpdating
  | _ => trivial

theorem Suits.notify (h : Suits state p) : Suits NOTIFIED p := by
  cases p with
  | swapUpdating w seen => exact ⟨h.1, .inr rfl⟩
  | tryLock w | store w | swapWaiting w => exact .inr rfl
  | _ => trivial

/-- A wake is in nobody's way. -/
theorem Separate.notify (separate : Separate state polls)
    (h : state' = state ∨ state' = NOTIFIED) : Separate state' polls := by
  obtain rfl | rfl := h
  · exact separate
  · exact ⟨fun t => (separate.suits t).notify, separate.alone, separate.first,
      fun hState => absurd hState (by decide)⟩

section Moves

variable [DecidableEq T]

/-- A call is done with the state, which it leaves fit for the others. -/
theorem Separate.leave (separate : Separate state polls) (hAfter : Clear p)
    (hOthers : ∀ u, u ≠ t → Suits state' (polls u))
    (hMarked : state' = UPDATING → ∃ u, u ≠ t ∧ (updating? (polls u)).isSome) :
    Separate state' (Function.update polls t p) := by
  have hStays : ∀ u, (updating? (Function.update polls t p u)).isSome →
      u ≠ t ∧ (updating? (polls u)).isSome := by
    intro u hThere
    have hNe : u ≠ t := by
      rintro rfl
      simp [hAfter.1] at hThere
    exact ⟨hNe, by rwa [Function.update_of_ne hNe] at hThere⟩
  refine ⟨fun u => ?_, fun u v hu hv => separate.alone u v (hStays u hu).2 (hStays v hv).2,
    fun u v w seen hThere => ?_, fun hState => ?_⟩
  · by_cases hEq : u = t
    · rw [hEq, Function.update_self]
      exact hAfter.suits
    · rw [Function.update_of_ne hEq]
      exact hOthers u hEq
  · by_cases hEq : v = t
    · rw [hEq, Function.update_self]
      exact hAfter.2 w seen
    · rw [Function.update_of_ne hEq]
      exact separate.first u v w seen (hStays u hThere).2
  · obtain ⟨u, hNe, hu⟩ := hMarked hState
    exact ⟨u, by rwa [Function.update_of_ne hNe]⟩

/-- A call moves outside of any registration. -/
theorem Separate.clear (separate : Separate state polls) (hBefore : Clear (polls t))
    (hAfter : Clear p) : Separate state (Function.update polls t p) := by
  refine separate.leave hAfter (fun u _ => separate.suits u) fun hState => ?_
  obtain ⟨u, hu⟩ := separate.marked hState
  refine ⟨u, ?_, hu⟩
  rintro rfl
  simp [hBefore.1] at hu

/-- A call goes on with its registration, which the others leave to it. -/
theorem Separate.enter (hSuits : Suits state p) (hOthers : ∀ u, u ≠ t → Suits state (polls u))
    (hUpdating : ∀ u, u ≠ t → updating? (polls u) = none)
    (hFirst : (updating? p).isSome → ∀ u, u ≠ t → ∀ w seen, polls u ≠ .swapUpdating w seen)
    (hMarked : state = UPDATING → (updating? p).isSome) :
    Separate state (Function.update polls t p) := by
  have hOnly : ∀ u, (updating? (Function.update polls t p u)).isSome → u = t := by
    intro u hThere
    by_contra hNe
    rw [Function.update_of_ne hNe, hUpdating u hNe] at hThere
    simp at hThere
  refine ⟨fun u => ?_, fun u v hu hv => (hOnly u hu).trans (hOnly v hv).symm,
    fun u v w seen hThere => ?_, fun hState => ⟨t, by rw [Function.update_self]; exact hMarked hState⟩⟩
  · by_cases hEq : u = t
    · rw [hEq, Function.update_self]
      exact hSuits
    · rw [Function.update_of_ne hEq]
      exact hOthers u hEq
  · obtain rfl := hOnly u hThere
    rw [Function.update_self] at hThere
    by_cases hEq : v = u
    · subst hEq
      rw [Function.update_self]
      rintro rfl
      simp [updating?] at hThere
    · rw [Function.update_of_ne hEq]
      exact hFirst hThere v hEq w seen

/-- A call between its exchanges goes on. -/
theorem Separate.goOn (separate : Separate state polls) (hBefore : (updating? (polls t)).isSome)
    (hAfter : (updating? p).isSome) (hSuits : Suits state p) :
    Separate state (Function.update polls t p) := by
  refine Separate.enter hSuits (fun u _ => separate.suits u) (fun u hNe => ?_)
    (fun _ u _ w seen => separate.first t u w seen hBefore) fun _ => hAfter
  by_contra hThere
  exact hNe (separate.alone u t (Option.isSome_iff_ne_none.mpr hThere) hBefore)

omit [DecidableEq T] in
/-- Where the state is neither `UPDATING` nor `NOTIFIED`, nobody is between exchanges. -/
theorem Separate.nobody (separate : Separate state polls)
    (hState : state = EMPTY ∨ state = WAITING) (u : T) : updating? (polls u) = none := by
  have hSuits := separate.suits u
  cases hAt : polls u with
  | tryLock w | store w | swapWaiting w =>
      rw [hAt] at hSuits
      obtain rfl | rfl := hState <;> simp [Suits] at hSuits
  | _ => rfl

omit [DecidableEq T] in
/-- While one call is between its exchanges, the others have not loaded the state. -/
theorem Separate.others (separate : Separate state polls) (h : (updating? (polls t)).isSome)
    {u : T} (hNe : u ≠ t) : Clear (polls u) := by
  refine ⟨?_, fun w seen => separate.first t u w seen h⟩
  by_contra hThere
  exact hNe (separate.alone u t (Option.isSome_iff_ne_none.mpr hThere) h)

variable [DecidableEq W]

/-- One operation of a call that meets no other one keeps them out of each other's way. -/
theorem Separate.poll (separate : Separate c.state polls)
    (hApart : ∀ u, u ≠ t → ¬Clashes c.state (polls t) (polls u))
    (hFine : ∀ failure, p' ≠ .panicked failure) (h : pollerStep c (polls t) = some (c', p')) :
    Separate c'.state (Function.update polls t p') := by
  have hSuits := separate.suits t
  cases hAt : polls t with
  | idle ready | panicked failure => simp [hAt, pollerStep] at h
  | loadNotified ctx | storeNotified | resetLoad | resetStore =>
      have hSame : c'.state = c.state ∧ Clear p' := by
        simp only [hAt, pollerStep] at h
        grind [Clear, updating?]
      exact hSame.1 ▸ separate.clear (by simp [hAt, Clear, updating?]) hSame.2
  | loadState ctx =>
      have hSame : c'.state = c.state ∧ (Clear p' ∨
          (c.state = EMPTY ∨ c.state = WAITING) ∧ ∃ w, p' = .swapUpdating w c.state) := by
        simp only [hAt, pollerStep] at h
        grind [Clear, updating?]
      obtain ⟨hState, hClear | ⟨hOpen, w, rfl⟩⟩ := hSame
      · exact hState ▸ separate.clear (by simp [hAt, Clear, updating?]) hClear
      · rw [hState]
        refine Separate.enter ⟨hOpen, .inl rfl⟩ (fun u _ => separate.suits u)
          (fun u _ => separate.nobody hOpen u) (by simp [updating?]) fun hMark => ?_
        obtain hOpen | hOpen := hOpen <;> simp [hOpen] at hMark
  | swapUpdating w seen =>
      rw [hAt] at hSuits
      by_cases hSeen : c.state = seen
      · -- No other call has loaded the state, so this one has it for itself.
        rw [hAt, pollerStep, if_pos hSeen] at h
        obtain ⟨rfl, rfl⟩ := Prod.ext_iff.mp (Option.some.inj h)
        have hClear : ∀ u, u ≠ t → Clear (polls u) := by
          refine fun u hNe => ⟨separate.nobody (hSeen ▸ hSuits.1) u, fun w' seen' hThere => ?_⟩
          exact hApart u hNe (by rw [hAt, hThere]; exact hSeen)
        exact Separate.enter (.inl rfl) (fun u hNe => (hClear u hNe).suits)
          (fun u hNe => (hClear u hNe).1) (fun _ u hNe => (hClear u hNe).2) fun _ => rfl
      · have hNotified := hSuits.2.resolve_left hSeen
        have hSame : c' = c ∧ p' = .storeNotified := by
          simp only [hAt, pollerStep] at h
          grind
        obtain ⟨rfl, rfl⟩ := hSame
        refine separate.leave ⟨rfl, by simp⟩ (fun u _ => separate.suits u) fun hMark => ?_
        simp [hNotified] at hMark
  | tryLock w | store w =>
      rw [hAt] at hSuits
      have hSame : c'.state = c.state ∧ (updating? p').isSome ∧ Suits c.state p' := by
        simp only [hAt, pollerStep] at h
        simp only [Suits] at hSuits
        grind [Suits, updating?]
      rw [hSame.1]
      exact separate.goOn (by simp [hAt, updating?]) hSame.2.1 hSame.2.2
  | swapWaiting w =>
      have hHere : (updating? (polls t)).isSome := by simp [hAt, updating?]
      rw [hAt] at hSuits
      have hDone : Clear p' ∧ c'.state ≠ UPDATING := by
        simp only [hAt, pollerStep] at h
        simp only [Suits] at hSuits
        grind [Clear, updating?]
      exact separate.leave hDone.1 (fun u hNe => (separate.others hHere hNe).suits)
        fun hMark => absurd hMark hDone.2
  | storeEmpty =>
      rw [hAt, pollerStep] at h
      obtain ⟨rfl, rfl⟩ := Prod.ext_iff.mp (Option.some.inj h)
      refine separate.leave ⟨rfl, by simp⟩ (fun u hNe => ?_) fun hMark =>
        absurd hMark (by decide : EMPTY ≠ UPDATING)
      have hMeets := hApart u hNe
      have hOther := separate.suits u
      rw [hAt] at hMeets
      cases hThere : polls u with
      | swapUpdating w seen =>
          rw [hThere] at hMeets hOther
          exact ⟨hOther.1, .inl (hOther.1.resolve_right hMeets).symm⟩
      | tryLock w | store w | swapWaiting w =>
          rw [hThere] at hMeets
          exact absurd rfl hMeets
      | _ => trivial

omit [DecidableEq T] [DecidableEq W] in
/-- Such a call finds what it needs, where the lock is free and the flag it resets is set. -/
theorem Separate.serves (separate : Separate c.state polls) (valid : ValidState c.state)
    (hApart : ∀ u, u ≠ t → ¬Clashes c.state (polls t) (polls u))
    (hLock : ∀ w, polls t = .tryLock w → c.lock = none)
    (hReset : polls t = .resetLoad → c.notified = true) : Serves c (polls t) := by
  have hSuits := separate.suits t
  cases hAt : polls t with
  | loadState ctx =>
      have hOpen : c.state ≠ UPDATING := by
        intro hState
        obtain ⟨u, hu⟩ := separate.marked hState
        have hNe : u ≠ t := by
          rintro rfl
          simp [hAt, updating?] at hu
        exact hApart u hNe (by rw [hAt]; exact ⟨hState, hu⟩)
      obtain h | h | h := valid
      · exact .inl h
      · exact absurd h hOpen
      · exact .inr h
  | swapUpdating w seen =>
      rw [hAt] at hSuits
      exact hSuits.2
  | tryLock w => exact hLock w hAt
  | swapWaiting w =>
      rw [hAt] at hSuits
      exact hSuits
  | resetLoad => exact hReset hAt
  | _ => trivial

end Moves

section Poller

variable [DecidableEq W]

/-- A call that finds what it needs goes through. -/
theorem pollerStep_fine (serves : Serves c p) (h : pollerStep c p = some (c', p'))
    (failure : Failure) : p' ≠ .panicked failure := by
  rintro rfl
  cases p <;> simp only [pollerStep, Serves, Settled] at h serves <;> grind

theorem pollerStep_valid (valid : ValidState c.state) (h : pollerStep c p = some (c', p')) :
    ValidState c'.state := by
  cases p <;> simp only [pollerStep] at h <;> grind [ValidState]

end Poller

/-- A single call finds what it needs but for the lock. -/
theorem PollerFacts.serves (facts : PollerFacts c p) (hLock : ∀ w, p = .tryLock w → c.lock = none) :
    Serves c p := by
  cases p with
  | loadState ctx => exact facts
  | swapUpdating w seen | resetLoad => exact facts.2
  | swapWaiting w => exact facts
  | tryLock w => exact hLock w rfl
  | _ => trivial

end Yaar.AtomicWaker
