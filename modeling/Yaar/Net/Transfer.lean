import Yaar.Net.ReactorProgress

/-! Connections between tasks: one task writes a message to its socket by `poll_write` and
drops its half, another reads from the peer by `poll_read` until a read returns no bytes. A
socket may have both a reader and a writer, as the halves of `into_split` are. -/
namespace Yaar.Net.Transfer

open Machine Reactor Yaar.Runtime.TaskState

instance : Fintype WakerKind := ⟨{.Read, .Write}, fun kind => by cases kind <;> simp⟩

/-- The sizes of the buffers of a connection. A socket is writable from a `mark` on. -/
structure Limits where
  room : Nat
  mark : Nat
  window : Nat
  mark_pos : 0 < mark
  mark_le : mark ≤ room
  window_pos : 0 < window

/-- The bytes of a message on their way: in the task that writes, in the buffers of the two
sockets and in the task that reads. -/
structure Conn where
  unsent : List UInt8
  sending : List UInt8
  receiving : List UInt8
  received : List UInt8
  /-- the writer has dropped its half, which shuts the socket down for writes -/
  closed : Bool
  /-- the peer has been told -/
  ended : Bool
  /-- a read has returned no bytes -/
  eof : Bool

namespace Conn

def new (message : List UInt8) : Conn := ⟨message, [], [], [], false, false, false⟩

/-- A `write` of some bytes. -/
def write (limits : Limits) (c : Conn) (n : Nat) : Option Conn :=
  if 0 < n ∧ n ≤ c.unsent.length ∧ c.sending.length + n ≤ limits.room then
    some { c with unsent := c.unsent.drop n, sending := c.sending ++ c.unsent.take n }
  else none

/-- A `read`. It returns no bytes at the end only. -/
def read (c : Conn) (n : Nat) : Option Conn :=
  if 0 < n ∧ n ≤ c.receiving.length then
    some { c with receiving := c.receiving.drop n, received := c.received ++ c.receiving.take n }
  else if n = 0 ∧ c.receiving = [] ∧ c.ended = true then some { c with eof := true }
  else none

/-- The network takes bytes from one socket to the other. -/
def transmit (limits : Limits) (c : Conn) (n : Nat) : Option Conn :=
  if 0 < n ∧ n ≤ c.sending.length ∧ c.receiving.length + n ≤ limits.window then
    some { c with sending := c.sending.drop n, receiving := c.receiving ++ c.sending.take n }
  else none

def close (c : Conn) : Option Conn :=
  if c.closed = true ∧ c.sending = [] ∧ c.ended = false then some { c with ended := true } else none

/-- The operation of a task would not block. -/
def ready (limits : Limits) (c : Conn) : WakerKind → Bool
  | .Write => decide (c.sending.length + limits.mark ≤ limits.room)
  | .Read => !c.receiving.isEmpty || c.ended

def goesOn (c : Conn) : WakerKind → Bool
  | .Write => !c.unsent.isEmpty
  | .Read => !c.eof

def operate (limits : Limits) (c : Conn) : WakerKind → Nat → Option Conn
  | .Write, n => c.write limits n
  | .Read, n => c.read n

def finish (c : Conn) : WakerKind → Conn
  | .Write => { c with closed := true }
  | .Read => c

/-- An end of a connection that goes on and is ready has an operation that succeeds: one
byte at least can be written or read, or the end is found. -/
theorem able {limits : Limits} {c : Conn} {kind : WakerKind} (hMore : c.goesOn kind = true)
    (hReady : c.ready limits kind = true) : ∃ n, (c.operate limits kind n).isSome := by
  cases kind with
  | Write =>
      have hSome : 0 < c.unsent.length := by
        rw [List.length_pos_iff]
        simpa [goesOn] using hMore
      have hRoom : c.sending.length + limits.mark ≤ limits.room := by simpa [ready] using hReady
      have hMark := limits.mark_pos
      exact ⟨1, by rw [operate, write, if_pos ⟨Nat.one_pos, hSome, by omega⟩]; rfl⟩
  | Read =>
      by_cases hEmpty : c.receiving = []
      · have hEnded : c.ended = true := by simpa [ready, hEmpty] using hReady
        exact ⟨0, by simp [operate, read, hEmpty, hEnded]⟩
      · have hSome : 0 < c.receiving.length := List.length_pos_iff.mpr hEmpty
        exact ⟨1, by rw [operate, read, if_pos ⟨Nat.one_pos, hSome⟩]; rfl⟩

/-- An operation of one task of a connection is not one of the other. -/
theorem operate_other {limits : Limits} {c c' : Conn} {kind other : WakerKind} {n : Nat}
    (h : c.operate limits kind n = some c') (hNe : other ≠ kind) : c'.goesOn other = c.goesOn other := by
  cases kind <;> cases other <;> simp only [ne_eq, not_true_eq_false] at hNe
  · simp only [operate, read] at h
    split at h
    · rw [← Option.some.inj h]; rfl
    · split at h
      · rw [← Option.some.inj h]; rfl
      · cases h
  · simp only [operate, write] at h
    split at h
    · rw [← Option.some.inj h]; rfl
    · cases h

/-! ## The bytes of a message -/

/-- Every byte is somewhere, in order, and the end comes after the last of them. -/
structure Sound (message : List UInt8) (c : Conn) : Prop where
  bytes : c.received ++ c.receiving ++ c.sending ++ c.unsent = message
  closed : c.closed = true → c.unsent = []
  ended : c.ended = true → c.closed = true ∧ c.sending = []
  eof : c.eof = true → c.ended = true ∧ c.receiving = []

/-- The operations that are ahead: a byte is written, transmitted and read, and the end is
told and found. -/
def ahead (c : Conn) : Nat :=
  3 * c.unsent.length + 2 * c.sending.length + c.receiving.length +
    ((if c.ended then 0 else 1) + if c.eof then 0 else 1)

variable {limits : Limits} {message : List UInt8} {c c' : Conn} {n : Nat}

/-- At the start the whole message is unsent and no end has been reached. -/
theorem Sound.new : Sound message (.new message) := ⟨rfl, by simp [Conn.new], by simp [Conn.new],
  by simp [Conn.new]⟩

/-- An operation that brings a connection closer to its end. -/
structure Closer (message : List UInt8) (c c' : Conn) : Prop where
  sound : Sound message c'
  ahead : c'.ahead + 1 ≤ c.ahead
  closed : c.closed = true → c'.closed = true
  eof : c.eof = true → c'.eof = true

/-- A write moves bytes from the message to the socket. The order of what is left and
what is under way stays. -/
theorem Sound.write (sound : Sound message c) (h : c.write limits n = some c') :
    Closer message c c' := by
  unfold Conn.write at h
  split at h
  · next hGuard =>
      obtain ⟨hPos, hLength, -⟩ := hGuard
      obtain rfl := Option.some.inj h
      have hOpen : c.closed ≠ true := fun hClosed => by simp [sound.closed hClosed] at hLength; omega
      refine ⟨⟨?_, fun hClosed => absurd hClosed hOpen,
        fun hEnded => absurd (sound.ended hEnded).1 hOpen, sound.eof⟩, ?_, id, id⟩
      · rw [← sound.bytes]
        simp
      · simp only [Conn.ahead, List.length_drop, List.length_append, List.length_take]
        omega
  · cases h

/-- A read moves bytes to the message that has been received. It finds the end only once
nothing is under way. -/
theorem Sound.read (sound : Sound message c) (hMore : c.eof = false) (h : c.read n = some c') :
    Closer message c c' := by
  unfold Conn.read at h
  split at h
  · next hGuard =>
      obtain rfl := Option.some.inj h
      refine ⟨⟨?_, sound.closed, sound.ended, fun hEof => by simp [hMore] at hEof⟩, ?_,
        id, id⟩
      · rw [← sound.bytes]
        simp
      · simp only [Conn.ahead, List.length_drop]
        omega
  · split at h
    · next hGuard =>
        obtain rfl := Option.some.inj h
        refine ⟨⟨sound.bytes, sound.closed, sound.ended, fun _ => ⟨hGuard.2.2, hGuard.2.1⟩⟩,
          ?_, id, fun _ => rfl⟩
        simp [Conn.ahead, hMore]
    · cases h

/-- Any operation of a task brings its connection closer to the end, as a task operates
only while it goes on. -/
theorem Sound.operate {kind : WakerKind} (sound : Sound message c) (hMore : c.goesOn kind = true)
    (h : c.operate limits kind n = some c') : Closer message c c' := by
  cases kind with
  | Write => exact sound.write h
  | Read => exact sound.read (by simpa [goesOn] using hMore) h

/-- So does the network when it moves bytes from one socket to the other. -/
theorem Sound.transmit (sound : Sound message c) (h : c.transmit limits n = some c') :
    Closer message c c' := by
  unfold Conn.transmit at h
  split at h
  · next hGuard =>
      obtain ⟨hPos, hLength, -⟩ := hGuard
      obtain rfl := Option.some.inj h
      have hOpen : c.ended ≠ true := fun hEnded => by simp [(sound.ended hEnded).2] at hLength; omega
      refine ⟨⟨?_, sound.closed, fun hEnded => absurd hEnded hOpen,
        fun hEof => absurd (sound.eof hEof).1 hOpen⟩, ?_, id, id⟩
      · rw [← sound.bytes]
        simp
      · simp only [Conn.ahead, List.length_drop, List.length_append, List.length_take]
        omega
  · cases h

/-- The peer is told of the end after the last byte has been transmitted. -/
theorem Sound.close (sound : Sound message c) (h : c.close = some c') :
    Closer message c c' := by
  unfold Conn.close at h
  split at h
  · next hGuard =>
      obtain ⟨hClosed, hSent, hOpen⟩ := hGuard
      obtain rfl := Option.some.inj h
      refine ⟨⟨sound.bytes, sound.closed, fun _ => ⟨hClosed, hSent⟩,
        fun hEof => ⟨rfl, (sound.eof hEof).2⟩⟩, ?_, id, id⟩
      simp [Conn.ahead, hOpen]
  · cases h

/-- A task that returns adds nothing to its connection but that the writer has closed
its half. -/
theorem Sound.finish {kind : WakerKind} (sound : Sound message c) (hNoMore : c.goesOn kind = false) :
    Sound message (c.finish kind) ∧ (c.finish kind).ahead = c.ahead := by
  cases kind with
  | Write =>
      refine ⟨⟨sound.bytes, fun _ => by simpa [goesOn, Conn.finish] using hNoMore,
        fun hEnded => ⟨rfl, (sound.ended hEnded).2⟩, sound.eof⟩, rfl⟩
  | Read => exact ⟨sound, rfl⟩

end Conn

/-! ## The tasks of the connections -/

section Program

variable {C : Type*} [DecidableEq C]

inductive Network (C : Type*) where
  | transmit (i : C) (n : Nat)
  | close (i : C)
  deriving DecidableEq

/-- A task for each end of a connection: the one that writes and the one that reads. -/
def device (limits : C → Limits) : Device (C × WakerKind) (C → Conn) (Network C) where
  ready d t := (d t.1).ready (limits t.1) t.2
  goesOn d t := (d t.1).goesOn t.2
  operate d t n := ((d t.1).operate (limits t.1) t.2 n).map (Function.update d t.1)
  finish d t := Function.update d t.1 ((d t.1).finish t.2)
  outside d
    | .transmit i n => ((d i).transmit (limits i) n).map (Function.update d i)
    | .close i => (d i).close.map (Function.update d i)
  able d t hMore hReady := by
    obtain ⟨n, hSome⟩ := Conn.able hMore hReady
    exact ⟨n, by rwa [Option.isSome_map]⟩
  operate_others d t n d' u h hNe := by
    obtain ⟨c, hConn, rfl⟩ := Option.map_eq_some_iff.mp h
    by_cases hEq : u.1 = t.1
    · have hKind : u.2 ≠ t.2 := fun hKind => hNe (Prod.ext hEq hKind)
      rw [hEq, Function.update_self, Conn.operate_other hConn hKind]
    · rw [Function.update_of_ne hEq]
  finish_others d t u hNe := by
    by_cases hEq : u.1 = t.1
    · rw [hEq, Function.update_self]
      cases t.2 <;> cases u.2 <;> rfl
    · rw [Function.update_of_ne hEq]
  outside_others d e d' u h := by
    have hSame (i : C) (c : Conn) (hUnsent : c.unsent = (d i).unsent) (hEof : c.eof = (d i).eof) :
        (Function.update d i c u.1).goesOn u.2 = (d u.1).goesOn u.2 := by
      by_cases hEq : u.1 = i
      · rw [hEq, Function.update_self]
        cases u.2 <;> simp [Conn.goesOn, hUnsent, hEof]
      · rw [Function.update_of_ne hEq]
    cases e with
    | transmit i n =>
        obtain ⟨c, hConn, rfl⟩ := Option.map_eq_some_iff.mp h
        unfold Conn.transmit at hConn
        split at hConn
        · exact hSame i c (by rw [← Option.some.inj hConn]) (by rw [← Option.some.inj hConn])
        · cases hConn
    | close i =>
        obtain ⟨c, hConn, rfl⟩ := Option.map_eq_some_iff.mp h
        unfold Conn.close at hConn
        split at hConn
        · exact hSame i c (by rw [← Option.some.inj hConn]) (by rw [← Option.some.inj hConn])
        · cases hConn

/-- The writers have different sockets, and so have the readers. -/
def program (limits : C → Limits) (socket : C → WakerKind → SocketId)
    (apart : ∀ kind, Function.Injective fun i => socket i kind) :
    Program (C × WakerKind) (C → Conn) (Network C) where
  pair t := (socket t.1 t.2, t.2)
  apart := by
    rintro ⟨i, kind⟩ ⟨j, kind'⟩ hEq
    obtain ⟨hSocket, rfl⟩ := Prod.mk.inj hEq
    exact Prod.ext (apart kind hSocket) rfl
  device := device limits

variable [Fintype C] {V : Type*} {L : Layout} {limits : C → Limits}
  {socket : C → WakerKind → SocketId} {apart : ∀ kind, Function.Injective fun i => socket i kind}
  {message : C → List UInt8} {s s' : Reactor.State (C × WakerKind) V (C → Conn)}
  {e : Reactor.Event (C × WakerKind) V (Network C)}

/-- The connections while their tasks run. -/
structure Going (message : C → List UInt8) (s : Reactor.State (C × WakerKind) V (C → Conn)) : Prop where
  sound : ∀ i, (s.device i).Sound (message i)
  written : ∀ i, s.phases (i, .Write) = .done → (s.device i).closed = true
  read : ∀ i, s.phases (i, .Read) = .done → (s.device i).eof = true

/-- The tasks that have not returned. -/
def unfinished (phase : Phase) : Nat := if phase = .done then 0 else 1

def ahead (s : Reactor.State (C × WakerKind) V (C → Conn)) : Nat :=
  Tally.total Conn.ahead s.device + Tally.total unfinished s.phases

/-- The events that are nobody's. -/
def surprises : Reactor.Event (C × WakerKind) V (Network C) → Bool
  | .interrupt _ | .spurious _ _ => true
  | _ => false

omit [Fintype C] in
theorem Going.sound_update {i : C} {c : Conn} (going : Going message s)
    (hDevice : s'.device = Function.update s.device i c) (h : c.Sound (message i)) (j : C) :
    (s'.device j).Sound (message j) := by
  rw [hDevice]
  by_cases hEq : j = i
  · subst hEq
    rwa [Function.update_self]
  · rw [Function.update_of_ne hEq]
    exact going.sound j

/-- An operation on a connection brings it closer to the end. -/
theorem Going.moves {i : C} {c : Conn} (going : Going message s)
    (hDevice : s'.device = Function.update s.device i c) (hPhases : s'.phases = s.phases)
    (closer : (s.device i).Closer (message i) c) : Going message s' ∧ ahead s' + 1 ≤ ahead s := by
  have hFlags (j : C) : ((s.device j).closed = true → (s'.device j).closed = true) ∧
      ((s.device j).eof = true → (s'.device j).eof = true) := by
    rw [hDevice]
    by_cases hEq : j = i
    · subst hEq
      rw [Function.update_self]
      exact ⟨closer.closed, closer.eof⟩
    · rw [Function.update_of_ne hEq]
      exact ⟨id, id⟩
  refine ⟨⟨going.sound_update hDevice closer.sound,
    fun j hDone => (hFlags j).1 (going.written j (hPhases ▸ hDone)),
    fun j hDone => (hFlags j).2 (going.read j (hPhases ▸ hDone))⟩, ?_⟩
  have hTotal := Tally.total_update Conn.ahead s.device i c
  have hCloser := closer.ahead
  unfold ahead
  rw [hDevice, hPhases]
  omega

/-- A task returns. -/
theorem Going.finish {t : C × WakerKind} (going : Going message s)
    (hNoMore : (s.device t.1).goesOn t.2 = false) (hPhase : s.phases t ≠ .done)
    (hDevice : s'.device = Function.update s.device t.1 ((s.device t.1).finish t.2))
    (hPhases : s'.phases = Function.update s.phases t .done) :
    Going message s' ∧ ahead s' + 1 ≤ ahead s := by
  obtain ⟨i, kind⟩ := t
  obtain ⟨hSound, hAhead⟩ := (going.sound i).finish hNoMore
  refine ⟨⟨going.sound_update hDevice hSound, fun j hDone => ?_, fun j hDone => ?_⟩, ?_⟩
  · rw [hDevice]
    rw [hPhases] at hDone
    by_cases hEq : j = i
    · subst hEq
      rw [Function.update_self]
      cases kind with
      | Write => rfl
      | Read => exact going.written j (by rwa [Function.update_of_ne (by simp)] at hDone)
    · rw [Function.update_of_ne hEq]
      exact going.written j (by rwa [Function.update_of_ne (by simp [hEq])] at hDone)
  · rw [hDevice]
    rw [hPhases] at hDone
    by_cases hEq : j = i
    · subst hEq
      rw [Function.update_self]
      cases kind with
      | Write => exact going.read j (by rwa [Function.update_of_ne (by simp)] at hDone)
      | Read => simpa [Conn.goesOn, Conn.finish] using hNoMore
    · rw [Function.update_of_ne hEq]
      exact going.read j (by rwa [Function.update_of_ne (by simp [hEq])] at hDone)
  · have hTotal := Tally.total_update Conn.ahead s.device i ((s.device i).finish kind)
    have hTask := Tally.total_update unfinished s.phases (i, kind) .done
    have hBefore : unfinished (s.phases (i, kind)) = 1 := if_neg hPhase
    have hAfter : unfinished .done = 0 := if_pos rfl
    unfold ahead
    rw [hDevice, hPhases]
    simp only at hAhead ⊢
    omega

/-- Every event keeps the connections going. One that feeds the rank of the reactor uses
up something that is ahead, unless it comes from outside as a surprise. -/
theorem Going.next (going : Going message s) (drives : Drives (program limits socket apart) s s' e) :
    Going message s' ∧
      ahead s' + (if e.feeds then 1 else 0) ≤ ahead s + if surprises e then 1 else 0 := by
  cases drives with
  | rests device done free =>
      refine ⟨⟨fun i => device ▸ going.sound i, fun i hDone => device ▸ going.written i ((done _).mp hDone),
        fun i hDone => device ▸ going.read i ((done _).mp hDone)⟩, ?_⟩
      have hTasks : Tally.total unfinished s'.phases = Tally.total unfinished s.phases :=
        Finset.sum_congr rfl fun t _ => by simp only [unfinished, done]
      have hSame : ahead s' = ahead s := by rw [ahead, ahead, device, hTasks]
      rw [hSame]
      cases e with
      | finish t => exact absurd rfl (free.1 t)
      | operate t n => exact absurd rfl (free.2.1 t n)
      | outside o => exact absurd rfl (free.2.2 o)
      | interrupt | spurious => simp [Event.feeds, surprises]
      | _ => simp [Event.feeds]
  | @operate t n more device done =>
      obtain ⟨c, hConn, hDevice⟩ := Option.map_eq_some_iff.mp device
      obtain ⟨going', hAhead⟩ := going.moves hDevice.symm done ((going.sound t.1).operate more hConn)
      exact ⟨going', by simpa [Event.feeds, surprises] using hAhead⟩
  | @finish t noMore unfinished device done =>
      obtain ⟨going', hAhead⟩ := going.finish noMore unfinished device done
      exact ⟨going', by simpa [Event.feeds, surprises] using hAhead⟩
  | @outside o device done =>
      cases o with
      | transmit i n =>
          obtain ⟨c, hConn, hDevice⟩ := Option.map_eq_some_iff.mp device
          obtain ⟨going', hAhead⟩ := going.moves hDevice.symm done ((going.sound i).transmit hConn)
          exact ⟨going', by simpa [Event.feeds, surprises] using hAhead⟩
      | close i =>
          obtain ⟨c, hConn, hDevice⟩ := Option.map_eq_some_iff.mp device
          obtain ⟨going', hAhead⟩ := going.moves hDevice.symm done ((going.sound i).close hConn)
          exact ⟨going', by simpa [Event.feeds, surprises] using hAhead⟩

variable [DecidableEq V]

/-- Along a run no more events feed the rank than there is ahead at the start and
surprises come. -/
theorem Going.path {start : Reactor.State (C × WakerKind) V (C → Conn)}
    {steps : List (Reactor.State (C × WakerKind) V (C → Conn) × Reactor.Event (C × WakerKind) V (Network C))}
    (going : Going message s) (inv : Inv L (program limits socket apart) s)
    [Fintype V] (path : (Reactor.system L (program limits socket apart) start).Path s steps s') :
    Going message s' ∧ ahead s' + steps.countP (·.2.feeds) ≤ ahead s + steps.countP (surprises ·.2) := by
  induction path with
  | refl => exact ⟨going, Nat.le_refl _⟩
  | @step steps u w e prior last ih =>
      obtain ⟨going', hAhead⟩ := ih
      obtain ⟨going'', hStep⟩ := going'.next ((inv.path prior).1.drives last)
      refine ⟨going'', ?_⟩
      rw [List.countP_append, List.countP_singleton, List.countP_append, List.countP_singleton]
      simp only at hStep ⊢
      omega

/-! ## Where nothing is left to do -/

/-- What the reader has got when it has found the end. -/
theorem Conn.Sound.whole {message : List UInt8} {c : Conn} (sound : c.Sound message)
    (hEof : c.eof = true) : c.received = message := by
  obtain ⟨hEnded, hReceiving⟩ := sound.eof hEof
  obtain ⟨hClosed, hSending⟩ := sound.ended hEnded
  have hBytes := sound.bytes
  rwa [hReceiving, hSending, sound.closed hClosed, List.append_nil, List.append_nil,
    List.append_nil] at hBytes

/-- Where the tasks and the network can do nothing, both ends of a connection have returned. -/
theorem Going.completes (going : Going message s) (inv : Inv L (program limits socket apart) s) (v : V)
    (hNone : ∀ e, surprises e = false → Reactor.next L (program limits socket apart) s e = none) (i : C) :
    s.phases (i, .Write) = .done ∧ s.phases (i, .Read) = .done := by
  have stuck : Stuck L (program limits socket apart) s := by
    intro e hGiven
    refine hNone e ?_
    cases e <;> first | rfl | cases hGiven
  have sound := going.sound i
  have hTransmit : (s.device i).transmit (limits i) 1 = none := by
    simpa [Reactor.next, program, device] using hNone (.outside (.transmit i 1)) rfl
  have hClose : (s.device i).close = none := by
    simpa [Reactor.next, program, device] using hNone (.outside (.close i)) rfl
  have hReader (hReady : (s.device i).ready (limits i) .Read = true) : s.phases (i, .Read) = .done := by
    obtain hDone | ⟨-, -, hBlocks⟩ := stuck.rests (t := (i, .Read)) inv v
    · exact hDone
    · exact absurd (hReady.symm.trans hBlocks) (by simp)
  -- Bytes that are not transmitted find the window full, so the reader has some to read.
  have hSent : (s.device i).sending = [] := by
    by_contra hSome
    have hLength := List.length_pos_iff.mpr hSome
    have hFull : ¬(s.device i).receiving.length + 1 ≤ (limits i).window := by
      intro hRoom
      simp [Conn.transmit, hRoom, Nat.succ_le_of_lt hLength] at hTransmit
    have hReceiving : (s.device i).receiving ≠ [] := by
      intro hEmpty
      have hPos := (limits i).window_pos
      rw [hEmpty, List.length_nil] at hFull
      omega
    have hDone := hReader (by simp [Conn.ready, hReceiving])
    exact hReceiving (sound.eof (going.read i hDone)).2
  have hWritten : s.phases (i, .Write) = .done := by
    obtain hDone | ⟨-, -, hBlocks⟩ := stuck.rests (t := (i, .Write)) inv v
    · exact hDone
    · have hFull : (s.device i).ready (limits i) .Write = false := hBlocks
      have hMark := (limits i).mark_le
      simp [Conn.ready, hSent] at hFull
      omega
  have hEnded : (s.device i).ended = true := by
    by_contra hOpen
    simp [Conn.close, going.written i hWritten, hSent, hOpen] at hClose
  exact ⟨hWritten, hReader (by simp [Conn.ready, hEnded])⟩

/-! ## Runs -/

/-- What holds of a run that transfers messages: bytes arrive in order, a reader that has
returned has the whole message, the run goes on until all have, and its length is bounded. -/
structure Transfers [Fintype V] (L : Layout) (prog : Program (C × WakerKind) (C → Conn) (Network C))
    (message : C → List UInt8)
    (steps : List (Reactor.State (C × WakerKind) V (C → Conn) × Reactor.Event (C × WakerKind) V (Network C)))
    (s : Reactor.State (C × WakerKind) V (C → Conn)) : Prop where
  inOrder : ∀ i, (s.device i).received <+: message i
  whole : ∀ i, s.phases (i, .Read) = .done → (s.device i).received = message i
  completes : Nonempty V → (∀ e, surprises e = false → Reactor.next L prog s e = none) →
    ∀ i, s.phases (i, .Write) = .done ∧ s.phases (i, .Read) = .done
  bounded : steps.length ≤ 430 * Fintype.card C + feed (C × WakerKind) *
    (∑ i, (3 * (message i).length + 4) + steps.countP (surprises ·.2))

omit [DecidableEq C] [DecidableEq V] in
/-- For each byte there are three operations ahead, and for each connection four more:
the two ends and the two returns. -/
theorem ahead_start (hDevice : s.device = fun i => .new (message i)) :
    ahead s ≤ ∑ i, (3 * (message i).length + 4) := by
  have hTasks : Tally.total unfinished s.phases ≤ 1 * Fintype.card (C × WakerKind) := by
    refine Tally.total_le fun t => ?_
    unfold unfinished
    split <;> omega
  have hCard : Fintype.card (C × WakerKind) = Fintype.card C * 2 := Fintype.card_prod C WakerKind
  have hBytes : Tally.total Conn.ahead s.device = ∑ i, (3 * (message i).length + 2) := by
    rw [hDevice]
    rfl
  have hSplit : ∑ i, (3 * (message i).length + 4) =
      ∑ i, (3 * (message i).length + 2) + Fintype.card C * 2 := by
    rw [← Finset.card_univ, ← smul_eq_mul, ← Finset.sum_const, ← Finset.sum_add_distrib]
  unfold ahead
  omega

/-- In every run the messages are transferred. What a reader has is the beginning of its
message, and all of it when the reader has returned; a run that can go on no more
without a surprise has brought all tasks to their end; and the number of steps is
bounded by the lengths of the messages and the surprises. The buffers may have any sizes
and the operations any lengths. -/
theorem messages_transferred [Fintype V] {start : Reactor.State (C × WakerKind) V (C → Conn)}
    {steps : List (Reactor.State (C × WakerKind) V (C → Conn) × Reactor.Event (C × WakerKind) V (Network C))}
    (hStart : Start L (program limits socket apart) start)
    (hMessages : start.device = fun i => .new (message i))
    (run : (Reactor.system L (program limits socket apart) start).Run steps s) :
    Transfers L (program limits socket apart) message steps s := by
  have hAway (t : C × WakerKind) : start.phases t ≠ .done := by simp [hStart.phases t]
  have atStart : Going message start :=
    ⟨fun i => by rw [hMessages]; exact .new, fun i hDone => absurd hDone (hAway _),
      fun i hDone => absurd hDone (hAway _)⟩
  obtain ⟨inv, hRank⟩ := hStart.inv.path run
  obtain ⟨going, hAhead⟩ := atStart.path hStart.inv run
  have hFirst := hStart.rank_le
  have hBytes := ahead_start (s := start) hMessages
  have hCard : Fintype.card (C × WakerKind) = Fintype.card C * 2 := Fintype.card_prod C WakerKind
  refine ⟨fun i => ?_, fun i hDone => (going.sound i).whole (going.read i hDone),
    fun ⟨v⟩ hNone i => going.completes inv v hNone i, ?_⟩
  · rw [← (going.sound i).bytes, List.append_assoc, List.append_assoc]
    exact List.prefix_append ..
  · have hFed : feed (C × WakerKind) * steps.countP (·.2.feeds) ≤ feed (C × WakerKind) *
        (∑ i, (3 * (message i).length + 4) + steps.countP (surprises ·.2)) :=
      Nat.mul_le_mul_left _ (by omega)
    omega

end Program

/-! A message of one byte, over buffers of one byte. -/

def oneByteLimits (_ : Unit) : Limits := ⟨1, 1, 1, Nat.one_pos, Nat.one_pos, Nat.one_pos⟩

def twoPeers : Unit → WakerKind → SocketId
  | _, .Write => 0
  | _, .Read => 1

def oneByte : Program (Unit × WakerKind) (Unit → Conn) (Network Unit) :=
  program oneByteLimits twoPeers fun _ _ _ _ => rfl

def twoSlots : Layout :=
  { oneSlot with NUM_ENTRIES := 2, entries_pos := Nat.two_pos, entries_le := by decide }

def twoSockets : PollIo.State (Unit × WakerKind) Unit (Unit × WakerKind) :=
  ((PollIo.system (Unit × WakerKind) Unit (Unit × WakerKind) twoSlots).replay
    (PollIo.system (Unit × WakerKind) Unit (Unit × WakerKind) twoSlots).initial
      [.alloc 0, .register 0 true, .alloc 1, .register 1 true]).get (by decide)

def oneByteStart : Reactor.State (Unit × WakerKind) Unit (Unit → Conn) :=
  ⟨twoSockets, fun _ => TASK_SCHEDULED, fun _ => .away, fun _ => .new [7], fun t => decide (t.2 = .Write),
    fun _ => [], false⟩

/-- A turn of a task that gets `Pending`. -/
def waits (t : Unit × WakerKind) : List (Reactor.Event (Unit × WakerKind) Unit (Network Unit)) :=
  List.flatten [[.run t, .call t], List.replicate 9 (.step t), [.leave t]]

/-- A task is woken by its event and comes to its operation. -/
def wakes (t : Unit × WakerKind) : List (Reactor.Event (Unit × WakerKind) Unit (Network Unit)) :=
  List.flatten [[.select () [t], .process ()], List.replicate 4 (.waker ()), [.run t, .call t],
    List.replicate 10 (.step t)]

def sendOneByte : List (Reactor.Event (Unit × WakerKind) Unit (Network Unit)) :=
  List.flatten [waits ((), .Write), waits ((), .Read), wakes ((), .Write),
    [.operate ((), .Write) 1, .finish ((), .Write), .outside (.transmit () 1), .outside (.close ())],
    wakes ((), .Read), [.operate ((), .Read) 1, .call ((), .Read)],
    List.replicate 5 (.step ((), .Read)), [.operate ((), .Read) 0, .finish ((), .Read)]]

/-- One byte goes from one socket to the other. Both tasks wait for their events first. -/
theorem messages_transferred_oneByte :
    ∃ (steps : List (Reactor.State (Unit × WakerKind) Unit (Unit → Conn) ×
        Reactor.Event (Unit × WakerKind) Unit (Network Unit)))
      (s : Reactor.State (Unit × WakerKind) Unit (Unit → Conn)),
      Transfers twoSlots oneByte (fun _ => [7]) steps s ∧ s.phases ((), .Read) = .done := by
  obtain ⟨s, run, hDone⟩ := (Reactor.system twoSlots oneByte oneByteStart).exists_run_of_replay sendOneByte
    (fun s => s.phases ((), .Read)) .done (by decide +kernel)
  have hMade : (PollIo.system (Unit × WakerKind) Unit (Unit × WakerKind) twoSlots).replay
      (PollIo.system (Unit × WakerKind) Unit (Unit × WakerKind) twoSlots).initial
        [.alloc 0, .register 0 true, .alloc 1, .register 1 true] = some twoSockets :=
    (Option.some_get _).symm
  have hLive (t : Unit × WakerKind) : ∃ p, twoSockets.sockets (oneByte.pair t).1 = .live p ∧
      (twoSockets.cell p.index (oneByte.pair t).2).state ≠ AtomicWaker.WAITING ∧
        (twoSockets.cell p.index (oneByte.pair t).2).lock = none := by
    obtain ⟨⟨⟩, kind⟩ := t
    cases kind with
    | Read => exact ⟨pollable twoSockets 1, rfl, by decide, by decide⟩
    | Write => exact ⟨pollable twoSockets 0, rfl, by decide, by decide⟩
  have start : Start twoSlots oneByte oneByteStart := by
    refine ⟨made_of_replay hMade (by simp), hLive, fun _ => rfl, fun _ => rfl, fun _ => rfl, fun _ => rfl,
      ?_, fun _ => rfl, rfl⟩
    rintro ⟨⟨⟩, kind⟩ hReady
    cases kind with
    | Read => exact absurd hReady (by decide)
    | Write => rfl
  exact ⟨_, s, messages_transferred start rfl run, hDone⟩

end Yaar.Net.Transfer
