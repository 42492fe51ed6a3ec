import Mathlib.Order.Nat
import Mathlib.Logic.Function.Basic
import Yaar.Machine.Execution

/-! `time/internal/shared_u64.rs` on targets of 32 bits, one access of a word at a
time. One thread stores a sequence of values and any number of threads load. -/
namespace Yaar.Time

open Machine

structure SharedU64 where
  low : UInt32
  high : UInt32
  high2 : UInt32
  deriving DecidableEq

namespace SharedU64

/-- `((high as u64) << 32) | low` -/
def join (high low : UInt32) : UInt64 := (high.toUInt64 <<< 32) ||| low.toUInt64

def highHalf (value : UInt64) : UInt32 := (value >>> 32).toUInt32

def lowHalf (value : UInt64) : UInt32 := (value &&& 0xffffffff).toUInt32

/-- The next access of the storing thread. -/
inductive Writer where
  | idle
  | low (value : UInt64)
  | high (value : UInt64)
  deriving DecidableEq

/-- The next access of a load, with what it has read and the number of the stores
that were complete when it began; and what a load returned, with the number of the
stores that had begun by then, too. -/
inductive Reader where
  | idle
  | high (first : Nat)
  | low (first : Nat) (high : UInt32)
  | high2 (first : Nat) (high low : UInt32)
  | returned (first last : Nat) (value : UInt64)
  deriving DecidableEq

structure State (T : Type*) where
  word : SharedU64
  stored : Nat
  writer : Writer
  readers : T → Reader

inductive Event (T : Type*) where
  | writer
  | load (t : T)
  | reader (t : T)
  deriving DecidableEq

variable {T : Type*}

/-- The number of the stores that have begun. -/
def State.begun (s : State T) : Nat :=
  match s.writer with
  | .idle => s.stored
  | .low _ | .high _ => s.stored + 1

/-- One access of `store`. -/
def writerStep (values : List UInt64) (s : State T) : Option (State T) :=
  match s.writer with
  | .idle =>
      values[s.stored]?.map fun value =>
        { s with word := { s.word with high2 := highHalf value }, writer := .low value }
  | .low value =>
      some { s with word := { s.word with low := lowHalf value }, writer := .high value }
  | .high value =>
      some { s with
        word := { s.word with high := highHalf value }
        stored := s.stored + 1
        writer := .idle }

/-- One access of `load`. -/
def readerStep (s : State T) : Reader → Option Reader
  | .high first => some (.low first s.word.high)
  | .low first high => some (.high2 first high s.word.low)
  | .high2 first high low =>
      some (if high = s.word.high2 then .returned first s.begun (join high low) else .high first)
  | .idle | .returned _ _ _ => none

variable [DecidableEq T]

def State.setReader (s : State T) (t : T) (reader : Reader) : State T :=
  { s with readers := Function.update s.readers t reader }

def next (values : List UInt64) (s : State T) : Event T → Option (State T)
  | .writer => writerStep values s
  | .load t =>
      match s.readers t with
      | .idle | .returned _ _ _ => some (s.setReader t (.high s.stored))
      | _ => none
  | .reader t => (readerStep s (s.readers t)).map (s.setReader t)

variable (T) in
/-- `SharedU64::default()`, with the values that will be stored. -/
def system (values : List UInt64) : System (State T) (Event T) where
  initial := ⟨⟨0, 0, 0⟩, 0, .idle, fun _ => .idle⟩
  next := next values

/-- The value that the store of a number stores, the initial one first. -/
def valueAt (values : List UInt64) (k : Nat) : UInt64 := (0 :: values).getD k 0

/-- A load has returned a value that was current at some moment during it: its
store had begun when the load returned, and the next was not complete when the
load began. -/
def Loaded (values : List UInt64) : Reader → Prop
  | .returned first last value =>
      ∃ k, first ≤ k ∧ k ≤ last ∧ last ≤ values.length ∧ value = valueAt values k
  | _ => True

/-- The high half that two values have in common and the low half of one between
them make up a value that is between them, too. -/
def Unmixed (values : List UInt64) : Prop :=
  ∀ i j k, i ≤ j → j ≤ k → k ≤ values.length →
    highHalf (valueAt values i) = highHalf (valueAt values k) →
    ∃ m, i ≤ m ∧ m ≤ k ∧
      join (highHalf (valueAt values i)) (lowHalf (valueAt values j)) = valueAt values m

/-! ## The words against the sequence of values -/

/-- How many accesses the storing thread has made. -/
def State.position (s : State T) : Nat :=
  match s.writer with
  | .idle => 3 * s.stored
  | .low _ => 3 * s.stored + 1
  | .high _ => 3 * s.stored + 2

omit [DecidableEq T] in
theorem State.begun_eq (s : State T) : s.begun = (s.position + 2) / 3 := by
  cases hw : s.writer <;> simp only [begun, position, hw] <;> omega

omit [DecidableEq T] in
theorem State.stored_eq (s : State T) : s.stored = s.position / 3 := by
  cases hw : s.writer <;> simp only [position, hw] <;> omega

/-- Each word has its half of the value that was last stored to it. -/
structure Written (values : List UInt64) (s : State T) : Prop where
  low : s.word.low = lowHalf (valueAt values ((s.position + 1) / 3))
  high : s.word.high = highHalf (valueAt values (s.position / 3))
  high2 : s.word.high2 = highHalf (valueAt values ((s.position + 2) / 3))
  bound : s.position ≤ 3 * values.length
  value : ∀ value, s.writer = .low value ∨ s.writer = .high value →
    value = valueAt values (s.stored + 1)

theorem written_initial (values : List UInt64) : Written values (system T values).initial := by
  refine ⟨?_, ?_, ?_, Nat.zero_le _, by simp [system]⟩ <;>
    simp [system, State.position, valueAt, lowHalf, highHalf]

omit [DecidableEq T] in
/-- A store of the writer brings the three words to the next position. Of each value the
copy is stored first, then the low half, then the high half. -/
theorem Written.writer {values : List UInt64} {s s' : State T} (written : Written values s)
    (h : writerStep values s = some s') :
    Written values s' ∧ s'.position = s.position + 1 ∧ s'.readers = s.readers := by
  obtain ⟨hLow, hHigh, hHigh2, hBound, hValue⟩ := written
  have hFirst : 3 * s.stored / 3 = s.stored := by omega
  have hSecond : (3 * s.stored + 1) / 3 = s.stored := by omega
  have hThird : (3 * s.stored + 2) / 3 = s.stored := by omega
  have hNext : (3 * s.stored + 3) / 3 = s.stored + 1 := by omega
  have hAfter : (3 * s.stored + 4) / 3 = s.stored + 1 := by omega
  have hLast : (3 * s.stored + 5) / 3 = s.stored + 1 := by omega
  cases hw : s.writer <;> simp only [writerStep, hw] at h <;>
    simp only [State.position, hw, Nat.add_assoc, Nat.reduceAdd, hFirst, hSecond, hThird, hNext]
      at hLow hHigh hHigh2 hBound
  case idle =>
    obtain ⟨value, hGet, rfl⟩ := Option.map_eq_some_iff.mp h
    have hNew : valueAt values (s.stored + 1) = value := by simp [valueAt, List.getD, hGet]
    obtain ⟨hRoom, -⟩ := List.getElem?_eq_some_iff.mp hGet
    refine ⟨⟨?_, ?_, ?_, ?_, ?_⟩, by simp [State.position, hw], rfl⟩ <;>
      simp [State.position, hSecond, hThird, hNext, hLow, hHigh, hNew]
    omega
  case low value =>
    obtain rfl := Option.some.inj h
    have hNew := hValue value (Or.inl hw)
    refine ⟨⟨?_, ?_, ?_, ?_, ?_⟩, by simp [State.position, hw], rfl⟩ <;>
      simp [State.position, hThird, hNext, hAfter, hHigh, hHigh2, hNew]
    omega
  case high value =>
    obtain rfl := Option.some.inj h
    have hNew := hValue value (Or.inr hw)
    refine ⟨⟨?_, ?_, ?_, ?_, ?_⟩, by simp [State.position, hw]; omega, rfl⟩ <;>
      simp [State.position, Nat.mul_add, hNext, hAfter, hLast, hLow, hHigh2, hNew]
    omega

/-- What a load has read are halves of values that came after its beginning, one
after another. -/
def Reader.Reads (values : List UInt64) (s : State T) : Reader → Prop
  | .idle => True
  | .high first => first ≤ s.position / 3
  | .low first h =>
      ∃ i, first ≤ i ∧ i ≤ s.position / 3 ∧ h = highHalf (valueAt values i)
  | .high2 first h l =>
      ∃ i j, first ≤ i ∧ i ≤ s.position / 3 ∧ i ≤ j ∧ j ≤ (s.position + 1) / 3 ∧
        h = highHalf (valueAt values i) ∧ l = lowHalf (valueAt values j)
  | .returned first last value =>
      last ≤ values.length ∧ ∃ i j k, first ≤ i ∧ i ≤ j ∧ j ≤ k ∧ k ≤ last ∧
        highHalf (valueAt values i) = highHalf (valueAt values k) ∧
        value = join (highHalf (valueAt values i)) (lowHalf (valueAt values j))

omit [DecidableEq T] in
/-- What a reader has loaded was stored by then, and remains so when the writer goes on. -/
theorem Reader.Reads.mono {values : List UInt64} {s s' : State T} {reader : Reader}
    (reads : reader.Reads values s) (h : s.position ≤ s'.position) : reader.Reads values s' := by
  have hStored : s.position / 3 ≤ s'.position / 3 := Nat.div_le_div_right h
  cases reader with
  | idle => trivial
  | high first => exact Nat.le_trans reads hStored
  | low first h =>
      obtain ⟨i, hFirst, hi, hHigh⟩ := reads
      exact ⟨i, hFirst, hi.trans hStored, hHigh⟩
  | high2 first h l =>
      obtain ⟨i, j, hFirst, hi, hij, hj, hHalves⟩ := reads
      exact ⟨i, j, hFirst, hi.trans hStored, hij, by omega, hHalves⟩
  | returned first last value => exact reads

omit [DecidableEq T] in
/-- A load of a reader is of the words at the writer's position. -/
theorem Written.reads {values : List UInt64} {s : State T} {reader reader' : Reader}
    (written : Written values s) (reads : reader.Reads values s)
    (h : readerStep s reader = some reader') : reader'.Reads values s := by
  have hBound := written.bound
  cases reader with
  | idle => simp [readerStep] at h
  | high first =>
      obtain rfl := Option.some.inj h
      exact ⟨s.position / 3, reads, le_rfl, written.high⟩
  | low first high =>
      obtain ⟨i, hFirst, hi, hHigh⟩ := reads
      obtain rfl := Option.some.inj h
      exact ⟨i, (s.position + 1) / 3, hFirst, hi, by omega, le_rfl, hHigh, written.low⟩
  | high2 first high low =>
      obtain ⟨i, j, hFirst, hi, hij, hj, rfl, rfl⟩ := reads
      simp only [readerStep, Option.some.injEq] at h
      split at h
      · next hEq =>
          subst h
          have hBegun := s.begun_eq
          refine ⟨by omega, i, j, (s.position + 2) / 3, hFirst, hij, by omega, by omega, ?_, rfl⟩
          rw [hEq, written.high2]
      · subst h
        exact hFirst.trans hi
  | returned first last value => simp [readerStep] at h

structure Inv (values : List UInt64) (s : State T) : Prop where
  written : Written values s
  reads : ∀ t, (s.readers t).Reads values s

theorem Written.setReader {values : List UInt64} {s : State T} (written : Written values s) (t : T)
    (reader : Reader) : Written values (s.setReader t reader) :=
  ⟨written.low, written.high, written.high2, written.bound, written.value⟩

theorem Inv.setReader {values : List UInt64} {s : State T} {t : T} {reader : Reader}
    (inv : Inv values s) (reads : reader.Reads values s) : Inv values (s.setReader t reader) := by
  refine ⟨inv.written.setReader t reader, fun u => ?_⟩
  simp only [State.setReader, Function.update_apply]
  split
  · exact reads.mono le_rfl
  · exact (inv.reads u).mono le_rfl

/-- Every step of the writer or of a reader keeps what is known of the loads. -/
theorem Inv.next {values : List UInt64} {s s' : State T} {e : Event T} (inv : Inv values s)
    (h : next values s e = some s') : Inv values s' := by
  cases e with
  | writer =>
      obtain ⟨written', hPosition, hReaders⟩ := inv.written.writer h
      refine ⟨written', fun t => ?_⟩
      rw [hReaders]
      exact (inv.reads t).mono (by omega)
  | load t =>
      simp only [SharedU64.next] at h
      split at h
      · obtain rfl := Option.some.inj h
        exact inv.setReader s.stored_eq.le
      · obtain rfl := Option.some.inj h
        exact inv.setReader s.stored_eq.le
      · simp at h
  | reader t =>
      obtain ⟨reader, hReader, rfl⟩ := Option.map_eq_some_iff.mp h
      exact inv.setReader (inv.written.reads (inv.reads t) hReader)

/-- So each reader has loaded words that were there, one after the other. -/
theorem inv_reachable {values : List UInt64} {s : State T} (h : (system T values).Reachable s) :
    Inv values s :=
  h.keeps ⟨written_initial values, fun _ => trivial⟩ fun _ _ _ inv hNext => inv.next hNext

/-! ## The storing thread between the reads of a load -/

/-- The writer waits for no reader. While a value is left it can store the next word. -/
theorem writer_enabled {values : List UInt64} {s : State T}
    (h : s.position < 3 * values.length) : ∃ s', (system T values).next s .writer = some s' := by
  rw [← Option.isSome_iff_exists]
  cases hw : s.writer with
  | idle =>
      have hRoom : s.stored < values.length := by
        simp only [State.position, hw] at h
        omega
      simp [system, SharedU64.next, writerStep, hw, List.getElem?_eq_getElem hRoom]
  | low value => simp [system, SharedU64.next, writerStep, hw]
  | high value => simp [system, SharedU64.next, writerStep, hw]

/-- The storing thread goes on to any later access. -/
theorem exists_path {values : List UInt64} {s : State T} {position : Nat}
    (written : Written values s) (h : s.position ≤ position) (hEnd : position ≤ 3 * values.length) :
    ∃ steps s', (system T values).Path s steps s' ∧ s'.position = position ∧
      s'.readers = s.readers ∧ Written values s' := by
  induction position, h using Nat.le_induction with
  | base => exact ⟨[], s, .refl, rfl, rfl, written⟩
  | succ n hn ih =>
      obtain ⟨steps, s', path, hPosition, hReaders, written'⟩ := ih (by omega)
      have hRoom : s'.position < 3 * values.length := by omega
      obtain ⟨s'', hNext⟩ := writer_enabled hRoom
      obtain ⟨written'', hPosition', hReaders'⟩ := written'.writer hNext
      exact ⟨_, s'', path.step hNext, by omega, hReaders'.trans hReaders, written''⟩

/-- A read of a load once the storing thread has come to a later access. -/
theorem exists_read {values : List UInt64} {s : State T} (t : T) {reader reader' : Reader}
    {position : Nat} (written : Written values s) (h : s.position ≤ position)
    (hEnd : position ≤ 3 * values.length)
    (hStep : ∀ s' : State T, s'.position = position → Written values s' →
      readerStep s' reader = some reader') :
    ∃ steps s', (system T values).Path (s.setReader t reader) steps (s'.setReader t reader') ∧
      s'.position = position ∧ Written values s' := by
  obtain ⟨steps, s', path, hPosition, hReaders, written'⟩ :=
    exists_path (written.setReader t reader) h hEnd
  refine ⟨_, s', path.step (e := .reader t) ?_, hPosition, written'⟩
  simp [system, SharedU64.next, hReaders, State.setReader, hStep s' hPosition written']

/-- A load may take its words from any three values that follow one another. -/
theorem exists_load {values : List UInt64} (t : T) {i j k : Nat} (hij : i ≤ j) (hjk : j ≤ k)
    (hk : k ≤ values.length)
    (hHigh : highHalf (valueAt values i) = highHalf (valueAt values k)) :
    ∃ steps s, (system T values).Run steps s ∧ s.readers t =
      .returned i k (join (highHalf (valueAt values i)) (lowHalf (valueAt values j))) := by
  obtain ⟨first, hFirst, hLow, hFirstEnd⟩ :
      ∃ p, 3 * i ≤ p ∧ (p + 1) / 3 = j ∧ p ≤ 3 * j := by
    rcases hij.eq_or_lt with rfl | hLt
    · exact ⟨3 * i, le_rfl, by omega, le_rfl⟩
    · exact ⟨3 * j - 1, by omega, by omega, by omega⟩
  obtain ⟨second, hSecond, hHigh2, hSecondEnd⟩ :
      ∃ p, first ≤ p ∧ (p + 2) / 3 = k ∧ p ≤ 3 * k := by
    rcases hjk.eq_or_lt with rfl | hLt
    · exact ⟨first, le_rfl, by omega, hFirstEnd⟩
    · exact ⟨3 * k - 2, by omega, by omega, by omega⟩
  obtain ⟨before, s₀, path₀, hPosition₀, hReaders₀, written₀⟩ :=
    exists_path (T := T) (written_initial values) (show _ ≤ 3 * i from Nat.zero_le _) (by omega)
  have hStored : s₀.stored = i := by
    rw [s₀.stored_eq, hPosition₀]
    omega
  have path₁ := path₀.step (u := s₀.setReader t (.high i)) (e := .load t) (by
    simp [system, SharedU64.next, hReaders₀, hStored])
  -- The load reads the high half, the low half and the copy of the high half.
  obtain ⟨steps₂, s₂, path₂, hPosition₂, written₂⟩ :
      ∃ steps s', (system T values).Path (s₀.setReader t (.high i)) steps
        (s'.setReader t (.low i (highHalf (valueAt values i)))) ∧ s'.position = 3 * i ∧
        Written values s' := by
    refine exists_read t written₀ hPosition₀.le (by omega) fun s' hPosition written' => ?_
    simp only [readerStep, written'.high, hPosition]
    rw [show 3 * i / 3 = i by omega]
  obtain ⟨steps₃, s₃, path₃, hPosition₃, written₃⟩ :
      ∃ steps s', (system T values).Path (s₂.setReader t (.low i (highHalf (valueAt values i)))) steps
        (s'.setReader t (.high2 i (highHalf (valueAt values i)) (lowHalf (valueAt values j)))) ∧
        s'.position = first ∧ Written values s' := by
    refine exists_read t written₂ (hPosition₂.le.trans hFirst) (by omega)
      fun s' hPosition written' => ?_
    simp only [readerStep, written'.low, hPosition, hLow]
  obtain ⟨steps₄, s₄, path₄, -, -⟩ :
      ∃ steps s', (system T values).Path
        (s₃.setReader t (.high2 i (highHalf (valueAt values i)) (lowHalf (valueAt values j)))) steps
        (s'.setReader t (.returned i k
          (join (highHalf (valueAt values i)) (lowHalf (valueAt values j))))) ∧
        s'.position = second ∧ Written values s' := by
    refine exists_read t written₃ (hPosition₃.le.trans hSecond) (by omega)
      fun s' hPosition written' => ?_
    simp only [readerStep, written'.high2, s'.begun_eq, hPosition, hHigh2, if_pos hHigh]
  exact ⟨_, _, ((path₁.trans path₂).trans path₃).trans path₄, by simp [State.setReader]⟩

/-- Every load of every run returns a value that was current during it exactly if
the halves of the stored values do not mix. -/
theorem loads_iff_unmixed [Inhabited T] (values : List UInt64) :
    (∀ steps s, (system T values).Run steps s → ∀ t, Loaded values (s.readers t)) ↔
      Unmixed values := by
  constructor
  · intro hLoads i j k hij hjk hk hHigh
    obtain ⟨steps, s, run, hReader⟩ := exists_load (default : T) hij hjk hk hHigh
    have hLoaded := hLoads steps s run default
    rw [hReader] at hLoaded
    obtain ⟨m, hi, hm, -, hValue⟩ := hLoaded
    exact ⟨m, hi, hm, hValue⟩
  · intro unmixed steps s run t
    have reads := (inv_reachable run.reachable).reads t
    cases hReader : s.readers t with
    | returned first last value =>
        rw [hReader] at reads
        obtain ⟨hLast, i, j, k, hFirst, hij, hjk, hk, hHigh, rfl⟩ := reads
        obtain ⟨m, hi, hm, hValue⟩ := unmixed i j k hij hjk (hk.trans hLast) hHigh
        exact ⟨m, hFirst.trans hi, hm.trans hk, hLast, hValue⟩
    | _ => trivial

/-- A deadline beyond `u32::MAX` milliseconds is stored and taken back while a
load is between its first and its last access. -/
theorem returnToZero_torn : ¬∀ values, ∀ steps s, (system Unit values).Run steps s →
    ∀ t, Loaded values (s.readers t) := by
  intro h
  obtain ⟨s, run, hReader⟩ := (system Unit [4294967301, 0]).exists_run_of_replay
    [.load (), .reader (), .writer, .writer, .writer, .reader (), .writer, .reader ()]
    (fun s => s.readers ()) (.returned 0 2 5) (by decide)
  have hLoaded := h [4294967301, 0] _ s run ()
  rw [hReader] at hLoaded
  obtain ⟨k, -, hk, -, hValue⟩ := hLoaded
  have hNone : ∀ k ≤ 2, valueAt [4294967301, 0] k ≠ 5 := by decide
  exact hNone k hk hValue.symm

end SharedU64
end Yaar.Time
