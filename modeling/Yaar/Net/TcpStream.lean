import Mathlib.Data.List.Basic

/-! How `poll_read_inner` of `net/tcp/stream.rs` fills the buffer of its caller. -/
namespace Yaar.Net.TcpStream

def TLS_BUF_SIZE : Nat := 64 * 1024

/-- A `tokio::io::ReadBuf`. Its initialized bytes come first in its memory, and the
filled ones first among these. -/
structure ReadBuf where
  bytes : List UInt8
  filled : Nat
  capacity : Nat
  filled_le : filled ≤ bytes.length
  initialized_le : bytes.length ≤ capacity

/-- The thread's own buffer. -/
abbrev TlsBuf := { bytes : List UInt8 // bytes.length = TLS_BUF_SIZE }

/-- What a socket answers to a read into a slice of some length. -/
structure Socket (ε : Type*) where
  read (length : Nat) : Except ε { bytes : List UInt8 // bytes.length ≤ length }

/-- The bytes alone. -/
def Socket.answer {ε : Type*} (socket : Socket ε) (length : Nat) : Except ε (List UInt8) :=
  (socket.read length).map Subtype.val

/-- Copy bytes into a slice from an index on. -/
def copyAt (slice : List UInt8) (index : Nat) (bytes : List UInt8) : List UInt8 :=
  slice.take index ++ bytes ++ slice.drop (index + bytes.length)

theorem length_copyAt {slice bytes : List UInt8} {index : Nat}
    (h : index + bytes.length ≤ slice.length) : (copyAt slice index bytes).length = slice.length := by
  simp only [copyAt, List.length_append, List.length_take, List.length_drop]
  omega

/-- Up to the end of the bytes that are copied, a slice is what it was before them and
then those bytes. -/
theorem take_copyAt {slice bytes : List UInt8} {index : Nat} (h : index ≤ slice.length) :
    (copyAt slice index bytes).take (index + bytes.length) = slice.take index ++ bytes := by
  have hLength : (slice.take index ++ bytes).length = index + bytes.length := by
    simp [List.length_take, h]
  rw [copyAt, ← hLength, List.take_left]

/-- The index `[..length]` of a slice, which panics out of bounds. -/
def upTo (slice : List UInt8) (length : Nat) : Option (List UInt8) :=
  if length ≤ slice.length then some (slice.take length) else none

namespace ReadBuf

/-- The content of `filled()`. -/
def filledBytes (buf : ReadBuf) : List UInt8 := buf.bytes.take buf.filled

def initialized (buf : ReadBuf) : Nat := buf.bytes.length

def remaining (buf : ReadBuf) : Nat := buf.capacity - buf.filled

/-- A write to `initialized_mut()[filled..]`. -/
def overwrite (buf : ReadBuf) (bytes : List UInt8)
    (h : buf.filled + bytes.length ≤ buf.initialized) : ReadBuf where
  bytes := copyAt buf.bytes buf.filled bytes
  filled := buf.filled
  capacity := buf.capacity
  filled_le := length_copyAt h ▸ buf.filled_le
  initialized_le := length_copyAt h ▸ buf.initialized_le

/-- `advance(n)`, with its assertion. -/
def advance (buf : ReadBuf) (n : Nat) : Option ReadBuf :=
  if h : buf.filled + n ≤ buf.initialized then
    some { buf with filled := buf.filled + n, filled_le := h }
  else none

/-- `put_slice`, with its assertion. -/
def putSlice (buf : ReadBuf) (bytes : List UInt8) : Option ReadBuf :=
  if h : bytes.length ≤ buf.remaining then
    some {
      bytes := copyAt buf.bytes buf.filled bytes
      filled := buf.filled + bytes.length
      capacity := buf.capacity
      filled_le := by
        have hFilled := buf.filled_le
        simp only [copyAt, List.length_append, List.length_take, List.length_drop]
        omega
      initialized_le := by
        have hFilled := buf.filled_le
        have hInitialized := buf.initialized_le
        unfold remaining at h
        simp only [copyAt, List.length_append, List.length_take, List.length_drop]
        omega }
  else none

/-- The length of the slice that is passed to the socket. -/
def passed (buf : ReadBuf) : Nat :=
  if 0 < buf.initialized - buf.filled then buf.initialized - buf.filled else buf.remaining

end ReadBuf

variable {ε : Type*}

/-- The initialized but unfilled memory is read to directly. -/
def readDirect (socket : Socket ε) (buf : ReadBuf) : Option (Except ε Unit × ReadBuf) :=
  match socket.read (buf.initialized - buf.filled) with
  | .error error => some (.error error, buf)
  | .ok ⟨bytes, hLength⟩ =>
      have hRoom : buf.filled + bytes.length ≤ buf.initialized := by
        have hFilled : buf.filled ≤ buf.initialized := buf.filled_le
        omega
      ((buf.overwrite bytes hRoom).advance bytes.length).map (.ok (), ·)

/-- The memory is not initialized yet, so the thread's buffer is read to and the
bytes copied from there. -/
def readThrough (socket : Socket ε) (buf : ReadBuf) (tlsBuf : TlsBuf) :
    Option (Except ε Unit × ReadBuf) :=
  (upTo tlsBuf.val buf.remaining).bind fun readBuf =>
    match socket.read buf.remaining with
    | .error error => some (.error error, buf)
    | .ok ⟨bytes, _⟩ =>
        (upTo (copyAt readBuf 0 bytes) bytes.length).bind fun read =>
          (buf.putSlice read).map (.ok (), ·)

/-- The closure that `poll_read_inner` passes to `poll_io`. It has no result when
it panics. -/
def pollReadInner (socket : Socket ε) (buf : ReadBuf) (tlsBuf : TlsBuf) :
    Option (Except ε Unit × ReadBuf) :=
  if 0 < buf.initialized - buf.filled then readDirect socket buf
  else readThrough socket buf tlsBuf

/-- The closure does not panic, and appends what the socket read to the filled
bytes, or leaves these as they were. -/
def ReadsWell (socket : Socket ε) (buf : ReadBuf) (tlsBuf : TlsBuf) : Prop :=
  ∃ result buf', pollReadInner socket buf tlsBuf = some (result, buf') ∧
    match result with
    | .error _ => buf'.filledBytes = buf.filledBytes
    | .ok () => ∃ bytes, socket.answer buf.passed = .ok bytes ∧ bytes.length ≤ buf.remaining ∧
        buf'.filledBytes = buf.filledBytes ++ bytes

/-- Where the buffer has initialized space the socket reads right into it. -/
theorem readDirect_well {socket : Socket ε} {buf : ReadBuf} (tlsBuf : TlsBuf)
    (hDirect : 0 < buf.initialized - buf.filled) : ReadsWell socket buf tlsBuf := by
  have hFilled : buf.filled ≤ buf.initialized := buf.filled_le
  have hInitialized : buf.initialized ≤ buf.capacity := buf.initialized_le
  cases hRead : socket.read (buf.initialized - buf.filled) with
  | error error =>
      exact ⟨.error error, buf, by simp [pollReadInner, hDirect, readDirect, hRead], rfl⟩
  | ok bytes =>
      obtain ⟨bytes, hLength⟩ := bytes
      have hRoom : buf.filled + bytes.length ≤ buf.initialized := by omega
      have hAfter : (buf.overwrite bytes hRoom).filled + bytes.length ≤
          (buf.overwrite bytes hRoom).initialized := by
        simpa [ReadBuf.overwrite, ReadBuf.initialized, length_copyAt hRoom] using hRoom
      refine ⟨.ok (), { buf.overwrite bytes hRoom with
        filled := buf.filled + bytes.length, filled_le := hAfter }, ?_, bytes, ?_, ?_, ?_⟩
      · simp only [pollReadInner, if_pos hDirect, readDirect, hRead, ReadBuf.advance, dif_pos hAfter]
        rfl
      · have hPassed : buf.passed = buf.initialized - buf.filled := if_pos hDirect
        rw [hPassed, Socket.answer, hRead]
        rfl
      · unfold ReadBuf.remaining
        omega
      · exact take_copyAt hFilled

/-- Otherwise it reads through the buffer of the thread, which is large enough by the
condition. -/
theorem readThrough_well {socket : Socket ε} {buf : ReadBuf} (tlsBuf : TlsBuf)
    (hThrough : ¬0 < buf.initialized - buf.filled) (hSize : buf.remaining ≤ TLS_BUF_SIZE) :
    ReadsWell socket buf tlsBuf := by
  have hTls : upTo tlsBuf.val buf.remaining = some (tlsBuf.val.take buf.remaining) :=
    if_pos (by rw [tlsBuf.property]; exact hSize)
  cases hRead : socket.read buf.remaining with
  | error error =>
      exact ⟨.error error, buf, by simp [pollReadInner, hThrough, readThrough, hTls, hRead], rfl⟩
  | ok bytes =>
      obtain ⟨bytes, hLength⟩ := bytes
      have hCopied : upTo (copyAt (tlsBuf.val.take buf.remaining) 0 bytes) bytes.length =
          some bytes := by
        have hTake : (copyAt (tlsBuf.val.take buf.remaining) 0 bytes).take (0 + bytes.length) =
            (tlsBuf.val.take buf.remaining).take 0 ++ bytes := take_copyAt (Nat.zero_le _)
        rw [Nat.zero_add, List.take_zero, List.nil_append] at hTake
        rw [upTo, if_pos (by simp [copyAt]), hTake]
      have hPut := (buf.putSlice bytes).eq_none_or_eq_some
      rcases hPut with hPut | ⟨buf', hPut⟩
      · simp [ReadBuf.putSlice, hLength] at hPut
      · refine ⟨.ok (), buf', ?_, bytes, ?_, hLength, ?_⟩
        · simp [pollReadInner, hThrough, readThrough, hTls, hRead, hCopied, hPut]
        · have hPassed : buf.passed = buf.remaining := if_neg hThrough
          rw [hPassed, Socket.answer, hRead]
          rfl
        · rw [ReadBuf.putSlice, dif_pos hLength] at hPut
          obtain rfl := Option.some.inj hPut
          exact take_copyAt buf.filled_le

/-- Without initialized memory to fill, the closure cuts a slice of all the room
left from the thread's buffer. -/
theorem pollReadInner_panics (socket : Socket ε) {buf : ReadBuf} (tlsBuf : TlsBuf)
    (hThrough : ¬0 < buf.initialized - buf.filled) (hSize : TLS_BUF_SIZE < buf.remaining) :
    pollReadInner socket buf tlsBuf = none := by
  have hTls : upTo tlsBuf.val buf.remaining = none :=
    if_neg (by rw [tlsBuf.property]; omega)
  simp [pollReadInner, hThrough, readThrough, hTls]

/-- The closure reads well exactly into a buffer with initialized memory to fill,
or with no more room left than the thread's buffer has. -/
theorem readsWell_iff (socket : Socket ε) (buf : ReadBuf) (tlsBuf : TlsBuf) :
    ReadsWell socket buf tlsBuf ↔
      buf.filled < buf.initialized ∨ buf.remaining ≤ TLS_BUF_SIZE := by
  constructor
  · rintro ⟨result, buf', hRun, -⟩
    by_contra hNot
    push Not at hNot
    have hThrough : ¬0 < buf.initialized - buf.filled := by omega
    rw [pollReadInner_panics socket tlsBuf hThrough (by omega)] at hRun
    simp at hRun
  · rintro (hDirect | hSize)
    · exact readDirect_well tlsBuf (by omega)
    · by_cases hDirect : 0 < buf.initialized - buf.filled
      · exact readDirect_well tlsBuf hDirect
      · exact readThrough_well tlsBuf hDirect hSize

/-- One byte more than the thread's buffer has, none of it initialized. -/
def largeBuf : ReadBuf := ⟨[], 0, TLS_BUF_SIZE + 1, Nat.le_refl _, Nat.zero_le _⟩

/-- The closure panics for a large uninitialized buffer whatever the socket has. -/
theorem largeBuf_panics : ¬∀ (socket : Socket Unit) (buf : ReadBuf) (tlsBuf : TlsBuf),
    ReadsWell socket buf tlsBuf := by
  intro h
  obtain ⟨result, buf', hRun, -⟩ := h ⟨fun _ => .error ()⟩ largeBuf
    ⟨List.replicate TLS_BUF_SIZE 0, List.length_replicate⟩
  have hSize : TLS_BUF_SIZE < largeBuf.remaining := by decide
  rw [pollReadInner_panics _ _ (by decide) hSize] at hRun
  simp at hRun

end Yaar.Net.TcpStream
