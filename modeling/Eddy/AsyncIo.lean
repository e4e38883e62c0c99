import Mathlib.Data.List.Basic
import Mathlib.Data.Int.Notation

/-!
# Asynchronous readers and writers

`ReadBuf`, `AsyncRead` and `AsyncWrite` of `io/mod.rs`. A reader or a writer is a state together
with its poll functions, so that it may answer as it likes within the contract of the trait, which
the classes carry.
-/

namespace Eddy.AsyncIo

inductive Poll (α : Type) where
  | pending
  | ready (value : α)
  deriving DecidableEq

inductive ErrorKind where
  | writeZero | invalidData | wouldBlock
  deriving DecidableEq

inductive IoError where
  | os (code : ℤ)
  | new (kind : ErrorKind) (message : String)
  /-- Of kind `InvalidData`, around a `FromUtf8Error`, which keeps the bytes. -/
  | utf8 (bytes : List UInt8)
  deriving DecidableEq

abbrev PollIo (α : Type) := Poll (Except IoError α)

def writeZero (message : String) : IoError := .new .writeZero message

/-- The memory, of which the first `filledLen` bytes are filled. -/
structure ReadBuf where
  buf : List UInt8
  filledLen : ℕ
  filledLen_le : filledLen ≤ buf.length

namespace ReadBuf

def new (buf : List UInt8) : ReadBuf := ⟨buf, 0, Nat.zero_le _⟩

def filled (b : ReadBuf) : List UInt8 := b.buf.take b.filledLen

def remaining (b : ReadBuf) : ℕ := b.buf.length - b.filledLen

/-- Write the bytes to the front of the unfilled part, and `advance` past them, which asserts that
they fit. -/
def fill (b : ReadBuf) (bytes : List UInt8) (_fits : bytes.length ≤ b.remaining) : ReadBuf where
  buf := b.filled ++ bytes ++ b.buf.drop (b.filledLen + bytes.length)
  filledLen := b.filledLen + bytes.length
  filledLen_le := by
    have hle := b.filledLen_le
    simp [filled]
    omega

/-- What `b'` has filled beyond `b`. -/
def added (b b' : ReadBuf) : List UInt8 := b'.filled.drop b.filledLen

@[simp] theorem filled_new (buf : List UInt8) : (new buf).filled = [] := rfl

@[simp] theorem buf_new (buf : List UInt8) : (new buf).buf = buf := rfl

@[simp] theorem remaining_new (buf : List UInt8) : (new buf).remaining = buf.length := rfl

@[simp] theorem length_filled (b : ReadBuf) : b.filled.length = b.filledLen := by
  simp [filled, b.filledLen_le]

@[simp] theorem filled_fill (b : ReadBuf) (bytes : List UInt8) (h : bytes.length ≤ b.remaining) :
    (b.fill bytes h).filled = b.filled ++ bytes := by
  have hlength : (b.filled ++ bytes).length = b.filledLen + bytes.length := by simp
  exact List.take_left' hlength

@[simp] theorem length_fill (b : ReadBuf) (bytes : List UInt8) (h : bytes.length ≤ b.remaining) :
    (b.fill bytes h).buf.length = b.buf.length := by
  have hle := b.filledLen_le
  unfold remaining at h
  simp [fill]
  omega

theorem remaining_fill (b : ReadBuf) (bytes : List UInt8) (h : bytes.length ≤ b.remaining) :
    (b.fill bytes h).remaining = b.remaining - bytes.length := by
  have hlength := length_fill b bytes h
  change (b.fill bytes h).buf.length - (b.filledLen + bytes.length) =
    b.buf.length - b.filledLen - bytes.length
  omega

@[simp] theorem added_new (buf : List UInt8) (b : ReadBuf) : (new buf).added b = b.filled := rfl

theorem added_of_filled {b b' : ReadBuf} {bytes : List UInt8} (h : b'.filled = b.filled ++ bytes) :
    b.added b' = bytes := by
  rw [added, h]
  exact List.drop_left' b.length_filled

@[simp] theorem added_fill (b : ReadBuf) (bytes : List UInt8) (h : bytes.length ≤ b.remaining) :
    b.added (b.fill bytes h) = bytes :=
  added_of_filled (filled_fill b bytes h)

@[simp] theorem added_self (b : ReadBuf) : b.added b = [] :=
  added_of_filled (List.append_nil _).symm

end ReadBuf

/-- A poll that is not ready with success has read nothing, and one that is reports what it has
read in the buffer. -/
class AsyncRead (R : Type) where
  pollRead : R → ReadBuf → PollIo Unit × R × ReadBuf
  length_pollRead : ∀ r b, (pollRead r b).2.2.buf.length = b.buf.length
  filled_pollRead : ∀ r b, b.filled <+: (pollRead r b).2.2.filled
  stalled_pollRead : ∀ r b, (pollRead r b).1 ≠ .ready (.ok ()) →
    (pollRead r b).2.2.filled = b.filled

/-- A write takes a part of what it is given, from the front. -/
class AsyncWrite (W : Type) where
  pollWrite : W → List UInt8 → PollIo ℕ × W
  pollFlush : W → PollIo Unit × W
  pollShutdown : W → PollIo Unit × W
  pollWrite_le : ∀ w buf n, (pollWrite w buf).1 = .ready (.ok n) → n ≤ buf.length

export AsyncRead (pollRead)
export AsyncWrite (pollWrite pollFlush pollShutdown)

theorem filled_pollRead_eq {R : Type} [AsyncRead R] (r : R) (b : ReadBuf) :
    (pollRead r b).2.2.filled = b.filled ++ b.added (pollRead r b).2.2 := by
  obtain ⟨bytes, hbytes⟩ := AsyncRead.filled_pollRead r b
  rw [← hbytes, ReadBuf.added_of_filled hbytes.symm]

theorem added_stalled {R : Type} [AsyncRead R] {r : R} {b : ReadBuf}
    (h : (pollRead r b).1 ≠ .ready (.ok ())) : b.added (pollRead r b).2.2 = [] :=
  ReadBuf.added_of_filled (by rw [AsyncRead.stalled_pollRead r b h, List.append_nil])

/-- What a write of `buf` that returned so has accepted. -/
def taken (poll : PollIo ℕ) (buf : List UInt8) : List UInt8 :=
  match poll with
  | .ready (.ok n) => buf.take n
  | _ => []

/-- An object beside what has passed through its traits. -/
structure Logged (S : Type) where
  inner : S
  /-- What its reads have delivered. -/
  consumed : List UInt8
  /-- Its last read that succeeded had room and delivered nothing. -/
  ended : Bool
  /-- What its writes have accepted. -/
  accepted : List UInt8

namespace Logged
variable {S : Type}

def new (inner : S) : Logged S := ⟨inner, [], false, []⟩

instance [AsyncRead S] : AsyncRead (Logged S) where
  pollRead s b :=
    let (poll, inner, b') := pollRead s.inner b
    (poll, { s with
      inner
      consumed := s.consumed ++ b.added b'
      ended := match poll with
        | .ready (.ok ()) => 0 < b.remaining ∧ b.added b' = []
        | _ => s.ended }, b')
  length_pollRead s := AsyncRead.length_pollRead s.inner
  filled_pollRead s := AsyncRead.filled_pollRead s.inner
  stalled_pollRead s := AsyncRead.stalled_pollRead s.inner

instance [AsyncWrite S] : AsyncWrite (Logged S) where
  pollWrite s buf :=
    let (poll, inner) := pollWrite s.inner buf
    (poll, { s with inner, accepted := s.accepted ++ taken poll buf })
  pollFlush s :=
    let (poll, inner) := pollFlush s.inner
    (poll, { s with inner })
  pollShutdown s :=
    let (poll, inner) := pollShutdown s.inner
    (poll, { s with inner })
  pollWrite_le s := AsyncWrite.pollWrite_le s.inner

@[simp] theorem accepted_pollWrite [AsyncWrite S] (s : Logged S) (buf : List UInt8) :
    (pollWrite s buf).2.accepted = s.accepted ++ taken (pollWrite s buf).1 buf := rfl

@[simp] theorem accepted_pollFlush [AsyncWrite S] (s : Logged S) :
    (pollFlush s).2.accepted = s.accepted := rfl

@[simp] theorem accepted_pollShutdown [AsyncWrite S] (s : Logged S) :
    (pollShutdown s).2.accepted = s.accepted := rfl

@[simp] theorem consumed_pollRead [AsyncRead S] (s : Logged S) (b : ReadBuf) :
    (pollRead s b).2.1.consumed = s.consumed ++ b.added (pollRead s b).2.2 := rfl

theorem ended_pollRead [AsyncRead S] {s : Logged S} {b : ReadBuf}
    (hpoll : (pollRead s b).1 = .ready (.ok ())) (hroom : 0 < b.remaining)
    (hnone : b.added (pollRead s b).2.2 = []) : (pollRead s b).2.1.ended = true := by
  have hinner : (pollRead s.inner b).1 = .ready (.ok ()) := hpoll
  have hadded : b.added (pollRead s.inner b).2.2 = [] := hnone
  simp [pollRead, hinner, hroom, hadded]

theorem ended_stalled [AsyncRead S] {s : Logged S} {b : ReadBuf}
    (hpoll : (pollRead s b).1 ≠ .ready (.ok ())) : (pollRead s b).2.1.ended = s.ended := by
  have hinner : (pollRead s.inner b).1 ≠ .ready (.ok ()) := hpoll
  simp only [pollRead]

end Logged

/-- What the reads and the writes answer, in turn; after that, reads are at the end, and writes
accept everything. -/
structure Script where
  reads : List (PollIo (List UInt8))
  writes : List (PollIo ℕ)

namespace Script

/-- A read for which there is no room in the buffer stays for the next call. -/
def pollRead (s : Script) (b : ReadBuf) : PollIo Unit × Script × ReadBuf :=
  match s.reads with
  | [] => (.ready (.ok ()), s, b)
  | .pending :: reads => (.pending, { s with reads }, b)
  | .ready (.error error) :: reads => (.ready (.error error), { s with reads }, b)
  | .ready (.ok bytes) :: reads =>
    (.ready (.ok ()),
      { s with
        reads := match bytes.drop b.remaining with
          | [] => reads
          | rest => .ready (.ok rest) :: reads },
      b.fill (bytes.take b.remaining) (List.length_take_le _ _))

def pollWrite (s : Script) (buf : List UInt8) : PollIo ℕ × Script :=
  match s.writes with
  | [] => (.ready (.ok buf.length), s)
  | .pending :: writes => (.pending, { s with writes })
  | .ready (.error error) :: writes => (.ready (.error error), { s with writes })
  | .ready (.ok n) :: writes => (.ready (.ok (min n buf.length)), { s with writes })

instance : AsyncRead Script where
  pollRead := pollRead
  length_pollRead s b := by
    unfold pollRead
    split <;> simp
  filled_pollRead s b := by
    unfold pollRead
    split <;> simp
  stalled_pollRead s b h := by
    unfold pollRead at h ⊢
    split <;> simp_all

instance : AsyncWrite Script where
  pollWrite := pollWrite
  pollFlush s := (.ready (.ok ()), s)
  pollShutdown s := (.ready (.ok ()), s)
  pollWrite_le s buf n h := by
    unfold pollWrite at h
    split at h <;> simp_all
    omega

end Script

inductive WriteCall where
  | write (buf : List UInt8)
  | flush
  | shutdown

def WriteCall.perform {W : Type} [AsyncWrite W] (w : W) : WriteCall → W
  | .write buf => (pollWrite w buf).2
  | .flush => (pollFlush w).2
  | .shutdown => (pollShutdown w).2

/-- A write adds to `passed` what it accepts, and nothing else changes it. -/
structure Passes {W : Type} [AsyncWrite W] (passed : W → List UInt8) : Prop where
  pollWrite : ∀ w buf, passed (pollWrite w buf).2 = passed w ++ taken (pollWrite w buf).1 buf
  pollFlush : ∀ w, passed (pollFlush w).2 = passed w
  pollShutdown : ∀ w, passed (pollShutdown w).2 = passed w

namespace Passes
variable {W : Type} [AsyncWrite W] {passed : W → List UInt8}

/-- The log of a writer agrees with whatever has passed through it. -/
theorem perform (h : Passes passed) (s : Logged W) (call : WriteCall)
    (hs : passed s.inner = s.accepted) :
    passed (call.perform s).inner = (call.perform s).accepted := by
  cases call with
  | write buf =>
    have hpassed : passed (AsyncIo.pollWrite s buf).2.inner =
        passed s.inner ++ taken (AsyncIo.pollWrite s buf).1 buf := h.pollWrite s.inner buf
    rw [WriteCall.perform, hpassed, hs, Logged.accepted_pollWrite]
  | flush => exact (h.pollFlush s.inner).trans hs
  | shutdown => exact (h.pollShutdown s.inner).trans hs

theorem run (h : Passes passed) (s : Logged W) (calls : List WriteCall)
    (hs : passed s.inner = s.accepted) :
    passed (calls.foldl WriteCall.perform s).inner =
      (calls.foldl WriteCall.perform s).accepted := by
  induction calls generalizing s with
  | nil => exact hs
  | cons call calls ih => exact ih (call.perform s) (h.perform s call hs)

end Passes

structure Unwritten {W : Type} [AsyncWrite W] {α : Type} (value : W → α) : Prop where
  pollWrite : ∀ w buf, value (pollWrite w buf).2 = value w
  pollFlush : ∀ w, value (pollFlush w).2 = value w
  pollShutdown : ∀ w, value (pollShutdown w).2 = value w

theorem Unwritten.perform {W : Type} [AsyncWrite W] {α : Type} {value : W → α}
    (h : Unwritten value) (w : W) (call : WriteCall) : value (call.perform w) = value w := by
  cases call with
  | write buf => exact h.pollWrite w buf
  | flush => exact h.pollFlush w
  | shutdown => exact h.pollShutdown w

theorem Unwritten.logged {W : Type} [AsyncWrite W] {α : Type} {value : W → α}
    (h : Unwritten value) : Unwritten fun s : Logged W => value s.inner :=
  ⟨fun s => h.pollWrite s.inner, fun s => h.pollFlush s.inner, fun s => h.pollShutdown s.inner⟩

theorem Unwritten.run {W : Type} [AsyncWrite W] {α : Type} {value : W → α} (h : Unwritten value)
    (w : W) (calls : List WriteCall) : value (calls.foldl WriteCall.perform w) = value w := by
  induction calls generalizing w with
  | nil => rfl
  | cons call calls ih => exact (ih (call.perform w)).trans (h.perform w call)

theorem Logged.unwritten_consumed {S : Type} [AsyncWrite S] :
    Unwritten fun s : Logged S => s.consumed :=
  ⟨fun _ _ => rfl, fun _ => rfl, fun _ => rfl⟩

end Eddy.AsyncIo
