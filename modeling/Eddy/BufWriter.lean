import Eddy.AsyncIo

/-!
# Buffered writes

`BufWriter` of `io/buf.rs`. What has passed the writer is what the inner writer has accepted,
followed by the unsent part of the buffer: a write adds to it what it accepts, and nothing else
changes it.
-/

namespace Eddy.AsyncIo

variable {W : Type}

/-- The loop of `poll_flush`: write out `buffer[pos..]`. It fails with the message when the inner
writer accepts nothing. -/
def writeOut [AsyncWrite W] (message : String) (inner : W) (buffer : List UInt8) (pos : ℕ) :
    PollIo Unit × W × ℕ :=
  if pos < buffer.length then
    match pollWrite inner (buffer.drop pos) with
    | (.pending, inner) => (.pending, inner, pos)
    | (.ready (.ok 0), inner) => (.ready (.error (writeZero message)), inner, pos)
    | (.ready (.ok (amount + 1)), inner) => writeOut message inner buffer (pos + (amount + 1))
    | (.ready (.error error), inner) => (.ready (.error error), inner, pos)
  else (.ready (.ok ()), inner, pos)
termination_by buffer.length - pos

section WriteOut
variable [AsyncWrite W] {message : String} {buffer : List UInt8} {pos : ℕ}

theorem writeOut_le (inner : W) (h : pos ≤ buffer.length) :
    (writeOut message inner buffer pos).2.2 ≤ buffer.length := by
  fun_induction writeOut message inner buffer pos with
  | case1 | case2 | case4 | case5 => exact h
  | case3 inner pos hpos amount inner' hwrite ih =>
    apply ih
    have hle := AsyncWrite.pollWrite_le inner (buffer.drop pos) (amount + 1) (by rw [hwrite])
    rw [List.length_drop] at hle
    omega

/-- The loop succeeds only when nothing is left. -/
theorem drop_writeOut {inner : W} (h : (writeOut message inner buffer pos).1 = .ready (.ok ())) :
    buffer.drop (writeOut message inner buffer pos).2.2 = [] := by
  fun_induction writeOut message inner buffer pos with
  | case1 | case2 | case4 => cases h
  | case3 inner pos hpos amount inner' hwrite ih => exact ih h
  | case5 inner pos hpos => exact List.drop_eq_nil_of_le (Nat.not_lt.mp hpos)

theorem accepted_writeOut (inner : Logged W) :
    (writeOut message inner buffer pos).2.1.accepted ++
        buffer.drop (writeOut message inner buffer pos).2.2 =
      inner.accepted ++ buffer.drop pos := by
  fun_induction writeOut message inner buffer pos with
  | case1 inner pos hpos inner' hwrite | case2 inner pos hpos inner' hwrite
  | case4 inner pos hpos error inner' hwrite =>
    have haccepted := inner.accepted_pollWrite (buffer.drop pos)
    simpa [hwrite, taken] using haccepted
  | case3 inner pos hpos amount inner' hwrite ih =>
    have haccepted := inner.accepted_pollWrite (buffer.drop pos)
    rw [hwrite] at haccepted
    rw [ih, haccepted, List.append_assoc, ← List.drop_drop, taken, List.take_append_drop]
  | case5 inner pos hpos => rfl

theorem Unwritten.writeOut {α : Type} {value : W → α} (h : Unwritten value) (inner : W) :
    value (writeOut message inner buffer pos).2.1 = value inner := by
  fun_induction AsyncIo.writeOut message inner buffer pos with
  | case1 inner pos hpos inner' hwrite | case2 inner pos hpos inner' hwrite
  | case4 inner pos hpos error inner' hwrite =>
    have hvalue := h.pollWrite inner (buffer.drop pos)
    rwa [hwrite] at hvalue
  | case3 inner pos hpos amount inner' hwrite ih =>
    have hvalue := h.pollWrite inner (buffer.drop pos)
    rw [hwrite] at hvalue
    exact ih.trans hvalue
  | case5 inner pos hpos => rfl

end WriteOut

structure BufWriter (W : Type) where
  inner : W
  buffer : List UInt8
  pos : ℕ
  capacity : ℕ
  pos_le : pos ≤ buffer.length
  length_le : buffer.length ≤ capacity

namespace BufWriter

def withCapacity (capacity : ℕ) (_positive : 0 < capacity) (inner : W) : BufWriter W :=
  ⟨inner, [], 0, capacity, Nat.zero_le _, Nat.zero_le _⟩

/-- `buffer[pos..]` -/
def unsent (s : BufWriter W) : List UInt8 := s.buffer.drop s.pos

def compact (s : BufWriter W) : BufWriter W :=
  if 0 < s.pos then
    { s with
      buffer := s.unsent
      pos := 0
      pos_le := Nat.zero_le _
      length_le := by
        have hle := s.length_le
        simp [unsent]
        omega }
  else s

@[simp] theorem unsent_compact (s : BufWriter W) : s.compact.unsent = s.unsent := by
  unfold compact
  split
  · rfl
  · rfl

@[simp] theorem inner_compact (s : BufWriter W) : s.compact.inner = s.inner := by
  unfold compact
  split
  · rfl
  · rfl

/-- As much as there is room for goes into the buffer. -/
def append (s : BufWriter W) (buf : List UInt8) : PollIo ℕ × BufWriter W :=
  let amount := min buf.length (s.capacity - s.buffer.length)
  (.ready (.ok amount), { s with
    buffer := s.buffer ++ buf.take amount
    pos_le := by
      have hle := s.pos_le
      rw [List.length_append]
      omega
    length_le := by
      have hle := s.length_le
      rw [List.length_append, List.length_take]
      omega })

theorem append_le {s : BufWriter W} {buf : List UInt8} {n : ℕ}
    (h : (s.append buf).1 = .ready (.ok n)) : n ≤ buf.length := by
  obtain rfl : min buf.length (s.capacity - s.buffer.length) = n := by simpa [append] using h
  exact Nat.min_le_left _ _

@[simp] theorem capacity_compact (s : BufWriter W) : s.compact.capacity = s.capacity := by
  unfold compact
  split
  · rfl
  · rfl

variable [AsyncWrite W]

def flushLoop (s : BufWriter W) (message : String) : PollIo Unit × W × ℕ :=
  writeOut message s.inner s.buffer s.pos

/-- `poll_flush`, with the message of its loop. -/
def flush (s : BufWriter W) (message : String) : PollIo Unit × BufWriter W :=
  match (s.flushLoop message).1 with
  | .ready (.ok ()) =>
    let (poll, inner) := AsyncIo.pollFlush (s.flushLoop message).2.1
    (poll, { s with
      inner
      buffer := []
      pos := 0
      pos_le := Nat.zero_le _
      length_le := Nat.zero_le _ })
  | poll =>
    (poll, { s with
      inner := (s.flushLoop message).2.1
      pos := (s.flushLoop message).2.2
      pos_le := writeOut_le s.inner s.pos_le })

def pollFlush (s : BufWriter W) : PollIo Unit × BufWriter W :=
  s.flush "eddy: buffered writer made no progress"

/-- From the comparison with the capacity on: the buffer is empty, or there is room in it. -/
def write (s : BufWriter W) (buf : List UInt8) : PollIo ℕ × BufWriter W :=
  if s.buffer = [] ∧ s.capacity ≤ buf.length then
    let (poll, inner) := AsyncWrite.pollWrite s.inner buf
    (poll, { s with inner })
  else s.append buf

/-- The `clear` after the flush finds the buffer empty. -/
def pollWrite (s : BufWriter W) (buf : List UInt8) : PollIo ℕ × BufWriter W :=
  if buf = [] then (.ready (.ok 0), s)
  else if s.compact.buffer.length = s.capacity then
    match s.compact.pollFlush with
    | (.pending, s) => (.pending, s)
    | (.ready (.ok ()), s) => s.write buf
    | (.ready (.error error), s) => (.ready (.error error), s)
  else s.compact.write buf

def pollShutdown (s : BufWriter W) : PollIo Unit × BufWriter W :=
  match s.pollFlush with
  | (.pending, s) => (.pending, s)
  | (.ready (.ok ()), s) =>
    let (poll, inner) := AsyncWrite.pollShutdown s.inner
    (poll, { s with inner })
  | (.ready (.error error), s) => (.ready (.error error), s)

theorem flush_cases (s : BufWriter W) (message : String) :
    ((s.flush message).2.inner = (AsyncIo.pollFlush (s.flushLoop message).2.1).2 ∧
      (s.flush message).2.buffer = [] ∧ (s.flushLoop message).1 = .ready (.ok ())) ∨
    ((s.flush message).1 ≠ .ready (.ok ()) ∧
      (s.flush message).2.inner = (s.flushLoop message).2.1 ∧
      (s.flush message).2.unsent = s.buffer.drop (s.flushLoop message).2.2) := by
  unfold flush
  split
  · exact .inl ⟨rfl, rfl, ‹_›⟩
  · rename_i hpoll
    exact .inr ⟨hpoll, rfl, rfl⟩

variable {s : BufWriter W}

theorem buffer_flush {message : String}
    (h : (s.flush message).1 = .ready (.ok ())) : (s.flush message).2.buffer = [] := by
  obtain ⟨-, hempty, -⟩ | ⟨hpoll, -⟩ := s.flush_cases message
  · exact hempty
  · exact absurd h hpoll

theorem value_flush {α : Type} {value : W → α} (h : Unwritten value) (s : BufWriter W)
    (message : String) : value (s.flush message).2.inner = value s.inner := by
  have hloop : value (s.flushLoop message).2.1 = value s.inner := h.writeOut s.inner
  obtain ⟨hinner, -⟩ | ⟨-, hinner, -⟩ := s.flush_cases message
  · rw [hinner, h.pollFlush, hloop]
  · rw [hinner, hloop]

theorem capacity_flush (s : BufWriter W) (message : String) :
    (s.flush message).2.capacity = s.capacity := by
  unfold flush
  split
  · rfl
  · rfl

theorem buffer_pollShutdown (h : s.pollShutdown.1 = .ready (.ok ())) :
    s.pollShutdown.2.buffer = [] := by
  revert h
  unfold pollShutdown
  split
  · intro h
    cases h
  · rename_i t hflush
    have hempty : s.pollFlush.2.buffer = [] := buffer_flush (by rw [← pollFlush, hflush])
    rw [hflush] at hempty
    exact fun _ => hempty
  · intro h
    cases h

theorem write_le {buf : List UInt8} {n : ℕ}
    (h : (s.write buf).1 = .ready (.ok n)) : n ≤ buf.length := by
  unfold write at h
  split at h
  · exact AsyncWrite.pollWrite_le s.inner buf n h
  · exact append_le h

theorem pollWrite_le {buf : List UInt8} {n : ℕ}
    (h : (s.pollWrite buf).1 = .ready (.ok n)) : n ≤ buf.length := by
  unfold pollWrite at h
  split at h
  · obtain rfl : 0 = n := by simpa using h
    exact Nat.zero_le _
  · split at h
    · split at h
      · cases h
      · exact write_le h
      · cases h
    · exact write_le h

end BufWriter

instance [AsyncWrite W] : AsyncWrite (BufWriter W) where
  pollWrite := BufWriter.pollWrite
  pollFlush := BufWriter.pollFlush
  pollShutdown := BufWriter.pollShutdown
  pollWrite_le _ _ _ := BufWriter.pollWrite_le

namespace BufWriter
variable [AsyncWrite W]

/-- What the inner writer has accepted and what it has yet to be given. -/
def passed (s : BufWriter (Logged W)) : List UInt8 := s.inner.accepted ++ s.unsent

theorem passed_flush (s : BufWriter (Logged W)) (message : String) :
    (s.flush message).2.passed = s.passed := by
  have hloop : (s.flushLoop message).2.1.accepted ++ s.buffer.drop (s.flushLoop message).2.2 =
      s.passed := accepted_writeOut s.inner
  obtain ⟨hinner, hempty, hpoll⟩ | ⟨-, hinner, hunsent⟩ := s.flush_cases message
  · have hdrop : s.buffer.drop (s.flushLoop message).2.2 = [] := drop_writeOut hpoll
    rw [hdrop] at hloop
    rw [passed, unsent, hinner, hempty, List.drop_nil, Logged.accepted_pollFlush, hloop]
  · rw [passed, hinner, hunsent, hloop]

omit [AsyncWrite W] in
theorem passed_append (s : BufWriter (Logged W)) (buf : List UInt8) :
    (s.append buf).2.passed = s.passed ++ taken (s.append buf).1 buf := by
  simp [append, passed, unsent, taken, List.drop_append_of_le_length s.pos_le]

theorem passed_write (s : BufWriter (Logged W)) (buf : List UInt8) :
    (s.write buf).2.passed = s.passed ++ taken (s.write buf).1 buf := by
  unfold write
  split
  · rename_i hempty
    simp [passed, unsent, hempty.1]
  · exact s.passed_append buf

theorem passed_pollWrite (s : BufWriter (Logged W)) (buf : List UInt8) :
    (s.pollWrite buf).2.passed = s.passed ++ taken (s.pollWrite buf).1 buf := by
  have hcompact : s.compact.passed = s.passed := by simp [passed]
  unfold pollWrite
  split
  · simp_all [taken]
  · split
    · have hflush := s.compact.passed_flush "eddy: buffered writer made no progress"
      rw [← pollFlush] at hflush
      split
      · simp_all [taken]
      · rw [passed_write]
        simp_all
      · simp_all [taken]
    · rw [passed_write, hcompact]

theorem passed_pollShutdown (s : BufWriter (Logged W)) : s.pollShutdown.2.passed = s.passed := by
  have hflush := s.passed_flush "eddy: buffered writer made no progress"
  rw [← pollFlush] at hflush
  unfold pollShutdown
  split
  · simp_all
  · simp_all [passed, unsent]
  · simp_all

theorem passes : Passes (passed (W := W)) :=
  ⟨passed_pollWrite, fun s => s.passed_flush _, passed_pollShutdown⟩

theorem unwritten_capacity : Unwritten fun s : BufWriter W => s.capacity where
  pollWrite s buf := by
    have hflush := s.compact.capacity_flush "eddy: buffered writer made no progress"
    rw [capacity_compact, ← pollFlush] at hflush
    have hwrite : ∀ t : BufWriter W, (t.write buf).2.capacity = t.capacity := by
      intro t
      unfold write
      split
      · rfl
      · rfl
    change (s.pollWrite buf).2.capacity = s.capacity
    unfold pollWrite
    split
    · rfl
    · split
      · split
        · simp_all
        · rw [hwrite]
          simp_all
        · simp_all
      · rw [hwrite, capacity_compact]
  pollFlush s := s.capacity_flush _
  pollShutdown s := by
    have hflush := s.capacity_flush "eddy: buffered writer made no progress"
    rw [← pollFlush] at hflush
    change s.pollShutdown.2.capacity = s.capacity
    unfold pollShutdown
    split
    · simp_all
    · simp_all
    · simp_all

end BufWriter

end Eddy.AsyncIo
