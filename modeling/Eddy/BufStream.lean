import Eddy.BufReader
import Eddy.BufWriter

/-!
# Buffered streams

`BufStream` of `io/buf.rs`, with its calls of both kinds in any order. Its read side is that of
`BufReader`; its writes never bypass the buffer, and a read first flushes what was written.
-/

namespace Eddy.AsyncIo
open Interleaving

variable {S : Type}

structure BufStream (S : Type) where
  inner : S
  readBuffer : List UInt8
  readPos : ℕ
  readCap : ℕ
  writeBuffer : List UInt8
  writePos : ℕ
  writeCapacity : ℕ
  readPos_le : readPos ≤ readCap
  readCap_le : readCap ≤ readBuffer.length
  nonempty : 0 < readBuffer.length
  writePos_le : writePos ≤ writeBuffer.length
  length_le : writeBuffer.length ≤ writeCapacity

namespace BufStream

def withCapacity (capacity : ℕ) (positive : 0 < capacity) (inner : S) : BufStream S where
  inner
  readBuffer := List.replicate capacity 0
  readPos := 0
  readCap := 0
  writeBuffer := []
  writePos := 0
  writeCapacity := capacity
  readPos_le := le_refl _
  readCap_le := zero_le
  nonempty := positive.trans_le List.length_replicate.ge
  writePos_le := zero_le
  length_le := zero_le

/-- The fields of the read side, which are those of a `BufReader`. -/
def reading (s : BufStream S) : BufReader S where
  inner := s.inner
  buffer := s.readBuffer
  pos := s.readPos
  cap := s.readCap
  pos_le := s.readPos_le
  cap_le := s.readCap_le
  nonempty := s.nonempty

def setReading (s : BufStream S) (reading : BufReader S) : BufStream S :=
  { s with
    inner := reading.inner
    readBuffer := reading.buffer
    readPos := reading.pos
    readCap := reading.cap
    readPos_le := reading.pos_le
    readCap_le := reading.cap_le
    nonempty := reading.nonempty }

/-- The fields of the write side, which are those of a `BufWriter`. -/
def writing (s : BufStream S) : BufWriter S where
  inner := s.inner
  buffer := s.writeBuffer
  pos := s.writePos
  capacity := s.writeCapacity
  pos_le := s.writePos_le
  length_le := s.length_le

def setWriting (s : BufStream S) (writing : BufWriter S) : BufStream S :=
  { s with
    inner := writing.inner
    writeBuffer := writing.buffer
    writePos := writing.pos
    writeCapacity := writing.capacity
    writePos_le := writing.pos_le
    length_le := writing.length_le }

def window (s : BufStream S) : List UInt8 := s.reading.window

def consume (s : BufStream S) (amount : ℕ) : BufStream S := s.setReading (s.reading.consume amount)

/-- The statements of `BufReader::poll_fill_buf_inner`, on the read side. -/
def pollFillReadBuffer [AsyncRead S] (s : BufStream S) : PollIo Unit × BufStream S :=
  (s.reading.pollFillBuf.1, s.setReading s.reading.pollFillBuf.2)

section Writes
variable [AsyncWrite S]

def pollFlush (s : BufStream S) : PollIo Unit × BufStream S :=
  let (poll, writing) := s.writing.flush "eddy: buffered stream made no progress"
  (poll, s.setWriting writing)

def pollWrite (s : BufStream S) (buf : List UInt8) : PollIo ℕ × BufStream S :=
  if buf = [] then (.ready (.ok 0), s)
  else
    let s := s.setWriting s.writing.compact
    if s.writeBuffer.length = s.writeCapacity then
      match s.pollFlush with
      | (.pending, s) => (.pending, s)
      | (.ready (.ok ()), s) =>
        let (poll, writing) := s.writing.append buf
        (poll, s.setWriting writing)
      | (.ready (.error error), s) => (.ready (.error error), s)
    else
      let (poll, writing) := s.writing.append buf
      (poll, s.setWriting writing)

def pollShutdown (s : BufStream S) : PollIo Unit × BufStream S :=
  match s.pollFlush with
  | (.pending, s) => (.pending, s)
  | (.ready (.ok ()), s) =>
    let (poll, inner) := AsyncIo.pollShutdown s.inner
    (poll, { s with inner })
  | (.ready (.error error), s) => (.ready (.error error), s)

end Writes

def copyTo (s : BufStream S) (buf : ReadBuf) : PollIo Unit × BufStream S × ReadBuf :=
  let amount := min s.window.length buf.remaining
  (.ready (.ok ()), s.setReading (s.reading.advance amount (Nat.min_le_left _ _)),
    buf.fill (s.window.take amount) (by
      rw [List.length_take]
      omega))

def pollRead [AsyncRead S] [AsyncWrite S] (s : BufStream S) (buf : ReadBuf) :
    PollIo Unit × BufStream S × ReadBuf :=
  match s.pollFlush with
  | (.pending, s) => (.pending, s, buf)
  | (.ready (.ok ()), s) =>
    match s.pollFillReadBuffer with
    | (.pending, s) => (.pending, s, buf)
    | (.ready (.ok ()), s) => s.copyTo buf
    | (.ready (.error error), s) => (.ready (.error error), s, buf)
  | (.ready (.error error), s) => (.ready (.error error), s, buf)

@[simp] theorem inner_setWriting (s : BufStream S) (writing : BufWriter S) :
    (s.setWriting writing).inner = writing.inner := rfl

@[simp] theorem writing_setWriting (s : BufStream S) (writing : BufWriter S) :
    (s.setWriting writing).writing = writing := rfl

@[simp] theorem window_setWriting (s : BufStream S) (writing : BufWriter S) :
    (s.setWriting writing).window = s.window := rfl

@[simp] theorem inner_setReading (s : BufStream S) (reading : BufReader S) :
    (s.setReading reading).inner = reading.inner := rfl

@[simp] theorem window_setReading (s : BufStream S) (reading : BufReader S) :
    (s.setReading reading).window = reading.window := rfl

@[simp] theorem unsent_setReading (s : BufStream S) (reading : BufReader S) :
    (s.setReading reading).writing.unsent = s.writing.unsent := rfl

theorem filled_copyTo (s : BufStream S) (buf : ReadBuf) :
    (s.copyTo buf).2.2.filled = buf.filled ++ s.window.take buf.remaining := by
  rw [copyTo, ReadBuf.filled_fill, take_min_length]

theorem window_copyTo (s : BufStream S) (buf : ReadBuf) :
    (s.copyTo buf).2.1.window = s.window.drop buf.remaining :=
  s.reading.window_advance_min buf.remaining

theorem length_copyTo (s : BufStream S) (buf : ReadBuf) :
    (s.copyTo buf).2.2.buf.length = buf.buf.length := by
  rw [copyTo, ReadBuf.length_fill]

theorem pollRead_cases [AsyncRead S] [AsyncWrite S] (s : BufStream S) (buf : ReadBuf) :
    (s.pollFlush.1 ≠ .ready (.ok ()) ∧
      s.pollRead buf = (s.pollFlush.1, s.pollFlush.2, buf)) ∨
    (s.pollFlush.2.pollFillReadBuffer.1 ≠ .ready (.ok ()) ∧
      s.pollRead buf = (s.pollFlush.2.pollFillReadBuffer.1,
        s.pollFlush.2.pollFillReadBuffer.2, buf)) ∨
    (s.pollFlush.2.pollFillReadBuffer.1 = .ready (.ok ()) ∧
      s.pollRead buf = s.pollFlush.2.pollFillReadBuffer.2.copyTo buf) := by
  unfold pollRead
  split
  · rename_i hflush
    exact .inl (by simp [hflush])
  · rename_i hflush
    rw [hflush]
    split
    · rename_i hfill
      exact .inr (.inl (by simp [hfill]))
    · rename_i hfill
      exact .inr (.inr (by simp [hfill]))
    · rename_i hfill
      exact .inr (.inl (by simp [hfill]))
  · rename_i hflush
    exact .inl (by simp [hflush])

theorem pollWrite_le [AsyncWrite S] {s : BufStream S} {buf : List UInt8} {n : ℕ}
    (h : (s.pollWrite buf).1 = .ready (.ok n)) : n ≤ buf.length := by
  unfold pollWrite at h
  split at h
  · obtain rfl : 0 = n := by simpa using h
    exact Nat.zero_le _
  · dsimp only at h
    split at h
    · split at h
      · cases h
      · exact BufWriter.append_le h
      · cases h
    · exact BufWriter.append_le h

end BufStream

instance [AsyncRead S] [AsyncWrite S] : AsyncBufRead (BufStream S) where
  pollRead := BufStream.pollRead
  length_pollRead s buf := by
    obtain ⟨-, h⟩ | ⟨-, h⟩ | ⟨-, h⟩ := s.pollRead_cases buf
    · rw [h]
    · rw [h]
    · rw [h, BufStream.length_copyTo]
  filled_pollRead s buf := by
    obtain ⟨-, h⟩ | ⟨-, h⟩ | ⟨-, h⟩ := s.pollRead_cases buf
    · simp only [h, List.prefix_rfl]
    · simp only [h, List.prefix_rfl]
    · rw [h, BufStream.filled_copyTo]
      exact List.prefix_append _ _
  stalled_pollRead s buf hpoll := by
    obtain ⟨-, h⟩ | ⟨-, h⟩ | ⟨-, h⟩ := s.pollRead_cases buf
    · rw [h]
    · rw [h]
    · rw [h] at hpoll
      exact absurd rfl hpoll
  pollFillBuf := BufStream.pollFillReadBuffer
  window := BufStream.window
  consume := BufStream.consume

instance [AsyncWrite S] : AsyncWrite (BufStream S) where
  pollWrite := BufStream.pollWrite
  pollFlush := BufStream.pollFlush
  pollShutdown := BufStream.pollShutdown
  pollWrite_le _ _ _ := BufStream.pollWrite_le

namespace BufStream

section Writes
variable [AsyncWrite S]

/-- What the inner writer has accepted and what it has yet to be given. -/
def passed (s : BufStream (Logged S)) : List UInt8 := s.writing.passed

theorem passed_pollFlush (s : BufStream (Logged S)) : s.pollFlush.2.passed = s.passed :=
  s.writing.passed_flush _

theorem passed_pollWrite (s : BufStream (Logged S)) (buf : List UInt8) :
    (s.pollWrite buf).2.passed = s.passed ++ taken (s.pollWrite buf).1 buf := by
  have hcompact : (s.setWriting s.writing.compact).passed = s.passed := by
    simp [passed, BufWriter.passed]
  unfold pollWrite
  split
  · simp_all [taken]
  · dsimp only
    split
    · have hflush := (s.setWriting s.writing.compact).passed_pollFlush
      split
      · simp_all [taken]
      · rename_i t ht
        have happend := t.writing.passed_append buf
        rw [ht] at hflush
        exact happend.trans (by rw [← passed, hflush, hcompact])
      · simp_all [taken]
    · exact (s.writing.compact.passed_append buf).trans (by rw [← hcompact]; rfl)

theorem passed_pollShutdown (s : BufStream (Logged S)) : s.pollShutdown.2.passed = s.passed := by
  have hflush := s.passed_pollFlush
  unfold pollShutdown
  split
  · simp_all
  · rename_i t ht
    rw [ht] at hflush
    exact hflush
  · simp_all

theorem writeBuffer_pollFlush {s : BufStream S} (h : s.pollFlush.1 = .ready (.ok ())) :
    s.pollFlush.2.writeBuffer = [] :=
  BufWriter.buffer_flush h

theorem writeBuffer_pollShutdown {s : BufStream S} (h : s.pollShutdown.1 = .ready (.ok ())) :
    s.pollShutdown.2.writeBuffer = [] := by
  revert h
  unfold pollShutdown
  split
  · intro h
    cases h
  · rename_i t hflush
    have hempty := writeBuffer_pollFlush (s := s) (by rw [hflush])
    rw [hflush] at hempty
    exact fun _ => hempty
  · intro h
    cases h

theorem passes : Passes (passed (S := S)) :=
  ⟨passed_pollWrite, passed_pollFlush, passed_pollShutdown⟩

end Writes

section Frame
variable [AsyncWrite S] {α : Type} {value : S → α}

/-- What the writes leave alone, beside a value of the inner object. -/
def frame (value : S → α) (s : BufStream S) : α × List UInt8 × ℕ :=
  (value s.inner, s.window, s.writeCapacity)

theorem frame_pollFlush (h : Unwritten value) (s : BufStream S) :
    frame value s.pollFlush.2 = frame value s := by
  have hinner : value s.pollFlush.2.inner = value s.inner := BufWriter.value_flush h s.writing _
  have hcapacity : s.pollFlush.2.writeCapacity = s.writeCapacity := s.writing.capacity_flush _
  rw [frame, hinner, hcapacity]
  rfl

omit [AsyncWrite S] in
theorem frame_compact (s : BufStream S) :
    frame value (s.setWriting s.writing.compact) = frame value s := by
  rw [frame, inner_setWriting, BufWriter.inner_compact]
  exact congrArg (fun capacity => (value s.inner, s.window, capacity)) s.writing.capacity_compact

/-- What no write of the inner object changes is kept by those of the stream. -/
theorem unwritten (h : Unwritten value) : Unwritten (frame value) where
  pollWrite s buf := by
    have hflush := frame_pollFlush h (s.setWriting s.writing.compact)
    rw [frame_compact] at hflush
    change frame value (s.pollWrite buf).2 = frame value s
    unfold pollWrite
    split
    · rfl
    · dsimp only
      split
      · split
        · simp_all
        · rename_i t ht
          rw [ht] at hflush
          exact hflush
        · simp_all
      · exact frame_compact s
  pollFlush := frame_pollFlush h
  pollShutdown s := by
    have hflush := frame_pollFlush h s
    change frame value s.pollShutdown.2 = frame value s
    unfold pollShutdown
    split
    · simp_all
    · rename_i t ht
      rw [ht] at hflush
      rw [← hflush, frame, h.pollShutdown]
      rfl
    · simp_all

end Frame

theorem pollFillReadBuffer_readsAhead [AsyncRead S] (s : BufStream (Logged S)) : ∃ bytes,
    s.pollFillReadBuffer.2.inner.consumed = s.inner.consumed ++ bytes ∧
      s.pollFillReadBuffer.2.window = s.window ++ bytes :=
  s.reading.pollFillBuf_readsAhead

variable [AsyncRead S] [AsyncWrite S]

theorem readsAhead : ReadsAhead fun s : BufStream (Logged S) => s.inner.consumed where
  pollRead s buf := by
    have hconsumed : s.pollFlush.2.inner.consumed = s.inner.consumed :=
      congrArg Prod.fst (frame_pollFlush Logged.unwritten_consumed s)
    have hkept : s.pollFlush.2.window = s.window := rfl
    obtain ⟨bytes, hsource, hwindow⟩ := s.pollFlush.2.pollFillReadBuffer_readsAhead
    rw [hconsumed] at hsource
    rw [hkept] at hwindow
    change ∃ bytes, (s.pollRead buf).2.1.inner.consumed = s.inner.consumed ++ bytes ∧
      s.window ++ bytes = buf.added (s.pollRead buf).2.2 ++ (s.pollRead buf).2.1.window
    obtain ⟨-, h⟩ | ⟨-, h⟩ | ⟨-, h⟩ := s.pollRead_cases buf
    · exact ⟨[], by simp [h, hconsumed], by simp [h, hkept]⟩
    · exact ⟨bytes, by rw [h, hsource], by rw [h, ReadBuf.added_self, hwindow, List.nil_append]⟩
    · refine ⟨bytes, by rw [h, ← hsource]; rfl, ?_⟩
      rw [h, ReadBuf.added_of_filled (filled_copyTo _ buf), window_copyTo, List.take_append_drop,
        hwindow]
  pollFillBuf := pollFillReadBuffer_readsAhead
  consume s n := ⟨rfl, s.reading.window_consume n⟩

/-- A read with room that delivers nothing has found the end of the inner object. -/
theorem ended_pollRead {s : BufStream (Logged S)} {buf : ReadBuf}
    (hpoll : (s.pollRead buf).1 = .ready (.ok ())) (hroom : 0 < buf.remaining)
    (hnone : buf.added (s.pollRead buf).2.2 = []) : (s.pollRead buf).2.1.inner.ended = true := by
  obtain ⟨hflush, h⟩ | ⟨hfill, h⟩ | ⟨hfill, h⟩ := s.pollRead_cases buf
  · rw [h] at hpoll
    exact absurd hpoll hflush
  · rw [h] at hpoll
    exact absurd hpoll hfill
  · rw [h, ReadBuf.added_of_filled (filled_copyTo _ buf), List.take_eq_nil_iff] at hnone
    rw [h]
    exact BufReader.ended_pollFillBuf hfill (hnone.resolve_left (by omega))

/-- What the reads leave alone. -/
def writeFrame (s : BufStream (Logged S)) : List UInt8 × ℕ := (s.passed, s.writeCapacity)

omit [AsyncWrite S] in
theorem writeFrame_pollFillReadBuffer (s : BufStream (Logged S)) :
    writeFrame s.pollFillReadBuffer.2 = writeFrame s := by
  have haccepted : s.pollFillReadBuffer.2.inner.accepted = s.inner.accepted :=
    s.reading.accepted_pollFillBuf
  have hpassed : s.pollFillReadBuffer.2.passed = s.passed := congrArg (· ++ _) haccepted
  rw [writeFrame, hpassed]
  rfl

theorem writeFrame_pollRead (s : BufStream (Logged S)) (buf : ReadBuf) :
    writeFrame (s.pollRead buf).2.1 = writeFrame s := by
  have hflush : writeFrame s.pollFlush.2 = writeFrame s :=
    Prod.ext s.passed_pollFlush (s.writing.capacity_flush _)
  have hfill := s.pollFlush.2.writeFrame_pollFillReadBuffer
  obtain ⟨-, h⟩ | ⟨-, h⟩ | ⟨-, h⟩ := s.pollRead_cases buf
  · rw [h, hflush]
  · rw [h, hfill, hflush]
  · rw [h, ← hflush, ← hfill]
    rfl

end BufStream

inductive Call where
  | reads (call : ReadCall)
  | writes (call : WriteCall)

def Call.perform {R : Type} [AsyncBufRead R] [AsyncWrite R] (s : Session R) :
    Call → Option (Session R)
  | .reads call => call.perform s
  | .writes call => some { s with object := call.perform s.object }

variable [AsyncWrite S]

/-- Nothing is lost in either direction. -/
structure Intact (capacity : ℕ) (s : Session (Logged (BufStream (Logged S)))) : Prop where
  written : s.object.inner.passed = s.object.accepted
  handed : s.object.consumed ++ s.object.inner.window = s.object.inner.inner.consumed
  capacity_eq : s.object.inner.writeCapacity = capacity

namespace Intact
variable {capacity : ℕ} {s t : Session (Logged (BufStream (Logged S)))}

theorem read [AsyncRead S] {call : ReadCall} (h : Intact capacity s)
    (hcall : call.perform s = some t) : Intact capacity t := by
  have hhanded := BufStream.readsAhead.perform h.handed hcall
  cases call with
  | read buf =>
    obtain rfl := Option.some.inj hcall
    have hframe := s.object.inner.writeFrame_pollRead buf
    exact ⟨(congrArg Prod.fst hframe).trans h.written, hhanded,
      (congrArg Prod.snd hframe).trans h.capacity_eq⟩
  | fillBuf =>
    obtain rfl := Option.some.inj hcall
    have hframe := s.object.inner.writeFrame_pollFillReadBuffer
    exact ⟨(congrArg Prod.fst hframe).trans h.written, hhanded,
      (congrArg Prod.snd hframe).trans h.capacity_eq⟩
  | consume amount =>
    obtain ⟨-, htaken⟩ := Option.ite_none_right_eq_some.mp hcall
    obtain rfl := Option.some.inj htaken
    exact ⟨h.written, hhanded, h.capacity_eq⟩

theorem write (h : Intact capacity s) (call : WriteCall) :
    Intact capacity { s with object := call.perform s.object } := by
  have hframe := (BufStream.unwritten Logged.unwritten_consumed).logged.perform s.object call
  have houter : (call.perform s.object).consumed = s.object.consumed :=
    Logged.unwritten_consumed.perform s.object call
  simp only [BufStream.frame, Prod.mk.injEq] at hframe
  obtain ⟨hconsumed, hwindow, hcapacity⟩ := hframe
  refine ⟨BufStream.passes.perform s.object call h.written, ?_, hcapacity.trans h.capacity_eq⟩
  calc (call.perform s.object).consumed ++ (call.perform s.object).inner.window
      = s.object.consumed ++ s.object.inner.window := by rw [houter, hwindow]
    _ = (call.perform s.object).inner.inner.consumed := h.handed.trans hconsumed.symm

theorem run [AsyncRead S] {calls : List Call} (h : Intact capacity s)
    (hrun : Interleaving.run Call.perform s calls = some t) : Intact capacity t := by
  induction calls generalizing s with
  | nil =>
    obtain rfl := Option.some.inj hrun
    exact h
  | cons call calls ih =>
    obtain ⟨m, hm, hrest⟩ := Option.bind_eq_some_iff.mp hrun
    cases call with
    | reads call => exact ih (h.read hm) hrest
    | writes call =>
      obtain rfl := Option.some.inj hm
      exact ih (h.write call) hrest

end Intact

/-- A new writer around another, in use. -/
def BufWriter.session {W : Type} (capacity : ℕ) (positive : 0 < capacity) (inner : W) :
    Logged (BufWriter (Logged W)) :=
  .new (.withCapacity capacity positive (.new inner))

def BufReader.session {R : Type} (capacity : ℕ) (positive : 0 < capacity) (inner : R) :
    Session (Logged (BufReader (Logged R))) :=
  .new (.new (.withCapacity capacity positive (.new inner)))

def BufStream.session (capacity : ℕ) (positive : 0 < capacity) (inner : S) :
    Session (Logged (BufStream (Logged S))) :=
  .new (.new (.withCapacity capacity positive (.new inner)))

omit [AsyncWrite S] in
theorem Intact.start (capacity : ℕ) (positive : 0 < capacity) (inner : S) :
    Intact capacity (BufStream.session capacity positive inner) := by
  refine ⟨rfl, ?_, rfl⟩
  simp [BufStream.session, Session.new, Logged.new, BufStream.withCapacity, BufStream.window,
    BufStream.reading, BufReader.window]

/-- What a buffered writer or stream has accepted is what the inner one has accepted followed by
the unsent part of the buffer, and a flush or a shutdown that succeeds leaves nothing unsent. -/
theorem writes_lossless (capacity : ℕ) (positive : 0 < capacity) :
    (∀ {W : Type} [AsyncWrite W] (inner : W) (calls : List WriteCall)
        (s : Logged (BufWriter (Logged W))),
      calls.foldl WriteCall.perform (BufWriter.session capacity positive inner) = s →
        s.accepted = s.inner.inner.accepted ++ s.inner.buffer.drop s.inner.pos ∧
        s.inner.pos ≤ s.inner.buffer.length ∧ s.inner.buffer.length ≤ capacity ∧
        ((pollFlush s).1 = .ready (.ok ()) → (pollFlush s).2.inner.buffer = []) ∧
        ((pollShutdown s).1 = .ready (.ok ()) → (pollShutdown s).2.inner.buffer = [])) ∧
    (∀ {S : Type} [AsyncRead S] [AsyncWrite S] (inner : S) (calls : List Call)
        (s : Session (Logged (BufStream (Logged S)))),
      run Call.perform (BufStream.session capacity positive inner) calls = some s →
        s.object.accepted = s.object.inner.inner.accepted ++
          s.object.inner.writeBuffer.drop s.object.inner.writePos ∧
        s.object.inner.writePos ≤ s.object.inner.writeBuffer.length ∧
        s.object.inner.writeBuffer.length ≤ capacity ∧
        ((pollFlush s.object).1 = .ready (.ok ()) →
          (pollFlush s.object).2.inner.writeBuffer = []) ∧
        ((pollShutdown s.object).1 = .ready (.ok ()) →
          (pollShutdown s.object).2.inner.writeBuffer = [])) := by
  constructor
  · intro W _ inner calls s hs
    have hpassed := BufWriter.passes.run (BufWriter.session capacity positive inner) calls rfl
    have hcapacity := BufWriter.unwritten_capacity.logged.run
      (BufWriter.session capacity positive inner) calls
    rw [hs] at hpassed hcapacity
    have hlength := s.inner.length_le
    rw [hcapacity] at hlength
    exact ⟨hpassed.symm, s.inner.pos_le, hlength, BufWriter.buffer_flush,
      BufWriter.buffer_pollShutdown⟩
  · intro S _ _ inner calls s hrun
    have h := (Intact.start capacity positive inner).run hrun
    exact ⟨h.written.symm, s.object.inner.writePos_le,
      h.capacity_eq ▸ s.object.inner.length_le, BufStream.writeBuffer_pollFlush,
      BufStream.writeBuffer_pollShutdown⟩

theorem writes_lossless_four :
    (∃ s : Logged (BufWriter (Logged Script)),
      [WriteCall.write [1, 2, 3], .write [4, 5], .flush, .write [6]].foldl WriteCall.perform
        (BufWriter.session 4 (by decide) ⟨[], [.ready (.ok 2), .pending]⟩) = s ∧
      s.accepted = s.inner.inner.accepted ++ s.inner.buffer.drop s.inner.pos) ∧
    ∃ s : Session (Logged (BufStream (Logged Script))),
      run Call.perform (BufStream.session 4 (by decide) ⟨[.ready (.ok [7])], [.ready (.ok 2), .pending]⟩)
        [.writes (.write [1, 2, 3]), .reads .fillBuf, .writes (.write [4, 5]), .writes .flush] =
          some s ∧
      s.object.accepted = s.object.inner.inner.accepted ++
        s.object.inner.writeBuffer.drop s.object.inner.writePos := by
  refine ⟨⟨_, rfl, ((writes_lossless 4 (by decide)).1 _ _ _ rfl).1⟩, ?_⟩
  obtain ⟨s, hs⟩ := Option.isSome_iff_exists.mp (rfl : (run Call.perform
    (BufStream.session 4 (by decide)
      (⟨[.ready (.ok [7])], [.ready (.ok 2), .pending]⟩ : Script))
    [.writes (.write [1, 2, 3]), .reads .fillBuf, .writes (.write [4, 5]),
      .writes .flush]).isSome = true)
  exact ⟨s, hs, ((writes_lossless 4 (by decide)).2 _ _ s hs).1⟩

/-- What a buffered reader or stream has handed out is what was read from the inner one up to the
window, and a read with room that delivers nothing has found the end of the inner one. -/
theorem reads_transparent (capacity : ℕ) (positive : 0 < capacity) :
    (∀ {R : Type} [AsyncRead R] (inner : R) (calls : List ReadCall)
        (s : Session (Logged (BufReader (Logged R)))),
      run ReadCall.perform (BufReader.session capacity positive inner) calls = some s →
        s.object.consumed ++ (s.object.inner.buffer.take s.object.inner.cap).drop
            s.object.inner.pos = s.object.inner.inner.consumed ∧
        ∀ buf : ReadBuf, 0 < buf.remaining → (pollRead s.object buf).1 = .ready (.ok ()) →
          buf.added (pollRead s.object buf).2.2 = [] →
          (pollRead s.object buf).2.1.inner.inner.ended = true) ∧
    (∀ {S : Type} [AsyncRead S] [AsyncWrite S] (inner : S) (calls : List Call)
        (s : Session (Logged (BufStream (Logged S)))),
      run Call.perform (BufStream.session capacity positive inner) calls = some s →
        s.object.consumed ++ (s.object.inner.readBuffer.take s.object.inner.readCap).drop
            s.object.inner.readPos = s.object.inner.inner.consumed ∧
        ∀ buf : ReadBuf, 0 < buf.remaining → (pollRead s.object buf).1 = .ready (.ok ()) →
          buf.added (pollRead s.object buf).2.2 = [] →
          (pollRead s.object buf).2.1.inner.inner.ended = true) := by
  constructor
  · intro R _ inner calls s hrun
    have hhanded := BufReader.readsAhead.run (by
      simp [BufReader.session, Session.new, Logged.new, BufReader.withCapacity,
        AsyncBufRead.window, BufReader.window]) hrun
    exact ⟨hhanded, fun buf hroom hpoll hnone => BufReader.ended_pollRead hpoll hroom hnone⟩
  · intro S _ _ inner calls s hrun
    have h := (Intact.start capacity positive inner).run hrun
    exact ⟨h.handed, fun buf hroom hpoll hnone => BufStream.ended_pollRead hpoll hroom hnone⟩

theorem reads_transparent_four :
    (∃ s : Session (Logged (BufReader (Logged Script))),
      run ReadCall.perform (BufReader.session 4 (by decide)
          ⟨[.ready (.ok [1, 2, 3]), .pending, .ready (.ok [4])], []⟩)
        [.fillBuf, .consume 2, .read (.new [0, 0]), .read (.new [0])] = some s ∧
      s.object.consumed ++ (s.object.inner.buffer.take s.object.inner.cap).drop
        s.object.inner.pos = s.object.inner.inner.consumed) ∧
    ∃ s : Session (Logged (BufStream (Logged Script))),
      run Call.perform (BufStream.session 4 (by decide)
          ⟨[.ready (.ok [1, 2, 3]), .pending, .ready (.ok [4])], [.ready (.ok 1)]⟩)
        [.reads .fillBuf, .reads (.consume 2), .writes (.write [8, 9]), .writes .flush,
          .reads (.read (.new [0, 0])), .reads (.read (.new [0]))] = some s ∧
      s.object.consumed ++ (s.object.inner.readBuffer.take s.object.inner.readCap).drop
        s.object.inner.readPos = s.object.inner.inner.consumed := by
  constructor
  · obtain ⟨s, hs⟩ := Option.isSome_iff_exists.mp (rfl : (run ReadCall.perform
      (BufReader.session 4 (by decide)
        (⟨[.ready (.ok [1, 2, 3]), .pending, .ready (.ok [4])], []⟩ : Script))
      [.fillBuf, .consume 2, .read (.new [0, 0]), .read (.new [0])]).isSome = true)
    exact ⟨s, hs, ((reads_transparent 4 (by decide)).1 _ _ s hs).1⟩
  · obtain ⟨s, hs⟩ := Option.isSome_iff_exists.mp (rfl : (run Call.perform
      (BufStream.session 4 (by decide)
        (⟨[.ready (.ok [1, 2, 3]), .pending, .ready (.ok [4])], [.ready (.ok 1)]⟩ : Script))
      [.reads .fillBuf, .reads (.consume 2), .writes (.write [8, 9]), .writes .flush,
        .reads (.read (.new [0, 0])), .reads (.read (.new [0]))]).isSome = true)
    exact ⟨s, hs, ((reads_transparent 4 (by decide)).2 _ _ s hs).1⟩

end Eddy.AsyncIo
