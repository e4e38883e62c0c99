import Eddy.CopyBidirectional

/-!
# Copying in one direction

`copy` of `io/ops.rs`, with the `read`, `write_all` and `flush` of `io/mod.rs` that it awaits. A
step is one poll of an endpoint. The future may be dropped after any of them, and whatever else
works on the endpoints may change them in between.
-/

namespace Eddy.AsyncIo
open Interleaving

/-- Where `copy` is. -/
inductive CopyPlace where
  /-- In `reader.read(&mut buffer)`. -/
  | reading
  /-- In `writer.write_all(&buffer[..amount])`, of which `written` bytes are written. -/
  | writing (amount written : ℕ)
  | flushing
  | returned (result : Except IoError UInt64)
  deriving DecidableEq

structure Copy (R W : Type) where
  reader : Endpoint R
  writer : Endpoint W
  buffer : List UInt8
  copied : UInt64
  place : CopyPlace

namespace Copy
variable {R W : Type}

def new (reader : R) (writer : W) : Copy R W where
  reader := .new reader
  writer := .new writer
  buffer := List.replicate 8192 0
  copied := 0
  place := .reading

def buffered (s : Copy R W) : List UInt8 :=
  match s.place with
  | .writing amount written => (s.buffer.take amount).drop written
  | .reading | .flushing | .returned _ => []

variable [AsyncRead R] [AsyncWrite W]

def pollReading (s : Copy R W) : Copy R W :=
  let (poll, reader, readBuf) := pollRead s.reader (.new s.buffer)
  let s := { s with reader, buffer := readBuf.buf }
  match poll with
  | .pending => s
  | .ready (.error error) => { s with place := .returned (.error error) }
  | .ready (.ok ()) =>
    { s with place := if readBuf.filledLen = 0 then .flushing else .writing readBuf.filledLen 0 }

def pollWriting (s : Copy R W) (amount written : ℕ) : Copy R W :=
  let (poll, writer) := pollWrite s.writer ((s.buffer.take amount).drop written)
  let s := { s with writer }
  match poll with
  | .pending => s
  | .ready (.error error) => { s with place := .returned (.error error) }
  | .ready (.ok 0) =>
    { s with place := .returned (.error
        (writeZero "eddy: write returned zero before the buffer was complete")) }
  | .ready (.ok n) =>
    if written + n < amount then { s with place := .writing amount (written + n) }
    else { s with place := .reading, copied := s.copied + UInt64.ofNat amount }

def pollFlushing (s : Copy R W) : Copy R W :=
  let (poll, writer) := pollFlush s.writer
  let s := { s with writer }
  match poll with
  | .pending => s
  | .ready (.error error) => { s with place := .returned (.error error) }
  | .ready (.ok ()) => { s with place := .returned (.ok s.copied) }

inductive Label (R W : Type) where
  | poll
  /-- The endpoints are changed from elsewhere. -/
  | change (reader : R) (writer : W)

def step (s : Copy R W) : Label R W → Option (Copy R W)
  | .poll =>
    match s.place with
    | .reading => some s.pollReading
    | .writing amount written => some (s.pollWriting amount written)
    | .flushing => some s.pollFlushing
    | .returned _ => none
  | .change reader writer =>
    some { s with reader := s.reader.replace reader, writer := s.writer.replace writer }

/-- The writer has accepted all that the reader has delivered, and nothing is lost on the way. -/
structure Settled {R W : Type} (s : Copy R W) (n : UInt64) : Prop where
  exactly : s.writer.accepted = s.reader.consumed
  number : n = UInt64.ofNat s.writer.accepted.length

inductive Stage {R W : Type} (s : Copy R W) : Prop where
  | reading (place : s.place = .reading) (settled : s.Settled s.copied)
  | writing {amount written : ℕ} (place : s.place = .writing amount written)
      (lt : written < amount) (le : amount ≤ s.buffer.length)
      (accounted : s.reader.consumed = s.writer.accepted ++ s.buffered)
      (copied : s.copied + UInt64.ofNat written = UInt64.ofNat s.writer.accepted.length)
  | flushing (place : s.place = .flushing) (settled : s.Settled s.copied)
      (ended : s.reader.ended = true)
  | failed {error : IoError} (place : s.place = .returned (.error error))
      (lost : ∃ bytes, bytes.length ≤ s.buffer.length ∧
        s.reader.consumed = s.writer.accepted ++ bytes)
  | copied {n : UInt64} (place : s.place = .returned (.ok n)) (settled : s.Settled n)
      (ended : s.reader.ended = true) (flushed : s.writer.polls.getLast? = some .flush)

structure Sound {R W : Type} (s : Copy R W) : Prop where
  stage : s.Stage
  buffer : s.buffer.length = 8192
  unshut : ∀ done, .shutdown done ∉ s.writer.polls

section
variable {R W : Type} {s t : Copy R W} {amount written : ℕ}

theorem Sound.new (reader : R) (writer : W) : (Copy.new reader writer).Sound where
  stage := .reading rfl ⟨rfl, rfl⟩
  buffer := List.length_replicate
  unshut _ := List.not_mem_nil

/-- The bytes that a write did not take wait in the buffer. -/
theorem buffered_writing (hplace : s.place = .writing amount written) :
    s.buffered = (s.buffer.take amount).drop written := by
  rw [buffered, hplace]

/-- A place at which nothing is buffered. -/
theorem Settled.lost {n : UInt64} (h : s.Settled n) : ∃ bytes, bytes.length ≤ s.buffer.length ∧
    s.reader.consumed = s.writer.accepted ++ bytes :=
  ⟨[], Nat.zero_le _, by rw [h.exactly, List.append_nil]⟩

theorem Sound.pollReading [AsyncRead R] (h : s.Sound) (hplace : s.place = .reading)
    (hsettled : s.Settled s.copied) : s.pollReading.Sound := by
  have hlength := AsyncRead.length_pollRead s.reader (.new s.buffer)
  have hconsumed := s.reader.consumed_pollRead (.new s.buffer)
  have hstalled := AsyncRead.stalled_pollRead s.reader (.new s.buffer)
  have hended := Endpoint.ended_pollRead (s := s.reader) (b := .new s.buffer)
  have hbuffer := h.buffer
  have hunshut := h.unshut
  simp only [ReadBuf.added_new, ReadBuf.filled_new, ReadBuf.remaining_new, ReadBuf.buf_new]
    at hlength hconsumed hstalled hended
  unfold Copy.pollReading
  generalize pollRead s.reader (.new s.buffer) = polled at *
  obtain ⟨poll, reader, readBuf⟩ := polled
  dsimp only at hlength hconsumed hstalled hended ⊢
  rw [hbuffer] at hlength hended
  have hstay (hpoll : poll ≠ .ready (.ok ())) : s.writer.accepted = reader.consumed := by
    rw [hconsumed, hstalled hpoll, List.append_nil, hsettled.exactly]
  cases poll with
  | pending =>
    have hexactly := hstay (fun hpoll => by cases hpoll)
    exact ⟨.reading hplace ⟨hexactly, hsettled.number⟩, hlength, hunshut⟩
  | ready result =>
    cases result with
    | error error =>
      have hexactly := hstay (fun hpoll => by cases hpoll)
      exact ⟨.failed rfl (Settled.lost (n := s.copied) ⟨hexactly, hsettled.number⟩), hlength,
        hunshut⟩
    | ok =>
      by_cases hnone : readBuf.filledLen = 0
      · have hfilled : readBuf.filled = [] := by
          rw [← List.length_eq_zero_iff, ReadBuf.length_filled, hnone]
        rw [if_pos hnone]
        refine ⟨.flushing rfl ⟨?_, hsettled.number⟩ ?_, hlength, hunshut⟩
        · change s.writer.accepted = reader.consumed
          rw [hconsumed, hfilled, List.append_nil, hsettled.exactly]
        · exact hended rfl (by decide) hfilled
      · rw [if_neg hnone]
        refine ⟨.writing rfl (Nat.pos_of_ne_zero hnone) readBuf.filledLen_le ?_ ?_, hlength,
          hunshut⟩
        · change reader.consumed = s.writer.accepted ++ (readBuf.buf.take readBuf.filledLen).drop 0
          rw [hconsumed, hsettled.exactly, List.drop_zero]
          rfl
        · change s.copied + UInt64.ofNat 0 = UInt64.ofNat s.writer.accepted.length
          rw [← hsettled.number]
          exact UInt64.add_zero _

theorem Sound.pollWriting [AsyncWrite W] (h : s.Sound) (hplace : s.place = .writing amount written)
    (hlt : written < amount) (hle : amount ≤ s.buffer.length)
    (haccounted : s.reader.consumed = s.writer.accepted ++ s.buffered)
    (hcopied : s.copied + UInt64.ofNat written = UInt64.ofNat s.writer.accepted.length) :
    (s.pollWriting amount written).Sound := by
  have hbuffered := buffered_writing hplace
  have haccepted := s.writer.accepted_pollWrite ((s.buffer.take amount).drop written)
  have hpolls := s.writer.polls_pollWrite ((s.buffer.take amount).drop written)
  have hbound := AsyncWrite.pollWrite_le s.writer ((s.buffer.take amount).drop written)
  have hunshut : ∀ done, .shutdown done ∉ s.writer.polls ++ [.write] := by
    intro done hdone
    simpa using h.unshut done (by simpa using hdone)
  have hbuffer := h.buffer
  rw [hbuffered] at haccounted
  unfold Copy.pollWriting
  generalize pollWrite s.writer ((s.buffer.take amount).drop written) = polled at *
  obtain ⟨poll, writer⟩ := polled
  dsimp only at haccepted hpolls hbound ⊢
  rw [← hpolls] at hunshut
  have hlength : ((s.buffer.take amount).drop written).length = amount - written := by
    rw [List.length_drop, List.length_take_of_le hle]
  have hlost (hnone : taken poll ((s.buffer.take amount).drop written) = []) :
      ∃ bytes, bytes.length ≤ s.buffer.length ∧ s.reader.consumed = writer.accepted ++ bytes := by
    refine ⟨(s.buffer.take amount).drop written, by omega, ?_⟩
    rw [haccepted, hnone, List.append_nil, haccounted]
  cases poll with
  | pending =>
    change Sound { s with writer }
    have hkept : writer.accepted = s.writer.accepted := haccepted.trans (List.append_nil _)
    refine ⟨.writing hplace hlt hle ?_ ?_, hbuffer, hunshut⟩
    · rw [hkept]
      exact haccounted.trans (congrArg (s.writer.accepted ++ ·) hbuffered.symm)
    · rw [hkept]
      exact hcopied
  | ready result =>
    cases result with
    | error error => exact ⟨.failed rfl (hlost rfl), hbuffer, hunshut⟩
    | ok n =>
      cases n with
      | zero => exact ⟨.failed rfl (hlost (by simp [taken])), hbuffer, hunshut⟩
      | succ n =>
        have hfits : n + 1 ≤ amount - written := (hbound (n + 1) rfl).trans_eq hlength
        have hsum : s.copied + UInt64.ofNat (written + (n + 1)) =
            UInt64.ofNat writer.accepted.length := by
          rw [haccepted, taken, List.length_append, List.length_take_of_le (hbound (n + 1) rfl),
            UInt64.ofNat_add s.writer.accepted.length, UInt64.ofNat_add written, ← hcopied,
            UInt64.add_assoc]
        change Sound (if written + (n + 1) < amount then
            { s with writer, place := .writing amount (written + (n + 1)) }
          else { s with writer, place := .reading, copied := s.copied + UInt64.ofNat amount })
        by_cases hmore : written + (n + 1) < amount
        · rw [if_pos hmore]
          refine ⟨.writing rfl hmore hle ?_ hsum, hbuffer, hunshut⟩
          change s.reader.consumed =
            writer.accepted ++ (s.buffer.take amount).drop (written + (n + 1))
          rw [haccepted, taken, ← List.drop_drop, List.append_assoc, List.take_append_drop,
            haccounted]
        · have hall : written + (n + 1) = amount := by omega
          rw [if_neg hmore]
          refine ⟨.reading rfl ⟨?_, ?_⟩, hbuffer, hunshut⟩
          · change writer.accepted = s.reader.consumed
            rw [haccepted, taken, List.take_of_length_le (by omega), haccounted]
          · rw [← hall]
            exact hsum

theorem Sound.pollFlushing [AsyncWrite W] (h : s.Sound) (hplace : s.place = .flushing)
    (hsettled : s.Settled s.copied) (hended : s.reader.ended = true) : s.pollFlushing.Sound := by
  have haccepted : (pollFlush s.writer).2.accepted = s.writer.accepted := rfl
  have hpolls : (pollFlush s.writer).2.polls = s.writer.polls ++ [.flush] := rfl
  have hbuffer := h.buffer
  have hunshut : ∀ done, .shutdown done ∉ s.writer.polls ++ [.flush] := by
    intro done hdone
    exact h.unshut done (by simpa using hdone)
  unfold Copy.pollFlushing
  generalize pollFlush s.writer = polled at *
  obtain ⟨poll, writer⟩ := polled
  dsimp only at haccepted hpolls ⊢
  rw [← hpolls] at hunshut
  have hsettled' : writer.accepted = s.reader.consumed ∧
      s.copied = UInt64.ofNat writer.accepted.length := by
    rw [haccepted]
    exact ⟨hsettled.exactly, hsettled.number⟩
  cases poll with
  | pending =>
    exact ⟨.flushing hplace ⟨hsettled'.1, hsettled'.2⟩ hended, hbuffer, hunshut⟩
  | ready result =>
    cases result with
    | error error =>
      exact ⟨.failed rfl (Settled.lost (n := s.copied) ⟨hsettled'.1, hsettled'.2⟩), hbuffer,
        hunshut⟩
    | ok =>
      refine ⟨.copied rfl ⟨hsettled'.1, hsettled'.2⟩ hended ?_, hbuffer, hunshut⟩
      change writer.polls.getLast? = some .flush
      rw [hpolls, List.getLast?_append_cons]
      rfl

variable [AsyncRead R] [AsyncWrite W]

theorem Sound.step {label : Label R W} (h : s.Sound) (hstep : s.step label = some t) :
    t.Sound := by
  cases label with
  | change reader writer =>
    cases hstep
    refine ⟨?_, h.buffer, h.unshut⟩
    cases h.stage with
    | reading place settled => exact .reading place ⟨settled.exactly, settled.number⟩
    | writing place lt le accounted copied => exact .writing place lt le accounted copied
    | flushing place settled ended =>
      exact .flushing place ⟨settled.exactly, settled.number⟩ ended
    | failed place lost => exact .failed place lost
    | copied place settled ended flushed =>
      exact .copied place ⟨settled.exactly, settled.number⟩ ended flushed
  | poll =>
    cases h.stage with
    | reading place settled =>
      simp only [Copy.step, place, Option.some.injEq] at hstep
      subst hstep
      exact h.pollReading place settled
    | writing place lt le accounted copied =>
      simp only [Copy.step, place, Option.some.injEq] at hstep
      subst hstep
      exact h.pollWriting place lt le accounted copied
    | flushing place settled ended =>
      simp only [Copy.step, place, Option.some.injEq] at hstep
      subst hstep
      exact h.pollFlushing place settled ended
    | failed place | copied place => simp [Copy.step, place] at hstep

/-- The bytes arrive in order, all but at most one buffer of them, and none is made up; the writer
is not shut down. An `Ok` comes after the end of the reader and a flush, and counts the bytes. -/
structure Copies {R W : Type} (s : Copy R W) : Prop where
  arrived : ∃ missing, s.reader.consumed = s.writer.accepted ++ missing ∧ missing.length ≤ 8192
  unshut : ∀ done, .shutdown done ∉ s.writer.polls
  ok : ∀ n, s.place = .returned (.ok n) → s.writer.accepted = s.reader.consumed ∧
    n = UInt64.ofNat s.reader.consumed.length ∧ s.reader.ended = true ∧
    s.writer.polls.getLast? = some .flush

theorem copy_copies {reader : R} {writer : W}
    (h : Reachable Copy.step anyStep (Copy.new reader writer) s) : s.Copies := by
  have hsound : s.Sound := h.invariant (I := Sound) (.new reader writer) fun _ _ _ hs _ hstep =>
    hs.step hstep
  refine ⟨?_, hsound.unshut, fun n hplace => ?_⟩
  · cases hsound.stage with
    | reading _ settled | flushing _ settled | copied _ settled =>
      exact ⟨[], by rw [settled.exactly, List.append_nil], Nat.zero_le _⟩
    | writing place lt le accounted =>
      refine ⟨s.buffered, accounted, ?_⟩
      have hbuffer := hsound.buffer
      rw [buffered_writing place, List.length_drop, List.length_take_of_le le]
      omega
    | failed place lost =>
      obtain ⟨bytes, hle, hbytes⟩ := lost
      exact ⟨bytes, hbytes, hsound.buffer ▸ hle⟩
  · cases hsound.stage with
    | copied place settled ended flushed =>
      obtain rfl : _ = n := by simpa [hplace] using place.symm
      exact ⟨settled.exactly, settled.exactly ▸ settled.number, ended, flushed⟩
    | reading place | writing place | flushing place | failed place =>
      simp [hplace] at place

/-- The reader is pending at times, and the writer takes what it is given in parts. -/
theorem copy_copies_in_parts : ∃ s, Reachable Copy.step anyStep
    (Copy.new (R := Script) (W := Script) ⟨[.ready (.ok [1, 2, 3]), .pending, .ready (.ok [4])], []⟩
      ⟨[], [.ready (.ok 2), .pending]⟩) s ∧ s.place = .returned (.ok 4) ∧
    s.writer.accepted = [1, 2, 3, 4] ∧ s.Copies := by
  have hrun : (run (guarded Copy.step anyStep)
      (Copy.new (R := Script) (W := Script)
        ⟨[.ready (.ok [1, 2, 3]), .pending, .ready (.ok [4])], []⟩ ⟨[], [.ready (.ok 2), .pending]⟩)
      (List.replicate 9 .poll)).any (fun s => decide (s.place = .returned (.ok 4)) &&
        decide (s.writer.accepted = [1, 2, 3, 4])) = true := by
    decide +kernel
  obtain ⟨s, hreach, hs⟩ := exists_reachable_of_run hrun
  simp only [Bool.and_eq_true, decide_eq_true_eq] at hs
  exact ⟨s, hreach, hs.1, hs.2, copy_copies hreach⟩

end

end Copy

end Eddy.AsyncIo
