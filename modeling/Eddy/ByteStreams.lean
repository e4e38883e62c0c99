import Eddy.BufReader
import Eddy.EventWire

/-!
# Readers of a stream

What a reader has yet to deliver is a list of bytes, or has no end. A reader serves its stream when
it has an end, and each read answers without an error after it was pending for finitely many polls.
-/

namespace Eddy.AsyncIo

variable {R : Type}

class Streams (R : Type) [AsyncRead R] where
  /-- What has yet to be delivered, when that is finite. -/
  rest : R → Option (List UInt8)
  rest_stalled : ∀ (r : R) b, (pollRead r b).1 ≠ .ready (.ok ()) → rest (pollRead r b).2.1 = rest r
  rest_ready : ∀ (r : R) b, (pollRead r b).1 = .ready (.ok ()) →
    rest r = (rest (pollRead r b).2.1).map (b.added (pollRead r b).2.2 ++ ·)
  rest_ended : ∀ (r : R) b, (pollRead r b).1 = .ready (.ok ()) → 0 < b.remaining →
    b.added (pollRead r b).2.2 = [] → rest r = some []

class Serves (R : Type) [AsyncRead R] extends Streams R where
  finite : ∀ r : R, (rest r).isSome
  /-- A bound for the polls that are pending before the next answer. -/
  patience : R → ℕ
  patience_lt : ∀ (r : R) b, (pollRead r b).1 = .pending → patience (pollRead r b).2.1 < patience r
  no_error : ∀ (r : R) b error, (pollRead r b).1 ≠ .ready (.error error)

export Streams (rest)

theorem Streams.rest_pollRead [AsyncRead R] [Streams R] (r : R) (b : ReadBuf) :
    rest r = (rest (pollRead r b).2.1).map (b.added (pollRead r b).2.2 ++ ·) := by
  by_cases hpoll : (pollRead r b).1 = .ready (.ok ())
  · exact rest_ready r b hpoll
  · rw [added_stalled hpoll, rest_stalled r b hpoll]
    simp

/-- The answers in turn, each of them pending or at least one byte, and then the end. -/
structure Feed where
  answers : List (Option (UInt8 × List UInt8))

namespace Feed

def piece : Option (UInt8 × List UInt8) → List UInt8
  | none => []
  | some (byte, bytes) => byte :: bytes

def putBack (bytes : List UInt8) (answers : List (Option (UInt8 × List UInt8))) : Feed :=
  match bytes with
  | [] => ⟨answers⟩
  | byte :: bytes => ⟨some (byte, bytes) :: answers⟩

def pollRead (s : Feed) (b : ReadBuf) : PollIo Unit × Feed × ReadBuf :=
  match s.answers with
  | [] => (.ready (.ok ()), s, b)
  | none :: answers => (.pending, ⟨answers⟩, b)
  | some (byte, bytes) :: answers =>
    (.ready (.ok ()), putBack ((byte :: bytes).drop b.remaining) answers,
      b.fill ((byte :: bytes).take b.remaining) (List.length_take_le _ _))

theorem flatMap_putBack (bytes : List UInt8) (answers : List (Option (UInt8 × List UInt8))) :
    (putBack bytes answers).answers.flatMap piece = bytes ++ answers.flatMap piece := by
  cases bytes with
  | nil => rfl
  | cons byte bytes => rfl

instance : AsyncRead Feed where
  pollRead := pollRead
  length_pollRead s b := by
    unfold pollRead
    split <;> simp
  filled_pollRead s b := by
    unfold pollRead
    split <;> simp
  stalled_pollRead s b h := by
    unfold pollRead at h ⊢
    split <;> simp_all

theorem pending_iff {s : Feed} {b : ReadBuf} :
    (pollRead s b).1 = .pending ↔ ∃ answers, s.answers = none :: answers := by
  unfold pollRead
  split <;> simp_all

instance : Serves Feed where
  rest s := some (s.answers.flatMap piece)
  rest_stalled s b h := by
    change (pollRead s b).1 ≠ .ready (.ok ()) at h
    change some ((pollRead s b).2.1.answers.flatMap piece) = _
    unfold pollRead at h ⊢
    split <;> simp_all [piece]
  rest_ready s b h := by
    change (pollRead s b).1 = .ready (.ok ()) at h
    change _ = Option.map (b.added (pollRead s b).2.2 ++ ·)
      (some ((pollRead s b).2.1.answers.flatMap piece))
    unfold pollRead at h ⊢
    split
    · simp_all
    · simp_all
    · rename_i byte bytes answers hanswers
      rw [ReadBuf.added_fill, hanswers, flatMap_putBack, Option.map_some, ← List.append_assoc,
        List.take_append_drop]
      rfl
  rest_ended s b h hroom hnone := by
    change b.added (pollRead s b).2.2 = [] at hnone
    unfold pollRead at hnone
    split at hnone
    · simp_all
    · rename_i answers hanswers
      change (pollRead s b).1 = .ready (.ok ()) at h
      rw [pending_iff.mpr ⟨answers, hanswers⟩] at h
      cases h
    · simp_all
  finite _ := rfl
  patience s := s.answers.length
  patience_lt s b h := by
    obtain ⟨answers, hanswers⟩ := pending_iff.mp h
    change (pollRead s b).2.1.answers.length < s.answers.length
    simp [pollRead, hanswers]
  no_error s b error h := by
    change (pollRead s b).1 = _ at h
    unfold pollRead at h
    split at h <;> simp_all

end Feed

namespace BufReader
variable [AsyncRead R]

def rest [Streams R] (s : BufReader R) : Option (List UInt8) :=
  (AsyncIo.rest s.inner).map (s.window ++ ·)

theorem rest_pollFillBuf [Streams R] (s : BufReader R) : s.pollFillBuf.2.rest = s.rest := by
  obtain ⟨-, h⟩ | ⟨hempty, -, hinner, hwindow⟩ := s.pollFillBuf_cases
  · rw [h]
  · have hread := Streams.rest_pollRead s.inner (.new s.buffer)
    rw [ReadBuf.added_new] at hread
    rw [rest, rest, hinner, hwindow, hempty, hread, readBuffer]
    exact Option.map_id'.symm

theorem rest_pollRead [Streams R] (s : BufReader R) (buf : ReadBuf) :
    s.rest = (s.pollRead buf).2.1.rest.map (buf.added (s.pollRead buf).2.2 ++ ·) := by
  have hfill := s.rest_pollFillBuf
  obtain ⟨-, h⟩ | ⟨-, -, -, hinner, hwindow, -, hfilled⟩ | ⟨-, h⟩ := s.pollRead_cases buf
  · rw [h]
    simp
  · rw [← hfill, rest, rest, ReadBuf.added_of_filled hfilled, hinner, hwindow, Option.map_map]
    apply congrArg (Option.map · _)
    funext bytes
    rw [Function.comp_apply, ← List.append_assoc, List.take_append_drop]
  · rw [h, ReadBuf.added_self, hfill]
    simp

theorem rest_ended [Streams R] {s : BufReader R} {buf : ReadBuf}
    (hpoll : (s.pollRead buf).1 = .ready (.ok ())) (hroom : 0 < buf.remaining)
    (hnone : buf.added (s.pollRead buf).2.2 = []) : s.rest = some [] := by
  obtain ⟨hfull, -⟩ | ⟨-, hfill, -, -, -, -, hfilled⟩ | ⟨hfill, h⟩ := s.pollRead_cases buf
  · omega
  · rw [ReadBuf.added_of_filled hfilled, List.take_eq_nil_iff] at hnone
    have hempty : s.pollFillBuf.2.window = [] := hnone.resolve_left (by omega)
    obtain ⟨hwindow, h⟩ | ⟨hbefore, hread, -, hwindow⟩ := s.pollFillBuf_cases
    · rw [h] at hempty
      exact absurd hempty hwindow
    · rw [hread] at hfill
      rw [hwindow] at hempty
      rw [rest, Streams.rest_ended s.inner (.new s.buffer) hfill s.nonempty hempty, hbefore]
      rfl
  · rw [h] at hpoll
    exact absurd hpoll hfill

instance [Streams R] : Streams (BufReader R) where
  rest := rest
  rest_stalled s buf hpoll := by
    have hread := s.rest_pollRead buf
    have hnone : buf.added (s.pollRead buf).2.2 = [] := added_stalled hpoll
    rw [hnone] at hread
    change (s.pollRead buf).2.1.rest = s.rest
    simpa using hread.symm
  rest_ready s buf _ := s.rest_pollRead buf
  rest_ended _ _ := rest_ended

theorem pollRead_stalled {s : BufReader R} {buf : ReadBuf}
    (h : (s.pollRead buf).1 ≠ .ready (.ok ())) :
    (s.pollRead buf).1 = s.readBuffer.1 ∧ (s.pollRead buf).2.1.inner = s.readBuffer.2.1 := by
  obtain ⟨-, hread⟩ | ⟨-, -, hread, -⟩ | ⟨hfill, hread⟩ := s.pollRead_cases buf
  · rw [hread] at h
    exact absurd rfl h
  · exact absurd hread h
  · obtain ⟨-, hkept⟩ | ⟨-, hpoll, hinner, -⟩ := s.pollFillBuf_cases
    · rw [hkept] at hfill
      exact absurd rfl hfill
    · rw [hread]
      exact ⟨hpoll, hinner⟩

instance [Serves R] : Serves (BufReader R) where
  finite s := by
    rw [show AsyncIo.rest s = s.rest from rfl, rest, Option.isSome_map]
    exact Serves.finite s.inner
  patience s := Serves.patience s.inner
  patience_lt s buf hpoll := by
    change (s.pollRead buf).1 = .pending at hpoll
    have hstalled : (s.pollRead buf).1 ≠ .ready (.ok ()) := by simp [hpoll]
    obtain ⟨hread, hinner⟩ := pollRead_stalled hstalled
    change Serves.patience (s.pollRead buf).2.1.inner < Serves.patience s.inner
    rw [hinner]
    exact Serves.patience_lt s.inner (.new s.buffer) (hread.symm.trans hpoll)
  no_error s buf error hpoll := by
    change (s.pollRead buf).1 = .ready (.error error) at hpoll
    have hstalled : (s.pollRead buf).1 ≠ .ready (.ok ()) := by simp [hpoll]
    obtain ⟨hread, -⟩ := pollRead_stalled hstalled
    exact Serves.no_error s.inner (.new s.buffer) error (hread.symm.trans hpoll)

end BufReader

end Eddy.AsyncIo
