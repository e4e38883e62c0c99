import Eddy.AsyncIo
import Eddy.Interleaving

/-!
# Buffered reads

`AsyncBufRead` and `BufReader` of `io/buf.rs`. What was handed out followed by the window
`buffer[pos..cap]` is what was read from the inner reader.
-/

namespace Eddy.AsyncIo

variable {R : Type}

theorem take_min_length (bytes : List UInt8) (n : ℕ) :
    bytes.take (min bytes.length n) = bytes.take n := by
  rw [List.take_eq_take_iff]
  omega

theorem drop_min_length (bytes : List UInt8) (n : ℕ) :
    bytes.drop (min bytes.length n) = bytes.drop n := by
  rw [List.drop_eq_drop_iff]
  omega

/-- The slice that `pollFillBuf` returns is the window of the reader that it leaves. -/
class AsyncBufRead (R : Type) extends AsyncRead R where
  pollFillBuf : R → PollIo Unit × R
  window : R → List UInt8
  consume : R → ℕ → R

export AsyncBufRead (pollFillBuf window consume)

instance [AsyncBufRead R] : AsyncBufRead (Logged R) where
  pollFillBuf s :=
    let (poll, inner) := pollFillBuf s.inner
    (poll, { s with inner })
  window s := window s.inner
  consume s amount :=
    { s with
      inner := consume s.inner amount
      consumed := s.consumed ++ (window s.inner).take amount }

/-- What has been read from the source is what was handed out, followed by the window. -/
structure ReadsAhead [AsyncBufRead R] (source : R → List UInt8) : Prop where
  pollRead : ∀ r b, ∃ bytes, source (pollRead r b).2.1 = source r ++ bytes ∧
    window r ++ bytes = b.added (pollRead r b).2.2 ++ window (pollRead r b).2.1
  pollFillBuf : ∀ r, ∃ bytes, source (pollFillBuf r).2 = source r ++ bytes ∧
    window (pollFillBuf r).2 = window r ++ bytes
  consume : ∀ r n, source (consume r n) = source r ∧ window (consume r n) = (window r).drop n

inductive ReadCall where
  | read (buf : ReadBuf)
  | fillBuf
  | consume (amount : ℕ)

/-- A buffered object in use. -/
structure Session (R : Type) where
  object : R
  /-- The length last returned by `poll_fill_buf`. -/
  returned : ℕ

def Session.new (object : R) : Session R := ⟨object, 0⟩

def ReadCall.perform [AsyncBufRead R] (s : Session R) : ReadCall → Option (Session R)
  | .read buf => some { s with object := (pollRead s.object buf).2.1 }
  | .fillBuf =>
    let (poll, object) := pollFillBuf s.object
    some ⟨object, match poll with
      | .ready (.ok ()) => (window object).length
      | _ => s.returned⟩
  | .consume amount =>
    if amount ≤ s.returned then some { s with object := AsyncBufRead.consume s.object amount }
    else none

theorem ReadsAhead.perform [AsyncBufRead R] {source : R → List UInt8} (h : ReadsAhead source)
    {s t : Session (Logged R)} {call : ReadCall}
    (hs : s.object.consumed ++ window s.object = source s.object.inner)
    (hcall : call.perform s = some t) :
    t.object.consumed ++ window t.object = source t.object.inner := by
  cases call with
  | read buf =>
    obtain ⟨bytes, hsource, hwindow⟩ := h.pollRead s.object.inner buf
    obtain rfl := Option.some.inj hcall
    calc (s.object.consumed ++ buf.added (AsyncIo.pollRead s.object.inner buf).2.2) ++
          window (AsyncIo.pollRead s.object.inner buf).2.1
        = s.object.consumed ++ (window s.object.inner ++ bytes) := by
          rw [hwindow]
          simp
      _ = source s.object.inner ++ bytes := by
          rw [← hs, List.append_assoc _ (window s.object)]
          rfl
      _ = source (AsyncIo.pollRead s.object.inner buf).2.1 := hsource.symm
  | fillBuf =>
    obtain ⟨bytes, hsource, hwindow⟩ := h.pollFillBuf s.object.inner
    obtain rfl := Option.some.inj hcall
    calc s.object.consumed ++ window (AsyncIo.pollFillBuf s.object.inner).2
        = s.object.consumed ++ window s.object ++ bytes := by
          rw [hwindow, ← List.append_assoc]
          rfl
      _ = source (AsyncIo.pollFillBuf s.object.inner).2 := by rw [hs, hsource]
  | consume amount =>
    obtain ⟨hsource, hwindow⟩ := h.consume s.object.inner amount
    obtain ⟨-, htaken⟩ := Option.ite_none_right_eq_some.mp hcall
    obtain rfl := Option.some.inj htaken
    calc (s.object.consumed ++ (window s.object.inner).take amount) ++
          window (AsyncIo.consume s.object.inner amount)
        = s.object.consumed ++
            ((window s.object.inner).take amount ++ (window s.object.inner).drop amount) := by
          rw [hwindow]
          simp
      _ = source (AsyncIo.consume s.object.inner amount) := by
          rw [List.take_append_drop, hsource, ← hs]
          rfl

theorem ReadsAhead.run [AsyncBufRead R] {source : R → List UInt8} (h : ReadsAhead source)
    {s t : Session (Logged R)} {calls : List ReadCall}
    (hs : s.object.consumed ++ window s.object = source s.object.inner)
    (hrun : Interleaving.run ReadCall.perform s calls = some t) :
    t.object.consumed ++ window t.object = source t.object.inner := by
  induction calls generalizing s with
  | nil =>
    obtain rfl := Option.some.inj hrun
    exact hs
  | cons call calls ih =>
    obtain ⟨m, hm, hrest⟩ := Option.bind_eq_some_iff.mp hrun
    exact ih (h.perform hs hm) hrest

structure BufReader (R : Type) where
  inner : R
  buffer : List UInt8
  pos : ℕ
  cap : ℕ
  pos_le : pos ≤ cap
  cap_le : cap ≤ buffer.length
  /-- The assertion of `with_capacity`. -/
  nonempty : 0 < buffer.length

namespace BufReader

def withCapacity (capacity : ℕ) (positive : 0 < capacity) (inner : R) : BufReader R where
  inner
  buffer := List.replicate capacity 0
  pos := 0
  cap := 0
  pos_le := Nat.le_refl _
  cap_le := Nat.zero_le _
  nonempty := by rwa [List.length_replicate]

/-- `buffer[pos..cap]` -/
def window (s : BufReader R) : List UInt8 := (s.buffer.take s.cap).drop s.pos

@[simp] theorem length_window (s : BufReader R) : s.window.length = s.cap - s.pos := by
  have hle := s.cap_le
  simp [window, hle]

theorem window_eq_nil_iff (s : BufReader R) : s.window = [] ↔ ¬ s.pos < s.cap := by
  rw [← List.length_eq_zero_iff, length_window]
  omega

/-- Move `pos` past bytes of the window. -/
def advance (s : BufReader R) (amount : ℕ) (h : amount ≤ s.window.length) : BufReader R :=
  { s with
    pos := s.pos + amount
    pos_le := by
      have hle := s.pos_le
      rw [length_window] at h
      omega }

def consume (s : BufReader R) (amount : ℕ) : BufReader R :=
  { s with
    pos := min (s.pos + amount) s.cap
    pos_le := Nat.min_le_right _ _ }

theorem window_advance_min (s : BufReader R) (room : ℕ) :
    (s.advance (min s.window.length room) (Nat.min_le_left _ _)).window = s.window.drop room := by
  rw [← drop_min_length]
  exact List.drop_drop.symm

theorem window_consume (s : BufReader R) (amount : ℕ) :
    (s.consume amount).window = s.window.drop amount := by
  have hle := s.pos_le
  have hpos : min (s.pos + amount) s.cap = s.pos + min s.window.length amount := by
    rw [length_window]
    omega
  calc (s.buffer.take s.cap).drop (min (s.pos + amount) s.cap)
      = s.window.drop (min s.window.length amount) := by
        rw [hpos]
        exact List.drop_drop.symm
    _ = s.window.drop amount := drop_min_length _ _

variable [AsyncRead R]

/-- The read of `poll_fill_buf_inner` into the whole buffer. -/
def readBuffer (s : BufReader R) : PollIo Unit × R × ReadBuf :=
  AsyncIo.pollRead s.inner (.new s.buffer)

theorem length_readBuffer (s : BufReader R) : s.readBuffer.2.2.buf.length = s.buffer.length :=
  AsyncRead.length_pollRead s.inner (.new s.buffer)

def pollFillBuf (s : BufReader R) : PollIo Unit × BufReader R :=
  if s.pos < s.cap then (.ready (.ok ()), s)
  else
    match s.readBuffer.1 with
    | .ready (.ok ()) => (.ready (.ok ()), {
        inner := s.readBuffer.2.1
        buffer := s.readBuffer.2.2.buf
        pos := 0
        cap := s.readBuffer.2.2.filledLen
        pos_le := Nat.zero_le _
        cap_le := s.readBuffer.2.2.filledLen_le
        nonempty := s.length_readBuffer ▸ s.nonempty })
    | poll => (poll, { s with
        inner := s.readBuffer.2.1
        buffer := s.readBuffer.2.2.buf
        cap_le := s.length_readBuffer ▸ s.cap_le
        nonempty := s.length_readBuffer ▸ s.nonempty })

def pollRead (s : BufReader R) (buf : ReadBuf) : PollIo Unit × BufReader R × ReadBuf :=
  if buf.remaining = 0 then (.ready (.ok ()), s, buf)
  else
    match s.pollFillBuf with
    | (.pending, s) => (.pending, s, buf)
    | (.ready (.ok ()), s) =>
      let amount := min s.window.length buf.remaining
      (.ready (.ok ()), s.advance amount (Nat.min_le_left _ _),
        buf.fill (s.window.take amount) (by
          rw [List.length_take]
          omega))
    | (.ready (.error error), s) => (.ready (.error error), s, buf)

/-- A fill keeps a window that is not empty; an empty one becomes what the inner reader has
delivered. -/
theorem pollFillBuf_cases (s : BufReader R) :
    (s.window ≠ [] ∧ s.pollFillBuf = (.ready (.ok ()), s)) ∨
    (s.window = [] ∧ s.pollFillBuf.1 = s.readBuffer.1 ∧
      s.pollFillBuf.2.inner = s.readBuffer.2.1 ∧
      s.pollFillBuf.2.window = s.readBuffer.2.2.filled) := by
  by_cases hpos : s.pos < s.cap
  · have hwindow : s.window ≠ [] := fun h => s.window_eq_nil_iff.mp h hpos
    exact .inl ⟨hwindow, if_pos hpos⟩
  · refine .inr ⟨s.window_eq_nil_iff.mpr hpos, ?_⟩
    unfold pollFillBuf
    rw [if_neg hpos]
    split
    · rename_i hpoll
      exact ⟨hpoll.symm, rfl, rfl⟩
    · rename_i hpoll
      refine ⟨rfl, rfl, ?_⟩
      have hnone : s.readBuffer.2.2.filled = [] := AsyncRead.stalled_pollRead _ _ hpoll
      rw [hnone]
      exact (window_eq_nil_iff _).mpr hpos

theorem pollRead_cases (s : BufReader R) (buf : ReadBuf) :
    (buf.remaining = 0 ∧ s.pollRead buf = (.ready (.ok ()), s, buf)) ∨
    (buf.remaining ≠ 0 ∧ s.pollFillBuf.1 = .ready (.ok ()) ∧
      (s.pollRead buf).1 = .ready (.ok ()) ∧
      (s.pollRead buf).2.1.inner = s.pollFillBuf.2.inner ∧
      (s.pollRead buf).2.1.window = s.pollFillBuf.2.window.drop buf.remaining ∧
      (s.pollRead buf).2.2.buf.length = buf.buf.length ∧
      (s.pollRead buf).2.2.filled = buf.filled ++ s.pollFillBuf.2.window.take buf.remaining) ∨
    (s.pollFillBuf.1 ≠ .ready (.ok ()) ∧
      s.pollRead buf = (s.pollFillBuf.1, s.pollFillBuf.2, buf)) := by
  by_cases hroom : buf.remaining = 0
  · exact .inl ⟨hroom, if_pos hroom⟩
  · unfold pollRead
    rw [if_neg hroom]
    split
    · rename_i t hfill
      exact .inr (.inr (by simp [hfill]))
    · rename_i t hfill
      have hfits : (t.window.take (min t.window.length buf.remaining)).length ≤ buf.remaining := by
        rw [List.length_take]
        omega
      refine .inr (.inl ⟨hroom, by rw [hfill], rfl, by rw [hfill]; rfl, ?_, ?_, ?_⟩)
      · rw [hfill]
        exact t.window_advance_min buf.remaining
      · exact ReadBuf.length_fill _ _ hfits
      · rw [ReadBuf.filled_fill, hfill, take_min_length]
    · rename_i t error hfill
      exact .inr (.inr (by simp [hfill]))

end BufReader

instance [AsyncRead R] : AsyncBufRead (BufReader R) where
  pollRead := BufReader.pollRead
  length_pollRead s buf := by
    obtain ⟨-, h⟩ | ⟨-, -, -, -, -, h, -⟩ | ⟨-, h⟩ := s.pollRead_cases buf
    · rw [h]
    · exact h
    · rw [h]
  filled_pollRead s buf := by
    obtain ⟨-, h⟩ | ⟨-, -, -, -, -, -, h⟩ | ⟨-, h⟩ := s.pollRead_cases buf
    · simp only [h, List.prefix_rfl]
    · rw [h]
      exact List.prefix_append _ _
    · simp only [h, List.prefix_rfl]
  stalled_pollRead s buf hpoll := by
    obtain ⟨-, h⟩ | ⟨-, -, h, -⟩ | ⟨-, h⟩ := s.pollRead_cases buf
    · rw [h]
    · exact absurd h hpoll
    · rw [h]
  pollFillBuf := BufReader.pollFillBuf
  window := BufReader.window
  consume := BufReader.consume

namespace BufReader
variable [AsyncRead R]

theorem pollFillBuf_readsAhead (s : BufReader (Logged R)) : ∃ bytes,
    s.pollFillBuf.2.inner.consumed = s.inner.consumed ++ bytes ∧
      s.pollFillBuf.2.window = s.window ++ bytes := by
  obtain ⟨-, h⟩ | ⟨hempty, -, hinner, hwindow⟩ := s.pollFillBuf_cases
  · exact ⟨[], by simp [h], by simp [h]⟩
  · refine ⟨s.readBuffer.2.2.filled, ?_, by simp [hwindow, hempty]⟩
    rw [hinner]
    exact s.inner.consumed_pollRead (.new s.buffer)

theorem pollRead_readsAhead (s : BufReader (Logged R)) (buf : ReadBuf) : ∃ bytes,
    (s.pollRead buf).2.1.inner.consumed = s.inner.consumed ++ bytes ∧
      s.window ++ bytes = buf.added (s.pollRead buf).2.2 ++ (s.pollRead buf).2.1.window := by
  obtain ⟨-, h⟩ | ⟨-, -, -, hinner, hwindow, -, hfilled⟩ | ⟨-, h⟩ := s.pollRead_cases buf
  · exact ⟨[], by simp [h], by simp [h]⟩
  · obtain ⟨bytes, hsource, hfill⟩ := s.pollFillBuf_readsAhead
    refine ⟨bytes, by rw [hinner, hsource], ?_⟩
    rw [ReadBuf.added_of_filled hfilled, hwindow, List.take_append_drop, hfill]
  · obtain ⟨bytes, hsource, hfill⟩ := s.pollFillBuf_readsAhead
    exact ⟨bytes, by rw [h, hsource], by rw [h, ReadBuf.added_self, hfill, List.nil_append]⟩

theorem readsAhead : ReadsAhead fun s : BufReader (Logged R) => s.inner.consumed where
  pollRead := pollRead_readsAhead
  pollFillBuf := pollFillBuf_readsAhead
  consume s n := ⟨rfl, s.window_consume n⟩

theorem accepted_pollFillBuf (s : BufReader (Logged R)) :
    s.pollFillBuf.2.inner.accepted = s.inner.accepted := by
  obtain ⟨-, h⟩ | ⟨-, -, hinner, -⟩ := s.pollFillBuf_cases
  · rw [h]
  · rw [hinner]
    rfl

theorem ended_pollFillBuf {s : BufReader (Logged R)} (hpoll : s.pollFillBuf.1 = .ready (.ok ()))
    (hempty : s.pollFillBuf.2.window = []) : s.pollFillBuf.2.inner.ended = true := by
  obtain ⟨hwindow, h⟩ | ⟨-, hread, hinner, hwindow⟩ := s.pollFillBuf_cases
  · rw [h] at hempty
    exact absurd hempty hwindow
  · rw [hread] at hpoll
    rw [hwindow] at hempty
    rw [hinner]
    exact Logged.ended_pollRead hpoll s.nonempty hempty

theorem ended_pollRead {s : BufReader (Logged R)} {buf : ReadBuf}
    (hpoll : (s.pollRead buf).1 = .ready (.ok ())) (hroom : 0 < buf.remaining)
    (hnone : buf.added (s.pollRead buf).2.2 = []) : (s.pollRead buf).2.1.inner.ended = true := by
  obtain ⟨hfull, -⟩ | ⟨-, hfill, -, hinner, -, -, hfilled⟩ | ⟨hfill, h⟩ := s.pollRead_cases buf
  · omega
  · rw [ReadBuf.added_of_filled hfilled, List.take_eq_nil_iff] at hnone
    rw [hinner]
    exact ended_pollFillBuf hfill (hnone.resolve_left (by omega))
  · rw [h] at hpoll
    exact absurd hpoll hfill

end BufReader

end Eddy.AsyncIo
