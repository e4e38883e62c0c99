import Eddy.ByteStreams
import Eddy.Interleaving

/-!
# Reading to the end

`read_to_end` and `read_to_string` of `io/mod.rs`, one call after another on the same reader, each
of which may be dropped where it waits. A step of a call is one poll of the reader with what the
call does up to the next one.
-/

namespace Eddy.AsyncIo
open Interleaving
open Console (utf8 toByteArray_utf8 fromUTF8?_eq_some)

/-- A call in progress: the buffer of the `read` that it awaits. -/
structure Reading where
  readBuf : ReadBuf
  /-- The call has not been polled, or its last poll was pending. -/
  waits : Bool

namespace Reading

/-- A call before its first poll; `chunk` is an array of 8192 bytes. -/
def start : Reading := ⟨.new (List.replicate 8192 0), true⟩

/-- The next `read` into the same chunk. -/
def again (readBuf : ReadBuf) : Reading := ⟨.new readBuf.buf, false⟩

/-- The awaited read has filled nothing yet, and has room. -/
def Fresh (c : Reading) : Prop := c.readBuf.filledLen = 0 ∧ 0 < c.readBuf.buf.length

theorem fresh_start : start.Fresh := by
  refine ⟨rfl, ?_⟩
  rw [start, ReadBuf.buf_new, List.length_replicate]
  decide

theorem fresh_again {readBuf : ReadBuf} (h : 0 < readBuf.buf.length) : (again readBuf).Fresh :=
  ⟨rfl, h⟩

namespace Fresh
variable {R : Type} [AsyncRead R] {c : Reading} {r : Logged R}

theorem filled (h : c.Fresh) : c.readBuf.filled = [] := by
  rw [ReadBuf.filled, h.1, List.take_zero]

theorem room (h : c.Fresh) : 0 < c.readBuf.remaining := by
  rw [ReadBuf.remaining, h.1]
  exact h.2

theorem added (h : c.Fresh) (b : ReadBuf) : c.readBuf.added b = b.filled := by
  rw [ReadBuf.added, h.1, List.drop_zero]

theorem length_polled (h : c.Fresh) : 0 < (pollRead r c.readBuf).2.2.buf.length := by
  rw [AsyncRead.length_pollRead]
  exact h.2

theorem consumed (h : c.Fresh) : (pollRead r c.readBuf).2.1.consumed =
    r.consumed ++ (pollRead r c.readBuf).2.2.filled := by
  rw [Logged.consumed_pollRead, h.added]

/-- A poll that is pending or fails leaves the awaited read as it was. -/
theorem stalled (h : c.Fresh) (hpoll : (pollRead r c.readBuf).1 ≠ .ready (.ok ())) :
    (pollRead r c.readBuf).2.1.consumed = r.consumed ∧
      ∀ waits, Fresh ⟨(pollRead r c.readBuf).2.2, waits⟩ := by
  have hfilled := AsyncRead.stalled_pollRead r c.readBuf hpoll
  rw [h.filled] at hfilled
  refine ⟨by rw [h.consumed, hfilled, List.append_nil], fun waits => ⟨?_, h.length_polled⟩⟩
  rw [← ReadBuf.length_filled, hfilled, List.length_nil]

end Fresh

end Reading

/-- What is left of the stream of `r` follows what has been consumed. -/
def Follows {R : Type} [AsyncRead R] [Streams R] (r : R) (s : Logged R) : Prop :=
  rest r = (rest s.inner).map (s.consumed ++ ·)

namespace Follows
variable {R : Type} [AsyncRead R] [Streams R] {r : R} {s : Logged R}

theorem start (r : R) : Follows r (.new r) := by
  simp [Follows, Logged.new]

theorem pollRead (h : Follows r s) (b : ReadBuf) : Follows r (AsyncIo.pollRead s b).2.1 := by
  have hread := Streams.rest_pollRead s.inner b
  have hinner : (AsyncIo.pollRead s b).2.1.inner = (AsyncIo.pollRead s.inner b).2.1 := rfl
  have hadded : (AsyncIo.pollRead s b).2.2 = (AsyncIo.pollRead s.inner b).2.2 := rfl
  rw [Follows, h, hread, Logged.consumed_pollRead, hinner, hadded, Option.map_map]
  simp [Function.comp_def]

theorem whole (h : Follows r s) (hend : rest s.inner = some []) : rest r = some s.consumed := by
  rw [h, hend]
  simp

/-- A read with room that succeeds and delivers nothing has found the end of the stream. -/
theorem ended {b : ReadBuf} (hpoll : (AsyncIo.pollRead s b).1 = .ready (.ok ()))
    (hroom : 0 < b.remaining) (hnone : b.added (AsyncIo.pollRead s b).2.2 = []) :
    rest (AsyncIo.pollRead s b).2.1.inner = some [] := by
  have hend : rest s.inner = some [] := Streams.rest_ended s.inner b hpoll hroom hnone
  have hread := Streams.rest_ready s.inner b hpoll
  rw [hend] at hread
  obtain ⟨bytes, hbytes, hnil⟩ := Option.map_eq_some_iff.mp hread.symm
  rw [show rest (AsyncIo.pollRead s b).2.1.inner = some bytes from hbytes,
    (List.append_eq_nil_iff.mp hnil).2]

end Follows

inductive ReadLabel where
  | call
  | poll
  | drop
  deriving DecidableEq

theorem utf8_append (s t : String) : utf8 (s ++ t) = utf8 s ++ utf8 t := by
  simp [utf8]

/-- What is missing from a text to a longer one is a text. -/
theorem exists_utf8_of_append {s t : String} {bytes : List UInt8} (h : utf8 s ++ bytes = utf8 t) :
    ∃ u, bytes = utf8 u := by
  have hencode : s.toList.utf8Encode ++ bytes.toByteArray = t.toList.utf8Encode := by
    rw [String.utf8Encode_toList, String.utf8Encode_toList, ← toByteArray_utf8 s,
      ← toByteArray_utf8 t, ← h]
    simp
  obtain ⟨cs, hcs⟩ := List.isPrefix_of_utf8Encode_append_eq_utf8Encode _ hencode
  have ht : t = s ++ String.ofList cs := by
    rw [← String.ofList_toList (s := t), ← hcs, String.ofList_append, String.ofList_toList]
  rw [ht, utf8_append] at h
  exact ⟨String.ofList cs, List.append_cancel_left h⟩

/-- A caller that reads to the end of its reader. -/
structure EndState (R : Type) where
  reader : R
  /-- The caller's vector. -/
  buf : List UInt8
  call : Option Reading
  /-- What the last call has returned. -/
  returned : Option (Except IoError ℕ)
  /-- The length of the vector at the start of the last call. -/
  start : ℕ

namespace EndState
variable {R : Type} [AsyncRead R]

def init (reader : R) (buf : List UInt8) : EndState R := ⟨reader, buf, none, none, 0⟩

/-- The poll of the reader, and then the code up to the next one. -/
def poll (s : EndState R) (c : Reading) : EndState R :=
  let (poll, reader, readBuf) := pollRead s.reader c.readBuf
  match poll with
  | .pending => { s with reader, call := some ⟨readBuf, true⟩ }
  | .ready (.error error) => { s with reader, call := none, returned := some (.error error) }
  | .ready (.ok ()) =>
    if readBuf.filled = [] then
      { s with reader, call := none, returned := some (.ok (s.buf.length - s.start)) }
    else { s with reader, buf := s.buf ++ readBuf.filled, call := some (.again readBuf) }

def step (s : EndState R) (label : ReadLabel) : Option (EndState R) :=
  match label, s.call with
  | .call, none =>
    some { s with call := some .start, returned := none, start := s.buf.length }
  | .poll, some c => some (s.poll c)
  | .drop, some c => if c.waits then some { s with call := none } else none
  | _, _ => none

/-- What has been consumed is in the vector. -/
structure Keeps (r : R) (buf : List UInt8) (s : EndState (Logged R)) : Prop where
  appended : s.buf = buf ++ s.reader.consumed
  follows : ∀ [Streams R], Follows r s.reader
  fresh : ∀ c, s.call = some c → c.Fresh ∧ s.returned = none
  ended : ∀ [Streams R] n, s.returned = some (.ok n) → rest s.reader.inner = some []

namespace Keeps
variable {r : R} {buf : List UInt8} {s t : EndState (Logged R)}

theorem start (r : R) (buf : List UInt8) : Keeps r buf (init (.new r) buf) where
  appended := (List.append_nil buf).symm
  follows := .start r
  fresh _ h := nomatch h
  ended _ h := nomatch h

theorem poll {c : Reading} (h : Keeps r buf s) (hc : s.call = some c) : Keeps r buf (s.poll c) := by
  obtain ⟨hfresh, hquiet⟩ := h.fresh c hc
  have hfollows : ∀ [Streams R], Follows r (pollRead s.reader c.readBuf).2.1 :=
    h.follows.pollRead c.readBuf
  have hconsumed := hfresh.consumed (r := s.reader)
  have hstalled := hfresh.stalled (r := s.reader)
  have hlength := hfresh.length_polled (r := s.reader)
  have hended : ∀ [Streams R], (pollRead s.reader c.readBuf).1 = .ready (.ok ()) →
      0 < c.readBuf.remaining → (pollRead s.reader c.readBuf).2.2.filled = [] →
        rest (pollRead s.reader c.readBuf).2.1.inner = some [] := by
    intro _
    rw [← hfresh.added]
    exact Follows.ended
  unfold EndState.poll
  generalize pollRead s.reader c.readBuf = polled at hfollows hconsumed hstalled hlength hended ⊢
  obtain ⟨poll, reader, readBuf⟩ := polled
  match poll with
  | .pending =>
    obtain ⟨hkept, hwaits⟩ := hstalled (by simp)
    exact ⟨by rw [h.appended, hkept], hfollows,
      fun _ hc' => ⟨Option.some.inj hc' ▸ hwaits true, hquiet⟩,
      fun n hn => nomatch hquiet.symm.trans hn⟩
  | .ready (.error error) =>
    obtain ⟨hkept, -⟩ := hstalled (by simp)
    exact ⟨by rw [h.appended, hkept], hfollows, fun _ hc' => (nomatch hc'), fun _ hn => nomatch hn⟩
  | .ready (.ok ()) =>
    dsimp only at hconsumed hlength hended ⊢
    split
    · rename_i hempty
      rw [hempty, List.append_nil] at hconsumed
      exact ⟨by rw [h.appended, hconsumed], hfollows, fun _ hc' => (nomatch hc'),
        fun _ _ => hended rfl hfresh.room hempty⟩
    · exact ⟨by rw [h.appended, hconsumed, List.append_assoc], hfollows,
        fun _ hc' => ⟨Option.some.inj hc' ▸ Reading.fresh_again hlength, hquiet⟩,
        fun n hn => nomatch hquiet.symm.trans hn⟩

theorem step {label : ReadLabel} (h : Keeps r buf s) (hs : s.step label = some t) :
    Keeps r buf t := by
  unfold EndState.step at hs
  split at hs
  · obtain rfl := Option.some.inj hs
    exact ⟨h.appended, h.follows, fun c hc => ⟨Option.some.inj hc ▸ Reading.fresh_start, rfl⟩,
      fun _ hn => nomatch hn⟩
  · rename_i c hc
    obtain rfl := Option.some.inj hs
    exact h.poll hc
  · obtain ⟨-, htaken⟩ := Option.ite_none_right_eq_some.mp hs
    obtain rfl := Option.some.inj htaken
    exact ⟨h.appended, h.follows, fun _ hc => (nomatch hc), h.ended⟩
  · cases hs

end Keeps

end EndState

/-- A caller that reads to the end of its reader. -/
structure StringState (R : Type) where
  reader : R
  /-- The caller's string. -/
  buf : String
  /-- The call in progress, with its local vector. -/
  call : Option (Reading × List UInt8)
  returned : Option (Except IoError ℕ)

namespace StringState
variable {R : Type} [AsyncRead R]

def init (reader : R) (buf : String) : StringState R := ⟨reader, buf, none, none⟩

/-- From the end of the inner `read_to_end` on. -/
def finish (s : StringState R) (bytes : List UInt8) : StringState R :=
  match String.fromUTF8? bytes.toByteArray with
  | none => { s with call := none, returned := some (.error (.utf8 bytes)) }
  | some text => { s with
      buf := s.buf ++ text
      call := none
      returned := some (.ok bytes.length) }

/-- The poll of the reader, and then the code up to the next one. -/
def poll (s : StringState R) (c : Reading) (bytes : List UInt8) : StringState R :=
  let (poll, reader, readBuf) := pollRead s.reader c.readBuf
  match poll with
  | .pending => { s with reader, call := some (⟨readBuf, true⟩, bytes) }
  | .ready (.error error) => { s with reader, call := none, returned := some (.error error) }
  | .ready (.ok ()) =>
    if readBuf.filled = [] then { s with reader }.finish bytes
    else { s with reader, call := some (.again readBuf, bytes ++ readBuf.filled) }

def step (s : StringState R) (label : ReadLabel) : Option (StringState R) :=
  match label, s.call with
  | .call, none => some { s with call := some (.start, []), returned := none }
  | .poll, some (c, bytes) => some (s.poll c bytes)
  | .drop, some (c, _) => if c.waits then some { s with call := none } else none
  | _, _ => none

def Stops (s : StringState R) (c : Reading) (label : ReadLabel) : Prop :=
  label = .drop ∨
    label = .poll ∧ ∃ error, (pollRead s.reader c.readBuf).1 = .ready (.error error)

/-- No call that has read bytes is dropped or fails in its reader. -/
def Careful (s : StringState R) (label : ReadLabel) : Prop :=
  ∀ c bytes, s.call = some (c, bytes) → s.Stops c label → bytes = []

def appended (s : StringState R) : List UInt8 :=
  utf8 s.buf ++ match s.call with
    | none => []
    | some (_, bytes) => bytes

structure Keeps [Streams R] (r : R) (buf : String) (s : StringState (Logged R)) : Prop where
  appended : s.appended = utf8 buf ++ s.reader.consumed
  follows : Follows r s.reader
  fresh : ∀ c bytes, s.call = some (c, bytes) → c.Fresh ∧ s.returned = none
  ended : ∀ n, s.returned = some (.ok n) → rest s.reader.inner = some []

namespace Keeps
variable [Streams R] {r : R} {buf : String} {s t : StringState (Logged R)}

theorem start (r : R) (buf : String) : Keeps r buf (init (.new r) buf) where
  appended := rfl
  follows := .start r
  fresh _ _ h := nomatch h
  ended _ h := nomatch h

variable {bytes : List UInt8} {label : ReadLabel}

theorem finish
    (valid : ∀ stream, rest r = some stream → ∃ text, stream = utf8 text)
    (happended : utf8 s.buf ++ bytes = utf8 buf ++ s.reader.consumed)
    (hfollows : Follows r s.reader) (hend : rest s.reader.inner = some []) :
    Keeps r buf (s.finish bytes) := by
  obtain ⟨text, htext⟩ := valid _ (hfollows.whole hend)
  have hwhole : utf8 s.buf ++ bytes = utf8 (buf ++ text) := by
    rw [happended, htext, utf8_append]
  obtain ⟨tail, rfl⟩ := exists_utf8_of_append hwhole
  have hdecode : String.fromUTF8? (utf8 tail).toByteArray = some tail := fromUTF8?_eq_some.mpr rfl
  rw [StringState.finish, hdecode]
  refine ⟨?_, hfollows, fun _ _ hc => (nomatch hc), fun _ _ => hend⟩
  rw [StringState.appended, utf8_append, happended, List.append_nil]

theorem poll {c : Reading} (h : Keeps r buf s)
    (valid : ∀ stream, rest r = some stream → ∃ text, stream = utf8 text)
    (careful : s.Careful .poll) (hc : s.call = some (c, bytes)) :
    Keeps r buf (s.poll c bytes) := by
  obtain ⟨hfresh, hquiet⟩ := h.fresh c bytes hc
  have happended : utf8 s.buf ++ bytes = utf8 buf ++ s.reader.consumed := by
    rw [← h.appended, StringState.appended, hc]
  have hfollows := h.follows.pollRead c.readBuf
  have hconsumed := hfresh.consumed (r := s.reader)
  have hstalled := hfresh.stalled (r := s.reader)
  have hlength := hfresh.length_polled (r := s.reader)
  have hended := Follows.ended (s := s.reader) (b := c.readBuf)
  have hstops : ∀ error, (pollRead s.reader c.readBuf).1 = .ready (.error error) → bytes = [] :=
    fun error herror => careful c bytes hc (.inr ⟨rfl, error, herror⟩)
  rw [hfresh.added] at hended
  unfold StringState.poll
  generalize pollRead s.reader c.readBuf = polled
    at hfollows hconsumed hstalled hlength hended hstops ⊢
  obtain ⟨poll, reader, readBuf⟩ := polled
  match poll with
  | .pending =>
    obtain ⟨hkept, hwaits⟩ := hstalled (by simp)
    refine ⟨?_, hfollows, fun c' bytes' hc' => ?_, fun n hn => nomatch hquiet.symm.trans hn⟩
    · rw [StringState.appended, happended, hkept]
    · obtain ⟨rfl, -⟩ : (⟨readBuf, true⟩ : Reading) = c' ∧ bytes = bytes' := by simpa using hc'
      exact ⟨hwaits true, hquiet⟩
  | .ready (.error error) =>
    obtain ⟨hkept, -⟩ := hstalled (by simp)
    rw [hstops error rfl] at happended
    refine ⟨?_, hfollows, fun _ _ hc' => (nomatch hc'), fun _ hn => nomatch hn⟩
    rw [StringState.appended, happended, hkept]
  | .ready (.ok ()) =>
    dsimp only at hconsumed hlength hended ⊢
    split
    · rename_i hempty
      rw [hempty, List.append_nil] at hconsumed
      exact finish valid (by rw [happended, hconsumed]) hfollows (hended rfl hfresh.room hempty)
    · refine ⟨?_, hfollows, fun c' bytes' hc' => ?_, fun n hn => nomatch hquiet.symm.trans hn⟩
      · rw [StringState.appended, hconsumed, ← List.append_assoc, happended, List.append_assoc]
      · obtain ⟨rfl, -⟩ : Reading.again readBuf = c' ∧ bytes ++ readBuf.filled = bytes' := by
          simpa using hc'
        exact ⟨Reading.fresh_again hlength, hquiet⟩

theorem step (h : Keeps r buf s)
    (valid : ∀ stream, rest r = some stream → ∃ text, stream = utf8 text)
    (careful : s.Careful label) (hs : s.step label = some t) : Keeps r buf t := by
  unfold StringState.step at hs
  split at hs
  · rename_i hc
    obtain rfl := Option.some.inj hs
    refine ⟨?_, h.follows, fun c bytes hc' => ?_, fun _ hn => nomatch hn⟩
    · rw [← h.appended, StringState.appended, StringState.appended, hc]
    · obtain ⟨rfl, -⟩ : Reading.start = c ∧ [] = bytes := by simpa using hc'
      exact ⟨Reading.fresh_start, rfl⟩
  · rename_i c bytes hc
    obtain rfl := Option.some.inj hs
    exact h.poll valid careful hc
  · rename_i c bytes hc
    obtain ⟨-, htaken⟩ := Option.ite_none_right_eq_some.mp hs
    obtain rfl := Option.some.inj htaken
    obtain rfl := careful c bytes hc (.inl rfl)
    refine ⟨?_, h.follows, fun _ _ hc' => (nomatch hc'), h.ended⟩
    rw [← h.appended, StringState.appended, StringState.appended, hc]
  · cases hs

theorem stopped {c : Reading} (h : Keeps r buf s)
    (hc : s.call = some (c, bytes)) (hstops : s.Stops c label) (hs : s.step label = some t) :
    t.buf = s.buf ∧ t.reader.consumed = s.reader.consumed := by
  rcases hstops with rfl | ⟨rfl, error, herror⟩
  · simp only [StringState.step, hc] at hs
    obtain ⟨-, htaken⟩ := Option.ite_none_right_eq_some.mp hs
    obtain rfl := Option.some.inj htaken
    exact ⟨rfl, rfl⟩
  · simp only [StringState.step, hc] at hs
    obtain rfl := Option.some.inj hs
    obtain ⟨hkept, -⟩ := (h.fresh c bytes hc).1.stalled (r := s.reader) (by simp [herror])
    unfold StringState.poll
    generalize pollRead s.reader c.readBuf = polled at herror hkept ⊢
    obtain ⟨poll, reader, readBuf⟩ := polled
    obtain rfl : poll = .ready (.error error) := herror
    exact ⟨rfl, hkept⟩

theorem careful_iff (h : Keeps r buf s)
    (valid : ∀ stream, rest r = some stream → ∃ text, stream = utf8 text)
    (hs : s.step label = some t) (hcall : t.call = none) :
    s.Careful label ↔ utf8 t.buf = utf8 buf ++ t.reader.consumed := by
  constructor
  · intro careful
    have happended := (h.step valid careful hs).appended
    rwa [StringState.appended, hcall, List.append_nil] at happended
  · intro hkept c bytes hc hstops
    have happended : utf8 s.buf ++ bytes = utf8 buf ++ s.reader.consumed := by
      rw [← h.appended, StringState.appended, hc]
    obtain ⟨hbuf, hconsumed⟩ := h.stopped hc hstops hs
    rw [hbuf, hconsumed, ← happended] at hkept
    exact List.self_eq_append_right.mp hkept

end Keeps

end StringState

/-- However calls of `read_to_end` are dropped, what the reader has delivered is in the vector. The
same holds of `read_to_string` and its string as long as no call that has read bytes is dropped or
fails, and the step that does so breaks it. -/
theorem read_to_end_cancel_safe {R : Type} [AsyncRead R] (r : R) :
    (∀ (buf : List UInt8) (s : EndState (Logged R)),
      Reachable EndState.step anyStep (EndState.init (.new r) buf) s →
        s.buf = buf ++ s.reader.consumed ∧
        ∀ [Streams R] n, s.returned = some (.ok n) → rest r = some s.reader.consumed) ∧
    (∀ [Streams R] (buf : String) (s : StringState (Logged R)),
      (∀ stream, rest r = some stream → ∃ text, stream = utf8 text) →
      Reachable StringState.step StringState.Careful (StringState.init (.new r) buf) s →
        (s.call = none → utf8 s.buf = utf8 buf ++ s.reader.consumed) ∧
        (∀ n, s.returned = some (.ok n) → rest r = some s.reader.consumed) ∧
        ∀ label t, s.step label = some t → t.call = none →
          (s.Careful label ↔ utf8 t.buf = utf8 buf ++ t.reader.consumed)) := by
  constructor
  · intro buf s hreach
    have h : EndState.Keeps r buf s := hreach.invariant (.start r buf) fun _ _ _ h _ hs => h.step hs
    exact ⟨h.appended, fun n hn => h.follows.whole (h.ended n hn)⟩
  · intro _ buf s valid hreach
    have h : StringState.Keeps r buf s := hreach.invariant (.start r buf)
      fun _ _ _ h careful hs => h.step valid careful hs
    refine ⟨fun hc => ?_, fun n hn => h.follows.whole (h.ended n hn),
      fun label t hs hcall => h.careful_iff valid hs hcall⟩
    have happended := h.appended
    rwa [StringState.appended, hc, List.append_nil] at happended

/-- A reader that never fails. -/
theorem StringState.careful_of_drop {s : StringState (Logged Feed)} {label : ReadLabel}
    (h : label = .drop → s.call.all (·.2.isEmpty) = true) : s.Careful label := by
  intro c bytes hc hstops
  rcases hstops with rfl | ⟨-, error, herror⟩
  · simpa [hc] using h rfl
  · have hinner : (Feed.pollRead s.reader.inner c.readBuf).1 = .ready (.error error) := herror
    unfold Feed.pollRead at hinner
    split at hinner <;> cases hinner

/-- The stream "hi", whose reader is pending before each byte: the first call is dropped at its first
poll, the second one goes on. -/
theorem read_to_end_cancel_safe_hi : ∃ s : StringState (Logged Feed),
    s.call = none ∧ s.returned = some (.ok 2) ∧ utf8 s.buf = utf8 "" ++ s.reader.consumed ∧
      rest (Feed.mk [none, some (104, []), none, some (105, [])]) = some s.reader.consumed := by
  let r := Feed.mk [none, some (104, []), none, some (105, [])]
  have hrun : (run (guarded StringState.step fun s label =>
        label = .drop → s.call.all (·.2.isEmpty) = true) (StringState.init (Logged.new r) "")
      [.call, .poll, .drop, .call, .poll, .poll, .poll, .poll]).any (fun s =>
        s.call.isNone && s.returned.any (·.toOption = some 2)) = true := by decide +kernel
  obtain ⟨s, hs, hcheck⟩ := exists_reachable_of_run hrun
  have hreach : Reachable StringState.step StringState.Careful
      (StringState.init (Logged.new r) "") s :=
    hs.invariant .start fun _ _ _ h allowed taken =>
      h.next (StringState.careful_of_drop allowed) taken
  rw [Bool.and_eq_true, Option.isNone_iff_eq_none] at hcheck
  obtain ⟨hcall, hreturned⟩ := hcheck
  have htwo : s.returned = some (.ok 2) := by
    obtain ⟨result, hresult, htwo⟩ := (Option.any_eq_true ..).mp hreturned
    cases result with
    | error error => cases htwo
    | ok n => rw [hresult, Option.some.inj (of_decide_eq_true htwo)]
  obtain ⟨hkept, hwhole, -⟩ := (read_to_end_cancel_safe r).2 "" s
    (fun _ h => ⟨"hi", (Option.some.inj h).symm.trans rfl⟩) hreach
  exact ⟨s, hcall, htwo, hkept hcall, hwhole 2 htwo⟩

/-- "h" is read, the next poll is pending, and the call is dropped; the next call returns at the end
of the stream. -/
theorem read_to_string_loses : ∃ s : StringState (Logged Feed),
    Reachable StringState.step anyStep
      (StringState.init (Logged.new (Feed.mk [some (104, []), none, some (105, [])])) "") s ∧
    s.call = none ∧ s.returned.isSome ∧ s.reader.consumed = utf8 "hi" ∧ s.buf = "i" := by
  have hrun : (run (guarded StringState.step anyStep)
      (StringState.init (Logged.new (Feed.mk [some (104, []), none, some (105, [])])) "")
      [.call, .poll, .poll, .drop, .call, .poll, .poll]).any (fun s =>
        s.call.isNone && s.returned.isSome && decide (s.reader.consumed = utf8 "hi") &&
          decide (s.buf = "i")) = true := by decide +kernel
  obtain ⟨s, hs, hcheck⟩ := exists_reachable_of_run hrun
  simp only [Bool.and_eq_true, decide_eq_true_eq, Option.isNone_iff_eq_none] at hcheck
  obtain ⟨⟨⟨hcall, hreturned⟩, hconsumed⟩, hbuf⟩ := hcheck
  exact ⟨s, hs, hcall, hreturned, hconsumed, hbuf⟩

end Eddy.AsyncIo
