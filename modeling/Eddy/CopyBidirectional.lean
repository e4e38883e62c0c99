import Eddy.AsyncIo
import Eddy.Interleaving

/-!
# Copying in both directions

`copy_bidirectional` of `io/ops.rs`. A step is one turn of the loop of `poll_direction`, with at
most one poll of an endpoint. Whatever else works on an endpoint may change it at any time; what
has passed through its traits is on record beside it.
-/

namespace Eddy.AsyncIo
open Interleaving

/-- A poll of a writer, and whether a shutdown returned `Ready(Ok(()))`. -/
inductive WritePoll where
  | write
  | flush
  | shutdown (done : Bool)

structure Endpoint (S : Type) where
  log : Logged S
  polls : List WritePoll

namespace Endpoint
variable {S : Type}

def new (inner : S) : Endpoint S := ⟨.new inner, []⟩

instance [AsyncRead S] : AsyncRead (Endpoint S) where
  pollRead s b :=
    let (poll, log, b') := pollRead s.log b
    (poll, { s with log }, b')
  length_pollRead s := AsyncRead.length_pollRead s.log
  filled_pollRead s := AsyncRead.filled_pollRead s.log
  stalled_pollRead s := AsyncRead.stalled_pollRead s.log

instance [AsyncWrite S] : AsyncWrite (Endpoint S) where
  pollWrite s buf :=
    let (poll, log) := pollWrite s.log buf
    (poll, ⟨log, s.polls ++ [.write]⟩)
  pollFlush s :=
    let (poll, log) := pollFlush s.log
    (poll, ⟨log, s.polls ++ [.flush]⟩)
  pollShutdown s :=
    let (poll, log) := pollShutdown s.log
    (poll, ⟨log, s.polls ++ [.shutdown (poll = .ready (.ok ()))]⟩)
  pollWrite_le s := AsyncWrite.pollWrite_le s.log

/-- What its reads have delivered. -/
def consumed (s : Endpoint S) : List UInt8 := s.log.consumed

/-- What its writes have accepted. -/
def accepted (s : Endpoint S) : List UInt8 := s.log.accepted

/-- Its last read has found the end. -/
def ended (s : Endpoint S) : Bool := s.log.ended

/-- The object itself is changed from elsewhere. -/
def replace (s : Endpoint S) (inner : S) :
    Endpoint S := { s with log := { s.log with inner := inner } }

end Endpoint

structure DirectionState where
  buffer : List UInt8
  filled : ℕ
  pos : ℕ
  eof : Bool
  copied : UInt64
  dstShutdown : Bool

inductive DirectionPoll where
  | pending
  | done
  deriving DecidableEq

namespace DirectionState

def new : DirectionState where
  buffer := List.replicate 8192 0
  filled := 0
  pos := 0
  eof := false
  copied := 0
  dstShutdown := false

/-- `buffer[pos..filled]` -/
def buffered (state : DirectionState) :
    List UInt8 := (state.buffer.take state.filled).drop state.pos

variable {S D : Type} [AsyncRead S] [AsyncWrite D]

/-- What a turn of the loop of `poll_direction` makes of its arguments, and what it returns, if it
is the last one. -/
structure Turn (S D : Type) where
  src : S
  dst : D
  state : DirectionState
  returns : Option (Except IoError DirectionPoll)

def write (src : S) (dst : D) (state : DirectionState) : Turn S D :=
  let (poll, dst) := pollWrite dst state.buffered
  match poll with
  | .pending => ⟨src, dst, state, some (.ok .pending)⟩
  | .ready (.ok 0) =>
      ⟨src, dst, state, some (.error (writeZero "eddy: copy_bidirectional writer made no progress"))⟩
  | .ready (.ok amount) =>
      let state := { state with
        pos := state.pos + amount
        copied := state.copied + UInt64.ofNat amount }
      ⟨src, dst, state, none⟩
  | .ready (.error error) => ⟨src, dst, state, some (.error error)⟩

def shutdown (src : S) (dst : D) (state : DirectionState) : Turn S D :=
  if state.dstShutdown then ⟨src, dst, state, some (.ok .done)⟩
  else
    let (poll, dst) := pollShutdown dst
    match poll with
    | .pending => ⟨src, dst, state, some (.ok .pending)⟩
    | .ready (.error error) => ⟨src, dst, state, some (.error error)⟩
    | .ready (.ok ()) => ⟨src, dst, { state with dstShutdown := true }, some (.ok .done)⟩

def read (src : S) (dst : D) (state : DirectionState) : Turn S D :=
  let (poll, src, readBuf) := pollRead src (.new state.buffer)
  let state := { state with buffer := readBuf.buf }
  match poll with
  | .pending => ⟨src, dst, state, some (.ok .pending)⟩
  | .ready (.error error) => ⟨src, dst, state, some (.error error)⟩
  | .ready (.ok ()) =>
      let state := { state with filled := readBuf.filledLen, pos := 0 }
      ⟨src, dst, if state.filled = 0 then { state with eof := true } else state, none⟩

/-- One turn of the loop of `poll_direction`. -/
def turn (src : S) (dst : D) (state : DirectionState) : Turn S D :=
  if state.pos < state.filled then write src dst state
  else if state.eof then shutdown src dst state
  else read src dst state

end DirectionState

inductive CopyPc where
  /-- The future is `Pending`, or was never polled. -/
  | pending
  | leftToRight
  | rightToLeft (leftToRight : DirectionPoll)
  | ready (result : Except IoError (UInt64 × UInt64))
  deriving DecidableEq

structure CopyBidirectional (A B : Type) where
  left : Endpoint A
  right : Endpoint B
  leftToRight : DirectionState
  rightToLeft : DirectionState
  pc : CopyPc

inductive CopyLabel (A B : Type) where
  | poll
  | turn
  /-- The endpoints are changed from elsewhere. -/
  | change (left : A) (right : B)

namespace CopyBidirectional
variable {A B : Type}

def new (left : A) (right : B) : CopyBidirectional A B where
  left := .new left
  right := .new right
  leftToRight := .new
  rightToLeft := .new
  pc := .pending

/-- After `poll_direction` from left to right. -/
def afterLeft : Option (Except IoError DirectionPoll) → CopyPc
  | none => .leftToRight
  | some (.ok poll) => .rightToLeft poll
  | some (.error error) => .ready (.error error)

/-- After `poll_direction` from right to left. -/
def afterRight (leftToRight rightToLeft : DirectionState) (first : DirectionPoll) :
    Option (Except IoError DirectionPoll) → CopyPc
  | none => .rightToLeft first
  | some (.ok poll) =>
      if first = .done && poll = .done then .ready (.ok (leftToRight.copied, rightToLeft.copied))
      else .pending
  | some (.error error) => .ready (.error error)

variable [AsyncRead A] [AsyncWrite A] [AsyncRead B] [AsyncWrite B]

def step (s : CopyBidirectional A B) : CopyLabel A B → Option (CopyBidirectional A B)
  | .poll =>
      match s.pc with
      | .pending => some { s with pc := .leftToRight }
      | _ => none
  | .turn =>
      match s.pc with
      | .leftToRight =>
          let t := DirectionState.turn s.left s.right s.leftToRight
          some { s with
            left := t.src
            right := t.dst
            leftToRight := t.state
            pc := afterLeft t.returns }
      | .rightToLeft first =>
          let t := DirectionState.turn s.right s.left s.rightToLeft
          some { s with
            right := t.src
            left := t.dst
            rightToLeft := t.state
            pc := afterRight s.leftToRight t.state first t.returns }
      | _ => none
  | .change left right =>
      some { s with left := s.left.replace left, right := s.right.replace right }

end CopyBidirectional

namespace Endpoint
variable {S : Type}

section
variable [AsyncRead S] (s : Endpoint S) (b : ReadBuf)

@[simp] theorem consumed_pollRead : (pollRead s b).2.1.consumed =
    s.consumed ++ b.added (pollRead s b).2.2 := rfl

@[simp] theorem accepted_pollRead : (pollRead s b).2.1.accepted = s.accepted := rfl

@[simp] theorem polls_pollRead : (pollRead s b).2.1.polls = s.polls := rfl

theorem ended_stalled {s : Endpoint S} {b : ReadBuf}
    (hpoll : (pollRead s b).1 ≠ .ready (.ok ())) : (pollRead s b).2.1.ended = s.ended :=
  Logged.ended_stalled (s := s.log) hpoll

theorem ended_pollRead {s : Endpoint S} {b : ReadBuf} (hpoll : (pollRead s b).1 = .ready (.ok ()))
    (hroom : 0 < b.remaining) (hnone : b.added (pollRead s b).2.2 = []) :
    (pollRead s b).2.1.ended = true :=
  Logged.ended_pollRead (s := s.log) hpoll hroom hnone

end

section
variable [AsyncWrite S] (s : Endpoint S) (buf : List UInt8)

@[simp] theorem accepted_pollWrite : (pollWrite s buf).2.accepted =
    s.accepted ++ taken (pollWrite s buf).1 buf := rfl

@[simp] theorem polls_pollWrite : (pollWrite s buf).2.polls = s.polls ++ [.write] := rfl

@[simp] theorem consumed_pollWrite : (pollWrite s buf).2.consumed = s.consumed := rfl

@[simp] theorem ended_pollWrite : (pollWrite s buf).2.ended = s.ended := rfl

@[simp] theorem polls_pollShutdown : (pollShutdown s).2.polls =
    s.polls ++ [.shutdown ((pollShutdown s).1 = .ready (.ok ()))] := rfl

@[simp] theorem consumed_pollShutdown : (pollShutdown s).2.consumed = s.consumed := rfl

@[simp] theorem ended_pollShutdown : (pollShutdown s).2.ended = s.ended := rfl

end

end Endpoint

def Closed (polls : List WritePoll) : Prop :=
  ∃ earlier, polls = earlier ++ [.shutdown true] ∧ .shutdown true ∉ earlier

/-- What the source has delivered was accepted by the destination or is buffered. -/
structure Moves {S D : Type} (src : Endpoint S) (dst : Endpoint D) (state : DirectionState) :
    Prop where
  room : 0 < state.buffer.length
  filled_le : state.filled ≤ state.buffer.length
  pos_le : state.pos ≤ state.filled
  accounted : src.consumed = dst.accepted ++ state.buffered
  copied : state.copied = UInt64.ofNat dst.accepted.length
  eof : state.eof = true → src.ended = true ∧ state.pos = state.filled
  closed : state.dstShutdown = true → state.eof = true ∧ Closed dst.polls
  notClosed : state.dstShutdown = false → .shutdown true ∉ dst.polls

namespace Moves
variable {S D : Type} {src src' : Endpoint S} {dst dst' : Endpoint D} {state : DirectionState}

theorem new (left : S) (right : D) : Moves (.new left) (.new right) .new where
  room := by
    change 0 < (List.replicate 8192 (0 : UInt8)).length
    rw [List.length_replicate]
    decide
  filled_le := Nat.zero_le _
  pos_le := le_rfl
  accounted := rfl
  copied := rfl
  eof := nofun
  closed := nofun
  notClosed _ := nofun

/-- The reads of the destination and the writes of the source do not matter. -/
theorem congr (h : Moves src dst state) (hconsumed : src'.consumed = src.consumed)
    (hended : src'.ended = src.ended) (haccepted : dst'.accepted = dst.accepted)
    (hpolls : dst'.polls = dst.polls) : Moves src' dst' state where
  room := h.room
  filled_le := h.filled_le
  pos_le := h.pos_le
  accounted := by rw [hconsumed, haccepted, h.accounted]
  copied := by rw [haccepted, h.copied]
  eof := by rw [hended]; exact h.eof
  closed := by rw [hpolls]; exact h.closed
  notClosed := by rw [hpolls]; exact h.notClosed

theorem length_buffered (h : Moves src dst state) :
    state.buffered.length = state.filled - state.pos := by
  have hle := h.filled_le
  simp [DirectionState.buffered]
  omega

theorem buffered_eq_nil (h : Moves src dst state) (hall : ¬ state.pos < state.filled) :
    state.buffered = [] := by
  rw [← List.length_eq_zero_iff, h.length_buffered]
  omega

/-- Something is buffered only before the end of the source. -/
theorem open_of_lt (h : Moves src dst state) (hlt : state.pos < state.filled) :
    state.eof = false ∧ state.dstShutdown = false := by
  have heof : state.eof = false := by
    by_contra heof
    have hall := (h.eof (by simpa using heof)).2
    omega
  refine ⟨heof, ?_⟩
  by_contra hshutdown
  have hclosed := (h.closed (by simpa using hshutdown)).1
  rw [heof] at hclosed
  cases hclosed

section
variable [AsyncWrite D]

theorem stalled (h : Moves src dst state) (hlt : state.pos < state.filled)
    (hnone : taken (pollWrite dst state.buffered).1 state.buffered = []) :
    Moves src (pollWrite dst state.buffered).2 state where
  room := h.room
  filled_le := h.filled_le
  pos_le := h.pos_le
  accounted := by rw [Endpoint.accepted_pollWrite, hnone, List.append_nil, h.accounted]
  copied := by rw [Endpoint.accepted_pollWrite, hnone, List.append_nil, h.copied]
  eof := h.eof
  closed hshutdown := by
    rw [(h.open_of_lt hlt).2] at hshutdown
    cases hshutdown
  notClosed hopen := by simpa using h.notClosed hopen

theorem advance {amount : ℕ} (h : Moves src dst state) (hlt : state.pos < state.filled)
    (hpoll : (pollWrite dst state.buffered).1 = .ready (.ok amount)) :
    Moves src (pollWrite dst state.buffered).2
      { state with pos := state.pos + amount, copied := state.copied + UInt64.ofNat amount } where
  room := h.room
  filled_le := h.filled_le
  pos_le := by
    have hle := AsyncWrite.pollWrite_le dst state.buffered amount hpoll
    rw [h.length_buffered] at hle
    simp only
    omega
  accounted := by
    have hdrop : DirectionState.buffered { state with
        pos := state.pos + amount, copied := state.copied + UInt64.ofNat amount } =
        state.buffered.drop amount := by simp [DirectionState.buffered, List.drop_drop]
    rw [hdrop, Endpoint.accepted_pollWrite, hpoll, taken, List.append_assoc, List.take_append_drop,
      h.accounted]
  copied := by
    have hle := AsyncWrite.pollWrite_le dst state.buffered amount hpoll
    rw [Endpoint.accepted_pollWrite, hpoll, taken, List.length_append, List.length_take_of_le hle,
      UInt64.ofNat_add, h.copied]
  eof heof := by
    rw [(h.open_of_lt hlt).1] at heof
    cases heof
  closed hshutdown := by
    rw [(h.open_of_lt hlt).2] at hshutdown
    cases hshutdown
  notClosed hopen := by simpa using h.notClosed hopen

end

structure Frame (src : Endpoint S) (dst : Endpoint D)
    (t : DirectionState.Turn (Endpoint S) (Endpoint D)) : Prop where
  accepted : t.src.accepted = src.accepted
  polls : t.src.polls = src.polls
  consumed : t.dst.consumed = dst.consumed
  ended : t.dst.ended = dst.ended

/-- What a turn keeps, and what it means that it is done. -/
structure Keeps (src : Endpoint S) (dst : Endpoint D)
    (t : DirectionState.Turn (Endpoint S) (Endpoint D)) : Prop where
  moves : Moves t.src t.dst t.state
  frame : Frame src dst t
  done : t.returns = some (.ok .done) → t.state.dstShutdown = true

/-- With nothing buffered, the memory of the buffer does not matter. -/
theorem rest {buffer : List UInt8} (h : Moves src dst state) (hall : ¬ state.pos < state.filled)
    (hlength : buffer.length = state.buffer.length) :
    Moves src dst { state with buffer := buffer } where
  room := by rw [hlength]; exact h.room
  filled_le := by rw [hlength]; exact h.filled_le
  pos_le := h.pos_le
  accounted := by
    have hpos := h.pos_le
    have hnone : DirectionState.buffered { state with buffer := buffer } = [] := by
      simp [DirectionState.buffered]
      omega
    rw [hnone, h.accounted, h.buffered_eq_nil hall]
  copied := h.copied
  eof := h.eof
  closed := h.closed
  notClosed := h.notClosed

theorem refill {readBuf : ReadBuf} (h : Moves src dst state) (hall : ¬ state.pos < state.filled)
    (hopen : state.dstShutdown = false) (hlength : readBuf.buf.length = state.buffer.length)
    (hconsumed : src'.consumed = src.consumed ++ readBuf.filled) {eof : Bool}
    (heof : eof = true → src'.ended = true ∧ readBuf.filledLen = 0) :
    Moves src' dst { state with
      buffer := readBuf.buf, filled := readBuf.filledLen, pos := 0, eof := eof } where
  room := by rw [hlength]; exact h.room
  filled_le := readBuf.filledLen_le
  pos_le := Nat.zero_le _
  accounted := by
    rw [hconsumed, h.accounted, h.buffered_eq_nil hall, List.append_nil]
    rfl
  copied := h.copied
  eof hend := ⟨(heof hend).1, (heof hend).2.symm⟩
  closed hshutdown := by
    simp only at hshutdown
    rw [hopen] at hshutdown
    cases hshutdown
  notClosed := h.notClosed

theorem read [AsyncRead S] (h : Moves src dst state) (hall : ¬ state.pos < state.filled)
    (heof : state.eof = false) : Keeps src dst (DirectionState.read src dst state) := by
  have hopen : state.dstShutdown = false := by
    by_contra hshutdown
    have hend := (h.closed (by simpa using hshutdown)).1
    rw [heof] at hend
    cases hend
  have hlength := AsyncRead.length_pollRead src (.new state.buffer)
  have hconsumed := src.consumed_pollRead (.new state.buffer)
  have hstalled := AsyncRead.stalled_pollRead src (.new state.buffer)
  have hkept := Endpoint.ended_stalled (s := src) (b := .new state.buffer)
  have hended := Endpoint.ended_pollRead (s := src) (b := .new state.buffer)
  have haccepted := src.accepted_pollRead (.new state.buffer)
  have hpolls := src.polls_pollRead (.new state.buffer)
  simp only [ReadBuf.added_new, ReadBuf.filled_new, ReadBuf.remaining_new, ReadBuf.buf_new]
    at hlength hconsumed hstalled hended
  unfold DirectionState.read
  generalize pollRead src (.new state.buffer) = polled at *
  obtain ⟨poll, src', readBuf⟩ := polled
  have hframe (state' : DirectionState) (returns : Option (Except IoError DirectionPoll)) :
      Frame src dst ⟨src', dst, state', returns⟩ := ⟨haccepted, hpolls, rfl, rfl⟩
  have hstay (hpoll : poll ≠ .ready (.ok ())) :
      Moves src' dst { state with buffer := readBuf.buf } := by
    refine (h.rest hall hlength).congr ?_ (hkept hpoll) rfl rfl
    rw [hconsumed, hstalled hpoll, List.append_nil]
  match poll with
  | .pending => exact ⟨hstay nofun, hframe _ _, nofun⟩
  | .ready (.error error) => exact ⟨hstay nofun, hframe _ _, nofun⟩
  | .ready (.ok ()) =>
    refine ⟨?_, hframe _ _, nofun⟩
    dsimp only
    split_ifs with hnone
    · refine h.refill hall hopen hlength hconsumed fun _ => ⟨hended rfl h.room ?_, hnone⟩
      rw [← List.length_eq_zero_iff, ReadBuf.length_filled]
      exact hnone
    · exact h.refill hall hopen hlength hconsumed fun hend => absurd hend (by simp [heof])

theorem write [AsyncWrite D] (h : Moves src dst state) (hlt : state.pos < state.filled) :
    Keeps src dst (DirectionState.write src dst state) := by
  have hstalled := h.stalled hlt
  have hadvance (amount : ℕ) (hpoll : (pollWrite dst state.buffered).1 = .ready (.ok amount)) :=
    h.advance hlt hpoll
  have hconsumed := dst.consumed_pollWrite state.buffered
  have hended := dst.ended_pollWrite state.buffered
  unfold DirectionState.write
  generalize pollWrite dst state.buffered = polled at hstalled hadvance hconsumed hended ⊢
  obtain ⟨poll, dst'⟩ := polled
  have hframe (state' : DirectionState) (returns : Option (Except IoError DirectionPoll)) :
      Frame src dst ⟨src, dst', state', returns⟩ := ⟨rfl, rfl, hconsumed, hended⟩
  match poll with
  | .pending => exact ⟨hstalled rfl, hframe _ _, nofun⟩
  | .ready (.ok 0) => exact ⟨hstalled (by simp [taken]), hframe _ _, nofun⟩
  | .ready (.ok (amount + 1)) => exact ⟨hadvance (amount + 1) rfl, hframe _ _, nofun⟩
  | .ready (.error error) => exact ⟨hstalled rfl, hframe _ _, nofun⟩

theorem close [AsyncWrite D] (h : Moves src dst state) (heof : state.eof = true)
    (hopen : state.dstShutdown = false) :
    Moves src (pollShutdown dst).2
      { state with dstShutdown := (pollShutdown dst).1 = .ready (.ok ()) } where
  room := h.room
  filled_le := h.filled_le
  pos_le := h.pos_le
  accounted := h.accounted
  copied := h.copied
  eof := h.eof
  closed hdone := by
    rw [Endpoint.polls_pollShutdown]
    simp only at hdone
    exact ⟨heof, dst.polls, by rw [hdone], h.notClosed hopen⟩
  notClosed hdone := by
    rw [Endpoint.polls_pollShutdown]
    simp only at hdone
    simpa [hdone] using h.notClosed hopen

/-- The destination is shut down once, when nothing is left to write. -/
theorem shutdown [AsyncWrite D] (h : Moves src dst state) (heof : state.eof = true) :
    Keeps src dst (DirectionState.shutdown src dst state) := by
  unfold DirectionState.shutdown
  split_ifs with hshutdown
  · exact ⟨h, ⟨rfl, rfl, rfl, rfl⟩, fun _ => hshutdown⟩
  · have hopen : state.dstShutdown = false := by simpa using hshutdown
    have hclose := h.close heof hopen
    have hconsumed := dst.consumed_pollShutdown
    have hended := dst.ended_pollShutdown
    generalize pollShutdown dst = polled at hclose hconsumed hended ⊢
    obtain ⟨poll, dst'⟩ := polled
    have hframe (state' : DirectionState) (returns : Option (Except IoError DirectionPoll)) :
        Frame src dst ⟨src, dst', state', returns⟩ := ⟨rfl, rfl, hconsumed, hended⟩
    have hkept : { state with dstShutdown := false } = state := by rw [← hopen]
    match poll with
    | .pending => exact ⟨by simpa [hkept] using hclose, hframe _ _, nofun⟩
    | .ready (.error error) => exact ⟨by simpa [hkept] using hclose, hframe _ _, nofun⟩
    | .ready (.ok ()) => exact ⟨by simpa using hclose, hframe _ _, fun _ => rfl⟩

theorem turn [AsyncRead S] [AsyncWrite D] (h : Moves src dst state) :
    Keeps src dst (DirectionState.turn src dst state) := by
  unfold DirectionState.turn
  split_ifs with hlt heof
  · exact h.write hlt
  · exact h.shutdown heof
  · exact h.read hlt (by simpa using heof)

end Moves

/-- The destination has accepted all that the source has delivered up to its end, `n` is the number
of these bytes, and the shutdown that followed is the last poll of the destination. -/
structure Transferred {S D : Type} (src : Endpoint S) (dst : Endpoint D) (n : UInt64) : Prop where
  exactly : dst.accepted = src.consumed
  ended : src.ended = true
  number : n = UInt64.ofNat dst.accepted.length
  closed : Closed dst.polls

theorem Moves.transferred {S D : Type} {src : Endpoint S} {dst : Endpoint D}
    {state : DirectionState}
    (h : Moves src dst state) (hshutdown : state.dstShutdown = true) :
    Transferred src dst state.copied := by
  obtain ⟨heof, hclosed⟩ := h.closed hshutdown
  obtain ⟨hended, hall⟩ := h.eof heof
  refine ⟨?_, hended, h.copied, hclosed⟩
  rw [h.accounted, h.buffered_eq_nil (by omega), List.append_nil]

namespace CopyBidirectional
variable {A B : Type}

/-- What was read is accounted for, and an `Ok` says what has been delivered. -/
structure Exact (s : CopyBidirectional A B) : Prop where
  leftToRight : s.left.consumed = s.right.accepted ++ s.leftToRight.buffered
  rightToLeft : s.right.consumed = s.left.accepted ++ s.rightToLeft.buffered
  ready : ∀ a b, s.pc = .ready (.ok (a, b)) →
    Transferred s.left s.right a ∧ Transferred s.right s.left b

structure Sound (s : CopyBidirectional A B) : Prop where
  leftToRight : Moves s.left s.right s.leftToRight
  rightToLeft : Moves s.right s.left s.rightToLeft
  first : s.pc = .rightToLeft .done → s.leftToRight.dstShutdown = true
  ready : ∀ a b, s.pc = .ready (.ok (a, b)) →
    (s.leftToRight.dstShutdown = true ∧ a = s.leftToRight.copied) ∧
      s.rightToLeft.dstShutdown = true ∧ b = s.rightToLeft.copied

theorem Sound.new (left : A) (right : B) : Sound (new left right) where
  leftToRight := .new left right
  rightToLeft := .new right left
  first := nofun
  ready := nofun

theorem Sound.exact {s : CopyBidirectional A B} (h : Sound s) : Exact s where
  leftToRight := h.leftToRight.accounted
  rightToLeft := h.rightToLeft.accounted
  ready a b hready := by
    obtain ⟨⟨hleft, rfl⟩, hright, rfl⟩ := h.ready a b hready
    exact ⟨h.leftToRight.transferred hleft, h.rightToLeft.transferred hright⟩

variable {s t : CopyBidirectional A B}

theorem Sound.turnLeft [AsyncRead A] [AsyncWrite B] (h : Sound s) :
    Sound { s with
      left := (DirectionState.turn s.left s.right s.leftToRight).src
      right := (DirectionState.turn s.left s.right s.leftToRight).dst
      leftToRight := (DirectionState.turn s.left s.right s.leftToRight).state
      pc := afterLeft (DirectionState.turn s.left s.right s.leftToRight).returns } := by
  obtain ⟨hmoves, hframe, hdone⟩ := h.leftToRight.turn
  refine ⟨hmoves, ?_, fun hfirst => hdone ?_, fun a b hready => ?_⟩
  · exact h.rightToLeft.congr hframe.consumed hframe.ended hframe.accepted hframe.polls
  · unfold afterLeft at hfirst
    split at hfirst <;> cases hfirst
    assumption
  · unfold afterLeft at hready
    split at hready <;> cases hready

theorem Sound.turnRight [AsyncRead B] [AsyncWrite A] {first : DirectionPoll} (h : Sound s)
    (hpc : s.pc = .rightToLeft first) :
    Sound { s with
      right := (DirectionState.turn s.right s.left s.rightToLeft).src
      left := (DirectionState.turn s.right s.left s.rightToLeft).dst
      rightToLeft := (DirectionState.turn s.right s.left s.rightToLeft).state
      pc := afterRight s.leftToRight (DirectionState.turn s.right s.left s.rightToLeft).state first
        (DirectionState.turn s.right s.left s.rightToLeft).returns } := by
  obtain ⟨hmoves, hframe, hdone⟩ := h.rightToLeft.turn
  refine ⟨?_, hmoves, fun hfirst => ?_, fun a b hready => ?_⟩
  · exact h.leftToRight.congr hframe.consumed hframe.ended hframe.accepted hframe.polls
  · apply h.first
    rw [hpc]
    simp only [afterRight] at hfirst
    split at hfirst
    · exact hfirst
    · split_ifs at hfirst
    · cases hfirst
  · simp only [afterRight] at hready
    split at hready
    · cases hready
    · rename_i poll hreturns
      split_ifs at hready with hboth
      cases hready
      simp only [Bool.and_eq_true, decide_eq_true_eq] at hboth
      obtain ⟨rfl, rfl⟩ := hboth
      exact ⟨⟨h.first hpc, rfl⟩, hdone hreturns, rfl⟩
    · cases hready

variable [AsyncRead A] [AsyncWrite A] [AsyncRead B] [AsyncWrite B]

theorem Sound.step {label : CopyLabel A B} (h : Sound s) (hs : s.step label = some t) :
    Sound t := by
  cases label with
  | poll =>
    simp only [CopyBidirectional.step] at hs
    split at hs <;> cases hs
    exact ⟨h.leftToRight, h.rightToLeft, nofun, nofun⟩
  | turn =>
    simp only [CopyBidirectional.step] at hs
    split at hs
    · cases hs
      exact h.turnLeft
    · rename_i first hpc
      cases hs
      exact h.turnRight hpc
    · cases hs
  | change left right =>
    cases hs
    exact ⟨h.leftToRight.congr rfl rfl rfl rfl, h.rightToLeft.congr rfl rfl rfl rfl, h.first, h.ready⟩

/-- In whatever order the endpoints answer and are changed, what either has delivered was accepted
by the other or is buffered; and when the future is ready with `Ok`, each has accepted all of the
other's bytes and was then shut down, once. -/
theorem copy_bidirectional_exact {left : A} {right : B}
    (h : Reachable CopyBidirectional.step anyStep (new left right) s) : Exact s :=
  (h.invariant (I := Sound) (.new left right) fun _ _ _ hsound _ hs => hsound.step hs).exact

/-- Both endpoints are pending at times, and accept what they are given in parts. -/
theorem copy_bidirectional_exact_in_parts :
    ∃ s, Reachable CopyBidirectional.step anyStep
        (new (A := Script) (B := Script)
          ⟨[.ready (.ok [1, 2, 3]), .pending], [.pending, .ready (.ok 1)]⟩
          ⟨[.pending, .ready (.ok [4, 5])], [.ready (.ok 2), .pending]⟩) s ∧
      s.pc = .ready (.ok (3, 2)) ∧ s.right.accepted = [1, 2, 3] ∧ s.left.accepted = [4, 5] ∧
      Transferred s.left s.right 3 ∧ Transferred s.right s.left 2 := by
  have hrun : (run (guarded CopyBidirectional.step anyStep)
      (new (A := Script) (B := Script)
        ⟨[.ready (.ok [1, 2, 3]), .pending], [.pending, .ready (.ok 1)]⟩
        ⟨[.pending, .ready (.ok [4, 5])], [.ready (.ok 2), .pending]⟩)
      (.poll :: List.replicate 4 .turn ++ .poll :: List.replicate 4 .turn ++
        .poll :: List.replicate 6 .turn)).any (fun s => decide (s.pc = .ready (.ok (3, 2)) ∧
          s.right.accepted = [1, 2, 3] ∧ s.left.accepted = [4, 5])) = true := by
    decide +kernel
  obtain ⟨s, hreach, hs⟩ := exists_reachable_of_run hrun
  obtain ⟨hpc, hright, hleft⟩ := of_decide_eq_true hs
  obtain ⟨hforth, hback⟩ := (copy_bidirectional_exact hreach).ready 3 2 hpc
  exact ⟨s, hreach, hpc, hright, hleft, hforth, hback⟩

end CopyBidirectional

end Eddy.AsyncIo
