import Eddy.AsyncIo
import Eddy.ScheduledIo

/-!
# Reads through a readiness wrapper

`poll_read_inner` of `io/poll_evented.rs`, with `recv_into` of `io/net.rs` and
`Registration::try_io_with`. A round of its loop is what it finds: the word that the poll for
readiness loads last, and what the syscall and the rearming of the descriptor return.
-/

namespace Eddy.AsyncIo
open ScheduledIo

/-- The error is `EAGAIN`, or of the kind. -/
def IoError.wouldBlock : IoError → Bool
  | .os code => code = 11
  | .new kind _ => kind = .wouldBlock
  | .utf8 _ => false

namespace PollEvented

structure Round where
  word : UInt64
  /-- The result of `recv`, of which there is room for a part, once it was not interrupted. -/
  recv : Except IoError (List UInt8)
  rearm : Except IoError Unit

namespace Round

/-- `poll_readiness` is ready. -/
def readable (round : Round) : Bool := (readiness round.word .READABLE).isSome

/-- `recv_into` with so much room. -/
def recvInto (round : Round) (room : ℕ) : Except IoError (List UInt8) :=
  if room = 0 then .ok [] else round.recv.map fun bytes => bytes.take room

/-- What is taken from the descriptor. -/
def taken (round : Round) (room : ℕ) : List UInt8 :=
  match round.recvInto room with
  | .ok bytes => bytes
  | .error _ => []

/-- `try_io_with`; the clear after a syscall that would block shows in the next word. -/
def tryIo (interests : Interest) (round : Round) (room : ℕ) : Except IoError (List UInt8) :=
  if interests.isEdgeTriggered then
    match round.rearm with
    | .error error => .error error
    | .ok () => round.recvInto room
  else round.recvInto room

variable {round : Round} {room : ℕ} {bytes : List UInt8}

theorem length_recvInto
    (h : round.recvInto room = .ok bytes) : bytes.length ≤ room := by
  unfold recvInto at h
  split at h
  · obtain rfl : [] = bytes := by simpa using h
    exact Nat.zero_le _
  · cases hrecv : round.recv with
    | error error =>
      rw [hrecv] at h
      cases h
    | ok all =>
      rw [hrecv] at h
      obtain rfl : all.take room = bytes := by simpa [Except.map] using h
      exact List.length_take_le _ _

theorem tryIo_eq_ok {interests : Interest}
    (h : round.tryIo interests room = .ok bytes) : round.recvInto room = .ok bytes := by
  unfold tryIo at h
  split at h
  · split at h
    · cases h
    · exact h
  · exact h

theorem taken_of_tryIo {interests : Interest}
    (h : round.tryIo interests room = .ok bytes) : round.taken room = bytes := by
  rw [taken, tryIo_eq_ok h]

theorem rearm_of_tryIo {interests : Interest}
    (h : round.tryIo interests room = .ok bytes) (hedge : interests.isEdgeTriggered = true) :
    round.rearm = .ok () := by
  rw [tryIo, if_pos hedge] at h
  split at h
  · cases h
  · assumption

theorem rearm_ne_ok {interests : Interest} {error : IoError}
    (h : round.tryIo interests room = .error error) (htaken : round.taken room ≠ []) :
    interests.isEdgeTriggered = true ∧ round.rearm ≠ .ok () := by
  have hrecv : round.recvInto room ≠ .error error := fun hrecv => htaken (by rw [taken, hrecv])
  unfold tryIo at h
  split at h
  · rename_i hedge
    refine ⟨hedge, fun hrearm => ?_⟩
    rw [hrearm] at h
    exact hrecv h
  · exact absurd h hrecv

end Round

/-- What a poll leaves: its answer, the caller's buffer, and what it took from the descriptor. -/
structure Polled where
  answer : PollIo Unit
  buf : ReadBuf
  consumed : List UInt8

/-- The loop; undefined as long as it has not returned. -/
def readLoop (interests : Interest) (buf : ReadBuf) (consumed : List UInt8) (readAny : Bool) :
    List Round → Option Polled
  | [] => none
  | round :: rounds =>
    if round.readable then
      match h : round.tryIo interests buf.remaining with
      | .ok bytes =>
        let filled := buf.fill bytes (Round.length_recvInto (Round.tryIo_eq_ok h))
        if interests.isEdgeTriggered ∧ bytes ≠ [] ∧ filled.remaining ≠ 0 then
          readLoop interests filled (consumed ++ round.taken buf.remaining) true rounds
        else some ⟨.ready (.ok ()), filled, consumed ++ round.taken buf.remaining⟩
      | .error error =>
        if error.wouldBlock then
          if readAny then some ⟨.ready (.ok ()), buf, consumed ++ round.taken buf.remaining⟩
          else readLoop interests buf (consumed ++ round.taken buf.remaining) false rounds
        else some ⟨.ready (.error error), buf, consumed ++ round.taken buf.remaining⟩
    else some ⟨.pending, buf, consumed⟩

/-- `proceed` is the answer of `poll_proceed`. -/
def pollRead (interests : Interest) (proceed : Bool) (buf : ReadBuf) (rounds : List Round) :
    Option Polled :=
  if proceed then readLoop interests buf [] false rounds else some ⟨.pending, buf, []⟩

/-- The contract of `AsyncRead::poll_read`. -/
def Contract (before : ReadBuf) (p : Polled) : Prop :=
  match p.answer with
  | .ready (.ok ()) => p.buf.filled = before.filled ++ p.consumed
  | _ => p.buf.filled = before.filled ∧ p.consumed = []

/-- In the edge mode each syscall that takes bytes is followed by a rearming that succeeds, and once
bytes were taken, as long as there is room, the descriptor is found readable and neither the
syscall nor the rearming fails, until the syscall would block or takes nothing. -/
def Undisturbed (interests : Interest) : ℕ → Bool → List Round → Prop
  | _, _, [] => True
  | room, readAny, round :: rounds =>
    if round.readable then
      (interests.isEdgeTriggered → round.taken room ≠ [] → round.rearm = .ok ()) ∧
      match round.tryIo interests room with
      | .ok bytes =>
        interests.isEdgeTriggered → bytes ≠ [] → room - bytes.length ≠ 0 →
          Undisturbed interests (room - bytes.length) true rounds
      | .error error =>
        if error.wouldBlock then readAny = false → Undisturbed interests room false rounds
        else readAny = false
    else readAny = false

theorem length_of_contract {before : ReadBuf} {p : Polled} (h : Contract before p) :
    p.buf.filledLen = before.filledLen + p.consumed.length := by
  unfold Contract at h
  split at h
  · simpa using congrArg List.length h
  · obtain ⟨hfilled, hconsumed⟩ := h
    simpa [hconsumed] using congrArg List.length hfilled

variable {interests : Interest} {before buf : ReadBuf} {consumed : List UInt8} {readAny : Bool}
  {rounds : List Round} {p : Polled}

theorem lost_of_readLoop (hlost : buf.filledLen < before.filledLen + consumed.length)
    (h : readLoop interests buf consumed readAny rounds = some p) :
    p.buf.filledLen < before.filledLen + p.consumed.length := by
  induction rounds generalizing buf consumed readAny with
  | nil => cases h
  | cons round rounds ih =>
    unfold readLoop at h
    split at h
    · split at h
      · rename_i bytes hbytes
        have htaken := Round.taken_of_tryIo hbytes
        dsimp only at h
        split at h
        · apply ih _ h
          simp [ReadBuf.fill, htaken]
          omega
        · obtain rfl := Option.some.inj h
          simp [ReadBuf.fill, htaken]
          omega
      · split at h
        · split at h
          · obtain rfl := Option.some.inj h
            simp
            omega
          · apply ih _ h
            simp
            omega
        · obtain rfl := Option.some.inj h
          simp
          omega
    · obtain rfl := Option.some.inj h
      exact hlost

theorem contract_success (hfilled : buf.filled = before.filled ++ consumed) :
    Contract before ⟨.ready (.ok ()), buf, consumed⟩ := hfilled

/-- Without success the contract asks that nothing was taken. -/
theorem contract_stalled_iff {answer : PollIo Unit} (hanswer : answer ≠ .ready (.ok ()))
    (hfilled : buf.filled = before.filled ++ consumed) :
    Contract before ⟨answer, buf, consumed⟩ ↔ consumed = [] := by
  unfold Contract
  split
  · rename_i hok
    exact absurd hok hanswer
  · constructor
    · exact fun h => h.2
    · intro h
      exact ⟨by rw [hfilled, h, List.append_nil], h⟩

theorem contract_iff_of_readLoop (hfilled : buf.filled = before.filled ++ consumed)
    (hany : readAny = false ↔ consumed = [])
    (h : readLoop interests buf consumed readAny rounds = some p) :
    Contract before p ↔ Undisturbed interests buf.remaining readAny rounds := by
  induction rounds generalizing buf consumed readAny with
  | nil => cases h
  | cons round rounds ih =>
    unfold readLoop at h
    unfold Undisturbed
    split at h
    · rename_i hreadable
      rw [if_pos hreadable]
      split at h
      · rename_i bytes hbytes
        have htaken := Round.taken_of_tryIo hbytes
        have hfit := Round.length_recvInto (Round.tryIo_eq_ok hbytes)
        have hrearm : interests.isEdgeTriggered → round.taken buf.remaining ≠ [] →
            round.rearm = .ok () := fun hedge _ => Round.rearm_of_tryIo hbytes hedge
        have hfilled' : (buf.fill bytes hfit).filled = before.filled ++ (consumed ++ bytes) := by
          rw [ReadBuf.filled_fill, hfilled, List.append_assoc]
        rw [hbytes]
        dsimp only at h ⊢
        rw [htaken] at h
        split at h
        · rename_i hmore
          obtain ⟨hedge, hne, hroom⟩ := hmore
          have hany' : true = false ↔ consumed ++ bytes = [] := by simp [hne]
          rw [ih hfilled' hany' h, ReadBuf.remaining_fill]
          rw [ReadBuf.remaining_fill] at hroom
          exact ⟨fun hrest => ⟨hrearm, fun _ _ _ => hrest⟩, fun hrest => hrest.2 hedge hne hroom⟩
        · rename_i hmore
          obtain rfl := Option.some.inj h
          rw [ReadBuf.remaining_fill] at hmore
          exact ⟨fun _ => ⟨hrearm, fun hedge hne hroom => absurd ⟨hedge, hne, hroom⟩ hmore⟩,
            fun _ => contract_success hfilled'⟩
      · rename_i error herror
        rw [herror]
        dsimp only
        by_cases htaken : round.taken buf.remaining = []
        · rw [htaken, List.append_nil] at h
          have hrearm : interests.isEdgeTriggered → round.taken buf.remaining ≠ [] →
              round.rearm = .ok () := fun _ hne => absurd htaken hne
          split at h
          · rename_i hblock
            rw [if_pos hblock]
            split at h
            · rename_i hread
              obtain rfl := Option.some.inj h
              exact ⟨fun _ => ⟨hrearm, fun hnone => by simp [hread] at hnone⟩,
                fun _ => contract_success hfilled⟩
            · rename_i hread
              have hnone : readAny = false := by simpa using hread
              rw [ih hfilled ⟨fun _ => hany.mp hnone, fun _ => rfl⟩ h]
              exact ⟨fun hrest => ⟨hrearm, fun _ => hrest⟩, fun hrest => hrest.2 hnone⟩
          · rename_i hblock
            obtain rfl := Option.some.inj h
            rw [if_neg hblock, contract_stalled_iff (by simp) hfilled, ← hany]
            exact ⟨fun hnone => ⟨hrearm, hnone⟩, fun hrest => hrest.2⟩
        · obtain ⟨hedge, hrearm⟩ := Round.rearm_ne_ok herror htaken
          have hpos := List.length_pos_iff.mpr htaken
          have hlength : buf.filledLen = before.filledLen + consumed.length := by
            simpa using congrArg List.length hfilled
          have hnow : buf.filledLen <
              before.filledLen + (consumed ++ round.taken buf.remaining).length := by
            rw [List.length_append]
            omega
          have hlost : p.buf.filledLen < before.filledLen + p.consumed.length := by
            split at h
            · split at h
              · obtain rfl := Option.some.inj h
                exact hnow
              · exact lost_of_readLoop hnow h
            · obtain rfl := Option.some.inj h
              exact hnow
          refine ⟨fun hcontract => ?_, fun hrest => absurd (hrest.1 hedge htaken) hrearm⟩
          have hcontracted := length_of_contract hcontract
          omega
    · rename_i hreadable
      obtain rfl := Option.some.inj h
      rw [if_neg hreadable, contract_stalled_iff (by simp) hfilled, hany]

/-- A poll that returns keeps the contract of `AsyncRead` exactly when it is out of budget, or its
rounds are undisturbed. -/
theorem pollRead_contract_iff (interests : Interest) (proceed : Bool) (buf : ReadBuf)
    (rounds : List Round) (p : Polled) (h : pollRead interests proceed buf rounds = some p) :
    Contract buf p ↔ proceed = true → Undisturbed interests buf.remaining false rounds := by
  unfold pollRead at h
  split at h
  · rename_i hproceed
    rw [contract_iff_of_readLoop (List.append_nil _).symm (by simp) h]
    exact ⟨fun hrest _ => hrest, fun hrest => hrest hproceed⟩
  · rename_i hproceed
    obtain rfl := Option.some.inj h
    exact ⟨fun _ hp => absurd hp hproceed,
      fun _ => (contract_stalled_iff (by simp) (List.append_nil _).symm).mpr rfl⟩

theorem pollRead_contract_iff_blocked : ∃ p : Polled,
    pollRead ⟨0b0101⟩ true (.new [0, 0, 0])
      [⟨setReadiness (new 0) .READABLE, .ok [1, 2], .ok ()⟩,
        ⟨setReadiness (new 0) .READABLE, .error (.os 11), .ok ()⟩] = some p ∧
    (Contract (.new [0, 0, 0]) p ↔ true = true → Undisturbed ⟨0b0101⟩ 3 false
      [⟨setReadiness (new 0) .READABLE, .ok [1, 2], .ok ()⟩,
        ⟨setReadiness (new 0) .READABLE, .error (.os 11), .ok ()⟩]) :=
  ⟨_, rfl, pollRead_contract_iff ⟨0b0101⟩ true (.new [0, 0, 0]) _ _ rfl⟩

/-- Two bytes are read, and then the connection is found reset. -/
theorem pollRead_reset : ∃ p : Polled,
    pollRead ⟨0b0101⟩ true (.new [0, 0, 0])
      [⟨setReadiness (new 0) .READABLE, .ok [1, 2], .ok ()⟩,
        ⟨setReadiness (new 0) .READABLE, .error (.os 104), .ok ()⟩] = some p ∧
    p.answer = .ready (.error (.os 104)) ∧ p.buf.filled = [1, 2] ∧ p.consumed = [1, 2] ∧
    ¬ Contract (.new [0, 0, 0]) p := by
  refine ⟨_, rfl, rfl, rfl, rfl, fun hcontract => ?_⟩
  have hconsumed : [1, 2] = ([] : List UInt8) := hcontract.2
  cases hconsumed

end PollEvented

end Eddy.AsyncIo
