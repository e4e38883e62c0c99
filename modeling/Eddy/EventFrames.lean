import Eddy.EventWire
import Eddy.RuntimeEvents

/-!
# What the runtime encodes and the console decodes

The console's view of a runtime event has its times in nanoseconds, saturated to 64 bits. The frame
that the runtime writes is the layout of this view behind its length.
-/

namespace Eddy.Console
open ByteReaders Instrument

def Location.of (loc : Instrument.Location) : Location := ⟨loc.file, loc.line⟩

def WakeSource.of : Instrument.WakeSource → WakeSource
  | .io fd => .io fd
  | .timer id => .timer id
  | .task id => .task id.val
  | .channel kind => .channel kind
  | .external => .external

def PollResult.of : Instrument.PollResult → PollResult
  | .ready => .ready
  | .pending => .pending
  | .panicked => .panicked

def UnparkReason.of : Instrument.UnparkReason → UnparkReason
  | .task => .task
  | .shutdown => .shutdown
  | .steal => .steal
  | .event => .event

def saturated (nanos : ℕ) : UInt64 := UInt64.ofNat (min nanos u64Max)

/-- Nanoseconds since the runtime's origin, which an earlier instant or none at all counts as. -/
def sinceOrigin (origin : Option ℤ) (instant : ℤ) : UInt64 :=
  match origin with
  | some origin => saturated (instant - origin).toNat
  | none => 0

def Event.of (origin : Option ℤ) : RuntimeEvent → Event
  | .taskSpawned id name loc parent =>
    .taskSpawned id.val name (.of loc) (parent.map TaskId.val)
  | .taskPollStart id worker started => .taskPollStart id.val worker (sinceOrigin origin started)
  | .taskPollEnd id worker duration result =>
    .taskPollEnd id.val worker (saturated duration) (.of result)
  | .taskWoken id source => .taskWoken id.val (.of source)
  | .taskDropped id totalPolls totalBusy totalIdle =>
    .taskDropped id.val totalPolls (saturated totalBusy) (saturated totalIdle)
  | .taskAborted id => .taskAborted id.val
  | .workerPark worker timeout => .workerPark worker (timeout.map saturated)
  | .workerUnpark worker reason => .workerUnpark worker (.of reason)
  | .workerSteal thief victim count => .workerSteal thief victim count
  | .queueDepth worker localDepth globalDepth lifo => .queueDepth worker localDepth globalDepth lifo
  | .ioRegistered fd interest task => .ioRegistered fd interest task.val
  | .ioReady fd readiness woke => .ioReady fd readiness (woke.map TaskId.val)
  | .timerSet id deadline task => .timerSet id (sinceOrigin origin deadline) task.val
  | .timerFired id lateness => .timerFired id (saturated lateness)
  | .timerCancelled id => .timerCancelled id
  | .blockingDetected task pollDuration loc =>
    .blockingDetected task.val (saturated pollDuration) (.of loc)
  | .budgetExhausted task => .budgetExhausted task.val
  | .resourceContended kind holder waiters =>
    .resourceContended kind holder.val (waiters.map TaskId.val)

/-- `encoder` appends `bytes` and does not panic. -/
def Emits (encoder : Encoder Unit) (bytes : List UInt8) : Prop :=
  ∀ out, encoder out = some ((), out ++ bytes)

theorem Emits.seq {first second : Encoder Unit} {bytes bytes' : List UInt8} (h : Emits first bytes)
    (h' : Emits second bytes') : Emits (do first; second) (bytes ++ bytes') := by
  intro out
  simp [bind, StateT.bind, h out, h' _]

theorem Emits.extend (bytes : List UInt8) : Emits (.extend bytes) bytes := fun _ => rfl

theorem Emits.assert {condition : Prop} [Decidable condition] (h : condition) :
    Emits (.assert condition) [] := by
  intro out
  simp only [Encoder.assert, if_pos h, List.append_nil]
  rfl

theorem Emits.u8 (value : UInt8) : Emits (.u8 value) [value] := .extend _

theorem Emits.u32 (value : UInt32) : Emits (.u32 value) (Layout.u32 value) := .extend _

theorem Emits.u64 (value : UInt64) : Emits (.u64 value) (Layout.u64 value) := .extend _

/-- What follows a length that fits into a `u32`. -/
theorem Emits.counted {n : ℕ} {encoder : Encoder Unit} {bytes : List UInt8} (h : n < 2 ^ 32)
    (hrest : Emits encoder bytes) :
    Emits (do Encoder.assert (n ≤ u32Max); Encoder.u32 (.ofNat n); encoder)
      (leBytes 4 n ++ bytes) := by
  have hlen : (UInt32.ofNat n).toNat = n := UInt32.toNat_ofNat_of_lt' h
  have hcount : Emits (.u32 (.ofNat n)) (leBytes 4 n) := by
    simpa only [Layout.u32, hlen] using Emits.u32 (.ofNat n)
  exact (Emits.assert (Nat.le_sub_one_of_lt h)).seq (hcount.seq hrest)

theorem Emits.string {s : String} (h : StringFits s) : Emits (.string s) (Layout.string s) :=
  Emits.counted h (.extend _)

theorem Emits.id (value : TaskId) : Emits (.id value) (Layout.u64 value.val) := .u64 _

theorem Emits.duration (nanos : ℕ) : Emits (.duration nanos) (Layout.u64 (saturated nanos)) :=
  .u64 _

theorem Emits.instant (origin : Option ℤ) (value : ℤ) :
    Emits (.instant origin value) (Layout.u64 (sinceOrigin origin value)) := by
  cases origin <;> exact Emits.duration _

theorem Emits.location {loc : Instrument.Location} (h : StringFits loc.file) :
    Emits (.location loc) (Layout.location (.of loc)) :=
  (Emits.string h).seq (.u32 _)

theorem Emits.source {source : Instrument.WakeSource} (h : (WakeSource.of source).Fits) :
    Emits (.source source) (Layout.wakeSource (.of source)) := by
  cases source with
  | io fd => exact (Emits.u8 0).seq (.u32 _)
  | timer id => exact (Emits.u8 1).seq (.u64 _)
  | task id => exact (Emits.u8 2).seq (.id _)
  | channel kind => exact (Emits.u8 3).seq (.string h)
  | external => exact Emits.u8 4

theorem Emits.unparkReason (reason : Instrument.UnparkReason) :
    Emits (.unparkReason reason) [Layout.unparkReason (.of reason)] := by
  cases reason <;> exact Emits.u8 _

theorem Emits.forM_id (ids : List TaskId) :
    Emits (ids.forM Encoder.id) ((ids.map TaskId.val).flatMap Layout.u64) := by
  induction ids with
  | nil =>
    intro out
    simp only [List.map_nil, List.flatMap_nil, List.append_nil]
    rfl
  | cons id ids ih => exact (Emits.id id).seq ih

theorem Emits.ids {ids : List TaskId} (h : ListFits (ids.map TaskId.val)) :
    Emits (.ids ids) (Layout.idList (ids.map TaskId.val)) := by
  unfold ListFits Layout.idList at *
  rw [List.length_map] at *
  exact Emits.counted h (.forM_id ids)

theorem Emits.option {α β : Type} {encoder : α → Encoder Unit} {write : β → List UInt8} (of : α → β)
    {value : Option α} (h : ∀ a ∈ value, Emits (encoder a) (write (of a))) :
    Emits (.option encoder value) (Layout.option write (value.map of)) := by
  cases value with
  | none => exact Emits.u8 0
  | some a => exact (Emits.u8 1).seq (h a rfl)

theorem Emits.pollResult (result : Instrument.PollResult) :
    Emits (.pollResult result) [Layout.pollResult (.of result)] := by
  cases result <;> exact Emits.u8 _

theorem payload_emits (origin : Option ℤ) {event : RuntimeEvent}
    (h : (Event.of origin event).Fits) :
    Emits (.payload origin event) (Event.of origin event).payload := by
  cases event
  all_goals simp only [Event.of, Event.payload, Event.tag, Event.fields, List.append_assoc]
  case taskSpawned id name loc parent =>
    have hname : Emits (.option .string name) (Layout.option Layout.string name) := by
      simpa using Emits.option (fun s => s) fun s hs => Emits.string (h.1 s hs)
    exact (Emits.u8 0).seq ((Emits.id id).seq (hname.seq ((Emits.location h.2).seq
      (.option TaskId.val fun parent _ => .id parent))))
  case taskPollStart id worker started =>
    exact (Emits.u8 1).seq ((Emits.id id).seq ((Emits.u32 worker).seq (.instant origin started)))
  case taskPollEnd id worker duration result =>
    exact (Emits.u8 2).seq ((Emits.id id).seq ((Emits.u32 worker).seq
      ((Emits.duration duration).seq (.pollResult result))))
  case taskWoken id source => exact (Emits.u8 3).seq ((Emits.id id).seq (.source h))
  case taskDropped id totalPolls totalBusy totalIdle =>
    exact (Emits.u8 4).seq ((Emits.id id).seq ((Emits.u64 totalPolls).seq
      ((Emits.duration totalBusy).seq (.duration totalIdle))))
  case taskAborted id => exact (Emits.u8 5).seq (.id id)
  case workerPark worker timeout =>
    exact (Emits.u8 6).seq ((Emits.u32 worker).seq
      (.option saturated fun timeout _ => .duration timeout))
  case workerUnpark worker reason =>
    exact (Emits.u8 7).seq ((Emits.u32 worker).seq (.unparkReason reason))
  case workerSteal thief victim count =>
    exact (Emits.u8 8).seq ((Emits.u32 thief).seq ((Emits.u32 victim).seq (.u64 count)))
  case queueDepth worker localDepth globalDepth lifo =>
    exact (Emits.u8 9).seq ((Emits.u32 worker).seq ((Emits.u64 localDepth).seq
      ((Emits.u64 globalDepth).seq (.u8 _))))
  case ioRegistered fd interest task =>
    exact (Emits.u8 10).seq ((Emits.u32 fd.toUInt32).seq ((Emits.string h).seq (.id task)))
  case ioReady fd readiness woke =>
    exact (Emits.u8 11).seq ((Emits.u32 fd.toUInt32).seq ((Emits.string h.1).seq (.ids h.2)))
  case timerSet id deadline task =>
    exact (Emits.u8 12).seq ((Emits.u64 id).seq ((Emits.instant origin deadline).seq (.id task)))
  case timerFired id lateness => exact (Emits.u8 13).seq ((Emits.u64 id).seq (.duration lateness))
  case timerCancelled id => exact (Emits.u8 14).seq (.u64 id)
  case blockingDetected task pollDuration loc =>
    exact (Emits.u8 15).seq ((Emits.id task).seq ((Emits.duration pollDuration).seq (.location h)))
  case budgetExhausted task => exact (Emits.u8 16).seq (.id task)
  case resourceContended kind holder waiters =>
    exact (Emits.u8 17).seq ((Emits.string h.1).seq ((Emits.id holder).seq (.ids h.2)))

/-- A length prefix and a payload. -/
def frame (payload : List UInt8) : List UInt8 := leBytes 4 payload.length ++ payload

/-- The runtime frames the layout of the console's view. -/
theorem encodeFrame_eq (origin : Option ℤ) (event : RuntimeEvent)
    (h : (Event.of origin event).Fits) (hlen : (Event.of origin event).payload.length < 2 ^ 32) :
    encodeFrame origin event = some (frame (Event.of origin event).payload) := by
  have hu32 : (Event.of origin event).payload.length ≤ u32Max := Nat.le_sub_one_of_lt hlen
  simp only [encodeFrame, payload_emits origin h [], List.nil_append, hu32, if_true, frame]

theorem stringFits_of_le {s : String} {n : ℕ} (hn : n < 2 ^ 32)
    (h : (Layout.string s).length ≤ n) : StringFits s := by
  rw [Layout.string, List.length_append] at h
  exact Nat.lt_of_le_of_lt (by omega) hn

theorem listFits_of_le {ids : List UInt64} {n : ℕ} (hn : n < 2 ^ 32)
    (h : (Layout.idList ids).length ≤ n) : ListFits ids := by
  rw [Layout.idList, List.length_append, Payload.flatMap_u64_length] at h
  exact Nat.lt_of_le_of_lt (by omega) hn

/-- The fields of a payload that a frame can carry fit. -/
theorem fits_of_payload_length {e : Event} (h : e.payload.length < 2 ^ 32) : e.Fits := by
  cases e
  all_goals simp only [Event.payload, Event.fields, List.length_cons, List.length_append] at h
  case taskSpawned id name loc parent =>
    refine ⟨fun s hs => stringFits_of_le h ?_, stringFits_of_le h ?_⟩
    · obtain rfl := hs
      simp only [Layout.option, List.length_cons]
      omega
    · simp only [Layout.location, List.length_append]
      omega
  case taskWoken id source =>
    cases source with
    | channel kind =>
      refine stringFits_of_le h ?_
      simp only [Layout.wakeSource, List.length_cons]
      omega
    | _ => exact trivial
  case ioRegistered => exact stringFits_of_le h (by omega)
  case ioReady => exact ⟨stringFits_of_le h (by omega), listFits_of_le h (by omega)⟩
  case blockingDetected =>
    refine stringFits_of_le h ?_
    simp only [Layout.location, List.length_append]
    omega
  case resourceContended => exact ⟨stringFits_of_le h (by omega), listFits_of_le h (by omega)⟩
  all_goals exact trivial

def Location.toRuntime (loc : Location) : Instrument.Location := ⟨loc.file, loc.line⟩

def WakeSource.toRuntime : WakeSource → Instrument.WakeSource
  | .io fd => .io fd
  | .timer id => .timer id
  | .task id => .task ⟨id⟩
  | .channel kind => .channel kind
  | .external => .external

def PollResult.toRuntime : PollResult → Instrument.PollResult
  | .ready => .ready
  | .pending => .pending
  | .panicked => .panicked

def UnparkReason.toRuntime : UnparkReason → Instrument.UnparkReason
  | .task => .task
  | .shutdown => .shutdown
  | .steal => .steal
  | .event => .event

/-- The event of a runtime with this origin that the console sees so. -/
def Event.toRuntime (origin : ℤ) : Event → RuntimeEvent
  | taskSpawned id name loc parent => .taskSpawned ⟨id⟩ name loc.toRuntime (parent.map TaskId.mk)
  | taskPollStart id worker atNs => .taskPollStart ⟨id⟩ worker (origin + atNs.toNat)
  | taskPollEnd id worker durationNs result =>
    .taskPollEnd ⟨id⟩ worker durationNs.toNat result.toRuntime
  | taskWoken id source => .taskWoken ⟨id⟩ source.toRuntime
  | taskDropped id totalPolls totalBusyNs totalIdleNs =>
    .taskDropped ⟨id⟩ totalPolls totalBusyNs.toNat totalIdleNs.toNat
  | taskAborted id => .taskAborted ⟨id⟩
  | workerPark worker timeoutNs => .workerPark worker (timeoutNs.map UInt64.toNat)
  | workerUnpark worker reason => .workerUnpark worker reason.toRuntime
  | workerSteal thief victim count => .workerSteal thief victim count
  | queueDepth worker localDepth globalDepth lifo => .queueDepth worker localDepth globalDepth lifo
  | ioRegistered fd interest task => .ioRegistered fd interest ⟨task⟩
  | ioReady fd readiness woke => .ioReady fd readiness (woke.map TaskId.mk)
  | timerSet id deadlineNs task => .timerSet id (origin + deadlineNs.toNat) ⟨task⟩
  | timerFired id latenessNs => .timerFired id latenessNs.toNat
  | timerCancelled id => .timerCancelled id
  | blockingDetected task pollDurationNs loc =>
    .blockingDetected ⟨task⟩ pollDurationNs.toNat loc.toRuntime
  | budgetExhausted task => .budgetExhausted ⟨task⟩
  | resourceContended kind holder waiters =>
    .resourceContended kind ⟨holder⟩ (waiters.map TaskId.mk)

@[simp] theorem saturated_toNat (nanos : UInt64) : saturated nanos.toNat = nanos := by
  have hle : nanos.toNat ≤ u64Max := Nat.le_sub_one_of_lt nanos.toNat_lt
  rw [saturated, Nat.min_eq_left hle, UInt64.ofNat_toNat]

@[simp] theorem sinceOrigin_add (origin : ℤ) (nanos : UInt64) :
    sinceOrigin (some origin) (origin + nanos.toNat) = nanos := by
  simp [sinceOrigin]

@[simp] theorem WakeSource.of_toRuntime (source : WakeSource) : .of source.toRuntime = source := by
  cases source <;> rfl

@[simp] theorem PollResult.of_toRuntime (result : PollResult) : .of result.toRuntime = result := by
  cases result <;> rfl

@[simp] theorem UnparkReason.of_toRuntime (reason : UnparkReason) :
    .of reason.toRuntime = reason := by
  cases reason <;> rfl

theorem Event.of_toRuntime (origin : ℤ) (e : Event) :
    Event.of (some origin) (e.toRuntime origin) = e := by
  cases e <;> simp [toRuntime, Event.of, Location.of, Location.toRuntime, Function.comp_def]

theorem decodePayload_payload {e : Event} (h : e.payload.length < 2 ^ 32) :
    decodePayload e.payload = .ok e :=
  decodePayload_eq_ok.mpr ⟨fits_of_payload_length h, rfl⟩

/-- No payload is the beginning of another one. -/
theorem payload_prefix_free {bytes rest : List UInt8} {e e' : Event}
    (h : decodePayload bytes = .ok e) (h' : decodePayload (bytes ++ rest) = .ok e') :
    rest = [] := by
  obtain ⟨hfits, rfl⟩ := decodePayload_eq_ok.mp h
  obtain ⟨hfits', heq⟩ := decodePayload_eq_ok.mp h'
  obtain ⟨htag, hfields⟩ := List.cons.inj heq
  have hprefix : e = e' ∧ rest = [] := (decodeFields_exact e.tag).prefix_free ⟨rfl, hfits⟩
    ⟨htag.symm, hfits'⟩ (hfields.trans (List.append_nil _).symm)
  exact hprefix.2

/-- A payload that is accepted is what the runtime writes for its event, so it is the only payload
of this event, and a part of it or more than it is not accepted. -/
theorem accepted_payload_is_canonical {bytes : List UInt8} {e : Event}
    (hlen : bytes.length ≤ maxFrameSize) (h : decodePayload bytes = .ok e) :
    (∀ origin, encodeFrame (some origin) (e.toRuntime origin) = some (frame bytes)) ∧
      (∀ bytes', decodePayload bytes' = .ok e → bytes' = bytes) ∧
      ∀ bytes' e', bytes' <+: bytes ∨ bytes <+: bytes' → decodePayload bytes' = .ok e' →
        bytes' = bytes := by
  obtain ⟨hfits, rfl⟩ := decodePayload_eq_ok.mp h
  refine ⟨fun origin => ?_, fun bytes' h' => (decodePayload_eq_ok.mp h').2, ?_⟩
  · have hframe := encodeFrame_eq (some origin) (e.toRuntime origin)
    rw [Event.of_toRuntime] at hframe
    exact hframe hfits (Nat.lt_of_le_of_lt hlen (by decide))
  · rintro bytes' e' (⟨rest, hrest⟩ | ⟨rest, rfl⟩) h'
    · rw [← hrest] at h
      rw [← hrest, payload_prefix_free h' h, List.append_nil]
    · rw [payload_prefix_free h h', List.append_nil]

theorem accepted_payload_is_canonical_budget :
    (∀ origin, encodeFrame (some origin) ((Event.budgetExhausted 9).toRuntime origin) =
        some (frame (16 :: leBytes 8 9))) ∧
      (∀ bytes', decodePayload bytes' = .ok (.budgetExhausted 9) → bytes' = 16 :: leBytes 8 9) ∧
      ∀ bytes' e', bytes' <+: 16 :: leBytes 8 9 ∨ 16 :: leBytes 8 9 <+: bytes' →
        decodePayload bytes' = .ok e' → bytes' = 16 :: leBytes 8 9 :=
  accepted_payload_is_canonical (by decide) (by decide)

end Eddy.Console
