import Eddy.EventFrames

/-!
# Streams of frames in chunks

A stream is a number of complete frames and a rest. The decoder finds the same frames and stops at
the same error however the stream is split. Only the events that it has decoded in the very call that
meets the error are lost.
-/

namespace Eddy.Console
open ByteReaders Instrument

def nextSize (bytes : List UInt8) : ℕ := ofLeBytes (bytes.take 4)

def Oversized (bytes : List UInt8) : Prop := 4 ≤ bytes.length ∧ maxFrameSize < nextSize bytes

def Complete (bytes : List UInt8) : Prop :=
  4 ≤ bytes.length ∧ nextSize bytes ≤ maxFrameSize ∧ 4 + nextSize bytes ≤ bytes.length

instance (bytes : List UInt8) : Decidable (Oversized bytes) :=
  inferInstanceAs (Decidable (_ ∧ _))

instance (bytes : List UInt8) : Decidable (Complete bytes) :=
  inferInstanceAs (Decidable (_ ∧ _ ∧ _))

/-- The payloads of the complete frames, and what follows them. -/
def split (bytes : List UInt8) : List (List UInt8) × List UInt8 :=
  if Complete bytes then
    let more := split (bytes.drop (4 + nextSize bytes))
    ((bytes.take (4 + nextSize bytes)).drop 4 :: more.1, more.2)
  else ([], bytes)
termination_by bytes.length
decreasing_by
  rename_i h
  obtain ⟨hlen, -, -⟩ := h
  rw [List.length_drop]
  omega

variable {bytes payload : List UInt8}

theorem split_of_not_complete (h : ¬ Complete bytes) :
    split bytes = ([], bytes) := by
  rw [split, if_neg h]

theorem nextSize_frame (hlen : payload.length ≤ maxFrameSize)
    (rest : List UInt8) : nextSize (frame payload ++ rest) = payload.length := by
  have hlt : payload.length < 256 ^ 4 := Nat.lt_of_le_of_lt hlen (by decide)
  rw [nextSize, frame, List.append_assoc, List.take_left' (leBytes_length ..),
    ofLeBytes_leBytes hlt]

theorem complete_frame (hlen : payload.length ≤ maxFrameSize)
    (rest : List UInt8) : Complete (frame payload ++ rest) := by
  refine ⟨?_, (nextSize_frame hlen rest).trans_le hlen, ?_⟩
  · simp [frame]
  · rw [nextSize_frame hlen]
    simp [frame]

theorem take_frame (payload rest : List UInt8) :
    ((frame payload ++ rest).take (4 + payload.length)).drop 4 = payload := by
  rw [List.take_left' (by simp [frame]), frame, List.drop_left' (leBytes_length ..)]

theorem drop_frame (payload rest : List UInt8) :
    (frame payload ++ rest).drop (4 + payload.length) = rest :=
  List.drop_left' (by simp [frame])

theorem split_frame (hlen : payload.length ≤ maxFrameSize)
    (rest : List UInt8) :
    split (frame payload ++ rest) = (payload :: (split rest).1, (split rest).2) := by
  rw [split, if_pos (complete_frame hlen rest), nextSize_frame hlen, take_frame, drop_frame]

theorem Complete.exists_frame (h : Complete bytes) :
    ∃ payload rest, payload.length ≤ maxFrameSize ∧ bytes = frame payload ++ rest := by
  obtain ⟨hfour, hmax, hlen⟩ := h
  have htake : (bytes.take 4).length = 4 := by rw [List.length_take]; omega
  have hpayload : ((bytes.drop 4).take (nextSize bytes)).length = nextSize bytes := by
    rw [List.length_take, List.length_drop]
    omega
  refine ⟨(bytes.drop 4).take (nextSize bytes), (bytes.drop 4).drop (nextSize bytes),
    hpayload.trans_le hmax, ?_⟩
  have hprefix := leBytes_ofLeBytes (bytes.take 4)
  rw [htake] at hprefix
  rw [frame, hpayload, nextSize, hprefix, List.append_assoc, List.take_append_drop,
    List.take_append_drop]

/-- A stream begins with a frame or has none. -/
theorem frame_induction {motive : List UInt8 → Prop}
    (rest : ∀ bytes, ¬ Complete bytes → motive bytes)
    (step : ∀ payload bytes, payload.length ≤ maxFrameSize → motive bytes →
      motive (frame payload ++ bytes)) (bytes : List UInt8) : motive bytes := by
  induction hn : bytes.length using Nat.strong_induction_on generalizing bytes with
  | _ n ih =>
    by_cases h : Complete bytes
    · obtain ⟨payload, more, hlen, rfl⟩ := h.exists_frame
      refine step payload more hlen (ih more.length ?_ more rfl)
      rw [← hn]
      simp [frame]
      omega
    · exact rest bytes h

theorem split_append (bytes more : List UInt8) :
    split (bytes ++ more) =
      ((split bytes).1 ++ (split ((split bytes).2 ++ more)).1,
        (split ((split bytes).2 ++ more)).2) := by
  induction bytes using frame_induction with
  | rest bytes h => simp [split_of_not_complete h]
  | step payload bytes hlen ih =>
    rw [List.append_assoc, split_frame hlen, split_frame hlen, ih]
    simp

theorem nextSize_append (h : 4 ≤ bytes.length) (more : List UInt8) :
    nextSize (bytes ++ more) = nextSize bytes := by
  rw [nextSize, nextSize, List.take_append_of_le_length h]

theorem Oversized.append (h : Oversized bytes) (more : List UInt8) :
    Oversized (bytes ++ more) := by
  refine ⟨?_, ?_⟩
  · rw [List.length_append]
    exact Nat.le_add_right_of_le h.1
  · rw [nextSize_append h.1]
    exact h.2

theorem Oversized.not_complete (h : Oversized bytes) : ¬ Complete bytes :=
  fun hcomplete => Nat.not_le_of_lt h.2 hcomplete.2.1

/-- The events before the first payload that is not accepted, and its error. -/
def decodeAll : List (List UInt8) → List Event × Option DecodeError
  | [] => ([], none)
  | payload :: payloads =>
    match decodePayload payload with
    | .ok event => (event :: (decodeAll payloads).1, (decodeAll payloads).2)
    | .error error => ([], some error)

def Accepted (payload : List UInt8) : Prop := ∃ event, decodePayload payload = .ok event

instance (payload : List UInt8) : Decidable (Accepted payload) :=
  match h : decodePayload payload with
  | .ok event => isTrue ⟨event, h⟩
  | .error _ => isFalse fun ⟨_, hevent⟩ => nomatch h.symm.trans hevent

/-- Among the complete frames is one that is not accepted, or a frame that is too large follows. -/
def Malformed (bytes : List UInt8) : Prop :=
  (∃ payload ∈ (split bytes).1, ¬ Accepted payload) ∨ Oversized (split bytes).2

instance (bytes : List UInt8) : Decidable (Malformed bytes) :=
  inferInstanceAs (Decidable (_ ∨ _))

def eventsOf (bytes : List UInt8) : List Event := (decodeAll (split bytes).1).1

def oversizedError (rest : List UInt8) : Option DecodeError :=
  if Oversized rest then some (.frameTooLarge (UInt32.ofNat (nextSize rest))) else none

def firstError (bytes : List UInt8) : Option DecodeError :=
  (decodeAll (split bytes).1).2.or (oversizedError (split bytes).2)

theorem decodeAll_append (payloads more : List (List UInt8)) :
    decodeAll (payloads ++ more) =
      match decodeAll payloads with
      | (events, none) => (events ++ (decodeAll more).1, (decodeAll more).2)
      | (events, some error) => (events, some error) := by
  induction payloads with
  | nil => simp [decodeAll]
  | cons payload payloads ih =>
    simp only [List.cons_append, decodeAll]
    cases decodePayload payload with
    | error error => rfl
    | ok event =>
      simp only [ih]
      cases hall : decodeAll payloads with
      | mk events error => cases error <;> rfl

theorem decodeAll_eq_none {payloads : List (List UInt8)} :
    (decodeAll payloads).2 = none ↔ ∀ payload ∈ payloads, Accepted payload := by
  induction payloads with
  | nil => simp [decodeAll]
  | cons payload payloads ih =>
    rw [List.forall_mem_cons, ← ih, decodeAll, Accepted]
    cases decodePayload payload with
    | error error => simp
    | ok event => simp

theorem decodeAll_length {payloads : List (List UInt8)} (h : (decodeAll payloads).2 = none) :
    (decodeAll payloads).1.length = payloads.length := by
  induction payloads with
  | nil => rfl
  | cons payload payloads ih =>
    rw [decodeAll] at h ⊢
    cases hpayload : decodePayload payload with
    | error error => simp [hpayload] at h
    | ok event =>
      rw [hpayload] at h
      simpa using ih h

theorem firstError_eq_none : firstError bytes = none ↔ ¬ Malformed bytes := by
  simp only [firstError, Option.or_eq_none_iff, decodeAll_eq_none, oversizedError, Malformed]
  constructor
  · rintro ⟨hall, hrest⟩ (⟨payload, hmem, hbad⟩ | hover)
    · exact hbad (hall payload hmem)
    · simp [hover] at hrest
  · intro h
    refine ⟨fun payload hmem => ?_, if_neg fun hover => h (.inr hover)⟩
    by_contra hbad
    exact h (.inl ⟨payload, hmem, hbad⟩)

/-- More of a stream that is well formed so far. -/
theorem append_of_firstError_eq_none (h : firstError bytes = none)
    (more : List UInt8) :
    eventsOf (bytes ++ more) = eventsOf bytes ++ eventsOf ((split bytes).2 ++ more) ∧
      firstError (bytes ++ more) = firstError ((split bytes).2 ++ more) := by
  obtain ⟨hall, -⟩ := Option.or_eq_none_iff.mp h
  unfold eventsOf firstError
  rw [split_append, decodeAll_append]
  cases hdecoded : decodeAll (split bytes).1 with
  | mk events error =>
    rw [hdecoded] at hall
    obtain rfl : error = none := hall
    exact ⟨rfl, rfl⟩

/-- An error is not undone by what follows. -/
theorem firstError_append {error : DecodeError}
    (h : firstError bytes = some error) (more : List UInt8) :
    firstError (bytes ++ more) = some error := by
  unfold firstError at h ⊢
  rw [split_append, decodeAll_append]
  cases hdecoded : decodeAll (split bytes).1 with
  | mk events error' =>
    rw [hdecoded] at h
    cases error' with
    | some error' => simpa using h
    | none =>
      have hrest : oversizedError (split bytes).2 = some error := by simpa using h
      unfold oversizedError at hrest
      split at hrest
      · rename_i hover
        have hmore := hover.append more
        simp only [split_of_not_complete hmore.not_complete, decodeAll, oversizedError, hmore,
          if_true, nextSize_append hover.1]
        simpa using hrest
      · cases hrest

namespace FrameDecoder

theorem pushLoop_frame {payload : List UInt8} (hlen : payload.length ≤ maxFrameSize) (n : ℕ)
    (rest : List UInt8) (events : List Event) :
    pushLoop (n + 1) ⟨frame payload ++ rest⟩ events =
      match decodePayload payload with
      | .ok event => pushLoop n ⟨rest⟩ (events ++ [event])
      | .error error => (.error error, ⟨rest⟩) := by
  obtain ⟨hfour, hmax, hsize⟩ := complete_frame hlen rest
  have hlt : payload.length < 2 ^ 32 := Nat.lt_of_le_of_lt hlen (by decide)
  have hnext : (UInt32.ofNat (ofLeBytes ((frame payload ++ rest).take 4))).toNat =
      payload.length := by
    rw [← nextSize, nextSize_frame hlen]
    exact UInt32.toNat_ofNat_of_lt' hlt
  rw [nextSize_frame hlen] at hmax hsize
  have hloop : ∀ decoded, decodePayload payload = decoded →
      pushLoop (n + 1) ⟨frame payload ++ rest⟩ events =
        match decoded with
        | .ok event => pushLoop n ⟨rest⟩ (events ++ [event])
        | .error error => (.error error, ⟨rest⟩) := by
    intro decoded hdecoded
    cases decoded with
    | ok event | error error =>
      simp only [pushLoop, hnext, take_frame, drop_frame, Nat.not_lt.mpr hfour,
        Nat.not_lt.mpr hmax, Nat.not_lt.mpr hsize, if_false, hdecoded]
  exact hloop _ rfl

theorem pushLoop_rest {bytes : List UInt8} (h : ¬ Complete bytes) (n : ℕ) (events : List Event) :
    pushLoop (n + 1) ⟨bytes⟩ events =
      (match oversizedError bytes with
        | none => .ok events
        | some error => .error error, ⟨bytes⟩) := by
  have hlt : nextSize bytes < 2 ^ 32 := by
    have htake := ofLeBytes_lt (bytes.take 4)
    have hpow : (256 : ℕ) ^ (bytes.take 4).length ≤ 256 ^ 4 :=
      Nat.pow_le_pow_right (by decide) (by simp)
    exact Nat.lt_of_lt_of_le htake hpow
  have hnext : (UInt32.ofNat (ofLeBytes (bytes.take 4))).toNat = nextSize bytes :=
    UInt32.toNat_ofNat_of_lt' hlt
  unfold oversizedError
  simp only [pushLoop, hnext]
  by_cases hfour : bytes.length < 4
  · have hover : ¬ Oversized bytes := fun hover => absurd hover.1 (by omega)
    simp [hfour, hover]
  · by_cases hmax : maxFrameSize < nextSize bytes
    · have hover : Oversized bytes := ⟨by omega, hmax⟩
      simp only [hfour, hmax, hover, if_true, if_false]
      rfl
    · have hover : ¬ Oversized bytes := fun hover => hmax hover.2
      have hsize : bytes.length < 4 + nextSize bytes := by
        by_contra hsize
        exact h ⟨by omega, by omega, by omega⟩
      simp [hfour, hmax, hsize, hover]

/-- Enough iterations read all complete frames, up to the first error. -/
theorem pushLoop_eq {n : ℕ} {bytes : List UInt8} (hn : bytes.length < n) (events : List Event) :
    match firstError bytes with
    | none => pushLoop n ⟨bytes⟩ events = (.ok (events ++ eventsOf bytes), ⟨(split bytes).2⟩)
    | some error => (pushLoop n ⟨bytes⟩ events).1 = .error error := by
  induction bytes using frame_induction generalizing n events with
  | rest bytes h =>
    obtain ⟨n, rfl⟩ := Nat.exists_eq_succ_of_ne_zero (Nat.ne_of_gt (Nat.zero_lt_of_lt hn))
    rw [Nat.succ_eq_add_one, pushLoop_rest h]
    simp only [firstError, eventsOf, split_of_not_complete h, decodeAll, Option.none_or]
    cases oversizedError bytes <;> simp
  | step payload bytes hlen ih =>
    obtain ⟨n, rfl⟩ := Nat.exists_eq_succ_of_ne_zero (Nat.ne_of_gt (Nat.zero_lt_of_lt hn))
    have hlt : bytes.length < n := by
      simp [frame] at hn
      omega
    rw [Nat.succ_eq_add_one, pushLoop_frame hlen]
    simp only [firstError, eventsOf, split_frame hlen, decodeAll]
    cases hpayload : decodePayload payload with
    | error error => rfl
    | ok event =>
      simpa [firstError, eventsOf] using ih hlt (events ++ [event])

/-- One call, after `seen` was read without an error. -/
theorem push_eq {seen : List UInt8} (hseen : firstError seen = none) (chunk : List UInt8) :
    match firstError (seen ++ chunk) with
    | none => ∃ events, push ⟨(split seen).2⟩ chunk =
        (.ok events, ⟨(split (seen ++ chunk)).2⟩) ∧ eventsOf (seen ++ chunk) = eventsOf seen ++ events
    | some error => (push ⟨(split seen).2⟩ chunk).1 = .error error := by
  obtain ⟨hevents, herror⟩ := append_of_firstError_eq_none hseen chunk
  have hloop := pushLoop_eq (Nat.lt_succ_self ((split seen).2 ++ chunk).length) []
  rw [herror]
  cases hfirst : firstError ((split seen).2 ++ chunk) with
  | some error =>
    rw [hfirst] at hloop
    exact hloop
  | none =>
    rw [hfirst] at hloop
    refine ⟨_, ?_, hevents⟩
    rw [split_append]
    exact hloop

/-- A caller pushes the chunks of a stream up to the first error, and calls `finish` at its end. -/
def deliver : FrameDecoder → List (List UInt8) → List Event × Option DecodeError
  | decoder, [] =>
    match decoder.finish with
    | .ok () => ([], none)
    | .error error => ([], some error)
  | decoder, chunk :: chunks =>
    match decoder.push chunk with
    | (.ok events, decoder) =>
      let more := decoder.deliver chunks
      (events ++ more.1, more.2)
    | (.error error, _) => ([], some error)

end FrameDecoder

/-- The bytes of the chunks before the one that completes the first malformed frame. -/
def beforeError (seen : List UInt8) : List (List UInt8) → List UInt8
  | [] => seen
  | chunk :: chunks =>
    if Malformed (seen ++ chunk) then seen else beforeError (seen ++ chunk) chunks

/-- What `finish` says at the end of a stream without a malformed frame. -/
def truncation (bytes : List UInt8) : Option DecodeError :=
  if (split bytes).2 = [] then none else some .truncated

theorem deliver_eq {seen : List UInt8} (hseen : firstError seen = none)
    (chunks : List (List UInt8)) :
    eventsOf (beforeError seen chunks) =
        eventsOf seen ++ (FrameDecoder.deliver ⟨(split seen).2⟩ chunks).1 ∧
      (FrameDecoder.deliver ⟨(split seen).2⟩ chunks).2 =
        (firstError (seen ++ chunks.flatten)).or (truncation (seen ++ chunks.flatten)) := by
  induction chunks generalizing seen with
  | nil =>
    simp only [beforeError, FrameDecoder.deliver, FrameDecoder.finish, List.flatten_nil,
      List.append_nil, hseen, Option.none_or, truncation]
    cases (split seen).2 <;> simp
  | cons chunk chunks ih =>
    have hpush := FrameDecoder.push_eq hseen chunk
    rw [FrameDecoder.deliver, beforeError, List.flatten_cons, ← List.append_assoc]
    cases hfirst : firstError (seen ++ chunk) with
    | some error =>
      rw [hfirst] at hpush
      have hbad : Malformed (seen ++ chunk) := by
        by_contra hgood
        rw [firstError_eq_none.mpr hgood] at hfirst
        cases hfirst
      rw [firstError_append hfirst, if_pos hbad]
      cases hresult : FrameDecoder.push ⟨(split seen).2⟩ chunk with
      | mk result decoder =>
        rw [hresult] at hpush
        obtain rfl : result = .error error := hpush
        simp
    | none =>
      rw [hfirst] at hpush
      obtain ⟨events, hresult, hevents⟩ := hpush
      obtain ⟨hbefore, herror⟩ := ih hfirst
      rw [if_neg (firstError_eq_none.mp hfirst), hresult]
      refine ⟨?_, herror⟩
      rw [hbefore, hevents, List.append_assoc]

theorem split_nil : split [] = ([], []) := split_of_not_complete (by decide)

theorem firstError_nil : firstError [] = none := by
  rw [firstError, split_nil]
  decide

theorem deliver_new (chunks : List (List UInt8)) :
    eventsOf (beforeError [] chunks) = (FrameDecoder.new.deliver chunks).1 ∧
      (FrameDecoder.new.deliver chunks).2 =
        (firstError chunks.flatten).or (truncation chunks.flatten) := by
  have hdeliver := deliver_eq firstError_nil chunks
  rw [split_nil] at hdeliver
  simpa [eventsOf, split_nil, decodeAll, FrameDecoder.new] using hdeliver

theorem beforeError_spec {seen : List UInt8} (hseen : firstError seen = none)
    (chunks : List (List UInt8)) :
    firstError (beforeError seen chunks) = none ∧
      beforeError seen chunks <+: seen ++ chunks.flatten := by
  induction chunks generalizing seen with
  | nil => simpa [beforeError] using hseen
  | cons chunk chunks ih =>
    rw [beforeError, List.flatten_cons, ← List.append_assoc]
    split
    · rw [List.append_assoc]
      exact ⟨hseen, List.prefix_append ..⟩
    · rename_i hgood
      exact ih (firstError_eq_none.mpr hgood)

theorem frames_of_shorter {bytes whole : List UInt8} (h : bytes <+: whole) :
    (split bytes).1 <+: (split whole).1 := by
  obtain ⟨more, rfl⟩ := h
  rw [split_append]
  exact List.prefix_append ..

/-- Two ways of splitting a stream bring the same events and the same error if and only if equally
many frames are complete before the chunk that completes the first malformed frame. -/
theorem deliver_eq_iff {chunks chunks' : List (List UInt8)}
    (h : chunks.flatten = chunks'.flatten) :
    FrameDecoder.new.deliver chunks = FrameDecoder.new.deliver chunks' ↔
      (split (beforeError [] chunks)).1.length = (split (beforeError [] chunks')).1.length := by
  obtain ⟨hevents, herror⟩ := deliver_new chunks
  obtain ⟨hevents', herror'⟩ := deliver_new chunks'
  obtain ⟨hgood, hprefix⟩ := beforeError_spec firstError_nil chunks
  obtain ⟨hgood', hprefix'⟩ := beforeError_spec firstError_nil chunks'
  have hlength := decodeAll_length (Option.or_eq_none_iff.mp hgood).1
  have hlength' := decodeAll_length (Option.or_eq_none_iff.mp hgood').1
  rw [Prod.ext_iff, herror, herror', h]
  simp only [and_true]
  constructor
  · intro heq
    rw [← hlength, ← hlength', ← eventsOf, ← eventsOf, hevents, hevents', heq]
  · intro heq
    rw [← h] at hprefix'
    have hframes := List.prefix_of_prefix_length_le (frames_of_shorter hprefix)
      (frames_of_shorter hprefix')
      heq.le
    rw [← hevents, ← hevents', eventsOf, eventsOf, hframes.eq_of_length heq]

def badStream : List UInt8 := frame (16 :: leBytes 8 9) ++ frame [99]

theorem deliver_eq_iff_bytewise :
    FrameDecoder.new.deliver [badStream] = FrameDecoder.new.deliver (badStream.map fun b => [b]) ↔
      (split (beforeError [] [badStream])).1.length =
        (split (beforeError [] (badStream.map fun b => [b]))).1.length :=
  deliver_eq_iff (by decide)

/-- In one chunk the event is lost with the frame that follows it. -/
theorem event_lost_beside_bad_frame :
    ¬ ∀ chunks chunks' : List (List UInt8), chunks.flatten = chunks'.flatten →
      FrameDecoder.new.deliver chunks = FrameDecoder.new.deliver chunks' := by
  intro h
  have heq := h [badStream] [frame (16 :: leBytes 8 9), frame [99]] (by decide)
  exact absurd heq (by decide)

theorem split_frames {payloads : List (List UInt8)}
    (hlen : ∀ payload ∈ payloads, payload.length ≤ maxFrameSize) :
    split (payloads.map frame).flatten = (payloads, []) := by
  induction payloads with
  | nil => exact split_nil
  | cons payload payloads ih =>
    obtain ⟨hpayload, hpayloads⟩ := List.forall_mem_cons.mp hlen
    rw [List.map_cons, List.flatten_cons, split_frame hpayload, ih hpayloads]

theorem decodeAll_payloads {events : List Event}
    (hlen : ∀ e ∈ events, e.payload.length < 2 ^ 32) :
    decodeAll (events.map Event.payload) = (events, none) := by
  induction events with
  | nil => rfl
  | cons e events ih =>
    obtain ⟨he, hevents⟩ := List.forall_mem_cons.mp hlen
    rw [List.map_cons, decodeAll, decodePayload_payload he, ih hevents]

/-- All chunks of a stream without a malformed frame are read. -/
theorem beforeError_of_firstError_eq_none {seen : List UInt8} {chunks : List (List UInt8)}
    (h : firstError (seen ++ chunks.flatten) = none) :
    beforeError seen chunks = seen ++ chunks.flatten := by
  induction chunks generalizing seen with
  | nil => simp [beforeError]
  | cons chunk chunks ih =>
    rw [List.flatten_cons, ← List.append_assoc] at h ⊢
    have hfirst : firstError (seen ++ chunk) = none := by
      cases hfirst : firstError (seen ++ chunk) with
      | none => rfl
      | some error =>
        rw [firstError_append hfirst] at h
        cases h
    rw [beforeError, if_neg (firstError_eq_none.mp hfirst), ih h]

theorem deliver_frames {events : List Event} (hlen : ∀ e ∈ events, e.payload.length ≤ maxFrameSize)
    {chunks : List (List UInt8)}
    (hchunks : chunks.flatten = (events.map fun e => frame e.payload).flatten) :
    FrameDecoder.new.deliver chunks = (events, none) := by
  have hlt : ∀ e ∈ events, e.payload.length < 2 ^ 32 :=
    fun e he => Nat.lt_of_le_of_lt (hlen e he) (by decide)
  have hsplit : split chunks.flatten = (events.map Event.payload, []) := by
    rw [hchunks, ← split_frames (by simpa using hlen), List.map_map]
    rfl
  have hfirst : firstError chunks.flatten = none := by
    rw [firstError, hsplit, decodeAll_payloads hlt]
    rfl
  obtain ⟨hevents, herror⟩ := deliver_new chunks
  rw [beforeError_of_firstError_eq_none (by simpa using hfirst), List.nil_append, eventsOf, hsplit,
    decodeAll_payloads hlt] at hevents
  rw [hfirst, truncation, hsplit] at herror
  exact Prod.ext hevents.symm herror

theorem mapM_eq_map {α β : Type} {f : α → Option β} {g : α → β} {as : List α}
    (h : ∀ a ∈ as, f a = some (g a)) : as.mapM f = some (as.map g) := by
  induction as with
  | nil => rfl
  | cons a as ih =>
    obtain ⟨ha, has⟩ := List.forall_mem_cons.mp h
    rw [List.mapM_cons, ha, ih has]
    rfl

/-- The console decodes what the runtime has encoded, in whatever chunks it arrives. -/
theorem frames_round_trip (origin : Option ℤ) (events : List RuntimeEvent)
    (hlen : ∀ event ∈ events, (Event.of origin event).payload.length ≤ maxFrameSize) :
    (∀ event ∈ events, ∃ payload, encodeFrame origin event = some (frame payload) ∧
        decodePayload payload = .ok (.of origin event)) ∧
      ∃ frames, events.mapM (encodeFrame origin) = some frames ∧
        ∀ chunks : List (List UInt8), chunks.flatten = frames.flatten →
          FrameDecoder.new.deliver chunks = (events.map (Event.of origin), none) := by
  have hlt : ∀ event ∈ events, (Event.of origin event).payload.length < 2 ^ 32 :=
    fun event h => Nat.lt_of_le_of_lt (hlen event h) (by decide)
  have hencode : ∀ event ∈ events, encodeFrame origin event =
      some (frame (Event.of origin event).payload) :=
    fun event h => encodeFrame_eq origin event (fits_of_payload_length (hlt event h)) (hlt event h)
  refine ⟨fun event h => ⟨_, hencode event h, decodePayload_payload (hlt event h)⟩,
    events.map fun event => frame (Event.of origin event).payload, mapM_eq_map hencode,
    fun chunks hchunks => ?_⟩
  refine deliver_frames (by simpa using hlen) ?_
  rw [hchunks, List.map_map]
  rfl

theorem frames_round_trip_steal :
    let events := [RuntimeEvent.workerSteal 1 0 3, .workerPark 0 (some 5), .taskAborted ⟨7⟩]
    (∀ event ∈ events, ∃ payload, encodeFrame none event = some (frame payload) ∧
        decodePayload payload = .ok (.of none event)) ∧
      ∃ frames, events.mapM (encodeFrame none) = some frames ∧
        FrameDecoder.new.deliver [frames.flatten.take 9, frames.flatten.drop 9] =
          ([.workerSteal 1 0 3, .workerPark 0 (some 5), .taskAborted 7], none) := by
  intro events
  obtain ⟨hframe, frames, hframes, hdeliver⟩ := frames_round_trip none events (by decide)
  refine ⟨hframe, frames, hframes, hdeliver _ ?_⟩
  simp

end Eddy.Console
