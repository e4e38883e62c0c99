import Eddy.DelayQueueLogs

/-!
# No expiry is lost

What a call of `poll_expired` knows while it walks over the map, and what holds from the time it
returns `Pending`: a timer of the queue that has fired is still to wake the `FireSink`, or it has
woken the waker of the call.
-/

namespace Eddy.DelayQueueRaces
open Interleaving TimerWheel
open DelayQueue (Queue Entry Expired FireSink)
open DelayQueue.System (sinkWaker)

variable {T : Type}

theorem notify_woken (sink : FireSink) :
    ∃ new, sink.notify.woken = sink.woken ++ new ∧ (sink.notify.notified = true ∨ new ≠ []) := by
  unfold FireSink.notify
  split
  case h_1 waker _ => exact ⟨[waker], rfl, .inr nofun⟩
  case h_2 => exact ⟨[], (List.append_nil _).symm, .inl rfl⟩

namespace State

variable {s t : State T} {call : Call}

/-- The sink has the waker of the call, or has woken it since the call began. -/
def Stored (s : State T) (call : Call) : Prop :=
  s.queue.sink.waker = some call.cx ∨ call.cx ∈ s.queue.sink.woken.drop call.woken

theorem Stored.notify (h : s.Stored call) (hwoken : call.woken ≤ s.queue.sink.woken.length)
    (ht : t.queue.sink = s.queue.sink.notify) :
    call.cx ∈ t.queue.sink.woken.drop call.woken := by
  rw [ht]
  obtain hwaker | hmem := h
  · rw [FireSink.notify, hwaker, List.drop_append_of_le_length hwoken]
    exact List.mem_append_right _ (List.mem_singleton_self _)
  · obtain ⟨new, hnew, -⟩ := notify_woken s.queue.sink
    rw [hnew, List.drop_append_of_le_length hwoken]
    exact List.mem_append_left _ hmem

theorem mem_recent {x : ℕ} {new : List Firing} (hle : call.firings ≤ s.timers.shared.firings.length)
    (hnew : t.timers.shared.firings = s.timers.shared.firings ++ new) :
    x ∈ t.recent call ↔ x ∈ s.recent call ∨ x ∈ new.map Firing.id := by
  rw [recent, hnew, List.drop_append_of_le_length hle, List.map_append, List.mem_append]
  rfl

theorem mem_firings_of_recent {x : ℕ} (h : x ∈ s.recent call) :
    x ∈ s.timers.shared.firings.map Firing.id := by
  obtain ⟨f, hf, rfl⟩ := List.mem_map.mp h
  exact List.mem_map_of_mem (List.mem_of_mem_drop hf)

/-- A timer that has fired by now fired before the step, or is about to wake. -/
theorem recent_of_follows {x : ℕ} (hle : call.firings ≤ s.timers.shared.firings.length)
    {timers : Timers} (hfollows : Timers.Follows x s.timers timers)
    (hx : x ∈ recent { s with timers } call) :
    x ∈ s.recent call ∨ (s.timers.Fireable x ∧ timers.Firing x) := by
  obtain ⟨-, new, hnew, hne⟩ | ⟨hfireable, hfiring, -⟩ := hfollows.fired
  · refine .inl (((mem_recent hle hnew).mp hx).resolve_right fun hmem => ?_)
    obtain ⟨f, hf, rfl⟩ := List.mem_map.mp hmem
    exact hne f hf rfl
  · exact .inr ⟨hfireable, hfiring⟩

/-- The call of `poll_expired`, and the keys whose flags it does not know to have been unset. -/
def walk : Place T → Option (Call × List ℕ)
  | .scans call rest found => some (call, rest ++ found)
  | .registers call | .swaps call => some (call, [])
  | _ => none

structure Walks (s : State T) (call : Call) (unread : List ℕ) : Prop where
  latest : s.latest = none
  woken_le : call.woken ≤ call.pass
  pass_le : call.pass ≤ s.queue.sink.woken.length
  firings_le : call.firings ≤ s.timers.shared.firings.length
  waiting : ∀ x ∈ s.own, x ∈ s.recent call → x ∈ s.waiting.map Prod.fst
  seen : ∀ key entry, s.queue.entries.lookup key = some entry → key ∉ unread →
    s.isFired entry = true → s.timers.Wakes entry.timer ∨ s.queue.sink.notified = true ∨
      call.pass < s.queue.sink.woken.length

namespace Walks

variable {unread : List ℕ}

/-- A step of the call itself. -/
theorem goes (h : Walks s call unread) {unread' : List ℕ} (htimers : t.timers = s.timers)
    (hown : t.own = s.own) (hentries : t.queue.entries = s.queue.entries)
    (hlatest : t.latest = s.latest) (hnotified : t.queue.sink.notified = s.queue.sink.notified)
    (hwoken : t.queue.sink.woken = s.queue.sink.woken)
    (hunread : ∀ key entry, s.queue.entries.lookup key = some entry → s.isFired entry = true →
      key ∉ unread' → key ∉ unread) : Walks t call unread' where
  latest := hlatest.trans h.latest
  woken_le := h.woken_le
  pass_le := hwoken ▸ h.pass_le
  firings_le := htimers ▸ h.firings_le
  waiting := by
    rw [hown, recent, htimers, State.waiting, hentries]
    exact h.waiting
  seen key entry hlookup hkey hfired := by
    rw [hentries] at hlookup
    rw [isFired, htimers] at hfired
    rw [htimers, hnotified, hwoken]
    exact h.seen key entry hlookup (hunread key entry hlookup hfired hkey) hfired

theorem begins (hlatest : s.latest = none) (hwoken : call.woken ≤ call.pass)
    (hpass : call.pass ≤ s.queue.sink.woken.length)
    (hfirings : call.firings ≤ s.timers.shared.firings.length)
    (hwaiting : ∀ x ∈ s.own, x ∈ s.recent call → x ∈ s.waiting.map Prod.fst)
    {iter : List ℕ} (hiter : iter.Perm s.queue.entries.keys) : Walks s call iter where
  latest := hlatest
  woken_le := hwoken
  pass_le := hpass
  firings_le := hfirings
  waiting := hwaiting
  seen key entry hlookup hkey _ := by
    refine absurd (hiter.mem_iff.mpr ?_) hkey
    rw [← AList.mem_keys, ← AList.lookup_isSome, hlookup]
    rfl

/-- The timers go on. -/
theorem follows (h : Walks s call unread) (hk : Kept s)
    (hplace : ∀ key entry due, s.place ≠ .inserts key entry due) {timers : Timers}
    (hfollows : ∀ x ∈ s.own, Timers.Follows x s.timers timers)
    (hwakes : ∀ x ∈ s.own, s.timers.Wakes x → timers.Wakes x)
    (hfirings : ∃ new, timers.shared.firings = s.timers.shared.firings ++ new) :
    Walks { s with timers } call unread where
  latest := h.latest
  woken_le := h.woken_le
  pass_le := h.pass_le
  firings_le := by
    obtain ⟨new, hnew⟩ := hfirings
    refine h.firings_le.trans ?_
    rw [hnew, List.length_append]
    exact Nat.le_add_right _ _
  waiting x hx hmem := by
    obtain hmem | ⟨hfireable, -⟩ := recent_of_follows h.firings_le (hfollows x hx) hmem
    · exact h.waiting x hx hmem
    · exact (tracks_iff hplace).mp (hk.owns.armed x hx (.inr hfireable)).1
  seen key entry hlookup hkey hfired := by
    have hmem := (hk.logs.mem_own hlookup).2
    obtain ⟨hsame, -⟩ | ⟨-, hfiring, -⟩ := (hfollows _ hmem).fired
    · have hseen := h.seen key entry hlookup hkey (hsame.symm.trans hfired)
      exact hseen.imp_left (hwakes _ hmem)
    · exact .inl (.inl hfiring)

/-- A timer wakes the sink. -/
theorem notify (h : Walks s call unread) (htimers : t.timers.shared = s.timers.shared)
    (hown : t.own = s.own)
    (hentries : t.queue.entries = s.queue.entries) (hlatest : t.latest = s.latest)
    (hsink : t.queue.sink = s.queue.sink.notify) : Walks t call unread := by
  obtain ⟨new, hnew, hheard⟩ := notify_woken s.queue.sink
  refine ⟨hlatest.trans h.latest, h.woken_le, ?_, htimers ▸ h.firings_le, ?_, ?_⟩
  · rw [hsink, hnew, List.length_append]
    exact h.pass_le.trans (Nat.le_add_right _ _)
  · rw [hown, recent, htimers, State.waiting, hentries]
    exact h.waiting
  · intro key entry _ _ _
    rw [hsink]
    refine .inr (hheard.imp_right fun hne => ?_)
    rw [hnew, List.length_append]
    exact h.pass_le.trans_lt (Nat.lt_add_of_pos_right (List.length_pos_of_ne_nil hne))

end Walks

/-- The timer has fired, and the queue has to hear of it. -/
def Due (s : State T) (call : Call) (x : ℕ) : Prop :=
  x ∈ s.own ∧ (x ∈ s.recent call ∨ (s.Tracks x ∧ (s.timers.entry x).fired = true))

structure Parked (s : State T) (call : Call) : Prop where
  woken_le : call.woken ≤ s.queue.sink.woken.length
  firings_le : call.firings ≤ s.timers.shared.firings.length
  stored : s.Stored call
  served : ∀ x, s.Due call x → s.timers.Wakes x ∨ s.Notifies x ∨
    call.cx ∈ s.queue.sink.woken.drop call.woken

namespace Parked

/-- A step that leaves the sink alone: what is to be heard was so before, or its insert is under
way. -/
theorem goes (h : Parked s call) (hsink : t.queue.sink = s.queue.sink)
    (hfirings : ∃ new, t.timers.shared.firings = s.timers.shared.firings ++ new)
    (hserved : ∀ x, t.Due call x → t.timers.Wakes x ∨ t.Notifies x ∨
      (s.Due call x ∧ (s.timers.Wakes x → t.timers.Wakes x) ∧ (s.Notifies x → t.Notifies x))) :
    Parked t call where
  woken_le := hsink ▸ h.woken_le
  firings_le := by
    obtain ⟨new, hnew⟩ := hfirings
    refine h.firings_le.trans ?_
    rw [hnew, List.length_append]
    exact Nat.le_add_right _ _
  stored := by
    rw [Stored, hsink]
    exact h.stored
  served x hx := by
    rw [hsink]
    obtain hwakes | hnotifies | ⟨hdue, hwakes, hnotifies⟩ := hserved x hx
    · exact .inl hwakes
    · exact .inr (.inl hnotifies)
    · exact (h.served x hdue).imp hwakes (Or.imp_left hnotifies)

/-- A step that leaves the timers alone. -/
theorem keeps (h : Parked s call) (htimers : t.timers = s.timers)
    (hsink : t.queue.sink = s.queue.sink) (hown : ∀ x ∈ t.own, t.Tracks x → x ∈ s.own)
    (hrecent : ∀ x ∈ t.own, x ∈ s.recent call → x ∈ s.own)
    (htracks : ∀ x ∈ t.own, t.Tracks x → s.Tracks x)
    (hnotifies : ∀ x, s.Notifies x → t.Notifies x) : Parked t call := by
  refine h.goes hsink ⟨[], ?_⟩ fun x hx => .inr (.inr ⟨?_, ?_, hnotifies x⟩)
  · rw [htimers, List.append_nil]
  · obtain ⟨hmem, hrec | ⟨htrack, hfired⟩⟩ := hx
    · rw [recent, htimers] at hrec
      exact ⟨hrecent x hmem hrec, .inl hrec⟩
    · rw [htimers] at hfired
      exact ⟨hown x hmem htrack, .inr ⟨htracks x hmem htrack, hfired⟩⟩
  · rw [htimers]
    exact id

theorem notify (h : Parked s call) (htimers : t.timers.shared = s.timers.shared)
    (hsink : t.queue.sink = s.queue.sink.notify) : Parked t call := by
  have hheard := h.stored.notify h.woken_le hsink
  refine ⟨?_, htimers ▸ h.firings_le, .inr hheard, fun x _ => .inr (.inr hheard)⟩
  obtain ⟨new, hnew, -⟩ := notify_woken s.queue.sink
  rw [hsink, hnew, List.length_append]
  exact h.woken_le.trans (Nat.le_add_right _ _)

/-- The timers go on. -/
theorem follows (h : Parked s call) {timers : Timers}
    (hfollows : ∀ x ∈ s.own, Timers.Follows x s.timers timers)
    (hwakes : ∀ x ∈ s.own, s.timers.Wakes x → timers.Wakes x)
    (hfirings : ∃ new, timers.shared.firings = s.timers.shared.firings ++ new) :
    Parked { s with timers } call := by
  refine h.goes rfl hfirings fun x hx => ?_
  obtain ⟨hmem, hrec | ⟨htrack, hfired⟩⟩ := hx
  · obtain hrec | ⟨-, hfiring⟩ := recent_of_follows h.firings_le (hfollows x hmem) hrec
    · exact .inr (.inr ⟨⟨hmem, .inl hrec⟩, hwakes x hmem, id⟩)
    · exact .inl (.inl hfiring)
  · obtain ⟨hsame, -⟩ | ⟨-, hfiring, -⟩ := (hfollows x hmem).fired
    · exact .inr (.inr ⟨⟨hmem, .inr ⟨htrack, hsame.symm.trans hfired⟩⟩, hwakes x hmem, id⟩)
    · exact .inl (.inl hfiring)

end Parked

structure Heard (s : State T) : Prop where
  walks : ∀ call unread, walk s.place = some (call, unread) → Walks s call unread
  stored : ∀ call, s.place = .swaps call → s.Stored call
  parked : ∀ call, s.latest = some call → Parked s call

namespace Heard

theorem new : Heard (.new : State T) where
  walks := nofun
  stored := nofun
  parked := nofun

/-- No call looks for fired timers after the step. -/
theorem rests (hwalk : walk t.place = none) (hparked : ∀ call ∈ t.latest, Parked t call) :
    Heard t where
  walks call unread hunread := by
    rw [hwalk] at hunread
    cases hunread
  stored call hplace := by
    rw [hplace] at hwalk
    cases hwalk
  parked := hparked

/-- A call looks for fired timers after the step. -/
theorem searches {unread : List ℕ} (hwalk : walk t.place = some (call, unread))
    (hwalks : Walks t call unread) (hstored : ∀ call', t.place = .swaps call' → t.Stored call') :
    Heard t where
  walks call' unread' hunread := by
    cases hwalk.symm.trans hunread
    exact hwalks
  stored := hstored
  parked call' hlatest := by
    rw [hwalks.latest] at hlatest
    cases hlatest

theorem not_inserts {unread : List ℕ} (hwalk : walk s.place = some (call, unread)) :
    ∀ key entry due, s.place ≠ .inserts key entry due := by
  intro key entry due hplace
  rw [hplace] at hwalk
  cases hwalk

variable {timers : Timers} {key : ℕ} {entry : Entry T}

theorem follows (h : Heard s) (hk : Kept s)
    (hfollows : ∀ x ∈ s.own, Timers.Follows x s.timers timers)
    (hwakes : ∀ x ∈ s.own, s.timers.Wakes x → timers.Wakes x)
    (hfirings : ∃ new, timers.shared.firings = s.timers.shared.firings ++ new) :
    Heard { s with timers } where
  walks call unread hwalk :=
    (h.walks call unread hwalk).follows hk (not_inserts hwalk) hfollows hwakes hfirings
  stored := h.stored
  parked call hlatest := (h.parked call hlatest).follows hfollows hwakes hfirings

theorem driver (h : Heard s) (hk : Kept s) {l : Timers.Label}
    (hpermits : s.permits l = true) (htimers : s.timers.step l = some timers) :
    Heard { s with timers } := by
  apply h.follows hk (hk.owns.driver_follows hpermits htimers) (fun x hx => ?_)
    (hk.owns.timers.step_firings htimers)
  apply hk.owns.timers.wakes htimers
  intro hfiring
  rw [hk.owns.firing x hx hfiring]
  rfl

theorem wake (h : Heard s) (hk : Kept s) {i timer waker : ℕ}
    (htimers : s.timers.wake i = some ((timer, waker), timers)) :
    Heard ({ s with timers }.setSink
      (if waker = sinkWaker then s.queue.sink.notify else s.queue.sink)) := by
  obtain ⟨hshared, -, -, hheld⟩ := Timers.wake_eq_some htimers
  split
  case isTrue =>
    refine ⟨fun call unread hwalk => ?_, fun call hplace => .inr ?_, fun call hlatest => ?_⟩
    · exact (h.walks call unread hwalk).notify hshared rfl rfl rfl rfl
    · have hwalks := h.walks call [] (congrArg walk hplace)
      exact (h.stored call hplace).notify (hwalks.woken_le.trans hwalks.pass_le) rfl
    · exact (h.parked call hlatest).notify hshared rfl
  case isFalse hwaker =>
    refine h.follows hk (fun _ _ => .wake htimers) (fun x hx hwakes => ?_)
      ⟨[], by rw [hshared, List.append_nil]⟩
    refine (hwakes.wake htimers).resolve_left ?_
    rintro rfl
    exact hwaker (hk.owns.held timer hx waker (hheld.mem_iff.mpr List.mem_cons_self))

theorem insert (h : Heard s) (hk : Kept s) (hplace : s.place = .idle) (when : ℤ) (value : T) :
    Heard { s with
      queue := { s.queue with nextKey := (s.queue.nextKey + 1) % 2 ^ 64, driver := true }
      nextTimer := s.nextTimer + 1
      own := s.own ++ [s.nextTimer]
      place := .arms s.queue.nextKey ⟨when, s.nextTimer, value⟩
        (decide (when ≤ s.timers.shared.nowInstant)) } := by
  refine .rests rfl fun call hlatest => ?_
  refine (h.parked call hlatest).keeps rfl rfl (fun x _ htrack => ?_) (fun x hx hrec => ?_)
    (fun x _ htrack => ?_) fun x hnotifies => ?_
  · obtain ⟨key, entry, hlookup, rfl⟩ :=
      mem_waiting_timers.mp (htrack.resolve_right id)
    exact (hk.logs.mem_own hlookup).2
  · obtain hx | hx := List.mem_append.mp hx
    · exact hx
    · have hlt := hk.owns.known_lt x (.inr (.inr (.inr (mem_firings_of_recent hrec))))
      exact absurd (List.mem_singleton.mp hx) hlt.ne
  · exact .inl (htrack.resolve_right id)
  · simp [Notifies, hplace] at hnotifies

theorem arm (h : Heard s) (hk : Kept s) {alreadyDue due : Bool}
    (hplace : s.place = .arms key entry alreadyDue)
    (htimers : s.timers.arm alreadyDue entry.timer entry.when sinkWaker = some (due, timers)) :
    Heard { s with timers, place := .inserts key entry due } := by
  have hfits := hk.fits
  rw [hplace] at hfits
  obtain ⟨-, -, -, hunknown⟩ := hfits
  obtain ⟨-, hdue, rfl⟩ := Timers.arm_eq_some htimers
  have harmed := hk.owns.timers.shared.armLocked alreadyDue entry.timer entry.when sinkWaker
  obtain ⟨new, hfirings, hnew⟩ :=
    Timers.armLocked_firings s.timers.shared alreadyDue entry.timer entry.when sinkWaker
  refine .rests rfl fun call hlatest => ?_
  have hparked := h.parked call hlatest
  refine hparked.goes rfl ⟨new, hfirings⟩ fun x hx => ?_
  rw [← hdue] at hnew
  obtain ⟨hmem, hrest⟩ := hx
  rw [mem_recent hparked.firings_le hfirings] at hrest
  by_cases hx : entry.timer = x
  · subst hx
    cases due with
    | true => exact .inr (.inl rfl)
    | false =>
      obtain (hrec | hrec) | ⟨-, hfired⟩ := hrest
      · exact absurd (.inr (.inr (.inr (mem_firings_of_recent hrec)))) hunknown
      · obtain ⟨f, hf, -⟩ := List.mem_map.mp hrec
        cases (hnew f hf).2
      · cases hdue.trans (harmed.fired.symm.trans hfired)
  · refine .inr (.inr ⟨⟨hmem, ?_⟩, id, fun hnotifies => ?_⟩)
    · obtain (hrec | hrec) | ⟨htrack, hfired⟩ := hrest
      · exact .inl hrec
      · obtain ⟨f, hf, rfl⟩ := List.mem_map.mp hrec
        exact absurd (hnew f hf).1.symm hx
      · refine .inr ⟨htrack.imp_right fun henters => ?_, ?_⟩
        · cases due with
          | true => exact absurd henters id
          | false => exact absurd henters hx
        · rwa [Timers.entry, harmed.alters.entries x (Ne.symm hx)] at hfired
    · simp [Notifies, hplace] at hnotifies

theorem enqueueDue (h : Heard s)
    (hplace : s.place = .inserts key entry true) : Heard { s with
      queue := { s.queue with expired := s.queue.expired ++ [⟨key, entry.when, entry.value⟩] }
      place := .notifies entry.timer
      inserted := s.inserted ++ [logged key entry]
      expiry := s.expiry ++ [logged key entry] } := by
  refine .rests rfl fun call hlatest => ?_
  refine (h.parked call hlatest).keeps rfl rfl (fun x hx _ => hx) (fun x hx _ => hx)
    (fun x _ htrack => .inl (htrack.resolve_right id)) fun x hnotifies => ?_
  rw [Notifies, hplace] at hnotifies
  exact hnotifies

theorem enqueue (h : Heard s)
    (hplace : s.place = .inserts key entry false)
    (hfresh : (s.queue.entries.lookup key).isNone = true) : Heard { s with
      queue := { s.queue with entries := s.queue.entries.insert key entry }
      place := .idle
      inserted := s.inserted ++ [logged key entry] } := by
  refine .rests rfl fun call hlatest => ?_
  refine (h.parked call hlatest).keeps rfl rfl (fun x hx _ => hx) (fun x hx _ => hx)
    (fun x _ htrack => ?_) fun x hnotifies => ?_
  · have hmem := htrack.resolve_right id
    rw [waiting_insert (s := s) hfresh rfl, List.map_cons, List.mem_cons] at hmem
    obtain rfl | hmem := hmem
    · right
      rw [Enters, hplace]
      rfl
    · exact .inl hmem
  · simp [Notifies, hplace] at hnotifies

theorem finishRemove (h : Heard s) (hk : Kept s)
    (hplace : s.place = .removes key entry)
    (htimers : (if s.queue.driver then s.timers.cancel entry.timer else some s.timers) =
      some timers) : Heard { s with
        timers
        queue := { s.queue with entries := s.queue.entries.erase key }
        place := .idle
        removed := s.removed ++ [logged key entry] } := by
  have hfits := hk.fits
  rw [hplace] at hfits
  rw [if_pos (hk.logs.driver key entry hfits)] at htimers
  obtain ⟨-, rfl⟩ := Timers.cancel_eq_some htimers
  refine .rests rfl fun call hlatest => ?_
  refine (h.parked call hlatest).goes rfl ⟨[], (List.append_nil _).symm⟩ fun x hx =>
    .inr (.inr ⟨?_, id, fun hnotifies => ?_⟩)
  · refine ⟨hx.1, hx.2.imp_right fun ⟨htrack, hfired⟩ => ⟨.inl ?_, ?_⟩⟩
    · obtain ⟨key', entry', hlookup, rfl⟩ := mem_waiting_timers.mp (htrack.resolve_right id)
      refine mem_waiting_timers.mpr ⟨key', entry', ?_, rfl⟩
      by_cases hkey : key' = key
      · rw [hkey, AList.lookup_erase] at hlookup
        cases hlookup
      · exact (AList.lookup_erase_ne hkey).symm.trans hlookup
    · exact (s.timers.shared.cancel_fired entry.timer x).symm.trans hfired
  · simp [Notifies, hplace] at hnotifies

/-- The flag of an entry was read. -/
theorem read (h : Heard s) {rest found : List ℕ}
    (hplace : s.place = .scans call (key :: rest) found) : Heard (s.read call key rest found) := by
  have hwalks := h.walks call (key :: rest ++ found) (congrArg walk hplace)
  refine .searches rfl (hwalks.goes rfl rfl rfl rfl rfl rfl ?_) nofun
  intro key' entry hlookup hfired hunread
  by_cases hkey : key' = key
  · subst hkey
    rw [hlookup, Option.any_some, hfired, if_pos rfl] at hunread
    simp at hunread
  · split at hunread <;> simp_all

/-- The call has found nothing, and returns `Pending`. -/
theorem pend (h : Heard s) (hk : Kept s) (hplace : s.place = .swaps call)
    (hnotified : s.queue.sink.notified = false)
    (hguard : s.hasFired = true → ∀ waker ∈ s.queue.sink.woken.drop call.pass, waker = call.cx) :
    Heard { s with place := .idle, latest := some call } := by
  have hwalks := h.walks call [] (congrArg walk hplace)
  have hstored := h.stored call hplace
  refine .rests rfl fun call' hcall => ?_
  cases hcall
  refine ⟨hwalks.woken_le.trans hwalks.pass_le, hwalks.firings_le, hstored, fun x hx => ?_⟩
  obtain ⟨hmem, hrest⟩ := hx
  have hwaiting : x ∈ s.waiting.map Prod.fst ∧ (s.timers.entry x).fired = true := by
    obtain hrec | ⟨htrack, hfired⟩ := hrest
    · exact ⟨hwalks.waiting x hmem hrec, hk.owns.fired x hmem (mem_firings_of_recent hrec)⟩
    · exact ⟨htrack.resolve_right id, hfired⟩
  obtain ⟨hwaiting, hfired⟩ := hwaiting
  obtain ⟨key, entry, hlookup, rfl⟩ := mem_waiting_timers.mp hwaiting
  have hhas : s.hasFired = true :=
    List.any_eq_true.mpr ⟨⟨key, entry⟩, AList.mem_lookup_iff.mp hlookup, hfired⟩
  obtain hwakes | hset | hlt := hwalks.seen key entry hlookup List.not_mem_nil hfired
  · exact .inl hwakes
  · rw [hnotified] at hset
    cases hset
  · obtain ⟨waker, hwaker⟩ := List.exists_mem_of_ne_nil (s.queue.sink.woken.drop call.pass)
      (by simpa using hlt)
    refine .inr (.inr ?_)
    rw [← hguard hhas waker hwaker]
    exact List.drop_subset_drop_left _ hwalks.woken_le hwaker

theorem step {l : Label T} (h : Heard s) (hk : Kept s) (hguard : s.Heeds l)
    (hstep : s.step l = some t) : Heard t := by
  cases step_takes hstep with
  | @insert when value hplace => exact h.insert hk hplace when value
  | refuse => exact h
  | remove hplace hlookup =>
    refine .rests rfl fun call hlatest => ?_
    refine (h.parked call hlatest).keeps rfl rfl (fun _ hx _ => hx) (fun _ hx _ => hx)
      (fun _ _ htrack => .inl (htrack.resolve_right id)) fun x hnotifies => ?_
    simp [Notifies, hplace] at hnotifies
  | poll hplace hiter =>
    refine .searches rfl (.begins rfl le_rfl le_rfl le_rfl (fun x _ hrec => ?_) ?_) nofun
    · simp [recent] at hrec
    · rwa [List.append_nil]
  | close hplace =>
    refine .rests (congrArg walk hplace) fun call hlatest => ?_
    exact (h.parked call hlatest).keeps rfl rfl (fun _ hx _ => hx) (fun _ hx _ => hx)
      (fun _ _ htrack => htrack) fun _ hnotifies => hnotifies
  | newTimer =>
    refine ⟨fun call unread hwalk => ?_, h.stored, fun call hlatest => ?_⟩
    · exact (h.walks call unread hwalk).goes rfl rfl rfl rfl rfl rfl fun _ _ _ _ hkey => hkey
    · exact (h.parked call hlatest).keeps rfl rfl (fun _ hx _ => hx) (fun _ hx _ => hx)
        (fun _ _ htrack => htrack) fun _ hnotifies => hnotifies
  | driver hpermits htimers => exact h.driver hk hpermits htimers
  | wake htimers => exact h.wake hk htimers
  | arm hplace htimers => exact h.arm hk hplace htimers
  | enqueueDue hplace => exact h.enqueueDue hplace
  | enqueue hplace =>
    refine h.enqueue hplace ?_
    have hheeds : s.HeedsAt s.place := hguard
    rwa [hplace] at hheeds
  | notify hplace =>
    exact .rests rfl fun call hlatest => (h.parked call hlatest).notify rfl rfl
  | finishRemove hplace htimers => exact h.finishRemove hk hplace htimers
  | read hplace => exact h.read hplace
  | @deliver iter call found item expired hplace hexpired | @finish iter call found hplace =>
    have hwalks := h.walks call ([] ++ found) (congrArg walk hplace)
    refine .rests rfl fun call' hlatest => ?_
    cases hwalks.latest.symm.trans ((s.collect_beside found).latest.symm.trans hlatest)
  | @empty iter call found hplace hexpired =>
    have hwalks := h.walks call ([] ++ found) (congrArg walk hplace)
    have hfits := hk.fits
    rw [hplace] at hfits
    obtain rfl : found = [] := by
      refine found_eq_nil (fun key hkey => ?_) hexpired
      obtain ⟨entry, hlookup, -⟩ := hfits key hkey
      rw [hlookup]
      rfl
    exact .searches rfl (hwalks.goes rfl rfl rfl rfl rfl rfl fun _ _ _ _ hkey => hkey) nofun
  | @register iter call hplace =>
    have hwalks := h.walks call [] (congrArg walk hplace)
    refine .searches rfl (hwalks.goes rfl rfl rfl rfl rfl rfl fun _ _ _ _ hkey => hkey) ?_
    rintro call' ⟨⟩
    exact .inl rfl
  | @rescan iter call hplace hnotified hiter =>
    have hwalks := h.walks call [] (congrArg walk hplace)
    refine .searches rfl ?_ nofun
    apply Walks.begins
    · exact hwalks.latest
    · exact hwalks.woken_le.trans hwalks.pass_le
    · exact le_rfl
    · exact hwalks.firings_le
    · exact hwalks.waiting
    · rwa [List.append_nil]
  | @pend iter call hplace hnotified =>
    refine h.pend hk hplace hnotified ?_
    have hheeds : s.HeedsAt s.place := hguard
    rw [hplace] at hheeds
    exact hheeds hnotified

end Heard

theorem kept_heard {s : State T} (h : Reachable step Heeds .new s) : Kept s ∧ Heard s := by
  apply h.invariant (I := fun s => Kept s ∧ Heard s) ⟨.new, .new⟩
  intro s l t hs hguard hstep
  exact ⟨hs.1.step hguard hstep, hs.2.step hs.1 hguard hstep⟩

/-- Every item is returned once, and no expiry is lost. -/
theorem returns_once_and_wakes {s : State T} (h : Reachable step Heeds .new s) :
    s.ExactlyOnce ∧ s.NoLostExpiry := by
  obtain ⟨hkept, hheard⟩ := kept_heard h
  refine ⟨hkept.logs.exactlyOnce, fun call hcall x hexpires hwakes hnotifies => ?_⟩
  obtain ⟨hmem, hrest⟩ := hexpires
  have hdue : s.Due call x := ⟨hmem, hrest.imp_right fun ⟨hwaiting, hfired⟩ =>
    ⟨.inl hwaiting, hfired⟩⟩
  have hserved := (hheard.parked call hcall).served x hdue
  exact (hserved.resolve_left hwakes).resolve_left hnotifies

/-- Two polls with different wakers, the second with its waker in the sink before the timer
fires. -/
def twoPolls : List (Label ℕ) :=
  [.insert 5000000 7, .go [], .go [], .poll [0] 1, .go [], .go [], .go [], .go [], .poll [0] 2,
    .go [], .go [], .go [], .go [], .driver (.clock 5000000), .driver .read, .driver (.lock 0),
    .driver .fire, .driver .fire, .driver .fire, .wake 0]

theorem returns_once_and_wakes_second_poll : ∃ s : State ℕ,
    Reachable step Heeds .new s ∧ s.queue.sink.woken = [2] ∧ s.ExactlyOnce ∧ s.NoLostExpiry := by
  have hrun : (run (guarded step Heeds) .new twoPolls).any
      (fun s => decide (s.queue.sink.woken = [2])) = true := by decide +kernel
  obtain ⟨s, hs, hwoken⟩ := exists_reachable_of_run hrun
  exact ⟨s, hs, of_decide_eq_true hwoken, returns_once_and_wakes hs⟩

/-- The timer fires after the second poll has read its flag, and before that poll stores its
waker. -/
def staleWaker : List (Label ℕ) :=
  [.insert 5000000 7, .go [], .go [], .poll [0] 1, .go [], .go [], .go [], .go [], .poll [0] 2,
    .go [], .driver (.clock 5000000), .driver .read, .driver (.lock 0), .driver .fire,
    .driver .fire, .driver .fire, .wake 0, .go [], .go [], .go []]

/-- The first poll's waker is woken, and the second poll's never. -/
theorem stale_waker_woken : ¬ ∀ s : State ℕ, Reachable step anyStep .new s →
    s.ExactlyOnce ∧ s.NoLostExpiry := by
  intro hall
  have hrun : (run (guarded step anyStep) .new staleWaker).any (fun s =>
      decide (s.latest = some ⟨2, 0, 0, 0⟩ ∧ s.queue.sink.woken = [1] ∧ s.own = [0] ∧
        s.timers.held = [] ∧ s.timers.holder = none ∧ s.isIdle = true ∧
        0 ∈ s.recent ⟨2, 0, 0, 0⟩)) = true := by decide +kernel
  obtain ⟨s, hs, hcheck⟩ := exists_reachable_of_run hrun
  obtain ⟨hlatest, hwoken, hown, hheld, hholder, hidle, hrecent⟩ := of_decide_eq_true hcheck
  have hlost := (hall s hs).2 ⟨2, 0, 0, 0⟩ hlatest 0 ⟨hown ▸ List.mem_singleton_self 0, .inl hrecent⟩
  rw [hwoken] at hlost
  refine absurd (hlost ?_ ?_) (by decide)
  · rintro (⟨f, hf, -⟩ | hmem)
    · cases hholder.symm.trans hf
    · rw [hheld] at hmem
      cases hmem
  · simp [Notifies, isIdle_eq hidle]

end State

end Eddy.DelayQueueRaces
