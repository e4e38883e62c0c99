import Eddy.DelayQueueSteps

/-!
# Every item is returned once

Each item that was inserted is in the map, or was removed, or has gone into the FIFO of the expired
items after its timer had fired.
-/

namespace Eddy.DelayQueueRaces
open Interleaving TimerWheel
open DelayQueue (Queue Entry Expired FireSink)
open DelayQueue.System (sinkWaker)

variable {T : Type}

namespace State

variable {s t : State T}

theorem mem_waiting {item : ℕ × Expired T} :
    item ∈ s.waiting ↔
      ∃ key entry, s.queue.entries.lookup key = some entry ∧ logged key entry = item := by
  simp only [waiting, List.mem_map]
  constructor
  · rintro ⟨⟨key, entry⟩, hmem, rfl⟩
    exact ⟨key, entry, AList.mem_lookup_iff.mpr hmem, rfl⟩
  · rintro ⟨key, entry, hlookup, rfl⟩
    exact ⟨⟨key, entry⟩, AList.mem_lookup_iff.mp hlookup, rfl⟩

theorem mem_waiting_timers {x : ℕ} :
    x ∈ s.waiting.map Prod.fst ↔
      ∃ key entry, s.queue.entries.lookup key = some entry ∧ entry.timer = x := by
  rw [List.mem_map]
  constructor
  · rintro ⟨item, hitem, rfl⟩
    obtain ⟨key, entry, hlookup, rfl⟩ := mem_waiting.mp hitem
    exact ⟨key, entry, hlookup, rfl⟩
  · rintro ⟨key, entry, hlookup, rfl⟩
    exact ⟨logged key entry, mem_waiting.mpr ⟨key, entry, hlookup, rfl⟩, rfl⟩

theorem perm_erase {key : ℕ} {entry : Entry T} (h : s.queue.entries.lookup key = some entry)
    (ht : t.queue.entries = s.queue.entries.erase key) :
    s.waiting.Perm (logged key entry :: t.waiting) := by
  have hkey : key ∈ s.queue.entries.entries.keys := by
    rw [← List.dlookup_isSome]
    exact Option.isSome_iff_exists.mpr ⟨entry, h⟩
  obtain ⟨entry', front, back, -, hentries, herase⟩ := List.exists_of_kerase hkey
  have hmem : (⟨key, entry'⟩ : Sigma fun _ : ℕ => Entry T) ∈ s.queue.entries.entries := by
    rw [hentries]
    exact List.mem_append_right _ List.mem_cons_self
  obtain rfl : entry = entry' :=
    Option.some.inj (h.symm.trans (AList.mem_lookup_iff.mpr hmem))
  have hback : t.queue.entries.entries = front ++ back := by
    rw [ht]
    exact herase
  rw [waiting, waiting, hback, hentries, List.map_append, List.map_append, List.map_cons]
  exact List.perm_middle

theorem waiting_insert {key : ℕ} {entry : Entry T}
    (h : (s.queue.entries.lookup key).isNone = true)
    (ht : t.queue.entries = s.queue.entries.insert key entry) :
    t.waiting = logged key entry :: s.waiting := by
  have hnone : key ∉ s.queue.entries :=
    AList.lookup_eq_none.mp (Option.isNone_iff_eq_none.mp h)
  rw [waiting, ht, AList.entries_insert_of_notMem hnone]
  rfl

/-- The fields that moving expired items keeps. -/
structure Beside (s t : State T) : Prop where
  timers : t.timers = s.timers
  nextTimer : t.nextTimer = s.nextTimer
  place : t.place = s.place
  latest : t.latest = s.latest
  own : t.own = s.own
  inserted : t.inserted = s.inserted
  removed : t.removed = s.removed
  delivered : t.delivered = s.delivered
  sink : t.queue.sink = s.queue.sink
  driver : t.queue.driver = s.queue.driver

theorem moveExpired_beside (s : State T) (key : ℕ) : Beside s (s.moveExpired key) := by
  constructor
  case sink | driver =>
    simp only [moveExpired, Queue.moveExpired]
    split <;> rfl
  all_goals rfl

theorem collect_beside (s : State T) (found : List ℕ) : Beside s (s.collect found) := by
  induction found generalizing s with
  | nil => exact ⟨rfl, rfl, rfl, rfl, rfl, rfl, rfl, rfl, rfl, rfl⟩
  | cons key found ih =>
    have hmove := s.moveExpired_beside key
    have hrest := ih (s.moveExpired key)
    constructor
    · exact hrest.timers.trans hmove.timers
    · exact hrest.nextTimer.trans hmove.nextTimer
    · exact hrest.place.trans hmove.place
    · exact hrest.latest.trans hmove.latest
    · exact hrest.own.trans hmove.own
    · exact hrest.inserted.trans hmove.inserted
    · exact hrest.removed.trans hmove.removed
    · exact hrest.delivered.trans hmove.delivered
    · exact hrest.sink.trans hmove.sink
    · exact hrest.driver.trans hmove.driver

theorem collect_queue (s : State T) (found : List ℕ) :
    (s.collect found).queue = found.foldl Queue.moveExpired s.queue := by
  induction found generalizing s with
  | nil => rfl
  | cons key found ih => exact ih (s.moveExpired key)

theorem collect_lookup (s : State T) (found : List ℕ) (key : ℕ) :
    (s.collect found).queue.entries.lookup key =
      if key ∈ found then none else s.queue.entries.lookup key := by
  rw [collect_queue, Queue.foldl_moveExpired_lookup]

theorem moveExpired_ne_nil (q : Queue T) (found : List ℕ) (h : q.expired ≠ []) :
    (found.foldl Queue.moveExpired q).expired ≠ [] := by
  induction found generalizing q with
  | nil => exact h
  | cons key found ih =>
    apply ih
    rw [Queue.moveExpired_expired]
    exact List.append_ne_nil_of_left_ne_nil h _

theorem found_eq_nil {found : List ℕ}
    (hfound : ∀ key ∈ found, (s.queue.entries.lookup key).isSome = true)
    (hexpired : (s.collect found).queue.expired = []) : found = [] := by
  cases found with
  | nil => rfl
  | cons key found =>
    obtain ⟨entry, hlookup⟩ := Option.isSome_iff_exists.mp (hfound key List.mem_cons_self)
    refine absurd hexpired ?_
    rw [collect_queue]
    refine moveExpired_ne_nil (s.queue.moveExpired key) found ?_
    rw [Queue.moveExpired_expired, Queue.item, hlookup]
    exact List.append_ne_nil_of_right_ne_nil _ (List.cons_ne_nil _ _)

structure Logs (s : State T) : Prop where
  nodup : (s.inserted.map Prod.fst).Nodup
  perm : s.inserted.Perm (s.expiry ++ s.removed ++ s.waiting)
  flow : s.expiry.map Prod.snd = s.delivered ++ s.queue.expired
  expired : ∀ item ∈ s.expiry, (s.timers.entry item.1).fired = true
  own : ∀ item ∈ s.inserted, item.1 ∈ s.own
  driver : ∀ key entry, s.queue.entries.lookup key = some entry → s.queue.driver = true

/-- What the call under way relies on. -/
def Fits (s : State T) : Place T → Prop
  | .arms _ entry _ => entry.timer ∈ s.own ∧ entry.timer ∉ s.inserted.map Prod.fst ∧
    s.queue.driver = true ∧ ¬ s.timers.Known entry.timer
  | .inserts _ entry due => entry.timer ∈ s.own ∧ entry.timer ∉ s.inserted.map Prod.fst ∧
    s.queue.driver = true ∧ (due = true → (s.timers.entry entry.timer).fired = true)
  | .removes key entry => s.queue.entries.lookup key = some entry
  | .scans _ _ found => ∀ key ∈ found, ∃ entry, s.queue.entries.lookup key = some entry ∧
    (s.timers.entry entry.timer).fired = true
  | _ => True

theorem perm_front {α : Type} (as bs cs : List α) (x : α) :
    (as ++ [x] ++ bs ++ cs).Perm (x :: (as ++ bs ++ cs)) := by simp

/-- An item goes from the last list to the end of the first. -/
theorem perm_to_first {α : Type} {as bs cs cs' : List α} {x : α} (h : cs.Perm (x :: cs')) :
    (as ++ bs ++ cs).Perm (as ++ [x] ++ bs ++ cs') :=
  ((h.append_left _).trans List.perm_middle).trans (perm_front as bs cs' x).symm

theorem perm_to_second {α : Type} {as bs cs cs' : List α} {x : α} (h : cs.Perm (x :: cs')) :
    (as ++ bs ++ cs).Perm (as ++ (bs ++ [x]) ++ cs') := by
  simpa using h.append_left (as ++ bs)

namespace Logs

theorem new : Logs (.new : State T) where
  nodup := List.nodup_nil
  perm := .refl _
  flow := rfl
  expired := nofun
  own := nofun
  driver key entry hlookup := by cases hlookup

theorem mem_own (h : Logs s) {key : ℕ} {entry : Entry T}
    (hlookup : s.queue.entries.lookup key = some entry) :
    logged key entry ∈ s.inserted ∧ entry.timer ∈ s.own := by
  have hmem : logged key entry ∈ s.inserted := by
    rw [h.perm.mem_iff]
    exact List.mem_append_right _ (mem_waiting.mpr ⟨key, entry, hlookup, rfl⟩)
  exact ⟨hmem, h.own _ hmem⟩

/-- A step that moves no item and takes back no flag. -/
theorem congr (h : Logs s) (hinserted : t.inserted = s.inserted) (hexpiry : t.expiry = s.expiry)
    (hremoved : t.removed = s.removed) (hentries : t.queue.entries = s.queue.entries)
    (hflow : t.delivered ++ t.queue.expired = s.delivered ++ s.queue.expired)
    (hown : ∀ x ∈ s.own, x ∈ t.own)
    (hfired : ∀ x ∈ s.own, (s.timers.entry x).fired = true → (t.timers.entry x).fired = true)
    (hdriver : s.queue.driver = true → t.queue.driver = true) : Logs t where
  nodup := hinserted ▸ h.nodup
  perm := by
    rw [hinserted, hexpiry, hremoved, waiting, hentries]
    exact h.perm
  flow := by rw [hexpiry, h.flow, hflow]
  expired item hitem := by
    rw [hexpiry] at hitem
    refine hfired _ (h.own item ?_) (h.expired item hitem)
    rw [h.perm.mem_iff, List.append_assoc]
    exact List.mem_append_left _ hitem
  own item hitem := hown _ (h.own item (hinserted ▸ hitem))
  driver key entry hlookup := hdriver (h.driver key entry (hentries ▸ hlookup))

theorem moveExpired (h : Logs s) {key : ℕ}
    (hfired : ∀ entry, s.queue.entries.lookup key = some entry →
      (s.timers.entry entry.timer).fired = true) : Logs (s.moveExpired key) := by
  cases hlookup : s.queue.entries.lookup key with
  | none =>
    have hsame : s.moveExpired key = s := by
      simp [State.moveExpired, Queue.moveExpired, hlookup]
    rw [hsame]
    exact h
  | some entry =>
    have hexpiry : (s.moveExpired key).expiry = s.expiry ++ [logged key entry] := by
      simp [State.moveExpired, hlookup]
    have hqueue : (s.moveExpired key).queue = { s.queue with
        entries := s.queue.entries.erase key
        expired := s.queue.expired ++ [⟨key, entry.when, entry.value⟩] } := by
      simp [State.moveExpired, Queue.moveExpired, hlookup]
    refine ⟨h.nodup, ?_, ?_, ?_, h.own, ?_⟩
    · rw [hexpiry]
      refine h.perm.trans (perm_to_first (perm_erase hlookup ?_))
      rw [hqueue]
    · rw [hexpiry, hqueue, List.map_append, h.flow, List.append_assoc]
      rfl
    · intro item hitem
      rw [hexpiry, List.mem_append, List.mem_singleton] at hitem
      obtain hitem | rfl := hitem
      · exact h.expired item hitem
      · exact hfired entry hlookup
    · intro key' entry' hlookup'
      rw [hqueue]
      exact h.driver key entry hlookup

theorem collect (h : Logs s) {found : List ℕ}
    (hfired : ∀ key ∈ found, ∀ entry, s.queue.entries.lookup key = some entry →
      (s.timers.entry entry.timer).fired = true) : Logs (s.collect found) := by
  induction found generalizing s with
  | nil => exact h
  | cons key found ih =>
    refine ih (h.moveExpired (hfired key List.mem_cons_self)) ?_
    intro key' hkey' entry hlookup
    by_cases heq : key' = key
    · subst heq
      rw [State.moveExpired, Queue.moveExpired_lookup_self] at hlookup
      cases hlookup
    · rw [State.moveExpired, Queue.moveExpired_lookup_of_ne _ heq] at hlookup
      exact hfired key' (List.mem_cons_of_mem _ hkey') entry hlookup

theorem exactlyOnce (h : Logs s) : s.ExactlyOnce := ⟨h.nodup, h.perm, h.flow, h.expired⟩

end Logs

structure Kept (s : State T) : Prop where
  owns : Owns s
  logs : Logs s
  fits : s.Fits s.place

theorem tracks_iff (hplace : ∀ key entry due, s.place ≠ .inserts key entry due) {x : ℕ} :
    s.Tracks x ↔ x ∈ s.waiting.map Prod.fst := by
  have hnot : ¬ s.Enters x := by
    unfold Enters
    split
    case h_1 hp => exact absurd hp (hplace _ _ _)
    case h_2 => exact id
  exact or_iff_left hnot

theorem Fits.follows {place : Place T} (h : s.Fits place) (hk : Logs s) {timers : Timers}
    (hown : ∀ x ∈ s.own, Timers.Follows x s.timers timers) :
    Fits { s with timers } place := by
  have hfired : ∀ x ∈ s.own, (s.timers.entry x).fired = true → (timers.entry x).fired = true := by
    intro x hx hfired
    obtain ⟨hsame, -⟩ | ⟨-, -, hset, -⟩ := (hown x hx).fired
    · exact hsame.trans hfired
    · exact hset
  cases place with
  | arms key entry alreadyDue =>
    obtain ⟨hmem, hnew, hdriver, hunknown⟩ := h
    exact ⟨hmem, hnew, hdriver, fun hknown => hunknown ((hown _ hmem).known hknown)⟩
  | inserts key entry due =>
    obtain ⟨hmem, hnew, hdriver, hdue⟩ := h
    exact ⟨hmem, hnew, hdriver, fun hd => hfired _ hmem (hdue hd)⟩
  | removes key entry => exact h
  | scans call rest found =>
    intro key hkey
    obtain ⟨entry, hlookup, hset⟩ := h key hkey
    exact ⟨entry, hlookup, hfired _ (hk.mem_own hlookup).2 hset⟩
  | _ => trivial

namespace Kept

variable {entry : Entry T} {key : ℕ} {timers : Timers}

theorem follows (h : Kept s) (hown : Owns { s with timers })
    (hfollows : ∀ x ∈ s.own, Timers.Follows x s.timers timers) : Kept { s with timers } := by
  refine ⟨hown, ?_, h.fits.follows h.logs hfollows⟩
  refine h.logs.congr rfl rfl rfl rfl rfl (fun x hx => hx) (fun x hx hfired => ?_) id
  obtain ⟨hsame, -⟩ | ⟨-, -, hset, -⟩ := (hfollows x hx).fired
  · exact hsame.trans hfired
  · exact hset

/-- A step of the call that is not about timers and moves nothing. -/
theorem goes (h : Kept s) (htimers : t.timers = s.timers) (hnext : t.nextTimer = s.nextTimer)
    (hown : t.own = s.own) (hinserted : t.inserted = s.inserted) (hexpiry : t.expiry = s.expiry)
    (hremoved : t.removed = s.removed) (hdelivered : t.delivered = s.delivered)
    (hqueue : t.queue.entries = s.queue.entries ∧ t.queue.expired = s.queue.expired ∧
      t.queue.driver = s.queue.driver)
    (henters : ∀ x, s.Enters x → t.Enters x) (hfits : t.Fits t.place) : Kept t where
  owns := by
    refine h.owns.congr htimers hown hnext.ge fun x _ _ htrack => ?_
    refine htrack.imp (fun hmem => ?_) (henters x)
    rwa [waiting, hqueue.1]
  logs := by
    refine h.logs.congr hinserted hexpiry hremoved hqueue.1 ?_ (fun x hx => hown ▸ hx) ?_ ?_
    · rw [hdelivered, hqueue.2.1]
    · exact fun x _ hfired => htimers ▸ hfired
    · exact fun hdriver => hqueue.2.2.trans hdriver
  fits := hfits

theorem insert (h : Kept s) (hplace : s.place = .idle) (when : ℤ) (value : T) : Kept { s with
    queue := { s.queue with nextKey := (s.queue.nextKey + 1) % 2 ^ 64, driver := true }
    nextTimer := s.nextTimer + 1
    own := s.own ++ [s.nextTimer]
    place := .arms s.queue.nextKey ⟨when, s.nextTimer, value⟩
      (decide (when ≤ s.timers.shared.nowInstant)) } where
  owns := by
    refine h.owns.insert rfl rfl rfl fun x htrack => ?_
    rw [tracks_iff (by simp [hplace])] at htrack
    exact .inl htrack
  logs := by
    refine h.logs.congr rfl rfl rfl rfl rfl ?_ (fun _ _ hfired => hfired) fun _ => rfl
    exact fun x hx => List.mem_append_left _ hx
  fits := by
    refine ⟨List.mem_append_right _ (List.mem_singleton_self _), fun hmem => ?_, rfl,
      fun hknown => lt_irrefl _ (h.owns.known_lt _ hknown)⟩
    obtain ⟨item, hitem, heq⟩ := List.mem_map.mp hmem
    have hlt := h.owns.own_lt _ (h.logs.own item hitem)
    rw [heq] at hlt
    exact lt_irrefl _ hlt

theorem arm (h : Kept s) {alreadyDue due : Bool}
    (hplace : s.place = .arms key entry alreadyDue)
    (htimers : s.timers.arm alreadyDue entry.timer entry.when sinkWaker = some (due, timers)) :
    Kept { s with timers, place := .inserts key entry due } := by
  have hfits := h.fits
  rw [hplace] at hfits
  obtain ⟨hmem, hnew, hdriver, hunknown⟩ := hfits
  have hwaiting : ∀ x, s.Tracks x → x ∈ s.waiting.map Prod.fst := fun x =>
    (tracks_iff (by simp [hplace])).mp
  obtain ⟨-, hdue, htimers'⟩ := Timers.arm_eq_some htimers
  have harmed := h.owns.timers.shared.armLocked alreadyDue entry.timer entry.when sinkWaker
  have hfired : ∀ x, x ≠ entry.timer → (timers.entry x).fired = (s.timers.entry x).fired := by
    intro x hx
    rw [htimers', Timers.entry, harmed.alters.entries x hx]
    rfl
  refine ⟨?_, ?_, hmem, hnew, hdriver, ?_⟩
  · refine h.owns.arm htimers hmem hunknown rfl rfl rfl (fun x hx => .inl (hwaiting x hx)) ?_
    intro hd
    right
    subst hd
    exact rfl
  · have hexpired : ∀ item ∈ s.expiry, item.1 ≠ entry.timer := by
      intro item hitem heq
      apply hnew
      rw [← heq]
      refine List.mem_map_of_mem (h.logs.perm.mem_iff.mpr ?_)
      rw [List.append_assoc]
      exact List.mem_append_left _ hitem
    refine ⟨h.logs.nodup, h.logs.perm, h.logs.flow, fun item hitem => ?_, h.logs.own,
      h.logs.driver⟩
    rw [hfired _ (hexpired item hitem)]
    exact h.logs.expired item hitem
  · intro hd
    rw [htimers', Timers.entry, harmed.fired, ← hdue, hd]

theorem enqueueDue (h : Kept s)
    (hplace : s.place = .inserts key entry true) : Kept { s with
      queue := { s.queue with expired := s.queue.expired ++ [⟨key, entry.when, entry.value⟩] }
      place := .notifies entry.timer
      inserted := s.inserted ++ [logged key entry]
      expiry := s.expiry ++ [logged key entry] } := by
  have hfits := h.fits
  rw [hplace] at hfits
  obtain ⟨hmem, hnew, -, hdue⟩ := hfits
  refine ⟨?_, ⟨?_, ?_, ?_, ?_, ?_, h.logs.driver⟩, trivial⟩
  · refine h.owns.congr rfl rfl le_rfl fun x _ _ htrack => ?_
    refine htrack.imp_right fun henters => ?_
    simp [Enters, hplace] at henters
  · rw [List.map_append, List.nodup_append_comm]
    exact List.nodup_cons.mpr ⟨hnew, h.logs.nodup⟩
  · refine (List.perm_append_singleton _ _).trans ((h.logs.perm.cons _).trans ?_)
    exact (perm_front s.expiry s.removed s.waiting (logged key entry)).symm
  · rw [List.map_append, h.logs.flow, List.append_assoc]
    rfl
  · intro item hitem
    obtain hitem | hitem := List.mem_append.mp hitem
    · exact h.logs.expired item hitem
    · rw [List.mem_singleton.mp hitem]
      exact hdue rfl
  · intro item hitem
    obtain hitem | hitem := List.mem_append.mp hitem
    · exact h.logs.own item hitem
    · rw [List.mem_singleton.mp hitem]
      exact hmem

theorem enqueue (h : Kept s)
    (hplace : s.place = .inserts key entry false)
    (hfresh : (s.queue.entries.lookup key).isNone = true) : Kept { s with
      queue := { s.queue with entries := s.queue.entries.insert key entry }
      place := .idle
      inserted := s.inserted ++ [logged key entry] } := by
  have hfits := h.fits
  rw [hplace] at hfits
  obtain ⟨hmem, hnew, hdriver, -⟩ := hfits
  have hwaiting := waiting_insert (t := { s with
    queue := { s.queue with entries := s.queue.entries.insert key entry }
    place := .idle
    inserted := s.inserted ++ [logged key entry] }) hfresh rfl
  refine ⟨?_, ⟨?_, ?_, h.logs.flow, h.logs.expired, ?_, fun _ _ _ => hdriver⟩, trivial⟩
  · refine h.owns.congr rfl rfl le_rfl fun x _ _ htrack => .inl ?_
    rw [hwaiting]
    obtain hx | henters := htrack
    · exact List.mem_cons_of_mem _ hx
    · simp only [Enters, hplace] at henters
      exact henters ▸ List.mem_cons_self
  · rw [List.map_append, List.nodup_append_comm]
    exact List.nodup_cons.mpr ⟨hnew, h.logs.nodup⟩
  · rw [hwaiting]
    refine (List.perm_append_singleton _ _).trans ((h.logs.perm.cons _).trans ?_)
    exact List.perm_middle.symm
  · intro item hitem
    obtain hitem | hitem := List.mem_append.mp hitem
    · exact h.logs.own item hitem
    · rw [List.mem_singleton.mp hitem]
      exact hmem

theorem finishRemove (h : Kept s)
    (hplace : s.place = .removes key entry)
    (htimers : (if s.queue.driver then s.timers.cancel entry.timer else some s.timers) =
      some timers) : Kept { s with
        timers
        queue := { s.queue with entries := s.queue.entries.erase key }
        place := .idle
        removed := s.removed ++ [logged key entry] } := by
  have hlookup : s.queue.entries.lookup key = some entry := by
    have hfits := h.fits
    rwa [hplace] at hfits
  rw [if_pos (h.logs.driver key entry hlookup)] at htimers
  obtain ⟨-, htimers'⟩ := Timers.cancel_eq_some htimers
  have hfired : ∀ x, (timers.entry x).fired = (s.timers.entry x).fired := by
    intro x
    rw [htimers']
    exact s.timers.shared.cancel_fired entry.timer x
  refine ⟨?_, ⟨h.logs.nodup, ?_, h.logs.flow, ?_, h.logs.own, fun key' entry' hlookup' => ?_⟩,
    trivial⟩
  · refine h.owns.cancel htimers (h.logs.mem_own hlookup).2 rfl rfl rfl fun x hx htrack => .inl ?_
    rw [tracks_iff (by simp [hplace])] at htrack
    obtain ⟨key', entry', hlookup', rfl⟩ := mem_waiting_timers.mp htrack
    refine mem_waiting_timers.mpr ⟨key', entry', ?_, rfl⟩
    refine (AList.lookup_erase_ne ?_).trans hlookup'
    rintro rfl
    cases hlookup.symm.trans hlookup'
    exact hx rfl
  · exact h.logs.perm.trans (perm_to_second (perm_erase hlookup rfl))
  · intro item hitem
    rw [hfired]
    exact h.logs.expired item hitem
  · exact h.logs.driver key entry hlookup

/-- The end of a walk over the map. -/
theorem collect (h : Kept s) {call : Call} {found : List ℕ}
    (hplace : s.place = .scans call [] found) :
    Owns (s.collect found) ∧ Logs (s.collect found) := by
  have hfits := h.fits
  rw [hplace] at hfits
  have hbeside := s.collect_beside found
  constructor
  · refine h.owns.congr hbeside.timers hbeside.own hbeside.nextTimer.ge fun x _ hunfired htrack => ?_
    rw [tracks_iff (by simp [hplace])] at htrack
    obtain ⟨key, entry, hlookup, rfl⟩ := mem_waiting_timers.mp htrack
    refine .inl (mem_waiting_timers.mpr ⟨key, entry, ?_, rfl⟩)
    rw [collect_lookup, if_neg, hlookup]
    intro hkey
    obtain ⟨entry', hlookup', hfired⟩ := hfits key hkey
    cases hlookup.symm.trans hlookup'
    exact Bool.false_ne_true (hunfired.symm.trans hfired)
  · apply h.logs.collect
    intro key hkey entry hlookup
    obtain ⟨entry', hlookup', hfired⟩ := hfits key hkey
    cases hlookup.symm.trans hlookup'
    exact hfired

/-- A walk over the map is over, with or without an item. -/
theorem leaves (h : Kept s) {call : Call} {found : List ℕ}
    (hplace : s.place = .scans call [] found) (htimers : t.timers = (s.collect found).timers)
    (hnext : t.nextTimer = (s.collect found).nextTimer) (hown : t.own = (s.collect found).own)
    (hinserted : t.inserted = (s.collect found).inserted)
    (hexpiry : t.expiry = (s.collect found).expiry)
    (hremoved : t.removed = (s.collect found).removed)
    (hentries : t.queue.entries = (s.collect found).queue.entries)
    (hdriver : t.queue.driver = (s.collect found).queue.driver)
    (hflow : t.delivered ++ t.queue.expired =
      (s.collect found).delivered ++ (s.collect found).queue.expired)
    (hfits : t.Fits t.place) : Kept t where
  owns := by
    refine (h.collect hplace).1.congr htimers hown hnext.ge fun x _ _ htrack => .inl ?_
    rw [tracks_iff (by simp [(s.collect_beside found).place, hplace])] at htrack
    rwa [waiting, hentries]
  logs := by
    refine (h.collect hplace).2.congr hinserted hexpiry hremoved hentries hflow
      (fun x hx => hown ▸ hx) ?_ fun hd => hdriver.trans hd
    exact fun x _ hfired => htimers ▸ hfired
  fits := hfits

theorem new : Kept (.new : State T) := ⟨.new, .new, trivial⟩

theorem step {l : Label T} (h : Kept s) (hguard : s.Heeds l) (hstep : s.step l = some t) :
    Kept t := by
  cases step_takes hstep with
  | @insert when value hplace => exact h.insert hplace when value
  | refuse => exact h
  | remove hplace hlookup =>
    refine h.goes rfl rfl rfl rfl rfl rfl rfl ⟨rfl, rfl, rfl⟩ (fun x henters => ?_) hlookup
    simp [Enters, hplace] at henters
  | poll hplace =>
    refine h.goes rfl rfl rfl rfl rfl rfl rfl ⟨rfl, rfl, rfl⟩ (fun x henters => ?_) nofun
    simp [Enters, hplace] at henters
  | close hplace =>
    refine h.goes rfl rfl rfl rfl rfl rfl rfl ⟨rfl, rfl, rfl⟩ (fun x henters => henters) ?_
    simp [Fits, hplace]
  | newTimer =>
    refine ⟨?_, ?_, h.fits⟩
    · exact h.owns.congr rfl rfl (Nat.le_succ _) fun _ _ _ htrack => htrack
    · exact h.logs.congr rfl rfl rfl rfl rfl (fun _ hx => hx) (fun _ _ hf => hf) id
  | driver hpermits htimers =>
    exact h.follows (h.owns.driver hpermits htimers) (h.owns.driver_follows hpermits htimers)
  | wake htimers =>
    have hwake := h.follows (h.owns.wake htimers) fun x _ => .wake htimers
    exact hwake.goes rfl rfl rfl rfl rfl rfl rfl ⟨rfl, rfl, rfl⟩ (fun _ he => he) hwake.fits
  | arm hplace htimers => exact h.arm hplace htimers
  | enqueueDue hplace => exact h.enqueueDue hplace
  | enqueue hplace =>
    refine h.enqueue hplace ?_
    have hheeds : s.HeedsAt s.place := hguard
    rwa [hplace] at hheeds
  | notify hplace =>
    refine h.goes rfl rfl rfl rfl rfl rfl rfl ⟨rfl, rfl, rfl⟩ (fun x henters => ?_) trivial
    simp [Enters, hplace] at henters
  | finishRemove hplace htimers => exact h.finishRemove hplace htimers
  | @read iter call key rest found hplace =>
    refine h.goes rfl rfl rfl rfl rfl rfl rfl ⟨rfl, rfl, rfl⟩ (fun x henters => ?_) ?_
    · simp [Enters, hplace] at henters
    · have hfits := h.fits
      rw [hplace] at hfits
      intro key' hkey'
      change key' ∈ (if (s.queue.entries.lookup key).any s.isFired = true then found ++ [key]
        else found) at hkey'
      split at hkey'
      case isTrue hfired =>
        obtain hkey' | hkey' := List.mem_append.mp hkey'
        · exact hfits key' hkey'
        · rw [List.mem_singleton.mp hkey']
          exact (Option.any_eq_true _ _).mp hfired
      case isFalse => exact hfits key' hkey'
  | @deliver iter call found item expired hplace hexpired =>
    refine h.leaves hplace rfl rfl rfl rfl rfl rfl rfl rfl ?_ trivial
    rw [hexpired, List.append_assoc]
    rfl
  | finish hplace
  | empty hplace => exact h.leaves hplace rfl rfl rfl rfl rfl rfl rfl rfl rfl trivial
  | register hplace =>
    refine h.goes rfl rfl rfl rfl rfl rfl rfl ⟨rfl, rfl, rfl⟩ (fun x henters => ?_) trivial
    simp [Enters, hplace] at henters
  | rescan hplace =>
    refine h.goes rfl rfl rfl rfl rfl rfl rfl ⟨rfl, rfl, rfl⟩ (fun x henters => ?_) nofun
    simp [Enters, hplace] at henters
  | pend hplace =>
    refine h.goes rfl rfl rfl rfl rfl rfl rfl ⟨rfl, rfl, rfl⟩ (fun x henters => ?_) trivial
    simp [Enters, hplace] at henters

end Kept

end State

end Eddy.DelayQueueRaces
