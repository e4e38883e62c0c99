import Eddy.DelayQueue

/-!
# The order in which expired items are delivered

Items that have expired pass through one FIFO. They are delivered in the order of their deadlines as
long as the FIFO stays sorted: no item is due at its insertion while a later one waits in the FIFO,
and no scan of the map meets its fired entries out of order or finds one that is earlier than an item
already in the FIFO.
-/

namespace Eddy.DelayQueue
open Interleaving TimerWheel

variable {T : Type}

namespace Queue

theorem item_eq_some {q : Queue T} {key : ℕ} {x : Expired T} :
    q.item key = some x ↔
      ∃ entry, q.entries.lookup key = some entry ∧ x = ⟨key, entry.when, entry.value⟩ := by
  simp only [item, Option.map_eq_some_iff, eq_comm (b := x)]

theorem moveExpired_expired (q : Queue T) (key : ℕ) :
    (q.moveExpired key).expired = q.expired ++ (q.item key).toList := by
  unfold moveExpired item
  cases q.entries.lookup key <;> simp

theorem moveExpired_lookup_self (q : Queue T) (key : ℕ) :
    (q.moveExpired key).entries.lookup key = none := by
  unfold moveExpired
  cases hkey : q.entries.lookup key with
  | none => exact hkey
  | some entry => exact AList.lookup_erase _ _

theorem moveExpired_lookup_of_ne (q : Queue T) {key key' : ℕ} (h : key' ≠ key) :
    (q.moveExpired key).entries.lookup key' = q.entries.lookup key' := by
  unfold moveExpired
  cases q.entries.lookup key with
  | none => rfl
  | some entry => exact AList.lookup_erase_ne h

theorem moveExpired_item_of_ne (q : Queue T) {key key' : ℕ} (h : key' ≠ key) :
    (q.moveExpired key).item key' = q.item key' := by
  simp only [item, moveExpired_lookup_of_ne q h]

theorem foldl_moveExpired_lookup (q : Queue T) (keys : List ℕ) (key : ℕ) :
    (keys.foldl moveExpired q).entries.lookup key =
      if key ∈ keys then none else q.entries.lookup key := by
  induction keys generalizing q with
  | nil => simp
  | cons k keys ih =>
    rw [List.foldl_cons, ih]
    by_cases hk : key = k
    · subst hk
      simp [moveExpired_lookup_self]
    · simp [hk, moveExpired_lookup_of_ne q hk]

theorem foldl_moveExpired_expired (q : Queue T) {keys : List ℕ} (h : keys.Nodup) :
    (keys.foldl moveExpired q).expired = q.expired ++ keys.filterMap q.item := by
  induction keys generalizing q with
  | nil => simp
  | cons key keys ih =>
    obtain ⟨hkey, hkeys⟩ := List.nodup_cons.mp h
    have hitems : keys.filterMap (q.moveExpired key).item = keys.filterMap q.item :=
      List.filterMap_congr fun k hk =>
        moveExpired_item_of_ne q fun heq => hkey (heq ▸ hk)
    rw [List.foldl_cons, ih _ hkeys, hitems, moveExpired_expired, List.append_assoc]
    cases hitem : q.item key <;> simp [hitem]

end Queue

namespace System

variable {s t : System T}

/-- An item that has reached its deadline: it is in the FIFO, or its timer has fired. -/
inductive HasExpired (s : System T) : Expired T → Prop where
  | queued {x} (mem : x ∈ s.queue.expired) : HasExpired s x
  | fired {key entry} (lookup : s.queue.entries.lookup key = some entry)
      (fired : s.isFired entry = true) : HasExpired s ⟨key, entry.when, entry.value⟩

def scanned (s : System T) (iter : List ℕ) : List (Expired T) :=
  (s.fired iter).filterMap s.queue.item

variable {iter : List ℕ} {x : Expired T}

theorem mem_fired {key : ℕ} :
    key ∈ s.fired iter ↔
      key ∈ iter ∧ ∃ entry, s.queue.entries.lookup key = some entry ∧ s.isFired entry = true := by
  simp [fired, Option.any_eq_true]

theorem mem_scanned :
    x ∈ s.scanned iter ↔ ∃ entry, x.key ∈ iter ∧ s.queue.entries.lookup x.key = some entry ∧
      s.isFired entry = true ∧ x = ⟨x.key, entry.when, entry.value⟩ := by
  simp only [scanned, List.mem_filterMap, mem_fired]
  constructor
  · rintro ⟨key, ⟨hkey, entry, hlookup, hfired⟩, hitem⟩
    obtain ⟨entry', hlookup', rfl⟩ := Queue.item_eq_some.mp hitem
    obtain rfl : entry = entry' := Option.some_inj.mp (hlookup.symm.trans hlookup')
    exact ⟨entry, hkey, hlookup, hfired, rfl⟩
  · rintro ⟨entry, hkey, hlookup, hfired, hx⟩
    exact ⟨x.key, ⟨hkey, entry, hlookup, hfired⟩, Queue.item_eq_some.mpr ⟨entry, hlookup, hx⟩⟩

theorem HasExpired.of_scanned (h : x ∈ s.scanned iter) :
    s.HasExpired x := by
  obtain ⟨entry, -, hlookup, hfired, hx⟩ := mem_scanned.mp h
  rw [hx]
  exact .fired hlookup hfired

/-- A scan of the whole map leaves no expired item behind. -/
theorem hasExpired_iff (h : iter.Perm s.queue.entries.keys) :
    s.HasExpired x ↔ x ∈ s.queue.expired ++ s.scanned iter := by
  constructor
  · rintro (hmem | ⟨hlookup, hfired⟩)
    · exact List.mem_append_left _ hmem
    · have hsome := Option.isSome_iff_exists.mpr ⟨_, hlookup⟩
      have hkey := AList.mem_keys.mp (AList.lookup_isSome.mp hsome)
      exact List.mem_append_right _ (mem_scanned.mpr ⟨_, h.mem_iff.mpr hkey, hlookup, hfired, rfl⟩)
  · intro hmem
    rcases List.mem_append.mp hmem with hmem | hmem
    · exact .queued hmem
    · exact .of_scanned hmem

theorem collect_expired (h : iter.Perm s.queue.entries.keys) :
    (s.collect iter).expired = s.queue.expired ++ s.scanned iter := by
  have hiter : iter.Nodup := h.nodup_iff.mpr s.queue.entries.keys_nodup
  exact Queue.foldl_moveExpired_expired _ (hiter.filter _)

theorem collect_lookup (iter : List ℕ) (key : ℕ) :
    (s.collect iter).entries.lookup key =
      if key ∈ s.fired iter then none else s.queue.entries.lookup key :=
  Queue.foldl_moveExpired_lookup ..

/-- A poll delivers the first item of the FIFO after a scan in the order `iter`, if there is one. -/
inductive Polls (s : System T) (iter : List ℕ) (t : System T) : Prop where
  | item (x : Expired T) (rest : List (Expired T))
      (expired : s.queue.expired ++ s.scanned iter = x :: rest) (timers : t.timers = s.timers)
      (queue : t.queue = { s.collect iter with expired := rest })
      (delivered : t.delivered = s.delivered ++ [x])
  | none (sink : FireSink) (expired : s.queue.expired ++ s.scanned iter = [])
      (timers : t.timers = s.timers)
      (queue : t.queue = { s.queue with expired := [], sink := sink })
      (delivered : t.delivered = s.delivered)

/-- Every fired entry has an item. -/
theorem fired_eq_nil (h : s.scanned iter = []) : s.fired iter = [] := by
  refine List.eq_nil_iff_forall_not_mem.mpr fun key hkey => ?_
  obtain ⟨-, entry, hlookup, -⟩ := mem_fired.mp hkey
  have hitem := List.filterMap_eq_nil_iff.mp h key hkey
  simp [Queue.item, hlookup] at hitem

/-- Before the loop continues the waker was registered and `notified` was cleared. -/
def registered (s : System T) (cx : ℕ) : System T :=
  { s with queue := { s.queue with expired := [], sink := ⟨some cx, false, s.queue.sink.woken⟩ } }

/-- One pass answers, or it continues because `notified` was set. -/
theorem pollOnce_cases (hiter : iter.Perm s.queue.entries.keys) (cx : ℕ) :
    (∃ p t, s.pollOnce iter cx = (some p, t) ∧ s.Polls iter (answer (p, t))) ∨
      (s.pollOnce iter cx = (none, s.registered cx) ∧ s.queue.sink.notified = true ∧
        s.queue.expired = [] ∧ s.scanned iter = []) := by
  have hexpired := collect_expired hiter
  unfold pollOnce
  cases hcollect : (s.collect iter).expired with
  | cons x rest =>
    simp only [hcollect]
    refine .inl ⟨_, _, rfl, ?_⟩
    exact .item x rest (hexpired ▸ hcollect) rfl rfl rfl
  | nil =>
    have hnone : s.queue.expired ++ s.scanned iter = [] := hexpired ▸ hcollect
    obtain ⟨hnil, hscanned⟩ := List.append_eq_nil_iff.mp hnone
    have hqueue : s.collect iter = s.queue := by
      rw [collect, fired_eq_nil hscanned]
      rfl
    simp only [hqueue, hnil]
    by_cases hclosed : (s.queue.closed && s.queue.entries.keys.isEmpty) = true
    · simp only [hclosed, if_true]
      exact .inl ⟨_, _, rfl, .none s.queue.sink hnone rfl (by rw [← hnil]; rfl) rfl⟩
    · cases hnotified : s.queue.sink.notified with
      | true =>
        simp only [hclosed, if_true, Bool.false_eq_true, if_false]
        exact .inr ⟨rfl, trivial, trivial, hscanned⟩
      | false =>
        simp only [hclosed, Bool.false_eq_true, if_false]
        exact .inl ⟨_, _, rfl, .none _ hnone rfl (by rw [← hnil]; rfl) rfl⟩

theorem pollLoop_polls {cx n : ℕ} {p : Poll (Option (Expired T)) × System T}
    (hiter : iter.Perm s.queue.entries.keys) (h : pollLoop iter cx n s = some p) :
    s.Polls iter (answer p) := by
  induction n generalizing s with
  | zero => cases h
  | succ n ih =>
    unfold pollLoop at h
    obtain ⟨p', t, honce, hpolls⟩ | ⟨honce, -, hnil, hscanned⟩ := pollOnce_cases hiter cx
    · rw [honce] at h
      cases h
      exact hpolls
    · rw [honce] at h
      have hnone : s.queue.expired ++ s.scanned iter = [] :=
        List.append_eq_nil_iff.mpr ⟨hnil, hscanned⟩
      cases @ih (s.registered cx) hiter h with
      | item x rest expired timers queue delivered =>
        cases expired.symm.trans (show [] ++ s.scanned iter = [] from hscanned)
      | none sink expired timers queue delivered => exact .none sink hnone timers queue delivered

/-- A new timer is due when it is armed for `when`. -/
def due (s : System T) (when : ℤ) : Bool := (s.timers.arm s.nextTimer when sinkWaker).1

/-- An item that is due at its insertion is no earlier than what is in the FIFO; a scan of the map
meets the fired entries by deadline, and none is earlier than what is in the FIFO. -/
def Ordered (s : System T) : Label T → Prop
  | .insert when _ => s.due when = true → ∀ x ∈ s.queue.expired, x.deadline ≤ when
  | .poll iter _ =>
    (s.scanned iter).Pairwise Expired.Le ∧
      ∀ x ∈ s.queue.expired, ∀ y ∈ s.scanned iter, x.Le y
  | _ => True

instance (s : System T) : (a : Label T) → Decidable (s.Ordered a)
  | .insert when _ =>
    inferInstanceAs (Decidable (s.due when = true → ∀ x ∈ s.queue.expired, x.deadline ≤ when))
  | .poll iter _ =>
    inferInstanceAs (Decidable ((s.scanned iter).Pairwise Expired.Le ∧
      ∀ x ∈ s.queue.expired, ∀ y ∈ s.scanned iter, x.Le y))
  | .remove _ | .removeIf _ _ | .close | .newTimer | .driver _ => .isTrue trivial

end System

/-- Time passes, the clock changes, or the driver reads it. -/
def isClockStep : TimerShared.Action → Bool
  | .arm _ _ _ | .cancel _ | .setAutoAdvance _ => false
  | _ => true

/-- Neither an insertion nor a step of the clock. -/
def Label.Quiet : Label T → Prop
  | .insert _ _ => False
  | .driver a => isClockStep a = false
  | _ => True

instance : (a : Label T) → Decidable a.Quiet
  | .insert _ _ => .isFalse fun h => h
  | .driver a => inferInstanceAs (Decidable (isClockStep a = false))
  | .remove _ | .removeIf _ _ | .poll _ _ | .close | .newTimer => .isTrue trivial

namespace System

variable {s t : System T}

/-- Entries may leave the map, and no timer of another entry fires. -/
structure Shrinks (s t : System T) : Prop where
  lookup : ∀ {key entry}, t.queue.entries.lookup key = some entry →
    s.queue.entries.lookup key = some entry
  fired : ∀ {key entry}, t.queue.entries.lookup key = some entry → t.isFired entry = true →
    s.isFired entry = true

theorem Shrinks.of_eq (hentries : t.queue.entries = s.queue.entries)
    (htimers : t.timers = s.timers) : Shrinks s t := by
  constructor
  · intro key entry h
    rwa [← hentries]
  · intro key entry _ h
    rwa [isFired, ← htimers]

/-- What a step does to the FIFO. -/
inductive Effect (s t : System T) : Label T → Prop where
  | insert {when : ℤ} {value : T} (due : s.due when = true)
      (expired : t.queue.expired = s.queue.expired ++ [⟨s.queue.nextKey, when, value⟩])
      (delivered : t.delivered = s.delivered) : Effect s t (.insert when value)
  | poll {iter : List ℕ} {cx : ℕ} (perm : iter.Perm s.queue.entries.keys)
      (polls : s.Polls iter t) : Effect s t (.poll iter cx)
  | keep {a : Label T} (ordered : s.Ordered a) (expired : t.queue.expired = s.queue.expired)
      (delivered : t.delivered = s.delivered) (shrinks : a.Quiet → s.Shrinks t) : Effect s t a

variable {a : Label T} {key : ℕ}

/-- An erased entry leaves the others as they are. -/
theorem shrinks_erase {timer : ℕ}
    (hentries : t.queue.entries = s.queue.entries.erase key)
    (htimers : t.timers = s.timers.cancel timer ∨ t.timers = s.timers) : s.Shrinks t := by
  constructor
  · intro key' entry' hlookup
    rw [hentries] at hlookup
    have hne : key' ≠ key := by
      rintro rfl
      cases (AList.lookup_erase _ _).symm.trans hlookup
    exact (AList.lookup_erase_ne hne).symm.trans hlookup
  · intro key' entry' _ hfired
    rcases htimers with htimers | htimers
    · rw [isFired, htimers, TimerShared.cancel_fired] at hfired
      exact hfired
    · rwa [isFired, htimers] at hfired

theorem removeIf_effect (s : System T) (key : ℕ) (predicate : T → Bool)
    (ha : s.Ordered a) : s.Effect (s.removeIf key predicate).2 a := by
  unfold removeIf
  cases s.queue.entries.lookup key with
  | none => exact .keep ha rfl rfl fun _ => .of_eq rfl rfl
  | some entry =>
    simp only
    split_ifs
    · exact .keep ha rfl rfl fun _ => .of_eq rfl rfl
    · exact .keep ha rfl rfl fun _ => shrinks_erase rfl (.inl rfl)
    · exact .keep ha rfl rfl fun _ => @shrinks_erase _ _ _ _ 0 rfl (.inr rfl)

theorem insertInner_effect {when : ℤ} {value : T}
    (h : s.insertInner when value = some (key, t)) : s.Effect t (.insert when value) := by
  obtain ⟨-, h⟩ := Option.ite_none_left_eq_some.mp h
  have hdue : s.due when = (s.timers.arm s.nextTimer when sinkWaker).1 := rfl
  generalize s.timers.arm s.nextTimer when sinkWaker = armed at h hdue
  obtain ⟨due, timers⟩ := armed
  obtain ⟨-, rfl⟩ := Prod.mk.inj (Option.some.inj h)
  cases due with
  | true => exact .insert hdue rfl rfl
  | false =>
    have hordered : s.Ordered (.insert when value) := fun hdue' => by simp [hdue] at hdue'
    exact .keep hordered rfl rfl fun hquiet => hquiet.elim

theorem shrinks_of_alters {id : ℕ} (hqueue : t.queue.entries = s.queue.entries)
    (halters : TimerShared.Alters id s.timers.wheel t.timers.wheel)
    (hid : ∀ entry ∈ s.queue.entries.entries, entry.2.timer ≠ id) : s.Shrinks t := by
  constructor
  · intro key entry hlookup
    rwa [← hqueue]
  · intro key entry hlookup hfired
    rw [hqueue] at hlookup
    have hmem : (⟨key, entry⟩ : Sigma fun _ : ℕ => Entry T) ∈ s.queue.entries.entries :=
      AList.mem_lookup_iff.mp hlookup
    rw [isFired, halters.entries _ (hid _ hmem)] at hfired
    exact hfired

theorem runDriver_effect {a : TimerShared.Action} (hpermits : s.permits a = true)
    (h : s.runDriver a = some t) : s.Effect t (.driver a) := by
  obtain ⟨timers, htimers, rfl⟩ := Option.map_eq_some_iff.mp h
  refine .keep trivial rfl rfl fun hquiet => ?_
  cases a with
  | arm id deadline waker =>
    cases htimers
    refine shrinks_of_alters rfl (TimerShared.arm_alters _ id deadline waker) ?_
    simpa [permits, timer?] using ((Bool.and_eq_true _ _).mp hpermits).2
  | cancel id =>
    cases htimers
    refine shrinks_of_alters rfl (TimerShared.cancel_alters _ id) ?_
    simpa [permits, timer?] using ((Bool.and_eq_true _ _).mp hpermits).2
  | setAutoAdvance enabled =>
    cases htimers
    exact ⟨fun hlookup => hlookup, fun _ hfired => hfired⟩
  | _ => cases hquiet

theorem step_effect (h : s.step a = some t) : s.Effect t a := by
  cases a with
  | insert when value =>
    obtain ⟨⟨key, t'⟩, hinsert, rfl⟩ := Option.map_eq_some_iff.mp h
    exact insertInner_effect hinsert
  | remove key =>
    cases h
    exact removeIf_effect s key _ trivial
  | removeIf key predicate =>
    cases h
    exact removeIf_effect s key predicate trivial
  | poll iter cx =>
    obtain ⟨hiter, hpoll⟩ := Option.ite_none_right_eq_some.mp h
    obtain ⟨p, hp, rfl⟩ := Option.map_eq_some_iff.mp hpoll
    exact .poll hiter (pollLoop_polls hiter hp)
  | close | newTimer =>
    cases h
    exact .keep trivial rfl rfl fun _ => .of_eq rfl rfl
  | driver a =>
    obtain ⟨hpermits, hrun⟩ := Option.ite_none_right_eq_some.mp h
    exact runDriver_effect hpermits hrun

theorem collect_shrinks {iter : List ℕ} {entry : Entry T}
    (h : (s.collect iter).entries.lookup key = some entry) :
    s.queue.entries.lookup key = some entry := by
  rw [collect_lookup] at h
  exact (Option.ite_none_left_eq_some.mp h).2

theorem Effect.hasExpired (h : s.Effect t a) (hquiet : a.Quiet) {x : Expired T}
    (hx : t.HasExpired x) : s.HasExpired x := by
  cases h with
  | insert => exact hquiet.elim
  | poll perm polls =>
    cases polls with
    | item y rest expired timers queue delivered =>
      cases hx with
      | queued mem =>
        refine (hasExpired_iff perm).mpr ?_
        rw [expired]
        rw [queue] at mem
        exact List.mem_cons_of_mem _ mem
      | fired lookup fired =>
        rw [queue] at lookup
        rw [isFired, timers] at fired
        exact .fired (collect_shrinks lookup) fired
    | none sink expired timers queue delivered =>
      cases hx with
      | queued mem =>
        rw [queue] at mem
        cases mem
      | fired lookup fired =>
        rw [queue] at lookup
        rw [isFired, timers] at fired
        exact .fired lookup fired
  | keep ordered expired delivered shrinks =>
    cases hx with
    | queued mem => exact .queued (expired ▸ mem)
    | fired lookup fired =>
      exact .fired ((shrinks hquiet).lookup lookup) ((shrinks hquiet).fired lookup fired)

theorem Ordered.pairwise {iter : List ℕ} {cx : ℕ} (h : s.Ordered (.poll iter cx))
    (hsorted : s.queue.expired.Pairwise Expired.Le) :
    (s.queue.expired ++ s.scanned iter).Pairwise Expired.Le :=
  List.pairwise_append.mpr ⟨hsorted, h.1, h.2⟩

theorem Effect.sorted (h : s.Effect t a) (hordered : s.Ordered a)
    (hsorted : s.queue.expired.Pairwise Expired.Le) : t.queue.expired.Pairwise Expired.Le := by
  cases h with
  | insert due expired delivered =>
    rw [expired]
    refine List.pairwise_append.mpr ⟨hsorted, List.pairwise_singleton _ _, ?_⟩
    intro x hx y hy
    obtain rfl := List.mem_singleton.mp hy
    exact hordered due x hx
  | poll perm polls =>
    have hpairwise := hordered.pairwise hsorted
    cases polls with
    | item x rest expired timers queue delivered =>
      rw [expired] at hpairwise
      rw [queue]
      exact hpairwise.of_cons
    | none sink expired timers queue delivered =>
      rw [queue]
      exact .nil
  | keep ordered expired delivered shrinks => rwa [expired]

theorem sorted_of_reachable (h : Reachable step Ordered new s) :
    s.queue.expired.Pairwise Expired.Le :=
  h.invariant (I := fun s : System T => s.queue.expired.Pairwise Expired.Le) .nil
    fun _ _ _ hsorted hordered hstep => (step_effect hstep).sorted hordered hsorted

/-- What a step delivers was expired, and nothing that was expired is earlier. -/
def DeliversLeast (s t : System T) : Prop :=
  t.delivered = s.delivered ∨
    ∃ x, t.delivered = s.delivered ++ [x] ∧ s.HasExpired x ∧ ∀ y, s.HasExpired y → x.Le y

theorem Effect.delivers_least (h : s.Effect t a) (hordered : s.Ordered a)
    (hsorted : s.queue.expired.Pairwise Expired.Le) : s.DeliversLeast t := by
  cases h with
  | insert due expired delivered => exact .inl delivered
  | poll perm polls =>
    have hpairwise := hordered.pairwise hsorted
    cases polls with
    | item x rest expired timers queue delivered =>
      rw [expired] at hpairwise
      refine .inr ⟨x, delivered, (hasExpired_iff perm).mpr (by simp [expired]), fun y hy => ?_⟩
      have hy' := (hasExpired_iff perm).mp hy
      rw [expired] at hy'
      rcases List.mem_cons.mp hy' with rfl | hy'
      · exact Int.le_refl _
      · exact List.rel_of_pairwise_cons hpairwise hy'
    | none sink expired timers queue delivered => exact .inl delivered
  | keep ordered expired delivered shrinks => exact .inl delivered

/-- What has been delivered since `s` is in order, and no later than what has expired. -/
structure InOrder (s t : System T) (items : List (Expired T)) : Prop where
  delivered : t.delivered = s.delivered ++ items
  pairwise : items.Pairwise Expired.Le
  le : ∀ x ∈ items, ∀ y, t.HasExpired y → x.Le y

theorem InOrder.quiet {u : System T} {items : List (Expired T)}
    (h : InOrder s t items) (heffect : t.Effect u a) (hquiet : a.Quiet)
    (hleast : t.DeliversLeast u) :
    ∃ items', InOrder s u items' := by
  obtain hdelivered | ⟨x, hdelivered, hx, hle⟩ := hleast
  · exact ⟨items, hdelivered.trans h.delivered, h.pairwise,
      fun x hx y hy => h.le x hx y (heffect.hasExpired hquiet hy)⟩
  · refine ⟨items ++ [x], ?_, ?_, fun z hz y hy => ?_⟩
    · rw [hdelivered, h.delivered, List.append_assoc]
    · refine List.pairwise_append.mpr ⟨h.pairwise, List.pairwise_singleton _ _, ?_⟩
      intro z hz x' hx'
      obtain rfl := List.mem_singleton.mp hx'
      exact h.le z hz x' hx
    · have hy' := heffect.hasExpired hquiet hy
      rcases List.mem_append.mp hz with hz | hz
      · exact h.le z hz y hy'
      · obtain rfl := List.mem_singleton.mp hz
        exact hle y hy'

/-- Every poll delivers an item that is no later than any other that has expired before it, and
what is delivered without an insertion or a step of the clock in between is ordered by deadline:
when no item that is due at its insertion is earlier than one already in the FIFO, and scans meet
the fired entries in order. -/
theorem delivers_in_deadline_order (h : Reachable step Ordered new s) :
    (∀ a t, s.Ordered a → s.step a = some t → s.DeliversLeast t) ∧
      ∀ t, Reachable step (fun s a => s.Ordered a ∧ a.Quiet) s t →
        ∃ items, t.delivered = s.delivered ++ items ∧ items.Pairwise Expired.Le := by
  have hsorted := sorted_of_reachable h
  constructor
  · intro a t hordered hstep
    exact (step_effect hstep).delivers_least hordered hsorted
  · intro t ht
    have hinvariant : t.queue.expired.Pairwise Expired.Le ∧ ∃ items, InOrder s t items := by
      refine ht.invariant (I := fun t =>
        t.queue.expired.Pairwise Expired.Le ∧ ∃ items, InOrder s t items) ?_ ?_
      · exact ⟨hsorted, [], (List.append_nil _).symm, .nil, fun x hx => nomatch hx⟩
      · rintro t a u ⟨hsorted, items, hitems⟩ ⟨hordered, hquiet⟩ hstep
        have heffect := step_effect hstep
        exact ⟨heffect.sorted hordered hsorted,
          hitems.quiet heffect hquiet (heffect.delivers_least hordered hsorted)⟩
    obtain ⟨-, items, hitems⟩ := hinvariant
    exact ⟨items, hitems.delivered, hitems.pairwise⟩

/-- Two items expire before a poll, which meets them in order. -/
theorem delivers_in_deadline_order_scan :
    ∃ s : System ℕ, s.queue.expired.map Expired.deadline = [20000000] ∧
      s.delivered.map Expired.deadline = [10000000] ∧
      (∀ a t, s.Ordered a → s.step a = some t → s.DeliversLeast t) ∧
      ∀ t, Reachable step (fun s a => s.Ordered a ∧ a.Quiet) s t →
        ∃ items, t.delivered = s.delivered ++ items ∧ items.Pairwise Expired.Le := by
  have hrun : (run (guarded step Ordered) (new (T := ℕ))
      [.driver .pause, .insert 20000000 0, .insert 10000000 1, .driver (.advance 30000000),
        .driver .advanceToNow, .poll [1, 0] 0]).any (fun s =>
          decide (s.queue.expired.map Expired.deadline = [20000000] ∧
            s.delivered.map Expired.deadline = [10000000])) = true := by decide +kernel
  obtain ⟨s, hreach, hs⟩ := exists_reachable_of_run hrun
  obtain ⟨hexpired, hdelivered⟩ := of_decide_eq_true hs
  exact ⟨s, hexpired, hdelivered, delivers_in_deadline_order hreach⟩

/-- Of two items that are due at their insertion, the later one is delivered first. -/
theorem delivers_later_first :
    ∃ s t : System ℕ, Reachable step anyStep new s ∧
      Reachable step (fun _ a => a.Quiet) s t ∧ s.delivered = [] ∧
      (∀ x ∈ t.delivered, s.HasExpired x) ∧
      t.delivered.map Expired.deadline = [5000000, 3000000] := by
  have hrun : (run (guarded step anyStep) (new (T := ℕ))
      [.driver (.clock 10000000), .insert 5000000 0, .insert 3000000 1]).any (fun s =>
        decide (s.delivered = [] ∧ s.queue.expired = [⟨0, 5000000, 0⟩, ⟨1, 3000000, 1⟩] ∧
          (run (guarded step fun _ a => a.Quiet) s [.poll [] 0, .poll [] 0]).any (fun t =>
            decide (t.delivered = [⟨0, 5000000, 0⟩, ⟨1, 3000000, 1⟩])) = true)) = true := by
    decide +kernel
  obtain ⟨s, hreach, hs⟩ := exists_reachable_of_run hrun
  obtain ⟨hnone, hexpired, hpolls⟩ := of_decide_eq_true hs
  obtain ⟨t, hreach', ht⟩ := exists_reachable_of_run hpolls
  have hdelivered := of_decide_eq_true ht
  refine ⟨s, t, hreach, hreach', hnone, fun x hx => ?_, by rw [hdelivered]; rfl⟩
  exact .queued (by rwa [hexpired, ← hdelivered])

end System

end Eddy.DelayQueue
