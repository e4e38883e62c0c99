import Eddy.Mpsc
import Mathlib.Data.List.Nodup

/-!
# Waiters, slots and reservations

What the queue of senders and the counters of the channel have to do with the futures that wait:
the waiters are granted in the order in which they registered, no slot is given away twice, and a
free slot is never left without a waiter that was woken for it.
-/

namespace Eddy.Mpsc
open Interleaving

universe u
variable {α : Type u}

namespace State
variable {s s' : State α} {i : ℕ} {f g : Waiting α} {waker : ℕ}

/-- The place of a waiter in the order in which waiters registered. -/
def turn (s : State α) (i : ℕ) : ℕ := (s.futures.get i).elim 0 Waiting.turn

/-- What holds of a future. -/
structure Fits (s : State α) (i : ℕ) (f : Waiting α) : Prop where
  waits : i ∈ s.sendWaiters → f.granted = false ∧ f.registered = true ∧ f.waker.isSome = true
  granted : f.granted = true → f.registered = true ∧ f.turn ∈ s.grants ∧
    ∃ waker ∈ s.wakes, f.woken = some waker
  attempt : ∀ n, f.attempt = some n → n ≤ s.linked
  registered : f.registered = true → ∃ n, f.attempt = some n ∧ n ≤ f.turn

structure Linked (s : State α) : Prop where
  fits : ∀ i f, s.futures.get i = some f → s.Fits i f
  live : ∀ i ∈ s.sendWaiters, ∃ f, s.futures.get i = some f
  /-- Waiters are granted in turn, and those in the queue are later than those granted. -/
  order : (s.grants ++ s.sendWaiters.map s.turn ++ [s.linked]).Pairwise (· < ·)

theorem Linked.new (capacity : Option ℕ) : (State.new capacity : State α).Linked := by
  constructor <;> simp [State.new]

theorem Linked.nodup (h : s.Linked) : s.sendWaiters.Nodup := by
  have horder := (List.pairwise_append.mp (List.pairwise_append.mp h.order).1).2.1
  exact List.Nodup.of_map _ (horder.imp fun hlt => hlt.ne)

/-- Waiters may leave, and the logs may grow. -/
theorem Fits.mono (h : s.Fits i f) (hwaiters : i ∈ s'.sendWaiters → i ∈ s.sendWaiters)
    (hgrants : s.grants ⊆ s'.grants) (hwakes : s.wakes ⊆ s'.wakes) (hlinked : s.linked ≤ s'.linked) :
    s'.Fits i f := by
  refine ⟨fun hi => h.waits (hwaiters hi), fun hg => ?_, fun n hn => ?_, h.registered⟩
  · obtain ⟨hregistered, hturn, waker, hmem, hwoken⟩ := h.granted hg
    exact ⟨hregistered, hgrants hturn, waker, hwakes hmem, hwoken⟩
  · exact (h.attempt n hn).trans hlinked

/-- Waiters leave the queue and futures change, but those in the queue keep their turn. -/
theorem Linked.of_sublist (h : s.Linked) (hwaiters : s'.sendWaiters.Sublist s.sendWaiters)
    (hfits : ∀ i f, s'.futures.get i = some f → s'.Fits i f)
    (hturn : ∀ i ∈ s'.sendWaiters, ∀ f, s.futures.get i = some f →
      ∃ g, s'.futures.get i = some g ∧ g.turn = f.turn)
    (hgrants : s'.grants = s.grants) (hlinked : s'.linked = s.linked) : s'.Linked := by
  refine ⟨hfits, fun i hi => ?_, ?_⟩
  · obtain ⟨f, hf⟩ := h.live i (hwaiters.subset hi)
    obtain ⟨g, hg, -⟩ := hturn i hi f hf
    exact ⟨g, hg⟩
  · have hmap : s'.sendWaiters.map s'.turn = s'.sendWaiters.map s.turn := by
      apply List.map_congr_left
      intro i hi
      obtain ⟨f, hf⟩ := h.live i (hwaiters.subset hi)
      obtain ⟨g, hg, heq⟩ := hturn i hi f hf
      simp [turn, hf, hg, heq]
    rw [hgrants, hlinked, hmap]
    refine List.Pairwise.sublist ?_ h.order
    exact ((List.Sublist.refl _).append (hwaiters.map _)).append (List.Sublist.refl _)

/-- Only fields that the waiters do not depend on change. -/
theorem Linked.of_eq (h : s.Linked) (hfutures : s'.futures = s.futures)
    (hwaiters : s'.sendWaiters = s.sendWaiters) (hgrants : s'.grants = s.grants)
    (hlinked : s'.linked = s.linked) (hwakes : s.wakes ⊆ s'.wakes) : s'.Linked := by
  refine h.of_sublist (hwaiters ▸ List.Sublist.refl _) (fun i f hf => ?_) (fun i _ f hf => ?_)
    hgrants hlinked
  · rw [hfutures] at hf
    refine (h.fits i f hf).mono (fun hi => hwaiters ▸ hi) ?_ hwakes (Nat.le_of_eq hlinked.symm)
    rw [hgrants]
    exact List.Subset.refl _
  · exact ⟨f, hfutures ▸ hf, rfl⟩

theorem get_put (hf : s.futures.get i = some f) (g : Waiting α) (j : ℕ) :
    (s.put i g).futures.get j = if j = i then some g else s.futures.get j := by
  simp only [State.put, Slab.get_modify]
  split_ifs with hj
  · subst hj
    simp [hf]
  · rfl

theorem Linked.put (h : s.Linked) (hf : s.futures.get i = some f) (hg : s.Fits i g)
    (hturn : i ∈ s.sendWaiters → g.turn = f.turn) : (s.put i g).Linked := by
  refine h.of_sublist (List.Sublist.refl _) (fun j k hk => ?_) (fun j hj k hk => ?_) rfl rfl
  · rw [get_put hf] at hk
    split_ifs at hk with hj
    · subst hj
      cases hk
      exact ⟨hg.waits, hg.granted, hg.attempt, hg.registered⟩
    · have hfits := h.fits j k hk
      exact ⟨hfits.waits, hfits.granted, hfits.attempt, hfits.registered⟩
  · rw [get_put hf]
    split_ifs with hji
    · subst hji
      obtain rfl : f = k := Option.some.inj (hf.symm.trans hk)
      exact ⟨g, rfl, hturn hj⟩
    · exact ⟨k, hk, rfl⟩

theorem grant_eq (hf : s.futures.get i = some f) :
    s.grant i = { s.put i { f with granted := true, waker := none, woken := f.waker } with
      reserved := if f.reserves then s.reserved + 1 else s.reserved
      grants := s.grants ++ [f.turn]
      wakes := s.wakes ++ f.waker.toList } := by
  simp only [State.grant, hf]

/-- The first waiter of the queue is granted. -/
theorem Linked.grant {rest : List ℕ} (h : s.Linked) (hwaiters : s.sendWaiters = i :: rest) :
    (grant { s with sendWaiters := rest } i).Linked := by
  obtain ⟨f, hf⟩ := h.live i (by simp [hwaiters])
  have hfits := h.fits i f hf
  obtain ⟨hgranted, hregistered, hwaker⟩ := hfits.waits (by simp [hwaiters])
  obtain ⟨waker, hwaker⟩ := Option.isSome_iff_exists.mp hwaker
  obtain ⟨hi, -⟩ := List.nodup_cons.mp (hwaiters ▸ h.nodup)
  have hother : ∀ j ∈ rest, j ≠ i := by
    rintro j hj rfl
    exact hi hj
  rw [grant_eq (s := { s with sendWaiters := rest }) hf]
  refine ⟨fun j k hk => ?_, fun j hj => ?_, ?_⟩
  · replace hk : (if j = i then some { f with granted := true, waker := none, woken := f.waker }
        else s.futures.get j) = some k := by
      rw [← get_put hf]
      exact hk
    split_ifs at hk with hj
    · subst hj
      cases hk
      refine ⟨fun hmem => absurd hmem hi, fun _ => ⟨hregistered, by simp, waker, ?_, hwaker⟩,
        hfits.attempt, hfits.registered⟩
      simp [hwaker]
    · refine (h.fits j k hk).mono (fun hmem => ?_) ?_ ?_ (Nat.le_refl _)
      · rw [hwaiters]
        exact List.mem_cons_of_mem _ hmem
      · exact List.subset_append_left ..
      · exact List.subset_append_left ..
  · replace hj : j ∈ rest := hj
    obtain ⟨k, hk⟩ := h.live j (by simp [hwaiters, hj])
    refine ⟨k, ?_⟩
    change (s.put i _).futures.get j = some k
    rw [get_put hf, if_neg (hother j hj)]
    exact hk
  · have horder := h.order
    rw [hwaiters, List.map_cons, show s.turn i = f.turn by simp [turn, hf]] at horder
    have hturns : rest.map (s.put i { f with
        granted := true
        waker := none
        woken := f.waker }).turn = rest.map s.turn := by
      apply List.map_congr_left
      intro j hj
      simp only [turn, get_put hf, if_neg (hother j hj)]
    change (s.grants ++ [f.turn] ++ rest.map (s.put i _).turn ++ [s.linked]).Pairwise _
    rw [hturns]
    simpa using horder

theorem Linked.wakeOneSender (h : s.Linked) : s.wakeOneSender.Linked := by
  unfold State.wakeOneSender
  split_ifs
  · split
    · rename_i i rest hwaiters
      exact h.grant hwaiters
    · exact h
  · exact h

theorem Linked.push (h : s.Linked) (item : α) : (s.push item).Linked :=
  h.of_eq rfl rfl rfl rfl (List.subset_append_left ..)

theorem Linked.insert (h : s.Linked) (hi : s.futures.Vacant i) (hf : s.Fits i f) :
    Linked { s with futures := s.futures.insert i f } := by
  refine h.of_sublist (List.Sublist.refl _) (fun j k hk => ?_) (fun j hj k hk => ?_) rfl rfl
  · simp only [Slab.get_insert hi] at hk
    split_ifs at hk with hj
    · subst hj
      cases hk
      exact ⟨hf.waits, hf.granted, hf.attempt, hf.registered⟩
    · have hfits := h.fits j k hk
      exact ⟨hfits.waits, hfits.granted, hfits.attempt, hfits.registered⟩
  · have hne : j ≠ i := by
      rintro rfl
      have := hi.2
      simp [hk] at this
    exact ⟨k, by simp [Slab.get_insert hi, hne, hk], rfl⟩

theorem Linked.wait (h : s.Linked) (hf : s.futures.get i = some f) (hg : s.Fits i g)
    (hgranted : g.granted = false) (hattempt : g.attempt.isSome = true)
    (hregistered : g.registered = true → g.turn = f.turn)
    (hout : g.registered = false → i ∉ s.sendWaiters) (waker : ℕ) :
    (s.wait i g waker).Linked := by
  unfold State.wait
  split_ifs with hreg
  · refine h.put hf ⟨fun hi => ⟨hgranted, hreg, rfl⟩, fun htrue => ?_, hg.attempt, hg.registered⟩
      fun _ => hregistered hreg
    simp [hgranted] at htrue
  · have hi := hout (by simpa using hreg)
    obtain ⟨n, hn⟩ := Option.isSome_iff_exists.mp hattempt
    have hle := hg.attempt n hn
    have hother : ∀ j ∈ s.sendWaiters, j ≠ i := by
      rintro j hj rfl
      exact hi hj
    refine ⟨fun j k hk => ?_, fun j hj => ?_, ?_⟩
    · replace hk : (if j = i then some { g with
            waker := some waker
            registered := true
            turn := s.linked } else s.futures.get j) = some k := by
        rw [← get_put hf]
        exact hk
      split_ifs at hk with hj
      · subst hj
        cases hk
        refine ⟨fun _ => ⟨hgranted, rfl, rfl⟩, fun htrue => ?_, fun m hm => ?_,
          fun _ => ⟨n, hn, hle⟩⟩
        · simp [hgranted] at htrue
        · exact (hg.attempt m hm).trans (Nat.le_succ _)
      · refine (h.fits j k hk).mono (fun hmem => ?_) (List.Subset.refl _) (List.Subset.refl _)
          (Nat.le_succ _)
        exact (List.mem_append.mp hmem).resolve_right (by simpa using hj)
    · rcases List.mem_append.mp hj with hj | hj
      · obtain ⟨k, hk⟩ := h.live j hj
        refine ⟨k, ?_⟩
        change (s.put i _).futures.get j = some k
        rw [get_put hf, if_neg (hother j hj)]
        exact hk
      · obtain rfl : j = i := by simpa using hj
        refine ⟨{ g with waker := some waker, registered := true, turn := s.linked }, ?_⟩
        change (s.put j _).futures.get j = _
        rw [get_put hf, if_pos rfl]
    · have hturns : s.sendWaiters.map (s.put i { g with
          waker := some waker
          registered := true
          turn := s.linked }).turn = s.sendWaiters.map s.turn := by
        apply List.map_congr_left
        intro j hj
        simp only [turn, get_put hf, if_neg (hother j hj)]
      change (s.grants ++ (s.sendWaiters ++ [i]).map (s.put i _).turn ++
        [s.linked + 1]).Pairwise _
      rw [List.map_append, hturns]
      have hlast : [i].map (s.put i { g with
          waker := some waker
          registered := true
          turn := s.linked }).turn = [s.linked] := by
        simp [turn, get_put hf]
      rw [hlast, ← List.append_assoc]
      refine List.pairwise_append.mpr ⟨h.order, List.pairwise_singleton .., ?_⟩
      intro n hn m hm
      obtain rfl : m = s.linked + 1 := by simpa using hm
      rcases List.mem_append.mp hn with hn | hn
      · have := (List.pairwise_append.mp h.order).2.2 n hn s.linked (by simp)
        omega
      · have : n = s.linked := by simpa using hn
        omega

/-- What the poll of a future that was attempted can do. -/
inductive Polled (s : State α) (i : ℕ) (f : Waiting α) (waker : ℕ) : Outcome × State α → Prop where
  | closed {item : Option α} : s.receiverAlive = false →
      Polled s i f waker (.closed, s.put i { f with item := item })
  | claimSend {item : α} : f.reserves = false → f.item = some item → f.granted = true →
      s.capacityAvailable = true →
      Polled s i f waker (.sent, (s.put i { f with
        item := none
        granted := false
        registered := false }).push item)
  | send {item : α} : f.reserves = false → f.item = some item → f.granted = false →
      f.registered = false → s.sendWaiters = [] → s.capacityAvailable = true →
      Polled s i f waker (.sent, (s.put i { f with item := none }).push item)
  | lost : f.reserves = false → f.granted = true → s.capacityAvailable = false →
      Polled s i f waker (.pending, s.wait i { f with
        granted := false
        registered := false } waker)
  | claimReserve : f.reserves = true → f.granted = true →
      Polled s i f waker (.permit, s.put i { f with granted := false, registered := false })
  | reserve : f.reserves = true → f.granted = false → f.registered = false →
      s.sendWaiters = [] → s.capacityAvailable = true →
      Polled s i f waker (.permit, { s.put i f with reserved := s.reserved + 1 })
  | wait : f.granted = false →
      (f.registered = false → s.sendWaiters = [] → s.capacityAvailable = false) →
      Polled s i f waker (.pending, s.wait i f waker)

theorem polled_send {item : α} (hreserves : f.reserves = false) (hitem : f.item = some item) :
    Polled s i f waker (s.pollSend i f item waker) := by
  unfold State.pollSend
  cases halive : s.receiverAlive with
  | false => exact .closed halive
  | true =>
    rw [if_neg (by simp)]
    cases hgranted : f.granted with
    | true =>
      cases havailable : s.capacityAvailable with
      | true => exact .claimSend hreserves hitem hgranted havailable
      | false => simpa using Polled.lost hreserves hgranted havailable
    | false =>
      obtain ⟨item', reserves, granted, waker', registered, sender, attempt, turn, woken⟩ := f
      dsimp only at hgranted
      subst hgranted
      simp only [Bool.false_eq_true, false_and, ↓reduceIte]
      split_ifs with hfree
      · simp only [Bool.not_eq_eq_eq_not, Bool.not_true] at hfree
        exact .send hreserves hitem rfl hfree.1 hfree.2.1 hfree.2.2
      · refine .wait rfl fun hregistered hwaiters => ?_
        dsimp only at hregistered
        simpa [hregistered, hwaiters] using hfree

theorem polled_reserve (hreserves : f.reserves = true) :
    Polled s i f waker (s.pollReserve i f waker) := by
  unfold State.pollReserve
  cases halive : s.receiverAlive with
  | false => exact .closed halive
  | true =>
    rw [if_neg (by simp)]
    cases hgranted : f.granted with
    | true => exact .claimReserve hreserves hgranted
    | false =>
      rw [if_neg Bool.false_ne_true]
      split_ifs with hfree
      · simp only [Bool.not_eq_eq_eq_not, Bool.not_true] at hfree
        exact .reserve hreserves hgranted hfree.1 hfree.2.1 hfree.2.2
      · exact .wait hgranted fun hregistered hwaiters => by
          simpa [hregistered, hwaiters] using hfree

theorem polled {result : Outcome × State α} (hpoll : s.poll i f waker = some result) :
    Polled s i f waker result := by
  unfold State.poll at hpoll
  split_ifs at hpoll with hreserves
  · cases hpoll
    exact polled_reserve hreserves
  · obtain ⟨item, hitem, rfl⟩ := Option.map_eq_some_iff.mp hpoll
    exact polled_send (by simpa using hreserves) hitem

theorem Fits.attempted (h : s.Fits i f) : s.Fits i (f.attempted s.linked) := by
  refine ⟨h.waits, h.granted, fun n hn => ?_, fun hregistered => ?_⟩
  · have hn : f.attempt.getD s.linked = n := Option.some.inj hn
    cases hattempt : f.attempt with
    | none => simp [← hn, hattempt]
    | some m => simpa [← hn, hattempt] using h.attempt m hattempt
  · obtain ⟨n, hn, hle⟩ := h.registered hregistered
    exact ⟨n, by simp [Waiting.attempted, hn], hle⟩

theorem Fits.not_mem (h : s.Fits i f) (hout : f.granted = true ∨ f.registered = false) :
    i ∉ s.sendWaiters := by
  intro hi
  obtain ⟨hgranted, hregistered, -⟩ := h.waits hi
  rcases hout with hout | hout
  · simp [hgranted] at hout
  · simp [hregistered] at hout

theorem Linked.poll {result : Outcome × State α} (h : s.Linked) (hf : s.futures.get i = some f)
    (hpoll : s.poll i (f.attempted s.linked) waker = some result) : result.2.Linked := by
  have hfits := (h.fits i f hf).attempted
  have houtside : i ∉ s.sendWaiters → ∀ item, s.Fits i { f.attempted s.linked with
      item := item
      granted := false
      registered := false } := fun hi item =>
    ⟨fun hmem => absurd hmem hi, nofun, hfits.attempt, nofun⟩
  cases polled hpoll with
  | closed =>
    exact h.put hf ⟨hfits.waits, hfits.granted, hfits.attempt, hfits.registered⟩ fun _ => rfl
  | claimSend _ _ hgranted =>
    exact (h.put hf (houtside (hfits.not_mem (.inl hgranted)) none) fun _ => rfl).push _
  | send _ _ hgranted hregistered hwaiters =>
    have hfits' : s.Fits i { f.attempted s.linked with item := none } :=
      ⟨hfits.waits, hfits.granted, hfits.attempt, hfits.registered⟩
    exact (h.put hf hfits' fun _ => rfl).push _
  | lost _ hgranted =>
    have hi := hfits.not_mem (.inl hgranted)
    exact h.wait hf (houtside hi _) rfl rfl nofun (fun _ => hi) waker
  | claimReserve _ hgranted =>
    exact h.put hf (houtside (hfits.not_mem (.inl hgranted)) _) fun _ => rfl
  | reserve =>
    exact (h.put hf hfits fun _ => rfl).of_eq rfl rfl rfl rfl (List.Subset.refl _)
  | wait hgranted =>
    exact h.wait hf hfits hgranted rfl (fun _ => rfl) (fun hout => hfits.not_mem (.inr hout)) waker

/-- The future of a waiter is dropped. -/
theorem Linked.unlink (h : s.Linked) (hf : s.futures.get i = some f) : (s.unlink i f).Linked := by
  have hwaiters : ∀ j ∈ (s.unlink i f).sendWaiters, j ∈ s.sendWaiters ∧ j ≠ i := by
    intro j hj
    simp only [State.unlink] at hj
    split_ifs at hj with hregistered
    · simpa using hj
    · refine ⟨hj, ?_⟩
      rintro rfl
      exact (h.fits j f hf).not_mem (.inr (by simpa using hregistered)) hj
  refine h.of_sublist ?_ (fun j k hk => ?_) (fun j hj k hk => ?_) rfl rfl
  · simp only [State.unlink]
    split_ifs
    · exact List.filter_sublist
    · exact List.Sublist.refl _
  · simp only [State.unlink, Slab.get_remove] at hk
    split_ifs at hk with hj
    exact (h.fits j k hk).mono (fun hmem => (hwaiters j hmem).1) (List.Subset.refl _)
      (List.Subset.refl _) (Nat.le_refl _)
  · exact ⟨k, by simp [State.unlink, (hwaiters j hj).2, hk], rfl⟩

theorem Linked.dropFuture (h : s.Linked) (hf : s.futures.get i = some f) :
    (s.dropFuture i f).Linked := by
  have hunlink := h.unlink hf
  unfold State.dropFuture
  cases f.granted with
  | true =>
    refine Linked.wakeOneSender ?_
    exact hunlink.of_eq rfl rfl rfl rfl (List.Subset.refl _)
  | false => exact hunlink

theorem Linked.wakeWaiter (h : s.Linked) (hnil : s.sendWaiters = []) (i : ℕ) :
    (s.wakeWaiter i).Linked ∧ (s.wakeWaiter i).sendWaiters = [] := by
  unfold State.wakeWaiter
  split
  · rename_i f hf
    have hfits := h.fits i f hf
    have hput := h.put (g := { f with waker := none }) hf
      ⟨fun hi => by simp [hnil] at hi, hfits.granted, hfits.attempt, hfits.registered⟩ fun _ => rfl
    exact ⟨hput.of_eq rfl rfl rfl rfl (List.subset_append_left ..), hnil⟩
  · exact ⟨h, hnil⟩

theorem Linked.dropReceiver (h : s.Linked) : s.dropReceiver.Linked := by
  have hloop : ∀ (waiters : List ℕ) (t : State α), t.Linked → t.sendWaiters = [] →
      (waiters.foldl State.wakeWaiter t).Linked := by
    intro waiters
    induction waiters with
    | nil => exact fun t ht _ => ht
    | cons i waiters ih =>
      intro t ht hnil
      exact ih _ (ht.wakeWaiter hnil i).1 (ht.wakeWaiter hnil i).2
  refine hloop _ _ (h.of_sublist (List.nil_sublist _) (fun j k hk => ?_) (fun j hj => ?_) rfl rfl) rfl
  · exact (h.fits j k hk).mono (fun hmem => nomatch hmem) (List.Subset.refl _) (List.Subset.refl _)
      (Nat.le_refl _)
  · exact nomatch hj

theorem capacityAvailable_eq_true : s.capacityAvailable = true ↔
    ∀ capacity, s.capacity = some capacity → s.queue.length + s.reserved < capacity := by
  unfold capacityAvailable
  cases s.capacity <;> simp

theorem capacityAvailable_eq_false (h : s.capacityAvailable = false) {capacity : ℕ}
    (hcapacity : s.capacity = some capacity) : capacity ≤ s.queue.length + s.reserved := by
  simpa [capacityAvailable, hcapacity] using h

/-- The granted futures that were not polled since, `Reserve`s or `Send`s. -/
def unclaimed (s : State α) (reserves : Bool) : ℕ :=
  s.futures.weight fun f => if f.granted ∧ f.reserves = reserves then 1 else 0

/-- The slots of the channel for so many live `Permit`s. While there are waiters, the free slots
exceed the unclaimed grants of `Send`s at most by the slack. -/
structure Accounted (s : State α) (permits slack : ℕ) : Prop where
  reserved : s.reserved = permits + s.unclaimed true
  capacity : ∀ capacity, s.capacity = some capacity → s.queue.length + s.reserved ≤ capacity
  served : ∀ capacity, s.capacity = some capacity → s.receiverAlive = true →
    s.sendWaiters ≠ [] → capacity ≤ s.queue.length + s.reserved + s.unclaimed false + slack

variable {permits slack : ℕ}

theorem Accounted.new (capacity : Option ℕ) : (State.new capacity : State α).Accounted 0 0 := by
  constructor <;> simp [State.new, unclaimed]

theorem unclaimed_put (hf : s.futures.get i = some f) (g : Waiting α) (reserves : Bool) :
    (s.put i g).unclaimed reserves + (if f.granted ∧ f.reserves = reserves then 1 else 0) =
      s.unclaimed reserves + if g.granted ∧ g.reserves = reserves then 1 else 0 :=
  Slab.weight_modify (fun f : Waiting α => if f.granted ∧ f.reserves = reserves then 1 else 0) hf
    fun _ => g

theorem unclaimed_put_same (hf : s.futures.get i = some f) (hgranted : g.granted = f.granted)
    (hreserves : g.reserves = f.reserves) (reserves : Bool) :
    (s.put i g).unclaimed reserves = s.unclaimed reserves := by
  have := unclaimed_put hf g reserves
  rw [hgranted, hreserves] at this
  omega

theorem unclaimed_put_claim (hf : s.futures.get i = some f) (hgranted : f.granted = true)
    (hg : g.granted = false) (reserves : Bool) :
    (s.put i g).unclaimed reserves + (if f.reserves = reserves then 1 else 0) =
      s.unclaimed reserves := by
  have := unclaimed_put hf g reserves
  simpa [hgranted, hg] using this

/-- A grant of a `Reserve` takes a slot, and a grant of a `Send` promises one. -/
theorem Accounted.wakeOneSender (h : s.Accounted permits 1) (hlinked : s.Linked) :
    s.wakeOneSender.Accounted permits 0 := by
  unfold State.wakeOneSender
  split_ifs with havailable
  · split
    · rename_i i rest hwaiters
      obtain ⟨f, hf⟩ := hlinked.live i (by simp [hwaiters])
      obtain ⟨hgranted, -⟩ := (hlinked.fits i f hf).waits (by simp [hwaiters])
      rw [grant_eq (s := { s with sendWaiters := rest }) hf]
      have hroom := capacityAvailable_eq_true.mp havailable
      have hunclaimed : ∀ reserves, (s.put i { f with
          granted := true
          waker := none
          woken := f.waker }).unclaimed reserves =
            s.unclaimed reserves + if f.reserves = reserves then 1 else 0 := by
        intro reserves
        simpa [hgranted] using unclaimed_put hf { f with
          granted := true
          waker := none
          woken := f.waker } reserves
      have hreserved := h.reserved
      have hheld := hunclaimed true
      have hpromised := hunclaimed false
      refine ⟨?_, fun c hc => ?_, fun c hc halive _ => ?_⟩
      · change (if f.reserves then s.reserved + 1 else s.reserved) = permits + (s.put i _).unclaimed true
        rw [hheld]
        cases f.reserves <;> simp <;> omega
      · have := hroom c hc
        change s.queue.length + (if f.reserves then s.reserved + 1 else s.reserved) ≤ c
        split_ifs <;> omega
      · have := h.served c hc halive (by simp [hwaiters])
        change c ≤ s.queue.length + (if f.reserves then s.reserved + 1 else s.reserved) +
          (s.put i _).unclaimed false + 0
        rw [hpromised]
        cases f.reserves <;> simp <;> omega
    · rename_i hwaiters
      exact ⟨h.reserved, h.capacity, fun c _ _ hne => absurd hwaiters hne⟩
  · refine ⟨h.reserved, h.capacity, fun c hc _ _ => ?_⟩
    have := capacityAvailable_eq_false (by simpa using havailable) hc
    omega

/-- An item takes a slot that is free, promised or reserved. -/
theorem Accounted.push (hreserved : s.reserved = permits + s.unclaimed true)
    (hcapacity : ∀ capacity, s.capacity = some capacity → s.queue.length + s.reserved < capacity)
    (hserved : ∀ capacity, s.capacity = some capacity → s.receiverAlive = true →
      s.sendWaiters ≠ [] → capacity ≤ s.queue.length + s.reserved + s.unclaimed false + 1)
    (item : α) : (s.push item).Accounted permits 0 := by
  refine ⟨hreserved, fun c hc => ?_, fun c hc halive hne => ?_⟩
  · have := hcapacity c hc
    change (s.queue ++ [item]).length + s.reserved ≤ c
    simp only [List.length_append, List.length_singleton]
    omega
  · have := hserved c hc halive hne
    change c ≤ (s.queue ++ [item]).length + s.reserved + s.unclaimed false + 0
    simp only [List.length_append, List.length_singleton]
    omega

theorem Accounted.wait (h : s.Accounted permits 0) (hf : s.futures.get i = some f)
    (hreserves : g.reserves = f.reserves) (hgranted : g.granted = false)
    (hold : f.granted = true → f.reserves = false ∧ s.capacityAvailable = false)
    (hblocked : g.registered = false → s.sendWaiters = [] → s.capacityAvailable = false)
    (waker : ℕ) : (s.wait i g waker).Accounted permits 0 := by
  obtain ⟨hreserved, hcapacity, hserved⟩ := h
  have hput : ∀ k : Waiting α, k.reserves = f.reserves → k.granted = false →
      (s.put i k).unclaimed true = s.unclaimed true ∧
      ∀ c, s.capacity = some c → c ≤ s.queue.length + s.reserved + s.unclaimed false →
        c ≤ s.queue.length + s.reserved + (s.put i k).unclaimed false := by
    intro k hk hkgranted
    have htrue := unclaimed_put hf k true
    have hfalse := unclaimed_put hf k false
    rw [hk, hkgranted] at htrue hfalse
    cases hfg : f.granted with
    | true =>
      obtain ⟨hsend, hfull⟩ := hold hfg
      refine ⟨by simpa [hsend] using htrue, fun c hc _ => ?_⟩
      have := capacityAvailable_eq_false hfull hc
      omega
    | false =>
      refine ⟨by simpa [hfg] using htrue, fun c _ hle => ?_⟩
      have hsame : (s.put i k).unclaimed false = s.unclaimed false := by simpa [hfg] using hfalse
      rwa [hsame]
  unfold State.wait
  split_ifs with hregistered
  · obtain ⟨htrue, hserves⟩ := hput { g with waker := some waker } hreserves hgranted
    refine ⟨?_, hcapacity, fun c hc halive hne => hserves c hc (hserved c hc halive hne)⟩
    rw [htrue]
    exact hreserved
  · obtain ⟨htrue, hserves⟩ := hput { g with
        waker := some waker
        registered := true
        turn := s.linked } hreserves hgranted
    refine ⟨?_, hcapacity, fun c hc halive hne => hserves c hc ?_⟩
    · change s.reserved = permits + (s.put i _).unclaimed true
      rw [htrue]
      exact hreserved
    · by_cases hnil : s.sendWaiters = []
      · have := capacityAvailable_eq_false (hblocked (by simpa using hregistered) hnil) hc
        omega
      · exact hserved c hc halive hnil

/-- The future that is polled may have been marked as attempted. -/
theorem Accounted.poll {result : Outcome × State α} (h : s.Accounted permits 0)
    (hf : s.futures.get i = some f) (hreserves : g.reserves = f.reserves)
    (hgranted : g.granted = f.granted) (hpoll : s.poll i g waker = some result) :
    result.2.Accounted (if result.1 = .permit then permits + 1 else permits) 0 := by
  obtain ⟨hreserved, hcapacity, hserved⟩ := h
  cases polled hpoll with
  | @closed item hclosed =>
    have hsame := unclaimed_put_same (s := s) (g := { g with item := item }) hf hgranted hreserves
    refine ⟨?_, hcapacity, fun c hc halive => ?_⟩
    · rw [hsame]
      exact hreserved
    · have : s.receiverAlive = true := halive
      simp [hclosed] at this
  | @claimSend item hsend _ hclaim havailable =>
    have hclaimed := unclaimed_put_claim (s := s) hf (hgranted ▸ hclaim)
      (g := { g with item := none, granted := false, registered := false }) rfl
    have htrue := hclaimed true
    have hfalse := hclaimed false
    rw [hreserves.symm.trans hsend] at htrue hfalse
    simp only [Bool.false_eq_true, ↓reduceIte, Nat.add_zero] at htrue hfalse
    refine Accounted.push (s := s.put i _) ?_ (capacityAvailable_eq_true.mp havailable)
      (fun c hc halive hne => ?_) _
    · rw [← htrue] at hreserved
      exact hreserved
    · have := hserved c hc halive hne
      change c ≤ s.queue.length + s.reserved + (s.put i _).unclaimed false + 1
      omega
  | @send item hsend _ _ _ hwaiters havailable =>
    have hsame := unclaimed_put_same (s := s) (g := { g with item := none }) hf hgranted hreserves
    refine Accounted.push (s := s.put i _) ?_ (capacityAvailable_eq_true.mp havailable)
      (fun c _ _ hne => ?_) _
    · rw [hsame]
      exact hreserved
    · exact absurd hwaiters hne
  | lost hsend hclaim havailable =>
    have hwait := Accounted.wait (g := { g with granted := false, registered := false })
      ⟨hreserved, hcapacity, hserved⟩ hf hreserves rfl
    refine hwait (fun _ => ⟨hreserves ▸ hsend, havailable⟩) (fun _ _ => havailable) waker
  | claimReserve hreserve hclaim =>
    have hclaimed := unclaimed_put_claim (s := s) hf (hgranted ▸ hclaim)
      (g := { g with granted := false, registered := false }) rfl
    have htrue := hclaimed true
    have hfalse := hclaimed false
    rw [hreserves.symm.trans hreserve] at htrue hfalse
    simp only [Bool.true_eq_false, ↓reduceIte, Nat.add_zero] at htrue hfalse
    refine ⟨?_, hcapacity, fun c hc halive hne => ?_⟩
    · change s.reserved = permits + 1 + (s.put i _).unclaimed true
      omega
    · have := hserved c hc halive hne
      change c ≤ s.queue.length + s.reserved + (s.put i _).unclaimed false + 0
      omega
  | reserve hreserve _ _ hwaiters havailable =>
    have hsame := unclaimed_put_same (s := s) hf hgranted hreserves
    refine ⟨?_, fun c hc => ?_, fun c _ _ hne => ?_⟩
    · change s.reserved + 1 = permits + 1 + (s.put i g).unclaimed true
      rw [hsame]
      omega
    · exact capacityAvailable_eq_true.mp havailable c hc
    · exact absurd hwaiters hne
  | wait hnot hblocked =>
    refine Accounted.wait ⟨hreserved, hcapacity, hserved⟩ hf hreserves hnot (fun htrue => ?_)
      hblocked waker
    simp [← hgranted, hnot] at htrue

theorem unclaimed_unlink (hf : s.futures.get i = some f) (reserves : Bool) :
    (s.unlink i f).unclaimed reserves + (if f.granted ∧ f.reserves = reserves then 1 else 0) =
      s.unclaimed reserves :=
  Slab.weight_remove (fun f : Waiting α => if f.granted ∧ f.reserves = reserves then 1 else 0) hf

theorem Accounted.dropFuture (h : s.Accounted permits 0) (hlinked : s.Linked)
    (hf : s.futures.get i = some f) : (s.dropFuture i f).Accounted permits 0 := by
  obtain ⟨hreserved, hcapacity, hserved⟩ := h
  have hunlink := hlinked.unlink hf
  have htrue := unclaimed_unlink hf true
  have hfalse := unclaimed_unlink hf false
  have hne : (s.unlink i f).sendWaiters ≠ [] → s.sendWaiters ≠ [] := by
    intro hne hnil
    simp [State.unlink, hnil] at hne
  cases hgranted : f.granted with
  | false =>
    have hdrop : s.dropFuture i f = s.unlink i f := if_neg (by simp [hgranted])
    rw [hdrop]
    rw [hgranted] at htrue hfalse
    simp only [Bool.false_eq_true, false_and, ↓reduceIte, Nat.add_zero] at htrue hfalse
    refine ⟨?_, hcapacity, fun c hc halive hwaiters => ?_⟩
    · rw [htrue]
      exact hreserved
    · rw [hfalse]
      exact hserved c hc halive (hne hwaiters)
  | true =>
    have hdrop : s.dropFuture i f = State.wakeOneSender { s.unlink i f with
        reserved := if f.reserves then s.reserved - 1 else s.reserved } := if_pos hgranted
    rw [hdrop]
    refine Accounted.wakeOneSender ⟨?_, fun c hc => ?_, fun c hc halive hwaiters => ?_⟩
      (hunlink.of_eq rfl rfl rfl rfl (List.Subset.refl _))
    · change (if f.reserves then s.reserved - 1 else s.reserved) =
        permits + (s.unlink i f).unclaimed true
      rw [hgranted] at htrue
      cases hreserves : f.reserves <;> simp [hreserves] at htrue ⊢ <;> omega
    · have := hcapacity c hc
      change s.queue.length + (if f.reserves then s.reserved - 1 else s.reserved) ≤ c
      split_ifs <;> omega
    · have := hserved c hc halive (hne hwaiters)
      change c ≤ s.queue.length + (if f.reserves then s.reserved - 1 else s.reserved) +
        (s.unlink i f).unclaimed false + 1
      rw [hgranted] at hfalse
      cases hreserves : f.reserves <;> simp [hreserves] at hfalse ⊢ <;> omega

end State

end Eddy.Mpsc
