import Eddy.MpscWaiters

/-!
# Runs of the channel

The invariants of the channel over whole runs: slots and reservations balance, items are delivered
in the order in which they were accepted, and nobody is served before a waiter that came first was
granted.
-/

namespace Eddy.Mpsc
open Interleaving

universe u
variable {α : Type u}

namespace State
variable {s s' : State α} {i : ℕ} {f g : Waiting α} {waker permits : ℕ}

/-- The channel is the same, and futures may only be gone. -/
structure Frame (s s' : State α) : Prop where
  capacity : s'.capacity = s.capacity
  senders : s'.senders = s.senders
  receiverAlive : s'.receiverAlive = s.receiverAlive
  borrows : ∀ i g, s'.futures.get i = some g → ∃ f, s.futures.get i = some f ∧ g.sender = f.sender

theorem Frame.refl (s : State α) : Frame s s := ⟨rfl, rfl, rfl, fun _ g hg => ⟨g, hg, rfl⟩⟩

theorem Frame.trans {t : State α} (h : Frame s s') (h' : Frame s' t) : Frame s t := by
  refine ⟨h'.capacity.trans h.capacity, h'.senders.trans h.senders,
    h'.receiverAlive.trans h.receiverAlive, fun i k hk => ?_⟩
  obtain ⟨g, hg, hsender'⟩ := h'.borrows i k hk
  obtain ⟨f, hf, hsender⟩ := h.borrows i g hg
  exact ⟨f, hf, hsender'.trans hsender⟩

theorem frame_put (hf : s.futures.get i = some f) (hsender : g.sender = f.sender) :
    Frame s (s.put i g) := by
  refine ⟨rfl, rfl, rfl, fun j k hk => ?_⟩
  rw [get_put hf] at hk
  split_ifs at hk with hj
  · subst hj
    cases hk
    exact ⟨f, hf, hsender⟩
  · exact ⟨k, hk, rfl⟩

theorem frame_grant (s : State α) (i : ℕ) : Frame s (s.grant i) := by
  cases hf : s.futures.get i with
  | none =>
    simp only [State.grant, hf]
    exact .refl s
  | some f =>
    rw [grant_eq hf]
    have hput := frame_put (g := { f with granted := true, waker := none, woken := f.waker }) hf rfl
    exact ⟨hput.capacity, hput.senders, hput.receiverAlive, hput.borrows⟩

theorem queue_grant (s : State α) (i : ℕ) : (s.grant i).queue = s.queue := by
  unfold State.grant
  split <;> rfl

theorem frame_wakeOneSender (s : State α) : Frame s s.wakeOneSender := by
  unfold State.wakeOneSender
  split_ifs
  · split
    · rename_i i rest _
      have hgrant := frame_grant { s with sendWaiters := rest } i
      exact ⟨hgrant.capacity, hgrant.senders, hgrant.receiverAlive, hgrant.borrows⟩
    · exact .refl s
  · exact .refl s

@[simp] theorem queue_wakeOneSender (s : State α) : s.wakeOneSender.queue = s.queue := by
  unfold State.wakeOneSender
  split_ifs
  · split
    · rename_i i rest _
      exact queue_grant { s with sendWaiters := rest } i
    · rfl
  · rfl

theorem frame_push (s : State α) (item : α) : Frame s (s.push item) :=
  ⟨rfl, rfl, rfl, fun _ g hg => ⟨g, hg, rfl⟩⟩

theorem frame_wait (hf : s.futures.get i = some f) (hsender : g.sender = f.sender) (waker : ℕ) :
    Frame s (s.wait i g waker) := by
  unfold State.wait
  split_ifs
  · exact frame_put hf hsender
  · have hput := frame_put (s := s) hf
      (g := { g with waker := some waker, registered := true, turn := s.linked }) hsender
    exact ⟨hput.capacity, hput.senders, hput.receiverAlive, hput.borrows⟩

@[simp] theorem queue_wait (s : State α) (i : ℕ) (f : Waiting α) (waker : ℕ) :
    (s.wait i f waker).queue = s.queue := by
  unfold State.wait
  split_ifs <;> rfl

variable {result : Outcome × State α}

theorem frame_poll (hf : s.futures.get i = some f)
    (hsender : g.sender = f.sender) (hpoll : s.poll i g waker = some result) :
    Frame s result.2 := by
  cases polled hpoll with
  | closed | claimReserve => exact frame_put hf hsender
  | claimSend | send =>
    refine Frame.trans ?_ (frame_push ..)
    exact frame_put hf hsender
  | lost =>
    exact frame_wait (g := { g with granted := false, registered := false }) hf hsender waker
  | wait => exact frame_wait hf hsender waker
  | reserve =>
    have hput := frame_put (s := s) hf hsender
    exact ⟨hput.capacity, hput.senders, hput.receiverAlive, hput.borrows⟩

/-- The item of a `Send` that is sent goes to the end of the queue. -/
theorem queue_poll (hpoll : s.poll i g waker = some result) :
    result.2.queue = s.queue ++ if result.1 = .sent then g.item.toList else [] := by
  cases polled hpoll with
  | closed | claimReserve | reserve => exact (List.append_nil _).symm
  | claimSend _ hitem | send _ hitem =>
    rw [if_pos rfl, hitem]
    rfl
  | lost | wait => simp

theorem frame_unlink (s : State α) (i : ℕ) (f : Waiting α) : Frame s (s.unlink i f) := by
  refine ⟨rfl, rfl, rfl, fun j k hk => ?_⟩
  simp only [State.unlink, Slab.get_remove] at hk
  split_ifs at hk
  exact ⟨k, hk, rfl⟩

theorem frame_dropFuture (s : State α) (i : ℕ) (f : Waiting α) : Frame s (s.dropFuture i f) := by
  have hunlink := frame_unlink s i f
  unfold State.dropFuture
  cases f.granted with
  | false => exact hunlink
  | true =>
    refine Frame.trans ?_ (frame_wakeOneSender _)
    exact ⟨hunlink.capacity, hunlink.senders, hunlink.receiverAlive, hunlink.borrows⟩

@[simp] theorem queue_dropFuture (s : State α) (i : ℕ) (f : Waiting α) :
    (s.dropFuture i f).queue = s.queue := by
  unfold State.dropFuture
  cases f.granted with
  | false => rfl
  | true => exact queue_wakeOneSender _

theorem frame_dropPermit (s : State α) : Frame s s.dropPermit := by
  have hwake := frame_wakeOneSender { s with reserved := s.reserved - 1 }
  exact ⟨hwake.capacity, hwake.senders, hwake.receiverAlive, hwake.borrows⟩

@[simp] theorem queue_dropPermit (s : State α) : s.dropPermit.queue = s.queue :=
  queue_wakeOneSender _

theorem frame_permitSend (s : State α) (item : α) :
    Frame s (State.push { s with reserved := s.reserved - 1 } item) :=
  ⟨rfl, rfl, rfl, fun _ g hg => ⟨g, hg, rfl⟩⟩

theorem frame_pop (s : State α) (queue : List α) :
    Frame s (State.wakeOneSender { s with queue := queue }) := by
  have hwake := frame_wakeOneSender { s with queue := queue }
  exact ⟨hwake.capacity, hwake.senders, hwake.receiverAlive, hwake.borrows⟩

theorem Accounted.insert (h : s.Accounted permits 0) (hi : s.futures.Vacant i)
    (hgranted : f.granted = false) :
    Accounted { s with futures := s.futures.insert i f } permits 0 := by
  have hsame : ∀ reserves, unclaimed { s with futures := s.futures.insert i f } reserves =
      s.unclaimed reserves := by
    intro reserves
    rw [unclaimed, Slab.weight_insert _ hi]
    simp [hgranted, unclaimed]
  refine ⟨?_, h.capacity, fun c hc halive hne => ?_⟩
  · rw [hsame]
    exact h.reserved
  · rw [hsame]
    exact h.served c hc halive hne

/-- A `Permit` is given back. -/
theorem Accounted.release (h : s.Accounted (permits + 1) 0) :
    Accounted { s with reserved := s.reserved - 1 } permits 1 ∧
      ∀ capacity, s.capacity = some capacity → s.queue.length + (s.reserved - 1) < capacity := by
  obtain ⟨hreserved, hcapacity, hserved⟩ := h
  refine ⟨⟨?_, fun c hc => ?_, fun c hc halive hne => ?_⟩, fun c hc => ?_⟩
  · change s.reserved - 1 = permits + s.unclaimed true
    omega
  · have := hcapacity c hc
    dsimp only
    omega
  · have := hserved c hc halive hne
    change c ≤ s.queue.length + (s.reserved - 1) + s.unclaimed false + 1
    omega
  · have := hcapacity c hc
    omega

theorem Accounted.dropPermit (h : s.Accounted (permits + 1) 0) (hlinked : s.Linked) :
    s.dropPermit.Accounted permits 0 :=
  h.release.1.wakeOneSender (hlinked.of_eq rfl rfl rfl rfl (List.Subset.refl _))

theorem Accounted.permitSend (h : s.Accounted (permits + 1) 0) (item : α) :
    (State.push { s with reserved := s.reserved - 1 } item).Accounted permits 0 :=
  Accounted.push h.release.1.reserved h.release.2 h.release.1.served item

theorem Accounted.pop {item : α} {queue : List α} (h : s.Accounted permits 0) (hlinked : s.Linked)
    (hqueue : s.queue = item :: queue) :
    (State.wakeOneSender { s with queue := queue }).Accounted permits 0 := by
  obtain ⟨hreserved, hcapacity, hserved⟩ := h
  refine Accounted.wakeOneSender ⟨hreserved, fun c hc => ?_, fun c hc halive hne => ?_⟩
    (hlinked.of_eq rfl rfl rfl rfl (List.Subset.refl _))
  · have := hcapacity c hc
    simp only [hqueue, List.length_cons] at this
    dsimp only
    omega
  · have := hserved c hc halive hne
    simp only [hqueue, List.length_cons] at this
    change c ≤ queue.length + s.reserved + s.unclaimed false + 1
    omega

/-- What the loop of `Receiver::drop` leaves alone. -/
theorem wakeWaiters_frame (waiters : List ℕ) (s : State α) :
    Frame s (waiters.foldl wakeWaiter s) ∧ (waiters.foldl wakeWaiter s).queue = s.queue ∧
      (waiters.foldl wakeWaiter s).reserved = s.reserved ∧
      ∀ reserves, (waiters.foldl wakeWaiter s).unclaimed reserves = s.unclaimed reserves := by
  induction waiters generalizing s with
  | nil => exact ⟨.refl s, rfl, rfl, fun _ => rfl⟩
  | cons i waiters ih =>
    have hone : Frame s (s.wakeWaiter i) ∧ (s.wakeWaiter i).queue = s.queue ∧
        (s.wakeWaiter i).reserved = s.reserved ∧
        ∀ reserves, (s.wakeWaiter i).unclaimed reserves = s.unclaimed reserves := by
      unfold State.wakeWaiter
      split
      · rename_i f hf
        have hput := frame_put (g := { f with waker := none }) hf rfl
        refine ⟨⟨hput.capacity, hput.senders, hput.receiverAlive, hput.borrows⟩, rfl, rfl, ?_⟩
        exact unclaimed_put_same (g := { f with waker := none }) hf rfl rfl
      · exact ⟨.refl s, rfl, rfl, fun _ => rfl⟩
    obtain ⟨hframe, hqueue, hreserved, hunclaimed⟩ := ih (s.wakeWaiter i)
    exact ⟨hone.1.trans hframe, hqueue.trans hone.2.1, hreserved.trans hone.2.2.1,
      fun reserves => (hunclaimed reserves).trans (hone.2.2.2 reserves)⟩

theorem dropReceiver_frame (s : State α) : Frame { s with receiverAlive := false } s.dropReceiver ∧
    s.dropReceiver.queue = s.queue ∧ s.dropReceiver.reserved = s.reserved ∧
      ∀ reserves, s.dropReceiver.unclaimed reserves = s.unclaimed reserves := by
  obtain ⟨hframe, hqueue, hreserved, hunclaimed⟩ := wakeWaiters_frame s.sendWaiters { s with
    receiverAlive := false
    sendWaiters := [] }
  exact ⟨⟨hframe.capacity, hframe.senders, hframe.receiverAlive, hframe.borrows⟩, hqueue, hreserved,
    hunclaimed⟩

theorem Accounted.dropReceiver (h : s.Accounted permits 0) :
    s.dropReceiver.Accounted permits 0 := by
  obtain ⟨hframe, hqueue, hreserved, hunclaimed⟩ := dropReceiver_frame s
  refine ⟨?_, fun c hc => ?_, fun c hc halive => ?_⟩
  · rw [hreserved, hunclaimed]
    exact h.reserved
  · rw [hqueue, hreserved]
    exact h.capacity c (hframe.capacity.symm.trans hc)
  · rw [hframe.receiverAlive] at halive
    cases halive

/-- As long as there is a receiver, a waiter that was not granted is in the queue. -/
def Lined (s : State α) : Prop :=
  s.receiverAlive = true →
    ∀ i f, s.futures.get i = some f → f.registered = true → f.granted = false → i ∈ s.sendWaiters

theorem Lined.new (capacity : Option ℕ) : (State.new capacity : State α).Lined :=
  fun _ i f hf => by simp [State.new] at hf

/-- Only fields that the waiters do not depend on change. -/
theorem Lined.of_eq (h : s.Lined) (hfutures : s'.futures = s.futures)
    (hwaiters : s'.sendWaiters = s.sendWaiters) (halive : s'.receiverAlive = s.receiverAlive) :
    s'.Lined := by
  intro hopen i f hf
  rw [hwaiters]
  exact h (halive ▸ hopen) i f (hfutures ▸ hf)

/-- A future changes, and is still in the queue if it has to be. -/
theorem Lined.put (h : s.Lined) (hf : s.futures.get i = some f)
    (hg : g.registered = true → g.granted = false → i ∈ s.sendWaiters) : (s.put i g).Lined := by
  intro halive j k hk
  rw [get_put hf] at hk
  split_ifs at hk with hj
  · subst hj
    cases hk
    exact hg
  · exact h halive j k hk

theorem Lined.grant {rest : List ℕ} (h : s.Lined) (hwaiters : s.sendWaiters = i :: rest) :
    (State.grant { s with sendWaiters := rest } i).Lined := by
  have hrest : ∀ {j : ℕ}, j ∈ s.sendWaiters → j ≠ i → j ∈ rest := fun hj hne =>
    (List.mem_cons.mp (hwaiters ▸ hj)).resolve_left hne
  cases hf : s.futures.get i with
  | none =>
    simp only [State.grant, hf]
    refine fun halive j k hk hregistered hgranted => hrest (h halive j k hk hregistered hgranted) ?_
    rintro rfl
    cases hf.symm.trans hk
  | some f =>
    rw [grant_eq (s := { s with sendWaiters := rest }) hf]
    intro halive j k hk hregistered hgranted
    replace hk : (if j = i then some { f with granted := true, waker := none, woken := f.waker }
        else s.futures.get j) = some k := by
      rw [← get_put hf]
      exact hk
    split_ifs at hk with hj
    · cases hk
      cases hgranted
    · exact hrest (h halive j k hk hregistered hgranted) hj

theorem Lined.wakeOneSender (h : s.Lined) : s.wakeOneSender.Lined := by
  unfold State.wakeOneSender
  split_ifs
  · split
    · rename_i i rest hwaiters
      exact h.grant hwaiters
    · exact h
  · exact h

theorem Lined.push (h : s.Lined) (item : α) : (s.push item).Lined := h.of_eq rfl rfl rfl

theorem Lined.insert (h : s.Lined) (hi : s.futures.Vacant i) (hf : f.registered = false) :
    Lined { s with futures := s.futures.insert i f } := by
  intro halive j k hk
  simp only [Slab.get_insert hi] at hk
  split_ifs at hk
  · cases hk
    exact fun hregistered => absurd (hf.symm.trans hregistered) nofun
  · exact h halive j k hk

theorem Lined.wait (h : s.Lined) (hf : s.futures.get i = some f)
    (hg : g.registered = true → s.receiverAlive = true → i ∈ s.sendWaiters) (waker : ℕ) :
    (s.wait i g waker).Lined := by
  unfold State.wait
  split_ifs with hregistered
  · intro halive
    exact h.put hf (fun _ _ => hg hregistered halive) halive
  · intro halive j k hk hr hn
    replace hk : (if j = i then some { g with
          waker := some waker
          registered := true
          turn := s.linked } else s.futures.get j) = some k := by
      rw [← get_put hf]
      exact hk
    split_ifs at hk with hj
    · exact List.mem_append_right _ (List.mem_singleton.mpr hj)
    · exact List.mem_append_left _ (h halive j k hk hr hn)

theorem poll_closed (hclosed : s.receiverAlive = false)
    (hpoll : s.poll i f waker = some result) : result.1 = .closed := by
  unfold State.poll at hpoll
  split_ifs at hpoll
  · cases hpoll
    simp [State.pollReserve, hclosed]
  · obtain ⟨item, -, rfl⟩ := Option.map_eq_some_iff.mp hpoll
    simp [State.pollSend, hclosed]

theorem Lined.poll (h : s.Lined) (hf : s.futures.get i = some f)
    (hpoll : s.poll i (f.attempted s.linked) waker = some result) : result.2.Lined := by
  cases polled hpoll with
  | closed hclosed => exact fun halive => absurd (hclosed.symm.trans halive) nofun
  | claimSend => exact (h.put hf fun hr => absurd hr Bool.false_ne_true).push _
  | send _ _ _ hregistered =>
    refine (h.put (g := { f.attempted s.linked with item := none }) hf fun hr => ?_).push _
    exact absurd (hregistered.symm.trans hr) nofun
  | lost => exact h.wait hf (fun hr => absurd hr Bool.false_ne_true) waker
  | claimReserve => exact h.put hf fun hr => absurd hr Bool.false_ne_true
  | reserve _ _ hregistered =>
    exact (h.put hf fun hr => absurd (hregistered.symm.trans hr) nofun).of_eq rfl rfl rfl
  | wait hgranted =>
    exact h.wait (g := f.attempted s.linked) hf
      (fun hregistered halive => h halive i f hf hregistered hgranted) waker

theorem Lined.dropFuture (h : s.Lined) (i : ℕ) (f : Waiting α) : (s.dropFuture i f).Lined := by
  have hunlink : (s.unlink i f).Lined := by
    intro halive j k hk hregistered hgranted
    simp only [State.unlink, Slab.get_remove] at hk ⊢
    split_ifs at hk with hj
    have hmem := h halive j k hk hregistered hgranted
    split_ifs
    · exact List.mem_filter.mpr ⟨hmem, by simpa using hj⟩
    · exact hmem
  unfold State.dropFuture
  cases f.granted with
  | false => exact hunlink
  | true => exact Lined.wakeOneSender (hunlink.of_eq rfl rfl rfl)

end State

namespace System
variable {s s' : System α}

/-- What a step can do, one case for each way out of an operation. -/
inductive Steps (s : System α) : Label α → System α → Prop where
  | cloneSender {k j : ℕ} : s.senders.get k = some () → s.senders.Vacant j →
      Steps s (.cloneSender k j) { s with
        state := s.state.cloneSender
        senders := s.senders.insert j () }
  | dropSender {k : ℕ} : s.senders.get k = some () →
      (∀ i f, s.state.futures.get i = some f → f.sender ≠ k) →
      Steps s (.dropSender k) { s with
        state := s.state.dropSender
        senders := s.senders.remove k }
  | send {k i : ℕ} {item : α} : s.senders.get k = some () → s.state.futures.Vacant i →
      Steps s (.send k i item) { s with
        state := { s.state with futures := s.state.futures.insert i (.send k item) } }
  | reserve {k i : ℕ} : s.senders.get k = some () → s.state.futures.Vacant i →
      Steps s (.reserve k i) { s with
        state := { s.state with futures := s.state.futures.insert i (.reserve k) } }
  | refused {k : ℕ} {item : α} : Steps s (.trySend k item) s
  | trySend {k : ℕ} {item : α} : s.senders.get k = some () → s.state.receiverAlive = true →
      s.state.capacityAvailable = true → s.state.sendWaiters = [] →
      Steps s (.trySend k item) { s with
        state := s.state.push item
        accepted := s.accepted ++ [item] }
  | poll {i waker : ℕ} {f : Waiting α} {result : Outcome × State α} :
      s.state.futures.get i = some f →
      s.state.poll i (f.attempted s.state.linked) waker = some result →
      Steps s (.poll i true waker) { s with
        state := result.2
        permits := if result.1 = .permit then s.permits + 1 else s.permits
        accepted := if result.1 = .sent then s.accepted ++ f.item.toList else s.accepted }
  | yieldPoll {i waker : ℕ} : Steps s (.poll i false waker) (s.yield waker)
  | dropFuture {i : ℕ} {f : Waiting α} : s.state.futures.get i = some f →
      Steps s (.dropFuture i) { s with state := s.state.dropFuture i f }
  | permitSend {permits : ℕ} {item : α} : s.permits = permits + 1 →
      s.state.receiverAlive = true → Steps s (.permitSend item) { s with
        state := State.push { s.state with reserved := s.state.reserved - 1 } item
        permits := permits
        accepted := s.accepted ++ [item] }
  | permitClosed {permits : ℕ} {item : α} : s.permits = permits + 1 →
      s.state.receiverAlive = false → Steps s (.permitSend item) { s with
        state := { s.state with reserved := s.state.reserved - 1 }
        permits := permits }
  | dropPermit {permits : ℕ} : s.permits = permits + 1 → Steps s .dropPermit { s with
      state := s.state.dropPermit
      permits := permits }
  | recvItem {waker : ℕ} {item : α} {queue : List α} : s.receiver = .opened →
      s.state.queue = item :: queue → Steps s (.recv true waker) { s with
        state := State.wakeOneSender { s.state with queue := queue }
        delivered := s.delivered ++ [item] }
  | recvNone {waker : ℕ} : s.receiver = .opened → s.state.queue = [] → s.state.senders = 0 →
      Steps s (.recv true waker) { s with receiver := .ended }
  | recvPending {waker : ℕ} : s.receiver = .opened → s.state.queue = [] →
      s.state.senders ≠ 0 → Steps s (.recv true waker) { s with
        state := { s.state with recvWaker := some waker } }
  | recvPanics {waker : ℕ} : s.receiver = .ended → Steps s (.recv true waker) { s with
      panicked := true }
  | yieldRecv {waker : ℕ} : Steps s (.recv false waker) (s.yield waker)
  | dropReceiver : s.receiver = .opened → Steps s .dropReceiver { s with
      state := s.state.dropReceiver
      receiver := .dropped }
  | dropEnded : s.receiver = .ended → Steps s .dropReceiver { s with receiver := .dropped }

theorem get_eq_some_unit {senders : Slab Unit} {k : ℕ} (h : (senders.get k).isSome = true) :
    senders.get k = some () := by
  obtain ⟨⟨⟩, hk⟩ := Option.isSome_iff_exists.mp h
  exact hk

theorem recv_cons {s : State α} {waker : ℕ} {item : α} {queue : List α}
    (h : s.queue = item :: queue) :
    s.recv waker = (.item item, State.wakeOneSender { s with queue := queue }) := by
  unfold State.recv
  split
  · rename_i item' queue' hqueue
    cases h.symm.trans hqueue
    rfl
  · simp_all

theorem recv_nil {s : State α} {waker : ℕ} (h : s.queue = []) :
    s.recv waker = if s.senders = 0 then (.none, s)
      else (.pending, { s with recvWaker := some waker }) := by
  unfold State.recv
  split
  · simp_all
  · rfl

theorem Steps.of_pollRecv {waker : ℕ} (hstep : s.pollRecv waker = some s') :
    Steps s (.recv true waker) s' := by
  unfold pollRecv at hstep
  split at hstep
  · rename_i hreceiver
    cases hqueue : s.state.queue with
    | cons item queue =>
      rw [recv_cons hqueue] at hstep
      cases hstep
      exact .recvItem hreceiver hqueue
    | nil =>
      rw [recv_nil hqueue] at hstep
      by_cases hsenders : s.state.senders = 0
      · rw [if_pos hsenders] at hstep
        cases hstep
        exact .recvNone hreceiver hqueue hsenders
      · rw [if_neg hsenders] at hstep
        cases hstep
        exact .recvPending hreceiver hqueue hsenders
  · rename_i hreceiver
    cases hstep
    exact .recvPanics hreceiver
  · cases hstep

variable {a : Label α}

theorem Steps.of_eq (hstep : s.step a = some s') : Steps s a s' := by
  cases a with
  | cloneSender k j =>
    simp only [System.step] at hstep
    split_ifs at hstep with henabled
    cases hstep
    exact .cloneSender (get_eq_some_unit henabled.1) henabled.2
  | dropSender k =>
    simp only [System.step] at hstep
    split_ifs at hstep with henabled
    cases hstep
    refine .dropSender (get_eq_some_unit henabled.1) fun i f hf => ?_
    have := List.all_eq_true.mp henabled.2 f (Slab.mem_values.mpr ⟨i, hf⟩)
    simpa using this
  | send k i item =>
    simp only [System.step, System.start] at hstep
    split_ifs at hstep with henabled
    cases hstep
    exact .send (get_eq_some_unit henabled.1) henabled.2
  | reserve k i =>
    simp only [System.step, System.start] at hstep
    split_ifs at hstep with henabled
    cases hstep
    exact .reserve (get_eq_some_unit henabled.1) henabled.2
  | trySend k item =>
    simp only [System.step, State.trySend] at hstep
    split_ifs at hstep with henabled hrefused
    · cases hstep
      exact .refused
    · simp only [not_or, Decidable.not_not, Bool.not_eq_true', Bool.not_eq_false] at hrefused
      cases hstep
      exact .trySend (get_eq_some_unit henabled) hrefused.1 hrefused.2.1 hrefused.2.2
  | poll i proceed waker =>
    obtain ⟨f, hf, hpoll⟩ := Option.bind_eq_some_iff.mp hstep
    cases proceed with
    | true =>
      obtain ⟨result, hresult, rfl⟩ := Option.map_eq_some_iff.mp hpoll
      exact .poll hf hresult
    | false =>
      cases hpoll
      exact .yieldPoll
  | dropFuture i =>
    obtain ⟨f, hf, rfl⟩ := Option.map_eq_some_iff.mp hstep
    exact .dropFuture hf
  | permitSend item =>
    simp only [System.step] at hstep
    by_cases hpos : 0 < s.permits
    · have hpermits : s.permits = s.permits - 1 + 1 := by omega
      rw [if_pos hpos] at hstep
      cases halive : s.state.receiverAlive with
      | true =>
        have hsend : s.state.permitSend item =
            (true, State.push { s.state with reserved := s.state.reserved - 1 } item) :=
          if_neg (by simp [halive])
        rw [hsend] at hstep
        cases hstep
        exact .permitSend hpermits halive
      | false =>
        have hsend : s.state.permitSend item =
            (false, { s.state with reserved := s.state.reserved - 1 }) :=
          if_pos (by simp [halive])
        rw [hsend] at hstep
        cases hstep
        exact .permitClosed hpermits halive
    · rw [if_neg hpos] at hstep
      cases hstep
  | dropPermit =>
    simp only [System.step] at hstep
    split_ifs at hstep with hpos
    cases hstep
    exact .dropPermit (by omega)
  | recv proceed waker =>
    cases proceed with
    | true => exact .of_pollRecv hstep
    | false =>
      simp only [System.step, Bool.false_eq_true, ↓reduceIte] at hstep
      split_ifs at hstep
      cases hstep
      exact .yieldRecv
  | dropReceiver =>
    simp only [System.step] at hstep
    cases hreceiver : s.receiver with
    | opened =>
      rw [hreceiver] at hstep
      cases hstep
      exact .dropReceiver hreceiver
    | ended =>
      rw [hreceiver] at hstep
      cases hstep
      exact .dropEnded hreceiver
    | dropped =>
      rw [hreceiver] at hstep
      cases hstep

theorem linked_step (h : s.state.Linked) (hstep : s.step a = some s') :
    s'.state.Linked := by
  cases Steps.of_eq hstep with
  | @send k i item _ hvacant | @reserve k i _ hvacant =>
    refine h.insert hvacant ⟨fun hi => ?_, nofun, nofun, nofun⟩
    obtain ⟨f, hf⟩ := h.live i hi
    have := hvacant.2
    simp [hf] at this
  | trySend => exact h.push _
  | poll hf hpoll => exact h.poll hf hpoll
  | yieldPoll | yieldRecv => exact h.of_eq rfl rfl rfl rfl (List.subset_append_left ..)
  | dropFuture hf => exact h.dropFuture hf
  | permitSend =>
    exact (h.of_eq rfl rfl rfl rfl (List.Subset.refl _) : State.Linked { s.state with
      reserved := s.state.reserved - 1 }).push _
  | dropPermit | recvItem =>
    refine State.Linked.wakeOneSender ?_
    exact h.of_eq rfl rfl rfl rfl (List.Subset.refl _)
  | dropSender =>
    unfold State.dropSender
    dsimp only
    split_ifs
    · exact h.of_eq rfl rfl rfl rfl (List.subset_append_left ..)
    · exact h.of_eq rfl rfl rfl rfl (List.Subset.refl _)
  | dropReceiver => exact h.dropReceiver
  | cloneSender | permitClosed | recvPending =>
    exact h.of_eq rfl rfl rfl rfl (List.Subset.refl _)
  | refused | recvNone | recvPanics | dropEnded => exact h

theorem accounted_step (h : s.state.Accounted s.permits 0) (hlinked : s.state.Linked)
    (hstep : s.step a = some s') : s'.state.Accounted s'.permits 0 := by
  cases Steps.of_eq hstep with
  | send _ hvacant | reserve _ hvacant => exact h.insert hvacant rfl
  | trySend _ _ havailable hwaiters =>
    exact State.Accounted.push h.reserved (State.capacityAvailable_eq_true.mp havailable)
      (fun _ _ _ hne => absurd hwaiters hne) _
  | @poll i waker f result hf hpoll =>
    exact h.poll (g := f.attempted s.state.linked) hf rfl rfl hpoll
  | dropFuture hf => exact h.dropFuture hlinked hf
  | permitSend hpermits =>
    rw [hpermits] at h
    exact h.permitSend _
  | permitClosed hpermits hclosed =>
    rw [hpermits] at h
    refine ⟨h.release.1.reserved, h.release.1.capacity, fun c _ halive => ?_⟩
    have : s.state.receiverAlive = true := halive
    simp [hclosed] at this
  | dropPermit hpermits =>
    rw [hpermits] at h
    exact h.dropPermit hlinked
  | recvItem _ hqueue => exact h.pop hlinked hqueue
  | dropSender =>
    unfold State.dropSender
    dsimp only
    split_ifs
    · exact ⟨h.reserved, h.capacity, h.served⟩
    · exact ⟨h.reserved, h.capacity, h.served⟩
  | dropReceiver => exact h.dropReceiver
  | cloneSender | yieldPoll | yieldRecv | recvPending => exact ⟨h.reserved, h.capacity, h.served⟩
  | refused | recvNone | recvPanics | dropEnded => exact h

theorem history_step (h : s.accepted = s.delivered ++ s.state.queue)
    (hstep : s.step a = some s') : s'.accepted = s'.delivered ++ s'.state.queue := by
  cases Steps.of_eq hstep with
  | trySend | permitSend =>
    change s.accepted ++ [_] = s.delivered ++ (s.state.queue ++ [_])
    rw [h, List.append_assoc]
  | @poll i waker f result hf hpoll =>
    have hqueue := State.queue_poll hpoll
    change (if result.1 = .sent then s.accepted ++ f.item.toList else s.accepted) =
      s.delivered ++ result.2.queue
    rw [hqueue, h]
    split_ifs
    · rw [List.append_assoc]
      rfl
    · rw [List.append_nil]
  | dropFuture =>
    rw [h]
    exact congrArg (s.delivered ++ ·) (State.queue_dropFuture ..).symm
  | dropPermit =>
    rw [h]
    exact congrArg (s.delivered ++ ·) (State.queue_dropPermit ..).symm
  | recvItem _ hqueue =>
    rw [h, hqueue, State.queue_wakeOneSender]
    simp
  | dropSender =>
    rw [h]
    unfold State.dropSender
    dsimp only
    split_ifs <;> rfl
  | dropReceiver =>
    rw [h]
    exact congrArg (s.delivered ++ ·) (State.dropReceiver_frame s.state).2.1.symm
  | cloneSender | send | reserve | refused | yieldPoll | permitClosed | recvNone | recvPending
  | recvPanics | yieldRecv | dropEnded => exact h

theorem lined_step (h : s.state.Lined) (hstep : s.step a = some s') :
    s'.state.Lined := by
  cases Steps.of_eq hstep with
  | send _ hvacant | reserve _ hvacant => exact h.insert hvacant rfl
  | trySend => exact h.push _
  | poll hf hpoll => exact h.poll hf hpoll
  | dropFuture => exact h.dropFuture _ _
  | permitSend =>
    exact (h.of_eq rfl rfl rfl : State.Lined { s.state with
      reserved := s.state.reserved - 1 }).push _
  | dropPermit | recvItem => exact State.Lined.wakeOneSender (h.of_eq rfl rfl rfl)
  | dropSender =>
    unfold State.dropSender
    dsimp only
    split_ifs <;> exact h.of_eq rfl rfl rfl
  | dropReceiver =>
    intro halive
    rw [(State.dropReceiver_frame s.state).1.receiverAlive] at halive
    cases halive
  | cloneSender | yieldPoll | yieldRecv | permitClosed | recvPending => exact h.of_eq rfl rfl rfl
  | refused | recvNone | recvPanics | dropEnded => exact h

/-- The handles of the channel: `Sender`s are counted, and futures borrow live ones. -/
structure Handles (capacity : Option ℕ) (s : System α) : Prop where
  capacity : s.state.capacity = capacity
  alive : s.receiver = .opened → s.state.receiverAlive = true
  senders : s.state.senders = s.senders.weight fun _ => 1
  borrows : ∀ i f, s.state.futures.get i = some f → s.senders.get f.sender = some ()

variable {capacity : Option ℕ}

theorem Handles.new (capacity : Option ℕ) : Handles capacity (System.new capacity : System α) := by
  refine ⟨rfl, fun _ => rfl, rfl, fun i f hf => ?_⟩
  simp [System.new, State.new] at hf

/-- Futures keep the `Sender` that they borrow. -/
theorem Handles.frame (h : Handles capacity s) {state : State α}
    (hframe : State.Frame s.state state)
    (permits : ℕ) (accepted delivered : List α) :
    Handles capacity { s with
      state := state
      permits := permits
      accepted := accepted
      delivered := delivered } := by
  refine ⟨hframe.capacity.trans h.capacity, fun hopened => ?_, hframe.senders.trans h.senders,
    fun i g hg => ?_⟩
  · exact hframe.receiverAlive.trans (h.alive hopened)
  · obtain ⟨f, hf, hsender⟩ := hframe.borrows i g hg
    dsimp only
    rw [hsender]
    exact h.borrows i f hf

theorem Handles.insert (h : Handles capacity s) {k i : ℕ} {f : Waiting α}
    (hk : s.senders.get k = some ()) (hvacant : s.state.futures.Vacant i) (hsender : f.sender = k) :
    Handles capacity { s with
      state := { s.state with futures := s.state.futures.insert i f } } := by
  refine ⟨h.capacity, h.alive, h.senders, fun j g hg => ?_⟩
  simp only [Slab.get_insert hvacant] at hg
  split_ifs at hg
  · cases hg
    dsimp only
    rw [hsender]
    exact hk
  · exact h.borrows j g hg

theorem Handles.step {a : Label α} (h : Handles capacity s) (hstep : s.step a = some s') :
    Handles capacity s' := by
  cases Steps.of_eq hstep with
  | @cloneSender k j _ hvacant =>
    refine ⟨h.capacity, h.alive, ?_, fun i f hf => ?_⟩
    · rw [Slab.weight_insert _ hvacant, ← h.senders]
      rfl
    · simp only [Slab.get_insert hvacant]
      split_ifs
      · rfl
      · exact h.borrows i f hf
  | @dropSender k hk hfree =>
    have hweight := Slab.weight_remove (fun _ : Unit => 1) hk
    have hborrows : ∀ i f, s.state.futures.get i = some f →
        (s.senders.remove k).get f.sender = some () := by
      intro i f hf
      simp [hfree i f hf, h.borrows i f hf]
    have hsenders : s.state.senders - 1 = (s.senders.remove k).weight fun _ => 1 := by
      rw [h.senders]
      omega
    unfold State.dropSender
    dsimp only
    split_ifs
    · exact ⟨h.capacity, h.alive, hsenders, hborrows⟩
    · exact ⟨h.capacity, h.alive, hsenders, hborrows⟩
  | send hk hvacant | reserve hk hvacant => exact h.insert hk hvacant rfl
  | trySend => exact h.frame (State.frame_push ..) _ _ _
  | @poll i waker f result hf hpoll =>
    exact h.frame (State.frame_poll (g := f.attempted s.state.linked) hf rfl hpoll) _ _ _
  | dropFuture => exact h.frame (State.frame_dropFuture ..) _ _ _
  | permitSend => exact h.frame (State.frame_permitSend ..) _ _ _
  | dropPermit => exact h.frame (State.frame_dropPermit ..) _ _ _
  | recvItem => exact h.frame (State.frame_pop ..) _ _ _
  | recvNone | dropEnded => exact ⟨h.capacity, nofun, h.senders, h.borrows⟩
  | dropReceiver =>
    obtain ⟨hframe, -⟩ := State.dropReceiver_frame s.state
    refine ⟨hframe.capacity.trans h.capacity, nofun, hframe.senders.trans h.senders, fun i g hg => ?_⟩
    obtain ⟨f, hf, hsender⟩ := hframe.borrows i g hg
    dsimp only
    rw [hsender]
    exact h.borrows i f hf
  | yieldPoll | yieldRecv | permitClosed | recvPending =>
    exact ⟨h.capacity, h.alive, h.senders, h.borrows⟩
  | refused | recvPanics => exact ⟨h.capacity, h.alive, h.senders, h.borrows⟩

structure Sound (capacity : Option ℕ) (s : System α) : Prop extends Handles capacity s where
  linked : s.state.Linked
  lined : s.state.Lined
  accounted : s.state.Accounted s.permits 0
  history : s.accepted = s.delivered ++ s.state.queue

theorem Sound.new (capacity : Option ℕ) : Sound capacity (System.new capacity : System α) :=
  ⟨.new capacity, .new capacity, .new capacity, .new capacity, rfl⟩

theorem Sound.step {a : Label α} (h : Sound capacity s) (hstep : s.step a = some s') :
    Sound capacity s' :=
  ⟨h.toHandles.step hstep, linked_step h.linked hstep, lined_step h.lined hstep,
    accounted_step h.accounted h.linked hstep, history_step h.history hstep⟩

theorem sound_of_reachable {guard : System α → Label α → Prop}
    (h : Reachable System.step guard (.new capacity) s) : Sound capacity s := by
  apply h.invariant (I := Sound capacity) (.new capacity)
  intro s a s' hsound _ hstep
  exact hsound.step hstep

/-- The slots of a channel of this capacity, and the order of the items. -/
structure Balanced (capacity : ℕ) (s : System α) : Prop where
  slots : s.state.queue.length + s.state.reserved ≤ capacity
  reserved : s.state.reserved = s.permits + s.state.unclaimed true
  /-- Every item that was accepted was delivered or waits in the queue, in order and once. -/
  items : s.accepted = s.delivered ++ s.state.queue

theorem balanced_of_reachable {capacity : ℕ}
    (h : Reachable System.step anyStep (.new (some capacity)) s) : Balanced capacity s := by
  have hsound := sound_of_reachable h
  exact ⟨hsound.accounted.capacity capacity hsound.capacity, hsound.accounted.reserved,
    hsound.history⟩

/-- A `Send` loses its grant to a `try_send`, waits again behind a `Reserve`, and the `Reserve` is
granted. -/
theorem lost_grant_balanced :
    ∃ s : System ℕ, Reachable System.step anyStep (.new (some 1)) s ∧ s.state.sendWaiters = [0] ∧
      s.state.reserved = 1 ∧ s.delivered = [10, 30] ∧ Balanced 1 s := by
  have hrun : (run (guarded System.step anyStep) (.new (some 1) : System ℕ)
      [.trySend 0 10, .send 0 0 20, .poll 0 true 5, .recv true 9, .trySend 0 30, .reserve 0 1,
        .poll 1 true 6, .poll 0 true 5, .recv true 9]).any
        (fun s => decide (s.state.sendWaiters = [0]) && decide (s.state.reserved = 1) &&
          decide (s.delivered = [10, 30])) = true := by
    decide +kernel
  obtain ⟨s, hreach, hs⟩ := exists_reachable_of_run hrun
  simp only [Bool.and_eq_true, decide_eq_true_eq] at hs
  exact ⟨s, hreach, hs.1.1, hs.1.2, hs.2, balanced_of_reachable hreach⟩

/-- The free slots are promised to `Send`s that were granted and woken. -/
structure Promised (capacity : ℕ) (s : System α) : Prop where
  promised : s.receiver = .opened → s.state.sendWaiters ≠ [] →
    capacity - s.state.queue.length - s.state.reserved ≤ s.state.unclaimed false
  woken : ∀ i f, s.state.futures.get i = some f → f.granted = true →
    ∃ waker ∈ s.state.wakes, f.woken = some waker

theorem promised_of_reachable {capacity : ℕ}
    (h : Reachable System.step anyStep (.new (some capacity)) s) : Promised capacity s := by
  have hsound := sound_of_reachable h
  refine ⟨fun hopened hne => ?_, fun i f hf hgranted => ?_⟩
  · have := hsound.accounted.served capacity hsound.capacity (hsound.alive hopened) hne
    omega
  · exact ((hsound.linked.fits i f hf).granted hgranted).2.2

/-- Two slots become free while three `Send`s wait. -/
theorem two_slots_promised :
    ∃ s : System ℕ, Reachable System.step anyStep (.new (some 2)) s ∧ s.state.sendWaiters = [2] ∧
      s.state.queue = [] ∧ s.state.unclaimed false = 2 ∧ Promised 2 s := by
  have hrun : (run (guarded System.step anyStep) (.new (some 2) : System ℕ)
      [.trySend 0 10, .trySend 0 20, .send 0 0 30, .poll 0 true 5, .send 0 1 40, .poll 1 true 6,
        .send 0 2 50, .poll 2 true 7, .recv true 9, .recv true 9]).any
        (fun s => decide (s.state.sendWaiters = [2]) && decide (s.state.queue = []) &&
          decide (s.state.unclaimed false = 2)) = true := by
    decide +kernel
  obtain ⟨s, hreach, hs⟩ := exists_reachable_of_run hrun
  simp only [Bool.and_eq_true, decide_eq_true_eq] at hs
  exact ⟨s, hreach, hs.1.1, hs.1.2, hs.2, promised_of_reachable hreach⟩

/-- When the operation was first attempted that places its item or gets its `Permit` in a step:
how many waiters had registered before. -/
def serves (s : System α) : Label α → Option ℕ
  | .trySend _ item => (s.state.trySend item).map fun _ => s.state.linked
  | .poll i true waker =>
    (s.state.futures.get i).bind fun f =>
      (s.state.poll i (f.attempted s.state.linked) waker).bind fun result =>
        if result.1 = .sent ∨ result.1 = .permit then (f.attempted s.state.linked).attempt else none
  | _ => none

/-- Each of the first `n` waiters that is there and still registered was granted and woken. -/
def Called (s : System α) (n : ℕ) : Prop :=
  ∀ j g, s.state.futures.get j = some g → g.registered = true → g.turn < n →
    g.granted = true ∧ ∃ waker ∈ s.state.wakes, g.woken = some waker

/-- Nobody is granted or served before those are granted and woken that had registered before the
first attempt. -/
structure InTurn (s : System α) : Prop where
  granted : s.state.receiverAlive = true → ∀ i f n, s.state.futures.get i = some f →
    f.granted = true → f.attempt = some n → s.Called n
  served : ∀ a n, s.serves a = some n → s.Called n
  /-- A waiter that was granted and is polled gets its `Permit`, or places its item if there is
  still a slot for it. -/
  claims : ∀ i f waker result, s.state.futures.get i = some f → f.granted = true →
    s.state.receiverAlive = true →
    s.state.poll i (f.attempted s.state.linked) waker = some result →
    (f.reserves = true → result.1 = .permit) ∧
      (f.reserves = false → (result.1 = .sent ↔ s.state.capacityAvailable = true))

/-- Who is not in the queue any more was granted and woken. -/
theorem called_of_queue (hlinked : s.state.Linked) (hlined : s.state.Lined)
    (halive : s.state.receiverAlive = true) {n : ℕ}
    (hqueue : ∀ j ∈ s.state.sendWaiters, n ≤ s.state.turn j) : s.Called n := by
  intro j g hg hregistered hturn
  have hgranted : g.granted = true := by
    by_contra hwaits
    have hle := hqueue j (hlined halive j g hg hregistered (by simpa using hwaits))
    simp only [State.turn, hg, Option.elim_some] at hle
    omega
  exact ⟨hgranted, ((hlinked.fits j g hg).granted hgranted).2.2⟩

theorem turn_of_granted (h : s.state.Linked) {i j n : ℕ} {f : Waiting α} (hf : s.state.Fits i f)
    (hgranted : f.granted = true) (hn : f.attempt = some n) (hj : j ∈ s.state.sendWaiters) :
    n ≤ s.state.turn j := by
  obtain ⟨hregistered, hturn, -⟩ := hf.granted hgranted
  obtain ⟨m, hm, hle⟩ := hf.registered hregistered
  obtain rfl : m = n := Option.some.inj (hm.symm.trans hn)
  have horder := (List.pairwise_append.mp (List.pairwise_append.mp h.order).1).2.2
  have := horder f.turn hturn (s.state.turn j) (List.mem_map_of_mem hj)
  omega

/-- Who is served finds a receiver, and an earlier attempt than those of the waiters in the queue. -/
theorem queue_of_serves (h : s.state.Linked) {a : Label α} {n : ℕ} (hserves : s.serves a = some n) :
    s.state.receiverAlive = true ∧ ∀ j ∈ s.state.sendWaiters, n ≤ s.state.turn j := by
  cases a with
  | trySend k item =>
    obtain ⟨state, htry, -⟩ := Option.map_eq_some_iff.mp hserves
    unfold State.trySend at htry
    split_ifs at htry with hrefused
    simp only [not_or, Decidable.not_not, Bool.not_eq_true, Bool.not_eq_false'] at hrefused
    exact ⟨hrefused.1, by simp [hrefused.2.2]⟩
  | poll i proceed waker =>
    cases proceed with
    | false => cases hserves
    | true =>
      obtain ⟨f, hf, hserves⟩ := Option.bind_eq_some_iff.mp hserves
      obtain ⟨result, hpoll, hserves⟩ := Option.bind_eq_some_iff.mp hserves
      split_ifs at hserves with hserved
      have hfits := (h.fits i f hf).attempted
      have halive : s.state.receiverAlive = true := by
        by_contra hclosed
        rw [State.poll_closed (by simpa using hclosed) hpoll] at hserved
        simp at hserved
      refine ⟨halive, fun j hj => ?_⟩
      cases State.polled hpoll with
      | claimSend _ _ hgranted
      | claimReserve _ hgranted => exact turn_of_granted h hfits hgranted hserves hj
      | send _ _ _ _ hwaiters | reserve _ _ _ hwaiters => simp [hwaiters] at hj
      | closed | lost | wait => simp at hserved
  | cloneSender | dropSender | send | reserve | dropFuture | permitSend | dropPermit | recv
  | dropReceiver => cases hserves

theorem inTurn_of_linked (h : s.state.Linked) (hlined : s.state.Lined) : s.InTurn := by
  refine ⟨fun halive i f n hf hgranted hn => ?_, fun a n hserves => ?_,
    fun i f waker result hf hgranted halive hpoll => ?_⟩
  · exact called_of_queue h hlined halive fun j hj =>
      turn_of_granted h (h.fits i f hf) hgranted hn hj
  · obtain ⟨halive, hqueue⟩ := queue_of_serves h hserves
    exact called_of_queue h hlined halive hqueue
  · have hgranted' : (f.attempted s.state.linked).granted = true := hgranted
    cases State.polled hpoll with
    | closed hclosed => simp [halive] at hclosed
    | claimSend hsend _ _ havailable | lost hsend _ havailable =>
      have hsend : f.reserves = false := hsend
      simp [hsend, havailable]
    | claimReserve hreserve =>
      have hreserve : f.reserves = true := hreserve
      simp [hreserve]
    | send _ _ hnot | reserve _ hnot | wait hnot => simp [hgranted'] at hnot

theorem inTurn_of_reachable {capacity : ℕ}
    (h : Reachable System.step anyStep (.new (some capacity)) s) : s.InTurn :=
  inTurn_of_linked (sound_of_reachable h).linked (sound_of_reachable h).lined

/-- A `Send` was granted while a `Reserve` that was first polled later still waits. -/
theorem later_reserve_waits :
    ∃ s : System ℕ, Reachable System.step anyStep (.new (some 1)) s ∧ s.state.grants = [0] ∧
      s.state.sendWaiters = [1] ∧ s.InTurn := by
  have hrun : (run (guarded System.step anyStep) (.new (some 1) : System ℕ)
      [.trySend 0 10, .send 0 0 20, .poll 0 true 5, .reserve 0 1, .poll 1 true 6,
        .recv true 9]).any (fun s => decide (s.state.grants = [0]) &&
          decide (s.state.sendWaiters = [1])) = true := by
    decide +kernel
  obtain ⟨s, hreach, hs⟩ := exists_reachable_of_run hrun
  simp only [Bool.and_eq_true, decide_eq_true_eq] at hs
  exact ⟨s, hreach, hs.1, hs.2, inTurn_of_reachable hreach⟩

/-- A waiter that registered before the first attempt of another operation, and is polled
afterwards, has placed its item or got its `Permit` before the other. -/
def NotOvertaken (s : System α) : Prop :=
  ∀ a s' t n i f waker, s.step a = some s' → s.serves a = some n →
    s.state.futures.get i = some f → f.registered = true → f.turn < n →
    s'.step (.poll i true waker) = some t → False

/-- A `try_send` takes the slot for which a `Send` was woken. -/
theorem granted_send_overtaken :
    ¬ ∀ s : System ℕ, Reachable System.step anyStep (.new (some 1)) s → s.NotOvertaken := by
  intro h
  have hrun : (run (guarded System.step anyStep) (.new (some 1) : System ℕ)
      [.trySend 0 10, .send 0 0 20, .poll 0 true 5, .recv true 9]).any
        (fun s => (s.serves (.trySend 0 30) == some 1) &&
          ((s.state.futures.get 0).any fun f => f.registered && f.turn == 0) &&
          ((s.step (.trySend 0 30)).any fun s' => (s'.step (.poll 0 true 5)).isSome)) = true := by
    decide +kernel
  obtain ⟨s, hreach, hs⟩ := exists_reachable_of_run hrun
  simp only [Bool.and_eq_true, beq_iff_eq, Option.any_eq_true, Option.isSome_iff_exists] at hs
  obtain ⟨⟨hserves, f, hf, hregistered, hturn⟩, s', hstep, t, hpoll⟩ := hs
  exact h s hreach (.trySend 0 30) s' t 1 0 f 5 hstep hserves hf hregistered (by omega) hpoll

end System

end Eddy.Mpsc
