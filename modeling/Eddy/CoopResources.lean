import Eddy.BroadcastClose
import Eddy.CoopOperations
import Eddy.Mpsc
import Eddy.NotifyAccounting
import Eddy.RwLock
import Eddy.Semaphore
import Eddy.WatchClose

/-!
# The operations on the resources

What each operation does with budget when its resource is not ready: it registers itself, and
every other operation that has to wait for the resource goes on waiting as before.
-/

namespace Eddy.Coop

variable {α : Type} {waker : ℕ}

/-- The poll with budget of a `Recv`, and of a `Send` or `Reserve` future. -/
def pollChannel (waker : ℕ) : Option ℕ → Mpsc.State α → Option (Bool × Mpsc.State α)
  | none, s =>
    match s.recv waker with
    | (.pending, s) => some (false, s)
    | (.item _, s) | (.none, s) => some (true, s)
  | some i, s =>
    (s.futures.get i).bind fun f =>
      (s.poll i (f.attempted s.linked) waker).map fun (outcome, s) => (outcome != .pending, s)

def channelHas : Option ℕ → Mpsc.State α → Prop
  | none, s => s.recvWaker.isSome
  | some i, s => ∃ f, s.futures.get i = some f ∧ f.registered = true

def ungranted (f : Mpsc.Waiting α) : Mpsc.Waiting α :=
  { f with
    granted := false
    registered := if f.granted then false else f.registered }

/-- The channel lets the future in without a grant. -/
abbrev Lets (s : Mpsc.State α) (f : Mpsc.Waiting α) : Prop :=
  !f.registered ∧ s.sendWaiters = [] ∧ s.capacityAvailable

/-- The poll of the future finds no place for it. -/
structure ChannelBlocks (s : Mpsc.State α) (f : Mpsc.Waiting α) : Prop where
  alive : s.receiverAlive = true
  item : f.reserves = false → f.item.isSome
  granted : f.granted = true → f.reserves = false ∧ s.capacityAvailable = false
  shut : ¬ Lets s (ungranted f)

section Channel
variable {s s' : Mpsc.State α} {i : ℕ} {f : Mpsc.Waiting α}

theorem pollChannel_recv : pollChannel waker none s = some (false, s') ↔
    s.queue = [] ∧ s.senders ≠ 0 ∧ { s with recvWaker := some waker } = s' := by
  simp only [pollChannel, Mpsc.State.recv]
  cases s.queue with
  | cons item queue => simp
  | nil => by_cases hsenders : s.senders = 0 <;> simp [hsenders]

theorem ungranted_of_not_granted (h : ¬ f.granted = true) : ungranted f = f := by
  obtain ⟨item, reserves, granted, fwaker, registered, sender, attempt, turn, woken⟩ := f
  obtain rfl : granted = false := by simpa using h
  rfl

theorem pollReserve_eq_pending : s.pollReserve i f waker = (.pending, s') ↔
    s.receiverAlive = true ∧ ¬ f.granted = true ∧ ¬ Lets s f ∧ s.wait i f waker = s' := by
  rw [Mpsc.State.pollReserve]
  by_cases halive : s.receiverAlive = true
  · rw [if_neg (by simp [halive])]
    by_cases hgranted : f.granted = true
    · simp [hgranted]
    · rw [if_neg hgranted]
      by_cases hlets : Lets s f
      · rw [if_pos hlets]
        exact iff_of_false nofun fun h => h.2.2.1 hlets
      · rw [if_neg hlets, Prod.mk_right_inj]
        exact ⟨fun h => ⟨halive, hgranted, hlets, h⟩, fun h => h.2.2.2⟩
  · simp [halive]

theorem pollSend_eq_pending {item : α} : s.pollSend i f item waker = (.pending, s') ↔
    s.receiverAlive = true ∧ ¬ (f.granted ∧ s.capacityAvailable) ∧ ¬ Lets s (ungranted f) ∧
      s.wait i (ungranted f) waker = s' := by
  rw [Mpsc.State.pollSend]
  by_cases halive : s.receiverAlive = true
  · rw [if_neg (by simp [halive])]
    by_cases hgranted : f.granted ∧ s.capacityAvailable
    · simp [hgranted]
    · rw [if_neg hgranted]
      change (if Lets s (ungranted f) then (Mpsc.Outcome.sent,
        (s.put i { ungranted f with item := none }).push item)
        else (Mpsc.Outcome.pending, s.wait i (ungranted f) waker)) = _ ↔ _
      by_cases hlets : Lets s (ungranted f)
      · rw [if_pos hlets]
        exact iff_of_false nofun fun h => h.2.2.1 hlets
      · rw [if_neg hlets, Prod.mk_right_inj]
        exact ⟨fun h => ⟨halive, hgranted, hlets, h⟩, fun h => h.2.2.2⟩
  · simp [halive]

theorem poll_eq_pending : s.poll i f waker = some (.pending, s') ↔
    ChannelBlocks s f ∧ s.wait i (ungranted f) waker = s' := by
  rw [Mpsc.State.poll]
  constructor
  · intro h
    split_ifs at h with hreserves
    · obtain ⟨halive, hgranted, hlets, hs⟩ := pollReserve_eq_pending.mp (Option.some.inj h)
      rw [ungranted_of_not_granted hgranted]
      refine ⟨⟨halive, by simp [hreserves], by simp [hgranted], ?_⟩, hs⟩
      rwa [ungranted_of_not_granted hgranted]
    · obtain ⟨item, hitem, hsend⟩ := Option.map_eq_some_iff.mp h
      obtain ⟨halive, hgranted, hlets, hs⟩ := pollSend_eq_pending.mp hsend
      refine ⟨⟨halive, by simp [hitem], fun hf => ⟨by simpa using hreserves, ?_⟩, hlets⟩, hs⟩
      simpa [hf] using hgranted
  · rintro ⟨⟨halive, hitem, hgranted, hlets⟩, hs⟩
    split_ifs with hreserves
    · have hfalse : ¬ f.granted = true := fun hf => by simp [(hgranted hf).1] at hreserves
      rw [ungranted_of_not_granted hfalse] at hlets hs
      rw [pollReserve_eq_pending.mpr ⟨halive, hfalse, hlets, hs⟩]
    · obtain ⟨item, hitem⟩ := Option.isSome_iff_exists.mp (hitem (by simpa using hreserves))
      rw [hitem, Option.map_some, Option.some_inj]
      refine pollSend_eq_pending.mpr ⟨halive, fun hboth => ?_, hlets, hs⟩
      simp [(hgranted hboth.1).2] at hboth

theorem pollChannel_future : pollChannel waker (some i) s = some (false, s') ↔
    ∃ f, s.futures.get i = some f ∧ ChannelBlocks s f ∧
      s.wait i (ungranted (f.attempted s.linked)) waker = s' := by
  simp only [pollChannel, Option.bind_eq_some_iff, Option.map_eq_some_iff]
  constructor
  · rintro ⟨f, hf, ⟨outcome, state⟩, hpoll, heq⟩
    simp only [Prod.mk.injEq, bne_eq_false_iff_eq] at heq
    obtain ⟨rfl, rfl⟩ := heq
    obtain ⟨hblocks, hs⟩ := poll_eq_pending.mp hpoll
    exact ⟨f, hf, ⟨hblocks.1, hblocks.2, hblocks.3, hblocks.4⟩, hs⟩
  · rintro ⟨f, hf, hblocks, hs⟩
    refine ⟨f, hf, (.pending, s'), ?_, rfl⟩
    exact poll_eq_pending.mpr ⟨⟨hblocks.1, hblocks.2, hblocks.3, hblocks.4⟩, hs⟩

theorem get_wait (j : ℕ) : (s.wait i f waker).futures.get j =
    if j = i then (s.futures.get j).map fun _ => { f with
      waker := some waker
      registered := true
      turn := if f.registered then f.turn else s.linked }
    else s.futures.get j := by
  unfold Mpsc.State.wait Mpsc.State.put
  split_ifs <;> simp_all

theorem Lets.of_wait {g : Mpsc.Waiting α} (h : Lets (s.wait i f waker) g) : Lets s g := by
  obtain ⟨hregistered, hwaiters, hcapacity⟩ := h
  unfold Mpsc.State.wait at hwaiters hcapacity
  split_ifs at hwaiters hcapacity
  · exact ⟨hregistered, hwaiters, hcapacity⟩
  · exact absurd hwaiters (by simp)

theorem ChannelBlocks.wait {g : Mpsc.Waiting α} (h : ChannelBlocks s g) :
    ChannelBlocks (s.wait i f waker) g := by
  have hsame : (s.wait i f waker).receiverAlive = s.receiverAlive ∧
      (s.wait i f waker).capacityAvailable = s.capacityAvailable := by
    unfold Mpsc.State.wait
    split_ifs <;> exact ⟨rfl, rfl⟩
  refine ⟨hsame.1.trans h.alive, h.item, fun hg => ⟨(h.granted hg).1, ?_⟩, fun hlets => ?_⟩
  · exact hsame.2.trans (h.granted hg).2
  · exact h.shut hlets.of_wait

theorem channel_registers (waker : ℕ) :
    Registers (pollChannel waker) (Waits (pollChannel waker)) (channelHas (α := α)) := by
  constructor
  rintro (_ | i) s ⟨s', hpoll⟩
  · refine ⟨s', hpoll, ?_⟩
    obtain ⟨hqueue, hsenders, rfl⟩ := pollChannel_recv.mp hpoll
    refine ⟨rfl, ?_, ?_⟩
    · rintro (_ | j) hj
      · exact absurd rfl hj
      · exact Iff.rfl
    · rintro (_ | j) ⟨s₁, hj⟩
      · exact ⟨_, pollChannel_recv.mpr ⟨hqueue, hsenders, rfl⟩⟩
      · obtain ⟨f, hf, hblocks, -⟩ := pollChannel_future.mp hj
        exact ⟨_, pollChannel_future.mpr ⟨f, hf, ⟨hblocks.1, hblocks.2, hblocks.3, hblocks.4⟩, rfl⟩⟩
  · refine ⟨s', hpoll, ?_⟩
    obtain ⟨f, hf, hblocks, rfl⟩ := pollChannel_future.mp hpoll
    refine ⟨?_, ?_, ?_⟩
    · simp only [channelHas, get_wait, if_pos, hf]
      exact ⟨_, rfl, rfl⟩
    · rintro (_ | j) hj
      · unfold Mpsc.State.wait Mpsc.State.put
        split_ifs <;> exact Iff.rfl
      · have hji : j ≠ i := fun h => hj (congrArg some h)
        simp only [channelHas, get_wait, if_neg hji]
    · rintro (_ | j) ⟨s₁, hj⟩
      · obtain ⟨hqueue, hsenders, -⟩ := pollChannel_recv.mp hj
        refine ⟨_, pollChannel_recv.mpr ⟨?_, ?_, rfl⟩⟩
        · unfold Mpsc.State.wait Mpsc.State.put
          split_ifs <;> exact hqueue
        · unfold Mpsc.State.wait Mpsc.State.put
          split_ifs <;> exact hsenders
      · obtain ⟨g, hg, hblocks', -⟩ := pollChannel_future.mp hj
        by_cases hji : j = i
        · subst hji
          refine ⟨_, pollChannel_future.mpr ⟨_, (get_wait j).trans (by rw [if_pos rfl, hf]; rfl),
            ?_, rfl⟩⟩
          exact ⟨hblocks.wait.alive, hblocks.item, nofun, fun hlets => nomatch hlets.1⟩
        · refine ⟨_, pollChannel_future.mpr ⟨g, (get_wait j).trans (by rw [if_neg hji, hg]), ?_,
            rfl⟩⟩
          exact hblocks'.wait

end Channel

/-- The poll with budget of an `Acquire` future. -/
def pollSemaphore (waker i : ℕ) (s : Semaphore.State) : Option (Bool × Semaphore.State) :=
  (s.acquires.get i).map fun a =>
    let (result, s) := s.poll i a waker
    (result != .pending, s)

def semaphoreHas (i : ℕ) (s : Semaphore.State) : Prop := i ∈ s.waiters

structure SemaphoreBlocks (s : Semaphore.State) (i : ℕ) (a : Semaphore.Acquire) : Prop where
  granted : ¬ a.granted = true
  opened : ¬ s.closed = true
  shut : ¬ (i ∉ s.waiters ∧ s.waiters = [] ∧ a.permits ≤ s.permits)

section Semaphore
variable {s s' : Semaphore.State} {i : ℕ}

theorem SemaphoreBlocks.poll {a : Semaphore.Acquire} (ha : s.acquires.get i = some a)
    (h : SemaphoreBlocks s i a) : Waits (pollSemaphore waker) i s := by
  have hpending : (s.poll i a waker).1 = .pending := by
    rw [Semaphore.State.poll, if_neg h.granted, if_neg h.opened, if_neg h.shut]
    split_ifs <;> rfl
  exact ⟨(s.poll i a waker).2, by simp [pollSemaphore, ha, hpending]⟩

/-- The waiter is linked, and every other future waits as before. -/
theorem pollSemaphore_pending (h : pollSemaphore waker i s = some (false, s')) :
    ∃ a, s.acquires.get i = some a ∧ SemaphoreBlocks s i a ∧ i ∈ s'.waiters ∧
      (∀ j, j ≠ i → (j ∈ s'.waiters ↔ j ∈ s.waiters)) ∧
      ∀ j b, s.acquires.get j = some b → SemaphoreBlocks s j b →
        ∃ b', s'.acquires.get j = some b' ∧ SemaphoreBlocks s' j b' := by
  obtain ⟨a, ha, hpoll⟩ := Option.map_eq_some_iff.mp h
  simp only [Prod.mk.injEq, bne_eq_false_iff_eq] at hpoll
  have hpoll : s.poll i a waker = (.pending, s') := Prod.ext hpoll.1 hpoll.2
  rw [Semaphore.State.poll] at hpoll
  split_ifs at hpoll with hgranted hclosed hshut hlinked
  · cases hpoll
  · cases hpoll
  · cases hpoll
  · cases hpoll
    refine ⟨a, ha, ⟨hgranted, hclosed, hshut⟩, hlinked, fun _ _ => Iff.rfl,
      fun j b hb hblocks => ?_⟩
    by_cases hj : j = i
    · subst hj
      exact ⟨{ b with waker := some waker }, by simp [hb], hblocks.1, hblocks.2, hblocks.3⟩
    · exact ⟨b, by simp [hj, hb], hblocks.1, hblocks.2, hblocks.3⟩
  · cases hpoll
    refine ⟨a, ha, ⟨hgranted, hclosed, hshut⟩, by simp, fun j hj => by simp [hj],
      fun j b hb hblocks => ?_⟩
    by_cases hj : j = i
    · subst hj
      exact ⟨{ b with waker := some waker, turn := s.linked }, by simp [hb], hblocks.1, hblocks.2,
        by simp⟩
    · exact ⟨b, by simp [hj, hb], hblocks.1, hblocks.2, by simp⟩

theorem semaphore_registers (waker : ℕ) :
    Registers (pollSemaphore waker) (Waits (pollSemaphore waker)) semaphoreHas := by
  constructor
  rintro i s ⟨s', hpoll⟩
  obtain ⟨a, ha, hblocks, hmem, hothers, hwaits⟩ := pollSemaphore_pending hpoll
  refine ⟨s', hpoll, hmem, hothers, ?_⟩
  rintro j ⟨s₁, hj⟩
  obtain ⟨b, hb, hb', -⟩ := pollSemaphore_pending hj
  obtain ⟨b', hget, hblocks'⟩ := hwaits j b hb hb'
  exact hblocks'.poll hget

end Semaphore

/-- The poll with budget of a `Read` or `Write` future. -/
def pollLock (waker i : ℕ) (s : RwLock.State) : Option (Bool × RwLock.State) :=
  (s.futures.get i).map fun f => s.poll i f waker

def lockHas (i : ℕ) (s : RwLock.State) : Prop :=
  ∃ f, s.futures.get i = some f ∧ f.registered = true

structure LockBlocks (s : RwLock.State) (f : RwLock.Waiting) : Prop where
  granted : ¬ f.granted = true
  reader : f.kind = .reader → ¬ (!f.registered ∧ !s.writer ∧ s.waitingWriters = 0 ∧ s.queue = [])
  writer : f.kind = .writer → ¬ (!f.registered ∧ !s.writer ∧ s.readers = 0 ∧ s.queue = [])

section Lock
variable {s s' : RwLock.State} {i : ℕ} {f : RwLock.Waiting}

theorem LockBlocks.poll (hf : s.futures.get i = some f) (h : LockBlocks s f) :
    pollLock waker i s = some (false, s.wait i f waker) := by
  rw [pollLock, hf, Option.map_some, RwLock.State.poll, if_neg h.granted]
  cases hkind : f.kind with
  | reader => exact congrArg some (if_neg (h.reader hkind))
  | writer => exact congrArg some (if_neg (h.writer hkind))

theorem pollLock_pending (h : pollLock waker i s = some (false, s')) :
    ∃ f, s.futures.get i = some f ∧ LockBlocks s f ∧ s.wait i f waker = s' := by
  obtain ⟨f, hf, hpoll⟩ := Option.map_eq_some_iff.mp h
  refine ⟨f, hf, ?_⟩
  rw [RwLock.State.poll] at hpoll
  by_cases hgranted : f.granted = true
  · rw [if_pos hgranted] at hpoll
    cases hpoll
  · rw [if_neg hgranted] at hpoll
    cases hkind : f.kind with
    | reader =>
      simp only [hkind] at hpoll
      split_ifs at hpoll with hshut
      · cases hpoll
      · exact ⟨⟨hgranted, fun _ => hshut, by simp [hkind]⟩, (Prod.ext_iff.mp hpoll).2⟩
    | writer =>
      simp only [hkind] at hpoll
      split_ifs at hpoll with hshut
      · cases hpoll
      · exact ⟨⟨hgranted, by simp [hkind], fun _ => hshut⟩, (Prod.ext_iff.mp hpoll).2⟩

theorem LockBlocks.wait {g : RwLock.Waiting} (h : LockBlocks s g) :
    LockBlocks (s.wait i f waker) g := by
  have hqueue : (s.wait i f waker).queue = [] → s.wait i f waker = { s with
      futures := (s.wait i f waker).futures } := by
    intro hnil
    cases hregistered : f.registered with
    | true => simp [RwLock.State.wait, hregistered]
    | false => simp [RwLock.State.wait, hregistered] at hnil
  refine ⟨h.granted, fun hkind hlets => h.reader hkind ?_, fun hkind hlets => h.writer hkind ?_⟩
  · rw [hqueue hlets.2.2.2] at hlets
    exact hlets
  · rw [hqueue hlets.2.2.2] at hlets
    exact hlets

theorem lock_registers (waker : ℕ) :
    Registers (pollLock waker) (Waits (pollLock waker)) lockHas := by
  constructor
  rintro i s ⟨s', hpoll⟩
  refine ⟨s', hpoll, ?_⟩
  obtain ⟨f, hf, hblocks, rfl⟩ := pollLock_pending hpoll
  refine ⟨⟨{ f with waker := some waker, registered := true }, ?_, rfl⟩, fun j hj => ?_, ?_⟩
  · simp [RwLock.State.wait, hf]
  · simp [lockHas, RwLock.State.wait, hj]
  · rintro j ⟨s₁, hj⟩
    obtain ⟨g, hg, hblocks', -⟩ := pollLock_pending hj
    by_cases hji : j = i
    · subst hji
      refine ⟨_, LockBlocks.poll (f := { f with waker := some waker, registered := true }) ?_ ?_⟩
      · simp [RwLock.State.wait, hf]
      · exact ⟨hblocks.granted, by simp, by simp⟩
    · exact ⟨_, LockBlocks.poll (f := g) (by simp [RwLock.State.wait, hji, hg]) hblocks'.wait⟩

end Lock

/-- The poll with budget of a `Notified` future. -/
def pollNotified (waker i : ℕ) (s : Notify.State) : Option (Bool × Notify.State) :=
  (s.future i .live).map fun f => (f.notified || !f.registered && s.permit, s.poll i f waker)

def notifyHas (i : ℕ) (s : Notify.State) : Prop :=
  ∃ f, s.future i .live = some f ∧ f.registered = true

section Notify
variable {s s' : Notify.State} {i : ℕ} {f : Notify.Notified}

structure NotifyBlocks (s : Notify.State) (f : Notify.Notified) : Prop where
  notified : f.notified = false
  shut : (!f.registered && s.permit) = false

theorem pollNotified_pending : pollNotified waker i s = some (false, s') ↔
    ∃ f, s.future i .live = some f ∧ NotifyBlocks s f ∧ s.poll i f waker = s' := by
  simp only [pollNotified, Option.map_eq_some_iff, Prod.mk.injEq, Bool.or_eq_false_iff]
  constructor
  · rintro ⟨f, hf, ⟨hnotified, hshut⟩, hs⟩
    exact ⟨f, hf, ⟨hnotified, hshut⟩, hs⟩
  · rintro ⟨f, hf, ⟨hnotified, hshut⟩, hs⟩
    exact ⟨f, hf, ⟨hnotified, hshut⟩, hs⟩

theorem NotifyBlocks.poll (h : NotifyBlocks s f) : (s.poll i f waker).permit = s.permit ∧
    (s.poll i f waker).futures = s.futures.modify i fun f =>
      { f with waker := some waker, registered := true } := by
  rw [Notify.State.poll, if_neg (by simp [h.notified]), if_neg (by simp [h.shut])]
  exact ⟨rfl, rfl⟩

/-- The future is registered, and every other one stays as it is. -/
theorem NotifyBlocks.future_poll (h : NotifyBlocks s f) (hf : s.future i .live = some f)
    (waker j : ℕ) :
    (s.poll i f waker).future j .live =
      if j = i then some { f with waker := some waker, registered := true }
      else s.future j .live := by
  rw [Notify.State.future, h.poll.2, List.getElem?_modify]
  by_cases hj : j = i
  · subst hj
    obtain ⟨hget, hlive⟩ := Option.filter_eq_some_iff.mp hf
    simpa [hget] using hlive
  · simp [hj, Ne.symm hj, Notify.State.future]

theorem notify_registers (waker : ℕ) :
    Registers (pollNotified waker) (Waits (pollNotified waker)) notifyHas := by
  constructor
  rintro i s ⟨s', hpoll⟩
  refine ⟨s', hpoll, ?_⟩
  obtain ⟨f, hf, hblocks, rfl⟩ := pollNotified_pending.mp hpoll
  refine ⟨⟨_, (hblocks.future_poll hf waker i).trans (if_pos rfl), rfl⟩, fun j hj => ?_, ?_⟩
  · simp only [notifyHas, hblocks.future_poll hf, if_neg hj]
  · rintro j ⟨s₁, hj⟩
    obtain ⟨g, hg, hblocks', -⟩ := pollNotified_pending.mp hj
    by_cases hji : j = i
    · subst hji
      refine ⟨_, pollNotified_pending.mpr ⟨_, (hblocks.future_poll hf waker j).trans (if_pos rfl),
        ⟨hblocks.notified, rfl⟩, rfl⟩⟩
    · have hsame := (hblocks.future_poll hf waker j).trans (if_neg hji)
      refine ⟨_, pollNotified_pending.mpr ⟨g, hsame.trans hg, ⟨hblocks'.notified, ?_⟩, rfl⟩⟩
      rw [hblocks.poll.1]
      exact hblocks'.shut

end Notify

/-- The poll with budget of a broadcast `Receiver`. -/
def pollBroadcast (waker i : ℕ) (s : Broadcast.System α) : Option (Bool × Broadcast.System α) :=
  (s.receiver i .live).bind fun r =>
    (s.state.poll s.capacity s.strongCount r.id r.cursor waker).bind fun (result, _, _) =>
      (s.poll i r waker).map fun s => (!result.isPending, s)

def broadcastHas (i : ℕ) (s : Broadcast.System α) : Prop :=
  ∃ r, s.receiver i .live = some r ∧ r.waiting = true

section Broadcast
variable {s s' : Broadcast.System α} {i : ℕ} {r : Broadcast.Receiver α}

structure BroadcastBlocks (s : Broadcast.System α) (r : Broadcast.Receiver α) : Prop where
  all : s.state.nextSeq ≤ r.cursor
  opened : s.strongCount ≠ s.state.receivers.length

def broadcastWait (s : Broadcast.System α) (i : ℕ) (r : Broadcast.Receiver α) (waker : ℕ) :
    Broadcast.System α :=
  { s with state := s.state.modifySlot r.id r.cursor fun slot =>
      { slot with waker := some waker } }.modifyReceiver i fun r' =>
        r'.take r.cursor s.sent.length none true

theorem BroadcastBlocks.poll (h : BroadcastBlocks s r) (i : ℕ) :
    s.state.poll s.capacity s.strongCount r.id r.cursor waker =
        some (.pending, s.state.modifySlot r.id r.cursor fun slot =>
          { slot with waker := some waker }, r.cursor) ∧
      s.poll i r waker = some (broadcastWait s i r waker) := by
  have hfirst : ¬ r.cursor < s.state.firstSeq s.capacity := by
    have := h.all
    unfold Broadcast.State.firstSeq
    omega
  have hpoll : s.state.poll s.capacity s.strongCount r.id r.cursor waker =
      some (.pending, s.state.modifySlot r.id r.cursor fun slot =>
        { slot with waker := some waker }, r.cursor) := by
    simp only [Broadcast.State.poll, if_neg hfirst, if_neg (Nat.not_lt.mpr h.all), if_neg h.opened]
  refine ⟨hpoll, ?_⟩
  rw [Broadcast.System.poll, hpoll]
  rfl

theorem pollBroadcast_pending : pollBroadcast waker i s = some (false, s') ↔
    ∃ r, s.receiver i .live = some r ∧ BroadcastBlocks s r ∧ broadcastWait s i r waker = s' := by
  simp only [pollBroadcast, Option.bind_eq_some_iff, Option.map_eq_some_iff, Prod.exists]
  constructor
  · rintro ⟨r, hr, result, state, cursor, hpoll, t, ht, heq⟩
    simp only [Prod.mk.injEq, Bool.not_eq_false'] at heq
    obtain ⟨hpending, rfl⟩ := heq
    cases Broadcast.State.poll_cases hpoll with
    | output hsome hready =>
      rw [hready] at hpending
      cases hpending
    | closed => cases hpending
    | pending hall hopened =>
      have hblocks : BroadcastBlocks s r := ⟨hall, hopened⟩
      exact ⟨r, hr, hblocks, Option.some.inj ((hblocks.poll i).2.symm.trans ht)⟩
  · rintro ⟨r, hr, hblocks, rfl⟩
    exact ⟨r, hr, .pending, _, _, (hblocks.poll i).1, _, (hblocks.poll i).2, rfl⟩

theorem broadcastWait_receiver (hr : s.receiver i .live = some r) (j : ℕ) :
    (broadcastWait s i r waker).receiver j .live =
      if j = i then some (r.take r.cursor s.sent.length none true) else s.receiver j .live := by
  obtain ⟨hget, hlive⟩ := Broadcast.System.receiver_eq_some hr
  by_cases hj : j = i
  · subst hj
    simp [Broadcast.System.receiver, broadcastWait, Broadcast.System.modifyReceiver, hget, hlive,
      Broadcast.Receiver.take]
  · simp [Broadcast.System.receiver, broadcastWait, Broadcast.System.modifyReceiver, hj, Ne.symm hj]

theorem BroadcastBlocks.wait {x : Broadcast.Receiver α} (h : BroadcastBlocks s x) (i waker : ℕ)
    (hslot : s.state.HasSlot r.id) : BroadcastBlocks (broadcastWait s i r waker) x := by
  obtain ⟨index, slot, -, -, heq⟩ := Broadcast.State.modifySlot_of_hasSlot hslot r.cursor
    fun slot => { slot with waker := some waker }
  have hstate : (broadcastWait s i r waker).state = { s.state with
      receivers := s.state.receivers.modify index fun slot =>
        { slot with waker := some waker } } := heq
  have hcount : (broadcastWait s i r waker).strongCount = s.strongCount := by
    refine congrArg (s.senders + ·) (Holdings.countP_modify fun a => ?_)
    rfl
  constructor
  · rw [hstate]
    exact h.all
  · rw [hstate, hcount, List.length_modify]
    exact h.opened

theorem broadcast_registers (waker : ℕ) : Registers (pollBroadcast (α := α) waker)
    (fun i s => Waits (pollBroadcast waker) i s ∧ s.Slotted) broadcastHas := by
  constructor
  rintro i s ⟨⟨s', hpoll⟩, hslotted⟩
  refine ⟨s', hpoll, ?_⟩
  obtain ⟨r, hr, hblocks, rfl⟩ := pollBroadcast_pending.mp hpoll
  have hslot := hslotted.hasSlot (Broadcast.System.receiver_eq_some hr).1
    (Broadcast.System.receiver_eq_some hr).2
  refine ⟨⟨_, (broadcastWait_receiver hr i).trans (if_pos rfl), rfl⟩, fun j hj => ?_, ?_⟩
  · simp only [broadcastHas, broadcastWait_receiver hr, if_neg hj]
  · rintro j ⟨⟨s₁, hj⟩, -⟩
    obtain ⟨x, hx, hblocks', -⟩ := pollBroadcast_pending.mp hj
    refine ⟨?_, ?_⟩
    · by_cases hji : j = i
      · subst hji
        obtain rfl : x = r := Option.some.inj (hx.symm.trans hr)
        refine ⟨_, pollBroadcast_pending.mpr ⟨_, (broadcastWait_receiver hr j).trans (if_pos rfl),
          ?_, rfl⟩⟩
        have hwait := hblocks.wait j waker hslot
        exact ⟨hwait.all, hwait.opened⟩
      · refine ⟨_, pollBroadcast_pending.mpr ⟨x, ?_, hblocks'.wait i waker hslot, rfl⟩⟩
        exact ((broadcastWait_receiver hr j).trans (if_neg hji)).trans hx
    · exact hslotted.poll (Broadcast.System.receiver_eq_some hr).1
        (Broadcast.System.receiver_eq_some hr).2 (hblocks.poll i).2

end Broadcast

/-- The poll with budget of a watch `Receiver`. -/
def pollWatch (waker j : ℕ) (s : Watch.System α) : Option (Bool × Watch.System α) :=
  (s.receiver j).map fun r =>
    ((s.state.pollChanged s.strongCount r.version waker).1 != .pending, s.poll j r waker)

def watchHas (j : ℕ) (s : Watch.System α) : Prop :=
  ∃ r, s.receiver j = some r ∧ r.waiting.isSome

section Watch
variable {s s' : Watch.System α} {j : ℕ} {r : Watch.Receiver}

/-- The receiver has seen the last version, and the channel does not look closed. -/
structure WatchBlocks (s : Watch.System α) (r : Watch.Receiver) : Prop where
  seen : ¬ s.state.version ≠ r.version
  opened : ¬ s.strongCount = 1

theorem WatchBlocks.pollChanged (h : WatchBlocks s r) :
    s.state.pollChanged s.strongCount r.version waker =
      (.pending, { s.state with wakers := s.state.wakers ++ [waker] }) := by
  rw [Watch.State.pollChanged, if_neg h.seen, if_neg h.opened]

theorem pollWatch_pending : pollWatch waker j s = some (false, s') ↔
    ∃ r, s.receiver j = some r ∧ WatchBlocks s r ∧ s.poll j r waker = s' := by
  simp only [pollWatch, Option.map_eq_some_iff, Prod.mk.injEq, bne_eq_false_iff_eq]
  constructor
  · rintro ⟨r, hr, hpending, hs⟩
    rw [Watch.State.pollChanged] at hpending
    split_ifs at hpending with hseen hopened
    exact ⟨r, hr, ⟨hseen, hopened⟩, hs⟩
  · rintro ⟨r, hr, hblocks, hs⟩
    exact ⟨r, hr, by rw [hblocks.pollChanged], hs⟩

/-- The system after the poll of a receiver that waits. -/
theorem WatchBlocks.poll (h : WatchBlocks s r) (j : ℕ) : s.poll j r waker = { s with
    state := { s.state with wakers := s.state.wakers ++ [waker] }
    receivers := s.receivers.modify j fun r =>
      { r with waiting := some waker, woken := false } } := by
  rw [Watch.System.poll, h.pollChanged]
  rfl

theorem WatchBlocks.receiver_poll (h : WatchBlocks s r) (hr : s.receiver j = some r) (k : ℕ) :
    (s.poll j r waker).receiver k =
      if k = j then some { r with waiting := some waker, woken := false } else s.receiver k := by
  obtain ⟨hget, hlive⟩ := Watch.System.receiver_eq_some hr
  rw [h.poll, Watch.System.receiver, List.getElem?_modify]
  by_cases hk : k = j
  · subst hk
    simp [hget, hlive]
  · simp [hk, Ne.symm hk, Watch.System.receiver]

theorem WatchBlocks.wait {x : Watch.Receiver} (h : WatchBlocks s r) (hx : WatchBlocks s x)
    (j waker : ℕ) :
    WatchBlocks (s.poll j r waker) x := by
  have hcount : (s.poll j r waker).strongCount = s.strongCount := by
    rw [h.poll]
    exact congrArg (s.senderCount + ·) (Holdings.countP_modify fun _ => rfl)
  refine ⟨?_, hcount ▸ hx.opened⟩
  rw [h.poll]
  exact hx.seen

theorem watch_registers (waker : ℕ) :
    Registers (pollWatch (α := α) waker) (Waits (pollWatch waker)) watchHas := by
  constructor
  rintro j s ⟨s', hpoll⟩
  refine ⟨s', hpoll, ?_⟩
  obtain ⟨r, hr, hblocks, rfl⟩ := pollWatch_pending.mp hpoll
  refine ⟨⟨_, (hblocks.receiver_poll hr j).trans (if_pos rfl), rfl⟩, fun k hk => ?_, ?_⟩
  · simp only [watchHas, hblocks.receiver_poll hr, if_neg hk]
  · rintro k ⟨s₁, hk⟩
    obtain ⟨x, hx, hblocks', -⟩ := pollWatch_pending.mp hk
    by_cases hkj : k = j
    · subst hkj
      refine ⟨_, pollWatch_pending.mpr ⟨_, (hblocks.receiver_poll hr k).trans (if_pos rfl), ?_,
        rfl⟩⟩
      have hwait := hblocks.wait hblocks k waker
      exact ⟨hwait.seen, hwait.opened⟩
    · refine ⟨_, pollWatch_pending.mpr ⟨x, ?_, hblocks.wait hblocks' j waker, rfl⟩⟩
      exact ((hblocks.receiver_poll hr k).trans (if_neg hkj)).trans hx

end Watch

end Eddy.Coop
