import Eddy.Takeover

/-!
# The hand-back of `block_in_place`

The predicate that the blocked thread waits for is stored without the lock it waits with. When
`notify_one` falls between its load of `returned` and its wait, it sleeps for good; at every other
moment the notification reaches it.
-/

namespace Eddy.Takeover
open LocalQueue WrappingIndex Interleaving

variable {T : Type}

theorem forall_mem_set {α : Type} {P : α → Prop} {l : List α} {j : ℕ} {x : α}
    (h : ∀ y ∈ l, P y) (hx : P x) : ∀ y ∈ l.set j x, P y := by
  intro y hy
  rcases List.mem_or_eq_of_mem_set hy with hy | rfl
  · exact h y hy
  · exact hx

section Steps
variable {cap : Capacity} {s t : State T} {a : Label T}

/-- A step changes at most one hand-off: it starts one, ends one, or advances one of its two
threads. -/
inductive HandOffsStep (s t : State T) : Label T → Prop where
  | same {b : Label T} (h : t.handOffs = s.handOffs) : HandOffsStep s t b
  | start (h : t.handOffs = .new :: s.handOffs) : HandOffsStep s t .blockInPlace
  | worker (j) (h : HandOff T) (hj : s.handOffs[j]? = some h) (hs : s.workerStep j h = some t) :
      HandOffsStep s t (.worker j)
  | spurious (j) (h : HandOff T) (hj : s.handOffs[j]? = some h) (hw : h.worker = .waits)
      (ht : t = s.setHandOff j { h with worker := .woken }) : HandOffsStep s t (.spurious j)
  | abandoned (j) (h : t.handOffs = s.handOffs ∨ t.handOffs = s.handOffs.eraseIdx j) :
      HandOffsStep s t (.spawnFails j)
  | takeover (h : HandOff T) (hj : s.handOffs[0]? = some h) (hs : s.takeoverStep h = some t) :
      HandOffsStep s t .takeover
  | leave (shutdown) (h : HandOff T) (hj : s.handOffs[0]? = some h)
      (hs : s.leave h shutdown = some t) : HandOffsStep s t (.leave shutdown)

theorem handOffs_setTarget (s : State T) (q : Queue T) :
    (s.setTarget q).handOffs = s.handOffs := by
  unfold State.setTarget
  split <;> rfl

theorem handOffs_observe (s : State T) (i : ℕ) (pc : StealPc) :
    (s.observe i pc).handOffs = s.handOffs := by
  cases pc <;> rfl

theorem handOffsStep (hs : s.step cap a = some t) : HandOffsStep s t a := by
  cases State.steps hs with
  | push | pushOverflow | pop | owner | placeLifo | takeLifo | steal | drain => exact .same rfl
  | blockInPlace => exact .start rfl
  | @worker j h t hj hs => exact .worker j h hj hs
  | @spurious j h hj hw => exact .spurious j h hj hw rfl
  | @spawnFails j h lifo hj hw =>
    refine .abandoned j ?_
    unfold State.abandon
    split
    · exact .inl rfl
    · exact .inr rfl
  | @takeover h t hj hs => exact .takeover h hj hs
  | @leave h shutdown t hj hs => exact .leave shutdown h hj hs
  | thief hi hs =>
    obtain ⟨⟨q, th'⟩, -, rfl⟩ := Option.map_eq_some_iff.mp hs
    exact .same ((handOffs_setTarget _ _).trans (handOffs_observe _ _ _))

end Steps

/-- `notify_one` does not fall between the load of `returned` and the wait. -/
def NotifySeen (s : State T) (a : Label T) : Prop :=
  ∀ h ∈ s.handOffs[0]?, a matches .takeover → h.takeover matches .notifies →
    ¬ h.worker matches .startsWait

instance (s : State T) (a : Label T) : Decidable (NotifySeen s a) := by
  unfold NotifySeen
  infer_instance

/-- The takeover thread is over, and the blocked thread is on the condvar, not notified. -/
def HandOff.Lost (h : HandOff T) : Prop :=
  h.takeover = .finished ∧ h.shared.returned = true ∧ h.worker = .waits

instance [DecidableEq T] (h : HandOff T) : Decidable h.Lost :=
  inferInstanceAs (Decidable (_ ∧ _ ∧ _))

structure HandOff.Heard (h : HandOff T) : Prop where
  deciding : h.worker = .startsWait → h.takeover ≠ .finished
  waiting : h.worker = .waits → h.takeover ≠ .finished
  returned : h.shared.returned = false → h.takeover ≠ .finished ∧ h.takeover ≠ .notifies

namespace HandOff.Heard

variable {s t : State T} {j : ℕ} {h : HandOff T}

theorem workerStep (hh : h.Heard) (hs : s.workerStep j h = some t)
    (hall : ∀ x ∈ s.handOffs, x.Heard) : ∀ x ∈ t.handOffs, x.Heard := by
  unfold State.workerStep at hs
  split at hs
  case h_1 => cases hs
  case h_2 hw =>
    cases hs
    exact forall_mem_set hall ⟨nofun, nofun, hh.returned⟩
  case h_3 hw =>
    cases hs
    exact forall_mem_set hall ⟨nofun, nofun, fun _ => ⟨nofun, nofun⟩⟩
  case h_4 hw =>
    cases hs
    exact forall_mem_set hall ⟨nofun, nofun, hh.returned⟩
  case h_5 | h_6 =>
    split_ifs at hs
    cases hs
    exact forall_mem_set hall ⟨nofun, nofun, hh.returned⟩
  case h_7 hw =>
    cases hs
    apply forall_mem_set hall
    cases hr : h.shared.returned with
    | true => exact ⟨nofun, nofun, fun hf => by simp [hr] at hf⟩
    | false =>
      obtain ⟨hfinished, hnotifies⟩ := hh.returned hr
      exact ⟨fun _ => hfinished, nofun, fun _ => ⟨hfinished, hnotifies⟩⟩
  case h_8 hw =>
    cases hs
    exact forall_mem_set hall ⟨nofun, fun _ => hh.deciding hw, hh.returned⟩
  case h_9 =>
    split_ifs at hs
    cases hs
    exact forall_mem_set hall ⟨nofun, nofun, hh.returned⟩
  case h_10 | h_11 | h_12 =>
    cases hs
    exact forall_mem_set hall ⟨nofun, nofun, hh.returned⟩
  case h_13 =>
    split at hs
    · cases hs
      exact fun x hx => hall x (List.mem_of_mem_eraseIdx hx)
    · cases hs

theorem takeoverStep (hh : h.Heard) (hs : s.takeoverStep h = some t)
    (hseen : h.takeover = .notifies → h.worker ≠ .startsWait)
    (hall : ∀ x ∈ s.handOffs, x.Heard) : ∀ x ∈ t.handOffs, x.Heard := by
  unfold State.takeoverStep at hs
  split at hs
  case h_1 | h_2 | h_3 => cases hs
  case h_4 | h_9 =>
    split_ifs at hs
    cases hs
    exact forall_mem_set hall ⟨fun _ => nofun, fun _ => nofun, fun _ => ⟨nofun, nofun⟩⟩
  case h_5 | h_6 | h_7 | h_8 =>
    cases hs
    exact forall_mem_set hall ⟨fun _ => nofun, fun _ => nofun, fun _ => ⟨nofun, nofun⟩⟩
  case h_10 =>
    cases hs
    exact forall_mem_set hall ⟨fun _ => nofun, fun _ => nofun, nofun⟩
  case h_11 hn =>
    cases hs
    apply forall_mem_set hall
    have hawake : h.worker.notified ≠ .waits ∧ h.worker.notified ≠ .startsWait := by
      have := hseen hn
      cases hw : h.worker <;> simp_all [WorkerPc.notified]
    exact ⟨fun hw => absurd hw hawake.2, fun hw => absurd hw hawake.1,
      fun hr => absurd hn (hh.returned hr).2⟩

theorem leave {shutdown : Bool} (hs : s.leave h shutdown = some t)
    (hall : ∀ x ∈ s.handOffs, x.Heard) : ∀ x ∈ t.handOffs, x.Heard := by
  unfold State.leave at hs
  split at hs
  · split_ifs at hs
    cases hs
    exact forall_mem_set hall ⟨fun _ => nofun, fun _ => nofun, fun _ => ⟨nofun, nofun⟩⟩
  · cases hs

end HandOff.Heard

theorem heard_step {cap : Capacity} {s t : State T} {a : Label T}
    (hall : ∀ x ∈ s.handOffs, x.Heard) (hseen : NotifySeen s a) (hs : s.step cap a = some t) :
    ∀ x ∈ t.handOffs, x.Heard := by
  cases handOffsStep hs with
  | same h => exact h ▸ hall
  | start h =>
    rw [h]
    intro x hx
    rcases List.mem_cons.mp hx with rfl | hx
    · exact ⟨nofun, nofun, fun _ => ⟨nofun, nofun⟩⟩
    · exact hall x hx
  | worker j h hj hstep => exact (hall h (List.mem_of_getElem? hj)).workerStep hstep hall
  | spurious j h hj hw ht =>
    subst ht
    exact forall_mem_set hall ⟨nofun, nofun, (hall h (List.mem_of_getElem? hj)).returned⟩
  | abandoned j h =>
    obtain h | h := h
    · exact h ▸ hall
    · rw [h]
      exact fun x hx => hall x (List.mem_of_mem_eraseIdx hx)
  | takeover h hj hstep =>
    refine (hall h (List.mem_of_getElem? hj)).takeoverStep hstep (fun hn hw => ?_) hall
    exact hseen h hj rfl (by rw [hn]) (by rw [hw])
  | leave shutdown h hj hstep => exact HandOff.Heard.leave hstep hall

/-- As long as every `notify_one` finds the blocked thread outside the gap between its load of
`returned` and its wait, no notification is lost. -/
theorem hand_back_is_heard {cap : Capacity} {s : State T}
    (hr : Reachable (State.step cap) NotifySeen State.init s) :
    ∀ h ∈ s.handOffs, ¬ h.Lost := by
  have hheard : ∀ x ∈ s.handOffs, x.Heard :=
    hr.invariant (I := fun s => ∀ x ∈ s.handOffs, x.Heard) (by simp [State.init])
      fun s a t h hseen hs => heard_step h hseen hs
  intro h hh hlost
  exact (hheard h hh).waiting hlost.2.2 hlost.1

def handOver : List (Label ℕ) :=
  [Label.blockInPlace, .worker 0, .worker 0] ++ List.replicate 3 Label.takeover

/-- The takeover thread leaves its loop and puts the queue into the `Takeover`. -/
def giveBack : List (Label ℕ) := Label.leave false :: List.replicate 3 .takeover

/-- The worker is on the condvar when it is notified. -/
theorem hand_back_is_heard_on_condvar :
    ∃ s, Reachable (State.step localQueueCapacity) NotifySeen (State.init : State ℕ) s ∧
      (s.handOffs.map fun h => (h.takeover, h.worker)) = [(.finished, .woken)] ∧
      ∀ h ∈ s.handOffs, ¬ h.Lost := by
  have hrun : (run (guarded (State.step localQueueCapacity) NotifySeen) State.init
      (handOver ++ List.replicate 4 (Label.worker 0) ++ giveBack ++ [Label.takeover, .takeover])).any
      (fun s => decide ((s.handOffs.map fun h => (h.takeover, h.worker)) =
        [(.finished, .woken)])) = true := by
    decide +kernel
  obtain ⟨s, hreach, hs⟩ := exists_reachable_of_run hrun
  exact ⟨s, hreach, of_decide_eq_true hs, hand_back_is_heard hreach⟩

/-- The worker loads `returned` before it is stored, and waits after `notify_one`. -/
theorem hand_back_is_lost :
    ∃ s, Reachable (State.step localQueueCapacity) anyStep (State.init : State ℕ) s ∧
      ∃ h ∈ s.handOffs, h.Lost := by
  have hrun : (run (guarded (State.step localQueueCapacity) anyStep) State.init
      (handOver ++ [Label.worker 0] ++ giveBack ++
        [Label.worker 0, .worker 0, .takeover, .takeover] ++ [Label.worker 0])).any
      (fun s => decide (∃ h ∈ s.handOffs, h.Lost)) = true := by
    decide +kernel
  obtain ⟨s, hreach, hs⟩ := exists_reachable_of_run hrun
  exact ⟨s, hreach, of_decide_eq_true hs⟩

end Eddy.Takeover
