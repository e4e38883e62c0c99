import Mathlib.Data.List.Nodup
import Mathlib.Data.List.Perm.Basic
import Mathlib.Data.List.Range
import Eddy.Holdings
import Eddy.Notify

/-!
# The account of the notifications

Every `notify_one` that is not merged into a stored permit is the permit or belongs to one future
that completed or can still complete, as long as no future that such a call was assigned to is
dropped before it completes: the drop of a notified future does not pass the notification on.
-/

namespace Eddy.Notify
open Interleaving Holdings

/-- The call that the future accounts for: it completed, or can still complete. -/
def Notified.account (f : Notified) : Option ℕ :=
  if f.completed || f.phase != .dropped then f.call else none

/-- The future can be in the queue. -/
def Notified.Waiting (f : Notified) : Prop :=
  f.notified = false ∧ f.registered = true ∧ f.phase ≠ .dropped

namespace State

def accounts (s : State) : List ℕ :=
  (if s.permit then [s.stored] else []) ++ s.futures.filterMap Notified.account

/-- Every call is accounted for exactly once, and a stored permit finds no waiter queued. -/
def Accounted (s : State) : Prop :=
  s.accounts.Perm (List.range s.calls) ∧ (s.permit = true → s.waiters = [])

instance (s : State) : Decidable s.Accounted := instDecidableAnd

/-- The future was not notified by a `notify_one`, or it has completed. -/
def settled (s : State) (i : ℕ) : Bool :=
  (s.futures[i]?).all fun f => f.completed || f.call.isNone

/-- No future that a `notify_one` was assigned to is dropped before it completes. -/
def Settled (s : State) : Label → Prop
  | .drop i | .unregister i => s.settled i = true
  | _ => True

instance (s : State) (a : Label) : Decidable (s.Settled a) := by
  cases a <;> unfold Settled <;> infer_instance

structure Sound (s : State) : Prop where
  accounts : s.accounts.Perm (List.range s.calls)
  permit : s.permit = true → s.waiters = []
  nodup : s.waiters.Nodup
  waiting : ∀ i ∈ s.waiters, ∃ f, s.futures[i]? = some f ∧ f.Waiting
  unnotified : ∀ f ∈ s.futures, f.notified = false → f.call = none

variable {s : State} {i : ℕ} {f : Notified} {g : Notified → Notified}

theorem Sound.new : Sound .new where
  accounts := List.Perm.refl _
  permit := nofun
  nodup := List.nodup_nil
  waiting := nofun
  unnotified := nofun

theorem Sound.accounts_of_eq {t : State} (h : s.Sound) (hpermit : t.permit = s.permit)
    (hstored : t.stored = s.stored) (hcalls : t.calls = s.calls)
    (hfutures : t.futures.filterMap Notified.account = s.futures.filterMap Notified.account) :
    t.accounts.Perm (List.range t.calls) := by
  have := h.accounts
  simpa only [State.accounts, hpermit, hstored, hcalls, hfutures] using this

theorem Sound.waiting_modify (h : s.Sound) {waiters : List ℕ} (hsub : waiters ⊆ s.waiters)
    (hg : i ∈ waiters → ∀ f, f.Waiting → (g f).Waiting) :
    ∀ j ∈ waiters, ∃ f, (s.futures.modify i g)[j]? = some f ∧ f.Waiting := by
  intro j hj
  obtain ⟨f, hf, hwaiting⟩ := h.waiting j (hsub hj)
  by_cases hij : i = j
  · subst hij
    exact ⟨g f, by simp [hf], hg hj f hwaiting⟩
  · exact ⟨f, by simp [hij, hf], hwaiting⟩

theorem unnotified_modify {futures : List Notified}
    (h : ∀ f ∈ futures, f.notified = false → f.call = none)
    (hg : ∀ f, (g f).notified = false → f.notified = false ∧ (g f).call = f.call) :
    ∀ f ∈ futures.modify i g, f.notified = false → f.call = none := by
  intro b hb hnotified
  obtain ⟨j, hj⟩ := List.mem_iff_getElem?.mp hb
  rw [List.getElem?_modify] at hj
  obtain ⟨a, ha, rfl⟩ := Option.map_eq_some_iff.mp hj
  have hmem := List.mem_of_getElem? ha
  split_ifs at hnotified ⊢ with hij
  · obtain ⟨hfalse, hcall⟩ := hg a hnotified
    exact hcall.trans (h a hmem hfalse)
  · exact h a hmem hnotified

theorem Sound.modify (h : s.Sound)
    (haccount : ∀ f, s.futures[i]? = some f → (g f).account = f.account)
    (hwaiting : i ∈ s.waiters → ∀ f, f.Waiting → (g f).Waiting)
    (hcall : ∀ f, (g f).notified = false → f.notified = false ∧ (g f).call = f.call) :
    Sound { s with futures := s.futures.modify i g } where
  accounts := h.accounts_of_eq rfl rfl rfl (filterMap_modify_of_eq haccount)
  permit := h.permit
  nodup := h.nodup
  waiting := h.waiting_modify (List.Subset.refl _) hwaiting
  unnotified := unnotified_modify h.unnotified hcall

theorem Sound.notified (h : s.Sound) : Sound { s with futures := s.futures ++ [.new] } where
  accounts := by
    have hnew : [Notified.new].filterMap Notified.account = [] := rfl
    simpa [State.accounts, hnew] using h.accounts
  permit := h.permit
  nodup := h.nodup
  waiting := by
    intro i hi
    obtain ⟨f, hf, hwaiting⟩ := h.waiting i hi
    have hlt := (List.getElem?_eq_some_iff.mp hf).1
    exact ⟨f, by rw [List.getElem?_append_left hlt, hf], hwaiting⟩
  unnotified := by
    intro f hf hnotified
    rcases List.mem_append.mp hf with hf | hf
    · exact h.unnotified f hf hnotified
    · rw [List.mem_singleton.mp hf]
      rfl

theorem Sound.account_eq_none (h : s.Sound) (hf : s.futures[i]? = some f)
    (hnotified : f.notified = false) : f.account = none := by
  simp [Notified.account, h.unnotified f (List.mem_of_getElem? hf) hnotified]

theorem Sound.permit_eq_false (h : s.Sound) (hwaiters : s.waiters ≠ []) : s.permit = false := by
  by_contra hpermit
  exact hwaiters (h.permit (Bool.eq_true_of_not_eq_false hpermit))

theorem Sound.notifyOne (h : s.Sound) : s.notifyOne.Sound := by
  unfold State.notifyOne
  split
  · rename_i i rest hwaiters
    obtain ⟨f, hf, hnotified, hregistered, hphase⟩ := h.waiting i (by simp [hwaiters])
    have hpermit := h.permit_eq_false (by simp [hwaiters])
    have hnodup := List.nodup_cons.mp (hwaiters ▸ h.nodup)
    have hgive := filterMap_modify_take
      (f := fun f => { f with notified := true, call := some s.calls }) (b := s.calls)
      hf (h.account_eq_none hf hnotified) (by simp [Notified.account, hphase])
    have haccounts := h.accounts
    simp only [State.accounts, hpermit, Bool.false_eq_true, ↓reduceIte, List.nil_append]
      at haccounts
    constructor
    · simp only [State.accounts, hpermit, Bool.false_eq_true, ↓reduceIte, List.nil_append]
      rw [List.range_succ]
      exact (hgive.trans (haccounts.cons _)).trans (List.perm_append_singleton _ _).symm
    · simp [hpermit]
    · exact hnodup.2
    · exact h.waiting_modify (by simp [hwaiters]) fun hi => absurd hi hnodup.1
    · exact unnotified_modify h.unnotified fun f => nofun
  · rename_i hwaiters
    split_ifs with hpermit
    · exact h
    · have haccounts := h.accounts
      simp only [State.accounts, hpermit] at haccounts
      constructor
      · simp only [State.accounts, ↓reduceIte]
        rw [List.range_succ]
        exact (haccounts.cons _).trans (List.perm_append_singleton _ _).symm
      · exact fun _ => hwaiters
      · exact h.nodup
      · exact h.waiting
      · exact h.unnotified

theorem filterMap_notifyAll (futures : List Notified) (waiters : List ℕ) :
    (notifyAll futures waiters).filterMap Notified.account =
      futures.filterMap Notified.account := by
  induction waiters generalizing futures with
  | nil => rfl
  | cons i waiters ih => exact (ih _).trans (filterMap_modify_of_eq fun f _ => rfl)

theorem unnotified_notifyAll {waiters : List ℕ} {futures : List Notified}
    (h : ∀ f ∈ futures, f.notified = false → f.call = none) :
    ∀ f ∈ notifyAll futures waiters, f.notified = false → f.call = none := by
  induction waiters generalizing futures with
  | nil => exact h
  | cons i waiters ih =>
    apply ih
    exact unnotified_modify h fun f => nofun

theorem Sound.notifyWaiters (h : s.Sound) : s.notifyWaiters.Sound where
  accounts := h.accounts_of_eq rfl rfl rfl (filterMap_notifyAll s.futures s.waiters)
  permit := fun _ => rfl
  nodup := List.nodup_nil
  waiting := nofun
  unnotified := unnotified_notifyAll h.unnotified

theorem Sound.takePermit (h : s.Sound) (hf : s.futures[i]? = some f)
    (hnotified : f.notified = false) (hphase : f.phase = .live) (hpermit : s.permit = true)
    (completed : Bool) : (s.takePermit i completed).Sound := by
  have hwaiters := h.permit hpermit
  have hgive := filterMap_modify_take
    (f := fun f => { f with notified := true, call := some s.stored, completed := completed })
    (b := s.stored) hf (h.account_eq_none hf hnotified) (by simp [Notified.account, hphase])
  have haccounts := h.accounts
  simp only [State.accounts, hpermit, ↓reduceIte, List.singleton_append] at haccounts
  refine ⟨?_, nofun, h.nodup, ?_, ?_⟩
  · simpa [State.accounts, State.takePermit] using hgive.trans haccounts
  · simp [State.takePermit, hwaiters]
  · exact unnotified_modify h.unnotified fun f => nofun

structure Registers (f f' : Notified) : Prop where
  notified : f'.notified = f.notified
  registered : f'.registered = true
  phase : f'.phase = f.phase
  completed : f'.completed = f.completed
  call : f'.call = f.call

theorem Registers.account {f' : Notified} (h : Registers f f') : f'.account = f.account := by
  simp only [Notified.account, h.completed, h.phase, h.call]

theorem Registers.waiting {f' : Notified} (h : Registers f f') (hnotified : f.notified = false)
    (hphase : f.phase ≠ .dropped) : f'.Waiting :=
  ⟨h.notified.trans hnotified, h.registered, h.phase ▸ hphase⟩

theorem Sound.register (h : s.Sound) (hf : s.futures[i]? = some f)
    (hnotified : f.notified = false) (hregistered : f.registered = false)
    (hphase : f.phase = .live) (hpermit : s.permit = false) (hg : ∀ f, Registers f (g f)) :
    Sound { s with waiters := s.waiters ++ [i], futures := s.futures.modify i g } := by
  have hnew : i ∉ s.waiters := by
    intro hi
    obtain ⟨f', hf', -, htrue, -⟩ := h.waiting i hi
    obtain rfl : f = f' := Option.some.inj (hf.symm.trans hf')
    exact Bool.false_ne_true (hregistered.symm.trans htrue)
  have hmodify := h.modify (i := i) (g := g) (fun f _ => (hg f).account)
    (fun hi => absurd hi hnew) fun f hfalse => ⟨(hg f).notified ▸ hfalse, (hg f).call⟩
  refine ⟨hmodify.accounts, ?_, ?_, ?_, hmodify.unnotified⟩
  · simp [hpermit]
  · have hswap : ([i] ++ s.waiters).Nodup := List.nodup_cons.mpr ⟨hnew, h.nodup⟩
    exact List.nodup_append_comm.mp hswap
  · intro j hj
    rcases List.mem_append.mp hj with hj | hj
    · exact hmodify.waiting j hj
    · rw [List.mem_singleton.mp hj]
      exact ⟨g f, by simp [hf], (hg f).waiting hnotified (by simp [hphase])⟩

theorem Sound.enable (h : s.Sound) (hf : s.futures[i]? = some f) (hphase : f.phase = .live) :
    (s.enable i f).Sound := by
  unfold State.enable
  split_ifs with hready hpermit
  · exact h
  · exact h.takePermit hf (by simp_all) hphase hpermit false
  · simp only [Bool.or_eq_true, not_or, Bool.not_eq_true] at hready hpermit
    exact h.register hf hready.2 hready.1 hphase hpermit fun f => ⟨rfl, rfl, rfl, rfl, rfl⟩

theorem Sound.poll (h : s.Sound) (hf : s.futures[i]? = some f) (hphase : f.phase = .live)
    (waker : ℕ) : (s.poll i f waker).Sound := by
  unfold State.poll
  split_ifs with hnotified hpermit hregistered
  · refine h.modify (fun f' hf' => ?_) (fun _ f => id) fun f hfalse => ⟨hfalse, rfl⟩
    obtain rfl : f = f' := Option.some.inj (hf.symm.trans hf')
    simp [Notified.account, hphase]
  · simp only [Bool.and_eq_true, Bool.not_eq_true'] at hpermit
    exact h.takePermit hf (by simpa using hnotified) hphase hpermit.2 true
  · refine h.modify (fun f' hf' => rfl) (fun _ f hwaiting => ?_) fun f hfalse => ⟨hfalse, rfl⟩
    exact ⟨hwaiting.1, rfl, hwaiting.2.2⟩
  · have hfalse : f.registered = false := by simpa using hregistered
    have hnone : s.permit = false := by simpa [hfalse] using hpermit
    exact h.register hf (by simpa using hnotified) hfalse hphase hnone
      fun f => ⟨rfl, rfl, rfl, rfl, rfl⟩

theorem account_dropped (hf : s.futures[i]? = some f) (hsettled : s.settled i = true) :
    Notified.account { f with phase := .dropped } = f.account := by
  have hcompleted : f.completed = true ∨ f.call = none := by
    simpa [settled, hf, Option.isNone_iff_eq_none] using hsettled
  rcases hcompleted with htrue | hnone
  · simp [Notified.account, htrue]
  · simp [Notified.account, hnone]

theorem Sound.drop (h : s.Sound) (hf : s.futures[i]? = some f) (hphase : f.phase = .live)
    (hsettled : s.settled i = true) : (s.drop i f).Sound := by
  unfold State.drop
  split_ifs with hready
  · refine h.modify (fun f' hf' => ?_) (fun hi => ?_) fun f hfalse => ⟨hfalse, rfl⟩
    · obtain rfl : f = f' := Option.some.inj (hf.symm.trans hf')
      exact account_dropped hf hsettled
    · obtain ⟨f', hf', hwaiting⟩ := h.waiting i hi
      obtain rfl : f = f' := Option.some.inj (hf.symm.trans hf')
      simp [hwaiting.1, hwaiting.2.1] at hready
  · refine h.modify (fun f' hf' => ?_) (fun _ f hwaiting => ?_) fun f hfalse => ⟨hfalse, rfl⟩
    · obtain rfl : f = f' := Option.some.inj (hf.symm.trans hf')
      simp [Notified.account, hphase]
    · exact ⟨hwaiting.1, hwaiting.2.1, nofun⟩

theorem Sound.unregister (h : s.Sound) (hsettled : s.settled i = true) :
    (s.unregister i).Sound := by
  have haccount : ∀ f, s.futures[i]? = some f →
      Notified.account { f with phase := .dropped } = f.account :=
    fun f hf => account_dropped hf hsettled
  refine ⟨?_, fun hpermit => ?_, h.nodup.filter _, ?_, ?_⟩
  · exact h.accounts_of_eq rfl rfl rfl (filterMap_modify_of_eq haccount)
  · simp [State.unregister, h.permit hpermit]
  · refine h.waiting_modify (List.filter_subset_self _) fun hi => ?_
    exact absurd (List.mem_filter.mp hi).2 (by simp)
  · exact unnotified_modify h.unnotified fun f hfalse => ⟨hfalse, rfl⟩

theorem Sound.wake (h : s.Sound) (k : ℕ) : (s.wake k i f).Sound := by
  have hmodify := h.modify (i := i) (g := fun f => { f with waker := none }) (fun f _ => rfl)
    (fun _ f => id) fun f hfalse => ⟨hfalse, rfl⟩
  exact ⟨hmodify.accounts, hmodify.permit, hmodify.nodup, hmodify.waiting, hmodify.unnotified⟩

theorem future_eq_some {phase : Phase} (hf : s.future i phase = some f) :
    s.futures[i]? = some f ∧ f.phase = phase := by
  simpa [future, Option.filter_eq_some_iff] using hf

theorem Sound.step {t : State} {a : Label} (h : s.Sound) (hsettled : s.Settled a)
    (hstep : Notify.step s a = some t) : t.Sound := by
  cases a with
  | notified =>
    cases hstep
    exact h.notified
  | notifyOne =>
    cases hstep
    exact h.notifyOne
  | notifyWaiters =>
    cases hstep
    exact h.notifyWaiters
  | wake k =>
    obtain ⟨i, -, hwake⟩ := Option.bind_eq_some_iff.mp hstep
    obtain ⟨f, -, rfl⟩ := Option.map_eq_some_iff.mp hwake
    exact h.wake k
  | enable i =>
    obtain ⟨f, hf, rfl⟩ := Option.map_eq_some_iff.mp hstep
    obtain ⟨hf, hphase⟩ := future_eq_some hf
    exact h.enable hf hphase
  | poll i proceed waker =>
    obtain ⟨f, hf, rfl⟩ := Option.map_eq_some_iff.mp hstep
    obtain ⟨hf, hphase⟩ := future_eq_some hf
    cases proceed with
    | false => exact ⟨h.accounts, h.permit, h.nodup, h.waiting, h.unnotified⟩
    | true => exact h.poll hf hphase waker
  | drop i =>
    obtain ⟨f, hf, rfl⟩ := Option.map_eq_some_iff.mp hstep
    obtain ⟨hf, hphase⟩ := future_eq_some hf
    exact h.drop hf hphase hsettled
  | unregister i =>
    obtain ⟨f, -, rfl⟩ := Option.map_eq_some_iff.mp hstep
    exact h.unregister hsettled

theorem Sound.lost {t : State} (h : s.Sound) (hf : s.futures[i]? = some f)
    (hphase : f.phase ≠ .dropped) (hsettled : s.settled i ≠ true)
    (hdropped : t.futures = s.futures.modify i fun f => { f with phase := .dropped })
    (hpermit : t.permit = s.permit) (hstored : t.stored = s.stored) (hcalls : t.calls = s.calls) :
    ¬ t.Accounted := by
  rintro ⟨haccounts, -⟩
  have hcompleted : f.completed = false ∧ f.call.isSome = true := by
    simpa [settled, hf, Option.isSome_iff_ne_none] using hsettled
  obtain ⟨hincomplete, hcall⟩ := hcompleted
  obtain ⟨n, hn⟩ := Option.isSome_iff_exists.mp hcall
  have hheld : f.account = some n := by simp [Notified.account, hphase, hn]
  have hgone : Notified.account { f with phase := .dropped } = none := by
    simp [Notified.account, hincomplete]
  have hlost := filterMap_modify_release (f := fun f => { f with phase := .dropped })
    hf hheld hgone
  rw [← hdropped] at hlost
  have hlength := hlost.length_eq
  have hbefore := h.accounts.length_eq
  have hafter := haccounts.length_eq
  simp only [State.accounts, hpermit, hstored, hcalls, List.length_append, List.length_range]
    at hbefore hafter
  rw [List.length_cons] at hlength
  omega

theorem Sound.settled_of_accounted {t : State} {a : Label} (h : s.Sound)
    (hstep : Notify.step s a = some t) (haccounted : t.Accounted) : s.Settled a := by
  cases a with
  | notified | notifyOne | notifyWaiters | wake | enable | poll => trivial
  | drop i =>
    by_contra hsettled
    obtain ⟨f, hf, rfl⟩ := Option.map_eq_some_iff.mp hstep
    obtain ⟨hf, hphase⟩ := future_eq_some hf
    have hnotified : f.notified = true := by
      by_contra hfalse
      have hcall := h.unnotified f (List.mem_of_getElem? hf) (Bool.eq_false_of_not_eq_true hfalse)
      exact hsettled (by simp [Settled, settled, hf, hcall])
    refine h.lost (t := s.drop i f) hf (by simp [hphase]) hsettled ?_ rfl rfl rfl haccounted
    simp [State.drop, hnotified]
  | unregister i =>
    by_contra hsettled
    obtain ⟨f, hf, rfl⟩ := Option.map_eq_some_iff.mp hstep
    obtain ⟨hf, hphase⟩ := future_eq_some hf
    exact h.lost (t := s.unregister i) hf (by simp [hphase]) hsettled rfl rfl rfl rfl haccounted

end State

/-- No notification is lost up to the first drop of a future that a `notify_one` was assigned to
and that has not completed, and that drop loses it. -/
theorem notifications_accounted (s : State) (hs : Reachable step State.Settled .new s) :
    s.Accounted ∧ ∀ a t, step s a = some t → (t.Accounted ↔ s.Settled a) := by
  have hsound : s.Sound := hs.invariant State.Sound.new fun _ _ _ h hsettled hstep =>
    h.step hsettled hstep
  refine ⟨⟨hsound.accounts, hsound.permit⟩, fun a t hstep => ⟨?_, fun hsettled => ?_⟩⟩
  · exact hsound.settled_of_accounted hstep
  · have := hsound.step hsettled hstep
    exact ⟨this.accounts, this.permit⟩

/-- A future is notified and dropped before it is polled again: the notification is gone. -/
theorem notification_lost : ¬ ∀ s, Reachable step anyStep .new s → s.Accounted := by
  intro h
  have hrun : (run (guarded step anyStep) .new
      [.notified, .notified, .poll 0 true 7, .poll 1 true 8, .notifyOne, .wake 0, .drop 0]).any
      (fun s => decide (¬ s.Accounted)) = true := by decide +kernel
  obtain ⟨s, hreach, hs⟩ := exists_reachable_of_run hrun
  exact of_decide_eq_true hs (h s hreach)

/-- Two futures wait, the first is notified and completes, the other is dropped. -/
theorem notifications_accounted_once : ∃ s, Reachable step State.Settled .new s ∧
    s.calls = 1 ∧ s.Accounted ∧ ∀ a t, step s a = some t → (t.Accounted ↔ s.Settled a) := by
  have hrun : (run (guarded step State.Settled) .new
      [.notified, .notified, .poll 0 true 7, .poll 1 true 8, .notifyOne, .wake 0,
        .poll 0 true 7, .drop 0, .drop 1, .unregister 1]).any
      (fun s => decide (s.calls = 1)) = true := by decide +kernel
  obtain ⟨s, hreach, hs⟩ := exists_reachable_of_run hrun
  exact ⟨s, hreach, of_decide_eq_true hs, notifications_accounted s hreach⟩

end Eddy.Notify
