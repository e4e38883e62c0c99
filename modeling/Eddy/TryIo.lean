import Eddy.Interleaving
import Eddy.ScheduledIo

/-!
# The clear after a syscall that would block

`Registration::try_io_with` of `io/mod.rs` against the dispatcher's calls of
`set_readiness_and_wake` on the same descriptor. The kernel is one-shot: after an event it reports
the next one only once the descriptor is rearmed. Other tasks may add and remove waiters.
-/

namespace Eddy.TryIo
open Interleaving ScheduledIo

/-- Where the task is in `try_io_with`. -/
inductive Place where
  | calls
  /-- Before `reregister`, with whether the syscall returned `WouldBlock`. -/
  | rearms (blocked : Bool)
  | loads
  /-- In `clear_ready`, before its first load. -/
  | clears (gen : UInt32) (seen : Ready)
  /-- Before the exchange of `expected` for `new`. -/
  | swaps (gen : UInt32) (seen : Ready) (expected new : UInt64)
  | returned
  deriving DecidableEq

/-- A call of `set_readiness_and_wake`, with the interests of the waiters that it woke. -/
structure Report where
  ready : Ready
  woken : List Interest
  deriving DecidableEq

def Report.awaited (r : Report) (b : ℕ) : Bool :=
  r.woken.any fun interest => interestSatisfied interest ⟨1 <<< UInt16.ofNat b⟩

structure State where
  /-- The interests of the registration. -/
  interests : Interest
  /-- The interest of the operation. -/
  interest : Interest
  packed : UInt64
  /-- The call that holds the lock of the waiters, with the word that it has loaded. -/
  holder : Option (UInt64 × Ready)
  waiters : List Interest
  /-- The kernel may report an event. -/
  armed : Bool
  /-- Reported by the kernel and not dispatched. -/
  events : List Ready
  place : Place
  /-- The calls of `set_readiness_and_wake` since the syscall. -/
  reports : List Report

inductive Label where
  | syscall (blocked : Bool)
  | rearm (ok : Bool)
  | load
  | clear
  /-- `compare_exchange_weak`, which may fail without a reason. -/
  | swap (spurious : Bool)
  | event (ready : Ready)
  /-- The dispatcher takes the next event, locks the waiters and loads the word. -/
  | lock
  /-- It stores the word, takes the waiters off and wakes them. -/
  | report
  | addWaiter (interest : Interest)
  | removeWaiter (interest : Interest)

/-- The checks of `clear_ready` on a word that it has loaded. -/
def attempt (gen : UInt32) (seen : Ready) (packed : UInt64) : Place :=
  match clearReady packed gen seen with
  | none => .returned
  | some new => .swaps gen seen packed new

namespace State

def init (interests interest : Interest) (packed : UInt64) (waiters : List Interest)
    (armed : Bool) (events : List Ready) : State :=
  ⟨interests, interest, packed, none, waiters, armed, events, .calls, []⟩

/-- From the store of `set_readiness_and_wake` on. -/
def report (s : State) (loaded : UInt64) (ready : Ready) : State :=
  { s with
    packed := setReadiness loaded ready
    holder := none
    waiters := s.waiters.filter fun interest => !interestSatisfied interest ready
    reports :=
      if s.place = .calls then s.reports
      else s.reports ++ [⟨ready, s.waiters.filter fun interest => interestSatisfied interest ready⟩] }

/-- After the descriptor is rearmed. -/
def checks (blocked : Bool) : Place := if blocked then .loads else .returned

def step (s : State) : Label → Option State
  | .syscall blocked =>
      match s.place with
      | .calls => some { s with
          place := if s.interests.isEdgeTriggered then .rearms blocked else checks blocked }
      | _ => none
  | .rearm ok =>
      match s.place with
      | .rearms blocked =>
          if ok then some { s with armed := true, place := checks blocked }
          else some { s with place := .returned }
      | _ => none
  | .load =>
      match s.place with
      | .loads => some { s with
          place := match readiness s.packed s.interest with
            | none => .returned
            | some (gen, seen) => .clears gen seen }
      | _ => none
  | .clear =>
      match s.place with
      | .clears gen seen => some { s with place := attempt gen seen s.packed }
      | _ => none
  | .swap spurious =>
      match s.place with
      | .swaps gen seen expected new =>
          if s.packed = expected ∧ spurious = false then
            some { s with packed := new, place := .returned }
          else some { s with place := attempt gen seen s.packed }
      | _ => none
  | .event ready =>
      if s.interests.isEdgeTriggered then
        if s.armed then some { s with armed := false, events := s.events ++ [ready] } else none
      else some { s with events := s.events ++ [ready] }
  | .lock =>
      match s.holder, s.events with
      | none, ready :: events => some { s with holder := some (s.packed, ready), events }
      | _, _ => none
  | .report => s.holder.map fun (loaded, ready) => s.report loaded ready
  | .addWaiter interest =>
      match s.holder, readiness s.packed interest with
      | none, none => some { s with waiters := s.waiters ++ [interest] }
      | _, _ => none
  | .removeWaiter interest =>
      match s.holder with
      | none => some { s with waiters := s.waiters.erase interest }
      | some _ => none

/-- Every bit reported since the syscall is set, or a waiter was woken for it. -/
def AllKept (s : State) : Prop :=
  ∀ r ∈ s.reports, ∀ b < 16, r.ready.bits.toBitVec.getLsbD b = true →
    (ready s.packed).bits.toBitVec.getLsbD b = true ∨ r.awaited b = true

instance (s : State) : Decidable s.AllKept := by
  unfold AllKept
  infer_instance

/-- Once the call has returned, no bit reported since the syscall is lost. -/
def Survives (s : State) : Prop := s.place = .returned → s.AllKept

instance (s : State) : Decidable s.Survives := by
  unfold Survives
  infer_instance

/-- Waiters were woken for every bit reported since the syscall. -/
def AllAwaited (s : State) : Prop :=
  ∀ r ∈ s.reports, ∀ b < 16, r.ready.bits.toBitVec.getLsbD b = true → r.awaited b = true

instance (s : State) : Decidable s.AllAwaited := by
  unfold AllAwaited
  infer_instance

/-- The exchange succeeds only if waiters were woken for what was reported since the syscall. -/
def Fits (s : State) : Label → Prop
  | .swap spurious =>
      match s.place with
      | .swaps _ _ expected _ => s.packed = expected → spurious = false → s.AllAwaited
      | _ => True
  | _ => True

instance (s : State) (l : Label) : Decidable (Fits s l) := by
  unfold Fits
  split
  · split <;> infer_instance
  · infer_instance

structure Inv (s : State) : Prop where
  kept : s.AllKept
  /-- What a call has loaded covers what is set: only the task clears. -/
  loaded : ∀ loaded r, s.holder = some (loaded, r) → ∀ b < 16,
    (ready s.packed).bits.toBitVec.getLsbD b = true →
    (ready loaded).bits.toBitVec.getLsbD b = true
  swaps : ∀ gen seen expected new, s.place = .swaps gen seen expected new →
    clearReady expected gen seen = some new
  calls : s.place = .calls → s.reports = []

variable {s t : State} {l : Label}

theorem attempt_eq_swaps {gen gen' : UInt32} {seen seen' : Ready} {packed expected new : UInt64}
    (h : attempt gen seen packed = .swaps gen' seen' expected new) :
    clearReady expected gen' seen' = some new := by
  unfold attempt at h
  split at h
  · cases h
  · rename_i hclear
    cases h
    exact hclear

theorem attempt_ne_calls (gen : UInt32) (seen : Ready) (packed : UInt64) :
    attempt gen seen packed ≠ .calls := by
  unfold attempt
  split <;> simp

theorem checks_cases (blocked : Bool) : checks blocked = .loads ∨ checks blocked = .returned := by
  cases blocked
  · exact .inr rfl
  · exact .inl rfl

theorem inv_init (interests interest : Interest) (packed : UInt64) (waiters : List Interest)
    (armed : Bool) (events : List Ready) :
    (init interests interest packed waiters armed events).Inv where
  kept r hr := by cases hr
  loaded _ _ h := by cases h
  swaps _ _ _ _ h := by cases h
  calls _ := rfl

/-- Only the place of the task and the kernel's side change. -/
theorem Inv.moved (h : s.Inv) (hpacked : t.packed = s.packed) (hreports : t.reports = s.reports)
    (hholder : t.holder = s.holder) (hcalls : t.place = .calls → s.place = .calls)
    (hswaps : ∀ gen seen expected new, t.place = .swaps gen seen expected new →
      clearReady expected gen seen = some new) : t.Inv where
  kept := by
    unfold AllKept
    rw [hpacked, hreports]
    exact h.kept
  loaded := by
    rw [hpacked, hholder]
    exact h.loaded
  swaps := hswaps
  calls hplace := hreports.trans (h.calls (hcalls hplace))

/-- The kernel or another task makes a step. -/
theorem Inv.beside (h : s.Inv) (hpacked : t.packed = s.packed) (hreports : t.reports = s.reports)
    (hholder : t.holder = s.holder) (hplace : t.place = s.place) : t.Inv :=
  h.moved hpacked hreports hholder (fun hcalls => hplace ▸ hcalls)
    fun gen seen expected new hswaps => h.swaps gen seen expected new (hplace ▸ hswaps)

/-- A report sets its bits and keeps those that were set. -/
theorem Inv.report (h : s.Inv) {loaded : UInt64} {r : Ready}
    (hholder : s.holder = some (loaded, r)) : (s.report loaded r).Inv := by
  have hset : ∀ b, (ready (s.report loaded r).packed).bits.toBitVec.getLsbD b =
      ((ready loaded).bits.toBitVec.getLsbD b || r.bits.toBitVec.getLsbD b) := by
    intro b
    simp only [State.report, ready_setReadiness, Ready.union, UInt16.toBitVec_or,
      BitVec.getLsbD_or]
  refine ⟨fun r' hr' b hb hbit => ?_, fun _ _ hnone => (by cases hnone), h.swaps, fun hcalls => ?_⟩
  · have hold : r' ∈ s.reports → _ := fun hmem => h.kept r' hmem b hb hbit
    rw [hset]
    have hcase : r' ∈ s.reports ∨ r'.ready = r := by
      simp only [State.report] at hr'
      split_ifs at hr' with hplace
      · exact .inl hr'
      · rcases List.mem_append.mp hr' with hr' | hr'
        · exact .inl hr'
        · exact .inr (congrArg Report.ready (List.mem_singleton.mp hr'))
    rcases hcase with hmem | rfl
    · refine (hold hmem).imp_left fun hpacked => ?_
      rw [h.loaded loaded r hholder b hb hpacked, Bool.true_or]
    · exact .inl (by rw [hbit, Bool.or_true])
  · have hplace : s.place = .calls := hcalls
    simp only [State.report, hplace, if_true]
    exact h.calls hplace

/-- The exchange clears all the bits: what was reported must have been awaited. -/
theorem allKept_swapped (h : s.Inv) {gen : UInt32} {seen : Ready} {expected new : UInt64}
    (hplace : s.place = .swaps gen seen expected new) :
    AllKept { s with packed := new, place := .returned } ↔ s.AllAwaited := by
  have hnew : ready new = ⟨0⟩ := ready_clearReady (h.swaps _ _ _ _ hplace)
  refine forall₂_congr fun r hr => forall₂_congr fun b hb => forall_congr' fun hbit => ?_
  simp [hnew]

theorem inv_step (h : s.Inv) (hfits : s.Fits l) (hstep : s.step l = some t) : t.Inv := by
  cases l with
  | syscall blocked =>
    simp only [step] at hstep
    split at hstep
    · cases hstep
      refine h.moved rfl rfl rfl (fun hcalls => ?_) fun _ _ _ _ hswaps => ?_
      · assumption
      · dsimp only at hswaps
        rcases checks_cases blocked with hchecks | hchecks <;>
          split_ifs at hswaps <;> simp_all
    · cases hstep
  | rearm ok =>
    simp only [step] at hstep
    split at hstep
    · rename_i blocked hplace
      have hmoved : ∀ place, place = Place.loads ∨ place = Place.returned → ∀ armed,
          Inv { s with armed, place } := by
        intro place hor armed
        refine h.moved rfl rfl rfl (fun hcalls => ?_) fun _ _ _ _ hswaps => ?_
        · rcases hor with rfl | rfl <;> cases hcalls
        · rcases hor with rfl | rfl <;> cases hswaps
      split_ifs at hstep
      · cases hstep
        exact hmoved _ (checks_cases blocked) true
      · cases hstep
        exact hmoved _ (.inr rfl) s.armed
    · cases hstep
  | load =>
    simp only [step] at hstep
    split at hstep
    · cases hstep
      refine h.moved rfl rfl rfl (fun hcalls => ?_) fun _ _ _ _ hswaps => ?_
      · dsimp only at hcalls
        split at hcalls <;> cases hcalls
      · dsimp only at hswaps
        split at hswaps <;> cases hswaps
    · cases hstep
  | clear =>
    simp only [step] at hstep
    split at hstep
    · cases hstep
      exact h.moved rfl rfl rfl (fun hcalls => absurd hcalls (attempt_ne_calls _ _ _))
        fun _ _ _ _ hswaps => attempt_eq_swaps hswaps
    · cases hstep
  | swap spurious =>
    simp only [step] at hstep
    split at hstep
    · rename_i gen seen expected new hplace
      split_ifs at hstep with hswap
      · cases hstep
        simp only [Fits, hplace] at hfits
        have hawaited := hfits hswap.1 hswap.2
        have hnew : ready new = ⟨0⟩ := ready_clearReady (h.swaps _ _ _ _ hplace)
        refine ⟨(allKept_swapped h hplace).mpr hawaited, fun _ _ _ b hb hbit => ?_,
          fun _ _ _ _ hswaps => (by cases hswaps), fun hcalls => by cases hcalls⟩
        simp [hnew] at hbit
      · cases hstep
        exact h.moved rfl rfl rfl (fun hcalls => absurd hcalls (attempt_ne_calls _ _ _))
          fun _ _ _ _ hswaps => attempt_eq_swaps hswaps
    · cases hstep
  | event ready =>
    simp only [step] at hstep
    split_ifs at hstep <;> cases hstep <;> exact h.beside rfl rfl rfl rfl
  | lock =>
    simp only [step] at hstep
    split at hstep
    · cases hstep
      exact ⟨h.kept, fun _ _ hsome b _ hbit => (by cases hsome; exact hbit), h.swaps, h.calls⟩
    · cases hstep
  | report =>
    obtain ⟨⟨loaded, r⟩, hholder, rfl⟩ := Option.map_eq_some_iff.mp hstep
    exact h.report hholder
  | addWaiter interest | removeWaiter interest =>
    simp only [step] at hstep
    split at hstep
    · cases hstep
      exact h.beside rfl rfl rfl rfl
    · cases hstep

/-- The exchange that the condition forbids loses what was reported. -/
theorem not_survives_of_not_fits (h : s.Inv) (hfits : ¬ s.Fits l) (hstep : s.step l = some t) :
    ¬ t.Survives := by
  cases l with
  | swap spurious =>
    simp only [step] at hstep
    split at hstep
    · rename_i gen seen expected new hplace
      simp only [Fits, hplace, Classical.not_imp] at hfits
      obtain ⟨hpacked, hspurious, hawaited⟩ := hfits
      rw [if_pos ⟨hpacked, hspurious⟩] at hstep
      cases hstep
      exact fun hsurvives => hawaited ((allKept_swapped h hplace).mp (hsurvives rfl))
    · cases hstep
  | syscall | rearm | load | clear | event | lock | report | addWaiter | removeWaiter =>
    exact absurd trivial hfits

/-- In a run whose steps meet the condition every report survives the clear, and the first step
that does not meet it loses one. -/
theorem reports_survive_the_clear (interests interest : Interest) (packed : UInt64)
    (waiters : List Interest) (armed : Bool) (events : List Ready) (s : State)
    (hs : Reachable step Fits (init interests interest packed waiters armed events) s) :
    s.Survives ∧ ∀ l t, s.step l = some t → (t.Survives ↔ s.Fits l) := by
  have h : s.Inv := hs.invariant (inv_init interests interest packed waiters armed events)
    fun _ _ _ h hfits hstep => inv_step h hfits hstep
  refine ⟨fun _ => h.kept, fun l t hstep => ⟨fun hsurvives => ?_, fun hfits _ => ?_⟩⟩
  · by_contra hfits
    exact not_survives_of_not_fits h hfits hstep hsurvives
  · exact (inv_step h hfits hstep).kept

/-- A new bit is reported between the load and the exchange, which is abandoned. -/
theorem reports_survive_the_clear_after_new_bit :
    ∃ s, Reachable step Fits
        (init ⟨0b0111⟩ .READABLE (setReadiness (new 1) .READABLE) [] false []) s ∧
      s.Survives ∧ s.place = .returned ∧ s.reports = [⟨.WRITABLE, []⟩] := by
  have hrun : (run (guarded step Fits)
      (init ⟨0b0111⟩ .READABLE (setReadiness (new 1) .READABLE) [] false [])
      [.syscall true, .rearm true, .load, .clear, .event .WRITABLE, .lock, .report,
        .swap false]).any (fun s => decide (s.place = .returned ∧
          s.reports = [⟨.WRITABLE, []⟩])) = true := by
    decide +kernel
  obtain ⟨s, hreach, hs⟩ := exists_reachable_of_run hrun
  obtain ⟨hplace, hreports⟩ := of_decide_eq_true hs
  exact ⟨s, hreach, (reports_survive_the_clear _ _ _ _ _ _ s hreach).1, hplace, hreports⟩

/-- The descriptor becomes readable after the syscall, and the load sees it. -/
theorem report_is_cleared :
    ∃ s, Reachable step anyStep (init ⟨0b0101⟩ .READABLE (new 1) [] false []) s ∧
      ¬ s.Survives := by
  have hrun : (run (guarded step anyStep) (init ⟨0b0101⟩ .READABLE (new 1) [] false [])
      [.syscall true, .rearm true, .event .READABLE, .lock, .report, .load, .clear,
        .swap false]).any (fun s => decide (¬ s.Survives)) = true := by
    decide +kernel
  obtain ⟨s, hreach, hs⟩ := exists_reachable_of_run hrun
  exact ⟨s, hreach, of_decide_eq_true hs⟩

end State

end Eddy.TryIo
