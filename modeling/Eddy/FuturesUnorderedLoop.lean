import Mathlib.Data.Nat.Cast.Basic
import Mathlib.Algebra.BigOperators.Group.Finset.Basic
import Mathlib.Algebra.Order.BigOperators.Group.List
import Mathlib.Logic.Function.Iterate
import Eddy.Coop
import Eddy.FuturesUnordered

/-!
# The loop of one poll

`poll_next_inner` as one run of its loop, in which a member may wake its own waker before its poll
returns. What the `k`-th poll of a member in this call does is given in advance. The loop comes to an
end when a member completes or when the wakes of all members run out, and only then.
-/

namespace Eddy.FuturesUnordered
open Finset
open Function (update)

variable {β : Type}

structure Poll (β : Type) where
  /-- How often the member wakes its own waker. -/
  wakes : ℕ
  output : Option β

/-- The polls of the members in one call, each by its number. -/
abbrev Behaviour (β : Type) := ℕ → ℕ → Poll β

/-- `EntryWake::wake` -/
def Members.wakeOuter (s : Members) (id : ℕ) : Members := { s.wake id with outer := none }

structure Loop where
  set : Members
  polls : ℕ → ℕ

/-- The poll of the member. -/
def Loop.polled (b : Behaviour β) (l : Loop) (id : ℕ) : Loop :=
  { set := (fun s => s.wakeOuter id)^[(b id (l.polls id)).wakes] l.set
    polls := update l.polls id (l.polls id + 1) }

/-- The body of the loop: how it goes on, or what it returns. -/
def Loop.iterate (b : Behaviour β) (l : Loop) : Loop ⊕ Answer β × Loop :=
  match l.set.ready with
  | [] => .inr (if l.set.entries = [] then .done else .pending, l)
  | id :: ready =>
    let l := { l with set := { l.set with ready := ready } }
    if id ∈ l.set.entries then
      match (b id (l.polls id)).output with
      | some output =>
        let l := l.polled b id
        .inr (.item output, { l with set := { l.set with entries := l.set.entries.erase id } })
      | none => .inl (l.polled b id)
    else .inl l

/-- The loop, undefined when it has not returned after so many rounds. -/
def Loop.run (b : Behaviour β) : ℕ → Loop → Option (Answer β × Loop)
  | 0, _ => none
  | fuel + 1, l =>
    match l.iterate b with
    | .inl l => Loop.run b fuel l
    | .inr result => some result

def pollNextInner (b : Behaviour β) (fuel call : ℕ) (s : Members) : Option (Answer β × Loop) :=
  Loop.run b fuel ⟨{ s with outer := some call }, fun _ => 0⟩

/-- The ids in the queue and the wakes of its earlier polls are enough for one more poll of the
member after the `k`-th. -/
def Wakes (b : Behaviour β) (s : Members) (id k : ℕ) : Prop :=
  k < s.ready.count id + ∑ i ∈ range k, (b id i).wakes

/-- The member is polled so often when no other one completes. -/
def Reaches (b : Behaviour β) (s : Members) (id k : ℕ) : Prop := ∀ j ≤ k, Wakes b s id j

/-- A member completes in a poll that its wakes lead to, or all members stop waking themselves. -/
def Settles (b : Behaviour β) (s : Members) : Prop :=
  (∃ id ∈ s.entries, ∃ k, Reaches b s id k ∧ (b id k).output.isSome) ∨
    ∀ id ∈ s.entries, ∃ k, ¬ Reaches b s id k

namespace Loop
variable {b : Behaviour β} {l l' : Loop} {id : ℕ}

theorem iterate_wakeOuter (s : Members) (id n : ℕ) :
    ((fun s : Members => s.wakeOuter id)^[n] s).entries = s.entries ∧
      ((fun s : Members => s.wakeOuter id)^[n] s).ready = s.ready ++ List.replicate n id := by
  induction n generalizing s with
  | zero => simp
  | succ n ih =>
    rw [Function.iterate_succ_apply]
    obtain ⟨hentries, hready⟩ := ih (s.wakeOuter id)
    refine ⟨hentries, hready.trans ?_⟩
    simp [Members.wakeOuter, Members.wake, List.replicate_succ]

/-- What a round of the loop does that goes on. -/
inductive Round (b : Behaviour β) (l : Loop) : Loop → Prop where
  | stale {id ready} (queue : l.set.ready = id :: ready) (gone : id ∉ l.set.entries) :
      Round b l { l with set := { l.set with ready := ready } }
  | poll {id ready l'} (queue : l.set.ready = id :: ready) (live : id ∈ l.set.entries)
      (pending : (b id (l.polls id)).output = none) (entries : l'.set.entries = l.set.entries)
      (ready : l'.set.ready = ready ++ List.replicate (b id (l.polls id)).wakes id)
      (polls : l'.polls = update l.polls id (l.polls id + 1)) : Round b l l'

theorem round_of_iterate (h : l.iterate b = .inl l') : Round b l l' := by
  unfold iterate at h
  split at h
  · cases h
  · next id ready hqueue =>
    simp only at h
    split_ifs at h with hlive
    · split at h
      · cases h
      · next hpending =>
        cases h
        obtain ⟨hentries, hready⟩ := iterate_wakeOuter { l.set with ready := ready } id
          (b id (l.polls id)).wakes
        exact .poll hqueue hlive hpending hentries hready rfl
    · cases h
      exact .stale hqueue hlive

def next (b : Behaviour β) (l : Loop) : Loop := (l.iterate b).elim (fun l => l) Prod.snd

theorem exists_run_iff :
    (∃ fuel r, run b fuel l = some r) ↔ ∃ n, ((next b)^[n] l |>.iterate b).isRight := by
  constructor
  · rintro ⟨fuel, r, hrun⟩
    induction fuel generalizing l with
    | zero => cases hrun
    | succ fuel ih =>
      rw [run] at hrun
      cases hiter : l.iterate b with
      | inr result => exact ⟨0, by simp [hiter]⟩
      | inl l' =>
        rw [hiter] at hrun
        obtain ⟨n, hn⟩ := ih hrun
        exact ⟨n + 1, by rwa [Function.iterate_succ_apply, next, hiter]⟩
  · rintro ⟨n, hn⟩
    induction n generalizing l with
    | zero =>
      obtain ⟨result, hresult⟩ := Sum.isRight_iff.mp hn
      exact ⟨1, result, by rw [run, show l.iterate b = _ from hresult]⟩
    | succ n ih =>
      cases hiter : l.iterate b with
      | inr result => exact ⟨1, result, by rw [run, hiter]⟩
      | inl l' =>
        rw [Function.iterate_succ_apply, next, hiter] at hn
        obtain ⟨fuel, r, hrun⟩ := ih hn
        exact ⟨fuel + 1, r, by rw [run, hiter]; exact hrun⟩

/-- The ids in the queue are those that were there and the wakes of the polls so far, less the
polls. -/
structure Balanced (b : Behaviour β) (s : Members) (l : Loop) : Prop where
  entries : l.set.entries = s.entries
  count : ∀ id ∈ s.entries, l.set.ready.count id + l.polls id =
    s.ready.count id + ∑ i ∈ range (l.polls id), (b id i).wakes
  woken : ∀ id ∈ s.entries, ∀ k < l.polls id, Wakes b s id k
  pending : ∀ id ∈ s.entries, ∀ k < l.polls id, (b id k).output = none

variable {s : Members}

/-- A member in the queue has the wakes for its next poll. -/
theorem Balanced.reaches (h : Balanced b s l) (hlive : id ∈ s.entries)
    (hready : id ∈ l.set.ready) : Reaches b s id (l.polls id) := by
  intro k hk
  rcases hk.lt_or_eq with hlt | rfl
  · exact h.woken id hlive k hlt
  · have hcount := h.count id hlive
    have hpos := List.count_pos_iff.mpr hready
    unfold Wakes
    omega

theorem Balanced.round (h : Balanced b s l) (hround : Round b l l') : Balanced b s l' := by
  cases hround with
  | @stale x ready hqueue hgone =>
    refine ⟨h.entries, fun id hlive => ?_, h.woken, h.pending⟩
    have hne : x ≠ id := fun heq => hgone (by rw [h.entries, heq]; exact hlive)
    rw [← h.count id hlive, hqueue, List.count_cons_of_ne hne]
  | @poll x ready _ hqueue hlive hpending hentries hready hpolls =>
    have hreaches := h.reaches (h.entries ▸ hlive) (hqueue ▸ List.mem_cons_self)
    refine ⟨hentries.trans h.entries, fun id hid => ?_, fun id hid k hk => ?_, fun id hid k hk => ?_⟩
    · have hcount := h.count id hid
      rw [hqueue] at hcount
      rw [hready, List.count_append, hpolls]
      by_cases hx : id = x
      · subst hx
        rw [Function.update_self, sum_range_succ, List.count_replicate_self]
        rw [List.count_cons_self] at hcount
        omega
      · rw [Function.update_of_ne hx, List.count_replicate, if_neg (by simpa using Ne.symm hx)]
        rw [List.count_cons_of_ne (Ne.symm hx)] at hcount
        omega
    · rw [hpolls] at hk
      by_cases hx : id = x
      · subst hx
        rw [Function.update_self] at hk
        exact hreaches k (Nat.lt_succ_iff.mp hk)
      · rw [Function.update_of_ne hx] at hk
        exact h.woken id hid k hk
    · rw [hpolls] at hk
      by_cases hx : id = x
      · subst hx
        rw [Function.update_self] at hk
        rcases (Nat.lt_succ_iff.mp hk).lt_or_eq with hlt | rfl
        · exact h.pending id hid k hlt
        · exact hpending
      · rw [Function.update_of_ne hx] at hk
        exact h.pending id hid k hk

theorem Balanced.start (b : Behaviour β) (call : ℕ) (s : Members) :
    Balanced b s ⟨{ s with outer := some call }, fun _ => 0⟩ := by
  refine ⟨rfl, fun id _ => by simp, fun id _ k hk => ?_, fun id _ k hk => ?_⟩
  · exact absurd hk (Nat.not_lt_zero k)
  · exact absurd hk (Nat.not_lt_zero k)

/-- The loop does not return when no member completes and one never stops waking itself. -/
theorem Balanced.goes_on (h : Balanced b s l)
    (hpending : ∀ id ∈ s.entries, ∀ k, Reaches b s id k → (b id k).output = none)
    (hwakes : ∃ id ∈ s.entries, ∀ k, Reaches b s id k) : ∃ l', l.iterate b = .inl l' := by
  obtain ⟨x, hx, hreaches⟩ := hwakes
  have hcount := h.count x hx
  have henough := hreaches (l.polls x) (l.polls x) le_rfl
  unfold Wakes at henough
  unfold iterate
  split
  · next hempty =>
    rw [hempty] at hcount
    simp only [List.count_nil] at hcount
    omega
  · next id ready hqueue =>
    simp only
    split_ifs with hlive
    · have hlive : id ∈ s.entries := h.entries ▸ hlive
      have hnone := hpending id hlive _ (h.reaches hlive (hqueue ▸ List.mem_cons_self))
      rw [hnone]
      exact ⟨_, rfl⟩
    · exact ⟨_, rfl⟩

section Endless
variable {ρ : ℕ → Loop} {n : ℕ}

theorem balanced_of_rounds (hrounds : ∀ n, Round b (ρ n) (ρ (n + 1)))
    (hstart : Balanced b s (ρ 0)) (n : ℕ) : Balanced b s (ρ n) := by
  induction n with
  | zero => exact hstart
  | succ n ih => exact ih.round (hrounds n)

theorem Round.polls_le (h : Round b l l') (id : ℕ) : l.polls id ≤ l'.polls id := by
  cases h with
  | stale => exact le_rfl
  | @poll x _ _ _ _ _ _ _ hpolls =>
    rw [hpolls]
    by_cases hx : id = x
    · rw [hx, Function.update_self]
      exact Nat.le_succ _
    · rw [Function.update_of_ne hx]

/-- A member in the queue is polled at last. -/
theorem exists_polled (hrounds : ∀ n, Round b (ρ n) (ρ (n + 1)))
    (hlive : ∀ n, id ∈ (ρ n).set.entries) {p : ℕ} (hp : (ρ n).set.ready[p]? = some id) :
    ∃ m, (ρ n).polls id < (ρ m).polls id := by
  induction p generalizing n with
  | zero =>
    refine ⟨n + 1, ?_⟩
    have hround := hrounds n
    generalize ρ (n + 1) = l' at hround ⊢
    cases hround with
    | @stale x ready hqueue hgone =>
      rw [hqueue] at hp
      obtain rfl : x = id := by simpa using hp
      exact absurd (hlive n) hgone
    | @poll x ready _ hqueue _ _ _ _ hpolls =>
      rw [hqueue] at hp
      obtain rfl : x = id := by simpa using hp
      rw [hpolls, Function.update_self]
      exact Nat.lt_succ_self _
  | succ p ih =>
    have hnext : (ρ (n + 1)).set.ready[p]? = some id := by
      have hround := hrounds n
      generalize ρ (n + 1) = l' at hround ⊢
      cases hround with
      | @stale x ready hqueue hgone =>
        rw [hqueue] at hp
        simpa using hp
      | @poll x ready _ hqueue _ _ _ hready =>
        rw [hqueue, List.getElem?_cons_succ] at hp
        rw [hready, List.getElem?_append_left (List.getElem?_eq_some_iff.mp hp).1, hp]
    obtain ⟨m, hm⟩ := ih hnext
    exact ⟨m, ((hrounds n).polls_le id).trans_lt hm⟩

/-- No member completes in a poll that its wakes lead to. -/
theorem not_completes (hrounds : ∀ n, Round b (ρ n) (ρ (n + 1))) (hstart : Balanced b s (ρ 0))
    (hlive : id ∈ s.entries) {k : ℕ} (hreaches : Reaches b s id k) :
    (b id k).output = none := by
  have hbalanced := balanced_of_rounds hrounds hstart
  have hpolls : ∀ j ≤ k + 1, ∃ n, j ≤ (ρ n).polls id := by
    intro j hj
    induction j with
    | zero => exact ⟨0, Nat.zero_le _⟩
    | succ j ih =>
      obtain ⟨n, hn⟩ := ih (Nat.le_of_succ_le hj)
      rcases hn.lt_or_eq with hlt | heq
      · exact ⟨n, hlt⟩
      have hready : id ∈ (ρ n).set.ready := by
        have hcount := (hbalanced n).count id hlive
        have henough := hreaches j (Nat.le_of_succ_le_succ hj)
        unfold Wakes at henough
        rw [← heq] at hcount
        exact List.count_pos_iff.mp (by omega)
      obtain ⟨p, hp⟩ := List.mem_iff_getElem?.mp hready
      obtain ⟨m, hm⟩ := exists_polled hrounds (fun n => (hbalanced n).entries ▸ hlive) hp
      exact ⟨m, by omega⟩
  obtain ⟨n, hn⟩ := hpolls (k + 1) le_rfl
  exact (hbalanced n).pending id hlive k hn

/-- What is left to do when each member is polled no more often than `limit`. -/
def left (limit : ℕ → ℕ) (l : Loop) : ℕ :=
  (l.set.entries.map fun id => limit id - l.polls id).sum +
    l.set.ready.countP fun id => id ∉ l.set.entries

theorem Round.left_lt {limit : ℕ → ℕ} (h : Round b l l')
    (hlimit : ∀ id ∈ l.set.entries, l'.polls id ≤ limit id) : left limit l' < left limit l := by
  cases h with
  | @stale x ready hqueue hgone =>
    simp [left, hqueue, hgone]
  | @poll x ready _ hqueue hlive _ hentries hready hpolls =>
    unfold left
    rw [hentries]
    refine Nat.add_lt_add_of_lt_of_le ?_ ?_
    · refine List.sum_lt_sum _ _ (fun id hid => ?_) ⟨x, hlive, ?_⟩
      · rw [hpolls]
        by_cases hx : id = x
        · rw [hx, Function.update_self]
          omega
        · rw [Function.update_of_ne hx]
      · have := hlimit x hlive
        rw [hpolls, Function.update_self] at this ⊢
        omega
    · rw [hqueue, hready, List.countP_append, List.countP_cons, List.countP_replicate]
      simp [hlive]

/-- Some member never stops waking itself. -/
theorem not_settles (hrounds : ∀ n, Round b (ρ n) (ρ (n + 1))) (hstart : Balanced b s (ρ 0)) :
    ∃ id ∈ s.entries, ∀ k, Reaches b s id k := by
  by_contra hstops
  push Not at hstops
  have hbalanced := balanced_of_rounds hrounds hstart
  choose! limit hlimit using hstops
  have hle : ∀ n, ∀ id ∈ (ρ n).set.entries, (ρ (n + 1)).polls id ≤ limit id := by
    intro n id hid
    rw [(hbalanced n).entries] at hid
    by_contra hgt
    exact hlimit id hid fun k hk => (hbalanced (n + 1)).woken id hid k (by omega)
  have hless : ∀ n, left limit (ρ n) + n ≤ left limit (ρ 0) := by
    intro n
    induction n with
    | zero => exact le_rfl
    | succ n ih =>
      have := (hrounds n).left_lt (hle n)
      omega
  have := hless (left limit (ρ 0) + 1)
  omega

end Endless

/-- The loop returns just when it settles. -/
theorem exists_run_iff_settles (b : Behaviour β) (call : ℕ) (s : Members) :
    (∃ fuel r, pollNextInner b fuel call s = some r) ↔ Settles b s := by
  unfold pollNextInner
  have hstart := Balanced.start b call s
  generalize (⟨{ s with outer := some call }, fun _ => 0⟩ : Loop) = l at hstart
  rw [exists_run_iff]
  constructor
  · rintro ⟨n, hn⟩
    by_contra hsettles
    simp only [Settles, not_or, not_exists, not_and, not_forall, not_not] at hsettles
    obtain ⟨hnever, x, hx, hwakes⟩ := hsettles
    have hpending : ∀ id ∈ s.entries, ∀ k, Reaches b s id k → (b id k).output = none :=
      fun id hid k hk => by simpa using hnever id hid k hk
    have hbalanced : ∀ n, Balanced b s ((next b)^[n] l) := by
      intro n
      induction n with
      | zero => exact hstart
      | succ n ih =>
        obtain ⟨l', hl'⟩ := ih.goes_on hpending ⟨x, hx, hwakes⟩
        rw [Function.iterate_succ_apply', next, hl']
        exact ih.round (round_of_iterate hl')
    obtain ⟨l', hl'⟩ := (hbalanced n).goes_on hpending ⟨x, hx, hwakes⟩
    rw [hl'] at hn
    cases hn
  · intro hsettles
    by_contra hnever
    have hrounds : ∀ n, Round b ((next b)^[n] l) ((next b)^[n + 1] l) := by
      intro n
      cases hiter : ((next b)^[n] l).iterate b with
      | inl l' =>
        rw [Function.iterate_succ_apply', next, hiter]
        exact round_of_iterate hiter
      | inr result => exact absurd ⟨n, by rw [hiter]; rfl⟩ hnever
    rcases hsettles with ⟨id, hid, k, hk, hsome⟩ | hstops
    · rw [not_completes hrounds hstart hid hk] at hsome
      cases hsome
    · obtain ⟨id, hid, hwakes⟩ := not_settles hrounds hstart
      obtain ⟨k, hk⟩ := hstops id hid
      exact hk (hwakes k)

/-- A round polls a member once at most. -/
theorem iterate_polls_le (h : l.iterate b = .inl l' ∨ ∃ answer, l.iterate b = .inr (answer, l'))
    (id : ℕ) : l'.polls id ≤ l.polls id + 1 := by
  have hpolled : ∀ x (l₁ : Loop), l₁.polls = l.polls →
      (l₁.polled b x).polls id ≤ l.polls id + 1 := by
    intro x l₁ hsame
    simp only [polled, hsame]
    by_cases hx : id = x
    · rw [hx, Function.update_self]
    · rw [Function.update_of_ne hx]
      exact Nat.le_succ _
  unfold iterate at h
  split at h
  · rcases h with h | ⟨answer, h⟩
    · cases h
    · cases h
      exact Nat.le_succ _
  · next x ready hqueue =>
    simp only at h
    split_ifs at h with hlive
    · split at h
      · rcases h with h | ⟨answer, h⟩
        · cases h
        · cases h
          exact hpolled x _ rfl
      · rcases h with h | ⟨answer, h⟩
        · cases h
          exact hpolled x _ rfl
        · cases h
    · rcases h with h | ⟨answer, h⟩
      · cases h
        exact Nat.le_succ _
      · cases h

theorem run_polls_le {fuel : ℕ} {answer : Answer β} (h : run b fuel l = some (answer, l'))
    (id : ℕ) : l'.polls id ≤ l.polls id + fuel := by
  induction fuel generalizing l with
  | zero => cases h
  | succ fuel ih =>
    rw [run] at h
    cases hiter : l.iterate b with
    | inl l₁ =>
      rw [hiter] at h
      have hfirst := iterate_polls_le (.inl hiter) id
      have hrest := ih h
      omega
    | inr result =>
      rw [hiter] at h
      obtain rfl : result = (answer, l') := Option.some.inj h
      have hfirst := iterate_polls_le (.inr ⟨answer, hiter⟩) id
      omega

end Loop

/-- A call of `poll_next_inner` returns, after a bounded number of polls of each member, just when
a member completes in a poll that its wakes lead to or all members stop waking themselves. -/
theorem poll_next_returns_iff (b : Behaviour β) (call : ℕ) (s : Members) :
    (∃ bound answer l, pollNextInner b bound call s = some (answer, l) ∧
      ∀ id, l.polls id ≤ bound) ↔ Settles b s := by
  rw [← Loop.exists_run_iff_settles b call s]
  constructor
  · rintro ⟨bound, answer, l, hrun, -⟩
    exact ⟨bound, _, hrun⟩
  · rintro ⟨fuel, ⟨answer, l⟩, hrun⟩
    refine ⟨fuel, answer, l, hrun, fun id => ?_⟩
    exact (Loop.run_polls_le hrun id).trans_eq (Nat.zero_add fuel)

/-- The poll of a member that first asks for a unit of the budget. -/
def coopPoll (cell : Option ℕ) (rest : Poll β) : Poll β :=
  if (Coop.pollProceed cell).1 then rest else ⟨1, none⟩

/-- A member that would be ready finds the budget of the task spent, and is polled for ever. -/
theorem poll_next_spins :
    ¬ ∀ (b : Behaviour ℕ) (call : ℕ) (s : Members),
      ∃ bound answer l, pollNextInner b bound call s = some (answer, l) ∧
        ∀ id, l.polls id ≤ bound := by
  intro h
  obtain ⟨bound, answer, l, hrun, -⟩ := h (fun _ _ => coopPoll (some 0) ⟨0, some 7⟩) 1
    (Members.push .new)
  rcases (Loop.exists_run_iff_settles _ _ _).mp ⟨bound, _, hrun⟩ with ⟨id, -, k, -, hsome⟩ | hstops
  · cases hsome
  · obtain ⟨k, hk⟩ := hstops 0 (List.mem_singleton_self 0)
    refine hk fun j _ => ?_
    simp [Wakes, Members.push, Members.new, coopPoll, Coop.pollProceed]

end Eddy.FuturesUnordered
