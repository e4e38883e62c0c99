import Eddy.FairRuns
import Eddy.FuturesUnorderedWakes

/-!
# Delivery of the outputs

In a run in which the task calls `poll_next` when it is to, goes on with the calls it has made, and
in which the wakers that have pushed an id come to the outer waker, every woken member is polled.
A member that is woken whenever it waits and completes after finitely many polls has its output
returned.
-/

namespace Eddy.FuturesUnordered
open Interleaving FairRuns State

variable {β : Type} {ρ : ℕ → State β} {act : ℕ → Option (Label β)} {id n : ℕ}

def Label.OfTask : Label β → Prop
  | .pollNext | .pop | .ready _ | .pending => True
  | .push | .clear | .wake _ | .takeOuter _ => False

def Label.OfWaker : Label β → Prop
  | .takeOuter _ => True
  | .push | .clear | .pollNext | .pop | .ready _ | .pending | .wake _ => False

/-- The task polls the set when it is to, and no call stands still. -/
structure Served (ρ : ℕ → State β) (act : ℕ → Option (Label β)) : Prop where
  first : ρ 0 = .new
  runs : Runs State.step ρ act
  task : Fair Label.OfTask (fun s => s.place = .idle → s.Due) ρ act
  wakers : Fair Label.OfWaker (fun s => s.waking ≠ []) ρ act

/-- The member is woken whenever it waits, and some poll of it completes. -/
structure Prompt (ρ : ℕ → State β) (act : ℕ → Option (Label β)) (id : ℕ) : Prop where
  woken : ∀ n, id ∈ (ρ n).set.entries → id ∈ (ρ n).polled → (ρ n).place ≠ .polling id →
    id ∉ (ρ n).set.ready → ∃ m, n ≤ m ∧ (act m = some (.wake id) ∨ id ∉ (ρ m).set.entries)
  completes : ∃ k, ∀ n, act n = some .pending → (ρ n).place = .polling id →
    (ρ n).polled.count id < k

namespace Served

theorem sound (h : Served ρ act) (n : ℕ) : (ρ n).Sound :=
  h.runs.invariant (h.first ▸ Sound.new) (fun _ _ _ hs hstep => hs.step hstep) n

theorem moment (h : Served ρ act) (n : ℕ) :
    act n = none ∧ ρ (n + 1) = ρ n ∨ ∃ a, act n = some a ∧ Step (ρ n) a (ρ (n + 1)) := by
  have hmoment := h.runs n
  cases ha : act n with
  | none =>
    rw [ha] at hmoment
    exact .inl ⟨rfl, hmoment⟩
  | some a =>
    rw [ha] at hmoment
    exact .inr ⟨a, rfl, step_cases hmoment⟩

end Served

/-- The place of `poll_next`, by how far it is from the next look at the queue. -/
def rank : Place → ℕ
  | .draining => 0
  | .idle => 1
  | .polling _ => 2

/-- The member is in the queue, and the task goes on or is to call `poll_next`. The number gets
smaller until the member is polled. -/
structure Queued (s : State β) (id j : ℕ) : Prop where
  live : id ∈ s.set.entries
  due : s.place = .idle → s.Due
  place : ∃ k, s.set.ready[k]? = some id ∧ 3 * k + rank s.place = j

/-- The member is polled, or it is not there. -/
def Reached (s : State β) (id : ℕ) : Prop := s.place = .polling id ∨ id ∉ s.set.entries

/-- What is not done by the task leaves a member in the queue. -/
theorem Queued.keep {s t : State β} {a : Label β} {j : ℕ} (h : Queued s id j)
    (hstep : Step s a t) (hother : ¬ a.OfTask) : Reached t id ∨ Queued t id j := by
  obtain ⟨hlive, hdue, k, hk, hj⟩ := h
  have happend : ∀ l, (s.set.ready ++ l)[k]? = some id := fun l => by
    rw [List.getElem?_append_left (List.getElem?_eq_some_iff.mp hk).1, hk]
  induction hstep with
  | push hidle =>
    exact .inr ⟨List.mem_append_left _ hlive, fun _ => .inr (.inl rfl), k, happend _, hj⟩
  | clear => exact .inl (.inr (List.not_mem_nil))
  | wake hpolled => exact .inr ⟨hlive, hdue, k, happend _, hj⟩
  | takeOuter hwaking =>
    refine .inr ⟨hlive, fun hidle => ?_, k, hk, hj⟩
    exact (hdue hidle).imp_right fun h => h.imp_right (List.mem_append_left _)
  | pollNext | rest | poll | stale | ready | pending => exact absurd trivial hother

/-- The task brings a member in the queue nearer to its poll. -/
theorem Queued.less {s t : State β} {a : Label β} {j : ℕ} (hs : s.Sound) (h : Queued s id j)
    (hstep : Step s a t) (htask : a.OfTask) : Reached t id ∨ ∃ i < j, Queued t id i := by
  obtain ⟨hlive, hdue, k, hk, rfl⟩ := h
  induction hstep with
  | push | clear | wake | takeOuter => exact htask.elim
  | pollNext hidle =>
    refine .inr ⟨3 * k, ?_, hlive, nofun, k, hk, rfl⟩
    simp [hidle, rank]
  | rest hdraining hempty => simp [hempty] at hk
  | @poll x ready hdraining hqueue hlive' =>
    rw [hqueue] at hk
    cases k with
    | zero =>
      obtain rfl : x = id := by simpa using hk
      exact .inl (.inl rfl)
    | succ k =>
      refine .inr ⟨3 * k + 2, ?_, hlive, nofun, k, by simpa using hk, rfl⟩
      simp only [hdraining, rank]
      omega
  | @stale x ready hdraining hqueue hgone =>
    rw [hqueue] at hk
    cases k with
    | zero =>
      obtain rfl : x = id := by simpa using hk
      exact absurd hlive hgone
    | succ k =>
      refine .inr ⟨3 * k, ?_, hlive, ?_, k, by simpa using hk, by simp [hdraining, rank]⟩
      · simp only [hdraining, rank]
        omega
      · exact fun hidle => nomatch hdraining.symm.trans hidle
  | @ready x hpolling output =>
    by_cases hx : x = id
    · subst hx
      refine .inl (.inr fun hmem => ?_)
      have hnodup := (List.nodup_append.mp (List.nodup_append.mp hs.nodup).1).1
      exact (List.Nodup.mem_erase_iff hnodup).mp hmem |>.1 rfl
    · refine .inr ⟨3 * k + 1, ?_, ?_, fun _ => .inl ⟨output, rfl⟩, k, hk, rfl⟩
      · simp [hpolling, rank]
      · exact (List.mem_erase_of_ne (Ne.symm hx)).mpr hlive
  | pending hpolling =>
    refine .inr ⟨3 * k, ?_, hlive, nofun, k, hk, rfl⟩
    simp [hpolling, rank]

namespace Served

theorem exists_reached_of_queued {j : ℕ} (h : Served ρ act) (hq : Queued (ρ n) id j) :
    ∃ m, n ≤ m ∧ Reached (ρ m) id := by
  refine h.task.eventually (P := fun j n => Queued (ρ n) id j) (fun j n hq => hq.due) ?_ ?_ hq
  · intro j n hq hidle
    rcases h.moment n with ⟨-, heq⟩ | ⟨a, ha, hstep⟩
    · exact .inr (heq ▸ hq)
    · exact hq.keep hstep fun htask => hidle ⟨a, ha, htask⟩
  · rintro j n hq ⟨a, ha, htask⟩
    rcases h.moment n with ⟨hnone, -⟩ | ⟨a', ha', hstep⟩
    · exact nomatch (hnone.symm.trans ha)
    · obtain rfl : a' = a := Option.some.inj (ha'.symm.trans ha)
      exact hq.less (h.sound n) hstep htask

theorem queued_of_mem {s : State β} (hready : id ∈ s.set.ready) (hlive : id ∈ s.set.entries)
    (hdue : s.place = .idle → s.Due) : ∃ j, Queued s id j := by
  obtain ⟨k, hk⟩ := List.mem_iff_getElem?.mp hready
  exact ⟨_, hlive, hdue, k, hk, rfl⟩

/-- The task waits, and a waker that has pushed an id has not come to the outer waker. -/
structure Waiting (s : State β) (id : ℕ) : Prop where
  ready : id ∈ s.set.ready
  live : id ∈ s.set.entries
  idle : s.place = .idle
  waking : s.waking ≠ []

theorem Waiting.keep {s t : State β} {a : Label β} (h : Waiting s id) (hstep : Step s a t)
    (hother : ¬ a.OfWaker) : ((∃ j, Queued t id j) ∨ Reached t id) ∨ Waiting t id := by
  have hbusy : ∀ {place}, s.place = place → place ≠ .idle → False := fun hplace hne =>
    hne (hplace.symm.trans h.idle)
  induction hstep with
  | push =>
    refine .inl (.inl (queued_of_mem ?_ ?_ fun _ => .inr (.inl rfl)))
    · exact List.mem_append_left _ h.ready
    · exact List.mem_append_left _ h.live
  | clear => exact .inl (.inr (.inr List.not_mem_nil))
  | pollNext => exact .inl (.inl (queued_of_mem h.ready h.live nofun))
  | rest hplace | poll hplace | stale hplace | ready hplace | pending hplace =>
    exact (hbusy hplace nofun).elim
  | wake =>
    refine .inr ⟨?_, h.live, h.idle, by simp⟩
    exact List.mem_append_left _ h.ready
  | takeOuter => exact absurd trivial hother

/-- A member in the queue is polled. -/
theorem exists_reached_of_mem (h : Served ρ act) (hready : id ∈ (ρ n).set.ready)
    (hlive : id ∈ (ρ n).set.entries) : ∃ m, n ≤ m ∧ Reached (ρ m) id := by
  have hmove : ∀ m, n ≤ m → (∃ j, Queued (ρ m) id j) ∨ Reached (ρ m) id →
      ∃ m, n ≤ m ∧ Reached (ρ m) id := by
    rintro m hm (⟨j, hq⟩ | hreached)
    · obtain ⟨m', hm', hreached⟩ := h.exists_reached_of_queued hq
      exact ⟨m', hm.trans hm', hreached⟩
    · exact ⟨m, hm, hreached⟩
  by_cases hdue : (ρ n).place = .idle → (ρ n).Due
  · exact hmove n le_rfl (.inl (queued_of_mem hready hlive hdue))
  · rw [Classical.not_imp] at hdue
    have hwaking := ((h.sound n).resting id hready hlive hdue.1).resolve_left hdue.2
    have hkeep : ∀ n, Waiting (ρ n) id → ¬ Acts Label.OfWaker act n →
        ((∃ j, Queued (ρ (n + 1)) id j) ∨ Reached (ρ (n + 1)) id) ∨ Waiting (ρ (n + 1)) id := by
      intro n hw hother
      rcases h.moment n with ⟨-, heq⟩ | ⟨a, ha, hstep⟩
      · exact .inr (heq ▸ hw)
      · exact hw.keep hstep fun hwaker => hother ⟨a, ha, hwaker⟩
    rcases exists_act (P := fun n => Waiting (ρ n) id) (Q := fun n => (∃ j, Queued (ρ n) id j) ∨
      Reached (ρ n) id) h.wakers (fun n hw => hw.waking) hkeep ⟨hready, hlive, hdue.1, hwaking⟩ with
      ⟨m, hm, hreached⟩ | ⟨m, hm, hwaiting, a, ha, hwaker⟩
    · exact hmove m hm hreached
    · refine hmove (m + 1) (hm.trans (Nat.le_succ m)) (.inl ?_)
      rcases h.moment m with ⟨hnone, -⟩ | ⟨a', ha', hstep⟩
      · exact nomatch (hnone.symm.trans ha)
      obtain rfl : a' = a := Option.some.inj (ha'.symm.trans ha)
      have hnext := h.sound (m + 1)
      generalize ρ (m + 1) = t at hstep hnext ⊢
      cases hstep with
      | takeOuter hw =>
        refine queued_of_mem hwaiting.ready hwaiting.live fun _ => .inr (.inr ?_)
        have hpolled := ((h.sound m).wakes _ (.inl (List.mem_of_getElem? hw))).1
        rcases hnext.outer with hzero | houter | hwoken
        · exact absurd hzero (hnext.called (List.ne_nil_of_mem hpolled))
        · cases houter
        · exact hwoken
      | push | clear | pollNext | rest | poll | stale | ready | pending | wake => exact hwaker.elim

/-- The poll of a member ends. -/
theorem exists_answer (h : Served ρ act) (hpolling : (ρ n).place = .polling id) :
    ∃ m, n ≤ m ∧ (id ∉ (ρ m).set.entries ∨ act m = some .pending ∧ (ρ m).place = .polling id) := by
  have hkeep : ∀ n, (ρ n).place = .polling id → ¬ Acts Label.OfTask act n →
      False ∨ (ρ (n + 1)).place = .polling id := by
    intro n hpolling hother
    rcases h.moment n with ⟨-, heq⟩ | ⟨a, ha, hstep⟩
    · exact .inr (heq ▸ hpolling)
    have hother : ¬ a.OfTask := fun htask => hother ⟨a, ha, htask⟩
    generalize ρ (n + 1) = t at hstep ⊢
    cases hstep with
    | push hidle | clear hidle => exact nomatch hidle.symm.trans hpolling
    | wake | takeOuter => exact .inr hpolling
    | pollNext | rest | poll | stale | ready | pending => exact absurd trivial hother
  rcases exists_act (P := fun n => (ρ n).place = .polling id) (Q := fun _ => False) h.task
    (fun n hpolling hidle => nomatch hpolling.symm.trans hidle) hkeep hpolling with
    ⟨_, _, hfalse⟩ | ⟨m, hm, hpolling, a, ha, htask⟩
  · exact hfalse.elim
  rcases h.moment m with ⟨hnone, -⟩ | ⟨a', ha', hstep⟩
  · exact nomatch (hnone.symm.trans ha)
  obtain rfl : a' = a := Option.some.inj (ha'.symm.trans ha)
  generalize heq : ρ (m + 1) = t at hstep
  cases hstep with
  | push | clear | wake | takeOuter => exact htask.elim
  | pollNext hplace | rest hplace | poll hplace | stale hplace =>
    exact nomatch hplace.symm.trans hpolling
  | @ready x hx output =>
    obtain rfl : x = id := Place.polling.inj (hx.symm.trans hpolling)
    refine ⟨m + 1, hm.trans (Nat.le_succ m), .inl fun hmem => ?_⟩
    rw [heq] at hmem
    have hnodup := (List.nodup_append.mp (List.nodup_append.mp (h.sound m).nodup).1).1
    exact ((List.Nodup.mem_erase_iff hnodup).mp hmem).1 rfl
  | pending => exact ⟨m, hm, .inr ⟨ha, hpolling⟩⟩

end Served

/-- Only a new poll of the member adds to the number of its polls. -/
theorem State.Step.count_polled {s t : State β} {a : Label β} (h : Step s a t) (id : ℕ) :
    s.polled.count id ≤ t.polled.count id ∧
      (t.place = .polling id → s.place = .polling id ∨ s.polled.count id < t.polled.count id) := by
  induction h with
  | push hidle | clear hidle => exact ⟨le_rfl, .inl⟩
  | pollNext | rest | ready | pending => exact ⟨le_rfl, nofun⟩
  | @poll x ready hdraining =>
    rw [List.count_append]
    refine ⟨Nat.le_add_right _ _, fun hplace => .inr ?_⟩
    obtain rfl : x = id := Place.polling.inj hplace
    simp
  | stale | wake | takeOuter => exact ⟨le_rfl, .inl⟩

namespace Served

theorem count_polled (h : Served ρ act) {m : ℕ} (hm : n ≤ m) (id : ℕ) :
    (ρ n).polled.count id ≤ (ρ m).polled.count id ∧ ((ρ m).place = .polling id →
      (ρ n).place = .polling id ∨ (ρ n).polled.count id < (ρ m).polled.count id) := by
  induction m, hm using Nat.le_induction with
  | base => exact ⟨le_rfl, .inl⟩
  | succ m hm ih =>
    rcases h.moment m with ⟨-, heq⟩ | ⟨a, -, hstep⟩
    · exact heq ▸ ih
    · obtain ⟨hle, hnew⟩ := hstep.count_polled id
      refine ⟨ih.1.trans hle, fun hplace => ?_⟩
      rcases hnew hplace with hplace | hlt
      · exact (ih.2 hplace).imp_right (·.trans_le hle)
      · exact .inr (ih.1.trans_lt hlt)

/-- A member that is not being polled comes to the queue, and is polled. -/
theorem exists_reached (h : Served ρ act) (hprompt : Prompt ρ act id)
    (hlive : id ∈ (ρ n).set.entries) (hplace : (ρ n).place ≠ .polling id) :
    ∃ m, n ≤ m ∧ Reached (ρ m) id := by
  rcases (h.sound n).started id hlive with hready | hpolled
  · exact h.exists_reached_of_mem hready hlive
  by_cases hready : id ∈ (ρ n).set.ready
  · exact h.exists_reached_of_mem hready hlive
  obtain ⟨m, hm, hwake | hgone⟩ := hprompt.woken n hlive hpolled hplace hready
  · by_cases hlive' : id ∈ (ρ (m + 1)).set.entries
    · have hready' : id ∈ (ρ (m + 1)).set.ready := by
        rcases h.moment m with ⟨hnone, -⟩ | ⟨a, ha, hstep⟩
        · exact nomatch (hnone.symm.trans hwake)
        obtain rfl : a = .wake id := Option.some.inj (ha.symm.trans hwake)
        generalize ρ (m + 1) = t at hstep ⊢
        cases hstep with
        | wake => exact List.mem_append_right _ (List.mem_singleton_self id)
      obtain ⟨m', hm', hreached⟩ := h.exists_reached_of_mem hready' hlive'
      exact ⟨m', by omega, hreached⟩
    · exact ⟨m + 1, by omega, .inr hlive'⟩
  · exact ⟨m, hm, .inr hgone⟩

/-- A member leaves the set when it completes at its `k`-th poll at the latest. -/
theorem exists_gone (h : Served ρ act) (hprompt : Prompt ρ act id) {k : ℕ}
    (hk : ∀ n, act n = some .pending → (ρ n).place = .polling id → (ρ n).polled.count id < k)
    {j : ℕ} (hpolling : (ρ n).place = .polling id) (hj : k ≤ (ρ n).polled.count id + j) :
    ∃ m, n ≤ m ∧ id ∉ (ρ m).set.entries := by
  induction j generalizing n with
  | zero =>
    obtain ⟨m, hm, hgone | ⟨hpending, hpolling'⟩⟩ := h.exists_answer hpolling
    · exact ⟨m, hm, hgone⟩
    · have hlt := hk m hpending hpolling'
      have hle := (h.count_polled hm id).1
      omega
  | succ j ih =>
    obtain ⟨m, hm, hgone | ⟨hpending, hpolling'⟩⟩ := h.exists_answer hpolling
    · exact ⟨m, hm, hgone⟩
    have hle := (h.count_polled hm id).1
    have hnext : ρ (m + 1) = { ρ m with place := .draining } := by
      have hstep := h.runs m
      rw [hpending] at hstep
      simpa [Moment, State.step, hpolling'] using hstep.symm
    have hlive : id ∈ (ρ (m + 1)).set.entries := by
      rw [hnext]
      exact (h.sound m).live id hpolling'
    have hplace : (ρ (m + 1)).place ≠ .polling id := by
      rw [hnext]
      exact Place.noConfusion
    obtain ⟨m', hm', hpolling'' | hgone⟩ := h.exists_reached hprompt hlive hplace
    · have hcount := ((h.count_polled hm' id).2 hpolling'').resolve_left hplace
      rw [hnext] at hcount
      obtain ⟨m'', hm'', hgone⟩ := ih hpolling'' (by simp only at hcount; omega)
      exact ⟨m'', by omega, hgone⟩
    · exact ⟨m', by omega, hgone⟩

end Served

namespace Served

theorem nextId_le (h : Served ρ act) {m : ℕ} (hm : n ≤ m) :
    (ρ n).set.nextId ≤ (ρ m).set.nextId := by
  induction m, hm using Nat.le_induction with
  | base => exact le_rfl
  | succ m hm ih =>
    refine ih.trans ?_
    rcases h.moment m with ⟨-, heq⟩ | ⟨a, -, hstep⟩
    · rw [heq]
    · generalize ρ (m + 1) = t at hstep ⊢
      cases hstep with
      | push => exact Nat.le_succ _
      | clear | pollNext | rest | poll | stale | ready | pending | wake | takeOuter => exact le_rfl

theorem returned_of_gone (h : Served ρ act) (hknown : id < (ρ n).set.nextId)
    (hgone : id ∉ (ρ n).set.entries) :
    id ∈ (ρ n).cleared ∨ ((ρ n).returned.map Prod.fst).count id = 1 := by
  have hmem := (h.sound n).members.mem_iff.mpr (List.mem_range.mpr hknown)
  rcases List.mem_append.mp hmem with hmem | hcleared
  · have hreturned := (List.mem_append.mp hmem).resolve_left hgone
    have hnodup := (List.nodup_append.mp (List.nodup_append.mp (h.sound n).nodup).1).2.1
    exact .inr (List.count_eq_one_of_mem hnodup hreturned)
  · exact .inl hcleared

end Served

/-- Every reachable set delivers, and where the task polls it when it is to, each prompt member
that is not cleared has its output returned. -/
theorem outputs_delivered :
    (∀ s : State β, Reachable State.step anyStep .new s → s.Delivers) ∧
      ∀ (ρ : ℕ → State β) (act : ℕ → Option (Label β)), Served ρ act → ∀ id, Prompt ρ act id →
        ∀ n, id < (ρ n).set.nextId → ∃ m, n ≤ m ∧
          (id ∈ (ρ m).cleared ∨ ((ρ m).returned.map Prod.fst).count id = 1) := by
  refine ⟨fun s hs => (sound hs).delivers, fun ρ act h id hprompt n hknown => ?_⟩
  have hgone : ∃ m, n ≤ m ∧ id ∉ (ρ m).set.entries := by
    by_cases hlive : id ∈ (ρ n).set.entries
    · obtain ⟨k, hk⟩ := hprompt.completes
      by_cases hplace : (ρ n).place = .polling id
      · exact h.exists_gone hprompt hk hplace (Nat.le_add_left k _)
      · obtain ⟨m, hm, hpolling | hgone⟩ := h.exists_reached hprompt hlive hplace
        · obtain ⟨m', hm', hgone⟩ := h.exists_gone hprompt hk hpolling (Nat.le_add_left k _)
          exact ⟨m', hm.trans hm', hgone⟩
        · exact ⟨m, hm, hgone⟩
    · exact ⟨n, le_rfl, hlive⟩
  obtain ⟨m, hm, hgone⟩ := hgone
  exact ⟨m, hm, h.returned_of_gone (hknown.trans_le (h.nextId_le hm)) hgone⟩

/-- A member waits once, is woken and completes. -/
theorem outputs_delivered_woken :
    ∃ (ρ : ℕ → State ℕ) (act : ℕ → Option (Label ℕ)), Served ρ act ∧ Prompt ρ act 0 ∧
      ∃ m, 0 ∈ (ρ m).cleared ∨ ((ρ m).returned.map Prod.fst).count 0 = 1 := by
  have hrun : run State.step (.new : State ℕ) [.push, .pollNext, .pop, .pending, .wake 0, .pop,
      .ready 5, .takeOuter 0, .pollNext, .pop] = some
      { set := ⟨[], 1, [], some 2⟩, place := .idle, waking := [], calls := 2, answer := some .done,
        pushed := false, returned := [(0, 5)], cleared := [], polled := [0, 0], fired := [0],
        woke := [⟨0, 1⟩], woken := [1] } := by decide +kernel
  obtain ⟨ρ, act, hfirst, hruns, hlast, hvisited⟩ := exists_runs_of_run hrun
  have hend : ∀ n, ∃ m, n ≤ m ∧ ρ m = _ := fun n =>
    ⟨max n 10, Nat.le_max_left n 10, hlast _ (Nat.le_max_right n 10)⟩
  have hserved : Served ρ act := by
    refine ⟨hfirst, hruns, fun n hready => ?_, fun n hready => ?_⟩
    · obtain ⟨m, hm, heq⟩ := hend n
      have hdue := hready m hm
      rw [heq] at hdue
      simp [Due] at hdue
    · obtain ⟨m, hm, heq⟩ := hend n
      exact absurd (congrArg waking heq) (hready m hm)
  have hprompt : Prompt ρ act 0 := by
    refine ⟨fun n _ _ _ _ => ?_, 3, fun n _ _ => ?_⟩
    · obtain ⟨m, hm, heq⟩ := hend n
      exact ⟨m, hm, .inr (by simp [heq])⟩
    · have hall : ∀ s ∈ visited State.step (.new : State ℕ) [.push, .pollNext, .pop, .pending,
          .wake 0, .pop, .ready 5, .takeOuter 0, .pollNext, .pop], s.polled.count 0 < 3 := by
        decide +kernel
      exact hall _ (hvisited n)
  obtain ⟨m, -, hm⟩ := outputs_delivered.2 ρ act hserved 0 hprompt 10
    (by simp [hlast 10 (by decide)])
  exact ⟨ρ, act, hserved, hprompt, m, hm⟩

end Eddy.FuturesUnordered
