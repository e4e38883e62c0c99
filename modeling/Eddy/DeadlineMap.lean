import Mathlib.Data.List.Basic
import Mathlib.Logic.Function.Basic

/-!
# Maps of deadlines

A clock and a map from keys to deadlines. Advancing the clock stops at the earliest deadline
that is not beyond the target and takes all the keys that have it. A log of insertions,
removals and takes is accepted if every take is of a key that is in the map at that moment.
-/

namespace Eddy.DeadlineMap

variable {ι : Type} [DecidableEq ι]

inductive Event (ι : Type) where
  | inserted (i : ι) (deadline : ℕ)
  | removed (i : ι)
  | taken (i : ι) (elapsed now : ℕ)
  deriving DecidableEq

def Event.apply (live : ι → Option ℕ) : Event ι → ι → Option ℕ
  | .inserted i deadline => Function.update live i (some deadline)
  | .removed i => Function.update live i none
  | .taken i _ _ => Function.update live i none

/-- A key is taken while it is in the map, at its deadline and not beyond the target. -/
def Event.Allowed (live : ι → Option ℕ) : Event ι → Prop
  | .taken i elapsed now => live i = some elapsed ∧ elapsed ≤ now
  | _ => True

/-- The deadlines of the keys that have been inserted and neither removed nor taken since. -/
def live (start : ι → Option ℕ) (log : List (Event ι)) : ι → Option ℕ :=
  log.foldl Event.apply start

def Accepts (start : ι → Option ℕ) : List (Event ι) → Prop
  | [] => True
  | event :: log => event.Allowed start ∧ Accepts (event.apply start) log

theorem live_append (start : ι → Option ℕ) (log log' : List (Event ι)) :
    live start (log ++ log') = live (live start log) log' := List.foldl_append

theorem Accepts.append {start : ι → Option ℕ} {log log' : List (Event ι)} (h : Accepts start log)
    (h' : Accepts (live start log) log') : Accepts start (log ++ log') := by
  induction log generalizing start with
  | nil => exact h'
  | cons event log ih => exact ⟨h.1, ih h.2 h'⟩

def without (start : ι → Option ℕ) (keys : List ι) : ι → Option ℕ := fun i =>
  if i ∈ keys then none else start i

@[simp] theorem without_nil (start : ι → Option ℕ) : without start [] = start := by
  funext i
  simp [without]

theorem live_taken (start : ι → Option ℕ) (keys : List ι) (elapsed now : ℕ) :
    live start (keys.map (.taken · elapsed now)) = without start keys := by
  induction keys generalizing start with
  | nil => simp [live]
  | cons key keys ih =>
    have hnext : live start ((key :: keys).map (.taken · elapsed now)) =
        without (Function.update start key none) keys := ih _
    rw [hnext]
    funext i
    by_cases hi : i = key
    · subst hi
      simp [without]
    · simp [without, hi]

theorem accepts_taken {start : ι → Option ℕ} {keys : List ι} {elapsed now : ℕ}
    (hnodup : keys.Nodup) (hdue : ∀ i ∈ keys, start i = some elapsed) (hle : elapsed ≤ now) :
    Accepts start (keys.map (.taken · elapsed now)) := by
  induction keys generalizing start with
  | nil => trivial
  | cons key keys ih =>
    obtain ⟨hkey, hnodup⟩ := List.nodup_cons.mp hnodup
    refine ⟨⟨hdue key (by simp), hle⟩, ih hnodup fun i hi => ?_⟩
    have hne : i ≠ key := fun heq => hkey (heq ▸ hi)
    simp [Event.apply, hne, hdue i (by simp [hi])]

structure State (ι : Type) where
  elapsed : ℕ
  deadline : ι → Option ℕ

def State.Future (s : State ι) : Prop := ∀ i d, s.deadline i = some d → s.elapsed < d

inductive Advances (s : State ι) (now : ℕ) : List ι → State ι → Prop where
  | stay : now ≤ s.elapsed → Advances s now [] s
  | arrive : s.elapsed < now → (∀ i d, s.deadline i = some d → now < d) →
      Advances s now [] { s with elapsed := now }
  | fire {time keys} : s.elapsed < time → time ≤ now → keys ≠ [] →
      (∀ i d, s.deadline i = some d → time ≤ d) → keys.Nodup →
      (∀ i, i ∈ keys ↔ s.deadline i = some time) →
      Advances s now keys { elapsed := time, deadline := without s.deadline keys }

variable {s s' : State ι} {now : ℕ} {keys : List ι}

theorem Advances.future (h : Advances s now keys s') (hs : s.Future) : s'.Future := by
  cases h with
  | stay => exact hs
  | arrive _ hlater => exact hlater
  | fire _ _ _ hfirst _ hkeys =>
    intro i d hd
    simp only [without] at hd
    split_ifs at hd with hi
    refine Nat.lt_of_le_of_ne (hfirst i d hd) ?_
    rintro rfl
    exact hi ((hkeys i).mpr hd)

theorem Advances.elapsed_le (h : Advances s now keys s') : s.elapsed ≤ s'.elapsed := by
  cases h with
  | stay => exact Nat.le_refl _
  | arrive hlt _ | fire hlt => exact Nat.le_of_lt hlt

theorem Advances.elapsed_lt (h : Advances s now keys s') (hlt : s.elapsed < now) :
    s.elapsed < s'.elapsed := by
  cases h with
  | stay hle => exact absurd hlt (Nat.not_lt.mpr hle)
  | arrive hlt _ | fire hlt => exact hlt

theorem Advances.elapsed_le_max (h : Advances s now keys s') : s'.elapsed ≤ max s.elapsed now := by
  cases h with
  | stay => exact Nat.le_max_left _ _
  | arrive => exact Nat.le_max_right _ _
  | fire _ hle => exact Nat.le_trans hle (Nat.le_max_right _ _)

theorem Advances.deadline_eq (h : Advances s now keys s') :
    s'.deadline = without s.deadline keys := by
  cases h with
  | stay | arrive => rw [without_nil]
  | fire => rfl

theorem Advances.accepts (h : Advances s now keys s') :
    Accepts s.deadline (keys.map (.taken · s'.elapsed now)) := by
  cases h with
  | stay | arrive => trivial
  | fire _ hle _ _ hnodup hkeys => exact accepts_taken hnodup (fun i hi => (hkeys i).mp hi) hle

/-- What is taken is due, and comes before everything that stays. -/
theorem Advances.due (h : Advances s now keys s') :
    keys.Nodup ∧ ∀ i ∈ keys, ∃ d ≤ now, s.deadline i = some d ∧
      ∀ j e, s.deadline j = some e → d ≤ e := by
  cases h with
  | stay | arrive => simp
  | fire _ hle _ hfirst hnodup hkeys =>
    exact ⟨hnodup, fun i hi => ⟨_, hle, (hkeys i).mp hi, hfirst⟩⟩

/-- When all that is due shares one deadline, all that is due is taken. -/
theorem Advances.mem_of_one_deadline (h : Advances s now keys s') (hs : s.Future) {i : ι} {d : ℕ}
    (hi : s.deadline i = some d) (hdue : d ≤ now)
    (hone : ∀ j e, s.deadline j = some e → e ≤ now → e = d) : i ∈ keys := by
  cases h with
  | stay hpast => exact absurd (Nat.lt_of_le_of_lt hpast (hs i d hi)) (Nat.not_lt.mpr hdue)
  | arrive _ hlater => exact absurd (hlater i d hi) (Nat.not_lt.mpr hdue)
  | fire _ hle hne _ _ hkeys =>
    obtain ⟨j, hj⟩ := List.exists_mem_of_ne_nil keys hne
    obtain rfl := hone j _ ((hkeys j).mp hj) hle
    exact (hkeys i).mpr hi

inductive Drains (target : ℕ) : State ι → List ι → State ι → Prop where
  | done {s : State ι} : target ≤ s.elapsed → Drains target s [] s
  | more {s s' s'' : State ι} {keys rest : List ι} : Advances s target keys s' →
      Drains target s' rest s'' →
      Drains target s (keys ++ rest) s''

/-- The deadline of `i` is no later than that of `j`. -/
def Sooner (deadline : ι → Option ℕ) (i j : ι) : Prop :=
  ∀ d e, deadline i = some d → deadline j = some e → d ≤ e

theorem without_eq_some {start : ι → Option ℕ} {i : ι} {d : ℕ} :
    without start keys i = some d ↔ start i = some d ∧ i ∉ keys := by
  unfold without
  split <;> simp_all

theorem Drains.reached {target : ℕ} (h : Drains target s keys s') : target ≤ s'.elapsed := by
  induction h with
  | done hle => exact hle
  | more _ _ ih => exact ih

theorem Drains.taken {target : ℕ} (h : Drains target s keys s') (hs : s.Future) :
    keys.Nodup ∧ (∀ i, i ∈ keys ↔ ∃ d ≤ target, s.deadline i = some d) ∧
      keys.Pairwise (Sooner s.deadline) := by
  induction h with
  | @done s hle =>
    refine ⟨List.nodup_nil, fun i => ?_, List.Pairwise.nil⟩
    simp only [List.not_mem_nil, false_iff, not_exists, not_and]
    intro d hd hi
    have := hs i d hi
    omega
  | @more s s' s'' keys rest hstep _ ih =>
    obtain ⟨hnodup, hmem, hsorted⟩ := ih (hstep.future hs)
    obtain ⟨hkeys, hdue⟩ := hstep.due
    rw [hstep.deadline_eq] at hmem hsorted
    have hlater : ∀ i ∈ rest, ∃ d ≤ target, s.deadline i = some d ∧ i ∉ keys := by
      intro i hi
      obtain ⟨d, hd, hwithout⟩ := (hmem i).mp hi
      exact ⟨d, hd, without_eq_some.mp hwithout⟩
    refine ⟨List.nodup_append.mpr ⟨hkeys, hnodup, fun i hi j hj heq => ?_⟩, fun i => ?_,
      List.pairwise_append.mpr ⟨?_, ?_, ?_⟩⟩
    · obtain ⟨d, -, -, hout⟩ := hlater j hj
      exact hout (heq ▸ hi)
    · rw [List.mem_append, hmem]
      constructor
      · rintro (hi | ⟨d, hd, hwithout⟩)
        · obtain ⟨d, hd, hi, -⟩ := hdue i hi
          exact ⟨d, hd, hi⟩
        · exact ⟨d, hd, (without_eq_some.mp hwithout).1⟩
      · rintro ⟨d, hd, hi⟩
        by_cases hin : i ∈ keys
        · exact .inl hin
        · exact .inr ⟨d, hd, without_eq_some.mpr ⟨hi, hin⟩⟩
    · refine List.Pairwise.imp_of_mem ?_ hkeys
      intro i j hi hj _ d e hd he
      obtain ⟨d', -, hi', hfirst⟩ := hdue i hi
      obtain rfl : d' = d := by
        rw [hi'] at hd
        exact Option.some.inj hd
      exact hfirst j e he
    · refine List.Pairwise.imp_of_mem ?_ hsorted
      intro i j hi hj hsooner d e hd he
      obtain ⟨-, -, -, hout⟩ := hlater i hi
      obtain ⟨-, -, -, hout'⟩ := hlater j hj
      exact hsooner d e (without_eq_some.mpr ⟨hd, hout⟩) (without_eq_some.mpr ⟨he, hout'⟩)
    · intro i hi j _ d e hd he
      obtain ⟨d', -, hi', hfirst⟩ := hdue i hi
      obtain rfl : d' = d := by
        rw [hi'] at hd
        exact Option.some.inj hd
      exact hfirst j e he

end Eddy.DeadlineMap
