import Mathlib.Data.Finset.Card
import Mathlib.Order.WellFounded
import Eddy.Interleaving

/-!
# Infinite runs of a partial step function

An infinite run performs a label or nothing at every moment. A thread is treated fairly when it
performs one of its labels after every moment from which on it is always ready. What the thread
brings about is proved by a number that gets smaller with each of its labels and that the other
labels keep.
-/

namespace Eddy.FairRuns

universe u v

variable {σ : Type u} {α : Type v}

def Moment (step : σ → α → Option σ) (s : σ) (a : Option α) (t : σ) : Prop :=
  a.elim (t = s) fun a => step s a = some t

/-- An infinite run. -/
def Runs (step : σ → α → Option σ) (ρ : ℕ → σ) (act : ℕ → Option α) : Prop :=
  ∀ n, Moment step (ρ n) (act n) (ρ (n + 1))

/-- A label of the thread is performed. -/
def Acts (own : α → Prop) (act : ℕ → Option α) (n : ℕ) : Prop := ∃ a ∈ act n, own a

/-- The thread is not kept waiting for ever while it is ready. -/
def Fair (own : α → Prop) (ready : σ → Prop) (ρ : ℕ → σ) (act : ℕ → Option α) : Prop :=
  ∀ n, (∀ m, n ≤ m → ready (ρ m)) → ∃ m, n ≤ m ∧ Acts own act m

variable {step : σ → α → Option σ} {ρ : ℕ → σ} {act : ℕ → Option α} {own : α → Prop}
  {ready : σ → Prop}

/-- What holds at first and is kept by every label holds at every moment. -/
theorem Runs.invariant {I : σ → Prop} (h : Runs step ρ act) (base : I (ρ 0))
    (keep : ∀ n a, act n = some a → I (ρ n) → step (ρ n) a = some (ρ (n + 1)) → I (ρ (n + 1)))
    (n : ℕ) : I (ρ n) := by
  induction n with
  | zero => exact base
  | succ n ih =>
    have hmoment := h n
    cases ha : act n with
    | none =>
      rw [ha] at hmoment
      exact (show ρ (n + 1) = ρ n from hmoment) ▸ ih
    | some a =>
      rw [ha] at hmoment
      exact keep n a ha ih hmoment

/-- The states of a finite run. -/
def visited (step : σ → α → Option σ) : σ → List α → List σ
  | s, [] => [s]
  | s, a :: as => s :: (step s a).elim [] fun t => visited step t as

/-- A finite run can go on for ever with nothing. -/
theorem exists_runs_of_run {as : List α} {s t : σ} (h : Interleaving.run step s as = some t) :
    ∃ ρ act, ρ 0 = s ∧ Runs step ρ act ∧ (∀ n, as.length ≤ n → ρ n = t) ∧
      ∀ n, ρ n ∈ visited step s as := by
  induction as generalizing s with
  | nil =>
    cases h
    refine ⟨fun _ => t, fun _ => none, rfl, fun _ => rfl, fun _ _ => rfl, fun _ => ?_⟩
    exact List.mem_singleton_self t
  | cons a as ih =>
    obtain ⟨m, hm, hrest⟩ := Option.bind_eq_some_iff.mp h
    obtain ⟨ρ, act, hfirst, hruns, hlast, hvisited⟩ := ih hrest
    refine ⟨fun n => n.casesOn s ρ, fun n => n.casesOn (some a) act, rfl, ?_, ?_, ?_⟩
    · intro n
      cases n with
      | zero => exact hm.trans (congrArg some hfirst.symm)
      | succ n => exact hruns n
    · intro n hn
      cases n with
      | zero => cases hn
      | succ n => exact hlast n (Nat.le_of_succ_le_succ hn)
    · intro n
      rw [visited, hm]
      cases n with
      | zero => exact List.mem_cons_self
      | succ n => exact List.mem_cons_of_mem _ (hvisited n)

/-- A finite run that goes on for ever with nothing passes through its middle. -/
theorem exists_runs_through {as bs : List α} {s m t : σ} (has : Interleaving.run step s as = some m)
    (hbs : Interleaving.run step m bs = some t) : ∃ ρ act, ρ 0 = s ∧ Runs step ρ act ∧
      ρ as.length = m ∧ ∀ n, as.length + bs.length ≤ n → ρ n = t := by
  induction as generalizing s with
  | nil =>
    cases has
    obtain ⟨ρ, act, hfirst, hruns, hlast, -⟩ := exists_runs_of_run hbs
    refine ⟨ρ, act, hfirst, hruns, hfirst, fun n hn => hlast n ?_⟩
    simpa using hn
  | cons a as ih =>
    obtain ⟨u, hu, hrest⟩ := Option.bind_eq_some_iff.mp has
    obtain ⟨ρ, act, hfirst, hruns, hmiddle, hlast⟩ := ih hrest
    refine ⟨fun n => n.casesOn s ρ, fun n => n.casesOn (some a) act, rfl, ?_, hmiddle, ?_⟩
    · intro n
      cases n with
      | zero => exact hu.trans (congrArg some hfirst.symm)
      | succ n => exact hruns n
    · intro n hn
      rw [List.length_cons] at hn
      cases n with
      | zero => omega
      | succ n => exact hlast n (by omega)

/-- A condition lasts until the thread acts. -/
theorem exists_act {P Q : ℕ → Prop} (hfair : Fair own ready ρ act)
    (hready : ∀ n, P n → ready (ρ n))
    (hkeep : ∀ n, P n → ¬ Acts own act n → Q (n + 1) ∨ P (n + 1)) {n : ℕ} (h : P n) :
    (∃ m, n ≤ m ∧ Q m) ∨ ∃ m, n ≤ m ∧ P m ∧ Acts own act m := by
  by_contra hnever
  rw [not_or] at hnever
  obtain ⟨hQ, hact⟩ := hnever
  have hlasts : ∀ m, n ≤ m → P m := by
    intro m hm
    induction m, hm using Nat.le_induction with
    | base => exact h
    | succ m hm ih =>
      have hidle : ¬ Acts own act m := fun hacts => hact ⟨m, hm, ih, hacts⟩
      refine (hkeep m ih hidle).resolve_left fun hq => hQ ⟨m + 1, ?_, hq⟩
      exact Nat.le_succ_of_le hm
  obtain ⟨m, hm, hacts⟩ := hfair n fun m hm => hready m (hlasts m hm)
  exact hact ⟨m, hm, hlasts m hm, hacts⟩

/-- A number gets smaller with each label of the thread, until something has come about. -/
theorem Fair.eventually {P : ℕ → ℕ → Prop} {Q : ℕ → Prop} (hfair : Fair own ready ρ act)
    (hready : ∀ k n, P k n → ready (ρ n))
    (hkeep : ∀ k n, P k n → ¬ Acts own act n → Q (n + 1) ∨ P k (n + 1))
    (hless : ∀ k n, P k n → Acts own act n → Q (n + 1) ∨ ∃ j < k, P j (n + 1)) {k n : ℕ}
    (h : P k n) : ∃ m, n ≤ m ∧ Q m := by
  induction k using Nat.strong_induction_on generalizing n with
  | _ k ih =>
    rcases exists_act hfair (hready k) (hkeep k) h with hq | ⟨m, hm, hP, hacts⟩
    · exact hq
    · rcases hless k m hP hacts with hq | ⟨j, hj, hP⟩
      · exact ⟨m + 1, Nat.le_succ_of_le hm, hq⟩
      · obtain ⟨m', hm', hq⟩ := ih j hj hP
        exact ⟨m', by omega, hq⟩

/-- What comes about once for each member of a list and lasts has at last come about for all. -/
theorem exists_forall {β : Type u} {P : β → ℕ → Prop} (hmono : ∀ b m n, m ≤ n → P b m → P b n)
    {l : List β} (h : ∀ b ∈ l, ∃ n, P b n) : ∃ n, ∀ b ∈ l, P b n := by
  induction l with
  | nil => exact ⟨0, nofun⟩
  | cons b l ih =>
    obtain ⟨m, hm⟩ := h b List.mem_cons_self
    obtain ⟨n, hn⟩ := ih fun c hc => h c (List.mem_cons_of_mem _ hc)
    refine ⟨max m n, fun c hc => ?_⟩
    rcases List.mem_cons.mp hc with rfl | hc
    · exact hmono c m _ (Nat.le_max_left m n) hm
    · exact hmono c n _ (Nat.le_max_right m n) (hn c hc)

/-- A set of numbers that only loses members stays the same from some moment on. -/
theorem exists_constant {K : ℕ → Finset ℕ} (h : Antitone K) : ∃ n, ∀ m, n ≤ m → K m = K n := by
  refine ⟨Function.argmin (fun n => (K n).card), fun m hm => ?_⟩
  apply Finset.eq_of_subset_of_card_le (h hm)
  exact Function.argmin_le (fun n => (K n).card) m

end Eddy.FairRuns
