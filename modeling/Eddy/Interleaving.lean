import Mathlib.Data.List.Basic
import Mathlib.Algebra.Ring.Nat
import Mathlib.Algebra.Order.BigOperators.Group.List
import Mathlib.Algebra.Order.Group.Nat

/-!
# Interleaved runs of a partial step function

A system is a step function that is undefined on a label which is not enabled. A state is reachable
when some run of labels ends in it, each of whose steps may have to be allowed by a guard on the
state before it. Threads form a pool, and what they hold together is the sum of a weight over it.
-/

namespace Eddy.Interleaving

universe u v

variable {σ : Type u} {α : Type v}

/-- Perform the labels in order; undefined as soon as one of them is not enabled. -/
def run (step : σ → α → Option σ) : σ → List α → Option σ
  | s, [] => some s
  | s, a :: as => (step s a).bind fun t => run step t as

/-- The states reached from `init` by steps that `guard` allows in the state before. -/
inductive Reachable (step : σ → α → Option σ) (guard : σ → α → Prop) (init : σ) : σ → Prop where
  | start : Reachable step guard init init
  | next {s t a} (before : Reachable step guard init s) (allowed : guard s a)
      (taken : step s a = some t) : Reachable step guard init t

/-- The guard of an unrestricted run. -/
def anyStep (_ : σ) (_ : α) : Prop := True

instance (s : σ) (a : α) : Decidable (anyStep s a) := inferInstanceAs (Decidable True)

namespace Reachable

variable {step : σ → α → Option σ} {guard : σ → α → Prop} {init : σ}

/-- What holds initially and is kept by every allowed step holds in every reachable state. -/
theorem invariant {I : σ → Prop} {s : σ} (h : Reachable step guard init s) (base : I init)
    (keep : ∀ s a t, I s → guard s a → step s a = some t → I t) : I s := by
  induction h with
  | start => exact base
  | next _ allowed taken ih => exact keep _ _ _ ih allowed taken

theorem trans {s t : σ} (h : Reachable step guard init s) (h' : Reachable step guard s t) :
    Reachable step guard init t := by
  induction h' with
  | start => exact h
  | next _ allowed taken ih => exact .next ih allowed taken

end Reachable

/-- The step function that is undefined where the guard forbids the step. -/
def guarded (step : σ → α → Option σ) (guard : σ → α → Prop) [∀ s a, Decidable (guard s a)]
    (s : σ) (a : α) : Option σ :=
  if guard s a then step s a else none

variable {s : σ} {as : List α} {P I : σ → Prop}

theorem guarded_eq_some {step : σ → α → Option σ} {guard : σ → α → Prop}
    [∀ s a, Decidable (guard s a)] {t : σ} {a : α} (h : guarded step guard s a = some t) :
    guard s a ∧ step s a = some t := by
  unfold guarded at h
  split_ifs at h with allowed
  exact ⟨allowed, h⟩

theorem reachable_of_run {step : σ → α → Option σ} {guard : σ → α → Prop}
    [∀ s a, Decidable (guard s a)] {t : σ}
    (h : run (guarded step guard) s as = some t) : Reachable step guard s t := by
  induction as generalizing s with
  | nil =>
    cases h
    exact .start
  | cons a as ih =>
    obtain ⟨m, hm, hrest⟩ := Option.bind_eq_some_iff.mp h
    obtain ⟨allowed, taken⟩ := guarded_eq_some hm
    exact Reachable.trans (.next .start allowed taken) (ih hrest)

theorem exists_reachable_of_run {step : σ → α → Option σ} {guard : σ → α → Prop}
    [∀ s a, Decidable (guard s a)] {check : σ → Bool}
    (h : (run (guarded step guard) s as).any check = true) :
    ∃ t, Reachable step guard s t ∧ check t = true := by
  cases hr : run (guarded step guard) s as with
  | none => simp [hr] at h
  | some t => exact ⟨t, reachable_of_run hr, by simpa [hr] using h⟩

/-- `P` holds in every state of the run, which ends before the first label that is not enabled. -/
def Always (step : σ → α → Option σ) (P : σ → Prop) : σ → List α → Prop
  | s, [] => P s
  | s, a :: as => P s ∧ ∀ t, step s a = some t → Always step P t as

/-- The guard allows every step of the run. -/
def Obeys (step : σ → α → Option σ) (guard : σ → α → Prop) : σ → List α → Prop
  | _, [] => True
  | s, a :: as => ∀ t, step s a = some t → guard s a ∧ Obeys step guard t as

theorem Always.head {step : σ → α → Option σ}
    (h : Always step P s as) : P s := by
  cases as with
  | nil => exact h
  | cons a as => exact h.1

theorem obeys_anyStep (step : σ → α → Option σ) (s : σ) (as : List α) :
    Obeys step anyStep s as := by
  induction as generalizing s with
  | nil => trivial
  | cons a as ih => exact fun t _ => ⟨trivial, ih t⟩

theorem obeys_of_run {step : σ → α → Option σ} {guard : σ → α → Prop}
    [∀ s a, Decidable (guard s a)]
    (h : (run (guarded step guard) s as).isSome = true) : Obeys step guard s as := by
  induction as generalizing s with
  | nil => trivial
  | cons a as ih =>
    intro t ht
    obtain ⟨u, hu⟩ := Option.isSome_iff_exists.mp h
    obtain ⟨m, hm, hrest⟩ := Option.bind_eq_some_iff.mp hu
    obtain ⟨allowed, taken⟩ := guarded_eq_some hm
    obtain rfl : m = t := Option.some.inj (taken.symm.trans ht)
    exact ⟨allowed, ih (Option.isSome_iff_exists.mpr ⟨u, hrest⟩)⟩

/-- The allowed steps keep an invariant that implies `P`. -/
theorem Obeys.always {step : σ → α → Option σ} {guard : σ → α → Prop}
    (sound : ∀ s, I s → P s) (keep : ∀ s a t, I s → guard s a → step s a = some t → I t)
    (hs : I s) (h : Obeys step guard s as) : Always step P s as := by
  induction as generalizing s with
  | nil => exact sound s hs
  | cons a as ih =>
    refine ⟨sound s hs, fun t ht => ?_⟩
    obtain ⟨allowed, hrest⟩ := h t ht
    exact ih (keep s a t hs allowed ht) hrest

/-- In a run that obeys `base`, the allowed steps keep an invariant that implies `P`, and any
other step breaks `P`. -/
theorem Obeys.always_iff {step : σ → α → Option σ} {base guard : σ → α → Prop}
    (sound : ∀ s, I s → P s)
    (keep : ∀ s a t, I s → base s a → guard s a → step s a = some t → I t)
    (broken : ∀ s a t, I s → base s a → step s a = some t → P t → guard s a) (hs : I s)
    (h : Obeys step base s as) : Always step P s as ↔ Obeys step guard s as := by
  induction as generalizing s with
  | nil => exact iff_of_true (sound s hs) trivial
  | cons a as ih =>
    constructor
    · intro halways t ht
      obtain ⟨hbase, hrest⟩ := h t ht
      have allowed := broken s a t hs hbase ht (halways.2 t ht).head
      exact ⟨allowed, (ih (keep s a t hs hbase allowed ht) hrest).mp (halways.2 t ht)⟩
    · intro hobeys
      refine ⟨sound s hs, fun t ht => ?_⟩
      obtain ⟨hbase, hrest⟩ := h t ht
      obtain ⟨allowed, hnext⟩ := hobeys t ht
      exact (ih (keep s a t hs hbase allowed ht) hrest).mpr hnext

/-- The allowed steps keep an invariant that implies `P`, and any other step breaks `P`. -/
theorem always_iff_obeys {step : σ → α → Option σ} {guard : σ → α → Prop}
    (sound : ∀ s, I s → P s) (keep : ∀ s a t, I s → guard s a → step s a = some t → I t)
    (broken : ∀ s a t, I s → step s a = some t → P t → guard s a) (hs : I s)
    (as : List α) : Always step P s as ↔ Obeys step guard s as :=
  (obeys_anyStep step s as).always_iff sound (fun s a t hI _ => keep s a t hI)
    (fun s a t hI _ => broken s a t hI) hs

variable {τ : Type u}

/-- What the threads of a pool hold together, when a single thread `p` holds `w p`. -/
def total (w : τ → ℕ) (pool : List τ) : ℕ := (pool.map w).sum

@[simp] theorem total_nil (w : τ → ℕ) : total w [] = 0 := rfl

@[simp] theorem total_cons (w : τ → ℕ) (p : τ) (pool : List τ) :
    total w (p :: pool) = w p + total w pool := by simp [total]

@[simp] theorem total_append (w : τ → ℕ) (pool pool' : List τ) :
    total w (pool ++ pool') = total w pool + total w pool' := by simp [total]

variable {pool : List τ} {p : τ} {i : ℕ}

theorem total_eq_zero_iff {w : τ → ℕ} :
    total w pool = 0 ↔ ∀ p ∈ pool, w p = 0 := by
  induction pool with
  | nil => simp
  | cons p pool ih => simp [ih]

/-- A pool is one of its threads and the others. -/
theorem total_eraseIdx (w : τ → ℕ) (h : pool[i]? = some p) :
    total w pool = total w (pool.eraseIdx i) + w p := by
  induction pool generalizing i with
  | nil => simp at h
  | cons x pool ih =>
    cases i with
    | zero =>
      obtain rfl : x = p := by simpa using h
      simp [Nat.add_comm]
    | succ i =>
      have := ih (show pool[i]? = some p by simpa using h)
      simp only [List.eraseIdx_cons_succ, total_cons]
      omega

theorem total_mono {w w' : τ → ℕ} (h : ∀ p, w p ≤ w' p) (pool : List τ) :
    total w pool ≤ total w' pool :=
  List.sum_le_sum fun p _ => h p

theorem total_add (w w' : τ → ℕ) (pool : List τ) :
    total (fun p => w p + w' p) pool = total w pool + total w' pool := by
  induction pool with
  | nil => rfl
  | cons p pool ih =>
    simp only [total_cons, ih]
    omega

/-- Advancing one thread changes the total by that thread's own change. -/
theorem total_set (w : τ → ℕ) (h : pool[i]? = some p) (q : τ) :
    total w (pool.set i q) + w p = total w pool + w q := by
  induction pool generalizing i with
  | nil => simp at h
  | cons x pool ih =>
    cases i with
    | zero =>
      obtain rfl : x = p := by simpa using h
      simp only [List.set_cons_zero, total_cons]
      omega
    | succ i =>
      have := ih (by simpa using h)
      simp only [List.set_cons_succ, total_cons]
      omega

theorem le_total (w : τ → ℕ) (h : pool[i]? = some p) :
    w p ≤ total w pool :=
  List.single_le_sum (fun _ _ => Nat.zero_le _) _
    (List.mem_map_of_mem (List.mem_of_getElem? h))

/-- Two different threads hold no more than the pool does. -/
theorem add_le_total (w : τ → ℕ) {j : ℕ} {q : τ} (hij : i ≠ j)
    (hi : pool[i]? = some p) (hj : pool[j]? = some q) : w p + w q ≤ total w pool := by
  induction pool generalizing i j with
  | nil => simp at hi
  | cons x pool ih =>
    simp only [total_cons]
    cases i with
    | zero =>
      cases j with
      | zero => exact absurd rfl hij
      | succ j =>
        obtain rfl : x = p := by simpa using hi
        have := le_total w (show pool[j]? = some q by simpa using hj)
        omega
    | succ i =>
      cases j with
      | zero =>
        obtain rfl : x = q := by simpa using hj
        have := le_total w (show pool[i]? = some p by simpa using hi)
        omega
      | succ j =>
        have := ih (show i ≠ j by omega) (by simpa using hi) (by simpa using hj)
        omega

end Eddy.Interleaving
