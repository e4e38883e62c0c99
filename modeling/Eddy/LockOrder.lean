import Mathlib.Data.Fintype.Card
import Mathlib.Data.Nat.Find
import Mathlib.Data.Set.Finite.Basic
import Mathlib.Logic.Relation
import Mathlib.Order.WellFounded

/-!
# Threads that wait for one another

A thread waits for those that hold the lock it wants. When each wanted lock comes after those that
its thread holds, in a relation without cycles, no threads wait in a circle, and of finitely many
threads one that somebody waits for can go on. A relation with a cycle has one that meets nobody
twice.
-/

namespace Eddy.LockOrder
open Relation

variable {T L : Type*} {holds wants : T → L → Prop} {order : L → L → Prop}

def Waits (holds wants : T → L → Prop) (t t' : T) : Prop := ∃ l, wants t l ∧ holds t' l

def Deadlocked (holds wants : T → L → Prop) : Prop := ∃ t, TransGen (Waits holds wants) t t

/-- What a thread wants comes after what it holds. -/
def Ordered (order : L → L → Prop) (holds wants : T → L → Prop) : Prop :=
  ∀ t l l', holds t l → wants t l' → TransGen order l l'

theorem Ordered.chain (h : Ordered order holds wants) {t t' : T} {l' : L}
    (hchain : TransGen (Waits holds wants) t t') (hwants : wants t' l') :
    ∃ l, wants t l ∧ TransGen order l l' := by
  induction hchain using TransGen.head_induction_on with
  | single hwaits =>
    obtain ⟨l, hl, hheld⟩ := hwaits
    exact ⟨l, hl, h _ _ _ hheld hwants⟩
  | head hwaits _ ih =>
    obtain ⟨l, hl, hheld⟩ := hwaits
    obtain ⟨m, hm, horder⟩ := ih
    exact ⟨l, hl, (h _ _ _ hheld hm).trans horder⟩

theorem Ordered.not_deadlocked (h : Ordered order holds wants)
    (honce : ∀ t l l', wants t l → wants t l' → l = l')
    (hacyclic : ∀ l, ¬ TransGen order l l) : ¬ Deadlocked holds wants := by
  rintro ⟨t, hcycle⟩
  obtain ⟨l', hwants⟩ : ∃ l, wants t l := by
    obtain ⟨_, ⟨l, hl, -⟩, -⟩ := TransGen.head'_iff.mp hcycle
    exact ⟨l, hl⟩
  obtain ⟨l, hl, horder⟩ := h.chain hcycle hwants
  rw [honce t l l' hl hwants] at horder
  exact hacyclic l' horder

/-- Steps from `path 0` to `path k`. -/
def Walk (order : L → L → Prop) (path : ℕ → L) (k : ℕ) : Prop :=
  ∀ i < k, order (path i) (path (i + 1))

theorem exists_walk {a b : L} (h : TransGen order a b) :
    ∃ path k, 0 < k ∧ path 0 = a ∧ path k = b ∧ Walk order path k := by
  induction h using TransGen.head_induction_on with
  | @single a hab =>
    refine ⟨fun i => if i = 0 then a else b, 1, Nat.one_pos, rfl, rfl, fun i hi => ?_⟩
    obtain rfl : i = 0 := by omega
    exact hab
  | @head a c hac _ ih =>
    obtain ⟨path, k, hk, hfirst, hlast, hwalk⟩ := ih
    refine ⟨fun i => if i = 0 then a else path (i - 1), k + 1, Nat.succ_pos k, rfl, hlast,
      fun i hi => ?_⟩
    cases i with
    | zero =>
      have hstep : order a (path 0) := hfirst.symm ▸ hac
      exact hstep
    | succ i => exact hwalk i (by omega)

/-- A cycle that is as short as it can be meets nobody twice. -/
theorem exists_simple_cycle {a : L} (h : TransGen order a a) :
    ∃ path k, 0 < k ∧ path k = path 0 ∧ Walk order path k ∧
      ∀ i < k, ∀ j < k, path i = path j → i = j := by
  classical
  have hsome : ∃ k, 0 < k ∧ ∃ path : ℕ → L, path k = path 0 ∧ Walk order path k := by
    obtain ⟨path, k, hk, hfirst, hlast, hwalk⟩ := exists_walk h
    exact ⟨k, hk, path, hlast.trans hfirst.symm, hwalk⟩
  obtain ⟨hk, path, hclosed, hwalk⟩ := Nat.find_spec hsome
  have hshorter : ∀ i j, i < j → j < Nat.find hsome → path i ≠ path j := by
    intro i j hij hj heq
    refine Nat.find_min hsome (m := j - i) (by omega) ⟨by omega, fun m => path (i + m), ?_, ?_⟩
    · dsimp only
      rw [Nat.add_sub_cancel' hij.le]
      exact heq.symm
    · exact fun m hm => hwalk (i + m) (by omega)
  refine ⟨path, Nat.find hsome, hk, hclosed, hwalk, fun i hi j hj heq => ?_⟩
  rcases Nat.lt_trichotomy i j with hij | hij | hij
  · exact absurd heq (hshorter i j hij hj)
  · exact hij
  · exact absurd heq.symm (hshorter j i hij hi)

end Eddy.LockOrder
