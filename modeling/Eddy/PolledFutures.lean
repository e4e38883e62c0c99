import Mathlib.Data.List.Basic
import Mathlib.Data.Option.Basic
import Mathlib.Order.Lattice

/-!
# Futures that are polled

A future is a state and a poll function. What the world does between two polls is part of the
course of the state. A future completes in a round: that many polls were pending and the next one
is ready. A branch is a future with a slot for its output, which is polled until the slot is full.
-/

namespace Eddy.PolledFutures

universe u v w

inductive Poll (α : Type u) where
  | pending
  | ready (a : α)

abbrev Future (σ : Type u) (α : Type v) := σ → Poll α × σ

variable {σ : Type u} {α : Type v} {β : Type w}

inductive Pends (f : Future σ α) (s : σ) : ℕ → σ → Prop where
  | start : Pends f s 0 s
  | next {n : ℕ} {t u : σ} (before : Pends f s n t) (poll : f t = (.pending, u)) :
      Pends f s (n + 1) u

/-- The future completes in this round, with an output and a last state. -/
inductive Completes (f : Future σ α) (s : σ) (n : ℕ) (a : α) (u : σ) : Prop where
  | ready {t : σ} (before : Pends f s n t) (poll : f t = (.ready a, u)) : Completes f s n a u

variable {f : Future σ α} {s t u : σ} {a b : α} {m n : ℕ}

theorem pends_zero : Pends f s 0 t ↔ t = s := by
  constructor
  · intro h
    cases h
    rfl
  · rintro rfl
    exact .start

theorem pends_succ : Pends f s (n + 1) u ↔ ∃ t, Pends f s n t ∧ f t = (.pending, u) := by
  constructor
  · intro h
    cases h with
    | @next _ t _ before poll => exact ⟨t, before, poll⟩
  · rintro ⟨t, before, poll⟩
    exact .next before poll

theorem completes_iff : Completes f s n a u ↔ ∃ t, Pends f s n t ∧ f t = (.ready a, u) := by
  constructor
  · rintro ⟨before, poll⟩
    exact ⟨_, before, poll⟩
  · rintro ⟨t, before, poll⟩
    exact ⟨before, poll⟩

theorem Pends.unique (h : Pends f s n t) (h' : Pends f s n u) : t = u := by
  induction h generalizing u with
  | start =>
    cases h'
    rfl
  | next _ hpoll ih =>
    cases h' with
    | next hbefore hpoll' =>
      cases ih hbefore
      exact congrArg Prod.snd (hpoll.symm.trans hpoll')

theorem Pends.mono (h : Pends f s n t) (hle : m ≤ n) : ∃ u, Pends f s m u := by
  induction h with
  | start =>
    obtain rfl : m = 0 := by omega
    exact ⟨_, .start⟩
  | @next n t u hbefore hpoll ih =>
    rcases Nat.lt_or_ge n m with hlt | hge
    · obtain rfl : m = n + 1 := by omega
      exact ⟨u, .next hbefore hpoll⟩
    · exact ih hge

theorem Completes.le_of_pends (h : Completes f s m a u) (h' : Pends f s n t) : n ≤ m := by
  obtain ⟨hbefore, hpoll⟩ := h
  by_contra hlt
  obtain ⟨v, hv⟩ := h'.mono (show m + 1 ≤ n by omega)
  cases hv with
  | next hbefore' hpoll' =>
    cases hbefore.unique hbefore'
    cases hpoll.symm.trans hpoll'

theorem Completes.unique (h : Completes f s m a t) (h' : Completes f s n b u) :
    m = n ∧ a = b ∧ t = u := by
  obtain ⟨hbefore, hpoll⟩ := h
  obtain ⟨hbefore', hpoll'⟩ := h'
  have hle := Completes.le_of_pends ⟨hbefore, hpoll⟩ hbefore'
  have hge := Completes.le_of_pends ⟨hbefore', hpoll'⟩ hbefore
  obtain rfl : m = n := by omega
  cases hbefore.unique hbefore'
  cases hpoll.symm.trans hpoll'
  exact ⟨rfl, rfl, rfl⟩

theorem pends_or_completes (f : Future σ α) (s : σ) (n : ℕ) :
    (∃ t, Pends f s n t) ∨ ∃ m < n, ∃ a u, Completes f s m a u := by
  induction n with
  | zero => exact .inl ⟨s, .start⟩
  | succ n ih =>
    rcases ih with ⟨t, ht⟩ | ⟨m, hm, hcompletes⟩
    · rcases hpoll : f t with ⟨result, u⟩
      cases result with
      | pending => exact .inl ⟨u, .next ht hpoll⟩
      | ready a => exact .inr ⟨n, Nat.lt_succ_self n, a, u, ht, hpoll⟩
    · exact .inr ⟨m, Nat.lt_succ_of_lt hm, hcompletes⟩

/-- The poll of an `async` block that awaits a future and passes its output through `g`. -/
def Future.map (g : α → β) (f : Future σ α) : Future σ β := fun s =>
  match f s with
  | (.pending, t) => (.pending, t)
  | (.ready a, t) => (.ready (g a), t)

theorem pends_map {g : α → β} : Pends (f.map g) s n t ↔ Pends f s n t := by
  constructor
  · intro h
    induction h with
    | start => exact .start
    | @next n t u _ hpoll ih =>
      refine .next ih ?_
      rcases hresult : f t with ⟨result, v⟩
      cases result with
      | pending => simpa [Future.map, hresult] using hpoll
      | ready a => simp [Future.map, hresult] at hpoll
  · intro h
    induction h with
    | start => exact .start
    | next _ hpoll ih => exact .next ih (by simp [Future.map, hpoll])

theorem completes_map {g : α → β} {b : β} :
    Completes (f.map g) s n b u ↔ ∃ a, Completes f s n a u ∧ g a = b := by
  constructor
  · rintro ⟨hbefore, hpoll⟩
    rename_i t
    rcases hresult : f t with ⟨result, v⟩
    cases result with
    | pending => simp [Future.map, hresult] at hpoll
    | ready a =>
      simp only [Future.map, hresult, Prod.mk.injEq, Poll.ready.injEq] at hpoll
      obtain ⟨rfl, rfl⟩ := hpoll
      exact ⟨a, ⟨pends_map.mp hbefore, hresult⟩, rfl⟩
  · rintro ⟨a, ⟨hbefore, hpoll⟩, rfl⟩
    exact ⟨pends_map.mpr hbefore, by simp [Future.map, hpoll]⟩

def pollSlot (f : Future σ α) (s : σ) : Option α → σ × Option α
  | some a => (s, some a)
  | none =>
    match f s with
    | (.pending, t) => (t, none)
    | (.ready a, t) => (t, some a)

theorem eq_none_of_pollSlot {slot : Option α} (h : pollSlot f s slot = (t, none)) :
    slot = none := by
  cases slot with
  | none => rfl
  | some a => cases h

/-- A branch and its slot after so many rounds. -/
inductive Filled (f : Future σ α) (s : σ) (n : ℕ) (t : σ) : Option α → Prop where
  | waiting (pends : Pends f s n t) : Filled f s n t none
  | filled {m : ℕ} {a : α} (early : m < n) (completes : Completes f s m a t) :
      Filled f s n t (some a)

theorem filled_zero {slot : Option α} : Filled f s 0 t slot ↔ t = s ∧ slot = none := by
  constructor
  · intro h
    cases h with
    | waiting pends => exact ⟨pends_zero.mp pends, rfl⟩
    | filled early _ => exact absurd early (Nat.not_lt_zero _)
  · rintro ⟨rfl, rfl⟩
    exact .waiting .start

theorem exists_filled (f : Future σ α) (s : σ) (n : ℕ) : ∃ t slot, Filled f s n t slot := by
  rcases pends_or_completes f s n with ⟨t, ht⟩ | ⟨m, hm, a, t, hcompletes⟩
  · exact ⟨t, none, .waiting ht⟩
  · exact ⟨t, some a, .filled hm hcompletes⟩

theorem filled_succ {slot : Option α} :
    Filled f s (n + 1) u slot ↔
      ∃ t slot', Filled f s n t slot' ∧ pollSlot f t slot' = (u, slot) := by
  constructor
  · intro h
    cases h with
    | waiting pends =>
      cases pends with
      | next before poll => exact ⟨_, none, .waiting before, by simp [pollSlot, poll]⟩
    | @filled m a early completes =>
      rcases Nat.lt_or_ge m n with hlt | hge
      · exact ⟨u, some a, .filled hlt completes, rfl⟩
      · obtain rfl : m = n := by omega
        obtain ⟨before, poll⟩ := completes
        exact ⟨_, none, .waiting before, by simp [pollSlot, poll]⟩
  · rintro ⟨t, slot', h, hpoll⟩
    cases h with
    | @filled m a early completes =>
      cases hpoll
      exact .filled (Nat.lt_succ_of_lt early) completes
    | waiting pends =>
      rcases hresult : f t with ⟨result, v⟩
      cases result with
      | pending =>
        simp only [pollSlot, hresult, Prod.mk.injEq] at hpoll
        obtain ⟨rfl, rfl⟩ := hpoll
        exact .waiting (.next pends hresult)
      | ready a =>
        simp only [pollSlot, hresult, Prod.mk.injEq] at hpoll
        obtain ⟨rfl, rfl⟩ := hpoll
        exact .filled (Nat.lt_succ_self n) ⟨pends, hresult⟩

/-- A branch whose slot is full has completed in an earlier round. -/
theorem Filled.completes (h : Filled f s n t (some a)) : ∃ m < n, Completes f s m a t := by
  cases h with
  | filled early completes => exact ⟨_, early, completes⟩

/-- A branch whose slot is empty is still pending. -/
theorem Filled.pends (h : Filled f s n t none) : Pends f s n t := by
  cases h with
  | waiting pends => exact pends

theorem Filled.eq_some {slot : Option α} (h : Filled f s n t slot)
    (hcompletes : Completes f s m a u) (hlt : m < n) : t = u ∧ slot = some a := by
  cases h with
  | waiting pends =>
    have := hcompletes.le_of_pends pends
    omega
  | filled _ completes =>
    obtain ⟨-, rfl, rfl⟩ := completes.unique hcompletes
    exact ⟨rfl, rfl⟩

theorem Filled.pollSlot_eq {slot : Option α} (h : Filled f s n t slot)
    (hcompletes : Completes f s m a u) (hle : m ≤ n) : pollSlot f t slot = (u, some a) := by
  obtain ⟨hstate, hslot⟩ :=
    (filled_succ.mpr ⟨t, slot, h, rfl⟩).eq_some hcompletes (Nat.lt_succ_of_le hle)
  exact Prod.ext hstate hslot

/-- The slot is empty until then. -/
theorem Filled.eq_none {slot : Option α} (h : Filled f s n t slot)
    (hcompletes : Completes f s m a u) (hle : n ≤ m) : slot = none := by
  cases h with
  | waiting => rfl
  | filled early completes =>
    obtain ⟨rfl, -, -⟩ := completes.unique hcompletes
    omega

section Early
variable {ε : Type w} {f : Future σ (Except ε α)} {slot : Option (Except ε α)} {e : ε}

/-- Poll a branch whose slot is empty; its error ends the poll of the whole. -/
def tryPollSlot (f : Future σ (Except ε α)) (s : σ) :
    Option (Except ε α) → Except (ε × σ) (σ × Option (Except ε α))
  | some result => .ok (s, some result)
  | none =>
    match f s with
    | (.pending, t) => .ok (t, none)
    | (.ready (.ok a), t) => .ok (t, some (.ok a))
    | (.ready (.error e), t) => .error (e, t)

/-- A branch and its slot after so many rounds without an error. -/
structure Succeeds (f : Future σ (Except ε α)) (s : σ) (n : ℕ) (t : σ)
    (slot : Option (Except ε α)) : Prop where
  filled : Filled f s n t slot
  ok : ∀ result ∈ slot, result.isOk = true

theorem succeeds_zero : Succeeds f s 0 t slot ↔ t = s ∧ slot = none := by
  constructor
  · intro h
    exact filled_zero.mp h.filled
  · intro h
    refine ⟨filled_zero.mpr h, fun result hresult => ?_⟩
    simp [h.2] at hresult

theorem succeeds_succ :
    Succeeds f s (n + 1) u slot ↔
      ∃ t slot', Succeeds f s n t slot' ∧ tryPollSlot f t slot' = .ok (u, slot) := by
  constructor
  · rintro ⟨hfilled, hok⟩
    obtain ⟨t, slot', hfilled', hpoll⟩ := filled_succ.mp hfilled
    cases slot' with
    | some result =>
      cases hpoll
      exact ⟨u, some result, ⟨hfilled', hok⟩, rfl⟩
    | none =>
      refine ⟨t, none, ⟨hfilled', fun result h => absurd h (by simp)⟩, ?_⟩
      rcases hresult : f t with ⟨_ | result, v⟩
      · simp only [pollSlot, hresult, Prod.mk.injEq] at hpoll
        obtain ⟨rfl, rfl⟩ := hpoll
        simp [tryPollSlot, hresult]
      · simp only [pollSlot, hresult, Prod.mk.injEq] at hpoll
        obtain ⟨rfl, rfl⟩ := hpoll
        have hisOk := hok result rfl
        cases result with
        | error e => cases hisOk
        | ok a => simp [tryPollSlot, hresult]
  · rintro ⟨t, slot', ⟨hfilled, hok⟩, hpoll⟩
    cases slot' with
    | some result =>
      cases hpoll
      exact ⟨filled_succ.mpr ⟨u, some result, hfilled, rfl⟩, hok⟩
    | none =>
      rcases hresult : f t with ⟨_ | _ | a, v⟩
      · simp only [tryPollSlot, hresult, Except.ok.injEq, Prod.mk.injEq] at hpoll
        obtain ⟨rfl, rfl⟩ := hpoll
        exact ⟨filled_succ.mpr ⟨t, none, hfilled, by simp [pollSlot, hresult]⟩,
          fun result h => absurd h (by simp)⟩
      · simp [tryPollSlot, hresult] at hpoll
      · simp only [tryPollSlot, hresult, Except.ok.injEq, Prod.mk.injEq] at hpoll
        obtain ⟨rfl, rfl⟩ := hpoll
        refine ⟨filled_succ.mpr ⟨t, none, hfilled, by simp [pollSlot, hresult]⟩, ?_⟩
        intro result h
        cases h
        rfl

theorem completes_error :
    Completes f s n (.error e) u ↔
      ∃ t slot, Succeeds f s n t slot ∧ tryPollSlot f t slot = .error (e, u) := by
  constructor
  · rintro ⟨hbefore, hpoll⟩
    exact ⟨_, none, ⟨.waiting hbefore, fun result h => absurd h (by simp)⟩,
      by simp [tryPollSlot, hpoll]⟩
  · rintro ⟨t, slot, ⟨hfilled, -⟩, hpoll⟩
    cases slot with
    | some result => cases hpoll
    | none =>
      rcases hresult : f t with ⟨_ | e' | a, v⟩
      · simp [tryPollSlot, hresult] at hpoll
      · simp only [tryPollSlot, hresult, Except.error.injEq, Prod.mk.injEq] at hpoll
        obtain ⟨rfl, rfl⟩ := hpoll
        exact ⟨hfilled.pends, hresult⟩
      · simp [tryPollSlot, hresult] at hpoll

/-- A poll of a branch that has not failed fails in this round or does not. -/
theorem Succeeds.tried (h : Succeeds f s n t slot) :
    (∃ e u, tryPollSlot f t slot = .error (e, u) ∧ Completes f s n (.error e) u) ∨
      ∃ u slot', tryPollSlot f t slot = .ok (u, slot') ∧ Succeeds f s (n + 1) u slot' := by
  rcases hresult : tryPollSlot f t slot with ⟨e, u⟩ | ⟨u, slot'⟩
  · exact .inl ⟨e, u, rfl, completes_error.mpr ⟨t, slot, h, hresult⟩⟩
  · exact .inr ⟨u, slot', rfl, succeeds_succ.mpr ⟨t, slot, h, hresult⟩⟩

theorem eq_none_of_tryPollSlot (h : tryPollSlot f t slot = .ok (u, none)) : slot = none := by
  cases slot with
  | none => rfl
  | some result => cases h

theorem eq_none_of_tryPollSlot_error (h : tryPollSlot f t slot = .error (e, u)) : slot = none := by
  cases slot with
  | none => rfl
  | some result => cases h

/-- A full slot holds an output. -/
theorem Succeeds.exists_ok (h : Succeeds f s n t slot) (hne : slot ≠ none) :
    ∃ a, slot = some (.ok a) := by
  obtain ⟨result, rfl⟩ := Option.ne_none_iff_exists'.mp hne
  cases result with
  | error e => cases h.ok (.error e) rfl
  | ok a => exact ⟨a, rfl⟩

/-- A branch that completes with an output does not fail before. -/
theorem Completes.exists_succeeds {a : α} (h : Completes f s m (.ok a) u) (n : ℕ) :
    ∃ t slot, Succeeds f s n t slot := by
  obtain ⟨t, slot, hfilled⟩ := exists_filled f s n
  refine ⟨t, slot, hfilled, fun result hresult => ?_⟩
  cases hresult
  obtain ⟨l, -, hcompletes⟩ := hfilled.completes
  obtain ⟨-, rfl, -⟩ := hcompletes.unique h
  rfl

theorem Succeeds.tryPollSlot_eq {a : α} (h : Succeeds f s n t slot)
    (hcompletes : Completes f s m (.ok a) u) (hle : m ≤ n) :
    tryPollSlot f t slot = .ok (u, some (.ok a)) := by
  rcases h.tried with ⟨e, v, -, hfails⟩ | ⟨v, slot', heq, hsucceeds⟩
  · obtain ⟨-, hne, -⟩ := hfails.unique hcompletes
    cases hne
  · obtain ⟨rfl, rfl⟩ := hsucceeds.filled.eq_some hcompletes (Nat.lt_succ_of_le hle)
    exact heq

/-- No poll of the first rounds returns an error. -/
def Unfailed (f : Future σ (Except ε α)) (s : σ) (n : ℕ) : Prop :=
  ∀ m < n, ∀ e u, ¬ Completes f s m (.error e) u

theorem unfailed_iff : Unfailed f s n ↔ ∃ t slot, Succeeds f s n t slot := by
  constructor
  · intro h
    obtain ⟨t, slot, hfilled⟩ := exists_filled f s n
    refine ⟨t, slot, hfilled, fun result hresult => ?_⟩
    cases hresult
    obtain ⟨m, hlt, hcompletes⟩ := hfilled.completes
    cases result with
    | error e => exact absurd hcompletes (h m hlt e t)
    | ok a => rfl
  · rintro ⟨t, slot, hfilled, hok⟩ m hlt e u hfails
    obtain ⟨-, rfl⟩ := hfilled.eq_some hfails hlt
    cases hok _ rfl

theorem Completes.unfailed {a : α} (h : Completes f s m (.ok a) u) (n : ℕ) : Unfailed f s n :=
  unfailed_iff.mpr (h.exists_succeeds n)

end Early

end Eddy.PolledFutures
