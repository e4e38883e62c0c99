import Eddy.PolledFutures

/-!
# Joined and selected futures

`Join2`, `TryJoin2` and `Select2` of `future/mod.rs`, the trees of them that `join!` and `try_join!`
build, and `Timeout` of `time/mod.rs`. Each of them completes in a round that is computed from the
rounds of its branches, and has polled each branch as often as its last state says.
-/

namespace Eddy.FutureCombinators
open PolledFutures

variable {σ τ υ α β γ ε : Type}

structure Join2 (σ τ α β : Type) where
  a : σ
  b : τ
  aOutput : Option α
  bOutput : Option β

namespace Join2

def new (a : σ) (b : τ) : Join2 σ τ α β := ⟨a, b, none, none⟩

def poll (pa : Future σ α) (pb : Future τ β) : Future (Join2 σ τ α β) (α × β) := fun s =>
  let (a, aOutput) := pollSlot pa s.a s.aOutput
  let (b, bOutput) := pollSlot pb s.b s.bOutput
  match aOutput, bOutput with
  | some x, some y => (.ready (x, y), ⟨a, b, none, none⟩)
  | aOutput, bOutput => (.pending, ⟨a, b, aOutput, bOutput⟩)

variable {pa : Future σ α} {pb : Future τ β} {s : σ} {t : τ} {u : Join2 σ τ α β} {k n : ℕ}

theorem poll_pending {a : σ} {b : τ} {aOutput : Option α} {bOutput : Option β}
    (ha : pollSlot pa u.a u.aOutput = (a, aOutput)) (hb : pollSlot pb u.b u.bOutput = (b, bOutput))
    (hmissing : aOutput = none ∨ bOutput = none) :
    poll pa pb u = (.pending, ⟨a, b, aOutput, bOutput⟩) := by
  rcases hmissing with rfl | rfl
  · simp [poll, ha, hb]
  · cases aOutput <;> simp [poll, ha, hb]

theorem poll_ready {a : σ} {b : τ} {x : α} {y : β} (ha : pollSlot pa u.a u.aOutput = (a, some x))
    (hb : pollSlot pb u.b u.bOutput = (b, some y)) :
    poll pa pb u = (.ready (x, y), ⟨a, b, none, none⟩) := by
  simp [poll, ha, hb]

/-- Each output is in its slot, and one of the slots is empty. -/
structure Waits (pa : Future σ α) (pb : Future τ β) (s : σ) (t : τ) (n : ℕ)
    (u : Join2 σ τ α β) : Prop where
  a : Filled pa s n u.a u.aOutput
  b : Filled pb t n u.b u.bOutput
  missing : u.aOutput = none ∨ u.bOutput = none

theorem pends_iff : Pends (poll pa pb) (new s t) n u ↔ Waits pa pb s t n u := by
  induction n generalizing u with
  | zero =>
    rw [pends_zero]
    constructor
    · rintro rfl
      exact ⟨filled_zero.mpr ⟨rfl, rfl⟩, filled_zero.mpr ⟨rfl, rfl⟩, .inl rfl⟩
    · rintro ⟨ha, hb, -⟩
      obtain ⟨ha, haOutput⟩ := filled_zero.mp ha
      obtain ⟨hb, hbOutput⟩ := filled_zero.mp hb
      cases u
      cases ha
      cases hb
      cases haOutput
      cases hbOutput
      rfl
  | succ n ih =>
    rw [pends_succ]
    constructor
    · rintro ⟨v, hv, hpoll⟩
      obtain ⟨ha, hb, -⟩ := ih.mp hv
      rcases hslotA : pollSlot pa v.a v.aOutput with ⟨a, aOutput⟩
      rcases hslotB : pollSlot pb v.b v.bOutput with ⟨b, bOutput⟩
      have hmissing : aOutput = none ∨ bOutput = none := by
        by_contra hboth
        rw [not_or] at hboth
        obtain ⟨x, rfl⟩ := Option.ne_none_iff_exists'.mp hboth.1
        obtain ⟨y, rfl⟩ := Option.ne_none_iff_exists'.mp hboth.2
        rw [poll_ready hslotA hslotB] at hpoll
        cases hpoll
      rw [poll_pending hslotA hslotB hmissing] at hpoll
      cases hpoll
      exact ⟨filled_succ.mpr ⟨_, _, ha, hslotA⟩, filled_succ.mpr ⟨_, _, hb, hslotB⟩, hmissing⟩
    · rintro ⟨ha, hb, hmissing⟩
      obtain ⟨a, aOutput, ha', hslotA⟩ := filled_succ.mp ha
      obtain ⟨b, bOutput, hb', hslotB⟩ := filled_succ.mp hb
      refine ⟨⟨a, b, aOutput, bOutput⟩, ih.mpr ⟨ha', hb', ?_⟩,
        poll_pending hslotA hslotB hmissing⟩
      refine hmissing.imp (fun hnone => ?_) fun hnone => ?_
      · exact eq_none_of_pollSlot (hnone ▸ hslotA)
      · exact eq_none_of_pollSlot (hnone ▸ hslotB)

/-- Both outputs in the round of the later one; neither future is polled after its output. -/
theorem completes_iff {x : α} {y : β} :
    Completes (poll pa pb) (new s t) k (x, y) u ↔ ∃ m n s' t', Completes pa s m x s' ∧
      Completes pb t n y t' ∧ k = max m n ∧ u = new s' t' := by
  rw [PolledFutures.completes_iff]
  constructor
  · rintro ⟨v, hv, hpoll⟩
    obtain ⟨ha, hb, hmissing⟩ := pends_iff.mp hv
    rcases hslotA : pollSlot pa v.a v.aOutput with ⟨a, aOutput⟩
    rcases hslotB : pollSlot pb v.b v.bOutput with ⟨b, bOutput⟩
    by_cases hboth : aOutput = none ∨ bOutput = none
    · rw [poll_pending hslotA hslotB hboth] at hpoll
      cases hpoll
    rw [not_or] at hboth
    obtain ⟨x, rfl⟩ := Option.ne_none_iff_exists'.mp hboth.1
    obtain ⟨y, rfl⟩ := Option.ne_none_iff_exists'.mp hboth.2
    rw [poll_ready hslotA hslotB] at hpoll
    cases hpoll
    obtain ⟨m, hm, hcompletesA⟩ := (filled_succ.mpr ⟨_, _, ha, hslotA⟩).completes
    obtain ⟨n, hn, hcompletesB⟩ := (filled_succ.mpr ⟨_, _, hb, hslotB⟩).completes
    refine ⟨m, n, a, b, hcompletesA, hcompletesB, ?_, rfl⟩
    rcases hmissing with hnone | hnone
    · have hle := hcompletesA.le_of_pends (hnone ▸ ha).pends
      omega
    · have hle := hcompletesB.le_of_pends (hnone ▸ hb).pends
      omega
  · rintro ⟨m, n, s', t', hcompletesA, hcompletesB, rfl, rfl⟩
    obtain ⟨a, aOutput, ha⟩ := exists_filled pa s (max m n)
    obtain ⟨b, bOutput, hb⟩ := exists_filled pb t (max m n)
    have hmissing : aOutput = none ∨ bOutput = none := by
      rcases Nat.le_total n m with hle | hle
      · exact .inl (ha.eq_none hcompletesA (by omega))
      · exact .inr (hb.eq_none hcompletesB (by omega))
    have hslotA : pollSlot pa a aOutput = (s', some x) :=
      ha.pollSlot_eq hcompletesA (le_max_left m n)
    have hslotB : pollSlot pb b bOutput = (t', some y) :=
      hb.pollSlot_eq hcompletesB (le_max_right m n)
    exact ⟨⟨a, b, aOutput, bOutput⟩, pends_iff.mpr ⟨ha, hb, hmissing⟩, poll_ready hslotA hslotB⟩

end Join2

section JoinMacro
variable {σ₁ σ₂ σ₃ σ₄ σ₅ σ₆ α₁ α₂ α₃ α₄ α₅ α₆ : Type}
  {p₁ : Future σ₁ α₁} {p₂ : Future σ₂ α₂} {p₃ : Future σ₃ α₃} {p₄ : Future σ₄ α₄}
  {p₅ : Future σ₅ α₅} {p₆ : Future σ₆ α₆}

abbrev Join3 (σ₁ σ₂ σ₃ α₁ α₂ α₃ : Type) := Join2 (Join2 σ₁ σ₂ α₁ α₂) σ₃ (α₁ × α₂) α₃

def join3 (p₁ : Future σ₁ α₁) (p₂ : Future σ₂ α₂) (p₃ : Future σ₃ α₃) :
    Future (Join3 σ₁ σ₂ σ₃ α₁ α₂ α₃) (α₁ × α₂ × α₃) :=
  (Join2.poll (Join2.poll p₁ p₂) p₃).map fun ((a, b), c) => (a, b, c)

abbrev Join3.new (s₁ : σ₁) (s₂ : σ₂) (s₃ : σ₃) : Join3 σ₁ σ₂ σ₃ α₁ α₂ α₃ :=
  Join2.new (Join2.new s₁ s₂) s₃

def join6 (p₁ : Future σ₁ α₁) (p₂ : Future σ₂ α₂) (p₃ : Future σ₃ α₃) (p₄ : Future σ₄ α₄)
    (p₅ : Future σ₅ α₅) (p₆ : Future σ₆ α₆) :
    Future (Join2 (Join3 σ₁ σ₂ σ₃ α₁ α₂ α₃) (Join3 σ₄ σ₅ σ₆ α₄ α₅ α₆) (α₁ × α₂ × α₃)
      (α₄ × α₅ × α₆)) (α₁ × α₂ × α₃ × α₄ × α₅ × α₆) :=
  (Join2.poll (join3 p₁ p₂ p₃) (join3 p₄ p₅ p₆)).map fun ((a, b, c), (d, e, f)) =>
    (a, b, c, d, e, f)

variable {s₁ : σ₁} {s₂ : σ₂} {s₃ : σ₃} {s₄ : σ₄} {s₅ : σ₅} {s₆ : σ₆} {k : ℕ}

theorem join3_completes {x : α₁} {y : α₂} {z : α₃} {u : Join3 σ₁ σ₂ σ₃ α₁ α₂ α₃} :
    Completes (join3 p₁ p₂ p₃) (Join3.new s₁ s₂ s₃) k (x, y, z) u ↔ ∃ l m n t₁ t₂ t₃,
      Completes p₁ s₁ l x t₁ ∧ Completes p₂ s₂ m y t₂ ∧ Completes p₃ s₃ n z t₃ ∧
      k = max (max l m) n ∧ u = Join3.new t₁ t₂ t₃ := by
  rw [join3, completes_map]
  constructor
  · rintro ⟨⟨⟨x', y'⟩, z'⟩, hcompletes, heq⟩
    cases heq
    obtain ⟨i, n, v, t₃, hinner, h₃, rfl, rfl⟩ := Join2.completes_iff.mp hcompletes
    obtain ⟨l, m, t₁, t₂, h₁, h₂, rfl, rfl⟩ := Join2.completes_iff.mp hinner
    exact ⟨l, m, n, t₁, t₂, t₃, h₁, h₂, h₃, rfl, rfl⟩
  · rintro ⟨l, m, n, t₁, t₂, t₃, h₁, h₂, h₃, rfl, rfl⟩
    have hinner := Join2.completes_iff.mpr ⟨l, m, t₁, t₂, h₁, h₂, rfl, rfl⟩
    exact ⟨((x, y), z), Join2.completes_iff.mpr ⟨_, n, _, t₃, hinner, h₃, rfl, rfl⟩, rfl⟩

/-- The greatest of the rounds. -/
def latest (rounds : List ℕ) : ℕ := rounds.foldr max 0

/-- `join!` of six futures completes in the round of the last of them, with their outputs in order;
each was polled until it had its output and not again. -/
theorem join6_completes {x₁ : α₁} {x₂ : α₂} {x₃ : α₃} {x₄ : α₄} {x₅ : α₅} {x₆ : α₆}
    {u : Join2 (Join3 σ₁ σ₂ σ₃ α₁ α₂ α₃) (Join3 σ₄ σ₅ σ₆ α₄ α₅ α₆) (α₁ × α₂ × α₃)
      (α₄ × α₅ × α₆)} :
    Completes (join6 p₁ p₂ p₃ p₄ p₅ p₆) (.new (Join3.new s₁ s₂ s₃) (Join3.new s₄ s₅ s₆)) k
        (x₁, x₂, x₃, x₄, x₅, x₆) u ↔
      ∃ n₁ n₂ n₃ n₄ n₅ n₆ t₁ t₂ t₃ t₄ t₅ t₆,
        Completes p₁ s₁ n₁ x₁ t₁ ∧ Completes p₂ s₂ n₂ x₂ t₂ ∧ Completes p₃ s₃ n₃ x₃ t₃ ∧
        Completes p₄ s₄ n₄ x₄ t₄ ∧ Completes p₅ s₅ n₅ x₅ t₅ ∧ Completes p₆ s₆ n₆ x₆ t₆ ∧
        k = latest [n₁, n₂, n₃, n₄, n₅, n₆] ∧
        u = .new (Join3.new t₁ t₂ t₃) (Join3.new t₄ t₅ t₆) := by
  rw [join6, completes_map]
  constructor
  · rintro ⟨⟨⟨y₁, y₂, y₃⟩, ⟨y₄, y₅, y₆⟩⟩, hcompletes, heq⟩
    cases heq
    obtain ⟨m, n, v, w, hv, hw, rfl, rfl⟩ := Join2.completes_iff.mp hcompletes
    obtain ⟨n₁, n₂, n₃, t₁, t₂, t₃, h₁, h₂, h₃, rfl, rfl⟩ := join3_completes.mp hv
    obtain ⟨n₄, n₅, n₆, t₄, t₅, t₆, h₄, h₅, h₆, rfl, rfl⟩ := join3_completes.mp hw
    refine ⟨n₁, n₂, n₃, n₄, n₅, n₆, t₁, t₂, t₃, t₄, t₅, t₆, h₁, h₂, h₃, h₄, h₅, h₆, ?_, rfl⟩
    simp [latest, max_assoc]
  · rintro ⟨n₁, n₂, n₃, n₄, n₅, n₆, t₁, t₂, t₃, t₄, t₅, t₆, h₁, h₂, h₃, h₄, h₅, h₆, rfl, rfl⟩
    have hv := join3_completes.mpr ⟨n₁, n₂, n₃, t₁, t₂, t₃, h₁, h₂, h₃, rfl, rfl⟩
    have hw := join3_completes.mpr ⟨n₄, n₅, n₆, t₄, t₅, t₆, h₄, h₅, h₆, rfl, rfl⟩
    refine ⟨((x₁, x₂, x₃), (x₄, x₅, x₆)),
      Join2.completes_iff.mpr ⟨_, _, _, _, hv, hw, ?_, rfl⟩, rfl⟩
    simp [latest, max_assoc]

end JoinMacro

structure TryJoin2 (σ τ α β ε : Type) where
  a : σ
  b : τ
  aOutput : Option (Except ε α)
  bOutput : Option (Except ε β)

namespace TryJoin2

def new (a : σ) (b : τ) : TryJoin2 σ τ α β ε := ⟨a, b, none, none⟩

def poll (pa : Future σ (Except ε α)) (pb : Future τ (Except ε β)) :
    Future (TryJoin2 σ τ α β ε) (Except ε (α × β)) := fun s =>
  match tryPollSlot pa s.a s.aOutput with
  | .error (e, a) => (.ready (.error e), { s with a })
  | .ok (a, aOutput) =>
    match tryPollSlot pb s.b s.bOutput with
    | .error (e, b) => (.ready (.error e), { s with a, aOutput, b })
    | .ok (b, bOutput) =>
      match aOutput, bOutput with
      | some (.ok x), some (.ok y) => (.ready (.ok (x, y)), ⟨a, b, none, none⟩)
      | aOutput, bOutput => (.pending, ⟨a, b, aOutput, bOutput⟩)

variable {pa : Future σ (Except ε α)} {pb : Future τ (Except ε β)} {s : σ} {t : τ}
  {u : TryJoin2 σ τ α β ε} {k n : ℕ}

section Poll
variable {a : σ} {b : τ} {aOutput : Option (Except ε α)} {bOutput : Option (Except ε β)} {e : ε}

theorem poll_first (ha : tryPollSlot pa u.a u.aOutput = .error (e, a)) :
    poll pa pb u = (.ready (.error e), { u with a }) := by
  simp [poll, ha]

theorem poll_second (ha : tryPollSlot pa u.a u.aOutput = .ok (a, aOutput))
    (hb : tryPollSlot pb u.b u.bOutput = .error (e, b)) :
    poll pa pb u = (.ready (.error e), { u with a, aOutput, b }) := by
  simp [poll, ha, hb]

theorem poll_both {x : α} {y : β} (ha : tryPollSlot pa u.a u.aOutput = .ok (a, some (.ok x)))
    (hb : tryPollSlot pb u.b u.bOutput = .ok (b, some (.ok y))) :
    poll pa pb u = (.ready (.ok (x, y)), ⟨a, b, none, none⟩) := by
  simp [poll, ha, hb]

theorem poll_missing (ha : tryPollSlot pa u.a u.aOutput = .ok (a, aOutput))
    (hb : tryPollSlot pb u.b u.bOutput = .ok (b, bOutput))
    (hmissing : aOutput = none ∨ bOutput = none) :
    poll pa pb u = (.pending, ⟨a, b, aOutput, bOutput⟩) := by
  rcases hmissing with rfl | rfl
  · simp [poll, ha, hb]
  · rcases aOutput with _ | _ | _ <;> simp [poll, ha, hb]

end Poll

/-- Neither has failed, and one of the slots is empty. -/
structure Waits (pa : Future σ (Except ε α)) (pb : Future τ (Except ε β)) (s : σ) (t : τ) (n : ℕ)
    (u : TryJoin2 σ τ α β ε) : Prop where
  a : Succeeds pa s n u.a u.aOutput
  b : Succeeds pb t n u.b u.bOutput
  missing : u.aOutput = none ∨ u.bOutput = none

theorem pends_iff : Pends (poll pa pb) (new s t) n u ↔ Waits pa pb s t n u := by
  induction n generalizing u with
  | zero =>
    rw [pends_zero]
    constructor
    · rintro rfl
      exact ⟨succeeds_zero.mpr ⟨rfl, rfl⟩, succeeds_zero.mpr ⟨rfl, rfl⟩, .inl rfl⟩
    · rintro ⟨ha, hb, -⟩
      obtain ⟨ha, haOutput⟩ := succeeds_zero.mp ha
      obtain ⟨hb, hbOutput⟩ := succeeds_zero.mp hb
      cases u
      cases ha
      cases hb
      cases haOutput
      cases hbOutput
      rfl
  | succ n ih =>
    rw [pends_succ]
    constructor
    · rintro ⟨v, hv, hpoll⟩
      obtain ⟨ha, hb, -⟩ := ih.mp hv
      rcases ha.tried with ⟨e, a, ha, -⟩ | ⟨a, aOutput, ha, hnextA⟩
      · rw [poll_first ha] at hpoll
        cases hpoll
      rcases hb.tried with ⟨e, b, hb, -⟩ | ⟨b, bOutput, hb, hnextB⟩
      · rw [poll_second ha hb] at hpoll
        cases hpoll
      by_cases hmissing : aOutput = none ∨ bOutput = none
      · rw [poll_missing ha hb hmissing] at hpoll
        cases hpoll
        exact ⟨hnextA, hnextB, hmissing⟩
      · rw [not_or] at hmissing
        obtain ⟨x, rfl⟩ := hnextA.exists_ok hmissing.1
        obtain ⟨y, rfl⟩ := hnextB.exists_ok hmissing.2
        rw [poll_both ha hb] at hpoll
        cases hpoll
    · rintro ⟨ha, hb, hmissing⟩
      obtain ⟨a, aOutput, ha', hslotA⟩ := succeeds_succ.mp ha
      obtain ⟨b, bOutput, hb', hslotB⟩ := succeeds_succ.mp hb
      refine ⟨⟨a, b, aOutput, bOutput⟩, ih.mpr ⟨ha', hb', ?_⟩,
        poll_missing hslotA hslotB hmissing⟩
      refine hmissing.imp (fun hnone => ?_) fun hnone => ?_
      · exact eq_none_of_tryPollSlot (hnone ▸ hslotA)
      · exact eq_none_of_tryPollSlot (hnone ▸ hslotB)

/-- The first error, that of `a` when both fail in one round, or both outputs. A branch is not
polled after its output, and `b` is not polled in the round in which `a` fails. -/
inductive Joins (pa : Future σ (Except ε α)) (pb : Future τ (Except ε β)) (s : σ) (t : τ) :
    ℕ → Except ε (α × β) → TryJoin2 σ τ α β ε → Prop where
  | first {k e a b bOutput} (fails : Completes pa s k (.error e) a)
      (others : Succeeds pb t k b bOutput) : Joins pa pb s t k (.error e) ⟨a, b, none, bOutput⟩
  | second {k e a aOutput b} (others : Succeeds pa s (k + 1) a aOutput)
      (fails : Completes pb t k (.error e) b) : Joins pa pb s t k (.error e) ⟨a, b, aOutput, none⟩
  | both {m n x y a b} (first : Completes pa s m (.ok x) a) (second : Completes pb t n (.ok y) b) :
      Joins pa pb s t (max m n) (.ok (x, y)) (new a b)

theorem completes_iff {r : Except ε (α × β)} :
    Completes (poll pa pb) (new s t) k r u ↔ Joins pa pb s t k r u := by
  rw [PolledFutures.completes_iff]
  constructor
  · rintro ⟨⟨v, w, vOutput, wOutput⟩, hv, hpoll⟩
    obtain ⟨ha, hb, hmissing⟩ := pends_iff.mp hv
    rcases ha.tried with ⟨e, a, hslotA, hfails⟩ | ⟨a, aOutput, hslotA, hnextA⟩
    · rw [poll_first hslotA] at hpoll
      cases hpoll
      obtain rfl := eq_none_of_tryPollSlot_error hslotA
      exact .first hfails hb
    rcases hb.tried with ⟨e, b, hslotB, hfails⟩ | ⟨b, bOutput, hslotB, hnextB⟩
    · rw [poll_second hslotA hslotB] at hpoll
      cases hpoll
      obtain rfl := eq_none_of_tryPollSlot_error hslotB
      exact .second hnextA hfails
    by_cases hempty : aOutput = none ∨ bOutput = none
    · rw [poll_missing hslotA hslotB hempty] at hpoll
      cases hpoll
    rw [not_or] at hempty
    obtain ⟨x, rfl⟩ := hnextA.exists_ok hempty.1
    obtain ⟨y, rfl⟩ := hnextB.exists_ok hempty.2
    rw [poll_both hslotA hslotB] at hpoll
    cases hpoll
    obtain ⟨m, hm, hcompletesA⟩ := hnextA.filled.completes
    obtain ⟨n, hn, hcompletesB⟩ := hnextB.filled.completes
    have hmax : k = max m n := by
      rcases hmissing with rfl | rfl
      · have hle := hcompletesA.le_of_pends ha.filled.pends
        omega
      · have hle := hcompletesB.le_of_pends hb.filled.pends
        omega
    rw [hmax]
    exact .both hcompletesA hcompletesB
  · intro h
    cases h with
    | first hfails hothers =>
      obtain ⟨a, aOutput, ha, hslotA⟩ := completes_error.mp hfails
      obtain rfl := eq_none_of_tryPollSlot_error hslotA
      exact ⟨⟨a, _, none, _⟩, pends_iff.mpr ⟨ha, hothers, .inl rfl⟩, poll_first hslotA⟩
    | second hothers hfails =>
      obtain ⟨a, aOutput, ha, hslotA⟩ := succeeds_succ.mp hothers
      obtain ⟨b, bOutput, hb, hslotB⟩ := completes_error.mp hfails
      obtain rfl := eq_none_of_tryPollSlot_error hslotB
      exact ⟨⟨a, b, aOutput, none⟩, pends_iff.mpr ⟨ha, hb, .inr rfl⟩, poll_second hslotA hslotB⟩
    | @both m n x y a b hcompletesA hcompletesB =>
      obtain ⟨v, vOutput, ha⟩ := hcompletesA.exists_succeeds (max m n)
      obtain ⟨w, wOutput, hb⟩ := hcompletesB.exists_succeeds (max m n)
      have hmissing : vOutput = none ∨ wOutput = none := by
        rcases Nat.le_total n m with hle | hle
        · exact .inl (ha.filled.eq_none hcompletesA (by omega))
        · exact .inr (hb.filled.eq_none hcompletesB (by omega))
      exact ⟨⟨v, w, vOutput, wOutput⟩, pends_iff.mpr ⟨ha, hb, hmissing⟩,
        poll_both (ha.tryPollSlot_eq hcompletesA (le_max_left m n))
          (hb.tryPollSlot_eq hcompletesB (le_max_right m n))⟩

/-- The whole fails no earlier than its branches. -/
theorem unfailed_iff :
    Unfailed (poll pa pb) (new s t) n ↔ Unfailed pa s n ∧ Unfailed pb t n := by
  constructor
  · intro h
    rcases pends_or_completes (poll pa pb) (new s t) n with ⟨u, hu⟩ | ⟨m, hm, r, u, hcompletes⟩
    · obtain ⟨ha, hb, -⟩ := pends_iff.mp hu
      exact ⟨PolledFutures.unfailed_iff.mpr ⟨_, _, ha⟩, PolledFutures.unfailed_iff.mpr ⟨_, _, hb⟩⟩
    · cases r with
      | error e => exact absurd hcompletes (h m hm e u)
      | ok output =>
        cases completes_iff.mp hcompletes with
        | both ha hb => exact ⟨ha.unfailed n, hb.unfailed n⟩
  · rintro ⟨ha, hb⟩ m hm e u hcompletes
    cases completes_iff.mp hcompletes with
    | first fails => exact ha m hm e _ fails
    | second _ fails => exact hb m hm e _ fails

/-- An error of the whole is the first error of a branch, `a` being polled before `b`. -/
theorem fails_iff {e : ε} : (∃ u, Completes (poll pa pb) (new s t) k (.error e) u) ↔
    ((∃ a, Completes pa s k (.error e) a) ∧ Unfailed pb t k) ∨
      (Unfailed pa s (k + 1) ∧ ∃ b, Completes pb t k (.error e) b) := by
  constructor
  · rintro ⟨u, hcompletes⟩
    cases completes_iff.mp hcompletes with
    | first fails others =>
      exact .inl ⟨⟨_, fails⟩, PolledFutures.unfailed_iff.mpr ⟨_, _, others⟩⟩
    | second others fails =>
      exact .inr ⟨PolledFutures.unfailed_iff.mpr ⟨_, _, others⟩, _, fails⟩
  · rintro (⟨⟨a, fails⟩, others⟩ | ⟨others, b, fails⟩)
    · obtain ⟨b, bOutput, others⟩ := PolledFutures.unfailed_iff.mp others
      exact ⟨_, completes_iff.mpr (.first fails others)⟩
    · obtain ⟨a, aOutput, others⟩ := PolledFutures.unfailed_iff.mp others
      exact ⟨_, completes_iff.mpr (.second others fails)⟩

end TryJoin2

section TryJoinMacro
variable {σ₁ σ₂ σ₃ σ₄ α₁ α₂ α₃ α₄ : Type} {p₁ : Future σ₁ (Except ε α₁)}
  {p₂ : Future σ₂ (Except ε α₂)} {p₃ : Future σ₃ (Except ε α₃)} {p₄ : Future σ₄ (Except ε α₄)}

def tryJoin4 (p₁ : Future σ₁ (Except ε α₁)) (p₂ : Future σ₂ (Except ε α₂))
    (p₃ : Future σ₃ (Except ε α₃)) (p₄ : Future σ₄ (Except ε α₄)) :
    Future (TryJoin2 (TryJoin2 σ₁ σ₂ α₁ α₂ ε) (TryJoin2 σ₃ σ₄ α₃ α₄ ε) (α₁ × α₂) (α₃ × α₄) ε)
      (Except ε (α₁ × α₂ × α₃ × α₄)) :=
  (TryJoin2.poll (TryJoin2.poll p₁ p₂) (TryJoin2.poll p₃ p₄)).map fun
    | .ok ((a, b), (c, d)) => .ok (a, b, c, d)
    | .error e => .error e

variable {s₁ : σ₁} {s₂ : σ₂} {s₃ : σ₃} {s₄ : σ₄} {k : ℕ}

/-- The first error in the order of rounds, and of branches within a round, or all the outputs in
the round of the last one. -/
inductive TryJoins (p₁ : Future σ₁ (Except ε α₁)) (p₂ : Future σ₂ (Except ε α₂))
    (p₃ : Future σ₃ (Except ε α₃)) (p₄ : Future σ₄ (Except ε α₄)) (s₁ : σ₁) (s₂ : σ₂) (s₃ : σ₃)
    (s₄ : σ₄) : ℕ → Except ε (α₁ × α₂ × α₃ × α₄) → Prop where
  | first {k e t} (fails : Completes p₁ s₁ k (.error e) t) (second : Unfailed p₂ s₂ k)
      (third : Unfailed p₃ s₃ k) (fourth : Unfailed p₄ s₄ k) :
      TryJoins p₁ p₂ p₃ p₄ s₁ s₂ s₃ s₄ k (.error e)
  | second {k e t} (first : Unfailed p₁ s₁ (k + 1)) (fails : Completes p₂ s₂ k (.error e) t)
      (third : Unfailed p₃ s₃ k) (fourth : Unfailed p₄ s₄ k) :
      TryJoins p₁ p₂ p₃ p₄ s₁ s₂ s₃ s₄ k (.error e)
  | third {k e t} (first : Unfailed p₁ s₁ (k + 1)) (second : Unfailed p₂ s₂ (k + 1))
      (fails : Completes p₃ s₃ k (.error e) t) (fourth : Unfailed p₄ s₄ k) :
      TryJoins p₁ p₂ p₃ p₄ s₁ s₂ s₃ s₄ k (.error e)
  | fourth {k e t} (first : Unfailed p₁ s₁ (k + 1)) (second : Unfailed p₂ s₂ (k + 1))
      (third : Unfailed p₃ s₃ (k + 1)) (fails : Completes p₄ s₄ k (.error e) t) :
      TryJoins p₁ p₂ p₃ p₄ s₁ s₂ s₃ s₄ k (.error e)
  | all {n₁ n₂ n₃ n₄ x₁ x₂ x₃ x₄ t₁ t₂ t₃ t₄} (first : Completes p₁ s₁ n₁ (.ok x₁) t₁)
      (second : Completes p₂ s₂ n₂ (.ok x₂) t₂) (third : Completes p₃ s₃ n₃ (.ok x₃) t₃)
      (fourth : Completes p₄ s₄ n₄ (.ok x₄) t₄) :
      TryJoins p₁ p₂ p₃ p₄ s₁ s₂ s₃ s₄ (latest [n₁, n₂, n₃, n₄]) (.ok (x₁, x₂, x₃, x₄))

theorem tryJoin4_fails {e : ε} :
    (∃ u, Completes (tryJoin4 p₁ p₂ p₃ p₄) (.new (.new s₁ s₂) (.new s₃ s₄)) k (.error e) u) ↔
      TryJoins p₁ p₂ p₃ p₄ s₁ s₂ s₃ s₄ k (.error e) := by
  have houter : (∃ u, Completes (tryJoin4 p₁ p₂ p₃ p₄) (.new (.new s₁ s₂) (.new s₃ s₄)) k
      (.error e) u) ↔ ∃ u, Completes (TryJoin2.poll (TryJoin2.poll p₁ p₂) (TryJoin2.poll p₃ p₄))
        (.new (.new s₁ s₂) (.new s₃ s₄)) k (.error e) u := by
    refine exists_congr fun u => ?_
    rw [tryJoin4, completes_map]
    constructor
    · rintro ⟨_ | output, hcompletes, heq⟩
      · cases heq
        exact hcompletes
      · cases heq
    · intro hcompletes
      exact ⟨_, hcompletes, rfl⟩
  rw [houter, TryJoin2.fails_iff, TryJoin2.fails_iff, TryJoin2.fails_iff, TryJoin2.unfailed_iff,
    TryJoin2.unfailed_iff]
  constructor
  · rintro (⟨⟨⟨t, fails⟩, second⟩ | ⟨first, t, fails⟩, third, fourth⟩ |
      ⟨⟨first, second⟩, ⟨⟨t, fails⟩, fourth⟩ | ⟨third, t, fails⟩⟩)
    · exact .first fails second third fourth
    · exact .second first fails third fourth
    · exact .third first second fails fourth
    · exact .fourth first second third fails
  · intro h
    cases h with
    | first fails second third fourth => exact .inl ⟨.inl ⟨⟨_, fails⟩, second⟩, third, fourth⟩
    | second first fails third fourth => exact .inl ⟨.inr ⟨first, _, fails⟩, third, fourth⟩
    | third first second fails fourth => exact .inr ⟨⟨first, second⟩, .inl ⟨⟨_, fails⟩, fourth⟩⟩
    | fourth first second third fails => exact .inr ⟨⟨first, second⟩, .inr ⟨third, _, fails⟩⟩

theorem tryJoin4_completes {r : Except ε (α₁ × α₂ × α₃ × α₄)} :
    (∃ u, Completes (tryJoin4 p₁ p₂ p₃ p₄) (.new (.new s₁ s₂) (.new s₃ s₄)) k r u) ↔
      TryJoins p₁ p₂ p₃ p₄ s₁ s₂ s₃ s₄ k r := by
  cases r with
  | error e => exact tryJoin4_fails
  | ok output =>
    constructor
    · rintro ⟨u, hcompletes⟩
      obtain ⟨e | ⟨⟨x₁, x₂⟩, ⟨x₃, x₄⟩⟩, hinner, heq⟩ := completes_map.mp hcompletes
      · cases heq
      cases heq
      cases TryJoin2.completes_iff.mp hinner with
      | @both m n _ _ _ _ hleft hright =>
        cases TryJoin2.completes_iff.mp hleft with
        | @both n₁ n₂ _ _ _ _ first second =>
          cases TryJoin2.completes_iff.mp hright with
          | @both n₃ n₄ _ _ _ _ third fourth =>
            have hlatest : max (max n₁ n₂) (max n₃ n₄) = latest [n₁, n₂, n₃, n₄] := by
              simp [latest, max_assoc]
            rw [hlatest]
            exact .all first second third fourth
    · intro h
      cases h with
      | @all n₁ n₂ n₃ n₄ _ _ _ _ _ _ _ _ first second third fourth =>
        have hleft := TryJoin2.completes_iff.mpr (.both first second)
        have hright := TryJoin2.completes_iff.mpr (.both third fourth)
        have hlatest : max (max n₁ n₂) (max n₃ n₄) = latest [n₁, n₂, n₃, n₄] := by
          simp [latest, max_assoc]
        rw [← hlatest]
        exact ⟨_, completes_map.mpr ⟨_, TryJoin2.completes_iff.mpr (.both hleft hright), rfl⟩⟩

end TryJoinMacro

inductive Either (α β : Type) where
  | left (a : α)
  | right (b : β)

/-- `select2` randomizes, and starts with `next_select_turn()`; `select2_biased` does not. -/
structure Select2 (σ τ : Type) where
  a : σ
  b : τ
  firstA : Bool
  randomize : Bool

namespace Select2

def poll (pa : Future σ α) (pb : Future τ β) : Future (Select2 σ τ) (Either α β) := fun s =>
  let firstA := if s.randomize then s.firstA else true
  let s := { s with firstA := if s.randomize then !s.firstA else s.firstA }
  if firstA then
    match pa s.a with
    | (.ready x, a) => (.ready (.left x), { s with a })
    | (.pending, a) =>
      match pb s.b with
      | (.ready y, b) => (.ready (.right y), { s with a, b })
      | (.pending, b) => (.pending, { s with a, b })
  else
    match pb s.b with
    | (.ready y, b) => (.ready (.right y), { s with b })
    | (.pending, b) =>
      match pa s.a with
      | (.ready x, a) => (.ready (.left x), { s with a, b })
      | (.pending, a) => (.pending, { s with a, b })

variable {pa : Future σ α} {pb : Future τ β} {s u : Select2 σ τ} {k n : ℕ}

/-- The flag before a round. -/
def turn (s : Select2 σ τ) (n : ℕ) : Bool := if s.randomize then not^[n] s.firstA else s.firstA

/-- Whether `a` is polled before `b` in a round. -/
def first (s : Select2 σ τ) (n : ℕ) : Bool := if s.randomize then s.turn n else true

/-- The state with these branches before a round. -/
def before (s : Select2 σ τ) (n : ℕ) (a : σ) (b : τ) : Select2 σ τ :=
  { s with a, b, firstA := s.turn n }

theorem turn_succ (s : Select2 σ τ) (n : ℕ) :
    s.turn (n + 1) = if s.randomize then !s.turn n else s.turn n := by
  cases h : s.randomize with
  | false => simp [turn, h]
  | true => simp [turn, h, Function.iterate_succ_apply']

section Poll
variable {a a' : σ} {b b' : τ} {x : α} {y : β}

theorem poll_pending (ha : pa a = (.pending, a')) (hb : pb b = (.pending, b')) :
    poll pa pb (s.before n a b) = (.pending, s.before (n + 1) a' b') := by
  cases hrandomize : s.randomize with
  | false => simp [poll, before, hrandomize, turn_succ, ha, hb]
  | true => cases hturn : s.turn n <;> simp [poll, before, hrandomize, turn_succ, hturn, ha, hb]

/-- `a` is ready, and `b` is polled only if it comes first. -/
theorem poll_left (ha : pa a = (.ready x, a')) (hb : s.first n = false → pb b = (.pending, b'))
    (hkept : s.first n = true → b' = b) :
    poll pa pb (s.before n a b) = (.ready (.left x), s.before (n + 1) a' b') := by
  cases hrandomize : s.randomize with
  | false =>
    obtain rfl := hkept (by simp [first, hrandomize])
    simp [poll, before, hrandomize, turn_succ, ha]
  | true =>
    cases hturn : s.turn n with
    | false =>
      have hb := hb (by simp [first, hrandomize, hturn])
      simp [poll, before, hrandomize, turn_succ, hturn, ha, hb]
    | true =>
      obtain rfl := hkept (by simp [first, hrandomize, hturn])
      simp [poll, before, hrandomize, turn_succ, hturn, ha]

theorem poll_right (hb : pb b = (.ready y, b')) (ha : s.first n = true → pa a = (.pending, a'))
    (hkept : s.first n = false → a' = a) :
    poll pa pb (s.before n a b) = (.ready (.right y), s.before (n + 1) a' b') := by
  cases hrandomize : s.randomize with
  | false =>
    have ha := ha (by simp [first, hrandomize])
    simp [poll, before, hrandomize, turn_succ, ha, hb]
  | true =>
    cases hturn : s.turn n with
    | false =>
      obtain rfl := hkept (by simp [first, hrandomize, hturn])
      simp [poll, before, hrandomize, turn_succ, hturn, hb]
    | true =>
      have ha := ha (by simp [first, hrandomize, hturn])
      simp [poll, before, hrandomize, turn_succ, hturn, ha, hb]

theorem poll_cases (pa : Future σ α) (pb : Future τ β) (s : Select2 σ τ) (n : ℕ) (a : σ) (b : τ) :
    (∃ a' b', pa a = (.pending, a') ∧ pb b = (.pending, b')) ∨
      (∃ x a' b', pa a = (.ready x, a') ∧ (s.first n = false → pb b = (.pending, b')) ∧
        (s.first n = true → b' = b)) ∨
      ∃ y a' b', pb b = (.ready y, b') ∧ (s.first n = true → pa a = (.pending, a')) ∧
        (s.first n = false → a' = a) := by
  rcases ha : pa a with ⟨_ | x, a'⟩
  · rcases hb : pb b with ⟨_ | y, b'⟩
    · exact .inl ⟨a', b', rfl, rfl⟩
    · right
      right
      cases s.first n with
      | true => exact ⟨y, a', b', rfl, fun _ => rfl, fun h => absurd h (by decide)⟩
      | false => exact ⟨y, a, b', rfl, fun h => absurd h (by decide), fun _ => rfl⟩
  · rcases hb : pb b with ⟨_ | y, b'⟩
    · right
      left
      cases s.first n with
      | true => exact ⟨x, a', b, rfl, fun h => absurd h (by decide), fun _ => rfl⟩
      | false => exact ⟨x, a', b', rfl, fun _ => rfl, fun h => absurd h (by decide)⟩
    · right
      cases s.first n with
      | true => exact .inl ⟨x, a', b, rfl, fun h => absurd h (by decide), fun _ => rfl⟩
      | false => exact .inr ⟨y, a, b', rfl, fun h => absurd h (by decide), fun _ => rfl⟩

end Poll

/-- A branch that is polled before the other one is polled once more. -/
def polls (k : ℕ) (before : Bool) : ℕ := if before then k + 1 else k

theorem pends_polls {f : Future σ α} {a c : σ} {before : Bool} :
    Pends f a (polls k before) c ↔ ∃ b, Pends f a k b ∧ (before = true → f b = (.pending, c)) ∧
      (before = false → c = b) := by
  cases before with
  | true =>
    rw [polls, if_pos rfl, pends_succ]
    simp
  | false => simp [polls]

/-- The branch that is ready first, and in a round in which both are ready the one whose turn it
is; the other one was pending whenever it was polled. -/
inductive Selects (pa : Future σ α) (pb : Future τ β) (s : Select2 σ τ) (k : ℕ) :
    Either α β → Select2 σ τ → Prop where
  | left {x a b} (ready : Completes pa s.a k x a) (pends : Pends pb s.b (polls k !s.first k) b) :
      Selects pa pb s k (.left x) (s.before (k + 1) a b)
  | right {y a b} (pends : Pends pa s.a (polls k (s.first k)) a) (ready : Completes pb s.b k y b) :
      Selects pa pb s k (.right y) (s.before (k + 1) a b)

theorem pends_iff : Pends (poll pa pb) s n u ↔
    ∃ a b, Pends pa s.a n a ∧ Pends pb s.b n b ∧ u = s.before n a b := by
  induction n generalizing u with
  | zero =>
    have hstart : s.before 0 s.a s.b = s := by simp [before, turn]
    rw [pends_zero]
    constructor
    · rintro rfl
      exact ⟨u.a, u.b, .start, .start, hstart.symm⟩
    · rintro ⟨a, b, ha, hb, rfl⟩
      cases pends_zero.mp ha
      cases pends_zero.mp hb
      exact hstart
  | succ n ih =>
    rw [pends_succ]
    constructor
    · rintro ⟨v, hv, hpoll⟩
      obtain ⟨a, b, ha, hb, rfl⟩ := ih.mp hv
      rcases poll_cases pa pb s n a b with ⟨a', b', hpollA, hpollB⟩ |
        ⟨x, a', b', hpollA, hpollB, hb'⟩ |
        ⟨y, a', b', hpollB, hpollA, ha'⟩
      · rw [poll_pending hpollA hpollB] at hpoll
        cases hpoll
        exact ⟨a', b', .next ha hpollA, .next hb hpollB, rfl⟩
      · rw [poll_left hpollA hpollB hb'] at hpoll
        cases hpoll
      · rw [poll_right hpollB hpollA ha'] at hpoll
        cases hpoll
    · rintro ⟨a', b', ha, hb, rfl⟩
      obtain ⟨a, ha, hpollA⟩ := pends_succ.mp ha
      obtain ⟨b, hb, hpollB⟩ := pends_succ.mp hb
      exact ⟨s.before n a b, ih.mpr ⟨a, b, ha, hb, rfl⟩, poll_pending hpollA hpollB⟩

theorem completes_iff_selects {r : Either α β} :
    Completes (poll pa pb) s k r u ↔ Selects pa pb s k r u := by
  rw [PolledFutures.completes_iff]
  constructor
  · rintro ⟨v, hv, hpoll⟩
    obtain ⟨a, b, ha, hb, rfl⟩ := pends_iff.mp hv
    rcases poll_cases pa pb s k a b with ⟨a', b', hpollA, hpollB⟩ |
      ⟨x, a', b', hpollA, hpollB, hb'⟩ |
      ⟨y, a', b', hpollB, hpollA, ha'⟩
    · rw [poll_pending hpollA hpollB] at hpoll
      cases hpoll
    · rw [poll_left hpollA hpollB hb'] at hpoll
      cases hpoll
      refine .left ⟨ha, hpollA⟩ (pends_polls.mpr ⟨b, hb, ?_, ?_⟩)
      · simpa using hpollB
      · simpa using hb'
    · rw [poll_right hpollB hpollA ha'] at hpoll
      cases hpoll
      exact .right (pends_polls.mpr ⟨a, ha, hpollA, ha'⟩) ⟨hb, hpollB⟩
  · intro h
    cases h with
    | left ready pends =>
      obtain ⟨a, ha, hpollA⟩ := PolledFutures.completes_iff.mp ready
      obtain ⟨b, hb, hpollB, hkept⟩ := pends_polls.mp pends
      exact ⟨s.before k a b, pends_iff.mpr ⟨a, b, ha, hb, rfl⟩,
        poll_left hpollA (by simpa using hpollB) (by simpa using hkept)⟩
    | right pends ready =>
      obtain ⟨b, hb, hpollB⟩ := PolledFutures.completes_iff.mp ready
      obtain ⟨a, ha, hpollA, hkept⟩ := pends_polls.mp pends
      exact ⟨s.before k a b, pends_iff.mpr ⟨a, b, ha, hb, rfl⟩, poll_right hpollB hpollA hkept⟩

end Select2

/-- `Elapsed` of `time/mod.rs` -/
inductive Elapsed where
  | elapsed

structure Timeout (σ τ : Type) where
  future : σ
  sleep : τ

namespace Timeout

def poll (pf : Future σ α) (ps : Future τ Unit) : Future (Timeout σ τ) (Except Elapsed α) :=
  fun s =>
    match pf s.future with
    | (.ready x, future) => (.ready (.ok x), { s with future })
    | (.pending, future) =>
      match ps s.sleep with
      | (.ready (), sleep) => (.ready (.error .elapsed), ⟨future, sleep⟩)
      | (.pending, sleep) => (.pending, ⟨future, sleep⟩)

variable {pf : Future σ α} {ps : Future τ Unit} {s : σ} {t : τ} {u : Timeout σ τ} {k n : ℕ}

theorem pends_iff :
    Pends (poll pf ps) ⟨s, t⟩ n u ↔ Pends pf s n u.future ∧ Pends ps t n u.sleep := by
  induction n generalizing u with
  | zero =>
    rw [pends_zero, pends_zero, pends_zero]
    constructor
    · rintro rfl
      exact ⟨rfl, rfl⟩
    · rintro ⟨rfl, rfl⟩
      rfl
  | succ n ih =>
    rw [pends_succ]
    constructor
    · rintro ⟨v, hv, hpoll⟩
      obtain ⟨hfuture, hsleep⟩ := ih.mp hv
      rcases hf : pf v.future with ⟨_ | x, future⟩
      · rcases hs : ps v.sleep with ⟨_ | ⟨⟨⟩⟩, sleep⟩
        · simp only [poll, hf, hs, Prod.mk.injEq, true_and] at hpoll
          subst hpoll
          exact ⟨.next hfuture hf, .next hsleep hs⟩
        · simp [poll, hf, hs] at hpoll
      · simp [poll, hf] at hpoll
    · rintro ⟨hfuture, hsleep⟩
      obtain ⟨future, hfuture, hf⟩ := pends_succ.mp hfuture
      obtain ⟨sleep, hsleep, hs⟩ := pends_succ.mp hsleep
      exact ⟨⟨future, sleep⟩, ih.mpr ⟨hfuture, hsleep⟩, by simp [poll, hf, hs]⟩

/-- The output of the future unless the sleep was ready in an earlier round, and otherwise the
error in the round of the sleep. -/
inductive Times (pf : Future σ α) (ps : Future τ Unit) (s : σ) (t : τ) (k : ℕ) :
    Except Elapsed α → Timeout σ τ → Prop where
  | output {x future sleep} (ready : Completes pf s k x future) (pends : Pends ps t k sleep) :
      Times pf ps s t k (.ok x) ⟨future, sleep⟩
  | elapsed {future sleep} (pends : Pends pf s (k + 1) future) (ready : Completes ps t k () sleep) :
      Times pf ps s t k (.error .elapsed) ⟨future, sleep⟩

theorem completes_iff_times {r : Except Elapsed α} :
    Completes (poll pf ps) ⟨s, t⟩ k r u ↔ Times pf ps s t k r u := by
  rw [PolledFutures.completes_iff]
  constructor
  · rintro ⟨v, hv, hpoll⟩
    obtain ⟨hfuture, hsleep⟩ := pends_iff.mp hv
    rcases hf : pf v.future with ⟨_ | x, future⟩
    · rcases hs : ps v.sleep with ⟨_ | ⟨⟨⟩⟩, sleep⟩
      · simp [poll, hf, hs] at hpoll
      · simp only [poll, hf, hs, Prod.mk.injEq, Poll.ready.injEq] at hpoll
        obtain ⟨rfl, rfl⟩ := hpoll
        exact .elapsed (.next hfuture hf) ⟨hsleep, hs⟩
    · simp only [poll, hf, Prod.mk.injEq, Poll.ready.injEq] at hpoll
      obtain ⟨rfl, rfl⟩ := hpoll
      exact .output ⟨hfuture, hf⟩ hsleep
  · intro h
    cases h with
    | output ready pends =>
      obtain ⟨future, hfuture, hf⟩ := PolledFutures.completes_iff.mp ready
      exact ⟨⟨future, _⟩, pends_iff.mpr ⟨hfuture, pends⟩, by simp [poll, hf]⟩
    | elapsed pends ready =>
      obtain ⟨future, hfuture, hf⟩ := pends_succ.mp pends
      obtain ⟨sleep, hsleep, hs⟩ := PolledFutures.completes_iff.mp ready
      exact ⟨⟨future, sleep⟩, pends_iff.mpr ⟨hfuture, hsleep⟩, by simp [poll, hf, hs]⟩

end Timeout

end Eddy.FutureCombinators
