import Eddy.Coop

/-!
# Operations that wait

Every operation asks `poll_proceed` before it looks at its resource, so an operation that has to
wait spends a unit of the budget as well. A task that polls its operations in a fixed order comes
to as many of them as there are units in its budget, however often it is polled.
-/

namespace Eddy.Coop

section Operations
variable {ρ ι : Type} {body : ι → ρ → Option (Bool × ρ)} {waiting registered : ι → ρ → Prop}
  {r r' : ρ} {ops : List ι} {x : ι} {b k : ℕ}

/-- The poll of an operation. `body` is what it does with budget: whether it is ready, and the
resources after it; it is undefined where there is no such future. -/
def pollOperation (body : ρ → Option (Bool × ρ)) (cell : Option ℕ) (r : ρ) :
    Option (Bool × Option ℕ × ρ) :=
  match pollProceed cell with
  | (true, cell) => (body r).map fun (ready, r) => (ready, cell, r)
  | (false, cell) => some (false, cell, r)

def pollInOrder (body : ι → ρ → Option (Bool × ρ)) :
    List ι → Option ℕ → ρ → Option (Option ℕ × ρ)
  | [], cell, r => some (cell, r)
  | op :: ops, cell, r =>
    (pollOperation (body op) cell r).bind fun (_, cell, r) => pollInOrder body ops cell r

/-- The task is polled `k` times, each time with a fresh budget. -/
def taskPolls (body : ι → ρ → Option (Bool × ρ)) (ops : List ι) : ℕ → ρ → Option ρ
  | 0, r => some r
  | k + 1, r => (pollInOrder body ops (some budget) r).bind fun (_, r) => taskPolls body ops k r

/-- Where operations wait, the poll with budget of one of them registers it and changes nothing
for the others. -/
structure Registers (body : ι → ρ → Option (Bool × ρ)) (waiting registered : ι → ρ → Prop) :
    Prop where
  poll : ∀ {op r}, waiting op r → ∃ r', body op r = some (false, r') ∧ registered op r' ∧
    (∀ x, x ≠ op → (registered x r' ↔ registered x r)) ∧ ∀ x, waiting x r → waiting x r'

/-- The poll with budget of the operation finds its resource not ready. -/
def Waits (body : ι → ρ → Option (Bool × ρ)) (op : ι) (r : ρ) : Prop :=
  ∃ r', body op r = some (false, r')

theorem pollOperation_waiting {body : ρ → Option (Bool × ρ)} {cell : Option ℕ}
    (hbudget : hasBudgetRemaining cell = true) (h : body r = some (false, r')) :
    pollOperation body cell r = some (false, cell, r') ↔ cell = none := by
  match cell with
  | none => simp [pollOperation, pollProceed, h]
  | some 0 => simp [hasBudgetRemaining] at hbudget
  | some (remaining + 1) => simp [pollOperation, pollProceed, h]

theorem pollInOrder_exhausted (body : ι → ρ → Option (Bool × ρ)) (ops : List ι) (r : ρ) :
    pollInOrder body ops (some 0) r = some (some 0, r) := by
  induction ops with
  | nil => rfl
  | cons op ops ih => exact ih

/-- As many operations are registered as there are units in the budget. -/
theorem Registers.pollInOrder (hbody : Registers body waiting registered)
    (h : ∀ op ∈ ops, waiting op r) : ∃ cell' r',
      Coop.pollInOrder body ops (some b) r = some (cell', r') ∧
      (∀ x, waiting x r → waiting x r') ∧
      ∀ x, registered x r' ↔ registered x r ∨ x ∈ ops.take b := by
  induction ops generalizing b r with
  | nil => exact ⟨some b, r, rfl, fun _ hx => hx, by simp⟩
  | cons op ops ih =>
    cases b with
    | zero => exact ⟨some 0, r, pollInOrder_exhausted body (op :: ops) r, fun _ hx => hx, by simp⟩
    | succ b =>
      obtain ⟨r₁, hpoll, hop, hothers, hwaiting⟩ := hbody.poll (h op List.mem_cons_self)
      obtain ⟨cell', r', hrest, hwaiting', hregistered⟩ := ih (b := b) (r := r₁)
        fun x hx => hwaiting x (h x (List.mem_cons_of_mem _ hx))
      refine ⟨cell', r', ?_, fun x hx => hwaiting' x (hwaiting x hx), fun x => ?_⟩
      · have hfirst : pollOperation (body op) (some (b + 1)) r = some (false, some b, r₁) := by
          simp [pollOperation, pollProceed, hpoll]
        rw [Coop.pollInOrder, hfirst]
        exact hrest
      · rw [hregistered, List.take_succ_cons, List.mem_cons]
        by_cases hx : x = op
        · simp [hx, hop]
        · simp [hx, hothers x hx]

theorem Registers.taskPolls (hbody : Registers body waiting registered)
    (h : ∀ op ∈ ops, waiting op r) (k : ℕ) : ∃ r', taskPolls body ops k r = some r' ∧
      ∀ x, registered x r' ↔ registered x r ∨ 0 < k ∧ x ∈ ops.take budget := by
  induction k generalizing r with
  | zero => exact ⟨r, rfl, by simp⟩
  | succ k ih =>
    obtain ⟨cell', r₁, hpoll, hwaiting, hregistered⟩ := hbody.pollInOrder (b := budget) h
    obtain ⟨r', hrest, hregistered'⟩ := ih fun op hop => hwaiting op (h op hop)
    refine ⟨r', ?_, fun x => ?_⟩
    · rw [Coop.taskPolls, hpoll]
      exact hrest
    · rw [hregistered', hregistered]
      simp only [Nat.zero_lt_succ, true_and]
      tauto

theorem Registers.exists_taskPolls (hbody : Registers body waiting registered)
    (h : ∀ op ∈ ops, waiting op r) :
    (∃ k r', Coop.taskPolls body ops k r = some r' ∧ ∀ op ∈ ops, registered op r') ↔
      ∀ op ∈ ops, op ∈ ops.take budget ∨ registered op r := by
  constructor
  · rintro ⟨k, r', hpolls, hall⟩ op hop
    obtain ⟨r₁, hpolls', hregistered⟩ := hbody.taskPolls h k
    obtain rfl : r₁ = r' := Option.some.inj (hpolls'.symm.trans hpolls)
    exact ((hregistered op).mp (hall op hop)).symm.imp_left And.right
  · intro hfirst
    obtain ⟨r', hpolls, hregistered⟩ := hbody.taskPolls h 1
    refine ⟨1, r', hpolls, fun op hop => (hregistered op).mpr ?_⟩
    exact (hfirst op hop).symm.imp_right fun htake => ⟨Nat.one_pos, htake⟩

/-- The polls of a resource that is one of several kinds of resources. -/
theorem Registers.lift {ρ' ι' : Type} {body' : ι' → ρ' → Option (Bool × ρ')}
    {waiting' registered' : ι' → ρ' → Prop} (h : Registers body' waiting' registered')
    (kind : ρ' → ρ) (index : ι' → ι)
    (hbody : ∀ i s, body (index i) (kind s) = (body' i s).map (Prod.map id kind))
    (hwaiting : ∀ i s, waiting (index i) (kind s) ↔ waiting' i s)
    (hregistered : ∀ i s, registered (index i) (kind s) ↔ registered' i s)
    (hothers : ∀ x s, (∃ i, index i = x) ∨ ¬ waiting x (kind s) ∧ ¬ registered x (kind s)) {op : ι}
    {s : ρ'} (hop : waiting op (kind s)) :
    ∃ r', body op (kind s) = some (false, r') ∧ registered op r' ∧
      (∀ x, x ≠ op → (registered x r' ↔ registered x (kind s))) ∧
      ∀ x, waiting x (kind s) → waiting x r' := by
  obtain ⟨i, rfl⟩ := (hothers op s).resolve_right fun hno => hno.1 hop
  obtain ⟨s', hpoll, hhas, hkeep, hwaits⟩ := h.poll ((hwaiting i s).mp hop)
  refine ⟨kind s', by rw [hbody, hpoll]; rfl, (hregistered i s').mpr hhas, fun x hx => ?_,
    fun x hx => ?_⟩
  · rcases hothers x s with ⟨j, rfl⟩ | hno
    · rw [hregistered, hregistered]
      exact hkeep j fun hj => hx (congrArg index hj)
    · rcases hothers x s' with ⟨j, rfl⟩ | hno'
      · rw [hregistered, hregistered]
        exact hkeep j fun hj => hx (congrArg index hj)
      · exact iff_of_false hno'.2 hno.2
  · obtain ⟨j, rfl⟩ := (hothers x s).resolve_right fun hno => hno.1 hx
    exact (hwaiting j s').mpr (hwaits j ((hwaiting j s).mp hx))

theorem exists_map_pending {ρ' : Type} {polled : Option (Bool × ρ')} (kind : ρ' → ρ) :
    (∃ r', polled.map (Prod.map id kind) = some (false, r')) ↔ ∃ s', polled = some (false, s') := by
  match polled with
  | none => simp
  | some (ready, s) => simp

/-- The poll of an operation on one of the resources of a table. -/
def pollTable (body : ι → ρ → Option (Bool × ρ)) (op : ℕ × ι) (table : List ρ) :
    Option (Bool × List ρ) :=
  (table[op.1]?).bind fun r => (body op.2 r).map fun (ready, r) => (ready, table.set op.1 r)

/-- The resource of the operation is such. -/
def OfTable (P : ι → ρ → Prop) (op : ℕ × ι) (table : List ρ) : Prop :=
  ∃ r, table[op.1]? = some r ∧ P op.2 r

theorem Registers.table (h : Registers body waiting registered) :
    Registers (pollTable body) (OfTable waiting) (OfTable registered) := by
  constructor
  rintro ⟨k, i⟩ table ⟨r, hr, hwait⟩
  obtain ⟨r', hpoll, hhas, hkeep, hwaits⟩ := h.poll hwait
  have hget : ∀ l, (table.set k r')[l]? = if l = k then some r' else table[l]? := by
    intro l
    by_cases hl : l = k
    · subst hl
      have hlt := (List.getElem?_eq_some_iff.mp hr).1
      simp [hlt]
    · simp [hl, Ne.symm hl]
  refine ⟨table.set k r', ?_, ⟨r', (hget k).trans (if_pos rfl), hhas⟩, ?_, ?_⟩
  · simp [pollTable, hr, hpoll]
  · rintro ⟨l, j⟩ hx
    by_cases hl : l = k
    · subst hl
      have hj : j ≠ i := fun hj => hx (congrArg _ hj)
      simp only [OfTable, hget, if_pos, hr, Option.some.injEq, exists_eq_left']
      exact hkeep j hj
    · simp only [OfTable, hget, if_neg hl]
  · rintro ⟨l, j⟩ ⟨x, hx, hwait'⟩
    by_cases hl : l = k
    · subst hl
      obtain rfl : r = x := Option.some.inj (hr.symm.trans hx)
      exact ⟨r', (hget l).trans (if_pos rfl), hwaits j hwait'⟩
    · exact ⟨x, (hget l).trans ((if_neg hl).trans hx), hwait'⟩

end Operations

end Eddy.Coop
