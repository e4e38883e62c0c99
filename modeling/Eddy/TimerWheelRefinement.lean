import Eddy.DeadlineMap
import Eddy.Interleaving
import Eddy.TimerWheelInvariant

/-!
# The wheel is a map of deadlines

Between calls the wheel, seen from outside, is the map from the linked timers to their
deadlines, and `advance_to` followed by `take_pending` advances that map.
-/

namespace Eddy.TimerWheel
open DeadlineMap Interleaving
open Function (update)

namespace Wheel

/-- `entry.deadline.store(deadline)`. -/
def setDeadline (w : Wheel) (id deadline : ℕ) : Wheel :=
  { w with
    entries := update w.entries id { w.entries id with deadline := deadline } }

def schedule (w : Wheel) (id deadline : ℕ) : Wheel := (w.setDeadline id deadline).insert id

/-- `advance_to` and `take_pending`. -/
def tick (w : Wheel) (now : ℕ) : Option (List ℕ × Wheel) := (w.advanceTo now).map takePending

inductive Call where
  | insert (id deadline : ℕ)
  | remove (id : ℕ)
  | advanceTo (now : ℕ)
  | takePending

/-- A call on a wheel in any state. Only a timer that is not linked is inserted. -/
def step (w : Wheel) : Call → Option Wheel
  | .insert id deadline =>
      if (w.entries id).linked = false ∧ deadline < 2 ^ 64 then some (w.schedule id deadline)
      else none
  | .remove id => some (w.remove id).2
  | .advanceTo now => if now < 2 ^ 64 then w.advanceTo now else none
  | .takePending => some w.takePending.2

inductive Op where
  | insert (id deadline : ℕ)
  | remove (id : ℕ)
  | tick (now : ℕ)

def perform (w : Wheel) : Op → Option (List (Event ℕ) × Wheel)
  | .insert id deadline =>
      if (w.entries id).linked = false ∧ w.elapsed < deadline ∧ deadline < 2 ^ 64 then
        some ([.inserted id deadline], w.schedule id deadline)
      else none
  | .remove id => some ([.removed id], (w.remove id).2)
  | .tick now =>
      if now < 2 ^ 64 then
        (w.tick now).map fun (ids, w') => (ids.map (.taken · w'.elapsed now), w')
      else none

/-- A sequence of operations and what it logs. -/
def exec (w : Wheel) : List Op → Option (List (Event ℕ) × Wheel)
  | [] => some ([], w)
  | op :: ops =>
      (w.perform op).bind fun (log, w) => (exec w ops).map fun (rest, w) => (log ++ rest, w)

/-- `advance_to(target)` and `take_pending` are repeated until `elapsed` is `target`. -/
def drainLoop (target : ℕ) : ℕ → Wheel → Option (List ℕ × Wheel)
  | 0, _ => none
  | fuel + 1, w =>
      (w.tick target).bind fun (ids, w) =>
        if target ≤ w.elapsed then some (ids, w)
        else (drainLoop target fuel w).map fun (rest, w) => (ids ++ rest, w)

def drain (w : Wheel) (target : ℕ) : Option (List ℕ × Wheel) :=
  drainLoop target (target - w.elapsed + 1) w

def deadlines (w : Wheel) (id : ℕ) : Option ℕ :=
  if (w.entries id).linked = true then some (w.deadline id) else none

def abstract (w : Wheel) : State ℕ where
  elapsed := w.elapsed
  deadline := w.deadlines

theorem deadlines_eq_some {w : Wheel} {id d : ℕ} :
    w.deadlines id = some d ↔ (w.entries id).linked = true ∧ w.deadline id = d := by
  unfold deadlines
  split <;> simp_all

/-- What holds between calls of any kind. -/
structure Sound (w : Wheel) : Prop where
  valid : w.Valid 0
  due : ∀ id ∈ w.pending, w.deadline id ≤ w.elapsed

/-- What holds between calls once `pending` is always taken. -/
structure Clear (w : Wheel) : Prop where
  valid : w.Valid 0
  pending : w.pending = []

variable {w w' : Wheel}

theorem Clear.future (h : w.Clear) : w.abstract.Future := by
  intro id d hd
  obtain ⟨hlinked, rfl⟩ := deadlines_eq_some.mp hd
  have hkept := h.valid.kept id hlinked
  have hl : (w.entries id).level < 6 := by
    refine lt_of_le_of_ne hkept.level_le fun hlevel => ?_
    have hmem := (h.valid.located id).mem_pending.mpr ⟨hlinked, hlevel⟩
    rw [h.pending] at hmem
    cases hmem
  exact lt_of_bucket_lt ((hkept.placed hl).later (Nat.zero_le _))

theorem SameTimers.deadlines (h : SameTimers w w') : w'.deadlines = w.deadlines := by
  funext id
  rw [Wheel.deadlines, Wheel.deadlines, h.linked, h.deadline]

theorem Valid.setDeadline {k id d : ℕ} (h : w.Valid k) (hid : (w.entries id).linked = false) :
    (w.setDeadline id d).Valid k := by
  refine h.setEntries (fun j => ?_) fun j hj => ?_
  · by_cases hjid : j = id
    · subst hjid
      simp
    · simp [hjid]
  · have hjid : j ≠ id := by
      rintro rfl
      simp [hid] at hj
    simp [hjid]

theorem schedule_spec {id d : ℕ} (h : w.Valid 0) (hid : (w.entries id).linked = false)
    (hd : d < 2 ^ 64) :
    (w.schedule id d).Valid 0 ∧ (w.schedule id d).elapsed = w.elapsed ∧
      (∀ j ∈ (w.schedule id d).pending, j ∈ w.pending ∨ (w.schedule id d).deadline j ≤ w.elapsed) ∧
      (w.elapsed < d → (w.schedule id d).pending = w.pending) ∧
      (w.schedule id d).deadlines = update w.deadlines id (some d) := by
  have hset := h.setDeadline (d := d) hid
  have hid' : ((w.setDeadline id d).entries id).linked = false := by
    simpa [Wheel.setDeadline] using hid
  have hdeadline : (w.setDeadline id d).deadline id = d := by
    simp [Wheel.setDeadline, deadline]
  have hlink := insert_relinks (w.setDeadline id d) id
  refine ⟨hset.insert hid' (by rw [hdeadline]; exact hd), hlink.elapsed, fun j hj => ?_,
    fun hlater => ?_, ?_⟩
  · refine (hlink.due j hj).imp_right fun hle => ?_
    rw [schedule, deadline_eq_of_timer (hlink.timer j)]
    exact hle
  · exact insert_pending (by rw [hdeadline]; exact hlater)
  · funext j
    rw [schedule, Wheel.deadlines, deadline_eq_of_timer (hlink.timer j)]
    by_cases hj : j = id
    · subst hj
      rw [if_pos ((hlink.linked j).mpr (.inr (by simp))), hdeadline, Function.update_self]
    · have hsame : (w.setDeadline id d).entries j = w.entries j := by
        simp [Wheel.setDeadline, hj]
      have hlinked : (((w.setDeadline id d).insert id).entries j).linked = (w.entries j).linked := by
        rw [Bool.eq_iff_iff, hlink.linked, hsame]
        simp [hj]
      rw [Function.update_of_ne hj, hlinked, Wheel.deadlines, Wheel.deadline, hsame, Wheel.deadline]

theorem remove_deadlines (h : w.Valid 0) (id : ℕ) :
    (w.remove id).2.deadlines = update w.deadlines id none := by
  obtain ⟨-, -, -, -, hentries⟩ := h.remove id
  funext j
  rw [Wheel.deadlines, Wheel.deadline, hentries]
  by_cases hj : j = id
  · subst hj
    cases hlinked : (w.entries j).linked <;> simp [TimerEntry.unlink, hlinked]
  · rw [Function.update_of_ne hj]
    split <;> simp [Wheel.deadlines, Wheel.deadline, hj]

theorem takePending_deadlines (w : Wheel) :
    w.takePending.2.deadlines = without w.deadlines w.takePending.1 := by
  funext j
  by_cases hj : j ∈ w.pending
  · simp [Wheel.takePending, Wheel.deadlines, unlinkAll, without, hj, TimerEntry.unlink]
  · simp [Wheel.takePending, Wheel.deadlines, Wheel.deadline, unlinkAll, without, hj]

theorem takePending_timer (w : Wheel) (id : ℕ) : w.takePending.2.timer id = w.timer id := by
  simp only [timer, Wheel.takePending, unlinkAll]
  split <;> rfl

/-- Advancing the wheel and taking what is due advances the map. -/
theorem Clear.tick (h : w.Clear) {now : ℕ} (hnow : now < 2 ^ 64) :
    ∃ ids w', w.tick now = some (ids, w') ∧ w'.Clear ∧ (∀ id, w'.timer id = w.timer id) ∧
      Advances w.abstract now ids w'.abstract := by
  rcases Nat.lt_or_ge w.elapsed now with hlt | hge
  · obtain ⟨w₁, hrun, hvalid, hsame, hstops⟩ := h.valid.advanceTo h.pending hlt hnow
    refine ⟨_, _, by rw [Wheel.tick, hrun]; rfl, ⟨hvalid.takePending, rfl⟩,
      fun id => (takePending_timer w₁ id).trans (hsame.timer id), ?_⟩
    have hmap : w₁.takePending.2.abstract =
        { elapsed := w₁.elapsed, deadline := without w.deadlines w₁.pending } := by
      rw [abstract, takePending_deadlines, hsame.deadlines]
      rfl
    rw [hmap]
    change Advances _ _ w₁.pending _
    cases hstops with
    | arrived elapsed pending later =>
      rw [pending, elapsed, without_nil]
      refine .arrive hlt fun id d hd => ?_
      obtain ⟨hlinked, rfl⟩ := deadlines_eq_some.mp hd
      exact later id hlinked
    | due passed le some first pending =>
      refine .fire passed le some (fun id d hd => ?_) hvalid.pending_nodup fun id => ?_
      · obtain ⟨hlinked, rfl⟩ := deadlines_eq_some.mp hd
        exact first id hlinked
      · rw [pending id]
        exact deadlines_eq_some.symm
  · refine ⟨[], w.takePending.2, ?_, ⟨h.valid.takePending, rfl⟩, takePending_timer w, ?_⟩
    · rw [Wheel.tick, Wheel.advanceTo, if_pos hge, Option.map_some, Wheel.takePending, h.pending]
    · have hmap : w.takePending.2.abstract = w.abstract := by
        rw [abstract, takePending_deadlines]
        simp [Wheel.takePending, h.pending, abstract]
      rw [hmap]
      exact .stay hge

theorem Sound.step {call : Call} (h : w.Sound) (hs : w.step call = some w') : w'.Sound := by
  obtain ⟨hvalid, hdue⟩ := h
  cases call with
  | insert id d =>
    simp only [Wheel.step] at hs
    split_ifs at hs with hfree
    cases hs
    obtain ⟨hid, hd⟩ := hfree
    obtain ⟨hvalid', helapsed, hpending, -, -⟩ := schedule_spec hvalid hid hd
    refine ⟨hvalid', fun j hj => ?_⟩
    rw [helapsed]
    rcases hpending j hj with hold | hle
    · have hne : j ≠ id := by
        rintro rfl
        exact hvalid.not_mem_pending hid hold
      have hsame : (w.schedule id d).deadline j = w.deadline j := by
        rw [Wheel.schedule, deadline_eq_of_timer ((insert_relinks _ id).timer j)]
        simp [Wheel.setDeadline, Wheel.deadline, hne]
      rw [hsame]
      exact hdue j hold
    · exact hle
  | remove id =>
    cases hs
    obtain ⟨hvalid', -, helapsed, hpending, hentries⟩ := hvalid.remove id
    refine ⟨hvalid', fun j hj => ?_⟩
    have hsame : (w.remove id).2.deadline j = w.deadline j := by
      rw [Wheel.deadline, hentries]
      split
      · by_cases hj' : j = id
        · subst hj'
          simp [TimerEntry.unlink, Wheel.deadline]
        · simp [hj', Wheel.deadline]
      · rfl
    rw [hsame, helapsed]
    exact hdue j (hpending j hj)
  | advanceTo now =>
    simp only [Wheel.step] at hs
    split_ifs at hs with hnow
    rcases Nat.lt_or_ge w.elapsed now with hlt | hge
    · by_cases hempty : w.pending = []
      · obtain ⟨w₁, hrun, hvalid', hsame, hstops⟩ := hvalid.advanceTo hempty hlt hnow
        rw [hrun] at hs
        cases hs
        refine ⟨hvalid', fun j hj => ?_⟩
        rw [hsame.deadline]
        cases hstops with
        | arrived _ pending _ =>
          rw [pending] at hj
          cases hj
        | due _ _ _ _ pending => exact ((pending j).mp hj).2.le
      · obtain ⟨w₁, hrun, hvalid', hmoved⟩ := hvalid.advanceTo_pending hempty hlt
        rw [hrun] at hs
        cases hs
        refine ⟨hvalid', fun j hj => ?_⟩
        rw [deadline_eq_of_timer (hmoved.timer j), hmoved.elapsed]
        exact (hmoved.due j hj).elim (hdue j) id
    · rw [Wheel.advanceTo, if_pos hge] at hs
      cases hs
      exact ⟨hvalid, hdue⟩
  | takePending =>
    cases hs
    exact ⟨hvalid.takePending, by simp [Wheel.takePending]⟩

/-- With every deadline ahead of the clock, nothing is pending. -/
theorem Sound.clear (h : w.Sound)
    (hlater : ∀ id, (w.entries id).linked = true → w.elapsed < w.deadline id) : w.Clear := by
  refine ⟨h.valid, List.eq_nil_iff_forall_not_mem.mpr fun id hid => ?_⟩
  have hle := h.due id hid
  have hlt := hlater id ((h.valid.located id).mem_pending.mp hid).1
  omega

theorem Clear.perform {op : Op} {log : List (Event ℕ)} (h : w.Clear)
    (hs : w.perform op = some (log, w')) :
    w'.Clear ∧ Accepts w.deadlines log ∧ w'.deadlines = live w.deadlines log := by
  cases op with
  | insert id d =>
    simp only [Wheel.perform] at hs
    split_ifs at hs with hfree
    cases hs
    obtain ⟨hid, hlater, hd⟩ := hfree
    obtain ⟨hvalid, -, -, hpending, hmap⟩ := schedule_spec h.valid hid hd
    exact ⟨⟨hvalid, (hpending hlater).trans h.pending⟩, ⟨trivial, trivial⟩, hmap⟩
  | remove id =>
    cases hs
    obtain ⟨hvalid, -, -, hpending, -⟩ := h.valid.remove id
    refine ⟨⟨hvalid, List.eq_nil_iff_forall_not_mem.mpr fun j hj => ?_⟩, ⟨trivial, trivial⟩,
      remove_deadlines h.valid id⟩
    have hold := hpending j hj
    rw [h.pending] at hold
    cases hold
  | tick now =>
    simp only [Wheel.perform] at hs
    split_ifs at hs with hnow
    obtain ⟨ids, w₁, hrun, hclear, -, hadvance⟩ := h.tick hnow
    rw [hrun] at hs
    cases hs
    refine ⟨hclear, hadvance.accepts, ?_⟩
    rw [live_taken]
    exact hadvance.deadline_eq

theorem Clear.exec {ops : List Op} {log : List (Event ℕ)} (h : w.Clear)
    (hs : w.exec ops = some (log, w')) :
    w'.Clear ∧ Accepts w.deadlines log ∧ w'.deadlines = live w.deadlines log := by
  induction ops generalizing w log with
  | nil =>
    cases hs
    exact ⟨h, trivial, rfl⟩
  | cons op ops ih =>
    obtain ⟨⟨log₁, w₁⟩, hop, hs⟩ := Option.bind_eq_some_iff.mp hs
    obtain ⟨⟨rest, w₂⟩, hops, hlog⟩ := Option.map_eq_some_iff.mp hs
    cases hlog
    obtain ⟨hclear₁, haccepts₁, hmap₁⟩ := h.perform hop
    obtain ⟨hclear₂, haccepts₂, hmap₂⟩ := ih hclear₁ hops
    rw [hmap₁] at haccepts₂ hmap₂
    exact ⟨hclear₂, haccepts₁.append haccepts₂, by rw [hmap₂, live_append]⟩

theorem Clear.drainLoop {target fuel : ℕ} (h : w.Clear) (htarget : target < 2 ^ 64)
    (hfuel : target - w.elapsed < fuel) :
    ∃ ids w', Wheel.drainLoop target fuel w = some (ids, w') ∧
      Drains target w.abstract ids w'.abstract := by
  induction fuel generalizing w with
  | zero => omega
  | succ fuel ih =>
    obtain ⟨ids, w₁, hrun, hclear, -, hadvance⟩ := h.tick htarget
    rw [Wheel.drainLoop, hrun, Option.bind_some]
    simp only
    split_ifs with hreached
    · refine ⟨ids, w₁, rfl, ?_⟩
      simpa using Drains.more hadvance (.done hreached)
    · have hle : w.elapsed ≤ w₁.elapsed := hadvance.elapsed_le
      have hlt : w.elapsed < w₁.elapsed := hadvance.elapsed_lt (show w.elapsed < target by omega)
      obtain ⟨rest, w₂, hloop, hdrains⟩ := ih hclear (by omega)
      exact ⟨ids ++ rest, w₂, by rw [hloop]; rfl, .more hadvance hdrains⟩

/-- What the wheel promises about its timers. -/
structure Faithful (w₀ : Wheel) (log : List (Event ℕ)) (w : Wheel) : Prop where
  /-- A timer is taken while it is in the map, at its deadline and not beyond the target. -/
  accepts : Accepts w₀.deadlines log
  returns : ∀ now < 2 ^ 64, (w.tick now).isSome = true
  /-- Everything due is taken, in the order of the deadlines. -/
  drains : ∀ target < 2 ^ 64, ∃ ids w', w.drain target = some (ids, w') ∧
    target ≤ w'.elapsed ∧ ids.Nodup ∧
    (∀ id, id ∈ ids ↔ ∃ d ≤ target, live w₀.deadlines log id = some d) ∧
    ids.Pairwise (Sooner (live w₀.deadlines log))

theorem refines_deadline_map {w₀ : Wheel} {ops : List Op} {log : List (Event ℕ)}
    (hreach : Reachable Wheel.step anyStep Wheel.new w₀)
    (hlater : ∀ id, (w₀.entries id).linked = true → w₀.elapsed < w₀.deadline id)
    (hs : w₀.exec ops = some (log, w)) : Faithful w₀ log w := by
  have hsound : w₀.Sound := hreach.invariant ⟨.new, by simp [Wheel.new]⟩
    fun _ _ _ hw _ hstep => hw.step hstep
  obtain ⟨hclear, haccepts, hmap⟩ := (hsound.clear hlater).exec hs
  refine ⟨haccepts, fun now hnow => ?_, fun target htarget => ?_⟩
  · obtain ⟨ids, w', hrun, -⟩ := hclear.tick hnow
    rw [hrun]
    rfl
  · obtain ⟨ids, w', hrun, hdrains⟩ := hclear.drainLoop htarget (Nat.lt_succ_self _)
    obtain ⟨hnodup, hmem, hsorted⟩ := hdrains.taken hclear.future
    rw [show w.abstract.deadline = live w₀.deadlines log from hmap] at hmem hsorted
    exact ⟨ids, w', hrun, hdrains.reached, hnodup, hmem, hsorted⟩

/-- A timer that is more than one turn of the top level away stays while another is taken. -/
theorem near_timer_taken_before_far_one :
    ∃ log w, (Wheel.new.schedule 3 (2 ^ 40)).exec [.insert 4 10, .tick 20] = some (log, w) ∧
      log = [.inserted 4 10, .taken 4 10 20] ∧
      Faithful (Wheel.new.schedule 3 (2 ^ 40)) log w := by
  have hlog : ((Wheel.new.schedule 3 (2 ^ 40)).exec [.insert 4 10, .tick 20]).map Prod.fst =
      some [.inserted 4 10, .taken 4 10 20] := by decide +kernel
  obtain ⟨⟨log, w⟩, hs, rfl⟩ := Option.map_eq_some_iff.mp hlog
  have hreach : Reachable Wheel.step anyStep Wheel.new (Wheel.new.schedule 3 (2 ^ 40)) :=
    .next .start trivial (show Wheel.new.step (.insert 3 (2 ^ 40)) = _ by
      simp [Wheel.step, Wheel.new])
  refine ⟨_, w, hs, rfl, refines_deadline_map hreach ?_ hs⟩
  · intro id hid
    have hfree : (Wheel.new.entries 3).linked = false := rfl
    have hmap := (schedule_spec .new hfree (show 2 ^ 40 < 2 ^ 64 by decide)).2.2.2.2
    have hsome := congrFun hmap id
    rw [deadlines_eq_some.mpr ⟨hid, rfl⟩] at hsome
    by_cases h3 : id = 3
    · subst h3
      rw [Function.update_self, Option.some.injEq] at hsome
      rw [hsome]
      decide +kernel
    · simp [Function.update_of_ne h3, Wheel.deadlines, Wheel.new] at hsome

end Wheel

end Eddy.TimerWheel
