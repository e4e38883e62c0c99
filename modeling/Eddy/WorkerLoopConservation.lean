import Eddy.WorkerLoopParking

/-!
# Idle workers and stealable tasks

With three workers or more, one of the idle ones waits on the condvar, which times out. With two,
the idle one may be in the kernel wait, and neither the last look of `has_work` nor the local path
of `schedule` considers the local queue that it could steal from.
-/

namespace Eddy.WorkerLoop
open Interleaving Driver

namespace State
variable {s t : State} {i u v : ℕ} {w w' x : Worker} {p q : Driver.Worker}

/-- How many tasks a worker has claimed from `victim` and not committed. -/
def copying (victim : ℕ) (w : Worker) : ℕ :=
  match w.place.copied with
  | some (from', size) => if from' = victim then size else 0
  | none => 0

structure Claims (s : State) : Prop where
  claimed : ∀ (v : ℕ) (w : Worker), s.workers[v]? = some w →
    w.claimed = total (copying v) s.workers
  others : ∀ (i : ℕ) (w : Worker) victim size, s.workers[i]? = some w →
    w.place.copied = some (victim, size) → victim ≠ i ∧ victim < s.workers.length ∧ 0 < size

theorem claims_new (workers : ℕ) (lifoSlotEnabled : Bool) :
    (State.new workers lifoSlotEnabled).Claims := by
  refine ⟨fun v w hv => ?_, fun i w victim size hi hcopied => ?_⟩
  · rw [List.eq_of_mem_replicate (List.mem_of_getElem? hv)]
    refine (total_eq_zero_iff.mpr fun w hw => ?_).symm
    rw [List.eq_of_mem_replicate hw]
    rfl
  · rw [List.eq_of_mem_replicate (List.mem_of_getElem? hi)] at hcopied
    cases hcopied

theorem copying_congr (h : w'.place.copied = w.place.copied) (v : ℕ) :
    copying v w' = copying v w := by
  unfold copying
  rw [h]

/-- No claim is made or committed. -/
theorem Claims.own (h : s.Claims) (hi : s.workers[i]? = some w)
    (hworkers : t.workers = s.workers.set i w') (hclaimed : w'.claimed = w.claimed)
    (hcopied : w'.place.copied = w.place.copied) : t.Claims := by
  have htotal : ∀ v, total (copying v) t.workers = total (copying v) s.workers := by
    intro v
    have hset := total_set (copying v) hi w'
    rw [copying_congr hcopied] at hset
    rw [hworkers]
    omega
  have hget : ∀ j, j ≠ i → t.workers[j]? = s.workers[j]? := fun j hj => by
    rw [hworkers, List.getElem?_set_ne (Ne.symm hj)]
  have hown : t.workers[i]? = some w' := by
    rw [hworkers, List.getElem?_set_self (List.getElem?_eq_some_iff.mp hi).1]
  refine ⟨fun v x hv => ?_, fun j x victim size hj hx => ?_⟩
  · rw [htotal]
    by_cases hvi : v = i
    · subst hvi
      cases hown.symm.trans hv
      rw [hclaimed]
      exact h.claimed v w hi
    · exact h.claimed v x (hget v hvi ▸ hv)
  · rw [hworkers, List.length_set]
    by_cases hji : j = i
    · subst hji
      cases hown.symm.trans hj
      exact h.others j w victim size hi (hcopied ▸ hx)
    · exact h.others j x victim size (hget j hji ▸ hj) hx

/-- A claim is made or committed. -/
theorem Claims.transfer (h : s.Claims) {victim : ℕ} {v v' : Worker} (hi : s.workers[i]? = some w)
    (hv : s.workers[victim]? = some v) (hne : victim ≠ i)
    (hworkers : t.workers = (s.workers.set victim v').set i w') (hplace : v'.place = v.place)
    (hclaimed : v'.claimed + copying victim w = v.claimed + copying victim w')
    (hown : w'.claimed = w.claimed)
    (hothers : ∀ j, j ≠ victim → copying j w' = copying j w)
    (hcopied : ∀ from' size, w'.place.copied = some (from', size) →
      from' ≠ i ∧ from' < s.workers.length ∧ 0 < size) : t.Claims := by
  have hi₁ : (s.workers.set victim v')[i]? = some w := by
    rw [List.getElem?_set_ne hne, hi]
  have htotal : ∀ j, total (copying j) t.workers + copying j w =
      total (copying j) s.workers + copying j w' := by
    intro j
    have h₁ := total_set (copying j) hv v'
    have h₂ := total_set (copying j) hi₁ w'
    rw [copying_congr (by rw [hplace])] at h₁
    rw [hworkers]
    omega
  have hget : ∀ j x, t.workers[j]? = some x →
      j = i ∧ x = w' ∨ j = victim ∧ x = v' ∨ j ≠ i ∧ j ≠ victim ∧ s.workers[j]? = some x := by
    intro j x hj
    rw [hworkers] at hj
    by_cases hji : j = i
    · subst hji
      rw [List.getElem?_set_self (List.getElem?_eq_some_iff.mp hi₁).1] at hj
      exact .inl ⟨rfl, (Option.some.inj hj).symm⟩
    rw [List.getElem?_set_ne (Ne.symm hji)] at hj
    by_cases hjv : j = victim
    · subst hjv
      rw [List.getElem?_set_self (List.getElem?_eq_some_iff.mp hv).1] at hj
      exact .inr (.inl ⟨rfl, (Option.some.inj hj).symm⟩)
    · rw [List.getElem?_set_ne (Ne.symm hjv)] at hj
      exact .inr (.inr ⟨hji, hjv, hj⟩)
  refine ⟨fun j x hj => ?_, fun j x from' size hj hx => ?_⟩
  · have htot := htotal j
    rcases hget j x hj with ⟨rfl, rfl⟩ | ⟨rfl, rfl⟩ | ⟨-, hjv, hj⟩
    · have := h.claimed j w hi
      have := hothers j (Ne.symm hne)
      omega
    · have := h.claimed j v hv
      omega
    · have := h.claimed j x hj
      have := hothers j hjv
      omega
  · rw [hworkers, List.length_set, List.length_set]
    rcases hget j x hj with ⟨rfl, rfl⟩ | ⟨rfl, rfl⟩ | ⟨-, -, hj⟩
    · exact hcopied from' size hx
    · exact h.others j v from' size hv (hplace ▸ hx)
    · exact h.others j x from' size hj hx

variable {c : Choice}

theorem Claims.worker (h : s.Claims) (hi : s.workers[i]? = some w)
    (hstep : s.next i w c = some t) : t.Claims := by
  cases effect_of_next hstep with
  | plain w' hplain =>
    exact h.own hi hplain.workers hplain.claimed (hplain.copied.2.trans hplain.copied.1.symm)
  | pushed task resume place room after =>
    subst after
    refine h.own hi rfl rfl ?_
    rw [place]
    exact Place.copied_of_plain resume.place_plain
  | kept globalFirst task place after
  | copied globalFirst victim size task stolen rest place after =>
    subst after
    exact h.own hi rfl rfl (by rw [place]; rfl)
  | entered driver place parks after | unparked place running after
  | overflowed task overflow resume place after =>
    subst after
    exact h.own hi rfl rfl (by rw [place]; rfl)
  | claimed globalFirst victim size task rest stolen v place found other pos enough after =>
    subst after
    refine h.transfer hi found other rfl rfl ?_ rfl (fun j hj => ?_) fun from' size' hcopied => ?_
    · simp [copying, place, Place.copied, Worker.goTo]
    · simp [copying, place, Place.copied, Worker.goTo, Ne.symm hj]
    · cases hcopied
      exact ⟨other, (List.getElem?_eq_some_iff.mp found).1, pos⟩
  | committed globalFirst victim size task v place found after =>
    subst after
    have hcopied : w.place.copied = some (victim, size) := by rw [place]; rfl
    have hle := le_total (copying victim) hi
    rw [← h.claimed victim v found] at hle
    have hsize : copying victim w = size := by simp [copying, hcopied]
    refine h.transfer hi found (h.others i w victim size hi hcopied).1 rfl rfl ?_ rfl
      (fun j hj => ?_) fun from' size' hnone => by cases hnone
    · have hzero : copying victim (w.goTo (.leave globalFirst (some task))) = 0 := rfl
      rw [hsize] at hle ⊢
      rw [hzero]
      show v.claimed - size + size = v.claimed + 0
      omega
    · have hzero : copying j (w.goTo (.leave globalFirst (some task))) = 0 := rfl
      rw [hzero]
      simp [copying, hcopied, Ne.symm hj]
  | notified n resume place after =>
    subst after
    refine h.own hi rfl rfl ?_
    rw [place]
    exact Place.copied_of_plain (resume.after_plain _)
  | looked place after | decided place after =>
    subst after
    refine h.own hi rfl rfl ?_
    rw [place, Worker.goTo]
    split_ifs <;> rfl
  | injected tasks resume place after =>
    subst after
    refine h.own hi rfl rfl ?_
    rcases place with place | ⟨task, place, -⟩ <;> rw [place] <;> rfl

/-- Past `has_work`, and before the events of the driver are dispatched. -/
def Rests (w : Worker) (p : Driver.Worker) : Prop :=
  w.place = .enter ∨ w.place = .parked ∧ p.away = false

/-- On the way into an unbounded wait past `has_work`, or in it. -/
def Sinks (w : Worker) (p : Driver.Worker) : Prop :=
  w.place = .enter ∨ w.place = .parked ∧ p.blocks = true

theorem Sinks.rests (h : Sinks w p) : Rests w p := by
  refine h.imp_right fun ⟨hparked, hblocks⟩ => ⟨hparked, ?_⟩
  cases p <;> first | rfl | cases hblocks

theorem Sinks.falls (h : Sinks w p) : Falls w p := by
  refine h.imp_left fun henter => ?_
  rw [henter]
  rfl

structure Resting (s : State) : Prop where
  synced : s.Synced
  claims : s.Claims
  empty : ∀ (i : ℕ) (w : Worker) (p : Driver.Worker), s.workers[i]? = some w →
    s.driver.workers[i]? = some p → Rests w p → w.queue = [] ∧ w.claimed = 0

theorem Resting.new (workers : ℕ) (lifoSlotEnabled : Bool) :
    (State.new workers lifoSlotEnabled).Resting := by
  refine ⟨.new workers lifoSlotEnabled, claims_new workers lifoSlotEnabled,
    fun i w p hi _ _ => ?_⟩
  rw [List.eq_of_mem_replicate (List.mem_of_getElem? hi)]
  exact ⟨rfl, rfl⟩

/-- A step of another worker neither fills the queue of a resting worker nor claims from it. -/
theorem Effect.other (h : Effect s i w t) (hne : v ≠ i)
    (hv : t.workers[v]? = some w') : ∃ x, s.workers[v]? = some x ∧ w'.place = x.place ∧
      (x = w' ∨ x.queue ≠ [] ∨
        w'.queue = x.queue ∧ ∃ size, w.place.copied = some (v, size) ∧
          w'.claimed = x.claimed - size) := by
  have hset : ∀ {w''}, t.workers = s.workers.set i w'' → s.workers[v]? = some w' := by
    intro w'' hworkers
    rwa [hworkers, List.getElem?_set_ne (Ne.symm hne)] at hv
  have hsame : s.workers[v]? = some w' → ∃ x, s.workers[v]? = some x ∧ w'.place = x.place ∧
      (x = w' ∨ x.queue ≠ [] ∨
        w'.queue = x.queue ∧ ∃ size, w.place.copied = some (v, size) ∧
          w'.claimed = x.claimed - size) := fun hx => ⟨w', hx, rfl, .inl rfl⟩
  cases h with
  | plain w'' hplain => exact hsame (hset hplain.workers)
  | claimed globalFirst victim size task rest stolen x place found other pos enough after =>
    subst after
    by_cases hvv : v = victim
    · subst hvv
      have hv : ((s.workers.set v _).set i _)[v]? = some w' := hv
      rw [List.getElem?_set_ne (Ne.symm hne),
        List.getElem?_set_self (List.getElem?_eq_some_iff.mp found).1] at hv
      cases hv
      refine ⟨x, found, rfl, .inr (.inl fun hempty => ?_)⟩
      rw [hempty] at enough
      exact absurd enough (by simp; omega)
    · have hv : ((s.workers.set victim _).set i _)[v]? = some w' := hv
      rw [List.getElem?_set_ne (Ne.symm hne), List.getElem?_set_ne (Ne.symm hvv)] at hv
      exact hsame hv
  | committed globalFirst victim size task x place found after =>
    subst after
    by_cases hvv : v = victim
    · subst hvv
      have hv : ((s.workers.set v _).set i _)[v]? = some w' := hv
      rw [List.getElem?_set_ne (Ne.symm hne),
        List.getElem?_set_self (List.getElem?_eq_some_iff.mp found).1] at hv
      cases hv
      exact ⟨x, found, rfl, .inr (.inr ⟨rfl, size, by rw [place]; rfl, rfl⟩)⟩
    · have hv : ((s.workers.set victim _).set i _)[v]? = some w' := hv
      rw [List.getElem?_set_ne (Ne.symm hne), List.getElem?_set_ne (Ne.symm hvv)] at hv
      exact hsame hv
  | pushed _ _ _ _ after | kept _ _ _ after | copied _ _ _ _ _ _ _ after | looked _ after
  | notified _ _ _ after | decided _ after | entered _ _ _ after | unparked _ _ after
  | overflowed _ _ _ _ after | injected _ _ _ after =>
    subst after
    exact hsame (hset rfl)

theorem Resting.worker (h : s.Resting) (hi : s.workers[i]? = some w)
    (hstep : s.next i w c = some t) : t.Resting := by
  have heffect := effect_of_next hstep
  refine ⟨h.synced.worker hi hstep, h.claims.worker hi hstep, fun j x q hj hq hrests => ?_⟩
  by_cases hji : j = i
  · subst hji
    obtain ⟨w', ⟨hi', -, -⟩, hcase⟩ := heffect.frame hi
    obtain rfl : w' = x := Option.some.inj (hi'.symm.trans hj)
    rcases hcase with hstays | ⟨henter, rfl, -, -⟩ | ⟨-, hnext, -, -⟩
    · rcases hrests with henter | ⟨hparked, haway⟩
      · have hfalls : Falls w' q := .inl (by rw [henter]; rfl)
        rcases hstays.falls h.synced hi hq hfalls with ⟨-, hlooked, -⟩ | ⟨-, rfl, -, hlen, -⟩
        · rw [henter] at hlooked
          cases hlooked
        · have hlen : w.queue.length + w.claimed = 0 := hlen
          have hqueue : w.queue.length = 0 := by omega
          have hclaimed : w.claimed = 0 := by omega
          exact ⟨List.length_eq_zero_iff.mp hqueue, hclaimed⟩
      · rw [hstays.releases_of_parked h.synced hi hparked] at hq
        cases hq
        cases haway
    · obtain ⟨p, hp⟩ := h.synced.driver_worker hi
      exact h.empty j w p hi hp (.inl henter)
    · rcases hrests with henter | ⟨hparked, -⟩
      · rw [hnext] at henter
        cases henter
      · rw [hnext] at hparked
        cases hparked
  · obtain ⟨x', hx', hplace, hqueue⟩ := heffect.other hji hj
    rw [heffect.driver_workers hi hji] at hq
    have hrests' : Rests x' q := by
      unfold Rests
      rw [← hplace]
      exact hrests
    obtain ⟨hempty, hclaimed⟩ := h.empty j x' q hx' hq hrests'
    rcases hqueue with rfl | hne | ⟨hqueue, size, -, hclaimed'⟩
    · exact ⟨hempty, hclaimed⟩
    · exact absurd hempty hne
    · exact ⟨hqueue.trans hempty, by omega⟩

theorem Resting.driver (h : s.Resting) {l : Driver.Label} {driver : DriverShared}
    (howned : s.ownedBy l = true) (hstep : s.driver.step l = some driver) :
    Resting { s with driver } := by
  refine ⟨h.synced.driver howned hstep, ⟨h.claims.claimed, h.claims.others⟩,
    fun i w q hi hq hrests => ?_⟩
  have hi : s.workers[i]? = some w := hi
  obtain ⟨p, hp⟩ := h.synced.driver_worker hi
  refine h.empty i w p hi hp (hrests.imp_right fun ⟨hparked, haway⟩ => ⟨hparked, ?_⟩)
  by_contra htrue
  rw [Bool.not_eq_false] at htrue
  rw [DriverShared.away_of_step hstep (ownedBy_worker howned).1 hp hq htrue] at haway
  cases haway

theorem Resting.step (h : s.Resting) {l : Label} (hstep : s.step l = some t) : t.Resting := by
  obtain ⟨i, c, w, rfl, hi, hnext⟩ | ⟨task, driver, rfl, hunpark, rfl⟩ |
    ⟨l, driver, rfl, howned, hdriver, rfl⟩ := step_cases hstep
  · exact h.worker hi hnext
  · cases hunpark
    exact ⟨h.synced.push rfl _, ⟨h.claims.claimed, h.claims.others⟩, h.empty⟩
  · exact h.driver howned hdriver

instance (w : Worker) (p : Driver.Worker) : Decidable (Sinks w p) :=
  inferInstanceAs (Decidable (_ ∨ _))

/-- Worker `v` is on the way into an unbounded wait, or in it, and no wake is on its way. -/
def Unalerted (s : State) (v : ℕ) : Prop :=
  match s.workers[v]?, s.driver.workers[v]? with
  | some w, some p => Sinks w p ∧ ¬ s.driver.Alerted p
  | _, _ => False

instance (s : State) (v : ℕ) : Decidable (s.Unalerted v) := by
  unfold Unalerted
  split <;> infer_instance

/-- Worker `u` has nothing to steal, or a wake is on its way. -/
def Unstealable (s : State) (u : ℕ) : Prop :=
  ∀ x ∈ s.workers[u]?, x.backlog = [] ∨ s.driver.Alerted .running ∨ x.place.alerting = true

instance (s : State) (u : ℕ) : Decidable (s.Unstealable u) := by
  unfold Unstealable
  infer_instance

/-- The local path of `schedule` puts nothing into the queue while another worker is unalerted, and
`has_work` finds nothing only when the others have nothing to steal. -/
def Heeds (s : State) (i : ℕ) (w : Worker) : Prop :=
  match w.place with
  | .push _ _ => w.len < capacity → ∀ v < s.workers.length, v ≠ i → ¬ s.Unalerted v
  | .checkLocal =>
      w.lifo = none → w.len = 0 → ∀ u < s.workers.length, u ≠ i → s.Unstealable u
  | _ => True

instance (s : State) (i : ℕ) (w : Worker) : Decidable (s.Heeds i w) := by
  unfold Heeds
  split <;> infer_instance

/-- With two workers, both looks see what the other one has. -/
def Fits (s : State) : Label → Prop
  | .worker i .next => s.workers.length = 2 → ∀ w ∈ s.workers[i]?, s.Heeds i w
  | _ => True

instance (s : State) (l : Label) : Decidable (Fits s l) := by
  unfold Fits
  split <;> infer_instance

/-- What the other worker could steal is announced by a wake. -/
structure Announced (s : State) : Prop where
  resting : s.Resting
  announced : s.workers.length = 2 → ∀ (v u : ℕ) (w x : Worker) (p : Driver.Worker), v ≠ u →
    s.workers[v]? = some w → s.workers[u]? = some x → s.driver.workers[v]? = some p →
    Sinks w p → x.backlog = [] ∨ s.driver.Alerted p ∨ x.place.alerting = true

theorem Announced.new (workers : ℕ) (lifoSlotEnabled : Bool) :
    (State.new workers lifoSlotEnabled).Announced := by
  refine ⟨.new workers lifoSlotEnabled, fun _ v u w x p _ _ hu _ _ => .inl ?_⟩
  rw [List.eq_of_mem_replicate (List.mem_of_getElem? hu)]
  rfl

theorem backlog_nil_of_parked (hplace : x.place = .parked) (hqueue : x.queue = []) :
    x.backlog = [] := by
  rw [Worker.backlog_of_plain (by rw [hplace]; rfl), hqueue]

/-- The other worker is out of the driver, or it has nothing to steal. -/
theorem Resting.onlyBound (h : s.Resting) (htwo : s.workers.length = 2) (hne : v ≠ u)
    (hv : s.workers[v]? = some w) (hu : s.workers[u]? = some x) :
    x.backlog = [] ∨ s.driver.OnlyBound v := by
  obtain ⟨q, hq⟩ := h.synced.driver_worker hu
  cases haway : q.away with
  | true =>
    refine .inr fun j r hj hr => ?_
    have hltv := (List.getElem?_eq_some_iff.mp hv).1
    have hltu := (List.getElem?_eq_some_iff.mp hu).1
    have hltj := (List.getElem?_eq_some_iff.mp hr).1
    have hlength := h.synced.length
    obtain rfl : j = u := by omega
    cases hq.symm.trans hr
    exact haway
  | false =>
    have hparked : x.place = .parked := by
      cases hin : x.place.inDriver with
      | false =>
        rw [h.synced.outside u x hu hin] at hq
        cases hq
        cases haway
      | true =>
        by_contra hnot
        rw [h.synced.dispatch u x hu hin hnot] at hq
        cases hq
        cases haway
    exact .inl (backlog_nil_of_parked hparked (h.empty u x q hu hq (.inr ⟨hparked, haway⟩)).1)

theorem Announced.driver (h : s.Announced) {l : Driver.Label} {driver : DriverShared}
    (howned : s.ownedBy l = true) (hstep : s.driver.step l = some driver) :
    Announced { s with driver } := by
  have hresting := h.resting.driver howned hstep
  refine ⟨hresting, fun htwo v u w x q hne hv hu hq hsinks => ?_⟩
  have htwo : s.workers.length = 2 := htwo
  have hv : s.workers[v]? = some w := hv
  have hu : s.workers[u]? = some x := hu
  obtain ⟨p, hp⟩ := h.resting.synced.driver_worker hv
  have hbefore : Sinks w p := hsinks.imp_right fun ⟨hparked, hblocks⟩ =>
    ⟨hparked, DriverShared.blocks_of_step hstep (ownedBy_worker howned).1 hp hq hblocks⟩
  rcases h.announced htwo v u w x p hne hv hu hp hbefore with hempty | halerted | halerting
  · exact .inl hempty
  · rcases h.resting.onlyBound htwo hne hv hu with hempty | honly
    · exact .inl hempty
    · exact .inr (.inl (halerted.step h.resting.synced.tallied hp
        (h.resting.synced.bound hv hp hbefore.falls) honly hstep hq
        (hresting.synced.bound hv hq hsinks.falls)))
  · exact .inr (.inr halerting)

/-- The worker that may be blocked makes a step. -/
theorem Announced.self (h : s.Announced) (hi : s.workers[i]? = some w)
    (hstep : s.next i w c = some t) (hfits : s.Fits (.worker i c)) (htwo : s.workers.length = 2)
    (hne : i ≠ u) (hi' : t.workers[i]? = some w') (hu : t.workers[u]? = some x)
    (hq : t.driver.workers[i]? = some q) (hsinks : Sinks w' q) :
    x.backlog = [] ∨ t.driver.Alerted q ∨ x.place.alerting = true := by
  have hsynced := h.resting.synced
  obtain ⟨w'', ⟨hi'', -, -⟩, hcase⟩ := (effect_of_next hstep).frame hi
  obtain rfl : w'' = w' := Option.some.inj (hi''.symm.trans hi')
  have hother : ∀ driver, t = { s with driver }.setWorker i w'' → s.workers[u]? = some x := by
    intro driver ht
    rw [ht] at hu
    exact (List.getElem?_set_ne hne).symm.trans hu
  rcases hcase with hstays | ⟨henter, rfl, hpark, ht⟩ | ⟨-, hnext, -, -⟩
  · rcases hstays.falls hsynced hi hq hsinks.falls with ⟨-, hlooked, -⟩ | ⟨hplace, rfl, hlifo, hlen, ht⟩
    · rcases hsinks with henter | ⟨hparked, -⟩
      · rw [hlooked] at henter
        cases henter
      · rw [hlooked] at hparked
        cases hparked
    · have hx := hother s.driver ht
      have hlt := (List.getElem?_eq_some_iff.mp hx).1
      have hout : s.driver.workers[i]? = some .running :=
        hsynced.outside i w hi (by rw [hplace]; rfl)
      have hrunning : q = .running := by
        rw [ht] at hq
        exact Option.some.inj (hq.symm.trans hout)
      have hnext : c = .next := by
        cases c with
        | next => rfl
        | spurious | start | claim | schedule | returns =>
          simp only [next, hplace] at hstep
          cases hstep
      subst hnext
      have hheeds : s.Heeds i w := hfits htwo w hi
      unfold Heeds at hheeds
      rw [hplace] at hheeds
      rcases hheeds hlifo hlen u hlt hne.symm x hx with hempty | halerted | halerting
      · exact .inl hempty
      · rw [ht, hrunning]
        exact .inr (.inl halerted)
      · exact .inr (.inr halerting)
  · have hx := hother t.driver ht
    obtain ⟨p, hp⟩ := hsynced.driver_worker hi
    have hbefore : Sinks w p := .inl henter
    rcases h.announced htwo i u w x p hne hi hx hp hbefore with hempty | halerted | halerting
    · exact .inl hempty
    · rcases h.resting.onlyBound htwo hne hi hx with hempty | honly
      · exact .inl hempty
      · exact .inr (.inl (halerted.step hsynced.tallied hp (hsynced.bound hi hp hbefore.falls)
          honly hpark hq ((hsynced.worker hi hstep).bound hi' hq hsinks.falls)))
    · exact .inr (.inr halerting)
  · rcases hsinks with henter | ⟨hparked, -⟩
    · rw [hnext] at henter
      cases henter
    · rw [hnext] at hparked
      cases hparked

/-- Nobody but the worker that may be blocked could have claimed something. -/
theorem Resting.claimed_zero (h : s.Resting) (htwo : s.workers.length = 2) (hne : v ≠ u)
    (hv : s.workers[v]? = some w) (hu : s.workers[u]? = some x) (hcopied : w.place.copied = none) :
    x.claimed = 0 := by
  rw [h.claims.claimed u x hu]
  refine total_eq_zero_iff.mpr fun y hy => ?_
  obtain ⟨j, hj⟩ := List.mem_iff_getElem?.mp hy
  have hltv := (List.getElem?_eq_some_iff.mp hv).1
  have hltu := (List.getElem?_eq_some_iff.mp hu).1
  have hltj := (List.getElem?_eq_some_iff.mp hj).1
  unfold copying
  split
  · rename_i from' size hsize
    split_ifs with hfrom
    · subst hfrom
      have hother := (h.claims.others j y from' size hj hsize).1
      obtain rfl : j = v := by omega
      cases hv.symm.trans hj
      rw [hcopied] at hsize
      cases hsize
    · rfl
  · rfl

theorem Announced.other (h : s.Announced) (hi : s.workers[i]? = some x)
    (hstep : s.next i x c = some t) (hfits : s.Fits (.worker i c)) (htwo : s.workers.length = 2)
    (hne : v ≠ i) (hv : s.workers[v]? = some w) (hp : s.driver.workers[v]? = some p)
    (hsinks : Sinks w p) {x' : Worker} (hi' : t.workers[i]? = some x') :
    x'.backlog = [] ∨ t.driver.Alerted p ∨ x'.place.alerting = true := by
  have hresting := h.resting
  have hcopied : w.place.copied = none := by
    rcases hsinks with hplace | ⟨hplace, -⟩ <;> rw [hplace] <;> rfl
  have hclaimed := hresting.claimed_zero htwo hne hv hi hcopied
  have hempty := hresting.empty v w p hv hp hsinks.rests
  have hbefore := h.announced htwo v i w x p hne hv hi hp hsinks
  have hltv := (List.getElem?_eq_some_iff.mp hv).1
  have hlti := (List.getElem?_eq_some_iff.mp hi).1
  have hget : ∀ {y}, t.workers = s.workers.set i y → y = x' := by
    intro y hworkers
    rw [hworkers, List.getElem?_set_self hlti] at hi'
    exact Option.some.inj hi'
  have hkept : x'.backlog = x.backlog → t.driver = s.driver → x.place.alerting = false →
      x'.backlog = [] ∨ t.driver.Alerted p ∨ x'.place.alerting = true := by
    intro hbacklog hdriver hsilent
    rw [hbacklog, hdriver]
    rcases hbefore with hempty | halerted | halerting
    · exact .inl hempty
    · exact .inr (.inl halerted)
    · rw [hsilent] at halerting
      cases halerting
  have hcopies : ∀ victim size, x.place.copied = some (victim, size) → False := by
    intro victim size hsize
    obtain ⟨hother, hlt, hpos⟩ := hresting.claims.others i x victim size hi hsize
    obtain rfl : victim = v := by omega
    have hle := le_total (copying victim) hi
    rw [← hresting.claims.claimed victim w hv, hempty.2] at hle
    simp only [copying, hsize, if_true] at hle
    omega
  cases effect_of_next hstep with
  | plain y hplain =>
    obtain rfl := hget hplain.workers
    rw [hplain.driver]
    exact hbefore.imp (hplain.backlog hclaimed) (.imp_right hplain.alerting)
  | pushed task resume place room after =>
    subst after
    have hnext : c = .next := by
      cases c with
      | next => rfl
      | spurious | start | claim | schedule | returns =>
        simp only [next, place] at hstep
        cases hstep
    subst hnext
    have hheeds : s.Heeds i x := hfits htwo x hi
    unfold Heeds at hheeds
    rw [place] at hheeds
    have hheard := hheeds room v hltv hne
    unfold Unalerted at hheard
    rw [hv, hp] at hheard
    by_contra hnone
    exact hheard ⟨hsinks, fun halerted => hnone (.inr (.inl halerted))⟩
  | kept globalFirst task place after =>
    subst after
    obtain rfl := hget rfl
    refine hkept ?_ rfl (by rw [place]; rfl)
    rw [Worker.backlog_of_plain (w := x) (by rw [place]; rfl)]
    exact List.dropLast_concat
  | claimed globalFirst victim size task rest stolen y place found other pos enough after =>
    have hltvictim := (List.getElem?_eq_some_iff.mp found).1
    obtain rfl : victim = v := by omega
    cases hv.symm.trans found
    rw [hempty.1] at enough
    simp only [List.length_nil] at enough
    omega
  | copied globalFirst victim size task stolen rest place after
  | committed globalFirst victim size task y place found after =>
    exact absurd (hcopies victim size (by rw [place]; rfl)) id
  | notified n resume place after =>
    subst after
    obtain rfl := hget rfl
    rw [place] at hbefore
    have hqueue : x.backlog = x.queue := Worker.backlog_of_plain (by rw [place]; rfl)
    have hplain : (x.goTo (resume.after (s.driver.signal n).2)).place.plain = true :=
      resume.after_plain _
    rcases hbefore with hempty | halerted | halerting
    · rw [Worker.backlog_of_plain hplain]
      exact .inl (hqueue.symm.trans hempty)
    · exact .inr (.inl (halerted.signal n))
    · rcases hresting.onlyBound htwo hne hv hi with hempty | honly
      · rw [Worker.backlog_of_plain hplain]
        exact .inl (hqueue.symm.trans hempty)
      have hwaiters := honly.waiters hresting.synced.tallied hp
        (hresting.synced.bound hv hp hsinks.falls)
      have hn : n ≠ .decided true := of_decide_eq_true halerting
      rcases DriverShared.signal_cases hwaiters hn with hwoken | ⟨m, hm, hnotify⟩
      · exact .inr (.inl (.inl hwoken))
      · refine .inr (.inr ?_)
        rw [Worker.goTo, hm]
        exact decide_eq_true hnotify
  | looked place after | decided place after =>
    subst after
    obtain rfl := hget rfl
    refine hkept ?_ rfl (by rw [place]; rfl)
    unfold Worker.backlog
    rw [place, Worker.goTo]
    split_ifs <;> rfl
  | entered driver place parks after =>
    subst after
    obtain rfl := hget rfl
    obtain ⟨q, hq⟩ := hresting.synced.driver_worker hi
    exact .inl (backlog_nil_of_parked rfl (hresting.empty i x q hi hq (.inl place)).1)
  | unparked place running after =>
    subst after
    obtain rfl := hget rfl
    refine hkept ?_ rfl (by rw [place]; rfl)
    rw [Worker.backlog_of_plain (w := x) (by rw [place]; rfl)]
    rfl
  | overflowed task overflow resume place after | injected tasks resume place after =>
    subst after
    obtain rfl := hget rfl
    exact .inr (.inr rfl)

theorem Announced.worker (h : s.Announced) (hi : s.workers[i]? = some w)
    (hstep : s.next i w c = some t) (hfits : s.Fits (.worker i c)) : t.Announced := by
  have heffect := effect_of_next hstep
  obtain ⟨w', ⟨hi', hkept, hlength⟩, -⟩ := heffect.frame hi
  refine ⟨h.resting.worker hi hstep, fun htwo v u y x p hne hv hu hp hsinks => ?_⟩
  have hlti := (List.getElem?_eq_some_iff.mp hi).1
  have hltv := (List.getElem?_eq_some_iff.mp hv).1
  have hltu := (List.getElem?_eq_some_iff.mp hu).1
  rw [hlength] at htwo
  by_cases hvi : v = i
  · subst hvi
    exact h.self hi hstep hfits htwo hne hv hu hp hsinks
  · obtain rfl : u = i := by omega
    obtain ⟨y', hy', hplace, -⟩ := hkept.exists_of hvi hv
    rw [heffect.driver_workers hi hvi] at hp
    refine h.other hi hstep hfits htwo hvi hy' hp ?_ hu
    unfold Sinks
    rw [hplace]
    exact hsinks

theorem Announced.step (h : s.Announced) {l : Label} (hfits : s.Fits l)
    (hstep : s.step l = some t) :
    t.Announced := by
  have hresting := h.resting.step hstep
  obtain ⟨i, c, w, rfl, hi, hnext⟩ | ⟨task, driver, rfl, hunpark, rfl⟩ |
    ⟨l, driver, rfl, howned, hdriver, rfl⟩ := step_cases hstep
  · exact h.worker hi hnext hfits
  · cases hunpark
    refine ⟨hresting, fun _ _ _ _ _ _ _ _ _ _ _ =>
      .inr (.inl (.inr (.inr ⟨⟨none, .starts⟩, ?_, nofun⟩)))⟩
    exact List.mem_append_right _ (List.mem_singleton_self _)
  · exact h.driver howned hdriver

def burdened (w : Worker) : Bool :=
  match w.place with
  | .poll _ => !w.queue.isEmpty
  | _ => false

/-- A worker polls with a stealable task in its local queue, nobody is in `schedule` or
`notify_driver`, and all the others are blocked. -/
def Wasted (s : State) : Prop :=
  ∃ i < s.workers.length, s.workers[i]?.any burdened = true ∧ s.driver.callers = [] ∧
    ∀ j < s.workers.length, j ≠ i → s.Blocked j

instance (s : State) : Decidable s.Wasted := by
  unfold Wasted
  infer_instance

theorem burdened_iff (h : burdened w = true) : (∃ task, w.place = .poll task) ∧ w.queue ≠ [] := by
  unfold burdened at h
  split at h
  · rename_i task hplace
    exact ⟨⟨task, hplace⟩, by simpa using h⟩
  · cases h

/-- In a run whose steps meet the condition no work is left to a single busy worker. -/
theorem work_is_conserved (workers : ℕ) (hworkers : 2 ≤ workers) (lifoSlotEnabled : Bool)
    (s : State) (hs : Reachable State.step Fits (.new workers lifoSlotEnabled) s) : ¬ s.Wasted := by
  have hlength := length_of_reachable hs
  have h : s.Announced := hs.invariant (.new workers lifoSlotEnabled)
    fun _ _ _ h hfits hstep => h.step hfits hstep
  have hsynced := h.resting.synced
  rintro ⟨i, hlt, hburdened, hcallers, hblocked⟩
  obtain ⟨x, hx, hburdened⟩ := (Option.any_eq_true ..).mp hburdened
  obtain ⟨⟨task, hpoll⟩, hqueue⟩ := burdened_iff hburdened
  have htwo : s.workers.length = 2 := by
    by_contra hne
    obtain ⟨j, k, hj, hk, hji, hki, hjk⟩ : ∃ j k, j < s.workers.length ∧ k < s.workers.length ∧
        j ≠ i ∧ k ≠ i ∧ j ≠ k := by
      rcases i with _ | _ | i
      · exact ⟨1, 2, by omega, by omega, by omega, by omega, by omega⟩
      · exact ⟨0, 2, by omega, by omega, by omega, by omega, by omega⟩
      · exact ⟨0, 1, by omega, by omega, by omega, by omega, by omega⟩
    exact hjk (hsynced.eq_of_blocked (hblocked j hj hji) (hblocked k hk hki))
  have hother : 1 - i < s.workers.length ∧ 1 - i ≠ i := by omega
  have hv := hblocked (1 - i) hother.1 hother.2
  obtain ⟨p, hp, hparked, hblocks, hnotifying⟩ :=
    hsynced.parked_of_blocked (List.getElem?_eq_getElem hother.1) hv
  rcases h.announced htwo (1 - i) i _ x p hother.2 (List.getElem?_eq_getElem hother.1) hx hp
      (.inr ⟨hparked, hblocks⟩) with hempty | halerted | halerting
  · rw [Worker.backlog_of_plain (by rw [hpoll]; rfl)] at hempty
    exact hqueue hempty
  · obtain ⟨c, hc, -⟩ := hnotifying halerted
    rw [hcallers] at hc
    cases hc
  · rw [hpoll] at halerting
    cases halerting

/-- The search of a worker that finds nothing, when nobody else is searching or parked. -/
def searchSteps (i : ℕ) : List Label :=
  [.worker i .next, .worker i .next, .worker i .next, .worker i .next, .worker i (.start 0),
    .worker i (.claim 0), .worker i .next, .worker i .next, .worker i .next]

/-- The poll of a worker calls `schedule`, which takes `n` more steps. -/
def scheduleSteps (i task n : ℕ) : List Label :=
  .worker i (.schedule task i) :: List.replicate n (.worker i .next)

/-- Worker 1 is in the kernel wait, but the poller was woken. -/
theorem work_is_conserved_after_wake :
    ∃ s, Reachable State.step Fits (.new 2 true) s ∧ ¬ s.Wasted ∧
      s.workers[0]?.any burdened = true ∧
      s.driver.workers[1]? = some (.waits ⟨0, none⟩) := by
  have hrun : (run (guarded State.step Fits) (.new 2 true)
      (searchSteps 1 ++ List.replicate 5 (Label.worker 1 .next) ++
        List.replicate 4 (Label.driver (.worker 1)) ++ Label.push 5 ::
        List.replicate 3 (Label.driver (.caller 0)) ++
        searchSteps 0 ++ List.replicate 8 (Label.worker 0 .next) ++
        scheduleSteps 0 6 1 ++ scheduleSteps 0 7 2)).any (fun s => decide (
          s.workers[0]?.any burdened = true ∧
          s.driver.workers[1]? = some (.waits ⟨0, none⟩))) = true := by
    decide +kernel
  obtain ⟨s, hreach, hs⟩ := exists_reachable_of_run hrun
  obtain ⟨hburdened, hwaits⟩ := of_decide_eq_true hs
  exact ⟨s, hreach, work_is_conserved 2 (by decide) true s hreach, hburdened, hwaits⟩

/-- A task spawns two others while the only other worker is in the kernel wait. -/
theorem work_is_wasted :
    ∃ s, Reachable State.step anyStep (.new 2 true) s ∧ s.Wasted := by
  have hrun : (run (guarded State.step anyStep) (.new 2 true)
      (Label.push 5 :: List.replicate 3 (Label.driver (.caller 0)) ++
        searchSteps 0 ++ List.replicate 4 (Label.worker 0 .next) ++
        searchSteps 1 ++ List.replicate 5 (Label.worker 1 .next) ++
        List.replicate 3 (Label.driver (.worker 1)) ++ Label.driver (.returns 1 true) ::
        List.replicate 2 (Label.driver (.worker 1)) ++ Label.worker 1 .next ::
        searchSteps 1 ++ List.replicate 5 (Label.worker 1 .next) ++
        List.replicate 4 (Label.driver (.worker 1)) ++
        scheduleSteps 0 6 1 ++ scheduleSteps 0 7 2)).any (fun s => decide s.Wasted) = true := by
    decide +kernel
  obtain ⟨s, hreach, hs⟩ := exists_reachable_of_run hrun
  exact ⟨s, hreach, of_decide_eq_true hs⟩

end State

end Eddy.WorkerLoop
