import Mathlib.Data.List.Nodup
import Mathlib.Data.List.Perm.Basic
import Eddy.Interleaving

/-!
# The waiters of a cancellation token

`Cancelled` of `cancellation.rs`, for one token: its futures are polled and dropped while any number
of calls of `cancel` go on, of this token or of one that it was derived from. A waker is named by the
task that it wakes. The children, which a call cancels afterwards, are other tokens. Ids do not
overflow.
-/

namespace Eddy.CancellationWaiters
open Interleaving

/-- An entry of `Inner::waiters`. -/
structure Waiter where
  id : ℕ
  waker : ℕ
  /-- The future that pushed the entry, which the code does not see. -/
  owner : ℕ

inductive Stage where
  /-- It is not being polled. -/
  | idle
  /-- `poll` looks at the flag next. -/
  | check (waker : ℕ)
  /-- `poll` takes the lock next. -/
  | register (waker : ℕ)
  /-- Under the lock, `poll` looks at the flag again. -/
  | recheck (waker : ℕ)
  /-- Under the lock, `poll` wakes its own waker. -/
  | wake (waker : ℕ)
  | dropped

def Stage.locks : Stage → Bool
  | .recheck _ | .wake _ => true
  | _ => false

structure Cancelled where
  waiterId : Option ℕ
  stage : Stage
  /-- The waker of the last poll, when that has returned `Pending`. -/
  pending : Option ℕ
  /-- How many wakes there had been when the future was last polled. -/
  called : ℕ

/-- A call of `cancel`. -/
inductive Cancel where
  | swap
  /-- It takes the waiters next. -/
  | drain
  | wake (waiters : List Waiter)
  | done

structure State where
  cancelled : Bool
  waiters : List Waiter
  nextWaiterId : ℕ
  /-- The future whose poll holds the lock of `waiters`. -/
  lock : Option ℕ
  futures : List Cancelled
  cancels : List Cancel
  woken : List ℕ

inductive Label where
  | cancelled
  | poll (i waker : ℕ)
  /-- The poll goes on. -/
  | goOn (i : ℕ)
  | drop (i : ℕ)
  | cancel
  /-- The call of `cancel` goes on. -/
  | run (k : ℕ)

/-- `Vec::swap_remove` -/
def swapRemove {α : Type} (xs : List α) (position : ℕ) : List α :=
  match xs.getLast? with
  | some last => (xs.set position last).dropLast
  | none => xs

def updateWaker (id waker : ℕ) : List Waiter → Option (List Waiter)
  | [] => none
  | x :: xs =>
    if x.id = id then some ((if x.waker = waker then x else { x with waker := waker }) :: xs)
    else (updateWaker id waker xs).map (x :: ·)

def removeWaiter (id : ℕ) (waiters : List Waiter) : List Waiter :=
  match waiters.findIdx? (fun x => decide (x.id = id)) with
  | some position => swapRemove waiters position
  | none => waiters

namespace State

def new : State := ⟨false, [], 0, none, [], [], []⟩

def future (s : State) (i : ℕ) : Option Cancelled := s.futures[i]?

def put (s : State) (i : ℕ) (f : Cancelled) : State := { s with futures := s.futures.set i f }

/-- A new entry for the future. -/
def pushWaiter (s : State) (i : ℕ) (f : Cancelled) (waker : ℕ) : State :=
  put { s with
    waiters := s.waiters ++ [⟨s.nextWaiterId, waker, i⟩]
    nextWaiterId := s.nextWaiterId + 1 } i
    { f with waiterId := some s.nextWaiterId, stage := .recheck waker }

/-- `poll` under the lock, up to the second look at the flag. -/
def register (s : State) (i : ℕ) (f : Cancelled) (waker : ℕ) : State :=
  match f.waiterId with
  | some id =>
    match updateWaker id waker s.waiters with
    | some waiters => { s with waiters := waiters }.put i { f with stage := .recheck waker }
    | none => s.pushWaiter i f waker
  | none => s.pushWaiter i f waker

/-- The next step of `poll`. -/
def runPoll (s : State) (i : ℕ) (f : Cancelled) : Option State :=
  match f.stage with
  | .check waker =>
      some (s.put i { f with stage := if s.cancelled then .idle else .register waker })
  | .register waker =>
      if s.lock.isSome then none else some { s.register i f waker with lock := some i }
  | .recheck waker =>
      if s.cancelled then some (s.put i { f with stage := .wake waker })
      else some ({ s with lock := none }.put i { f with stage := .idle, pending := some waker })
  | .wake waker =>
      some ({ s with lock := none, woken := s.woken ++ [waker] }.put i
        { f with stage := .idle, pending := some waker })
  | .idle | .dropped => none

def startPoll (s : State) (i waker : ℕ) (f : Cancelled) : Option State :=
  match f.stage with
  | .idle =>
      some (s.put i { f with stage := .check waker, pending := none, called := s.woken.length })
  | _ => none

def dropFuture (s : State) (i : ℕ) (f : Cancelled) : Option State :=
  match f.stage with
  | .idle =>
    match f.waiterId with
    | some id =>
      if s.lock.isSome then none
      else
        some ({ s with waiters := removeWaiter id s.waiters }.put i
          { f with waiterId := none, stage := .dropped, pending := none })
    | none => some (s.put i { f with stage := .dropped, pending := none })
  | _ => none

/-- The call goes on as `c`. -/
def turn (s : State) (k : ℕ) (c : Cancel) : State := { s with cancels := s.cancels.set k c }

def runCancel (s : State) (k : ℕ) : Cancel → Option State
  | .swap =>
      some (if s.cancelled then s.turn k .done else { s with cancelled := true }.turn k .drain)
  | .drain =>
      if s.lock.isSome then none else some ({ s with waiters := [] }.turn k (.wake s.waiters))
  | .wake [] => some (s.turn k .done)
  | .wake (x :: xs) => some ({ s with woken := s.woken ++ [x.waker] }.turn k (.wake xs))
  | .done => none

def step (s : State) : Label → Option State
  | .cancelled => some { s with futures := s.futures ++ [⟨none, .idle, none, 0⟩] }
  | .poll i waker => (s.future i).bind (s.startPoll i waker)
  | .goOn i => (s.future i).bind (s.runPoll i)
  | .drop i => (s.future i).bind (s.dropFuture i)
  | .cancel => some { s with cancels := s.cancels ++ [.swap] }
  | .run k => s.cancels[k]?.bind (s.runCancel k)

/-- Nothing is lost, and nothing leaks. -/
structure Kept (s : State) : Prop where
  /-- Once the token is cancelled and every call of `cancel` has returned, the waker of a last poll
  that returned `Pending` has been woken since that poll began. -/
  woken : ∀ i f waker, s.future i = some f → f.pending = some waker → s.cancelled = true →
    (∀ c ∈ s.cancels, c = .done) → waker ∈ s.woken.drop f.called
  /-- A future has one entry at most. -/
  once : (s.waiters.map Waiter.owner).Nodup
  live : ∀ x ∈ s.waiters, ∃ f, s.future x.owner = some f ∧ f.stage ≠ .dropped

end State

section
variable {α : Type} {xs : List α} {position id waker : ℕ} {waiters waiters' : List Waiter}

theorem swapRemove_perm (h : position < xs.length) :
    (swapRemove xs position).Perm (xs.eraseIdx position) := by
  rcases List.eq_nil_or_concat xs with rfl | ⟨front, last, rfl⟩
  · cases h
  · rw [List.concat_eq_append] at h ⊢
    rw [swapRemove, List.getLast?_concat]
    simp only
    rcases Nat.lt_or_ge position front.length with hlt | hge
    · rw [List.set_append_left _ _ hlt, List.dropLast_concat, List.eraseIdx_append_of_lt_length hlt]
      exact (List.set_perm_cons_eraseIdx hlt last).trans (List.perm_append_singleton last _).symm
    · have hlast : position = front.length := by
        simp at h
        omega
      subst hlast
      rw [List.set_append_right _ _ le_rfl, List.eraseIdx_append_of_length_le le_rfl]
      simp

/-- What `drop` leaves. -/
theorem removeWaiter_perm :
    (removeWaiter id waiters).Perm (waiters.eraseP fun x => decide (x.id = id)) := by
  rw [removeWaiter, List.eraseP_eq_eraseIdx]
  cases hfind : waiters.findIdx? fun x => decide (x.id = id) with
  | none => exact .refl _
  | some position =>
    exact swapRemove_perm (List.findIdx?_eq_some_iff_findIdx_eq.mp hfind).1

theorem nodup_removeWaiter (h : (waiters.map Waiter.id).Nodup) :
    ((removeWaiter id waiters).map Waiter.id).Nodup :=
  ((removeWaiter_perm.map _).nodup_iff).mpr (h.sublist ((List.eraseP_sublist).map _))

theorem mem_removeWaiter (h : (waiters.map Waiter.id).Nodup) {x : Waiter} :
    x ∈ removeWaiter id waiters ↔ x ∈ waiters ∧ x.id ≠ id := by
  rw [removeWaiter_perm.mem_iff]
  constructor
  · intro hx
    refine ⟨List.mem_of_mem_eraseP hx, ?_⟩
    rintro rfl
    obtain ⟨y, before, after, -, hy, rfl, herase⟩ :=
      List.exists_of_eraseP (p := fun y => decide (y.id = x.id)) (List.mem_of_mem_eraseP hx)
        (decide_eq_true rfl)
    rw [herase] at hx
    rw [List.map_append, List.map_cons, List.nodup_middle] at h
    refine (List.nodup_cons.mp h).1 ?_
    rw [of_decide_eq_true hy, ← List.map_append]
    exact List.mem_map_of_mem hx
  · rintro ⟨hx, hne⟩
    exact (List.mem_eraseP_of_neg (by simpa using hne)).mpr hx

theorem updateWaker_eq_none (h : updateWaker id waker waiters = none) :
    ∀ x ∈ waiters, x.id ≠ id := by
  induction waiters with
  | nil => nofun
  | cons x xs ih =>
    rw [updateWaker] at h
    split_ifs at h with hid
    exact List.forall_mem_cons.mpr ⟨hid, ih (Option.map_eq_none_iff.mp h)⟩

theorem updateWaker_eq_some (h : updateWaker id waker waiters = some waiters') :
    (waiters'.map fun x => (x.id, x.owner)) = (waiters.map fun x => (x.id, x.owner)) ∧
      (∃ x ∈ waiters', x.id = id ∧ x.waker = waker) ∧ ∀ x ∈ waiters, x.id ≠ id → x ∈ waiters' := by
  induction waiters generalizing waiters' with
  | nil => cases h
  | cons x xs ih =>
    rw [updateWaker] at h
    split_ifs at h with hid hwaker
    · cases h
      exact ⟨rfl, ⟨x, List.mem_cons_self, hid, hwaker⟩, fun y hy _ => hy⟩
    · cases h
      refine ⟨rfl, ⟨_, List.mem_cons_self, hid, rfl⟩, fun y hy hne => ?_⟩
      exact List.mem_cons_of_mem _ ((List.mem_cons.mp hy).resolve_left fun heq => hne (heq ▸ hid))
    · obtain ⟨rest, hrest, rfl⟩ := Option.map_eq_some_iff.mp h
      obtain ⟨hmap, ⟨y, hy, hyid⟩, hother⟩ := ih hrest
      refine ⟨by rw [List.map_cons, List.map_cons, hmap], ⟨y, List.mem_cons_of_mem _ hy, hyid⟩, ?_⟩
      intro z hz hne
      rcases List.mem_cons.mp hz with rfl | hz
      · exact List.mem_cons_self
      · exact List.mem_cons_of_mem _ (hother z hz hne)

end

namespace State

variable {s t : State} {i j k id waker : ℕ} {f f' g : Cancelled} {c : Cancel}

theorem future_eq_some (hfutures : t.futures = s.futures.set i f')
    (h : t.future j = some g) : (j = i ∧ g = f') ∨ (j ≠ i ∧ s.future j = some g) := by
  rw [future, hfutures, List.getElem?_set] at h
  split_ifs at h with hij hlt
  · exact .inl ⟨hij.symm, (Option.some.inj h).symm⟩
  · exact .inr ⟨fun heq => hij heq.symm, h⟩

theorem future_self (hi : s.future i = some f) (hfutures : t.futures = s.futures.set i f') :
    t.future i = some f' := by
  rw [future, hfutures]
  exact List.getElem?_set_self (List.getElem?_eq_some_iff.mp hi).1

theorem future_of_ne (hfutures : t.futures = s.futures.set i f') (hj : j ≠ i) :
    t.future j = s.future j := by
  rw [future, hfutures]
  exact List.getElem?_set_ne hj.symm

structure Filed (s : State) : Prop where
  ids : (s.waiters.map Waiter.id).Nodup
  owned : ∀ x ∈ s.waiters, ∃ f, s.future x.owner = some f ∧ f.waiterId = some x.id
  known : ∀ i f id, s.future i = some f → f.waiterId = some id → id < s.nextWaiterId
  distinct : ∀ i j f g id, s.future i = some f → s.future j = some g →
    f.waiterId = some id → g.waiterId = some id → i = j
  gone : ∀ i f, s.future i = some f → f.stage = .dropped → f.waiterId = none

theorem Filed.owner_eq (h : s.Filed) (hi : s.future i = some f) (hid : f.waiterId = some id)
    {x : Waiter} (hx : x ∈ s.waiters) (hxid : x.id = id) : x.owner = i := by
  obtain ⟨g, hg, hgid⟩ := h.owned x hx
  exact h.distinct _ _ g f id hg hi (hxid ▸ hgid) hid

theorem Filed.same (h : s.Filed) (hwaiters : t.waiters = s.waiters)
    (hfutures : t.futures = s.futures) (hnext : t.nextWaiterId = s.nextWaiterId) : t.Filed := by
  have hfuture : t.future = s.future := by
    funext i
    rw [future, hfutures]
    rfl
  constructor
  · rw [hwaiters]
    exact h.ids
  · rw [hwaiters, hfuture]
    exact h.owned
  · rw [hfuture, hnext]
    exact h.known
  · rw [hfuture]
    exact h.distinct
  · rw [hfuture]
    exact h.gone

/-- A future goes on with the id that it has, and entries keep ids and owners. -/
theorem Filed.put (h : s.Filed) (hi : s.future i = some f)
    (hfutures : t.futures = s.futures.set i f')
    (hwaiters : (t.waiters.map fun x => (x.id, x.owner)) = s.waiters.map fun x => (x.id, x.owner))
    (hnext : t.nextWaiterId = s.nextWaiterId) (hid : f'.waiterId = f.waiterId)
    (hgone : f'.stage = .dropped → f.waiterId = none) : t.Filed := by
  have hback : ∀ j g, t.future j = some g → ∃ g', s.future j = some g' ∧
      g'.waiterId = g.waiterId ∧ (g.stage = .dropped → g.waiterId = none) := by
    intro j g hj
    rcases future_eq_some hfutures hj with ⟨rfl, rfl⟩ | ⟨-, hj⟩
    · exact ⟨f, hi, hid.symm, fun hd => hid.trans (hgone hd)⟩
    · exact ⟨g, hj, rfl, h.gone j g hj⟩
  refine ⟨?_, fun x hx => ?_, fun j g id hj hg => ?_, fun j k g g' id hj hk hg hg' => ?_,
    fun j g hj hd => ?_⟩
  · have hids := congrArg (List.map Prod.fst) hwaiters
    simp only [List.map_map] at hids
    change (t.waiters.map (Prod.fst ∘ fun x => (x.id, x.owner))).Nodup
    rw [hids]
    exact h.ids
  · have hmem : (x.id, x.owner) ∈ s.waiters.map fun x => (x.id, x.owner) := by
      rw [← hwaiters]
      exact List.mem_map_of_mem (f := fun x : Waiter => (x.id, x.owner)) hx
    obtain ⟨y, hy, hxy⟩ := List.mem_map.mp hmem
    obtain ⟨hyid, hyowner⟩ := Prod.mk.inj hxy
    obtain ⟨g, hg, hgid⟩ := h.owned y hy
    rw [hyowner] at hg
    rw [hyid] at hgid
    by_cases howner : x.owner = i
    · rw [howner] at hg ⊢
      obtain rfl := Option.some.inj (hi.symm.trans hg)
      exact ⟨f', future_self hi hfutures, hid.trans hgid⟩
    · exact ⟨g, (future_of_ne hfutures howner).trans hg, hgid⟩
  · obtain ⟨g', hg', hsame, -⟩ := hback j g hj
    rw [hnext]
    exact h.known j g' id hg' (hsame.trans hg)
  · obtain ⟨a, ha, hsame, -⟩ := hback j g hj
    obtain ⟨b, hb, hsame', -⟩ := hback k g' hk
    exact h.distinct j k a b id ha hb (hsame.trans hg) (hsame'.trans hg')
  · obtain ⟨-, -, -, hnone⟩ := hback j g hj
    exact hnone hd

theorem Filed.pushWaiter (h : s.Filed) (hi : s.future i = some f)
    (hnone : ∀ x ∈ s.waiters, x.owner ≠ i) : (s.pushWaiter i f waker).Filed := by
  have hfutures : (s.pushWaiter i f waker).futures = s.futures.set i
    { f with waiterId := some s.nextWaiterId, stage := .recheck waker } := rfl
  have hid : ∀ j g id, s.future j = some g → g.waiterId = some id → id ≠ s.nextWaiterId :=
    fun j g id hj hg => (h.known j g id hj hg).ne
  refine ⟨?_, fun x hx => ?_, fun j g id hj hg => ?_, fun j k g g' id hj hk hg hg' => ?_,
    fun j g hj hd => ?_⟩
  · change ((s.waiters ++ [_]).map Waiter.id).Nodup
    rw [List.map_append, List.nodup_append_comm]
    refine List.nodup_cons.mpr ⟨fun hmem => ?_, h.ids⟩
    obtain ⟨x, hx, hxid⟩ := List.mem_map.mp hmem
    obtain ⟨g, hg, hgid⟩ := h.owned x hx
    exact hid _ g _ hg hgid hxid
  · rcases List.mem_append.mp hx with hold | hnew
    · obtain ⟨g, hg, hgid⟩ := h.owned x hold
      exact ⟨g, (future_of_ne hfutures (hnone x hold)).trans hg, hgid⟩
    · obtain rfl := List.mem_singleton.mp hnew
      exact ⟨_, future_self hi hfutures, rfl⟩
  · rcases future_eq_some hfutures hj with ⟨rfl, rfl⟩ | ⟨-, hj⟩
    · cases hg
      exact Nat.lt_succ_self _
    · exact (h.known j g id hj hg).trans (Nat.lt_succ_self _)
  · rcases future_eq_some hfutures hj with ⟨rfl, rfl⟩ | ⟨-, hold⟩ <;>
      rcases future_eq_some hfutures hk with ⟨rfl, rfl⟩ | ⟨-, hold'⟩
    · rfl
    · cases hg
      exact absurd rfl (hid k g' _ hold' hg')
    · cases hg'
      exact absurd rfl (hid j g _ hold hg)
    · exact h.distinct j k g g' id hold hold' hg hg'
  · rcases future_eq_some hfutures hj with ⟨rfl, rfl⟩ | ⟨-, hj⟩
    · cases hd
    · exact h.gone j g hj hd

/-- A future is dropped with its entry. -/
theorem Filed.remove (h : s.Filed) (hid : f.waiterId = some id) (hi : s.future i = some f)
    (hfutures : t.futures = s.futures.set i f') (hwaiters : t.waiters = removeWaiter id s.waiters)
    (hnext : t.nextWaiterId = s.nextWaiterId) (hnone : f'.waiterId = none) : t.Filed := by
  refine ⟨?_, fun x hx => ?_, fun j g id hj hg => ?_, fun j k g g' id hj hk hg hg' => ?_,
    fun j g hj hd => ?_⟩
  · rw [hwaiters]
    exact nodup_removeWaiter h.ids
  · rw [hwaiters, mem_removeWaiter h.ids] at hx
    obtain ⟨g, hg, hgid⟩ := h.owned x hx.1
    refine ⟨g, (future_of_ne hfutures fun howner => hx.2 ?_).trans hg, hgid⟩
    rw [howner] at hg
    obtain rfl := Option.some.inj (hi.symm.trans hg)
    exact Option.some.inj (hgid.symm.trans hid)
  · rcases future_eq_some hfutures hj with ⟨rfl, rfl⟩ | ⟨-, hj⟩
    · cases hnone.symm.trans hg
    · rw [hnext]
      exact h.known j g id hj hg
  · rcases future_eq_some hfutures hj with ⟨rfl, rfl⟩ | ⟨-, hj⟩
    · cases hnone.symm.trans hg
    · rcases future_eq_some hfutures hk with ⟨rfl, rfl⟩ | ⟨-, hk⟩
      · cases hnone.symm.trans hg'
      · exact h.distinct j k g g' id hj hk hg hg'
  · rcases future_eq_some hfutures hj with ⟨rfl, rfl⟩ | ⟨-, hj⟩
    · exact hnone
    · exact h.gone j g hj hd

/-- The future has an entry with the waker. -/
def Has (s : State) (i waker : ℕ) : Prop := ∃ x ∈ s.waiters, x.owner = i ∧ x.waker = waker

/-- The waker has been woken since there were `called` wakes, or is going to be: by a call of
`cancel` that has taken the entry, or by the one that has not yet come to it. -/
def Owed (s : State) (i called waker : ℕ) : Prop :=
  waker ∈ s.woken.drop called ∨ (∃ xs, .wake xs ∈ s.cancels ∧ ∃ x ∈ xs, x.waker = waker) ∨
    s.Has i waker ∧ (s.cancelled = true → .drain ∈ s.cancels)

structure Sound (s : State) : Prop where
  filed : s.Filed
  locked : ∀ i f, s.future i = some f → f.stage.locks = true → s.lock = some i
  registered : ∀ i f waker, s.future i = some f → f.stage = .recheck waker → s.Has i waker
  called : ∀ i f, s.future i = some f → f.called ≤ s.woken.length
  owed : ∀ i f waker, s.future i = some f → f.pending = some waker →
    f.stage = .idle ∧ s.Owed i f.called waker

theorem mem_drop_append {α : Type} {xs ys : List α} {n : ℕ} {a : α} (h : a ∈ xs.drop n) :
    a ∈ (xs ++ ys).drop n := by
  rw [List.drop_append]
  exact List.mem_append_left _ h

/-- A step that leaves the entry where it is, and each call that has set the flag. -/
theorem Owed.keep {called : ℕ} (h : s.Owed i called waker) (hhas : s.Has i waker → t.Has i waker)
    (hcancelled : t.cancelled = s.cancelled)
    (hcancels : ∀ c ∈ s.cancels, c ≠ .swap → c ∈ t.cancels) {wakes : List ℕ}
    (hwoken : t.woken = s.woken ++ wakes) : t.Owed i called waker := by
  rcases h with hdone | ⟨xs, hxs, hx⟩ | ⟨hentry, hdrain⟩
  · refine .inl ?_
    rw [hwoken]
    exact mem_drop_append hdone
  · exact .inr (.inl ⟨xs, hcancels _ hxs nofun, hx⟩)
  · refine .inr (.inr ⟨hhas hentry, fun htrue => hcancels _ (hdrain ?_) nofun⟩)
    rwa [hcancelled] at htrue

theorem Sound.new : State.new.Sound := by
  have hnone : ∀ i f, State.new.future i ≠ some f := nofun
  exact ⟨⟨List.nodup_nil, nofun, fun i f id h => absurd h (hnone i f),
    fun i _ f _ _ h => absurd h (hnone i f), fun i f h => absurd h (hnone i f)⟩,
    fun i f h => absurd h (hnone i f), fun i f _ h => absurd h (hnone i f),
    fun i f h => absurd h (hnone i f), fun i f _ h => absurd h (hnone i f)⟩

/-- What a step of one future has to keep, which touches neither the flag nor the calls. -/
theorem Sound.move (h : s.Sound) (hfiled : t.Filed) (hfutures : t.futures = s.futures.set i f')
    (hcancelled : t.cancelled = s.cancelled) (hcancels : t.cancels = s.cancels) {wakes : List ℕ}
    (hwoken : t.woken = s.woken ++ wakes)
    (hother : ∀ j waker, j ≠ i → s.Has j waker → t.Has j waker)
    (hlock : ∀ j, j ≠ i → s.lock = some j → t.lock = some j)
    (hlocked : f'.stage.locks = true → t.lock = some i)
    (hregistered : ∀ waker, f'.stage = .recheck waker → t.Has i waker)
    (hcalled : f'.called ≤ t.woken.length)
    (howed : ∀ waker, f'.pending = some waker → f'.stage = .idle ∧ t.Owed i f'.called waker) :
    t.Sound where
  filed := hfiled
  locked := by
    intro j g hj hlocks
    rcases future_eq_some hfutures hj with ⟨rfl, rfl⟩ | ⟨hne, hj⟩
    · exact hlocked hlocks
    · exact hlock j hne (h.locked j g hj hlocks)
  registered := by
    intro j g waker hj hstage
    rcases future_eq_some hfutures hj with ⟨rfl, rfl⟩ | ⟨hne, hj⟩
    · exact hregistered waker hstage
    · exact hother j waker hne (h.registered j g waker hj hstage)
  called := by
    intro j g hj
    rcases future_eq_some hfutures hj with ⟨rfl, rfl⟩ | ⟨-, hj⟩
    · exact hcalled
    · rw [hwoken, List.length_append]
      exact (h.called j g hj).trans (Nat.le_add_right _ _)
  owed := by
    intro j g waker hj hpending
    rcases future_eq_some hfutures hj with ⟨rfl, rfl⟩ | ⟨hne, hj⟩
    · exact howed waker hpending
    · obtain ⟨hidle, h⟩ := h.owed j g waker hj hpending
      exact ⟨hidle, h.keep (hother j waker hne) hcancelled (fun _ hc _ => hcancels ▸ hc) hwoken⟩

/-- A future that is being polled has not returned. -/
theorem Sound.pending_eq_none (h : s.Sound) (hi : s.future i = some f) (hstage : f.stage ≠ .idle) :
    f.pending = none := by
  cases hpending : f.pending with
  | none => rfl
  | some waker => exact absurd (h.owed i f waker hi hpending).1 hstage

theorem Sound.startPoll (h : s.Sound) (hi : s.future i = some f)
    (hstep : s.startPoll i waker f = some t) : t.Sound := by
  rw [State.startPoll] at hstep
  split at hstep
  case h_2 => cases hstep
  case h_1 hidle =>
    cases hstep
    refine h.move (h.filed.put hi rfl rfl rfl rfl nofun) rfl rfl rfl (List.append_nil _).symm
      (fun _ _ _ h => h) (fun _ _ h => h) nofun nofun le_rfl nofun

theorem register_eq (s : State) (i : ℕ) (f : Cancelled) (waker : ℕ) :
    (∃ id waiters, f.waiterId = some id ∧ updateWaker id waker s.waiters = some waiters ∧
      s.register i f waker =
        { s with waiters := waiters }.put i { f with stage := .recheck waker }) ∨
    (∀ id, f.waiterId = some id → updateWaker id waker s.waiters = none) ∧
      s.register i f waker = s.pushWaiter i f waker := by
  rw [register]
  cases hid : f.waiterId with
  | none => exact .inr ⟨nofun, rfl⟩
  | some id =>
    cases hupdate : updateWaker id waker s.waiters with
    | none => exact .inr ⟨fun _ h => Option.some.inj h ▸ hupdate, by simp only [hupdate]⟩
    | some waiters => exact .inl ⟨id, waiters, rfl, hupdate, by simp only [hupdate]⟩

/-- The entry of the future gets the waker, and no other entry changes. -/
theorem Sound.register (h : s.Sound) (hi : s.future i = some f) (hstage : f.stage = .register waker)
    (hfree : s.lock = none) : { s.register i f waker with lock := some i }.Sound := by
  have hpending : f.pending = none := h.pending_eq_none hi (by rw [hstage]; nofun)
  have hlock : ∀ j, j ≠ i → s.lock = some j → some i = some j :=
    fun j _ hj => by cases hfree.symm.trans hj
  rcases register_eq s i f waker with ⟨id, waiters, hid, hupdate, heq⟩ | ⟨hupdate, heq⟩
  · rw [heq]
    obtain ⟨hmap, ⟨x, hx, hxid, hxwaker⟩, hother⟩ := updateWaker_eq_some hupdate
    have hfiled : ({ s with waiters := waiters, lock := some i }.put i
        { f with stage := .recheck waker }).Filed :=
      h.filed.put hi rfl hmap rfl rfl nofun
    refine h.move hfiled rfl rfl rfl (List.append_nil _).symm
      (fun j w hj ⟨y, hy, hyj, hyw⟩ => ⟨y, hother y hy fun hyid => ?_, hyj, hyw⟩) hlock
      (fun _ => rfl) (fun w hw => ?_) (h.called i f hi) fun w hw => by cases hpending.symm.trans hw
    · exact hj (hyj.symm.trans (h.filed.owner_eq hi hid hy hyid))
    · cases hw
      exact ⟨x, hx, hfiled.owner_eq (future_self hi rfl) hid hx hxid, hxwaker⟩
  · rw [heq]
    have hnone : ∀ x ∈ s.waiters, x.owner ≠ i := by
      intro x hx howner
      obtain ⟨g, hg, hgid⟩ := h.filed.owned x hx
      rw [howner] at hg
      obtain rfl := Option.some.inj (hi.symm.trans hg)
      exact updateWaker_eq_none (hupdate _ hgid) x hx rfl
    have hpush : (s.pushWaiter i f waker).Filed := h.filed.pushWaiter hi hnone
    have hfiled : { s.pushWaiter i f waker with lock := some i }.Filed := hpush.same rfl rfl rfl
    refine h.move hfiled rfl rfl rfl (List.append_nil _).symm
      (fun j w _ ⟨x, hx, hxj⟩ => ⟨x, List.mem_append_left _ hx, hxj⟩) hlock (fun _ => rfl)
      (fun w hw => ?_) (h.called i f hi) fun w hw => by cases hpending.symm.trans hw
    cases hw
    exact ⟨_, List.mem_append_right _ List.mem_cons_self, rfl, rfl⟩

theorem Sound.runPoll (h : s.Sound) (hi : s.future i = some f) (hstep : s.runPoll i f = some t) :
    t.Sound := by
  have hfiled {s' : State} {g : Cancelled} (hfutures : s'.futures = s.futures.set i g)
      (hwaiters : s'.waiters = s.waiters) (hnext : s'.nextWaiterId = s.nextWaiterId)
      (hid : g.waiterId = f.waiterId) (hlive : g.stage ≠ .dropped) : s'.Filed :=
    h.filed.put hi hfutures (by rw [hwaiters]) hnext hid fun hd => absurd hd hlive
  have hlock (hlocks : f.stage.locks = true) : ∀ j, j ≠ i → s.lock = some j → none = some j :=
    fun j hne hj => absurd (Option.some.inj (hj.symm.trans (h.locked i f hi hlocks))) hne
  rw [State.runPoll] at hstep
  cases hstage : f.stage with
  | idle | dropped => simp only [hstage, reduceCtorEq] at hstep
  | check waker =>
    simp only [hstage, Option.some.injEq] at hstep
    subst hstep
    have hpending := h.pending_eq_none hi (by rw [hstage]; nofun)
    refine h.move (hfiled rfl rfl rfl rfl ?_) rfl rfl rfl (List.append_nil _).symm
      (fun _ _ _ h => h) (fun _ _ h => h) (fun hlocks => ?_) (fun w hw => ?_) (h.called i f hi)
      fun w hw => by cases hpending.symm.trans hw
    · dsimp only
      split_ifs <;> nofun
    · dsimp only at hlocks
      split_ifs at hlocks <;> cases hlocks
    · dsimp only at hw
      split_ifs at hw
  | register waker =>
    simp only [hstage] at hstep
    split_ifs at hstep with hfree
    cases hstep
    exact h.register hi hstage (Option.not_isSome_iff_eq_none.mp hfree)
  | recheck waker =>
    simp only [hstage] at hstep
    have hlocks : f.stage.locks = true := by rw [hstage]; rfl
    split_ifs at hstep with hcancelled <;> cases hstep
    · refine h.move (hfiled rfl rfl rfl rfl nofun) rfl rfl rfl (List.append_nil _).symm
        (fun _ _ _ h => h) (fun _ _ h => h) (fun _ => h.locked i f hi hlocks) nofun
        (h.called i f hi) fun w hw => ?_
      cases (h.pending_eq_none hi (by rw [hstage]; nofun)).symm.trans hw
    · refine h.move (hfiled rfl rfl rfl rfl nofun) rfl rfl rfl (List.append_nil _).symm
        (fun _ _ _ h => h) (hlock hlocks) nofun nofun (h.called i f hi) fun w hw => ⟨rfl, ?_⟩
      cases hw
      exact .inr (.inr ⟨h.registered i f waker hi hstage, fun htrue => absurd htrue hcancelled⟩)
  | wake waker =>
    simp only [hstage, Option.some.injEq] at hstep
    subst hstep
    refine h.move (hfiled rfl rfl rfl rfl nofun) rfl rfl rfl rfl (fun _ _ _ h => h)
      (hlock (by rw [hstage]; rfl)) nofun nofun ?_ fun w hw => ⟨rfl, .inl ?_⟩
    · change f.called ≤ (s.woken ++ [waker]).length
      rw [List.length_append]
      exact (h.called i f hi).trans (Nat.le_add_right _ _)
    · cases hw
      change waker ∈ (s.woken ++ [waker]).drop f.called
      rw [List.drop_append_of_le_length (h.called i f hi)]
      exact List.mem_append_right _ List.mem_cons_self

theorem Sound.dropFuture (h : s.Sound) (hi : s.future i = some f)
    (hstep : s.dropFuture i f = some t) : t.Sound := by
  rw [State.dropFuture] at hstep
  split at hstep
  case h_2 => cases hstep
  case h_1 hidle =>
    cases hid : f.waiterId with
    | none =>
      simp only [hid, Option.some.injEq] at hstep
      subst hstep
      exact h.move (h.filed.put hi rfl rfl rfl hid.symm fun _ => hid) rfl rfl rfl
        (List.append_nil _).symm (fun _ _ _ h => h) (fun _ _ h => h) nofun nofun (h.called i f hi)
        nofun
    | some id =>
      simp only [hid] at hstep
      split_ifs at hstep with hfree
      cases hstep
      refine h.move (h.filed.remove hid hi rfl rfl rfl rfl) rfl rfl rfl (List.append_nil _).symm
        (fun j w hj ⟨y, hy, hyj, hyw⟩ => ⟨y, ?_, hyj, hyw⟩) (fun _ _ h => h) nofun nofun
        (h.called i f hi) nofun
      refine (mem_removeWaiter h.filed.ids).mpr ⟨hy, fun hyid => hj ?_⟩
      exact hyj.symm.trans (h.filed.owner_eq hi hid hy hyid)

theorem Filed.cancelled (h : s.Filed) :
    ({ s with futures := s.futures ++ [⟨none, .idle, none, 0⟩] } : State).Filed := by
  have hback : ∀ i f id, (s.futures ++ [⟨none, .idle, none, 0⟩])[i]? = some f →
      f.waiterId = some id → s.future i = some f := by
    intro i f id hi hid
    rw [List.getElem?_append] at hi
    split_ifs at hi with hlt
    · exact hi
    · obtain rfl := List.mem_singleton.mp (List.mem_of_getElem? hi)
      cases hid
  refine ⟨h.ids, fun x hx => ?_, fun i f id hi hid => h.known i f id (hback i f id hi hid) hid,
    fun i j f g id hi hj hf hg =>
      h.distinct i j f g id (hback i f id hi hf) (hback j g id hj hg) hf hg,
    fun i f hi hd => ?_⟩
  · obtain ⟨f, hf, hid⟩ := h.owned x hx
    exact ⟨f, (List.getElem?_append_left (List.getElem?_eq_some_iff.mp hf).1).trans hf, hid⟩
  · rw [future, List.getElem?_append] at hi
    split_ifs at hi with hlt
    · exact h.gone i f hi hd
    · obtain rfl := List.mem_singleton.mp (List.mem_of_getElem? hi)
      cases hd

theorem Sound.cancelled (h : s.Sound) :
    ({ s with futures := s.futures ++ [⟨none, .idle, none, 0⟩] } : State).Sound := by
  have hback : ∀ i f, (s.futures ++ [⟨none, .idle, none, 0⟩])[i]? = some f →
      s.future i = some f ∨ f = ⟨none, .idle, none, 0⟩ := by
    intro i f hi
    rw [List.getElem?_append] at hi
    split_ifs at hi
    · exact .inl hi
    · exact .inr (List.mem_singleton.mp (List.mem_of_getElem? hi))
  refine ⟨h.filed.cancelled, fun i f hi hlocks => ?_, fun i f waker hi hstage => ?_,
    fun i f hi => ?_, fun i f waker hi hpending => ?_⟩ <;> rcases hback i f hi with hold | rfl
  · exact h.locked i f hold hlocks
  · cases hlocks
  · exact h.registered i f waker hold hstage
  · cases hstage
  · exact h.called i f hold
  · exact Nat.zero_le _
  · exact h.owed i f waker hold hpending
  · cases hpending

/-- A call that goes on leaves the other calls. -/
theorem mem_cancels {c' d : Cancel} (hk : s.cancels[k]? = some c) (h : d ∈ s.cancels)
    (hne : d ≠ c) : d ∈ s.cancels.set k c' := by
  obtain ⟨j, hj⟩ := List.mem_iff_getElem?.mp h
  refine List.mem_iff_getElem?.mpr ⟨j, ?_⟩
  rw [List.getElem?_set_ne, hj]
  rintro rfl
  exact hne (Option.some.inj (hj.symm.trans hk))

theorem mem_cancels_self (hk : s.cancels[k]? = some c) (c' : Cancel) : c' ∈ s.cancels.set k c' :=
  List.mem_set (List.getElem?_eq_some_iff.mp hk).1 c'

/-- What a step of a call of `cancel` has to keep, which touches no future. -/
theorem Sound.turn (h : s.Sound) (hfiled : t.Filed) (hfutures : t.futures = s.futures)
    (hlock : t.lock = s.lock)
    (hregistered : ∀ i f waker, s.future i = some f → f.stage = .recheck waker → t.Has i waker)
    {wakes : List ℕ} (hwoken : t.woken = s.woken ++ wakes)
    (howed : ∀ i called waker, called ≤ s.woken.length → s.Owed i called waker →
      t.Owed i called waker) : t.Sound where
  filed := hfiled
  locked := by
    intro i f hi hlocks
    rw [future, hfutures] at hi
    exact hlock.trans (h.locked i f hi hlocks)
  registered := by
    intro i f waker hi hstage
    rw [future, hfutures] at hi
    exact hregistered i f waker hi hstage
  called := by
    intro i f hi
    rw [future, hfutures] at hi
    rw [hwoken, List.length_append]
    exact (h.called i f hi).trans (Nat.le_add_right _ _)
  owed := by
    intro i f waker hi hpending
    rw [future, hfutures] at hi
    obtain ⟨hidle, howe⟩ := h.owed i f waker hi hpending
    exact ⟨hidle, howed i _ waker (h.called i f hi) howe⟩

theorem Sound.swap (h : s.Sound) (hk : s.cancels[k]? = some .swap)
    (hstep : s.runCancel k .swap = some t) : t.Sound := by
  cases hstep
  split_ifs with hcancelled
  · refine h.turn (h.filed.same rfl rfl rfl) rfl rfl h.registered (List.append_nil _).symm
      fun i called waker _ howe => ?_
    exact howe.keep id rfl (fun _ hc hne => mem_cancels hk hc hne) (List.append_nil _).symm
  · refine h.turn (h.filed.same rfl rfl rfl) rfl rfl h.registered (List.append_nil _).symm
      fun i called waker _ howe => ?_
    rcases howe with hdone | ⟨xs, hxs, hx⟩ | ⟨hhas, -⟩
    · exact .inl hdone
    · exact .inr (.inl ⟨xs, mem_cancels hk hxs nofun, hx⟩)
    · exact .inr (.inr ⟨hhas, fun _ => mem_cancels_self hk _⟩)

/-- No poll is between its registration and its return, so that each entry taken is one that a
future left when it returned `Pending`. -/
theorem Sound.drain (h : s.Sound) (hk : s.cancels[k]? = some .drain)
    (hstep : s.runCancel k .drain = some t) : t.Sound := by
  rw [State.runCancel] at hstep
  split_ifs at hstep with hlock
  cases hstep
  have hfree : s.lock = none := Option.not_isSome_iff_eq_none.mp hlock
  refine h.turn ⟨List.nodup_nil, nofun, h.filed.known, h.filed.distinct, h.filed.gone⟩ rfl rfl
    (fun i f waker hi hstage => ?_) (List.append_nil _).symm fun i called waker _ howe => ?_
  · cases hfree.symm.trans (h.locked i f hi (by rw [hstage]; rfl))
  · rcases howe with hdone | ⟨xs, hxs, hx⟩ | ⟨⟨x, hx, -, hxw⟩, -⟩
    · exact .inl hdone
    · exact .inr (.inl ⟨xs, mem_cancels hk hxs nofun, hx⟩)
    · exact .inr (.inl ⟨s.waiters, mem_cancels_self hk _, x, hx, hxw⟩)

theorem Sound.wake {waiters : List Waiter} (h : s.Sound) (hk : s.cancels[k]? = some (.wake waiters))
    (hstep : s.runCancel k (.wake waiters) = some t) : t.Sound := by
  cases waiters with
  | nil =>
    cases hstep
    refine h.turn (h.filed.same rfl rfl rfl) rfl rfl h.registered (List.append_nil _).symm
      fun i called waker _ howe => ?_
    rcases howe with hdone | ⟨xs, hxs, x, hx, hxw⟩ | ⟨hhas, hdrain⟩
    · exact .inl hdone
    · refine .inr (.inl ⟨xs, mem_cancels hk hxs ?_, x, hx, hxw⟩)
      rintro ⟨⟩
      cases hx
    · exact .inr (.inr ⟨hhas, fun htrue => mem_cancels hk (hdrain htrue) nofun⟩)
  | cons y ys =>
    cases hstep
    refine h.turn (h.filed.same rfl rfl rfl) rfl rfl h.registered rfl
      fun i called waker hcalled howe => ?_
    rcases howe with hdone | ⟨xs, hxs, x, hx, hxw⟩ | ⟨hhas, hdrain⟩
    · exact .inl (mem_drop_append hdone)
    · by_cases heq : Cancel.wake xs = .wake (y :: ys)
      · cases heq
        rcases List.mem_cons.mp hx with rfl | hx
        · refine .inl ?_
          change waker ∈ (s.woken ++ [x.waker]).drop called
          rw [List.drop_append_of_le_length hcalled, hxw]
          exact List.mem_append_right _ List.mem_cons_self
        · exact .inr (.inl ⟨ys, mem_cancels_self hk _, x, hx, hxw⟩)
      · exact .inr (.inl ⟨xs, mem_cancels hk hxs heq, x, hx, hxw⟩)
    · exact .inr (.inr ⟨hhas, fun htrue => mem_cancels hk (hdrain htrue) nofun⟩)

theorem Sound.step (h : s.Sound) {a : Label} (hstep : s.step a = some t) : t.Sound := by
  cases a with
  | cancelled =>
    cases hstep
    exact h.cancelled
  | poll i waker =>
    obtain ⟨f, hi, hstep⟩ := Option.bind_eq_some_iff.mp hstep
    exact h.startPoll hi hstep
  | goOn i =>
    obtain ⟨f, hi, hstep⟩ := Option.bind_eq_some_iff.mp hstep
    exact h.runPoll hi hstep
  | drop i =>
    obtain ⟨f, hi, hstep⟩ := Option.bind_eq_some_iff.mp hstep
    exact h.dropFuture hi hstep
  | cancel =>
    cases hstep
    refine h.turn (h.filed.same rfl rfl rfl) rfl rfl h.registered (List.append_nil _).symm
      fun i called waker _ howe => ?_
    exact howe.keep id rfl (fun _ hc _ => List.mem_append_left _ hc) (List.append_nil _).symm
  | run k =>
    obtain ⟨c, hk, hstep⟩ := Option.bind_eq_some_iff.mp hstep
    cases c with
    | swap => exact h.swap hk hstep
    | drain => exact h.drain hk hstep
    | wake waiters => exact h.wake hk hstep
    | done => cases hstep

theorem Sound.kept (h : s.Sound) : s.Kept where
  woken := by
    intro i f waker hi hpending hcancelled hdone
    rcases (h.owed i f waker hi hpending).2 with hwoken | ⟨xs, hxs, -⟩ | ⟨-, hdrain⟩
    · exact hwoken
    · cases hdone _ hxs
    · cases hdone _ (hdrain hcancelled)
  once := by
    have howner : ∀ x ∈ s.waiters, ∀ y ∈ s.waiters, x.owner = y.owner → x.id = y.id := by
      intro x hx y hy heq
      obtain ⟨f, hf, hfid⟩ := h.filed.owned x hx
      obtain ⟨g, hg, hgid⟩ := h.filed.owned y hy
      rw [heq, hg] at hf
      obtain rfl := Option.some.inj hf
      exact Option.some.inj (hfid.symm.trans hgid)
    have hids := List.pairwise_map.mp h.filed.ids
    refine List.pairwise_map.mpr (hids.imp_of_mem fun hx hy hne heq => hne (howner _ hx _ hy heq))
  live := by
    intro x hx
    obtain ⟨f, hf, hid⟩ := h.filed.owned x hx
    refine ⟨f, hf, fun hd => ?_⟩
    cases (h.filed.gone _ f hf hd).symm.trans hid

/-- Whatever polls and drops of futures and calls of `cancel` go on at once, nobody who was told to
wait is forgotten, and the list of waiters has one entry of each live future at most. -/
theorem neither_lost_nor_leaked (hs : Reachable step anyStep State.new s) : s.Kept :=
  (hs.invariant Sound.new fun _ _ _ h _ hstep => Sound.step h hstep).kept

/-- The first future is polled again with another waker while the token is being cancelled, files
an entry after the entries were taken, and wakes itself; the second is woken by the call. -/
theorem neither_lost_nor_leaked_again : ∃ s, Reachable step anyStep State.new s ∧
    s.cancelled = true ∧ s.waiters.map Waiter.owner = [0] ∧ s.woken = [8, 7, 6] ∧ s.Kept := by
  obtain ⟨s, hrun, hcancelled, howner, hwoken⟩ : ∃ s, run (guarded step anyStep) State.new
      [.cancelled, .cancelled, .poll 0 7, .goOn 0, .goOn 0, .goOn 0, .poll 1 6, .goOn 1, .goOn 1,
        .goOn 1, .poll 0 8, .goOn 0, .cancel, .run 0, .run 0, .goOn 0, .goOn 0, .goOn 0, .run 0,
        .run 0, .run 0] = some s ∧
      s.cancelled = true ∧ s.waiters.map Waiter.owner = [0] ∧ s.woken = [8, 7, 6] :=
    ⟨_, rfl, rfl, rfl, rfl⟩
  have hreach := reachable_of_run hrun
  exact ⟨s, hreach, hcancelled, howner, hwoken, neither_lost_nor_leaked hreach⟩

end State

end Eddy.CancellationWaiters
