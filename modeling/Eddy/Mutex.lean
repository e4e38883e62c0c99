import Eddy.SemaphoreFairness

/-!
# The mutex

`sync/mutex.rs`: a semaphore of one permit and a cell. `lock_owned` differs from `lock` only in
what its guard borrows. The guard of a locked mutex reads the cell and writes it in steps of their
own, so that two guards at once would lose updates. Waiters are granted in turn, and none is left
behind.
-/

namespace Eddy.Mutex
open Interleaving Semaphore

variable {T : Type}

/-- The `Acquire` of a lock future is built by its first poll; it does nothing before. -/
structure State (T : Type) where
  semaphore : Semaphore.System
  data : T
  /-- The live guards in the order of their permits, with the value each has read and not yet
  written back. -/
  guards : List (Option T)
  panicked : Bool
  /-- The updates that were written. -/
  writes : List (T → T)

def State.new (data : T) : State T := ⟨.new 1, data, [], false, []⟩

inductive Label (T : Type) where
  /-- `lock` or `lock_owned` -/
  | lock (i : ℕ)
  | poll (i : ℕ) (proceed : Bool) (waker : ℕ)
  | dropLock (i : ℕ)
  | tryLock
  /-- `deref` of a guard -/
  | read (j : ℕ)
  /-- `deref_mut` of a guard, with what it computes from the value that it has read. -/
  | write (j : ℕ) (f : T → T)
  | dropGuard (j : ℕ)
  /-- `get_mut`: nothing borrows the mutex. -/
  | getMut (f : T → T)

namespace State

def finish (s : State T) (i : ℕ) (result : Semaphore.Poll) (semaphore : Semaphore.System) :
    Option (State T) :=
  match result with
  | .pending => some { s with semaphore }
  | .closed => (semaphore.step (.dropAcquire i)).map fun semaphore =>
    { s with semaphore, panicked := true }
  | .acquired _ => (semaphore.step (.dropAcquire i)).map fun semaphore =>
    { s with semaphore, guards := s.guards ++ [none] }

def step (s : State T) : Label T → Option (State T)
  | .lock i => (s.semaphore.step (.acquireMany i 1)).map fun semaphore => { s with semaphore }
  | .poll i proceed waker =>
    (s.semaphore.state.acquires.get i).bind fun a =>
      (s.semaphore.step (.poll i proceed waker)).bind fun semaphore =>
        s.finish i (if proceed then (s.semaphore.state.poll i a waker).1 else .pending) semaphore
  | .dropLock i => (s.semaphore.step (.dropAcquire i)).map fun semaphore => { s with semaphore }
  | .tryLock =>
    (s.semaphore.step (.tryAcquireMany 1)).map fun semaphore =>
      if (s.semaphore.state.tryAcquireMany 1).isSome then
        { s with semaphore, guards := s.guards ++ [none] }
      else { s with semaphore }
  | .read j =>
    if j < s.guards.length then some { s with guards := s.guards.set j (some s.data) } else none
  | .write j f =>
    (s.guards[j]?).join.map fun v =>
      { s with
        data := f v
        guards := s.guards.set j none
        writes := s.writes ++ [f] }
  | .dropGuard j =>
    if j < s.guards.length then
      (s.semaphore.step (.dropPermit j)).map fun semaphore =>
        { s with semaphore, guards := s.guards.eraseIdx j }
    else none
  | .getMut f =>
    if s.guards = [] ∧ s.semaphore.state.acquires.values = [] then
      some { s with
        data := f s.data
        writes := s.writes ++ [f] }
    else none

end State

/-- Every future wants one permit, those in the list registered their wakers, and there are waiters
only while the permit is away. -/
structure Lone (s : Semaphore.State) : Prop where
  sound : s.Sound
  one : ∀ i a, s.acquires.get i = some a → a.permits = 1
  opened : s.closed = false
  registered : ∀ i ∈ s.waiters, ∀ a, s.acquires.get i = some a → a.waker.isSome = true
  busy : s.waiters ≠ [] → s.permits = 0

namespace Lone
variable {s : Semaphore.State} {i : ℕ} {a : Acquire}

theorem new : Lone (.new 1) := by
  refine ⟨.new 1, fun i a ha => ?_, rfl, fun i hi => ?_, fun hne => absurd rfl hne⟩
  · simp [Semaphore.State.new] at ha
  · simp [Semaphore.State.new] at hi

theorem releaseLocked_nil (hnil : s.waiters = []) (hpermits : s.permits = 0) :
    s.releaseLocked 1 = ({ s with permits := 1 }, []) := by
  simp [Semaphore.State.releaseLocked, hnil, hpermits, Semaphore.State.grantWaiters, saturatingAdd,
    usizeMax]

/-- Without permits the loop stops at the first waiter. -/
theorem grantWaiters_blocked {waiters : List ℕ} (hpermits : s.permits = 0)
    (hwaiters : ∀ i ∈ waiters, ∃ a, s.acquires.get i = some a ∧ a.permits = 1) :
    s.grantWaiters waiters = ({ s with waiters := waiters }, []) := by
  cases waiters with
  | nil => rfl
  | cons i rest =>
    obtain ⟨a, ha, hone⟩ := hwaiters i (List.mem_cons_self ..)
    simp [Semaphore.State.grantWaiters, ha, hpermits, hone]

theorem ne_first (h : Lone s) {rest : List ℕ} {j : ℕ} (hwaiters : s.waiters = i :: rest)
    (hj : j ∈ rest) : j ≠ i := by
  rintro rfl
  have hnodup : (j :: rest).Nodup := hwaiters ▸ h.sound.nodup
  exact (List.nodup_cons.mp hnodup).1 hj

theorem releaseLocked_cons (h : Lone s) {rest : List ℕ} (hwaiters : s.waiters = i :: rest)
    (ha : s.acquires.get i = some a) (hpermits : s.permits = 0) :
    s.releaseLocked 1 = ({ s.grant i a with waiters := rest }, a.waker.toList) := by
  have hone : a.permits = 1 := h.one i a ha
  have hblocked : ∀ j ∈ rest, ∃ b, (s.grant i a).acquires.get j = some b ∧ b.permits = 1 := by
    intro j hj
    obtain ⟨b, hb, -⟩ := h.sound.live j (hwaiters ▸ List.mem_cons_of_mem i hj)
    exact ⟨b, by simp [Semaphore.State.grant, h.ne_first hwaiters hj, hb], h.one j b hb⟩
  have hsat : saturatingAdd s.permits 1 = 1 := by simp [hpermits, saturatingAdd, usizeMax]
  have hgrant : ({ s with permits := 1 }.grant i a).grantWaiters rest =
      ({ s.grant i a with waiters := rest }, []) := by
    have hzero : ({ s with permits := 1 }.grant i a).permits = 0 := by
      simp [Semaphore.State.grant, hone]
    rw [grantWaiters_blocked hzero hblocked]
    simp [Semaphore.State.grant, hone, hpermits]
  rw [hwaiters] at hgrant
  simp only [Semaphore.State.releaseLocked, hwaiters, hsat, Semaphore.State.grantWaiters, ha, hone,
    Nat.lt_irrefl, ↓reduceIte, hgrant, List.append_nil]

inductive Released (s : Semaphore.State) : Semaphore.State × List ℕ → Prop where
  | kept (nil : s.waiters = []) : Released s ({ s with permits := 1 }, [])
  | handed {i waker : ℕ} {rest : List ℕ} {a : Acquire} (first : s.waiters = i :: rest)
      (future : s.acquires.get i = some a) (registered : a.waker = some waker) :
      Released s ({ s.grant i a with waiters := rest }, [waker])

theorem released (h : Lone s) (hpermits : s.permits = 0) : Released s (s.releaseLocked 1) := by
  cases hwaiters : s.waiters with
  | nil =>
    rw [releaseLocked_nil hwaiters hpermits]
    exact .kept hwaiters
  | cons i rest =>
    have hi : i ∈ s.waiters := by simp [hwaiters]
    obtain ⟨a, ha, -⟩ := h.sound.live i hi
    obtain ⟨waker, hwaker⟩ := Option.isSome_iff_exists.mp (h.registered i hi a ha)
    rw [h.releaseLocked_cons hwaiters ha hpermits, hwaker]
    exact .handed hwaiters ha hwaker

theorem releaseLocked (h : Lone s) (hpermits : s.permits = 0) : Lone (s.releaseLocked 1).1 := by
  have hsound := (h.sound.releaseLocked 1).sound
  have hreleased := h.released hpermits
  rcases hresult : s.releaseLocked 1 with ⟨t, wakes⟩
  rw [hresult] at hsound hreleased
  cases hreleased with
  | kept hnil => exact ⟨hsound, h.one, h.opened, h.registered, fun hne => absurd hnil hne⟩
  | @handed i waker rest a hwaiters ha =>
    refine ⟨hsound, fun j b hb => ?_, h.opened, fun j hj b hb => ?_, fun _ => ?_⟩
    · simp only [Semaphore.State.grant, Slab.get_modify] at hb
      split_ifs at hb
      · obtain ⟨c, hc, rfl⟩ := Option.map_eq_some_iff.mp hb
        exact h.one j c hc
      · exact h.one j b hb
    · simp only [Semaphore.State.grant, Slab.get_modify, h.ne_first hwaiters hj, ↓reduceIte] at hb
      exact h.registered j (hwaiters ▸ List.mem_cons_of_mem i hj) b hb
    · simp [Semaphore.State.grant, hpermits]

theorem insert (h : Lone s) (hi : s.acquires.Vacant i) :
    Lone { s with acquires := s.acquires.insert i (.new 1) } := by
  refine ⟨h.sound.insert hi _, fun j b hb => ?_, h.opened, fun j hj b hb => ?_, h.busy⟩
  · simp only [Slab.get_insert hi] at hb
    split_ifs at hb
    · cases hb
      rfl
    · exact h.one j b hb
  · obtain ⟨c, hc, -⟩ := h.sound.live j hj
    have hne : j ≠ i := by
      rintro rfl
      have := hi.2
      simp [hc] at this
    simp only [Slab.get_insert hi, hne, ↓reduceIte] at hb
    exact h.registered j hj b hb

theorem modify_one (h : Lone s) {f : Acquire → Acquire} (hf : ∀ a, (f a).permits = a.permits)
    (j : ℕ) (b : Acquire) (hb : (s.acquires.modify i f).get j = some b) : b.permits = 1 := by
  rw [Slab.get_modify] at hb
  split_ifs at hb
  · obtain ⟨c, hc, rfl⟩ := Option.map_eq_some_iff.mp hb
    exact (hf c).trans (h.one j c hc)
  · exact h.one j b hb

theorem modify_registered (h : Lone s) {f : Acquire → Acquire}
    (hf : ∀ a, (f a).waker.isSome = true) {j : ℕ} {b : Acquire} (hj : j ∈ s.waiters ∨ j = i)
    (hb : (s.acquires.modify i f).get j = some b) : b.waker.isSome = true := by
  rw [Slab.get_modify] at hb
  split_ifs at hb with hji
  · obtain ⟨c, -, rfl⟩ := Option.map_eq_some_iff.mp hb
    exact hf c
  · exact h.registered j (hj.resolve_right hji) b hb

theorem poll (h : Lone s) (ha : s.acquires.get i = some a) (waker : ℕ) :
    Lone (s.poll i a waker).2 := by
  have hsound := h.sound.poll ha waker
  have hpoll := Semaphore.State.polled s i a waker
  rcases hresult : s.poll i a waker with ⟨result, t⟩
  rw [hresult] at hpoll hsound
  cases hpoll with
  | claim hgranted =>
    refine ⟨hsound, h.modify_one fun _ => rfl, h.opened, fun j hj b hb => ?_, h.busy⟩
    have hne : j ≠ i := by
      rintro rfl
      exact h.sound.not_granted ha hgranted hj
    simp only [Slab.get_modify, hne, ↓reduceIte] at hb
    exact h.registered j hj b hb
  | closed _ hclosed => simp [h.opened] at hclosed
  | acquire _ _ hnil =>
    exact ⟨hsound, h.one, h.opened, h.registered, fun hne => absurd hnil hne⟩
  | wait =>
    exact ⟨hsound, h.modify_one fun _ => rfl, h.opened,
      fun j hj b hb => h.modify_registered (fun _ => rfl) (.inl hj) hb, h.busy⟩
  | link _ _ hi hneeds =>
    refine ⟨hsound, h.modify_one fun _ => rfl, h.opened, fun j hj b hb => ?_, fun _ => ?_⟩
    · have hj : j ∈ s.waiters ∨ j = i := by simpa using hj
      exact h.modify_registered (fun _ => rfl) hj hb
    · by_cases hnil : s.waiters = []
      · have hlt := hneeds hnil
        rw [h.one i a ha] at hlt
        exact Nat.lt_one_iff.mp hlt
      · exact h.busy hnil

theorem remove (h : Lone s) : Lone { s with
    waiters := s.waiters.erase i
    acquires := s.acquires.remove i } := by
  refine ⟨h.sound.remove, fun j b hb => ?_, h.opened, fun j hj b hb => ?_, fun hne => ?_⟩
  · rw [Slab.get_remove] at hb
    split_ifs at hb
    exact h.one j b hb
  · rw [Slab.get_remove] at hb
    split_ifs at hb
    exact h.registered j (List.mem_of_mem_erase hj) b hb
  · apply h.busy
    rintro hnil
    simp [hnil] at hne

end Lone

inductive Asks : Semaphore.Label → Prop where
  | acquire (i : ℕ) : Asks (.acquireMany i 1)
  | poll (i : ℕ) (proceed : Bool) (waker : ℕ) : Asks (.poll i proceed waker)
  | dropAcquire (i : ℕ) : Asks (.dropAcquire i)
  | tryAcquire : Asks (.tryAcquireMany 1)
  | dropPermit (j : ℕ) : Asks (.dropPermit j)

structure Single (s : Semaphore.System) : Prop where
  lone : Lone s.state
  held : ∀ permits ∈ s.held, permits = 1
  total : s.state.permits + s.held.length + s.state.unclaimed = 1

/-- The first waiter of the list gets the permit, and is woken. -/
def Handed (s t : Semaphore.System) : Prop :=
  ∃ i waker rest a, s.state.waiters = i :: rest ∧
    s.state.acquires.get i = some a ∧ a.waker = some waker ∧
    t.state.acquires.get i = some { a with granted := true, waker := none } ∧
    t.state.waiters = rest ∧ t.wakes = s.wakes ++ [waker]

/-- A waiter gets the permit only as the first of the list, and is woken. -/
def HandsOver (s t : Semaphore.System) : Prop := t.state.grants = s.state.grants ∨ Handed s t

namespace Single
variable {s t : Semaphore.System} {i : ℕ} {a : Acquire}

theorem new : Single (.new 1) := by
  refine ⟨.new, ?_, rfl⟩
  simp [Semaphore.System.new]

theorem alone_of_granted (h : Single s) (ha : s.state.acquires.get i = some a)
    (hgranted : a.granted = true) : s.state.permits = 0 ∧ s.held = [] := by
  have hweight := Slab.weight_remove (fun a : Acquire => if a.granted then a.permits else 0) ha
  simp only [hgranted, ↓reduceIte, h.lone.one i a ha] at hweight
  have htotal := h.total
  simp only [Semaphore.State.unclaimed] at htotal
  exact ⟨by omega, List.length_eq_zero_iff.mp (by omega)⟩

/-- While a guard is live, no future was granted. -/
theorem alone_of_held (h : Single s) (hheld : s.held ≠ []) :
    s.state.permits = 0 ∧ s.held.length = 1 ∧ s.state.unclaimed = 0 := by
  have hpos := List.length_pos_iff.mpr hheld
  have htotal := h.total
  omega

/-- A dropped future leaves the list, and passes on a permit that it was granted. -/
theorem dropAcquire_eq (h : Lone s.state) (ha : s.state.acquires.get i = some a) :
    s.state.dropAcquire i a = if a.granted then
      { s.state with
        waiters := s.state.waiters.erase i
        acquires := s.state.acquires.remove i }.releaseLocked 1
    else ({ s.state with
      waiters := s.state.waiters.erase i
      acquires := s.state.acquires.remove i }, []) := by
  unfold Semaphore.State.dropAcquire
  by_cases hi : i ∈ s.state.waiters
  · obtain ⟨b, hb, hgranted⟩ := h.sound.live i hi
    obtain rfl : a = b := Option.some.inj (ha.symm.trans hb)
    simp [hi, hgranted]
  · rw [List.erase_of_not_mem hi, if_neg hi, h.one i a ha]

theorem dropAcquire (h : Single s) (ha : s.state.acquires.get i = some a) :
    Lone (s.state.dropAcquire i a).1 := by
  rw [dropAcquire_eq h.lone ha]
  split_ifs with hgranted
  · exact h.lone.remove.releaseLocked (h.alone_of_granted ha hgranted).1
  · exact h.lone.remove

theorem poll_permits (h : Lone s.state) (ha : s.state.acquires.get i = some a) {waker permits : ℕ}
    (hresult : (s.state.poll i a waker).1 = .acquired permits) : permits = 1 := by
  have hpolled := Semaphore.State.polled s.state i a waker
  rcases hpair : s.state.poll i a waker with ⟨result, t⟩
  rw [hpair] at hresult hpolled
  cases hpolled with
  | claim | acquire =>
    cases hresult
    exact h.one i a ha
  | closed | wait | link => cases hresult

theorem step {label : Semaphore.Label} (h : Single s) (hasks : Asks label)
    (hstep : s.step label = some t) : Single t := by
  obtain ⟨hlone, hheld, htotal⟩ := h
  cases hasks with
  | acquire i =>
    cases Semaphore.System.Steps.of_eq hstep with
    | acquireMany hvacant =>
      refine ⟨hlone.insert hvacant, hheld, ?_⟩
      have hunclaimed := Semaphore.State.unclaimed_insert hvacant 1
      dsimp only
      omega
  | poll i proceed waker =>
    cases Semaphore.System.Steps.of_eq hstep with
    | yield => exact ⟨hlone, hheld, htotal⟩
    | @poll _ _ a ha =>
      have hconserves := Semaphore.State.poll_conserves ha waker
      refine ⟨hlone.poll ha waker, fun permits hmem => ?_, ?_⟩
      · cases hresult : (s.state.poll i a waker).1 with
        | acquired n =>
          simp only [hresult, List.mem_append, List.mem_singleton] at hmem
          rcases hmem with hmem | rfl
          · exact hheld permits hmem
          · exact poll_permits hlone ha hresult
        | pending | closed =>
          simp only [hresult] at hmem
          exact hheld permits hmem
      · cases hresult : (s.state.poll i a waker).1 with
        | acquired n =>
          obtain rfl := poll_permits hlone ha hresult
          simp only [hresult, Semaphore.Poll.permits, List.length_append,
            List.length_singleton] at hconserves ⊢
          omega
        | pending | closed =>
          simp only [hresult, Semaphore.Poll.permits] at hconserves ⊢
          omega
  | dropAcquire i =>
    cases Semaphore.System.Steps.of_eq hstep with
    | dropAcquire ha =>
      have hfits : s.state.permits + s.state.unclaimed ≤ usizeMax := by
        have : 1 ≤ usizeMax := by decide
        omega
      have hconserves := hlone.sound.dropAcquire_conserves ha hfits
      refine ⟨Single.dropAcquire ⟨hlone, hheld, htotal⟩ ha, hheld, ?_⟩
      dsimp only
      omega
  | tryAcquire =>
    cases Semaphore.System.Steps.of_eq hstep with
    | refused => exact ⟨hlone, hheld, htotal⟩
    | tryAcquireMany hnil hle =>
      refine ⟨⟨⟨hlone.sound.live, hlone.sound.order, hlone.sound.closed⟩, hlone.one, hlone.opened,
        hlone.registered, fun hne => absurd hnil hne⟩, fun permits hmem => ?_, ?_⟩
      · rcases List.mem_append.mp hmem with hmem | hmem
        · exact hheld permits hmem
        · exact List.mem_singleton.mp hmem
      · simp only [List.length_append, List.length_singleton, Semaphore.State.unclaimed]
          at htotal ⊢
        omega
  | dropPermit j =>
    cases Semaphore.System.Steps.of_eq hstep with
    | @dropPermit _ permits hj =>
      have hmem := List.mem_of_getElem? hj
      obtain rfl := hheld permits hmem
      obtain ⟨hpermits, hlength, hunclaimed⟩ :=
        Single.alone_of_held ⟨hlone, hheld, htotal⟩ (List.ne_nil_of_mem hmem)
      have hle : s.state.permits + 1 ≤ usizeMax := by
        rw [hpermits]
        decide
      have hconserves := hlone.sound.releaseLocked_conserves hle
      have hlt : j < s.held.length := (List.getElem?_eq_some_iff.mp hj).1
      refine ⟨hlone.releaseLocked hpermits, fun permits hmem => ?_, ?_⟩
      · exact hheld permits (List.mem_of_mem_eraseIdx hmem)
      · simp only [List.length_eraseIdx_of_lt hlt]
        omega

theorem kept_or_handed {u : Semaphore.State} (hu : Lone u) (hpermits : u.permits = 0)
    (hgrants : u.grants = s.state.grants) (hwaiters : u.waiters = s.state.waiters)
    (hget : ∀ j ∈ u.waiters, u.acquires.get j = s.state.acquires.get j)
    (hstate : t.state = (u.releaseLocked 1).1)
    (hwakes : t.wakes = s.wakes ++ (u.releaseLocked 1).2) :
    s.state.waiters = [] ∧ t.state.grants = s.state.grants ∨ Handed s t := by
  have hreleased := hu.released hpermits
  rcases hresult : u.releaseLocked 1 with ⟨v, wakes⟩
  rw [hresult] at hreleased hstate hwakes
  cases hreleased with
  | kept hnil =>
    left
    rw [hstate]
    exact ⟨hwaiters ▸ hnil, hgrants⟩
  | @handed i waker rest a hfirst ha hwaker =>
    right
    have hi : i ∈ u.waiters := by simp [hfirst]
    refine ⟨i, waker, rest, a, hwaiters ▸ hfirst, (hget i hi).symm.trans ha, hwaker, ?_, ?_, hwakes⟩
    · simp [hstate, Semaphore.State.grant, ha]
    · rw [hstate]

theorem dropPermit_hands {j : ℕ} (h : Single s) (hstep : s.step (.dropPermit j) = some t) :
    s.state.waiters = [] ∧ t.state.grants = s.state.grants ∨ Handed s t := by
  cases Semaphore.System.Steps.of_eq hstep with
  | @dropPermit _ permits hj =>
    have hmem := List.mem_of_getElem? hj
    obtain rfl := h.held permits hmem
    have hpermits := (h.alone_of_held (List.ne_nil_of_mem hmem)).1
    exact kept_or_handed h.lone hpermits rfl rfl (fun _ _ => rfl) rfl rfl

/-- A future that was granted and is dropped passes the permit on. -/
theorem dropAcquire_hands (h : Single s) (ha : s.state.acquires.get i = some a)
    (hgranted : a.granted = true) (hstep : s.step (.dropAcquire i) = some t) :
    s.state.waiters = [] ∧ t.state.grants = s.state.grants ∨ Handed s t := by
  cases Semaphore.System.Steps.of_eq hstep with
  | @dropAcquire _ b hb =>
    obtain rfl : a = b := Option.some.inj (ha.symm.trans hb)
    have hi := h.lone.sound.not_granted ha hgranted
    have heq := dropAcquire_eq h.lone ha
    rw [if_pos hgranted] at heq
    refine kept_or_handed h.lone.remove (h.alone_of_granted ha hgranted).1 rfl
      (List.erase_of_not_mem hi) (fun j hj => ?_) (congrArg Prod.fst heq)
      (congrArg (s.wakes ++ ·.2) heq)
    have hne : j ≠ i := by
      rintro rfl
      exact hi (List.mem_of_mem_erase hj)
    simp [hne]

theorem poll_grants (s : Semaphore.State) (i : ℕ) (a : Acquire) (waker : ℕ) :
    (s.poll i a waker).2.grants = s.grants := by
  have hpolled := Semaphore.State.polled s i a waker
  rcases hpair : s.poll i a waker with ⟨result, t⟩
  rw [hpair] at hpolled
  cases hpolled <;> rfl

theorem handsOver {label : Semaphore.Label} (h : Single s) (hasks : Asks label)
    (hstep : s.step label = some t) : HandsOver s t := by
  cases hasks with
  | acquire i =>
    cases Semaphore.System.Steps.of_eq hstep with
    | acquireMany => exact .inl rfl
  | poll i proceed waker =>
    cases Semaphore.System.Steps.of_eq hstep with
    | yield => exact .inl rfl
    | poll => exact .inl (poll_grants ..)
  | dropAcquire i =>
    have hsteps := Semaphore.System.Steps.of_eq hstep
    cases hsteps with
    | @dropAcquire _ a ha =>
      by_cases hgranted : a.granted = true
      · exact (h.dropAcquire_hands ha hgranted hstep).imp_left And.right
      · have heq := dropAcquire_eq h.lone ha
        rw [if_neg hgranted] at heq
        left
        simp [heq]
  | tryAcquire =>
    cases Semaphore.System.Steps.of_eq hstep with
    | refused | tryAcquireMany => exact .inl rfl
  | dropPermit j => exact (h.dropPermit_hands hstep).imp_left And.right

theorem dropAcquire_held (h : Single s) (hheld : s.held ≠ [])
    (hstep : s.step (.dropAcquire i) = some t) :
    t.state.grants = s.state.grants ∧ t.held = s.held := by
  cases Semaphore.System.Steps.of_eq hstep with
  | @dropAcquire _ a ha =>
    have hgranted : a.granted ≠ true := fun hgranted =>
      hheld (h.alone_of_granted ha hgranted).2
    rw [dropAcquire_eq h.lone ha, if_neg hgranted]
    exact ⟨rfl, rfl⟩

theorem served (h : Single s) (hwaiters : s.state.waiters ≠ []) :
    s.held ≠ [] ∨ ∃ i a, s.state.acquires.get i = some a ∧ a.granted = true := by
  by_cases hheld : s.held = []
  · right
    have htotal := h.total
    rw [h.lone.busy hwaiters, hheld] at htotal
    have hpos : s.state.acquires.weight (fun a => if a.granted then a.permits else 0) ≠ 0 := by
      simp only [Semaphore.State.unclaimed, List.length_nil] at htotal
      omega
    obtain ⟨n, hn, hne⟩ := List.exists_mem_ne_zero_of_sum_ne_zero hpos
    obtain ⟨a, ha, rfl⟩ := List.mem_map.mp hn
    cases a with
    | none => simp at hne
    | some a =>
      obtain ⟨i, hi⟩ := List.mem_iff_getElem?.mp ha
      refine ⟨i, a, Option.join_eq_some_iff.mpr hi, ?_⟩
      by_contra hgranted
      simp [hgranted] at hne
  · exact .inl hheld

end Single

namespace State
variable {s t : State T} {init : T}

/-- What a step can do, and what becomes of the permits. -/
inductive Moves (s : State T) : State T → Prop where
  | waited {semaphore : Semaphore.System} (single : Single semaphore)
      (held : semaphore.held.length = s.semaphore.held.length)
      (hands : HandsOver s.semaphore semaphore) : Moves s { s with semaphore }
  | locked {semaphore : Semaphore.System} (single : Single semaphore)
      (held : semaphore.held.length = s.semaphore.held.length + 1)
      (hands : HandsOver s.semaphore semaphore) :
      Moves s { s with semaphore, guards := s.guards ++ [none] }
  | read {j : ℕ} : j < s.guards.length →
      Moves s { s with guards := s.guards.set j (some s.data) }
  | write {j : ℕ} {f : T → T} {v : T} (read : s.guards[j]? = some (some v)) : Moves s { s with
      data := f v
      guards := s.guards.set j none
      writes := s.writes ++ [f] }
  | unlocked {j : ℕ} {semaphore : Semaphore.System} (guard : j < s.guards.length)
      (single : Single semaphore) (held : semaphore.held = s.semaphore.held.eraseIdx j)
      (hands : HandsOver s.semaphore semaphore) :
      Moves s { s with semaphore, guards := s.guards.eraseIdx j }
  | getMut {f : T → T} (free : s.guards = []) : Moves s { s with
      data := f s.data
      writes := s.writes ++ [f] }

/-- What a poll can do: it leaves the guards, or it gets the permit and the future is gone. -/
inductive PollMoves (s : State T) (i waker : ℕ) : Bool → State T → Prop where
  | waited {proceed : Bool} {semaphore : Semaphore.System}
      (polled : s.semaphore.step (.poll i proceed waker) = some semaphore)
      (held : semaphore.held = s.semaphore.held) : PollMoves s i waker proceed { s with semaphore }
  | locked {a : Acquire} {permits : ℕ} {middle semaphore : Semaphore.System}
      (future : s.semaphore.state.acquires.get i = some a)
      (acquired : (s.semaphore.state.poll i a waker).1 = .acquired permits)
      (polled : s.semaphore.step (.poll i true waker) = some middle)
      (held : middle.held = s.semaphore.held ++ [permits])
      (dropped : middle.step (.dropAcquire i) = some semaphore) :
      PollMoves s i waker true { s with semaphore, guards := s.guards ++ [none] }

theorem pollMoves {i waker : ℕ} {proceed : Bool} (h : Single s.semaphore)
    (hstep : s.step (.poll i proceed waker) = some t) : PollMoves s i waker proceed t := by
  obtain ⟨a, ha, hstep⟩ := Option.bind_eq_some_iff.mp hstep
  obtain ⟨semaphore, hpoll, hfinish⟩ := Option.bind_eq_some_iff.mp hstep
  cases proceed with
  | false =>
    cases hfinish
    have hsteps := Semaphore.System.Steps.of_eq hpoll
    refine .waited hpoll ?_
    cases hsteps with
    | yield => rfl
  | true =>
    have hsteps := Semaphore.System.Steps.of_eq hpoll
    cases hsteps with
    | @poll _ _ b hb =>
      obtain rfl : a = b := Option.some.inj (ha.symm.trans hb)
      simp only [↓reduceIte] at hfinish
      cases hresult : (s.semaphore.state.poll i a waker).1 with
      | pending =>
        simp only [hresult, finish, Option.some.injEq] at hfinish hpoll
        subst hfinish
        exact .waited hpoll rfl
      | closed =>
        have hpolled := Semaphore.State.polled s.semaphore.state i a waker
        rcases hpair : s.semaphore.state.poll i a waker with ⟨result, u⟩
        rw [hpair] at hpolled hresult
        cases hpolled with
        | closed _ hclosed => simp [h.lone.opened] at hclosed
        | claim | acquire | wait | link => cases hresult
      | acquired permits =>
        simp only [hresult, finish] at hfinish hpoll
        obtain ⟨dropped, hdrop, rfl⟩ := Option.map_eq_some_iff.mp hfinish
        exact .locked ha hresult hpoll rfl hdrop

theorem moves_poll {i waker : ℕ} {proceed : Bool} (h : Single s.semaphore)
    (hstep : s.step (.poll i proceed waker) = some t) : Moves s t := by
  have hmoves := pollMoves h hstep
  cases hmoves with
  | waited hpoll hheld =>
    have hsingle := h.step (.poll i proceed waker) hpoll
    exact .waited hsingle (congrArg List.length hheld) (h.handsOver (.poll i proceed waker) hpoll)
  | @locked a _ middle _ ha _ hpoll hmiddle hdrop =>
    have hsingle := h.step (.poll i true waker) hpoll
    obtain ⟨hgrants, hheld⟩ := hsingle.dropAcquire_held (by simp [hmiddle]) hdrop
    refine .locked (hsingle.step (.dropAcquire i) hdrop) (by simp [hheld, hmiddle]) (.inl ?_)
    have hsteps := Semaphore.System.Steps.of_eq hpoll
    cases hsteps with
    | poll => exact hgrants.trans (Single.poll_grants ..)

theorem moves {label : Label T} (h : Single s.semaphore) (hstep : s.step label = some t) :
    Moves s t := by
  cases label with
  | lock i =>
    obtain ⟨semaphore, hsemaphore, rfl⟩ := Option.map_eq_some_iff.mp hstep
    have hhands := h.handsOver (.acquire i) hsemaphore
    have hsingle := h.step (.acquire i) hsemaphore
    cases Semaphore.System.Steps.of_eq hsemaphore with
    | acquireMany => exact .waited hsingle rfl hhands
  | poll i proceed waker => exact moves_poll h hstep
  | dropLock i =>
    obtain ⟨semaphore, hsemaphore, rfl⟩ := Option.map_eq_some_iff.mp hstep
    have hhands := h.handsOver (.dropAcquire i) hsemaphore
    have hsingle := h.step (.dropAcquire i) hsemaphore
    cases Semaphore.System.Steps.of_eq hsemaphore with
    | dropAcquire => exact .waited hsingle rfl hhands
  | tryLock =>
    obtain ⟨semaphore, hsemaphore, rfl⟩ := Option.map_eq_some_iff.mp hstep
    have hhands := h.handsOver .tryAcquire hsemaphore
    have hsingle := h.step .tryAcquire hsemaphore
    cases hresult : s.semaphore.state.tryAcquireMany 1 with
    | none =>
      simp only [System.step, hresult, Nat.one_pos, ↓reduceIte, Option.some.injEq] at hsemaphore
      subst hsemaphore
      exact .waited hsingle rfl hhands
    | some state =>
      simp only [System.step, hresult, Nat.one_pos, ↓reduceIte, Option.some.injEq] at hsemaphore
      subst hsemaphore
      exact .locked hsingle (by simp) hhands
  | read j =>
    simp only [step] at hstep
    split_ifs at hstep with hj
    cases hstep
    exact .read hj
  | write j f =>
    obtain ⟨v, hv, rfl⟩ := Option.map_eq_some_iff.mp hstep
    exact .write (Option.join_eq_some_iff.mp hv)
  | dropGuard j =>
    simp only [step] at hstep
    split_ifs at hstep with hj
    obtain ⟨semaphore, hsemaphore, rfl⟩ := Option.map_eq_some_iff.mp hstep
    have hhands := h.handsOver (.dropPermit j) hsemaphore
    have hsingle := h.step (.dropPermit j) hsemaphore
    cases Semaphore.System.Steps.of_eq hsemaphore with
    | dropPermit => exact .unlocked hj hsingle rfl hhands
  | getMut f =>
    simp only [step] at hstep
    split_ifs at hstep with hfree
    cases hstep
    exact .getMut hfree.1

theorem Moves.handsOver (h : Moves s t) : HandsOver s.semaphore t.semaphore := by
  cases h with
  | waited _ _ hands | locked _ _ hands | unlocked _ _ _ hands => exact hands
  | read | write | getMut => exact .inl rfl

/-- The holder of the lock has read the value that is in the cell. -/
structure Sound (s : State T) (init : T) : Prop where
  single : Single s.semaphore
  guards : s.guards.length = s.semaphore.held.length
  fresh : ∀ v, some v ∈ s.guards → v = s.data
  updated : s.data = s.writes.foldl (fun v f => f v) init
  panicked : s.panicked = false

theorem Sound.new (init : T) : (State.new init).Sound init :=
  ⟨.new, rfl, fun _ hv => absurd hv List.not_mem_nil, rfl, rfl⟩

theorem Sound.guards_le (h : s.Sound init) : s.guards.length ≤ 1 := by
  have htotal := h.single.total
  have hguards := h.guards
  omega

theorem Sound.step (h : s.Sound init) (hmoves : Moves s t) : t.Sound init := by
  have hle := h.guards_le
  obtain ⟨hsingle, hguards, hfresh, hupdated, hpanicked⟩ := h
  cases hmoves with
  | waited single held => exact ⟨single, hguards.trans held.symm, hfresh, hupdated, hpanicked⟩
  | locked single held =>
    refine ⟨single, ?_, fun v hv => ?_, hupdated, hpanicked⟩
    · simp [hguards, held]
    · exact hfresh v (by simpa using hv)
  | read hj =>
    refine ⟨hsingle, by simpa using hguards, fun v hv => ?_, hupdated, hpanicked⟩
    rcases List.mem_or_eq_of_mem_set hv with hv | hv
    · exact hfresh v hv
    · exact Option.some.inj hv
  | @write j f v hread =>
    have hv : v = s.data := hfresh v (List.mem_of_getElem? hread)
    refine ⟨hsingle, by simpa using hguards, fun w hw => ?_, ?_, hpanicked⟩
    · obtain ⟨hj, -⟩ := List.getElem?_eq_some_iff.mp hread
      obtain rfl : j = 0 := by omega
      obtain ⟨guard, hguard⟩ := List.length_eq_one_iff.mp (show s.guards.length = 1 by omega)
      simp [hguard] at hw
    · rw [List.foldl_append, ← hupdated, hv]
      rfl
  | unlocked hj single held =>
    refine ⟨single, ?_, fun v hv => ?_, hupdated, hpanicked⟩
    · rw [held, List.length_eraseIdx_of_lt hj, List.length_eraseIdx_of_lt (hguards ▸ hj), hguards]
    · exact hfresh v (List.mem_of_mem_eraseIdx hv)
  | getMut hfree =>
    refine ⟨hsingle, hguards, fun v hv => ?_, ?_, hpanicked⟩
    · simp [hfree] at hv
    · rw [List.foldl_append, ← hupdated]
      rfl

/-- The step gives the permit back: a guard is dropped, or a future that was granted. -/
def Releases (s : State T) : Label T → Prop
  | .dropGuard _ => True
  | .dropLock i => ∃ a, s.semaphore.state.acquires.get i = some a ∧ a.granted = true
  | _ => False

theorem handed_of_releases {label : Label T} (h : Single s.semaphore)
    (hreleases : s.Releases label) (hwaiters : s.semaphore.state.waiters ≠ [])
    (hstep : s.step label = some t) : Handed s.semaphore t.semaphore := by
  cases label with
  | dropGuard j =>
    obtain ⟨-, hstep⟩ := Option.ite_none_right_eq_some.mp hstep
    obtain ⟨semaphore, hsemaphore, rfl⟩ := Option.map_eq_some_iff.mp hstep
    exact (h.dropPermit_hands hsemaphore).resolve_left fun hkept => hwaiters hkept.1
  | dropLock i =>
    obtain ⟨a, ha, hgranted⟩ := hreleases
    obtain ⟨semaphore, hsemaphore, rfl⟩ := Option.map_eq_some_iff.mp hstep
    exact (h.dropAcquire_hands ha hgranted hsemaphore).resolve_left fun hkept => hwaiters hkept.1
  | lock | poll | tryLock | read | write | getMut => exact hreleases.elim

/-- At most one guard is live and no update is lost. While a future waits, the lock is held or is
granted to another one; whoever gives it back hands it to the first of the list, which is woken,
and nobody overtakes the list. -/
structure Exclusive (s : State T) (init : T) : Prop where
  single : s.guards.length ≤ 1
  updated : s.data = s.writes.foldl (fun v f => f v) init
  panicked : s.panicked = false
  served : s.semaphore.state.waiters ≠ [] →
    s.guards ≠ [] ∨ ∃ i a, s.semaphore.state.acquires.get i = some a ∧ a.granted = true
  ordered : Semaphore.System.Ordered s.semaphore.state
  handed : ∀ label t, s.step label = some t → HandsOver s.semaphore t.semaphore
  released : ∀ label t, s.step label = some t → s.Releases label →
    s.semaphore.state.waiters ≠ [] → Handed s.semaphore t.semaphore

theorem lock_excludes (h : Reachable step anyStep (.new init) s) : s.Exclusive init := by
  have hsound : s.Sound init := by
    apply h.invariant (.new init)
    intro s label t hs _ hstep
    exact hs.step (moves hs.single hstep)
  refine ⟨hsound.guards_le, hsound.updated, hsound.panicked, fun hwaiters => ?_,
    Semaphore.System.ordered_of_sound hsound.single.lone.sound, fun label t hstep => ?_,
    fun label t hstep hreleases hwaiters => ?_⟩
  · refine (hsound.single.served hwaiters).imp_left fun hheld hnil => hheld ?_
    rw [← List.length_eq_zero_iff, ← hsound.guards, hnil, List.length_nil]
  · exact (moves hsound.single hstep).handsOver
  · exact handed_of_releases hsound.single hreleases hwaiters hstep

/-- Two futures increment the cell; the second waits for the guard of the first. -/
theorem lock_excludes_two : ∃ s, Reachable step anyStep (.new 0) s ∧ s.data = 2 ∧
    s.semaphore.wakes = [8] ∧ s.Exclusive 0 := by
  have hrun : (run (guarded step anyStep) (State.new 0)
      [.lock 0, .lock 1, .poll 0 true 7, .poll 1 true 8, .read 0, .write 0 (· + 1), .dropGuard 0,
        .poll 1 true 8, .read 0, .write 0 (· + 1)]).any
        (fun s => decide (s.data = 2) && decide (s.semaphore.wakes = [8])) = true := by
    decide +kernel
  obtain ⟨s, hreach, hs⟩ := exists_reachable_of_run hrun
  simp only [Bool.and_eq_true, decide_eq_true_eq] at hs
  exact ⟨s, hreach, hs.1, hs.2, lock_excludes hreach⟩

end State
end Eddy.Mutex
