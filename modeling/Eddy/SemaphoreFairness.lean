import Eddy.Semaphore
import Mathlib.Data.List.Sort

/-!
# Permits and their order

No permit is lost or made up, waiters are granted in the order in which they were linked, and
the first waiter in the list needs more permits than there are, unless the waiter before it was
dropped from the list.
-/

namespace Eddy.Semaphore
open Interleaving

namespace State
variable {s s' : State} {i : ℕ} {a : Acquire}

/-- The place of a waiter in the order in which waiters were linked. -/
def turn (s : State) (i : ℕ) : ℕ := (s.acquires.get i).elim 0 Acquire.turn

structure Sound (s : State) : Prop where
  live : ∀ i ∈ s.waiters, ∃ a, s.acquires.get i = some a ∧ a.granted = false
  /-- Waiters are granted in turn, and those in the list are later than those granted. -/
  order : (s.grants ++ s.waiters.map s.turn ++ [s.linked]).Pairwise (· < ·)
  closed : s.closed = true → s.waiters = []

theorem Sound.new (permits : ℕ) : (State.new permits).Sound := by
  constructor <;> simp [State.new]

theorem Sound.nodup (h : s.Sound) : s.waiters.Nodup := by
  have horder := (List.pairwise_append.mp (List.pairwise_append.mp h.order).1).2.1
  exact List.Nodup.of_map _ (horder.imp fun hlt => hlt.ne)

theorem Sound.not_granted (h : s.Sound) (ha : s.acquires.get i = some a)
    (hgranted : a.granted = true) : i ∉ s.waiters := by
  intro hi
  obtain ⟨b, hb, hfalse⟩ := h.live i hi
  obtain rfl : a = b := Option.some.inj (ha.symm.trans hb)
  simp [hgranted] at hfalse

/-- Waiters leave the list, and the others keep their turn. -/
theorem Sound.of_sublist (h : s.Sound) (hwaiters : s'.waiters.Sublist s.waiters)
    (hlive : ∀ i ∈ s'.waiters, ∀ a, s.acquires.get i = some a → a.granted = false →
      ∃ b, s'.acquires.get i = some b ∧ b.granted = false ∧ b.turn = a.turn)
    (hgrants : s'.grants = s.grants) (hlinked : s'.linked = s.linked)
    (hclosed : s'.closed = true → s'.waiters = []) : s'.Sound := by
  have hturn : s'.waiters.map s'.turn = s'.waiters.map s.turn := by
    apply List.map_congr_left
    intro i hi
    obtain ⟨a, ha, hfalse⟩ := h.live i (hwaiters.subset hi)
    obtain ⟨b, hb, -, heq⟩ := hlive i hi a ha hfalse
    simp [turn, ha, hb, heq]
  refine ⟨fun i hi => ?_, ?_, hclosed⟩
  · obtain ⟨a, ha, hfalse⟩ := h.live i (hwaiters.subset hi)
    obtain ⟨b, hb, hgranted, -⟩ := hlive i hi a ha hfalse
    exact ⟨b, hb, hgranted⟩
  · rw [hgrants, hlinked, hturn]
    refine List.Pairwise.sublist ?_ h.order
    exact ((List.Sublist.refl _).append (hwaiters.map _)).append (List.Sublist.refl _)

/-- The first waiter in the list needs more permits than there are. -/
def Blocked (s : State) : Prop :=
  ∀ i a, s.waiters.head? = some i → s.acquires.get i = some a → s.permits < a.permits

/-- The permits of futures that were granted and not yet polled. -/
def unclaimed (s : State) : ℕ :=
  s.acquires.weight fun a => if a.granted then a.permits else 0

theorem Sound.grant {rest : List ℕ} (h : Sound { s with waiters := i :: rest })
    (ha : s.acquires.get i = some a) : Sound { s.grant i a with waiters := rest } := by
  have hother : ∀ j ∈ rest, (s.grant i a).acquires.get j = s.acquires.get j := by
    intro j hj
    have hne : j ≠ i := by
      rintro rfl
      exact (List.nodup_cons.mp h.nodup).1 hj
    simp [State.grant, hne]
  have hturn : rest.map (State.turn { s.grant i a with waiters := rest }) =
      rest.map s.turn := by
    apply List.map_congr_left
    intro j hj
    simp only [turn, hother j hj]
  refine ⟨fun j hj => ?_, ?_, fun hclosed => ?_⟩
  · obtain ⟨b, hb, hgranted⟩ := h.live j (List.mem_cons_of_mem _ hj)
    exact ⟨b, (hother j hj).trans hb, hgranted⟩
  · have horder : (s.grants ++ (i :: rest).map s.turn ++ [s.linked]).Pairwise (· < ·) := h.order
    have hi : s.turn i = a.turn := by simp [turn, ha]
    rw [List.map_cons, hi] at horder
    simp only [hturn]
    simpa [State.grant] using horder
  · have := h.closed hclosed
    cases this

theorem grant_conserves (ha : s.acquires.get i = some a) (hgranted : a.granted = false)
    (hle : a.permits ≤ s.permits) :
    (s.grant i a).permits + (s.grant i a).unclaimed = s.permits + s.unclaimed := by
  have hweight := Slab.weight_modify (fun a : Acquire => if a.granted then a.permits else 0) ha
    fun a => { a with granted := true, waker := none }
  simp only [hgranted, Bool.false_eq_true, ↓reduceIte] at hweight
  simp only [State.grant, unclaimed]
  omega

/-- What the loop does with the nodes of the list. -/
structure Granted (s s' : State) : Prop where
  sound : s'.Sound
  blocked : s'.Blocked
  conserves : s'.permits + s'.unclaimed = s.permits + s.unclaimed

theorem Sound.grantWaiters {waiters : List ℕ} (h : Sound { s with waiters := waiters }) :
    Granted s (s.grantWaiters waiters).1 := by
  induction waiters generalizing s with
  | nil => exact ⟨h, by simp [Blocked, State.grantWaiters], rfl⟩
  | cons i rest ih =>
    obtain ⟨a, ha, hgranted⟩ := h.live i (List.mem_cons_self ..)
    have ha : s.acquires.get i = some a := ha
    simp only [State.grantWaiters, ha]
    split_ifs with hlt
    · refine ⟨h, fun j b hj hb => ?_, rfl⟩
      obtain rfl : i = j := by simpa using hj
      obtain rfl : a = b := Option.some.inj (ha.symm.trans hb)
      exact hlt
    · obtain ⟨hsound, hblocked, hconserves⟩ := ih (h.grant ha)
      exact ⟨hsound, hblocked, hconserves.trans (grant_conserves ha hgranted (by omega))⟩

theorem Sound.releaseLocked (h : s.Sound) (permits : ℕ) :
    Granted { s with permits := saturatingAdd s.permits permits } (s.releaseLocked permits).1 := by
  apply Sound.grantWaiters
  exact ⟨h.live, h.order, h.closed⟩

theorem Sound.releaseLocked_conserves (h : s.Sound) {permits : ℕ}
    (hle : s.permits + permits ≤ usizeMax) :
    (s.releaseLocked permits).1.permits + (s.releaseLocked permits).1.unclaimed =
      s.permits + permits + s.unclaimed := by
  have hexact : saturatingAdd s.permits permits = s.permits + permits := Nat.min_eq_left hle
  exact (h.releaseLocked permits).conserves.trans (congrArg (· + s.unclaimed) hexact)

theorem Sound.insert (h : s.Sound) (hi : s.acquires.Vacant i) (a : Acquire) :
    Sound { s with acquires := s.acquires.insert i a } := by
  refine h.of_sublist (List.Sublist.refl _) (fun j _ b hb hgranted => ?_) rfl rfl h.closed
  have hne : j ≠ i := by
    rintro rfl
    have := hi.2
    simp [hb] at this
  exact ⟨b, by simp [Slab.get_insert hi, hne, hb], hgranted, rfl⟩

/-- The future of a waiter changes but keeps its turn. -/
theorem Sound.modify (h : s.Sound) {f : Acquire → Acquire}
    (hf : i ∈ s.waiters → ∀ a, a.granted = false → (f a).granted = false ∧ (f a).turn = a.turn) :
    Sound { s with acquires := s.acquires.modify i f } := by
  refine h.of_sublist (List.Sublist.refl _) (fun j hj b hb hgranted => ?_) rfl rfl h.closed
  by_cases hji : j = i
  · subst hji
    obtain ⟨hgranted', hturn⟩ := hf hj b hgranted
    exact ⟨f b, by simp [hb], hgranted', hturn⟩
  · exact ⟨b, by simp [hji, hb], hgranted, rfl⟩

theorem Sound.remove (h : s.Sound) :
    Sound { s with waiters := s.waiters.erase i, acquires := s.acquires.remove i } := by
  refine h.of_sublist List.erase_sublist (fun j hj b hb hgranted => ?_) rfl rfl fun hclosed => ?_
  · have hne : j ≠ i := by
      rintro rfl
      exact h.nodup.not_mem_erase hj
    exact ⟨b, by simp [hne, hb], hgranted, rfl⟩
  · simp [h.closed hclosed]

theorem Sound.link (h : s.Sound) (ha : s.acquires.get i = some a) (hgranted : a.granted = false)
    (hclosed : s.closed = false) (hi : i ∉ s.waiters) (waker : ℕ) :
    Sound { s with
      acquires := s.acquires.modify i fun a => { a with waker := some waker, turn := s.linked }
      waiters := s.waiters ++ [i]
      linked := s.linked + 1 } := by
  have hturn : s.waiters.map (State.turn { s with
      acquires := s.acquires.modify i fun a => { a with waker := some waker, turn := s.linked }
      waiters := s.waiters ++ [i]
      linked := s.linked + 1 }) = s.waiters.map s.turn := by
    apply List.map_congr_left
    intro j hj
    have hne : j ≠ i := fun heq => hi (heq ▸ hj)
    simp [turn, hne]
  refine ⟨fun j hj => ?_, ?_, fun htrue => ?_⟩
  · rcases List.mem_append.mp hj with hj | hj
    · obtain ⟨b, hb, hfalse⟩ := h.live j hj
      have hne : j ≠ i := fun heq => hi (heq ▸ hj)
      exact ⟨b, by simp [hne, hb], hfalse⟩
    · rw [List.mem_singleton.mp hj]
      exact ⟨{ a with waker := some waker, turn := s.linked }, by simp [ha], hgranted⟩
  · simp only [List.map_append, hturn, List.map_cons, List.map_nil]
    have hself : State.turn { s with
        acquires := s.acquires.modify i fun a => { a with waker := some waker, turn := s.linked }
        waiters := s.waiters ++ [i]
        linked := s.linked + 1 } i = s.linked := by
      simp [turn, ha]
    rw [hself, ← List.append_assoc, List.pairwise_append]
    refine ⟨h.order, List.pairwise_singleton _ _, fun x hx y hy => ?_⟩
    rw [List.mem_singleton.mp hy]
    rcases List.mem_append.mp hx with hx | hx
    · have := (List.pairwise_append.mp h.order).2.2 x hx s.linked (List.mem_singleton_self _)
      omega
    · rw [List.mem_singleton.mp hx]
      exact Nat.lt_succ_self _
  · simp [hclosed] at htrue

/-- What a poll with budget can do. -/
inductive Polled (s : State) (i : ℕ) (a : Acquire) (waker : ℕ) : Poll × State → Prop where
  | claim : a.granted = true → Polled s i a waker (.acquired a.permits, { s with
      acquires := s.acquires.modify i fun a => { a with granted := false } })
  | closed : a.granted = false → s.closed = true →
      Polled s i a waker (.closed, { s with waiters := s.waiters.erase i })
  | acquire : a.granted = false → s.closed = false → s.waiters = [] → a.permits ≤ s.permits →
      Polled s i a waker (.acquired a.permits, { s with permits := s.permits - a.permits })
  | wait : a.granted = false → s.closed = false → i ∈ s.waiters →
      Polled s i a waker (.pending, { s with
        acquires := s.acquires.modify i fun a => { a with waker := some waker } })
  | link : a.granted = false → s.closed = false → i ∉ s.waiters →
      (s.waiters = [] → s.permits < a.permits) →
      Polled s i a waker (.pending, { s with
        acquires := s.acquires.modify i fun a => { a with waker := some waker, turn := s.linked }
        waiters := s.waiters ++ [i]
        linked := s.linked + 1 })

theorem polled (s : State) (i : ℕ) (a : Acquire) (waker : ℕ) :
    Polled s i a waker (s.poll i a waker) := by
  unfold State.poll
  split_ifs with hgranted hclosed hfree hi
  · exact .claim hgranted
  · exact .closed (by simpa using hgranted) hclosed
  · exact .acquire (by simpa using hgranted) (by simpa using hclosed) hfree.2.1 hfree.2.2
  · exact .wait (by simpa using hgranted) (by simpa using hclosed) hi
  · refine .link (by simpa using hgranted) (by simpa using hclosed) hi fun hnil => ?_
    by_contra hle
    exact hfree ⟨hi, hnil, by omega⟩

theorem Sound.close (h : s.Sound) : s.close.1.Sound := by
  refine h.of_sublist (List.nil_sublist _) nofun rfl rfl fun _ => rfl

theorem unclaimed_insert (hi : s.acquires.Vacant i) (permits : ℕ) :
    unclaimed { s with acquires := s.acquires.insert i (.new permits) } = s.unclaimed := by
  simp [unclaimed, Slab.weight_insert _ hi, Acquire.new]

end State

/-- The permits that a poll hands out. -/
def Poll.permits : Poll → ℕ
  | .acquired permits => permits
  | .pending | .closed => 0

namespace State
variable {s s' : State} {i : ℕ} {a : Acquire}

theorem Sound.poll (h : s.Sound) (ha : s.acquires.get i = some a) (waker : ℕ) :
    (s.poll i a waker).2.Sound := by
  have hpoll := polled s i a waker
  rcases hresult : s.poll i a waker with ⟨result, s'⟩
  rw [hresult] at hpoll
  cases hpoll with
  | claim hgranted =>
    apply h.modify
    intro hi
    exact absurd hi (h.not_granted ha hgranted)
  | closed _ hclosed =>
    refine h.of_sublist List.erase_sublist (fun j _ b hb hgranted => ⟨b, hb, hgranted, rfl⟩) rfl rfl
      fun hclosed => ?_
    simp [h.closed hclosed]
  | acquire => exact ⟨h.live, h.order, h.closed⟩
  | wait => exact h.modify fun _ b hb => ⟨hb, rfl⟩
  | link hgranted hclosed hi => exact h.link ha hgranted hclosed hi waker

theorem poll_conserves (ha : s.acquires.get i = some a) (waker : ℕ) :
    (s.poll i a waker).2.permits + (s.poll i a waker).2.unclaimed +
      (s.poll i a waker).1.permits = s.permits + s.unclaimed := by
  have hpoll := polled s i a waker
  rcases hresult : s.poll i a waker with ⟨result, s'⟩
  rw [hresult] at hpoll
  have hsame : ∀ {f : Acquire → Acquire}, (∀ a, (f a).granted = a.granted) →
      (∀ a, (f a).permits = a.permits) →
      (s.acquires.modify i f).weight (fun a => if a.granted then a.permits else 0) =
        s.unclaimed := by
    intro f hgranted hpermits
    apply Slab.weight_modify_eq
    intro b
    rw [hgranted, hpermits]
  cases hpoll with
  | claim hgranted =>
    have hweight := Slab.weight_modify (fun a : Acquire => if a.granted then a.permits else 0) ha
      fun a => { a with granted := false }
    simp only [hgranted, Bool.false_eq_true, ↓reduceIte] at hweight
    simp only [unclaimed, Poll.permits]
    omega
  | closed => rfl
  | acquire _ _ _ hle =>
    simp only [unclaimed, Poll.permits]
    omega
  | wait | link => exact congrArg (s.permits + ·) (hsame (fun _ => rfl) fun _ => rfl)

theorem Sound.remove_of_not_mem (h : s.Sound) (hi : i ∉ s.waiters) :
    Sound { s with acquires := s.acquires.remove i } := by
  have := h.remove (i := i)
  rwa [List.erase_of_not_mem hi] at this

theorem Sound.dropAcquire (h : s.Sound) (i : ℕ) (a : Acquire) : (s.dropAcquire i a).1.Sound := by
  unfold State.dropAcquire
  split_ifs with hi hgranted
  · exact h.remove
  · exact ((h.remove_of_not_mem hi).releaseLocked a.permits).sound
  · exact h.remove_of_not_mem hi

theorem Sound.dropAcquire_conserves (h : s.Sound) (ha : s.acquires.get i = some a)
    (hfits : s.permits + s.unclaimed ≤ usizeMax) :
    (s.dropAcquire i a).1.permits + (s.dropAcquire i a).1.unclaimed =
      s.permits + s.unclaimed := by
  have hweight := Slab.weight_remove (fun a : Acquire => if a.granted then a.permits else 0) ha
  unfold State.dropAcquire
  split_ifs with hi hgranted
  · obtain ⟨b, hb, hgranted⟩ := h.live i hi
    obtain rfl : a = b := Option.some.inj (ha.symm.trans hb)
    simp only [hgranted, Bool.false_eq_true, ↓reduceIte, Nat.add_zero] at hweight
    simp only [unclaimed, hweight]
  · simp only [hgranted, ↓reduceIte] at hweight
    simp only [unclaimed] at hfits
    have hle : s.permits + a.permits ≤ usizeMax := by omega
    refine ((h.remove_of_not_mem hi).releaseLocked_conserves hle).trans ?_
    simp only [unclaimed]
    omega
  · simp only [hgranted, Bool.false_eq_true, ↓reduceIte, Nat.add_zero] at hweight
    simp only [unclaimed, hweight]

theorem unclaimed_close : s.close.1.unclaimed = s.unclaimed := by
  simp only [State.close, unclaimed]
  generalize s.acquires = acquires
  induction s.waiters generalizing acquires with
  | nil => rfl
  | cons i waiters ih =>
    rw [List.foldl_cons, ih]
    apply Slab.weight_modify_eq
    exact fun _ => rfl

/-- The first waiter stays first and needs as much as before. -/
theorem Blocked.of_head (h : s.Blocked) (hhead : s'.waiters.head? = s.waiters.head?)
    (hpermits : s'.permits ≤ s.permits)
    (hget : ∀ i ∈ s.waiters, ∀ a, s'.acquires.get i = some a →
      ∃ b, s.acquires.get i = some b ∧ b.permits = a.permits) : s'.Blocked := by
  intro i a hi ha
  rw [hhead] at hi
  obtain ⟨b, hb, heq⟩ := hget i (List.mem_of_mem_head? hi) a ha
  have := h i b hi hb
  omega

theorem Blocked.of_nil (h : s.waiters = []) : s.Blocked := by
  intro i a hi
  simp [h] at hi

theorem Blocked.modify (h : s.Blocked) {f : Acquire → Acquire}
    (hf : ∀ a, (f a).permits = a.permits) :
    Blocked { s with acquires := s.acquires.modify i f } := by
  refine h.of_head rfl (Nat.le_refl _) fun j _ a ha => ?_
  simp only [Slab.get_modify] at ha
  split_ifs at ha
  · obtain ⟨b, hb, rfl⟩ := Option.map_eq_some_iff.mp ha
    exact ⟨b, hb, (hf b).symm⟩
  · exact ⟨a, ha, rfl⟩

theorem Blocked.poll (h : s.Blocked) (hsound : s.Sound) (ha : s.acquires.get i = some a)
    (waker : ℕ) : (s.poll i a waker).2.Blocked := by
  have hpoll := polled s i a waker
  rcases hresult : s.poll i a waker with ⟨result, s'⟩
  rw [hresult] at hpoll
  cases hpoll with
  | claim => exact h.modify fun _ => rfl
  | closed _ hclosed =>
    apply Blocked.of_nil
    simp [hsound.closed hclosed]
  | acquire _ _ hnil => exact .of_nil hnil
  | wait => exact h.modify fun _ => rfl
  | link _ _ _ hneeds =>
    have hmodify := h.modify (i := i) (f := fun a =>
      { a with waker := some waker, turn := s.linked }) fun _ => rfl
    cases hwaiters : s.waiters with
    | nil =>
      intro j b hj hb
      obtain rfl : i = j := by simpa [hwaiters] using hj
      have hb : some { a with waker := some waker, turn := s.linked } = some b := by
        simpa [ha] using hb
      cases hb
      exact hneeds hwaiters
    | cons k waiters =>
      intro j b hj hb
      exact hmodify j b (by simpa [hwaiters] using hj) hb

/-- A waiter leaves the list and the next one, if it becomes the first, is blocked. -/
theorem Blocked.dropAcquire (h : s.Blocked) (hsound : s.Sound)
    (hnext : s.waiters.head? = some i → ∀ j ∈ s.waiters.tail.head?, ∀ b ∈ s.acquires.get j,
      s.permits < b.permits) : (s.dropAcquire i a).1.Blocked := by
  have hget : ∀ {j b}, (s.acquires.remove i).get j = some b → s.acquires.get j = some b := by
    intro j b hb
    rw [Slab.get_remove] at hb
    split_ifs at hb
    exact hb
  unfold State.dropAcquire
  split_ifs with hi hgranted
  · cases hwaiters : s.waiters with
    | nil => simp [hwaiters] at hi
    | cons k rest =>
      intro j b hj hb
      by_cases hk : k = i
      · subst hk
        simp only [List.erase_cons_head] at hj
        exact hnext (by simp [hwaiters]) j (by simpa [hwaiters] using hj) b (hget hb)
      · have hne : (k == i) = false := by simpa using hk
        simp only [List.erase_cons, hne, Bool.false_eq_true, ↓reduceIte,
          List.head?_cons] at hj
        exact h j b (by simpa [hwaiters] using hj) (hget hb)
  · exact ((hsound.remove_of_not_mem hi).releaseLocked a.permits).blocked
  · exact h.of_head rfl (Nat.le_refl _) fun j _ b hb => ⟨b, hget hb, rfl⟩

end State

namespace System
variable {s s' : System}

inductive Steps (s : System) : Label → System → Prop where
  | acquireMany {i permits : ℕ} : s.state.acquires.Vacant i → Steps s (.acquireMany i permits) { s with
      state := { s.state with acquires := s.state.acquires.insert i (.new permits) } }
  | poll {i waker : ℕ} {a : Acquire} : s.state.acquires.get i = some a →
      Steps s (.poll i true waker) { s with
        state := (s.state.poll i a waker).2
        held := match (s.state.poll i a waker).1 with
          | .acquired permits => s.held ++ [permits]
          | .pending | .closed => s.held }
  | yield {i waker : ℕ} : Steps s (.poll i false waker) { s with wakes := s.wakes ++ [waker] }
  | dropAcquire {i : ℕ} {a : Acquire} : s.state.acquires.get i = some a →
      Steps s (.dropAcquire i) { s with
        state := (s.state.dropAcquire i a).1
        wakes := s.wakes ++ (s.state.dropAcquire i a).2 }
  | refused {permits : ℕ} : Steps s (.tryAcquireMany permits) s
  | tryAcquireMany {permits : ℕ} : s.state.waiters = [] → permits ≤ s.state.permits →
      Steps s (.tryAcquireMany permits) { s with
        state := { s.state with permits := s.state.permits - permits }
        held := s.held ++ [permits] }
  | addNone : Steps s (.addPermits 0) s
  | addPermits {permits : ℕ} : Steps s (.addPermits permits) { s with
      state := (s.state.releaseLocked permits).1
      wakes := s.wakes ++ (s.state.releaseLocked permits).2
      added := s.added + permits }
  | dropPermit {j permits : ℕ} : s.held[j]? = some permits →
      Steps s (.dropPermit j) { s with
        state := (s.state.releaseLocked permits).1
        held := s.held.eraseIdx j
        wakes := s.wakes ++ (s.state.releaseLocked permits).2 }
  | forget {j permits : ℕ} : s.held[j]? = some permits →
      Steps s (.forget j) { s with
        held := s.held.eraseIdx j
        forgotten := s.forgotten + permits }
  | close : Steps s .close { s with
      state := s.state.close.1
      wakes := s.wakes ++ s.state.close.2 }

theorem Steps.of_eq {a : Label} (hstep : s.step a = some s') : Steps s a s' := by
  cases a with
  | acquireMany i permits =>
    simp only [System.step] at hstep
    split_ifs at hstep with hvacant
    cases hstep
    exact .acquireMany hvacant.2
  | poll i proceed waker =>
    obtain ⟨a, ha, rfl⟩ := Option.map_eq_some_iff.mp hstep
    cases proceed with
    | true => exact .poll ha
    | false => exact .yield
  | dropAcquire i =>
    obtain ⟨a, ha, rfl⟩ := Option.map_eq_some_iff.mp hstep
    exact .dropAcquire ha
  | tryAcquireMany permits =>
    simp only [System.step, State.tryAcquireMany] at hstep
    split_ifs at hstep with hpos hrefused
    · cases hstep
      exact .refused
    · simp only [not_or, Decidable.not_not, Nat.not_lt] at hrefused
      cases hstep
      exact .tryAcquireMany hrefused.2.1 hrefused.2.2
  | addPermits permits =>
    simp only [System.step, State.addPermits] at hstep
    split_ifs at hstep with hzero
    · subst hzero
      cases hstep
      simpa using Steps.addNone (s := s)
    · cases hstep
      exact .addPermits
  | dropPermit j =>
    obtain ⟨permits, hj, rfl⟩ := Option.map_eq_some_iff.mp hstep
    exact .dropPermit hj
  | forget j =>
    obtain ⟨permits, hj, rfl⟩ := Option.map_eq_some_iff.mp hstep
    exact .forget hj
  | close =>
    cases hstep
    exact .close

/-- The first waiter in the list is dropped only if the next one needs more permits than there
are. -/
def DropsBlocked (s : System) : Label → Prop
  | .dropAcquire i => s.state.waiters.head? = some i → ∀ j ∈ s.state.waiters.tail.head?,
      ∀ b ∈ s.state.acquires.get j, s.state.permits < b.permits
  | _ => True

instance (s : System) : (a : Label) → Decidable (s.DropsBlocked a)
  | .dropAcquire i => inferInstanceAs (Decidable (s.state.waiters.head? = some i →
      ∀ j ∈ s.state.waiters.tail.head?, ∀ b ∈ s.state.acquires.get j, s.state.permits < b.permits))
  | .acquireMany .. | .poll .. | .tryAcquireMany _ | .addPermits _ | .dropPermit _ | .forget _
  | .close => .isTrue trivial

theorem sound_step {a : Label} (h : s.state.Sound) (hstep : s.step a = some s') :
    s'.state.Sound := by
  cases Steps.of_eq hstep with
  | acquireMany hvacant => exact h.insert hvacant _
  | poll ha => exact h.poll ha _
  | dropAcquire => exact h.dropAcquire _ _
  | tryAcquireMany => exact ⟨h.live, h.order, h.closed⟩
  | addPermits | dropPermit => exact (h.releaseLocked _).sound
  | close => exact h.close
  | yield | refused | addNone | forget => exact h

theorem blocked_step {a : Label} (h : s.state.Blocked) (hsound : s.state.Sound)
    (hguard : s.DropsBlocked a) (hstep : s.step a = some s') : s'.state.Blocked := by
  cases Steps.of_eq hstep with
  | @acquireMany i permits hvacant =>
    refine h.of_head rfl (Nat.le_refl _) fun j hj b hb => ?_
    obtain ⟨c, hc, -⟩ := hsound.live j hj
    have hne : j ≠ i := by
      rintro rfl
      have := hvacant.2
      simp [hc] at this
    exact ⟨b, by simpa [Slab.get_insert hvacant, hne] using hb, rfl⟩
  | poll ha => exact h.poll hsound ha _
  | dropAcquire => exact h.dropAcquire hsound hguard
  | tryAcquireMany hnil => exact .of_nil hnil
  | addPermits | dropPermit => exact (hsound.releaseLocked _).blocked
  | close => exact .of_nil rfl
  | yield | refused | addNone | forget => exact h

/-- The first waiter of an open semaphore needs more permits than there are. -/
def FrontBlocked (s : System) : Prop :=
  s.state.closed = false → s.state.waiters ≠ [] →
    ∃ i a, s.state.waiters.head? = some i ∧ s.state.acquires.get i = some a ∧
      s.state.permits < a.permits

theorem front_blocked {permits : ℕ} (h : Reachable System.step DropsBlocked (.new permits) s) :
    s.FrontBlocked := by
  have hinv : s.state.Sound ∧ s.state.Blocked := by
    apply h.invariant (I := fun s => s.state.Sound ∧ s.state.Blocked)
    · exact ⟨.new permits, .of_nil rfl⟩
    · intro s a s' hinv hguard hstep
      exact ⟨sound_step hinv.1 hstep, blocked_step hinv.2 hinv.1 hguard hstep⟩
  intro _ hne
  obtain ⟨i, hi⟩ := Option.ne_none_iff_exists'.mp (mt List.head?_eq_none_iff.mp hne)
  obtain ⟨a, ha, -⟩ := hinv.1.live i (List.mem_of_mem_head? hi)
  exact ⟨i, a, hi, ha, hinv.2 i a hi ha⟩

/-- The first waiter is dropped and the next one needs too much as well. -/
theorem dropped_front_blocked :
    ∃ s, Reachable System.step DropsBlocked (.new 1) s ∧ s.state.waiters = [1] ∧
      s.FrontBlocked := by
  have hrun : (run (guarded System.step DropsBlocked) (.new 1)
      [.acquireMany 0 3, .poll 0 true 7, .acquireMany 1 2, .poll 1 true 8, .dropAcquire 0]).any
        (fun s => decide (s.state.waiters = [1])) = true := by
    decide +kernel
  obtain ⟨s, hreach, hs⟩ := exists_reachable_of_run hrun
  exact ⟨s, hreach, by simpa using hs, front_blocked hreach⟩

/-- The waiter behind a dropped one needs no more than there is: `Acquire::drop` unlinks a
queued waiter without looking at the next one. -/
theorem dropped_front_stranded :
    ¬ ∀ s, Reachable System.step anyStep (.new 1) s → s.FrontBlocked := by
  intro h
  have hrun : (run (guarded System.step anyStep) (.new 1)
      [.acquireMany 0 2, .poll 0 true 7, .acquireMany 1 1, .poll 1 true 8, .dropAcquire 0]).any
        (fun s => decide (s.state.closed = false) && decide (s.state.waiters = [1]) &&
          decide (s.state.permits = 1) &&
          (s.state.acquires.get 1).any fun a => a.permits == 1) = true := by
    decide +kernel
  obtain ⟨s, hreach, hs⟩ := exists_reachable_of_run hrun
  simp only [Bool.and_eq_true, decide_eq_true_eq, Option.any_eq_true, beq_iff_eq] at hs
  obtain ⟨⟨⟨hopen, hwaiters⟩, hpermits⟩, b, hb, hneeds⟩ := hs
  obtain ⟨i, a, hi, ha, hlt⟩ := h s hreach hopen (by simp [hwaiters])
  obtain rfl : 1 = i := by simpa [hwaiters] using hi
  obtain rfl : a = b := Option.some.inj (ha.symm.trans hb)
  omega

/-- The permits that exist never exceed what a counter can hold. -/
def Fits (s : System) : Label → Prop
  | .addPermits permits => s.initial + s.added + permits ≤ usizeMax + s.forgotten
  | _ => True

instance (s : System) : (a : Label) → Decidable (s.Fits a)
  | .addPermits permits =>
    inferInstanceAs (Decidable (s.initial + s.added + permits ≤ usizeMax + s.forgotten))
  | .acquireMany .. | .poll .. | .dropAcquire _ | .tryAcquireMany _ | .dropPermit _ | .forget _
  | .close => .isTrue trivial

structure Conserved (s : System) : Prop where
  total : s.state.permits + s.held.sum + s.state.unclaimed + s.forgotten = s.initial + s.added
  fits : s.initial + s.added ≤ usizeMax + s.forgotten

theorem sum_eraseIdx {held : List ℕ} {j permits : ℕ} (hj : held[j]? = some permits) :
    (held.eraseIdx j).sum + permits = held.sum := by
  have := total_eraseIdx id hj
  simpa [Interleaving.total] using this.symm

theorem Conserved.step {a : Label} (h : s.Conserved) (hsound : s.state.Sound) (hguard : s.Fits a)
    (hstep : s.step a = some s') : s'.Conserved := by
  obtain ⟨htotal, hfits⟩ := h
  cases Steps.of_eq hstep with
  | acquireMany hvacant =>
    refine ⟨?_, hfits⟩
    rw [← htotal, ← State.unclaimed_insert hvacant]
  | @poll i waker a ha =>
    refine ⟨?_, hfits⟩
    have hconserves := State.poll_conserves ha waker
    cases hresult : (s.state.poll i a waker).1 <;>
      simp only [hresult, Poll.permits, List.sum_append, List.sum_singleton] at hconserves ⊢ <;>
      omega
  | yield | refused | addNone => exact ⟨htotal, hfits⟩
  | dropAcquire ha =>
    refine ⟨?_, hfits⟩
    have hconserves := hsound.dropAcquire_conserves ha (by omega)
    dsimp only
    omega
  | tryAcquireMany _ hle =>
    refine ⟨?_, hfits⟩
    simp only [List.sum_append, List.sum_singleton, State.unclaimed] at htotal ⊢
    omega
  | @addPermits permits =>
    have hguard : s.initial + s.added + permits ≤ usizeMax + s.forgotten := hguard
    have hle : s.state.permits + permits ≤ usizeMax := by omega
    have hconserves := hsound.releaseLocked_conserves hle
    refine ⟨?_, by dsimp only; omega⟩
    dsimp only
    omega
  | @dropPermit j permits hj =>
    have hsum := sum_eraseIdx hj
    have hle : s.state.permits + permits ≤ usizeMax := by omega
    have hconserves := hsound.releaseLocked_conserves hle
    refine ⟨?_, hfits⟩
    dsimp only
    omega
  | forget hj =>
    have hsum := sum_eraseIdx hj
    constructor
    · dsimp only
      omega
    · dsimp only
      omega
  | close =>
    refine ⟨?_, hfits⟩
    rw [← htotal]
    exact congrArg (fun n => s.state.permits + s.held.sum + n + s.forgotten) State.unclaimed_close

/-- Waiters are granted in the order in which they were linked, and nobody gets a permit past
them. -/
structure Ordered (s : State) : Prop where
  /-- Grants came in turn, and the waiters in the list are later and in turn. -/
  turns : (s.grants ++ s.waiters.map s.turn).Pairwise (· < ·)
  tryAcquire : ∀ permits, s.tryAcquireMany permits ≠ none → s.waiters = []
  fresh : ∀ i a waker permits, s.acquires.get i = some a → a.granted = false →
    (s.poll i a waker).1 = .acquired permits → s.waiters = []

theorem ordered_of_sound {s : State} (h : s.Sound) : Ordered s := by
  refine ⟨(List.pairwise_append.mp h.order).1, fun permits hsome => ?_,
    fun i a waker permits _ hgranted hresult => ?_⟩
  · by_contra hne
    exact hsome (if_pos (.inr (.inl hne)))
  · have hpoll := State.polled s i a waker
    rcases hpair : s.poll i a waker with ⟨result, s'⟩
    rw [hpair] at hpoll hresult
    cases hpoll with
    | claim htrue => simp [hgranted] at htrue
    | acquire _ _ hnil => exact hnil
    | closed | wait | link => cases hresult

theorem permits_conserved_in_order {permits : ℕ} (hpermits : permits ≤ usizeMax)
    (h : Reachable System.step Fits (.new permits) s) :
    s.state.permits + s.held.sum + s.state.unclaimed + s.forgotten = permits + s.added ∧
      Ordered s.state := by
  have hinv : s.state.Sound ∧ s.Conserved ∧ s.initial = permits := by
    apply h.invariant (I := fun s => s.state.Sound ∧ s.Conserved ∧ s.initial = permits)
    · refine ⟨.new permits, ⟨?_, ?_⟩, rfl⟩
      · simp [System.new, State.new, State.unclaimed]
      · simpa [System.new] using hpermits
    · intro s a s' hinv hguard hstep
      refine ⟨sound_step hinv.1 hstep, hinv.2.1.step hinv.1 hguard hstep, ?_⟩
      rw [← hinv.2.2]
      cases Steps.of_eq hstep <;> rfl
  rw [← hinv.2.2]
  exact ⟨hinv.2.1.total, ordered_of_sound hinv.1⟩

/-- A waiter is granted by a release, is dropped before it claims its permits, and the next one
gets them. -/
theorem dropped_grant_passed_on :
    2 ≤ usizeMax ∧ ∃ s, Reachable System.step Fits (.new 2) s ∧ s.state.grants = [0, 1] ∧
      s.state.unclaimed = 1 ∧
      s.state.permits + s.held.sum + s.state.unclaimed + s.forgotten = 2 + s.added ∧
      Ordered s.state := by
  have hrun : (run (guarded System.step Fits) (.new 2)
      [.tryAcquireMany 2, .acquireMany 0 2, .poll 0 true 7, .acquireMany 1 1, .poll 1 true 8,
        .dropPermit 0, .dropAcquire 0]).any (fun s => decide (s.state.grants = [0, 1]) &&
          decide (s.state.unclaimed = 1)) = true := by
    decide +kernel
  obtain ⟨s, hreach, hs⟩ := exists_reachable_of_run hrun
  simp only [Bool.and_eq_true, decide_eq_true_eq] at hs
  have hle : 2 ≤ usizeMax := by decide
  obtain ⟨htotal, hordered⟩ := permits_conserved_in_order hle hreach
  exact ⟨hle, s, hreach, hs.1, hs.2, htotal, hordered⟩

end System

end Eddy.Semaphore
