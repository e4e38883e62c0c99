import Eddy.IoWaiters

/-!
# No waiter is lost or misdirected

A future that has returned `Pending` has a waiter of its own, which is linked once or has been
taken off by a report. What a report takes off are the waiters whose interest it satisfies, and
only the future that made a waiter can take it off otherwise.
-/

namespace Eddy.IoWaiters
open Interleaving ScheduledIo

namespace Waiters

/-- The waiter of the state is linked where the state says. -/
def Holds (ws : Waiters) : WaiterState → Prop
  | .unregistered => False
  | .inSlot slot w => ws.slot slot = some w
  | .inList w => w ∈ ws.list

variable {ws : Waiters} {st st' : WaiterState} {w x : ℕ}

theorem Holds.mem_ids (h : ws.Holds st) (hw : st.waiter? = some w) : w ∈ ws.ids := by
  cases st with
  | unregistered => cases h
  | inSlot slot v =>
    cases hw
    exact slot_mem_ids h
  | inList v =>
    cases hw
    exact List.mem_append_right _ h

/-- `detach` takes the waiter off if it is still linked. -/
theorem detach_of_holds (h : ws.Linked) (hst : ws.Holds st) (hw : st.waiter? = some w) :
    w ∉ (ws.detach st).ids ∧ ∀ x ∈ (ws.detach st).ids, x ∈ ws.ids := by
  have htaken : ∀ x, (ws.detach st).ids.count x + [w].count x = ws.ids.count x := by
    cases st with
    | unregistered => cases hst
    | inSlot slot v =>
      cases hw
      simp only [Waiters.detach, show ws.slot slot = some w from hst, if_true]
      have hraw : (ws.fromRaw w).slot slot = some w := by cases slot <;> exact hst
      exact fun x => count_setSlot_none hraw x
    | inList v =>
      cases hw
      have hmem : w ∈ ws.list := hst
      simp only [Waiters.detach, (h.flag w).mpr hmem, if_true]
      intro x
      have hperm := (List.perm_cons_erase hmem).count_eq x
      simp only [ids, Waiters.remove, fromRaw, List.count_append] at hperm ⊢
      rw [List.count_cons] at hperm
      rw [hperm, List.count_singleton]
      split_ifs at hperm ⊢ <;> omega
  refine ⟨fun hmem => ?_, fun x hx => ?_⟩
  · have := h.once w
    have := htaken w
    have := List.count_pos_iff.mpr hmem
    have : [w].count w = 1 := List.count_singleton_self
    omega
  · have := htaken x
    have := List.count_pos_iff.mpr hx
    exact List.count_pos_iff.mp (by omega)

theorem detach_of_not_holds (h : ws.Linked) (hst : ¬ ws.Holds st) : ws.detach st = ws := by
  cases st with
  | unregistered => rfl
  | inSlot slot w => exact if_neg hst
  | inList w => exact if_neg fun hlinked => hst ((h.flag w).mp hlinked)

/-- `detach` leaves the waiters of other futures where they are. -/
theorem holds_detach (hst' : ws.Holds st') (hne : st.waiter? ≠ st'.waiter?) :
    (ws.detach st).Holds st' := by
  cases st with
  | unregistered => exact hst'
  | inSlot slot w =>
    simp only [Waiters.detach]
    split_ifs with hslot
    · cases st' with
      | unregistered => exact hst'
      | inSlot slot' w' =>
        have hslots : slot' ≠ slot := by
          rintro rfl
          exact hne (hslot.symm.trans hst')
        cases slot <;> cases slot' <;> first | exact absurd rfl hslots | exact hst'
      | inList w' => cases slot <;> exact hst'
    · exact hst'
  | inList w =>
    simp only [Waiters.detach]
    split_ifs with hlinked
    · cases st' with
      | unregistered => exact hst'
      | inSlot slot' w' => cases slot' <;> exact hst'
      | inList w' =>
        have hww : w' ≠ w := fun e => hne (by simp [WaiterState.waiter?, e])
        exact (List.mem_erase_of_ne hww).mpr hst'
    · exact hst'

/-- `add_waiter` links the new waiter and leaves the others where they are. -/
theorem holds_add (ws : Waiters) (interests : Interest) (w : ℕ) :
    (ws.add interests w).1.Holds (ws.add interests w).2 ∧
      (ws.add interests w).2.waiter? = some w ∧
      (∀ st, ws.Holds st → (ws.add interests w).1.Holds st) ∧
      ∀ x ∈ (ws.add interests w).1.ids, x ∈ ws.ids ∨ x = w := by
  unfold Waiters.add
  split_ifs with hreader hwriter
  · have hnone : ws.reader = none := by simp_all
    refine ⟨rfl, rfl, fun st hst => ?_, fun x hx => ?_⟩
    · cases st with
      | unregistered => exact hst
      | inSlot slot v =>
        cases slot with
        | reader => simp [Holds, Waiters.slot, hnone] at hst
        | writer => exact hst
      | inList v => exact hst
    · simp only [ids, setSlot, intoRaw, hnone] at hx ⊢
      simp at hx ⊢
      tauto
  · have hnone : ws.writer = none := by simp_all
    refine ⟨rfl, rfl, fun st hst => ?_, fun x hx => ?_⟩
    · cases st with
      | unregistered => exact hst
      | inSlot slot v =>
        cases slot with
        | reader => exact hst
        | writer => simp [Holds, Waiters.slot, hnone] at hst
      | inList v => exact hst
    · simp only [ids, setSlot, intoRaw, hnone] at hx ⊢
      simp at hx ⊢
      tauto
  · refine ⟨by simp [Holds, pushBack], rfl, fun st hst => ?_, fun x hx => ?_⟩
    · cases st with
      | unregistered => exact hst
      | inSlot slot v => cases slot <;> exact hst
      | inList v => exact List.mem_append_left _ hst
    · simp only [ids, pushBack, intoRaw] at hx ⊢
      simp at hx ⊢
      tauto

/-- A report takes the waiter of a state off, or leaves it where it is. -/
theorem holds_takeAll (h : ws.Linked) (sat : ℕ → Bool) (hst : ws.Holds st)
    (hw : st.waiter? = some w) :
    sat w = true ∧ w ∈ (ws.takeAll sat).2 ∨ sat w = false ∧ (ws.takeAll sat).1.Holds st := by
  obtain ⟨-, htaken, hreader, hwriter, hlist⟩ := takeAll_eq h sat
  cases hsat : sat w with
  | true => exact .inl ⟨rfl, htaken ▸ List.mem_filter.mpr ⟨hst.mem_ids hw, hsat⟩⟩
  | false =>
    refine .inr ⟨rfl, ?_⟩
    cases st with
    | unregistered => exact hst
    | inSlot slot v =>
      cases hw
      cases slot with
      | reader =>
        have hst : ws.reader = some w := hst
        show (ws.takeAll sat).1.reader = some w
        rw [hreader, hst]
        simp [Option.filter, hsat]
      | writer =>
        have hst : ws.writer = some w := hst
        show (ws.takeAll sat).1.writer = some w
        rw [hwriter, hst]
        simp [Option.filter, hsat]
    | inList v =>
      cases hw
      show w ∈ (ws.takeAll sat).1.list
      rw [hlist]
      exact List.mem_filter.mpr ⟨hst, by simp [hsat]⟩

/-- What stays linked after a report. -/
theorem ids_takeAll (h : ws.Linked) (sat : ℕ → Bool) :
    (ws.takeAll sat).1.ids = ws.ids.filter fun w => !sat w := by
  obtain ⟨-, -, hreader, hwriter, hlist⟩ := takeAll_eq h sat
  have htoList : ∀ o : Option ℕ, (o.filter fun w => !sat w).toList =
      o.toList.filter fun w => !sat w := by
    intro o
    cases o with
    | none => rfl
    | some w => cases hsat : sat w <;> simp [Option.filter, hsat]
  simp only [ids, hreader, hwriter, hlist, htoList, List.filter_append]

end Waiters

namespace State

structure Kept (s : State) : Prop where
  linked : s.waiters.Linked
  bound : ∀ w ∈ s.waiters.ids, w < s.nodes.length
  /-- A linked waiter is the one of a future, in its place. -/
  owned : ∀ w ∈ s.waiters.ids, ∃ (f : ℕ) (fut : Readiness),
    s.futures[f]? = some fut ∧ fut.state.waiter? = some w ∧ s.waiters.Holds fut.state
  placed : ∀ (f : ℕ) (fut : Readiness) w, s.futures[f]? = some fut → fut.state.waiter? = some w →
    w < s.nodes.length ∧ (s.waiters.Holds fut.state ∨ ∃ r ∈ s.reports, w ∈ r.taken)
  distinct : ∀ (f f' : ℕ) (fut fut' : Readiness) w, s.futures[f]? = some fut →
    s.futures[f']? = some fut' →
    fut.state.waiter? = some w → fut'.state.waiter? = some w → f = f'
  pending : ∀ (f : ℕ) (fut : Readiness) (waker : ℕ), s.futures[f]? = some fut →
    fut.place = .idle → fut.result = some (.pending waker) →
    ∃ w, fut.state.waiter? = some w ∧ s.nodes[w]? = some ⟨waker, fut.interests⟩
  free : ∀ (f : ℕ) (fut : Readiness), s.futures[f]? = some fut →
    (fut.place = .dropped ∨ ∃ waker, fut.place = .adds waker) → fut.state = .unregistered
  reports : ∀ r ∈ s.reports, r.woke ++ r.rest = r.taken
  taken : ∀ r ∈ s.reports, ∀ w ∈ r.taken, w < s.nodes.length

variable {s s' t : State} {f : ℕ} {fut fut' : Readiness}

theorem kept_init (gen : UInt32) : (init gen).Kept where
  linked := Waiters.linked_new
  bound w hw := by simp [init, Waiters.new, Waiters.ids] at hw
  owned w hw := by simp [init, Waiters.new, Waiters.ids] at hw
  placed f fut w hf := by simp [init] at hf
  distinct f f' fut fut' w hf := by simp [init] at hf
  pending f fut waker hf := by simp [init] at hf
  free f fut hf := by simp [init] at hf
  reports r hr := by simp [init] at hr
  taken r hr := by simp [init] at hr

structure Moves (s : State) (fut fut' : Readiness) (waiters : Waiters) (nodes : List Waiter) :
    Prop where
  linked : waiters.Linked
  grows : ∃ more, nodes = s.nodes ++ more
  /-- The waiters of the other futures stay where they are. -/
  others : ∀ st, st.waiter? ≠ fut.state.waiter? → s.waiters.Holds st → waiters.Holds st
  ids : ∀ w ∈ waiters.ids, w ∈ s.waiters.ids ∧ fut.state.waiter? ≠ some w ∨
    fut'.state.waiter? = some w ∧ waiters.Holds fut'.state
  own : ∀ w, fut'.state.waiter? = some w →
    (fut.state.waiter? = some w ∧ (s.waiters.Holds fut.state → waiters.Holds fut'.state)) ∨
      (w = s.nodes.length ∧ w < nodes.length ∧ waiters.Holds fut'.state)
  pending : ∀ waker, fut'.place = .idle → fut'.result = some (.pending waker) →
    ∃ w, fut'.state.waiter? = some w ∧ nodes[w]? = some ⟨waker, fut'.interests⟩
  free : (fut'.place = .dropped ∨ ∃ waker, fut'.place = .adds waker) →
    fut'.state = .unregistered

theorem getElem?_setFuture (hf : s.futures[f]? = some fut) (fut' : Readiness) (g : ℕ) :
    (s.setFuture f fut').futures[g]? = if g = f then some fut' else s.futures[g]? := by
  have hlt : f < s.futures.length := (List.getElem?_eq_some_iff.mp hf).1
  simp only [setFuture, List.getElem?_set]
  split_ifs with h₁ h₂ h₂
  · rfl
  · exact absurd h₁.symm h₂
  · exact absurd h₂.symm h₁
  · rfl

theorem Kept.move (h : s.Kept) (hf : s.futures[f]? = some fut) {waiters : Waiters}
    {nodes : List Waiter} (hm : s.Moves fut fut' waiters nodes) :
    Kept ({ s with waiters, nodes }.setFuture f fut') := by
  have hget : ∀ g, ({ s with waiters, nodes }.setFuture f fut').futures[g]? =
      if g = f then some fut' else s.futures[g]? := fun g =>
    getElem?_setFuture (s := { s with waiters, nodes }) hf fut' g
  obtain ⟨more, hmore⟩ := hm.grows
  have hlen : s.nodes.length ≤ nodes.length := by simp [hmore]
  have hother : ∀ (g : ℕ) (fut'' : Readiness) w, g ≠ f → s.futures[g]? = some fut'' →
      fut''.state.waiter? = some w →
      fut''.state.waiter? ≠ fut.state.waiter? ∧ fut'.state.waiter? ≠ some w := by
    intro g fut'' w hg hfut'' hw
    have hne : fut''.state.waiter? ≠ fut.state.waiter? := fun e =>
      hg (h.distinct g f fut'' fut w hfut'' hf hw (e ▸ hw))
    refine ⟨hne, fun hw' => ?_⟩
    rcases hm.own w hw' with ⟨hold, -⟩ | ⟨hfresh, -, -⟩
    · exact hne (hw.trans hold.symm)
    · have := (h.placed g fut'' w hfut'' hw).1
      omega
  refine ⟨hm.linked, fun w hw => ?_, fun w hw => ?_, fun g fut'' w hg hw => ?_,
    fun g g' fut₁ fut₂ w hg hg' hw hw' => ?_, fun g fut'' waker hg hidle hresult => ?_,
    fun g fut'' hg => ?_, h.reports, fun r hr w hw => (h.taken r hr w hw).trans_le hlen⟩
  · rcases hm.ids w hw with ⟨hold, -⟩ | ⟨hnew, -⟩
    · exact (h.bound w hold).trans_le hlen
    · rcases hm.own w hnew with ⟨hold, -⟩ | ⟨-, hlt, -⟩
      · exact (h.placed f fut w hf hold).1.trans_le hlen
      · exact hlt
  · rcases hm.ids w hw with ⟨hold, hne⟩ | ⟨hnew, hholds⟩
    · obtain ⟨g, fut'', hg, hw'', hholds⟩ := h.owned w hold
      have hgf : g ≠ f := by
        rintro rfl
        rw [hf] at hg
        cases hg
        exact hne hw''
      refine ⟨g, fut'', by rw [hget, if_neg hgf, hg], hw'', hm.others _ ?_ hholds⟩
      exact (hother g fut'' w hgf hg hw'').1
    · exact ⟨f, fut', by rw [hget, if_pos rfl], hnew, hholds⟩
  · rw [hget] at hg
    split_ifs at hg with hgf
    · cases hg
      rcases hm.own w hw with ⟨hold, hkeep⟩ | ⟨-, hlt, hholds⟩
      · have hplaced := h.placed f fut w hf hold
        exact ⟨hplaced.1.trans_le hlen, hplaced.2.imp_left hkeep⟩
      · exact ⟨hlt, .inl hholds⟩
    · have hplaced := h.placed g fut'' w hg hw
      have hne := (hother g fut'' w hgf hg hw).1
      exact ⟨hplaced.1.trans_le hlen, hplaced.2.imp_left (hm.others _ hne)⟩
  · rw [hget] at hg hg'
    split_ifs at hg hg' with h₁ h₂ h₂
    · exact h₁.trans h₂.symm
    · cases hg
      exact absurd hw (hother g' fut₂ w h₂ hg' hw').2
    · cases hg'
      exact absurd hw' (hother g fut₁ w h₁ hg hw).2
    · exact h.distinct g g' fut₁ fut₂ w hg hg' hw hw'
  · rw [hget] at hg
    split_ifs at hg with hgf
    · cases hg
      exact hm.pending waker hidle hresult
    · obtain ⟨w, hw, hnode⟩ := h.pending g fut'' waker hg hidle hresult
      have hlt : w < s.nodes.length := (h.placed g fut'' w hg hw).1
      refine ⟨w, hw, ?_⟩
      show nodes[w]? = _
      rw [hmore, List.getElem?_append_left hlt, hnode]
  · rw [hget] at hg
    split_ifs at hg with hgf
    · cases hg
      exact hm.free
    · exact h.free g fut'' hg

/-- The future keeps its waiter. -/
theorem Kept.move_same (h : s.Kept) (hf : s.futures[f]? = some fut)
    (hstate : fut'.state = fut.state)
    (hpending : ∀ waker, fut'.place = .idle → fut'.result ≠ some (.pending waker))
    (hfree : (fut'.place = .dropped ∨ ∃ waker, fut'.place = .adds waker) →
      fut.state = .unregistered) :
    (s.setFuture f fut').Kept := by
  refine h.move hf ⟨h.linked, ⟨[], by simp⟩, fun st _ hst => hst, fun w hw => ?_,
    fun w hw => .inl ⟨hstate ▸ hw, fun hst => hstate ▸ hst⟩,
    fun waker hidle hresult => absurd hresult (hpending waker hidle),
    fun hplace => hstate.trans (hfree hplace)⟩
  by_cases hown : fut.state.waiter? = some w
  · obtain ⟨g, fut'', hg, hw'', hholds⟩ := h.owned w hw
    have hgf := h.distinct g f fut'' fut w hg hf hw'' hown
    rw [hgf, hf] at hg
    cases hg
    rw [hstate]
    exact .inr ⟨hown, hholds⟩
  · exact .inl ⟨hw, hown⟩

/-- The future takes its waiter off. -/
theorem Kept.detach (h : s.Kept) (hf : s.futures[f]? = some fut) (place : Place)
    (result : Option Poll)
    (hpending : place = .idle → ∀ waker, result ≠ some (.pending waker)) :
    (s.detach f fut place result).Kept := by
  refine h.move hf ⟨Waiters.linked_detach h.linked _, ⟨[], by simp⟩, fun st hne hst => ?_,
    fun w hw => .inl ?_, fun w hw => (by cases hw),
    fun waker hidle hresult => absurd hresult (hpending hidle waker), fun _ => rfl⟩
  · exact Waiters.holds_detach hst hne.symm
  by_cases hst : s.waiters.Holds fut.state
  · refine ⟨?_, fun hown => ?_⟩
    · cases hown : fut.state.waiter? with
      | none =>
        cases hstate : fut.state with
        | unregistered => rwa [hstate] at hw
        | inSlot slot v | inList v =>
          rw [hstate] at hown
          cases hown
      | some v => exact (Waiters.detach_of_holds h.linked hst hown).2 w hw
    · exact (Waiters.detach_of_holds h.linked hst hown).1 hw
  · rw [Waiters.detach_of_not_holds h.linked hst] at hw
    refine ⟨hw, fun hown => ?_⟩
    obtain ⟨g, fut'', hg, hw'', hholds⟩ := h.owned w hw
    have hgf := h.distinct g f fut'' fut w hg hf hw'' hown
    rw [hgf, hf] at hg
    cases hg
    exact hst hholds

theorem Kept.add (h : s.Kept) (hf : s.futures[f]? = some fut) (hstate : fut.state = .unregistered)
    (waker : ℕ) : (s.addWaiter f fut waker).Kept := by
  unfold addWaiter
  split_ifs with hready
  · exact h.move_same hf rfl (fun _ _ hresult => by cases hresult) (fun _ => hstate)
  have hfresh : s.nodes.length ∉ s.waiters.ids := fun hmem =>
    (h.bound _ hmem).false
  obtain ⟨hholds, hwaiter, hothers, hids⟩ :=
    s.waiters.holds_add fut.interests s.nodes.length
  refine h.move hf ⟨Waiters.linked_add h.linked _ hfresh, ⟨_, rfl⟩, fun st _ hst => hothers st hst,
    fun w hw => ?_, fun w hw => .inr ?_, fun waker' _ hresult => ?_, fun hplace => ?_⟩
  · rcases hids w hw with hold | rfl
    · exact .inl ⟨hold, by simp [hstate, WaiterState.waiter?]⟩
    · exact .inr ⟨hwaiter, hholds⟩
  · have hw : w = s.nodes.length := Option.some.inj (hw.symm.trans hwaiter)
    exact ⟨hw, by simp [hw], hholds⟩
  · cases hresult
    exact ⟨_, hwaiter, by simp⟩
  · rcases hplace with hplace | ⟨_, hplace⟩ <;> cases hplace

/-- A report takes the waiters that it satisfies. -/
theorem Kept.report (h : s.Kept) (packed : UInt64) (ready : Ready) :
    (s.report packed ready).Kept := by
  have htake := Waiters.takeAll_eq h.linked (s.satisfied ready)
  have hids : (s.report packed ready).waiters.ids =
      s.waiters.ids.filter fun w => !s.satisfied ready w :=
    Waiters.ids_takeAll h.linked (s.satisfied ready)
  have hstay : ∀ st w, s.waiters.Holds st → st.waiter? = some w →
      (s.report packed ready).waiters.Holds st ∨
        ∃ r ∈ (s.report packed ready).reports, w ∈ r.taken := by
    intro st w hst hw
    rcases Waiters.holds_takeAll h.linked (s.satisfied ready) hst hw with ⟨-, htaken⟩ | ⟨-, hkeep⟩
    · exact .inr ⟨_, List.mem_append_right _ (List.mem_singleton_self _), htaken⟩
    · exact .inl hkeep
  refine ⟨htake.1, fun w hw => ?_, fun w hw => ?_, fun f fut w hf hw => ?_, h.distinct, h.pending,
    h.free, fun r hr => ?_, fun r hr w hw => ?_⟩
  · rw [hids] at hw
    exact h.bound w (List.mem_filter.mp hw).1
  · rw [hids] at hw
    obtain ⟨hmem, hsat⟩ := List.mem_filter.mp hw
    obtain ⟨f, fut, hf, hfut, hst⟩ := h.owned w hmem
    refine ⟨f, fut, hf, hfut, ?_⟩
    rcases Waiters.holds_takeAll h.linked (s.satisfied ready) hst hfut with ⟨htrue, -⟩ | ⟨-, hkeep⟩
    · simp [htrue] at hsat
    · exact hkeep
  · obtain ⟨hlt, hst | ⟨r, hr, hmem⟩⟩ := h.placed f fut w hf hw
    · exact ⟨hlt, hstay fut.state w hst hw⟩
    · exact ⟨hlt, .inr ⟨r, List.mem_append_left _ hr, hmem⟩⟩
  · rcases List.mem_append.mp hr with hr | hr
    · exact h.reports r hr
    · obtain rfl := List.mem_singleton.mp hr
      rfl
  · rcases List.mem_append.mp hr with hr | hr
    · exact h.taken r hr w hw
    · obtain rfl := List.mem_singleton.mp hr
      have hw : w ∈ s.waiters.ids.filter (s.satisfied ready) := htake.2.1 ▸ hw
      exact h.bound w (List.mem_filter.mp hw).1

theorem Kept.word (h : s.Kept) (packed : UInt64) (holder : Option (UInt64 × Ready)) :
    Kept { s with packed, holder } :=
  ⟨h.linked, h.bound, h.owned, h.placed, h.distinct, h.pending, h.free, h.reports, h.taken⟩

/-- A new future has no waiter. -/
theorem Kept.spawn (h : s.Kept) (interests : Interest) :
    Kept { s with futures := s.futures ++ [⟨interests, .unregistered, .idle, none⟩] } := by
  have hget : ∀ (f : ℕ) (fut : Readiness),
      (s.futures ++ [⟨interests, .unregistered, .idle, none⟩])[f]? = some fut →
      s.futures[f]? = some fut ∨ fut = ⟨interests, .unregistered, .idle, none⟩ := by
    intro f fut hf
    rw [List.getElem?_append] at hf
    split_ifs at hf with hlt
    · exact .inl hf
    · exact .inr (List.mem_singleton.mp (List.mem_of_getElem? hf))
  refine ⟨h.linked, h.bound, fun w hw => ?_, fun f fut w hf hw => ?_,
    fun f f' fut fut' w hf hf' hw hw' => ?_, fun f fut waker hf hidle hresult => ?_,
    fun f fut hf hplace => ?_, h.reports, h.taken⟩
  · obtain ⟨f, fut, hf, hw, hst⟩ := h.owned w hw
    have hlt : f < s.futures.length := (List.getElem?_eq_some_iff.mp hf).1
    exact ⟨f, fut, (List.getElem?_append_left hlt).trans hf, hw, hst⟩
  · rcases hget f fut hf with hf | rfl
    · exact h.placed f fut w hf hw
    · cases hw
  · rcases hget f fut hf with hf | rfl
    · rcases hget f' fut' hf' with hf' | rfl
      · exact h.distinct f f' fut fut' w hf hf' hw hw'
      · cases hw'
    · cases hw
  · rcases hget f fut hf with hf | rfl
    · exact h.pending f fut waker hf hidle hresult
    · cases hresult
  · rcases hget f fut hf with hf | rfl
    · exact h.free f fut hf hplace
    · rfl

theorem Kept.wake (h : s.Kept) {i : ℕ} {r : Report} {w : ℕ} {rest : List ℕ}
    (hr : s.reports[i]? = some r) (hrest : r.rest = w :: rest) :
    Kept { s with
      reports := s.reports.set i { r with woke := r.woke ++ [w], rest } } := by
  have hmem : r ∈ s.reports := List.mem_of_getElem? hr
  have hold : ∀ r' ∈ s.reports.set i { r with woke := r.woke ++ [w], rest },
      r' ∈ s.reports ∨ r' = { r with woke := r.woke ++ [w], rest } :=
    fun r' hr' => List.mem_or_eq_of_mem_set hr'
  refine ⟨h.linked, h.bound, h.owned, fun f fut v hf hv => ?_, h.distinct, h.pending, h.free,
    fun r' hr' => ?_, fun r' hr' => ?_⟩
  · obtain ⟨hlt, hst | ⟨r', hr', htaken⟩⟩ := h.placed f fut v hf hv
    · exact ⟨hlt, .inl hst⟩
    refine ⟨hlt, .inr ?_⟩
    obtain ⟨j, hj⟩ := List.mem_iff_getElem?.mp hr'
    have hlti : i < s.reports.length := (List.getElem?_eq_some_iff.mp hr).1
    by_cases hij : i = j
    · subst hij
      cases hr.symm.trans hj
      exact ⟨_, List.mem_of_getElem? (List.getElem?_set_self hlti), htaken⟩
    · exact ⟨r', List.mem_of_getElem? ((List.getElem?_set_ne hij).trans hj), htaken⟩
  · rcases hold r' hr' with hr' | rfl
    · exact h.reports r' hr'
    · have := h.reports r hmem
      simpa [hrest] using this
  · rcases hold r' hr' with hr' | rfl
    · exact h.taken r' hr'
    · exact h.taken r hmem

theorem underLock_eq_some : s.underLock s' = some t ↔ s.holder = none ∧ s' = t := by
  unfold underLock
  cases s.holder <;> simp

theorem Kept.pollStep (h : s.Kept) (hf : s.futures[f]? = some fut)
    (hstep : s.pollStep f fut = some t) : t.Kept := by
  unfold State.pollStep at hstep
  cases hplace : fut.place with
  | idle | dropped =>
    rw [hplace] at hstep
    cases hstep
  | loads waker =>
    rw [hplace] at hstep
    simp only at hstep
    split at hstep
    · cases hstep
      refine h.move_same hf rfl (fun _ hidle => by cases hidle) fun hplace => ?_
      rcases hplace with hplace | ⟨_, hplace⟩ <;> cases hplace
    · cases hstep
      refine h.move_same hf rfl (fun _ hidle => ?_) fun hplace => ?_
      · split_ifs at hidle
      · split_ifs at hplace with hstate
        · exact hstate
        · rcases hplace with hplace | ⟨_, hplace⟩ <;> cases hplace
  | returns event =>
    rw [hplace] at hstep
    obtain ⟨-, rfl⟩ := underLock_eq_some.mp hstep
    exact h.detach hf .idle _ fun _ _ hresult => by cases hresult
  | detaches waker =>
    rw [hplace] at hstep
    obtain ⟨-, rfl⟩ := underLock_eq_some.mp hstep
    exact h.detach hf _ _ fun hidle => by cases hidle
  | adds waker =>
    rw [hplace] at hstep
    obtain ⟨-, rfl⟩ := underLock_eq_some.mp hstep
    exact h.add hf (h.free f fut hf (.inr ⟨waker, hplace⟩)) waker

theorem kept_step (h : s.Kept) {l : Label} (hstep : s.step l = some t) : t.Kept := by
  cases l with
  | readiness interests =>
    cases hstep
    exact h.spawn interests
  | poll f waker =>
    obtain ⟨fut, hf, hstep⟩ := Option.bind_eq_some_iff.mp hstep
    split at hstep
    · cases hstep
      refine h.move_same hf rfl (fun _ hidle => by cases hidle) fun hplace => ?_
      rcases hplace with hplace | ⟨_, hplace⟩ <;> cases hplace
    · cases hstep
  | future f =>
    obtain ⟨fut, hf, hstep⟩ := Option.bind_eq_some_iff.mp hstep
    exact h.pollStep hf hstep
  | drop f =>
    obtain ⟨fut, hf, hstep⟩ := Option.bind_eq_some_iff.mp hstep
    split at hstep
    · obtain ⟨-, rfl⟩ := underLock_eq_some.mp hstep
      exact h.detach hf _ _ fun hidle => by cases hidle
    · cases hstep
  | lock ready =>
    obtain ⟨-, rfl⟩ := underLock_eq_some.mp hstep
    exact h.word s.packed _
  | report =>
    obtain ⟨⟨packed, ready⟩, -, rfl⟩ := Option.map_eq_some_iff.mp hstep
    exact h.report packed ready
  | wake i =>
    obtain ⟨r, hr, hstep⟩ := Option.bind_eq_some_iff.mp hstep
    split at hstep
    · cases hstep
    · rename_i hrest
      cases hstep
      exact h.wake hr hrest
  | clearReady gen seen =>
    cases hstep
    exact h.word _ s.holder

/-- The waiters are kept in every run. -/
theorem kept_of_reachable {gen : UInt32}
    (hs : Reachable State.step anyStep (init gen) s) : s.Kept :=
  hs.invariant (kept_init gen) fun _ _ _ h _ hstep => kept_step h hstep

/-- The waiter of a future that has returned `Pending` with `waker`: it is linked once, or a report
has taken it off and has woken it or is about to. -/
def Waits (s : State) (fut : Readiness) (waker : ℕ) : Prop :=
  ∃ w, fut.state.waiter? = some w ∧ s.nodes[w]? = some ⟨waker, fut.interests⟩ ∧
    (s.waiters.Holds fut.state ∧ s.waiters.ids.count w = 1 ∨
      ∃ r ∈ s.reports, w ∈ r.woke ∨ w ∈ r.rest)

/-- The report that holds the lock takes and leaves the right waiters. -/
def TakesSatisfied (s : State) (packed : UInt64) (ready : Ready) : Prop :=
  ∃ s', s.step .report = some s' ∧
    s'.reports = s.reports ++ [⟨s.waiters.ids.filter (s.satisfied ready), [],
      s.waiters.ids.filter (s.satisfied ready)⟩] ∧
    s'.waiters.ids = s.waiters.ids.filter (fun w => !s.satisfied ready w) ∧
    s'.packed = setReadiness packed ready

theorem Kept.waits (h : s.Kept) {waker : ℕ} (hf : s.futures[f]? = some fut)
    (hidle : fut.place = .idle) (hresult : fut.result = some (.pending waker)) :
    s.Waits fut waker := by
  obtain ⟨w, hw, hnode⟩ := h.pending f fut waker hf hidle hresult
  refine ⟨w, hw, hnode, ?_⟩
  obtain ⟨-, hst | ⟨r, hr, htaken⟩⟩ := h.placed f fut w hf hw
  · have hpos := List.count_pos_iff.mpr (hst.mem_ids hw)
    have hone := h.linked.once w
    exact .inl ⟨hst, by omega⟩
  · rw [← h.reports r hr] at htaken
    exact .inr ⟨r, hr, List.mem_append.mp htaken⟩

theorem Kept.takesSatisfied (h : s.Kept) {packed : UInt64} {ready : Ready}
    (hholder : s.holder = some (packed, ready)) : s.TakesSatisfied packed ready := by
  have htaken := (Waiters.takeAll_eq h.linked (s.satisfied ready)).2.1
  refine ⟨s.report packed ready, by simp [State.step, hholder], ?_, ?_, rfl⟩
  · simp only [State.report, htaken]
  · exact Waiters.ids_takeAll h.linked (s.satisfied ready)

/-- No waiter is lost or misdirected. A new waiter is numbered `s.nodes.length`, so a report that
has taken it came after the poll that made it. -/
theorem waiters_are_kept (gen : UInt32) (s : State)
    (hs : Reachable State.step anyStep (init gen) s) :
    (∀ (f : ℕ) (fut : Readiness) (waker : ℕ), s.futures[f]? = some fut → fut.place = .idle →
      fut.result = some (.pending waker) → s.Waits fut waker) ∧
    (∀ packed ready, s.holder = some (packed, ready) → s.TakesSatisfied packed ready) ∧
    (∀ r ∈ s.reports, r.woke ++ r.rest = r.taken ∧ ∀ w ∈ r.taken, w < s.nodes.length) ∧
    (∀ w, s.waiters.leaked.count w = s.waiters.reclaimed.count w + s.waiters.ids.count w ∧
      s.waiters.ids.count w ≤ 1) ∧
    ∀ w ∈ s.waiters.ids, ∃ (f : ℕ) (fut : Readiness), s.futures[f]? = some fut ∧
      fut.place ≠ .dropped ∧ fut.state.waiter? = some w := by
  have h := kept_of_reachable hs
  refine ⟨fun f fut waker hf hidle hresult => h.waits hf hidle hresult,
    fun packed ready hholder => h.takesSatisfied hholder,
    fun r hr => ⟨h.reports r hr, h.taken r hr⟩,
    fun w => ⟨h.linked.balance w, h.linked.once w⟩, fun w hw => ?_⟩
  obtain ⟨f, fut, hf, hwaiter, -⟩ := h.owned w hw
  refine ⟨f, fut, hf, fun hdropped => ?_, hwaiter⟩
  rw [h.free f fut hf (.inl hdropped)] at hwaiter
  cases hwaiter

/-- Two readers: the second one, in the list, is dropped and the first one woken. -/
theorem waiters_are_kept_after_report :
    ∃ s, Reachable State.step anyStep (init 1) s ∧
      (∃ fut, s.futures[0]? = some fut ∧ s.Waits fut 7) ∧
      s.reports = [⟨[0], [0], []⟩] ∧ s.waiters.leaked = [0, 1] ∧ s.waiters.reclaimed = [1, 0] := by
  have hrun : (run (guarded State.step anyStep) (init 1) [.readiness .READABLE,
      .readiness .READABLE, .poll 0 7, .future 0, .future 0, .poll 1 8, .future 1, .future 1,
      .drop 1, .lock .READABLE, .report, .wake 0]).any (fun s => decide (
        s.futures[0]? = some ⟨.READABLE, .inSlot .reader 0, .idle, some (.pending 7)⟩ ∧
        s.reports = [⟨[0], [0], []⟩] ∧ s.waiters.leaked = [0, 1] ∧
        s.waiters.reclaimed = [1, 0])) = true := by
    decide +kernel
  obtain ⟨s, hreach, hs⟩ := exists_reachable_of_run hrun
  obtain ⟨hf, hreports, hleaked, hreclaimed⟩ := of_decide_eq_true hs
  exact ⟨s, hreach, ⟨_, hf, (waiters_are_kept 1 s hreach).1 0 _ 7 hf rfl rfl⟩, hreports, hleaked,
    hreclaimed⟩

end State

end Eddy.IoWaiters
