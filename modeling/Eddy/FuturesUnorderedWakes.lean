import Mathlib.Data.List.Perm.Lattice
import Mathlib.Data.List.Nodup
import Eddy.FuturesUnordered

/-!
# Members, polls and wakes of the set

Every member that was pushed is in the set, or its output was returned, or it was cleared. A member
is polled no more often than it was woken, and once more. When a member was woken since its last
poll, and the set was found empty of ready members before, the task was woken.
-/

namespace Eddy.FuturesUnordered
open Interleaving

variable {β : Type}

namespace State
variable {s t : State β} {id : ℕ}

def Recent (s : State β) (w : Wake) : Prop := w.id ∈ s.set.entries ∧ w.polls = s.polled.count w.id

/-- The task is to call `poll_next`: it was given an item, it has pushed a member, or the waker that
it passed last was woken. -/
def Due (s : State β) : Prop :=
  (∃ output, s.answer = some (.item output)) ∨ s.pushed = true ∨ s.calls ∈ s.woken

/-- Every output is returned once, polls do not outnumber wakes, and no wake is lost. -/
structure Delivers (s : State β) : Prop where
  members : (s.set.entries ++ s.returned.map Prod.fst ++ s.cleared).Perm (List.range s.set.nextId)
  polls : ∀ id, s.polled.count id ≤ 1 + s.fired.count id
  completed : ∀ id, s.place = .polling id → id ∉ s.returned.map Prod.fst
  woken : s.answer = some .pending → ∀ w ∈ s.woke, s.Recent w → s.calls ∈ s.woken

structure Sound (s : State β) : Prop where
  members : (s.set.entries ++ s.returned.map Prod.fst ++ s.cleared).Perm (List.range s.set.nextId)
  live : ∀ id, s.place = .polling id → id ∈ s.set.entries
  started : ∀ id ∈ s.set.entries, id ∈ s.set.ready ∨ id ∈ s.polled
  known : ∀ id, id ∈ s.set.ready ∨ id ∈ s.polled → id < s.set.nextId
  polls : ∀ id, s.polled.count id + s.set.ready.count id ≤ 1 + s.fired.count id
  outer : s.calls = 0 ∨ s.set.outer = some s.calls ∨ s.calls ∈ s.woken
  called : s.polled ≠ [] → s.calls ≠ 0
  busy : s.place ≠ .idle → s.answer = none ∧ s.calls ≠ 0
  wakes : ∀ w, w ∈ s.waking ∨ w ∈ s.woke → w.id ∈ s.polled ∧ w.polls ≤ s.polled.count w.id
  queued : ∀ w, w ∈ s.waking ∨ w ∈ s.woke → s.Recent w → w.id ∈ s.set.ready
  woken : s.answer = some .pending → ∀ w ∈ s.woke, s.Recent w → s.calls ∈ s.woken
  resting : ∀ id ∈ s.set.ready, id ∈ s.set.entries → s.place = .idle →
    s.Due ∨ s.waking ≠ []

theorem Sound.new : (State.new : State β).Sound := by
  constructor <;> simp [State.new, Members.new]

theorem Sound.nodup (h : s.Sound) :
    (s.set.entries ++ s.returned.map Prod.fst ++ s.cleared).Nodup :=
  h.members.nodup_iff.mpr List.nodup_range

theorem Sound.push (h : s.Sound) : Sound { s with set := s.set.push, pushed := true } := by
  have hfresh : ∀ id, id ∈ s.polled ∨ id ∈ s.set.ready → id ≠ s.set.nextId := by
    intro id hid
    exact (h.known id hid.symm).ne
  have hrecent : ∀ w, w ∈ s.waking ∨ w ∈ s.woke →
      Recent { s with set := s.set.push, pushed := true } w → s.Recent w := by
    intro w hw hrecent
    refine ⟨(List.mem_append.mp hrecent.1).resolve_right fun hnew => ?_, hrecent.2⟩
    exact hfresh w.id (.inl (h.wakes w hw).1) (List.mem_singleton.mp hnew)
  constructor
  · have hmiddle : s.set.entries ++ [s.set.nextId] ++ s.returned.map Prod.fst ++ s.cleared =
        s.set.entries ++ s.set.nextId :: (s.returned.map Prod.fst ++ s.cleared) := by simp
    have hrest : (s.set.entries ++ (s.returned.map Prod.fst ++ s.cleared)).Perm
        (List.range s.set.nextId) := by simpa using h.members
    show (s.set.entries ++ [s.set.nextId] ++ s.returned.map Prod.fst ++ s.cleared).Perm
      (List.range (s.set.nextId + 1))
    rw [hmiddle, List.range_succ]
    exact (List.perm_middle.trans (hrest.cons _)).trans (List.perm_append_singleton _ _).symm
  · exact fun id hid => List.mem_append_left _ (h.live id hid)
  · intro id hid
    rcases List.mem_append.mp hid with hid | hid
    · exact (h.started id hid).imp_left (List.mem_append_left _)
    · exact .inl (List.mem_append_right _ hid)
  · rintro id (hid | hid)
    · rcases List.mem_append.mp hid with hid | hid
      · exact Nat.lt_succ_of_lt (h.known id (.inl hid))
      · exact List.mem_singleton.mp hid ▸ Nat.lt_succ_self _
    · exact Nat.lt_succ_of_lt (h.known id (.inr hid))
  · intro id
    have hpolls := h.polls id
    simp only [Members.push, List.count_append, List.count_singleton]
    split_ifs with hid
    · have hpolled : s.polled.count id = 0 := by
        refine List.count_eq_zero.mpr fun hmem => hfresh id (.inl hmem) ?_
        exact (beq_iff_eq.mp hid).symm
      have hready : s.set.ready.count id = 0 := by
        refine List.count_eq_zero.mpr fun hmem => hfresh id (.inr hmem) ?_
        exact (beq_iff_eq.mp hid).symm
      omega
    · omega
  · exact h.outer
  · exact h.called
  · exact h.busy
  · exact h.wakes
  · exact fun w hw hw' => List.mem_append_left _ (h.queued w hw (hrecent w hw hw'))
  · exact fun hanswer w hw hw' => h.woken hanswer w hw (hrecent w (.inr hw) hw')
  · exact fun _ _ _ _ => .inl (.inr (.inl rfl))

theorem Sound.poll {ready : List ℕ} (h : s.Sound) (hdraining : s.place = .draining)
    (hqueue : s.set.ready = id :: ready) (hlive : id ∈ s.set.entries) :
    Sound { s with
      set := { s.set with ready := ready }
      place := .polling id
      polled := s.polled ++ [id] } := by
  obtain ⟨hanswer, hcalls⟩ := h.busy (by simp [hdraining])
  refine ⟨h.members, ?_, fun x hx => ?_, ?_, ?_, h.outer, fun _ => hcalls,
    fun _ => ⟨hanswer, hcalls⟩, ?_, ?_, ?_, nofun⟩
  · intro x hx
    cases hx
    exact hlive
  · have hstarted := h.started x hx
    rw [hqueue, List.mem_cons] at hstarted
    rw [List.mem_append, List.mem_singleton]
    tauto
  · rintro x (hx | hx)
    · exact h.known x (.inl (hqueue ▸ List.mem_cons_of_mem _ hx))
    · rcases List.mem_append.mp hx with hx | hx
      · exact h.known x (.inr hx)
      · exact h.known x (.inl (by simp_all))
  · intro x
    have hpolls := h.polls x
    rw [hqueue, List.count_cons] at hpolls
    simp only [List.count_append, List.count_singleton]
    omega
  · intro w hw
    obtain ⟨hpolled, hle⟩ := h.wakes w hw
    exact ⟨List.mem_append_left _ hpolled, hle.trans ((List.sublist_append_left _ _).count_le _)⟩
  · rintro w hw ⟨hentry, hpolls⟩
    simp only [List.count_append, List.count_singleton] at hpolls
    have hle := (h.wakes w hw).2
    split_ifs at hpolls with hid
    · omega
    · have hmem := h.queued w hw ⟨hentry, hpolls⟩
      rw [hqueue] at hmem
      refine (List.mem_cons.mp hmem).resolve_left fun heq => hid ?_
      simp [heq]
  · intro hpending
    rw [hanswer] at hpending
    cases hpending

theorem Sound.complete (h : s.Sound) (hpolling : s.place = .polling id) (output : β) :
    (s.complete id output).Sound := by
  have hlive := h.live id hpolling
  have hmem : ∀ {x}, x ∈ s.set.entries.erase id → x ∈ s.set.entries := List.mem_of_mem_erase
  obtain ⟨-, hcalls⟩ := h.busy (by simp [hpolling])
  refine ⟨?_, nofun, fun x hx => h.started x (hmem hx), h.known, h.polls, h.outer, fun _ => hcalls,
    nofun, h.wakes, ?_, nofun, fun _ _ _ _ => .inl (.inl ⟨output, rfl⟩)⟩
  · refine List.Perm.trans ?_ h.members
    refine List.Perm.append_right _ ?_
    show (s.set.entries.erase id ++ (s.returned ++ [(id, output)]).map Prod.fst).Perm _
    rw [List.map_append, ← List.append_assoc]
    refine (List.perm_append_singleton id _).trans ?_
    rw [← List.cons_append]
    exact (List.perm_cons_erase hlive).symm.append_right _
  · exact fun w hw hw' => h.queued w hw ⟨hmem hw'.1, hw'.2⟩

theorem Sound.takeOuter {k : ℕ} {w : Wake} (h : s.Sound) (hwaking : s.waking[k]? = some w) :
    (s.takeOuter k w).Sound := by
  have hmem : ∀ x, x ∈ s.waking.eraseIdx k ∨ x ∈ s.woke ++ [w] → x ∈ s.waking ∨ x ∈ s.woke := by
    rintro x (hx | hx)
    · exact .inl (List.mem_of_mem_eraseIdx hx)
    · rcases List.mem_append.mp hx with hx | hx
      · exact .inr hx
      · exact .inl (List.mem_singleton.mp hx ▸ List.mem_of_getElem? hwaking)
  have hwoken : s.calls ∈ s.woken ++ s.set.outer.toList := by
    rcases h.outer with hzero | houter | hwoken
    · have hpolled := (h.wakes w (.inl (List.mem_of_getElem? hwaking))).1
      exact absurd hzero (h.called (List.ne_nil_of_mem hpolled))
    · simp [houter]
    · exact List.mem_append_left _ hwoken
  refine ⟨h.members, h.live, h.started, h.known, h.polls, .inr (.inr hwoken), h.called, h.busy, ?_, ?_,
    fun _ _ _ _ => hwoken, fun _ _ _ _ => .inl (.inr (.inr hwoken))⟩
  · exact fun x hx => h.wakes x (hmem x hx)
  · exact fun x hx hx' => h.queued x (hmem x hx) hx'

theorem Sound.clear (h : s.Sound) (hidle : s.place = .idle) :
    Sound { s with set := s.set.clear, cleared := s.cleared ++ s.set.entries } := by
  refine ⟨?_, ?_, nofun, ?_, ?_, h.outer, h.called, h.busy, h.wakes, nofun, nofun, nofun⟩
  · refine List.Perm.trans ?_ h.members
    show (s.returned.map Prod.fst ++ (s.cleared ++ s.set.entries)).Perm _
    rw [← List.append_assoc, List.append_assoc s.set.entries]
    exact List.perm_append_comm
  · intro id hid
    rw [show s.place = _ from hid] at hidle
    cases hidle
  · rintro id (hid | hid)
    · cases hid
    · exact h.known id (.inr hid)
  · exact fun id => (Nat.add_le_add_left (Nat.zero_le _) _).trans (h.polls id)

theorem Sound.rest (h : s.Sound) (hempty : s.set.ready = []) : s.rest.Sound := by
  refine ⟨h.members, nofun, h.started, h.known, h.polls, h.outer, h.called, nofun, h.wakes,
    h.queued, ?_, ?_⟩
  · intro _ w hw hrecent
    have hmem := h.queued w (.inr hw) hrecent
    rw [hempty] at hmem
    cases hmem
  · intro id hid
    rw [show s.rest.set.ready = [] from hempty] at hid
    cases hid

/-- The id of a member that is gone leaves the queue. -/
theorem Sound.stale {ready : List ℕ} (h : s.Sound) (hdraining : s.place = .draining)
    (hqueue : s.set.ready = id :: ready) (hgone : id ∉ s.set.entries) :
    Sound { s with set := { s.set with ready := ready } } := by
  refine ⟨h.members, h.live, fun x hx => ?_, ?_, ?_, h.outer, h.called, h.busy, h.wakes, ?_,
    h.woken, ?_⟩
  · have hstarted := h.started x hx
    rw [hqueue, List.mem_cons] at hstarted
    exact hstarted.imp_left fun hmem => hmem.resolve_left fun heq => hgone (heq ▸ hx)
  · rintro x (hx | hx)
    · exact h.known x (.inl (hqueue ▸ List.mem_cons_of_mem _ hx))
    · exact h.known x (.inr hx)
  · intro x
    have hpolls := h.polls x
    rw [hqueue, List.count_cons] at hpolls
    exact (Nat.add_le_add_left (Nat.le_add_right _ _) _).trans hpolls
  · intro w hw hrecent
    have hmem := h.queued w hw hrecent
    rw [hqueue] at hmem
    exact (List.mem_cons.mp hmem).resolve_left fun heq => hgone (heq ▸ hrecent.1)
  · exact fun _ _ _ hidle => nomatch hdraining.symm.trans hidle

theorem Sound.wake (h : s.Sound) (hpolled : id ∈ s.polled) :
    Sound { s with
      set := s.set.wake id
      waking := s.waking ++ [⟨id, s.polled.count id⟩]
      fired := s.fired ++ [id] } := by
  refine ⟨h.members, h.live, fun x hx => ?_, ?_, ?_, h.outer, h.called, h.busy, ?_, ?_, h.woken, ?_⟩
  · exact (h.started x hx).imp_left (List.mem_append_left _)
  · rintro x (hx | hx)
    · rcases List.mem_append.mp hx with hx | hx
      · exact h.known x (.inl hx)
      · exact h.known x (.inr (List.mem_singleton.mp hx ▸ hpolled))
    · exact h.known x (.inr hx)
  · intro x
    have hpolls := h.polls x
    simp only [Members.wake, List.count_append]
    omega
  · rintro w (hw | hw)
    · rcases List.mem_append.mp hw with hw | hw
      · exact h.wakes w (.inl hw)
      · obtain rfl := List.mem_singleton.mp hw
        exact ⟨hpolled, le_rfl⟩
    · exact h.wakes w (.inr hw)
  · rintro w (hw | hw) hrecent
    · rcases List.mem_append.mp hw with hw | hw
      · exact List.mem_append_left _ (h.queued w (.inl hw) hrecent)
      · obtain rfl := List.mem_singleton.mp hw
        exact List.mem_append_right _ (List.mem_singleton_self id)
    · exact List.mem_append_left _ (h.queued w (.inr hw) hrecent)
  · exact fun _ _ _ _ => .inr (by simp)

theorem Sound.step {a : Label β} (h : s.Sound) (hstep : s.step a = some t) : t.Sound := by
  cases step_cases hstep with
  | push => exact h.push
  | clear hidle => exact h.clear hidle
  | pollNext hidle =>
    exact ⟨h.members, nofun, h.started, h.known, h.polls, .inr (.inl rfl),
      fun _ => Nat.succ_ne_zero _, fun _ => ⟨rfl, Nat.succ_ne_zero _⟩, h.wakes, h.queued, nofun,
      nofun⟩
  | rest hdraining hempty => exact h.rest hempty
  | poll hdraining hqueue hlive => exact h.poll hdraining hqueue hlive
  | stale hdraining hqueue hgone => exact h.stale hdraining hqueue hgone
  | ready hpolling output => exact h.complete hpolling output
  | pending hpolling =>
    exact ⟨h.members, nofun, h.started, h.known, h.polls, h.outer, h.called,
      fun _ => h.busy (by simp [hpolling]), h.wakes, h.queued, h.woken, nofun⟩
  | wake hpolled => exact h.wake hpolled
  | takeOuter hwaking => exact h.takeOuter hwaking

theorem sound {guard : State β → Label β → Prop} (h : Reachable State.step guard .new s) :
    s.Sound :=
  h.invariant Sound.new fun _ _ _ hsound _ hstep => hsound.step hstep

theorem Sound.delivers (h : s.Sound) : s.Delivers := by
  refine ⟨h.members, fun id => ?_, fun id hpolling hreturned => ?_, h.woken⟩
  · exact (Nat.le_add_right _ _).trans (h.polls id)
  · have hnodup := (List.nodup_append.mp h.nodup).1
    exact (List.nodup_append.mp hnodup).2.2 id (h.live id hpolling) id hreturned rfl

end State

end Eddy.FuturesUnordered
