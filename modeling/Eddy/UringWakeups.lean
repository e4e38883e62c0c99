import Eddy.UringRuns

/-!
# Wakeups of streams

`poll_next` takes an event, asks whether the stream has finished, and stores its waker, each in a
section of its own. A reaper takes the waker that it finds stored. So a poll that returns
`Pending` is woken unless a completion comes between its sections and finds another waker or none.
-/

namespace Eddy.Uring
open Table Interleaving
open Function (update)

structure Outlook where
  waker : Option ℕ
  drained : Bool
  finished : Bool

def OpState.drained (op : OpState) : Bool := op.multishot.all (·.events.isEmpty)

def OpState.finished (op : OpState) : Bool := op.multishot.any MultishotState.finished

def OpState.outlook (op : OpState) : Outlook := ⟨op.waker, op.drained, op.finished⟩

theorem OpState.outlook_setCleanup (op : OpState) (c : ℕ) :
    (op.setCleanup c).outlook = op.outlook := by
  cases hm : op.multishot <;>
    simp [OpState.outlook, OpState.drained, OpState.finished, OpState.setCleanup,
      OrphanedOp.setCleanup, hm, MultishotState.finished]

theorem OpState.outlook_fresh {op : OpState} (h : op.Fresh) :
    op.outlook = ⟨op.waker, true, false⟩ := by
  cases hm : op.multishot with
  | none => simp [OpState.outlook, OpState.drained, OpState.finished, hm]
  | some m =>
    obtain ⟨hevents, hterminal, -⟩ := h.2 m hm
    simp [OpState.outlook, OpState.drained, OpState.finished, hm, MultishotState.finished, hevents,
      hterminal]

/-- The operations of both tables look the same to a poll. -/
def Table.SameOutlook (v v' : Table) : Prop :=
  ∀ u, (v'.op u).map OpState.outlook = (v.op u).map OpState.outlook

namespace Table.SameOutlook
variable {v v' v'' : Table}

theorem of_eq (h : v'.op = v.op) : SameOutlook v v' := by
  intro u
  rw [h]

theorem trans (h : SameOutlook v v') (h' : SameOutlook v' v'') : SameOutlook v v'' :=
  fun u => (h' u).trans (h u)

end Table.SameOutlook

namespace Ring
variable {r r' : Ring}

theorem op_submitInner (r : Ring) (answer : Option ℕ) :
    (submitInner r answer).2.table.op = r.table.op := by
  obtain ⟨n, sqPending, heq⟩ := exists_submitInner_eq r answer
  rw [heq]
  rfl

theorem sameOutlook_queueCleanup (r : Ring) (request : ℕ × ℕ × ℕ) :
    SameOutlook r.table (queueCleanup r request).2.table := by
  obtain ⟨target, count, group⟩ := request
  have hop := (Asks.queueRemoveBuffersLocked r target count group).op
  unfold queueCleanup
  dsimp only
  rcases hqueue : queueRemoveBuffersLocked r target count group with ⟨result, r₁⟩
  rw [hqueue] at hop
  cases result with
  | error => exact .of_eq hop
  | ok c =>
    refine SameOutlook.trans (.of_eq hop) fun u => ?_
    simp only [table, Slab.lookup]
    cases r₁.ops.find fun op => op.userData == target with
    | none => rfl
    | some key =>
      cases r₁.opsByUserData u with
      | none => rfl
      | some j =>
        simp only [Option.elim_some, Option.bind_some, Slab.get_modify]
        split
        · rw [Option.map_map]
          congr 1
          funext op
          exact op.outlook_setCleanup c
        · rfl

theorem sameOutlook_queueCleanups (r : Ring) (requests : List (ℕ × ℕ × ℕ)) :
    SameOutlook r.table (queueCleanups r requests).2.table := by
  induction requests generalizing r with
  | nil => exact .of_eq rfl
  | cons request requests ih => exact (sameOutlook_queueCleanup r request).trans (ih _)

end Ring

/-- A completion that adds an event to the stream `u`. -/
def Cqe.signals (u : ℕ) (cqe : Cqe) : Bool :=
  cqe.sqe.owner == u &&
    (!cqe.sqe.opcode.control || cqe.sqe.opcode == .provideBuffers && decide (cqe.res < 0))

/-- A completion that gives the buffers of the stream `u` back. -/
def Cqe.restores (u : ℕ) (cqe : Cqe) : Bool :=
  cqe.sqe.owner == u && cqe.sqe.opcode == .removeBuffers && decide (0 ≤ cqe.res)

def Table.wakes (v : Table) (cqe : Cqe) : List ℕ :=
  match v.cancel cqe.userData with
  | some _ => []
  | none =>
    match v.provide cqe.userData with
    | some target =>
      if v.cleanup cqe.userData ∨ cqe.res < 0 then (v.op target).elim [] OpState.streamWaker else []
    | none => (v.op cqe.userData).elim [] fun op => op.waker.toList

theorem Ring.wakes_reapCleanup (r : Ring) (target : ℕ) (res : ℤ) :
    (reapCleanup r target res).2 = (r.table.op target).elim [] OpState.streamWaker := by
  simp only [reapCleanup, table, Slab.lookup]
  cases r.opsByUserData target with
  | some key => rfl
  | none =>
    simp only [Option.bind_none, Option.elim_none]
    split
    · split
      · rfl
      · split <;> rfl
    · rfl

theorem Ring.wakes_reapProvide (r : Ring) (target : ℕ) (res : ℤ) :
    (reapProvide r target res).2 =
      if res < 0 then (r.table.op target).elim [] OpState.streamWaker else [] := by
  simp only [reapProvide, table, Slab.lookup]
  split_ifs
  · cases r.opsByUserData target <;> rfl
  · rfl

theorem Ring.wakes_reapCqe (r : Ring) (cqe : Cqe) : (reapCqe r cqe).2.1 = r.table.wakes cqe := by
  unfold reapCqe Table.wakes
  cases hcancel : r.cancelTargets cqe.userData with
  | some target => simp [table, hcancel]
  | none =>
    cases hprovide : r.provideTargets cqe.userData with
    | some target =>
      by_cases hcleanup : r.cleanupTargets cqe.userData = true
      · simp [table, hcancel, hprovide, hcleanup, wakes_reapCleanup]
      · simp [table, hcancel, hprovide, hcleanup, wakes_reapProvide]
    | none =>
      simp only [table, hcancel, hprovide, Slab.lookup]
      cases hkey : r.opsByUserData cqe.userData with
      | some key =>
        simp only [reapOp, Option.bind_some]
        cases hop : r.ops.get key with
        | none => rfl
        | some op =>
          simp only [Option.elim_some]
          split <;> rfl
      | none =>
        simp only [Option.bind_none, Option.elim_none]
        split <;> rfl

/-- What a completion does to the operation of a future: it is as before for a poll, or its waker
is taken and the completion is one of the kinds that a poll has to see. -/
def Table.Roused (op op' : OpState) (u : ℕ) (cqe : Cqe) (wakes : List ℕ) : Prop :=
  op'.outlook = op.outlook ∨
    (∀ w, op.waker = some w → w ∈ wakes) ∧
      (cqe.signals u = true ∨ op'.drained = op.drained ∧
        (op'.finished = op.finished ∨
          cqe.restores u = true ∧ op.multishot.any MultishotState.terminal = true))

namespace Table
variable {v : Table} {cqe : Cqe} {io : Traffic Sqe Cqe} {u : ℕ} {op : OpState}

theorem roused_cleaned (hcleanup : cqe.sqe.opcode = .removeBuffers) (howner : cqe.sqe.owner = u) :
    Roused op (op.cleaned cqe.res) u cqe op.streamWaker := by
  cases hm : op.multishot with
  | none =>
    left
    simp [OpState.cleaned, hm]
  | some m =>
    refine .inr ⟨fun w hw => by simp [OpState.streamWaker, hm, hw], .inr ⟨?_, ?_⟩⟩
    · simp [OpState.drained, OpState.cleaned, hm]
    · cases hterminal : m.terminal with
      | false => simp [OpState.finished, OpState.cleaned, hm, MultishotState.finished, hterminal]
      | true =>
        by_cases hres : 0 ≤ cqe.res
        · exact .inr ⟨by simp [Cqe.restores, hcleanup, howner, hres], by simp [hm, hterminal]⟩
        · exact .inl (by simp [OpState.finished, OpState.cleaned, hm, MultishotState.finished, hres])

theorem roused_provideFailed (hopcode : cqe.sqe.opcode = .provideBuffers)
    (howner : cqe.sqe.owner = u) (hres : cqe.res < 0) :
    Roused op (op.provideFailed cqe.res) u cqe op.streamWaker := by
  cases hm : op.multishot with
  | none =>
    left
    simp [OpState.provideFailed, hm]
  | some m =>
    refine .inr ⟨fun w hw => by simp [OpState.streamWaker, hm, hw], .inl ?_⟩
    simp [Cqe.signals, hopcode, howner, hres]

theorem roused_answered (hcontrol : cqe.sqe.opcode.control = false) (howner : cqe.sqe.owner = u) :
    Roused op (op.answered cqe) u cqe op.waker.toList := by
  refine .inr ⟨fun w hw => by simp [hw], .inl ?_⟩
  simp [Cqe.signals, hcontrol, howner]

/-- An operation is changed by the completions of its own submissions. -/
theorem Valid.roused (h : v.Valid) (hreap : v.io.reap = some (cqe, io)) (hop : v.op u = some op) :
    ∃ op', (Table.reapCqe { v with io := io } cqe).op u = some op' ∧
      Roused op op' u cqe (v.wakes cqe) := by
  have hsame : ∃ op', v.op u = some op' ∧ Roused op op' u cqe (v.wakes cqe) := ⟨op, hop, .inl rfl⟩
  have hset : ∀ {w : ℕ} {old op₁ : OpState}, v.op w = some old →
      (w = u → Roused old op₁ u cqe (v.wakes cqe)) →
      ∃ op', ((v.clear io cqe.userData).setOp w op₁).op u = some op' ∧
        Roused op op' u cqe (v.wakes cqe) := by
    intro w old op₁ hold hroused
    by_cases hw : w = u
    · subst hw
      obtain rfl : old = op := Option.some.inj (hold.symm.trans hop)
      exact ⟨op₁, by simp [Table.setOp], hroused rfl⟩
    · refine ⟨op, ?_, .inl rfl⟩
      simpa [Table.setOp, Table.clear, Ne.symm hw] using hop
  rcases h.reap_cases hreap with ⟨hopcode, ⟨hcancel, heq⟩ | ⟨-, heq⟩⟩ |
    ⟨hopcode, hprovide, hcleanup, heq⟩ | ⟨hopcode, hprovide, hcleanup, heq⟩ |
    ⟨hcontrol, howner, hcancel, hprovide, heq⟩ <;> rw [heq]
  · have hnone := (h.cancel _ _ hcancel).1
    unfold Table.reapCancel
    split_ifs
    · split
      · split_ifs
        · exact hsame
        · exact hsame
      · split
        · rename_i hop'
          simp [Table.clear, hnone] at hop'
        · exact hsame
    · exact hsame
  · exact hsame
  · have hcancel := h.cancel_eq_none hreap (by simp [hopcode])
    unfold Table.reapCleanup
    split
    · rename_i op₁ hop₁
      have hop₁ : v.op cqe.sqe.owner = some op₁ := hop₁
      refine hset hop₁ fun hu => ?_
      have hwakes : v.wakes cqe = op₁.streamWaker := by
        simp [Table.wakes, hcancel, hprovide, hcleanup, hop₁]
      rw [hwakes]
      exact roused_cleaned hopcode hu
    · split
      · split
        · exact hsame
        · exact hsame
      · exact hsame
  · have hcancel := h.cancel_eq_none hreap (by simp [hopcode])
    unfold Table.reapProvide
    split_ifs with hres
    · split
      · rename_i op₁ hop₁
        have hop₁ : v.op cqe.sqe.owner = some op₁ := hop₁
        refine hset hop₁ fun hu => ?_
        have hwakes : v.wakes cqe = op₁.streamWaker := by
          simp [Table.wakes, hcancel, hprovide, hres, hop₁]
        rw [hwakes]
        exact roused_provideFailed hopcode hu hres
      · exact hsame
    · exact hsame
  · unfold Table.reapAnswer
    split
    · rename_i op₁ hop₁
      have hop₁ : v.op cqe.userData = some op₁ := hop₁
      refine hset hop₁ fun hu => ?_
      have hwakes : v.wakes cqe = op₁.waker.toList := by
        simp [Table.wakes, hcancel, hprovide, hop₁]
      rw [hwakes]
      exact roused_answered hcontrol (howner.trans hu)
    · split
      · dsimp only
        split
        · exact hsame
        · exact hsame
      · exact hsame

end Table

namespace System

/-- The wakers that reapers have taken and not yet woken. -/
def toWake (s : System) : List ℕ :=
  s.reapers.flatMap Reaper.wake ++ s.reaping.elim [] fun r => r.2.wake

/-- The wakers that were woken after the first `n`, or are about to be. -/
def wakesSince (s : System) (n : ℕ) : List ℕ := s.wakes.drop n ++ s.toWake

variable {s s' : System}

variable {a : Label} {slot old : Slot} {move : ClientMove}

theorem wakes_length_le (hstep : s.step a = some s') :
    s.wakes.length ≤ s'.wakes.length := by
  cases Steps.of_eq hstep with
  | reaperWake => simp
  | _ => exact Nat.le_refl _

theorem mem_flatMap_set {reapers : List Reaper} {j : ℕ} {old new : Reaper} {w : ℕ}
    (hj : reapers[j]? = some old) (hw : w ∈ reapers.flatMap Reaper.wake)
    (hnew : w ∈ old.wake → w ∈ new.wake) : w ∈ (reapers.set j new).flatMap Reaper.wake := by
  obtain ⟨reaper, hmem, hw⟩ := List.mem_flatMap.mp hw
  obtain ⟨i, hi⟩ := List.mem_iff_getElem?.mp hmem
  by_cases hij : j = i
  · subst hij
    obtain rfl : old = reaper := Option.some.inj (hj.symm.trans hi)
    have hlt := (List.getElem?_eq_some_iff.mp hj).1
    have hget : (reapers.set j new)[j]? = some new := by simp [hlt]
    exact List.mem_flatMap.mpr ⟨new, List.mem_of_getElem? hget, hnew hw⟩
  · have hget : (reapers.set j new)[i]? = some reaper := by simp [hij, hi]
    exact List.mem_flatMap.mpr ⟨reaper, List.mem_of_getElem? hget, hw⟩

/-- A waker that was taken is woken before its reaper returns. -/
theorem mem_wakesSince {n w : ℕ} (hstep : s.step a = some s') (hn : n ≤ s.wakes.length)
    (hw : w ∈ s.wakesSince n) : w ∈ s'.wakesSince n := by
  simp only [wakesSince, toWake, List.mem_append] at hw ⊢
  cases Steps.of_eq hstep with
  | consume | post | submit | client => exact hw
  | reapBegin hreaping => simpa [hreaping] using hw
  | reapCqe hreaping =>
    simp only [hreaping, Option.elim_some] at hw
    simp only [Option.elim_some, List.mem_append]
    tauto
  | reapEnd hreaping =>
    simp only [hreaping, Option.elim_some] at hw
    simp only [List.flatMap_append, List.flatMap_singleton, Option.elim_none, List.mem_append,
      List.not_mem_nil, or_false]
    exact hw
  | reaperSubmit hj =>
    rcases hw with hw | hw | hw
    · exact .inl hw
    · exact .inr (.inl (mem_flatMap_set hj hw id))
    · exact .inr (.inr hw)
  | @reaperWake j waker wake hj =>
    have hlast : waker ∈ (s.wakes ++ [waker]).drop n := by
      rw [List.drop_append_of_le_length hn]
      simp
    rcases hw with hw | hw | hw
    · left
      rw [List.drop_append_of_le_length hn]
      exact List.mem_append_left _ hw
    · by_cases heq : w = waker
      · exact .inl (heq ▸ hlast)
      · refine .inr (.inl (mem_flatMap_set hj hw fun hmem => ?_))
        simpa [heq] using hmem
    · exact .inr (.inr hw)
  | @reaperReturn j hj =>
    rcases hw with hw | hw | hw
    · exact .inl hw
    · obtain ⟨reaper, hmem, hw⟩ := List.mem_flatMap.mp hw
      refine .inr (.inl (List.mem_flatMap.mpr ⟨reaper, ?_, hw⟩))
      obtain ⟨i, hi⟩ := List.mem_iff_getElem?.mp hmem
      refine List.mem_eraseIdx_iff_getElem?.mpr ⟨i, ?_, hi⟩
      rintro rfl
      obtain rfl : ⟨false, []⟩ = reaper := Option.some.inj (hj.symm.trans hi)
      cases hw
    · exact .inr (.inr hw)

/-- The waker of the last poll was woken after that poll began, or is about to be. -/
def Served (s : System) (f : Future) : Prop := f.waker ∈ s.wakesSince f.since

def outlook (s : System) (f : Future) : Option Outlook :=
  (s.ring.table.op f.userData).map OpState.outlook

/-- What is known of a stream between the sections of its polls. -/
def Awaits (s : System) : Slot → Prop
  | .started f | .pending f => f.multishot = true →
      s.Served f ∨ s.outlook f = some ⟨some f.waker, true, false⟩
  | .polled f => f.multishot = true →
      s.Served f ∨ ∀ o, s.outlook f = some o → o.drained = true
  | .unfinished f =>
      s.Served f ∨ ∀ o, s.outlook f = some o → o.drained = true ∧ o.finished = false
  | _ => True

/-- A completion comes between the sections of a poll of the stream and will not be seen. -/
def Missed (s : System) (cqe : Cqe) : Slot → Option Future
  | .polled f => if f.multishot ∧ cqe.signals f.userData then some f else none
  | .unfinished f =>
      if cqe.signals f.userData ∨ cqe.restores f.userData ∧
        (s.ring.table.op f.userData).any (·.multishot.any MultishotState.terminal) then some f
      else none
  | _ => none

/-- A completion that a poll will not see is reaped only if it finds the waker of that poll, or
that waker was woken or taken since the poll began. -/
def RousesPolls (s : System) : Label → Prop
  | .reapCqe => ∀ cqe ∈ s.ring.io.cq.head?, ∀ slot ∈ s.slots, ∀ f ∈ s.Missed cqe slot,
      (s.ring.table.op f.userData).bind OpState.waker = some f.waker ∨ s.Served f
  | _ => True

instance (s : System) (f : Future) : Decidable (s.Served f) :=
  inferInstanceAs (Decidable (f.waker ∈ s.wakesSince f.since))

instance (s : System) : (a : Label) → Decidable (s.RousesPolls a)
  | .reapCqe => inferInstanceAs (Decidable (∀ cqe ∈ s.ring.io.cq.head?, ∀ slot ∈ s.slots,
      ∀ f ∈ s.Missed cqe slot,
        (s.ring.table.op f.userData).bind OpState.waker = some f.waker ∨ s.Served f))
  | .consume _ | .post .. | .submit _ | .client .. | .reapBegin | .reapEnd | .reaperSubmit ..
  | .reaperWake _ | .reaperReturn _ => .isTrue trivial

structure Awake (s : System) : Prop where
  since : ∀ i f, s.future i = some f → f.since ≤ s.wakes.length
  slots : ∀ (i : ℕ) (slot : Slot), s.slots[i]? = some slot → s.Awaits slot

theorem Awake.new (sqEntries : ℕ) (sqpoll : Bool) (futures : ℕ) :
    (System.new sqEntries sqpoll futures).Awake := by
  have hidle : ∀ (i : ℕ) (slot : Slot), (System.new sqEntries sqpoll futures).slots[i]? = some slot →
      slot = .idle := by
    intro i slot hi
    exact List.eq_of_mem_replicate (List.mem_of_getElem? hi)
  constructor
  · intro i f hf
    obtain ⟨slot, hi, hslot⟩ := Option.bind_eq_some_iff.mp hf
    rw [hidle i slot hi] at hslot
    cases hslot
  · intro i slot hi
    rw [hidle i slot hi]
    trivial

theorem Awaits.same (h : s.Awaits slot)
    (hserved : ∀ f, slot.future = some f → s.Served f → s'.Served f)
    (houtlook : ∀ f, slot.future = some f → s'.outlook f = s.outlook f) : s'.Awaits slot := by
  cases slot with
  | started f | pending f | polled f =>
    intro hmultishot
    rw [houtlook f rfl]
    exact (h hmultishot).imp_left (hserved f rfl)
  | unfinished f =>
    simp only [Awaits, houtlook f rfl]
    exact h.imp_left (hserved f rfl)
  | _ => trivial

/-- A step that touches neither the futures nor what their polls look at. -/
theorem Awake.kept (h : s.Awake) (hstep : s.step a = some s')
    (hslots : s'.slots = s.slots) (hsame : SameOutlook s.ring.table s'.ring.table) : s'.Awake := by
  have hfuture : s'.future = s.future := by
    funext i
    rw [future, hslots, future]
  constructor
  · intro i f hf
    rw [hfuture] at hf
    exact (h.since i f hf).trans (wakes_length_le hstep)
  · intro i slot hi
    rw [hslots] at hi
    apply (h.slots i slot hi).same
    · intro f hf hserved
      have hi' : s.future i = some f := by simp [future, hi, hf]
      exact mem_wakesSince hstep (h.since i f hi') hserved
    · intro f _
      exact hsame f.userData

/-- A future changes its own operation only. -/
theorem op_of_clientStep {r r' : Ring} {now u : ℕ}
    (h : r.Routed) (hfits : old.Fits r.table) (hstep : ClientStep r now old move r' slot)
    (hb : r'.allocated < 2 ^ 64) (hu : ∀ f, old.future = some f → f.userData ≠ u)
    (hop : r.table.op u ≠ none) : r'.table.op u = r.table.op u := by
  have hrelease : ∀ {w : ℕ} {op : Option OpState}, w ≠ u →
      r'.table.op = update r.table.op w op → r'.table.op u = r.table.op u := by
    intro w op hw heq
    rw [heq, Function.update_of_ne hw.symm]
  have hstart : ∀ {key waker : ℕ} {start : Start} {result : Option ℕ}, r.ops.Vacant key →
      start.run r key waker = (result, r') → r'.table.op u = r.table.op u := by
    intro key waker start result hvacant hrun
    have hstarted := h.run hvacant start waker (by rwa [hrun])
    rw [hrun] at hstarted
    cases hstarted with
    | rejected _ htable => rcases htable with htable | htable <;> rw [htable]
    | queued _ _ _ _ _ hop' _ _ _ hfresh =>
      refine hrelease ?_ hop'
      rintro rfl
      exact hop (h.valid.fresh hfresh).1
  cases hstep with
  | start hvacant hrun | startFailed hvacant hrun => exact hstart hvacant hrun
  | submit | submitCancel => rw [Ring.op_submitInner]
  | @drop _ f orphanKey hold hvacant =>
    have hf : old.future = some f := by rcases hold with rfl | rfl | rfl <;> rfl
    obtain ⟨op, hkey, huser, -⟩ := h.get_of_index (hfits.holds hf).1
    exact hrelease (huser.symm ▸ hu f hf) (h.orphan hkey hvacant).op
  | @poll _ f waker hold =>
    have hf : old.future = some f := by rcases hold with rfl | rfl <;> rfl
    have hholds : f.Holds r.table := hfits.holds hf
    have hholds : Future.Holds r.table { f with waker := waker, since := now } := hholds
    have hpoll := h.poll hholds
    rcases hresult : poll r { f with waker := waker, since := now } with ⟨r₁, slot₁⟩
    rw [hresult] at hpoll
    cases hpoll with
    | event _ _ _ _ _ htable | result _ _ _ _ htable =>
      rw [htable]
      exact Function.update_of_ne (hu f hf).symm _ _
    | nothing => rfl
  | check | checkUnfinished | uncancel => rfl
  | @finish f =>
    obtain ⟨⟨hindex, op, hop', hisSome⟩, hmultishot, hended⟩ := hfits
    obtain ⟨op', hkey, huser, hop''⟩ := h.get_of_index hindex
    obtain rfl : op' = op := Option.some.inj (hop''.symm.trans hop')
    have htable := (h.removeMultishot hkey (hisSome.trans hmultishot) (huser.symm ▸ hended)).2.2
    rw [htable, huser]
    exact Function.update_of_ne (hu f rfl).symm _ _
  | @register _ f hold =>
    have hf : old.future = some f := by rcases hold with ⟨rfl, -⟩ | rfl <;> rfl
    obtain ⟨op, hkey, huser, -⟩ := h.get_of_index (hfits.holds hf).1
    rw [(h.storeWaker hkey f.waker).2.2, huser]
    exact Function.update_of_ne (hu f hf).symm _ _
  | cancel => rw [(Ring.Asks.queueCancel ..).op]

/-- What a section leaves for the rest of the poll. -/
theorem awaits_of_clientStep {ring : Ring}
    (slots : List Slot) (h : s.ring.Routed) (hfits : old.Fits s.ring.table) (hold : s.Awaits old)
    (hstep : ClientStep s.ring s.wakes.length old move ring slot) (hb : ring.allocated < 2 ^ 64) :
    Awaits { s with ring := ring, slots := slots } slot ∧
      ∀ f, slot.future = some f → f.since = s.wakes.length ∨ old.future = some f := by
  have hserved : ∀ f, s.Served f → Served { s with ring := ring, slots := slots } f := fun _ hf => hf
  cases hstep with
  | @start key key' waker start _ hvacant hrun =>
    have hstarted := h.run hvacant start waker (by rwa [hrun])
    rw [hrun] at hstarted
    refine ⟨fun _ => .inr ?_, ?_⟩
    · cases hstarted with
      | queued _ _ _ hwaker hfresh hop =>
        simp [outlook, hop, OpState.outlook_fresh hfresh, hwaker]
    · intro f hf
      cases hf
      exact .inl rfl
  | startFailed => exact ⟨trivial, fun _ hf => by cases hf⟩
  | @submit f answer =>
    split
    · refine ⟨?_, fun g hg => .inr hg⟩
      intro hmultishot
      simpa only [outlook, Ring.op_submitInner] using (hold hmultishot).imp_left (hserved f)
    · exact ⟨trivial, fun g hg => .inr hg⟩
  | @drop _ f orphanKey =>
    cases (orphan s.ring f.key orphanKey).1 with
    | none | some target => exact ⟨trivial, fun _ hf => by cases hf⟩
  | @poll _ f waker hslot =>
    have hf : old.future = some f := by rcases hslot with rfl | rfl <;> rfl
    have hholds : f.Holds s.ring.table := hfits.holds hf
    have hholds : Future.Holds s.ring.table { f with waker := waker, since := s.wakes.length } :=
      hholds
    have hpoll := h.poll hholds
    rcases hresult : poll s.ring { f with waker := waker, since := s.wakes.length } with ⟨r₁, slot₁⟩
    rw [hresult] at hpoll
    cases hpoll with
    | event =>
      refine ⟨trivial, fun g hg => ?_⟩
      cases hg
      exact .inl rfl
    | result => exact ⟨trivial, fun _ hf => by cases hf⟩
    | @nothing op hop _ hevents =>
      refine ⟨fun _ => .inr fun o ho => ?_, fun g hg => ?_⟩
      · have ho : some op.outlook = some o := by simpa [outlook, hop] using ho
        cases ho
        cases hm : op.multishot with
        | none => simp [OpState.outlook, OpState.drained, hm]
        | some m => simp [OpState.outlook, OpState.drained, hm, hevents m hm]
      · cases hg
        exact .inl rfl
  | check => exact ⟨trivial, fun g hg => .inr hg⟩
  | @checkUnfinished f hmultishot hunfinished =>
    refine ⟨?_, fun g hg => .inr hg⟩
    refine (hold hmultishot).imp_right fun hdrained o ho => ⟨hdrained o ho, ?_⟩
    have hholds : f.Holds s.ring.table := hfits
    obtain ⟨op, hkey, -, hop⟩ := h.get_of_index hholds.1
    have ho : some op.outlook = some o := by simpa [outlook, hop] using ho
    cases ho
    simpa [multishotFinished, hkey, OpState.outlook, OpState.finished] using hunfinished
  | finish => exact ⟨trivial, fun _ hf => by cases hf⟩
  | @register _ f hslot =>
    have hf : old.future = some f := by rcases hslot with ⟨rfl, -⟩ | rfl <;> rfl
    refine ⟨fun hmultishot => ?_, fun g hg => .inr (hg ▸ hf)⟩
    obtain ⟨op, hkey, huser, hop⟩ := h.get_of_index (hfits.holds hf).1
    have htable := (h.storeWaker hkey f.waker).2.2
    rcases hslot with ⟨rfl, hsingle⟩ | rfl
    · simp [hsingle] at hmultishot
    · refine hold.imp_right fun hquiet => ?_
      obtain ⟨hdrained, hfinished⟩ := hquiet op.outlook (by simp [outlook, hop])
      simp only [outlook, htable, huser, Table.setOp, Function.update_self, Option.map_some,
        Option.some.injEq]
      simp only [OpState.outlook] at hdrained hfinished ⊢
      simp only [Outlook.mk.injEq, true_and]
      exact ⟨hdrained, hfinished⟩
  | @cancel target =>
    cases (queueCancel s.ring target).1 with
    | none | some c => exact ⟨trivial, fun _ hf => by cases hf⟩
  | submitCancel => split <;> exact ⟨trivial, fun _ hf => by cases hf⟩
  | uncancel => exact ⟨trivial, fun _ hf => by cases hf⟩

theorem Awake.client {i : ℕ} {ring : Ring} (h : s.Awake)
    (hrouted : s.Routed) (hi : s.slots[i]? = some old)
    (hstep : ClientStep s.ring s.wakes.length old move ring slot) (hb : ring.allocated < 2 ^ 64) :
    Awake { s with ring := ring, slots := s.slots.set i slot } := by
  obtain ⟨hslot, hsince⟩ := awaits_of_clientStep (s.slots.set i slot) hrouted.ring
    (hrouted.fits i old hi) (h.slots i old hi) hstep hb
  constructor
  · intro j f hf
    rw [future_set hi] at hf
    split_ifs at hf with hj
    · rcases hsince f hf with heq | hold
      · exact heq.le
      · have hi' : s.future i = some f := by simp [future, hi, hold]
        exact h.since i f hi'
    · exact h.since j f hf
  · intro j other hj
    simp only [List.getElem?_set] at hj
    split_ifs at hj with hij hlt
    · cases hj
      exact hslot
    · refine (h.slots j other hj).same (fun _ _ hserved => hserved) fun g hg => ?_
      have hj' : s.future j = some g := by simp [future, hj, hg]
      obtain ⟨-, op, hop, -⟩ := hrouted.holds hj'
      have hsame := op_of_clientStep (u := g.userData) hrouted.ring (hrouted.fits i old hi) hstep hb
        (fun f hf huser => hij (hrouted.apart i j f g (by simp [future, hi, hf]) hj' huser))
        (by simp [hop])
      simp only [outlook, hsame]

theorem Awake.reap {available : ℕ} {reaper : Reaper} {cqe : Cqe} {io : Traffic Sqe Cqe}
    (h : s.Awake) (hrouted : s.Routed) (hguard : s.RousesPolls .reapCqe)
    (hreap : s.ring.io.reap = some (cqe, io)) (hstep : s.step .reapCqe = some s')
    (hs' : s' = { s with
      ring := (Uring.reapCqe { s.ring with io := io } cqe).1
      reaping := some (available,
        ⟨reaper.refill || (Uring.reapCqe { s.ring with io := io } cqe).2.2,
          reaper.wake ++ (Uring.reapCqe { s.ring with io := io } cqe).2.1⟩) })
    (hb : s'.ring.allocated < 2 ^ 64) : s'.Awake := by
  have hslots : s'.slots = s.slots := by rw [hs']
  have hfuture : s'.future = s.future := by
    funext i
    rw [future, hslots, future]
  have hop := (hrouted.ring.reapCqe hreap (by rwa [hs'] at hb)).op
  have htaken : ∀ f : Future, f.waker ∈ s.ring.table.wakes cqe → s'.Served f := by
    intro f hf
    have hwakes : (Uring.reapCqe { s.ring with io := io } cqe).2.1 = s.ring.table.wakes cqe :=
      Ring.wakes_reapCqe { s.ring with io := io } cqe
    rw [hs', Served, wakesSince, toWake, hwakes]
    simp [hf]
  obtain ⟨rest, hcq, -⟩ := Traffic.reap_eq_some.mp hreap
  have hmissed : ∀ (i : ℕ) (slot : Slot) (f : Future), s.slots[i]? = some slot →
      s.Missed cqe slot = some f → (s.ring.table.op f.userData).bind OpState.waker = some f.waker ∨
        s.Served f := fun i slot f hi hf =>
    hguard cqe (by simp [hcq]) slot (List.mem_of_getElem? hi) f hf
  constructor
  · intro i f hf
    rw [hfuture] at hf
    exact (h.since i f hf).trans (wakes_length_le hstep)
  · intro i slot hi
    rw [hslots] at hi
    have hserved : ∀ f, slot.future = some f → s.Served f → s'.Served f := by
      intro f hf hserved
      exact mem_wakesSince hstep (h.since i f (by simp [future, hi, hf])) hserved
    have hroused : ∀ f, slot.future = some f → ∃ op op', s.ring.table.op f.userData = some op ∧
        s.outlook f = some op.outlook ∧ s'.outlook f = some op'.outlook ∧
        Roused op op' f.userData cqe (s.ring.table.wakes cqe) := by
      intro f hf
      obtain ⟨-, op, hop₀, -⟩ := (hrouted.fits i slot hi).holds hf
      obtain ⟨op', hop', hroused⟩ := hrouted.ring.valid.roused hreap hop₀
      refine ⟨op, op', hop₀, by simp [outlook, hop₀], ?_, hroused⟩
      rw [← hop] at hop'
      rw [hs', outlook, hop']
      rfl
    have hseen : ∀ f op, s.Missed cqe slot = some f → s.ring.table.op f.userData = some op →
        slot.future = some f → (∀ w, op.waker = some w → w ∈ s.ring.table.wakes cqe) →
        s'.Served f := by
      intro f op hf hop₀ hslot htake
      rcases hmissed i slot f hi hf with hwaker | hold
      · exact htaken f (htake _ (by simpa [hop₀] using hwaker))
      · exact hserved f hslot hold
    have hold := h.slots i slot hi
    cases slot with
    | started f | pending f =>
      intro hmultishot
      obtain ⟨op, op', hop₀, ho, ho', hroused⟩ := hroused f rfl
      rcases hold hmultishot with hold | hold
      · exact .inl (hserved f rfl hold)
      · rw [ho, Option.some.injEq] at hold
        rcases hroused with hsame | ⟨htake, -⟩
        · exact .inr (by rw [ho', hsame, hold])
        · exact .inl (htaken f (htake f.waker (congrArg Outlook.waker hold)))
    | polled f =>
      intro hmultishot
      obtain ⟨op, op', hop₀, ho, ho', hroused⟩ := hroused f rfl
      rcases hold hmultishot with hold | hdrained
      · exact .inl (hserved f rfl hold)
      · have hdrained := hdrained _ ho
        rcases hroused with hsame | ⟨htake, hsignals | ⟨hsame, -⟩⟩
        · refine .inr fun o ho₁ => ?_
          rw [ho', hsame, Option.some.injEq] at ho₁
          exact ho₁ ▸ hdrained
        · exact .inl (hseen f op (by simp [Missed, hmultishot, hsignals]) hop₀ rfl htake)
        · refine .inr fun o ho₁ => ?_
          rw [ho', Option.some.injEq] at ho₁
          exact ho₁ ▸ hsame.trans hdrained
    | unfinished f =>
      obtain ⟨op, op', hop₀, ho, ho', hroused⟩ := hroused f rfl
      rcases hold with hold | hquiet
      · exact .inl (hserved f rfl hold)
      · obtain ⟨hdrained, hunfinished⟩ := hquiet _ ho
        rcases hroused with hsame | ⟨htake, hsignals | ⟨hsame, hsame' | ⟨hrestores, hterminal⟩⟩⟩
        · refine .inr fun o ho₁ => ?_
          rw [ho', hsame, Option.some.injEq] at ho₁
          exact ho₁ ▸ ⟨hdrained, hunfinished⟩
        · exact .inl (hseen f op (by simp [Missed, hsignals]) hop₀ rfl htake)
        · refine .inr fun o ho₁ => ?_
          rw [ho', Option.some.injEq] at ho₁
          exact ho₁ ▸ ⟨hsame.trans hdrained, hsame'.trans hunfinished⟩
        · exact .inl (hseen f op (by simp [Missed, hrestores, hop₀, hterminal]) hop₀ rfl htake)
    | _ => trivial

theorem Awake.step (h : s.Awake) (hrouted : s.Routed) (hguard : s.RousesPolls a)
    (hstep : s.step a = some s') (hb : s'.ring.allocated < 2 ^ 64) : s'.Awake := by
  cases Steps.of_eq hstep with
  | consume | post | reapBegin | reaperWake | reaperReturn => exact h.kept hstep rfl (.of_eq rfl)
  | submit | reaperSubmit => exact h.kept hstep rfl (.of_eq (Ring.op_submitInner _ _))
  | client hi hclient => exact h.client hrouted hi hclient hb
  | reapCqe _ hreap => exact h.reap hrouted hguard hreap hstep rfl hb
  | reapEnd => exact h.kept hstep rfl (Ring.sameOutlook_queueCleanups _ _)

/-- No wakeup of a stream is lost: once no thread is inside an operation, a stream whose last poll
returned `Pending` has nothing to return, or the waker of that poll was woken since it began. -/
def KeepsWakeups (s : System) : Prop :=
  s.reaping = none → s.reapers = [] → ∀ (i : ℕ) (f : Future), s.slots[i]? = some (.pending f) →
    f.multishot = true →
    (∃ op m, s.ring.ops.get f.key = some op ∧ op.multishot = some m ∧ m.events = [] ∧
      m.finished = false) ∨ f.waker ∈ s.wakes.drop f.since

theorem wakeups_kept {sqEntries futures : ℕ} {sqpoll : Bool}
    (h : Reachable System.step RousesPolls (.new sqEntries sqpoll futures) s)
    (hb : s.ring.allocated < 2 ^ 64) : s.KeepsWakeups := by
  have hinv : s.Routed ∧ s.Awake := by
    induction h with
    | start => exact ⟨.new sqEntries sqpoll futures, .new sqEntries sqpoll futures⟩
    | @next s s' a _ hguard hstep ih =>
      obtain ⟨hrouted, hawake⟩ := ih ((allocated_le hstep).trans_lt hb)
      exact ⟨(hrouted.step hstep hb).routed, hawake.step hrouted hguard hstep hb⟩
  obtain ⟨hrouted, hawake⟩ := hinv
  intro hreaping hreapers i f hi hmultishot
  rcases hawake.slots i _ hi hmultishot with hserved | houtlook
  · right
    simpa [Served, wakesSince, toWake, hreaping, hreapers] using hserved
  · left
    have hholds : f.Holds s.ring.table := hrouted.fits i _ hi
    obtain ⟨hindex, op, hop, hisSome⟩ := hholds
    obtain ⟨op', hkey, -, hop'⟩ := hrouted.ring.get_of_index hindex
    obtain rfl : op' = op := Option.some.inj (hop'.symm.trans hop)
    obtain ⟨m, hm⟩ := Option.isSome_iff_exists.mp (hisSome.trans hmultishot)
    simp only [outlook, hop, Option.map_some, OpState.outlook, Option.some.injEq, Outlook.mk.injEq,
      OpState.drained, OpState.finished, hm, Option.all_some, Option.any_some,
      List.isEmpty_iff] at houtlook
    exact ⟨op', m, hkey, hm, houtlook.2.1, houtlook.2.2⟩

/-- A completion comes between the sections of a poll and finds the waker of that poll. -/
theorem interrupted_poll_woken :
    ∃ s, Reachable System.step RousesPolls (.new 8 false 1) s ∧
      s.slots.any (fun slot => slot.future.any fun f =>
        s.ring.table.op f.userData |>.any fun op => !op.drained) = true ∧
      s.reaping = none ∧ s.reapers = [] ∧ s.KeepsWakeups := by
  have hrun : (run (guarded System.step RousesPolls) (.new 8 false 1)
      [.client 0 (.start 0 (.acceptMultishot 3) 7), .client 0 (.submit (some 1)),
        .client 0 (.poll 7), .post 0 9 2, .reapBegin, .reapCqe, .reapEnd, .client 0 .check,
        .reaperWake 0, .client 0 .register, .reaperReturn 0]).any (fun s =>
          decide (s.ring.allocated < 2 ^ 64) && (s.slots.any fun slot => slot.future.any fun f =>
            s.ring.table.op f.userData |>.any fun op => !op.drained) &&
          s.reaping.isNone && s.reapers.isEmpty) = true := by
    decide +kernel
  obtain ⟨s, hreach, hs⟩ := exists_reachable_of_run hrun
  simp only [Bool.and_eq_true, decide_eq_true_eq, Option.isNone_iff_eq_none,
    List.isEmpty_iff] at hs
  obtain ⟨⟨⟨hb, hevents⟩, hreaping⟩, hreapers⟩ := hs
  exact ⟨s, hreach, hevents, hreaping, hreapers, wakeups_kept hreach hb⟩

/-- A stream is polled again right after it has returned an item, so that no waker is stored. A
completion that comes before the poll stores its own wakes nobody, and the poll returns
`Pending` with an event in the queue. -/
theorem interrupted_poll_lost :
    ¬ ∀ s, Reachable System.step anyStep (.new 8 false 1) s → s.ring.allocated < 2 ^ 64 →
      s.KeepsWakeups := by
  intro h
  have hrun : (run (guarded System.step anyStep) (.new 8 false 1)
      [.client 0 (.start 0 (.acceptMultishot 3) 7), .client 0 (.submit (some 1)), .post 0 9 2,
        .reapBegin, .reapCqe, .reapEnd, .reaperWake 0, .reaperReturn 0, .client 0 (.poll 7),
        .client 0 (.poll 7), .post 0 10 2, .reapBegin, .reapCqe, .reapEnd, .reaperReturn 0,
        .client 0 .check, .client 0 .register]).any (fun s =>
          decide (s.ring.allocated < 2 ^ 64) && s.reaping.isNone && s.reapers.isEmpty &&
          decide (s.slots = [.pending ⟨0, 1, true, 7, 1⟩]) && decide (s.wakes = [7]) &&
          (s.ring.ops.get 0).any (fun op => !op.drained)) = true := by
    decide +kernel
  obtain ⟨s, hreach, hs⟩ := exists_reachable_of_run hrun
  simp only [Bool.and_eq_true, decide_eq_true_eq, Option.isNone_iff_eq_none, List.isEmpty_iff,
    Option.any_eq_true, Bool.not_eq_true'] at hs
  obtain ⟨⟨⟨⟨⟨hb, hreaping⟩, hreapers⟩, hslots⟩, hwakes⟩, op, hop, hdrained⟩ := hs
  rcases h s hreach hb hreaping hreapers 0 ⟨0, 1, true, 7, 1⟩ (by simp [hslots]) rfl with
    ⟨op', m, hop', hm, hevents, -⟩ | hwoken
  · obtain rfl : op = op' := Option.some.inj (hop.symm.trans hop')
    simp [OpState.drained, hm, hevents] at hdrained
  · simp [hwakes] at hwoken

end System

end Eddy.Uring
