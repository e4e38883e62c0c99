import Eddy.RwLock
import Mathlib.Data.List.Count
import Mathlib.Data.List.Nodup

/-!
# Readers, writers and the queue

The counters of the lock are exactly its guards and the grants that nobody claimed yet. No waiter
that could have the lock is left in the queue, unless the waiter in front of it was dropped.
-/

namespace Eddy.RwLock
open Interleaving

namespace State
variable {s : State} {i : ℕ} {f : Waiting}

/-- The futures of this kind that were granted and not yet polled. -/
def unclaimed (s : State) (kind : WaitKind) : ℕ :=
  s.futures.weight fun f => if f.granted ∧ f.kind = kind then 1 else 0

structure Queued (s : State) : Prop where
  live : ∀ i ∈ s.queue, ∃ f, s.futures.get i = some f ∧ f.granted = false ∧ f.registered = true
  waits : ∀ i f, s.futures.get i = some f → f.granted = false → f.registered = true → i ∈ s.queue
  nodup : s.queue.Nodup
  waitingWriters : s.waitingWriters = s.queue.countP s.isWriter

structure Counted (s : State) (readGuards writeGuards : ℕ) : Prop where
  exclusive : s.writer = true → s.readers = 0
  readers : s.readers = readGuards + s.unclaimed .reader
  writer : writeGuards + s.unclaimed .writer = if s.writer then 1 else 0

structure Sound (s : State) (readGuards writeGuards : ℕ) : Prop where
  queued : s.Queued
  counted : s.Counted readGuards writeGuards

variable {r w : ℕ}

theorem Queued.new : State.new.Queued := by
  constructor <;> simp [State.new]

theorem Counted.new : State.new.Counted 0 0 := by
  constructor <;> simp [State.new, unclaimed]

theorem Queued.of_eq {queue : List ℕ} (h : s.Queued) (hqueue : s.queue = queue) :
    Queued { s with queue := queue } := by
  rw [← hqueue]
  exact h

theorem Queued.not_mem (h : s.Queued) (hf : s.futures.get i = some f)
    (hout : f.granted = true ∨ f.registered = false) : i ∉ s.queue := by
  intro hi
  obtain ⟨g, hg, hgranted, hregistered⟩ := h.live i hi
  obtain rfl : f = g := Option.some.inj (hf.symm.trans hg)
  rcases hout with hout | hout
  · simp [hgranted] at hout
  · simp [hregistered] at hout

theorem isWriter_of_get (hf : s.futures.get i = some f) :
    s.isWriter i = (f.kind == .writer) := by simp [isWriter, hf]

theorem isReader_of_get (hf : s.futures.get i = some f) :
    s.isReader i = (f.kind == .reader) := by simp [isReader, hf]

theorem Queued.isReader_eq (h : s.Queued) (hi : i ∈ s.queue) : s.isReader i = !s.isWriter i := by
  obtain ⟨f, hf, -⟩ := h.live i hi
  rw [isReader_of_get hf, isWriter_of_get hf]
  cases f.kind <;> rfl

theorem isWriter_modify {s' : State} {g : Waiting → Waiting} (hg : ∀ f, (g f).kind = f.kind)
    (hfutures : s'.futures = s.futures.modify i g) : s'.isWriter = s.isWriter := by
  funext j
  simp only [isWriter, hfutures, Slab.get_modify]
  split_ifs
  · cases s.futures.get j with
    | none => rfl
    | some f => simp [hg]
  · rfl

theorem unclaimed_modify (hf : s.futures.get i = some f) (g : Waiting → Waiting)
    (kind : WaitKind) :
    unclaimed { s with futures := s.futures.modify i g } kind +
        (if f.granted ∧ f.kind = kind then 1 else 0) =
      s.unclaimed kind + if (g f).granted ∧ (g f).kind = kind then 1 else 0 :=
  Slab.weight_modify (fun f : Waiting => if f.granted ∧ f.kind = kind then 1 else 0) hf g

theorem unclaimed_remove (hf : s.futures.get i = some f) (kind : WaitKind) :
    unclaimed { s with futures := s.futures.remove i } kind +
      (if f.granted ∧ f.kind = kind then 1 else 0) = s.unclaimed kind :=
  Slab.weight_remove (fun f : Waiting => if f.granted ∧ f.kind = kind then 1 else 0) hf

theorem isWriter_grant (i : ℕ) : (s.grant i).isWriter = s.isWriter := by
  apply isWriter_modify (g := fun f => { f with granted := true, waker := none }) (i := i)
  · intro f
    rfl
  · rfl

theorem unclaimed_grant (hf : s.futures.get i = some f) (hgranted : f.granted = false)
    (kind : WaitKind) :
    (s.grant i).unclaimed kind = s.unclaimed kind + if f.kind = kind then 1 else 0 := by
  have := unclaimed_modify hf (fun f => { f with granted := true, waker := none }) kind
  simp only [hgranted, Bool.false_eq_true, false_and, ↓reduceIte, Nat.add_zero, true_and] at this
  exact this

theorem Queued.grant {rest : List ℕ} (h : Queued { s with queue := i :: rest })
    (hf : s.futures.get i = some f) :
    Queued { s.grant i with
      queue := rest
      waitingWriters := if f.kind = .writer then s.waitingWriters - 1 else s.waitingWriters } := by
  obtain ⟨hi, hnodup⟩ := List.nodup_cons.mp h.nodup
  refine ⟨fun j hj => ?_, fun j g hg hgranted hregistered => ?_, hnodup, ?_⟩
  · have hne : j ≠ i := by
      rintro rfl
      exact hi hj
    obtain ⟨g, hg, hwaits⟩ := h.live j (List.mem_cons_of_mem _ hj)
    exact ⟨g, by simpa [State.grant, hne] using hg, hwaits⟩
  · by_cases hj : j = i
    · subst hj
      have hg : some { f with granted := true, waker := none } = some g := by
        simpa [State.grant, hf] using hg
      cases hg
      cases hgranted
    · have hg : s.futures.get j = some g := by simpa [State.grant, hj] using hg
      exact (List.mem_cons.mp (h.waits j g hg hgranted hregistered)).resolve_left hj
  · have hwriters : s.waitingWriters = (i :: rest).countP s.isWriter := h.waitingWriters
    have hkinds := isWriter_grant (s := s) i
    change (if f.kind = .writer then _ else _) = rest.countP (s.grant i).isWriter
    rw [hkinds, hwriters, List.countP_cons, isWriter_of_get hf]
    cases f.kind <;> simp

theorem Counted.grantReader (h : s.Counted r w) (hf : s.futures.get i = some f)
    (hgranted : f.granted = false) (hkind : f.kind = .reader) (hwriter : s.writer = false) :
    Counted { s.grant i with readers := s.readers + 1 } r w := by
  have hreader := unclaimed_grant hf hgranted .reader
  have hother := unclaimed_grant hf hgranted .writer
  simp only [hkind, ↓reduceIte, reduceCtorEq, Nat.add_zero] at hreader hother
  refine ⟨fun hw => ?_, ?_, ?_⟩
  · have : s.writer = true := hw
    simp [hwriter] at this
  · change s.readers + 1 = r + (s.grant i).unclaimed .reader
    rw [hreader, h.readers]
    omega
  · change w + (s.grant i).unclaimed .writer = if s.writer then 1 else 0
    rw [hother, h.writer]

theorem Counted.grantWriter (h : s.Counted r w) (hf : s.futures.get i = some f)
    (hgranted : f.granted = false) (hkind : f.kind = .writer) (hwriter : s.writer = false)
    (hreaders : s.readers = 0) : Counted { s.grant i with writer := true } r w := by
  have hwriters := unclaimed_grant hf hgranted .writer
  have hother := unclaimed_grant hf hgranted .reader
  simp only [hkind, ↓reduceIte, reduceCtorEq, Nat.add_zero] at hwriters hother
  refine ⟨fun _ => hreaders, ?_, ?_⟩
  · change s.readers = r + (s.grant i).unclaimed .reader
    rw [hother, h.readers]
  · have hzero := h.writer
    simp only [hwriter, Bool.false_eq_true, ↓reduceIte] at hzero
    change w + (s.grant i).unclaimed .writer = 1
    omega

/-- No waiter could have the lock now. -/
def Parked (s : State) : Prop :=
  s.queue ≠ [] → s.writer = true ∨ 0 < s.readers ∧ s.queue.head?.any s.isWriter = true

instance (s : State) : Decidable s.Parked :=
  inferInstanceAs (Decidable (s.queue ≠ [] →
    s.writer = true ∨ 0 < s.readers ∧ s.queue.head?.any s.isWriter = true))

structure Woken (s s' : State) (r w : ℕ) : Prop extends s'.Sound r w where
  readers : s.readers ≤ s'.readers
  front : s'.queue ≠ [] → s'.queue.head?.any s'.isWriter = true

theorem Counted.wakeReaders {queue : List ℕ} (h : s.Counted r w)
    (hqueued : Queued { s with queue := queue }) (hwriter : s.writer = false) :
    Woken s (s.wakeReaders queue).1 r w := by
  induction queue generalizing s with
  | nil =>
    refine ⟨⟨hqueued, ⟨h.exclusive, h.readers, h.writer⟩⟩, Nat.le_refl _, fun hne => ?_⟩
    exact absurd rfl hne
  | cons i rest ih =>
    obtain ⟨f, hf, hgranted, -⟩ := hqueued.live i (List.mem_cons_self ..)
    have hf : s.futures.get i = some f := hf
    have hgrant := hqueued.grant hf
    unfold State.wakeReaders
    split_ifs with hreader
    · have hkind : f.kind = .reader := by simpa [isReader_of_get hf] using hreader
      simp only [hkind, reduceCtorEq, ↓reduceIte] at hgrant
      have hloop := ih (h.grantReader hf hgranted hkind hwriter)
        ⟨hgrant.live, hgrant.waits, hgrant.nodup, hgrant.waitingWriters⟩ hwriter
      exact ⟨hloop.toSound, (Nat.le_succ _).trans hloop.readers, hloop.front⟩
    · refine ⟨⟨hqueued, ⟨h.exclusive, h.readers, h.writer⟩⟩, Nat.le_refl _, fun _ => ?_⟩
      have := hqueued.isReader_eq (List.mem_cons_self ..)
      have hreader : State.isReader { s with queue := i :: rest } i = false := by
        simpa [State.isReader] using hreader
      simpa [hreader] using this

/-- Nobody is left to be woken. -/
structure Settled (s : State) (r w : ℕ) : Prop extends s.Sound r w where
  parked : s.Parked

theorem Woken.settled {s' : State} (h : Woken s s' r w)
    (hreaders : s'.queue ≠ [] → 0 < s'.readers) :
    s'.Settled r w :=
  ⟨h.toSound, fun hne => .inr ⟨hreaders hne, h.front hne⟩⟩

theorem Counted.wakeReadersLocked (h : s.Counted r w) (hqueued : s.Queued)
    (hwriter : s.writer = false)
    (hfront : 0 < s.readers ∨ s.queue.head?.any s.isWriter = false) :
    s.wakeReadersLocked.1.Settled r w := by
  have hwoken : Woken s s.wakeReadersLocked.1 r w := h.wakeReaders hqueued hwriter
  refine hwoken.settled fun hne => ?_
  have hmono := hwoken.readers
  rcases hfront with hpos | hfront
  · omega
  · cases hqueue : s.queue with
    | nil =>
      rw [State.wakeReadersLocked, hqueue] at hne
      exact absurd rfl hne
    | cons i rest =>
      obtain ⟨f, hf, hgranted, -⟩ := hqueued.live i (by simp [hqueue])
      have hreader : s.isReader i = true := by
        rw [hqueued.isReader_eq (by simp [hqueue])]
        simpa [hqueue] using hfront
      have hkind : f.kind = .reader := by simpa [isReader_of_get hf] using hreader
      have hgrant := (hqueued.of_eq hqueue).grant hf
      simp only [hkind, reduceCtorEq, ↓reduceIte] at hgrant
      have hloop := (h.grantReader hf hgranted hkind hwriter).wakeReaders
        ⟨hgrant.live, hgrant.waits, hgrant.nodup, hgrant.waitingWriters⟩ hwriter
      have := hloop.readers
      rw [State.wakeReadersLocked, hqueue, State.wakeReaders, if_pos hreader]
      exact Nat.lt_of_lt_of_le (Nat.succ_pos _) this

theorem Counted.wakeNextLocked (h : s.Counted r w) (hqueued : s.Queued) :
    s.wakeNextLocked.1.Settled r w := by
  unfold State.wakeNextLocked
  split_ifs with hwriter hreaders hfront
  · exact ⟨⟨hqueued, h⟩, fun _ => .inl hwriter⟩
  · exact ⟨⟨hqueued, h⟩, fun _ => .inr ⟨Nat.pos_of_ne_zero hreaders, hfront⟩⟩
  · exact h.wakeReadersLocked hqueued (by simpa using hwriter) (.inl (Nat.pos_of_ne_zero hreaders))
  · have hwriter : s.writer = false := by simpa using hwriter
    have hreaders : s.readers = 0 := by omega
    split
    · rename_i i rest hqueue
      split_ifs with hfront
      · obtain ⟨f, hf, hgranted, -⟩ := hqueued.live i (by simp [hqueue])
        have hkind : f.kind = .writer := by simpa [isWriter_of_get hf] using hfront
        have hgrant := (hqueued.of_eq hqueue).grant hf
        simp only [hkind, ↓reduceIte] at hgrant
        have hcounted := h.grantWriter hf hgranted hkind hwriter hreaders
        refine ⟨⟨?_, ⟨hcounted.exclusive, hcounted.readers, hcounted.writer⟩⟩, fun _ => .inl rfl⟩
        exact ⟨hgrant.live, hgrant.waits, hgrant.nodup, hgrant.waitingWriters⟩
      · exact h.wakeReadersLocked hqueued hwriter (.inr (by simpa [hqueue] using hfront))
    · rename_i hqueue
      exact h.wakeReadersLocked hqueued hwriter (.inr (by simp [hqueue]))

theorem Queued.insert (h : s.Queued) (hi : s.futures.Vacant i) (kind : WaitKind) :
    Queued { s with futures := s.futures.insert i (.new kind) } := by
  have hne : ∀ j ∈ s.queue, j ≠ i := by
    rintro j hj rfl
    obtain ⟨f, hf, -⟩ := h.live j hj
    have := hi.2
    simp [hf] at this
  refine ⟨fun j hj => ?_, fun j f hf hgranted hregistered => ?_, h.nodup, ?_⟩
  · obtain ⟨f, hf, hwaits⟩ := h.live j hj
    exact ⟨f, by simp [Slab.get_insert hi, hne j hj, hf], hwaits⟩
  · simp only [Slab.get_insert hi] at hf
    split_ifs at hf with hj
    · cases hf
      cases hregistered
    · exact h.waits j f hf hgranted hregistered
  · rw [h.waitingWriters]
    apply List.countP_congr
    intro j hj
    simp [isWriter, Slab.get_insert hi, hne j hj]

theorem Counted.insert (h : s.Counted r w) (hi : s.futures.Vacant i) (kind : WaitKind) :
    Counted { s with futures := s.futures.insert i (.new kind) } r w := by
  have hsame : ∀ k, unclaimed { s with futures := s.futures.insert i (.new kind) } k =
      s.unclaimed k := by
    intro k
    rw [unclaimed, Slab.weight_insert _ hi]
    rfl
  refine ⟨h.exclusive, ?_, ?_⟩
  · rw [hsame]
    exact h.readers
  · rw [hsame]
    exact h.writer

theorem Queued.remove (h : s.Queued) (hi : i ∉ s.queue) :
    Queued { s with futures := s.futures.remove i } := by
  have hne : ∀ j ∈ s.queue, j ≠ i := by
    rintro j hj rfl
    exact hi hj
  refine ⟨fun j hj => ?_, fun j f hf hgranted hregistered => ?_, h.nodup, ?_⟩
  · obtain ⟨f, hf, hwaits⟩ := h.live j hj
    exact ⟨f, by simp [hne j hj, hf], hwaits⟩
  · simp only [Slab.get_remove] at hf
    split_ifs at hf with hj
    exact h.waits j f hf hgranted hregistered
  · rw [h.waitingWriters]
    apply List.countP_congr
    intro j hj
    simp [isWriter, hne j hj]

theorem Queued.unlink (h : s.Queued) (hf : s.futures.get i = some f) (hi : i ∈ s.queue) :
    Queued { s with
      futures := s.futures.remove i
      queue := s.queue.filter (· ≠ i)
      waitingWriters := if f.kind = .writer then s.waitingWriters - 1 else s.waitingWriters } := by
  refine ⟨fun j hj => ?_, fun j g hg hgranted hregistered => ?_, h.nodup.filter _, ?_⟩
  · obtain ⟨hj, hne⟩ := List.mem_filter.mp hj
    obtain ⟨g, hg, hwaits⟩ := h.live j hj
    have hne : j ≠ i := by simpa using hne
    exact ⟨g, by simp [hne, hg], hwaits⟩
  · simp only [Slab.get_remove] at hg
    split_ifs at hg with hj
    exact List.mem_filter.mpr ⟨h.waits j g hg hgranted hregistered, by simpa using hj⟩
  · have herase : s.queue.filter (· ≠ i) = s.queue.erase i := by
      rw [h.nodup.erase_eq_filter i]
      apply List.filter_congr
      intro j _
      by_cases hj : j = i <;> simp [hj]
    have hkinds : (s.queue.erase i).countP
        (isWriter { s with futures := s.futures.remove i }) =
        (s.queue.erase i).countP s.isWriter := by
      apply List.countP_congr
      intro j hj
      have hne : j ≠ i := by
        rintro rfl
        exact h.nodup.not_mem_erase hj
      simp [isWriter, hne]
    rw [herase]
    refine Eq.trans ?_ hkinds.symm
    rw [List.countP_erase, ← h.waitingWriters, isWriter_of_get hf]
    cases f.kind <;> simp [hi]

theorem Counted.remove (h : s.Counted r w) (hf : s.futures.get i = some f)
    (hgranted : f.granted = false) : Counted { s with futures := s.futures.remove i } r w := by
  have hsame : ∀ k, unclaimed { s with futures := s.futures.remove i } k = s.unclaimed k := by
    intro k
    simpa [hgranted] using unclaimed_remove hf k
  refine ⟨h.exclusive, ?_, ?_⟩
  · rw [hsame]
    exact h.readers
  · rw [hsame]
    exact h.writer

/-- What a poll can do with a future. -/
inductive Polled (s : State) (i : ℕ) (f : Waiting) (waker : ℕ) : Bool × State → Prop where
  | claim : f.granted = true → Polled s i f waker (true, { s with
      futures := s.futures.modify i fun f => { f with granted := false, registered := false } })
  | read : f.granted = false → f.kind = .reader → s.writer = false → s.queue = [] →
      Polled s i f waker (true, { s with readers := s.readers + 1 })
  | write : f.granted = false → f.kind = .writer → s.writer = false → s.readers = 0 →
      s.queue = [] → Polled s i f waker (true, { s with writer := true })
  | wait : f.granted = false →
      (f.registered = false → s.queue = [] → s.writer = true ∨
        f.kind = .reader ∧ s.waitingWriters ≠ 0 ∨ f.kind = .writer ∧ s.readers ≠ 0) →
      Polled s i f waker (false, s.wait i f waker)

theorem polled (s : State) (i : ℕ) (f : Waiting) (waker : ℕ) :
    Polled s i f waker (s.poll i f waker) := by
  unfold State.poll
  cases hgranted : f.granted with
  | true => exact .claim hgranted
  | false =>
    rw [if_neg Bool.false_ne_true]
    cases hkind : f.kind with
    | reader =>
      dsimp only
      split_ifs with hfree
      · simp only [Bool.not_eq_eq_eq_not, Bool.not_true] at hfree
        exact .read hgranted hkind hfree.2.1 hfree.2.2.2
      · refine .wait hgranted fun hregistered hqueue => ?_
        cases hwriter : s.writer with
        | true => exact .inl rfl
        | false => exact .inr (.inl ⟨hkind, by simpa [hregistered, hwriter, hqueue] using hfree⟩)
    | writer =>
      dsimp only
      split_ifs with hfree
      · simp only [Bool.not_eq_eq_eq_not, Bool.not_true] at hfree
        exact .write hgranted hkind hfree.2.1 hfree.2.2.1 hfree.2.2.2
      · refine .wait hgranted fun hregistered hqueue => ?_
        cases hwriter : s.writer with
        | true => exact .inl rfl
        | false => exact .inr (.inr ⟨hkind, by simpa [hregistered, hwriter, hqueue] using hfree⟩)

theorem isWriter_claim (i : ℕ) :
    isWriter { s with
      futures := s.futures.modify i fun f => { f with granted := false, registered := false } } =
      s.isWriter := by
  apply isWriter_modify (g := fun f => { f with granted := false, registered := false }) (i := i)
  · intro f
    rfl
  · rfl

theorem Queued.claim (h : s.Queued) (hf : s.futures.get i = some f) (hgranted : f.granted = true) :
    Queued { s with
      futures := s.futures.modify i fun f => { f with granted := false, registered := false } } := by
  have hi := h.not_mem hf (.inl hgranted)
  refine ⟨fun j hj => ?_, fun j g hg hgranted hregistered => ?_, h.nodup, ?_⟩
  · have hne : j ≠ i := by
      rintro rfl
      exact hi hj
    obtain ⟨g, hg, hwaits⟩ := h.live j hj
    exact ⟨g, by simp [hne, hg], hwaits⟩
  · by_cases hj : j = i
    · subst hj
      have hg : some { f with granted := false, registered := false } = some g := by
        simpa [hf] using hg
      cases hg
      cases hregistered
    · exact h.waits j g (by simpa [hj] using hg) hgranted hregistered
  · have hkinds := isWriter_claim (s := s) i
    rw [h.waitingWriters]
    exact congrArg (List.countP · s.queue) hkinds.symm

theorem Queued.wait (h : s.Queued) (hf : s.futures.get i = some f) (hgranted : f.granted = false)
    (waker : ℕ) : (s.wait i f waker).Queued := by
  have hkinds : (s.wait i f waker).isWriter = s.isWriter := isWriter_modify
    (g := fun f => { f with waker := some waker, registered := true }) (fun _ => rfl) rfl
  have hfuture : (s.wait i f waker).futures.get i =
      some { f with waker := some waker, registered := true } := by
    simp [State.wait, hf]
  have hother : ∀ j, j ≠ i → (s.wait i f waker).futures.get j = s.futures.get j := by
    intro j hj
    simp [State.wait, hj]
  have hmem : ∀ j, j ∈ (s.wait i f waker).queue ↔ j ∈ s.queue ∨ j = i := by
    intro j
    simp only [State.wait]
    split_ifs with hregistered
    · have := h.waits i f hf hgranted hregistered
      constructor
      · exact .inl
      · rintro (hj | rfl) <;> assumption
    · simp
  refine ⟨fun j hj => ?_, fun j g hg hwaits hregistered => ?_, ?_, ?_⟩
  · by_cases hne : j = i
    · subst hne
      exact ⟨_, hfuture, hgranted, rfl⟩
    · rw [hother j hne]
      exact h.live j (((hmem j).mp hj).resolve_right hne)
  · rw [hmem]
    by_cases hne : j = i
    · exact .inr hne
    · rw [hother j hne] at hg
      exact .inl (h.waits j g hg hwaits hregistered)
  · simp only [State.wait]
    split_ifs with hregistered
    · exact h.nodup
    · have hi := h.not_mem hf (.inr (by simpa using hregistered))
      rw [← List.concat_eq_append]
      exact List.Nodup.concat hi h.nodup
  · rw [hkinds]
    simp only [State.wait]
    cases hregistered : f.registered with
    | true => simpa using h.waitingWriters
    | false =>
      simp only [Bool.false_eq_true, ↓reduceIte, List.countP_append, List.countP_singleton,
        isWriter_of_get hf, ← h.waitingWriters]
      cases f.kind <;> simp

def handed (ready : Bool) (f : Waiting) (kind : WaitKind) : ℕ :=
  if ready ∧ f.kind = kind then 1 else 0

theorem Sound.poll (h : s.Sound r w) (hf : s.futures.get i = some f) (waker : ℕ) :
    (s.poll i f waker).2.Sound (r + handed (s.poll i f waker).1 f .reader)
      (w + handed (s.poll i f waker).1 f .writer) := by
  obtain ⟨hqueued, hcounted⟩ := h
  have hreaders := hcounted.readers
  have hwriters := hcounted.writer
  have hpoll := polled s i f waker
  generalize s.poll i f waker = result at hpoll
  cases hpoll with
  | claim hgranted =>
    refine ⟨hqueued.claim hf hgranted, hcounted.exclusive, ?_, ?_⟩
    · have := unclaimed_modify hf (fun f => { f with granted := false, registered := false })
        .reader
      simp only [hgranted, handed, Bool.false_eq_true, false_and, true_and, ↓reduceIte] at this ⊢
      omega
    · have := unclaimed_modify hf (fun f => { f with granted := false, registered := false })
        .writer
      simp only [hgranted, handed, Bool.false_eq_true, false_and, true_and, ↓reduceIte] at this ⊢
      omega
  | read hgranted hkind hwriter hqueue =>
    refine ⟨⟨hqueued.live, hqueued.waits, hqueued.nodup, hqueued.waitingWriters⟩, ?_, ?_, ?_⟩
    · intro hw
      have : s.writer = true := hw
      simp [hwriter] at this
    · change s.readers + 1 = _ + s.unclaimed .reader
      simp only [handed, hkind, and_self, ↓reduceIte]
      omega
    · change _ + s.unclaimed .writer = if s.writer then 1 else 0
      simpa [handed, hkind] using hwriters
  | write hgranted hkind hwriter hzero hqueue =>
    refine ⟨⟨hqueued.live, hqueued.waits, hqueued.nodup, hqueued.waitingWriters⟩, ?_, ?_, ?_⟩
    · exact fun _ => hzero
    · change s.readers = _ + s.unclaimed .reader
      simpa [handed, hkind] using hreaders
    · change _ + s.unclaimed .writer = 1
      simp only [hwriter, Bool.false_eq_true, ↓reduceIte] at hwriters
      simp only [handed, hkind, and_self, ↓reduceIte]
      omega
  | wait hgranted hblocked =>
    have hsame : ∀ kind, (s.wait i f waker).unclaimed kind = s.unclaimed kind := by
      intro kind
      have := unclaimed_modify hf (fun f => { f with waker := some waker, registered := true }) kind
      simp only [hgranted, Bool.false_eq_true, false_and, ↓reduceIte, Nat.add_zero] at this
      exact this
    refine ⟨hqueued.wait hf hgranted waker, hcounted.exclusive, ?_, ?_⟩
    · rw [hsame]
      simpa [handed, State.wait] using hreaders
    · rw [hsame]
      simpa [handed, State.wait] using hwriters

theorem Parked.of_nil (h : s.queue = []) : s.Parked := fun hne => absurd h hne

theorem Parked.poll (h : s.Parked) (hqueued : s.Queued) (hf : s.futures.get i = some f)
    (waker : ℕ) : (s.poll i f waker).2.Parked := by
  have hpoll := polled s i f waker
  generalize s.poll i f waker = result at hpoll
  cases hpoll with
  | claim =>
    have hkinds := isWriter_claim (s := s) i
    intro hne
    simpa only [hkinds] using h hne
  | read _ _ _ hqueue | write _ _ _ _ hqueue => exact .of_nil hqueue
  | wait _ hblocked =>
    have hkinds : (s.wait i f waker).isWriter = s.isWriter := isWriter_modify
      (g := fun f => { f with waker := some waker, registered := true }) (fun _ => rfl) rfl
    intro hne
    rw [hkinds]
    cases hqueue : s.queue with
    | cons j rest =>
      have hparked := h (by simp [hqueue])
      have hhead : (s.wait i f waker).queue.head? = s.queue.head? := by
        simp only [State.wait]
        split_ifs <;> simp [hqueue]
      rw [hhead]
      exact hparked
    | nil =>
      cases hregistered : f.registered with
      | true => simp [State.wait, hregistered, hqueue] at hne
      | false =>
        rcases hblocked hregistered hqueue with hwriter | ⟨-, hwaiting⟩ | ⟨hkind, hreaders⟩
        · exact .inl hwriter
        · have := hqueued.waitingWriters
          simp [hqueue] at this
          exact absurd this hwaiting
        · refine .inr ⟨Nat.pos_of_ne_zero hreaders, ?_⟩
          simp [State.wait, hregistered, hqueue, isWriter_of_get hf, hkind]

theorem Sound.dropReadGuard (h : s.Sound (r + 1) w) : s.dropReadGuard.1.Settled r w := by
  obtain ⟨hqueued, hcounted⟩ := h
  refine Counted.wakeNextLocked ⟨fun hw => ?_, ?_, hcounted.writer⟩
    ⟨hqueued.live, hqueued.waits, hqueued.nodup, hqueued.waitingWriters⟩
  · have := hcounted.exclusive hw
    simp [this]
  · have := hcounted.readers
    change s.readers - 1 = r + s.unclaimed .reader
    omega

theorem Counted.of_writer (h : s.Counted r (w + 1)) :
    s.readers = 0 ∧ w = 0 ∧ s.unclaimed .writer = 0 := by
  have hwriter := h.writer
  cases hw : s.writer with
  | true =>
    rw [hw, if_pos rfl] at hwriter
    exact ⟨h.exclusive hw, by omega, by omega⟩
  | false =>
    rw [hw, if_neg Bool.false_ne_true] at hwriter
    omega

theorem Sound.dropWriteGuard (h : s.Sound r (w + 1)) : s.dropWriteGuard.1.Settled r w := by
  obtain ⟨hqueued, hcounted⟩ := h
  obtain ⟨hreaders, rfl, hunclaimed⟩ := hcounted.of_writer
  refine Counted.wakeNextLocked ⟨nofun, hcounted.readers, ?_⟩
    ⟨hqueued.live, hqueued.waits, hqueued.nodup, hqueued.waitingWriters⟩
  change 0 + s.unclaimed .writer = 0
  omega

theorem Sound.downgrade (h : s.Sound r (w + 1)) : s.downgrade.1.Settled (r + 1) w := by
  obtain ⟨hqueued, hcounted⟩ := h
  obtain ⟨hzero, rfl, hunclaimed⟩ := hcounted.of_writer
  have hreaders := hcounted.readers
  refine Counted.wakeNextLocked ⟨nofun, ?_, ?_⟩
    ⟨hqueued.live, hqueued.waits, hqueued.nodup, hqueued.waitingWriters⟩
  · change 1 = r + 1 + s.unclaimed .reader
    omega
  · change 0 + s.unclaimed .writer = 0
    omega

/-- Dropping a granted future gives up the guard that it would have returned. -/
theorem Sound.removeGranted (h : s.Sound r w) (hf : s.futures.get i = some f)
    (hgranted : f.granted = true) :
    Sound { s with futures := s.futures.remove i } (r + handed true f .reader)
      (w + handed true f .writer) := by
  obtain ⟨hqueued, hcounted⟩ := h
  have hsame : ∀ kind, unclaimed { s with futures := s.futures.remove i } kind +
      handed true f kind = s.unclaimed kind := by
    intro kind
    have := unclaimed_remove hf kind
    simpa [hgranted, handed] using this
  refine ⟨hqueued.remove (hqueued.not_mem hf (.inl hgranted)), hcounted.exclusive, ?_, ?_⟩
  · have hreader := hsame .reader
    have := hcounted.readers
    dsimp only
    omega
  · have hwriter := hsame .writer
    have := hcounted.writer
    dsimp only
    omega

theorem Sound.dropGranted (h : s.Sound r w) (hf : s.futures.get i = some f)
    (hgranted : f.granted = true) : (s.dropFuture i f).1.Settled r w := by
  have hremove := h.removeGranted hf hgranted
  unfold State.dropFuture
  rw [if_pos hgranted]
  cases hkind : f.kind with
  | reader =>
    simp only [handed, hkind, and_self, ↓reduceIte, reduceCtorEq, and_false] at hremove
    exact hremove.dropReadGuard
  | writer =>
    simp only [handed, hkind, and_self, ↓reduceIte, reduceCtorEq, and_false] at hremove
    exact hremove.dropWriteGuard

theorem Sound.dropFuture (h : s.Sound r w) (hf : s.futures.get i = some f) :
    (s.dropFuture i f).1.Sound r w := by
  cases hgranted : f.granted with
  | true => exact (h.dropGranted hf hgranted).toSound
  | false =>
    have hcounted := h.counted.remove hf hgranted
    unfold State.dropFuture
    rw [if_neg (by simp [hgranted])]
    split_ifs with hregistered hwriter
    · have hqueued := h.queued.unlink hf (h.queued.waits i f hf hgranted hregistered)
      rw [if_pos hwriter] at hqueued
      exact ⟨hqueued, hcounted.exclusive, hcounted.readers, hcounted.writer⟩
    · have hqueued := h.queued.unlink hf (h.queued.waits i f hf hgranted hregistered)
      rw [if_neg hwriter] at hqueued
      exact ⟨hqueued, hcounted.exclusive, hcounted.readers, hcounted.writer⟩
    · exact ⟨h.queued.remove (h.queued.not_mem hf (.inr (by simpa using hregistered))), hcounted⟩

/-- The first waiter of the queue is dropped only if the lock is written to or the next waiter
is a writer. -/
def DropsParked (s : State) (i : ℕ) : Prop :=
  s.queue.head? = some i → s.writer = false → ∀ j ∈ s.queue.tail.head?, s.isWriter j = true

theorem Parked.dropFuture (h : s.Parked) (hsound : s.Sound r w) (hf : s.futures.get i = some f)
    (hguard : s.DropsParked i) : (s.dropFuture i f).1.Parked := by
  cases hgranted : f.granted with
  | true => exact (hsound.dropGranted hf hgranted).parked
  | false =>
    have hother : ∀ j ≠ i, isWriter { s with futures := s.futures.remove i } j = s.isWriter j := by
      intro j hj
      simp [isWriter, hj]
    unfold State.dropFuture
    rw [if_neg (by simp [hgranted])]
    cases hregistered : f.registered with
    | false =>
      rw [if_neg Bool.false_ne_true]
      intro hne
      refine (h hne).imp_right fun ⟨hreaders, hfront⟩ => ⟨hreaders, ?_⟩
      obtain ⟨j, hj, hwriter⟩ := (Option.any_eq_true ..).mp hfront
      have hji : j ≠ i := by
        rintro rfl
        exact hsound.queued.not_mem hf (.inr hregistered) (List.mem_of_mem_head? hj)
      refine (Option.any_eq_true ..).mpr ⟨j, hj, ?_⟩
      rw [hother j hji]
      exact hwriter
    | true =>
      rw [if_pos rfl]
      intro hne
      cases hwriter : s.writer with
      | true => exact .inl rfl
      | false =>
        have hnodup := hsound.queued.nodup
        cases hqueue : s.queue with
        | nil => simp [hqueue] at hne
        | cons k rest =>
          rw [hqueue, List.nodup_cons] at hnodup
          obtain ⟨hreaders, hfront⟩ := (h (by simp [hqueue])).resolve_left (by simp [hwriter])
          refine .inr ⟨hreaders, ?_⟩
          by_cases hk : k = i
          · subst hk
            have hrest : (k :: rest).filter (· ≠ k) = rest := by
              rw [List.filter_cons_of_neg (by simp)]
              apply List.filter_eq_self.mpr
              intro j hj
              simpa using fun heq : j = k => hnodup.1 (heq ▸ hj)
            simp only [hqueue, hrest] at hne ⊢
            obtain ⟨j, hj⟩ := Option.ne_none_iff_exists'.mp (mt List.head?_eq_none_iff.mp hne)
            have hjk : j ≠ k := by
              rintro rfl
              exact hnodup.1 (List.mem_of_mem_head? hj)
            rw [hj, Option.any_some]
            exact (hother j hjk).trans (hguard (by simp [hqueue]) hwriter j
              (by simpa [hqueue] using hj))
          · have hrest : (k :: rest).filter (· ≠ i) = k :: rest.filter (· ≠ i) :=
              List.filter_cons_of_pos (by simpa using hk)
            simp only [hqueue, hrest, List.head?_cons, Option.any_some] at hfront ⊢
            exact (hother k hk).trans hfront

theorem Sound.lock (h : s.Sound r w) (hi : s.futures.Vacant i) (kind : WaitKind) :
    Sound { s with futures := s.futures.insert i (.new kind) } r w :=
  ⟨h.queued.insert hi kind, h.counted.insert hi kind⟩

theorem Parked.lock (h : s.Parked) (hqueued : s.Queued) (hi : s.futures.Vacant i)
    (kind : WaitKind) : Parked { s with futures := s.futures.insert i (.new kind) } := by
  intro hne
  refine (h hne).imp_right fun ⟨hreaders, hfront⟩ => ⟨hreaders, ?_⟩
  obtain ⟨j, hj, hwriter⟩ := (Option.any_eq_true ..).mp hfront
  obtain ⟨f, hf, -⟩ := hqueued.live j (List.mem_of_mem_head? hj)
  have hji : j ≠ i := by
    rintro rfl
    have := hi.2
    simp [hf] at this
  rw [hj]
  simpa [isWriter, Slab.get_insert hi, hji] using hwriter

theorem Sound.tryRead {s' : State} (h : s.Sound r w) (hread : s.tryRead = some s') :
    s'.Sound (r + 1) w ∧ s'.queue = [] := by
  unfold State.tryRead at hread
  split_ifs at hread with hbusy
  simp only [not_or, Decidable.not_not, Bool.not_eq_true] at hbusy
  cases hread
  obtain ⟨hqueued, hcounted⟩ := h
  refine ⟨⟨⟨hqueued.live, hqueued.waits, hqueued.nodup, hqueued.waitingWriters⟩, fun hw => ?_, ?_,
    hcounted.writer⟩, hbusy.2.2⟩
  · have : s.writer = true := hw
    simp [hbusy.1] at this
  · have := hcounted.readers
    change s.readers + 1 = r + 1 + s.unclaimed .reader
    omega

theorem Sound.tryWrite {s' : State} (h : s.Sound r w) (hwrite : s.tryWrite = some s') :
    s'.Sound r (w + 1) ∧ s'.queue = [] := by
  unfold State.tryWrite at hwrite
  split_ifs at hwrite with hbusy
  simp only [not_or, Decidable.not_not, Bool.not_eq_true] at hbusy
  cases hwrite
  obtain ⟨hqueued, hcounted⟩ := h
  refine ⟨⟨⟨hqueued.live, hqueued.waits, hqueued.nodup, hqueued.waitingWriters⟩,
    fun _ => hbusy.2.1, hcounted.readers, ?_⟩, hbusy.2.2⟩
  have := hcounted.writer
  rw [hbusy.1, if_neg Bool.false_ne_true] at this
  change w + 1 + s.unclaimed .writer = 1
  omega

end State

namespace System
variable {s s' : System}

def Sound (s : System) : Prop := s.state.Sound s.readGuards s.writeGuards

inductive Steps (s : System) : Label → System → Prop where
  | lock {i : ℕ} {kind : WaitKind} : s.state.futures.Vacant i → Steps s (.lock i kind) { s with
      state := { s.state with futures := s.state.futures.insert i (.new kind) } }
  | poll {i waker : ℕ} {f : Waiting} : s.state.futures.get i = some f →
      Steps s (.poll i true waker) { s with
        state := (s.state.poll i f waker).2
        readGuards := s.readGuards + State.handed (s.state.poll i f waker).1 f .reader
        writeGuards := s.writeGuards + State.handed (s.state.poll i f waker).1 f .writer }
  | yield {i waker : ℕ} : Steps s (.poll i false waker) { s with wakes := s.wakes ++ [waker] }
  | dropFuture {i : ℕ} {f : Waiting} : s.state.futures.get i = some f →
      Steps s (.dropFuture i) { s with
        state := (s.state.dropFuture i f).1
        wakes := s.wakes ++ (s.state.dropFuture i f).2 }
  | refusedRead : Steps s .tryRead s
  | refusedWrite : Steps s .tryWrite s
  | tryRead {state : State} : s.state.tryRead = some state →
      Steps s .tryRead { s with state := state, readGuards := s.readGuards + 1 }
  | tryWrite {state : State} : s.state.tryWrite = some state →
      Steps s .tryWrite { s with state := state, writeGuards := s.writeGuards + 1 }
  | dropReadGuard {r : ℕ} : s.readGuards = r + 1 → Steps s .dropReadGuard { s with
      state := s.state.dropReadGuard.1
      readGuards := r
      wakes := s.wakes ++ s.state.dropReadGuard.2 }
  | dropWriteGuard {w : ℕ} : s.writeGuards = w + 1 → Steps s .dropWriteGuard { s with
      state := s.state.dropWriteGuard.1
      writeGuards := w
      wakes := s.wakes ++ s.state.dropWriteGuard.2 }
  | downgrade {w : ℕ} : s.writeGuards = w + 1 → Steps s .downgrade { s with
      state := s.state.downgrade.1
      readGuards := s.readGuards + 1
      writeGuards := w
      wakes := s.wakes ++ s.state.downgrade.2 }

theorem Steps.of_eq {a : Label} (hstep : s.step a = some s') : Steps s a s' := by
  cases a with
  | lock i kind =>
    simp only [System.step] at hstep
    split_ifs at hstep with hvacant
    cases hstep
    exact .lock hvacant
  | poll i proceed waker =>
    obtain ⟨f, hf, rfl⟩ := Option.map_eq_some_iff.mp hstep
    cases proceed with
    | false => exact .yield
    | true =>
      have := @Steps.poll s i waker f hf
      cases hready : (s.state.poll i f waker).1 <;> cases hkind : f.kind <;>
        simpa [hready, hkind, State.handed, System.withGuard] using this
  | dropFuture i =>
    obtain ⟨f, hf, rfl⟩ := Option.map_eq_some_iff.mp hstep
    exact .dropFuture hf
  | tryRead =>
    simp only [System.step] at hstep
    cases hread : s.state.tryRead with
    | none =>
      rw [hread] at hstep
      cases hstep
      exact .refusedRead
    | some state =>
      rw [hread] at hstep
      cases hstep
      exact .tryRead hread
  | tryWrite =>
    simp only [System.step] at hstep
    cases hwrite : s.state.tryWrite with
    | none =>
      rw [hwrite] at hstep
      cases hstep
      exact .refusedWrite
    | some state =>
      rw [hwrite] at hstep
      cases hstep
      exact .tryWrite hwrite
  | dropReadGuard =>
    simp only [System.step] at hstep
    split_ifs at hstep with hpos
    cases hstep
    exact .dropReadGuard (by omega)
  | dropWriteGuard =>
    simp only [System.step] at hstep
    split_ifs at hstep with hpos
    cases hstep
    exact .dropWriteGuard (by omega)
  | downgrade =>
    simp only [System.step] at hstep
    split_ifs at hstep with hpos
    cases hstep
    exact .downgrade (by omega)

theorem Sound.new : System.new.Sound := ⟨.new, .new⟩

theorem Sound.step {a : Label} (h : s.Sound) (hstep : s.step a = some s') : s'.Sound := by
  unfold Sound at h
  cases Steps.of_eq hstep with
  | lock hvacant => exact h.lock hvacant _
  | poll hf => exact h.poll hf _
  | dropFuture hf => exact h.dropFuture hf
  | tryRead hread => exact (h.tryRead hread).1
  | tryWrite hwrite => exact (h.tryWrite hwrite).1
  | dropReadGuard hr =>
    rw [hr] at h
    exact h.dropReadGuard.toSound
  | dropWriteGuard hw =>
    rw [hw] at h
    exact h.dropWriteGuard.toSound
  | downgrade hw =>
    rw [hw] at h
    exact h.downgrade.toSound
  | yield | refusedRead | refusedWrite => exact h

/-- The counters are exactly the guards and the unclaimed grants, and a writer is alone. -/
structure Exclusive (s : System) : Prop where
  exclusive : s.state.writer = true → s.state.readers = 0
  readers : s.state.readers = s.readGuards + s.state.unclaimed .reader
  writer : s.state.writer = true ↔
    s.writeGuards = 1 ∧ s.state.unclaimed .writer = 0 ∨
      s.writeGuards = 0 ∧ s.state.unclaimed .writer = 1
  /-- No writer is left over when the lock is not written to. -/
  noWriter : s.state.writer = false → s.writeGuards = 0 ∧ s.state.unclaimed .writer = 0
  waitingWriters : s.state.waitingWriters = s.state.queue.countP s.state.isWriter

theorem exclusive_of_reachable (h : Reachable System.step anyStep .new s) : s.Exclusive := by
  have hsound : s.Sound := by
    apply h.invariant (I := System.Sound) .new
    intro s a s' hsound _ hstep
    exact hsound.step hstep
  obtain ⟨hqueued, hcounted⟩ := hsound
  have hwriter := hcounted.writer
  refine ⟨hcounted.exclusive, hcounted.readers, ?_, fun hfalse => ?_, hqueued.waitingWriters⟩
  · cases hw : s.state.writer with
    | true =>
      rw [hw, if_pos rfl] at hwriter
      simp only [true_iff]
      omega
    | false =>
      rw [hw, if_neg Bool.false_ne_true] at hwriter
      simp only [Bool.false_eq_true, false_iff]
      omega
  · rw [hfalse, if_neg Bool.false_ne_true] at hwriter
    omega

/-- A writer is downgraded, a reader behind it joins it, and a writer behind both waits. -/
theorem downgraded_exclusive :
    ∃ s, Reachable System.step anyStep .new s ∧ s.state.readers = 2 ∧ s.state.waitingWriters = 1 ∧
      s.Exclusive := by
  have hrun : (run (guarded System.step anyStep) .new
      [.lock 0 .writer, .poll 0 true 5, .lock 1 .reader, .poll 1 true 6, .lock 2 .writer,
        .poll 2 true 7, .downgrade]).any (fun s => decide (s.state.readers = 2) &&
          decide (s.state.waitingWriters = 1)) = true := by
    decide +kernel
  obtain ⟨s, hreach, hs⟩ := exists_reachable_of_run hrun
  simp only [Bool.and_eq_true, decide_eq_true_eq] at hs
  exact ⟨s, hreach, hs.1, hs.2, exclusive_of_reachable hreach⟩

def DropsParked (s : System) : Label → Prop
  | .dropFuture i => s.state.DropsParked i
  | _ => True

instance (s : System) : (a : Label) → Decidable (s.DropsParked a)
  | .dropFuture i => inferInstanceAs (Decidable (s.state.queue.head? = some i →
      s.state.writer = false → ∀ j ∈ s.state.queue.tail.head?, s.state.isWriter j = true))
  | .lock .. | .poll .. | .tryRead | .tryWrite | .dropReadGuard | .dropWriteGuard
  | .downgrade => .isTrue trivial

theorem parked_step {a : Label} (h : s.state.Parked) (hsound : s.Sound) (hguard : s.DropsParked a)
    (hstep : s.step a = some s') : s'.state.Parked := by
  unfold Sound at hsound
  cases Steps.of_eq hstep with
  | lock hvacant => exact h.lock hsound.queued hvacant _
  | poll hf => exact h.poll hsound.queued hf _
  | dropFuture hf => exact h.dropFuture hsound hf hguard
  | tryRead hread => exact .of_nil (hsound.tryRead hread).2
  | tryWrite hwrite => exact .of_nil (hsound.tryWrite hwrite).2
  | dropReadGuard hr =>
    rw [hr] at hsound
    exact hsound.dropReadGuard.parked
  | dropWriteGuard hw =>
    rw [hw] at hsound
    exact hsound.dropWriteGuard.parked
  | downgrade hw =>
    rw [hw] at hsound
    exact hsound.downgrade.parked
  | yield | refusedRead | refusedWrite => exact h

theorem parked_of_reachable (h : Reachable System.step DropsParked .new s) : s.state.Parked := by
  have hinv : s.Sound ∧ s.state.Parked := by
    apply h.invariant (I := fun s => s.Sound ∧ s.state.Parked)
    · exact ⟨.new, .of_nil rfl⟩
    · intro s a s' hinv hguard hstep
      exact ⟨hinv.1.step hstep, parked_step hinv.2 hinv.1 hguard hstep⟩
  exact hinv.2

/-- The first of two queued writers is dropped under a reader. -/
theorem dropped_writer_parked :
    ∃ s, Reachable System.step DropsParked .new s ∧ s.state.queue = [1] ∧ s.state.Parked := by
  have hrun : (run (guarded System.step DropsParked) .new
      [.tryRead, .lock 0 .writer, .poll 0 true 6, .lock 1 .writer, .poll 1 true 7,
        .dropFuture 0]).any (fun s => decide (s.state.queue = [1])) = true := by
    decide +kernel
  obtain ⟨s, hreach, hs⟩ := exists_reachable_of_run hrun
  exact ⟨s, hreach, by simpa using hs, parked_of_reachable hreach⟩

/-- A reader behind a dropped writer is left in the queue: `Write::drop` takes a queued waiter
out without waking the next ones. -/
theorem dropped_writer_strands_reader :
    ¬ ∀ s, Reachable System.step anyStep .new s → s.state.Parked := by
  intro h
  have hrun : (run (guarded System.step anyStep) .new
      [.tryRead, .lock 0 .writer, .poll 0 true 6, .lock 1 .reader, .poll 1 true 7,
        .dropFuture 0]).any (fun s => decide (¬ s.state.Parked)) = true := by
    decide +kernel
  obtain ⟨s, hreach, hs⟩ := exists_reachable_of_run hrun
  have hnot : ¬ s.state.Parked := by simpa using hs
  exact hnot (h s hreach)

end System

end Eddy.RwLock
