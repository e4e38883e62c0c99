import Eddy.TaskHarness

/-!
# What one access of an operation does

The accesses that branch, each with everything its branches do, in terms of what the state
word says.
-/

namespace Eddy.TaskHarness
open TaskState

variable {S : Scheduler} {sh sh' : Shared S} {pc' : Pc S} {env : S.Env} {thread : S.Thread}

inductive Access (env : S.Env) (thread : S.Thread) (sh : Shared S) : Pc S → Shared S → Pc S → Prop where
  | refused : S.refuses env → Access env thread sh .register { sh with dropped := sh.dropped + 1 }
      (.dropReference .return)
  | registerLocked {word} : S.refuses env = false → S.registersLocked = true →
      view word = { view sh.word with refs := (view sh.word).refs + 1 } →
      (view sh.word).refs < refMaxCount →
      Access env thread sh .register { sh with word := word, registry := .listed }
        (.schedule .spawn S.enter)
  | register {word} : S.refuses env = false → S.registersLocked = false →
      view word = { view sh.word with refs := (view sh.word).refs + 1 } →
      (view sh.word).refs < refMaxCount →
      Access env thread sh .register { sh with word := word } .registerPush
  | registerPush : Access env thread sh .registerPush { sh with registry := .listed }
      (.schedule .spawn S.enter)
  | routed {caller pre pre'} : S.pre env thread sh.target sh.ownerId pre = .goOn pre' →
      Access env thread sh (.schedule caller pre) sh (.schedule caller pre')
  | queued {caller pre place rest} :
      S.pre env thread sh.target sh.ownerId pre = .queue place rest →
      Access env thread sh (.schedule caller pre) { sh with entries := sh.entries ++ [place] }
        (After.ofRest caller rest).pc
  | dropped {caller pre rest} : S.pre env thread sh.target sh.ownerId pre = .drop rest →
      Access env thread sh (.schedule caller pre) { sh with dropped := sh.dropped + 1 }
        (.dropReference (After.ofRest caller rest))
  | scheduledReturn {caller post} : Access env thread sh (.scheduled caller post) sh .finished
  | scheduledNext {caller post post'} :
      Access env thread sh (.scheduled caller post) sh (.scheduled caller post')
  | pollStarts {word} : (view sh.word).complete = false → (view sh.word).cancelled = false →
      (view sh.word).running = false →
      view word = { view sh.word with running := true, notified := false } →
      Access env thread sh .toRunning { sh with word := word, polls := sh.polls + 1 } .lockStage
  | entryCancelled : (view sh.word).cancelled = true → (view sh.word).complete = false →
      Access env thread sh .toRunning { sh with sawCancelled := true }
        (.finalizeStage .entry .cancelled)
  | staleEntry : (view sh.word).complete = true ∨ (view sh.word).running = true →
      Access env thread sh .toRunning sh (.dropReference .return)
  | stageLocked : sh.stageLocked = false → sh.stage = .running →
      Access env thread sh .lockStage ({ sh with stageLocked := true }.touchFuture env thread)
        .polling
  | stageUnreachable : sh.stage ≠ .running → Access env thread sh .lockStage sh .unreachable
  | idleCancelled {word} : view word = { view sh.word with running := false } →
      (view sh.word).cancelled = true →
      Access env thread sh .toIdle { sh with word := word, sawCancelled := true }
        (.finalizeStage .idle .cancelled)
  | idleNotified {word} : view word = { view sh.word with running := false } →
      (view sh.word).cancelled = false → (view sh.word).notified = true →
      Access env thread sh .toIdle { sh with word := word } (.schedule .poll S.enter)
  | idle {word} : view word = { view sh.word with running := false } →
      (view sh.word).cancelled = false → (view sh.word).notified = false →
      Access env thread sh .toIdle { sh with word := word } (.dropReference .return)
  | finalizeStage {via outcome touches} : sh.stageLocked = false →
      touches = (sh.dropFuture env thread).foreignTouches →
      Access env thread sh (.finalizeStage via outcome)
        { sh with
          stage := .finished outcome
          finalized := sh.finalized + 1
          foreignTouches := touches }
        (.finalizeComplete via)
  | finalizeComplete {via word joinInterest} :
      view word = { view sh.word with running := false, complete := true, notified := false } →
      Access env thread sh (.finalizeComplete via) { sh with word := word }
        (.finalizeWake via joinInterest)
  | finalizeWake {via trailer woken} : Access env thread sh (.finalizeWake via true)
      { sh with trailer := trailer, joinWoken := woken } (.finalizeRemove via)
  | finalizeUnread {via trailer woken} : Access env thread sh (.finalizeWake via false)
      { sh with trailer := trailer, joinWoken := woken } (.finalizeDiscard via)
  | finalizeDiscard {via stage discarded} : (stage = .running ↔ sh.stage = .running) →
      Access env thread sh (.finalizeDiscard via)
        { sh with stage := stage, outputsDiscarded := discarded } (.finalizeRemove via)
  | removed {via} : sh.registry = .listed → via.spends = true →
      Access env thread sh (.finalizeRemove via) { sh with registry := .removed }
        (.dropReference .again)
  | removedByRef {via} : sh.registry = .listed → via.spends = false →
      Access env thread sh (.finalizeRemove via) { sh with registry := .removed }
        (.dropReference .return)
  | unlisted {via} : sh.registry ≠ .listed → via.spends = true →
      Access env thread sh (.finalizeRemove via) sh (.dropReference .return)
  | unlistedByRef {via} : sh.registry ≠ .listed → via.spends = false →
      Access env thread sh (.finalizeRemove via) sh .finished
  | droppedLast {after word} :
      view word = { view sh.word with refs := (view sh.word).refs - 1 } →
      (view sh.word).refs = 1 →
      Access env thread sh (.dropReference after) { sh with word := word } (.dealloc after)
  | droppedReference {after word} :
      view word = { view sh.word with refs := (view sh.word).refs - 1 } →
      (view sh.word).refs ≠ 1 →
      Access env thread sh (.dropReference after) { sh with word := word } after.pc
  | dealloc {after touches} : S.deallocHere env thread = true →
      touches = (sh.dropFuture env thread).foreignTouches →
      Access env thread sh (.dealloc after)
        { sh with freed := true, foreignTouches := touches } after.pc
  | deallocElsewhere {after} : S.deallocHere env thread = false →
      Access env thread sh (.dealloc after) sh (.deferInc after)
  | deferInc {after word} : view word = { view sh.word with refs := (view sh.word).refs + 1 } →
      (view sh.word).refs < refMaxCount →
      Access env thread sh (.deferInc after) { sh with word := word } (.deferPush after)
  | forgotten {after} : Access env thread sh (.deferPush after)
      { sh with leaked := sh.leaked + 1 } after.pc
  | deferred {after} : Access env thread sh (.deferPush after)
      { sh with deferred := sh.deferred + 1 } after.pc
  | deallocNow {touches} : touches = (sh.dropFuture env thread).foreignTouches →
      Access env thread sh .deallocNow { sh with freed := true, foreignTouches := touches }
        .finished
  | wakeByValQuiet : (view sh.word).complete = true ∨ (view sh.word).notified = true ∨
        (view sh.word).cancelled = true →
      Access env thread sh .wakeByVal sh (.dropReference .return)
  | wakeByValRunning {word} : view word = { view sh.word with notified := true } →
      (view sh.word).cancelled = false → (view sh.word).running = true →
      (view sh.word).complete = false →
      Access env thread sh .wakeByVal { sh with word := word } (.dropReference .return)
  | wakeByVal {word} : view word = { view sh.word with notified := true } →
      (view sh.word).complete = false → (view sh.word).cancelled = false →
      (view sh.word).notified = false → (view sh.word).running = false →
      Access env thread sh .wakeByVal { sh with word := word } (.schedule .wakeByVal S.enter)
  | wakeByRefQuiet : (view sh.word).complete = true ∨ (view sh.word).notified = true ∨
        (view sh.word).cancelled = true →
      Access env thread sh .wakeByRef sh .finished
  | wakeByRefRunning {word} : view word = { view sh.word with notified := true } →
      (view sh.word).cancelled = false → (view sh.word).running = true →
      (view sh.word).complete = false →
      Access env thread sh .wakeByRef { sh with word := word } .finished
  | wakeByRef {word} : view word = { view sh.word with
        notified := true, refs := (view sh.word).refs + 1 } →
      (view sh.word).complete = false → (view sh.word).cancelled = false →
      (view sh.word).notified = false → (view sh.word).running = false →
      (view sh.word).refs < refMaxCount →
      Access env thread sh .wakeByRef { sh with word := word } (.schedule .wakeByRef S.enter)
  | shutdownBusy {word} : view word = { view sh.word with cancelled := true } →
      ((view sh.word).complete = true ∨ (view sh.word).cancelled = true ∨
        (view sh.word).running = true ∨ (view sh.word).notified = true) →
      Access env thread sh .shutdown { sh with word := word } .finished
  | shutdownIdle {word} : view word = { view sh.word with cancelled := true } →
      (view sh.word).complete = false → (view sh.word).cancelled = false →
      (view sh.word).running = false → (view sh.word).notified = false →
      Access env thread sh .shutdown { sh with word := word } (.finalizeStage .abort .cancelled)
  | readOutput {waker outcome} : sh.stage = .finished outcome →
      Access env thread sh (.readOutput waker)
        { sh with stage := .consumed, outputsRead := sh.outputsRead + 1 } (.dropReference .return)
  | readNothing {waker} : Access env thread sh (.readOutput waker) sh (.joinStore waker)
  | joinStore {waker} : Access env thread sh (.joinStore waker)
      { sh with trailer := some waker } .joinFlag
  | joinComplete : Access env thread sh .joinFlag sh .joinRewake
  | joinFlag {word} : view word = { view sh.word with joinWaker := true } →
      Access env thread sh .joinFlag { sh with word := word, joinHandle := true } .finished
  | joinRewake {trailer woken} : Access env thread sh .joinRewake
      { sh with trailer := trailer, joinWoken := woken, joinHandle := true } .finished
  | dropJoinInterest {word complete} :
      view word = { view sh.word with joinInterest := false } →
      Access env thread sh .dropJoinInterest { sh with word := word } (.dropJoinFlag complete)
  | dropJoinFlag {complete word} : view word = { view sh.word with joinWaker := false } →
      Access env thread sh (.dropJoinFlag complete) { sh with word := word }
        (.dropJoinWaker complete)
  | dropJoinWaker : Access env thread sh (.dropJoinWaker false) { sh with trailer := none }
      (.dropReference .return)
  | dropJoinWakerComplete : Access env thread sh (.dropJoinWaker true)
      { sh with trailer := none } .dropJoinDiscard
  | dropJoinDiscard {stage discarded} : (stage = .running ↔ sh.stage = .running) →
      Access env thread sh .dropJoinDiscard
        { sh with stage := stage, outputsDiscarded := discarded } (.dropReference .return)

theorem discardFinishedOutput_eq (sh : Shared S) :
    ∃ stage discarded, sh.discardFinishedOutput =
      { sh with stage := stage, outputsDiscarded := discarded } ∧
      (stage = .running ↔ sh.stage = .running) := by
  unfold Shared.discardFinishedOutput
  split
  · rename_i hstage
    exact ⟨_, _, rfl, by simp [hstage]⟩
  · exact ⟨sh.stage, sh.outputsDiscarded, rfl, Iff.rfl⟩

theorem dropFuture_eq_touches (sh : Shared S) (env : S.Env) (thread : S.Thread) :
    sh.dropFuture env thread =
      { sh with foreignTouches := (sh.dropFuture env thread).foreignTouches } := by
  unfold Shared.dropFuture
  split <;> rfl

attribute [local simp] opStep

theorem access_register (hs : opStep env thread sh .register = some (sh', pc')) :
    Access env thread sh .register sh' pc' := by
  simp only [opStep] at hs
  split_ifs at hs with hrefuse hlocked
  · cases hs
    exact .refused hrefuse
  · obtain ⟨word, hinc, hw⟩ := Option.map_eq_some_iff.mp hs
    obtain ⟨hview, hmax⟩ := view_refInc hinc
    cases hw
    exact .registerLocked (by simpa using hrefuse) hlocked hview hmax
  · obtain ⟨word, hinc, hw⟩ := Option.map_eq_some_iff.mp hs
    obtain ⟨hview, hmax⟩ := view_refInc hinc
    cases hw
    exact .register (by simpa using hrefuse) (by simpa using hlocked) hview hmax

/-- A poll starts, or finalizes a cancelled task, or drops a stale entry. -/
theorem access_toRunning (hs : opStep env thread sh .toRunning = some (sh', pc')) :
    Access env thread sh .toRunning sh' pc' := by
  simp only [opStep, State.transitionToRunning, isComplete_eq, isCancelled_eq, isRunning_eq] at hs
  cases hc : (view sh.word).complete <;> cases hx : (view sh.word).cancelled <;>
    cases hr : (view sh.word).running <;>
    simp only [hc, hx, hr, Bool.or_false, Bool.or_true, Bool.false_eq_true, ↓reduceIte,
      Bool.not_true, Bool.not_false, Bool.and_true, Bool.and_false, Option.some.injEq,
      Prod.mk.injEq] at hs <;>
    obtain ⟨rfl, rfl⟩ := hs
  all_goals first
    | exact .pollStarts hc hx hr (by simp)
    | exact .entryCancelled hx hc
    | exact .staleEntry (by simp [hc, hr])

/-- After a pending poll the task is dropped from the worker's hands, queued again or
finalized. -/
theorem access_toIdle (hs : opStep env thread sh .toIdle = some (sh', pc')) :
    Access env thread sh .toIdle sh' pc' := by
  have hview := view_unsetRunning sh.word
  simp only [opStep, State.transitionToIdle, isCancelled_eq, isNotified_eq, hview] at hs
  cases hx : (view sh.word).cancelled <;> cases hn : (view sh.word).notified <;>
    simp only [hx, hn, Bool.false_eq_true, ↓reduceIte, Option.some.injEq, Prod.mk.injEq] at hs <;>
    obtain ⟨rfl, rfl⟩ := hs
  · exact .idle hview hx hn
  · exact .idleNotified hview hx hn
  · exact .idleCancelled hview hx
  · exact .idleCancelled hview hx

theorem access_dropReference {after : After S} (hpos : 0 < (view sh.word).refs)
    (hs : opStep env thread sh (.dropReference after) = some (sh', pc')) :
    Access env thread sh (.dropReference after) sh' pc' := by
  have hview := view_refDec hpos
  by_cases hlast : (view sh.word).refs = 1
  · simp only [opStep, State.refDec, refCount_eq, hlast, beq_self_eq_true, Option.some.injEq,
      Prod.mk.injEq] at hs
    obtain ⟨rfl, rfl⟩ := hs
    exact .droppedLast hview hlast
  · simp only [opStep, State.refDec, refCount_eq, beq_eq_false_iff_ne.mpr hlast,
      Option.some.injEq, Prod.mk.injEq] at hs
    obtain ⟨rfl, rfl⟩ := hs
    exact .droppedReference hview hlast

theorem access_wakeByVal (hs : opStep env thread sh .wakeByVal = some (sh', pc')) :
    Access env thread sh .wakeByVal sh' pc' := by
  have hview := view_setNotified sh.word
  simp only [opStep, State.transitionToNotifiedByVal, isComplete_eq, isCancelled_eq, isRunning_eq,
    isNotified_eq] at hs
  cases hc : (view sh.word).complete <;> cases hn : (view sh.word).notified <;>
    cases hx : (view sh.word).cancelled <;> cases hr : (view sh.word).running <;>
    simp only [hc, hn, hx, hr, Bool.or_false, Bool.or_true, Bool.false_eq_true, ↓reduceIte,
      Option.some.injEq, Prod.mk.injEq] at hs <;>
    obtain ⟨rfl, rfl⟩ := hs
  all_goals first
    | exact .wakeByVal hview hc hx hn hr
    | exact .wakeByValRunning hview hx hr hc
    | exact .wakeByValQuiet (by simp [hc, hn, hx])

theorem access_wakeByRef (hs : opStep env thread sh .wakeByRef = some (sh', pc')) :
    Access env thread sh .wakeByRef sh' pc' := by
  simp only [opStep, State.transitionToNotifiedByRef, isComplete_eq, isCancelled_eq, isRunning_eq,
    isNotified_eq] at hs
  by_cases hq : ((view sh.word).complete || (view sh.word).notified || (view sh.word).cancelled)
  · simp only [hq, ↓reduceIte, Option.map_some, Option.some.injEq, Prod.mk.injEq] at hs
    obtain ⟨rfl, rfl⟩ := hs
    exact .wakeByRefQuiet (by simpa [or_assoc] using hq)
  · have hquiet := hq
    simp only [Bool.or_eq_true, not_or, Bool.not_eq_true] at hquiet
    obtain ⟨⟨hc, hn⟩, hx⟩ := hquiet
    simp only [hq, Bool.false_eq_true, ↓reduceIte] at hs
    cases hr : (view sh.word).running with
    | true =>
      simp only [hr, ↓reduceIte, Option.map_some, Option.some.injEq, Prod.mk.injEq] at hs
      obtain ⟨rfl, rfl⟩ := hs
      exact .wakeByRefRunning (view_setNotified _) hx hr hc
    | false =>
      simp only [hr, Bool.false_eq_true, ↓reduceIte, Option.map_map] at hs
      obtain ⟨word, hinc, hw⟩ := Option.map_eq_some_iff.mp hs
      obtain ⟨hview, hmax⟩ := view_refInc hinc
      cases hw
      exact .wakeByRef (by simpa using hview) hc hx hn hr (by simpa using hmax)

/-- An abort cancels, and finalizes the task itself only if it was idle. -/
theorem access_shutdown (hs : opStep env thread sh .shutdown = some (sh', pc')) :
    Access env thread sh .shutdown sh' pc' := by
  have hview := view_setCancelled sh.word
  simp only [opStep, isComplete_eq, isCancelled_eq, isRunning_eq, isNotified_eq] at hs
  cases hc : (view sh.word).complete <;> cases hx : (view sh.word).cancelled <;>
    cases hr : (view sh.word).running <;> cases hn : (view sh.word).notified <;>
    simp only [hc, hn, hx, hr, Bool.or_false, Bool.or_true, Bool.false_eq_true, ↓reduceIte,
      Option.some.injEq, Prod.mk.injEq] at hs <;>
    obtain ⟨rfl, rfl⟩ := hs
  all_goals first
    | exact .shutdownIdle hview hc hx hr hn
    | exact .shutdownBusy hview (by simp [hc, hx, hr, hn])

theorem access_of_opStep {pc : Pc S}
    (hpos : ∀ after, pc = .dropReference after → 0 < (view sh.word).refs)
    (hs : opStep env thread sh pc = some (sh', pc')) : Access env thread sh pc sh' pc' := by
  cases pc with
  | register => exact access_register hs
  | registerPush =>
    cases hs
    exact .registerPush
  | schedule caller pre =>
    simp only [opStep] at hs
    split at hs <;> rename_i hpre <;> cases hs
    · exact .routed hpre
    · exact .queued hpre
    · exact .dropped hpre
  | scheduled caller post =>
    simp only [opStep] at hs
    split at hs <;> cases hs
    · exact .scheduledReturn
    · exact .scheduledNext
  | toRunning => exact access_toRunning hs
  | lockStage =>
    simp only [opStep] at hs
    split_ifs at hs with hlock
    split at hs <;> rename_i hstage <;> cases hs
    · exact .stageLocked (by simpa using hlock) hstage
    · exact .stageUnreachable hstage
  | polling => cases hs
  | toIdle => exact access_toIdle hs
  | finalizeStage via outcome =>
    simp only [opStep] at hs
    split_ifs at hs with hlock
    rw [dropFuture_eq_touches] at hs
    cases hs
    exact .finalizeStage (by simpa using hlock) rfl
  | finalizeComplete via =>
    cases hs
    exact .finalizeComplete (by simp [State.transitionToComplete])
  | finalizeWake via joinInterest =>
    cases hs
    cases joinInterest
    · exact .finalizeUnread
    · exact .finalizeWake
  | finalizeDiscard via =>
    obtain ⟨stage, discarded, hdiscard, hstage⟩ := discardFinishedOutput_eq sh
    simp only [opStep, hdiscard] at hs
    split_ifs at hs
    cases hs
    exact .finalizeDiscard hstage
  | finalizeRemove via =>
    simp only [opStep] at hs
    cases hvia : via.spends <;> rw [hvia] at hs <;> split at hs <;> rename_i hreg <;> cases hs
    · exact .removedByRef hreg hvia
    · exact .unlistedByRef hreg hvia
    · exact .removed hreg hvia
    · exact .unlisted hreg hvia
  | dropReference after => exact access_dropReference (hpos after rfl) hs
  | dealloc after =>
    simp only [opStep] at hs
    split_ifs at hs with hhere
    · rw [dropFuture_eq_touches] at hs
      cases hs
      exact .dealloc hhere rfl
    · cases hs
      exact .deallocElsewhere (by simpa using hhere)
  | deferInc after =>
    obtain ⟨word, hinc, hw⟩ := Option.map_eq_some_iff.mp hs
    obtain ⟨hview, hmax⟩ := view_refInc hinc
    cases hw
    exact .deferInc hview hmax
  | deferPush after =>
    simp only [opStep] at hs
    split_ifs at hs <;> cases hs
    · exact .forgotten
    · exact .deferred
  | deallocNow =>
    simp only [opStep] at hs
    rw [dropFuture_eq_touches] at hs
    cases hs
    exact .deallocNow rfl
  | wakeByVal => exact access_wakeByVal hs
  | wakeByRef => exact access_wakeByRef hs
  | shutdown => exact access_shutdown hs
  | readOutput waker =>
    simp only [opStep] at hs
    split_ifs at hs
    split at hs <;> rename_i hstage <;> cases hs
    · exact .readOutput hstage
    · exact .readNothing
  | joinStore waker =>
    cases hs
    exact .joinStore
  | joinFlag =>
    simp only [opStep, State.setJoinWaker, isComplete_eq] at hs
    cases hc : (view sh.word).complete <;>
      simp only [hc, Bool.false_eq_true, ↓reduceIte] at hs <;> cases hs
    · exact .joinFlag (view_setJoinWaker _)
    · exact .joinComplete
  | joinRewake =>
    cases hs
    exact .joinRewake
  | dropJoinInterest =>
    cases hs
    exact .dropJoinInterest (view_unsetJoinInterest _)
  | dropJoinFlag complete =>
    cases hs
    exact .dropJoinFlag (view_unsetJoinWaker _)
  | dropJoinWaker complete =>
    cases hs
    cases complete
    · exact .dropJoinWaker
    · exact .dropJoinWakerComplete
  | dropJoinDiscard =>
    obtain ⟨stage, discarded, hdiscard, hstage⟩ := discardFinishedOutput_eq sh
    simp only [opStep, hdiscard] at hs
    split_ifs at hs
    cases hs
    exact .dropJoinDiscard hstage
  | finished => cases hs
  | unreachable => cases hs

end Eddy.TaskHarness
