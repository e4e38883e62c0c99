import Eddy.Oneshot

/-!
# What becomes of the value

A run takes one of five courses. In each of them the value is in one place, a receiver that waits
was woken as soon as the channel has an answer, and so was the future that waits for the receiver
to go, unless another one registered its waker after it.
-/

namespace Eddy.Oneshot
open Interleaving

variable {T : Type}

namespace System
variable {s t : System T}

inductive Course (s : System T) : Prop where
  | opened (sender : s.sender = true) (passed : s.passed = none) (answer : s.answer = none)
      (alive : s.state.senderAlive = true) (sent : s.state.sent = false)
      (value : s.state.value = none) (received : s.received = none)
  /-- The sender was dropped. -/
  | abandoned (sender : s.sender = false) (passed : s.passed = none) (answer : s.answer = none)
      (alive : s.state.senderAlive = false) (sent : s.state.sent = false)
      (value : s.state.value = none) (waker : s.state.receiverWaker = none)
      (received : ∀ result ∈ s.received, result = .error)
  /-- `send` gave the value back. -/
  | refused (v : T) (sender : s.sender = false) (passed : s.passed = some v)
      (answer : s.answer = some (.error v)) (value : s.state.value = none)
      (receiver : s.receiver = .dropped) (received : s.received = none)
  /-- The value is in the channel. -/
  | held (v : T) (sender : s.sender = false) (passed : s.passed = some v)
      (answer : s.answer = some (.ok ())) (sent : s.state.sent = true)
      (value : s.state.value = some v) (waker : s.state.receiverWaker = none)
      (received : s.received = none)
  | delivered (v : T) (sender : s.sender = false) (passed : s.passed = some v)
      (answer : s.answer = some (.ok ())) (sent : s.state.sent = true)
      (value : s.state.value = none) (received : s.received = some (.ok v))

def Owed (s : System T) (registered : Option ℕ) (w : Wait) : Prop :=
  ∀ waker ∈ w.waker, w.heard = true ∨ registered = some waker ∨ waker ∈ s.waking

structure Sound (s : System T) : Prop where
  course : s.Course
  alive : s.state.receiverAlive = false ↔ s.receiver = .dropped
  completed : s.received.isSome = true ↔ s.receiver = .completed
  waits : s.Owed s.state.receiverWaker s.wait
  closes : ∀ j ∈ s.last, ∀ c, s.closed[j]? = some (some c) → s.Owed s.state.closedWaker c
  taken : s.state.receiverAlive = false → s.state.closedWaker = none

def sameCourse (s t : System T) : Prop :=
  (t.sender, t.passed, t.answer, t.received) = (s.sender, s.passed, s.answer, s.received) ∧
    (t.state.value, t.state.sent, t.state.senderAlive) =
      (s.state.value, s.state.sent, s.state.senderAlive)

theorem Course.congr (h : s.Course) (hsame : s.sameCourse t)
    (hwaker : s.state.receiverWaker = none → t.state.receiverWaker = none)
    (hreceiver : s.receiver = .dropped → t.receiver = .dropped) : t.Course := by
  obtain ⟨hends, hstate⟩ := hsame
  simp only [Prod.mk.injEq] at hends hstate
  obtain ⟨hsender, hpassed, hanswer, hreceived⟩ := hends
  obtain ⟨hvalue, hsent, halive⟩ := hstate
  cases h with
  | opened sender passed answer alive sent value received =>
    exact .opened (hsender.trans sender) (hpassed.trans passed) (hanswer.trans answer)
      (halive.trans alive) (hsent.trans sent) (hvalue.trans value) (hreceived.trans received)
  | abandoned sender passed answer alive sent value waker received =>
    exact .abandoned (hsender.trans sender) (hpassed.trans passed) (hanswer.trans answer)
      (halive.trans alive) (hsent.trans sent) (hvalue.trans value) (hwaker waker)
      (hreceived ▸ received)
  | refused v sender passed answer value receiver received =>
    exact .refused v (hsender.trans sender) (hpassed.trans passed) (hanswer.trans answer)
      (hvalue.trans value) (hreceiver receiver) (hreceived.trans received)
  | held v sender passed answer sent value waker received =>
    exact .held v (hsender.trans sender) (hpassed.trans passed) (hanswer.trans answer)
      (hsent.trans sent) (hvalue.trans value) (hwaker waker) (hreceived.trans received)
  | delivered v sender passed answer sent value received =>
    exact .delivered v (hsender.trans sender) (hpassed.trans passed) (hanswer.trans answer)
      (hsent.trans sent) (hvalue.trans value) (hreceived.trans received)

theorem Course.of_sender (h : s.Course) (hsender : s.sender = true) :
    s.passed = none ∧ s.answer = none ∧ s.state.senderAlive = true ∧ s.state.sent = false ∧
      s.state.value = none ∧ s.received = none := by
  cases h with
  | opened _ passed answer alive sent value received =>
    exact ⟨passed, answer, alive, sent, value, received⟩
  | abandoned sender | refused _ sender | held _ sender | delivered _ sender =>
    rw [hsender] at sender
    cases sender

variable {w : Wait} {waker : ℕ} {registered : Option ℕ}

theorem Owed.mono (h : s.Owed registered w)
    (hwaking : ∀ waker ∈ s.waking, waker ∈ t.waking) : t.Owed registered w :=
  fun waker hw => (h waker hw).imp_right fun hreg => hreg.imp_right (hwaking waker)

theorem Owed.take (h : s.Owed registered w)
    (hwaking : t.waking = s.waking ++ registered.toList) : t.Owed none w := by
  intro waker hw
  rcases h waker hw with hheard | hreg | hmem
  · exact .inl hheard
  · refine .inr (.inr ?_)
    simp [hwaking, hreg]
  · exact .inr (.inr (hwaking ▸ List.mem_append_left _ hmem))

theorem Owed.register (s : System T) (waker : ℕ) (heard : Bool) :
    s.Owed (some waker) ⟨some waker, heard⟩ := by
  intro w hw
  exact .inr (.inl hw)

theorem Owed.new (s : System T) (registered : Option ℕ) : s.Owed registered .new :=
  fun _ hw => by cases hw

/-- One of the wakers that were taken is woken. -/
theorem Owed.wake {k : ℕ} (h : s.Owed registered w)
    (hk : s.waking[k]? = some waker) (hwaking : t.waking = s.waking.eraseIdx k) :
    t.Owed registered (w.wake waker) := by
  intro x hx
  have hx : x ∈ w.waker := hx
  rcases h x hx with hheard | hreg | hmem
  · exact .inl (by simp [Wait.wake, hheard])
  · exact .inr (.inl hreg)
  · by_cases hne : x = waker
    · refine .inl ?_
      rw [Option.mem_def] at hx
      simp [Wait.wake, hx, hne]
    · refine .inr (.inr (hwaking ▸ ?_))
      obtain ⟨i, hi⟩ := List.mem_iff_getElem?.mp hmem
      refine List.mem_eraseIdx_iff_getElem?.mpr ⟨i, ?_, hi⟩
      rintro rfl
      exact hne (Option.some.inj (hi.symm.trans hk))

theorem Sound.send (h : s.Sound) {value : T} (hs : s.step (.send value) = some t) : t.Sound := by
  simp only [step] at hs
  split_ifs at hs with hfree
  obtain ⟨-, -, -, hsent, hvalue, hreceived⟩ := h.course.of_sender hfree.1
  by_cases hgone : s.state.receiverAlive = false
  · have hdropped := h.alive.mp hgone
    have hsend : s.state.send value = (.error value, s.state, none) := if_pos (.inl hgone)
    simp only [hsend] at hs
    cases hs
    refine ⟨.refused value rfl rfl rfl hvalue hdropped hreceived, h.alive, h.completed, ?_, ?_,
      h.taken⟩
    · exact h.waits.mono fun _ => List.mem_append_left _
    · exact fun j hj c hc => (h.closes j hj c hc).mono fun _ => List.mem_append_left _
  · have hsend : s.state.send value = (.ok (), { s.state with
        sent := true
        value := some value
        receiverWaker := none }, s.state.receiverWaker) := if_neg (by simp [hgone, hsent])
    simp only [hsend] at hs
    cases hs
    refine ⟨.held value rfl rfl rfl rfl rfl rfl hreceived, h.alive, h.completed, ?_, ?_, h.taken⟩
    · exact h.waits.take rfl
    · exact fun j hj c hc => (h.closes j hj c hc).mono fun _ => List.mem_append_left _

theorem Sound.dropSender (h : s.Sound) (hs : s.step .dropSender = some t) : t.Sound := by
  simp only [step] at hs
  split_ifs at hs with hfree
  obtain ⟨hpassed, hanswer, -, hsent, hvalue, hreceived⟩ := h.course.of_sender hfree.1
  have hdrop : s.state.dropSender = ({ s.state with
      senderAlive := false
      receiverWaker := none }, s.state.receiverWaker) := if_pos hsent
  simp only [hdrop] at hs
  cases hs
  refine ⟨.abandoned rfl hpassed hanswer rfl hsent hvalue rfl ?_, h.alive, h.completed, ?_, ?_,
    h.taken⟩
  · intro result hresult
    rw [hreceived] at hresult
    cases hresult
  · exact h.waits.take rfl
  · exact fun j hj c hc => (h.closes j hj c hc).mono fun _ => List.mem_append_left _

theorem Sound.closed (h : s.Sound) (hs : s.step .closed = some t) : t.Sound := by
  obtain ⟨-, hs⟩ := Option.ite_none_right_eq_some.mp hs
  cases hs
  refine ⟨h.course.congr ⟨rfl, rfl⟩ id id, h.alive, h.completed, h.waits, fun j hj c hc => ?_,
    h.taken⟩
  by_cases hlt : j < s.closed.length
  · rw [List.getElem?_append_left hlt] at hc
    exact h.closes j hj c hc
  · rw [List.getElem?_append_right (Nat.le_of_not_lt hlt)] at hc
    have hmem := List.mem_of_getElem? hc
    rw [List.mem_singleton, Option.some.injEq] at hmem
    subst hmem
    exact .new _ _

theorem Sound.pollClosed (h : s.Sound) {j : ℕ}
    (hs : s.step (.pollClosed j waker) = some t) : t.Sound := by
  obtain ⟨c, hc, rfl⟩ := Option.map_eq_some_iff.mp hs
  by_cases hgone : s.state.receiverAlive = false
  · simp only [System.pollClosed, State.pollClosed, if_pos hgone]
    refine ⟨h.course.congr ⟨rfl, rfl⟩ id id, h.alive, h.completed, h.waits, fun i hi d hd => ?_,
      h.taken⟩
    rw [List.getElem?_set] at hd
    split_ifs at hd
    · cases hd
      exact .new _ _
    · exact h.closes i hi d hd
  · simp only [System.pollClosed, State.pollClosed, if_neg hgone]
    refine ⟨h.course.congr ⟨rfl, rfl⟩ id id, h.alive, h.completed, h.waits, fun i hi d hd => ?_,
      fun hfalse => absurd hfalse hgone⟩
    obtain rfl : j = i := Option.some.inj hi
    rw [List.getElem?_set, if_pos rfl] at hd
    split_ifs at hd
    cases hd
    exact .register _ _ _

theorem Sound.dropClosed (h : s.Sound) {j : ℕ} (hs : s.step (.dropClosed j) = some t) :
    t.Sound := by
  obtain ⟨c, hc, rfl⟩ := Option.map_eq_some_iff.mp hs
  refine ⟨h.course.congr ⟨rfl, rfl⟩ id id, h.alive, h.completed, h.waits, fun i hi d hd => ?_,
    h.taken⟩
  rw [List.getElem?_set] at hd
  split_ifs at hd
  · cases hd
  · exact h.closes i hi d hd

theorem Sound.poll (h : s.Sound) {proceed : Bool}
    (hs : s.step (.poll proceed waker) = some t) : t.Sound := by
  obtain ⟨hlive, hs⟩ := Option.ite_none_right_eq_some.mp hs
  have hnone : s.received = none := by
    have hnot := mt h.completed.mp (by rw [hlive]; exact Phase.noConfusion)
    simpa using hnot
  have hopen : ¬ s.state.receiverAlive = false := fun hgone => by
    rw [h.alive, hlive] at hgone
    cases hgone
  cases proceed with
  | false =>
    cases hs
    refine ⟨h.course.congr ⟨rfl, rfl⟩ id id, h.alive, h.completed, ?_, h.closes, h.taken⟩
    exact fun _ _ => .inl rfl
  | true =>
    cases hs
    have hdone : s.state.receiverAlive = false ↔ Phase.completed = .dropped :=
      iff_of_false hopen Phase.noConfusion
    cases h.course with
    | opened sender passed answer alive sent value received =>
      have hpoll : s.state.poll waker =
          (.pending, { s.state with receiverWaker := some waker }) := by
        simp [State.poll, value, sent, alive]
      simp only [System.poll, hpoll, if_true]
      exact ⟨.opened sender passed answer alive sent value received, h.alive, h.completed,
        .register _ _ _, h.closes, h.taken⟩
    | abandoned sender passed answer alive sent value waker' received =>
      have hpoll : s.state.poll waker = (.error, s.state) := by simp [State.poll, value, alive]
      simp only [System.poll, hpoll, if_true]
      refine ⟨.abandoned sender passed answer alive sent value waker' ?_, hdone, by simp,
        .new _ _, h.closes, h.taken⟩
      rintro _ ⟨⟩
      rfl
    | refused v sender passed answer value receiver received =>
      rw [hlive] at receiver
      cases receiver
    | held v sender passed answer sent value waker' received =>
      have hpoll : s.state.poll waker = (.ok v, { s.state with value := none }) := by
        simp [State.poll, value]
      simp only [System.poll, hpoll, if_true]
      exact ⟨.delivered v sender passed answer sent rfl rfl, hdone, by simp, .new _ _, h.closes,
        h.taken⟩
    | delivered v sender passed answer sent value received =>
      rw [hnone] at received
      cases received

theorem Sound.dropReceiver (h : s.Sound) (hs : s.step .dropReceiver = some t) : t.Sound := by
  obtain ⟨hlive, hs⟩ := Option.ite_none_right_eq_some.mp hs
  cases hs
  have hnone : ¬ s.received.isSome = true := fun hsome => by
    rw [h.completed, hlive] at hsome
    cases hsome
  refine ⟨h.course.congr ⟨rfl, rfl⟩ id fun _ => rfl, iff_of_true rfl rfl,
    iff_of_false hnone Phase.noConfusion, ?_, ?_, fun _ => rfl⟩
  · exact h.waits.mono fun _ => List.mem_append_left _
  · exact fun j hj c hc => (h.closes j hj c hc).take rfl

theorem Sound.wake (h : s.Sound) {k : ℕ} (hs : s.step (.wake k) = some t) : t.Sound := by
  obtain ⟨waker, hk, rfl⟩ := Option.map_eq_some_iff.mp hs
  refine ⟨h.course.congr ⟨rfl, rfl⟩ id id, h.alive, h.completed, h.waits.wake hk rfl,
    fun j hj d hd => ?_, h.taken⟩
  rw [List.getElem?_map] at hd
  obtain ⟨c, hc, hmap⟩ := Option.map_eq_some_iff.mp hd
  obtain ⟨w, rfl, rfl⟩ := Option.map_eq_some_iff.mp hmap
  exact (h.closes j hj w hc).wake hk rfl

theorem Sound.step {a : Label T} (h : s.Sound) (hs : s.step a = some t) : t.Sound := by
  cases a with
  | send value => exact h.send hs
  | dropSender => exact h.dropSender hs
  | closed => exact h.closed hs
  | pollClosed j waker => exact h.pollClosed hs
  | dropClosed j => exact h.dropClosed hs
  | poll proceed waker => exact h.poll hs
  | dropReceiver => exact h.dropReceiver hs
  | wake k => exact h.wake hs

theorem Sound.new : Sound (.new : System T) := by
  refine ⟨.opened rfl rfl rfl rfl rfl rfl rfl, ?_, ?_, .new _ _, ?_, nofun⟩
  · exact iff_of_false Bool.noConfusion Phase.noConfusion
  · exact iff_of_false Bool.noConfusion Phase.noConfusion
  · exact fun _ hj => by cases hj

structure Delivers (s : System T) : Prop where
  /-- A value that was sent is in the channel until the receiver gets it. -/
  sent : s.answer = some (.ok ()) → ∃ v, s.passed = some v ∧
    (s.state.value = some v ∧ s.received = none ∨ s.state.value = none ∧ s.received = some (.ok v))
  /-- A value that is given back never gets to the receiver, which was dropped. -/
  refused : ∀ v, s.answer = some (.error v) →
    s.passed = some v ∧ s.state.value = none ∧ s.receiver = .dropped ∧ s.received = none
  /-- The receiver gets nothing else, and an error only when nothing was sent. -/
  received : ∀ result ∈ s.received, result = .error ∧ s.sender = false ∧ s.passed = none ∨
    ∃ v, result = .ok v ∧ s.passed = some v ∧ s.answer = some (.ok ())
  /-- Without a sender the next poll of the receiver resolves, and if the last one returned
  `Pending`, its waker was woken or is about to be. -/
  resolves : s.sender = false → s.receiver = .live →
    (∀ waker, (s.state.poll waker).1 ≠ .pending) ∧
      ∀ waker ∈ s.wait.waker, s.wait.heard = true ∨ waker ∈ s.waking
  /-- Without a receiver the futures of the sender are ready, and of those that wait the one that
  registered last was woken or is about to be. -/
  closes : s.receiver = .dropped →
    (∀ waker, (s.state.pollClosed waker).1 = true) ∧
      ∀ j ∈ s.last, ∀ c, s.closed[j]? = some (some c) →
        ∀ waker ∈ c.waker, c.heard = true ∨ waker ∈ s.waking

theorem Owed.of_none (h : s.Owed none w) :
    ∀ waker ∈ w.waker, w.heard = true ∨ waker ∈ s.waking :=
  fun waker hw => (h waker hw).imp_right fun hreg => hreg.resolve_left (Option.some_ne_none _).symm

theorem Sound.closes_of_dropped (h : s.Sound) (hdropped : s.receiver = .dropped) :
    (∀ waker, (s.state.pollClosed waker).1 = true) ∧
      ∀ j ∈ s.last, ∀ c, s.closed[j]? = some (some c) →
        ∀ waker ∈ c.waker, c.heard = true ∨ waker ∈ s.waking := by
  have hgone := h.alive.mpr hdropped
  refine ⟨fun waker => ?_, fun j hj c hc => ?_⟩
  · rw [State.pollClosed, if_pos hgone]
  · have howed := h.closes j hj c hc
    rw [h.taken hgone] at howed
    exact howed.of_none

theorem Sound.delivers (h : s.Sound) : s.Delivers := by
  have hcloses := h.closes_of_dropped
  have hwaits := h.waits
  cases h.course with
  | opened sender passed answer alive sent value received =>
    refine ⟨fun hok => ?_, fun v hrefused => ?_, fun result hresult => ?_, fun hgone => ?_, hcloses⟩
    · rw [answer] at hok
      cases hok
    · rw [answer] at hrefused
      cases hrefused
    · rw [received] at hresult
      cases hresult
    · rw [sender] at hgone
      cases hgone
  | abandoned sender passed answer alive sent value waker received =>
    refine ⟨fun hok => ?_, fun v hrefused => ?_,
      fun result hresult => .inl ⟨received result hresult, sender, passed⟩, fun _ _ => ⟨?_, ?_⟩,
      hcloses⟩
    · rw [answer] at hok
      cases hok
    · rw [answer] at hrefused
      cases hrefused
    · simp [State.poll, value, alive]
    · rw [waker] at hwaits
      exact hwaits.of_none
  | refused v sender passed answer value receiver received =>
    refine ⟨fun hok => ?_, fun w hrefused => ?_, fun result hresult => ?_, fun _ hlive => ?_,
      hcloses⟩
    · rw [answer] at hok
      cases hok
    · rw [answer] at hrefused
      cases hrefused
      exact ⟨passed, value, receiver, received⟩
    · rw [received] at hresult
      cases hresult
    · rw [receiver] at hlive
      cases hlive
  | held v sender passed answer sent value waker received =>
    refine ⟨fun _ => ⟨v, passed, .inl ⟨value, received⟩⟩, fun w hrefused => ?_,
      fun result hresult => ?_, fun _ _ => ⟨?_, ?_⟩, hcloses⟩
    · rw [answer] at hrefused
      cases hrefused
    · rw [received] at hresult
      cases hresult
    · simp [State.poll, value]
    · rw [waker] at hwaits
      exact hwaits.of_none
  | delivered v sender passed answer sent value received =>
    refine ⟨fun _ => ⟨v, passed, .inr ⟨value, received⟩⟩, fun w hrefused => ?_,
      fun result hresult => ?_, fun _ hlive => ?_, hcloses⟩
    · rw [answer] at hrefused
      cases hrefused
    · rw [received] at hresult
      cases hresult
      exact .inr ⟨v, rfl, passed, answer⟩
    · have hcompleted : s.receiver = .completed := h.completed.mp (by rw [received]; rfl)
      rw [hlive] at hcompleted
      cases hcompleted

/-- In every run the value is delivered once, given back or kept for the receiver, and nobody who
waits for the other side is left asleep. -/
theorem oneshot_delivers (h : Reachable step anyStep .new s) : s.Delivers := by
  have hsound : s.Sound := h.invariant .new fun _ _ _ hs _ hstep => hs.step hstep
  exact hsound.delivers

/-- The receiver waits, the value is sent, and the waker is taken and has yet to be woken. -/
theorem oneshot_delivers_to_waiting : ∃ s : System ℕ, s.Delivers ∧ s.state.value = some 5 ∧
    s.wait.waker = some 7 ∧ s.wait.heard = false ∧ s.waking = [7] := by
  have hrun : (run (guarded step anyStep) (.new : System ℕ)
      [.poll true 7, .closed, .pollClosed 0 8, .dropClosed 0, .send 5]).any (fun s =>
        decide (s.state.value = some 5) && decide (s.wait.waker = some 7) && !s.wait.heard &&
          decide (s.waking = [7])) = true := by decide +kernel
  obtain ⟨s, hreach, hs⟩ := exists_reachable_of_run hrun
  simp only [Bool.and_eq_true, decide_eq_true_eq, Bool.not_eq_true'] at hs
  obtain ⟨⟨⟨hvalue, hwaker⟩, hheard⟩, hwaking⟩ := hs
  exact ⟨s, oneshot_delivers hreach, hvalue, hwaker, hheard, hwaking⟩

end System
end Eddy.Oneshot
