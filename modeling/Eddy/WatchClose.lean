import Eddy.BroadcastClose
import Eddy.Watch

/-!
# Closing a watch channel

The drop of a sender wakes the receivers before its reference count is released, and a receiver
finds the channel closed only when it holds the last reference count. So a receiver may wait for ever
that registered its waker after the drop of the last sender took them, or that has seen the last
version and waits beside another one.
-/

namespace Eddy.Watch
open Interleaving Holdings

variable {α : Type}

namespace System

variable {s t : System α} {i j : ℕ} {r : Receiver}

/-- The receiver has been woken, and its next poll does not return `Pending`. -/
structure Resolves (s : System α) (r : Receiver) : Prop where
  woken : r.woken = true
  next : ∀ waker, (s.state.pollChanged s.strongCount r.version waker).1 ≠ .pending

/-- No receiver stays pending on a channel without senders. -/
def Resolved (s : System α) : Prop :=
  s.senderCount = 0 → ∀ r ∈ s.receivers, r.live = true → r.waiting.isSome → s.Resolves r

def someWaits (s : System α) : Bool :=
  s.receivers.any fun r => r.live && r.waiting.isSome && r.version = s.state.version

def someRegistered (s : System α) : Bool :=
  s.receivers.any fun r => r.live && !r.woken && r.waiting.any (· ∈ s.state.wakers)

/-- The last sender goes when no receiver has registered a waker since its drop took them and none
waits beside another one, and afterwards none is made to wait beside another one. -/
def ClosesInTime (s : System α) : Label α → Prop
  | .releaseSender _ =>
    s.senderCount = 1 → s.someRegistered = false ∧ (s.someWaits = true → s.receiverCount = 1)
  | .poll j proceed _ =>
    s.senderCount = 0 → proceed = true →
      ∀ r ∈ s.receiver j, r.version = s.state.version → s.receiverCount = 1
  | .cloneReceiver _ => s.senderCount = 0 → s.someWaits = false
  | _ => True

instance (s : System α) (a : Label α) : Decidable (s.ClosesInTime a) := by
  cases a <;> unfold ClosesInTime <;> infer_instance

def Registered (s : System α) (waker : ℕ) : Prop :=
  waker ∈ s.state.wakers ∨ ∃ x ∈ s.senders, waker ∈ x.waking

/-- A receiver that waits was woken, or its waker is registered. -/
def Waits (s : System α) (r : Receiver) : Prop :=
  r.woken = true ∨ ∀ waker ∈ r.waiting, s.Registered waker

/-- A receiver finds the channel closed or a new version. -/
def Ready (s : System α) (r : Receiver) : Prop :=
  r.version ≠ s.state.version ∨ s.receiverCount ≤ 1

structure Sound (s : System α) : Prop where
  waits : ∀ r ∈ s.receivers, r.live = true → s.Waits r
  dropped : ∀ x ∈ s.senders, x.phase = .dropped → x.waking = []
  closed : s.senderCount = 0 → ∀ r ∈ s.receivers, r.live = true → r.waiting.isSome →
    r.woken = true ∧ s.Ready r

theorem Sound.new (init : α) : Sound (.new init) := by
  constructor <;> simp [System.new, Waits, senderCount]

theorem receiver_eq_some (hr : s.receiver j = some r) :
    s.receivers[j]? = some r ∧ r.live = true := by
  simpa [receiver, Option.filter_eq_some_iff] using hr

variable {x : Sender} {f : Receiver → Receiver}

theorem sender_eq_some {phase : SenderPhase} (hx : s.sender i phase = some x) :
    s.senders[i]? = some x ∧ x.phase = phase := by
  simpa [sender, Option.filter_eq_some_iff] using hx

/-- A sender that is there keeps the channel open. -/
theorem senderCount_pos (hx : s.senders[i]? = some x) (hphase : x.phase ≠ .dropped) :
    0 < s.senderCount := by
  apply List.countP_pos_iff.mpr
  exact ⟨x, List.mem_of_getElem? hx, by simpa using hphase⟩

/-- A waker stays registered while the wakers only move to senders. -/
theorem Waits.keeps (h : s.Waits r) (hkeeps : ∀ waker, s.Registered waker → t.Registered waker) :
    t.Waits r :=
  h.imp_right fun hregistered waker hwaker => hkeeps waker (hregistered waker hwaker)

/-- Senders come and go, and the wakers are kept. -/
theorem Sound.senders (h : s.Sound) {state : State α} {senders : List Sender}
    (hkeeps : ∀ waker, s.Registered waker →
      Registered { s with state := state, senders := senders } waker)
    (hdropped : ∀ x ∈ senders, x.phase = .dropped → x.waking = [])
    (hopen : 0 < senders.countP fun x => x.phase ≠ .dropped) :
    Sound { s with state := state, senders := senders } where
  waits := fun r hr hlive => (h.waits r hr hlive).keeps hkeeps
  dropped := hdropped
  closed := fun hnone => absurd hnone hopen.ne'

theorem Sound.cloneSender (h : s.Sound) :
    Sound { s with senders := s.senders ++ [⟨.live, []⟩] } := by
  refine h.senders (fun waker hwaker => ?_) (fun x hx hphase => ?_) (by simp)
  · refine hwaker.imp_right fun ⟨x, hx, hmem⟩ => ?_
    exact ⟨x, List.mem_append_left _ hx, hmem⟩
  · rcases List.mem_append.mp hx with hx | hx
    · exact h.dropped x hx hphase
    · rw [List.mem_singleton.mp hx]

theorem Sound.send (h : s.Sound) (hx : s.senders[i]? = some x)
    (hphase : x.phase = .live) (value : α) :
    Sound { s with
      state := (s.state.send value).1
      senders := s.senders.modify i fun x =>
        { x with waking := x.waking ++ (s.state.send value).2 } } := by
  have hself : (s.senders.modify i fun x =>
      { x with waking := x.waking ++ (s.state.send value).2 })[i]? =
      some { x with waking := x.waking ++ s.state.wakers } := by simp [hx, State.send]
  refine h.senders (fun waker hwaker => .inr ?_) (fun y hy hdropped => ?_) ?_
  · rcases hwaker with hwaker | ⟨y, hy, hwaker⟩
    · exact ⟨_, List.mem_of_getElem? hself, List.mem_append_right _ hwaker⟩
    · obtain ⟨k, hk⟩ := List.mem_iff_getElem?.mp hy
      by_cases hik : i = k
      · subst hik
        obtain rfl : x = y := Option.some.inj (hx.symm.trans hk)
        exact ⟨_, List.mem_of_getElem? hself, List.mem_append_left _ hwaker⟩
      · refine ⟨y, List.mem_iff_getElem?.mpr ⟨k, ?_⟩, hwaker⟩
        simp [hik, hk]
  · rcases mem_modify hx hy with rfl | hy
    · simp [hphase] at hdropped
    · exact h.dropped y hy hdropped
  · exact List.countP_pos_iff.mpr ⟨_, List.mem_of_getElem? hself, by simp [hphase]⟩

theorem Sound.wake (h : s.Sound) {k waker : ℕ} (hx : s.senders[i]? = some x)
    (hwaker : x.waking[k]? = some waker) : (s.wake i k waker).Sound := by
  have hmem := List.mem_of_getElem? hwaker
  have hphase : x.phase ≠ .dropped := by
    intro hdropped
    simp [h.dropped x (List.mem_of_getElem? hx) hdropped] at hmem
  have hself : (s.wake i k waker).senders[i]? =
      some { x with waking := x.waking.eraseIdx k } := by simp [System.wake, hx]
  have hkeeps : ∀ w, s.Registered w → w = waker ∨ (s.wake i k waker).Registered w := by
    rintro w (hw | ⟨y, hy, hw⟩)
    · exact .inr (.inl hw)
    · obtain ⟨n, hn⟩ := List.mem_iff_getElem?.mp hy
      by_cases hin : i = n
      · subst hin
        obtain rfl : x = y := Option.some.inj (hx.symm.trans hn)
        by_cases hwk : w = waker
        · exact .inl hwk
        · refine .inr (.inr ⟨_, List.mem_of_getElem? hself, ?_⟩)
          obtain ⟨m, hm⟩ := List.mem_iff_getElem?.mp hw
          have hmk : m ≠ k := by
            rintro rfl
            exact hwk (Option.some.inj (hm.symm.trans hwaker))
          exact List.mem_eraseIdx_iff_getElem?.mpr ⟨m, hmk, hm⟩
      · refine .inr (.inr ⟨y, List.mem_iff_getElem?.mpr ⟨n, ?_⟩, hw⟩)
        simp [System.wake, hin, hn]
  refine ⟨fun r hr hlive => ?_, fun y hy hdropped => ?_, fun hnone => ?_⟩
  · obtain ⟨r', hr', rfl⟩ := List.mem_map.mp hr
    by_cases hwoken : r'.waiting = some waker
    · exact .inl (by simp [hwoken])
    · rcases h.waits r' hr' hlive with htrue | hregistered
      · exact .inl (by simp [htrue])
      · refine .inr fun w hw => (hkeeps w (hregistered w hw)).resolve_left ?_
        rintro rfl
        exact hwoken hw
  · rcases mem_modify hx hy with rfl | hy
    · exact absurd hdropped hphase
    · exact h.dropped y hy hdropped
  · exact absurd hnone (senderCount_pos hself (by simpa using hphase)).ne'

theorem Sound.dropSender (h : s.Sound) (hx : s.senders[i]? = some x)
    (hwaking : x.waking = []) :
    Sound { s with
      state := { s.state with wakers := [] }
      senders := s.senders.set i ⟨.dropping, s.state.wakers⟩ } := by
  have hlt := (List.getElem?_eq_some_iff.mp hx).1
  have hself : (s.senders.set i ⟨.dropping, s.state.wakers⟩)[i]? =
      some ⟨.dropping, s.state.wakers⟩ := by simp [hlt]
  refine h.senders (fun waker hwaker => .inr ?_) (fun y hy hdropped => ?_) ?_
  · rcases hwaker with hwaker | ⟨y, hy, hwaker⟩
    · exact ⟨_, List.mem_of_getElem? hself, hwaker⟩
    · obtain ⟨k, hk⟩ := List.mem_iff_getElem?.mp hy
      have hik : i ≠ k := by
        rintro rfl
        obtain rfl : x = y := Option.some.inj (hx.symm.trans hk)
        simp [hwaking] at hwaker
      refine ⟨y, List.mem_iff_getElem?.mpr ⟨k, ?_⟩, hwaker⟩
      simp [hik, hk]
  · rcases List.mem_or_eq_of_mem_set hy with hy | rfl
    · exact h.dropped y hy hdropped
    · cases hdropped
  · exact List.countP_pos_iff.mpr ⟨_, List.mem_of_getElem? hself, by simp⟩

theorem senderCount_set {y : Sender} (hx : s.senders[i]? = some x) (hphase : x.phase ≠ .dropped)
    (hy : y.phase = .dropped) :
    (s.senders.set i y).countP (fun x => x.phase ≠ .dropped) + 1 = s.senderCount := by
  have hlt := (List.getElem?_eq_some_iff.mp hx).1
  have hget := (List.getElem?_eq_some_iff.mp hx).2
  have hpos : 0 < s.senders.countP fun x => x.phase ≠ .dropped := senderCount_pos hx hphase
  have hbefore : decide (x.phase ≠ .dropped) = true := by simpa using hphase
  have hafter : decide (y.phase ≠ .dropped) = false := by simp [hy]
  rw [List.countP_set hlt, hget, hbefore, hafter, senderCount]
  exact Nat.sub_add_cancel hpos

theorem Sound.releaseSender (h : s.Sound) (hx : s.senders[i]? = some x)
    (hphase : x.phase = .dropping) (hwaking : x.waking = [])
    (hcloses : s.ClosesInTime (.releaseSender i)) :
    Sound { s with senders := s.senders.set i ⟨.dropped, []⟩ } := by
  have hcount := senderCount_set hx (by simp [hphase]) (y := ⟨.dropped, []⟩) rfl
  have hkeeps : ∀ waker, s.Registered waker →
      Registered { s with senders := s.senders.set i ⟨.dropped, []⟩ } waker := by
    rintro waker (hwaker | ⟨y, hy, hwaker⟩)
    · exact .inl hwaker
    · obtain ⟨k, hk⟩ := List.mem_iff_getElem?.mp hy
      have hik : i ≠ k := by
        rintro rfl
        obtain rfl : x = y := Option.some.inj (hx.symm.trans hk)
        simp [hwaking] at hwaker
      refine .inr ⟨y, List.mem_iff_getElem?.mpr ⟨k, ?_⟩, hwaker⟩
      simp [hik, hk]
  have hdropped : ∀ y ∈ s.senders.set i ⟨.dropped, []⟩, y.phase = .dropped → y.waking = [] := by
    intro y hy hdropped
    rcases List.mem_or_eq_of_mem_set hy with hy | rfl
    · exact h.dropped y hy hdropped
    · rfl
  refine ⟨fun r hr hlive => (h.waits r hr hlive).keeps hkeeps, hdropped, ?_⟩
  intro hnone r hr hlive hwaiting
  have hlast : s.senderCount = 1 := by
    have : (s.senders.set i ⟨.dropped, []⟩).countP (fun x => x.phase ≠ .dropped) = 0 := hnone
    omega
  obtain ⟨htaken, halone⟩ := hcloses hlast
  constructor
  · by_contra hwoken
    have hregistered := (h.waits r hr hlive).resolve_left hwoken
    obtain ⟨waker, hwaker⟩ := Option.isSome_iff_exists.mp hwaiting
    rcases hkeeps waker (hregistered waker hwaker) with hmem | ⟨y, hy, hmem⟩
    · have := List.any_eq_false.mp htaken r hr
      simp [hlive, hwoken, hwaker, show waker ∈ s.state.wakers from hmem] at this
    · have hall := List.countP_eq_zero.mp hnone y hy
      rw [hdropped y hy (by simpa using hall)] at hmem
      cases hmem
  · by_cases hversion : r.version = s.state.version
    · refine .inr (halone ?_).le
      exact List.any_eq_true.mpr ⟨r, hr, by simp [hlive, hwaiting, hversion]⟩
    · exact .inl hversion

/-- A receiver changes while the senders stay. -/
theorem Sound.receiver (h : s.Sound) (hr : s.receivers[j]? = some r)
    {state : State α} (hkeeps : ∀ waker, s.Registered waker →
      Registered { s with state := state, receivers := s.receivers.modify j f } waker)
    (hversion : state.version = s.state.version)
    (hcount : s.senderCount = 0 → s.receiverCount ≤ 1 →
      (s.receivers.modify j f).countP Receiver.live ≤ 1)
    (hwaits : (f r).live = true →
      Waits { s with state := state, receivers := s.receivers.modify j f } (f r))
    (hclosed : s.senderCount = 0 → (f r).live = true → (f r).waiting.isSome →
      (f r).woken = true ∧
        Ready { s with state := state, receivers := s.receivers.modify j f } (f r)) :
    Sound { s with state := state, receivers := s.receivers.modify j f } := by
  refine ⟨fun x hx hlive => ?_, h.dropped, fun hnone x hx hlive hwaiting => ?_⟩
  · rcases mem_modify hr hx with rfl | hx
    · exact hwaits hlive
    · exact (h.waits x hx hlive).keeps hkeeps
  · rcases mem_modify hr hx with rfl | hx
    · exact hclosed hnone hlive hwaiting
    · obtain ⟨hwoken, hready⟩ := h.closed hnone x hx hlive hwaiting
      refine ⟨hwoken, hready.imp (fun hne => ?_) fun hle => hcount hnone hle⟩
      exact hversion.symm ▸ hne

theorem countP_modify_le {receivers : List Receiver}
    (hf : ∀ r, (f r).live = true → r.live = true) :
    (receivers.modify j f).countP Receiver.live ≤ receivers.countP Receiver.live := by
  induction receivers generalizing j with
  | nil => simp
  | cons r receivers ih =>
    cases j with
    | zero =>
      simp only [List.modify_zero_cons, List.countP_cons]
      by_cases hlive : (f r).live = true
      · simp [hlive, hf r hlive]
      · simp [hlive]
    | succ j =>
      simp only [List.modify_succ_cons, List.countP_cons]
      exact Nat.add_le_add_right ih _

theorem receiverCount_modify_le (hle : s.receiverCount ≤ 1)
    (hf : ∀ r, (f r).live = true → r.live = true) :
    (s.receivers.modify j f).countP Receiver.live ≤ 1 :=
  (countP_modify_le hf).trans hle

theorem Sound.poll (h : s.Sound) (hr : s.receivers[j]? = some r)
    {waker : ℕ} (hcloses : s.senderCount = 0 → r.version = s.state.version →
      s.receiverCount = 1) : (s.poll j r waker).Sound := by
  unfold System.poll State.pollChanged
  split_ifs with hversion hclosed
  · exact h.receiver hr (fun _ => id) rfl (fun _ hle => receiverCount_modify_le hle fun _ => id)
      (fun _ => .inr nofun) nofun
  · exact h.receiver hr (fun _ => id) rfl (fun _ hle => receiverCount_modify_le hle fun _ => id)
      (fun _ => .inr nofun) nofun
  · refine h.receiver hr (fun w hw => hw.imp_left fun hmem => List.mem_append_left _ hmem) rfl
      (fun _ hle => receiverCount_modify_le hle fun _ => id) (fun _ => .inr ?_) fun hnone => ?_
    · rintro w hw
      obtain rfl : waker = w := by simpa using hw
      exact .inl (List.mem_append_right _ (List.mem_singleton_self _))
    · have hone := hcloses hnone (by simpa using Eq.symm (not_not.mp hversion))
      exact absurd (by rw [strongCount, hnone, hone]) hclosed

theorem Sound.borrowAndUpdate (h : s.Sound) (hr : s.receivers[j]? = some r)
    (hlive : r.live = true) :
    Sound { s with receivers := s.receivers.modify j fun r =>
      { r with
        version := s.state.version
        waiting := if r.version = s.state.version then r.waiting else none } } := by
  have hmem := List.mem_of_getElem? hr
  refine h.receiver hr (fun _ => id) rfl (fun _ hle => ?_) (fun _ => ?_) fun hnone _ => ?_
  · exact receiverCount_modify_le hle fun _ => id
  · split_ifs
    · exact h.waits r hmem hlive
    · exact .inr nofun
  · split_ifs with hversion
    · intro hwaiting
      obtain ⟨hwoken, hready⟩ := h.closed hnone r hmem hlive hwaiting
      refine ⟨hwoken, .inr ?_⟩
      exact receiverCount_modify_le (hready.resolve_left (not_not.mpr hversion)) fun _ => id
    · nofun

theorem Sound.cloneReceiver (h : s.Sound) (hcloses : s.ClosesInTime (.cloneReceiver j))
    (version : UInt64) :
    Sound { s with receivers := s.receivers ++ [⟨version, true, none, false⟩] } := by
  refine ⟨fun x hx hlive => ?_, h.dropped, fun hnone x hx hlive hwaiting => ?_⟩
  · rcases List.mem_append.mp hx with hx | hx
    · exact h.waits x hx hlive
    · rw [List.mem_singleton.mp hx]
      exact .inr nofun
  · rcases List.mem_append.mp hx with hx | hx
    · refine ⟨(h.closed hnone x hx hlive hwaiting).1, .inl fun hversion => ?_⟩
      have := List.any_eq_false.mp (hcloses hnone) x hx
      simp [hlive, hwaiting, hversion] at this
    · rw [List.mem_singleton.mp hx] at hwaiting
      cases hwaiting

theorem Sound.step {a : Label α} (h : s.Sound) (hcloses : s.ClosesInTime a)
    (hstep : s.step a = some t) : t.Sound := by
  cases System.steps hstep with
  | cloneSender => exact h.cloneSender
  | send hx value =>
    obtain ⟨hx, hphase⟩ := sender_eq_some hx
    exact h.send hx hphase value
  | wake hx hwaker => exact h.wake hx hwaker
  | dropSender hx hwaking => exact h.dropSender (sender_eq_some hx).1 hwaking
  | releaseSender hx hwaking =>
    obtain ⟨hx, hphase⟩ := sender_eq_some hx
    exact h.releaseSender hx hphase hwaking hcloses
  | @cloneReceiver j r => exact h.cloneReceiver hcloses r.version
  | exhausted => exact ⟨h.waits, h.dropped, h.closed⟩
  | @poll j r hr => exact h.poll (receiver_eq_some hr).1 fun hnone => hcloses hnone rfl r hr
  | borrowAndUpdate hr =>
    obtain ⟨hr, hlive⟩ := receiver_eq_some hr
    exact h.borrowAndUpdate hr hlive
  | dropReceiver hr =>
    obtain ⟨hr, -⟩ := receiver_eq_some hr
    refine h.receiver hr (fun _ => id) rfl (fun _ hle => ?_) nofun fun _ => nofun
    exact receiverCount_modify_le hle fun _ => nofun

/-- Where the channel closes in time, no receiver stays pending. -/
theorem resolved {init : α} (hs : Reachable System.step ClosesInTime (.new init) s) :
    s.Resolved := by
  have hsound : s.Sound := hs.invariant (Sound.new init) fun _ _ _ h hcloses hstep =>
    h.step hcloses hstep
  intro hnone r hr hlive hwaiting
  obtain ⟨hwoken, hready⟩ := hsound.closed hnone r hr hlive hwaiting
  refine ⟨hwoken, fun waker => ?_⟩
  have hpos : 0 < s.receiverCount := List.countP_pos_iff.mpr ⟨r, hr, hlive⟩
  unfold State.pollChanged
  split_ifs with hversion hclosed
  · nofun
  · nofun
  · have hversion : r.version = s.state.version := (not_not.mp hversion).symm
    have hle := hready.resolve_left (not_not.mpr hversion)
    refine absurd ?_ hclosed
    rw [strongCount, hnone]
    omega

end System

/-- Where both kinds of channel close in time, no receiver stays pending without senders. -/
theorem closed_channels_resolve {β : Type} {capacity : ℕ} {init : β} {b : Broadcast.System α}
    {w : System β} (hcapacity : 0 < capacity)
    (hb : Reachable Broadcast.System.step Broadcast.System.ClosesInTime (.new capacity) b)
    (hw : Reachable System.step System.ClosesInTime (.new init) w) : b.Resolved ∧ w.Resolved :=
  ⟨Broadcast.System.resolved hcapacity hb, System.resolved hw⟩

/-- A broadcast receiver waits when the sender goes, and two watch receivers do. -/
theorem closed_channels_keep_waiting :
    (¬ ∀ s, Reachable Broadcast.System.step anyStep (.new 1 : Broadcast.System ℕ) s →
      s.Resolved) ∧
    ¬ ∀ s, Reachable System.step anyStep (.new 0 : System ℕ) s → s.Resolved := by
  constructor
  · intro h
    have hrun : (run (guarded Broadcast.System.step anyStep) (.new 1 : Broadcast.System ℕ)
        [.poll 0 true 7, .dropSender]).any (fun s => decide (s.senders = 0 ∧
          s.receivers = [⟨0, 0, .live, 0, [], true⟩] ∧
          s.state.receivers = [⟨0, 0, some 7⟩])) = true := by decide +kernel
    obtain ⟨s, hreach, hs⟩ := exists_reachable_of_run hrun
    obtain ⟨hsenders, hreceivers, hslots⟩ := of_decide_eq_true hs
    have hresolves := h s hreach hsenders ⟨0, 0, .live, 0, [], true⟩ (by simp [hreceivers]) rfl rfl
    have := hresolves.woken ⟨0, 0, some 7⟩ (by simp [hslots]) rfl
    cases this
  · intro h
    have hrun : (run (guarded System.step anyStep) (.new 0 : System ℕ)
        [.cloneReceiver 0, .poll 0 true 7, .poll 1 true 8, .dropSender 0, .wake 0 0, .wake 0 0,
          .releaseSender 0]).any (fun s => decide (s.senderCount = 0 ∧ s.strongCount = 2 ∧
          s.state.version = 0 ∧
          s.receivers = [⟨0, true, some 7, true⟩, ⟨0, true, some 8, true⟩])) = true := by
      decide +kernel
    obtain ⟨s, hreach, hs⟩ := exists_reachable_of_run hrun
    obtain ⟨hsenders, hcount, hversion, hreceivers⟩ := of_decide_eq_true hs
    have hresolves := h s hreach hsenders ⟨0, true, some 7, true⟩ (by simp [hreceivers]) rfl rfl
    exact hresolves.next 7 (by simp [State.pollChanged, hcount, hversion])

/-- A broadcast receiver is woken by a send and its sender goes; a single watch receiver waits
until its sender has gone. -/
theorem closed_channels_resolve_woken :
    ∃ (b : Broadcast.System ℕ) (w : System ℕ), b.senders = 0 ∧
      (b.receivers.any fun r => r.waiting) = true ∧ w.senderCount = 0 ∧
      (w.receivers.any fun r => r.waiting.isSome) = true ∧ b.Resolved ∧ w.Resolved := by
  have hb : (run (guarded Broadcast.System.step Broadcast.System.ClosesInTime)
      (.new 1 : Broadcast.System ℕ) [.poll 0 true 7, .send 10, .dropSender]).any (fun s => decide
        (s.senders = 0 ∧ (s.receivers.any fun r => r.waiting) = true)) = true := by
    decide +kernel
  have hw : (run (guarded System.step System.ClosesInTime) (.new 0 : System ℕ)
      [.poll 0 true 7, .dropSender 0, .wake 0 0, .releaseSender 0]).any (fun s => decide
        (s.senderCount = 0 ∧ (s.receivers.any fun r => r.waiting.isSome) = true)) = true := by
    decide +kernel
  obtain ⟨b, hb, hsb⟩ := exists_reachable_of_run hb
  obtain ⟨w, hw, hsw⟩ := exists_reachable_of_run hw
  obtain ⟨hbsenders, hbwaits⟩ := of_decide_eq_true hsb
  obtain ⟨hwsenders, hwwaits⟩ := of_decide_eq_true hsw
  exact ⟨b, w, hbsenders, hbwaits, hwsenders, hwwaits,
    closed_channels_resolve (Nat.one_pos) hb hw⟩

end Eddy.Watch
