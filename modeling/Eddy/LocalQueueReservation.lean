import Eddy.LocalQueueInvariant

/-!
# Reservation and commit without owner pops

The owner pushes, also through `push_overflow`, while any number of thieves steal. The tail
then never moves back, so a thief's tail read stays good until its claim, provided the head
does not run through all `2 ^ 32` indices in between.
-/

namespace Eddy.LocalQueue
open WrappingIndex Interleaving

variable {T : Type} {cap : Capacity} {s t : State T} {p p' : Positions}

/-- No owner pop starts, and a thief about to claim has not been overtaken by `2 ^ 32`
positions since it loaded the head. -/
def Undisturbed (s : State T) (a : Action T) : Prop :=
  (match a with
    | .pop => False
    | _ => True) ∧
  ∀ c ∈ s.pendingClaim a, s.queue.advanced - c.2.1 < 4294967296

instance (s : State T) (a : Action T) : Decidable (Undisturbed s a) := by
  unfold Undisturbed
  cases a <;> infer_instance

/-- What a thief remembers of the head and the tail before its claim. -/
def Thief.Remembers (p : Positions) (th : Thief T) : Prop :=
  match th.pc with
  | .loadTail snapshot seen => ∃ real, snapshot = pack (index seen) real ∧ seen ≤ p.steal
  | .measure snapshot seen tail =>
      ∃ real pos, snapshot = pack (index seen) real ∧ seen ≤ p.steal ∧
        seen ≤ pos ∧ pos ≤ p.tail ∧ tail = index pos
  | .claim snapshot seen count =>
      ∃ real pos, snapshot = pack (index seen) real ∧ seen ≤ p.steal ∧
        seen ≤ pos ∧ pos ≤ p.tail ∧ count ≤ (index pos - index seen).toNat
  | _ => True

theorem Thief.Remembers.mono {th : Thief T} (h : th.Remembers p) (hsteal : p.steal ≤ p'.steal)
    (htail : p.tail ≤ p'.tail) : th.Remembers p' := by
  cases hpc : th.pc <;> simp only [Thief.Remembers, hpc] at h ⊢
  case loadTail snapshot seen =>
    obtain ⟨real, hsnap, hseen⟩ := h
    exact ⟨real, hsnap, hseen.trans hsteal⟩
  case measure snapshot seen tail =>
    obtain ⟨real, pos, hsnap, hseen, hlo, hhi, htl⟩ := h
    exact ⟨real, pos, hsnap, hseen.trans hsteal, hlo, hhi.trans htail, htl⟩
  case claim snapshot seen count =>
    obtain ⟨real, pos, hsnap, hseen, hlo, hhi, hcount⟩ := h
    exact ⟨real, pos, hsnap, hseen.trans hsteal, hlo, hhi.trans htail, hcount⟩

section
variable [DecidableEq T]

/-- The invariant of the queue together with what holds because no pop runs. -/
structure Reserving (cap : Capacity) (s : State T) (p : Positions) : Prop where
  inv : Inv cap s p
  noPop : s.owner.popping = false
  popped : s.queue.popped = []
  remembers : ∀ th ∈ s.thieves, th.Remembers p

namespace Reserving

theorem tail_eq (r : Reserving cap s p) : s.queue.tail = index p.tail := by
  have hlive := r.inv.liveTail_eq
  have hpop := r.noPop
  unfold State.liveTail at hlive
  cases ho : s.owner <;> simp [ho, OwnerPc.popping] at hpop hlive <;> exact hlive

/-- A claim made from a tail that has not moved back fits. -/
theorem claimFits (r : Reserving cap s p) {a : Action T} (ha : Undisturbed s a) :
    ClaimFits cap s a := by
  intro c hc hhead
  have hstall := ha.2 c hc
  have hadv := r.inv.protocol.advanced
  have hspan := r.inv.protocol.span
  have hreal := r.inv.protocol.real_le
  have hsize := cap.size_lt
  cases a <;> simp only [State.pendingClaim, Option.mem_def, reduceCtorEq] at hc
  case thief i =>
    obtain ⟨th, hi, hpend⟩ := Option.bind_eq_some_iff.mp hc
    have hrem := r.remembers th (List.mem_of_getElem? hi)
    cases hpc : th.pc <;> simp only [Thief.pendingClaim, hpc, reduceCtorEq] at hpend
    case claim snapshot seen count =>
      cases hpend
      simp only [Thief.Remembers, hpc] at hrem
      obtain ⟨real, pos, rfl, hseen, hlo, hhi, hcount⟩ := hrem
      simp only at hhead hstall ⊢
      rw [r.inv.protocol.head] at hhead
      obtain rfl := index_inj hseen (by omega) (pack_inj.mp hhead).1.symm
      rw [sub_toNat hlo (by omega)] at hcount
      rw [r.inv.offered_eq]
      omega

theorem remembers_stealStep (r : Reserving cap s p) {i : ℕ} {th th' : Thief T} {q' : Queue T}
    (hi : s.thieves[i]? = some th)
    (hs : stealStep cap (some i) s.queue th = some (q', th')) : th'.Remembers p := by
  have hrem := r.remembers th (List.mem_of_getElem? hi)
  have hsteal := r.inv.protocol.steal_le
  obtain ⟨pc, room, first, dst⟩ := th
  unfold stealStep at hs
  cases pc with
  | loadHead =>
    cases hs
    exact ⟨index p.real, by rw [r.inv.protocol.head, r.inv.protocol.advanced],
      r.inv.protocol.advanced.le⟩
  | loadTail snapshot seen =>
    cases hs
    obtain ⟨real, hsnap, hseen⟩ := hrem
    exact ⟨real, p.tail, hsnap, hseen, hseen.trans hsteal, le_rfl, r.tail_eq⟩
  | measure snapshot seen tail =>
    obtain ⟨real, pos, rfl, hseen, hlo, hhi, rfl⟩ := hrem
    simp only [unpack_pack] at hs
    split_ifs at hs with hnone hroom <;> cases hs
    · trivial
    · trivial
    · exact ⟨real, pos, rfl, hseen, hlo, hhi, stealCount_le_available room (not_or.mp hnone).1⟩
  | copy start count offset =>
    dsimp only at hs
    split_ifs at hs
    · split at hs <;> cases hs
      · trivial
      · unfold Thief.take
        split <;> trivial
    · cases hs
      trivial
  | claim | commitLoad | commit =>
    dsimp only at hs
    split_ifs at hs <;> cases hs <;> trivial
  | finished | panicked => cases hs

end Reserving

omit [DecidableEq T] in
/-- A steal never touches the record of the pops. -/
theorem popped_stealStep {h : Option ℕ} {q q' : Queue T} {th th' : Thief T}
    (hs : stealStep cap h q th = some (q', th')) : q'.popped = q.popped := by
  cases hpc : th.pc <;> simp only [stealStep, hpc, reduceCtorEq] at hs
  case loadHead | loadTail =>
    cases hs
    rfl
  case copy =>
    split_ifs at hs
    · split at hs <;> cases hs <;> rfl
    · cases hs
      rfl
  all_goals split_ifs at hs <;> cases hs <;> rfl

omit [DecidableEq T] in
/-- Outside `pop` the owner neither starts a pop nor records one, and the thieves are left alone. -/
theorem ownerStep_noPop (hpop : s.owner.popping = false) (hs : ownerStep cap s = some t) :
    t.owner.popping = false ∧ t.queue.popped = s.queue.popped ∧ t.thieves = s.thieves := by
  obtain ⟨queue, owner, thieves, overflow⟩ := s
  unfold ownerStep at hs
  cases owner with
  | pushTail | pushWrite | pushStore =>
    cases hs
    exact ⟨rfl, rfl, rfl⟩
  | pushHead value spill tail =>
    dsimp only at hs
    split_ifs at hs <;> cases hs <;> exact ⟨rfl, rfl, rfl⟩
  | spilling value th =>
    dsimp only at hs
    split at hs
    · cases hs
      exact ⟨rfl, rfl, rfl⟩
    · cases hs
      exact ⟨rfl, rfl, rfl⟩
    · obtain ⟨⟨q', th'⟩, hsteal, rfl⟩ := Option.map_eq_some_iff.mp hs
      exact ⟨rfl, popped_stealStep hsteal, rfl⟩
  | idle | panicked => cases hs
  | _ => cases hpop

/-- Without a pop every step keeps what holds because no pop runs. -/
theorem Reserving.step (r : Reserving cap s p) {a : Action T} (ha : Undisturbed s a)
    (hs : LocalQueue.step cap s a = some t) : ∃ p', Reserving cap t p' := by
  obtain ⟨p', inv', hsteal, htail⟩ := r.inv.step (r.claimFits ha) hs
  have htail := htail r.noPop
  have hkeep : ∀ th ∈ s.thieves, th.Remembers p' := fun th hth =>
    (r.remembers th hth).mono hsteal htail
  cases a with
  | push value | pushOverflow value =>
    obtain ⟨queue, owner, thieves, overflow⟩ := s
    cases owner with
    | idle =>
      cases hs
      exact ⟨p', inv', rfl, r.popped, hkeep⟩
    | _ => cases hs
  | pop => exact absurd ha.1 (by simp)
  | owner =>
    obtain ⟨hpop, hpopped, hthieves⟩ := ownerStep_noPop r.noPop hs
    exact ⟨p', inv', hpop, hpopped.trans r.popped, by rwa [hthieves]⟩
  | steal room =>
    cases hs
    refine ⟨p', inv', r.noPop, r.popped, fun th hth => ?_⟩
    rcases List.mem_append.mp hth with hth | hth
    · exact hkeep th hth
    · obtain rfl := List.mem_singleton.mp hth
      trivial
  | thief i =>
    obtain ⟨th, hi, hs⟩ := Option.bind_eq_some_iff.mp hs
    obtain ⟨⟨q', th'⟩, hstep, rfl⟩ := Option.map_eq_some_iff.mp hs
    refine ⟨p', inv', r.noPop, (popped_stealStep hstep).trans r.popped, fun u hu => ?_⟩
    rcases List.mem_or_eq_of_mem_set hu with hu | rfl
    · exact hkeep u hu
    · exact (r.remembers_stealStep hi hstep).mono hsteal htail
  | drain i freed =>
    obtain ⟨th, hi, rfl⟩ := Option.map_eq_some_iff.mp hs
    refine ⟨p', inv', r.noPop, r.popped, fun u hu => ?_⟩
    rcases List.mem_or_eq_of_mem_set hu with hu | rfl
    · exact hkeep u hu
    · exact hkeep th (List.mem_of_getElem? hi)

theorem reachable_reserving (h : Reachable (step cap) Undisturbed State.init s) :
    ∃ p, Reserving cap s p := by
  refine h.invariant (I := fun s => ∃ p, Reserving cap s p)
    ⟨_, inv_init, rfl, rfl, by simp [State.init]⟩ ?_
  rintro s a t ⟨p, r⟩ ha hs
  exact r.step ha hs

end

/-- Each claim starts where the one before it ends, from `a` on and up to `b`. -/
def TilesFrom : UInt32 → List Claim → UInt32 → Prop
  | a, [], b => a = b
  | a, c :: cs, b => c.start = a ∧ 0 < c.count ∧ TilesFrom (a + UInt32.ofNat c.count) cs b

theorem Tiles.tilesFrom {a b : ℕ} {cs : List Claim} (h : Tiles a cs b) :
    TilesFrom (index a) cs (index b) := by
  induction cs generalizing a with
  | nil => exact congrArg index h
  | cons c cs ih =>
    refine ⟨h.1, h.2.1, ?_⟩
    rw [show index a + UInt32.ofNat c.count = index (a + c.count) from index_add _ _]
    exact ih h.2.2

theorem Tiles.sum_count {a b : ℕ} {cs : List Claim} (h : Tiles a cs b) :
    a + (cs.map Claim.count).sum = b := by
  induction cs generalizing a with
  | nil => exact h
  | cons c cs ih =>
    have := ih h.2.2
    simp only [List.map_cons, List.sum_cons]
    omega

/-- The reservation protocol, read off the two words, the outstanding claims, the calls of
`steal_into` in progress and the history. -/
structure Reservation [DecidableEq T] (cap : Capacity) (s : State T) : Prop where
  /-- The outstanding claims tile `[real_head, steal_head)` in claim order, without overlap. -/
  tiles : TilesFrom s.queue.realHead s.queue.claims s.queue.stealHead
  claimed : (s.queue.claims.map Claim.count).sum = (s.queue.stealHead - s.queue.realHead).toNat
  /-- A claim is outstanding while exactly one call is between its claim and its commit. -/
  holders : (s.queue.claims.map Claim.holder).Nodup
  held : ∀ h start count, ⟨h, start, count⟩ ∈ s.queue.claims ↔
    ∃ th, s.calls h = some th ∧ th.claimed = some (start, count)
  /-- `real_head ≤ steal_head ≤ tail`, and they span at most the capacity. -/
  ordered : (s.queue.stealHead - s.queue.realHead).toNat +
    (s.queue.tail - s.queue.stealHead).toNat = (s.queue.tail - s.queue.realHead).toNat
  bounded : (s.queue.tail - s.queue.realHead).toNat ≤ cap.size
  /-- `commit_real_head` never returns early from a claim that has not been committed. -/
  uncommitted : ∀ h th start count, s.calls h = some th → th.claimed = some (start, count) →
    s.queue.realHead ≠ start + UInt32.ofNat count
  /-- `push_back` never writes a slot of an outstanding claim. -/
  disjoint : ∀ value spill tail, s.owner = .pushWrite value spill tail →
    ∀ c ∈ s.queue.claims, ∀ j < c.count,
      cap.slot (c.start + UInt32.ofNat j) ≠ cap.slot tail
  /-- An accepted item has been copied out once, or is about to be copied by the one call
  that claimed it, or is still on offer. -/
  accounted : ∀ x, s.queue.stolen.count x +
    (total (Thief.uncopied cap s.queue.buffer x) s.thieves +
      s.owner.unread cap s.queue.buffer x) +
    occurrences cap s.queue.buffer x s.queue.stealHead
      (s.queue.tail - s.queue.stealHead).toNat = s.queue.accepted.count x

theorem reservation_protocol [DecidableEq T]
    (h : Reachable (step cap) Undisturbed (State.init : State T) s) : Reservation cap s := by
  obtain ⟨p, r⟩ := reachable_reserving h
  have hspan := r.inv.protocol.span
  have hreal := r.inv.protocol.real_le
  have hsteal := r.inv.protocol.steal_le
  have hsize := cap.size_lt
  have hclaimed := sub_toNat hreal (by omega)
  have hoffered := sub_toNat hsteal (by omega)
  have hall := sub_toNat (hreal.trans hsteal) (by omega)
  have htail := r.tail_eq
  refine ⟨?_, ?_, r.inv.protocol.holders, r.inv.protocol.claims_iff, ?_, ?_, ?_, ?_, ?_⟩
  · rw [r.inv.protocol.realHead_eq, r.inv.protocol.stealHead_eq]
    exact r.inv.protocol.tiles.tilesFrom
  · have hsum := r.inv.protocol.tiles.sum_count
    rw [r.inv.protocol.realHead_eq, r.inv.protocol.stealHead_eq, hclaimed]
    omega
  · rw [r.inv.protocol.realHead_eq, r.inv.protocol.stealHead_eq, htail, hclaimed, hoffered, hall]
    omega
  · rw [r.inv.protocol.realHead_eq, htail, hall]
    omega
  · intro holder th start count hc hcl e
    obtain ⟨pos, rfl, hpos, hlo, hhi⟩ := r.inv.protocol.claimed_bounds hc hcl
    rw [r.inv.protocol.realHead_eq, show index pos + UInt32.ofNat count = index (pos + count)
      from index_add _ _] at e
    have := index_inj (by omega) (by omega) e
    omega
  · intro value spill tail ho c hc j hj
    have hown := r.inv.owner
    simp only [ho, OwnerOk] at hown
    obtain ⟨-, rfl, hroom⟩ := hown
    obtain ⟨pos, hstart, -, hlo, hhi⟩ := r.inv.protocol.tiles.mem hc
    rw [hstart, show index pos + UInt32.ofNat j = index (pos + j) from index_add _ _]
    exact slot_ne_tail hroom (by omega) (by omega)
  · intro x
    have hacc := r.inv.accounted x
    rw [r.popped, List.count_nil] at hacc
    rw [r.inv.protocol.stealHead_eq, htail, hoffered]
    omega

/-- A thief claims two of four items, a second thief claims one more, and the owner is about
to write a further item. -/
def overlappingClaims : List (Action ℕ) :=
  pushSteps 0 ++ pushSteps 1 ++ pushSteps 2 ++ pushSteps 3 ++
    [Action.steal 256, .steal 256] ++ List.replicate 4 (Action.thief 0) ++
    List.replicate 4 (Action.thief 1) ++ [Action.push 4, .owner, .owner]

theorem reservation_protocol_two_claims :
    ∃ s, Reachable (step localQueueCapacity) Undisturbed (State.init : State ℕ) s ∧
      s.queue.claims = [⟨some 0, 0, 2⟩, ⟨some 1, 2, 1⟩] ∧ Reservation localQueueCapacity s := by
  obtain ⟨s, hreach, hs⟩ := exists_reachable_of_run
    (show (run (guarded (step localQueueCapacity) Undisturbed) State.init
      overlappingClaims).any (fun s => s.queue.claims = [⟨some 0, 0, 2⟩, ⟨some 1, 2, 1⟩]) = true
      by decide +kernel)
  exact ⟨s, hreach, of_decide_eq_true hs, reservation_protocol hreach⟩

end Eddy.LocalQueue
