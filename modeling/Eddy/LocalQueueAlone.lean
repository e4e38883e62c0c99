import Mathlib.Logic.Relation
import Eddy.LocalQueueInvariant
import Eddy.LocalQueueOverflow

/-!
# Calls on the local queue that nobody interrupts

The whole calls on a queue that nobody else touches are runs of the owner's single accesses: each
of them ends in the same words and slots, and gives out the same items.
-/

namespace Eddy.LocalQueue
open Relation WrappingIndex

variable {T : Type} {cap dstCap : Capacity}

/-- The words and slots, without the history. -/
def Queue.words (q : Queue T) : Local T := ⟨q.head, q.tail, q.buffer⟩

/-- A call of `steal_into` goes on alone. -/
def StealAlone (cap : Capacity) (holder : Option ℕ) :
    Queue T × Thief T → Queue T × Thief T → Prop :=
  ReflTransGen fun x y => stealStep cap holder x.1 x.2 = some y

/-- The owner goes on alone. -/
def OwnerAlone (cap : Capacity) : State T → State T → Prop :=
  ReflTransGen fun s t => step cap s .owner = some t

/-- Thief `i` goes on alone. -/
def ThiefAlone (cap : Capacity) (i : ℕ) : State T → State T → Prop :=
  ReflTransGen fun s t => step cap s (.thief i) = some t

/-- The destination of the thief is this queue. -/
structure Thief.Fills (th : Thief T) (cap : Capacity) (dst : Local T) : Prop where
  holds : ∃ base, dst.Holds cap base th.dst
  room : th.room = cap.size - th.dst.length

variable {q : Queue T} {s : State T} {th : Thief T} {dst dst' words : Local T} {holder : Option ℕ}
  {start : UInt32} {count offset n : ℕ} {value first : T} {item : Option T} {overflow : List T}
  {spill : Bool}

theorem pushBack_alone (howner : s.owner = .pushTail value spill)
    (h : s.queue.words.pushBack cap value = some words) :
    ∃ t, OwnerAlone cap s t ∧ t.owner = .idle ∧ t.queue.words = words ∧
      t.queue.accepted = s.queue.accepted ++ [value] ∧ t.overflow = s.overflow := by
  obtain ⟨q, owner, thieves, overflow⟩ := s
  obtain rfl := howner
  obtain ⟨hroom, hwords⟩ := Option.ite_none_left_eq_some.mp h
  have htail : step cap ⟨q, .pushTail value spill, thieves, overflow⟩ .owner =
    some ⟨q, .pushHead value spill q.tail, thieves, overflow⟩ := rfl
  have hhead : step cap ⟨q, .pushHead value spill q.tail, thieves, overflow⟩ .owner =
    some ⟨q, .pushWrite value spill q.tail, thieves, overflow⟩ := if_neg hroom
  exact ⟨_, .head htail (.head hhead (.head rfl (.single rfl))), rfl, Option.some.inj hwords, rfl,
    rfl⟩

namespace Thief.Fills

theorem availableSpace (h : th.Fills dstCap dst) : dst.availableSpace dstCap = th.room := by
  obtain ⟨base, hholds⟩ := h.holds
  rw [hholds.availableSpace, h.room]

theorem take (h : th.Fills dstCap dst) (hfirst : th.first = some first)
    (hpush : dst.pushBack dstCap value = some dst') (start : UInt32) (count offset : ℕ) :
    (th.take start count offset value).pc = .copy start count (offset + 1) ∧
      (th.take start count offset value).first = some first ∧
      (th.take start count offset value).Fills dstCap dst' := by
  obtain ⟨base, hholds⟩ := h.holds
  have hlt : th.dst.length < dstCap.size := by
    by_contra! hfull
    rw [hholds.pushBack_full (hholds.length.antisymm hfull)] at hpush
    cases hpush
  obtain ⟨dst₁, hpush₁, hdst₁⟩ := hholds.pushBack hlt value
  obtain rfl := Option.some.inj (hpush.symm.trans hpush₁)
  obtain ⟨room, hroom⟩ : ∃ room, th.room = room + 1 :=
    Nat.exists_eq_succ_of_ne_zero (by rw [h.room]; omega)
  have htake : th.take start count offset value =
      { th with
        pc := .copy start count (offset + 1), room := room, dst := th.dst ++ [value] } := by
    simp only [Thief.take, hfirst, hroom]
  rw [htake]
  refine ⟨rfl, hfirst, ⟨base, hdst₁⟩, ?_⟩
  have hleft := h.room
  simp only [List.length_append, List.length_singleton]
  omega

end Thief.Fills

theorem copy_alone (hread : readSlot cap q.buffer (start + UInt32.ofNat offset) = some value)
    (hpc : th.pc = .copy start count offset) (hlt : offset < count) :
    stealStep cap holder q th =
      some ({ q with stolen := q.stolen ++ [value] }, th.take start count offset value) := by
  simp only [stealStep, hpc, if_pos hlt, hread]

theorem copySlots_alone (holder : Option ℕ) (n : ℕ) :
    ∀ {offset : ℕ} {q : Queue T} {th : Thief T} {dst : Local T},
    offset + n = count → th.pc = .copy start count offset → th.first = some first →
    th.Fills dstCap dst →
    Local.copySlots cap dstCap q.buffer start offset n (some first) dst = some (item, dst') →
    ∃ stolen th', StealAlone cap holder (q, th) ({ q with stolen := stolen }, th') ∧
      th'.pc = .copy start count count ∧ th'.first = some first ∧ item = some first ∧
      th'.Fills dstCap dst' := by
  induction n with
  | zero =>
    intro offset q th dst hcount hpc hfirst hfills h
    obtain rfl : offset = count := hcount
    obtain ⟨rfl, rfl⟩ := Prod.mk.inj (Option.some.inj h)
    exact ⟨q.stolen, th, .refl, hpc, hfirst, rfl, hfills⟩
  | succ n ih =>
    intro offset q th dst hcount hpc hfirst hfills h
    obtain ⟨value, hread, hrest⟩ := Option.bind_eq_some_iff.mp h
    obtain ⟨dst₁, hpush, hrest⟩ := Option.bind_eq_some_iff.mp hrest
    obtain ⟨hpc₁, hfirst₁, hfills₁⟩ := hfills.take hfirst hpush start count offset
    obtain ⟨stolen, th', halone, hend⟩ := ih (q := { q with stolen := q.stolen ++ [value] })
      (by omega) hpc₁ hfirst₁ hfills₁ hrest
    exact ⟨stolen, th', .head (copy_alone hread hpc (by omega)) halone, hend⟩

theorem commitRealHead_alone (hpc : th.pc = .commitLoad start count)
    (h : q.words.commitRealHead start (start + UInt32.ofNat count) = some words) :
    ∃ q', StealAlone cap holder (q, th) (q', { th with pc := .finished }) ∧ q'.words = words := by
  by_cases hcommitted : q.realHead = start + UInt32.ofNat count
  · have hload : stealStep cap holder q th = some (q, { th with pc := .finished }) := by
      simp only [stealStep, hpc]
      exact if_pos hcommitted
    exact ⟨q, .single hload, Option.some.inj ((if_pos hcommitted).symm.trans h)⟩
  · have hload : stealStep cap holder q th =
        some (q, { th with pc := .commit start count q.stealHead }) := by
      simp only [stealStep, hpc]
      exact if_neg hcommitted
    obtain ⟨hhead, hwords⟩ := Option.ite_none_right_eq_some.mp ((if_neg hcommitted).symm.trans h)
    exact ⟨_, .head hload (.single (if_pos hhead)), Option.some.inj hwords⟩

theorem claim_alone (holder : Option ℕ) (hpc : th.pc = .copy start (n + 1) 0)
    (hfirst : th.first = none) (hfills : th.Fills dstCap dst)
    (hcopies : Local.copySlots cap dstCap q.buffer start 0 (n + 1) none dst = some (item, dst'))
    (hcommit : q.words.commitRealHead start (start + UInt32.ofNat (n + 1)) = some words) :
    ∃ q' th', StealAlone cap holder (q, th) (q', th') ∧ th'.pc = .finished ∧ th'.first = item ∧
      item ≠ none ∧ th'.Fills dstCap dst' ∧ q'.words = words := by
  obtain ⟨first, hread, hrest⟩ := Option.bind_eq_some_iff.mp hcopies
  have htake : th.take start (n + 1) 0 first =
      { th with pc := .copy start (n + 1) 1, first := some first } := by
    simp only [Thief.take, hfirst]
  have hcopy : stealStep cap holder q th = _ := copy_alone hread hpc n.succ_pos
  rw [htake] at hcopy
  have hfills₀ :
      Thief.Fills { th with pc := .copy start (n + 1) 1, first := some first } dstCap dst :=
    ⟨hfills.holds, hfills.room⟩
  obtain ⟨stolen, th', hcopied, hpc', hfirst', rfl, hfills'⟩ :=
    copySlots_alone holder n (q := { q with stolen := q.stolen ++ [first] }) (Nat.add_comm 1 n) rfl
      rfl hfills₀ hrest
  have hlast : stealStep cap holder { q with stolen := stolen } th' =
      some ({ q with stolen := stolen }, { th' with pc := .commitLoad start (n + 1) }) := by
    simp only [stealStep, hpc', Nat.lt_irrefl, if_false]
  obtain ⟨q', hcommitted, hwords⟩ : ∃ q', StealAlone cap holder
      ({ q with stolen := stolen }, { th' with pc := .commitLoad start (n + 1) })
      (q', { th' with pc := .finished }) ∧ q'.words = words :=
    commitRealHead_alone rfl hcommit
  exact ⟨q', _, .head hcopy (hcopied.trans (.head hlast hcommitted)), rfl, hfirst',
    Option.some_ne_none _, ⟨hfills'.holds, hfills'.room⟩, hwords⟩

/-- A thief that nobody gets in the way of steals what `steal_into` steals. -/
theorem stealInto_alone (holder : Option ℕ) (hpc : th.pc = .loadHead) (hfirst : th.first = none)
    (hfills : th.Fills dstCap dst)
    (h : q.words.stealInto cap dstCap dst = some (item, words, dst')) :
    ∃ q' th', StealAlone cap holder (q, th) (q', th') ∧ th'.pc = .finished ∧ th'.first = item ∧
      th'.Fills dstCap dst' ∧ q'.words = words ∧ (item = none → th'.dst = th.dst) := by
  have hhead : stealStep cap holder q th =
      some (q, { th with pc := .loadTail q.head q.advanced }) := by
    simp only [stealStep, hpc]
  have hmeasured : StealAlone cap holder (q, th)
    (q, { th with pc := .measure q.head q.advanced q.tail }) := .head hhead (.single rfl)
  simp only [Local.stealInto, hfills.availableSpace] at h
  by_cases hempty : (q.tail - q.stealHead).toNat = 0 ∨ (q.tail - q.stealHead).toNat > cap.size
  · obtain ⟨rfl, rfl, rfl⟩ : none = item ∧ q.words = words ∧ dst = dst' := by
      simpa using (if_pos hempty).symm.trans h
    exact ⟨q, _, hmeasured.tail (if_pos hempty), rfl, hfirst, ⟨hfills.holds, hfills.room⟩, rfl,
      fun _ => rfl⟩
  replace h := (if_neg hempty).symm.trans h
  by_cases hroom : th.room = 0
  · obtain ⟨rfl, rfl, rfl⟩ : none = item ∧ q.words = words ∧ dst = dst' := by
      simpa using (if_pos hroom).symm.trans h
    exact ⟨q, _, hmeasured.tail ((if_neg hempty).trans (if_pos hroom)), rfl, hfirst,
      ⟨hfills.holds, hfills.room⟩, rfl, fun _ => rfl⟩
  obtain ⟨n, hcount⟩ : ∃ n, stealCount (q.tail - q.stealHead).toNat th.room = n + 1 :=
    Nat.exists_eq_succ_of_ne_zero (stealCount_pos _ _).ne'
  have hmeasure : stealStep cap holder q { th with pc := .measure q.head q.advanced q.tail } =
      some (q, { th with pc := .claim q.head q.advanced (n + 1) }) := by
    rw [← hcount]
    exact (if_neg hempty).trans (if_neg hroom)
  let claimed : Queue T := { q with
    head := pack (q.stealHead + UInt32.ofNat (n + 1)) q.realHead
    claims := q.claims ++ [⟨holder, q.stealHead, n + 1⟩]
    advanced := q.advanced + (n + 1) }
  have hclaim : stealStep cap holder q { th with pc := .claim q.head q.advanced (n + 1) } =
    some (claimed, { th with pc := .copy q.stealHead (n + 1) 0 }) := if_pos rfl
  replace h := (if_neg hroom).symm.trans h
  obtain ⟨⟨first, dst₁⟩, hcopies, hend⟩ := Option.bind_eq_some_iff.mp h
  obtain ⟨committed, hcommit, hresult⟩ := Option.map_eq_some_iff.mp hend
  obtain ⟨rfl, rfl, rfl⟩ : first = item ∧ committed = words ∧ dst₁ = dst' := by
    simpa using hresult
  rw [show stealCount (q.words.tail - q.words.stealHead).toNat th.room = n + 1 from hcount]
    at hcopies hcommit
  let copying : Thief T := { th with pc := .copy q.stealHead (n + 1) 0 }
  have hcopying : copying.Fills dstCap dst := ⟨hfills.holds, hfills.room⟩
  have hfirst₀ : copying.first = none := hfirst
  obtain ⟨q', th', hclaimed, hpc', hfirst', hsome, hfills', hwords⟩ :=
    claim_alone (q := claimed) holder rfl hfirst₀ hcopying hcopies hcommit
  exact ⟨q', th', (hmeasured.tail hmeasure).trans (.head hclaim hclaimed), hpc', hfirst', hfills',
    hwords, fun hnone => absurd hnone hsome⟩

variable {x y : Queue T × Thief T}

theorem thief_step {i : ℕ} (hi : i < s.thieves.length)
    (h : stealStep cap (some i) x.1 x.2 = some y) :
    step cap { s with queue := x.1, thieves := s.thieves.set i x.2 } (.thief i) =
      some { s with queue := y.1, thieves := s.thieves.set i y.2 } := by
  simp only [step]
  rw [List.getElem?_set_self hi, Option.bind_some, h, Option.map_some, List.set_set]

/-- A call of `steal_into` that nobody interrupts is a run of the thief's accesses. -/
theorem steal_alone {i : ℕ} (hth : s.thieves[i]? = some th) (hpc : th.pc = .loadHead)
    (hfirst : th.first = none) (hfills : th.Fills dstCap dst)
    (h : s.queue.words.stealInto cap dstCap dst = some (item, words, dst')) :
    ∃ t th', ThiefAlone cap i s t ∧ t.thieves[i]? = some th' ∧ th'.pc = .finished ∧
      th'.first = item ∧ th'.Fills dstCap dst' ∧ t.queue.words = words ∧ t.owner = s.owner := by
  obtain ⟨hi, hget⟩ := List.getElem?_eq_some_iff.mp hth
  obtain ⟨q', th', halone, hpc', hfirst', hfills', hwords, -⟩ :=
    stealInto_alone (some i) hpc hfirst hfills h
  have hthieves : s.thieves.set i th = s.thieves := by
    rw [← hget, List.set_getElem_self]
  have hrun : ThiefAlone cap i { s with queue := s.queue, thieves := s.thieves.set i th }
      { s with queue := q', thieves := s.thieves.set i th' } :=
    ReflTransGen.lift (fun x : Queue T × Thief T =>
      ({ s with queue := x.1, thieves := s.thieves.set i x.2 } : State T))
      (fun _ _ hstep => thief_step hi hstep) _ _ halone
  rw [hthieves] at hrun
  exact ⟨_, th', hrun, List.getElem?_set_self hi, hpc', hfirst', hfills', hwords, rfl⟩

/-- A thief that nobody interrupts, and whose destination is empty, returns the oldest item and
moves the next ones of the older half there, as far as they fit; the others stay in their order. -/
theorem steal_moves_older_half {i : ℕ} {base : UInt32} {items : List T}
    (hth : s.thieves[i]? = some th) (hpc : th.pc = .loadHead) (hfirst : th.first = none)
    (hfills : th.Fills dstCap dst) (hempty : dst.Holds dstCap base [])
    (hitems : s.queue.words.Holds cap start (value :: items)) :
    ∃ t th' dst', ThiefAlone cap i s t ∧ t.thieves[i]? = some th' ∧ th'.pc = .finished ∧
      th'.first = some value ∧ th'.Fills dstCap dst' ∧ t.owner = s.owner ∧
      ∃ n, n + 1 = stealCount (items.length + 1) dstCap.size ∧
        dst'.Holds dstCap base (items.take n) ∧
        t.queue.words.Holds cap (start + UInt32.ofNat (n + 1)) (items.drop n) := by
  obtain ⟨n, hcount⟩ : ∃ n, stealCount (items.length + 1) dstCap.size = n + 1 :=
    Nat.exists_eq_succ_of_ne_zero (stealCount_pos _ _).ne'
  have hn : n ≤ items.length := by
    simp only [stealCount] at hcount
    omega
  obtain ⟨words, dst', hsteal, hwords, hdst'⟩ := hitems.stealInto hempty hcount hn
  obtain ⟨t, th', halone, hget, hfinished, htaken, hfills', htwords, howner⟩ :=
    steal_alone hth hpc hfirst hfills hsteal
  exact ⟨t, th', dst', halone, hget, hfinished, htaken, hfills', howner, n, hcount.symm, hdst',
    htwords ▸ hwords⟩

/-- The indices of the full queue wrap around. -/
theorem steal_moves_older_half_wrapping :
    ∃ (t : State ℕ) (th' : Thief ℕ), t.thieves[0]? = some th' ∧ th'.pc = .finished ∧
      th'.first = some 0 ∧ ∃ n start, t.queue.words.Holds localQueueCapacity start
        ((List.range' 1 255).drop n) := by
  have hitems : Local.wrapping.Holds localQueueCapacity 4294967168 (0 :: List.range' 1 255) := by
    have hholds := Local.wrapping_holds
    rwa [List.range_eq_range', show 256 = 255 + 1 from rfl, List.range'_succ] at hholds
  have hfills : (Thief.start 256 : Thief ℕ).Fills localQueueCapacity .new :=
    ⟨⟨0, Local.Holds.new⟩, rfl⟩
  obtain ⟨t, th', dst', -, hget, hpc, hfirst, -, -, n, -, -, hwords⟩ :=
    steal_moves_older_half (s := ⟨⟨Local.wrapping.head, Local.wrapping.tail, Local.wrapping.buffer,
      [], 0, [], [], []⟩, .idle, [Thief.start 256], []⟩) (i := 0) rfl rfl rfl hfills
      Local.Holds.new hitems
  exact ⟨t, th', hget, hpc, hfirst, n, _, hwords⟩

theorem fills_staging {base : UInt32} (h : dst.Holds localQueueCapacity base []) :
    (staging : Thief T).Fills localQueueCapacity dst :=
  ⟨⟨base, h⟩, rfl⟩

theorem spilling_step (h : stealStep cap none x.1 x.2 = some y) :
    step cap { s with queue := x.1, owner := .spilling value x.2 } .owner =
      some { s with queue := y.1, owner := .spilling value y.2 } := by
  simp only [step, ownerStep]
  split
  case h_1 hpc => simp [stealStep, hpc] at h
  case h_2 hpc => simp [stealStep, hpc] at h
  case h_3 => rw [h, Option.map_some]

theorem spilling_alone (h : StealAlone cap none x y) :
    OwnerAlone cap { s with queue := x.1, owner := .spilling value x.2 }
      { s with queue := y.1, owner := .spilling value y.2 } :=
  ReflTransGen.lift (fun x : Queue T × Thief T =>
    ({ s with queue := x.1, owner := .spilling value x.2 } : State T))
    (fun _ _ hstep => spilling_step hstep) _ _ h

theorem spilling_full (howner : s.owner = .pushTail value true)
    (h : s.queue.words.pushBack cap value = none) :
    OwnerAlone cap s { s with owner := .spilling value staging } := by
  obtain ⟨q, owner, thieves, overflow⟩ := s
  obtain rfl := howner
  have hfull : (q.tail - q.realHead).toNat ≥ cap.size := by
    by_contra hroom
    cases (if_neg hroom).symm.trans h
  exact .head rfl (.single (if_pos hfull))

/-- The rounds of `push_overflow` on a queue that no thief touches. -/
theorem overflowLoop_alone (fuel : ℕ) : ∀ {s : State T} {staging : Local T} {base : UInt32},
    s.owner = .pushTail value true → staging.Holds localQueueCapacity base [] →
    Local.overflowLoop value fuel s.queue.words staging s.overflow = some (words, overflow) →
    ∃ t, OwnerAlone localQueueCapacity s t ∧ t.owner = .idle ∧ t.queue.words = words ∧
      t.overflow = overflow := by
  induction fuel with
  | zero =>
    intro s staging base howner hstaging h
    cases h
  | succ fuel ih =>
    intro s staging base howner hstaging h
    rw [Local.overflowLoop] at h
    cases hpush : s.queue.words.pushBack localQueueCapacity value with
    | some pushed =>
      rw [hpush] at h
      obtain ⟨rfl, rfl⟩ := Prod.mk.inj (Option.some.inj h)
      obtain ⟨t, halone, howner', hwords, -, hoverflow⟩ := pushBack_alone howner hpush
      exact ⟨t, halone, howner', hwords, hoverflow⟩
    | none =>
      rw [hpush] at h
      obtain ⟨⟨item, words₁, staging₁⟩, hsteal, hrest⟩ := Option.bind_eq_some_iff.mp h
      obtain ⟨q', th', hstolen, hpc', hfirst', hfills', hwords', hnone⟩ :=
        stealInto_alone none rfl rfl (fills_staging hstaging) hsteal
      obtain ⟨base', hholds'⟩ := hfills'.holds
      have hspills : OwnerAlone localQueueCapacity s
          { s with queue := q', owner := .spilling value th' } := by
        exact (spilling_full howner hpush).trans (spilling_alone hstolen)
      let drained : State T := { s with
        queue := q'
        owner := .pushTail value true
        overflow := s.overflow ++ th'.first.toList ++ th'.dst.reverse }
      have hdrained : step localQueueCapacity { s with queue := q', owner := .spilling value th' }
          .owner = some drained := by
        simp only [step, ownerStep, hpc', drained]
      cases item with
      | none =>
        have hempty : th'.dst = [] := hnone rfl
        rw [hempty] at hholds'
        have hsame : s.overflow = s.overflow ++ th'.first.toList ++ th'.dst.reverse := by
          rw [hfirst', hempty]
          simp
        rw [← hwords', hsame] at hrest
        obtain ⟨t, halone, hend⟩ := ih (s := drained) rfl hholds' hrest
        exact ⟨t, hspills.trans (.head hdrained halone), hend⟩
      | some first =>
        obtain ⟨⟨staging₂, overflow₂⟩, hdrain, hrest⟩ := Option.bind_eq_some_iff.mp hrest
        obtain ⟨staging', base₂, hdrain', hholds₂⟩ := hholds'.drain (localQueueCapacity.size + 1)
          (Nat.lt_succ_of_le hholds'.length) (s.overflow ++ [first])
        obtain ⟨rfl, rfl⟩ := Prod.mk.inj (Option.some.inj (hdrain.symm.trans hdrain'))
        have hsame : s.overflow ++ [first] ++ th'.dst.reverse =
            s.overflow ++ th'.first.toList ++ th'.dst.reverse := by
          rw [hfirst', Option.toList_some]
        rw [← hwords', hsame] at hrest
        obtain ⟨t, halone, hend⟩ := ih (s := drained) rfl hholds₂ hrest
        exact ⟨t, hspills.trans (.head hdrained halone), hend⟩

/-- A call of `push_overflow` that nobody interrupts is a run of the owner's accesses. -/
theorem pushOverflow_alone {fuel : ℕ} (hidle : s.owner = .idle)
    (h : s.queue.words.pushOverflow fuel value s.overflow = some (words, overflow)) :
    ∃ t u, step localQueueCapacity s (.pushOverflow value) = some t ∧
      OwnerAlone localQueueCapacity t u ∧ u.owner = .idle ∧ u.queue.words = words ∧
      u.overflow = overflow := by
  have hstart : step localQueueCapacity s (.pushOverflow value) =
      some { s with owner := .pushTail value true } := by
    simp only [step, hidle]
  obtain ⟨u, halone, hend⟩ :=
    overflowLoop_alone fuel (s := { s with owner := .pushTail value true }) rfl Local.Holds.new h
  exact ⟨_, u, hstart, halone, hend⟩

/-- The queue is full and its indices wrap around: its older half goes through the staging queue to
the overflow list. -/
theorem pushOverflow_alone_wrapping : ∃ (s t u : State ℕ) (words : Local ℕ),
    s.queue.words = Local.wrapping ∧
      step localQueueCapacity s (.pushOverflow 256) = some t ∧ OwnerAlone localQueueCapacity t u ∧
      u.owner = .idle ∧ u.queue.words = words ∧
      words.Holds localQueueCapacity (4294967168 + 128) (List.range' 128 129) ∧
      u.overflow = 0 :: (List.range' 1 127).reverse := by
  have hitems : Local.wrapping.Holds localQueueCapacity 4294967168 (0 :: List.range' 1 255) := by
    have hholds := Local.wrapping_holds
    rwa [List.range_eq_range', show 256 = 255 + 1 from rfl, List.range'_succ] at hholds
  obtain ⟨words, hpush, hwords⟩ :=
    hitems.pushOverflow_full List.length_range' 256 [] (le_refl 2)
  obtain ⟨t, u, hstep, halone, howner, hend, hoverflow⟩ :=
    pushOverflow_alone (s := ⟨⟨Local.wrapping.head, Local.wrapping.tail, Local.wrapping.buffer,
      [], 0, [], [], []⟩, .idle, [], []⟩) rfl hpush
  exact ⟨_, t, u, words, rfl, hstep, halone, howner, hend, hwords, hoverflow⟩

end Eddy.LocalQueue
