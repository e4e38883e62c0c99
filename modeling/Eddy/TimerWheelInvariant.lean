import Eddy.TimerWheel
import Eddy.WordDigits

/-!
# Where the wheel keeps its timers

A timer at a level agrees with `elapsed` above that level and is in a later bucket of it; at
the top level the buckets beyond one turn share the 64 slots. While `advance_to` works its
way down the levels, only those it has passed are in order: `Valid k` says that the levels
from `k` on are.
-/

namespace Eddy.TimerWheel
open WordDigits
open Function (update)

def bucket (level time : ℕ) : ℕ := time / 2 ^ (level * 6)

section
variable {level l e x d t : ℕ}

theorem slotAt_eq (level time : ℕ) : slotAt level time = bucket level time % 64 := by
  rw [slotAt, Nat.shiftRight_eq_div_pow, show slotMask = 2 ^ 6 - 1 from rfl,
    Nat.and_two_pow_sub_one_eq_mod]
  rfl

theorem slotAt_lt (level time : ℕ) : slotAt level time < 64 := by
  rw [slotAt_eq]
  omega

theorem bucket_succ (level time : ℕ) : bucket (level + 1) time = bucket level time / 64 := by
  rw [bucket, bucket, Nat.div_div_eq_div_mul, Nat.add_mul, Nat.pow_add]

theorem bucket_mono (level : ℕ) (h : e ≤ d) : bucket level e ≤ bucket level d :=
  Nat.div_le_div_right h

theorem lt_of_bucket_lt (h : bucket level e < bucket level d) : e < d := by
  by_contra hle
  have := bucket_mono level (Nat.le_of_not_lt hle)
  omega

@[simp] theorem bucket_zero (time : ℕ) : bucket 0 time = time := by simp [bucket]

/-- The level above which a later time and `elapsed` agree. -/
theorem levelFor_spec (w : Wheel) (he : w.elapsed < 2 ^ 64) (hd : d < 2 ^ 64)
    (hlt : w.elapsed < d) :
    w.levelFor d < 6 ∧ bucket (w.levelFor d) w.elapsed < bucket (w.levelFor d) d ∧
      (w.levelFor d < 5 → bucket (w.levelFor d + 1) d = bucket (w.levelFor d + 1) w.elapsed) := by
  let masked := (BitVec.ofNat 64 d ^^^ BitVec.ofNat 64 w.elapsed) ||| BitVec.ofNat 64 slotMask
  have hnat : masked.toNat = (d ^^^ w.elapsed) ||| 63 := by
    simp only [masked, BitVec.toNat_or, BitVec.toNat_xor, BitVec.toNat_ofNat,
      Nat.mod_eq_of_lt he, Nat.mod_eq_of_lt hd]
    rfl
  have hne : masked ≠ 0#64 := by
    intro hzero
    have hle : 63 ≤ (d ^^^ w.elapsed) ||| 63 := Nat.right_le_or
    rw [← hnat, hzero] at hle
    simp at hle
  obtain ⟨hlow, hhigh⟩ := clz_bounds (by decide) hne
  have hlevel : w.levelFor d = min ((63 - masked.clz.toNat) / 6) 5 := rfl
  rw [hnat, show 64 - 1 - masked.clz.toNat = 63 - masked.clz.toNat from rfl] at hlow hhigh
  generalize 63 - masked.clz.toNat = significant at hlow hhigh hlevel
  generalize w.levelFor d = level at hlevel
  refine ⟨by omega, ?_, fun h5 => ?_⟩
  · refine lt_of_le_of_ne (bucket_mono level hlt.le) fun heq => ?_
    rcases Nat.eq_zero_or_pos level with rfl | hpos
    · rw [bucket_zero, bucket_zero] at heq
      omega
    · have hxor : d ^^^ w.elapsed < 2 ^ (level * 6) := xor_lt_two_pow_iff.mpr heq.symm
      have hmask : 63 < 2 ^ (level * 6) :=
        lt_of_lt_of_le (by decide : 63 < 2 ^ 6) (Nat.pow_le_pow_right (by decide) (by omega))
      have hor := Nat.or_lt_two_pow hxor hmask
      have hle : 2 ^ (level * 6) ≤ 2 ^ significant := Nat.pow_le_pow_right (by decide) (by omega)
      omega
  · refine xor_lt_two_pow_iff.mp ?_
    have hle : 2 ^ (significant + 1) ≤ 2 ^ ((level + 1) * 6) :=
      Nat.pow_le_pow_right (by decide) (by omega)
    have hxor : d ^^^ w.elapsed ≤ (d ^^^ w.elapsed) ||| 63 := Nat.left_le_or
    omega

/-- From `current` on to `slot`, around the wheel. -/
def distance (current slot : ℕ) : ℕ :=
  if current < slot then slot - current else slot + 64 - current

variable {current : ℕ} {occupied : BitVec 64}

theorem nextDelta_le_distance {slot : ℕ} (hc : current < 64)
    (hs : slot < 64) (hbit : occupied.getLsbD slot = true) :
    Wheel.nextDelta occupied current ≤ distance current slot := by
  unfold Wheel.nextDelta distance
  by_cases hlast : current < slotCount - 1
  · have hlast' : current < 63 := hlast
    rw [if_pos hlast]
    by_cases hafter : occupied >>> (current + 1) = 0#64
    · have hbehind : slot ≤ current := by
        by_contra hahead
        have hzero := eq_zero_iff_getLsbD.mp hafter (slot - (current + 1)) (by omega)
        rw [BitVec.getLsbD_ushiftRight, Nat.add_sub_cancel' (by omega), hbit] at hzero
        cases hzero
      simp only [hafter, ne_eq, not_true_eq_false, ↓reduceIte]
      rw [if_neg (Nat.not_lt.mpr hbehind)]
      by_cases hlower : occupied &&& ((1#64 <<< current) - 1#64) = 0#64
      · simp only [hlower, not_true_eq_false, ↓reduceIte, slotCount]
        have hzero := eq_zero_iff_getLsbD.mp hlower slot hs
        rw [getLsbD_and_low hs hc, hbit, Bool.true_and, decide_eq_false_iff_not] at hzero
        omega
      · simp only [hlower, not_false_eq_true, ↓reduceIte, slotCount]
        obtain ⟨i, hi, hbit'⟩ := exists_getLsbD hlower
        have hle := ctz_le hbit'
        rw [getLsbD_and_low hi hc, Bool.and_eq_true, decide_eq_true_eq] at hbit'
        rcases Nat.lt_or_ge slot current with hlt | hge
        · have hslot : (occupied &&& ((1#64 <<< current) - 1#64)).getLsbD slot = true := by
            rw [getLsbD_and_low hs hc, hbit]
            simpa using hlt
          have := ctz_le hslot
          omega
        · omega
    · simp only [hafter, ne_eq, not_false_eq_true, ↓reduceIte]
      split_ifs with hahead
      · have hslot : (occupied >>> (current + 1)).getLsbD (slot - (current + 1)) = true := by
          rw [BitVec.getLsbD_ushiftRight, Nat.add_sub_cancel' (by omega), hbit]
        have := ctz_le hslot
        omega
      · obtain ⟨i, hi, hbit'⟩ := exists_getLsbD hafter
        have hle := ctz_le hbit'
        rw [BitVec.getLsbD_ushiftRight] at hbit'
        have := BitVec.lt_of_getLsbD hbit'
        omega
  · rw [if_neg hlast]
    have hlast' : ¬ current < 63 := hlast
    have := ctz_le hbit
    rw [if_neg (by omega)]
    omega

theorem nextDelta_pos (occupied : BitVec 64) (hc : current < 64) :
    0 < Wheel.nextDelta occupied current := by
  unfold Wheel.nextDelta
  by_cases hlast : current < slotCount - 1
  · rw [if_pos hlast]
    by_cases hafter : occupied >>> (current + 1) = 0#64
    · by_cases hlower : occupied &&& ((1#64 <<< current) - 1#64) = 0#64
      · simp [hafter, hlower, slotCount]
      · simp only [hafter, hlower, ne_eq, not_true_eq_false, not_false_eq_true, ↓reduceIte,
          slotCount]
        omega
    · simp [hafter]
  · rw [if_neg hlast]
    exact Nat.succ_pos _

theorem nextDelta_eq_distance (hc : current < 64)
    (hne : occupied ≠ 0#64) : ∃ slot < 64, occupied.getLsbD slot = true ∧
      Wheel.nextDelta occupied current = distance current slot := by
  unfold Wheel.nextDelta distance
  by_cases hlast : current < slotCount - 1
  · have hlast' : current < 63 := hlast
    simp only [if_pos hlast]
    by_cases hafter : occupied >>> (current + 1) = 0#64
    · by_cases hlower : occupied &&& ((1#64 <<< current) - 1#64) = 0#64
      · refine ⟨current, hc, ?_, by simp [hafter, hlower, slotCount]⟩
        obtain ⟨slot, hs, hbit⟩ := exists_getLsbD hne
        have hahead := eq_zero_iff_getLsbD.mp hafter (slot - (current + 1)) (by omega)
        have hbehind := eq_zero_iff_getLsbD.mp hlower slot hs
        rw [getLsbD_and_low hs hc, hbit, Bool.true_and, decide_eq_false_iff_not] at hbehind
        rcases Nat.lt_or_ge current slot with hlt | hge
        · rw [BitVec.getLsbD_ushiftRight, Nat.add_sub_cancel' (by omega), hbit] at hahead
          cases hahead
        · obtain rfl : slot = current := by omega
          exact hbit
      · have hbit := BitVec.getLsbD_true_ctz_of_ne_zero hlower
        have hlt := BitVec.lt_of_getLsbD hbit
        rw [getLsbD_and_low hlt hc, Bool.and_eq_true, decide_eq_true_eq] at hbit
        refine ⟨_, hlt, hbit.1, ?_⟩
        rw [if_neg (not_not.mpr hafter), if_pos hlower, if_neg (by omega), slotCount]
        omega
    · have hbit := BitVec.getLsbD_true_ctz_of_ne_zero hafter
      rw [BitVec.getLsbD_ushiftRight] at hbit
      refine ⟨_, BitVec.lt_of_getLsbD hbit, hbit, ?_⟩
      rw [if_pos hafter, if_pos (by omega)]
      omega
  · have hlast' : ¬ current < 63 := hlast
    have hbit := BitVec.getLsbD_true_ctz_of_ne_zero hne
    have hlt := BitVec.lt_of_getLsbD hbit
    refine ⟨_, hlt, hbit, ?_⟩
    rw [if_neg hlast, if_neg (by omega)]
    omega

/-- The bucket of an occupied slot is not passed over, however many turns away it is. -/
theorem add_nextDelta_le {b n : ℕ}
    (hbit : occupied.getLsbD (n % 64) = true) (hlt : b < n) :
    b + Wheel.nextDelta occupied (b % 64) ≤ n := by
  have hle := nextDelta_le_distance (Nat.mod_lt b (by decide)) (Nat.mod_lt n (by decide)) hbit
  unfold distance at hle
  split_ifs at hle <;> omega

end

structure Level.Sound (level : Level) : Prop where
  nodup : ∀ slot < 64, (level.slots slot).Nodup
  occupied : ∀ slot < 64, level.occupied.getLsbD slot = !(level.slots slot).isEmpty

/-- Where a timer with this deadline may be at a level. `settled` levels have been passed by
`advance_to`. -/
structure Placed (elapsed deadline level : ℕ) (settled : Prop) : Prop where
  le : elapsed ≤ deadline
  above : level < 5 → bucket (level + 1) deadline = bucket (level + 1) elapsed
  later : settled → bucket level elapsed < bucket level deadline

/-- What holds of a timer while it is linked. -/
structure TimerEntry.Kept (entry : TimerEntry) (k elapsed : ℕ) : Prop where
  deadline_lt : entry.deadline < 2 ^ 64
  level_le : entry.level ≤ 6
  slot_eq : entry.level < 6 → entry.slot = slotAt entry.level entry.deadline
  placed : entry.level < 6 → Placed elapsed entry.deadline entry.level (k ≤ entry.level)

/-- A timer is in the list that its node says it is in, and in no other. -/
structure Wheel.Located (w : Wheel) (id : ℕ) : Prop where
  mem_slot : ∀ level < 6, ∀ slot < 64, id ∈ (w.levels level).slots slot ↔
    (w.entries id).linked = true ∧ (w.entries id).level = level ∧ (w.entries id).slot = slot
  mem_pending : id ∈ w.pending ↔ (w.entries id).linked = true ∧ (w.entries id).level = 6

structure Wheel.Valid (k : ℕ) (w : Wheel) : Prop where
  elapsed_lt : w.elapsed < 2 ^ 64
  sound : ∀ level < 6, (w.levels level).Sound
  pending_nodup : w.pending.Nodup
  located : ∀ id, w.Located id
  kept : ∀ id, (w.entries id).linked = true → (w.entries id).Kept k w.elapsed

namespace Level

theorem Sound.new : Level.new.Sound where
  nodup := by simp [Level.new]
  occupied := by simp [Level.new]

theorem Sound.pushBack {level : Level} (h : level.Sound) {slot id : ℕ}
    (hid : id ∉ level.slots slot) : (level.pushBack slot id).Sound where
  nodup := by
    intro s hs
    by_cases hslot : s = slot
    · subst hslot
      simpa [Level.pushBack, List.nodup_append, h.nodup s hs] using fun a ha (heq : a = id) =>
        hid (heq ▸ ha)
    · simpa [Level.pushBack, Function.update_of_ne hslot] using h.nodup s hs
  occupied := by
    intro s hs
    simp only [Level.pushBack]
    rw [getLsbD_or_bit hs, h.occupied s hs]
    by_cases hslot : s = slot
    · subst hslot
      simp
    · simp [hslot]

theorem Sound.clear {level : Level} (h : level.Sound) (slot : ℕ) : (level.clear slot).Sound where
  nodup := by
    intro s hs
    by_cases hslot : s = slot
    · subst hslot
      simp [Level.clear]
    · simpa [Level.clear, Function.update_of_ne hslot] using h.nodup s hs
  occupied := by
    intro s hs
    simp only [Level.clear]
    rw [getLsbD_and_not_bit hs, h.occupied s hs]
    by_cases hslot : s = slot
    · subst hslot
      simp
    · simp [hslot]

theorem Sound.remove {level : Level} (h : level.Sound) (slot id : ℕ) :
    (level.remove slot id).Sound where
  nodup := by
    intro s hs
    by_cases hslot : s = slot
    · subst hslot
      simpa [Level.remove] using (h.nodup s hs).erase id
    · simpa [Level.remove, Function.update_of_ne hslot] using h.nodup s hs
  occupied := by
    intro s hs
    simp only [Level.remove]
    by_cases hslot : s = slot
    · subst hslot
      rw [Function.update_self]
      split
      · rename_i hempty
        rw [getLsbD_and_not_bit hs, hempty]
        simp
      · rename_i hrest
        rw [h.occupied s hs]
        simp only [List.isEmpty_iff] at hrest
        have hne : level.slots s ≠ [] := by
          intro hnil
          simp [hnil] at hrest
        rw [List.isEmpty_eq_false_iff.mpr hne, List.isEmpty_eq_false_iff.mpr hrest]
    · rw [Function.update_of_ne hslot]
      split
      · rw [getLsbD_and_not_bit hs, h.occupied s hs]
        simp [hslot]
      · exact h.occupied s hs

end Level

theorem Placed.weaken {e d l : ℕ} {p q : Prop} (h : Placed e d l p) (hpq : q → p) :
    Placed e d l q :=
  ⟨h.le, h.above, fun hq => h.later (hpq hq)⟩

namespace Wheel
variable {w : Wheel} {k id : ℕ}

def timer (w : Wheel) (id : ℕ) : ℕ × Bool × Option ℕ :=
  ((w.entries id).deadline, (w.entries id).fired, (w.entries id).waker)

variable {w' : Wheel} {now j slot time : ℕ} {ids : List ℕ}

theorem deadline_eq_of_timer (h : w'.timer id = w.timer id) :
    w'.deadline id = w.deadline id := congrArg Prod.fst h

theorem Valid.mono {k' : ℕ} (h : w.Valid k) (hk : k ≤ k') : w.Valid k' :=
  { h with kept := fun j hj =>
      { h.kept j hj with placed := fun hl => ((h.kept j hj).placed hl).weaken hk.trans } }

theorem Valid.new : Wheel.new.Valid k where
  elapsed_lt := by simp [Wheel.new]
  sound := fun _ _ => .new
  pending_nodup := List.nodup_nil
  located := fun id => ⟨by simp [Wheel.new, Level.new], by simp [Wheel.new]⟩
  kept := by simp [Wheel.new]

theorem Valid.not_mem_slot (h : w.Valid k) (hid : (w.entries id).linked = false) {level : ℕ}
    (hl : level < 6) (hs : slot < 64) : id ∉ (w.levels level).slots slot := by
  rw [(h.located id).mem_slot level hl slot hs]
  simp [hid]

theorem Valid.not_mem_pending (h : w.Valid k) (hid : (w.entries id).linked = false) :
    id ∉ w.pending := by
  rw [(h.located id).mem_pending]
  simp [hid]

theorem Valid.pushPending (h : w.Valid k) (hid : (w.entries id).linked = false)
    (hd : w.deadline id < 2 ^ 64) : (w.pushPending id).Valid k := by
  have hself : (w.pushPending id).entries id =
      { w.entries id with level := pendingLevel, linked := true } := Function.update_self ..
  have hother : ∀ j, j ≠ id → (w.pushPending id).entries j = w.entries j :=
    fun j hj => Function.update_of_ne hj ..
  refine ⟨h.elapsed_lt, h.sound, ?_, fun j => ?_, fun j hj => ?_⟩
  · have hnot := h.not_mem_pending hid
    simpa [Wheel.pushPending, List.nodup_append, h.pending_nodup] using
      fun a ha (heq : a = id) => hnot (heq ▸ ha)
  · by_cases hjid : j = id
    · subst hjid
      refine ⟨fun l hl s hs => ?_, ?_⟩
      · have hne : pendingLevel ≠ l := by simp only [pendingLevel, levelCount]; omega
        simp [hself, hne, show (w.pushPending j).levels = w.levels from rfl,
          h.not_mem_slot hid hl hs]
      · simp [Wheel.pushPending, pendingLevel, levelCount]
    · refine ⟨fun l hl s hs => ?_, ?_⟩
      · rw [hother j hjid]
        exact (h.located j).mem_slot l hl s hs
      · rw [hother j hjid, ← (h.located j).mem_pending]
        simp [Wheel.pushPending, hjid]
  · by_cases hjid : j = id
    · subst hjid
      rw [hself]
      exact ⟨hd, le_rfl, fun hl => absurd hl (lt_irrefl 6), fun hl => absurd hl (lt_irrefl 6)⟩
    · rw [hother j hjid] at hj ⊢
      exact h.kept j hj

theorem Valid.link (h : w.Valid k) (hid : (w.entries id).linked = false)
    (hd : w.deadline id < 2 ^ 64) {level : ℕ} (hl : level < 6)
    (hplaced : Placed w.elapsed (w.deadline id) level True) :
    (w.link id level (slotAt level (w.deadline id))).Valid k := by
  have hlt := slotAt_lt level (w.deadline id)
  have hslot : (w.link id level (slotAt level (w.deadline id))).deadline id = w.deadline id := by
    simp [deadline, Wheel.link]
  generalize hs : slotAt level (w.deadline id) = slot at hlt hslot
  have hself : (w.link id level slot).entries id =
      { w.entries id with level := level, slot := slot, linked := true } :=
    Function.update_self ..
  have hother : ∀ j, j ≠ id → (w.link id level slot).entries j = w.entries j :=
    fun j hj => Function.update_of_ne hj ..
  have hmem : ∀ l s j, j ∈ ((w.link id level slot).levels l).slots s ↔
      j ∈ (w.levels l).slots s ∨ (l = level ∧ s = slot ∧ j = id) := by
    intro l s j
    by_cases hll : l = level
    · subst hll
      by_cases hss : s = slot
      · subst hss
        simp [Wheel.link, Level.pushBack]
      · simp [Wheel.link, Level.pushBack, hss]
    · simp [Wheel.link, hll]
  refine ⟨h.elapsed_lt, fun l hl' => ?_, h.pending_nodup, fun j => ?_, fun j hj => ?_⟩
  · by_cases hll : l = level
    · subst hll
      simpa [Wheel.link] using (h.sound l hl).pushBack (h.not_mem_slot hid hl hlt)
    · simpa [Wheel.link, Function.update_of_ne hll] using h.sound l hl'
  · by_cases hjid : j = id
    · subst hjid
      refine ⟨fun l hl' s hs' => ?_, ?_⟩
      · rw [hmem, hself]
        simp [h.not_mem_slot hid hl' hs', eq_comm]
      · rw [hself]
        have hne : level ≠ 6 := by omega
        simp [hne, show (w.link j level slot).pending = w.pending from rfl, h.not_mem_pending hid]
    · refine ⟨fun l hl' s hs' => ?_, ?_⟩
      · rw [hmem, hother j hjid, ← (h.located j).mem_slot l hl' s hs']
        simp [hjid]
      · rw [hother j hjid]
        exact (h.located j).mem_pending
  · by_cases hjid : j = id
    · subst hjid
      rw [hself]
      exact ⟨hd, hl.le, fun _ => hs.symm, fun _ => hplaced.weaken fun _ => trivial⟩
    · rw [hother j hjid] at hj ⊢
      exact h.kept j hj

/-- What is not about a timer's place may change. -/
theorem Valid.setEntries (h : w.Valid k) {entries : ℕ → TimerEntry}
    (hlinked : ∀ j, (entries j).linked = (w.entries j).linked)
    (hnode : ∀ j, (w.entries j).linked = true → (entries j).level = (w.entries j).level ∧
      (entries j).slot = (w.entries j).slot ∧ (entries j).deadline = (w.entries j).deadline) :
    Valid k { w with entries := entries } := by
  refine ⟨h.elapsed_lt, h.sound, h.pending_nodup, fun j => ⟨fun l hl s hs => ?_, ?_⟩, fun j hj => ?_⟩
  · rw [(h.located j).mem_slot l hl s hs, hlinked]
    refine and_congr_right fun hj => ?_
    rw [(hnode j hj).1, (hnode j hj).2.1]
  · rw [(h.located j).mem_pending, hlinked]
    refine and_congr_right fun hj => ?_
    rw [(hnode j hj).1]
  · rw [hlinked] at hj
    obtain ⟨hlevel, hslot, hdeadline⟩ := hnode j hj
    obtain ⟨deadline_lt, level_le, slot_eq, placed⟩ := h.kept j hj
    constructor <;> simp only [hlevel, hslot, hdeadline] <;> assumption

/-- `ids` have been linked, and nothing else has changed. -/
structure Relinks (ids : List ℕ) (w w' : Wheel) : Prop where
  elapsed : w'.elapsed = w.elapsed
  timer : ∀ j, w'.timer j = w.timer j
  linked : ∀ j, (w'.entries j).linked = true ↔ (w.entries j).linked = true ∨ j ∈ ids
  due : ∀ j ∈ w'.pending, j ∈ w.pending ∨ w.deadline j ≤ w.elapsed
  pending : ∀ j ∈ w.pending, j ∈ w'.pending

theorem Relinks.refl (w : Wheel) : Relinks [] w w := by
  constructor <;> simp_all

theorem Relinks.trans {as bs : List ℕ} {w'' : Wheel} (h : Relinks as w w')
    (h' : Relinks bs w' w'') : Relinks (as ++ bs) w w'' where
  elapsed := h'.elapsed.trans h.elapsed
  timer := fun j => (h'.timer j).trans (h.timer j)
  linked := by
    intro j
    rw [h'.linked, h.linked, List.mem_append, or_assoc]
  due := by
    intro j hj
    rcases h'.due j hj with hj | hj
    · exact h.due j hj
    · rw [h.elapsed, deadline_eq_of_timer (h.timer j)] at hj
      exact .inr hj
  pending := fun j hj => h'.pending j (h.pending j hj)

theorem pushPending_relinks (hd : w.deadline id ≤ w.elapsed) :
    Relinks [id] w (w.pushPending id) where
  elapsed := rfl
  timer := by
    intro j
    by_cases hj : j = id
    · subst hj
      simp [timer, pushPending]
    · simp [timer, pushPending, hj]
  linked := by
    intro j
    by_cases hj : j = id
    · subst hj
      simp [pushPending]
    · simp [pushPending, hj]
  due := by
    intro j hj
    rcases List.mem_append.mp hj with hj | hj
    · exact .inl hj
    · obtain rfl := List.mem_singleton.mp hj
      exact .inr hd
  pending := fun j hj => List.mem_append_left _ hj

theorem link_relinks (level slot : ℕ) : Relinks [id] w (w.link id level slot) where
  elapsed := rfl
  timer := by
    intro j
    by_cases hj : j = id
    · subst hj
      simp [timer, link]
    · simp [timer, link, hj]
  linked := by
    intro j
    by_cases hj : j = id
    · subst hj
      simp [link]
    · simp [link, hj]
  due := fun j hj => .inl hj
  pending := fun j hj => hj

theorem insert_relinks (w : Wheel) (id : ℕ) : Relinks [id] w (w.insert id) := by
  unfold insert
  simp only
  split
  · rename_i hd
    exact pushPending_relinks hd
  · exact link_relinks _ _

theorem insert_pending (h : w.elapsed < w.deadline id) : (w.insert id).pending = w.pending := by
  simp only [insert, if_neg (Nat.not_le.mpr h)]
  rfl

theorem Valid.insert (h : w.Valid k) (hid : (w.entries id).linked = false)
    (hd : w.deadline id < 2 ^ 64) : (w.insert id).Valid k := by
  unfold Wheel.insert
  simp only
  split
  · exact h.pushPending hid hd
  · rename_i hlater
    obtain ⟨hlevel, hbucket, habove⟩ := levelFor_spec w h.elapsed_lt hd (Nat.lt_of_not_le hlater)
    exact h.link hid hd hlevel ⟨(Nat.lt_of_not_le hlater).le, habove, fun _ => hbucket⟩

/-- Linking a list of timers one after the other. -/
theorem Valid.foldl_relinks {f : Wheel → ℕ → Wheel} (h : w.Valid k)
    (hnodup : ids.Nodup)
    (hids : ∀ j ∈ ids, (w.entries j).linked = false ∧ w.deadline j < 2 ^ 64)
    (hf : ∀ w' : Wheel, w'.Valid k → w'.elapsed = w.elapsed → (∀ j, w'.timer j = w.timer j) →
      ∀ j ∈ ids, (w'.entries j).linked = false → (f w' j).Valid k ∧ Relinks [j] w' (f w' j)) :
    (ids.foldl f w).Valid k ∧ Relinks ids w (ids.foldl f w) := by
  induction ids generalizing w with
  | nil => exact ⟨h, .refl w⟩
  | cons id ids ih =>
    obtain ⟨hid, hnodup⟩ := List.nodup_cons.mp hnodup
    obtain ⟨hvalid, hone⟩ := hf w h rfl (fun _ => rfl) id (by simp) (hids id (by simp)).1
    obtain ⟨hall, hrest⟩ := ih hvalid hnodup
      (fun j hj => by
        obtain ⟨hun, hlt⟩ := hids j (by simp [hj])
        refine ⟨?_, by rw [deadline_eq_of_timer (hone.timer j)]; exact hlt⟩
        rw [Bool.eq_false_iff, ne_eq, hone.linked]
        have hne : j ≠ id := fun heq => hid (heq ▸ hj)
        simp [hun, hne])
      (fun w' hv helapsed htimer j hj hun =>
        hf w' hv (helapsed.trans hone.elapsed) (fun i => (htimer i).trans (hone.timer i)) j
          (by simp [hj]) hun)
    exact ⟨hall, hone.trans hrest⟩

theorem Valid.mem_takeSlot (h : w.Valid k) {level : ℕ} (hl : level < 6) (hs : slot < 64) :
    j ∈ (w.takeSlot level slot).1 ↔
      (w.entries j).linked = true ∧ (w.entries j).level = level ∧ (w.entries j).slot = slot :=
  (h.located j).mem_slot level hl slot hs

theorem unlinkAll_linked :
    (w.unlinkAll ids j).linked = true ↔ (w.entries j).linked = true ∧ j ∉ ids := by
  unfold unlinkAll
  split <;> simp_all [TimerEntry.unlink]

theorem unlinkAll_of_not_mem (h : j ∉ ids) :
    w.unlinkAll ids j = w.entries j := if_neg h

theorem Valid.takeSlot (h : w.Valid k) {level : ℕ} (hl : level < 6) (hs : slot < 64) :
    (w.takeSlot level slot).2.Valid k := by
  have hids : ∀ j, j ∈ (w.levels level).slots slot ↔ _ := fun j =>
    (h.located j).mem_slot level hl slot hs
  have hmem : ∀ l s j, j ∈ ((w.takeSlot level slot).2.levels l).slots s ↔
      j ∈ (w.levels l).slots s ∧ ¬ (l = level ∧ s = slot) := by
    intro l s j
    by_cases hll : l = level
    · subst hll
      by_cases hss : s = slot
      · subst hss
        simp [Wheel.takeSlot, Level.clear]
      · simp [Wheel.takeSlot, Level.clear, hss]
    · simp [Wheel.takeSlot, hll]
  refine ⟨h.elapsed_lt, fun l hl' => ?_, h.pending_nodup, fun j => ?_, fun j hj => ?_⟩
  · by_cases hll : l = level
    · subst hll
      simpa [Wheel.takeSlot] using (h.sound l hl).clear slot
    · simpa [Wheel.takeSlot, hll] using h.sound l hl'
  · by_cases hin : j ∈ (w.levels level).slots slot
    · obtain ⟨hlinked, hlevel, hslot⟩ := (hids j).mp hin
      have hun : ¬ ((w.takeSlot level slot).2.entries j).linked = true := by
        change ¬ (w.unlinkAll _ j).linked = true
        rw [unlinkAll_linked]
        exact fun hnot => hnot.2 hin
      refine ⟨fun l hl' s hs' => ?_, ?_⟩
      · rw [hmem, (h.located j).mem_slot l hl' s hs', hlevel, hslot]
        constructor
        · rintro ⟨⟨-, rfl, rfl⟩, hnot⟩
          exact absurd ⟨rfl, rfl⟩ hnot
        · exact fun hyes => absurd hyes.1 hun
      · rw [show (w.takeSlot level slot).2.pending = w.pending from rfl, (h.located j).mem_pending,
          hlevel]
        constructor
        · rintro ⟨-, rfl⟩
          omega
        · exact fun hyes => absurd hyes.1 hun
    · have hsame : (w.takeSlot level slot).2.entries j = w.entries j := unlinkAll_of_not_mem hin
      refine ⟨fun l hl' s hs' => ?_, ?_⟩
      · rw [hmem, hsame, ← (h.located j).mem_slot l hl' s hs', and_iff_left_iff_imp]
        rintro hj ⟨rfl, rfl⟩
        exact hin hj
      · rw [hsame]
        exact (h.located j).mem_pending
  · change (w.unlinkAll _ j).linked = true at hj
    obtain ⟨hlinked, hout⟩ := unlinkAll_linked.mp hj
    rw [show (w.takeSlot level slot).2.entries j = w.entries j from unlinkAll_of_not_mem hout]
    exact h.kept j hlinked

/-- With the current slot empty, everything at the level is in a later bucket. -/
theorem Valid.settle (h : w.Valid (k + 1)) (hk : k < 6)
    (hempty : (w.levels k).slots (slotAt k w.elapsed) = []) : w.Valid k := by
  refine { h with kept := fun j hj => { h.kept j hj with placed := fun hl => ?_ } }
  obtain ⟨le, above, later⟩ := (h.kept j hj).placed hl
  refine ⟨le, above, fun hle => ?_⟩
  rcases Nat.lt_or_ge k (w.entries j).level with hlt | hge
  · exact later hlt
  · obtain rfl : k = (w.entries j).level := le_antisymm hle hge
    refine lt_of_le_of_ne (bucket_mono _ le) fun heq => ?_
    have hslot := (h.kept j hj).slot_eq hl
    rw [slotAt_eq, ← heq, ← slotAt_eq] at hslot
    have hmem := ((h.located j).mem_slot _ hl _ (slotAt_lt _ w.elapsed)).mpr ⟨hj, rfl, hslot⟩
    rw [hempty] at hmem
    cases hmem

theorem Valid.currentOccupied_eq (h : w.Valid k) {level : ℕ} (hl : level < 6) :
    w.currentOccupied level = !((w.levels level).slots (slotAt level w.elapsed)).isEmpty := by
  rw [currentOccupied, and_bit_ne_zero (slotAt_lt _ _)]
  exact (h.sound level hl).occupied _ (slotAt_lt _ _)

theorem Valid.relink_slot {f : Wheel → ℕ → Wheel} (h : w.Valid (k + 1)) (hk : k < 6)
    (hf : ∀ w' : Wheel, w'.Valid k → w'.elapsed = w.elapsed → (∀ j, w'.timer j = w.timer j) →
      ∀ j ∈ (w.takeSlot k (slotAt k w.elapsed)).1, (w'.entries j).linked = false →
        (f w' j).Valid k ∧ Relinks [j] w' (f w' j)) :
    ((w.takeSlot k (slotAt k w.elapsed)).1.foldl f (w.takeSlot k (slotAt k w.elapsed)).2).Valid k ∧
      Relinks [] w
        ((w.takeSlot k (slotAt k w.elapsed)).1.foldl f (w.takeSlot k (slotAt k w.elapsed)).2) := by
  have hs := slotAt_lt k w.elapsed
  have htaken : (w.takeSlot k (slotAt k w.elapsed)).2.Valid k :=
    (h.takeSlot hk hs).settle hk (by simp [Wheel.takeSlot, Level.clear])
  have hmem : ∀ j, j ∈ (w.takeSlot k (slotAt k w.elapsed)).1 → (w.entries j).linked = true :=
    fun j hj => ((h.mem_takeSlot hk hs).mp hj).1
  have htimer : ∀ j, (w.takeSlot k (slotAt k w.elapsed)).2.timer j = w.timer j := by
    intro j
    simp only [timer, Wheel.takeSlot, unlinkAll]
    split <;> rfl
  have hlinked : ∀ j, ((w.takeSlot k (slotAt k w.elapsed)).2.entries j).linked = true ↔
      (w.entries j).linked = true ∧ j ∉ (w.takeSlot k (slotAt k w.elapsed)).1 :=
    fun j => unlinkAll_linked
  have hun : ∀ j ∈ (w.takeSlot k (slotAt k w.elapsed)).1,
      ((w.takeSlot k (slotAt k w.elapsed)).2.entries j).linked = false ∧
        (w.takeSlot k (slotAt k w.elapsed)).2.deadline j < 2 ^ 64 := by
    intro j hj
    refine ⟨?_, ?_⟩
    · rw [Bool.eq_false_iff, ne_eq, hlinked]
      exact fun hnot => hnot.2 hj
    · rw [deadline_eq_of_timer (htimer j)]
      exact (h.kept j (hmem j hj)).deadline_lt
  have hnodup : (w.takeSlot k (slotAt k w.elapsed)).1.Nodup := (h.sound k hk).nodup _ hs
  obtain ⟨hvalid, hlink⟩ := htaken.foldl_relinks hnodup hun
    fun w' hv helapsed htimer' => hf w' hv helapsed fun j => (htimer' j).trans (htimer j)
  refine ⟨hvalid, hlink.elapsed, fun j => (hlink.timer j).trans (htimer j), fun j => ?_,
    fun j hj => ?_, hlink.pending⟩
  · rw [hlink.linked, hlinked]
    by_cases hj : j ∈ (w.takeSlot k (slotAt k w.elapsed)).1 <;> simp [hj, hmem]
  · rcases hlink.due j hj with hj | hj
    · exact .inl hj
    · rw [deadline_eq_of_timer (htimer j)] at hj
      exact .inr hj

theorem Valid.cascade (h : w.Valid (k + 1)) (hk : k < 6) :
    (w.cascade k).Valid k ∧ Relinks [] w (w.cascade k) := by
  unfold Wheel.cascade
  split
  · refine h.relink_slot hk fun w' hv _ htimer j hj hun => ⟨hv.insert hun ?_, insert_relinks w' j⟩
    rw [deadline_eq_of_timer (htimer j)]
    exact (h.kept j ((h.mem_takeSlot hk (slotAt_lt _ _)).mp hj).1).deadline_lt
  · rename_i hfree
    rw [h.currentOccupied_eq hk] at hfree
    exact ⟨h.settle hk (by simpa using hfree), .refl w⟩

/-- What is in the current slot of level 0 is due. -/
theorem Valid.deadline_eq_elapsed (h : w.Valid k)
    (hj : j ∈ (w.takeSlot 0 (slotAt 0 w.elapsed)).1) : w.deadline j = w.elapsed := by
  obtain ⟨hlinked, hlevel, hslot⟩ := (h.mem_takeSlot (by decide) (slotAt_lt _ _)).mp hj
  have hkept := h.kept j hlinked
  have hl : (w.entries j).level < 6 := by omega
  have habove := (hkept.placed hl).above (by omega)
  have heq := hkept.slot_eq hl
  rw [hlevel, bucket_succ, bucket_succ, bucket_zero, bucket_zero] at habove
  rw [hslot, hlevel, slotAt_eq, slotAt_eq, bucket_zero, bucket_zero] at heq
  simp only [deadline]
  omega

theorem Valid.expire (h : w.Valid 1) (hnow : w.elapsed ≤ now) :
    (w.expire now).Valid 0 ∧ Relinks [] w (w.expire now) := by
  unfold Wheel.expire
  split
  · refine h.relink_slot (by decide) fun w' hv helapsed htimer j hj hun => ?_
    have hdue := h.deadline_eq_elapsed hj
    have hd := deadline_eq_of_timer (htimer j)
    have hlt : w'.deadline j < 2 ^ 64 := by
      rw [hd, hdue]
      exact h.elapsed_lt
    rw [if_pos (by rw [hd, hdue]; exact hnow)]
    exact ⟨hv.pushPending hun hlt, pushPending_relinks (by rw [hd, hdue, helapsed])⟩
  · rename_i hfree
    rw [h.currentOccupied_eq (by decide)] at hfree
    exact ⟨h.settle (by decide) (by simpa using hfree), .refl w⟩

theorem Valid.process {next : ℕ} (h : Valid 6 { w with elapsed := next }) (hnow : next ≤ now) :
    (w.process now next).Valid 0 ∧ Relinks [] { w with elapsed := next } (w.process now next) := by
  unfold Wheel.process
  simp only [List.foldl_cons, List.foldl_nil]
  obtain ⟨h5, r5⟩ := h.cascade (k := 5) (by decide)
  obtain ⟨h4, r4⟩ := h5.cascade (k := 4) (by decide)
  obtain ⟨h3, r3⟩ := h4.cascade (k := 3) (by decide)
  obtain ⟨h2, r2⟩ := h3.cascade (k := 2) (by decide)
  obtain ⟨h1, r1⟩ := h2.cascade (k := 1) (by decide)
  have r := (((r5.trans r4).trans r3).trans r2).trans r1
  obtain ⟨h0, r0⟩ := h1.expire (r.elapsed.trans_le hnow)
  exact ⟨h0, r.trans r0⟩

/-- A boundary of a level, with the timers of that level beyond it. -/
structure LevelEvent (w : Wheel) (level time : ℕ) : Prop where
  future : w.elapsed < time
  timers : ∃ j, (w.entries j).linked = true ∧ (w.entries j).level = level
  le : ∀ j, (w.entries j).linked = true → (w.entries j).level = level → time ≤ w.deadline j
  later : ∀ j, (w.entries j).linked = true → (w.entries j).level = level →
    ∀ x < time, bucket level x < bucket level (w.deadline j)

theorem Valid.occupied_slot (h : w.Valid k) (hj : (w.entries j).linked = true)
    (hl : (w.entries j).level < 6) :
    (w.levels (w.entries j).level).occupied.getLsbD
      (bucket (w.entries j).level (w.deadline j) % 64) = true := by
  have hslot := (h.kept j hj).slot_eq hl
  have hs := slotAt_lt (w.entries j).level (w.deadline j)
  have hmem := ((h.located j).mem_slot _ hl _ hs).mpr ⟨hj, rfl, hslot⟩
  rw [← slotAt_eq, (h.sound _ hl).occupied _ hs, Bool.not_eq_true', List.isEmpty_eq_false_iff]
  exact List.ne_nil_of_mem hmem

theorem Valid.levelEventAt_none (h : w.Valid k) {level : ℕ} (hl : level < 6)
    (hnone : w.levelEventAt level = none) (j : ℕ) (hj : (w.entries j).linked = true) :
    (w.entries j).level ≠ level := by
  rintro rfl
  have hbit := h.occupied_slot hj hl
  simp only [levelEventAt] at hnone
  split_ifs at hnone with hzero
  rw [hzero] at hbit
  simp at hbit

theorem Valid.mem_of_occupied (h : w.Valid k) {level : ℕ} (hl : level < 6) (hs : slot < 64)
    (hbit : (w.levels level).occupied.getLsbD slot = true) :
    ∃ i, (w.entries i).linked = true ∧ (w.entries i).level = level ∧ (w.entries i).slot = slot := by
  have hoccupied := (h.sound level hl).occupied slot hs
  rw [hbit, eq_comm, Bool.not_eq_true', List.isEmpty_eq_false_iff] at hoccupied
  obtain ⟨i, hi⟩ := List.exists_mem_of_ne_nil _ hoccupied
  exact ⟨i, ((h.located i).mem_slot level hl slot hs).mp hi⟩

def nextBucket (w : Wheel) (level : ℕ) : ℕ :=
  bucket level w.elapsed +
    nextDelta (w.levels level).occupied (bucket level w.elapsed % 64)

theorem Valid.nextBucket_le (h : w.Valid 0) (hj : (w.entries j).linked = true)
    (hl : (w.entries j).level < 6) :
    w.nextBucket (w.entries j).level ≤ bucket (w.entries j).level (w.deadline j) :=
  add_nextDelta_le (h.occupied_slot hj hl) (((h.kept j hj).placed hl).later (Nat.zero_le _))

/-- The first bucket with a timer starts before the deadline of that timer, hence in `u64`. -/
theorem Valid.nextBucket_lt (h : w.Valid 0) {level : ℕ} (hl : level < 6)
    (hne : (w.levels level).occupied ≠ 0#64) :
    w.nextBucket level * 2 ^ (level * 6) < 2 ^ 64 := by
  obtain ⟨slot, hs, hbit⟩ := exists_getLsbD hne
  obtain ⟨i, hi, rfl, -⟩ := h.mem_of_occupied hl hs hbit
  have hstart := (Nat.le_div_iff_mul_le (Nat.two_pow_pos _)).mp (h.nextBucket_le hi hl)
  exact hstart.trans_lt (h.kept i hi).deadline_lt

theorem Valid.saturatingAdd_eq (h : w.Valid 0) {level : ℕ} (hl : level < 6)
    (hne : (w.levels level).occupied ≠ 0#64) :
    saturatingAdd (w.elapsed >>> (level * 6))
      (nextDelta (w.levels level).occupied (slotAt level w.elapsed)) = w.nextBucket level := by
  have hlt := h.nextBucket_lt hl hne
  have hsum : w.nextBucket level ≤ w.nextBucket level * 2 ^ (level * 6) :=
    Nat.le_mul_of_pos_right _ (Nat.two_pow_pos _)
  rw [saturatingAdd, Nat.shiftRight_eq_div_pow, slotAt_eq]
  exact min_eq_left (show w.nextBucket level ≤ 2 ^ 64 - 1 by omega)

/-- The shift loses no bits. -/
theorem Valid.checkedShl_eq (h : w.Valid 0) {level : ℕ} (hl : level < 6)
    (hne : (w.levels level).occupied ≠ 0#64) :
    checkedShl (w.nextBucket level) (level * 6) = some (w.nextBucket level * 2 ^ (level * 6)) := by
  rw [checkedShl, if_pos (by omega), Nat.shiftLeft_eq, Nat.mod_eq_of_lt (h.nextBucket_lt hl hne)]

theorem Valid.levelEventAt_eq (h : w.Valid 0) {level : ℕ} (hl : level < 6)
    (hne : (w.levels level).occupied ≠ 0#64) :
    w.levelEventAt level = some (w.nextBucket level * 2 ^ (level * 6)) := by
  simp only [levelEventAt]
  rw [if_neg hne, h.saturatingAdd_eq hl hne, h.checkedShl_eq hl hne, Option.getD_some]

theorem Valid.levelEventAt_some (h : w.Valid 0) {level : ℕ} (hl : level < 6)
    (hsome : w.levelEventAt level = some time) : LevelEvent w level time := by
  have hne : (w.levels level).occupied ≠ 0#64 := by
    intro hzero
    simp [levelEventAt, hzero] at hsome
  obtain ⟨slot, hs, hbit⟩ := exists_getLsbD hne
  obtain ⟨i, hi, hli, -⟩ := h.mem_of_occupied hl hs hbit
  have htime : w.nextBucket level * 2 ^ (level * 6) = time :=
    Option.some.inj ((h.levelEventAt_eq hl hne).symm.trans hsome)
  have hpos : bucket level w.elapsed < w.nextBucket level :=
    Nat.lt_add_of_pos_right (nextDelta_pos _ (Nat.mod_lt _ (by decide)))
  have hbefore : ∀ x < time, bucket level x < w.nextBucket level := by
    intro x hx
    rw [← htime] at hx
    exact (Nat.div_lt_iff_lt_mul (Nat.two_pow_pos _)).mpr hx
  refine ⟨?_, ⟨i, hi, hli⟩, ?_, fun j hj hlj x hx => ?_⟩
  · by_contra hge
    have hb : w.nextBucket level ≤ bucket level w.elapsed := by
      refine (Nat.le_div_iff_mul_le (Nat.two_pow_pos _)).mpr ?_
      rw [htime]
      exact Nat.le_of_not_lt hge
    omega
  · rintro j hj rfl
    rw [← htime]
    exact (Nat.le_div_iff_mul_le (Nat.two_pow_pos _)).mp (h.nextBucket_le hj hl)
  · subst hlj
    exact lt_of_lt_of_le (hbefore x hx) (h.nextBucket_le hj hl)

/-- The loop of `next_event_at` finds the earliest boundary. -/
theorem foldl_earliest (event : ℕ → Option ℕ) (levels : List ℕ) (first : Option ℕ) :
    let result := levels.foldl (fun next level =>
      match event level with
      | none => next
      | some time => some (next.elim time (min · time))) first
    (result = none ↔ first = none ∧ ∀ level ∈ levels, event level = none) ∧
      ∀ time, result = some time →
        (first = some time ∨ ∃ level ∈ levels, event level = some time) ∧
        (∀ time', first = some time' → time ≤ time') ∧
        ∀ level ∈ levels, ∀ time', event level = some time' → time ≤ time' := by
  induction levels generalizing first with
  | nil =>
    refine ⟨by simp, ?_⟩
    rintro time rfl
    exact ⟨.inl rfl, by simp, by simp⟩
  | cons level levels ih =>
    simp only [List.foldl_cons]
    cases hevent : event level with
    | none =>
      obtain ⟨hnone, hsome⟩ := ih first
      refine ⟨by simp [hnone, hevent], fun time htime => ?_⟩
      obtain ⟨hfrom, hfirst, hrest⟩ := hsome time htime
      refine ⟨hfrom.imp id fun ⟨l, hl, hl'⟩ => ⟨l, by simp [hl], hl'⟩, hfirst, fun l hl => ?_⟩
      rcases List.mem_cons.mp hl with rfl | hl
      · simp [hevent]
      · exact hrest l hl
    | some time' =>
      obtain ⟨hnone, hsome⟩ := ih (some (first.elim time' (min · time')))
      refine ⟨by simp [hnone, hevent], fun time htime => ?_⟩
      obtain ⟨hfrom, hfirst, hrest⟩ := hsome time htime
      have hle := hfirst _ rfl
      refine ⟨?_, fun u hu => ?_, fun l hl u hu => ?_⟩
      · rcases hfrom with hfrom | ⟨l, hl, hl'⟩
        · cases first with
          | none => exact .inr ⟨level, by simp, by rw [hevent]; exact hfrom⟩
          | some u =>
            rw [Option.elim_some, Option.some.injEq] at hfrom
            rcases Nat.le_total u time' with hle | hle
            · exact .inl (by rw [← hfrom, min_eq_left hle])
            · exact .inr ⟨level, by simp, by rw [hevent, ← hfrom, min_eq_right hle]⟩
        · exact .inr ⟨l, by simp [hl], hl'⟩
      · subst hu
        exact hle.trans (min_le_left u time')
      · rcases List.mem_cons.mp hl with rfl | hl
        · rw [hevent] at hu
          obtain rfl := Option.some.inj hu
          cases first with
          | none => exact hle
          | some v => exact hle.trans (min_le_right v time')
        · exact hrest l hl u hu

theorem Valid.nextEventAt_none (h : w.Valid k) (hnone : w.nextEventAt = none) :
    w.pending = [] ∧ ∀ j, (w.entries j).linked = false := by
  unfold nextEventAt at hnone
  split_ifs at hnone with hpending
  have hempty : w.pending = [] := by simpa using hpending
  refine ⟨hempty, fun j => ?_⟩
  by_contra hj
  rw [Bool.not_eq_false] at hj
  have hlevels := ((foldl_earliest w.levelEventAt (List.range levelCount) none).1.mp hnone).2
  have hle := (h.kept j hj).level_le
  rcases Nat.lt_or_ge (w.entries j).level 6 with hlt | hge
  · exact h.levelEventAt_none hlt (hlevels _ (List.mem_range.mpr hlt)) j hj rfl
  · have hmem := (h.located j).mem_pending.mpr ⟨hj, by omega⟩
    rw [hempty] at hmem
    cases hmem

theorem Valid.level_lt (h : w.Valid k) (hempty : w.pending = [])
    (hlinked : (w.entries id).linked = true) : (w.entries id).level < 6 := by
  refine lt_of_le_of_ne (h.kept id hlinked).level_le fun hpending => ?_
  have hmem := (h.located id).mem_pending.mpr ⟨hlinked, hpending⟩
  rw [hempty] at hmem
  cases hmem

theorem Valid.nextEventAt_some (h : w.Valid 0) (hempty : w.pending = [])
    (hsome : w.nextEventAt = some time) :
    w.elapsed < time ∧ (∃ j, (w.entries j).linked = true ∧ time ≤ w.deadline j) ∧
      ∀ j, (w.entries j).linked = true → (w.entries j).level < 6 ∧ time ≤ w.deadline j ∧
        ∀ x < time, bucket (w.entries j).level x < bucket (w.entries j).level (w.deadline j) := by
  unfold nextEventAt at hsome
  rw [if_neg (by simp [hempty])] at hsome
  obtain ⟨hfrom, -, hrest⟩ :=
    (foldl_earliest w.levelEventAt (List.range levelCount) none).2 time hsome
  obtain ⟨level, hl, hevent⟩ := hfrom.resolve_left (by simp)
  have hat := h.levelEventAt_some (List.mem_range.mp hl) hevent
  obtain ⟨i, hi, hli⟩ := hat.timers
  refine ⟨hat.future, ⟨i, hi, hat.le i hi hli⟩, fun j hj => ?_⟩
  have hlj := h.level_lt hempty hj
  cases hej : w.levelEventAt (w.entries j).level with
  | none => exact absurd rfl (h.levelEventAt_none hlj hej j hj)
  | some time' =>
    have hle := hrest _ (List.mem_range.mpr hlj) time' hej
    have hat' := h.levelEventAt_some hlj hej
    exact ⟨hlj, hle.trans (hat'.le j hj rfl), fun x hx => hat'.later j hj rfl x (hx.trans_le hle)⟩

def eventOf (w : Wheel) (id : ℕ) : ℕ :=
  let level := (w.entries id).level
  (bucket level w.elapsed + distance (bucket level w.elapsed % 64) (w.entries id).slot) *
    2 ^ (level * 6)

theorem eventOf_congr (helapsed : w'.elapsed = w.elapsed)
    (hentry : w'.entries id = w.entries id) : w'.eventOf id = w.eventOf id := by
  unfold eventOf
  rw [helapsed, hentry]

theorem Valid.nextEventAt_le (h : w.Valid 0) (hempty : w.pending = [])
    (hlinked : (w.entries id).linked = true) :
    ∃ time ≤ w.eventOf id, w.nextEventAt = some time := by
  have hl := h.level_lt hempty hlinked
  have hslot := (h.kept id hlinked).slot_eq hl
  have hbit := h.occupied_slot hlinked hl
  rw [← slotAt_eq, deadline, ← hslot] at hbit
  have hne : (w.levels (w.entries id).level).occupied ≠ 0#64 := by
    intro hzero
    rw [hzero] at hbit
    simp at hbit
  have hevent := h.levelEventAt_eq hl hne
  have hs : (w.entries id).slot < 64 := by
    rw [hslot]
    exact slotAt_lt _ _
  have hcurrent : bucket (w.entries id).level w.elapsed % 64 < 64 := Nat.mod_lt _ (by decide)
  have hdelta := nextDelta_le_distance hcurrent hs hbit
  have hle : w.nextBucket (w.entries id).level * 2 ^ ((w.entries id).level * 6) ≤ w.eventOf id :=
    Nat.mul_le_mul_right _ (Nat.add_le_add_left hdelta _)
  obtain ⟨hnone, hsome⟩ := foldl_earliest w.levelEventAt (List.range levelCount) none
  cases hnext : w.nextEventAt with
  | none =>
    have := (h.nextEventAt_none hnext).2 id
    rw [hlinked] at this
    cases this
  | some time =>
    unfold nextEventAt at hnext
    rw [if_neg (by simp [hempty])] at hnext
    exact ⟨time, ((hsome time hnext).2.2 _ (List.mem_range.mpr hl) _ hevent).trans hle, rfl⟩

theorem Valid.exists_eventOf (h : w.Valid 0) (hempty : w.pending = [])
    (hnext : w.nextEventAt = some time) :
    ∃ j, (w.entries j).linked = true ∧ w.eventOf j = time := by
  unfold nextEventAt at hnext
  rw [if_neg (by simp [hempty])] at hnext
  obtain ⟨hfrom, -⟩ := (foldl_earliest w.levelEventAt (List.range levelCount) none).2 time hnext
  obtain ⟨level, hmem, hevent⟩ := hfrom.resolve_left (by simp)
  have hl : level < 6 := List.mem_range.mp hmem
  have hne : (w.levels level).occupied ≠ 0#64 := by
    intro hzero
    simp [levelEventAt, hzero] at hevent
  have htime := Option.some.inj ((h.levelEventAt_eq hl hne).symm.trans hevent)
  have hcurrent : bucket level w.elapsed % 64 < 64 := Nat.mod_lt _ (by decide)
  obtain ⟨slot, hs, hbit, hdelta⟩ := nextDelta_eq_distance hcurrent hne
  obtain ⟨j, hj, rfl, rfl⟩ := h.mem_of_occupied hl hs hbit
  refine ⟨j, hj, ?_⟩
  rw [← htime, nextBucket, hdelta]
  rfl

theorem Valid.setElapsed (h : w.Valid 0) {x : ℕ} (hlt : x < 2 ^ 64) (hle : w.elapsed ≤ x)
    (hx : ∀ j, (w.entries j).linked = true → (w.entries j).level < 6 → x ≤ w.deadline j ∧
      (k ≤ (w.entries j).level →
        bucket (w.entries j).level x < bucket (w.entries j).level (w.deadline j))) :
    Valid k { w with elapsed := x } := by
  refine ⟨hlt, h.sound, h.pending_nodup, fun j => ⟨(h.located j).mem_slot, (h.located j).mem_pending⟩,
    fun j hj => { h.kept j hj with placed := fun hl => ?_ }⟩
  obtain ⟨hxd, hlater⟩ := hx j hj hl
  refine ⟨hxd, fun h5 => ?_, hlater⟩
  have habove := ((h.kept j hj).placed hl).above h5
  exact habove.trans (div_eq_of_between habove hle hxd).symm

structure SameTimers (w w' : Wheel) : Prop where
  timer : ∀ j, w'.timer j = w.timer j
  linked : ∀ j, (w'.entries j).linked = (w.entries j).linked

theorem SameTimers.trans {w'' : Wheel} (h : SameTimers w w') (h' : SameTimers w' w'') :
    SameTimers w w'' :=
  ⟨fun j => (h'.timer j).trans (h.timer j), fun j => (h'.linked j).trans (h.linked j)⟩

theorem SameTimers.deadline (h : SameTimers w w') (j : ℕ) :
    w'.deadline j = w.deadline j := deadline_eq_of_timer (h.timer j)

theorem Relinks.sameTimers (h : Relinks [] w w') : SameTimers w w' where
  timer := h.timer
  linked := by
    intro j
    rw [Bool.eq_iff_iff, h.linked]
    simp

/-- Where `advance_to` stops: at the first deadline that is not after `now`, with everything
due then in `pending`, or at `now` if there is none. -/
inductive Stops (w w' : Wheel) (now : ℕ) : Prop where
  | arrived (elapsed : w'.elapsed = now) (pending : w'.pending = [])
      (later : ∀ j, (w.entries j).linked = true → now < w.deadline j)
  | due (passed : w.elapsed < w'.elapsed) (le : w'.elapsed ≤ now) (some : w'.pending ≠ [])
      (first : ∀ j, (w.entries j).linked = true → w'.elapsed ≤ w.deadline j)
      (pending : ∀ j, j ∈ w'.pending ↔
        (w.entries j).linked = true ∧ w.deadline j = w'.elapsed)

theorem Stops.of_sameTimers {w₁ : Wheel} (h : Stops w₁ w' now) (hsame : SameTimers w w₁)
    (hle : w.elapsed ≤ w₁.elapsed) : Stops w w' now := by
  cases h with
  | arrived elapsed pending later =>
    exact .arrived elapsed pending fun j hj => by
      rw [← hsame.deadline]
      exact later j (by rw [hsame.linked]; exact hj)
  | due passed le some first pending =>
    refine .due (hle.trans_lt passed) le some (fun j hj => ?_) fun j => ?_
    · rw [← hsame.deadline]
      exact first j (by rw [hsame.linked]; exact hj)
    · rw [pending, hsame.linked, hsame.deadline]

/-- The boundaries up to which nothing happens. -/
theorem Valid.idle (h : w.Valid 0) {x : ℕ} (hempty : w.pending = []) (hle : w.elapsed ≤ x)
    (hlt : x < 2 ^ 64) (hnext : ∀ time, w.nextEventAt = some time → x < time) :
    Valid 0 { w with elapsed := x } ∧ ∀ j, (w.entries j).linked = true → x < w.deadline j := by
  have hlater : ∀ j, (w.entries j).linked = true → x < w.deadline j ∧
      bucket (w.entries j).level x < bucket (w.entries j).level (w.deadline j) := by
    intro j hj
    cases hevent : w.nextEventAt with
    | none => simp [(h.nextEventAt_none hevent).2 j] at hj
    | some time =>
      obtain ⟨-, htime, hbefore⟩ := (h.nextEventAt_some hempty hevent).2.2 j hj
      exact ⟨(hnext time hevent).trans_le htime, hbefore x (hnext time hevent)⟩
  exact ⟨h.setElapsed hlt hle fun j hj _ => ⟨(hlater j hj).1.le, fun _ => (hlater j hj).2⟩,
    fun j hj => (hlater j hj).1⟩

/-- At a boundary, everything due is moved to `pending` and everything else is placed anew. -/
theorem Valid.boundary (h : w.Valid 0) (hempty : w.pending = [])
    (hsome : w.nextEventAt = some time) (hnow : time ≤ now) :
    (w.process now time).Valid 0 ∧ SameTimers w (w.process now time) ∧
      (w.process now time).elapsed = time ∧ ∀ j, j ∈ (w.process now time).pending ↔
        (w.entries j).linked = true ∧ w.deadline j = time := by
  obtain ⟨hfuture, ⟨i, hi, hti⟩, hlinked⟩ := h.nextEventAt_some hempty hsome
  have hready : Valid 6 { w with elapsed := time } :=
    h.setElapsed (hti.trans_lt (h.kept i hi).deadline_lt) hfuture.le fun j hj hl =>
      ⟨(hlinked j hj).2.1, fun h6 => absurd hl (Nat.not_lt.mpr h6)⟩
  obtain ⟨hvalid, hmoved⟩ := hready.process hnow
  have hsame : SameTimers w (w.process now time) := ⟨hmoved.timer, hmoved.sameTimers.linked⟩
  have helapsed : (w.process now time).elapsed = time := hmoved.elapsed
  refine ⟨hvalid, hsame, helapsed, fun j => ⟨fun hj => ?_, fun ⟨hj, hdue⟩ => ?_⟩⟩
  · have hl := ((hvalid.located j).mem_pending.mp hj).1
    rw [hsame.linked] at hl
    refine ⟨hl, le_antisymm ?_ (hlinked j hl).2.1⟩
    rcases hmoved.due j hj with hold | hdue
    · rw [show ({ w with elapsed := time } : Wheel).pending = [] from hempty] at hold
      cases hold
    · exact hdue
  · have hj' : ((w.process now time).entries j).linked = true := by rw [hsame.linked]; exact hj
    have hkept := hvalid.kept j hj'
    refine (hvalid.located j).mem_pending.mpr ⟨hj', ?_⟩
    by_contra hne
    have hl := lt_of_le_of_ne hkept.level_le hne
    have hlt := lt_of_bucket_lt ((hkept.placed hl).later (Nat.zero_le _))
    have hd := hsame.deadline j
    rw [helapsed] at hlt
    simp only [Wheel.deadline] at hd hdue
    omega

theorem Valid.advanceLoop {fuel : ℕ} (h : w.Valid 0) (hempty : w.pending = [])
    (hle : w.elapsed ≤ now) (hnow : now < 2 ^ 64) (hfuel : now - w.elapsed < fuel) :
    ∃ w', Wheel.advanceLoop now fuel w = some w' ∧ w'.Valid 0 ∧ SameTimers w w' ∧
      Stops w w' now := by
  induction fuel generalizing w with
  | zero => omega
  | succ fuel ih =>
    have harrive : (∀ time, w.nextEventAt = some time → now < time) →
        Valid 0 { w with elapsed := now } ∧ SameTimers w { w with elapsed := now } ∧
          Stops w { w with elapsed := now } now := by
      intro hnext
      obtain ⟨hvalid, hlater⟩ := h.idle hempty hle hnow hnext
      exact ⟨hvalid, ⟨fun _ => rfl, fun _ => rfl⟩, .arrived rfl hempty hlater⟩
    rw [Wheel.advanceLoop]
    cases hevent : w.nextEventAt with
    | none => exact ⟨_, rfl, harrive (by simp [hevent])⟩
    | some time =>
      simp only
      split_ifs with hbeyond hpending hnone
      · refine ⟨_, rfl, harrive fun time' htime' => ?_⟩
        rw [hevent] at htime'
        obtain rfl := Option.some.inj htime'
        exact hbeyond
      all_goals
        have hle : time ≤ now := Nat.le_of_not_lt hbeyond
        obtain ⟨hvalid, hsame, helapsed, hdue⟩ := h.boundary hempty hevent hle
        obtain ⟨hfuture, -, hlinked⟩ := h.nextEventAt_some hempty hevent
      · refine ⟨_, rfl, hvalid, hsame, .due ?_ ?_ ?_ (fun j hj => ?_) fun j => ?_⟩
        · rw [helapsed]
          exact hfuture
        · rw [helapsed]
          exact hle
        · simpa using hpending
        · rw [helapsed]
          exact (hlinked j hj).2.1
        · rw [helapsed]
          exact hdue j
      · have hempty' : (w.process now time).pending = [] := by simpa using hpending
        have hnone' : (w.process now time).nextEventAt = none := by simpa using hnone
        have hgone := (hvalid.nextEventAt_none hnone').2
        refine ⟨_, rfl, ?_, hsame.trans ⟨fun _ => rfl, fun _ => rfl⟩, .arrived rfl hempty' ?_⟩
        · refine (hvalid.idle hempty' ?_ hnow (by simp [hnone'])).1
          rw [helapsed]
          exact hle
        · intro j hj
          rw [← hsame.linked, hgone j] at hj
          cases hj
      · have hempty' : (w.process now time).pending = [] := by simpa using hpending
        obtain ⟨w', hrun, hvalid', hsame', hstops⟩ := ih hvalid hempty'
          (by rw [helapsed]; exact hle) (by rw [helapsed]; omega)
        exact ⟨w', hrun, hvalid', hsame.trans hsame',
          hstops.of_sameTimers hsame (by rw [helapsed]; exact hfuture.le)⟩

/-- `advance_to` returns. -/
theorem Valid.advanceTo (h : w.Valid 0) (hempty : w.pending = [])
    (hlt : w.elapsed < now) (hnow : now < 2 ^ 64) :
    ∃ w', w.advanceTo now = some w' ∧ w'.Valid 0 ∧ SameTimers w w' ∧ Stops w w' now := by
  rw [Wheel.advanceTo, if_neg (Nat.not_le.mpr hlt)]
  exact h.advanceLoop hempty hlt.le hnow (Nat.lt_succ_self _)

/-- It returns at once as long as `pending` has not been taken. -/
theorem Valid.advanceTo_pending (h : w.Valid 0) (hpending : w.pending ≠ [])
    (hlt : w.elapsed < now) :
    ∃ w', w.advanceTo now = some w' ∧ w'.Valid 0 ∧ Relinks [] w w' := by
  have hevent : w.nextEventAt = some w.elapsed := by
    rw [nextEventAt, if_pos (by simpa using hpending)]
  have hready : Valid 6 { w with elapsed := w.elapsed } := h.mono (Nat.zero_le 6)
  obtain ⟨hvalid, hmoved⟩ := hready.process hlt.le
  have hkept : (w.process now w.elapsed).pending ≠ [] := by
    obtain ⟨j, hj⟩ := List.exists_mem_of_ne_nil _ hpending
    exact List.ne_nil_of_mem (hmoved.pending j hj)
  refine ⟨w.process now w.elapsed, ?_, hvalid, hmoved⟩
  rw [Wheel.advanceTo, if_neg (Nat.not_le.mpr hlt), Wheel.advanceLoop, hevent]
  simp only
  rw [if_neg (Nat.not_lt.mpr hlt.le), if_pos (by simpa using hkept)]

theorem Valid.takePending (h : w.Valid k) : w.takePending.2.Valid k := by
  refine ⟨h.elapsed_lt, h.sound, List.nodup_nil, fun j => ?_, fun j hj => ?_⟩
  · by_cases hin : j ∈ w.pending
    · obtain ⟨hlinked, hlevel⟩ := (h.located j).mem_pending.mp hin
      have hun : ¬ (w.takePending.2.entries j).linked = true := by
        change ¬ (w.unlinkAll _ j).linked = true
        rw [unlinkAll_linked]
        exact fun hnot => hnot.2 hin
      refine ⟨fun l hl s hs => ?_, ?_⟩
      · rw [show w.takePending.2.levels = w.levels from rfl, (h.located j).mem_slot l hl s hs, hlevel]
        constructor
        · rintro ⟨-, rfl, -⟩
          omega
        · exact fun hyes => absurd hyes.1 hun
      · simp [Wheel.takePending, unlinkAll, hin, TimerEntry.unlink]
    · have hsame : w.takePending.2.entries j = w.entries j := unlinkAll_of_not_mem hin
      refine ⟨fun l hl s hs => ?_, ?_⟩
      · rw [hsame]
        exact (h.located j).mem_slot l hl s hs
      · rw [hsame, ← (h.located j).mem_pending]
        simp [Wheel.takePending, hin]
  · change (w.unlinkAll _ j).linked = true at hj
    obtain ⟨hlinked, hout⟩ := unlinkAll_linked.mp hj
    rw [show w.takePending.2.entries j = w.entries j from unlinkAll_of_not_mem hout]
    exact h.kept j hlinked

/-- A timer leaves the list it is in. -/
theorem Valid.unlink (h : w.Valid k) {levels : ℕ → Level} {pending : List ℕ}
    (hsound : ∀ level < 6, (levels level).Sound) (hnodup : pending.Nodup)
    (hslot : ∀ level < 6, ∀ slot < 64, ∀ j,
      j ∈ (levels level).slots slot ↔ j ∈ (w.levels level).slots slot ∧ j ≠ id)
    (hpending : ∀ j, j ∈ pending ↔ j ∈ w.pending ∧ j ≠ id) :
    Valid k { w with
      levels := levels
      pending := pending
      entries := update w.entries id (w.entries id).unlink } := by
  refine ⟨h.elapsed_lt, hsound, hnodup, fun j => ?_, fun j hj => ?_⟩
  · by_cases hjid : j = id
    · subst hjid
      refine ⟨fun l hl s hs => ?_, ?_⟩
      · rw [hslot l hl s hs]
        simp [TimerEntry.unlink]
      · rw [hpending]
        simp [TimerEntry.unlink]
    · refine ⟨fun l hl s hs => ?_, ?_⟩
      · rw [hslot l hl s hs, (h.located j).mem_slot l hl s hs]
        simp [hjid]
      · rw [hpending, (h.located j).mem_pending]
        simp [hjid]
  · by_cases hjid : j = id
    · subst hjid
      simp [TimerEntry.unlink] at hj
    · simp only [Function.update_of_ne hjid] at hj ⊢
      exact h.kept j hj

/-- `remove` unlinks a timer that is linked. -/
theorem Valid.remove (h : w.Valid k) (id : ℕ) :
    (w.remove id).2.Valid k ∧ (w.remove id).1 = (w.entries id).linked ∧
      (w.remove id).2.elapsed = w.elapsed ∧
      (∀ j ∈ (w.remove id).2.pending, j ∈ w.pending) ∧
      (w.remove id).2.entries = if (w.entries id).linked = true then
        update w.entries id (w.entries id).unlink else w.entries := by
  unfold Wheel.remove
  simp only
  cases hlinked : (w.entries id).linked with
  | false => simpa using h
  | true =>
    have hkept := h.kept id hlinked
    by_cases hpending : (w.entries id).level = pendingLevel
    · have hout : ∀ level < 6, ∀ slot < 64, id ∉ (w.levels level).slots slot := by
        intro l hl s hs hmem
        obtain ⟨-, hlevel, -⟩ := ((h.located id).mem_slot l hl s hs).mp hmem
        rw [hpending, pendingLevel, levelCount] at hlevel
        omega
      simp only [hpending, Bool.not_true, Bool.false_eq_true, ↓reduceIte]
      refine ⟨h.unlink h.sound (h.pending_nodup.erase id) (fun l hl s hs j => ?_) fun j => ?_,
        trivial, trivial, fun j hj => List.mem_of_mem_erase hj, trivial⟩
      · rw [iff_self_and]
        rintro hj rfl
        exact hout l hl s hs hj
      · rw [h.pending_nodup.mem_erase_iff, and_comm]
    · have hl : (w.entries id).level < 6 := lt_of_le_of_ne hkept.level_le hpending
      have hs : (w.entries id).slot < 64 := by
        rw [hkept.slot_eq hl]
        exact slotAt_lt _ _
      have hout : id ∉ w.pending := fun hmem => hpending ((h.located id).mem_pending.mp hmem).2
      simp only [hpending, hl, hs, levelCount, slotCount, decide_true, Bool.and_self, Bool.not_true,
        Bool.false_eq_true, ↓reduceIte]
      refine ⟨h.unlink (fun l hl' => ?_) h.pending_nodup (fun l hl' s hs' j => ?_) fun j => ?_,
        trivial, trivial, fun j hj => hj, trivial⟩
      · by_cases hll : l = (w.entries id).level
        · subst hll
          simpa using (h.sound _ hl).remove (w.entries id).slot id
        · simpa [hll] using h.sound l hl'
      · by_cases hhere : l = (w.entries id).level ∧ s = (w.entries id).slot
        · obtain ⟨rfl, rfl⟩ := hhere
          simp only [Function.update_self, Level.remove]
          rw [((h.sound _ hl).nodup _ hs).mem_erase_iff, and_comm]
        · have hsame : (update w.levels (w.entries id).level
              ((w.levels (w.entries id).level).remove (w.entries id).slot id) l).slots s =
              (w.levels l).slots s := by
            by_cases hll : l = (w.entries id).level
            · subst hll
              simp [Level.remove, show s ≠ (w.entries id).slot from fun hss => hhere ⟨rfl, hss⟩]
            · simp [hll]
          rw [hsame, iff_self_and]
          rintro hj rfl
          obtain ⟨-, hlevel, hslot⟩ := ((h.located j).mem_slot l hl' s hs').mp hj
          exact hhere ⟨hlevel.symm, hslot.symm⟩
      · rw [iff_self_and]
        rintro hj rfl
        exact hout hj

end Wheel

end Eddy.TimerWheel
