import Mathlib.Algebra.Ring.Nat
import Mathlib.Data.List.Basic
import Mathlib.Data.List.ReduceOption
import Mathlib.Logic.Function.Basic

/-!
# Slabs and their indexes

A slab stores values in numbered slots and reuses the slots of values that were removed. Which
vacant slot an insertion takes is left open: it may be any slot that holds nothing, or the one
after the last. An index maps a number that every stored value carries to the slot of the value.
-/

namespace Eddy
open Function (update)

universe u

structure Slab (α : Type u) where
  slots : List (Option α)

namespace Slab
variable {α : Type u}

def empty : Slab α := ⟨[]⟩

def get (s : Slab α) (key : ℕ) : Option α := s.slots[key]?.join

/-- The slots in which an insertion may put its value. -/
def Vacant (s : Slab α) (key : ℕ) : Prop := key ≤ s.slots.length ∧ (s.get key).isNone = true

instance (s : Slab α) (key : ℕ) : Decidable (s.Vacant key) := instDecidableAnd

def insert (s : Slab α) (key : ℕ) (a : α) : Slab α :=
  if key < s.slots.length then ⟨s.slots.set key (some a)⟩ else ⟨s.slots ++ [some a]⟩

def remove (s : Slab α) (key : ℕ) : Slab α := ⟨s.slots.set key none⟩

def modify (s : Slab α) (key : ℕ) (f : α → α) : Slab α :=
  ⟨s.slots.modify key (Option.map f)⟩

def values (s : Slab α) : List α := s.slots.reduceOption

/-- The values with their slots. -/
def entries (s : Slab α) : List (ℕ × α) :=
  s.slots.zipIdx.filterMap fun (a, key) => a.map (key, ·)

/-- The first slot whose value passes the test. -/
def find (s : Slab α) (p : α → Bool) : Option ℕ := s.slots.findIdx? (Option.any p)

@[simp] theorem get_empty (key : ℕ) : (empty : Slab α).get key = none := by simp [get, empty]

variable {key : ℕ} {a : α}

theorem get_insert {s : Slab α} (h : s.Vacant key) (a : α) (j : ℕ) :
    (s.insert key a).get j = if j = key then some a else s.get j := by
  obtain ⟨hle, -⟩ := h
  unfold insert get
  split
  · rename_i hlt
    by_cases hj : j = key
    · subst hj
      simp [hlt]
    · rw [List.getElem?_set_ne (Ne.symm hj), if_neg hj]
  · obtain rfl : key = s.slots.length := by omega
    by_cases hj : j = s.slots.length
    · subst hj
      simp
    · rw [if_neg hj]
      rcases Nat.lt_or_gt_of_ne hj with hlt | hgt
      · rw [List.getElem?_append_left hlt]
      · rw [List.getElem?_eq_none (by simp; omega), List.getElem?_eq_none (by omega)]

theorem length_insert_le (s : Slab α) (key : ℕ) (a : α) :
    (s.insert key a).slots.length ≤ s.slots.length + 1 := by
  unfold insert
  split <;> simp

@[simp] theorem length_remove (s : Slab α) (key : ℕ) :
    (s.remove key).slots.length = s.slots.length := by
  simp [remove]

@[simp] theorem get_remove (s : Slab α) (key j : ℕ) :
    (s.remove key).get j = if j = key then none else s.get j := by
  unfold remove get
  by_cases hj : j = key
  · subst hj
    rw [if_pos rfl, List.getElem?_set_self']
    cases s.slots[j]? <;> rfl
  · rw [List.getElem?_set_ne (Ne.symm hj), if_neg hj]

@[simp] theorem get_modify (s : Slab α) (key : ℕ) (f : α → α) (j : ℕ) :
    (s.modify key f).get j = if j = key then (s.get j).map f else s.get j := by
  unfold modify get
  rw [List.getElem?_modify]
  by_cases hj : j = key
  · subst hj
    rw [if_pos rfl]
    cases s.slots[j]? with
    | none => rfl
    | some a => cases a <;> simp
  · rw [if_neg hj]
    cases s.slots[j]? <;> simp [Ne.symm hj]

theorem mem_values {s : Slab α} : a ∈ s.values ↔ ∃ key, s.get key = some a := by
  rw [values, List.reduceOption_mem_iff, List.mem_iff_getElem?]
  simp only [get, Option.join_eq_some_iff]

theorem mem_values_of_mem_entries {s : Slab α} (h : (key, a) ∈ s.entries) :
    a ∈ s.values := by
  obtain ⟨⟨b, key'⟩, hmem, hb⟩ := List.mem_filterMap.mp h
  obtain ⟨a', ha', heq⟩ := Option.map_eq_some_iff.mp hb
  cases heq
  rw [values, List.reduceOption_mem_iff, ← ha']
  exact List.fst_mem_of_mem_zipIdx hmem

theorem find_eq_some {s : Slab α} {p : α → Bool} (h : s.find p = some key) :
    ∃ a, s.get key = some a ∧ p a = true := by
  obtain ⟨hlt, hp, -⟩ := List.findIdx?_eq_some_iff_getElem.mp h
  obtain ⟨a, ha, hpa⟩ := (Option.any_eq_true ..).mp hp
  exact ⟨a, by simp [get, List.getElem?_eq_getElem hlt, ha], hpa⟩

theorem find_eq_none {s : Slab α} {p : α → Bool} (h : s.find p = none)
    (ha : s.get key = some a) : p a = false := by
  have hmem : some a ∈ s.slots := by
    rw [get, Option.join_eq_some_iff] at ha
    exact List.mem_of_getElem? ha
  have := List.findIdx?_eq_none_iff.mp h _ hmem
  simpa using this

def weight (w : α → ℕ) (s : Slab α) : ℕ := (s.slots.map fun a => a.elim 0 w).sum

@[simp] theorem weight_empty (w : α → ℕ) : (empty : Slab α).weight w = 0 := rfl

theorem weight_set (w : α → ℕ) {slots : List (Option α)} (h : key < slots.length)
    (b : Option α) : weight w ⟨slots.set key b⟩ + (slots[key]?.join).elim 0 w =
      weight w ⟨slots⟩ + b.elim 0 w := by
  induction slots generalizing key with
  | nil => simp at h
  | cons a slots ih =>
    cases key with
    | zero =>
      simp only [weight, List.set_cons_zero, List.map_cons, List.sum_cons, List.getElem?_cons_zero,
        Option.join_some]
      omega
    | succ key =>
      have := ih (show key < slots.length by simpa using h)
      simp only [weight, List.set_cons_succ, List.map_cons, List.sum_cons,
        List.getElem?_cons_succ] at this ⊢
      omega

theorem lt_of_get {s : Slab α} (h : s.get key = some a) :
    key < s.slots.length := by
  rw [get, Option.join_eq_some_iff] at h
  exact (List.getElem?_eq_some_iff.mp h).1

theorem weight_insert (w : α → ℕ) {s : Slab α} (h : s.Vacant key) (a : α) :
    (s.insert key a).weight w = s.weight w + w a := by
  obtain ⟨hle, hnone⟩ := h
  unfold insert
  split
  · rename_i hlt
    have := weight_set w hlt (some a)
    rw [show s.slots[key]?.join = none from Option.isNone_iff_eq_none.mp hnone] at this
    simpa using this
  · simp [weight]

theorem weight_remove (w : α → ℕ) {s : Slab α} (h : s.get key = some a) :
    (s.remove key).weight w + w a = s.weight w := by
  have := weight_set w (lt_of_get h) none
  rw [show s.slots[key]?.join = some a from h] at this
  exact this

theorem weight_modify (w : α → ℕ) {s : Slab α} (h : s.get key = some a)
    (f : α → α) : (s.modify key f).weight w + w a = s.weight w + w (f a) := by
  have hkey : s.slots[key]? = some (some a) := Option.join_eq_some_iff.mp h
  have hset : s.slots.modify key (Option.map f) = s.slots.set key (some (f a)) := by
    rw [List.modify_eq_set_getElem?, hkey]
    rfl
  have := weight_set w (lt_of_get h) (some (f a))
  rw [show s.slots[key]?.join = some a from h] at this
  rw [modify, hset]
  simpa using this

theorem weight_modify_eq {w : α → ℕ} {f : α → α} (hf : ∀ a, w (f a) = w a) (s : Slab α) (key : ℕ) :
    (s.modify key f).weight w = s.weight w := by
  cases ha : s.get key with
  | some a =>
    have := weight_modify w ha f
    rw [hf] at this
    omega
  | none =>
    have hnone : s.slots.modify key (Option.map f) = s.slots := by
      apply List.ext_getElem?
      intro j
      rw [List.getElem?_modify]
      split_ifs with hj
      · subst hj
        rw [get] at ha
        cases hkey : s.slots[key]? with
        | none => rfl
        | some b =>
          rw [hkey, Option.join_some] at ha
          rw [ha]
          rfl
      · exact Option.map_id'
    rw [modify, hnone]

variable {tag : α → ℕ} {s : Slab α} {index : ℕ → Option ℕ}

/-- The index is exactly the inverse of the tags of the stored values. -/
def Indexes (tag : α → ℕ) (s : Slab α) (index : ℕ → Option ℕ) : Prop :=
  ∀ n key, index n = some key ↔ ∃ a, s.get key = some a ∧ tag a = n

/-- The value with a given tag. -/
def lookup (s : Slab α) (index : ℕ → Option ℕ) (n : ℕ) : Option α := (index n).bind s.get

theorem Indexes.empty (tag : α → ℕ) : Indexes tag (Slab.empty) fun _ => none := by
  intro n key
  simp

variable {a : α} {key n : ℕ}

theorem Indexes.lookup_eq_some (h : Indexes tag s index) :
    s.lookup index n = some a ↔ ∃ key, s.get key = some a ∧ tag a = n := by
  rw [lookup, Option.bind_eq_some_iff]
  constructor
  · rintro ⟨key, hkey, ha⟩
    obtain ⟨b, hb, htag⟩ := (h n key).mp hkey
    rw [ha, Option.some.injEq] at hb
    exact ⟨key, ha, hb ▸ htag⟩
  · rintro ⟨key, ha, htag⟩
    exact ⟨key, (h n key).mpr ⟨a, ha, htag⟩, ha⟩

theorem Indexes.of_get (h : Indexes tag s index) (ha : s.get key = some a) :
    index (tag a) = some key ∧ s.lookup index (tag a) = some a :=
  ⟨(h _ key).mpr ⟨a, ha, rfl⟩, h.lookup_eq_some.mpr ⟨key, ha, rfl⟩⟩

theorem Indexes.get_of_index (h : Indexes tag s index) (hkey : index n = some key) :
    ∃ a, s.get key = some a ∧ tag a = n ∧ s.lookup index n = some a := by
  obtain ⟨a, ha, rfl⟩ := (h n key).mp hkey
  exact ⟨a, ha, rfl, (h.of_get ha).2⟩

theorem Indexes.lookup_eq_none (h : Indexes tag s index) :
    s.lookup index n = none ↔ index n = none := by
  constructor
  · intro hnone
    by_contra hsome
    obtain ⟨key, hkey⟩ := Option.ne_none_iff_exists'.mp hsome
    obtain ⟨a, -, -, ha⟩ := h.get_of_index hkey
    simp [hnone] at ha
  · intro hnone
    simp [lookup, hnone]

theorem Indexes.mem_values (h : Indexes tag s index) :
    a ∈ s.values ↔ s.lookup index (tag a) = some a := by
  rw [Slab.mem_values, h.lookup_eq_some]
  simp

theorem Indexes.insert (h : Indexes tag s index) (hkey : s.Vacant key)
    (ha : index (tag a) = none) :
    Indexes tag (s.insert key a) (update index (tag a) (some key)) ∧
      (s.insert key a).lookup (update index (tag a) (some key)) =
        update (s.lookup index) (tag a) (some a) := by
  have hvacant : s.get key = none := Option.isNone_iff_eq_none.mp hkey.2
  have hindex : Indexes tag (s.insert key a) (update index (tag a) (some key)) := by
    intro n j
    by_cases hn : n = tag a
    · subst hn
      rw [Function.update_self, Option.some.injEq]
      constructor
      · rintro rfl
        exact ⟨a, by simp [get_insert hkey], rfl⟩
      · rintro ⟨b, hb, htag⟩
        rw [get_insert hkey] at hb
        split_ifs at hb with hj
        · exact hj.symm
        · have := (h _ j).mpr ⟨b, hb, htag⟩
          simp [ha] at this
    · rw [Function.update_of_ne hn, h]
      refine exists_congr fun b => and_congr_left fun htag => ?_
      rw [get_insert hkey]
      split_ifs with hj
      · subst hj
        rw [hvacant, Option.some.injEq]
        exact ⟨nofun, fun heq => absurd (heq ▸ htag.symm) hn⟩
      · rfl
  refine ⟨hindex, funext fun n => ?_⟩
  by_cases hn : n = tag a
  · subst hn
    simp [lookup, get_insert hkey]
  · simp only [lookup, Function.update_of_ne hn]
    cases hindexn : index n with
    | none => rfl
    | some j =>
      have hj : j ≠ key := by
        rintro rfl
        obtain ⟨b, hb, -⟩ := (h n j).mp hindexn
        simp [hvacant] at hb
      simp [get_insert hkey, hj]

theorem Indexes.remove (h : Indexes tag s index) (ha : s.get key = some a) :
    Indexes tag (s.remove key) (update index (tag a) none) ∧
      (s.remove key).lookup (update index (tag a) none) =
        update (s.lookup index) (tag a) none := by
  have hkey := (h.of_get ha).1
  have hother : ∀ {n j}, n ≠ tag a → index n = some j → j ≠ key := by
    rintro n j hn hj rfl
    obtain ⟨b, hb, rfl⟩ := (h n j).mp hj
    rw [ha, Option.some.injEq] at hb
    exact hn (hb ▸ rfl)
  refine ⟨fun n j => ?_, funext fun n => ?_⟩
  · by_cases hn : n = tag a
    · subst hn
      rw [Function.update_self]
      refine ⟨nofun, ?_⟩
      rintro ⟨b, hb, htag⟩
      rw [get_remove] at hb
      split_ifs at hb with hj
      have := (h _ j).mpr ⟨b, hb, htag⟩
      rw [hkey, Option.some.injEq] at this
      exact absurd this.symm hj
    · rw [Function.update_of_ne hn, h]
      refine exists_congr fun b => and_congr_left fun htag => ?_
      rw [get_remove]
      split_ifs with hj
      · subst hj
        rw [ha, Option.some.injEq]
        exact ⟨fun heq => absurd (heq ▸ htag.symm) hn, nofun⟩
      · rfl
  · by_cases hn : n = tag a
    · subst hn
      simp [lookup]
    · simp only [lookup, Function.update_of_ne hn]
      cases hindexn : index n with
      | none => rfl
      | some j => simp [hother hn hindexn]

theorem Indexes.modify (h : Indexes tag s index) (ha : s.get key = some a)
    {f : α → α} (hf : tag (f a) = tag a) :
    Indexes tag (s.modify key f) index ∧
      (s.modify key f).lookup index = update (s.lookup index) (tag a) (some (f a)) := by
  have hkey := (h.of_get ha).1
  have hindex : Indexes tag (s.modify key f) index := by
    intro n j
    rw [h]
    by_cases hj : j = key
    · subst hj
      simp [ha, hf]
    · simp [hj]
  refine ⟨hindex, funext fun n => ?_⟩
  by_cases hn : n = tag a
  · subst hn
    simp [lookup, hkey, ha]
  · simp only [lookup, Function.update_of_ne hn]
    cases hindexn : index n with
    | none => rfl
    | some j =>
      have hj : j ≠ key := by
        rintro rfl
        obtain ⟨b, hb, rfl⟩ := (h n j).mp hindexn
        rw [ha, Option.some.injEq] at hb
        exact hn (hb ▸ rfl)
      simp [hj]

theorem Indexes.nodup_values (h : Indexes tag s index) : (s.values.map tag).Nodup := by
  have hslots : s.slots.Pairwise fun a b => ∀ x y, a = some x → b = some y → tag x ≠ tag y := by
    rw [List.pairwise_iff_getElem]
    intro i j hi hj hij x y hx hy htag
    have hget : ∀ {k : ℕ} {z : α} (hk : k < s.slots.length), s.slots[k] = some z →
        s.get k = some z := fun hk hz => by simp [get, List.getElem?_eq_getElem hk, hz]
    have hi' := (h.of_get (hget hi hx)).1
    have hj' := (h.of_get (hget hj hy)).1
    rw [htag, hj', Option.some.injEq] at hi'
    omega
  rw [List.Nodup, List.pairwise_map, values, List.reduceOption]
  refine List.Pairwise.filterMap id (fun a b hab x hx y hy => ?_) hslots
  exact hab x y (by simpa using hx) (by simpa using hy)

theorem Indexes.find (h : Indexes tag s index) (n : ℕ) :
    s.find (fun a => tag a == n) = index n := by
  cases hfind : s.find (fun a => tag a == n) with
  | some key =>
    obtain ⟨a, ha, htag⟩ := find_eq_some hfind
    exact ((h n key).mpr ⟨a, ha, by simpa using htag⟩).symm
  | none =>
    symm
    by_contra hsome
    obtain ⟨key, hkey⟩ := Option.ne_none_iff_exists'.mp hsome
    obtain ⟨a, ha, htag⟩ := (h n key).mp hkey
    have := find_eq_none hfind ha
    simp [htag] at this

end Slab

end Eddy
