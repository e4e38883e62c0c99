import Mathlib.Data.List.Perm.Basic
import Mathlib.Data.List.Nodup

/-!
# Requests and their completions

Requests are queued, taken by the side that serves them, and answered by completions that are
read in the order in which they were posted. A request may be answered several times; one of
its completions is the last. The requests ever queued and the completions ever read are kept.
-/

namespace Eddy

universe u v

structure Traffic (σ : Type u) (ρ : Type v) where
  sq : List σ
  inFlight : List σ
  cq : List ρ
  queued : List σ
  reaped : List ρ

namespace Traffic
open scoped List
variable {σ : Type u} {ρ : Type v}

def empty : Traffic σ ρ := ⟨[], [], [], [], []⟩

def queue (t : Traffic σ ρ) (request : σ) : Traffic σ ρ :=
  { t with
    sq := t.sq ++ [request]
    queued := t.queued ++ [request] }

def queueAll (t : Traffic σ ρ) (requests : List σ) : Traffic σ ρ :=
  { t with
    sq := t.sq ++ requests
    queued := t.queued ++ requests }

/-- The first `n` requests are taken from the queue. -/
def consume (t : Traffic σ ρ) (n : ℕ) : Traffic σ ρ :=
  { t with
    sq := t.sq.drop n
    inFlight := t.inFlight ++ t.sq.take n }

/-- A completion of the request at position `i`. -/
def post (last : ρ → Bool) (t : Traffic σ ρ) (i : ℕ) (c : ρ) : Traffic σ ρ :=
  { t with
    inFlight := if last c then t.inFlight.eraseIdx i else t.inFlight
    cq := t.cq ++ [c] }

/-- Read the first completion. -/
def reap (t : Traffic σ ρ) : Option (ρ × Traffic σ ρ) :=
  match t.cq with
  | [] => none
  | c :: rest => some (c, { t with cq := rest, reaped := t.reaped ++ [c] })

def posted (t : Traffic σ ρ) : List ρ := t.reaped ++ t.cq

structure Sound (tag : σ → ℕ) (source : ρ → σ) (last : ρ → Bool) (t : Traffic σ ρ) : Prop where
  /-- No two requests have the same tag. -/
  nodup : (t.queued.map tag).Nodup
  /-- Every request is waiting, in service, or has had its last completion. -/
  stages : t.queued.Perm (t.sq ++ t.inFlight ++ (t.posted.filter last).map source)
  known : ∀ c ∈ t.posted, source c ∈ t.queued
  /-- Nothing comes after the last completion of a request. -/
  order : t.posted.Pairwise fun a b => last a = true → source a ≠ source b

variable {tag : σ → ℕ} {source : ρ → σ} {last : ρ → Bool} {t : Traffic σ ρ}

theorem queueAll_nil (t : Traffic σ ρ) : t.queueAll [] = t := by simp [queueAll]

theorem queueAll_queue (t : Traffic σ ρ) (a : σ) (requests : List σ) :
    (t.queue a).queueAll requests = t.queueAll (a :: requests) := by
  simp [queueAll, Traffic.queue]

theorem consume_zero (t : Traffic σ ρ) : t.consume 0 = t := by simp [consume]

theorem Sound.empty : Sound tag source last (Traffic.empty) := by
  constructor <;> simp [Traffic.empty, posted]

variable {c : ρ} {a : σ} {t' : Traffic σ ρ}

theorem Sound.tag_injective (h : Sound tag source last t) {b : σ} (ha : a ∈ t.queued)
    (hb : b ∈ t.queued) (hab : tag a = tag b) : a = b :=
  List.inj_on_of_nodup_map h.nodup ha hb hab

theorem Sound.nodup_stages (h : Sound tag source last t) :
    (t.sq ++ t.inFlight ++ (t.posted.filter last).map source).Nodup :=
  h.stages.nodup_iff.mp (List.Nodup.of_map _ h.nodup)

theorem Sound.mem_queued (h : Sound tag source last t) :
    a ∈ t.queued ↔ a ∈ t.sq ∨ a ∈ t.inFlight ∨ ∃ c ∈ t.posted, last c = true ∧ source c = a := by
  rw [h.stages.mem_iff]
  simp only [List.mem_append, List.mem_map, List.mem_filter, or_assoc, and_assoc]

theorem Sound.not_posted (h : Sound tag source last t) (ha : a ∈ t.sq ∨ a ∈ t.inFlight)
    (hc : c ∈ t.posted) (hlast : last c = true) : source c ≠ a := by
  rintro rfl
  have hdisjoint := (List.nodup_append.mp h.nodup_stages).2.2
  have hsource : source c ∈ (t.posted.filter last).map source :=
    List.mem_map.mpr ⟨c, List.mem_filter.mpr ⟨hc, hlast⟩, rfl⟩
  exact hdisjoint (source c) (List.mem_append.mpr ha) (source c) hsource rfl

theorem Sound.queue (h : Sound tag source last t) (ha : ∀ b ∈ t.queued, tag b ≠ tag a) :
    Sound tag source last (t.queue a) := by
  refine ⟨?_, ?_, fun c hc => ?_, h.order⟩
  · rw [Traffic.queue, List.map_append, List.nodup_append]
    refine ⟨h.nodup, by simp, ?_⟩
    simpa using ha
  · calc t.queued ++ [a]
      _ ~ t.sq ++ t.inFlight ++ (t.posted.filter last).map source ++ [a] := h.stages.append_right _
      _ = t.sq ++ ((t.inFlight ++ (t.posted.filter last).map source) ++ [a]) := by
        simp only [List.append_assoc]
      _ ~ t.sq ++ ([a] ++ (t.inFlight ++ (t.posted.filter last).map source)) :=
        List.Perm.append_left _ List.perm_append_comm
      _ = t.sq ++ [a] ++ t.inFlight ++ (t.posted.filter last).map source := by
        simp only [List.append_assoc]
  · exact List.mem_append_left _ (h.known c hc)

theorem Sound.consume (h : Sound tag source last t) (n : ℕ) :
    Sound tag source last (t.consume n) := by
  refine ⟨h.nodup, ?_, h.known, h.order⟩
  refine h.stages.trans (List.Perm.append_right _ ?_)
  calc t.sq ++ t.inFlight
    _ = t.sq.take n ++ t.sq.drop n ++ t.inFlight := by rw [List.take_append_drop]
    _ ~ t.sq.drop n ++ t.sq.take n ++ t.inFlight :=
      List.Perm.append_right _ List.perm_append_comm
    _ = t.sq.drop n ++ (t.sq.take n ++ t.inFlight) := List.append_assoc ..
    _ ~ t.sq.drop n ++ (t.inFlight ++ t.sq.take n) :=
      List.Perm.append_left _ List.perm_append_comm

theorem Sound.post (h : Sound tag source last t) {i : ℕ}
    (hi : t.inFlight[i]? = some (source c)) : Sound tag source last (t.post last i c) := by
  have hin : source c ∈ t.inFlight := List.mem_of_getElem? hi
  have hposted : (t.post last i c).posted = t.posted ++ [c] := by
    simp [posted, Traffic.post]
  refine ⟨h.nodup, ?_, fun d hd => ?_, ?_⟩
  · rw [hposted, List.filter_append, List.map_append]
    refine h.stages.trans ?_
    cases hlast : last c with
    | false => simp [Traffic.post, hlast]
    | true =>
      have herase : t.inFlight.Perm (t.inFlight.eraseIdx i ++ [source c]) := by
        obtain ⟨hlt, heq⟩ := List.getElem?_eq_some_iff.mp hi
        have := List.getElem_cons_eraseIdx_perm hlt
        rw [heq] at this
        exact this.symm.trans (List.perm_append_singleton _ _).symm
      simp only [Traffic.post, hlast, ↓reduceIte, List.filter_cons_of_pos, List.filter_nil,
        List.map_cons, List.map_nil, List.append_assoc]
      refine List.Perm.append_left _ ((herase.append_right _).trans ?_)
      rw [List.append_assoc]
      exact List.Perm.append_left _ List.perm_append_comm
  · rw [hposted, List.mem_append, List.mem_singleton] at hd
    rcases hd with hd | rfl
    · exact h.known d hd
    · exact h.mem_queued.mpr (.inr (.inl hin))
  · rw [hposted, List.pairwise_append]
    refine ⟨h.order, List.pairwise_singleton _ _, fun a ha b hb hlast => ?_⟩
    obtain rfl := List.mem_singleton.mp hb
    exact h.not_posted (.inr hin) ha hlast

theorem reap_eq_some :
    t.reap = some (c, t') ↔
      ∃ rest, t.cq = c :: rest ∧ t' = { t with cq := rest, reaped := t.reaped ++ [c] } := by
  unfold reap
  split <;> simp_all [eq_comm]

theorem posted_reap (hc : t.reap = some (c, t')) :
    t'.posted = t.posted := by
  obtain ⟨rest, hcq, rfl⟩ := reap_eq_some.mp hc
  simp [posted, hcq]

theorem Sound.reap (h : Sound tag source last t)
    (hc : t.reap = some (c, t')) : Sound tag source last t' := by
  have hposted := posted_reap hc
  obtain ⟨rest, -, rfl⟩ := reap_eq_some.mp hc
  exact ⟨h.nodup, hposted ▸ h.stages, hposted ▸ h.known, hposted ▸ h.order⟩

/-- A request whose completion is read has not had its last one before. -/
theorem Sound.not_last_before (h : Sound tag source last t)
    (hc : t.reap = some (c, t')) {a : ρ} (ha : a ∈ t.reaped) (hlast : last a = true) :
    source a ≠ source c := by
  obtain ⟨rest, hcq, -⟩ := reap_eq_some.mp hc
  exact (List.pairwise_append.mp h.order).2.2 a ha c (by simp [hcq]) hlast

/-- A request whose last completion was not read is waiting, in service, or has a completion that
was not read. -/
theorem Sound.unread (h : Sound tag source last t) (ha : a ∈ t.queued)
    (hread : ∀ c ∈ t.reaped, source c = a → last c = false) :
    a ∈ t.sq ∨ a ∈ t.inFlight ∨ ∃ c ∈ t.cq, source c = a := by
  rcases h.mem_queued.mp ha with hsq | hflight | ⟨c, hc, hlast, rfl⟩
  · exact .inl hsq
  · exact .inr (.inl hflight)
  · rcases List.mem_append.mp hc with hreaped | hcq
    · rw [hread c hreaped rfl] at hlast
      cases hlast
    · exact .inr (.inr ⟨c, hcq, rfl⟩)

/-- When the last completions of all requests were read, nothing is left. -/
theorem Sound.eq_nil (h : Sound tag source last t)
    (hread : ∀ a ∈ t.queued, ∃ c ∈ t.reaped, source c = a ∧ last c = true) :
    t.sq = [] ∧ t.inFlight = [] ∧ t.cq = [] := by
  have hserved : ∀ a, a ∈ t.sq ∨ a ∈ t.inFlight → False := by
    intro a ha
    obtain ⟨c, hc, hsource, hlast⟩ := hread a (h.mem_queued.mpr (by tauto))
    exact h.not_posted ha (List.mem_append_left _ hc) hlast hsource
  refine ⟨?_, ?_, ?_⟩
  · exact List.eq_nil_iff_forall_not_mem.mpr fun a ha => hserved a (.inl ha)
  · exact List.eq_nil_iff_forall_not_mem.mpr fun a ha => hserved a (.inr ha)
  · refine List.eq_nil_iff_forall_not_mem.mpr fun b hb => ?_
    obtain ⟨c, hc, hsource, hlast⟩ := hread _ (h.known b (List.mem_append_right _ hb))
    exact (List.pairwise_append.mp h.order).2.2 c hc b hb hlast hsource

end Traffic

end Eddy
