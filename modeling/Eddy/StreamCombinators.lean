import Eddy.PolledStreams

/-!
# Combinators of streams

`stream.rs`. A closure may change what it has captured, so it takes that and returns it. Polls that
are pending do not change what the adapters make of the items and what the futures make of the
stream, whenever they come.
-/

namespace Eddy.StreamCombinators
open PolledFutures (Poll)
open PolledStreams

universe u v w x

variable {σ : Type u} {α : Type v} {β : Type w} {γ : Type x}

/-- What `Map::poll_next` does with the result of the stream. -/
def Map.turn (f : γ → α → β × γ) (captured : γ) : Poll (Option α) → ControlFlow (Option β) γ
  | .ready (some item) => .ret (.ready (some (f captured item).1)) (f captured item).2
  | .ready none => .ret (.ready none) captured
  | .pending => .ret .pending captured

/-- Its one turn returns. -/
def Map.pollNext (f : γ → α → β × γ) (stream : Machine σ (Option α)) :
    Machine (σ × γ) (Option β) :=
  stream.loop (Map.turn f)

/-- The body of the loop of `Filter::poll_next` -/
def Filter.turn (f : γ → α → Bool × γ) (captured : γ) : Poll (Option α) → ControlFlow (Option α) γ
  | .ready (some item) =>
    if (f captured item).1 then .ret (.ready (some item)) (f captured item).2
    else .next (f captured item).2
  | .ready none => .ret (.ready none) captured
  | .pending => .ret .pending captured

def Filter.pollNext (f : γ → α → Bool × γ) (stream : Machine σ (Option α)) :
    Machine (σ × γ) (Option α) :=
  stream.loop (Filter.turn f)

def Fuse.finish (result : Poll (Option α)) (stream : σ) : Poll (Option α) × σ × Bool :=
  match result with
  | .ready none => (.ready none, stream, true)
  | .ready (some item) => (.ready (some item), stream, false)
  | .pending => (.pending, stream, false)

/-- `Fuse::poll_next`; the flag is `done`. -/
def Fuse.pollNext (stream : Machine σ (Option α)) : Machine (σ × Bool) (Option α) where
  poll turns s :=
    if s.2 then some (.ready none, s)
    else (stream.poll turns s.1).map fun r => Fuse.finish r.1 r.2
  mono := by
    intro m n s r hle h
    split_ifs at h ⊢ with hdone
    · exact h
    · obtain ⟨q, hq, hr⟩ := Option.map_eq_some_iff.mp h
      exact Option.map_eq_some_iff.mpr ⟨q, stream.mono hle hq, hr⟩

/-- The body of the loop of `Fold::poll`, over the accumulator and the closure; without an output
it panics. -/
def Fold.turn (f : γ → β → α → β × γ) :
    Option β × γ → Poll (Option α) → ControlFlow (Option β) (Option β × γ)
  | (some acc, captured), .ready (some item) =>
    .next (some (f captured acc item).1, (f captured acc item).2)
  | (none, captured), .ready (some _) => .ret (.ready none) (none, captured)
  | (acc, captured), .ready none => .ret (.ready acc) (none, captured)
  | s, .pending => .ret .pending s

def Fold.poll (f : γ → β → α → β × γ) (stream : Machine σ (Option α)) :
    Machine (σ × Option β × γ) (Option β) :=
  stream.loop (Fold.turn f)

/-- The body of the loop of `ForEach::poll` -/
def ForEach.turn (f : γ → α → γ) (captured : γ) : Poll (Option α) → ControlFlow Unit γ
  | .ready (some item) => .next (f captured item)
  | .ready none => .ret (.ready ()) captured
  | .pending => .ret .pending captured

def ForEach.poll (f : γ → α → γ) (stream : Machine σ (Option α)) : Machine (σ × γ) Unit :=
  stream.loop (ForEach.turn f)

/-- The body of the loop of `Count::poll` -/
def Count.turn (count : ℕ) : Poll (Option α) → ControlFlow ℕ ℕ
  | .ready (some _) => .next (count + 1)
  | .ready none => .ret (.ready count) count
  | .pending => .ret .pending count

def Count.poll (stream : Machine σ (Option α)) : Machine (σ × ℕ) ℕ :=
  stream.loop Count.turn

class FromStream (β : Type w) (α : Type v) where
  extendWith : β → α → β
  finish : β → β

/-- `FromStream for Vec` -/
instance : FromStream (List α) α where
  extendWith buf item := buf ++ [item]
  finish buf := buf

/-- The body of the loop of `Collect::poll`, which takes the buffer and leaves a default one. -/
def Collect.turn [FromStream β α] [Inhabited β] (buf : β) : Poll (Option α) → ControlFlow β β
  | .ready (some item) => .next (FromStream.extendWith buf item)
  | .ready none => .ret (.ready (FromStream.finish (α := α) buf)) default
  | .pending => .ret .pending buf

def Collect.poll [FromStream β α] [Inhabited β] (stream : Machine σ (Option α)) :
    Machine (σ × β) β :=
  stream.loop Collect.turn

/-- A closure applied to the items in turn. -/
def mapItems (f : γ → α → β × γ) : γ → List α → List β × γ
  | g, [] => ([], g)
  | g, a :: as => ((f g a).1 :: (mapItems f (f g a).2 as).1, (mapItems f (f g a).2 as).2)

/-- The items for which a closure returns `true`. -/
def filterItems (p : γ → α → Bool × γ) : γ → List α → List α × γ
  | g, [] => ([], g)
  | g, a :: as =>
    (if (p g a).1 then a :: (filterItems p (p g a).2 as).1 else (filterItems p (p g a).2 as).1,
      (filterItems p (p g a).2 as).2)

section
variable {stream : Machine σ (Option α)}

theorem mapItems_eq_sift (f : γ → α → β × γ) (g : γ) (as : List α) :
    mapItems f g as = sift (fun g a => (some (f g a).1, (f g a).2)) g as := by
  induction as generalizing g with
  | nil => rfl
  | cons a as ih => simp [mapItems, sift, ih]

theorem filterItems_eq_sift (p : γ → α → Bool × γ) (g : γ) (as : List α) :
    filterItems p g as =
      sift (fun g a => (if (p g a).1 then some a else none, (p g a).2)) g as := by
  induction as generalizing g with
  | nil => rfl
  | cons a as ih =>
    simp only [filterItems, sift, ih]
    split_ifs <;> rfl

theorem map_eq_sift (f : γ → α → β × γ) :
    Map.pollNext f stream = stream.loop (siftTurn fun g a => (some (f g a).1, (f g a).2)) := by
  refine congrArg stream.loop ?_
  funext g r
  rcases r with _ | _ | a <;> rfl

theorem filter_eq_sift (p : γ → α → Bool × γ) : Filter.pollNext p stream =
    stream.loop (siftTurn fun g a => (if (p g a).1 then some a else none, (p g a).2)) := by
  refine congrArg stream.loop ?_
  funext g r
  rcases r with _ | _ | a
  · rfl
  · rfl
  · by_cases hp : (p g a).1 = true
    · simp [Filter.turn, siftTurn, hp]
    · simp [Filter.turn, siftTurn, hp]

theorem Fuse.returns_done {t u : σ} {flag : Bool} {r : Poll (Option α)} :
    (Fuse.pollNext stream).Returns (t, true) r (u, flag) ↔
      r = .ready none ∧ u = t ∧ flag = true := by
  constructor
  · rintro ⟨turns, h⟩
    simp only [Fuse.pollNext, ↓reduceIte, Option.some.injEq, Prod.mk.injEq] at h
    exact ⟨h.1.symm, h.2.1.symm, h.2.2.symm⟩
  · rintro ⟨rfl, rfl, rfl⟩
    exact ⟨0, rfl⟩

theorem Fuse.returns_open {s : σ} {r : Poll (Option α)} {y : σ × Bool} :
    (Fuse.pollNext stream).Returns (s, false) r y ↔
      ∃ q t, stream.Returns s q t ∧ Fuse.finish q t = (r, y) := by
  constructor
  · rintro ⟨turns, h⟩
    simp only [Fuse.pollNext, Bool.false_eq_true, ↓reduceIte] at h
    obtain ⟨⟨q, t⟩, hq, hr⟩ := Option.map_eq_some_iff.mp h
    exact ⟨q, t, ⟨turns, hq⟩, hr⟩
  · rintro ⟨q, t, ⟨turns, hq⟩, hr⟩
    refine ⟨turns, ?_⟩
    simp only [Fuse.pollNext, Bool.false_eq_true, ↓reduceIte]
    exact Option.map_eq_some_iff.mpr ⟨(q, t), hq, hr⟩

theorem Fuse.rests_iff {ended : Bool} {s t : σ} {n : ℕ} {as : List α} {flag : Bool} :
    (Fuse.pollNext stream).Rests ended (s, false) n as (t, flag) ↔
      stream.Rests ended s n as t ∧ flag = ended := by
  constructor
  · intro h
    generalize hx : (s, false) = x at h
    generalize hy : (t, flag) = y at h
    induction h generalizing s with
    | rest hpoll =>
      subst hx hy
      obtain ⟨q, u, hq, hfinish⟩ := Fuse.returns_open.mp hpoll
      cases ended with
      | true | false =>
        rcases q with _ | _ | a <;> cases hfinish
        exact ⟨.rest hq, rfl⟩
    | pending hpoll _ ih =>
      subst hx
      obtain ⟨q, u, hq, hfinish⟩ := Fuse.returns_open.mp hpoll
      rcases q with _ | _ | a <;> cases hfinish
      obtain ⟨hrests, hflag⟩ := ih rfl hy
      exact ⟨.pending hq hrests, hflag⟩
    | item hpoll _ ih =>
      subst hx
      obtain ⟨q, u, hq, hfinish⟩ := Fuse.returns_open.mp hpoll
      rcases q with _ | _ | a <;> cases hfinish
      obtain ⟨hrests, hflag⟩ := ih rfl hy
      exact ⟨.item hq hrests, hflag⟩
  · rintro ⟨h, rfl⟩
    induction h with
    | rest hpoll =>
      apply Machine.Rests.rest
      refine Fuse.returns_open.mpr ⟨_, _, hpoll, ?_⟩
      cases flag <;> rfl
    | pending hpoll _ ih => exact .pending (Fuse.returns_open.mpr ⟨_, _, hpoll, rfl⟩) ih
    | item hpoll _ ih => exact .item (Fuse.returns_open.mpr ⟨_, _, hpoll, rfl⟩) ih

/-- A stream that is mapped, filtered and fused rests exactly when the stream below does, at a
pending poll or at its end, and has then yielded what the closures make of all the items so far,
each called once for each item in turn. After its end it stays at its end and polls nothing. -/
theorem adapters_rest_iff (f : γ → α → β × γ) {δ : Type*} (p : δ → β → Bool × δ)
    (stream : Machine σ (Option α)) (s t : σ) (g g' : γ) (d d' : δ) (n : ℕ) (bs : List β)
    (ended done : Bool) :
    ((Fuse.pollNext (Filter.pollNext p (Map.pollNext f stream))).Rests ended
      (((s, g), d), false) n bs (((t, g'), d'), done) ↔ done = ended ∧
      ∃ as, stream.Rests ended s n as t ∧ (mapItems f g as).2 = g' ∧
        filterItems p d (mapItems f g as).1 = (bs, d')) ∧
    ∀ r y, (Fuse.pollNext (Filter.pollNext p (Map.pollNext f stream))).Returns
      (((t, g'), d'), true) r y ↔ r = .ready none ∧ y = (((t, g'), d'), true) := by
  constructor
  · rw [Fuse.rests_iff, filter_eq_sift, rests_sift_iff, map_eq_sift, and_comm]
    refine and_congr_right fun _ => ?_
    constructor
    · rintro ⟨cs, hrests, hfilter⟩
      obtain ⟨as, hstream, hmap⟩ := rests_sift_iff.mp hrests
      rw [← mapItems_eq_sift] at hmap
      refine ⟨as, hstream, by rw [hmap], ?_⟩
      rw [filterItems_eq_sift, hmap, hfilter]
    · rintro ⟨as, hstream, hmap, hfilter⟩
      refine ⟨(mapItems f g as).1, rests_sift_iff.mpr ⟨as, hstream, ?_⟩, ?_⟩
      · rw [← mapItems_eq_sift, ← hmap]
      · rw [← filterItems_eq_sift, hfilter]
  · rintro r ⟨u, flag⟩
    rw [Fuse.returns_done]
    exact and_congr_right fun _ => Iff.of_eq (Prod.mk.injEq u flag _ true).symm

end

section
variable {stream : Machine σ (Option α)}

theorem fold_drains (f : γ → β → α → β × γ) : Drains (Fold.turn f)
    (fun s : β × γ => (some s.1, s.2)) (fun s a => f s.2 s.1 a) (fun s => (some s.1, none, s.2)) :=
  ⟨fun _ => rfl, fun _ _ => rfl, fun _ => rfl⟩

theorem forEach_drains (f : γ → α → γ) :
    Drains (ForEach.turn f) id f (fun captured => ((), captured)) :=
  ⟨fun _ => rfl, fun _ _ => rfl, fun _ => rfl⟩

theorem count_drains : Drains (Count.turn (α := α)) id (fun count _ => count + 1)
    (fun count => (count, count)) :=
  ⟨fun _ => rfl, fun _ _ => rfl, fun _ => rfl⟩

theorem collect_drains [FromStream β α] [Inhabited β] : Drains (Collect.turn (α := α)) id
    FromStream.extendWith (fun buf : β => (FromStream.finish (α := α) buf, default)) :=
  ⟨fun _ => rfl, fun _ _ => rfl, fun _ => rfl⟩

end

/-- The futures over a stream are ready when it is at its end, pending as often as it is, and have
then folded, counted or collected all its items in turn. Over a stream that never ends they are
never ready, and a fold does not panic before it is ready. -/
theorem readers_complete_iff (stream : Machine σ (Option α)) (s : σ) (n : ℕ) :
    (∀ (f : γ → β → α → β × γ) (init : β) (g : γ) out y,
      (Fold.poll f stream).Completes (s, some init, g) n out y ↔
        ∃ as t, stream.Rests true s n as t ∧
          out = some (as.foldl (fun b a => f b.2 b.1 a) (init, g)).1 ∧
          y = (t, none, (as.foldl (fun b a => f b.2 b.1 a) (init, g)).2)) ∧
    (∀ (f : γ → α → γ) g y, (ForEach.poll f stream).Completes (s, g) n () y ↔
      ∃ as t, stream.Rests true s n as t ∧ y = (t, as.foldl f g)) ∧
    (∀ count y, (Count.poll stream).Completes (s, 0) n count y ↔
      ∃ as t, stream.Rests true s n as t ∧ count = as.length ∧ y = (t, as.length)) ∧
    ∀ [FromStream β α] [Inhabited β] (buf : β) y,
      (Collect.poll stream).Completes (s, default) n buf y ↔
        ∃ as t, stream.Rests true s n as t ∧
          buf = FromStream.finish (α := α) (as.foldl FromStream.extendWith default) ∧
          y = (t, default) := by
  refine ⟨?_, ?_, ?_, ?_⟩
  · intro f init g out y
    exact (fold_drains f).completes_iff (i := (init, g))
  · intro f g y
    refine ((forEach_drains f).completes_iff (i := g)).trans ?_
    simp
  · intro count y
    refine (count_drains.completes_iff (i := 0)).trans ?_
    simp
  · intro _ _ buf y
    exact collect_drains.completes_iff (i := default)

end Eddy.StreamCombinators
