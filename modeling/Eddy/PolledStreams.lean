import Eddy.PolledFutures

/-!
# Streams that are polled

A poll may loop over the polls of what it wraps, and so may never return: a machine says what a
poll returns within some number of turns. A stream is a machine whose outputs are items and an end.
What an adapter does to a stream that comes to its end is proved from what it does after one result.
-/

namespace Eddy.PolledStreams
open PolledFutures (Poll)

universe u v w x y

/-- A poll function that may not return. -/
structure Machine (σ : Type u) (α : Type v) where
  poll : ℕ → σ → Option (Poll α × σ)
  /-- With more turns it returns the same. -/
  mono : ∀ {m n : ℕ} {s : σ} {r : Poll α × σ}, m ≤ n → poll m s = some r → poll n s = some r

variable {σ : Type u} {α : Type v} {β : Type w} {κ : Type x}

namespace Machine

def Returns (f : Machine σ α) (s : σ) (r : Poll α) (t : σ) : Prop :=
  ∃ turns, f.poll turns s = some (r, t)

/-- A future is polled until it is ready: so many polls are pending. -/
inductive Completes (f : Machine σ α) : σ → ℕ → α → σ → Prop where
  | ready {s t : σ} {a : α} (poll : f.Returns s (.ready a) t) : Completes f s 0 a t
  | pending {s t u : σ} {n : ℕ} {a : α} (poll : f.Returns s .pending t)
      (after : Completes f t n a u) : Completes f s (n + 1) a u

/-- Where a stream comes to rest: at its end, or at a poll that is pending. -/
def restResult (ended : Bool) : Poll (Option α) := if ended then .ready none else .pending

/-- A stream is polled until it rests: so many polls before are pending, and these are the
items. -/
inductive Rests (f : Machine σ (Option α)) (ended : Bool) : σ → ℕ → List α → σ → Prop where
  | rest {s t : σ} (poll : f.Returns s (restResult ended) t) : Rests f ended s 0 [] t
  | pending {s t u : σ} {n : ℕ} {as : List α} (poll : f.Returns s .pending t)
      (after : Rests f ended t n as u) : Rests f ended s (n + 1) as u
  | item {s t u : σ} {n : ℕ} {a : α} {as : List α} (poll : f.Returns s (.ready (some a)) t)
      (after : Rests f ended t n as u) : Rests f ended s n (a :: as) u

end Machine

/-- Whether a loop goes on after an inner poll. -/
inductive ControlFlow (β : Type u) (κ : Type v) where
  | next (k : κ)
  | ret (r : Poll β) (k : κ)

def loopPoll (poll : σ → Option (Poll α × σ)) (turn : κ → Poll α → ControlFlow β κ) :
    ℕ → σ × κ → Option (Poll β × σ × κ)
  | 0, _ => none
  | turns + 1, s =>
    (poll s.1).bind fun r =>
      match turn s.2 r.1 with
      | .next k => loopPoll poll turn turns (r.2, k)
      | .ret q k => some (q, r.2, k)

theorem loopPoll_mono {poll poll' : σ → Option (Poll α × σ)} {turn : κ → Poll α → ControlFlow β κ}
    (hpoll : ∀ s r, poll s = some r → poll' s = some r) {m n : ℕ} (hle : m ≤ n) {s : σ × κ}
    {r : Poll β × σ × κ} (h : loopPoll poll turn m s = some r) :
    loopPoll poll' turn n s = some r := by
  induction m generalizing s n with
  | zero => cases h
  | succ m ih =>
    obtain ⟨n, rfl⟩ := Nat.exists_eq_add_of_le' hle
    obtain ⟨q, hq, hrest⟩ := Option.bind_eq_some_iff.mp h
    refine Option.bind_eq_some_iff.mpr ⟨q, hpoll _ _ hq, ?_⟩
    cases hturn : turn s.2 q.1 with
    | next k =>
      simp only [hturn] at hrest ⊢
      exact ih (Nat.le_add_left m n) hrest
    | ret p k =>
      simp only [hturn] at hrest ⊢
      exact hrest

def Machine.loop (f : Machine σ α) (turn : κ → Poll α → ControlFlow β κ) : Machine (σ × κ) β where
  poll turns := loopPoll (f.poll turns) turn turns
  mono hle h := loopPoll_mono (fun _ _ => f.mono hle) hle h

inductive Loops (f : Machine σ α) (turn : κ → Poll α → ControlFlow β κ) :
    σ → κ → Poll β → σ → κ → Prop where
  | ret {s t : σ} {k l : κ} {q : Poll α} {r : Poll β} (poll : f.Returns s q t)
      (returns : turn k q = .ret r l) : Loops f turn s k r t l
  | next {s t u : σ} {k l m : κ} {q : Poll α} {r : Poll β} (poll : f.Returns s q t)
      (goes : turn k q = .next l) (after : Loops f turn t l r u m) : Loops f turn s k r u m

variable {f : Machine σ α} {turn : κ → Poll α → ControlFlow β κ}

variable {t s : σ} {l k : κ} {n : ℕ} {r : Poll β}

theorem loops_of_loopPoll {turns : ℕ}
    (h : loopPoll (f.poll n) turn turns (s, k) = some (r, t, l)) : Loops f turn s k r t l := by
  induction turns generalizing s k with
  | zero => cases h
  | succ turns ih =>
    obtain ⟨⟨q, u⟩, hq, hrest⟩ := Option.bind_eq_some_iff.mp h
    cases hturn : turn k q with
    | next m =>
      simp only [hturn] at hrest
      exact .next ⟨n, hq⟩ hturn (ih hrest)
    | ret p m =>
      simp only [hturn, Option.some.injEq, Prod.mk.injEq] at hrest
      obtain ⟨rfl, rfl, rfl⟩ := hrest
      exact .ret ⟨n, hq⟩ hturn

theorem Loops.returns (h : Loops f turn s k r t l) :
    (f.loop turn).Returns (s, k) r (t, l) := by
  induction h with
  | @ret s t k l q r hpoll hturn =>
    obtain ⟨n, hn⟩ := hpoll
    refine ⟨n + 1, ?_⟩
    have hmore := f.mono (Nat.le_succ n) hn
    simp [Machine.loop, loopPoll, hmore, hturn]
  | @next s t u k l m q r hpoll hturn _ ih =>
    obtain ⟨n, hn⟩ := hpoll
    obtain ⟨turns, hturns⟩ := ih
    refine ⟨max n turns + 1, ?_⟩
    have hmore := f.mono ((Nat.le_max_left n turns).trans (Nat.le_succ _)) hn
    simp only [Machine.loop, loopPoll, hmore, hturn, Option.bind_some]
    have hle : turns ≤ max n turns + 1 := (Nat.le_max_right n turns).trans (Nat.le_succ _)
    exact loopPoll_mono (fun _ _ => f.mono hle) (Nat.le_max_right n turns) hturns

theorem returns_loop_iff :
    (f.loop turn).Returns (s, k) r (t, l) ↔ Loops f turn s k r t l := by
  constructor
  · rintro ⟨turns, h⟩
    exact loops_of_loopPoll h
  · exact Loops.returns

theorem completes_of_next {q : Poll α} {b : β} {y : σ × κ}
    (hpoll : f.Returns s q t) (hturn : turn k q = .next l)
    (h : (f.loop turn).Completes (t, l) n b y) : (f.loop turn).Completes (s, k) n b y := by
  cases h with
  | ready hafter => exact .ready (Loops.next hpoll hturn (returns_loop_iff.mp hafter)).returns
  | pending hafter h =>
    exact .pending (Loops.next hpoll hturn (returns_loop_iff.mp hafter)).returns h

theorem rests_of_next {turn : κ → Poll α → ControlFlow (Option β) κ} {ended : Bool} {q : Poll α}
    {bs : List β} {y : σ × κ} (hpoll : f.Returns s q t)
    (hturn : turn k q = .next l) (h : (f.loop turn).Rests ended (t, l) n bs y) :
    (f.loop turn).Rests ended (s, k) n bs y := by
  cases h with
  | rest hafter => exact .rest (Loops.next hpoll hturn (returns_loop_iff.mp hafter)).returns
  | pending hafter h =>
    exact .pending (Loops.next hpoll hturn (returns_loop_iff.mp hafter)).returns h
  | item hafter h => exact .item (Loops.next hpoll hturn (returns_loop_iff.mp hafter)).returns h

inductive Reads (f : Machine σ (Option α)) : σ → List α → σ → Prop where
  | nil {s : σ} : Reads f s [] s
  | cons {s t u : σ} {a : α} {as : List α} (poll : f.Returns s (.ready (some a)) t)
      (after : Reads f t as u) : Reads f s (a :: as) u

theorem Reads.rests {f : Machine σ (Option α)} {ended : Bool} {u : σ} {as bs : List α}
    (h : Reads f s as t) (h' : f.Rests ended t n bs u) : f.Rests ended s n (as ++ bs) u := by
  induction h with
  | nil => exact h'
  | cons hpoll _ ih => exact .item hpoll (ih h')

/-- A turn that passes on pending polls and the end, and makes at most one item of each item. -/
def siftTurn (emit : κ → α → Option β × κ) (k : κ) : Poll (Option α) → ControlFlow (Option β) κ
  | .pending => .ret .pending k
  | .ready none => .ret (.ready none) k
  | .ready (some a) =>
    match emit k a with
    | (some b, l) => .ret (.ready (some b)) l
    | (none, l) => .next l

/-- What an adapter makes of the items in turn. -/
def sift (emit : κ → α → Option β × κ) : κ → List α → List β × κ
  | k, [] => ([], k)
  | k, a :: as => ((emit k a).1.toList ++ (sift emit (emit k a).2 as).1,
      (sift emit (emit k a).2 as).2)

section
variable {f : Machine σ (Option α)} {emit : κ → α → Option β × κ} {ended : Bool}

theorem sift_append (k : κ) (as bs : List α) : sift emit k (as ++ bs) =
    ((sift emit k as).1 ++ (sift emit (sift emit k as).2 bs).1,
      (sift emit (sift emit k as).2 bs).2) := by
  induction as generalizing k with
  | nil => rfl
  | cons a as ih => simp [sift, ih]

/-- What an adapter returns for the result of an inner poll. -/
inductive Sifted (emit : κ → α → Option β × κ) (k : κ) : Poll (Option α) → Poll (Option β) → κ →
    Prop where
  | pending : Sifted emit k .pending .pending k
  | done : Sifted emit k (.ready none) (.ready none) k
  | item {a : α} {b : β} {l : κ} (makes : emit k a = (some b, l)) :
      Sifted emit k (.ready (some a)) (.ready (some b)) l

variable {l k : κ} {t s : σ} {q : Poll (Option α)} {n : ℕ}

theorem siftTurn_ret_iff {r : Poll (Option β)} :
    siftTurn emit k q = .ret r l ↔ Sifted emit k q r l := by
  constructor
  · intro h
    unfold siftTurn at h
    split at h
    · cases h
      exact .pending
    · cases h
      exact .done
    · split at h
      · rename_i hemit
        cases h
        exact .item hemit
      · cases h
  · intro h
    cases h with
    | pending => rfl
    | done => rfl
    | item makes => simp [siftTurn, makes]

theorem siftTurn_next_iff :
    siftTurn emit k q = .next l ↔ ∃ a, q = .ready (some a) ∧ emit k a = (none, l) := by
  constructor
  · intro h
    unfold siftTurn at h
    split at h
    · cases h
    · cases h
    · rename_i a
      split at h
      · cases h
      · rename_i hemit
        cases h
        exact ⟨a, rfl, hemit⟩
  · rintro ⟨a, rfl, hemit⟩
    simp [siftTurn, hemit]

theorem reads_of_loops {r : Poll (Option β)}
    (h : Loops f (siftTurn emit) s k r t l) : ∃ as u m q, Reads f s as u ∧
      sift emit k as = ([], m) ∧ f.Returns u q t ∧ Sifted emit m q r l := by
  induction h with
  | @ret s t k l q r hpoll hreturns =>
    exact ⟨[], s, k, q, .nil, rfl, hpoll, siftTurn_ret_iff.mp hreturns⟩
  | @next s t u k l m q r hpoll hgoes _ ih =>
    obtain ⟨as, v, n, p, hreads, hsift, hlast, hsifted⟩ := ih
    obtain ⟨a, rfl, hemit⟩ := siftTurn_next_iff.mp hgoes
    have hcons : sift emit k (a :: as) = ([], n) := by simp [sift, hemit, hsift]
    exact ⟨a :: as, v, n, p, .cons hpoll hreads, hcons, hlast, hsifted⟩

theorem Sifted.rest_iff :
    Sifted emit k q (Machine.restResult ended) l ↔ q = Machine.restResult ended ∧ l = k := by
  constructor
  · intro h
    cases ended <;> cases h <;> exact ⟨rfl, rfl⟩
  · rintro ⟨rfl, rfl⟩
    cases ended
    · exact .pending
    · exact .done

/-- What an adapter makes of a stream that rests. -/
theorem Machine.Rests.of_sift {x y : σ × κ} {bs : List β}
    (h : (f.loop (siftTurn emit)).Rests ended x n bs y) :
    ∃ as, f.Rests ended x.1 n as y.1 ∧ sift emit x.2 as = (bs, y.2) := by
  induction h with
  | @rest x y hpoll =>
    obtain ⟨as, u, m, q, hreads, hsift, hlast, hsifted⟩ :=
      reads_of_loops (returns_loop_iff.mp hpoll)
    obtain ⟨rfl, hy⟩ := Sifted.rest_iff.mp hsifted
    refine ⟨as, ?_, hy ▸ hsift⟩
    simpa using hreads.rests (.rest hlast)
  | @pending x y z n bs hpoll _ ih =>
    obtain ⟨cs, hrests, hcs⟩ := ih
    obtain ⟨as, u, m, q, hreads, hsift, hlast, hsifted⟩ :=
      reads_of_loops (returns_loop_iff.mp hpoll)
    cases hsifted with
    | pending =>
      refine ⟨as ++ cs, hreads.rests (.pending hlast hrests), ?_⟩
      simp [sift_append, hsift, hcs]
  | @item x y z n b bs hpoll _ ih =>
    obtain ⟨cs, hrests, hcs⟩ := ih
    obtain ⟨as, u, m, q, hreads, hsift, hlast, hsifted⟩ :=
      reads_of_loops (returns_loop_iff.mp hpoll)
    cases hsifted with
    | @item a _ _ hemit =>
      refine ⟨as ++ a :: cs, hreads.rests (.item hlast hrests), ?_⟩
      simp [sift_append, hsift, sift, hemit, hcs]

theorem Machine.Rests.sift {as : List α} (h : f.Rests ended s n as t) (k : κ) :
    (f.loop (siftTurn emit)).Rests ended (s, k) n (sift emit k as).1
      (t, (PolledStreams.sift emit k as).2) := by
  induction h generalizing k with
  | rest hpoll =>
    have hsifted : Sifted emit k (Machine.restResult ended) (Machine.restResult ended) k :=
      Sifted.rest_iff.mpr ⟨rfl, rfl⟩
    exact .rest (Loops.ret hpoll (siftTurn_ret_iff.mpr hsifted)).returns
  | pending hpoll _ ih =>
    exact .pending (Loops.ret hpoll (siftTurn_ret_iff.mpr .pending)).returns (ih k)
  | @item s t u n a as hpoll _ ih =>
    cases hemit : emit k a with
    | mk made l =>
      cases made with
      | none =>
        simp only [PolledStreams.sift, hemit]
        exact rests_of_next hpoll (siftTurn_next_iff.mpr ⟨a, rfl, hemit⟩) (ih l)
      | some b =>
        simp only [PolledStreams.sift, hemit]
        exact .item (Loops.ret hpoll (siftTurn_ret_iff.mpr (.item hemit))).returns (ih l)

/-- An adapter rests when the stream below does, and has made its items of all items so far. -/
theorem rests_sift_iff {bs : List β} :
    (f.loop (siftTurn emit)).Rests ended (s, k) n bs (t, l) ↔
      ∃ as, f.Rests ended s n as t ∧ sift emit k as = (bs, l) := by
  constructor
  · exact Machine.Rests.of_sift
  · rintro ⟨as, h, hsift⟩
    have hsifted : (f.loop (siftTurn emit)).Rests ended (s, k) n (sift emit k as).1
        (t, (sift emit k as).2) := h.sift k
    rwa [hsift] at hsifted

end

/-- A turn that passes on pending polls, puts away every item, and is ready at the end. -/
structure Drains {ι : Type y} (turn : κ → Poll (Option α) → ControlFlow β κ) (e : ι → κ)
    (push : ι → α → ι) (finish : ι → β × κ) : Prop where
  pending : ∀ i, turn (e i) .pending = .ret .pending (e i)
  item : ∀ i a, turn (e i) (.ready (some a)) = .next (e (push i a))
  done : ∀ i, turn (e i) (.ready none) = .ret (.ready (finish i).1) (finish i).2

namespace Drains
variable {ι : Type y} {turn : κ → Poll (Option α) → ControlFlow β κ} {e : ι → κ} {push : ι → α → ι}
  {finish : ι → β × κ} {f : Machine σ (Option α)}

/-- One poll reads items, and then a result that is pending or the end. -/
theorem reads_of_loops (h : Drains turn e push finish) {s t : σ} {i : ι} {l : κ} {r : Poll β}
    (hloops : Loops f turn s (e i) r t l) : ∃ as u q, Reads f s as u ∧ f.Returns u q t ∧
      turn (e (as.foldl push i)) q = .ret r l := by
  generalize hk : e i = k at hloops
  induction hloops generalizing i with
  | @ret s t k l q r hpoll hreturns =>
    subst hk
    exact ⟨[], s, q, .nil, hpoll, hreturns⟩
  | @next s t u k l m q r hpoll hgoes _ ih =>
    subst hk
    rcases q with _ | _ | a
    · cases (h.pending i).symm.trans hgoes
    · cases (h.done i).symm.trans hgoes
    · obtain ⟨as, v, p, hreads, hlast, hreturns⟩ :=
        ih (i := push i a) (ControlFlow.next.inj ((h.item i a).symm.trans hgoes))
      exact ⟨a :: as, v, p, .cons hpoll hreads, hlast, hreturns⟩

theorem rests_of_completes (h : Drains turn e push finish) {x y : σ × κ} {i : ι} {n : ℕ} {b : β}
    (hcompletes : (f.loop turn).Completes x n b y) (hx : x.2 = e i) :
    ∃ as, f.Rests true x.1 n as y.1 ∧ finish (as.foldl push i) = (b, y.2) := by
  induction hcompletes generalizing i with
  | @ready x y b hpoll =>
    obtain ⟨as, u, q, hreads, hlast, hreturns⟩ :=
      h.reads_of_loops (hx ▸ returns_loop_iff.mp hpoll)
    rcases q with _ | _ | a
    · cases (h.pending _).symm.trans hreturns
    · have hdone := (h.done (as.foldl push i)).symm.trans hreturns
      simp only [ControlFlow.ret.injEq, Poll.ready.injEq] at hdone
      refine ⟨as, ?_, Prod.ext hdone.1 hdone.2⟩
      have hrests : f.Rests true u 0 [] y.1 := .rest hlast
      simpa using hreads.rests hrests
    · cases (h.item _ a).symm.trans hreturns
  | @pending x y z n b hpoll _ ih =>
    obtain ⟨as, u, q, hreads, hlast, hreturns⟩ :=
      h.reads_of_loops (hx ▸ returns_loop_iff.mp hpoll)
    rcases q with _ | _ | a
    · have hpending := (h.pending (as.foldl push i)).symm.trans hreturns
      simp only [ControlFlow.ret.injEq, true_and] at hpending
      obtain ⟨cs, hrests, hfinish⟩ := ih hpending.symm
      refine ⟨as ++ cs, hreads.rests (.pending hlast hrests), ?_⟩
      rw [List.foldl_append, hfinish]
    · cases (h.done _).symm.trans hreturns
    · cases (h.item _ a).symm.trans hreturns

/-- The future is ready when the stream is at its end, with what was made of all the items, and
was pending as often as the stream was. -/
theorem completes_iff (h : Drains turn e push finish) {s : σ} {y : σ × κ} {i : ι} {n : ℕ} {b : β} :
    (f.loop turn).Completes (s, e i) n b y ↔ ∃ as t, f.Rests true s n as t ∧
      b = (finish (as.foldl push i)).1 ∧ y = (t, (finish (as.foldl push i)).2) := by
  constructor
  · intro hcompletes
    obtain ⟨as, hrests, hfinish⟩ := h.rests_of_completes hcompletes rfl
    exact ⟨as, y.1, hrests, by rw [hfinish], by rw [hfinish]⟩
  · rintro ⟨as, t, hrests, rfl, rfl⟩
    induction hrests generalizing i with
    | rest hpoll => exact .ready (Loops.ret hpoll (h.done i)).returns
    | pending hpoll _ ih => exact .pending (Loops.ret hpoll (h.pending i)).returns ih
    | @item s t u n a as hpoll _ ih => exact completes_of_next hpoll (h.item i a) ih

end Drains

end Eddy.PolledStreams
