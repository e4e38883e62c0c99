import Mathlib.Data.Fintype.Basic
import Eddy.Cancellation

/-!
# Cancellation through a tree of tokens

A token that was derived from a cancelled token is cancelled, or a call in progress is about to
reach it, as long as no uncancelled token is freed between a live ancestor and a live descendant:
the descendants of a freed token can no longer be reached.
-/

namespace Eddy.Cancellation
open Interleaving

/-- The call is about to cancel the child `d` of the cancelled token `p`, which has the children. -/
def Frame.Cancels (children : List ℕ) (p d : ℕ) : Frame → Prop
  | .cancel token _ .swap => token = d
  | .cancel token _ .take => token = p ∧ d ∈ children
  | .cancel token _ (.iterate taken) => token = p ∧ d ∈ taken
  | .childToken parent child _ => parent = p ∧ child = d

namespace State

/-- No call is in progress. -/
def Quiet (s : State) : Prop := s.frames = []

/-- Every live token that was derived from a cancelled token is cancelled. -/
def Reached (s : State) : Prop :=
  s.Quiet → ∀ a d, (s.tokens a).cancelled = true → a ∈ (s.tokens d).ancestors →
    (s.tokens d).handle = true → (s.tokens d).cancelled = true

def lastHandle (s : State) (i : ℕ) : Bool := s.frames.all (! ·.holds i)

/-- A token that is freed before it is cancelled has no live ancestor or no live descendant that
is not cancelled. -/
def KeepsTree (s : State) : Label → Prop
  | .drop i =>
    (s.tokens i).cancelled = false → s.lastHandle i = true →
      (∀ a ∈ (s.tokens i).ancestors, s.alive a = false) ∨
        ∀ d < s.made, i ∈ (s.tokens d).ancestors → s.alive d = true → (s.tokens d).cancelled = true
  | _ => True

instance (s : State) (a : Label) : Decidable (s.KeepsTree a) := by
  cases a <;> unfold KeepsTree <;> infer_instance

def FrameOk (s : State) (f : Frame) : Prop :=
  (∀ i, f.borrows i = true → (s.tokens i).handle = true) ∧
    (∀ i, f.holds i = true → i < s.made) ∧
    match f with
    | .cancel token mode stage =>
      (stage = .swap ∨ (s.tokens token).cancelled = true) ∧
        ∀ parent, mode = .created parent →
          (s.tokens token).ancestors = parent :: (s.tokens parent).ancestors
    | .childToken parent child _ =>
      (s.tokens child).ancestors = parent :: (s.tokens parent).ancestors

/-- A call in progress is about to cancel the child `d` of the cancelled token `p`. -/
def Pending (s : State) (p d : ℕ) : Prop := ∃ f ∈ s.frames, f.Cancels (s.tokens p).children p d

/-- The parent has the child in its list, or is about to put it there. -/
def Linked (s : State) (p d : ℕ) : Prop :=
  d ∈ (s.tokens p).children ∨ .childToken p d .first ∈ s.frames ∨ .childToken p d .push ∈ s.frames

/-- The token has a descendant that is not cancelled, and that only a call of `child_token` on a
cancelled token knows. -/
def Hidden (s : State) (d : ℕ) : Prop :=
  (s.tokens d).handle = false ∧
    ∃ p l, (s.tokens d).ancestors = p :: l ∧ (s.tokens p).cancelled = true

structure Sound (s : State) : Prop where
  fresh : ∀ i, s.made ≤ i → s.tokens i = ⟨false, [], false, []⟩
  ancestors : ∀ d p l, (s.tokens d).ancestors = p :: l → p < d ∧ l = (s.tokens p).ancestors
  frames : ∀ f ∈ s.frames, s.FrameOk f
  /-- A child of a cancelled token is cancelled or about to be. -/
  cancels : ∀ d p l, s.alive d = true → (s.tokens d).ancestors = p :: l →
    (s.tokens p).cancelled = true → (s.tokens d).cancelled = true ∨ s.Pending p d
  /-- A token that is not cancelled knows its children. -/
  linked : ∀ d p l, s.alive d = true → (s.tokens d).ancestors = p :: l →
    (s.tokens p).cancelled = false → s.Linked p d
  /-- A token that was freed before it was cancelled separates nothing. -/
  freed : ∀ c < s.made, s.alive c = false → (s.tokens c).cancelled = false →
    (∀ a ∈ (s.tokens c).ancestors, s.alive a = false ∧ (s.tokens a).cancelled = false) ∨
      ∀ d, c ∈ (s.tokens d).ancestors → s.alive d = true → (s.tokens d).cancelled = false →
        s.Hidden d

variable {s t : State} {k i : ℕ} {f : Frame} {rest : List Frame}

variable {token child parent d : ℕ} {mode : Mode}

theorem Sound.exists_edge (h : s.Sound) {a : ℕ} (ha : a ∈ (s.tokens d).ancestors)
    (hcancelled : (s.tokens a).cancelled = true) (hd : (s.tokens d).cancelled = false) :
    ∃ c p, (c = d ∨ c ∈ (s.tokens d).ancestors) ∧ p ∈ (s.tokens d).ancestors ∧
      (s.tokens c).ancestors = p :: (s.tokens p).ancestors ∧
      (s.tokens p).cancelled = true ∧ (s.tokens c).cancelled = false := by
  generalize hl : (s.tokens d).ancestors = l at ha
  induction l generalizing d with
  | nil => simp at ha
  | cons p l ih =>
    obtain ⟨-, hancestors⟩ := h.ancestors d p l hl
    cases hp : (s.tokens p).cancelled with
    | true => exact ⟨d, p, .inl rfl, List.mem_cons_self, hl.trans (hancestors ▸ rfl), hp, hd⟩
    | false =>
      have hne : a ≠ p := by
        rintro rfl
        exact Bool.false_ne_true (hp.symm.trans hcancelled)
      obtain ⟨c, q, hc, hq, hedge⟩ :=
        ih hp hancestors.symm ((List.mem_cons.mp ha).resolve_left hne)
      refine ⟨c, q, .inr ?_, List.mem_cons_of_mem p hq, hedge⟩
      rcases hc with rfl | hc
      · exact List.mem_cons_self
      · exact List.mem_cons_of_mem p hc

/-- Without calls in progress every live descendant of a cancelled token is cancelled. -/
theorem Sound.reached (h : s.Sound) : s.Reached := by
  intro hquiet a d ha hmem hhandle
  by_contra hcancelled
  have hd : (s.tokens d).cancelled = false := by simpa using hcancelled
  have hnone : ∀ p c, ¬ s.Pending p c := by
    rintro p c ⟨f, hf, -⟩
    rw [hquiet] at hf
    cases hf
  have halive : s.alive d = true := by simp [alive, hhandle]
  obtain ⟨c, p, hc, hp, hancestors, hpcancelled, hccancelled⟩ := h.exists_edge hmem ha hd
  cases hcalive : s.alive c with
  | true =>
    rcases h.cancels c p _ hcalive hancestors hpcancelled with htrue | hpending
    · exact Bool.false_ne_true (hccancelled.symm.trans htrue)
    · exact hnone p c hpending
  | false =>
    have hcd : c ∈ (s.tokens d).ancestors := by
      refine hc.resolve_left ?_
      rintro rfl
      exact Bool.false_ne_true (hcalive.symm.trans halive)
    have hmade : c < s.made := by
      by_contra hge
      rw [h.fresh c (Nat.le_of_not_lt hge)] at hancestors
      cases hancestors
    rcases h.freed c hmade hcalive hccancelled with hdead | hhidden
    · have := (hdead p (by simp [hancestors])).2
      exact Bool.false_ne_true (this.symm.trans hpcancelled)
    · have := (hhidden d hcd halive hd).1
      exact Bool.false_ne_true (this.symm.trans hhandle)

theorem alive_iff : s.alive i = true ↔
    (s.tokens i).handle = true ∨ ∃ f ∈ s.frames, f.holds i = true := by
  simp [alive]

/-- The call `f` goes on as the calls `new`, and the other calls stay. -/
structure Moves (s t : State) (f : Frame) (new : List Frame) : Prop where
  before : f ∈ s.frames
  kept : ∀ g ∈ s.frames, g = f ∨ g ∈ t.frames
  added : ∀ g ∈ new, g ∈ t.frames
  only : ∀ g ∈ t.frames, g ∈ new ∨ g ∈ s.frames

theorem Moves.goOn (hk : s.threads[k]? = some (f :: rest)) (new : List Frame)
    (hthreads : t.threads = s.threads.set k (new ++ rest)) : Moves s t f new := by
  have hlt := (List.getElem?_eq_some_iff.mp hk).1
  have hmem := List.mem_of_getElem? hk
  have hnew : new ++ rest ∈ t.threads := hthreads ▸ List.mem_set hlt _
  refine ⟨List.mem_flatten.mpr ⟨_, hmem, List.mem_cons_self⟩, fun g hg => ?_, fun g hg => ?_,
    fun g hg => ?_⟩
  · obtain ⟨calls, hcalls, hg⟩ := List.mem_flatten.mp hg
    obtain ⟨j, hj⟩ := List.mem_iff_getElem?.mp hcalls
    by_cases hjk : k = j
    · subst hjk
      obtain rfl : f :: rest = calls := Option.some.inj (hk.symm.trans hj)
      rcases List.mem_cons.mp hg with rfl | hg
      · exact .inl rfl
      · exact .inr (List.mem_flatten.mpr ⟨_, hnew, List.mem_append_right _ hg⟩)
    · refine .inr (List.mem_flatten.mpr ⟨calls, ?_, hg⟩)
      rw [hthreads]
      exact List.mem_iff_getElem?.mpr ⟨j, by simp [hjk, hj]⟩
  · exact List.mem_flatten.mpr ⟨_, hnew, List.mem_append_left _ hg⟩
  · obtain ⟨calls, hcalls, hg⟩ := List.mem_flatten.mp hg
    rw [hthreads] at hcalls
    rcases List.mem_or_eq_of_mem_set hcalls with hcalls | rfl
    · exact .inr (List.mem_flatten.mpr ⟨calls, hcalls, hg⟩)
    · rcases List.mem_append.mp hg with hg | hg
      · exact .inl hg
      · exact .inr (List.mem_flatten.mpr ⟨_, hmem, List.mem_cons_of_mem _ hg⟩)

/-- What a call may do to the tree. -/
structure Advances (s t : State) (f : Frame) (new : List Frame) : Prop where
  moves : Moves s t f new
  made : t.made = s.made
  fresh : ∀ i, t.made ≤ i → t.tokens i = ⟨false, [], false, []⟩
  ancestors : ∀ i, (t.tokens i).ancestors = (s.tokens i).ancestors
  /-- Flags are only set, those of live tokens. -/
  cancelled : ∀ i, (s.tokens i).cancelled = true → (t.tokens i).cancelled = true
  cancels : ∀ i, (t.tokens i).cancelled = true → (s.tokens i).cancelled = true ∨ s.alive i = true
  handle : ∀ i, (s.tokens i).handle = true → (t.tokens i).handle = true
  /-- A child is returned that is cancelled or has a parent that is not. -/
  returns : ∀ i, (t.tokens i).handle = true → (s.tokens i).handle = true ∨
    (t.tokens i).cancelled = true ∨
      ∀ p l, (s.tokens i).ancestors = p :: l → (s.tokens p).cancelled = false
  alive : ∀ i, t.alive i = true → s.alive i = true
  frees : ∀ i, s.alive i = true → t.alive i = true ∨ (t.tokens i).cancelled = true
  frames : ∀ g ∈ new, t.FrameOk g
  pending : ∀ p d, s.alive d = true → (s.tokens p).cancelled = true → s.Pending p d →
    (t.tokens d).cancelled = true ∨ t.Pending p d
  reaches : ∀ p d l, s.alive d = true → (s.tokens d).ancestors = p :: l →
    (s.tokens p).cancelled = false → (t.tokens p).cancelled = true →
      (t.tokens d).cancelled = true ∨ t.Pending p d
  linked : ∀ p d, (t.tokens p).cancelled = false → s.Linked p d → t.Linked p d

theorem Sound.lt_made (h : s.Sound) {p : ℕ} {l : List ℕ}
    (hd : (s.tokens d).ancestors = p :: l) : d < s.made := by
  by_contra hge
  rw [h.fresh d (Nat.le_of_not_lt hge)] at hd
  cases hd

/-- What a call has done and borrows stays so. -/
theorem Sound.frameOk (hsound : s.Sound) (h : s.FrameOk f) (hmade : s.made ≤ t.made)
    (hancestors : ∀ i < s.made, (t.tokens i).ancestors = (s.tokens i).ancestors)
    (hcancelled : ∀ i, (s.tokens i).cancelled = true → (t.tokens i).cancelled = true)
    (hhandle : ∀ i, f.borrows i = true → (s.tokens i).handle = true →
      (t.tokens i).handle = true) : t.FrameOk f := by
  have hchild : ∀ child parent,
      (s.tokens child).ancestors = parent :: (s.tokens parent).ancestors →
      (t.tokens child).ancestors = parent :: (t.tokens parent).ancestors := by
    intro child parent heq
    have hlt := hsound.lt_made heq
    have hparent := (hsound.ancestors child parent _ heq).1.trans hlt
    rw [hancestors child hlt, hancestors parent hparent, heq]
  obtain ⟨hborrows, hholds, hcall⟩ := h
  refine ⟨fun i hi => hhandle i hi (hborrows i hi), fun i hi => (hholds i hi).trans_le hmade, ?_⟩
  cases f with
  | cancel token mode stage =>
    exact ⟨hcall.1.imp_right (hcancelled token), fun parent hmode =>
      hchild token parent (hcall.2 parent hmode)⟩
  | childToken parent child check => exact hchild child parent hcall

theorem Sound.advance {new : List Frame} (h : s.Sound) (hadv : Advances s t f new) : t.Sound where
  fresh := hadv.fresh
  ancestors := by
    intro d p l hd
    rw [hadv.ancestors] at hd ⊢
    exact h.ancestors d p l hd
  frames := by
    intro g hg
    rcases hadv.moves.only g hg with hnew | hold
    · exact hadv.frames g hnew
    · exact h.frameOk (h.frames g hold) hadv.made.ge (fun i _ => hadv.ancestors i)
        hadv.cancelled fun i _ => hadv.handle i
  cancels := by
    intro d p l halive hd hp
    rw [hadv.ancestors] at hd
    have halive := hadv.alive d halive
    cases hbefore : (s.tokens p).cancelled with
    | false => exact hadv.reaches p d l halive hd hbefore hp
    | true =>
      rcases h.cancels d p l halive hd hbefore with hcancelled | hpending
      · exact .inl (hadv.cancelled d hcancelled)
      · exact hadv.pending p d halive hbefore hpending
  linked := by
    intro d p l halive hd hp
    rw [hadv.ancestors] at hd
    refine hadv.linked p d hp (h.linked d p l (hadv.alive d halive) hd ?_)
    by_contra htrue
    have := hadv.cancelled p (by simpa using htrue)
    exact Bool.false_ne_true (hp.symm.trans this)
  freed := by
    have hfalse : ∀ i, (t.tokens i).cancelled = false → (s.tokens i).cancelled = false := by
      intro i hi
      by_contra htrue
      have := hadv.cancelled i (by simpa using htrue)
      exact Bool.false_ne_true (hi.symm.trans this)
    have hdead : ∀ i, s.alive i = false → t.alive i = false := by
      intro i hi
      by_contra htrue
      have := hadv.alive i (by simpa using htrue)
      exact Bool.false_ne_true (hi.symm.trans this)
    intro c hc hcdead hccancelled
    have hcbefore : s.alive c = false := by
      by_contra htrue
      rcases hadv.frees c (by simpa using htrue) with halive | hcancelled
      · exact Bool.false_ne_true (hcdead.symm.trans halive)
      · exact Bool.false_ne_true (hccancelled.symm.trans hcancelled)
    rw [hadv.made] at hc
    rcases h.freed c hc hcbefore (hfalse c hccancelled) with hall | hhidden
    · refine .inl fun a ha => ?_
      rw [hadv.ancestors] at ha
      obtain ⟨hadead, hacancelled⟩ := hall a ha
      refine ⟨hdead a hadead, ?_⟩
      by_contra htrue
      rcases hadv.cancels a (by simpa using htrue) with hcancelled | halive
      · exact Bool.false_ne_true (hacancelled.symm.trans hcancelled)
      · exact Bool.false_ne_true (hadead.symm.trans halive)
    · refine .inr fun d hd halive hcancelled => ?_
      rw [hadv.ancestors] at hd
      obtain ⟨hhandle, p, l, hp, hpcancelled⟩ :=
        hhidden d hd (hadv.alive d halive) (hfalse d hcancelled)
      refine ⟨?_, p, l, (hadv.ancestors d).trans hp, hadv.cancelled p hpcancelled⟩
      by_contra htrue
      rcases hadv.returns d (by simpa using htrue) with hbefore | hset | hparent
      · exact Bool.false_ne_true (hhandle.symm.trans hbefore)
      · exact Bool.false_ne_true (hcancelled.symm.trans hset)
      · exact Bool.false_ne_true ((hparent p l hp).symm.trans hpcancelled)

/-- A call goes on that sets no flag and changes no list. -/
theorem Advances.of_same {new : List Frame} (h : s.Sound) (hmoves : Moves s t f new)
    (hmade : t.made = s.made)
    (htokens : ∀ i, t.tokens i = s.tokens i ∨
      s.alive i = true ∧ t.tokens i = { s.tokens i with handle := true } ∧
        ((s.tokens i).cancelled = true ∨
          ∀ p l, (s.tokens i).ancestors = p :: l → (s.tokens p).cancelled = false))
    (hholds : ∀ i, f.holds i = true →
      (∃ g ∈ new, g.holds i = true) ∨ (t.tokens i).handle = true ∨ (s.tokens i).cancelled = true)
    (hnew : ∀ g ∈ new, (∀ i, g.holds i = true → s.alive i = true) ∧ s.FrameOk g)
    (hpending : ∀ p d, s.alive d = true → (s.tokens p).cancelled = true →
      f.Cancels (s.tokens p).children p d →
      (s.tokens d).cancelled = true ∨ ∃ g ∈ new, g.Cancels (s.tokens p).children p d)
    (hlinked : ∀ p d, (s.tokens p).cancelled = false → f = .childToken p d .first ∨
      f = .childToken p d .push → .childToken p d .push ∈ new) :
    Advances s t f new := by
  have hcancelled : ∀ i, (t.tokens i).cancelled = (s.tokens i).cancelled := by
    intro i
    rcases htokens i with heq | ⟨-, heq, -⟩ <;> rw [heq]
  have hchildren : ∀ i, (t.tokens i).children = (s.tokens i).children := by
    intro i
    rcases htokens i with heq | ⟨-, heq, -⟩ <;> rw [heq]
  have hhandle : ∀ i, (s.tokens i).handle = true → (t.tokens i).handle = true := by
    intro i hi
    rcases htokens i with heq | ⟨-, heq, -⟩ <;> rw [heq]
    exact hi
  refine ⟨hmoves, hmade, fun i hi => ?_, fun i => ?_, fun i hi => ?_, fun i hi => ?_, hhandle,
    fun i hi => ?_, fun i hi => ?_, fun i hi => ?_, fun g hg => ?_, ?_, ?_, ?_⟩
  · rcases htokens i with heq | ⟨halive, -, -⟩
    · rw [heq]
      exact h.fresh i (hmade ▸ hi)
    · rw [hmade] at hi
      rcases alive_iff.mp halive with hset | ⟨g, hg, hholds⟩
      · rw [h.fresh i hi] at hset
        cases hset
      · exact absurd ((h.frames g hg).2.1 i hholds) (Nat.not_lt.mpr hi)
  · rcases htokens i with heq | ⟨-, heq, -⟩ <;> rw [heq]
  · exact (hcancelled i).trans hi
  · exact .inl ((hcancelled i).symm.trans hi)
  · rcases htokens i with heq | ⟨-, -, hreturn⟩
    · exact .inl (heq ▸ hi)
    · exact .inr (hreturn.imp_left fun htrue => (hcancelled i).trans htrue)
  · rcases htokens i with heq | ⟨halive, -, -⟩
    · rcases alive_iff.mp hi with hset | ⟨g, hg, hgi⟩
      · exact alive_iff.mpr (.inl (heq ▸ hset))
      · rcases hmoves.only g hg with hg | hg
        · exact (hnew g hg).1 i hgi
        · exact alive_iff.mpr (.inr ⟨g, hg, hgi⟩)
    · exact halive
  · rcases alive_iff.mp hi with hset | ⟨g, hg, hgi⟩
    · exact .inl (alive_iff.mpr (.inl (hhandle i hset)))
    · rcases hmoves.kept g hg with rfl | hg
      · rcases hholds i hgi with ⟨g', hg', hgi'⟩ | hset | htrue
        · exact .inl (alive_iff.mpr (.inr ⟨g', hmoves.added g' hg', hgi'⟩))
        · exact .inl (alive_iff.mpr (.inl hset))
        · exact .inr ((hcancelled i).trans htrue)
      · exact .inl (alive_iff.mpr (.inr ⟨g, hg, hgi⟩))
  · refine h.frameOk (hnew g hg).2 hmade.ge (fun i _ => ?_)
      (fun i hi => (hcancelled i).trans hi) fun i _ => hhandle i
    rcases htokens i with heq | ⟨-, heq, -⟩ <;> rw [heq]
  · rintro p d halive hp ⟨g, hg, hcancels⟩
    rw [hcancelled, Pending, hchildren]
    rcases hmoves.kept g hg with rfl | hg
    · refine (hpending p d halive hp hcancels).imp_right fun ⟨g', hg', hcancels'⟩ => ?_
      exact ⟨g', hmoves.added g' hg', hcancels'⟩
    · exact .inr ⟨g, hg, hcancels⟩
  · intro p d l _ _ hfalse htrue
    exact absurd ((hcancelled p).symm.trans htrue) (by simp [hfalse])
  · intro p d hp hlinks
    have hp := (hcancelled p).symm.trans hp
    rw [Linked, hchildren]
    refine hlinks.imp_right fun hlinks => ?_
    rcases hlinks with hfirst | hpush
    · rcases hmoves.kept _ hfirst with heq | hfirst
      · exact .inr (hmoves.added _ (hlinked p d hp (.inl heq.symm)))
      · exact .inl hfirst
    · rcases hmoves.kept _ hpush with heq | hpush
      · exact .inr (hmoves.added _ (hlinked p d hp (.inr heq.symm)))
      · exact .inr hpush

theorem Sound.lt_of_alive (h : s.Sound) (hi : s.alive i = true) : i < s.made := by
  rcases alive_iff.mp hi with hhandle | ⟨g, hg, hholds⟩
  · by_contra hge
    rw [h.fresh i (Nat.le_of_not_lt hge)] at hhandle
    cases hhandle
  · exact (h.frames g hg).2.1 i hholds

/-- A call of `cancel` returns on a cancelled token. -/
theorem Sound.finish {stage : Stage} (h : s.Sound)
    (hk : s.threads[k]? = some (.cancel token mode stage :: rest))
    (hcancelled : (s.tokens token).cancelled = true)
    (hpending : ∀ p d, Frame.Cancels (s.tokens p).children p d (.cancel token mode stage) →
      (s.tokens d).cancelled = true) : ((s.finish token mode).goOn k rest).Sound := by
  have hmoves : Moves s ((s.finish token mode).goOn k rest) (.cancel token mode stage) [] := by
    apply Moves.goOn hk
    cases mode <;> rfl
  have halive : ∀ parent, mode = .created parent → s.alive token = true := by
    rintro parent rfl
    exact alive_iff.mpr (.inr ⟨_, hmoves.before, by simp [Frame.holds]⟩)
  refine h.advance (Advances.of_same h hmoves ?_ (fun i => ?_) (fun i hi => ?_) nofun
    (fun p d _ _ hcancels => .inl (hpending p d hcancels)) ?_)
  · cases mode <;> rfl
  · cases mode with
    | borrowed | upgraded => exact .inl rfl
    | created parent =>
      by_cases hi : i = token
      · subst hi
        exact .inr ⟨halive parent rfl, by simp [State.finish, State.modify, goOn],
          .inl hcancelled⟩
      · exact .inl (by simp [State.finish, State.modify, goOn, hi])
  · obtain rfl : token = i := by cases mode <;> simp_all [Frame.holds]
    exact .inr (.inr hcancelled)
  · rintro p d - (heq | heq) <;> cases heq

/-- A call goes on that leaves the tokens as they are. -/
theorem Sound.goOn (h : s.Sound) (hk : s.threads[k]? = some (f :: rest)) (new : List Frame)
    (hholds : ∀ i, f.holds i = true → ∃ g ∈ new, g.holds i = true)
    (hnew : ∀ g ∈ new, (∀ i, g.holds i = true → s.alive i = true) ∧ s.FrameOk g)
    (hpending : ∀ p d, s.alive d = true → f.Cancels (s.tokens p).children p d →
      ∃ g ∈ new, g.Cancels (s.tokens p).children p d)
    (hlinked : ∀ p d, (s.tokens p).cancelled = false → f = .childToken p d .first ∨
      f = .childToken p d .push → .childToken p d .push ∈ new) :
    (s.goOn k (new ++ rest)).Sound :=
  h.advance (Advances.of_same h (Moves.goOn hk new rfl) rfl (fun _ => .inl rfl)
    (fun i hi => .inl (hholds i hi)) hnew
    (fun p d halive _ hcancels => .inr (hpending p d halive hcancels)) hlinked)

@[simp] theorem tokens_modify_goOn (s : State) (i k : ℕ) (g : Token → Token) (calls : List Frame)
    (j : ℕ) : ((s.modify i g).goOn k calls).tokens j =
      if j = i then g (s.tokens i) else s.tokens j := by
  simp [State.modify, State.goOn, Function.update_apply]

/-- What a call changes of a token while it goes on: its flag is set or its list changes. -/
def SetsFlag (g : Token → Token) : Prop :=
  ∀ x, (g x).handle = x.handle ∧ (g x).ancestors = x.ancestors ∧
    (x.cancelled = true → (g x).cancelled = true)

theorem Sound.frameOk_modify (h : s.Sound) (hok : s.FrameOk f) {g : Token → Token}
    (hg : SetsFlag g) (calls : List Frame) :
    ((s.modify token g).goOn k calls).FrameOk f := by
  refine h.frameOk hok le_rfl (fun i _ => ?_) (fun i hi => ?_) fun i _ hi => ?_
  · rw [tokens_modify_goOn]
    split_ifs with htoken
    · rw [htoken, (hg _).2.1]
    · rfl
  · rw [tokens_modify_goOn]
    split_ifs with htoken
    · exact (hg _).2.2 (htoken ▸ hi)
    · exact hi
  · rw [tokens_modify_goOn]
    split_ifs with htoken
    · exact (hg _).1.trans (htoken ▸ hi)
    · exact hi

theorem Advances.of_modify (h : s.Sound) {f' : Frame} {g : Token → Token}
    (hk : s.threads[k]? = some (f :: rest)) (htoken : s.alive token = true)
    (hg : SetsFlag g) (hholds : ∀ i, f'.holds i = f.holds i)
    (hframe : ((s.modify token g).goOn k (f' :: rest)).FrameOk f')
    (hpending : ∀ p d, (s.tokens p).cancelled = true → s.Pending p d →
      (((s.modify token g).goOn k (f' :: rest)).tokens d).cancelled = true ∨
        ((s.modify token g).goOn k (f' :: rest)).Pending p d)
    (hreaches : ∀ d l, s.alive d = true → (s.tokens d).ancestors = token :: l →
      (s.tokens token).cancelled = false → (g (s.tokens token)).cancelled = true →
        ((s.modify token g).goOn k (f' :: rest)).Pending token d)
    (hlinked : ∀ p d, (((s.modify token g).goOn k (f' :: rest)).tokens p).cancelled = false →
      s.Linked p d → ((s.modify token g).goOn k (f' :: rest)).Linked p d) :
    Advances s ((s.modify token g).goOn k (f' :: rest)) f [f'] := by
  have hmoves : Moves s ((s.modify token g).goOn k (f' :: rest)) f [f'] := Moves.goOn hk [f'] rfl
  have hhandle : ∀ i, (((s.modify token g).goOn k (f' :: rest)).tokens i).handle =
      (s.tokens i).handle := by
    intro i
    rw [tokens_modify_goOn]
    split_ifs with hi
    · rw [hi, (hg _).1]
    · rfl
  have hlt := h.lt_of_alive htoken
  refine ⟨hmoves, rfl, fun i hi => ?_, fun i => ?_, fun i hi => ?_, fun i hi => ?_, fun i hi => ?_,
    fun i hi => ?_, fun i hi => ?_, fun i hi => ?_, fun x hx => ?_, fun p d _ => hpending p d,
    fun p d l halive hd hfalse htrue => ?_, hlinked⟩
  · rw [tokens_modify_goOn, if_neg (by rintro rfl; exact absurd hlt (Nat.not_lt.mpr hi))]
    exact h.fresh i hi
  · rw [tokens_modify_goOn]
    split_ifs with hi
    · rw [hi, (hg _).2.1]
    · rfl
  · rw [tokens_modify_goOn]
    split_ifs with htok
    · exact (hg _).2.2 (htok ▸ hi)
    · exact hi
  · rw [tokens_modify_goOn] at hi
    split_ifs at hi with htok
    · exact .inr (htok ▸ htoken)
    · exact .inl hi
  · exact (hhandle i).trans hi
  · exact .inl ((hhandle i).symm.trans hi)
  · rcases alive_iff.mp hi with hset | ⟨x, hx, hxi⟩
    · exact alive_iff.mpr (.inl ((hhandle i).symm.trans hset))
    · rcases hmoves.only x hx with hx | hx
      · rw [List.mem_singleton.mp hx, hholds] at hxi
        exact alive_iff.mpr (.inr ⟨f, hmoves.before, hxi⟩)
      · exact alive_iff.mpr (.inr ⟨x, hx, hxi⟩)
  · left
    rcases alive_iff.mp hi with hset | ⟨x, hx, hxi⟩
    · exact alive_iff.mpr (.inl ((hhandle i).trans hset))
    · rcases hmoves.kept x hx with rfl | hx
      · exact alive_iff.mpr (.inr ⟨f', hmoves.added f' (by simp), (hholds i).trans hxi⟩)
      · exact alive_iff.mpr (.inr ⟨x, hx, hxi⟩)
  · rw [List.mem_singleton.mp hx]
    exact hframe
  · rw [tokens_modify_goOn] at htrue
    split_ifs at htrue with hp
    · subst hp
      exact .inr (hreaches d l halive hd hfalse htrue)
    · exact absurd (hfalse.symm.trans htrue) Bool.false_ne_true

/-- The token of a call of `cancel` is alive. -/
theorem Sound.alive_of_cancel (h : s.Sound) {stage : Stage}
    (hmem : .cancel token mode stage ∈ s.frames) : s.alive token = true := by
  cases mode with
  | borrowed =>
    exact alive_iff.mpr (.inl ((h.frames _ hmem).1 token (by simp [Frame.borrows])))
  | upgraded | created => exact alive_iff.mpr (.inr ⟨_, hmem, by simp [Frame.holds]⟩)

theorem Sound.swap (h : s.Sound)
    (hk : s.threads[k]? = some (.cancel token mode .swap :: rest)) :
    ((s.modify token fun x => { x with cancelled := true }).goOn k
      (.cancel token mode .take :: rest)).Sound := by
  set t := (s.modify token fun x => { x with cancelled := true }).goOn k
    (.cancel token mode .take :: rest) with ht
  have hmoves : Moves s t (.cancel token mode .swap) [.cancel token mode .take] :=
    Moves.goOn hk [_] rfl
  have hchildren : ∀ p, (t.tokens p).children = (s.tokens p).children := by
    intro p
    rw [ht, tokens_modify_goOn]
    split_ifs with hp
    · rw [hp]
    · rfl
  have hok := h.frames _ hmoves.before
  have hg : SetsFlag fun x => { x with cancelled := true } := fun _ => ⟨rfl, rfl, fun _ => rfl⟩
  refine h.advance (Advances.of_modify h hk (h.alive_of_cancel hmoves.before) hg
    (fun i => by cases mode <;> rfl) ?_ ?_ ?_ ?_)
  · have hsame : t.FrameOk (.cancel token mode .swap) :=
      h.frameOk_modify hok hg _
    refine ⟨fun i hi => hsame.1 i ?_, fun i hi => hsame.2.1 i ?_, .inr ?_, hsame.2.2.2⟩
    · cases mode <;> exact hi
    · cases mode <;> exact hi
    · simp
  · rintro p d - ⟨x, hx, hcancels⟩
    rcases hmoves.kept x hx with rfl | hx
    · left
      rw [tokens_modify_goOn, if_pos (Eq.symm hcancels)]
    · exact .inr ⟨x, hx, (hchildren p).symm ▸ hcancels⟩
  · intro d l halive hd hfalse _
    rcases h.linked d token l halive hd hfalse with hmem | hfirst | hpush
    · exact ⟨.cancel token mode .take, hmoves.added _ (by simp), rfl,
        (hchildren token).symm ▸ hmem⟩
    · exact ⟨.childToken token d .first, (hmoves.kept _ hfirst).resolve_left nofun, rfl, rfl⟩
    · exact ⟨.childToken token d .push, (hmoves.kept _ hpush).resolve_left nofun, rfl, rfl⟩
  · rintro p d - (hmem | hfirst | hpush)
    · exact .inl ((hchildren p).symm ▸ hmem)
    · exact .inr (.inl ((hmoves.kept _ hfirst).resolve_left nofun))
    · exact .inr (.inr ((hmoves.kept _ hpush).resolve_left nofun))

theorem Sound.take (h : s.Sound)
    (hk : s.threads[k]? = some (.cancel token mode .take :: rest)) :
    ((s.modify token fun x => { x with children := [] }).goOn k
      (.cancel token mode (.iterate (s.tokens token).children) :: rest)).Sound := by
  set t := (s.modify token fun x => { x with children := [] }).goOn k
    (.cancel token mode (.iterate (s.tokens token).children) :: rest) with ht
  have hmoves : Moves s t (.cancel token mode .take)
      [.cancel token mode (.iterate (s.tokens token).children)] := Moves.goOn hk [_] rfl
  have hother : ∀ p ≠ token, (t.tokens p).children = (s.tokens p).children := by
    intro p hp
    rw [ht, tokens_modify_goOn, if_neg hp]
  have hok := h.frames _ hmoves.before
  have hcancelled : (s.tokens token).cancelled = true := hok.2.2.1.resolve_left nofun
  have hg : SetsFlag fun x => { x with children := [] } := fun _ => ⟨rfl, rfl, id⟩
  refine h.advance (Advances.of_modify h hk (h.alive_of_cancel hmoves.before) hg
    (fun i => by cases mode <;> rfl) ?_ ?_ ?_ ?_)
  · have hsame : t.FrameOk (.cancel token mode .take) :=
      h.frameOk_modify hok hg _
    refine ⟨fun i hi => hsame.1 i ?_, fun i hi => hsame.2.1 i ?_, .inr ?_, hsame.2.2.2⟩
    · cases mode <;> exact hi
    · cases mode <;> exact hi
    · exact hsame.2.2.1.resolve_left nofun
  · rintro p d - ⟨x, hx, hcancels⟩
    right
    by_cases hp : p = token
    · subst hp
      have htaken : d ∈ (s.tokens p).children → t.Pending p d := fun hmem =>
        ⟨.cancel p mode (.iterate (s.tokens p).children), hmoves.added _ (by simp), rfl, hmem⟩
      cases x with
      | childToken => exact ⟨_, (hmoves.kept _ hx).resolve_left nofun, hcancels⟩
      | cancel token' mode' stage =>
        cases stage with
        | swap => exact ⟨_, (hmoves.kept _ hx).resolve_left nofun, hcancels⟩
        | take => exact htaken hcancels.2
        | iterate => exact ⟨_, (hmoves.kept _ hx).resolve_left nofun, hcancels⟩
    · rcases hmoves.kept x hx with rfl | hx
      · exact absurd hcancels.1.symm hp
      · exact ⟨x, hx, (hother p hp).symm ▸ hcancels⟩
  · intro d l _ _ hfalse
    exact absurd (hfalse.symm.trans hcancelled) Bool.false_ne_true
  · intro p d hp hlinks
    have hne : p ≠ token := by
      rintro rfl
      rw [tokens_modify_goOn, if_pos rfl] at hp
      exact Bool.false_ne_true (hp.symm.trans hcancelled)
    rcases hlinks with hmem | hfirst | hpush
    · exact .inl ((hother p hne).symm ▸ hmem)
    · exact .inr (.inl ((hmoves.kept _ hfirst).resolve_left nofun))
    · exact .inr (.inr ((hmoves.kept _ hpush).resolve_left nofun))

theorem Sound.push (h : s.Sound)
    (hk : s.threads[k]? = some (.childToken parent child .push :: rest)) :
    ((s.modify parent fun x => { x with children := x.children ++ [child] }).goOn k
      (.childToken parent child .second :: rest)).Sound := by
  set t := (s.modify parent fun x => { x with children := x.children ++ [child] }).goOn k
    (.childToken parent child .second :: rest) with ht
  have hmoves : Moves s t (.childToken parent child .push) [.childToken parent child .second] :=
    Moves.goOn hk [_] rfl
  have hgrows : ∀ p, (s.tokens p).children ⊆ (t.tokens p).children := by
    intro p
    rw [ht, tokens_modify_goOn]
    split_ifs with hp
    · rw [hp]
      exact List.subset_append_left _ _
    · exact List.Subset.refl _
  have hok := h.frames _ hmoves.before
  have hparent : s.alive parent = true :=
    alive_iff.mpr (.inl (hok.1 parent (by simp [Frame.borrows])))
  have hg : SetsFlag fun x => { x with children := x.children ++ [child] } :=
    fun _ => ⟨rfl, rfl, id⟩
  refine h.advance (Advances.of_modify h hk hparent hg (fun i => rfl)
    (h.frameOk_modify (f := .childToken parent child .second) hok hg _)
    ?_ ?_ ?_)
  · rintro p d - ⟨x, hx, hcancels⟩
    right
    rcases hmoves.kept x hx with rfl | hx
    · exact ⟨.childToken parent child .second, hmoves.added _ (by simp), hcancels⟩
    · refine ⟨x, hx, ?_⟩
      cases x with
      | childToken => exact hcancels
      | cancel token mode stage =>
        cases stage with
        | swap | iterate => exact hcancels
        | take => exact ⟨hcancels.1, hgrows p hcancels.2⟩
  · intro d l _ _ hfalse htrue
    exact absurd (hfalse.symm.trans htrue) Bool.false_ne_true
  · rintro p d - (hmem | hfirst | hpush)
    · exact .inl (hgrows p hmem)
    · exact .inr (.inl ((hmoves.kept _ hfirst).resolve_left nofun))
    · rcases hmoves.kept _ hpush with heq | hpush
      · cases heq
        left
        rw [tokens_modify_goOn, if_pos rfl]
        exact List.mem_append_right _ (List.mem_singleton_self _)
      · exact .inr (.inr hpush)

/-- A call of `child_token` returns the child of a token that is not cancelled. -/
theorem Sound.returnChild (h : s.Sound)
    (hk : s.threads[k]? = some (.childToken parent child .second :: rest))
    (hparent : (s.tokens parent).cancelled = false) :
    ((s.modify child fun x => { x with handle := true }).goOn k rest).Sound := by
  have hmoves : Moves s ((s.modify child fun x => { x with handle := true }).goOn k rest)
      (.childToken parent child .second) [] := Moves.goOn hk [] rfl
  have hok := h.frames _ hmoves.before
  refine h.advance (Advances.of_same h hmoves rfl (fun i => ?_) (fun i hi => ?_) nofun ?_ ?_)
  · rw [tokens_modify_goOn]
    split_ifs with hi
    · subst hi
      refine .inr ⟨alive_iff.mpr (.inr ⟨_, hmoves.before, by simp [Frame.holds]⟩), rfl, .inr ?_⟩
      intro p l hp
      obtain rfl : parent = p := (List.cons.inj (hok.2.2.symm.trans hp)).1
      exact hparent
    · exact .inl rfl
  · obtain rfl : child = i := by simpa [Frame.holds] using hi
    exact .inr (.inl (by simp))
  · rintro p d - hp ⟨rfl, rfl⟩
    exact absurd (hparent.symm.trans hp) Bool.false_ne_true
  · rintro p d - (heq | heq) <;> cases heq

/-- A call of `cancel` goes on to the next child, or past a child that was freed. -/
theorem Sound.iterate (h : s.Sound) {taken : List ℕ}
    (hk : s.threads[k]? = some (.cancel token mode (.iterate (child :: taken)) :: rest)) :
    (s.runFrame k rest (.cancel token mode (.iterate (child :: taken)))).Sound := by
  have hmem := (Moves.goOn (t := s.goOn k rest) hk [] rfl).before
  have hok := h.frames _ hmem
  have hnext : (∀ i, Frame.holds i (.cancel token mode (.iterate taken)) = true →
      s.alive i = true) ∧ s.FrameOk (.cancel token mode (.iterate taken)) := by
    refine ⟨fun i hi => alive_iff.mpr (.inr ⟨_, hmem, ?_⟩), fun i hi => hok.1 i ?_,
      fun i hi => hok.2.1 i ?_, .inr (hok.2.2.1.resolve_left nofun), hok.2.2.2⟩
    all_goals cases mode <;> exact hi
  have hheld : ∀ i, Frame.holds i (.cancel token mode (.iterate (child :: taken))) = true →
      Frame.holds i (.cancel token mode (.iterate taken)) = true := by
    intro i hi
    cases mode <;> exact hi
  have hlinked : ∀ new : List Frame, ∀ p d, (s.tokens p).cancelled = false →
      Frame.cancel token mode (.iterate (child :: taken)) = .childToken p d .first ∨
        Frame.cancel token mode (.iterate (child :: taken)) = .childToken p d .push →
      Frame.childToken p d .push ∈ new := by
    rintro new p d - (heq | heq) <;> cases heq
  rw [State.runFrame]
  split_ifs with halive
  · refine h.goOn hk [.cancel child .upgraded .swap, .cancel token mode (.iterate taken)]
      (fun i hi => ⟨_, by simp, hheld i hi⟩) (fun g hg => ?_) (fun p d _ hd => ?_) (hlinked _)
    · rcases List.mem_cons.mp hg with rfl | hg
      · refine ⟨fun i hi => ?_, nofun, fun i hi => ?_, .inl rfl, nofun⟩
        · obtain rfl : child = i := by simpa [Frame.holds] using hi
          exact halive
        · obtain rfl : child = i := by simpa [Frame.holds] using hi
          exact h.lt_of_alive halive
      · rw [List.mem_singleton.mp hg]
        exact hnext
    · rcases List.mem_cons.mp hd.2 with rfl | hd'
      · exact ⟨.cancel d .upgraded .swap, by simp, rfl⟩
      · exact ⟨.cancel token mode (.iterate taken), by simp, hd.1, hd'⟩
  · refine h.goOn hk [.cancel token mode (.iterate taken)]
      (fun i hi => ⟨_, by simp, hheld i hi⟩) (fun g hg => ?_) (fun p d hdalive hd => ?_) (hlinked _)
    · rw [List.mem_singleton.mp hg]
      exact hnext
    · refine ⟨.cancel token mode (.iterate taken), by simp, hd.1, ?_⟩
      refine (List.mem_cons.mp hd.2).resolve_left ?_
      rintro rfl
      exact halive hdalive

/-- A call of `child_token` finds the parent cancelled. -/
theorem Sound.cancelChild (h : s.Sound) {check : Check}
    (hk : s.threads[k]? = some (.childToken parent child check :: rest))
    (hcancelled : (s.tokens parent).cancelled = true) :
    (s.goOn k (.cancel child (.created parent) .swap :: rest)).Sound := by
  have hmem := (Moves.goOn (t := s.goOn k rest) hk [] rfl).before
  have hok := h.frames _ hmem
  have hchild : s.alive child = true := alive_iff.mpr (.inr ⟨_, hmem, by simp [Frame.holds]⟩)
  refine h.goOn hk [.cancel child (.created parent) .swap]
    (fun i hi => ⟨.cancel child (.created parent) .swap, by simp, hi⟩) (fun g hg => ?_)
    (fun p d _ hd => ⟨.cancel child (.created parent) .swap, by simp, hd.2⟩) ?_
  · rw [List.mem_singleton.mp hg]
    refine ⟨fun i hi => ?_, fun i hi => hok.1 i hi, fun i hi => ?_, .inl rfl, fun p hp => ?_⟩
    · obtain rfl : child = i := by simpa [Frame.holds] using hi
      exact hchild
    · obtain rfl : child = i := by simpa [Frame.holds] using hi
      exact h.lt_of_alive hchild
    · cases hp
      exact hok.2.2
  · rintro p d hfalse (heq | heq)
    all_goals
      cases heq
      exact absurd (hfalse.symm.trans hcancelled) Bool.false_ne_true

/-- A call of `child_token` finds the parent not cancelled and goes on to push the child. -/
theorem Sound.firstCheck (h : s.Sound)
    (hk : s.threads[k]? = some (.childToken parent child .first :: rest)) :
    (s.goOn k (.childToken parent child .push :: rest)).Sound := by
  have hmem := (Moves.goOn (t := s.goOn k rest) hk [] rfl).before
  have hok := h.frames _ hmem
  refine h.goOn hk [.childToken parent child .push]
    (fun i hi => ⟨.childToken parent child .push, by simp, hi⟩) (fun g hg => ?_)
    (fun p d _ hd => ⟨.childToken parent child .push, by simp, hd⟩) ?_
  · rw [List.mem_singleton.mp hg]
    exact ⟨fun i hi => alive_iff.mpr (.inr ⟨_, hmem, hi⟩), hok⟩
  · rintro p d - (heq | heq)
    · cases heq
      exact List.mem_singleton_self _
    · cases heq

theorem Sound.runFrame (h : s.Sound) (hk : s.threads[k]? = some (f :: rest)) :
    (s.runFrame k rest f).Sound := by
  have hmem := (Moves.goOn (t := s.goOn k rest) hk [] rfl).before
  cases f with
  | cancel token mode stage =>
    cases stage with
    | swap =>
      rw [State.runFrame]
      split_ifs with hcancelled
      · exact h.finish hk hcancelled fun p d (hd : token = d) => hd ▸ hcancelled
      · exact h.swap hk
    | take => exact h.take hk
    | iterate taken =>
      cases taken with
      | nil =>
        have hcancelled := (h.frames _ hmem).2.2.1.resolve_left nofun
        exact h.finish hk hcancelled fun p d hd => nomatch hd.2
      | cons child taken => exact h.iterate hk
  | childToken parent child check =>
    cases check with
    | first =>
      rw [State.runFrame]
      split_ifs with hcancelled
      · exact h.cancelChild hk hcancelled
      · exact h.firstCheck hk
    | push => exact h.push hk
    | second =>
      rw [State.runFrame]
      split_ifs with hcancelled
      · exact h.cancelChild hk hcancelled
      · exact h.returnChild hk (by simpa using hcancelled)

theorem Sound.ancestor_lt (h : s.Sound) {a : ℕ} (ha : a ∈ (s.tokens d).ancestors) : a < d := by
  induction d using Nat.strong_induction_on with
  | _ d ih =>
    cases hd : (s.tokens d).ancestors with
    | nil => simp [hd] at ha
    | cons p l =>
      obtain ⟨hlt, hl⟩ := h.ancestors d p l hd
      rw [hd] at ha
      rcases List.mem_cons.mp ha with rfl | ha
      · exact hlt
      · exact (ih p hlt (hl ▸ ha)).trans hlt

theorem tokens_make_of_ne {handle : Bool} {ancestors : List ℕ} (hi : i ≠ s.made) :
    (s.make handle ancestors).tokens i = s.tokens i := by
  simp [State.make, hi]

@[simp] theorem tokens_make_self (s : State) (handle : Bool) (ancestors : List ℕ) :
    (s.make handle ancestors).tokens s.made = ⟨false, [], handle, ancestors⟩ := by
  simp [State.make]

/-- `t` is `s` with a new token, and with the calls that hold it. -/
structure Makes (s t : State) (handle : Bool) (ancestors : List ℕ) (calls : List Frame) :
    Prop where
  made : t.made = s.made + 1
  frames : t.frames = s.frames ++ calls
  other : ∀ i ≠ s.made, t.tokens i = s.tokens i
  self : t.tokens s.made = ⟨false, [], handle, ancestors⟩
  parent : ∀ p l, ancestors = p :: l → (s.tokens p).handle = true ∧
    l = (s.tokens p).ancestors ∧ handle = false ∧ .childToken p s.made .first ∈ calls
  alive : t.alive s.made = true
  holds : ∀ f ∈ calls, ∀ i, f.holds i = true → i = s.made

namespace Makes

variable {handle : Bool} {ancestors : List ℕ} {calls : List Frame}

theorem alive_eq (h : Makes s t handle ancestors calls) (hi : i ≠ s.made) :
    t.alive i = s.alive i := by
  rw [Bool.eq_iff_iff, alive_iff, alive_iff, h.other i hi]
  refine or_congr_right ⟨fun ⟨f, hf, hholds⟩ => ?_, fun ⟨f, hf, hholds⟩ => ?_⟩
  · rcases List.mem_append.mp (h.frames ▸ hf) with hf | hf
    · exact ⟨f, hf, hholds⟩
    · exact absurd (h.holds f hf i hholds) hi
  · exact ⟨f, h.frames ▸ List.mem_append_left _ hf, hholds⟩

variable {p d : ℕ} {l : List ℕ}

/-- The other tokens have the parents that they had. -/
theorem old (h : Makes s t handle ancestors calls) (hsound : s.Sound)
    (hd : d ≠ s.made) (hp : (t.tokens d).ancestors = p :: l) :
    (s.tokens d).ancestors = p :: l ∧ p ≠ s.made := by
  rw [h.other d hd] at hp
  have := hsound.lt_made hp
  have := (hsound.ancestors d p l hp).1
  exact ⟨hp, by omega⟩

theorem parent_lt (h : Makes s t handle ancestors calls) (hsound : s.Sound)
    (hp : ancestors = p :: l) : p < s.made :=
  hsound.lt_of_alive (alive_iff.mpr (.inl (h.parent p l hp).1))

theorem ancestors_self (h : Makes s t handle ancestors calls) :
    (t.tokens s.made).ancestors = ancestors := by rw [h.self]

theorem frameOk (h : Makes s t handle ancestors calls) (hsound : s.Sound) (hf : f ∈ s.frames) :
    t.FrameOk f := by
  refine hsound.frameOk (hsound.frames f hf) (by have := h.made; omega) (fun i hi => ?_)
    (fun i hi => ?_) fun i _ hi => ?_
  · rw [h.other i hi.ne]
  all_goals
    have hne : i ≠ s.made := by
      rintro rfl
      rw [hsound.fresh _ le_rfl] at hi
      cases hi
    rw [h.other i hne]
    exact hi

theorem cancels (h : Makes s t handle ancestors calls) (hsound : s.Sound)
    (halive : t.alive d = true) (hd : (t.tokens d).ancestors = p :: l)
    (hp : (t.tokens p).cancelled = true) : (t.tokens d).cancelled = true ∨ t.Pending p d := by
  by_cases hdm : d = s.made
  · subst hdm
    obtain ⟨-, -, -, hcall⟩ := h.parent p l (h.ancestors_self.symm.trans hd)
    exact .inr ⟨.childToken p s.made .first, h.frames ▸ List.mem_append_right _ hcall, rfl, rfl⟩
  · obtain ⟨hd, hpm⟩ := h.old hsound hdm hd
    rw [h.other p hpm] at hp
    rw [h.other d hdm, Pending, h.other p hpm]
    have hbefore := hsound.cancels d p l (h.alive_eq hdm ▸ halive) hd hp
    refine hbefore.imp_right fun ⟨f, hf, hd⟩ => ?_
    exact ⟨f, h.frames ▸ List.mem_append_left _ hf, hd⟩

theorem linked (h : Makes s t handle ancestors calls) (hsound : s.Sound)
    (halive : t.alive d = true) (hd : (t.tokens d).ancestors = p :: l)
    (hp : (t.tokens p).cancelled = false) : t.Linked p d := by
  by_cases hdm : d = s.made
  · subst hdm
    obtain ⟨-, -, -, hcall⟩ := h.parent p l (h.ancestors_self.symm.trans hd)
    exact .inr (.inl (h.frames ▸ List.mem_append_right _ hcall))
  · obtain ⟨hd, hpm⟩ := h.old hsound hdm hd
    rw [h.other p hpm] at hp
    rw [Linked, h.other p hpm, h.frames]
    have hbefore := hsound.linked d p l (h.alive_eq hdm ▸ halive) hd hp
    refine hbefore.imp_right fun hlinks => ?_
    exact hlinks.imp (List.mem_append_left _) (List.mem_append_left _)

/-- Behind a freed token the new one is hidden if its parent is. -/
theorem hidden (h : Makes s t handle ancestors calls) (hsound : s.Sound) {c : ℕ}
    (hdead : s.alive c = false)
    (hhidden : ∀ d, c ∈ (s.tokens d).ancestors → s.alive d = true →
      (s.tokens d).cancelled = false → s.Hidden d)
    (hd : c ∈ (t.tokens d).ancestors) (halive : t.alive d = true)
    (hcancelled : (t.tokens d).cancelled = false) : t.Hidden d := by
  by_cases hdm : d = s.made
  · subst hdm
    rw [h.ancestors_self] at hd
    cases hanc : ancestors with
    | nil => simp [hanc] at hd
    | cons p l =>
      obtain ⟨hhandle, hl, hfalse, -⟩ := h.parent p l hanc
      have hpalive : s.alive p = true := alive_iff.mpr (.inl hhandle)
      refine ⟨by rw [h.self, hfalse], p, l, h.ancestors_self.trans hanc, ?_⟩
      rw [h.other p (h.parent_lt hsound hanc).ne]
      by_contra hpfalse
      rw [hanc] at hd
      rcases List.mem_cons.mp hd with rfl | hd
      · exact Bool.false_ne_true (hdead.symm.trans hpalive)
      · have := (hhidden p (hl ▸ hd) hpalive (by simpa using hpfalse)).1
        exact Bool.false_ne_true (this.symm.trans hhandle)
  · rw [h.other d hdm] at hd hcancelled
    obtain ⟨hhandle, p, l, hp, hpcancelled⟩ := hhidden d hd (h.alive_eq hdm ▸ halive) hcancelled
    have hpm : p ≠ s.made := ((hsound.ancestors d p l hp).1.trans (hsound.lt_made hp)).ne
    refine ⟨by rw [h.other d hdm, hhandle], p, l, by rw [h.other d hdm, hp], ?_⟩
    rw [h.other p hpm, hpcancelled]

theorem sound (h : Makes s t handle ancestors calls) (hsound : s.Sound)
    (hcalls : ∀ f ∈ calls, t.FrameOk f) : t.Sound where
  fresh i hi := by
    have hlt : s.made < i := by
      have := h.made
      omega
    rw [h.other i hlt.ne']
    exact hsound.fresh i hlt.le
  ancestors d p l hd := by
    by_cases hdm : d = s.made
    · subst hdm
      have hp := h.ancestors_self.symm.trans hd
      have hlt := h.parent_lt hsound hp
      obtain ⟨-, hl, -⟩ := h.parent p l hp
      exact ⟨hlt, by rw [h.other p hlt.ne, hl]⟩
    · obtain ⟨hd, hpm⟩ := h.old hsound hdm hd
      obtain ⟨hlt, hl⟩ := hsound.ancestors d p l hd
      exact ⟨hlt, by rw [h.other p hpm, hl]⟩
  frames f hf := by
    rcases List.mem_append.mp (h.frames ▸ hf) with hf | hf
    · exact h.frameOk hsound hf
    · exact hcalls f hf
  cancels d p l halive hd hp := h.cancels hsound halive hd hp
  linked d p l halive hd hp := h.linked hsound halive hd hp
  freed c hc hdead hcancelled := by
    have hcm : c ≠ s.made := by
      rintro rfl
      exact Bool.false_ne_true (hdead.symm.trans h.alive)
    have hclt : c < s.made := by
      have := h.made
      omega
    rw [h.alive_eq hcm] at hdead
    rw [h.other c hcm] at hcancelled
    rcases hsound.freed c hclt hdead hcancelled with hall | hhidden
    · refine .inl fun a ha => ?_
      rw [h.other c hcm] at ha
      have ham : a ≠ s.made := ((hsound.ancestor_lt ha).trans hclt).ne
      rw [h.alive_eq ham, h.other a ham]
      exact hall a ha
    · exact .inr fun d hd halive hdcancelled => h.hidden hsound hdead hhidden hd halive hdcancelled

end Makes

/-- A token is made, by a call of `child_token` when it has a parent. -/
theorem Sound.make (h : s.Sound) {handle : Bool} {ancestors : List ℕ} (calls : List Frame)
    (threads : List (List Frame)) (hthreads : threads.flatten = s.frames ++ calls)
    (hparent : ∀ p l, ancestors = p :: l → (s.tokens p).handle = true ∧
      l = (s.tokens p).ancestors ∧ handle = false ∧ .childToken p s.made .first ∈ calls)
    (halive : handle = true ∨ ∃ f ∈ calls, f.holds s.made = true)
    (hcalls : ∀ f ∈ calls, FrameOk { s.make handle ancestors with threads := threads } f ∧
      ∀ i, f.holds i = true → i = s.made) :
    Sound { s.make handle ancestors with threads := threads } := by
  set t : State := { s.make handle ancestors with threads := threads } with ht
  have hframes : t.frames = s.frames ++ calls := hthreads
  have hself : t.tokens s.made = ⟨false, [], handle, ancestors⟩ := tokens_make_self s _ _
  have hmade : t.alive s.made = true := by
    rcases halive with rfl | ⟨f, hf, hholds⟩
    · exact alive_iff.mpr (.inl (by rw [hself]))
    · exact alive_iff.mpr (.inr ⟨f, hframes ▸ List.mem_append_right _ hf, hholds⟩)
  have hmakes : Makes s t handle ancestors calls :=
    ⟨rfl, hframes, fun i hi => tokens_make_of_ne hi, hself, hparent, hmade,
      fun f hf => (hcalls f hf).2⟩
  exact hmakes.sound h fun f hf => (hcalls f hf).1

theorem Sound.callCancel (h : s.Sound) (hi : (s.tokens i).handle = true) :
    Sound { s with threads := s.threads ++ [[.cancel i .borrowed .swap]] } := by
  set t : State := { s with threads := s.threads ++ [[.cancel i .borrowed .swap]] } with ht
  have hframes : t.frames = s.frames ++ [.cancel i .borrowed .swap] := by
    simp [State.frames, ht]
  have hmem : ∀ g ∈ s.frames, g ∈ t.frames := fun g hg => hframes ▸ List.mem_append_left _ hg
  have halive : ∀ j, t.alive j = s.alive j := by
    intro j
    have hdef : t.alive j = ((s.tokens j).handle || t.frames.any (Frame.holds j)) := rfl
    rw [hdef, hframes, List.any_append]
    simp [alive, Frame.holds]
  refine ⟨h.fresh, h.ancestors, fun g hg => ?_, fun d p l hd hp hcancelled => ?_,
    fun d p l hd hp hcancelled => ?_, fun c hc hdead hcancelled => ?_⟩
  · rcases List.mem_append.mp (hframes ▸ hg) with hg | hg
    · exact h.frames g hg
    · rw [List.mem_singleton.mp hg]
      refine ⟨fun j hj => ?_, nofun, .inl rfl, nofun⟩
      obtain rfl : i = j := by simpa [Frame.borrows] using hj
      exact hi
  · refine (h.cancels d p l ((halive d).symm.trans hd) hp hcancelled).imp_right ?_
    exact fun ⟨g, hg, hcancels⟩ => ⟨g, hmem g hg, hcancels⟩
  · refine (h.linked d p l ((halive d).symm.trans hd) hp hcancelled).imp_right ?_
    exact fun hlinks => hlinks.imp (hmem _) (hmem _)
  · rcases h.freed c hc ((halive c).symm.trans hdead) hcancelled with hall | hhidden
    · exact .inl fun a ha => ⟨(halive a).trans (hall a ha).1, (hall a ha).2⟩
    · exact .inr fun d hd hdalive => hhidden d hd ((halive d).symm.trans hdalive)

theorem Sound.ancestors_uncancelled (h : s.Sound) (hi : (s.tokens i).handle = true)
    (hcancelled : (s.tokens i).cancelled = false)
    (hborrowed : ∀ f ∈ s.frames, f.borrows i = false) (hheld : ∀ f ∈ s.frames, f.holds i = false)
    (hdead : ∀ a ∈ (s.tokens i).ancestors, s.alive a = false) :
    ∀ a ∈ (s.tokens i).ancestors, (s.tokens a).cancelled = false := by
  intro a ha
  by_contra htrue
  obtain ⟨c, p, hc, hp, hancestors, hpcancelled, hccancelled⟩ :=
    h.exists_edge ha (by simpa using htrue) hcancelled
  have halive : s.alive i = true := alive_iff.mpr (.inl hi)
  have hpdead := hdead p hp
  rcases hc with rfl | hc
  · rcases h.cancels c p _ halive hancestors hpcancelled with hset | ⟨f, hf, hcancels⟩
    · exact Bool.false_ne_true (hccancelled.symm.trans hset)
    · have hparent : s.alive p = true ∨ f.borrows c = true ∨ f.holds c = true := by
        cases f with
        | cancel token mode stage =>
          cases stage with
          | swap =>
            obtain rfl : token = c := hcancels
            cases mode <;> simp [Frame.borrows, Frame.holds]
          | take | iterate =>
            obtain rfl : token = p := hcancels.1
            exact .inl (h.alive_of_cancel hf)
        | childToken parent child check =>
          obtain rfl : parent = p := hcancels.1
          have := (h.frames _ hf).1 parent (by simp [Frame.borrows])
          exact .inl (alive_iff.mpr (.inl this))
      rcases hparent with hparent | hborrows | hholds
      · exact Bool.false_ne_true (hpdead.symm.trans hparent)
      · exact Bool.false_ne_true ((hborrowed f hf).symm.trans hborrows)
      · exact Bool.false_ne_true ((hheld f hf).symm.trans hholds)
  · rcases h.freed c (h.lt_made hancestors) (hdead c hc) hccancelled with hall | hhidden
    · have := (hall p (by simp [hancestors])).2
      exact Bool.false_ne_true (this.symm.trans hpcancelled)
    · have := (hhidden i hc halive hcancelled).1
      exact Bool.false_ne_true (this.symm.trans hi)

theorem Sound.freed_of_keepsTree (h : s.Sound) (hi : (s.tokens i).handle = true)
    (hborrowed : ∀ f ∈ s.frames, f.borrows i = false) (hkeeps : s.KeepsTree (.drop i))
    (hheld : ∀ f ∈ s.frames, f.holds i = false) (hcancelled : (s.tokens i).cancelled = false) :
    (∀ a ∈ (s.tokens i).ancestors, s.alive a = false ∧ (s.tokens a).cancelled = false) ∨
      ∀ d, i ∈ (s.tokens d).ancestors → s.alive d = true → (s.tokens d).cancelled = false →
        s.Hidden d := by
  have hlast : s.lastHandle i = true :=
    List.all_eq_true.mpr fun f hf => by simp [hheld f hf]
  rcases hkeeps hcancelled hlast with hnone | hall
  · exact .inl fun a ha =>
      ⟨hnone a ha, h.ancestors_uncancelled hi hcancelled hborrowed hheld hnone a ha⟩
  · refine .inr fun d hd hdalive hdcancelled => ?_
    have := hall d (h.lt_of_alive hdalive) hd hdalive
    exact absurd (hdcancelled.symm.trans this) Bool.false_ne_true

/-- `t` is `s` without the user's handle of a token. -/
structure Drops (s t : State) (i : ℕ) : Prop where
  made : t.made = s.made
  frames : t.frames = s.frames
  cancelled : ∀ j, (t.tokens j).cancelled = (s.tokens j).cancelled
  children : ∀ j, (t.tokens j).children = (s.tokens j).children
  ancestors : ∀ j, (t.tokens j).ancestors = (s.tokens j).ancestors
  handle : ∀ j, (t.tokens j).handle = true → (s.tokens j).handle = true
  others : ∀ j ≠ i, (t.tokens j).handle = (s.tokens j).handle

theorem drops_modify (s : State) (i : ℕ) :
    Drops s (s.modify i fun x => { x with handle := false }) i := by
  have htokens : ∀ j, (s.modify i fun x => { x with handle := false }).tokens j =
      if j = i then { s.tokens i with handle := false } else s.tokens j := by
    intro j
    simp [State.modify, Function.update_apply]
  refine ⟨rfl, rfl, fun j => ?_, fun j => ?_, fun j => ?_, fun j hj => ?_, fun j hj => ?_⟩
  all_goals rw [htokens] at *
  · split_ifs with hj <;> simp [hj]
  · split_ifs with hj <;> simp [hj]
  · split_ifs with hj <;> simp [hj]
  · split_ifs at hj
    exact hj
  · rw [if_neg hj]

namespace Drops

theorem alive (h : Drops s t i) {j : ℕ} (hj : t.alive j = true) : s.alive j = true :=
  alive_iff.mpr ((alive_iff.mp hj).imp (h.handle j) fun ⟨f, hf, hholds⟩ =>
    ⟨f, h.frames ▸ hf, hholds⟩)

theorem dead (h : Drops s t i) {j : ℕ} (hj : s.alive j = false) : t.alive j = false := by
  by_contra htrue
  exact Bool.false_ne_true (hj.symm.trans (h.alive (by simpa using htrue)))

/-- Only the token itself is freed, and no call holds it then. -/
theorem eq_of_dead (h : Drops s t i) {c : ℕ} (hbefore : s.alive c = true)
    (hdead : t.alive c = false) : c = i ∧ ∀ f ∈ s.frames, f.holds c = false := by
  have hunheld : ∀ f ∈ s.frames, f.holds c = false := by
    intro f hf
    by_contra hholds
    have : t.alive c = true := alive_iff.mpr (.inr ⟨f, h.frames ▸ hf, by simpa using hholds⟩)
    exact Bool.false_ne_true (hdead.symm.trans this)
  refine ⟨?_, hunheld⟩
  by_contra hne
  have : t.alive c = true := by
    refine alive_iff.mpr ((alive_iff.mp hbefore).imp (fun hset => ?_) fun ⟨f, hf, hholds⟩ => ?_)
    · rw [h.others c hne, hset]
    · exact ⟨f, h.frames ▸ hf, hholds⟩
  exact Bool.false_ne_true (hdead.symm.trans this)

theorem hidden (h : Drops s t i) {d : ℕ} (hd : s.Hidden d) : t.Hidden d := by
  obtain ⟨hfalse, p, l, hp, hpcancelled⟩ := hd
  refine ⟨?_, p, l, (h.ancestors d).trans hp, (h.cancelled p).trans hpcancelled⟩
  by_contra htrue
  exact Bool.false_ne_true (hfalse.symm.trans (h.handle d (by simpa using htrue)))

end Drops

theorem Sound.drop (h : s.Sound) (hi : (s.tokens i).handle = true)
    (hborrowed : ∀ f ∈ s.frames, f.borrows i = false) (hkeeps : s.KeepsTree (.drop i)) :
    Sound (s.modify i fun x => { x with handle := false }) := by
  have hdrops := drops_modify s i
  set t := s.modify i fun x => { x with handle := false } with ht
  have hlt := h.lt_of_alive (alive_iff.mpr (.inl hi))
  refine ⟨fun j hj => ?_, fun d p l hd => ?_, fun f hf => ?_, fun d p l hd hp hcancelled => ?_,
    fun d p l hd hp hcancelled => ?_, fun c hc hcdead hcancelled => ?_⟩
  · have hji : j ≠ i := (hlt.trans_le hj).ne'
    simp only [ht, State.modify, Function.update_of_ne hji]
    exact h.fresh j hj
  · rw [hdrops.ancestors] at hd ⊢
    exact h.ancestors d p l hd
  · refine h.frameOk (h.frames f hf) le_rfl (fun j _ => hdrops.ancestors j)
      (fun j hj => (hdrops.cancelled j).trans hj) fun j hj hset => ?_
    have hji : j ≠ i := by
      rintro rfl
      exact Bool.false_ne_true ((hborrowed f hf).symm.trans hj)
    rw [hdrops.others j hji, hset]
  · rw [hdrops.ancestors] at hp
    rw [hdrops.cancelled] at hcancelled ⊢
    rw [Pending, hdrops.children]
    exact h.cancels d p l (hdrops.alive hd) hp hcancelled
  · rw [hdrops.ancestors] at hp
    rw [hdrops.cancelled] at hcancelled
    rw [Linked, hdrops.children]
    exact h.linked d p l (hdrops.alive hd) hp hcancelled
  · rw [hdrops.cancelled] at hcancelled
    have hkept :
        (∀ a ∈ (s.tokens c).ancestors, s.alive a = false ∧ (s.tokens a).cancelled = false) ∨
        ∀ d, c ∈ (s.tokens d).ancestors → s.alive d = true → (s.tokens d).cancelled = false →
          s.Hidden d := by
      cases hbefore : s.alive c with
      | false => exact h.freed c hc hbefore hcancelled
      | true =>
        obtain ⟨rfl, hheld⟩ := hdrops.eq_of_dead hbefore hcdead
        exact h.freed_of_keepsTree hi hborrowed hkeeps hheld hcancelled
    rcases hkept with hall | hhidden
    · refine .inl fun a ha => ?_
      rw [hdrops.ancestors] at ha
      rw [hdrops.cancelled]
      exact ⟨hdrops.dead (hall a ha).1, (hall a ha).2⟩
    · refine .inr fun d hd hdalive hdcancelled => ?_
      rw [hdrops.ancestors] at hd
      rw [hdrops.cancelled] at hdcancelled
      exact hdrops.hidden (hhidden d hd (hdrops.alive hdalive) hdcancelled)

theorem Sound.new : Sound .new where
  fresh := fun _ _ => rfl
  ancestors := nofun
  frames := nofun
  cancels := nofun
  linked := nofun
  freed := nofun

theorem Sound.step {a : Label} (h : s.Sound) (hkeeps : s.KeepsTree a)
    (hstep : Cancellation.step s a = some t) : t.Sound := by
  cases a with
  | new =>
    cases hstep
    exact h.make [] s.threads (List.append_nil _).symm nofun (.inl rfl) nofun
  | cancel i =>
    simp only [Cancellation.step, Option.ite_none_right_eq_some, Option.some.injEq] at hstep
    obtain ⟨hi, rfl⟩ := hstep
    exact h.callCancel hi
  | childToken i =>
    simp only [Cancellation.step, Option.ite_none_right_eq_some, Option.some.injEq] at hstep
    obtain ⟨hi, rfl⟩ := hstep
    have hne : i ≠ s.made := (h.lt_of_alive (alive_iff.mpr (.inl hi))).ne
    refine h.make [.childToken i s.made .first] _ (by simp [State.frames]) ?_ ?_ ?_
    · rintro p l ⟨⟩
      exact ⟨hi, rfl, rfl, List.mem_singleton_self _⟩
    · exact .inr ⟨_, List.mem_singleton_self _, by simp [Frame.holds]⟩
    · intro f hf
      rw [List.mem_singleton.mp hf]
      refine ⟨⟨fun j hj => ?_, fun j hj => ?_, ?_⟩, fun j hj => ?_⟩
      · obtain rfl : i = j := by simpa [Frame.borrows] using hj
        exact (congrArg Token.handle (tokens_make_of_ne hne)).trans hi
      · obtain rfl : s.made = j := by simpa [Frame.holds] using hj
        exact Nat.lt_succ_self _
      · show ((s.make false _).tokens s.made).ancestors = i :: ((s.make false _).tokens i).ancestors
        rw [tokens_make_self, tokens_make_of_ne hne]
      · exact Eq.symm (by simpa [Frame.holds] using hj)
  | run k =>
    simp only [Cancellation.step] at hstep
    split at hstep
    · rename_i frame rest hk
      cases hstep
      exact h.runFrame hk
    · cases hstep
    · cases hstep
  | drop i =>
    simp only [Cancellation.step, Option.ite_none_right_eq_some, Option.some.injEq,
      Bool.and_eq_true, List.all_eq_true, Bool.not_eq_true'] at hstep
    obtain ⟨⟨hi, hborrowed⟩, rfl⟩ := hstep
    exact h.drop hi hborrowed hkeeps

end State

/-- Where no token is freed between a live ancestor and a live descendant before it is cancelled,
a cancellation reaches every live descendant. -/
theorem cancellation_reaches (s : State) (hs : Reachable step State.KeepsTree .new s) :
    s.Reached := by
  have hsound : s.Sound := hs.invariant State.Sound.new fun _ _ _ h hkeeps hstep =>
    h.step hkeeps hstep
  exact hsound.reached

/-- The child of a dropped token is not reached when the parent of the token is cancelled. -/
theorem cancellation_misses : ¬ ∀ s, Reachable step anyStep .new s → s.Reached := by
  intro h
  have hrun : (run (guarded step anyStep) .new
      [.new, .childToken 0, .run 0, .run 0, .run 0, .childToken 1, .run 1, .run 1, .run 1, .drop 1,
        .cancel 0, .run 2, .run 2, .run 2, .run 2]).any
      (fun s => decide (s.frames = [] ∧ (s.tokens 0).cancelled = true ∧
        0 ∈ (s.tokens 2).ancestors ∧ (s.tokens 2).handle = true ∧
        (s.tokens 2).cancelled = false)) = true := by decide +kernel
  obtain ⟨s, hreach, hs⟩ := exists_reachable_of_run hrun
  obtain ⟨hquiet, hcancelled, hancestor, hhandle, hfalse⟩ := of_decide_eq_true hs
  have := h s hreach hquiet 0 2 hcancelled hancestor hhandle
  exact Bool.false_ne_true (hfalse.symm.trans this)

/-- A cancellation goes through the middle token while another child is made. -/
theorem cancellation_reaches_grandchild : ∃ s, Reachable step State.KeepsTree .new s ∧
    s.frames = [] ∧ (s.tokens 0).cancelled = true ∧ (s.tokens 1).handle = false ∧
    0 ∈ (s.tokens 2).ancestors ∧ (s.tokens 2).handle = true ∧ s.Reached := by
  have hrun : (run (guarded step State.KeepsTree) .new
      [.new, .childToken 0, .run 0, .run 0, .run 0, .childToken 1, .run 1, .run 1, .run 1,
        .childToken 0, .run 2, .cancel 0, .run 3, .run 2, .run 3, .run 3, .run 2, .run 2, .run 2,
        .run 2, .run 3, .run 3, .run 3, .run 3, .run 3, .run 3, .run 3, .run 3, .run 3, .run 3,
        .drop 1]).any
      (fun s => decide (s.frames = [] ∧ (s.tokens 0).cancelled = true ∧
        (s.tokens 1).handle = false ∧ 0 ∈ (s.tokens 2).ancestors ∧
        (s.tokens 2).handle = true)) = true := by decide +kernel
  obtain ⟨s, hreach, hs⟩ := exists_reachable_of_run hrun
  obtain ⟨hquiet, hcancelled, hdropped, hancestor, hhandle⟩ := of_decide_eq_true hs
  exact ⟨s, hreach, hquiet, hcancelled, hdropped, hancestor, hhandle,
    cancellation_reaches s hreach⟩

end Eddy.Cancellation
