import Eddy.TakeoverHandOff

/-!
# Stealing from a queue that is handed over

A thief that is inside `steal_into` when the queue in the cell is replaced applies what it read
from one queue to another. As long as no replacement falls into a steal, every claim fits, and every
takeover thread starts, a thief finds the fresh queue empty, and a task that is handed over is
obtained once.
-/

namespace Eddy.Takeover
open LocalQueue WrappingIndex Interleaving

variable {T : Type}

/-- The thief has not loaded the head, or its call is over. -/
def settled (th : Thief T) : Bool :=
  match th.pc with
  | .loadHead | .finished | .panicked => true
  | _ => false

def State.replaces (s : State T) : Label T → Bool
  | .blockInPlace => true
  | .worker j => s.handOffs[j]?.any (·.worker matches .restores _)
  | .takeover => s.handOffs[0]?.any (·.takeover matches .restores | .replaces)
  | _ => false

def Label.thief? : Label T → Option ℕ
  | .thief i => some i
  | _ => none

/-- A takeover thread cannot be started. -/
def Label.fails : Label T → Bool
  | .spawnFails _ => true
  | _ => false

/-- The queue in the cell is not replaced while a thief is inside `steal_into`, a claim on the home
queue fits, and a takeover thread starts. -/
def Undisturbed (cap : Capacity) (s : State T) (a : Label T) : Prop :=
  (s.replaces a → ∀ th ∈ s.home.thieves, settled th) ∧
    (∀ i ∈ a.thief?, s.spare.isNone → ClaimFits cap s.home (.thief i)) ∧ a.fails = false

instance (cap : Capacity) (s : State T) (a : Label T) : Decidable (Undisturbed cap s a) :=
  inferInstanceAs (Decidable (_ ∧ _ ∧ _))

section Cell
variable {cap : Capacity} {s t : State T} {a : Label T}

structure SameHistory (s t : State T) : Prop where
  headFrom : t.headFrom = s.headFrom
  tailFrom : t.tailFrom = s.tailFrom
  applied : t.applied = s.applied

/-- A step on the home queue, a replacement, an access of a thief, or none of these. -/
inductive CellStep (cap : Capacity) (s t : State T) : Label T → Prop where
  | same {b} (home : t.home = s.home) (spare : t.spare = s.spare) (history : SameHistory s t) :
      CellStep cap s t b
  | home {b} (op : Action T) (hop : ∀ i, op ≠ .thief i)
      (home : LocalQueue.step cap s.home op = some t.home)
      (spare : t.spare = s.spare) (history : SameHistory s t) : CellStep cap s t b
  | replaced {b} (hb : s.replaces b) (home : t.home = s.home)
      (spare : t.spare = none ∨ t.spare = some (s.spares, .new)) (history : SameHistory s t) :
      CellStep cap s t b
  | thief (i) (th : Thief T) (hi : s.home.thieves[i]? = some th)
      (hs : s.thiefStep cap i th = some t) : CellStep cap s t (.thief i)

theorem cellStep_worker {j : ℕ} {h : HandOff T} (hj : s.handOffs[j]? = some h)
    (hs : s.workerStep j h = some t) : CellStep cap s t (.worker j) := by
  unfold State.workerStep at hs
  split at hs
  case h_1 => cases hs
  case h_5 | h_6 | h_9 =>
    split_ifs at hs
    cases hs
    exact .same rfl rfl ⟨rfl, rfl, rfl⟩
  case h_11 lifo hw =>
    cases hs
    exact .replaced (by simp [State.replaces, hj, hw]) rfl (.inl rfl) ⟨rfl, rfl, rfl⟩
  case h_13 =>
    split at hs <;> cases hs
    exact .same rfl rfl ⟨rfl, rfl, rfl⟩
  all_goals
    cases hs
    exact .same rfl rfl ⟨rfl, rfl, rfl⟩

theorem cellStep_takeover {h : HandOff T} (hj : s.handOffs[0]? = some h)
    (hs : s.takeoverStep h = some t) : CellStep cap s t .takeover := by
  unfold State.takeoverStep at hs
  split at hs
  case h_1 | h_2 | h_3 => cases hs
  case h_4 | h_9 =>
    split_ifs at hs
    cases hs
    exact .same rfl rfl ⟨rfl, rfl, rfl⟩
  case h_5 ht =>
    cases hs
    exact .replaced (by simp [State.replaces, hj, ht]) rfl (.inl rfl) ⟨rfl, rfl, rfl⟩
  case h_8 ht =>
    cases hs
    exact .replaced (by simp [State.replaces, hj, ht]) rfl (.inr rfl) ⟨rfl, rfl, rfl⟩
  all_goals
    cases hs
    exact .same rfl rfl ⟨rfl, rfl, rfl⟩

theorem cellStep (hstarts : a.fails = false) (hs : s.step cap a = some t) :
    CellStep cap s t a := by
  cases State.steps hs with
  | spawnFails => cases hstarts
  | push hserved hhome | pushOverflow hserved hhome | pop hserved hhome | owner hserved hhome =>
    exact .home _ (by nofun) hhome rfl ⟨rfl, rfl, rfl⟩
  | placeLifo | takeLifo | spurious => exact .same rfl rfl ⟨rfl, rfl, rfl⟩
  | blockInPlace => exact .replaced rfl rfl (.inr rfl) ⟨rfl, rfl, rfl⟩
  | worker hj hs => exact cellStep_worker hj hs
  | takeover hj hs => exact cellStep_takeover hj hs
  | leave hj hs =>
    unfold State.leave at hs
    split at hs
    · split_ifs at hs
      cases hs
      exact .same rfl rfl ⟨rfl, rfl, rfl⟩
    · cases hs
  | steal hhome | drain hhome => exact .home _ (by nofun) hhome rfl ⟨rfl, rfl, rfl⟩
  | @thief i th t hi hs => exact .thief i th hi hs

theorem ownerStep_thieves {q q' : LocalQueue.State T} (hs : ownerStep cap q = some q') :
    q'.thieves = q.thieves := by
  unfold ownerStep at hs
  cases howner : q.owner <;> simp only [howner] at hs
  case idle | panicked => cases hs
  case pushTail | pushWrite | pushStore | popTail | popWithdraw | popRestore | popKeep =>
    cases hs
    rfl
  case pushHead | popHead | popClaim =>
    split_ifs at hs <;> cases hs <;> rfl
  case popSnapshot =>
    split_ifs at hs <;> cases hs <;> rfl
  case popRead =>
    split at hs <;> cases hs <;> rfl
  case spilling value th =>
    split at hs
    · cases hs
      rfl
    · cases hs
      rfl
    · obtain ⟨⟨q', th'⟩, -, rfl⟩ := Option.map_eq_some_iff.mp hs
      rfl

/-- An operation of the owner, a new thief or more room leaves the thieves where they are. -/
theorem thief_of_home_step {q q' : LocalQueue.State T} {op : Action T} (hop : ∀ i, op ≠ .thief i)
    (hs : LocalQueue.step cap q op = some q') {i : ℕ} {th' : Thief T}
    (hi : q'.thieves[i]? = some th') :
    th'.pc = .loadHead ∨ ∃ th, q.thieves[i]? = some th ∧ th'.pc = th.pc := by
  have hkept : q'.thieves = q.thieves →
      th'.pc = .loadHead ∨ ∃ th, q.thieves[i]? = some th ∧ th'.pc = th.pc := fun h =>
    .inr ⟨th', h ▸ hi, rfl⟩
  cases op with
  | push value | pushOverflow value | pop =>
    simp only [LocalQueue.step] at hs
    split at hs <;> cases hs
    exact hkept rfl
  | owner => exact hkept (ownerStep_thieves hs)
  | steal room =>
    cases hs
    rw [List.getElem?_append] at hi
    split_ifs at hi with hlt
    · exact .inr ⟨th', hi, rfl⟩
    · obtain rfl : th' = Thief.start room := by simpa using List.mem_of_getElem? hi
      exact .inl rfl
  | thief j => exact absurd rfl (hop j)
  | drain j freed =>
    obtain ⟨th, hj, rfl⟩ := Option.map_eq_some_iff.mp hs
    by_cases hij : j = i
    · subst j
      obtain ⟨hlt, -⟩ := List.getElem?_eq_some_iff.mp hj
      rw [List.getElem?_set_self hlt] at hi
      cases hi
      exact .inr ⟨th, hj, rfl⟩
    · rw [List.getElem?_set_ne hij] at hi
      exact .inr ⟨th', hi, rfl⟩

end Cell

/-- What a thief between its load of the head and the end of its call has to do with the queue in
the cell: it has read from that queue, and holds no claim when it is a spare. -/
def State.Attached (s : State T) (i : ℕ) : StealPc → Prop
  | .loadHead | .finished | .panicked => True
  | .loadTail snapshot _ => s.headFrom i = s.cell ∧ (s.spare.isSome → snapshot = pack 0 0)
  | .measure snapshot _ tail =>
      s.headFrom i = s.cell ∧ s.tailFrom i = s.cell ∧
        (s.spare.isSome → snapshot = pack 0 0 ∧ tail = 0)
  | .claim _ _ _ => s.headFrom i = s.cell ∧ s.tailFrom i = s.cell ∧ s.spare = none
  | .copy _ _ _ | .commitLoad _ _ | .commit _ _ _ => s.spare = none

structure Stealing [DecidableEq T] (cap : Capacity) (s : State T) : Prop where
  home : ∃ p, LocalQueue.Inv cap s.home p
  spare : ∀ n q, s.spare = some (n, q) → q = .new
  attached : ∀ i th, s.home.thieves[i]? = some th → s.Attached i th.pc
  applied : ∀ c ∈ s.applied, c.object = c.headFrom ∧ c.object = c.tailFrom

section Attached
variable {cap : Capacity} {s t : State T} {i : ℕ} {th : Thief T}

theorem attached_of_settled (h : settled th) : s.Attached i th.pc := by
  unfold settled at h
  split at h <;> simp_all [State.Attached]

/-- Only the thief's own accesses and the cell matter. -/
theorem Attached_congr (hspare : t.spare.map Prod.fst = s.spare.map Prod.fst)
    (hhead : t.headFrom i = s.headFrom i) (htail : t.tailFrom i = s.tailFrom i) (pc : StealPc) :
    t.Attached i pc ↔ s.Attached i pc := by
  have hcell : t.cell = s.cell := by
    unfold State.cell
    cases ht : t.spare <;> cases hs : s.spare <;> simp_all
  have hsome : t.spare.isSome = s.spare.isSome := by
    simpa using congrArg Option.isSome hspare
  have hnone : t.spare = none ↔ s.spare = none := by
    rw [← Option.not_isSome_iff_eq_none, ← Option.not_isSome_iff_eq_none, hsome]
  cases pc <;> simp only [State.Attached, hhead, htail, hsome, hnone, hcell]

structure ThiefStep (s t : State T) (i : ℕ) (th th' : Thief T) (q : Queue T) : Prop where
  thieves : t.home.thieves = s.home.thieves.set i th'
  home : s.spare = none → t.home = { s.home with queue := q, thieves := s.home.thieves.set i th' }
  spare : t.spare = s.spare.map fun c => (c.1, q)
  kept : s.spare ≠ none → t.home = { s.home with thieves := s.home.thieves.set i th' }
  headFrom : ∀ j, j ≠ i → t.headFrom j = s.headFrom j
  tailFrom : ∀ j, j ≠ i → t.tailFrom j = s.tailFrom j

theorem thiefStep (hs : s.thiefStep cap i th = some t) :
    ∃ q th', stealStep cap (some i) s.target th = some (q, th') ∧ ThiefStep s t i th th' q := by
  obtain ⟨⟨q, th'⟩, hsteal, rfl⟩ := Option.map_eq_some_iff.mp hs
  refine ⟨q, th', hsteal, ?_⟩
  have hobs : (s.observe i th.pc).home = s.home ∧ (s.observe i th.pc).spare = s.spare ∧
      (∀ j, j ≠ i → (s.observe i th.pc).headFrom j = s.headFrom j) ∧
      ∀ j, j ≠ i → (s.observe i th.pc).tailFrom j = s.tailFrom j := by
    cases th.pc <;> simp +contextual [State.observe, Function.update_of_ne]
  obtain ⟨hhome, hspare, hhead, htail⟩ := hobs
  cases hsp : s.spare with
  | none | some c =>
    constructor <;> simp_all [State.setTarget, State.setThief]

/-- In the cell is a spare: a thief finds it empty and claims nothing. -/
theorem attached_spare {n : ℕ} (hspare : s.spare = some (n, .new)) (hatt : s.Attached i th.pc)
    (hpanic : th.pc ≠ .panicked) (hs : s.thiefStep cap i th = some t) :
    t.applied = s.applied ∧ ∃ pc, stealStep cap (some i) s.target th = some (.new, { th with pc }) ∧
      t.Attached i pc ∧
      (th.pc = .loadHead ∧ (∃ seen, pc = .loadTail (pack 0 0) seen) ∨
        (∃ seen, th.pc = .loadTail (pack 0 0) seen ∧ pc = .measure (pack 0 0) seen 0) ∨
        (∃ seen, th.pc = .measure (pack 0 0) seen 0 ∧ pc = .finished)) := by
  have htarget : s.target = .new := by simp [State.target, hspare]
  unfold State.thiefStep at hs
  rw [htarget] at hs ⊢
  obtain ⟨pc, room, first, dst⟩ := th
  cases pc with
  | loadHead =>
    cases hs
    refine ⟨by simp [State.setThief, State.setTarget, State.observe, hspare],
      .loadTail (pack 0 0) 0, rfl, ?_, .inl ⟨rfl, 0, rfl⟩⟩
    simp [State.Attached, State.setThief, State.setTarget, State.observe, hspare, State.cell,
      Queue.new]
  | loadTail snapshot seen =>
    simp only [State.Attached, hspare, Option.isSome_some, forall_const] at hatt
    obtain ⟨hhead, rfl⟩ := hatt
    cases hs
    refine ⟨by simp [State.setThief, State.setTarget, State.observe, hspare],
      .measure (pack 0 0) seen 0, rfl, ?_, .inr (.inl ⟨seen, rfl, rfl⟩)⟩
    simpa [State.Attached, State.setThief, State.setTarget, State.observe, hspare, State.cell,
      Queue.new] using hhead
  | measure snapshot seen tail =>
    simp only [State.Attached, hspare, Option.isSome_some, forall_const] at hatt
    obtain ⟨-, -, rfl, rfl⟩ := hatt
    have hempty : ((0 : UInt32) - (unpack (pack 0 0)).1).toNat = 0 := by
      rw [unpack_pack]
      rfl
    simp only [stealStep, hempty, true_or, if_true, Option.map_some, Option.some.injEq] at hs
    subst hs
    exact ⟨by simp [State.setThief, State.setTarget, State.observe, hspare], .finished,
      by simp only [stealStep, hempty, true_or, if_true], trivial, .inr (.inr ⟨seen, rfl, rfl⟩)⟩
  | claim | copy | commitLoad | commit => simp [State.Attached, hspare] at hatt
  | finished => cases hs
  | panicked => exact absurd rfl hpanic

theorem take_pc (th : Thief T) (start : UInt32) (count offset : ℕ) (value : T) :
    (th.take start count offset value).pc = .panicked ∨
      (th.take start count offset value).pc = .copy start count (offset + 1) := by
  unfold Thief.take
  split
  · exact .inr rfl
  · exact .inl rfl
  · exact .inr rfl

theorem attached_home (hspare : s.spare = none) (hatt : s.Attached i th.pc)
    (happlied : ∀ c ∈ s.applied, c.object = c.headFrom ∧ c.object = c.tailFrom)
    (hs : s.thiefStep cap i th = some t) :
    (∀ c ∈ t.applied, c.object = c.headFrom ∧ c.object = c.tailFrom) ∧
      ∃ q th', stealStep cap (some i) s.target th = some (q, th') ∧ t.Attached i th'.pc := by
  obtain ⟨⟨q, th'⟩, hsteal, rfl⟩ := Option.map_eq_some_iff.mp hs
  refine ⟨?_, q, th', hsteal, ?_⟩
  · intro c hc
    cases hpc : th.pc
    case claim snapshot seen count =>
      simp only [hpc, State.Attached] at hatt
      simp only [hpc, State.observe, State.setTarget, hspare, State.setThief] at hc
      rcases List.mem_append.mp hc with hc | hc
      · exact happlied c hc
      · obtain rfl := List.mem_singleton.mp hc
        exact ⟨hatt.1.symm, hatt.2.1.symm⟩
    all_goals
      simp only [hpc, State.observe, State.setTarget, hspare, State.setThief] at hc
      exact happlied c hc
  · unfold stealStep at hsteal
    cases hpc : th.pc <;> simp only [hpc, State.Attached] at hsteal hatt
    case finished | panicked => cases hsteal
    case loadHead | loadTail =>
      cases hsteal
      simp_all [State.Attached, State.setThief, State.setTarget, State.observe, State.cell]
    case measure | claim | commitLoad | commit =>
      split_ifs at hsteal <;> cases hsteal <;>
        simp_all [State.Attached, State.setThief, State.setTarget, State.observe, State.cell]
    case copy =>
      split_ifs at hsteal
      · split at hsteal <;> cases hsteal
        · trivial
        · rcases take_pc th _ _ _ _ with htake | htake <;> rw [htake]
          · trivial
          · simp [State.Attached, State.setThief, State.setTarget, State.observe, hspare]
      · cases hsteal
        simp [State.Attached, State.setThief, State.setTarget, State.observe, hspare]

end Attached

section Stealing
variable [DecidableEq T] {cap : Capacity} {s t : State T} {a : Label T}

theorem Stealing.thief (inv : Stealing cap s) {i : ℕ} {th : Thief T}
    (hi : s.home.thieves[i]? = some th)
    (hfit : s.spare.isNone → ClaimFits cap s.home (.thief i))
    (hs : s.thiefStep cap i th = some t) : Stealing cap t := by
  obtain ⟨p, hhome⟩ := inv.home
  have hok := hhome.protocol.ok (some i) th hi
  obtain ⟨hlt, -⟩ := List.getElem?_eq_some_iff.mp hi
  obtain ⟨q, th', hsteal, hstep⟩ := thiefStep hs
  have hothers : t.Attached i th'.pc → ∀ j x, t.home.thieves[j]? = some x → t.Attached j x.pc := by
    intro hself j x hj
    rw [hstep.thieves] at hj
    by_cases hij : i = j
    · subst j
      rw [List.getElem?_set_self hlt] at hj
      cases hj
      exact hself
    · rw [List.getElem?_set_ne hij] at hj
      have hnumber : t.spare.map Prod.fst = s.spare.map Prod.fst := by
        rw [hstep.spare, Option.map_map]
        rfl
      exact (Attached_congr hnumber (hstep.headFrom j (Ne.symm hij))
        (hstep.tailFrom j (Ne.symm hij)) _).mpr (inv.attached j x hj)
  cases hspare : s.spare with
  | none =>
    obtain ⟨happlied, q₁, th₁, hsteal₁, hself⟩ :=
      attached_home hspare (inv.attached i th hi) inv.applied hs
    obtain ⟨rfl, rfl⟩ : q = q₁ ∧ th' = th₁ := by simpa [hsteal] using hsteal₁
    have hqueue : LocalQueue.step cap s.home (.thief i) = some t.home := by
      have htarget : s.target = s.home.queue := by simp [State.target, hspare]
      rw [htarget] at hsteal
      simp [LocalQueue.step, hi, hsteal, hstep.home hspare]
    obtain ⟨p', hp', -⟩ := hhome.step (hfit (by simp [hspare])) hqueue
    exact ⟨⟨p', hp'⟩, by simp [hstep.spare, hspare], hothers hself, happlied⟩
  | some c =>
    obtain ⟨n, fresh⟩ := c
    obtain rfl := inv.spare n fresh hspare
    have hpanic : th.pc ≠ .panicked := fun hpc => by simp [Thief.Ok, hpc] at hok
    obtain ⟨happlied, pc, hsteal₁, hself, hpcs⟩ :=
      attached_spare hspare (inv.attached i th hi) hpanic hs
    obtain ⟨rfl, rfl⟩ : q = .new ∧ th' = { th with pc } := by simpa [hsteal] using hsteal₁
    refine ⟨⟨p, ?_⟩, ?_, hothers hself, happlied ▸ inv.applied⟩
    · rw [hstep.kept (by simp [hspare])]
      apply hhome.setThief hi
      · rcases hpcs with ⟨h, _, h'⟩ | ⟨_, h, h'⟩ | ⟨_, h, h'⟩ <;> simp [Thief.claimed, h, h']
      · intro x
        rcases hpcs with ⟨h, _, h'⟩ | ⟨_, h, h'⟩ | ⟨_, h, h'⟩ <;> simp [Thief.uncopied, h, h']
      · rcases hpcs with ⟨h, _, h'⟩ | ⟨_, h, h'⟩ | ⟨_, h, h'⟩ <;> simp_all [Thief.Ok]
    · intro m q hq
      rw [hstep.spare, hspare] at hq
      cases hq
      rfl

theorem Stealing.step (inv : Stealing cap s) (hcalm : Undisturbed cap s a)
    (hs : s.step cap a = some t) : Stealing cap t := by
  have hattached : t.spare = s.spare → SameHistory s t → ∀ i pc, s.Attached i pc →
      t.Attached i pc := fun hspare history i pc =>
    (Attached_congr (by rw [hspare]) (by rw [history.headFrom]) (by rw [history.tailFrom]) pc).mpr
  cases cellStep hcalm.2.2 hs with
  | same home spare history =>
    refine ⟨home ▸ inv.home, spare ▸ inv.spare, ?_, history.applied ▸ inv.applied⟩
    intro i th hi
    exact hattached spare history i _ (inv.attached i th (home ▸ hi))
  | home op hop home spare history =>
    obtain ⟨p, hp⟩ := inv.home
    have hfit : ClaimFits cap s.home op := by
      cases op <;> first | exact absurd rfl (hop _) | simp [ClaimFits, State.pendingClaim]
    obtain ⟨p', hp', -⟩ := hp.step hfit home
    refine ⟨⟨p', hp'⟩, spare ▸ inv.spare, ?_, history.applied ▸ inv.applied⟩
    intro i th hi
    rcases thief_of_home_step hop home hi with hpc | ⟨th₀, hi₀, hpc⟩
    · rw [hpc]
      trivial
    · rw [hpc]
      exact hattached spare history i _ (inv.attached i th₀ hi₀)
  | replaced hrep home spare history =>
    have hsettled := hcalm.1 hrep
    refine ⟨home ▸ inv.home, ?_, ?_, history.applied ▸ inv.applied⟩
    · intro n q hq
      rcases spare with hnone | hsome
      · simp [hnone] at hq
      · rw [hsome] at hq
        cases hq
        rfl
    · intro i th hi
      exact attached_of_settled (hsettled th (List.mem_of_getElem? (home ▸ hi)))
  | thief i th hi hstep => exact inv.thief hi (hcalm.2.1 i rfl) hstep

theorem stealing_init : Stealing cap (State.init : State T) where
  home := ⟨_, inv_init⟩
  spare := nofun
  attached := by simp [State.init, LocalQueue.State.init]
  applied := by simp [State.init]

end Stealing

/-- What the blocked thread carries from a LIFO slot to the `Takeover` or back. -/
def WorkerPc.lifo : WorkerPc T → Option T
  | .spawns lifo | .restores lifo | .setsLifo lifo => lifo
  | _ => none

def TakeoverPc.lifo : TakeoverPc T → Option T
  | .storesLifo lifo => lifo
  | _ => none

def HandOff.lifo (h : HandOff T) : List T :=
  h.worker.lifo.toList ++ h.takeover.lifo.toList ++ h.shared.lifo.toList

def WorkerPc.starting : WorkerPc T → Bool
  | .takesLifo | .spawns _ => true
  | _ => false

/-- The blocked thread has found `returned` true. -/
def WorkerPc.returning : WorkerPc T → Bool
  | .takesQueue | .takesLifoBack | .restores _ | .setsLifo _ | .joins => true
  | _ => false

def WorkerPc.hasSlot : WorkerPc T → Bool
  | .takesLifo | .joins => true
  | _ => false

/-- The blocked thread has taken the contents of the LIFO slot back. -/
def WorkerPc.hasLifo : WorkerPc T → Bool
  | .restores _ | .setsLifo _ | .joins => true
  | _ => false

/-- The takeover thread is spawned, and the blocked thread has not found `returned` true. -/
def WorkerPc.passive : WorkerPc T → Bool
  | .polls | .locks | .loads | .startsWait | .waits | .woken => true
  | _ => false

theorem WorkerPc.of_passive (pc : WorkerPc T) (h : pc.passive = true) :
    pc.starting = false ∧ pc.returning = false ∧ pc.hasSlot = false ∧ pc.hasLifo = false ∧
      pc.lifo = none := by
  cases pc <;> first | exact ⟨rfl, rfl, rfl, rfl, rfl⟩ | cases h

/-- The takeover thread has stored `returned`. -/
def TakeoverPc.over : TakeoverPc T → Bool
  | .notifies | .finished => true
  | _ => false

/-- The takeover thread has its LIFO slot, or is about to store its contents. -/
def TakeoverPc.hasLifo : TakeoverPc T → Bool
  | .absent | .serves | .storesLifo _ => true
  | _ => false

theorem TakeoverPc.of_hasLifo (pc : TakeoverPc T) (h : pc.hasLifo = false) :
    pc ≠ .absent ∧ pc ≠ .serves ∧ pc.lifo = none := by
  cases pc <;> simp_all [TakeoverPc.hasLifo, TakeoverPc.lifo]

@[simp] theorem State.slot_setHandOff (s : State T) (j : ℕ) (h : HandOff T) :
    (s.setHandOff j h).slot = s.slot := rfl

@[simp] theorem WorkerPc.starting_notified (pc : WorkerPc T) :
    pc.notified.starting = pc.starting := by
  cases pc <;> rfl

@[simp] theorem WorkerPc.hasSlot_notified (pc : WorkerPc T) :
    pc.notified.hasSlot = pc.hasSlot := by
  cases pc <;> rfl

@[simp] theorem WorkerPc.hasLifo_notified (pc : WorkerPc T) :
    pc.notified.hasLifo = pc.hasLifo := by
  cases pc <;> rfl

@[simp] theorem WorkerPc.lifo_notified (pc : WorkerPc T) : pc.notified.lifo = pc.lifo := by
  cases pc <;> rfl

structure HandOff.Innermost (slot : Option T) (h : HandOff T) : Prop where
  starting : h.worker.starting = true ↔ h.takeover = .absent
  returning : h.worker.returning = true → h.takeover.over = true
  returned : h.shared.returned = true → h.takeover.over = true
  slot : slot ≠ none → h.worker.hasSlot = true ∨ h.takeover = .serves
  lifo : h.shared.lifo ≠ none → h.takeover.hasLifo = false ∧ h.worker.hasLifo = false

/-- The other hand-offs: the takeover thread polls a task that is itself blocked in place. -/
structure HandOff.Outer (h : HandOff T) : Prop where
  takeover : h.takeover = .serves
  starting : h.worker.starting = false
  returning : h.worker.returning = false
  returned : h.shared.returned = false
  lifo : h.shared.lifo = none

def Stacked (slot : Option T) : List (HandOff T) → Prop
  | [] => True
  | h :: rest => h.Innermost slot ∧ ∀ g ∈ rest, g.Outer

theorem HandOff.Outer.innermost {h : HandOff T} (hh : h.Outer) (slot : Option T) :
    h.Innermost slot where
  starting := by simp [hh.starting, hh.takeover]
  returning := by simp [hh.returning]
  returned := by simp [hh.returned]
  slot _ := .inr hh.takeover
  lifo := by simp [hh.lifo]

theorem HandOff.Innermost.outer {h : HandOff T} {slot : Option T} (hh : h.Innermost slot)
    (hserves : h.takeover = .serves) : h.Outer where
  takeover := hserves
  starting := by simpa [hserves] using hh.starting
  returning := by simpa [hserves, TakeoverPc.over] using hh.returning
  returned := by simpa [hserves, TakeoverPc.over] using hh.returned
  lifo := by simpa [hserves, TakeoverPc.hasLifo] using hh.lifo

section Stacked
variable {slot slot' : Option T} {l : List (HandOff T)} {j : ℕ} {h h' : HandOff T}

theorem Stacked.mem (hl : Stacked slot l) (hj : l[j]? = some h) : h.Innermost slot := by
  cases l with
  | nil => simp at hj
  | cons g rest =>
    cases j with
    | zero =>
      obtain rfl : g = h := by simpa using hj
      exact hl.1
    | succ j => exact (hl.2 h (List.mem_of_getElem? hj)).innermost slot

/-- A hand-off advances; when it is not the innermost one, the slot stays as it is. -/
theorem Stacked.set (hl : Stacked slot l) (hj : l[j]? = some h)
    (hinner : h.Innermost slot → h'.Innermost slot')
    (houter : j ≠ 0 → h.Outer → h'.Outer ∧ slot' = slot) :
    Stacked slot' (l.set j h') := by
  cases l with
  | nil => simp at hj
  | cons g rest =>
    cases j with
    | zero =>
      obtain rfl : g = h := by simpa using hj
      exact ⟨hinner hl.1, hl.2⟩
    | succ j =>
      obtain ⟨hout, rfl⟩ := houter (Nat.succ_ne_zero j) (hl.2 h (List.mem_of_getElem? hj))
      exact ⟨hl.1, forall_mem_set hl.2 hout⟩

/-- A hand-off ends, and the thread that was blocked serves again. -/
theorem Stacked.eraseIdx (hl : Stacked slot l) (hj : l[j]? = some h) (hjoins : h.worker = .joins) :
    Stacked slot (l.eraseIdx j) := by
  cases l with
  | nil => simp at hj
  | cons g rest =>
    cases j with
    | zero =>
      cases rest with
      | nil => trivial
      | cons g' rest =>
        exact ⟨(hl.2 g' (List.mem_cons_self ..)).innermost slot,
          fun x hx => hl.2 x (List.mem_cons_of_mem _ hx)⟩
    | succ j =>
      have := (hl.2 h (List.mem_of_getElem? hj)).returning
      simp [hjoins, WorkerPc.returning] at this

theorem State.takeover_of_served {s : State T} {rest : List (HandOff T)}
    (hserved : s.served = true) (hhand : s.handOffs = h :: rest) : h.takeover = .serves := by
  unfold State.served at hserved
  rw [hhand] at hserved
  cases ht : h.takeover <;> simp [ht] at hserved
  rfl

/-- Nothing depends on the slot of a thread that runs the loop. -/
theorem Stacked.served {s : State T} (hl : Stacked s.slot s.handOffs) (hserved : s.served = true)
    (slot' : Option T) : Stacked slot' s.handOffs := by
  cases hhand : s.handOffs with
  | nil => trivial
  | cons h rest =>
    have hserves := State.takeover_of_served hserved hhand
    rw [hhand] at hl
    exact ⟨(hl.1.outer hserves).innermost slot', hl.2⟩

/-- A thread that runs the loop blocks in place. -/
theorem Stacked.push {s : State T} (hl : Stacked s.slot s.handOffs) (hserved : s.served = true) :
    Stacked s.slot (.new :: s.handOffs) := by
  have hnew : (HandOff.new : HandOff T).Innermost s.slot :=
    ⟨by simp [HandOff.new, WorkerPc.starting], nofun, nofun, fun _ => .inl rfl, by simp [HandOff.new]⟩
  refine ⟨hnew, ?_⟩
  cases hhand : s.handOffs with
  | nil => simp
  | cons h rest =>
    have hserves := State.takeover_of_served hserved hhand
    rw [hhand] at hl
    intro g hg
    rcases List.mem_cons.mp hg with rfl | hg
    · exact hl.1.outer hserves
    · exact hl.2 g hg

/-- The slot is empty while nobody runs the loop. -/
theorem HandOff.Innermost.slot_eq_none (hh : h.Innermost slot) (hover : ¬ h.takeover.over = true)
    (habsent : h.takeover ≠ .absent) (hserves : h.takeover ≠ .serves) : slot = none := by
  by_contra hne
  rcases hh.slot hne with hslot | hserve
  · cases hw : h.worker <;> simp only [hw, WorkerPc.hasSlot, Bool.false_eq_true] at hslot
    · exact habsent (hh.starting.mp (by rw [hw]; rfl))
    · exact hover (hh.returning (by rw [hw]; rfl))
  · exact hserves hserve

end Stacked

/-- Every task placed in a LIFO slot has been run once, is in the slot, or is under way. -/
structure Slotted [DecidableEq T] (s : State T) : Prop where
  stacked : Stacked s.slot s.handOffs
  counted : ∀ x, s.ran.count x + s.slot.toList.count x +
    total (fun h => h.lifo.count x) s.handOffs = s.placed.count x

section Slotted
variable [DecidableEq T] {cap : Capacity} {s t : State T} {a : Label T}

theorem slotted_init : Slotted (State.init : State T) where
  stacked := trivial
  counted x := by simp [State.init]

theorem Slotted.set (inv : Slotted s) {j : ℕ} {h h' : HandOff T} (hj : s.handOffs[j]? = some h)
    (hlist : t.handOffs = s.handOffs.set j h') (hran : t.ran = s.ran) (hplaced : t.placed = s.placed)
    (hstack : Stacked t.slot t.handOffs)
    (hmoved : ∀ x, t.slot.toList.count x + h'.lifo.count x =
      s.slot.toList.count x + h.lifo.count x) : Slotted t where
  stacked := hstack
  counted x := by
    have hset := total_set (fun h => h.lifo.count x) hj h'
    have := hmoved x
    have := inv.counted x
    rw [hran, hplaced, hlist]
    omega

theorem Slotted.advance (inv : Slotted s) {h : HandOff T} {pc : TakeoverPc T} {shared : Shared T}
    (hj : s.handOffs[0]? = some h) (hlist : t.handOffs = s.handOffs.set 0 ⟨h.worker, pc, shared⟩)
    (hslot : t.slot = s.slot) (hran : t.ran = s.ran) (hplaced : t.placed = s.placed)
    (hold : h.takeover.hasLifo = false) (hnew : pc.hasLifo = false)
    (hover : h.takeover.over = true → pc.over = true) (hlifo : shared.lifo = h.shared.lifo)
    (hret : shared.returned = true → pc.over = true) : Slotted t := by
  have hh := inv.stacked.mem hj
  obtain ⟨habsent, hserves, hnone⟩ := h.takeover.of_hasLifo hold
  obtain ⟨habsent', hserves', hnone'⟩ := pc.of_hasLifo hnew
  refine inv.set hj hlist hran hplaced ?_ fun x => ?_
  · rw [hlist]
    refine inv.stacked.set hj (fun _ => ?_) (absurd rfl)
    refine ⟨?_, fun hr => hover (hh.returning hr), hret, ?_, fun hne => ?_⟩
    · simpa [habsent, habsent'] using hh.starting
    · simpa [hserves, hserves', hslot] using hh.slot
    · exact ⟨hnew, (hh.lifo (hlifo ▸ hne)).2⟩
  · simp [HandOff.lifo, hnone, hnone', hlifo, hslot]

/-- Before the queue is returned, the blocked thread only moves between the lock, the load and the
condvar. -/
theorem Slotted.passive (inv : Slotted s) {j : ℕ} {h : HandOff T} {pc : WorkerPc T}
    {shared : Shared T} (hj : s.handOffs[j]? = some h) (hold : h.worker.passive = true)
    (hnew : pc.passive = true) (hlifo : shared.lifo = h.shared.lifo)
    (hret : shared.returned = h.shared.returned) :
    Slotted (s.setHandOff j ⟨pc, h.takeover, shared⟩) := by
  have hh := inv.stacked.mem hj
  obtain ⟨hstart, -, hempty, -, hnone⟩ := h.worker.of_passive hold
  obtain ⟨hstart', hreturn', hempty', hhas', hnone'⟩ := pc.of_passive hnew
  refine inv.set hj rfl rfl rfl (inv.stacked.set hj (fun _ => ?_) fun _ ho => ⟨?_, rfl⟩) fun x => ?_
  · refine ⟨?_, by simp [hreturn'], by rw [hret]; exact hh.returned, ?_, fun hne => ?_⟩
    · rw [hstart', ← hstart]
      exact hh.starting
    · rw [hempty', ← hempty]
      exact hh.slot
    · exact ⟨(hh.lifo (hlifo ▸ hne)).1, hhas'⟩
  · exact ⟨ho.takeover, hstart', hreturn', hret.trans ho.returned, hlifo.trans ho.lifo⟩
  · simp [HandOff.lifo, hnone, hnone', hlifo]

theorem Slotted.worker (inv : Slotted s) {j : ℕ} {h : HandOff T} (hj : s.handOffs[j]? = some h)
    (hs : s.workerStep j h = some t) : Slotted t := by
  have hh := inv.stacked.mem hj
  obtain ⟨worker, takeover, shared⟩ := h
  cases worker <;> simp only [State.workerStep] at hs
  case waits => cases hs
  case takesLifo =>
    cases hs
    have habsent : takeover = .absent := hh.starting.mp rfl
    refine inv.set hj rfl rfl rfl (inv.stacked.set hj (fun _ => ?_) fun _ ho => ?_) fun x => ?_
    · exact ⟨by simp [habsent, WorkerPc.starting], nofun, hh.returned, nofun, hh.lifo⟩
    · exact absurd ho.takeover (by simp [habsent])
    · simp [HandOff.lifo, WorkerPc.lifo]
  case spawns lifo =>
    cases hs
    have habsent : takeover = .absent := hh.starting.mp rfl
    have hslot : s.slot = none := by simpa [habsent, WorkerPc.hasSlot] using hh.slot
    have hnone : shared.lifo = none := by simpa [habsent, TakeoverPc.hasLifo] using hh.lifo
    refine inv.set hj rfl rfl rfl (inv.stacked.set hj (fun _ => ?_) fun _ ho => ?_) fun x => ?_
    · exact ⟨by simp [WorkerPc.starting], nofun, nofun, by simp [hslot],
        fun _ => ⟨rfl, rfl⟩⟩
    · exact absurd ho.takeover (by simp [habsent])
    · simp [HandOff.lifo, WorkerPc.lifo, TakeoverPc.lifo, habsent, hnone]
  case polls | startsWait =>
    cases hs
    exact inv.passive hj rfl rfl rfl rfl
  case locks | woken =>
    split_ifs at hs
    cases hs
    exact inv.passive hj rfl rfl rfl rfl
  case loads =>
    split_ifs at hs with hret <;> cases hs
    · have hover := hh.returned hret
      refine inv.set hj rfl rfl rfl (inv.stacked.set hj (fun _ => ?_) fun _ ho => ?_) fun x => rfl
      · exact ⟨hh.starting, fun _ => hover, hh.returned, hh.slot, hh.lifo⟩
      · exact absurd hret (by simp [show shared.returned = false from ho.returned])
    · exact inv.passive hj rfl rfl rfl rfl
  case takesQueue =>
    split_ifs at hs
    cases hs
    refine inv.set hj rfl rfl rfl (inv.stacked.set hj (fun _ => ?_) fun _ ho => ?_) fun x => rfl
    · exact ⟨hh.starting, hh.returning, hh.returned, hh.slot, hh.lifo⟩
    · exact absurd ho.returning (by simp [WorkerPc.returning])
  case takesLifoBack =>
    cases hs
    refine inv.set hj rfl rfl rfl (inv.stacked.set hj (fun _ => ?_) fun _ ho => ?_) fun x => ?_
    · exact ⟨hh.starting, hh.returning, hh.returned, hh.slot, by simp⟩
    · exact absurd ho.returning (by simp [WorkerPc.returning])
    · simp [HandOff.lifo, WorkerPc.lifo]
      omega
  case restores lifo =>
    cases hs
    refine inv.set hj rfl rfl rfl (inv.stacked.set hj (fun _ => ?_) fun _ ho => ?_) fun x => rfl
    · exact ⟨hh.starting, hh.returning, hh.returned, hh.slot, hh.lifo⟩
    · exact absurd ho.returning (by simp [WorkerPc.returning])
  case setsLifo lifo =>
    cases hs
    have hover := hh.returning rfl
    have hslot : s.slot = none := by
      by_contra hne
      rcases hh.slot hne with h | h
      · cases h
      · simp only at h
        simp [h, TakeoverPc.over] at hover
    refine inv.set hj rfl rfl rfl (inv.stacked.set hj (fun _ => ?_) fun _ ho => ?_) fun x => ?_
    · exact ⟨hh.starting, hh.returning, hh.returned, fun _ => .inl rfl, hh.lifo⟩
    · exact absurd ho.returning (by simp [WorkerPc.returning])
    · simp [HandOff.lifo, WorkerPc.lifo, hslot]
  case joins =>
    split at hs <;> cases hs
    have hnone : shared.lifo = none := by simpa [WorkerPc.hasLifo] using hh.lifo
    refine ⟨inv.stacked.eraseIdx hj rfl, fun x => ?_⟩
    have herase := total_eraseIdx (fun h => h.lifo.count x) hj
    have hcount := inv.counted x
    have hempty : HandOff.lifo ⟨.joins, .finished, shared⟩ = [] := by
      simp [HandOff.lifo, WorkerPc.lifo, TakeoverPc.lifo, hnone]
    rw [hempty, List.count_nil] at herase
    simp only
    omega

theorem Slotted.takeover (inv : Slotted s) {h : HandOff T} (hj : s.handOffs[0]? = some h)
    (hs : s.takeoverStep h = some t) : Slotted t := by
  have hh := inv.stacked.mem hj
  obtain ⟨worker, takeover, shared⟩ := h
  cases takeover <;> simp only [State.takeoverStep] at hs
  case absent | serves | finished => cases hs
  case takesQueue | storesQueue =>
    split_ifs at hs
    cases hs
    exact inv.advance hj rfl rfl rfl rfl rfl rfl id rfl hh.returned
  case restores | replaces =>
    cases hs
    exact inv.advance hj rfl rfl rfl rfl rfl rfl id rfl hh.returned
  case storesReturned =>
    cases hs
    exact inv.advance hj rfl rfl rfl rfl rfl rfl (fun _ => rfl) rfl fun _ => rfl
  case takesLifo =>
    cases hs
    have hslot := hh.slot_eq_none (by simp [TakeoverPc.over]) nofun nofun
    refine inv.set hj rfl rfl rfl (inv.stacked.set hj (fun _ => ?_) (absurd rfl)) fun x => ?_
    · exact ⟨by simpa using hh.starting, hh.returning, hh.returned, fun _ => .inr rfl, by simp⟩
    · simp [HandOff.lifo, TakeoverPc.lifo, hslot]
      omega
  case storesLifo lifo =>
    cases hs
    have hslot := hh.slot_eq_none (by simp [TakeoverPc.over]) nofun nofun
    have hnone : shared.lifo = none := by simpa [TakeoverPc.hasLifo] using hh.lifo
    have hworker : worker.hasLifo = false := by
      have := hh.returning
      cases worker <;> simp_all [WorkerPc.hasLifo, WorkerPc.returning, TakeoverPc.over]
    refine inv.set hj rfl rfl rfl (inv.stacked.set hj (fun _ => ?_) (absurd rfl)) fun x => ?_
    · exact ⟨by simpa using hh.starting, hh.returning, hh.returned,
        by simp [hslot], fun _ => ⟨rfl, hworker⟩⟩
    · simp [HandOff.lifo, TakeoverPc.lifo, hnone]
  case notifies =>
    cases hs
    refine inv.set hj rfl rfl rfl (inv.stacked.set hj (fun _ => ?_) (absurd rfl)) fun x => ?_
    · exact ⟨by simpa using hh.starting, fun _ => rfl, fun _ => rfl, by simpa using hh.slot,
        by simpa [TakeoverPc.hasLifo] using hh.lifo⟩
    · simp [HandOff.lifo, TakeoverPc.lifo]

theorem Slotted.leave (inv : Slotted s) {h : HandOff T} {shutdown : Bool}
    (hj : s.handOffs[0]? = some h) (hs : s.leave h shutdown = some t) : Slotted t := by
  have hh := inv.stacked.mem hj
  unfold State.leave at hs
  split at hs
  · rename_i hserves _
    split_ifs at hs
    cases hs
    have hout := hh.outer hserves
    refine inv.set hj rfl rfl rfl (inv.stacked.set hj (fun _ => ?_) (absurd rfl)) fun x => ?_
    · refine ⟨?_, by simp [hout.returning], by simp [hout.returned], nofun, by simp [hout.lifo]⟩
      simpa [hserves] using hh.starting
    · simp [HandOff.lifo, TakeoverPc.lifo, hserves]
      omega
  · cases hs

theorem Slotted.step (inv : Slotted s) (hstarts : a.fails = false)
    (hs : s.step cap a = some t) : Slotted t := by
  cases State.steps hs with
  | spawnFails => cases hstarts
  | push | pushOverflow | pop | owner | steal | drain => exact ⟨inv.stacked, inv.counted⟩
  | placeLifo hserved hslot value =>
    refine ⟨inv.stacked.served hserved _, fun x => ?_⟩
    have hcount := inv.counted x
    simp only [hslot, Option.toList_none, List.count_nil] at hcount
    simp only [Option.toList_some, List.count_append]
    omega
  | takeLifo hserved hslot =>
    refine ⟨inv.stacked.served hserved _, fun x => ?_⟩
    have hcount := inv.counted x
    simp only [hslot, Option.toList_some] at hcount
    simp only [Option.toList_none, List.count_nil, List.count_append]
    omega
  | blockInPlace howner hserved =>
    refine ⟨inv.stacked.push hserved, fun x => ?_⟩
    have hcount := inv.counted x
    have hnew : (HandOff.new : HandOff T).lifo = [] := rfl
    simp only [total_cons, hnew, List.count_nil, State.moveOut]
    omega
  | worker hj hs => exact inv.worker hj hs
  | spurious hj hw => exact inv.passive hj (by rw [hw]; rfl) rfl rfl rfl
  | takeover hj hs => exact inv.takeover hj hs
  | leave hj hs => exact inv.leave hj hs
  | @thief i th t hi hs =>
    obtain ⟨⟨q, th'⟩, -, rfl⟩ := Option.map_eq_some_iff.mp hs
    have hsame : ∀ u : State T, (u.setTarget q).slot = u.slot ∧ (u.setTarget q).ran = u.ran ∧
        (u.setTarget q).placed = u.placed ∧ (u.setTarget q).handOffs = u.handOffs := by
      intro u
      unfold State.setTarget
      split <;> exact ⟨rfl, rfl, rfl, rfl⟩
    obtain ⟨h₁, h₂, h₃, h₄⟩ := hsame (s.observe i th.pc)
    have hslot : (s.observe i th.pc).slot = s.slot := by cases th.pc <;> rfl
    have hran : (s.observe i th.pc).ran = s.ran := by cases th.pc <;> rfl
    have hplaced : (s.observe i th.pc).placed = s.placed := by cases th.pc <;> rfl
    rw [hslot] at h₁
    rw [hran] at h₂
    rw [hplaced] at h₃
    rw [handOffs_observe] at h₄
    refine ⟨?_, fun x => ?_⟩
    · simpa only [State.setThief, h₁, h₄] using inv.stacked
    · simpa only [State.setThief, h₁, h₂, h₃, h₄] using inv.counted x

end Slotted

/-- What was put into the queue or into a LIFO slot. -/
def State.scheduled (s : State T) : List T := s.home.queue.accepted ++ s.placed

/-- How often a thread has taken `x`: off the queue, by a steal, or out of a LIFO slot. -/
def State.obtained [DecidableEq T] (s : State T) (x : T) : ℕ :=
  s.home.queue.popped.count x + s.home.queue.stolen.count x + s.ran.count x

/-- How often `x` is still in the queue, in a LIFO slot, or on its way between slots. -/
def State.held [DecidableEq T] (cap : Capacity) (s : State T) (x : T) : ℕ :=
  s.home.live cap x + s.slot.toList.count x + total (fun h => h.lifo.count x) s.handOffs

/-- What is scheduled is obtained once or still held once. -/
def State.ExactlyOnce [DecidableEq T] (cap : Capacity) (s : State T) : Prop :=
  ∀ x, s.obtained x + s.held cap x = s.scheduled.count x

/-- Every claim was applied to the queue that its head and tail were read from. -/
def State.OwnClaims (s : State T) : Prop :=
  ∀ c ∈ s.applied, c.object = c.headFrom ∧ c.object = c.tailFrom

/-- When no replacement falls into a steal, every claim fits and every takeover thread starts, a task
that is in the queue or in its LIFO slot at a hand-off is obtained by exactly one thread or still
held, and no claim is applied to another queue than the one it was computed from. -/
theorem handed_over_exactly_once [DecidableEq T] {cap : Capacity} {s : State T}
    (h : Reachable (State.step cap) (Undisturbed cap) State.init s) :
    s.ExactlyOnce cap ∧
      (s.scheduled.Nodup → ∀ x ∈ s.scheduled, s.obtained x + s.held cap x = 1) ∧ s.OwnClaims := by
  have hstealing : Stealing cap s :=
    h.invariant stealing_init fun s a t inv hcalm hs => inv.step hcalm hs
  have hslotted : Slotted s :=
    h.invariant slotted_init fun s a t inv hcalm hs => inv.step hcalm.2.2 hs
  have honce : s.ExactlyOnce cap := by
    intro x
    obtain ⟨p, hp⟩ := hstealing.home
    have hqueue := hp.live_eq x
    have hslot := hslotted.counted x
    simp only [State.obtained, State.held, State.scheduled, List.count_append]
    omega
  refine ⟨honce, fun hnodup x hx => ?_, hstealing.applied⟩
  rw [honce x]
  exact List.count_eq_one_of_mem hnodup hx

def threeTasks : List (Label ℕ) :=
  Label.placeLifo 2 :: .push 0 :: List.replicate 4 Label.owner ++
    Label.push 1 :: List.replicate 4 Label.owner

/-- A thief loads the head and the tail and computes that it will claim one task. -/
def readsHeadAndTail : List (Label ℕ) := .steal 256 :: List.replicate 3 (.thief 0)

/-- A steal ends before the queue is moved out, and another one finds the fresh queue empty. -/
theorem handed_over_exactly_once_after_steal :
    ∃ s, Reachable (State.step localQueueCapacity) (Undisturbed localQueueCapacity)
        (State.init : State ℕ) s ∧
      s.scheduled = [0, 1, 2] ∧ s.home.queue.stolen = [0] ∧ s.home.queue.popped = [1] ∧
      s.ran = [2] ∧ (s.obtained 0 + s.held localQueueCapacity 0 = 1) ∧ s.OwnClaims := by
  have hrun : (run (guarded (State.step localQueueCapacity) (Undisturbed localQueueCapacity))
      State.init (threeTasks ++ readsHeadAndTail ++ List.replicate 5 (Label.thief 0) ++
        [Label.blockInPlace, .steal 256, .thief 1, .thief 1, .thief 1, .worker 0, .worker 0] ++
        [Label.takeover, .takeover, .takeover, .takeLifo, .pop] ++ List.replicate 7 Label.owner)).any
      (fun s => decide (s.scheduled = [0, 1, 2] ∧ s.home.queue.stolen = [0] ∧
        s.home.queue.popped = [1] ∧ s.ran = [2])) = true := by
    decide +kernel
  obtain ⟨s, hreach, hs⟩ := exists_reachable_of_run hrun
  obtain ⟨hscheduled, hstolen, hpopped, hran⟩ := of_decide_eq_true hs
  obtain ⟨-, honce, hclaims⟩ := handed_over_exactly_once hreach
  rw [hscheduled] at honce
  exact ⟨s, hreach, hscheduled, hstolen, hpopped, hran,
    honce (by decide) 0 (by decide), hclaims⟩

/-- The queue is moved out between the loads and the claim, and back between the claim and the
copy: the thief claims on the fresh queue and copies task 0 of the other one, which the takeover
thread pops as well. -/
theorem handed_over_twice :
    ∃ s, Reachable (State.step localQueueCapacity) anyStep (State.init : State ℕ) s ∧
      s.scheduled = [0, 1, 2] ∧ s.home.queue.stolen = [0] ∧ s.home.queue.popped = [1, 0] ∧
      s.obtained 0 + s.held localQueueCapacity 0 ≠ 1 ∧ ¬ s.OwnClaims := by
  have hrun : (run (guarded (State.step localQueueCapacity) anyStep) State.init
      (threeTasks ++ readsHeadAndTail ++ [Label.blockInPlace, .thief 0, .worker 0, .worker 0] ++
        [Label.takeover, .takeover, .thief 0, .takeover, .pop] ++ List.replicate 5 Label.owner ++
        Label.pop :: List.replicate 7 Label.owner)).any
      (fun s => decide (s.scheduled = [0, 1, 2] ∧ s.home.queue.stolen = [0] ∧
        s.home.queue.popped = [1, 0] ∧ s.applied = [⟨.spare 0, .home, .home⟩])) = true := by
    decide +kernel
  obtain ⟨s, hreach, hs⟩ := exists_reachable_of_run hrun
  obtain ⟨hscheduled, hstolen, hpopped, happlied⟩ := of_decide_eq_true hs
  refine ⟨s, hreach, hscheduled, hstolen, hpopped, ?_, ?_⟩
  · have htwice : [1, 0].count 0 + [0].count 0 = 2 := by decide
    simp only [State.obtained, hstolen, hpopped]
    omega
  · intro hclaims
    have := (hclaims ⟨.spare 0, .home, .home⟩ (by simp [happlied])).1
    cases this

end Eddy.Takeover
