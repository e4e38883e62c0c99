import Eddy.Interleaving

/-!
# `select!` with three branches

The macro of `future/mod.rs` nests two selects of two branches: the second branch of the outer one
is an `async` block with the select of the branches `b` and `c`. Beside the compiled code runs what
its documentation says about the branches. A turn is drawn from a seed that every select of the
process shares, so that any turn may come.
-/

namespace Eddy.Select
open Interleaving

/-- A branch of a select of two. -/
inductive Side where
  | left
  | right
  deriving DecidableEq

/-- The futures are those of the branches and not kept here. -/
structure Select2Guarded where
  aEnabled : Bool
  bEnabled : Bool
  firstA : Bool
  randomize : Bool

namespace Select2Guarded

/-- `turn` is the value of `next_select_turn()`. -/
def new (aEnabled bEnabled biased turn : Bool) : Select2Guarded where
  aEnabled := aEnabled
  bEnabled := bEnabled
  firstA := if biased then true else turn
  randomize := !biased

def enabled (s : Select2Guarded) : Side → Bool
  | .left => s.aEnabled
  | .right => s.bEnabled

/-- `disable_a`, `disable_b` -/
def disable (s : Select2Guarded) : Side → Select2Guarded
  | .left => { s with aEnabled := false }
  | .right => { s with bEnabled := false }

/-- `poll`, up to the polls of the futures: `Ready(None)`, or the sides that are polled in turn
until one of them is ready. -/
def poll (s : Select2Guarded) : Option (Select2Guarded × List Side) :=
  if !s.aEnabled && !s.bEnabled then none
  else
    let firstA := if s.randomize then s.firstA else true
    let sides := if firstA then [Side.left, .right] else [.right, .left]
    some ({ s with firstA := if s.randomize then !s.firstA else s.firstA },
      sides.filter s.enabled)

end Select2Guarded

inductive Branch where
  | a
  | b
  | c
  deriving DecidableEq

/-- What a poll of a branch's future returns. -/
inductive Answer where
  | pending
  | ready (matched : Bool)
  deriving DecidableEq

inductive Pc where
  /-- The top of the outer loop. -/
  | outerLoop
  /-- The sides of the outer select that are still to be polled. -/
  | outer (sides : List Side)
  /-- The first poll of the `async` block, in the outer poll that has `rest` to do. -/
  | enterRest (rest : List Side)
  | innerLoop (rest : List Side)
  | inner (sides rest : List Side)
  /-- The poll has returned `Pending`. -/
  | suspended
  | done (x : Branch)
  /-- All branches are disabled and there is no else branch. -/
  | panicked
  deriving DecidableEq

inductive Label where
  /-- The code goes on without polling a branch. -/
  | control
  | poll (x : Branch) (answer : Answer)
  /-- The guards of `b` and `c` are evaluated, and a turn is drawn. -/
  | enterRest (bcond ccond turn : Bool)
  /-- The select is polled again. -/
  | wake
  deriving DecidableEq

def Side.branch : Side → Branch
  | .left => .b
  | .right => .c

structure Select3 where
  outer : Select2Guarded
  /-- The select of the `async` block, once it has been polled. -/
  inner : Option Select2Guarded
  pc : Pc

namespace Select3

/-- The select is entered: the guard of `a` is evaluated, and a turn is drawn. -/
def new (acond turn : Bool) : Select3 where
  outer := .new acond true false turn
  inner := none
  pc := .outerLoop

def goTo (s : Select3) (pc : Pc) : Select3 := { s with pc := pc }

/-- The outer loop after a poll of `a`; a value that does not match disables the branch. -/
def outerAnswer (s : Select3) (rest : List Side) : Answer → Select3
  | .pending => s.goTo (.outer rest)
  | .ready true => s.goTo (.done .a)
  | .ready false => { s with outer := s.outer.disable .left }.goTo .outerLoop

/-- The inner loop after a poll of one of its branches. The value of the `async` block matches the
pattern of the outer select. -/
def innerAnswer (s : Select3) (inner : Select2Guarded) (side : Side) (sides rest : List Side) :
    Answer → Select3
  | .pending => s.goTo (.inner sides rest)
  | .ready true => s.goTo (.done side.branch)
  | .ready false => { s with inner := some (inner.disable side) }.goTo (.innerLoop rest)

def step (s : Select3) (l : Label) : Option Select3 :=
  match s.pc, l with
  | .outerLoop, .control =>
      match s.outer.poll with
      | none => some (s.goTo .panicked)
      | some (outer, sides) => some ({ s with outer := outer }.goTo (.outer sides))
  | .outer [], .control => some (s.goTo .suspended)
  | .outer (.left :: rest), .poll .a answer => some (s.outerAnswer rest answer)
  | .outer (.right :: rest), .control =>
      some (s.goTo (if s.inner.isSome then .innerLoop rest else .enterRest rest))
  | .enterRest rest, .enterRest bcond ccond turn =>
      some ({ s with inner := some (.new bcond ccond false turn) }.goTo (.innerLoop rest))
  | .innerLoop rest, .control =>
      s.inner.map fun inner =>
        match inner.poll with
        | none => s.goTo .panicked
        | some (inner, sides) => { s with inner := some inner }.goTo (.inner sides rest)
  | .inner [] rest, .control => some (s.goTo (.outer rest))
  | .inner (side :: sides) rest, .poll x answer =>
      if x = side.branch then s.inner.map fun inner => s.innerAnswer inner side sides rest answer
      else none
  | .suspended, .wake => some (s.goTo .outerLoop)
  | _, _ => none

end Select3

inductive Status where
  /-- The guard has not been evaluated. -/
  | unknown
  | enabled
  | disabled
  deriving DecidableEq

def Status.ofGuard (cond : Bool) : Status := if cond then .enabled else .disabled

structure Documented where
  status : Branch → Status
  completed : Option Branch

namespace Documented

def new (acond : Bool) : Documented where
  status
    | .a => .ofGuard acond
    | .b | .c => .unknown
  completed := none

/-- Every guard has been evaluated. -/
def Entered (d : Documented) : Prop :=
  d.status .a ≠ .unknown ∧ d.status .b ≠ .unknown ∧ d.status .c ≠ .unknown

instance (d : Documented) : Decidable d.Entered := inferInstanceAs (Decidable (_ ∧ _ ∧ _))

/-- Each guard is evaluated once, and before a branch is polled; only an enabled branch is polled,
and none after one has completed the select; a branch whose value does not match is disabled. -/
def step (d : Documented) : Label → Option Documented
  | .control | .wake => some d
  | .enterRest bcond ccond _ =>
      if d.status .b = .unknown ∧ d.status .c = .unknown then
        some { d with
          status
            | .a => d.status .a
            | .b => .ofGuard bcond
            | .c => .ofGuard ccond }
      else none
  | .poll x answer =>
      if d.Entered ∧ d.status x = .enabled ∧ d.completed = none then
        match answer with
        | .pending => some d
        | .ready true => some { d with completed := some x }
        | .ready false => some { d with status := Function.update d.status x .disabled }
      else none

end Documented

/-- A poll of the select is over. -/
def Pc.returned : Pc → Bool
  | .suspended | .done _ | .panicked => true
  | _ => false

/-- What the documentation says about where the select is. -/
structure Agrees (s : Select3) (d : Documented) : Prop where
  entered : s.pc.returned = true → d.Entered
  completes : ∀ x, s.pc = .done x ↔ d.completed = some x
  panics : s.pc = .panicked → ∀ x, d.status x = .disabled
  waits : s.pc = .suspended → ∃ x, d.status x = .enabled

/-- The compiled code beside the documentation, which has nothing to say once it was violated. -/
structure Watched where
  code : Select3
  documented : Option Documented

namespace Watched

def new (acond turn : Bool) : Watched := ⟨.new acond turn, some (.new acond)⟩

def step (w : Watched) (l : Label) : Option Watched :=
  (w.code.step l).map fun code => ⟨code, w.documented.bind (·.step l)⟩

/-- So far every step was as documented, and so is where the select has come to. -/
def Follows (w : Watched) : Prop := ∃ d, w.documented = some d ∧ Agrees w.code d

/-- The inner select has found both of its branches disabled. -/
def innerExhausted (s : Select3) : Bool :=
  match s.pc, s.inner with
  | .innerLoop _, some inner => !inner.aEnabled && !inner.bEnabled
  | _, _ => false

/-- Branch `a` is not polled before the guards of the others were evaluated, and is disabled when
the others are. -/
def Careful (w : Watched) : Label → Prop
  | .poll .a _ => w.code.inner.isSome = true
  | .control => innerExhausted w.code = true → w.code.outer.aEnabled = false
  | _ => True

end Watched

namespace Select2Guarded

variable {s s' : Select2Guarded} {sides : List Side}

def waits (s : Select2Guarded) : Bool := s.aEnabled || s.bEnabled

theorem poll_eq_none_iff : s.poll = none ↔ s.waits = false := by
  unfold poll waits
  split_ifs with h <;> simp_all

theorem poll_eq_some (h : s.poll = some (s', sides)) :
    (∀ side, s'.enabled side = s.enabled side) ∧ ∀ side, side ∈ sides ↔ s.enabled side = true := by
  unfold poll at h
  by_cases hnone : (!s.aEnabled && !s.bEnabled) = true
  · rw [if_pos hnone] at h
    cases h
  · rw [if_neg hnone] at h
    simp only [Option.some.injEq, Prod.mk.injEq] at h
    obtain ⟨rfl, rfl⟩ := h
    constructor
    · rintro (_ | _) <;> rfl
    · intro side
      rw [List.mem_filter, and_iff_right_iff_imp]
      intro _
      cases side <;> split_ifs <;> simp

theorem poll_waits (h : s.poll = some (s', sides)) : s'.waits = true := by
  have henabled := (poll_eq_some h).1
  have hwaits : s.waits = true := by
    by_contra hnone
    rw [Bool.not_eq_true, ← poll_eq_none_iff, h] at hnone
    cases hnone
  have hleft : s'.aEnabled = s.aEnabled := henabled .left
  have hright : s'.bEnabled = s.bEnabled := henabled .right
  rwa [waits, hleft, hright]

end Select2Guarded

def Pc.completed : Pc → Option Branch
  | .done x => some x
  | _ => none

theorem Pc.eq_done_iff {pc : Pc} {x : Branch} : pc = .done x ↔ pc.completed = some x := by
  cases pc <;> simp [completed]

theorem Status.ofGuard_ne (cond : Bool) : ofGuard cond ≠ .unknown := by
  cases cond <;> nofun

theorem Documented.eq_of {d d' : Documented} (ha : d.status .a = d'.status .a)
    (hb : d.status .b = d'.status .b) (hc : d.status .c = d'.status .c)
    (hcompleted : d.completed = d'.completed) : d = d' := by
  have hstatus : d.status = d'.status := by
    funext x
    cases x <;> assumption
  cases d
  cases d'
  simp_all

namespace Select3

variable {s t : Select3} {l : Label}

inductive Steps (s : Select3) : Label → Select3 → Prop
  | allDisabled (hat : s.pc = .outerLoop) (hpoll : s.outer.poll = none) :
      Steps s .control (s.goTo .panicked)
  | pollOuter (hat : s.pc = .outerLoop) {outer : Select2Guarded} {sides : List Side}
      (hpoll : s.outer.poll = some (outer, sides)) :
      Steps s .control ({ s with outer := outer }.goTo (.outer sides))
  | suspend (hat : s.pc = .outer []) : Steps s .control (s.goTo .suspended)
  | pollLeft {rest : List Side} (hat : s.pc = .outer (.left :: rest)) (answer : Answer) :
      Steps s (.poll .a answer) (s.outerAnswer rest answer)
  | resumeRest {rest : List Side} (hat : s.pc = .outer (.right :: rest))
      (hinner : s.inner.isSome = true) : Steps s .control (s.goTo (.innerLoop rest))
  | callRest {rest : List Side} (hat : s.pc = .outer (.right :: rest)) (hinner : s.inner = none) :
      Steps s .control (s.goTo (.enterRest rest))
  | enterRest {rest : List Side} (hat : s.pc = .enterRest rest) (bcond ccond turn : Bool) :
      Steps s (.enterRest bcond ccond turn)
        ({ s with inner := some (.new bcond ccond false turn) }.goTo (.innerLoop rest))
  | restDisabled {rest : List Side} (hat : s.pc = .innerLoop rest) {inner : Select2Guarded}
      (hinner : s.inner = some inner) (hpoll : inner.poll = none) :
      Steps s .control (s.goTo .panicked)
  | pollInner {rest : List Side} (hat : s.pc = .innerLoop rest) {inner inner' : Select2Guarded}
      {sides : List Side} (hinner : s.inner = some inner)
      (hpoll : inner.poll = some (inner', sides)) :
      Steps s .control ({ s with inner := some inner' }.goTo (.inner sides rest))
  | leaveRest {rest : List Side} (hat : s.pc = .inner [] rest) :
      Steps s .control (s.goTo (.outer rest))
  | pollSide {side : Side} {sides rest : List Side} (hat : s.pc = .inner (side :: sides) rest)
      {inner : Select2Guarded} (hinner : s.inner = some inner) (answer : Answer) :
      Steps s (.poll side.branch answer) (s.innerAnswer inner side sides rest answer)
  | wake (hat : s.pc = .suspended) : Steps s .wake (s.goTo .outerLoop)

theorem steps (h : s.step l = some t) : s.Steps l t := by
  unfold step at h
  split at h
  case h_1 hat =>
    split at h
    case h_1 hpoll =>
      cases h
      exact .allDisabled hat hpoll
    case h_2 outer sides hpoll =>
      cases h
      exact .pollOuter hat hpoll
  case h_2 hat =>
    cases h
    exact .suspend hat
  case h_3 rest answer hat =>
    cases h
    exact .pollLeft hat answer
  case h_4 rest hat =>
    cases h
    split_ifs with hinner
    · exact .resumeRest hat hinner
    · exact .callRest hat (Option.not_isSome_iff_eq_none.mp hinner)
  case h_5 rest bcond ccond turn hat =>
    cases h
    exact .enterRest hat bcond ccond turn
  case h_6 rest hat =>
    obtain ⟨inner, hinner, rfl⟩ := Option.map_eq_some_iff.mp h
    split
    case h_1 hpoll => exact .restDisabled hat hinner hpoll
    case h_2 inner' sides hpoll => exact .pollInner hat hinner hpoll
  case h_7 rest hat =>
    cases h
    exact .leaveRest hat
  case h_8 side sides rest x answer hat =>
    split_ifs at h with hx
    subst hx
    obtain ⟨inner, hinner, rfl⟩ := Option.map_eq_some_iff.mp h
    exact .pollSide hat hinner answer
  case h_9 hat =>
    cases h
    exact .wake hat
  case h_10 => cases h

def documented (s : Select3) : Documented where
  status
    | .a => .ofGuard s.outer.aEnabled
    | .b => (s.inner.map fun inner => .ofGuard inner.aEnabled).getD .unknown
    | .c => (s.inner.map fun inner => .ofGuard inner.bEnabled).getD .unknown
  completed := s.pc.completed

/-- The outer select goes on to branch `a` only while it is enabled. -/
def LeftEnabled (s : Select3) (sides : List Side) : Prop :=
  .left ∈ sides → s.outer.aEnabled = true

def InnerWaits (s : Select3) : Prop := ∃ inner, s.inner = some inner ∧ inner.waits = true

def AtPc (s : Select3) : Pc → Prop
  | .outerLoop => True
  | .done _ => s.inner.isSome = true
  | .outer sides => s.LeftEnabled sides ∧ (.right ∈ sides ∨ s.InnerWaits)
  | .enterRest rest => s.inner = none ∧ s.LeftEnabled rest
  | .innerLoop rest => s.inner.isSome = true ∧ s.LeftEnabled rest
  | .inner sides rest => s.InnerWaits ∧ s.LeftEnabled rest ∧
      ∀ side ∈ sides, ∀ inner ∈ s.inner, inner.enabled side = true
  | .suspended => s.InnerWaits
  | .panicked => s.outer.aEnabled = false ∧ ∃ inner, s.inner = some inner ∧ inner.waits = false

structure Shape (s : Select3) : Prop where
  rest : s.outer.bEnabled = true
  pc : s.AtPc s.pc

theorem Shape.new (acond turn : Bool) : Shape (new acond turn) := ⟨rfl, trivial⟩

theorem Shape.goTo {pc : Pc} (hrest : s.outer.bEnabled = true) (h : s.AtPc pc) :
    Shape (s.goTo pc) where
  rest := hrest
  pc := by cases pc <;> exact h

variable {answer : Answer} {rest : List Side}

theorem Shape.outerAnswer (h : Shape s)
    (hentered : s.inner.isSome = true) (hpc : s.AtPc (.outer (.left :: rest))) :
    Shape (s.outerAnswer rest answer) := by
  unfold Select3.outerAnswer
  split
  · refine .goTo h.rest ⟨fun hleft => hpc.1 (List.mem_cons_of_mem _ hleft), ?_⟩
    simpa using hpc.2
  · exact .goTo h.rest hentered
  · exact .goTo h.rest trivial

theorem Shape.innerAnswer {inner : Select2Guarded} {side : Side} {sides : List Side} (h : Shape s)
    (hpc : s.AtPc (.inner (side :: sides) rest)) :
    Shape (s.innerAnswer inner side sides rest answer) := by
  obtain ⟨⟨inner', hinner, hwaits⟩, hleft, hsides⟩ := hpc
  unfold Select3.innerAnswer
  split
  · refine .goTo h.rest ⟨⟨inner', hinner, hwaits⟩, hleft, fun x hx => ?_⟩
    exact hsides x (List.mem_cons_of_mem _ hx)
  · exact .goTo h.rest (by rw [AtPc, hinner]; rfl)
  · exact .goTo h.rest ⟨rfl, hleft⟩

/-- The outer select always has its second branch to wait for. -/
theorem Shape.poll_outer_ne (h : Shape s) : s.outer.poll ≠ none := by
  rw [Ne, Select2Guarded.poll_eq_none_iff, Select2Guarded.waits, h.rest, Bool.or_true]
  nofun

theorem Shape.step (h : Shape s) (hentered : ∀ answer, l = .poll .a answer → s.inner.isSome = true)
    (hcareful : l = .control → Watched.innerExhausted s = true → s.outer.aEnabled = false)
    (hs : s.step l = some t) : Shape t := by
  have hpc := h.pc
  cases steps hs with
  | allDisabled hat hpoll => exact absurd hpoll h.poll_outer_ne
  | pollOuter hat hpoll =>
    obtain ⟨henabled, hsides⟩ := Select2Guarded.poll_eq_some hpoll
    refine .goTo ((henabled .right).trans h.rest) ⟨fun hleft => ?_, .inl ?_⟩
    · exact (henabled .left).trans ((hsides .left).mp hleft)
    · exact (hsides .right).mpr h.rest
  | suspend hat =>
    rw [hat] at hpc
    exact .goTo h.rest (by simpa [AtPc] using hpc.2)
  | pollLeft hat answer =>
    rw [hat] at hpc
    exact h.outerAnswer (hentered answer rfl) hpc
  | resumeRest hat hinner | callRest hat hinner =>
    rw [hat] at hpc
    exact .goTo h.rest ⟨hinner, fun hleft => hpc.1 (List.mem_cons_of_mem _ hleft)⟩
  | enterRest hat bcond ccond turn =>
    rw [hat] at hpc
    exact .goTo h.rest ⟨rfl, hpc.2⟩
  | restDisabled hat hinner hpoll =>
    have hnone := Select2Guarded.poll_eq_none_iff.mp hpoll
    refine .goTo h.rest ⟨hcareful rfl ?_, _, hinner, hnone⟩
    simpa [Watched.innerExhausted, hat, hinner, Select2Guarded.waits] using hnone
  | pollInner hat hinner hpoll =>
    rw [hat] at hpc
    obtain ⟨henabled, hsides⟩ := Select2Guarded.poll_eq_some hpoll
    refine .goTo h.rest ⟨⟨_, rfl, Select2Guarded.poll_waits hpoll⟩, hpc.2, ?_⟩
    rintro side hside x hx
    cases hx
    exact (henabled side).trans ((hsides side).mp hside)
  | leaveRest hat =>
    rw [hat] at hpc
    exact .goTo h.rest ⟨hpc.2.1, .inr hpc.1⟩
  | pollSide hat hinner answer =>
    rw [hat] at hpc
    exact h.innerAnswer hpc
  | wake hat => exact .goTo h.rest trivial

theorem entered_iff : s.documented.Entered ↔ s.inner.isSome = true := by
  unfold Documented.Entered documented
  cases s.inner with
  | none => simp
  | some inner => simp [Status.ofGuard_ne]

theorem step_poll {x : Branch} (hentered : s.inner.isSome = true)
    (hstatus : s.documented.status x = .enabled) (hpc : s.pc.completed = none) :
    s.documented.step (.poll x answer) =
      match answer with
      | .pending => some s.documented
      | .ready true => some { s.documented with completed := some x }
      | .ready false => some { s.documented with
          status := Function.update s.documented.status x .disabled } := by
  have hall : s.documented.Entered ∧ s.documented.status x = .enabled ∧
      s.documented.completed = none := ⟨entered_iff.mpr hentered, hstatus, hpc⟩
  simp only [Documented.step, if_pos hall]

theorem documented_outerAnswer
    (hentered : s.inner.isSome = true) (hat : s.pc = .outer (.left :: rest))
    (hleft : s.outer.aEnabled = true) :
    s.documented.step (.poll .a answer) = some (s.outerAnswer rest answer).documented := by
  have hpc : s.pc.completed = none := by rw [hat]; rfl
  have hstatus : s.documented.status .a = .enabled := by simp [documented, hleft, Status.ofGuard]
  rw [step_poll hentered hstatus hpc]
  cases answer with
  | pending =>
    apply congrArg some
    apply Documented.eq_of <;> simp [documented, Select3.outerAnswer, goTo, hat, Pc.completed]
  | ready matched =>
    cases matched with
    | true => rfl
    | false =>
      apply congrArg some
      apply Documented.eq_of
      · rfl
      · rfl
      · rfl
      · exact hpc

theorem documented_innerAnswer {inner : Select2Guarded} {side : Side} {sides : List Side}
    (hinner : s.inner = some inner) (hat : s.pc = .inner (side :: sides) rest)
    (henabled : inner.enabled side = true) :
    s.documented.step (.poll side.branch answer) =
      some (s.innerAnswer inner side sides rest answer).documented := by
  have hpc : s.pc.completed = none := by rw [hat]; rfl
  have hentered : s.inner.isSome = true := by rw [hinner]; rfl
  have hstatus : s.documented.status side.branch = .enabled := by
    cases side <;>
      simpa [documented, Side.branch, hinner, Status.ofGuard, Select2Guarded.enabled] using henabled
  rw [step_poll hentered hstatus hpc]
  cases answer with
  | pending =>
    apply congrArg some
    apply Documented.eq_of <;> simp [documented, Select3.innerAnswer, goTo, hat, Pc.completed]
  | ready matched =>
    cases matched with
    | true => rfl
    | false =>
      apply congrArg some
      apply Documented.eq_of
      · cases side <;> rfl
      · cases side <;> simp [documented, Select3.innerAnswer, goTo, hinner, Side.branch,
          Select2Guarded.disable, Status.ofGuard]
      · cases side <;> simp [documented, Select3.innerAnswer, goTo, hinner, Side.branch,
          Select2Guarded.disable, Status.ofGuard]
      · exact hpc

/-- A step without a poll of a branch leaves the statuses as they are. -/
theorem documented_goTo {pc : Pc} (hpc : s.pc.completed = none) (hnext : pc.completed = none) :
    (s.goTo pc).documented = s.documented :=
  Documented.eq_of rfl rfl rfl (hnext.trans hpc.symm)

theorem documented_step (h : Shape s) (hentered : ∀ answer, l = .poll .a answer → s.inner.isSome)
    (hs : s.step l = some t) : s.documented.step l = some t.documented := by
  have hpc := h.pc
  cases steps hs with
  | allDisabled hat hpoll => exact absurd hpoll h.poll_outer_ne
  | @pollOuter hat outer sides hpoll =>
    have henabled : outer.aEnabled = s.outer.aEnabled :=
      (Select2Guarded.poll_eq_some hpoll).1 .left
    apply congrArg some
    apply Documented.eq_of <;> simp [documented, goTo, henabled, hat, Pc.completed]
  | pollLeft hat answer =>
    rw [hat] at hpc
    exact documented_outerAnswer (hentered answer rfl) hat (hpc.1 List.mem_cons_self)
  | enterRest hat bcond ccond turn =>
    rw [hat] at hpc
    have hunknown : s.documented.status .b = .unknown ∧ s.documented.status .c = .unknown := by
      simp [documented, hpc.1]
    simp only [Documented.step, if_pos hunknown]
    apply congrArg some
    apply Documented.eq_of <;> simp [documented, goTo, hat, Pc.completed, Select2Guarded.new]
  | @pollInner rest hat inner inner' sides hinner hpoll =>
    have hb : inner'.aEnabled = inner.aEnabled := (Select2Guarded.poll_eq_some hpoll).1 .left
    have hc : inner'.bEnabled = inner.bEnabled := (Select2Guarded.poll_eq_some hpoll).1 .right
    apply congrArg some
    apply Documented.eq_of <;> simp [documented, goTo, hinner, hb, hc, hat, Pc.completed]
  | @pollSide side sides rest hat inner hinner answer =>
    rw [hat] at hpc
    exact documented_innerAnswer hinner hat (hpc.2.2 side List.mem_cons_self inner hinner)
  | suspend hat | resumeRest hat _ | callRest hat _ | restDisabled hat _ _ | leaveRest hat
  | wake hat =>
    exact congrArg some (documented_goTo (by rw [hat]; rfl) rfl).symm

theorem Shape.agrees (h : Shape s) : Agrees s s.documented where
  entered := by
    intro hreturned
    have hpc := h.pc
    rw [entered_iff]
    cases hat : s.pc with
    | done x =>
      rw [hat] at hpc
      exact hpc
    | suspended =>
      rw [hat] at hpc
      obtain ⟨inner, hinner, -⟩ := hpc
      rw [hinner]
      rfl
    | panicked =>
      rw [hat] at hpc
      obtain ⟨-, inner, hinner, -⟩ := hpc
      rw [hinner]
      rfl
    | _ =>
      rw [hat] at hreturned
      cases hreturned
  completes := fun x => Pc.eq_done_iff
  panics := by
    intro hat x
    have hpc := h.pc
    rw [hat] at hpc
    obtain ⟨ha, inner, hinner, hnone⟩ := hpc
    simp only [Select2Guarded.waits, Bool.or_eq_false_iff] at hnone
    cases x <;> simp [documented, ha, hinner, hnone.1, hnone.2, Status.ofGuard]
  waits := by
    intro hat
    have hpc := h.pc
    rw [hat] at hpc
    obtain ⟨inner, hinner, hwaits⟩ := hpc
    simp only [Select2Guarded.waits, Bool.or_eq_true] at hwaits
    rcases hwaits with hb | hc
    · exact ⟨.b, by simp [documented, hinner, hb, Status.ofGuard]⟩
    · exact ⟨.c, by simp [documented, hinner, hc, Status.ofGuard]⟩

end Select3

namespace Watched
open Select3

variable {w v : Watched} {l : Label}

structure Sound (w : Watched) : Prop where
  shape : Shape w.code
  documented : w.documented = some w.code.documented

theorem Sound.new (acond turn : Bool) : Sound (new acond turn) where
  shape := .new acond turn
  documented := rfl

theorem Sound.follows (h : Sound w) : w.Follows := ⟨_, h.documented, h.shape.agrees⟩

theorem Sound.step (h : Sound w) (hcareful : w.Careful l) (hs : w.step l = some v) : Sound v := by
  obtain ⟨code, hcode, rfl⟩ := Option.map_eq_some_iff.mp hs
  constructor
  · refine h.shape.step ?_ ?_ hcode
    · rintro answer rfl
      exact hcareful
    · rintro rfl
      exact hcareful
  · rw [h.documented]
    exact documented_step h.shape (by rintro answer rfl; exact hcareful) hcode

theorem panics_of_exhausted {s t : Select3} (h : innerExhausted s = true)
    (hs : s.step .control = some t) : t = s.goTo .panicked := by
  unfold innerExhausted at h
  split at h
  case h_1 rest inner hat hinner =>
    have hnone : inner.poll = none := by
      rw [Select2Guarded.poll_eq_none_iff]
      simpa [Select2Guarded.waits] using h
    simpa [Select3.step, hat, hinner, hnone, eq_comm] using hs
  case h_2 => cases h

/-- The two ways to leave the documentation. -/
theorem Sound.careful (h : Sound w) (hs : w.step l = some v) (hv : v.Follows) : w.Careful l := by
  obtain ⟨code, hcode, rfl⟩ := Option.map_eq_some_iff.mp hs
  obtain ⟨d, hd, hagrees⟩ := hv
  rw [h.documented] at hd
  change w.code.documented.step l = some d at hd
  unfold Careful
  split
  case h_1 answer =>
    simp only [Documented.step] at hd
    split_ifs at hd with hall
    exact entered_iff.mp hall.1
  case h_2 =>
    intro hexhausted
    have hpanics := hagrees.panics (by rw [panics_of_exhausted hexhausted hcode]; rfl) .a
    cases hd
    cases ha : w.code.outer.aEnabled with
    | false => rfl
    | true => simp [Select3.documented, ha, Status.ofGuard] at hpanics
  case h_3 => trivial

/-- The select follows its documentation just as long as branch `a` is not polled before the guards
of the others were evaluated, and the others are not both disabled while `a` is enabled. -/
theorem follows_iff_careful (acond turn : Bool) (labels : List Label) :
    Always step Follows (new acond turn) labels ↔ Obeys step Careful (new acond turn) labels :=
  always_iff_obeys (I := Sound) (fun _ h => h.follows)
    (fun _ _ _ h hcareful hs => h.step hcareful hs) (fun _ _ _ h hs hv => h.careful hs hv)
    (.new acond turn) labels

/-- Branch `a` completes the select before the guards of the others were evaluated. In another
run both others are disabled by their guards, and the select panics although `a` is enabled and
has not been polled. -/
theorem departs_from_documentation :
    (∃ w, run step (new true true) [.control, .poll .a (.ready true)] = some w ∧
      w.code.pc = .done .a ∧ w.code.inner = none ∧ ¬ w.Follows) ∧
    ∃ w, run step (new true false) [.control, .control, .enterRest false false true, .control] =
        some w ∧
      w.code.pc = .panicked ∧ w.code.outer.aEnabled = true ∧ ¬ w.Follows := by
  refine ⟨⟨_, rfl, rfl, rfl, ?_⟩, _, rfl, rfl, rfl, ?_⟩
  · rintro ⟨d, hd, -⟩
    cases hd
  · rintro ⟨d, hd, hagrees⟩
    have hpanics := hagrees.panics rfl .a
    cases hd
    cases hpanics

end Watched

end Eddy.Select
