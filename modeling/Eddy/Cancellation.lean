import Mathlib.Logic.Function.Basic
import Eddy.Interleaving

/-!
# Cancellation tokens

`CancellationToken` of `cancellation.rs`. A token keeps weak references to its children: a token
lives as long as its handle, or as long as a call holds a reference to it. A call of `cancel`
swaps the flag, takes the children and cancels one after the other; `child_token` looks at the flag
of the parent before and after it has pushed the child.
-/

namespace Eddy.Cancellation
open Interleaving

/-- An `Inner`. -/
structure Token where
  cancelled : Bool
  /-- The weak references. -/
  children : List ℕ
  /-- Its `CancellationToken` was returned and not dropped. -/
  handle : Bool
  /-- The tokens that it was derived from, the nearest first. -/
  ancestors : List ℕ

inductive Stage where
  | swap
  | take
  | iterate (children : List ℕ)

/-- How a call of `cancel` has come by its token. -/
inductive Mode where
  | borrowed
  | upgraded
  /-- It is the last action of `child_token` on the parent, which then returns the child. -/
  | created (parent : ℕ)

inductive Check where
  | first
  | push
  | second
  deriving DecidableEq

/-- A call in progress. -/
inductive Frame where
  | cancel (token : ℕ) (mode : Mode) (stage : Stage)
  | childToken (parent child : ℕ) (check : Check)

/-- The call has a reference of its own to the token. -/
def Frame.holds (i : ℕ) : Frame → Bool
  | .cancel token .upgraded _ | .cancel token (.created _) _ => token = i
  | .cancel _ .borrowed _ => false
  | .childToken _ child _ => child = i

def Frame.borrows (i : ℕ) : Frame → Bool
  | .cancel token .borrowed _ => token = i
  | .cancel _ .upgraded _ => false
  | .cancel _ (.created parent) _ | .childToken parent _ _ => parent = i

structure State where
  tokens : ℕ → Token
  /-- How many tokens were made. -/
  made : ℕ
  /-- The calls of each thread, the innermost first. -/
  threads : List (List Frame)

def State.new : State := ⟨fun _ => ⟨false, [], false, []⟩, 0, []⟩

inductive Label where
  /-- `CancellationToken::new` -/
  | new
  /-- A thread calls `cancel`. -/
  | cancel (i : ℕ)
  /-- A thread calls `child_token`. -/
  | childToken (i : ℕ)
  /-- The thread goes on with its innermost call. -/
  | run (k : ℕ)
  | drop (i : ℕ)

namespace State

/-- The calls in progress. -/
def frames (s : State) : List Frame := s.threads.flatten

def alive (s : State) (i : ℕ) : Bool :=
  (s.tokens i).handle || s.frames.any (Frame.holds i)

def modify (s : State) (i : ℕ) (f : Token → Token) : State :=
  { s with tokens := Function.update s.tokens i (f (s.tokens i)) }

def goOn (s : State) (k : ℕ) (calls : List Frame) : State :=
  { s with threads := s.threads.set k calls }

/-- The call of `cancel` returns. -/
def finish (s : State) (token : ℕ) : Mode → State
  | .borrowed | .upgraded => s
  | .created _ => s.modify token fun x => { x with handle := true }

/-- The next step of the innermost call of the thread. -/
def runFrame (s : State) (k : ℕ) (rest : List Frame) : Frame → State
  | .cancel token mode .swap =>
    if (s.tokens token).cancelled then (s.finish token mode).goOn k rest
    else
      (s.modify token fun x => { x with cancelled := true }).goOn k
        (.cancel token mode .take :: rest)
  | .cancel token mode .take =>
    (s.modify token fun x => { x with children := [] }).goOn k
      (.cancel token mode (.iterate (s.tokens token).children) :: rest)
  | .cancel token mode (.iterate []) => (s.finish token mode).goOn k rest
  | .cancel token mode (.iterate (child :: children)) =>
    if s.alive child then
      s.goOn k (.cancel child .upgraded .swap :: .cancel token mode (.iterate children) :: rest)
    else s.goOn k (.cancel token mode (.iterate children) :: rest)
  | .childToken parent child .first =>
    if (s.tokens parent).cancelled then s.goOn k (.cancel child (.created parent) .swap :: rest)
    else s.goOn k (.childToken parent child .push :: rest)
  | .childToken parent child .push =>
    (s.modify parent fun x => { x with children := x.children ++ [child] }).goOn k
      (.childToken parent child .second :: rest)
  | .childToken parent child .second =>
    if (s.tokens parent).cancelled then s.goOn k (.cancel child (.created parent) .swap :: rest)
    else (s.modify child fun x => { x with handle := true }).goOn k rest

def make (s : State) (handle : Bool) (ancestors : List ℕ) : State :=
  { s with
    tokens := Function.update s.tokens s.made ⟨false, [], handle, ancestors⟩
    made := s.made + 1 }

end State

def step (s : State) : Label → Option State
  | .new => some (s.make true [])
  | .cancel i =>
    if (s.tokens i).handle then
      some { s with threads := s.threads ++ [[.cancel i .borrowed .swap]] }
    else none
  | .childToken i =>
    if (s.tokens i).handle then
      some { s.make false (i :: (s.tokens i).ancestors) with
        threads := s.threads ++ [[.childToken i s.made .first]] }
    else none
  | .run k =>
    match s.threads[k]? with
    | some (frame :: rest) => some (s.runFrame k rest frame)
    | some [] | none => none
  | .drop i =>
    if (s.tokens i).handle && s.frames.all (! ·.borrows i) then
      some (s.modify i fun x => { x with handle := false })
    else none

end Eddy.Cancellation
