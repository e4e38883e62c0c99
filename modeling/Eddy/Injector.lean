import Eddy.Interleaving
import Eddy.LinkChains

/-!
# The injector

`Injector` of `scheduler/multi_thread/inject.rs`: a queue of tasks that is linked through the
headers of the tasks. Threads take the lock for each access of the queue; the flag `closed` is
loaded before and while the lock is held. All entries are polled and not deallocated when they are
run, as those of `MultiThreadHandle` are, which deallocates on any thread.
-/

namespace Eddy.Inject
open Interleaving LinkChains

variable {T : Type}

/-- What the mutex guards, with the `queue_next` of all headers, which nobody else uses. -/
structure State (T : Type) where
  head : Option T
  tail : Option T
  len : ℕ
  queueNext : T → Option T

namespace State

def new : State T := ⟨none, none, 0, fun _ => none⟩

variable [DecidableEq T]

def append (s : State T) (node : T) : State T :=
  let s := match s.tail with
    | some tail => { s with queueNext := Function.update s.queueNext tail (some node) }
    | none => { s with head := some node }
  { s with tail := some node, len := s.len + 1 }

/-- The link of the node is cleared first. -/
def enqueue (s : State T) (node : T) : State T :=
  append { s with queueNext := Function.update s.queueNext node none } node

/-- The body of `pop`. -/
def takeHead (s : State T) : Option (T × State T) :=
  s.head.map fun head =>
    let next := s.queueNext head
    (head, {
      head := next
      tail := if next.isNone then none else s.tail
      len := s.len - 1
      queueNext := Function.update s.queueNext head none })

/-- The loop of `pop_n`. -/
def takeN : ℕ → State T → List T × State T
  | 0, s => ([], s)
  | limit + 1, s =>
    match s.takeHead with
    | none => ([], s)
    | some (task, s) => let (tasks, s) := takeN limit s; (task :: tasks, s)

end State

/-- A call in progress, or the final drop. The call holds the entries that it names. -/
inductive Call (T : Type) where
  /-- `push`, which loads `closed` next. -/
  | push (task : T)
  | pushLock (task : T)
  /-- Under the lock, `closed` is loaded again. -/
  | pushCheck (task : T)
  | pushAppend (task : T)
  /-- The reference is dropped next, without the lock. -/
  | release (task : T)
  | batchLock (tasks : List T)
  /-- Under the lock, `closed` is loaded for the next task. -/
  | batch (tasks : List T)
  | batchAppend (task : T) (tasks : List T)
  | batchRelease (task : T) (tasks : List T)
  /-- `Drop::drop`, which closes the injector next. -/
  | drop
  /-- It pops and drops what is left. -/
  | drain
  | done

def Call.held : Call T → List T
  | .push task | .pushLock task | .pushCheck task | .pushAppend task | .release task => [task]
  | .batchLock tasks | .batch tasks => tasks
  | .batchAppend task tasks | .batchRelease task tasks => task :: tasks
  | .drop | .drain | .done => []

def Call.isDone : Call T → Bool
  | .done => true
  | _ => false

def Call.isFinal : Call T → Bool
  | .drop | .drain | .done => true
  | _ => false

/-- What happens to the entries. -/
inductive Event (T : Type) where
  /-- `push` or `push_batch` is given the entry. -/
  | given (task : T)
  | appended (task : T)
  /-- by `pop` or `pop_n` -/
  | returned (task : T)
  /-- The reference is dropped by the call that was given the entry. -/
  | released (task : T)
  /-- The final drop pops the entry and drops the reference. -/
  | discarded (task : T)

namespace Event

def gives : Event T → Option T
  | .given task => some task
  | _ => none

def settles : Event T → Option T
  | .returned task | .released task | .discarded task => some task
  | _ => none

def appends : Event T → Option T
  | .appended task => some task
  | _ => none

/-- The entry is popped. -/
def takes : Event T → Option T
  | .returned task | .discarded task => some task
  | _ => none

end Event

structure Injector (T : Type) where
  state : State T
  locked : Bool
  closed : Bool
  calls : List (Call T)
  /-- The final drop has begun. -/
  dropped : Bool
  log : List (Event T)

inductive Label (T : Type) where
  | push (task : T)
  | pushBatch (tasks : List T)
  | pop
  | popN (limit : ℕ)
  | len
  | close
  | drop
  /-- The call goes on. -/
  | run (k : ℕ)

namespace Injector

def new : Injector T := ⟨.new, false, false, [], false, []⟩

def given (s : Injector T) : List T := s.log.filterMap Event.gives

def settled (s : Injector T) : List T := s.log.filterMap Event.settles

def appended (s : Injector T) : List T := s.log.filterMap Event.appends

def taken (s : Injector T) : List T := s.log.filterMap Event.takes

variable [DecidableEq T]

/-- A task has one entry at a time: it is queued again only once the entry that the injector was
given before was returned, or its reference dropped. -/
def Fresh (s : Injector T) (task : T) : Prop := s.given.count task = s.settled.count task

instance (s : Injector T) (task : T) : Decidable (s.Fresh task) := instDecidableEqNat _ _

/-- The call goes on as `c`. -/
def turn (s : Injector T) (k : ℕ) (c : Call T) : Injector T := { s with calls := s.calls.set k c }

def record (s : Injector T) (events : List (Event T)) : Injector T :=
  { s with log := s.log ++ events }

def runCall (s : Injector T) (k : ℕ) : Call T → Option (Injector T)
  | .push task => some (s.turn k (if s.closed then .release task else .pushLock task))
  | .pushLock task =>
      if s.locked then none else some ({ s with locked := true }.turn k (.pushCheck task))
  | .pushCheck task =>
      if s.closed then some ({ s with locked := false }.turn k (.release task))
      else some (s.turn k (.pushAppend task))
  | .pushAppend task =>
      some (({ s with state := s.state.enqueue task, locked := false }.record
        [.appended task]).turn k .done)
  | .release task => some ((s.record [.released task]).turn k .done)
  | .batchLock tasks =>
      if s.locked then none else some ({ s with locked := true }.turn k (.batch tasks))
  | .batch [] => some ({ s with locked := false }.turn k .done)
  | .batch (task :: tasks) =>
      some (s.turn k (if s.closed then .batchRelease task tasks else .batchAppend task tasks))
  | .batchAppend task tasks =>
      some (({ s with state := s.state.enqueue task }.record [.appended task]).turn k
        (.batch tasks))
  | .batchRelease task tasks => some ((s.record [.released task]).turn k (.batch tasks))
  | .drop => some ({ s with closed := true }.turn k .drain)
  | .drain =>
      if s.locked then none
      else
        match s.state.takeHead with
        | none => some (s.turn k .done)
        | some (task, state) =>
            some (({ s with state := state }.record [.discarded task]).turn k .drain)
  | .done => none

/-- A call is made while there is the injector. `pop`, `pop_n` and `len` are one locked section. -/
def step (s : Injector T) : Label T → Option (Injector T)
  | .push task =>
      if s.dropped = false ∧ s.Fresh task then
        some { s.record [.given task] with calls := s.calls ++ [.push task] }
      else none
  | .pushBatch tasks =>
      if s.dropped = false ∧ tasks.Nodup ∧ ∀ task ∈ tasks, s.Fresh task then
        some { s.record (tasks.map .given) with calls := s.calls ++ [.batchLock tasks] }
      else none
  | .pop =>
      if s.dropped = false ∧ s.locked = false then
        match s.state.takeHead with
        | none => some s
        | some (task, state) => some ({ s with state := state }.record [.returned task])
      else none
  | .popN limit =>
      if s.dropped = false ∧ s.locked = false then
        let (tasks, state) := s.state.takeN limit
        some ({ s with state := state }.record (tasks.map .returned))
      else none
  | .len => if s.dropped = false ∧ s.locked = false then some s else none
  | .close => if s.dropped = false then some { s with closed := true } else none
  | .drop =>
      if s.dropped = false ∧ s.calls.all Call.isDone then
        some { s with dropped := true, calls := s.calls ++ [.drop] }
      else none
  | .run k => s.calls[k]?.bind (s.runCall k)

def custody (s : Injector T) (queue : List T) (task : T) : ℕ :=
  total (fun c => c.held.count task) s.calls + queue.count task

/-- The injector is a queue of these tasks. -/
structure Refines (s : Injector T) (queue : List T) : Prop where
  chain : Chain s.state.queueNext s.state.head queue
  nodup : queue.Nodup
  tail : s.state.tail = queue.getLast?
  len : s.state.len = queue.length
  pops : s.state.takeHead.map Prod.fst = queue.head?
  popsMany : ∀ limit, (s.state.takeN limit).1 = queue.take limit
  fifo : s.appended = s.taken ++ queue
  once : ∀ task, s.given.count task = s.settled.count task + s.custody queue task
  one : ∀ task, s.custody queue task ≤ 1
  /-- After the final drop every entry was returned, or its reference dropped. -/
  gone : s.dropped = true → (∀ c ∈ s.calls, c.isDone = true) →
    ∀ task, s.given.count task = s.settled.count task

end Injector

namespace State

variable {s s' : State T} {node : T} {q : List T}

structure Queues (s : State T) (q : List T) : Prop where
  chain : Chain s.queueNext s.head q
  tail : s.tail = q.getLast?
  len : s.len = q.length

theorem Queues.new : (new : State T).Queues [] := ⟨rfl, rfl, rfl⟩

variable [DecidableEq T]

theorem Queues.enqueue (h : s.Queues q) (hnot : node ∉ q) :
    (s.enqueue node).Queues (q ++ [node]) := by
  have hchain := h.chain.concat hnot
  have htail : (s.enqueue node).tail = some node := rfl
  refine ⟨?_, by rw [htail, List.getLast?_concat], ?_⟩
  · rw [← h.tail] at hchain
    unfold State.enqueue append
    cases ht : s.tail <;> simpa [ht, setLast, startOf] using hchain
  · rw [List.length_append, ← h.len]
    unfold State.enqueue append
    cases ht : s.tail <;> rfl

theorem Queues.takeHead_nil (h : s.Queues []) : s.takeHead = none := by
  have hhead : s.head = none := h.chain
  rw [State.takeHead, hhead]
  rfl

theorem Queues.takeHead_cons (h : s.Queues (node :: q)) :
    ∃ s', s.takeHead = some (node, s') ∧ s'.Queues q := by
  have hhead : s.head = some node := h.chain.1
  have hnot : node ∉ q := (List.nodup_cons.mp h.chain.nodup).1
  have hnext : s.queueNext node = q.head? := Chain.head_eq h.chain.2
  refine ⟨_, by rw [State.takeHead, hhead]; rfl, h.chain.2.update hnot, ?_, ?_⟩
  · rw [h.tail, hnext]
    cases q with
    | nil => rfl
    | cons x q => simp [List.getLast?_cons_cons]
  · simp [h.len]

theorem Queues.takeHead_eq (h : s.Queues q) : s.takeHead.map Prod.fst = q.head? := by
  cases q with
  | nil => rw [h.takeHead_nil]; rfl
  | cons task q =>
    obtain ⟨s', htake, -⟩ := h.takeHead_cons
    rw [htake]
    rfl

theorem Queues.takeN (h : s.Queues q) (limit : ℕ) :
    (s.takeN limit).1 = q.take limit ∧ (s.takeN limit).2.Queues (q.drop limit) := by
  induction limit generalizing s q with
  | zero => exact ⟨rfl, h⟩
  | succ limit ih =>
    cases q with
    | nil =>
      rw [State.takeN, h.takeHead_nil]
      exact ⟨rfl, h⟩
    | cons task q =>
      obtain ⟨s', htake, hs'⟩ := h.takeHead_cons
      obtain ⟨htasks, hstate⟩ := ih hs'
      rw [State.takeN, htake]
      exact ⟨congrArg (task :: ·) htasks, hstate⟩

end State

namespace Injector

variable {s t : Injector T} {q q' : List T} {c c' : Call T} {k : ℕ} {events : List (Event T)}

@[simp] theorem given_record :
    (s.record events).given = s.given ++ events.filterMap Event.gives := List.filterMap_append

@[simp] theorem settled_record :
    (s.record events).settled = s.settled ++ events.filterMap Event.settles := List.filterMap_append

@[simp] theorem appended_record :
    (s.record events).appended = s.appended ++ events.filterMap Event.appends :=
  List.filterMap_append

@[simp] theorem taken_record :
    (s.record events).taken = s.taken ++ events.filterMap Event.takes := List.filterMap_append

variable [DecidableEq T]

structure Sound (s : Injector T) (q : List T) : Prop where
  queues : s.state.Queues q
  fifo : s.appended = s.taken ++ q
  once : ∀ task, s.given.count task = s.settled.count task + s.custody q task
  one : ∀ task, s.custody q task ≤ 1
  final : s.dropped = true → ∀ c ∈ s.calls, c.isFinal = true
  left : s.dropped = true → q = [] ∨ ∃ c ∈ s.calls, c.isDone = false

theorem Sound.new : (new : Injector T).Sound [] where
  queues := .new
  fifo := rfl
  once := fun _ => rfl
  one := fun _ => Nat.zero_le _
  final := nofun
  left := nofun

theorem custody_set {task : T} (hk : s.calls[k]? = some c) (hcalls : t.calls = s.calls.set k c') :
    t.custody q' task + c.held.count task + q.count task =
      s.custody q task + c'.held.count task + q'.count task := by
  have hset := total_set (fun c => c.held.count task) hk c'
  simp only [custody, hcalls]
  omega

theorem Sound.goOn (h : s.Sound q) (hk : s.calls[k]? = some c) (hcalls : t.calls = s.calls.set k c')
    (hdropped : t.dropped = s.dropped) (hlog : t.log = s.log ++ events)
    (hqueues : t.state.Queues q') (hgives : events.filterMap Event.gives = [])
    (hfifo : q ++ events.filterMap Event.appends = events.filterMap Event.takes ++ q')
    (hmoved : ∀ task, (events.filterMap Event.settles).count task + c'.held.count task +
      q'.count task = c.held.count task + q.count task)
    (hfinal : c.isFinal = true → c'.isFinal = true ∧ (q' = [] ∨ c'.isDone = false)) :
    t.Sound q' where
  queues := hqueues
  fifo := by
    have hold := h.fifo
    simp only [appended, taken, hlog, List.filterMap_append] at hold ⊢
    rw [hold, List.append_assoc, hfifo, List.append_assoc]
  once := by
    intro task
    have hold := h.once task
    have hcustody : t.custody q' task + c.held.count task + q.count task =
        s.custody q task + c'.held.count task + q'.count task := custody_set hk hcalls
    have hstay := hmoved task
    simp only [given, settled, hlog, List.filterMap_append, hgives, List.count_append,
      List.append_nil] at hold ⊢
    omega
  one := by
    intro task
    have hold := h.one task
    have hcustody : t.custody q' task + c.held.count task + q.count task =
        s.custody q task + c'.held.count task + q'.count task := custody_set hk hcalls
    have hstay := hmoved task
    omega
  final := by
    intro hd x hx
    rw [hdropped] at hd
    rw [hcalls] at hx
    rcases List.mem_or_eq_of_mem_set hx with hx | rfl
    · exact h.final hd x hx
    · exact (hfinal (h.final hd c (List.mem_of_getElem? hk))).1
  left := by
    intro hd
    rw [hdropped] at hd
    refine (hfinal (h.final hd c (List.mem_of_getElem? hk))).2.imp_right fun hdone => ⟨c', ?_, hdone⟩
    rw [hcalls]
    exact List.mem_set (List.getElem?_eq_some_iff.mp hk).1 _

theorem Sound.keep (h : s.Sound q) (hk : s.calls[k]? = some c) (hcalls : t.calls = s.calls.set k c')
    (hdropped : t.dropped = s.dropped) (hlog : t.log = s.log) (hstate : t.state = s.state)
    (hheld : c'.held = c.held)
    (hfinal : c.isFinal = true → c'.isFinal = true ∧ (q = [] ∨ c'.isDone = false)) : t.Sound q :=
  h.goOn hk hcalls hdropped (hlog.trans (List.append_nil _).symm) (hstate ▸ h.queues) rfl
    (List.append_nil _) (fun task => by simp [hheld]) hfinal

theorem Sound.not_mem (h : s.Sound q) (hk : s.calls[k]? = some c) {task : T}
    (htask : task ∈ c.held) :
    task ∉ q := by
  intro hq
  have hheld := le_total (fun c => c.held.count task) hk
  have hone := h.one task
  have hc := List.count_pos_iff.mpr htask
  have hqueue := List.count_pos_iff.mpr hq
  simp only [custody] at hone
  omega

theorem Sound.runCall (h : s.Sound q) (hk : s.calls[k]? = some c) (hs : s.runCall k c = some t) :
    ∃ q', t.Sound q' := by
  cases c with
  | push task =>
    cases hs
    refine ⟨q, h.keep hk rfl rfl rfl rfl ?_ nofun⟩
    split_ifs <;> rfl
  | pushLock task =>
    simp only [Injector.runCall] at hs
    split_ifs at hs
    cases hs
    exact ⟨q, h.keep hk rfl rfl rfl rfl rfl nofun⟩
  | pushCheck task =>
    simp only [Injector.runCall] at hs
    split_ifs at hs
    all_goals
      cases hs
      exact ⟨q, h.keep hk rfl rfl rfl rfl rfl nofun⟩
  | pushAppend task =>
    cases hs
    have hnot : task ∉ q := h.not_mem hk List.mem_cons_self
    refine ⟨q ++ [task], h.goOn hk rfl rfl rfl (h.queues.enqueue hnot) rfl rfl (fun x => ?_) nofun⟩
    rw [List.count_append, Nat.add_comm (q.count x)]
    exact Nat.zero_add _
  | release task =>
    cases hs
    exact ⟨q, h.goOn hk rfl rfl rfl h.queues rfl (List.append_nil _) (fun x => rfl) nofun⟩
  | batchLock tasks =>
    simp only [Injector.runCall] at hs
    split_ifs at hs
    cases hs
    exact ⟨q, h.keep hk rfl rfl rfl rfl rfl nofun⟩
  | batch tasks =>
    cases tasks with
    | nil =>
      cases hs
      exact ⟨q, h.keep hk rfl rfl rfl rfl rfl nofun⟩
    | cons task tasks =>
      cases hs
      refine ⟨q, h.keep hk rfl rfl rfl rfl ?_ nofun⟩
      split_ifs <;> rfl
  | batchAppend task tasks =>
    cases hs
    have hnot : task ∉ q := h.not_mem hk List.mem_cons_self
    refine ⟨q ++ [task], h.goOn hk rfl rfl rfl (h.queues.enqueue hnot) rfl rfl (fun x => ?_) nofun⟩
    change 0 + tasks.count x + (q ++ [task]).count x = (task :: tasks).count x + q.count x
    simp only [List.count_append, List.count_cons, List.count_nil]
    omega
  | batchRelease task tasks =>
    cases hs
    refine ⟨q, h.goOn hk rfl rfl rfl h.queues rfl (List.append_nil _) (fun x => ?_) nofun⟩
    change [task].count x + tasks.count x + q.count x = (task :: tasks).count x + q.count x
    simp only [List.count_cons, List.count_nil]
    omega
  | drop =>
    cases hs
    exact ⟨q, h.keep hk rfl rfl rfl rfl rfl fun _ => ⟨rfl, .inr rfl⟩⟩
  | drain =>
    simp only [Injector.runCall] at hs
    split_ifs at hs
    cases q with
    | nil =>
      rw [h.queues.takeHead_nil] at hs
      cases hs
      exact ⟨[], h.keep hk rfl rfl rfl rfl rfl fun _ => ⟨rfl, .inl rfl⟩⟩
    | cons task q =>
      obtain ⟨state, htake, hqueues⟩ := h.queues.takeHead_cons
      rw [htake] at hs
      cases hs
      refine ⟨q, h.goOn hk rfl rfl rfl hqueues rfl (List.append_nil _) (fun x => ?_)
        fun _ => ⟨rfl, .inr rfl⟩⟩
      change [task].count x + 0 + q.count x = 0 + (task :: q).count x
      simp only [List.count_cons, List.count_nil]
      omega
  | done => cases hs

theorem custody_eq_zero (h : s.Sound q) {task : T} (hfresh : s.Fresh task) :
    s.custody q task = 0 := by
  have honce := h.once task
  unfold Fresh at hfresh
  omega

theorem Sound.give (h : s.Sound q) {tasks : List T} (hdropped : s.dropped = false)
    (hnodup : tasks.Nodup) (hfresh : ∀ task ∈ tasks, s.Fresh task) (hheld : c.held = tasks) :
    Sound { s.record (tasks.map .given) with calls := s.calls ++ [c] } q := by
  have hgives : (tasks.map Event.given).filterMap Event.gives = tasks := by
    simp [List.filterMap_map, Function.comp_def, Event.gives]
  have hsettles : (tasks.map Event.given).filterMap Event.settles = [] := by
    simp [Event.settles]
  have happends : (tasks.map Event.given).filterMap Event.appends = [] := by
    simp [Event.appends]
  have htakes : (tasks.map Event.given).filterMap Event.takes = [] := by
    simp [Event.takes]
  have hcustody : ∀ task, custody { s.record (tasks.map .given) with calls := s.calls ++ [c] } q
      task = s.custody q task + tasks.count task := by
    intro task
    simp only [custody, total_append, total_cons, total_nil, hheld]
    omega
  refine ⟨h.queues, ?_, fun task => ?_, fun task => ?_, ?_, ?_⟩
  · change (s.record _).appended = (s.record _).taken ++ q
    rw [appended_record, taken_record, happends, htakes, List.append_nil, List.append_nil, h.fifo]
  · change (s.record _).given.count task = (s.record _).settled.count task + _
    rw [given_record, settled_record, hgives, hsettles, List.append_nil, List.count_append,
      hcustody, h.once task]
    omega
  · rw [hcustody]
    by_cases htask : task ∈ tasks
    · rw [custody_eq_zero h (hfresh task htask), List.count_eq_one_of_mem hnodup htask]
    · rw [List.count_eq_zero_of_not_mem htask]
      exact h.one task
  · intro hd
    cases hdropped.symm.trans hd
  · intro hd
    cases hdropped.symm.trans hd

/-- The next entries are returned. -/
theorem Sound.returns {tasks : List T} {state : State T} (h : s.Sound (tasks ++ q))
    (hdropped : s.dropped = false) (hqueues : state.Queues q) :
    ({ s with state := state }.record (tasks.map .returned)).Sound q := by
  have hgives : (tasks.map Event.returned).filterMap Event.gives = [] := by
    simp [Event.gives]
  have hsettles : (tasks.map Event.returned).filterMap Event.settles = tasks := by
    simp [List.filterMap_map, Function.comp_def, Event.settles]
  have happends : (tasks.map Event.returned).filterMap Event.appends = [] := by
    simp [Event.appends]
  have htakes : (tasks.map Event.returned).filterMap Event.takes = tasks := by
    simp [List.filterMap_map, Function.comp_def, Event.takes]
  have hcustody : ∀ task, ({ s with state := state }.record (tasks.map .returned)).custody q task +
      tasks.count task = s.custody (tasks ++ q) task := by
    intro task
    simp only [custody, record, List.count_append]
    omega
  refine ⟨hqueues, ?_, fun task => ?_, fun task => ?_, ?_, ?_⟩
  · rw [appended_record, taken_record, happends, htakes, List.append_nil, List.append_assoc]
    exact h.fifo
  · rw [given_record, settled_record, hgives, hsettles, List.append_nil, List.count_append,
      Nat.add_assoc, Nat.add_comm (tasks.count task), hcustody]
    exact h.once task
  · have hone := h.one task
    have hold := hcustody task
    omega
  · intro hd
    cases hdropped.symm.trans hd
  · intro hd
    cases hdropped.symm.trans hd

theorem Sound.step (h : s.Sound q) {a : Label T} (hs : s.step a = some t) : ∃ q', t.Sound q' := by
  cases a with
  | push task =>
    simp only [Injector.step] at hs
    split_ifs at hs with hallowed
    cases hs
    have hfresh : ∀ x ∈ [task], s.Fresh x := fun x hx => List.mem_singleton.mp hx ▸ hallowed.2
    exact ⟨q, h.give hallowed.1 (List.nodup_singleton _) hfresh rfl⟩
  | pushBatch tasks =>
    simp only [Injector.step] at hs
    split_ifs at hs with hallowed
    cases hs
    exact ⟨q, h.give hallowed.1 hallowed.2.1 hallowed.2.2 rfl⟩
  | pop =>
    simp only [Injector.step] at hs
    split_ifs at hs with hallowed
    cases q with
    | nil =>
      rw [h.queues.takeHead_nil] at hs
      cases hs
      exact ⟨[], h⟩
    | cons task q =>
      obtain ⟨state, htake, hqueues⟩ := h.queues.takeHead_cons
      rw [htake] at hs
      cases hs
      have hpopped : s.Sound ([task] ++ q) := h
      exact ⟨q, hpopped.returns hallowed.1 hqueues⟩
  | popN limit =>
    simp only [Injector.step] at hs
    split_ifs at hs with hallowed
    cases hs
    obtain ⟨htasks, hqueues⟩ := h.queues.takeN limit
    refine ⟨q.drop limit, ?_⟩
    rw [htasks]
    exact Sound.returns (by rwa [List.take_append_drop]) hallowed.1 hqueues
  | len =>
    simp only [Injector.step] at hs
    split_ifs at hs
    cases hs
    exact ⟨q, h⟩
  | close =>
    simp only [Injector.step] at hs
    split_ifs at hs
    cases hs
    exact ⟨q, { h with }⟩
  | drop =>
    simp only [Injector.step] at hs
    split_ifs at hs with hallowed
    cases hs
    have hdone := List.all_eq_true.mp hallowed.2
    have hcustody : ∀ task, custody { s with dropped := true, calls := s.calls ++ [.drop] } q task =
        s.custody q task := fun task => by simp [custody, Call.held]
    refine ⟨q, h.queues, h.fifo, fun task => ?_, fun task => ?_, fun _ x hx => ?_, fun _ => ?_⟩
    · rw [hcustody]
      exact h.once task
    · rw [hcustody]
      exact h.one task
    · rcases List.mem_append.mp hx with hold | hnew
      · have hx := hdone x hold
        cases x <;> first | rfl | cases hx
      · rw [List.mem_singleton.mp hnew]
        rfl
    · exact .inr ⟨.drop, List.mem_append_right _ List.mem_cons_self, rfl⟩
  | run k =>
    obtain ⟨c, hk, hrun⟩ := Option.bind_eq_some_iff.mp hs
    exact h.runCall hk hrun

theorem Sound.refines (h : s.Sound q) : s.Refines q where
  chain := h.queues.chain
  nodup := h.queues.chain.nodup
  tail := h.queues.tail
  len := h.queues.len
  pops := h.queues.takeHead_eq
  popsMany := fun limit => (h.queues.takeN limit).1
  fifo := h.fifo
  once := h.once
  one := h.one
  gone := by
    intro hdropped hdone task
    have hempty : q = [] := by
      refine (h.left hdropped).resolve_right ?_
      rintro ⟨c, hc, hnot⟩
      rw [hdone c hc] at hnot
      cases hnot
    have hheld : total (fun c => c.held.count task) s.calls = 0 := by
      refine total_eq_zero_iff.mpr fun c hc => ?_
      have hc := hdone c hc
      cases c <;> first | rfl | cases hc
    have honce := h.once task
    rw [custody, hheld, hempty] at honce
    exact honce

/-- After any steps of any calls, the tasks that are linked are a queue, from which they are popped
in the order in which they were appended; and an entry that the injector was given is with one call
or in the queue, until it is returned, or its reference dropped, once. -/
theorem refines_fifo (hs : Reachable step anyStep (new : Injector T) s) : ∃ q, s.Refines q := by
  obtain ⟨q, hsound⟩ : ∃ q, s.Sound q :=
    hs.invariant (I := fun s => ∃ q, s.Sound q) ⟨[], .new⟩ fun _ _ _ ⟨_, h⟩ _ hstep => h.step hstep
  exact ⟨q, hsound.refines⟩

/-- A task is popped and queued again after the injector was closed, while another call of `push`
was waiting for the lock. -/
theorem refines_fifo_again : ∃ s : Injector ℕ, Reachable step anyStep new s ∧ s.dropped = true ∧
    s.given = [1, 2, 3, 1] ∧ s.appended = [1, 2] ∧ s.settled = [3, 1, 1, 2] ∧ ∃ q, s.Refines q := by
  obtain ⟨s, hrun, hdropped, hgiven, happended, hsettled⟩ : ∃ s : Injector ℕ,
      run (guarded step anyStep) new [.pushBatch [1, 2], .run 0, .run 0, .push 3, .run 1, .run 0,
        .run 0, .run 0, .run 0, .run 1, .close, .run 1, .run 1, .pop, .push 1, .run 2, .run 2, .drop,
        .run 3, .run 3, .run 3] = some s ∧
      s.dropped = true ∧ s.given = [1, 2, 3, 1] ∧ s.appended = [1, 2] ∧ s.settled = [3, 1, 1, 2] :=
    ⟨_, rfl, rfl, rfl, rfl, rfl⟩
  have hreach := reachable_of_run hrun
  exact ⟨s, hreach, hdropped, hgiven, happended, hsettled, refines_fifo hreach⟩

end Injector

end Eddy.Inject
