import Eddy.LinkChains

/-!
# The intrusive doubly linked list

`LinkedList` of `util/linked_list.rs`. The links lie in the nodes, which any number of lists share,
so that every operation goes from the links of all nodes to new ones. It is undefined where the
code panics: at a `debug_assert!`, and at the underflow of `len`.
-/

namespace Eddy.IntrusiveList
open LinkChains
open Function (update)

variable {T κ : Type}

structure PointersInner (T : Type) where
  prev : Option T
  next : Option T
  linked : Bool

def PointersInner.new : PointersInner T := ⟨none, none, false⟩

/-- What `links_of` leads to. -/
abbrev Links (T : Type) := T → PointersInner T

structure LinkedList (T : Type) where
  head : Option T
  tail : Option T
  len : ℕ

namespace Links

def next (links : Links T) (node : T) : Option T := (links node).next

def prev (links : Links T) (node : T) : Option T := (links node).prev

variable [DecidableEq T]

def write (links : Links T) (node : T) (pointers : PointersInner T) : Links T :=
  update links node pointers

def setNext (links : Links T) (node : T) (next : Option T) : Links T :=
  links.write node { links node with next := next }

def setPrev (links : Links T) (node : T) (prev : Option T) : Links T :=
  links.write node { links node with prev := prev }

end Links

namespace LinkedList

def new : LinkedList T := ⟨none, none, 0⟩

variable [DecidableEq T]

/-- The node before is linked to `next`, which otherwise becomes the head. -/
def linkNext (links : Links T) (list : LinkedList T) (previous next : Option T) :
    Links T × LinkedList T :=
  match previous with
  | some prevNode => (links.setNext prevNode next, list)
  | none => (links, { list with head := next })

/-- The node after is linked back to `previous`, which otherwise becomes the tail. -/
def linkPrev (links : Links T) (list : LinkedList T) (next previous : Option T) :
    Links T × LinkedList T :=
  match next with
  | some nextNode => (links.setPrev nextNode previous, list)
  | none => (links, { list with tail := previous })

def pushBack (links : Links T) (list : LinkedList T) (node : T) :
    Option (Links T × LinkedList T) :=
  if (links node).linked then none
  else
    let previous := list.tail
    let links := links.write node ⟨previous, none, true⟩
    let (links, list) := linkNext links list previous (some node)
    some (links, { list with tail := some node, len := list.len + 1 })

def pushFront (links : Links T) (list : LinkedList T) (node : T) :
    Option (Links T × LinkedList T) :=
  if (links node).linked then none
  else
    let next := list.head
    let links := links.write node ⟨none, next, true⟩
    let (links, list) := linkPrev links list next (some node)
    some (links, { list with head := some node, len := list.len + 1 })

def unlink (links : Links T) (list : LinkedList T) (node : T) : Option (Links T × LinkedList T) :=
  let links := links.write node ⟨none, none, false⟩
  if list.len = 0 then none else some (links, { list with len := list.len - 1 })

def popFront (links : Links T) (list : LinkedList T) :
    Option (Option T × Links T × LinkedList T) :=
  match list.head with
  | none => some (none, links, list)
  | some head =>
    let next := links.next head
    (unlink links list head).map fun (links, list) =>
      (some head, linkPrev links { list with head := next } next none)

def remove (links : Links T) (list : LinkedList T) (node : T) : Option (Links T × LinkedList T) :=
  if !(links node).linked then none
  else
    let previous := links.prev node
    let next := links.next node
    let (links, list) := linkNext links list previous next
    let (links, list) := linkPrev links list next previous
    unlink links list node

end LinkedList

/-- The nodes, and any number of lists of them. -/
structure Memory (κ T : Type) where
  links : Links T
  lists : κ → LinkedList T

def Memory.new : Memory κ T := ⟨fun _ => .new, fun _ => .new⟩

inductive Label (κ T : Type) where
  | pushBack (list : κ) (node : T)
  | pushFront (list : κ) (node : T)
  | popFront (list : κ)
  | remove (list : κ) (node : T)

namespace Memory

variable [DecidableEq T] [DecidableEq κ]

def put (m : Memory κ T) (list : κ) (after : Links T × LinkedList T) : Memory κ T :=
  ⟨after.1, update m.lists list after.2⟩

def step (m : Memory κ T) : Label κ T → Option (Option T × Memory κ T)
  | .pushBack l node => ((m.lists l).pushBack m.links node).map fun after => (none, m.put l after)
  | .pushFront l node => ((m.lists l).pushFront m.links node).map fun after => (none, m.put l after)
  | .popFront l => ((m.lists l).popFront m.links).map fun (node, after) => (node, m.put l after)
  | .remove l node => ((m.lists l).remove m.links node).map fun after => (none, m.put l after)

/-- The calls in order, and what they return. -/
def exec (m : Memory κ T) : List (Label κ T) → Option (List (Option T) × Memory κ T)
  | [] => some ([], m)
  | l :: ls => (m.step l).bind fun (node, m) => (exec m ls).map fun (rest, m) => (node :: rest, m)

end Memory

/-- The lists as they are meant. -/
abbrev Sequences (κ T : Type) := κ → List T

namespace Sequences

variable [DecidableEq T] [DecidableEq κ]

/-- The documented preconditions: a node is pushed that no list has, or removed from its list. -/
def Allowed (σ : Sequences κ T) : Label κ T → Prop
  | .pushBack _ node | .pushFront _ node => ∀ k, node ∉ σ k
  | .popFront _ => True
  | .remove l node => node ∈ σ l

def act (σ : Sequences κ T) : Label κ T → Option T × Sequences κ T
  | .pushBack l node => (none, update σ l (σ l ++ [node]))
  | .pushFront l node => (none, update σ l (node :: σ l))
  | .popFront l => ((σ l).head?, update σ l (σ l).tail)
  | .remove l node => (none, update σ l ((σ l).erase node))

def exec (σ : Sequences κ T) : List (Label κ T) → List (Option T) × Sequences κ T
  | [] => ([], σ)
  | l :: ls => let (rest, σ') := exec (σ.act l).2 ls; ((σ.act l).1 :: rest, σ')

/-- Each call of the run meets its precondition. -/
def Respects (σ : Sequences κ T) : List (Label κ T) → Prop
  | [] => True
  | l :: ls => σ.Allowed l ∧ Respects (σ.act l).2 ls

end Sequences

/-- The memory holds just these sequences. -/
structure Memory.Holds (m : Memory κ T) (σ : Sequences κ T) : Prop where
  nodup : ∀ l, (σ l).Nodup
  head : ∀ l, (m.lists l).head = (σ l).head?
  tail : ∀ l, (m.lists l).tail = (σ l).getLast?
  len : ∀ l, (m.lists l).len = (σ l).length
  neighbours : ∀ l before node after, σ l = before ++ node :: after →
    m.links.prev node = before.getLast? ∧ m.links.next node = after.head?
  linked : ∀ node, (m.links node).linked = true ↔ ∃ l, node ∈ σ l
  apart : ∀ l k node, node ∈ σ l → node ∈ σ k → l = k

section
variable {links : Links T} {node n : T} {next prev : Option T} {p : PointersInner T}
  [DecidableEq T]

@[simp] theorem next_write :
    (links.write node p).next = update links.next node p.next := by
  funext n
  by_cases h : n = node
  · subst h
    simp [Links.next, Links.write]
  · simp [Links.next, Links.write, h]

@[simp] theorem prev_write :
    (links.write node p).prev = update links.prev node p.prev := by
  funext n
  by_cases h : n = node
  · subst h
    simp [Links.prev, Links.write]
  · simp [Links.prev, Links.write, h]

@[simp] theorem next_setNext :
    (links.setNext node next).next = update links.next node next := by
  rw [Links.setNext, next_write]

@[simp] theorem prev_setNext : (links.setNext node next).prev = links.prev := by
  rw [Links.setNext, prev_write]
  exact Function.update_eq_self ..

@[simp] theorem next_setPrev : (links.setPrev node prev).next = links.next := by
  rw [Links.setPrev, next_write]
  exact Function.update_eq_self ..

@[simp] theorem prev_setPrev :
    (links.setPrev node prev).prev = update links.prev node prev := by
  rw [Links.setPrev, prev_write]

@[simp] theorem write_self : links.write node p node = p := Function.update_self ..

theorem write_of_ne (h : n ≠ node) : links.write node p n = links n := Function.update_of_ne h ..

@[simp] theorem linked_setNext : (links.setNext node next n).linked = (links n).linked := by
  by_cases h : n = node
  · subst h
    rw [Links.setNext, write_self]
  · rw [Links.setNext, write_of_ne h]

@[simp] theorem linked_setPrev : (links.setPrev node prev n).linked = (links n).linked := by
  by_cases h : n = node
  · subst h
    rw [Links.setPrev, write_self]
  · rw [Links.setPrev, write_of_ne h]

end

namespace LinkedList

variable {links links' : Links T} {list list' : LinkedList T} {node n : T}
  {previous next : Option T} {xs ys : List T}

/-- The nodes are chained forwards from the head, and backwards from the tail. -/
structure Represents (links : Links T) (list : LinkedList T) (xs : List T) : Prop where
  forward : Chain links.next list.head xs
  backward : Chain links.prev list.tail xs.reverse
  len : list.len = xs.length
  linked : ∀ node ∈ xs, (links node).linked = true

theorem Represents.not_mem (h : Represents links list xs) (hnode : (links node).linked = false) :
    node ∉ xs := fun hmem => by simp [h.linked node hmem] at hnode

theorem Represents.tail_eq (h : Represents links list xs) : list.tail = xs.getLast? := by
  rw [h.backward.head_eq, List.head?_reverse]

theorem Represents.congr (h : Represents links list xs) (hsame : ∀ n ∈ xs, links' n = links n) :
    Represents links' list xs where
  forward := h.forward.congr fun n hn => by rw [Links.next, Links.next, hsame n hn]
  backward := h.backward.congr fun n hn => by
    rw [Links.prev, Links.prev, hsame n (List.mem_reverse.mp hn)]
  len := h.len
  linked := fun n hn => by rw [hsame n hn]; exact h.linked n hn

theorem Represents.neighbours (h : Represents links list (xs ++ node :: ys)) :
    links.prev node = xs.getLast? ∧ links.next node = ys.head? := by
  have hback := h.backward
  rw [List.reverse_append, List.reverse_cons, List.append_assoc, List.singleton_append] at hback
  exact ⟨by rw [hback.next_eq, List.head?_reverse], h.forward.next_eq⟩

variable [DecidableEq T]

theorem linkNext_spec (h : linkNext links list previous next = (links', list')) :
    links'.next = setLast links.next previous next ∧ links'.prev = links.prev ∧
      list'.head = startOf previous list.head next ∧ list'.tail = list.tail ∧
      list'.len = list.len ∧ (∀ n, (links' n).linked = (links n).linked) ∧
      ∀ n, previous ≠ some n → links' n = links n := by
  cases previous with
  | none =>
    cases h
    exact ⟨rfl, rfl, rfl, rfl, rfl, fun _ => rfl, fun _ _ => rfl⟩
  | some prevNode =>
    cases h
    refine ⟨next_setNext, prev_setNext, rfl, rfl, rfl, fun _ => linked_setNext, fun n hn => ?_⟩
    exact write_of_ne fun heq => hn (heq ▸ rfl)

theorem linkPrev_spec (h : linkPrev links list next previous = (links', list')) :
    links'.prev = setLast links.prev next previous ∧ links'.next = links.next ∧
      list'.tail = startOf next list.tail previous ∧ list'.head = list.head ∧
      list'.len = list.len ∧ (∀ n, (links' n).linked = (links n).linked) ∧
      ∀ n, next ≠ some n → links' n = links n := by
  cases next with
  | none =>
    cases h
    exact ⟨rfl, rfl, rfl, rfl, rfl, fun _ => rfl, fun _ _ => rfl⟩
  | some nextNode =>
    cases h
    refine ⟨prev_setPrev, next_setPrev, rfl, rfl, rfl, fun _ => linked_setPrev, fun n hn => ?_⟩
    exact write_of_ne fun heq => hn (heq ▸ rfl)

theorem Represents.pushBack (h : Represents links list xs) (hnode : (links node).linked = false) :
    ∃ links' list', pushBack links list node = some (links', list') ∧
      Represents links' list' (xs ++ [node]) ∧ ∀ n, n ∉ xs ++ [node] → links' n = links n := by
  have hnot := h.not_mem hnode
  obtain ⟨links', list', hlink⟩ : ∃ links' list',
      linkNext (links.write node ⟨list.tail, none, true⟩) list list.tail (some node) =
        (links', list') := ⟨_, _, rfl⟩
  obtain ⟨hnext, hprev, hhead, -, hlen, hlinked, hother⟩ := linkNext_spec hlink
  rw [next_write] at hnext
  rw [prev_write] at hprev
  refine ⟨links', { list' with tail := some node, len := list'.len + 1 }, ?_, ⟨?_, ?_, ?_, ?_⟩, ?_⟩
  · simp only [LinkedList.pushBack, hnode, hlink]
    rfl
  · rw [hnext, hhead, h.tail_eq]
    exact h.forward.concat hnot
  · rw [hprev, List.reverse_append]
    exact h.backward.cons (by simpa using hnot)
  · rw [List.length_append, hlen, h.len]
    rfl
  · intro n hn
    rw [hlinked]
    by_cases heq : n = node
    · rw [heq, write_self]
    · rw [write_of_ne heq]
      exact h.linked n (by simpa [heq] using hn)
  · intro n hn
    rw [List.mem_append, List.mem_singleton, not_or] at hn
    rw [hother n, write_of_ne hn.2]
    rw [h.tail_eq]
    exact fun hlast => hn.1 (List.mem_of_getLast? hlast)

theorem Represents.pushFront (h : Represents links list xs) (hnode : (links node).linked = false) :
    ∃ links' list', pushFront links list node = some (links', list') ∧
      Represents links' list' (node :: xs) ∧ ∀ n, n ∉ node :: xs → links' n = links n := by
  have hnot := h.not_mem hnode
  obtain ⟨links', list', hlink⟩ : ∃ links' list',
      linkPrev (links.write node ⟨none, list.head, true⟩) list list.head (some node) =
        (links', list') := ⟨_, _, rfl⟩
  obtain ⟨hprev, hnext, htail, -, hlen, hlinked, hother⟩ := linkPrev_spec hlink
  rw [next_write] at hnext
  rw [prev_write] at hprev
  have hhead : list.head = xs.reverse.getLast? := by
    rw [h.forward.head_eq, List.getLast?_reverse]
  refine ⟨links', { list' with head := some node, len := list'.len + 1 }, ?_, ⟨?_, ?_, ?_, ?_⟩, ?_⟩
  · simp only [LinkedList.pushFront, hnode, hlink]
    rfl
  · rw [hnext]
    exact h.forward.cons hnot
  · rw [hprev, htail, hhead, List.reverse_cons]
    exact h.backward.concat (by simpa using hnot)
  · rw [List.length_cons, hlen, h.len]
  · intro n hn
    rw [hlinked]
    by_cases heq : n = node
    · rw [heq, write_self]
    · rw [write_of_ne heq]
      exact h.linked n (by simpa [heq] using hn)
  · intro n hn
    rw [List.mem_cons, not_or] at hn
    rw [hother n, write_of_ne hn.1]
    rw [h.forward.head_eq]
    exact fun hfirst => hn.2 (List.mem_of_head? hfirst)

theorem unlink_spec (hforward : Chain links.next list.head xs)
    (hbackward : Chain links.prev list.tail xs.reverse) (hlen : list.len = xs.length + 1)
    (hlinked : ∀ n ∈ xs, (links n).linked = true) (hnode : node ∉ xs) :
    ∃ links' list', unlink links list node = some (links', list') ∧
      Represents links' list' xs ∧ links' node = .new ∧ ∀ n, n ≠ node → links' n = links n := by
  refine ⟨links.write node .new, { list with len := list.len - 1 }, ?_, ⟨?_, ?_, ?_, ?_⟩,
    write_self, fun n => write_of_ne⟩
  · rw [unlink, if_neg (by omega)]
    rfl
  · rw [next_write]
    exact hforward.update hnode
  · rw [prev_write]
    exact hbackward.update (by simpa using hnode)
  · rw [hlen]
    rfl
  · intro n hn
    rw [write_of_ne (by rintro rfl; exact hnode hn)]
    exact hlinked n hn

theorem Represents.remove (h : Represents links list (xs ++ node :: ys)) :
    ∃ links' list', remove links list node = some (links', list') ∧
      Represents links' list' (xs ++ ys) ∧ links' node = .new ∧
      ∀ n, n ∉ xs ++ node :: ys → links' n = links n := by
  have hnodup := h.forward.nodup
  have hnot : node ∉ xs ++ ys := (List.nodup_cons.mp (List.nodup_middle.mp hnodup)).1
  obtain ⟨hprevious, hafter⟩ := h.neighbours
  obtain ⟨links₁, list₁, hlink₁⟩ : ∃ links₁ list₁,
      linkNext links list (links.prev node) (links.next node) = (links₁, list₁) := ⟨_, _, rfl⟩
  obtain ⟨hnext₁, hprev₁, hhead₁, htail₁, hlen₁, hlinked₁, hother₁⟩ := linkNext_spec hlink₁
  obtain ⟨links₂, list₂, hlink₂⟩ : ∃ links₂ list₂,
      linkPrev links₁ list₁ (links.next node) (links.prev node) = (links₂, list₂) := ⟨_, _, rfl⟩
  obtain ⟨hprev₂, hnext₂, htail₂, hhead₂, hlen₂, hlinked₂, hother₂⟩ := linkPrev_spec hlink₂
  have hforward : Chain links₂.next list₂.head (xs ++ ys) := by
    rw [hnext₂, hhead₂, hnext₁, hhead₁, hprevious]
    exact h.forward.cut
  have hbackward : Chain links₂.prev list₂.tail (xs ++ ys).reverse := by
    have hback := h.backward
    rw [List.reverse_append, List.reverse_cons, List.append_assoc, List.singleton_append] at hback
    have hcut := hback.cut
    rw [List.getLast?_reverse, ← hafter] at hcut
    rw [hprev₂, htail₂, hprev₁, htail₁, List.reverse_append]
    exact hcut
  obtain ⟨links', list', hunlink, hrep, hnew, hother⟩ := unlink_spec hforward hbackward
    (by rw [hlen₂, hlen₁, h.len]; simp; omega)
    (fun n hn => by rw [hlinked₂, hlinked₁]; exact h.linked n (by simp at hn ⊢; tauto)) hnot
  refine ⟨links', list', ?_, hrep, hnew, fun n hn => ?_⟩
  · simp only [LinkedList.remove, h.linked node (by simp), hlink₁, hlink₂]
    exact hunlink
  · simp only [List.mem_append, List.mem_cons, not_or] at hn
    rw [hother n hn.2.1, hother₂ n, hother₁ n]
    · rw [hprevious]
      exact fun hlast => hn.1 (List.mem_of_getLast? hlast)
    · rw [hafter]
      exact fun hfirst => hn.2.2 (List.mem_of_head? hfirst)

theorem Represents.popFront (h : Represents links list xs) :
    ∃ links' list', popFront links list = some (xs.head?, links', list') ∧
      Represents links' list' xs.tail ∧ (∀ n, xs.head? = some n → links' n = .new) ∧
      ∀ n, n ∉ xs → links' n = links n := by
  cases xs with
  | nil =>
    have hhead : list.head = none := h.forward
    refine ⟨links, list, ?_, h, nofun, fun _ _ => rfl⟩
    rw [LinkedList.popFront, hhead]
    rfl
  | cons first rest =>
    have hhead : list.head = some first := h.forward.1
    have hnot : first ∉ rest := (List.nodup_cons.mp h.forward.nodup).1
    have hcons : Represents links list ([] ++ first :: rest) := h
    obtain ⟨hprevious, hafter⟩ := hcons.neighbours
    obtain ⟨links', list', hlink⟩ : ∃ links' list',
        linkPrev (links.write first .new) ⟨links.next first, list.tail, list.len - 1⟩
          (links.next first) none = (links', list') := ⟨_, _, rfl⟩
    obtain ⟨hprev, hnext, htail, hhead', hlen, hlinked, hother⟩ := linkPrev_spec hlink
    have hsame : update links.prev first none = links.prev := by
      rw [Function.update_eq_self_iff]
      exact hprevious.symm
    rw [next_write] at hnext
    rw [prev_write, show (PointersInner.new : PointersInner T).prev = none from rfl, hsame] at hprev
    refine ⟨links', list', ?_, ⟨?_, ?_, ?_, ?_⟩, ?_, ?_⟩
    · simp only [LinkedList.popFront, hhead, unlink]
      rw [if_neg (by rw [h.len]; simp)]
      simp only [Option.map_some, List.head?_cons, Option.some.injEq, Prod.mk.injEq, true_and]
      exact hlink
    · rw [hnext, hhead']
      exact h.forward.2.update hnot
    · have hback := h.backward
      rw [List.reverse_cons] at hback
      have hcut := Chain.cut hback
      rw [List.append_nil, List.getLast?_reverse, ← hafter, hprevious] at hcut
      rw [hprev, htail]
      exact hcut
    · rw [hlen]
      simp [h.len]
    · intro n hn
      have hne : n ≠ first := by rintro rfl; exact hnot hn
      rw [hlinked, write_of_ne hne]
      exact h.linked n (List.mem_cons_of_mem _ hn)
    · intro n hn
      obtain rfl : first = n := by simpa using hn
      rw [hother first, write_self]
      rw [hafter]
      exact fun hfirst => hnot (List.mem_of_head? hfirst)
    · intro n hn
      rw [List.mem_cons, not_or] at hn
      rw [hother n, write_of_ne hn.1]
      rw [hafter]
      exact fun hfirst => hn.2 (List.mem_of_head? hfirst)

end LinkedList

namespace Memory

variable {m : Memory κ T} {σ : Sequences κ T} {l : κ} {node : T}

structure Sound (m : Memory κ T) (σ : Sequences κ T) : Prop where
  list : ∀ l, (m.lists l).Represents m.links (σ l)
  apart : ∀ l k node, node ∈ σ l → node ∈ σ k → l = k
  unlinked : ∀ node, (∀ l, node ∉ σ l) → m.links node = .new

theorem Sound.new : (new : Memory κ T).Sound fun _ => [] where
  list := fun _ => ⟨rfl, rfl, rfl, nofun⟩
  apart := nofun
  unlinked := fun _ _ => rfl

theorem Sound.linked (h : m.Sound σ) : (m.links node).linked = true ↔ ∃ l, node ∈ σ l := by
  constructor
  · intro hlinked
    by_contra hnone
    rw [h.unlinked node fun l hl => hnone ⟨l, hl⟩] at hlinked
    cases hlinked
  · rintro ⟨l, hl⟩
    exact (h.list l).linked node hl

theorem Sound.holds (h : m.Sound σ) : m.Holds σ where
  nodup := fun l => (h.list l).forward.nodup
  head := fun l => (h.list l).forward.head_eq
  tail := fun l => (h.list l).tail_eq
  len := fun l => (h.list l).len
  neighbours := fun l _ _ _ hσ => (hσ ▸ h.list l).neighbours
  linked := fun _ => h.linked
  apart := h.apart

variable [DecidableEq T] [DecidableEq κ]

/-- A call on one list, in which nodes enter that were free and the nodes that leave are unlinked. -/
theorem Sound.put (h : m.Sound σ) {after : Links T × LinkedList T} {xs : List T}
    (hlist : after.2.Represents after.1 xs) (henter : ∀ n ∈ xs, n ∈ σ l ∨ ∀ k, n ∉ σ k)
    (hleave : ∀ n ∈ σ l, n ∉ xs → after.1 n = .new)
    (hother : ∀ n, n ∉ σ l → n ∉ xs → after.1 n = m.links n) :
    (m.put l after).Sound (update σ l xs) := by
  have hapart : ∀ k ≠ l, ∀ n ∈ σ k, n ∉ σ l ∧ n ∉ xs := by
    intro k hk n hn
    have hl : n ∉ σ l := fun hl => hk (h.apart k l n hn hl)
    exact ⟨hl, fun hxs => (henter n hxs).elim hl fun hfree => hfree k hn⟩
  constructor
  · intro k
    by_cases hk : k = l
    · subst hk
      simpa [Memory.put] using hlist
    · have hsame : ∀ n ∈ σ k, after.1 n = m.links n := fun n hn =>
        hother n (hapart k hk n hn).1 (hapart k hk n hn).2
      simpa [Memory.put, hk] using (h.list k).congr hsame
  · intro j k n hj hk
    by_cases hjl : j = l <;> by_cases hkl : k = l
    · rw [hjl, hkl]
    · subst hjl
      rw [Function.update_self] at hj
      rw [Function.update_of_ne hkl] at hk
      exact absurd hj (hapart k hkl n hk).2
    · subst hkl
      rw [Function.update_self] at hk
      rw [Function.update_of_ne hjl] at hj
      exact absurd hk (hapart j hjl n hj).2
    · rw [Function.update_of_ne hjl] at hj
      rw [Function.update_of_ne hkl] at hk
      exact h.apart j k n hj hk
  · intro n hn
    have hxs : n ∉ xs := by simpa using hn l
    by_cases hl : n ∈ σ l
    · exact hleave n hl hxs
    · refine (hother n hl hxs).trans (h.unlinked n fun k hk => ?_)
      by_cases hkl : k = l
      · exact hl (hkl ▸ hk)
      · exact hn k (by rwa [Function.update_of_ne hkl])

theorem Sound.step (h : m.Sound σ) {a : Label κ T} (hallowed : σ.Allowed a) :
    ∃ m', m.step a = some ((σ.act a).1, m') ∧ m'.Sound (σ.act a).2 := by
  cases a with
  | pushBack l node =>
    have hnode : (m.links node).linked = false := by rw [h.unlinked node hallowed]; rfl
    obtain ⟨links', list', hpush, hrep, hother⟩ := (h.list l).pushBack hnode
    refine ⟨_, by rw [Memory.step, hpush]; rfl, h.put hrep ?_ ?_ ?_⟩
    · intro n hn
      rcases List.mem_append.mp hn with hold | hnew
      · exact .inl hold
      · rw [List.mem_singleton.mp hnew]
        exact .inr hallowed
    · exact fun n hn hnot => absurd (List.mem_append_left _ hn) hnot
    · exact fun n _ hn => hother n hn
  | pushFront l node =>
    have hnode : (m.links node).linked = false := by rw [h.unlinked node hallowed]; rfl
    obtain ⟨links', list', hpush, hrep, hother⟩ := (h.list l).pushFront hnode
    refine ⟨_, by rw [Memory.step, hpush]; rfl, h.put hrep ?_ ?_ ?_⟩
    · intro n hn
      rcases List.mem_cons.mp hn with rfl | hold
      · exact .inr hallowed
      · exact .inl hold
    · exact fun n hn hnot => absurd (List.mem_cons_of_mem _ hn) hnot
    · exact fun n _ hn => hother n hn
  | popFront l =>
    obtain ⟨links', list', hpop, hrep, hfirst, hother⟩ := (h.list l).popFront
    refine ⟨_, by rw [Memory.step, hpop]; rfl, h.put hrep ?_ ?_ ?_⟩
    · exact fun n hn => .inl (List.mem_of_mem_tail hn)
    · intro n hn hnot
      refine hfirst n ?_
      cases hσ : σ l with
      | nil => simp [hσ] at hn
      | cons first rest =>
        rw [hσ, List.tail_cons] at hnot
        rw [hσ, List.mem_cons] at hn
        rw [hn.resolve_right hnot]
        rfl
    · exact fun n hn _ => hother n hn
  | remove l node =>
    obtain ⟨before, after, hσ⟩ := List.append_of_mem hallowed
    have hnodup := (h.list l).forward.nodup
    have hlist := h.list l
    rw [hσ] at hlist hnodup
    obtain ⟨links', list', hremove, hrep, hnew, hother⟩ := hlist.remove
    have herase : (σ l).erase node = before ++ after := by
      rw [hσ, List.erase_append_right _ fun hmem => ?_, List.erase_cons_head]
      exact (List.nodup_append.mp hnodup).2.2 node hmem node List.mem_cons_self rfl
    refine ⟨_, by rw [Memory.step, hremove]; rfl, ?_⟩
    change (m.put l (links', list')).Sound (update σ l ((σ l).erase node))
    rw [herase]
    refine h.put hrep ?_ ?_ ?_
    · intro n hn
      rw [hσ]
      simp only [List.mem_append, List.mem_cons] at hn ⊢
      tauto
    · intro n hn hnot
      rw [hσ] at hn
      simp only [List.mem_append, List.mem_cons, not_or] at hn hnot
      obtain rfl : n = node := by tauto
      exact hnew
    · intro n hn _
      rw [hσ] at hn
      exact hother n hn

theorem Sound.exec (h : m.Sound σ) {labels : List (Label κ T)} (hrespects : σ.Respects labels) :
    ∃ m', m.exec labels = some ((σ.exec labels).1, m') ∧ m'.Sound (σ.exec labels).2 := by
  induction labels generalizing m σ with
  | nil => exact ⟨m, rfl, h⟩
  | cons a labels ih =>
    obtain ⟨m₁, hstep, hsound⟩ := h.step hrespects.1
    obtain ⟨m', hexec, hsound'⟩ := ih hsound hrespects.2
    refine ⟨m', ?_, hsound'⟩
    rw [Memory.exec, hstep, Option.bind_some]
    change (m₁.exec labels).map _ = _
    rw [hexec]
    rfl

/-- The lists are sequences, whatever calls that meet their preconditions were made. No assertion
fails, and no length underflows. -/
theorem refines_sequences (labels : List (Label κ T))
    (h : Sequences.Respects (fun _ => []) labels) :
    ∃ m, Memory.exec .new labels = some ((Sequences.exec (fun _ => []) labels).1, m) ∧
      m.Holds (Sequences.exec (fun _ => []) labels).2 := by
  obtain ⟨m, hexec, hsound⟩ := Sound.new.exec h
  exact ⟨m, hexec, hsound.holds⟩

/-- A node is removed from the middle of a list, and pushed to the front of another. -/
theorem refines_sequences_middle :
    ∃ m : Memory Bool ℕ, Memory.exec .new [.pushBack false 1, .pushBack false 2,
        .pushBack false 3, .remove false 2, .pushFront true 2, .popFront false, .popFront false,
        .popFront false] =
      some ([none, none, none, none, none, some 1, some 3, none], m) ∧
      m.Holds (Sequences.exec (fun _ => []) [.pushBack false 1, .pushBack false 2,
        .pushBack false 3, .remove false 2, .pushFront true 2, .popFront false, .popFront false,
        .popFront false]).2 :=
  refines_sequences _ (by simp [Sequences.Respects, Sequences.Allowed, Sequences.act])

end Memory

end Eddy.IntrusiveList
