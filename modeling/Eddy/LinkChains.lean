import Mathlib.Data.List.Nodup
import Mathlib.Logic.Function.Basic

/-!
# Chains of links

Every node has one link, to another node or to none. The links lead from one place through a list
of nodes to another; a chain is a list of nodes after which the links end. A doubly linked list is
a chain one way and a chain of the reversed list the other way.
-/

namespace Eddy.LinkChains
open Function (update)

universe u

variable {ν : Type u} {next next' : ν → Option ν} {a b c : Option ν} {x : ν} {xs ys : List ν}

/-- The links lead from `a` through the nodes to `b`. -/
def Leads (next : ν → Option ν) : Option ν → List ν → Option ν → Prop
  | a, [], b => a = b
  | a, x :: xs, b => a = some x ∧ Leads next (next x) xs b

/-- After the nodes the links end. -/
abbrev Chain (next : ν → Option ν) (a : Option ν) (xs : List ν) : Prop := Leads next a xs none

theorem leads_append :
    Leads next a (xs ++ ys) b ↔ ∃ m, Leads next a xs m ∧ Leads next m ys b := by
  induction xs generalizing a with
  | nil => simp [Leads]
  | cons x xs ih => simp [Leads, ih, and_assoc]

theorem leads_concat :
    Leads next a (xs ++ [x]) b ↔ Leads next a xs (some x) ∧ next x = b := by
  rw [leads_append]
  simp [Leads]

/-- Links of other nodes do not matter. -/
theorem Leads.congr (h : Leads next a xs b) (hsame : ∀ x ∈ xs, next' x = next x) :
    Leads next' a xs b := by
  induction xs generalizing a with
  | nil => exact h
  | cons x xs ih =>
    refine ⟨h.1, ?_⟩
    rw [hsame x List.mem_cons_self]
    exact ih h.2 fun y hy => hsame y (List.mem_cons_of_mem _ hy)

theorem Chain.head_eq (h : Chain next a xs) : a = xs.head? := by
  cases xs with
  | nil => exact h
  | cons x xs => exact h.1

theorem Chain.next_eq (h : Chain next a (xs ++ x :: ys)) : next x = ys.head? := by
  obtain ⟨m, -, -, hrest⟩ := leads_append.mp h
  exact Chain.head_eq hrest

/-- What follows a node is what its link leads to. -/
theorem Chain.unique (h : Chain next a xs) (h' : Chain next a ys) : xs = ys := by
  induction xs generalizing a ys with
  | nil =>
    cases h
    cases ys with
    | nil => rfl
    | cons y ys => cases h'.1
  | cons x xs ih =>
    obtain ⟨rfl, hrest⟩ := h
    cases ys with
    | nil => cases h'
    | cons y ys =>
      obtain ⟨hy, hrest'⟩ := h'
      obtain rfl := Option.some.inj hy
      rw [ih hrest hrest']

/-- A node that came twice would be followed by two different chains. -/
theorem Chain.nodup (h : Chain next a xs) : xs.Nodup := by
  induction xs generalizing a with
  | nil => exact List.nodup_nil
  | cons x xs ih =>
    refine List.nodup_cons.mpr ⟨fun hx => ?_, ih h.2⟩
    obtain ⟨before, after, rfl⟩ := List.append_of_mem hx
    obtain ⟨m, -, -, hafter⟩ := leads_append.mp h.2
    have hlength := congrArg List.length (Chain.unique hafter h.2)
    simp at hlength
    omega

variable [DecidableEq ν]

def setLast (next : ν → Option ν) (last b : Option ν) : ν → Option ν :=
  match last with
  | some x => update next x b
  | none => next

/-- Where the chain starts after its first nodes, up to the given last one, were joined to `b`. -/
def startOf (last a b : Option ν) : Option ν :=
  match last with
  | some _ => a
  | none => b

theorem Leads.update (h : Leads next a xs b) (hx : x ∉ xs) :
    Leads (update next x c) a xs b :=
  h.congr fun y hy => Function.update_of_ne (by rintro rfl; exact hx hy) ..

theorem Leads.join (h : Leads next a xs b) (hnodup : (xs ++ ys).Nodup) (hys : Chain next c ys) :
    Chain (setLast next xs.getLast? c) (startOf xs.getLast? a c) (xs ++ ys) := by
  rcases List.eq_nil_or_concat xs with rfl | ⟨front, last, rfl⟩
  · exact hys
  · rw [List.concat_eq_append] at h hnodup ⊢
    rw [List.getLast?_concat, List.append_assoc, List.singleton_append]
    rw [List.append_assoc, List.singleton_append] at hnodup
    obtain ⟨hfront, -⟩ := leads_concat.mp h
    obtain ⟨-, hlast, hapart⟩ := List.nodup_append.mp hnodup
    have hnot : last ∉ front := fun hmem => hapart last hmem last List.mem_cons_self rfl
    refine leads_append.mpr ⟨some last, hfront.update hnot, rfl, ?_⟩
    rw [setLast, Function.update_self]
    exact hys.update (List.nodup_cons.mp hlast).1

/-- A node goes to the front of a chain. -/
theorem Chain.cons (h : Chain next a xs) (hx : x ∉ xs) :
    Chain (update next x a) (some x) (x :: xs) := by
  refine ⟨rfl, ?_⟩
  rw [Function.update_self]
  exact h.update hx

/-- A node goes to the back of a chain. -/
theorem Chain.concat (h : Chain next a xs) (hx : x ∉ xs) :
    Chain (setLast (update next x none) xs.getLast? (some x))
      (startOf xs.getLast? a (some x)) (xs ++ [x]) := by
  refine Leads.join (h.update hx) ?_ ⟨rfl, Function.update_self ..⟩
  rw [List.nodup_append_comm]
  exact List.nodup_cons.mpr ⟨hx, h.nodup⟩

/-- A node leaves a chain. -/
theorem Chain.cut (h : Chain next a (xs ++ x :: ys)) :
    Chain (setLast next xs.getLast? (next x)) (startOf xs.getLast? a (next x)) (xs ++ ys) := by
  have hnodup := h.nodup
  obtain ⟨m, hxs, -, hys⟩ := leads_append.mp h
  exact hxs.join (hnodup.sublist (List.Sublist.append_left (List.sublist_cons_self ..) _)) hys

end Eddy.LinkChains
