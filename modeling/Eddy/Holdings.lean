import Mathlib.Data.List.Basic
import Mathlib.Data.List.Perm.Basic

/-!
# What the members of a list hold

Each member of a list holds at most one thing. When one member changes, the things held change by
what this member held and holds.
-/

namespace Eddy.Holdings

variable {α β : Type} {g g' : α → Option β} {f : α → α} {l : List α} {i : ℕ} {a : α}

/-- A member of a list in which one member was changed. -/
theorem mem_modify {x : α} (h : l[i]? = some a) (hx : x ∈ l.modify i f) : x = f a ∨ x ∈ l := by
  obtain ⟨j, hj⟩ := List.mem_iff_getElem?.mp hx
  rw [List.getElem?_modify] at hj
  obtain ⟨y, hy, rfl⟩ := Option.map_eq_some_iff.mp hj
  split_ifs with hij
  · subst hij
    exact .inl (congrArg f (Option.some.inj (hy.symm.trans h)))
  · exact .inr (List.mem_of_getElem? hy)

theorem filterMap_modify (h : l[i]? = some a) :
    ((l.modify i f).filterMap g ++ (g a).toList).Perm (l.filterMap g ++ (g (f a)).toList) := by
  induction l generalizing i with
  | nil => simp at h
  | cons b l ih =>
    cases i with
    | zero =>
      obtain rfl : b = a := by simpa using h
      have hcons : ∀ c, (c :: l).filterMap g = (g c).toList ++ l.filterMap g := by
        intro c
        cases hc : g c <;> simp [hc]
      rw [List.modify_zero_cons, hcons, hcons, List.append_assoc, List.append_assoc]
      exact ((List.Perm.refl _).append List.perm_append_comm).trans
        (List.perm_append_comm_assoc ..) |>.trans ((List.Perm.refl _).append List.perm_append_comm)
    | succ i =>
      have := ih (show l[i]? = some a by simpa using h)
      cases hb : g b with
      | none => simpa [hb] using this
      | some c => simpa [hb] using this.cons c

theorem set_eq_modify (l : List α) (i : ℕ) (b : α) : l.set i b = l.modify i fun _ => b := by
  apply List.ext_getElem?
  intro j
  rw [List.getElem?_modify, List.getElem?_set']
  split
  · rfl
  · exact Option.map_id'.symm

theorem filterMap_set (h : l[i]? = some a) (b : α) :
    ((l.set i b).filterMap g ++ (g a).toList).Perm (l.filterMap g ++ (g b).toList) := by
  rw [set_eq_modify]
  exact filterMap_modify h

/-- A member that goes on to hold the same keeps what the list holds. -/
theorem filterMap_modify_of_eq (h : ∀ a, l[i]? = some a → g (f a) = g a) :
    (l.modify i f).filterMap g = l.filterMap g := by
  induction l generalizing i with
  | nil => simp
  | cons b l ih =>
    cases i with
    | zero => simp [List.filterMap_cons, h b rfl]
    | succ i => simp [List.filterMap_cons, ih fun a ha => h a (by simpa using ha)]

/-- A member that held nothing takes `b`. -/
theorem filterMap_modify_take {b : β} (h : l[i]? = some a) (hbefore : g a = none)
    (hafter : g (f a) = some b) : ((l.modify i f).filterMap g).Perm (b :: l.filterMap g) := by
  have hperm := filterMap_modify (g := g) (f := f) h
  rw [hbefore, hafter] at hperm
  simpa using hperm.trans List.perm_append_comm

/-- A member lets go of `b`. -/
theorem filterMap_modify_release {b : β} (h : l[i]? = some a) (hbefore : g a = some b)
    (hafter : g (f a) = none) : (b :: (l.modify i f).filterMap g).Perm (l.filterMap g) := by
  have hperm := filterMap_modify (g := g) (f := f) h
  rw [hbefore, hafter] at hperm
  simpa using List.perm_append_comm.trans hperm

/-- Members that hold less hold a part. -/
theorem filterMap_sublist (h : ∀ a, g a = none ∨ g a = g' a) (l : List α) :
    (l.filterMap g).Sublist (l.filterMap g') := by
  induction l with
  | nil => exact List.Sublist.refl _
  | cons a l ih =>
    rcases h a with hnone | heq
    · rw [List.filterMap_cons_none hnone]
      cases hg' : g' a with
      | none => rwa [List.filterMap_cons_none hg']
      | some b => exact (List.filterMap_cons_some hg') ▸ ih.cons b
    · cases hg' : g' a with
      | none => rwa [List.filterMap_cons_none (heq.trans hg'), List.filterMap_cons_none hg']
      | some b =>
        rw [List.filterMap_cons_some (heq.trans hg'), List.filterMap_cons_some hg']
        exact ih.cons_cons b

/-- A change of a member that a predicate does not see. -/
theorem countP_modify {p : α → Bool} (h : ∀ a, p (f a) = p a) :
    (l.modify i f).countP p = l.countP p := by
  induction l generalizing i with
  | nil => simp
  | cons b l ih =>
    cases i with
    | zero => simp [List.countP_cons, h]
    | succ i => simp [List.countP_cons, ih]

end Eddy.Holdings
