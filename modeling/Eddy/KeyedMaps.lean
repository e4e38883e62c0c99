import Mathlib.Data.List.AList

/-!
# Maps that follow one another

Two keyed maps, updated side by side, where the second may hold keys the first does not.
-/

namespace KeyedMaps

section
variable {κ α : Type} [DecidableEq κ]

/-- Applies `f` to the value at `k`, which is `new` when the map has none. -/
def upsert (m : AList fun _ : κ => α) (k : κ) (new : α) (f : α → α) : AList fun _ : κ => α :=
  m.insert k (f ((m.lookup k).getD new))

@[simp] theorem lookup_upsert (m : AList fun _ : κ => α) (k : κ) (new : α) (f : α → α) :
    (upsert m k new f).lookup k = some (f ((m.lookup k).getD new)) :=
  AList.lookup_insert m

theorem lookup_upsert_ne (m : AList fun _ : κ => α) {k k' : κ} (h : k' ≠ k) (new : α)
    (f : α → α) : (upsert m k new f).lookup k' = m.lookup k' :=
  AList.lookup_insert_ne h

end

variable {κ κ' α β : Type} [DecidableEq κ] [DecidableEq κ']

/-- Every value of `m` has its counterpart in `p`, and what `p` holds at a key that `m` lacks is
`Extra`. -/
structure Covers (key : κ → κ') (R : α → β → Prop) (Extra : κ → β → Prop)
    (m : AList fun _ : κ => α) (p : AList fun _ : κ' => β) : Prop where
  known : ∀ {k v}, m.lookup k = some v → ∃ r, p.lookup (key k) = some r ∧ R v r
  unknown : ∀ {k' r}, p.lookup k' = some r →
    ∃ k, k' = key k ∧ ((m.lookup k).isSome ∨ Extra k r)

variable {key : κ → κ'} {R : α → β → Prop} {Extra : κ → β → Prop}
  {m : AList fun _ : κ => α} {p : AList fun _ : κ' => β}

theorem Covers.empty : Covers key R Extra ∅ ∅ where
  known h := by cases h
  unknown h := by cases h

theorem Covers.mono {R' : α → β → Prop} (h : Covers key R Extra m p)
    (hmono : ∀ {v r}, R v r → R' v r) : Covers key R' Extra m p where
  known hv := by
    obtain ⟨r, hr, hvr⟩ := h.known hv
    exact ⟨r, hr, hmono hvr⟩
  unknown := h.unknown

variable {new' : β} {k : κ}

theorem Covers.getD (h : Covers key R Extra m p) (hkey : Function.Injective key) {new : α}
    (hnew : R new new') (hextra : ∀ r, Extra k r → R new r) :
    R ((m.lookup k).getD new) ((p.lookup (key k)).getD new') := by
  cases hm : m.lookup k with
  | some v =>
    obtain ⟨r, hr, hvr⟩ := h.known hm
    rw [hr]
    exact hvr
  | none =>
    cases hp : p.lookup (key k) with
    | none => exact hnew
    | some r =>
      obtain ⟨k', heq, hk'⟩ := h.unknown hp
      cases hkey heq
      rw [hm] at hk'
      exact hextra r (hk'.resolve_left Bool.false_ne_true)

theorem Covers.upsert (h : Covers key R Extra m p) (hkey : Function.Injective key)
    {new : α} {f : α → α} {g : β → β}
    (hstep : R (f ((m.lookup k).getD new)) (g ((p.lookup (key k)).getD new'))) :
    Covers key R Extra (KeyedMaps.upsert m k new f) (KeyedMaps.upsert p (key k) new' g) where
  known {k' v} hv := by
    by_cases heq : k' = k
    · subst heq
      rw [lookup_upsert] at hv
      cases hv
      exact ⟨_, lookup_upsert .., hstep⟩
    · rw [lookup_upsert_ne m heq] at hv
      obtain ⟨r, hr, hvr⟩ := h.known hv
      exact ⟨r, by rwa [lookup_upsert_ne p (hkey.ne heq)], hvr⟩
  unknown {k' r} hr := by
    by_cases heq : k' = key k
    · exact ⟨k, heq, .inl (by rw [lookup_upsert]; rfl)⟩
    · rw [lookup_upsert_ne p heq] at hr
      obtain ⟨k₀, rfl, hk₀⟩ := h.unknown hr
      refine ⟨k₀, rfl, ?_⟩
      rwa [lookup_upsert_ne m fun heq' => heq (congrArg key heq')]

/-- A key the second map may have to itself is given its new value. -/
theorem Covers.touch (h : Covers key R Extra m p) (hkey : Function.Injective key)
    (hnew : Extra k new') :
    Covers key R Extra m (KeyedMaps.upsert p (key k) new' fun r => r) where
  known {k' v} hv := by
    obtain ⟨r, hr, hvr⟩ := h.known hv
    refine ⟨r, ?_, hvr⟩
    by_cases heq : k' = k
    · rw [heq, lookup_upsert, ← heq, hr]
      rfl
    · rwa [lookup_upsert_ne p (hkey.ne heq)]
  unknown {k' r} hr := by
    by_cases heq : k' = key k
    · subst heq
      rw [lookup_upsert] at hr
      cases hp : p.lookup (key k) with
      | none =>
        rw [hp] at hr
        cases hr
        exact ⟨k, rfl, .inr hnew⟩
      | some r' =>
        rw [hp] at hr
        cases hr
        exact h.unknown hp
    · rw [lookup_upsert_ne p heq] at hr
      exact h.unknown hr

end KeyedMaps
