import Eddy.Interleaving
import Eddy.ScheduledIo
import Eddy.Slab
import Mathlib.Data.List.Nodup

/-!
# From events to registrations

`register`, `reregister`, `deregister` and `dispatch` of `io/driver.rs`, and the tokens of
`sys/mod.rs`. The poller may refuse a registration after its generation was drawn, and an event
may carry any token. The word of a registration holds 31 bits of its generation while its token
holds all 32: events are routed as long as the generations that are drawn fit.
-/

namespace Eddy.IoRouting
open Interleaving ScheduledIo

namespace Token

/-- `Token::new`: the generation above the slab index. -/
def new (index : ℕ) (generation : UInt32) : UInt64 :=
  (generation.toUInt64 <<< 32) ||| UInt64.ofNat index

def index (token : UInt64) : ℕ := (token &&& 0xFFFFFFFF).toNat

def generation (token : UInt64) : UInt32 := (token >>> 32).toUInt32

theorem new_toNat {i : ℕ} (hi : i < 4294967296) (gen : UInt32) :
    (new i gen).toNat = gen.toNat * 4294967296 + i := by
  have hgen := gen.toNat_lt
  have hshift : (gen.toUInt64 <<< 32).toNat = gen.toNat <<< 32 := by
    rw [UInt64.toNat_shiftLeft, UInt32.toNat_toUInt64]
    simp only [Nat.shiftLeft_eq]
    exact Nat.mod_eq_of_lt (by simp; omega)
  have hindex : (UInt64.ofNat i).toNat = i := by
    rw [UInt64.toNat_ofNat']
    exact Nat.mod_eq_of_lt (by omega)
  rw [new, UInt64.toNat_or, hshift, hindex, ← Nat.shiftLeft_add_eq_or_of_lt (by simpa using hi),
    Nat.shiftLeft_eq]

theorem index_toNat (token : UInt64) : index token = token.toNat % 4294967296 := by
  rw [index, UInt64.toNat_and]
  exact Nat.and_two_pow_sub_one_eq_mod token.toNat 32

theorem generation_toNat (token : UInt64) :
    (generation token).toNat = token.toNat / 4294967296 := by
  have hlt := token.toNat_lt
  have hpow : 2 ^ ((32 : UInt64).toNat % 64) = 4294967296 := by decide
  rw [generation, UInt64.toNat_toUInt32, UInt64.toNat_shiftRight, Nat.shiftRight_eq_div_pow, hpow]
  omega

theorem index_new {i : ℕ} (hi : i < 4294967296) (gen : UInt32) : index (new i gen) = i := by
  rw [index_toNat, new_toNat hi]
  omega

theorem generation_new {i : ℕ} (hi : i < 4294967296) (gen : UInt32) :
    generation (new i gen) = gen := by
  rw [← UInt32.toNat_inj, generation_toNat, new_toNat hi]
  omega

theorem new_index_generation (token : UInt64) : new (index token) (generation token) = token := by
  have hindex : index token < 4294967296 := by
    rw [index_toNat]
    omega
  rw [← UInt64.toNat_inj, new_toNat hindex, index_toNat, generation_toNat]
  omega

end Token

/-- A `ScheduledIo`. Its history is the generation that was drawn for it, the tokens that were made
for it, and whether it is registered. -/
structure Io where
  packed : UInt64
  /-- `slab_index`; `usize::MAX` is `none`. -/
  slabIndex : Option ℕ
  drawn : UInt32
  tokens : List UInt64
  live : Bool

/-- The slab and the generation counter of `DriverShared`, and every `ScheduledIo` that was made. -/
structure Registry where
  slab : Slab ℕ
  nextGeneration : UInt32
  ios : List Io

inductive Label where
  /-- A registration that the slab puts into the slot `key`. -/
  | register (key : ℕ) (accepted : Bool)
  | reregister (i : ℕ)
  | deregister (i : ℕ)
  | dispatch (token : UInt64) (report : Ready)
  | clearReady (i : ℕ) (gen : UInt32) (seen : Ready)

namespace Registry

def new : Registry := ⟨.empty, 1, []⟩

def setIo (s : Registry) (i : ℕ) (io : Io) : Registry := { s with ios := s.ios.set i io }

def register (s : Registry) (key : ℕ) (accepted : Bool) : Registry :=
  let gen := s.nextGeneration
  let io : Io := ⟨ScheduledIo.new gen, some key, gen, [Token.new key gen], true⟩
  let slab := s.slab.insert key s.ios.length
  if accepted then
    { slab, nextGeneration := gen + 1, ios := s.ios ++ [io] }
  else
    { slab := slab.remove key, nextGeneration := gen + 1
      ios := s.ios ++ [{ io with slabIndex := none, live := false }] }

/-- `reregister` does nothing unless the slot still holds this `ScheduledIo`. -/
def reregister (s : Registry) (i : ℕ) (io : Io) : Registry :=
  match io.slabIndex with
  | none => s
  | some index =>
    if s.slab.get index = some i then
      s.setIo i { io with tokens := io.tokens ++ [Token.new index (generation io.packed)] }
    else s

def deregister (s : Registry) (i : ℕ) (io : Io) : Registry :=
  match io.slabIndex with
  | none => s.setIo i { io with live := false }
  | some index =>
    let s' := s.setIo i { io with slabIndex := none, live := false }
    if s.slab.get index = some i then { s' with slab := s.slab.remove index } else s'

/-- The `ScheduledIo` to which `dispatch` delivers an event. -/
def route (s : Registry) (token : UInt64) : Option ℕ :=
  (s.slab.get (Token.index token)).bind fun i =>
    if (s.ios[i]?.map fun io => generation io.packed) = some (Token.generation token) then some i
    else none

def deliver (s : Registry) (i : ℕ) (io : Io) (report : Ready) : Registry :=
  s.setIo i { io with packed := setReadiness io.packed report }

def step (s : Registry) : Label → Option Registry
  | .register key accepted => if s.slab.Vacant key then some (s.register key accepted) else none
  | .reregister i => s.ios[i]?.map fun io => s.reregister i io
  | .deregister i => s.ios[i]?.map fun io => s.deregister i io
  | .dispatch token report =>
      match s.route token with
      | none => some s
      | some i => s.ios[i]?.map fun io => s.deliver i io report
  | .clearReady i gen seen =>
      s.ios[i]?.map fun io =>
        s.setIo i { io with packed := (ScheduledIo.clearReady io.packed gen seen).getD io.packed }

/-- The generation that a registration draws fits into 31 bits. -/
def Fits (s : Registry) : Label → Prop
  | .register _ _ => s.nextGeneration < 2147483648
  | _ => True

instance (s : Registry) : (a : Label) → Decidable (Fits s a)
  | .register _ _ => inferInstanceAs (Decidable (_ < _))
  | .reregister _ | .deregister _ | .dispatch _ _ | .clearReady _ _ _ =>
      inferInstanceAs (Decidable True)

/-- What one `ScheduledIo` knows, which is number `i`. -/
structure Known (slab : Slab ℕ) (i : ℕ) (io : Io) : Prop where
  word : generation io.packed = io.drawn
  slot : io.live = true → ∃ key, io.slabIndex = some key ∧ slab.get key = some i ∧
    Token.new key io.drawn ∈ io.tokens
  index : ∀ key, io.slabIndex = some key → slab.get key = some i
  tokens : ∀ token ∈ io.tokens, Token.generation token = io.drawn ∧
    (io.live = true → io.slabIndex = some (Token.index token))

structure Routed (s : Registry) : Prop where
  counter : s.slab.slots.length < s.nextGeneration.toNat
  bound : s.nextGeneration.toNat ≤ 2147483648
  drawn : ∀ gen ∈ s.ios.map Io.drawn, gen.toNat < s.nextGeneration.toNat
  distinct : (s.ios.map Io.drawn).Nodup
  slots : ∀ (key i : ℕ), s.slab.get key = some i →
    ∃ io, s.ios[i]? = some io ∧ io.live = true ∧ io.slabIndex = some key
  known : ∀ (i : ℕ) io, s.ios[i]? = some io → Known s.slab i io

theorem Known.of_slab {slab slab' : Slab ℕ} {i : ℕ} {io : Io} (h : Known slab i io)
    (hslab : ∀ key, slab.get key = some i → slab'.get key = some i) : Known slab' i io where
  word := h.word
  slot hlive := by
    obtain ⟨key, hkey, hget, htoken⟩ := h.slot hlive
    exact ⟨key, hkey, hslab key hget, htoken⟩
  index key hkey := hslab key (h.index key hkey)
  tokens := h.tokens

section Routed
variable {s t : Registry} {a : Label} {i : ℕ} {io io' : Io}

theorem routed_new : Routed new where
  counter := by decide
  bound := by decide
  drawn := by simp [new]
  distinct := by simp [new]
  slots := by simp [new]
  known := by simp [new]

variable {key : ℕ} {token : UInt64}

theorem Routed.key_lt (inv : Routed s) (hkey : key ≤ s.slab.slots.length) :
    key < 4294967296 := by
  have := inv.counter
  have := inv.bound
  omega

theorem getElem?_setIo (hi : s.ios[i]? = some io) (io' : Io) (j : ℕ) :
    (s.setIo i io').ios[j]? = if i = j then some io' else s.ios[j]? := by
  obtain ⟨hlt, -⟩ := List.getElem?_eq_some_iff.mp hi
  by_cases hij : i = j
  · subst hij
    simp [Registry.setIo, hlt]
  · simp [Registry.setIo, hij]

theorem drawn_setIo (hi : s.ios[i]? = some io) (hdrawn : io'.drawn = io.drawn) :
    (s.setIo i io').ios.map Io.drawn = s.ios.map Io.drawn := by
  apply List.ext_getElem?
  intro j
  rw [List.getElem?_map, List.getElem?_map, getElem?_setIo hi]
  split_ifs with hij
  · subst hij
    simp [hi, hdrawn]
  · rfl

/-- A `ScheduledIo` changes, and the slab does not. -/
theorem Routed.setIo (inv : Routed s) (hi : s.ios[i]? = some io) (hdrawn : io'.drawn = io.drawn)
    (hlive : io.live = true → io'.live = true) (hindex : io'.slabIndex = io.slabIndex)
    (hknown : Known s.slab i io') : Routed (s.setIo i io') where
  counter := inv.counter
  bound := inv.bound
  drawn := drawn_setIo hi hdrawn ▸ inv.drawn
  distinct := drawn_setIo hi hdrawn ▸ inv.distinct
  slots key j hget := by
    obtain ⟨x, hj, hx, hkey⟩ := inv.slots key j hget
    rw [getElem?_setIo hi]
    by_cases hij : i = j
    · subst hij
      obtain rfl : io = x := by simpa [hi] using hj
      exact ⟨io', if_pos rfl, hlive hx, hindex.trans hkey⟩
    · rw [if_neg hij]
      exact ⟨x, hj, hx, hkey⟩
  known j x hj := by
    rw [getElem?_setIo hi] at hj
    split_ifs at hj with hij
    · cases hj
      exact hij ▸ hknown
    · exact inv.known j x hj

theorem Known.registered {slab : Slab ℕ} {i : ℕ} {gen : UInt32} (hkey : key < 4294967296)
    (hfits : gen < 2147483648) (hget : slab.get key = some i) :
    Known slab i ⟨ScheduledIo.new gen, some key, gen, [Token.new key gen], true⟩ where
  word := (generation_new_eq_iff gen).mpr hfits
  slot _ := ⟨key, rfl, hget, List.mem_singleton.mpr rfl⟩
  index k hk := by
    cases hk
    exact hget
  tokens token htoken := by
    obtain rfl := List.mem_singleton.mp htoken
    exact ⟨Token.generation_new hkey gen, fun _ => by rw [Token.index_new hkey]⟩

theorem Known.refused {slab : Slab ℕ} {i : ℕ} {gen : UInt32} (hkey : key < 4294967296)
    (hfits : gen < 2147483648) :
    Known slab i ⟨ScheduledIo.new gen, none, gen, [Token.new key gen], false⟩ where
  word := (generation_new_eq_iff gen).mpr hfits
  slot := nofun
  index := nofun
  tokens token htoken := by
    obtain rfl := List.mem_singleton.mp htoken
    exact ⟨Token.generation_new hkey gen, nofun⟩

/-- A new `ScheduledIo` draws a generation that no other has. -/
theorem Routed.register (inv : Routed s) {accepted : Bool} (hvacant : s.slab.Vacant key)
    (hfits : s.nextGeneration < 2147483648) : Routed (s.register key accepted) := by
  have hkey := inv.key_lt hvacant.1
  have hlt : s.nextGeneration.toNat < 2147483648 := hfits
  have hnext : (s.nextGeneration + 1).toNat = s.nextGeneration.toNat + 1 := by
    rw [UInt32.toNat_add]
    exact Nat.mod_eq_of_lt (by simp; omega)
  have hlen := s.slab.length_insert_le key s.ios.length
  have hcounter := inv.counter
  have hget := Slab.get_insert hvacant s.ios.length
  have hold (i : ℕ) (h : s.slab.get key = some i) : False := by
    have := hvacant.2
    simp [h] at this
  have hdrawn (io : Io) (hio : io.drawn = s.nextGeneration) :
      (∀ gen ∈ (s.ios ++ [io]).map Io.drawn, gen.toNat < (s.nextGeneration + 1).toNat) ∧
        ((s.ios ++ [io]).map Io.drawn).Nodup := by
    rw [List.map_append, List.map_singleton, hio, hnext]
    refine ⟨fun gen hgen => ?_, ?_⟩
    · rcases List.mem_append.mp hgen with hgen | hgen
      · have := inv.drawn gen hgen
        omega
      · obtain rfl := List.mem_singleton.mp hgen
        omega
    · refine List.Nodup.append inv.distinct (List.nodup_singleton _) ?_
      intro gen hgen hnew
      obtain rfl := List.mem_singleton.mp hnew
      have := inv.drawn _ hgen
      omega
  have hlookup {io x : Io} {j : ℕ} (hj : (s.ios ++ [io])[j]? = some x) :
      s.ios[j]? = some x ∨ j = s.ios.length ∧ x = io := by
    rw [List.getElem?_append] at hj
    split_ifs at hj with hjlt
    · exact .inl hj
    · right
      cases hsub : j - s.ios.length with
      | zero =>
        rw [hsub] at hj
        cases hj
        exact ⟨by omega, rfl⟩
      | succ n => simp [hsub] at hj
  cases accepted with
  | true =>
    refine ⟨by simp only [Registry.register, if_true]; omega,
      by simp only [Registry.register, if_true]; omega, (hdrawn _ rfl).1, (hdrawn _ rfl).2, ?_, ?_⟩
    · intro k j hk
      simp only [Registry.register, if_true, hget] at hk ⊢
      split_ifs at hk with hkk
      · cases hk
        subst hkk
        exact ⟨⟨ScheduledIo.new s.nextGeneration, some k, s.nextGeneration,
          [Token.new k s.nextGeneration], true⟩, by simp, rfl, rfl⟩
      · obtain ⟨x, hj, hx⟩ := inv.slots k j hk
        obtain ⟨hjlt, -⟩ := List.getElem?_eq_some_iff.mp hj
        exact ⟨x, by rw [List.getElem?_append_left hjlt, hj], hx⟩
    · intro j x hj
      rcases hlookup hj with hj | ⟨rfl, rfl⟩
      · refine (inv.known j x hj).of_slab fun k hk => ?_
        simp only [Registry.register, if_true, hget]
        rw [if_neg (by rintro rfl; exact hold j hk)]
        exact hk
      · exact .registered hkey hfits (by simp only [Registry.register, if_true, hget])
  | false =>
    refine ⟨by simp only [Registry.register, Bool.false_eq_true, if_false, Slab.length_remove]; omega,
      by simp only [Registry.register, Bool.false_eq_true, if_false]; omega,
      (hdrawn _ rfl).1, (hdrawn _ rfl).2, ?_, ?_⟩
    · intro k j hk
      simp only [Registry.register, Bool.false_eq_true, if_false, Slab.get_remove, hget] at hk ⊢
      split_ifs at hk with hkk
      obtain ⟨x, hj, hx⟩ := inv.slots k j hk
      obtain ⟨hjlt, -⟩ := List.getElem?_eq_some_iff.mp hj
      exact ⟨x, by rw [List.getElem?_append_left hjlt, hj], hx⟩
    · intro j x hj
      rcases hlookup hj with hj | ⟨rfl, rfl⟩
      · refine (inv.known j x hj).of_slab fun k hk => ?_
        simp only [Registry.register, Bool.false_eq_true, if_false, Slab.get_remove, hget]
        rw [if_neg (by rintro rfl; exact hold j hk), if_neg (by rintro rfl; exact hold j hk)]
        exact hk
      · exact .refused hkey hfits

theorem Routed.reregister (inv : Routed s) (hi : s.ios[i]? = some io) :
    Routed (s.reregister i io) := by
  have hknown := inv.known i io hi
  unfold Registry.reregister
  split
  · exact inv
  · rename_i index hindex
    split_ifs with hget
    · have hkey : index < 4294967296 := inv.key_lt (Slab.lt_of_get hget).le
      refine inv.setIo hi rfl id rfl ⟨hknown.word, fun hlive => ?_, hknown.index, ?_⟩
      · obtain ⟨key, hkey, hget, htoken⟩ := hknown.slot hlive
        exact ⟨key, hkey, hget, List.mem_append_left _ htoken⟩
      · intro token htoken
        rcases List.mem_append.mp htoken with htoken | htoken
        · exact hknown.tokens token htoken
        · obtain rfl := List.mem_singleton.mp htoken
          rw [hknown.word, Token.generation_new hkey, Token.index_new hkey]
          exact ⟨rfl, fun _ => hindex⟩
    · exact inv

theorem Routed.deregister (inv : Routed s) (hi : s.ios[i]? = some io) :
    Routed (s.deregister i io) := by
  have hknown := inv.known i io hi
  unfold Registry.deregister
  split
  · rename_i hindex
    have hdead : io.live = false := by
      by_contra hlive
      obtain ⟨key, hkey, -⟩ := hknown.slot (by simpa using hlive)
      simp [hindex] at hkey
    refine inv.setIo hi rfl (by simp [hdead]) rfl ⟨hknown.word, nofun, hknown.index, ?_⟩
    exact fun token htoken => ⟨(hknown.tokens token htoken).1, nofun⟩
  · rename_i index hindex
    have hget := hknown.index index hindex
    have hdrawn : (s.setIo i { io with slabIndex := none, live := false }).ios.map Io.drawn =
        s.ios.map Io.drawn := drawn_setIo hi rfl
    rw [if_pos hget]
    refine ⟨by rw [Slab.length_remove]; exact inv.counter, inv.bound,
      fun gen hgen => inv.drawn gen (hdrawn ▸ hgen), hdrawn.symm ▸ inv.distinct, ?_, ?_⟩
    · intro key j hkey
      simp only [Slab.get_remove] at hkey
      split_ifs at hkey with hne
      obtain ⟨x, hj, hlive, hx⟩ := inv.slots key j hkey
      have hij : i ≠ j := by
        rintro rfl
        obtain rfl : io = x := by simpa [hi] using hj
        rw [hindex] at hx
        exact hne (Option.some.inj hx).symm
      exact ⟨x, by simp only [getElem?_setIo hi, if_neg hij, hj], hlive, hx⟩
    · intro j x hj
      simp only [getElem?_setIo hi] at hj
      split_ifs at hj with hij
      · cases hj
        subst hij
        exact ⟨hknown.word, nofun, nofun,
          fun token htoken => ⟨(hknown.tokens token htoken).1, nofun⟩⟩
      · refine (inv.known j x hj).of_slab fun key hkey => ?_
        simp only [Slab.get_remove]
        rw [if_neg (by rintro rfl; exact hij (Option.some.inj (hget.symm.trans hkey)))]
        exact hkey

/-- The word changes and its generation does not. -/
theorem Routed.setPacked (inv : Routed s) (hi : s.ios[i]? = some io) {packed : UInt64}
    (hpacked : generation packed = generation io.packed) :
    Routed (s.setIo i { io with packed := packed }) := by
  have hknown := inv.known i io hi
  exact inv.setIo hi rfl id rfl
    ⟨hpacked.trans hknown.word, hknown.slot, hknown.index, hknown.tokens⟩

theorem Routed.step (inv : Routed s) (hfits : Fits s a) (hs : s.step a = some t) : Routed t := by
  cases a with
  | register key accepted =>
    simp only [Registry.step] at hs
    split_ifs at hs with hvacant
    cases hs
    exact inv.register hvacant hfits
  | reregister i =>
    obtain ⟨io, hi, rfl⟩ := Option.map_eq_some_iff.mp hs
    exact inv.reregister hi
  | deregister i =>
    obtain ⟨io, hi, rfl⟩ := Option.map_eq_some_iff.mp hs
    exact inv.deregister hi
  | dispatch token report =>
    simp only [Registry.step] at hs
    split at hs
    · cases hs
      exact inv
    · obtain ⟨io, hi, rfl⟩ := Option.map_eq_some_iff.mp hs
      exact inv.setPacked hi (generation_setReadiness _ _)
  | clearReady i gen seen =>
    obtain ⟨io, hi, rfl⟩ := Option.map_eq_some_iff.mp hs
    apply inv.setPacked hi
    cases hclear : ScheduledIo.clearReady io.packed gen seen with
    | none => rfl
    | some packed => exact generation_clearReady hclear

/-- An event is delivered only to a live registration that its token was made for. -/
theorem Routed.live_of_route (inv : Routed s) (h : s.route token = some i) :
    ∃ io, s.ios[i]? = some io ∧ io.live = true ∧ token ∈ io.tokens := by
  obtain ⟨j, hget, h⟩ := Option.bind_eq_some_iff.mp h
  split_ifs at h with hgen
  obtain rfl := Option.some.inj h
  obtain ⟨io, hi, hlive, hindex⟩ := inv.slots _ _ hget
  have hknown := inv.known j io hi
  obtain ⟨key, hkey, -, htoken⟩ := hknown.slot hlive
  have hword : generation io.packed = Token.generation token := by simpa [hi] using hgen
  obtain rfl : Token.index token = key := by simpa [hindex] using hkey
  rw [← hknown.word, hword, Token.new_index_generation] at htoken
  exact ⟨io, hi, hlive, htoken⟩

theorem Routed.route_of_live (inv : Routed s) (hi : s.ios[i]? = some io)
    (hlive : io.live = true) (htoken : token ∈ io.tokens) : s.route token = some i := by
  have hknown := inv.known i io hi
  obtain ⟨hgen, hindex⟩ := hknown.tokens token htoken
  have hget := hknown.index _ (hindex hlive)
  simp [route, hget, hi, hknown.word, hgen]

/-- A token is made for one registration only. -/
theorem Routed.token_unique (inv : Routed s) {j : ℕ} (hi : s.ios[i]? = some io)
    (hj : s.ios[j]? = some io') (htoken : token ∈ io.tokens) (htoken' : token ∈ io'.tokens) :
    i = j := by
  have hgen := ((inv.known i io hi).tokens token htoken).1
  have hgen' := ((inv.known j io' hj).tokens token htoken').1
  have hi' : (s.ios.map Io.drawn)[i]? = some io.drawn := by simp [hi]
  have hj' : (s.ios.map Io.drawn)[j]? = some io.drawn := by simp [hj, ← hgen, hgen']
  obtain ⟨hlt, hi'⟩ := List.getElem?_eq_some_iff.mp hi'
  obtain ⟨hlt', hj'⟩ := List.getElem?_eq_some_iff.mp hj'
  exact (inv.distinct.getElem_inj_iff).mp (hi'.trans hj'.symm)

end Routed

/-- An event whose token was made for a registration is delivered to that one, and only as long
as it is live; an event with any other token is not delivered. -/
def Delivers (s : Registry) : Prop :=
  (∀ (j : ℕ) io, s.ios[j]? = some io → ∀ token ∈ io.tokens, ∀ i,
    s.route token = some i ↔ i = j ∧ io.live = true) ∧
  ∀ token, (∀ io ∈ s.ios, token ∉ io.tokens) → s.route token = none

theorem Routed.delivers {s : Registry} (inv : Routed s) : s.Delivers := by
  refine ⟨fun j io hj token htoken i => ⟨fun h => ?_, ?_⟩, fun token hnone => ?_⟩
  · obtain ⟨io', hi, hlive, htoken'⟩ := inv.live_of_route h
    obtain rfl := inv.token_unique hi hj htoken' htoken
    obtain rfl : io' = io := by simpa [hj] using hi.symm
    exact ⟨rfl, hlive⟩
  · rintro ⟨rfl, hlive⟩
    exact inv.route_of_live hj hlive htoken
  · by_contra hsome
    obtain ⟨i, hi⟩ := Option.ne_none_iff_exists'.mp hsome
    obtain ⟨io, hio, -, htoken⟩ := inv.live_of_route hi
    exact hnone io (List.mem_of_getElem? hio) htoken

/-- The word of a registration keeps its generation exactly if that fits into 31 bits; reports and
clears do not change it, and the other fields do not overlap it. As long as every generation that
is drawn fits, every event goes to the live registration that its token was made for. -/
theorem events_reach_their_registration (s : Registry) (hs : Reachable step Fits new s) :
    (∀ gen, generation (ScheduledIo.new gen) = gen ↔ gen < 2147483648) ∧
    (∀ packed report, generation (setReadiness packed report) = generation packed) ∧
    (∀ packed gen seen new, ScheduledIo.clearReady packed gen seen = some new →
      generation new = generation packed) ∧
    (∀ gen, ScheduledIo.new gen &&& (READY_MASK ||| SHUTDOWN_BIT) = 0) ∧
    s.Delivers := by
  have inv : Routed s := hs.invariant routed_new fun s a t inv hfits hstep => inv.step hfits hstep
  exact ⟨generation_new_eq_iff, generation_setReadiness, fun _ _ _ _ => generation_clearReady,
    new_and_fields, inv.delivers⟩

/-- A descriptor is replaced by another one in the same slot: the old one's event is dropped. -/
theorem events_reach_their_registration_after_reuse :
    ∃ s, Reachable step Fits new s ∧ s.Delivers ∧
      s.route (Token.new 0 1) = none ∧ s.route (Token.new 0 2) = some 1 := by
  have hrun : (run (guarded step Fits) new [.register 0 true, .dispatch (Token.new 0 1) .READABLE,
      .deregister 0, .register 0 true]).any (fun s => decide (s.route (Token.new 0 1) = none ∧
        s.route (Token.new 0 2) = some 1)) = true := by
    decide +kernel
  obtain ⟨s, hreach, hs⟩ := exists_reachable_of_run hrun
  obtain ⟨hold, hnew⟩ := of_decide_eq_true hs
  exact ⟨s, hreach, (events_reach_their_registration s hreach).2.2.2.2, hold, hnew⟩

/-- The poller refuses `n` descriptors, each of which has drawn a generation. -/
theorem exists_refused (n : ℕ) :
    ∃ s, Reachable step anyStep new s ∧ s.nextGeneration = UInt32.ofNat (n + 1) ∧
      s.slab.Vacant 0 := by
  induction n with
  | zero => exact ⟨new, .start, rfl, by decide⟩
  | succ n ih =>
    obtain ⟨s, hreach, hnext, hvacant⟩ := ih
    refine ⟨s.register 0 false, .next hreach trivial (a := .register 0 false) ?_, ?_, ?_⟩
    · simp [step, hvacant]
    · simp only [register, Bool.false_eq_true, if_false, hnext]
      rw [← UInt32.toNat_inj, UInt32.toNat_add]
      simp
    · exact ⟨Nat.zero_le _, by simp [register]⟩

/-- The first registration with a generation of 32 bits gets no events. -/
theorem event_is_dropped :
    ∃ s, Reachable step anyStep new s ∧ s.nextGeneration = 2147483649 ∧ ¬ s.Delivers := by
  obtain ⟨s, hreach, hnext, hvacant⟩ := exists_refused 2147483647
  have hgen : s.nextGeneration = 2147483648 := hnext
  have hget := Slab.get_insert hvacant s.ios.length
  refine ⟨s.register 0 true, .next hreach trivial (a := .register 0 true) ?_, ?_, fun h => ?_⟩
  · simp [step, hvacant]
  · simp only [register, if_true, hgen]
    decide
  · have hio : (s.register 0 true).ios[s.ios.length]? =
        some ⟨ScheduledIo.new 2147483648, some 0, 2147483648, [Token.new 0 2147483648], true⟩ := by
      simp [register, hgen]
    have hroute := (h.1 _ _ hio (Token.new 0 2147483648) (by simp) _).mpr ⟨rfl, rfl⟩
    have hindex : Token.index (Token.new 0 2147483648) = 0 := by decide
    have hlost : generation (ScheduledIo.new 2147483648) ≠
        Token.generation (Token.new 0 2147483648) := by decide
    have hslot : (s.register 0 true).slab.get 0 = some s.ios.length := by
      simp only [register, if_true, hget]
    simp [route, hindex, hslot, hio, hlost] at hroute

end Registry

end Eddy.IoRouting
