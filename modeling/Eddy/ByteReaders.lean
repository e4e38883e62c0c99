import Mathlib.Data.List.Basic
import Mathlib.Data.Nat.Digits.Lemmas

/-!
# Readers that accept exactly what a writer lays out

A reader takes a value from the front of a list of bytes or fails. It is exact for a writer when it
succeeds on the written values only, each followed by anything, and then leaves what follows. An
exact reader makes the format a prefix code: no text of a value is the beginning of another's.
-/

namespace Eddy.ByteReaders

universe u

abbrev Reader (ε : Type u) := StateT (List UInt8) (Except ε)

variable {ε α β : Type}

variable {bytes rest : List UInt8}

theorem bind_eq_ok {read : Reader ε α} {next : α → Reader ε β} {b : β} :
    (read >>= next) bytes = .ok (b, rest) ↔
      ∃ a mid, read bytes = .ok (a, mid) ∧ next a mid = .ok (b, rest) := by
  cases h : read bytes with
  | error e => simp [bind, StateT.bind, Except.bind, h]
  | ok p =>
    obtain ⟨a, mid⟩ := p
    simp [bind, StateT.bind, Except.bind, h]

theorem pure_eq_ok {a b : α} :
    (pure a : Reader ε α) bytes = .ok (b, rest) ↔ a = b ∧ bytes = rest := by
  show Except.ok (a, bytes) = .ok (b, rest) ↔ _
  simp

theorem throw_eq_ok {e : ε} {b : α} :
    (throw e : Reader ε α) bytes = .ok (b, rest) ↔ False := by
  simp [throw, throwThe, MonadExceptOf.throw, StateT.lift, bind, Except.bind]

def leBytes : ℕ → ℕ → List UInt8
  | 0, _ => []
  | width + 1, n => UInt8.ofNat n :: leBytes width (n / 256)

def ofLeBytes : List UInt8 → ℕ
  | [] => 0
  | byte :: bytes => byte.toNat + 256 * ofLeBytes bytes

@[simp] theorem leBytes_length (width n : ℕ) : (leBytes width n).length = width := by
  induction width generalizing n with
  | zero => rfl
  | succ width ih => simp [leBytes, ih]

theorem ofLeBytes_lt (bytes : List UInt8) : ofLeBytes bytes < 256 ^ bytes.length := by
  induction bytes with
  | nil => simp [ofLeBytes]
  | cons byte bytes ih =>
    have hbyte := byte.toNat_lt
    rw [ofLeBytes, List.length_cons, pow_succ]
    omega

theorem ofLeBytes_leBytes {width n : ℕ} (h : n < 256 ^ width) :
    ofLeBytes (leBytes width n) = n := by
  induction width generalizing n with
  | zero =>
    obtain rfl : n = 0 := by simpa using h
    rfl
  | succ width ih =>
    have hn : n / 256 < 256 ^ width := by
      rw [pow_succ] at h
      omega
    rw [leBytes, ofLeBytes, ih hn, UInt8.toNat_ofNat']
    omega

theorem leBytes_ofLeBytes (bytes : List UInt8) :
    leBytes bytes.length (ofLeBytes bytes) = bytes := by
  induction bytes with
  | nil => rfl
  | cons byte bytes ih =>
    have hbyte := byte.toNat_lt
    have hhead : UInt8.ofNat (byte.toNat + 256 * ofLeBytes bytes) = byte := by
      apply UInt8.toNat_inj.mp
      rw [UInt8.toNat_ofNat']
      omega
    have htail : (byte.toNat + 256 * ofLeBytes bytes) / 256 = ofLeBytes bytes := by omega
    rw [List.length_cons, ofLeBytes, leBytes, hhead, htail, ih]

/-- `read` succeeds on what `write` makes of the values that fit, and on nothing else. -/
def Exact (read : Reader ε α) (write : α → List UInt8) (fits : α → Prop) : Prop :=
  ∀ bytes a rest, read bytes = .ok (a, rest) ↔ fits a ∧ bytes = write a ++ rest

namespace Exact

variable {read : Reader ε α} {write : α → List UInt8} {fits : α → Prop}

theorem read_write (h : Exact read write fits) {a : α} (ha : fits a) (rest : List UInt8) :
    read (write a ++ rest) = .ok (a, rest) :=
  (h _ _ _).mpr ⟨ha, rfl⟩

theorem bind (h : Exact read write fits) {next : α → Reader ε β} {a : α} (ha : fits a)
    (rest : List UInt8) : (read >>= next) (write a ++ rest) = next a rest := by
  simp [Bind.bind, StateT.bind, Except.bind, h.read_write ha rest]

/-- No written value is the beginning of another one. -/
theorem prefix_free (h : Exact read write fits) {a b : α} {rest rest' : List UInt8} (ha : fits a)
    (hb : fits b) (heq : write a ++ rest = write b ++ rest') : a = b ∧ rest = rest' := by
  have hread := h.read_write ha rest
  rw [heq, h.read_write hb rest'] at hread
  simpa [eq_comm] using hread

end Exact

/-- Read `count` values in turn. -/
def readMany (read : Reader ε α) : ℕ → Reader ε (List α)
  | 0 => pure []
  | count + 1 => do
    let a ← read
    let as ← readMany read count
    pure (a :: as)

theorem readMany_eq_ok {read : Reader ε α} {write : α → List UInt8} {fits : α → Prop}
    (h : Exact read write fits) {count : ℕ} {bytes rest : List UInt8} {as : List α} :
    readMany read count bytes = .ok (as, rest) ↔
      as.length = count ∧ (∀ a ∈ as, fits a) ∧ bytes = as.flatMap write ++ rest := by
  induction count generalizing bytes as with
  | zero =>
    rw [readMany, pure_eq_ok]
    constructor
    · rintro ⟨rfl, rfl⟩
      simp
    · rintro ⟨hlength, -, rfl⟩
      obtain rfl := List.eq_nil_of_length_eq_zero hlength
      simp
  | succ count ih =>
    simp only [readMany, bind_eq_ok, pure_eq_ok, h _ _ _]
    constructor
    · rintro ⟨a, mid, ⟨ha, rfl⟩, as', mid', hmany, rfl, rfl⟩
      obtain ⟨hlength, has, rfl⟩ := ih.mp hmany
      exact ⟨by simp [hlength], List.forall_mem_cons.mpr ⟨ha, has⟩, by simp⟩
    · rintro ⟨hlength, has, rfl⟩
      cases as with
      | nil => simp at hlength
      | cons a as =>
        obtain ⟨ha, has⟩ := List.forall_mem_cons.mp has
        have hmany := ih.mpr ⟨by simpa using hlength, has, rfl⟩
        exact ⟨a, as.flatMap write ++ rest, ⟨ha, by simp⟩, as, rest, hmany, rfl, rfl⟩

end Eddy.ByteReaders
