import Eddy.ByteStreams

/-!
# Lines of a buffered reader

`AsyncReadExt::read` of `io/mod.rs`, and `read_until`, `read_line` and `Lines::next_line` of
`io/buf.rs`, each awaited to its completion on a reader that serves a stream. The abstract lines of
a list end after each newline.
-/

namespace Eddy.AsyncIo
open Console (utf8 fromUTF8?_eq_some)

section Splitting
variable {α β : Type} {p : α → Bool}

/-- Up to and with the first element that ends a line. -/
def through (p : α → Bool) : List α → List α
  | [] => []
  | a :: as => if p a then [a] else a :: through p as

/-- What follows the first element that ends a line. -/
def beyond (p : α → Bool) : List α → List α
  | [] => []
  | a :: as => if p a then as else beyond p as

def lines (p : α → Bool) : List α → List (List α)
  | [] => []
  | a :: as =>
    if p a then [a] :: lines p as
    else match lines p as with
      | [] => [[a]]
      | line :: rest => (a :: line) :: rest

theorem through_eq_nil_iff {as : List α} : through p as = [] ↔ as = [] := by
  cases as with
  | nil => simp [through]
  | cons a as =>
    unfold through
    split <;> simp

theorem lines_eq_nil_iff {as : List α} : lines p as = [] ↔ as = [] := by
  cases as with
  | nil => simp [lines]
  | cons a as =>
    unfold lines
    split
    · simp
    · split <;> simp

theorem lines_eq_cons {as : List α} (h : as ≠ []) :
    lines p as = through p as :: lines p (beyond p as) := by
  induction as with
  | nil => exact absurd rfl h
  | cons a as ih =>
    by_cases hp : p a = true
    · rw [lines, through, beyond, if_pos hp, if_pos hp, if_pos hp]
    · rw [lines, through, beyond, if_neg hp, if_neg hp, if_neg hp]
      by_cases has : as = []
      · rw [has]
        rfl
      · rw [ih has]

theorem lines_flatten (p : α → Bool) (as : List α) : (lines p as).flatten = as := by
  induction as with
  | nil => rfl
  | cons a as ih =>
    unfold lines
    split
    · simp [ih]
    · cases hlines : lines p as with
      | nil => simp [lines_eq_nil_iff.mp hlines]
      | cons line rest => simpa [hlines] using ih

theorem of_mem_lines {as line : List α} (h : line ∈ lines p as) :
    line ≠ [] ∧ ∀ a ∈ line.dropLast, p a = false := by
  induction as generalizing line with
  | nil => simp [lines] at h
  | cons a as ih =>
    unfold lines at h
    split at h
    · rcases List.mem_cons.mp h with rfl | h
      · simp
      · exact ih h
    · rename_i hp
      cases hlines : lines p as with
      | nil =>
        obtain rfl : line = [a] := by simpa [hlines] using h
        simp
      | cons first rest =>
        rw [hlines] at h
        rcases List.mem_cons.mp h with rfl | h
        · have hmem : first ∈ lines p as := by simp [hlines]
          obtain ⟨hne, hfirst⟩ := ih hmem
          rw [List.dropLast_cons_of_ne_nil hne]
          exact ⟨List.cons_ne_nil _ _, List.forall_mem_cons.mpr ⟨by simpa using hp, hfirst⟩⟩
        · exact ih (by simp [hlines, h])

theorem getLast_of_mem_dropLast_lines {as line : List α} (h : line ∈ (lines p as).dropLast) :
    ∃ a, line.getLast? = some a ∧ p a = true := by
  induction as generalizing line with
  | nil => simp [lines] at h
  | cons a as ih =>
    unfold lines at h
    split at h
    · rename_i hp
      cases hlines : lines p as with
      | nil => simp [hlines] at h
      | cons first rest =>
        rw [hlines, List.dropLast_cons_of_ne_nil (List.cons_ne_nil _ _)] at h
        rcases List.mem_cons.mp h with rfl | h
        · exact ⟨a, rfl, hp⟩
        · exact ih (by rwa [hlines])
    · cases hlines : lines p as with
      | nil => simp [hlines] at h
      | cons first rest =>
        rw [hlines] at h
        cases rest with
        | nil => simp at h
        | cons second rest =>
          rw [List.dropLast_cons_of_ne_nil (List.cons_ne_nil _ _)] at h
          have hdrop : (lines p as).dropLast = first :: (second :: rest).dropLast := by
            rw [hlines, List.dropLast_cons_of_ne_nil (List.cons_ne_nil _ _)]
          rcases List.mem_cons.mp h with rfl | h
          · have hmem : first ∈ (lines p as).dropLast := by simp [hdrop]
            obtain ⟨b, hb, hp⟩ := ih hmem
            refine ⟨b, ?_, hp⟩
            cases first with
            | nil => simp at hb
            | cons c first => simpa using hb
          · exact ih (by simp [hdrop, h])

/-- Splitting an encoded list where the codes of ends, and no other codes, hold an end. -/
theorem through_flatMap {q : β → Bool} {code : α → List β}
    (hend : ∀ a, p a = true → ∃ b, code a = [b] ∧ q b = true)
    (hother : ∀ a, p a = false → ∀ b ∈ code a, q b = false) (as : List α) :
    through q (as.flatMap code) = (through p as).flatMap code ∧
      beyond q (as.flatMap code) = (beyond p as).flatMap code := by
  have hskip : ∀ codes rest : List β, (∀ b ∈ codes, q b = false) →
      through q (codes ++ rest) = codes ++ through q rest ∧
        beyond q (codes ++ rest) = beyond q rest := by
    intro codes rest hcodes
    induction codes with
    | nil => exact ⟨rfl, rfl⟩
    | cons b codes ih =>
      obtain ⟨hb, hcodes⟩ := List.forall_mem_cons.mp hcodes
      obtain ⟨hthrough, hbeyond⟩ := ih hcodes
      simp [through, beyond, hb, hthrough, hbeyond]
  induction as with
  | nil => exact ⟨rfl, rfl⟩
  | cons a as ih =>
    rw [List.flatMap_cons]
    cases hp : p a with
    | true =>
      obtain ⟨b, hcode, hq⟩ := hend a hp
      simp [through, beyond, hp, hcode, hq]
    | false =>
      obtain ⟨hthrough, hbeyond⟩ := hskip (code a) (as.flatMap code) (hother a hp)
      simp [through, beyond, hp, hthrough, hbeyond, ih]

end Splitting

theorem utf8EncodeChar_newline : String.utf8EncodeChar '\n' = [10] := rfl

/-- A code of more than one byte holds no ASCII byte. -/
theorem ne_newline_of_mem {c : Char} (hc : c ≠ '\n') {byte : UInt8}
    (h : byte ∈ String.utf8EncodeChar c) : byte ≠ 10 := by
  rintro rfl
  have hval : c.val.toNat ≠ 10 := fun heq => hc (Char.ext (UInt32.toNat_inj.mp heq))
  have hnat : c.toNat = c.val.toNat := rfl
  simp only [String.utf8EncodeChar] at h
  split at h
  · simp [← UInt8.toNat_inj] at h
    omega
  · split at h
    · simp [← UInt8.toNat_inj] at h
      omega
    · split at h
      · simp [← UInt8.toNat_inj] at h
        omega
      · simp [← UInt8.toNat_inj] at h
        omega

theorem utf8_ofList (cs : List Char) :
    utf8 (String.ofList cs) = cs.flatMap String.utf8EncodeChar := by
  simp [utf8, List.utf8Encode]

theorem join_map_ofList (texts : List (List Char)) :
    String.join (texts.map String.ofList) = String.ofList texts.flatten := by
  induction texts with
  | nil => rfl
  | cons text texts ih => simp [String.join_cons, ih, String.ofList_append]

theorem through_utf8 (cs : List Char) :
    through (· == 10) (utf8 (String.ofList cs)) = utf8 (String.ofList (through (· == '\n') cs)) ∧
      beyond (· == 10) (utf8 (String.ofList cs)) =
        utf8 (String.ofList (beyond (· == '\n') cs)) := by
  rw [utf8_ofList, utf8_ofList, utf8_ofList]
  apply through_flatMap
  · intro c hc
    obtain rfl : c = '\n' := by simpa using hc
    exact ⟨10, utf8EncodeChar_newline, rfl⟩
  · intro c hc byte hbyte
    have hne : c ≠ '\n' := by simpa using hc
    simpa using ne_newline_of_mem hne hbyte

variable {R : Type} [AsyncRead R] [Serves R]

namespace Serves

/-- What has yet to be delivered. -/
def bytes (r : R) : List UInt8 := (rest r).getD []

theorem rest_eq (r : R) : rest r = some (bytes r) := by
  obtain ⟨bytes, h⟩ := Option.isSome_iff_exists.mp (finite r)
  simp [Serves.bytes, h]

theorem bytes_pollRead (r : R) (b : ReadBuf) :
    bytes r = b.added (pollRead r b).2.2 ++ bytes (pollRead r b).2.1 := by
  have h := Streams.rest_pollRead r b
  rw [rest_eq, rest_eq] at h
  exact Option.some.inj h

theorem bytes_ended {r : R} {b : ReadBuf} (hpoll : (pollRead r b).1 = .ready (.ok ()))
    (hroom : 0 < b.remaining) (hnone : b.added (pollRead r b).2.2 = []) : bytes r = [] := by
  have h := Streams.rest_ended r b hpoll hroom hnone
  rw [rest_eq] at h
  exact Option.some.inj h

end Serves

def awaitRead (r : R) (b : ReadBuf) : Except IoError Unit × R × ReadBuf :=
  match h : pollRead r b with
  | (.pending, r', b') =>
    have hlt : Serves.patience r' < Serves.patience r := by
      have hlt := Serves.patience_lt r b (by rw [h])
      rwa [h] at hlt
    awaitRead r' b'
  | (.ready result, r', b') => (result, r', b')
termination_by Serves.patience r

theorem awaitRead_pending {r : R} {b : ReadBuf} (h : (pollRead r b).1 = .pending) :
    awaitRead r b = awaitRead (pollRead r b).2.1 (pollRead r b).2.2 := by
  rw [awaitRead]
  split <;> simp_all

theorem awaitRead_ready {r : R} {b : ReadBuf} {result : Except IoError Unit}
    (h : (pollRead r b).1 = .ready result) :
    awaitRead r b = (result, (pollRead r b).2.1, (pollRead r b).2.2) := by
  rw [awaitRead]
  split <;> simp_all

structure Delivered (r : R) (b : ReadBuf) (got : List UInt8) : Prop where
  ok : (awaitRead r b).1 = .ok ()
  filled : (awaitRead r b).2.2.filled = b.filled ++ got
  length : (awaitRead r b).2.2.buf.length = b.buf.length
  bytes : Serves.bytes r = got ++ Serves.bytes (awaitRead r b).2.1
  ended : 0 < b.remaining → got = [] → Serves.bytes r = []

theorem exists_delivered (r : R) (b : ReadBuf) : ∃ got, Delivered r b got := by
  fun_induction awaitRead r b with
  | case1 r b r' b' h hlt ih =>
    obtain ⟨got, hgot⟩ := ih
    have hpoll : (pollRead r b).1 = .pending := by rw [h]
    have hbytes := Serves.bytes_pollRead r b
    have hstalled := AsyncRead.stalled_pollRead r b (by simp [hpoll])
    have hlength := AsyncRead.length_pollRead r b
    have hawait := awaitRead_pending hpoll
    rw [added_stalled (by simp [hpoll]), List.nil_append] at hbytes
    rw [h] at hbytes hstalled hlength hawait
    refine ⟨got, by rw [hawait, hgot.ok], by rw [hawait, hgot.filled, hstalled],
      by rw [hawait, hgot.length, hlength], by rw [hbytes, hawait, hgot.bytes], fun hroom hnone => ?_⟩
    rw [hbytes]
    apply hgot.ended _ hnone
    rw [ReadBuf.remaining, hlength, ← ReadBuf.length_filled, hstalled, ReadBuf.length_filled]
    exact hroom
  | case2 r b result r' b' h =>
    have hpoll : (pollRead r b).1 = .ready result := by rw [h]
    have hawait := awaitRead_ready hpoll
    cases result with
    | error error => exact absurd hpoll (Serves.no_error r b error)
    | ok value =>
      refine ⟨b.added (pollRead r b).2.2, by rw [hawait], ?_, ?_, ?_, ?_⟩
      · rw [hawait, filled_pollRead_eq]
      · rw [hawait, AsyncRead.length_pollRead]
      · rw [hawait]
        exact Serves.bytes_pollRead r b
      · exact Serves.bytes_ended hpoll

/-- `read`, with what it has written to the buffer. -/
def read (r : R) (buf : List UInt8) : Except IoError (List UInt8) × R :=
  match awaitRead r (.new buf) with
  | (.ok (), r, b) => (.ok b.filled, r)
  | (.error error, r, _) => (.error error, r)

theorem read_spec (r : R) (buf : List UInt8) : ∃ got r', read r buf = (.ok got, r') ∧
    got.length ≤ buf.length ∧ Serves.bytes r = got ++ Serves.bytes r' ∧
    (0 < buf.length → got = [] → Serves.bytes r = []) := by
  obtain ⟨got, hgot⟩ := exists_delivered r (.new buf)
  have hok := hgot.ok
  have hfilled : (awaitRead r (.new buf)).2.2.filled = got := hgot.filled
  have hlength : got.length ≤ buf.length := by
    rw [← hfilled, ReadBuf.length_filled]
    exact (awaitRead r (.new buf)).2.2.filledLen_le.trans_eq hgot.length
  refine ⟨got, (awaitRead r (.new buf)).2.1, ?_, hlength, hgot.bytes, hgot.ended⟩
  unfold read
  split <;> simp_all

theorem read_byte (r : R) : ∃ r', read r [0] = (.ok ((Serves.bytes r).take 1), r') ∧
    Serves.bytes r' = (Serves.bytes r).drop 1 := by
  obtain ⟨got, r', hread, hlength, hbytes, hended⟩ := read_spec r [0]
  refine ⟨r', ?_⟩
  match got with
  | [] =>
    have hempty := hended (by simp) rfl
    rw [hempty] at hbytes ⊢
    exact ⟨hread, by simpa using hbytes.symm⟩
  | [byte] => exact ⟨by rw [hread, hbytes]; rfl, by rw [hbytes]; rfl⟩

/-- The loop of `read_until`, on an output that was `start` bytes long. -/
def readUntilFrom (delimiter : UInt8) (start : ℕ) (r : R) (output : List UInt8) :
    Except IoError ℕ × R × List UInt8 :=
  match h : read r [0] with
  | (.error error, r') => (.error error, r', output)
  | (.ok [], r') => (.ok (output.length - start), r', output)
  | (.ok (byte :: more), r') =>
    if byte = delimiter then
      (.ok ((output ++ [byte]).length - start), r', output ++ [byte])
    else
      have hlt : (Serves.bytes r').length < (Serves.bytes r).length := by
        obtain ⟨r'', hread, hbytes⟩ := read_byte r
        rw [h, Prod.mk.injEq] at hread
        obtain ⟨hgot, rfl⟩ := hread
        rw [hbytes, List.length_drop]
        have hne : Serves.bytes r ≠ [] := fun hnil => by simp [hnil] at hgot
        have hpos := List.length_pos_iff.mpr hne
        omega
      readUntilFrom delimiter start r' (output ++ [byte])
termination_by (Serves.bytes r).length

theorem readUntilFrom_spec (delimiter : UInt8) (start : ℕ) (r : R) (output : List UInt8) :
    ∃ r', readUntilFrom delimiter start r output =
        (.ok ((output ++ through (· == delimiter) (Serves.bytes r)).length - start), r',
          output ++ through (· == delimiter) (Serves.bytes r)) ∧
      Serves.bytes r' = beyond (· == delimiter) (Serves.bytes r) := by
  obtain ⟨r₁, hread, hbytes⟩ := read_byte r
  induction hr : Serves.bytes r generalizing r r₁ output with
  | nil =>
    rw [hr] at hread hbytes
    refine ⟨r₁, ?_, hbytes⟩
    rw [readUntilFrom]
    split <;> simp_all [through]
  | cons byte rest ih =>
    rw [hr] at hread hbytes
    by_cases hbyte : byte = delimiter
    · refine ⟨r₁, ?_, by simpa [beyond, hbyte] using hbytes⟩
      rw [readUntilFrom]
      split <;> simp_all [through]
    · obtain ⟨r₂, hread₂, hbytes₂⟩ := read_byte r₁
      obtain ⟨r', hrest, hbeyond⟩ := ih r₁ (output ++ [byte]) r₂ hread₂ hbytes₂ hbytes
      refine ⟨r', ?_, by simpa [beyond, hbyte] using hbeyond⟩
      rw [readUntilFrom]
      split <;> simp_all [through]

def readUntil (delimiter : UInt8) (r : R) (output : List UInt8) :
    Except IoError ℕ × R × List UInt8 :=
  readUntilFrom delimiter output.length r output

def readLine (r : R) (output : String) : Except IoError ℕ × R × String :=
  match readUntil 10 r [] with
  | (.error error, r, _) => (.error error, r, output)
  | (.ok count, r, bytes) =>
    match String.fromUTF8? bytes.toByteArray with
    | none => (.error (.utf8 bytes), r, output)
    | some line => (.ok count, r, output ++ line)

def nextLine (r : R) : Except IoError (Option String) × R :=
  match readLine r "" with
  | (.error error, r, _) => (.error error, r)
  | (.ok count, r, line) => (.ok (if count = 0 ∧ line = "" then none else some line), r)

theorem readUntil_spec (delimiter : UInt8) (r : R) : ∃ r', readUntil delimiter r [] =
      (.ok (through (· == delimiter) (Serves.bytes r)).length, r',
        through (· == delimiter) (Serves.bytes r)) ∧
    Serves.bytes r' = beyond (· == delimiter) (Serves.bytes r) :=
  readUntilFrom_spec delimiter 0 r []

/-- On a stream of characters, `next_line` returns the first line. -/
theorem nextLine_spec {r : R} {cs : List Char} (h : Serves.bytes r = utf8 (String.ofList cs)) :
    (nextLine r).1 = .ok (if cs = [] then none
      else some (String.ofList (through (· == '\n') cs))) ∧
    Serves.bytes (nextLine r).2 = utf8 (String.ofList (beyond (· == '\n') cs)) := by
  obtain ⟨r', huntil, hbytes⟩ := readUntil_spec 10 r
  rw [h, (through_utf8 cs).1] at huntil
  rw [h, (through_utf8 cs).2] at hbytes
  have hline : String.fromUTF8? (utf8 (String.ofList (through (· == '\n') cs))).toByteArray =
      some (String.ofList (through (· == '\n') cs)) := fromUTF8?_eq_some.mpr rfl
  have hread : readLine r "" = (.ok (utf8 (String.ofList (through (· == '\n') cs))).length, r',
      String.ofList (through (· == '\n') cs)) := by
    simp [readLine, huntil, hline]
  refine ⟨?_, by rw [nextLine, hread, ← hbytes]⟩
  rw [nextLine, hread]
  by_cases hcs : cs = []
  · subst hcs
    rfl
  · have hne : String.ofList (through (· == '\n') cs) ≠ "" := by
      simpa [through_eq_nil_iff] using hcs
    simp [hcs, hne]

/-- What the first calls of `next_line` return. -/
def nextLines : ℕ → R → List (Except IoError (Option String))
  | 0, _ => []
  | n + 1, r => (nextLine r).1 :: nextLines n (nextLine r).2

/-- The calls return the lines in turn, and after the last one `none`. -/
theorem nextLines_spec (n : ℕ) {r : R} {cs : List Char}
    (h : Serves.bytes r = utf8 (String.ofList cs)) :
    nextLines n r =
      (List.range n).map fun i => .ok ((lines (· == '\n') cs).map String.ofList)[i]? := by
  induction n generalizing r cs with
  | zero => rfl
  | succ n ih =>
    obtain ⟨hfirst, hrest⟩ := nextLine_spec h
    rw [nextLines, hfirst, ih hrest, List.range_succ_eq_map]
    by_cases hcs : cs = []
    · subst hcs
      simp [lines, beyond]
      exact (List.eq_replicate_iff.mpr ⟨by simp, by simp⟩).symm
    · rw [lines_eq_cons hcs, if_neg hcs]
      simp

/-- On a reader that serves the text, the calls of `next_line` return the lines of the text and
then `none`. -/
theorem next_line_exact {R : Type} [AsyncRead R] [Serves R] (capacity : ℕ)
    (positive : 0 < capacity) (inner : R) (text : String) (h : rest inner = some (utf8 text)) :
    ∃ texts : List String,
      (∀ n, nextLines n (BufReader.withCapacity capacity positive inner) =
        (List.range n).map fun i => .ok texts[i]?) ∧
      String.join texts = text ∧
      (∀ line ∈ texts, line ≠ "" ∧ '\n' ∉ line.toList.dropLast) ∧
      ∀ line ∈ texts.dropLast, line.toList.getLast? = some '\n' := by
  have hbytes : Serves.bytes (BufReader.withCapacity capacity positive inner) =
      utf8 (String.ofList text.toList) := by
    rw [Serves.bytes, show rest (BufReader.withCapacity capacity positive inner) =
      (rest inner).map _ from rfl, h]
    simp [BufReader.window, BufReader.withCapacity]
  refine ⟨(lines (· == '\n') text.toList).map String.ofList, fun n => nextLines_spec n hbytes,
    ?_, ?_, ?_⟩
  · rw [join_map_ofList, lines_flatten, String.ofList_toList]
  · intro line hline
    obtain ⟨cs, hcs, rfl⟩ := List.mem_map.mp hline
    obtain ⟨hne, hlast⟩ := of_mem_lines hcs
    refine ⟨by simpa using hne, fun hmem => ?_⟩
    rw [String.toList_ofList] at hmem
    simpa using hlast '\n' hmem
  · intro line hline
    rw [← List.map_dropLast] at hline
    obtain ⟨cs, hcs, rfl⟩ := List.mem_map.mp hline
    obtain ⟨c, hlast, hc⟩ := getLast_of_mem_dropLast_lines hcs
    obtain rfl : c = '\n' := by simpa using hc
    rwa [String.toList_ofList]

/-- The character U+00E9 is split between the pieces. -/
theorem next_line_exact_split : ∃ texts : List String,
    (∀ n, nextLines n (BufReader.withCapacity 2 (by decide)
      (Feed.mk [some (97, [10, 0xc3]), none, some (0xa9, [])])) =
        (List.range n).map fun i => .ok texts[i]?) ∧ String.join texts = "a\né" := by
  obtain ⟨texts, hcalls, hjoin, -⟩ := next_line_exact 2 (by decide)
    (Feed.mk [some (97, [10, 0xc3]), none, some (0xa9, [])]) "a\né" rfl
  exact ⟨texts, hcalls, hjoin⟩

end Eddy.AsyncIo
