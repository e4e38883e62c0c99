import Eddy.Json
import Mathlib.Data.List.TakeWhile

/-!
# A JSON parser

A recursive-descent parser of JSON texts. It accepts exactly the texts of the grammar, with the
value they denote, so a text denotes at most one value.
-/

namespace Json

/-- What may follow a number: nothing that could continue it. -/
def Ends (rest : List Char) : Prop :=
  ∀ c ∈ rest.head?, c.isDigit = false ∧ c ≠ '.' ∧ c ≠ 'e' ∧ c ≠ 'E'

def digits (input : List Char) : Option (List Char × List Char) :=
  let text := input.takeWhile Char.isDigit
  if text = [] then none else some (text, input.dropWhile Char.isDigit)

def sign : List Char → ℤ × List Char
  | '-' :: input => (-1, input)
  | input => (1, input)

def whole (input : List Char) : Option (List Char × List Char) := do
  let (text, rest) ← digits input
  if text.head? = some '0' ∧ text ≠ ['0'] then none else some (text, rest)

def fraction : List Char → Option (ℚ × List Char)
  | '.' :: input => do
    let (text, rest) ← digits input
    return (decimal text / 10 ^ text.length, rest)
  | input => some (0, input)

def exponentSign : List Char → ℤ × List Char
  | '+' :: input => (1, input)
  | input => sign input

def exponentDigits (input : List Char) : Option (ℤ × List Char) := do
  let (s, input) := exponentSign input
  let (text, rest) ← digits input
  return (s * decimal text, rest)

def exponent : List Char → Option (ℤ × List Char)
  | 'e' :: input | 'E' :: input => exponentDigits input
  | input => some (0, input)

def number (input : List Char) : Option (ℚ × List Char) := do
  let (s, input) := sign input
  let (text, input) ← whole input
  let (f, input) ← fraction input
  let (e, rest) ← exponent input
  return (s * (decimal text + f) * 10 ^ e, rest)

variable {text : List Char} {c : Char} {s : ℤ}

theorem digits_append {rest : List Char} (h : Digits text)
    (hrest : ∀ c ∈ rest.head?, c.isDigit = false) : digits (text ++ rest) = some (text, rest) := by
  have htake : rest.takeWhile Char.isDigit = [] := by
    cases rest with
    | nil => rfl
    | cons c rest => rw [List.takeWhile_cons, hrest c rfl]; rfl
  have hdrop : rest.dropWhile Char.isDigit = rest := by
    cases rest with
    | nil => rfl
    | cons c rest => rw [List.dropWhile_cons, hrest c rfl]; rfl
  simp [digits, List.takeWhile_append_of_pos h.2, List.dropWhile_append_of_pos h.2, htake, hdrop,
    h.1]

theorem digits_eq_some {input rest : List Char} (h : digits input = some (text, rest)) :
    Digits text ∧ input = text ++ rest := by
  simp only [digits] at h
  split at h
  · cases h
  case isFalse hne =>
    cases h
    exact ⟨⟨hne, fun c hc => List.mem_takeWhile_imp hc⟩, List.takeWhile_append_dropWhile.symm⟩

theorem Digits.head?_isDigit (h : Digits text)
    (hc : c ∈ text.head?) : c.isDigit :=
  h.2 c (List.mem_of_mem_head? hc)

theorem head?_append_of_ne_nil (h : text ≠ []) (rest : List Char) :
    (text ++ rest).head? = text.head? := by
  cases text with
  | nil => exact absurd rfl h
  | cons c text => rfl

theorem sign_append {rest : List Char} (h : Sign text s)
    (hrest : ∀ c ∈ rest.head?, c.isDigit) : sign (text ++ rest) = (s, rest) := by
  cases h with
  | minus => rfl
  | none =>
    cases rest with
    | nil => rfl
    | cons c rest =>
      have hc : c ≠ '-' := fun hc => absurd (hrest c rfl) (by rw [hc]; decide)
      simp [sign, hc]

theorem sign_spec (input : List Char) :
    ∃ text, Sign text (sign input).1 ∧ input = text ++ (sign input).2 := by
  unfold sign
  split
  · exact ⟨_, .minus, rfl⟩
  · exact ⟨_, .none, rfl⟩

theorem whole_append {rest : List Char} (h : Whole text)
    (hrest : ∀ c ∈ rest.head?, c.isDigit = false) : whole (text ++ rest) = some (text, rest) := by
  have hzero : ¬ (text.head? = some '0' ∧ text ≠ ['0']) := fun hz => hz.2 (h.2 hz.1)
  simp [whole, digits_append h.1 hrest, hzero]

theorem whole_eq_some {input rest : List Char} (h : whole input = some (text, rest)) :
    Whole text ∧ input = text ++ rest := by
  simp only [whole, Option.bind_eq_bind, Option.bind_eq_some_iff] at h
  obtain ⟨⟨text', rest'⟩, hd, h⟩ := h
  split at h
  · cases h
  case isFalse hz =>
    cases h
    obtain ⟨hdigits, happ⟩ := digits_eq_some hd
    exact ⟨⟨hdigits, fun hh => by_contra fun hne => hz ⟨hh, hne⟩⟩, happ⟩

theorem fraction_append {rest : List Char} {f : ℚ} (h : Fraction text f)
    (hrest : ∀ c ∈ rest.head?, c.isDigit = false ∧ c ≠ '.') :
    fraction (text ++ rest) = some (f, rest) := by
  cases h with
  | digits h => simp [fraction, digits_append h fun c hc => (hrest c hc).1]
  | none =>
    cases rest with
    | nil => rfl
    | cons c rest => simp [fraction, (hrest c rfl).2]

theorem fraction_eq_some {input rest : List Char} {f : ℚ} (h : fraction input = some (f, rest)) :
    ∃ text, Fraction text f ∧ input = text ++ rest := by
  unfold fraction at h
  split at h
  · simp only [Option.bind_eq_bind, Option.bind_eq_some_iff] at h
    obtain ⟨⟨text, rest'⟩, hd, h⟩ := h
    cases h
    obtain ⟨hdigits, rfl⟩ := digits_eq_some hd
    exact ⟨_, .digits hdigits, rfl⟩
  · cases h
    exact ⟨[], .none, rfl⟩

theorem exponentSign_append {rest : List Char}
    (h : Sign text s ∨ text = ['+'] ∧ s = 1) (hrest : ∀ c ∈ rest.head?, c.isDigit) :
    exponentSign (text ++ rest) = (s, rest) := by
  obtain h | ⟨rfl, rfl⟩ := h
  · have hsign := sign_append h hrest
    unfold exponentSign
    split
    case h_1 input heq =>
      exfalso
      cases h with
      | minus => cases heq
      | none =>
        have hplus := hrest '+' (by rw [List.nil_append] at heq; rw [heq]; rfl)
        exact absurd hplus (by decide)
    · exact hsign
  · rfl

theorem exponentSign_spec (input : List Char) :
    ∃ text, (Sign text (exponentSign input).1 ∨ text = ['+'] ∧ (exponentSign input).1 = 1) ∧
      input = text ++ (exponentSign input).2 := by
  unfold exponentSign
  split
  · exact ⟨['+'], .inr ⟨rfl, rfl⟩, rfl⟩
  · obtain ⟨text, hsign, happ⟩ := sign_spec input
    exact ⟨text, .inl hsign, happ⟩

theorem exponentDigits_append {signText rest : List Char}
    (hsign : Sign signText s ∨ signText = ['+'] ∧ s = 1) (h : Digits text) (hrest : Ends rest) :
    exponentDigits (signText ++ (text ++ rest)) = some (s * decimal text, rest) := by
  have hhead : ∀ c ∈ (text ++ rest).head?, c.isDigit := fun c hc => by
    rw [head?_append_of_ne_nil h.1] at hc
    exact h.head?_isDigit hc
  simp [exponentDigits, exponentSign_append hsign hhead,
    digits_append h fun c hc => (hrest c hc).1]

theorem exponentDigits_eq_some {input rest : List Char} {n : ℤ} {e : Char}
    (he : e = 'e' ∨ e = 'E') (h : exponentDigits input = some (n, rest)) :
    ∃ text, Exponent text n ∧ e :: input = text ++ rest := by
  obtain ⟨signText, hsign, happ⟩ := exponentSign_spec input
  simp only [exponentDigits, Option.bind_eq_bind, Option.bind_eq_some_iff] at h
  obtain ⟨⟨text, rest'⟩, hd, h⟩ := h
  cases h
  obtain ⟨hdigits, hrest⟩ := digits_eq_some hd
  refine ⟨_, .digits he hsign hdigits, ?_⟩
  rw [List.cons_append, List.append_assoc, ← hrest, ← happ]

theorem exponent_append {rest : List Char} {e : ℤ} (h : Exponent text e)
    (hrest : Ends rest) : exponent (text ++ rest) = some (e, rest) := by
  cases h with
  | digits he hsign h =>
    obtain rfl | rfl := he
    all_goals
      rw [List.cons_append, List.append_assoc]
      exact exponentDigits_append hsign h hrest
  | none =>
    cases rest with
    | nil => rfl
    | cons c rest =>
      obtain ⟨-, -, he, hE⟩ := hrest c rfl
      simp [exponent, he, hE]

theorem exponent_eq_some {input rest : List Char} {e : ℤ} (h : exponent input = some (e, rest)) :
    ∃ text, Exponent text e ∧ input = text ++ rest := by
  unfold exponent at h
  split at h
  · exact exponentDigits_eq_some (.inl rfl) h
  · exact exponentDigits_eq_some (.inr rfl) h
  · cases h
    exact ⟨[], .none, rfl⟩

theorem number_append {rest : List Char} {q : ℚ} (h : Number text q) (hrest : Ends rest) :
    number (text ++ rest) = some (q, rest) := by
  obtain ⟨hs, hw, hf, he⟩ := h
  rename_i signText wholeText fractionText exponentText s e f
  have hexp : ∀ c ∈ (exponentText ++ rest).head?, c.isDigit = false ∧ c ≠ '.' := by
    cases he with
    | none => exact fun c hc => ⟨(hrest c hc).1, (hrest c hc).2.1⟩
    | digits he _ _ =>
      rintro c ⟨⟩
      obtain rfl | rfl := he <;> exact ⟨by decide, by decide⟩
  have hfrac : ∀ c ∈ (fractionText ++ (exponentText ++ rest)).head?, c.isDigit = false := by
    cases hf with
    | none => exact fun c hc => (hexp c hc).1
    | digits _ =>
      rintro c ⟨⟩
      decide
  have hwhole : ∀ c ∈ (wholeText ++ (fractionText ++ (exponentText ++ rest))).head?,
      c.isDigit := fun c hc => by
    rw [head?_append_of_ne_nil hw.1.1] at hc
    exact hw.1.head?_isDigit hc
  simp [number, List.append_assoc, sign_append hs hwhole, whole_append hw hfrac,
    fraction_append hf hexp, exponent_append he hrest]

theorem number_eq_some {input rest : List Char} {q : ℚ} (h : number input = some (q, rest)) :
    ∃ text, Number text q ∧ input = text ++ rest := by
  obtain ⟨signText, hsign, happ⟩ := sign_spec input
  simp only [number, Option.bind_eq_bind, Option.bind_eq_some_iff] at h
  obtain ⟨⟨wholeText, input₁⟩, hw, ⟨f, input₂⟩, hf, ⟨e, input₃⟩, he, h⟩ := h
  cases h
  obtain ⟨hwhole, happ₁⟩ := whole_eq_some hw
  obtain ⟨fractionText, hfraction, happ₂⟩ := fraction_eq_some hf
  obtain ⟨exponentText, hexponent, happ₃⟩ := exponent_eq_some he
  refine ⟨_, .mk hsign hwhole hfraction hexponent, ?_⟩
  rw [List.append_assoc, List.append_assoc, List.append_assoc, ← happ₃, ← happ₂, ← happ₁, ← happ]

def character : List Char → Option (Char × List Char)
  | '\\' :: 'u' :: a :: b :: c :: d :: input => do
    let unit ← hex4? a b c d
    if isHighSurrogate unit then
      match input with
      | '\\' :: 'u' :: a :: b :: c :: d :: rest => do
        let low ← hex4? a b c d
        if isLowSurrogate low then some (Char.ofNat (pairedSurrogates unit low), rest) else none
      | _ => none
    else if isLowSurrogate unit then none
    else some (Char.ofNat unit, input)
  | '\\' :: e :: rest => (escape? e).map fun c => (c, rest)
  | c :: rest => if isUnescaped c then some (c, rest) else none
  | [] => none

/-- Reads through the closing quotation mark. -/
def chars : ℕ → List Char → Option (List Char × List Char)
  | 0, _ => none
  | _ + 1, '"' :: rest => some ([], rest)
  | fuel + 1, input => do
    let (c, input) ← character input
    let (cs, rest) ← chars fuel input
    return (c :: cs, rest)

def str : List Char → Option (String × List Char)
  | '"' :: input => (chars input.length input).map fun (cs, rest) => (String.ofList cs, rest)
  | _ => none

theorem character_append (h : Character text c)
    (rest : List Char) : character (text ++ rest) = some (c, rest) := by
  cases h with
  | unescaped h =>
    have hc : c ≠ '\\' := by
      rintro rfl
      exact absurd h (by decide)
    simp [character, hc, h]
  | escaped h =>
    rename_i e
    have he : e ≠ 'u' := by
      rintro rfl
      cases h
    simp [character, he, h]
  | unicode h hhigh hlow => simp [character, h, hhigh, hlow]
  | surrogates h h' hhigh hlow => simp [character, h, h', hhigh, hlow]

theorem character_eq_some {input rest : List Char}
    (h : character input = some (c, rest)) : ∃ text, Character text c ∧ input = text ++ rest := by
  unfold character at h
  split at h
  · simp only [Option.bind_eq_bind, Option.bind_eq_some_iff] at h
    obtain ⟨unit, hunit, h⟩ := h
    split at h
    case isTrue hhigh =>
      split at h
      · simp only [Option.bind_eq_some_iff] at h
        obtain ⟨low, hlow, h⟩ := h
        split at h
        · simp only [Option.some.injEq, Prod.mk.injEq] at h
          obtain ⟨rfl, rfl⟩ := h
          exact ⟨_, .surrogates hunit hlow hhigh ‹_›, rfl⟩
        · cases h
      · cases h
    case isFalse hhigh =>
      split at h
      · cases h
      case isFalse hlow =>
        cases h
        exact ⟨_, .unicode hunit (by simpa using hhigh) (by simpa using hlow), rfl⟩
  · simp only [Option.map_eq_some_iff] at h
    obtain ⟨c, hc, h⟩ := h
    cases h
    exact ⟨_, .escaped hc, rfl⟩
  · split at h
    · cases h
      exact ⟨_, .unescaped ‹_›, rfl⟩
    · cases h
  · cases h

theorem Character.head (h : Character text c) :
    ∃ first rest, text = first :: rest ∧ first ≠ '"' := by
  cases h with
  | unescaped h =>
    refine ⟨_, _, rfl, ?_⟩
    rintro rfl
    exact absurd h (by decide)
  | escaped h | unicode h _ _ | surrogates h _ _ _ => exact ⟨_, _, rfl, by decide⟩

theorem chars_append {cs : List Char} (h : Chars text cs) (rest : List Char) {n : ℕ}
    (hfuel : text.length < n) : chars n (text ++ '"' :: rest) = some (cs, rest) := by
  induction h generalizing n with
  | nil =>
    cases n with
    | zero => cases hfuel
    | succ n => rfl
  | @cons text tail c cs hc _ ih =>
    cases n with
    | zero => cases hfuel
    | succ n =>
      have hread := character_append hc (tail ++ '"' :: rest)
      obtain ⟨first, text, rfl, hfirst⟩ := hc.head
      simp only [List.cons_append, List.append_assoc, List.length_cons, List.length_append]
        at hread hfuel ⊢
      have hih := ih (n := n) (by omega)
      simp [chars, hfirst, hread, hih]

theorem chars_eq_some {fuel : ℕ} {input cs rest : List Char}
    (h : chars fuel input = some (cs, rest)) :
    ∃ text, Chars text cs ∧ input = text ++ '"' :: rest := by
  induction fuel generalizing input cs with
  | zero => cases h
  | succ fuel ih =>
    unfold chars at h
    split at h
    · cases h
    · cases h
      exact ⟨[], .nil, rfl⟩
    · simp only [Option.bind_eq_bind, Option.bind_eq_some_iff] at h
      obtain ⟨⟨c, input'⟩, hc, ⟨cs', rest'⟩, hcs, h⟩ := h
      rename_i heq _
      cases heq
      cases h
      obtain ⟨text, hchar, rfl⟩ := character_eq_some hc
      obtain ⟨tail, htail, rfl⟩ := ih hcs
      exact ⟨text ++ tail, .cons hchar htail, by rw [List.append_assoc]⟩

theorem str_append {s : String} (h : Str text s) (rest : List Char) :
    str (text ++ rest) = some (s, rest) := by
  obtain ⟨text, rfl, h⟩ := h
  have hread := chars_append h rest (n := (text ++ '"' :: rest).length) (by simp)
  have happ : '"' :: (text ++ ['"']) ++ rest = '"' :: (text ++ '"' :: rest) := by simp
  rw [happ, str, hread]
  simp

theorem str_eq_some {input rest : List Char} {s : String} (h : str input = some (s, rest)) :
    ∃ text, Str text s ∧ input = text ++ rest := by
  unfold str at h
  split at h
  · simp only [Option.map_eq_some_iff] at h
    obtain ⟨⟨cs, rest'⟩, hcs, h⟩ := h
    cases h
    obtain ⟨text, hchars, rfl⟩ := chars_eq_some hcs
    exact ⟨_, ⟨text, rfl, by rwa [String.toList_ofList]⟩, by simp⟩
  · cases h

def skipWs (input : List Char) : List Char := input.dropWhile isWs

mutual

def readValue : ℕ → List Char → Option (Value × List Char)
  | 0, _ => none
  | fuel + 1, input =>
    match input with
    | 'n' :: 'u' :: 'l' :: 'l' :: rest => some (.null, rest)
    | 't' :: 'r' :: 'u' :: 'e' :: rest => some (.bool true, rest)
    | 'f' :: 'a' :: 'l' :: 's' :: 'e' :: rest => some (.bool false, rest)
    | '"' :: _ => (str input).map fun (s, rest) => (.str s, rest)
    | '[' :: input =>
      match skipWs input with
      | ']' :: rest => some (.arr [], rest)
      | _ => (readElements fuel input).map fun (vs, rest) => (.arr vs, rest)
    | '\x7b' :: input =>
      match skipWs input with
      | '\x7d' :: rest => some (.obj [], rest)
      | _ => (readMembers fuel input).map fun (ms, rest) => (.obj ms, rest)
    | _ => (number input).map fun (q, rest) => (.num q, rest)

def readElements : ℕ → List Char → Option (List Value × List Char)
  | 0, _ => none
  | fuel + 1, input => do
    let (v, input) ← readValue fuel (skipWs input)
    match skipWs input with
    | ',' :: input => do
      let (vs, rest) ← readElements fuel input
      return (v :: vs, rest)
    | ']' :: rest => some ([v], rest)
    | _ => none

def readMembers : ℕ → List Char → Option (List (String × Value) × List Char)
  | 0, _ => none
  | fuel + 1, input => do
    let (k, input) ← str (skipWs input)
    match skipWs input with
    | ':' :: input => do
      let (v, input) ← readValue fuel (skipWs input)
      match skipWs input with
      | ',' :: input => do
        let (ms, rest) ← readMembers fuel input
        return ((k, v) :: ms, rest)
      | '\x7d' :: rest => some ([(k, v)], rest)
      | _ => none
    | _ => none

end

/-- Every call of the parser is on a shorter input or follows one of another kind on the same. -/
def parse (text : List Char) : Option Value := do
  let (v, rest) ← readValue (2 * text.length) (skipWs text)
  if skipWs rest = [] then some v else none

variable {text w : List Char} {c : Char}

theorem skipWs_append {r : List Char} (hw : Ws w) (hrest : ∀ c ∈ r.head?, isWs c = false) :
    skipWs (w ++ r) = r := by
  rw [skipWs, List.dropWhile_append_of_pos hw]
  cases r with
  | nil => rfl
  | cons c r => rw [List.dropWhile_cons, hrest c rfl]; rfl

theorem skipWs_spec (input : List Char) : ∃ w, Ws w ∧ input = w ++ skipWs input :=
  ⟨input.takeWhile isWs, fun _ hc => List.mem_takeWhile_imp hc,
    List.takeWhile_append_dropWhile.symm⟩

theorem isWs_cases (h : isWs c) : c = ' ' ∨ c = '\t' ∨ c = '\n' ∨ c = '\r' := by
  simpa [isWs, or_assoc] using h

theorem Ends.ws_append {r : List Char} (hw : Ws w) (hrest : Ends r) :
    Ends (w ++ r) := by
  cases w with
  | nil => exact hrest
  | cons c w =>
    rintro c ⟨⟩
    obtain rfl | rfl | rfl | rfl := isWs_cases (hw _ (List.mem_cons_self ..))
    all_goals exact ⟨by decide, by decide, by decide, by decide⟩

theorem Number.head {q : ℚ} (h : Number text q) :
    ∃ c rest, text = c :: rest ∧ (c = '-' ∨ c.isDigit) := by
  obtain ⟨hs, hw, -, -⟩ := h
  cases hs with
  | minus => exact ⟨_, _, rfl, .inl rfl⟩
  | none =>
    obtain ⟨⟨hne, hdigit⟩, -⟩ := hw
    obtain ⟨c, text, rfl⟩ := List.exists_cons_of_ne_nil hne
    exact ⟨c, _, rfl, .inr (hdigit c (List.mem_cons_self ..))⟩

/-- The text of a value starts with neither white space nor a closing bracket or brace. -/
theorem Derives.head {v : Value} (h : Derives (.value v) text) :
    ∃ c rest, text = c :: rest ∧ isWs c = false ∧ c ≠ ']' := by
  cases h with
  | num h =>
    obtain ⟨c, rest, rfl, hc⟩ := h.head
    refine ⟨c, rest, rfl, Bool.eq_false_iff.mpr fun hws => ?_, ?_⟩
    · obtain rfl | rfl | rfl | rfl := isWs_cases hws
      all_goals exact absurd hc (by decide)
    · rintro rfl
      exact absurd hc (by decide)
  | str h =>
    obtain ⟨chars, rfl, -⟩ := h
    exact ⟨_, _, rfl, by decide, by decide⟩
  | _ => exact ⟨_, _, rfl, by decide, by decide⟩

theorem readValue_number {input rest : List Char} {q : ℚ}
    (hinput : input = c :: text) (hc : c = '-' ∨ c.isDigit) (h : number input = some (q, rest))
    (fuel : ℕ) : readValue (fuel + 1) input = some (.num q, rest) := by
  subst hinput
  have hne : ∀ d : Char, ¬ (d = '-' ∨ d.isDigit) → c ≠ d := fun d hd hcd => hd (hcd ▸ hc)
  simp [readValue, hne 'n' (by decide), hne 't' (by decide), hne 'f' (by decide),
    hne '"' (by decide), hne '[' (by decide), hne '\x7b' (by decide), h]

theorem readValue_array {fuel : ℕ} {input rest : List Char} {vs : List Value}
    (hinput : skipWs input = c :: text) (hc : c ≠ ']')
    (h : readElements fuel input = some (vs, rest)) :
    readValue (fuel + 1) ('[' :: input) = some (.arr vs, rest) := by
  simp [readValue, hinput, hc, h]

theorem readValue_object {fuel : ℕ} {input rest : List Char} {ms : List (String × Value)}
    (hinput : skipWs input = c :: text) (hc : c ≠ '\x7d')
    (h : readMembers fuel input = some (ms, rest)) :
    readValue (fuel + 1) ('\x7b' :: input) = some (.obj ms, rest) := by
  simp [readValue, hinput, hc, h]

/-- The parser reads a text of the symbol off the front of an input, given enough fuel. -/
def Symbol.Reads : Symbol → List Char → Prop
  | .value v, text => ∀ fuel rest, 2 * text.length ≤ fuel → Ends rest →
      readValue fuel (text ++ rest) = some (v, rest)
  | .elements vs, text => ∀ fuel rest, 2 * text.length < fuel →
      readElements fuel (text ++ ']' :: rest) = some (vs, rest)
  | .members ms, text => ∀ fuel rest, 2 * text.length < fuel →
      readMembers fuel (text ++ '\x7d' :: rest) = some (ms, rest)

theorem ends_cons {rest : List Char} (hc : c ∈ [',', ']', '\x7d']) :
    Ends (c :: rest) := by
  rintro c ⟨⟩
  simp only [List.mem_cons, List.not_mem_nil, or_false] at hc
  obtain rfl | rfl | rfl := hc <;> exact ⟨by decide, by decide, by decide, by decide⟩

theorem skipWs_separator (hw : Ws w) (hc : c ∈ [',', ':', ']', '\x7d'])
    (rest : List Char) : skipWs (w ++ c :: rest) = c :: rest := by
  apply skipWs_append hw
  rintro c ⟨⟩
  simp only [List.mem_cons, List.not_mem_nil, or_false] at hc
  obtain rfl | rfl | rfl | rfl := hc <;> decide

/-- A value between white space, up to what separates it from `rest`. -/
theorem readValue_between {n : ℕ} {w' : List Char} {v : Value} (hw : Ws w)
    (hv : Derives (.value v) text) (ih : (Symbol.value v).Reads text) (hw' : Ws w')
    (hc : c ∈ [',', ']', '\x7d']) (hfuel : 2 * text.length ≤ n) (rest : List Char) :
    readValue n (skipWs (w ++ (text ++ (w' ++ c :: rest)))) = some (v, w' ++ c :: rest) := by
  obtain ⟨first, tail, rfl, hfirst, -⟩ := hv.head
  rw [skipWs_append hw (by rintro _ ⟨⟩; exact hfirst)]
  exact ih n _ hfuel (.ws_append hw' (ends_cons hc))

theorem Derives.elements_head {vs : List Value}
    (h : Derives (.elements vs) text) :
    ∃ w c rest, Ws w ∧ text = w ++ c :: rest ∧ isWs c = false ∧ c ≠ ']' := by
  cases h with
  | element hw h _ | elements hw h _ _ =>
    obtain ⟨c, text, rfl, hc⟩ := h.head
    exact ⟨_, c, _, hw, rfl, hc⟩

theorem Derives.members_head {ms : List (String × Value)}
    (h : Derives (.members ms) text) : ∃ w rest, Ws w ∧ text = w ++ '"' :: rest := by
  cases h with
  | member hw hkey _ _ _ _ | members hw hkey _ _ _ _ _ =>
    obtain ⟨chars, rfl, -⟩ := hkey
    exact ⟨_, _, hw, rfl⟩

/-- The name of a member, up to its value. -/
theorem str_between {key : List Char} {k : String} (hw : Ws w) (hkey : Str key k) (w'
    rest : List Char) :
    str (skipWs (w ++ (key ++ (w' ++ ':' :: rest)))) = some (k, w' ++ ':' :: rest) := by
  have hread := str_append hkey (w' ++ ':' :: rest)
  obtain ⟨chars, rfl, -⟩ := hkey
  rw [skipWs_append hw (by rintro _ ⟨⟩; decide)]
  exact hread

theorem Derives.reads {symbol : Symbol} (h : Derives symbol text) :
    symbol.Reads text := by
  induction h with
  | litNull | litTrue | litFalse =>
    intro fuel rest hfuel hrest
    cases fuel with
    | zero => cases hfuel
    | succ fuel => rfl
  | num h =>
    intro fuel rest hfuel hrest
    obtain ⟨c, text, rfl, hc⟩ := h.head
    cases fuel with
    | zero => cases hfuel
    | succ fuel => exact readValue_number rfl hc (number_append h hrest) fuel
  | str h =>
    intro fuel rest hfuel hrest
    have hread := str_append h rest
    obtain ⟨chars, rfl, -⟩ := h
    cases fuel with
    | zero => cases hfuel
    | succ fuel =>
      have hread : Json.str ('"' :: (chars ++ ['"'] ++ rest)) = _ := hread
      rw [List.cons_append, readValue, hread]
      rfl
  | emptyArr hw =>
    intro fuel rest hfuel hrest
    cases fuel with
    | zero => cases hfuel
    | succ fuel =>
      simp [readValue, skipWs_append hw (r := ']' :: rest) (by rintro _ ⟨⟩; decide)]
  | emptyObj hw =>
    intro fuel rest hfuel hrest
    cases fuel with
    | zero => cases hfuel
    | succ fuel =>
      simp [readValue, skipWs_append hw (r := '\x7d' :: rest) (by rintro _ ⟨⟩; decide)]
  | arr h ih =>
    intro fuel rest hfuel hrest
    obtain ⟨w, c, tail, hw, htext, hc, hbracket⟩ := h.elements_head
    simp only [List.length_cons, List.length_append, List.length_nil] at hfuel
    obtain ⟨fuel, rfl⟩ : ∃ n, fuel = n + 1 := ⟨fuel - 1, by omega⟩
    rw [List.cons_append, List.append_assoc]
    apply readValue_array _ hbracket (ih fuel rest (by omega))
    · exact tail ++ ']' :: rest
    · rw [htext, List.append_assoc]
      exact skipWs_append hw (by rintro _ ⟨⟩; exact hc)
  | obj h ih =>
    intro fuel rest hfuel hrest
    obtain ⟨w, tail, hw, htext⟩ := h.members_head
    simp only [List.length_cons, List.length_append, List.length_nil] at hfuel
    obtain ⟨fuel, rfl⟩ : ∃ n, fuel = n + 1 := ⟨fuel - 1, by omega⟩
    rw [List.cons_append, List.append_assoc]
    apply readValue_object (c := '"') _ (by decide) (ih fuel rest (by omega))
    · exact tail ++ '\x7d' :: rest
    · rw [htext, List.append_assoc]
      exact skipWs_append hw (by rintro _ ⟨⟩; decide)
  | element hw h hw' ih =>
    intro fuel rest hfuel
    simp only [List.length_append] at hfuel
    obtain ⟨fuel, rfl⟩ : ∃ n, fuel = n + 1 := ⟨fuel - 1, by omega⟩
    have hread := readValue_between (c := ']') (n := fuel) hw h ih hw' (by simp) (by omega)
    have hskip := skipWs_separator (c := ']') hw' (by simp)
    simp only [List.append_assoc]
    simp [readElements, hread, hskip]
  | elements hw h hw' _ ih ihrest =>
    intro fuel rest hfuel
    simp only [List.length_append, List.length_cons] at hfuel
    obtain ⟨fuel, rfl⟩ : ∃ n, fuel = n + 1 := ⟨fuel - 1, by omega⟩
    have hread := readValue_between (c := ',') (n := fuel) hw h ih hw' (by simp) (by omega)
    have hskip := skipWs_separator (c := ',') hw' (by simp)
    simp only [List.append_assoc, List.cons_append]
    simp [readElements, hread, hskip, ihrest fuel rest (by omega)]
  | member hw hkey hw' hw'' h hw''' ih =>
    intro fuel rest hfuel
    simp only [List.length_append, List.length_cons] at hfuel
    obtain ⟨fuel, rfl⟩ : ∃ n, fuel = n + 1 := ⟨fuel - 1, by omega⟩
    have hname := str_between hw hkey
    have hcolon := skipWs_separator (c := ':') hw' (by simp)
    have hread := readValue_between (c := '\x7d') (n := fuel) hw'' h ih hw''' (by simp)
      (by omega)
    have hskip := skipWs_separator (c := '\x7d') hw''' (by simp)
    simp only [List.append_assoc, List.cons_append]
    simp [readMembers, hname, hcolon, hread, hskip]
  | members hw hkey hw' hw'' h hw''' _ ih ihrest =>
    intro fuel rest hfuel
    simp only [List.length_append, List.length_cons] at hfuel
    obtain ⟨fuel, rfl⟩ : ∃ n, fuel = n + 1 := ⟨fuel - 1, by omega⟩
    have hname := str_between hw hkey
    have hcolon := skipWs_separator (c := ':') hw' (by simp)
    have hread := readValue_between (c := ',') (n := fuel) hw'' h ih hw''' (by simp) (by omega)
    have hskip := skipWs_separator (c := ',') hw''' (by simp)
    simp only [List.append_assoc, List.cons_append]
    simp [readMembers, hname, hcolon, hread, hskip, ihrest fuel rest (by omega)]

/-- What the readers have read off the front of an input is a text of the symbol. -/
structure ReadsTexts (fuel : ℕ) : Prop where
  value {input v rest} : readValue fuel input = some (v, rest) →
    ∃ text, Derives (.value v) text ∧ input = text ++ rest
  elements {input vs rest} : readElements fuel input = some (vs, rest) →
    ∃ text, Derives (.elements vs) text ∧ input = text ++ ']' :: rest
  members {input ms rest} : readMembers fuel input = some (ms, rest) →
    ∃ text, Derives (.members ms) text ∧ input = text ++ '\x7d' :: rest

namespace ReadsTexts

variable {fuel : ℕ} {input rest : List Char}

theorem value_succ (ih : ReadsTexts fuel) {v : Value}
    (h : readValue (fuel + 1) input = some (v, rest)) :
    ∃ text, Derives (.value v) text ∧ input = text ++ rest := by
  unfold readValue at h
  split at h
  · cases h
    exact ⟨_, .litNull, rfl⟩
  · cases h
    exact ⟨_, .litTrue, rfl⟩
  · cases h
    exact ⟨_, .litFalse, rfl⟩
  · simp only [Option.map_eq_some_iff] at h
    obtain ⟨⟨s, rest'⟩, hs, h⟩ := h
    cases h
    obtain ⟨text, hstr, happ⟩ := str_eq_some hs
    exact ⟨text, .str hstr, happ⟩
  · rename_i input
    obtain ⟨w, hw, happ⟩ := skipWs_spec input
    split at h
    case h_1 hskip =>
      cases h
      exact ⟨_, .emptyArr hw, by rw [happ, hskip]; simp⟩
    · simp only [Option.map_eq_some_iff] at h
      obtain ⟨⟨vs, rest'⟩, hvs, h⟩ := h
      cases h
      obtain ⟨text, hderives, rfl⟩ := ih.elements hvs
      exact ⟨_, .arr hderives, by simp⟩
  · rename_i input
    obtain ⟨w, hw, happ⟩ := skipWs_spec input
    split at h
    case h_1 hskip =>
      cases h
      exact ⟨_, .emptyObj hw, by rw [happ, hskip]; simp⟩
    · simp only [Option.map_eq_some_iff] at h
      obtain ⟨⟨ms, rest'⟩, hms, h⟩ := h
      cases h
      obtain ⟨text, hderives, rfl⟩ := ih.members hms
      exact ⟨_, .obj hderives, by simp⟩
  · simp only [Option.map_eq_some_iff] at h
    obtain ⟨⟨q, rest'⟩, hq, h⟩ := h
    cases h
    obtain ⟨text, hnumber, happ⟩ := number_eq_some hq
    exact ⟨text, .num hnumber, happ⟩

theorem elements_succ (ih : ReadsTexts fuel) {vs : List Value}
    (h : readElements (fuel + 1) input = some (vs, rest)) :
    ∃ text, Derives (.elements vs) text ∧ input = text ++ ']' :: rest := by
  simp only [readElements, Option.bind_eq_bind, Option.bind_eq_some_iff] at h
  obtain ⟨⟨v, input'⟩, hv, h⟩ := h
  obtain ⟨w, hw, happ⟩ := skipWs_spec input
  obtain ⟨text, hderives, happ'⟩ := ih.value hv
  obtain ⟨w', hw', happ''⟩ := skipWs_spec input'
  rw [happ, happ', happ'']
  simp only at h
  split at h
  case h_1 hskip =>
    simp only [Option.bind_eq_some_iff] at h
    obtain ⟨⟨vs', rest'⟩, hvs, h⟩ := h
    cases h
    obtain ⟨tail, htail, rfl⟩ := ih.elements hvs
    exact ⟨_, .elements hw hderives hw' htail, by rw [hskip]; simp⟩
  case h_2 hskip =>
    cases h
    exact ⟨_, .element hw hderives hw', by rw [hskip]; simp⟩
  · cases h

theorem members_succ (ih : ReadsTexts fuel) {ms : List (String × Value)}
    (h : readMembers (fuel + 1) input = some (ms, rest)) :
    ∃ text, Derives (.members ms) text ∧ input = text ++ '\x7d' :: rest := by
  simp only [readMembers, Option.bind_eq_bind, Option.bind_eq_some_iff] at h
  obtain ⟨⟨k, input'⟩, hk, h⟩ := h
  obtain ⟨w, hw, happ⟩ := skipWs_spec input
  obtain ⟨key, hkey, happ'⟩ := str_eq_some hk
  obtain ⟨w', hw', happ''⟩ := skipWs_spec input'
  rw [happ, happ', happ'']
  simp only at h
  split at h
  case h_2 => cases h
  rename_i input₁ hcolon
  simp only [Option.bind_eq_some_iff] at h
  obtain ⟨⟨v, input₂⟩, hv, h⟩ := h
  obtain ⟨w₁, hw₁, happ₁⟩ := skipWs_spec input₁
  obtain ⟨text, hderives, happ₂⟩ := ih.value hv
  obtain ⟨w₂, hw₂, happ₃⟩ := skipWs_spec input₂
  rw [hcolon, happ₁, happ₂, happ₃]
  simp only at h
  split at h
  case h_1 hskip =>
    simp only [Option.bind_eq_some_iff] at h
    obtain ⟨⟨ms', rest'⟩, hms, h⟩ := h
    cases h
    obtain ⟨tail, htail, rfl⟩ := ih.members hms
    exact ⟨_, .members hw hkey hw' hw₁ hderives hw₂ htail, by rw [hskip]; simp⟩
  case h_2 hskip =>
    cases h
    exact ⟨_, .member hw hkey hw' hw₁ hderives hw₂, by rw [hskip]; simp⟩
  · cases h

end ReadsTexts

theorem readsTexts (fuel : ℕ) : ReadsTexts fuel := by
  induction fuel with
  | zero =>
    constructor
    all_goals
      intro _ _ _ h
      cases h
  | succ fuel ih => exact ⟨ih.value_succ, ih.elements_succ, ih.members_succ⟩

theorem parse_eq_some {text : List Char} {v : Value} : parse text = some v ↔ Document text v := by
  simp only [parse, Option.bind_eq_bind, Option.bind_eq_some_iff]
  constructor
  · rintro ⟨⟨v', rest⟩, hv, h⟩
    split at h
    case isFalse => cases h
    case isTrue hskip =>
    cases h
    obtain ⟨w, hw, happ⟩ := skipWs_spec text
    obtain ⟨body, hbody, happ'⟩ := (readsTexts _).value hv
    obtain ⟨w', hw', happ''⟩ := skipWs_spec rest
    refine ⟨w, body, w', hw, hbody, hw', ?_⟩
    rw [happ, happ', happ'', hskip, List.append_nil]
  · rintro ⟨w, body, w', hw, hbody, hw', rfl⟩
    have hread := hbody.reads
    have hends : Ends w' := by simpa using Ends.ws_append hw' (r := []) (by rintro _ ⟨⟩)
    have hskip : skipWs w' = [] := by simpa using skipWs_append hw' (r := []) (by rintro _ ⟨⟩)
    refine ⟨(v, w'), ?_, by simp [hskip]⟩
    obtain ⟨c, tail, rfl, hc, -⟩ := hbody.head
    rw [skipWs_append hw (by rintro _ ⟨⟩; exact hc)]
    apply hread _ _ _ hends
    simp only [List.length_append]
    omega

theorem Document.unique {text : List Char} {v v' : Value} (h : Document text v)
    (h' : Document text v') : v = v' :=
  Option.some.inj ((parse_eq_some.mpr h).symm.trans (parse_eq_some.mpr h'))

end Json
