import Mathlib.Data.Rat.Cast.Defs
import Mathlib.Tactic.IntervalCases

/-!
# The JSON grammar

The grammar of RFC 8259 as a relation between a text and the value it denotes. A number is its
exact value and a string the characters it stands for; an unpaired surrogate escape, which stands
for no character, has no value here.
-/

namespace Json

inductive Value where
  | null
  | bool (value : Bool)
  | num (value : ℚ)
  | str (value : String)
  | arr (items : List Value)
  | obj (members : List (String × Value))

def isWs (c : Char) : Bool := c == ' ' || c == '\t' || c == '\n' || c == '\r'

def Ws (text : List Char) : Prop := ∀ c ∈ text, isWs c

def Digits (text : List Char) : Prop := text ≠ [] ∧ ∀ c ∈ text, c.isDigit

def decimal (digits : List Char) : ℕ := Nat.ofDigitChars 10 digits 0

/-- No leading zero but in `0` itself. -/
def Whole (text : List Char) : Prop := Digits text ∧ (text.head? = some '0' → text = ['0'])

inductive Sign : List Char → ℤ → Prop
  | none : Sign [] 1
  | minus : Sign ['-'] (-1)

inductive Fraction : List Char → ℚ → Prop
  | none : Fraction [] 0
  | digits {text : List Char} (h : Digits text) :
      Fraction ('.' :: text) (decimal text / 10 ^ text.length)

inductive Exponent : List Char → ℤ → Prop
  | none : Exponent [] 0
  | digits {e : Char} {sign text : List Char} {s : ℤ} (he : e = 'e' ∨ e = 'E')
      (hsign : Sign sign s ∨ sign = ['+'] ∧ s = 1) (h : Digits text) :
      Exponent (e :: (sign ++ text)) (s * decimal text)

inductive Number : List Char → ℚ → Prop
  | mk {sign whole fraction exponent : List Char} {s e : ℤ} {f : ℚ} (hs : Sign sign s)
      (hw : Whole whole) (hf : Fraction fraction f) (he : Exponent exponent e) :
      Number (sign ++ (whole ++ (fraction ++ exponent))) (s * (decimal whole + f) * 10 ^ e)

def hexDigit? (c : Char) : Option ℕ :=
  if c.isDigit then some (c.toNat - '0'.toNat)
  else if 'a' ≤ c ∧ c ≤ 'f' then some (c.toNat - 'a'.toNat + 10)
  else if 'A' ≤ c ∧ c ≤ 'F' then some (c.toNat - 'A'.toNat + 10)
  else none

def hex4? (a b c d : Char) : Option ℕ := do
  return (((← hexDigit? a) * 16 + (← hexDigit? b)) * 16 + (← hexDigit? c)) * 16 + (← hexDigit? d)

/-- The character after a backslash, and the one it stands for. -/
def escape? : Char → Option Char
  | '"' => some '"'
  | '\\' => some '\\'
  | '/' => some '/'
  | 'b' => some '\x08'
  | 'f' => some '\x0c'
  | 'n' => some '\n'
  | 'r' => some '\r'
  | 't' => some '\t'
  | _ => none

def isUnescaped (c : Char) : Bool := 0x20 ≤ c.toNat && c != '"' && c != '\\'

def isHighSurrogate (unit : ℕ) : Bool := 0xd800 ≤ unit && unit < 0xdc00

def isLowSurrogate (unit : ℕ) : Bool := 0xdc00 ≤ unit && unit < 0xe000

def pairedSurrogates (high low : ℕ) : ℕ := 0x10000 + (high - 0xd800) * 0x400 + (low - 0xdc00)

inductive Character : List Char → Char → Prop
  | unescaped {c : Char} (h : isUnescaped c) : Character [c] c
  | escaped {e c : Char} (h : escape? e = some c) : Character ['\\', e] c
  | unicode {a b c d : Char} {unit : ℕ} (h : hex4? a b c d = some unit)
      (hhigh : isHighSurrogate unit = false) (hlow : isLowSurrogate unit = false) :
      Character ['\\', 'u', a, b, c, d] (Char.ofNat unit)
  | surrogates {a b c d a' b' c' d' : Char} {high low : ℕ} (h : hex4? a b c d = some high)
      (h' : hex4? a' b' c' d' = some low) (hhigh : isHighSurrogate high)
      (hlow : isLowSurrogate low) :
      Character ['\\', 'u', a, b, c, d, '\\', 'u', a', b', c', d']
        (Char.ofNat (pairedSurrogates high low))

/-- What stands between the quotation marks. -/
inductive Chars : List Char → List Char → Prop
  | nil : Chars [] []
  | cons {text rest : List Char} {c : Char} {cs : List Char} (h : Character text c)
      (hrest : Chars rest cs) : Chars (text ++ rest) (c :: cs)

def Str (text : List Char) (value : String) : Prop :=
  ∃ chars, text = '"' :: (chars ++ ['"']) ∧ Chars chars value.toList

/-- The recursive nonterminals of the grammar with what they denote: a value, what stands between
the brackets of a nonempty array, and between the braces of a nonempty object. -/
inductive Symbol where
  | value (v : Value)
  | elements (vs : List Value)
  | members (ms : List (String × Value))

inductive Derives : Symbol → List Char → Prop
  | litNull : Derives (.value .null) ['n', 'u', 'l', 'l']
  | litTrue : Derives (.value (.bool true)) ['t', 'r', 'u', 'e']
  | litFalse : Derives (.value (.bool false)) ['f', 'a', 'l', 's', 'e']
  | num {text : List Char} {q : ℚ} (h : Number text q) : Derives (.value (.num q)) text
  | str {text : List Char} {s : String} (h : Str text s) : Derives (.value (.str s)) text
  | emptyArr {w : List Char} (hw : Ws w) : Derives (.value (.arr [])) ('[' :: (w ++ [']']))
  | arr {text : List Char} {vs : List Value} (h : Derives (.elements vs) text) :
      Derives (.value (.arr vs)) ('[' :: (text ++ [']']))
  | emptyObj {w : List Char} (hw : Ws w) :
      Derives (.value (.obj [])) ('\x7b' :: (w ++ ['\x7d']))
  | obj {text : List Char} {ms : List (String × Value)} (h : Derives (.members ms) text) :
      Derives (.value (.obj ms)) ('\x7b' :: (text ++ ['\x7d']))
  | element {w text w' : List Char} {v : Value} (hw : Ws w) (h : Derives (.value v) text)
      (hw' : Ws w') : Derives (.elements [v]) (w ++ (text ++ w'))
  | elements {w text w₁ rest : List Char} {v : Value} {vs : List Value} (hw : Ws w)
      (h : Derives (.value v) text) (hw₁ : Ws w₁) (hrest : Derives (.elements vs) rest) :
      Derives (.elements (v :: vs)) (w ++ (text ++ (w₁ ++ ',' :: rest)))
  | member {w key w₁ w₂ text w₃ : List Char} {k : String} {v : Value} (hw : Ws w)
      (hkey : Str key k) (hw₁ : Ws w₁) (hw₂ : Ws w₂) (h : Derives (.value v) text)
      (hw₃ : Ws w₃) :
      Derives (.members [(k, v)]) (w ++ (key ++ (w₁ ++ ':' :: (w₂ ++ (text ++ w₃)))))
  | members {w key w₁ w₂ text w₃ rest : List Char} {k : String} {v : Value}
      {ms : List (String × Value)} (hw : Ws w) (hkey : Str key k) (hw₁ : Ws w₁) (hw₂ : Ws w₂)
      (h : Derives (.value v) text) (hw₃ : Ws w₃) (hrest : Derives (.members ms) rest) :
      Derives (.members ((k, v) :: ms))
        (w ++ (key ++ (w₁ ++ ':' :: (w₂ ++ (text ++ (w₃ ++ ',' :: rest))))))

/-- A JSON text: one value, with white space around it. -/
def Document (text : List Char) (v : Value) : Prop :=
  ∃ w value w', Ws w ∧ Derives (.value v) value ∧ Ws w' ∧ text = w ++ (value ++ w')

@[simp] theorem ws_nil : Ws [] := by simp [Ws]

theorem Derives.document {text : List Char} {v : Value} (h : Derives (.value v) text) :
    Document text v :=
  ⟨[], text, [], ws_nil, h, ws_nil, by simp⟩

theorem digits_toDigits (n : ℕ) : Digits (Nat.toDigits 10 n) :=
  ⟨Nat.toDigits_ne_nil, fun _ hc => Nat.isDigit_of_mem_toDigits (by decide) (by decide) hc⟩

theorem head?_toDigits_ne_zero {n : ℕ} (hn : 0 < n) : (Nat.toDigits 10 n).head? ≠ some '0' := by
  induction n using Nat.strongRecOn with
  | ind n ih =>
    by_cases hlt : n < 10
    · rw [Nat.toDigits_of_lt_base hlt]
      interval_cases n <;> decide
    · rw [Nat.toDigits_of_base_le (by decide) (by omega)]
      have hhead := ih (n / 10) (by omega) (by omega)
      rw [List.head?_append]
      cases hd : (Nat.toDigits 10 (n / 10)).head? with
      | none => exact absurd (List.head?_eq_none_iff.mp hd) Nat.toDigits_ne_nil
      | some c => rwa [hd] at hhead

theorem whole_toDigits (n : ℕ) : Whole (Nat.toDigits 10 n) := by
  refine ⟨digits_toDigits n, fun h => ?_⟩
  obtain rfl | hn := Nat.eq_zero_or_pos n
  · rw [Nat.toDigits_zero]
  · exact absurd h (head?_toDigits_ne_zero hn)

theorem number_natCast (n : ℕ) : Number (Nat.toDigits 10 n) n := by
  have h := Number.mk .none (whole_toDigits n) .none .none
  simpa [decimal, Nat.ofDigitChars_ten_toDigits] using h

theorem number_neg_natCast (n : ℕ) : Number ('-' :: Nat.toDigits 10 n) (-n) := by
  have h := Number.mk .minus (whole_toDigits n) .none .none
  simpa [decimal, Nat.ofDigitChars_ten_toDigits] using h

theorem str_of_unescaped {chars : List Char} (h : chars.all isUnescaped) :
    Str ('"' :: (chars ++ ['"'])) (String.ofList chars) := by
  refine ⟨chars, rfl, ?_⟩
  rw [String.toList_ofList]
  induction chars with
  | nil => exact .nil
  | cons c chars ih =>
    rw [List.all_cons, Bool.and_eq_true] at h
    exact .cons (.unescaped h.1) (ih h.2)

structure Rendered where
  value : Value
  text : List Char
  derives : Derives (.value value) text

namespace Rendered

def null : Rendered := ⟨.null, _, .litNull⟩

def bool : Bool → Rendered
  | true => ⟨.bool true, _, .litTrue⟩
  | false => ⟨.bool false, _, .litFalse⟩

def natural (n : ℕ) : Rendered := ⟨.num n, _, .num (number_natCast n)⟩

def integer : ℤ → Rendered
  | .ofNat n => natural n
  | .negSucc n => ⟨.num (-((n + 1 : ℕ) : ℚ)), _, .num (number_neg_natCast (n + 1))⟩

/-- A string that needs no escape. -/
def plain (s : String) (h : s.toList.all isUnescaped := by simp [Json.isUnescaped]) :
    Rendered where
  value := .str s
  text := '"' :: (s.toList ++ ['"'])
  derives := by simpa using Derives.str (str_of_unescaped h)

def elements : List Rendered → List Char
  | [] => []
  | [item] => item.text
  | item :: items => item.text ++ ',' :: elements items

theorem derives_elements {items : List Rendered} (hne : items ≠ []) :
    Derives (.elements (items.map value)) (elements items) := by
  induction items with
  | nil => exact absurd rfl hne
  | cons item items ih =>
    cases items with
    | nil => simpa [elements] using Derives.element ws_nil item.derives ws_nil
    | cons item' items =>
      exact Derives.elements ws_nil item.derives ws_nil (ih (List.cons_ne_nil _ _))

def array (items : List Rendered) : Rendered where
  value := .arr (items.map value)
  text := '[' :: (elements items ++ [']'])
  derives := by
    cases items with
    | nil => exact .emptyArr ws_nil
    | cons item items => exact .arr (derives_elements (List.cons_ne_nil _ _))

def member (name : String) (item : Rendered) : List Char :=
  '"' :: (name.toList ++ '"' :: ':' :: item.text)

def members : List (String × Rendered) → List Char
  | [] => []
  | [(name, item)] => member name item
  | (name, item) :: rest => member name item ++ ',' :: members rest

theorem derives_members {items : List (String × Rendered)} (hne : items ≠ [])
    (hplain : items.all fun item => item.1.toList.all isUnescaped) :
    Derives (.members (items.map fun item => (item.1, item.2.value))) (members items) := by
  induction items with
  | nil => exact absurd rfl hne
  | cons item items ih =>
    obtain ⟨name, item⟩ := item
    rw [List.all_cons, Bool.and_eq_true] at hplain
    have hname := str_of_unescaped hplain.1
    rw [String.ofList_toList] at hname
    cases items with
    | nil => simpa [members, member] using Derives.member ws_nil hname ws_nil ws_nil item.derives ws_nil
    | cons item' items =>
      have h := Derives.members ws_nil hname ws_nil ws_nil item.derives ws_nil
        (ih (List.cons_ne_nil _ _) hplain.2)
      simpa [members, member] using h

def object (items : List (String × Rendered))
    (plain : items.all fun item => item.1.toList.all isUnescaped := by
      simp [Json.isUnescaped]) :
    Rendered where
  value := .obj (items.map fun item => (item.1, item.2.value))
  text := '\x7b' :: (members items ++ ['\x7d'])
  derives := by
    cases items with
    | nil => exact .emptyObj ws_nil
    | cons item items => exact .obj (derives_members (List.cons_ne_nil _ _) plain)

end Rendered

end Json
