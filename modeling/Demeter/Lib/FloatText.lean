import Mathlib.Algebra.Ring.Nat
import Mathlib.Data.List.Basic

/-!
# Doubles as decimal text

The text of a double with six decimals, as the format `%f` prints it, and the double that such a
text is read as.

* `toText` prints: the exact value in millionths, rounded to even;
* `ofText` reads: the nearest double of a decimal number;
* `ReadsBack` says that nothing is lost, which is decidable.
-/

namespace FloatText

open Float.Model Float.Model.UnpackedFloat

/-! ### Printing -/

/-- The quotient, rounded to the nearest number and to even in the middle. -/
def divEven (a b : ℕ) : ℕ :=
  if 2 * (a % b) < b ∨ (2 * (a % b) = b ∧ a / b % 2 = 0) then a / b else a / b + 1

/-- The number `m * 2 ^ e` in millionths. -/
def millionths (m : ℕ) : ℤ → ℕ
  | Int.ofNat k => m * 2 ^ k * 10 ^ 6
  | Int.negSucc k => divEven (m * 10 ^ 6) (2 ^ (k + 1))

/-- The last `k` digits. -/
def lastDigits : ℕ → ℕ → List Char
  | 0, _ => []
  | k + 1, n => lastDigits k (n / 10) ++ [Nat.digitChar (n % 10)]

/-- A number of millionths, with six digits after the point. -/
def decimalText (n : ℕ) : List Char := Nat.toDigits 10 (n / 10 ^ 6) ++ '.' :: lastDigits 6 n

/-- A minus, or nothing. -/
def signText : Sign → List Char
  | .negative => ['-']
  | .positive => []

/-- The text of the format `%f`. -/
def toText (x : Float) : List Char :=
  match x.toModel.unpack with
  | .notANumber => ['n', 'a', 'n']
  | .infinity s => signText s ++ ['i', 'n', 'f']
  | .zero s => signText s ++ decimalText 0
  | .finite s m e _ => signText s ++ decimalText (millionths m e)

/-! ### Reading -/

/-- Digits, a point and digits. -/
def ofDecimal (text : List Char) : Option Float :=
  let whole := text.takeWhile Char.isDigit
  match text.dropWhile Char.isDigit with
  | '.' :: fraction =>
      if whole ≠ [] ∧ fraction.all Char.isDigit then
        some (Float.ofScientific (Nat.ofDigitChars 10 (whole ++ fraction) 0) true fraction.length)
      else none
  | _ => none

/-- A text without its sign. -/
def ofMagnitude (text : List Char) : Option Float :=
  if text = ['n', 'a', 'n'] then some (0 / 0)
  else if text = ['i', 'n', 'f'] then some (1 / 0)
  else ofDecimal text

/-- A text that is not a number gives `none`. -/
def ofText : List Char → Option Float
  | '-' :: text => (ofMagnitude text).map fun x => -x
  | text => ofMagnitude text

/-- The text of the double is read as this double. -/
def ReadsBack (x : Float) : Prop := ofText (toText x) = some x

instance (x : Float) : Decidable (ReadsBack x) := inferInstanceAs (Decidable (_ = _))

example : ReadsBack 0.1 := by decide +kernel

example : ¬ ReadsBack 4e-7 := by decide +kernel

/-! ### The characters of a text -/

theorem isDigit_of_mem_lastDigits {k n : ℕ} {c : Char} (h : c ∈ lastDigits k n) : c.isDigit := by
  induction k generalizing n with
  | zero => cases h
  | succ k ih =>
    obtain h | h := List.mem_append.1 h
    · exact ih h
    · rw [List.mem_singleton.1 h, Nat.isDigit_digitChar]
      exact decide_eq_true (Nat.mod_lt n (by decide))

theorem mem_decimalText {n : ℕ} {c : Char} (h : c ∈ decimalText n) : c.isDigit ∨ c = '.' := by
  obtain h | h := List.mem_append.1 h
  · exact .inl (Nat.isDigit_of_mem_toDigits (by decide) (by decide) h)
  · obtain h | h := List.mem_cons.1 h
    · exact .inr h
    · exact .inl (isDigit_of_mem_lastDigits h)

/-- A text has digits and a few other characters. -/
theorem mem_toText {x : Float} {c : Char} (h : c ∈ toText x) :
    c.isDigit ∨ c ∈ ['-', '.', 'n', 'a', 'i', 'f'] := by
  have hsign : ∀ {s : Sign} {text : List Char}, c ∈ signText s ++ text → c = '-' ∨ c ∈ text := by
    intro s text hmem
    cases s with
    | negative => exact List.mem_cons.1 hmem
    | positive => exact .inr hmem
  have hdecimal : ∀ {n : ℕ}, c ∈ decimalText n →
      c.isDigit ∨ c ∈ ['-', '.', 'n', 'a', 'i', 'f'] := fun hmem =>
    (mem_decimalText hmem).imp_right fun hpoint => by simp [hpoint]
  rw [toText] at h
  split at h
  · refine .inr ?_
    simp only [List.mem_cons, List.not_mem_nil, or_false] at h ⊢
    tauto
  · refine .inr ?_
    obtain hminus | h := hsign h
    · simp [hminus]
    · simp only [List.mem_cons, List.not_mem_nil, or_false] at h ⊢
      tauto
  · obtain hminus | h := hsign h
    · simp [hminus]
    · exact hdecimal h
  · obtain hminus | h := hsign h
    · simp [hminus]
    · exact hdecimal h

end FloatText
