import Mathlib.Data.List.TakeWhile
import ChiaVdf.ByteString

/-! Decimal numbers in byte strings, as `strtoul` reads them. -/
namespace ChiaVdf.CString

def isDigit (c : UInt8) : Bool := 48 ≤ c ∧ c ≤ 57

def isSpace (c : UInt8) : Bool := c = 32 ∨ 9 ≤ c ∧ c ≤ 13

def digit (c : UInt8) : ℕ := c.toNat - 48

/-- The number that `digits` continue. -/
def decimalFrom (n : ℕ) (digits : ByteString) : ℕ := digits.foldl (fun n c => n * 10 + digit c) n

def decimal (digits : ByteString) : ℕ := decimalFrom 0 digits

def ULONG_MAX : ℕ := 2 ^ 64 - 1

/-- What follows white space and a sign. -/
def unsigned (s : ByteString) : ByteString :=
  let s := s.dropWhile isSpace
  if s.head? = some 45 ∨ s.head? = some 43 then s.tail else s

/-- The digits end inside `s`, so that nothing behind it is read. -/
def terminated (s : ByteString) : Bool := ((unsigned s).takeWhile isDigit).length < (unsigned s).length

/-- `strtoul` in base ten: white space, a sign, and as many digits as follow. A number that is too large is
replaced by the largest one, and a minus sign is applied in `unsigned long`. -/
def strtoul (s : ByteString) : ℕ :=
  let n := decimal ((unsigned s).takeWhile isDigit)
  if n > ULONG_MAX then ULONG_MAX
  else if (s.dropWhile isSpace).head? = some 45 then (2 ^ 64 - n) % 2 ^ 64
  else n

section Decimal

variable {s : ByteString} {n m : ℕ} {c : UInt8}

@[simp] theorem decimalFrom_nil (n : ℕ) : decimalFrom n [] = n := by
  rw [decimalFrom, List.foldl_nil]

@[simp] theorem decimalFrom_cons (n : ℕ) (c : UInt8) (s : ByteString) :
    decimalFrom n (c :: s) = decimalFrom (n * 10 + digit c) s := by
  rw [decimalFrom, List.foldl_cons, ← decimalFrom]

theorem isDigit_iff : isDigit c = true ↔ 48 ≤ c.toNat ∧ c.toNat ≤ 57 := by
  simp [isDigit, UInt8.le_iff_toNat_le]

theorem le_decimalFrom (n : ℕ) (s : ByteString) : n ≤ decimalFrom n s := by
  induction s generalizing n with
  | nil => simp
  | cons c s ih =>
    have := ih (n * 10 + digit c)
    rw [decimalFrom_cons]
    omega

theorem not_space_of_digit (is_digit : isDigit c = true) : isSpace c = false := by
  have bounds := isDigit_iff.mp is_digit
  simp only [isSpace, decide_eq_false_iff_not, not_or, not_and, UInt8.le_iff_toNat_le]
  constructor
  · rintro rfl
    simp at bounds
  · intro _
    have : (13 : UInt8).toNat = 13 := rfl
    omega

/-- A string of digits only is read as the number it stands for. -/
theorem strtoul_digits (digits : ∀ c ∈ s, isDigit c = true) (fits : decimal s < 2 ^ 64) :
    strtoul s = decimal s := by
  have start : s.dropWhile isSpace = s := by
    cases s with
    | nil => rfl
    | cons c s => simp [not_space_of_digit (digits c List.mem_cons_self)]
  have whole : s.takeWhile isDigit = s := List.takeWhile_eq_self_iff.mpr digits
  have signless : ¬s.head? = some 45 ∧ ¬s.head? = some 43 := by
    constructor
    all_goals
      intro sign
      have := isDigit_iff.mp (digits _ (List.mem_of_head? sign))
      simp at this
  simp only [strtoul, unsigned, start, signless, or_self, if_false, whole, ULONG_MAX]
  rw [if_neg (by omega)]

end Decimal

end ChiaVdf.CString
