import ChiaVdf.CString
import ChiaVdf.HwMessage

/-! Numbers as text: `integer::to_string` writes them with a sign in front of the base, and the constructor of
`integer` from a string reads what follows its prefix. -/
namespace ChiaVdf

/-- The characters of digits, lower case. -/
def digitChar (d : ℕ) : UInt8 := if d < 10 then UInt8.ofNat (48 + d) else UInt8.ofNat (87 + d)

/-- The value of a character as a digit of some base. -/
def digitValue (c : UInt8) : Option ℕ :=
  if 48 ≤ c ∧ c ≤ 57 then some (c.toNat - 48)
  else if 97 ≤ c ∧ c ≤ 122 then some (c.toNat - 87)
  else if 65 ≤ c ∧ c ≤ 90 then some (c.toNat - 55)
  else none

/-- The digits of a number, the highest first; zero has one. -/
def digitText (base n : ℕ) : ByteString :=
  if n = 0 then [48] else (base.digits n).reverse.map digitChar

/-- `mpz_get_str`, with the zero at its end. -/
def mpzGetStr (base : ℕ) (n : ℤ) : ByteString := (if n < 0 then [45] else []) ++ digitText base n.natAbs ++ [0]

/-- `mpz_sizeinbase` for the bases that are powers of two. -/
def mpzSizeinbase (base : ℕ) (n : ℤ) : ℕ := if n = 0 then 1 else (base.digits n.natAbs).length

/-- What a `char` pointer to a string shows. -/
def cStr (s : ByteString) : ByteString := s.takeWhile (· ≠ 0)

/-- `integer::to_string`. -/
def integerToString (n : ℤ) : Exec ByteString := do
  let resString : ByteString := [48, 120] ++ List.replicate (mpzSizeinbase 16 n + 2) 0
  let resString ← HwMessage.blit resString 2 (mpzGetStr 16 n)
  let resString := if resString.take 3 = [48, 120, 45] then [45, 48, 120] ++ resString.drop 3 else resString
  return cStr resString

/-- The number that `digits` continue. -/
def parseDigits (base : ℕ) : ℕ → ByteString → Option ℕ
  | n, [] => some n
  | n, c :: digits =>
    match digitValue c with
    | some d => if d < base then parseDigits base (n * base + d) digits else none
    | none => none

/-- The base and the digits of an unsigned number of which the prefix tells the base. -/
def basePrefix : ByteString → ℕ × ByteString
  | 48 :: c :: rest =>
    if c = 120 ∨ c = 88 then (16, rest) else if c = 98 ∨ c = 66 then (2, rest) else (8, c :: rest)
  | [48] => (8, [])
  | s => (10, s)

/-- `mpz_set_str` with base zero: white space in front and between the digits is skipped. -/
def mpzSetStr (s : ByteString) : Option ℤ :=
  let s := s.dropWhile CString.isSpace
  let negative : Bool := s.head? = some 45
  let s := if negative then s.tail else s
  if ((s.head?.bind digitValue).getD 10) ≥ 10 then none
  else
    let (base, digits) := basePrefix s
    (parseDigits base 0 (digits.filter fun c => !CString.isSpace c)).map fun n => if negative then -(n : ℤ) else n

/-- `integer(const string&)`. -/
def integerOfString (s : ByteString) : Exec ℤ :=
  match mpzSetStr (cStr s) with
  | some n => .done n
  | none => .fault .assertion

section Digits

variable {base n m d : ℕ}

theorem digitValue_digitChar (small : d < 16) : digitValue (digitChar d) = some d := by
  interval_cases d <;> rfl

theorem digitChar_plain (small : d < 16) :
    CString.isSpace (digitChar d) = false ∧ digitChar d ≠ 0 ∧ digitChar d ≠ 45 := by
  interval_cases d <;> decide

theorem parseDigits_chars (le : base ≤ 16) {digits : List ℕ} (small : ∀ d ∈ digits, d < base) (n : ℕ) :
    parseDigits base n (digits.map digitChar) = some (digits.foldl (fun n d => n * base + d) n) := by
  induction digits generalizing n with
  | nil => rfl
  | cons d digits ih =>
    have d_lt := small d (by simp)
    have rest := ih (fun e inside => small e (by simp [inside])) (n * base + d)
    simp [parseDigits, digitValue_digitChar (d_lt.trans_le le), d_lt, rest]

theorem parseDigits_text (two : 2 ≤ base) (le : base ≤ 16) (n : ℕ) :
    parseDigits base 0 (digitText base n) = some n := by
  cases n with
  | zero => simp [digitText, parseDigits, digitValue, show 0 < base by omega]
  | succ n =>
    have small : ∀ d ∈ (base.digits (n + 1)).reverse, d < base := fun d inside =>
      Nat.digits_lt_base two (List.mem_reverse.mp inside)
    have folded : (base.digits (n + 1)).reverse.foldl (fun n d => n * base + d) 0 = n + 1 := by
      have value := Nat.ofDigits_digits base (n + 1)
      rw [Nat.ofDigits_eq_foldr] at value
      rw [List.foldl_reverse]
      simpa [Nat.add_comm, Nat.mul_comm] using value
    rw [digitText, if_neg n.succ_ne_zero, parseDigits_chars le small, folded]

theorem plain_of_mem (two : 2 ≤ base) (le : base ≤ 16) {n : ℕ} {c : UInt8} (inside : c ∈ digitText base n) :
    CString.isSpace c = false ∧ c ≠ 0 ∧ c ≠ 45 := by
  unfold digitText at inside
  split at inside
  · simp at inside
    subst inside
    decide
  · simp only [List.mem_map, List.mem_reverse] at inside
    obtain ⟨d, digit, rfl⟩ := inside
    exact digitChar_plain ((Nat.digits_lt_base two digit).trans_le le)

theorem digitText_ne_nil (base n : ℕ) : digitText base n ≠ [] := by
  unfold digitText
  split
  · simp
  · next nonzero => simp [Nat.digits_ne_nil_iff_ne_zero.mpr nonzero]

theorem length_digitText (base : ℕ) (n : ℤ) : (digitText base n.natAbs).length = mpzSizeinbase base n := by
  by_cases zero : n = 0
  · simp [digitText, mpzSizeinbase, zero]
  · simp [digitText, mpzSizeinbase, zero]

end Digits

section RoundTrip

variable {base n : ℕ}

/-- The text of a number: the sign, the base and the digits. -/
def hexText (n : ℤ) : ByteString := (if n < 0 then [45] else []) ++ [48, 120] ++ digitText 16 n.natAbs

theorem cStr_append {s : ByteString} (rest : ByteString) (nonzero : ∀ c ∈ s, c ≠ 0) : cStr (s ++ 0 :: rest) = s := by
  rw [cStr, List.takeWhile_append_of_pos (by simpa using nonzero)]
  simp

/-- `to_string` stays inside its buffer, and it moves the sign to the front. -/
theorem integerToString_eq (n : ℤ) : integerToString n = .done (hexText n) := by
  set digits := digitText 16 n.natAbs with text
  have length : digits.length = mpzSizeinbase 16 n := length_digitText 16 n
  have plain : ∀ c ∈ digits, c ≠ 0 ∧ c ≠ 45 := fun c inside => (plain_of_mem (by norm_num) (by norm_num) inside).2
  have fits : (mpzGetStr 16 n).length ≤ (List.replicate (mpzSizeinbase 16 n + 2) (0 : UInt8)).length := by
    simp only [mpzGetStr, ← text, List.length_append, length, List.length_replicate, List.length_singleton]
    split_ifs
    · simp
      omega
    · simp
  have written : HwMessage.blit ([48, 120] ++ List.replicate (mpzSizeinbase 16 n + 2) 0) 2 (mpzGetStr 16 n) = _ :=
    HwMessage.blit_append [48, 120] _ _ fits
  rw [integerToString, written, Exec.done_bind, Exec.pure_eq]
  congr 1
  by_cases negative : n < 0
  · simp only [mpzGetStr, negative, if_true, ← text, hexText]
    have ends := cStr_append (s := 45 :: 48 :: 120 :: digits)
      ((List.replicate (mpzSizeinbase 16 n + 2) (0 : UInt8)).drop (digits.length + 2)) (by
        intro c inside
        simp only [List.mem_cons] at inside
        rcases inside with rfl | rfl | rfl | inside
        · decide
        · decide
        · decide
        · exact (plain c inside).1)
    simpa using ends
  · simp only [mpzGetStr, negative, if_false, ← text, hexText, List.nil_append]
    have ends := cStr_append (s := 48 :: 120 :: digits)
      ((List.replicate (mpzSizeinbase 16 n + 2) (0 : UInt8)).drop (digits.length + 1)) (by
        intro c inside
        simp only [List.mem_cons] at inside
        rcases inside with rfl | rfl | inside
        · decide
        · decide
        · exact (plain c inside).1)
    have unsigned : ∀ rest : ByteString, ([48, 120] ++ (digits ++ [0]) ++ rest).take 3 ≠ [48, 120, 45] := fun rest => by
      cases same : digits with
      | nil => exact absurd same (digitText_ne_nil 16 n.natAbs)
      | cons c rest' =>
        have other := (plain c (by simp [same])).2
        simp [other]
    rw [if_neg (unsigned _)]
    simpa using ends

/-- A text that begins with a decimal digit is read with or without a sign in front of it. -/
theorem mpzSetStr_digit {c : UInt8} (rest : ByteString) (plain : CString.isSpace c = false ∧ c ≠ 45)
    {d : ℕ} (digit : digitValue c = some d) (small : d < 10) (negative : Bool) :
    mpzSetStr ((if negative then [45] else []) ++ c :: rest) =
      (parseDigits (basePrefix (c :: rest)).1 0
        ((basePrefix (c :: rest)).2.filter fun c => !CString.isSpace c)).map fun n =>
          if negative then -(n : ℤ) else n := by
  have minus : CString.isSpace 45 = false := by decide
  cases negative with
  | false => simp [mpzSetStr, plain.1, plain.2, digit, small]
  | true => simp [mpzSetStr, minus, digit, small]

theorem filter_digitText (two : 2 ≤ base) (le : base ≤ 16) (n : ℕ) :
    ((digitText base n).filter fun c => !CString.isSpace c) = digitText base n := by
  apply List.filter_eq_self.mpr
  intro c inside
  simp [(plain_of_mem two le inside).1]

theorem cStr_eq {s : ByteString} (nonzero : ∀ c ∈ s, c ≠ 0) : cStr s = s := by
  rw [cStr, List.takeWhile_eq_self_iff]
  simpa using nonzero

/-- What `to_string` has written is read as the same number. -/
theorem integerOfString_hexText (n : ℤ) : integerOfString (hexText n) = .done n := by
  have plain : ∀ c ∈ hexText n, c ≠ 0 := by
    intro c inside
    simp only [hexText, List.mem_append] at inside
    rcases inside with (sign | base) | digit
    · split at sign
      · simp at sign
        subst sign
        decide
      · simp at sign
    · simp at base
      rcases base with rfl | rfl <;> decide
    · exact (plain_of_mem (by norm_num) (by norm_num) digit).2.1
  have shape : hexText n = (if decide (n < 0) then [45] else []) ++ 48 :: 120 :: digitText 16 n.natAbs := by
    simp [hexText]
  have split : basePrefix (48 :: 120 :: digitText 16 n.natAbs) = (16, digitText 16 n.natAbs) := by
    simp [basePrefix]
  have zero : digitValue 48 = some 0 := rfl
  have read := mpzSetStr_digit (120 :: digitText 16 n.natAbs) (by decide) zero (by norm_num) (decide (n < 0))
  rw [split, filter_digitText (by norm_num) (by norm_num), parseDigits_text (by norm_num) le_rfl] at read
  rw [integerOfString, cStr_eq plain, shape, read]
  by_cases negative : n < 0
  · simp [negative, abs_of_neg negative]
  · simp [negative, not_lt.mp negative]

/-- The highest digit of a positive number is not zero, so nothing looks like the prefix of a base. -/
theorem digitText_head (positive : 0 < n) : ∃ d rest, 0 < d ∧ d < 10 ∧ digitText 10 n = digitChar d :: rest := by
  have nonempty : Nat.digits 10 n ≠ [] := Nat.digits_ne_nil_iff_ne_zero.mpr positive.ne'
  refine ⟨(Nat.digits 10 n).getLast nonempty, ((Nat.digits 10 n).dropLast.reverse).map digitChar, ?_, ?_, ?_⟩
  · exact Nat.pos_of_ne_zero (Nat.getLast_digit_ne_zero 10 positive.ne')
  · exact Nat.digits_lt_base (by norm_num) (List.getLast_mem nonempty)
  · conv_lhs => rw [digitText, if_neg positive.ne', ← List.dropLast_append_getLast nonempty, List.reverse_append]
    simp

theorem integerOfString_decimal (n : ℕ) : integerOfString (digitText 10 n) = .done n := by
  cases n with
  | zero => rfl
  | succ n =>
    obtain ⟨d, rest, positive, small, shape⟩ := digitText_head n.succ_pos
    have plain := digitChar_plain (show d < 16 by omega)
    have decimal : basePrefix (digitChar d :: rest) = (10, digitChar d :: rest) := by
      have other : digitChar d ≠ 48 := by
        clear shape plain
        interval_cases d <;> decide
      unfold basePrefix
      split
      · next same => exact absurd (List.cons.inj same).1 other
      · next same => exact absurd (List.cons.inj same).1 other
      · rfl
    have read := mpzSetStr_digit rest ⟨plain.1, plain.2.2⟩ (digitValue_digitChar (show d < 16 by omega)) small false
    rw [decimal, ← shape, filter_digitText (by norm_num) (by norm_num),
      parseDigits_text (by norm_num) (by norm_num)] at read
    rw [integerOfString, cStr_eq fun c inside => (plain_of_mem (by norm_num) (by norm_num) inside).2.1]
    simp only [Bool.false_eq_true, if_false, List.nil_append] at read
    simp [read]

end RoundTrip

end ChiaVdf
