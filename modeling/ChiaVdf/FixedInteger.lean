import ChiaVdf.Exec
import ChiaVdf.Limbs

/-! `fixed_integer` of `gpu_integer.h`: a sign and a fixed number of limbs, and its comparisons. -/
namespace ChiaVdf

open Limbs

/-- `uint128`, the type of the intermediate results. -/
abbrev Uint128 := BitVec 128

variable {w : ℕ}

def addCarry (a b : BitVec w) (carryIn : ℕ) : Exec (BitVec w × ℕ) :=
  if 1 < carryIn then .fault .assertion
  else
    let res : Uint128 := a.setWidth 128 + b.setWidth 128 + BitVec.ofNat 128 carryIn
    let carryOut := (res >>> w).toNat
    if 1 < carryOut then .fault .assertion else .done (res.setWidth w, carryOut)

def subCarry (a b : BitVec w) (carryIn : ℕ) : Exec (BitVec w × ℕ) :=
  if 1 < carryIn then .fault .assertion
  else
    let res : Uint128 := a.setWidth 128 - b.setWidth 128 - BitVec.ofNat 128 carryIn
    let carryOut := (res >>> w).toNat % 2
    if 1 < carryOut then .fault .assertion else .done (res.setWidth w, carryOut)

section Limb

variable {a b : BitVec w} {carry : ℕ}

theorem two_pow_limb_le (fits : w < 128) : 2 ^ w * 2 ≤ 2 ^ 128 := by
  rw [← pow_succ]
  exact Nat.pow_le_pow_right (by decide) fits

/-- The intermediate result of a limb type with fewer bits than its own is exact. -/
theorem addCarry_spec (fits : w < 128) (a b : BitVec w) (small : carry ≤ 1) :
    ∃ r carry', addCarry a b carry = .done (r, carry') ∧ carry' ≤ 1 ∧
      r.toNat + 2 ^ w * carry' = a.toNat + b.toNat + carry := by
  have twice := two_pow_limb_le fits
  have aLt := a.isLt
  have bLt := b.isLt
  obtain ⟨res, hres⟩ : ∃ res, res = a.setWidth 128 + b.setWidth 128 + BitVec.ofNat 128 carry :=
    ⟨_, rfl⟩
  have exact : res.toNat = a.toNat + b.toNat + carry := by
    simp only [hres, BitVec.toNat_add, BitVec.toNat_setWidth, BitVec.toNat_ofNat]
    omega
  have top : (res >>> w).toNat ≤ 1 := by
    rw [BitVec.toNat_ushiftRight, Nat.shiftRight_eq_div_pow, exact, ← Nat.lt_succ_iff,
      Nat.div_lt_iff_lt_mul (Nat.two_pow_pos w)]
    omega
  refine ⟨res.setWidth w, (res >>> w).toNat, ?_, top, ?_⟩
  · unfold addCarry
    rw [if_neg (by omega), ← hres]
    exact if_neg (by omega)
  · rw [BitVec.toNat_setWidth, BitVec.toNat_ushiftRight, Nat.shiftRight_eq_div_pow, ← exact]
    exact Nat.mod_add_div _ _

/-- Below zero the intermediate result wraps, and all bits above the limb are set. -/
theorem subCarry_spec (fits : w < 128) (a b : BitVec w) (small : carry ≤ 1) :
    ∃ r carry', subCarry a b carry = .done (r, carry') ∧ carry' ≤ 1 ∧
      r.toNat + b.toNat + carry = a.toNat + 2 ^ w * carry' := by
  have twice := two_pow_limb_le fits
  have aLt := a.isLt
  have bLt := b.isLt
  obtain ⟨res, hres⟩ : ∃ res, res = a.setWidth 128 - b.setWidth 128 - BitVec.ofNat 128 carry :=
    ⟨_, rfl⟩
  have run : subCarry a b carry = .done (res.setWidth w, (res >>> w).toNat % 2) := by
    unfold subCarry
    rw [if_neg (by omega), ← hres]
    exact if_neg (by omega)
  refine ⟨_, _, run, by omega, ?_⟩
  rw [BitVec.toNat_setWidth, BitVec.toNat_ushiftRight, Nat.shiftRight_eq_div_pow]
  rcases Nat.lt_or_ge a.toNat (b.toNat + carry) with below | above
  · have wrapped : res.toNat = 2 ^ 128 - (b.toNat + carry - a.toNat) := by
      simp only [hres, BitVec.toNat_sub, BitVec.toNat_setWidth, BitVec.toNat_ofNat]
      omega
    obtain ⟨k, hk⟩ := Nat.exists_eq_add_of_lt fits
    have split : 2 ^ 128 = 2 ^ w * (2 * 2 ^ k - 1) + 2 ^ w := by
      have pos := Nat.two_pow_pos k
      rw [← Nat.mul_succ, Nat.succ_eq_add_one, Nat.sub_add_cancel (by omega), ← pow_succ', ← pow_add,
        ← Nat.add_assoc, ← hk]
    have parts : res.toNat = 2 ^ w - (b.toNat + carry - a.toNat) + 2 ^ w * (2 * 2 ^ k - 1) := by
      rw [wrapped, split]
      omega
    have odd : (2 * 2 ^ k - 1) % 2 = 1 := by
      have := Nat.two_pow_pos k
      omega
    rw [parts, Nat.add_mul_mod_self_left, Nat.add_mul_div_left _ _ (Nat.two_pow_pos w),
      Nat.mod_eq_of_lt (by omega), Nat.div_eq_of_lt (by omega), Nat.zero_add, odd]
    omega
  · have exact : res.toNat = a.toNat - (b.toNat + carry) := by
      simp only [hres, BitVec.toNat_sub, BitVec.toNat_setWidth, BitVec.toNat_ofNat]
      omega
    rw [exact, Nat.mod_eq_of_lt (by omega), Nat.div_eq_of_lt (by omega)]
    omega

end Limb

def positiveSign : BitVec w := 0

def negativeSign : BitVec w := ~~~0

/-- The limbs, the lowest first, and the sign, which is one of the two. -/
structure FixedInteger (w size : ℕ) where
  sign : BitVec w
  limbs : Vector (BitVec w) size
  signed : sign = positiveSign ∨ sign = negativeSign

/-- `a[x]`: there is nothing behind the last limb. -/
def readLimb (a : List (BitVec w)) (x : ℕ) : Exec (BitVec w) :=
  match a[x]? with
  | some limb => .done limb
  | none => .fault .outOfBounds

/-- `(x<size)? a[x] : 0` -/
def readPadded (a : List (BitVec w)) (size x : ℕ) : Exec (BitVec w) :=
  if x < size then readLimb a x else .done 0

/-- The magnitude under a sign. -/
def signedValue (sign : BitVec w) (magnitude : ℕ) : ℤ :=
  if sign = negativeSign then -magnitude else magnitude

namespace FixedInteger

variable {m n : ℕ}

def magnitude (a : FixedInteger w m) : ℕ := total (fun x => a.limbs.toList.getD x 0) m

/-- `operator integer`. -/
def toInteger (a : FixedInteger w m) : ℤ := signedValue a.sign a.magnitude

/-- One limb of `|a| - |b|`: the carry, and all limbs so far or'ed together. -/
def compareTurn (a : List (BitVec w)) (sizeA : ℕ) (b : List (BitVec w)) (sizeB x : ℕ)
    (s : ℕ × BitVec w) : Exec (ℕ × BitVec w) := do
  let vA ← readPadded a sizeA x
  let vB ← readPadded b sizeB x
  let (v, carry) ← subCarry vA vB s.1
  return (carry, s.2 ||| v)

/-- The order of the magnitudes. -/
def unsignedOrder (carry : ℕ) (zero : BitVec w) : ℤ :=
  let res : ℤ := 0
  let res := if zero ≠ 0 then 1 else res
  if carry = 1 then -1 else res

/-- Same signs: the order of the magnitudes, turned around below zero. Opposite signs: the sign of the
first, except where the magnitudes are the same. -/
def signedOrder (res : ℤ) (signA signB : BitVec w) : ℤ :=
  if signA = signB then if signA = negativeSign then -res else res
  else if res ≠ 0 then if signA = negativeSign then -1 else 1
  else res

/-- The static `compare`, on the limbs behind two pointers. -/
def compareLimbs (a : List (BitVec w)) (sizeA : ℕ) (signA : BitVec w) (b : List (BitVec w))
    (sizeB : ℕ) (signB : BitVec w) : Exec ℤ := do
  let (carry, zero) ← Exec.forLoop (max sizeA sizeB) (compareTurn a sizeA b sizeB) (0, 0)
  return signedOrder (unsignedOrder carry zero) signA signB

/-- The size of the first operand is passed for both of them. -/
def compare (a : FixedInteger w m) (b : FixedInteger w n) : Exec ℤ :=
  compareLimbs a.limbs.toList m a.sign b.limbs.toList m b.sign

section Operators

variable (a : FixedInteger w m) (b : FixedInteger w n)

def ge : Exec Bool := do return decide ((← compare a b) ≥ 0)

def eq : Exec Bool := do return decide ((← compare a b) = 0)

def lt : Exec Bool := do return decide ((← compare a b) < 0)

def le : Exec Bool := do return decide ((← compare a b) ≤ 0)

def gt : Exec Bool := do return decide ((← compare a b) > 0)

def ne : Exec Bool := do return decide ((← compare a b) ≠ 0)

/-- The six operators give the order of the two numbers. -/
structure ComparesRight : Prop where
  lt : lt a b = .done (decide (a.toInteger < b.toInteger))
  le : le a b = .done (decide (a.toInteger ≤ b.toInteger))
  eq : eq a b = .done (decide (a.toInteger = b.toInteger))
  ge : ge a b = .done (decide (a.toInteger ≥ b.toInteger))
  gt : gt a b = .done (decide (a.toInteger > b.toInteger))
  ne : ne a b = .done (decide (a.toInteger ≠ b.toInteger))

end Operators

section Compare

variable {a b : List (BitVec w)}

/-- The limb at `x`, zero behind the last one. -/
def limbAt (a : List (BitVec w)) (x : ℕ) : BitVec w := if x < a.length then a.getD x 0 else 0

theorem readPadded_done (a : List (BitVec w)) (x : ℕ) :
    readPadded a a.length x = .done (limbAt a x) := by
  unfold readPadded limbAt readLimb
  split
  · simp [*]
  · rfl

/-- The limbs of the difference so far, and whether there is one that is not zero. -/
def Difference (a b : List (BitVec w)) (x : ℕ) (s : ℕ × BitVec w) : Prop :=
  s.1 ≤ 1 ∧ ∃ r : ℕ → BitVec w, total r x + total (limbAt b) x = total (limbAt a) x + s.1 * 2 ^ (w * x) ∧
    (s.2 = 0 ↔ total r x = 0)

theorem compareTurn_spec (fits : w < 128) {x : ℕ} {s : ℕ × BitVec w} (inv : Difference a b x s) :
    ∃ s', compareTurn a a.length b b.length x s = .done s' ∧ Difference a b (x + 1) s' := by
  obtain ⟨small, r, before, none⟩ := inv
  obtain ⟨v, carry, run, small', limb⟩ := subCarry_spec fits (limbAt a x) (limbAt b x) small
  refine ⟨(carry, s.2 ||| v), ?_, small', Function.update r x v, ?_, ?_⟩
  · simp only [compareTurn, readPadded_done, Exec.done_bind, run, Exec.pure_eq]
  · have lower : total (Function.update r x v) x = total r x :=
      total_congr fun i lt => Function.update_of_ne lt.ne _ _
    have before' : total (Function.update r x v) x + total (limbAt b) x =
        total (limbAt a) x + s.1 * 2 ^ (w * x) := by rw [lower, before]
    exact borrow_succ before' (by rw [Function.update_self, limb])
  · have lower : total (Function.update r x v) x = total r x :=
      total_congr fun i lt => Function.update_of_ne lt.ne _ _
    rw [total_succ_eq_zero, lower, Function.update_self, ← none]
    exact BitVec.or_eq_zero_iff

theorem total_limbAt (a : List (BitVec w)) {n : ℕ} (le : a.length ≤ n) :
    total (limbAt a) n = total (fun x => a.getD x 0) a.length := total_pad le _

theorem negativeSign_ne (limb : 0 < w) : (negativeSign : BitVec w) ≠ positiveSign := by
  intro same
  have := congrArg BitVec.toNat same
  have := Nat.one_lt_two_pow limb.ne'
  simp [negativeSign, positiveSign] at *
  omega

/-- The order of two magnitudes, by the last carry and the limbs of the difference. -/
theorem loop_spec (fits : w < 128) (a b : List (BitVec w)) :
    ∃ carry zero, Exec.forLoop (max a.length b.length)
        (compareTurn a a.length b b.length) (0, 0) = .done (carry, zero) ∧
      (carry = 1 ↔ total (fun x => a.getD x 0) a.length < total (fun x => b.getD x 0) b.length) ∧
      (zero = 0 ↔ total (fun x => a.getD x 0) a.length = total (fun x => b.getD x 0) b.length) := by
  obtain ⟨⟨carry, zero⟩, run, small, r, sum, none⟩ := Exec.forLoop_done (Difference a b)
    (show Difference a b 0 (0, 0) from ⟨Nat.zero_le 1, fun _ => 0, by simp, by simp⟩)
    fun x _ s inv => compareTurn_spec fits inv
  refine ⟨carry, zero, run, ?_, ?_⟩
  all_goals
    rw [total_limbAt a (le_max_left _ _), total_limbAt b (le_max_right _ _)] at sum
    have rLt := total_lt r (max a.length b.length)
    have bLt := total_lt (limbAt b) (max a.length b.length)
    rw [total_limbAt b (le_max_right _ _)] at bLt
    have bits : carry = 0 ∨ carry = 1 := by omega
    generalize 2 ^ (w * max a.length b.length) = N at sum rLt bLt
  · rcases bits with rfl | rfl <;> omega
  · rw [none]
    rcases bits with rfl | rfl <;> omega

theorem magnitude_eq (a : FixedInteger w m) :
    total (fun x => a.limbs.toList.getD x 0) a.limbs.toList.length = a.magnitude := by
  rw [Vector.length_toList]
  rfl

/-- The limbs of the second operand that the comparison looks at. -/
theorem magnitude_take (b : FixedInteger w n) (le : m ≤ n) :
    total (fun x => (b.limbs.toList.take m).getD x 0) (b.limbs.toList.take m).length =
      b.magnitude % 2 ^ (w * m) := by
  rw [List.length_take, Vector.length_toList, Nat.min_eq_left le, magnitude, total_mod le]
  refine total_congr fun x lt => ?_
  rw [List.getD_eq_getElem?_getD, List.getD_eq_getElem?_getD, List.getElem?_take_of_lt lt]

theorem unsignedOrder_eq {carry A B : ℕ} {zero : BitVec w} (less : carry = 1 ↔ A < B)
    (same : zero = 0 ↔ A = B) : unsignedOrder carry zero = (A - B : ℤ).sign := by
  unfold unsignedOrder
  rcases lt_trichotomy A B with lt | eq | gt
  · rw [if_pos (less.mpr lt), Int.sign_eq_neg_one_of_neg (by omega)]
  · rw [if_neg (by omega), if_neg (not_not.mpr (same.mpr eq)), eq, sub_self, Int.sign_zero]
  · rw [if_neg (by omega), if_pos (fun none => gt.ne' (same.mp none)), Int.sign_eq_one_of_pos (by omega)]

theorem compareLimbs_take {a b : List (BitVec w)} {signA signB : BitVec w} :
    compareLimbs a m signA b m signB = compareLimbs a m signA (b.take m) m signB := by
  have same : compareTurn a m b m = compareTurn a m (b.take m) m := by
    funext x s
    have read : readPadded b m x = readPadded (b.take m) m x := by
      unfold readPadded readLimb
      split
      case isTrue lt => rw [List.getElem?_take_of_lt lt]
      case isFalse => rfl
    rw [compareTurn, compareTurn, read]
  rw [compareLimbs, compareLimbs, same]

/-- Where there are enough limbs the result is the order of the first magnitude and of what is seen of
the second one, under the sign table. -/
theorem compare_done (fits : w < 128) (a : FixedInteger w m) (b : FixedInteger w n) (le : m ≤ n) :
    compare a b = .done
      (signedOrder (a.magnitude - (b.magnitude % 2 ^ (w * m) : ℕ) : ℤ).sign a.sign b.sign) := by
  obtain ⟨carry, zero, run, less, same⟩ := loop_spec fits a.limbs.toList (b.limbs.toList.take m)
  rw [magnitude_eq, magnitude_take b le] at less same
  rw [List.length_take, Vector.length_toList, Vector.length_toList, Nat.min_eq_left le] at run
  rw [compare, compareLimbs_take, compareLimbs, run, Exec.done_bind, ← unsignedOrder_eq less same]
  rfl

theorem compare_outOfBounds (fits : w < 128) (a : FixedInteger w m) (b : FixedInteger w n) (lt : n < m) :
    compare a b = .fault .outOfBounds := by
  have reads {size : ℕ} (v : FixedInteger w size) {x : ℕ} (inside : x < size) (inLoop : x < m) :
      ∃ limb, readPadded v.limbs.toList m x = .done limb := by
    have there : x < v.limbs.toList.length := by rwa [Vector.length_toList]
    exact ⟨_, by rw [readPadded, if_pos inLoop, readLimb, List.getElem?_eq_getElem there]⟩
  have turns : ∃ s, Exec.forLoop n (compareTurn a.limbs.toList m b.limbs.toList m) (0, 0) = .done s ∧
      s.1 ≤ 1 := by
    refine Exec.forLoop_done (fun _ (s : ℕ × BitVec w) => s.1 ≤ 1) (Nat.zero_le 1) fun x inside s small => ?_
    obtain ⟨vA, readA⟩ := reads a (x := x) (by omega) (by omega)
    obtain ⟨vB, readB⟩ := reads b inside (by omega)
    obtain ⟨v, carry, run, small', -⟩ := subCarry_spec fits vA vB small
    refine ⟨(carry, s.2 ||| v), ?_, small'⟩
    rw [compareTurn, readA, Exec.done_bind, readB, Exec.done_bind, run]
    rfl
  obtain ⟨s, start, -⟩ := turns
  obtain ⟨vA, readA⟩ := reads a lt lt
  have behind : readPadded b.limbs.toList m n = .fault .outOfBounds := by
    rw [readPadded, if_pos lt, readLimb, List.getElem?_eq_none (by rw [Vector.length_toList])]
  have last : Exec.forLoop (n + 1) (compareTurn a.limbs.toList m b.limbs.toList m) (0, 0) =
      .fault .outOfBounds := by
    rw [Exec.forLoop, start, Exec.done_bind, compareTurn, readA, Exec.done_bind, behind, Exec.fault_bind]
  rw [compare, compareLimbs, Nat.max_self, Exec.forLoop_fault lt last, Exec.fault_bind]

/-- What the comparison sees has the order of the numbers: equal signs need a second magnitude that ends
where the first one does or is still larger as far as it is seen, opposite signs need magnitudes that
look different. -/
def SeesOrder (a : FixedInteger w m) (b : FixedInteger w n) : Prop :=
  if a.sign = b.sign then b.magnitude < 2 ^ (w * m) ∨ a.magnitude < b.magnitude % 2 ^ (w * m)
  else a.magnitude ≠ b.magnitude % 2 ^ (w * m) ∨ a.magnitude = 0 ∧ b.magnitude = 0

/-- The sign table is right about what is seen of a magnitude exactly where that has the order of the
numbers. -/
theorem signedOrder_iff (limb : 0 < w) (a : FixedInteger w m) (b : FixedInteger w n) :
    let r := signedOrder (a.magnitude - (b.magnitude % 2 ^ (w * m) : ℕ) : ℤ).sign a.sign b.sign
    ((r < 0 ↔ a.toInteger < b.toInteger) ∧ (r = 0 ↔ a.toInteger = b.toInteger)) ↔ SeesOrder a b := by
  have ne := negativeSign_ne limb
  have aLt : a.magnitude < 2 ^ (w * m) := total_lt _ m
  have seen : b.magnitude < 2 ^ (w * m) ∧ b.magnitude % 2 ^ (w * m) = b.magnitude ∨
      2 ^ (w * m) ≤ b.magnitude ∧ b.magnitude % 2 ^ (w * m) < 2 ^ (w * m) := by
    rcases Nat.lt_or_ge b.magnitude (2 ^ (w * m)) with lt | ge
    · exact .inl ⟨lt, Nat.mod_eq_of_lt lt⟩
    · exact .inr ⟨ge, Nat.mod_lt _ (Nat.two_pow_pos _)⟩
  unfold signedOrder toInteger signedValue SeesOrder
  generalize b.magnitude % 2 ^ (w * m) = B at seen
  generalize a.magnitude = A at aLt
  have order : (A - B : ℤ).sign = -1 ∧ A < B ∨ (A - B : ℤ).sign = 0 ∧ A = B ∨
      (A - B : ℤ).sign = 1 ∧ B < A := by
    rcases lt_trichotomy A B with lt | eq | gt
    · exact .inl ⟨Int.sign_eq_neg_one_of_neg (by omega), lt⟩
    · exact .inr (.inl ⟨by rw [eq, sub_self, Int.sign_zero], eq⟩)
    · exact .inr (.inr ⟨Int.sign_eq_one_of_pos (by omega), gt⟩)
  generalize (A - B : ℤ).sign = s at order
  generalize 2 ^ (w * m) = N at aLt seen
  rcases a.signed with signA | signA <;> rcases b.signed with signB | signB <;> rw [signA, signB]
  · simp only [if_neg ne.symm, if_true]
    omega
  · simp only [if_neg ne.symm, if_true]
    split <;> omega
  · simp only [if_neg ne, if_neg ne.symm, if_true]
    split <;> omega
  · simp only [if_true]
    omega

end Compare

section Right

variable {a : FixedInteger w m} {b : FixedInteger w n} {r : ℤ}

theorem comparesRight_of_done (run : compare a b = .done r) : ComparesRight a b ↔
    (r < 0 ↔ a.toInteger < b.toInteger) ∧ (r = 0 ↔ a.toInteger = b.toInteger) := by
  constructor
  · intro right
    have less := right.lt
    have same := right.eq
    rw [lt, run] at less
    rw [eq, run] at same
    simpa using And.intro less same
  · rintro ⟨less, same⟩
    constructor
    · simp only [lt, run, Exec.done_bind, Exec.pure_eq, less]
    · simp only [le, run, Exec.done_bind, Exec.pure_eq]
      congr 2
      exact propext (by omega)
    · simp only [eq, run, Exec.done_bind, Exec.pure_eq, same]
    · simp only [ge, run, Exec.done_bind, Exec.pure_eq]
      congr 2
      exact propext (by omega)
    · simp only [gt, run, Exec.done_bind, Exec.pure_eq]
      congr 2
      exact propext (by omega)
    · simp only [ne, run, Exec.done_bind, Exec.pure_eq]
      congr 2
      exact propext (by omega)

end Right

/-- The comparison reads only limbs that are there, and the operators give the order of the numbers, where
the second operand has no fewer limbs and what is seen of it has the order of the numbers; nowhere else. -/
theorem comparesRight_iff (limb : 0 < w) (fits : w < 128) (a : FixedInteger w m)
    (b : FixedInteger w n) :
    ((∃ r, compare a b = .done r) ∧ ComparesRight a b) ↔ m ≤ n ∧ SeesOrder a b := by
  rcases Nat.lt_or_ge n m with fewer | enough
  · rw [compare_outOfBounds fits a b fewer]
    exact iff_of_false (fun right => nomatch right.1) (fun both => absurd both.1 (by omega))
  · have run := compare_done fits a b enough
    have reads : ∃ r, compare a b = .done r := ⟨_, run⟩
    rw [and_iff_right reads, and_iff_right enough]
    exact (comparesRight_of_done run).trans (signedOrder_iff limb a b)

def five : FixedInteger 64 1 := ⟨positiveSign, #v[5], .inl rfl⟩

def minusFive : FixedInteger 64 1 := ⟨negativeSign, #v[5], .inr rfl⟩

/-- Five and one more limb. -/
def fiveAbove : FixedInteger 64 2 := ⟨positiveSign, #v[5, 1], .inl rfl⟩

theorem comparesRight_five : ComparesRight five
    (⟨positiveSign, #v[6, 1], .inl rfl⟩ : FixedInteger 64 2) :=
  ((comparesRight_iff (by decide) (by decide) _ _).mpr
    ⟨by decide, by unfold SeesOrder; decide +kernel⟩).2

/-- A limb more is not seen, a limb less is read behind the end, and opposite numbers are taken for
equal. -/
theorem five_eq_fiveAbove : eq five fiveAbove = .done true ∧ five.toInteger = 5 ∧
    fiveAbove.toInteger = 2 ^ 64 + 5 ∧ compare fiveAbove five = .fault .outOfBounds ∧
    eq five minusFive = .done true ∧ minusFive.toInteger = -5 ∧ ¬ComparesRight five fiveAbove := by
  have equal : eq five fiveAbove = .done true := by decide +kernel
  have one : five.toInteger = 5 := by decide +kernel
  have two : fiveAbove.toInteger = 2 ^ 64 + 5 := by decide +kernel
  refine ⟨equal, one, two, by decide +kernel, by decide +kernel, by decide +kernel, fun ordered => ?_⟩
  have same := ordered.eq
  rw [equal, one, two] at same
  exact absurd same (by decide)

end FixedInteger

end ChiaVdf
