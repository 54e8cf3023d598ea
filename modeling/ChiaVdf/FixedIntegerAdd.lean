import ChiaVdf.FixedInteger

/-! `fixed_integer::add`: the signed sum of two numbers in memory, written over one of them or next to
them. The operands are put in order by a glance at their top limbs; where that leaves them in the wrong
order the difference is negated afterwards. -/
namespace ChiaVdf

open Limbs

namespace FixedInteger

variable {w : ℕ}

/-- The limbs in memory. A pointer is the address of the lowest limb of a number. -/
abbrev Memory (w : ℕ) := ℕ → BitVec w

def store (mem : Memory w) (address : ℕ) (limb : BitVec w) : Memory w :=
  Function.update mem address limb

/-- One limb of `a + b`, or of `a - b` where the mask is all ones. -/
def addTurn (a sizeA b sizeB res : ℕ) (mask : BitVec w) (x : ℕ) (s : Memory w × ℕ) :
    Exec (Memory w × ℕ) := do
  let vA := if x < sizeA then s.1 (a + x) else 0
  let vB := if x < sizeB then s.1 (b + x) else 0
  let (limb, carry) ← addCarry vA (vB ^^^ mask) s.2
  return (store s.1 (res + x) limb, carry)

/-- One limb of the two's complement of the result. -/
def negateTurn (res x : ℕ) (s : Memory w × ℕ) : Exec (Memory w × ℕ) := do
  let (limb, carry) ← addCarry (~~~(s.1 (res + x))) (if x = 0 then 1 else 0) s.2
  return (store s.1 (res + x) limb, carry)

/-- The test of the two top limbs. -/
def aLessThanB (mem : Memory w) (a b sizeAB : ℕ) : Bool :=
  let less := decide (mem (a + (sizeAB - 1)) < mem (b + (sizeAB - 1)))
  if mem (a + (sizeAB - 1)) = mem (b + (sizeAB - 1)) ∧ sizeAB ≥ 2 then
    decide (mem (a + (sizeAB - 2)) < mem (b + (sizeAB - 2)))
  else less

/-- From the loops on, with the operands in the order they are subtracted in. -/
def addInOrder (mem : Memory w) (a sizeA : ℕ) (signA : BitVec w) (b sizeB : ℕ) (mask : BitVec w)
    (res sizeRes : ℕ) : Exec (Memory w × BitVec w) := do
  let swapMask : BitVec w := positiveSign
  let (_, carry) ← addCarry mask 1 0
  let (mem, carry) ← Exec.forLoop sizeRes (addTurn a sizeA b sizeB res mask) (mem, carry)
  let signRes := signA ^^^ (swapMask &&& mask)
  if carry = 0 ∧ mask ≠ 0 then do
    let (mem, _) ← Exec.forLoop sizeRes (negateTurn res) (mem, 0)
    return (mem, ~~~signRes)
  else return (mem, signRes)

/-- From the assertion on: the first operand is not the shorter one. -/
def addLonger (mem : Memory w) (a sizeA : ℕ) (signA : BitVec w) (b sizeB : ℕ) (signB : BitVec w)
    (res sizeRes : ℕ) : Exec (Memory w × BitVec w) :=
  if ¬(sizeRes ≥ sizeA ∧ sizeA ≥ sizeB ∧ sizeB ≥ 1) then .fault .assertion
  else
    let mask := signA ^^^ signB
    if sizeA = sizeB ∧ aLessThanB mem a b sizeA then
      addInOrder mem b sizeA signB a sizeB mask res sizeRes
    else addInOrder mem a sizeA signA b sizeB mask res sizeRes

/-- The static `add`: the memory and the sign of the result. -/
def add (mem : Memory w) (a sizeA : ℕ) (signA : BitVec w) (b sizeB : ℕ) (signB : BitVec w)
    (res sizeRes : ℕ) : Exec (Memory w × BitVec w) :=
  if sizeB > sizeA then addLonger mem b sizeB signB a sizeA signA res sizeRes
  else addLonger mem a sizeA signA b sizeB signB res sizeRes

/-- `operator+` and, with the other sign of `b`, `operator-`: one limb more than the longer operand. -/
def plus (mem : Memory w) (a sizeA : ℕ) (signA : BitVec w) (b sizeB : ℕ) (signB : BitVec w)
    (res : ℕ) : Exec (Memory w × BitVec w) :=
  add mem a sizeA signA b sizeB signB res (max sizeA sizeB + 1)

def minus (mem : Memory w) (a sizeA : ℕ) (signA : BitVec w) (b sizeB : ℕ) (signB : BitVec w)
    (res : ℕ) : Exec (Memory w × BitVec w) :=
  add mem a sizeA signA b sizeB (negativeSign ^^^ signB) res (max sizeA sizeB + 1)

section Loops

variable {a b res sizeA sizeB sizeRes carry : ℕ}

/-- Two pointers are equal, or there are no limbs that both reach. -/
def Alias (p size res sizeRes : ℕ) : Prop := p = res ∨ p + size ≤ res ∨ res + sizeRes ≤ p

def magnitudeAt (mem : Memory w) (p size : ℕ) : ℕ := total (fun x => mem (p + x)) size

/-- Only the first limbs of the result differ. -/
def Frame (mem mem' : Memory w) (res n : ℕ) : Prop :=
  ∀ y, y < res ∨ res + n ≤ y → mem' y = mem y

theorem Frame.store {mem mem' : Memory w} {n : ℕ} (frame : Frame mem mem' res n) (limb : BitVec w) :
    Frame mem (store mem' (res + n) limb) res (n + 1) := by
  intro y outside
  rw [FixedInteger.store, Function.update_of_ne (by omega)]
  exact frame y (by omega)

/-- The limbs of an operand, zero behind the last one. -/
def operand (mem : Memory w) (p size x : ℕ) : BitVec w := if x < size then mem (p + x) else 0

theorem Frame.operand {mem mem' : Memory w} {p size n : ℕ} (frame : Frame mem mem' res n)
    (alias_ : Alias p size res sizeRes) : operand mem' p size n = operand mem p size n := by
  unfold FixedInteger.operand
  split
  · exact frame _ (by unfold Alias at alias_; omega)
  · rfl

theorem magnitudeAt_store (mem : Memory w) (res n : ℕ) (limb : BitVec w) :
    magnitudeAt (store mem (res + n) limb) res n = magnitudeAt mem res n :=
  total_congr fun x lt => Function.update_of_ne (by omega) _ _

theorem magnitudeAt_operand (mem : Memory w) (p : ℕ) {size n : ℕ} (le : size ≤ n) :
    total (operand mem p size) n = magnitudeAt mem p size := total_pad le _

/-- The first limbs of a sum, with the carry out of them. -/
structure Sum (mem : Memory w) (u v : ℕ → BitVec w) (res carry n : ℕ) (s : Memory w × ℕ) : Prop where
  small : s.2 ≤ 1
  frame : Frame mem s.1 res n
  value : magnitudeAt s.1 res n + s.2 * 2 ^ (w * n) = total u n + total v n + carry

theorem Sum.store {mem : Memory w} {u v : ℕ → BitVec w} {n : ℕ} {s : Memory w × ℕ} {limb : BitVec w}
    {carry' : ℕ} (sum : Sum mem u v res carry n s) (small : carry' ≤ 1)
    (value : limb.toNat + 2 ^ w * carry' = (u n).toNat + (v n).toNat + s.2) :
    Sum mem u v res carry (n + 1) (store s.1 (res + n) limb, carry') where
  small := small
  frame := sum.frame.store limb
  value := by
    have before : magnitudeAt (FixedInteger.store s.1 (res + n) limb) res n + s.2 * 2 ^ (w * n) =
        total u n + total v n + carry := by rw [magnitudeAt_store, sum.value]
    exact carry_succ before (by simpa [FixedInteger.store] using value)

theorem addLoop_spec (fits : w < 128) (mem : Memory w) (mask : BitVec w) (aliasA : Alias a sizeA res sizeRes)
    (aliasB : Alias b sizeB res sizeRes) (small : carry ≤ 1) :
    ∃ s, Exec.forLoop sizeRes (addTurn a sizeA b sizeB res mask) (mem, carry) = .done s ∧
      Sum mem (operand mem a sizeA) (fun x => operand mem b sizeB x ^^^ mask) res carry sizeRes s := by
  refine Exec.forLoop_done _ ⟨small, fun _ _ => rfl, by simp [magnitudeAt]⟩ fun n _ s sum => ?_
  obtain ⟨limb, carry', run, small', value⟩ :=
    addCarry_spec fits (operand mem a sizeA n) (operand mem b sizeB n ^^^ mask) sum.small
  refine ⟨(store s.1 (res + n) limb, carry'), ?_, sum.store small' value⟩
  have first := sum.frame.operand aliasA
  have second := sum.frame.operand aliasB
  unfold FixedInteger.operand at first second run
  simp only [addTurn, first, second, run, Exec.done_bind, Exec.pure_eq]

/-- The two's complement adds one to the complement of what was there. -/
theorem negateLoop_spec (fits : w < 128) (mem : Memory w) (res sizeRes : ℕ) :
    ∃ s, Exec.forLoop sizeRes (negateTurn res) (mem, 0) = .done s ∧
      Sum mem (fun x => ~~~(mem (res + x))) (fun x => if x = 0 then 1 else 0) res 0 sizeRes s := by
  refine Exec.forLoop_done _ ⟨Nat.zero_le 1, fun _ _ => rfl, by simp [magnitudeAt]⟩
    fun n _ s sum => ?_
  have here : s.1 (res + n) = mem (res + n) := sum.frame _ (by omega)
  obtain ⟨limb, carry', run, small', value⟩ :=
    addCarry_spec fits (~~~(mem (res + n))) (if n = 0 then 1 else 0) sum.small
  refine ⟨(store s.1 (res + n) limb, carry'), ?_, sum.store small' value⟩
  simp only [negateTurn, here, run, Exec.done_bind, Exec.pure_eq]

end Loops

section Masks

variable {a b res sizeA sizeB sizeRes : ℕ}

theorem addCarry_mask (limb : 0 < w) (fits : w < 128) :
    (∃ r, addCarry (positiveSign : BitVec w) 1 0 = .done (r, 0)) ∧
      ∃ r, addCarry (negativeSign : BitVec w) 1 0 = .done (r, 1) := by
  have one := Nat.one_lt_two_pow limb.ne'
  obtain ⟨r, carry, run, small, value⟩ := addCarry_spec fits positiveSign 1 (Nat.zero_le 1)
  obtain ⟨r', carry', run', small', value'⟩ := addCarry_spec fits negativeSign 1 (Nat.zero_le 1)
  have unit : (1 : BitVec w).toNat = 1 := BitVec.toNat_one limb
  have none : (positiveSign : BitVec w).toNat = 0 := by simp [positiveSign]
  have all : (negativeSign : BitVec w).toNat = 2 ^ w - 1 := by simp [negativeSign]
  rw [unit, none] at value
  rw [unit, all] at value'
  obtain rfl : carry = 0 := by
    interval_cases carry <;> omega
  obtain rfl : carry' = 1 := by
    have := r'.isLt
    interval_cases carry' <;> omega
  exact ⟨⟨r, run⟩, r', run'⟩

theorem total_one (limb : 0 < w) {n : ℕ} (pos : 0 < n) :
    total (fun x => if x = 0 then (1 : BitVec w) else 0) n = 1 := by
  have pad := total_pad (w := w) (show 1 ≤ n from pos) fun _ => 1
  simp only [Nat.lt_one_iff] at pad
  rw [pad, total_succ]
  simp [BitVec.toNat_one limb]

theorem addInOrder_same (limb : 0 < w) (fits : w < 128) (mem : Memory w) (signA : BitVec w)
    (aliasA : Alias a sizeA res sizeRes) (aliasB : Alias b sizeB res sizeRes)
    (roomA : sizeA ≤ sizeRes) (roomB : sizeB ≤ sizeRes) :
    ∃ mem' carry, addInOrder mem a sizeA signA b sizeB positiveSign res sizeRes =
        .done (mem', signA) ∧ Frame mem mem' res sizeRes ∧
      magnitudeAt mem' res sizeRes + carry * 2 ^ (w * sizeRes) =
        magnitudeAt mem a sizeA + magnitudeAt mem b sizeB := by
  obtain ⟨⟨r, start⟩, -⟩ := addCarry_mask limb fits
  obtain ⟨⟨mem', carry⟩, run, sum⟩ := addLoop_spec fits mem positiveSign aliasA aliasB
    (Nat.zero_le 1)
  refine ⟨mem', carry, ?_, sum.frame, ?_⟩
  · simp only [addInOrder, start, run, Exec.done_bind, Exec.pure_eq]
    simp [positiveSign]
  · have value := sum.value
    simpa [positiveSign, magnitudeAt_operand mem a roomA, magnitudeAt_operand mem b roomB] using value

theorem magnitudeAt_lt (mem : Memory w) (p : ℕ) {size n : ℕ} (le : size ≤ n) :
    magnitudeAt mem p size < 2 ^ (w * n) :=
  (total_lt _ size).trans_le (Nat.pow_le_pow_right (by decide) (Nat.mul_le_mul_left w le))

/-- The difference, in whichever order: without a carry out the loop ran below zero, and the two's
complement and the other sign make up for it. -/
theorem addInOrder_opposite (limb : 0 < w) (fits : w < 128) (mem : Memory w) (signA : BitVec w)
    (aliasA : Alias a sizeA res sizeRes) (aliasB : Alias b sizeB res sizeRes)
    (roomA : sizeA ≤ sizeRes) (roomB : sizeB ≤ sizeRes) (pos : 0 < sizeRes) :
    ∃ mem' signRes, addInOrder mem a sizeA signA b sizeB negativeSign res sizeRes =
        .done (mem', signRes) ∧ Frame mem mem' res sizeRes ∧
      ((signRes = signA ∧ magnitudeAt mem' res sizeRes + magnitudeAt mem b sizeB =
          magnitudeAt mem a sizeA) ∨
        (signRes = ~~~signA ∧ magnitudeAt mem' res sizeRes + magnitudeAt mem a sizeA =
          magnitudeAt mem b sizeB)) := by
  obtain ⟨-, r, start⟩ := addCarry_mask limb fits
  obtain ⟨⟨mem₁, carry⟩, run, ⟨small, frame, value⟩⟩ := addLoop_spec fits mem negativeSign
    aliasA aliasB le_rfl
  have ne : (negativeSign : BitVec w) ≠ 0 := negativeSign_ne limb
  -- what was subtracted is the complement of `b`
  have flipped : (fun x => operand mem b sizeB x ^^^ negativeSign) =
      fun x => ~~~operand mem b sizeB x := by
    funext x
    simp [negativeSign]
  have complement := total_not (operand mem b sizeB) sizeRes
  rw [magnitudeAt_operand mem b roomB] at complement
  rw [flipped, magnitudeAt_operand mem a roomA] at value
  have below : magnitudeAt mem₁ res sizeRes < 2 ^ (w * sizeRes) := magnitudeAt_lt mem₁ res le_rfl
  rcases Nat.le_one_iff_eq_zero_or_eq_one.mp small with zero | one
  · obtain ⟨⟨mem₂, carry₂⟩, run₂, ⟨-, frame₂, value₂⟩⟩ := negateLoop_spec fits mem₁ res sizeRes
    have complement₁ := total_not (fun x => mem₁ (res + x)) sizeRes
    have below₂ : magnitudeAt mem₂ res sizeRes < 2 ^ (w * sizeRes) := magnitudeAt_lt mem₂ res le_rfl
    rw [total_one limb pos] at value₂
    simp only at zero value value₂
    subst zero
    refine ⟨mem₂, ~~~signA, ?_, fun y outside => (frame₂ y outside).trans (frame y outside),
      .inr ⟨rfl, ?_⟩⟩
    · simp only [addInOrder, start, run, run₂, Exec.done_bind, Exec.pure_eq]
      simp only [positiveSign, BitVec.ofNat_eq_ofNat, BitVec.zero_and, BitVec.xor_zero, true_and]
      exact if_pos ne
    · change _ + magnitudeAt mem₁ res sizeRes + 1 = _ at complement₁
      generalize 2 ^ (w * sizeRes) = N at *
      obtain rfl : carry₂ = 0 := by
        by_contra nonzero
        have : N ≤ carry₂ * N := Nat.le_mul_of_pos_left N (Nat.pos_of_ne_zero nonzero)
        omega
      omega
  · simp only at one value
    subst one
    refine ⟨mem₁, signA, ?_, frame, .inl ⟨rfl, by omega⟩⟩
    simp only [addInOrder, start, run, Exec.done_bind, Exec.pure_eq]
    simp [positiveSign]

end Masks

section Signs

/-- One of the two signs. -/
def IsSign (sign : BitVec w) : Prop := sign = positiveSign ∨ sign = negativeSign

theorem not_positiveSign : ~~~(positiveSign : BitVec w) = negativeSign := rfl

theorem not_negativeSign : ~~~(negativeSign : BitVec w) = positiveSign := by
  simp [negativeSign, positiveSign]

theorem xor_sign {signA signB : BitVec w} (a : IsSign signA) (b : IsSign signB) :
    signA = signB ∧ signA ^^^ signB = positiveSign ∨
      signB = ~~~signA ∧ signA ^^^ signB = negativeSign := by
  rcases a with rfl | rfl <;> rcases b with rfl | rfl
  · exact .inl ⟨rfl, by simp [positiveSign]⟩
  · exact .inr ⟨rfl, by simp [positiveSign]⟩
  · exact .inr ⟨not_negativeSign.symm, by simp [positiveSign]⟩
  · exact .inl ⟨rfl, by simp [positiveSign]⟩

theorem IsSign.not {sign : BitVec w} (is : IsSign sign) : IsSign (~~~sign) := by
  rcases is with rfl | rfl
  · exact .inr not_positiveSign
  · exact .inl not_negativeSign

theorem signedValue_not (limb : 0 < w) {sign : BitVec w} (is : IsSign sign) (m : ℕ) :
    signedValue (~~~sign) m = -signedValue sign m := by
  have ne := negativeSign_ne limb
  unfold signedValue
  rcases is with rfl | rfl
  · rw [not_positiveSign, if_pos rfl, if_neg ne.symm]
  · rw [not_negativeSign, if_pos rfl, if_neg ne.symm, neg_neg]

theorem abs_signedValue (sign : BitVec w) (m : ℕ) : |signedValue sign m| = m := by
  unfold signedValue
  split <;> simp

end Signs

/-- What `add` promises: only the limbs of the result are written; the exact sum if it fits, and else,
for operands of one sign, the limbs that there is room for. -/
structure Adds (mem mem' : Memory w) (x y : ℤ) (signA signB : BitVec w) (res sizeRes : ℕ)
    (signRes : BitVec w) : Prop where
  sign : IsSign signRes
  frame : Frame mem mem' res sizeRes
  exact : |x + y| < 2 ^ (w * sizeRes) → signedValue signRes (magnitudeAt mem' res sizeRes) = x + y
  overflow : signA = signB → 2 ^ (w * sizeRes) ≤ |x + y| →
    (magnitudeAt mem' res sizeRes : ℤ) = |x + y| % 2 ^ (w * sizeRes) ∧ signRes = signA

section Add

variable {a b res sizeA sizeB sizeRes : ℕ} {signA signB : BitVec w}

theorem addInOrder_spec (limb : 0 < w) (fits : w < 128) (mem : Memory w)
    (aliasA : Alias a sizeA res sizeRes) (aliasB : Alias b sizeB res sizeRes)
    (roomA : sizeA ≤ sizeRes) (roomB : sizeB ≤ sizeRes) (pos : 0 < sizeRes) (isA : IsSign signA)
    (isB : IsSign signB) :
    ∃ mem' signRes,
      addInOrder mem a sizeA signA b sizeB (signA ^^^ signB) res sizeRes = .done (mem', signRes) ∧
        Adds mem mem' (signedValue signA (magnitudeAt mem a sizeA))
          (signedValue signB (magnitudeAt mem b sizeB)) signA signB res sizeRes signRes := by
  rcases xor_sign isA isB with ⟨same, mask⟩ | ⟨other, mask⟩
  · subst same
    obtain ⟨mem', carry, run, frame, value⟩ :=
      addInOrder_same limb fits mem signA aliasA aliasB roomA roomB
    have sum : signedValue signA (magnitudeAt mem a sizeA) + signedValue signA (magnitudeAt mem b sizeB) =
        signedValue signA (magnitudeAt mem a sizeA + magnitudeAt mem b sizeB) := by
      unfold signedValue
      split <;> push_cast <;> ring
    have low : magnitudeAt mem' res sizeRes =
        (magnitudeAt mem a sizeA + magnitudeAt mem b sizeB) % 2 ^ (w * sizeRes) := by
      rw [← value, Nat.add_mul_mod_self_right, Nat.mod_eq_of_lt (magnitudeAt_lt mem' res le_rfl)]
    refine ⟨mem', signA, by rw [mask]; exact run, isA, frame, fun room => ?_, fun _ _ => ⟨?_, rfl⟩⟩
    · rw [sum, abs_signedValue] at room
      rw [sum, low, Nat.mod_eq_of_lt (by exact_mod_cast room)]
    · rw [sum, abs_signedValue, low]
      push_cast
      rfl
  · obtain ⟨mem', signRes, run, frame, cases⟩ :=
      addInOrder_opposite limb fits mem signA aliasA aliasB roomA roomB pos
    subst other
    have value : IsSign signRes ∧ signedValue signRes (magnitudeAt mem' res sizeRes) =
        signedValue signA (magnitudeAt mem a sizeA) + signedValue (~~~signA) (magnitudeAt mem b sizeB) := by
      rw [signedValue_not limb isA]
      rcases cases with ⟨rfl, eq⟩ | ⟨rfl, eq⟩
      · refine ⟨isA, ?_⟩
        rw [← eq]
        unfold signedValue
        split <;> push_cast <;> ring
      · refine ⟨isA.not, ?_⟩
        rw [signedValue_not limb isA, ← eq]
        unfold signedValue
        split <;> push_cast <;> ring
    refine ⟨mem', signRes, by rw [mask]; exact run, value.1, frame, fun _ => value.2, fun same => ?_⟩
    rcases isA with rfl | rfl
    · exact absurd same.symm (negativeSign_ne limb)
    · exact absurd (same.trans not_negativeSign) (negativeSign_ne limb)

theorem Adds.symm {mem mem' : Memory w} {x y : ℤ} {signRes : BitVec w}
    (adds : Adds mem mem' x y signA signB res sizeRes signRes) :
    Adds mem mem' y x signB signA res sizeRes signRes where
  sign := adds.sign
  frame := adds.frame
  exact := by
    rw [add_comm]
    exact adds.exact
  overflow := by
    intro same
    rw [add_comm, same]
    exact adds.overflow same.symm

theorem addLonger_spec (limb : 0 < w) (fits : w < 128) (mem : Memory w) (posB : 1 ≤ sizeB)
    (longer : sizeB ≤ sizeA) (room : sizeA ≤ sizeRes) (isA : IsSign signA) (isB : IsSign signB)
    (aliasA : Alias a sizeA res sizeRes) (aliasB : Alias b sizeB res sizeRes) :
    ∃ mem' signRes, addLonger mem a sizeA signA b sizeB signB res sizeRes = .done (mem', signRes) ∧
      Adds mem mem' (signedValue signA (magnitudeAt mem a sizeA))
        (signedValue signB (magnitudeAt mem b sizeB)) signA signB res sizeRes signRes := by
  unfold addLonger
  rw [if_neg (by omega)]
  by_cases swap : sizeA = sizeB ∧ aLessThanB mem a b sizeA
  · obtain ⟨rfl, -⟩ := id swap
    obtain ⟨mem', signRes, run, adds⟩ := addInOrder_spec limb fits mem aliasB aliasA room room
      (by omega) isB isA
    rw [BitVec.xor_comm] at run
    exact ⟨mem', signRes, (if_pos swap).trans run, adds.symm⟩
  · obtain ⟨mem', signRes, run, adds⟩ := addInOrder_spec limb fits mem aliasA aliasB room
      (longer.trans room) (by omega) isA isB
    exact ⟨mem', signRes, (if_neg swap).trans run, adds⟩

/-- The glance at the top limbs only saves the second loop. -/
theorem add_spec (limb : 0 < w) (fits : w < 128) (mem : Memory w) (posA : 1 ≤ sizeA)
    (posB : 1 ≤ sizeB) (roomA : sizeA ≤ sizeRes) (roomB : sizeB ≤ sizeRes) (isA : IsSign signA)
    (isB : IsSign signB) (aliasA : Alias a sizeA res sizeRes) (aliasB : Alias b sizeB res sizeRes) :
    ∃ mem' signRes, add mem a sizeA signA b sizeB signB res sizeRes = .done (mem', signRes) ∧
      Adds mem mem' (signedValue signA (magnitudeAt mem a sizeA))
        (signedValue signB (magnitudeAt mem b sizeB)) signA signB res sizeRes signRes := by
  unfold add
  by_cases shorter : sizeB > sizeA
  · rw [if_pos shorter]
    obtain ⟨mem', signRes, run, adds⟩ := addLonger_spec limb fits mem posA (by omega) roomB isB isA
      aliasB aliasA
    exact ⟨mem', signRes, run, adds.symm⟩
  · rw [if_neg shorter]
    exact addLonger_spec limb fits mem posB (by omega) roomA isA isB aliasA aliasB

/-- The sum of two numbers, each of which the result may be written over. -/
theorem add_value (limb : 0 < w) (fits : w < 128) (mem : Memory w) (posA : 1 ≤ sizeA)
    (posB : 1 ≤ sizeB) (room : max sizeA sizeB ≤ sizeRes) (isA : IsSign signA) (isB : IsSign signB)
    (aliasA : Alias a sizeA res sizeRes) (aliasB : Alias b sizeB res sizeRes) :
    ∃ mem' signRes, add mem a sizeA signA b sizeB signB res sizeRes = .done (mem', signRes) ∧
      Adds mem mem' (signedValue signA (magnitudeAt mem a sizeA))
        (signedValue signB (magnitudeAt mem b sizeB)) signA signB res sizeRes signRes := by
  obtain ⟨roomA, roomB⟩ := max_le_iff.mp room
  exact add_spec limb fits mem posA posB roomA roomB isA isB aliasA aliasB

def threeAndFive : Memory 64 := fun x => if x = 0 then 3 else if x = 10 then 5 else 0

/-- Three limbs of which only the lowest differ, the result written over the first operand. -/
theorem add_value_wrong_order : ∃ mem' signRes,
    add threeAndFive 0 3 positiveSign 10 3 negativeSign 0 3 = .done (mem', signRes) ∧
      signedValue signRes (magnitudeAt mem' 0 3) = -2 := by
  have three : magnitudeAt threeAndFive 0 3 = 3 := by decide +kernel
  have five : magnitudeAt threeAndFive 10 3 = 5 := by decide +kernel
  obtain ⟨mem', signRes, run, adds⟩ := add_value (by decide) (by decide) threeAndFive
    (show 1 ≤ 3 by decide) (show 1 ≤ 3 by decide) (show max 3 3 ≤ 3 by decide) (.inl rfl) (.inr rfl)
    (show Alias 0 3 0 3 from .inl rfl) (show Alias 10 3 0 3 from .inr (.inr (by decide)))
  have exact := adds.exact
  rw [three, five] at exact
  exact ⟨mem', signRes, run, exact (by decide +kernel)⟩

/-- With one limb more than its operands a sum always fits. -/
theorem plus_value (limb : 0 < w) (fits : w < 128) (mem : Memory w) (posA : 1 ≤ sizeA)
    (posB : 1 ≤ sizeB) (isA : IsSign signA) (isB : IsSign signB)
    (aliasA : Alias a sizeA res (max sizeA sizeB + 1))
    (aliasB : Alias b sizeB res (max sizeA sizeB + 1)) :
    ∃ mem' signRes, plus mem a sizeA signA b sizeB signB res = .done (mem', signRes) ∧
      signedValue signRes (magnitudeAt mem' res (max sizeA sizeB + 1)) =
        signedValue signA (magnitudeAt mem a sizeA) + signedValue signB (magnitudeAt mem b sizeB) := by
  obtain ⟨mem', signRes, run, adds⟩ := add_spec limb fits mem posA posB
    ((le_max_left _ _).trans (Nat.le_succ _)) ((le_max_right _ _).trans (Nat.le_succ _)) isA isB aliasA aliasB
  refine ⟨mem', signRes, run, adds.exact (show _ < 2 ^ (w * (max sizeA sizeB + 1)) from ?_)⟩
  have aLt : magnitudeAt mem a sizeA < 2 ^ (w * max sizeA sizeB) := magnitudeAt_lt mem a (le_max_left _ _)
  have bLt : magnitudeAt mem b sizeB < 2 ^ (w * max sizeA sizeB) := magnitudeAt_lt mem b (le_max_right _ _)
  have twice : 2 * 2 ^ (w * max sizeA sizeB) ≤ 2 ^ (w * (max sizeA sizeB + 1)) := by
    rw [pow_limbs_succ]
    exact Nat.mul_le_mul_right _ (Nat.one_lt_two_pow limb.ne')
  have sum := abs_add_le (signedValue signA (magnitudeAt mem a sizeA))
    (signedValue signB (magnitudeAt mem b sizeB))
  rw [abs_signedValue, abs_signedValue] at sum
  zify at aLt bLt twice
  linarith

theorem minus_value (limb : 0 < w) (fits : w < 128) (mem : Memory w) (posA : 1 ≤ sizeA)
    (posB : 1 ≤ sizeB) (isA : IsSign signA) (isB : IsSign signB)
    (aliasA : Alias a sizeA res (max sizeA sizeB + 1))
    (aliasB : Alias b sizeB res (max sizeA sizeB + 1)) :
    ∃ mem' signRes, minus mem a sizeA signA b sizeB signB res = .done (mem', signRes) ∧
      signedValue signRes (magnitudeAt mem' res (max sizeA sizeB + 1)) =
        signedValue signA (magnitudeAt mem a sizeA) - signedValue signB (magnitudeAt mem b sizeB) := by
  have flip : negativeSign ^^^ signB = ~~~signB := by simp [negativeSign]
  unfold minus
  rw [flip, sub_eq_add_neg, ← signedValue_not limb isB]
  exact plus_value limb fits mem posA posB isA isB.not aliasA aliasB

end Add

end FixedInteger

end ChiaVdf
