import ChiaVdf.Nucomp

/-! `Reducer.h`: reduction that works on the leading 63 bits of the coefficients and applies
the cofactors of a whole run of steps at once. What it returns is in the class it was given,
whatever the leading bits were: a matrix is only applied when its determinant is one. -/
namespace ChiaVdf

namespace Reducer

def THRESH : ℤ := 2 ^ 31
def EXP_THRESH : ℤ := 31

/-- `mpz_getlimbn`. -/
def mpzGetlimbn (n i : ℤ) : ℤ :=
  if 0 ≤ i ∧ i < |mpSize n| then (n.natAbs / 2 ^ (64 * i.toNat) % 2 ^ 64 : ℕ) else 0

/-- Leading zeros of a limb. -/
def lzcnt64 (x : ℤ) : ℤ := if x = 0 then 64 else 64 - mpzSizeinbase2 x

/-- A shift of a `uint64_t`, to the left where `shift` is positive. -/
def signedShift (op shift : ℤ) : ℤ :=
  if shift > 0 then word (op * 2 ^ shift.toNat)
  else if shift ≤ -64 then 0
  else word (op / 2 ^ (-shift).toNat)

/-- The leading bits of a number and its exponent. -/
def mpzGetSi2exp (op : ℤ) : ℤ × ℤ :=
  let size := |mpSize op|
  let last := mpzGetlimbn op (size - 1)
  let lg2 := 63 - lzcnt64 last + 1
  let r := signedShift last (63 - lg2)
  let (r, exp) :=
    if size > 1 then (word (r + signedShift (mpzGetlimbn op (size - 2)) (-1 - lg2)), lg2 + (size - 1) * 64)
    else (r, lg2)
  (if op < 0 then word (-r) else r, exp)

/-- Where the form is reduced up to the order and the sign of its coefficients, these are put
right. -/
def isReduced (f : Form) : Option Form :=
  if |f.a| < |f.b| ∨ |f.c| < |f.b| then none
  else if f.a > f.c then some ⟨f.c, -f.b, f.a⟩
  else if f.a = f.c ∧ f.b < 0 then some ⟨f.a, -f.b, f.c⟩
  else some f

/-- One step on the whole numbers. -/
def reducer (f : Form) : Exec Form := do
  let r ← mpzFdivQ f.b f.c
  let s := (r + 1) / 2
  let m := f.c * s
  return ⟨f.c, 2 * m - f.b, f.a + s * (m - f.b)⟩

/-- `llabs`, which the most negative number has no room for. -/
def llabs (x : ℤ) : Exec ℤ := if x = -2 ^ 63 then .fault .overflow else .done |x|

structure Cofactors where
  u : ℤ
  v : ℤ
  w : ℤ
  x : ℤ

def quotient (b c : ℤ) : Exec ℤ :=
  if b ≥ 0 then mpzTdivQ (word (b + c)) (word (2 * c))
  else do
    let q ← mpzTdivQ (word (-b + c)) (word (2 * c))
    return word (-q)

/-- The `do` loop of `calc_uvwx` from the cofactors `m` on. -/
def calcLoop : ℕ → Cofactors → ℤ → ℤ → ℤ → Exec Cofactors
  | 0, _, _, _, _ => .diverged
  | fuel + 1, m, a, b, c => do
    let s ← quotient b c
    let c' := word (a - s * (b - c * s))
    let m' : Cofactors := ⟨m.v, word (-m.u + s * m.v), m.x, word (-m.w + s * m.x)⟩
    let v ← llabs m'.v
    let x ← llabs m'.x
    if (v.toNat ||| x.toNat) ≤ THRESH.toNat then
      if c > c' ∧ c' > 0 then calcLoop fuel m' c (word (-b + 2 * (c * s))) c' else .done m'
    else .done m

def calcUvwx (a b c : ℤ) : Exec Cofactors := calcLoop (c.natAbs + 2) ⟨1, 0, 0, 1⟩ a b c

/-- The form in the coordinates of the cofactors; their products are words. -/
def apply (m : Cofactors) (f : Form) : Form where
  a := f.a * word (m.u * m.u) + f.b * word (m.u * m.w) + f.c * word (m.w * m.w)
  b := f.a * word (2 * (m.u * m.v)) + f.b * word (m.u * m.x + m.v * m.w) + f.c * word (2 * (m.w * m.x))
  c := f.a * word (m.v * m.v) + f.b * word (m.v * m.x) + f.c * word (m.x * m.x)

/-- The body of the loop of `run`. -/
def turn (f : Form) : Exec Form :=
  let (a, aExp) := mpzGetSi2exp f.a
  let (b, bExp) := mpzGetSi2exp f.b
  let (c, cExp) := mpzGetSi2exp f.c
  let first := min aExp (min bExp cExp)
  let second := max aExp (max bExp cExp)
  if second - first > EXP_THRESH then reducer f
  else do
    let maxExp := second + 1
    let m ← calcUvwx (a / 2 ^ (maxExp - aExp).toNat) (b / 2 ^ (maxExp - bExp).toNat)
      (c / 2 ^ (maxExp - cExp).toNat)
    return apply m f

def run : ℕ → Form → Exec Form
  | 0, _ => .diverged
  | turns + 1, f =>
    match isReduced f with
    | some g => .done g
    | none => do
      let f ← turn f
      run turns f

section Matrix

/-- What the threshold leaves: entries of 32 bits and determinant one. -/
structure Unimodular (m : Cofactors) : Prop where
  u : |m.u| ≤ 2 ^ 31
  v : |m.v| ≤ 2 ^ 31
  w : |m.w| ≤ 2 ^ 31
  x : |m.x| ≤ 2 ^ 31
  det : m.u * m.x - m.v * m.w = 1

theorem unimodular_one : Unimodular ⟨1, 0, 0, 1⟩ := by constructor <;> norm_num

theorem llabs_done {x y : ℤ} (run : llabs x = .done y) : y = |x| := by
  unfold llabs at run
  split at run
  · cases run
  · exact (Exec.done.inj run).symm

theorem le_of_lor {v x : ℤ} (below : (|v|.toNat ||| |x|.toNat) ≤ THRESH.toNat) :
    |v| ≤ 2 ^ 31 ∧ |x| ≤ 2 ^ 31 := by
  have first : |v|.toNat ≤ (|v|.toNat ||| |x|.toNat) := Nat.left_le_or
  have second : |x|.toNat ≤ (|v|.toNat ||| |x|.toNat) := Nat.right_le_or
  have thresh : THRESH.toNat = 2 ^ 31 := rfl
  constructor <;> omega

theorem word_close (x : ℤ) : ∃ j, word x = x + 2 ^ 64 * j :=
  ⟨-((x + 2 ^ 63) / 2 ^ 64), by unfold word gmpLimbBits; rw [Int.bmod_def]; omega⟩

theorem abs_mul_le {x y : ℤ} (hx : |x| ≤ 2 ^ 31) (hy : |y| ≤ 2 ^ 31) : |x * y| ≤ 2 ^ 62 := by
  rw [abs_mul]
  calc |x| * |y| ≤ 2 ^ 31 * 2 ^ 31 := mul_le_mul hx hy (abs_nonneg y) (by norm_num)
    _ = 2 ^ 62 := by norm_num

/-- The next cofactors are unimodular even where a word wrapped around: their determinant is
one modulo `2 ^ 64` and too small for anything else. -/
theorem Unimodular.next {m : Cofactors} (uni : Unimodular m) {s v x : ℤ}
    (hv : v = word (-m.u + s * m.v)) (hx : x = word (-m.w + s * m.x)) (vs : |v| ≤ 2 ^ 31)
    (xs : |x| ≤ 2 ^ 31) : Unimodular ⟨m.v, v, m.x, x⟩ where
  u := uni.v
  v := vs
  w := uni.x
  x := xs
  det := by
    obtain ⟨i, hi⟩ := word_close (-m.u + s * m.v)
    obtain ⟨j, hj⟩ := word_close (-m.w + s * m.x)
    have wrapped : m.v * x - v * m.x = 1 + 2 ^ 64 * (m.v * j - m.x * i) := by
      rw [hx, hv, hi, hj]
      linear_combination uni.det
    have first := abs_le.mp (abs_mul_le uni.v xs)
    have second := abs_le.mp (abs_mul_le vs uni.x)
    show m.v * x - v * m.x = 1
    generalize m.v * x = y at *
    generalize v * m.x = z at *
    generalize m.v * j - m.x * i = k at *
    omega

theorem calcLoop_unimodular (fuel : ℕ) {m m' : Cofactors} {a b c : ℤ} (uni : Unimodular m)
    (run : calcLoop fuel m a b c = .done m') : Unimodular m' := by
  induction fuel generalizing m a b c with
  | zero => cases run
  | succ fuel ih =>
    obtain ⟨s, -, run⟩ := Exec.bind_eq_done.mp run
    obtain ⟨v, hv, run⟩ := Exec.bind_eq_done.mp run
    obtain ⟨x, hx, run⟩ := Exec.bind_eq_done.mp run
    rw [llabs_done hv, llabs_done hx] at run
    split at run
    · next below =>
      obtain ⟨vs, xs⟩ := le_of_lor below
      have next := uni.next rfl rfl vs xs
      split at run
      · exact ih next run
      · exact Exec.done.inj run ▸ next
    · exact Exec.done.inj run ▸ uni

/-- Two entries that share no divisor are not both `2 ^ 31`. -/
theorem two_mul_lt {x y : ℤ} (hx : |x| ≤ 2 ^ 31) (hy : |y| ≤ 2 ^ 31) (ne : ¬(2 ∣ x ∧ 2 ∣ y)) :
    |2 * (x * y)| < 2 ^ 63 := by
  have small : |x| ≤ 2 ^ 31 - 1 ∨ |y| ≤ 2 ^ 31 - 1 := by
    by_contra large
    push Not at large
    exact ne ⟨(dvd_abs 2 x).mp (by omega), (dvd_abs 2 y).mp (by omega)⟩
  have product : |x * y| ≤ 2 ^ 31 * (2 ^ 31 - 1) := by
    rw [abs_mul]
    rcases small with h | h
    · calc |x| * |y| ≤ (2 ^ 31 - 1) * 2 ^ 31 := mul_le_mul h hy (abs_nonneg y) (by norm_num)
        _ = 2 ^ 31 * (2 ^ 31 - 1) := by norm_num
    · exact mul_le_mul hx h (abs_nonneg y) (by norm_num)
  rw [abs_mul, abs_two]
  omega

theorem Unimodular.mixed_lt {m : Cofactors} (uni : Unimodular m) : |2 * (m.u * m.v)| < 2 ^ 63 ∧
    |m.u * m.x + m.v * m.w| < 2 ^ 63 ∧ |2 * (m.w * m.x)| < 2 ^ 63 := by
  have det := uni.det
  have odd {p q r s : ℤ} (eq : p * q - r * s = 1) : ¬(2 ∣ p ∧ 2 ∣ r) := by
    rintro ⟨⟨i, rfl⟩, j, rfl⟩
    have : 2 * (i * q - j * s) = 1 := by linear_combination eq
    omega
  refine ⟨two_mul_lt uni.u uni.v (odd det), ?_, ?_⟩
  · have first := abs_le.mp (abs_mul_le uni.u uni.x)
    have second := abs_le.mp (abs_mul_le uni.v uni.w)
    generalize m.u * m.x = y at *
    generalize m.v * m.w = z at *
    exact abs_lt.mpr ⟨by omega, by omega⟩
  · refine two_mul_lt uni.w uni.x (odd (q := -m.v) (s := -m.u) ?_)
    linear_combination det

/-- None of the nine products wraps around. -/
theorem Unimodular.apply_eq {m : Cofactors} (uni : Unimodular m) (f : Form) :
    apply m f = f.act m.u m.v m.w m.x := by
  have fits {x y : ℤ} (hx : |x| ≤ 2 ^ 31) (hy : |y| ≤ 2 ^ 31) : word (x * y) = x * y := by
    apply Xgcd.word_eq
    have := abs_mul_le hx hy
    omega
  obtain ⟨uv, mixed, wx⟩ := uni.mixed_lt
  have fab := Xgcd.word_eq uv
  have fbb := Xgcd.word_eq mixed
  have fcb := Xgcd.word_eq wx
  ext
  · simp only [apply, BinaryForm.act, BinaryForm.eval, fits uni.u uni.u, fits uni.u uni.w, fits uni.w uni.w]
    ring
  · simp only [apply, BinaryForm.act, fab, fbb, fcb]
    ring
  · simp only [apply, BinaryForm.act, BinaryForm.eval, fits uni.v uni.v, fits uni.v uni.x, fits uni.x uni.x]
    ring

end Matrix

section Class

open BinaryForm

variable {f g : Form}

theorem reducer_equivalent (run : reducer f = .done g) : ProperlyEquivalent f g := by
  obtain ⟨r, -, run⟩ := Exec.bind_eq_done.mp run
  obtain rfl := Exec.done.inj run
  refine ((equivalent_swap f).trans (equivalent_translate _ ((r + 1) / 2))).trans ?_
  convert ProperlyEquivalent.refl _ using 1
  ext <;> simp only <;> ring

theorem turn_equivalent (run : turn f = .done g) : ProperlyEquivalent f g := by
  simp only [turn] at run
  split at run
  · exact reducer_equivalent run
  · obtain ⟨m, cofactors, run⟩ := Exec.bind_eq_done.mp run
    have uni := calcLoop_unimodular _ unimodular_one cofactors
    obtain rfl := Exec.done.inj run
    rw [uni.apply_eq]
    exact ⟨_, _, _, _, uni.det, rfl⟩

/-- The order of the outer coefficients and the signs are put right within the class. -/
theorem isReduced_equivalent (last : isReduced f = some g) :
    ProperlyEquivalent f g ∧ |g.b| ≤ |g.a| ∧ g.a ≤ g.c := by
  unfold isReduced at last
  split_ifs at last with large swap same
  · obtain rfl := Option.some.inj last
    push Not at large
    exact ⟨equivalent_swap f, by simpa using large.2, swap.le⟩
  · obtain rfl := Option.some.inj last
    push Not at large
    refine ⟨?_, by simpa using large.1, same.1.le⟩
    convert equivalent_swap f using 2
    · exact same.1
    · exact same.1.symm
  · obtain rfl := Option.some.inj last
    push Not at large
    exact ⟨.refl f, large.1, not_lt.mp swap⟩

/-- Whatever `run` returns is a nearly reduced member of the class it was given. -/
theorem run_equivalent (turns : ℕ) (ends : run turns f = .done g) :
    ProperlyEquivalent f g ∧ |g.b| ≤ |g.a| ∧ g.a ≤ g.c := by
  induction turns generalizing f with
  | zero => cases ends
  | succ turns ih =>
    rw [run] at ends
    split at ends
    · next h last =>
      obtain rfl := Exec.done.inj ends
      exact isReduced_equivalent last
    · obtain ⟨h, step, ends⟩ := Exec.bind_eq_done.mp ends
      obtain ⟨e, small⟩ := ih ends
      exact ⟨(turn_equivalent step).trans e, small⟩

end Class

end Reducer

/-- The arithmetic the verifier and the provers are built with; every reduction may take
`turns` turns. -/
def FormArith.pulmark (turns : ℕ) : FormArith where
  nudupl := nuduplForm
  nucomp := nucompForm
  reduce := Reducer.run turns

theorem FormArith.pulmark_sound (turns : ℕ) (d : Discriminant) : (FormArith.pulmark turns).Sound d where
  nudupl rep run := by
    obtain ⟨h, run', rep'⟩ := nuduplForm_spec rep
    rwa [Exec.done.inj (run.symm.trans run')]
  nucomp rep rep' run := by
    obtain ⟨h, run', reph⟩ := nucompForm_spec rep rep'
    rwa [Exec.done.inj (run.symm.trans run')]
  reduce rep run := rep.equivalent (Reducer.run_equivalent turns run).1

end ChiaVdf
