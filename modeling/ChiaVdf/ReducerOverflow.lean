import ChiaVdf.ReducerWords
import ChiaVdf.XgcdWords

/-! The signed arithmetic of `Reducer.h`: a turn of `run` in which every sum, product and shift to the left has to be
a value of its type, and that no operation of the turn fails this. -/
namespace ChiaVdf.Reducer

section Checked

/-- A value of type `int_fast64_t`. -/
def int64 (x : ℤ) : Exec ℤ := Xgcd.signedLimb 64 x

/-- `signed_shift`, where a shift to the left may not drop a bit either. -/
def signedShiftChecked (op shift : ℤ) : Exec ℤ :=
  if shift > 0 then int64 (op * 2 ^ shift.toNat)
  else if shift ≤ -64 then .done 0
  else do
    let n ← int64 (-shift)
    int64 (op / 2 ^ n.toNat)

/-- The part of `mpz_get_si_2exp` for more than one limb. -/
def addPrev (op size lg2 r : ℤ) : Exec (ℤ × ℤ) :=
  if size > 1 then do
    let less ← int64 (size - 1)
    let bits ← int64 (less * 64)
    let exp ← int64 (lg2 + bits)
    let shift ← int64 (-1 - lg2)
    let t ← signedShiftChecked (mpzGetlimbn op (size - 2)) shift
    let r ← int64 (r + t)
    return (r, exp)
  else .done (r, lg2)

def mpzGetSi2expChecked (op : ℤ) : Exec (ℤ × ℤ) := do
  let size := |mpSize op|
  let last := mpzGetlimbn op (size - 1)
  let lg2 := 63 - lzcnt64 last + 1
  let shift ← int64 (63 - lg2)
  let r ← signedShiftChecked last shift
  let p ← addPrev op size lg2 r
  if op < 0 then do
    let r ← int64 (-p.1)
    return (r, p.2)
  else .done p

def quotientChecked (b c : ℤ) : Exec ℤ :=
  if b ≥ 0 then do
    let n ← int64 (b + c)
    let d ← int64 (2 * c)
    let s ← mpzTdivQ n d
    int64 s
  else do
    let m ← int64 (-b)
    let n ← int64 (m + c)
    let n ← int64 (-n)
    let d ← int64 (2 * c)
    let s ← mpzTdivQ n d
    int64 s

/-- What a turn of `calc_uvwx` computes. -/
structure Step where
  b : ℤ
  c : ℤ
  v : ℤ
  x : ℤ

/-- The assignments of a turn. `c * s` is shifted as an unsigned number. -/
def stepChecked (m : Cofactors) (a b c : ℤ) : Exec Step := do
  let s ← quotientChecked b c
  let cs ← int64 (c * s)
  let minusB ← int64 (-b)
  let twice ← int64 (2 * cs)
  let b' ← int64 (minusB + twice)
  let gap ← int64 (b - cs)
  let product ← int64 (s * gap)
  let c' ← int64 (a - product)
  let minusU ← int64 (-m.u)
  let sv ← int64 (s * m.v)
  let v ← int64 (minusU + sv)
  let minusW ← int64 (-m.w)
  let sx ← int64 (s * m.x)
  let x ← int64 (minusW + sx)
  return ⟨b', c', v, x⟩

def calcLoopChecked : ℕ → Cofactors → ℤ → ℤ → ℤ → Exec Cofactors
  | 0, _, _, _, _ => .diverged
  | fuel + 1, m, a, b, c => do
    let next ← stepChecked m a b c
    let m' : Cofactors := ⟨m.v, next.v, m.x, next.x⟩
    let v ← llabs m'.v
    let x ← llabs m'.x
    if (v.toNat ||| x.toNat) ≤ THRESH.toNat then
      if c > next.c ∧ next.c > 0 then calcLoopChecked fuel m' c next.b next.c else .done m'
    else .done m

def calcUvwxChecked (a b c : ℤ) : Exec Cofactors := calcLoopChecked (c.natAbs + 2) ⟨1, 0, 0, 1⟩ a b c

/-- The nine products of `run`; two of them are shifted as unsigned numbers. -/
def applyChecked (m : Cofactors) (f : Form) : Exec Form := do
  let uu ← int64 (m.u * m.u)
  let uw ← int64 (m.u * m.w)
  let ww ← int64 (m.w * m.w)
  let uv ← int64 (m.u * m.v)
  let twiceUv ← int64 (2 * uv)
  let ux ← int64 (m.u * m.x)
  let vw ← int64 (m.v * m.w)
  let mixed ← int64 (ux + vw)
  let wx ← int64 (m.w * m.x)
  let twiceWx ← int64 (2 * wx)
  let vv ← int64 (m.v * m.v)
  let vx ← int64 (m.v * m.x)
  let xx ← int64 (m.x * m.x)
  return {
    a := f.a * uu + f.b * uw + f.c * ww
    b := f.a * twiceUv + f.b * mixed + f.c * twiceWx
    c := f.a * vv + f.b * vx + f.c * xx }

/-- The body of the loop of `run`. -/
def turnChecked (f : Form) : Exec Form := do
  let a ← mpzGetSi2expChecked f.a
  let b ← mpzGetSi2expChecked f.b
  let c ← mpzGetSi2expChecked f.c
  let first := min a.2 (min b.2 c.2)
  let second := max a.2 (max b.2 c.2)
  let range ← int64 (second - first)
  if range > EXP_THRESH then reducer f
  else do
    let maxExp ← int64 (second + 1)
    let aShift ← int64 (maxExp - a.2)
    let bShift ← int64 (maxExp - b.2)
    let cShift ← int64 (maxExp - c.2)
    let m ← calcUvwxChecked (a.1 / 2 ^ aShift.toNat) (b.1 / 2 ^ bShift.toNat) (c.1 / 2 ^ cShift.toNat)
    applyChecked m f

end Checked

section Int64

variable {x y : ℤ}

theorem int64_done (low : -2 ^ 63 ≤ x) (high : x < 2 ^ 63) : int64 x = .done x := by
  rw [int64, Xgcd.signedLimb, if_pos ⟨low, high⟩]

theorem int64_abs (small : |x| < 2 ^ 63) : int64 x = .done x := by
  obtain ⟨low, high⟩ := abs_lt.mp small
  exact int64_done low.le high

theorem int64_natCast {n : ℕ} (small : n < 2 ^ 63) : int64 n = .done (n : ℤ) :=
  int64_abs (by rw [Nat.abs_cast]; exact_mod_cast small)

end Int64

section Products

variable {m : Cofactors}

/-- Every product of the cofactors is a word, also where it is doubled. -/
theorem Unimodular.applyChecked_eq (uni : Unimodular m) (f : Form) : applyChecked m f = .done (apply m f) := by
  have small {x y : ℤ} (hx : |x| ≤ 2 ^ 31) (hy : |y| ≤ 2 ^ 31) : |x * y| < 2 ^ 63 := by
    have := abs_mul_le hx hy
    omega
  obtain ⟨uv, mixed, wx⟩ := uni.mixed_lt
  have products (x y : ℤ) (hx : |x| ≤ 2 ^ 31) (hy : |y| ≤ 2 ^ 31) :
      int64 (x * y) = .done (x * y) ∧ word (x * y) = x * y :=
    ⟨int64_abs (small hx hy), Xgcd.word_eq (small hx hy)⟩
  simp only [applyChecked, products _ _ uni.u uni.u, products _ _ uni.u uni.w, products _ _ uni.w uni.w,
    products _ _ uni.u uni.v, products _ _ uni.u uni.x, products _ _ uni.v uni.w, products _ _ uni.w uni.x,
    products _ _ uni.v uni.v, products _ _ uni.v uni.x, products _ _ uni.x uni.x, int64_abs uv, int64_abs mixed,
    int64_abs wx, Exec.done_bind, Exec.pure_eq, apply, Xgcd.word_eq uv, Xgcd.word_eq mixed, Xgcd.word_eq wx]

end Products

section LeadingBits

variable {op : ℤ}

/-- What an `mpz_t` can hold: the number of its limbs is an `int`. -/
def IsMpz (op : ℤ) : Prop := |mpSize op| < 2 ^ 31

instance : DecidablePred IsMpz := fun _ => inferInstanceAs (Decidable (_ < _))

theorem signedShiftChecked_eq {x : ℕ} {shift : ℤ} (far : -2 ^ 63 < shift)
    (left : 0 < shift → x * 2 ^ shift.toNat < 2 ^ 63)
    (right : shift ≤ 0 → x / 2 ^ (-shift).toNat < 2 ^ 63) :
    signedShiftChecked x shift = .done (signedShift x shift) := by
  unfold signedShiftChecked signedShift
  by_cases pos : shift > 0
  · have small := left pos
    have fits : |(x : ℤ) * 2 ^ shift.toNat| < 2 ^ 63 := by
      rw [abs_of_nonneg (by positivity)]
      exact_mod_cast small
    rw [if_pos pos, if_pos pos, int64_abs fits, Xgcd.word_eq fits]
  · rw [if_neg pos, if_neg pos]
    by_cases none : shift ≤ -64
    · rw [if_pos none, if_pos none]
    · have small := right (not_lt.mp pos)
      have fits : |(x : ℤ) / 2 ^ (-shift).toNat| < 2 ^ 63 := by
        rw [abs_of_nonneg (by positivity)]
        exact_mod_cast small
      have amount : |-shift| < 2 ^ 63 := abs_lt.mpr ⟨by omega, by omega⟩
      rw [if_neg none, if_neg none, int64_abs amount, Exec.done_bind, int64_abs fits, Xgcd.word_eq fits]

theorem signedShiftChecked_top {n : ℕ} (nonzero : n ≠ 0) :
    signedShiftChecked (n / 2 ^ (64 * (n.log2 / 64)) : ℕ) (63 - ((n.log2 % 64 : ℕ) + 1)) = .done (topBits n : ℤ) := by
  obtain ⟨limb, positive, bits⟩ := top_limb nonzero
  have below := Nat.lt_log2_self (n := n / 2 ^ (64 * (n.log2 / 64)))
  rw [bits] at below
  have small : n.log2 % 64 < 64 := Nat.mod_lt _ (by decide)
  rw [signedShiftChecked_eq (by omega), signedShift_top nonzero]
  · intro room
    have amount : (63 - ((n.log2 % 64 : ℕ) + 1) : ℤ).toNat = 62 - n.log2 % 64 := by omega
    rw [amount]
    calc _ < 2 ^ (n.log2 % 64 + 1) * 2 ^ (62 - n.log2 % 64) := Nat.mul_lt_mul_of_pos_right below (by positivity)
      _ = 2 ^ 63 := by rw [← pow_add]; congr 1; omega
  · intro full
    have amount : (-(63 - ((n.log2 % 64 : ℕ) + 1)) : ℤ).toNat = n.log2 % 64 - 62 := by omega
    rw [amount, Nat.div_lt_iff_lt_mul (by positivity), ← pow_add]
    exact below.trans_eq (congrArg (2 ^ ·) (by omega))

theorem signedShiftChecked_prev {x t : ℕ} (limb : x < 2 ^ 64) (small : t < 64) :
    signedShiftChecked x (-1 - ((t : ℕ) + 1)) = .done ((x / 2 ^ (t + 2) : ℕ) : ℤ) := by
  rw [signedShiftChecked_eq (by omega) (by omega), signedShift_prev limb]
  intro _
  have quotient : x / 2 ^ (-(-1 - ((t : ℕ) + 1)) : ℤ).toNat ≤ x / 2 ^ 1 :=
    Nat.div_le_div_left (Nat.pow_le_pow_right (by decide) (by omega)) (by decide)
  omega

theorem addPrev_done {n : ℕ} (few : n.log2 / 64 + 1 < 2 ^ 31) (nonneg : op.natAbs = n) (nonzero : op ≠ 0) :
    addPrev op ((n.log2 / 64 : ℕ) + 1) ((n.log2 % 64 : ℕ) + 1) (topBits n) =
      .done (((n * 2 ^ 63 / 2 ^ (n.log2 + 1) : ℕ) : ℤ), ((n.log2 + 1 : ℕ) : ℤ)) := by
  have split := Nat.div_add_mod n.log2 64
  have small : n.log2 % 64 < 64 := Nat.mod_lt _ (by decide)
  have fits := leading_lt (n := n)
  unfold addPrev
  by_cases more : 0 < n.log2 / 64
  · have size := mpSize_abs nonzero
    rw [nonneg] at size
    have prev : mpzGetlimbn op ((n.log2 / 64 : ℕ) + 1 - 2) = (n / 2 ^ (64 * (n.log2 / 64 - 1)) % 2 ^ 64 : ℕ) := by
      rw [← nonneg, ← mpzGetlimbn_natCast (by rw [nonneg]; omega), nonneg]
      congr 1
      omega
    have sum : (topBits n : ℤ) + (n / 2 ^ (64 * (n.log2 / 64 - 1)) % 2 ^ 64 / 2 ^ (n.log2 % 64 + 2) : ℕ) =
        (n * 2 ^ 63 / 2 ^ (n.log2 + 1) : ℕ) := by
      rw [← Nat.cast_add, topBits_add more]
    rw [if_pos (by omega), int64_done (by omega) (by omega), Exec.done_bind, int64_done (by omega) (by omega),
      Exec.done_bind, int64_done (by omega) (by omega), Exec.done_bind, int64_done (by omega) (by omega),
      Exec.done_bind, prev, signedShiftChecked_prev (Nat.mod_lt _ (by positivity)) small, Exec.done_bind, sum,
      int64_natCast fits, Exec.done_bind]
    exact congrArg Exec.done (Prod.ext rfl (by dsimp only; omega))
  · have zero : n.log2 / 64 = 0 := by omega
    rw [if_neg (by omega), topBits_eq zero]
    exact congrArg Exec.done (Prod.ext rfl (by dsimp only; omega))

/-- `mpz_get_si_2exp` computes no value that leaves its type. -/
theorem mpzGetSi2expChecked_eq (holds : IsMpz op) : mpzGetSi2expChecked op = .done (mpzGetSi2exp op) := by
  by_cases zero : op = 0
  · subst zero
    decide
  have nonzero : op.natAbs ≠ 0 := Int.natAbs_ne_zero.mpr zero
  have size := mpSize_abs zero
  obtain ⟨limb, positive, bits⟩ := top_limb nonzero
  have few : op.natAbs.log2 / 64 + 1 < 2 ^ 31 := by
    rw [IsMpz, size] at holds
    omega
  have last : mpzGetlimbn op ((op.natAbs.log2 / 64 : ℕ) + 1 - 1) =
      (op.natAbs / 2 ^ (64 * (op.natAbs.log2 / 64)) : ℕ) := by
    rw [add_sub_cancel_right, mpzGetlimbn_natCast (by omega), limb]
  have small : op.natAbs.log2 % 64 < 64 := Nat.mod_lt _ (by decide)
  have whole : mpzSizeinbase2 op = op.natAbs.log2 + 1 := if_neg zero
  have fits := leading_lt (n := op.natAbs)
  rw [mpzGetSi2exp_eq zero, leading, whole]
  simp only [mpzGetSi2expChecked, size, last, lzcnt64_log2 _ positive, bits]
  rw [int64_done (by omega) (by omega), Exec.done_bind, signedShiftChecked_top nonzero, Exec.done_bind,
    addPrev_done few rfl zero, Exec.done_bind]
  by_cases minus : op < 0
  · have negated : |(-(op.natAbs * 2 ^ 63 / 2 ^ (op.natAbs.log2 + 1) : ℕ) : ℤ)| < 2 ^ 63 := by
      rw [abs_neg, Nat.abs_cast]
      exact_mod_cast fits
    rw [if_pos minus, int64_abs negated, Exec.done_bind, Int.sign_eq_neg_one_of_neg minus, neg_one_mul]
    rfl
  · rw [if_neg minus, Int.sign_eq_one_of_pos (by omega), one_mul]

end LeadingBits

section Turns

variable {w g : Form} {m : Cofactors}

/-- What more is known of the leading words of a form: none of the outer ones is small, and the discriminant is off
by no more than the last places of the words. -/
structure Tight (w : Form) : Prop extends Fits w where
  a_le : 2 ^ 30 ≤ w.a
  c_le : 2 ^ 30 ≤ w.c
  disc_le : w.disc ≤ 4 * w.a + 4 * w.c + 4 + 2 ^ 62

/-- The words at a turn: the first ones, those after one turn, and later ones. -/
inductive Stage (w : Form) : Form → Prop where
  | first : Stage w w
  | second {s : ℤ} (close : |2 * (w.c * s) - w.b| ≤ w.c) :
    Stage w ⟨w.c, -w.b + 2 * (w.c * s), w.a - s * (w.b - w.c * s)⟩
  | later {g : Form} (pos : 0 < g.a) (b_le : |g.b| ≤ g.a) (a_le : 0 ≤ w.disc → g.a ≤ 2 ^ 60) : Stage w g

theorem sq_le_of_abs_le {b B : ℤ} (le : |b| ≤ B) : b ^ 2 ≤ B ^ 2 := by
  rw [← sq_abs]
  exact pow_le_pow_left₀ (abs_nonneg b) le 2

/-- The product of the outer words, where the words are no longer those of a positive definite form. -/
theorem Tight.product_le (tight : Tight w) (pos : 0 ≤ w.disc) : w.a * w.c ≤ 2 ^ 122 := by
  have square := sq_le_of_abs_le tight.b_le
  unfold BinaryForm.disc at pos
  linarith

theorem Tight.disc_bound (tight : Tight w) (pos : 0 ≤ w.disc) : w.disc ≤ 24 * 2 ^ 60 + 4 := by
  have product := tight.product_le pos
  have sum : 0 ≤ (2 ^ 62 - w.a) * (2 ^ 62 - w.c) :=
    mul_nonneg (by linarith [tight.a_lt]) (by linarith [tight.c_lt])
  have := tight.disc_le
  nlinarith

theorem Stage.a_pos (tight : Tight w) (stage : Stage w g) : 0 < g.a := by
  cases stage with
  | first => exact tight.a_pos
  | second => exact tight.c_pos
  | later pos => exact pos

theorem second_bound {x y z b s : ℤ} (eq : b = -y + 2 * (z * s)) (nonzero : s ≠ 0) (zpos : 0 < z) (xs : x < 2 ^ 62)
    (ys : |y| ≤ 2 ^ 62) (zs : z < 2 ^ 62) (product : x * z ≤ 2 ^ 122) (xpos : 0 < x)
    (square : b ^ 2 ≤ 2 ^ 62 + 4 * x + 8 * z + 4) : b ^ 2 < 2 ^ 65 := by
  have small : |b| ≤ 2 ^ 33 := abs_le_of_sq_le_sq (by linarith) (by norm_num)
  have half : 2 * z ≤ 2 ^ 62 + 2 ^ 33 := by
    have far : 2 * z ≤ |2 * (z * s)| := by
      rw [abs_mul, abs_mul, abs_two, abs_of_pos zpos]
      have := Int.one_le_abs nonzero
      nlinarith
    have triangle : |2 * (z * s)| ≤ |b| + |y| := by
      have sum : 2 * (z * s) = b + y := by rw [eq]; ring
      rw [sum]
      exact abs_add_le b y
    linarith
  by_cases large : 3 * 2 ^ 59 ≤ z
  · have scaled : x * (3 * 2 ^ 59) ≤ x * z := mul_le_mul_of_nonneg_left large xpos.le
    linarith
  · linarith

/-- At no turn is the product of the quotient too large: `b` is small next to `c`. -/
theorem Stage.square_lt (tight : Tight w) (walk : Walk w m g) (stage : Stage w g) : g.b ^ 2 < 2 ^ 65 * g.c := by
  have cpos := walk.c_pos
  have alt := walk.a_lt
  have whole : g.b ^ 2 = w.disc + 4 * g.a * g.c := by
    rw [← walk.disc, BinaryForm.disc]
    ring
  by_cases negative : w.disc < 0
  · nlinarith
  have positive : 0 ≤ w.disc := not_lt.mp negative
  have bound := tight.disc_bound positive
  by_cases two : 2 ≤ g.c
  · nlinarith
  have one : g.c = 1 := by omega
  cases stage with
  | first =>
    have := tight.c_le
    omega
  | @second s close =>
    simp only at one whole ⊢
    rw [one] at whole ⊢
    have nonzero : s ≠ 0 := by
      rintro rfl
      have := tight.a_le
      simp only [mul_zero, zero_mul, sub_zero] at one
      omega
    have := tight.disc_le
    have := second_bound rfl nonzero tight.c_pos tight.a_lt tight.b_le tight.c_lt (tight.product_le positive)
      tight.a_pos (by linarith)
    linarith
  | later _ _ a_le =>
    have := a_le positive
    rw [one] at whole ⊢
    linarith

theorem Stage.next (tight : Tight w) (walk : Walk w m g) (stage : Stage w g) {s : ℤ}
    (close : |2 * (g.c * s) - g.b| ≤ g.c) : Stage w ⟨g.c, -g.b + 2 * (g.c * s), g.a - s * (g.b - g.c * s)⟩ := by
  have smaller : |-g.b + 2 * (g.c * s)| ≤ g.c := by
    convert close using 2
    ring
  have apos := stage.a_pos tight
  have quarter (b_le : |g.b| ≤ g.a) (positive : 0 ≤ w.disc) : g.c ≤ 2 ^ 60 := by
    have square := sq_le_of_abs_le b_le
    have alt := walk.a_lt
    rw [← walk.disc, BinaryForm.disc] at positive
    nlinarith
  cases stage with
  | first => exact .second close
  | second first =>
    refine .later walk.c_pos smaller (quarter ?_)
    convert first using 2
    ring
  | later pos b_le => exact .later walk.c_pos smaller (quarter b_le)

theorem quotientChecked_eq {b c : ℤ} (bs : |b| ≤ 2 ^ 62) (pos : 0 < c) (small : c < 2 ^ 62) :
    quotientChecked b c = quotient b c := by
  obtain ⟨low, high⟩ := abs_le.mp bs
  have two : |2 * c| < 2 ^ 63 := abs_lt.mpr ⟨by linarith, by linarith⟩
  have nearest {d : ℤ} (nonneg : 0 ≤ d) (le : d ≤ 2 ^ 62) :
      |d + c| < 2 ^ 63 ∧ |(d + c).tdiv (2 * c)| < 2 ^ 63 := by
    have quotient : (d + c) / (2 * c) ≤ d + c := Int.ediv_le_self _ (by omega)
    rw [Int.tdiv_eq_ediv_of_nonneg (by omega), abs_of_nonneg (Int.ediv_nonneg (by omega) (by omega)),
      abs_of_nonneg (by omega)]
    constructor <;> linarith
  unfold quotientChecked quotient
  by_cases nonneg : b ≥ 0
  · obtain ⟨sum, result⟩ := nearest nonneg high
    rw [if_pos nonneg, if_pos nonneg, int64_abs sum, int64_abs two, Exec.done_bind, Exec.done_bind,
      Xgcd.word_eq sum, Xgcd.word_eq two, mpzTdivQ_done (by omega), Exec.done_bind, int64_abs result]
  · obtain ⟨sum, result⟩ := nearest (d := -b) (by omega) (by linarith)
    have minus : |-b| < 2 ^ 63 := by
      rw [abs_neg]
      linarith
    have sum' : |-(-b + c)| < 2 ^ 63 := by rwa [abs_neg]
    have result' : |-(-b + c).tdiv (2 * c)| < 2 ^ 63 := by rwa [abs_neg]
    rw [if_neg nonneg, if_neg nonneg, int64_abs minus, Exec.done_bind, int64_abs sum, Exec.done_bind,
      int64_abs sum', Exec.done_bind, int64_abs two, Exec.done_bind, mpzTdivQ_done (by omega), Exec.done_bind,
      Int.neg_tdiv, int64_abs result', Xgcd.word_eq sum, Xgcd.word_eq two, mpzTdivQ_done (by omega),
      Exec.done_bind, Xgcd.word_eq result']
    rfl

/-- The bounds of one turn. -/
structure InRange (m : Cofactors) (g : Form) (s : ℤ) : Prop where
  cs : |2 * (g.c * s)| < 2 ^ 63
  b : |-g.b + 2 * (g.c * s)| < 2 ^ 63
  gap : |g.b - g.c * s| < 2 ^ 63
  product : |s * (g.b - g.c * s)| < 2 ^ 63
  c : |g.a - s * (g.b - g.c * s)| < 2 ^ 63
  sv : |s * m.v| < 2 ^ 63
  v : |-m.u + s * m.v| < 2 ^ 63
  sx : |s * m.x| < 2 ^ 63
  x : |-m.w + s * m.x| < 2 ^ 63

theorem Stage.inRange (tight : Tight w) (walk : Walk w m g) (stage : Stage w g) {s : ℤ}
    (close : |2 * (g.c * s) - g.b| ≤ g.c) (gain : 0 ≤ s * (g.b - g.c * s)) : InRange m g s := by
  have cpos := walk.c_pos
  have clt := walk.c_lt
  have alt := walk.a_lt
  have apos := stage.a_pos tight
  obtain ⟨blow, bhigh⟩ := abs_le.mp walk.b_le
  obtain ⟨low, high⟩ := abs_le.mp close
  -- four times the product is a difference of squares
  have product : s * (g.b - g.c * s) < 2 ^ 63 := by
    have square := stage.square_lt tight walk
    have split : 4 * g.c * (s * (g.b - g.c * s)) = g.b ^ 2 - (2 * (g.c * s) - g.b) ^ 2 := by ring
    have nonneg := sq_nonneg (2 * (g.c * s) - g.b)
    nlinarith
  have cofactor {u v : ℤ} (us : |u| ≤ 2 ^ 31) (le : |-u + s * v| ≤ 7 * 2 ^ 60) : |s * v| < 2 ^ 63 := by
    have whole : s * v = -u + s * v + u := by ring
    rw [whole]
    refine (abs_add_le _ _).trans_lt ?_
    linarith
  constructor
  case cs => exact abs_lt.mpr ⟨by linarith, by linarith⟩
  case b => exact abs_lt.mpr ⟨by linarith, by linarith⟩
  case gap => exact abs_lt.mpr ⟨by linarith, by linarith⟩
  case product => exact abs_lt.mpr ⟨by linarith, product⟩
  case c => exact abs_lt.mpr ⟨by linarith, by linarith⟩
  case sv => exact cofactor walk.uni.u (walk.v_le tight.toFits close)
  case v => exact walk.llabs_v tight.toFits close
  case sx => exact cofactor walk.uni.w (walk.x_le tight.toFits close)
  case x => exact walk.llabs_x tight.toFits close

theorem stepChecked_done (walk : Walk w m g) {s : ℤ} (found : quotient g.b g.c = .done s)
    (range : InRange m g s) : stepChecked m g.a g.b g.c =
      .done ⟨-g.b + 2 * (g.c * s), g.a - s * (g.b - g.c * s), -m.u + s * m.v, -m.w + s * m.x⟩ := by
  have single : |g.c * s| < 2 ^ 63 := by
    have twice := range.cs
    rw [abs_mul, abs_two] at twice
    have := abs_nonneg (g.c * s)
    linarith
  have minusB : |-g.b| < 2 ^ 63 := by
    rw [abs_neg]
    exact walk.b_le.trans_lt (by norm_num)
  have minusU : |-m.u| < 2 ^ 63 := by
    rw [abs_neg]
    exact walk.uni.u.trans_lt (by norm_num)
  have minusW : |-m.w| < 2 ^ 63 := by
    rw [abs_neg]
    exact walk.uni.w.trans_lt (by norm_num)
  simp only [stepChecked, quotientChecked_eq walk.b_le walk.c_pos walk.c_lt, found, int64_abs single,
    int64_abs minusB, int64_abs range.cs, int64_abs range.b, int64_abs range.gap, int64_abs range.product,
    int64_abs range.c, int64_abs minusU, int64_abs range.sv, int64_abs range.v, int64_abs minusW,
    int64_abs range.sx, int64_abs range.x, Exec.done_bind, Exec.pure_eq]

/-- In no turn does an operation leave its type, so that the loop does what it does on words. -/
theorem calcLoopChecked_eq (fuel : ℕ) (tight : Tight w) (walk : Walk w m g) (stage : Stage w g) :
    calcLoopChecked fuel m g.a g.b g.c = calcLoop fuel m g.a g.b g.c := by
  induction fuel generalizing m g with
  | zero => rfl
  | succ fuel ih =>
    obtain ⟨s, found, close, gain⟩ := quotient_spec walk.b_le walk.c_pos walk.c_lt
    have range := stage.inRange tight walk close gain
    have v := Xgcd.word_eq range.v
    have x := Xgcd.word_eq range.x
    have b := Xgcd.word_eq range.b
    have c := Xgcd.word_eq range.c
    have hv := llabs_small range.v
    have hx := llabs_small range.x
    rw [v] at hv
    rw [x] at hx
    simp only [calcLoopChecked, calcLoop, stepChecked_done walk found range, found, v, x, b, c, hv, hx, Exec.done_bind]
    split
    · next below =>
      obtain ⟨vs, xs⟩ := le_of_lor below
      split
      · next goes =>
        have next := walk.next tight.toFits close gain (by rwa [v]) (by rwa [x]) (by rw [c]; exact goes.1)
          (by rw [c]; exact goes.2)
        rw [v, x, b, c] at next
        exact ih next (stage.next tight walk close)
      · rfl
    · rfl

theorem calcUvwxChecked_eq (tight : Tight w) : calcUvwxChecked w.a w.b w.c = calcUvwx w.a w.b w.c :=
  calcLoopChecked_eq _ tight tight.toFits.walk .first

end Turns

section LeadingWords

variable {f : Form} {op : ℤ} {e : ℕ}

/-- A word is larger than the number by no more than what was cut off it. -/
theorem abs_leadingWord_le (nonzero : op ≠ 0) (room : mpzSizeinbase2 op ≤ e) :
    |leadingWord e op| * 2 ^ (e + 1) ≤ |op| * 2 ^ 63 + (2 ^ (e + 1) - 2 ^ mpzSizeinbase2 op) := by
  obtain ⟨-, below, above⟩ := leading_scaled nonzero
  obtain ⟨q, r, qpos, low, high, exps, split⟩ := leadingWord_split nonzero room
  have larger : (1 : ℤ) ≤ 2 ^ mpzSizeinbase2 op := one_le_pow₀ (by norm_num)
  have sign : leading op = op.sign * (op.natAbs * 2 ^ 63 / 2 ^ mpzSizeinbase2 op : ℕ) := rfl
  rw [exps]
  generalize (op.natAbs * 2 ^ 63 / 2 ^ mpzSizeinbase2 op : ℕ) = l at sign
  generalize leadingWord e op = w at *
  generalize (2 : ℤ) ^ mpzSizeinbase2 op = p at *
  rcases lt_or_gt_of_ne nonzero with minus | plus
  · have scaled := above minus
    rw [Int.sign_eq_neg_one_of_neg minus] at sign
    have nonpos : w ≤ 0 := by nlinarith
    rw [abs_of_nonpos nonpos, abs_of_neg minus]
    rw [← split] at scaled
    have rest : r * p ≤ (q - 1) * p := mul_le_mul_of_nonneg_right (by omega) (by omega)
    linarith
  · have scaled := below plus
    rw [Int.sign_eq_one_of_pos plus] at sign
    have nonneg : 0 ≤ w := by nlinarith
    rw [abs_of_nonneg nonneg, abs_of_pos plus]
    rw [← split] at scaled
    have rest : 0 ≤ r * p := mul_nonneg low (by omega)
    have room : p ≤ q * p := le_mul_of_one_le_left (by omega) qpos
    linarith

/-- The discriminant of the words, where the middle one was cut off: a number of half the length of a word cannot be
cut off by much. -/
theorem disc_le_of_scaled {a b c x y z p q h : ℤ} (pos : 0 < p) (qpos : 0 < q) (neg : b ^ 2 < 4 * a * c) (apos : 0 < a)
    (cpos : 0 < c) (xclose : a * q < (x + 1) * p) (zclose : c * q < (z + 1) * p)
    (room : h ≤ p) (yclose : |y| * p ≤ |b| * q + (p - h)) (short : |b| * q ≤ h * 2 ^ 63) :
    y ^ 2 - 4 * x * z ≤ 4 * x + 4 * z + 4 + 2 ^ 62 := by
  have outer : b ^ 2 * q ^ 2 < 4 * (x + 1) * (z + 1) * p ^ 2 := by
    have product : a * q * (c * q) < (x + 1) * p * ((z + 1) * p) :=
      mul_lt_mul'' xclose zclose (by positivity) (by positivity)
    calc b ^ 2 * q ^ 2 ≤ 4 * a * c * q ^ 2 := mul_le_mul_of_nonneg_right neg.le (sq_nonneg q)
      _ = 4 * (a * q * (c * q)) := by ring
      _ < 4 * ((x + 1) * p * ((z + 1) * p)) := by linarith
      _ = 4 * (x + 1) * (z + 1) * p ^ 2 := by ring
  have gap : |b| * q * (p - h) * 2 ≤ 2 ^ 62 * p ^ 2 := by
    have scaled : |b| * q * (p - h) ≤ h * 2 ^ 63 * (p - h) := mul_le_mul_of_nonneg_right short (by linarith)
    have mean : 4 * (h * (p - h)) ≤ p ^ 2 := by linarith [sq_nonneg (p - 2 * h)]
    linarith
  have last : (p - h) ^ 2 ≤ p ^ 2 := by
    have hnonneg : 0 ≤ h := by
      have : 0 ≤ |b| * q := mul_nonneg (abs_nonneg b) qpos.le
      linarith
    exact pow_le_pow_left₀ (by linarith) (by linarith) 2
  have whole : y ^ 2 * p ^ 2 < (4 * (x + 1) * (z + 1) + 2 ^ 62 + 1) * p ^ 2 := by
    calc y ^ 2 * p ^ 2 = (|y| * p) ^ 2 := by rw [mul_pow, sq_abs]
      _ ≤ (|b| * q + (p - h)) ^ 2 := pow_le_pow_left₀ (mul_nonneg (abs_nonneg y) pos.le) yclose 2
      _ = b ^ 2 * q ^ 2 + |b| * q * (p - h) * 2 + (p - h) ^ 2 := by
          rw [← sq_abs b]
          ring
      _ < (4 * (x + 1) * (z + 1) + 2 ^ 62 + 1) * p ^ 2 := by linarith
  have := lt_of_mul_lt_mul_right whole (sq_nonneg p)
  linarith

theorem abs_lt_two_pow_size (op : ℤ) : |op| < 2 ^ mpzSizeinbase2 op := by
  by_cases zero : op = 0
  · subst zero
    decide
  · have bits := Nat.lt_log2_self (n := op.natAbs)
    rw [mpzSizeinbase2, if_neg zero, Int.abs_eq_natAbs]
    exact_mod_cast bits

theorem leadingWords_tight (pos : 0 < f.a) (cpos : 0 < f.c) (neg : f.disc < 0)
    (near : secondExp f - firstExp f ≤ EXP_THRESH) : Tight (leadingWords f) := by
  obtain ⟨e, same, ra, rb, rc, na, nc⟩ := exists_exponent pos cpos near
  have alow := le_leadingWord pos ra na
  have clow := le_leadingWord cpos rc nc
  have abound := leadingWord_bounds pos.ne' ra
  have cbound := leadingWord_bounds cpos.ne' rc
  have square : f.b ^ 2 < 4 * f.a * f.c := by
    unfold BinaryForm.disc at neg
    linarith
  have middle : |leadingWord e f.b| ≤ 2 ^ 62 ∧
      leadingWord e f.b ^ 2 - 4 * leadingWord e f.a * leadingWord e f.c ≤
        4 * leadingWord e f.a + 4 * leadingWord e f.c + 4 + 2 ^ 62 := by
    by_cases zero : f.b = 0
    · have none : leadingWord e f.b = 0 := by
        rw [zero, leadingWord, mpzGetSi2exp_zero, Int.zero_ediv]
      rw [none]
      refine ⟨by norm_num, ?_⟩
      have product : 0 ≤ leadingWord e f.a * leadingWord e f.c := mul_nonneg (by linarith) (by linarith)
      linarith
    · have bound := leadingWord_bounds zero (rb zero)
      refine ⟨abs_le.mpr ⟨bound.1, bound.2.le⟩, ?_⟩
      exact disc_le_of_scaled (by positivity) (by positivity) square pos cpos (lt_next_leadingWord pos ra)
        (lt_next_leadingWord cpos rc) (pow_le_pow_right₀ (by norm_num) (by have := rb zero; omega))
        (abs_leadingWord_le zero (rb zero))
        (mul_le_mul_of_nonneg_right (abs_lt_two_pow_size f.b).le (by norm_num))
  unfold leadingWords
  rw [same]
  refine ⟨⟨by linarith, abound.2, middle.1, by linarith, cbound.2, ?_⟩, alow, clow, ?_⟩
  · unfold BinaryForm.disc
    dsimp only
    linarith
  · exact middle.2

end LeadingWords

section Run

variable {f : Form}

theorem exponent_bounds {op : ℤ} (holds : IsMpz op) :
    0 ≤ (mpzGetSi2exp op).2 ∧ (mpzGetSi2exp op).2 ≤ 2 ^ 37 := by
  by_cases zero : op = 0
  · subst zero
    decide
  · have size := mpSize_abs zero
    have bits : mpzSizeinbase2 op = op.natAbs.log2 + 1 := if_neg zero
    rw [IsMpz, size] at holds
    rw [mpzGetSi2exp_eq zero, bits]
    omega

theorem shifts_done (a : IsMpz f.a) (b : IsMpz f.b) (c : IsMpz f.c) :
    int64 (secondExp f - firstExp f) = .done (secondExp f - firstExp f) ∧
    int64 (secondExp f + 1) = .done (secondExp f + 1) ∧
    ∀ op, op = f.a ∨ op = f.b ∨ op = f.c →
      int64 (secondExp f + 1 - (mpzGetSi2exp op).2) = .done (secondExp f + 1 - (mpzGetSi2exp op).2) := by
  have boundA := exponent_bounds a
  have boundB := exponent_bounds b
  have boundC := exponent_bounds c
  unfold secondExp firstExp
  refine ⟨int64_done (by omega) (by omega), int64_done (by omega) (by omega), ?_⟩
  rintro op (rfl | rfl | rfl)
  · exact int64_done (by omega) (by omega)
  · exact int64_done (by omega) (by omega)
  · exact int64_done (by omega) (by omega)

/-- On the fast path no sum, product or shift to the left leaves `int_fast64_t`: the turn in which each of them is
checked ends, with the form of the turn on words. -/
theorem turnChecked_done (f : Form) (a : IsMpz f.a) (b : IsMpz f.b) (c : IsMpz f.c) (pos : 0 < f.a) (cpos : 0 < f.c)
    (neg : f.b ^ 2 - 4 * f.a * f.c < 0) (near : secondExp f - firstExp f ≤ EXP_THRESH) :
    ∃ g, turnChecked f = .done g ∧ turn f = .done g := by
  have tight := leadingWords_tight pos cpos neg near
  obtain ⟨m, run, uni⟩ := calcUvwx_total tight.toFits
  have checked := (calcUvwxChecked_eq tight).trans run
  obtain ⟨range, maxExp, shift⟩ := shifts_done a b c
  have shiftA := shift f.a (.inl rfl)
  have shiftB := shift f.b (.inr (.inl rfl))
  have shiftC := shift f.c (.inr (.inr rfl))
  have fast : ¬secondExp f - firstExp f > EXP_THRESH := not_lt.mpr near
  refine ⟨apply m f, ?_, ?_⟩
  · simp only [leadingWords, leadingWord] at checked
    simp only [secondExp, firstExp] at range maxExp shiftA shiftB shiftC fast checked
    simp only [turnChecked, mpzGetSi2expChecked_eq a, mpzGetSi2expChecked_eq b, mpzGetSi2expChecked_eq c, range,
      maxExp, shiftA, shiftB, shiftC, checked, if_neg fast, Exec.done_bind, uni.applyChecked_eq]
  · rw [turn_eq, if_neg fast, cofactors, run, Exec.done_bind]
    rfl

/-- A form of 70 bits. -/
theorem turnChecked_done_large : ∃ g, turnChecked ⟨2 ^ 70 + 3, 2 ^ 72 + 1, 2 ^ 74⟩ = .done g ∧
    turn ⟨2 ^ 70 + 3, 2 ^ 72 + 1, 2 ^ 74⟩ = .done g :=
  turnChecked_done ⟨2 ^ 70 + 3, 2 ^ 72 + 1, 2 ^ 74⟩ (by decide +kernel) (by decide +kernel) (by decide +kernel)
    (by norm_num) (by norm_num) (by norm_num) (by decide +kernel)

end Run

end ChiaVdf.Reducer
