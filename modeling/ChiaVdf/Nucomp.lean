import ChiaVdf.FormArithmetic
import ChiaVdf.XgcdPartial

/-! `nucomp.h`: composition and squaring that stop a partial Euclidean algorithm half way, so
that the composite never grows to full size. Both end in the class of the Gauss composite. -/
namespace ChiaVdf

namespace Nucomp

/-- The numbers from which the composite is built. -/
structure Composite where
  a1 : ℤ
  a2 : ℤ
  c2 : ℤ
  k : ℤ

/-- Takes the common divisor `s` out of the leading coefficients. -/
def divideOut (s : ℤ) (z : Composite) : Exec Composite :=
  if s = 1 then .done z
  else do
    let a1 ← mpzDivexact z.a1 s
    let a2 ← mpzDivexact z.a2 s
    return { z with a1 := a1, a2 := a2, c2 := z.c2 * s }

/-- The second gcd, for leading coefficients that are not coprime. -/
def correct (ss sp : ℤ) (z : Composite) : Exec Composite :=
  if sp = 1 then .done z
  else do
    let r := mpzGcdext ss sp
    let k := z.k * r.t - r.s * z.c2
    let z ← divideOut r.gcd { z with k := k }
    let k ← mpzFdivR z.k z.a1
    return { z with k := k }

def gcds (f g : Form) : Exec Composite := do
  let ss := (f.b + g.b) / 2
  let m := (f.b - g.b) / 2
  let t ← mpzFdivR g.a f.a
  let r : GcdRes := if t = 0 then ⟨f.a, 0, 0⟩ else mpzGcdext t f.a
  let k ← mpzFdivR (m * r.s) f.a
  correct ss r.gcd ⟨f.a, g.a, g.c, k⟩

/-- The composite as it is, for a small `a1`. -/
def wholeForm (b : ℤ) (z : Composite) : Exec Form := do
  let t := z.a2 * z.k
  let cc ← mpzDivexact ((b + t) * z.k + z.c2) z.a1
  return ⟨z.a2 * z.a1, 2 * t + b, cc⟩

/-- The composite in the coordinates that the partial gcd finds. -/
def partialForm (D L ss m b : ℤ) (z : Composite) : Exec Form := do
  let s ← mpzXgcdPartial z.a1 z.k L
  let t := z.a2 * s.r1
  let m1 ← mpzDivexact (m * s.co1 + t) z.a1
  let m2 ← mpzDivexact (ss * s.r1 - z.c2 * s.co1) z.a1
  let ca := if s.co1 < 0 then s.r1 * m1 - s.co1 * m2 else s.co1 * m2 - s.r1 * m1
  let cb ← mpzDivexact ((t - ca * s.co2) * 2) s.co1
  let cb ← mpzFdivR (cb - b) (2 * ca)
  let cc ← mpzDivexact (cb * cb - D) ca
  let cc := cc / 4
  return if ca < 0 then ⟨-ca, cb, -cc⟩ else ⟨ca, cb, cc⟩

/-- `qfb_nucomp` on forms in the order it asks for. -/
def ordered (f g : Form) (D L : ℤ) : Exec Form := do
  let z ← gcds f g
  if z.a1 < L then wholeForm g.b z
  else partialForm D L ((f.b + g.b) / 2) ((f.b - g.b) / 2) g.b z

end Nucomp

open Nucomp in
def nucompForm (f g : Form) (D L : ℤ) : Exec Form :=
  if f.a > g.a then ordered g f D L else ordered f g D L

namespace Nudupl

/-- `a1` and `c1` once the gcd is out. -/
def divideOut (s : ℤ) (f : Form) : Exec (ℤ × ℤ) :=
  if s = 1 then .done (f.a, f.c)
  else do
    let a1 ← mpzFdivQ f.a s
    return (a1, f.c * s)

def wholeForm (b a1 c1 k : ℤ) : Exec Form := do
  let t := a1 * k
  let c ← mpzFdivQ ((b + t) * k + c1) a1
  return ⟨a1 * a1, 2 * t + b, c⟩

def partialForm (D L b a1 c1 k : ℤ) : Exec Form := do
  let s ← mpzXgcdPartial a1 k L
  let m2 ← mpzDivexact (b * s.r1 - c1 * s.co1) a1
  let a := s.r1 * s.r1 - s.co1 * m2
  let a := if s.co1 ≥ 0 then -a else a
  let cb ← mpzDivexact (-(a * s.co2 - a1 * s.r1) * 2) s.co1
  let cb ← mpzFdivR (cb - b) (2 * a)
  let c ← mpzDivexact (cb * cb - D) a
  let c := c.tdiv 4
  return if a < 0 then ⟨-a, cb, -c⟩ else ⟨a, cb, c⟩

end Nudupl

open Nudupl in
def nuduplForm (f : Form) (D L : ℤ) : Exec Form := do
  let r := if f.b < 0 then mpzGcdext (-f.b) f.a else mpzGcdext f.b f.a
  let v2 := if f.b < 0 then -r.s else r.s
  let k := -(v2 * f.c)
  let (a1, c1) ← divideOut r.gcd f
  let k ← mpzTdivR k a1
  let k := if k < 0 then k + a1 else k
  if a1 < L then wholeForm f.b a1 c1 k else partialForm D L f.b a1 c1 k

/-- The composite of `a2`, `b`, `c2` that `k` shows when `a1` divides the last coefficient. -/
structure Composes (N α β γ k : ℤ) (F : Form) : Prop where
  pos : 0 < N
  nonneg : 0 ≤ k
  lt : k < N
  a : F.a = N * α
  b : F.b = β + 2 * (α * k)
  c : N * F.c = (β + α * k) * k + γ

section Partial

open BinaryForm Xgcd

variable {N α β γ k L τ : ℤ} {F : Form} {s : Xgcd.State}

/-- The coordinates that the remainders and cofactors of the partial gcd stand for. -/
theorem Composes.act (comp : Composes N α β γ k F) (inv : Inv N k L τ s) :
    ∃ G, ProperlyEquivalent F G ∧
      N * G.a = α * s.r1 ^ 2 - β * s.r1 * s.co1 + γ * s.co1 ^ 2 ∧
      (G.b + β) * s.co1 = 2 * (α * s.r1 - τ * G.a * s.co2) := by
  obtain ⟨P, hP⟩ := inv.cong1
  obtain ⟨Q, hQ⟩ := inv.cong2
  have Nz := comp.pos.ne'
  have unit : τ * τ = 1 := by rcases inv.sign with rfl | rfl <;> norm_num
  have det : P * s.co2 - Q * s.co1 = τ := by
    apply mul_left_cancel₀ Nz
    linear_combination inv.total - s.co2 * hP + s.co1 * hQ
  have det' : P * (τ * s.co2) - -τ * Q * -s.co1 = 1 := by linear_combination τ * det + unit
  have ea := comp.a
  have eb := comp.b
  have ec := comp.c
  have lead : N * F.eval P (-s.co1) = α * s.r1 ^ 2 - β * s.r1 * s.co1 + γ * s.co1 ^ 2 := by
    have r1 : s.r1 = N * P - s.co1 * k := by linarith
    unfold eval
    rw [ea, eb, r1]
    linear_combination s.co1 ^ 2 * ec
  refine ⟨F.act P (-τ * Q) (-s.co1) (τ * s.co2), ⟨_, _, _, _, det', rfl⟩, lead, ?_⟩
  simp only [BinaryForm.act, eval]
  linear_combination (2 * F.a * P - F.b * s.co1) * det' - s.co1 * eb - 2 * α * hP + 2 * P * ea

/-- The middle coefficient taken modulo the leading one, whatever the sign of the latter. -/
theorem translated {G : Form} {D : ℤ} (pos : 0 < G.a) (disc : G.disc = D) (sign : τ = 1 ∨ τ = -1) :
    ∃ H, ProperlyEquivalent G H ∧ H.a = G.a ∧ mpzFdivR G.b (2 * (τ * G.a)) = .done H.b ∧
      mpzDivexact (H.b * H.b - D) (τ * G.a) = .done (4 * (τ * H.c)) := by
  have unit : τ * τ = 1 := by rcases sign with rfl | rfl <;> norm_num
  have nonzero : τ * G.a ≠ 0 := by rcases sign with rfl | rfl <;> simpa using pos.ne'
  have e := G.equivalent_translate (-(τ * G.b.fdiv (2 * (τ * G.a))))
  generalize shown : G.b.fdiv (2 * (τ * G.a)) = n at e
  refine ⟨_, e, rfl, ?_, ?_⟩
  · rw [mpzFdivR, if_neg (by simpa using nonzero), Int.fmod_def, shown]
    congr 1
    ring
  · apply mpzDivexact_exact nonzero
    have disc' := e.disc_eq.trans disc
    unfold BinaryForm.disc at disc'
    simp only at disc' ⊢
    linear_combination disc' - 4 * G.a * (G.a * (-(τ * n)) ^ 2 + G.b * -(τ * n) + G.c) * unit

theorem four_mul_tdiv (x : ℤ) : (4 * x).tdiv 4 = x := Int.mul_tdiv_cancel_left x (by norm_num)

theorem four_mul_ediv (x : ℤ) : 4 * x / 4 = x := Int.mul_ediv_cancel_left x (by norm_num)

theorem signs {H : Form} {a : ℤ} (pos : 0 < H.a) (sign : τ = 1 ∨ τ = -1) (same : H.a = a) :
    (if τ * a < 0 then (⟨-(τ * a), H.b, -(τ * H.c)⟩ : Form) else ⟨τ * a, H.b, τ * H.c⟩) = H := by
  subst same
  rcases sign with rfl | rfl
  · rw [if_neg (by omega)]
    ext <;> simp
  · rw [if_pos (by omega)]
    ext <;> simp

theorem equivalent_pos {F G : Form} (pos : 0 < F.a) (neg : F.disc < 0) (e : ProperlyEquivalent F G) :
    0 < G.a := by
  obtain ⟨p, q, r, s, det, rfl⟩ := e
  have nonzero := unimodular_left_ne_zero det
  have square : 4 * F.a * F.eval p r = (2 * F.a * p + F.b * r) ^ 2 + -F.disc * r ^ 2 := by
    unfold eval disc
    ring
  have positive : 0 < 4 * F.a * F.eval p r := by
    rw [square]
    rcases eq_or_ne r 0 with rfl | off
    · have off := nonzero.resolve_right (by simp)
      have : 0 < 2 * F.a * p ∨ 2 * F.a * p < 0 := by
        rcases lt_or_gt_of_ne off with low | high
        · exact .inr (by nlinarith)
        · exact .inl (by positivity)
      simp only [mul_zero, add_zero]
      rcases this with h | h <;> nlinarith
    · have := mul_pos (neg_pos.mpr neg) (sq_pos_of_ne_zero off)
      nlinarith [sq_nonneg (2 * F.a * p + F.b * r)]
  exact pos_of_mul_pos_right positive (by positivity)

/-- The partial gcd of `k` and `N`, also where the bound is not below `N`. -/
theorem Composes.gcd (comp : Composes N α β γ k F) (Ls : 0 ≤ L) (le : L ≤ N) :
    ∃ M τ s, mpzXgcdPartial N k L = .done s ∧ Inv N k M τ s := by
  rcases lt_or_eq_of_le le with lt | rfl
  · obtain ⟨τ, s, run, inv, -⟩ := mpzXgcdPartial_spec comp.nonneg comp.lt.le Ls lt
    exact ⟨L, τ, s, run, inv⟩
  · refine ⟨0, 1, ⟨0, -1, L, k⟩, ?_, ?_⟩
    · rw [mpzXgcdPartial_stop comp.lt.le, if_neg (by omega)]
    · have := comp.pos
      have := comp.nonneg
      have := comp.lt
      constructor <;> simp <;> omega

/-- The sign of the cofactor tells the parity of the partial gcd. -/
theorem co1_sign (inv : Inv N k L τ s) : s.co1 < 0 ∧ τ = 1 ∨ 0 < s.co1 ∧ τ = -1 := by
  have := inv.co1
  rcases inv.sign with rfl | rfl
  · left; omega
  · right; omega

theorem Nucomp.wholeForm_spec {z : Composite} (comp : Composes z.a1 z.a2 β z.c2 z.k F) :
    wholeForm β z = .done F := by
  have ea := comp.a
  have eb := comp.b
  rw [wholeForm, mpzDivexact_exact comp.pos.ne' F.c comp.c.symm, Exec.done_bind]
  congr 1
  ext
  · simp only [ea]; ring
  · simp only [eb]; ring
  · rfl

/-- The numbers that the partial branch of `nucomp` goes through: each division is exact, and the
last lines see a form `H` of the composite's class up to the sign `τ`. -/
theorem Nucomp.partial_values {z : Composite} {D ss m : ℤ} (comp : Composes z.a1 z.a2 β z.c2 z.k F)
    (Fpos : 0 < F.a) (disc : F.disc = D) (neg : D < 0) (Ls : 0 ≤ L) (le : L ≤ z.a1)
    (split : ss - m = β) (exact1 : z.a1 ∣ z.a2 * z.k - m) (exact2 : z.a1 ∣ ss * z.k + z.c2) :
    ∃ (s : Xgcd.State) (H : Form) (τ a u m1 m2 : ℤ), mpzXgcdPartial z.a1 z.k L = .done s ∧
      m * s.co1 + z.a2 * s.r1 = z.a1 * m1 ∧ ss * s.r1 - z.c2 * s.co1 = z.a1 * m2 ∧
      (if s.co1 < 0 then s.r1 * m1 - s.co1 * m2 else s.co1 * m2 - s.r1 * m1) = τ * a ∧
      s.co1 ≠ 0 ∧ (z.a2 * s.r1 - τ * a * s.co2) * 2 = s.co1 * (u + β) ∧
      mpzFdivR u (2 * (τ * a)) = .done H.b ∧
      mpzDivexact (H.b * H.b - D) (τ * a) = .done (4 * (τ * H.c)) ∧
      (τ = 1 ∨ τ = -1) ∧ H.a = a ∧ 0 < H.a ∧ ProperlyEquivalent F H := by
  obtain ⟨M, τ, s, run, inv⟩ := comp.gcd Ls le
  obtain ⟨G, e, lead, middle⟩ := comp.act inv
  have Gpos := equivalent_pos Fpos (disc ▸ neg) e
  obtain ⟨H, e', same, cb, cc⟩ := translated Gpos (e.disc_eq.trans disc) inv.sign
  obtain ⟨P, hP⟩ := inv.cong1
  obtain ⟨i, hi⟩ := exact1
  obtain ⟨j, hj⟩ := exact2
  have m1 : m * s.co1 + z.a2 * s.r1 = z.a1 * (z.a2 * P - s.co1 * i) := by
    linear_combination z.a2 * hP - s.co1 * hi
  have m2 : ss * s.r1 - z.c2 * s.co1 = z.a1 * (ss * P - s.co1 * j) := by
    linear_combination ss * hP - s.co1 * hj
  have ca : s.r1 * (z.a2 * P - s.co1 * i) - s.co1 * (ss * P - s.co1 * j) = G.a := by
    apply mul_left_cancel₀ comp.pos.ne'
    linear_combination -s.r1 * m1 + s.co1 * m2 - lead - s.r1 * s.co1 * split
  refine ⟨s, H, τ, G.a, G.b, _, _, run, m1, m2, ?_, ?_, by linarith, cb, cc, inv.sign, same,
    same ▸ Gpos, e.trans e'⟩
  · rcases co1_sign inv with ⟨low, rfl⟩ | ⟨high, rfl⟩
    · rw [if_pos low, ca]; ring
    · rw [if_neg (by omega), ← ca]; ring
  · rcases co1_sign inv with ⟨h, -⟩ | ⟨h, -⟩ <;> omega

theorem Nucomp.partialForm_spec {z : Composite} {D ss m : ℤ} (comp : Composes z.a1 z.a2 β z.c2 z.k F)
    (Fpos : 0 < F.a) (disc : F.disc = D) (neg : D < 0) (Ls : 0 ≤ L) (le : L ≤ z.a1)
    (split : ss - m = β) (exact1 : z.a1 ∣ z.a2 * z.k - m) (exact2 : z.a1 ∣ ss * z.k + z.c2) :
    ∃ H, partialForm D L ss m β z = .done H ∧ ProperlyEquivalent F H := by
  obtain ⟨s, H, τ, a, u, m1, m2, run, h1, h2, signed, nonzero, middle, cb, cc, sign, same, pos, e⟩ :=
    partial_values comp Fpos disc neg Ls le split exact1 exact2
  refine ⟨H, ?_, e⟩
  simp only [partialForm, run, Exec.done_bind, mpzDivexact_exact comp.pos.ne' _ h1,
    mpzDivexact_exact comp.pos.ne' _ h2, signed, mpzDivexact_exact nonzero _ middle,
    add_sub_cancel_right, cb, cc, four_mul_ediv, Exec.pure_eq]
  rw [signs pos sign same]

theorem Nudupl.wholeForm_spec (comp : Composes N N β γ k F) : wholeForm β N γ k = .done F := by
  have ea := comp.a
  have eb := comp.b
  rw [wholeForm, mpzFdivQ_exact comp.pos.ne' F.c comp.c.symm, Exec.done_bind]
  congr 1
  ext
  · simp only [ea]
  · simp only [eb]; ring
  · rfl

theorem Nudupl.partial_values {D : ℤ} (comp : Composes N N β γ k F) (Fpos : 0 < F.a)
    (disc : F.disc = D) (neg : D < 0) (Ls : 0 ≤ L) (le : L ≤ N) (exact : N ∣ β * k + γ) :
    ∃ (s : Xgcd.State) (H : Form) (τ a u m2 : ℤ), mpzXgcdPartial N k L = .done s ∧
      β * s.r1 - γ * s.co1 = N * m2 ∧
      (if s.co1 ≥ 0 then -(s.r1 * s.r1 - s.co1 * m2) else s.r1 * s.r1 - s.co1 * m2) = τ * a ∧
      s.co1 ≠ 0 ∧ -(τ * a * s.co2 - N * s.r1) * 2 = s.co1 * (u + β) ∧
      mpzFdivR u (2 * (τ * a)) = .done H.b ∧
      mpzDivexact (H.b * H.b - D) (τ * a) = .done (4 * (τ * H.c)) ∧
      (τ = 1 ∨ τ = -1) ∧ H.a = a ∧ 0 < H.a ∧ ProperlyEquivalent F H := by
  obtain ⟨M, τ, s, run, inv⟩ := comp.gcd Ls le
  obtain ⟨G, e, lead, middle⟩ := comp.act inv
  have Gpos := equivalent_pos Fpos (disc ▸ neg) e
  obtain ⟨H, e', same, cb, cc⟩ := translated Gpos (e.disc_eq.trans disc) inv.sign
  obtain ⟨P, hP⟩ := inv.cong1
  obtain ⟨j, hj⟩ := exact
  have m2 : β * s.r1 - γ * s.co1 = N * (β * P - s.co1 * j) := by
    linear_combination β * hP - s.co1 * hj
  have ca : s.r1 * s.r1 - s.co1 * (β * P - s.co1 * j) = G.a := by
    apply mul_left_cancel₀ comp.pos.ne'
    linear_combination s.co1 * m2 - lead
  refine ⟨s, H, τ, G.a, G.b, _, run, m2, ?_, ?_, by linarith, cb, cc, inv.sign, same, same ▸ Gpos,
    e.trans e'⟩
  · rcases co1_sign inv with ⟨low, rfl⟩ | ⟨high, rfl⟩
    · rw [if_neg (by omega), ca]; ring
    · rw [if_pos high.le, ca]; ring
  · rcases co1_sign inv with ⟨h, -⟩ | ⟨h, -⟩ <;> omega

theorem Nudupl.partialForm_spec {D : ℤ} (comp : Composes N N β γ k F) (Fpos : 0 < F.a)
    (disc : F.disc = D) (neg : D < 0) (Ls : 0 ≤ L) (le : L ≤ N) (exact : N ∣ β * k + γ) :
    ∃ H, partialForm D L β N γ k = .done H ∧ ProperlyEquivalent F H := by
  obtain ⟨s, H, τ, a, u, m2, run, h2, signed, nonzero, middle, cb, cc, sign, same, pos, e⟩ :=
    partial_values comp Fpos disc neg Ls le exact
  refine ⟨H, ?_, e⟩
  simp only [partialForm, run, Exec.done_bind, mpzDivexact_exact comp.pos.ne' _ h2, signed,
    mpzDivexact_exact nonzero _ middle, add_sub_cancel_right, cb, cc, four_mul_tdiv, Exec.pure_eq]
  rw [signs pos sign same]

end Partial

section Gcds

open BinaryForm Nucomp

variable {f g : Form}

theorem Nucomp.divideOut_spec {w a1 a2 c2 k s t : ℤ} (pos : 0 < w) (first : a1 = w * s)
    (second : a2 = w * t) : divideOut w ⟨a1, a2, c2, k⟩ = .done ⟨s, t, c2 * w, k⟩ := by
  unfold divideOut
  split
  · next one =>
    subst one
    simp [first, second]
  · simp [mpzDivexact_exact pos.ne' s first, mpzDivexact_exact pos.ne' t second]

/-- Both ways through the second gcd: `w` is the common divisor of `a1`, `a2` and `ss`. -/
theorem Nucomp.correct_spec (ss c2 : ℤ) {sp a1 a2 k : ℤ} (pos : 0 < sp) (apos : 0 < a1) (ks : 0 ≤ k)
    (kt : k < a1) (first : sp ∣ a1) (second : sp ∣ a2) :
    ∃ w s t u v v2 u2 K : ℤ, 0 < w ∧ a1 = w * s ∧ a2 = w * t ∧ ss = w * u ∧ sp = w * v ∧
      u * v2 + v * u2 = 1 ∧ s ∣ K - (k * u2 - v2 * c2) ∧ 0 ≤ K ∧ K < s ∧
      correct ss sp ⟨a1, a2, c2, k⟩ = .done ⟨s, t, c2 * w, K⟩ := by
  by_cases one : sp = 1
  · subst one
    refine ⟨1, a1, a2, ss, 1, 0, 1, k, by norm_num, ?_, ?_, ?_, ?_, by ring, by simp, ks, kt, ?_⟩ <;>
      simp [correct]
  · have bezout := mpzGcdext_bezout ss sp
    have wpos : (0 : ℤ) < Int.gcd ss sp := by exact_mod_cast Int.gcd_pos_of_ne_zero_right ss pos.ne'
    obtain ⟨u, hu⟩ := Int.gcd_dvd_left ss sp
    obtain ⟨v, hv⟩ := Int.gcd_dvd_right ss sp
    obtain ⟨s, hs⟩ := (Int.gcd_dvd_right ss sp).trans first
    obtain ⟨t, ht⟩ := (Int.gcd_dvd_right ss sp).trans second
    have spos : 0 < s := pos_of_mul_pos_right (hs ▸ apos) wpos.le
    have unit : u * (mpzGcdext ss sp).s + v * (mpzGcdext ss sp).t = 1 := by
      apply mul_left_cancel₀ wpos.ne'
      linear_combination bezout - (mpzGcdext ss sp).s * hu - (mpzGcdext ss sp).t * hv
    obtain ⟨K, hK⟩ : ∃ K, K = k * (mpzGcdext ss sp).t - (mpzGcdext ss sp).s * c2 := ⟨_, rfl⟩
    refine ⟨_, s, t, u, v, _, _, K % s, wpos, hs, ht, hu, hv, unit, ?_, Int.emod_nonneg K spos.ne',
      Int.emod_lt_of_pos K spos, ?_⟩
    · rw [← hK, Int.emod_def]
      exact ⟨-(K / s), by ring⟩
    · simp only [correct, if_neg one, mpzGcdext_gcd, divideOut_spec wpos hs ht, Exec.done_bind,
        mpzFdivR_pos spos, Exec.pure_eq, ← hK]

theorem Nucomp.first_gcd {a1 a2 : ℤ} (pos : 0 < a1) (r : GcdRes)
    (eq : r = if a2 % a1 = 0 then ⟨a1, 0, 0⟩ else mpzGcdext (a2 % a1) a1) :
    0 < r.gcd ∧ r.gcd ∣ a1 ∧ r.gcd ∣ a2 ∧ a1 ∣ a2 * r.s - r.gcd := by
  subst eq
  split
  · next divides => exact ⟨pos, dvd_rfl, Int.dvd_of_emod_eq_zero divides, by simp⟩
  · have bezout := mpzGcdext_bezout (a2 % a1) a1
    rw [Int.emod_def] at bezout
    refine ⟨?_, ?_, ?_, ?_⟩
    · rw [mpzGcdext_gcd]
      exact_mod_cast Int.gcd_pos_of_ne_zero_right _ pos.ne'
    · exact Int.gcd_dvd_right _ _
    · rw [mpzGcdext_gcd, Int.gcd_emod]
      exact Int.gcd_dvd_left _ _
    · rw [mpzGcdext_gcd, Int.emod_def]
      refine ⟨a2 / a1 * (mpzGcdext (a2 - a1 * (a2 / a1)) a1).s -
        (mpzGcdext (a2 - a1 * (a2 / a1)) a1).t, ?_⟩
      linear_combination bezout

/-- The two congruences of the composite, from the Bézout relations of the two gcds. -/
theorem Nucomp.congruences {s t u v v1 v2 u2 m c1 c2 k K : ℤ} (unit : u * v2 + v * u2 = 1)
    (inv : s ∣ t * v1 - v) (cross : m * u = s * c1 - t * c2) (first : s ∣ k - m * v1)
    (second : s ∣ K - (k * u2 - v2 * c2)) : s ∣ u * K + c2 ∧ s ∣ m - t * K := by
  obtain ⟨e, he⟩ := inv
  obtain ⟨j, hj⟩ := first
  obtain ⟨i, hi⟩ := second
  constructor
  · refine ⟨u2 * v1 * c1 - u2 * c2 * e + u * u2 * j + u * i, ?_⟩
    linear_combination u * hi + u * u2 * hj + u2 * v1 * cross - u2 * c2 * he - c2 * unit
  · refine ⟨-u2 * m * e - t * u2 * j + v2 * c1 - t * i, ?_⟩
    linear_combination -t * hi - t * u2 * hj - u2 * m * he + v2 * cross - m * unit

theorem Nucomp.gcds_spec (fpos : 0 < f.a) (gpos : 0 < g.a) (discs : g.disc = f.disc) :
    ∃ z : Composition f g, 0 < z.w ∧ 0 < z.s ∧ 0 < z.t ∧ 0 ≤ -z.k ∧ -z.k < z.s ∧
      gcds f g = .done ⟨z.s, z.t, g.c * z.w, -z.k⟩ := by
  obtain ⟨ss, hss⟩ := Form.b_add_even discs
  have sum : f.b + g.b = 2 * ss := by linarith
  obtain ⟨m, hm⟩ : ∃ m, f.b - g.b = 2 * m := ⟨ss - g.b, by linarith⟩
  have halves : (f.b + g.b) / 2 = ss ∧ (f.b - g.b) / 2 = m := by omega
  obtain ⟨r, hr⟩ : ∃ r : GcdRes,
      r = if g.a % f.a = 0 then ⟨f.a, 0, 0⟩ else mpzGcdext (g.a % f.a) f.a := ⟨_, rfl⟩
  obtain ⟨sppos, first, second, inv⟩ := first_gcd fpos r hr
  obtain ⟨w, s, t, u, v, v2, u2, K, wpos, hs, ht, hu, hv, unit, close, Ks, Kt, run⟩ :=
    correct_spec ss g.c sppos fpos (Int.emod_nonneg (m * r.s) fpos.ne')
      (Int.emod_lt_of_pos (m * r.s) fpos) first second
  have spos : 0 < s := pos_of_mul_pos_right (hs ▸ fpos) wpos.le
  have tpos : 0 < t := pos_of_mul_pos_right (ht ▸ gpos) wpos.le
  have cross : m * u = s * f.c - t * g.c := by
    apply mul_left_cancel₀ wpos.ne'
    have four : 4 * (m * ss) = 4 * (f.a * f.c - g.a * g.c) := by
      unfold disc at discs
      linear_combination -discs - (f.b + g.b) * hm - 2 * m * sum
    rw [hs, ht, hu] at four
    linarith
  have inv' : s ∣ t * r.s - v := by
    obtain ⟨e, he⟩ := inv
    refine ⟨e, mul_left_cancel₀ wpos.ne' ?_⟩
    linear_combination he - r.s * ht + hv + e * hs
  have residue : s ∣ m * r.s % f.a - m * r.s := by
    rw [Int.emod_def]
    exact ⟨-(w * (m * r.s / f.a)), by linear_combination -(m * r.s / f.a) * hs⟩
  obtain ⟨⟨M, hM⟩, l, hl⟩ := congruences unit inv' cross residue close
  have last' : f.c = u * l - t * -M := by
    apply mul_left_cancel₀ spos.ne'
    linear_combination -cross + t * hM + u * hl
  refine ⟨⟨w, s, t, u, -K, l, -M, hs, ht, by linarith, ?_, by linarith, last'⟩, wpos, spos, tpos,
    by simpa using Ks, by simpa using Kt, ?_⟩
  · linear_combination -hm - 2 * hl
  · simp only [gcds, mpzFdivR_pos fpos, Exec.done_bind, halves.1, halves.2, ← hr, run, neg_neg]

/-- A Gauss composition, in the shape in which the two algorithms use it. -/
theorem composes (z : Composition f g) (spos : 0 < z.s) (nonneg : 0 ≤ -z.k) (lt : -z.k < z.s) :
    Composes z.s z.t g.b (g.c * z.w) (-z.k) z.result where
  pos := spos
  nonneg := nonneg
  lt := lt
  a := rfl
  b := by rw [z.result_b_right]; ring
  c := by
    have mean := z.mean
    have difference := z.difference
    have last := z.last
    simp only [Composition.result]
    have gb : g.b = z.w * z.u + (z.t * z.k - z.s * z.l) := by linarith
    rw [gb, last]
    ring

/-- `qfb_nucomp` divides exactly and ends in the class of a Gauss composite. -/
theorem Nucomp.ordered_spec {D L : ℤ} (fpos : 0 < f.a) (gpos : 0 < g.a) (discf : f.disc = D)
    (discg : g.disc = D) (neg : D < 0) (Ls : 0 ≤ L) :
    ∃ (z : Composition f g) (H : Form), 0 < z.w ∧ 0 < z.s ∧ 0 < z.t ∧
      ordered f g D L = .done H ∧ ProperlyEquivalent z.result H := by
  obtain ⟨z, wpos, spos, tpos, nonneg, lt, run⟩ := gcds_spec fpos gpos (discg.trans discf.symm)
  have comp := composes z spos nonneg lt
  have mean := z.mean
  have difference := z.difference
  have halves : (f.b + g.b) / 2 = z.w * z.u ∧ (f.b - g.b) / 2 = z.s * z.l - z.t * z.k := by
    generalize z.w * z.u = x at *
    generalize z.s * z.l = y at *
    generalize z.t * z.k = v at *
    omega
  simp only [ordered, run, Exec.done_bind, halves.1, halves.2]
  split
  · exact ⟨z, z.result, wpos, spos, tpos,
      wholeForm_spec (z := ⟨z.s, z.t, g.c * z.w, -z.k⟩) comp, .refl _⟩
  · next large =>
    have exact1 : z.s ∣ z.t * -z.k - (z.s * z.l - z.t * z.k) := ⟨-z.l, by ring⟩
    have exact2 : z.s ∣ z.w * z.u * -z.k + g.c * z.w :=
      ⟨-(z.w * z.m), by linear_combination z.w * z.last⟩
    obtain ⟨H, run', e⟩ := partialForm_spec (z := ⟨z.s, z.t, g.c * z.w, -z.k⟩) comp
      (mul_pos spos tpos) (z.result_disc.trans discf) neg Ls (not_lt.mp large) (by linarith)
      exact1 exact2
    exact ⟨z, H, wpos, spos, tpos, run', e⟩

theorem Nudupl.divideOut_spec {w s : ℤ} (pos : 0 < w) (first : f.a = w * s) :
    divideOut w f = .done (s, f.c * w) := by
  unfold divideOut
  split
  · next one =>
    subst one
    simp [first]
  · simp [mpzFdivQ_exact pos.ne' s first]

theorem tmod_fixed {x n : ℤ} (pos : 0 < n) :
    (if x.tmod n < 0 then x.tmod n + n else x.tmod n) = x % n := by
  have same := Int.natAbs_of_nonneg pos.le
  have low := Int.emod_nonneg x pos.ne'
  have high := Int.emod_lt_of_pos x pos
  rw [Int.tmod_eq_emod]
  by_cases exact : 0 ≤ x ∨ n ∣ x
  · simp only [if_pos exact]
    omega
  · simp only [if_neg exact]
    omega

/-- The gcd of `a` and the absolute value of `b`, with the cofactor of `b` itself. -/
theorem Nudupl.signed_gcd (fpos : 0 < f.a) (r : GcdRes)
    (eq : r = if f.b < 0 then mpzGcdext (-f.b) f.a else mpzGcdext f.b f.a) :
    0 < r.gcd ∧ r.gcd ∣ f.a ∧ r.gcd ∣ f.b ∧
      f.b * (if f.b < 0 then -r.s else r.s) + f.a * r.t = r.gcd := by
  have pos (b : ℤ) : (0 : ℤ) < Int.gcd b f.a := by
    exact_mod_cast Int.gcd_pos_of_ne_zero_right b fpos.ne'
  subst eq
  split
  · refine ⟨pos _, Int.gcd_dvd_right _ _, dvd_neg.mp (Int.gcd_dvd_left (-f.b) f.a), ?_⟩
    rw [mpzGcdext_gcd, ← mpzGcdext_bezout]
    ring
  · exact ⟨pos _, Int.gcd_dvd_right _ _, Int.gcd_dvd_left _ _, mpzGcdext_bezout _ _⟩

theorem Nudupl.gcd_values (fpos : 0 < f.a) (r : GcdRes)
    (hr : r = if f.b < 0 then mpzGcdext (-f.b) f.a else mpzGcdext f.b f.a) :
    ∃ z : Composition f f, 0 < z.w ∧ 0 < z.s ∧ z.t = z.s ∧ 0 ≤ -z.k ∧ -z.k < z.s ∧ r.gcd = z.w ∧
      -((if f.b < 0 then -r.s else r.s) * f.c) % z.s = -z.k := by
  obtain ⟨wpos, ⟨s, hs⟩, ⟨u, hu⟩, bezout⟩ := signed_gcd fpos r hr
  have spos : 0 < s := pos_of_mul_pos_right (hs ▸ fpos) wpos.le
  generalize (if f.b < 0 then -r.s else r.s) = v2 at *
  have unit : u * v2 + s * r.t = 1 := by
    apply mul_left_cancel₀ wpos.ne'
    linear_combination bezout - v2 * hu - r.t * hs
  have low := Int.emod_nonneg (-(v2 * f.c)) spos.ne'
  have high := Int.emod_lt_of_pos (-(v2 * f.c)) spos
  obtain ⟨M, hM⟩ : s ∣ u * (-(v2 * f.c) % s) + f.c := by
    rw [Int.emod_def]
    exact ⟨f.c * r.t - u * (-(v2 * f.c) / s), by linear_combination -f.c * unit⟩
  exact ⟨⟨r.gcd, s, s, u, -(-(v2 * f.c) % s), -(-(v2 * f.c) % s), -M, hs, hs, by rw [hu]; ring,
    by ring, by linarith, by linarith⟩, wpos, spos, rfl, by simpa using low, by simpa using high,
    rfl, (neg_neg _).symm⟩

theorem Nudupl.gcd_spec (fpos : 0 < f.a) :
    ∃ z : Composition f f, 0 < z.w ∧ 0 < z.s ∧ z.t = z.s ∧ 0 ≤ -z.k ∧ -z.k < z.s ∧
      ∀ D L, nuduplForm f D L = if z.s < L then wholeForm f.b z.s (f.c * z.w) (-z.k)
        else partialForm D L f.b z.s (f.c * z.w) (-z.k) := by
  obtain ⟨r, hr⟩ : ∃ r : GcdRes,
      r = if f.b < 0 then mpzGcdext (-f.b) f.a else mpzGcdext f.b f.a := ⟨_, rfl⟩
  obtain ⟨z, wpos, spos, same, nonneg, lt, gcd, residue⟩ := gcd_values fpos r hr
  refine ⟨z, wpos, spos, same, nonneg, lt, fun D L => ?_⟩
  simp only [nuduplForm, ← hr, gcd, divideOut_spec wpos z.first, Exec.done_bind,
    mpzTdivR_done spos.ne', tmod_fixed spos, residue]

/-- `qfb_nudupl` divides exactly and ends in the class of a Gauss composite. -/
theorem Nudupl.spec {D L : ℤ} (fpos : 0 < f.a) (disc : f.disc = D) (neg : D < 0) (Ls : 0 ≤ L) :
    ∃ (z : Composition f f) (H : Form), 0 < z.w ∧ 0 < z.s ∧ 0 < z.t ∧
      nuduplForm f D L = .done H ∧ ProperlyEquivalent z.result H := by
  obtain ⟨z, wpos, spos, same, nonneg, lt, run⟩ := gcd_spec fpos
  have comp := composes z spos nonneg lt
  rw [same] at comp
  have mean := z.mean
  have tpos : 0 < z.t := same ▸ spos
  rw [run]
  split
  · exact ⟨z, z.result, wpos, spos, tpos, wholeForm_spec comp, .refl _⟩
  · next large =>
    have b : f.b = z.w * z.u := by linarith
    have exact : z.s ∣ f.b * -z.k + f.c * z.w :=
      ⟨-(z.w * z.m), by linear_combination z.w * z.last - z.k * b⟩
    obtain ⟨H, run', e⟩ := partialForm_spec comp (mul_pos spos tpos) (z.result_disc.trans disc) neg
      Ls (not_lt.mp large) exact
    exact ⟨z, H, wpos, spos, tpos, run', e⟩

end Gcds

section Classes

open BinaryForm

variable {d : Discriminant} {f g : Form} {x y : ReducedForm d}

theorem Represents.equivalent (rep : Represents f x) (e : ProperlyEquivalent f g) : Represents g x where
  pos := equivalent_pos rep.pos (rep.disc ▸ d.D_neg) e
  disc := e.disc_eq.trans rep.disc
  similar := (similar_of_properlyEquivalent (hasDisc_of_disc rep.disc) rep.pos e).symm.trans rep.similar

/-- A Gauss composite is in the class of the product. -/
theorem Represents.composition (rep : Represents f x) (rep' : Represents g y) (z : Composition f g)
    (wpos : 0 < z.w) (spos : 0 < z.s) (tpos : 0 < z.t) : Represents z.result (x * y) where
  pos := mul_pos spos tpos
  disc := z.result_disc.trans rep.disc
  similar := by
    have nonzero : (z.w : Order d.n 1) ≠ 0 := by exact_mod_cast wpos.ne'
    have product := z.ideal_mul (hasDisc_of_disc rep.disc) (hasDisc_of_disc rep'.disc)
      (primitive_of_disc rep.disc)
    have scaled := similar_span_mul nonzero (d.ideal z.result)
    rw [← product] at scaled
    exact scaled.symm.trans ((rep.similar.mul rep'.similar).trans (mul_similar x y))

theorem Discriminant.L_nonneg (d : Discriminant) : 0 ≤ d.L := by unfold Discriminant.L; positivity

theorem nuduplForm_spec (rep : Represents f x) :
    ∃ g, nuduplForm f d.D d.L = .done g ∧ Represents g (x * x) := by
  obtain ⟨z, H, wpos, spos, tpos, run, e⟩ := Nudupl.spec rep.pos rep.disc d.D_neg d.L_nonneg
  exact ⟨H, run, (rep.composition rep z wpos spos tpos).equivalent e⟩

theorem nucompForm_spec (rep : Represents f x) (rep' : Represents g y) :
    ∃ h, nucompForm f g d.D d.L = .done h ∧ Represents h (x * y) := by
  unfold nucompForm
  split
  · obtain ⟨z, H, wpos, spos, tpos, run, e⟩ :=
      Nucomp.ordered_spec rep'.pos rep.pos rep'.disc rep.disc d.D_neg d.L_nonneg
    rw [mul_comm x y]
    exact ⟨H, run, (rep'.composition rep z wpos spos tpos).equivalent e⟩
  · obtain ⟨z, H, wpos, spos, tpos, run, e⟩ :=
      Nucomp.ordered_spec rep.pos rep'.pos rep.disc rep'.disc d.D_neg d.L_nonneg
    exact ⟨H, run, (rep.composition rep' z wpos spos tpos).equivalent e⟩

end Classes

end ChiaVdf
