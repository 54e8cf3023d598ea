import ChiaVdf.Nucomp
import ChiaVdf.VdfOriginal

/-! `qfb_nudupl` and `qfb_nucomp` statement by statement: what the callers' objects hold when the
result is written over an operand, and that no quotient they take leaves a remainder. -/
namespace ChiaVdf

open BinaryForm

/-- A quotient of the source; with `strict` a remainder is a fault. -/
def quotient (strict : Bool) (round : ℤ → ℤ → Exec ℤ) (n d : ℤ) : Exec ℤ :=
  if strict then mpzDivexact n d else round n d

/-- The objects behind `r` and `f`; with `alias` they are one and the same. -/
structure Store where
  r : Form
  f : Form

namespace Store

def setA (aliased : Bool) (s : Store) (x : ℤ) : Store :=
  { r := { s.r with a := x }, f := if aliased then { s.f with a := x } else s.f }

def setB (aliased : Bool) (s : Store) (x : ℤ) : Store :=
  { r := { s.r with b := x }, f := if aliased then { s.f with b := x } else s.f }

def setC (aliased : Bool) (s : Store) (x : ℤ) : Store :=
  { r := { s.r with c := x }, f := if aliased then { s.f with c := x } else s.f }

variable (aliased : Bool) (s : Store) (x : ℤ)

@[simp] theorem setA_r : (s.setA aliased x).r = { s.r with a := x } := rfl
@[simp] theorem setB_r : (s.setB aliased x).r = { s.r with b := x } := rfl
@[simp] theorem setC_r : (s.setC aliased x).r = { s.r with c := x } := rfl

/-- Writing the outer coefficients leaves the middle one of the operand alone. -/
@[simp] theorem setA_f_b : (s.setA aliased x).f.b = s.f.b := by cases aliased <;> rfl

@[simp] theorem setC_f_b : (s.setC aliased x).f.b = s.f.b := by cases aliased <;> rfl

end Store

namespace Nudupl

def divideOutChecked (strict : Bool) (s : ℤ) (a c : ℤ) : Exec (ℤ × ℤ) :=
  if s = 1 then .done (a, c)
  else do
    let a1 ← quotient strict mpzFdivQ a s
    return (a1, c * s)

def wholeInto (aliased strict : Bool) (s : Store) (a1 c1 k : ℤ) : Exec Store := do
  let t := a1 * k
  let s := s.setA aliased (a1 * a1)
  let cb := 2 * t + s.f.b
  let s := s.setC aliased (s.f.b + t)
  let s := s.setC aliased (s.r.c * k)
  let s := s.setC aliased (s.r.c + c1)
  let c ← quotient strict mpzFdivQ s.r.c a1
  let s := s.setC aliased c
  return s.setB aliased cb

def partialInto (aliased strict : Bool) (D L : ℤ) (s : Store) (a1 c1 k : ℤ) : Exec Store := do
  let x ← mpzXgcdPartial a1 k L
  let m2 ← mpzDivexact (s.f.b * x.r1 - c1 * x.co1) a1
  let s := s.setA aliased (x.r1 * x.r1)
  let s := s.setA aliased (s.r.a - x.co1 * m2)
  let s := s.setA aliased (if x.co1 ≥ 0 then -s.r.a else s.r.a)
  let cb := s.r.a * x.co2 - a1 * x.r1
  let cb ← mpzDivexact (-cb * 2) x.co1
  let cb ← mpzFdivR (cb - s.f.b) (2 * s.r.a)
  let s := s.setC aliased (cb * cb - D)
  let c ← mpzDivexact s.r.c s.r.a
  let s := s.setC aliased c
  let c ← quotient strict mpzTdivQ s.r.c 4
  let s := s.setC aliased c
  let s := if s.r.a < 0 then (s.setA aliased (-s.r.a)).setC aliased (-s.r.c) else s
  return s.setB aliased cb

end Nudupl

open Nudupl in
/-- `qfb_nudupl` on the objects of its caller. -/
def nuduplInto (aliased strict : Bool) (s : Store) (D L : ℤ) : Exec Store := do
  let a1 := s.f.a
  let c1 := s.f.c
  let r := if s.f.b < 0 then mpzGcdext (-s.f.b) a1 else mpzGcdext s.f.b a1
  let v2 := if s.f.b < 0 then -r.s else r.s
  let k := -(v2 * c1)
  let (a1, c1) ← divideOutChecked strict r.gcd a1 c1
  let k ← mpzTdivR k a1
  let k := if k < 0 then k + a1 else k
  if a1 < L then wholeInto aliased strict s a1 c1 k else partialInto aliased strict D L s a1 c1 k

namespace Nucomp

def gcdsFrom (ss m : ℤ) (f g : Form) : Exec Composite := do
  let t ← mpzFdivR g.a f.a
  let r : GcdRes := if t = 0 then ⟨f.a, 0, 0⟩ else mpzGcdext t f.a
  let k ← mpzFdivR (m * r.s) f.a
  correct ss r.gcd ⟨f.a, g.a, g.c, k⟩

def partialChecked (strict : Bool) (D L ss m b : ℤ) (z : Composite) : Exec Form := do
  let s ← mpzXgcdPartial z.a1 z.k L
  let t := z.a2 * s.r1
  let m1 ← mpzDivexact (m * s.co1 + t) z.a1
  let m2 ← mpzDivexact (ss * s.r1 - z.c2 * s.co1) z.a1
  let ca := if s.co1 < 0 then s.r1 * m1 - s.co1 * m2 else s.co1 * m2 - s.r1 * m1
  let cb ← mpzDivexact ((t - ca * s.co2) * 2) s.co1
  let cb ← mpzFdivR (cb - b) (2 * ca)
  let cc ← mpzDivexact (cb * cb - D) ca
  let cc ← quotient strict mpzFdivQ cc 4
  return if ca < 0 then ⟨-ca, cb, -cc⟩ else ⟨ca, cb, cc⟩

def orderedChecked (strict : Bool) (f g : Form) (D L : ℤ) : Exec Form := do
  let ss ← quotient strict mpzFdivQ (f.b + g.b) 2
  let m ← quotient strict mpzFdivQ (f.b - g.b) 2
  let z ← gcdsFrom ss m f g
  if z.a1 < L then wholeForm g.b z else partialChecked strict D L ss m g.b z

end Nucomp

open Nucomp in
/-- `qfb_nucomp` on the objects of its caller: it writes its result when all is computed. -/
def nucompInto (aliased strict : Bool) (s : Store) (g : Form) (D L : ℤ) : Exec Store := do
  let h ← if s.f.a > g.a then orderedChecked strict g s.f D L else orderedChecked strict s.f g D L
  return ((s.setA aliased h.a).setB aliased h.b).setC aliased h.c

section Exact

variable {f g : Form} {strict : Bool} {n d q : ℤ}

theorem quotient_exact {round : ℤ → ℤ → Exec ℤ} (nonzero : d ≠ 0) (eq : n = d * q)
    (floor : round n d = .done q) : quotient strict round n d = .done q := by
  cases strict
  · exact floor
  · exact mpzDivexact_exact nonzero q eq

theorem quotient_floor (nonzero : d ≠ 0) (eq : n = d * q) :
    quotient strict mpzFdivQ n d = .done q :=
  quotient_exact nonzero eq (mpzFdivQ_exact nonzero q eq)

theorem quotient_trunc (nonzero : d ≠ 0) (eq : n = d * q) :
    quotient strict mpzTdivQ n d = .done q := by
  refine quotient_exact nonzero eq ?_
  rw [mpzTdivQ_done nonzero, eq, Int.mul_tdiv_cancel_left q nonzero]

namespace Nudupl

variable {aliased : Bool} {N β γ k L D : ℤ} {F : Form} {s : Store}

theorem divideOutChecked_spec {w a1 a c : ℤ} (pos : 0 < w) (first : a = w * a1) :
    divideOutChecked strict w a c = .done (a1, c * w) := by
  unfold divideOutChecked
  split
  · next one =>
    subst one
    simp [first]
  · rw [quotient_floor pos.ne' first, Exec.done_bind, Exec.pure_eq]

theorem wholeInto_spec (aliased strict : Bool) (comp : Composes N N s.f.b γ k F) :
    ∃ s', wholeInto aliased strict s N γ k = .done s' ∧ s'.r = F := by
  have ea := comp.a
  have eb := comp.b
  have ec : (s.f.b + N * k) * k + γ = N * F.c := comp.c.symm
  simp only [wholeInto, Store.setA_r, Store.setA_f_b, Store.setC_r,
    quotient_floor comp.pos.ne' ec, Exec.done_bind, Exec.pure_eq]
  refine ⟨_, rfl, ?_⟩
  ext
  · simp only [Store.setB_r, Store.setC_r, ea]; rfl
  · simp only [Store.setB_r, eb]; ring
  · rfl

theorem partialInto_spec (aliased strict : Bool) (comp : Composes N N s.f.b γ k F)
    (Fpos : 0 < F.a) (disc : F.disc = D) (neg : D < 0) (Ls : 0 ≤ L) (le : L ≤ N) (exact : N ∣ s.f.b * k + γ) :
    ∃ s', partialInto aliased strict D L s N γ k = .done s' ∧ ProperlyEquivalent F s'.r := by
  obtain ⟨x, H, τ, a, u, m2, run, h2, signed, nonzero, middle, cb, cc, sign, same, pos, e⟩ :=
    partial_values comp Fpos disc neg Ls le exact
  simp only [partialInto, run, Exec.done_bind, mpzDivexact_exact comp.pos.ne' _ h2, Store.setA_r,
    Store.setA_f_b, Store.setC_r, signed, mpzDivexact_exact nonzero _ middle, add_sub_cancel_right,
    cb, cc, quotient_trunc (n := 4 * (τ * H.c)) four_ne_zero rfl, Exec.pure_eq]
  refine ⟨_, rfl, ?_⟩
  have last := signs pos sign same
  by_cases low : τ * a < 0
  · rw [if_pos low] at last ⊢
    simpa only [Store.setB_r, Store.setC_r, Store.setA_r, last] using e
  · rw [if_neg low] at last ⊢
    simpa only [Store.setB_r, Store.setC_r, Store.setA_r, last] using e

theorem into_spec (aliased strict : Bool) (fpos : 0 < s.f.a) (disc : s.f.disc = D) (neg : D < 0) (Ls : 0 ≤ L) :
    ∃ (z : Composition s.f s.f) (s' : Store), 0 < z.w ∧ 0 < z.s ∧ 0 < z.t ∧
      nuduplInto aliased strict s D L = .done s' ∧ ProperlyEquivalent z.result s'.r := by
  obtain ⟨r, hr⟩ : ∃ r : GcdRes,
      r = if s.f.b < 0 then mpzGcdext (-s.f.b) s.f.a else mpzGcdext s.f.b s.f.a := ⟨_, rfl⟩
  obtain ⟨z, wpos, spos, same, nonneg, lt, gcd, residue⟩ := gcd_values fpos r hr
  have comp := composes z spos nonneg lt
  rw [same] at comp
  have mean := z.mean
  have tpos : 0 < z.t := same ▸ spos
  simp only [nuduplInto, ← hr, gcd, divideOutChecked_spec wpos z.first, Exec.done_bind,
    mpzTdivR_done spos.ne', tmod_fixed spos, residue]
  split
  · obtain ⟨s', run, eq⟩ := wholeInto_spec aliased strict comp
    exact ⟨z, s', wpos, spos, tpos, run, eq ▸ .refl _⟩
  · next large =>
    have b : s.f.b = z.w * z.u := by linarith
    have exact : z.s ∣ s.f.b * -z.k + s.f.c * z.w :=
      ⟨-(z.w * z.m), by linear_combination z.w * z.last - z.k * b⟩
    obtain ⟨s', run, e⟩ := partialInto_spec aliased strict comp
      (mul_pos spos tpos) (z.result_disc.trans disc) neg Ls (not_lt.mp large) exact
    exact ⟨z, s', wpos, spos, tpos, run, e⟩

end Nudupl

namespace Nucomp

variable {aliased : Bool} {β L D : ℤ} {F : Form} {s : Store}

theorem partialChecked_spec (strict : Bool) {z : Composite} {ss m : ℤ}
    (comp : Composes z.a1 z.a2 β z.c2 z.k F) (Fpos : 0 < F.a)
    (disc : F.disc = D) (neg : D < 0) (Ls : 0 ≤ L) (le : L ≤ z.a1)
    (split : ss - m = β) (exact1 : z.a1 ∣ z.a2 * z.k - m) (exact2 : z.a1 ∣ ss * z.k + z.c2) :
    ∃ H, partialChecked strict D L ss m β z = .done H ∧ ProperlyEquivalent F H := by
  obtain ⟨s, H, τ, a, u, m1, m2, run, h1, h2, signed, nonzero, middle, cb, cc, sign, same, pos, e⟩ :=
    partial_values comp Fpos disc neg Ls le split exact1 exact2
  refine ⟨H, ?_, e⟩
  simp only [partialChecked, run, Exec.done_bind, mpzDivexact_exact comp.pos.ne' _ h1,
    mpzDivexact_exact comp.pos.ne' _ h2, signed, mpzDivexact_exact nonzero _ middle,
    add_sub_cancel_right, cb, cc, quotient_floor (n := 4 * (τ * H.c)) four_ne_zero rfl, Exec.pure_eq]
  rw [signs pos sign same]

theorem orderedChecked_spec (strict : Bool) (fpos : 0 < f.a) (gpos : 0 < g.a) (discf : f.disc = D)
    (discg : g.disc = D) (neg : D < 0) (Ls : 0 ≤ L) :
    ∃ (z : Composition f g) (H : Form), 0 < z.w ∧ 0 < z.s ∧ 0 < z.t ∧
      orderedChecked strict f g D L = .done H ∧ ProperlyEquivalent z.result H := by
  obtain ⟨z, wpos, spos, tpos, nonneg, lt, run⟩ := gcds_spec fpos gpos (discg.trans discf.symm)
  have comp := composes z spos nonneg lt
  have mean := z.mean
  have difference := z.difference
  have sum : f.b + g.b = 2 * (z.w * z.u) := mean
  have diff : f.b - g.b = 2 * (z.s * z.l - z.t * z.k) := by linarith
  have from_eq : gcdsFrom (z.w * z.u) (z.s * z.l - z.t * z.k) f g = gcds f g := by
    have first : (f.b + g.b) / 2 = z.w * z.u := by rw [sum]; exact Int.mul_ediv_cancel_left _ (by norm_num)
    have second : (f.b - g.b) / 2 = z.s * z.l - z.t * z.k := by
      rw [diff]; exact Int.mul_ediv_cancel_left _ (by norm_num)
    rw [← first, ← second]
    rfl
  simp only [orderedChecked, quotient_floor two_ne_zero sum, quotient_floor two_ne_zero diff,
    Exec.done_bind, from_eq, run]
  split
  · exact ⟨z, z.result, wpos, spos, tpos,
      wholeForm_spec (z := ⟨z.s, z.t, g.c * z.w, -z.k⟩) comp, .refl _⟩
  · next large =>
    have exact1 : z.s ∣ z.t * -z.k - (z.s * z.l - z.t * z.k) := ⟨-z.l, by ring⟩
    have exact2 : z.s ∣ z.w * z.u * -z.k + g.c * z.w :=
      ⟨-(z.w * z.m), by linear_combination z.w * z.last⟩
    obtain ⟨H, run', e⟩ := partialChecked_spec
      (z := ⟨z.s, z.t, g.c * z.w, -z.k⟩) strict comp (mul_pos spos tpos) (z.result_disc.trans discf) neg Ls
      (not_lt.mp large) (by linarith) exact1 exact2
    exact ⟨z, H, wpos, spos, tpos, run', e⟩

end Nucomp

end Exact

section Classes

variable {d : Discriminant} {f g : Form} {x y : ReducedForm d} {aliased strict : Bool}

/-- Every form of the discriminant has a reduced form that stands for its class. -/
theorem exists_represents (pos : 0 < f.a) (disc : f.disc = d.D) :
    ∃ x : ReducedForm d, Represents f x := by
  obtain ⟨x, -, similar⟩ := reduce_similar pos disc
  exact ⟨x, pos, disc, similar⟩

theorem Represents.square (rep : Represents f x) (coprime : Int.gcd f.b f.a = 1) :
    Form.square f = .done (x * x).form := by
  obtain ⟨z, w, spos, tpos, run⟩ := Form.square_eq_reduce rep.pos coprime
  rw [run]
  exact (rep.composition rep z (by rw [w]; exact one_pos) spos tpos).reduce

theorem nuduplInto_spec (aliased strict : Bool) (r : Form) (rep : Represents f x) :
    ∃ s, nuduplInto aliased strict ⟨r, f⟩ d.D d.L = .done s ∧ Represents s.r (x * x) := by
  obtain ⟨z, s, wpos, spos, tpos, run, e⟩ := Nudupl.into_spec (s := ⟨r, f⟩)
    aliased strict rep.pos rep.disc d.D_neg d.L_nonneg
  exact ⟨s, run, (rep.composition rep z wpos spos tpos).equivalent e⟩

theorem nucompInto_spec (aliased strict : Bool) (r : Form) (rep : Represents f x) (rep' : Represents g y) :
    ∃ s, nucompInto aliased strict ⟨r, f⟩ g d.D d.L = .done s ∧ Represents s.r (x * y) := by
  unfold nucompInto
  split_ifs
  · obtain ⟨z, H, wpos, spos, tpos, run, e⟩ := Nucomp.orderedChecked_spec strict
      rep'.pos rep.pos rep'.disc rep.disc d.D_neg d.L_nonneg
    rw [mul_comm x y, run]
    exact ⟨_, rfl, (rep'.composition rep z wpos spos tpos).equivalent e⟩
  · obtain ⟨z, H, wpos, spos, tpos, run, e⟩ := Nucomp.orderedChecked_spec strict
      rep.pos rep'.pos rep.disc rep'.disc d.D_neg d.L_nonneg
    rw [run]
    exact ⟨_, rfl, (rep.composition rep' z wpos spos tpos).equivalent e⟩

/-- `qfb_nudupl`, in place or not, squares like the three plain squarings. -/
theorem squarings_agree (pos : 0 < f.a) (disc : f.disc = d.D) (coprime : Int.gcd f.a f.b = 1)
    (aliased strict : Bool) (r : Form) :
    ∃ (s : Store) (h : Form), nuduplInto aliased strict ⟨r, f⟩ d.D d.L = .done s ∧ 0 < s.r.a ∧
      s.r.disc = d.D ∧ Form.reduce s.r = .done h ∧ Form.square f = .done h ∧
      VdfOriginal.square f = .done h ∧ Form.multiply f f = .done h := by
  obtain ⟨x, rep⟩ := exists_represents pos disc
  obtain ⟨s, run, rep'⟩ := nuduplInto_spec aliased strict r rep
  rw [Int.gcd_comm] at coprime
  have squared := rep.square coprime
  refine ⟨s, _, run, rep'.pos, rep'.disc, rep'.reduce, squared, ?_, rep.multiply rep⟩
  rw [VdfOriginal.square_eq pos (disc ▸ d.D_neg) coprime, squared]

/-- An unreduced form of discriminant `-23`, squared over itself. -/
theorem squarings_agree_unreduced :
    ∃ d : Discriminant, d.D = -23 ∧ ∃ s h, nuduplInto true true ⟨⟨6, 5, 2⟩, ⟨6, 5, 2⟩⟩ d.D d.L = .done s ∧
      Form.reduce s.r = .done h ∧ Form.multiply ⟨6, 5, 2⟩ ⟨6, 5, 2⟩ = .done h := by
  obtain ⟨s, h, run, -, -, reduced, -, -, product⟩ :=
    squarings_agree (d := ⟨23, by norm_num, by norm_num⟩) (f := ⟨6, 5, 2⟩) (by decide) (by decide)
      (by decide) true true ⟨6, 5, 2⟩
  exact ⟨_, rfl, s, h, run, reduced, product⟩

/-- `qfb_nucomp`, over its first operand or not, composes like `multiply`. -/
theorem nucomp_agrees (fpos : 0 < f.a) (gpos : 0 < g.a) (discf : f.disc = d.D)
    (discg : g.disc = d.D) (aliased strict : Bool) (r : Form) :
    ∃ (s : Store) (h : Form), nucompInto aliased strict ⟨r, f⟩ g d.D d.L = .done s ∧ 0 < s.r.a ∧
      s.r.disc = d.D ∧ Form.reduce s.r = .done h ∧ Form.multiply f g = .done h := by
  obtain ⟨x, rep⟩ := exists_represents fpos discf
  obtain ⟨y, rep'⟩ := exists_represents gpos discg
  obtain ⟨s, run, reps⟩ := nucompInto_spec aliased strict r rep rep'
  exact ⟨s, _, run, reps.pos, reps.disc, reps.reduce, rep.multiply rep'⟩

/-- Leading coefficients with a common divisor. -/
theorem nucomp_agrees_shared :
    ∃ d : Discriminant, d.D = -23 ∧ ∃ s h, nucompInto true true ⟨⟨6, 5, 2⟩, ⟨6, 5, 2⟩⟩ ⟨2, 1, 3⟩ d.D d.L =
      .done s ∧ Form.reduce s.r = .done h ∧ Form.multiply ⟨6, 5, 2⟩ ⟨2, 1, 3⟩ = .done h := by
  obtain ⟨s, h, run, -, -, reduced, product⟩ :=
    nucomp_agrees (d := ⟨23, by norm_num, by norm_num⟩) (f := ⟨6, 5, 2⟩) (g := ⟨2, 1, 3⟩)
      (by decide) (by decide) (by decide) (by decide) true true ⟨6, 5, 2⟩
  exact ⟨_, rfl, s, h, run, reduced, product⟩

end Classes

end ChiaVdf
