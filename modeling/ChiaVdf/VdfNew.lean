import ChiaVdf.BinaryForm.Basic
import ChiaVdf.Integer

/-! Forms as `vdf_new.h` computes with them: normalization, reduction, the two ways of
squaring and composition through two linear congruences. -/
namespace ChiaVdf

abbrev Form := BinaryForm

namespace Form

open BinaryForm

def normalize (f : Form) : Exec Form := do
  let r ← mpzFdivQ (f.a - f.b) (2 * f.a)
  return ⟨f.a, f.b + 2 * (r * f.a), f.a * r * r + f.b * r + f.c⟩

def reduceImpl (f : Form) : Exec Form := do
  let s ← mpzFdivQ (f.c + f.b) (2 * f.c)
  return ⟨f.c, 2 * (s * f.c) - f.b, f.c * s * s - f.b * s + f.a⟩

/-- The `while` loop of `reduce`. -/
def reduceLoop : ℕ → Form → Exec Form
  | 0, _ => .diverged
  | fuel + 1, f =>
    if f.a > f.c ∨ f.a = f.c ∧ f.b < 0 then do
      let g ← reduceImpl f
      reduceLoop fuel g
    else .done f

/-- Each turn of the loop shrinks `a` or ends it, so this many turns are never exceeded. -/
def reduceFuel (f : Form) : ℕ := 2 * f.a.natAbs + 3

def reduce (f : Form) : Exec Form := do
  let f ← normalize f
  let f ← reduceLoop f.reduceFuel f
  normalize f

def isReduced (f : Form) : Bool :=
  (f.a < f.c ∨ f.a = f.c ∧ 0 ≤ f.b) ∧ (|f.b| < |f.a| ∨ f.a = f.b)

def fromAbd (a b d : ℤ) : Exec Form :=
  if a ≤ 0 then .thrown "Invalid form. Positive a"
  else do
    let r ← mpzMod (b * b - d) (4 * a)
    if r ≠ 0 then .thrown "Invalid form. Can't find c."
    else do
      let c ← mpzFdivQ (b * b - d) (4 * a)
      reduce ⟨a, b, c⟩

def identity (d : ℤ) : Exec Form := fromAbd 1 1 d

def inverse (f : Form) : Exec Form := reduce ⟨f.a, -f.b, f.c⟩

def square (f : Form) : Exec Form := do
  let r := mpzGcdext f.b f.a
  let q ← mpzFdivQ f.c r.gcd
  let u ← mpzMod (q * r.s) f.a
  let v ← mpzFdivQ (f.b * u - f.c) f.a
  reduce ⟨f.a * f.a, f.b - 2 * (f.a * u), u * u - v⟩

def threeGcd (a b c : ℤ) : ℤ := (mpzGcdext (mpzGcdext a b).gcd c).gcd

/-- A solution `mu` of `a*mu ≡ b` modulo `m` and the period `v` of all solutions. -/
def solveLinearCongruence (a b m : ℤ) : Exec (ℤ × ℤ) := do
  let r := mpzGcdext a m
  let q ← mpzFdivQ b r.gcd
  let rem ← mpzMod b r.gcd
  if rem ≠ 0 then .fault .assertion
  else do
    let mu ← mpzMod (q * r.s) m
    let v ← mpzFdivQ m r.gcd
    return (mu, v)

def multiply (f1 f2 : Form) : Exec Form := do
  let g ← mpzFdivQ (f2.b + f1.b) 2
  let h ← mpzFdivQ (f2.b - f1.b) 2
  let w := threeGcd f1.a f2.a g
  let s ← mpzFdivQ f1.a w
  let t ← mpzFdivQ f2.a w
  let u ← mpzFdivQ g w
  let (kTemp, constantFactor) ← solveLinearCongruence (t * u) (h * u + s * f1.c) (s * t)
  let (n, _) ← solveLinearCongruence (t * constantFactor) (h - t * kTemp) s
  let k := kTemp + constantFactor * n
  let l ← mpzFdivQ (t * k - h) s
  let m ← mpzFdivQ (t * u * k - h * u - s * f1.c) (s * t)
  reduce ⟨s * t, w * u - (k * t + l * s), k * l - w * m⟩

end Form

end ChiaVdf
