import ChiaVdf.FormArithmetic

/-! `vdf_original.h`: the slow squaring, which works on reduced forms. -/
namespace ChiaVdf.VdfOriginal

open BinaryForm

def normalize (f : Form) : Exec Form :=
  if f.b > -f.a ∧ f.b ≤ f.a then .done f
  else do
    let r ← mpzFdivQ (f.a - f.b) (f.a * 2)
    return ⟨f.a, f.b + r * f.a + r * f.a, f.c + r * f.a * r + r * f.b⟩

/-- One turn of the loop of `reduce`. -/
def reduceStep (f : Form) : Exec Form := do
  let s ← mpzFdivQ (f.c + f.b) (f.c * 2)
  return ⟨f.c, -f.b + s * f.c * 2, f.c * s * s - f.b * s + f.a⟩

def reduceLoop : ℕ → Form → Exec Form
  | 0, _ => .diverged
  | fuel + 1, f =>
    if f.a > f.c ∨ f.a = f.c ∧ f.b < 0 then do
      let g ← reduceStep f
      reduceLoop fuel g
    else .done f

def reduce (f : Form) : Exec Form := do
  let f ← normalize f
  let f ← reduceLoop f.reduceFuel f
  normalize f

/-- The version without a check of the remainder. -/
def solveLinearCongruence (a b m : ℤ) : Exec ℤ := do
  let r := mpzGcdext a m
  let q ← mpzFdivQ b r.gcd
  mpzMod (q * r.s) m

def square (f : Form) : Exec Form := do
  let mu ← solveLinearCongruence f.b f.c f.a
  let m ← mpzFdivQ (f.b * mu - f.c) f.a
  reduce ⟨f.a * f.a, f.b - mu * f.a * 2, mu * mu - m⟩

/-- `repeated_square_original` without a listener. -/
def repeatedSquare (f : Form) (iterations : ℕ) : Exec Form :=
  Exec.forLoop iterations (fun _ f => square f) f

variable {f : Form}

theorem normalize_eq (pos : 0 < f.a) : normalize f = Form.normalize f := by
  unfold normalize
  split_ifs with normal
  · exact (Form.normalize_of_normal pos normal).symm
  · simp only [Form.normalize, mul_comm f.a 2, mpzFdivQ_pos (show 0 < 2 * f.a by omega),
      Exec.done_bind, Exec.pure_eq]
    congr 2 <;> ring

theorem reduceLoop_eq (fuel : ℕ) (f : Form) : reduceLoop fuel f = Form.reduceLoop fuel f := by
  have step (f : Form) : reduceStep f = Form.reduceImpl f := by
    simp only [reduceStep, Form.reduceImpl, mul_comm f.c 2]
    congr 1
    funext s
    congr 2
    ring
  induction fuel generalizing f with
  | zero => rfl
  | succ fuel ih => simp only [reduceLoop, Form.reduceLoop, step, ih]

/-- Both reductions do the same. -/
theorem reduce_eq (pos : 0 < f.a) (neg : f.disc < 0) : reduce f = Form.reduce f := by
  obtain ⟨g, first, normal, same, equivalent⟩ := Form.normalize_spec pos
  obtain ⟨h, run, reduced, -⟩ := Form.reduceLoop_spec g.reduceFuel g (same ▸ pos)
    (equivalent.disc_eq ▸ neg) normal (by unfold Form.reduceFuel; omega)
  simp only [reduce, normalize_eq pos, Form.reduce, first, Exec.done_bind, reduceLoop_eq, run,
    normalize_eq reduced.pos]

/-- Reduction ends in the one reduced triple of the class, whichever of the two routines runs. -/
theorem reduce_canonical (pos : 0 < f.a) (neg : f.disc < 0) :
    ∃ g, Form.reduce f = .done g ∧ reduce f = .done g ∧ ProperlyEquivalent f g ∧ g.disc = f.disc ∧
      Form.isReduced g = true ∧ (-g.a < g.b ∧ g.b ≤ g.a ∧ g.a ≤ g.c ∧ (g.a = g.c → 0 ≤ g.b)) ∧
      ∀ f' : Form, 0 < f'.a → f'.disc = f.disc →
        (Form.reduce f' = Form.reduce f ↔ ProperlyEquivalent f f') := by
  obtain ⟨g, run, reduced, e⟩ := Form.reduce_spec pos neg
  refine ⟨g, run, (reduce_eq pos neg).trans run, e, e.disc_eq, Form.isReduced_of_reduced reduced,
    reduced, fun f' pos' same => ?_⟩
  obtain ⟨g', run', -, e'⟩ := Form.reduce_spec pos' (same ▸ neg)
  constructor
  · intro triple
    rw [run', run] at triple
    exact e.trans (Exec.done.inj triple ▸ e'.symm)
  · intro proper
    rw [run]
    exact Form.reduce_eq_of_equivalent pos' (same ▸ neg) reduced (proper.symm.trans e)

/-- Both boundary conventions at once: `(2, -2, 2)` has `b = -a` and `a = c`. -/
theorem reduce_canonical_corner :
    0 < (⟨2, -2, 2⟩ : Form).a ∧ (⟨2, -2, 2⟩ : Form).disc < 0 ∧
    ∃ g, Form.reduce ⟨2, -2, 2⟩ = .done g ∧ reduce ⟨2, -2, 2⟩ = .done g ∧ g = ⟨2, 2, 2⟩ := by
  obtain ⟨g, run, run', -⟩ := reduce_canonical (f := ⟨2, -2, 2⟩) (by decide) (by decide)
  refine ⟨by decide, by decide, g, run, run', ?_⟩
  have value : Form.reduce ⟨2, -2, 2⟩ = .done ⟨2, 2, 2⟩ := by decide
  exact Exec.done.inj (run.symm.trans value)

variable {d : Discriminant}

/-- The slow squaring is the one of `vdf_new.h`, reduced form or not. -/
theorem square_eq (pos : 0 < f.a) (neg : f.disc < 0) (coprime : Int.gcd f.b f.a = 1) :
    square f = Form.square f := by
  have bezout := mpzGcdext_bezout f.b f.a
  rw [coprime] at bezout
  -- the congruence is solvable since `a` and `b` are coprime
  obtain ⟨u, hu⟩ : ∃ u, u = f.c * (mpzGcdext f.b f.a).s % f.a := ⟨_, rfl⟩
  obtain ⟨m, hm⟩ : f.a ∣ f.b * u - f.c := by
    rw [hu, Int.emod_def]
    refine ⟨-(f.c * (mpzGcdext f.b f.a).t) - f.b * (f.c * (mpzGcdext f.b f.a).s / f.a), ?_⟩
    push_cast at bezout
    linear_combination f.c * bezout
  have quotient : mpzFdivQ f.c (Int.gcd f.b f.a) = .done f.c := by
    rw [coprime]
    exact mpzFdivQ_exact one_ne_zero _ (one_mul _).symm
  have composed : (⟨f.a * f.a, f.b - u * f.a * 2, u * u - m⟩ : Form).disc = f.disc := by
    unfold disc
    linear_combination -4 * f.a * hm
  have same := reduce_eq (f := ⟨f.a * f.a, f.b - u * f.a * 2, u * u - m⟩) (mul_pos pos pos)
    (composed ▸ neg)
  have doubled : f.b - 2 * (f.a * u) = f.b - u * f.a * 2 := by ring
  simp only [square, solveLinearCongruence, Form.square, mpzGcdext_gcd, quotient, Exec.done_bind,
    mpzMod_done pos.ne', ← hu, mpzFdivQ_exact pos.ne' m hm, same, doubled]

theorem square_reduced (x : ReducedForm d) : square x.form = .done (x * x).form := by
  rw [← square_run x]
  exact square_eq x.reduced.pos (x.disc ▸ d.D_neg) x.coprime

theorem repeatedSquare_reduced (x : ReducedForm d) (n : ℕ) :
    repeatedSquare x.form n = .done (x ^ 2 ^ n).form := by
  unfold repeatedSquare
  induction n with
  | zero => simp [Exec.forLoop]
  | succ n ih => rw [Exec.forLoop, ih, Exec.done_bind, square_reduced, ← pow_add, ← two_mul, ← pow_succ']

end ChiaVdf.VdfOriginal
