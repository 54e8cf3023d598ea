import ChiaVdf.ReducerWords

/-! Runs of `Reducer.h`. Each turn is defined and stays in the class, so what a run returns is
the reduced form but for one sign. It need not return: the matrix of a turn is chosen by the
leading words, and on the whole form it can undo the turn before. -/
namespace ChiaVdf.Reducer

open BinaryForm

variable {f g h : Form}

/-- One turn of the loop of `run`. -/
def Turn (f g : Form) : Prop := isReduced f = none ∧ turn f = .done g

/-- The forms at the head of the loop in the run from `f`. -/
abbrev Meets : Form → Form → Prop := Relation.ReflTransGen Turn

/-- The exponents are close enough for a turn on words. -/
def OnWords (f : Form) : Prop := isReduced f = none ∧ secondExp f - firstExp f ≤ EXP_THRESH

instance (f : Form) : Decidable (OnWords f) := by unfold OnWords; infer_instance

/-- The cofactors found for the leading words make the whole form smaller too. -/
def Lowers (f : Form) : Prop := ∀ m, cofactors f = .done m → (apply m f).a + (apply m f).c < f.a + f.c

section Turns

/-- A positive definite form. -/
structure Definite (f : Form) : Prop where
  pos : 0 < f.a
  neg : f.disc < 0

theorem Definite.c_pos (definite : Definite f) : 0 < f.c := Form.c_pos definite.pos definite.neg

theorem Definite.turn (definite : Definite f) (run : turn f = .done g) : Definite g where
  pos := equivalent_pos definite.pos definite.neg (turn_equivalent run)
  neg := (turn_equivalent run).disc_eq ▸ definite.neg

theorem Definite.meets (definite : Definite f) (meets : Meets f g) : Definite g := by
  induction meets with
  | refl => exact definite
  | tail _ step ih => exact ih.turn step.2

theorem unreduced (none : isReduced f = none) : |f.a| < |f.b| ∨ |f.c| < |f.b| := by
  by_contra small
  rw [isReduced, if_neg small] at none
  split_ifs at none

/-- The words of a turn give a matrix of determinant one, and the turn applies it. -/
theorem OnWords.turn (definite : Definite f) (words : OnWords f) :
    ∃ m, cofactors f = .done m ∧ Unimodular m ∧ turn f = .done (apply m f) := by
  have bnz : f.b ≠ 0 := by
    rcases unreduced words.1 with large | large
    · exact abs_pos.mp ((abs_nonneg _).trans_lt large)
    · exact abs_pos.mp ((abs_nonneg _).trans_lt large)
  obtain ⟨m, run, uni⟩ := calcUvwx_total (leadingWords_fits definite.pos definite.neg bnz words.2)
  have found : cofactors f = .done m := run
  refine ⟨m, found, uni, ?_⟩
  rw [turn_eq, if_neg (not_lt.mpr words.2), found]
  rfl

/-- The exact step: `s` is the nearest quotient, and `a` loses what `c` times it gains. -/
theorem reducer_spec (pos : 0 < f.c) : ∃ s, reducer f = .done ⟨f.c, 2 * (f.c * s) - f.b, f.a - s * (f.b - f.c * s)⟩ ∧
    2 * (f.c * s) ≤ f.b + f.c ∧ f.b - f.c < 2 * (f.c * s) := by
  have split := Int.mul_ediv_add_emod f.b f.c
  have low := Int.emod_nonneg f.b pos.ne'
  have high := Int.emod_lt_of_pos f.b pos
  have half := Int.mul_ediv_add_emod (f.b / f.c + 1) 2
  have halfLow := Int.emod_nonneg (f.b / f.c + 1) two_ne_zero
  have halfHigh := Int.emod_lt_of_pos (f.b / f.c + 1) two_pos
  refine ⟨(f.b / f.c + 1) / 2, ?_, ?_, ?_⟩
  · simp only [reducer, mpzFdivQ_pos pos, Exec.done_bind, Exec.pure_eq]
    congr 2
    ring
  all_goals
    generalize (f.b / f.c + 1) / 2 = s at *
    nlinarith

/-- `a + c`, and next to it whether `b` is within `c`: an exact step that leaves the sum where it
is brings `b` outside the next `c`. -/
def potential (f : Form) : ℕ := (2 * (f.a + f.c) + if |f.b| ≤ f.c then 1 else 0).toNat

theorem reducer_lowers (definite : Definite f) (none : isReduced f = none) (run : reducer f = .done g) :
    potential g < potential f := by
  have cpos := definite.c_pos
  have apos := definite.pos
  obtain ⟨s, done, high, low⟩ := reducer_spec cpos
  obtain rfl := Exec.done.inj (done.symm.trans run)
  have large := unreduced none
  rw [abs_of_pos apos, abs_of_pos cpos] at large
  unfold potential
  dsimp only
  by_cases within : |f.b| ≤ f.c
  · have outside : f.a < |f.b| := large.resolve_right (not_lt.mpr within)
    obtain ⟨blow, bhigh⟩ := abs_le.mp within
    have same : s * (f.b - f.c * s) = 0 ∧ |2 * (f.c * s) - f.b| = |f.b| := by
      rcases bhigh.eq_or_lt with eq | lt
      · have one : s = 1 := by
          have above : 0 < s := pos_of_mul_pos_right (a := f.c) (by linarith) cpos.le
          nlinarith
        subst one
        exact ⟨by rw [eq]; ring, by rw [eq]; ring_nf⟩
      · have zero : s = 0 := by
          have below : s < 1 := by nlinarith
          have above : -1 < s := by nlinarith
          omega
        subst zero
        exact ⟨by ring, by rw [mul_zero, mul_zero, zero_sub, abs_neg]⟩
    rw [same.1, same.2, if_neg (by omega), if_pos within]
    omega
  · have gain : 0 < s * (f.b - f.c * s) := by
      rcases lt_abs.mp (not_le.mp within) with plus | minus
      · have above : 0 < s := pos_of_mul_pos_right (a := f.c) (by linarith) cpos.le
        exact mul_pos above (by linarith)
      · have below : s < 0 := by nlinarith
        exact mul_pos_of_neg_of_neg below (by linarith)
    rw [if_neg within]
    split <;> omega

theorem turn_lowers (definite : Definite f) (lowers : OnWords f → Lowers f) (step : Turn f g) :
    potential g < potential f := by
  obtain ⟨none, run⟩ := step
  by_cases near : secondExp f - firstExp f ≤ EXP_THRESH
  · obtain ⟨m, found, -, applied⟩ := OnWords.turn definite ⟨none, near⟩
    have less := lowers ⟨none, near⟩ m found
    obtain rfl := Exec.done.inj (applied.symm.trans run)
    have next := definite.turn applied
    have := next.pos
    have := next.c_pos
    unfold potential
    split <;> split <;> omega
  · rw [turn_eq, if_pos (not_le.mp near)] at run
    exact reducer_lowers definite none run

theorem turn_total (definite : Definite f) (none : isReduced f = none) : ∃ g, turn f = .done g := by
  by_cases near : secondExp f - firstExp f ≤ EXP_THRESH
  · obtain ⟨m, -, -, applied⟩ := OnWords.turn definite ⟨none, near⟩
    exact ⟨_, applied⟩
  · obtain ⟨s, done, -⟩ := reducer_spec definite.c_pos
    rw [turn_eq, if_pos (not_le.mp near)]
    exact ⟨_, done⟩

end Turns

section Runs

/-- Enough turns are one more than the potential: each of them lowers it. -/
theorem run_done (definite : Definite f) (lowers : ∀ g, Meets f g → OnWords g → Lowers g) :
    ∃ turns h, run turns f = .done h := by
  induction size : potential f using Nat.strong_induction_on generalizing f with
  | _ size ih =>
    cases last : isReduced f with
    | some h => exact ⟨1, h, by rw [run, last]⟩
    | none =>
      obtain ⟨g, step⟩ := turn_total definite last
      have first : Meets f g := .single ⟨last, step⟩
      have less := turn_lowers definite (lowers f .refl) ⟨last, step⟩
      obtain ⟨turns, h, ends⟩ := ih _ (size ▸ less) (definite.turn step)
        (fun k meets => lowers k (first.trans meets)) rfl
      exact ⟨turns + 1, h, by rw [run, last]; simpa only [step, Exec.done_bind] using ends⟩

theorem isReduced_ordered (last : isReduced f = some g) (same : g.a = g.c) : 0 ≤ g.b := by
  unfold isReduced at last
  split_ifs at last with large swap equal
  · obtain rfl := Option.some.inj last
    exact absurd same swap.ne
  · obtain rfl := Option.some.inj last
    exact (neg_pos.mpr equal.2).le
  · obtain rfl := Option.some.inj last
    exact not_lt.mp fun minus => equal ⟨same, minus⟩

theorem run_ordered (turns : ℕ) (ends : run turns f = .done g) (same : g.a = g.c) : 0 ≤ g.b := by
  induction turns generalizing f with
  | zero => cases ends
  | succ turns ih =>
    rw [run] at ends
    split at ends
    · next h last =>
      obtain rfl := Exec.done.inj ends
      exact isReduced_ordered last same
    · obtain ⟨h, -, ends⟩ := Exec.bind_eq_done.mp ends
      exact ih ends

/-- What a run returns is what `reduce` returns, but for the sign of a `b` that is equal to `a`. -/
theorem run_reduce (definite : Definite f) {turns : ℕ} (ends : run turns f = .done h) :
    ∃ r, Form.reduce f = .done r ∧ (h = r ∨ r.b = r.a ∧ h = ⟨r.a, -r.a, r.c⟩) := by
  obtain ⟨e, small, ac⟩ := run_equivalent turns ends
  have ordered := run_ordered turns ends
  have pos := equivalent_pos definite.pos definite.neg e
  rw [abs_of_pos pos] at small
  obtain ⟨low, high⟩ := abs_le.mp small
  by_cases edge : h.b = -h.a
  · have distinct : h.a ≠ h.c := fun same => by have := ordered same; omega
    have red : (⟨h.a, h.a, h.c⟩ : Form).Reduced :=
      ⟨by dsimp only; omega, le_rfl, ac, fun same => absurd same distinct⟩
    have moved : ProperlyEquivalent h ⟨h.a, h.a, h.c⟩ := by
      convert equivalent_translate h 1 using 1
      ext <;> dsimp only <;> rw [edge] <;> ring
    exact ⟨_, Form.reduce_eq_of_equivalent definite.pos definite.neg red (e.trans moved),
      .inr ⟨rfl, by ext <;> simp [edge]⟩⟩
  · have red : h.Reduced := ⟨by omega, high, ac, ordered⟩
    exact ⟨h, Form.reduce_eq_of_equivalent definite.pos definite.neg red e, .inl rfl⟩

/-- The reducer agrees with `reduce` where no turn on leading words fails to make the whole form
smaller. Its matrices have determinant one in any case. -/
theorem run_agrees (f : Form) (pos : 0 < f.a) (neg : f.disc < 0)
    (lowers : ∀ g, Meets f g → OnWords g → Lowers g) :
    (∀ g, Meets f g → OnWords g → ∃ m, cofactors g = .done m ∧ turn g = .done (apply m g) ∧
        m.u * m.x - m.v * m.w = 1) ∧
      ∃ turns h r, run turns f = .done h ∧ Form.reduce f = .done r ∧
        (h = r ∨ r.b = r.a ∧ h = ⟨r.a, -r.a, r.c⟩) := by
  have definite : Definite f := ⟨pos, neg⟩
  refine ⟨fun g meets words => ?_, ?_⟩
  · obtain ⟨m, found, uni, applied⟩ := OnWords.turn (definite.meets meets) words
    exact ⟨m, found, applied, uni.det⟩
  · obtain ⟨turns, h, ends⟩ := run_done definite lowers
    obtain ⟨r, reduced, same⟩ := run_reduce definite ends
    exact ⟨turns, h, r, ends, reduced, same⟩

theorem Meets.of_turn (step : turn f = .done g) (meets : Meets f h) : h = f ∨ Meets g h := by
  rcases meets.cases_head with rfl | ⟨k, first, rest⟩
  · exact .inl rfl
  · obtain rfl := Exec.done.inj (step.symm.trans first.2)
    exact .inr rest

theorem Meets.of_last (last : isReduced f = some g) (meets : Meets f h) : h = f := by
  rcases meets.cases_head with rfl | ⟨k, first, -⟩
  · rfl
  · cases last.symm.trans first.1

/-- A reduced form is the last one, and no words are taken of it. -/
theorem lowers_of_last (last : isReduced f = some g) (h : Form) (meets : Meets f h) (words : OnWords h) :
    Lowers h := by
  obtain rfl := Meets.of_last last meets
  cases last.symm.trans words.1

theorem lowers_of_turn (definite : Definite f) (step : turn f = .done g) (less : g.a + g.c < f.a + f.c)
    (rest : ∀ h, Meets g h → OnWords h → Lowers h) (h : Form) (meets : Meets f h) (words : OnWords h) :
    Lowers h := by
  rcases Meets.of_turn step meets with rfl | later
  · intro m found
    obtain ⟨m', found', -, applied⟩ := OnWords.turn definite words
    obtain rfl := Exec.done.inj (found'.symm.trans found)
    rwa [Exec.done.inj (applied.symm.trans step)]
  · exact rest h later words

/-- Two limbs, one turn, and a result that differs from that of `reduce`. -/
example :
    ∃ turns h r, run turns ⟨3834540874549529090252, 2766338826360390970468, 558059450566455477644⟩ = .done h ∧
      Form.reduce ⟨3834540874549529090252, 2766338826360390970468, 558059450566455477644⟩ = .done r ∧
      (h = r ∨ r.b = r.a ∧ h = ⟨r.a, -r.a, r.c⟩) := by
  have step : turn ⟨3834540874549529090252, 2766338826360390970468, 558059450566455477644⟩ =
      .done ⟨534101024094569059892, -534101024094569059892, 558059450566455477644⟩ := by decide +kernel
  have last : isReduced ⟨534101024094569059892, -534101024094569059892, 558059450566455477644⟩ =
      some ⟨534101024094569059892, -534101024094569059892, 558059450566455477644⟩ := by decide +kernel
  exact (run_agrees _ (by norm_num) (by norm_num [disc])
    (lowers_of_turn ⟨by norm_num, by norm_num [disc]⟩ step (by norm_num) (lowers_of_last last))).2

/-- Two turns that lead back to where they began are repeated for ever. -/
theorem run_diverges (there : isReduced f = none ∧ turn f = .done g) (back : isReduced g = none ∧ turn g = .done f)
    (turns : ℕ) : run turns f = .diverged := by
  induction turns using Nat.twoStepInduction with
  | zero => rfl
  | one => simp only [run, there.1, there.2, Exec.done_bind]
  | more turns ih _ => simpa only [run, there.1, there.2, back.1, back.2, Exec.done_bind] using ih

/-- Three coefficients that agree in their leading words, and lie around a reduced form: each of two
turns takes it past that form to the other side. -/
theorem run_cycles : ∃ f : Form, 0 < f.a ∧ 0 < f.c ∧ f.disc < 0 ∧
    f = ⟨2361183241434835249049, 2361183241434835249254, 2361183241434835248947⟩ ∧
    ∀ turns, run turns f = .diverged := by
  refine ⟨_, by norm_num, by norm_num, by norm_num [disc], rfl, ?_⟩
  have there : isReduced ⟨2361183241434835249049, 2361183241434835249254, 2361183241434835248947⟩ = none ∧
      turn ⟨2361183241434835249049, 2361183241434835249254, 2361183241434835248947⟩ =
        .done ⟨2361183241434835248742, 2361183241434835248844, 2361183241434835249049⟩ := by decide +kernel
  have back : isReduced ⟨2361183241434835248742, 2361183241434835248844, 2361183241434835249049⟩ = none ∧
      turn ⟨2361183241434835248742, 2361183241434835248844, 2361183241434835249049⟩ =
        .done ⟨2361183241434835249049, 2361183241434835249254, 2361183241434835248947⟩ := by decide +kernel
  exact run_diverges there back

end Runs

end ChiaVdf.Reducer
