import Mathlib.NumberTheory.LucasPrimality
import ChiaVdf.NucompInPlace
import ChiaVdf.ReducerRuns
import ChiaVdf.Turns

/-! `FastPowFormNucomp` on unreduced forms, squared and multiplied in place and reduced by
`PulmarkReducer`. Its result is the power in the class group wherever it has one; the only
part that may not come to an end is the reducer. -/
namespace ChiaVdf

open BinaryForm

variable {d : Discriminant} {f g : Form} {x y : ReducedForm d}

/-- The routines as `FastPowFormNucomp` calls them, with the result over the first operand; every
reduction may take `turns` turns. -/
def FormArith.inPlace (turns : ℕ) : FormArith where
  nudupl f D L := do
    let s ← nuduplInto true false ⟨f, f⟩ D L
    return s.r
  nucomp f g D L := do
    let s ← nucompInto true false ⟨f, f⟩ g D L
    return s.r
  reduce := Reducer.run turns

section Turns

theorem Reducer.run_mono {turns turns' : ℕ} (le : turns ≤ turns') (f : Form) :
    Exec.Extends (Reducer.run turns f) (Reducer.run turns' f) := by
  induction turns generalizing turns' f with
  | zero => exact fun _ run => nomatch run
  | succ turns ih =>
    obtain ⟨more, rfl⟩ : ∃ more, turns' = more + 1 := ⟨turns' - 1, by omega⟩
    unfold Reducer.run
    split
    · exact Exec.Extends.refl _
    · exact (Exec.Extends.refl _).bind fun next => ih (by omega) next

variable {turns turns' : ℕ} {D n L : ℤ}

theorem FormArith.shrink_mono (le : turns ≤ turns') (res : Form) :
    Exec.Extends ((inPlace turns).shrink D res) ((inPlace turns').shrink D res) := by
  unfold FormArith.shrink
  split
  · exact Reducer.run_mono le res
  · exact Exec.Extends.refl _

theorem FormArith.powStep_mono (le : turns ≤ turns') (i : ℕ) (res : Form) :
    Exec.Extends ((inPlace turns).powStep f D n L i res) ((inPlace turns').powStep f D n L i res) := by
  unfold FormArith.powStep
  exact (Exec.Extends.refl _).bind fun s => (shrink_mono le s).bind fun t => Exec.Extends.refl _

theorem FormArith.powLoop_mono (le : turns ≤ turns') (i : ℕ) (res : Form) :
    Exec.Extends ((inPlace turns).powLoop f D n L i res) ((inPlace turns').powLoop f D n L i res) := by
  induction i generalizing res with
  | zero => exact Exec.Extends.refl _
  | succ i ih => exact (powStep_mono le i res).bind ih

theorem FormArith.fastPow_mono (le : turns ≤ turns') :
    Exec.Extends ((inPlace turns).fastPowFormNucomp f D n L) ((inPlace turns').fastPowFormNucomp f D n L) := by
  unfold FormArith.fastPowFormNucomp
  split
  · exact Exec.Extends.refl _
  · exact (powLoop_mono le _ f).bind (Reducer.run_mono le)

end Turns

theorem FormArith.inPlace_sound (turns : ℕ) (d : Discriminant) : (FormArith.inPlace turns).Sound d where
  nudupl rep run := by
    obtain ⟨s, run', rep'⟩ := nuduplInto_spec true false _ rep
    obtain ⟨t, same, run⟩ := Exec.bind_eq_done.mp run
    obtain rfl := Exec.done.inj (run'.symm.trans same)
    exact Exec.done.inj run ▸ rep'
  nucomp rep rep' run := by
    obtain ⟨s, run', rep''⟩ := nucompInto_spec true false _ rep rep'
    obtain ⟨t, same, run⟩ := Exec.bind_eq_done.mp run
    obtain rfl := Exec.done.inj (run'.symm.trans same)
    exact Exec.done.inj run ▸ rep''
  reduce rep run := rep.equivalent (Reducer.run_equivalent turns run).1

section Power

/-- The positive definite forms of a discriminant, reduced or not. -/
structure OfDisc (D : ℤ) (f : Form) : Prop where
  pos : 0 < f.a
  disc : f.disc = D

/-- The reducer comes back on every positive definite form of the discriminant. -/
def Reducer.Returns (D : ℤ) : Prop := ∀ f, OfDisc D f → ∃ turns g, Reducer.run turns f = .done g

section Total

variable {D L n : ℤ} {res : Form}

theorem OfDisc.equivalent (neg : D < 0) (of : OfDisc D f) (e : ProperlyEquivalent f g) : OfDisc D g where
  pos := equivalent_pos of.pos (of.disc ▸ neg) e
  disc := e.disc_eq.trans of.disc

theorem OfDisc.composite (of : OfDisc D f) (z : Composition f g) (spos : 0 < z.s) (tpos : 0 < z.t) :
    OfDisc D z.result where
  pos := mul_pos spos tpos
  disc := z.result_disc.trans of.disc

theorem OfDisc.nudupl (neg : D < 0) (Ls : 0 ≤ L) (of : OfDisc D f) :
    ∃ g, (∀ turns, (FormArith.inPlace turns).nudupl f D L = .done g) ∧ OfDisc D g := by
  obtain ⟨z, s, -, spos, tpos, run, e⟩ := Nudupl.into_spec (s := ⟨f, f⟩) true false of.pos of.disc neg Ls
  refine ⟨s.r, fun turns => ?_, (of.composite z spos tpos).equivalent neg e⟩
  simp only [FormArith.inPlace, run, Exec.done_bind, Exec.pure_eq]

theorem OfDisc.nucomp (neg : D < 0) (Ls : 0 ≤ L) (of : OfDisc D f) (of' : OfDisc D g) :
    ∃ h, (∀ turns, (FormArith.inPlace turns).nucomp f g D L = .done h) ∧ OfDisc D h := by
  by_cases order : f.a > g.a
  · obtain ⟨z, h, -, spos, tpos, run, e⟩ :=
      Nucomp.orderedChecked_spec false of'.pos of.pos of'.disc of.disc neg Ls
    refine ⟨h, fun turns => ?_, (of'.composite z spos tpos).equivalent neg e⟩
    simp only [FormArith.inPlace, nucompInto, if_pos order, run, Exec.done_bind, Exec.pure_eq]
    rfl
  · obtain ⟨z, h, -, spos, tpos, run, e⟩ :=
      Nucomp.orderedChecked_spec false of.pos of'.pos of.disc of'.disc neg Ls
    refine ⟨h, fun turns => ?_, (of.composite z spos tpos).equivalent neg e⟩
    simp only [FormArith.inPlace, nucompInto, if_neg order, run, Exec.done_bind, Exec.pure_eq]
    rfl

/-- The reducer stays in the class as long as it turns, and returns a nearly reduced form. -/
theorem OfDisc.run_within (neg : D < 0) (of : OfDisc D f) (turns : ℕ) :
    Exec.Within (fun g => OfDisc D g ∧ |g.b| ≤ |g.a| ∧ g.a ≤ g.c) (Reducer.run turns f) := by
  induction turns generalizing f with
  | zero => trivial
  | succ turns ih =>
    cases last : Reducer.isReduced f with
    | some g =>
      have ends : Reducer.run 1 f = .done g := by rw [Reducer.run, last]
      obtain ⟨e, ordered⟩ := Reducer.run_equivalent 1 ends
      simp only [Reducer.run, last]
      exact ⟨of.equivalent neg e, ordered⟩
    | none =>
      obtain ⟨g, step⟩ := Reducer.turn_total ⟨of.pos, of.disc ▸ neg⟩ last
      simp only [Reducer.run, last, step, Exec.done_bind]
      exact ih (of.equivalent neg (Reducer.turn_equivalent step))

theorem OfDisc.shrink_within (neg : D < 0) (of : OfDisc D f) (turns : ℕ) :
    Exec.Within (OfDisc D) ((FormArith.inPlace turns).shrink D f) := by
  unfold FormArith.shrink
  split
  · exact (of.run_within neg turns).imp fun g small => small.1
  · exact of

theorem OfDisc.powStep_within (neg : D < 0) (Ls : 0 ≤ L) (base : OfDisc D f) (of : OfDisc D res)
    (turns i : ℕ) : Exec.Within (OfDisc D) ((FormArith.inPlace turns).powStep f D n L i res) := by
  obtain ⟨s, double, ofs⟩ := of.nudupl neg Ls
  simp only [FormArith.powStep, double, Exec.done_bind]
  apply (ofs.shrink_within neg turns).bind
  intro t oft
  split
  · obtain ⟨u, product, ofu⟩ := oft.nucomp neg Ls base
    rw [product]
    exact ofu
  · exact oft

theorem OfDisc.powLoop_within (neg : D < 0) (Ls : 0 ≤ L) (base : OfDisc D f) (of : OfDisc D res)
    (turns i : ℕ) : Exec.Within (OfDisc D) ((FormArith.inPlace turns).powLoop f D n L i res) := by
  induction i generalizing res with
  | zero => exact of
  | succ i ih => exact (base.powStep_within neg Ls of turns i).bind fun next ofn => ih ofn

theorem OfDisc.fastPow_within (neg : D < 0) (Ls : 0 ≤ L) (base : OfDisc D f) (nonzero : n ≠ 0) (turns : ℕ) :
    Exec.Within (fun g => OfDisc D g ∧ |g.b| ≤ |g.a| ∧ g.a ≤ g.c)
      ((FormArith.inPlace turns).fastPowFormNucomp f D n L) := by
  rw [FormArith.fastPowFormNucomp, if_neg nonzero]
  exact (base.powLoop_within neg Ls base turns _).bind fun res ofres => ofres.run_within neg turns

variable (returns : Reducer.Returns D)
include returns

theorem OfDisc.run_returns (neg : D < 0) (of : OfDisc D f) :
    Exec.Returns (OfDisc D) fun turns => Reducer.run turns f := by
  obtain ⟨turns, g, run⟩ := returns f of
  exact .of_extends (fun turns' le => Reducer.run_mono le f) run ((of.run_within neg turns).value run).1

theorem OfDisc.powStep_returns (neg : D < 0) (Ls : 0 ≤ L) (base : OfDisc D f) (of : OfDisc D res) (i : ℕ) :
    Exec.Returns (OfDisc D) fun turns => (FormArith.inPlace turns).powStep f D n L i res := by
  obtain ⟨s, double, ofs⟩ := of.nudupl neg Ls
  simp only [FormArith.powStep, double, Exec.done_bind]
  have small : Exec.Returns (OfDisc D) fun turns => (FormArith.inPlace turns).shrink D s := by
    unfold FormArith.shrink
    by_cases large : mpSize s.a > (-mpSize D).tdiv 2
    · simp only [if_pos large]
      exact ofs.run_returns returns neg
    · simp only [if_neg large]
      exact .const ofs
  apply small.bind
  intro t oft
  obtain ⟨u, product, ofu⟩ := oft.nucomp neg Ls base
  by_cases set : mpzTstbit n i
  · simp only [set, if_true, product]
    exact .const ofu
  · simp only [set, Bool.false_eq_true, if_false]
    exact .const oft

theorem OfDisc.powLoop_returns (neg : D < 0) (Ls : 0 ≤ L) (base : OfDisc D f) (of : OfDisc D res) (i : ℕ) :
    Exec.Returns (OfDisc D) fun turns => (FormArith.inPlace turns).powLoop f D n L i res := by
  induction i generalizing res with
  | zero => exact .const of
  | succ i ih => exact (base.powStep_returns returns neg Ls of i).bind fun next ofn => ih ofn

theorem OfDisc.fastPow_returns (neg : D < 0) (Ls : 0 ≤ L) (base : OfDisc D f) (nonzero : n ≠ 0) :
    Exec.Returns (OfDisc D) fun turns => (FormArith.inPlace turns).fastPowFormNucomp f D n L := by
  simp only [FormArith.fastPowFormNucomp, if_neg nonzero]
  exact (base.powLoop_returns returns neg Ls base _).bind fun res ofres => ofres.run_returns returns neg

end Total

/-- The routines compute in the class group; only the reducer may not come back. -/
theorem FormArith.inPlace_within (turns : ℕ) (d : Discriminant) : (FormArith.inPlace turns).Within d where
  nudupl {f x} rep := by
    obtain ⟨s, run, rep'⟩ := nuduplInto_spec true false f rep
    simp only [FormArith.inPlace, run, Exec.done_bind]
    exact rep'
  nucomp {f g x y} rep rep' := by
    obtain ⟨s, run, rep''⟩ := nucompInto_spec true false f rep rep'
    simp only [FormArith.inPlace, run, Exec.done_bind]
    exact rep''
  reduce {f x} rep := by
    cases run : Reducer.run turns f with
    | done g =>
      simp only [FormArith.inPlace, run]
      exact rep.equivalent (Reducer.run_equivalent turns run).1
    | diverged =>
      simp only [FormArith.inPlace, run]
      trivial
    | thrown =>
      have within := OfDisc.run_within d.D_neg ⟨rep.pos, rep.disc⟩ turns
      rw [run] at within
      exact within.elim
    | fault =>
      have within := OfDisc.run_within d.D_neg ⟨rep.pos, rep.disc⟩ turns
      rw [run] at within
      exact within.elim

theorem FormArith.inPlace_reduces (turns : ℕ) (d : Discriminant) : (FormArith.inPlace turns).Reduces d := by
  intro f g y rep run
  have pos := ((FormArith.inPlace_sound turns d).reduce rep run).pos
  obtain ⟨-, small, ordered⟩ := Reducer.run_equivalent turns run
  exact ⟨abs_of_pos pos ▸ small, ordered⟩

theorem FormArith.inPlace_fixes_23 {turns : ℕ} (positive : 0 < turns) :
    (FormArith.inPlace turns).Fixes ⟨1, 1, 6⟩ (-23) 2 where
  identity := by decide +kernel
  nudupl := show (FormArith.inPlace 0).nudupl ⟨1, 1, 6⟩ (-23) 2 = .done ⟨1, 1, 6⟩ by decide +kernel
  nucomp := show (FormArith.inPlace 0).nucomp ⟨1, 1, 6⟩ ⟨1, 1, 6⟩ (-23) 2 = .done ⟨1, 1, 6⟩ by decide +kernel
  reduce := Reducer.run_mono (show 1 ≤ turns by omega) _ _
    (show Reducer.run 1 ⟨1, 1, 6⟩ = .done ⟨1, 1, 6⟩ by decide +kernel)

/-- Repeated squaring from `x` on comes back: on each of the nearly reduced forms that represent the powers
`x ^ 2 ^ n`, of which there are finitely many. -/
def SquaresReturn (x : ReducedForm d) : Prop := ∀ ⦃n : ℕ⦄ ⦃f : Form⦄, Represents f (x ^ 2 ^ n) → NearlyReduced f →
  ∃ turns g, ((FormArith.inPlace turns).nudupl f d.D d.L >>= Reducer.run turns) = .done g

theorem finite_nearlyReduced {D : ℤ} : {f : Form | OfDisc D f ∧ NearlyReduced f}.Finite := by
  have box : (Set.Icc (1 : ℤ) (-D) ×ˢ Set.Icc D (-D)).Finite := (Set.finite_Icc _ _).prod (Set.finite_Icc _ _)
  apply (box.image fun ab => (⟨ab.1, ab.2, (ab.2 ^ 2 - D) / (4 * ab.1)⟩ : Form)).subset
  rintro ⟨a, b, c⟩ ⟨⟨pos, disc⟩, small, ordered⟩
  dsimp only [BinaryForm.disc] at pos disc small ordered
  have square : b ^ 2 ≤ a ^ 2 := sq_le_sq' (abs_le.mp small).1 (abs_le.mp small).2
  have product : a * a ≤ a * c := mul_le_mul_of_nonneg_left ordered pos.le
  have bound : a ≤ -D := by nlinarith
  refine ⟨(a, b), ⟨⟨pos, bound⟩, ?_⟩, ?_⟩
  · obtain ⟨low, high⟩ := abs_le.mp small
    exact ⟨by dsimp only; omega, by dsimp only; omega⟩
  · have whole : (b ^ 2 - D) / (4 * a) = c := by
      rw [← disc]
      apply Int.ediv_eq_of_eq_mul_right (by omega)
      ring
    simp only [whole]

/-- Some number of turns is enough for all of them. -/
theorem SquaresReturn.squares {x : ReducedForm d} (returns : SquaresReturn x) :
    ∃ enough, ∀ turns ≥ enough, (FormArith.inPlace turns).Squares x := by
  have each (f : Form) : ∃ turns, ∀ n, Represents f (x ^ 2 ^ n) → NearlyReduced f →
      ∃ g, ((FormArith.inPlace turns).nudupl f d.D d.L >>= Reducer.run turns) = .done g := by
    by_cases suited : ∃ n, Represents f (x ^ 2 ^ n) ∧ NearlyReduced f
    · obtain ⟨n, rep, nearly⟩ := suited
      obtain ⟨turns, done⟩ := returns rep nearly
      exact ⟨turns, fun _ _ _ => done⟩
    · exact ⟨0, fun n rep nearly => absurd ⟨n, rep, nearly⟩ suited⟩
  choose turns done using each
  obtain ⟨enough, above⟩ := ((finite_nearlyReduced (D := d.D)).image turns).bddAbove
  refine ⟨enough, fun more le n f rep nearly => ?_⟩
  have of : OfDisc d.D f := ⟨rep.pos, rep.disc⟩
  obtain ⟨h, run⟩ := done f n rep nearly
  obtain ⟨g, squared, reduced⟩ := Exec.bind_eq_done.mp run
  have room : turns f ≤ more := (above ⟨f, ⟨of, nearly⟩, rfl⟩).trans le
  have reduced' := Reducer.run_mono room g h reduced
  have sound := FormArith.inPlace_sound more d
  have rep' := sound.nudupl rep squared
  rw [x.pow_two_succ] at rep'
  have rep'' := sound.reduce rep' reduced'
  obtain ⟨-, small, ordered⟩ := Reducer.run_equivalent more reduced'
  exact ⟨g, h, squared, reduced', rep'', abs_of_pos rep''.pos ▸ small, ordered⟩

/-- With enough turns each routine returns what that of the limit returns. -/
abbrev FormArith.TendsTo (arith : ℕ → FormArith) (limit : FormArith) : Prop :=
  FormArith.Related (fun _ => Exec.TendsTo) arith limit

/-- Where the reducer comes back on the forms of a discriminant, the routines with more and more turns tend to an
arithmetic of its class group. -/
theorem Reducer.Returns.limit (returns : Reducer.Returns d.D) :
    ∃ limit : FormArith, limit.Lawful d ∧ FormArith.TendsTo FormArith.inPlace limit := by
  have each (f : Form) : ∃ y : Exec Form, Exec.TendsTo (fun turns => Reducer.run turns f) y ∧
      (OfDisc d.D f → ∃ g, y = .done g ∧ ∃ turns, Reducer.run turns f = .done g) := by
    by_cases of : OfDisc d.D f
    · obtain ⟨turns, g, run⟩ := returns f of
      refine ⟨.done g, fun h same => ⟨turns, fun more le => ?_⟩, fun _ => ⟨g, rfl, turns, run⟩⟩
      obtain rfl := Exec.done.inj same
      exact Reducer.run_mono le f g run
    · exact ⟨.diverged, fun g run => (by cases run), fun of' => absurd of' of⟩
  choose reduce tends ends using each
  -- only the reducer makes use of the turns
  let limit : FormArith := ⟨(FormArith.inPlace 0).nudupl, (FormArith.inPlace 0).nucomp, reduce⟩
  have sound := FormArith.inPlace_sound 0 d
  have lawful : limit.Lawful d := by
    refine ⟨⟨sound.nudupl, sound.nucomp, ?_⟩, ?_, ?_, ?_⟩
    · intro f g x rep run
      obtain ⟨h, same, turns, ended⟩ := ends f ⟨rep.pos, rep.disc⟩
      obtain rfl := Exec.done.inj (same.symm.trans run)
      exact (FormArith.inPlace_sound turns d).reduce rep ended
    · intro f x rep
      obtain ⟨s, run, -⟩ := nuduplInto_spec true false f rep
      exact ⟨s.r, by simp only [limit, FormArith.inPlace, run, Exec.done_bind]; rfl⟩
    · intro f g x y rep rep'
      obtain ⟨s, run, -⟩ := nucompInto_spec true false f rep rep'
      exact ⟨s.r, by simp only [limit, FormArith.inPlace, run, Exec.done_bind]; rfl⟩
    · intro f x rep
      obtain ⟨g, same, -⟩ := ends f ⟨rep.pos, rep.disc⟩
      exact ⟨g, same⟩
  exact ⟨limit, lawful, Exec.tendsTo_stepwise, fun f D L => Exec.tendsTo_stepwise.const _,
    fun f g D L => Exec.tendsTo_stepwise.const _, tends⟩

/-- `x` multiplied `n` times onto the identity by `multiply`. -/
def Form.power (D : ℤ) (x : Form) : ℕ → Exec Form
  | 0 => Form.identity D
  | n + 1 => do
    let y ← power D x n
    Form.multiply y x

theorem Form.power_run (x : ReducedForm d) (n : ℕ) : Form.power d.D x.form n = .done (x ^ n).form := by
  induction n with
  | zero => rw [Form.power, identity_run, pow_zero]
  | succ n ih => rw [Form.power, ih, Exec.done_bind, multiply_run, pow_succ]

/-- `g` is nearly reduced, and `reduce` takes it to the `n`-fold product of what it takes `f` to. -/
def IsPowerOf (D : ℤ) (f : Form) (n : ℕ) (g : Form) : Prop :=
  g.disc = D ∧ |g.b| ≤ g.a ∧ g.a ≤ g.c ∧
    ∃ h r, Form.reduce f = .done h ∧ Form.reduce g = .done r ∧ Form.power D h n = .done r

/-- What the exponentiation returns is right, on whatever form and with however many turns. -/
theorem fastPow_isPowerOf {n : ℤ} (nonneg : 0 ≤ n) (of : OfDisc d.D f) {turns : ℕ}
    (run : (FormArith.inPlace turns).fastPowFormNucomp f d.D n d.L = .done g) : IsPowerOf d.D f n.toNat g := by
  obtain ⟨x, base⟩ := exists_represents of.pos of.disc
  obtain ⟨e, rep, same⟩ := (FormArith.inPlace_sound turns d).fastPow base n run
  rw [same nonneg] at rep
  have ordered : |g.b| ≤ g.a ∧ g.a ≤ g.c := by
    by_cases zero : n = 0
    · rw [FormArith.fastPowFormNucomp, if_pos zero, identity_run] at run
      obtain rfl := Exec.done.inj run
      exact ⟨(1 : ReducedForm d).reduced.abs_b_le, (1 : ReducedForm d).reduced.2.2.1⟩
    · obtain ⟨-, small, ac⟩ := (of.fastPow_within d.D_neg d.L_nonneg zero turns).value run
      exact ⟨abs_of_pos rep.pos ▸ small, ac⟩
  exact ⟨rep.disc, ordered.1, ordered.2, _, _, base.reduce, rep.reduce, Form.power_run x _⟩

/-- An exponent of one bit leaves the reduction as the only work. -/
theorem FormArith.fastPow_one (arith : FormArith) (f : Form) (D L : ℤ) :
    arith.fastPowFormNucomp f D 1 L = arith.reduce f := rfl

end Power

section Endless

/-- `a ^ e % m`, with one square for each of the `bits` bits of `e`. -/
def powMod (m a : ℕ) : ℕ → ℕ → ℕ
  | 0, _ => 1 % m
  | bits + 1, e => powMod m a bits (e / 2) ^ 2 * a ^ (e % 2) % m

theorem powMod_eq (m a : ℕ) {bits e : ℕ} (room : e < 2 ^ bits) : powMod m a bits e = a ^ e % m := by
  induction bits generalizing e with
  | zero =>
    obtain rfl : e = 0 := by simpa using room
    rfl
  | succ bits ih =>
    have half : e / 2 < 2 ^ bits := by
      rw [pow_succ] at room
      omega
    have split : a ^ e = (a ^ (e / 2)) ^ 2 * a ^ (e % 2) := by
      rw [← pow_mul, ← pow_add, Nat.div_add_mod']
    rw [powMod, ih half, split, Nat.mul_mod, ← Nat.pow_mod, ← Nat.mul_mod]

/-- Lucas's test, with the prime factors of `p - 1` as a list; the largest one stands apart. -/
theorem prime_of_lucas {p large : ℕ} (a bits : ℕ) (factors : List ℕ) (prime : large.Prime)
    (primes : ∀ q ∈ factors, q.Prime)
    (checked : large * factors.prod = p - 1 ∧ 2 ≤ p ∧ p < 2 ^ bits ∧ powMod p a bits (p - 1) = 1 ∧
      ∀ q ∈ large :: factors, powMod p a bits ((p - 1) / q) ≠ 1) : p.Prime := by
  obtain ⟨whole, two, room, one, others⟩ := checked
  have all : ∀ q ∈ large :: factors, q.Prime := List.forall_mem_cons.mpr ⟨prime, primes⟩
  have residue {e : ℕ} (le : e ≤ p - 1) : (a : ZMod p) ^ e = 1 ↔ powMod p a bits e = 1 := by
    rw [powMod_eq p a (by omega), ← Nat.cast_pow, ← Nat.cast_one, ZMod.natCast_eq_natCast_iff',
      Nat.mod_eq_of_lt (a := 1) (by omega)]
  refine lucas_primality p a ((residue le_rfl).mpr one) fun q prime' divides => ?_
  rw [← whole, ← List.prod_cons] at divides
  obtain ⟨r, member, divides⟩ := (Prime.dvd_prod_iff prime'.prime).mp divides
  obtain rfl := (Nat.prime_dvd_prime_iff_eq prime' (all r member)).mp divides
  rw [Ne, residue (Nat.div_le_self _ _)]
  exact others q member

/-- `-D` for the form that the reducer does not bring to an end. -/
theorem prime_endless : Nat.Prime 587563605372765690293090173139069662951 := by
  have first : Nat.Prime 132288589879 :=
    prime_of_lucas 3 38 [2, 3, 19, 37, 733] (show Nat.Prime 42787 by norm_num) (by norm_num)
      (by decide +kernel)
  have second : Nat.Prime 13381255443440609 :=
    prime_of_lucas 3 54 [2, 2, 2, 2, 2, 29, 109] first (by norm_num) (by decide +kernel)
  have third : Nat.Prime 1164654963151929877106701 :=
    prime_of_lucas 7 80 [2, 2, 3, 3, 5, 5, 13, 43, 173] second (by norm_num) (by decide +kernel)
  exact prime_of_lucas 3 130 [2, 3, 3, 5, 5, 2153, 8059, 64613] third (by norm_num) (by decide +kernel)

end Endless

end ChiaVdf
