import ChiaVdf.ClassGroup
import ChiaVdf.Turns

/-! Arithmetic on forms that are reduced only now and then, as `nudupl_form`, `nucomp_form`
and `PulmarkReducer` offer it, and exponentiation on top of it. Its users are stated over any
such arithmetic; what they need of it is that it computes in the class group. -/
namespace ChiaVdf

open BinaryForm

/-- The three routines, with the discriminant and the bound `L` they are called with. -/
structure FormArith where
  nudupl : Form → ℤ → ℤ → Exec Form
  nucomp : Form → Form → ℤ → ℤ → Exec Form
  reduce : Form → Exec Form

namespace FormArith

/-- Reduce only when `a` exceeds a half of the discriminant size. -/
def shrink (arith : FormArith) (D : ℤ) (res : Form) : Exec Form :=
  if mpSize res.a > (-mpSize D).tdiv 2 then arith.reduce res else .done res

/-- The body of the loop of `FastPowFormNucomp` for bit `i`. -/
def powStep (arith : FormArith) (x : Form) (D n L : ℤ) (i : ℕ) (res : Form) : Exec Form := do
  let res ← arith.nudupl res D L
  let res ← arith.shrink D res
  if mpzTstbit n i then arith.nucomp res x D L else .done res

/-- The loop over the bits below `i`. -/
def powLoop (arith : FormArith) (x : Form) (D n L : ℤ) : ℕ → Form → Exec Form
  | 0, res => .done res
  | i + 1, res => do
    let res ← arith.powStep x D n L i res
    powLoop arith x D n L i res

def fastPowFormNucomp (arith : FormArith) (x : Form) (D n L : ℤ) : Exec Form :=
  if n = 0 then Form.identity D
  else do
    let res ← arith.powLoop x D n L (numBits n - 1) x
    arith.reduce res

end FormArith

variable {d : Discriminant} {f g : Form} {x y : ReducedForm d}

/-- A form in the class of `x`, reduced or not. -/
structure Represents (f : Form) (x : ReducedForm d) : Prop where
  pos : 0 < f.a
  disc : f.disc = d.D
  similar : Similar (d.ideal f) (d.ideal x.form)

theorem ReducedForm.represents (x : ReducedForm d) : Represents x.form x :=
  ⟨x.reduced.pos, x.disc, BinaryForm.Similar.refl _⟩

theorem Represents.reduce (rep : Represents f x) : Form.reduce f = .done x.form := by
  obtain ⟨h, run, similar⟩ := reduce_similar rep.pos rep.disc
  rw [run, ReducedForm.eq_of_similar (similar.symm.trans rep.similar)]

theorem Represents.multiply (rep : Represents f x) (rep' : Represents g y) :
    Form.multiply f g = .done (x * y).form := by
  obtain ⟨h, run, similar⟩ := multiply_similar rep.pos rep'.pos rep.disc rep'.disc
  have same : h = x * y := ReducedForm.eq_of_similar
    ((similar.symm.trans (rep.similar.mul rep'.similar)).trans (mul_similar x y))
  rw [run, same]

/-- The bound that all callers pass: the fourth root of `-D`. -/
def Discriminant.L (d : Discriminant) : ℤ := d.p.sqrt.sqrt

theorem mpzRoot4_neg_D (d : Discriminant) : mpzRoot4 (-d.D) = .done d.L := by
  simp [mpzRoot4, Discriminant.D, Discriminant.L]

/-- Whatever the arithmetic returns is right: it is a form in the class it ought to be in. -/
structure FormArith.Sound (arith : FormArith) (d : Discriminant) : Prop where
  nudupl : ∀ {f g : Form} {x : ReducedForm d}, Represents f x →
    arith.nudupl f d.D d.L = .done g → Represents g (x * x)
  nucomp : ∀ {f g h : Form} {x y : ReducedForm d}, Represents f x → Represents g y →
    arith.nucomp f g d.D d.L = .done h → Represents h (x * y)
  reduce : ∀ {f g : Form} {x : ReducedForm d}, Represents f x →
    arith.reduce f = .done g → Represents g x

/-- The arithmetic computes in the class group of discriminant `D`. -/
structure FormArith.Lawful (arith : FormArith) (d : Discriminant) : Prop extends arith.Sound d where
  nudupl_done : ∀ {f : Form} {x : ReducedForm d}, Represents f x →
    ∃ g, arith.nudupl f d.D d.L = .done g
  nucomp_done : ∀ {f g : Form} {x y : ReducedForm d}, Represents f x → Represents g y →
    ∃ h, arith.nucomp f g d.D d.L = .done h
  reduce_done : ∀ {f : Form} {x : ReducedForm d}, Represents f x → ∃ g, arith.reduce f = .done g

/-- Composition by `multiply`, which reduces every time. -/
def FormArith.plain : FormArith where
  nudupl f _ _ := Form.multiply f f
  nucomp f g _ _ := Form.multiply f g
  reduce := Form.reduce

theorem FormArith.plain_lawful (d : Discriminant) : FormArith.plain.Lawful d where
  nudupl rep run := by
    obtain rfl := Exec.done.inj ((rep.multiply rep).symm.trans run)
    exact ReducedForm.represents _
  nucomp rep rep' run := by
    obtain rfl := Exec.done.inj ((rep.multiply rep').symm.trans run)
    exact ReducedForm.represents _
  reduce rep run := by
    obtain rfl := Exec.done.inj (rep.reduce.symm.trans run)
    exact ReducedForm.represents _
  nudupl_done rep := ⟨_, rep.multiply rep⟩
  nucomp_done rep rep' := ⟨_, rep.multiply rep'⟩
  reduce_done rep := ⟨_, rep.reduce⟩

/-- What `PulmarkReducer` makes of a form; the sign of `b` is not settled if it is `a` or if `a` is `c`. -/
def NearlyReduced (f : Form) : Prop := |f.b| ≤ f.a ∧ f.a ≤ f.c

theorem nearlyReduced_of_reduced {f : Form} (red : f.Reduced) : NearlyReduced f :=
  ⟨abs_le.mpr ⟨red.1.le, red.2.1⟩, red.2.2.1⟩

/-- What is returned by `reduce` has coefficients that are as small as those of a reduced form. -/
def FormArith.Reduces (arith : FormArith) (d : Discriminant) : Prop :=
  ∀ (f g : Form) (y : ReducedForm d), Represents f y → arith.reduce f = .done g → NearlyReduced g

/-- Repeated squaring from `x` on comes back: from every nearly reduced form that it may be at, to the next one. -/
def FormArith.Squares (arith : FormArith) (x : ReducedForm d) : Prop :=
  ∀ ⦃n : ℕ⦄ ⦃f : Form⦄, Represents f (x ^ 2 ^ n) → NearlyReduced f →
    ∃ g h, arith.nudupl f d.D d.L = .done g ∧ arith.reduce g = .done h ∧ Represents h (x ^ 2 ^ (n + 1)) ∧
      NearlyReduced h

theorem ReducedForm.pow_two_succ (x : ReducedForm d) (n : ℕ) : x ^ 2 ^ n * x ^ 2 ^ n = x ^ 2 ^ (n + 1) := by
  rw [← pow_two, ← pow_mul, ← pow_succ]

theorem FormArith.Lawful.squares {arith : FormArith} (lawful : arith.Lawful d) (reduces : arith.Reduces d)
    (x : ReducedForm d) : arith.Squares x := by
  intro n f rep _
  obtain ⟨g, squared⟩ := lawful.nudupl_done rep
  have rep' := lawful.nudupl rep squared
  rw [x.pow_two_succ] at rep'
  obtain ⟨h, reduced⟩ := lawful.reduce_done rep'
  exact ⟨g, h, squared, reduced, lawful.reduce rep' reduced, reduces _ _ _ rep' reduced⟩

/-- The arithmetic computes in the class group of discriminant `D`, but it need not come back. -/
structure FormArith.Within (arith : FormArith) (d : Discriminant) : Prop where
  nudupl : ∀ {f : Form} {x : ReducedForm d}, Represents f x →
    Exec.Within (fun g => Represents g (x * x)) (arith.nudupl f d.D d.L)
  nucomp : ∀ {f g : Form} {x y : ReducedForm d}, Represents f x → Represents g y →
    Exec.Within (fun h => Represents h (x * y)) (arith.nucomp f g d.D d.L)
  reduce : ∀ {f : Form} {x : ReducedForm d}, Represents f x →
    Exec.Within (fun g => Represents g x) (arith.reduce f)

theorem FormArith.Lawful.within {arith : FormArith} (lawful : arith.Lawful d) : arith.Within d where
  nudupl rep := by
    obtain ⟨g, run⟩ := lawful.nudupl_done rep
    rw [run]
    exact lawful.nudupl rep run
  nucomp rep rep' := by
    obtain ⟨h, run⟩ := lawful.nucomp_done rep rep'
    rw [run]
    exact lawful.nucomp rep rep' run
  reduce rep := by
    obtain ⟨g, run⟩ := lawful.reduce_done rep
    rw [run]
    exact lawful.reduce rep run

/-- The arithmetic that goes on with `multiply` and `reduce` where `arith` does not come back. -/
def FormArith.completed (arith : FormArith) : FormArith where
  nudupl f D L := (arith.nudupl f D L).orElse (Form.multiply f f)
  nucomp f g D L := (arith.nucomp f g D L).orElse (Form.multiply f g)
  reduce f := (arith.reduce f).orElse (Form.reduce f)

theorem FormArith.Within.completed {arith : FormArith} (within : arith.Within d) : arith.completed.Lawful d := by
  have nudupl {f : Form} {x : ReducedForm d} (rep : Represents f x) :=
    (within.nudupl rep).orElse (rep.multiply rep) (ReducedForm.represents _)
  have nucomp {f g : Form} {x y : ReducedForm d} (rep : Represents f x) (rep' : Represents g y) :=
    (within.nucomp rep rep').orElse (rep.multiply rep') (ReducedForm.represents _)
  have reduce {f : Form} {x : ReducedForm d} (rep : Represents f x) :=
    (within.reduce rep).orElse rep.reduce (ReducedForm.represents _)
  refine ⟨⟨fun rep run => ?_, fun rep rep' run => ?_, fun rep run => ?_⟩, fun rep => ?_, fun rep rep' => ?_,
    fun rep => ?_⟩
  · obtain ⟨g, run', rep'⟩ := nudupl rep
    exact Exec.done.inj (run'.symm.trans run) ▸ rep'
  · obtain ⟨h, run', rep''⟩ := nucomp rep rep'
    exact Exec.done.inj (run'.symm.trans run) ▸ rep''
  · obtain ⟨g, run', rep'⟩ := reduce rep
    exact Exec.done.inj (run'.symm.trans run) ▸ rep'
  · obtain ⟨g, run, -⟩ := nudupl rep
    exact ⟨g, run⟩
  · obtain ⟨h, run, -⟩ := nucomp rep rep'
    exact ⟨h, run⟩
  · obtain ⟨g, run, -⟩ := reduce rep
    exact ⟨g, run⟩

theorem FormArith.Reduces.completed {arith : FormArith} (reduces : arith.Reduces d) : arith.completed.Reduces d := by
  intro f g y rep run
  simp only [FormArith.completed] at run
  cases first : arith.reduce f with
  | done h =>
    rw [first] at run
    exact reduces f g y rep (first.trans run)
  | diverged =>
    rw [first] at run
    obtain rfl := Exec.done.inj (rep.reduce.symm.trans run)
    exact nearlyReduced_of_reduced y.reduced
  | thrown =>
    rw [first] at run
    cases run
  | fault =>
    rw [first] at run
    cases run

/-- Each routine of `arith` is that of `arith'`, unless it does not come back. -/
structure FormArith.Below (arith arith' : FormArith) : Prop where
  nudupl : ∀ f D L, Exec.Below (arith.nudupl f D L) (arith'.nudupl f D L)
  nucomp : ∀ f g D L, Exec.Below (arith.nucomp f g D L) (arith'.nucomp f g D L)
  reduce : ∀ f, Exec.Below (arith.reduce f) (arith'.reduce f)

theorem FormArith.below_completed (arith : FormArith) : arith.Below arith.completed where
  nudupl _ _ _ := Exec.below_orElse _ _
  nucomp _ _ _ _ := Exec.below_orElse _ _
  reduce _ := Exec.below_orElse _ _

/-- Each routine of `arith` with so many turns is related to that of `limit`. -/
structure FormArith.Related (R : ∀ γ : Type, (ℕ → Exec γ) → Exec γ → Prop) (arith : ℕ → FormArith)
    (limit : FormArith) : Prop extends Exec.Stepwise R where
  nudupl : ∀ f D L, R Form (fun turns => (arith turns).nudupl f D L) (limit.nudupl f D L)
  nucomp : ∀ f g D L, R Form (fun turns => (arith turns).nucomp f g D L) (limit.nucomp f g D L)
  reduce : ∀ f, R Form (fun turns => (arith turns).reduce f) (limit.reduce f)

section Related

variable {R : ∀ γ : Type, (ℕ → Exec γ) → Exec γ → Prop} {arith : ℕ → FormArith} {limit : FormArith} {D L n : ℤ}

theorem FormArith.Related.shrink (related : Related R arith limit) (res : Form) :
    R Form (fun turns => (arith turns).shrink D res) (limit.shrink D res) :=
  Exec.Stepwise.ite (related.reduce res) (related.const _)

theorem FormArith.Related.powStep (related : Related R arith limit) (f : Form) (i : ℕ) (res : Form) :
    R Form (fun turns => (arith turns).powStep f D n L i res) (limit.powStep f D n L i res) := by
  apply related.bind (related.nudupl res D L)
  intro s
  apply related.bind (related.shrink s)
  intro t
  exact Exec.Stepwise.ite (related.nucomp t f D L) (related.const _)

theorem FormArith.Related.powLoop (related : Related R arith limit) (f : Form) (i : ℕ) (res : Form) :
    R Form (fun turns => (arith turns).powLoop f D n L i res) (limit.powLoop f D n L i res) := by
  induction i generalizing res with
  | zero => exact related.const _
  | succ i ih => exact related.bind (related.powStep f i res) ih

theorem FormArith.Related.fastPow (related : Related R arith limit) (f : Form) (D n L : ℤ) :
    R Form (fun turns => (arith turns).fastPowFormNucomp f D n L) (limit.fastPowFormNucomp f D n L) :=
  Exec.Stepwise.ite (related.const _) (related.bind (related.powLoop f _ f) related.reduce)

end Related

theorem FormArith.Below.related {arith arith' : FormArith} (below : arith.Below arith') :
    FormArith.Related (fun _ x y => ∀ turns, Exec.Below (x turns) y) (fun _ => arith) arith' :=
  ⟨Exec.below_stepwise, fun f D L _ => below.nudupl f D L, fun f g D L _ => below.nucomp f g D L,
    fun f _ => below.reduce f⟩

theorem FormArith.Below.fastPow {arith arith' : FormArith} (below : arith.Below arith') (f : Form) (D n L : ℤ) :
    Exec.Below (arith.fastPowFormNucomp f D n L) (arith'.fastPowFormNucomp f D n L) :=
  below.related.fastPow f D n L 0

section Power

variable {arith : FormArith}

/-- The bit of `n` that `mpz_tstbit` reads, as a number. -/
def bit (n : ℤ) (i : ℕ) : ℕ := if mpzTstbit n i then 1 else 0

theorem emod_two_pow_succ (n : ℤ) (i : ℕ) :
    (n % 2 ^ (i + 1)).toNat = (n % 2 ^ i).toNat + 2 ^ i * bit n i := by
  have split : n % 2 ^ (i + 1) = n % 2 ^ i + 2 ^ i * (n / 2 ^ i % 2) := by
    rw [pow_succ, Int.emod_def, Int.emod_def, Int.emod_def, Int.ediv_ediv_of_nonneg (by positivity)]
    ring
  have low := Int.emod_nonneg n (show (2 : ℤ) ^ i ≠ 0 by positivity)
  have whole : ((2 : ℤ) ^ i).toNat = 2 ^ i := by
    rw [← Nat.cast_ofNat, ← Nat.cast_pow, Int.toNat_natCast]
  unfold bit mpzTstbit
  rcases Int.emod_two_eq_zero_or_one (n / 2 ^ i) with zero | one
  · simp [split, zero]
  · rw [split, one, mul_one, Int.toNat_add low (by positivity), whole]
    simp

namespace FormArith

theorem Sound.shrink (sound : arith.Sound d) (rep : Represents f x)
    (run : arith.shrink d.D f = .done g) : Represents g x := by
  unfold FormArith.shrink at run
  split at run
  · exact sound.reduce rep run
  · obtain rfl := Exec.done.inj run
    exact rep

theorem Lawful.shrink_done (lawful : arith.Lawful d) (rep : Represents f x) :
    ∃ g, arith.shrink d.D f = .done g := by
  unfold FormArith.shrink
  split
  · exact lawful.reduce_done rep
  · exact ⟨f, rfl⟩

theorem Sound.powStep (sound : arith.Sound d) (base : Represents f x) (n : ℤ) (i : ℕ) {e : ℕ}
    {res : Form} (rep : Represents res (x ^ e)) (run : arith.powStep f d.D n d.L i res = .done g) :
    Represents g (x ^ (2 * e + bit n i)) := by
  obtain ⟨s, double, run⟩ := Exec.bind_eq_done.mp run
  obtain ⟨t, small, run⟩ := Exec.bind_eq_done.mp run
  have rept := sound.shrink (sound.nudupl rep double) small
  rw [← pow_add, ← two_mul] at rept
  unfold bit
  split at run
  · next set =>
    rw [if_pos set, pow_succ]
    exact sound.nucomp rept base run
  · next clear =>
    obtain rfl := Exec.done.inj run
    rwa [if_neg clear]

theorem Lawful.powStep_done (lawful : arith.Lawful d) (base : Represents f x) (n : ℤ) (i : ℕ)
    {y : ReducedForm d} {res : Form} (rep : Represents res y) :
    ∃ g, arith.powStep f d.D n d.L i res = .done g := by
  obtain ⟨s, double⟩ := lawful.nudupl_done rep
  have reps := lawful.nudupl rep double
  obtain ⟨t, small⟩ := lawful.shrink_done reps
  simp only [FormArith.powStep, double, small, Exec.done_bind]
  split
  · exact lawful.nucomp_done (lawful.shrink reps small) base
  · exact ⟨t, rfl⟩

theorem Sound.powLoop (sound : arith.Sound d) (base : Represents f x) (n : ℤ) (i : ℕ) {e : ℕ}
    {res : Form} (rep : Represents res (x ^ e)) (run : arith.powLoop f d.D n d.L i res = .done g) :
    Represents g (x ^ (e * 2 ^ i + (n % 2 ^ i).toNat)) := by
  induction i generalizing e res with
  | zero =>
    obtain rfl := Exec.done.inj run
    simpa [Int.emod_one] using rep
  | succ i ih =>
    obtain ⟨s, step, run⟩ := Exec.bind_eq_done.mp run
    have exponent : e * 2 ^ (i + 1) + (n % 2 ^ (i + 1)).toNat =
        (2 * e + bit n i) * 2 ^ i + (n % 2 ^ i).toNat := by
      rw [emod_two_pow_succ]
      ring
    rw [exponent]
    exact ih (sound.powStep base n i rep step) run

theorem Lawful.powLoop_done (lawful : arith.Lawful d) (base : Represents f x) (n : ℤ) (i : ℕ)
    {e : ℕ} {res : Form} (rep : Represents res (x ^ e)) :
    ∃ g, arith.powLoop f d.D n d.L i res = .done g := by
  induction i generalizing e res with
  | zero => exact ⟨res, rfl⟩
  | succ i ih =>
    obtain ⟨s, step⟩ := lawful.powStep_done base n i rep
    obtain ⟨g, run⟩ := ih (lawful.powStep base n i rep step)
    exact ⟨g, by rw [FormArith.powLoop, step, Exec.done_bind, run]⟩

/-- The routines leave the identity as it is. -/
structure Fixes (arith : FormArith) (one : Form) (D L : ℤ) : Prop where
  identity : Form.identity D = .done one
  nudupl : arith.nudupl one D L = .done one
  nucomp : arith.nucomp one one D L = .done one
  reduce : arith.reduce one = .done one

theorem Fixes.fastPow {D L : ℤ} {one : Form} (fixes : arith.Fixes one D L) (n : ℤ) :
    arith.fastPowFormNucomp one D n L = .done one := by
  have shrink : arith.shrink D one = .done one := by
    unfold FormArith.shrink
    split_ifs
    · exact fixes.reduce
    · rfl
  have loop (i : ℕ) : arith.powLoop one D n L i one = .done one := by
    induction i with
    | zero => rfl
    | succ i ih =>
      simp only [FormArith.powLoop, FormArith.powStep, fixes.nudupl, shrink, Exec.done_bind]
      split_ifs
      · rw [fixes.nucomp, Exec.done_bind, ih]
      · rw [Exec.done_bind, ih]
  unfold FormArith.fastPowFormNucomp
  split_ifs
  · exact fixes.identity
  · rw [loop, Exec.done_bind, fixes.reduce]

end FormArith

theorem sub_two_pow_mod (pos : 0 < n) : 2 ^ (numBits n - 1) + n.toNat % 2 ^ (numBits n - 1) = n.toNat := by
  have bits : numBits n - 1 = n.toNat.log2 := by
    unfold numBits mpzSizeinbase2
    rw [if_neg pos.ne', Nat.add_sub_cancel]
    congr 1
    omega
  have low := Nat.log2_self_le (show n.toNat ≠ 0 by omega)
  have high := Nat.lt_log2_self (n := n.toNat)
  rw [bits, Nat.mod_eq_sub_mod low, Nat.mod_eq_of_lt (by rw [pow_succ] at high; omega)]
  omega

/-- `FastPowFormNucomp` computes powers; with a negative exponent it returns some power. -/
theorem FormArith.Sound.fastPow (sound : arith.Sound d) (base : Represents f x) (n : ℤ)
    (run : arith.fastPowFormNucomp f d.D n d.L = .done g) :
    ∃ e : ℕ, Represents g (x ^ e) ∧ (0 ≤ n → e = n.toNat) := by
  unfold fastPowFormNucomp at run
  split at run
  · next zero =>
    obtain rfl := Exec.done.inj ((identity_run d).symm.trans run)
    exact ⟨0, by simpa using ReducedForm.represents (1 : ReducedForm d), by simp [zero]⟩
  · next nonzero =>
    obtain ⟨res, loop, run⟩ := Exec.bind_eq_done.mp run
    have rep := sound.powLoop base n (numBits n - 1) (e := 1) (by simpa using base) loop
    refine ⟨_, sound.reduce rep run, fun nonneg => ?_⟩
    have pos : 0 < n := by omega
    rw [one_mul]
    refine Eq.trans ?_ (sub_two_pow_mod pos)
    congr 1
    rw [Int.toNat_emod nonneg (by positivity)]
    congr 1

theorem FormArith.Lawful.fastPow_done (lawful : arith.Lawful d) (base : Represents f x) (n : ℤ) :
    ∃ g, arith.fastPowFormNucomp f d.D n d.L = .done g := by
  unfold fastPowFormNucomp
  split
  · exact ⟨_, identity_run d⟩
  · obtain ⟨res, loop⟩ := lawful.powLoop_done base n (numBits n - 1) (e := 1) (by simpa using base)
    obtain ⟨g, last⟩ := lawful.reduce_done
      (lawful.powLoop base n (numBits n - 1) (e := 1) (by simpa using base) loop)
    exact ⟨g, by rw [loop, Exec.done_bind, last]⟩

theorem FormArith.Lawful.fastPow_nat (lawful : arith.Lawful d) (base : Represents f x) (n : ℕ) :
    ∃ g, arith.fastPowFormNucomp f d.D n d.L = .done g ∧ Represents g (x ^ n) := by
  obtain ⟨g, run⟩ := lawful.fastPow_done base n
  obtain ⟨e, rep, same⟩ := lawful.fastPow base n run
  rw [same (by positivity), Int.toNat_natCast] at rep
  exact ⟨g, run, rep⟩

end Power

end ChiaVdf
