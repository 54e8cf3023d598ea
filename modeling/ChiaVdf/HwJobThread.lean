import ChiaVdf.HwProofCoverage
import ChiaVdf.HwStatus
import ChiaVdf.Reducer

/-! What `run_job` computes: an engine that was started with the form after `offset` squarings has the form after
`offset + cur_iter` of them whenever its status is read. -/
namespace ChiaVdf

open BinaryForm

variable {d : Discriminant} {arith : FormArith} {x : ReducedForm d} {offset target : ℕ}

open HwInterface (nearlyReduced_bounded)

/-- What `reduce` returns has a property. -/
def FormArith.ReducesTo (arith : FormArith) (d : Discriminant) (P : Form → Prop) : Prop :=
  ∀ (f g : Form) (y : ReducedForm d), Represents f y → arith.reduce f = .done g → P g

theorem FormArith.Lawful.square_done {P : Form → Prop} (lawful : arith.Lawful d) (reduces : arith.ReducesTo d P)
    {f : Form} {n : ℕ} (rep : Represents f (x ^ 2 ^ n)) : ∃ g h, arith.nudupl f d.D d.L = .done g ∧
      arith.reduce g = .done h ∧ Represents h (x ^ 2 ^ (n + 1)) ∧ P h := by
  obtain ⟨g, squared⟩ := lawful.nudupl_done rep
  have rep' := lawful.nudupl rep squared
  rw [x.pow_two_succ] at rep'
  obtain ⟨h, reduced⟩ := lawful.reduce_done rep'
  exact ⟨g, h, squared, reduced, lawful.reduce rep' reduced, reduces _ _ _ rep' reduced⟩

/-- What an engine may have said: the form after some of the iterations, or zeros if it was stopping. -/
def VdfValue.Told (x : ReducedForm d) (offset target : ℕ) (val : VdfValue) : Prop :=
  val = ⟨0, 0, 0⟩ ∨ ∃ n f, offset + n ≤ target ∧ Represents f (x ^ 2 ^ (offset + n)) ∧ val = ⟨n, f.a, f.b⟩

namespace Engine

variable {e e' : Engine}

/-- A thread that squares has room for one more iteration. -/
def ThreadRight (x : ReducedForm d) (offset : ℕ) (e : Engine) : JobThread → Prop
  | .launched => e.running = false
  | .testing => e.running = true
  | .squaring => e.running = true ∧ e.job.curIter < e.job.targetIter
  | .updating qf2 => e.running = true ∧ e.job.curIter < e.job.targetIter ∧
      Represents qf2 (x ^ 2 ^ (offset + e.job.curIter + 1)) ∧ NearlyReduced qf2
  | .ending => e.running = true

/-- The job is part of the computation that goes to `target`, and at most one thread works on it. -/
structure Right (x : ReducedForm d) (offset target : ℕ) (e : Engine) : Prop where
  created : e.created = true
  initDone : e.initDone = true
  discriminant : e.job.d = d.D
  bound : e.job.l = d.L
  qf : Represents e.job.qf (x ^ 2 ^ (offset + e.job.curIter))
  nearly : NearlyReduced e.job.qf
  total : offset + e.job.targetIter = target
  le : e.job.curIter ≤ e.job.targetIter
  threads : e.threads = [] ∧ e.running = false ∨ ∃ thread, e.threads = [thread] ∧ e.ThreadRight x offset thread

theorem Right.told (right : e.Right x offset target) : e.value.Told x offset target := by
  have le := right.le
  have total := right.total
  cases stop : e.stopping with
  | true => exact .inl (by simp [value, stop])
  | false =>
    apply Or.inr
    exact ⟨e.job.curIter, e.job.qf, by omega, right.qf, by simp [value, stop]⟩

theorem Right.ready (bits : |d.D| < 2 ^ 1090) (small : target < 2 ^ 64)
    (right : e.Right x offset target) : e.Ready := by
  have le := right.le
  have total := right.total
  have bounds := nearlyReduced_bounded right.qf.pos right.nearly right.qf.disc bits
  exact ⟨right.created, right.initDone, by omega, bounds.1, bounds.2⟩

theorem Right.sameJob (right : e.Right x offset target) (same : e.SameJob e') : e'.Right x offset target := by
  obtain ⟨_, rfl⟩ := same
  exact ⟨right.created, right.initDone, right.discriminant, right.bound, right.qf, right.nearly, right.total, right.le,
    right.threads⟩

theorem Right.stop (right : e.Right x offset target) (stopping : Bool) :
    Right x offset target { e with stopping := stopping } :=
  ⟨right.created, right.initDone, right.discriminant, right.bound, right.qf, right.nearly, right.total, right.le,
    right.threads⟩

theorem Right.disable (right : e.Right x offset target) : e.disable.Right x offset target := by
  unfold Engine.disable
  split_ifs
  · exact right.stop true
  · exact right

theorem Right.enable (right : e.Right x offset target) : e.enable.Right x offset target :=
  ⟨rfl, right.initDone, right.discriminant, right.bound, right.qf, right.nearly, right.total, right.le,
    right.threads⟩

theorem Right.await (right : e.Right x offset target) : e.await.Right x offset target := by
  unfold Engine.await
  split_ifs
  · exact right.stop true
  · exact right

/-- A job begins with its form, where no thread is left of the one before. -/
theorem begun_right (created : e.created = true) (none : e.threads = []) (idle : e.running = false) {n : ℕ}
    (total : offset + n = target) :
    (e.begun ⟨0, n, d.D, d.L, (x ^ 2 ^ offset).form⟩).Right x offset target where
  created := created
  initDone := rfl
  discriminant := rfl
  bound := rfl
  qf := ReducedForm.represents _
  nearly := nearlyReduced_of_reduced (ReducedForm.reduced _)
  total := total
  le := Nat.zero_le n
  threads := .inr ⟨.launched, by simp [begun, none], idle⟩

theorem Right.threadStep_done (squares : arith.Squares x) (right : e.Right x offset target) (k : ℕ) :
    ∃ e', e.threadStep arith k = .done e' := by
  obtain ⟨g, h, squared, reduced, -⟩ := squares right.qf right.nearly
  rw [← right.discriminant, ← right.bound] at squared
  unfold Engine.threadStep
  split
  · exact ⟨_, rfl⟩
  · exact ⟨_, rfl⟩
  · split_ifs <;> exact ⟨_, rfl⟩
  · exact ⟨_, by rw [squared, Exec.done_bind, reduced]; rfl⟩
  · exact ⟨_, rfl⟩
  · exact ⟨_, rfl⟩

theorem Right.frame (right : e.Right x offset target)
    (same : e'.created = e.created ∧ e'.initDone = e.initDone ∧ e'.job = e.job)
    (threads : e'.threads = [] ∧ e'.running = false ∨
      ∃ thread, e'.threads = [thread] ∧ e'.ThreadRight x offset thread) :
    e'.Right x offset target := by
  obtain ⟨created, initDone, job⟩ := same
  exact ⟨created.trans right.created, initDone.trans right.initDone, job ▸ right.discriminant, job ▸ right.bound,
    job ▸ right.qf, job ▸ right.nearly, job ▸ right.total, job ▸ right.le, threads⟩

/-- A step of a thread, one case for each point of its loop. -/
theorem Right.threadStep (squares : arith.Squares x) (right : e.Right x offset target) {k : ℕ}
    (run : e.threadStep arith k = .done e') : e'.Right x offset target := by
  have unchanged (outside : e.threads[k]? = none) : e'.Right x offset target := by
    simp only [Engine.threadStep, outside] at run
    obtain rfl := Exec.done.inj run
    exact right
  rcases right.threads with ⟨none, -⟩ | ⟨thread, one, here⟩
  · exact unchanged (by simp [none])
  · cases k with
    | succ k => exact unchanged (by simp [one])
    | zero =>
      have first : e.threads[0]? = some thread := by simp [one]
      simp only [Engine.threadStep, first] at run
      cases thread with
      | launched =>
        obtain rfl := Exec.done.inj run
        exact right.frame ⟨rfl, rfl, rfl⟩ (.inr ⟨.testing, by simp [one], rfl⟩)
      | testing =>
        simp only at run
        split_ifs at run with again
        · obtain rfl := Exec.done.inj run
          exact right.frame ⟨rfl, rfl, rfl⟩ (.inr ⟨.squaring, by simp [one], here, again.2⟩)
        · obtain rfl := Exec.done.inj run
          exact right.frame ⟨rfl, rfl, rfl⟩ (.inr ⟨.ending, by simp [one], here⟩)
      | squaring =>
        obtain ⟨g, h, squared, reduced, new⟩ := squares right.qf right.nearly
        rw [← right.discriminant, ← right.bound] at squared
        simp only [squared, Exec.done_bind, reduced, Exec.pure_eq] at run
        obtain rfl := Exec.done.inj run
        exact right.frame ⟨rfl, rfl, rfl⟩ (.inr ⟨.updating _, by simp [one], here.1, here.2, new⟩)
      | updating qf2 =>
        obtain rfl := Exec.done.inj run
        obtain ⟨running, lt, new, nearly⟩ := here
        exact ⟨right.created, right.initDone, right.discriminant, right.bound, new, nearly, right.total, lt,
          .inr ⟨.testing, by simp [one], running⟩⟩
      | ending =>
        obtain rfl := Exec.done.inj run
        exact right.frame ⟨rfl, rfl, rfl⟩ (.inl ⟨by simp [one], rfl⟩)

theorem threadStep_below {arith' : FormArith} (below : arith.Below arith') (k : ℕ) (e : Engine) :
    Exec.Below (e.threadStep arith k) (e.threadStep arith' k) := by
  unfold threadStep
  split
  · rfl
  · rfl
  · rfl
  · apply (below.nudupl _ _ _).bind
    intro qf2
    exact (below.reduce qf2).first
  · rfl
  · rfl

theorem threadStep_registers {k : ℕ} (run : e.threadStep arith k = .done e') :
    e'.jobRegs = e.jobRegs ∧ e'.statusRegs = e.statusRegs := by
  unfold threadStep at run
  split at run
  · obtain rfl := Exec.done.inj run
    exact ⟨rfl, rfl⟩
  · obtain rfl := Exec.done.inj run
    exact ⟨rfl, rfl⟩
  · split_ifs at run <;> obtain rfl := Exec.done.inj run <;> exact ⟨rfl, rfl⟩
  · obtain ⟨_, _, run⟩ := Exec.bind_eq_done.mp run
    obtain ⟨_, _, run⟩ := Exec.bind_eq_done.mp run
    obtain rfl := Exec.done.inj run
    exact ⟨rfl, rfl⟩
  · obtain rfl := Exec.done.inj run
    exact ⟨rfl, rfl⟩
  · obtain rfl := Exec.done.inj run
    exact ⟨rfl, rfl⟩

theorem Whole.of_registers (whole : e.Whole)
    (same : e'.jobRegs = e.jobRegs ∧ e'.statusRegs = e.statusRegs) : e'.Whole := by
  obtain ⟨jobs, status⟩ := same
  exact ⟨by rw [jobs]; exact whole.jobRegs, by rw [status]; exact whole.statusRegs, by rw [jobs]; exact whole.quiet⟩

end Engine

end ChiaVdf
