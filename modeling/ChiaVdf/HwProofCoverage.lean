import ChiaVdf.HwProof
import ChiaVdf.LazyPower

/-! Up to the last value, each multiple of the interval has its form or gets it from a work item that is
queued or running. What a work item stores is what its thread does when it is left to itself. -/
namespace ChiaVdf

open BinaryForm

variable {d : Discriminant} {arith : FormArith} {x : ReducedForm d}

/-- A thread that is left to itself comes to mark the value at `pos`. -/
inductive AuxThread.Marks (arith : FormArith) (D L : ℤ) : AuxThread → ℕ → Prop
  | now {worker : CalcValues} : worker.point = .mark →
      Marks arith D L (.calcValues worker) (worker.iters / HW_VDF_VALUE_INTERVAL)
  | later {thread thread' : AuxThread} {pos : ℕ} : thread.next arith D L = .done thread' →
      Marks arith D L thread' pos → Marks arith D L thread pos

/-- The value is the initial form after its number of squarings. -/
def VdfValue.Genuine (x : ReducedForm d) (val : VdfValue) : Prop :=
  ∃ c, Represents ⟨val.a, val.b, c⟩ (x ^ 2 ^ val.iters)

namespace VdfState

/-- The form at position `pos` is the right one. -/
def Holds (x : ReducedForm d) (vdf : VdfState) (pos : ℕ) : Prop :=
  ∃ f, vdf.values pos = some f ∧ Represents f (x ^ 2 ^ (pos * HW_VDF_VALUE_INTERVAL))

/-- A queued or running work item will store the value at `pos`. -/
def Pending (arith : FormArith) (d : Discriminant) (vdf : VdfState) (pos : ℕ) : Prop :=
  (∃ work ∈ vdf.wq, (AuxThread.start work).Marks arith d.D d.L pos) ∨
    ∃ i, (vdf.auxThreads i).Marks arith d.D d.L pos

/-- What the hardware may deliver: a value that passes the checks is a true iterate. -/
def Delivers (x : ReducedForm d) (vdf : VdfState) (val : VdfValue) : Prop :=
  ∀ b, mpzMod val.b (2 * val.a) = .done b →
    verifyVdfValue d.D ⟨vdf.totalIters val, val.a, b⟩ = true →
    vdf.totalIters val ≤ vdf.targetIters ∧ VdfValue.Genuine x ⟨vdf.totalIters val, val.a, val.b⟩

/-- The work that a value after `iters` iterations asks for spans fewer than 2 ^ 32 iterations. -/
def ShortGap (vdf : VdfState) (iters : ℕ) : Prop := endIters iters < vdf.startIters + 2 ^ 32

/-- The states of the runs in which every value that arrives has the property `Fits`. -/
inductive Reachable (arith : FormArith) (x : ReducedForm d) (Fits : VdfState → VdfValue → Prop) :
    VdfState → Prop
  | init {nIters maxAuxThreads : ℕ} {a b : ℤ} {s : VdfState} (genuine : VdfValue.Genuine x ⟨0, a, b⟩)
      (run : initVdfState d.D nIters maxAuxThreads a b = .done s) : Reachable arith x Fits s
  | step {s t : VdfState} {event : Event} (reachable : Reachable arith x Fits s)
      (delivers : ∀ val, event = .value val → s.Delivers x val ∧ Fits s val)
      (run : s.step arith d.D d.L event = .done t) : Reachable arith x Fits t

end VdfState

section Below

variable {arith' : FormArith} {D L : ℤ}

theorem CalcValues.square_below (below : arith.Below arith') (worker : CalcValues) :
    Exec.Below (worker.square arith D L) (worker.square arith' D L) := by
  apply (below.nudupl _ _ _).bind
  intro f
  exact (below.reduce f).first

theorem AuxThread.next_below (below : arith.Below arith') (thread : AuxThread) :
    Exec.Below (thread.next arith D L) (thread.next arith' D L) := by
  cases thread with
  | calcValues worker =>
    simp only [AuxThread.next]
    split
    · exact worker.square_below below
    · rfl
    · rfl
  | _ => rfl

theorem VdfState.step_below (below : arith.Below arith') (vdf : VdfState) (event : VdfState.Event) :
    Exec.Below (vdf.step arith D L event) (vdf.step arith' D L event) := by
  cases event with
  | aux i => exact ((vdf.auxThreads i).next_below below).first
  | _ => rfl

end Below

section Worker

theorem VdfValue.Genuine.fromAbd {val : VdfValue} (genuine : val.Genuine x) :
    ∃ f, Form.fromAbd val.a val.b d.D = .done f ∧ Represents f (x ^ 2 ^ val.iters) ∧ NearlyReduced f := by
  obtain ⟨c, rep⟩ := genuine
  have eq := Form.fromAbd_eq_reduce (f := ⟨val.a, val.b, c⟩) rep.pos
  rw [rep.disc] at eq
  exact ⟨_, eq.trans rep.reduce, ReducedForm.represents _, nearlyReduced_of_reduced (ReducedForm.reduced _)⟩

theorem VdfValue.Genuine.mod {iters : ℕ} {a b b' : ℤ} (genuine : VdfValue.Genuine x ⟨iters, a, b⟩)
    (run : mpzMod b (2 * a) = .done b') : VdfValue.Genuine x ⟨iters, a, b'⟩ := by
  obtain ⟨c, rep⟩ := genuine
  have pos : 0 < a := rep.pos
  rw [mpzMod_done (by omega)] at run
  obtain rfl := Exec.done.inj run
  have moved : b % (2 * a) = b + 2 * a * -(b / (2 * a)) := by
    rw [Int.emod_def]
    ring
  have translated := rep.equivalent (equivalent_translate _ (-(b / (2 * a))))
  dsimp only at translated
  rw [← moved] at translated
  exact ⟨_, translated⟩

/-- A worker computes the iterates, and it stores at multiples of the interval only. -/
structure CalcValues.Right (x : ReducedForm d) (worker : CalcValues) : Prop where
  rep : Represents worker.f (x ^ 2 ^ worker.iters)
  nearly : NearlyReduced worker.f
  multiple : HW_VDF_VALUE_INTERVAL ∣ worker.nextIters
  here : worker.point ≠ .square → worker.iters = worker.nextIters

structure VdfWork.Right (x : ReducedForm d) (work : VdfWork) : Prop where
  genuine : work.startVal.Genuine x
  multiple : HW_VDF_VALUE_INTERVAL ∣ work.startIters

theorem CalcValues.Right.square (squares : arith.Squares x) {worker : CalcValues} (right : worker.Right x) :
    ∃ f, Represents f (x ^ 2 ^ (worker.iters + 1)) ∧ NearlyReduced f ∧ worker.square arith d.D d.L =
      .done (if worker.iters + 1 = worker.nextIters then
          .calcValues { worker with f := f, iters := worker.iters + 1, point := .store }
        else .again { worker with f := f, iters := worker.iters + 1 }) := by
  obtain ⟨g, f, squared, reduced, rep, nearly⟩ := squares right.rep right.nearly
  exact ⟨f, rep, nearly, by simp only [CalcValues.square, squared, reduced, Exec.done_bind, Exec.pure_eq]⟩

/-- From before a squaring a worker gets to every multiple between the next one and the last one. -/
theorem CalcValues.Right.marks (squares : arith.Squares x) (n : ℕ) {pos : ℕ} {worker : CalcValues}
    (right : worker.Right x) (point : worker.point = .square) (before : worker.iters < worker.nextIters)
    (low : worker.nextIters ≤ pos * HW_VDF_VALUE_INTERVAL)
    (high : pos * HW_VDF_VALUE_INTERVAL ≤ worker.endIters)
    (distance : pos * HW_VDF_VALUE_INTERVAL = worker.iters + n) :
    (AuxThread.calcValues worker).Marks arith d.D d.L pos := by
  induction n generalizing worker with
  | zero => omega
  | succ n ih =>
    obtain ⟨f, rep, nearly, run⟩ := right.square squares
    have next : (AuxThread.calcValues worker).next arith d.D d.L = worker.square arith d.D d.L := by
      simp only [AuxThread.next, point]
    refine .later (next.trans run) ?_
    by_cases arrived : worker.iters + 1 = worker.nextIters
    · rw [if_pos arrived]
      have stored : (AuxThread.calcValues { worker with f := f, iters := worker.iters + 1, point := .store }).next
          arith d.D d.L = .done (.calcValues { worker with f := f, iters := worker.iters + 1, point := .mark }) := by
        simp only [AuxThread.next, if_pos rep.disc]
      refine .later stored ?_
      by_cases same : worker.nextIters = pos * HW_VDF_VALUE_INTERVAL
      · have position : pos = (worker.iters + 1) / HW_VDF_VALUE_INTERVAL := by
          rw [arrived, same, Nat.mul_div_cancel _ (by decide)]
        rw [position]
        exact .now rfl
      · obtain ⟨k, multiple⟩ := right.multiple
        have later : worker.nextIters + HW_VDF_VALUE_INTERVAL ≤ pos * HW_VDF_VALUE_INTERVAL := by
          have := lt_of_le_of_ne low same
          simp only [HW_VDF_VALUE_INTERVAL] at this multiple ⊢
          omega
        refine .later rfl ?_
        dsimp only [AuxThread.again]
        rw [if_pos (by omega)]
        refine ih ⟨rep, nearly, ?_, fun other => (other rfl).elim⟩ rfl ?_ later high (by dsimp only; omega)
        · exact right.multiple.add (Nat.dvd_refl _)
        · dsimp only
          simp only [HW_VDF_VALUE_INTERVAL]
          omega
    · rw [if_neg arrived, AuxThread.again, if_pos (by dsimp only; omega)]
      exact ih ⟨rep, nearly, right.multiple, fun other => (other rfl).elim⟩ rfl (by dsimp only; omega) low high
        (by dsimp only; omega)

/-- A work item that was made for the multiples from `startIters` to `last` gets to all of them, if
they span fewer than 2 ^ 32 iterations. -/
theorem VdfWork.Right.marks (squares : arith.Squares x) {pos last : ℕ} {work : VdfWork}
    (right : work.Right x) (steps : work.nSteps = (last - work.startIters) / HW_VDF_VALUE_INTERVAL % 2 ^ 32)
    (multiple : HW_VDF_VALUE_INTERVAL ∣ last) (word : last < 2 ^ 64)
    (short : last < work.startIters + 2 ^ 32) (before : work.startVal.iters < work.startIters)
    (low : work.startIters ≤ pos * HW_VDF_VALUE_INTERVAL) (high : pos * HW_VDF_VALUE_INTERVAL ≤ last) :
    (AuxThread.start work).Marks arith d.D d.L pos := by
  obtain ⟨f, run, rep, nearly⟩ := right.genuine.fromAbd
  have whole : (work.startIters + HW_VDF_VALUE_INTERVAL * work.nSteps % 2 ^ 32) % 2 ^ 64 = last := by
    obtain ⟨k, start⟩ := right.multiple
    obtain ⟨l, stop⟩ := multiple
    have interval : HW_VDF_VALUE_INTERVAL = 4000 := rfl
    rw [interval] at start stop
    have span : last - work.startIters = 4000 * (l - k) := by omega
    have small : 4000 * (l - k) < 2 ^ 32 := by omega
    rw [steps, span, interval, Nat.mul_div_cancel_left _ (by norm_num), Nat.mod_eq_of_lt (show l - k < 2 ^ 32 by omega),
      Nat.mod_eq_of_lt small, Nat.mod_eq_of_lt (by omega)]
    omega
  have next : (AuxThread.start work).next arith d.D d.L =
      .done (.calcValues ⟨f, work.startVal.iters, work.startIters, last, .square⟩) := by
    simp only [AuxThread.next, VdfWork.begin, run, whole, Exec.done_bind, Exec.pure_eq]
  refine .later next (CalcValues.Right.marks squares (pos * HW_VDF_VALUE_INTERVAL - work.startVal.iters)
    ⟨rep, nearly, right.multiple, fun other => (other rfl).elim⟩ rfl before low high ?_)
  dsimp only
  omega

theorem not_marks_idle {D L : ℤ} {pos : ℕ} : ¬AuxThread.idle.Marks arith D L pos := by
  intro marks
  generalize same : AuxThread.idle = thread at marks
  induction marks with
  | now => cases same
  | later next _ ih =>
    subst same
    exact ih (Exec.done.inj next)

end Worker

namespace VdfState

variable {s t u : VdfState}

def Covered (arith : FormArith) (d : Discriminant) (vdf : VdfState) (pos : ℕ) : Prop :=
  vdf.validValues pos = true ∨ vdf.Pending arith d pos

section Invariant

/-- What a thread computes is right, and before it marks a position it has stored the form there. -/
def ThreadRight (x : ReducedForm d) (vdf : VdfState) : AuxThread → Prop
  | .idle => True
  | .computeProof => True
  | .start work => work.Right x
  | .calcValues worker => worker.Right x ∧
      (worker.point = .mark → vdf.Holds x (worker.iters / HW_VDF_VALUE_INTERVAL))

/-- What the phases of `hw_proof_add_value` rely on. -/
def LoopRight (arith : FormArith) (x : ReducedForm d) (vdf : VdfState) : EventLoop → Prop
  | .reading => True
  | .marking val => val.Genuine x ∧ val.iters < 2 ^ 64 ∧ vdf.ShortGap val.iters ∧
      vdf.Holds x (val.iters / HW_VDF_VALUE_INTERVAL)
  | .addingWork val => val.Genuine x ∧ val.iters < 2 ^ 64 ∧ vdf.ShortGap val.iters ∧
      (HW_VDF_VALUE_INTERVAL ∣ val.iters → vdf.validValues (val.iters / HW_VDF_VALUE_INTERVAL) = true)
  | .swapping val => val.Genuine x ∧
      ∀ pos, pos * HW_VDF_VALUE_INTERVAL ≤ val.iters → vdf.Covered arith d pos
  | .startingProofs => True
  | .startingWork busy i => ∀ j, i ≤ j → busy j = false → vdf.auxThreads j = .idle
  | .restarting => True

structure Collected (arith : FormArith) (x : ReducedForm d) (vdf : VdfState) : Prop where
  holds : ∀ pos, vdf.validValues pos = true → vdf.Holds x pos
  last : vdf.lastVal.Genuine x
  queue : ∀ work ∈ vdf.wq, work.Right x
  threads : ∀ i, vdf.ThreadRight x (vdf.auxThreads i)
  covered : ∀ pos, pos * HW_VDF_VALUE_INTERVAL ≤ vdf.lastVal.iters → vdf.Covered arith d pos
  phase : vdf.LoopRight arith x vdf.eventLoop

theorem ThreadRight.mono (grows : ∀ pos, s.Holds x pos → t.Holds x pos) {thread : AuxThread}
    (right : s.ThreadRight x thread) : t.ThreadRight x thread := by
  cases thread with
  | idle => trivial
  | computeProof => trivial
  | start work => exact right
  | calcValues worker => exact ⟨right.1, fun mark => grows _ (right.2 mark)⟩

theorem Pending.congr (queue : t.wq = s.wq) (threads : t.auxThreads = s.auxThreads) {pos : ℕ}
    (pending : s.Pending arith d pos) : t.Pending arith d pos := by
  rw [Pending, queue, threads]
  exact pending

theorem holds_setValue_self {f : Form} {pos : ℕ} (rep : Represents f (x ^ 2 ^ (pos * HW_VDF_VALUE_INTERVAL))) :
    (s.setValue pos f).Holds x pos :=
  ⟨f, Function.update_self .., rep⟩

theorem holds_setValue {f : Form} {pos : ℕ} (rep : Represents f (x ^ 2 ^ (pos * HW_VDF_VALUE_INTERVAL)))
    {other : ℕ} (holds : s.Holds x other) : (s.setValue pos f).Holds x other := by
  by_cases same : other = pos
  · subst same
    exact holds_setValue_self rep
  · obtain ⟨g, value, right⟩ := holds
    exact ⟨g, (Function.update_of_ne same ..).trans value, right⟩

@[simp] theorem setAuxThread_self (s : VdfState) (i : ℕ) (thread : AuxThread) :
    (s.setAuxThread i thread).auxThreads i = thread := Function.update_self ..

theorem setAuxThread_of_ne {i j : ℕ} (ne : j ≠ i) (thread : AuxThread) :
    (s.setAuxThread i thread).auxThreads j = s.auxThreads j := Function.update_of_ne ne ..

theorem idle_of_free {i : ℕ} (free : s.auxThreadsBusy i = false) : s.auxThreads i = .idle := by
  unfold auxThreadsBusy at free
  split at free
  · assumption
  · simp at free

theorem addIntermediate_done {pos : ℕ} (run : s.addIntermediate pos = .done t) :
    t = { s with
      validValues := Function.update s.validValues pos true
      doneValues := s.doneValues + 1 } := by
  unfold addIntermediate at run
  split at run
  · exact (Exec.done.inj run).symm
  · simp at run

theorem update_true {valid : ℕ → Bool} {pos other : ℕ} :
    Function.update valid pos true other = true ↔ other = pos ∨ valid other = true := by
  by_cases same : other = pos
  · simp [same]
  · simp [same]

end Invariant

section Aux

variable {thread thread' : AuxThread}

theorem auxStep_cases {D L : ℤ} {i : ℕ} (run : s.auxStep arith D L i = .done t) :
    ∃ thread u, (s.auxThreads i).next arith D L = .done thread ∧
      s.auxWrite (s.auxThreads i) = .done u ∧ t = u.setAuxThread i thread := by
  obtain ⟨thread, next, run⟩ := Exec.bind_eq_done.mp run
  obtain ⟨u, write, last⟩ := Exec.bind_eq_done.mp run
  exact ⟨thread, u, next, write, (Exec.done.inj last).symm⟩

/-- A thread writes nothing, or stores the form at its position, or marks that. -/
theorem auxWrite_cases (write : s.auxWrite thread = .done u) :
    (u = s ∧ ∀ worker, thread = .calcValues worker → worker.point = .square) ∨
    ∃ worker, thread = .calcValues worker ∧
      (worker.point = .store ∧ u = s.setValue (worker.iters / HW_VDF_VALUE_INTERVAL) worker.f ∨
      worker.point = .mark ∧ u = { s with
        validValues := Function.update s.validValues (worker.iters / HW_VDF_VALUE_INTERVAL) true
        doneValues := s.doneValues + 1 }) := by
  cases thread with
  | calcValues worker =>
    cases point : worker.point with
    | square =>
      simp only [auxWrite, point] at write
      refine .inl ⟨(Exec.done.inj write).symm, fun other same => ?_⟩
      obtain rfl := AuxThread.calcValues.inj same
      exact point
    | store =>
      simp only [auxWrite, point] at write
      exact .inr ⟨worker, rfl, .inl ⟨point, (Exec.done.inj write).symm⟩⟩
    | mark =>
      simp only [auxWrite, point] at write
      exact .inr ⟨worker, rfl, .inr ⟨point, addIntermediate_done write⟩⟩
  | _ => exact .inl ⟨(Exec.done.inj write).symm, by simp⟩

theorem auxWrite_frame (write : s.auxWrite thread = .done u) : u.wq = s.wq ∧ u.auxThreads = s.auxThreads ∧
    u.lastVal = s.lastVal ∧ u.eventLoop = s.eventLoop := by
  rcases auxWrite_cases write with ⟨rfl, -⟩ | ⟨worker, -, ⟨-, rfl⟩ | ⟨-, rfl⟩⟩ <;> exact ⟨rfl, rfl, rfl, rfl⟩

theorem CalcValues.Right.position {worker : CalcValues} (right : worker.Right x) (point : worker.point ≠ .square) :
    Represents worker.f (x ^ 2 ^ (worker.iters / HW_VDF_VALUE_INTERVAL * HW_VDF_VALUE_INTERVAL)) := by
  have multiple := right.multiple
  rw [← right.here point] at multiple
  rw [Nat.div_mul_cancel multiple]
  exact right.rep

theorem auxWrite_holds (right : s.ThreadRight x thread) (write : s.auxWrite thread = .done u) {pos : ℕ}
    (holds : s.Holds x pos) : u.Holds x pos := by
  rcases auxWrite_cases write with ⟨rfl, -⟩ | ⟨worker, rfl, ⟨point, rfl⟩ | ⟨-, rfl⟩⟩
  · exact holds
  · exact holds_setValue (CalcValues.Right.position right.1 (by simp [point])) holds
  · exact holds

theorem auxWrite_valid (write : s.auxWrite thread = .done u) {pos : ℕ} (valid : s.validValues pos = true) :
    u.validValues pos = true := by
  rcases auxWrite_cases write with ⟨rfl, -⟩ | ⟨worker, -, ⟨-, rfl⟩ | ⟨-, rfl⟩⟩
  · exact valid
  · exact valid
  · exact update_true.mpr (.inr valid)

theorem auxWrite_right (holds : ∀ pos, s.validValues pos = true → s.Holds x pos)
    (right : s.ThreadRight x thread) (write : s.auxWrite thread = .done u) {pos : ℕ}
    (valid : u.validValues pos = true) : u.Holds x pos := by
  rcases auxWrite_cases write with ⟨rfl, -⟩ | ⟨worker, rfl, ⟨point, rfl⟩ | ⟨point, rfl⟩⟩
  · exact holds pos valid
  · exact holds_setValue (CalcValues.Right.position right.1 (by simp [point])) (holds pos valid)
  · rcases update_true.mp valid with rfl | old
    · exact right.2 point
    · exact holds pos old

theorem again_right {worker : CalcValues} (rep : Represents worker.f (x ^ 2 ^ worker.iters))
    (nearly : NearlyReduced worker.f) (multiple : HW_VDF_VALUE_INTERVAL ∣ worker.nextIters) :
    s.ThreadRight x (.again worker) := by
  by_cases more : worker.iters < worker.endIters
  · rw [AuxThread.again, if_pos more]
    exact ⟨⟨rep, nearly, multiple, fun other => (other rfl).elim⟩, by simp⟩
  · rw [AuxThread.again, if_neg more]
    trivial

theorem next_right (squares : arith.Squares x) (right : s.ThreadRight x thread)
    (next : thread.next arith d.D d.L = .done thread') (write : s.auxWrite thread = .done u) :
    u.ThreadRight x thread' := by
  cases thread with
  | idle =>
    obtain rfl := Exec.done.inj next
    trivial
  | computeProof =>
    obtain rfl := Exec.done.inj next
    trivial
  | start work =>
    obtain ⟨worker, begun, last⟩ := Exec.bind_eq_done.mp next
    obtain rfl := Exec.done.inj last
    obtain ⟨f, run, rep, nearly⟩ := right.genuine.fromAbd
    rw [VdfWork.begin, run] at begun
    obtain rfl := Exec.done.inj begun
    exact ⟨⟨rep, nearly, right.multiple, fun other => (other rfl).elim⟩, by simp⟩
  | calcValues worker =>
    cases point : worker.point with
    | square =>
      obtain ⟨f, rep, nearly, run⟩ := right.1.square squares
      simp only [AuxThread.next, point, run] at next
      obtain rfl := Exec.done.inj next
      by_cases arrived : worker.iters + 1 = worker.nextIters
      · rw [if_pos arrived]
        exact ⟨⟨rep, nearly, right.1.multiple, fun _ => arrived⟩, by simp⟩
      · rw [if_neg arrived]
        exact again_right rep nearly right.1.multiple
    | store =>
      simp only [AuxThread.next, point, if_pos right.1.rep.disc] at next
      obtain rfl := Exec.done.inj next
      simp only [auxWrite, point] at write
      obtain rfl := Exec.done.inj write
      exact ⟨⟨right.1.rep, right.1.nearly, right.1.multiple, fun _ => right.1.here (by simp [point])⟩, fun _ =>
        holds_setValue_self (CalcValues.Right.position right.1 (by simp [point]))⟩
    | mark =>
      simp only [AuxThread.next, point] at next
      obtain rfl := Exec.done.inj next
      exact again_right right.1.rep right.1.nearly (right.1.multiple.add (Nat.dvd_refl _))

/-- A step of a thread brings it closer to each position that it will mark, or marks that. -/
theorem marks_next {D L : ℤ} (next : thread.next arith D L = .done thread')
    (write : s.auxWrite thread = .done u) {pos : ℕ} (marks : thread.Marks arith D L pos) :
    u.validValues pos = true ∨ thread'.Marks arith D L pos := by
  cases marks with
  | now point =>
    simp only [auxWrite, point] at write
    rw [addIntermediate_done write]
    exact .inl (update_true.mpr (.inl rfl))
  | later other marks =>
    obtain rfl := Exec.done.inj (next.symm.trans other)
    exact .inr marks

end Aux

section Steps

theorem LoopRight.mono {phase : EventLoop} (right : s.LoopRight arith x phase) (last : t.lastVal = s.lastVal)
    (holds : ∀ pos, s.Holds x pos → t.Holds x pos)
    (valid : ∀ pos, s.validValues pos = true → t.validValues pos = true)
    (covered : ∀ pos, s.Covered arith d pos → t.Covered arith d pos)
    (idle : ∀ i, s.auxThreads i = .idle → t.auxThreads i = .idle) : t.LoopRight arith x phase := by
  have gap {iters : ℕ} (short : s.ShortGap iters) : t.ShortGap iters := by
    rw [ShortGap, startIters, last]
    exact short
  cases phase with
  | marking val =>
    obtain ⟨genuine, word, short, stored⟩ := right
    exact ⟨genuine, word, gap short, holds _ stored⟩
  | addingWork val =>
    obtain ⟨genuine, word, short, marked⟩ := right
    exact ⟨genuine, word, gap short, fun multiple => valid _ (marked multiple)⟩
  | swapping val => exact ⟨right.1, fun pos le => covered _ (right.2 pos le)⟩
  | startingWork busy i => exact fun j le free => idle j (right j le free)
  | _ => trivial

theorem Collected.aux (squares : arith.Squares x) (collected : s.Collected arith x) {i : ℕ}
    (run : s.auxStep arith d.D d.L i = .done t) : t.Collected arith x := by
  obtain ⟨thread, u, next, write, rfl⟩ := auxStep_cases run
  obtain ⟨queue, threads, last, phase⟩ := auxWrite_frame write
  have right := collected.threads i
  have holds : ∀ pos, s.Holds x pos → (u.setAuxThread i thread).Holds x pos :=
    fun pos stored => auxWrite_holds right write stored
  have valid : ∀ pos, s.validValues pos = true → (u.setAuxThread i thread).validValues pos = true :=
    fun pos marked => auxWrite_valid write marked
  have covered : ∀ pos, s.Covered arith d pos → (u.setAuxThread i thread).Covered arith d pos := by
    intro pos cover
    rcases cover with marked | ⟨work, member, marks⟩ | ⟨j, marks⟩
    · exact .inl (valid pos marked)
    · exact .inr (.inl ⟨work, queue ▸ member, marks⟩)
    · by_cases same : j = i
      · subst same
        rcases marks_next next write marks with marked | marks'
        · exact .inl marked
        · exact .inr (.inr ⟨j, by rwa [setAuxThread_self]⟩)
      · exact .inr (.inr ⟨j, by rwa [setAuxThread_of_ne same, threads]⟩)
  exact {
    holds := fun pos marked => auxWrite_right collected.holds right write marked
    last := last ▸ collected.last
    queue := fun work member => collected.queue work (queue ▸ member)
    threads := by
      intro j
      by_cases same : j = i
      · subst same
        rw [setAuxThread_self]
        exact (next_right squares right next write).mono fun _ stored => stored
      · rw [setAuxThread_of_ne same, threads]
        exact (collected.threads j).mono holds
    covered := fun pos le => covered pos (collected.covered pos (last ▸ le))
    phase := by
      refine phase ▸ collected.phase.mono last holds valid covered fun j idle => ?_
      · by_cases same : j = i
        · subst same
          rw [idle] at next
          rw [setAuxThread_self]
          exact (Exec.done.inj next).symm
        · rwa [setAuxThread_of_ne same, threads] }

theorem Collected.congr (collected : s.Collected arith x) (last : t.lastVal = s.lastVal)
    (values : t.values = s.values) (valid : t.validValues = s.validValues) (queue : t.wq = s.wq)
    (threads : t.auxThreads = s.auxThreads) (phase : t.LoopRight arith x t.eventLoop) :
    t.Collected arith x := by
  have holds : ∀ pos, s.Holds x pos → t.Holds x pos := by
    intro pos stored
    rwa [Holds, values]
  exact {
    holds := fun pos marked => holds pos (collected.holds pos (valid ▸ marked))
    last := last ▸ collected.last
    queue := fun work member => collected.queue work (queue ▸ member)
    threads := fun i => threads ▸ (collected.threads i).mono holds
    covered := by
      intro pos le
      rcases collected.covered pos (last ▸ le) with marked | pending
      · exact .inl (by rwa [valid])
      · exact .inr (pending.congr queue threads)
    phase := phase }

theorem Collected.startProof (collected : s.Collected arith x) {i : ℕ} (phase : s.eventLoop = .startingProofs)
    (free : s.auxThreadsBusy i = false) : (s.setAuxThread i .computeProof).Collected arith x where
  holds := collected.holds
  last := collected.last
  queue := collected.queue
  threads := by
    intro j
    by_cases same : j = i
    · subst same
      rw [setAuxThread_self]
      trivial
    · rw [setAuxThread_of_ne same]
      exact (collected.threads j).mono fun _ stored => stored
  covered := by
    intro pos le
    rcases collected.covered pos le with marked | queued | ⟨j, marks⟩
    · exact .inl marked
    · exact .inr (.inl queued)
    · refine .inr (.inr ⟨j, ?_⟩)
      by_cases same : j = i
      · subst same
        rw [idle_of_free free] at marks
        exact (not_marks_idle marks).elim
      · rwa [setAuxThread_of_ne same]
  phase := by
    change LoopRight arith x _ s.eventLoop
    rw [phase]
    trivial

theorem Collected.startWork (collected : s.Collected arith x) {busy : ℕ → Bool} {i : ℕ}
    (phase : s.eventLoop = .startingWork busy i) : (s.startWork busy i).Collected arith x := by
  have idle := collected.phase
  rw [phase] at idle
  unfold VdfState.startWork
  split_ifs with bound taken
  · exact collected.congr rfl rfl rfl rfl rfl fun j le free => idle j (by omega) free
  · cases queue : s.wq with
    | nil => exact collected.congr rfl rfl rfl queue.symm rfl trivial
    | cons work wq =>
      have free : s.auxThreads i = .idle := idle i le_rfl (by simpa using taken)
      exact {
        holds := collected.holds
        last := collected.last
        queue := fun other member => collected.queue other (queue ▸ List.mem_cons_of_mem _ member)
        threads := by
          intro j
          by_cases same : j = i
          · subst same
            have right := collected.queue work (queue ▸ List.mem_cons_self ..)
            dsimp only
            rw [setAuxThread_self]
            exact right
          · dsimp only
            rw [setAuxThread_of_ne same]
            exact (collected.threads j).mono fun _ stored => stored
        covered := by
          intro pos le
          rcases collected.covered pos le with marked | ⟨other, member, marks⟩ | ⟨j, marks⟩
          · exact .inl marked
          · rw [queue] at member
            rcases List.mem_cons.mp member with rfl | later
            · refine .inr (.inr ⟨i, ?_⟩)
              dsimp only
              rwa [setAuxThread_self]
            · exact .inr (.inl ⟨other, later, marks⟩)
          · refine .inr (.inr ⟨j, ?_⟩)
            by_cases same : j = i
            · subst same
              rw [free] at marks
              exact (not_marks_idle marks).elim
            · dsimp only
              rwa [setAuxThread_of_ne same]
        phase := by
          intro j le free
          dsimp only
          rw [setAuxThread_of_ne (by omega)]
          exact idle j (by omega) free }
  · exact collected.congr rfl rfl rfl rfl rfl trivial

theorem mul_le_endIters {iters pos : ℕ} (positive : 0 < pos) (le : pos * HW_VDF_VALUE_INTERVAL ≤ iters)
    (ne : pos * HW_VDF_VALUE_INTERVAL ≠ iters) : pos * HW_VDF_VALUE_INTERVAL ≤ endIters iters := by
  have interval : HW_VDF_VALUE_INTERVAL = 4000 := rfl
  simp only [endIters]
  rw [interval] at le ne ⊢
  split_ifs <;> omega

theorem dvd_endIters (iters : ℕ) : HW_VDF_VALUE_INTERVAL ∣ endIters iters := by
  simp only [endIters]
  split_ifs
  · exact Nat.dvd_sub (Nat.dvd_mul_left _ _) (Nat.dvd_refl _)
  · exact Nat.dvd_mul_left _ _

theorem endIters_le (iters : ℕ) : endIters iters ≤ iters := by
  have le := Nat.div_mul_le_self iters HW_VDF_VALUE_INTERVAL
  simp only [endIters]
  split_ifs <;> omega

/-- The work that is queued for a value closes the gap between the last value and this one. -/
theorem Collected.addWork (squares : arith.Squares x) (collected : s.Collected arith x) {val : VdfValue}
    (phase : s.eventLoop = .addingWork val) (run : s.addWork val = .done t) : t.Collected arith x := by
  have right := collected.phase
  rw [phase] at right
  obtain ⟨genuine, word, short, marked⟩ := right
  have interval : HW_VDF_VALUE_INTERVAL = 4000 := rfl
  have start : s.startIters = s.lastVal.iters / HW_VDF_VALUE_INTERVAL * HW_VDF_VALUE_INTERVAL +
      HW_VDF_VALUE_INTERVAL := rfl
  -- what is not known yet lies behind the last value and before the new one
  have missing {pos : ℕ} (le : pos * HW_VDF_VALUE_INTERVAL ≤ val.iters) :
      s.Covered arith d pos ∨ s.startIters ≤ pos * HW_VDF_VALUE_INTERVAL ∧
        pos * HW_VDF_VALUE_INTERVAL ≤ endIters val.iters := by
    by_cases old : pos * HW_VDF_VALUE_INTERVAL ≤ s.lastVal.iters
    · exact .inl (collected.covered pos old)
    · by_cases here : pos * HW_VDF_VALUE_INTERVAL = val.iters
      · have valid := marked ⟨pos, by rw [← here, Nat.mul_comm]⟩
        rw [← here, Nat.mul_div_cancel _ (by decide)] at valid
        exact .inl (.inl valid)
      · have positive : 0 < pos := by
          rcases Nat.eq_zero_or_pos pos with rfl | positive
          · omega
          · exact positive
        refine .inr ⟨?_, mul_le_endIters positive le here⟩
        rw [interval] at old start ⊢
        omega
  unfold VdfState.addWork at run
  split at run
  · next gap =>
    split at run
    · simp at run
    · obtain rfl := Exec.done.inj run
      have work : VdfWork.Right x ⟨s.lastVal, s.startIters,
          (endIters val.iters - s.startIters) / HW_VDF_VALUE_INTERVAL % 2 ^ 32⟩ :=
        ⟨collected.last, (Nat.dvd_mul_left _ _).add (Nat.dvd_refl _)⟩
      have before : s.lastVal.iters < s.startIters := by
        rw [interval] at start
        omega
      have grows {pos : ℕ} (cover : s.Covered arith d pos) : VdfState.Covered arith d { s with
          wq := s.wq ++ [⟨s.lastVal, s.startIters,
            (endIters val.iters - s.startIters) / HW_VDF_VALUE_INTERVAL % 2 ^ 32⟩]
          eventLoop := .swapping val } pos := by
        rcases cover with valid | ⟨other, member, marks⟩ | running
        · exact .inl valid
        · exact .inr (.inl ⟨other, List.mem_append_left _ member, marks⟩)
        · exact .inr (.inr running)
      exact {
        holds := collected.holds
        last := collected.last
        queue := by
          intro other member
          rcases List.mem_append.mp member with old | new
          · exact collected.queue other old
          · obtain rfl := List.mem_singleton.mp new
            exact work
        threads := fun i => (collected.threads i).mono fun _ stored => stored
        covered := fun pos le => grows (collected.covered pos le)
        phase := by
          refine ⟨genuine, fun pos le => ?_⟩
          rcases missing le with cover | ⟨low, high⟩
          · exact grows cover
          · have marks := work.marks squares rfl (dvd_endIters _)
              ((endIters_le _).trans_lt word) short before low high
            exact .inr (.inl ⟨_, List.mem_append_right _ (List.mem_singleton.mpr rfl), marks⟩) }
  · next noGap =>
    obtain rfl := Exec.done.inj run
    refine collected.congr rfl rfl rfl rfl rfl ⟨genuine, fun pos le => ?_⟩
    rcases missing le with cover | ⟨low, high⟩
    · exact cover
    · refine absurd ⟨?_, low.trans high⟩ noGap
      have positive : 0 < s.startIters := by
        rw [interval] at start
        omega
      omega

theorem Collected.marking (collected : s.Collected arith x) {val : VdfValue}
    (phase : s.eventLoop = .marking val)
    (run : s.addIntermediate (val.iters / HW_VDF_VALUE_INTERVAL) = .done t) :
    Collected arith x { t with eventLoop := .addingWork val } := by
  have right := collected.phase
  rw [phase] at right
  obtain ⟨genuine, word, short, stored⟩ := right
  obtain rfl := addIntermediate_done run
  exact {
    holds := by
      intro pos valid
      rcases update_true.mp valid with rfl | old
      · exact stored
      · exact collected.holds pos old
    last := collected.last
    queue := collected.queue
    threads := fun i => (collected.threads i).mono fun _ stored => stored
    covered := by
      intro pos le
      rcases collected.covered pos le with valid | pending
      · exact .inl (update_true.mpr (.inr valid))
      · exact .inr pending
    phase := ⟨genuine, word, short, fun _ => update_true.mpr (.inl rfl)⟩ }

theorem Collected.swapValue (collected : s.Collected arith x) {val : VdfValue}
    (phase : s.eventLoop = .swapping val) : (s.swapValue val).Collected arith x := by
  have right := collected.phase
  rw [phase] at right
  exact {
    holds := collected.holds
    last := right.1
    queue := collected.queue
    threads := fun i => (collected.threads i).mono fun _ stored => stored
    covered := fun pos le => right.2 pos le
    phase := trivial }

theorem Collected.loopStep (squares : arith.Squares x) (collected : s.Collected arith x)
    (run : s.loopStep = .done t) : t.Collected arith x := by
  unfold VdfState.loopStep at run
  cases phase : s.eventLoop with
  | reading =>
    rw [phase] at run
    obtain rfl := Exec.done.inj run
    exact collected
  | marking val =>
    rw [phase] at run
    obtain ⟨u, marked, last⟩ := Exec.bind_eq_done.mp run
    obtain rfl := Exec.done.inj last
    exact collected.marking phase marked
  | addingWork val =>
    rw [phase] at run
    exact collected.addWork squares phase run
  | swapping val =>
    rw [phase] at run
    obtain rfl := Exec.done.inj run
    exact collected.swapValue phase
  | startingProofs =>
    rw [phase] at run
    obtain rfl := Exec.done.inj run
    exact collected.congr rfl rfl rfl rfl rfl fun j _ free => idle_of_free free
  | startingWork busy i =>
    rw [phase] at run
    obtain rfl := Exec.done.inj run
    exact collected.startWork phase
  | restarting =>
    rw [phase] at run
    obtain ⟨pos, -, last⟩ := Exec.bind_eq_done.mp run
    obtain rfl := Exec.done.inj last
    exact collected.congr rfl rfl rfl rfl rfl trivial

theorem Collected.handleValue (collected : s.Collected arith x) {val : VdfValue} (genuine : val.Genuine x)
    (word : val.iters < 2 ^ 64) (short : s.ShortGap val.iters) (run : s.handleValue d.D val = .done t) :
    t.Collected arith x := by
  unfold VdfState.handleValue at run
  split at run
  · next multiple =>
    obtain ⟨f, form, last⟩ := Exec.bind_eq_done.mp run
    obtain rfl := Exec.done.inj last
    obtain ⟨g, formed, rep, -⟩ := genuine.fromAbd
    obtain rfl := Exec.done.inj (form.symm.trans formed)
    have rep' : Represents f
        (x ^ 2 ^ (val.iters / HW_VDF_VALUE_INTERVAL * HW_VDF_VALUE_INTERVAL)) := multiple ▸ rep
    exact {
      holds := fun pos valid => holds_setValue rep' (collected.holds pos valid)
      last := collected.last
      queue := collected.queue
      threads := fun i => (collected.threads i).mono fun _ stored => holds_setValue rep' stored
      covered := fun pos le => collected.covered pos le
      phase := ⟨genuine, word, short, holds_setValue_self rep'⟩ }
  · next between =>
    obtain rfl := Exec.done.inj run
    exact collected.congr rfl rfl rfl rfl rfl
      ⟨genuine, word, short, fun multiple => absurd (Nat.div_mul_cancel multiple).symm between⟩

theorem Collected.addValue (collected : s.Collected arith x) {val : VdfValue}
    (phase : s.eventLoop = .reading) (delivers : s.Delivers x val)
    (short : s.ShortGap (s.totalIters val)) (run : s.addValue d.D val = .done t) : t.Collected arith x := by
  unfold VdfState.addValue at run
  dsimp only at run
  split at run
  · split at run
    · obtain rfl := Exec.done.inj run
      exact collected.congr rfl rfl rfl rfl rfl trivial
    · obtain rfl := Exec.done.inj run
      refine collected.congr rfl rfl rfl rfl rfl ?_
      change LoopRight arith x _ s.eventLoop
      rw [phase]
      trivial
  · split at run
    · obtain rfl := Exec.done.inj run
      exact collected.congr rfl rfl rfl rfl rfl trivial
    · obtain ⟨b, reduced, run⟩ := Exec.bind_eq_done.mp run
      split at run
      · next verified =>
        obtain ⟨-, genuine⟩ := delivers b reduced verified
        have skipped : Collected arith x { s with nSkipped := 0 } := by
          refine collected.congr rfl rfl rfl rfl rfl ?_
          change LoopRight arith x _ s.eventLoop
          rw [phase]
          trivial
        exact skipped.handleValue (genuine.mod reduced) (Nat.mod_lt _ (by norm_num)) short run
      · obtain rfl := Exec.done.inj run
        exact collected.congr rfl rfl rfl rfl rfl trivial

theorem Collected.init {nIters maxAuxThreads : ℕ} {a b : ℤ} (genuine : VdfValue.Genuine x ⟨0, a, b⟩)
    (run : initVdfState d.D nIters maxAuxThreads a b = .done s) : s.Collected arith x := by
  obtain ⟨f, form, last⟩ := Exec.bind_eq_done.mp run
  obtain rfl := Exec.done.inj last
  obtain ⟨g, formed, rep, -⟩ := genuine.fromAbd
  obtain rfl := Exec.done.inj (form.symm.trans formed)
  exact {
    holds := by
      intro pos valid
      change Function.update (fun _ => false) 0 true pos = true at valid
      rcases update_true.mp valid with rfl | other
      · exact ⟨f, rfl, by simpa using rep⟩
      · simp at other
    last := genuine
    queue := by simp
    threads := fun _ => trivial
    covered := by
      intro pos le
      have zero : pos = 0 := by
        simp only [HW_VDF_VALUE_INTERVAL] at le
        omega
      rw [zero]
      exact .inl rfl
    phase := trivial }

theorem Reachable.collected (squares : arith.Squares x)
    (reachable : Reachable arith x (fun s val => s.ShortGap (s.totalIters val)) s) :
    s.Collected arith x := by
  induction reachable with
  | init genuine run => exact .init genuine run
  | @step s t event _ delivers run ih =>
    cases event with
    | value val =>
      cases phase : s.eventLoop with
      | reading =>
        simp only [VdfState.step, phase] at run
        obtain ⟨deliver, short⟩ := delivers val rfl
        exact ih.addValue phase deliver short run
      | _ =>
        simp only [VdfState.step, phase] at run
        obtain rfl := Exec.done.inj run
        exact ih
    | loop => exact ih.loopStep squares run
    | startProof i =>
      cases phase : s.eventLoop with
      | startingProofs =>
        simp only [VdfState.step, phase] at run
        obtain rfl := Exec.done.inj run
        split_ifs with busy
        · exact ih
        · exact ih.startProof phase (by simpa using busy)
      | _ =>
        simp only [VdfState.step, phase] at run
        obtain rfl := Exec.done.inj run
        exact ih
    | aux i => exact ih.aux squares run

end Steps

section Coverage

/-- Where squaring comes back and no gap between two values spans 2 ^ 32 iterations or more, every multiple of the
interval up to the last value is there or will be, and no position is marked before it holds the right form. -/
theorem intervals_covered {x : ReducedForm d} (returns : SquaresReturn x) : ∃ enough, ∀ turns ≥ enough, ∀ s : VdfState,
    Reachable (.inPlace turns) x (fun s val => s.ShortGap (s.totalIters val)) s →
      (∀ pos, pos * HW_VDF_VALUE_INTERVAL ≤ s.lastVal.iters →
        s.validValues pos = true ∧ s.Holds x pos ∨ s.Pending (.inPlace turns) d pos) ∧
      ∀ pos, s.validValues pos = true → s.Holds x pos := by
  obtain ⟨enough, squares⟩ := returns.squares
  refine ⟨enough, fun turns le s reachable => ?_⟩
  have collected := reachable.collected (squares turns le)
  refine ⟨fun pos below => ?_, collected.holds⟩
  rcases collected.covered pos below with valid | pending
  · exact .inl ⟨valid, collected.holds pos valid⟩
  · exact .inr pending

theorem squaresReturn_23 (x : ReducedForm ⟨23, by norm_num, rfl⟩) : SquaresReturn x := by
  have root : Discriminant.L ⟨23, by norm_num, rfl⟩ = 2 := by
    have outer : Nat.sqrt 23 = 4 := by norm_num
    have inner : Nat.sqrt 4 = 2 := by norm_num
    rw [Discriminant.L, outer, inner]
    rfl
  have each : ∀ f ∈ [(⟨1, 1, 6⟩ : Form), ⟨1, -1, 6⟩, ⟨2, 1, 3⟩, ⟨2, -1, 3⟩],
      ∃ g, ((FormArith.inPlace 2).nudupl f (-23) 2 >>= Reducer.run 2) = .done g := by
    simp only [List.forall_mem_cons, List.not_mem_nil, false_implies, implies_true, and_true]
    exact ⟨⟨⟨1, 1, 6⟩, by decide +kernel⟩, ⟨⟨1, -1, 6⟩, by decide +kernel⟩, ⟨⟨2, -1, 3⟩, by decide +kernel⟩,
      ⟨⟨2, 1, 3⟩, by decide +kernel⟩⟩
  rintro n ⟨a, b, c⟩ rep ⟨small, ordered⟩
  obtain ⟨pos, disc, -⟩ := rep
  rw [root]
  refine ⟨2, each _ ?_⟩
  change b ^ 2 - 4 * a * c = -23 at disc
  dsimp only at pos small ordered
  obtain ⟨low, high⟩ := abs_le.mp small
  have sides : (a = 1 ∨ a = 2) ∧ (b = -2 ∨ b = -1 ∨ b = 0 ∨ b = 1 ∨ b = 2) := by
    have two : a ≤ 2 := by nlinarith
    omega
  rcases sides with ⟨rfl | rfl, rfl | rfl | rfl | rfl | rfl⟩
  · omega
  · obtain rfl : c = 6 := by omega
    simp
  · omega
  · obtain rfl : c = 6 := by omega
    simp
  · omega
  · omega
  · obtain rfl : c = 3 := by omega
    simp
  · omega
  · obtain rfl : c = 3 := by omega
    simp
  · omega

/-- In the class group of discriminant -23, which has three elements, an even number of squarings
leaves every class where it was. -/
theorem pow_two_pow_23 {x : ReducedForm ⟨23, by norm_num, rfl⟩} (start : x.form = ⟨2, 1, 3⟩) (k : ℕ) :
    x ^ 2 ^ (2 * k) = x := by
  have squared : (x * x).form = ⟨2, -1, 3⟩ := by
    have run := x.represents.multiply x.represents
    have value : Form.multiply ⟨2, 1, 3⟩ ⟨2, 1, 3⟩ = .done ⟨2, -1, 3⟩ := by decide +kernel
    rw [start] at run
    exact Exec.done.inj (run.symm.trans value)
  have fourth : x * x * (x * x) = x := by
    have run := (x * x).represents.multiply (x * x).represents
    have value : Form.multiply ⟨2, -1, 3⟩ ⟨2, -1, 3⟩ = .done ⟨2, 1, 3⟩ := by decide +kernel
    rw [squared] at run
    exact ReducedForm.ext ((Exec.done.inj (run.symm.trans value)).trans start.symm)
  induction k with
  | zero => simp
  | succ k ih =>
    have split : 2 * (k + 1) = 2 * k + 1 + 1 := by ring
    calc x ^ 2 ^ (2 * (k + 1)) = ((x ^ 2 ^ (2 * k)) ^ 2) ^ 2 := by rw [split, pow_succ, pow_succ, pow_mul, pow_mul]
      _ = x * x * (x * x) := by rw [ih, pow_two, pow_two]
      _ = x := fourth

theorem genuine_23 {x : ReducedForm ⟨23, by norm_num, rfl⟩} (start : x.form = ⟨2, 1, 3⟩) (k : ℕ) :
    VdfValue.Genuine x ⟨2 * k, 2, 1⟩ := by
  refine ⟨3, ?_⟩
  dsimp only
  rw [pow_two_pow_23 start, ← start]
  exact x.represents

theorem Reachable.loop {Fits : VdfState → VdfValue → Prop} (reachable : Reachable arith x Fits s)
    (run : s.step arith d.D d.L .loop = .done t) : Reachable arith x Fits t :=
  reachable.step (fun val absurd => by cases absurd) run

/-- A value between two multiples of the interval asks for work up to the one before it. -/
theorem Reachable.gap {Fits : VdfState → VdfValue → Prop} (reachable : Reachable arith x Fits s)
    (phase : s.eventLoop = .reading) (val : VdfValue) (b : ℤ) (delivers : s.Delivers x val) (fits : Fits s val)
    (newer : s.itersOffset < s.totalIters val) (other : s.totalIters val ≠ s.lastVal.iters)
    (nonzero : val.a ≠ 0) (reduced : mpzMod val.b (2 * val.a) = .done b)
    (verified : verifyVdfValue d.D ⟨s.totalIters val, val.a, b⟩ = true)
    (between : s.totalIters val % HW_VDF_VALUE_INTERVAL ≠ 0)
    (large : s.startIters ≤ endIters (s.totalIters val)) (inside : s.startIters ≤ s.targetIters) :
    ∃ t, Reachable arith x Fits t ∧ t.lastVal = ⟨s.totalIters val, val.a, b⟩ ∧
      t.wq = s.wq ++ [⟨s.lastVal, s.startIters,
        (endIters (s.totalIters val) - s.startIters) / HW_VDF_VALUE_INTERVAL % 2 ^ 32⟩] ∧
      t.auxThreads = s.auxThreads ∧ t.validValues = s.validValues := by
  have apart : ¬s.totalIters val = s.totalIters val / HW_VDF_VALUE_INTERVAL * HW_VDF_VALUE_INTERVAL := by
    have split := Nat.div_add_mod' (s.totalIters val) HW_VDF_VALUE_INTERVAL
    omega
  have positive : s.startIters ≠ 0 := by
    have interval : HW_VDF_VALUE_INTERVAL = 4000 := rfl
    rw [startIters, interval]
    omega
  have stale : ¬(s.totalIters val = s.itersOffset ∨ s.totalIters val = s.lastVal.iters) := by
    rintro (same | same)
    · omega
    · exact other same
  have received : s.step arith d.D d.L (.value val) = .done { s with
      nSkipped := 0
      eventLoop := .addingWork ⟨s.totalIters val, val.a, b⟩ } := by
    simp only [VdfState.step, phase, addValue, if_neg stale, if_neg nonzero, reduced, Exec.done_bind, verified,
      if_true, handleValue, if_neg apart]
  have first := reachable.step (fun other same => by
    obtain rfl := Event.value.inj same
    exact ⟨delivers, fits⟩) received
  have gap : endIters (s.totalIters val) ≠ 0 ∧ s.startIters ≤ endIters (s.totalIters val) :=
    ⟨by omega, large⟩
  have queue : ({ s with
      nSkipped := 0
      eventLoop := .addingWork ⟨s.totalIters val, val.a, b⟩ } : VdfState).step arith d.D d.L .loop =
    .done { s with
      nSkipped := 0
      wq := s.wq ++ [⟨s.lastVal, s.startIters,
        (endIters (s.totalIters val) - s.startIters) / HW_VDF_VALUE_INTERVAL % 2 ^ 32⟩]
      eventLoop := .swapping ⟨s.totalIters val, val.a, b⟩ } :=
    (if_pos gap).trans (if_neg (not_lt.mpr inside))
  exact ⟨_, (first.step (by simp) queue).loop rfl, rfl, rfl, rfl, rfl⟩

/-- The hardware may deliver its first value after any even number of iterations. -/
theorem exists_firstGap (arith : FormArith) {x : ReducedForm ⟨23, by norm_num, rfl⟩} (start : x.form = ⟨2, 1, 3⟩)
    (Fits : VdfState → VdfValue → Prop) {k : ℕ} (between : 2 * k % HW_VDF_VALUE_INTERVAL ≠ 0)
    (large : HW_VDF_VALUE_INTERVAL ≤ endIters (2 * k)) (word : 2 * k < 2 ^ 33)
    (fits : ∀ s val, startIters s = HW_VDF_VALUE_INTERVAL → s.totalIters val = 2 * k → Fits s val) :
    ∃ s, Reachable arith x Fits s ∧ s.lastVal.iters = 2 * k ∧
      s.wq = [⟨⟨0, 2, 1⟩, HW_VDF_VALUE_INTERVAL,
        (endIters (2 * k) - HW_VDF_VALUE_INTERVAL) / HW_VDF_VALUE_INTERVAL % 2 ^ 32⟩] ∧
      (∀ i, s.auxThreads i = .idle) ∧ ∀ pos, s.validValues pos = true → pos = 0 := by
  have genuine : VdfValue.Genuine x ⟨0, 2, 1⟩ := genuine_23 start 0
  obtain ⟨f, form, -⟩ := genuine.fromAbd
  obtain ⟨s, made, phase, offset, last, target, wq, threads, valid⟩ :
      ∃ s, initVdfState (-23) (2 ^ 33) 4 2 1 = .done s ∧ s.eventLoop = .reading ∧ s.itersOffset = 0 ∧
        s.lastVal = ⟨0, 2, 1⟩ ∧ s.targetIters = 8589936000 ∧ s.wq = [] ∧
        (s.auxThreads = fun _ => .idle) ∧ s.validValues = Function.update (fun _ => false) 0 true := by
    simp only [initVdfState]
    rw [show Form.fromAbd 2 1 (-23) = .done f from form]
    exact ⟨_, rfl, rfl, rfl, rfl, rfl, rfl, rfl, rfl⟩
  have begun : Reachable arith x Fits s := .init genuine made
  have total : s.totalIters ⟨2 * k, 2, 1⟩ = 2 * k := by
    rw [totalIters, offset]
    dsimp only
    omega
  have positive : 0 < 2 * k := by
    have le := large.trans (endIters_le (2 * k))
    exact lt_of_lt_of_le (by decide) le
  have first : s.startIters = HW_VDF_VALUE_INTERVAL := by
    rw [startIters, last]
    rfl
  have scans : mpzScan1 24 = 3 ∧ mpzScan1 2 = 1 := by decide +kernel
  have reduced : mpzMod 1 (2 * 2) = .done 1 := rfl
  obtain ⟨t, reachable, lastT, wqT, threadsT, validT⟩ := begun.gap phase ⟨2 * k, 2, 1⟩ 1
    (fun b _ _ => ⟨by rw [total, target]; omega, by rw [total]; exact genuine_23 start k⟩)
    (fits s _ first total) (by rw [total, offset]; exact positive)
    (by rw [total, last]; exact positive.ne') (by norm_num) reduced
    (by simp [verifyVdfValue, Discriminant.D, scans]) (by rwa [total]) (by rwa [total, first])
    (by rw [first, target]; decide)
  refine ⟨t, reachable, by rw [lastT]; exact total, ?_, fun i => ?_, fun pos marked => ?_⟩
  · rw [wqT, wq, last, first, total]
    rfl
  · rw [threadsT, threads]
  · rw [validT, valid] at marked
    rcases update_true.mp marked with zero | other
    · exact zero
    · simp at other

/-- Two positions that were jumped over are on their way. -/
theorem intervals_covered_two : ∃ x : ReducedForm ⟨23, by norm_num, rfl⟩, x.form = ⟨2, 1, 3⟩ ∧
    ∃ enough, ∀ turns ≥ enough, ∃ s : VdfState, s.lastVal.iters = 9000 ∧ ∀ pos ≤ 2,
      s.validValues pos = true ∧ s.Holds x pos ∨ s.Pending (.inPlace turns) ⟨23, by norm_num, rfl⟩ pos := by
  let x : ReducedForm ⟨23, by norm_num, rfl⟩ := ⟨⟨2, 1, 3⟩, by decide, by decide⟩
  have short : endIters (2 * 4500) < HW_VDF_VALUE_INTERVAL + 2 ^ 32 := by decide
  obtain ⟨enough, covered⟩ := intervals_covered (squaresReturn_23 x)
  refine ⟨x, rfl, enough, fun turns le => ?_⟩
  obtain ⟨s, reachable, last, -⟩ := exists_firstGap (.inPlace turns) (x := x) (k := 4500) rfl
    (fun s val => s.ShortGap (s.totalIters val)) (by decide) (by decide) (by norm_num)
    (fun s val first total => by rw [ShortGap, first, total]; exact short)
  refine ⟨s, last, fun pos le' => (covered turns le s reachable).1 pos ?_⟩
  rw [last]
  simp only [HW_VDF_VALUE_INTERVAL]
  omega

/-- A worker that stays below an end. -/
def Below (bound : ℕ) : AuxThread → Prop
  | .calcValues worker => worker.endIters = bound ∧ worker.iters ≤ bound ∧
      (worker.point = .square → worker.iters < bound)
  | .start _ => False
  | _ => True

theorem Below.again {worker : CalcValues} {bound : ℕ} (stop : worker.endIters = bound)
    (le : worker.iters ≤ bound) : Below bound (.again worker) := by
  by_cases more : worker.iters < worker.endIters
  · rw [AuxThread.again, if_pos more]
    exact ⟨stop, le, fun _ => stop ▸ more⟩
  · rw [AuxThread.again, if_neg more]
    trivial

theorem Below.next {D L : ℤ} {bound : ℕ} {thread thread' : AuxThread} (below : Below bound thread)
    (next : thread.next arith D L = .done thread') : Below bound thread' := by
  cases thread with
  | idle =>
    obtain rfl := Exec.done.inj next
    trivial
  | computeProof =>
    obtain rfl := Exec.done.inj next
    trivial
  | start work => exact below.elim
  | calcValues worker =>
    obtain ⟨stop, le, before⟩ := below
    cases point : worker.point with
    | square =>
      simp only [AuxThread.next, point] at next
      obtain ⟨g, -, next⟩ := Exec.bind_eq_done.mp next
      obtain ⟨f, -, next⟩ := Exec.bind_eq_done.mp next
      obtain rfl := Exec.done.inj next
      have inside : worker.iters + 1 ≤ bound := before point
      split_ifs
      · exact ⟨stop, inside, by simp⟩
      · exact .again stop inside
    | store =>
      simp only [AuxThread.next, point] at next
      split_ifs at next
      obtain rfl := Exec.done.inj next
      exact ⟨stop, le, by simp⟩
    | mark =>
      simp only [AuxThread.next, point] at next
      obtain rfl := Exec.done.inj next
      exact .again stop le

theorem Below.marks {D L : ℤ} {bound pos : ℕ} {thread : AuxThread} (below : Below bound thread)
    (marks : thread.Marks arith D L pos) : pos ≤ bound / HW_VDF_VALUE_INTERVAL := by
  induction marks with
  | now => exact Nat.div_le_div_right below.2.1
  | later next _ ih => exact ih (below.next next)

/-- A first value after 2 ^ 32 + 8000 iterations asks for 1073743 positions, and the thread that is to
compute them stops behind the first one. -/
theorem long_gap_missed : ∃ x : ReducedForm ⟨23, by norm_num, rfl⟩, ∀ turns, ∃ s : VdfState,
    Reachable (.inPlace turns) x (fun _ _ => True) s ∧ s.lastVal.iters = 2 ^ 32 + 8000 ∧
      ¬(s.validValues 2 = true ∧ s.Holds x 2 ∨ s.Pending (.inPlace turns) ⟨23, by norm_num, rfl⟩ 2) := by
  let x : ReducedForm ⟨23, by norm_num, rfl⟩ := ⟨⟨2, 1, 3⟩, by decide, by decide⟩
  refine ⟨x, fun turns => ?_⟩
  obtain ⟨s, reachable, last, wq, idle, valid⟩ := exists_firstGap (.inPlace turns) (x := x) (k := 2 ^ 31 + 4000) rfl
    (fun _ _ => True) (by decide) (by decide) (by norm_num) fun _ _ _ _ => trivial
  refine ⟨s, reachable, last, ?_⟩
  rintro (⟨marked, -⟩ | ⟨work, member, marks⟩ | ⟨i, marks⟩)
  · exact absurd (valid 2 marked) (by norm_num)
  · rw [wq] at member
    obtain rfl := List.mem_singleton.mp member
    obtain ⟨f, run, -⟩ := VdfValue.Genuine.fromAbd (genuine_23 (x := x) rfl 0)
    cases marks with
    | later next marks =>
      have begun : (AuxThread.start ⟨⟨2 * 0, 2, 1⟩, HW_VDF_VALUE_INTERVAL, (endIters (2 * (2 ^ 31 + 4000)) -
          HW_VDF_VALUE_INTERVAL) / HW_VDF_VALUE_INTERVAL % 2 ^ 32⟩).next (.inPlace turns) (-23) 2 =
          .done (.calcValues ⟨f, 0, HW_VDF_VALUE_INTERVAL, 4704, .square⟩) := by
        simp only [AuxThread.next, VdfWork.begin]
        rw [show Form.fromAbd 2 1 (-23) = .done f from run]
        rfl
      obtain rfl := Exec.done.inj (begun.symm.trans next)
      have below : Below 4704 (.calcValues ⟨f, 0, HW_VDF_VALUE_INTERVAL, 4704, .square⟩) :=
        ⟨rfl, by norm_num, fun _ => by norm_num⟩
      exact absurd (below.marks marks) (by decide)
  · rw [idle] at marks
    exact not_marks_idle marks

end Coverage

end VdfState

end ChiaVdf
