import ChiaVdf.HwJobThread
import ChiaVdf.HwProofFilter

/-! `hw_proof.cpp` on a hardware that counts right: no step of the event loop or of an aux thread fails, no value is
counted as a bad one, and all work lies below the target. -/
namespace ChiaVdf

open BinaryForm

variable {d : Discriminant} {arith : FormArith} {x : ReducedForm d} {target : ℕ}

/-- The last multiple of the interval that the work goes to. -/
structure VdfWork.Inside (target : ℕ) (work : VdfWork) : Prop where
  later : work.startVal.iters < work.startIters
  last : work.startIters + HW_VDF_VALUE_INTERVAL * work.nSteps ≤ target

structure CalcValues.Inside (target : ℕ) (worker : CalcValues) : Prop where
  before : worker.point = .square → worker.iters < worker.endIters
  le : worker.iters ≤ worker.endIters
  last : worker.endIters ≤ target

def AuxThread.Inside (target : ℕ) : AuxThread → Prop
  | .idle => True
  | .computeProof => True
  | .start work => work.Inside target
  | .calcValues worker => worker.Inside target

def EventLoop.Inside (target : ℕ) : EventLoop → Prop
  | .marking val => val.iters ≤ target
  | .addingWork val => val.iters ≤ target
  | .swapping val => val.iters ≤ target
  | _ => True

section Worker

variable {s : VdfState} {thread : AuxThread}

theorem AuxThread.inside_again {worker : CalcValues} (le : worker.iters ≤ worker.endIters)
    (last : worker.endIters ≤ target) :
    (AuxThread.again worker).Inside target := by
  unfold AuxThread.again
  split_ifs with more
  · exact ⟨fun _ => more, le, last⟩
  · trivial

/-- A thread that is right gets on, and it stays below the target. -/
theorem VdfState.next_inside (squares : arith.Squares x) (small : target < 2 ^ 32)
    (right : s.ThreadRight x thread) (inside : thread.Inside target) :
    ∃ thread', thread.next arith d.D d.L = .done thread' ∧ thread'.Inside target := by
  cases thread with
  | idle => exact ⟨.idle, rfl, trivial⟩
  | computeProof => exact ⟨.idle, rfl, trivial⟩
  | start work =>
    have right : work.Right x := right
    obtain ⟨later, last⟩ : work.Inside target := inside
    obtain ⟨f, form, -⟩ := right.genuine.fromAbd
    have steps : (work.startIters + HW_VDF_VALUE_INTERVAL * work.nSteps % 2 ^ 32) % 2 ^ 64 =
        work.startIters + HW_VDF_VALUE_INTERVAL * work.nSteps := by
      rw [Nat.mod_eq_of_lt (show HW_VDF_VALUE_INTERVAL * work.nSteps < 2 ^ 32 by omega), Nat.mod_eq_of_lt (by omega)]
    refine ⟨_, by simp only [AuxThread.next, VdfWork.begin, form, Exec.done_bind, Exec.pure_eq, steps]; rfl, ?_⟩
    have grows : work.startVal.iters < work.startIters + HW_VDF_VALUE_INTERVAL * work.nSteps := by omega
    exact ⟨fun _ => grows, grows.le, last⟩
  | calcValues worker =>
    obtain ⟨rightWorker, -⟩ := right
    have inside : worker.Inside target := inside
    cases point : worker.point with
    | square =>
      have lt := inside.before point
      obtain ⟨g, f, squared, reduced, -⟩ := squares rightWorker.rep rightWorker.nearly
      have step : worker.square arith d.D d.L = .done (if worker.iters + 1 = worker.nextIters then
          .calcValues { worker with f := f, iters := worker.iters + 1, point := .store }
          else .again { worker with f := f, iters := worker.iters + 1 }) := by
        simp only [CalcValues.square, squared, reduced, Exec.done_bind, Exec.pure_eq]
      refine ⟨_, by simp only [AuxThread.next, point, step]; rfl, ?_⟩
      split_ifs
      · exact ⟨fun square => absurd square (by simp), lt, inside.last⟩
      · exact AuxThread.inside_again lt inside.last
    | store =>
      refine ⟨_, by simp only [AuxThread.next, point, rightWorker.rep.disc, if_true]; rfl, ?_⟩
      exact ⟨fun square => absurd square (by simp), inside.le, inside.last⟩
    | mark =>
      refine ⟨_, by simp only [AuxThread.next, point]; rfl, ?_⟩
      exact AuxThread.inside_again inside.le inside.last

end Worker

namespace VdfState

variable {s t : VdfState}

/-- What holds of a VDF of the client beyond what the values are. -/
structure Kept (s : VdfState) : Prop where
  target : s.targetIters = 2000000000
  offset : s.itersOffset ≤ s.targetIters
  cur : s.curIters ≤ s.targetIters
  last : s.lastVal.iters ≤ s.targetIters
  first : s.validValues 0 = true
  values : ∀ pos f, s.values pos = some f → NearlyReduced f
  queue : ∀ work ∈ s.wq, work.Inside s.targetIters
  threads : ∀ i, (s.auxThreads i).Inside s.targetIters
  phase : s.eventLoop.Inside s.targetIters
  nBad : s.nBad = 0

theorem Kept.small (kept : s.Kept) : s.targetIters < 2 ^ 32 := by
  rw [kept.target]
  norm_num

theorem addIntermediate_inside {iters : ℕ} (le : iters ≤ s.targetIters) :
    s.addIntermediate (iters / HW_VDF_VALUE_INTERVAL) = .done { s with
      validValues := Function.update s.validValues (iters / HW_VDF_VALUE_INTERVAL) true
      doneValues := s.doneValues + 1 } := by
  apply if_pos
  have quotient : iters / HW_VDF_VALUE_INTERVAL ≤ s.targetIters / HW_VDF_VALUE_INTERVAL := Nat.div_le_div_right le
  omega

theorem nearly_update {values : ℕ → Option Form} (kept : ∀ pos f, values pos = some f → NearlyReduced f) {f : Form}
    (nearly : NearlyReduced f) (place : ℕ) :
    ∀ pos g, Function.update values place (some f) pos = some g → NearlyReduced g := by
  intro pos g stored
  by_cases here : pos = place
  · subst here
    rw [Function.update_self] at stored
    exact Option.some.inj stored ▸ nearly
  · exact kept pos g (by rwa [Function.update_of_ne here] at stored)

theorem update_first {valid : ℕ → Bool} (first : valid 0 = true) (pos : ℕ) :
    Function.update valid pos true 0 = true := by
  by_cases here : 0 = pos
  · simp [← here]
  · rwa [Function.update_of_ne here]

theorem Kept.setThread (kept : s.Kept) {thread : AuxThread} (inside : thread.Inside s.targetIters) (i : ℕ) :
    (s.setAuxThread i thread).Kept :=
  { kept with
    threads := fun j => by
      by_cases here : j = i
      · subst here
        simpa [setAuxThread] using inside
      · simpa [setAuxThread, Function.update_of_ne here] using kept.threads j }

theorem Kept.aux (squares : arith.Squares x) (collected : s.Collected arith x) (kept : s.Kept)
    (i : ℕ) : ∃ t, s.auxStep arith d.D d.L i = .done t ∧ t.Kept := by
  obtain ⟨thread, next, inside⟩ := next_inside squares kept.small (collected.threads i) (kept.threads i)
  have write : ∃ u, s.auxWrite (s.auxThreads i) = .done u ∧ u.Kept ∧ u.targetIters = s.targetIters := by
    have here := kept.threads i
    have right := collected.threads i
    cases thread : s.auxThreads i with
    | calcValues worker =>
      rw [thread] at here right
      have here : worker.Inside s.targetIters := here
      have below := here.le.trans here.last
      cases point : worker.point with
      | square => exact ⟨s, by simp only [auxWrite, point], kept, rfl⟩
      | store =>
        refine ⟨_, by simp only [auxWrite, point]; rfl, ?_, ?_⟩
        · exact { kept with values := nearly_update kept.values right.1.nearly _ }
        · rfl
      | mark =>
        refine ⟨_, by simp only [auxWrite, point, addIntermediate_inside below]; rfl, ?_, ?_⟩
        · exact { kept with first := update_first kept.first _ }
        · rfl
    | _ => exact ⟨s, rfl, kept, rfl⟩
  obtain ⟨u, written, keptU, same⟩ := write
  refine ⟨u.setAuxThread i thread, ?_, keptU.setThread (same ▸ inside) i⟩
  simp only [auxStep, next, written, Exec.done_bind, Exec.pure_eq]

theorem Kept.addWork (kept : s.Kept) {val : VdfValue} (below : val.iters ≤ s.targetIters) :
    ∃ t, s.addWork val = .done t ∧ t.Kept := by
  unfold VdfState.addWork
  split_ifs with gap beyond
  · have le := endIters_le val.iters
    omega
  · refine ⟨_, rfl, { kept with queue := fun work member => ?_, phase := below }⟩
    rcases List.mem_append.mp member with old | new
    · exact kept.queue work old
    · obtain rfl := List.mem_singleton.mp new
      have le := endIters_le val.iters
      have multiple := dvd_endIters val.iters
      have start : HW_VDF_VALUE_INTERVAL ∣ s.startIters := by
        rw [startIters]
        exact dvd_add (Dvd.intro_left _ rfl) dvd_rfl
      have steps : HW_VDF_VALUE_INTERVAL * ((endIters val.iters - s.startIters) / HW_VDF_VALUE_INTERVAL) =
          endIters val.iters - s.startIters := Nat.mul_div_cancel' (Nat.dvd_sub multiple start)
      have word : (endIters val.iters - s.startIters) / HW_VDF_VALUE_INTERVAL < 2 ^ 32 := by
        have small := kept.small
        exact (Nat.div_le_self _ _).trans_lt (by omega)
      have later : s.lastVal.iters < s.startIters := by
        rw [startIters, HW_VDF_VALUE_INTERVAL]
        omega
      refine ⟨later, ?_⟩
      change s.startIters + HW_VDF_VALUE_INTERVAL * (_ % 2 ^ 32) ≤ s.targetIters
      rw [Nat.mod_eq_of_lt word, steps]
      omega
  · exact ⟨_, rfl, { kept with phase := below }⟩

theorem lastGoodPos_done (first : s.validValues 0 = true) (pos : ℕ) :
    ∃ good, s.lastGoodPos pos = .done good ∧ good ≤ pos ∧ s.validValues good = true := by
  induction pos with
  | zero => exact ⟨0, if_pos first, le_rfl, first⟩
  | succ pos ih =>
    rw [lastGoodPos]
    split_ifs with valid
    · exact ⟨pos + 1, rfl, le_rfl, valid⟩
    · obtain ⟨good, run, le, known⟩ := ih
      exact ⟨good, run, by omega, known⟩

theorem Kept.loopStep (kept : s.Kept) : ∃ t, s.loopStep = .done t ∧ t.Kept := by
  have phase := kept.phase
  unfold VdfState.loopStep
  cases loop : s.eventLoop with
  | reading => exact ⟨s, rfl, kept⟩
  | marking val =>
    rw [loop] at phase
    refine ⟨_, by simp only [addIntermediate_inside phase, Exec.done_bind]; rfl, ?_⟩
    exact { kept with first := update_first kept.first _, phase := phase }
  | addingWork val =>
    rw [loop] at phase
    exact kept.addWork phase
  | swapping val =>
    rw [loop] at phase
    exact ⟨_, rfl, { kept with cur := phase, last := phase, phase := trivial }⟩
  | startingProofs => exact ⟨_, rfl, { kept with phase := trivial }⟩
  | startingWork busy i =>
    refine ⟨_, rfl, ?_⟩
    unfold startWork
    split_ifs
    · exact { kept with phase := trivial }
    · split
      · exact { kept with phase := trivial }
      · next work wq queue =>
        have inside : (AuxThread.start work).Inside s.targetIters := kept.queue work (by simp [queue])
        exact { kept.setThread inside i with
          queue := fun other member => kept.queue other (by simp [queue, member])
          phase := trivial }
    · exact { kept with phase := trivial }
  | restarting =>
    obtain ⟨good, run, le, -⟩ := lastGoodPos_done kept.first (s.curIters / HW_VDF_VALUE_INTERVAL)
    refine ⟨_, by simp only [restart, run, Exec.done_bind]; rfl, ?_⟩
    have below := (Nat.mul_le_mul_right HW_VDF_VALUE_INTERVAL le).trans (Nat.div_mul_le_self _ _)
    exact { kept with offset := below.trans kept.cur, phase := trivial }

section Value

variable {val : VdfValue}

theorem Kept.totalIters_told (kept : s.Kept) (told : val.Told x s.itersOffset s.targetIters) :
    s.totalIters val = s.itersOffset + val.iters ∧ s.itersOffset + val.iters ≤ s.targetIters := by
  have small := kept.small
  have offset := kept.offset
  have le : s.itersOffset + val.iters ≤ s.targetIters := by
    rcases told with rfl | ⟨n, f, le, -, rfl⟩
    · simpa using offset
    · exact le
  refine ⟨?_, le⟩
  rw [totalIters, add_comm, Nat.mod_eq_of_lt (by omega)]

/-- What an engine says is what the collection of the values relies on. -/
theorem Kept.delivers (kept : s.Kept) (told : val.Told x s.itersOffset s.targetIters) :
    s.Delivers x val ∧ s.ShortGap (s.totalIters val) := by
  obtain ⟨total, le⟩ := kept.totalIters_told told
  constructor
  · intro b reduced _
    rcases told with rfl | ⟨n, f, -, rep, rfl⟩
    · simp [mpzMod] at reduced
    · rw [total]
      exact ⟨le, f.c, rep⟩
  · have end_ := endIters_le (s.totalIters val)
    have small := kept.small
    rw [ShortGap]
    omega

theorem Kept.handleValue (kept : s.Kept) (below : val.iters ≤ s.targetIters) (genuine : val.Genuine x) :
    ∃ t, s.handleValue d.D val = .done t ∧ t.Kept := by
  unfold VdfState.handleValue
  split_ifs with multiple
  · obtain ⟨f, form, -⟩ := genuine.fromAbd
    have nearly := nearlyReduced_of_reduced (HwInterface.reduced_of_fromAbd d.D_neg form).1
    refine ⟨_, by simp only [form, Exec.done_bind]; rfl, ?_⟩
    exact { kept with values := nearly_update kept.values nearly _, phase := below }
  · exact ⟨_, rfl, { kept with phase := below }⟩

theorem addValue_form {n m : ℕ} {f : Form} (rep : Represents f (x ^ 2 ^ m))
    (fresh : ¬(s.totalIters ⟨n, f.a, f.b⟩ = s.itersOffset ∨ s.totalIters ⟨n, f.a, f.b⟩ = s.lastVal.iters)) :
    s.addValue d.D ⟨n, f.a, f.b⟩ = ({ s with nSkipped := 0 } : VdfState).handleValue d.D
      ⟨s.totalIters ⟨n, f.a, f.b⟩, f.a, f.b % (2 * f.a)⟩ := by
  have pos : 0 < f.a := rep.pos
  have reduced : mpzMod f.b (2 * f.a) = .done (f.b % (2 * f.a)) := mpzMod_done (by omega)
  have whole : 4 * f.a ∣ f.b * f.b - d.D := by
    refine ⟨f.c, ?_⟩
    rw [← rep.disc, BinaryForm.disc]
    ring
  have verified := (verifyVdfValue_iff pos.ne' d.D_neg (s.totalIters ⟨n, f.a, f.b⟩)).mpr whole
  simp only [VdfState.addValue, if_neg fresh, if_neg pos.ne', reduced, Exec.done_bind, if_pos verified]

theorem Kept.addValue (kept : s.Kept) (told : val.Told x s.itersOffset s.targetIters) :
    ∃ t, s.addValue d.D val = .done t ∧ t.Kept := by
  obtain ⟨total, le⟩ := kept.totalIters_told told
  by_cases same : s.totalIters val = s.itersOffset ∨ s.totalIters val = s.lastVal.iters
  · unfold VdfState.addValue
    dsimp only
    rw [if_pos same]
    split_ifs with many
    · exact ⟨_, rfl, { kept with phase := trivial }⟩
    · exact ⟨_, rfl, { kept with }⟩
  · rcases told with rfl | ⟨n, f, -, rep, rfl⟩
    · exact absurd (.inl total) same
    · have genuine : VdfValue.Genuine x ⟨s.totalIters ⟨n, f.a, f.b⟩, f.a, f.b⟩ := by
        rw [total]
        exact ⟨f.c, rep⟩
      have skipped : Kept { s with nSkipped := 0 } := { kept with }
      have pos : 0 < f.a := rep.pos
      rw [addValue_form rep same]
      exact skipped.handleValue (by rwa [total]) (genuine.mod (mpzMod_done (by omega)))

end Value

section Offset

variable {D L : ℤ}

theorem handleValue_offset {val : VdfValue} (run : s.handleValue D val = .done t) : t.itersOffset = s.itersOffset := by
  unfold VdfState.handleValue at run
  split_ifs at run
  · obtain ⟨f, -, last⟩ := Exec.bind_eq_done.mp run
    obtain rfl := Exec.done.inj last
    rfl
  · obtain rfl := Exec.done.inj run
    rfl

theorem addValue_offset {val : VdfValue} (run : s.addValue D val = .done t) : t.itersOffset = s.itersOffset := by
  unfold VdfState.addValue at run
  dsimp only at run
  split_ifs at run
  · obtain rfl := Exec.done.inj run
    rfl
  · obtain rfl := Exec.done.inj run
    rfl
  · obtain rfl := Exec.done.inj run
    rfl
  · obtain ⟨b, -, run⟩ := Exec.bind_eq_done.mp run
    split_ifs at run
    · exact (handleValue_offset run).trans rfl
    · obtain rfl := Exec.done.inj run
      rfl

theorem loopStep_offset (run : s.loopStep = .done t) (goes : s.eventLoop ≠ .restarting) :
    t.itersOffset = s.itersOffset := by
  unfold VdfState.loopStep at run
  cases loop : s.eventLoop with
  | restarting => exact absurd loop goes
  | marking val =>
    simp only [loop] at run
    obtain ⟨u, marked, last⟩ := Exec.bind_eq_done.mp run
    obtain rfl := addIntermediate_done marked
    obtain rfl := Exec.done.inj last
    rfl
  | addingWork val =>
    simp only [loop, addWork] at run
    split_ifs at run <;> obtain rfl := Exec.done.inj run <;> rfl
  | startingWork busy i =>
    simp only [loop] at run
    obtain rfl := Exec.done.inj run
    unfold startWork
    split_ifs
    · rfl
    · split <;> rfl
    · rfl
  | _ =>
    simp only [loop] at run
    obtain rfl := Exec.done.inj run
    rfl

theorem auxStep_frame {i : ℕ} (run : s.auxStep arith D L i = .done t) :
    t.itersOffset = s.itersOffset ∧ t.eventLoop = s.eventLoop := by
  obtain ⟨thread, u, -, write, rfl⟩ := auxStep_cases run
  rcases auxWrite_cases write with ⟨rfl, -⟩ | ⟨worker, -, ⟨-, rfl⟩ | ⟨-, rfl⟩⟩ <;> exact ⟨rfl, rfl⟩

end Offset

end VdfState

end ChiaVdf
