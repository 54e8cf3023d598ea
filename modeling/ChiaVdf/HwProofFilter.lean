import ChiaVdf.HwProof
import ChiaVdf.Reduce

/-! The filter of `hw_proof_add_value`: which values of the hardware are accepted, what is left of the
state where one is refused, and that a negative `a` gets through. -/
namespace ChiaVdf

namespace VdfState

/-- The rest of `hw_proof_handle_value`, with no other thread in between. -/
def handled : ℕ → VdfState → Exec VdfState
  | 0, _ => .diverged
  | fuel + 1, vdf =>
    match vdf.eventLoop with
    | .reading => .done vdf
    | _ => do
      let vdf ← vdf.loopStep
      handled fuel vdf

/-- A call of `hw_proof_add_value` with its result, up to the start of the next one. -/
def hwProofAddValue (D : ℤ) (vdf : VdfState) (val : VdfValue) : Exec (ℤ × VdfState) := do
  let vdf ← vdf.addValue D val
  match vdf.eventLoop with
  | .restarting => return (-1, vdf)
  | .reading => return (1, vdf)
  | _ => do
    let vdf ← handled (vdf.maxAuxThreads + 7) vdf
    return (0, vdf)

/-- The hardware went on since the last value. -/
def Fresh (vdf : VdfState) (val : VdfValue) : Prop :=
  ¬(vdf.totalIters val = vdf.itersOffset ∨ vdf.totalIters val = vdf.lastVal.iters)

/-- A value after `iters` iterations has its place in the tables: a multiple of the interval has its bit,
and work asked for starts within the request. -/
structure Room (vdf : VdfState) (iters : ℕ) : Prop where
  marked : iters = iters / HW_VDF_VALUE_INTERVAL * HW_VDF_VALUE_INTERVAL →
    iters / HW_VDF_VALUE_INTERVAL / 8 < (vdf.targetIters / HW_VDF_VALUE_INTERVAL + 1 + 7) / 8
  queued : endIters iters ≠ 0 ∧ vdf.startIters ≤ endIters iters → vdf.startIters ≤ vdf.targetIters

/-- What a refused value must not touch. -/
structure Unchanged (vdf vdf' : VdfState) : Prop where
  lastVal : vdf'.lastVal = vdf.lastVal
  curIters : vdf'.curIters = vdf.curIters
  validValues : vdf'.validValues = vdf.validValues
  values : vdf'.values = vdf.values
  wq : vdf'.wq = vdf.wq

end VdfState

section Verify

variable {a b D N : ℤ}

/-- The quotient by `a` is divisible by four exactly if it brings two more low zeros. -/
theorem four_mul_dvd_iff (nonzero : a ≠ 0) (positive : N ≠ 0) :
    4 * a ∣ N ↔ a ∣ N ∧ mpzScan1 a + 2 ≤ mpzScan1 N := by
  have : Fact (Nat.Prime 2) := ⟨Nat.prime_two⟩
  by_cases divides : a ∣ N
  · obtain ⟨m, rfl⟩ := divides
    have mnonzero : m ≠ 0 := right_ne_zero_of_mul positive
    have four : (4 : ℤ) ∣ m ↔ 2 ≤ padicValInt 2 m := by
      have := padicValInt_dvd_iff (p := 2) 2 m
      norm_num [mnonzero] at this
      exact this
    simp only [mpzScan1, if_neg nonzero, if_neg positive, padicValInt.mul nonzero mnonzero]
    rw [mul_comm 4 a, mul_dvd_mul_iff_left nonzero, four]
    simp
  · constructor
    · intro whole
      exact absurd ((Dvd.intro_left 4 rfl).trans whole) divides
    · rintro ⟨part, -⟩
      exact absurd part divides

theorem dvd_mod_sq_iff : 4 * a ∣ b % (2 * a) * (b % (2 * a)) - D ↔ 4 * a ∣ b * b - D := by
  have split := Int.emod_add_mul_ediv b (2 * a)
  generalize b % (2 * a) = r at *
  generalize b / (2 * a) = k at *
  have change : b * b - D = r * r - D + 4 * a * (r * k + a * k * k) := by
    rw [← split]
    ring
  rw [change]
  exact (dvd_add_left (dvd_mul_right _ _)).symm

theorem verifyVdfValue_iff (nonzero : a ≠ 0) (neg : D < 0) (iters : ℕ) :
    verifyVdfValue D ⟨iters, a, b % (2 * a)⟩ = true ↔ 4 * a ∣ b * b - D := by
  have positive : b % (2 * a) * (b % (2 * a)) - D ≠ 0 := by nlinarith [mul_self_nonneg (b % (2 * a))]
  rw [← dvd_mod_sq_iff, four_mul_dvd_iff nonzero positive]
  simp [verifyVdfValue]

theorem fromAbd_mod (pos : 0 < a) (neg : D < 0) (divides : 4 * a ∣ b * b - D) :
    ∃ f, Form.fromAbd a (b % (2 * a)) D = .done f := by
  obtain ⟨c, hc⟩ := dvd_mod_sq_iff.mpr divides
  have disc : (⟨a, b % (2 * a), c⟩ : Form).disc = D := by
    unfold BinaryForm.disc
    dsimp only
    linarith
  obtain ⟨g, run, -⟩ := Form.reduce_spec (f := ⟨a, b % (2 * a), c⟩) pos (by rw [disc]; exact neg)
  refine ⟨g, ?_⟩
  have four : (4 : ℤ) * a ≠ 0 := by omega
  have remainder : mpzMod (b % (2 * a) * (b % (2 * a)) - D) (4 * a) = .done 0 := by
    rw [hc, mpzMod_done four, Int.mul_emod_right]
  rw [Form.fromAbd, if_neg (by omega), remainder, Exec.done_bind, if_neg (by simp), mpzFdivQ_exact four c hc,
    Exec.done_bind, run]

theorem fromAbd_neg (neg : a < 0) : Form.fromAbd a b D = .thrown "Invalid form. Positive a" :=
  if_pos neg.le

end Verify

namespace VdfState

variable {D : ℤ} {vdf : VdfState} {val : VdfValue}

theorem handled_succ {vdf' : VdfState} (fuel : ℕ) (busy : vdf.eventLoop ≠ .reading)
    (turn : vdf.loopStep = .done vdf') : handled (fuel + 1) vdf = handled fuel vdf' := by
  simp only [handled]
  cases phase : vdf.eventLoop with
  | reading => exact absurd phase busy
  | _ => simp only [turn, Exec.done_bind]

theorem handled_fault {reason : Fault} (fuel : ℕ) (busy : vdf.eventLoop ≠ .reading)
    (turn : vdf.loopStep = .fault reason) : handled (fuel + 1) vdf = .fault reason := by
  simp only [handled]
  cases phase : vdf.eventLoop with
  | reading => exact absurd phase busy
  | _ => simp only [turn, Exec.fault_bind]

theorem startWork_spec (busy : ℕ → Bool) (i : ℕ) :
    (vdf.startWork busy i).eventLoop = .reading ∨
      i < vdf.maxAuxThreads ∧ (vdf.startWork busy i).eventLoop = .startingWork busy (i + 1) ∧
        (vdf.startWork busy i).maxAuxThreads = vdf.maxAuxThreads := by
  unfold startWork
  split
  · next below =>
    split
    · exact .inr ⟨below, rfl, rfl⟩
    · cases vdf.wq with
      | nil => exact .inl rfl
      | cons => exact .inr ⟨below, rfl, rfl⟩
  · exact .inl rfl

/-- The idle threads are asked one by one. -/
theorem handled_startingWork (fuel : ℕ) (busy : ℕ → Bool) (i : ℕ) (phase : vdf.eventLoop = .startingWork busy i)
    (enough : vdf.maxAuxThreads + 2 ≤ fuel + i) (two : 2 ≤ fuel) : ∃ t, handled fuel vdf = .done t := by
  induction fuel generalizing vdf i with
  | zero => omega
  | succ fuel ih =>
    have turn : vdf.loopStep = .done (vdf.startWork busy i) := by simp only [loopStep, phase]
    rw [handled_succ fuel (by simp [phase]) turn]
    obtain ⟨fuel, rfl⟩ : ∃ less, fuel = less + 1 := ⟨fuel - 1, by omega⟩
    cases @startWork_spec vdf busy i with
    | inl done => exact ⟨vdf.startWork busy i, by simp only [handled, done]⟩
    | inr more =>
      obtain ⟨below, next, same⟩ := more
      exact ih (i + 1) next (by rw [same]; omega) (by omega)

/-- The work that a value asks for starts within the request. -/
theorem handled_addingWork (fuel : ℕ) (phase : vdf.eventLoop = .addingWork val)
    (enough : vdf.maxAuxThreads + 5 ≤ fuel) : (∃ t, handled fuel vdf = .done t) ↔
      (endIters val.iters ≠ 0 ∧ vdf.startIters ≤ endIters val.iters → vdf.startIters ≤ vdf.targetIters) := by
  obtain ⟨fuel, rfl⟩ : ∃ less, fuel = less + 3 := ⟨fuel - 3, by omega⟩
  have busy : vdf.eventLoop ≠ .reading := by simp [phase]
  constructor
  · rintro ⟨t, run⟩ asked
    by_contra outside
    have turn : vdf.loopStep = .fault .assertion := by
      simp only [loopStep, phase, addWork, if_pos asked, if_pos (not_le.mp outside)]
    rw [handled_fault _ busy turn] at run
    cases run
  · intro queued
    obtain ⟨next, turn, swapping, same⟩ : ∃ next, vdf.loopStep = .done next ∧
        next.eventLoop = .swapping val ∧ next.maxAuxThreads = vdf.maxAuxThreads := by
      simp only [loopStep, phase, addWork]
      split
      · next asked =>
        rw [if_neg (not_lt.mpr (queued asked))]
        exact ⟨_, rfl, rfl, rfl⟩
      · exact ⟨_, rfl, rfl, rfl⟩
    have swap : next.loopStep = .done (next.swapValue val) := by simp only [loopStep, swapping]
    rw [handled_succ _ busy turn, handled_succ _ (by simp [swapping]) swap,
      handled_succ _ (by simp [swapValue]) rfl]
    exact handled_startingWork fuel _ 0 rfl (by simp only [swapValue, same]; omega) (by omega)

theorem handled_marking (fuel : ℕ) (phase : vdf.eventLoop = .marking val)
    (enough : vdf.maxAuxThreads + 6 ≤ fuel) : (∃ t, handled fuel vdf = .done t) ↔
      val.iters / HW_VDF_VALUE_INTERVAL / 8 < (vdf.targetIters / HW_VDF_VALUE_INTERVAL + 1 + 7) / 8 ∧
      (endIters val.iters ≠ 0 ∧ vdf.startIters ≤ endIters val.iters → vdf.startIters ≤ vdf.targetIters) := by
  obtain ⟨fuel, rfl⟩ : ∃ less, fuel = less + 1 := ⟨fuel - 1, by omega⟩
  have busy : vdf.eventLoop ≠ .reading := by simp [phase]
  by_cases marked : val.iters / HW_VDF_VALUE_INTERVAL / 8 <
      (vdf.targetIters / HW_VDF_VALUE_INTERVAL + 1 + 7) / 8
  · have turn : vdf.loopStep = .done { vdf with
        validValues := Function.update vdf.validValues (val.iters / HW_VDF_VALUE_INTERVAL) true
        doneValues := vdf.doneValues + 1
        eventLoop := .addingWork val } := by
      simp only [loopStep, phase, addIntermediate, if_pos marked, Exec.done_bind, Exec.pure_eq]
    rw [handled_succ _ busy turn, @handled_addingWork _ val fuel rfl (by dsimp only; omega)]
    exact ⟨fun queued => ⟨marked, queued⟩, fun both => both.2⟩
  · have turn : vdf.loopStep = .fault .outOfBounds := by
      simp only [loopStep, phase, addIntermediate, if_neg marked, Exec.fault_bind]
    rw [handled_fault _ busy turn]
    constructor
    · rintro ⟨t, absurd⟩
      cases absurd
    · rintro ⟨inside, -⟩
      exact absurd inside marked

theorem refused (fresh : vdf.Fresh val) (neg : D < 0) (bad : val.a = 0 ∨ ¬4 * val.a ∣ val.b * val.b - D) :
    ∃ t, vdf.hwProofAddValue D val = .done (-1, t) ∧ Unchanged vdf t := by
  obtain ⟨t, run, phase, same⟩ : ∃ t, vdf.addValue D val = .done t ∧ t.eventLoop = .restarting ∧
      Unchanged vdf t := by
    rw [addValue, if_neg fresh]
    by_cases zero : val.a = 0
    · exact ⟨_, if_pos zero, rfl, ⟨rfl, rfl, rfl, rfl, rfl⟩⟩
    · have rejected : ¬verifyVdfValue D ⟨vdf.totalIters val, val.a, val.b % (2 * val.a)⟩ = true := by
        rw [verifyVdfValue_iff zero neg]
        exact bad.resolve_left zero
      dsimp only
      rw [if_neg zero, mpzMod_done (by omega), Exec.done_bind, if_neg rejected]
      exact ⟨_, rfl, rfl, ⟨rfl, rfl, rfl, rfl, rfl⟩⟩
  refine ⟨t, ?_, same⟩
  simp only [hwProofAddValue, run, Exec.done_bind, phase, Exec.pure_eq]

/-- Whatever its sign, a value that divides goes to the handler. -/
theorem addValue_accepts (fresh : vdf.Fresh val) (neg : D < 0) (nonzero : val.a ≠ 0)
    (divides : 4 * val.a ∣ val.b * val.b - D) : vdf.addValue D val =
      ({ vdf with nSkipped := 0 } : VdfState).handleValue D ⟨vdf.totalIters val, val.a, val.b % (2 * val.a)⟩ := by
  have verified := (verifyVdfValue_iff nonzero neg (vdf.totalIters val)).mpr divides
  rw [addValue, if_neg fresh]
  dsimp only
  rw [if_neg nonzero, mpzMod_done (by omega), Exec.done_bind, if_pos verified]

theorem result_of_handled {t next : VdfState} {r : ℤ} (run : vdf.addValue D val = .done next)
    (busy : next.eventLoop = .marking val' ∨ next.eventLoop = .addingWork val')
    (result : vdf.hwProofAddValue D val = .done (r, t)) :
    r = 0 ∧ ∃ t, handled (next.maxAuxThreads + 7) next = .done t := by
  simp only [hwProofAddValue, run, Exec.done_bind] at result
  have ends : (do
      let vdf ← handled (next.maxAuxThreads + 7) next
      return ((0 : ℤ), vdf)) = Exec.done (r, t) := by
    cases busy with
    | inl phase => simpa only [phase] using result
    | inr phase => simpa only [phase] using result
  obtain ⟨last, handler, same⟩ := Exec.bind_eq_done.mp ends
  exact ⟨(congrArg Prod.fst (Exec.done.inj same)).symm, last, handler⟩

theorem returns_zero {t next : VdfState} (run : vdf.addValue D val = .done next)
    (busy : next.eventLoop = .marking val' ∨ next.eventLoop = .addingWork val')
    (handler : handled (next.maxAuxThreads + 7) next = .done t) :
    vdf.hwProofAddValue D val = .done (0, t) := by
  simp only [hwProofAddValue, run, Exec.done_bind]
  cases busy with
  | inl phase => simp only [phase, handler, Exec.done_bind, Exec.pure_eq]
  | inr phase => simp only [phase, handler, Exec.done_bind, Exec.pure_eq]

/-- A negative `a` that divides is never answered with a refusal: zero is returned, or `from_abd` throws. -/
theorem negative_accepted {t : VdfState} {r : ℤ} (fresh : vdf.Fresh val) (neg : D < 0) (minus : val.a < 0)
    (divides : 4 * val.a ∣ val.b * val.b - D) (result : vdf.hwProofAddValue D val = .done (r, t)) : r = 0 := by
  have accepted := addValue_accepts fresh neg (by omega) divides
  simp only [handleValue] at accepted
  split at accepted
  · rw [fromAbd_neg minus, Exec.thrown_bind] at accepted
    rw [hwProofAddValue, accepted] at result
    cases result
  · exact (result_of_handled accepted (.inr rfl) result).1

/-- A call that comes to the handler ends exactly if the handler does. -/
theorem ends_iff {next : VdfState} (run : vdf.addValue D val = .done next)
    (busy : next.eventLoop = .marking val' ∨ next.eventLoop = .addingWork val') :
    (∃ t, vdf.hwProofAddValue D val = .done (0, t)) ↔ ∃ t, handled (next.maxAuxThreads + 7) next = .done t := by
  constructor
  · rintro ⟨t, result⟩
    exact (result_of_handled run busy result).2
  · rintro ⟨t, handler⟩
    exact ⟨t, returns_zero run busy handler⟩

theorem positive_accepted (fresh : vdf.Fresh val) (neg : D < 0) (plus : 0 < val.a)
    (divides : 4 * val.a ∣ val.b * val.b - D) :
    (∃ t, vdf.hwProofAddValue D val = .done (0, t)) ↔ vdf.Room (vdf.totalIters val) := by
  have accepted := addValue_accepts fresh neg plus.ne' divides
  obtain ⟨f, form⟩ := fromAbd_mod plus neg divides
  simp only [handleValue, form, Exec.done_bind, Exec.pure_eq] at accepted
  split at accepted
  · next multiple =>
    rw [ends_iff accepted (.inl rfl), handled_marking _ rfl (by dsimp only [setValue]; omega)]
    exact ⟨fun both => ⟨fun _ => both.1, both.2⟩, fun room => ⟨room.marked multiple, room.queued⟩⟩
  · next between =>
    rw [ends_iff accepted (.inr rfl), handled_addingWork _ rfl (by dsimp only; omega)]
    exact ⟨fun queued => ⟨fun multiple => absurd multiple between, queued⟩, fun room => room.queued⟩

/-- The filter is exact, and a refused value leaves the proof data as they were, unless `a` is negative and divides;
a valid value also needs its place in the tables. -/
theorem hwProofAddValue_exact (D : ℤ) (vdf : VdfState) (val : VdfValue) (neg : D < 0) (fresh : vdf.Fresh val) :
    (∃ r t, vdf.hwProofAddValue D val = .done (r, t) ∧
        (r = 0 ↔ 0 < val.a ∧ 4 * val.a ∣ val.b * val.b - D) ∧ (r = -1 → Unchanged vdf t)) ↔
      ¬(val.a < 0 ∧ 4 * val.a ∣ val.b * val.b - D) ∧
        (0 < val.a ∧ 4 * val.a ∣ val.b * val.b - D → vdf.Room (vdf.totalIters val)) := by
  constructor
  · rintro ⟨r, t, run, zero, -⟩
    constructor
    · rintro ⟨minus, divides⟩
      have accepted := negative_accepted fresh neg minus divides run
      have := (zero.mp accepted).1
      omega
    · intro valid
      rw [zero.mpr valid] at run
      exact (positive_accepted fresh neg valid.1 valid.2).mp ⟨t, run⟩
  · rintro ⟨notNegative, room⟩
    by_cases valid : 0 < val.a ∧ 4 * val.a ∣ val.b * val.b - D
    · obtain ⟨t, run⟩ := (positive_accepted fresh neg valid.1 valid.2).mpr (room valid)
      exact ⟨0, t, run, by simp [valid], by simp⟩
    · have bad : val.a = 0 ∨ ¬4 * val.a ∣ val.b * val.b - D := by
        by_contra good
        push Not at good
        have sign : ¬val.a < 0 := fun minus => notNegative ⟨minus, good.2⟩
        exact valid ⟨by omega, good.2⟩
      obtain ⟨t, run, same⟩ := refused fresh neg bad
      exact ⟨-1, t, run, by simp [valid], fun _ => same⟩

theorem exists_init : ∃ s, initVdfState (-23) 8000 4 2 1 = .done s ∧ s.itersOffset = 0 ∧
    s.lastVal = ⟨0, 2, 1⟩ ∧ s.targetIters = 8000 := by
  have form : Form.fromAbd 2 1 (-23) = .done ⟨2, 1, 3⟩ := by decide +kernel
  simp only [initVdfState, form]
  exact ⟨_, rfl, rfl, rfl, rfl⟩

theorem hwProofAddValue_exact_init : ∃ s, initVdfState (-23) 8000 4 2 1 = .done s ∧
    ((∃ r t, s.hwProofAddValue (-23) ⟨1, 3, 1⟩ = .done (r, t) ∧
        (r = 0 ↔ (0 : ℤ) < 3 ∧ (4 * 3 : ℤ) ∣ 1 * 1 - -23) ∧ (r = -1 → Unchanged s t)) ↔
      ¬((3 : ℤ) < 0 ∧ (4 * 3 : ℤ) ∣ 1 * 1 - -23) ∧
        ((0 : ℤ) < 3 ∧ (4 * 3 : ℤ) ∣ 1 * 1 - -23 → s.Room (s.totalIters ⟨1, 3, 1⟩))) := by
  obtain ⟨s, made, offset, last, -⟩ := exists_init
  exact ⟨s, made, hwProofAddValue_exact (-23) s ⟨1, 3, 1⟩ (by norm_num) (by simp [Fresh, totalIters, offset, last])⟩

/-- Between two multiples of the interval nothing stops a negative `a`, and it becomes the last value. -/
theorem negative_returns (fresh : vdf.Fresh val) (neg : D < 0) (minus : val.a < 0)
    (divides : 4 * val.a ∣ val.b * val.b - D)
    (between : vdf.totalIters val ≠ vdf.totalIters val / HW_VDF_VALUE_INTERVAL * HW_VDF_VALUE_INTERVAL)
    (room : vdf.Room (vdf.totalIters val)) : ∃ t, vdf.hwProofAddValue D val = .done (0, t) := by
  have accepted := addValue_accepts fresh neg minus.ne divides
  simp only [handleValue, if_neg between] at accepted
  rw [ends_iff accepted (.inr rfl), handled_addingWork _ rfl (by dsimp only; omega)]
  exact room.queued

theorem hwProofAddValue_negative : ∃ s t, initVdfState (-23) 8000 4 2 1 = .done s ∧ s.Fresh ⟨1, -2, 1⟩ ∧
    s.hwProofAddValue (-23) ⟨1, -2, 1⟩ = .done (0, t) ∧ ¬(0 : ℤ) < -2 ∧
    Form.fromAbd (-2) 1 (-23) = .thrown "Invalid form. Positive a" := by
  obtain ⟨s, made, offset, last, target⟩ := exists_init
  have fresh : s.Fresh ⟨1, -2, 1⟩ := by simp [Fresh, totalIters, offset, last]
  have total : s.totalIters ⟨1, -2, 1⟩ = 1 := by simp [totalIters, offset]
  have room : s.Room (s.totalIters ⟨1, -2, 1⟩) := by
    rw [total]
    exact ⟨fun multiple => absurd multiple (by decide), fun asked => absurd asked.1 (by decide)⟩
  obtain ⟨t, run⟩ := negative_returns (D := -23) fresh (by norm_num) (by norm_num) (by norm_num)
    (by rw [total]; decide) room
  exact ⟨s, t, made, fresh, run, by norm_num, rfl⟩

end VdfState

end ChiaVdf
