import ChiaVdf.SquareThreads

/-! One thread may run the phases of both one after the other: no phase waits for more than the other side
has done by then. -/
namespace ChiaVdf
namespace SquareThreads

open Handover

section Actions

variable {α : Type} {bound n : ℕ} {t : Side}

theorem fence_still {value : ℕ} (le : value ≤ bound) : (fence value).Still bound :=
  Code.still_fence le (Code.still_ret ())

theorem fetch_still (field : Field) : (fetch t n field).Still bound :=
  Code.still_read fun x => Code.still_ret x

theorem put_still (field : Field) (x : Value field) : (put n field x).Still bound :=
  Code.still_write (Code.still_ret ())

theorem negateIf_still (condition : Bool) (x : Number) : (negateIf t n condition x).Still bound := by
  unfold negateIf
  split
  · exact .bind (fetch_still _) fun v => put_still _ _
  · exact Code.still_ret ()

theorem divideC_still {p : Setting} (i j : Bool) : (divideC p n t i j).Still bound := by
  refine .bind (fetch_still _) fun b => .bind (put_still _ _) fun _ => ?_
  refine .bind (fetch_still _) fun a => .bind (put_still _ _) fun _ => ?_
  refine .bind (fetch_still _) fun bB => .bind (put_still _ _) fun _ => ?_
  refine .bind (fetch_still _) fun bBD => .bind (fetch_still _) fun a4 => ?_
  exact .bind (put_still _ _) fun _ => put_still _ _

theorem startU_still (j : Bool) : (startU n j).Still bound := by
  refine .bind (fetch_still _) fun higher0 => .bind (fetch_still _) fun higher1 => ?_
  refine .bind (put_still _ _) fun _ => .bind (put_still _ _) fun _ => .bind (fetch_still _) fun b => ?_
  exact .bind (negateIf_still _ _) fun _ => negateIf_still _ _

theorem finishK_still (i k : Bool) : (finishK n i k).Still bound := by
  refine .bind (fetch_still _) fun U0 => .bind (fetch_still _) fun c => .bind (put_still _ _) fun _ => ?_
  refine .bind (negateIf_still _ _) fun _ => .bind (fetch_still _) fun x => ?_
  exact .bind (fetch_still _) fun a => put_still _ _

theorem matrixMultiply_still {g : Gcd} (entry : GcdUvEntry) (index : Bool) :
    (matrixMultiply g n entry index).Still bound := by
  refine .bind (fetch_still _) fun in0 => .bind (fetch_still _) fun in1 => ?_
  exact .bind (put_still _ _) fun _ => put_still _ _

theorem applyEntry_still {g : Gcd} {i : ℕ} (index : Bool) : (applyEntry g n i index).Still bound := by
  unfold applyEntry
  split
  · exact Code.still_ret index
  · refine .bind (fetch_still _) fun entry => .bind (matrixMultiply_still _ index) fun _ => ?_
    exact Code.still_ret (!index)

/-- The loop waits for one entry after the other. -/
theorem applyEntries_still {g : Gcd} {left i : ℕ} (index : Bool)
    (le : counterStart n + g.delta + i + left ≤ bound) : (applyEntries g n left i index).Still bound := by
  induction left generalizing i index with
  | zero => exact Code.still_fail
  | succ left ih =>
    have next (index : Bool) := ih (i := i + 1) index (by omega)
    refine .bind (fence_still (by omega)) fun _ => .bind (applyEntry_still index) fun index => ?_
    refine .bind (fetch_still _) fun entry => ?_
    split
    · exact Code.still_ret index
    · exact next index

/-- The counter behind a gcd does not depend on how it got there. -/
theorem publish_passes {g : Gcd} {stuck : Bool} {i counter : ℕ} {entry : GcdUvEntry}
    {steps : List (GcdUvEntry × ℤ × ℤ)} :
    (publish g n stuck i entry steps).Passes bound (fun _ => True) counter := by
  induction steps generalizing i entry counter with
  | nil =>
    change Code.Passes _ _ (if stuck = true then giveUp else return) _
    split <;> trivial
  | cons step steps ih =>
    change Code.Passes _ _ (if i ≥ gcdMaxIterations then giveUp else _) _
    split
    · trivial
    · exact ih

theorem gcdUnsigned_passes {p : Setting} {g : Gcd} {threshold : ℤ} {counter : ℕ} {ends : ℕ → Prop}
    (ended : ends (counterStart n + g.delta + gcdNumCounter)) :
    (gcdUnsigned g n p threshold).Passes bound ends counter := by
  intro x y
  change Code.Passes _ _ (if _ then giveUp else _) _
  split
  · trivial
  · change Code.Passes _ _ (publish _ _ _ _ _ _ >>= _) _
    exact Code.Passes.bind (publish_passes.mono fun _ _ _ _ _ _ _ => ended)

end Actions

section Phases

variable (p : Setting) {bound n : ℕ}

theorem phase0Master_passes {counter : ℕ} (le : 87 * n ≤ bound) :
    (phase0Master p n).Passes bound (· = 87 * n + 41) counter := by
  refine ⟨le, fun i j a b => ?_⟩
  change Code.Passes _ _ (if _ then giveUp else _) _
  split
  · trivial
  · exact fun _ _ _ _ => gcdUnsigned_passes rfl

theorem phase0Slave_still (le : 87 * n + 41 ≤ bound) : (phase0Slave p n).Still bound := by
  have first : 87 * n ≤ bound := by omega
  refine .bind (fence_still first) fun _ => .bind (fetch_still _) fun i => .bind (fetch_still _) fun j => ?_
  refine .bind (divideC_still i j) fun _ => .bind (fetch_still _) fun remainder => ?_
  split
  · exact Code.still_fail
  refine .bind (fetch_still _) fun a => .bind (fetch_still _) fun c => ?_
  split
  · exact Code.still_fail
  refine .bind (startU_still j) fun _ => .bind (applyEntries_still (g := .gcd10) false le) fun k => ?_
  exact .bind (finishK_still i k) fun _ => put_still _ _

theorem phase1Master_still (le : 87 * n + 83 ≤ bound) : (phase1Master n).Still bound := by
  have first : 87 * n + 42 ≤ bound := by omega
  refine .bind (fence_still first) fun _ => .bind (put_still _ _) fun _ => .bind (put_still _ _) fun _ => ?_
  exact .bind (applyEntries_still (g := .gcdST) false le) fun v => put_still _ _

theorem phase1Slave_passes {counter : ℕ} (le : 87 * n ≤ bound) :
    (phase1Slave p n).Passes bound (· = 87 * n + 83) counter :=
  ⟨le, fun _ _ _ _ => gcdUnsigned_passes rfl⟩

theorem loadSNegative_still : (loadSNegative n).Still bound :=
  .bind (fetch_still _) fun _ => .bind (fetch_still _) fun v1 => Code.still_ret (SquareState.sNegative v1)

theorem phase2Master_still (le : 87 * n + 84 ≤ bound) : (phase2Master p n).Still bound := by
  have first : 87 * n + 42 ≤ bound := by omega
  refine .bind (fence_still first) fun _ => .bind (fetch_still _) fun i => .bind (fetch_still _) fun j => ?_
  refine .bind (fetch_still _) fun v => .bind loadSNegative_still fun sNegative => ?_
  refine .bind (fetch_still _) fun c => .bind (fetch_still _) fun v1 => .bind (put_still _ _) fun _ => ?_
  refine .bind (fence_still le) fun _ => .bind (fetch_still _) fun last => ?_
  refine .bind (fetch_still _) fun b => .bind (fetch_still _) fun t => .bind (put_still _ _) fun _ => ?_
  refine .bind (fetch_still _) fun bT => .bind (fetch_still _) fun cV1 => .bind (put_still _ _) fun _ => ?_
  refine .bind (fetch_still _) fun bTCV1 => .bind (fetch_still _) fun a => .bind (put_still _ _) fun _ => ?_
  refine .bind (negateIf_still _ _) fun _ => .bind (fetch_still _) fun v1 => ?_
  exact .bind (fetch_still _) fun h => put_still _ _

theorem phase2Slave_still (le : 87 * n + 84 ≤ bound) : (phase2Slave n).Still bound := by
  have first : 87 * n + 42 ≤ bound := by omega
  refine .bind (fence_still first) fun _ => .bind (fetch_still _) fun last => ?_
  refine .bind (fetch_still _) fun t => .bind (put_still _ _) fun _ => .bind (fence_still le) fun _ => ?_
  refine .bind (fetch_still _) fun u => .bind loadSNegative_still fun sNegative => ?_
  refine .bind (negateIf_still _ _) fun _ => ?_
  exact .bind (fetch_still _) fun v0 => put_still _ _

theorem phase3Master_still (le : 87 * n + 85 ≤ bound) : (phase3Master n).Still bound := by
  refine .bind (fence_still le) fun _ => .bind (fetch_still _) fun i => ?_
  refine .bind (fetch_still _) fun tTS => .bind (fetch_still _) fun v1H => .bind (put_still _ _) fun _ => ?_
  exact .bind (fetch_still _) fun A => put_still _ _

theorem phase3Slave_still (le : 87 * n + 84 ≤ bound) : (phase3Slave p n).Still bound := by
  refine .bind (fence_still le) fun _ => .bind (fetch_still _) fun i => .bind (fetch_still _) fun j => ?_
  refine .bind (fetch_still _) fun last => .bind (fetch_still _) fun u => .bind (fetch_still _) fun v => ?_
  refine .bind loadSNegative_still fun sNegative => .bind (fetch_still _) fun t => ?_
  refine .bind (fetch_still _) fun v0 => .bind (put_still _ _) fun _ => ?_
  refine .bind (negateIf_still _ _) fun _ => .bind (fetch_still _) fun a => ?_
  refine .bind (fetch_still _) fun sTV0 => .bind (put_still _ _) fun _ => .bind (fetch_still _) fun t => ?_
  refine .bind (put_still _ _) fun _ => .bind (fetch_still _) fun t2 => .bind (fetch_still _) fun aSTV0 => ?_
  refine .bind (put_still _ _) fun _ => .bind (fetch_still _) fun t2ASTV0 => .bind (fetch_still _) fun v1 => ?_
  refine .bind (put_still _ _) fun _ => .bind (fetch_still _) fun b => .bind (fetch_still _) fun quotient => ?_
  exact .bind (put_still _ _) fun _ => negateIf_still _ _

theorem phase4Master_still (le : 87 * n + 86 ≤ bound) : (phase4Master n).Still bound := by
  have first : 87 * n + 85 ≤ bound := by omega
  refine .bind (fence_still first) fun _ => .bind (fetch_still _) fun i => .bind (fetch_still _) fun j => ?_
  refine .bind (fetch_still _) fun last => .bind (fetch_still _) fun aEnd => ?_
  split
  · exact Code.still_fail
  refine .bind (fetch_still _) fun last => .bind (fetch_still _) fun bEnd => ?_
  split
  · exact Code.still_fail
  refine .bind (fetch_still _) fun v02 => .bind (fetch_still _) fun h => .bind (put_still _ _) fun _ => ?_
  refine .bind (fence_still le) fun _ => .bind (fetch_still _) fun e => .bind (fetch_still _) fun v02H => ?_
  refine .bind (put_still _ _) fun _ => .bind (fetch_still _) fun f => .bind (fetch_still _) fun A2 => ?_
  refine .bind (put_still _ _) fun _ => .bind (fetch_still _) fun A => .bind (put_still _ _) fun _ => ?_
  refine .bind (fetch_still _) fun B => .bind (fetch_still _) fun A => .bind (put_still _ _) fun _ => ?_
  refine .bind (fetch_still _) fun i => .bind (put_still _ _) fun _ => ?_
  exact .bind (fetch_still _) fun v => put_still _ _

theorem onIteration_still (t : Side) : (onIteration p t n).Still bound := by
  unfold onIteration
  split
  · refine .bind ?_ fun _ => Code.still_ret _
    refine .bind (fetch_still _) fun v => .bind (fetch_still _) fun i => .bind (fetch_still _) fun j => ?_
    refine .bind (divideC_still i j) fun _ => .bind (fetch_still _) fun remainder => ?_
    refine .bind (fetch_still _) fun a => .bind (fetch_still _) fun c => ?_
    split
    · exact Code.still_ret _
    · refine .bind (fetch_still _) fun a => .bind (fetch_still _) fun b => ?_
      exact .bind (fetch_still _) fun c => Code.still_ret (some (a, b, c, v))
  · exact Code.still_ret _

/-- The thread that goes first, and its counter behind the phase. -/
def first (phase : ℕ) : Side := if singleThreadMasterFirst phase then .master else .slave

def firstEnd : ℕ → ℕ
  | 0 => 41
  | 1 => 83
  | phase => getCounterStart phase

theorem first_passes (phase : ℕ) : (callPhase p n phase (first phase)).Passes
    (87 * n + getCounterStart phase) (· = 87 * n + firstEnd phase) (87 * n + getCounterStart phase) := by
  match phase with
  | 0 => exact phase0Master_passes p le_rfl
  | 1 => exact phase1Slave_passes p (Nat.le_add_right _ _)
  | 2 => exact phase2Master_still p le_rfl _ _ rfl
  | 3 => exact phase3Master_still le_rfl _ _ rfl
  | _ + 4 => exact phase4Master_still le_rfl _ _ rfl

theorem second_passes (phase : ℕ) : (callPhase p n phase (first phase).other).Passes
    (87 * n + firstEnd phase) (fun _ => True) (87 * n + getCounterStart phase) := by
  match phase with
  | 0 => exact phase0Slave_still p le_rfl _ _ trivial
  | 1 => exact phase1Master_still le_rfl _ _ trivial
  | 2 => exact phase2Slave_still le_rfl _ _ trivial
  | 3 => exact phase3Slave_still p (Nat.le_succ _) _ _ trivial
  | _ + 4 => exact Code.still_ret () _ _ trivial

end Phases

end SquareThreads
end ChiaVdf
