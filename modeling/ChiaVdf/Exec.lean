import Mathlib.Tactic

/-! Outcomes of executing C++ code: a value, an exception, a fault that ends the process,
or a loop that was still turning when its budget of turns ran out. -/
namespace ChiaVdf

inductive Fault where
  | divideByZero
  | evenRootOfNegative
  | inexactDivision
  | outOfBounds
  | assertion
  | overflow
  deriving DecidableEq, Repr

inductive Exec (α : Type) where
  | done (value : α)
  | thrown (what : String)
  | fault (reason : Fault)
  | diverged
  deriving DecidableEq, Repr

namespace Exec

variable {α β γ : Type}

def bind : Exec α → (α → Exec β) → Exec β
  | done value, next => next value
  | thrown what, _ => thrown what
  | fault reason, _ => fault reason
  | diverged, _ => diverged

instance : Monad Exec where
  pure := done
  bind := bind

@[simp] theorem pure_eq (value : α) : (pure value : Exec α) = done value := rfl
@[simp] theorem done_bind (value : α) (next : α → Exec β) : (done value >>= next) = next value := rfl
@[simp] theorem thrown_bind (what : String) (next : α → Exec β) :
    (thrown what >>= next) = thrown what := rfl
@[simp] theorem fault_bind (reason : Fault) (next : α → Exec β) :
    (fault reason >>= next) = fault reason := rfl
@[simp] theorem diverged_bind (next : α → Exec β) : (diverged >>= next) = diverged := rfl

instance : LawfulMonad Exec := LawfulMonad.mk' Exec
  (by intro α x; cases x <;> rfl) (by intros; rfl) (by intro α β γ x f g; cases x <;> rfl)

/-- A computation ends normally only if each of its parts does. -/
theorem bind_eq_done {x : Exec α} {next : α → Exec β} {b : β} :
    (x >>= next) = done b ↔ ∃ a, x = done a ∧ next a = done b := by
  cases x <;> simp

theorem bind_eq_diverged {x : Exec α} {next : α → Exec β} :
    (x >>= next) = diverged ↔ x = diverged ∨ ∃ a, x = done a ∧ next a = diverged := by
  cases x <;> simp

/-- Neither a fault nor an endless loop: a value is returned or an exception thrown. -/
def Safe : Exec α → Prop
  | done _ => True
  | thrown _ => True
  | _ => False

@[simp] theorem safe_done (value : α) : (done value).Safe := trivial
@[simp] theorem safe_thrown (what : String) : (thrown what : Exec α).Safe := trivial
@[simp] theorem not_safe_fault (reason : Fault) : ¬(fault reason : Exec α).Safe := id
@[simp] theorem not_safe_diverged : ¬(diverged : Exec α).Safe := id

theorem Safe.bind {x : Exec α} {next : α → Exec β} (safe : x.Safe)
    (rest : ∀ a, x = done a → (next a).Safe) : (x >>= next).Safe := by
  cases x with
  | done a => exact rest a rfl
  | thrown => trivial
  | fault => exact safe
  | diverged => exact safe

instance : DecidablePred (@Safe α) := fun x => by cases x <;> unfold Safe <;> infer_instance

/-- `for (i = 0; i < n; i++)` on the state `init`. -/
def forLoop (n : ℕ) (body : ℕ → α → Exec α) (init : α) : Exec α :=
  match n with
  | 0 => done init
  | n + 1 => forLoop n body init >>= body n

/-- The rule for a loop whose turns all end: the invariant holds after the last one. -/
theorem forLoop_done {n : ℕ} {body : ℕ → α → Exec α} {init : α} (Inv : ℕ → α → Prop)
    (start : Inv 0 init)
    (step : ∀ i < n, ∀ a, Inv i a → ∃ b, body i a = done b ∧ Inv (i + 1) b) :
    ∃ b, forLoop n body init = done b ∧ Inv n b := by
  induction n with
  | zero => exact ⟨init, rfl, start⟩
  | succ n ih =>
    obtain ⟨a, run, inv⟩ := ih fun i lt => step i (by omega)
    obtain ⟨b, last, inv'⟩ := step n (Nat.lt_succ_self n) a inv
    exact ⟨b, by rw [forLoop, run, done_bind, last], inv'⟩

/-- A loop does not get past a fault. -/
theorem forLoop_fault {n n' : ℕ} {body : ℕ → α → Exec α} {init : α} {reason : Fault} (le : n ≤ n')
    (run : forLoop n body init = fault reason) : forLoop n' body init = fault reason := by
  induction n', le using Nat.le_induction with
  | base => exact run
  | succ n' _ ih => rw [forLoop, ih, fault_bind]

/-- Two loops agree if their bodies do wherever the loop can be. -/
theorem forLoop_congr {n : ℕ} {body body' : ℕ → α → Exec α} {init : α} (Inv : α → Prop)
    (start : Inv init) (step : ∀ i < n, ∀ a b, Inv a → body' i a = done b → Inv b)
    (same : ∀ i < n, ∀ a, Inv a → body i a = body' i a) :
    forLoop n body init = forLoop n body' init ∧ ∀ b, forLoop n body' init = done b → Inv b := by
  induction n with
  | zero => exact ⟨rfl, fun b run => done.inj run ▸ start⟩
  | succ n ih =>
    obtain ⟨eq, inv⟩ := ih (fun i lt => step i (by omega)) (fun i lt => same i (by omega))
    rw [forLoop, forLoop, eq]
    cases run : forLoop n body' init with
    | done a =>
      exact ⟨same n (Nat.lt_succ_self n) a (inv a run),
        fun b last => step n (Nat.lt_succ_self n) a b (inv a run) last⟩
    | _ => exact ⟨rfl, fun b last => nomatch last⟩

/-- `y` ends with the same value wherever `x` ends with one. -/
def Extends (x y : Exec α) : Prop := ∀ a, x = done a → y = done a

@[refl] theorem Extends.refl (x : Exec α) : Extends x x := fun _ run => run

theorem Extends.bind {x y : Exec α} {next next' : α → Exec β} (first : Extends x y)
    (rest : ∀ a, Extends (next a) (next' a)) : Extends (x >>= next) (y >>= next') := by
  intro b run
  obtain ⟨a, runA, runB⟩ := bind_eq_done.mp run
  exact bind_eq_done.mpr ⟨a, first a runA, rest a b runB⟩

theorem Extends.forLoop {n : ℕ} {body body' : ℕ → α → Exec α} (init : α)
    (step : ∀ i a, Extends (body i a) (body' i a)) :
    Extends (forLoop n body init) (Exec.forLoop n body' init) := by
  induction n with
  | zero => exact Extends.refl _
  | succ n ih => exact ih.bind (step n)

end Exec

end ChiaVdf
