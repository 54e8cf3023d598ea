import ChiaVdf.Exec

/-! Computations whose loops have no bound of their own, as families indexed by the number of turns
that each of their loops may take. -/
namespace ChiaVdf.Exec

variable {α β : Type} {P P' : α → Prop} {Q : β → Prop}

/-- A value with `P`, or a loop that has used up its turns: no exception and no fault. -/
def Within (P : α → Prop) : Exec α → Prop
  | done a => P a
  | diverged => True
  | _ => False

/-- With enough turns a computation returns a value with `P`. -/
def Returns (P : α → Prop) (x : ℕ → Exec α) : Prop :=
  ∃ a enough, (∀ turns ≥ enough, x turns = done a) ∧ P a

/-- With enough turns a computation returns a value with `P` or throws. -/
def Settles (P : α → Prop) (x : ℕ → Exec α) : Prop :=
  ∃ (y : Exec α) (enough : ℕ), (∀ turns ≥ enough, x turns = y) ∧ y.Safe ∧ ∀ a, y = done a → P a

section Within

theorem Within.bind {x : Exec α} {next : α → Exec β} (first : Within P x)
    (rest : ∀ a, P a → Within Q (next a)) : Within Q (x >>= next) := by
  cases x with
  | done a => exact rest a first
  | diverged => trivial
  | thrown => exact first.elim
  | fault => exact first.elim

theorem Within.imp {x : Exec α} (within : Within P x) (weaker : ∀ a, P a → P' a) : Within P' x := by
  cases x with
  | done a => exact weaker a within
  | diverged => trivial
  | thrown => exact within.elim
  | fault => exact within.elim

theorem Within.value {x : Exec α} {a : α} (within : Within P x) (run : x = done a) : P a := by
  subst run
  exact within

theorem Within.done {x : Exec α} (within : Within P x) (ends : x ≠ diverged) : ∃ a, x = .done a ∧ P a := by
  cases x with
  | done a => exact ⟨a, rfl, within⟩
  | diverged => exact absurd rfl ends
  | thrown => exact within.elim
  | fault => exact within.elim

end Within

section Returns

theorem Returns.const {a : α} (value : P a) : Returns P fun _ => done a := ⟨a, 0, fun _ _ => rfl, value⟩

theorem Returns.bind {x : ℕ → Exec α} {next : α → ℕ → Exec β} (first : Returns P x)
    (rest : ∀ a, P a → Returns Q (next a)) : Returns Q fun turns => x turns >>= fun a => next a turns := by
  obtain ⟨a, enough, run, value⟩ := first
  obtain ⟨b, enough', run', value'⟩ := rest a value
  refine ⟨b, max enough enough', fun turns le => ?_, value'⟩
  dsimp only
  rw [run turns (le_of_max_le_left le), done_bind, run' turns (le_of_max_le_right le)]

/-- It is enough to return once, where more turns change nothing. -/
theorem Returns.of_extends {x : ℕ → Exec α} {turns : ℕ} {a : α}
    (mono : ∀ turns' ≥ turns, Extends (x turns) (x turns')) (run : x turns = done a) (value : P a) :
    Returns P x :=
  ⟨a, turns, fun turns' le => mono turns' le a run, value⟩

end Returns

section Settles

/-- What comes first in a computation that comes back does so too. -/
theorem Safe.first {x : Exec α} {next : α → Exec β} (safe : (x >>= next).Safe) : x.Safe := by
  cases x with
  | done => trivial
  | thrown => trivial
  | fault => exact safe
  | diverged => exact safe

theorem Returns.settles {x : ℕ → Exec α} (returns : Returns P x) : Settles P x := by
  obtain ⟨a, enough, run, value⟩ := returns
  exact ⟨done a, enough, run, trivial, fun b same => done.inj same ▸ value⟩

theorem Settles.bind {x : ℕ → Exec α} {next : α → ℕ → Exec β} (first : Settles P x)
    (rest : ∀ a turns, x turns = done a → P a → Settles Q (next a)) :
    Settles Q fun turns => x turns >>= fun a => next a turns := by
  obtain ⟨y, enough, same, safe, value⟩ := first
  cases y with
  | done a =>
    obtain ⟨z, enough', same', safe', value'⟩ := rest a enough (same enough le_rfl) (value a rfl)
    refine ⟨z, max enough enough', fun turns le => ?_, safe', value'⟩
    dsimp only
    rw [same turns (le_of_max_le_left le), done_bind, same' turns (le_of_max_le_right le)]
  | thrown what =>
    refine ⟨thrown what, enough, fun turns le => ?_, trivial, fun a run => nomatch run⟩
    dsimp only
    rw [same turns le, thrown_bind]
  | fault => exact safe.elim
  | diverged => exact safe.elim

theorem Settles.const {x : Exec α} (safe : x.Safe) (value : ∀ a, x = done a → P a) :
    Settles P fun _ => x := ⟨x, 0, fun _ _ => rfl, safe, value⟩

theorem Settles.done {a : α} (value : P a) : Settles P fun _ => done a := (Returns.const value).settles

end Settles

section Below

variable {x y z : Exec α} {a : α} {next next' : α → Exec β}

/-- `x` is `y`, unless it has used up its turns. -/
def Below (x y : Exec α) : Prop := x = diverged ∨ x = y

@[refl] theorem Below.refl (x : Exec α) : Below x x := .inr rfl

theorem Below.bind (first : Below x y) (rest : ∀ a, Below (next a) (next' a)) :
    Below (x >>= next) (y >>= next') := by
  rcases first with rfl | rfl
  · exact .inl rfl
  · cases x with
    | done a => exact rest a
    | thrown => exact .inr rfl
    | fault => exact .inr rfl
    | diverged => exact .inl rfl

theorem Below.first (first : Below x y) : Below (x >>= next) (y >>= next) := first.bind fun _ => .refl _

theorem Below.rest (rest : ∀ a, Below (next a) (next' a)) : Below (x >>= next) (x >>= next') :=
  (Below.refl x).bind rest

theorem Below.forLoop {n : ℕ} {body body' : ℕ → α → Exec α} (init : α)
    (step : ∀ i a, Below (body i a) (body' i a)) :
    Below (Exec.forLoop n body init) (Exec.forLoop n body' init) := by
  induction n with
  | zero => exact .refl _
  | succ n ih => exact ih.bind (step n)

theorem Below.done (below : Below x y) (run : x = done a) : y = .done a := by
  rcases below with rfl | rfl
  · cases run
  · exact run

/-- Where `y` returns a value, `x` returns no other. -/
theorem Below.within (below : Below x y) (run : y = .done a) (value : P a) : Within P x := by
  rcases below with rfl | rfl
  · trivial
  · rw [run]
    exact value

/-- `y` where `x` does not come back. -/
def orElse : Exec α → Exec α → Exec α
  | diverged, y => y
  | x, _ => x

theorem below_orElse (x y : Exec α) : Below x (x.orElse y) := by
  cases x with
  | diverged => exact .inl rfl
  | _ => exact .inr rfl

theorem Within.orElse (within : Within P x) (run : y = .done a) (value : P a) :
    ∃ b, x.orElse y = .done b ∧ P b := by
  cases x with
  | done b => exact ⟨b, rfl, within⟩
  | diverged => exact ⟨a, run, value⟩
  | thrown => exact within.elim
  | fault => exact within.elim

end Below

section Stepwise

/-- A relation between a computation in so many turns and one without a bound on them, which holds if it holds step by
step. -/
structure Stepwise (R : ∀ γ : Type, (ℕ → Exec γ) → Exec γ → Prop) : Prop where
  const : ∀ {γ : Type} (y : Exec γ), R γ (fun _ => y) y
  bind : ∀ {γ δ : Type} {x : ℕ → Exec γ} {y : Exec γ} {next : ℕ → γ → Exec δ} {next' : γ → Exec δ}, R γ x y →
    (∀ c, R δ (fun turns => next turns c) (next' c)) → R δ (fun turns => x turns >>= next turns) (y >>= next')

namespace Stepwise

variable {R : ∀ γ : Type, (ℕ → Exec γ) → Exec γ → Prop} {x x' : ℕ → Exec α} {y y' : Exec α}

theorem first (stepwise : Stepwise R) {next : α → Exec β} (first : R α x y) :
    R β (fun turns => x turns >>= next) (y >>= next) := stepwise.bind first fun _ => stepwise.const _

theorem rest (stepwise : Stepwise R) {next : ℕ → α → Exec β} {next' : α → Exec β}
    (rest : ∀ a, R β (fun turns => next turns a) (next' a)) :
    R β (fun turns => y >>= next turns) (y >>= next') := stepwise.bind (stepwise.const y) rest

theorem ite {c : Prop} [Decidable c] (yes : R α x y) (no : R α x' y') :
    R α (fun turns => if c then x turns else x' turns) (if c then y else y') := by
  by_cases holds : c
  · simp only [if_pos holds]
    exact yes
  · simp only [if_neg holds]
    exact no

theorem forLoop (stepwise : Stepwise R) {n : ℕ} {body : ℕ → ℕ → α → Exec α} {body' : ℕ → α → Exec α} (init : α)
    (step : ∀ i a, R α (fun turns => body turns i a) (body' i a)) :
    R α (fun turns => Exec.forLoop n (body turns) init) (Exec.forLoop n body' init) := by
  induction n with
  | zero => exact stepwise.const _
  | succ n ih => exact stepwise.bind ih (step n)

end Stepwise

theorem below_stepwise : Stepwise fun _ x y => ∀ turns, Below (x turns) y where
  const y _ := .refl y
  bind first rest turns := (first turns).bind fun a => rest a turns

/-- With enough turns `x` returns what `y` returns. -/
def TendsTo (x : ℕ → Exec α) (y : Exec α) : Prop :=
  ∀ a, y = done a → ∃ enough, ∀ turns ≥ enough, x turns = done a

theorem tendsTo_stepwise : Stepwise fun _ => TendsTo where
  const y a run := ⟨0, fun _ _ => run⟩
  bind {_ _ x y next next'} first rest := by
    intro b run
    obtain ⟨a, value, run⟩ := bind_eq_done.mp run
    obtain ⟨enough, same⟩ := first a value
    obtain ⟨enough', same'⟩ := rest a b run
    refine ⟨max enough enough', fun turns le => ?_⟩
    have second : next turns a = done b := same' turns (le_of_max_le_right le)
    dsimp only
    rw [same turns (le_of_max_le_left le), done_bind, second]

end Stepwise

end ChiaVdf.Exec
