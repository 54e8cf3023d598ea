import ChiaVdf.SquareThreads

/-! What the fields of an iteration are meant to hold, and when they are handed from one thread to the
other: the discipline that the phases keep to. -/
namespace ChiaVdf
namespace SquareThreads

open Handover

/-- What an iteration starts from. -/
structure Start where
  a : ℤ
  b : ℤ
  bHigher : Bool

/-- The matrices one after the other. -/
def product (steps : List (GcdUvEntry × ℤ × ℤ)) (x : ℤ × ℤ) : ℤ × ℤ :=
  steps.foldl (fun x step => step.1.matrixMultiply x) x

/-- The numbers behind the last of some iterations of the gcd. -/
def numbersAfter (steps : List (GcdUvEntry × ℤ × ℤ)) (x : ℤ × ℤ) : ℤ × ℤ :=
  steps.foldl (fun _ step => step.2) x

namespace GcdSteps

/-- The gcd ends, and all of its entries have a place. -/
def Finishes (r : GcdSteps) : Prop := r.stuck = false ∧ r.steps.length ≤ gcdMaxIterations

instance (r : GcdSteps) : Decidable r.Finishes := inferInstanceAs (Decidable (_ ∧ _))

/-- The matrix of entry `i`. -/
def matrixAt (r : GcdSteps) : ℕ → Option GcdUvEntry
  | 0 => some ⟨0, 0, 0, 0, 0⟩
  | i + 1 => r.steps[i]?.map Prod.fst

theorem length_of_matrixAt {r : GcdSteps} {i : ℕ} {entry : GcdUvEntry} (at_ : r.matrixAt i = some entry) :
    i ≤ r.steps.length := by
  cases i with
  | zero => exact Nat.zero_le _
  | succ i =>
    obtain ⟨step, there, -⟩ := Option.map_eq_some_iff.mp at_
    exact (List.getElem?_eq_some_iff.mp there).1

/-- The slot of the last numbers, and of the last product. -/
def lastSlot (r : GcdSteps) : Bool := r.steps.length.bodd

end GcdSteps

namespace Start

variable (p : Setting) (s : Start)

def bBD : ℤ := s.b * s.b - p.D

def c : ℤ := (s.bBD p).fdiv (s.a * 4)

def cRemainder : ℤ := (s.bBD p).fmod (s.a * 4)

/-- `U0` and `U1` before the first matrix. -/
def startU : ℤ × ℤ :=
  let U : ℤ × ℤ := if s.bHigher then (1, 0) else (0, 1)
  if s.b < 0 then (-U.1, -U.2) else U

def operands10 : ℤ × ℤ := if s.bHigher then (s.b, s.a) else (s.a, s.b)

def gcd10 : GcdSteps := p.gcd |s.operands10.1| |s.operands10.2| 0

def k : ℤ := -((product (s.gcd10 p).steps s.startU).1 * s.c p) % s.a

/-- The numbers that a gcd is called on. -/
def operands : Gcd → ℤ × ℤ
  | .gcd10 => s.operands10
  | .gcdST => (s.a, s.k p)

def gcd : Gcd → GcdSteps
  | .gcd10 => s.gcd10 p
  | .gcdST => p.gcd |s.a| |s.k p| p.L

def gcdEnd (g : Gcd) : ℤ × ℤ :=
  numbersAfter (s.gcd p g).steps (|(s.operands p g).1|, |(s.operands p g).2|)

/-- What the matrices of a gcd are applied to. -/
def vector : Gcd → ℤ × ℤ
  | .gcd10 => s.startU
  | .gcdST => (0, 1)

def cofactors (g : Gcd) : ℤ × ℤ := product (s.gcd p g).steps (s.vector g)

def t : ℤ := (s.gcdEnd p .gcdST).2

def v0 : ℤ := (s.cofactors p .gcdST).1

def v1 : ℤ := (s.cofactors p .gcdST).2

/-- A number under the sign `S`. -/
def signed (x : ℤ) : ℤ := if SquareState.sNegative (s.v1 p) then -x else x

def h : ℤ := s.signed p (p.divideExact (s.b * s.t p + s.c p * s.v1 p) s.a)

def tTS : ℤ := s.signed p (s.t p * s.t p)

def v02 : ℤ := s.v0 p * 2

def newA : ℤ := s.tTS p + s.v1 p * s.h p

def e : ℤ :=
  -(s.b + p.divideExact (s.t p * 2 * (s.a + s.signed p (s.t p * s.v0 p))) (s.v1 p))

def newB : ℤ := (s.e p - s.v02 p * s.h p) % (s.newA p * 2)

/-- The limbs of the numbers that a gcd is called on have a place. -/
def Fits (g : Gcd) : Prop :=
  ¬(SquareState.numLimbs (s.operands p g).1 > gcdSize ∨ SquareState.numLimbs (s.operands p g).2 > gcdSize)

/-- The slave does not give up. -/
structure SlaveGoesOn : Prop where
  remainder : s.cRemainder p = 0
  signs : ¬(s.a < 0 ∨ s.c p < 0)
  fits : s.Fits p .gcdST
  finishes : (s.gcd p .gcdST).Finishes

/-- The master does not give up. -/
structure MasterGoesOn : Prop where
  start : SquareState.phase0Master s.a s.b p.L = true
  fits : s.Fits p .gcd10
  finishes : (s.gcd p .gcd10).Finishes
  ends : s.gcdEnd p .gcd10 = (1, 0)

open Classical in
/-- What the next iteration starts from, where no thread gives up in this one. -/
noncomputable def next : Option Start :=
  if s.SlaveGoesOn p ∧ s.MasterGoesOn p then
    some ⟨|s.newA p|, s.newB p, decide (|s.newB p| ≥ |(|s.newA p|)|)⟩
  else none

variable {p s}

theorem next_some (slave : s.SlaveGoesOn p) (master : s.MasterGoesOn p) : s.next p =
    some ⟨|s.newA p|, s.newB p, decide (|s.newB p| ≥ |(|s.newA p|)|)⟩ := if_pos ⟨slave, master⟩

theorem next_none_of_slave (stops : ¬s.SlaveGoesOn p) : s.next p = none :=
  if_neg fun goesOn => stops goesOn.1

theorem next_none_of_master (stops : ¬s.MasterGoesOn p) : s.next p = none :=
  if_neg fun goesOn => stops goesOn.2

end Start

section Run

variable (p : Setting) (a b : ℤ)

/-- What iteration `n` starts from. -/
noncomputable def start : ℕ → Option Start
  | 0 => some ⟨a, b, decide (|b| ≥ |a|)⟩
  | n + 1 => (start n).bind (Start.next p)

variable {p a b} {m n : ℕ} {s : Start}

theorem start_succ (now : start p a b n = some s) : start p a b (n + 1) = s.next p := by
  rw [start, now, Option.bind_some]

theorem start_none (stops : start p a b n = none) (le : n ≤ m) : start p a b m = none := by
  induction m, le using Nat.le_induction with
  | base => exact stops
  | succ m _ ih => rw [start, ih, Option.bind_none]

end Run

/-- The thread that a field is written by. -/
def owner : Field → Side
  | .number (.as _) | .number (.bs _) | .abIndex | .bHigher | .numValid => .master
  | .number (.gcdAs g _) | .number (.gcdBs g _) | .uvEntry g _ | .endIndex g => g.caller
  | .number (.cofactor0 g _) | .number (.cofactor1 g _) | .cofactorIndex g => g.caller.other
  | .number .cV1 | .number .bT | .number .bTCV1 | .number .h | .number .v1H | .number .A2
  | .number .v02H | .number .f => .master
  | _ => .slave

/-- The fields of the slave that `assign` writes to on the thread of the master. -/
def shared : Field → Bool
  | .number .bB | .number .a4 | .number .bBD | .number .c | .number .cRemainder => true
  | _ => false

/-- A field is handed over from one counter of its owner on, up to one of its reader's. -/
def window : Field → Option (ℕ × ℕ)
  | .number (.as _) | .number (.bs _) | .abIndex => some (0, 85)
  | .bHigher => some (0, 0)
  | .uvEntry g i => if i ≤ gcdMaxIterations then some (g.delta + i + 1, g.delta) else none
  | .number (.cofactor0 .gcdST _) | .number (.cofactor1 .gcdST _) | .cofactorIndex .gcdST => some (84, 85)
  | .number .c => some (42, 84)
  | .number (.gcdBs .gcdST _) | .endIndex .gcdST => some (84, 84)
  | .number .tTS => some (85, 85)
  | .number .v02 => some (85, 86)
  | .number .e => some (86, 86)
  | _ => none

/-- The iterations for which a field is written: slots take turns. -/
def Serves : Field → ℕ → Prop
  | .number (.as slot), n | .number (.bs slot), n => slot = n.bodd
  | _, _ => True

/-- How many iterations later a field is written again. -/
def period : Field → ℕ
  | .number (.as _) | .number (.bs _) => 2
  | _ => 1

/-- The fields that are written at all in an iteration that starts from `s`: not all slots are. -/
def Written (p : Setting) (s : Start) : Field → Prop
  | .uvEntry g i => i ≤ (s.gcd p g).steps.length ∨ ¬(s.gcd p g).Finishes
  | .number (.cofactor0 g slot) | .number (.cofactor1 g slot) | .number (.gcdBs g slot) =>
    slot = (s.gcd p g).lastSlot
  | _ => True

/-- What a field that is handed over holds. -/
def HoldsValue (p : Setting) (s : Start) (n : ℕ) : (field : Field) → Value field → Prop
  | .number (.as _), x => x = s.a
  | .number (.bs _), x => x = s.b
  | .abIndex, x => x = n.bodd
  | .bHigher, x => x = s.bHigher
  | .uvEntry g i, x => ∃ entry, (s.gcd p g).matrixAt i = some entry ∧
      x = (entry, decide (i = (s.gcd p g).steps.length ∧ (s.gcd p g).stuck = false))
  | .number (.cofactor0 g _), x => x = (s.cofactors p g).1
  | .number (.cofactor1 g _), x => x = (s.cofactors p g).2
  | .cofactorIndex g, x => x = (s.gcd p g).lastSlot
  | .number .c, x => x = s.c p
  | .number (.gcdBs g _), x => x = (s.gcdEnd p g).2
  | .endIndex g, x => x = (s.gcd p g).lastSlot
  | .number .tTS, x => x = s.tTS p
  | .number .v02, x => x = s.v02 p
  | .number .e, x => x = s.e p ∧ s.SlaveGoesOn p
  | _, _ => False

/-- When a thread is at one of the shared fields. -/
def SharedWindow : Side → ℕ → ℕ → ℕ → Prop
  | .slave, n, c, g => 87 * n ≤ c ∧ c ≤ 87 * n + 41 ∧ 87 * n ≤ g
  | .master, n, c, g => 87 * n + 86 ≤ c ∧ c < 87 * n + 87 ∧ 87 * n + 42 ≤ g

/-- A field may be written while it is not handed over for one turn and no longer for the one before. -/
def Free (field : Field) (c g : ℕ) : Prop :=
  ∀ w, window field = some w →
    ∃ n, Serves field n ∧ c < 87 * n + w.1 ∧ 87 * n + w.2 < g + 87 * period field

def Mine (t : Side) (field : Field) (c g : ℕ) : Prop :=
  if shared field then ∃ n, SharedWindow t n c g else owner field = t ∧ Free field c g

def Keep (t : Side) (field : Field) (c g : ℕ) : Prop :=
  if shared field then ∃ n, SharedWindow t n c g else owner field = t

section Instance

variable (p : Setting) (a b : ℤ)

def HandedOver (field : Field) (n c q : ℕ) : Prop :=
  ∃ w, window field = some w ∧ 87 * n + w.1 ≤ c ∧ q ≤ 87 * n + w.2 ∧ Serves field n ∧
    ∀ s, start p a b n = some s → Written p s field

def Holds (field : Field) (n : ℕ) (x : Value field) : Prop :=
  ∃ s, start p a b n = some s ∧ HoldsValue p s n field x

/-- A thread does not leave an iteration before the other one has come to it. -/
def Legal (c g : ℕ) : Prop := ∀ n, 87 * n < c → 87 * n ≤ g

variable {p a b} {t : Side} {field : Field} {n c g c' g' : ℕ}

theorem sharedWindow_apart (own : SharedWindow t n c g) {m : ℕ} (other : SharedWindow t.other m c' g')
    (before : g ≤ c') (before' : g' ≤ c) : False := by
  cases t <;> simp only [SharedWindow, Side.other] at own other <;> omega

theorem mine_apart (mine : Mine t field c g) (keep : Keep t.other field c' g') (before : g ≤ c')
    (before' : g' ≤ c) : False := by
  unfold Mine at mine
  unfold Keep at keep
  split at mine
  case isTrue both =>
    rw [if_pos both] at keep
    obtain ⟨n, own⟩ := mine
    obtain ⟨m, other⟩ := keep
    exact sharedWindow_apart own other before before'
  case isFalse own =>
    rw [if_neg own, mine.1] at keep
    exact Side.ne_other t keep

theorem serves_close {m : ℕ} (serves : Serves field n) (serves' : Serves field m) (lt : m < n) :
    m + period field ≤ n := by
  unfold period
  split
  case h_3 => omega
  all_goals
    have same : n.bodd = m.bodd := serves.symm.trans serves'
    have next : n ≠ m + 1 := by
      rintro rfl
      simp at same
    omega

theorem shared_window {w : ℕ × ℕ} (both : shared field = true) (opened : window field = some w) :
    owner field = .slave ∧ w = (42, 84) := by
  unfold shared at both
  split at both
  case h_4 => exact ⟨rfl, (Option.some.inj opened).symm⟩
  case h_6 => cases both
  all_goals cases opened

theorem mine_closed {counter : Side → ℕ} (mine : Mine t field (counter t) g)
    (legal : Legal (counter t.other) g') (before : g ≤ counter t.other) (before' : g' ≤ counter t) :
    ¬HandedOver p a b field n (counter (owner field)) (counter (owner field).other) := by
  rintro ⟨w, opened, since, until_, serves, -⟩
  unfold Mine at mine
  split at mine
  case isTrue both =>
    obtain ⟨m, own⟩ := mine
    obtain ⟨slave, rfl⟩ := shared_window both opened
    rw [slave] at since until_
    cases t with
    | slave =>
      simp only [SharedWindow, Side.other] at *
      omega
    | master =>
      have entered := legal (m + 1)
      simp only [SharedWindow, Side.other] at *
      omega
  case isFalse =>
    obtain ⟨rfl, free⟩ := mine
    obtain ⟨m, serves', unpublished, past⟩ := free w opened
    rcases Nat.lt_or_ge n m with lt | ge
    · have := serves_close serves' serves lt
      have := Nat.mul_le_mul_left 87 this
      omega
    · have := Nat.mul_le_mul_left 87 ge
      omega

theorem keep_of_mine (mine : Mine t field c g) : Keep t field c g := by
  unfold Mine at mine
  unfold Keep
  split
  case isTrue both => rwa [if_pos both] at mine
  case isFalse own => exact (if_neg own ▸ mine).1

theorem keep_mono (keep : Keep t field c g) (le : g ≤ g') : Keep t field c g' := by
  unfold Keep at *
  split
  case isTrue both =>
    rw [if_pos both] at keep
    obtain ⟨n, own⟩ := keep
    refine ⟨n, ?_⟩
    cases t <;> simp only [SharedWindow] at * <;> omega
  case isFalse own => rwa [if_neg own] at keep

variable (p a b)

def discipline : Discipline Value where
  owner := owner
  mine := Mine
  keep := Keep
  handed := HandedOver p a b
  holds := Holds p a b
  turnOf counter := counter / counterEnd
  legal := Legal
  keep_of_mine := keep_of_mine
  keep_mono := keep_mono
  legal_mono legal le n lt := (legal n lt).trans le
  handed_mono := by
    rintro field n c c' q q' ⟨w, opened, since, until_, serves, written⟩ le le'
    exact ⟨w, opened, since.trans le, le'.trans until_, serves, written⟩
  apart := mine_apart
  closed := mine_closed

end Instance

end SquareThreads
end ChiaVdf
