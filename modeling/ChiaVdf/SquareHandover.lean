import ChiaVdf.SquareSlave
import ChiaVdf.SquareSingle

/-! The two threads of the phased squaring keep to the discipline on every schedule, and what they
come to is what one thread alone computes. -/
namespace ChiaVdf
namespace SquareThreads

open Handover Handover.Discipline

section Threads

variable {p : Setting} {a b : ℤ} {n iterations total : ℕ} {v : View Value}

theorem repeatedSquareFastWork_succ (t : Side) : repeatedSquareFastWork p t (iterations + 1) n =
    (do phases p t n (List.range 5); onIteration p t n) >>= fun _ =>
      repeatedSquareFastWork p t iterations (n + 1) := (Code.bind_assoc _ _ _).symm

/-- Both threads keep to the discipline, by induction over the iterations that are left. A thread gives up
only where the run as a whole does. -/
theorem workMaster_keeps (all : n + iterations = total) (at_ : MasterAt p a b n v) :
    Keeps p a b (start p a b total = none) .master (fun _ => MasterAt p a b total)
      (repeatedSquareFastWork p .master iterations n) v := by
  induction iterations generalizing n v with
  | zero =>
    obtain rfl : n = total := all
    exact at_
  | succ iterations ih =>
    rw [repeatedSquareFastWork_succ]
    have stops : start p a b (n + 1) = none → start p a b total = none :=
      fun ends => start_none ends (by omega)
    exact .bind ((iterationMaster_keeps at_ stops).mono fun _ _ at_ => ih (by omega) at_)

theorem workSlave_keeps (all : n + iterations = total) (at_ : SlaveAt n v) :
    Keeps p a b (start p a b total = none) .slave (fun _ => SlaveAt total)
      (repeatedSquareFastWork p .slave iterations n) v := by
  induction iterations generalizing n v with
  | zero =>
    obtain rfl : n = total := all
    exact at_
  | succ iterations ih =>
    rw [repeatedSquareFastWork_succ]
    have stops : start p a b (n + 1) = none → start p a b total = none :=
      fun ends => start_none ends (by omega)
    exact .bind ((iterationSlave_keeps at_ stops).mono fun _ _ at_ => ih (by omega) at_)

end Threads

section Multithread

variable (p : Setting) (iterations : ℕ) (memory : (field : Field) → Cell (Value field)) (a b : ℤ)

open Classical in
/-- What the master knows of `init`. -/
noncomputable def initKnown (t : Side) : Known Value := fun field =>
  if t = .master ∧ OfBase 0 field then some (init memory a b field) else none

/-- What a thread has come to when it returns. -/
def Returns (t : Side) (v : View Value) : Prop :=
  match t with
  | .master => MasterAt p a b iterations v
  | .slave => SlaveAt iterations v

theorem multithread_inv : (discipline p a b).Inv (start p a b iterations = none) (Returns p iterations a b)
    (multithread p iterations memory a b) (initKnown memory a b) where
  ok t := by
    cases t with
    | master =>
      refine workMaster_keeps (Nat.zero_add _) ⟨le_rfl, Nat.zero_le _, fun m before => by omega, _, rfl, ?_⟩
      exact ⟨if_pos ⟨rfl, .as⟩, if_pos ⟨rfl, .bs⟩, if_pos ⟨rfl, .abIndex⟩, if_pos ⟨rfl, .bHigher⟩,
        if_pos ⟨rfl, .numValid⟩⟩
    | slave =>
      exact workSlave_keeps (Nat.zero_add _) ⟨le_rfl, Nat.zero_le _, fun m before => by omega⟩
  fence t := le_rfl
  legal t m before := by
    have : 87 * m < 0 := before
    omega
  known t field cell known := by
    unfold initKnown at known
    split at known
    · exact Option.some.inj known
    · cases known
  kept t field cell known := by
    unfold initKnown at known
    split at known
    case isTrue base =>
      obtain ⟨rfl, ofBase⟩ := base
      have own := ofBase.own
      change Keep _ _ _ _
      unfold Keep
      rw [if_neg (by rw [own.2]; exact Bool.false_ne_true)]
      exact own.1
    case isFalse => cases known
  handed field n handed := by
    obtain ⟨w, opened, since, -, serves, -⟩ := handed
    have opens := opens_of_window opened
    have first : 87 * n + w.1 ≤ 0 := since
    obtain rfl : n = 0 := by omega
    generalize w.1 = y at opens first
    cases opens
    case as slot =>
      obtain rfl : slot = false := serves
      exact ⟨a, rfl, _, rfl, rfl⟩
    case bs slot =>
      obtain rfl : slot = false := serves
      exact ⟨b, rfl, _, rfl, rfl⟩
    case abIndex => exact ⟨false, rfl, _, rfl, rfl⟩
    case bHigher => exact ⟨_, rfl, _, rfl, rfl⟩
    all_goals omega

theorem outcome_eq {memory : (field : Field) → Cell (Value field)} {i : Bool} {x y : ℤ} {v : ℕ}
    {stamp₁ stamp₂ stamp₃ stamp₄ : Option Stamp} (index : memory .abIndex = ⟨i, stamp₁⟩)
    (first : memory (.number (.as i)) = ⟨x, stamp₂⟩) (second : memory (.number (.bs i)) = ⟨y, stamp₃⟩)
    (valid : memory .numValid = ⟨v, stamp₄⟩) : outcome memory = (x, y, v) := by
  obtain rfl : (memory .abIndex).value = i := congrArg Cell.value index
  exact Prod.ext (congrArg Cell.value first) (Prod.ext (congrArg Cell.value second) (congrArg Cell.value valid))

/-- What the master returns with: the state behind the last iteration. -/
theorem outcome_of_returned {moves : List Move}
    (clean : ((multithread p iterations memory a b).run moves).error = false)
    (returned : (((multithread p iterations memory a b).run moves).thread .master).code = .ret ()) :
    ∃ s, start p a b iterations = some s ∧
      outcome ((multithread p iterations memory a b).run moves).memory = (s.a, s.b, iterations) := by
  obtain ⟨knows, inv⟩ := (multithread_inv p iterations memory a b).run moves clean
  obtain ⟨-, -, -, s, now, base⟩ : MasterAt p a b iterations _ := inv.okOf returned
  exact ⟨s, now, outcome_eq (inv.known .master _ _ base.abIndex) (inv.known .master _ _ base.a)
    (inv.known .master _ _ base.b) (inv.known .master _ _ base.numValid)⟩

end Multithread

section Single

variable {p : Setting} {iterations : ℕ} {memory : (field : Field) → Cell (Value field)} {a b : ℤ}
  {shared : Shared Value} {code : Side → Action Unit} {n : ℕ} {t : Side}

/-- Some schedule of the two threads leads to the memory and the counters of the single thread, with `code`
still to do. -/
def Reached (p : Setting) (iterations : ℕ) (memory : (field : Field) → Cell (Value field)) (a b : ℤ)
    (shared : Shared Value) (code : Side → Action Unit) : Prop :=
  ∃ moves, ((multithread p iterations memory a b).run moves).shared = shared ∧
    ((multithread p iterations memory a b).run moves).error = false ∧
    ∀ t, (((multithread p iterations memory a b).run moves).thread t).code = code t

theorem Reached.clean (reached : Reached p iterations memory a b shared code) : shared.error = false := by
  obtain ⟨moves, rfl, clean, -⟩ := reached
  exact clean

theorem Reached.congr {code' : Side → Action Unit} (reached : Reached p iterations memory a b shared code)
    (same : ∀ t, code t = code' t) : Reached p iterations memory a b shared code' := funext same ▸ reached

theorem Reached.alone {q r : Action Unit} {e : ℕ → Prop}
    (reached : Reached p iterations memory a b shared code) (sound : start p a b iterations ≠ none)
    (stands : code t = q >>= fun _ => r)
    (passes : q.Passes (shared.counter t.other) e (shared.counter t)) :
    Reached p iterations memory a b (q.alone t 0 shared) (Function.update code t r) ∧
      e ((q.alone t 0 shared).counter t) ∧
      (q.alone t 0 shared).counter t.other = shared.counter t.other := by
  obtain ⟨moves, rfl, clean, codes⟩ := reached
  obtain ⟨knows, inv⟩ := (multithread_inv p iterations memory a b).run moves clean
  obtain ⟨moves', shared', clean', code', other, ended⟩ :=
    inv.alone sound clean ((codes t).trans stands) (Nat.zero_le _) passes
  rw [← shared']
  refine ⟨⟨moves ++ moves', ?_⟩, ended, congrArg Thread.counter other⟩
  have append : (multithread p iterations memory a b).run (moves ++ moves') =
      ((multithread p iterations memory a b).run moves).run moves' := List.foldl_append
  rw [append]
  refine ⟨rfl, clean', fun u => ?_⟩
  rcases u.eq_or_other t with rfl | rfl
  · rw [code', Function.update_self]
  · rw [other, Function.update_of_ne (Side.other_ne t), codes]

theorem Reached.phase {phase : ℕ} {rest : List ℕ} {after : Side → Unit → Action Unit}
    (reached : Reached p iterations memory a b shared fun t => phases p t n (phase :: rest) >>= after t)
    (sound : start p a b iterations ≠ none) :
    Reached p iterations memory a b (singlePhase p n phase shared) fun t => phases p t n rest >>= after t := by
  have stands (t : Side) : phases p t n (phase :: rest) >>= after t = startPhase n phase >>= fun _ =>
      callPhase p n phase t >>= fun _ => phases p t n rest >>= after t := by
    rw [phases, Code.bind_assoc]
    exact congrArg _ (funext fun _ => Code.bind_assoc _ _ _)
  obtain ⟨atMaster, counterMaster, -⟩ := reached.alone (t := .master)
    (e := (· = 87 * n + getCounterStart phase)) sound (stands .master) rfl
  obtain ⟨atBoth, counterSlave, kept⟩ := atMaster.alone (t := .slave)
    (e := (· = 87 * n + getCounterStart phase)) sound (stands .slave) rfl
  have counters (t : Side) : ((startPhase n phase).alone .slave 0 ((startPhase n phase).alone .master 0
      shared)).counter t = 87 * n + getCounterStart phase := by
    cases t with
    | master => exact kept.trans counterMaster
    | slave => exact counterSlave
  obtain ⟨atFirst, counterFirst, kept'⟩ := atBoth.alone (t := first phase)
    (q := callPhase p n phase (first phase)) (r := phases p (first phase) n rest >>= after (first phase))
    (e := (· = 87 * n + firstEnd phase)) sound (by cases first phase <;> rfl)
    (by rw [counters, counters]; exact first_passes p phase)
  obtain ⟨atSecond, -, -⟩ := atFirst.alone (t := (first phase).other)
    (q := callPhase p n phase (first phase).other)
    (r := phases p (first phase).other n rest >>= after (first phase).other)
    (e := fun _ => True) sound (by cases first phase <;> rfl)
    (by rw [Side.other_other, counterFirst, kept', counters]; exact second_passes p phase)
  have whole : singlePhase p n phase shared = _ := if_neg (Bool.eq_false_iff.mp atFirst.clean)
  rw [whole]
  refine atSecond.congr fun t => ?_
  cases first phase <;> cases t <;> rfl

theorem Reached.phases {l : List ℕ} {k : Side → Unit → Action Unit}
    (reached : Reached p iterations memory a b shared fun t => phases p t n l >>= k t)
    (sound : start p a b iterations ≠ none) :
    Reached p iterations memory a b (singlePhases p n l shared) fun t => k t () := by
  induction l generalizing shared with
  | nil => exact reached
  | cons phase rest ih =>
    have next := reached.phase sound
    rw [singlePhases, unlessError, if_neg (Bool.eq_false_iff.mp next.clean)]
    exact ih next

/-- The iterations of the single thread are a schedule of the two, by induction over those that are left. -/
theorem Reached.all {left : ℕ}
    (reached : Reached p iterations memory a b shared fun t => repeatedSquareFastWork p t left n)
    (sound : start p a b iterations ≠ none) :
    Reached p iterations memory a b (singleIterations p left n shared) fun _ => .ret () := by
  induction left generalizing n shared with
  | zero => exact reached
  | succ left ih =>
    have behind := Reached.phases (n := n) (l := List.range 5) (k := fun t _ =>
      onIteration p t n >>= fun _ => repeatedSquareFastWork p t left (n + 1)) reached sound
    rw [singleIterations, unlessError, if_neg (Bool.eq_false_iff.mp behind.clean)]
    obtain ⟨listened, -, -⟩ := behind.alone (t := .master) (e := fun _ => True) sound rfl
      (onIteration_still p .master _ _ trivial)
    refine ih (listened.congr fun t => ?_)
    cases t with
    | master => rfl
    | slave =>
      have quiet : onIteration p .slave n = .ret () := if_neg (by rintro ⟨⟨⟩, -⟩)
      change onIteration p .slave n >>= _ = _
      rw [quiet]
      rfl

end Single

/-- Neither thread is about to read what was not written for it: what it did not write itself was written by
the owner of the field for the iteration that the reader is in. Nor is a thread about to write a field that
the other is at. -/
structure HandsOver (s : State Value) : Prop where
  read : ∀ t field stamp next, (s.thread t).code = .read field stamp next →
    (s.memory field).stamp = some stamp ∧
      (stamp.owner = t ∧ (s.thread t).counter / counterEnd ≤ stamp.turn ∨
        stamp = ⟨owner field, (s.thread t).counter / counterEnd⟩)
  write : ∀ t field turn x next, (s.thread t).code = .write field turn x next →
    (s.thread t.other).code.accesses ≠ some field

/-- On every schedule that raises no error, and after any number of its steps, and where both threads have
returned they have computed what one thread alone computes. -/
theorem multithread_agrees (p : Setting) (iterations : ℕ) (memory : (field : Field) → Cell (Value field))
    (a b : ℤ) (moves : List Move) (clean : ((multithread p iterations memory a b).run moves).error = false) :
    HandsOver ((multithread p iterations memory a b).run moves) ∧
      ((∀ t, (((multithread p iterations memory a b).run moves).thread t).code = .ret ()) →
        (singleThread p iterations memory a b).error = false ∧
          outcome ((multithread p iterations memory a b).run moves).memory =
            outcome (singleThread p iterations memory a b).memory) := by
  obtain ⟨knows, inv⟩ := (multithread_inv p iterations memory a b).run moves clean
  refine ⟨⟨fun t field stamp next stands => inv.read_stamp stands,
    fun t field turn x next stands => inv.no_race stands⟩, fun returned => ?_⟩
  obtain ⟨s, now, is⟩ := outcome_of_returned p iterations memory a b clean (returned .master)
  have sound : start p a b iterations ≠ none := by
    rw [now]
    nofun
  have begun : Reached p iterations memory a b ⟨init memory a b, fun _ => 0, false⟩
      fun t => repeatedSquareFastWork p t iterations 0 := ⟨[], rfl, rfl, fun _ => rfl⟩
  obtain ⟨moves', single, clean', codes⟩ := begun.all sound
  obtain ⟨s', now', is'⟩ := outcome_of_returned p iterations memory a b clean' (codes .master)
  obtain rfl : s = s' := Option.some.inj (now.symm.trans now')
  have same : singleThread p iterations memory a b = _ := single.symm
  rw [same]
  exact ⟨clean', is.trans is'.symm⟩

/-- A gcd of at most one step. -/
def oneStep : Setting where
  D := -3
  L := 0
  gcd x y threshold :=
    if y ≤ threshold then ⟨[], false⟩
    else ⟨[(⟨0, 1, 1, (x / y).toNat, 1⟩, y, x % y)], decide (x % y > threshold)⟩
  divideExact x y := x / y
  listens _ := true

def unwritten : (field : Field) → Cell (Value field)
  | .number _ => ⟨0, none⟩
  | .abIndex | .bHigher | .endIndex _ | .cofactorIndex _ => ⟨false, none⟩
  | .numValid => ⟨0, none⟩
  | .uvEntry _ _ => ⟨(⟨0, 0, 0, 0, 0⟩, false), none⟩

def inTurns (n : ℕ) : List Move := (List.replicate n [Move.act .master, .act .slave]).flatten

theorem multithread_agrees_in_turns :
    HandsOver ((multithread oneStep 1 unwritten 1 1).run (inTurns 200)) ∧
      (singleThread oneStep 1 unwritten 1 1).error = false ∧
        outcome ((multithread oneStep 1 unwritten 1 1).run (inTurns 200)).memory =
          outcome (singleThread oneStep 1 unwritten 1 1).memory := by
  have result := multithread_agrees oneStep 1 unwritten 1 1 (inTurns 200) (by decide +kernel)
  refine ⟨result.1, result.2 fun t => Code.eq_ret_of_returned ?_⟩
  cases t <;> decide +kernel

end SquareThreads
end ChiaVdf
