import Mathlib.Tactic

/-! Two threads that share fields and are ordered by two counters alone: each raises its own and
waits for the other's. A discipline says, from the counter of a thread and the last fence it passed,
which fields it may write and which are handed over to it. Code that keeps to the discipline reads
what was meant for it on every schedule, and no field is written while the other thread is at it. -/
namespace Handover

inductive Side where
  | master
  | slave
  deriving DecidableEq, Repr

def Side.other : Side → Side
  | master => slave
  | slave => master

@[simp] theorem Side.other_other (t : Side) : t.other.other = t := by cases t <;> rfl

@[simp] theorem Side.other_ne (t : Side) : t.other ≠ t := by cases t <;> decide

@[simp] theorem Side.ne_other (t : Side) : t ≠ t.other := by cases t <;> decide

theorem Side.eq_or_other (u t : Side) : u = t ∨ u = t.other := by
  cases u <;> cases t <;> decide

/-- Who wrote a field last, and for which turn of the loop. -/
structure Stamp where
  owner : Side
  turn : ℕ
  deriving DecidableEq

/-- A field without a stamp was not written since the threads started. -/
structure Cell (α : Type) where
  value : α
  stamp : Option Stamp

variable {Field : Type}

/-- What is left of a thread. A read names the write it is meant to see; the stamps are not data of
the program. -/
inductive Code (Value : Field → Type) (α : Type) where
  | ret (x : α)
  | fail
  | advance (value : ℕ) (next : Code Value α)
  | fence (value : ℕ) (next : Code Value α)
  | read (f : Field) (stamp : Stamp) (next : Value f → Code Value α)
  | write (f : Field) (turn : ℕ) (x : Value f) (next : Code Value α)

variable {Value : Field → Type} {α β : Type}

def Code.bind : Code Value α → (α → Code Value β) → Code Value β
  | ret x, rest => rest x
  | fail, _ => fail
  | advance value next, rest => advance value (next.bind rest)
  | fence value next, rest => fence value (next.bind rest)
  | read f stamp next, rest => read f stamp fun x => (next x).bind rest
  | write f turn x next, rest => write f turn x (next.bind rest)

/-- The field that the next step of the code reads or writes. -/
def Code.accesses : Code Value α → Option Field
  | .read f _ _ => some f
  | .write f _ _ _ => some f
  | _ => none

def Code.returned : Code Value α → Bool
  | .ret _ => true
  | _ => false

theorem Code.eq_ret_of_returned {code : Code Value Unit} (returned : code.returned = true) :
    code = .ret () := by
  cases code <;> first | rfl | cases returned

instance : Monad (Code Value) where
  pure := .ret
  bind := .bind

structure Thread (Value : Field → Type) where
  code : Code Value Unit
  counter : ℕ
  lastFence : ℕ

structure State (Value : Field → Type) where
  memory : (f : Field) → Cell (Value f)
  thread : Side → Thread Value
  error : Bool

/-- The scheduler lets a thread make its next step, or a thread that waits has spun for too long. -/
inductive Move where
  | act (t : Side)
  | giveUp (t : Side)
  deriving DecidableEq, Repr

/-- The memory, the counters and the error flag, without what is left of the threads. -/
structure Shared (Value : Field → Type) where
  memory : (f : Field) → Cell (Value f)
  counter : Side → ℕ
  error : Bool

namespace State

def install (s : State Value) (t : Side) (thread : Thread Value) : State Value :=
  { s with thread := Function.update s.thread t thread }

@[simp] theorem install_self (s : State Value) (t : Side) (thread : Thread Value) :
    (s.install t thread).thread t = thread := by simp [install]

@[simp] theorem install_other (s : State Value) (t : Side) (thread : Thread Value) :
    (s.install t thread).thread t.other = s.thread t.other := by simp [install]

@[simp] theorem install_memory (s : State Value) (t : Side) (thread : Thread Value) :
    (s.install t thread).memory = s.memory := rfl

@[simp] theorem install_error (s : State Value) (t : Side) (thread : Thread Value) :
    (s.install t thread).error = s.error := rfl

def shared (s : State Value) : Shared Value := ⟨s.memory, fun t => (s.thread t).counter, s.error⟩

theorem install_shared (s : State Value) (t : Side) (thread : Thread Value) :
    (s.install t thread).shared =
      { s.shared with counter := Function.update s.shared.counter t thread.counter } := by
  have counters : (fun u => ((s.install t thread).thread u).counter) =
      Function.update (fun u => (s.thread u).counter) t thread.counter := by
    funext u
    rcases u.eq_or_other t with rfl | rfl <;> simp
  exact congrArg (Shared.mk s.memory · s.error) counters

theorem install_shared_self (s : State Value) (t : Side) (code : Code Value Unit) (fence : ℕ) :
    (s.install t ⟨code, (s.thread t).counter, fence⟩).shared = s.shared := by
  rw [install_shared]
  exact congrArg (Shared.mk s.memory · s.error) (Function.update_eq_self t _)

/-- The other thread has reached what the fence waits for, or is known to have. -/
def passes (s : State Value) (t : Side) (value : ℕ) : Prop :=
  value ≤ (s.thread t).lastFence ∨ value ≤ (s.thread t.other).counter

instance (s : State Value) (t : Side) (value : ℕ) : Decidable (s.passes t value) :=
  inferInstanceAs (Decidable (_ ∨ _))

def giveUp (s : State Value) (t : Side) : State Value :=
  match (s.thread t).code with
  | .fence value _ => if s.passes t value then s else { s with error := true }
  | _ => s

theorem giveUp_cases (s : State Value) (t : Side) :
    s.giveUp t = s ∨ (s.giveUp t).error = true := by
  unfold giveUp
  split
  · split
    · exact .inl rfl
    · exact .inr rfl
  · exact .inl rfl

variable [DecidableEq Field]

def act (s : State Value) (t : Side) : State Value :=
  let thread := s.thread t
  match thread.code with
  | .ret _ => s
  | .fail => { s with error := true }
  | .advance value next => s.install t { thread with code := next, counter := value }
  | .fence value next =>
    if s.passes t value then
      s.install t { thread with code := next, lastFence := max thread.lastFence value }
    else s
  | .read f _ next => s.install t { thread with code := next (s.memory f).value }
  | .write f turn x next =>
    { s.install t { thread with code := next } with
      memory := Function.update s.memory f ⟨x, some ⟨t, turn⟩⟩ }

/-- Nothing is said of what the threads do once an error flag is raised. -/
def step (s : State Value) (move : Move) : State Value :=
  if s.error then s
  else match move with
    | .act t => s.act t
    | .giveUp t => s.giveUp t

def run (s : State Value) (moves : List Move) : State Value := moves.foldl step s

section Act

variable {s : State Value} {t : Side} {f : Field} {next : Code Value Unit}

theorem act_ret {x : Unit} (stands : (s.thread t).code = .ret x) : s.act t = s := by
  simp only [act, stands]

theorem act_fail (stands : (s.thread t).code = .fail) : s.act t = { s with error := true } := by
  simp only [act, stands]

theorem act_advance {value : ℕ} (stands : (s.thread t).code = .advance value next) :
    s.act t = s.install t ⟨next, value, (s.thread t).lastFence⟩ := by
  simp only [act, stands]

theorem act_fence {value : ℕ} (stands : (s.thread t).code = .fence value next) :
    s.act t = if s.passes t value then
      s.install t ⟨next, (s.thread t).counter, max (s.thread t).lastFence value⟩ else s := by
  simp only [act, stands]

theorem act_read {stamp : Stamp} {next : Value f → Code Value Unit}
    (stands : (s.thread t).code = .read f stamp next) : s.act t =
      s.install t ⟨next (s.memory f).value, (s.thread t).counter, (s.thread t).lastFence⟩ := by
  simp only [act, stands]

theorem act_write {turn : ℕ} {x : Value f} (stands : (s.thread t).code = .write f turn x next) :
    s.act t = { s.install t ⟨next, (s.thread t).counter, (s.thread t).lastFence⟩ with
      memory := Function.update s.memory f ⟨x, some ⟨t, turn⟩⟩ } := by
  simp only [act, stands]

end Act

end State

section Alone

variable [DecidableEq Field]

/-- A piece of a thread, run to its end while the other waits. -/
def Code.alone (t : Side) : Code Value Unit → ℕ → Shared Value → Shared Value
  | ret _, _, s => s
  | fail, _, s => { s with error := true }
  | advance value next, lastFence, s =>
    next.alone t lastFence { s with counter := Function.update s.counter t value }
  | fence value next, lastFence, s =>
    if value ≤ lastFence ∨ value ≤ s.counter t.other then next.alone t (max lastFence value) s
    else { s with error := true }
  | read f _ next, lastFence, s => (next (s.memory f).value).alone t lastFence s
  | write f turn x next, lastFence, s =>
    next.alone t lastFence { s with memory := Function.update s.memory f ⟨x, some ⟨t, turn⟩⟩ }

end Alone

/-- The code waits for no counter beyond `bound`, and ends with a counter as it should. -/
def Code.Passes (bound : ℕ) (ends : ℕ → Prop) : Code Value α → ℕ → Prop
  | ret _, counter => ends counter
  | fail, _ => True
  | advance value next, _ => next.Passes bound ends value
  | fence value next, counter => value ≤ bound ∧ next.Passes bound ends counter
  | read _ _ next, counter => ∀ x, (next x).Passes bound ends counter
  | write _ _ _ next, counter => next.Passes bound ends counter

theorem Code.Passes.bind {bound : ℕ} {ends : ℕ → Prop} {p : Code Value α} {rest : α → Code Value β}
    {counter : ℕ}
    (first : p.Passes bound (fun c => ∀ x, (rest x).Passes bound ends c) counter) :
    (p >>= rest).Passes bound ends counter := by
  induction p generalizing counter with
  | ret x => exact first x
  | fail => trivial
  | advance value next ih => exact ih first
  | fence value next ih => exact ⟨first.1, ih first.2⟩
  | read f stamp next ih => exact fun x => ih x (first x)
  | write f turn x next ih => exact ih first

theorem Code.Passes.mono {bound : ℕ} {ends ends' : ℕ → Prop} {p : Code Value α} {counter : ℕ}
    (passes : p.Passes bound ends counter) (weaker : ∀ c, ends c → ends' c) :
    p.Passes bound ends' counter := by
  induction p generalizing counter with
  | ret x => exact weaker counter passes
  | fail => trivial
  | advance value next ih => exact ih passes
  | fence value next ih => exact ⟨passes.1, ih passes.2⟩
  | read f stamp next ih => exact fun x => ih x (passes x)
  | write f turn x next ih => exact ih passes

/-- It waits for no counter beyond `bound`, and leaves its own as it is. -/
def Code.Still (bound : ℕ) (p : Code Value α) : Prop :=
  ∀ counter (ends : ℕ → Prop), ends counter → p.Passes bound ends counter

section Still

variable {bound : ℕ}

theorem Code.Still.bind {p : Code Value α} {rest : α → Code Value β} (first : p.Still bound)
    (tail : ∀ x, (rest x).Still bound) : (p >>= rest).Still bound :=
  fun counter ends ended => Passes.bind (first counter _ fun x => tail x counter ends ended)

theorem Code.still_ret (x : α) : (ret x : Code Value α).Still bound := fun _ _ ended => ended

theorem Code.still_fail : (fail : Code Value α).Still bound := fun _ _ _ => trivial

theorem Code.still_fence {value : ℕ} {next : Code Value α} (le : value ≤ bound) (tail : next.Still bound) :
    (fence value next).Still bound := fun counter ends ended => ⟨le, tail counter ends ended⟩

theorem Code.still_read {f : Field} {stamp : Stamp} {next : Value f → Code Value α}
    (tail : ∀ x, (next x).Still bound) : (read f stamp next).Still bound :=
  fun counter ends ended x => tail x counter ends ended

theorem Code.still_write {f : Field} {turn : ℕ} {x : Value f} {next : Code Value α}
    (tail : next.Still bound) : (write f turn x next).Still bound :=
  fun counter ends ended => tail counter ends ended

end Still

theorem Code.bind_assoc {γ : Type} (p : Code Value α) (f : α → Code Value β) (g : β → Code Value γ) :
    p >>= f >>= g = p >>= fun x => f x >>= g := by
  induction p with
  | ret x => rfl
  | fail => rfl
  | advance value next ih => exact congrArg (advance value) ih
  | fence value next ih => exact congrArg (fence value) ih
  | read field stamp next ih => exact congrArg (read field stamp) (funext ih)
  | write field turn x next ih => exact congrArg (write field turn x) ih

/-- The last values a thread wrote to fields that the other thread leaves alone. -/
abbrev Known (Value : Field → Type) : Type := (f : Field) → Option (Cell (Value f))

/-- What a thread knows where its code stands: the other thread has reached `fence`. -/
structure View (Value : Field → Type) where
  counter : ℕ
  fence : ℕ
  known : Known Value

namespace View

def passed (v : View Value) (value : ℕ) : View Value := { v with fence := max v.fence value }

def wrote [DecidableEq Field] (v : View Value) (f : Field) (cell : Cell (Value f)) : View Value :=
  { v with known := Function.update v.known f (some cell) }

variable {v : View Value} {value : ℕ}

@[simp] theorem passed_counter : (v.passed value).counter = v.counter := rfl

@[simp] theorem passed_fence : (v.passed value).fence = max v.fence value := rfl

@[simp] theorem passed_known : (v.passed value).known = v.known := rfl

variable [DecidableEq Field] {f f' : Field} {cell : Cell (Value f)}

@[simp] theorem wrote_counter : (v.wrote f cell).counter = v.counter := rfl

@[simp] theorem wrote_fence : (v.wrote f cell).fence = v.fence := rfl

@[simp] theorem wrote_self : (v.wrote f cell).known f = some cell := Function.update_self ..

@[simp] theorem wrote_other (ne : f' ≠ f) : (v.wrote f cell).known f' = v.known f' :=
  Function.update_of_ne ne _ _

theorem wrote_known (known : v.known f = some cell) : v.wrote f cell = v := by
  unfold wrote
  rw [← known, Function.update_eq_self]

end View

/-- From a counter and a fence: the fields a thread may write, and those that it may rely on. A
field is handed over for a turn from one counter of its owner on, up to one of its reader's. -/
structure Discipline (Value : Field → Type) where
  owner : Field → Side
  mine : Side → Field → ℕ → ℕ → Prop
  keep : Side → Field → ℕ → ℕ → Prop
  handed : Field → ℕ → ℕ → ℕ → Prop
  holds : (f : Field) → ℕ → Value f → Prop
  /-- The turn that a counter stands for. -/
  turnOf : ℕ → ℕ
  legal : ℕ → ℕ → Prop
  keep_of_mine {t f c g} : mine t f c g → keep t f c g
  keep_mono {t f c g g'} : keep t f c g → g ≤ g' → keep t f c g'
  legal_mono {c g g'} : legal c g → g ≤ g' → legal c g'
  handed_mono {f n p p' q q'} : handed f n p q → p ≤ p' → q' ≤ q → handed f n p' q'
  /-- One thread may not write what the other relies on. -/
  apart {t f c g c' g'} : mine t f c g → keep t.other f c' g' → g ≤ c' → g' ≤ c → False
  /-- What may be written is not handed over. -/
  closed {t f n g g'} {c : Side → ℕ} : mine t f (c t) g → legal (c t.other) g' →
    g ≤ c t.other → g' ≤ c t → ¬handed f n (c (owner f)) (c (owner f).other)

namespace Discipline

variable [DecidableEq Field] (d : Discipline Value)

open Classical in
/-- What a thread can still rely on once it has raised its counter. -/
noncomputable def advanced (t : Side) (v : View Value) (value : ℕ) : View Value :=
  ⟨value, v.fence, fun f => if d.keep t f value v.fence then v.known f else none⟩

/-- What the raised counter hands over is in the fields. -/
def Publishes (t : Side) (v : View Value) (value : ℕ) : Prop :=
  ∀ f n q, d.owner f = t → v.fence ≤ q → d.handed f n value q → ¬d.handed f n v.counter q →
    ∃ x, v.known f = some ⟨x, some ⟨t, n⟩⟩ ∧ d.holds f n x

/-- Code that keeps to the discipline, whatever the values that were handed over to it. Where it
fails the run was bound to. -/
def Ok (doomed : Prop) (t : Side) (post : α → View Value → Prop) : Code Value α → View Value → Prop
  | .ret x, v => post x v
  | .fail, _ => doomed
  | .advance value next, v => v.counter ≤ value ∧ d.legal value v.fence ∧ d.Publishes t v value ∧
      Ok doomed t post next (d.advanced t v value)
  | .fence value next, v => Ok doomed t post next (v.passed value)
  | .read f stamp next, v =>
      (stamp.owner = t ∧ d.turnOf v.counter ≤ stamp.turn ∧
        ∃ x, v.known f = some ⟨x, some stamp⟩ ∧ Ok doomed t post (next x) v) ∨
      (stamp = ⟨d.owner f, d.turnOf v.counter⟩ ∧ d.owner f = t.other ∧
        d.handed f stamp.turn v.fence v.counter ∧
        ∀ x, d.holds f stamp.turn x → Ok doomed t post (next x) v)
  | .write f turn x next, v => d.mine t f v.counter v.fence ∧
      Ok doomed t post next (v.wrote f ⟨x, some ⟨t, turn⟩⟩)

/-- Both threads keep to the discipline from here on, and what they rely on is so. -/
structure Inv (doomed : Prop) (post : Side → View Value → Prop) (s : State Value)
    (knows : Side → Known Value) : Prop where
  ok : ∀ t, d.Ok doomed t (fun _ => post t) (s.thread t).code
    ⟨(s.thread t).counter, (s.thread t).lastFence, knows t⟩
  fence : ∀ t, (s.thread t).lastFence ≤ (s.thread t.other).counter
  legal : ∀ t, d.legal (s.thread t).counter (s.thread t).lastFence
  known : ∀ t f cell, knows t f = some cell → s.memory f = cell
  kept : ∀ t f cell, knows t f = some cell →
    d.keep t f (s.thread t).counter (s.thread t).lastFence
  handed : ∀ f n, d.handed f n (s.thread (d.owner f)).counter (s.thread (d.owner f).other).counter →
    ∃ x, s.memory f = ⟨x, some ⟨d.owner f, n⟩⟩ ∧ d.holds f n x

variable {d} {doomed : Prop} {t : Side}

section Rules

variable {post : α → View Value → Prop} {v : View Value} {f : Field} {next : Code Value α}

theorem Ok.advance {value : ℕ} (le : v.counter ≤ value) (legal : d.legal value v.fence)
    (publishes : d.Publishes t v value) (rest : d.Ok doomed t post next (d.advanced t v value)) :
    d.Ok doomed t post (.advance value next) v := ⟨le, legal, publishes, rest⟩

theorem Ok.fence {value : ℕ}
    (rest : d.Ok doomed t post next (v.passed value)) :
    d.Ok doomed t post (.fence value next) v := rest

theorem Ok.known {turn : ℕ} {next : Value f → Code Value α} (x : Value f)
    (current : d.turnOf v.counter ≤ turn) (known : v.known f = some ⟨x, some ⟨t, turn⟩⟩)
    (rest : d.Ok doomed t post (next x) v) :
    d.Ok doomed t post (.read f ⟨t, turn⟩ next) v := .inl ⟨rfl, current, x, known, rest⟩

theorem Ok.handed {turn : ℕ} {next : Value f → Code Value α} (other : d.owner f = t.other)
    (now : d.turnOf v.counter = turn) (handed : d.handed f turn v.fence v.counter)
    (rest : ∀ x, d.holds f turn x → d.Ok doomed t post (next x) v) :
    d.Ok doomed t post (.read f ⟨d.owner f, turn⟩ next) v := .inr ⟨by rw [now], other, handed, rest⟩

theorem Ok.write {turn : ℕ} {x : Value f} (mine : d.mine t f v.counter v.fence)
    (rest : d.Ok doomed t post next (v.wrote f ⟨x, some ⟨t, turn⟩⟩)) :
    d.Ok doomed t post (.write f turn x next) v := ⟨mine, rest⟩

theorem Ok.bind {p : Code Value β} {rest : β → Code Value α}
    (first : d.Ok doomed t (fun x v' => d.Ok doomed t post (rest x) v') p v) :
    d.Ok doomed t post (p >>= rest) v := by
  induction p generalizing v with
  | ret x => exact first
  | fail => exact first
  | advance value next ih =>
    obtain ⟨le, legal, publishes, tail⟩ := first
    exact .advance le legal publishes (ih tail)
  | fence value next ih => exact .fence (ih first)
  | read f stamp next ih =>
    rcases first with ⟨own, current, x, known, tail⟩ | ⟨now, other, handed, tail⟩
    · exact .inl ⟨own, current, x, known, ih x tail⟩
    · exact .inr ⟨now, other, handed, fun x holds => ih x (tail x holds)⟩
  | write f turn x next ih => exact .write first.1 (ih first.2)

theorem Ok.mono {post' : α → View Value → Prop} {p : Code Value α} (ok : d.Ok doomed t post p v)
    (weaker : ∀ x v', post x v' → post' x v') : d.Ok doomed t post' p v := by
  induction p generalizing v with
  | ret x => exact weaker x v ok
  | fail => exact ok
  | advance value next ih =>
    obtain ⟨le, legal, publishes, tail⟩ := ok
    exact .advance le legal publishes (ih tail)
  | fence value next ih => exact .fence (ih ok)
  | read f stamp next ih =>
    rcases ok with ⟨own, current, x, known, tail⟩ | ⟨now, other, handed, tail⟩
    · exact .inl ⟨own, current, x, known, ih x tail⟩
    · exact .inr ⟨now, other, handed, fun x holds => ih x (tail x holds)⟩
  | write f turn x next ih => exact .write ok.1 (ih ok.2)

end Rules

section Runs

variable {post : Side → View Value → Prop} {s : State Value} {knows : Side → Known Value}

theorem Inv.okOf {code : Code Value Unit} (inv : d.Inv doomed post s knows)
    (stands : (s.thread t).code = code) : d.Ok doomed t (fun _ => post t) code
      ⟨(s.thread t).counter, (s.thread t).lastFence, knows t⟩ := stands ▸ inv.ok t

/-- A read sees the write it is meant to see: one that the thread made itself, and not for an earlier turn, or
what the other thread wrote as the owner of the field for the turn that the reader is in. -/
theorem Inv.read_stamp (inv : d.Inv doomed post s knows) {f : Field} {stamp : Stamp}
    {next : Value f → Code Value Unit} (stands : (s.thread t).code = .read f stamp next) :
    (s.memory f).stamp = some stamp ∧
      (stamp.owner = t ∧ d.turnOf (s.thread t).counter ≤ stamp.turn ∨
        stamp = ⟨d.owner f, d.turnOf (s.thread t).counter⟩) := by
  rcases inv.okOf stands with ⟨own, current, x, known, -⟩ | ⟨now, other, handed, -⟩
  · exact ⟨congrArg Cell.stamp (inv.known t f _ known), .inl ⟨own, current⟩⟩
  · refine ⟨?_, .inr now⟩
    have reached := d.handed_mono handed (inv.fence t) le_rfl
    obtain ⟨x, cell, -⟩ := inv.handed f stamp.turn (by rw [other, Side.other_other]; exact reached)
    rw [cell, now]

/-- No thread is at a field that the other is about to write, however far the other has got. -/
theorem Inv.no_race (inv : d.Inv doomed post s knows) {f : Field} {turn : ℕ} {x : Value f}
    {next : Code Value Unit} (stands : (s.thread t).code = .write f turn x next) :
    (s.thread t.other).code.accesses ≠ some f := by
  have mine := (inv.okOf stands).1
  have fence := inv.fence t
  have fence' := inv.fence t.other
  rw [Side.other_other] at fence'
  intro access
  cases other : (s.thread t.other).code with
  | read g stamp next' =>
    rw [other] at access
    obtain rfl : g = f := Option.some.inj access
    rcases inv.okOf other with ⟨-, -, y, known, -⟩ | ⟨-, owner, handed, -⟩
    · exact d.apart mine (inv.kept t.other g _ known) fence fence'
    · rw [Side.other_other] at owner
      have now := d.handed_mono handed fence' le_rfl
      refine d.closed (c := fun u => (s.thread u).counter) mine (inv.legal t.other) fence fence'
        (n := stamp.turn) ?_
      rw [owner]
      exact now
  | write g turn' y next' =>
    rw [other] at access
    obtain rfl : g = f := Option.some.inj access
    exact d.apart mine (d.keep_of_mine (inv.okOf other).1) fence fence'
  | _ => rw [other] at access; cases access

section Steps

/-- What the step of a thread has to show: the other thread is as it was. -/
theorem Inv.install (inv : d.Inv doomed post s knows) {thread : Thread Value}
    {memory : (f : Field) → Cell (Value f)} {own : Known Value}
    (ok : d.Ok doomed t (fun _ => post t) thread.code ⟨thread.counter, thread.lastFence, own⟩)
    (le : (s.thread t).counter ≤ thread.counter)
    (fence : thread.lastFence ≤ (s.thread t.other).counter)
    (legal : d.legal thread.counter thread.lastFence)
    (known : ∀ f cell, own f = some cell → memory f = cell)
    (kept : ∀ f cell, own f = some cell → d.keep t f thread.counter thread.lastFence)
    (frame : ∀ f cell, knows t.other f = some cell → memory f = cell)
    (mine : ∀ f n, d.owner f = t → d.handed f n thread.counter (s.thread t.other).counter →
      ∃ x, memory f = ⟨x, some ⟨t, n⟩⟩ ∧ d.holds f n x)
    (theirs : ∀ f n, d.owner f = t.other → d.handed f n (s.thread t.other).counter thread.counter →
      ∃ x, memory f = ⟨x, some ⟨t.other, n⟩⟩ ∧ d.holds f n x) :
    d.Inv doomed post { s.install t thread with memory := memory }
      (Function.update knows t own) where
  ok u := by
    rcases u.eq_or_other t with rfl | rfl
    · simpa using ok
    · simpa using inv.ok t.other
  fence u := by
    rcases u.eq_or_other t with rfl | rfl
    · simpa using fence
    · simpa using (inv.fence t.other).trans (by simpa using le)
  legal u := by
    rcases u.eq_or_other t with rfl | rfl
    · simpa using legal
    · simpa using inv.legal t.other
  known u f cell := by
    rcases u.eq_or_other t with rfl | rfl
    · simpa using known f cell
    · simpa using frame f cell
  kept u f cell := by
    rcases u.eq_or_other t with rfl | rfl
    · simpa using kept f cell
    · simpa using inv.kept t.other f cell
  handed f n := by
    rcases (d.owner f).eq_or_other t with owner | owner
    · simpa [owner] using mine f n owner
    · simpa [owner] using theirs f n owner

theorem Inv.mine (inv : d.Inv doomed post s knows) (f n) (owner : d.owner f = t)
    (handed : d.handed f n (s.thread t).counter (s.thread t.other).counter) :
    ∃ x, s.memory f = ⟨x, some ⟨t, n⟩⟩ ∧ d.holds f n x := by
  simpa [owner] using inv.handed f n (by simpa [owner] using handed)

theorem Inv.theirs (inv : d.Inv doomed post s knows) (f n) (owner : d.owner f = t.other)
    (handed : d.handed f n (s.thread t.other).counter (s.thread t).counter) :
    ∃ x, s.memory f = ⟨x, some ⟨t.other, n⟩⟩ ∧ d.holds f n x := by
  simpa [owner] using inv.handed f n (by simpa [owner] using handed)

theorem Inv.act_advance (inv : d.Inv doomed post s knows) {value : ℕ} {next : Code Value Unit}
    (stands : (s.thread t).code = .advance value next) : ∃ knows', d.Inv doomed post (s.act t) knows' := by
  rw [State.act_advance stands]
  obtain ⟨le, legal, publishes, rest⟩ := inv.okOf stands
  refine ⟨_, inv.install rest le (inv.fence t) legal (fun f cell own => ?_) (fun f cell own => ?_)
    (inv.known t.other) (fun f n owner handed => ?_) fun f n owner handed =>
      inv.theirs f n owner (d.handed_mono handed le_rfl le)⟩
  · split at own
    · exact inv.known t f cell own
    · cases own
  · split at own
    · assumption
    · cases own
  · by_cases before : d.handed f n (s.thread t).counter (s.thread t.other).counter
    · exact inv.mine f n owner before
    · obtain ⟨x, own, holds⟩ := publishes f n _ owner (inv.fence t) handed before
      exact ⟨x, inv.known t f _ own, holds⟩

theorem Inv.act_fence (inv : d.Inv doomed post s knows) {value : ℕ} {next : Code Value Unit}
    (stands : (s.thread t).code = .fence value next) : ∃ knows', d.Inv doomed post (s.act t) knows' := by
  have rest := inv.okOf stands
  rw [State.act_fence stands]
  by_cases passes : s.passes t value
  · rw [if_pos passes]
    have fence : max (s.thread t).lastFence value ≤ (s.thread t.other).counter := by
      have := inv.fence t
      unfold State.passes at passes
      omega
    exact ⟨_, inv.install rest le_rfl fence (d.legal_mono (inv.legal t) (le_max_left _ _))
      (inv.known t) (fun f cell own => d.keep_mono (inv.kept t f cell own) (le_max_left _ _))
      (inv.known t.other) inv.mine inv.theirs⟩
  · rw [if_neg passes]
    exact ⟨knows, inv⟩

theorem Inv.act_read (inv : d.Inv doomed post s knows) {f : Field} {stamp : Stamp}
    {next : Value f → Code Value Unit} (stands : (s.thread t).code = .read f stamp next) :
    ∃ knows', d.Inv doomed post (s.act t) knows' := by
  have rest : d.Ok doomed t (fun _ => post t) (next (s.memory f).value)
      ⟨(s.thread t).counter, (s.thread t).lastFence, knows t⟩ := by
    rcases inv.okOf stands with ⟨-, -, x, known, rest⟩ | ⟨-, other, handed, rest⟩
    · rw [inv.known t f _ known]
      exact rest
    · have now := d.handed_mono handed (inv.fence t) le_rfl
      obtain ⟨x, cell, holds⟩ := inv.theirs f stamp.turn other now
      rw [cell]
      exact rest x holds
  rw [State.act_read stands]
  exact ⟨_, inv.install rest le_rfl (inv.fence t) (inv.legal t) (inv.known t) (inv.kept t) (inv.known t.other)
    inv.mine inv.theirs⟩

theorem Inv.act_write (inv : d.Inv doomed post s knows) {f : Field} {turn : ℕ} {x : Value f}
    {next : Code Value Unit} (stands : (s.thread t).code = .write f turn x next) :
    ∃ knows', d.Inv doomed post (s.act t) knows' := by
  obtain ⟨may, rest⟩ := inv.okOf stands
  have fence := inv.fence t
  have fence' := inv.fence t.other
  rw [Side.other_other] at fence'
  -- What is written has not been handed over, and the other thread knows nothing of it.
  have closed (n : ℕ) : ¬d.handed f n (s.thread (d.owner f)).counter
      (s.thread (d.owner f).other).counter :=
    d.closed (c := fun u => (s.thread u).counter) may (inv.legal t.other) fence fence'
  rw [State.act_write stands]
  refine ⟨_, inv.install rest le_rfl fence (inv.legal t) (fun g cell own => ?_)
    (fun g cell own => ?_) (fun g cell own => ?_) (fun g n owner handed => ?_)
    fun g n owner handed => ?_⟩
  · by_cases same : g = f
    · subst same
      simpa using own
    · simpa [same] using inv.known t g cell (by simpa [same] using own)
  · by_cases same : g = f
    · subst same
      exact d.keep_of_mine may
    · exact inv.kept t g cell (by simpa [same] using own)
  · by_cases same : g = f
    · subst same
      exact (d.apart may (inv.kept t.other g cell own) fence fence').elim
    · simpa [same] using inv.known t.other g cell own
  · by_cases same : g = f
    · subst same
      exact (closed n (by simpa [owner] using handed)).elim
    · simpa [same] using inv.mine g n owner handed
  · by_cases same : g = f
    · subst same
      exact (closed n (by simpa [owner] using handed)).elim
    · simpa [same] using inv.theirs g n owner handed

theorem Inv.act (inv : d.Inv doomed post s knows) (clean : (s.act t).error = false) :
    ∃ knows', d.Inv doomed post (s.act t) knows' := by
  cases stands : (s.thread t).code with
  | ret x =>
    rw [State.act_ret stands]
    exact ⟨knows, inv⟩
  | fail => simp [State.act_fail stands] at clean
  | advance value next => exact inv.act_advance stands
  | fence value next => exact inv.act_fence stands
  | read f stamp next => exact inv.act_read stands
  | write f turn x next => exact inv.act_write stands

/-- Where a thread fails the run was bound to. -/
theorem Inv.act_clean (inv : d.Inv doomed post s knows) (sound : ¬doomed)
    (clean : s.error = false) : (s.act t).error = false := by
  cases stands : (s.thread t).code with
  | ret x => rwa [State.act_ret stands]
  | fail => exact absurd (inv.okOf stands) sound
  | advance value next => rwa [State.act_advance stands]
  | fence value next =>
    rw [State.act_fence stands]
    split <;> exact clean
  | read f stamp next => rwa [State.act_read stands]
  | write f turn x next => rwa [State.act_write stands]

theorem step_of_error (error : s.error = true) (move : Move) : s.step move = s := by
  unfold State.step
  rw [if_pos error]

theorem step_act (clean : s.error = false) : s.step (.act t) = s.act t := by
  simp [State.step, clean]

theorem step_giveUp (clean : s.error = false) : s.step (.giveUp t) = s.giveUp t := by
  simp [State.step, clean]

theorem Inv.step (inv : d.Inv doomed post s knows) {move : Move}
    (clean : (s.step move).error = false) : ∃ knows', d.Inv doomed post (s.step move) knows' := by
  cases error : s.error with
  | true =>
    rw [step_of_error error]
    exact ⟨knows, inv⟩
  | false =>
    cases move with
    | act t =>
      rw [step_act error] at clean ⊢
      exact inv.act clean
    | giveUp t =>
      rw [step_giveUp error] at clean ⊢
      rcases s.giveUp_cases t with stays | raised
      · rw [stays]
        exact ⟨knows, inv⟩
      · rw [raised] at clean
        cases clean

theorem run_error (error : s.error = true) (moves : List Move) : (s.run moves).error = true := by
  induction moves with
  | nil => exact error
  | cons move moves ih =>
    rw [State.run, List.foldl_cons, step_of_error error]
    exact ih

/-- Every run that raises no error flag keeps to the discipline. -/
theorem Inv.run (inv : d.Inv doomed post s knows) (moves : List Move)
    (clean : (s.run moves).error = false) : ∃ knows', d.Inv doomed post (s.run moves) knows' := by
  induction moves generalizing s knows with
  | nil => exact ⟨knows, inv⟩
  | cons move moves ih =>
    rw [State.run, List.foldl_cons, ← State.run] at clean ⊢
    have first : (s.step move).error = false := by
      by_contra error
      rw [Bool.not_eq_false] at error
      rw [run_error error] at clean
      cases clean
    obtain ⟨knows', inv'⟩ := inv.step first
    exact ih inv' clean

section Alone

/-- Some schedule on which the other thread rests leads to `shared`, with `rest` still to do. -/
def Leads (s : State Value) (t : Side) (shared : Shared Value) (rest : Code Value Unit)
    (ends : ℕ → Prop) : Prop :=
  ∃ moves, (s.run moves).shared = shared ∧ (s.run moves).error = false ∧
    ((s.run moves).thread t).code = rest ∧ (s.run moves).thread t.other = s.thread t.other ∧
    ends ((s.run moves).thread t).counter

theorem Leads.act {s' : State Value} {shared : Shared Value} {rest : Code Value Unit}
    {ends : ℕ → Prop} (clean : s.error = false) (act : s.act t = s')
    (same : s'.thread t.other = s.thread t.other) (tail : Leads s' t shared rest ends) :
    Leads s t shared rest ends := by
  obtain ⟨moves, reached, clean', code, other, ended⟩ := tail
  refine ⟨.act t :: moves, ?_⟩
  rw [State.run, List.foldl_cons, ← State.run, step_act clean, act, ← same]
  exact ⟨reached, clean', code, other, ended⟩

/-- A piece of a thread that runs alone does what it does on some schedule. -/
theorem Inv.alone {p : Code Value Unit} {rest : Unit → Code Value Unit} {ends : ℕ → Prop} {g : ℕ}
    (inv : d.Inv doomed post s knows) (sound : ¬doomed) (clean : s.error = false)
    (stands : (s.thread t).code = p >>= rest) (le : g ≤ (s.thread t).lastFence)
    (passes : p.Passes (s.thread t.other).counter ends (s.thread t).counter) :
    Leads s t (p.alone t g s.shared) (rest ()) ends := by
  induction p generalizing s knows g with
  | ret x => exact ⟨[], rfl, clean, stands, rfl, passes⟩
  | fail => exact absurd (inv.okOf stands) sound
  | advance value next ih =>
    have clean' := inv.act_clean (t := t) sound clean
    obtain ⟨knows', inv'⟩ := inv.act clean'
    have act := State.act_advance stands
    rw [act] at inv' clean'
    have tail := ih (g := g) inv' clean' (by rw [State.install_self]; rfl) (by rwa [State.install_self])
      (by rw [State.install_self, State.install_other]; exact passes)
    rw [State.install_shared] at tail
    exact .act clean act (State.install_other ..) tail
  | fence value next ih =>
    have clean' := inv.act_clean (t := t) sound clean
    obtain ⟨knows', inv'⟩ := inv.act clean'
    obtain ⟨reached, later⟩ := passes
    have act := State.act_fence stands
    rw [if_pos (.inr reached)] at act
    rw [act] at inv' clean'
    have tail := ih (g := max g value) inv' clean' (by rw [State.install_self]; rfl)
      (by rw [State.install_self]; exact max_le_max_right value le)
      (by rw [State.install_self, State.install_other]; exact later)
    rw [State.install_shared_self] at tail
    have whole : (Code.fence value next).alone t g s.shared = next.alone t (max g value) s.shared :=
      if_pos (.inr reached)
    rw [whole]
    exact .act clean act (State.install_other ..) tail
  | read f stamp next ih =>
    have clean' := inv.act_clean (t := t) sound clean
    obtain ⟨knows', inv'⟩ := inv.act clean'
    have act := State.act_read stands
    rw [act] at inv' clean'
    have tail := ih (s.memory f).value (g := g) inv' clean' (by rw [State.install_self]; rfl)
      (by rwa [State.install_self])
      (by rw [State.install_self, State.install_other]; exact passes _)
    rw [State.install_shared_self] at tail
    exact .act clean act (State.install_other ..) tail
  | write f turn x next ih =>
    have clean' := inv.act_clean (t := t) sound clean
    obtain ⟨knows', inv'⟩ := inv.act clean'
    have act := State.act_write stands
    rw [act] at inv' clean'
    have tail := ih (g := g) inv' clean' (by simp only [State.install_self]; rfl)
      (by simpa only [State.install_self] using le)
      (by simp only [State.install_self, State.install_other]; exact passes)
    have counters := State.install_shared_self s t (next.bind rest) (s.thread t).lastFence
    have written : ({ s.install t ⟨next.bind rest, (s.thread t).counter, (s.thread t).lastFence⟩ with
        memory := Function.update s.memory f ⟨x, some ⟨t, turn⟩⟩ } : State Value).shared =
        { s.shared with memory := Function.update s.memory f ⟨x, some ⟨t, turn⟩⟩ } :=
      congrArg (Shared.mk _ · s.error) (congrArg Shared.counter counters)
    rw [written] at tail
    exact .act clean act (State.install_other ..) tail

end Alone

end Steps

end Runs

end Discipline

end Handover
