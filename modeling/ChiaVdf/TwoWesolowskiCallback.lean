import ChiaVdf.RepeatedSquare

/-! `TwoWesolowskiCallback` of `callback.h`: the checkpoints of a 2-weso session, every tenth form
up to the switch and every hundredth after it. All operations hold `forms_mutex`; `kl` is read
without it, but only by the thread that writes it. -/
namespace ChiaVdf

open RepeatedSquare (kMaxItersAllowed kSwitchIters Event)

structure TwoWesolowskiCallback (F : Type) where
  formsCapacity : ℕ
  forms : ℕ → Option F
  kl : ℕ
  transitionState : ℕ

namespace TwoWesolowskiCallback

variable {F α : Type}

/-- `switch_iters` is kept in the upper half, with -1 (unset) as 0. -/
def encodeTransitionState (switchIndexValue : ℕ) (switchItersValue : ℤ) : Exec ℕ :=
  if switchIndexValue > 2 ^ 32 - 1 then .thrown "TwoWesolowskiCallback switch_index overflow"
  else if switchItersValue < -1 ∨ switchItersValue > 2 ^ 32 - 2 then
    .thrown "TwoWesolowskiCallback switch_iters overflow"
  else .done ((switchItersValue + 1).toNat <<< 32 ||| switchIndexValue)

def decodeSwitchIndex (state : ℕ) : ℕ := state &&& 0xffffffff

def decodeSwitchIters (state : ℕ) : ℤ := (state >>> 32 : ℕ) - 1

def getEffectiveKl (power state : ℕ) : ℕ :=
  if decodeSwitchIters state = -1 ∨ power < (decodeSwitchIters state).toNat then 10 else 100

def getPositionFromSnapshot (power state : ℕ) : ℕ :=
  if decodeSwitchIters state = -1 ∨ power < (decodeSwitchIters state).toNat then power / 10
  else decodeSwitchIndex state + (power - (decodeSwitchIters state).toNat) / 100

/-- The constructor; the initial transition state encodes -1 and 0. -/
def start (f : F) : TwoWesolowskiCallback F where
  formsCapacity := kSwitchIters / 10 + (kMaxItersAllowed - kSwitchIters) / 100
  forms i := if i = 0 then some f else none
  kl := 10
  transitionState := 0

def increaseConstants (numIters : ℕ) (c : TwoWesolowskiCallback F) :
    Exec (TwoWesolowskiCallback F) := do
  let state ← encodeTransitionState (numIters / 10) numIters
  return { c with transitionState := state, kl := 100 }

def getPosition (power : ℕ) (c : TwoWesolowskiCallback F) : ℕ :=
  getPositionFromSnapshot power c.transitionState

/-- The form at a slot; `none` if nothing was ever stored there. -/
def getFormCopy (power : ℕ) (c : TwoWesolowskiCallback F) : Exec (Option F) :=
  if c.getPosition power ≥ c.formsCapacity then
    .thrown "TwoWesolowskiCallback::GetFormCopy out of bounds"
  else .done (c.forms (c.getPosition power))

def largeConstants (c : TwoWesolowskiCallback F) : Bool := decodeSwitchIters c.transitionState ≠ -1

/-- `forms[pos] = form`. -/
def store (pos : ℕ) (form : F) (c : TwoWesolowskiCallback F) : TwoWesolowskiCallback F :=
  { c with forms := Function.update c.forms pos (some form) }

@[simp] theorem store_formsCapacity (pos : ℕ) (form : F) (c : TwoWesolowskiCallback F) :
    (c.store pos form).formsCapacity = c.formsCapacity := rfl

@[simp] theorem store_forms_self (pos : ℕ) (form : F) (c : TwoWesolowskiCallback F) :
    (c.store pos form).forms pos = some form := Function.update_self ..

theorem store_forms_of_ne {pos other : ℕ} (apart : other ≠ pos) (form : F)
    (c : TwoWesolowskiCallback F) : (c.store pos form).forms other = c.forms other :=
  Function.update_of_ne apart ..

/-- `setForm` copies what `data` points to and reduces it. -/
def onIteration (setForm : α → F) (data : α) (iteration : ℕ) (c : TwoWesolowskiCallback F) :
    Exec (TwoWesolowskiCallback F) :=
  let iteration := iteration + 1
  if iteration % c.kl ≠ 0 then .done c
  else if iteration % getEffectiveKl iteration c.transitionState ≠ 0 then .done c
  else
    let pos := getPositionFromSnapshot iteration c.transitionState
    if pos ≥ c.formsCapacity then .thrown "TwoWesolowskiCallback::OnIteration out of bounds"
    else .done (c.store pos (setForm data))

/-- Where the stride changed, if it did: `kl` follows the two halves of the state. -/
def Switched (c : TwoWesolowskiCallback F) : Option ℕ → Prop
  | none => c.kl = 10 ∧ c.transitionState = 0
  | some n => c.kl = 100 ∧ encodeTransitionState (n / 10) n = .done c.transitionState

/-- The powers that stay available. -/
def Retained (switch : Option ℕ) (p : ℕ) : Prop :=
  p = 0 ∨ (p % 10 = 0 ∧ ∀ n ∈ switch, p ≤ n) ∨ (p % 100 = 0 ∧ ∃ n ∈ switch, n < p)

/-- The index map, in terms of the switch point. -/
def slot (switch : Option ℕ) (p : ℕ) : ℕ :=
  match switch with
  | none => p / 10
  | some n => if p < n then p / 10 else n / 10 + (p - n) / 100

section Transition

variable {c : TwoWesolowskiCallback F} {switch : Option ℕ} {n p q state : ℕ}

theorem decode_encode {switchIndex : ℕ} {switchIters : ℤ}
    (run : encodeTransitionState switchIndex switchIters = .done state) :
    decodeSwitchIndex state = switchIndex ∧ decodeSwitchIters state = switchIters := by
  unfold encodeTransitionState at run
  split_ifs at run with large range
  obtain rfl := Exec.done.inj run
  have small : switchIndex < 2 ^ 32 := by omega
  rw [decodeSwitchIndex, decodeSwitchIters, ← Nat.shiftLeft_add_eq_or_of_lt small]
  constructor
  · rw [show 0xffffffff = 2 ^ 32 - 1 from rfl, Nat.and_two_pow_sub_one_eq_mod, Nat.shiftLeft_eq]
    omega
  · rw [Nat.shiftRight_eq_div_pow, Nat.shiftLeft_eq]
    omega

theorem Switched.getPosition (switched : c.Switched switch) (p : ℕ) :
    c.getPosition p = slot switch p := by
  cases switch with
  | none =>
    have unset : decodeSwitchIters 0 = -1 := rfl
    simp [TwoWesolowskiCallback.getPosition, getPositionFromSnapshot, switched.2, unset, slot]
  | some n =>
    obtain ⟨index, iters⟩ := decode_encode switched.2
    have set : ¬(n : ℤ) = -1 := by omega
    simp [TwoWesolowskiCallback.getPosition, getPositionFromSnapshot, index, iters, set, slot]

/-- The hint `kl` decides: what it lets through, the effective stride lets through too. -/
theorem Switched.onIteration (switched : c.Switched switch) (setForm : α → F) (data : α) (i : ℕ) :
    onIteration setForm data i c =
      if (i + 1) % c.kl ≠ 0 then .done c
      else if slot switch (i + 1) ≥ c.formsCapacity then
        .thrown "TwoWesolowskiCallback::OnIteration out of bounds"
      else .done (c.store (slot switch (i + 1)) (setForm data)) := by
  have position := switched.getPosition (i + 1)
  have through : (i + 1) % c.kl = 0 → (i + 1) % getEffectiveKl (i + 1) c.transitionState = 0 := by
    intro multiple
    unfold getEffectiveKl
    cases switch with
    | none =>
      have unset : decodeSwitchIters 0 = -1 := rfl
      rw [switched.1] at multiple
      simp [switched.2, unset, multiple]
    | some n =>
      rw [switched.1] at multiple
      split_ifs <;> omega
  by_cases skipped : (i + 1) % c.kl = 0
  · rw [TwoWesolowskiCallback.getPosition] at position
    simp only [TwoWesolowskiCallback.onIteration, skipped, through skipped, ne_eq, not_true,
      if_false, position]
  · simp [TwoWesolowskiCallback.onIteration, skipped]

theorem slot_injective (multiple : ∀ n ∈ switch, n % 100 = 0) (keptP : Retained switch p)
    (keptQ : Retained switch q) (same : slot switch p = slot switch q) : p = q := by
  cases switch with
  | none =>
    simp only [Retained, Option.not_mem_none, false_implies, implies_true, and_true, false_and,
      exists_false, and_false, or_false] at keptP keptQ
    simp only [slot] at same
    omega
  | some n =>
    have hundred := multiple n rfl
    simp only [Retained, Option.mem_some_iff, forall_eq', exists_eq_left'] at keptP keptQ
    simp only [slot] at same
    split_ifs at same <;> omega

theorem Switched.retained (switched : c.Switched switch) (reached : ∀ n ∈ switch, n < p)
    (multiple : p % c.kl = 0) : Retained switch p := by
  cases switch with
  | none => exact .inr (.inl ⟨switched.1 ▸ multiple, by simp⟩)
  | some n => exact .inr (.inr ⟨switched.1 ▸ multiple, n, rfl, reached n rfl⟩)

theorem Switched.multiple_of_retained (switched : c.Switched switch)
    (reached : ∀ n ∈ switch, n < p) (kept : Retained switch p) : p % c.kl = 0 := by
  cases switch with
  | none =>
    rw [switched.1]
    rcases kept with rfl | ⟨ten, -⟩ | ⟨-, n, absurd, -⟩
    · rfl
    · exact ten
    · cases absurd
  | some n =>
    rw [switched.1]
    have later := reached n rfl
    rcases kept with rfl | ⟨-, before⟩ | ⟨hundred, -⟩
    · rfl
    · exact absurd (before n rfl) (by omega)
    · exact hundred

end Transition

section Store

/-- The form delivered after `p` squarings. -/
def formAfter (setForm : α → F) (f : F) (sent : List α) : ℕ → Option F
  | 0 => some f
  | p + 1 => sent[p]?.map setForm

/-- A run: the iterations are delivered in order, and the stride changes at most once, when the
number of iterations done is a multiple of 100. -/
inductive Run (setForm : α → F) (f : F) : TwoWesolowskiCallback F → List α → Option ℕ → Prop where
  | start : Run setForm f (start f) [] none
  | onIteration {c c' : TwoWesolowskiCallback F} {sent : List α} {switch : Option ℕ} {data : α} :
    Run setForm f c sent switch →
    onIteration setForm data sent.length c = .done c' → Run setForm f c' (sent ++ [data]) switch
  | increaseConstants {c c' : TwoWesolowskiCallback F} {sent : List α} : Run setForm f c sent none →
      sent.length % 100 = 0 →
    increaseConstants sent.length c = .done c' → Run setForm f c' sent (some sent.length)

/-- Every form that is kept is in its slot. -/
structure Stores (setForm : α → F) (f : F) (c : TwoWesolowskiCallback F) (sent : List α)
    (switch : Option ℕ) : Prop where
  switched : c.Switched switch
  multiple : ∀ n ∈ switch, n % 100 = 0 ∧ n ≤ sent.length
  kept : ∀ p ≤ sent.length, Retained switch p →
    slot switch p < c.formsCapacity ∧ c.forms (slot switch p) = formAfter setForm f sent p

variable {setForm : α → F} {f : F} {c c' : TwoWesolowskiCallback F} {sent : List α}
  {switch : Option ℕ} {p q : ℕ}

theorem Stores.start : Stores setForm f (start f) [] none where
  switched := ⟨rfl, rfl⟩
  multiple := by simp
  kept p le _ := by
    obtain rfl := Nat.le_zero.mp le
    exact ⟨show 0 < kSwitchIters / 10 + (kMaxItersAllowed - kSwitchIters) / 100 by decide, rfl⟩

theorem formAfter_append {data : α} (le : p ≤ sent.length) :
    formAfter setForm f (sent ++ [data]) p = formAfter setForm f sent p := by
  cases p with
  | zero => rfl
  | succ p => rw [formAfter, formAfter, List.getElem?_append_left (by omega)]

theorem Stores.onIteration {data : α} (stores : Stores setForm f c sent switch)
    (run : onIteration setForm data sent.length c = .done c') :
    Stores setForm f c' (sent ++ [data]) switch := by
  have reached : ∀ n ∈ switch, n < sent.length + 1 := by
    intro n member
    have := (stores.multiple n member).2
    omega
  have multiple : ∀ n ∈ switch, n % 100 = 0 ∧ n ≤ (sent ++ [data]).length := by
    intro n member
    have := stores.multiple n member
    simp
    omega
  rw [stores.switched.onIteration] at run
  split_ifs at run with skipped full
  · -- not a checkpoint, hence not a power that is kept
    obtain rfl := Exec.done.inj run
    refine ⟨stores.switched, multiple, fun p le kept => ?_⟩
    rw [List.length_append, List.length_singleton] at le
    by_cases last : p = sent.length + 1
    · subst last
      exact absurd (stores.switched.multiple_of_retained reached kept) skipped
    · rw [formAfter_append (by omega)]
      exact stores.kept p (by omega) kept
  · obtain rfl := Exec.done.inj run
    have new := stores.switched.retained reached (not_not.mp skipped)
    refine ⟨?_, multiple, fun p le kept => ?_⟩
    · have switched := stores.switched
      cases switch <;> exact switched
    rw [List.length_append, List.length_singleton] at le
    by_cases last : p = sent.length + 1
    · subst last
      exact ⟨by rw [store_formsCapacity]; omega, by simp [formAfter]⟩
    · have apart : slot switch p ≠ slot switch (sent.length + 1) := fun same =>
        last (slot_injective (fun n member => (stores.multiple n member).1) kept new same)
      rw [formAfter_append (by omega), store_forms_of_ne apart, store_formsCapacity]
      exact stores.kept p (by omega) kept

theorem Stores.increaseConstants (stores : Stores setForm f c sent none)
    (hundred : sent.length % 100 = 0) (run : increaseConstants sent.length c = .done c') :
    Stores setForm f c' sent (some sent.length) := by
  obtain ⟨state, encoded, rest⟩ := Exec.bind_eq_done.mp run
  obtain rfl := Exec.done.inj rest
  refine ⟨⟨rfl, encoded⟩, by simp [hundred], fun p le kept => ?_⟩
  have ten : p % 10 = 0 := by
    rcases kept with rfl | ⟨ten, -⟩ | ⟨hundred, -⟩ <;> omega
  have same : slot (some sent.length) p = slot none p := by
    simp only [slot]
    split_ifs <;> omega
  rw [same]
  exact stores.kept p le (.inr (.inl ⟨ten, by simp⟩))

theorem Run.stores (run : Run setForm f c sent switch) : Stores setForm f c sent switch := by
  induction run with
  | start => exact Stores.start
  | onIteration _ step ih => exact ih.onIteration step
  | increaseConstants _ hundred step ih => exact ih.increaseConstants hundred step

end Store

section Driven

open RepeatedSquare

/-- What the calls of `repeated_square` do to the callback. -/
def handle (setForm : α → F) (c : TwoWesolowskiCallback F) : Event α → Exec (TwoWesolowskiCallback F)
  | .onIteration data iteration => onIteration setForm data iteration c
  | .increaseConstants n => increaseConstants n c
  | _ => .done c

def replay (setForm : α → F) (events : List (Event α)) (c : TwoWesolowskiCallback F) :
    Exec (TwoWesolowskiCallback F) :=
  events.foldlM (handle setForm) c

variable {setForm : α → F} {c c' : TwoWesolowskiCallback F} {switch : Option ℕ} {f : F}
  {events more : List (Event α)} {bound : ℕ} {s : State α} {mode : Mode} {square : α → α}

theorem replay_append (run : replay setForm events c = .done c') :
    replay setForm (events ++ more) c = replay setForm more c' := by
  unfold replay at run ⊢
  rw [List.foldlM_append, run, Exec.done_bind]

theorem Switched.store (switched : c.Switched switch) (pos : ℕ) (form : F) :
    (c.store pos form).Switched switch := by
  cases switch <;> exact switched

variable (setForm) in
/-- Calls whose powers fit leave the index map alone and do not throw. -/
theorem Switched.replay (switched : c.Switched switch) (calls : OnlyCalls bound events)
    (fits : ∀ p ≤ bound, slot switch p < c.formsCapacity) :
    ∃ c', replay setForm events c = .done c' ∧ c'.Switched switch ∧
      c'.formsCapacity = c.formsCapacity := by
  induction events generalizing c with
  | nil => exact ⟨c, rfl, switched, rfl⟩
  | cons event events ih =>
    obtain ⟨data, i, rfl, lt⟩ := calls event List.mem_cons_self
    have rest : OnlyCalls bound events := fun e member => calls e (List.mem_cons_of_mem _ member)
    have room : ¬slot switch (i + 1) ≥ c.formsCapacity := by
      have := fits (i + 1) (by omega)
      omega
    have step := switched.onIteration setForm data i
    simp only [room, if_false] at step
    unfold TwoWesolowskiCallback.replay
    rw [List.foldlM_cons, handle, step]
    split_ifs with skipped
    · exact ih switched rest fits
    · exact ih (switched.store _ _) rest fits

/-- The loop and the callback agree on the stride, and the switch came in time. -/
structure Tracks (setForm : α → F) (f : F) (s : State α) (c : TwoWesolowskiCallback F)
    (switch : Option ℕ) : Prop where
  replayed : replay setForm s.events (start f) = .done c
  switched : c.Switched switch
  capacity : c.formsCapacity = 16190000
  large : s.largeConstants = switch.isSome
  point : ∀ n ∈ switch, n ≤ kSwitchIters + 42867

/-- The powers that the array has room for: late ones only behind the switch. -/
def Roomy (switch : Option ℕ) (p : ℕ) : Prop :=
  p ≤ kMaxItersAllowed - 500000 + 42867 ∧ (switch = none → p ≤ kSwitchIters + 42867)

theorem Tracks.slot_lt (tracks : Tracks setForm f s c switch) {p : ℕ} (roomy : Roomy switch p) :
    slot switch p < c.formsCapacity := by
  obtain ⟨late, early⟩ := roomy
  rw [tracks.capacity]
  unfold kMaxItersAllowed at late
  cases switch with
  | none =>
    have := early rfl
    simp only [slot, kSwitchIters] at this ⊢
    omega
  | some n =>
    have := tracks.point n rfl
    simp only [slot, kSwitchIters] at this ⊢
    split_ifs <;> omega

theorem Tracks.note (tracks : Tracks setForm f s c switch) {t : State α} {event : Event α}
    (quiet : ∀ c, handle setForm c event = .done c)
    (same : t.largeConstants = s.largeConstants ∧ t.events = s.events ++ [event]) :
    Tracks setForm f t c switch where
  replayed := by
    rw [same.2, replay_append tracks.replayed, replay, List.foldlM_cons, quiet]
    rfl
  switched := tracks.switched
  capacity := tracks.capacity
  large := same.1.trans tracks.large
  point := tracks.point

theorem Tracks.calls (tracks : Tracks setForm f s c switch) {t : State α}
    (calls : OnlyCalls bound more)
    (same : t.largeConstants = s.largeConstants ∧ t.events = s.events ++ more)
    (roomy : ∀ p ≤ bound, Roomy switch p) : ∃ c', Tracks setForm f t c' switch := by
  obtain ⟨c', run, switched, capacity⟩ :=
    tracks.switched.replay setForm calls fun p le => tracks.slot_lt (roomy p le)
  exact ⟨c', {
    replayed := by rw [same.2, replay_append tracks.replayed, run]
    switched := switched
    capacity := capacity.trans tracks.capacity
    large := same.1.trans tracks.large
    point := tracks.point }⟩

/-- The counters between two turns. -/
structure Window (s : State α) : Prop where
  ahead : s.numIterations < s.lastCheckpoint ∨ s.numIterations = 0 ∧ s.lastCheckpoint = 0
  early : s.largeConstants = false → s.lastCheckpoint < kSwitchIters + 2 ^ 15
  late : s.lastCheckpoint < kMaxItersAllowed - 500000 + 2 ^ 15

theorem Window.roomy (window : Window s) (tracks : Tracks setForm f s c switch) {p : ℕ}
    (le : p ≤ s.numIterations + checkpointInterval) : Roomy switch p := by
  have late := window.late
  have ahead := window.ahead
  simp only [kMaxItersAllowed, checkpointInterval] at late le
  refine ⟨by simp only [kMaxItersAllowed]; omega, fun none => ?_⟩
  have early := window.early (by rw [tracks.large, none]; rfl)
  simp only [kSwitchIters] at early ⊢
  omega

/-- The counters while a checkpoint is being passed. -/
structure Passing (slack : ℕ) (s : State α) : Prop where
  passed : s.lastCheckpoint ≤ s.numIterations
  recent : s.numIterations ≤ s.lastCheckpoint + slack
  early : s.largeConstants = false → s.lastCheckpoint < kSwitchIters + 2 ^ 15
  late : s.lastCheckpoint < kMaxItersAllowed - 500000 + 2 ^ 15

theorem notify_frame (mode : Mode) (s : State α) : (notify mode s).f = s.f ∧
    (notify mode s).numIterations = s.numIterations ∧
    (notify mode s).lastCheckpoint = s.lastCheckpoint ∧
    (notify mode s).largeConstants = s.largeConstants ∧ (notify mode s).finished = s.finished := by
  unfold notify
  split_ifs <;> exact ⟨rfl, rfl, rfl, rfl, rfl⟩

theorem Passing.notify {slack : ℕ} (passing : Passing slack s) (mode : Mode) :
    Passing slack (notify mode s) := by
  obtain ⟨-, sameN, sameC, sameL, -⟩ := notify_frame mode s
  exact ⟨by rw [sameC, sameN]; exact passing.passed, by rw [sameC, sameN]; exact passing.recent,
    by rw [sameL, sameC]; exact passing.early, by rw [sameC]; exact passing.late⟩

theorem Tracks.notify (tracks : Tracks setForm f s c switch) (mode : Mode) :
    Tracks setForm f (notify mode s) c switch := by
  unfold RepeatedSquare.notify
  split_ifs
  · exact tracks.note (fun _ => rfl) ⟨rfl, rfl⟩
  · exact tracks.note (fun _ => rfl) ⟨rfl, rfl⟩
  · exact tracks
  · exact tracks

theorem increaseConstants_done {n : ℕ} (small : n ≤ kSwitchIters + 42867) :
    ∃ c', increaseConstants n c = .done c' ∧ c'.Switched (some n) ∧
      c'.formsCapacity = c.formsCapacity := by
  simp only [kSwitchIters] at small
  have index : ¬n / 10 > 2 ^ 32 - 1 := by omega
  have iters : ¬((n : ℤ) < -1 ∨ (n : ℤ) > 2 ^ 32 - 2) := by omega
  have encoded : encodeTransitionState (n / 10) n =
      .done (((n : ℤ) + 1).toNat <<< 32 ||| n / 10) := by
    rw [encodeTransitionState, if_neg index, if_neg iters]
  exact ⟨{ c with transitionState := ((n : ℤ) + 1).toNat <<< 32 ||| n / 10, kl := 100 },
    by rw [increaseConstants, encoded]; rfl, ⟨rfl, encoded⟩, rfl⟩

variable (square) in
/-- After the switch the loop is behind the first checkpoint past `kSwitchIters`. -/
theorem Tracks.passSwitch (tracks : Tracks setForm f s c switch) (passing : Passing 10000 s)
    (twoWeso : mode.twoWeso = true) : ∃ c' switch', Passing 10099 (RepeatedSquare.switch mode square s) ∧
      Tracks setForm f (RepeatedSquare.switch mode square s) c' switch' ∧
      (switch' = none → (RepeatedSquare.switch mode square s).numIterations < kSwitchIters) := by
  by_cases due : s.numIterations ≥ kSwitchIters ∧ s.largeConstants = false
  · have none : switch = none := by
      have := tracks.large
      rw [due.2] at this
      cases switch with
      | none => rfl
      | some n => cases this
    have early := passing.early due.2
    have late := passing.late
    have recent := passing.recent
    have passed := passing.passed
    have reached : s.numIterations + (100 - s.numIterations % 100) % 100 ≤ kSwitchIters + 42867 := by
      omega
    have calls : OnlyCalls (s.numIterations + (100 - s.numIterations % 100) % 100)
        (repeatedSquareOriginal square s.f s.numIterations ((100 - s.numIterations % 100) % 100)).2 :=
      onlyCalls_original _ _ le_rfl
    obtain ⟨c', tracks'⟩ := tracks.calls (t := { s with events := s.events ++
      (repeatedSquareOriginal square s.f s.numIterations ((100 - s.numIterations % 100) % 100)).2 })
      calls ⟨rfl, rfl⟩ fun p le => ⟨by simp only [kMaxItersAllowed, kSwitchIters] at *; omega, fun _ => by omega⟩
    obtain ⟨c'', run, switched, capacity⟩ := increaseConstants_done (c := c') reached
    refine ⟨c'', some (s.numIterations + (100 - s.numIterations % 100) % 100), ?_, ?_,
      fun absurd => nomatch absurd⟩
    · simp only [RepeatedSquare.switch, twoWeso, due, and_self, if_true]
      exact ⟨passed.trans (Nat.le_add_right _ _), by simp only; omega, by simp, late⟩
    · simp only [RepeatedSquare.switch, twoWeso, due, and_self, if_true]
      constructor
      case replayed =>
        have replayed := tracks'.replayed
        simp only at replayed ⊢
        rw [← List.append_assoc, replay_append replayed, replay, List.foldlM_cons, handle, run]
        rfl
      case switched => exact switched
      case capacity => exact capacity.trans tracks'.capacity
      case large => rfl
      case point => simpa using reached
  · have same : RepeatedSquare.switch mode square s = s := by
      simp only [RepeatedSquare.switch, twoWeso, due, and_false, if_false]
    rw [same]
    refine ⟨c, switch, ⟨passing.passed, passing.recent.trans (by omega), passing.early, passing.late⟩,
      tracks, fun none => ?_⟩
    have small : s.largeConstants = false := by rw [tracks.large, none]; rfl
    by_contra large
    exact due ⟨by omega, small⟩

theorem Tracks.checkpoint (tracks : Tracks setForm f s c switch) (passing : Passing 10000 s)
    (twoWeso : mode.twoWeso = true) : ∃ c' switch',
      Tracks setForm f (checkpoint mode square s) c' switch' ∧
      Roomy switch' (RepeatedSquare.checkpoint mode square s).numIterations ∧
      ((RepeatedSquare.checkpoint mode square s).finished = false →
        Window (RepeatedSquare.checkpoint mode square s)) := by
  have published : Tracks setForm f (publish s) c switch := tracks.note (fun _ => rfl) ⟨rfl, rfl⟩
  have passing' : Passing 10000 (publish s) :=
    ⟨passing.passed, passing.recent, passing.early, passing.late⟩
  obtain ⟨c', switch', passing'', tracks', early⟩ :=
    (published.notify mode).passSwitch square (passing'.notify mode) twoWeso
  have run : RepeatedSquare.checkpoint mode square s =
      advance mode (RepeatedSquare.switch mode square (RepeatedSquare.notify mode (publish s))) := by
    rw [RepeatedSquare.checkpoint, if_pos passing.passed]
  rw [run]
  generalize RepeatedSquare.switch mode square (RepeatedSquare.notify mode (publish s)) = t at *
  have late := passing''.late
  have recent := passing''.recent
  have passed := passing''.passed
  have roomy : Roomy switch' t.numIterations := by
    refine ⟨by omega, fun none => ?_⟩
    have := early none
    omega
  refine ⟨c', switch', ?_, ?_, ?_⟩
  · unfold advance
    split_ifs <;>
      exact ⟨tracks'.replayed, tracks'.switched, tracks'.capacity, tracks'.large, tracks'.point⟩
  · unfold advance
    split_ifs <;> exact roomy
  · unfold advance
    split_ifs with last
    · simp
    · intro _
      have before : ¬t.numIterations ≥ kMaxItersAllowed - 500000 := fun ge => last ⟨twoWeso, ge⟩
      refine ⟨.inl (by simp only; omega), fun small => ?_, by simp only; omega⟩
      have none : switch' = none := by
        have := tracks'.large.symm.trans small
        cases switch' with
        | none => rfl
        | some n => cases this
      have := early none
      simp only
      omega

theorem Tracks.limit (tracks : Tracks setForm f s c switch) (mode : Mode) :
    Tracks setForm f (limit mode s) c switch := by
  unfold RepeatedSquare.limit
  split_ifs
  · exact tracks.note (fun _ => rfl) ⟨rfl, rfl⟩
  · exact tracks

theorem limit_frame (mode : Mode) (s : State α) :
    (RepeatedSquare.limit mode s).numIterations = s.numIterations ∧
    ((RepeatedSquare.limit mode s).finished = false → RepeatedSquare.limit mode s = s) := by
  unfold RepeatedSquare.limit
  split_ifs
  · exact ⟨rfl, by simp⟩
  · exact ⟨rfl, fun _ => rfl⟩

/-- One turn of the loop never overruns the array of checkpoints. -/
theorem Tracks.turn (tracks : Tracks setForm f s c switch) (window : Window s)
    (twoWeso : mode.twoWeso = true) {outcome : Outcome α}
    (size : ∀ delivered f, outcome = .stopped delivered f ∨ outcome = .corrupted delivered →
      delivered.length ≤ checkpointInterval) : ∃ c' switch',
      Tracks setForm f (turn mode square outcome s) c' switch' ∧
      Roomy switch' (RepeatedSquare.turn mode square outcome s).numIterations ∧
      ((RepeatedSquare.turn mode square outcome s).finished = false →
        Window (RepeatedSquare.turn mode square outcome s)) := by
  obtain ⟨m, more, positive, le, calls, progress⟩ :=
    batch_progress (show 1 ≤ checkpointInterval by decide) size
  have roomy : ∀ p ≤ s.numIterations + checkpointInterval, Roomy switch p :=
    fun p le => window.roomy tracks le
  obtain ⟨c₁, tracks₁⟩ := tracks.calls (t := batch square checkpointInterval outcome s) calls
    (by rw [progress]; exact ⟨rfl, rfl⟩) roomy
  have sameN : (batch square checkpointInterval outcome s).numIterations = s.numIterations + m := by
    rw [progress]
  have sameC : (batch square checkpointInterval outcome s).lastCheckpoint = s.lastCheckpoint := by
    rw [progress]
  have sameL : (batch square checkpointInterval outcome s).largeConstants = s.largeConstants := by
    rw [progress]
  have ahead := window.ahead
  have interval : checkpointInterval = 10000 := rfl
  unfold RepeatedSquare.turn
  generalize batch square checkpointInterval outcome s = b at *
  have after : ∃ c' switch', Tracks setForm f (RepeatedSquare.checkpoint mode square b) c' switch' ∧
      Roomy switch' (RepeatedSquare.checkpoint mode square b).numIterations ∧
      ((RepeatedSquare.checkpoint mode square b).finished = false →
        Window (RepeatedSquare.checkpoint mode square b)) := by
    by_cases passed : b.numIterations ≥ b.lastCheckpoint
    · refine tracks₁.checkpoint ⟨passed, by omega, ?_, by rw [sameC]; exact window.late⟩ twoWeso
      rw [sameL, sameC]
      exact window.early
    · have same : RepeatedSquare.checkpoint mode square b = b := by
        rw [RepeatedSquare.checkpoint, if_neg passed]
      rw [same]
      refine ⟨c₁, switch, tracks₁, roomy _ (by omega), fun _ => ⟨.inl (by omega), ?_, by
        rw [sameC]; exact window.late⟩⟩
      rw [sameL, sameC]
      exact window.early
  obtain ⟨c', switch', tracks', roomy', window'⟩ := after
  obtain ⟨sameN', unfinished⟩ := limit_frame mode (RepeatedSquare.checkpoint mode square b)
  refine ⟨c', switch', tracks'.limit mode, by rw [sameN']; exact roomy', fun running' => ?_⟩
  have same := unfinished running'
  rw [same] at running' ⊢
  exact window' running'

variable {IsPower : ℕ → α → Prop} {x : α}

variable (setForm f) in
theorem Reachable.tracks (reachable : Reachable IsPower mode square x s)
    (twoWeso : mode.twoWeso = true) : ∃ c switch, Tracks setForm f s c switch ∧
      Roomy switch s.numIterations ∧ (s.finished = false → Window s) := by
  induction reachable with
  | start =>
    refine ⟨TwoWesolowskiCallback.start f, none, ⟨rfl, ⟨rfl, rfl⟩, rfl, rfl, by simp⟩, ?_, fun _ => ?_⟩
    · exact ⟨Nat.zero_le _, fun _ => Nat.zero_le _⟩
    · exact ⟨.inr ⟨rfl, rfl⟩, fun _ => show 0 < kSwitchIters + 2 ^ 15 by decide,
        show 0 < kMaxItersAllowed - 500000 + 2 ^ 15 by decide⟩
  | turn _ running valid ih =>
    obtain ⟨c, switch, tracks, -, window⟩ := ih
    exact tracks.turn (window running) twoWeso valid.size

end Driven

/-- The store of checkpoints: what is kept can be read back, each power has its own slot, and the
loop of `repeated_square` never leaves the array. -/
theorem checkpoints_kept (setForm : α → F) (f : F) :
    (∀ {c : TwoWesolowskiCallback F} {sent switch}, Run setForm f c sent switch →
      (∀ p ≤ sent.length, Retained switch p → c.getFormCopy p = .done (formAfter setForm f sent p)) ∧
      ∀ p q, Retained switch p → Retained switch q → c.getPosition p = c.getPosition q → p = q) ∧
    ∀ {mode : RepeatedSquare.Mode} {square : α → α} {x : α} {s : RepeatedSquare.State α},
      mode.twoWeso = true → RepeatedSquare.Reachable (fun _ _ => True) mode square x s →
      ∃ c, replay setForm s.events (start f) = .done c ∧
        ∀ p ≤ s.numIterations, c.getPosition p < c.formsCapacity := by
  constructor
  · intro c sent switch run
    have stores := run.stores
    constructor
    · intro p le kept
      obtain ⟨room, stored⟩ := stores.kept p le kept
      rw [getFormCopy, stores.switched.getPosition, if_neg (by omega), stored]
    · intro p q keptP keptQ same
      rw [stores.switched.getPosition, stores.switched.getPosition] at same
      exact slot_injective (fun n member => (stores.multiple n member).1) keptP keptQ same
  · intro mode square x s twoWeso reachable
    obtain ⟨c, switch, tracks, roomy, -⟩ := Reachable.tracks setForm f reachable twoWeso
    refine ⟨c, tracks.replayed, fun p le => ?_⟩
    rw [tracks.switched.getPosition]
    exact tracks.slot_lt ⟨le.trans roomy.1, fun none => le.trans (roomy.2 none)⟩

theorem Run.deliver {setForm : α → F} {f : F} {c c' : TwoWesolowskiCallback F} {sent more : List α}
    {switch : Option ℕ} (run : Run setForm f c sent switch)
    (step : replay setForm (RepeatedSquare.deliver sent.length more) c = .done c') :
    Run setForm f c' (sent ++ more) switch := by
  induction more generalizing c sent with
  | nil =>
    obtain rfl := Exec.done.inj step
    simpa using run
  | cons data more ih =>
    unfold replay at step
    rw [RepeatedSquare.deliver, List.foldlM_cons] at step
    obtain ⟨next, first, rest⟩ := Exec.bind_eq_done.mp step
    have one := run.onIteration first
    rw [← List.singleton_append, ← List.append_assoc]
    exact ih one (by rwa [List.length_append, List.length_singleton])

theorem slot_some_le (n p : ℕ) : slot (some n) p ≤ n / 10 + (p - n) / 100 := by
  simp only [slot]
  split_ifs <;> omega

theorem Run.proceed {setForm : α → F} {f : F} {c : TwoWesolowskiCallback F} {sent : List α} {switch : Option ℕ}
    (run : Run setForm f c sent switch) (more : List α)
    (room : ∀ p ≤ sent.length + more.length, slot switch p < c.formsCapacity) :
    ∃ c', Run setForm f c' (sent ++ more) switch ∧ c'.Switched switch ∧ c'.formsCapacity = c.formsCapacity := by
  obtain ⟨c', replayed, switched, capacity⟩ :=
    run.stores.switched.replay setForm (RepeatedSquare.onlyCalls_deliver more le_rfl) room
  exact ⟨c', run.deliver replayed, switched, capacity⟩

/-- The form after ten iterations is in the store. -/
theorem checkpoints_kept_ten : ∃ c : TwoWesolowskiCallback ℕ,
    replay id (RepeatedSquare.deliver 0 [1, 2, 3, 4, 5, 6, 7, 8, 9, 10]) (start 0) = .done c ∧
      c.getFormCopy 10 = .done (some 10) := by
  have run : Run id 0 _ ([] ++ [1, 2, 3, 4, 5, 6, 7, 8, 9, 10]) none := Run.start.deliver rfl
  exact ⟨_, rfl, ((checkpoints_kept id 0).1 run).1 10 (by decide) (.inr (.inl ⟨rfl, by simp⟩))⟩

end TwoWesolowskiCallback

end ChiaVdf
