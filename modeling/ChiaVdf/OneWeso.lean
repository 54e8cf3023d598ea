import ChiaVdf.FinishedSegments
import ChiaVdf.ProofGenerators
import ChiaVdf.SegmentIntermediates
import ChiaVdf.ProveTwoWeso

/-! A simple Wesolowski session: `OneWesolowskiCallback` of `callback.h` keeps every `kl`-th form, and
`ProveOneWesolowski` of `vdf.h` makes one proof of them. -/
namespace ChiaVdf

open RepeatedSquare (Event Feed Covered indices lastDelivered IsPower)

/-- `ApproximateParameters` or constants. -/
def OneWesolowskiParameters (iterations k l : ℕ) : Prop :=
  if iterations ≥ 2 ^ 16 then ApproximateParameters iterations l k else k = 10 ∧ l = 1

structure OneWesolowskiCallback (F : Type) where
  wantedIter : ℕ
  kl : ℕ
  formsCapacity : ℕ
  forms : ℕ → Option F
  result : Option F
  iterations : ℕ

namespace OneWesolowskiCallback

variable {F : Type}

def start (wantedIter k l : ℕ) (f : F) : Exec (OneWesolowskiCallback F) :=
  if k * l = 0 then .thrown "OneWesolowskiCallback invalid checkpoint stride"
  else if k * l > 2 ^ 32 - 1 then .thrown "OneWesolowskiCallback checkpoint stride too large"
  else .done ⟨wantedIter, k * l, wantedIter / (k * l) + 100, fun i => if i = 0 then some f else none, none, 0⟩

/-- The checkpoint of an iteration that has one. -/
def setCheckpoint (form : F) (iteration : ℕ) (c : OneWesolowskiCallback F) : Exec (OneWesolowskiCallback F) :=
  if iteration % c.kl = 0 then
    if iteration / c.kl ≥ c.formsCapacity then .thrown "OneWesolowskiCallback::OnIteration out of bounds"
    else .done { c with forms := Function.update c.forms (iteration / c.kl) (some form) }
  else .done c

def onIteration (setForm : F → F) (form : F) (iteration : ℕ) (c : OneWesolowskiCallback F) :
    Exec (OneWesolowskiCallback F) := do
  let iteration := iteration + 1
  if iteration > c.wantedIter then return c
  else
    let c ← c.setCheckpoint (setForm form) iteration
    return if iteration = c.wantedIter then { c with result := some (setForm form) } else c

/-- A call of `repeated_square`; with neither of the two fast algorithms there are no others. -/
def handle (setForm : F → F) (c : OneWesolowskiCallback F) : Event F → Exec (OneWesolowskiCallback F)
  | .onIteration form iteration => c.onIteration setForm form iteration
  | .setIterations n => return { c with iterations := n }
  | _ => return c

def handleAll (setForm : F → F) (events : List (Event F)) (c : OneWesolowskiCallback F) :
    Exec (OneWesolowskiCallback F) :=
  events.foldlM (handle setForm) c

/-- `GetForm` of `OneWesolowskiProver`. -/
def getForm (i : ℕ) (c : OneWesolowskiCallback Form) : Exec Form :=
  if i < c.formsCapacity then .done ((c.forms i).getD .unset) else .fault .outOfBounds

end OneWesolowskiCallback

/-- `repeated_square` of a simple session. -/
def oneWesoMode (iterations : ℕ) : RepeatedSquare.Mode := ⟨false, false, false, iterations⟩

/-- `ProveOneWesolowski`, which waits until enough iterations are done. -/
def VerifierEnv.proveOneWesolowski (env : VerifierEnv) (D : ℤ) (iters k l : ℕ) (f : Form)
    (weso : OneWesolowskiCallback Form) : Exec ProofBytes :=
  if weso.iterations < iters then .diverged
  else do
    let result := weso.result.getD .unset
    let proof ← env.generateProof D ⟨0, UInt64.ofNat iters, f, result, .unset, false⟩ k l fun _ i => weso.getForm i
    let ySerialized ← serializeForm result (numBits D)
    let proofSerialized ← serializeForm proof (numBits D)
    return ⟨ySerialized, proofSerialized, 0⟩

/-- The in-place routines with a hash that is the same for all. -/
def constantHash (turns : ℕ) : VerifierEnv := ⟨.inPlace turns, fun _ => .done (2 ^ 263 : ℕ)⟩

theorem constantHash_top (turns : ℕ) : HashTopBit (constantHash turns) :=
  fun _ => ⟨_, rfl, le_rfl, Nat.pow_lt_pow_right Nat.one_lt_two (Nat.lt_succ_self 263)⟩

theorem VerifierEnv.Below.proveOneWesolowski {env env' : VerifierEnv} (below : env.Below env') (D : ℤ)
    (iters k l : ℕ) (f : Form) (weso : OneWesolowskiCallback Form) :
    Exec.Below (env.proveOneWesolowski D iters k l f weso) (env'.proveOneWesolowski D iters k l f weso) := by
  unfold VerifierEnv.proveOneWesolowski
  split_ifs
  · rfl
  · exact (Prover.generateProof_below below _ _).first

section Prover

variable {d : Discriminant} {env : VerifierEnv} {z : ReducedForm d} {k l : ℕ}

theorem serializeProof_witnessType {D : ℤ} {y : Form} {segments : List Segment} {proof : ProofBytes}
    (run : env.serializeProof D y segments = .done proof) : proof.witnessType = UInt8.ofNat (segments.length - 1) := by
  unfold VerifierEnv.serializeProof at run
  obtain ⟨ySerialized, -, run⟩ := Exec.bind_eq_done.mp run
  cases found : segments[segments.length - 1]? with
  | none => simp [found] at run
  | some last =>
    simp only [found] at run
    obtain ⟨_, -, run⟩ := Exec.bind_eq_done.mp run
    obtain ⟨_, -, run⟩ := Exec.bind_eq_done.mp run
    exact Exec.done.inj run ▸ rfl

/-- With the intermediates of its segment, `GenerateProof` makes an honest proof. -/
theorem generateProof_honest (segm : Segment) (bits : numBits d.D ≤ BQFC_MAX_D_BITS) (lawful : env.arith.Lawful d)
    (top : HashTopBit env) (getForm : ℕ → ℕ → Exec Form) (first : Represents segm.x z)
    (last : Represents segm.y (z ^ 2 ^ segm.length.toNat)) (kpos : 0 < k) (ks : k < 31) (lpos : 0 < l)
    (small : k * l < 2 ^ 32) (range : segm.length.toNat + k * l ≤ 2 ^ 64)
    (given : ∀ j i, i * (k * l) < segm.length.toNat →
      ∃ g, getForm j i = .done g ∧ Represents g (z ^ 2 ^ (i * (k * l)))) :
    ∃ proof, env.generateProof d.D segm k l getForm = .done proof ∧
      HonestSegment env z (z ^ 2 ^ segm.length.toNat) { segm with proof := proof } := by
  obtain ⟨B, hash, low⟩ := top.hashes bits z (z ^ 2 ^ segm.length.toNat)
  have hash' : env.getB d.D segm.x segm.y = .done B := (first.getB last).trans hash
  have large : 2 ^ k ≤ B := (Nat.pow_le_pow_right (by norm_num) (by omega)).trans low
  obtain ⟨proof, run, rep⟩ := Prover.generateProof_spec (x := z) getForm lawful hash' large kpos ks lpos range small (by
    intro j _ i asked
    refine given j i ?_
    calc i * (k * l) = k * (i * l) := by ring
      _ < k * (i * l + j + 1) := Nat.mul_lt_mul_of_pos_left (by omega) kpos
      _ ≤ segm.length.toNat := asked)
  exact ⟨proof, run, first, last, rfl, B, hash, rep⟩

end Prover

namespace OneWesolowskiCallback

section Calls

variable {F : Type} {IsPower : ℕ → F → Prop} {setForm : F → F} {f : F} {T kl : ℕ} {sent more : List (Event F)}
  {c c' : OneWesolowskiCallback F}

/-- The checkpoints and the result are the forms that the last call for them carried. -/
structure Holds (setForm : F → F) (f : F) (T kl : ℕ) (sent : List (Event F)) (c : OneWesolowskiCallback F) : Prop where
  wantedIter : c.wantedIter = T
  stride : c.kl = kl
  formsCapacity : c.formsCapacity = T / kl + 100
  published : c.iterations = RepeatedSquare.iterations sent
  first : c.forms 0 = some f
  later : ∀ m ∈ indices sent, ∀ n, m + 1 = n * kl → m + 1 ≤ T →
    ∃ form, lastDelivered m sent = some form ∧ c.forms n = some (setForm form)
  result : ∀ m ∈ indices sent, m + 1 = T → ∃ form, lastDelivered m sent = some form ∧ c.result = some (setForm form)

theorem Holds.noCall (holds : Holds setForm f T kl sent c) {event : Event F} (noCall : event.index? = none)
    (same : c'.wantedIter = c.wantedIter ∧ c'.kl = c.kl ∧ c'.formsCapacity = c.formsCapacity ∧
      c'.forms = c.forms ∧ c'.result = c.result)
    (published : c'.iterations = RepeatedSquare.iterations (sent ++ [event])) :
    Holds setForm f T kl (sent ++ [event]) c' := by
  obtain ⟨sameW, sameK, sameC, sameF, sameR⟩ := same
  have known := RepeatedSquare.indices_append_of_noCall sent noCall
  constructor
  case wantedIter => exact sameW.trans holds.wantedIter
  case stride => exact sameK.trans holds.stride
  case formsCapacity => exact sameC.trans holds.formsCapacity
  case published => exact published
  case first => exact sameF ▸ holds.first
  case later =>
    intro m member n
    rw [NWeso.lastDelivered_snoc_of_noCall _ noCall, sameF]
    exact holds.later m (known ▸ member) n
  case result =>
    intro m member
    rw [NWeso.lastDelivered_snoc_of_noCall _ noCall, sameR]
    exact holds.result m (known ▸ member)

theorem onIteration_done (holds : Holds setForm f T kl sent c) (form : F) {i : ℕ} (inside : i + 1 ≤ T) :
    c.onIteration setForm form i = .done { c with
      forms := if kl ∣ i + 1 then Function.update c.forms ((i + 1) / kl) (some (setForm form)) else c.forms
      result := if i + 1 = T then some (setForm form) else c.result } := by
  have room : ¬(i + 1) / kl ≥ T / kl + 100 := by
    have := Nat.div_le_div_right (c := kl) inside
    omega
  have stored : c.setCheckpoint (setForm form) (i + 1) = .done { c with
      forms := if kl ∣ i + 1 then Function.update c.forms ((i + 1) / kl) (some (setForm form)) else c.forms } := by
    have whole : c.setCheckpoint (setForm form) (i + 1) = if kl ∣ i + 1 then
        .done { c with forms := Function.update c.forms ((i + 1) / kl) (some (setForm form)) } else .done c := by
      simp only [setCheckpoint, holds.stride, holds.formsCapacity, if_neg room, Nat.dvd_iff_mod_eq_zero]
    rw [whole]
    split_ifs <;> rfl
  rw [onIteration, holds.wantedIter, if_neg (not_lt.mpr inside), stored, Exec.done_bind, holds.wantedIter]
  split_ifs <;> rfl

theorem Holds.onIteration (positive : 0 < kl) (holds : Holds setForm f T kl sent c) (form : F) (i : ℕ) :
    ∃ c', c.onIteration setForm form i = .done c' ∧ Holds setForm f T kl (sent ++ [.onIteration form i]) c' := by
  have published : RepeatedSquare.iterations (sent ++ [.onIteration form i]) = RepeatedSquare.iterations sent := by
    simp [RepeatedSquare.iterations]
  have other {m : ℕ} (member : m ∈ indices (sent ++ [.onIteration form i])) (different : i ≠ m) :
      m ∈ indices sent := by
    rcases RepeatedSquare.mem_indices_append_onIteration.mp member with old | new
    · exact old
    · exact absurd new.symm different
  by_cases beyond : i + 1 > T
  · refine ⟨c, by simp only [OneWesolowskiCallback.onIteration, holds.wantedIter, if_pos beyond, Exec.pure_eq], ?_⟩
    exact { holds with
      published := holds.published.trans published.symm
      later := by
        intro m member n eq le
        have different : i ≠ m := by omega
        rw [NWeso.lastDelivered_snoc, if_neg different]
        exact holds.later m (other member different) n eq le
      result := by
        intro m member eq
        have different : i ≠ m := by omega
        rw [NWeso.lastDelivered_snoc, if_neg different]
        exact holds.result m (other member different) eq }
  · refine ⟨_, onIteration_done holds form (not_lt.mp beyond), ?_⟩
    have later_place {n m : ℕ} (eq : m + 1 = n * kl) (different : i ≠ m) (multiple : kl ∣ i + 1) :
        n ≠ (i + 1) / kl := by
      rintro rfl
      rw [Nat.div_mul_cancel multiple] at eq
      omega
    constructor
    case wantedIter => exact holds.wantedIter
    case stride => exact holds.stride
    case formsCapacity => exact holds.formsCapacity
    case published => exact holds.published.trans published.symm
    case first =>
      dsimp only
      split_ifs with multiple
      · have place : 0 ≠ (i + 1) / kl := by
          intro zero
          have whole := Nat.div_mul_cancel multiple
          rw [← zero] at whole
          omega
        rw [Function.update_of_ne place, holds.first]
      · exact holds.first
    case later =>
      intro m member n eq le
      rw [NWeso.lastDelivered_snoc]
      dsimp only
      by_cases here : i = m
      · subst here
        have multiple : kl ∣ i + 1 := ⟨n, by rw [eq, Nat.mul_comm]⟩
        have place : (i + 1) / kl = n := by rw [eq, Nat.mul_div_cancel _ positive]
        exact ⟨form, if_pos rfl, by rw [if_pos multiple, place, Function.update_self]⟩
      · obtain ⟨form', found, kept⟩ := holds.later m (other member here) n eq le
        refine ⟨form', by rw [if_neg here, found], ?_⟩
        split_ifs with multiple
        · rw [Function.update_of_ne (later_place eq here multiple), kept]
        · exact kept
    case result =>
      intro m member eq
      rw [NWeso.lastDelivered_snoc]
      dsimp only
      by_cases here : i = m
      · subst here
        exact ⟨form, if_pos rfl, by rw [if_pos eq]⟩
      · obtain ⟨form', found, kept⟩ := holds.result m (other member here) eq
        have different : ¬i + 1 = T := by omega
        exact ⟨form', by rw [if_neg here, found], by rw [if_neg different, kept]⟩

theorem Holds.handle (positive : 0 < kl) (holds : Holds setForm f T kl sent c) (event : Event F) :
    ∃ c', c.handle setForm event = .done c' ∧ Holds setForm f T kl (sent ++ [event]) c' := by
  have silent (noCall : event.index? = none)
      (same : RepeatedSquare.iterations (sent ++ [event]) = RepeatedSquare.iterations sent) :
      Holds setForm f T kl (sent ++ [event]) c :=
    holds.noCall noCall ⟨rfl, rfl, rfl, rfl, rfl⟩ (holds.published.trans same.symm)
  cases event with
  | onIteration form i => exact holds.onIteration positive form i
  | setIterations n =>
    exact ⟨_, rfl, holds.noCall rfl ⟨rfl, rfl, rfl, rfl, rfl⟩
      (RepeatedSquare.iterations_append_setIterations sent n).symm⟩
  | submitCheckpoint n => exact ⟨c, rfl, silent rfl (by simp [RepeatedSquare.iterations])⟩
  | newEvent => exact ⟨c, rfl, silent rfl (by simp [RepeatedSquare.iterations])⟩
  | increaseConstants n => exact ⟨c, rfl, silent rfl (by simp [RepeatedSquare.iterations])⟩

theorem Holds.handleAll (positive : 0 < kl) (holds : Holds setForm f T kl sent c) (more : List (Event F)) :
    ∃ c', c.handleAll setForm more = .done c' ∧ Holds setForm f T kl (sent ++ more) c' := by
  induction more generalizing sent c with
  | nil => exact ⟨c, rfl, by rwa [List.append_nil]⟩
  | cons event more ih =>
    obtain ⟨u, step, after⟩ := holds.handle positive event
    obtain ⟨c', run, last⟩ := ih after
    rw [List.append_assoc, List.singleton_append] at last
    exact ⟨c', by rw [OneWesolowskiCallback.handleAll, List.foldlM_cons, step, Exec.done_bind]; exact run, last⟩

theorem handle_settled {event : Event F} (allowed : RepeatedSquare.Allowed IsPower sent event)
    (holds : Holds setForm f T kl sent c) (enough : T ≤ RepeatedSquare.iterations sent)
    (run : c.handle setForm event = .done c') :
    c'.forms = c.forms ∧ c'.result = c.result ∧ c'.formsCapacity = c.formsCapacity := by
  cases allowed with
  | @onIteration form i published =>
    have beyond : i + 1 > c.wantedIter := by
      rw [holds.wantedIter]
      omega
    rw [OneWesolowskiCallback.handle, OneWesolowskiCallback.onIteration, if_pos beyond] at run
    exact Exec.done.inj run ▸ ⟨rfl, rfl, rfl⟩
  | _ => exact Exec.done.inj run ▸ ⟨rfl, rfl, rfl⟩

end Calls

section Session

variable {d : Discriminant} {x : ReducedForm d} {square setForm : Form → Form} {f : Form} {T k l : ℕ}
  {loop : RepeatedSquare.State Form} {sent : List (Event Form)} {c : OneWesolowskiCallback Form}

theorem start_spec (setForm : Form → Form) (f : Form) (T : ℕ) (kpos : 1 ≤ k) (lpos : 1 ≤ l) (fits : k * l < 2 ^ 32) :
    ∃ c, start T k l f = .done c ∧ Holds setForm f T (k * l) [] c := by
  have positive : ¬k * l = 0 := (Nat.mul_pos kpos lpos).ne'
  have small : ¬k * l > 2 ^ 32 - 1 := by omega
  refine ⟨_, by rw [start, if_neg positive, if_neg small], ?_⟩
  constructor <;> simp [RepeatedSquare.iterations, indices]

theorem Holds.forms (holds : Holds setForm f T (k * l) sent c) (kpos : 1 ≤ k) (lpos : 1 ≤ l)
    (feed : Feed (IsPower x) sent) (sets : ∀ n g, IsPower x n g → IsPower x n (setForm g))
    (first : Represents f x) (positive : 0 < T) (enough : T ≤ c.iterations) :
    (∃ y, c.result = some y ∧ Represents y (x ^ 2 ^ T)) ∧ ∀ i, i * (k * l) < T →
      ∃ g, c.getForm i = .done g ∧ Represents g (x ^ 2 ^ (i * (k * l))) := by
  have stride : 0 < k * l := Nat.mul_pos kpos lpos
  have covered := NWeso.covered_iterations feed
  rw [← holds.published] at covered
  have known {m : ℕ} (lt : m < T) : m ∈ indices sent := by
    obtain ⟨_, found, -⟩ := covered m (by omega)
    exact RepeatedSquare.mem_indices_of_lastDelivered found
  have right {m : ℕ} {form : Form} (lt : m < T) (found : lastDelivered m sent = some form) :
      IsPower x (m + 1) (setForm form) := by
    obtain ⟨_, found', power⟩ := covered m (by omega)
    obtain rfl := Option.some.inj (found.symm.trans found')
    exact sets _ _ power
  constructor
  · obtain ⟨form, found, stored⟩ := holds.result (T - 1) (known (by omega)) (by omega)
    have power := right (by omega) found
    rw [Nat.sub_add_cancel positive] at power
    exact ⟨_, stored, power⟩
  · intro i inside
    have room : i < c.formsCapacity := by
      have : i ≤ T / (k * l) := (Nat.le_div_iff_mul_le stride).mpr inside.le
      rw [holds.formsCapacity]
      omega
    rw [getForm, if_pos room]
    rcases Nat.eq_zero_or_pos (i * (k * l)) with zero | later
    · obtain rfl : i = 0 := (Nat.mul_eq_zero.mp zero).resolve_right stride.ne'
      exact ⟨f, by simp [holds.first], by simpa using first⟩
    · obtain ⟨form, found, stored⟩ := holds.later (i * (k * l) - 1) (known (by omega)) i (by omega) (by omega)
      have power := right (by omega) found
      rw [Nat.sub_add_cancel later] at power
      exact ⟨setForm form, by simp [stored], power⟩

/-- `repeated_square` ends by itself only when the wanted iterations are published. -/
theorem published_of_finished {IsPower : ℕ → Form → Prop}
    (reachable : RepeatedSquare.Reachable IsPower (oneWesoMode T) square f loop) (finished : loop.finished = true) :
    T ≤ RepeatedSquare.iterations loop.events := by
  cases reachable with
  | start => cases finished
  | @turn s outcome _ running _ =>
    rw [RepeatedSquare.turn] at finished ⊢
    have open' : (RepeatedSquare.checkpoint (oneWesoMode T) square
        (RepeatedSquare.batch square RepeatedSquare.checkpointInterval outcome s)).finished = false := by
      simp only [RepeatedSquare.checkpoint, RepeatedSquare.advance, RepeatedSquare.switch, RepeatedSquare.notify,
        RepeatedSquare.publish, RepeatedSquare.batch, oneWesoMode, Bool.false_eq_true, false_and, if_false]
      split_ifs <;> exact running
    generalize RepeatedSquare.checkpoint (oneWesoMode T) square
      (RepeatedSquare.batch square RepeatedSquare.checkpointInterval outcome s) = t at finished open'
    rw [RepeatedSquare.limit] at finished ⊢
    split_ifs at finished ⊢ with exceeded
    · rw [RepeatedSquare.iterations_append_setIterations]
      exact exceeded.2.2.le
    · rw [open'] at finished
      cases finished

theorem iterations_le {IsPower : ℕ → Form → Prop} {event : Event Form}
    (allowed : RepeatedSquare.Allowed IsPower sent event) :
    RepeatedSquare.iterations sent ≤ RepeatedSquare.iterations (sent ++ [event]) := by
  cases allowed with
  | setIterations grows _ => rwa [RepeatedSquare.iterations_append_setIterations]
  | _ => simp [RepeatedSquare.iterations]

/-- Once the iterations are done, every later call leaves the proof as it is. -/
theorem handleAll_settled {IsPower : ℕ → Form → Prop} {more : List (Event Form)} {c' : OneWesolowskiCallback Form}
    {kl : ℕ}
    (stride : 0 < kl) (feed : Feed IsPower (sent ++ more)) (holds : Holds setForm f T kl sent c)
    (enough : T ≤ c.iterations) (run : c.handleAll setForm more = .done c') :
    T ≤ c'.iterations ∧ c'.forms = c.forms ∧ c'.result = c.result ∧ c'.formsCapacity = c.formsCapacity := by
  induction more generalizing sent c with
  | nil => exact Exec.done.inj run ▸ ⟨enough, rfl, rfl, rfl⟩
  | cons event more ih =>
    rw [← List.singleton_append, ← List.append_assoc] at feed
    obtain ⟨fed, allowed⟩ := (Feed.of_append feed).last
    obtain ⟨u, step, after⟩ := holds.handle stride event
    rw [OneWesolowskiCallback.handleAll, List.foldlM_cons, step, Exec.done_bind] at run
    have published := holds.published ▸ enough
    have grows : T ≤ u.iterations := by
      rw [after.published]
      exact published.trans (iterations_le allowed)
    obtain ⟨sameF, sameR, sameC⟩ := handle_settled allowed holds published step
    obtain ⟨last, lastF, lastR, lastC⟩ := ih feed after grows run
    exact ⟨last, lastF.trans sameF, lastR.trans sameR, lastC.trans sameC⟩

/-- The proof of a simple session depends on nothing but its checkpoints and its result. -/
theorem proveOneWesolowski_congr (env : VerifierEnv) (D : ℤ) (f : Form) {c' : OneWesolowskiCallback Form}
    (enough : T ≤ c.iterations)
    (enough' : T ≤ c'.iterations) (forms : c'.forms = c.forms) (result : c'.result = c.result)
    (capacity : c'.formsCapacity = c.formsCapacity) :
    env.proveOneWesolowski D T k l f c' = env.proveOneWesolowski D T k l f c := by
  have getForm : (fun _ i => c'.getForm i : ℕ → ℕ → Exec Form) = fun _ i => c.getForm i := by
    simp only [OneWesolowskiCallback.getForm, forms, capacity]
  simp only [VerifierEnv.proveOneWesolowski, if_neg (not_lt.mpr enough), if_neg (not_lt.mpr enough'), getForm, result]

end Session

section Accepted

/-- The proof of a simple session over an arithmetic that comes back. -/
theorem proveOneWesolowski_spec {d : Discriminant} {x : ReducedForm d} {env : VerifierEnv} {setForm : Form → Form}
    {f : Form}
    {T k l : ℕ} {sent : List (Event Form)} {c : OneWesolowskiCallback Form} (bits : numBits d.D ≤ BQFC_MAX_D_BITS)
    (lawful : env.arith.Lawful d) (top : HashTopBit env) (holds : Holds setForm f T (k * l) sent c) (kpos : 1 ≤ k)
    (lpos : 1 ≤ l) (ks : k < 31) (fits : k * l < 2 ^ 32) (feed : Feed (IsPower x) sent)
    (sets : ∀ n g, IsPower x n g → IsPower x n (setForm g)) (rep : Represents f x) (positive : 0 < T)
    (small : T < 2 ^ 62)
    (enough : T ≤ c.iterations) : ∃ proof xS, env.proveOneWesolowski d.D T k l f c = .done proof ∧
      serializeForm f (numBits d.D) = .done xS ∧
      env.checkProofOfTimeNWesolowski d.D xS (proof.y ++ proof.proof) (UInt64.ofNat T)
        (UInt64.ofNat (numBits d.D)) proof.witnessType.toUInt64 = .done true := by
  have sizeT : (UInt64.ofNat T).toNat = T := by
    rw [UInt64.toNat_ofNat']
    omega
  obtain ⟨⟨y, result, repY⟩, given⟩ := holds.forms kpos lpos feed sets rep positive enough
  obtain ⟨pi, generated, honest⟩ := generateProof_honest (k := k) (l := l)
    ⟨0, UInt64.ofNat T, f, y, .unset, false⟩ bits lawful top (fun _ i => c.getForm i) rep
    (by rwa [sizeT]) (by omega) ks (by omega) fits (by rw [sizeT]; omega)
    (by
      intro _ i inside
      rw [sizeT] at inside
      exact given i inside)
  obtain ⟨proof, xS, serialized, writtenX, accepted⟩ := serializeProof_accepted bits lawful top
    (HonestChain.nil.snoc honest) (by simp) (by simp) honest.y (show (UInt64.ofNat T).toNat = _ by simp)
  have made : env.proveOneWesolowski d.D T k l f c = .done proof := by
    rw [← serialized]
    simp only [VerifierEnv.proveOneWesolowski, if_neg (not_lt.mpr enough), result, Option.getD_some, generated,
      Exec.done_bind, VerifierEnv.serializeProof]
    simp [VerifierEnv.appendSegments]
  have single : proof.witnessType = 0 := serializeProof_witnessType serialized
  refine ⟨proof, xS, made, by rwa [rep.serializeForm], ?_⟩
  rw [single]
  exact accepted

/-- A simple session, whatever the fast algorithm does and whenever the prover looks: no call throws or
writes outside the forms; once the wanted iterations are published the prover makes one proof, which later calls
leave as it is and which the verifier accepts, unless they do not come back from the reducer; a loop that ends by
itself has published them. -/
theorem oneWesoSession_accepted (d : Discriminant) (bits : numBits d.D ≤ BQFC_MAX_D_BITS) (turns : ℕ)
    (hash : ByteString → Exec ℤ) (top : HashTopBit ⟨.inPlace turns, hash⟩) (x : ReducedForm d)
    (square setForm : Form → Form)
    (squares : RepeatedSquare.Squares (IsPower x) square) (sets : ∀ n g, IsPower x n g → IsPower x n (setForm g))
    (f : Form) (rep : Represents f x) (T k l : ℕ) (positive : 0 < T) (parameters : OneWesolowskiParameters T k l)
    (kpos : 1 ≤ k) (lpos : 1 ≤ l) (ks : k < 31) (fits : k * l < 2 ^ 32) (loop : RepeatedSquare.State Form)
    (reachable : RepeatedSquare.Reachable (IsPower x) (oneWesoMode T) square f loop) :
    let env : VerifierEnv := ⟨.inPlace turns, hash⟩
    ∃ c₀, start T k l f = .done c₀ ∧
      (∀ sent more, sent ++ more = loop.events → ∃ c c', c₀.handleAll setForm sent = .done c ∧
        c.handleAll setForm more = .done c' ∧
        (T ≤ c.iterations → ∃ proof xS, Exec.Below (env.proveOneWesolowski d.D T k l f c) (.done proof) ∧
          env.proveOneWesolowski d.D T k l f c' = env.proveOneWesolowski d.D T k l f c ∧
          serializeForm f (numBits d.D) = .done xS ∧
          Exec.Below (env.checkProofOfTimeNWesolowski d.D xS (proof.y ++ proof.proof) (UInt64.ofNat T)
            (UInt64.ofNat (numBits d.D)) proof.witnessType.toUInt64) (.done true))) ∧
      (loop.finished = true → ∀ c, c₀.handleAll setForm loop.events = .done c → T ≤ c.iterations) := by
  intro env
  have lawful : env.completed.arith.Lawful d := (FormArith.inPlace_within turns d).completed
  have top' : HashTopBit env.completed := top
  have below := env.below_completed
  obtain ⟨c₀, begun, holds₀⟩ := start_spec setForm f T kpos lpos fits
  have stride : 0 < k * l := Nat.mul_pos kpos lpos
  have zero : IsPower x 0 f := by simpa [IsPower] using rep
  have fed := (reachable.boundary rfl squares zero).feed
  have small : T < 2 ^ 62 := by
    rw [OneWesolowskiParameters] at parameters
    split_ifs at parameters with many
    · exact parameters.lt (by omega)
    · omega
  refine ⟨c₀, begun, ?_, ?_⟩
  · intro sent more whole
    have feed : Feed (IsPower x) (sent ++ more) := whole ▸ fed
    obtain ⟨c, run, holds⟩ := holds₀.handleAll stride sent
    obtain ⟨c', run', -⟩ := holds.handleAll stride more
    refine ⟨c, c', run, run', fun enough => ?_⟩
    obtain ⟨proof, xS, made, written, accepted⟩ := proveOneWesolowski_spec bits lawful top' holds kpos lpos ks fits
      feed.of_append sets rep positive small enough
    obtain ⟨enough', forms, result', capacity⟩ := handleAll_settled stride feed holds enough run'
    refine ⟨proof, xS, ?_, proveOneWesolowski_congr env d.D f enough enough' forms result' capacity, written, ?_⟩
    · rw [← made]
      exact below.proveOneWesolowski d.D T k l f c
    · rw [← accepted]
      exact below.checkProofOfTimeNWesolowski xS _ _ _ _
  · intro finished c run
    obtain ⟨c', run', holds⟩ := holds₀.handleAll stride loop.events
    obtain rfl := Exec.done.inj (run.symm.trans run')
    rw [holds.published]
    exact published_of_finished reachable finished

/-- Ten iterations of the fast algorithm from the generator and a slow one, which end a session of nine. -/
theorem oneWesoSession_accepted_nine : ∃ (loop : RepeatedSquare.State Form) (c₀ c : OneWesolowskiCallback Form)
    (proof : ProofBytes) (xS : ByteString), loop.finished = true ∧ start 9 10 1 ⟨2, 1, 3⟩ = .done c₀ ∧
      c₀.handleAll id loop.events = .done c ∧ c.result = some ⟨2, -1, 3⟩ ∧
      (constantHash 2).proveOneWesolowski (-23) 9 10 1 ⟨2, 1, 3⟩ c = .done proof ∧
      serializeForm ⟨2, 1, 3⟩ 5 = .done xS ∧
      (constantHash 2).checkProofOfTimeNWesolowski (-23) xS (proof.y ++ proof.proof) 9 5
        proof.witnessType.toUInt64 = .done true := by
  let d : Discriminant := ⟨23, by norm_num, rfl⟩
  let x : ReducedForm d := ⟨⟨2, 1, 3⟩, by decide, rfl⟩
  have squares := RepeatedSquare.multiplySquare_squares x
  let delivered : List Form := (List.replicate 5 [⟨2, -1, 3⟩, ⟨2, 1, 3⟩]).flatten
  let loop := RepeatedSquare.turn (oneWesoMode 9) RepeatedSquare.multiplySquare (.stopped delivered ⟨2, 1, 3⟩)
    (RepeatedSquare.start ⟨2, 1, 3⟩)
  have powers : ∀ n, IsPower x (2 * n) (⟨2, 1, 3⟩ : Form) ∧ IsPower x (2 * n + 1) (⟨2, -1, 3⟩ : Form) := by
    have there : RepeatedSquare.multiplySquare ⟨2, 1, 3⟩ = ⟨2, -1, 3⟩ := by decide +kernel
    have back : RepeatedSquare.multiplySquare ⟨2, -1, 3⟩ = ⟨2, 1, 3⟩ := by decide +kernel
    intro n
    induction n with
    | zero =>
      have first : IsPower x 0 (⟨2, 1, 3⟩ : Form) := by simpa [IsPower] using x.represents
      exact ⟨first, there ▸ squares 0 _ first⟩
    | succ n ih =>
      have next : IsPower x (2 * (n + 1)) (⟨2, 1, 3⟩ : Form) := back ▸ squares _ _ ih.2
      exact ⟨next, there ▸ squares _ _ next⟩
  have valid : RepeatedSquare.Outcome.Valid (IsPower x) 0 (.stopped delivered ⟨2, 1, 3⟩) := by
    refine .stopped (by decide) (fun i lt => ?_) (powers 5).1
    have ten : i < 10 := lt
    interval_cases i
    exacts [(powers 0).2, (powers 1).1, (powers 1).2, (powers 2).1, (powers 2).2, (powers 3).1, (powers 3).2,
      (powers 4).1, (powers 4).2, (powers 5).1]
  have reachable : RepeatedSquare.Reachable (IsPower x) (oneWesoMode 9) RepeatedSquare.multiplySquare ⟨2, 1, 3⟩ loop :=
    .turn .start rfl valid
  obtain ⟨c₀, begun, runs, ends⟩ := oneWesoSession_accepted d (by decide) 2 _ (constantHash_top 2) x
    RepeatedSquare.multiplySquare id squares (fun _ _ => id) ⟨2, 1, 3⟩ x.represents 9 10 1 (by norm_num)
    (by simp [OneWesolowskiParameters]) (by norm_num) le_rfl (by norm_num) (by norm_num) loop reachable
  obtain ⟨c, c', run, -, accepted⟩ := runs loop.events [] (List.append_nil _)
  have finished : loop.finished = true := by decide
  have enough := ends finished c run
  obtain ⟨proof, xS, below, -, written, check⟩ := accepted enough
  have result : c.result = some ⟨2, -1, 3⟩ := by
    obtain ⟨c₁, begun', holds₀⟩ := start_spec id (⟨2, 1, 3⟩ : Form) 9 (show 1 ≤ 10 by norm_num) le_rfl (by norm_num)
    obtain rfl := Exec.done.inj (begun.symm.trans begun')
    obtain ⟨c₂, run', holds⟩ := holds₀.handleAll (by norm_num) loop.events
    obtain rfl := Exec.done.inj (run.symm.trans run')
    have member : 8 ∈ indices ([] ++ loop.events) := by decide
    obtain ⟨form, found, stored⟩ := holds.result 8 member rfl
    have last : lastDelivered 8 ([] ++ loop.events) = some ⟨2, -1, 3⟩ := by decide
    obtain rfl := Option.some.inj (found.symm.trans last)
    exact stored
  have made : (constantHash 2).proveOneWesolowski (-23) 9 10 1 ⟨2, 1, 3⟩ c =
      .done ⟨Bqfc.padded [1, 0, 2, 0, 1, 1], Bqfc.padded [Bqfc.IS_1], 0⟩ := by
    have root : mpzRoot4 (- -23) = .done 2 := by decide +kernel
    have hash : (constantHash 2).getB (-23) ⟨2, 1, 3⟩ ⟨2, -1, 3⟩ = .done (2 ^ 263 : ℕ) := by decide +kernel
    have fits : GroupArith.FitsWords 9 10 1 := ⟨by norm_num, by norm_num, by norm_num, by norm_num, by norm_num⟩
    have large : 2 ^ 10 ≤ 2 ^ 263 := Nat.pow_le_pow_right (by norm_num) (by norm_num)
    have generated := GroupArith.generateProof_fixed ⟨0, UInt64.ofNat 9, ⟨2, 1, 3⟩, ⟨2, -1, 3⟩, .unset, false⟩ root
      (FormArith.inPlace_fixes_23 (by norm_num)) hash (fun i => c.getForm i) fits large (by decide)
    have formY : serializeForm ⟨2, -1, 3⟩ (numBits (-23)) = .done (Bqfc.padded [1, 0, 2, 0, 1, 1]) := by decide +kernel
    have formP : serializeForm ⟨1, 1, 6⟩ (numBits (-23)) = .done (Bqfc.padded [Bqfc.IS_1]) := by decide +kernel
    simp only [VerifierEnv.proveOneWesolowski, if_neg (not_lt.mpr enough), result, Option.getD_some, generated, formY,
      formP, Exec.done_bind]
    rfl
  obtain rfl := Exec.done.inj (below.done made)
  have generator : serializeForm ⟨2, 1, 3⟩ 5 = .done (Bqfc.padded [Bqfc.IS_GEN]) := by decide +kernel
  have five : numBits d.D = 5 := by decide
  rw [five] at written check
  obtain rfl := Exec.done.inj (generator.symm.trans written)
  refine ⟨loop, c₀, c, _, _, finished, begun, run, result, made, generator, check.resolve_left ?_⟩
  decide +kernel

end Accepted

end OneWesolowskiCallback

end ChiaVdf
