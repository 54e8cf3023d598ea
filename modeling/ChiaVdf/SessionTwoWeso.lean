import ChiaVdf.Exec

/-! `SessionTwoWeso` of `vdf_client.cpp`: the proofs a session has started, the flags that stop
them, and the iterations it remembers. -/
namespace ChiaVdf.SessionTwoWeso

def kMaxProcessesAllowed : ℕ := 100

/-- `kMaxProcessesAllowed - 500000`, an `int` that the comparison takes for a `uint64_t`. -/
def tooBig : ℕ := 2 ^ 64 + kMaxProcessesAllowed - 500000

/-- A thread in `CreateAndWriteProofTwoWeso`, with the index of the flag it was handed. -/
structure ProofThread where
  iters : ℕ
  flag : ℕ
  deriving DecidableEq, Repr

/-- The elements of `stop_vector` are not initialised. -/
structure Session where
  stopped : Bool
  stopVector : Vector (Option Bool) 100
  threads : List ProofThread
  seenIterations : List (ℕ × ℕ)
  deriving DecidableEq

def start : Session := ⟨false, Vector.replicate 100 none, [], []⟩

/-- The order of `std::set<std::pair<uint64_t, uint64_t>>`. -/
def pairLe (p q : ℕ × ℕ) : Prop := p.1 < q.1 ∨ p.1 = q.1 ∧ p.2 ≤ q.2

instance : DecidableRel pairLe := fun _ _ => inferInstanceAs (Decidable (_ ∨ _))

def setInsert (p : ℕ × ℕ) (seen : List (ℕ × ℕ)) : List (ℕ × ℕ) :=
  if p ∈ seen then seen else seen.orderedInsert pairLe p

structure Scan where
  maxIter : ℕ
  maxIterThreadId : ℕ
  minIter : ℕ
  unique : Bool
  deriving DecidableEq

def Scan.start : Scan := ⟨0, 2 ^ 64 - 1, 2 ^ 62, true⟩

/-- The loop over `seen_iterations`, which breaks off at a duplicate. -/
def scan (iters : ℕ) : List (ℕ × ℕ) → Scan → Scan
  | [], acc => acc
  | (iter, id) :: rest, acc =>
    let acc := if iter > acc.maxIter then { acc with maxIter := iter, maxIterThreadId := id } else acc
    let acc := if iter < acc.minIter then { acc with minIter := iter } else acc
    if iter = iters then { acc with unique := false } else scan iters rest acc

/-- `stop_vector[i] = value`. -/
def setFlag (i : ℕ) (value : Bool) (s : Session) : Exec Session :=
  if h : i < 100 then .done { s with stopVector := s.stopVector.set i (some value) }
  else .fault .outOfBounds

/-- The stop request. -/
def stop (s : Session) : Exec Session :=
  Exec.forLoop s.threads.length (fun i => setFlag i true) { s with stopped := true }

/-- Too many proofs: the one for the largest iteration is stopped and forgotten. -/
def evict (found : Scan) (s : Session) : Exec Session :=
  if s.threads.length > kMaxProcessesAllowed then do
    let s ← setFlag found.maxIterThreadId true s
    return { s with seenIterations := s.seenIterations.erase (found.maxIter, found.maxIterThreadId) }
  else .done s

def startProof (iters : ℕ) (found : Scan) (s : Session) : Exec Session := do
  let id := s.threads.length
  let s ← setFlag id false { s with seenIterations := setInsert (iters, id) s.seenIterations }
  evict found { s with threads := s.threads ++ [⟨iters, id⟩] }

/-- One turn of the loop, for the number `ReadIteration` has returned. -/
def turn (iters : ℕ) (s : Session) : Exec Session :=
  if iters = 0 then stop s
  else
    let found := scan iters s.seenIterations Scan.start
    if !found.unique then .done s
    else if iters ≥ tooBig then .done s
    else if s.threads.length < kMaxProcessesAllowed ∨ iters < found.minIter then
      startProof iters found s
    else .done s

/-- `while (!stopped)`, for the numbers that the socket delivers. -/
def run : List ℕ → Session → Exec Session
  | [], s => .done s
  | iters :: rest, s =>
    if s.stopped then .done s else turn iters s >>= run rest

/-- Each thread has a flag of its own inside the array, and of those that are not stopped there are few, for different
numbers of iterations. -/
structure FlagsOwned (s : Session) : Prop where
  bound : ∀ t ∈ s.threads, t.flag < 100
  own : (s.threads.map ProofThread.flag).Nodup
  once : (s.threads.filter fun t => s.stopVector[t.flag]? ≠ some (some true)).Pairwise
    fun t u => t.iters ≠ u.iters
  count : (s.threads.filter fun t => s.stopVector[t.flag]? ≠ some (some true)).length ≤
    kMaxProcessesAllowed

/-- At every moment of the session the flags are in bounds and owned. -/
def StaysInBounds (requests : List ℕ) : Prop :=
  ∀ k, ∃ s, run (requests.take k) start = .done s ∧ FlagsOwned s

/-- A request that the session can start a proof for. -/
def Admissible (iters : ℕ) : Prop := iters ≠ 0 ∧ iters < tooBig

instance : DecidablePred Admissible := fun _ => inferInstanceAs (Decidable (_ ∧ _))

/-- After a hundred different iterations `earlier` asks for a smaller one than all of them. -/
structure Overtakes (earlier : List ℕ) (iters : ℕ) : Prop where
  running : 0 ∉ earlier
  full : 100 ≤ (earlier.filter fun i => Admissible i).dedup.length
  admissible : Admissible iters
  smaller : iters < 2 ^ 62
  smallest : ∀ i ∈ earlier, Admissible i → iters < i

section Scan

variable {iters : ℕ} {seen : List (ℕ × ℕ)} {acc : Scan}

theorem scan_unique : (scan iters seen acc).unique = true ↔
    acc.unique = true ∧ ∀ p ∈ seen, p.1 ≠ iters := by
  induction seen generalizing acc with
  | nil => simp [scan]
  | cons p rest ih =>
    obtain ⟨iter, id⟩ := p
    by_cases same : iter = iters
    · simp [scan, same]
    · simp only [scan, same, if_false, ih, List.forall_mem_cons, ne_eq, not_false_eq_true, true_and]
      split_ifs <;> rfl

theorem lt_scan_minIter (fresh : ∀ p ∈ seen, p.1 ≠ iters) :
    iters < (scan iters seen acc).minIter ↔ iters < acc.minIter ∧ ∀ p ∈ seen, iters < p.1 := by
  induction seen generalizing acc with
  | nil => simp [scan]
  | cons p rest ih =>
    obtain ⟨iter, id⟩ := p
    obtain ⟨differs, fresh⟩ := List.forall_mem_cons.mp fresh
    simp only [ne_eq] at differs
    simp only [scan, differs, if_false, ih fresh, List.forall_mem_cons]
    split_ifs <;> constructor <;> intro h <;> refine ⟨?_, ?_⟩ <;> grind

end Scan

/-- The session when nothing has been evicted: `earlier` are the requests so far. -/
structure Inv (earlier : List ℕ) (s : Session) : Prop where
  running : s.stopped = false
  flags : s.threads.map ProofThread.flag = List.range s.threads.length
  unstopped : ∀ i < s.threads.length, s.stopVector[i]? = some (some false)
  seen : ∀ p, p ∈ s.seenIterations ↔ s.threads[p.2]?.map ProofThread.iters = some p.1
  distinct : (s.threads.map ProofThread.iters).Nodup
  asked : ∀ t ∈ s.threads, t.iters ∈ earlier ∧ Admissible t.iters
  size : s.threads.length ≤ 100
  started : s.threads.length < 100 → ∀ i ∈ earlier, Admissible i → ∃ t ∈ s.threads, t.iters = i
  least : ∀ i ∈ earlier, Admissible i → 2 ^ 62 ≤ i ∨ ∃ t ∈ s.threads, t.iters ≤ i

variable {earlier : List ℕ} {s : Session} {iters : ℕ}

theorem Inv.start : Inv [] start where
  running := rfl
  flags := rfl
  unstopped := by simp [SessionTwoWeso.start]
  seen := by simp [SessionTwoWeso.start]
  distinct := List.nodup_nil
  asked := by simp [SessionTwoWeso.start]
  size := by simp [SessionTwoWeso.start]
  started := by simp
  least := by simp

theorem Inv.flag_lt (inv : Inv earlier s) {t : ProofThread} (member : t ∈ s.threads) :
    t.flag < s.threads.length := by
  have : t.flag ∈ s.threads.map ProofThread.flag := List.mem_map_of_mem member
  rwa [inv.flags, List.mem_range] at this

theorem Inv.flagsOwned (inv : Inv earlier s) : FlagsOwned s where
  bound _ member := (inv.flag_lt member).trans_le inv.size
  own := inv.flags ▸ List.nodup_range
  once := (List.pairwise_map.mp inv.distinct).sublist List.filter_sublist
  count := (List.length_filter_le _ _).trans inv.size

theorem Inv.mem_seen (inv : Inv earlier s) :
    (∃ p ∈ s.seenIterations, p.1 = iters) ↔ ∃ t ∈ s.threads, t.iters = iters := by
  constructor
  · rintro ⟨p, member, rfl⟩
    obtain ⟨t, found, same⟩ := Option.map_eq_some_iff.mp ((inv.seen p).mp member)
    exact ⟨t, List.mem_of_getElem? found, same⟩
  · rintro ⟨t, member, rfl⟩
    obtain ⟨i, found⟩ := List.mem_iff_getElem?.mp member
    exact ⟨(t.iters, i), (inv.seen _).mpr (by simp [found]), rfl⟩

theorem Inv.ignore (inv : Inv earlier s)
    (known : Admissible iters → ∃ t ∈ s.threads, t.iters = iters) :
    Inv (earlier ++ [iters]) s where
  running := inv.running
  flags := inv.flags
  unstopped := inv.unstopped
  seen := inv.seen
  distinct := inv.distinct
  asked t member := ⟨List.mem_append_left _ (inv.asked t member).1, (inv.asked t member).2⟩
  size := inv.size
  started room i member adm := by
    rcases List.mem_append.mp member with old | new
    · exact inv.started room i old adm
    · obtain rfl := List.mem_singleton.mp new
      exact known adm
  least i member adm := by
    rcases List.mem_append.mp member with old | new
    · exact inv.least i old adm
    · obtain rfl := List.mem_singleton.mp new
      obtain ⟨t, mem, same⟩ := known adm
      exact .inr ⟨t, mem, same.le⟩

/-- With a hundred proofs running, a request that is not smaller than all of them waits forever. -/
theorem Inv.drop (inv : Inv earlier s) (full : ¬s.threads.length < 100)
    (large : 2 ^ 62 ≤ iters ∨ ∃ t ∈ s.threads, t.iters ≤ iters) : Inv (earlier ++ [iters]) s where
  running := inv.running
  flags := inv.flags
  unstopped := inv.unstopped
  seen := inv.seen
  distinct := inv.distinct
  asked t member := ⟨List.mem_append_left _ (inv.asked t member).1, (inv.asked t member).2⟩
  size := inv.size
  started room := absurd room full
  least i member adm := by
    rcases List.mem_append.mp member with old | new
    · exact inv.least i old adm
    · obtain rfl := List.mem_singleton.mp new
      exact large

theorem mem_setInsert {p q : ℕ × ℕ} {seen : List (ℕ × ℕ)} :
    q ∈ setInsert p seen ↔ q = p ∨ q ∈ seen := by
  by_cases known : p ∈ seen
  · simp only [setInsert, known, if_true]
    constructor
    · exact .inr
    · rintro (rfl | old)
      · exact known
      · exact old
  · simp [setInsert, known, List.mem_orderedInsert]

theorem Inv.startProof (inv : Inv earlier s) (found : Scan) (room : s.threads.length < 100)
    (fresh : ∀ t ∈ s.threads, t.iters ≠ iters) (adm : Admissible iters) :
    ∃ s', startProof iters found s = .done s' ∧ Inv (earlier ++ [iters]) s' := by
  refine ⟨⟨s.stopped, s.stopVector.set s.threads.length (some false),
    s.threads ++ [⟨iters, s.threads.length⟩],
    setInsert (iters, s.threads.length) s.seenIterations⟩, ?_, ?_⟩
  · have kept : kMaxProcessesAllowed = 100 := rfl
    simp only [SessionTwoWeso.startProof, setFlag, room, dif_pos, Exec.done_bind, evict,
      List.length_append, List.length_singleton, kept, gt_iff_lt]
    rw [if_neg (by omega)]
  · constructor
    case running => exact inv.running
    case flags => simp [inv.flags, List.range_succ]
    case unstopped =>
      intro i lt
      simp only [List.length_append, List.length_singleton] at lt
      by_cases last : i = s.threads.length
      · simp [last, room]
      · have old := inv.unstopped i (by omega)
        grind
    case seen =>
      intro p
      rw [mem_setInsert, inv.seen]
      by_cases last : p.2 = s.threads.length
      · grind
      · grind
    case distinct =>
      rw [List.map_append, List.nodup_append]
      refine ⟨inv.distinct, by simp, ?_⟩
      grind
    case asked =>
      intro t member
      rcases List.mem_append.mp member with old | new
      · exact ⟨List.mem_append_left _ (inv.asked t old).1, (inv.asked t old).2⟩
      · obtain rfl := List.mem_singleton.mp new
        exact ⟨by simp, adm⟩
    case size => simp; omega
    case started =>
      intro _ i member admI
      rcases List.mem_append.mp member with old | new
      · obtain ⟨t, mem, same⟩ := inv.started room i old admI
        exact ⟨t, List.mem_append_left _ mem, same⟩
      · obtain rfl := List.mem_singleton.mp new
        exact ⟨⟨i, _⟩, List.mem_append_right _ (List.mem_singleton_self _), rfl⟩
    case least =>
      intro i member admI
      rcases List.mem_append.mp member with old | new
      · rcases inv.least i old admI with large | ⟨t, mem, le⟩
        · exact .inl large
        · exact .inr ⟨t, List.mem_append_left _ mem, le⟩
      · obtain rfl := List.mem_singleton.mp new
        exact .inr ⟨⟨i, _⟩, List.mem_append_right _ (List.mem_singleton_self _), le_rfl⟩

/-- What has been requested so far, each number once. -/
def wanted (earlier : List ℕ) : List ℕ := (earlier.filter fun i => Admissible i).dedup

theorem Inv.length_le (inv : Inv earlier s) : s.threads.length ≤ (wanted earlier).length := by
  have known : s.threads.map ProofThread.iters ⊆ wanted earlier := by
    intro i member
    obtain ⟨t, mem, rfl⟩ := List.mem_map.mp member
    obtain ⟨old, adm⟩ := inv.asked t mem
    exact List.mem_dedup.mpr (List.mem_filter.mpr ⟨old, by simpa using adm⟩)
  have many := (inv.distinct.subperm known).length_le
  rwa [List.length_map] at many

theorem Inv.wanted_le (inv : Inv earlier s) (room : s.threads.length < 100) :
    (wanted earlier).length ≤ s.threads.length := by
  have known : wanted earlier ⊆ s.threads.map ProofThread.iters := by
    intro i member
    obtain ⟨old, adm⟩ := List.mem_filter.mp (List.mem_dedup.mp member)
    obtain ⟨t, mem, same⟩ := inv.started room i old (by simpa using adm)
    exact List.mem_map.mpr ⟨t, mem, same⟩
  have few := ((List.nodup_dedup _).subperm known).length_le
  rwa [List.length_map] at few

/-- The state in which a request would push out another one. -/
structure Evicting (s : Session) (iters : ℕ) : Prop where
  full : ¬s.threads.length < 100
  admissible : Admissible iters
  smaller : iters < 2 ^ 62
  smallest : ∀ t ∈ s.threads, iters < t.iters

theorem Inv.overtakes_iff (inv : Inv earlier s) (running : 0 ∉ earlier) :
    Overtakes earlier iters ↔ Evicting s iters := by
  constructor
  · intro overtakes
    refine ⟨?_, overtakes.admissible, overtakes.smaller, ?_⟩
    · intro room
      have few := inv.wanted_le room
      have full : 100 ≤ (wanted earlier).length := overtakes.full
      omega
    · intro t member
      obtain ⟨old, adm⟩ := inv.asked t member
      exact overtakes.smallest _ old adm
  · intro evicting
    refine ⟨running, ?_, evicting.admissible, evicting.smaller, ?_⟩
    · have many := inv.length_le
      have full := evicting.full
      change 100 ≤ (wanted earlier).length
      omega
    · intro i member adm
      rcases inv.least i member adm with large | ⟨t, mem, le⟩
      · exact evicting.smaller.trans_le large
      · exact (evicting.smallest t mem).trans_le le

theorem Inv.turn (inv : Inv earlier s) (nonzero : iters ≠ 0) (keeps : ¬Evicting s iters) :
    ∃ s', turn iters s = .done s' ∧ Inv (earlier ++ [iters]) s' := by
  unfold SessionTwoWeso.turn
  rw [if_neg nonzero]
  by_cases known : ∃ t ∈ s.threads, t.iters = iters
  · have duplicate : (scan iters s.seenIterations Scan.start).unique = false := by
      obtain ⟨p, member, same⟩ := inv.mem_seen.mpr known
      rw [Bool.eq_false_iff, ne_eq, scan_unique]
      exact fun unique => unique.2 p member same
    exact ⟨s, by simp [duplicate], inv.ignore fun _ => known⟩
  have fresh : ∀ p ∈ s.seenIterations, p.1 ≠ iters :=
    fun p member same => known (inv.mem_seen.mp ⟨p, member, same⟩)
  have unique : (scan iters s.seenIterations Scan.start).unique = true :=
    scan_unique.mpr ⟨rfl, fresh⟩
  by_cases big : iters ≥ tooBig
  · exact ⟨s, by simp [unique, big], inv.ignore fun adm => absurd adm.2 (by omega)⟩
  by_cases room : s.threads.length < 100
  · obtain ⟨s', run, next⟩ := inv.startProof (scan iters s.seenIterations Scan.start) room
      (fun t member same => known ⟨t, member, same⟩) ⟨nonzero, by omega⟩
    exact ⟨s', by simp [unique, big, kMaxProcessesAllowed, room, run], next⟩
  · have large : ¬iters < (scan iters s.seenIterations Scan.start).minIter := by
      rw [lt_scan_minIter fresh]
      rintro ⟨smaller, least⟩
      refine keeps ⟨room, ⟨nonzero, by omega⟩, smaller, fun t member => ?_⟩
      obtain ⟨p, mem, same⟩ := inv.mem_seen.mpr ⟨t, member, rfl⟩
      exact same ▸ least p mem
    refine ⟨s, by simp [unique, big, kMaxProcessesAllowed, room, large], inv.drop room ?_⟩
    by_contra least
    push Not at least
    exact keeps ⟨room, ⟨nonzero, by omega⟩, least.1, least.2⟩

/-- The hundred-and-first proof has no flag. -/
theorem Inv.turn_evicting (inv : Inv earlier s) (evicting : Evicting s iters) :
    SessionTwoWeso.turn iters s = .fault .outOfBounds := by
  have fresh : ∀ p ∈ s.seenIterations, p.1 ≠ iters := by
    intro p member same
    obtain ⟨t, mem, eq⟩ := inv.mem_seen.mp ⟨p, member, same⟩
    exact absurd eq (evicting.smallest t mem).ne'
  have unique : (scan iters s.seenIterations Scan.start).unique = true :=
    scan_unique.mpr ⟨rfl, fresh⟩
  have least : iters < (scan iters s.seenIterations Scan.start).minIter := by
    refine (lt_scan_minIter fresh).mpr ⟨evicting.smaller, fun p member => ?_⟩
    obtain ⟨t, mem, eq⟩ := inv.mem_seen.mp ⟨p, member, rfl⟩
    exact eq ▸ evicting.smallest t mem
  have small : ¬iters ≥ tooBig := by have := evicting.admissible.2; omega
  simp [SessionTwoWeso.turn, evicting.admissible.1, unique, small, least,
    SessionTwoWeso.startProof, setFlag, evicting.full]

/-- Stopping writes the flags of the proofs that were started, and nothing else. -/
theorem Inv.stop (inv : Inv earlier s) :
    ∃ s', stop s = .done s' ∧ s'.stopped = true ∧ s'.threads = s.threads := by
  refine Exec.forLoop_done (fun _ (s' : Session) => s'.stopped = true ∧ s'.threads = s.threads) ⟨rfl, rfl⟩ ?_
  intro i lt s' same
  have bound : i < 100 := lt.trans_le inv.size
  exact ⟨{ s' with stopVector := s'.stopVector.set i (some true) }, by rw [setFlag, dif_pos bound], same⟩

/-- The session after the requests `earlier`. -/
inductive Reached (earlier : List ℕ) (s : Session) : Prop where
  | running (running : 0 ∉ earlier) (inv : Inv earlier s)
  | ended (ended : 0 ∈ earlier) (stopped : s.stopped = true) (owned : FlagsOwned s)

theorem Reached.flagsOwned (reached : Reached earlier s) : FlagsOwned s := by
  cases reached with
  | running _ inv => exact inv.flagsOwned
  | ended _ _ owned => exact owned

theorem Reached.step (reached : Reached earlier s) (keeps : ¬Overtakes earlier iters) :
    ∃ s', run [iters] s = .done s' ∧ Reached (earlier ++ [iters]) s' := by
  cases reached with
  | ended ended stopped owned =>
    exact ⟨s, by simp [run, stopped], .ended (List.mem_append_left _ ended) stopped owned⟩
  | running running inv =>
    by_cases zero : iters = 0
    · subst zero
      obtain ⟨s', stops, stopped, same⟩ := inv.stop
      refine ⟨s', by simp [run, inv.running, turn, stops], .ended (by simp) stopped ?_⟩
      exact {
        bound := same ▸ inv.flagsOwned.bound
        own := same ▸ inv.flagsOwned.own
        once := (List.pairwise_map.mp (same ▸ inv.distinct)).sublist List.filter_sublist
        count := (List.length_filter_le _ _).trans (same ▸ inv.size) }
    · obtain ⟨s', turns, next⟩ := inv.turn zero fun evicting =>
        keeps ((inv.overtakes_iff running).mpr evicting)
      refine ⟨s', by simp [run, inv.running, turns], .running ?_ next⟩
      simp [running, Ne.symm zero]

theorem Reached.overtaken (reached : Reached earlier s) (overtakes : Overtakes earlier iters) :
    run [iters] s = .fault .outOfBounds := by
  cases reached with
  | ended ended => exact absurd ended overtakes.running
  | running running inv =>
    simp [run, inv.running, inv.turn_evicting ((inv.overtakes_iff running).mp overtakes)]

theorem run_append (first rest : List ℕ) (s : Session) :
    run (first ++ rest) s = run first s >>= run rest := by
  induction first generalizing s with
  | nil => rfl
  | cons iters first ih =>
    by_cases stopped : s.stopped
    · cases rest <;> simp [run, stopped]
    · simp only [List.cons_append, run, stopped, Bool.false_eq_true, if_false, bind_assoc]
      congr 1
      funext s'
      exact ih s'

/-- One more request of a session that stays in bounds does not overtake. -/
theorem StaysInBounds.keeps {requests : List ℕ} {k : ℕ} (safe : StaysInBounds requests)
    (runs : run (requests.take k) start = .done s) (reached : Reached (requests.take k) s)
    (next : requests[k]? = some iters) : ¬Overtakes (requests.take k) iters := by
  intro overtakes
  obtain ⟨s', runs', -⟩ := safe (k + 1)
  rw [List.take_add_one, next, run_append, runs, Exec.done_bind, Option.toList_some,
    reached.overtaken overtakes] at runs'
  cases runs'

theorem reach {requests : List ℕ} (k : ℕ)
    (keeps : ∀ i s iters, run (requests.take i) start = .done s → Reached (requests.take i) s →
      requests[i]? = some iters → ¬Overtakes (requests.take i) iters) :
    ∃ s, run (requests.take k) start = .done s ∧ Reached (requests.take k) s := by
  induction k with
  | zero => exact ⟨start, rfl, .running (by simp) Inv.start⟩
  | succ k ih =>
    obtain ⟨s, runs, reached⟩ := ih
    rw [List.take_add_one]
    cases next : requests[k]? with
    | none => exact ⟨s, by simpa using runs, by simpa using reached⟩
    | some iters =>
      obtain ⟨s', turns, reached'⟩ := reached.step (keeps k s iters runs reached next)
      exact ⟨s', by rw [run_append, runs]; exact turns, reached'⟩

/-- A session keeps within its hundred flags exactly if no request overtakes a hundred others. -/
theorem staysInBounds_iff (requests : List ℕ) : StaysInBounds requests ↔
    ∀ k iters, requests[k]? = some iters → ¬Overtakes (requests.take k) iters := by
  constructor
  · intro safe k iters next
    obtain ⟨s, runs, reached⟩ := reach k fun _ _ _ runs reached next => safe.keeps runs reached next
    exact safe.keeps runs reached next
  · intro keeps k
    obtain ⟨s, runs, reached⟩ := reach k fun i _ iters _ _ next => keeps i iters next
    exact ⟨s, runs, reached.flagsOwned⟩

/-- The requests 200, 199, ..., 100: the last one writes past the end of `stop_vector`. -/
theorem stop_vector_overrun : ¬StaysInBounds ((List.range 101).map fun i => 200 - i) := by
  intro safe
  obtain ⟨s, runs, -⟩ := safe 101
  have overrun : run (((List.range 101).map fun i => 200 - i).take 101) start =
      .fault .outOfBounds := by decide +kernel
  rw [overrun] at runs
  cases runs

end ChiaVdf.SessionTwoWeso
