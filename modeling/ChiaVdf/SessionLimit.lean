import ChiaVdf.CheckpointFeed
import ChiaVdf.ProveTwoWeso
import ChiaVdf.SessionTwoWeso

/-! The requests of `SessionTwoWeso` against the main loop: where `repeated_square` stops storing
checkpoints, which of them `ProveTwoWeso` waits for, and which requests get a proof. -/
namespace ChiaVdf

open RepeatedSquare (kMaxItersAllowed)

namespace RepeatedSquare

variable {F : Type} {IsPower : ℕ → F → Prop} {mode : Mode} {square : F → F} {f : F} {s : State F}

theorem iterations_notify (mode : Mode) (s : State F) :
    iterations (notify mode s).events = iterations s.events := by
  unfold notify
  split_ifs <;> simp [iterations]

/-- The number that a checkpoint publishes is the one that the loop stops at. -/
theorem iterations_switch (published : iterations s.events = s.numIterations) :
    iterations (switch mode square s).events = (switch mode square s).numIterations := by
  unfold switch
  split_ifs
  · simp [iterations]
  · exact published

/-- Without a number of iterations to stop at, a turn ends the loop only beyond the limit, and publishes that it
got there. -/
theorem turn_finished {outcome : Outcome F} (unlimited : mode.iterations = 0)
    (running : s.finished = false) (ends : (turn mode square outcome s).finished = true) :
    kMaxItersAllowed - 500000 ≤ iterations (turn mode square outcome s).events := by
  have batched : (batch square checkpointInterval outcome s).finished = false := running
  unfold turn at ends ⊢
  generalize batch square checkpointInterval outcome s = b at *
  have noLimit : limit mode (checkpoint mode square b) = checkpoint mode square b := by
    simp [limit, unlimited]
  rw [noLimit] at ends ⊢
  unfold checkpoint at ends ⊢
  by_cases passed : b.numIterations ≥ b.lastCheckpoint
  · rw [if_pos passed] at ends ⊢
    have published : iterations (notify mode (publish b)).events = (notify mode (publish b)).numIterations := by
      rw [iterations_notify]
      have count : (notify mode (publish b)).numIterations = b.numIterations := by
        unfold notify
        split_ifs <;> rfl
      exact (iterations_append_setIterations _ _).trans count.symm
    have switched := @iterations_switch F mode square _ published
    have still : (switch mode square (notify mode (publish b))).finished = false := by
      unfold switch notify publish
      split_ifs <;> exact batched
    unfold advance at ends ⊢
    by_cases last : mode.twoWeso ∧
        (switch mode square (notify mode (publish b))).numIterations ≥ kMaxItersAllowed - 500000
    · rw [if_pos last]
      exact last.2.trans_eq switched.symm
    · rw [if_neg last] at ends
      exact absurd ends (by simp [still])
  · rw [if_neg passed] at ends
    exact absurd ends (by simp [batched])

/-- When the loop of a 2-weso session has ended, all the iterations below the limit are published. -/
theorem Reachable.published (reachable : Reachable IsPower mode square f s)
    (unlimited : mode.iterations = 0) (ended : s.finished = true) :
    kMaxItersAllowed - 500000 ≤ iterations s.events := by
  cases reachable with
  | start => cases ended
  | turn _ running _ => exact turn_finished unlimited running ended

end RepeatedSquare

section Waits

variable {look look' : Lookup} {published : ℕ}

/-- A proof for `iters` needs no more than `published` iterations: its result does not depend on
what `GetFormCopy` would return after a longer wait. -/
def WaitsEnd (published : ℕ) (iters : UInt64) : Prop :=
  ∀ (env : VerifierEnv) (D : ℤ) (look look' : Lookup) (f : Form),
    (∀ site needed power, needed ≤ published → look site needed power = look' site needed power) →
      env.proveTwoWeso D look 2 f iters 0 = env.proveTwoWeso D look' 2 f iters 0

/-- No depth waits for more iterations than there are from its start to the end. -/
theorem proveTwoWeso_congr (env : VerifierEnv) (D : ℤ)
    (same : ∀ site needed power, needed ≤ published → look site needed power = look' site needed power)
    (rest : ℕ) (f : Form) (iters doneIterations : UInt64)
    (le : doneIterations.toNat + iters.toNat ≤ published)
    (range : doneIterations.toNat + iters.toNat < kMaxItersAllowed) :
    env.proveTwoWeso D look rest f iters doneIterations =
      env.proveTwoWeso D look' rest f iters doneIterations := by
  induction rest generalizing f iters doneIterations with
  | zero =>
    have total := toNat_add_of_le le_rfl range
    have sites (site : Site) : look site (doneIterations + iters).toNat = look' site (doneIterations + iters).toNat :=
      funext fun power => same site _ power (by omega)
    simp only [VerifierEnv.proveTwoWeso, sites]
  | succ rest ih =>
    obtain ⟨-, whole, -⟩ := @thirds iters (by omega)
    have reached := toNat_add_of_le (a := doneIterations) (b := iterations1 iters)
      (n := doneIterations.toNat + iters.toNat) (by omega) range
    have sites (site : Site) : look site (doneIterations + iterations1 iters).toNat =
        look' site (doneIterations + iterations1 iters).toNat :=
      funext fun power => same site _ power (by omega)
    simp only [VerifierEnv.proveTwoWeso, sites]
    simp only [ih _ (iters - iterations1 iters) (doneIterations + iterations1 iters) (by omega) (by omega)]

theorem waitsEnd_of_le {iters : UInt64} (le : iters.toNat ≤ published)
    (range : iters.toNat < kMaxItersAllowed) : WaitsEnd published iters := by
  intro env D look look' f same
  apply proveTwoWeso_congr env D same 2 f iters 0
  · simpa using le
  · simpa using range

end Waits

namespace SessionTwoWeso

/-- The point where `repeated_square` stops producing checkpoints. -/
def limit : ℕ := kMaxItersAllowed - 500000

/-- Proofs are started for numbers of iterations that the main loop comes to, and for no others; `σ` is the state in
which it has ended. -/
structure StartsServed (requests : List ℕ) : Prop where
  started : ∀ k s, run (requests.take k) start = .done s → ∀ t ∈ s.threads, t.iters < limit
  ignored : ∀ k i, requests[k]? = some i → limit ≤ i →
    run (requests.take (k + 1)) start = run (requests.take k) start
  served : ∀ k s, run (requests.take k) start = .done s → ∀ t ∈ s.threads,
    ∀ (F : Type) (IsPower : ℕ → F → Prop) (mode : RepeatedSquare.Mode) (square : F → F) (f : F)
      (σ : RepeatedSquare.State F), mode.twoWeso = true → mode.iterations = 0 →
      RepeatedSquare.Reachable IsPower mode square f σ → σ.finished = true →
      WaitsEnd (RepeatedSquare.iterations σ.events) (UInt64.ofNat t.iters)

variable {earlier requests : List ℕ} {s s' : Session} {iters k : ℕ}

/-- A session that has come to the end of some requests has not overrun its flags. -/
theorem reached_of_done (runs : run (requests.take k) start = .done s) : Reached (requests.take k) s := by
  induction k generalizing s with
  | zero =>
    obtain rfl := Exec.done.inj runs
    exact .running (by simp) Inv.start
  | succ k ih =>
    rw [List.take_add_one] at runs ⊢
    cases next : requests[k]? with
    | none =>
      rw [next] at runs
      simpa using ih (by simpa using runs)
    | some iters =>
      rw [next, run_append] at runs
      obtain ⟨before, runs, last⟩ := Exec.bind_eq_done.mp runs
      by_cases overtakes : Overtakes (requests.take k) iters
      · have overrun := (ih runs).overtaken overtakes
        exact nomatch overrun.symm.trans last
      · obtain ⟨after, turns, reached⟩ := (ih runs).step overtakes
        obtain rfl := Exec.done.inj (turns.symm.trans last)
        exact reached

theorem startProof_threads {found : Scan} (runs : startProof iters found s = .done s') :
    s'.threads = s.threads ++ [⟨iters, s.threads.length⟩] := by
  unfold startProof setFlag at runs
  obtain ⟨flagged, set, evicts⟩ := Exec.bind_eq_done.mp runs
  split_ifs at set
  obtain rfl := Exec.done.inj set
  unfold evict at evicts
  split_ifs at evicts with many
  · obtain ⟨stopped, set, pushed⟩ := Exec.bind_eq_done.mp evicts
    unfold setFlag at set
    split_ifs at set
    obtain rfl := Exec.done.inj set
    obtain rfl := Exec.done.inj pushed
    rfl
  · obtain rfl := Exec.done.inj evicts
    rfl

theorem turn_threads (nonzero : iters ≠ 0) (runs : turn iters s = .done s') :
    ∀ t ∈ s'.threads, t ∈ s.threads ∨ t.iters = iters := by
  unfold turn at runs
  simp only [nonzero, if_false] at runs
  split_ifs at runs
  · obtain rfl := Exec.done.inj runs
    exact fun t => .inl
  · obtain rfl := Exec.done.inj runs
    exact fun t => .inl
  · intro t member
    rw [startProof_threads runs, List.mem_append, List.mem_singleton] at member
    rcases member with old | rfl
    · exact .inl old
    · exact .inr rfl
  · obtain rfl := Exec.done.inj runs
    exact fun t => .inl

/-- Every proof so far is for a number below the limit. -/
def Bounded (s : Session) : Prop := ∀ t ∈ s.threads, t.iters < limit

/-- A large request that comes when the hundred proofs are running starts none. -/
theorem Reached.ignores (reached : Reached earlier s) (bounded : Bounded s) (large : limit ≤ iters)
    (late : 0 ∉ earlier → iters < tooBig → 100 ≤ (wanted earlier).length) : run [iters] s = .done s := by
  cases reached with
  | ended _ stopped => simp [run, stopped]
  | running running inv =>
    have nonzero : iters ≠ 0 := by
      rintro rfl
      exact absurd large (by decide)
    have fresh : ∀ p ∈ s.seenIterations, p.1 ≠ iters := by
      intro p member same
      obtain ⟨t, mem, eq⟩ := inv.mem_seen.mp ⟨p, member, same⟩
      have := bounded t mem
      omega
    have unique : (scan iters s.seenIterations Scan.start).unique = true := scan_unique.mpr ⟨rfl, fresh⟩
    by_cases big : iters ≥ tooBig
    · simp [run, inv.running, turn, nonzero, unique, big]
    have full : ¬s.threads.length < 100 := by
      intro room
      have few := inv.wanted_le room
      have many := late running (by omega)
      omega
    -- one of the hundred is smaller than the request
    have least : ¬iters < (scan iters s.seenIterations Scan.start).minIter := by
      rw [lt_scan_minIter fresh]
      rintro ⟨-, least⟩
      obtain ⟨t, mem⟩ := List.exists_mem_of_length_pos (l := s.threads) (by omega)
      obtain ⟨p, member, same⟩ := inv.mem_seen.mpr ⟨t, mem, rfl⟩
      have := least p member
      have := bounded t mem
      omega
    simp [run, inv.running, turn, nonzero, unique, big, kMaxProcessesAllowed, full, least]

theorem Reached.bounded_step (reached : Reached earlier s) (bounded : Bounded s)
    (late : 0 ∉ earlier → limit ≤ iters → iters < tooBig → 100 ≤ (wanted earlier).length)
    (runs : run [iters] s = .done s') : Bounded s' := by
  by_cases large : limit ≤ iters
  · have same := reached.ignores bounded large fun running => late running large
    obtain rfl := Exec.done.inj (same.symm.trans runs)
    exact bounded
  cases reached with
  | ended _ stopped =>
    obtain rfl := Exec.done.inj ((by simp [run, stopped] : run [iters] s = .done s).symm.trans runs)
    exact bounded
  | running running inv =>
    by_cases zero : iters = 0
    · subst zero
      obtain ⟨after, stops, -, same⟩ := inv.stop
      obtain rfl := Exec.done.inj ((by simp [run, inv.running, turn, stops] :
        run [0] s = .done after).symm.trans runs)
      intro t member
      exact bounded t (same ▸ member)
    · have turns : turn iters s = .done s' := by
        rw [run, if_neg (by simp [inv.running])] at runs
        obtain ⟨after, turns, last⟩ := Exec.bind_eq_done.mp runs
        exact turns.trans last
      intro t member
      rcases turn_threads zero turns t member with old | new
      · exact bounded t old
      · omega

theorem bounded_of_late (late : ∀ k iters, requests[k]? = some iters → 0 ∉ requests.take k → limit ≤ iters →
      iters < tooBig → 100 ≤ (wanted (requests.take k)).length)
    (runs : run (requests.take k) start = .done s) : Bounded s := by
  induction k generalizing s with
  | zero =>
    obtain rfl := Exec.done.inj runs
    exact fun t member => nomatch member
  | succ k ih =>
    rw [List.take_add_one] at runs
    cases next : requests[k]? with
    | none =>
      rw [next] at runs
      exact ih (by simpa using runs)
    | some iters =>
      rw [next, run_append] at runs
      obtain ⟨before, runs, last⟩ := Exec.bind_eq_done.mp runs
      exact (reached_of_done runs).bounded_step (ih runs) (late k iters next) last

theorem Overtakes.mono {more : List ℕ} (overtakes : Overtakes earlier iters) (prefixed : earlier <+: more) :
    100 ≤ (wanted more).length := by
  have known : wanted earlier ⊆ wanted more := by
    intro i member
    obtain ⟨old, adm⟩ := List.mem_filter.mp (List.mem_dedup.mp member)
    exact List.mem_dedup.mpr (List.mem_filter.mpr ⟨prefixed.subset old, adm⟩)
  have le := ((List.nodup_dedup _).subperm known).length_le
  exact overtakes.full.trans le

/-- A session starts only proofs that the main loop can serve exactly if every request from the limit on comes
after a hundred others, after the stop, or is so large that the comparison refuses it. -/
theorem startsServed_iff (requests : List ℕ) : StartsServed requests ↔
    ∀ k iters, requests[k]? = some iters → 0 ∉ requests.take k → limit ≤ iters → iters < tooBig →
      100 ≤ ((requests.take k).filter fun i => Admissible i).dedup.length := by
  constructor
  · intro serves k iters next running large small
    by_contra few
    have before : (requests.take k).take k = requests.take k := by rw [List.take_take, min_self]
    obtain ⟨s, runs, reached⟩ := @reach (requests.take k) k
      fun i s iters _ _ _ overtakes => few (overtakes.mono (List.take_prefix i _))
    rw [before] at runs reached
    cases reached with
    | ended ended => exact running ended
    | running _ inv =>
      have room : s.threads.length < 100 := inv.length_le.trans_lt (not_le.mp few)
      have nonzero : iters ≠ 0 := by
        rintro rfl
        exact absurd large (by decide)
      obtain ⟨s', turns, inv'⟩ := inv.turn nonzero fun evicting => evicting.full room
      -- nothing has changed, so the request had a proof before
      have same := serves.ignored k iters next large
      rw [List.take_add_one, next, Option.toList_some, run_append, runs, Exec.done_bind, run,
        if_neg (by simp [inv.running]), turns] at same
      obtain rfl : s' = s := Exec.done.inj same
      obtain ⟨t, member, eq⟩ := inv'.started room iters (by simp) ⟨nonzero, small⟩
      have := serves.started k s' runs t member
      omega
  · intro late
    have bounded {k s} (runs : run (requests.take k) start = .done s) : Bounded s := bounded_of_late late runs
    refine ⟨fun k s runs => bounded runs, fun k iters next large => ?_, ?_⟩
    · rw [List.take_add_one, next, Option.toList_some, run_append]
      cases runs : run (requests.take k) start with
      | done s =>
        exact (reached_of_done runs).ignores (bounded runs) large fun running => late k iters next running large
      | _ => rfl
    · intro k s runs t member F IsPower mode square f σ _ unlimited reachable ended
      have below : t.iters < limit := bounded runs t member
      have size : (UInt64.ofNat t.iters).toNat = t.iters := by
        rw [UInt64.toNat_ofNat']
        exact Nat.mod_eq_of_lt (below.trans (by decide))
      have published := reachable.published unlimited ended
      apply waitsEnd_of_le
      · exact size.trans_le (below.le.trans published)
      · exact size.trans_lt (below.trans (by decide))

/-- A request beyond the last checkpoint gets a proof. -/
theorem beyond_limit : ¬StartsServed [800000000] := by
  intro serves
  have runs : run ([800000000].take 1) start = .done ⟨false, (Vector.replicate 100 none).set 0 (some false),
      [⟨800000000, 0⟩], [(800000000, 0)]⟩ := by decide +kernel
  have := serves.started 1 _ runs ⟨800000000, 0⟩ (List.mem_singleton_self _)
  exact absurd this (by decide)

end SessionTwoWeso
end ChiaVdf
