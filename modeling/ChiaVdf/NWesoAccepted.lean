import ChiaVdf.NWesoProofs
import ChiaVdf.OneWeso

/-! From the right segments of a session to a proof that the verifier accepts: the segments that `Prove` selects are
a chain, and the last one continues it from its checkpoint. -/
namespace ChiaVdf.NWesoSession

open RepeatedSquare (Event IsPower)
open ProverManager (Contiguous Proves)

variable {d : Discriminant} {x : ReducedForm d} {env : VerifierEnv}

section Chain

variable {p : ProverManager.Segment Form}

theorem Ends.honest (ends : Ends x p) {g : Form} (known : p.proof = some g) (honest : Honest env x p.key g)
    (small : p.length < 2 ^ 64) :
    HonestSegment env (x ^ 2 ^ p.start) (x ^ 2 ^ (p.start + p.length)) p.toSegment := by
  obtain ⟨first, last⟩ := ends.toSegment
  obtain ⟨B, hash, rep⟩ := honest
  have length : p.toSegment.length.toNat = p.length := toNat_ofNat_of_lt small
  have proof : p.toSegment.proof = g := by simp [ProverManager.Segment.toSegment, known]
  refine ⟨first, last, ?_, B, hash, ?_⟩
  · rw [length, pow_two_pow_add]
  · rw [length, proof]
    exact rep

theorem honestChain (env : VerifierEnv) (x : ReducedForm d) {segments : List (ProverManager.Segment Form)}
    {first last : ℕ}
    (contiguous : Contiguous first segments last) (small : last < 2 ^ 64)
    (right : ∀ s ∈ segments, Ends x s ∧ ∃ g, s.proof = some g ∧ Honest env x s.key g) :
    HonestChain env (x ^ 2 ^ first) (segments.map (·.toSegment)) (x ^ 2 ^ last) := by
  induction segments generalizing first with
  | nil =>
    obtain rfl : first = last := contiguous
    exact .nil
  | cons s segments ih =>
    obtain ⟨rfl, rest⟩ := contiguous
    obtain ⟨ends, g, known, honest⟩ := right s (by simp)
    have sum := rest.sum
    exact HonestChain.cons (ends.honest known honest (by omega)) (ih rest fun t member => right t (by simp [member]))

theorem sum_lengths {segments : List (ProverManager.Segment Form)} {first last : ℕ}
    (contiguous : Contiguous first segments last) (small : last < 2 ^ 64) :
    ((segments.map (·.toSegment)).map fun s => s.length.toNat).sum = (segments.map (·.length)).sum := by
  induction segments generalizing first with
  | nil => rfl
  | cons s segments ih =>
    obtain ⟨-, rest⟩ := contiguous
    have sum := rest.sum
    have length : s.toSegment.length.toNat = s.length := toNat_ofNat_of_lt (by omega)
    simp only [List.map_cons, List.sum_cons, length, ih rest]

end Chain

section LastSegment

/-- A greater vector has room for as many forms. -/
theorem squareStep_extends (arith : FormArith) (D L : ℤ) (kl i : ℕ) {size size' : ℕ} (le : size ≤ size')
    (s : Form × List Form) : (ProverSlow.squareStep arith D L kl size i s).Extends
      (ProverSlow.squareStep arith D L kl size' i s) := by
  intro a run
  rw [ProverSlow.squareStep] at run ⊢
  by_cases full : i % kl = 0 ∧ size ≤ s.2.length
  · rw [if_pos full] at run
    cases run
  · have room : ¬(i % kl = 0 ∧ size' ≤ s.2.length) := fun more => full ⟨more.1, le.trans more.2⟩
    rw [if_neg full] at run
    rwa [if_neg room]

theorem lastSegment_done {D L : ℤ} {y y' proof : Form} {start length : ℕ} {forms : List Form}
    (root : mpzRoot4 (-D) = .done L)
    (squares : Exec.forLoop length (ProverSlow.squareStep env.arith D L 10 (length / 10 + 100)) (y, []) =
      .done (y', forms))
    (generated : env.generateProof D ⟨UInt64.ofNat start, UInt64.ofNat length, y, y', .unset, false⟩ 10 1
      (fun _ i => ProverSlow.entry forms i) = .done proof) :
    lastSegment env D y start length = .done ⟨UInt64.ofNat start, UInt64.ofNat length, y, y', proof, false⟩ := by
  simp only [lastSegment, root, squares, generated, Exec.done_bind, Exec.pure_eq]

theorem lastSegment_spec (bits : numBits d.D ≤ BQFC_MAX_D_BITS) (lawful : env.arith.Lawful d) (top : HashTopBit env)
    {y : Form} {start length : ℕ} (rep : Represents y (x ^ 2 ^ start)) (positive : 0 < length)
    (small : length < 2 ^ 16) :
    ∃ s, lastSegment env d.D y start length = .done s ∧ s.length.toNat = length ∧
      HonestSegment env (x ^ 2 ^ start) (x ^ 2 ^ (start + length)) s := by
  obtain ⟨⟨y', forms⟩, squares, repY, count, holds⟩ :=
    squareLoop_spec (T := length) lawful (show 0 < 10 by norm_num) rep
  have room : (length + 10 - 1) / 10 ≤ length / 10 + 100 := by omega
  have squares' := Exec.Extends.forLoop (y, []) (squareStep_extends env.arith d.D d.L 10 · room ·) _ squares
  have size : (UInt64.ofNat length).toNat = length := toNat_ofNat_of_lt (by omega)
  rw [pow_two_pow_add] at repY
  obtain ⟨proof, generated, honest⟩ := generateProof_honest (k := 10) (l := 1) (z := x ^ 2 ^ start)
    ⟨UInt64.ofNat start, UInt64.ofNat length, y, y', .unset, false⟩ bits lawful top
    (fun _ i => ProverSlow.entry forms i) rep (by rwa [size, pow_two_pow_add]) (by norm_num) (by norm_num)
    (by norm_num) (by norm_num) (by rw [size]; omega)
    (by
      intro _ i inside
      rw [size] at inside
      refine holds.entry ?_
      rw [count]
      omega)
  rw [size, pow_two_pow_add] at honest
  exact ⟨_, lastSegment_done (mpzRoot4_neg_D d) squares' generated, size, honest⟩

end LastSegment

section Selected

variable {m : ProverManager Form} {segments : List (ProverManager.Segment Form)} {iteration : ℕ}

theorem mem_selectFrom {size p : ℕ} {l : List (ProverManager.Segment Form)} {s : ProverManager.Segment Form}
    (member : s ∈ (ProverManager.selectFrom size iteration l p).1) : s ∈ l := by
  induction l generalizing p with
  | nil => exact member
  | cons first l ih =>
    rw [ProverManager.selectFrom] at member
    split_ifs at member
    · rcases List.mem_cons.mp member with rfl | later
      · exact List.mem_cons_self
      · exact List.mem_cons_of_mem _ (ih later)
    · cases member

theorem mem_selectLoop {done : ℕ → List (ProverManager.Segment Form)} {n p : ℕ} {s : ProverManager.Segment Form}
    (member : s ∈ (ProverManager.selectLoop done iteration n p).1) : ∃ i, s ∈ done i := by
  induction n generalizing p with
  | zero => cases member
  | succ n ih =>
    rw [ProverManager.selectLoop] at member
    rcases List.mem_append.mp member with here | below
    · exact ⟨n, List.mem_of_mem_drop (mem_selectFrom here)⟩
    · exact ih below

theorem mem_select (selected : m.select iteration = some segments) {s : ProverManager.Segment Form}
    (member : s ∈ segments) : ∃ i, s ∈ m.doneSegments i := by
  rw [ProverManager.select] at selected
  split_ifs at selected
  dsimp only at selected
  split_ifs at selected
  obtain rfl := Option.some.inj selected
  exact mem_selectLoop member

end Selected

section Prove

variable {r : Routines Form} {multi : Bool} {limit count maxProvingThreads : ℕ} {f : Form}
    {sent sent' : List (Event Form)}
  {s t : NWesoSession} {segments : List (ProverManager.Segment Form)} {iteration : ℕ}

theorem Sound.chain (sound : Sound env x count t) (selected : t.manager.select iteration = some segments)
    (noneMissing : t.manager.NoneMissing iteration) (small : iteration < 2 ^ 64) :
    HonestChain env x (segments.map (·.toSegment)) (x ^ 2 ^ (iteration - iteration % 2 ^ 16)) ∧
      ((segments.map (·.toSegment)).map fun s => s.length.toNat).sum = iteration - iteration % 2 ^ 16 ∧
      segments.length ≤ 63 := by
  obtain ⟨next, total, log, places, -⟩ := sound.places
  have proves := (places.proves_iff selected).mpr noneMissing
  have chain := honestChain env x proves.contiguous (by omega) fun s member => by
    obtain ⟨i, done⟩ := mem_select selected member
    exact sound.contents.done i s done (proves.done s member).1
  have sum := proves.contiguous.sum
  rw [Nat.zero_add] at sum
  rw [Nat.pow_zero, pow_one] at chain
  exact ⟨chain, (sum_lengths proves.contiguous (by omega)).trans sum, proves.few⟩

/-- A chain of segments for the iterations of a client is a proof for it, as far as the computations for its segments
come back. -/
theorem checked_of_chain (bits : numBits d.D ≤ BQFC_MAX_D_BITS) (within : env.arith.Within d) (top : HashTopBit env)
    (rep : Represents f x) {chain : List Segment} {y : Form} (positive : 0 < iteration) (small : iteration < 2 ^ 64)
    (honest : HonestChain env x chain (x ^ 2 ^ iteration)) (few : chain.length ≤ 64)
    (total : (chain.map fun s => s.length.toNat).sum = iteration) (repY : Represents y (x ^ 2 ^ iteration)) :
    ∃ proof xS, env.serializeProof d.D y chain = .done proof ∧ serializeForm f (numBits d.D) = .done xS ∧
      env.checkProofOfTimeNWesolowski d.D xS (proof.y ++ proof.proof) (UInt64.ofNat iteration)
        (UInt64.ofNat (numBits d.D)) proof.witnessType.toUInt64 =
          (env.checkSegments d.D chain >>= fun _ => .done true) := by
  have nonempty : chain ≠ [] := by
    rintro rfl
    exact positive.ne total
  obtain ⟨proof, xS, run, written, check⟩ := serializeProof_checked bits within top honest nonempty few repY
    ((toNat_ofNat_of_lt small).trans total.symm)
  have witness : proof.witnessType.toUInt64 = UInt64.ofNat (chain.length - 1) := by
    rw [serializeProof_witnessType run]
    apply UInt64.toNat_inj.mp
    rw [toNat_ofNat_of_lt (by omega), UInt8.toNat_toUInt64, UInt8.toNat_ofNat', Nat.mod_eq_of_lt (by omega)]
  refine ⟨proof, xS, run, by rwa [rep.serializeForm], ?_⟩
  rw [witness]
  exact check

/-- `Prove` in a session whose threads are in time, over an arithmetic that comes back. -/
theorem prove_spec (bits : numBits d.D ≤ BQFC_MAX_D_BITS) (lawful : env.arith.Lawful d) (top : HashTopBit env)
    (right : r.Right (IsPower x)) (rep : Represents f x) (few : count ≤ 15) (threads : 0 < maxProvingThreads)
    (looks : Run (IsPower x) env d.D r (NWeso.mode multi limit) count maxProvingThreads f sent s)
    (selects : Run (IsPower x) env d.D r (NWeso.mode multi limit) count maxProvingThreads f sent' t)
    (positive : 0 < iteration) (reached : iteration - iteration % 2 ^ 16 ≤ s.nweso.vdfIteration)
    (selected : t.manager.select iteration = some segments) (noneMissing : t.manager.NoneMissing iteration) :
    ∃ proof xS, prove env d.D s.nweso.weso segments iteration = .done proof ∧
      serializeForm f (numBits d.D) = .done xS ∧
      env.checkProofOfTimeNWesolowski d.D xS (proof.y ++ proof.proof) (UInt64.ofNat iteration)
        (UInt64.ofNat (numBits d.D)) proof.witnessType.toUInt64 = .done true := by
  have zero : IsPower x 0 f := by simpa [IsPower] using rep
  obtain ⟨reachable, -⟩ := looks.sound few right zero bits lawful top threads
  obtain ⟨-, sound⟩ := selects.sound few right zero bits lawful top threads
  have observed := (reachable.handed right.square zero).observed
  obtain ⟨inside, y, found, power⟩ := reachable.checkpoint right zero (n := iteration / 2 ^ 16) (by omega)
  have capacity : FastAlgorithmCallback.checkpointsCapacity = 2 ^ 18 := by decide
  have small : iteration < 2 ^ 64 := by omega
  obtain ⟨chain, total, most⟩ := sound.chain selected noneMissing small
  have whole : iteration / 2 ^ 16 * 2 ^ 16 = iteration - iteration % 2 ^ 16 := by omega
  rw [whole] at power
  have look : s.nweso.weso.getCheckpoint (iteration / 2 ^ 16) = .done (some y) := by
    rw [FastAlgorithmCallback.getCheckpoint, if_pos inside, found]
  by_cases exact_n : iteration % 2 ^ 16 = 0
  · rw [exact_n, Nat.sub_zero] at chain total power
    obtain ⟨proof, xS, run, written, check⟩ := checked_of_chain bits lawful.within top rep positive small chain
      (by simp; omega) total power
    rw [chain.checkSegments lawful top.positive] at check
    refine ⟨proof, xS, ?_, written, check⟩
    simp only [prove, look, Exec.done_bind, Option.getD_some, if_pos exact_n, run]
  · obtain ⟨last, made, length, honest⟩ := lastSegment_spec bits lawful top power
      (Nat.pos_of_ne_zero exact_n) (Nat.mod_lt _ (by norm_num))
    have le := Nat.mod_le iteration (2 ^ 16)
    rw [Nat.sub_add_cancel le] at honest
    have longer := chain.snoc honest
    obtain ⟨proof, xS, run, written, check⟩ := checked_of_chain (y := last.y) bits lawful.within top rep positive small
      longer (by simp; omega) (by
        rw [List.map_append, List.sum_append, total]
        simp [length]
        omega) honest.y
    rw [longer.checkSegments lawful top.positive] at check
    refine ⟨proof, xS, ?_, written, check⟩
    simp only [prove, look, Exec.done_bind, Option.getD_some, if_neg exact_n, made, run]

/-- The segment of five iterations, for which there is no digit to look up. -/
theorem lastSegment_five : lastSegment (constantHash 2) (-23) ⟨2, 1, 3⟩ 0 5 =
    .done ⟨UInt64.ofNat 0, UInt64.ofNat 5, ⟨2, 1, 3⟩, ⟨2, -1, 3⟩, ⟨1, 1, 6⟩, false⟩ := by
  have squares : Exec.forLoop 5 (ProverSlow.squareStep (constantHash 2).arith (-23) 2 10 (5 / 10 + 100))
      (⟨2, 1, 3⟩, []) = .done (⟨2, -1, 3⟩, [⟨2, 1, 3⟩]) := by decide +kernel
  have root : mpzRoot4 (- -23) = .done 2 := by decide +kernel
  have fits : GroupArith.FitsWords 5 10 1 := ⟨by norm_num, by norm_num, by norm_num, by norm_num, by norm_num⟩
  have large : 2 ^ 10 ≤ 2 ^ 263 := Nat.pow_le_pow_right (by norm_num) (by norm_num)
  have hash : (constantHash 2).getB (-23) ⟨2, 1, 3⟩ ⟨2, -1, 3⟩ = .done (2 ^ 263 : ℕ) := by decide +kernel
  have proof := GroupArith.generateProof_fixed ⟨UInt64.ofNat 0, UInt64.ofNat 5, ⟨2, 1, 3⟩, ⟨2, -1, 3⟩, .unset, false⟩
    root
    (FormArith.inPlace_fixes_23 (by norm_num)) hash (fun i => ProverSlow.entry [⟨2, 1, 3⟩] i) fits large (by decide)
  exact lastSegment_done root squares proof

end Prove

end ChiaVdf.NWesoSession
