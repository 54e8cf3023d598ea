import ChiaVdf.NWesoCheckpoints
import ChiaVdf.ProverOrigins

/-! What `Prove` returns in an n-weso session is accepted by the verifier: the forms at the ends of the segments,
what the threads read and what they make of it are right in every state of a session. -/
namespace ChiaVdf

open RepeatedSquare (Event IsPower)

namespace NWeso

variable {F : Type} {r : Routines F} {s t : NWeso F} {next : Step F}

/-- Only new segments move the event loop on. -/
theorem step_handed (quiet : ∀ bucket, next ≠ .appendSegment bucket) (run : s.step r next = .done t) :
    t.lastAppended = s.lastAppended ∧ t.handed = s.handed := by
  cases next with
  | event event =>
    cases event with
    | onIteration form i =>
      obtain ⟨weso, -, last⟩ := Exec.bind_eq_done.mp run
      exact Exec.done.inj last ▸ ⟨rfl, rfl⟩
    | _ => exact Exec.done.inj run ▸ ⟨rfl, rfl⟩
  | work w =>
    rw [NWeso.step] at run
    split_ifs at run
    · exact (work_frame run).2.2.2.2
    · exact Exec.done.inj run ▸ ⟨rfl, rfl⟩
  | observe => exact Exec.done.inj run ▸ ⟨rfl, rfl⟩
  | getFinishedSegment =>
    rcases getFinishedSegment_cases run with ⟨-, rfl, -⟩ | ⟨-, rfl⟩ | ⟨-, rfl⟩ <;> exact ⟨rfl, rfl⟩
  | appendSegment bucket => exact absurd rfl (quiet bucket)
  | prove iteration => exact prove_eq run ▸ ⟨rfl, rfl⟩

end NWeso

namespace NWesoSession

variable {d : Discriminant} {x : ReducedForm d} {env : VerifierEnv} {r : Routines Form}
  {segments limit maxProvingThreads : ℕ} {f : Form} {multi : Bool} {sent : List (Event Form)} {s t : NWesoSession}

open ProverManager (SegmentProver Forms segKey Places Logged Threads Comes newSegments)

/-- The forms at the ends of a segment are those after that many squarings. -/
structure Ends (x : ReducedForm d) (s : ProverManager.Segment Form) : Prop where
  first : ∃ g, s.x = some g ∧ IsPower x s.start g
  last : ∃ g, s.y = some g ∧ IsPower x (s.start + s.length) g

/-- The proof that an honest prover finds for the segment with this start and length. -/
def Honest (env : VerifierEnv) (x : ReducedForm d) (key : ℕ × ℕ) (proof : Form) : Prop :=
  ∃ B : ℕ, HashesTo env (x ^ 2 ^ key.1) (x ^ 2 ^ (key.1 + key.2)) B ∧
    Represents proof ((x ^ 2 ^ key.1) ^ (2 ^ key.2 / B))

/-- The forms that the event loop has. -/
structure Contents (env : VerifierEnv) (x : ReducedForm d) (m : ProverManager Form)
    (proof : ℕ × ℕ → Option Form) : Prop where
  pending : ∀ i, ∀ s ∈ m.pendingSegments i, Ends x s
  provers : ∀ p ∈ m.provers, Ends x p.segment
  finished : ∀ p ∈ m.provers, p.isFinished = true → (proof p.segment.key).isSome = true
  proofs : ∀ key g, proof key = some g → Honest env x key g
  done : ∀ i, ∀ s ∈ m.doneSegments i, s.isEmpty = false →
    Ends x s ∧ ∃ g, s.proof = some g ∧ Honest env x s.key g

/-- The invariant of a session. -/
structure Sound (env : VerifierEnv) (x : ReducedForm d) (segments : ℕ) (s : NWesoSession) : Prop where
  places : ∃ next total, ∃ log : List (ProverManager.Segment Form), Places s.manager next total ∧ Logged log next
  threads : Threads s.manager
  segmentCount : s.manager.segmentCount = segments
  appended : ∀ i < segments, s.manager.lastAppended i = s.nweso.lastAppended i
  made : NWeso.AllMade s.nweso
  contents : Contents env x s.manager s.proof
  reads : ∀ i k j n g, i < segments → s.read (segKey i k) j n = some g → n * stride i < segmentSize i →
    IsPower x (k * segmentSize i + n * stride i) g

section Contents

variable {m u : ProverManager Form} {event : ProverManager.Event} {forms : Forms Form}
  {proof : ℕ × ℕ → Option Form}

theorem Ends.congr {p q : ProverManager.Segment Form} (ends : Ends x p) (same : ProverManager.SameEnds p q) :
    Ends x q := by
  obtain ⟨start, length⟩ := Prod.mk.inj same.key
  exact ⟨by rw [same.x, start]; exact ends.first, by rw [same.y, start, length]; exact ends.last⟩

theorem Contents.step (contents : Contents env x m proof) (comes : Comes forms event m u)
    (proved : ∀ start length, forms.prove start length = (proof (start, length)).getD .unset)
    (arrived : ∀ n i, event = .append n → m.phase = .appending → i < m.segmentCount →
      ∀ s ∈ newSegments forms (segmentSize i) n (n / segmentSize i + 1) (m.lastAppended i), Ends x s)
    (ended : ∀ j p, event = .finish j → m.provers[j]? = some p → (proof p.segment.key).isSome = true) :
    Contents env x u proof where
  pending i s member := by
    rcases comes.pending i s member with old | ⟨n, append, phase, inside, new⟩
    · exact contents.pending i s old
    · exact arrived n i append phase inside s new
  provers q member := by
    rcases comes.provers q member with ⟨i, pends, -⟩ | ⟨j, p, entry, same, -⟩
    · exact contents.pending i _ pends
    · exact (contents.provers p (List.mem_of_getElem? entry)).congr same
  finished q member done := by
    rcases comes.provers q member with ⟨i, -, fresh⟩ | ⟨j, p, entry, same, finished⟩
    · rw [done] at fresh
      cases fresh
    · rw [same.key]
      rcases finished done with before | now
      · exact contents.finished p (List.mem_of_getElem? entry) before
      · exact ended j p now entry
  proofs := contents.proofs
  done i s member full := by
    rcases comes.done i s member full with old | ⟨p, owner, finished, rfl⟩
    · exact contents.done i s old full
    · obtain ⟨g, some_g⟩ := Option.isSome_iff_exists.mp (contents.finished p owner finished)
      refine ⟨(contents.provers p owner).congr ⟨rfl, rfl, rfl⟩, g, ?_, contents.proofs _ g some_g⟩
      have found : proof (p.segment.start, p.segment.length) = some g := some_g
      rw [proved, found, Option.getD_some]

end Contents

section Generate

variable {i k : ℕ} {segment : ProverManager.Segment Form}

theorem stride_lt (small : i ≤ 14) : stride i < 2 ^ 30 := by
  have bound : 4 ^ (i - 1) ≤ 4 ^ 13 := Nat.pow_le_pow_right (by norm_num) (by omega)
  unfold stride
  split_ifs
  · norm_num
  · omega

theorem segmentSize_lt (small : i ≤ 14) : segmentSize i < 2 ^ 45 :=
  Nat.pow_lt_pow_right (by norm_num) (by omega)

theorem Ends.toSegment (ends : Ends x segment) : Represents segment.toSegment.x (x ^ 2 ^ segment.start) ∧
    Represents segment.toSegment.y (x ^ 2 ^ (segment.start + segment.length)) := by
  obtain ⟨⟨g, eq, power⟩, ⟨g', eq', power'⟩⟩ := ends
  simp only [ProverManager.Segment.toSegment, eq, eq', Option.getD_some]
  exact ⟨power, power'⟩

theorem toNat_ofNat_of_lt {n : ℕ} (small : n < 2 ^ 64) : (UInt64.ofNat n).toNat = n := by
  rw [UInt64.toNat_ofNat']
  exact Nat.mod_eq_of_lt small

/-- A thread that has read what it asked for makes an honest proof. -/
theorem generate_honest (bits : numBits d.D ≤ BQFC_MAX_D_BITS) (lawful : env.arith.Lawful d)
    (top : HashTopBit env) (small : i ≤ 14) (seg : ProverManager.IsSeg i k segment) (ends : Ends x segment)
    (reads : ∀ j n g, s.read (segKey i k) j n = some g → n * stride i < segmentSize i →
      IsPower x (k * segmentSize i + n * stride i) g) {proof : Form}
    (run : s.generate env d.D segment = .done proof) : Honest env x segment.key proof := by
  obtain ⟨repX, repY⟩ := ends.toSegment
  obtain ⟨B, hash, low⟩ := top.hashes bits (x ^ 2 ^ segment.start) (x ^ 2 ^ (segment.start + segment.length))
  have hash' : env.getB d.D segment.toSegment.x segment.toSegment.y = .done B := (repX.getB repY).trans hash
  have product := kl_ofSegment small segment.start
  rw [← seg.length] at product
  have ks : (InterruptableProver.ofSegment segment.start segment.length).k ≤ 12 ∧
      0 < (InterruptableProver.ofSegment segment.start segment.length).k := by
    simp only [InterruptableProver.ofSegment]
    split_ifs <;> norm_num
  unfold generate at run
  dsimp only at run
  generalize InterruptableProver.ofSegment segment.start segment.length = prover at product ks run
  have lpos : 0 < prover.l := by
    have positive : 0 < stride i := stride_pos
    by_contra zero
    rw [show prover.l = 0 by omega, Nat.mul_zero] at product
    omega
  have length : segment.toSegment.length.toNat = segmentSize i := by
    have bound := segmentSize_lt small
    exact (toNat_ofNat_of_lt (seg.length ▸ (by omega))).trans seg.length
  have large : 2 ^ prover.k ≤ B := (Nat.pow_le_pow_right (by norm_num) (by omega)).trans low
  -- Where the thread has not read, the right form is put in.
  obtain ⟨proof', run', rep⟩ := Prover.generateProof_spec (x := x ^ 2 ^ segment.start)
    (fun j n => .done ((s.read segment.key j n).getD ((x ^ 2 ^ segment.start) ^ 2 ^ (n * stride i)).form))
    lawful hash' large ks.2 (by omega) lpos (by
      rw [length, product]
      have := segmentSize_lt small
      have := stride_lt small
      omega) (by
      rw [product]
      have := stride_lt small
      omega) (by
      intro j _ n asked
      refine ⟨_, rfl, ?_⟩
      rw [product]
      cases known : s.read segment.key j n with
      | none => exact ReducedForm.represents _
      | some g =>
        have inside : n * stride i < segmentSize i := by
          rw [length] at asked
          calc n * stride i = prover.k * (n * prover.l) := by rw [← product]; ring
            _ < prover.k * (n * prover.l + j + 1) := Nat.mul_lt_mul_of_pos_left (by omega) ks.2
            _ ≤ segmentSize i := asked
        have power := reads j n g (seg.1 ▸ known) inside
        rw [Option.getD_some, ← pow_mul, ← pow_add, seg.start]
        exact power)
  have run'' : env.generateProof d.D segment.toSegment prover.k prover.l (fun j n =>
      .done ((s.read segment.key j n).getD ((x ^ 2 ^ segment.start) ^ 2 ^ (n * stride i)).form)) = .done proof := by
    refine Prover.generateProof_extends env (fun j n => ?_) segment.toSegment proof run
    cases s.read segment.key j n with
    | some g => exact Exec.Extends.refl _
    | none => exact fun a run => by cases run
  obtain rfl := Exec.done.inj (run''.symm.trans run')
  rw [length, ← seg.length] at rep
  exact ⟨B, hash, rep⟩

end Generate

section Steps

theorem Sound.memory (sound : Sound env x segments s) {u : NWeso Form}
    (same : u.lastAppended = s.nweso.lastAppended ∧ u.handed = s.nweso.handed) :
    Sound env x segments { s with nweso := u } :=
  { sound with
    appended := fun i inside => (sound.appended i inside).trans (congrFun same.1 i).symm
    made := fun i k lt => by
      rw [same.1] at lt
      exact same.2 ▸ sound.made i k lt }

theorem Sound.manage (sound : Sound env x segments s) {event : ProverManager.Event} (run : s.manage event = .done t)
    (noAppend : ∀ n, event ≠ .append n) (ended : ∀ j p, event = .finish j → s.manager.provers[j]? = some p →
      (s.proof p.segment.key).isSome = true) : Sound env x segments t ∧ t.nweso = s.nweso := by
  obtain ⟨⟨manager, new⟩, step, last⟩ := Exec.bind_eq_done.mp run
  obtain rfl := Exec.done.inj last
  obtain ⟨next, total, log, places, logged⟩ := sound.places
  obtain ⟨manager', new', step', ⟨next', total', places', logged'⟩, threads'⟩ :=
    ProverManager.step_spec s.forms places sound.threads logged event
  obtain ⟨rfl, rfl⟩ := Prod.mk.inj (Exec.done.inj (step.symm.trans step'))
  have comes := ProverManager.step_comes places step
  exact ⟨{
    places := ⟨next', total', _, places', logged'⟩
    threads := threads'
    segmentCount := comes.segmentCount.trans sound.segmentCount
    appended := fun i inside => (congrFun (comes.lastAppended noAppend) i).trans (sound.appended i inside)
    made := sound.made
    contents := sound.contents.step comes (fun _ _ => rfl) (fun n _ append => absurd append (noAppend n)) ended
    reads := sound.reads }, rfl⟩

variable (reachable : NWeso.Reachable (IsPower x) r (NWeso.mode multi limit) segments f sent s.nweso)
  (few : segments ≤ 15) (right : r.Right (IsPower x)) (zero : IsPower x 0 f)

include reachable right zero

theorem ends_of_arrived {segment : ProverManager.Segment Form} (whole : 2 ^ 16 ∣ segment.start)
    (whole' : 2 ^ 16 ∣ segment.length) (arrived : segment.start + segment.length ≤ s.nweso.weso.iterations)
    (first : segment.x = some (s.forms.checkpoints (segment.start / 2 ^ 16)))
    (last : segment.y = some (s.forms.checkpoints ((segment.start + segment.length) / 2 ^ 16))) :
    Ends x segment := by
  have look {n : ℕ} (multiple : 2 ^ 16 ∣ n) (le : n ≤ s.nweso.weso.iterations) :
      IsPower x n (s.forms.checkpoints (n / 2 ^ 16)) := by
    have exact_n := Nat.div_mul_cancel multiple
    obtain ⟨-, form, found, power⟩ := reachable.checkpoint right zero (n := n / 2 ^ 16) (by omega)
    rw [exact_n] at power
    simp only [forms, found, Option.getD_some]
    exact power
  exact ⟨⟨_, first, look whole (by omega)⟩, ⟨_, last, look (Nat.dvd_add whole whole') arrived⟩⟩

theorem Sound.append (sound : Sound env x segments s) (inTime : s.InTime .append) {u : NWeso Form}
    (phase : s.manager.phase = .appending) (loop : appendSegments s.nweso = .done u)
    (run : { s with nweso := u }.manage (.append u.intermediatesIter) = .done t) :
    NWeso.Reachable (IsPower x) r (NWeso.mode multi limit) segments f sent t.nweso ∧ Sound env x segments t := by
  have handed := reachable.handed right.square zero
  obtain ⟨sameS, sameM⟩ := reachable.frame
  obtain ⟨memory, counted⟩ := NWeso.appendSegments_spec loop
  have observed : s.nweso.intermediatesIter ≤ s.nweso.weso.iterations := by
    cases multi with
    | true => exact inTime sameM
    | false =>
      have returned := handed.returned
      rwa [NWeso.settled, sameM, if_neg Bool.false_ne_true] at returned
  obtain ⟨reachable', made'⟩ := NWeso.appendSegments_keeps
    (fun v => NWeso.Reachable (IsPower x) r (NWeso.mode multi limit) segments f sent v ∧ NWeso.AllMade v)
    ⟨reachable, sound.made⟩ (fun {i v w} keeps step => by
      have quiet : ∀ event, NWeso.Step.appendSegment (F := Form) i ≠ .event event := by simp
      exact ⟨keeps.1.other quiet step,
        keeps.2.appendSegment ((keeps.1.handed right.square zero).appended i) step⟩) loop
  obtain ⟨⟨manager, new⟩, step, last⟩ := Exec.bind_eq_done.mp run
  obtain rfl := Exec.done.inj last
  obtain ⟨next, total, log, places, logged⟩ := sound.places
  obtain ⟨manager', new', step', ⟨next', total', places', logged'⟩, threads'⟩ :=
    ProverManager.step_spec (forms { s with nweso := u }) places sound.threads logged (.append u.intermediatesIter)
  obtain ⟨rfl, rfl⟩ := Prod.mk.inj (Exec.done.inj (step.symm.trans step'))
  have comes := ProverManager.step_comes places step
  have now : manager = s.manager.append (forms { s with nweso := u }) u.intermediatesIter := by
    simp only [ProverManager.step, phase] at step
    exact (Prod.mk.inj (Exec.done.inj step)).1.symm
  refine ⟨reachable', {
    places := ⟨next', total', _, places', logged'⟩
    threads := threads'
    segmentCount := comes.segmentCount.trans sound.segmentCount
    appended := ?_
    made := made'
    contents := ?_
    reads := sound.reads }⟩
  · intro i inside
    have enough := Nat.div_le_div_right (c := segmentSize i)
      (Nat.sub_le s.nweso.intermediatesIter (s.nweso.lastAppended i))
    simp only [now, ProverManager.append, sound.segmentCount, inside, if_true, ProverManager.length_newSegments,
      memory.intermediatesIter, counted, sameS, sound.appended i inside]
    rw [min_eq_right (by omega)]
  · refine sound.contents.step comes (fun _ _ => rfl) ?_ (by simp)
    intro n i same _ inside segment member
    obtain rfl := ProverManager.Event.append.inj same
    rw [sound.segmentCount] at inside
    obtain ⟨whole, length, arrived, first, last⟩ := ProverManager.mem_newSegments
      (by rw [sound.appended i inside]; exact handed.appended i) member
    have part : 2 ^ 16 ∣ segmentSize i := pow_dvd_pow 2 (Nat.le_add_right 16 _)
    rw [memory.intermediatesIter] at arrived
    have sameForms : (forms { s with nweso := u }).checkpoints = s.forms.checkpoints := by
      simp only [forms, memory.weso]
    rw [sameForms] at first last
    exact ends_of_arrived reachable right zero (part.trans whole) (length ▸ part) (arrived.trans observed) first last

include few

theorem Sound.read (sound : Sound env x segments s) {p j n : ℕ} (inTime : s.InTime (.read p j n))
    (run : s.step env d.D r (.read p j n) = .done t) : Sound env x segments t ∧ t.nweso = s.nweso := by
  rw [step] at run
  cases entry : s.manager.provers[p]? with
  | none =>
    simp only [entry] at run
    obtain rfl := Exec.done.inj run
    exact ⟨sound, rfl⟩
  | some prover =>
    simp only [entry] at run
    obtain ⟨form, get, last⟩ := Exec.bind_eq_done.mp run
    obtain rfl := Exec.done.inj last
    obtain ⟨next, total, log, places, -⟩ := sound.places
    obtain ⟨i, k, lt, seg⟩ := places.owned prover (List.mem_of_getElem? entry)
    have below := lt.trans_le (places.le i)
    have inside : i < segments := by
      by_contra beyond
      rw [places.beyond i (by rw [sound.segmentCount]; omega)] at below
      cases below
    refine ⟨{ sound with reads := ?_ }, rfl⟩
    intro i' k' j' n' g inside' known near
    by_cases here : segKey i' k' = prover.segment.key ∧ j' = j ∧ n' = n
    · obtain ⟨key, rfl, rfl⟩ := here
      obtain ⟨rfl, rfl⟩ := ProverManager.segKey_inj.mp (key.trans seg.1)
      obtain ⟨timely, window⟩ := inTime prover entry
      rw [seg.bucket, seg.start, seg.length] at window
      have member : (i', k' * segmentSize i') ∈ s.nweso.handed := by
        refine sound.made i' k' ?_
        rw [← sound.appended i' inside, places.appended]
        exact Nat.mul_lt_mul_of_pos_right below segmentSize_pos
      obtain ⟨form', found, power⟩ := reachable.getForm few right zero
        (fun workers => timely (reachable.frame.2.trans workers)) member window near
      rw [seg.start, seg.length, found] at get
      obtain rfl := Exec.done.inj get
      simp only [key, Function.update_self] at known
      exact Option.some.inj known ▸ power
    · refine sound.reads i' k' j' n' g inside' ?_ near
      rw [← known]
      by_cases key : segKey i' k' = prover.segment.key
      · by_cases turn : j' = j
        · have other : n' ≠ n := fun same => here ⟨key, turn, same⟩
          simp only [key, turn, Function.update_self, Function.update_of_ne other]
        · simp only [key, Function.update_self, Function.update_of_ne turn]
      · simp only [Function.update_of_ne key]

variable (bits : numBits d.D ≤ BQFC_MAX_D_BITS) (lawful : env.arith.Lawful d) (top : HashTopBit env)

omit few right zero in
/-- A step of a thread of the memory or of the event loop, but for the segments it makes. -/
theorem Sound.nweso (sound : Sound env x segments s) {next : NWeso.Step Form} {u : NWeso Form}
    (noEvent : ∀ event, next ≠ .event event) (quiet : ∀ bucket, next ≠ .appendSegment bucket)
    (run : s.nweso.step r next = .done u) :
    NWeso.Reachable (IsPower x) r (NWeso.mode multi limit) segments f sent u ∧
      Sound env x segments { s with nweso := u } :=
  ⟨reachable.other noEvent run, sound.memory (NWeso.step_handed quiet run)⟩

include bits lawful top

omit reachable right zero in
theorem Sound.finish (sound : Sound env x segments s) {p : ℕ}
    (run : s.step env d.D r (.finish p) = .done t) : Sound env x segments t ∧ t.nweso = s.nweso := by
  rw [step] at run
  cases entry : s.manager.provers[p]? with
  | none =>
    simp only [entry] at run
    obtain rfl := Exec.done.inj run
    exact ⟨sound, rfl⟩
  | some prover =>
    simp only [entry] at run
    obtain ⟨proof, made, manage⟩ := Exec.bind_eq_done.mp run
    obtain ⟨next, total, log, places, -⟩ := sound.places
    have owner := List.mem_of_getElem? entry
    obtain ⟨i, k, lt, seg⟩ := places.owned prover owner
    have below := lt.trans_le (places.le i)
    have inside : i < segments := by
      by_contra beyond
      rw [places.beyond i (by rw [sound.segmentCount]; omega)] at below
      cases below
    have honest := generate_honest bits lawful top (by omega) seg (sound.contents.provers prover owner)
      (fun j n g => sound.reads i k j n g inside) made
    have updated : Sound env x segments
        { s with proof := Function.update s.proof prover.segment.key (some proof) } :=
      { sound with
        contents := { sound.contents with
          finished := by
            intro q member done
            by_cases same : q.segment.key = prover.segment.key
            · simp only [same, Function.update_self, Option.isSome_some]
            · simp only [Function.update_of_ne same]
              exact sound.contents.finished q member done
          proofs := by
            intro key g known
            by_cases same : key = prover.segment.key
            · subst same
              simp only [Function.update_self] at known
              exact Option.some.inj known ▸ honest
            · simp only [Function.update_of_ne same] at known
              exact sound.contents.proofs key g known } }
    exact updated.manage manage (by simp) fun j q same at_j => by
      obtain rfl := ProverManager.Event.finish.inj same
      obtain rfl := Option.some.inj (entry.symm.trans at_j)
      simp only [Function.update_self, Option.isSome_some]

/-- A step of any thread but the squaring thread. -/
theorem Sound.step (sound : Sound env x segments s) {next : Step} (inTime : s.InTime next)
    (run : s.step env d.D r next = .done t) :
    NWeso.Reachable (IsPower x) r (NWeso.mode multi limit) segments f sent t.nweso ∧ Sound env x segments t := by
  have plain {event : ProverManager.Event} (run : s.manage event = .done t) (noAppend : ∀ n, event ≠ .append n)
      (noFinish : ∀ p, event ≠ .finish p) :
      NWeso.Reachable (IsPower x) r (NWeso.mode multi limit) segments f sent t.nweso ∧ Sound env x segments t := by
    obtain ⟨sound', same⟩ := sound.manage run noAppend fun j _ same => absurd same (noFinish j)
    exact ⟨same ▸ reachable, sound'⟩
  have idle (run : (pure s : Exec NWesoSession) = .done t) :
      NWeso.Reachable (IsPower x) r (NWeso.mode multi limit) segments f sent t.nweso ∧ Sound env x segments t :=
    Exec.done.inj run ▸ ⟨reachable, sound⟩
  cases next with
  | work w =>
    obtain ⟨u, work, last⟩ := Exec.bind_eq_done.mp run
    obtain rfl := Exec.done.inj last
    exact sound.nweso reachable (by simp) (by simp) work
  | wake =>
    rw [NWesoSession.step] at run
    split at run
    · obtain ⟨u, observe, manage⟩ := Exec.bind_eq_done.mp run
      obtain ⟨reachable', sound'⟩ := sound.nweso reachable (by simp) (by simp) observe
      obtain ⟨sound'', same⟩ := sound'.manage manage (by simp) (by simp)
      exact ⟨same ▸ reachable', sound''⟩
    · exact idle run
  | collect => exact plain run (by simp) (by simp)
  | getFinishedSegment =>
    rw [NWesoSession.step] at run
    split at run
    · obtain ⟨u, get, last⟩ := Exec.bind_eq_done.mp run
      obtain rfl := Exec.done.inj last
      exact sound.nweso reachable (by simp) (by simp) get
    · exact idle run
  | append =>
    rw [NWesoSession.step] at run
    split at run
    · next phase =>
      obtain ⟨u, loop, manage⟩ := Exec.bind_eq_done.mp run
      exact sound.append reachable right zero inTime phase loop manage
    · exact idle run
  | schedule => exact plain run (by simp) (by simp)
  | request iteration => exact plain run (by simp) (by simp)
  | erase iteration => exact plain run (by simp) (by simp)
  | read p j i =>
    obtain ⟨sound', same⟩ := sound.read reachable few right zero inTime run
    exact ⟨same ▸ reachable, sound'⟩
  | finish p =>
    obtain ⟨sound', same⟩ := sound.finish few bits lawful top run
    exact ⟨same ▸ reachable, sound'⟩
  | fullyFinish p => exact plain run (by simp) (by simp)

omit reachable in
theorem Run.sound (run : Run (IsPower x) env d.D r (NWeso.mode multi limit) segments maxProvingThreads f sent s)
    (positive : 0 < maxProvingThreads) :
    NWeso.Reachable (IsPower x) r (NWeso.mode multi limit) segments f sent s.nweso ∧ Sound env x segments s := by
  induction run with
  | @start weso made =>
    have reachable : NWeso.Reachable (IsPower x) r (NWeso.mode multi limit) segments f [] (.start weso) := .start made
    have begun : ProverManager.Run (forms (NWesoSession.start weso maxProvingThreads)) weso.segments maxProvingThreads
        weso.multiProcMachine (.init weso.segments maxProvingThreads weso.multiProcMachine) [] := .init
    obtain ⟨⟨next, total, places, logged⟩, threads⟩ := begun.spec positive
    exact ⟨reachable, {
      places := ⟨next, total, [], places, logged⟩
      threads := threads
      segmentCount := reachable.frame.1
      appended := fun _ _ => rfl
      made := fun i k lt => absurd lt (Nat.not_lt_zero _)
      contents := {
        pending := by simp [NWesoSession.start, ProverManager.init]
        provers := by simp [NWesoSession.start, ProverManager.init]
        finished := by simp [NWesoSession.start, ProverManager.init]
        proofs := by simp [NWesoSession.start]
        done := by simp [NWesoSession.start, ProverManager.init] }
      reads := by simp [NWesoSession.start] }⟩
  | @event sent s u loop event before inner part handle ih =>
    obtain ⟨reachable, sound⟩ := ih
    exact ⟨reachable.event inner part handle, sound.memory (NWeso.step_handed (by simp) handle)⟩
  | step before inTime step ih => exact ih.2.step ih.1 few right zero bits lawful top inTime step

end Steps

end NWesoSession

end ChiaVdf
