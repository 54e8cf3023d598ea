import ChiaVdf.CString
import ChiaVdf.Exec

/-! Iteration requests. `ReadIteration` of the software client waits for the bytes it asks for;
`handle_iters` of the hardware client parses what one read has brought. -/
namespace ChiaVdf

open CString

def kIterationHeaderDigits : ℕ := 2
def kMaxIterationDigits : ℕ := 20

/-- The loop of `ReadIteration` over the digits. -/
def readDigits : ByteString → ℕ → Exec ℕ
  | [], iters => .done iters
  | c :: data, iters =>
    if ¬isDigit c then .thrown "Iteration body must be decimal digits"
    else if iters > (ULONG_MAX - digit c) / 10 then .thrown "Iteration value overflow"
    else readDigits data (iters * 10 + digit c)

/-- `ReadIteration`, with the bytes that are left in the socket. Where too few bytes come, the read fails. -/
def readIteration (sock : ByteString) : Exec (ℕ × ByteString) :=
  let sizeBuf := sock.take kIterationHeaderDigits
  let sock := sock.drop kIterationHeaderDigits
  if sizeBuf.length < kIterationHeaderDigits then .thrown "Failed to read iteration size header"
  else if ¬sizeBuf.all isDigit then .thrown "Iteration size header must be decimal digits"
  else
    let size := decimal sizeBuf
    if size = 0 then .done (0, sock)
    else if size > kMaxIterationDigits then .thrown "Invalid iteration size"
    else if sock.length < size then .thrown "Failed to read iteration body"
    else do
      let iters ← readDigits (sock.take size) 0
      return (iters, sock.drop size)

/-- The numbers that repeated calls return, up to the first zero or the end of the stream. -/
def readIterations : ℕ → ByteString → Exec (List ℕ)
  | 0, _ => .diverged
  | fuel + 1, sock =>
    if sock = [] then .done []
    else do
      let (iters, sock) ← readIteration sock
      if iters = 0 then return [0]
      else do
        let rest ← readIterations fuel sock
        return iters :: rest

/-- A connection of the hardware client: the bytes in `read_buf` up to `buf_pos`, the numbers asked for, with a zero
for the request to stop, and whether it still runs. -/
structure VdfConn where
  readBuf : ByteString
  requests : List ℕ
  running : Bool
  deriving DecidableEq

namespace VdfConn

/-- The loop of `handle_iters`, on the bytes from `buf` on. A header of which only one byte has come is completed from
what the buffer held before; two bytes are missing then in any case. -/
def itersLoop : ℕ → VdfConn → Exec VdfConn
  | 0, _ => .diverged
  | fuel + 1, conn =>
    if conn.readBuf = [] then .done conn
    else
      let itersSize := strtoul (conn.readBuf.take 2) % 2 ^ 32
      if itersSize > 16 ∨ conn.readBuf.length < 2 + itersSize then .thrown "Bad data size"
      -- the terminator behind `iters_buf`
      else if itersSize = 16 then .fault .outOfBounds
      else
        let iters := strtoul ((conn.readBuf.drop 2).take itersSize)
        let buf := conn.readBuf.drop (2 + itersSize)
        if iters ≠ 0 then itersLoop fuel { conn with readBuf := buf, requests := conn.requests ++ [iters] }
        else .done { readBuf := buf, requests := conn.requests ++ [0], running := false }

def handleIters (conn : VdfConn) : Exec VdfConn := do
  let parsed ← itersLoop (conn.readBuf.length + 1) conn
  return if parsed.readBuf = [] then parsed else { parsed with readBuf := conn.readBuf }

/-- `handle_conn` on a running connection when `read` returns `chunk`: an empty one is the end of the stream. -/
def handleConn (conn : VdfConn) (chunk : ByteString) : Exec VdfConn :=
  if conn.running then
    if chunk = [] then .done { conn with running := false }
    else handleIters { conn with readBuf := conn.readBuf ++ chunk }
  else .done conn

def handleReads (conn : VdfConn) (chunks : List ByteString) : Exec VdfConn := chunks.foldlM handleConn conn

end VdfConn

/-- A well-formed message: one to twenty digits of a number of 64 bits. -/
structure IterMessage where
  digits : ByteString
  decimalDigits : ∀ c ∈ digits, isDigit c = true
  nonempty : 1 ≤ digits.length
  short : digits.length ≤ 20
  fits : decimal digits < 2 ^ 64

namespace IterMessage

def value (m : IterMessage) : ℕ := decimal m.digits

/-- The length in two digits. -/
def header (n : ℕ) : ByteString := [UInt8.ofNat (48 + n / 10), UInt8.ofNat (48 + n % 10)]

def encode (m : IterMessage) : ByteString := header m.digits.length ++ m.digits

/-- The request to stop, with one digit. -/
def stop : IterMessage := ⟨[48], by decide +kernel, by decide, by decide, by decide⟩

def stream (ms : List IterMessage) : ByteString := (ms.map encode).flatten

/-- The messages up to the first request to stop. -/
def upToStop : List IterMessage → List IterMessage
  | [] => []
  | m :: ms => if m.value = 0 then [m] else m :: upToStop ms

section Header

variable {m : IterMessage} {n : ℕ} {rest : ByteString}

theorem digit_ofNat (small : n < 10) :
    isDigit (UInt8.ofNat (48 + n)) = true ∧ digit (UInt8.ofNat (48 + n)) = n := by
  have whole : (UInt8.ofNat (48 + n)).toNat = 48 + n := by
    rw [UInt8.toNat_ofNat', Nat.mod_eq_of_lt (by omega)]
  exact ⟨isDigit_iff.mpr (by omega), by rw [digit, whole]; omega⟩

theorem header_digits (small : n < 100) : ∀ c ∈ header n, isDigit c = true := by
  intro c member
  cases List.mem_cons.mp member with
  | inl first => exact first ▸ (digit_ofNat (by omega)).1
  | inr later => exact List.mem_singleton.mp later ▸ (digit_ofNat (by omega)).1

theorem decimal_header (small : n < 100) : decimal (header n) = n := by
  simp only [decimal, header, decimalFrom_cons, decimalFrom_nil,
    (digit_ofNat (show n / 10 < 10 by omega)).2, (digit_ofNat (show n % 10 < 10 by omega)).2]
  omega

theorem length_encode (m : IterMessage) : m.encode.length = 2 + m.digits.length := by
  simp [encode, header]
  omega

theorem encode_ne_nil (m : IterMessage) : m.encode ≠ [] := by
  simp [encode, header]

theorem strtoul_header (m : IterMessage) : strtoul (header m.digits.length) = m.digits.length := by
  have short := m.short
  have whole := decimal_header (show m.digits.length < 100 by omega)
  rw [strtoul_digits (header_digits (by omega)) (by rw [whole]; omega), whole]

theorem strtoul_value (m : IterMessage) : strtoul m.digits = m.value := strtoul_digits m.decimalDigits m.fits

end Header

section Reading

variable {m : IterMessage} {ms : List IterMessage} {rest : ByteString}

theorem readDigits_done {digits : ByteString} {n : ℕ} (decimals : ∀ c ∈ digits, isDigit c = true)
    (fits : decimalFrom n digits < 2 ^ 64) : readDigits digits n = .done (decimalFrom n digits) := by
  induction digits generalizing n with
  | nil => simp [readDigits]
  | cons c digits ih =>
    have is_digit := decimals c List.mem_cons_self
    rw [decimalFrom_cons] at fits ⊢
    have next := le_decimalFrom (n * 10 + digit c) digits
    have room : ¬n > (ULONG_MAX - digit c) / 10 := by
      unfold ULONG_MAX
      omega
    rw [readDigits, if_neg (by simp [is_digit]), if_neg room]
    exact ih (fun c member => decimals c (List.mem_cons_of_mem _ member)) fits

theorem readIteration_encode (m : IterMessage) (rest : ByteString) :
    readIteration (m.encode ++ rest) = .done (m.value, rest) := by
  have short := m.short
  have nonempty := m.nonempty
  have start : (m.encode ++ rest).take 2 = header m.digits.length := by simp [encode, header]
  have body : (m.encode ++ rest).drop 2 = m.digits ++ rest := by simp [encode, header]
  have all : (header m.digits.length).all isDigit = true := List.all_eq_true.mpr (header_digits (by omega))
  have length : ¬(header m.digits.length).length < 2 := by simp [header]
  simp only [readIteration, kIterationHeaderDigits, start, body, if_neg length, all, not_true, if_false,
    decimal_header (show m.digits.length < 100 by omega), kMaxIterationDigits]
  rw [if_neg (by omega), if_neg (by omega), if_neg (by simp), List.take_left, List.drop_left]
  have value := readDigits_done m.decimalDigits m.fits
  rw [show readDigits m.digits 0 = .done m.value from value, Exec.done_bind, Exec.pure_eq]

theorem stream_cons (m : IterMessage) (ms : List IterMessage) : stream (m :: ms) = m.encode ++ stream ms := by
  simp [stream]

/-- The blocking reader returns the numbers up to the first request to stop. -/
theorem readIterations_stream (ms : List IterMessage) (fuel : ℕ) (enough : ms.length < fuel) :
    readIterations fuel (stream ms) = .done ((upToStop ms).map value) := by
  induction ms generalizing fuel with
  | nil =>
    obtain ⟨fuel, rfl⟩ : ∃ less, fuel = less + 1 := ⟨fuel - 1, by omega⟩
    rfl
  | cons m ms ih =>
    obtain ⟨fuel, rfl⟩ : ∃ less, fuel = less + 1 := ⟨fuel - 1, by omega⟩
    have some_bytes : stream (m :: ms) ≠ [] := by simp [stream_cons, encode_ne_nil]
    rw [readIterations, if_neg some_bytes, stream_cons, readIteration_encode, Exec.done_bind]
    by_cases zero : m.value = 0
    · simp [zero, upToStop]
    · simp only [zero, if_false, ih fuel (by simpa using enough), Exec.done_bind, Exec.pure_eq, upToStop,
        List.map_cons]

end Reading

end IterMessage

namespace VdfConn

open IterMessage

variable {conn : VdfConn} {m : IterMessage} {ms : List IterMessage} {chunks : List ByteString}
  {c rest : ByteString} {fuel : ℕ}

/-- The message at the front, in a buffer that has room for its digits. -/
theorem itersLoop_whole (fuel : ℕ) (front : conn.readBuf = m.encode ++ rest) (short : m.digits.length ≤ 15) :
    itersLoop (fuel + 1) conn = if m.value ≠ 0 then
        itersLoop fuel { conn with readBuf := rest, requests := conn.requests ++ [m.value] }
      else .done { readBuf := rest, requests := conn.requests ++ [0], running := false } := by
  have some_bytes : m.encode ++ rest ≠ [] := by simp [encode_ne_nil]
  have start : (m.encode ++ rest).take 2 = header m.digits.length := by simp [encode, header]
  have digits : ((m.encode ++ rest).drop 2).take m.digits.length = m.digits := by simp [encode, header]
  have after : (m.encode ++ rest).drop (2 + m.digits.length) = rest := by
    rw [← length_encode, List.drop_left]
  have size : m.digits.length % 2 ^ 32 = m.digits.length := Nat.mod_eq_of_lt (by omega)
  have received : ¬(m.digits.length > 16 ∨ (m.encode ++ rest).length < 2 + m.digits.length) := by
    rw [List.length_append, length_encode]
    omega
  simp only [itersLoop, front, if_neg some_bytes, start, strtoul_header, size, if_neg received, digits, after,
    strtoul_value]
  rw [if_neg (by omega)]

/-- Sixteen digits overrun the buffer and more are refused. -/
theorem itersLoop_long (front : conn.readBuf = m.encode ++ rest) (long : 16 ≤ m.digits.length) :
    ∀ last, itersLoop (fuel + 1) conn ≠ .done last := by
  intro last run
  have some_bytes : m.encode ++ rest ≠ [] := by simp [encode_ne_nil]
  have start : (m.encode ++ rest).take 2 = header m.digits.length := by simp [encode, header]
  have size : m.digits.length % 2 ^ 32 = m.digits.length := Nat.mod_eq_of_lt (by have := m.short; omega)
  simp only [itersLoop, front, if_neg some_bytes, start, strtoul_header, size] at run
  split at run
  · cases run
  · next received =>
    rw [if_pos (by omega)] at run
    cases run

theorem itersLoop_cut (some_bytes : conn.readBuf ≠ []) (cut : conn.readBuf <+: m.encode)
    (short : conn.readBuf.length < m.encode.length) : ∀ last, itersLoop (fuel + 1) conn ≠ .done last := by
  intro last run
  have missing : strtoul (conn.readBuf.take 2) % 2 ^ 32 > 16 ∨
      conn.readBuf.length < 2 + strtoul (conn.readBuf.take 2) % 2 ^ 32 := by
    by_cases two : 2 ≤ conn.readBuf.length
    · have start : conn.readBuf.take 2 = header m.digits.length := by
        obtain ⟨rest, whole⟩ := cut
        have := congrArg (List.take 2) whole
        rw [List.take_append_of_le_length two] at this
        rw [this]
        simp [encode, header]
      rw [start, strtoul_header, Nat.mod_eq_of_lt (by have := m.short; omega)]
      rw [length_encode] at short
      exact .inr short
    · exact .inr (by omega)
  simp only [itersLoop, if_neg some_bytes, if_pos missing] at run
  cases run

/-- Up to the first request to stop, every message fits the digit buffer and no read ends inside one. -/
structure Framed (c : ByteString) (chunks : List ByteString) (ms : List IterMessage) : Prop where
  short : ∀ m ∈ upToStop ms, m.digits.length ≤ 15
  whole : ∀ before, before <+: chunks → (c ++ before.flatten).length < (stream (upToStop ms)).length →
    ∃ k, c ++ before.flatten = stream (ms.take k)

/-- The rest of `handle_iters` on a buffer, and the reads after it. -/
def resume (fuel : ℕ) (conn : VdfConn) (readBuf : ByteString) (chunks : List ByteString) : Exec VdfConn := do
  let parsed ← itersLoop fuel conn
  handleReads (if parsed.readBuf = [] then parsed else { parsed with readBuf := readBuf }) chunks

theorem handleReads_stopped (stopped : conn.running = false) (chunks : List ByteString) :
    handleReads conn chunks = .done conn := by
  induction chunks with
  | nil => rfl
  | cons chunk chunks ih =>
    simp only [handleReads, List.foldlM_cons, handleConn, stopped, Bool.false_eq_true, if_false, Exec.done_bind]
    exact ih

theorem upToStop_zero (zero : m.value = 0) : upToStop (m :: ms) = [m] := if_pos zero

theorem upToStop_more (more : m.value ≠ 0) : upToStop (m :: ms) = m :: upToStop ms := if_neg more

theorem mem_upToStop (m : IterMessage) (ms : List IterMessage) : m ∈ upToStop (m :: ms) := by
  by_cases zero : m.value = 0
  · simp [upToStop_zero zero]
  · simp [upToStop_more zero]

theorem framed_read : Framed [] (c :: chunks) ms ↔ Framed c chunks ms := by
  constructor
  · rintro ⟨short, whole⟩
    refine ⟨short, fun before part inside => ?_⟩
    obtain ⟨k, same⟩ := whole (c :: before) ((List.prefix_cons_inj c).mpr part) (by simpa using inside)
    exact ⟨k, by simpa using same⟩
  · rintro ⟨short, whole⟩
    refine ⟨short, fun before part inside => ?_⟩
    cases List.prefix_cons_iff.mp part with
    | inl none => exact ⟨0, by simp [none, stream]⟩
    | inr some =>
      obtain ⟨later, rfl, rest⟩ := some
      obtain ⟨k, same⟩ := whole later rest (by simpa using inside)
      exact ⟨k, by simpa using same⟩

theorem framed_next (more : m.value ≠ 0) (fits : m.digits.length ≤ 15) :
    Framed (m.encode ++ rest) chunks (m :: ms) ↔ Framed rest chunks ms := by
  constructor
  · rintro ⟨short, whole⟩
    rw [upToStop_more more] at short whole
    refine ⟨fun m member => short m (List.mem_cons_of_mem _ member), fun before part inside => ?_⟩
    obtain ⟨k, same⟩ := whole before part (by
      simp only [stream_cons, List.length_append] at inside ⊢
      omega)
    cases k with
    | zero => simp [stream, encode_ne_nil] at same
    | succ k =>
      rw [List.take_succ_cons, stream_cons, List.append_assoc] at same
      exact ⟨k, List.append_cancel_left same⟩
  · rintro ⟨short, whole⟩
    constructor
    · rw [upToStop_more more]
      intro other member
      cases List.mem_cons.mp member with
      | inl same => rwa [same]
      | inr later => exact short other later
    · intro before part inside
      obtain ⟨k, same⟩ := whole before part (by
        simp only [upToStop_more more, stream_cons, List.length_append] at inside ⊢
        omega)
      exact ⟨k + 1, by rw [List.take_succ_cons, stream_cons, List.append_assoc, same]⟩

theorem framed_stop (zero : m.value = 0) (fits : m.digits.length ≤ 15) :
    Framed (m.encode ++ rest) chunks (m :: ms) := by
  constructor
  · rw [upToStop_zero zero]
    intro other member
    rwa [List.mem_singleton.mp member]
  · intro before part inside
    simp [upToStop_zero zero, stream] at inside

theorem not_framed_long (long : 16 ≤ m.digits.length) : ¬Framed c chunks (m :: ms) := by
  rintro ⟨short, -⟩
  have := short m (mem_upToStop m ms)
  omega

theorem not_framed_cut (some_bytes : c ≠ []) (inside : c.length < m.encode.length) :
    ¬Framed c chunks (m :: ms) := by
  rintro ⟨-, whole⟩
  have first : m.encode.length ≤ (stream (upToStop (m :: ms))).length := by
    by_cases zero : m.value = 0
    · simp [upToStop_zero zero, stream]
    · simp [upToStop_more zero, stream_cons]
  obtain ⟨k, same⟩ := whole [] List.nil_prefix (by simp; omega)
  cases k with
  | zero => exact some_bytes (by simpa [stream] using same)
  | succ k =>
    have lengths := congrArg List.length same
    simp [stream_cons] at lengths
    omega

/-- What is read and parsed agrees with the blocking reader exactly if the reads are framed. -/
theorem resume_iff (ms : List IterMessage) (fuel : ℕ) (c readBuf : ByteString) (requests : List ℕ)
    (chunks : List ByteString) (cut : c ++ chunks.flatten = stream ms) (some_bytes : ∀ chunk ∈ chunks, chunk ≠ [])
    (enough : c.length < fuel) :
    (∃ last, resume fuel ⟨c, requests, true⟩ readBuf chunks = .done last ∧
      last.requests = requests ++ (upToStop ms).map value) ↔ Framed c chunks ms := by
  induction ms generalizing fuel c readBuf requests chunks with
  | nil =>
    obtain ⟨rfl, none⟩ := List.append_eq_nil_iff.mp (show c ++ chunks.flatten = [] from cut)
    have chunks_nil : chunks = [] := by
      cases chunks with
      | nil => rfl
      | cons chunk chunks => simp [some_bytes chunk List.mem_cons_self] at none
    obtain ⟨fuel, rfl⟩ : ∃ less, fuel = less + 1 := ⟨fuel - 1, by omega⟩
    subst chunks_nil
    constructor
    · intro _
      exact ⟨by simp [upToStop], by simp [upToStop, stream]⟩
    · intro _
      exact ⟨⟨[], requests, true⟩, rfl, by simp [upToStop]⟩
  | cons m ms ih =>
    have nonempty (c readBuf : ByteString) (chunks : List ByteString) (fuel : ℕ)
        (cut : c ++ chunks.flatten = stream (m :: ms)) (some_bytes : ∀ chunk ∈ chunks, chunk ≠ [])
        (enough : c.length < fuel) (start : c ≠ []) :
        (∃ last, resume fuel ⟨c, requests, true⟩ readBuf chunks = .done last ∧
          last.requests = requests ++ (upToStop (m :: ms)).map value) ↔ Framed c chunks (m :: ms) := by
      obtain ⟨fuel, rfl⟩ : ∃ less, fuel = less + 1 := ⟨fuel - 1, by omega⟩
      rw [stream_cons] at cut
      have failing (none : ∀ last, itersLoop (fuel + 1) ⟨c, requests, true⟩ ≠ .done last) :
          ¬∃ last, resume (fuel + 1) ⟨c, requests, true⟩ readBuf chunks = .done last ∧
            last.requests = requests ++ (upToStop (m :: ms)).map value := by
        rintro ⟨last, run, -⟩
        obtain ⟨parsed, loop, -⟩ := Exec.bind_eq_done.mp run
        exact none parsed loop
      by_cases whole : m.encode.length ≤ c.length
      · obtain ⟨rest, rfl⟩ : m.encode <+: c := List.prefix_of_prefix_length_le ⟨_, cut.symm⟩ ⟨_, rfl⟩ whole
        by_cases long : 16 ≤ m.digits.length
        · exact iff_of_false (failing (itersLoop_long rfl long)) (not_framed_long long)
        · have fits : m.digits.length ≤ 15 := by omega
          by_cases zero : m.value = 0
          · refine iff_of_true ?_ (framed_stop zero fits)
            have loop := @itersLoop_whole ⟨m.encode ++ rest, requests, true⟩ m rest fuel rfl fits
            rw [if_neg (by simpa using zero)] at loop
            simp only [resume, loop, Exec.done_bind]
            rw [handleReads_stopped (by split <;> rfl)]
            exact ⟨_, rfl, by simp only [upToStop_zero zero]; split <;> simp [zero]⟩
          · rw [framed_next zero fits, ← ih fuel rest readBuf (requests ++ [m.value]) chunks
              (by rw [List.append_assoc] at cut; exact List.append_cancel_left cut) some_bytes
              (by rw [List.length_append, length_encode] at enough; omega)]
            have loop := @itersLoop_whole ⟨m.encode ++ rest, requests, true⟩ m rest fuel rfl fits
            rw [if_pos zero] at loop
            simp only [resume, loop, upToStop_more zero, List.map_cons, List.append_assoc, List.singleton_append]
      · have inside : c.length < m.encode.length := not_le.mp whole
        have part : c <+: m.encode := List.prefix_of_prefix_length_le ⟨_, cut⟩ ⟨_, rfl⟩ inside.le
        exact iff_of_false (failing (itersLoop_cut start part inside)) (not_framed_cut start inside)
    by_cases start : c = []
    · subst start
      obtain ⟨fuel, rfl⟩ : ∃ less, fuel = less + 1 := ⟨fuel - 1, by omega⟩
      cases chunks with
      | nil => simp [stream_cons, encode_ne_nil] at cut
      | cons chunk chunks =>
        have given := some_bytes chunk List.mem_cons_self
        rw [framed_read, ← nonempty chunk chunk chunks (chunk.length + 1) (by simpa using cut)
          (fun chunk member => some_bytes chunk (List.mem_cons_of_mem _ member)) (by omega) given]
        have read : resume (fuel + 1) ⟨[], requests, true⟩ readBuf (chunk :: chunks) =
            resume (chunk.length + 1) ⟨chunk, requests, true⟩ chunk chunks := by
          simp only [resume, itersLoop, if_true, Exec.done_bind, handleReads, List.foldlM_cons, handleConn,
            if_neg given, handleIters, List.nil_append, bind_assoc, Exec.pure_eq]
        rw [read]
    · exact nonempty _ _ _ _ cut some_bytes enough start

/-- On a stream of messages, read in parts that fit the buffer, `handle_iters` registers what `ReadIteration` returns
exactly if no read ends inside a message before the first request to stop has come and no message up to that one has
more than fifteen digits. -/
theorem handleReads_iff (ms : List IterMessage) (chunks : List ByteString) (cut : chunks.flatten = stream ms)
    (reads : ∀ chunk ∈ chunks, chunk ≠ [] ∧ chunk.length ≤ 512) :
    (∃ last, handleReads ⟨[], [], true⟩ chunks = .done last ∧
      readIterations (ms.length + 1) chunks.flatten = .done last.requests) ↔
    (∀ m ∈ upToStop ms, m.digits.length ≤ 15) ∧
      ∀ before, before <+: chunks → before.flatten.length < (stream (upToStop ms)).length →
        ∃ k, before.flatten = stream (ms.take k) := by
  have start := resume_iff ms 1 [] [] [] chunks cut (fun chunk member => (reads chunk member).1) (by simp)
  have first : resume 1 ⟨[], [], true⟩ [] chunks = handleReads ⟨[], [], true⟩ chunks := rfl
  rw [first] at start
  rw [cut, readIterations_stream ms _ (by omega)]
  constructor
  · rintro ⟨last, run, same⟩
    obtain ⟨short, whole⟩ := start.mp ⟨last, run, (Exec.done.inj same).symm⟩
    exact ⟨short, whole⟩
  · rintro ⟨short, whole⟩
    obtain ⟨last, run, same⟩ := start.mpr ⟨short, whole⟩
    exact ⟨last, run, by rw [same]; rfl⟩

/-- Two requests in one read and the request to stop in the next. -/
theorem handleReads_iff_two : ∃ (ms : List IterMessage) (last : VdfConn), ms.map value = [5, 12, 0] ∧
    stream ms = [48, 49, 53, 48, 50, 49, 50, 48, 49, 48] ∧
    handleReads ⟨[], [], true⟩ [[48, 49, 53, 48, 50, 49, 50], [48, 49, 48]] = .done last ∧
    readIterations 4 (stream ms) = .done last.requests := by
  let five : IterMessage := ⟨[53], by decide +kernel, by decide, by decide, by decide⟩
  let twelve : IterMessage := ⟨[49, 50], by decide +kernel, by decide, by decide, by decide⟩
  have bytes : stream [five, twelve, stop] = [48, 49, 53, 48, 50, 49, 50, 48, 49, 48] := by decide
  obtain ⟨last, run, same⟩ := (handleReads_iff [five, twelve, stop] [[48, 49, 53, 48, 50, 49, 50], [48, 49, 48]]
    bytes.symm (by decide)).mpr ⟨by decide, fun before part _ => by
      rcases List.prefix_cons_iff.mp part with rfl | ⟨rest, rfl, less⟩
      · exact ⟨0, rfl⟩
      · rcases List.prefix_cons_iff.mp less with rfl | ⟨rest, rfl, none⟩
        · exact ⟨2, by decide⟩
        · obtain rfl := List.prefix_nil.mp none
          exact ⟨3, by decide⟩⟩
  exact ⟨_, last, by decide, bytes, run, bytes ▸ same⟩

/-- The two clients differ on a message that comes in two reads, and on one of sixteen digits. -/
theorem handleReads_differs :
    (∃ ms : List IterMessage, ([[48], [49, 53]] : List ByteString).flatten = stream ms) ∧
    readIterations 2 [48, 49, 53] = .done [5] ∧
    handleReads ⟨[], [], true⟩ [[48], [49, 53]] = .thrown "Bad data size" ∧
    (∃ ms : List IterMessage, [49, 54] ++ List.replicate 16 49 = stream ms) ∧
    readIterations 2 ([49, 54] ++ List.replicate 16 49) = .done [1111111111111111] ∧
    handleReads ⟨[], [], true⟩ [[49, 54] ++ List.replicate 16 49] = .fault .outOfBounds := by
  refine ⟨⟨[⟨[53], by decide +kernel, by decide, by decide, by decide⟩], by decide⟩, by decide, by decide,
    ⟨[⟨List.replicate 16 49, by decide +kernel, by decide, by decide, by decide⟩], by decide⟩, by decide, by decide⟩

end VdfConn

end ChiaVdf
