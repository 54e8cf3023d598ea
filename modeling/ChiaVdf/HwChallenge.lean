import ChiaVdf.Bqfc
import ChiaVdf.CString
import ChiaVdf.Exec

/-! The challenge that starts a session: `InitSession` of the software client, and the state `WAITING` of
`handle_conn`, which parses what has come so far in a buffer of 512 bytes. -/
namespace ChiaVdf

open CString

/-- A byte as a `char`. -/
def signedChar (c : UInt8) : ℤ := if c.toNat < 128 then c.toNat else c.toNat - 256

/-- `atoi` of a string of a few characters. -/
def atoi (s : ByteString) : ℤ :=
  let n := decimal ((unsigned s).takeWhile isDigit)
  if (s.dropWhile isSpace).head? = some 45 then -n else n

/-- The size of `disc` and of `d_str`. -/
def discSize : ℕ := 350

/-- `boost::asio::read` of `n` bytes. -/
def readExactly (field : String) (n : ℕ) (sock : ByteString) : Exec (ByteString × ByteString) :=
  if sock.length < n then .thrown ("Connection closed while reading " ++ field)
  else .done (sock.take n, sock.drop n)

/-- The discriminant and the initial form, as `InitSession` reads them. -/
def initSession (sock : ByteString) : Exec (ByteString × ByteString) := do
  let (size, sock) ← readExactly "discriminant size" 3 sock
  let discIntSize := atoi size
  if discIntSize ≤ 0 ∨ discIntSize ≥ discSize then .thrown "Invalid discriminant size"
  else do
    let (disc, sock) ← readExactly "discriminant" discIntSize.toNat sock
    let (char, sock) ← readExactly "form size" 1 sock
    let formSize := signedChar (char.getD 0 0)
    if formSize ≤ 0 ∨ formSize > BQFC_FORM_SIZE then .thrown "Invalid form size"
    else do
      let (form, _) ← readExactly "initial form" formSize.toNat sock
      return (disc, form)

/-- `read_buf` with all its bytes, of which the first `bufPos` were received. -/
structure ReadBuf where
  readBuf : ByteString
  bufPos : ℕ

inductive Challenge where
  | waiting
  /-- The arguments of `init_vdf_state`: the string and the bytes of the form that `bqfc_deserialize` reads. -/
  | initVdfState (dSize : ℕ) (dStr initForm : ByteString)
  deriving DecidableEq

namespace ReadBuf

/-- `4 + d_size + 1`, in 64 bits. -/
def formStart (dSize : ℕ) : ℕ := (4 + dSize + 1) % 2 ^ 64

/-- `handle_conn` in the state `WAITING`, once the bytes are read. -/
def handleWaiting (conn : ReadBuf) : Exec Challenge :=
  let buf := conn.readBuf
  let bytes := conn.bufPos
  if bytes < 5 then .done .waiting
  else if buf.head? ≠ some 83 ∧ buf.head? ≠ some 78 ∧ buf.head? ≠ some 84 then
    .thrown "Bad initial data from timelord"
  else if ¬terminated (buf.drop 1) then .fault .outOfBounds
  else
    let dSize := strtoul (buf.drop 1)
    if bytes < formStart dSize then .done .waiting
    -- the copy into `d_str` and its terminator
    else if dSize ≥ discSize then .fault .outOfBounds
    else if (bytes : ℤ) ≠ (formStart dSize + signedChar (buf.getD (4 + dSize) 0)) % 2 ^ 64 then
      .thrown "Bad data size"
    else .done (.initVdfState dSize ((buf.drop 4).take dSize) ((buf.drop (5 + dSize)).take BQFC_FORM_SIZE))

/-- `read_data`, with the bytes that the socket has. -/
def readData (conn : ReadBuf) (bytes : ByteString) : ReadBuf where
  readBuf := conn.readBuf.take conn.bufPos ++ bytes ++ conn.readBuf.drop (conn.bufPos + bytes.length)
  bufPos := conn.bufPos + bytes.length

/-- The buffers that are parsed while the challenge comes in. A read that returns nothing closes the connection. -/
def parsed (conn : ReadBuf) : List ByteString → List ReadBuf
  | [] => []
  | chunk :: chunks =>
    let bytes := chunk.take (512 - conn.bufPos)
    if bytes = [] then []
    else
      let conn := conn.readData bytes
      conn :: if handleWaiting conn = .done .waiting then parsed conn chunks else []

/-- What `InitSession` guarantees: the client waits, throws or goes on, and goes on only with a discriminant that
fits its buffer and with all bytes of a form. -/
structure Bounded (conn : ReadBuf) : Prop where
  safe : conn.handleWaiting.Safe
  proceeds : ∀ dSize dStr initForm, conn.handleWaiting = .done (.initVdfState dSize dStr initForm) →
    1 ≤ dSize ∧ dSize ≤ 349 ∧ 4 + dSize + 1 + BQFC_FORM_SIZE ≤ conn.bufPos

/-- The declared length fits once its bytes have come; and a form whose declared size is what was received is a whole
form after a discriminant. -/
def WellSized (conn : ReadBuf) : Prop :=
  let dSize := strtoul (conn.readBuf.drop 1)
  let formSize := signedChar (conn.readBuf.getD (4 + dSize) 0)
  terminated (conn.readBuf.drop 1) = true ∧ (formStart dSize ≤ conn.bufPos → dSize ≤ 349 ∧
    ((conn.bufPos : ℤ) = 4 + dSize + 1 + formSize → 1 ≤ dSize ∧ BQFC_FORM_SIZE ≤ formSize))

/-- Five bytes with one of the three session types in front. -/
def Opened (conn : ReadBuf) : Prop :=
  5 ≤ conn.bufPos ∧ (conn.readBuf.head? = some 83 ∨ conn.readBuf.head? = some 78 ∨ conn.readBuf.head? = some 84)

section Bounds

variable {conn : ReadBuf} {c : UInt8}

theorem signedChar_bounds (c : UInt8) : -128 ≤ signedChar c ∧ signedChar c < 128 := by
  have := c.toNat_lt
  unfold signedChar
  split <;> omega

/-- The sizes are added up without a wrap once the length fits. -/
theorem formStart_eq {dSize : ℕ} (small : dSize ≤ 349) : formStart dSize = 4 + dSize + 1 :=
  Nat.mod_eq_of_lt (by omega)

theorem Opened.known (opened : conn.Opened) :
    ¬(conn.readBuf.head? ≠ some 83 ∧ conn.readBuf.head? ≠ some 78 ∧ conn.readBuf.head? ≠ some 84) := by
  obtain ⟨-, kind⟩ := opened
  tauto

/-- The rest of the parser, behind the check of the session type. -/
theorem handleWaiting_opened (opened : conn.Opened) (ended : terminated (conn.readBuf.drop 1) = true) :
    conn.handleWaiting =
      if conn.bufPos < formStart (strtoul (conn.readBuf.drop 1)) then .done .waiting
      else if strtoul (conn.readBuf.drop 1) ≥ discSize then .fault .outOfBounds
      else if (conn.bufPos : ℤ) ≠ (formStart (strtoul (conn.readBuf.drop 1)) +
          signedChar (conn.readBuf.getD (4 + strtoul (conn.readBuf.drop 1)) 0)) % 2 ^ 64 then
        .thrown "Bad data size"
      else .done (.initVdfState (strtoul (conn.readBuf.drop 1))
        ((conn.readBuf.drop 4).take (strtoul (conn.readBuf.drop 1)))
        ((conn.readBuf.drop (5 + strtoul (conn.readBuf.drop 1))).take BQFC_FORM_SIZE)) := by
  rw [handleWaiting]
  dsimp only
  rw [if_neg (not_lt.mpr opened.1), if_neg opened.known, if_neg (not_not.mpr ended)]

theorem handleWaiting_unterminated (opened : conn.Opened) (open_end : terminated (conn.readBuf.drop 1) = false) :
    conn.handleWaiting = .fault .outOfBounds := by
  rw [handleWaiting]
  dsimp only
  rw [if_neg (not_lt.mpr opened.1), if_neg opened.known, if_pos (by rw [open_end]; exact Bool.false_ne_true)]

theorem bounded_of_not_opened (closed : ¬conn.Opened) : conn.Bounded := by
  by_cases five : conn.bufPos < 5
  · have waits : conn.handleWaiting = .done .waiting := if_pos five
    exact ⟨by simp [waits], by simp [waits]⟩
  · have unknown : conn.readBuf.head? ≠ some 83 ∧ conn.readBuf.head? ≠ some 78 ∧ conn.readBuf.head? ≠ some 84 := by
      unfold Opened at closed
      push Not at closed
      exact closed (by omega)
    have throws : conn.handleWaiting = .thrown "Bad initial data from timelord" :=
      (if_neg five).trans (if_pos unknown)
    exact ⟨by simp [throws], by simp [throws]⟩

/-- Within the limit the check of the sizes is the equation of whole numbers. -/
theorem sizes_agree {dSize : ℕ} {formSize : ℤ} (small : dSize ≤ 349) (enough : formStart dSize ≤ conn.bufPos)
    (room : conn.bufPos ≤ 512) (char : -128 ≤ formSize ∧ formSize < 128) :
    (conn.bufPos : ℤ) = (formStart dSize + formSize) % 2 ^ 64 ↔ (conn.bufPos : ℤ) = 4 + dSize + 1 + formSize := by
  rw [formStart_eq small] at enough ⊢
  push_cast
  omega

theorem bounded_iff (conn : ReadBuf) (room : conn.bufPos ≤ 512) : conn.Bounded ↔ (conn.Opened → conn.WellSized) := by
  by_cases opened : conn.Opened
  case neg => exact iff_of_true (bounded_of_not_opened opened) fun absurd => (opened absurd).elim
  by_cases ended : terminated (conn.readBuf.drop 1) = true
  case neg =>
    have faults := handleWaiting_unterminated opened (by simpa using ended)
    refine iff_of_false (fun bounded => ?_) fun sized => ended (sized opened).1
    have := bounded.safe
    simp [faults] at this
  have run := handleWaiting_opened opened ended
  simp only [opened, true_imp_iff, WellSized, ended, true_and]
  have char := signedChar_bounds (conn.readBuf.getD (4 + strtoul (conn.readBuf.drop 1)) 0)
  generalize strtoul (conn.readBuf.drop 1) = dSize at *
  generalize signedChar (conn.readBuf.getD (4 + dSize) 0) = formSize at *
  by_cases waits : conn.bufPos < formStart dSize
  · rw [if_pos waits] at run
    exact iff_of_true ⟨by simp [run], by simp [run]⟩ fun enough => absurd waits (not_lt.mpr enough)
  have enough : formStart dSize ≤ conn.bufPos := not_lt.mp waits
  rw [if_neg waits] at run
  by_cases large : dSize ≥ discSize
  · rw [if_pos large] at run
    refine iff_of_false (fun bounded => ?_) fun sized => ?_
    · have := bounded.safe
      simp [run] at this
    · have := (sized enough).1
      unfold discSize at large
      omega
  have small : dSize ≤ 349 := by
    unfold discSize at large
    omega
  rw [if_neg large] at run
  have agree := sizes_agree small enough room char
  by_cases other : (conn.bufPos : ℤ) = (formStart dSize + formSize) % 2 ^ 64
  · rw [if_neg (by simpa using other)] at run
    have sum := agree.mp other
    constructor
    · rintro ⟨-, proceeds⟩ -
      obtain ⟨low, -, whole⟩ := proceeds _ _ _ run
      exact ⟨small, fun _ => ⟨low, by omega⟩⟩
    · intro sized
      obtain ⟨low, whole⟩ := (sized enough).2 sum
      refine ⟨by simp [run], fun d dStr initForm same => ?_⟩
      rw [run] at same
      obtain ⟨rfl, -, -⟩ := Challenge.initVdfState.inj (Exec.done.inj same)
      exact ⟨low, small, by omega⟩
  · rw [if_pos other] at run
    exact iff_of_true ⟨by simp [run], by simp [run]⟩ fun _ => ⟨small, fun sum => absurd (agree.mpr sum) other⟩

theorem parsed_room (chunks : List ByteString) (start : conn.bufPos ≤ 512) :
    ∀ later ∈ parsed conn chunks, later.bufPos ≤ 512 := by
  induction chunks generalizing conn with
  | nil => simp [parsed]
  | cons chunk chunks ih =>
    have next : (conn.readData (chunk.take (512 - conn.bufPos))).bufPos ≤ 512 := by
      simp only [readData, List.length_take]
      omega
    simp only [parsed]
    split
    · simp
    · intro later member
      cases List.mem_cons.mp member with
      | inl same => rwa [same]
      | inr rest =>
        split at rest
        · exact ih next later rest
        · simp at rest

/-- However the bytes come in, and whatever the buffer held before, the parser has the bounds of `InitSession` at every
step exactly if at every step what has the form of a challenge is well sized. -/
theorem parsed_bounded_iff (readBuf : ByteString) (chunks : List ByteString) :
    (∀ conn ∈ parsed ⟨readBuf, 0⟩ chunks, conn.Bounded) ↔
      ∀ conn ∈ parsed ⟨readBuf, 0⟩ chunks, conn.Opened → conn.WellSized := by
  have room := @parsed_room ⟨readBuf, 0⟩ chunks (by simp)
  exact forall₂_congr fun conn member => bounded_iff conn (room conn member)

theorem mem_parsed {chunk : ByteString} (readBuf : ByteString) (given : chunk ≠ []) (fits : chunk.length ≤ 512) :
    readData ⟨readBuf, 0⟩ chunk ∈ parsed ⟨readBuf, 0⟩ [chunk] := by
  have all : chunk.take (512 - 0) = chunk := List.take_of_length_le fits
  simp only [parsed, all, if_neg given]
  exact List.mem_cons_self

/-- A length of zero with no form behind it starts a session, and a length of 350 overruns the buffer. -/
theorem parsed_unbounded :
    (∃ conn ∈ parsed ⟨List.replicate 512 0, 0⟩ [[84, 48, 48, 48, 0]],
      conn.handleWaiting = .done (.initVdfState 0 [] (List.replicate 100 0)) ∧ conn.bufPos = 5) ∧
    ∃ conn ∈ parsed ⟨List.replicate 512 0, 0⟩ [[84, 51, 53, 48] ++ List.replicate 351 45],
      conn.handleWaiting = .fault .outOfBounds :=
  ⟨⟨_, mem_parsed _ (by simp) (by simp), by decide +kernel, rfl⟩,
    ⟨_, mem_parsed _ (by decide +kernel) (by decide +kernel), by decide +kernel⟩⟩

end Bounds

end ReadBuf

section InitSession

variable {sock rest bytes disc form : ByteString} {field : String} {n : ℕ}

theorem readExactly_done (run : readExactly field n sock = .done (bytes, rest)) : bytes.length = n := by
  unfold readExactly at run
  split at run
  · cases run
  · next enough =>
    obtain ⟨rfl, -⟩ := Prod.mk.inj (Exec.done.inj run)
    simp only [List.length_take]
    omega

theorem initSession_bounds (run : initSession sock = .done (disc, form)) :
    (1 ≤ disc.length ∧ disc.length ≤ 349) ∧ 1 ≤ form.length ∧ form.length ≤ BQFC_FORM_SIZE := by
  obtain ⟨⟨size, sock1⟩, -, run⟩ := Exec.bind_eq_done.mp run
  dsimp only at run
  split at run
  · cases run
  next valid =>
  obtain ⟨⟨disc', sock2⟩, read, run⟩ := Exec.bind_eq_done.mp run
  obtain ⟨⟨char, sock3⟩, -, run⟩ := Exec.bind_eq_done.mp run
  dsimp only at run
  split at run
  · cases run
  next small =>
  obtain ⟨⟨form', sock4⟩, read', run⟩ := Exec.bind_eq_done.mp run
  obtain ⟨rfl, rfl⟩ := Prod.mk.inj (Exec.done.inj run)
  have first := readExactly_done read
  have last := readExactly_done read'
  unfold discSize at valid
  rw [first, last]
  omega

end InitSession

end ChiaVdf
