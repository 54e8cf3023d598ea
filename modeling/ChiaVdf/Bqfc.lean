import ChiaVdf.ByteString
import ChiaVdf.VdfNew
import ChiaVdf.XgcdPartial

/-! The compressed form format of `bqfc.c`, and the two functions of `proof_common.h` that
the provers and the verifier call it through. -/
namespace ChiaVdf

def BQFC_MAX_D_BITS : ℕ := 1024

/-- All forms have this many bytes. -/
def BQFC_FORM_SIZE : ℕ := (BQFC_MAX_D_BITS + 31) / 32 * 3 + 4

/-- `struct qfb_c`, a compressed form. -/
structure QfbC where
  a : ℤ
  t : ℤ
  g : ℤ
  b0 : ℤ
  bSign : Bool
  deriving DecidableEq, Repr

namespace Bqfc

def compr (a b : ℤ) : Exec QfbC :=
  if a = b then .done ⟨a, 0, 0, 0, false⟩
  else do
    let sign : Bool := b < 0
    let aSqrt ← mpzSqrt a
    let s ← mpzXgcdPartial a (if sign then -b else b) aSqrt
    -- the cofactor comes back with the opposite sign
    let t := -s.co1
    let g : ℤ := Int.gcd a t
    if g = 1 then return ⟨a, t, g, 0, sign⟩
    else do
      let a' ← mpzDivexact a g
      let t' ← mpzDivexact t g
      let b0 ← mpzTdivQ b a'
      return ⟨a', t', g, if sign then -b0 else b0, sign⟩

/-- `none` where the source returns `-1`. -/
def decompr (D : ℤ) (c : QfbC) (strict : Bool) : Exec (Option (ℤ × ℤ)) :=
  if c.t = 0 then .done (some (c.a, c.a))
  else
    let t := if c.t < 0 then c.t + c.a else c.t
    if c.a = 0 then .done none
    else
      let r := mpzGcdext t c.a
      if r.gcd ≠ 1 then .done none
      else do
        let tInv := if r.s < 0 then r.s + c.a else r.s
        let d ← mpzMod D c.a
        let square ← mpzPowmUi c.t 2 c.a
        let tmp ← mpzTdivR (square * d) c.a
        if !mpzPerfectSquareP tmp then return none
        else do
          let root ← mpzSqrt tmp
          let low ← mpzTdivR (root * tInv) c.a
          let a := if c.g > 1 then c.a * c.g else c.a
          let b := if c.b0 > 0 then low + c.a * c.b0 else low
          let b := if c.bSign then -b else b
          if strict ∧ |b| > |a| then return none
          else return some (a, b)

/-- `size_t` subtraction. -/
def sizeSub (x y : ℕ) : ℕ := (x + 2 ^ 64 - y) % 2 ^ 64

/-- The bytes `mpz_export` writes; none for zero. -/
def mpzExport (n : ℤ) : ByteString :=
  if n = 0 then [] else ByteString.lsbFirst ((mpzSizeinbase2 n + 7) / 8) n.natAbs

/-- Appends one field to what has been written to `out_str`; first the return code. -/
def bqfcExport (outStr : ByteString) (size : ℕ) (n : ℤ) : Exec (ℤ × ByteString) :=
  let bytes := mpzExport n
  if (mpzSizeinbase2 n + 7) / 8 > size then .done (-1, outStr)
  else if outStr.length + size > BQFC_FORM_SIZE then .fault .outOfBounds
  else .done (0, outStr ++ bytes ++ List.replicate (size - bytes.length) 0)

/-- The fields in turn, until one does not fit. -/
def exportFields : ByteString → List (ℕ × ℤ) → Exec (ℤ × ByteString)
  | outStr, [] => .done (0, outStr)
  | outStr, (size, n) :: fields => do
    let (ret, outStr) ← bqfcExport outStr size n
    if ret ≠ 0 then return (-1, outStr) else exportFields outStr fields

/-- `d_bits` rounded up to a multiple of 32. -/
def roundBits (dBits : ℕ) : ℕ := (dBits + 31) / 32 * 32

def B_SIGN : UInt8 := 1
def T_SIGN : UInt8 := 2
def IS_1 : UInt8 := 4
def IS_GEN : UInt8 := 8

def gSize (c : QfbC) : ℕ := (mpzSizeinbase2 c.g + 7) / 8 - 1

/-- The widths of the fields, in the order in which they are written. -/
def fields (c : QfbC) (dBits : ℕ) : List (ℕ × ℤ) :=
  [(sizeSub (dBits / 16) (gSize c), c.a), (sizeSub (dBits / 32) (gSize c), c.t),
    (gSize c + 1, c.g), (gSize c + 1, c.b0)]

def serializeOnly (c : QfbC) (dBits : ℕ) : Exec (ℤ × ByteString) :=
  if dBits = 0 ∨ dBits > BQFC_MAX_D_BITS then .done (-1, [])
  else if roundBits dBits > BQFC_MAX_D_BITS then .done (-1, [])
  else
    let flags := (if c.bSign then B_SIGN else 0) ||| (if c.t < 0 then T_SIGN else 0)
    if gSize c > 255 then .done (-1, [flags])
    else exportFields [flags, UInt8.ofNat (gSize c)] (fields c (roundBits dBits))

/-- `mpz_import` of `size` bytes from `offset` on. -/
def importField (str : ByteString) (offset size : ℕ) : ℤ :=
  ByteString.ofLsbFirst ((str.drop offset).take size)

def deserializeOnly (str : ByteString) (dBits : ℕ) : Option QfbC :=
  if dBits = 0 ∨ dBits > BQFC_MAX_D_BITS then none
  else if roundBits dBits > BQFC_MAX_D_BITS then none
  else
    let flags := str.getD 0 0
    let gSize := (str.getD 1 0).toNat
    if gSize ≥ roundBits dBits / 32 then none
    else
      let aBytes := roundBits dBits / 16 - gSize
      let tBytes := roundBits dBits / 32 - gSize
      let t := importField str (2 + aBytes) tBytes
      some
        { a := importField str 2 aBytes
          t := if flags &&& T_SIGN ≠ 0 then -t else t
          g := importField str (2 + aBytes + tBytes) (gSize + 1)
          b0 := importField str (2 + aBytes + tBytes + (gSize + 1)) (gSize + 1)
          bSign := flags &&& B_SIGN ≠ 0 }

def getComprSize (dBits : ℕ) : ℤ :=
  if dBits = 0 ∨ dBits > BQFC_MAX_D_BITS then -1
  else ((dBits + 31) / 32 * 3 + 4 : ℕ)

/-- The written bytes in a buffer of zeros. -/
def padded (written : ByteString) : ByteString :=
  written ++ List.replicate (BQFC_FORM_SIZE - written.length) 0

/-- The return code and the buffer, which the caller hands over zeroed. -/
def serialize (a b : ℤ) (dBits : ℕ) : Exec (ℤ × ByteString) :=
  if getComprSize dBits ≤ 0 ∨ getComprSize dBits > BQFC_FORM_SIZE then .done (-1, padded [])
  else if b = 1 ∧ a ≤ 2 then .done (0, padded [if a = 2 then IS_GEN else IS_1])
  else do
    let c ← compr a b
    let (ret, written) ← serializeOnly c dBits
    return (ret, padded written)

/-- Zero when the canonical encoding is `str`. -/
def verifyCanon (a b : ℤ) (str : ByteString) (dBits : ℕ) : Exec ℤ := do
  let (ret, canon) ← serialize a b dBits
  return if ret ≠ 0 then ret else if canon = str then 0 else 1

/-- `none` where the return code is not zero. -/
def deserialize (D : ℤ) (str : ByteString) (dBits : ℕ) (strict : Bool) :
    Exec (Option (ℤ × ℤ)) :=
  if dBits = 0 ∨ dBits > BQFC_MAX_D_BITS then .done none
  else if str.length ≠ BQFC_FORM_SIZE then .done none
  else if str.getD 0 0 &&& (IS_1 ||| IS_GEN) ≠ 0 then
    .done (some (if str.getD 0 0 &&& IS_GEN ≠ 0 then 2 else 1, 1))
  else
    match deserializeOnly str dBits with
    | none => .done none
    | some c => do
      match ← decompr D c strict with
      | none => return none
      | some (a, b) =>
        let ret ← verifyCanon a b str dBits
        return if ret ≠ 0 then none else some (a, b)

end Bqfc

/-- The return code of `bqfc_serialize` is dropped. -/
def serializeForm (y : Form) (dBits : ℕ) : Exec ByteString := do
  let y ← y.reduce
  let (_, res) ← Bqfc.serialize y.a y.b dBits
  return res

def deserializeForm (D : ℤ) (bytes : ByteString) (strict : Bool) : Exec Form := do
  match ← Bqfc.deserialize D bytes (numBits D) strict with
  | none => .thrown "Deserializing compressed form failed"
  | some (a, b) =>
    let f ← Form.fromAbd a b D
    if !f.isReduced then .thrown "Form is not reduced" else return f

end ChiaVdf
