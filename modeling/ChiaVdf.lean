import ChiaVdf.ClassGroup
import ChiaVdf.FormEncoding
import ChiaVdf.VerifierAgree
import ChiaVdf.SessionTwoWeso
import ChiaVdf.ProveTwoWeso
import ChiaVdf.InterruptableReads
import ChiaVdf.HwProofCoverage
import ChiaVdf.HwProofRuns
import ChiaVdf.ProveSelection
import ChiaVdf.XgcdWords
import ChiaVdf.ProofGenerators
import ChiaVdf.BqfcSafety
import ChiaVdf.BqfcLimbs
import ChiaVdf.ReducerRuns
import ChiaVdf.LazyPower
import ChiaVdf.VerifierTotality
import ChiaVdf.PrimeTest
import ChiaVdf.CreateDiscriminant
import ChiaVdf.HwProofFilter
import ChiaVdf.CString
import ChiaVdf.HwIters
import ChiaVdf.HwChallenge
import ChiaVdf.HwMessage
import ChiaVdf.SessionLimit
import ChiaVdf.Radix
import ChiaVdf.VdfDriver
import ChiaVdf.ChiaDriver
import ChiaVdf.ReducerOverflow
import ChiaVdf.FixedIntegerAdd
import ChiaVdf.GcdUnsigned
import ChiaVdf.SquarePowers
import ChiaVdf.OneWeso
import ChiaVdf.NWesoAccepted
import ChiaVdf.HwVdfClient
import ChiaVdf.HwClientProofs
import ChiaVdf.CWrapper
import ChiaVdf.FastVdf
