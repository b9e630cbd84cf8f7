import Arweave.Serialize.TxRoundTrip

/-!
# Updates of the nonce limiter

A server sends its sessions in one of two formats. The older format leaves the difficulties
out of the session keys and is only written, for clients that have not been upgraded. The
response of a client has grown by two optional bytes, and the three lengths are told apart by
the size of the step number.
-/

namespace Arweave.Serialize
open Arweave.Lib Arweave.Lib.Codec Arweave.Wallet

def vdfCheckpointCountInStep : Nat := 25

/-- `{NextSeed, Interval, NextVDFDifficulty}` -/
structure SessionKey where
  nextSeed : Bytes
  interval : Nat
  nextVdfDifficulty : Nat
  deriving DecidableEq, Repr

/-- The fields of a session that are sent. -/
structure VdfSession where
  stepNumber : Nat
  seed : Bytes
  steps : List Bytes
  prevSessionKey : Option SessionKey
  upperBound : Option Nat
  nextUpperBound : Option Nat
  deriving DecidableEq, Repr

structure NonceLimiterUpdate where
  sessionKey : SessionKey
  session : VdfSession
  checkpoints : List Bytes
  isPartial : Bool
  deriving DecidableEq, Repr

structure NonceLimiterUpdateResponse where
  sessionFound : Bool := true
  stepNumber : Option Nat := none
  postpone : Nat := 0
  format : Nat := 2
  deriving DecidableEq, Repr

/-- `encode_int/2` -/
def encodeOptionalInt : Option Nat → Nat → Bytes
  | none, sizeBytes => Bytes.ofNat sizeBytes 0
  | some n, sizeBytes => encodeInt n sizeBytes

/-- A number whose size field is zero is undefined. -/
def toOptionalInt (bin : Bytes) : Option Nat := if bin.length = 0 then none else some bin.toNat

def parse32bList (bin : Bytes) : Option (List Bytes) := pieces 32 bin.length bin

def encodeSessionKey : Nat → Option SessionKey → Option Bytes
  | 1, none => some []
  | 1, some key => do
    let nextSeed ← binaryOf 48 key.nextSeed
    return nextSeed ++ Bytes.ofNat 8 key.interval
  | 2, none => some []
  | 2, some key => do
    let nextSeed ← binaryOf 48 key.nextSeed
    return nextSeed ++ encodeInt key.nextVdfDifficulty 1 ++ Bytes.ofNat 8 key.interval
  | _, _ => none

def encodeVdfSession (format : Nat) (session : VdfSession) : Option Bytes := do
  let seed ← binaryOf 48 session.seed
  let prevSessionKey ← encodeSessionKey format session.prevSessionKey
  return Bytes.ofNat 8 session.stepNumber ++ seed ++ encodeOptionalInt session.upperBound 1 ++
    encodeOptionalInt session.nextUpperBound 1 ++ Bytes.ofNat 2 session.steps.length ++
    session.steps.flatten ++ prevSessionKey

def nonceLimiterUpdateToBinary : Nat → NonceLimiterUpdate → Option Bytes
  | 1, update => do
    let nextSeed ← binaryOf 48 update.sessionKey.nextSeed
    let session ← encodeVdfSession 1 update.session
    return nextSeed ++ Bytes.ofNat 8 update.sessionKey.interval ++ [if update.isPartial then 1 else 0] ++
      Bytes.ofNat 2 update.checkpoints.length ++ update.checkpoints.flatten ++ session
  | 2, update => do
    let nextSeed ← binaryOf 48 update.sessionKey.nextSeed
    let session ← encodeVdfSession 2 update.session
    return nextSeed ++ encodeInt update.sessionKey.nextVdfDifficulty 1 ++
      Bytes.ofNat 8 update.sessionKey.interval ++ [if update.isPartial then 1 else 0] ++
      Bytes.ofNat 2 update.checkpoints.length ++ update.checkpoints.flatten ++ session
  | _, _ => none

/-- The parts of a session key of the second format. -/
def sessionKeyPattern : Pattern SessionKey := do
  let nextSeed ← fixed 48
  let nextVdfDifficulty ← sized 1
  let interval ← fixed 8
  return ⟨nextSeed.1, interval.1.toNat, nextVdfDifficulty.1.toNat⟩

def decodeSessionKey (bin : Bytes) : Except ParseError (Option SessionKey) :=
  if bin = [] then .ok none
  else
    match sessionKeyPattern.run bin with
    | some (key, []) => .ok (some key)
    | _ => .error .invalid1

/-- The fields of an update before the key of the previous session. -/
structure UpdateFields where
  sessionKey : SessionKey
  isPartial : Fixed 1
  checkpoints : {p : Nat × Bytes // p.1 < 256 ^ 2 ∧ p.2.length = p.1 * 32}
  stepNumber : Fixed 8
  seed : Fixed 48
  upperBound : Sized 1
  nextUpperBound : Sized 1
  steps : {p : Nat × Bytes // p.1 < 256 ^ 2 ∧ p.2.length = p.1 * 32}

def updateFields : Pattern UpdateFields := do
  let sessionKey ← sessionKeyPattern
  let isPartial ← fixed 1
  let checkpoints ← chunked 2 32
  let stepNumber ← fixed 8
  let seed ← fixed 48
  let upperBound ← sized 1
  let nextUpperBound ← sized 1
  let steps ← chunked 2 32
  return { sessionKey, isPartial, checkpoints, stepNumber, seed, upperBound, nextUpperBound, steps }

/-- The guard of the parser. -/
def UpdateFields.Accepted (f : UpdateFields) : Prop :=
  0 < f.upperBound.1.length ∧ 0 < f.steps.1.1 ∧ f.checkpoints.1.1 = vdfCheckpointCountInStep

instance (f : UpdateFields) : Decidable f.Accepted :=
  inferInstanceAs (Decidable (_ ∧ _ ∧ _))

/-- There is no result when the list of steps or the list of checkpoints cannot be split. -/
def binaryToNonceLimiterUpdate (bin : Bytes) : Option (Except ParseError NonceLimiterUpdate) :=
  match updateFields.run bin with
  | some (f, prevSessionKeyBin) =>
    if f.Accepted then do
      let checkpoints ← parse32bList f.checkpoints.1.2
      let steps ← parse32bList f.steps.1.2
      return do
        let prevSessionKey ← decodeSessionKey prevSessionKeyBin
        return {
          sessionKey := f.sessionKey
          checkpoints := checkpoints
          isPartial := f.isPartial.1.toNat != 0
          session := {
            stepNumber := f.stepNumber.1.toNat
            seed := f.seed.1
            upperBound := some f.upperBound.1.toNat
            nextUpperBound := toOptionalInt f.nextUpperBound.1
            steps := steps
            prevSessionKey := prevSessionKey } }
    else some (.error .invalid2)
  | none => some (.error .invalid2)

def nonceLimiterUpdateResponseToBinary (response : NonceLimiterUpdateResponse) : Bytes :=
  [if response.sessionFound then 1 else 0] ++ encodeOptionalInt response.stepNumber 1 ++
    Bytes.ofNat 1 response.postpone ++ Bytes.ofNat 1 response.format

/-- The part of a response that all the versions send. -/
def responsePattern : Pattern (Fixed 1 × Sized 1) := do
  let sessionFound ← fixed 1
  let stepNumber ← sized 1
  return (sessionFound, stepNumber)

def toNonceLimiterUpdateResponse (sessionFoundBin : Nat) (stepNumber : Bytes) (postpone format : Nat) :
    Except ParseError NonceLimiterUpdateResponse :=
  if sessionFoundBin = 0 ∨ sessionFoundBin = 1 then
    .ok { sessionFound := sessionFoundBin = 1, stepNumber := toOptionalInt stepNumber, postpone, format }
  else .error .invalid1

def binaryToNonceLimiterUpdateResponse (bin : Bytes) : Except ParseError NonceLimiterUpdateResponse :=
  match responsePattern.run bin with
  | some ((found, stepNumber), []) => toNonceLimiterUpdateResponse found.1.toNat stepNumber.1 0 1
  | some ((found, stepNumber), [postpone]) =>
    toNonceLimiterUpdateResponse found.1.toNat stepNumber.1 postpone.toNat 1
  | some ((found, stepNumber), [postpone, format]) =>
    toNonceLimiterUpdateResponse found.1.toNat stepNumber.1 postpone.toNat format.toNat
  | _ => .error .invalid2

end Arweave.Serialize
