import Arweave.Serialize.Vdf

/-!
# Updates of the nonce limiter are read back

The parser takes updates of the second format that have an upper bound, a step, and all the
checkpoints of one step. Everything else that fits the fields is refused. A response is read
back in each of its three lengths.
-/

namespace Arweave.Serialize
open Arweave.Lib Arweave.Lib.Codec Arweave.Wallet

/-- What the number contributes behind its size field. -/
def optionalBytes (n : Option Nat) : Bytes := (n.map encodeUnsigned).getD []

lemma length_encodeUnsigned_pos (n : Nat) : 0 < (encodeUnsigned n).length := by
  rw [encodeUnsigned]
  split_ifs with h
  · exact Nat.one_pos
  · rw [List.length_reverse, List.length_map]
    exact List.length_pos_iff.mpr (Nat.digits_ne_nil_iff_ne_zero.mpr h)

lemma toOptionalInt_optionalBytes (n : Option Nat) : toOptionalInt (optionalBytes n) = n := by
  cases n with
  | none => rfl
  | some n =>
    have hne := length_encodeUnsigned_pos n
    change (if (encodeUnsigned n).length = 0 then none else some (encodeUnsigned n).toNat) = some n
    rw [if_neg (by omega), toNat_encodeUnsigned]

lemma length_optionalBytes_pos {n : Option Nat} : 0 < (optionalBytes n).length ↔ n ≠ none := by
  cases n with
  | none => simp [optionalBytes]
  | some n => simpa [optionalBytes] using length_encodeUnsigned_pos n

/-- The encoding of the number fits its size field of `w` bytes. -/
def OptionFits (w : Nat) (n : Option Nat) : Prop := (optionalBytes n).length < 256 ^ w

instance (w : Nat) (n : Option Nat) : Decidable (OptionFits w n) :=
  inferInstanceAs (Decidable (_ < _))

lemma reads_encodeOptionalInt {w : Nat} {n : Option Nat} (h : OptionFits w n) :
    Reads (sized w) (encodeOptionalInt n w) ⟨optionalBytes n, h⟩ := by
  cases n with
  | none =>
    have henc : encodeOptionalInt none w = encodeBin (optionalBytes none) w := (List.append_nil _).symm
    rw [henc]
    exact reads_encodeBin h
  | some n => exact reads_encodeInt h

section Update

structure SessionKey.Fits (key : SessionKey) : Prop where
  nextSeed : key.nextSeed.length = 48
  interval : key.interval < 256 ^ 8
  nextVdfDifficulty : (encodeUnsigned key.nextVdfDifficulty).length < 256 ^ 1

/-- A list of outputs of the nonce limiter with a count of two bytes. -/
def OutputsFit (l : List Bytes) : Prop := l.length < 256 ^ 2 ∧ ∀ b ∈ l, b.length = 32

instance (l : List Bytes) : Decidable (OutputsFit l) := inferInstanceAs (Decidable (_ ∧ _))

structure NonceLimiterUpdate.Fits (update : NonceLimiterUpdate) : Prop where
  sessionKey : update.sessionKey.Fits
  prevSessionKey : ∀ key ∈ update.session.prevSessionKey, key.Fits
  seed : update.session.seed.length = 48
  stepNumber : update.session.stepNumber < 256 ^ 8
  upperBound : OptionFits 1 update.session.upperBound
  nextUpperBound : OptionFits 1 update.session.nextUpperBound
  steps : OutputsFit update.session.steps
  checkpoints : OutputsFit update.checkpoints

/-- The updates that are applied: there is an upper bound, at least one step, and the
checkpoints are the ones of one step. -/
def NonceLimiterUpdate.Complete (update : NonceLimiterUpdate) : Prop :=
  update.session.upperBound ≠ none ∧ update.session.steps ≠ [] ∧
    update.checkpoints.length = vdfCheckpointCountInStep

instance (update : NonceLimiterUpdate) : Decidable update.Complete := inferInstanceAs (Decidable (_ ∧ _ ∧ _))

lemma parse32bList_flatten {l : List Bytes} (h : OutputsFit l) : parse32bList l.flatten = some l :=
  pieces_flatten (by decide) h.2 le_rfl

/-- The binary of a session key of the second format. -/
def sessionKeyBinary (key : SessionKey) : Bytes :=
  key.nextSeed ++ (encodeInt key.nextVdfDifficulty 1 ++ Bytes.ofNat 8 key.interval)

lemma reads_sessionKey {key : SessionKey} (h : key.Fits) : Reads sessionKeyPattern (sessionKeyBinary key) key := by
  have hread : Reads sessionKeyPattern (sessionKeyBinary key) ⟨key.nextSeed,
      (Bytes.ofNat 8 key.interval).toNat, (encodeUnsigned key.nextVdfDifficulty).toNat⟩ :=
    (reads_fixed ⟨key.nextSeed, h.nextSeed⟩).bind <| (reads_encodeInt h.nextVdfDifficulty).bind reads_ofNat.bind_pure
  rwa [Bytes.toNat_ofNat_of_lt h.interval, toNat_encodeUnsigned] at hread

lemma decodeSessionKey_encodeSessionKey {key : Option SessionKey} (h : ∀ k ∈ key, k.Fits) :
    ∃ bin, encodeSessionKey 2 key = some bin ∧ decodeSessionKey bin = .ok key := by
  cases key with
  | none => exact ⟨[], rfl, rfl⟩
  | some key =>
    have hkey := h key rfl
    have hread := reads_sessionKey hkey []
    have hne : sessionKeyBinary key ≠ [] := by
      refine List.append_ne_nil_of_left_ne_nil (List.ne_nil_of_length_pos ?_) _
      rw [hkey.nextSeed]
      decide
    refine ⟨sessionKeyBinary key, ?_, ?_⟩
    · simp [encodeSessionKey, binaryOf_eq hkey.nextSeed, sessionKeyBinary]
    · rw [List.append_nil] at hread
      rw [decodeSessionKey, if_neg hne, hread]

/-- What the format of the update writes before the key of the previous session. -/
def updateBinary (update : NonceLimiterUpdate) : Bytes :=
  sessionKeyBinary update.sessionKey ++ ([if update.isPartial then 1 else 0] ++
    ((Bytes.ofNat 2 update.checkpoints.length ++ update.checkpoints.flatten) ++
    (Bytes.ofNat 8 update.session.stepNumber ++ (update.session.seed ++
    (encodeOptionalInt update.session.upperBound 1 ++ (encodeOptionalInt update.session.nextUpperBound 1 ++
    (Bytes.ofNat 2 update.session.steps.length ++ update.session.steps.flatten)))))))

variable {update : NonceLimiterUpdate}

/-- The fields as the pattern returns them. -/
def NonceLimiterUpdate.Fits.fields (h : update.Fits) : UpdateFields where
  sessionKey := update.sessionKey
  isPartial := ⟨[if update.isPartial then 1 else 0], rfl⟩
  checkpoints := ⟨(update.checkpoints.length, update.checkpoints.flatten), h.checkpoints.1,
    length_flatten_of_forall h.checkpoints.2⟩
  stepNumber := ⟨Bytes.ofNat 8 update.session.stepNumber, Bytes.length_ofNat _ _⟩
  seed := ⟨update.session.seed, h.seed⟩
  upperBound := ⟨optionalBytes update.session.upperBound, h.upperBound⟩
  nextUpperBound := ⟨optionalBytes update.session.nextUpperBound, h.nextUpperBound⟩
  steps := ⟨(update.session.steps.length, update.session.steps.flatten), h.steps.1,
    length_flatten_of_forall h.steps.2⟩

lemma reads_updateBinary (h : update.Fits) : Reads updateFields (updateBinary update) h.fields :=
  (reads_sessionKey h.sessionKey).bind <| (reads_fixed ⟨[if update.isPartial then 1 else 0], rfl⟩).bind <|
  (reads_chunked h.checkpoints.1 h.checkpoints.2).bind <| reads_ofNat.bind <|
  (reads_fixed ⟨update.session.seed, h.seed⟩).bind <| (reads_encodeOptionalInt h.upperBound).bind <|
  (reads_encodeOptionalInt h.nextUpperBound).bind <| (reads_chunked h.steps.1 h.steps.2).bind_pure

lemma accepted_fields (h : update.Fits) : h.fields.Accepted ↔ update.Complete := by
  refine and_congr length_optionalBytes_pos (and_congr ?_ Iff.rfl)
  exact List.length_pos_iff

lemma nonceLimiterUpdateToBinary_eq (h : update.Fits) {prevSessionKey : Bytes}
    (hprev : encodeSessionKey 2 update.session.prevSessionKey = some prevSessionKey) :
    nonceLimiterUpdateToBinary 2 update = some (updateBinary update ++ prevSessionKey) := by
  simp [nonceLimiterUpdateToBinary, encodeVdfSession, binaryOf_eq h.sessionKey.nextSeed, binaryOf_eq h.seed,
    hprev, updateBinary, sessionKeyBinary]

/-- The second format is read back exactly when the update is complete. -/
theorem binaryToNonceLimiterUpdate_nonceLimiterUpdateToBinary (h : update.Fits) :
    ∃ bin, nonceLimiterUpdateToBinary 2 update = some bin ∧ binaryToNonceLimiterUpdate bin =
      some (if update.Complete then .ok update else .error .invalid2) := by
  obtain ⟨prevBin, henc, hdec⟩ := decodeSessionKey_encodeSessionKey h.prevSessionKey
  refine ⟨_, nonceLimiterUpdateToBinary_eq h henc, ?_⟩
  rw [binaryToNonceLimiterUpdate, reads_updateBinary h]
  simp only [accepted_fields h]
  split_ifs with hcomplete
  · have hpart : (Bytes.toNat [if update.isPartial then 1 else 0] != 0) = update.isPartial := by
      cases update.isPartial <;> rfl
    have hupper : some (optionalBytes update.session.upperBound).toNat = update.session.upperBound := by
      obtain ⟨n, hn⟩ := Option.ne_none_iff_exists'.mp hcomplete.1
      rw [hn]
      exact congrArg some (toNat_encodeUnsigned n)
    simp only [NonceLimiterUpdate.Fits.fields, parse32bList_flatten h.checkpoints, parse32bList_flatten h.steps,
      hdec, hpart, hupper, toOptionalInt_optionalBytes, Bytes.toNat_ofNat_of_lt h.stepNumber, Option.pure_def,
      Option.bind_eq_bind, Option.bind_some]
    rfl
  · rfl

end Update

section Response

structure NonceLimiterUpdateResponse.Fits (response : NonceLimiterUpdateResponse) : Prop where
  stepNumber : OptionFits 1 response.stepNumber
  postpone : response.postpone < 256
  format : response.format < 256

/-- The part of a response that all the versions send. -/
def responseBinary (sessionFound : Bool) (stepNumber : Option Nat) : Bytes :=
  [if sessionFound then 1 else 0] ++ encodeOptionalInt stepNumber 1

variable {sessionFound : Bool} {stepNumber : Option Nat}

lemma reads_responseBinary (h : OptionFits 1 stepNumber) :
    Reads responsePattern (responseBinary sessionFound stepNumber)
      (⟨[if sessionFound then 1 else 0], rfl⟩, ⟨optionalBytes stepNumber, h⟩) :=
  (reads_fixed ⟨[if sessionFound then 1 else 0], rfl⟩).bind (reads_encodeOptionalInt h).bind_pure

lemma toNonceLimiterUpdateResponse_eq (sessionFound : Bool) (stepNumber : Option Nat) (postpone format : Nat) :
    toNonceLimiterUpdateResponse (Bytes.toNat [if sessionFound then 1 else 0]) (optionalBytes stepNumber)
      postpone format = .ok ⟨sessionFound, stepNumber, postpone, format⟩ := by
  rw [toNonceLimiterUpdateResponse, toOptionalInt_optionalBytes]
  cases sessionFound <;> rfl

lemma binaryToNonceLimiterUpdateResponse_eq (h : OptionFits 1 stepNumber) (postpone format : UInt8) :
    binaryToNonceLimiterUpdateResponse (responseBinary sessionFound stepNumber) =
        .ok ⟨sessionFound, stepNumber, 0, 1⟩ ∧
      binaryToNonceLimiterUpdateResponse (responseBinary sessionFound stepNumber ++ [postpone]) =
        .ok ⟨sessionFound, stepNumber, postpone.toNat, 1⟩ ∧
      binaryToNonceLimiterUpdateResponse (responseBinary sessionFound stepNumber ++ [postpone, format]) =
        .ok ⟨sessionFound, stepNumber, postpone.toNat, format.toNat⟩ := by
  have hread : Reads responsePattern (responseBinary sessionFound stepNumber) _ := reads_responseBinary h
  refine ⟨?_, ?_, ?_⟩
  · have hnil := hread []
    rw [List.append_nil] at hnil
    rw [binaryToNonceLimiterUpdateResponse, hnil]
    exact toNonceLimiterUpdateResponse_eq _ _ _ _
  · rw [binaryToNonceLimiterUpdateResponse, hread]
    exact toNonceLimiterUpdateResponse_eq _ _ _ _
  · rw [binaryToNonceLimiterUpdateResponse, hread]
    exact toNonceLimiterUpdateResponse_eq _ _ _ _

lemma binaryToNonceLimiterUpdateResponse_nonceLimiterUpdateResponseToBinary
    {response : NonceLimiterUpdateResponse} (h : response.Fits) :
    binaryToNonceLimiterUpdateResponse (nonceLimiterUpdateResponseToBinary response) = .ok response := by
  have hbin : nonceLimiterUpdateResponseToBinary response =
      responseBinary response.sessionFound response.stepNumber ++
        [UInt8.ofNat response.postpone, UInt8.ofNat response.format] := by
    simp [nonceLimiterUpdateResponseToBinary, responseBinary, Bytes.ofNat]
  have hp : (UInt8.ofNat response.postpone).toNat = response.postpone := by
    simpa using Nat.mod_eq_of_lt h.postpone
  have hf : (UInt8.ofNat response.format).toNat = response.format := by
    simpa using Nat.mod_eq_of_lt h.format
  rw [hbin, (binaryToNonceLimiterUpdateResponse_eq h.stepNumber _ _).2.2, hp, hf]

end Response

/-- What fits the fields is read back: updates of the second format when they are complete, all
responses, and the shorter responses of the older versions. No response is taken for one with
other optional parts. -/
theorem vdf_round_trip :
    (∀ update : NonceLimiterUpdate, update.Fits →
      ∃ bin, nonceLimiterUpdateToBinary 2 update = some bin ∧ binaryToNonceLimiterUpdate bin =
        some (if update.Complete then .ok update else .error .invalid2)) ∧
    (∀ response : NonceLimiterUpdateResponse, response.Fits →
      binaryToNonceLimiterUpdateResponse (nonceLimiterUpdateResponseToBinary response) = .ok response) ∧
    (∀ (sessionFound : Bool) (stepNumber : Option Nat) (postpone format : UInt8), OptionFits 1 stepNumber →
      binaryToNonceLimiterUpdateResponse (responseBinary sessionFound stepNumber) =
        .ok ⟨sessionFound, stepNumber, 0, 1⟩ ∧
      binaryToNonceLimiterUpdateResponse (responseBinary sessionFound stepNumber ++ [postpone]) =
        .ok ⟨sessionFound, stepNumber, postpone.toNat, 1⟩ ∧
      binaryToNonceLimiterUpdateResponse (responseBinary sessionFound stepNumber ++ [postpone, format]) =
        .ok ⟨sessionFound, stepNumber, postpone.toNat, format.toNat⟩) ∧
    ∀ (sessionFound sessionFound' : Bool) (stepNumber stepNumber' : Option Nat) (optional optional' : Bytes),
      OptionFits 1 stepNumber → OptionFits 1 stepNumber' →
      responseBinary sessionFound stepNumber ++ optional = responseBinary sessionFound' stepNumber' ++ optional' →
      sessionFound = sessionFound' ∧ stepNumber = stepNumber' ∧ optional = optional' := by
  refine ⟨fun _ h => binaryToNonceLimiterUpdate_nonceLimiterUpdateToBinary h,
    fun _ h => binaryToNonceLimiterUpdateResponse_nonceLimiterUpdateResponseToBinary h,
    fun _ _ postpone format h => binaryToNonceLimiterUpdateResponse_eq h postpone format, ?_⟩
  intro found found' stepNumber stepNumber' optional optional' h h' heq
  obtain ⟨hval, hopt⟩ := (reads_responseBinary h).eq_of_append_eq (reads_responseBinary h') heq
  have hfound : (if found then 1 else 0 : UInt8) = if found' then 1 else 0 :=
    List.singleton_injective (congrArg (fun v => v.1.1) hval)
  have hstep : optionalBytes stepNumber = optionalBytes stepNumber' := congrArg (fun v => v.2.1) hval
  refine ⟨?_, ?_, hopt⟩
  · revert hfound
    cases found <;> cases found' <;> decide
  · rw [← toOptionalInt_optionalBytes stepNumber, hstep, toOptionalInt_optionalBytes]

def sampleSessionKey : SessionKey := ⟨List.replicate 48 1, 7, 600000⟩

/-- An update with the checkpoints of one step. -/
def sampleUpdate : NonceLimiterUpdate where
  sessionKey := sampleSessionKey
  checkpoints := List.replicate 25 (List.replicate 32 2)
  isPartial := true
  session := {
    stepNumber := 1000
    seed := List.replicate 48 3
    steps := [List.replicate 32 4, List.replicate 32 5]
    prevSessionKey := some ⟨List.replicate 48 6, 6, 600000⟩
    upperBound := some 30000
    nextUpperBound := none }

lemma fits_sampleUpdate : sampleUpdate.Fits where
  sessionKey := ⟨rfl, by decide, by decide⟩
  prevSessionKey := by
    rintro key ⟨⟩
    exact ⟨rfl, by decide, by decide⟩
  seed := rfl
  stepNumber := by decide
  upperBound := by decide
  nextUpperBound := by decide
  steps := by decide
  checkpoints := by decide

theorem vdf_round_trip_sample :
    (∃ bin, nonceLimiterUpdateToBinary 2 sampleUpdate = some bin ∧
      binaryToNonceLimiterUpdate bin = some (.ok sampleUpdate)) ∧
    binaryToNonceLimiterUpdateResponse (nonceLimiterUpdateResponseToBinary ⟨false, some 511, 120, 2⟩) =
      .ok ⟨false, some 511, 120, 2⟩ := by
  obtain ⟨hupdate, hresponse, -, -⟩ := vdf_round_trip
  obtain ⟨bin, henc, hdec⟩ := hupdate sampleUpdate fits_sampleUpdate
  exact ⟨⟨bin, henc, by rw [hdec, if_pos (by decide)]⟩,
    hresponse ⟨false, some 511, 120, 2⟩ ⟨by decide, by decide, by decide⟩⟩

/-- Without an upper bound and in the first format the update is not read back. -/
theorem not_round_trip_sampleUpdate :
    ((nonceLimiterUpdateToBinary 2 { sampleUpdate with session.upperBound := none }).bind
      binaryToNonceLimiterUpdate = some (.error .invalid2)) ∧
    (nonceLimiterUpdateToBinary 1 sampleUpdate).bind binaryToNonceLimiterUpdate = some (.error .invalid2) := by
  decide +kernel

end Arweave.Serialize
