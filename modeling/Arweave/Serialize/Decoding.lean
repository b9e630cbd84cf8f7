import Arweave.Serialize.Accepted

/-!
# Blocks from the network

The parser of blocks with the heights of the forks as parameters, since a build may reset them
all to zero. What `parse_checkpoints` returns goes into the record as it is, so a parsed block
comes with what these two fields hold.
-/

namespace Arweave.Serialize
open Arweave.Lib Arweave.Lib.Codec Arweave.Tx Arweave.Wallet

/-- The heights of `ar_fork` that the parser reads. -/
structure ForkHeights where
  height_2_6 : Nat
  height_2_7 : Nat

/-- A block with what is in the fields `last_step_checkpoints` and `steps` of its record. -/
structure ParsedBlock where
  block : Block
  lastStepCheckpoints : Except ParseError (List Bytes)
  steps : Except ParseError (List Bytes)

/-- Both fields hold lists of outputs. -/
structure ParsedBlock.WellKinded (p : ParsedBlock) : Prop where
  lastStepCheckpoints : p.lastStepCheckpoints = .ok p.block.nonceLimiterInfo.lastStepCheckpoints
  steps : p.steps = .ok p.block.nonceLimiterInfo.steps
  outputs : ∀ x ∈ p.block.nonceLimiterInfo.lastStepCheckpoints ++ p.block.nonceLimiterInfo.steps, x.length = 32

namespace ForkHeights

/-- The heights of the main network. -/
def main : ForkHeights := ⟨Fork.height_2_6, Fork.height_2_7⟩

/-- The heights of a build with `FORKS_RESET`. -/
def reset : ForkHeights := ⟨0, 0⟩

section Parse

variable (forks : ForkHeights)

def parsePost27Fields (rest : Bytes) (b : Block) : Except ParseError Block :=
  if forks.height_2_7 ≤ b.height then
    match post27Fields.run rest with
    | some (f, []) => .ok (b.withPost27Fields f)
    | _ => .error .invalidMerkleRebaseSupportThreshold
  else if rest = [] then .ok b
  else .error .invalidMerkleRebaseSupportThreshold

def parseDoubleSigningProof (bin : Bytes) (b : Block) : Except ParseError Block :=
  match bin with
  | [] => .error .invalidDoubleSigningProofInput
  | mark :: rest =>
    if mark = 0 then forks.parsePost27Fields rest b
    else if mark = 1 then
      match doubleSigningProofPattern.run rest with
      | some (proof, rest) => forks.parsePost27Fields rest { b with doubleSigningProof := some proof }
      | none => .error .invalidDoubleSigningProofInput
    else .error .invalidDoubleSigningProofInput

/-- The body of `parse_block_post_2_6_fields`, behind its pattern. -/
def finishPost26Fields (b : Block) (f : Post26Fields) (rest : Bytes) : Option (Except ParseError ParsedBlock) := do
  let nonce ← b.nonce.decodeUnsigned
  let lastStepCheckpoints ← parseCheckpoints f.lastStepCheckpoints.1.2 b.height
  let steps ← parseCheckpoints f.steps.1.2 b.height
  let b2 := b.withPost26Fields f nonce (lastStepCheckpoints.toOption.getD []) (steps.toOption.getD [])
  some ((forks.parseDoubleSigningProof rest b2).map fun b3 => ⟨b3, lastStepCheckpoints, steps⟩)

def parseBlockPost26Fields (b : Block) (bin : Bytes) : Option (Except ParseError ParsedBlock) :=
  match post26Fields.run bin with
  | some (f, rest) => forks.finishPost26Fields b f rest
  | none => some (.error .invalidInput4)

/-- `parse_block_transactions/2` -/
def parseBlockTransactionsOf (bin : Bytes) (b : Block) : Option (Except ParseError ParsedBlock) :=
  match parseBlockTransactions bin with
  | .error reason => some (.error reason)
  | .ok (txs, rest) =>
    if b.height < forks.height_2_6 then
      if rest = [] then some (.ok ⟨{ b with txs := txs }, .ok b.nonceLimiterInfo.lastStepCheckpoints,
        .ok b.nonceLimiterInfo.steps⟩)
      else some (.error .invalidInput1)
    else forks.parseBlockPost26Fields { b with txs := txs } rest

def parseBlockTagsTransactions (bin : Bytes) (b : Block) : Option (Except ParseError ParsedBlock) :=
  match parseBlockTags bin with
  | .error reason => some (.error reason)
  | .ok (tags, rest) => forks.parseBlockTransactionsOf rest { b with tags := tags }

def toBlock (f : BlockFields) : Block :=
  { f.toBlock with
    rewardAddr :=
      if f.rewardAddr.1.length = 0 ∧ f.height.1.toNat < forks.height_2_6 then none else some f.rewardAddr.1 }

def binaryToBlock (bin : Bytes) : Option (Except ParseError ParsedBlock) :=
  match blockFields.run bin with
  | some (f, rest) =>
    if f.nonce.1.length ≤ 512 then forks.parseBlockTagsTransactions rest (forks.toBlock f)
    else some (.error .invalidBlockInput)
  | none => some (.error .invalidBlockInput)

end Parse

end ForkHeights

section Checkpoints

lemma exists_pieces {k fuel n : Nat} {b : Bytes} (hk : 0 < k) (hlen : b.length = n * k) (hfuel : b.length ≤ fuel) :
    ∃ l, pieces k fuel b = some l := by
  induction n generalizing b fuel with
  | zero =>
    have hnil : b = [] := List.length_eq_zero_iff.mp (by rw [hlen, Nat.zero_mul])
    rw [hnil]
    exact ⟨[], by cases fuel <;> rfl⟩
  | succ n ih =>
    rw [Nat.succ_mul] at hlen
    obtain ⟨x, c, rfl⟩ := List.exists_cons_of_length_pos (l := b) (by omega)
    obtain ⟨fuel, rfl⟩ : ∃ m, fuel = m + 1 := Nat.exists_eq_succ_of_ne_zero (by rw [List.length_cons] at hfuel; omega)
    have hrun : (fixed k).run (x :: c) = some (⟨(x :: c).take k, List.length_take_of_le (by omega)⟩, (x :: c).drop k) :=
      dif_pos (by omega)
    have hdrop : ((x :: c).drop k).length = n * k := by rw [List.length_drop]; omega
    have hle : ((x :: c).drop k).length ≤ fuel := by rw [List.length_drop]; omega
    obtain ⟨l, hl⟩ := ih hdrop hle
    exact ⟨(x :: c).take k :: l, by rw [pieces, hrun]; simp only; rw [hl]; rfl⟩

variable {p : {p : Nat × Bytes // p.1 < 256 ^ 2 ∧ p.2.length = p.1 * 32}} {height : Nat}

lemma nil_iff_count_eq_zero : p.1.2 = [] ↔ p.1.1 = 0 := by
  have hlen := p.2.2
  rw [← List.length_eq_zero_iff]
  omega

lemma parseCheckpoints_zero : parseCheckpoints p.1.2 0 =
    some (if p.1.1 = 0 then .ok [] else .error .invalidCheckpoints) := by
  rw [parseCheckpoints, if_pos rfl]
  by_cases hcount : p.1.1 = 0
  · rw [if_pos (nil_iff_count_eq_zero.mpr hcount), if_pos hcount]
  · rw [if_neg fun hnil => hcount (nil_iff_count_eq_zero.mp hnil), if_neg hcount]

lemma parseCheckpoints_pos (hheight : 0 < height) :
    (p.1.1 = 0 → parseCheckpoints p.1.2 height = none) ∧
    (p.1.1 ≠ 0 → ∃ l, parseCheckpoints p.1.2 height = some (.ok l) ∧ ∀ x ∈ l, x.length = 32) := by
  rw [parseCheckpoints, if_neg (by omega)]
  constructor
  · intro hcount
    rw [if_pos (nil_iff_count_eq_zero.mpr hcount)]
  · intro hcount
    rw [if_neg fun hnil => hcount (nil_iff_count_eq_zero.mp hnil)]
    obtain ⟨l, hl⟩ := exists_pieces (by decide : 0 < 32) p.2.2 le_rfl
    exact ⟨l, by rw [hl]; rfl, (pieces_fits hl).1⟩

end Checkpoints

namespace ForkHeights

variable {forks : ForkHeights} {b b' c : Block} {g : Post26Fields} {bin rest : Bytes}

lemma parsePost27Fields_lists (h : forks.parsePost27Fields rest b = .ok b') :
    b'.nonceLimiterInfo.lastStepCheckpoints = b.nonceLimiterInfo.lastStepCheckpoints ∧
      b'.nonceLimiterInfo.steps = b.nonceLimiterInfo.steps := by
  rw [parsePost27Fields] at h
  split_ifs at h
  · split at h
    · cases h
      exact ⟨rfl, rfl⟩
    · cases h
  · cases h
    exact ⟨rfl, rfl⟩

lemma parseDoubleSigningProof_lists (h : forks.parseDoubleSigningProof rest b = .ok b') :
    b'.nonceLimiterInfo.lastStepCheckpoints = b.nonceLimiterInfo.lastStepCheckpoints ∧
      b'.nonceLimiterInfo.steps = b.nonceLimiterInfo.steps := by
  cases rest with
  | nil => cases h
  | cons mark rest =>
    rw [parseDoubleSigningProof] at h
    split_ifs at h
    · exact parsePost27Fields_lists h
    · split at h
      · rename_i proof rest _
        exact parsePost27Fields_lists (b := { b with doubleSigningProof := some proof }) h
      · cases h

lemma parsePost27Fields_congr (hheight : b.height = c.height) (h : forks.parsePost27Fields rest b = .ok b') :
    ∃ c', forks.parsePost27Fields rest c = .ok c' := by
  rw [parsePost27Fields] at h ⊢
  rw [← hheight]
  split_ifs at h ⊢
  · split at h
    · exact ⟨_, rfl⟩
    · cases h
  · exact ⟨_, rfl⟩

lemma parseDoubleSigningProof_congr (hheight : b.height = c.height)
    (h : forks.parseDoubleSigningProof rest b = .ok b') : ∃ c', forks.parseDoubleSigningProof rest c = .ok c' := by
  cases rest with
  | nil => cases h
  | cons mark rest =>
    rw [parseDoubleSigningProof] at h ⊢
    split_ifs at h ⊢
    · exact parsePost27Fields_congr hheight h
    · split at h
      · exact parsePost27Fields_congr (by exact hheight) h
      · cases h

/-- The block in front of the fields of the fork 2.6, these fields, and what follows, for a binary
that has them. -/
def post26Input (forks : ForkHeights) (bin : Bytes) : Option (Block × Post26Fields × Bytes) :=
  match blockFields.run bin with
  | some (f, rest) =>
    if f.nonce.1.length ≤ 512 then
      match parseBlockTags rest with
      | .ok (tags, rest) =>
        match parseBlockTransactions rest with
        | .ok (txs, rest) =>
          if f.height.1.toNat < forks.height_2_6 then none
          else (post26Fields.run rest).map fun r => ({ forks.toBlock f with tags, txs }, r)
        | .error _ => none
      | .error _ => none
    else none
  | none => none

/-- Above height zero both lists are not empty. At height zero they are, unless the binary is
refused for what follows. -/
def ListsFit (forks : ForkHeights) (b : Block) (g : Post26Fields) (rest : Bytes) : Prop :=
  if b.height = 0 then
    (g.lastStepCheckpoints.1.1 = 0 ∧ g.steps.1.1 = 0) ∨ ∀ b', forks.parseDoubleSigningProof rest b ≠ .ok b'
  else g.lastStepCheckpoints.1.1 ≠ 0 ∧ g.steps.1.1 ≠ 0

/-- The parser has a result, and a block that it accepts has lists where lists belong. -/
def Decoded (r : Option (Except ParseError ParsedBlock)) : Prop :=
  ∃ result, r = some result ∧ ∀ p, result = .ok p → p.WellKinded

lemma decoded_error (reason : ParseError) : Decoded (some (.error reason)) := ⟨_, rfl, by rintro p ⟨⟩⟩

lemma binaryToBlock_eq (forks : ForkHeights) (bin : Bytes) :
    match forks.post26Input bin with
    | some (b, g, rest) => (∃ nonce, b.nonce = .binary nonce) ∧
      forks.binaryToBlock bin = forks.finishPost26Fields b g rest
    | none => Decoded (forks.binaryToBlock bin) := by
  rw [post26Input, binaryToBlock]
  cases blockFields.run bin with
  | none => exact decoded_error _
  | some r =>
    obtain ⟨f, rest⟩ := r
    simp only
    by_cases hnonce : f.nonce.1.length ≤ 512
    · rw [if_pos hnonce, if_pos hnonce, parseBlockTagsTransactions]
      cases parseBlockTags rest with
      | error reason => exact decoded_error reason
      | ok tags =>
        simp only
        rw [parseBlockTransactionsOf]
        cases parseBlockTransactions tags.2 with
        | error reason => exact decoded_error reason
        | ok txs =>
          simp only
          by_cases h26 : f.height.1.toNat < forks.height_2_6
          · rw [if_pos h26, if_pos (by exact h26)]
            split_ifs
            · exact ⟨_, rfl, by rintro p ⟨⟩; exact ⟨rfl, rfl, by rintro x ⟨⟩⟩⟩
            · exact decoded_error _
          · rw [if_neg h26, if_neg (by exact h26), parseBlockPost26Fields]
            cases post26Fields.run txs.2 with
            | none => exact decoded_error _
            | some r => exact ⟨⟨_, rfl⟩, rfl⟩
    · rw [if_neg hnonce, if_neg hnonce]
      exact decoded_error _

lemma finishPost26Fields_zero {nonce : Bytes} (hnonce : b.nonce = .binary nonce) (hheight : b.height = 0) :
    ∃ b2 : Block, b2.height = b.height ∧
      b2.nonceLimiterInfo.lastStepCheckpoints = [] ∧ b2.nonceLimiterInfo.steps = [] ∧
      forks.finishPost26Fields b g rest = some ((forks.parseDoubleSigningProof rest b2).map fun b3 =>
        ⟨b3, if g.lastStepCheckpoints.1.1 = 0 then .ok [] else .error .invalidCheckpoints,
          if g.steps.1.1 = 0 then .ok [] else .error .invalidCheckpoints⟩) := by
  have hempty : ∀ n : Nat,
      ((if n = 0 then .ok [] else .error .invalidCheckpoints : Except ParseError (List Bytes)).toOption.getD []) = [] := by
    intro n
    split_ifs <;> rfl
  refine ⟨b.withPost26Fields g nonce.toNat [] [], rfl, rfl, rfl, ?_⟩
  rw [finishPost26Fields, hnonce, hheight, parseCheckpoints_zero, parseCheckpoints_zero]
  simp only [Nonce.decodeUnsigned, Option.bind_eq_bind, Option.bind_some, hempty]

lemma decoded_finishPost26Fields {nonce : Bytes} (hnonce : b.nonce = .binary nonce) :
    Decoded (forks.finishPost26Fields b g rest) ↔ forks.ListsFit b g rest := by
  rw [ListsFit]
  split_ifs with hheight
  · obtain ⟨b2, hb2, hlast, hsteps, hfinish⟩ := @finishPost26Fields_zero forks b g rest nonce hnonce hheight
    rw [hfinish]
    constructor
    · rintro ⟨result, hresult, hkinds⟩
      cases hresult
      by_contra hnot
      rw [not_or] at hnot
      obtain ⟨hcounts, haccepted⟩ := hnot
      simp only [not_forall, not_not] at haccepted
      obtain ⟨b', hb'⟩ := haccepted
      obtain ⟨b3, hb3⟩ := parseDoubleSigningProof_congr hb2.symm hb'
      have hkind := hkinds _ (by rw [hb3]; rfl)
      apply hcounts
      constructor
      · by_contra hcount
        have := hkind.lastStepCheckpoints
        rw [if_neg hcount] at this
        cases this
      · by_contra hcount
        have := hkind.steps
        rw [if_neg hcount] at this
        cases this
    · intro hcond
      refine ⟨_, rfl, ?_⟩
      intro p hp
      cases hb3 : forks.parseDoubleSigningProof rest b2 with
      | error reason =>
        rw [hb3] at hp
        cases hp
      | ok b3 =>
        rw [hb3] at hp
        cases hp
        rcases hcond with ⟨hcount, hcount'⟩ | hrefused
        · obtain ⟨hlast', hsteps'⟩ := parseDoubleSigningProof_lists hb3
          rw [hlast] at hlast'
          rw [hsteps] at hsteps'
          exact ⟨by rw [if_pos hcount, hlast'], by rw [if_pos hcount', hsteps'], by rw [hlast', hsteps']; rintro x ⟨⟩⟩
        · obtain ⟨b', hb'⟩ := parseDoubleSigningProof_congr hb2 hb3
          exact absurd hb' (hrefused b')
  · have hlast := parseCheckpoints_pos (p := g.lastStepCheckpoints) (Nat.pos_of_ne_zero hheight)
    have hsteps := parseCheckpoints_pos (p := g.steps) (Nat.pos_of_ne_zero hheight)
    rw [finishPost26Fields, hnonce]
    simp only [Nonce.decodeUnsigned, Option.bind_eq_bind, Option.bind_some]
    constructor
    · rintro ⟨result, hresult, -⟩
      constructor
      · intro hcount
        rw [hlast.1 hcount] at hresult
        cases hresult
      · intro hcount
        simp [hsteps.1 hcount] at hresult
    · rintro ⟨hcount, hcount'⟩
      obtain ⟨l, hl, houtputs⟩ := hlast.2 hcount
      obtain ⟨l', hl', houtputs'⟩ := hsteps.2 hcount'
      rw [hl, Option.bind_some, hl', Option.bind_some]
      refine ⟨_, rfl, ?_⟩
      intro p hp
      cases hb3 : forks.parseDoubleSigningProof rest (b.withPost26Fields g nonce.toNat l l') with
      | error reason =>
        simp only [Except.toOption, Option.getD_some] at hp
        rw [hb3] at hp
        cases hp
      | ok b3 =>
        simp only [Except.toOption, Option.getD_some] at hp
        rw [hb3] at hp
        cases hp
        obtain ⟨hlists, hlists'⟩ := parseDoubleSigningProof_lists hb3
        have hlists : b3.nonceLimiterInfo.lastStepCheckpoints = l := hlists
        have hlists' : b3.nonceLimiterInfo.steps = l' := hlists'
        refine ⟨by rw [hlists], by rw [hlists'], ?_⟩
        rw [hlists, hlists']
        intro x hx
        rcases List.mem_append.mp hx with hx | hx
        · exact houtputs x hx
        · exact houtputs' x hx

/-- The parser has a result without an error in the record exactly when the lists of the binary
fit its height. -/
theorem binaryToBlock_decoded_iff (forks : ForkHeights) (bin : Bytes) :
    Decoded (forks.binaryToBlock bin) ↔
      ∀ b g rest, forks.post26Input bin = some (b, g, rest) → forks.ListsFit b g rest := by
  have h := binaryToBlock_eq forks bin
  cases hinput : forks.post26Input bin with
  | none =>
    rw [hinput] at h
    exact ⟨by rintro - b g rest ⟨⟩, fun _ => h⟩
  | some r =>
    obtain ⟨b, g, rest⟩ := r
    rw [hinput] at h
    obtain ⟨⟨nonce, hnonce⟩, heq⟩ := h
    rw [heq, decoded_finishPost26Fields hnonce]
    constructor
    · rintro hfit b' g' rest' ⟨⟩
      exact hfit
    · intro hfit
      exact hfit b g rest rfl

lemma parseBlockPost26Fields_main {nonce : Bytes} (hnonce : b.nonce = .binary nonce) (hpos : 0 < b.height) :
    Serialize.parseBlockPost26Fields b bin =
      (main.parseBlockPost26Fields b bin).map fun r => r.map ParsedBlock.block := by
  rw [parseBlockPost26Fields, Serialize.parseBlockPost26Fields]
  cases post26Fields.run bin with
  | none => rfl
  | some r =>
    obtain ⟨g, rest⟩ := r
    have hlast := parseCheckpoints_pos (p := g.lastStepCheckpoints) hpos
    have hsteps := parseCheckpoints_pos (p := g.steps) hpos
    simp only [finishPost26Fields, hnonce, Nonce.decodeUnsigned, Option.bind_eq_bind, Option.bind_some]
    by_cases hcount : g.lastStepCheckpoints.1.1 = 0
    · rw [hlast.1 hcount]
      rfl
    · obtain ⟨l, hl, -⟩ := hlast.2 hcount
      rw [hl]
      by_cases hcount' : g.steps.1.1 = 0
      · rw [hsteps.1 hcount']
        rfl
      · obtain ⟨l', hl', -⟩ := hsteps.2 hcount'
        rw [hl']
        change some (Serialize.parseDoubleSigningProof rest (b.withPost26Fields g nonce.toNat l l')) =
          some (((Serialize.parseDoubleSigningProof rest (b.withPost26Fields g nonce.toNat l l')).map _).map _)
        cases Serialize.parseDoubleSigningProof rest (b.withPost26Fields g nonce.toNat l l') with
        | error reason => rfl
        | ok b3 => rfl

/-- On the main network the parser is the one that leaves the two fields in the block. -/
theorem binaryToBlock_main (bin : Bytes) :
    Serialize.binaryToBlock bin = (main.binaryToBlock bin).map fun r => r.map ParsedBlock.block := by
  rw [binaryToBlock, Serialize.binaryToBlock]
  cases blockFields.run bin with
  | none => rfl
  | some r =>
    obtain ⟨f, rest⟩ := r
    have hblock : main.toBlock f = f.toBlock := rfl
    simp only [hblock]
    split_ifs
    · rw [parseBlockTagsTransactions, Serialize.parseBlockTagsTransactions]
      cases parseBlockTags rest with
      | error reason => rfl
      | ok tags =>
        simp only
        rw [parseBlockTransactionsOf, Serialize.parseBlockTransactionsOf]
        cases parseBlockTransactions tags.2 with
        | error reason => rfl
        | ok txs =>
          simp only [show main.height_2_6 = Fork.height_2_6 from rfl]
          split_ifs with h26 hrest
          · rfl
          · rfl
          · apply parseBlockPost26Fields_main (show _ = Nonce.binary f.nonce.1 from rfl)
            exact Nat.lt_of_lt_of_le (by decide : 0 < Fork.height_2_6) (Nat.not_lt.mp h26)
    · rfl

/-- A block at the height of the fork 2.6 with zeros for everything else, so without checkpoints
and steps. -/
def emptyListsBinary : Bytes := List.replicate 52 0 ++ [3, 0x11, 0x46, 0xB2] ++ List.replicate 338 0

/-- A block at height zero with one checkpoint. -/
def genesisCheckpointBinary : Bytes := List.replicate 330 0 ++ [0, 1] ++ List.replicate 160 0

/-- The parser has no clause for the empty lists. At height zero, which is of the last era where
the forks are reset, it puts the error into the record. -/
theorem binaryToBlock_not_decoded : ¬Decoded (main.binaryToBlock emptyListsBinary) ∧
    main.binaryToBlock emptyListsBinary = none ∧
    ¬Decoded (reset.binaryToBlock genesisCheckpointBinary) ∧
    ∃ p, reset.binaryToBlock genesisCheckpointBinary = some (.ok p) ∧
      p.lastStepCheckpoints.toOption = none := by
  have hnone : (main.binaryToBlock emptyListsBinary).isNone := by decide +kernel
  have herror : (reset.binaryToBlock genesisCheckpointBinary).map
      (fun r => r.toOption.map fun p => p.lastStepCheckpoints.toOption) = some (some none) := by decide +kernel
  rw [Option.isNone_iff_eq_none] at hnone
  obtain ⟨r, hr, hp⟩ := Option.map_eq_some_iff.mp herror
  obtain ⟨p, rfl, hlist⟩ : ∃ p, r = .ok p ∧ p.lastStepCheckpoints.toOption = none := by
    cases r with
    | error reason => cases hp
    | ok p => exact ⟨p, rfl, Option.some.inj hp⟩
  refine ⟨?_, hnone, ?_, p, hr, hlist⟩
  · rintro ⟨r, hr, -⟩
    rw [hnone] at hr
    cases hr
  · rintro ⟨r, hr', hkinds⟩
    rw [hr] at hr'
    cases hr'
    rw [(hkinds p rfl).lastStepCheckpoints] at hlist
    cases hlist

end ForkHeights

end Arweave.Serialize
