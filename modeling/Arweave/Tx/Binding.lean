import Arweave.Tx.Decimal

/-!
# What deep hash signatures bind

The string that is signed as a deep hash determines every field of a transaction of version
two. The one of version one with a denomination leaves the data and their size out.
-/

namespace Arweave.Tx
open Arweave.Lib Arweave.Lib.Sha2 Arweave.DeepHash

/-- The string that is signed. -/
def signatureDataSegment (H : Digest 48) (tx : TX) : Bytes :=
  if tx.format = 2 then signatureDataSegmentV2 H tx else signatureDataSegmentV1 H tx

def segmentItems (tx : TX) : List Item := if tx.format = 2 then segmentItemsV2 tx else segmentItemsV1 tx

/-- The strings that are hashed for the signature of a transaction. -/
def segmentStrings (H : Digest 48) (tx : TX) : List Bytes := strings H (.list (segmentItems tx))

/-- The transactions that are signed by a deep hash. The number of tags fits in a word. -/
structure DeepHashSigned (tx : TX) : Prop where
  format : tx.format = 2 ∨ tx.format = 1 ∧ 0 < tx.denomination
  tags : tx.tags.length < 2 ^ 64

/-- The same signed fields. The data are given by their root in version two. -/
structure SameSignedFields (tx tx' : TX) : Prop where
  format : tx.format = tx'.format
  owner : tx.owner = tx'.owner
  target : tx.target = tx'.target
  quantity : tx.quantity = tx'.quantity
  reward : tx.reward = tx'.reward
  lastTx : tx.lastTx = tx'.lastTx
  tags : tx.tags = tx'.tags
  denomination : tx.denomination = tx'.denomination
  dataSize : tx.dataSize = tx'.dataSize
  commitment : if tx.format = 2 then tx.dataRoot = tx'.dataRoot else tx.data = tx'.data

section Segments

variable {H : Digest 48} {s : List Bytes} {tx tx' : TX}

lemma signatureDataSegment_eq_hash (h : DeepHashSigned tx) :
    signatureDataSegment H tx = hashBinOrList H (.list (segmentItems tx)) := by
  unfold signatureDataSegment segmentItems
  rcases h.format with h2 | ⟨h1, hden⟩
  · rw [if_pos h2, if_pos h2]
    rfl
  · rw [if_neg (by omega), if_neg (by omega), signatureDataSegmentV1, if_pos hden]
    rfl

lemma mem_strings_list {items : List Item} {item : Item} (hitem : item ∈ items) {x : Bytes}
    (hx : x ∈ strings H item) : x ∈ strings H (.list items) := by
  rw [strings]
  exact List.mem_cons_of_mem _ (mem_listStrings_of_mem hitem hx)

lemma tagsToList_injective (hs : H.CollisionFree s) {tags tags' : List (Bytes × Bytes)}
    (hlen : tags.length < 2 ^ 64) (hlen' : tags'.length < 2 ^ 64)
    (hstr : ∀ x ∈ strings H (.list (tagsToList tags)), x ∈ s)
    (hstr' : ∀ x ∈ strings H (.list (tagsToList tags')), x ∈ s)
    (h : hashBinOrList H (.list (tagsToList tags)) = hashBinOrList H (.list (tagsToList tags'))) :
    tags = tags' := by
  have hhashes := hash_list_injective hs (by simpa [tagsToList] using hlen)
    (by simpa [tagsToList] using hlen') hstr hstr' h
  unfold tagsToList at hhashes hstr hstr'
  rw [List.map_map, List.map_map] at hhashes
  apply eq_of_map_eq_map _ hhashes
  rintro ⟨name, value⟩ hmem ⟨name', value'⟩ hmem' hpair
  have htag {l : List (Bytes × Bytes)} (hl : ∀ x ∈ strings H (.list (tagsToList l)), x ∈ s) {name value : Bytes} (hmem : (name, value) ∈ l) :
      ∀ x ∈ strings H (.list [.blob name, .blob value]), x ∈ s :=
    fun x hx => hl x (mem_strings_list (List.mem_map.mpr ⟨_, hmem, rfl⟩) hx)
  have hblobs := hash_list_injective hs (by simp) (by simp) (htag hstr hmem) (htag hstr' hmem') hpair
  simp only [List.map_cons, List.map_nil, List.cons.injEq, and_true] at hblobs
  have hname := blob_injective hs
    (fun x hx => htag hstr hmem x (mem_strings_list List.mem_cons_self hx))
    (fun x hx => htag hstr' hmem' x (mem_strings_list List.mem_cons_self hx)) hblobs.1
  have hvalue := blob_injective hs
    (fun x hx => htag hstr hmem x (mem_strings_list (by simp) hx))
    (fun x hx => htag hstr' hmem' x (mem_strings_list (by simp) hx)) hblobs.2
  rw [hname, hvalue]

lemma length_segmentItems (tx : TX) :
    (segmentItems tx).length = if tx.format = 2 then (if 0 < tx.denomination then 10 else 9) else 7 := by
  unfold segmentItems segmentItemsV2 segmentItemsV1
  split_ifs <;> rfl

lemma length_segmentItems_lt (tx : TX) : (segmentItems tx).length < 2 ^ 64 := by
  rw [length_segmentItems]
  split_ifs <;> norm_num

lemma denomination_of_segmentItemsV2 (h : (segmentItemsV2 tx).map (hashBinOrList H) =
      (segmentItemsV2 tx').map (hashBinOrList H))
    (hblob : ∀ a b, Item.blob a ∈ segmentItemsV2 tx → Item.blob b ∈ segmentItemsV2 tx' →
      hashBinOrList H (.blob a) = hashBinOrList H (.blob b) → a = b) :
    tx.denomination = tx'.denomination ∧
      (segmentListV2 tx).map (hashBinOrList H) = (segmentListV2 tx').map (hashBinOrList H) := by
  have hlength := congrArg List.length h
  unfold segmentItemsV2 at h hblob hlength
  by_cases hpos : 0 < tx.denomination <;> by_cases hpos' : 0 < tx'.denomination
  · simp only [hpos, hpos', if_true, List.map_cons, List.cons.injEq] at h hblob
    have hden := hblob _ _ List.mem_cons_self List.mem_cons_self h.1
    exact ⟨integerToBinary_injective hden, h.2⟩
  · simp [hpos, hpos', segmentListV2] at hlength
  · simp [hpos, hpos', segmentListV2] at hlength
  · simp only [hpos, hpos', if_false] at h
    exact ⟨by omega, h⟩

/-- No field of a transaction of version two changes without its segment. -/
lemma sameSignedFields_of_segment_eq (hs : H.CollisionFree s) (hdeep : DeepHashSigned tx)
    (hdeep' : DeepHashSigned tx') (hstr : ∀ x ∈ segmentStrings H tx, x ∈ s)
    (hstr' : ∀ x ∈ segmentStrings H tx', x ∈ s) (hformat : tx.format = 2)
    (h : signatureDataSegment H tx = signatureDataSegment H tx') : SameSignedFields tx tx' := by
  rw [signatureDataSegment_eq_hash hdeep, signatureDataSegment_eq_hash hdeep'] at h
  have hhashes := hash_list_injective hs (length_segmentItems_lt tx) (length_segmentItems_lt tx') hstr hstr' h
  have hformat' : tx'.format = 2 := by
    have hlength := congrArg List.length hhashes
    rw [List.length_map, List.length_map, length_segmentItems, length_segmentItems, if_pos hformat] at hlength
    by_contra hne
    rw [if_neg hne] at hlength
    split_ifs at hlength <;> omega
  unfold segmentStrings at hstr hstr'
  unfold segmentItems at hhashes hstr hstr'
  rw [if_pos hformat] at hhashes hstr
  rw [if_pos hformat'] at hhashes hstr'
  have hblob (a b : Bytes) (ha : Item.blob a ∈ segmentItemsV2 tx) (hb : Item.blob b ∈ segmentItemsV2 tx')
      (heq : hashBinOrList H (.blob a) = hashBinOrList H (.blob b)) : a = b :=
    blob_injective hs (fun x hx => hstr x (mem_strings_list ha hx))
      (fun x hx => hstr' x (mem_strings_list hb hx)) heq
  obtain ⟨hden, hlist⟩ := denomination_of_segmentItemsV2 hhashes hblob
  have hmem (tx : TX) {item : Item} (hitem : item ∈ segmentListV2 tx) : item ∈ segmentItemsV2 tx := by
    unfold segmentItemsV2
    split_ifs
    · exact List.mem_cons_of_mem _ hitem
    · exact hitem
  simp only [segmentListV2, List.map_cons, List.map_nil, List.cons.injEq, and_true] at hlist
  obtain ⟨-, howner, htarget, hquantity, hreward, hlast, htags, hsize, hroot⟩ := hlist
  -- the items stand at the same places of the two lists
  constructor
  · rw [hformat, hformat']
  · exact hblob _ _ (hmem tx (by simp [segmentListV2])) (hmem tx' (by simp [segmentListV2])) howner
  · exact hblob _ _ (hmem tx (by simp [segmentListV2])) (hmem tx' (by simp [segmentListV2])) htarget
  · exact integerToList_injective
      (hblob _ _ (hmem tx (by simp [segmentListV2])) (hmem tx' (by simp [segmentListV2])) hquantity)
  · exact integerToList_injective
      (hblob _ _ (hmem tx (by simp [segmentListV2])) (hmem tx' (by simp [segmentListV2])) hreward)
  · exact hblob _ _ (hmem tx (by simp [segmentListV2])) (hmem tx' (by simp [segmentListV2])) hlast
  · exact tagsToList_injective hs hdeep.tags hdeep'.tags
      (fun x hx => hstr x (mem_strings_list (hmem tx (by simp [segmentListV2])) hx))
      (fun x hx => hstr' x (mem_strings_list (hmem tx' (by simp [segmentListV2])) hx)) htags
  · exact hden
  · exact integerToList_injective
      (hblob _ _ (hmem tx (by simp [segmentListV2])) (hmem tx' (by simp [segmentListV2])) hsize)
  · rw [if_pos hformat]
    exact hblob _ _ (hmem tx (by simp [segmentListV2])) (hmem tx' (by simp [segmentListV2])) hroot

end Segments

/-- A deep hash signature binds the fields of its transaction if and only if the transaction
is of version two. -/
theorem signatureDataSegment_binds_iff (H : Digest 48) (tx : TX) (hdeep : DeepHashSigned tx)
    (hfree : H.CollisionFree (segmentStrings H tx)) :
    (∀ tx', DeepHashSigned tx' → H.CollisionFree (segmentStrings H tx ++ segmentStrings H tx') →
      signatureDataSegment H tx = signatureDataSegment H tx' → SameSignedFields tx tx') ↔ tx.format = 2 := by
  constructor
  · intro hbinds
    by_contra hformat
    -- the same transaction with other data
    let other : TX := { tx with data := 0 :: tx.data }
    have hstrings : segmentStrings H other = segmentStrings H tx := rfl
    have hsegment : signatureDataSegment H tx = signatureDataSegment H other := by
      have hother : DeepHashSigned other := ⟨hdeep.format, hdeep.tags⟩
      rw [signatureDataSegment_eq_hash hdeep, signatureDataSegment_eq_hash hother]
      rfl
    have hsame := hbinds other ⟨hdeep.format, hdeep.tags⟩
      (hfree.mono fun x hx => by simpa [hstrings] using hx) hsegment
    have hdata := hsame.commitment
    rw [if_neg hformat] at hdata
    exact List.cons_ne_self _ _ hdata.symm
  · intro hformat tx' hdeep' hs h
    exact sameSignedFields_of_segment_eq hs hdeep hdeep' (fun x hx => List.mem_append_left _ hx)
      (fun x hx => List.mem_append_right _ hx) hformat h

def sampleUpload : TX where
  format := 2
  owner := [1]
  dataSize := 3
  dataRoot := [2]
  reward := 4

set_option maxRecDepth 10000 in
theorem signatureDataSegment_binds_iff_sampleUpload :
    DeepHashSigned sampleUpload ∧ sha384.CollisionFree (segmentStrings sha384 sampleUpload) ∧
    ((∀ tx', DeepHashSigned tx' →
        sha384.CollisionFree (segmentStrings sha384 sampleUpload ++ segmentStrings sha384 tx') →
        signatureDataSegment sha384 sampleUpload = signatureDataSegment sha384 tx' →
        SameSignedFields sampleUpload tx') ↔ sampleUpload.format = 2) := by
  have hdeep : DeepHashSigned sampleUpload := ⟨by decide, by decide⟩
  have hfree : sha384.CollisionFree (segmentStrings sha384 sampleUpload) := by decide +kernel
  exact ⟨hdeep, hfree, signatureDataSegment_binds_iff sha384 sampleUpload hdeep hfree⟩

/-- A transaction of version one with a denomination, and the same one with other data. -/
def sampleDenominated : TX where
  owner := [1]
  data := [2]
  dataSize := 1
  reward := 4
  denomination := 1

set_option maxRecDepth 10000 in
theorem signatureDataSegment_unboundData :
    DeepHashSigned sampleDenominated ∧ DeepHashSigned { sampleDenominated with data := [3] } ∧
    sha384.CollisionFree (segmentStrings sha384 sampleDenominated ++
      segmentStrings sha384 { sampleDenominated with data := [3] }) ∧
    signatureDataSegment sha384 sampleDenominated =
      signatureDataSegment sha384 { sampleDenominated with data := [3] } ∧
    ¬SameSignedFields sampleDenominated { sampleDenominated with data := [3] } := by
  have hstrings : segmentStrings sha384 { sampleDenominated with data := [3] } =
    segmentStrings sha384 sampleDenominated := rfl
  have hfree : sha384.CollisionFree (segmentStrings sha384 sampleDenominated) := by decide +kernel
  refine ⟨⟨by decide, by decide⟩, ⟨by decide, by decide⟩, ?_, rfl, ?_⟩
  · exact hfree.mono fun x hx => by simpa [hstrings] using hx
  · intro h
    exact absurd h.commitment (by decide)

end Arweave.Tx
