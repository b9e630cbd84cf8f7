import Mathlib.Data.List.Find
import Arweave.Merkle.Serving

/-!
# Round trip of nested trees

For nested lists of full chunks the round trip succeeds for all destinations exactly when
the lookups return fitting flags and the rebased left children are aligned. Both conditions
are about the layout of the list and the order of the flat list of its nodes.
-/

namespace Arweave.Merkle
open Arweave.Lib Layout

/-- The flag of the first layout in the flat list with the contents of `u`. -/
def firstFlag (order : List Layout) (u : Layout) : Bool :=
  match order.find? (fun v => v.erase = u.erase) with
  | some v => v.rebased
  | none => false

lemma foundFlag_eq_firstFlag {H : Digest 32} {order : List Layout} {t u : Layout}
    (h : Lists order [t]) (hH : H.CollisionFree (treeStrings H (order.map (toNode H))))
    (hnote : ∀ u ∈ t.subtrees, u.note < 256 ^ noteSize) (hu : u ∈ t.subtrees) :
    foundFlag H (order.map (toNode H)) u = firstFlag order u := by
  have hfind : order.find? ((fun n => decide (n.id = u.id H)) ∘ toNode H) =
      order.find? (fun v => v.erase = u.erase) := by
    refine List.find?_congr fun v hv => ?_
    obtain ⟨t', ht', hvt⟩ := h.sound v hv
    obtain rfl := List.mem_singleton.mp ht'
    rw [Function.comp_apply, toNode_id, decide_eq_decide]
    exact ⟨h.represents.erase_eq_of_id_eq hH hnote hvt hu, id_congr H⟩
  rw [foundFlag, firstFlag, getNode, List.find?_map, hfind]
  cases order.find? (fun v => v.erase = u.erase) with
  | none => rfl
  | some v => exact toNode_isRebased H v

lemma flagsFit_congr {flag flag' : Layout → Bool} {t : Layout} {lo : Nat}
    (h : ∀ u ∈ t.subtrees, flag u = flag' u) : FlagsFit flag t lo ↔ FlagsFit flag' t lo := by
  induction t generalizing lo with
  | leaf b data note => rfl
  | branch b l r note ihl ihr =>
    have hsub : ∀ u, u ∈ l.subtrees ∨ u ∈ r.subtrees → flag u = flag' u := fun u hu =>
      h u (by simp only [subtrees, List.mem_cons, List.mem_append, hu, or_true])
    simp only [FlagsFit, hsub l (.inl l.mem_subtrees_self), hsub r (.inr r.mem_subtrees_self),
      ihl fun u hu => hsub u (.inl hu), ihr fun u hu => hsub u (.inr hu)]

lemma aligned_congr {flag flag' : Layout → Bool} {t : Layout} {aligned : Bool}
    (h : ∀ u ∈ t.subtrees, flag u = flag' u) : Aligned flag aligned t ↔ Aligned flag' aligned t := by
  induction t generalizing aligned with
  | leaf b data note => rfl
  | branch b l r note ihl ihr =>
    have hsub : ∀ u, u ∈ l.subtrees ∨ u ∈ r.subtrees → flag u = flag' u := fun u hu =>
      h u (by simp only [subtrees, List.mem_cons, List.mem_append, hu, or_true])
    simp only [Aligned, hsub l (.inl l.mem_subtrees_self), ihl fun u hu => hsub u (.inl hu),
      ihr fun u hu => hsub u (.inr hu)]

/-- The elements of a list cover the offsets from `lo` to `hi` with full chunks; a nested list
is not empty and restarts at zero. -/
def Tiled : List Element → Nat → Nat → Prop
  | [], lo, hi => lo = hi
  | .leaf data offset :: rest, lo, hi =>
    data.length = 32 ∧ offset = lo + dataChunkSize ∧ Tiled rest offset hi
  | .list elements :: rest, lo, hi =>
    elements ≠ [] ∧ ∃ size, Tiled elements 0 size ∧ Tiled rest (lo + size) hi
termination_by elements => sizeOf elements

/-- The identifiers of the flattened list. -/
def flatIDs : List Element → List Bytes
  | [] => []
  | .leaf data _ :: rest => data :: flatIDs rest
  | .list elements :: rest => flatIDs elements ++ flatIDs rest
termination_by elements => sizeOf elements

/-- Full chunks one after the other. -/
def tiles : List Bytes → Nat → List Chunk
  | [], _ => []
  | data :: rest, lo => ⟨data, lo, lo + dataChunkSize⟩ :: tiles rest (lo + dataChunkSize)

lemma tiles_append (ids ids' : List Bytes) (lo : Nat) :
    tiles (ids ++ ids') lo = tiles ids lo ++ tiles ids' (lo + dataChunkSize * ids.length) := by
  induction ids generalizing lo with
  | nil => simp [tiles]
  | cons data ids ih =>
    simp only [List.cons_append, tiles, ih, List.length_cons, Nat.mul_succ]
    rw [show lo + dataChunkSize + dataChunkSize * ids.length =
      lo + (dataChunkSize * ids.length + dataChunkSize) by omega]

lemma map_shift_tiles (ids : List Bytes) (lo base : Nat) :
    (tiles ids lo).map (Chunk.shift base) = tiles ids (base + lo) := by
  induction ids generalizing lo with
  | nil => rfl
  | cons data ids ih => simp only [tiles, List.map_cons, ih, Chunk.shift, Nat.add_assoc]

lemma mem_tiles {ids : List Bytes} {lo : Nat} {x : Chunk} (h : x ∈ tiles ids lo) :
    ∃ i, ids[i]? = some x.data ∧ x.start = lo + dataChunkSize * i ∧ x.stop = x.start + dataChunkSize := by
  induction ids generalizing lo with
  | nil => simp [tiles] at h
  | cons data ids ih =>
    simp only [tiles, List.mem_cons] at h
    rcases h with rfl | h
    · exact ⟨0, rfl, rfl, rfl⟩
    · obtain ⟨i, hid, hstart, hstop⟩ := ih h
      refine ⟨i + 1, hid, ?_, hstop⟩
      rw [hstart, Nat.mul_succ]
      omega

lemma Tiled.eq_add {elements : List Element} {lo hi : Nat} (h : Tiled elements lo hi) :
    hi = lo + dataChunkSize * (flatIDs elements).length := by
  fun_induction flatIDs elements generalizing lo hi with
  | case1 =>
    rw [Tiled] at h
    simp [h]
  | case2 data offset rest ih =>
    rw [Tiled] at h
    obtain ⟨-, rfl, h⟩ := h
    rw [ih h, List.length_cons, Nat.mul_succ]
    omega
  | case3 elements rest ihsub ihrest =>
    rw [Tiled] at h
    obtain ⟨-, size, hsub, hrest⟩ := h
    rw [ihrest hrest, ihsub hsub, List.length_append, Nat.mul_add]
    omega

/-- The row of a tiled list consists of the chunks of the flattened list. -/
lemma Tiled.exists_layoutRow {elements : List Element} {lo hi : Nat} (h : Tiled elements lo hi) :
    ∃ row, layoutRow elements = some row ∧ (elements ≠ [] → row ≠ []) ∧ RowSpans row lo hi ∧
      rowChunks row lo = tiles (flatIDs elements) lo ∧
      ∀ t ∈ row, ∀ b data note, .leaf b data note ∈ t.subtrees → data.length = 32 := by
  fun_induction flatIDs elements generalizing lo hi with
  | case1 =>
    rw [Tiled] at h
    exact ⟨[], by rw [layoutRow], by simp, h, by rw [rowChunks, tiles], by simp⟩
  | case2 data offset rest ih =>
    rw [Tiled] at h
    obtain ⟨hlen, rfl, h⟩ := h
    obtain ⟨row, hrow, -, hspans, hchunks, hdata⟩ := ih h
    refine ⟨.leaf false data (lo + dataChunkSize) :: row, by simp [layoutRow, hrow], by simp,
      ⟨?_, ⟨rfl, ?_⟩, ?_⟩, ?_, ?_⟩
    · simp only [base, maxNote, rebased, Bool.false_eq_true, if_false]
      omega
    · simp only [base, maxNote, rebased, Bool.false_eq_true, if_false]
      omega
    · simpa [base, maxNote, rebased] using hspans
    · simpa [rowChunks, base, maxNote, rebased, tiles, chunks] using hchunks
    · intro t ht b data' note hmem
      rcases List.mem_cons.mp ht with rfl | ht
      · simp only [subtrees, List.mem_singleton, Layout.leaf.injEq] at hmem
        rw [hmem.2.1, hlen]
      · exact hdata t ht b data' note hmem
  | case3 elements rest ihsub ihrest =>
    rw [Tiled] at h
    obtain ⟨hne, size, hsub, hrest⟩ := h
    obtain ⟨sub, hsubrow, hsubne, hsubspans, hsubchunks, hsubdata⟩ := ihsub hsub
    obtain ⟨row, hrow, -, hspans, hchunks, hdata⟩ := ihrest hrest
    obtain ⟨t, hasm⟩ := assemble_isSome (hsubne hne)
    obtain ⟨htspan, htchunks⟩ := hsubspans.assemble hasm
    have hbase : t.mark.base lo = lo := by simp [base]
    have hmax : t.mark.maxNote = size := by rw [maxNote_mark, htspan.maxNote_eq]
    refine ⟨t.mark :: row, by simp [layoutRow, hsubrow, hasm, hrow], by simp,
      ⟨?_, ?_, ?_⟩, ?_, ?_⟩
    · rw [hbase]
      omega
    · rw [hbase, hmax, Nat.sub_self, spans_mark]
      exact htspan
    · rw [hbase, hmax]
      exact hspans
    · rw [rowChunks, hbase, hmax, Nat.sub_self, chunks_mark, htchunks, hsubchunks, map_shift_tiles,
        hchunks, tiles_append, hsub.eq_add]
      simp
    · intro u hu b data note hmem
      rcases List.mem_cons.mp hu with rfl | hu
      · have hmem' : ∃ b', Layout.leaf b' data note ∈ t.subtrees := by
          rcases mem_subtrees_mark.mp hmem with heq | hmem
          · cases t with
            | leaf b' data' note' =>
              cases heq
              exact ⟨b', mem_subtrees_self _⟩
            | branch _ _ _ _ => cases heq
          · exact ⟨b, hmem.1⟩
        obtain ⟨b', hmem'⟩ := hmem'
        rcases subtree_of_assemble hasm hmem' with ⟨s, hs, hmem'⟩ | ⟨l, r, n, hbranch⟩
        · exact hsubdata s hs b' data note hmem'
        · cases hbranch
      · exact hdata u hu b data note hmem

/-- The condition under which a list of elements round trips: in the layout of the list, every
child is found with its own flag, unless it starts at offset zero, and every rebased left
child is aligned or uniform. -/
def Routable (elements : List Element) : Prop :=
  ∃ t ∈ (layoutRow elements).bind assemble, ∃ order ∈ nodeOrder elements [] [],
    FlagsFit (firstFlag order) t 0 ∧ Aligned (firstFlag order) true t

instance (elements : List Element) : Decidable (Routable elements) :=
  inferInstanceAs (Decidable (∃ t ∈ (layoutRow elements).bind assemble,
    ∃ order ∈ nodeOrder elements [] [],
      FlagsFit (firstFlag order) t 0 ∧ Aligned (firstFlag order) true t))

/-- What the round trip of a tiled list should return. -/
def RoundTrips (H : Digest 32) (elements : List Element) (size : Nat) (root : Bytes) (tree : List Node) :
    Prop :=
  ∀ dest : Nat, dest < size → ∃ id path, (flatIDs elements)[dest / dataChunkSize]? = some id ∧
    generatePath root dest tree = some path ∧
    validatePath H root dest size path .offsetRebaseSupport =
      .ok (some ⟨id, (dataChunkSize * (dest / dataChunkSize) : Nat),
        (dataChunkSize * (dest / dataChunkSize) + dataChunkSize : Nat)⟩)

lemma checks_fullChunk {d : Cursor} {dataSize : Int} {i : Nat}
    (hleft : d.leftBoundShift + d.leftBound = (dataChunkSize * i : Nat))
    (hright : d.leftBoundShift + d.rightBound = (dataChunkSize * i + dataChunkSize : Nat)) :
    areBordersValid Ruleset.offsetRebaseSupport.checks d d.rightBound = true ∧
      isSplitValid Ruleset.offsetRebaseSupport.checks dataSize d d.rightBound = true := by
  have hmod : ((dataChunkSize * i : Nat) : Int).tmod dataChunkSize = 0 := by
    rw [Nat.cast_mul, Int.mul_tmod_right]
  have hle : d.rightBound - d.leftBound ≤ dataChunkSize := by omega
  constructor
  · simp [areBordersValid, Ruleset.checks, hle]
  · simp only [isSplitValid, Ruleset.checks, hleft, hmod]
    split <;> simp

section Tiled

variable {H : Digest 32} {elements : List Element} {size : Nat} {root : Bytes} {tree : List Node}

lemma Tiled.fullTree (htiled : Tiled elements 0 size) (hne : elements ≠ [])
    (hsize : size < 256 ^ noteSize) (htree : generateTree H elements = some (root, tree))
    (hH : H.CollisionFree (treeStrings H tree)) (hmark : ∀ n ∈ tree, n.id ≠ rebaseMark) :
    ∃ t order, (layoutRow elements).bind assemble = some t ∧
      nodeOrder elements [] [] = some order ∧ root = t.id H ∧ FullTree H tree t size ∧
      t.chunks 0 size = tiles (flatIDs elements) 0 ∧
      ∀ u ∈ t.subtrees, foundFlag H tree u = firstFlag order u := by
  obtain ⟨row, hrow, hrowne, hspans, hchunks, hdata⟩ := htiled.exists_layoutRow
  obtain ⟨t, hasm⟩ := assemble_isSome (hrowne hne)
  obtain ⟨htspan, htchunks⟩ := hspans.assemble hasm
  have hnote : ∀ u ∈ t.subtrees, u.note < 256 ^ noteSize := fun u hu =>
    (htspan.note_le hu).trans_lt hsize
  obtain ⟨t', order, hasm', horder, hlists, hroot, rfl⟩ := generateTreeFrom_spec hrow .nil
    (by simpa using hrowne hne)
    (fun s hs u hu => hnote u (subtrees_trans (mem_subtrees_of_assemble hasm hs) hu)) htree hH
  obtain rfl : t' = t := Option.some.inj (hasm'.symm.trans hasm)
  refine ⟨t', order, by rw [hrow, Option.bind_some, hasm], horder, hroot, ?_, htchunks.trans hchunks, ?_⟩
  · refine ⟨hlists.represents, hH, ⟨htspan, fun x hx => ?_⟩, hsize, fun b data note hmem => ?_, ?_⟩
    · rw [htchunks, hchunks] at hx
      obtain ⟨i, -, -, hstop⟩ := mem_tiles hx
      exact hstop
    · rcases subtree_of_assemble hasm hmem with ⟨s, hs, hmem⟩ | ⟨l, r, n, hbranch⟩
      · exact hdata s hs b data note hmem
      · cases hbranch
    · intro u hu
      have := hmark (u.toNode H) (hlists.represents.complete u hu)
      rwa [toNode_id] at this
  · exact fun u hu => foundFlag_eq_firstFlag hlists hH hnote hu

/-- Nested trees of full chunks round trip exactly when they are routable. -/
theorem roundTrips_iff_routable (H : Digest 32) (elements : List Element) (size : Nat)
    (hne : elements ≠ []) (htiled : Tiled elements 0 size) (hsize : size < 2 ^ 256) (root : Bytes)
    (tree : List Node) (htree : generateTree H elements = some (root, tree))
    (hH : H.CollisionFree (treeStrings H tree)) (hmark : ∀ n ∈ tree, n.id ≠ rebaseMark) :
    RoundTrips H elements size root tree ↔ Routable elements := by
  have hsize' : size < 256 ^ noteSize := hsize.trans_eq (by norm_num [noteSize])
  obtain ⟨t, order, hasm, horder, rfl, hfull, hchunks, hflags⟩ :=
    htiled.fullTree hne hsize' htree hH hmark
  constructor
  · intro h
    have hserved : Served H tree Ruleset.offsetRebaseSupport.checks size t 0 size 0 0 := by
      intro dest h0 hdest
      obtain ⟨n, rfl⟩ := Int.eq_ofNat_of_zero_le (by simpa using h0)
      obtain ⟨id, path, -, hpath, hvalid⟩ := h n (by simpa using hdest)
      obtain ⟨hpos, hvalid⟩ := validatePath_ok hvalid
      obtain ⟨parts, hparts, rfl⟩ := Option.map_eq_some_iff.mp hpath
      have hclamp : (Cursor.start n size).dest = n := by
        simp only [Cursor.start, clampDest]
        split_ifs <;> omega
      refine ⟨tree.length, parts, .start n size, _, by rwa [sub_zero], rfl, rfl, hclamp, hvalid, ?_⟩
      have hlt := Nat.lt_mul_div_succ n (show 0 < dataChunkSize by decide)
      rw [Nat.mul_succ] at hlt
      simp only [Cursor.start, zero_add]
      exact_mod_cast hlt
    obtain ⟨hfit, halign⟩ := FullTree.Served.aligned hfull rfl t.mem_subtrees_self true hfull.full
      le_rfl (by simp) hserved
    exact ⟨t, hasm, order, horder, (flagsFit_congr hflags).mp hfit,
      (aligned_congr hflags).mp halign⟩
  · rintro ⟨t', hasm', order', horder', hfit, halign⟩ dest hdest
    obtain rfl : t = t' := Option.some.inj (hasm.symm.trans hasm')
    obtain rfl : order = order' := Option.some.inj (horder.symm.trans horder')
    obtain ⟨hmem, hstart, hstop⟩ := covering_mem hfull.full.1 (Nat.cast_nonneg dest) (Nat.cast_lt.mpr hdest)
    rw [hchunks] at hmem
    obtain ⟨i, hid, hbegin, hend⟩ := mem_tiles hmem
    have hi : dest / dataChunkSize = i := by
      rw [hend, hbegin] at hstop
      rw [hbegin] at hstart
      refine Nat.div_eq_of_lt_le ?_ ?_ <;> rw [Nat.mul_comm]
      · omega
      · rw [Nat.mul_succ]
        omega
    obtain ⟨path, hpath, hvalid⟩ := hfull.represents.validatePath_generatePath hH hfull.full.1 hsize'
      hfull.length_data ((flagsFit_congr hflags).mpr hfit) ((aligned_congr hflags).mpr halign)
      .offsetRebaseSupport (by simp [Ruleset.checks]) (fun _ => hfull.id_ne) (Nat.cast_nonneg dest)
      (Nat.cast_lt.mpr hdest) (fun d hleft hright _ => by
        rw [hbegin, zero_add] at hleft
        rw [hend, hbegin, zero_add] at hright
        exact checks_fullChunk hleft hright)
    refine ⟨_, path, hi ▸ hid, hpath, ?_⟩
    rw [hvalid, hend, hbegin, hi, zero_add]

end Tiled

/-- A full chunk whose identifier repeats one byte. -/
def sampleLeaf (byte : UInt8) (index : Nat) : Element :=
  .leaf (List.replicate 32 byte) (dataChunkSize * (index + 1))

/-- A rebased left child below a left child loses its second chunk, and a chunk that occurs
both rebased and not rebased is marked like its first occurrence. -/
theorem roundTrip_misrouted :
    roundTrip Sha2.sha256
        [.list [sampleLeaf 1 0, sampleLeaf 2 1], .list [sampleLeaf 3 0], sampleLeaf 4 3]
        dataChunkSize (4 * dataChunkSize) .offsetRebaseSupport = some (.ok none) ∧
      roundTrip Sha2.sha256 [sampleLeaf 1 0, .list [sampleLeaf 1 0]]
        dataChunkSize (2 * dataChunkSize) .offsetRebaseSupport =
          some (.ok (some ⟨List.replicate 32 1, 262144, 262145⟩)) := by
  decide +kernel

/-- A nested list of two chunks behind a chunk. -/
def nestedSample : List Element := [sampleLeaf 1 0, .list [sampleLeaf 2 0, sampleLeaf 3 1]]

theorem roundTrips_iff_routable_nestedSample :
    ∃ root tree, generateTree Sha2.sha256 nestedSample = some (root, tree) ∧
      Routable nestedSample ∧
      RoundTrips Sha2.sha256 nestedSample (3 * dataChunkSize) root tree := by
  have hsome : (generateTree Sha2.sha256 nestedSample).isSome := by decide +kernel
  obtain ⟨⟨root, tree⟩, htree⟩ := Option.isSome_iff_exists.mp hsome
  have hfree : ∀ x ∈ generateTree Sha2.sha256 nestedSample,
      Sha2.sha256.CollisionFree (treeStrings Sha2.sha256 x.2) ∧ ∀ n ∈ x.2, n.id ≠ rebaseMark := by
    decide +kernel
  have htiled : Tiled nestedSample 0 (3 * dataChunkSize) := by
    simp only [nestedSample, sampleLeaf, Tiled]
    exact ⟨rfl, rfl, by simp, 2 * dataChunkSize, ⟨rfl, rfl, rfl, rfl, rfl⟩, rfl⟩
  have hroutable : Routable nestedSample := by decide +kernel
  obtain ⟨hH, hmark⟩ := hfree _ htree
  exact ⟨root, tree, htree, hroutable, (roundTrips_iff_routable Sha2.sha256 nestedSample _
    (by simp [nestedSample]) htiled (by decide) root tree htree hH hmark).mpr hroutable⟩

end Arweave.Merkle
