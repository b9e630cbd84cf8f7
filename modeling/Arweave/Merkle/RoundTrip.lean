import Arweave.Lib.Sha2
import Arweave.Merkle.Elements

/-!
# Round trip of flat trees

For a layout that the generator routes correctly, the validator accepts the generated path
and returns the chunk that covers the destination. A flat list of elements has no rebased
nodes, so every destination is routed correctly, whatever the number of elements and
however many of them are equal or empty.
-/

namespace Arweave.Merkle
open Arweave.Lib Layout

section General

variable {H : Digest 32} {tree : List Node} {t : Layout} {hi : Nat}

/-- The round trip for a represented layout. -/
theorem Represents.validatePath_generatePath (h : Represents H tree t)
    (hH : H.CollisionFree (treeStrings H tree)) (hspan : t.Spans 0 hi) (hlt : hi < 256 ^ noteSize)
    (hdata : ∀ b data note, .leaf b data note ∈ t.subtrees → data.length = 32)
    (hfit : FlagsFit (foundFlag H tree) t 0) (halign : Aligned (foundFlag H tree) true t)
    (ruleset : Ruleset)
    (hflags : ruleset.checks.allowRebase = false →
      ∀ u ∈ t.subtrees, u.rebased = false ∧ foundFlag H tree u = false)
    (hzero : ruleset.checks.allowRebase = true → ∀ u ∈ t.subtrees, u.id H ≠ rebaseMark)
    {dest : Int} (h0 : 0 ≤ dest) (hdest : dest < hi)
    (hok : ∀ d : Cursor, d.leftBoundShift + d.leftBound = (t.covering 0 hi dest).start →
      d.leftBoundShift + d.rightBound = (t.covering 0 hi dest).stop →
      (ruleset.checks.allowRebase = false → d.leftBoundShift = 0) →
      areBordersValid ruleset.checks d d.rightBound = true ∧
        isSplitValid ruleset.checks hi d d.rightBound = true) :
    ∃ path, generatePath (t.id H) dest tree = some path ∧
      validatePath H (t.id H) dest hi path ruleset =
        .ok (some ⟨(t.covering 0 hi dest).data, (t.covering 0 hi dest).start,
          (t.covering 0 hi dest).stop⟩) := by
  have hnote : ∀ u ∈ t.subtrees, u.note < 256 ^ noteSize := fun u hu =>
    (hspan.note_le hu).trans_lt hlt
  refine ⟨_, generatePath_honestPath h hH hnote hfit halign dest, ?_⟩
  have hclamp : (Cursor.start dest hi).dest = dest := by
    simp only [Cursor.start, clampDest]
    split_ifs <;> omega
  have hvalid := @validatePathFrom_honestPath H ruleset.checks hi (foundFlag H tree) t 0 hi
    (.start dest hi) hspan hlt hdata hfit hflags hzero rfl rfl (by rw [hclamp]; exact_mod_cast h0)
    (by rw [hclamp]; exact hdest)
  rw [hclamp] at hvalid
  rw [validatePath, if_neg (by omega), hvalid]
  · simp [Cursor.start]
  · intro d h1 h2 h3
    exact hok d (by simpa [Cursor.start] using h1) (by simpa [Cursor.start] using h2) h3

lemma flagsFit_of_unflagged {flag : Layout → Bool}
    (h : ∀ u ∈ t.subtrees, u.rebased = false ∧ flag u = false) (lo : Nat) : FlagsFit flag t lo := by
  induction t generalizing lo with
  | leaf b data note => trivial
  | branch b l r note ihl ihr =>
    have hsub : ∀ u, u ∈ l.subtrees ∨ u ∈ r.subtrees → u.rebased = false ∧ flag u = false :=
      fun u hu => h u (by simp only [subtrees, List.mem_cons, List.mem_append, hu, or_true])
    have hl := hsub l (.inl l.mem_subtrees_self)
    have hr := hsub r (.inr r.mem_subtrees_self)
    exact ⟨.inl (hl.2.trans hl.1.symm), .inl (hr.2.trans hr.1.symm),
      ihl (fun u hu => hsub u (.inl hu)) _, ihr (fun u hu => hsub u (.inr hu)) _⟩

lemma aligned_of_unflagged {flag : Layout → Bool} (h : ∀ u ∈ t.subtrees, flag u = false)
    (aligned : Bool) : Aligned flag aligned t := by
  induction t generalizing aligned with
  | leaf b data note => trivial
  | branch b l r note ihl ihr =>
    have hsub : ∀ u, u ∈ l.subtrees ∨ u ∈ r.subtrees → flag u = false :=
      fun u hu => h u (by simp only [subtrees, List.mem_cons, List.mem_append, hu, or_true])
    refine ⟨fun hl => ?_, ihl (fun u hu => hsub u (.inl hu)) _, ihr (fun u hu => hsub u (.inr hu)) _⟩
    simp [hsub l (.inl l.mem_subtrees_self)] at hl

lemma Represents.foundFlag_eq_false (h : Represents H tree t)
    (hH : H.CollisionFree (treeStrings H tree)) (hnote : ∀ u ∈ t.subtrees, u.note < 256 ^ noteSize)
    (hflat : ∀ u ∈ t.subtrees, u.rebased = false) {u : Layout} (hu : u ∈ t.subtrees) :
    foundFlag H tree u = false := by
  obtain ⟨v, hv, hget, -⟩ := h.getNode hH hnote hu
  simp only [foundFlag, hget, toNode_isRebased, hflat v hv]

end General

/-- A list of elements without nested lists. -/
def flatElements (xs : List (Bytes × Nat)) : List Element := xs.map fun x => .leaf x.1 x.2

/-- The end of the data. -/
def lastOffset (xs : List (Bytes × Nat)) : Nat := (xs.getLast?.map Prod.snd).getD 0

/-- The offset where the element with the given index starts. -/
def startOffset (xs : List (Bytes × Nat)) : Nat → Nat
  | 0 => 0
  | i + 1 => (xs[i]?.map Prod.snd).getD 0

def flatRow (xs : List (Bytes × Nat)) : List Layout := xs.map fun x => .leaf false x.1 x.2

/-- The chunks of a flat list whose first element starts at `lo`. -/
def flatChunks : List (Bytes × Nat) → Nat → List Chunk
  | [], _ => []
  | x :: rest, lo => ⟨x.1, lo, x.2⟩ :: flatChunks rest x.2

lemma layoutRow_flatElements (xs : List (Bytes × Nat)) :
    layoutRow (flatElements xs) = some (flatRow xs) := by
  induction xs with
  | nil => simp [flatElements, flatRow, layoutRow]
  | cons x xs ih =>
    simp only [flatElements, List.map_cons] at ih ⊢
    simp [layoutRow, ih, flatRow]

lemma rowSpans_flatRow {xs : List (Bytes × Nat)} {lo : Nat}
    (hsorted : (lo :: xs.map Prod.snd).Pairwise (· ≤ ·)) :
    RowSpans (flatRow xs) lo ((xs.getLast?.map Prod.snd).getD lo) ∧
      rowChunks (flatRow xs) lo = flatChunks xs lo := by
  induction xs generalizing lo with
  | nil => exact ⟨rfl, rfl⟩
  | cons x xs ih =>
    simp only [List.map_cons, List.pairwise_cons, List.mem_cons, forall_eq_or_imp] at hsorted ih
    obtain ⟨⟨hle, -⟩, hrest⟩ := hsorted
    obtain ⟨h1, h2⟩ := ih hrest
    have hlast : ((x :: xs).getLast?.map Prod.snd).getD lo = (xs.getLast?.map Prod.snd).getD x.2 := by
      cases xs with
      | nil => rfl
      | cons y ys => simp [List.getLast?_cons]
    have hbase : (Layout.leaf false x.1 x.2).base lo = 0 := rfl
    have hmax : (Layout.leaf false x.1 x.2).maxNote = x.2 := rfl
    rw [hlast]
    refine ⟨⟨?_, ⟨rfl, ?_⟩, ?_⟩, ?_⟩
    · rw [hbase, hmax]
      omega
    · rw [hbase, hmax]
      exact hle
    · rw [hbase, hmax, zero_add]
      exact h1
    · simp only [flatRow, List.map_cons, rowChunks, hbase, hmax, zero_add, Chunk.map_shift_zero,
        Nat.sub_zero, chunks, flatChunks, List.singleton_append, Chunk.shift_zero]
      exact congrArg _ h2

lemma mem_flatChunks {xs : List (Bytes × Nat)} {lo : Nat} {x : Chunk} (h : x ∈ flatChunks xs lo) :
    ∃ i : Fin xs.length, x.data = xs[i].1 ∧ x.stop = xs[i].2 ∧
      x.start = if i.val = 0 then lo else startOffset xs i := by
  induction xs generalizing lo with
  | nil => simp [flatChunks] at h
  | cons y ys ih =>
    simp only [flatChunks, List.mem_cons] at h
    rcases h with rfl | h
    · exact ⟨⟨0, by simp⟩, rfl, rfl, rfl⟩
    · obtain ⟨i, h1, h2, h3⟩ := ih h
      refine ⟨i.succ, h1, h2, ?_⟩
      obtain ⟨i, hi⟩ := i
      rw [h3]
      cases i <;> simp [startOffset]

lemma startOffset_le {xs : List (Bytes × Nat)} (hsorted : (xs.map Prod.snd).Pairwise (· ≤ ·))
    {i j : Nat} (hi : i < xs.length) (hij : i < j) (hj : j < xs.length) :
    (xs.get ⟨i, hi⟩).2 ≤ startOffset xs j := by
  obtain ⟨k, rfl⟩ := Nat.exists_eq_succ_of_ne_zero (Nat.ne_zero_of_lt hij)
  have hk : k < xs.length := by omega
  have hstart : startOffset xs (k + 1) = (xs.get ⟨k, hk⟩).2 := by simp [startOffset, hk]
  rw [hstart]
  rcases Nat.lt_succ_iff_lt_or_eq.mp hij with hlt | rfl
  · have hle := List.pairwise_iff_getElem.mp hsorted i k (by simpa using hi) (by simpa using hk) hlt
    simpa only [List.getElem_map, List.get_eq_getElem] using hle
  · exact le_rfl

lemma generateAllRows_isSome {H : Digest 32} {row : List Node} (tree : List Node) (h : row ≠ []) :
    (generateAllRows H row tree).isSome := by
  fun_induction generateAllRows H row tree with
  | case1 => exact absurd rfl h
  | case2 tree root => rfl
  | case3 tree l r rest newRow ih =>
    exact ih (by simp [newRow, generateRow])

lemma generateTree_flatElements_isSome (H : Digest 32) (xs : List (Bytes × Nat)) :
    (generateTree H (flatElements xs)).isSome := by
  suffices h : ∀ stack tree, (generateTreeFrom H (flatElements xs) stack tree).isSome from h [] []
  induction xs with
  | nil =>
    intro stack tree
    cases stack with
    | nil => simp [flatElements, generateTreeFrom]
    | cons n stack =>
      rw [flatElements, List.map_nil, generateTreeFrom]
      exact generateAllRows_isSome tree (by simp)
  | cons x xs ih =>
    intro stack tree
    rw [flatElements, List.map_cons, generateTreeFrom]
    exact ih _ _

/-- The layout of a flat list: its chunks are those of the list and nothing is rebased. -/
lemma exists_layout_flatElements {H : Digest 32} {xs : List (Bytes × Nat)} {root : Bytes}
    {tree : List Node} (hne : xs ≠ []) (hids : ∀ x ∈ xs, x.1.length = 32)
    (hsorted : (xs.map Prod.snd).Pairwise (· ≤ ·)) (hlast : lastOffset xs < 256 ^ noteSize)
    (htree : generateTree H (flatElements xs) = some (root, tree))
    (hH : H.CollisionFree (treeStrings H tree)) :
    ∃ t : Layout, root = t.id H ∧ Represents H tree t ∧ t.Spans 0 (lastOffset xs) ∧
      t.chunks 0 (lastOffset xs) = flatChunks xs 0 ∧ (∀ u ∈ t.subtrees, u.rebased = false) ∧
      ∀ b data note, .leaf b data note ∈ t.subtrees → data.length = 32 := by
  have hpair : (0 :: xs.map Prod.snd).Pairwise (· ≤ ·) :=
    List.pairwise_cons.mpr ⟨fun _ _ => Nat.zero_le _, hsorted⟩
  obtain ⟨hspans, hchunks⟩ := rowSpans_flatRow hpair
  have hrowne : flatRow xs ≠ [] := by simpa [flatRow] using hne
  obtain ⟨t, hasm⟩ := assemble_isSome hrowne
  obtain ⟨hspan, htchunks⟩ := hspans.assemble hasm
  have hleaf : ∀ s ∈ flatRow xs, ∃ x ∈ xs, s = .leaf false x.1 x.2 := by
    intro s hs
    obtain ⟨x, hx, rfl⟩ := List.mem_map.mp hs
    exact ⟨x, hx, rfl⟩
  have hsub : ∀ u ∈ t.subtrees, (∃ x ∈ xs, u = .leaf false x.1 x.2) ∨
      ∃ l r note, u = .branch false l r note := by
    intro u hu
    rcases subtree_of_assemble hasm hu with ⟨s, hs, hus⟩ | hbranch
    · obtain ⟨x, hx, rfl⟩ := hleaf s hs
      exact .inl ⟨x, hx, by simpa [subtrees] using hus⟩
    · exact .inr hbranch
  have hnote : ∀ s ∈ flatRow xs, ∀ u ∈ s.subtrees, u.note < 256 ^ noteSize := fun s hs u hu =>
    (hspan.note_le (subtrees_trans (mem_subtrees_of_assemble hasm hs) hu)).trans_lt hlast
  obtain ⟨t', order, hasm', -, hlists, hroot, rfl⟩ := generateTreeFrom_spec (layoutRow_flatElements xs)
    .nil (by simpa using hrowne) hnote htree hH
  obtain rfl : t' = t := Option.some.inj (hasm'.symm.trans hasm)
  refine ⟨t', hroot, hlists.represents, hspan, htchunks.trans hchunks, ?_, ?_⟩
  · intro u hu
    rcases hsub u hu with ⟨x, -, rfl⟩ | ⟨l, r, note, rfl⟩ <;> rfl
  · intro b data note hu
    rcases hsub _ hu with ⟨x, hx, h⟩ | ⟨l, r, note, h⟩
    · cases h
      exact hids x hx
    · cases h

/-- Under every ruleset whose checks the covering chunk passes, the path that a flat tree
generates is accepted and proves that chunk. -/
theorem validatePath_flatElements {H : Digest 32} {xs : List (Bytes × Nat)} {root : Bytes}
    {tree : List Node} (hids : ∀ x ∈ xs, x.1.length = 32)
    (hsorted : (xs.map Prod.snd).Pairwise (· ≤ ·)) (hlast : lastOffset xs < 256 ^ noteSize)
    (htree : generateTree H (flatElements xs) = some (root, tree))
    (hH : H.CollisionFree (treeStrings H tree)) {dest : Int} (h0 : 0 ≤ dest)
    (hdest : dest < lastOffset xs) (ruleset : Ruleset)
    (hzero : ruleset.checks.allowRebase = true → ∀ n ∈ tree, n.id ≠ rebaseMark)
    (hok : ∀ (i : Fin xs.length) (d : Cursor), startOffset xs i ≤ dest → dest < xs[i].2 →
      d.leftBoundShift + d.leftBound = startOffset xs i → d.leftBoundShift + d.rightBound = xs[i].2 →
      (ruleset.checks.allowRebase = false → d.leftBoundShift = 0) →
      areBordersValid ruleset.checks d d.rightBound = true ∧
        isSplitValid ruleset.checks (lastOffset xs) d d.rightBound = true) :
    ∃ i : Fin xs.length, startOffset xs i ≤ dest ∧ dest < xs[i].2 ∧
      ∃ path, generatePath root dest tree = some path ∧
        validatePath H root dest (lastOffset xs) path ruleset =
          .ok (some ⟨xs[i].1, startOffset xs i, xs[i].2⟩) := by
  have hne : xs ≠ [] := by
    rintro rfl
    simp only [lastOffset, List.getLast?_nil, Option.map_none, Option.getD_none] at hdest
    omega
  obtain ⟨t, rfl, hrep, hspan, hchunks, hflat, hdata⟩ :=
    exists_layout_flatElements hne hids hsorted hlast htree hH
  have hnote : ∀ u ∈ t.subtrees, u.note < 256 ^ noteSize := fun u hu =>
    (hspan.note_le hu).trans_lt hlast
  have hfound : ∀ u ∈ t.subtrees, foundFlag H tree u = false := fun u hu =>
    hrep.foundFlag_eq_false hH hnote hflat hu
  have hflags : ∀ u ∈ t.subtrees, u.rebased = false ∧ foundFlag H tree u = false := fun u hu =>
    ⟨hflat u hu, hfound u hu⟩
  obtain ⟨hmem, hstart, hstop⟩ := covering_mem hspan (by simpa using h0) hdest
  rw [hchunks] at hmem
  obtain ⟨i, hid, hend, hbegin⟩ := mem_flatChunks hmem
  have hbegin' : (t.covering 0 (lastOffset xs) dest).start = startOffset xs i := by
    rw [hbegin]
    split_ifs with hi
    · rw [hi, startOffset]
    · rfl
  have hroundTrip := hrep.validatePath_generatePath hH hspan hlast hdata
    (flagsFit_of_unflagged hflags 0) (aligned_of_unflagged hfound true) ruleset (fun _ => hflags)
    (fun hr u hu => by
      have hz := hzero hr (u.toNode H) (hrep.complete u hu)
      rwa [toNode_id] at hz) h0 hdest
  rw [hid, hend, hbegin'] at hroundTrip
  rw [hbegin'] at hstart
  rw [hend] at hstop
  exact ⟨i, hstart, hstop, hroundTrip fun d => hok i d hstart hstop⟩

/-- The round trip of a flat tree. Elements may repeat and may be empty; the offsets must fit
into a note. -/
theorem validatePath_generatePath_basic (H : Digest 32) (xs : List (Bytes × Nat))
    (hids : ∀ x ∈ xs, x.1.length = 32) (hsorted : (xs.map Prod.snd).Pairwise (· ≤ ·))
    (hlast : lastOffset xs < 2 ^ 256) (root : Bytes) (tree : List Node)
    (htree : generateTree H (flatElements xs) = some (root, tree))
    (hH : H.CollisionFree (treeStrings H tree)) (dest : Int) (h0 : 0 ≤ dest)
    (hdest : dest < lastOffset xs) :
    ∃ i : Fin xs.length, (startOffset xs i ≤ dest ∧ dest < xs[i].2) ∧
      (∀ j : Fin xs.length, startOffset xs j ≤ dest → dest < xs[j].2 → j = i) ∧
      ∃ path, generatePath root dest tree = some path ∧
        validatePath H root dest (lastOffset xs) path .basic =
          .ok (some ⟨xs[i].1, startOffset xs i, xs[i].2⟩) := by
  have hsize : (2 : Nat) ^ 256 = 256 ^ noteSize := by norm_num [noteSize]
  rw [hsize] at hlast
  obtain ⟨i, hstart, hstop, hpath⟩ := validatePath_flatElements hids hsorted hlast htree hH h0 hdest
    .basic (by simp [Ruleset.checks]) (fun _ _ _ _ _ _ _ => ⟨rfl, rfl⟩)
  refine ⟨i, ⟨hstart, hstop⟩, fun j hj hj' => ?_, hpath⟩
  by_contra hne
  rcases Nat.lt_or_gt_of_ne (Fin.val_ne_of_ne hne) with hlt | hlt
  · have := startOffset_le hsorted j.isLt hlt i.isLt
    simp only [Fin.getElem_fin, List.get_eq_getElem] at *
    omega
  · have := startOffset_le hsorted i.isLt hlt j.isLt
    simp only [Fin.getElem_fin, List.get_eq_getElem] at *
    omega

/-- The root and the nodes of a tree and the result for one destination. -/
def roundTrip (H : Digest 32) (elements : List Element) (dest rightBound : Int) (ruleset : Ruleset) :
    Option (Except PathError (Option DataPath)) := do
  let (root, tree) ← generateTree H elements
  let path ← generatePath root dest tree
  some (validatePath H root dest rightBound path ruleset)

/-- An offset that does not fit into a note is written modulo the size of a note. -/
theorem roundTrip_basic_wide_offset :
    roundTrip Sha2.sha256 (flatElements [(List.replicate 32 1, 2 ^ 256)]) 0 (2 ^ 256) .basic =
      some (.ok (some ⟨List.replicate 32 1, 0, 1⟩)) := by
  decide +kernel

/-- Three elements, two of them equal and one of these empty. -/
def repeatedElements : List (Bytes × Nat) :=
  [(List.replicate 32 1, 3), (List.replicate 32 1, 3), (List.replicate 32 2, 5)]

theorem validatePath_generatePath_basic_repeatedElements :
    ∃ root tree path, generateTree Sha2.sha256 (flatElements repeatedElements) = some (root, tree) ∧
      generatePath root 4 tree = some path ∧
      validatePath Sha2.sha256 root 4 5 path .basic = .ok (some ⟨List.replicate 32 2, 3, 5⟩) := by
  obtain ⟨⟨root, tree⟩, htree⟩ := Option.isSome_iff_exists.mp
    (generateTree_flatElements_isSome Sha2.sha256 repeatedElements)
  have hfree : ∀ x ∈ generateTree Sha2.sha256 (flatElements repeatedElements),
      Sha2.sha256.CollisionFree (treeStrings Sha2.sha256 x.2) := by
    decide +kernel
  have hlast : ∀ i : Fin repeatedElements.length, (4 : Int) < repeatedElements[i].2 →
      i = ⟨2, by decide⟩ := by
    decide
  obtain ⟨i, ⟨-, hstop⟩, -, path, hpath, hvalid⟩ := validatePath_generatePath_basic Sha2.sha256
    repeatedElements (by decide) (by decide) (by decide) root tree htree (hfree _ htree) 4 (by decide)
    (by decide)
  obtain rfl := hlast i hstop
  exact ⟨root, tree, path, htree, hpath, hvalid⟩

end Arweave.Merkle
