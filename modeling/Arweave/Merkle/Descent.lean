import Arweave.Merkle.Binding
import Arweave.Merkle.Layout

/-!
# Descents into a layout

A path that is accepted against the root of a tree proves the chunk of the tree that covers the
destination, whoever made the path, as long as it has the marks of the tree on its way. Without
rebasing no marks are read.
-/

namespace Arweave.Merkle

open Lib

namespace Layout

/-- The strings hashed for the tree. -/
def strings (H : Digest 32) : Layout → List Bytes
  | .leaf _ data note => leafStrings H data note
  | .branch _ l r note => nodeStrings H (l.id H) (r.id H) note ++ (l.strings H ++ r.strings H)

/-- The turns on the way to a destination, each with the mark of the child. -/
def turns : Layout → Nat → Int → List (Bool × Bool)
  | .leaf _ _ _, _, _ => []
  | .branch _ l r note, lo, dest =>
    if dest < note then (false, l.rebased) :: l.turns (lo - l.base lo) (dest - l.base lo)
    else (true, r.rebased) :: r.turns (note - r.base note) (dest - r.base note)

variable {H : Digest 32} {checks : Checks} {dataSize : Int} {t : Layout} {lo hi : Nat} {c : Cursor} {path : Bytes}
  {res : DataPath}

/-- Whatever is accepted against the root of a tree is the chunk that covers the destination. -/
theorem eq_covering_of_accepted (hspan : t.Spans lo hi) (hlt : hi < 256 ^ noteSize)
    (hs : H.CollisionFree (t.strings H ++ hashedStrings H checks.allowRebase path)) (hleft : c.leftBound = lo)
    (hright : c.rightBound = hi) (hlo : lo ≤ c.dest) (hhi : c.dest < hi)
    (hmarks : MarksAgree (descent checks.allowRebase c path) (t.turns lo c.dest))
    (h : validatePathFrom H checks dataSize (t.id H) c path = some res) :
    res = ⟨(t.covering lo hi c.dest).data, c.leftBoundShift + (t.covering lo hi c.dest).start,
      c.leftBoundShift + (t.covering lo hi c.dest).stop⟩ := by
  induction t generalizing lo hi c path with
  | leaf b data note =>
    obtain ⟨rfl, hle⟩ := hspan
    obtain ⟨data', e, hseg, -, -, hleaf⟩ | ⟨marked, l, r, note', rest, hseg, hid, -⟩ := validatePathFrom_some h
    · obtain ⟨hid, rfl⟩ := validateLeaf_some hleaf
      rw [hashedStrings_leaf hseg] at hs
      obtain ⟨rfl, rfl⟩ := leafHash_inj hs (segment_leaf_lt hseg) hlt (fun x hx => List.mem_append_right _ hx)
        (fun x hx => List.mem_append_left _ hx) hid
      have hend : max (min (e : Int) e) (lo + 1) = e := by omega
      simp only [covering, hleft, hright, hend]
    · rw [hashedStrings_node hseg] at hs
      exact absurd hid.symm (leafHash_ne_nodeHash hs (fun x hx => List.mem_append_left _ hx)
        fun x hx => List.mem_append_right _ (List.mem_append_left _ hx))
  | branch b l r note ihl ihr =>
    obtain ⟨h1, h2, hl, hr⟩ := hspan
    have hbl := l.base_le lo
    have hbr := r.base_le note
    have hnote : note < 256 ^ noteSize := h2.trans_lt hlt
    obtain ⟨data', e, hseg, -, -, hleaf⟩ | ⟨marked, l', r', note', rest, hseg, hid, hrest⟩ := validatePathFrom_some h
    · obtain ⟨hid, -⟩ := validateLeaf_some hleaf
      rw [hashedStrings_leaf hseg] at hs
      exact absurd hid (leafHash_ne_nodeHash hs (fun x hx => List.mem_append_right _ hx)
        fun x hx => List.mem_append_left _ (List.mem_append_left _ hx))
    · rw [hashedStrings_node hseg] at hs
      obtain ⟨rfl, rfl, rfl⟩ := nodeHash_inj hs (segment_node_lt hseg) hnote
        (fun x hx => List.mem_append_right _ (List.mem_append_left _ hx))
        (fun x hx => List.mem_append_left _ (List.mem_append_left _ hx)) hid
      rw [descent_node hseg, turns] at hmarks
      by_cases hd : c.dest < note'
      · have hturn : decide ((note' : Int) ≤ c.dest) = false := by
          rw [decide_eq_false_iff_not]
          omega
        rw [if_pos hd, hturn] at hmarks
        obtain ⟨rfl, hmarks⟩ := hmarks rfl
        obtain ⟨e1, e2, e3, e4⟩ := step_cursor_left (Or.inl rfl) hleft (by omega) h1 hd
        rw [Cursor.child, if_pos hd] at hrest
        have hs' : H.CollisionFree (l.strings H ++ hashedStrings H checks.allowRebase rest) := by
          refine hs.mono fun x hx => ?_
          simp only [strings, List.mem_append] at hx ⊢
          tauto
        have hrec := ihl hl (by omega) hs' e1 e2 (by omega) (by omega) (by rw [e3]; exact hmarks) hrest
        rw [hrec, e3, e4]
        simp only [covering, if_pos hd, Chunk.shift, Nat.cast_add, add_assoc]
      · have hturn : decide ((note' : Int) ≤ c.dest) = true := by
          rw [decide_eq_true_eq]
          omega
        rw [if_neg hd, hturn] at hmarks
        obtain ⟨rfl, hmarks⟩ := hmarks rfl
        obtain ⟨e1, e2, e3, e4⟩ := step_cursor_right (Or.inl rfl) hleft hright h1 h2 hd
        rw [Cursor.child, if_neg hd] at hrest
        have hs' : H.CollisionFree (r.strings H ++ hashedStrings H checks.allowRebase rest) := by
          refine hs.mono fun x hx => ?_
          simp only [strings, List.mem_append] at hx ⊢
          tauto
        have hrec := ihr hr (by omega) hs' e1 e2 (by omega) (by omega) (by rw [e3]; exact hmarks) hrest
        rw [hrec, e3, e4]
        simp only [covering, if_neg hd, Chunk.shift, Nat.cast_add, add_assoc]

lemma turns_unmarked (h : ∀ u ∈ t.subtrees, u.rebased = false) (dest : Int) : ∀ x ∈ t.turns lo dest, x.2 = false := by
  induction t generalizing lo dest with
  | leaf b data note => exact fun x hx => absurd hx List.not_mem_nil
  | branch b l r note ihl ihr =>
    have hl : ∀ u ∈ l.subtrees, u.rebased = false := fun u hu => h u (by simp [subtrees, hu])
    have hr : ∀ u ∈ r.subtrees, u.rebased = false := fun u hu => h u (by simp [subtrees, hu])
    intro x hx
    rw [turns] at hx
    split_ifs at hx
    · obtain rfl | hx := List.mem_cons.mp hx
      · exact hl l l.mem_subtrees_self
      · exact ihl hl _ x hx
    · obtain rfl | hx := List.mem_cons.mp hx
      · exact hr r r.mem_subtrees_self
      · exact ihr hr _ x hx

lemma flagsFit_rebased (t : Layout) (lo : Nat) : FlagsFit rebased t lo := by
  induction t generalizing lo with
  | leaf b data note => trivial
  | branch b l r note ihl ihr => exact ⟨Or.inl rfl, Or.inl rfl, ihl _, ihr _⟩

section Roots

variable {ruleset : Ruleset} {size dest : Nat}

lemma start_dest (h : dest < size) : (Cursor.start dest size).dest = dest := by
  change clampDest dest size = dest
  rw [clampDest]
  split_ifs <;> omega

lemma eq_covering_of_validatePath (hspan : t.Spans 0 size) (hlt : size < 256 ^ noteSize)
    (hs : H.CollisionFree (t.strings H ++ hashedStrings H ruleset.checks.allowRebase path)) (hdest : dest < size)
    (hmarks : MarksAgree (descent ruleset.checks.allowRebase (.start dest size) path) (t.turns 0 dest))
    (h : validatePath H (t.id H) dest size path ruleset = .ok (some res)) :
    res = ⟨(t.covering 0 size dest).data, (t.covering 0 size dest).start, (t.covering 0 size dest).stop⟩ := by
  have hstart := start_dest hdest
  have heq := eq_covering_of_accepted hspan hlt hs rfl rfl (by rw [hstart]; omega) (by rw [hstart]; omega)
    (by rw [hstart]; exact hmarks) (validatePath_ok h).2
  rw [hstart] at heq
  simpa [Cursor.start] using heq

/-- From the root: the path of the layout proves the chunk that covers the destination, if the chunk is no
longer than 256 KiB and is split as the ruleset demands. -/
lemma validatePath_covered (hspan : t.Spans 0 size) (hlt : size < 256 ^ noteSize) (hdest : dest < size)
    (hdata : (t.covering 0 size dest).data.length = 32)
    (hflags : ruleset.checks.allowRebase = false → ∀ u ∈ t.subtrees, u.rebased = false)
    (hzero : ruleset.checks.allowRebase = true → ∀ u ∈ t.subtrees, u.id H ≠ rebaseMark)
    (hborders : ruleset.checks.checkBorders = true →
      (t.covering 0 size dest).stop ≤ (t.covering 0 size dest).start + dataChunkSize)
    (hsplit : isSplitValid ruleset.checks size ⟨dest, (t.covering 0 size dest).start, (t.covering 0 size dest).stop,
      some false, 0⟩ (t.covering 0 size dest).stop = true) :
    validatePath H (t.id H) dest size (t.honestPath H rebased 0 dest) ruleset =
      .ok (some ⟨(t.covering 0 size dest).data, (t.covering 0 size dest).start, (t.covering 0 size dest).stop⟩) := by
  have hstart := start_dest hdest
  rw [validatePath, if_neg (by omega)]
  have hcovered := @validatePathFrom_covered H ruleset.checks size rebased t 0 size (.start dest size) hspan hlt
    (by rw [hstart]; exact hdata) (flagsFit_rebased t 0) (fun h u hu => ⟨hflags h u hu, hflags h u hu⟩) hzero rfl rfl
    (by rw [hstart]; omega) (by rw [hstart]; omega)
  rw [hstart] at hcovered
  rw [hcovered]
  · simp [Cursor.start]
  · -- the checks of a cursor depend only on where its window stands from the root
    intro d hleft hright hshift
    simp only [Cursor.start, zero_add] at hleft hright hshift
    refine ⟨?_, ?_⟩
    · rw [areBordersValid]
      split
      · next hcheck =>
        have := hborders hcheck
        rw [decide_eq_true_eq]
        omega
      · rfl
    · rw [isSplitValid] at hsplit ⊢
      split
      · next hcheck =>
        -- no rebasing here, so that the window is where it seems
        have hrebase : ruleset.checks.allowRebase = false := by cases ruleset <;> first | rfl | cases hcheck
        have hzero := hshift hrebase
        rw [hzero, zero_add] at hleft hright
        rw [hcheck] at hsplit
        rw [hleft, hright]
        exact hsplit
      · next hcheck =>
        rw [hcheck] at hsplit
        have hmod : ((t.covering 0 size dest).start : Int).tmod dataChunkSize = 0 := by simpa using hsplit
        dsimp only
        rw [hleft, hmod]
        split <;> simp
      · rfl

end Roots

end Layout

end Arweave.Merkle
