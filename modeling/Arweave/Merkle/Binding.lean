import Arweave.Merkle.Path
import Arweave.Lib.Sha2
import Mathlib.Data.Int.ConditionallyCompleteOrder
import Mathlib.Order.CompletePartialOrder
import Mathlib.Order.Interval.Set.Disjoint

/-!
# Binding of Merkle paths

Two paths that open the same root descend through the same nodes until their
destinations part. The digest only has to be free of collisions on the strings which
the two validations hash, `hashedStrings`. The rebase mark of a path is not hashed, so
the descent is determined by the destination and the marks together; `descent` records
both and `MarksAgree` compares the marks that two paths put on the positions they share.
-/

namespace Arweave.Merkle
open Arweave.Lib

/-- The strings hashed while a path is validated to its end. -/
def hashedStrings (H : Digest 32) (allowRebase : Bool) (path : Bytes) : List Bytes :=
  match _h : segment allowRebase path with
  | .leaf data endOffset => leafStrings H data endOffset
  | .rebase l r note rest | .node l r note rest =>
    nodeStrings H l r note ++ hashedStrings H allowRebase rest
  | .invalid => []
termination_by path.length
decreasing_by
  · exact segment_rebase_rest_lt _h
  · exact segment_node_rest_lt _h

/-- The turns of a path, `true` for right, each with the presence of the rebase mark. -/
def descent (allowRebase : Bool) (c : Cursor) (path : Bytes) : List (Bool × Bool) :=
  match _h : segment allowRebase path with
  | .leaf _ _ | .invalid => []
  | .rebase _ _ note rest =>
    (decide (note ≤ c.dest), true) :: descent allowRebase (c.rebase note) rest
  | .node _ _ note rest =>
    (decide (note ≤ c.dest), false) :: descent allowRebase (c.descend note) rest
termination_by path.length
decreasing_by
  · exact segment_rebase_rest_lt _h
  · exact segment_node_rest_lt _h

/-- The marks agree on every position common to the two descents. -/
def MarksAgree : List (Bool × Bool) → List (Bool × Bool) → Prop
  | (turn1, mark1) :: rest1, (turn2, mark2) :: rest2 =>
    turn1 = turn2 → mark1 = mark2 ∧ MarksAgree rest1 rest2
  | _, _ => True

section Unfolding

variable {H : Digest 32} {checks : Checks} {dataSize : Int} {id path : Bytes} {c : Cursor}

lemma hashedStrings_leaf {allowRebase : Bool} {data : Bytes} {endOffset : Nat}
    (h : segment allowRebase path = .leaf data endOffset) :
    hashedStrings H allowRebase path = leafStrings H data endOffset := by
  rw [hashedStrings]
  split <;> simp_all

lemma hashedStrings_node {allowRebase marked : Bool} {l r rest : Bytes} {note : Nat}
    (h : segment allowRebase path = .ofNode marked l r note rest) :
    hashedStrings H allowRebase path =
      nodeStrings H l r note ++ hashedStrings H allowRebase rest := by
  rw [hashedStrings]
  cases marked <;> simp only [Segment.ofNode, Bool.false_eq_true, if_true, if_false] at h <;>
    split <;> simp_all

lemma descent_node {allowRebase marked : Bool} {l r rest : Bytes} {note : Nat}
    (h : segment allowRebase path = .ofNode marked l r note rest) :
    descent allowRebase c path =
      (decide (note ≤ c.dest), marked) :: descent allowRebase (c.step marked note) rest := by
  rw [descent]
  cases marked <;> simp only [Segment.ofNode, Bool.false_eq_true, if_true, if_false] at h <;>
    split <;> simp_all [Cursor.step]

end Unfolding

namespace Cursor

/-- The destination lies between the bounds. -/
structure Inside (c : Cursor) : Prop where
  shift_nonneg : 0 ≤ c.leftBoundShift
  left_nonneg : 0 ≤ c.leftBound
  left_le : c.leftBound ≤ c.dest
  lt_right : c.dest < c.rightBound

/-- The two cursors differ in their destinations only. -/
structure SameWindow (c d : Cursor) : Prop where
  left : c.leftBound = d.leftBound
  right : c.rightBound = d.rightBound
  rightMost : c.isRightMost = d.isRightMost
  shift : c.leftBoundShift = d.leftBoundShift

lemma inside_start {dest rightBound : Int} (h : 0 < rightBound) :
    (Cursor.start dest rightBound).Inside := by
  refine ⟨le_rfl, le_rfl, ?_, ?_⟩ <;> simp only [Cursor.start, clampDest] <;> split_ifs <;> omega

lemma Inside.step {c : Cursor} (hc : c.Inside) (marked : Bool) (note : Nat) :
    (c.step marked note).Inside := by
  obtain ⟨h1, h2, h3, h4⟩ := hc
  cases marked <;> by_cases hn : c.dest < note <;>
    constructor <;> simp [Cursor.step, descend, rebase, hn] <;> omega

lemma step_window {c : Cursor} (hc : c.Inside) (marked : Bool) (note : Nat) :
    let d := c.step marked note
    d.leftBoundShift + d.dest = c.leftBoundShift + c.dest ∧
    c.leftBoundShift + c.leftBound ≤ d.leftBoundShift + d.leftBound ∧
    d.leftBoundShift + d.rightBound ≤ c.leftBoundShift + c.rightBound ∧
    (c.dest < note → d.leftBoundShift + d.rightBound ≤ c.leftBoundShift + note) ∧
    (note ≤ c.dest → c.leftBoundShift + note ≤ d.leftBoundShift + d.leftBound) := by
  obtain ⟨h1, h2, h3, h4⟩ := hc
  cases marked <;> by_cases hn : c.dest < note <;>
    simp [Cursor.step, descend, rebase, hn]

lemma SameWindow.step {c d : Cursor} (h : c.SameWindow d) (marked : Bool) {note : Nat}
    (hturn : c.dest < note ↔ d.dest < note) :
    (c.step marked note).SameWindow (d.step marked note) := by
  obtain ⟨h1, h2, h3, h4⟩ := h
  by_cases hn : c.dest < note
  · have hd := hturn.mp hn
    cases marked <;> constructor <;> simp [Cursor.step, descend, rebase, hn, hd, h1, h2, h4]
  · have hd : ¬d.dest < note := fun hd => hn (hturn.mpr hd)
    cases marked <;> constructor <;> simp [Cursor.step, descend, rebase, hn, hd, h1, h2, h3, h4]

end Cursor

section Binding

variable {H : Digest 32} {checks : Checks} {dataSize : Int}

lemma validateLeaf_some {id data : Bytes} {endOffset : Nat} {c : Cursor} {res : DataPath}
    (h : validateLeaf H id data endOffset c = some res) :
    leafHash H data endOffset = id ∧ res =
      ⟨data, c.leftBoundShift + c.leftBound,
        c.leftBoundShift + max (min c.rightBound endOffset) (c.leftBound + 1)⟩ := by
  unfold validateLeaf at h
  split_ifs at h with hid
  exact ⟨hid, (Option.some.inj h).symm⟩

/-- An accepted interval is non-empty, lies in the window and starts at or before the
destination. -/
theorem validatePathFrom_bounds {id path : Bytes} {c : Cursor} {res : DataPath}
    (hc : c.Inside) (h : validatePathFrom H checks dataSize id c path = some res) :
    c.leftBoundShift + c.leftBound ≤ res.startOffset ∧ res.startOffset < res.endOffset ∧
      res.endOffset ≤ c.leftBoundShift + c.rightBound ∧
      res.startOffset ≤ c.leftBoundShift + c.dest := by
  induction hn : path.length using Nat.strong_induction_on generalizing id path c with
  | _ n ih =>
    rcases validatePathFrom_some h with ⟨data, e, -, -, -, hleaf⟩ |
      ⟨marked, l, r, note, rest, hseg, -, hrest⟩
    · obtain ⟨-, rfl⟩ := validateLeaf_some hleaf
      have h3 := hc.left_le
      have h4 := hc.lt_right
      dsimp only
      omega
    · have hlt := segment_ofNode_rest_lt hseg
      have hw := Cursor.step_window hc marked note
      have hr := ih rest.length (hn ▸ hlt) (hc.step marked note) hrest rfl
      dsimp only at hw
      omega

/-- Two accepted descents from one node with the same window: the results agree when
the destinations do, and otherwise they agree or are separated by a note. -/
theorem validatePathFrom_binding {id p q : Bytes} {c d : Cursor} {res res' : DataPath}
    (hs : H.CollisionFree
      (hashedStrings H checks.allowRebase p ++ hashedStrings H checks.allowRebase q))
    (hcd : c.SameWindow d) (hc : c.Inside) (hd : d.Inside)
    (hmarks : MarksAgree (descent checks.allowRebase c p) (descent checks.allowRebase d q))
    (hp : validatePathFrom H checks dataSize id c p = some res)
    (hq : validatePathFrom H checks dataSize id d q = some res') :
    (c.dest = d.dest → res = res') ∧
      (res = res' ∨ res.endOffset ≤ res'.startOffset ∨ res'.endOffset ≤ res.startOffset) := by
  induction hn : p.length using Nat.strong_induction_on generalizing id p q c d with
  | _ n ih =>
    rcases validatePathFrom_some hp with ⟨data, e, hsp, -, -, hlp⟩ |
        ⟨marked, l, r, note, rest, hsp, hidp, hrp⟩ <;>
      rcases validatePathFrom_some hq with ⟨data', e', hsq, -, -, hlq⟩ |
        ⟨marked', l', r', note', rest', hsq, hidq, hrq⟩
    · obtain ⟨hidp, rfl⟩ := validateLeaf_some hlp
      obtain ⟨hidq, rfl⟩ := validateLeaf_some hlq
      rw [hashedStrings_leaf hsp, hashedStrings_leaf hsq] at hs
      obtain ⟨rfl, rfl⟩ := leafHash_inj hs (segment_leaf_lt hsp) (segment_leaf_lt hsq)
        (fun x hx => List.mem_append_left _ hx) (fun x hx => List.mem_append_right _ hx)
        (hidp.trans hidq.symm)
      rw [hcd.left, hcd.right, hcd.shift]
      exact ⟨fun _ => rfl, .inl rfl⟩
    · obtain ⟨hidp, -⟩ := validateLeaf_some hlp
      rw [hashedStrings_leaf hsp, hashedStrings_node hsq] at hs
      exact absurd (hidp.trans hidq.symm) (leafHash_ne_nodeHash hs
        (fun x hx => List.mem_append_left _ hx)
        (fun x hx => List.mem_append_right _ (List.mem_append_left _ hx)))
    · obtain ⟨hidq, -⟩ := validateLeaf_some hlq
      rw [hashedStrings_node hsp, hashedStrings_leaf hsq] at hs
      exact absurd (hidq.trans hidp.symm) (leafHash_ne_nodeHash hs
        (fun x hx => List.mem_append_right _ hx)
        (fun x hx => List.mem_append_left _ (List.mem_append_left _ hx)))
    · rw [hashedStrings_node hsp, hashedStrings_node hsq] at hs
      obtain ⟨rfl, rfl, rfl⟩ := nodeHash_inj hs (segment_node_lt hsp) (segment_node_lt hsq)
        (fun x hx => List.mem_append_left _ (List.mem_append_left _ hx))
        (fun x hx => List.mem_append_right _ (List.mem_append_left _ hx)) (hidp.trans hidq.symm)
      rw [descent_node hsp, descent_node hsq] at hmarks
      have hlt := segment_ofNode_rest_lt hsp
      have hwc := Cursor.step_window hc marked note
      have hwd := Cursor.step_window hd marked' note
      have hbc := validatePathFrom_bounds (hc.step marked note) hrp
      have hbd := validatePathFrom_bounds (hd.step marked' note) hrq
      have hshift := hcd.shift
      by_cases hturn : c.dest < note ↔ d.dest < note
      · -- the same child: the marks agree and the induction applies to the rests
        have hdec : decide ((note : Int) ≤ c.dest) = decide ((note : Int) ≤ d.dest) := by
          rw [decide_eq_decide]
          omega
        obtain ⟨rfl, hmarks'⟩ := hmarks hdec
        have hchild : c.child l r note = d.child l r note := by
          simp only [Cursor.child, hturn]
        rw [hchild] at hrp
        have hs' : H.CollisionFree
            (hashedStrings H checks.allowRebase rest ++ hashedStrings H checks.allowRebase rest') := by
          refine hs.mono fun x hx => ?_
          rcases List.mem_append.mp hx with hx | hx
          · exact List.mem_append_left _ (List.mem_append_right _ hx)
          · exact List.mem_append_right _ (List.mem_append_right _ hx)
        have hrec := ih rest.length (hn ▸ hlt) hs' (hcd.step marked hturn) (hc.step marked note)
          (hd.step marked note) hmarks' hrp hrq rfl
        refine ⟨fun hdest => hrec.1 ?_, hrec.2⟩
        dsimp only at hwc hwd
        have hst := (hcd.step marked hturn).shift
        omega
      · dsimp only at hwc hwd
        refine ⟨fun hdest => ?_, ?_⟩
        · rw [hdest] at hturn
          exact absurd Iff.rfl hturn
        · by_cases hcn : c.dest < note
          · have hdn : (note : Int) ≤ d.dest := by
              by_contra hlt'
              exact hturn ⟨fun _ => by omega, fun _ => hcn⟩
            right; left
            omega
          · have hdn : d.dest < note := by
              by_contra hlt'
              exact hturn ⟨fun h => absurd h hcn, fun h => absurd h hlt'⟩
            right; right
            omega

lemma descent_unmarked (c : Cursor) (p : Bytes) : ∀ x ∈ descent false c p, x.2 = false := by
  induction hn : p.length using Nat.strong_induction_on generalizing p c with
  | _ n ih =>
    rw [descent]
    split
    · simp
    · simp
    · next l r note rest hseg =>
      exact absurd (@segment_unmarked true _ _ _ _ _ hseg) (by simp)
    · next l r note rest hseg =>
      intro x hx
      rcases List.mem_cons.mp hx with rfl | hx
      · rfl
      · exact ih rest.length (hn ▸ segment_node_rest_lt hseg) _ _ rfl x hx

lemma marksAgree_of_unmarked {s t : List (Bool × Bool)} (hs : ∀ x ∈ s, x.2 = false)
    (ht : ∀ x ∈ t, x.2 = false) : MarksAgree s t := by
  induction s generalizing t with
  | nil => trivial
  | cons x s ih =>
    cases t with
    | nil => trivial
    | cons y t =>
      rw [List.forall_mem_cons] at hs ht
      exact fun _ => ⟨hs.1.trans ht.1.symm, ih hs.2 ht.2⟩

lemma disjoint_Ico_of_le {a b c d : Int} (h : b ≤ c ∨ d ≤ a) :
    Disjoint (Set.Ico a b) (Set.Ico c d) := by
  rw [Set.Ico_disjoint_Ico]
  rcases h with h | h
  · exact (min_le_left _ _).trans (h.trans (le_max_right _ _))
  · exact (min_le_right _ _).trans (h.trans (le_max_left _ _))

lemma validatePath_bounds {root path : Bytes} {rightBound dest : Int} {ruleset : Ruleset}
    {res : DataPath} (h : validatePath H root dest rightBound path ruleset = .ok (some res)) :
    0 ≤ res.startOffset ∧ res.startOffset < res.endOffset ∧ res.endOffset ≤ rightBound ∧
      res.startOffset ≤ clampDest dest rightBound := by
  obtain ⟨hpos, h⟩ := validatePath_ok h
  simpa [Cursor.start] using validatePathFrom_bounds (Cursor.inside_start hpos) h

lemma validatePath_binding (ruleset : Ruleset) {root p q : Bytes} {rightBound dest1 dest2 : Int}
    {res1 res2 : DataPath}
    (hH : H.CollisionFree (hashedStrings H ruleset.checks.allowRebase p ++
      hashedStrings H ruleset.checks.allowRebase q))
    (hmarks : MarksAgree (descent ruleset.checks.allowRebase (.start dest1 rightBound) p)
      (descent ruleset.checks.allowRebase (.start dest2 rightBound) q))
    (h1 : validatePath H root dest1 rightBound p ruleset = .ok (some res1))
    (h2 : validatePath H root dest2 rightBound q ruleset = .ok (some res2)) :
    (dest1 = dest2 → res1 = res2) ∧
    (res1 = res2 ∨ Disjoint (Set.Ico res1.startOffset res1.endOffset)
      (Set.Ico res2.startOffset res2.endOffset)) := by
  obtain ⟨hpos, h1⟩ := validatePath_ok h1
  obtain ⟨-, h2⟩ := validatePath_ok h2
  have hbind := validatePathFrom_binding (c := .start dest1 rightBound)
    (d := .start dest2 rightBound) hH ⟨rfl, rfl, rfl, rfl⟩
    (Cursor.inside_start hpos) (Cursor.inside_start hpos) hmarks h1 h2
  exact ⟨fun h => hbind.1 (by rw [h]), hbind.2.imp_right disjoint_Ico_of_le⟩

end Binding

/-- Under the rulesets without rebasing, a root binds its data: two accepted paths, of
whatever origin, prove the same chunk or disjoint chunks, and the same one for the same
destination. -/
theorem validatePath_unique (H : Digest 32) (root : Bytes) (rightBound dest1 dest2 : Int)
    (path1 path2 : Bytes) (ruleset : Ruleset) (hruleset : ruleset ≠ .offsetRebaseSupport)
    (hH : H.CollisionFree (hashedStrings H false path1 ++ hashedStrings H false path2))
    (res1 res2 : DataPath)
    (h1 : validatePath H root dest1 rightBound path1 ruleset = .ok (some res1))
    (h2 : validatePath H root dest2 rightBound path2 ruleset = .ok (some res2)) :
    (dest1 = dest2 → res1 = res2) ∧
    (res1 = res2 ∨ Disjoint (Set.Ico res1.startOffset res1.endOffset)
      (Set.Ico res2.startOffset res2.endOffset)) ∧
    (0 ≤ res1.startOffset ∧ res1.startOffset < res1.endOffset ∧ res1.endOffset ≤ rightBound ∧
      res1.startOffset ≤ clampDest dest1 rightBound) := by
  have hrebase : ruleset.checks.allowRebase = false := by
    cases ruleset <;> first | rfl | exact absurd rfl hruleset
  have hbind := validatePath_binding ruleset (by rw [hrebase]; exact hH)
    (by rw [hrebase]; exact marksAgree_of_unmarked (descent_unmarked _ _) (descent_unmarked _ _))
    h1 h2
  exact ⟨hbind.1, hbind.2, validatePath_bounds h1⟩

/-- The path to a leaf below one node. -/
def shallowPath (l r : Bytes) (note : Nat) (data : Bytes) (endOffset : Nat) : Bytes :=
  l ++ r ++ noteToBinary note ++ data ++ noteToBinary endOffset

/-- A full chunk followed by a short one: the hashes of the leaves and of the root. -/
def fullAndShort : Bytes × Bytes × Bytes :=
  let l := leafHash Sha2.sha256 (List.replicate 32 1) 262144
  let r := leafHash Sha2.sha256 (List.replicate 32 2) 300000
  (l, r, nodeHash Sha2.sha256 l r 262144)

set_option maxRecDepth 10000 in
lemma validatePath_fullAndShort :
    let (l, r, root) := fullAndShort
    let path1 := shallowPath l r 262144 (List.replicate 32 1) 262144
    let path2 := shallowPath l r 262144 (List.replicate 32 2) 300000
    (validatePath Sha2.sha256 root 5 300000 path1 .strictDataSplit =
        .ok (some ⟨List.replicate 32 1, 0, 262144⟩) ∧
      validatePath Sha2.sha256 root 262150 300000 path2 .strictDataSplit =
        .ok (some ⟨List.replicate 32 2, 262144, 300000⟩)) ∧
    Sha2.sha256.CollisionFree
      (hashedStrings Sha2.sha256 false path1 ++ hashedStrings Sha2.sha256 false path2) := by
  dsimp only
  refine ⟨⟨?_, ?_⟩, ?_⟩ <;> decide +kernel

theorem validatePath_unique_fullAndShort :
    let (l, r, root) := fullAndShort
    let path1 := shallowPath l r 262144 (List.replicate 32 1) 262144
    let path2 := shallowPath l r 262144 (List.replicate 32 2) 300000
    validatePath Sha2.sha256 root 5 300000 path1 .strictDataSplit =
        .ok (some ⟨List.replicate 32 1, 0, 262144⟩) ∧
      validatePath Sha2.sha256 root 262150 300000 path2 .strictDataSplit =
        .ok (some ⟨List.replicate 32 2, 262144, 300000⟩) ∧
      Disjoint (Set.Ico (0 : Int) 262144) (Set.Ico 262144 300000) := by
  dsimp only
  obtain ⟨⟨h1, h2⟩, hfree⟩ := validatePath_fullAndShort
  have h := validatePath_unique _ _ _ _ _ _ _ _ (by decide) hfree _ _ h1 h2
  exact ⟨h1, h2, h.2.1.resolve_left (by decide)⟩

/-- The mark is not part of what a node hashes: below a right child whose chunk restarts
at zero, the path with the mark proves the whole chunk and the same path without it
proves a single byte. -/
def rebasedRight : Bytes × Bytes × Bytes :=
  let l := leafHash Sha2.sha256 (List.replicate 32 1) 262144
  let r := leafHash Sha2.sha256 (List.replicate 32 2) 262144
  (l, r, nodeHash Sha2.sha256 l r 262144)

set_option maxRecDepth 10000 in
lemma validatePath_rebasedRight :
    let (l, r, root) := rebasedRight
    let path1 := shallowPath l r 262144 (List.replicate 32 1) 262144
    let path2 := shallowPath l r 262144 (List.replicate 32 2) 262144
    (validatePath Sha2.sha256 root 0 524288 path1 .offsetRebaseSupport =
        .ok (some ⟨List.replicate 32 1, 0, 262144⟩) ∧
      validatePath Sha2.sha256 root 262144 524288 path2 .offsetRebaseSupport =
        .ok (some ⟨List.replicate 32 2, 262144, 262145⟩) ∧
      ∀ dest ∈ [262144, 300000],
        validatePath Sha2.sha256 root dest 524288 (rebaseMark ++ path2) .offsetRebaseSupport =
          .ok (some ⟨List.replicate 32 2, 262144, 524288⟩)) ∧
    (Sha2.sha256.CollisionFree (hashedStrings Sha2.sha256 true (rebaseMark ++ path2) ++
        hashedStrings Sha2.sha256 true path2) ∧
      Sha2.sha256.CollisionFree (hashedStrings Sha2.sha256 true path1 ++
        hashedStrings Sha2.sha256 true (rebaseMark ++ path2))) ∧
    segment true path1 =
      .ofNode false l r 262144 (List.replicate 32 1 ++ noteToBinary 262144) ∧
    segment true (rebaseMark ++ path2) =
      .ofNode true l r 262144 (List.replicate 32 2 ++ noteToBinary 262144) := by
  dsimp only
  refine ⟨⟨?_, ?_, ?_⟩, ⟨?_, ?_⟩, ?_, ?_⟩ <;> decide +kernel

theorem validatePath_mark_changes_interval :
    let (l, r, root) := rebasedRight
    let path := shallowPath l r 262144 (List.replicate 32 2) 262144
    validatePath Sha2.sha256 root 262144 524288 (rebaseMark ++ path) .offsetRebaseSupport =
        .ok (some ⟨List.replicate 32 2, 262144, 524288⟩) ∧
      validatePath Sha2.sha256 root 262144 524288 path .offsetRebaseSupport =
        .ok (some ⟨List.replicate 32 2, 262144, 262145⟩) ∧
      Sha2.sha256.CollisionFree (hashedStrings Sha2.sha256 true (rebaseMark ++ path) ++
        hashedStrings Sha2.sha256 true path) := by
  dsimp only
  obtain ⟨⟨-, hplain, hmarked⟩, ⟨hfree, -⟩, -⟩ := validatePath_rebasedRight
  exact ⟨hmarked 262144 (by decide), hplain, hfree⟩

/-- With rebasing, a root and the marks together bind the data: the results of two
accepted paths whose marks agree on the positions they share are equal or disjoint, and
equal for equal destinations. The bounds of an accepted interval hold for all marks. -/
theorem validatePath_unique_of_marksAgree (H : Digest 32) (root : Bytes)
    (rightBound dest1 dest2 : Int) (path1 path2 : Bytes)
    (hH : H.CollisionFree (hashedStrings H true path1 ++ hashedStrings H true path2))
    (res1 res2 : DataPath)
    (h1 : validatePath H root dest1 rightBound path1 .offsetRebaseSupport = .ok (some res1))
    (h2 : validatePath H root dest2 rightBound path2 .offsetRebaseSupport = .ok (some res2)) :
    (MarksAgree (descent true (.start dest1 rightBound) path1)
        (descent true (.start dest2 rightBound) path2) →
      (dest1 = dest2 → res1 = res2) ∧
      (res1 = res2 ∨ Disjoint (Set.Ico res1.startOffset res1.endOffset)
        (Set.Ico res2.startOffset res2.endOffset))) ∧
    (0 ≤ res1.startOffset ∧ res1.startOffset < res1.endOffset ∧ res1.endOffset ≤ rightBound ∧
      res1.startOffset ≤ clampDest dest1 rightBound) :=
  ⟨fun hmarks => validatePath_binding .offsetRebaseSupport hH hmarks h1 h2, validatePath_bounds h1⟩

theorem validatePath_unique_of_marksAgree_rebasedRight :
    let (l, r, root) := rebasedRight
    let path1 := shallowPath l r 262144 (List.replicate 32 1) 262144
    let path2 := rebaseMark ++ shallowPath l r 262144 (List.replicate 32 2) 262144
    validatePath Sha2.sha256 root 0 524288 path1 .offsetRebaseSupport =
        .ok (some ⟨List.replicate 32 1, 0, 262144⟩) ∧
      validatePath Sha2.sha256 root 300000 524288 path2 .offsetRebaseSupport =
        .ok (some ⟨List.replicate 32 2, 262144, 524288⟩) ∧
      Disjoint (Set.Ico (0 : Int) 262144) (Set.Ico 262144 524288) := by
  dsimp only
  obtain ⟨⟨h1, -, hmarked⟩, ⟨-, hfree⟩, hseg1, hseg2⟩ := validatePath_rebasedRight
  have h2 := hmarked 300000 (by decide)
  have h := validatePath_unique_of_marksAgree _ _ _ _ _ _ _ hfree _ _ h1 h2
  have hmarks := h.1 (by
    rw [descent_node hseg1, descent_node hseg2]
    exact fun hturn => absurd hturn (by decide))
  exact ⟨h1, h2, hmarks.2.resolve_left (by decide)⟩

end Arweave.Merkle
