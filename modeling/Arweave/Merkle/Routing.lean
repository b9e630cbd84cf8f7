import Arweave.Merkle.Rows

/-!
# Routing of generated paths

`generatePathParts` finds the children of a node by their identifiers and subtracts the
note of the parent when it enters a rebased left child. `Aligned` says where that note is
the left bound, or where the choice does not matter because all paths below are the same.
There the generated path is the honest path, with the flags that the lookups return.
-/

namespace Arweave.Merkle
open Arweave.Lib

namespace Layout

/-- The layout without its flags, which the identifiers do not depend on. -/
def erase : Layout → Layout
  | .leaf _ data note => .leaf false data note
  | .branch _ l r note => .branch false l.erase r.erase note

/-- A perfect tree over copies of one leaf: every path through it is the same. -/
def Uniform : Layout → Prop
  | .leaf _ _ _ => True
  | .branch _ l r _ => l.erase = r.erase ∧ l.Uniform

/-- The rebased left children are entered with the right destination. The Boolean says that
the previous note is the left bound of the layout; it is so at the root and below every
right child that is not rebased. -/
def Aligned (flag : Layout → Bool) : Bool → Layout → Prop
  | _, .leaf _ _ _ => True
  | aligned, .branch _ l r _ => (flag l = true → aligned = true ∨ l.Uniform) ∧
      Aligned flag false l ∧ Aligned flag (!r.rebased) r

instance decidableUniform : (t : Layout) → Decidable t.Uniform
  | .leaf _ _ _ => isTrue trivial
  | .branch _ l r _ =>
    have := decidableUniform l
    inferInstanceAs (Decidable (l.erase = r.erase ∧ l.Uniform))

instance decidableAligned (flag : Layout → Bool) : (aligned : Bool) → (t : Layout) →
    Decidable (Aligned flag aligned t)
  | _, .leaf _ _ _ => isTrue trivial
  | _, .branch _ l r _ =>
    have := decidableAligned flag false l
    have := decidableAligned flag (!r.rebased) r
    inferInstanceAs (Decidable (_ ∧ _ ∧ _))

@[simp] lemma id_erase (H : Digest 32) (t : Layout) : t.erase.id H = t.id H := by
  induction t with
  | leaf b data note => rfl
  | branch b l r note ihl ihr => simp only [erase, id, ihl, ihr]

@[simp] lemma height_erase (t : Layout) : t.erase.height = t.height := by
  induction t with
  | leaf b data note => rfl
  | branch b l r note ihl ihr => simp only [erase, height, ihl, ihr]

lemma id_congr (H : Digest 32) {t u : Layout} (h : t.erase = u.erase) : t.id H = u.id H := by
  rw [← id_erase, h, id_erase]

lemma height_subtree_le {t u : Layout} (h : u ∈ t.subtrees) : u.height ≤ t.height := by
  induction t with
  | leaf b data note =>
    simp only [subtrees, List.mem_singleton] at h
    rw [h]
  | branch b l r note ihl ihr =>
    simp only [subtrees, List.mem_cons, List.mem_append] at h
    rcases h with rfl | h | h
    · exact le_rfl
    · exact (ihl h).trans (by simp only [height]; omega)
    · exact (ihr h).trans (by simp only [height]; omega)

lemma Uniform.congr {t u : Layout} (h : t.erase = u.erase) (ht : t.Uniform) : u.Uniform := by
  induction t generalizing u with
  | leaf b data note =>
    cases u with
    | leaf _ _ _ => trivial
    | branch _ _ _ _ => simp [erase] at h
  | branch b l r note ihl ihr =>
    cases u with
    | leaf _ _ _ => simp [erase] at h
    | branch b' l' r' note' =>
      simp only [erase, branch.injEq, true_and] at h
      exact ⟨by rw [← h.1, ht.1, h.2.1], ihl h.1 ht.2⟩

lemma Uniform.honestPath_eq (H : Digest 32) {flag : Layout → Bool}
    (hflag : ∀ t u : Layout, t.erase = u.erase → flag t = flag u) {t u : Layout}
    (h : t.erase = u.erase) (ht : t.Uniform) (lo lo' : Nat) (dest dest' : Int) :
    t.honestPath H flag lo dest = u.honestPath H flag lo' dest' := by
  induction t generalizing u lo lo' dest dest' with
  | leaf b data note =>
    cases u with
    | leaf b' data' note' =>
      simp only [erase, leaf.injEq, true_and] at h
      simp only [honestPath, h]
    | branch _ _ _ _ => simp [erase] at h
  | branch b l r note ihl ihr =>
    cases u with
    | leaf _ _ _ => simp [erase] at h
    | branch b' l' r' note' =>
      simp only [erase, branch.injEq, true_and] at h
      obtain ⟨hl, hr, rfl⟩ := h
      obtain ⟨hlr, hul⟩ := ht
      have hur : r.Uniform := hul.congr hlr
      have hlr' : l.erase = r'.erase := hlr.trans hr
      have hrl' : r.erase = l'.erase := hlr.symm.trans hl
      simp only [honestPath, id_congr H hl, id_congr H hr, ← hflag l r hlr, ← hflag l l' hl,
        ← hflag l r' hlr']
      by_cases hd : dest < note <;> by_cases hd' : dest' < note <;>
        simp only [hd, hd', if_true, if_false]
      · rw [ihl hl hul]
      · rw [ihl hlr' hul]
      · rw [ihr hrl' hur]
      · rw [ihr hr hur]

end Layout

open Layout

variable {H : Digest 32} {tree : List Node} {t : Layout}

/-- The flag that a lookup of the layout in the tree returns. -/
def foundFlag (H : Digest 32) (tree : List Node) (u : Layout) : Bool :=
  match getNode (u.id H) tree with
  | some n => n.isRebased
  | none => false

lemma foundFlag_congr {u v : Layout} (h : u.erase = v.erase) :
    foundFlag H tree u = foundFlag H tree v := by
  rw [foundFlag, id_congr H h, foundFlag]

lemma Represents.erase_eq_of_id_eq (h : Represents H tree t)
    (hH : H.CollisionFree (treeStrings H tree))
    (hnote : ∀ u ∈ t.subtrees, u.note < 256 ^ noteSize) {u v : Layout} (hu : u ∈ t.subtrees)
    (hv : v ∈ t.subtrees) (hid : u.id H = v.id H) : u.erase = v.erase := by
  induction u generalizing v with
  | leaf b data note =>
    obtain ⟨hbody, hn⟩ := h.eq_of_id_eq hH hnote hu hv hid
    cases v with
    | leaf b' data' note' =>
      simp only [toNode, NodeBody.leaf.injEq] at hbody
      simp only [erase, hbody, show note = note' from hn]
    | branch _ _ _ _ => simp [toNode] at hbody
  | branch b l r note ihl ihr =>
    obtain ⟨hbody, hn⟩ := h.eq_of_id_eq hH hnote hu hv hid
    cases v with
    | leaf _ _ _ => simp [toNode] at hbody
    | branch b' l' r' note' =>
      simp only [toNode, NodeBody.branch.injEq] at hbody
      have hsub : ∀ w, w ∈ l.subtrees ∨ w ∈ r.subtrees → w ∈ t.subtrees := fun w hw =>
        subtrees_trans hu (by simp only [subtrees, List.mem_cons, List.mem_append, hw, or_true])
      have hsub' : ∀ w, w ∈ l'.subtrees ∨ w ∈ r'.subtrees → w ∈ t.subtrees := fun w hw =>
        subtrees_trans hv (by simp only [subtrees, List.mem_cons, List.mem_append, hw, or_true])
      have hl := ihl (hsub l (.inl l.mem_subtrees_self)) (hsub' l' (.inl l'.mem_subtrees_self)) hbody.1
      have hr := ihr (hsub r (.inr r.mem_subtrees_self)) (hsub' r' (.inr r'.mem_subtrees_self)) hbody.2
      simp only [erase, hl, hr, show note = note' from hn]

lemma Represents.id_ne_of_height_lt (h : Represents H tree t)
    (hH : H.CollisionFree (treeStrings H tree))
    (hnote : ∀ u ∈ t.subtrees, u.note < 256 ^ noteSize) {u v : Layout} (hu : u ∈ t.subtrees)
    (hv : v ∈ t.subtrees) (hlt : u.height < v.height) : u.id H ≠ v.id H := by
  intro hid
  have herase := congrArg height (h.erase_eq_of_id_eq hH hnote hu hv hid)
  rw [height_erase, height_erase] at herase
  omega

section Parts

variable (h : Represents H tree t) (hH : H.CollisionFree (treeStrings H tree))
  (hnote : ∀ u ∈ t.subtrees, u.note < 256 ^ noteSize)
include h hH hnote

lemma generatePathParts_leaf {b : Bool} {data : Bytes} {note : Nat}
    (hu : .leaf b data note ∈ t.subtrees) (fuel : Nat) (dest : Int) (prevNote : Nat) :
    generatePathParts tree (fuel + 1) ((Layout.leaf b data note).id H) dest prevNote =
      some [data, noteToBinary note] := by
  obtain ⟨v, -, hget, -, hbody, hn⟩ := h.getNode hH hnote hu
  have hbody' : (v.toNode H).body = .leaf data := hbody
  have hn' : v.note = note := hn
  simp only [generatePathParts, hget, Option.bind_eq_bind, Option.bind_some, hbody', toNode_note, hn']

lemma generatePathParts_branch {b : Bool} {l r : Layout} {note : Nat}
    (hu : .branch b l r note ∈ t.subtrees) (fuel : Nat) (dest : Int) (prevNote : Nat) :
    generatePathParts tree (fuel + 1) ((Layout.branch b l r note).id H) dest prevNote =
      if dest < note then
        (generatePathParts tree fuel (l.id H)
          (if foundFlag H tree l then dest - prevNote else dest) note).map
          ([if foundFlag H tree l then rebaseMark else [], l.id H, r.id H, noteToBinary note] ++ ·)
      else
        (generatePathParts tree fuel (r.id H)
          (if foundFlag H tree r then dest - note else dest) note).map
          ([if foundFlag H tree r then rebaseMark else [], l.id H, r.id H, noteToBinary note] ++ ·) := by
  obtain ⟨v, -, hget, -, hbody, hn⟩ := h.getNode hH hnote hu
  have hbody' : (v.toNode H).body = .branch (l.id H) (r.id H) := hbody
  have hn' : v.note = note := hn
  have hsub : ∀ w, w ∈ l.subtrees ∨ w ∈ r.subtrees → w ∈ t.subtrees := fun w hw =>
    subtrees_trans hu (by simp only [subtrees, List.mem_cons, List.mem_append, hw, or_true])
  obtain ⟨vl, -, hgetl, -⟩ := h.getNode hH hnote (hsub l (.inl l.mem_subtrees_self))
  obtain ⟨vr, -, hgetr, -⟩ := h.getNode hH hnote (hsub r (.inr r.mem_subtrees_self))
  have hflagl : foundFlag H tree l = vl.rebased := by simp only [foundFlag, hgetl, toNode_isRebased]
  have hflagr : foundFlag H tree r = vr.rebased := by simp only [foundFlag, hgetr, toNode_isRebased]
  by_cases hd : dest < note
  · simp only [generatePathParts, hget, hbody', toNode_note, hn', hd, if_true,
      hgetl, hflagl, Option.bind_eq_bind, Option.bind_some, toNode_isRebased]
    cases vl.rebased <;> simp [Option.map_eq_bind]
  · simp only [generatePathParts, hget, hbody', toNode_note, hn', hd, if_false,
      hgetr, hflagr, Option.bind_eq_bind, Option.bind_some, toNode_isRebased]
    cases vr.rebased <;> simp [Option.map_eq_bind]

lemma generatePathParts_uniform {u : Layout} (hu : u ∈ t.subtrees) (hun : u.Uniform) {fuel : Nat}
    (hfuel : u.height ≤ fuel) (dest dest' : Int) (lo prevNote : Nat) :
    ∃ parts, generatePathParts tree fuel (u.id H) dest prevNote = some parts ∧
      parts.flatten = u.honestPath H (foundFlag H tree) lo dest' := by
  induction u generalizing fuel dest dest' lo prevNote with
  | leaf b data note =>
    obtain ⟨fuel, rfl⟩ := Nat.exists_eq_add_of_le' hfuel
    exact ⟨_, generatePathParts_leaf h hH hnote hu fuel dest prevNote, by simp [honestPath]⟩
  | branch b l r note ihl ihr =>
    have hheight : 1 ≤ fuel := le_trans (by simp [height]) hfuel
    obtain ⟨fuel, rfl⟩ := Nat.exists_eq_add_of_le' hheight
    simp only [height] at hfuel
    have hfuell : l.height ≤ fuel := by omega
    have hfuelr : r.height ≤ fuel := by omega
    have hml : l ∈ t.subtrees := subtrees_trans hu (by simp [subtrees, mem_subtrees_self])
    have hmr : r ∈ t.subtrees := subtrees_trans hu (by simp [subtrees, mem_subtrees_self])
    have hflag : ∀ u v : Layout, u.erase = v.erase → foundFlag H tree u = foundFlag H tree v :=
      fun u v => foundFlag_congr
    rw [hun.honestPath_eq H hflag rfl lo lo dest' dest, generatePathParts_branch h hH hnote hu,
      honestPath]
    by_cases hd : dest < note
    · obtain ⟨parts, hp, hflat⟩ := ihl hml hun.2 hfuell
        (if foundFlag H tree l then dest - prevNote else dest) (dest - l.base lo) (lo - l.base lo) note
      rw [if_pos hd, if_pos hd, hp]
      exact ⟨_, rfl, by simp [hflat]⟩
    · obtain ⟨parts, hp, hflat⟩ := ihr hmr (hun.2.congr hun.1) hfuelr
        (if foundFlag H tree r then dest - note else dest) (dest - r.base note) (note - r.base note) note
      rw [if_neg hd, if_neg hd, hp]
      exact ⟨_, rfl, by simp [hflat]⟩

/-- The generator opens the honest path, with the flags that its lookups return. -/
lemma generatePathParts_honestPath {u : Layout} (hu : u ∈ t.subtrees) {aligned : Bool} {lo : Nat}
    (hfit : FlagsFit (foundFlag H tree) u lo) (halign : Aligned (foundFlag H tree) aligned u)
    {fuel : Nat} (hfuel : u.height ≤ fuel) (dest : Int) {prevNote : Nat}
    (hprev : aligned = true → prevNote = lo) :
    ∃ parts, generatePathParts tree fuel (u.id H) dest prevNote = some parts ∧
      parts.flatten = u.honestPath H (foundFlag H tree) lo dest := by
  induction u generalizing aligned lo fuel dest prevNote with
  | leaf b data note =>
    obtain ⟨fuel, rfl⟩ := Nat.exists_eq_add_of_le' hfuel
    exact ⟨_, generatePathParts_leaf h hH hnote hu fuel dest prevNote, by simp [honestPath]⟩
  | branch b l r note ihl ihr =>
    have hheight : 1 ≤ fuel := le_trans (by simp [height]) hfuel
    obtain ⟨fuel, rfl⟩ := Nat.exists_eq_add_of_le' hheight
    simp only [height] at hfuel
    have hfuell : l.height ≤ fuel := by omega
    have hfuelr : r.height ≤ fuel := by omega
    have hml : l ∈ t.subtrees := subtrees_trans hu (by simp [subtrees, mem_subtrees_self])
    have hmr : r ∈ t.subtrees := subtrees_trans hu (by simp [subtrees, mem_subtrees_self])
    obtain ⟨hfl, hfr, hfitl, hfitr⟩ := hfit
    obtain ⟨hroute, hal, har⟩ := halign
    rw [generatePathParts_branch h hH hnote hu, honestPath]
    by_cases hd : dest < note
    · suffices hrec : ∃ parts, generatePathParts tree fuel (l.id H)
          (if foundFlag H tree l then dest - prevNote else dest) note = some parts ∧
          parts.flatten = l.honestPath H (foundFlag H tree) (lo - l.base lo) (dest - l.base lo) by
        obtain ⟨parts, hp, hflat⟩ := hrec
        rw [if_pos hd, if_pos hd, hp]
        exact ⟨_, rfl, by simp [hflat]⟩
      by_cases hun : l.Uniform
      · exact generatePathParts_uniform h hH hnote hml hun hfuell _ _ _ _
      · have hdest : (if foundFlag H tree l then dest - prevNote else dest) = dest - l.base lo := by
          cases hb : foundFlag H tree l
          · rcases hfl with hfl | rfl
            · simp [base, ← hfl, hb]
            · simp [base]
          · have hlo := hprev ((hroute hb).resolve_right hun)
            rcases hfl with hfl | rfl
            · simp [base, ← hfl, hb, hlo]
            · simp [base, hlo]
        rw [hdest]
        exact ihl hml hfitl hal hfuell _ (by simp)
    · have hdest : (if foundFlag H tree r then dest - note else dest) = dest - r.base note := by
        rcases hfr with hfr | rfl
        · rw [hfr, base]
          split_ifs <;> simp
        · simp [base]
      have hnext : (!r.rebased) = true → note = note - r.base note := fun hr => by
        simp only [Bool.not_eq_true'] at hr
        simp [base, hr]
      rw [hdest]
      obtain ⟨parts, hp, hflat⟩ := ihr hmr hfitr har hfuelr (dest - r.base note) hnext
      rw [if_neg hd, if_neg hd, hp]
      exact ⟨_, rfl, by simp [hflat]⟩

/-- The path for a destination is the honest path. -/
theorem generatePath_honestPath (hfit : FlagsFit (foundFlag H tree) t 0)
    (halign : Aligned (foundFlag H tree) true t) (dest : Int) :
    generatePath (t.id H) dest tree = some (t.honestPath H (foundFlag H tree) 0 dest) := by
  obtain ⟨parts, hp, hflat⟩ := generatePathParts_honestPath h hH hnote t.mem_subtrees_self hfit halign
    (h.height_le) dest (fun _ => rfl)
  rw [generatePath, hp, Option.map_some, hflat]

end Parts

end Arweave.Merkle
