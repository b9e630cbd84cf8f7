import Arweave.Merkle.RoundTrip

/-!
# Served destinations

In a tree of full chunks, the generator serves a subtree when it finds for every
destination a path that the validator accepts and that covers the destination. A served
tree has fitting flags and is aligned: a wrongly marked or misrouted path meets a foreign
identifier or ends before the destination. A path that went the wrong way is accepted only
where both ways lead to the same contents, so below a loss everything is uniform.
-/

namespace Arweave.Merkle
open Arweave.Lib Layout

namespace Layout

/-- The layout covers the offsets from `lo` to `hi` with full chunks. -/
def Full (t : Layout) (lo hi : Nat) : Prop :=
  t.Spans lo hi ∧ ∀ x ∈ t.chunks lo hi, x.stop = x.start + dataChunkSize

lemma Full.leaf {b : Bool} {data : Bytes} {note lo hi : Nat} (h : (Layout.leaf b data note).Full lo hi) :
    note = hi ∧ hi = lo + dataChunkSize :=
  ⟨h.1.1, h.2 ⟨data, lo, hi⟩ (by simp [chunks])⟩

lemma Full.branch {b : Bool} {l r : Layout} {note lo hi : Nat}
    (h : (Layout.branch b l r note).Full lo hi) :
    l.Full (lo - l.base lo) (note - l.base lo) ∧ r.Full (note - r.base note) (hi - r.base note) := by
  obtain ⟨⟨h1, h2, hl, hr⟩, hchunks⟩ := h
  refine ⟨⟨hl, fun x hx => ?_⟩, hr, fun x hx => ?_⟩
  · have := hchunks (x.shift (l.base lo)) (by
      simp only [chunks, List.mem_append]
      exact .inl (List.mem_map_of_mem hx))
    simp only [Chunk.shift] at this
    omega
  · have := hchunks (x.shift (r.base note)) (by
      simp only [chunks, List.mem_append]
      exact .inr (List.mem_map_of_mem hx))
    simp only [Chunk.shift] at this
    omega

lemma Full.le {t : Layout} {lo hi : Nat} (h : t.Full lo hi) : lo + dataChunkSize ≤ hi := by
  induction t generalizing lo hi with
  | leaf b data note => exact h.leaf.2.ge
  | branch b l r note ihl ihr =>
    have h1 := ihl h.branch.1
    have h2 := h.1.2.1
    have h3 := l.base_le lo
    have h4 := h.1.1
    omega

lemma Full.note {b : Bool} {l r : Layout} {note lo hi : Nat}
    (h : (Layout.branch b l r note).Full lo hi) :
    lo + dataChunkSize ≤ note ∧ note + dataChunkSize ≤ hi := by
  have h1 := h.branch.1.le
  have h2 := h.branch.2.le
  have h3 := l.base_le lo
  have h4 := r.base_le note
  have h5 := h.1.1
  have h6 := h.1.2.1
  omega

lemma Full.bounds_eq {t u : Layout} {lo hi lo' hi' : Nat} (ht : t.Full lo hi) (hu : u.Full lo' hi')
    (h : t.erase = u.erase) : lo = lo' ∧ hi = hi' := by
  induction t generalizing u lo hi lo' hi' with
  | leaf b data note =>
    cases u with
    | leaf b' data' note' =>
      simp only [erase, Layout.leaf.injEq, true_and] at h
      have h1 := ht.leaf
      have h2 := hu.leaf
      omega
    | branch _ _ _ _ => simp [erase] at h
  | branch b l r note ihl ihr =>
    cases u with
    | leaf _ _ _ => simp [erase] at h
    | branch b' l' r' note' =>
      simp only [erase, Layout.branch.injEq, true_and] at h
      obtain ⟨hl, hr, rfl⟩ := h
      have h1 := ihl ht.branch.1 hu.branch.1 hl
      have h2 := ihr ht.branch.2 hu.branch.2 hr
      have h3 := l.base_le lo
      have h4 := l'.base_le lo'
      have h5 := r.base_le note
      have h6 := r'.base_le note
      have h7 := ht.note
      have h8 := hu.note
      omega

lemma Full.subtree {t u : Layout} {lo hi : Nat} (ht : t.Full lo hi) (hlo : t.rebased = true → lo = 0)
    (hu : u ∈ t.subtrees) : ∃ lo' hi', u.Full lo' hi' ∧ (u.rebased = true → lo' = 0) := by
  induction t generalizing lo hi with
  | leaf b data note =>
    obtain rfl := List.mem_singleton.mp hu
    exact ⟨lo, hi, ht, hlo⟩
  | branch b l r note ihl ihr =>
    simp only [subtrees, List.mem_cons, List.mem_append] at hu
    rcases hu with rfl | hu | hu
    · exact ⟨lo, hi, ht, hlo⟩
    · exact ihl ht.branch.1 (fun hb => by simp [base, hb]) hu
    · exact ihr ht.branch.2 (fun hb => by simp [base, hb]) hu

lemma base_eq_iff {t u : Layout} {lo : Nat} (hlo : lo ≠ 0) (h : t.base lo = u.base lo) :
    t.rebased = u.rebased := by
  unfold base at h
  cases ht : t.rebased <;> cases hu : u.rebased <;> simp_all

/-- Whether flags fit depends on the contents only. -/
lemma FlagsFit.congr {flag : Layout → Bool}
    (hflag : ∀ t u : Layout, t.erase = u.erase → flag t = flag u) {t u : Layout} {lo hi : Nat}
    (ht : t.Full lo hi) (hu : u.Full lo hi) (h : t.erase = u.erase) (hfit : FlagsFit flag t lo) :
    FlagsFit flag u lo := by
  induction t generalizing u lo hi with
  | leaf b data note =>
    cases u with
    | leaf _ _ _ => trivial
    | branch _ _ _ _ => simp [erase] at h
  | branch b l r note ihl ihr =>
    cases u with
    | leaf _ _ _ => simp [erase] at h
    | branch b' l' r' note' =>
      simp only [erase, Layout.branch.injEq, true_and] at h
      obtain ⟨hl, hr, rfl⟩ := h
      obtain ⟨hfl, hfr, hfitl, hfitr⟩ := hfit
      have h1 := ht.branch.1.bounds_eq hu.branch.1 hl
      have h2 := ht.branch.2.bounds_eq hu.branch.2 hr
      have h3 := l.base_le lo
      have h4 := l'.base_le lo
      have h5 := r.base_le note
      have h6 := r'.base_le note
      have h7 := ht.note
      have hbl : l.base lo = l'.base lo := by omega
      have hbr : r.base note = r'.base note := by omega
      have hul := hu.branch.1
      have hur := hu.branch.2
      rw [← hbl] at hul
      rw [← hbr] at hur
      refine ⟨?_, ?_, ?_, ?_⟩
      · by_cases hlo : lo = 0
        · exact .inr hlo
        · rw [← hflag l l' hl, ← base_eq_iff hlo hbl]
          exact hfl
      · have hnote : note ≠ 0 := by
          have : 0 < dataChunkSize := by decide
          omega
        rw [← hflag r r' hr, ← base_eq_iff hnote hbr]
        exact hfr
      · rw [← hbl]
        exact ihl ht.branch.1 hul hl hfitl
      · rw [← hbr]
        exact ihr ht.branch.2 hur hr hfitr

lemma Uniform.aligned {flag : Layout → Bool} {t : Layout} (h : t.Uniform) (aligned : Bool) :
    Aligned flag aligned t := by
  induction t generalizing aligned with
  | leaf b data note => trivial
  | branch b l r note ihl ihr => exact ⟨fun _ => .inr h.2, ihl h.2 _, ihr (h.2.congr h.1) _⟩

end Layout

namespace Cursor

variable {c : Cursor} {note : Nat}

lemma step_of_not_lt (m : Bool) (h : ¬c.dest < note) :
    (c.step m note).leftBound = (if m then 0 else max c.leftBound note) ∧
    (c.step m note).rightBound = c.rightBound - (if m then max c.leftBound note else 0) ∧
    (c.step m note).dest = c.dest - (if m then max c.leftBound note else 0) ∧
    (c.step m note).leftBoundShift = c.leftBoundShift + (if m then max c.leftBound note else 0) := by
  cases m <;> simp [step, rebase, descend, h]

lemma step_of_lt (m : Bool) (h : c.dest < note) :
    (c.step m note).leftBound = (if m then 0 else c.leftBound) ∧
    (c.step m note).rightBound = min c.rightBound note - (if m then c.leftBound else 0) ∧
    (c.step m note).dest = c.dest - (if m then c.leftBound else 0) ∧
    (c.step m note).leftBoundShift = c.leftBoundShift + (if m then c.leftBound else 0) := by
  cases m <;> simp [step, rebase, descend, h]

end Cursor

/-- The paths that can be generated below a layout: at every branch either child, marked with
the flag of that child. -/
def PathOf (H : Digest 32) (flag : Layout → Bool) : Layout → Bytes → Prop
  | .leaf _ data note, path => path = data ++ noteToBinary note
  | .branch _ l r note, path =>
    (∃ rest, PathOf H flag l rest ∧
      path = (if flag l then rebaseMark else []) ++ l.id H ++ r.id H ++ noteToBinary note ++ rest) ∨
    (∃ rest, PathOf H flag r rest ∧
      path = (if flag r then rebaseMark else []) ++ l.id H ++ r.id H ++ noteToBinary note ++ rest)

lemma PathOf.congr {H : Digest 32} {flag : Layout → Bool}
    (hflag : ∀ t u : Layout, t.erase = u.erase → flag t = flag u) {t u : Layout} {path : Bytes}
    (h : t.erase = u.erase) (hp : PathOf H flag t path) : PathOf H flag u path := by
  induction t generalizing u path with
  | leaf b data note =>
    cases u with
    | leaf b' data' note' =>
      simp only [erase, leaf.injEq, true_and] at h
      obtain ⟨rfl, rfl⟩ := h
      exact hp
    | branch _ _ _ _ => simp [erase] at h
  | branch b l r note ihl ihr =>
    cases u with
    | leaf _ _ _ => simp [erase] at h
    | branch b' l' r' note' =>
      simp only [erase, branch.injEq, true_and] at h
      obtain ⟨hl, hr, rfl⟩ := h
      rw [PathOf, id_congr H hl, id_congr H hr, hflag l l' hl, hflag r r' hr] at hp
      rcases hp with ⟨rest, hp, rfl⟩ | ⟨rest, hp, rfl⟩
      · exact .inl ⟨rest, ihl hl hp, rfl⟩
      · exact .inr ⟨rest, ihr hr hp, rfl⟩

section Necessity

variable {H : Digest 32} {tree : List Node} {t : Layout} {size : Nat} {checks : Checks} {dataSize : Int}

/-- Every destination of the window gets a path that covers it, when the generator has
lost `delta` on the way. -/
def Served (H : Digest 32) (tree : List Node) (checks : Checks) (dataSize : Int) (u : Layout)
    (lo hi prevNote : Nat) (delta : Int) : Prop :=
  ∀ dest : Int, lo ≤ dest → dest < hi → ∃ fuel parts, ∃ c : Cursor, ∃ res : DataPath,
    generatePathParts tree fuel (u.id H) (dest - delta) prevNote = some parts ∧
    c.leftBound = lo ∧ c.rightBound = hi ∧ c.dest = dest ∧
    validatePathFrom H checks dataSize (u.id H) c parts.flatten = some res ∧
    c.leftBoundShift + dest < res.endOffset

/-- A tree of full chunks whose identifiers do not collide and do not read as a mark. -/
structure FullTree (H : Digest 32) (tree : List Node) (t : Layout) (size : Nat) : Prop where
  represents : Represents H tree t
  collisionFree : H.CollisionFree (treeStrings H tree)
  full : t.Full 0 size
  size_lt : size < 256 ^ noteSize
  length_data : ∀ b data note, .leaf b data note ∈ t.subtrees → data.length = 32
  id_ne : ∀ u ∈ t.subtrees, u.id H ≠ rebaseMark

namespace FullTree

variable (h : FullTree H tree t size)
include h

lemma note_lt : ∀ u ∈ t.subtrees, u.note < 256 ^ noteSize := fun _ hu =>
  (h.full.1.note_le hu).trans_lt h.size_lt

lemma exists_foundFlag {u : Layout} (hu : u ∈ t.subtrees) :
    ∃ v ∈ t.subtrees, v.erase = u.erase ∧ foundFlag H tree u = v.rebased := by
  obtain ⟨v, hv, hget, hid, -⟩ := h.represents.getNode h.collisionFree h.note_lt hu
  exact ⟨v, hv, h.represents.erase_eq_of_id_eq h.collisionFree h.note_lt hv hu hid,
    by simp only [foundFlag, hget, toNode_isRebased]⟩

lemma start_eq_zero_of_foundFlag {u : Layout} {lo hi : Nat} (hu : u ∈ t.subtrees) (hfull : u.Full lo hi)
    (hflag : foundFlag H tree u = true) : lo = 0 := by
  obtain ⟨v, hv, herase, hfound⟩ := h.exists_foundFlag hu
  obtain ⟨lo', hi', hvfull, hstart⟩ := h.full.subtree (fun _ => rfl) hv
  rw [(hfull.bounds_eq hvfull herase.symm).1]
  exact hstart (hfound ▸ hflag)

lemma pathOf_generatePathParts {u : Layout} (hu : u ∈ t.subtrees) {fuel : Nat} {dest : Int}
    {prevNote : Nat} {parts : List Bytes}
    (hgen : generatePathParts tree fuel (u.id H) dest prevNote = some parts) :
    PathOf H (foundFlag H tree) u parts.flatten := by
  induction u generalizing fuel dest prevNote parts with
  | leaf b data note =>
    cases fuel with
    | zero => simp [generatePathParts] at hgen
    | succ fuel =>
      rw [generatePathParts_leaf h.represents h.collisionFree h.note_lt hu] at hgen
      cases hgen
      simp [PathOf]
  | branch b l r note ihl ihr =>
    cases fuel with
    | zero => simp [generatePathParts] at hgen
    | succ fuel =>
      have hml : l ∈ t.subtrees := subtrees_trans hu (by simp [subtrees, mem_subtrees_self])
      have hmr : r ∈ t.subtrees := subtrees_trans hu (by simp [subtrees, mem_subtrees_self])
      rw [generatePathParts_branch h.represents h.collisionFree h.note_lt hu] at hgen
      split_ifs at hgen <;> obtain ⟨rest, hrest, rfl⟩ := Option.map_eq_some_iff.mp hgen
      all_goals first
        | exact .inl ⟨rest.flatten, ihl hml hrest, by simp [*]⟩
        | exact .inr ⟨rest.flatten, ihr hmr hrest, by simp [*]⟩

lemma length_ge_of_pathOf {u : Layout} (hu : u ∈ t.subtrees) {flag : Layout → Bool} {path : Bytes}
    (hp : PathOf H flag u path) : 64 ≤ path.length := by
  cases u with
  | leaf b data note =>
    rw [PathOf] at hp
    simp [hp, h.length_data b data note hu]
  | branch b l r note =>
    rcases hp with ⟨rest, -, rfl⟩ | ⟨rest, -, rfl⟩ <;> simp <;> omega

variable (hallow : checks.allowRebase = true)
include hallow

lemma id_eq_of_accepted {u : Layout} (hu : u ∈ t.subtrees) {flag : Layout → Bool} {id path : Bytes}
    {c : Cursor} {res : DataPath} (hp : PathOf H flag u path)
    (hv : validatePathFrom H checks dataSize id c path = some res) : u.id H = id := by
  cases u with
  | leaf b data note =>
    have hnote : note < 256 ^ noteSize := h.note_lt _ hu
    rw [PathOf] at hp
    rw [hp, validatePathFrom_leaf (segment_leafPath _ (h.length_data b data note hu) hnote)] at hv
    simp only [validateLeaf] at hv
    split_ifs at hv with h1 h2
    exact h2
  | branch b l r note =>
    have hnote : note < 256 ^ noteSize := h.note_lt _ hu
    have hsub : ∀ w, w = l ∨ w = r → w ∈ t.subtrees := by
      rintro w (rfl | rfl) <;> exact subtrees_trans hu (by simp [subtrees, mem_subtrees_self])
    rcases hp with ⟨rest, hrest, rfl⟩ | ⟨rest, hrest, rfl⟩
    all_goals
      rw [validatePathFrom_node (segment_nodePath (by simp) (by simp) hnote
        (h.length_ge_of_pathOf (hsub _ (by simp)) hrest) (fun _ => hallow)
        (fun _ => h.id_ne l (hsub l (.inl rfl))))] at hv
      split_ifs at hv with h1
      exact h1

lemma accepted_branch {b : Bool} {l r w : Layout} {note : Nat} (hu : .branch b l r note ∈ t.subtrees)
    (hw : w = l ∨ w = r) {flag : Layout → Bool} {id rest : Bytes} {c : Cursor} {res : DataPath}
    (hrest : PathOf H flag w rest)
    (hv : validatePathFrom H checks dataSize id c ((if flag w then rebaseMark else []) ++ l.id H ++
      r.id H ++ noteToBinary note ++ rest) = some res) :
    w.id H = (if c.dest < note then l else r).id H ∧
      validatePathFrom H checks dataSize ((if c.dest < note then l else r).id H) (c.step (flag w) note)
        rest = some res := by
  have hml : l ∈ t.subtrees := subtrees_trans hu (by simp [subtrees, mem_subtrees_self])
  have hmr : r ∈ t.subtrees := subtrees_trans hu (by simp [subtrees, mem_subtrees_self])
  have hmw : w ∈ t.subtrees := by rcases hw with rfl | rfl <;> assumption
  have hnote : note < 256 ^ noteSize := h.note_lt _ hu
  rw [validatePathFrom_node (segment_nodePath (by simp) (by simp) hnote
    (h.length_ge_of_pathOf hmw hrest) (fun _ => hallow) (fun _ => h.id_ne l hml))] at hv
  split_ifs at hv with h1
  have hchild : c.child (l.id H) (r.id H) note = (if c.dest < note then l else r).id H := by
    unfold Cursor.child
    split_ifs <;> rfl
  rw [hchild] at hv
  exact ⟨h.id_eq_of_accepted hallow hmw hrest hv, hv⟩

lemma accepted_child {b : Bool} {l r w : Layout} {note : Nat} (hu : .branch b l r note ∈ t.subtrees)
    {id path : Bytes} {c : Cursor} {res : DataPath} (hw : w = if c.dest < note then l else r)
    (hp : PathOf H (foundFlag H tree) (.branch b l r note) path)
    (hv : validatePathFrom H checks dataSize id c path = some res) :
    ∃ rest, PathOf H (foundFlag H tree) w rest ∧
      validatePathFrom H checks dataSize (w.id H) (c.step (foundFlag H tree w) note) rest =
        some res := by
  have hml : l ∈ t.subtrees := subtrees_trans hu (by simp [subtrees, mem_subtrees_self])
  have hmr : r ∈ t.subtrees := subtrees_trans hu (by simp [subtrees, mem_subtrees_self])
  have hmw : w ∈ t.subtrees := by
    rw [hw]
    split_ifs <;> assumption
  have hcongr : ∀ u v : Layout, u.erase = v.erase → foundFlag H tree u = foundFlag H tree v :=
    fun _ _ => foundFlag_congr
  rcases hp with ⟨rest, hrest, rfl⟩ | ⟨rest, hrest, rfl⟩
  · obtain ⟨hid, hv⟩ := h.accepted_branch hallow hu (.inl rfl) hrest hv
    rw [← hw] at hid hv
    have herase := h.represents.erase_eq_of_id_eq h.collisionFree h.note_lt hml hmw hid
    rw [hcongr l w herase] at hv
    exact ⟨rest, hrest.congr hcongr herase, hv⟩
  · obtain ⟨hid, hv⟩ := h.accepted_branch hallow hu (.inr rfl) hrest hv
    rw [← hw] at hid hv
    have herase := h.represents.erase_eq_of_id_eq h.collisionFree h.note_lt hmr hmw hid
    rw [hcongr r w herase] at hv
    exact ⟨rest, hrest.congr hcongr herase, hv⟩

/-- In a window that reaches beyond the contents, the last destination is not covered. -/
lemma not_covered_of_window_too_far {u : Layout} (hu : u ∈ t.subtrees) {lo hi : Nat}
    (hfull : u.Full lo hi) {path : Bytes} {c : Cursor} {res : DataPath}
    (hp : PathOf H (foundFlag H tree) u path) (hdest : c.dest = c.rightBound - 1)
    (hright : (hi : Int) < c.rightBound) (hwindow : (hi : Int) - lo ≤ c.rightBound - c.leftBound)
    (hv : validatePathFrom H checks dataSize (u.id H) c path = some res) :
    res.endOffset ≤ c.leftBoundShift + c.dest := by
  have hchunk : 1 < dataChunkSize := by decide
  induction u generalizing lo hi path c with
  | leaf b data note =>
    have hnote : note < 256 ^ noteSize := h.note_lt _ hu
    rw [PathOf] at hp
    rw [hp, validatePathFrom_leaf (segment_leafPath _ (h.length_data b data note hu) hnote)] at hv
    simp only [validateLeaf] at hv
    split_ifs at hv
    cases hv
    have h1 := hfull.leaf
    simp only
    omega
  | branch b l r note ihl ihr =>
    have hmr : r ∈ t.subtrees := subtrees_trans hu (by simp [subtrees, mem_subtrees_self])
    have hnote := hfull.note
    have hnd : ¬c.dest < note := by omega
    have hfr := hfull.branch.2
    have hbase := r.base_le note
    obtain ⟨rest, hrest, hv⟩ := h.accepted_child hallow hu (if_neg hnd).symm hp hv
    obtain ⟨e1, e2, e3, e4⟩ := Cursor.step_of_not_lt (foundFlag H tree r) hnd
    have hstart : foundFlag H tree r = true → note - r.base note = 0 :=
      h.start_eq_zero_of_foundFlag hmr hfr
    have hrec := ihr hmr hfr hrest (c := c.step (foundFlag H tree r) note)
    rw [e1, e2, e3, e4] at hrec
    cases hflag : foundFlag H tree r with
    | false =>
      simp only [hflag, Bool.false_eq_true, if_false] at hrec hv
      have := hrec (by omega) (by omega) (by omega) hv
      omega
    | true =>
      have hzero := hstart hflag
      simp only [hflag, if_true] at hrec hv
      have := hrec (by omega) (by omega) (by omega) hv
      omega

section Branch

variable {b : Bool} {l r : Layout} {note lo hi prevNote : Nat} {delta : Int}
  (hu : .branch b l r note ∈ t.subtrees) (hfull : (Layout.branch b l r note).Full lo hi)
  (hserved : Served H tree checks dataSize (.branch b l r note) lo hi prevNote delta)
include hu hfull hserved

lemma Served.foundFlag_left : foundFlag H tree l = l.rebased ∨ lo = 0 := by
  have hml : l ∈ t.subtrees := subtrees_trans hu (by simp [subtrees, mem_subtrees_self])
  have hchunk : 0 < dataChunkSize := by decide
  have hnote := hfull.note
  have hfl := hfull.branch.1
  by_contra hne
  push Not at hne
  obtain ⟨hflag, hlo⟩ := hne
  cases hfound : foundFlag H tree l with
  | true =>
    have hzero := h.start_eq_zero_of_foundFlag hml hfl hfound
    have hbase : l.base lo = 0 := by
      have : l.rebased = false := by simpa [hfound] using hflag
      simp [base, this]
    omega
  | false =>
    have hb : l.rebased = true := by simpa [hfound] using hflag.symm
    have hbase : l.base lo = lo := by simp [base, hb]
    obtain ⟨fuel, parts, c, res, hgen, hleft, hright, hdest, hv, hcover⟩ :=
      hserved (note - 1) (by omega) (by omega)
    have hlt : c.dest < note := by omega
    obtain ⟨rest, hrest, hv⟩ := h.accepted_child hallow hu (if_pos hlt).symm
      (h.pathOf_generatePathParts hu hgen) hv
    rw [hfound] at hv
    obtain ⟨e1, e2, e3, e4⟩ := Cursor.step_of_lt false hlt
    simp only [Bool.false_eq_true, if_false] at e1 e2 e3 e4
    have hover := h.not_covered_of_window_too_far hallow hml hfl hrest (by omega) (by omega) (by omega) hv
    omega

lemma Served.foundFlag_right : foundFlag H tree r = r.rebased := by
  have hmr : r ∈ t.subtrees := subtrees_trans hu (by simp [subtrees, mem_subtrees_self])
  have hchunk : 0 < dataChunkSize := by decide
  have hnote := hfull.note
  have hfr := hfull.branch.2
  by_contra hflag
  cases hfound : foundFlag H tree r with
  | true =>
    have hzero := h.start_eq_zero_of_foundFlag hmr hfr hfound
    have hbase : r.base note = 0 := by
      have : r.rebased = false := by simpa [hfound] using hflag
      simp [base, this]
    omega
  | false =>
    have hb : r.rebased = true := by simpa [hfound] using hflag
    have hbase : r.base note = note := by simp [base, hb]
    obtain ⟨fuel, parts, c, res, hgen, hleft, hright, hdest, hv, hcover⟩ :=
      hserved (hi - 1) (by omega) (by omega)
    have hlt : ¬c.dest < note := by omega
    obtain ⟨rest, hrest, hv⟩ := h.accepted_child hallow hu (if_neg hlt).symm
      (h.pathOf_generatePathParts hu hgen) hv
    rw [hfound] at hv
    obtain ⟨e1, e2, e3, e4⟩ := Cursor.step_of_not_lt false hlt
    simp only [Bool.false_eq_true, if_false] at e1 e2 e3 e4
    have hover := h.not_covered_of_window_too_far hallow hmr hfr hrest (by omega) (by omega) (by omega) hv
    omega

/-- The loss grows when the generator subtracts a previous note to the right of the left
bound. -/
lemma Served.left (hdelta : 0 ≤ delta) (hfit : foundFlag H tree l = l.rebased ∨ lo = 0) :
    Served H tree checks dataSize l (lo - l.base lo) (note - l.base lo) note
      (delta + if foundFlag H tree l then (prevNote : Int) - lo else 0) := by
  have hnote := hfull.note
  have hbase := l.base_le lo
  intro dest hlo hhi
  obtain ⟨fuel, parts, c, res, hgen, hleft, hright, hdest, hv, hcover⟩ :=
    hserved (dest + l.base lo) (by omega) (by omega)
  have hlt : c.dest < note := by omega
  cases fuel with
  | zero => simp [generatePathParts] at hgen
  | succ fuel =>
    have hml : l ∈ t.subtrees := subtrees_trans hu (by simp [subtrees, mem_subtrees_self])
    rw [generatePathParts_branch h.represents h.collisionFree h.note_lt hu, if_pos (by omega)] at hgen
    obtain ⟨rest, hrest, rfl⟩ := Option.map_eq_some_iff.mp hgen
    have hrestPath := h.pathOf_generatePathParts hml hrest
    have hv' := (h.accepted_branch hallow hu (.inl rfl) hrestPath (c := c) (by simpa using hv)).2
    rw [if_pos hlt] at hv'
    obtain ⟨e1, e2, e3, e4⟩ := Cursor.step_of_lt (foundFlag H tree l) hlt
    have hshift : (if foundFlag H tree l then c.leftBound else 0) = l.base lo := by
      rcases hfit with hfit | rfl
      · rw [hfit, hleft, base]
        split_ifs <;> rfl
      · simp [hleft, base]
    have horigin : (if foundFlag H tree l then (0 : Int) else c.leftBound) = lo - l.base lo := by
      rcases hfit with hfit | rfl
      · rw [hfit, hleft, base]
        split_ifs <;> simp
      · simp [hleft, base]
    have hgenDest : (if foundFlag H tree l then dest + l.base lo - delta - prevNote
        else dest + l.base lo - delta) =
        dest - (delta + if foundFlag H tree l then (prevNote : Int) - lo else 0) := by
      rw [← hshift, hleft]
      split_ifs <;> ring
    rw [hgenDest] at hrest
    rw [hshift] at e2 e3 e4
    rw [horigin] at e1
    clear hshift horigin hgenDest
    refine ⟨fuel, rest, c.step (foundFlag H tree l) note, res, hrest, ?_, ?_, ?_, hv', ?_⟩
    · rw [e1]
      omega
    · rw [e2]
      omega
    · rw [e3]
      omega
    · rw [e4]
      omega

/-- Nothing is lost at a right child, whose origin is the note. -/
lemma Served.right (hdelta : delta = 0) (hfit : foundFlag H tree r = r.rebased) :
    Served H tree checks dataSize r (note - r.base note) (hi - r.base note) note 0 := by
  have hnote := hfull.note
  have hbase := r.base_le note
  intro dest hlo hhi
  obtain ⟨fuel, parts, c, res, hgen, hleft, hright, hdest, hv, hcover⟩ :=
    hserved (dest + r.base note) (by omega) (by omega)
  have hlt : ¬c.dest < note := by omega
  cases fuel with
  | zero => simp [generatePathParts] at hgen
  | succ fuel =>
    have hmr : r ∈ t.subtrees := subtrees_trans hu (by simp [subtrees, mem_subtrees_self])
    rw [generatePathParts_branch h.represents h.collisionFree h.note_lt hu, if_neg (by omega)] at hgen
    obtain ⟨rest, hrest, rfl⟩ := Option.map_eq_some_iff.mp hgen
    have hrestPath := h.pathOf_generatePathParts hmr hrest
    have hv' := (h.accepted_branch hallow hu (.inr rfl) hrestPath (c := c) (by simpa using hv)).2
    rw [if_neg hlt] at hv'
    obtain ⟨e1, e2, e3, e4⟩ := Cursor.step_of_not_lt (foundFlag H tree r) hlt
    have hmax : max c.leftBound note = note := by omega
    have hshift : (if foundFlag H tree r then max c.leftBound note else 0) = r.base note := by
      rw [hfit, hmax, base]
      split_ifs <;> rfl
    have horigin : (if foundFlag H tree r then 0 else max c.leftBound note) = note - r.base note := by
      rw [hfit, hmax, base]
      split_ifs <;> simp
    have hgenDest : (if foundFlag H tree r then dest + r.base note - delta - note
        else dest + r.base note - delta) = dest - 0 := by
      rw [hfit, hdelta, base]
      split_ifs <;> simp
    rw [hgenDest] at hrest
    rw [hshift] at e2 e3 e4
    rw [horigin] at e1
    clear hshift horigin hgenDest
    refine ⟨fuel, rest, c.step (foundFlag H tree r) note, res, hrest, ?_, ?_, ?_, hv', ?_⟩
    · rw [e1]
      omega
    · rw [e2]
      omega
    · rw [e3]
      omega
    · rw [e4]
      omega

lemma Served.erase_eq (hdelta : 0 < delta) : l.erase = r.erase := by
  have hml : l ∈ t.subtrees := subtrees_trans hu (by simp [subtrees, mem_subtrees_self])
  have hmr : r ∈ t.subtrees := subtrees_trans hu (by simp [subtrees, mem_subtrees_self])
  have hchunk : 0 < dataChunkSize := by decide
  have hnote := hfull.note
  obtain ⟨fuel, parts, c, res, hgen, hleft, hright, hdest, hv, -⟩ :=
    hserved note (by omega) (by omega)
  have hlt : ¬c.dest < note := by omega
  cases fuel with
  | zero => simp [generatePathParts] at hgen
  | succ fuel =>
    rw [generatePathParts_branch h.represents h.collisionFree h.note_lt hu, if_pos (by omega)] at hgen
    obtain ⟨rest, hrest, rfl⟩ := Option.map_eq_some_iff.mp hgen
    have hrestPath := h.pathOf_generatePathParts hml hrest
    have hid := (h.accepted_branch hallow hu (.inl rfl) hrestPath (c := c) (by simpa using hv)).1
    rw [if_neg hlt] at hid
    exact h.represents.erase_eq_of_id_eq h.collisionFree h.note_lt hml hmr hid

end Branch

lemma Served.uniform {u : Layout} (hu : u ∈ t.subtrees) {lo hi prevNote : Nat} {delta : Int}
    (hfull : u.Full lo hi) (hdelta : 0 < delta) (hprev : lo ≤ prevNote)
    (hserved : Served H tree checks dataSize u lo hi prevNote delta) :
    u.Uniform ∧ FlagsFit (foundFlag H tree) u lo := by
  induction u generalizing lo hi prevNote delta with
  | leaf b data note => exact ⟨trivial, trivial⟩
  | branch b l r note ihl ihr =>
    have hml : l ∈ t.subtrees := subtrees_trans hu (by simp [subtrees, mem_subtrees_self])
    have hcongr : ∀ u v : Layout, u.erase = v.erase → foundFlag H tree u = foundFlag H tree v :=
      fun _ _ => foundFlag_congr
    have hfitl := Served.foundFlag_left h hallow hu hfull hserved
    have hfitr := Served.foundFlag_right h hallow hu hfull hserved
    have herase := Served.erase_eq h hallow hu hfull hserved hdelta
    obtain ⟨hfl, hfr⟩ := hfull.branch
    have hnote := hfull.note
    have hloss : (0 : Int) ≤ if foundFlag H tree l then (prevNote : Int) - lo else 0 := by
      split_ifs <;> omega
    obtain ⟨hun, hfit⟩ := ihl hml hfl (by omega) (by omega)
      (Served.left h hallow hu hfull hserved hdelta.le hfitl)
    obtain ⟨hlo, hhi⟩ := hfl.bounds_eq hfr herase
    refine ⟨⟨herase, hun⟩, hfitl, .inl hfitr, hfit, ?_⟩
    rw [← hlo]
    rw [← hlo, ← hhi] at hfr
    exact hfit.congr hcongr hfl hfr herase

/-- A tree that serves all destinations has fitting flags and is aligned. -/
lemma Served.aligned {u : Layout} (hu : u ∈ t.subtrees) {lo hi prevNote : Nat} (aligned : Bool)
    (hfull : u.Full lo hi) (hprev : lo ≤ prevNote) (haligned : aligned = false → lo ≠ prevNote)
    (hserved : Served H tree checks dataSize u lo hi prevNote 0) :
    FlagsFit (foundFlag H tree) u lo ∧ Aligned (foundFlag H tree) aligned u := by
  induction u generalizing lo hi prevNote aligned with
  | leaf b data note => exact ⟨trivial, trivial⟩
  | branch b l r note ihl ihr =>
    have hml : l ∈ t.subtrees := subtrees_trans hu (by simp [subtrees, mem_subtrees_self])
    have hmr : r ∈ t.subtrees := subtrees_trans hu (by simp [subtrees, mem_subtrees_self])
    have hchunk : 0 < dataChunkSize := by decide
    have hfitl := Served.foundFlag_left h hallow hu hfull hserved
    have hfitr := Served.foundFlag_right h hallow hu hfull hserved
    obtain ⟨hfl, hfr⟩ := hfull.branch
    have hnote := hfull.note
    have hservedl := Served.left h hallow hu hfull hserved le_rfl hfitl
    obtain ⟨hflagsr, halignr⟩ := ihr hmr (!r.rebased) hfr (Nat.sub_le _ _)
      (fun hb => by
        have : r.rebased = true := by simpa using hb
        simp only [base, this, if_true]
        omega)
      (Served.right h hallow hu hfull hserved rfl hfitr)
    by_cases hloss : foundFlag H tree l = true ∧ lo ≠ prevNote
    · rw [if_pos hloss.1] at hservedl
      obtain ⟨hun, hflagsl⟩ := Served.uniform h hallow hml hfl (by omega) (by omega) hservedl
      exact ⟨⟨hfitl, .inl hfitr, hflagsl, hflagsr⟩, fun _ => .inr hun, hun.aligned _, halignr⟩
    · have hzero : (if foundFlag H tree l then (prevNote : Int) - lo else 0) = 0 := by
        split_ifs with hflag
        · have : lo = prevNote := by
            by_contra hne
            exact hloss ⟨hflag, hne⟩
          omega
        · rfl
      rw [hzero, add_zero] at hservedl
      obtain ⟨hflagsl, halignl⟩ := ihl hml false hfl (by omega) (fun _ => by omega) hservedl
      refine ⟨⟨hfitl, .inl hfitr, hflagsl, hflagsr⟩, fun hflag => .inl ?_, halignl, halignr⟩
      by_contra hal
      exact hloss ⟨hflag, haligned (by simpa using hal)⟩

end FullTree

end Necessity

end Arweave.Merkle
