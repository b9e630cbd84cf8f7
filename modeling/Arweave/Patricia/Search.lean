import Arweave.Patricia.Shape

/-!
# The search along a key

`get`, `insert` and `delete` walk down the tree with the same steps: from a node whose edge
is a proper prefix of the rest of the key to the child with the next byte. `OnPath` is the
invariant of this walk. Where it stops, either the node holds the key or no node does.
-/

namespace Arweave.Patricia
open Arweave.Lib

variable {V : Type} {tree : Tree V} {key : Bytes} {level : Nat} {parent : Key}

/-- The walk along a key looks at the prefix of the given length, below the given node. -/
structure OnPath (tree : Tree V) (key : Bytes) (level : Nat) (parent : Key) : Prop where
  bound : level ≤ key.length ∨ key = []
  child : ∃ pn, tree.node parent = some pn ∧ ChildKey parent pn (key.take level)
  pos : 0 < level
  parent : parent ≠ .bin []

/-- The edge of the node does not continue along the key. -/
def Stops (tree : Tree V) (key : Bytes) (level : Nat) : Prop :=
  ∀ n, tree.node (.bin (key.take level)) = some n → n.suffix <+: key.drop level →
    key.drop level = n.suffix

lemma OnPath.start (h : Linked tree) (key : Bytes) : OnPath tree key 1 .root := by
  obtain ⟨n, hn, -⟩ := h.root
  refine ⟨?_, ⟨n, hn, ?_⟩, Nat.one_pos, Key.noConfusion⟩
  · cases key <;> simp
  · simp [ChildKey]

lemma OnPath.take_ne_nil (h : OnPath tree key level parent) (hne : key.drop level ≠ []) :
    key.take level ≠ [] := by
  intro hnil
  rcases List.take_eq_nil_iff.mp hnil with h0 | hkey
  · exact absurd h0 (Nat.ne_of_gt h.pos)
  · simp [hkey] at hne

lemma OnPath.next (h : OnPath tree key level parent) {n : Node V}
    (hn : tree.node (.bin (key.take level)) = some n) (hpre : n.suffix <+: key.drop level)
    (hne : key.drop level ≠ n.suffix) :
    OnPath tree key (level + n.suffix.length + 1) (.bin (key.take level)) := by
  have hlt : n.suffix.length < (key.drop level).length := by
    apply lt_of_le_of_ne hpre.length_le
    intro he
    exact hne (hpre.eq_of_length he).symm
  have hdrop : key.drop level ≠ [] := List.length_pos_iff.mp (by omega)
  rw [List.length_drop] at hlt
  refine ⟨.inl (by omega), ⟨n, hn, ?_⟩, by omega, ?_⟩
  · obtain ⟨t, ht⟩ := hpre
    cases t with
    | nil => exact absurd (by simpa using ht.symm) hne
    | cons b t =>
      refine ⟨b, ?_⟩
      have hkey : key = key.take level ++ (n.suffix ++ b :: t) := by rw [ht, List.take_append_drop]
      have hlen : (key.take level).length = level := by
        rw [List.length_take]
        omega
      rw [hkey, List.take_left' hlen]
      rw [show key.take level ++ (n.suffix ++ b :: t) = (key.take level ++ n.suffix ++ [b]) ++ t by simp]
      exact List.take_left' (by simp only [List.length_append, hlen, List.length_singleton])
  · intro he
    exact h.take_ne_nil hdrop (Key.bin.inj he)

/-- A node that holds the key lies at the current prefix or below it. -/
lemma OnPath.below (hl : Linked tree) (h : OnPath tree key level parent) {j : Bytes} {n : Node V}
    (hj : tree.node (.bin j) = some n) (hfull : j ++ n.suffix = key) :
    key.take level <+: j ∧ ∃ cn, tree.node (.bin (key.take level)) = some cn := by
  obtain ⟨pn, hpn, hck⟩ := h.child
  have hjnil : j = [] → key = [] := by
    intro hnil
    subst hnil
    rw [← hfull, (hl.empty n hj).1, List.append_nil]
  have hjkey : j <+: key := hfull ▸ List.prefix_append _ _
  cases parent with
  | root =>
    have hle : level ≤ 1 ∨ key.length ≤ 1 := by
      have hlen : (key.take level).length ≤ 1 := hck
      rw [List.length_take] at hlen
      omega
    cases key with
    | nil =>
      obtain rfl : j = [] := (List.append_eq_nil_iff.mp hfull).1
      rw [List.take_nil]
      exact ⟨List.nil_prefix, n, hj⟩
    | cons b key =>
      cases j with
      | nil => exact absurd (hjnil rfl) (by simp)
      | cons c j =>
        obtain ⟨rfl, -⟩ := List.cons_prefix_cons.mp hjkey
        have htake : (c :: key).take level = [c] := by
          obtain ⟨l, rfl⟩ : ∃ l, level = l + 1 := ⟨level - 1, by have := h.pos; omega⟩
          rw [List.take_succ_cons, List.cons.injEq]
          refine ⟨rfl, ?_⟩
          rcases hle with hle | hle
          · simp [show l = 0 by omega]
          · rw [List.length_cons] at hle
            simp [List.length_eq_zero_iff.mp (show key.length = 0 by omega)]
        rw [htake]
        exact ⟨by simp, hl.exists_first hj⟩
  | bin p =>
    obtain ⟨b, hb⟩ := hck
    have hpnil : p ≠ [] := fun hnil => h.parent (by rw [hnil])
    have hbkey : p ++ pn.suffix ++ [b] <+: key := hb ▸ List.take_prefix _ _
    have hpkey : p <+: key := ((List.prefix_append _ _).trans (List.prefix_append _ _)).trans hbkey
    have hlen := hbkey.length_le
    rw [← hfull] at hlen
    simp only [List.length_append, List.length_singleton] at hlen
    rw [hb]
    by_cases hjp : j = p
    · subst hjp
      rw [hj] at hpn
      cases hpn
      omega
    · rcases List.prefix_or_prefix_of_prefix hjkey hpkey with hpre | hpre
      · have hjne : j ≠ [] := by
          intro hnil
          rw [hjnil hnil] at hbkey
          simp at hbkey
        obtain ⟨d, hd⟩ := hl.chain hj hpn hpre hjp hjne
        have := hd.length_le
        simp only [List.length_append, List.length_singleton] at this
        omega
      · obtain ⟨d, hd⟩ := hl.chain hpn hj hpre (Ne.symm hjp) hpnil
        have hdb : p ++ pn.suffix ++ [d] = p ++ pn.suffix ++ [b] :=
          (List.prefix_of_prefix_length_le (hd.trans hjkey) hbkey (by simp)).eq_of_length (by simp)
        rw [hdb] at hd
        obtain ⟨cn, hcn, -⟩ := hl.exists_child hpn hj hpnil hd
        exact ⟨hd, cn, hcn⟩

lemma OnPath.stop_eq (hl : Linked tree) (h : OnPath tree key level parent) (hs : Stops tree key level)
    {j : Bytes} {n : Node V} (hj : tree.node (.bin j) = some n) (hfull : j ++ n.suffix = key) :
    j = key.take level ∧ n.suffix = key.drop level := by
  obtain ⟨hpre, cn, hcn⟩ := h.below hl hj hfull
  by_cases hjk : j = key.take level
  · refine ⟨hjk, ?_⟩
    rw [← List.take_append_drop level key, ← hjk] at hfull
    exact List.append_cancel_left hfull
  · exfalso
    have hnil : key.take level ≠ [] := by
      intro hnil
      apply hjk
      rcases List.take_eq_nil_iff.mp hnil with h0 | hkey
      · exact absurd h0 (Nat.ne_of_gt h.pos)
      · rw [hkey] at hfull
        rw [hnil, (List.append_eq_nil_iff.mp hfull).1]
    obtain ⟨d, hd⟩ := hl.chain hcn hj hpre (Ne.symm hjk) hnil
    have hdkey : key.take level ++ cn.suffix ++ [d] <+: key.take level ++ key.drop level := by
      rw [List.take_append_drop]
      exact hd.trans ⟨n.suffix, hfull⟩
    rw [List.append_assoc, List.prefix_append_right_inj] at hdkey
    have hstop := hs cn hcn ((List.prefix_append _ _).trans hdkey)
    have := hdkey.length_le
    rw [hstop] at this
    simp at this

lemma insertFrom_eq (key : Bytes) (value : V) (tree : Tree V) (level : Nat) (parent : Key) :
    insertFrom key value tree level parent =
      match tree.node (.bin (key.take level)) with
      | some n =>
        let common := commonPrefix (key.drop level) n.suffix
        if key.drop level = n.suffix then
          insertValue (key.take level) value n tree
        else if common = n.suffix ∧ n.suffix < key.drop level then
          insertFrom key value tree (level + n.suffix.length + 1) (.bin (key.take level))
        else if common = key.drop level ∧ key.drop level < n.suffix then
          insertPivot (key.take level) (key.drop level) (n.suffix.drop common.length) value n tree
        else if common ≠ key.drop level ∧ common ≠ n.suffix then
          insertFork (key.take level) common ((key.drop level).drop common.length)
            (n.suffix.drop common.length) value n tree
        else
          none
      | none => insertLeaf (key.take level) (key.drop level) value parent tree := by
  rw [insertFrom]
  rfl

lemma getFrom_eq (key : Bytes) (tree : Tree V) (level : Nat) :
    getFrom key tree level =
      match tree.node (.bin (key.take level)) with
      | none => none
      | some n =>
        if (commonPrefix (key.drop level) n.suffix).length < n.suffix.length then
          none
        else if key.drop level = n.suffix then
          if n.value.isNone then none else some (key.take level, n)
        else
          getFrom key tree (level + n.suffix.length + 1) := by
  rw [getFrom]
  rfl

lemma deleteFrom_eq (key : Bytes) (tree : Tree V) (level : Nat) :
    deleteFrom key tree level =
      match tree.node (.bin (key.take level)) with
      | none => some tree
      | some n =>
        if (commonPrefix (key.drop level) n.suffix).length < n.suffix.length then
          some tree
        else if key.drop level = n.suffix then
          if n.value.isNone then
            some tree
          else
            let tree2 := tree.setSize (tree.size - 1)
            if n.children.isEmpty then
              delete2 (key.take level) n.parent tree2
            else
              invalidateHash n.parent
                (tree2.put (.bin (key.take level)) { n with hash := none, value := none })
        else
          deleteFrom key tree (level + n.suffix.length + 1) := by
  rw [deleteFrom]
  rfl

/-- The walk of the three operations from one position on is the walk from the next. -/
structure SameFrom (tree : Tree V) (key : Bytes) (level : Nat) (parent : Key) (level' : Nat)
    (parent' : Key) : Prop where
  insertFrom : ∀ value, insertFrom key value tree level parent = insertFrom key value tree level' parent'
  getFrom : getFrom key tree level = getFrom key tree level'
  deleteFrom : deleteFrom key tree level = deleteFrom key tree level'

lemma sameFrom_next {n : Node V} (hn : tree.node (.bin (key.take level)) = some n)
    (hpre : n.suffix <+: key.drop level) (hne : key.drop level ≠ n.suffix) :
    SameFrom tree key level parent (level + n.suffix.length + 1) (.bin (key.take level)) := by
  have hlt : n.suffix < key.drop level := lt_of_prefix_of_ne hpre (Ne.symm hne)
  refine ⟨fun value => ?_, ?_, ?_⟩
  · rw [insertFrom_eq]
    simp only [hn]
    rw [if_neg hne, if_pos ⟨commonPrefix_eq_right_iff.mpr hpre, hlt⟩]
  · rw [getFrom_eq]
    simp only [hn]
    rw [if_neg (not_not_intro hpre ∘ commonPrefix_length_lt_iff.mp), if_neg hne]
  · rw [deleteFrom_eq]
    simp only [hn]
    rw [if_neg (not_not_intro hpre ∘ commonPrefix_length_lt_iff.mp), if_neg hne]

lemma OnPath.exists_stop (h : OnPath tree key level parent) :
    ∃ level' parent', OnPath tree key level' parent' ∧ Stops tree key level' ∧
      SameFrom tree key level parent level' parent' := by
  induction hm : key.length - level using Nat.strong_induction_on generalizing level parent with
  | _ m ih =>
    by_cases hs : Stops tree key level
    · exact ⟨level, parent, h, hs, fun _ => rfl, rfl, rfl⟩
    · simp only [Stops, not_forall] at hs
      obtain ⟨n, hn, hpre, hne⟩ := hs
      have hlt : n.suffix.length < key.length - level := by
        rw [← List.length_drop]
        apply lt_of_le_of_ne hpre.length_le
        intro he
        exact hne (hpre.eq_of_length he).symm
      obtain ⟨level', parent', hpath, hstop, hsame⟩ := ih _ (by omega) (h.next hn hpre hne) rfl
      have hnext := @sameFrom_next _ _ _ _ parent n hn hpre hne
      refine ⟨level', parent', hpath, hstop, fun value => ?_, ?_, ?_⟩
      · rw [hnext.insertFrom, hsame.insertFrom]
      · rw [hnext.getFrom, hsame.getFrom]
      · rw [hnext.deleteFrom, hsame.deleteFrom]

lemma Linked.search (h : Linked tree) (key : Bytes) :
    ∃ level parent, OnPath tree key level parent ∧ Stops tree key level ∧
      SameFrom tree key 1 .root level parent :=
  (OnPath.start h key).exists_stop

lemma getFrom_of_holds (h : Linked tree) {v : V} (hv : Holds tree key v) :
    ∃ k n, getFrom key tree 1 = some (k, n) ∧ tree.node (.bin k) = some n ∧ k ++ n.suffix = key ∧
      n.value = some v := by
  obtain ⟨level, parent, hpath, hstop, hsame⟩ := h.search key
  obtain ⟨k, n, hn, hfull, hv⟩ := hv
  obtain ⟨rfl, hsuf⟩ := hpath.stop_eq h hstop hn hfull
  refine ⟨_, n, ?_, hn, hfull, hv⟩
  rw [hsame.getFrom, getFrom_eq]
  simp only [hn, commonPrefix_length_lt_iff, hsuf, List.prefix_refl, not_true, if_false, if_true, hv,
    Option.isNone_some, Bool.false_eq_true]

/-- `get` returns the value that the tree holds. -/
theorem get_eq_some_iff (h : Linked tree) {v : V} : get key tree = some v ↔ Holds tree key v := by
  constructor
  · intro hget
    obtain ⟨level, parent, hpath, hstop, hsame⟩ := h.search key
    rw [get, hsame.getFrom, getFrom_eq] at hget
    cases hn : tree.node (.bin (key.take level)) with
    | none => simp [hn] at hget
    | some n =>
      simp only [hn, commonPrefix_length_lt_iff] at hget
      split_ifs at hget with h1 h2 h3
      · cases hget
      · exact ⟨_, n, hn, by rw [← h2, List.take_append_drop], hget⟩
      · exact absurd (hstop n hn h1) h2
      · cases hget
  · intro hv
    obtain ⟨k, n, hget, -, -, hv⟩ := getFrom_of_holds h hv
    rw [get, hget]
    exact hv

end Arweave.Patricia
