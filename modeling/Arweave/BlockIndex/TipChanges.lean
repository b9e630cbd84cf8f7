import Arweave.BlockIndex.Storage

/-!
# The block index on disk follows the chain

A list is read back exactly when its entries are stored from height 0 on, each with the hash below
it, and no height above is. A tip change writes its entries from the height of the tip, less the
number of orphans after the first: right when it replaces the orphans one by one.
-/

namespace Arweave.BlockIndex

open Lib

variable {db db' : Db} {l l' bi : List Element} {e : Element} {prevH : Bytes} {n height k : Nat}

/-- The elements are stored at consecutive heights, each with the hash of the one before it. -/
def StoredFrom (db : Db) : Nat → Bytes → List Element → Prop
  | _, _, [] => True
  | height, prevH, e :: l => db.lookup height = some (e.stored prevH) ∧ StoredFrom db (height + 1) e.h l

/-- The hash of the last element. -/
def lastHash (prevH : Bytes) : List Element → Bytes
  | [] => prevH
  | e :: l => lastHash e.h l

lemma storedFrom_append :
    StoredFrom db height prevH (l ++ l') ↔
      StoredFrom db height prevH l ∧ StoredFrom db (height + l.length) (lastHash prevH l) l' := by
  induction l generalizing height prevH with
  | nil => simp [StoredFrom, lastHash]
  | cons e l ih =>
    rw [List.cons_append, StoredFrom, StoredFrom, ih, lastHash, List.length_cons, Nat.add_right_comm, ← Nat.add_assoc,
      and_assoc]

lemma StoredFrom.congr (h : StoredFrom db height prevH l)
    (heq : ∀ k, height ≤ k → k < height + l.length → db'.lookup k = db.lookup k) : StoredFrom db' height prevH l := by
  induction l generalizing height prevH with
  | nil => exact trivial
  | cons e l ih =>
    refine ⟨?_, ih h.2 ?_⟩
    · rw [heq height le_rfl (by simp), h.1]
    · intro k hk hlt
      exact heq k (by omega) (by rw [List.length_cons]; omega)

lemma StoredFrom.lookup_isSome (h : StoredFrom db height prevH l) (hk : height ≤ k) (hlt : k < height + l.length) :
    (db.lookup k).isSome := by
  induction l generalizing height prevH with
  | nil =>
    rw [List.length_nil] at hlt
    omega
  | cons e l ih =>
    rcases hk.eq_or_lt with rfl | hk
    · rw [h.1]
      rfl
    · exact ih h.2 hk (by rw [List.length_cons] at hlt; omega)

lemma StoredFrom.lookup_last (h : StoredFrom db height prevH l) (hne : l ≠ []) :
    ∃ v, db.lookup (height + l.length - 1) = some v ∧ v.h = lastHash prevH l := by
  induction l generalizing height prevH with
  | nil => exact absurd rfl hne
  | cons e l ih =>
    cases l with
    | nil => exact ⟨_, h.1, rfl⟩
    | cons e' l =>
      obtain ⟨v, hv, hh⟩ := ih h.2 (List.cons_ne_nil e' l)
      refine ⟨v, ?_, hh⟩
      rw [List.length_cons, ← Nat.add_assoc, Nat.add_right_comm]
      exact hv

/-- The walk over the heights succeeds exactly for the lists that are stored. -/
lemma readBlockIndexFromMap_eq_some (hlimit : height + n ≤ 2 ^ 256) {bi' : List Element} :
    readBlockIndexFromMap db n height prevH bi = some bi' ↔
      ∃ l, l.length = n ∧ bi' = l.reverse ++ bi ∧ StoredFrom db height prevH l := by
  induction n generalizing height prevH bi with
  | zero =>
    rw [readBlockIndexFromMap, Option.some.injEq]
    constructor
    · rintro rfl
      exact ⟨[], rfl, rfl, trivial⟩
    · rintro ⟨l, hl, rfl, -⟩
      rw [List.length_eq_zero_iff.mp hl]
      rfl
  | succ n ih =>
    rw [readBlockIndexFromMap, key_natCast (by omega)]
    constructor
    · intro hread
      cases hv : db.lookup height with
      | none =>
        rw [hv] at hread
        cases hread
      | some v =>
        simp only [hv, Option.ite_none_right_eq_some] at hread
        obtain ⟨rfl, hread⟩ := hread
        obtain ⟨l, rfl, rfl, hstored⟩ := (ih (by omega)).mp hread
        refine ⟨v.element :: l, rfl, ?_, hv, hstored⟩
        rw [List.reverse_cons, List.append_assoc]
        rfl
    · rintro ⟨l, hl, rfl, hstored⟩
      cases l with
      | nil => cases hl
      | cons e l =>
        simp only [hstored.1, Element.stored, if_true]
        apply (ih (by omega)).mpr
        refine ⟨l, by simpa using hl, ?_, hstored.2⟩
        rw [List.reverse_cons, List.append_assoc]
        rfl

/-- The list is what the database holds. -/
structure Stores (db : Db) (l : List Element) : Prop where
  ne_nil : l ≠ []
  length_le : l.length ≤ keyLimit
  stored : StoredFrom db 0 [] l
  above : ∀ k, l.length ≤ k → k < keyLimit → db.lookup k = none

lemma lookup_readMap {v : Stored} (hv : db.lookup height = some v) (hlimit : height < keyLimit) (hk : k ≤ height) :
    ((db.filterKeys (· ≤ key (height - 1))).insert height v).lookup k = db.lookup k := by
  rw [SortedMap.lookup_insert]
  split_ifs with heq
  · rw [heq, hv]
  · have hlt := keyLimit_lt
    have hkey : key (height - 1) = height - 1 := by
      rw [← key_natCast (show height - 1 < 2 ^ 256 by omega)]
      congr 1
      omega
    rw [SortedMap.lookup_filterKeys, hkey]
    exact if_pos (decide_eq_true (by omega))

/-- A list is read back exactly when the database holds it. -/
lemma readBlockIndex_eq_some : readBlockIndex db = some l.reverse ↔ Stores db l := by
  have hlt := keyLimit_lt
  have hpos : 0 < keyLimit := by decide
  constructor
  · intro hread
    rw [readBlockIndex] at hread
    cases hprev : db.prev (keyLimit - 1) with
    | none =>
      rw [hprev] at hread
      cases hread
    | some a =>
      obtain ⟨height, v⟩ := a
      have hmem := List.mem_of_getLast? hprev
      rw [List.mem_filter, decide_eq_true_eq] at hmem
      have hlookup := SortedMap.lookup_eq_some.mpr hmem.1
      have hheight : height < keyLimit := by
        have hle : height ≤ keyLimit - 1 := hmem.2
        omega
      simp only [hprev] at hread
      obtain ⟨l', hlen, hl', hstored⟩ := (readBlockIndexFromMap_eq_some (by omega)).mp hread
      rw [List.append_nil, List.reverse_inj] at hl'
      subst hl'
      refine ⟨?_, by omega, ?_, ?_⟩
      · rintro rfl
        cases hlen
      · exact hstored.congr fun k _ hk => (lookup_readMap hlookup hheight (by omega)).symm
      · intro k hk hklt
        rw [Option.eq_none_iff_forall_ne_some]
        intro w hw
        obtain ⟨a, -, ha, -, hle⟩ := SortedMap.exists_prev (SortedMap.lookup_eq_some.mp hw) (show k ≤ keyLimit - 1 by omega)
        rw [hprev, Option.some.injEq] at ha
        subst ha
        have hle' : k ≤ height := hle
        omega
  · rintro ⟨hne, hle, hstored, habove⟩
    have hlen := List.length_pos_iff.mpr hne
    obtain ⟨v, hv, -⟩ := hstored.lookup_last hne
    rw [Nat.zero_add] at hv
    obtain ⟨⟨k, w⟩, hmem, hprev, hkle, hkge⟩ :=
      SortedMap.exists_prev (SortedMap.lookup_eq_some.mp hv) (show l.length - 1 ≤ keyLimit - 1 by omega)
    obtain rfl : k = l.length - 1 := by
      by_contra hne'
      have hkle' : k ≤ keyLimit - 1 := hkle
      have hkge' : l.length - 1 ≤ k := hkge
      have hnone := habove k (by omega) (by omega)
      rw [SortedMap.lookup_eq_some.mpr hmem] at hnone
      cases hnone
    have hw := SortedMap.lookup_eq_some.mpr hmem
    rw [readBlockIndex, hprev]
    apply (readBlockIndexFromMap_eq_some (by omega)).mpr
    refine ⟨l, by omega, (List.append_nil _).symm, ?_⟩
    exact hstored.congr fun k _ hk => lookup_readMap hw (by omega) (by omega)

section Write

variable {tip o base : Nat}

lemma updateBlockIndex2_spec (hlimit : height + bi.length ≤ 2 ^ 256) :
    StoredFrom (updateBlockIndex2 db height prevH bi) height prevH bi ∧
      ∀ k, k < height ∨ height + bi.length ≤ k → (updateBlockIndex2 db height prevH bi).lookup k = db.lookup k := by
  induction bi generalizing db height prevH with
  | nil => exact ⟨trivial, fun _ _ => rfl⟩
  | cons e bi ih =>
    rw [List.length_cons] at hlimit
    rw [updateBlockIndex2, key_natCast (by omega), ← Nat.cast_add_one]
    obtain ⟨hstored, hframe⟩ := @ih (db.insert height (e.stored prevH)) e.h (height + 1) (by omega)
    refine ⟨⟨?_, hstored⟩, ?_⟩
    · rw [hframe height (.inl (by omega)), SortedMap.lookup_insert, if_pos rfl]
    · intro k hk
      rw [List.length_cons] at hk
      rw [hframe k (by omega), SortedMap.lookup_insert, if_neg (by omega)]

lemma lookup_isSome_updateBlockIndex2 {height : Int} (h : (db.lookup k).isSome) :
    ((updateBlockIndex2 db height prevH bi).lookup k).isSome := by
  induction bi generalizing db height prevH with
  | nil => exact h
  | cons e bi ih =>
    rw [updateBlockIndex2]
    apply ih
    rw [SortedMap.lookup_insert]
    split_ifs with heq
    · rfl
    · exact h

/-- The database without the heights from the given one up to the tip. -/
def withoutOrphans (db : Db) (first tip : Nat) : Db := db.filterKeys fun k => ¬(first ≤ k ∧ k < tip + 1)

lemma lookup_withoutOrphans :
    (withoutOrphans db height tip).lookup k = if height ≤ k ∧ k < tip + 1 then none else db.lookup k := by
  rw [withoutOrphans, SortedMap.lookup_filterKeys]
  by_cases h : height ≤ k ∧ k < tip + 1
  · rw [if_neg (by simp [h]), if_pos h]
  · rw [if_pos (decide_eq_true h), if_neg h]

lemma lookup_isSome_updateBlockIndex (htip : tip + 1 < 2 ^ 256) (hk : tip < k) (h : (db.lookup k).isSome) :
    ((updateBlockIndex db tip o bi).1.lookup k).isSome := by
  have hkey : key (tip + 1) = tip + 1 := key_natCast htip
  rw [updateBlockIndex, hkey, deleteRange]
  by_cases hrange : tip + 1 < key (tip - o + 1)
  · rw [if_pos hrange]
    exact h
  · rw [if_neg hrange]
    set db1 := db.filterKeys fun k => ¬(key (tip - o + 1) ≤ k ∧ k < tip + 1)
    have h1 : (db1.lookup k).isSome := by
      rw [SortedMap.lookup_filterKeys, if_pos (decide_eq_true (by omega))]
      exact h
    dsimp only
    split_ifs with hzero
    · exact lookup_isSome_updateBlockIndex2 h1
    · cases hv : db1.lookup (key (tip - max 0 ((o : Int) - 1) - 1)) with
      | none => exact h1
      | some v => exact lookup_isSome_updateBlockIndex2 h1

lemma updateBlockIndex_eq (htip : tip + 1 < 2 ^ 256) (ho : max 1 o ≤ tip) :
    updateBlockIndex db tip o bi =
      match (withoutOrphans db (tip + 1 - o) tip).lookup (tip - max 1 o) with
      | none => (withoutOrphans db (tip + 1 - o) tip, .notFound)
      | some v => (updateBlockIndex2 (withoutOrphans db (tip + 1 - o) tip) (tip + 1 - max 1 o : Nat) v.h bi, .ok) := by
  have hlast : key (tip + 1) = tip + 1 := key_natCast htip
  have hfirst : key (tip - o + 1) = tip + 1 - o := by
    rw [← key_natCast (show tip + 1 - o < 2 ^ 256 by omega)]
    congr 1
    omega
  have hindex : (tip : Int) - max 0 ((o : Int) - 1) = (tip + 1 - max 1 o : Nat) := by omega
  have hbelow : key ((tip + 1 - max 1 o : Nat) - 1) = tip - max 1 o := by
    rw [← key_natCast (show tip - max 1 o < 2 ^ 256 by omega)]
    congr 1
    omega
  rw [updateBlockIndex, hlast, hfirst, deleteRange, if_neg (by omega)]
  simp only [hindex, hbelow]
  rw [if_neg (by omega)]
  rfl

end Write

section TipChange

variable {o : Nat}

lemma updateList_cases (hbi : bi ≠ []) (h : updateList l bi o = some l') :
    o < l.length ∧ l' = l.take (l.length - o) ++ bi ∧ l'.length = l.length - o + bi.length := by
  rw [updateList, if_neg hbi, Option.ite_none_right_eq_some, Option.some.injEq] at h
  obtain ⟨ho, rfl⟩ := h
  refine ⟨ho, rfl, ?_⟩
  rw [List.length_append, List.length_take]
  omega

/-- The orphans are replaced one by one, or a block is added. -/
lemma stores_updateBlockIndex (hs : Stores db l) (hbi : bi ≠ []) (hl' : updateList l bi o = some l')
    (hlimit : l'.length < keyLimit) (hlen : bi.length = max 1 o) :
    Stores (updateBlockIndex db (l'.length - 1) o bi).1 l' := by
  obtain ⟨ho, hl'eq, hl'len⟩ := updateList_cases hbi hl'
  have hlt := keyLimit_lt
  have hbase : (l.take (l.length - o)).length = l.length - o := by
    rw [List.length_take]
    omega
  have hold := hs.stored
  rw [← List.take_append_drop (l.length - o) l, storedFrom_append] at hold
  have hbasene : l.take (l.length - o) ≠ [] := by
    rw [← List.length_pos_iff]
    omega
  obtain ⟨v, hv, hvh⟩ := hold.1.lookup_last hbasene
  have hprev : (withoutOrphans db (l'.length - 1 + 1 - o) (l'.length - 1)).lookup (l'.length - 1 - max 1 o) = some v := by
    rw [lookup_withoutOrphans, if_neg (by omega), ← hv]
    congr 1
    omega
  rw [updateBlockIndex_eq (by omega) (by omega), hprev]
  have hindex : l'.length - 1 + 1 - max 1 o = l.length - o := by omega
  simp only [hindex, hvh]
  obtain ⟨hnew, hframe⟩ := @updateBlockIndex2_spec (withoutOrphans db (l'.length - 1 + 1 - o) (l'.length - 1)) bi
    (lastHash [] (l.take (l.length - o))) (l.length - o) (by omega)
  set db2 := updateBlockIndex2 (withoutOrphans db (l'.length - 1 + 1 - o) (l'.length - 1)) (l.length - o : Nat)
    (lastHash [] (l.take (l.length - o))) bi
  have hbelow : StoredFrom db2 0 [] (l.take (l.length - o)) := by
    apply hold.1.congr
    intro k _ hk
    rw [hframe k (by omega), lookup_withoutOrphans, if_neg (by omega)]
  refine ⟨?_, hlimit.le, ?_, ?_⟩
  · rw [← List.length_pos_iff]
    omega
  · rw [hl'eq, storedFrom_append, hbase, Nat.zero_add]
    exact ⟨hbelow, hnew⟩
  · intro k hk hklt
    rw [hframe k (by omega), lookup_withoutOrphans, if_neg (by omega)]
    exact hs.above k (by omega) hklt

lemma length_eq_of_stores (hs : Stores db l) (hbi : bi ≠ []) (hl' : updateList l bi o = some l')
    (hlimit : l'.length < keyLimit) (hs' : Stores (updateBlockIndex db (l'.length - 1) o bi).1 l') :
    bi.length = max 1 o := by
  obtain ⟨ho, hl'eq, hl'len⟩ := updateList_cases hbi hl'
  have hlt := keyLimit_lt
  have hpos := List.length_pos_iff.mpr hbi
  have hle := hs.length_le
  rcases Nat.lt_trichotomy bi.length (max 1 o) with hfew | heq | hmany
  · -- the highest orphans stay
    have hold : (db.lookup (l.length - 1)).isSome := hs.stored.lookup_isSome (by omega) (by omega)
    have hkept := @lookup_isSome_updateBlockIndex db bi (l.length - 1) (l'.length - 1) o (by omega) (by omega) hold
    rw [hs'.above (l.length - 1) (by omega) (by omega)] at hkept
    cases hkept
  · exact heq
  · rw [updateBlockIndex_eq (by omega) (by omega)] at hs'
    set db1 := withoutOrphans db (l'.length - 1 + 1 - o) (l'.length - 1) with hdb1
    cases hv : db1.lookup (l'.length - 1 - max 1 o) with
    | none =>
      -- nothing is written, and the tip is above the old one
      simp only [hv] at hs'
      have htip : (db1.lookup (l'.length - 1)).isSome := hs'.stored.lookup_isSome (by omega) (by omega)
      rw [hdb1, lookup_withoutOrphans] at htip
      split_ifs at htip with hrange
      · cases htip
      · rw [hs.above (l'.length - 1) (by omega) (by omega)] at htip
        cases htip
    | some v =>
      -- a height above the tip is written
      simp only [hv] at hs'
      obtain ⟨hnew, -⟩ := @updateBlockIndex2_spec db1 bi v.h (l'.length - 1 + 1 - max 1 o) (by omega)
      have habove : ((updateBlockIndex2 db1 (l'.length - 1 + 1 - max 1 o : Nat) v.h bi).lookup l'.length).isSome :=
        hnew.lookup_isSome (by omega) (by omega)
      rw [hs'.above l'.length le_rfl hlimit] at habove
      cases habove

lemma readBlockIndex_tipChange_iff {s s' : NodeIndex} {op : Update} (hread : readBlockIndex s.db = some s.index.reverse)
    (hstep : tipChange s op = some s') (hlimit : s'.index.length < keyLimit) :
    readBlockIndex s'.db = some s'.index.reverse ↔ op.1.length = max 1 op.2 := by
  rw [tipChange, Option.ite_none_left_eq_some, Option.map_eq_some_iff] at hstep
  obtain ⟨hbi, l', hl', rfl⟩ := hstep
  rw [readBlockIndex_eq_some] at hread ⊢
  exact ⟨length_eq_of_stores hread hbi hl' hlimit, stores_updateBlockIndex hread hbi hl' hlimit⟩

def runTips (s : NodeIndex) (ops : List Update) : Option NodeIndex := ops.foldlM tipChange s

/-- Along a run of tip changes the block index on disk is the one in memory in every state reached
exactly when each change adds as many blocks as it orphans, and one when it orphans none. -/
theorem readBlockIndex_runTips_iff {s s' : NodeIndex} {ops : List Update}
    (hread : readBlockIndex s.db = some s.index.reverse) (hrun : runTips s ops = some s')
    (hlimit : ∀ before r, before <+: ops → runTips s before = some r → r.index.length < keyLimit) :
    (∀ before r, before <+: ops → runTips s before = some r → readBlockIndex r.db = some r.index.reverse) ↔
      ∀ op ∈ ops, op.1.length = max 1 op.2 := by
  induction ops generalizing s with
  | nil =>
    refine ⟨fun _ op hop => absurd hop List.not_mem_nil, ?_⟩
    intro _ before r hbefore hr
    rw [List.prefix_nil.mp hbefore] at hr
    cases hr
    exact hread
  | cons op ops ih =>
    rw [runTips, List.foldlM_cons] at hrun
    obtain ⟨s1, hs1, hrest⟩ := Option.bind_eq_some_iff.mp hrun
    have hcons : ∀ before, runTips s (op :: before) = runTips s1 before := by
      intro before
      rw [runTips, List.foldlM_cons, hs1]
      rfl
    have hstep := readBlockIndex_tipChange_iff hread hs1 (hlimit [op] s1 ⟨ops, rfl⟩ (hcons []))
    have hlimit1 : ∀ before r, before <+: ops → runTips s1 before = some r → r.index.length < keyLimit := by
      intro before r hbefore hr
      exact hlimit (op :: before) r (List.cons_prefix_cons.mpr ⟨rfl, hbefore⟩) ((hcons before).trans hr)
    rw [List.forall_mem_cons]
    constructor
    · intro hall
      have hread1 := hall [op] s1 ⟨ops, rfl⟩ (hcons [])
      refine ⟨hstep.mp hread1, (ih hread1 hrest hlimit1).mp ?_⟩
      intro before r hbefore hr
      exact hall (op :: before) r (List.cons_prefix_cons.mpr ⟨rfl, hbefore⟩) ((hcons before).trans hr)
    · rintro ⟨hop, hops⟩ before r hbefore hr
      have hread1 := hstep.mpr hop
      rcases List.prefix_cons_iff.mp hbefore with rfl | ⟨rest, rfl, hrest'⟩
      · cases hr
        exact hread
      · exact (ih hread1 hrest hlimit1).mpr hops rest r hrest' ((hcons rest).symm.trans hr)

end TipChange

def sampleDb : Db := updateBlockIndex2 SortedMap.empty 0 [] [⟨[1], 5, [11]⟩, ⟨[2], 5, [12]⟩]

/-- Two blocks on disk and in memory. -/
def sampleNode : NodeIndex := ⟨sampleDb, [⟨[1], 5, [11]⟩, ⟨[2], 5, [12]⟩]⟩

/-- One block is replaced by one. -/
def replacement : Update := ([⟨[3], 6, [13]⟩], 1)

/-- One block is orphaned by a fork of two blocks. -/
def longerFork : Update := ([⟨[3], 6, [13]⟩, ⟨[4], 7, [14]⟩], 1)

theorem readBlockIndex_runTips_replacement :
    ∃ s, runTips sampleNode [replacement] = some s ∧ readBlockIndex s.db = some s.index.reverse := by
  obtain ⟨s, hs⟩ := Option.isSome_iff_exists.mp (show (runTips sampleNode [replacement]).isSome by decide)
  refine ⟨s, hs, ?_⟩
  refine (readBlockIndex_runTips_iff (by decide) hs ?_).mpr (by decide) [replacement] s List.prefix_rfl hs
  intro before r hbefore hr
  rcases List.prefix_cons_iff.mp hbefore with rfl | ⟨rest, rfl, hrest⟩
  · cases hr
    decide
  · rw [List.prefix_nil.mp hrest] at hr
    cases hr
    decide

/-- The orphan stays on disk and the blocks of the fork are stored one height too high. -/
theorem not_follows_longerFork :
    readBlockIndex sampleNode.db = some sampleNode.index.reverse ∧
      (runTips sampleNode [longerFork]).map (·.index.reverse) =
        some [⟨[4], 7, [14]⟩, ⟨[3], 6, [13]⟩, ⟨[1], 5, [11]⟩] ∧
      (runTips sampleNode [longerFork]).map (fun s => readBlockIndex s.db) =
        some (some [⟨[4], 7, [14]⟩, ⟨[3], 6, [13]⟩, ⟨[2], 5, [12]⟩, ⟨[1], 5, [11]⟩]) := by
  decide

end Arweave.BlockIndex
