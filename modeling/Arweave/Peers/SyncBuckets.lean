import Mathlib.Algebra.Order.Field.Basic
import Mathlib.Order.Interval.Finset.Nat
import Mathlib.Tactic.FieldSimp
import Arweave.Constants
import Arweave.Intervals.Set
import Arweave.Lib.Bytes
import Arweave.Peers.DataDiscovery

/-!
# The shares of the sync buckets

A node tells its peers which share of every bucket of the weave it has. The shares are summed up from the intervals of
the sync record, and when they take too many bytes two neighboring buckets are merged into one until they fit. The
shares are exact rationals.
-/

namespace Arweave.Peers.DataDiscovery

open Lib Intervals

/-- `maps:fold` goes through a map in any order. -/
structure MapOrder where
  order : List (Nat × ℚ) → List (Nat × ℚ)
  perm : ∀ l, (order l).Perm l

/-- A canonical set of intervals of offsets, which are not negative. -/
structure OffsetIntervals where
  set : IntervalSet
  canonical : Canonical set
  nonneg : ∀ p ∈ family set, 0 ≤ p.2

inductive SerializeError where
  | uncompressableBuckets

def SyncBuckets.new : SyncBuckets := ⟨defaultSyncBucketSize, SortedMap.empty⟩

def ceilInt (n nearest : Nat) : Nat := n - n % nearest + nearest

/-- `add/4`. A step adds at least one byte, so the loop ends within as many steps as there are bytes. -/
def SyncBuckets.add : Nat → Nat → Nat → Nat → SortedMap Nat ℚ → SortedMap Nat ℚ
  | 0, _, _, _, map => map
  | fuel + 1, start, finish, size, map =>
    if start ≥ finish then map
    else
      let bucket := start / size
      let share := (map.lookup bucket).getD 0
      let bucketUpperBound := ceilInt start size
      let increase := min bucketUpperBound finish - start
      SyncBuckets.add fuel bucketUpperBound finish size
        (map.insert bucket (min 1 ((share * size + (increase : Nat)) / size)))

/-- The fold of `from_intervals/2`. -/
def SyncBuckets.addIntervals (size : Nat) (intervals : List (Int ×ₗ Int)) (map : SortedMap Nat ℚ) : SortedMap Nat ℚ :=
  intervals.foldl (fun acc p =>
    SyncBuckets.add ((ofLex p).1.toNat - (ofLex p).2.toNat) (ofLex p).2.toNat (ofLex p).1.toNat size acc) map

def SyncBuckets.fromIntervals (intervals : OffsetIntervals) : SyncBuckets :=
  ⟨SyncBuckets.new.size, SyncBuckets.addIntervals SyncBuckets.new.size intervals.set.elems SyncBuckets.new.map⟩

def updateWith (map : SortedMap Nat ℚ) (bucket : Nat) (share : ℚ) : SortedMap Nat ℚ :=
  match map.lookup bucket with
  | none => map.insert bucket share
  | some sh => map.insert bucket ((sh + share) / 2)

/-- The step of `serialize/3` to buckets of the double size. -/
def SyncBuckets.double (fold : MapOrder) (buckets : SyncBuckets) : SyncBuckets :=
  ⟨buckets.size * 2,
    (fold.order buckets.map.entries).foldl (fun acc e => updateWith acc (e.1 / 2) e.2) SortedMap.empty⟩

/-- `⊤` is `infinity`. The recursion may not end. -/
def SyncBuckets.serializeFrom (fold : MapOrder) (termToBinary : SyncBuckets → Bytes) (maxSize : Nat) :
    Nat → SyncBuckets → WithTop Nat → Option (Except SerializeError (SyncBuckets × Bytes))
  | 0, _, _ => none
  | fuel + 1, buckets, prevSerializedSize =>
    let s := termToBinary buckets
    let serializedSize := s.length
    if serializedSize > maxSize then
      if (serializedSize : WithTop Nat) > prevSerializedSize then some (.error .uncompressableBuckets)
      else serializeFrom fold termToBinary maxSize fuel (buckets.double fold) serializedSize
    else some (.ok (buckets, s))

def SyncBuckets.serialize (fold : MapOrder) (termToBinary : SyncBuckets → Bytes) (fuel : Nat) (buckets : SyncBuckets)
    (maxSize : Nat) : Option (Except SerializeError (SyncBuckets × Bytes)) :=
  serializeFrom fold termToBinary maxSize fuel buckets ⊤

section Adding

variable {X P : Finset Nat} {m : SortedMap Nat ℚ} {size fuel s e b : Nat}

/-- The number of bytes in a bucket. -/
def count (size : Nat) (X : Finset Nat) (b : Nat) : Nat := (X ∩ Finset.Ico (b * size) ((b + 1) * size)).card

lemma count_le : count size X b ≤ size := by
  have hle : count size X b ≤ (Finset.Ico (b * size) ((b + 1) * size)).card :=
    Finset.card_le_card Finset.inter_subset_right
  rwa [Nat.card_Ico, Nat.add_mul, Nat.one_mul, Nat.add_sub_cancel_left] at hle

/-- The shares are those of a set of bytes, and the buckets without bytes have none. -/
def SharesOf (size : Nat) (X : Finset Nat) (m : SortedMap Nat ℚ) : Prop :=
  ∀ b, m.lookup b = if count size X b = 0 then none else some ((count size X b : ℚ) / size)

lemma SharesOf.getD (h : SharesOf size X m) : (m.lookup b).getD 0 = (count size X b : ℚ) / size := by
  rw [h b]
  split_ifs with hzero <;> simp [hzero]

lemma mem_bucket_iff (hsize : 0 < size) {x : Nat} : x ∈ Finset.Ico (b * size) ((b + 1) * size) ↔ x / size = b := by
  rw [Finset.mem_Ico, Nat.div_eq_iff hsize, Nat.add_mul]
  omega

lemma SharesOf.insert (h : SharesOf size X m) (hsize : 0 < size) (hP : ∀ x ∈ P, x / size = b) (hne : P.Nonempty)
    (hdisjoint : Disjoint X P) :
    SharesOf size (X ∪ P) (m.insert b (min 1 (((m.lookup b).getD 0 * size + P.card) / size))) := by
  intro b'
  have hpos : (0 : ℚ) < size := by exact_mod_cast hsize
  rw [SortedMap.lookup_insert]
  by_cases hb : b' = b
  · subst hb
    have hin : P ∩ Finset.Ico (b' * size) ((b' + 1) * size) = P :=
      Finset.inter_eq_left.mpr fun x hx => (mem_bucket_iff hsize).mpr (hP x hx)
    have hcount : count size (X ∪ P) b' = count size X b' + P.card := by
      rw [count, Finset.union_inter_distrib_right, hin,
        Finset.card_union_of_disjoint (hdisjoint.mono_left Finset.inter_subset_left), count]
    have hcard := Finset.card_pos.mpr hne
    have hle : (count size (X ∪ P) b' : ℚ) / size ≤ 1 := by
      rw [div_le_one hpos]
      exact_mod_cast count_le
    rw [if_pos rfl, if_neg (by omega), h.getD, div_mul_cancel₀ _ hpos.ne', ← Nat.cast_add, ← hcount, min_eq_right hle]
  · have hout : P ∩ Finset.Ico (b' * size) ((b' + 1) * size) = ∅ := by
      rw [← Finset.disjoint_iff_inter_eq_empty, Finset.disjoint_left]
      intro x hx hx'
      exact hb (((mem_bucket_iff hsize).mp hx').symm.trans (hP x hx))
    have hcount : count size (X ∪ P) b' = count size X b' := by
      rw [count, Finset.union_inter_distrib_right, hout, Finset.union_empty, count]
    rw [if_neg hb, h b', hcount]

lemma ceilInt_eq (n size : Nat) : ceilInt n size = (n / size + 1) * size := by
  have hdiv := Nat.div_add_mod' n size
  unfold ceilInt
  rw [Nat.add_mul]
  omega

lemma bucket_border (hsize : 0 < size) (hlt : s < e) :
    Finset.Ico s e = Finset.Ico s (min (ceilInt s size) e) ∪ Finset.Ico (ceilInt s size) e ∧
      Disjoint (Finset.Ico s (min (ceilInt s size) e)) (Finset.Ico (ceilInt s size) e) ∧
      (∀ x ∈ Finset.Ico s (min (ceilInt s size) e), x / size = s / size) ∧ s < min (ceilInt s size) e := by
  have hceil := ceilInt_eq s size
  have hdiv := Nat.div_add_mod' s size
  have hmod := Nat.mod_lt s hsize
  have hmul : (s / size + 1) * size = s / size * size + size := by rw [Nat.add_mul, Nat.one_mul]
  refine ⟨?_, ?_, fun x hx => ?_, by omega⟩
  · ext x
    rw [Finset.mem_union, Finset.mem_Ico, Finset.mem_Ico, Finset.mem_Ico]
    omega
  · refine Finset.disjoint_left.mpr fun x hx hx' => ?_
    rw [Finset.mem_Ico] at hx hx'
    omega
  · rw [Finset.mem_Ico] at hx
    rw [← mem_bucket_iff hsize, Finset.mem_Ico]
    omega

lemma SharesOf.add (fuel : Nat) (h : SharesOf size X m) (hsize : 0 < size) (hfuel : e - s ≤ fuel)
    (hdisjoint : Disjoint X (Finset.Ico s e)) :
    SharesOf size (X ∪ Finset.Ico s e) (SyncBuckets.add fuel s e size m) := by
  induction fuel generalizing s X m with
  | zero =>
    rw [Finset.Ico_eq_empty (by omega), Finset.union_empty]
    exact h
  | succ fuel ih =>
    rw [SyncBuckets.add]
    by_cases hdone : s ≥ e
    · rw [if_pos hdone, Finset.Ico_eq_empty (by omega), Finset.union_empty]
      exact h
    · obtain ⟨hpart, hapart, hbucket, hborder⟩ := bucket_border hsize (Nat.lt_of_not_le hdone)
      rw [hpart, Finset.disjoint_union_right] at hdisjoint
      have hstep := h.insert hsize hbucket (Finset.nonempty_Ico.mpr hborder) hdisjoint.1
      rw [Nat.card_Ico] at hstep
      rw [if_neg hdone, hpart, ← Finset.union_assoc]
      exact ih hstep (by omega) (Finset.disjoint_union_left.mpr ⟨hdisjoint.2, hapart⟩)

/-- The offsets of the bytes of intervals. -/
def offsets : List (Int ×ₗ Int) → Finset Nat
  | [] => ∅
  | p :: l => Finset.Ico (ofLex p).2.toNat (ofLex p).1.toNat ∪ offsets l

lemma mem_offsets {l : List (Int ×ₗ Int)} {x : Nat} :
    x ∈ offsets l ↔ ∃ p ∈ l, (ofLex p).2.toNat ≤ x ∧ x < (ofLex p).1.toNat := by
  induction l with
  | nil => simp [offsets]
  | cons p l ih => simp [offsets, ih]

lemma SharesOf.addIntervals (l : List (Int ×ₗ Int)) (h : SharesOf size X m) (hsize : 0 < size)
    (hnew : Disjoint X (offsets l)) (hl : l.Pairwise fun p q => Disjoint
      (Finset.Ico (ofLex p).2.toNat (ofLex p).1.toNat) (Finset.Ico (ofLex q).2.toNat (ofLex q).1.toNat)) :
    SharesOf size (X ∪ offsets l) (SyncBuckets.addIntervals size l m) := by
  induction l generalizing X m with
  | nil =>
    rw [offsets, Finset.union_empty]
    exact h
  | cons p l ih =>
    rw [List.pairwise_cons] at hl
    rw [offsets, Finset.disjoint_union_right] at hnew
    have hrest : Disjoint (X ∪ Finset.Ico (ofLex p).2.toNat (ofLex p).1.toNat) (offsets l) := by
      rw [Finset.disjoint_union_left]
      refine ⟨hnew.2, Finset.disjoint_left.mpr fun x hx hx' => ?_⟩
      obtain ⟨q, hq, hxq⟩ := mem_offsets.mp hx'
      exact Finset.disjoint_left.mp (hl.1 q hq) hx (Finset.mem_Ico.mpr hxq)
    rw [offsets, ← Finset.union_assoc]
    exact ih (h.add _ hsize le_rfl hnew.1) hrest hl.2

lemma fromIntervals_spec (I : OffsetIntervals) :
    SharesOf defaultSyncBucketSize (offsets I.set.elems) (SyncBuckets.fromIntervals I).map := by
  have hempty : SharesOf defaultSyncBucketSize ∅ SyncBuckets.new.map := by
    intro b
    rw [count, Finset.empty_inter, Finset.card_empty, if_pos rfl]
    rfl
  have hapart : I.set.elems.Pairwise fun p q => Disjoint
      (Finset.Ico (ofLex p).2.toNat (ofLex p).1.toNat) (Finset.Ico (ofLex q).2.toNat (ofLex q).1.toNat) := by
    refine I.set.sorted.imp_of_mem fun {p q} hp hq hlt => Finset.disjoint_left.mpr fun x hx hx' => ?_
    have happart := I.canonical.apart (ofLex p) hp (ofLex q) hq fun h => hlt.ne (ofLex_inj.mp h)
    rw [Finset.mem_Ico] at hx hx'
    omega
  have hall := hempty.addIntervals I.set.elems (by decide) (Finset.disjoint_empty_left _) hapart
  rwa [Finset.empty_union] at hall

end Adding

section Merging

variable {X : Finset Nat} {fold : MapOrder} {buckets : SyncBuckets} {l : List (Nat × ℚ)} {size b k : Nat} {v : ℚ}

/-- The share of two halves. A half without a share does not count. -/
def halves : Option ℚ → Option ℚ → Option ℚ
  | none, share => share
  | some share, none => some share
  | some share, some share' => some ((share + share') / 2)

def find (l : List (Nat × ℚ)) (k : Nat) : Option ℚ := (l.find? (·.1 = k)).map Prod.snd

lemma find_eq_some (hl : (l.map Prod.fst).Nodup) : find l k = some v ↔ (k, v) ∈ l := by
  rw [find, Option.map_eq_some_iff]
  constructor
  · rintro ⟨e, he, rfl⟩
    have hk : e.1 = k := by simpa using List.find?_some he
    rw [← hk]
    exact List.mem_of_find?_eq_some he
  · intro hmem
    obtain ⟨e, he⟩ : ∃ e, l.find? (·.1 = k) = some e :=
      Option.isSome_iff_exists.mp (List.find?_isSome.mpr ⟨(k, v), hmem, by simp⟩)
    have hk : e.1 = k := by simpa using List.find?_some he
    refine ⟨e, he, ?_⟩
    rw [List.inj_on_of_nodup_map hl (List.mem_of_find?_eq_some he) hmem hk]

lemma find_concat (e : Nat × ℚ) (hnew : e.1 ∉ l.map Prod.fst) :
    find (l ++ [e]) k = if k = e.1 then some e.2 else find l k := by
  unfold find
  rw [List.find?_append]
  by_cases hk : k = e.1
  · subst hk
    have hnone : l.find? (·.1 = e.1) = none := by
      rw [List.find?_eq_none]
      intro a ha heq
      exact hnew (List.mem_map.mpr ⟨a, ha, by simpa using heq⟩)
    simp [hnone]
  · simp [hk, Ne.symm hk]

lemma lookup_updateWith {m : SortedMap Nat ℚ} (bucket : Nat) (share : ℚ) :
    (updateWith m bucket share).lookup b = if b = bucket then halves (m.lookup bucket) (some share) else m.lookup b := by
  unfold updateWith
  cases hm : m.lookup bucket <;> simp [SortedMap.lookup_insert, halves]

lemma halves_comm (x y : Option ℚ) : halves x y = halves y x := by
  cases x <;> cases y <;> simp [halves, add_comm]

lemma lookup_foldl_updateWith (l : List (Nat × ℚ)) (hl : (l.map Prod.fst).Nodup) :
    (l.foldl (fun acc e => updateWith acc (e.1 / 2) e.2) SortedMap.empty).lookup b =
      halves (find l (2 * b)) (find l (2 * b + 1)) := by
  induction l using List.reverseRecOn with
  | nil => rfl
  | append_singleton l e ih =>
    rw [List.map_append, List.map_singleton, List.nodup_append] at hl
    obtain ⟨hl, -, hnew⟩ := hl
    have hnot : e.1 ∉ l.map Prod.fst := fun h => hnew _ h _ (List.mem_singleton_self _) rfl
    have hnone : find l e.1 = none := by
      rw [Option.eq_none_iff_forall_ne_some]
      intro v hv
      exact hnot (List.mem_map.mpr ⟨_, (find_eq_some hl).mp hv, rfl⟩)
    rw [List.foldl_append, List.foldl_cons, List.foldl_nil, lookup_updateWith, find_concat e hnot, find_concat e hnot]
    by_cases hb : b = e.1 / 2
    · have hhalf : e.1 = 2 * b ∨ e.1 = 2 * b + 1 := by omega
      rw [if_pos hb, ← hb, ih hl]
      rcases hhalf with heven | hodd
      · rw [if_pos heven.symm, if_neg (by omega), ← heven, hnone, halves_comm]
        rfl
      · rw [if_neg (by omega), if_pos hodd.symm, ← hodd, hnone, halves_comm _ none]
        rfl
    · rw [if_neg hb, ih hl, if_neg (by omega), if_neg (by omega)]

lemma lookup_double : (buckets.double fold).map.lookup b =
    halves (buckets.map.lookup (2 * b)) (buckets.map.lookup (2 * b + 1)) := by
  have hkeys : ((fold.order buckets.map.entries).map Prod.fst).Nodup := by
    rw [((fold.perm buckets.map.entries).map Prod.fst).nodup_iff]
    exact (List.pairwise_map.mpr buckets.map.sorted).imp fun h => h.ne
  have hfind : ∀ k, find (fold.order buckets.map.entries) k = buckets.map.lookup k := by
    intro k
    apply Option.ext
    intro v
    rw [find_eq_some hkeys, (fold.perm _).mem_iff, SortedMap.lookup_eq_some]
  rw [SyncBuckets.double, lookup_foldl_updateWith _ hkeys, hfind, hfind]

/-- The bytes of a bucket, as a share of it. -/
def trueShare (size : Nat) (X : Finset Nat) (b : Nat) : ℚ := count size X b / size

/-- The recorded shares are those of the buckets with bytes, and none is too small. -/
structure Estimates (X : Finset Nat) (buckets : SyncBuckets) : Prop where
  size_pos : 0 < buckets.size
  populated : ∀ b, buckets.map.lookup b = none ↔ count buckets.size X b = 0
  le_share : ∀ b v, buckets.map.lookup b = some v → trueShare buckets.size X b ≤ v
  share_le : ∀ b v, buckets.map.lookup b = some v → v ≤ 1

def Exact (X : Finset Nat) (buckets : SyncBuckets) : Prop :=
  ∀ b, (buckets.map.lookup b).getD 0 = trueShare buckets.size X b

/-- The two halves of every bucket of the double size have bytes, or neither has. -/
def Paired (size : Nat) (X : Finset Nat) : Prop := ∀ b, count size X (2 * b) = 0 ↔ count size X (2 * b + 1) = 0

lemma count_double (size : Nat) (X : Finset Nat) (b : Nat) :
    count (size * 2) X b = count size X (2 * b) + count size X (2 * b + 1) := by
  have hparts : Finset.Ico (b * (size * 2)) ((b + 1) * (size * 2)) =
      Finset.Ico (2 * b * size) ((2 * b + 1) * size) ∪ Finset.Ico ((2 * b + 1) * size) ((2 * b + 1 + 1) * size) := by
    rw [Finset.Ico_union_Ico_eq_Ico (Nat.mul_le_mul_right _ (by omega)) (Nat.mul_le_mul_right _ (by omega))]
    congr 1 <;> ring
  have hdisjoint : Disjoint (X ∩ Finset.Ico (2 * b * size) ((2 * b + 1) * size))
      (X ∩ Finset.Ico ((2 * b + 1) * size) ((2 * b + 1 + 1) * size)) :=
    (Finset.Ico_disjoint_Ico_consecutive _ _ _).mono Finset.inter_subset_right Finset.inter_subset_right
  rw [count, hparts, Finset.inter_union_distrib_left, Finset.card_union_of_disjoint hdisjoint, count, count]

lemma trueShare_double (size : Nat) (X : Finset Nat) (b : Nat) :
    trueShare (size * 2) X b = (trueShare size X (2 * b) + trueShare size X (2 * b + 1)) / 2 := by
  rw [trueShare, trueShare, trueShare, count_double]
  push_cast
  ring

lemma trueShare_eq_zero (hsize : 0 < size) : trueShare size X b = 0 ↔ count size X b = 0 := by
  have hne : (size : ℚ) ≠ 0 := by exact_mod_cast hsize.ne'
  rw [trueShare, div_eq_zero_iff, or_iff_left hne, Nat.cast_eq_zero]

lemma trueShare_nonneg : 0 ≤ trueShare size X b := by
  unfold trueShare
  positivity

lemma Estimates.cases (h : Estimates X buckets) (b : Nat) :
    (buckets.map.lookup b = none ∧ trueShare buckets.size X b = 0) ∨
      ∃ v, buckets.map.lookup b = some v ∧ 0 < trueShare buckets.size X b ∧ trueShare buckets.size X b ≤ v ∧ v ≤ 1 := by
  cases hb : buckets.map.lookup b with
  | none => exact .inl ⟨rfl, (trueShare_eq_zero h.size_pos).mpr ((h.populated b).mp hb)⟩
  | some v =>
    have hne : trueShare buckets.size X b ≠ 0 := by
      rw [Ne, trueShare_eq_zero h.size_pos, ← h.populated b, hb]
      simp
    exact .inr ⟨v, rfl, lt_of_le_of_ne trueShare_nonneg hne.symm, h.le_share b v hb, h.share_le b v hb⟩

lemma Estimates.double_cases (h : Estimates X buckets) (fold : MapOrder) (b : Nat) :
    ((buckets.double fold).map.lookup b = none ∧ trueShare (buckets.size * 2) X b = 0) ∨
      ∃ v, (buckets.double fold).map.lookup b = some v ∧ 0 < trueShare (buckets.size * 2) X b ∧
        trueShare (buckets.size * 2) X b ≤ v ∧ v ≤ 1 := by
  rw [lookup_double, trueShare_double]
  rcases h.cases (2 * b) with ⟨hx, hx0⟩ | ⟨x, hx, hxpos, hxle, hx1⟩ <;>
    rcases h.cases (2 * b + 1) with ⟨hy, hy0⟩ | ⟨y, hy, hypos, hyle, hy1⟩ <;> rw [hx, hy]
  · exact .inl ⟨rfl, by linarith⟩
  · exact .inr ⟨y, rfl, by linarith, by linarith, hy1⟩
  · exact .inr ⟨x, rfl, by linarith, by linarith, hx1⟩
  · exact .inr ⟨(x + y) / 2, rfl, by linarith, by linarith, by linarith⟩

lemma Estimates.double (h : Estimates X buckets) (fold : MapOrder) : Estimates X (buckets.double fold) := by
  have hpos : 0 < buckets.size * 2 := Nat.mul_pos h.size_pos Nat.two_pos
  refine ⟨hpos, fun b => ?_, fun b v hb => ?_, fun b v hb => ?_⟩ <;>
    rcases h.double_cases fold b with ⟨hnone, hzero⟩ | ⟨w, hw, hwpos, hle, hle1⟩
  · exact iff_of_true hnone ((trueShare_eq_zero hpos).mp hzero)
  · refine iff_of_false (by simp [hw]) fun hcount => hwpos.ne' ((trueShare_eq_zero hpos).mpr hcount)
  · rw [hnone] at hb
    cases hb
  · rw [hw] at hb
    cases hb
    exact hle
  · rw [hnone] at hb
    cases hb
  · rw [hw] at hb
    cases hb
    exact hle1

lemma share_double_iff (h : Estimates X buckets) (fold : MapOrder) (b : Nat) :
    ((buckets.double fold).map.lookup b).getD 0 = trueShare (buckets.size * 2) X b ↔
      ((buckets.map.lookup (2 * b)).getD 0 = trueShare buckets.size X (2 * b) ∧
        (buckets.map.lookup (2 * b + 1)).getD 0 = trueShare buckets.size X (2 * b + 1)) ∧
      (count buckets.size X (2 * b) = 0 ↔ count buckets.size X (2 * b + 1) = 0) := by
  rw [lookup_double, trueShare_double, ← trueShare_eq_zero h.size_pos, ← trueShare_eq_zero h.size_pos]
  rcases h.cases (2 * b) with ⟨hx, hx0⟩ | ⟨x, hx, hxpos, hxle, -⟩ <;>
    rcases h.cases (2 * b + 1) with ⟨hy, hy0⟩ | ⟨y, hy, hypos, hyle, -⟩ <;>
    rw [hx, hy] <;> simp only [halves, Option.getD_some, Option.getD_none]
  · simp [hx0, hy0]
  · refine iff_of_false (fun hsum => ?_) fun hboth => hypos.ne' (hboth.2.mp hx0)
    linarith
  · refine iff_of_false (fun hsum => ?_) fun hboth => hxpos.ne' (hboth.2.mpr hy0)
    linarith
  · constructor
    · intro hsum
      exact ⟨⟨by linarith, by linarith⟩, iff_of_false hxpos.ne' hypos.ne'⟩
    · rintro ⟨⟨hx2, hy2⟩, -⟩
      rw [hx2, hy2]

lemma exact_double_iff (h : Estimates X buckets) (fold : MapOrder) :
    Exact X (buckets.double fold) ↔ Exact X buckets ∧ Paired buckets.size X := by
  constructor
  · intro hexact
    have hboth := fun b => (share_double_iff h fold b).mp (hexact b)
    refine ⟨fun b => ?_, fun b => (hboth b).2⟩
    rcases Nat.even_or_odd' b with ⟨c, rfl | rfl⟩
    · exact (hboth c).1.1
    · exact (hboth c).1.2
  · rintro ⟨hexact, hpaired⟩ b
    exact (share_double_iff h fold b).mpr ⟨⟨hexact (2 * b), hexact (2 * b + 1)⟩, hpaired b⟩

lemma SharesOf.estimates (h : SharesOf buckets.size X buckets.map) (hsize : 0 < buckets.size) : Estimates X buckets := by
  have hpos : (0 : ℚ) < buckets.size := by exact_mod_cast hsize
  have hshare : ∀ b v, buckets.map.lookup b = some v → v = trueShare buckets.size X b := by
    intro b v hb
    rw [h b] at hb
    split_ifs at hb
    exact (Option.some_inj.mp hb).symm
  refine ⟨hsize, fun b => ?_, fun b v hb => (hshare b v hb).ge, fun b v hb => ?_⟩
  · rw [h b]
    split_ifs with hzero <;> simp [hzero]
  · rw [hshare b v hb, trueShare, div_le_one hpos]
    exact_mod_cast count_le

lemma SharesOf.exact (h : SharesOf buckets.size X buckets.map) : Exact X buckets := fun _ => h.getD

section Runs

variable {termToBinary : SyncBuckets → Bytes} {maxSize : Nat} {out : SyncBuckets} {bytes : Bytes}

lemma size_iterate (fold : MapOrder) (buckets : SyncBuckets) (k : Nat) :
    ((SyncBuckets.double fold)^[k] buckets).size = buckets.size * 2 ^ k := by
  induction k with
  | zero => simp
  | succ k ih =>
    rw [Function.iterate_succ_apply', SyncBuckets.double, ih]
    ring

lemma exact_iterate_iff (h : Estimates X buckets) (fold : MapOrder) (k : Nat) :
    Estimates X ((SyncBuckets.double fold)^[k] buckets) ∧
      (Exact X ((SyncBuckets.double fold)^[k] buckets) ↔
        Exact X buckets ∧ ∀ j < k, Paired (buckets.size * 2 ^ j) X) := by
  induction k with
  | zero => exact ⟨h, by simp⟩
  | succ k ih =>
    obtain ⟨hest, hexact⟩ := ih
    rw [Function.iterate_succ_apply']
    refine ⟨hest.double fold, ?_⟩
    rw [exact_double_iff hest fold, hexact, size_iterate, and_assoc, Nat.forall_lt_succ_right]

lemma serializeFrom_ok (fuel : Nat) (prev : WithTop Nat)
    (hrun : SyncBuckets.serializeFrom fold termToBinary maxSize fuel buckets prev = some (.ok (out, bytes))) :
    ∃ k, out = (SyncBuckets.double fold)^[k] buckets := by
  induction fuel generalizing buckets prev with
  | zero => cases hrun
  | succ fuel ih =>
    rw [SyncBuckets.serializeFrom] at hrun
    split_ifs at hrun with hbig hgrew
    · cases hrun
    · obtain ⟨k, hk⟩ := ih _ hrun
      exact ⟨k + 1, hk⟩
    · cases hrun
      exact ⟨0, rfl⟩

end Runs

end Merging

/-- The number of bytes of a set of intervals from one offset up to another. -/
def bytesIn (I : OffsetIntervals) (lo hi : Nat) : Nat := (offsets I.set.elems ∩ Finset.Ico lo hi).card

/-- The shares of buckets of any size are between zero and one. They are exact exactly when at every merge both halves
of a bucket had bytes, or neither. -/
theorem serialized_shares_iff (fold : MapOrder) (termToBinary : SyncBuckets → Bytes) (I : OffsetIntervals)
    (maxSize fuel : Nat) (out : SyncBuckets) (bytes : Bytes)
    (hrun : SyncBuckets.serialize fold termToBinary fuel (SyncBuckets.fromIntervals I) maxSize =
      some (.ok (out, bytes))) :
    ∃ k, out.size = defaultSyncBucketSize * 2 ^ k ∧
      (∀ b share, out.map.lookup b = some share → 0 < share ∧ share ≤ 1) ∧
      ((∀ b, (out.map.lookup b).getD 0 = (bytesIn I (b * out.size) ((b + 1) * out.size) : ℚ) / out.size) ↔
        ∀ j < k, ∀ b,
          bytesIn I (2 * b * (defaultSyncBucketSize * 2 ^ j)) ((2 * b + 1) * (defaultSyncBucketSize * 2 ^ j)) = 0 ↔
          bytesIn I ((2 * b + 1) * (defaultSyncBucketSize * 2 ^ j))
            ((2 * b + 1 + 1) * (defaultSyncBucketSize * 2 ^ j)) = 0) := by
  have hshares := fromIntervals_spec I
  obtain ⟨k, rfl⟩ := serializeFrom_ok fuel ⊤ hrun
  have hestimates : Estimates (offsets I.set.elems) (SyncBuckets.fromIntervals I) :=
    hshares.estimates (show 0 < defaultSyncBucketSize by decide)
  obtain ⟨hest, hiff⟩ := exact_iterate_iff hestimates fold k
  refine ⟨k, size_iterate fold _ k, fun b share hshare => ?_, hiff.trans (and_iff_right hshares.exact)⟩
  rcases hest.cases b with ⟨hnone, -⟩ | ⟨v, hv, hpos, hle, hle1⟩
  · rw [hnone] at hshare
    cases hshare
  · rw [hv] at hshare
    cases hshare
    exact ⟨hpos.trans_le hle, hle1⟩

lemma canonical_pair {e s e' s' : Int} (h : s < e) (hgap : e < s') (h' : s' < e') :
    Canonical (.ofList [toLex (e, s), toLex (e', s')]) := by
  have hmem : ∀ p : Int × Int, p ∈ family (.ofList [toLex (e, s), toLex (e', s')]) ↔ p = (e, s) ∨ p = (e', s') := by
    intro p
    rw [mem_family, OrdSet.mem_ofList, List.mem_pair, toLex_inj, toLex_inj]
  constructor
  · intro p hp
    rcases (hmem p).mp hp with rfl | rfl
    · exact h
    · exact h'
  · intro p hp q hq hne
    rcases (hmem p).mp hp with rfl | rfl <;> rcases (hmem q).mp hq with rfl | rfl
    · exact absurd rfl hne
    · exact .inl hgap
    · exact .inr hgap
    · exact absurd rfl hne

/-- Five bytes at the start of the first bucket, and five bytes at the start of the third one. -/
def apartIntervals : OffsetIntervals where
  set := .ofList [toLex (5, 0), toLex (20000000005, 20000000000)]
  canonical := canonical_pair (by decide) (by decide) (by decide)
  nonneg := by
    have hnonneg : ∀ p ∈ (OrdSet.ofList [toLex (5, 0), toLex (20000000005, 20000000000)] : IntervalSet).elems,
        0 ≤ (ofLex p).2 := by decide
    exact fun p hp => hnonneg (toLex p) hp

def sampleFold : MapOrder := ⟨id, fun _ => .refl _⟩

/-- A byte for every bucket. -/
def sampleTermToBinary (buckets : SyncBuckets) : Bytes := List.replicate buckets.map.size 0

lemma serialize_apart : ∃ out bytes,
    SyncBuckets.serialize sampleFold sampleTermToBinary 3 (SyncBuckets.fromIntervals apartIntervals) 1 =
      some (.ok (out, bytes)) ∧ out.size = 40000000000 ∧ out.map.lookup 0 = some (5 / 10000000000) := by
  have hresult : ((SyncBuckets.serialize sampleFold sampleTermToBinary 3 (SyncBuckets.fromIntervals apartIntervals)
      1).bind Except.toOption).map (fun r => (r.1.size, r.1.map.lookup 0)) =
      some (40000000000, some (5 / 10000000000)) := by
    decide +kernel
  obtain ⟨r, hr, heq⟩ := Option.map_eq_some_iff.mp hresult
  obtain ⟨r', hr', hok⟩ := Option.bind_eq_some_iff.mp hr
  cases r' with
  | error e => cases hok
  | ok r' =>
    cases hok
    exact ⟨r.1, r.2, hr', (Prod.ext_iff.mp heq).1, (Prod.ext_iff.mp heq).2⟩

theorem serialized_shares_apart : ∃ out bytes,
    SyncBuckets.serialize sampleFold sampleTermToBinary 3 (SyncBuckets.fromIntervals apartIntervals) 1 =
      some (.ok (out, bytes)) ∧
    ∃ k, out.size = defaultSyncBucketSize * 2 ^ k ∧
      (∀ b share, out.map.lookup b = some share → 0 < share ∧ share ≤ 1) ∧
      ((∀ b, (out.map.lookup b).getD 0 =
          (bytesIn apartIntervals (b * out.size) ((b + 1) * out.size) : ℚ) / out.size) ↔
        ∀ j < k, ∀ b,
          bytesIn apartIntervals (2 * b * (defaultSyncBucketSize * 2 ^ j))
            ((2 * b + 1) * (defaultSyncBucketSize * 2 ^ j)) = 0 ↔
          bytesIn apartIntervals ((2 * b + 1) * (defaultSyncBucketSize * 2 ^ j))
            ((2 * b + 1 + 1) * (defaultSyncBucketSize * 2 ^ j)) = 0) := by
  obtain ⟨out, bytes, hrun, -, -⟩ := serialize_apart
  exact ⟨out, bytes, hrun, serialized_shares_iff sampleFold sampleTermToBinary apartIntervals 1 3 out bytes hrun⟩

/-- The merged bucket has ten bytes and the share of twenty. -/
theorem merged_share_too_big : ∃ out bytes,
    SyncBuckets.serialize sampleFold sampleTermToBinary 3 (SyncBuckets.fromIntervals apartIntervals) 1 =
      some (.ok (out, bytes)) ∧
    (out.map.lookup 0).getD 0 ≠ (bytesIn apartIntervals (0 * out.size) ((0 + 1) * out.size) : ℚ) / out.size := by
  obtain ⟨out, bytes, hrun, hsize, hshare⟩ := serialize_apart
  have hbelow : ∀ x ∈ offsets apartIntervals.set.elems, x < 40000000000 := by decide
  have hcard : (offsets apartIntervals.set.elems).card = 10 := by decide
  have hbytes : bytesIn apartIntervals (0 * 40000000000) ((0 + 1) * 40000000000) = 10 := by
    rw [bytesIn, Finset.inter_eq_left.mpr, hcard]
    intro x hx
    have hlt := hbelow x hx
    rw [Finset.mem_Ico]
    omega
  refine ⟨out, bytes, hrun, ?_⟩
  rw [hsize, hshare, hbytes]
  norm_num

end Arweave.Peers.DataDiscovery
