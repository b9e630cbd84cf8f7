import Mathlib.Order.Bounds.Basic
import Arweave.Ledger.Rewards

/-!
# Rewards of several denominations

The folds over the reward history keep an amount together with its denomination and bring it to the
one of the next reward only when they need to. The history is newest first and its denominations never
fall, so the folds go from the oldest reward on.
-/

namespace Arweave.Ledger
open Arweave.Lib Arweave.Tx

variable {addr : Bytes} {l rewardHistory : List RewardEntry} {min : Option Int} {sum a b : Int} {base denomination : Nat}

/-- The denominations of the rewards from the oldest one on. -/
structure Rising (base : Nat) (l : List RewardEntry) : Prop where
  pairwise : l.Pairwise fun older newer => older.denomination ≤ newer.denomination
  base_le : ∀ entry ∈ l, base ≤ entry.denomination

lemma Rising.tail {entry : RewardEntry} (h : Rising base (entry :: l)) : Rising entry.denomination l :=
  ⟨(List.pairwise_cons.mp h.pairwise).2, (List.pairwise_cons.mp h.pairwise).1⟩

lemma Rising.skip {entry : RewardEntry} (h : Rising base (entry :: l)) : Rising base l :=
  ⟨(List.pairwise_cons.mp h.pairwise).2, (List.forall_mem_cons.mp h.base_le).2⟩

lemma Rising.head_le {entry : RewardEntry} (h : Rising base (entry :: l)) : base ≤ entry.denomination :=
  h.base_le entry List.mem_cons_self

lemma rising_reverse (hfalling : rewardHistory.Pairwise fun newer older => older.denomination ≤ newer.denomination)
    (hfirst : ∀ entry ∈ rewardHistory, 1 ≤ entry.denomination) : Rising 1 rewardHistory.reverse :=
  ⟨List.pairwise_reverse.mpr hfalling, fun entry h => hfirst entry (List.mem_reverse.mp h)⟩

lemma getRewardSumFrom_returns (hrising : Rising base l) (hbase : base ≤ denomination)
    (hle : ∀ entry ∈ l, entry.denomination ≤ denomination) :
    ∃ sum2 base2, getRewardSumFrom addr l sum base = some (sum2, base2) ∧ base2 ≤ denomination := by
  induction l generalizing sum base with
  | nil => exact ⟨sum, base, rfl, hbase⟩
  | cons entry l ih =>
    rw [List.forall_mem_cons] at hle
    unfold getRewardSumFrom
    split_ifs with haddr
    · rw [redenominate_eq, if_pos hrising.head_le]
      exact ih hrising.tail hle.1 hle.2
    · exact ih hrising.skip hbase hle.2

lemma min?_cons_cons : (a :: b :: l.map (RewardEntry.value denomination)).min? =
    (Min.min a b :: l.map (RewardEntry.value denomination)).min? := by
  rw [List.min?_cons', List.min?_cons', List.foldl_cons]

/-- The rewards before are one amount, and it is compared in the denomination of the next reward. -/
lemma getMinimalRewardFrom_returns (hrising : Rising base l) (hbase : 1 ≤ base ∧ base ≤ denomination)
    (hle : ∀ entry ∈ l, entry.denomination ≤ denomination) :
    ∃ min2 base2, getMinimalRewardFrom l min base = some (min2, base2) ∧ base2 ≤ denomination ∧
      min2.map (· * scale base2 denomination) =
        ((min.map (· * scale base denomination)).toList ++ l.map (RewardEntry.value denomination)).min? := by
  induction l generalizing min base with
  | nil =>
    refine ⟨min, base, by unfold getMinimalRewardFrom; rfl, hbase.2, ?_⟩
    cases min <;> rfl
  | cons entry l ih =>
    rw [List.forall_mem_cons] at hle
    have hentry : 1 ≤ entry.denomination ∧ entry.denomination ≤ denomination := ⟨hbase.1.trans hrising.head_le, hle.1⟩
    cases min with
    | none =>
      unfold getMinimalRewardFrom
      exact ih hrising.tail hentry hle.2
    | some min =>
      have hscale : min * scale base denomination =
          min * scale base entry.denomination * scale entry.denomination denomination := by
        rw [mul_assoc, scale_mul_scale hbase.1 hrising.head_le hle.1]
      have hpos := scale_pos entry.denomination denomination
      unfold getMinimalRewardFrom
      rw [redenominate_eq, if_pos hrising.head_le]
      simp only [bind, Option.bind_some, Option.map_some, Option.toList_some, List.singleton_append, List.map_cons,
        min?_cons_cons]
      split_ifs with hlt
      · have hvalue : entry.value denomination ≤ min * scale base denomination := by
          rw [hscale, RewardEntry.value]
          exact mul_le_mul_of_nonneg_right hlt.le hpos.le
        rw [min_eq_right hvalue]
        exact ih hrising.tail hentry hle.2
      · have hvalue : min * scale base denomination ≤ entry.value denomination := by
          rw [hscale, RewardEntry.value]
          exact mul_le_mul_of_nonneg_right (not_lt.mp hlt) hpos.le
        rw [min_eq_left hvalue]
        exact ih hrising.skip hbase hle.2

lemma redenominate_value {entry : RewardEntry} (hle : entry.denomination ≤ denomination) :
    redenominate entry.reward entry.denomination denomination = some (entry.value denomination) :=
  redenominate_eq_some.mpr ⟨hle, rfl⟩

/-- The sum of the rewards of an account and the least reward, each with the denomination it comes
with, are in the current denomination the sum and the least of the rewards in it. -/
theorem rewards_convert (addr : Bytes) (rewardHistory : List RewardEntry) (denomination : Nat)
    (hfalling : rewardHistory.Pairwise fun newer older => older.denomination ≤ newer.denomination)
    (hdenominations : ∀ entry ∈ rewardHistory, 1 ≤ entry.denomination ∧ entry.denomination ≤ denomination)
    (hdenomination : 1 ≤ denomination) :
    (∀ entry ∈ rewardHistory,
      redenominate entry.reward entry.denomination denomination = some (entry.value denomination)) ∧
    (∃ sum base, getRewardSum addr rewardHistory = some (sum, base) ∧ redenominate sum base denomination =
      some ((rewardHistory.filter fun entry => entry.addr = some addr).map (RewardEntry.value denomination)).sum) ∧
    (rewardHistory = [] → getMinimalReward rewardHistory = some (none, 1)) ∧
    (rewardHistory ≠ [] → ∃ min base least, getMinimalReward rewardHistory = some (some min, base) ∧
      redenominate min base denomination = some least ∧
      IsLeast {x | ∃ entry ∈ rewardHistory, entry.value denomination = x} least) := by
  have hrising : Rising 1 rewardHistory.reverse := rising_reverse hfalling fun entry h => (hdenominations entry h).1
  have hle : ∀ entry ∈ rewardHistory.reverse, entry.denomination ≤ denomination := fun entry h =>
    (hdenominations entry (List.mem_reverse.mp h)).2
  refine ⟨fun entry h => redenominate_value (hdenominations entry h).2, ?_, ?_, ?_⟩
  · obtain ⟨sum, base, hsum, hbase⟩ : ∃ sum base, getRewardSum addr rewardHistory = some (sum, base) ∧
        base ≤ denomination := getRewardSumFrom_returns hrising hdenomination hle
    refine ⟨sum, base, hsum, ?_⟩
    rw [redenominate_eq_some]
    exact ⟨hbase, getRewardSum_eq_some hdenominations hdenomination hsum⟩
  · rintro rfl
    rfl
  · intro hne
    obtain ⟨min2, base, hmin, hbase, hleast⟩ : ∃ min2 base, getMinimalReward rewardHistory = some (min2, base) ∧
        base ≤ denomination ∧ min2.map (· * scale base denomination) =
          (rewardHistory.reverse.map (RewardEntry.value denomination)).min? :=
      getMinimalRewardFrom_returns hrising ⟨le_rfl, hdenomination⟩ hle
    cases min2 with
    | none =>
      rw [Option.map_none, eq_comm, List.min?_eq_none_iff, List.map_eq_nil_iff, List.reverse_eq_nil_iff] at hleast
      exact absurd hleast hne
    | some min =>
      rw [Option.map_some, eq_comm, List.min?_eq_some_iff] at hleast
      obtain ⟨hmem, hlower⟩ := hleast
      refine ⟨min, base, min * scale base denomination, hmin, redenominate_eq_some.mpr ⟨hbase, rfl⟩, ?_, ?_⟩
      · simpa using hmem
      · rintro x ⟨entry, hentry, rfl⟩
        exact hlower _ (List.mem_map.mpr ⟨entry, List.mem_reverse.mpr hentry, rfl⟩)

/-- Two rewards of one account in two denominations, and one of another account between them. -/
def mixedHistory : List RewardEntry := [⟨some [1], 7, 5, 3⟩, ⟨some [2], 7, 4000, 2⟩, ⟨some [1], 7, 6, 1⟩]

theorem rewards_convert_mixedHistory :
    getRewardSum [1] mixedHistory = some (6000005, 3) ∧ getMinimalReward mixedHistory = some (some 5, 3) ∧
      redenominate 5 3 4 = some 5000 ∧ ∀ entry ∈ mixedHistory, 5000 ≤ entry.value 4 := by
  have hconvert := rewards_convert [1] mixedHistory 4 (by decide) (by decide) (by decide)
  obtain ⟨min, base, least, hmin, hleast, -, hlower⟩ := hconvert.2.2.2 (by decide)
  have hreturns : getMinimalReward mixedHistory = some (some 5, 3) := by decide
  have hconverted : redenominate 5 3 4 = some 5000 := by decide
  cases hreturns.symm.trans hmin
  cases hconverted.symm.trans hleast
  exact ⟨by decide, hreturns, hconverted, fun entry h => hlower ⟨entry, h, rfl⟩⟩

end Arweave.Ledger
