import Mathlib.Algebra.Order.BigOperators.Group.Finset
import Mathlib.Data.Finset.Max

/-!
# Spending within a budget

Elements with a cost and a rank arrive one after another. When an element that pays arrives,
the elements are kept from the highest rank down for as long as their costs fit the budget, and
all the lower ones are dropped. The order of arrival matters in general, and it is shown when
it does not.
-/

namespace Arweave.Lib.Budget
open Finset

section Affordable

variable {α κ M : Type*} [LinearOrder κ] [AddCommMonoid M] {fits : M → Prop} [DecidablePred fits]
  {cost : α → M} {rank : α → κ}

/-- The elements up to which the costs fit, from the highest rank down. -/
def affordable (fits : M → Prop) [DecidablePred fits] (cost : α → M) (rank : α → κ) (S : Finset α) : Finset α :=
  S.filter fun t => fits (∑ u ∈ S with rank t ≤ rank u, cost u)

lemma mem_affordable {S : Finset α} {t : α} :
    t ∈ affordable fits cost rank S ↔ t ∈ S ∧ fits (∑ u ∈ S with rank t ≤ rank u, cost u) := by
  rw [affordable, mem_filter]

lemma affordable_subset {S : Finset α} : affordable fits cost rank S ⊆ S := filter_subset _ _

variable [PartialOrder M] [IsOrderedAddMonoid M] {T S : Finset α} {t u : α}
  (hfits : ∀ x y, x ≤ y → fits y → fits x) (hcost : ∀ t ∈ T, 0 ≤ cost t)

include hfits hcost

lemma mem_affordable_of_le (hS : S ⊆ T) (ht : t ∈ affordable fits cost rank S) (hu : u ∈ S) (hle : rank t ≤ rank u) :
    u ∈ affordable fits cost rank S := by
  rw [mem_affordable] at ht ⊢
  refine ⟨hu, hfits _ _ ?_ ht.2⟩
  apply sum_le_sum_of_subset_of_nonneg
  · intro v hv
    rw [mem_filter] at hv ⊢
    exact ⟨hv.1, hle.trans hv.2⟩
  · intro v hv _
    exact hcost v (hS (mem_filter.mp hv).1)

lemma fits_sum_affordable (hS : S ⊆ T) (hne : (affordable fits cost rank S).Nonempty) :
    fits (∑ u ∈ affordable fits cost rank S, cost u) := by
  obtain ⟨t, ht, hmin⟩ := exists_min_image (affordable fits cost rank S) rank hne
  have heq : affordable fits cost rank S = S.filter fun u => rank t ≤ rank u := by
    ext u
    rw [mem_filter]
    constructor
    · intro hu
      exact ⟨affordable_subset hu, hmin u hu⟩
    · rintro ⟨hu, hle⟩
      exact mem_affordable_of_le hfits hcost hS ht hu hle
  rw [heq]
  exact (mem_affordable.mp ht).2

lemma mem_affordable_of_subset (hS : S ⊆ T) (ht : t ∈ affordable fits cost rank T) (htS : t ∈ S) :
    t ∈ affordable fits cost rank S := by
  rw [mem_affordable] at ht ⊢
  refine ⟨htS, hfits _ _ ?_ ht.2⟩
  apply sum_le_sum_of_subset_of_nonneg
  · exact filter_subset_filter _ hS
  · intro v hv _
    exact hcost v (mem_filter.mp hv).1

omit [PartialOrder M] [IsOrderedAddMonoid M] hfits hcost in
lemma exists_max_notMem (ht : t ∈ S) (hnot : t ∉ affordable fits cost rank S) :
    ∃ m ∈ S, m ∉ affordable fits cost rank S ∧ ∀ u ∈ S, u ∉ affordable fits cost rank S → rank u ≤ rank m := by
  classical
  have hne : (S.filter fun u => u ∉ affordable fits cost rank S).Nonempty := ⟨t, mem_filter.mpr ⟨ht, hnot⟩⟩
  obtain ⟨m, hm, hmax⟩ := exists_max_image _ rank hne
  obtain ⟨hmS, hmnot⟩ := mem_filter.mp hm
  exact ⟨m, hmS, hmnot, fun u hu hunot => hmax u (mem_filter.mpr ⟨hu, hunot⟩)⟩

end Affordable

section Arrivals

variable {α κ M : Type*} [DecidableEq α] [LinearOrder κ] [AddCommMonoid M] {fits : M → Prop} [DecidablePred fits]
  {pays : α → Prop} [DecidablePred pays] {cost : α → M} {rank : α → κ}

/-- The arrival of an element. -/
def arrive (fits : M → Prop) [DecidablePred fits] (pays : α → Prop) [DecidablePred pays] (cost : α → M) (rank : α → κ)
    (S : Finset α) (t : α) : Finset α :=
  if pays t then affordable fits cost rank (insert t S) else insert t S

/-- What is left after all the arrivals. -/
def settle (fits : M → Prop) [DecidablePred fits] (pays : α → Prop) [DecidablePred pays] (cost : α → M) (rank : α → κ)
    (l : List α) : Finset α :=
  l.foldl (arrive fits pays cost rank) ∅

lemma settle_append_singleton {l : List α} {t : α} : settle fits pays cost rank (l ++ [t]) =
    arrive fits pays cost rank (settle fits pays cost rank l) t := by
  rw [settle, List.foldl_append]
  rfl

lemma settle_subset {l : List α} : settle fits pays cost rank l ⊆ l.toFinset := by
  induction l using List.reverseRecOn with
  | nil => exact Subset.rfl
  | append_singleton l t ih =>
    have hinsert : insert t (settle fits pays cost rank l) ⊆ (l ++ [t]).toFinset := by
      intro u hu
      rw [List.mem_toFinset, List.mem_append, List.mem_singleton]
      rcases mem_insert.mp hu with rfl | hu
      · exact .inr rfl
      · exact .inl (List.mem_toFinset.mp (ih hu))
    rw [settle_append_singleton, arrive]
    split_ifs
    · exact affordable_subset.trans hinsert
    · exact hinsert

lemma settle_of_forall_not {l : List α} (hl : ∀ t ∈ l, ¬ pays t) : settle fits pays cost rank l = l.toFinset := by
  induction l using List.reverseRecOn with
  | nil => rfl
  | append_singleton l t ih =>
    rw [settle_append_singleton, arrive, if_neg (hl t (by simp)), ih fun u hu => hl u (by simp [hu])]
    ext u
    simp

variable [PartialOrder M] [IsOrderedAddMonoid M] {T S : Finset α} {l : List α} {t : α}
  (hfits : ∀ x y, x ≤ y → fits y → fits x) (hcost : ∀ t ∈ T, 0 ≤ cost t)

include hfits hcost

lemma mem_settle (hl : l.toFinset ⊆ T) (ht : t ∈ affordable fits cost rank T) (htl : t ∈ l) :
    t ∈ settle fits pays cost rank l := by
  induction l using List.reverseRecOn with
  | nil => cases htl
  | append_singleton l u ih =>
    rw [List.toFinset_append, union_subset_iff] at hl
    have hsub : insert u (settle fits pays cost rank l) ⊆ T :=
      insert_subset (hl.2 (by simp)) (settle_subset.trans hl.1)
    have hmem : t ∈ insert u (settle fits pays cost rank l) := by
      rw [mem_insert]
      rcases List.mem_append.mp htl with htl | htl
      · exact .inr (ih hl.1 htl)
      · exact .inl (List.mem_singleton.mp htl)
    rw [settle_append_singleton, arrive]
    split_ifs
    · exact mem_affordable_of_subset hfits hcost hsub ht hmem
    · exact hmem

lemma fits_sum_settle (hfree : ∀ t ∈ T, ¬ pays t → cost t = 0) (hl : l.toFinset ⊆ T)
    (ht : t ∈ settle fits pays cost rank l) (hpays : pays t) : fits (∑ u ∈ settle fits pays cost rank l, cost u) := by
  induction l using List.reverseRecOn with
  | nil => cases ht
  | append_singleton l u ih =>
    rw [List.toFinset_append, union_subset_iff] at hl
    have hu : u ∈ T := hl.2 (by simp)
    rw [settle_append_singleton, arrive] at ht ⊢
    split_ifs at ht ⊢ with hpaysu
    · exact fits_sum_affordable hfits hcost (insert_subset hu (settle_subset.trans hl.1)) ⟨t, ht⟩
    · have htl : t ∈ settle fits pays cost rank l := by
        rcases mem_insert.mp ht with rfl | ht
        · exact absurd hpays hpaysu
        · exact ht
      rw [sum_insert_of_eq_zero_if_notMem fun _ => hfree u hu hpaysu]
      exact ih hl.1 htl

lemma not_fits_of_max (hinj : Set.InjOn rank T) {m : α} (hm : m ∈ T) (hnot : m ∉ affordable fits cost rank T)
    (hmax : ∀ u ∈ T, u ∉ affordable fits cost rank T → rank u ≤ rank m) :
    ¬ fits (∑ u ∈ affordable fits cost rank T, cost u + cost m) := by
  have heq : (T.filter fun u => rank m ≤ rank u) = insert m (affordable fits cost rank T) := by
    ext u
    rw [mem_filter, mem_insert]
    constructor
    · rintro ⟨hu, hle⟩
      by_cases hmem : u ∈ affordable fits cost rank T
      · exact .inr hmem
      · exact .inl (hinj hu hm (le_antisymm (hmax u hu hmem) hle))
    · rintro (rfl | hu)
      · exact ⟨hm, le_rfl⟩
      · refine ⟨affordable_subset hu, le_of_not_ge fun hle => hnot ?_⟩
        exact mem_affordable_of_le hfits hcost Subset.rfl hu hm hle
  intro hfit
  apply hnot
  rw [mem_affordable, heq, sum_insert hnot, add_comm]
  exact ⟨hm, hfit⟩

lemma affordable_insert_max (hinj : Set.InjOn rank T) {m : α} (hm : m ∈ T)
    (hnot : m ∉ affordable fits cost rank T) (hmax : ∀ u ∈ T, u ∉ affordable fits cost rank T → rank u ≤ rank m)
    (hS : S ⊆ T) (hsub : affordable fits cost rank T ⊆ S) :
    affordable fits cost rank (insert m S) = affordable fits cost rank T := by
  have hinsert : insert m S ⊆ T := insert_subset hm hS
  ext u
  constructor
  · intro hu
    by_contra hnotu
    have hmem := mem_affordable_of_le hfits hcost hinsert hu (mem_insert_self m S)
      (hmax u (hinsert (affordable_subset hu)) hnotu)
    apply not_fits_of_max hfits hcost hinj hm hnot hmax
    refine hfits _ _ ?_ (mem_affordable.mp hmem).2
    rw [add_comm, ← sum_insert hnot]
    apply sum_le_sum_of_subset_of_nonneg
    · intro v hv
      rw [mem_filter]
      rcases mem_insert.mp hv with rfl | hv
      · exact ⟨mem_insert_self v S, le_rfl⟩
      · refine ⟨mem_insert_of_mem (hsub hv), le_of_not_ge fun hle => hnot ?_⟩
        exact mem_affordable_of_le hfits hcost Subset.rfl hv hm hle
    · intro v hv _
      exact hcost v (hinsert (mem_filter.mp hv).1)
  · intro hu
    exact mem_affordable_of_subset hfits hcost hinsert hu (mem_insert_of_mem (hsub hu))

end Arrivals

section Orders

lemma perm_erase_append {α : Type*} [DecidableEq α] {l : List α} {t : α} (ht : t ∈ l) : (l.erase t ++ [t]).Perm l :=
  (List.perm_append_singleton t _).trans (List.perm_cons_erase ht).symm

variable {α κ M : Type*} [DecidableEq α] [LinearOrder κ] [AddCommMonoid M] [PartialOrder M] [IsOrderedAddMonoid M]
  {fits : M → Prop} [DecidablePred fits] {pays : α → Prop} [DecidablePred pays] {cost : α → M} {rank : α → κ}
  {ts : List α} (hfits : ∀ x y, x ≤ y → fits y → fits x) (hcost : ∀ t ∈ ts.toFinset, 0 ≤ cost t)
  (hfree : ∀ t ∈ ts.toFinset, ¬ pays t → cost t = 0) (hinj : Set.InjOn rank ts.toFinset) (hnodup : ts.Nodup)

include hfits hcost hfree hinj hnodup

/-- With an element that pays, some order leaves the affordable elements. -/
lemma exists_settle_eq {p : α} (hp : p ∈ ts) (hpays : pays p) :
    ∃ l, l.Perm ts ∧ settle fits pays cost rank l = affordable fits cost rank ts.toFinset := by
  set P := affordable fits cost rank ts.toFinset with hP
  have hkept : ∀ l : List α, l.toFinset ⊆ ts.toFinset → P ⊆ l.toFinset → P ⊆ settle fits pays cost rank l :=
    fun l hl hsub t ht => mem_settle hfits hcost hl ht (List.mem_toFinset.mp (hsub ht))
  by_cases hall : ts.toFinset ⊆ P
  · refine ⟨ts, List.Perm.refl ts, Subset.antisymm (settle_subset.trans hall) ?_⟩
    exact hkept ts Subset.rfl affordable_subset
  -- the highest element that is not affordable comes last, or it costs nothing
  · obtain ⟨v, hv, hvP⟩ := not_subset.mp hall
    obtain ⟨m, hmT, hmP, hmax⟩ := exists_max_notMem hv hvP
    have herase : ∀ t, (ts.erase t).toFinset ⊆ ts.toFinset := fun t u hu =>
      List.mem_toFinset.mpr (List.mem_of_mem_erase (List.mem_toFinset.mp hu))
    by_cases hpaysm : pays m
    · refine ⟨ts.erase m ++ [m], perm_erase_append (List.mem_toFinset.mp hmT), ?_⟩
      rw [settle_append_singleton, arrive, if_pos hpaysm]
      apply affordable_insert_max hfits hcost hinj hmT hmP hmax (settle_subset.trans (herase m))
      apply hkept _ (herase m)
      intro t ht
      rw [List.mem_toFinset, hnodup.mem_erase_iff]
      refine ⟨?_, List.mem_toFinset.mp (affordable_subset ht)⟩
      rintro rfl
      exact hmP ht
    · have hnot := not_fits_of_max hfits hcost hinj hmT hmP hmax
      rw [hfree m hmT hpaysm, add_zero] at hnot
      have hempty : P = ∅ := by
        by_contra hne
        exact hnot (fits_sum_affordable hfits hcost Subset.rfl (nonempty_iff_ne_empty.mpr hne))
      rw [← hP, hempty, sum_empty] at hnot
      refine ⟨ts.erase p ++ [p], perm_erase_append hp, ?_⟩
      rw [settle_append_singleton, arrive, if_pos hpays, hempty, eq_empty_iff_forall_notMem]
      intro u hu
      apply hnot
      refine hfits _ _ (sum_nonneg fun v hv => hcost v ?_) (mem_affordable.mp hu).2
      rcases mem_insert.mp (mem_filter.mp hv).1 with rfl | hv
      · exact List.mem_toFinset.mpr hp
      · exact herase p (settle_subset hv)

omit hfree in
/-- When every order leaves the affordable elements, any other one pays and does not fit beside
them. -/
lemma not_fits_of_settle_eq
    (hsettle : ∀ l : List α, l.Perm ts → settle fits pays cost rank l = affordable fits cost rank ts.toFinset)
    {t : α} (ht : t ∈ ts) (hnot : t ∉ affordable fits cost rank ts.toFinset) :
    pays t ∧ ¬ fits (∑ u ∈ affordable fits cost rank ts.toFinset, cost u + cost t) := by
  set P := affordable fits cost rank ts.toFinset with hP
  have hallPay : ∀ t ∈ ts, t ∉ P → pays t := by
    intro t ht hnot
    by_contra hfreet
    have hlast := hsettle _ (perm_erase_append ht)
    rw [settle_append_singleton, arrive, if_neg hfreet] at hlast
    exact hnot (hlast ▸ mem_insert_self t _)
  refine ⟨hallPay t ht hnot, ?_⟩
  intro hfit
  obtain ⟨m, hmT, hmP, hmax⟩ := exists_max_notMem (List.mem_toFinset.mpr ht) hnot
  have hne : m ≠ t := by
    rintro rfl
    exact not_fits_of_max hfits hcost hinj hmT hmP hmax hfit
  -- the highest one empties the rest, and then the element fits
  have hmt : m ∈ ts.erase t := (hnodup.mem_erase_iff).mpr ⟨hne, List.mem_toFinset.mp hmT⟩
  have hperm : ((ts.erase t).erase m ++ [m] ++ [t]).Perm ts :=
    ((perm_erase_append hmt).append_right [t]).trans (perm_erase_append ht)
  have hrest : ((ts.erase t).erase m).toFinset ⊆ ts.toFinset := fun u hu =>
    List.mem_toFinset.mpr (List.mem_of_mem_erase (List.mem_of_mem_erase (List.mem_toFinset.mp hu)))
  have hkept : P ⊆ settle fits pays cost rank ((ts.erase t).erase m) := by
    intro u hu
    refine mem_settle hfits hcost hrest hu ?_
    rw [(hnodup.erase t).mem_erase_iff, hnodup.mem_erase_iff]
    refine ⟨?_, ?_, List.mem_toFinset.mp (affordable_subset hu)⟩
    · rintro rfl
      exact hmP hu
    · rintro rfl
      exact hnot hu
  have hlast := hsettle _ hperm
  rw [settle_append_singleton, settle_append_singleton, arrive, if_pos (hallPay t ht hnot), arrive,
    if_pos (hallPay m (List.mem_toFinset.mp hmT) hmP),
    affordable_insert_max hfits hcost hinj hmT hmP hmax (settle_subset.trans hrest) hkept, ← hP] at hlast
  apply hnot
  rw [← hlast, mem_affordable]
  refine ⟨mem_insert_self t P, hfits _ _ ?_ hfit⟩
  rw [add_comm, ← sum_insert hnot]
  apply sum_le_sum_of_subset_of_nonneg (filter_subset _ _)
  intro u hu _
  rcases mem_insert.mp hu with rfl | hu
  · exact hcost u (List.mem_toFinset.mpr ht)
  · exact hcost u (affordable_subset hu)

omit hinj hnodup in
lemma settle_eq_affordable (hcond : ∀ t ∈ ts, t ∉ affordable fits cost rank ts.toFinset →
      pays t ∧ ¬ fits (∑ u ∈ affordable fits cost rank ts.toFinset, cost u + cost t))
    {l : List α} (hl : l.Perm ts) : settle fits pays cost rank l = affordable fits cost rank ts.toFinset := by
  have hmem : l.toFinset = ts.toFinset := List.toFinset_eq_of_perm l ts hl
  have hkept : affordable fits cost rank ts.toFinset ⊆ settle fits pays cost rank l := fun t ht =>
    mem_settle hfits hcost hmem.subset ht (hl.mem_iff.mpr (List.mem_toFinset.mp (affordable_subset ht)))
  refine Subset.antisymm ?_ hkept
  intro t ht
  by_contra hnot
  have htT : t ∈ ts.toFinset := hmem ▸ settle_subset ht
  obtain ⟨hpays, hnotfits⟩ := hcond t (List.mem_toFinset.mp htT) hnot
  apply hnotfits
  refine hfits _ _ ?_ (fits_sum_settle hfits hcost hfree hmem.subset ht hpays)
  rw [add_comm, ← sum_insert hnot]
  apply sum_le_sum_of_subset_of_nonneg (insert_subset ht hkept)
  intro u hu _
  exact hcost u (hmem ▸ settle_subset hu)

lemma settle_perm_iff :
    (∀ l l' : List α, l.Perm ts → l'.Perm ts → settle fits pays cost rank l = settle fits pays cost rank l') ↔
      (∀ t ∈ ts, ¬ pays t) ∨ ∀ t ∈ ts, t ∉ affordable fits cost rank ts.toFinset →
        pays t ∧ ¬ fits (∑ u ∈ affordable fits cost rank ts.toFinset, cost u + cost t) := by
  constructor
  · intro hsame
    by_cases hnone : ∀ t ∈ ts, ¬ pays t
    · exact .inl hnone
    right
    push Not at hnone
    obtain ⟨p, hp, hpays⟩ := hnone
    obtain ⟨l₀, hl₀, hsettle₀⟩ := exists_settle_eq hfits hcost hfree hinj hnodup hp hpays
    intro t
    apply not_fits_of_settle_eq hfits hcost hinj hnodup
    intro l hl
    exact (hsame l l₀ hl hl₀).trans hsettle₀
  · rintro (hnone | hcond) l l' hl hl'
    · rw [settle_of_forall_not fun t ht => hnone t (hl.mem_iff.mp ht),
        settle_of_forall_not fun t ht => hnone t (hl'.mem_iff.mp ht), List.toFinset_eq_of_perm l ts hl,
        List.toFinset_eq_of_perm l' ts hl']
    · rw [settle_eq_affordable hfits hcost hfree hcond hl, settle_eq_affordable hfits hcost hfree hcond hl']

end Orders

end Arweave.Lib.Budget
