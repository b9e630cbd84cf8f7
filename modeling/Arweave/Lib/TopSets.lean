import Mathlib.Data.Finset.Max

/-!
# The biggest elements of a set

Elements of a finite set are compared by a value, and several may have the same value, so that the biggest elements of
a given number can be chosen in several ways. How many of them a subset has at least is decided by the numbers of
elements above, at and below the smallest value among the biggest ones.
-/

namespace Arweave.Lib

variable {α β : Type*} [DecidableEq α] [LinearOrder β] {s t p : Finset α} {f : α → β} {b n k : Nat} {v : β} {x : α}

/-- A choice of the biggest elements. -/
structure IsTop (s : Finset α) (f : α → β) (b : Nat) (t : Finset α) : Prop where
  subset : t ⊆ s
  card : t.card = b
  le : ∀ x ∈ t, ∀ y ∈ s, y ∉ t → f y ≤ f x

def above (s : Finset α) (f : α → β) (v : β) : Finset α := s.filter (v < f ·)

def level (s : Finset α) (f : α → β) (v : β) : Finset α := s.filter (f · = v)

def under (s : Finset α) (f : α → β) (v : β) : Finset α := s.filter (f · < v)

/-- The value of the last one of the biggest elements. -/
structure IsThreshold (s : Finset α) (f : α → β) (b : Nat) (v : β) : Prop where
  above_lt : (above s f v).card < b
  le_level : b ≤ (above s f v).card + (level s f v).card

/-- How many of the biggest elements a subset of a size has at least: those that do not fit under the threshold, less
those at the threshold that are not among the biggest ones. -/
def leastTop (s : Finset α) (f : α → β) (b n : Nat) (v : β) : Nat :=
  (n - (under s f v).card) -
    (min (n - (under s f v).card) (level s f v).card - (b - (above s f v).card))

omit [DecidableEq α] in
lemma mem_above : x ∈ above s f v ↔ x ∈ s ∧ v < f x := Finset.mem_filter

omit [DecidableEq α] in
lemma mem_level : x ∈ level s f v ↔ x ∈ s ∧ f x = v := Finset.mem_filter

omit [DecidableEq α] in
lemma mem_under : x ∈ under s f v ↔ x ∈ s ∧ f x < v := Finset.mem_filter

omit [DecidableEq α] in
lemma above_subset : above s f v ⊆ s := Finset.filter_subset _ _

omit [DecidableEq α] in
lemma level_subset : level s f v ⊆ s := Finset.filter_subset _ _

omit [DecidableEq α] in
lemma under_subset : under s f v ⊆ s := Finset.filter_subset _ _

omit [DecidableEq α] in
lemma above_disjoint_level : Disjoint (above s f v) (level s f v) := by
  rw [Finset.disjoint_left]
  intro x hx hl
  rw [mem_above] at hx
  rw [mem_level] at hl
  exact hx.2.ne' hl.2

lemma card_above_union_level :
    (above s f v ∪ level s f v).card = (above s f v).card + (level s f v).card :=
  Finset.card_union_of_disjoint above_disjoint_level

lemma mem_above_union_level : x ∈ above s f v ∪ level s f v ↔ x ∈ s ∧ v ≤ f x := by
  rw [Finset.mem_union, mem_above, mem_level, ← and_or_left, le_iff_lt_or_eq, @eq_comm _ (f x)]

lemma card_parts (hp : p ⊆ s) :
    (p ∩ above s f v).card + (p ∩ level s f v).card + (p ∩ under s f v).card = p.card := by
  have hlow : Disjoint (p ∩ (above s f v ∪ level s f v)) (p ∩ under s f v) := by
    rw [Finset.disjoint_left]
    intro x hx hu
    rw [Finset.mem_inter, mem_above_union_level] at hx
    rw [Finset.mem_inter, mem_under] at hu
    exact hu.2.2.not_ge hx.2.2
  have hall : p ∩ (above s f v ∪ level s f v) ∪ p ∩ under s f v = p := by
    ext x
    rw [Finset.mem_union, Finset.mem_inter, Finset.mem_inter, mem_above_union_level, mem_under, ← and_or_left,
      ← and_or_left]
    exact ⟨And.left, fun hx => ⟨hx, hp hx, le_or_gt v (f x)⟩⟩
  have hcard := congrArg Finset.card hall
  rw [Finset.card_union_of_disjoint hlow, Finset.inter_union_distrib_left, Finset.card_union_of_disjoint] at hcard
  · exact hcard
  · exact above_disjoint_level.mono Finset.inter_subset_right Finset.inter_subset_right

lemma inter_parts {high mid low : Finset α} (hhigh : high ⊆ above s f v) (hmid : mid ⊆ level s f v)
    (hlow : low ⊆ under s f v) : (high ∪ mid ∪ low) ∩ above s f v = high ∧
      (high ∪ mid ∪ low) ∩ level s f v = mid ∧ (high ∪ mid ∪ low) ∩ under s f v = low := by
  have h1 : ∀ x ∈ high, v < f x := fun x hx => (mem_above.mp (hhigh hx)).2
  have h2 : ∀ x ∈ mid, f x = v := fun x hx => (mem_level.mp (hmid hx)).2
  have h3 : ∀ x ∈ low, f x < v := fun x hx => (mem_under.mp (hlow hx)).2
  refine ⟨?_, ?_, ?_⟩ <;> ext x <;> simp only [Finset.mem_inter, Finset.mem_union]
  · exact ⟨fun h => by grind [mem_above], fun h => ⟨.inl (.inl h), hhigh h⟩⟩
  · exact ⟨fun h => by grind [mem_level], fun h => ⟨.inl (.inr h), hmid h⟩⟩
  · exact ⟨fun h => by grind [mem_under], fun h => ⟨.inr h, hlow h⟩⟩

lemma exists_threshold (hb : 0 < b) (hle : b ≤ s.card) : ∃ x ∈ s, IsThreshold s f b (f x) := by
  have hne : s.Nonempty := Finset.card_pos.mp (by omega)
  obtain ⟨y, hy, hmin⟩ := s.exists_min_image f hne
  have hall : above s f (f y) ∪ level s f (f y) = s := by
    ext x
    rw [mem_above_union_level]
    exact ⟨And.left, fun hx => ⟨hx, hmin x hx⟩⟩
  -- The biggest value that enough elements reach.
  obtain ⟨x, hx, hmax⟩ := (s.filter fun x => b ≤ (above s f (f x) ∪ level s f (f x)).card).exists_max_image f
    ⟨y, Finset.mem_filter.mpr ⟨hy, by rwa [hall]⟩⟩
  rw [Finset.mem_filter] at hx
  refine ⟨x, hx.1, ?_, hx.2.trans_eq card_above_union_level⟩
  by_contra hge
  have hge : b ≤ (above s f (f x)).card := Nat.le_of_not_lt hge
  obtain ⟨z, hz, hzmin⟩ := (above s f (f x)).exists_min_image f (Finset.card_pos.mp (by omega))
  have hsame : above s f (f z) ∪ level s f (f z) = above s f (f x) := by
    ext w
    rw [mem_above_union_level, mem_above]
    rw [mem_above] at hz
    exact ⟨fun h => ⟨h.1, hz.2.trans_le h.2⟩, fun h => ⟨h.1, hzmin w (mem_above.mpr h)⟩⟩
  have hzs := mem_above.mp hz
  exact (hmax z (Finset.mem_filter.mpr ⟨hzs.1, by rwa [hsame]⟩)).not_gt hzs.2

lemma isTop_iff (hv : IsThreshold s f b v) :
    IsTop s f b t ↔ above s f v ⊆ t ∧ t ⊆ above s f v ∪ level s f v ∧ t.card = b := by
  have hlt := hv.above_lt
  have hle := hv.le_level
  rw [← card_above_union_level] at hle
  constructor
  · intro h
    have hcard := h.card
    refine ⟨fun a ha => ?_, fun x hx => ?_, hcard⟩
    · by_contra hnot
      have hsub : t ⊆ above s f v := by
        intro x hx
        have has := mem_above.mp ha
        exact mem_above.mpr ⟨h.subset hx, has.2.trans_le (h.le x hx a has.1 hnot)⟩
      have := Finset.card_le_card hsub
      omega
    · by_contra hnot
      rw [mem_above_union_level, not_and, not_le] at hnot
      have hxv := hnot (h.subset hx)
      have hsub : insert x (above s f v ∪ level s f v) ⊆ t := by
        intro y hy
        rcases Finset.mem_insert.mp hy with rfl | hy
        · exact hx
        · by_contra hyt
          rw [mem_above_union_level] at hy
          exact ((h.le x hx y hy.1 hyt).trans_lt hxv).not_ge hy.2
      have hcardle := Finset.card_le_card hsub
      rw [Finset.card_insert_of_notMem (by rw [mem_above_union_level]; exact fun hxs => hxs.2.not_gt hxv)] at hcardle
      omega
  · rintro ⟨habove, hlevel, hcard⟩
    refine ⟨fun x hx => (mem_above_union_level.mp (hlevel hx)).1, hcard, fun x hx y hy hyt => ?_⟩
    have hylow : f y ≤ v := not_lt.mp fun hvy => hyt (habove (mem_above.mpr ⟨hy, hvy⟩))
    exact hylow.trans (mem_above_union_level.mp (hlevel hx)).2

/-- Some choice of the biggest elements has all elements of a subset above the threshold, and as many of those at it as
are chosen. -/
lemma exists_isTop_iff (hv : IsThreshold s f b v) : (∃ t, IsTop s f b t ∧ k ≤ (p ∩ t).card) ↔
    k ≤ (p ∩ above s f v).card + min (p ∩ level s f v).card (b - (above s f v).card) := by
  have hlt := hv.above_lt
  have hle := hv.le_level
  constructor
  · rintro ⟨t, ht, hk⟩
    obtain ⟨habove, hlevel, hcard⟩ := (isTop_iff hv).mp ht
    have hsplit : p ∩ t ⊆ p ∩ above s f v ∪ p ∩ (t \ above s f v) := by
      intro x hx
      rw [Finset.mem_inter] at hx
      rw [Finset.mem_union, Finset.mem_inter, Finset.mem_inter, Finset.mem_sdiff]
      by_cases ha : x ∈ above s f v
      · exact .inl ⟨hx.1, ha⟩
      · exact .inr ⟨hx.1, hx.2, ha⟩
    have hrest : t \ above s f v ⊆ level s f v := by
      intro x hx
      rw [Finset.mem_sdiff] at hx
      exact (Finset.mem_union.mp (hlevel hx.1)).resolve_left hx.2
    have hunion := (Finset.card_le_card hsplit).trans (Finset.card_union_le _ _)
    have hpart : (p ∩ (t \ above s f v)).card ≤ (p ∩ level s f v).card :=
      Finset.card_le_card (Finset.inter_subset_inter_left hrest)
    have hfew : (p ∩ (t \ above s f v)).card ≤ (t \ above s f v).card := Finset.card_le_card Finset.inter_subset_right
    rw [Finset.card_sdiff_of_subset habove] at hfew
    omega
  · intro hk
    obtain ⟨q, hq, hqcard⟩ := Finset.exists_subset_card_eq (min_le_left (p ∩ level s f v).card (b - (above s f v).card))
    obtain ⟨r, hqr, hr, hrcard⟩ := Finset.exists_subsuperset_card_eq (hq.trans Finset.inter_subset_right)
      (hqcard.trans_le (min_le_right _ _)) (show b - (above s f v).card ≤ (level s f v).card by omega)
    have hdisjoint : Disjoint (above s f v) r := above_disjoint_level.mono_right hr
    refine ⟨above s f v ∪ r, (isTop_iff hv).mpr ⟨Finset.subset_union_left, Finset.union_subset_union_right hr, ?_⟩, ?_⟩
    · rw [Finset.card_union_of_disjoint hdisjoint, hrcard]
      omega
    · have hqp : q ⊆ p ∩ r := fun x hx => Finset.mem_inter.mpr ⟨(Finset.mem_inter.mp (hq hx)).1, hqr hx⟩
      have hmore := Finset.card_le_card hqp
      rw [Finset.inter_union_distrib_left, Finset.card_union_of_disjoint
        (hdisjoint.mono Finset.inter_subset_right Finset.inter_subset_right)]
      omega

/-- Every subset of a size has so many of the biggest elements, exactly when the one that takes its elements from below
first, and then at the threshold, has them. -/
theorem forall_isTop_iff (hv : IsThreshold s f b v) (hn : n ≤ s.card) :
    (∀ p ⊆ s, p.card = n → ∃ t, IsTop s f b t ∧ k ≤ (p ∩ t).card) ↔ k ≤ leastTop s f b n v := by
  have hlt := hv.above_lt
  have hle := hv.le_level
  unfold leastTop
  constructor
  · intro hall
    have hs := card_parts (Finset.Subset.refl s) (f := f) (v := v)
    rw [Finset.inter_eq_right.mpr above_subset, Finset.inter_eq_right.mpr level_subset,
      Finset.inter_eq_right.mpr under_subset] at hs
    obtain ⟨low, hlow, hlowcard⟩ := Finset.exists_subset_card_eq (min_le_right n (under s f v).card)
    obtain ⟨mid, hmid, hmidcard⟩ := Finset.exists_subset_card_eq
      (min_le_right (n - (under s f v).card) (level s f v).card)
    obtain ⟨high, hhigh, hhighcard⟩ := Finset.exists_subset_card_eq
      (show n - (under s f v).card - min (n - (under s f v).card) (level s f v).card ≤ (above s f v).card by omega)
    have hsub : high ∪ mid ∪ low ⊆ s := Finset.union_subset
      (Finset.union_subset (hhigh.trans above_subset) (hmid.trans level_subset)) (hlow.trans under_subset)
    have hparts := card_parts hsub (f := f) (v := v)
    obtain ⟨h1, h2, h3⟩ := inter_parts hhigh hmid hlow
    rw [h1, h2, h3] at hparts
    have hbest := (exists_isTop_iff hv).mp (hall _ hsub (by omega))
    rw [h1, h2] at hbest
    omega
  · intro hk p hp hpcard
    rw [exists_isTop_iff hv]
    have hparts := card_parts hp (f := f) (v := v)
    have hlevel : (p ∩ level s f v).card ≤ (level s f v).card := Finset.card_le_card Finset.inter_subset_right
    have hunder : (p ∩ under s f v).card ≤ (under s f v).card := Finset.card_le_card Finset.inter_subset_right
    omega

end Arweave.Lib
