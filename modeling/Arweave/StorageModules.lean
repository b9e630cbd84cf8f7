import Arweave.Mining.RecallRanges

/-!
# Storage modules

A module stores the bytes of its bucket and an overlap with the next one. The modules of a list that cover an offset
are searched for one with a packing. A covering module with another packing is kept as the best one so far, and the
search goes on for the packing of that module.
-/

namespace Arweave.StorageModules

open Mining

/-- `?OVERLAP`, a recall range. -/
def overlap : Int := 104857600

/-- Nothing is given for an unknown identifier, where the source crashes. -/
def getRange (id : String) : List StorageModule → Option (Int × Int)
  | [] => none
  | m :: modules =>
    if m.id = id then some (m.bucketSize * m.bucket, (m.bucket + 1) * m.bucketSize + overlap) else getRange id modules

/-- The module found so far comes last. -/
def get (offset : Int) : ModulePacking → List StorageModule → Option StorageModule → Option StorageModule
  | _, [], storageModule => storageModule
  | packing, m :: storageModules, storageModule =>
    if offset ≤ m.bucketSize * m.bucket ∨ offset > m.bucketSize * (m.bucket + 1) + overlap then
      get offset packing storageModules storageModule
    else if m.packing = packing then some m
    else get offset m.packing storageModules (some m)

def getAll (offset : Int) : List StorageModule → List StorageModule → List StorageModule
  | [], foundModules => foundModules
  | m :: storageModules, foundModules =>
    if offset ≤ m.bucketSize * m.bucket ∨ offset > m.bucketSize * (m.bucket + 1) + overlap then
      getAll offset storageModules foundModules
    else getAll offset storageModules (m :: foundModules)

/-- `get_all/3`, of an interval. -/
def getAllBetween (start stop : Int) : List StorageModule → List StorageModule → List StorageModule
  | [], foundModules => foundModules
  | m :: storageModules, foundModules =>
    if stop ≤ m.bucketSize * m.bucket ∨ start ≥ m.bucketSize * (m.bucket + 1) + overlap then
      getAllBetween start stop storageModules foundModules
    else getAllBetween start stop storageModules (m :: foundModules)

section Ranges

variable {m : StorageModule} {modules found : List StorageModule} {offset start stop : Int}

/-- The range of a module. -/
def range (m : StorageModule) : Int × Int := (m.bucketSize * m.bucket, (m.bucket + 1) * m.bucketSize + overlap)

/-- The start is exclusive. -/
def Contains (m : StorageModule) (offset : Int) : Prop := (range m).1 < offset ∧ offset ≤ (range m).2

instance decidableContains (m : StorageModule) (offset : Int) : Decidable (Contains m offset) :=
  inferInstanceAs (Decidable (_ ∧ _))

/-- The range of a module and an interval have an offset in common. -/
def Meets (m : StorageModule) (start stop : Int) : Prop := ∃ offset, Contains m offset ∧ start < offset ∧ offset ≤ stop

lemma not_contains_iff : ¬ Contains m offset ↔
    offset ≤ m.bucketSize * m.bucket ∨ offset > m.bucketSize * (m.bucket + 1) + overlap := by
  rw [Contains, range, mul_comm ((m.bucket : Int) + 1)]
  omega

lemma getAll_eq : getAll offset modules found = (modules.filter (Contains · offset)).reverse ++ found := by
  induction modules generalizing found with
  | nil => rfl
  | cons m modules ih =>
    by_cases h : Contains m offset
    · rw [getAll, if_neg (not_contains_iff.not_right.mp h), ih]
      simp [h]
    · rw [getAll, if_pos (not_contains_iff.mp h), ih]
      simp [h]

lemma getAllBetween_eq : getAllBetween start stop modules found =
    (modules.filter fun m => (range m).1 < stop ∧ start < (range m).2).reverse ++ found := by
  induction modules generalizing found with
  | nil => rfl
  | cons m modules ih =>
    have htest : (stop ≤ m.bucketSize * m.bucket ∨ start ≥ m.bucketSize * (m.bucket + 1) + overlap) ↔
        ¬ ((range m).1 < stop ∧ start < (range m).2) := by
      rw [range, mul_comm ((m.bucket : Int) + 1)]
      omega
    by_cases h : (range m).1 < stop ∧ start < (range m).2
    · rw [getAllBetween, if_neg (htest.not_left.mpr h), ih]
      simp [h]
    · rw [getAllBetween, if_pos (htest.mpr h), ih]
      simp [h]

lemma range_lt : (range m).1 < (range m).2 := by
  have hsize : (0 : Int) ≤ m.bucketSize := Int.natCast_nonneg _
  rw [range, overlap, add_mul, one_mul, mul_comm (m.bucket : Int)]
  omega

lemma meets_iff : Meets m start stop ↔ start < stop ∧ (range m).1 < stop ∧ start < (range m).2 := by
  constructor
  · rintro ⟨offset, ⟨hstart, hstop⟩, hlt, hle⟩
    omega
  · rintro ⟨hlt, hstart, hstop⟩
    have hrange := range_lt (m := m)
    exact ⟨min (range m).2 stop, ⟨by omega, by omega⟩, by omega, by omega⟩

end Ranges

section Packings

variable {α : Type} {p q : α} {ps : List α}

/-- The first element of a list that repeats the one before it, or else the last element. -/
def SettlesOn (q : α) (ps : List α) : Prop :=
  (∃ before after, ps = before ++ q :: q :: after ∧ (before ++ [q]).IsChain (· ≠ ·)) ∨
    ps.IsChain (· ≠ ·) ∧ ps.getLast? = some q

lemma settlesOn_singleton : SettlesOn q [p] ↔ p = q := by
  constructor
  · rintro (⟨before, after, heq, -⟩ | ⟨-, hlast⟩)
    · have hlen := congrArg List.length heq
      simp at hlen
      omega
    · simpa using hlast
  · rintro rfl
    exact Or.inr ⟨List.isChain_singleton p, rfl⟩

lemma settlesOn_cons_self : SettlesOn q (p :: p :: ps) ↔ p = q := by
  constructor
  · rintro (⟨before, after, heq, hchain⟩ | ⟨hchain, -⟩)
    · match before with
      | [] => exact (List.cons.inj heq).1
      | [b] =>
        obtain ⟨rfl, htail⟩ := List.cons.inj heq
        exact (List.cons.inj htail).1
      | b :: b' :: before =>
        obtain ⟨rfl, htail⟩ := List.cons.inj heq
        obtain ⟨rfl, -⟩ := List.cons.inj htail
        exact absurd rfl (List.isChain_cons_cons.mp hchain).1
    · exact absurd rfl (List.isChain_cons_cons.mp hchain).1
  · rintro rfl
    exact Or.inl ⟨[], ps, rfl, List.isChain_singleton p⟩

lemma settlesOn_cons_ne {p' : α} (h : p ≠ p') : SettlesOn q (p :: p' :: ps) ↔ SettlesOn q (p' :: ps) := by
  have hlast : (p :: p' :: ps).getLast? = (p' :: ps).getLast? := List.getLast?_cons_cons
  have hchains : (p :: p' :: ps).IsChain (· ≠ ·) ↔ (p' :: ps).IsChain (· ≠ ·) := by
    rw [List.isChain_cons_cons]
    exact and_iff_right h
  unfold SettlesOn
  rw [hlast, hchains]
  refine or_congr_left ⟨?_, ?_⟩
  · rintro ⟨before, after, heq, hchain⟩
    cases before with
    | nil =>
      obtain ⟨rfl, htail⟩ := List.cons.inj heq
      exact absurd (List.cons.inj htail).1.symm h
    | cons b before =>
      obtain ⟨rfl, htail⟩ := List.cons.inj heq
      exact ⟨before, after, htail, hchain.tail⟩
  · rintro ⟨before, after, heq, hchain⟩
    refine ⟨p :: before, after, by rw [heq, List.cons_append], ?_⟩
    cases before with
    | nil =>
      obtain ⟨rfl, -⟩ := List.cons.inj heq
      exact List.isChain_cons_cons.mpr ⟨h, hchain⟩
    | cons b before =>
      obtain ⟨rfl, -⟩ := List.cons.inj heq
      exact List.isChain_cons_cons.mpr ⟨h, hchain⟩

end Packings

section Search

variable {m : StorageModule} {modules : List StorageModule} {offset start stop : Int}
  {packing wanted : ModulePacking} {best : Option StorageModule}

/-- The packings of the modules that cover an offset, in their order. -/
def coveringPackings (offset : Int) (modules : List StorageModule) : List ModulePacking :=
  (modules.filter (Contains · offset)).map StorageModule.packing

lemma get_of_not_contains (h : ¬ Contains m offset) :
    get offset packing (m :: modules) best = get offset packing modules best := by
  rw [get, if_pos (not_contains_iff.mp h)]

lemma get_of_contains (h : Contains m offset) : get offset packing (m :: modules) best =
    if m.packing = packing then some m else get offset m.packing modules (some m) := by
  rw [get, if_neg (not_contains_iff.not_right.mp h)]

lemma get_mem (h : get offset packing modules best = some m) : best = some m ∨ m ∈ modules ∧ Contains m offset := by
  induction modules generalizing packing best with
  | nil => exact Or.inl h
  | cons m' modules ih =>
    by_cases hm' : Contains m' offset
    · rw [get_of_contains hm'] at h
      split_ifs at h with hpacking
      · cases h
        exact Or.inr ⟨List.mem_cons_self, hm'⟩
      · rcases ih h with hbest | ⟨hmem, hcontains⟩
        · cases hbest
          exact Or.inr ⟨List.mem_cons_self, hm'⟩
        · exact Or.inr ⟨List.mem_cons_of_mem _ hmem, hcontains⟩
    · rw [get_of_not_contains hm'] at h
      exact (ih h).imp_right fun hfound => ⟨List.mem_cons_of_mem _ hfound.1, hfound.2⟩

lemma get_eq_none : get offset packing modules best = none ↔ best = none ∧ ∀ m ∈ modules, ¬ Contains m offset := by
  induction modules generalizing packing best with
  | nil => simp [get]
  | cons m modules ih =>
    by_cases hm : Contains m offset
    · rw [get_of_contains hm]
      split_ifs
      · simp [hm]
      · simp [ih, hm]
    · rw [get_of_not_contains hm, ih, List.forall_mem_cons]
      simp [hm]

lemma get_packing (hbest : ∀ m, best = some m → m.packing = packing) (h : get offset packing modules best = some m) :
    m.packing = wanted ↔ SettlesOn wanted (packing :: coveringPackings offset modules) := by
  induction modules generalizing packing best with
  | nil =>
    rw [hbest m h]
    exact settlesOn_singleton.symm
  | cons m' modules ih =>
    unfold coveringPackings at ih ⊢
    by_cases hm' : Contains m' offset
    · rw [List.filter_cons_of_pos (by simpa using hm'), List.map_cons]
      rw [get_of_contains hm'] at h
      split_ifs at h with hpacking
      · cases h
        rw [hpacking]
        exact settlesOn_cons_self.symm
      · rw [settlesOn_cons_ne (Ne.symm hpacking)]
        refine ih ?_ h
        rintro _ ⟨⟩
        rfl
    · rw [List.filter_cons_of_neg (by simpa using hm')]
      rw [get_of_not_contains hm'] at h
      exact ih hbest h

/-- The search finds a covering module when there is one, and one with the packing when there is one. -/
structure Honoured (modules : List StorageModule) (offset : Int) (packing : ModulePacking) : Prop where
  notFound : get offset packing modules none = none ↔ ∀ m ∈ modules, ¬ Contains m offset
  preferred : (∃ m ∈ modules, Contains m offset ∧ m.packing = packing) →
    ∃ m ∈ modules, get offset packing modules none = some m ∧ Contains m offset ∧ m.packing = packing
  covering : ∀ m, get offset packing modules none = some m → m ∈ modules ∧ Contains m offset

lemma get_covering (h : get offset packing modules none = some m) : m ∈ modules ∧ Contains m offset :=
  (get_mem h).resolve_left (by simp)

lemma mem_coveringPackings :
    packing ∈ coveringPackings offset modules ↔ ∃ m ∈ modules, Contains m offset ∧ m.packing = packing := by
  simp [coveringPackings, and_assoc]

lemma honoured_iff : Honoured modules offset packing ↔
    (packing ∈ coveringPackings offset modules → SettlesOn packing (packing :: coveringPackings offset modules)) := by
  rw [mem_coveringPackings]
  constructor
  · intro h hwanted
    obtain ⟨m, -, hget, -, hpacking⟩ := h.preferred hwanted
    exact (get_packing (by simp) hget).mp hpacking
  · intro h
    refine ⟨by simp [get_eq_none], fun hwanted => ?_, fun m => get_covering⟩
    cases hget : get offset packing modules none with
    | none =>
      obtain ⟨m, hm, hcontains, -⟩ := hwanted
      exact absurd hcontains ((get_eq_none.mp hget).2 m hm)
    | some m =>
      obtain ⟨hm, hcontains⟩ := get_covering hget
      exact ⟨m, hm, rfl, hcontains, (get_packing (by simp) hget).mpr (h hwanted)⟩

lemma mem_getAllBetween : m ∈ getAllBetween start stop modules [] ↔
    m ∈ modules ∧ (range m).1 < stop ∧ start < (range m).2 := by
  simp [getAllBetween_eq]

lemma getAllBetween_iff : (∀ m, m ∈ getAllBetween start stop modules [] ↔ m ∈ modules ∧ Meets m start stop) ↔
    start < stop ∨ ∀ m ∈ modules, stop ≤ (range m).1 ∨ (range m).2 ≤ start := by
  simp only [mem_getAllBetween, meets_iff]
  constructor
  · intro h
    by_cases hlt : start < stop
    · exact Or.inl hlt
    · refine Or.inr fun m hm => ?_
      have hmeets := h m
      simp only [hm, hlt, true_and, false_and, iff_false, not_and_or, not_lt] at hmeets
      exact hmeets
  · rintro (hlt | happart) m
    · simp [hlt]
    · refine and_congr_right fun hm => ?_
      have hside := happart m hm
      omega

/-- The modules are selected as they are asked for exactly when the wanted packing is the one that the search settles
on or no covering module has it, and an empty interval is not one within a module. -/
theorem selection_iff (modules : List StorageModule) (offset : Int) (packing : ModulePacking) (start stop : Int) :
    (Honoured modules offset packing ∧
      (∀ m, m ∈ getAll offset modules [] ↔ m ∈ modules ∧ Contains m offset) ∧
      ∀ m, m ∈ getAllBetween start stop modules [] ↔ m ∈ modules ∧ Meets m start stop) ↔
      (packing ∈ coveringPackings offset modules → SettlesOn packing (packing :: coveringPackings offset modules)) ∧
        (start < stop ∨ ∀ m ∈ modules, stop ≤ (range m).1 ∨ (range m).2 ≤ start) := by
  have hall : ∀ m, m ∈ getAll offset modules [] ↔ m ∈ modules ∧ Contains m offset := by simp [getAll_eq]
  rw [honoured_iff, getAllBetween_iff, and_iff_right hall]

/-- The module with the wanted packing is passed over for the one after it. -/
theorem preferred_module_passed_over :
    ¬ Honoured [⟨10, 0, .other "unpacked"⟩, ⟨10, 0, .spora26 [1]⟩, ⟨10, 0, .spora26 [2]⟩] 5 (.spora26 [1]) := by
  intro h
  obtain ⟨m, -, hget, -, hpacking⟩ := h.preferred ⟨⟨10, 0, .spora26 [1]⟩, by simp, by decide, rfl⟩
  have hother : get 5 (.spora26 [1]) [⟨10, 0, .other "unpacked"⟩, ⟨10, 0, .spora26 [1]⟩, ⟨10, 0, .spora26 [2]⟩] none =
      some ⟨10, 0, .spora26 [2]⟩ := rfl
  cases hother.symm.trans hget
  exact absurd hpacking (by decide)

end Search

end Arweave.StorageModules
