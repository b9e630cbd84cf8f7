import Mathlib.Data.List.Lex
import Mathlib.Data.List.Sort
import Mathlib.Algebra.BigOperators.Group.List.Basic

/-!
# Sorted sets and maps

Finite sets and maps over a linear order as ascending lists. Two of them with the same
elements are equal, so a statement about the list is a statement about the set. The order
on lists is lexicographic, and a list precedes its extensions.
-/

namespace Arweave.Lib

/-- A finite set, as the ascending list of its elements. -/
@[ext]
structure OrdSet (α : Type*) [LinearOrder α] where
  elems : List α
  sorted : elems.Pairwise (· < ·)
  deriving DecidableEq

namespace OrdSet

variable {α : Type*} [LinearOrder α] {s t : OrdSet α} {x y : α}

instance : Membership α (OrdSet α) := ⟨fun s x => x ∈ s.elems⟩

instance (x : α) (s : OrdSet α) : Decidable (x ∈ s) := inferInstanceAs (Decidable (x ∈ s.elems))

@[simp] lemma mem_elems : x ∈ s.elems ↔ x ∈ s := Iff.rfl

def empty : OrdSet α := ⟨[], List.Pairwise.nil⟩

def isEmpty (s : OrdSet α) : Bool := s.elems.isEmpty

/-- The set with one more element. -/
def add (x : α) (s : OrdSet α) : OrdSet α where
  elems := s.elems.filter (· < x) ++ x :: s.elems.filter (x < ·)
  sorted := by
    rw [List.pairwise_append, List.pairwise_cons]
    refine ⟨s.sorted.filter _, ⟨?_, s.sorted.filter _⟩, ?_⟩
    · intro y hy
      simpa using (List.mem_filter.mp hy).2
    · intro y hy z hz
      have hyx : y < x := by simpa using (List.mem_filter.mp hy).2
      rcases List.mem_cons.mp hz with rfl | hz
      · exact hyx
      · exact hyx.trans (by simpa using (List.mem_filter.mp hz).2)

/-- The set with an element that it did not have. -/
def insert (x : α) (s : OrdSet α) : Option (OrdSet α) := if x ∈ s then none else some (s.add x)

def erase (x : α) (s : OrdSet α) : OrdSet α := ⟨s.elems.filter (· ≠ x), s.sorted.filter _⟩

def ofList (l : List α) : OrdSet α := l.foldr add empty

def smallest (s : OrdSet α) : Option α := s.elems.head?

@[simp] lemma not_mem_empty : x ∉ (empty : OrdSet α) := List.not_mem_nil

@[simp] lemma mem_add : y ∈ s.add x ↔ y = x ∨ y ∈ s := by
  change y ∈ s.elems.filter (· < x) ++ x :: s.elems.filter (x < ·) ↔ _
  simp only [List.mem_append, List.mem_cons, List.mem_filter, decide_eq_true_eq, mem_elems]
  constructor
  · rintro (⟨h, -⟩ | rfl | ⟨h, -⟩)
    · exact .inr h
    · exact .inl rfl
    · exact .inr h
  · rintro (rfl | h)
    · exact .inr (.inl rfl)
    · rcases lt_trichotomy y x with hlt | rfl | hlt
      · exact .inl ⟨h, hlt⟩
      · exact .inr (.inl rfl)
      · exact .inr (.inr ⟨h, hlt⟩)

@[simp] lemma mem_erase : y ∈ s.erase x ↔ y ≠ x ∧ y ∈ s := by
  change y ∈ s.elems.filter (· ≠ x) ↔ _
  simp [and_comm]

@[simp] lemma mem_ofList {l : List α} : y ∈ ofList l ↔ y ∈ l := by
  induction l with
  | nil => simp [ofList]
  | cons x l ih =>
    change y ∈ (ofList l).add x ↔ _
    rw [mem_add, ih, List.mem_cons]

lemma mem_foldl_add {l : List α} : y ∈ l.foldl (fun s x => s.add x) s ↔ y ∈ l ∨ y ∈ s := by
  induction l generalizing s with
  | nil => simp
  | cons x l ih =>
    rw [List.foldl_cons, ih, mem_add, List.mem_cons, or_assoc, or_left_comm]

lemma isEmpty_iff : s.isEmpty = true ↔ ∀ x, x ∉ s := by
  rw [isEmpty, List.isEmpty_iff, List.eq_nil_iff_forall_not_mem]
  rfl

lemma insert_eq_some (h : x ∉ s) : s.insert x = some (s.add x) := if_neg h

lemma ext_mem (h : ∀ x, x ∈ s ↔ x ∈ t) : s = t :=
  OrdSet.ext (s.sorted.eq_of_mem_iff t.sorted h)

lemma smallest_mem (h : s.smallest = some x) : x ∈ s := List.mem_of_head? h

lemma smallest_le (h : s.smallest = some x) (hy : y ∈ s) : x ≤ y := by
  obtain ⟨rest, hrest⟩ := List.head?_eq_some_iff.mp h
  have hsorted := s.sorted
  rw [hrest, List.pairwise_cons] at hsorted
  rw [← mem_elems, hrest, List.mem_cons] at hy
  rcases hy with rfl | hy
  · exact le_rfl
  · exact (hsorted.1 y hy).le

lemma nodup (s : OrdSet α) : s.elems.Nodup := s.sorted.imp fun h => h.ne

lemma perm_add (h : x ∉ s) : (s.add x).elems.Perm (x :: s.elems) := by
  rw [List.perm_ext_iff_of_nodup (s.add x).nodup (List.nodup_cons.mpr ⟨h, s.nodup⟩)]
  intro y
  rw [mem_elems, mem_add, List.mem_cons, mem_elems]

lemma add_of_mem (h : x ∈ s) : s.add x = s := by
  apply ext_mem
  intro y
  rw [mem_add]
  exact or_iff_right_of_imp fun hy => hy ▸ h

lemma length_add (h : x ∉ s) : (s.add x).elems.length = s.elems.length + 1 := (perm_add h).length_eq

lemma length_erase_add_one (h : x ∈ s) : (s.erase x).elems.length + 1 = s.elems.length := by
  rw [← length_add (by simp : x ∉ s.erase x)]
  congr 2
  apply ext_mem
  intro y
  rw [mem_add, mem_erase]
  by_cases hy : y = x
  · simp [hy, h]
  · simp [hy]

lemma countP_foldl_add {l : List α} (p : α → Bool) (hl : l.Nodup) (hnew : ∀ x ∈ l, x ∉ s) :
    (l.foldl (fun s x => s.add x) s).elems.countP p = s.elems.countP p + l.countP p := by
  induction l generalizing s with
  | nil => rfl
  | cons x l ih =>
    obtain ⟨hx, hl⟩ := List.nodup_cons.mp hl
    have hnew' : ∀ y ∈ l, y ∉ s.add x := by
      intro y hy hmem
      obtain rfl | hmem := mem_add.mp hmem
      · exact hx hy
      · exact hnew y (List.mem_cons_of_mem _ hy) hmem
    have hcount := (perm_add (hnew x List.mem_cons_self)).countP_eq p
    rw [List.foldl_cons, ih hl hnew', hcount, List.countP_cons, List.countP_cons]
    omega

lemma length_eq_one (hx : x ∈ s) (hall : ∀ y ∈ s, y = x) : s.elems.length = 1 := by
  have hperm : s.elems.Perm [x] := by
    rw [List.perm_ext_iff_of_nodup s.nodup (List.nodup_singleton x)]
    intro y
    rw [List.mem_singleton]
    constructor
    · exact hall y
    · rintro rfl
      exact hx
  exact hperm.length_eq

end OrdSet

/-- A finite map, as the list of its entries with ascending keys. -/
@[ext]
structure SortedMap (K V : Type*) [LinearOrder K] where
  entries : List (K × V)
  sorted : entries.Pairwise fun a b => a.1 < b.1
  deriving DecidableEq

namespace SortedMap

variable {K V : Type*} [LinearOrder K] {m m' : SortedMap K V} {k k' : K} {v v' : V}

def empty : SortedMap K V := ⟨[], List.Pairwise.nil⟩

def lookup (m : SortedMap K V) (k : K) : Option V := (m.entries.find? (·.1 = k)).map Prod.snd

def size (m : SortedMap K V) : Nat := m.entries.length

def erase (m : SortedMap K V) (k : K) : SortedMap K V :=
  ⟨m.entries.filter (·.1 ≠ k), m.sorted.filter _⟩

def insert (m : SortedMap K V) (k : K) (v : V) : SortedMap K V where
  entries := m.entries.filter (·.1 < k) ++ (k, v) :: m.entries.filter (k < ·.1)
  sorted := by
    rw [List.pairwise_append, List.pairwise_cons]
    refine ⟨m.sorted.filter _, ⟨?_, m.sorted.filter _⟩, ?_⟩
    · intro a ha
      simpa using (List.mem_filter.mp ha).2
    · intro a ha b hb
      have hak : a.1 < k := by simpa using (List.mem_filter.mp ha).2
      rcases List.mem_cons.mp hb with rfl | hb
      · exact hak
      · exact hak.trans (by simpa using (List.mem_filter.mp hb).2)

/-- The entries whose keys have a property. -/
def filterKeys (p : K → Bool) (m : SortedMap K V) : SortedMap K V :=
  ⟨m.entries.filter (p ·.1), m.sorted.filter _⟩

def filter (p : K → V → Bool) (m : SortedMap K V) : SortedMap K V :=
  ⟨m.entries.filter fun e => p e.1 e.2, m.sorted.filter _⟩

/-- The same keys with new values. -/
def mapKeys {W : Type*} (f : K → W) (m : SortedMap K V) : SortedMap K W where
  entries := m.entries.map fun e => (e.1, f e.1)
  sorted := by
    rw [List.pairwise_map]
    exact m.sorted

/-- The same keys with values made from the old ones. -/
def mapValues {W : Type*} (f : K → V → W) (m : SortedMap K V) : SortedMap K W where
  entries := m.entries.map fun e => (e.1, f e.1 e.2)
  sorted := by
    rw [List.pairwise_map]
    exact m.sorted

/-- The last entry whose key is not above the given one. -/
def prev (m : SortedMap K V) (k : K) : Option (K × V) := (m.entries.filter (·.1 ≤ k)).getLast?

lemma eq_of_mem_of_fst_eq {l : List (K × V)} (hl : l.Pairwise fun a b => a.1 < b.1) {a b : K × V}
    (ha : a ∈ l) (hb : b ∈ l) (h : a.1 = b.1) : a = b := by
  induction l with
  | nil => cases ha
  | cons c l ih =>
    rw [List.pairwise_cons] at hl
    rcases List.mem_cons.mp ha with hac | ha' <;> rcases List.mem_cons.mp hb with hbc | hb'
    · rw [hac, hbc]
    · exact absurd h (hac ▸ hl.1 b hb').ne
    · exact absurd h (hbc ▸ hl.1 a ha').ne'
    · exact ih hl.2 ha' hb'

lemma lookup_eq_some : m.lookup k = some v ↔ (k, v) ∈ m.entries := by
  rw [lookup, Option.map_eq_some_iff]
  constructor
  · rintro ⟨a, ha, rfl⟩
    have hk : a.1 = k := by simpa using List.find?_some ha
    rw [← hk]
    exact List.mem_of_find?_eq_some ha
  · intro h
    have hsome : (m.entries.find? (·.1 = k)).isSome := by
      rw [List.find?_isSome]
      exact ⟨(k, v), h, by simp⟩
    obtain ⟨a, ha⟩ := Option.isSome_iff_exists.mp hsome
    have hk : a.1 = k := by simpa using List.find?_some ha
    have hav := eq_of_mem_of_fst_eq m.sorted (List.mem_of_find?_eq_some ha) h hk
    exact ⟨a, ha, by rw [hav]⟩

@[simp] lemma lookup_empty : (empty : SortedMap K V).lookup k = none := rfl

@[simp] lemma mem_insert {a : K × V} :
    a ∈ (m.insert k v).entries ↔ a = (k, v) ∨ (a.1 ≠ k ∧ a ∈ m.entries) := by
  change a ∈ m.entries.filter (·.1 < k) ++ (k, v) :: m.entries.filter (k < ·.1) ↔ _
  simp only [List.mem_append, List.mem_cons, List.mem_filter, decide_eq_true_eq]
  constructor
  · rintro (⟨h, hlt⟩ | rfl | ⟨h, hlt⟩)
    · exact .inr ⟨hlt.ne, h⟩
    · exact .inl rfl
    · exact .inr ⟨hlt.ne', h⟩
  · rintro (rfl | ⟨hne, h⟩)
    · exact .inr (.inl rfl)
    · rcases lt_or_gt_of_ne hne with hlt | hlt
      · exact .inl ⟨h, hlt⟩
      · exact .inr (.inr ⟨h, hlt⟩)

@[simp] lemma mem_erase {a : K × V} : a ∈ (m.erase k).entries ↔ a.1 ≠ k ∧ a ∈ m.entries := by
  change a ∈ m.entries.filter (·.1 ≠ k) ↔ _
  simp [and_comm]

lemma lookup_insert [Decidable (k' = k)] :
    (m.insert k v).lookup k' = if k' = k then some v else m.lookup k' := by
  ext w
  rw [lookup_eq_some, mem_insert]
  split_ifs with h
  · subst h
    simp [eq_comm]
  · simp [h, lookup_eq_some]

lemma lookup_erase [Decidable (k' = k)] :
    (m.erase k).lookup k' = if k' = k then none else m.lookup k' := by
  ext w
  rw [lookup_eq_some, mem_erase]
  split_ifs with h
  · simp [h]
  · simp [h, lookup_eq_some]

lemma lookup_filterKeys {p : K → Bool} : (m.filterKeys p).lookup k = if p k then m.lookup k else none := by
  ext w
  rw [lookup_eq_some, filterKeys, List.mem_filter, Option.ite_none_right_eq_some, lookup_eq_some, and_comm]

lemma lookup_filter {p : K → V → Bool} : (m.filter p).lookup k = (m.lookup k).filter (p k) := by
  ext v
  rw [lookup_eq_some, Option.filter_eq_some_iff, lookup_eq_some]
  exact List.mem_filter

lemma lookup_mapValues {W : Type*} {f : K → V → W} : (m.mapValues f).lookup k = (m.lookup k).map (f k) := by
  ext w
  rw [lookup_eq_some, mapValues, List.mem_map, Option.map_eq_some_iff]
  constructor
  · rintro ⟨e, he, heq⟩
    obtain ⟨rfl, rfl⟩ := Prod.mk.injEq .. ▸ heq
    exact ⟨e.2, lookup_eq_some.mpr he, rfl⟩
  · rintro ⟨v, hv, rfl⟩
    exact ⟨(k, v), lookup_eq_some.mp hv, rfl⟩

lemma lookup_mapKeys {W : Type*} {f : K → W} : (m.mapKeys f).lookup k = (m.lookup k).map fun _ => f k :=
  lookup_mapValues (f := fun k _ => f k)

lemma ext_mem (h : ∀ a, a ∈ m.entries ↔ a ∈ m'.entries) : m = m' := by
  have hanti : Std.Antisymm fun a b : K × V => a.1 < b.1 := ⟨fun _ _ h h' => absurd h h'.asymm⟩
  have hirrefl : Std.Irrefl fun a b : K × V => a.1 < b.1 := ⟨fun _ => lt_irrefl _⟩
  exact SortedMap.ext (m.sorted.eq_of_mem_iff m'.sorted h)

lemma ext_lookup (h : ∀ k, m.lookup k = m'.lookup k) : m = m' := by
  apply ext_mem
  rintro ⟨k, v⟩
  rw [← lookup_eq_some, ← lookup_eq_some, h]

lemma nodup (m : SortedMap K V) : m.entries.Nodup :=
  m.sorted.imp fun hlt heq => hlt.ne (congrArg Prod.fst heq)

lemma insert_perm : (m.insert k v).entries.Perm ((k, v) :: (m.erase k).entries) := by
  have hnot : (k, v) ∉ (m.erase k).entries := by
    rw [mem_erase]
    exact fun h => h.1 rfl
  apply (List.perm_ext_iff_of_nodup (nodup _) (List.nodup_cons.mpr ⟨hnot, nodup _⟩)).mpr
  intro a
  rw [mem_insert, List.mem_cons, mem_erase]

lemma size_insert_eq : (m.insert k v).size = (m.erase k).size + 1 := insert_perm.length_eq

lemma insert_of_lookup_eq_some (h : m.lookup k = some v) : m.insert k v = m := by
  apply ext_lookup
  intro k'
  rw [lookup_insert]
  split_ifs with hk
  · rw [hk, h]
  · rfl

lemma size_erase_add_one (h : m.lookup k = some v) : (m.erase k).size + 1 = m.size := by
  rw [← @size_insert_eq _ _ _ m k v, insert_of_lookup_eq_some h]

lemma size_le_of_lookup (h : ∀ k v, m'.lookup k = some v → m.lookup k = some v) : m'.size ≤ m.size := by
  apply (List.subperm_of_subset m'.nodup ?_).length_le
  rintro ⟨k, v⟩ hmem
  exact lookup_eq_some.mp (h k v (lookup_eq_some.mpr hmem))

lemma erase_of_lookup_eq_none (h : m.lookup k = none) : m.erase k = m := by
  apply ext_lookup
  intro k'
  rw [lookup_erase]
  split_ifs with hk
  · rw [hk, h]
  · rfl

section Sum

variable {M : Type*} [AddCommMonoid M] {f : V → M}

/-- The sum of a measure over the values. -/
def sum (f : V → M) (m : SortedMap K V) : M := (m.entries.map fun e => f e.2).sum

lemma sum_insert : (m.insert k v).sum f = f v + (m.erase k).sum f := by
  unfold sum
  rw [(insert_perm.map _).sum_eq, List.map_cons, List.sum_cons]

lemma sum_erase (h : m.lookup k = some v) : f v + (m.erase k).sum f = m.sum f := by
  rw [← sum_insert, insert_of_lookup_eq_some h]

lemma sum_erase_of_none (h : m.lookup k = none) : (m.erase k).sum f = m.sum f := by
  rw [erase_of_lookup_eq_none h]

lemma sum_filter {p : K → V → Bool} (h : ∀ k v, m.lookup k = some v → p k v = false → f v = 0) :
    (m.filter p).sum f = m.sum f := by
  have hzero : ∀ e ∈ m.entries, p e.1 e.2 = false → f e.2 = 0 := fun e he => h e.1 e.2 (lookup_eq_some.mpr he)
  change ((m.entries.filter fun e => p e.1 e.2).map fun e => f e.2).sum = (m.entries.map fun e => f e.2).sum
  generalize m.entries = l at hzero ⊢
  induction l with
  | nil => rfl
  | cons e l ih =>
    rw [List.forall_mem_cons] at hzero
    rw [List.filter_cons, List.map_cons, List.sum_cons]
    cases hp : p e.1 e.2 with
    | true => rw [if_pos rfl, List.map_cons, List.sum_cons, ih hzero.2]
    | false => rw [if_neg Bool.false_ne_true, ih hzero.2, hzero.1 hp, zero_add]

end Sum

lemma mem_foldl_insert {l : List (K × V)} (hl : l.Pairwise fun a b => a.1 < b.1) {a : K × V} :
    a ∈ (l.foldl (fun m e => m.insert e.1 e.2) m).entries ↔
      a ∈ l ∨ (∀ b ∈ l, a.1 ≠ b.1) ∧ a ∈ m.entries := by
  induction l generalizing m with
  | nil => simp
  | cons b l ih =>
    rw [List.pairwise_cons] at hl
    have hb : ∀ c ∈ l, b.1 ≠ c.1 := fun c hc => (hl.1 c hc).ne
    rw [List.foldl_cons, ih hl.2, mem_insert, List.mem_cons, List.forall_mem_cons]
    constructor
    · rintro (ha | ⟨hne, rfl | ⟨hab, ha⟩⟩)
      · exact .inl (.inr ha)
      · exact .inl (.inl rfl)
      · exact .inr ⟨⟨hab, hne⟩, ha⟩
    · rintro ((rfl | ha) | ⟨⟨hab, hne⟩, ha⟩)
      · exact .inr ⟨hb, .inl rfl⟩
      · exact .inl ha
      · exact .inr ⟨hne, .inr ⟨hab, ha⟩⟩

lemma foldl_insert_entries : m.entries.foldl (fun m e => m.insert e.1 e.2) empty = m := by
  apply ext_mem
  intro a
  rw [mem_foldl_insert m.sorted]
  constructor
  · rintro (ha | ⟨-, ha⟩)
    · exact ha
    · cases ha
  · exact .inl

lemma le_of_find? {p : K × V → Bool} {a b : K × V} (h : m.entries.find? p = some a) (hb : b ∈ m.entries) (hp : p b = true) :
    a.1 ≤ b.1 := by
  obtain ⟨-, before, after, heq, hbefore⟩ := List.find?_eq_some_iff_append.mp h
  have hsorted := m.sorted
  rw [heq, List.pairwise_append, List.pairwise_cons] at hsorted
  rw [heq, List.mem_append, List.mem_cons] at hb
  obtain hb | rfl | hb := hb
  · have := hbefore b hb
    rw [hp] at this
    cases this
  · exact le_rfl
  · exact (hsorted.2.1.1 b hb).le

lemma exists_prev {e : K × V} (he : e ∈ m.entries) (hle : e.1 ≤ k) :
    ∃ a ∈ m.entries, m.prev k = some a ∧ a.1 ≤ k ∧ e.1 ≤ a.1 := by
  have hmem : e ∈ m.entries.filter (·.1 ≤ k) := by simpa using ⟨he, hle⟩
  obtain ⟨a, hlast⟩ : ∃ a, (m.entries.filter (·.1 ≤ k)).getLast? = some a :=
    ⟨_, List.getLast?_eq_some_getLast (List.ne_nil_of_mem hmem)⟩
  obtain ⟨ha, hak⟩ : a ∈ m.entries ∧ a.1 ≤ k := by
    simpa using List.mem_of_getLast? hlast
  refine ⟨a, ha, hlast, hak, ?_⟩
  obtain ⟨init, hinit⟩ := List.getLast?_eq_some_iff.mp hlast
  have hsorted : (init ++ [a]).Pairwise fun a b => a.1 < b.1 := hinit ▸ m.sorted.filter _
  rw [hinit, List.mem_append, List.mem_singleton] at hmem
  rcases hmem with hmem | rfl
  · exact ((List.pairwise_append.mp hsorted).2.2 e hmem a (by simp)).le
  · exact le_rfl

end SortedMap

end Arweave.Lib
