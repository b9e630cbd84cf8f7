import Mathlib.Data.List.Induction
import Mathlib.Data.List.Pairwise
import Arweave.Lib.Sorted

/-!
# Ranges of an ordered store

The operations of an ordered key-value store on ranges of keys, and what a list of insertions or
deletions leaves under a key.
-/

namespace Arweave.Lib

lemma related_of_pairwise {α : Type*} {R : α → α → Prop} {l : List α} {a b : α} (h : l.Pairwise R) (ha : a ∈ l)
    (hb : b ∈ l) (hne : a ≠ b) : R a b ∨ R b a := by
  have hsymm : Std.Symm fun a b => R a b ∨ R b a := ⟨fun _ _ h => h.symm⟩
  have hpair : l.Pairwise fun a b => R a b ∨ R b a := h.imp fun h => Or.inl h
  exact hpair.forall ha hb hne

end Arweave.Lib

namespace Arweave.Lib.SortedMap

variable {K V : Type*} [LinearOrder K] {m : SortedMap K V} {k start stop : K} {v : V}

/-- The entries with keys from the first to the second, both included. -/
def getRange (m : SortedMap K V) (start stop : K) : List (K × V) :=
  m.entries.filter fun e => start ≤ e.1 ∧ e.1 ≤ stop

/-- The map without the keys from the first to the second, the second excluded. -/
def deleteRange (m : SortedMap K V) (start stop : K) : SortedMap K V :=
  m.filterKeys fun k => !(start ≤ k ∧ k < stop)

lemma mem_getRange : (k, v) ∈ m.getRange start stop ↔ m.lookup k = some v ∧ start ≤ k ∧ k ≤ stop := by
  rw [getRange, List.mem_filter, lookup_eq_some, decide_eq_true_eq]

lemma lookup_deleteRange :
    (m.deleteRange start stop).lookup k = some v ↔ m.lookup k = some v ∧ ¬ (start ≤ k ∧ k < stop) := by
  rw [deleteRange, lookup_filterKeys]
  by_cases h : start ≤ k ∧ k < stop <;> simp [h]

lemma of_prev {a : K × V} (h : m.prev k = some a) :
    a ∈ m.entries ∧ a.1 ≤ k ∧ ∀ b ∈ m.entries, b.1 ≤ k → b.1 ≤ a.1 := by
  have ha : a ∈ m.entries ∧ a.1 ≤ k := by
    have := List.mem_of_getLast? h
    rwa [List.mem_filter, decide_eq_true_eq] at this
  refine ⟨ha.1, ha.2, fun b hb hle => ?_⟩
  obtain ⟨a', -, hprev, -, hba⟩ := exists_prev hb hle
  cases h.symm.trans hprev
  exact hba

lemma find?_eq_some {p : K × V → Bool} {a : K × V} (ha : a ∈ m.entries) (hp : p a = true)
    (hmin : ∀ b ∈ m.entries, p b = true → a.1 ≤ b.1) : m.entries.find? p = some a := by
  obtain ⟨b, hb⟩ := Option.ne_none_iff_exists'.mp fun hnone => List.find?_eq_none.mp hnone a ha hp
  have hmem := List.mem_of_find?_eq_some hb
  have hkey := (hmin b hmem (List.find?_some hb)).antisymm (le_of_find? hb ha hp)
  rw [hb, eq_of_mem_of_fst_eq m.sorted ha hmem hkey]

section Insertions

variable {α : Type*} {l : List α} {f : α → K} {g : α → V}

lemma lookup_foldl_insert (hagree : ∀ p ∈ l, ∀ q ∈ l, f p = f q → g p = g q) :
    (l.foldl (fun m p => m.insert (f p) (g p)) m).lookup k = some v ↔
      (∃ p ∈ l, f p = k ∧ g p = v) ∨ (∀ p ∈ l, f p ≠ k) ∧ m.lookup k = some v := by
  induction l using List.reverseRecOn with
  | nil => simp
  | append_singleton l q ih =>
    have hagree' : ∀ p ∈ l, ∀ q ∈ l, f p = f q → g p = g q :=
      fun p hp q hq => hagree p (List.mem_append_left _ hp) q (List.mem_append_left _ hq)
    rw [List.foldl_append, List.foldl_cons, List.foldl_nil, lookup_insert]
    split_ifs with hk
    · subst hk
      simp only [Option.some.injEq, List.mem_append, List.mem_singleton]
      constructor
      · exact fun h => Or.inl ⟨q, Or.inr rfl, rfl, h⟩
      · rintro (⟨p, hp | rfl, heq, rfl⟩ | ⟨hnone, -⟩)
        · exact (hagree p (List.mem_append_left _ hp) q (by simp) heq).symm
        · rfl
        · exact absurd rfl (hnone q (Or.inr rfl))
    · rw [ih hagree']
      simp only [List.mem_append, List.mem_singleton, or_imp, forall_and, forall_eq]
      constructor
      · rintro (⟨p, hp, heq⟩ | ⟨hnone, hm⟩)
        · exact Or.inl ⟨p, Or.inl hp, heq⟩
        · exact Or.inr ⟨⟨hnone, Ne.symm hk⟩, hm⟩
      · rintro (⟨p, hp | rfl, heq⟩ | ⟨⟨hnone, -⟩, hm⟩)
        · exact Or.inl ⟨p, hp, heq⟩
        · exact absurd heq.1.symm hk
        · exact Or.inr ⟨hnone, hm⟩

lemma lookup_foldl_erase :
    (l.foldl (fun m p => m.erase (f p)) m).lookup k = some v ↔ (∀ p ∈ l, f p ≠ k) ∧ m.lookup k = some v := by
  induction l generalizing m with
  | nil => simp
  | cons q l ih =>
    rw [List.foldl_cons, ih, lookup_erase, List.forall_mem_cons]
    split_ifs with hk
    · simp [hk]
    · rw [and_assoc]
      exact ⟨fun h => ⟨Ne.symm hk, h⟩, fun h => h.2⟩

end Insertions

section Lists

variable {ι α : Type*} {B C : ι → Prop} {items : ι → List α} {f : ι → α → K} {g : ι → α → V} {m' : SortedMap K V}
  {x : ι}

/-- The map has the items of some sources, each under its key with its value. -/
def Lists (m : SortedMap K V) (B : ι → Prop) (items : ι → List α) (f : ι → α → K) (g : ι → α → V) : Prop :=
  ∀ k v, m.lookup k = some v ↔ ∃ x, B x ∧ ∃ p ∈ items x, f x p = k ∧ g x p = v

lemma lists_empty (hB : ∀ x, ¬ B x) : (empty : SortedMap K V).Lists B items f g := by
  intro k v
  simp [hB]

lemma Lists.congr (h : m.Lists B items f g) (hB : ∀ x, B x ↔ C x) : m.Lists C items f g := by
  intro k v
  rw [h k v]
  exact exists_congr fun x => and_congr_left' (hB x)

lemma Lists.restrict {R : K → Prop} (h : m.Lists B items f g)
    (hm' : ∀ k v, m'.lookup k = some v ↔ m.lookup k = some v ∧ R k)
    (hR : ∀ x, B x → ∀ p ∈ items x, (R (f x p) ↔ C x)) : m'.Lists (fun x => B x ∧ C x) items f g := by
  intro k v
  rw [hm', h k v]
  constructor
  · rintro ⟨⟨x, hx, p, hp, rfl, rfl⟩, hk⟩
    exact ⟨x, ⟨hx, (hR x hx p hp).mp hk⟩, p, hp, rfl, rfl⟩
  · rintro ⟨x, ⟨hx, hC⟩, p, hp, rfl, rfl⟩
    exact ⟨⟨x, hx, p, hp, rfl, rfl⟩, (hR x hx p hp).mpr hC⟩

lemma Lists.insert_source {l : List α} (h : m.Lists B items f g) (hl : ∀ p, p ∈ l ↔ p ∈ items x)
    (hagree : ∀ p ∈ items x, ∀ q ∈ items x, f x p = f x q → p = q)
    (hnew : ∀ y, B y → ∀ q ∈ items y, ∀ p ∈ items x, f x p ≠ f y q) :
    (l.foldl (fun m p => m.insert (f x p) (g x p)) m).Lists (fun y => B y ∨ y = x) items f g := by
  have hagree' : ∀ p ∈ l, ∀ q ∈ l, f x p = f x q → g x p = g x q := by
    intro p hp q hq heq
    rw [hagree p ((hl p).mp hp) q ((hl q).mp hq) heq]
  intro k v
  rw [lookup_foldl_insert hagree', h k v]
  constructor
  · rintro (⟨p, hp, rfl, rfl⟩ | ⟨-, y, hy, q, hq, rfl, rfl⟩)
    · exact ⟨x, Or.inr rfl, p, (hl p).mp hp, rfl, rfl⟩
    · exact ⟨y, Or.inl hy, q, hq, rfl, rfl⟩
  · rintro ⟨y, hy | rfl, q, hq, rfl, rfl⟩
    · exact Or.inr ⟨fun p hp => hnew y hy q hq p ((hl p).mp hp), y, hy, q, hq, rfl, rfl⟩
    · exact Or.inl ⟨q, (hl q).mpr hq, rfl, rfl⟩

end Lists

end Arweave.Lib.SortedMap
