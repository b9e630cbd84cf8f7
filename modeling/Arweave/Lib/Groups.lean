import Arweave.Lib.Sorted

/-!
# Groups

Elements filed under keys, as a map to the sets of the elements with each key. A key that
lost its elements keeps an empty set, which reads like a key that is not in the map.
-/

namespace Arweave.Lib.SortedMap

variable {K α : Type*} [LinearOrder K] [LinearOrder α] {m : SortedMap K (OrdSet α)} {k k' : K} {x y : α}

/-- The elements under a key. -/
def group (m : SortedMap K (OrdSet α)) (k : K) : OrdSet α := (m.lookup k).getD .empty

def addTo (m : SortedMap K (OrdSet α)) (k : K) (x : α) : SortedMap K (OrdSet α) :=
  match m.lookup k with
  | none => m.insert k (.ofList [x])
  | some s => m.insert k (s.add x)

def delFrom (m : SortedMap K (OrdSet α)) (k : K) (x : α) : SortedMap K (OrdSet α) :=
  match m.lookup k with
  | none => m
  | some s => m.insert k (s.erase x)

lemma mem_group_addTo : y ∈ (m.addTo k x).group k' ↔ (k' = k ∧ y = x) ∨ y ∈ m.group k' := by
  unfold group addTo
  cases hk : m.lookup k with
  | none =>
    rw [lookup_insert]
    split_ifs with heq
    · subst heq
      simp [hk]
    · simp [heq]
  | some s =>
    rw [lookup_insert]
    split_ifs with heq
    · subst heq
      simp [hk]
    · simp [heq]

lemma mem_group_delFrom : y ∈ (m.delFrom k x).group k' ↔ y ∈ m.group k' ∧ ¬ (k' = k ∧ y = x) := by
  unfold group delFrom
  cases hk : m.lookup k with
  | none =>
    constructor
    · intro hy
      refine ⟨hy, ?_⟩
      rintro ⟨rfl, -⟩
      rw [hk] at hy
      exact OrdSet.not_mem_empty hy
    · exact And.left
  | some s =>
    rw [lookup_insert]
    split_ifs with heq
    · subst heq
      simp [hk, and_comm]
    · simp [heq]

section Lists

variable {β : Type*} {f : β → K} {m : SortedMap K (List β)} {l g : List β} {z : β}

/-- Puts an element in front of the list of its key. -/
def consTo (m : SortedMap K (List β)) (k : K) (z : β) : SortedMap K (List β) :=
  match m.lookup k with
  | none => m.insert k [z]
  | some l => m.insert k (z :: l)

/-- The elements by their keys, the last one first. -/
def groupBy (f : β → K) (l : List β) : SortedMap K (List β) := l.foldl (fun m x => m.consTo (f x) x) empty

lemma lookup_consTo : (m.consTo k z).lookup k' =
    if k' = k then some (z :: (m.lookup k).getD []) else m.lookup k' := by
  unfold consTo
  cases hk : m.lookup k <;> simp [lookup_insert]

lemma lookup_foldl_consTo : ((l.foldl (fun m x => m.consTo (f x) x) m).lookup k).getD [] =
    (l.filter (f · = k)).reverse ++ (m.lookup k).getD [] := by
  induction l generalizing m with
  | nil => rfl
  | cons x l ih =>
    rw [List.foldl_cons, ih, lookup_consTo, List.filter_cons]
    by_cases hk : k = f x
    · simp [hk]
    · simp [hk, Ne.symm hk]

lemma eq_of_mem_groupBy (h : (k, g) ∈ (groupBy f l).entries) : g = (l.filter (f · = k)).reverse := by
  have hlookup := lookup_eq_some.mpr h
  have hget := lookup_foldl_consTo (f := f) (m := empty) (l := l) (k := k)
  rw [groupBy] at hlookup
  rw [hlookup] at hget
  simpa using hget

lemma flatMap_consTo_perm : ((m.consTo k z).entries.flatMap Prod.snd).Perm (z :: m.entries.flatMap Prod.snd) := by
  unfold consTo
  cases hk : m.lookup k with
  | none =>
    have hperm := (insert_perm (m := m) (k := k) (v := [z])).flatMap_right Prod.snd
    rwa [erase_of_lookup_eq_none hk] at hperm
  | some l =>
    have hold := (insert_perm (m := m) (k := k) (v := l)).flatMap_right Prod.snd
    rw [insert_of_lookup_eq_some hk] at hold
    exact (insert_perm.flatMap_right Prod.snd).trans (hold.symm.cons z)

lemma flatMap_groupBy_perm (f : β → K) (l : List β) : ((groupBy f l).entries.flatMap Prod.snd).Perm l := by
  have hfold : ∀ m : SortedMap K (List β),
      ((l.foldl (fun m x => m.consTo (f x) x) m).entries.flatMap Prod.snd).Perm
        (l ++ m.entries.flatMap Prod.snd) := by
    induction l with
    | nil => exact fun m => .refl _
    | cons x l ih =>
      intro m
      exact (ih _).trans ((flatMap_consTo_perm.append_left l).trans List.perm_middle)
  simpa [groupBy, empty] using hfold empty

end Lists

end Arweave.Lib.SortedMap
