import Arweave.BlockIndex.Index

/-!
# The table holds a list

A table represents a list of elements, the oldest first, when its keys number the elements of the
list. This needs weave sizes that do not decrease, and it is what `init` and `update` keep.
-/

namespace Arweave.BlockIndex

open Lib

variable {t : Table} {l l' bi : List Element} {e e' : Element} {i j n : Nat}

def Nondecreasing (l : List Element) : Prop := l.Pairwise fun e e' => e.weaveSize ≤ e'.weaveSize

instance (l : List Element) : Decidable (Nondecreasing l) := inferInstanceAs (Decidable (l.Pairwise _))

/-- The keys of a list of elements. -/
def entries (l : List Element) : List Entry := l.mapIdx fun i e => e.entry i

def Represents (t : Table) (l : List Element) : Prop := t.elems = entries l

@[simp] lemma element_entry : (e.entry i).element = e := rfl

@[simp] lemma height_entry : (e.entry i).height = i := rfl

@[simp] lemma h_entry : (e.entry i).h = e.h := rfl

@[simp] lemma weaveSize_entry : (e.entry i).weaveSize = e.weaveSize := rfl

@[simp] lemma txRoot_entry : (e.entry i).txRoot = e.txRoot := rfl

@[simp] lemma length_entries : (entries l).length = l.length := List.length_mapIdx

lemma getElem?_entries : (entries l)[i]? = (l[i]?).map (·.entry i) := List.getElem?_mapIdx

lemma entries_append_singleton : entries (l ++ [e]) = entries l ++ [e.entry l.length] := List.mapIdx_concat

lemma entries_take : entries (l.take n) = (entries l).take n := by
  apply List.ext_getElem?
  intro i
  rw [getElem?_entries, List.getElem?_take, List.getElem?_take, getElem?_entries]
  split_ifs with h
  · rfl
  · rfl

lemma entry_lt_entry (hw : e.weaveSize ≤ e'.weaveSize) (hij : i < j) : e.entry i < e'.entry j := by
  change (e.entry i).key < (e'.entry j).key
  rw [Entry.key, Entry.key, Prod.Lex.toLex_lt_toLex]
  rcases hw.lt_or_eq with hlt | heq
  · exact .inl hlt
  · exact .inr ⟨heq, Prod.Lex.toLex_lt_toLex.mpr (.inl hij)⟩

namespace Represents

lemma getElem? (ht : Represents t l) : t.elems[i]? = (l[i]?).map (·.entry i) := by
  rw [ht]
  exact getElem?_entries

lemma length_eq (ht : Represents t l) : t.elems.length = l.length := by
  rw [ht]
  exact length_entries

lemma getElem?_some (ht : Represents t l) (he : l[i]? = some e) : t.elems[i]? = some (e.entry i) := by
  rw [ht.getElem?, he]
  rfl

lemma last_eq (ht : Represents t l) : t.last = (l.getLast?).map (·.entry (l.length - 1)) := by
  rw [OrdSet.last, List.getLast?_eq_getElem?, ht.length_eq, ht.getElem?, List.getLast?_eq_getElem?]

lemma add (ht : Represents t l) (hsorted : Nondecreasing (l ++ [e])) : Represents (t.add (e.entry l.length)) (l ++ [e]) := by
  rw [Represents, entries_append_singleton, ← ht]
  apply OrdSet.elems_add_of_forall_lt
  intro y hy
  obtain ⟨i, hi⟩ := List.mem_iff_getElem?.mp hy
  rw [ht.getElem?, Option.map_eq_some_iff] at hi
  obtain ⟨e', he', rfl⟩ := hi
  apply entry_lt_entry
  · exact (List.pairwise_append.mp hsorted).2.2 e' (List.mem_of_getElem? he') e (List.mem_singleton_self e)
  · exact (List.getElem?_eq_some_iff.mp he').1

lemma insertFrom (ht : Represents t l) (hsorted : Nondecreasing (l ++ bi)) :
    Represents (t.insertFrom bi l.length) (l ++ bi) := by
  induction bi generalizing t l with
  | nil => rwa [List.append_nil]
  | cons e bi ih =>
    rw [List.append_cons] at hsorted ⊢
    have hadd := ht.add (hsorted.sublist (List.sublist_append_left (l ++ [e]) bi))
    have hrest := ih hadd hsorted
    rw [List.length_append, List.length_singleton] at hrest
    exact hrest

lemma erase_last {key : Entry} (ht : Represents t l) (hlast : t.last = some key) : Represents (t.erase key) l.dropLast := by
  rw [Represents, OrdSet.elems_erase_last hlast, List.dropLast_eq_take, List.dropLast_eq_take, ht.length_eq, entries_take,
    ← ht]

end Represents

lemma init_represents (h : Nondecreasing bi.reverse) : Represents (Table.init bi) bi.reverse := by
  have hempty : Represents OrdSet.empty [] := rfl
  exact hempty.insertFrom h

/-- What an update does to the list: as many elements as blocks were orphaned are dropped from its
end and the new elements are appended, which needs an element to append them to. -/
def updateList (l bi : List Element) (n : Nat) : Option (List Element) :=
  if bi = [] then some (l.take (l.length - n))
  else if n < l.length then some (l.take (l.length - n) ++ bi)
  else none

lemma updateList_zero_cons : updateList l (e :: bi) 0 = if l = [] then none else some (l ++ e :: bi) := by
  rw [updateList, if_neg (List.cons_ne_nil e bi), Nat.sub_zero, List.take_length]
  cases l with
  | nil => rfl
  | cons e l => rfl

lemma updateList_succ : updateList l bi (n + 1) = updateList l.dropLast bi n := by
  have htake : l.dropLast.take (l.dropLast.length - n) = l.take (l.length - (n + 1)) := by
    rw [List.dropLast_eq_take, List.take_take, List.length_take]
    congr 1
    omega
  have hlt : n < l.dropLast.length ↔ n + 1 < l.length := by
    rw [List.length_dropLast]
    omega
  simp only [updateList, htake, hlt]

/-- An update of the table is one of the list. -/
lemma update_represents (ht : Represents t l) (hsorted : ∀ l', updateList l bi n = some l' → Nondecreasing l') :
    Option.Rel Represents (t.update bi n) (updateList l bi n) := by
  induction n generalizing t l with
  | zero =>
    cases bi with
    | nil =>
      simp only [Table.update, updateList, if_true, Nat.sub_zero, List.take_length]
      exact .some ht
    | cons e bi =>
      rw [updateList_zero_cons] at hsorted ⊢
      have hlast := ht.last_eq
      cases hl : l.getLast? with
      | none =>
        rw [hl] at hlast
        simp only [Table.update, hlast, List.getLast?_eq_none_iff.mp hl, Option.map_none, if_true]
        exact .none
      | some e' =>
        rw [hl] at hlast
        have hne : l ≠ [] := by
          rintro rfl
          cases hl
        have hpos := List.length_pos_iff.mpr hne
        rw [if_neg hne] at hsorted ⊢
        simp only [Table.update, hlast, Option.map_some]
        have hinsert := ht.insertFrom (hsorted _ rfl)
        rw [← Nat.sub_add_cancel hpos] at hinsert
        exact .some hinsert
  | succ n ih =>
    rw [updateList_succ] at hsorted ⊢
    rw [Table.update]
    cases hlast : t.last with
    | none =>
      rw [ht.last_eq, Option.map_eq_none_iff, List.getLast?_eq_none_iff] at hlast
      subst hlast
      exact ih ht hsorted
    | some key => exact ih (ht.erase_last hlast) hsorted

/-- An update with the new elements, the oldest first, and the number of orphaned blocks. -/
abbrev Update := List Element × Nat

def run (t : Table) (ops : List Update) : Option Table := ops.foldlM (fun t op => t.update op.1 op.2) t

def runList (l : List Element) (ops : List Update) : Option (List Element) := ops.foldlM (fun l op => updateList l op.1 op.2) l

lemma runList_cons {op : Update} {ops : List Update} (h : updateList l op.1 op.2 = some l') :
    runList l (op :: ops) = runList l' ops := by
  rw [runList, List.foldlM_cons, h]
  rfl

/-- A run of updates of the table is one of the list, while the weave sizes do not decrease. -/
lemma run_represents {ops : List Update} (ht : Represents t l)
    (hsorted : ∀ before l', before <+: ops → runList l before = some l' → Nondecreasing l') :
    Option.Rel Represents (run t ops) (runList l ops) := by
  induction ops generalizing t l with
  | nil => exact .some ht
  | cons op ops ih =>
    have hstep : Option.Rel Represents (t.update op.1 op.2) (updateList l op.1 op.2) := by
      apply update_represents ht
      intro l' hl'
      apply hsorted [op] l' ⟨ops, rfl⟩
      rw [runList_cons hl']
      rfl
    rw [run, List.foldlM_cons, runList, List.foldlM_cons]
    cases ht' : t.update op.1 op.2 with
    | none =>
      rw [ht'] at hstep
      cases hstep' : updateList l op.1 op.2 with
      | none => exact .none
      | some l' =>
        rw [hstep'] at hstep
        cases hstep
    | some t' =>
      rw [ht'] at hstep
      cases hstep' : updateList l op.1 op.2 with
      | none =>
        rw [hstep'] at hstep
        cases hstep
      | some l' =>
        rw [hstep'] at hstep
        cases hstep with
        | some hrel =>
          apply ih hrel
          intro before l'' hbefore hrun
          apply hsorted (op :: before) l'' (List.cons_prefix_cons.mpr ⟨rfl, hbefore⟩)
          rw [runList_cons hstep', hrun]

end Arweave.BlockIndex
