import Mathlib.Data.Nat.Digits.Lemmas
import Arweave.Lib.Bytes

/-!
# Deep hashes

The hash of nested lists of binaries of `ar_deep_hash`. Blobs and lists carry a tag with
their length, and a list folds the hashes of its elements into the hash of its tag.
-/

namespace Arweave.DeepHash
open Arweave.Lib

/-- A binary or a list of such items. -/
inductive Item where
  | blob (bytes : Bytes)
  | list (items : List Item)

/-- `integer_to_binary/1`: the decimal digits. -/
def integerToBinary (n : Nat) : Bytes :=
  if n = 0 then [48] else ((Nat.digits 10 n).map fun d => UInt8.ofNat (48 + d)).reverse

def blobTag (size : Nat) : Bytes := [98, 108, 111, 98] ++ integerToBinary size

def listTag (length : Nat) : Bytes := [108, 105, 115, 116] ++ integerToBinary length

mutual

def hashBinOrList (H : Digest 48) : Item → Bytes
  | .blob bytes => H (H (blobTag bytes.length) ++ H bytes)
  | .list items => hashList H items (H (listTag items.length))

def hashList (H : Digest 48) : List Item → Bytes → Bytes
  | [], acc => acc
  | head :: rest, acc => hashList H rest (H (acc ++ hashBinOrList H head))

end

/-- `hash/1` -/
def hash (H : Digest 48) (items : List Item) : Bytes := hashBinOrList H (.list items)

mutual

/-- The strings that are hashed for an item. -/
def strings (H : Digest 48) : Item → List Bytes
  | .blob bytes => [blobTag bytes.length, bytes, H (blobTag bytes.length) ++ H bytes]
  | .list items => listTag items.length :: listStrings H items (H (listTag items.length))

def listStrings (H : Digest 48) : List Item → Bytes → List Bytes
  | [], _ => []
  | head :: rest, acc =>
    strings H head ++ (acc ++ hashBinOrList H head) :: listStrings H rest (H (acc ++ hashBinOrList H head))

end

variable {H : Digest 48}

lemma length_hashList {items : List Item} {acc : Bytes} (h : acc.length = 48) :
    (hashList H items acc).length = 48 := by
  induction items generalizing acc with
  | nil =>
    rw [hashList]
    exact h
  | cons head rest ih =>
    rw [hashList]
    exact ih (H.length_apply _)

@[simp] lemma length_hashBinOrList (item : Item) : (hashBinOrList H item).length = 48 := by
  cases item with
  | blob bytes => rw [hashBinOrList, Digest.length_apply]
  | list items =>
    rw [hashBinOrList]
    exact length_hashList (H.length_apply _)

lemma length_hash (items : List Item) : (hash H items).length = 48 := length_hashBinOrList _

lemma hashList_append (items : List Item) (item : Item) (acc : Bytes) :
    hashList H (items ++ [item]) acc = H (hashList H items acc ++ hashBinOrList H item) := by
  induction items generalizing acc with
  | nil => simp only [List.nil_append, hashList]
  | cons head rest ih => simp only [List.cons_append, hashList, ih]

lemma listStrings_append (items : List Item) (item : Item) (acc : Bytes) :
    listStrings H (items ++ [item]) acc = listStrings H items acc ++
      (strings H item ++ [hashList H items acc ++ hashBinOrList H item]) := by
  induction items generalizing acc with
  | nil => simp only [List.nil_append, listStrings, hashList]
  | cons head rest ih => simp only [List.cons_append, listStrings, hashList, ih, List.append_assoc]

lemma mem_listStrings_of_mem {items : List Item} {item : Item} (hitem : item ∈ items) {acc x : Bytes}
    (hx : x ∈ strings H item) : x ∈ listStrings H items acc := by
  induction items generalizing acc with
  | nil => cases hitem
  | cons head rest ih =>
    rw [listStrings, List.mem_append, List.mem_cons]
    rcases List.mem_cons.mp hitem with rfl | hitem
    · exact .inl hx
    · exact .inr (.inr (ih hitem))

section Injective

variable {s : List Bytes} (hs : H.CollisionFree s)
include hs

lemma blob_injective {a b : Bytes} (ha : ∀ x ∈ strings H (.blob a), x ∈ s)
    (hb : ∀ x ∈ strings H (.blob b), x ∈ s) (h : hashBinOrList H (.blob a) = hashBinOrList H (.blob b)) :
    a = b := by
  rw [hashBinOrList, hashBinOrList] at h
  have hpair := hs _ (ha _ (by simp [strings])) _ (hb _ (by simp [strings])) h
  have hright := (List.append_inj hpair (by simp)).2
  exact hs _ (ha _ (by simp [strings])) _ (hb _ (by simp [strings])) hright

/-- Two folds with the same result start with the same short string and go over items with the
same hashes. -/
lemma hashList_injective {l l' : List Item} {t t' : Bytes} (ht : t ∈ s) (ht' : t' ∈ s)
    (hlen : t.length < 96) (hlen' : t'.length < 96)
    (hl : ∀ x ∈ listStrings H l (H t), x ∈ s) (hl' : ∀ x ∈ listStrings H l' (H t'), x ∈ s)
    (h : hashList H l (H t) = hashList H l' (H t')) :
    l.map (hashBinOrList H) = l'.map (hashBinOrList H) := by
  have hpair (a : List Item) (t : Bytes) (b : Item) :
      (hashList H a (H t) ++ hashBinOrList H b).length = 96 := by
    rw [List.length_append, length_hashList (H.length_apply _), length_hashBinOrList]
  induction l using List.reverseRecOn generalizing l' with
  | nil =>
    cases l' using List.reverseRecOn with
    | nil => rfl
    | append_singleton l' b =>
      rw [hashList_append] at h
      rw [listStrings_append] at hl'
      have heq := hs _ ht _ (hl' _ (by simp)) h
      have := congrArg List.length heq
      rw [hpair] at this
      omega
  | append_singleton l a ih =>
    rw [listStrings_append] at hl
    rw [hashList_append] at h
    cases l' using List.reverseRecOn with
    | nil =>
      have heq := hs _ (hl _ (by simp)) _ ht' h
      have := congrArg List.length heq
      rw [hpair] at this
      omega
    | append_singleton l' b =>
      rw [listStrings_append] at hl'
      rw [hashList_append] at h
      have heq := hs _ (hl _ (by simp)) _ (hl' _ (by simp)) h
      obtain ⟨hacc, hlast⟩ := List.append_inj heq (by
        rw [length_hashList (H.length_apply _), length_hashList (H.length_apply _)])
      rw [List.map_append, List.map_append, ih (fun x hx => hl x (by simp [hx]))
        (fun x hx => hl' x (by simp [hx])) hacc, List.map_singleton, List.map_singleton, hlast]

end Injective

lemma length_integerToBinary {n k : Nat} (hk : 0 < k) (h : n < 10 ^ k) : (integerToBinary n).length ≤ k := by
  rw [integerToBinary]
  split_ifs
  · exact hk
  · rw [List.length_reverse, List.length_map, Nat.digits_length_le_iff (by norm_num)]
    exact h

lemma length_listTag {n : Nat} (h : n < 2 ^ 64) : (listTag n).length < 96 := by
  have := length_integerToBinary (k := 20) (by norm_num) (h.trans (by norm_num))
  simp only [listTag, List.length_append, List.length_cons, List.length_nil]
  omega

/-- The hash of a list binds the hashes of its items. -/
theorem hash_list_injective {s : List Bytes} (hs : H.CollisionFree s) {l l' : List Item}
    (hlen : l.length < 2 ^ 64) (hlen' : l'.length < 2 ^ 64)
    (hl : ∀ x ∈ strings H (.list l), x ∈ s) (hl' : ∀ x ∈ strings H (.list l'), x ∈ s)
    (h : hashBinOrList H (.list l) = hashBinOrList H (.list l')) :
    l.map (hashBinOrList H) = l'.map (hashBinOrList H) := by
  rw [hashBinOrList, hashBinOrList] at h
  rw [strings] at hl hl'
  exact hashList_injective hs (hl _ List.mem_cons_self) (hl' _ List.mem_cons_self) (length_listTag hlen)
    (length_listTag hlen') (fun x hx => hl x (List.mem_cons_of_mem _ hx))
    (fun x hx => hl' x (List.mem_cons_of_mem _ hx)) h

/-- Deep hashes of short lists of blobs bind the list. -/
theorem hash_blobs_injective {s : List Bytes} (hs : H.CollisionFree s) {l l' : List Bytes}
    (hlen : l.length < 1000) (hlen' : l'.length < 1000)
    (hl : ∀ x ∈ strings H (.list (l.map .blob)), x ∈ s)
    (hl' : ∀ x ∈ strings H (.list (l'.map .blob)), x ∈ s)
    (h : hash H (l.map .blob) = hash H (l'.map .blob)) : l = l' := by
  have hhashes := hash_list_injective hs (by rw [List.length_map]; omega) (by rw [List.length_map]; omega) hl hl' h
  have hmem {l : List Bytes} (hl : ∀ x ∈ strings H (.list (l.map .blob)), x ∈ s) {b : Bytes} (hb : b ∈ l) :
      ∀ x ∈ strings H (.blob b), x ∈ s := by
    intro x hx
    apply hl
    rw [strings]
    exact List.mem_cons_of_mem _ (mem_listStrings_of_mem (List.mem_map_of_mem hb) hx)
  rw [List.map_map, List.map_map] at hhashes
  apply eq_of_map_eq_map _ hhashes
  intro a ha b hb hab
  exact blob_injective hs (hmem hl ha) (hmem hl' hb) hab

end Arweave.DeepHash
