import Arweave.Lib.Sha2
import Arweave.Patricia.ComputeHash

/-!
# Runs of the tree

A run is a sequence of insertions, deletions and hash computations from the new tree. Every
operation keeps `Sound`, so that after a run the tree stands for the map with the live keys,
and its hash is the hash of this map.
-/

namespace Arweave.Patricia
open Arweave.Lib

/-- An operation on the tree. -/
inductive Op (V : Type) where
  | insert (key : Bytes) (value : V)
  | delete (key : Bytes)
  | computeHash

variable {V : Type} (H : Digest 48) (hashFun : Bytes → V → Bytes)

def Op.step (fuel : Nat) (op : Op V) (tree : Tree V) : Option (Tree V) :=
  match op with
  | .insert key value => Patricia.insert key value tree
  | .delete key => Patricia.delete key tree
  | .computeHash => (Patricia.computeHash H hashFun fuel tree).map (·.2.1)

/-- The operations one after the other. -/
def run (fuel : Nat) (ops : List (Op V)) (tree : Tree V) : Option (Tree V) :=
  ops.foldlM (fun tree op => op.step H hashFun fuel tree) tree

/-- The last inserted and not deleted value of a key. -/
def live (ops : List (Op V)) (key : Bytes) : Option V :=
  ops.foldl (fun acc op =>
    match op with
    | .insert k v => if k = key then some v else acc
    | .delete k => if k = key then none else acc
    | .computeHash => acc) none

/-- The effect of an operation on the map. -/
def Op.apply (M : SortedMap Bytes V) : Op V → SortedMap Bytes V
  | .insert key value => M.insert key value
  | .delete key => M.erase key
  | .computeHash => M

/-- The map after the operations. -/
def contents (ops : List (Op V)) : SortedMap Bytes V := ops.foldl Op.apply .empty

/-- The keys of the operation have at most the given length. -/
def Op.Fits (L : Nat) : Op V → Prop
  | .insert key _ => key.length ≤ L
  | .delete key => key.length ≤ L
  | .computeHash => True

instance (L : Nat) (op : Op V) : Decidable (op.Fits L) :=
  match op with
  | .insert key _ => inferInstanceAs (Decidable (key.length ≤ L))
  | .delete key => inferInstanceAs (Decidable (key.length ≤ L))
  | .computeHash => isTrue trivial

/-- The invariant of runs. -/
structure Sound (tree : Tree V) (M : SortedMap Bytes V) (L : Nat) : Prop where
  represents : Represents tree M
  bounded : Bounded tree L
  caches : Caches H hashFun M tree
  rootHash : ∀ n, tree.node .root = some n → n.hash ≠ none → tree.size ≠ 0

variable {H hashFun} {tree tree' : Tree V} {M M' : SortedMap Bytes V} {L : Nat} {key : Bytes}

section Update

variable {value : Option V}

/-- The map after a change of one value. -/
structure Changes (M M' : SortedMap Bytes V) (key : Bytes) (value : Option V) : Prop where
  lookup : ∀ key', M'.lookup key' = if key' = key then value else M.lookup key'
  size : M'.size = M.size + value.toList.length - (M.lookup key).toList.length

lemma changes_insert (M : SortedMap Bytes V) (key : Bytes) (v : V) : Changes M (M.insert key v) key (some v) where
  lookup _ := SortedMap.lookup_insert
  size := by
    rw [SortedMap.size_insert_eq]
    cases hl : M.lookup key with
    | none => rw [SortedMap.erase_of_lookup_eq_none hl]; rfl
    | some w =>
      rw [SortedMap.size_erase_add_one hl]
      rfl

lemma changes_erase (M : SortedMap Bytes V) (key : Bytes) : Changes M (M.erase key) key none where
  lookup _ := SortedMap.lookup_erase
  size := by
    cases hl : M.lookup key with
    | none => rw [SortedMap.erase_of_lookup_eq_none hl]; rfl
    | some w =>
      rw [← SortedMap.size_erase_add_one hl]
      rfl

lemma Changes.mem_iff (hc : Changes M M' key value) {e : Bytes × V} (hne : e.1 ≠ key) :
    e ∈ M'.entries ↔ e ∈ M.entries := by
  rw [← SortedMap.lookup_eq_some, ← SortedMap.lookup_eq_some, hc.lookup, if_neg hne]

lemma Update.represents (hu : Update tree tree' key value) (h : Represents tree M)
    (hc : Changes M M' key value) : Represents tree' M' where
  toWellFormed := hu.wellFormed
  holds key' w := by
    rw [hu.holds, ← SortedMap.lookup_eq_some, hc.lookup]
    split_ifs
    · rfl
    · rw [h.holds, SortedMap.lookup_eq_some]
  size := by rw [hu.size, hc.size, h.size, h.get_eq]

lemma Update.bounded (hu : Update tree tree' key value) (hb : Bounded tree L) (hkey : key.length ≤ L) :
    Bounded tree' L := by
  intro k' n' hn'
  by_cases hab : ((Key.bin k').full n').Above (.bin key)
  · exact hab.1.length_le.trans hkey
  · obtain ⟨k, n, hn, -, hfull, -⟩ := hu.kept _ n' hn' hab
    cases k with
    | root => cases hfull
    | bin k =>
      rw [← Key.bin.inj hfull]
      exact hb k n hn

lemma Update.cached (hu : Update tree tree' key value) {k' : Key} {n' : Node V}
    (hn' : tree'.node k' = some n') (hhash : n'.hash ≠ none) : ¬(k'.full n').Above (.bin key) :=
  fun hab => hhash (hu.cleared k' n' hn' hab)

lemma Update.caches (hu : Update tree tree' key value) (h : Represents tree M)
    (hc : Caches H hashFun M tree) (hM : Changes M M' key value) : Caches H hashFun M' tree' where
  content k' n' hash hn' hhash := by
    have hnot := hu.cached hn' (by simp [hhash])
    obtain ⟨k, n, hn, -, hfull, hsame, -⟩ := hu.kept k' n' hn' hnot
    rw [hc.content k n hash hn (hsame.trans hhash), hfull]
    apply contentHash_congr
    intro e hab
    refine (hM.mem_iff ?_).symm
    rintro rfl
    exact hnot hab
  closed k' n' c cn' hn' hmem hcn' hhash := by
    have hl' := hu.wellFormed.toLinked
    have hnot := hu.cached hn' hhash
    have hne : k' ≠ .bin c := hl'.ne_child hn' hmem
    have hnotc : ¬((Key.bin c).full cn').Above (.bin key) := by
      intro hab
      apply hnot
      apply (hl'.full_above hn' hcn' hne (hl'.above_child hn' hmem)).trans
      exact ((hl'.above_full_iff hcn' hcn').mpr (Key.Above.refl _)).trans hab
    obtain ⟨k, n, hn, -, -, hsame, hch, -⟩ := hu.kept k' n' hn' hnot
    obtain ⟨c0, cn0, hcn0, habove, hfull, hsamec, -⟩ := hu.kept (.bin c) cn' hcn' hnotc
    rw [← hch] at hmem
    obtain ⟨cn, hcn, -⟩ := h.toLinked.child_node hn hmem
    have heq : c0 = .bin c := by
      cases c0 with
      | root => cases hfull
      | bin q =>
        by_contra hcc
        have hqc : q ≠ c := fun he => hcc (by rw [he])
        have hq : q ≠ [] := fun hnil => hqc (by rw [hnil, habove.2 hnil])
        obtain ⟨d, hd⟩ := h.toLinked.chain hcn0 hcn habove.1 hqc hq
        have h1 := hd.length_le
        have h2 := congrArg List.length (Key.bin.inj hfull)
        simp only [List.length_append, List.length_singleton] at h1 h2
        omega
    rw [heq, hcn] at hcn0
    obtain rfl := Option.some.inj hcn0
    rw [← hsamec]
    exact hc.closed k n c cn hn hmem hcn (hsame ▸ hhash)

lemma Sound.update (h : Sound H hashFun tree M L) (hu : Update tree tree' key value)
    (hM : Changes M M' key value) (hkey : key.length ≤ L) : Sound H hashFun tree' M' L where
  represents := hu.represents h.represents hM
  bounded := hu.bounded h.bounded hkey
  caches := hu.caches h.represents h.caches hM
  rootHash n hn hhash := absurd (hu.cleared .root n hn trivial) hhash

end Update

lemma sound_new (L : Nat) : Sound H hashFun (new : Tree V) .empty L where
  represents :=
    { root := ⟨_, rfl, rfl, rfl⟩
      parent := fun _ _ h => by cases h
      children := fun p pn c hp => by
        cases p with
        | root =>
          cases hp
          simp [new]
        | bin p => cases hp
      empty := fun _ h => by cases h
      inner := fun _ _ h => by cases h
      holds := fun key v => by
        constructor
        · rintro ⟨k, n, hn, -⟩
          cases hn
        · intro h
          cases h
      size := rfl }
  bounded := fun _ _ h => by cases h
  caches :=
    { content := fun k n hash hn hhash => by
        cases k with
        | root =>
          cases hn
          cases hhash
        | bin k => cases hn
      closed := fun _ _ _ _ _ _ h => by cases h }
  rootHash := fun n hn hhash => by
    cases hn
    exact absurd rfl hhash

lemma Sound.insert (h : Sound H hashFun tree M L) (hkey : key.length ≤ L) (v : V) :
    ∃ tree', Patricia.insert key v tree = some tree' ∧ Sound H hashFun tree' (M.insert key v) L := by
  obtain ⟨tree', htree', hu⟩ := insert_update h.represents.toWellFormed key v
  exact ⟨tree', htree', h.update hu (changes_insert M key v) hkey⟩

lemma Sound.delete (h : Sound H hashFun tree M L) (hkey : key.length ≤ L) :
    ∃ tree', Patricia.delete key tree = some tree' ∧ Sound H hashFun tree' (M.erase key) L := by
  rcases delete_update h.represents.toWellFormed key with ⟨hnone, hdelete⟩ | ⟨tree', htree', hu⟩
  · rw [h.represents.get_eq] at hnone
    rw [SortedMap.erase_of_lookup_eq_none hnone]
    exact ⟨tree, hdelete, h⟩
  · exact ⟨tree', htree', h.update hu (changes_erase M key) hkey⟩

lemma Sound.computeHash (h : Sound H hashFun tree M L) {fuel : Nat} (hfuel : L + 2 ≤ fuel) :
    ∃ tree' updates, Patricia.computeHash H hashFun fuel tree =
      some (if M.size = 0 then [] else trieHash H hashFun M [], tree', updates) ∧
      Sound H hashFun tree' M L := by
  by_cases hsize : tree.size = 0
  · refine ⟨tree, [], ?_, h⟩
    rw [Patricia.computeHash, if_pos hsize, if_pos (h.represents.size ▸ hsize)]
  · obtain ⟨updates, hcompute, -⟩ := computeHash_eq h.represents h.bounded h.caches hfuel hsize
    refine ⟨tree.fill H hashFun M fun _ => True, updates, ?_, h.represents.rehash, h.bounded.rehash, ?_,
      fun _ _ _ => hsize⟩
    · rw [hcompute, if_neg (h.represents.size ▸ hsize)]
    · exact h.caches.fill fun _ _ _ _ _ _ => trivial

lemma Sound.step {fuel : Nat} (hfuel : L + 2 ≤ fuel) (h : Sound H hashFun tree M L) {op : Op V}
    (hop : op.Fits L) :
    ∃ tree', op.step H hashFun fuel tree = some tree' ∧ Sound H hashFun tree' (op.apply M) L := by
  cases op with
  | insert key v => exact h.insert hop v
  | delete key => exact h.delete hop
  | computeHash =>
    obtain ⟨tree', updates, hcompute, h'⟩ := h.computeHash hfuel
    exact ⟨tree', by rw [Op.step, hcompute]; rfl, h'⟩

lemma Sound.run {fuel : Nat} (hfuel : L + 2 ≤ fuel) (h : Sound H hashFun tree M L) {ops : List (Op V)}
    (hops : ∀ op ∈ ops, op.Fits L) :
    ∃ tree', run H hashFun fuel ops tree = some tree' ∧ Sound H hashFun tree' (ops.foldl Op.apply M) L := by
  induction ops generalizing tree M with
  | nil => exact ⟨tree, rfl, h⟩
  | cons op ops ih =>
    obtain ⟨tree1, hstep, h1⟩ := h.step hfuel (hops op (by simp))
    obtain ⟨tree2, hrun, h2⟩ := ih h1 fun op hop => hops op (by simp [hop])
    refine ⟨tree2, ?_, h2⟩
    rw [Patricia.run, List.foldlM_cons, hstep]
    exact hrun

lemma sound_run (H : Digest 48) (hashFun : Bytes → V → Bytes) {fuel : Nat} (hfuel : L + 2 ≤ fuel)
    {ops : List (Op V)} (hops : ∀ op ∈ ops, op.Fits L) :
    ∃ tree, run H hashFun fuel ops new = some tree ∧ Sound H hashFun tree (contents ops) L :=
  (sound_new L).run hfuel hops

lemma lookup_contents (ops : List (Op V)) (key : Bytes) :
    (contents ops).lookup key = live ops key := by
  have hgen : ∀ (ops : List (Op V)) (M : SortedMap Bytes V),
      (ops.foldl Op.apply M).lookup key = ops.foldl (fun acc op =>
        match op with
        | .insert k v => if k = key then some v else acc
        | .delete k => if k = key then none else acc
        | .computeHash => acc) (M.lookup key) := by
    intro ops
    induction ops with
    | nil =>
      intro M
      rfl
    | cons op ops ih =>
      intro M
      rw [List.foldl_cons, List.foldl_cons, ih]
      congr 1
      cases op with
      | insert k v =>
        rw [Op.apply, SortedMap.lookup_insert]
        simp only [eq_comm]
      | delete k =>
        rw [Op.apply, SortedMap.lookup_erase]
        simp only [eq_comm]
      | computeHash => rfl
  exact hgen ops .empty

lemma live_eq_some {ops : List (Op V)} {v : V} :
    live ops key = some v ↔ (key, v) ∈ (contents ops).entries := by
  rw [← lookup_contents, SortedMap.lookup_eq_some]

/-- The tree implements a finite map: after every run, `get` returns the live values, the size
is their number, and `foldr` visits them in descending order of the keys. -/
theorem run_refines (H : Digest 48) (hashFun : Bytes → V → Bytes) (ops : List (Op V)) (L fuel : Nat)
    (hops : ∀ op ∈ ops, op.Fits L) (hfuel : L + 2 ≤ fuel) :
    ∃ (tree : Tree V) (M : SortedMap Bytes V), run H hashFun fuel ops new = some tree ∧
      (∀ key, M.lookup key = live ops key) ∧ (∀ key, get key tree = live ops key) ∧ tree.size = M.size ∧
      ∀ (A : Type) (f : Bytes → V → A → A) (acc : A),
        foldr f fuel acc tree = some (M.entries.foldr (fun e acc => f e.1 e.2 acc) acc) := by
  obtain ⟨tree, hrun, h⟩ := sound_run H hashFun hfuel hops
  refine ⟨tree, contents ops, hrun, lookup_contents ops, fun key => ?_, h.represents.size,
    fun A f acc => ?_⟩
  · rw [h.represents.get_eq, lookup_contents]
  · exact foldr_eq h.represents h.bounded hfuel acc

/-- Operations with the empty key, keys that are prefixes of each other and a forgotten pivot. -/
def sampleOps : List (Op Nat) :=
  [.insert [] 1, .insert [97, 98] 2, .insert [97] 3, .computeHash, .delete [97], .insert [97, 99, 100] 4,
    .computeHash, .delete [97, 99, 100], .delete [], .insert [97, 98] 5]

def sampleHash (key : Bytes) (value : Nat) : Bytes := Sha2.sha384 (key ++ [UInt8.ofNat value])

theorem run_refines_sampleOps :
    ∃ (tree : Tree Nat) (M : SortedMap Bytes Nat), run Sha2.sha384 sampleHash 5 sampleOps new = some tree ∧
      (∀ key, M.lookup key = live sampleOps key) ∧ (∀ key, get key tree = live sampleOps key) ∧
      tree.size = M.size ∧
      ∀ (A : Type) (f : Bytes → Nat → A → A) (acc : A),
        foldr f 5 acc tree = some (M.entries.foldr (fun e acc => f e.1 e.2 acc) acc) :=
  run_refines Sha2.sha384 sampleHash sampleOps 3 5 (by decide) (by decide)

lemma Sound.computeHashFrom_clear (h : Sound H hashFun tree M L) {fuel : Nat} (hfuel : L + 2 ≤ fuel)
    {k : Key} {n : Node V} {cached : Bytes} (hk : tree.node k = some n) (hhash : n.hash = some cached) :
    (computeHashFrom H hashFun fuel k (tree.clear fun _ => True) []).map (·.1) = some cached := by
  have hclear : Caches H hashFun M (tree.clear fun _ => True) := by
    constructor
    · intro j m hash hm hmhash
      obtain ⟨-, -, -, -, -, -, hnone, -⟩ := clear_node_eq_some hm
      rw [hnone trivial] at hmhash
      cases hmhash
    · intro j m c cn hm _ _ hmhash
      obtain ⟨-, -, -, -, -, -, hnone, -⟩ := clear_node_eq_some hm
      exact absurd (hnone trivial) hmhash
  have hroot : k = .root → n.children.isEmpty = false := by
    rintro rfl
    exact h.represents.children_root (h.rootHash n hk (by simp [hhash])) hk
  have hheight : k.height L ≤ fuel := by
    refine le_trans ?_ hfuel
    cases k <;> simp only [Key.height] <;> omega
  obtain ⟨updates, hcompute, -⟩ := computes fuel (tree.clear fun _ => True) k { n with hash := none } []
    h.represents.rehash h.bounded.rehash hclear (rehash_node_of_eq hk) hroot hheight
  rw [hcompute, Option.map_some, Key.full_hash, ← h.caches.content k n cached hk hhash]

/-- The root hash is a function of the contents: two runs that leave the same live values
compute the same hash, whatever hashes they computed on the way, and no cached hash differs from
the one computed from scratch. -/
theorem computeHash_of_live (H : Digest 48) (hashFun : Bytes → V → Bytes) (ops ops' : List (Op V))
    (L fuel : Nat) (hops : ∀ op ∈ ops, op.Fits L) (hops' : ∀ op ∈ ops', op.Fits L) (hfuel : L + 2 ≤ fuel)
    (hsame : ∀ key, live ops key = live ops' key) :
    ∃ (tree tree' : Tree V) (hash : Bytes), run H hashFun fuel ops new = some tree ∧
      run H hashFun fuel ops' new = some tree' ∧
      (Patricia.computeHash H hashFun fuel tree).map (·.1) = some hash ∧
      (Patricia.computeHash H hashFun fuel tree').map (·.1) = some hash ∧
      ∀ k n cached, tree.node k = some n → n.hash = some cached →
        (computeHashFrom H hashFun fuel k (tree.clear fun _ => True) []).map (·.1) = some cached := by
  obtain ⟨tree, hrun, h⟩ := sound_run H hashFun hfuel hops
  obtain ⟨tree', hrun', h'⟩ := sound_run H hashFun hfuel hops'
  have hmap : contents ops = contents ops' := by
    apply SortedMap.ext_lookup
    intro key
    rw [lookup_contents, lookup_contents, hsame]
  obtain ⟨_, _, hhash, -⟩ := h.computeHash hfuel
  obtain ⟨_, _, hhash', -⟩ := h'.computeHash hfuel
  refine ⟨tree, tree', _, hrun, hrun', by rw [hhash, Option.map_some], ?_, ?_⟩
  · rw [hhash', Option.map_some, hmap]
  · intro k n cached hk hcached
    exact h.computeHashFrom_clear hfuel hk hcached

theorem computeHash_of_live_sampleOps :
    ∃ (tree tree' : Tree Nat) (hash : Bytes), run Sha2.sha384 sampleHash 5 sampleOps new = some tree ∧
      run Sha2.sha384 sampleHash 5 [.insert [97, 98] 5] new = some tree' ∧
      (Patricia.computeHash Sha2.sha384 sampleHash 5 tree).map (·.1) = some hash ∧
      (Patricia.computeHash Sha2.sha384 sampleHash 5 tree').map (·.1) = some hash ∧
      ∀ k n cached, tree.node k = some n → n.hash = some cached →
        (computeHashFrom Sha2.sha384 sampleHash 5 k (tree.clear fun _ => True) []).map (·.1) =
          some cached := by
  apply computeHash_of_live Sha2.sha384 sampleHash sampleOps [.insert [97, 98] 5] 3 5 (by decide) (by decide)
    (by decide)
  intro key
  simp only [live, sampleOps, List.foldl_cons, List.foldl_nil]
  split_ifs with h1 h2 h3 h4 <;> simp_all

end Arweave.Patricia
