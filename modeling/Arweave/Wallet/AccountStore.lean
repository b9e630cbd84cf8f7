import Arweave.Wallet.Account

/-!
# The account tree store

`ar_storage` keeps the nodes of all account trees in one ordered key-value store. The key of a
node is its hash followed by its prefix in the tree that was stored. A key is written once,
and a node is found by its hash and the prefix that it has in the tree that refers to it: the
entry found is the last one up to this key.
-/

namespace Arweave.Wallet
open Arweave.Lib Arweave.Patricia

variable {V : Type}

/-- `account_tree_db` -/
abbrev Store (V : Type) := SortedMap Bytes (Entry V)

/-- The prefix of a node in the database; the root has the empty one. -/
def dbPrefix (k : Key) : Bytes := k.bytes.getD []

def dbKey (id : Bytes × Key) : Bytes := id.1 ++ dbPrefix id.2

/-- The updates are written in the given order. Keys that exist are not overwritten. -/
def storeAccountTreeUpdate (updates : UpdateMap V) (store : Store V) : Store V :=
  updates.foldl (fun store x =>
    match store.lookup (dbKey x.1) with
    | none => store.insert (dbKey x.1) x.2
    | some _ => store) store

def getAccountTreeValue (store : Store V) (key keyPrefix : Bytes) : Option (Bytes × Entry V) :=
  store.prev (key ++ keyPrefix)

/-- The match of a found key against `<< Key:48/binary, _/binary >>`. -/
def MatchesKey (found key : Bytes) : Prop := 48 ≤ found.length ∧ found.take 48 = key

instance (found key : Bytes) : Decidable (MatchesKey found key) :=
  inferInstanceAs (Decidable (48 ≤ found.length ∧ found.take 48 = key))

/-- A value, or the lookup continues in the chunk files of earlier releases, for the given
hash. -/
inductive ReadResult (A : Type) where
  | ok (value : A)
  | chunkFiles (hash : Bytes)

/-- `read_wallet_list/5`. `none` stands for a crash or missing fuel. -/
def readWalletListFrom (store : Store V) (rootHash : Bytes) : Nat → Option (Bytes × Entry V) →
    Patricia.Tree V → List (Bytes × Bytes) → Bytes → Option (ReadResult (Patricia.Tree V))
  | 0, _, _, _, _ => none
  | fuel + 1, some (found, entry), tree, keys, k =>
    if MatchesKey found k then
      match entry with
      | .leaf key value => do
        let tree2 ← insert key value tree
        match keys with
        | [] => some (.ok tree2)
        | (h, keyPrefix) :: keys2 =>
          readWalletListFrom store rootHash fuel (getAccountTreeValue store h keyPrefix) tree2 keys2 h
      | .list ((h, keyPrefix) :: hs) =>
        readWalletListFrom store rootHash fuel (getAccountTreeValue store h keyPrefix) tree (hs ++ keys) h
      | .list [] => none
    else
      some (.chunkFiles rootHash)
  | _ + 1, none, _, _, _ => some (.chunkFiles rootHash)

/-- `read_wallet_list/1` -/
def readWalletList (store : Store V) (fuel : Nat) (walletListHash : Bytes) :
    Option (ReadResult (Patricia.Tree V)) :=
  if walletListHash = [] then
    some (.ok new)
  else
    readWalletListFrom store walletListHash fuel (getAccountTreeValue store walletListHash []) new []
      walletListHash

/-- `find_key_by_matching_longest_prefix/3`; the prefix `-1` of the initial accumulator is
`none`. -/
def findKeyFrom (addr : Bytes) : List (Bytes × Bytes) → Bytes × Option Bytes → Option (Bytes × Bytes)
  | [], (key, keyPrefix) => if key = [] then none else some (key, keyPrefix.getD [])
  | (h, p) :: keys, (key, keyPrefix) =>
    if p = [] ∨ ∃ q ∈ keyPrefix, p.length ≤ q.length then
      findKeyFrom addr keys (key, keyPrefix)
    else if p <+: addr then
      findKeyFrom addr keys (h, some p)
    else
      findKeyFrom addr keys (key, keyPrefix)

def findKeyByMatchingLongestPrefix (addr : Bytes) (keys : List (Bytes × Bytes)) : Option (Bytes × Bytes) :=
  findKeyFrom addr keys ([], none)

/-- `read_account/3`. The account `{0, <<>>}` stands for no account. -/
def readAccountFrom (store : Store Account) (addr : Bytes) : Nat → Bytes → Bytes →
    Option (ReadResult Account)
  | 0, _, _ => none
  | fuel + 1, key, keyPrefix =>
    match getAccountTreeValue store key keyPrefix with
    | some (found, entry) =>
      if MatchesKey found key then
        match entry with
        | .leaf k value => some (.ok (if k = addr then value else .v1 0 []))
        | .list [] => none
        | .list subTrees =>
          match findKeyByMatchingLongestPrefix addr subTrees with
          | none => some (.ok (.v1 0 []))
          | some (h, prefix2) => readAccountFrom store addr fuel h prefix2
      else
        some (.chunkFiles key)
    | none => some (.chunkFiles key)

/-- `read_account/2` -/
def readAccount (store : Store Account) (fuel : Nat) (addr key : Bytes) : Option (ReadResult Account) :=
  readAccountFrom store addr fuel key []

/-- A tree and the store that it is persisted in. -/
structure State (V : Type) where
  tree : Patricia.Tree V
  store : Store V

def State.initial : State V := ⟨new, .empty⟩

section Run

variable (H : Digest 48) (hashFun : Bytes → V → Bytes) (order : UpdateMap V → UpdateMap V) (fuel : Nat)

/-- Compute the hash and store the updates, which the store traverses in an order of its
own. -/
def State.persist (s : State V) : Option (Bytes × State V) := do
  let (rootHash, tree, updates) ← Patricia.computeHash H hashFun fuel s.tree
  some (rootHash, ⟨tree, storeAccountTreeUpdate (order updates) s.store⟩)

/-- An operation, where a computed hash is always stored. -/
def State.step (s : State V) : Op V → Option (State V)
  | .insert key value => (insert key value s.tree).map fun tree => { s with tree }
  | .delete key => (delete key s.tree).map fun tree => { s with tree }
  | .computeHash => (s.persist H hashFun order fuel).map Prod.snd

/-- The operations one after the other. -/
def State.run (ops : List (Op V)) (s : State V) : Option (State V) :=
  ops.foldlM (fun s op => s.step H hashFun order fuel op) s

end Run

section Update

variable {store : Store V} {updates : UpdateMap V}

lemma mem_storeAccountTreeUpdate {x : Bytes × Entry V}
    (hx : x ∈ (storeAccountTreeUpdate updates store).entries) :
    x ∈ store.entries ∨ store.lookup x.1 = none ∧ ∃ u ∈ updates, x = (dbKey u.1, u.2) := by
  induction updates generalizing store with
  | nil => exact .inl hx
  | cons u updates ih =>
    rw [storeAccountTreeUpdate, List.foldl_cons] at hx
    rcases ih hx with hx | ⟨hnone, u', hu', rfl⟩
    · split at hx
      · next hfree =>
        rcases SortedMap.mem_insert.mp hx with rfl | ⟨-, hx⟩
        · exact .inr ⟨hfree, u, by simp, rfl⟩
        · exact .inl hx
      · exact .inl hx
    · right
      refine ⟨?_, u', by simp [hu'], rfl⟩
      split at hnone
      · rw [SortedMap.lookup_insert] at hnone
        split_ifs at hnone
        exact hnone
      · exact hnone

lemma mem_storeAccountTreeUpdate_of_mem {x : Bytes × Entry V} (hx : x ∈ store.entries) :
    x ∈ (storeAccountTreeUpdate updates store).entries := by
  induction updates generalizing store with
  | nil => exact hx
  | cons u updates ih =>
    rw [storeAccountTreeUpdate, List.foldl_cons]
    apply ih
    split
    · next hfree =>
      refine SortedMap.mem_insert.mpr (.inr ⟨?_, hx⟩)
      rintro heq
      rw [← heq, SortedMap.lookup_eq_some.mpr hx] at hfree
      cases hfree
    · exact hx

lemma exists_storeAccountTreeUpdate {u : (Bytes × Key) × Entry V} (hu : u ∈ updates) :
    ∃ entry, (dbKey u.1, entry) ∈ (storeAccountTreeUpdate updates store).entries := by
  induction updates generalizing store with
  | nil => cases hu
  | cons u' updates ih =>
    rw [storeAccountTreeUpdate, List.foldl_cons]
    rcases List.mem_cons.mp hu with rfl | hu
    · cases hl : store.lookup (dbKey u.1) with
      | none =>
        refine ⟨u.2, mem_storeAccountTreeUpdate_of_mem ?_⟩
        exact SortedMap.mem_insert.mpr (.inl rfl)
      | some entry => exact ⟨entry, mem_storeAccountTreeUpdate_of_mem (SortedMap.lookup_eq_some.mp hl)⟩
    · exact ih hu

end Update

end Arweave.Wallet
