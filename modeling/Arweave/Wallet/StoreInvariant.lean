import Arweave.Wallet.AccountStore

/-!
# What the store holds

Every entry of the store describes a part of a map that was hashed, and what it refers to is
stored under a prefix of the reference. A list with a single reference has the hash of that
reference, so that a lookup comes closer to the leaves only if the reference is stored under a
longer prefix than the list. This holds if the trees are `Covered` when they are stored.
-/

namespace Arweave.Wallet
open Arweave.Lib Arweave.Patricia

variable {V : Type} (H : Digest 48) (hashFun : Bytes → V → Bytes)

/-- There is an entry for the hash under the prefix. -/
def Stored (store : Store V) (h p : Bytes) : Prop := ∃ entry, (h ++ p, entry) ∈ store.entries

instance (store : Store V) (h p : Bytes) : Decidable (Stored store h p) :=
  decidable_of_iff ((store.lookup (h ++ p)).isSome = true) <| by
    simp only [Option.isSome_iff_exists, SortedMap.lookup_eq_some, Stored]

/-- The list that is stored under a prefix for the entries of a map that continue `f`. -/
def references (N : SortedMap Bytes V) (p f : Bytes) : List (Bytes × Bytes) :=
  (N.lookup f).toList.map (fun v => (hashFun f v, p)) ++
    (branches N f).map fun b => (trieHash H hashFun N (f ++ [b]), f ++ [b])

/-- A stored entry, with its hash and prefix, describes entries of a map. -/
inductive Describes (N : SortedMap Bytes V) : Bytes → Bytes → Entry V → List (Bytes × V) → Prop
  | leaf (p key : Bytes) (v : V) (hmem : (key, v) ∈ N.entries) (hpre : p <+: key) :
      Describes N (hashFun key v) p (.leaf key v) [(key, v)]
  | list (p f : Bytes) (hne : branches N f ≠ []) (hpre : p <+: f) (hown : N.lookup f ≠ none → p ≠ []) :
      Describes N (trieHash H hashFun N f) p (.list (references H hashFun N p f)) (below N f)

/-- The entries describe maps that were hashed. A reference can be followed, and leads
to a longer prefix if it is the only one of its list. -/
structure Persisted (maps : List (SortedMap Bytes V)) (store : Store V) : Prop where
  described : ∀ x ∈ store.entries, ∃ N ∈ maps, ∃ h p es, x.1 = h ++ p ∧ Describes H hashFun N h p x.2 es
  resolved : ∀ h p refs, h.length = 48 → (h ++ p, .list refs) ∈ store.entries → ∀ r ∈ refs,
    ∃ p', Stored store r.1 p' ∧ p' <+: r.2 ∧ (refs = [r] → p.length < p'.length)

/-- A node without a hash, without a value and with a single child will be stored under the
hash of the child. If this hash is cached, the child is not stored again, and it has to be found
at or below the prefix of the node. -/
def State.CoveredAt (s : State V) (k : Bytes) : Prop :=
  ∀ n ∈ s.tree.node (.bin k), n.hash = none → n.value = none →
    ∀ c ∈ n.children.elems, n.children.elems = [c] → ∀ cn ∈ s.tree.node (.bin c), ∀ h ∈ cn.hash,
      ∃ p ∈ c.inits, k <+: p ∧ Stored s.store h p

instance (s : State V) (k : Bytes) : Decidable (s.CoveredAt k) := by
  unfold State.CoveredAt
  infer_instance

/-- The tree can be stored so that it can be read back. -/
def State.Covered (s : State V) : Prop := ∀ k, s.CoveredAt k

/-- The invariant of runs, with the current map and the maps hashed so far. -/
structure Invariant (s : State V) (M : SortedMap Bytes V) (maps : List (SortedMap Bytes V)) (L : Nat) :
    Prop where
  sound : Sound H hashFun s.tree M L
  nonempty : M.lookup [] = none
  persisted : Persisted H hashFun maps s.store
  cached : ∀ k n h, s.tree.node k = some n → n.hash = some h →
    ∃ p, Stored s.store h p ∧ p <+: dbPrefix k

variable {H hashFun} {tree tree' : Patricia.Tree V} {M M' : SortedMap Bytes V}
  {maps : List (SortedMap Bytes V)} {L : Nat} {s : State V}

@[simp] lemma dbPrefix_root : dbPrefix .root = [] := rfl

@[simp] lemma dbPrefix_bin (b : Bytes) : dbPrefix (.bin b) = b := rfl

lemma dbPrefix_of_above {j k : Key} (h : j.Above k) : dbPrefix j <+: dbPrefix k := by
  cases j with
  | root => exact List.nil_prefix
  | bin a =>
    cases k with
    | root => exact h.elim
    | bin b => exact h.1

lemma prefix_full (k : Key) (n : Node V) : dbPrefix k <+: dbPrefix (k.full n) := by
  cases k with
  | root => exact List.nil_prefix
  | bin k => exact List.prefix_append _ _

section Describes

variable (h : Represents tree M) (hb : Bounded tree L) (hM : M.lookup [] = none)
include h hM

lemma ne_nil_of_node {k : Bytes} {n : Node V} (hk : tree.node (.bin k) = some n) : k ≠ [] := by
  rintro rfl
  obtain ⟨hs, hc⟩ := h.empty n hk
  have hget : get [] tree = n.value := h.toLinked.get_eq hk (by rw [hs]; rfl)
  have hsome := h.inner [] n hk (OrdSet.isEmpty_iff.mpr hc)
  rw [← hget, h.get_eq, hM] at hsome
  cases hsome

lemma contentHash_eq {k : Key} {n : Node V} (hk : tree.node k = some n) :
    contentHash H hashFun M (k.full n) = trieHash H hashFun M (dbPrefix (k.full n)) := by
  cases k with
  | root => rfl
  | bin k => exact contentHash_of_ne_nil (by simp [ne_nil_of_node h hM hk])

lemma ownEntry_eq {k : Key} {n : Node V} (hk : tree.node k = some n) :
    ownEntry k n = (M.lookup (dbPrefix (k.full n))).toList.map fun v => (dbPrefix (k.full n), v) := by
  cases k with
  | root =>
    rw [Key.full, dbPrefix_root, hM]
    rfl
  | bin k =>
    rw [Key.full, dbPrefix_bin, ← h.get_eq, h.toLinked.get_eq hk rfl]
    rfl

include hb

lemma children_eq_branches {k : Key} {n : Node V} (hk : tree.node k = some n) :
    n.children.elems = (branches M (dbPrefix (k.full n))).map fun b => dbPrefix (k.full n) ++ [b] := by
  cases k with
  | root =>
    rw [h.children_root_eq hb hk, hM]
    rfl
  | bin k => exact h.children_eq hb hk (ne_nil_of_node h hM hk)

lemma subtrees_eq {k : Key} {n : Node V} (hk : tree.node k = some n) :
    subtrees H hashFun M k n = references H hashFun M (dbPrefix k) (dbPrefix (k.full n)) := by
  rw [subtrees, ownEntry_eq h hM hk, children_eq_branches h hb hM hk, references, List.map_map,
    List.map_map]
  congr 1
  apply List.map_congr_left
  intro b _
  rw [Function.comp_apply, contentHash_of_ne_nil (by simp)]

lemma describes_of_writes {k : Key} {n : Node V} (hk : tree.node k = some n) {id : Bytes × Key}
    {entry : Entry V} (hw : Writes H hashFun M k n id entry) :
    id.2 = k ∧ ∃ es, Describes H hashFun M id.1 (dbPrefix k) entry es := by
  cases hw with
  | leaf key v hown =>
    refine ⟨rfl, [(key, v)], .leaf _ key v ?_ ?_⟩
    · have hmem : (key, v) ∈ entriesUnder M k := (h.mem_entriesUnder_iff hk).mpr (.inl hown)
      exact (mem_entriesUnder.mp hmem).1
    · rw [ownEntry_eq h hM hk] at hown
      obtain ⟨w, -, heq⟩ := List.mem_map.mp hown
      cases heq
      exact prefix_full k n
  | list hch =>
    refine ⟨rfl, below M (dbPrefix (k.full n)), ?_⟩
    rw [contentHash_eq h hM hk, subtrees_eq h hb hM hk]
    apply Describes.list
    · intro hnil
      have hempty := children_eq_branches h hb hM hk
      rw [hnil, List.map_nil] at hempty
      rw [OrdSet.isEmpty, hempty] at hch
      cases hch
    · exact prefix_full k n
    · intro hown
      cases k with
      | root => exact absurd hM hown
      | bin k => exact ne_nil_of_node h hM hk

end Describes

section Persist

variable {store : Store V} {updates order : UpdateMap V}

lemma Stored.mono {h p : Bytes} (hst : Stored store h p) :
    Stored (storeAccountTreeUpdate updates store) h p := by
  obtain ⟨entry, hmem⟩ := hst
  exact ⟨entry, mem_storeAccountTreeUpdate_of_mem hmem⟩

lemma stored_of_writes (hcol : Collects H hashFun M tree (fun _ => True) [] updates)
    (horder : order.Perm updates) {k : Key} {n : Node V} (hk : tree.node k = some n) (hhash : n.hash = none)
    {h : Bytes} {entry : Entry V} (hw : Writes H hashFun M k n (h, k) entry) :
    Stored (storeAccountTreeUpdate order store) h (dbPrefix k) := by
  obtain ⟨entry', hmem⟩ := hcol.complete k n trivial hk hhash _ _ hw
  exact exists_storeAccountTreeUpdate (horder.mem_iff.mpr hmem)

lemma stored_of_node (h : Represents tree M) (hb : Bounded tree L)
    (hcol : Collects H hashFun M tree (fun _ => True) [] updates) (horder : order.Perm updates)
    (hroot : ∀ n, tree.node .root = some n → n.children.isEmpty = false) {k : Key} {n : Node V}
    (hk : tree.node k = some n) (hhash : n.hash = none) :
    Stored (storeAccountTreeUpdate order store) (contentHash H hashFun M (k.full n)) (dbPrefix k) := by
  by_cases hempty : n.children.isEmpty = true
  · cases k with
    | root => simp [hroot n hk] at hempty
    | bin k =>
      obtain ⟨v, hv⟩ := Option.isSome_iff_exists.mp (h.inner k n hk hempty)
      have hnil : n.children.elems = [] := List.isEmpty_iff.mp hempty
      have hcontent : contentHash H hashFun M ((Key.bin k).full n) = hashFun (k ++ n.suffix) v := by
        rw [h.contentHash_node hb hk, ownEntry, hv, hnil]
        rfl
      rw [hcontent]
      exact stored_of_writes hcol horder hk hhash (.leaf _ v (by simp [ownEntry, hv]))
  · exact stored_of_writes hcol horder hk hhash (.list (by simpa using hempty))

lemma length_of_describes (hlen : ∀ key v, (hashFun key v).length = 48) {N : SortedMap Bytes V}
    {h p : Bytes} {entry : Entry V} {es : List (Bytes × V)} (hd : Describes H hashFun N h p entry es) :
    h.length = 48 := by
  cases hd with
  | leaf _ key v => exact hlen _ _
  | list _ f hne =>
    apply length_trieHash hlen
    obtain ⟨b, hb⟩ := List.exists_mem_of_ne_nil _ hne
    obtain ⟨e, he, hpre⟩ := mem_branches.mp hb
    exact List.ne_nil_of_mem (mem_below.mpr ⟨he, (List.prefix_append _ _).trans hpre⟩)

lemma length_lt_child (h : Represents tree M) (hb : Bounded tree L) (hM : M.lookup [] = none) {k : Key}
    {n : Node V} (hk : tree.node k = some n) {c : Bytes} (hc : c ∈ n.children) :
    (dbPrefix k).length < c.length := by
  rw [← OrdSet.mem_elems, children_eq_branches h hb hM hk] at hc
  obtain ⟨b, -, rfl⟩ := List.mem_map.mp hc
  have := (prefix_full k n).length_le
  rw [List.length_append, List.length_singleton]
  omega

lemma contentHash_single (h : Represents tree M) (hb : Bounded tree L) {k : Key} {n : Node V}
    (hk : tree.node k = some n) (hv : ownEntry k n = []) {c : Bytes} (hc : n.children.elems = [c]) :
    contentHash H hashFun M (k.full n) = contentHash H hashFun M (.bin c) := by
  rw [h.contentHash_node hb hk, hv, hc]
  rfl

section Step

variable (hi : Invariant H hashFun s M maps L) (hcov : s.Covered)
  (hcol : Collects H hashFun M s.tree (fun _ => True) [] updates) (horder : order.Perm updates)
  (hroot : ∀ n, s.tree.node .root = some n → n.children.isEmpty = false)
include hi hcov hcol horder hroot

/-- A reference to a child of a node can be followed in the new store, and leads to a longer
prefix than that of the node if the list of the node is new and has no other reference. -/
lemma Invariant.child {k : Key} {n : Node V} (hk : s.tree.node k = some n) (hhash : n.hash = none)
    {c : Bytes} (hc : c ∈ n.children) :
    ∃ p, Stored (storeAccountTreeUpdate order s.store) (contentHash H hashFun M (.bin c)) p ∧ p <+: c ∧
      (ownEntry k n = [] → n.children.elems = [c] →
        s.store.lookup (contentHash H hashFun M (.bin c) ++ dbPrefix k) = none →
        (dbPrefix k).length < p.length) := by
  have h := hi.sound.represents
  have hb := hi.sound.bounded
  obtain ⟨cn, hcn, -⟩ := h.toLinked.child_node hk hc
  have hfull : contentHash H hashFun M ((Key.bin c).full cn) = contentHash H hashFun M (.bin c) :=
    h.contentHash_full hcn
  cases hcached : cn.hash with
  | none =>
    have hstored : Stored (storeAccountTreeUpdate order s.store) _ _ :=
      stored_of_node h hb hcol horder hroot hcn hcached
    rw [hfull] at hstored
    exact ⟨c, hstored, List.prefix_refl _, fun _ _ _ => length_lt_child h hb hi.nonempty hk hc⟩
  | some hash =>
    have hhashc := hi.sound.caches.content _ cn hash hcn hcached
    rw [hfull] at hhashc
    subst hhashc
    have hfree : ∀ p, Stored s.store (contentHash H hashFun M (.bin c)) p →
        s.store.lookup (contentHash H hashFun M (.bin c) ++ dbPrefix k) = none → p ≠ dbPrefix k := by
      rintro p ⟨entry, hentry⟩ hnone rfl
      rw [SortedMap.lookup_eq_some.mpr hentry] at hnone
      cases hnone
    obtain ⟨p, hp, hpc⟩ := hi.cached _ cn _ hcn hcached
    by_cases hsingle : ownEntry k n = [] ∧ n.children.elems = [c]
    · cases k with
      | root =>
        refine ⟨p, hp.mono, hpc, fun _ _ hnone => List.length_pos_iff.mpr (hfree p hp hnone)⟩
      | bin k =>
        have hv : n.value = none := by
          cases hv : n.value with
          | none => rfl
          | some v => simp [ownEntry, hv] at hsingle
        obtain ⟨p, hpc, hkp, hp⟩ := hcov k n hk hhash hv c hc hsingle.2 cn hcn _ hcached
        refine ⟨p, hp.mono, (List.mem_inits _ _).mp hpc, fun _ _ hnone => ?_⟩
        exact lt_of_le_of_ne hkp.length_le fun hlen => hfree p hp hnone (hkp.eq_of_length hlen).symm
    · exact ⟨p, hp.mono, hpc, fun hown hch => absurd ⟨hown, hch⟩ hsingle⟩

lemma Invariant.resolved_subtrees {k : Key} {n : Node V} (hk : s.tree.node k = some n) (hhash : n.hash = none)
    (hch : n.children.isEmpty = false)
    (hfree : s.store.lookup (contentHash H hashFun M (k.full n) ++ dbPrefix k) = none) {r : Bytes × Bytes}
    (hr : r ∈ subtrees H hashFun M k n) :
    ∃ p, Stored (storeAccountTreeUpdate order s.store) r.1 p ∧ p <+: r.2 ∧
      (subtrees H hashFun M k n = [r] → (dbPrefix k).length < p.length) := by
  have hne : n.children.elems ≠ [] := by
    intro hnil
    rw [OrdSet.isEmpty, hnil] at hch
    cases hch
  rcases List.mem_append.mp hr with hr | hr
  · obtain ⟨⟨key, v⟩, hown, rfl⟩ := List.mem_map.mp hr
    refine ⟨dbPrefix k, stored_of_writes hcol horder hk hhash (.leaf key v hown), List.prefix_refl _, ?_⟩
    intro hsingle
    have hlen := congrArg List.length hsingle
    have h1 := List.length_pos_of_mem hown
    have h2 := List.length_pos_iff.mpr hne
    simp only [subtrees, List.length_append, List.length_map, List.length_singleton] at hlen
    omega
  · obtain ⟨c, hc, rfl⟩ := List.mem_map.mp hr
    obtain ⟨p, hp, hpc, hlt⟩ := hi.child hcov hcol horder hroot hk hhash hc
    refine ⟨p, hp, hpc, fun hsingle => ?_⟩
    have hlen := congrArg List.length hsingle
    have h2 := List.length_pos_iff.mpr hne
    simp only [subtrees, List.length_append, List.length_map, List.length_singleton] at hlen
    have hown : ownEntry k n = [] := List.length_eq_zero_iff.mp (by omega)
    have hchild : n.children.elems = [c] := by
      obtain ⟨d, hd⟩ := List.length_eq_one_iff.mp (show n.children.elems.length = 1 by omega)
      rw [hd, List.mem_singleton] at hc
      rw [hd, hc]
    apply hlt hown hchild
    rw [← contentHash_single hi.sound.represents hi.sound.bounded hk hown hchild]
    exact hfree

lemma Invariant.persisted_update (hlen : ∀ key v, (hashFun key v).length = 48) :
    Persisted H hashFun (M :: maps) (storeAccountTreeUpdate order s.store) where
  described x hx := by
    rcases mem_storeAccountTreeUpdate hx with hx | ⟨-, u, hu, rfl⟩
    · obtain ⟨N, hN, hd⟩ := hi.persisted.described x hx
      exact ⟨N, List.mem_cons_of_mem _ hN, hd⟩
    · rcases hcol.sound u (horder.mem_iff.mp hu) with hu | ⟨k, n, -, hk, -, hw⟩
      · cases hu
      · obtain ⟨hid, es, hd⟩ := describes_of_writes hi.sound.represents hi.sound.bounded hi.nonempty hk hw
        exact ⟨M, by simp, u.1.1, dbPrefix k, es, by rw [dbKey, hid], hd⟩
  resolved h p refs hh hx r hr := by
    rcases mem_storeAccountTreeUpdate hx with hx | ⟨hfree, u, hu, heq⟩
    · obtain ⟨p', hp', hpre, hlt⟩ := hi.persisted.resolved h p refs hh hx r hr
      exact ⟨p', hp'.mono, hpre, hlt⟩
    · rcases hcol.sound u (horder.mem_iff.mp hu) with hu | ⟨k, n, -, hk, hhash, hw⟩
      · cases hu
      · obtain ⟨-, es, hd⟩ := describes_of_writes hi.sound.represents hi.sound.bounded hi.nonempty hk hw
        have hlength := length_of_describes hlen hd
        obtain ⟨id, entry⟩ := u
        simp only [Prod.mk.injEq] at heq
        obtain ⟨hkey, rfl⟩ := heq
        cases hw with
        | list hch =>
          obtain ⟨rfl, rfl⟩ := List.append_inj hkey (hh.trans hlength.symm)
          exact hi.resolved_subtrees hcov hcol horder hroot hk hhash hch hfree hr

end Step

end Persist

section Run

variable {order : UpdateMap V → UpdateMap V} {fuel : Nat}

lemma invariant_initial (L : Nat) : Invariant H hashFun (.initial : State V) .empty [] L where
  sound := sound_new L
  nonempty := rfl
  persisted :=
    { described := fun _ hx => by cases hx
      resolved := fun _ _ _ _ hx => by cases hx }
  cached := fun k n h hk hhash => by
    cases k with
    | root =>
      cases hk
      cases hhash
    | bin k => cases hk

lemma Invariant.update (hi : Invariant H hashFun s M maps L) {key : Bytes} {value : Option V}
    (hu : Update s.tree tree' key value) (hM : Changes M M' key value) (hkey : key.length ≤ L)
    (hnonempty : M'.lookup [] = none) : Invariant H hashFun { s with tree := tree' } M' maps L where
  sound := hi.sound.update hu hM hkey
  nonempty := hnonempty
  persisted := hi.persisted
  cached k' n' h hk' hhash := by
    obtain ⟨k, n, hk, hab, -, hsame, -⟩ := hu.kept k' n' hk' (hu.cached hk' (by simp [hhash]))
    obtain ⟨p, hp, hpre⟩ := hi.cached k n h hk (hsame.trans hhash)
    exact ⟨p, hp, hpre.trans (dbPrefix_of_above hab)⟩

/-- Hashing and storing a covered tree keeps the invariant. -/
lemma Invariant.persist (hlen : ∀ key v, (hashFun key v).length = 48) (horder : ∀ u, (order u).Perm u)
    (hfuel : L + 2 ≤ fuel) (hi : Invariant H hashFun s M maps L) (hcov : s.Covered) :
    ∃ rootHash s', s.persist H hashFun order fuel = some (rootHash, s') ∧
      Invariant H hashFun s' M (M :: maps) L ∧ (M.size = 0 → rootHash = []) ∧
      (M.size ≠ 0 → rootHash = trieHash H hashFun M [] ∧ Stored s'.store rootHash []) := by
  have h := hi.sound.represents
  by_cases hsize : s.tree.size = 0
  · have hM : M.size = 0 := h.size ▸ hsize
    have hnil : order [] = [] := (horder []).eq_nil
    refine ⟨[], s, ?_, ⟨hi.sound, hi.nonempty, ?_, hi.cached⟩, fun _ => rfl, fun hne => absurd hM hne⟩
    · rw [State.persist, Patricia.computeHash, if_pos hsize]
      simp [hnil, storeAccountTreeUpdate]
    · refine ⟨fun x hx => ?_, hi.persisted.resolved⟩
      obtain ⟨N, hN, hd⟩ := hi.persisted.described x hx
      exact ⟨N, List.mem_cons_of_mem _ hN, hd⟩
  · obtain ⟨updates, hcompute, hcol⟩ :=
      computeHash_eq h hi.sound.bounded hi.sound.caches hfuel hsize
    have hroot : ∀ n, s.tree.node .root = some n → n.children.isEmpty = false :=
      fun n hn => h.children_root hsize hn
    set s' : State V := ⟨s.tree.fill H hashFun M fun _ => True,
      storeAccountTreeUpdate (order updates) s.store⟩ with hs'
    have hpersist : s.persist H hashFun order fuel = some (trieHash H hashFun M [], s') := by
      rw [State.persist, hcompute]
      rfl
    have hi' : Invariant H hashFun s' M (M :: maps) L :=
      { sound :=
          { represents := h.rehash
            bounded := hi.sound.bounded.rehash
            caches := hi.sound.caches.fill fun _ _ _ _ _ _ => trivial
            rootHash := fun _ _ _ => hsize }
        nonempty := hi.nonempty
        persisted := hi.persisted_update hcov hcol (horder updates) hroot hlen
        cached := by
          intro k n' hash hn' hhash
          obtain ⟨n, hn, rfl⟩ := rehash_node_eq_some.mp hn'
          dsimp only at hhash
          rw [if_pos trivial, Option.some.injEq] at hhash
          cases hcached : n.hash with
          | none =>
            rw [← hhash]
            exact ⟨dbPrefix k, stored_of_node h hi.sound.bounded hcol (horder updates) hroot hn hcached,
              List.prefix_refl _⟩
          | some hash' =>
            rw [← hi.sound.caches.content k n hash' hn hcached] at hhash
            subst hhash
            obtain ⟨p, hp, hpre⟩ := hi.cached k n hash' hn hcached
            exact ⟨p, hp.mono, hpre⟩ }
    refine ⟨_, s', hpersist, hi', fun hM => absurd (h.size.trans hM) hsize, fun _ => ⟨rfl, ?_⟩⟩
    obtain ⟨r, hr, -⟩ := h.root
    have hr' : s'.tree.node .root = some { r with hash := some (trieHash H hashFun M []) } :=
      rehash_node_of_eq hr
    obtain ⟨p, hp, hpre⟩ := hi'.cached _ _ _ hr' rfl
    rwa [List.prefix_nil.mp hpre] at hp

/-- The map and the maps that were hashed, after one more operation. -/
def record (x : SortedMap Bytes V × List (SortedMap Bytes V)) (op : Op V) :
    SortedMap Bytes V × List (SortedMap Bytes V) :=
  match op with
  | .computeHash => (x.1, x.1 :: x.2)
  | op => (op.apply x.1, x.2)

/-- The map after the operations, and the maps that were hashed. -/
def history (ops : List (Op V)) : SortedMap Bytes V × List (SortedMap Bytes V) :=
  ops.foldl record (.empty, [])

lemma Invariant.step (hlen : ∀ key v, (hashFun key v).length = 48) (horder : ∀ u, (order u).Perm u)
    (hfuel : L + 2 ≤ fuel) {x : SortedMap Bytes V × List (SortedMap Bytes V)}
    (hi : Invariant H hashFun s x.1 x.2 L) {op : Op V} (hop : op.Fits L)
    (hkey : ∀ key v, op = .insert key v → key ≠ []) (hcov : op = .computeHash → s.Covered) :
    ∃ s', s.step H hashFun order fuel op = some s' ∧
      Invariant H hashFun s' (record x op).1 (record x op).2 L := by
  cases op with
  | insert key v =>
    obtain ⟨tree', htree', hu⟩ := insert_update hi.sound.represents.toWellFormed key v
    refine ⟨{ s with tree := tree' }, by rw [State.step, htree']; rfl, ?_⟩
    apply hi.update hu (changes_insert _ key v) hop
    rw [SortedMap.lookup_insert, if_neg (hkey key v rfl).symm, hi.nonempty]
  | delete key =>
    rcases delete_update hi.sound.represents.toWellFormed key with ⟨hnone, hdelete⟩ | ⟨tree', htree', hu⟩
    · refine ⟨s, by rw [State.step, hdelete]; rfl, ?_⟩
      rw [hi.sound.represents.get_eq] at hnone
      change Invariant H hashFun s (x.1.erase key) x.2 L
      rw [SortedMap.erase_of_lookup_eq_none hnone]
      exact hi
    · refine ⟨{ s with tree := tree' }, by rw [State.step, htree']; rfl, ?_⟩
      apply hi.update hu (changes_erase _ key) hop
      rw [SortedMap.lookup_erase, hi.nonempty, ite_self]
  | computeHash =>
    obtain ⟨_, s', hpersist, hi', -⟩ := hi.persist hlen horder hfuel (hcov rfl)
    exact ⟨s', by rw [State.step, hpersist]; rfl, hi'⟩

lemma Invariant.run (hlen : ∀ key v, (hashFun key v).length = 48) (horder : ∀ u, (order u).Perm u)
    (hfuel : L + 2 ≤ fuel) {x : SortedMap Bytes V × List (SortedMap Bytes V)}
    (hi : Invariant H hashFun s x.1 x.2 L) {ops : List (Op V)} (hops : ∀ op ∈ ops, op.Fits L)
    (hkey : ∀ key v, .insert key v ∈ ops → key ≠ [])
    (hcov : ∀ before after s', ops = before ++ .computeHash :: after →
      s.run H hashFun order fuel before = some s' → s'.Covered) :
    ∃ s', s.run H hashFun order fuel ops = some s' ∧
      Invariant H hashFun s' (ops.foldl record x).1 (ops.foldl record x).2 L := by
  induction ops generalizing s x with
  | nil => exact ⟨s, rfl, hi⟩
  | cons op ops ih =>
    obtain ⟨s1, hstep, hi1⟩ := hi.step hlen horder hfuel (hops op (by simp))
      (fun key v hop => hkey key v (by simp [hop])) fun hop => hcov [] ops s (by rw [hop]; rfl) rfl
    have hcov1 : ∀ before after s', ops = before ++ .computeHash :: after →
        s1.run H hashFun order fuel before = some s' → s'.Covered := by
      intro before after s' heq hrun
      apply hcov (op :: before) after s' (by rw [heq]; rfl)
      rw [State.run, List.foldlM_cons, hstep]
      exact hrun
    obtain ⟨s2, hrun, hi2⟩ := ih hi1 (fun op hop => hops op (by simp [hop]))
      (fun key v hop => hkey key v (by simp [hop])) hcov1
    refine ⟨s2, ?_, hi2⟩
    rw [State.run, List.foldlM_cons, hstep]
    exact hrun

end Run

end Arweave.Wallet
