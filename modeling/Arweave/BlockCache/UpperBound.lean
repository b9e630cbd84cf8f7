import Arweave.BlockCache.Validation

/-!
# The partition upper bound

The upper bound of the partitions of a block is read off the chain below its previous block, at a fixed depth or at
the genesis block. A block that is validated has its chain put together from the previous blocks and the recent block
index. A block that just arrived has its chain followed in the cache down to the first block on chain, from where the
recent block index is counted.
-/

namespace Arweave.BlockCache
open Arweave.Lib

section Code

/-- The hash, the weave size and the transaction root of a block. -/
abbrev BIEntry := Bytes × Nat × Bytes

/-- The fields of a block that the cache does not read, and the depth that the upper bound is read at. -/
structure IndexConfig where
  weaveSize : Block → Nat
  txRoot : Block → Bytes
  /-- `?SEARCH_SPACE_UPPER_BOUND_DEPTH` -/
  depth : Nat
  depth_pos : 0 < depth

variable (cfg : IndexConfig)

/-- The source crashes on an empty index. -/
def getNthOrLast (n : Nat) (bi : List BIEntry) : Option BIEntry :=
  if bi.length < n then bi.getLast? else bi[n - 1]?

def getPartitionUpperBound (bi : List BIEntry) : Option Nat := (getNthOrLast cfg.depth bi).map fun e => e.2.1

/-- `get_recent_partition_upper_bound_by_prev_h/4`. -/
def scanIndex (h : Bytes) (diff : Nat) (genesis : Bool) : List BIEntry → Option (Bytes × Nat)
  | [] => none
  | e :: bi =>
    if e.1 = h then
      let depth := cfg.depth - diff
      if (e :: bi).length < depth then
        if genesis then (e :: bi).getLast?.map fun e2 => (e2.1, e2.2.1) else none
      else ((e :: bi)[depth - 1]?).map fun e2 => (e2.1, e2.2.1)
    else scanIndex h diff genesis bi

/-- `get_recent_partition_upper_bound_by_prev_h/2`. The first argument counts the blocks that are left below this one,
so the walk ends when it is zero. -/
def followFork (c : Cache) (recentBI : List BIEntry) : Nat → Bytes → Nat → Option (Bytes × Nat)
  | left, h, diff =>
    match c.blocks.lookup h with
    | none => none
    | some e =>
      match e.status with
      | .onChain => scanIndex cfg h diff (recentBI.length ≤ cfg.depth) recentBI
      | _ =>
        match left with
        | 0 => some (e.block.indepHash, cfg.weaveSize e.block)
        | left + 1 => followFork c recentBI left e.block.previousBlock (diff + 1)

def getRecentPartitionUpperBoundByPrevH (c : Cache) (recentBI : List BIEntry) (h : Bytes) : Option (Bytes × Nat) :=
  followFork cfg c recentBI (cfg.depth - 1) h 0

def blockIndexEntry (b : Block) : BIEntry := (b.indepHash, cfg.weaveSize b, cfg.txRoot b)

/-- The source crashes when the block is not in the index. -/
def getOrphans : List BIEntry → Bytes → List Bytes → Option (List Bytes × List BIEntry)
  | [], _, _ => none
  | e :: bi, h, orphans => if e.1 = h then some (orphans, bi) else getOrphans bi h (e.1 :: orphans)

def updateBlockIndex (b : Block) (prevBlocks : List Block) (bi : List BIEntry) :
    Option (List Bytes × List BIEntry) := do
  let last ← prevBlocks.getLast?
  let (orphans, base) ← getOrphans bi last.indepHash []
  some (orphans, blockIndexEntry cfg b :: (prevBlocks.map (blockIndexEntry cfg) ++ base))

/-- The upper bound that `apply_block3` validates a block with. -/
def applyPartitionUpperBound (b : Block) (prevBlocks : List Block) (recentBI : List BIEntry) : Option Nat := do
  let (_, recentBI2) ← updateBlockIndex cfg b prevBlocks recentBI
  getPartitionUpperBound cfg recentBI2.tail

end Code

section Forks

variable {t : BlockTree} {x y : Bytes} {b base : Block} {s : Status} {fork : List Block} {c : Cache}
  {path : List (Block × Status)}

/-- The blocks off chain from a block downwards, and the block on chain below them. -/
inductive ForkTo (t : BlockTree) : Bytes → List Block → Block → Prop
  | base (x : Bytes) (b : Block) (hx : t x = some (b, .onChain)) : ForkTo t x [] b
  | step (x : Bytes) (b : Block) (s : Status) (fork : List Block) (base : Block) (hx : t x = some (b, s))
      (hs : s ≠ .onChain) (hprev : ForkTo t b.previousBlock fork base) : ForkTo t x (b :: fork) base

lemma exists_forkTo (ht : Rooted t) (hpath : Path t x path) (hne : path ≠ []) :
    ∃ fork base, ForkTo t x fork base ∧ fork.length < path.length := by
  induction hpath with
  | nil x hx => exact absurd rfl hne
  | cons x b s path hx hprev ih =>
    by_cases hs : s = .onChain
    · subst hs
      exact ⟨[], b, .base x b hx, by simp⟩
    · have hbelow : path ≠ [] := by
        rintro rfl
        cases hprev with
        | nil _ hnone => exact hs (ht.rootOnChain x b s hx hnone)
      obtain ⟨fork, base, hfork, hlen⟩ := ih hbelow
      exact ⟨b :: fork, base, .step x b s fork base hx hs hfork, by simpa using hlen⟩

lemma ForkTo.base_onChain (h : ForkTo t x fork base) (ht : Rooted t) :
    t base.indepHash = some (base, .onChain) := by
  induction h with
  | base x b hx => rw [ht.indepHash x b _ hx, hx]
  | step x b s fork base hx hs hprev ih => exact ih

lemma ForkTo.offChain (h : ForkTo t x fork base) (ht : Rooted t) :
    ∀ a ∈ fork, ∃ s, t a.indepHash = some (a, s) ∧ s ≠ .onChain := by
  induction h with
  | base x b hx => simp
  | step x b s fork base hx hs hprev ih =>
    refine List.forall_mem_cons.mpr ⟨⟨s, ?_, hs⟩, ih⟩
    rw [ht.indepHash x b s hx, hx]

lemma getForkBlocks_forkTo (h : ForkTo c.info x fork base) (hb : b.previousBlock = x) (fuel : Nat)
    (hfuel : fork.length < fuel) : getForkBlocks c fuel b = some (fork ++ [base]) := by
  induction h generalizing b fuel with
  | base x p hx =>
    obtain ⟨fuel, rfl⟩ : ∃ k, fuel = k + 1 := ⟨fuel - 1, by omega⟩
    obtain ⟨e, he, rfl, hstatus⟩ := exists_entry hx
    simp [getForkBlocks, hb, he, hstatus]
  | step x p s fork base hx hs hprev ih =>
    obtain ⟨fuel, rfl⟩ : ∃ k, fuel = k + 1 := ⟨fuel - 1, by omega⟩
    obtain ⟨e, he, rfl, rfl⟩ := exists_entry hx
    have hrest := ih rfl fuel (by simpa using hfuel)
    rw [getForkBlocks, hb, he]
    cases hstatus : e.status with
    | onChain => exact absurd hstatus hs
    | validated => simp [hstatus, hrest]
    | notValidated stage => simp [hstatus, hrest]

lemma Path.mem_of_under (hpath : Path t y path) (hu : Under t x y) (hx : t x = some (b, s)) : (b, s) ∈ path := by
  induction hpath with
  | nil y hy =>
    cases hu with
    | self =>
      rw [hx] at hy
      cases hy
    | step _ d r hd _ =>
      rw [hd] at hy
      cases hy
  | cons y d r path hd hprev ih =>
    cases hu with
    | self =>
      rw [hx] at hd
      cases hd
      exact List.mem_cons_self
    | step _ d' r' hd' hu =>
      rw [hd] at hd'
      cases hd'
      exact List.mem_cons_of_mem _ (ih hu)

lemma Path.unique {path' : List (Block × Status)} (hpath : Path t x path) (hother : Path t x path') :
    path = path' := by
  induction hpath generalizing path' with
  | nil x hx =>
    cases hother with
    | nil => rfl
    | cons _ d r path' hd =>
      rw [hx] at hd
      cases hd
  | cons x b s path hx hprev ih =>
    cases hother with
    | nil _ hnone =>
      rw [hx] at hnone
      cases hnone
    | cons _ d r path' hd hbelow =>
      rw [hx] at hd
      cases hd
      rw [ih hbelow]

variable {cfg : IndexConfig} {recentBI : List BIEntry}

lemma followFork_onChain {left diff : Nat} (hx : c.info x = some (b, .onChain)) :
    followFork cfg c recentBI left x diff = scanIndex cfg x diff (recentBI.length ≤ cfg.depth) recentBI := by
  obtain ⟨e, he, -, hstatus⟩ := exists_entry hx
  unfold followFork
  simp [he, hstatus]

lemma followFork_offChain {left diff : Nat} (hx : c.info x = some (b, s)) (hs : s ≠ .onChain) :
    followFork cfg c recentBI left x diff =
      match left with
      | 0 => some (b.indepHash, cfg.weaveSize b)
      | left + 1 => followFork cfg c recentBI left b.previousBlock (diff + 1) := by
  obtain ⟨e, he, rfl, rfl⟩ := exists_entry hx
  rw [followFork, he]
  cases hstatus : e.status with
  | onChain => exact absurd hstatus hs
  | validated => cases left <;> simp [hstatus]
  | notValidated stage => cases left <;> simp [hstatus]

lemma followFork_eq (h : ForkTo c.info x fork base) (ht : Rooted c.info) (left diff : Nat) :
    followFork cfg c recentBI left x diff =
      if left < fork.length then (fork[left]?).map fun a => (a.indepHash, cfg.weaveSize a)
      else scanIndex cfg base.indepHash (diff + fork.length) (recentBI.length ≤ cfg.depth) recentBI := by
  induction h generalizing left diff with
  | base x b hx => simp [followFork_onChain hx, ht.indepHash x b _ hx]
  | step x b s fork base hx hs hprev ih =>
    rw [followFork_offChain hx hs]
    cases left with
    | zero => simp
    | succ left =>
      simp only [ih, List.length_cons, Nat.add_lt_add_iff_right, List.getElem?_cons_succ]
      rw [Nat.add_right_comm, Nat.add_assoc diff]

end Forks

section Indices

variable {cfg : IndexConfig} {bi newer older : List BIEntry} {e : BIEntry} {h : Bytes} {diff n : Nat}
  {genesis : Bool}

/-- What is given of an entry. -/
def bound (e : BIEntry) : Bytes × Nat := (e.1, e.2.1)

lemma getNthOrLast_append (hn : 0 < n) (hne : older ≠ []) : getNthOrLast n (newer ++ older) =
    if n ≤ newer.length then newer[n - 1]? else getNthOrLast (n - newer.length) older := by
  have hpos : 0 < older.length := List.length_pos_iff.mpr hne
  unfold getNthOrLast
  by_cases hle : n ≤ newer.length
  · have hlen : ¬ (newer ++ older).length < n := by
      rw [List.length_append]
      omega
    rw [if_pos hle, if_neg hlen, List.getElem?_append_left (by omega)]
  · have hlen : (newer ++ older).length < n ↔ older.length < n - newer.length := by
      rw [List.length_append]
      omega
    rw [if_neg hle]
    by_cases hshort : older.length < n - newer.length
    · rw [if_pos hshort, if_pos (hlen.mpr hshort), List.getLast?_append_of_ne_nil _ hne]
    · rw [if_neg hshort, if_neg (hlen.not.mpr hshort), List.getElem?_append_right (by omega)]
      congr 1
      omega

lemma scanIndex_not_mem (hnot : h ∉ bi.map Prod.fst) : scanIndex cfg h diff genesis bi = none := by
  induction bi with
  | nil => rfl
  | cons e bi ih =>
    rw [List.map_cons, List.mem_cons, not_or] at hnot
    obtain ⟨hne, hnot⟩ := hnot
    rw [scanIndex, if_neg (Ne.symm hne), ih hnot]

lemma scanIndex_append (hnew : e.1 ∉ newer.map Prod.fst) :
    scanIndex cfg e.1 diff genesis (newer ++ e :: older) =
      if (e :: older).length < cfg.depth - diff ∧ genesis = false then none
      else (getNthOrLast (cfg.depth - diff) (e :: older)).map bound := by
  induction newer with
  | nil =>
    rw [List.nil_append, scanIndex, if_pos rfl, getNthOrLast]
    by_cases hlen : (e :: older).length < cfg.depth - diff
    · rw [if_pos hlen, if_pos hlen]
      cases genesis <;> simp only [hlen] <;> rfl
    · rw [if_neg hlen, if_neg hlen, if_neg fun h => hlen h.1]
      rfl
  | cons e' newer ih =>
    rw [List.map_cons, List.mem_cons, not_or] at hnew
    obtain ⟨hne, hnew⟩ := hnew
    rw [List.cons_append, scanIndex, if_neg (Ne.symm hne), ih hnew]

lemma getOrphans_append {orphans : List Bytes} (hnew : e.1 ∉ newer.map Prod.fst) :
    ∃ orphans', getOrphans (newer ++ e :: older) e.1 orphans = some (orphans', older) := by
  induction newer generalizing orphans with
  | nil => exact ⟨orphans, by simp [getOrphans]⟩
  | cons e' newer ih =>
    rw [List.map_cons, List.mem_cons, not_or] at hnew
    obtain ⟨hne, hnew⟩ := hnew
    rw [List.cons_append, getOrphans, if_neg (Ne.symm hne)]
    exact ih hnew

end Indices

section Agreement

variable {cfg : IndexConfig} {c : Cache} {chain recentBI newer older full : List BIEntry} {e : BIEntry} {x : Bytes}
  {b base : Block} {fork prevBlocks : List Block} {n : Nat}

/-- The chain of the blocks on chain goes from the tip to the genesis block, the cached ones first. The recent block
index is its newest part, and all of it when the index is not longer than the depth. -/
structure RecentIndex (cfg : IndexConfig) (c : Cache) (chain recentBI : List BIEntry) : Prop where
  cached : ∀ path, Path c.info c.tip path → path.map (fun p => blockIndexEntry cfg p.1) <+: chain
  onChain : ∀ x b s, c.info x = some (b, s) → x ∈ chain.map Prod.fst → s = .onChain
  distinct : (chain.map Prod.fst).Nodup
  recent : recentBI <+: chain
  whole : recentBI.length ≤ cfg.depth → recentBI = chain

/-- The chain of a cached block: the blocks of its fork, and what is below them on the chain of the tip. -/
def ChainOf (cfg : IndexConfig) (c : Cache) (chain : List BIEntry) (x : Bytes) (full : List BIEntry) : Prop :=
  ∃ fork base newer older, ForkTo c.info x fork base ∧ chain = newer ++ blockIndexEntry cfg base :: older ∧
    full = fork.map (blockIndexEntry cfg) ++ blockIndexEntry cfg base :: older

lemma RecentIndex.base_mem (hrecent : RecentIndex cfg c chain recentBI) (hc : Invariants c)
    (hbase : c.info base.indepHash = some (base, .onChain)) : blockIndexEntry cfg base ∈ chain := by
  obtain ⟨path, hpath⟩ := Path.exists_of_ascending hc.coherent.tree.height c.tip
  have hmem := hpath.mem_of_under (hc.tipPath.below base.indepHash base hbase) hbase
  exact (hrecent.cached path hpath).subset (List.mem_map_of_mem hmem)

lemma not_mem_newer (hnodup : ((newer ++ e :: older).map Prod.fst).Nodup) : e.1 ∉ newer.map Prod.fst := by
  rw [List.map_append, List.map_cons] at hnodup
  exact fun hmem => (List.nodup_append.mp hnodup).2.2 _ hmem _ List.mem_cons_self rfl

lemma initial_cases (hinitial : recentBI <+: newer ++ e :: older) :
    recentBI <+: newer ∨ ∃ low, low <+: older ∧ recentBI = newer ++ e :: low := by
  obtain h | ⟨low, rfl⟩ := List.prefix_or_prefix_of_prefix hinitial (List.prefix_append newer (e :: older))
  · exact .inl h
  · cases low with
    | nil => exact .inl (by simp)
    | cons e' low =>
      rw [List.prefix_append_right_inj, List.cons_prefix_cons] at hinitial
      obtain ⟨rfl, hlow⟩ := hinitial
      exact .inr ⟨low, hlow, rfl⟩

lemma applyPartitionUpperBound_eq (hnodup : ((newer ++ blockIndexEntry cfg base :: older).map Prod.fst).Nodup) :
    applyPartitionUpperBound cfg b (fork ++ [base]) (newer ++ blockIndexEntry cfg base :: older) =
      getPartitionUpperBound cfg (fork.map (blockIndexEntry cfg) ++ blockIndexEntry cfg base :: older) := by
  obtain ⟨orphans, horphans⟩ : ∃ orphans,
      getOrphans (newer ++ blockIndexEntry cfg base :: older) (blockIndexEntry cfg base).1 [] = some (orphans, older) :=
    getOrphans_append (not_mem_newer hnodup)
  have hhash : (blockIndexEntry cfg base).1 = base.indepHash := rfl
  rw [hhash] at horphans
  simp [applyPartitionUpperBound, updateBlockIndex, horphans]

lemma getNthOrLast_isSome (hn : 0 < n) (hne : full ≠ []) : ∃ e, getNthOrLast n full = some e := by
  unfold getNthOrLast
  split_ifs with hlen
  · exact ⟨_, List.getLast?_eq_some_getLast hne⟩
  · exact ⟨_, List.getElem?_eq_getElem (by omega)⟩

lemma getNthOrLast_of_le (hlen : n ≤ full.length) : getNthOrLast n full = full[n - 1]? := by
  rw [getNthOrLast, if_neg (by omega)]

lemma getElem?_of_initial {i : Nat} (hinitial : newer <+: full) (hi : i < newer.length) : newer[i]? = full[i]? := by
  rw [List.prefix_iff_getElem?.mp hinitial i hi, List.getElem?_eq_getElem hi]

lemma lt_of_mem_initial {i : Nat} (hnodup : full.Nodup) (hinitial : newer <+: full) (hi : full[i]? = some e)
    (hmem : e ∈ newer) : i < newer.length := by
  obtain ⟨j, hj⟩ := List.mem_iff_getElem?.mp hmem
  have hlt : j < newer.length := (List.getElem?_eq_some_iff.mp hj).1
  rw [getElem?_of_initial hinitial hlt] at hj
  have hfull : j < full.length := (List.getElem?_eq_some_iff.mp hj).1
  rwa [← (List.getElem?_inj hfull hnodup).mp (hj.trans hi.symm)]

lemma RecentIndex.length_le (hrecent : RecentIndex cfg c chain recentBI) (hinitial : recentBI <+: newer)
    (hchain : chain = newer ++ e :: older) : cfg.depth < recentBI.length := by
  by_contra hle
  have hlen := congrArg List.length ((hrecent.whole (by omega)).trans hchain)
  have hle := hinitial.length_le
  simp only [List.length_append, List.length_cons] at hlen
  omega

lemma scanIndex_of_eq (heq : recentBI = newer ++ e :: older) (hnew : e.1 ∉ newer.map Prod.fst) (diff : Nat) :
    scanIndex cfg e.1 diff (recentBI.length ≤ cfg.depth) recentBI =
      if (e :: older).length < cfg.depth - diff ∧ ¬ recentBI.length ≤ cfg.depth then none
      else (getNthOrLast (cfg.depth - diff) (e :: older)).map bound := by
  subst heq
  rw [scanIndex_append hnew]
  simp only [decide_eq_false_iff_not]

lemma exists_mem_recent_iff {low : List BIEntry} {i : Nat} (hnodup : (newer ++ e :: older).Nodup)
    (heq : recentBI = newer ++ e :: low) (hlow : low <+: older) :
    (∃ y ∈ recentBI, (e :: older)[i]? = some y) ↔ i < (e :: low).length := by
  have hinitial : e :: low <+: e :: older := (List.prefix_cons_inj e).mpr hlow
  obtain ⟨-, hbelow, hdisjoint⟩ := List.nodup_append.mp hnodup
  constructor
  · rintro ⟨y, hy, hat⟩
    rw [heq, List.mem_append] at hy
    have hmem := hy.resolve_left fun hnew => hdisjoint y hnew y (List.mem_of_getElem? hat) rfl
    exact lt_of_mem_initial hbelow hinitial hat hmem
  · intro hi
    obtain ⟨y, hy⟩ : ∃ y, (e :: low)[i]? = some y := ⟨_, List.getElem?_eq_getElem hi⟩
    refine ⟨y, heq ▸ List.mem_append_right _ (List.mem_of_getElem? hy), ?_⟩
    rw [← getElem?_of_initial hinitial hi, hy]

lemma scanIndex_recent (hrecent : RecentIndex cfg c chain recentBI) (hchain : chain = newer ++ e :: older) {diff : Nat}
    (hdiff : diff < cfg.depth) :
    scanIndex cfg e.1 diff (recentBI.length ≤ cfg.depth) recentBI =
      if (∃ y ∈ recentBI, (e :: older)[cfg.depth - diff - 1]? = some y) ∨
          ((e :: older).length < cfg.depth - diff ∧ recentBI.length ≤ cfg.depth)
      then (getNthOrLast (cfg.depth - diff) (e :: older)).map bound else none := by
  have hkeys : ((newer ++ e :: older).map Prod.fst).Nodup := hchain ▸ hrecent.distinct
  obtain hshort | ⟨low, hlow, heq⟩ := initial_cases (hchain ▸ hrecent.recent)
  · have hnot : e.1 ∉ recentBI.map Prod.fst :=
      fun hmem => not_mem_newer hkeys (List.map_subset _ hshort.subset hmem)
    rw [scanIndex_not_mem hnot, if_neg]
    rintro (⟨y, hy, hat⟩ | ⟨-, hle⟩)
    · exact (List.nodup_append.mp hkeys.of_map).2.2 y (hshort.subset hy) y (List.mem_of_getElem? hat) rfl
    · have hlt := hrecent.length_le hshort hchain
      omega
  · have hinitial : e :: low <+: e :: older := (List.prefix_cons_inj e).mpr hlow
    rw [scanIndex_of_eq heq (not_mem_newer hkeys)]
    simp only [exists_mem_recent_iff hkeys.of_map heq hlow]
    by_cases hlen : cfg.depth - diff ≤ (e :: low).length
    · have hfull := hinitial.length_le
      rw [if_neg (by omega), if_pos (.inl (by omega)), getNthOrLast_of_le hlen, getNthOrLast_of_le (by omega),
        getElem?_of_initial hinitial (by omega)]
    · by_cases hle : recentBI.length ≤ cfg.depth
      · have hwhole : e :: low = e :: older :=
          List.append_cancel_left (heq.symm.trans ((hrecent.whole hle).trans hchain))
        rw [hwhole] at hlen ⊢
        rw [if_neg fun h => h.2 hle, if_pos (.inr ⟨by omega, hle⟩)]
      · rw [if_pos ⟨by omega, hle⟩, if_neg]
        rintro (hat | ⟨-, h⟩)
        · omega
        · exact hle h

lemma getRecentPartitionUpperBoundByPrevH_eq (hrecent : RecentIndex cfg c chain recentBI) (ht : Rooted c.info)
    (hfork : ForkTo c.info x fork base)
    (hchain : chain = newer ++ blockIndexEntry cfg base :: older)
    (hfull : full = fork.map (blockIndexEntry cfg) ++ blockIndexEntry cfg base :: older) :
    getRecentPartitionUpperBoundByPrevH cfg c recentBI x =
      if cfg.depth ≤ fork.length ∨ (∃ y ∈ recentBI, full[cfg.depth - 1]? = some y) ∨
          (full.length < cfg.depth ∧ recentBI.length ≤ cfg.depth)
      then (getNthOrLast cfg.depth full).map bound else none := by
  rw [getRecentPartitionUpperBoundByPrevH, followFork_eq hfork ht, hfull,
    getNthOrLast_append cfg.depth_pos (List.cons_ne_nil _ _), List.length_append, List.length_map]
  have hpos := cfg.depth_pos
  by_cases hlen : cfg.depth ≤ fork.length
  · rw [if_pos (by omega), if_pos (.inl hlen), if_pos hlen, List.getElem?_map, Option.map_map]
    rfl
  · have hscan := scanIndex_recent hrecent hchain (show fork.length < cfg.depth by omega)
    have hat : (fork.map (blockIndexEntry cfg) ++ blockIndexEntry cfg base :: older)[cfg.depth - 1]? =
        (blockIndexEntry cfg base :: older)[cfg.depth - fork.length - 1]? := by
      rw [List.getElem?_append_right (by rw [List.length_map]; omega), List.length_map]
      congr 1
      omega
    have hshort : fork.length + (blockIndexEntry cfg base :: older).length < cfg.depth ↔
        (blockIndexEntry cfg base :: older).length < cfg.depth - fork.length := by omega
    rw [if_neg (by omega), Nat.zero_add, if_neg hlen, hat]
    simp only [hlen, false_or, hshort]
    exact hscan

lemma applyPartitionUpperBound_of_eq (hrecent : RecentIndex cfg c chain recentBI) (ht : Rooted c.info)
    (hfork : ForkTo c.info x fork base)
    (hchain : chain = newer ++ blockIndexEntry cfg base :: older) (hmem : base.indepHash ∈ recentBI.map Prod.fst)
    {v : Bytes × Nat} (hv : getRecentPartitionUpperBoundByPrevH cfg c recentBI x = some v) :
    applyPartitionUpperBound cfg b (fork ++ [base]) recentBI = some v.2 := by
  have hkeys : ((newer ++ blockIndexEntry cfg base :: older).map Prod.fst).Nodup := hchain ▸ hrecent.distinct
  obtain hshort | ⟨low, hlow, heq⟩ := initial_cases (hchain ▸ hrecent.recent)
  · exact absurd (List.map_subset _ hshort.subset hmem) (not_mem_newer hkeys)
  · have hsub : ((newer ++ blockIndexEntry cfg base :: low).map Prod.fst).Nodup :=
      hrecent.distinct.sublist ((heq ▸ hrecent.recent).sublist.map Prod.fst)
    rw [getRecentPartitionUpperBoundByPrevH, followFork_eq hfork ht, Nat.zero_add] at hv
    have hscan : scanIndex cfg base.indepHash fork.length (recentBI.length ≤ cfg.depth) recentBI = _ :=
      scanIndex_of_eq heq (not_mem_newer hkeys) fork.length
    rw [heq, applyPartitionUpperBound_eq hsub, getPartitionUpperBound,
      getNthOrLast_append cfg.depth_pos (List.cons_ne_nil _ _), List.length_map]
    have hpos := cfg.depth_pos
    split_ifs at hv with hlen
    · rw [if_pos (by omega), List.getElem?_map]
      simp only [Option.map_eq_some_iff] at hv ⊢
      obtain ⟨a, ha, rfl⟩ := hv
      exact ⟨_, ⟨a, ha, rfl⟩, rfl⟩
    · rw [hscan] at hv
      split_ifs at hv with hnone
      obtain ⟨e', he', rfl⟩ := Option.map_eq_some_iff.mp hv
      rw [if_neg (by omega), he']
      rfl

lemma depth_le_iff (hrecent : RecentIndex cfg c chain recentBI) (ht : Rooted c.info) (hfork : ForkTo c.info x fork base)
    (hchain : chain = newer ++ blockIndexEntry cfg base :: older)
    (hfull : full = fork.map (blockIndexEntry cfg) ++ blockIndexEntry cfg base :: older) :
    cfg.depth ≤ fork.length ↔
      ∃ e, full[cfg.depth - 1]? = some e ∧ ∃ d s, c.info e.1 = some (d, s) ∧ s ≠ .onChain := by
  have hpos := cfg.depth_pos
  subst hfull
  constructor
  · intro hle
    obtain ⟨a, ha⟩ : ∃ a, fork[cfg.depth - 1]? = some a := ⟨_, List.getElem?_eq_getElem (by omega)⟩
    obtain ⟨s, hinfo, hs⟩ := hfork.offChain ht a (List.mem_of_getElem? ha)
    refine ⟨blockIndexEntry cfg a, ?_, a, s, hinfo, hs⟩
    rw [List.getElem?_append_left (by rw [List.length_map]; omega), List.getElem?_map, ha]
    rfl
  · rintro ⟨e, hat, d, s, hinfo, hs⟩
    by_contra hlt
    rw [List.getElem?_append_right (by rw [List.length_map]; omega)] at hat
    have hmem : e ∈ chain := hchain ▸ List.mem_append_right _ (List.mem_of_getElem? hat)
    exact hs (hrecent.onChain e.1 d s hinfo (List.mem_map_of_mem hmem))

lemma getRecentPartitionUpperBoundByPrevH_ne_none_iff (hrecent : RecentIndex cfg c chain recentBI)
    (ht : Rooted c.info) (hfork : ForkTo c.info x fork base)
    (hchain : chain = newer ++ blockIndexEntry cfg base :: older)
    (hfull : full = fork.map (blockIndexEntry cfg) ++ blockIndexEntry cfg base :: older) :
    getRecentPartitionUpperBoundByPrevH cfg c recentBI x ≠ none ↔
      (∃ e, full[cfg.depth - 1]? = some e ∧ (e ∈ recentBI ∨ ∃ d s, c.info e.1 = some (d, s) ∧ s ≠ .onChain)) ∨
      (full.length < cfg.depth ∧ recentBI.length ≤ cfg.depth) := by
  have hne : full ≠ [] := by simp [hfull]
  obtain ⟨last, hlast⟩ := getNthOrLast_isSome cfg.depth_pos hne
  have hif : ∀ p [Decidable p], (if p then some (bound last) else none) ≠ none ↔ p := by simp
  rw [getRecentPartitionUpperBoundByPrevH_eq hrecent ht hfork hchain hfull, hlast, Option.map_some, hif,
    depth_le_iff hrecent ht hfork hchain hfull]
  constructor
  · rintro (⟨e, hat, hoff⟩ | ⟨y, hy, hat⟩ | hgenesis)
    · exact .inl ⟨e, hat, .inr hoff⟩
    · exact .inl ⟨y, hat, .inl hy⟩
    · exact .inr hgenesis
  · rintro (⟨e, hat, hmem | hoff⟩ | hgenesis)
    · exact .inr (.inl ⟨e, hmem, hat⟩)
    · exact .inl ⟨e, hat, hoff⟩
    · exact .inr (.inr hgenesis)

lemma mem_recentBI_of_onChain (hrecent : RecentIndex cfg c chain recentBI) (ht : Rooted c.info)
    (hfork : ForkTo c.info x fork base) (hchain : chain = newer ++ blockIndexEntry cfg base :: older)
    (hmem : e ∈ fork.map (blockIndexEntry cfg) ++ blockIndexEntry cfg base :: older)
    (hinfo : c.info e.1 = some (b, .onChain)) (hhash : e.1 ∈ recentBI.map Prod.fst) : e ∈ recentBI := by
  obtain hfork' | hbelow := List.mem_append.mp hmem
  · obtain ⟨a, ha, rfl⟩ := List.mem_map.mp hfork'
    obtain ⟨s, hoff, hs⟩ := hfork.offChain ht a ha
    have hsame : some (b, Status.onChain) = some (a, s) := hinfo.symm.trans hoff
    cases hsame
    exact absurd rfl hs
  · obtain ⟨e', he', hkey⟩ := List.mem_map.mp hhash
    have hin : e ∈ chain := hchain ▸ List.mem_append_right _ hbelow
    rwa [← List.inj_on_of_nodup_map hrecent.distinct (hrecent.recent.subset he') hin hkey]

/-- A new block is checked with the same upper bound as it is validated with. The bound is of the block at the depth on
the chain of the previous block, or of the genesis block. It is found when the block at the depth is cached off chain or
in the recent block index, so for every cached one when the index has all the cached blocks on chain. -/
theorem getRecentPartitionUpperBoundByPrevH_spec (cfg : IndexConfig) (c : Cache) (chain recentBI : List BIEntry)
    (b : Block) (hc : Invariants c) (hrecent : RecentIndex cfg c chain recentBI)
    (hb : c.info b.previousBlock ≠ none) :
    ∃ full prevBlocks base, ChainOf cfg c chain b.previousBlock full ∧
      getForkBlocks c c.blocks.size b = some prevBlocks ∧ prevBlocks.getLast? = some base ∧
      (∀ v, getRecentPartitionUpperBoundByPrevH cfg c recentBI b.previousBlock = some v →
        (getNthOrLast cfg.depth full).map bound = some v ∧
        (base.indepHash ∈ recentBI.map Prod.fst → applyPartitionUpperBound cfg b prevBlocks recentBI = some v.2)) ∧
      (getRecentPartitionUpperBoundByPrevH cfg c recentBI b.previousBlock ≠ none ↔
        (∃ e, full[cfg.depth - 1]? = some e ∧
          (e ∈ recentBI ∨ ∃ d s, c.info e.1 = some (d, s) ∧ s ≠ .onChain)) ∨
        (full.length < cfg.depth ∧ recentBI.length ≤ cfg.depth)) ∧
      ((∀ x d, c.info x = some (d, .onChain) → x ∈ recentBI.map Prod.fst) →
        ∀ e, full[cfg.depth - 1]? = some e → e ∈ recentBI ∨ c.info e.1 ≠ none →
          getRecentPartitionUpperBoundByPrevH cfg c recentBI b.previousBlock ≠ none) := by
  have ht := hc.coherent.tree
  obtain ⟨path, hpath⟩ := Path.exists_of_ascending ht.height b.previousBlock
  have hne : path ≠ [] := by
    rintro rfl
    cases hpath with
    | nil _ hnone => exact hb hnone
  obtain ⟨fork, base, hfork, hshort⟩ := exists_forkTo ht hpath hne
  obtain ⟨newer, older, hchain⟩ := List.append_of_mem (hrecent.base_mem hc (hfork.base_onChain ht))
  have hprev : getForkBlocks c c.blocks.size b = some (fork ++ [base]) :=
    getForkBlocks_forkTo hfork rfl _ (hshort.trans_le (hpath.length_le ht.height))
  have hfound := getRecentPartitionUpperBoundByPrevH_ne_none_iff hrecent ht hfork hchain rfl
  refine ⟨_, _, base, ⟨fork, base, newer, older, hfork, hchain, rfl⟩, hprev, by simp, ?_, hfound, ?_⟩
  · intro v hv
    refine ⟨?_, fun hmem => applyPartitionUpperBound_of_eq hrecent ht hfork hchain hmem hv⟩
    rw [getRecentPartitionUpperBoundByPrevH_eq hrecent ht hfork hchain rfl] at hv
    split_ifs at hv with hif
    exact hv
  · intro hall e hat hknown
    refine hfound.mpr (.inl ⟨e, hat, ?_⟩)
    obtain hmem | hinfo := hknown
    · exact .inl hmem
    · obtain ⟨⟨d, s⟩, hd⟩ := Option.ne_none_iff_exists'.mp hinfo
      by_cases hs : s = .onChain
      · subst hs
        exact .inl (mem_recentBI_of_onChain hrecent ht hfork hchain (List.mem_of_getElem? hat) hd (hall e.1 d hd))
      · exact .inr ⟨d, s, hd, hs⟩

end Agreement

/-- The depth is the one of the debug build. -/
def sampleIndexConfig : IndexConfig := ⟨fun b => 20 * b.height, fun _ => [], 3, by decide⟩

/-- Five blocks on chain and one on top of the tip that is not validated. -/
def longOps : List Op :=
  [.addValidated (sampleBlock 2 9 1 2 1) (atSecond 0) 0, .addValidated (sampleBlock 3 8 2 3 2) (atSecond 0) 0,
    .addValidated (sampleBlock 4 7 3 4 3) (atSecond 0) 0, .addValidated (sampleBlock 5 6 4 5 4) (atSecond 0) 0,
    .markTip [5], .add (sampleBlock 6 5 5 6 5) (atSecond 0) 0]

lemma longOps_invariants : ∃ c, run sampleConfig (sampleBlock 1 1 0 1 0) 0 longOps = some c ∧ Invariants c :=
  invariants_of_checks (by decide) (headers_of_list (by decide)) (rising_of_list (by decide)) (by decide)

def sampleChain : List BIEntry := [([5], 80, []), ([4], 60, []), ([3], 40, []), ([2], 20, []), ([1], 0, [])]

lemma sampleChain_recent : ∃ c, Invariants c ∧ RecentIndex sampleIndexConfig c sampleChain (sampleChain.take 4) ∧
    c.info [6] = some (sampleBlock 6 5 5 6 5, .notValidated .awaitingNonceLimiterValidation) ∧
    c.info [3] = some (sampleBlock 3 8 2 3 2, .onChain) ∧ c.info [1] = some (sampleBlock 1 1 0 1 0, .onChain) ∧
    getForkBlocks c c.blocks.size (sampleBlock 7 4 6 7 6) = some [sampleBlock 6 5 5 6 5, sampleBlock 5 6 4 5 4] ∧
    getRecentPartitionUpperBoundByPrevH sampleIndexConfig c (sampleChain.take 4) [6] = some ([4], 60) ∧
    getRecentPartitionUpperBoundByPrevH sampleIndexConfig c (sampleChain.take 4) [3] = none := by
  have hresult : ∀ c ∈ run sampleConfig (sampleBlock 1 1 0 1 0) 0 longOps, c.tip = [5] ∧ c.info [0] = none ∧
      c.info [1] = some (sampleBlock 1 1 0 1 0, .onChain) ∧ c.info [2] = some (sampleBlock 2 9 1 2 1, .onChain) ∧
      c.info [3] = some (sampleBlock 3 8 2 3 2, .onChain) ∧ c.info [4] = some (sampleBlock 4 7 3 4 3, .onChain) ∧
      c.info [5] = some (sampleBlock 5 6 4 5 4, .onChain) ∧
      c.info [6] = some (sampleBlock 6 5 5 6 5, .notValidated .awaitingNonceLimiterValidation) ∧
      getForkBlocks c c.blocks.size (sampleBlock 7 4 6 7 6) = some [sampleBlock 6 5 5 6 5, sampleBlock 5 6 4 5 4] ∧
      getRecentPartitionUpperBoundByPrevH sampleIndexConfig c (sampleChain.take 4) [6] = some ([4], 60) ∧
      getRecentPartitionUpperBoundByPrevH sampleIndexConfig c (sampleChain.take 4) [3] = none := by
    decide
  obtain ⟨c, hrun, hc⟩ := longOps_invariants
  obtain ⟨htip, h0, h1, h2, h3, h4, h5, h6, hprev, hfork, hnone⟩ := hresult c hrun
  have hpath : Path c.info c.tip [(sampleBlock 5 6 4 5 4, .onChain), (sampleBlock 4 7 3 4 3, .onChain),
      (sampleBlock 3 8 2 3 2, .onChain), (sampleBlock 2 9 1 2 1, .onChain), (sampleBlock 1 1 0 1 0, .onChain)] :=
    htip ▸ .cons [5] _ _ _ h5 (.cons [4] _ _ _ h4 (.cons [3] _ _ _ h3 (.cons [2] _ _ _ h2
      (.cons [1] _ _ _ h1 (.nil [0] h0)))))
  have hrecent : RecentIndex sampleIndexConfig c sampleChain (sampleChain.take 4) := by
    refine ⟨?_, ?_, by decide, List.take_prefix 4 _, fun h => absurd h (by decide)⟩
    · intro path hother
      rw [hother.unique hpath]
      decide
    · intro x b s hx hmem
      have hmem' : x ∈ [[5], [4], [3], [2], [1]] := hmem
      simp only [List.mem_cons, List.not_mem_nil, or_false] at hmem'
      rcases hmem' with rfl | rfl | rfl | rfl | rfl <;> simp_all
  exact ⟨c, hc, hrecent, h6, h3, h1, hprev, hfork, hnone⟩

/-- A block on top of block 6 is checked and validated with the weave size of block 4. -/
theorem getRecentPartitionUpperBoundByPrevH_sample : ∃ c full, Invariants c ∧
    ChainOf sampleIndexConfig c sampleChain [6] full ∧
    getForkBlocks c c.blocks.size (sampleBlock 7 4 6 7 6) = some [sampleBlock 6 5 5 6 5, sampleBlock 5 6 4 5 4] ∧
    getRecentPartitionUpperBoundByPrevH sampleIndexConfig c (sampleChain.take 4) [6] = some ([4], 60) ∧
    (getNthOrLast 3 full).map bound = some ([4], 60) ∧
    applyPartitionUpperBound sampleIndexConfig (sampleBlock 7 4 6 7 6) [sampleBlock 6 5 5 6 5, sampleBlock 5 6 4 5 4]
      (sampleChain.take 4) = some 60 := by
  obtain ⟨c, hc, hrecent, h6, -, -, hprev, hfound, -⟩ := sampleChain_recent
  have hcached : c.info (sampleBlock 7 4 6 7 6).previousBlock ≠ none := fun h => by
    rw [show (sampleBlock 7 4 6 7 6).previousBlock = [6] from rfl, h6] at h
    cases h
  obtain ⟨full, prevBlocks, base, hchain, hget, hlast, hequal, -⟩ :=
    getRecentPartitionUpperBoundByPrevH_spec sampleIndexConfig c sampleChain _ _ hc hrecent hcached
  obtain rfl := Option.some_inj.mp (hget.symm.trans hprev)
  cases hlast
  obtain ⟨hbound, happly⟩ := hequal _ hfound
  exact ⟨c, full, hc, hchain, hprev, hfound, hbound, happly (by decide)⟩

/-- Block 1 is at the depth below block 3 and cached, but no longer in the index. -/
theorem upper_bound_not_found : ∃ c full e, Invariants c ∧
    RecentIndex sampleIndexConfig c sampleChain (sampleChain.take 4) ∧ c.info [3] ≠ none ∧
    ChainOf sampleIndexConfig c sampleChain [3] full ∧ full[sampleIndexConfig.depth - 1]? = some e ∧
    c.info e.1 ≠ none ∧
    getRecentPartitionUpperBoundByPrevH sampleIndexConfig c (sampleChain.take 4) [3] = none := by
  obtain ⟨c, hc, hrecent, -, h3, h1, -, -, hnone⟩ := sampleChain_recent
  refine ⟨c, [([3], 40, []), ([2], 20, []), ([1], 0, [])], ([1], 0, []), hc, hrecent, by simp [h3], ?_, rfl,
    by simp [h1], hnone⟩
  exact ⟨[], sampleBlock 3 8 2 3 2, [([5], 80, []), ([4], 60, [])], [([2], 20, []), ([1], 0, [])], .base _ _ h3, rfl,
    rfl⟩

end Arweave.BlockCache
