import Arweave.Wallet.Diffs

/-!
# Reorganisations of the wallet tree

The process that keeps the account trees stores one of them, that of the current block, in the sink
of a DAG whose nodes are the root hashes of the blocks and whose diffs are the account changes.
Whatever blocks are added to it and whichever of them become current, the tree of a block that is
made current has the accounts after the changes on its branch.
-/

namespace Arweave.Wallet

open Lib Patricia

abbrev WalletDag := DiffDag.Dag Bytes (Patricia.Tree Account) AccountDiff Nat

/-- The height of the fork 2.2. -/
def height22 : Nat := 552180

section Code

variable (H : Digest 48) (ord : DiffDag.Order Bytes) (fuel : Nat)

/-- The DAG with the tree of the first block. -/
def initializeState (tree : Patricia.Tree Account) (denomination : Nat) : Option WalletDag := do
  let (rootHash, updatedTree, _) ← hashWalletList H fuel tree
  some (DiffDag.new rootHash updatedTree denomination)

def computeHash (tree : Patricia.Tree Account) (diff : AccountDiff) (height : Nat) : Option Bytes := do
  let tree2 ← applyDiff ord diff tree
  if height ≥ height22 then (hashWalletList H fuel tree2).map (·.1) else none

def maybeAddNode (dag : WalletDag) (updatedRootHash rootHash : Bytes) (wallets : AccountDiff) (metadata : Nat) :
    Option WalletDag :=
  -- the wallet list has not changed
  if updatedRootHash = rootHash then some dag
  -- the new wallet list is known from a different fork
  else if DiffDag.isNode dag updatedRootHash then some dag
  else DiffDag.addNode dag updatedRootHash rootHash wallets metadata

/-- Adds the accounts after a block to those of its predecessor. -/
def addWallets (dag : WalletDag) (rootHash : Bytes) (wallets : AccountDiff) (height denomination : Nat) :
    Option (Bytes × WalletDag) :=
  match DiffDag.reconstruct (applyDiff ord) dag rootHash with
  | some (some tree) => do
    let rootHash2 ← computeHash H ord fuel tree wallets height
    let dag2 ← maybeAddNode dag rootHash2 rootHash wallets denomination
    some (rootHash2, dag2)
  | _ => none

/-- The tree of the new sink is hashed, and its hash must be the identifier of the node. -/
def hashSink (rootHash : Bytes) (tree : Patricia.Tree Account) (metadata : Nat) :
    Option (Bytes × Patricia.Tree Account × Nat) := do
  let (hash, updatedTree, _) ← hashWalletList H fuel tree
  if hash = rootHash then some (rootHash, updatedTree, metadata) else none

def setCurrent (dag : WalletDag) (rootHash : Bytes) (height pruneDepth : Nat) : Option WalletDag := do
  let dag1 ← DiffDag.moveSink (applyDiff ord) reverseDiff dag rootHash
  let dag2 ← DiffDag.updateSink ord dag1 rootHash (hashSink H fuel rootHash)
  if height ≥ height22 then DiffDag.filter ord dag2 pruneDepth else none

/-- A request to the process. -/
inductive Request
  | addWallets (rootHash : Bytes) (wallets : AccountDiff) (height denomination : Nat)
  | setCurrent (rootHash : Bytes) (height pruneDepth : Nat)

def handle (dag : WalletDag) : Request → Option WalletDag
  | .addWallets rootHash wallets height denomination =>
    (Wallet.addWallets H ord fuel dag rootHash wallets height denomination).map Prod.snd
  | .setCurrent rootHash height pruneDepth => Wallet.setCurrent H ord fuel dag rootHash height pruneDepth

end Code

/-- The addresses in the request have at most the given length. -/
def Request.Fits (L : Nat) : Request → Prop
  | .addWallets _ wallets _ _ => Wallet.Fits L wallets
  | .setCurrent _ _ _ => True

instance (L : Nat) (r : Request) : Decidable (r.Fits L) :=
  match r with
  | .addWallets _ wallets _ _ => inferInstanceAs (Decidable (Wallet.Fits L wallets))
  | .setCurrent _ _ _ => isTrue trivial

/-- The accounts after the diffs of a branch, from the root on. -/
def branchMap (M : SortedMap Bytes Account) (diffs : List AccountDiff) : SortedMap Bytes Account :=
  diffs.foldl (fun M diff => applyMap diff M) M

/-- The branches of the tree of blocks that the requests add. -/
inductive Branch (H : Digest 48) (M : SortedMap Bytes Account) (requests : List Request) : List AccountDiff → Prop
  | root : Branch H M requests []
  | block {diffs : List AccountDiff} {diff : AccountDiff} {height denomination : Nat} (hparent : Branch H M requests diffs)
      (hadd : .addWallets (rootHash H (branchMap M diffs)) diff height denomination ∈ requests) :
      Branch H M requests (diffs ++ [diff])

variable {H : Digest 48} {ord : DiffDag.Order Bytes} {L fuel : Nat} {M : SortedMap Bytes Account}
  {requests : List Request} {dag dag' : WalletDag} {tree : Patricia.Tree Account}

lemma branchMap_append {diffs : List AccountDiff} {diff : AccountDiff} :
    branchMap M (diffs ++ [diff]) = applyMap diff (branchMap M diffs) := by
  rw [branchMap, List.foldl_append]
  rfl

lemma hashWalletList_sound (hfuel : L + 2 ≤ fuel) (h : Sound H (accountHash H) tree M L) :
    ∃ tree' updates, hashWalletList H fuel tree = some (rootHash H M, tree', updates) ∧
      Sound H (accountHash H) tree' M L :=
  h.computeHash hfuel

/-- The node of a root hash has the accounts of a branch with this root hash. -/
structure Tracks (H : Digest 48) (ord : DiffDag.Order Bytes) (L : Nat) (M : SortedMap Bytes Account)
    (requests : List Request) (dag : WalletDag) : Prop where
  wellFormed : DiffDag.WellFormed dag
  valued : DiffDag.Valued (SameAccounts H L) (Wallet.Fits L) dag
  node : ∀ x, DiffDag.isNode dag x = true → ∃ tree diffs, DiffDag.Value (applyDiff ord) dag x tree ∧
    Sound H (accountHash H) tree (branchMap M diffs) L ∧ Branch H M requests diffs ∧ rootHash H (branchMap M diffs) = x

lemma Tracks.of_values (h : Tracks H ord L M requests dag) (hwf : DiffDag.WellFormed dag')
    (hvalued : DiffDag.Valued (SameAccounts H L) (Wallet.Fits L) dag')
    (hnode : ∀ x, DiffDag.isNode dag' x = true → DiffDag.isNode dag x = true)
    (hvalue : ∀ x tree, DiffDag.isNode dag' x = true → DiffDag.Value (applyDiff ord) dag x tree →
      ∃ tree', DiffDag.Value (applyDiff ord) dag' x tree' ∧ SameAccounts H L tree tree') :
    Tracks H ord L M requests dag' := by
  refine ⟨hwf, hvalued, fun x hx => ?_⟩
  obtain ⟨tree, diffs, hv, hsound, hbranch, hroot⟩ := h.node x (hnode x hx)
  obtain ⟨tree', hv', hsame⟩ := hvalue x tree hx hv
  exact ⟨tree', diffs, hv', hsame.sound hsound, hbranch, hroot⟩

variable (ord requests) in
lemma tracks_initializeState (hfuel : L + 2 ≤ fuel) (h : Sound H (accountHash H) tree M L) (denomination : Nat) :
    ∃ dag, initializeState H fuel tree denomination = some dag ∧ Tracks H ord L M requests dag := by
  obtain ⟨tree', updates, hhash, h'⟩ := hashWalletList_sound hfuel h
  have hlookup : ∀ x, (DiffDag.new (rootHash H M) tree' denomination : WalletDag).sinks.lookup x =
      if x = rootHash H M then some (.sink tree' (0, denomination)) else none := fun x => DiffDag.lookup_new
  refine ⟨DiffDag.new (rootHash H M) tree' denomination, ?_, DiffDag.wellFormed_new _ _ _, ⟨?_, ?_⟩, fun x hx => ?_⟩
  · rw [initializeState, hhash]
    rfl
  · intro x y diff info hx
    rw [hlookup, Option.ite_none_right_eq_some] at hx
    cases hx.2
  · intro e info hx
    rw [hlookup, Option.ite_none_right_eq_some] at hx
    cases hx.2
    exact ⟨M, h', h'⟩
  · obtain ⟨n, hn⟩ := DiffDag.isNode_iff.mp hx
    rw [hlookup, Option.ite_none_right_eq_some] at hn
    refine ⟨tree', [], ?_, h', .root, hn.1.symm⟩
    rw [hn.1]
    exact DiffDag.Value.of_sink rfl (by rw [hlookup]; exact if_pos rfl)

lemma Tracks.addWallets (hfuel : L + 2 ≤ fuel) (h : Tracks H ord L M requests dag) {hash : Bytes} {wallets : AccountDiff}
    {height denomination : Nat} (hmem : .addWallets hash wallets height denomination ∈ requests)
    (hfits : Wallet.Fits L wallets) {result : Bytes × WalletDag}
    (hadd : addWallets H ord fuel dag hash wallets height denomination = some result) :
    Tracks H ord L M requests result.2 := by
  unfold Wallet.addWallets at hadd
  split at hadd
  · rename_i tree hreconstruct
    obtain ⟨hash2, hhash2, hadd⟩ := Option.bind_eq_some_iff.mp hadd
    obtain ⟨dag2, hmaybe, hadd⟩ := Option.bind_eq_some_iff.mp hadd
    cases hadd
    -- the tree of the predecessor
    have hnode : DiffDag.isNode dag hash = true := by
      by_contra hnot
      rw [DiffDag.reconstruct, if_neg hnot] at hreconstruct
      cases hreconstruct
    obtain ⟨tree', diffs, hv, hsound, hbranch, hroot⟩ := h.node hash hnode
    rw [hv.reconstruct h.wellFormed, Option.some.injEq, Option.some.injEq] at hreconstruct
    subst hreconstruct
    obtain ⟨tree2, happly, hsound2⟩ := applyDiff_sound ord hsound hfits
    obtain ⟨tree3, updates, hhash3, -⟩ := hashWalletList_sound hfuel hsound2
    have heq : hash2 = rootHash H (branchMap M (diffs ++ [wallets])) := by
      rw [computeHash, happly, Option.bind_eq_bind, Option.bind_some] at hhash2
      split_ifs at hhash2
      rw [hhash3, Option.map_some, Option.some.injEq] at hhash2
      rw [branchMap_append]
      exact hhash2.symm
    rw [← hroot] at hmem
    unfold maybeAddNode at hmaybe
    split_ifs at hmaybe
    · exact (Option.some.inj hmaybe) ▸ h
    · exact (Option.some.inj hmaybe) ▸ h
    · refine ⟨h.wellFormed.addNode hmaybe, h.valued.addNode hmaybe hfits h.wellFormed, fun x hx => ?_⟩
      rcases DiffDag.isNode_addNode hmaybe hx with rfl | hx
      · obtain ⟨info, hedge⟩ := DiffDag.lookup_addNode_self hmaybe
        refine ⟨tree2, diffs ++ [wallets], .edge hedge (hv.addNode hmaybe) happly, ?_, .block hbranch hmem, heq.symm⟩
        rw [branchMap_append]
        exact hsound2
      · obtain ⟨treeX, diffsX, hvX, hsoundX, hbranchX, hrootX⟩ := h.node x hx
        exact ⟨treeX, diffsX, hvX.addNode hmaybe, hsoundX, hbranchX, hrootX⟩
  · cases hadd

/-- A retained block can be made current, and the sink then has the accounts of its branch. -/
lemma Tracks.setCurrent (hfuel : L + 2 ≤ fuel) (h : Tracks H ord L M requests dag) {hash : Bytes}
    (hnode : DiffDag.isNode dag hash = true) {height : Nat} (hheight : height ≥ height22) (pruneDepth : Nat) :
    ∃ dag' tree diffs, setCurrent H ord fuel dag hash height pruneDepth = some dag' ∧ Tracks H ord L M requests dag' ∧
      dag'.sink = hash ∧ DiffDag.getSink dag' = some tree ∧ Sound H (accountHash H) tree (branchMap M diffs) L ∧
      Branch H M requests diffs ∧ rootHash H (branchMap M diffs) = hash := by
  have U := undoes_diffs H L ord
  obtain ⟨dag1, hmove, hm⟩ := h.wellFormed.moveSink U h.valued hnode
  have h1 : Tracks H ord L M requests dag1 := h.of_values hm.wellFormed hm.valued
    (fun x hx => by rwa [← hm.isNode_eq]) fun x tree _ hv => hm.value x tree hv
  -- the tree of the new sink has the hash of its node
  obtain ⟨tree, diffs, hv, hsound, hbranch, hroot⟩ := h1.node hash (by rwa [hm.isNode_eq])
  obtain ⟨e, ⟨counter, metadata⟩, hsink⟩ := hm.wellFormed.sink
  have hvsink : DiffDag.Value (applyDiff ord) dag1 dag1.sink e := .sink hsink
  rw [hm.sink] at hvsink
  obtain rfl := hv.unique hvsink
  obtain ⟨tree2, updates, hhash, hsound2⟩ := hashWalletList_sound hfuel hsound
  have hfun : hashSink H fuel hash tree metadata = some (hash, tree2, metadata) := by
    rw [hashSink, hhash, Option.bind_eq_bind, Option.bind_some, hroot]
    exact if_pos rfl
  obtain ⟨dag2, hupdate, hr⟩ := hm.wellFormed.renames ord hsink hfun (.inl hm.sink.symm)
  rw [hm.sink] at hupdate
  have hsame : SameAccounts H L tree tree2 := ⟨_, hsound, hsound2⟩
  have hr' : DiffDag.Renames dag1 dag2 dag1.sink tree2 (counter, metadata) := hm.sink ▸ hr
  have h2 : Tracks H ord L M requests dag2 := by
    refine h1.of_values (hr.wellFormed hm.wellFormed) (hr'.valued h1.valued ⟨_, hsound2, hsound2⟩) (fun x hx => ?_)
      fun x tree _ hv => hr'.value U h1.valued hsink hsame hv
    rcases hr.nodes x hx with rfl | ⟨y, d, info, hold⟩
    · rwa [hm.isNode_eq]
    · exact DiffDag.isNode_of_lookup hold
  obtain ⟨dag3, gone, hfilter, hp, -⟩ := h2.wellFormed.filter ord pruneDepth
  have h3 : Tracks H ord L M requests dag3 := h2.of_values (hp.wellFormed h2.wellFormed) (hp.valued h2.valued)
    (fun x hx => (hp.isNode_iff.mp hx).2) fun x tree hx hv => by
      obtain ⟨treeX, diffsX, hvX, hsoundX, -⟩ := h2.node x (hp.isNode_iff.mp hx).2
      obtain rfl := hv.unique hvX
      exact ⟨tree, hp.value (hp.isNode_iff.mp hx).1 hv, _, hsoundX, hsoundX⟩
  refine ⟨dag3, tree2, diffs, ?_, h3, hp.sink.trans hr.sink, ?_, hsound2, hbranch, hroot⟩
  · rw [Wallet.setCurrent, hmove, Option.bind_eq_bind, Option.bind_some, hupdate, Option.bind_some, if_pos hheight,
      hfilter]
  · rw [DiffDag.getSink, hp.lookup, hp.sink, if_neg hp.sinkStays, hr.sink, hr.root]

lemma Tracks.handle (hfuel : L + 2 ≤ fuel) (h : Tracks H ord L M requests dag) {r : Request} (hmem : r ∈ requests)
    (hfits : r.Fits L) (hstep : handle H ord fuel dag r = some dag') : Tracks H ord L M requests dag' := by
  cases r with
  | addWallets hash wallets height denomination =>
    obtain ⟨result, hadd, rfl⟩ := Option.map_eq_some_iff.mp hstep
    exact h.addWallets hfuel hmem hfits hadd
  | setCurrent hash height pruneDepth =>
    have hheight : height ≥ height22 := by
      by_contra hlow
      unfold Wallet.handle Wallet.setCurrent at hstep
      simp [hlow] at hstep
    have hnode : DiffDag.isNode dag hash = true := by
      obtain ⟨dag1, hmove, -⟩ := Option.bind_eq_some_iff.mp hstep
      exact DiffDag.isNode_of_moveSink hmove
    obtain ⟨dag2, tree, diffs, hcurrent, h2, -⟩ := h.setCurrent hfuel hnode hheight _
    rw [Wallet.handle, hcurrent, Option.some.injEq] at hstep
    exact hstep ▸ h2

lemma Tracks.run (hfuel : L + 2 ≤ fuel) (h : Tracks H ord L M requests dag) {rs : List Request}
    (hmem : ∀ r ∈ rs, r ∈ requests) (hfits : ∀ r ∈ rs, r.Fits L) (hrun : rs.foldlM (Wallet.handle H ord fuel) dag = some dag') :
    Tracks H ord L M requests dag' := by
  induction rs generalizing dag with
  | nil => exact (Option.some.inj hrun) ▸ h
  | cons r rs ih =>
    rw [List.foldlM_cons] at hrun
    obtain ⟨dag1, hstep, hrest⟩ := Option.bind_eq_some_iff.mp hrun
    exact ih (h.handle hfuel (hmem r (by simp)) (hfits r (by simp)) hstep) (fun r hr => hmem r (by simp [hr]))
      (fun r hr => hfits r (by simp [hr])) hrest

/-- The requests to a process that starts with the tree of the first block. -/
def runRequests (H : Digest 48) (ord : DiffDag.Order Bytes) (fuel : Nat) (tree : Patricia.Tree Account)
    (denomination : Nat) (requests : List Request) : Option WalletDag :=
  (initializeState H fuel tree denomination).bind fun dag => requests.foldlM (handle H ord fuel) dag

/-- Whatever blocks have been added and made current, a block that is retained can be made current,
and the tree of the sink then has exactly the accounts after the diffs of its branch, as long as
different accounts of the blocks have different root hashes. The reverse of a diff puts every
account of a tree back. -/
theorem reorganisations_exact (H : Digest 48) (ord : DiffDag.Order Bytes) (L fuel : Nat) (hfuel : L + 2 ≤ fuel)
    (ops : List (Patricia.Op Account)) (hops : ∀ op ∈ ops, op.Fits L) (tree : Patricia.Tree Account)
    (htree : Patricia.run H (accountHash H) fuel ops Patricia.new = some tree) (denomination : Nat)
    (requests : List Request) (hfits : ∀ r ∈ requests, r.Fits L)
    (hbind : ∀ diffs diffs', Branch H (contents ops) requests diffs → Branch H (contents ops) requests diffs' →
      rootHash H (branchMap (contents ops) diffs) = rootHash H (branchMap (contents ops) diffs') →
      branchMap (contents ops) diffs = branchMap (contents ops) diffs')
    (dag : WalletDag) (hrun : runRequests H ord fuel tree denomination requests = some dag) :
    (∀ diffs, Branch H (contents ops) requests diffs →
      DiffDag.isNode dag (rootHash H (branchMap (contents ops) diffs)) = true →
      ∀ height pruneDepth, height ≥ height22 → ∃ dag' current,
        setCurrent H ord fuel dag (rootHash H (branchMap (contents ops) diffs)) height pruneDepth = some dag' ∧
        DiffDag.getSink dag' = some current ∧
        ∀ addr, get addr current = (branchMap (contents ops) diffs).lookup addr) ∧
    (∀ diff, Fits L diff → ∃ tree1 tree2, applyDiff ord diff tree = some tree1 ∧
      applyDiff ord (reverseDiff diff tree) tree1 = some tree2 ∧ ∀ addr, get addr tree2 = get addr tree) := by
  obtain ⟨tree', htree', hsound⟩ := sound_run H (accountHash H) hfuel hops
  rw [htree, Option.some.injEq] at htree'
  subst htree'
  constructor
  · obtain ⟨dag0, hinit, h0⟩ := tracks_initializeState ord requests hfuel hsound denomination
    rw [runRequests, hinit, Option.bind_some] at hrun
    have h := h0.run hfuel (fun _ hr => hr) hfits hrun
    intro diffs hbranch hnode height pruneDepth hheight
    obtain ⟨dag', current, diffs', hcurrent, -, -, hsink, hsound', hbranch', hroot⟩ :=
      h.setCurrent hfuel hnode hheight pruneDepth
    refine ⟨dag', current, hcurrent, hsink, fun addr => ?_⟩
    rw [hsound'.represents.get_eq, hbind diffs' diffs hbranch' hbranch hroot]
  · intro diff hdiff
    obtain ⟨tree1, happly, -⟩ := applyDiff_sound ord hsound hdiff
    obtain ⟨tree2, hback, hsound2⟩ := applyDiff_reverseDiff hsound hdiff happly
    refine ⟨tree1, tree2, happly, hback, fun addr => ?_⟩
    rw [hsound2.represents.get_eq, hsound.represents.get_eq]

def rootOps : List (Patricia.Op Account) := [.insert [1] (.v2 10 [] 1 true)]

/-- A fork on the root: one block changes the account and creates another one, the other block
removes an account that does not exist and creates one. -/
def leftDiff : AccountDiff := (SortedMap.empty.insert [1] (some (.v2 7 [] 1 true))).insert [2] (some (.v2 3 [] 1 true))

def rightDiff : AccountDiff := (SortedMap.empty.insert [2] none).insert [3] (some (.v2 5 [] 1 true))

def forkRequests : List Request :=
  let root := contents rootOps
  [.addWallets (rootHash Sha2.sha384 root) leftDiff 600000 1, .addWallets (rootHash Sha2.sha384 root) rightDiff 600000 1,
    .setCurrent (rootHash Sha2.sha384 (branchMap root [leftDiff])) 600001 50,
    .setCurrent (rootHash Sha2.sha384 (branchMap root [rightDiff])) 600001 50]

lemma rootHash_forkRequests : ∀ diffs ∈ [[], [leftDiff], [rightDiff]], ∀ diffs' ∈ [[], [leftDiff], [rightDiff]],
    rootHash Sha2.sha384 (branchMap (contents rootOps) diffs) =
      rootHash Sha2.sha384 (branchMap (contents rootOps) diffs') →
    branchMap (contents rootOps) diffs = branchMap (contents rootOps) diffs' := by
  decide +kernel

lemma branch_forkRequests {diffs : List AccountDiff}
    (h : Branch Sha2.sha384 (contents rootOps) forkRequests diffs) : diffs ∈ [[], [leftDiff], [rightDiff]] := by
  have hleft : rootHash Sha2.sha384 (branchMap (contents rootOps) [leftDiff]) ≠ rootHash Sha2.sha384 (contents rootOps) :=
    fun h => absurd (rootHash_forkRequests _ (by simp) [] (by simp) h) (by decide)
  have hright : rootHash Sha2.sha384 (branchMap (contents rootOps) [rightDiff]) ≠ rootHash Sha2.sha384 (contents rootOps) :=
    fun h => absurd (rootHash_forkRequests _ (by simp) [] (by simp) h) (by decide)
  induction h with
  | root => simp
  | @block diffs diff height denomination _ hadd ih =>
    have hroot : rootHash Sha2.sha384 (branchMap (contents rootOps) diffs) = rootHash Sha2.sha384 (contents rootOps) ∧
        (diff = leftDiff ∨ diff = rightDiff) := by
      simp only [forkRequests, List.mem_cons, Request.addWallets.injEq, reduceCtorEq, List.not_mem_nil, or_false] at hadd
      tauto
    simp only [List.mem_cons, List.not_mem_nil, or_false] at ih
    rcases ih with rfl | rfl | rfl
    · rcases hroot.2 with rfl | rfl <;> simp
    · exact absurd hroot.1 hleft
    · exact absurd hroot.1 hright

theorem reorganisations_exact_forkRequests :
    ∃ tree dag, Patricia.run Sha2.sha384 (accountHash Sha2.sha384) 3 rootOps Patricia.new = some tree ∧
      runRequests Sha2.sha384 (DiffDag.ascending Bytes) 3 tree 1 forkRequests = some dag ∧
      (∀ diffs, Branch Sha2.sha384 (contents rootOps) forkRequests diffs →
        DiffDag.isNode dag (rootHash Sha2.sha384 (branchMap (contents rootOps) diffs)) = true →
        ∀ height pruneDepth, height ≥ height22 → ∃ dag' current,
          setCurrent Sha2.sha384 (DiffDag.ascending Bytes) 3 dag
            (rootHash Sha2.sha384 (branchMap (contents rootOps) diffs)) height pruneDepth = some dag' ∧
          DiffDag.getSink dag' = some current ∧
          ∀ addr, get addr current = (branchMap (contents rootOps) diffs).lookup addr) ∧
      (∀ diff, Fits 1 diff → ∃ tree1 tree2, applyDiff (DiffDag.ascending Bytes) diff tree = some tree1 ∧
        applyDiff (DiffDag.ascending Bytes) (reverseDiff diff tree) tree1 = some tree2 ∧
        ∀ addr, get addr tree2 = get addr tree) := by
  have hrun : ((Patricia.run Sha2.sha384 (accountHash Sha2.sha384) 3 rootOps Patricia.new).bind fun tree =>
      runRequests Sha2.sha384 (DiffDag.ascending Bytes) 3 tree 1 forkRequests).isSome = true := by decide +kernel
  obtain ⟨dag, hdag⟩ := Option.isSome_iff_exists.mp hrun
  obtain ⟨tree, htree, hrequests⟩ := Option.bind_eq_some_iff.mp hdag
  exact ⟨tree, dag, htree, hrequests, reorganisations_exact Sha2.sha384 (DiffDag.ascending Bytes) 1 3 (by decide) rootOps
    (by decide) tree htree 1 forkRequests (by decide)
    (fun diffs diffs' h h' => rootHash_forkRequests diffs (branch_forkRequests h) diffs' (branch_forkRequests h')) dag hrequests⟩

end Arweave.Wallet
