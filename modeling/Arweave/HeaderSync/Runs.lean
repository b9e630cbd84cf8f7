import Arweave.HeaderSync.Covered

/-!
# Messages and crashes

Every message keeps the record and the stored record sound, wherever a crash cuts its writes off, but
for two: a new tip that replaces a recorded block at its own height or below the old tip loses its
header to the removal of the old branch, and a removed block stays in the stored record.
-/

namespace Arweave.HeaderSync
open Arweave.Lib Arweave.BlockIndex Arweave.Intervals

variable {A : Ancestry Bytes} {element : Bytes → Element} {headers headers' : SortedMap Int (Bytes × Bytes)}
  {bi recentBI : List Element} {h x tip newTip nodeTip : Bytes} {t : Table} {height base : Int} {d : Disk} {s s' : State}
  {env : Environment} {b : Block} {writes : List Write}

section Promises

variable (A element)

/-- A block that is taken from the chain of the tip. The node may have gone on from the tip. -/
structure Known (env : Environment) (tip : Bytes) (b : Block) : Prop where
  le : b.height ≤ A.height tip
  old : b.height < Fork.height_2_0 → b.indepHash ∈ A.path tip ∧ A.height b.indepHash = b.height
  new : Fork.height_2_0 ≤ b.height → env.isJoined = true →
    ∃ nodeTip, tip ∈ A.path nodeTip ∧ Represents env.index ((A.path nodeTip).reverse.map element)

/-- What the node promises with its messages: a tip comes with its recent block index, and the other
blocks are of the chain that the process follows. -/
def Promised (s : State) (env : Environment) : Message → Prop
  | .join height recentBI blocks =>
    ∃ tip nodeTip, IsRecent A element tip recentBI ∧ height = A.height tip ∧ (∀ b ∈ blocks, Known A element env tip b) ∧
      tip ∈ A.path nodeTip ∧ Represents env.index ((A.path nodeTip).reverse.map element) ∧
      min (A.height nodeTip : Int) s.height ≤ A.height tip
  | .addTipBlock b recentBI => IsRecent A element b.indepHash recentBI ∧ A.height b.indepHash = b.height
  | .addHistoricalBlock b | .addBlock b => ∃ e ∈ s.blockIndex.head?, Known A element env e.h b
  | _ => True

/-- A new tip that is recorded is higher than the stored one or on its chain, and a removed block is not in
the stored record. -/
def Orderly (s : Server) (env : Environment) : Message → Prop
  | .addTipBlock b _ => Records env s.state b →
    s.state.height < b.height ∨ ∃ e ∈ s.state.blockIndex.head?, b.indepHash ∈ A.path e.h
  | .removeBlock height => ∀ stored ∈ s.disk.stored, isInside stored.syncRecord height = false
  | _ => True

variable {A element}

lemma Known.fits (hroot : A.Rooted) (hh : ∀ x, (element x).h = x) (hknown : Known A element env tip b)
    (hfork : checkFork env b = some true) : b.indepHash ∈ A.path tip ∧ A.height b.indepHash = b.height := by
  unfold checkFork at hfork
  split_ifs at hfork with hold
  · exact hknown.old hold
  unfold getBlockIndexEntry at hfork
  split_ifs at hfork with hjoined
  · obtain ⟨nodeTip, htip, hindex⟩ := hknown.new (Nat.le_of_not_lt hold) hjoined
    rw [hindex.getElementByHeight_eq, Option.map_some, Option.some.injEq] at hfork
    cases hentry : atHeight ((A.path nodeTip).reverse.map element) b.height with
    | none =>
      rw [hentry] at hfork
      cases hfork
    | some e =>
      rw [hentry] at hfork
      obtain ⟨-, hget⟩ := atHeight_eq_some.mp hentry
      rw [Int.toNat_natCast, List.getElem?_map, Option.map_eq_some_iff] at hget
      obtain ⟨x, hx, rfl⟩ := hget
      rw [Ancestry.getElem?_reverse_path hroot] at hx
      have hxb : x = b.indepHash := by rw [← (of_decide_eq_true hfork).1, hh]
      rw [hxb] at hx
      exact ⟨Ancestry.mem_path_of_height_le htip hx.1 (hx.2.trans_le hknown.le), hx.2⟩
  · cases hfork

end Promises

lemma getBaseHeight_eq_some (hbase : getBaseHeight bi height recentBI = some base) :
    ∃ before e after, bi = before ++ e :: after ∧ base = height - before.length ∧ (∃ e' ∈ recentBI, e'.h = e.h) ∧
      ∀ x ∈ before, ∀ e' ∈ recentBI, e'.h ≠ x.h := by
  induction bi generalizing height with
  | nil => cases hbase
  | cons e bi ih =>
    rw [getBaseHeight] at hbase
    split_ifs at hbase with hany
    · cases hbase
      refine ⟨[], e, bi, rfl, by simp, ?_, by simp⟩
      simpa using hany
    · obtain ⟨before, e', after, rfl, rfl, hmem, hbefore⟩ := ih hbase
      refine ⟨e :: before, e', after, rfl, by push_cast [List.length_cons]; ring, hmem, ?_⟩
      simp only [List.any_eq_true, decide_eq_true_eq, not_exists, not_and] at hany
      simp only [List.mem_cons, forall_eq_or_imp]
      exact ⟨hany, hbefore⟩

lemma IsRecent.mem_path (hh : ∀ x, (element x).h = x) (hrecent : IsRecent A element tip bi) {e : Element} (he : e ∈ bi) :
    e.h ∈ A.path tip := by
  obtain ⟨n, rfl⟩ := hrecent
  obtain ⟨x, hx, rfl⟩ := List.mem_map.mp he
  rw [hh]
  exact List.mem_of_mem_take hx

lemma exists_base (hroot : A.Rooted) (hh : ∀ x, (element x).h = x) (hrecent : IsRecent A element tip bi)
    (hnew : IsRecent A element newTip recentBI) (hbase : getBaseHeight bi (A.height tip) recentBI = some base) :
    ∃ x ∈ A.path tip, x ∈ A.path newTip ∧ base = A.height x ∧ (newTip ∈ A.path tip → x = newTip) := by
  obtain ⟨before, e, after, hbi, rfl, ⟨e', he', heq⟩, hbefore⟩ := getBaseHeight_eq_some hbase
  obtain ⟨top, htop, htopTip⟩ := hnew.head? hh
  obtain ⟨n, rfl⟩ := hrecent
  have hget : ∀ k ≤ before.length, (before ++ e :: after)[k]? = ((A.path tip)[k]?).map element := by
    intro k hk
    have hlt : k < (((A.path tip).take (n + 1)).map element).length := by
      rw [hbi, List.length_append, List.length_cons]
      omega
    rw [List.length_map, List.length_take] at hlt
    rw [← hbi, List.getElem?_map, List.getElem?_take_of_lt (by omega)]
  have he := hget before.length le_rfl
  rw [List.getElem?_append_right le_rfl, Nat.sub_self, List.getElem?_cons_zero, eq_comm, Option.map_eq_some_iff] at he
  obtain ⟨x, hx, rfl⟩ := he
  rw [Ancestry.getElem?_path hroot] at hx
  have hxnew : x ∈ A.path newTip := by
    rw [← hh x, ← heq]
    exact hnew.mem_path hh he'
  refine ⟨x, hx.1, hxnew, by omega, fun hmem => ?_⟩
  have hle := Ancestry.height_le_of_mem_path hxnew
  have hle' := Ancestry.height_le_of_mem_path hmem
  by_contra hne
  have hlt : A.height tip - A.height newTip < before.length := by
    by_contra hge
    exact hne (Ancestry.eq_of_mem_path hxnew (by omega)).symm
  -- a new tip above the common ancestor would have been found before
  have hfound := hget (A.height tip - A.height newTip) hlt.le
  rw [(Ancestry.getElem?_path hroot).mpr ⟨hmem, by omega⟩, List.getElem?_append_left hlt] at hfound
  apply hbefore (element newTip) (List.mem_of_getElem? hfound) top (List.mem_of_mem_head? htop)
  rw [htopTip, hh]

lemma exists_intersection (hroot : A.Rooted) (hh : ∀ x, (element x).h = x) (hrecent : IsRecent A element tip bi)
    (ht : Represents t ((A.path nodeTip).reverse.map element)) {I : Nat} {e : Element}
    (hinter : t.getIntersectionAt height bi = some (I, e)) :
    ∃ x ∈ A.path tip, x ∈ A.path nodeTip ∧ A.height x = I := by
  rw [ht.getIntersectionAt_eq, intersectionAt] at hinter
  dsimp only at hinter
  split_ifs at hinter with hneg hzero
  obtain ⟨_, -, hpair⟩ := Option.map_eq_some_iff.mp hinter
  obtain ⟨e1, he1, e2, he2, heq⟩ := agreeAt_of_lt_agreement (Nat.sub_one_lt hzero)
  rw [Option.mem_def, List.getElem?_drop, List.getElem?_map, Option.map_eq_some_iff] at he1
  obtain ⟨x, hx, rfl⟩ := he1
  rw [Ancestry.getElem?_reverse_path hroot] at hx
  refine ⟨x, ?_, hx.1, ?_⟩
  · rw [← hh x, heq]
    exact hrecent.mem_path hh (List.mem_reverse.mp (List.mem_of_getElem? he2))
  · rw [hx.2, ← (Prod.mk.inj hpair).1]
    omega

/-- The writes keep the disk sound wherever they are cut off, and all of them the whole process. -/
def Keeps (A : Ancestry Bytes) (element : Bytes → Element) (d : Disk) (writes : List Write) (s' : State) : Prop :=
  Safe A element d writes ∧ Server.Sound A element ⟨writes.foldl Disk.apply d, s'⟩

lemma sound_of_memory (hmemory : Sound A element headers s.stored) :
    Server.Sound A element ⟨⟨headers, some s.stored⟩, s⟩ where
  disk := by
    intro stored hin
    cases hin
    exact hmemory
  memory := hmemory
  agree := by
    intro stored hin
    cases hin
    exact ⟨rfl, rfl⟩

lemma Sound.of_lookup {stored : Stored} (hsound : Sound A element headers stored)
    (heq : ∀ height, isInside stored.syncRecord height = true → headers'.lookup height = headers.lookup height) :
    Sound A element headers' stored :=
  ⟨hsound.canonical, hsound.covered.of_lookup heq, hsound.recent⟩

lemma keeps_nil (hs : Server.Sound A element ⟨d, s⟩) (heq : s'.stored = s.stored) : Keeps A element d [] s' := by
  refine ⟨survives_nil hs.disk, hs.disk, ?_, fun stored hin => ?_⟩
  · rw [heq]
    exact hs.memory
  · have hheight : s'.height = s.height := congrArg Stored.height heq
    have hindex : s'.blockIndex = s.blockIndex := congrArg Stored.blockIndex heq
    rw [hheight, hindex]
    exact hs.agree stored hin

lemma keeps_addBlock (hroot : A.Rooted) (hh : ∀ x, (element x).h = x) (hs : Server.Sound A element ⟨d, s⟩)
    (hknown : ∃ e ∈ s.blockIndex.head?, Known A element env e.h b) (hadd : addBlock env b s = some (writes, s')) :
    Keeps A element d writes s' := by
  obtain ⟨hsafe, hstored, hmemory, hheight, hindex⟩ := addBlock_sound hadd hs.disk hs.memory fun hrecords => by
    obtain ⟨e, he, hknown⟩ := hknown
    obtain ⟨hmem, hb⟩ := hknown.fits hroot hh hrecords.1
    refine ⟨hb, ⟨e, he, hmem⟩, fun stored hin _ e' he' => ?_⟩
    rw [(hs.agree stored hin).2] at he'
    rw [Option.mem_unique he' he]
    exact hmem
  refine ⟨hsafe, Safe.sound hsafe, hmemory, fun stored hin => ?_⟩
  rw [hheight, hindex]
  exact hs.agree stored (hstored ▸ hin)

lemma keeps_storeSyncState (hs : Server.Sound A element ⟨d, s⟩) : Keeps A element d [storeSyncState s] s :=
  ⟨survives_singleton hs.disk (sound_of_memory hs.memory).disk, sound_of_memory hs.memory⟩

lemma Sound.delete (s' : State) (hmemory : Sound A element headers s.stored)
    (hdelete : delete s.syncRecord height (height - 1) = some s'.syncRecord) (hheight : s'.height = s.height)
    (hindex : s'.blockIndex = s.blockIndex) :
    Sound A element headers s'.stored ∧ Sound A element (headers.erase height) s'.stored := by
  obtain ⟨hcanonical, hinside⟩ := delete_height hmemory.canonical hdelete
  have hsound : Sound A element headers s'.stored := by
    refine ⟨hcanonical, fun n hin => ?_, ?_⟩
    · change ∃ h prevH, _ ∧ ∃ e ∈ s'.blockIndex.head?, _
      rw [hindex]
      exact hmemory.covered n ((hinside n).mp hin).1
    · change s'.blockIndex = [] ∨ ∃ tip, IsRecent A element tip s'.blockIndex ∧ s'.height = A.height tip
      rw [hindex, hheight]
      exact hmemory.recent
  refine ⟨hsound, hsound.of_lookup fun n hin => ?_⟩
  rw [SortedMap.lookup_erase, if_neg ((hinside n).mp hin).2]

lemma keeps_removeBlock (hs : Server.Sound A element ⟨d, s⟩)
    (hnot : ∀ stored ∈ d.stored, isInside stored.syncRecord height = false)
    (hremove : removeBlock height s = some (writes, s')) : Keeps A element d writes s' := by
  simp only [removeBlock, Option.bind_eq_bind, Option.bind_eq_some_iff] at hremove
  obtain ⟨syncRecord, hdelete, h⟩ := hremove
  cases h
  have hdisk : (d.apply (.delete height)).Sound A element := by
    intro stored hin
    refine (hs.disk stored hin).of_lookup fun n hn => ?_
    have hne : n ≠ height := by
      rintro rfl
      rw [hnot stored hin] at hn
      cases hn
    exact SortedMap.lookup_erase.trans (if_neg hne)
  have hmemory := (Sound.delete { s with syncRecord := syncRecord } hs.memory hdelete rfl rfl).2
  exact ⟨survives_singleton hs.disk hdisk, hdisk, hmemory, hs.agree⟩

lemma keeps_preparingUnblacklisting {height : Option Int} (hs : Server.Sound A element ⟨d, s⟩)
    (hprepare : preparingUnblacklisting height s = some (writes, s')) : Keeps A element d writes s' := by
  cases height with
  | none =>
    cases hprepare
    exact keeps_nil hs rfl
  | some height =>
    simp only [preparingUnblacklisting, Option.bind_eq_bind, Option.bind_eq_some_iff] at hprepare
    obtain ⟨syncRecord, hdelete, retryRecord, -, h⟩ := hprepare
    cases h
    obtain ⟨hbefore, hafter⟩ := Sound.delete { s with syncRecord := syncRecord, retryRecord := retryRecord }
      hs.memory hdelete rfl rfl
    exact ⟨survives_pair hs.disk (fun _ => (sound_of_memory hbefore).disk) (sound_of_memory hafter).disk,
      sound_of_memory hafter⟩

lemma keeps_store_deleteRange (start stop : Int) (hdisk : d.Sound A element) (hmemory : Sound A element d.headers s.stored)
    (hnot : ∀ height, isInside s.syncRecord height = true → ¬(start ≤ height ∧ height < stop)) :
    Keeps A element d [storeSyncState s, .deleteRange start stop] s := by
  have hafter : Sound A element (d.headers.deleteRange start stop) s.stored :=
    hmemory.of_lookup fun height hin => lookup_deleteRange_of_not (hnot height hin)
  exact ⟨survives_pair hdisk (fun _ => (sound_of_memory hmemory).disk) (sound_of_memory hafter).disk,
    sound_of_memory hafter⟩

lemma Keeps.append {writes' : List Write} (hsafe : Safe A element d writes)
    (hkeeps : Keeps A element (writes.foldl Disk.apply d) writes' s') : Keeps A element d (writes ++ writes') s' := by
  refine ⟨hsafe.append hkeeps.1, ?_⟩
  rw [List.foldl_append]
  exact hkeeps.2

lemma keeps_addTipBlock (hroot : A.Rooted) (hh : ∀ x, (element x).h = x) (hs : Server.Sound A element ⟨d, s⟩)
    (hnew : IsRecent A element b.indepHash recentBI) (hb : A.height b.indepHash = b.height)
    (horderly : Records env s b → s.height < b.height ∨ ∃ e ∈ s.blockIndex.head?, b.indepHash ∈ A.path e.h)
    (htip : addTipBlock env b recentBI s = some (writes, s')) : Keeps A element d writes s' := by
  simp only [addTipBlock, Option.bind_eq_bind, Option.bind_eq_some_iff, Prod.exists] at htip
  obtain ⟨base, hbase, puts, s3, hadd, htip⟩ := htip
  obtain hnil | ⟨tip, hrecent, hheight⟩ := hs.memory.recent
  · change s.blockIndex = [] at hnil
    rw [hnil] at hbase
    cases hbase
  change IsRecent A element tip s.blockIndex at hrecent
  change s.height = A.height tip at hheight
  rw [hheight] at hbase
  obtain ⟨x, hx, hxnew, rfl, hsame⟩ := exists_base hroot hh hrecent hnew hbase
  obtain ⟨top, htop, htopTip⟩ := hrecent.head? hh
  obtain ⟨top', htop', htopNew⟩ := hnew.head? hh
  -- a recorded height of the new tip has its block already
  have hfits : ∀ stored, stored.blockIndex = s.blockIndex → Sound A element d.headers stored → Records env s b →
      isInside stored.syncRecord b.height = true → ∀ e ∈ stored.blockIndex.head?, b.indepHash ∈ A.path e.h := by
    intro stored hindex hsound hrecords hin e he
    obtain ⟨e', he', hle⟩ := hsound.covered.le_height hin
    rw [hindex] at he he'
    rw [Option.mem_unique he' htop, htopTip] at hle
    obtain hlt | ⟨e'', he'', hmem⟩ := horderly hrecords
    · omega
    · rwa [Option.mem_unique he he'']
  have hcut : Sound A element d.headers ⟨cut s.syncRecord (A.height x), b.height, recentBI⟩ := by
    refine hs.memory.cut (Or.inr ⟨b.indepHash, hnew, by rw [hb]⟩) rfl fun e he => ⟨top', htop', fun z hz hle => ?_⟩
    rw [Option.mem_unique he htop, htopTip] at hz
    rw [htopNew]
    exact Ancestry.mem_path_trans hxnew (Ancestry.mem_path_of_height_le hx hz (by exact_mod_cast hle))
  obtain ⟨hsafe, hstored, hmemory, hheight3, hindex3⟩ := addBlock_sound hadd hs.disk hcut fun hrecords => by
    refine ⟨hb, ⟨top', htop', by rw [htopNew]; exact Ancestry.self_mem_path⟩, fun stored hin => ?_⟩
    exact hfits stored (hs.agree stored hin).2 (hs.disk stored hin) hrecords
  split_ifs at htip with hwritten
  · cases htip
    refine Keeps.append hsafe (keeps_store_deleteRange _ _ (Safe.sound hsafe) hmemory fun height hin => ?_)
    have hold : ∀ n, isInside (cut s.syncRecord (A.height x)) n = true → n ≤ A.height x := fun n hn =>
      ((isInside_cut hs.memory.canonical n).mp hn).2
    obtain ⟨-, rfl⟩ | ⟨hrecords, -, -, -, hrecord⟩ := addBlock_cases hadd
    · have := hold height hin
      omega
    · obtain hin | rfl := ((add_height hcut.canonical hrecord).2 height).mp hin
      · have := hold height hin
        omega
      · obtain hlt | ⟨e, he, hmem⟩ := horderly hrecords
        · omega
        · rw [Option.mem_unique he htop, htopTip] at hmem
          rw [hsame hmem, hb]
          omega
  · cases htip
    refine ⟨hsafe, Safe.sound hsafe, ?_, fun stored hin => hs.agree stored (hstored ▸ hin)⟩
    obtain ⟨rfl, -⟩ | ⟨hrecords, rfl, -⟩ := addBlock_cases hadd
    · exact hs.memory
    · exact ⟨hs.memory.canonical, hs.memory.covered.put (by rw [hb]) (hfits s.stored rfl hs.memory hrecords),
        hs.memory.recent⟩

lemma keeps_addBlocks {blocks : List Block} (hdisk : d.Sound A element) (hmemory : Sound A element d.headers s.stored)
    (hfits : ∀ b ∈ blocks, checkFork env b = some true → Fits A d.stored s.blockIndex b)
    (hblocks : addBlocks env blocks s = some (writes, s')) : Keeps A element d (writes ++ [storeSyncState s']) s' := by
  obtain ⟨hsafe, hmemory'⟩ := addBlocks_sound hblocks hdisk hmemory hfits
  exact Keeps.append hsafe ⟨survives_singleton (Safe.sound hsafe) (sound_of_memory hmemory').disk,
    sound_of_memory hmemory'⟩

lemma keeps_join {n : Nat} {blocks : List Block} (hroot : A.Rooted) (hh : ∀ x, (element x).h = x)
    (hs : Server.Sound A element ⟨d, s⟩) (hpromised : Promised A element s env (.join n recentBI blocks))
    (hjoin : join env n recentBI blocks s = some (writes, s')) : Keeps A element d writes s' := by
  obtain ⟨tip, nodeTip, hnew, hn, hblocks, htip, hindex, hmin⟩ := hpromised
  obtain ⟨top, htop, htopTip⟩ := hnew.head? hh
  have hfits : ∀ term : Option Stored, (∀ stored ∈ term, ∀ e ∈ stored.blockIndex.head?, e ∈ recentBI.head?) →
      ∀ b ∈ blocks, checkFork env b = some true → Fits A term recentBI b := by
    intro term hterm b hmem hfork
    obtain ⟨hchain, hheight⟩ := (hblocks b hmem).fits hroot hh hfork
    refine ⟨hheight, ⟨top, htop, by rwa [htopTip]⟩, fun stored hin _ e he => ?_⟩
    rwa [Option.mem_unique (hterm stored hin e he) htop, htopTip]
  have hrecent : recentBI = [] ∨ ∃ tip, IsRecent A element tip recentBI ∧ (n : Int) = A.height tip :=
    Or.inr ⟨tip, hnew, by rw [hn]⟩
  simp only [join, Option.bind_eq_bind, Option.bind_eq_some_iff, Prod.exists] at hjoin
  obtain ⟨writes1, s3, hfirst, writes2, s4, hrest, h⟩ := hjoin
  cases h
  rw [List.append_assoc]
  unfold intersect at hfirst
  dsimp only at hfirst
  split at hfirst
  · next hnil =>
    cases hfirst
    have hempty : ∀ stored : Stored, stored.blockIndex = [] → ∀ e ∈ stored.blockIndex.head?, e ∈ recentBI.head? := by
      intro stored hstored e he
      rw [hstored] at he
      cases he
    have hstart : Sound A element d.headers ⟨s.syncRecord, n, recentBI⟩ := by
      refine ⟨hs.memory.canonical, fun height hin => ?_, hrecent⟩
      obtain ⟨-, -, -, e, he, -⟩ := hs.memory.covered height hin
      change e ∈ s.blockIndex.head? at he
      rw [hnil] at he
      cases he
    exact keeps_addBlocks (s := { s with height := n, blockIndex := recentBI }) hs.disk hstart
      (hfits _ fun stored hin => hempty stored ((hs.agree stored hin).2.trans hnil)) hrest
  · cases hfirst
  · next I e hinter hne =>
    cases hfirst
    obtain hnil | ⟨oldTip, hold, hheight⟩ := hs.memory.recent
    · exact absurd hnil hne
    change s.height = A.height oldTip at hheight
    obtain ⟨x, hx, hxnode, hxI⟩ := exists_intersection hroot hh hold hindex hinter
    obtain ⟨oldTop, holdTop, holdTip⟩ := hold.head? hh
    have hcut : Sound A element d.headers ⟨cut s.syncRecord I, n, recentBI⟩ := by
      refine hs.memory.cut hrecent rfl fun e' he' => ⟨top, htop, fun z hz hle => ?_⟩
      rw [Option.mem_unique he' holdTop, holdTip] at hz
      have hleNode := Ancestry.height_le_of_mem_path hxnode
      have hleOld := Ancestry.height_le_of_mem_path hx
      rw [htopTip]
      exact Ancestry.mem_path_of_height_le htip (Ancestry.mem_path_trans hxnode
        (Ancestry.mem_path_of_height_le hx hz (by omega))) (by omega)
    have hkeeps := keeps_store_deleteRange (I + 1) (s.height + 1)
      (s := { s with
        height := n
        blockIndex := recentBI
        syncRecord := cut s.syncRecord I
        retryRecord := cut s.retryRecord I }) hs.disk hcut fun height hin => by
          have := ((isInside_cut hs.memory.canonical height).mp hin).2
          omega
    refine Keeps.append hkeeps.1 (keeps_addBlocks hkeeps.2.disk hkeeps.2.memory (hfits _ fun stored hin e' he' => ?_) hrest)
    cases hin
    exact he'

lemma processItem_stored (hitem : processItem env s = some (writes, s')) : writes = [] ∧ s'.stored = s.stored := by
  unfold processItem at hitem
  split_ifs at hitem
  · cases hitem
    exact ⟨rfl, rfl⟩
  obtain ⟨height, -, hitem⟩ := Option.bind_eq_some_iff.mp hitem
  cases height with
  | none =>
    cases hitem
    exact ⟨rfl, rfl⟩
  | some height =>
    obtain ⟨entry, -, hitem⟩ := Option.bind_eq_some_iff.mp hitem
    cases entry with
    | none =>
      cases hitem
      exact ⟨rfl, rfl⟩
    | some e =>
      obtain ⟨retryRecord, -, hitem⟩ := Option.bind_eq_some_iff.mp hitem
      cases hitem
      exact ⟨rfl, rfl⟩

lemma remainingDiskSpace_stored (bytes buffers : Nat) (s : State) :
    (remainingDiskSpace bytes buffers s).stored = s.stored := by
  unfold remainingDiskSpace
  dsimp only
  split_ifs
  all_goals rfl

lemma keeps_handle {message : Message} (hroot : A.Rooted) (hh : ∀ x, (element x).h = x)
    (hs : Server.Sound A element ⟨d, s⟩) (hpromised : Promised A element s env message)
    (horderly : Orderly A ⟨d, s⟩ env message) (hhandle : handle env s message = some (writes, s')) :
    Keeps A element d writes s' := by
  cases message with
  | join height recentBI blocks => exact keeps_join hroot hh hs hpromised hhandle
  | addTipBlock b recentBI => exact keeps_addTipBlock hroot hh hs hpromised.1 hpromised.2 horderly hhandle
  | addHistoricalBlock b =>
    simp only [handle, addHistoricalBlock] at hhandle
    split_ifs at hhandle
    · cases hhandle
      exact keeps_nil hs rfl
    · exact keeps_addBlock hroot hh hs hpromised hhandle
  | addBlock b => exact keeps_addBlock hroot hh hs hpromised hhandle
  | processItem =>
    obtain ⟨rfl, hstored⟩ := processItem_stored hhandle
    exact keeps_nil hs hstored
  | removeBlock height => exact keeps_removeBlock hs horderly hhandle
  | storeSyncState =>
    simp only [handle] at hhandle
    split_ifs at hhandle
    · cases hhandle
      exact keeps_storeSyncState hs
    · cases hhandle
      exact keeps_nil hs rfl
  | preparingUnblacklisting height => exact keeps_preparingUnblacklisting hs hhandle
  | remainingDiskSpace bytes buffers =>
    cases hhandle
    exact keeps_nil hs (remainingDiskSpace_stored bytes buffers s)

lemma sound_start (hdisk : d.Sound A element) : (Server.start d).Sound A element := by
  unfold Server.start init
  cases hterm : d.stored with
  | none =>
    refine ⟨hdisk, ⟨?_, fun height hin => ?_, Or.inl rfl⟩, fun stored hin => ?_⟩
    · change Separated (family new)
      rw [family_new]
      exact Separated.empty
    · cases hin
    · rw [hterm] at hin
      cases hin
  | some stored =>
    refine ⟨hdisk, hdisk stored hterm, fun stored' hin => ?_⟩
    rw [hterm] at hin
    cases hin
    exact ⟨rfl, rfl⟩

lemma sound_step {s : Server} {event : Event} (hroot : A.Rooted) (hh : ∀ x, (element x).h = x)
    (hs : s.Sound A element) (hpromised : Promised A element s.state event.env event.message)
    (horderly : Orderly A s event.env event.message) : (s.step event).Sound A element := by
  unfold Server.step
  split
  · exact sound_start hs.disk
  · next writes state hhandle hcrash => exact (keeps_handle hroot hh hs hpromised horderly hhandle).2
  · next writes state k hhandle hcrash =>
    exact sound_start ((keeps_handle hroot hh hs hpromised horderly hhandle).1 k fun _ _ => id)

lemma sound_run (hroot : A.Rooted) (hh : ∀ x, (element x).h = x) {events : List Event}
    (h : ∀ before event after, events = before ++ event :: after →
      Promised A element (run before).state event.env event.message ∧ Orderly A (run before) event.env event.message) :
    (run events).Sound A element := by
  induction events using List.reverseRecOn with
  | nil =>
    apply sound_start
    rintro _ ⟨⟩
  | append_singleton events event ih =>
    rw [run, List.foldl_append]
    obtain ⟨hpromised, horderly⟩ := h events event [] rfl
    refine sound_step hroot hh (ih fun before event' after heq => ?_) hpromised horderly
    exact h before event' (after ++ [event]) (by rw [heq]; simp)

/-- In every run in which new tips that are recorded are higher than the stored tip or on its chain, and no
block of the stored record is removed, the record in memory and the stored one have the header of the
block of the chain at each of their heights, wherever the process crashes. -/
theorem recorded_headers_present (A : Ancestry Bytes) (hroot : A.Rooted) (element : Bytes → Element)
    (hh : ∀ x, (element x).h = x) (events : List Event)
    (h : ∀ before event after, events = before ++ event :: after →
      Promised A element (run before).state event.env event.message ∧ Orderly A (run before) event.env event.message) :
    Covered A (run events).disk.headers (run events).state.stored ∧
      ∀ stored ∈ (run events).disk.stored, Covered A (run events).disk.headers stored := by
  have hsound := sound_run hroot hh h
  exact ⟨hsound.memory.covered, fun stored hin => (hsound.disk stored hin).covered⟩

/-- A chain of three blocks, and a block beside the second one. -/
def forkedChain : Ancestry Bytes where
  parent x := if x = [1] ∨ x = [3] then some [0] else if x = [2] then some [1] else none
  height x := if x = [1] ∨ x = [3] then 1 else if x = [2] then 2 else 0
  height_eq := by
    intro x y h
    split_ifs at h with h1 h2
    · cases h
      rw [if_pos h1]
      rfl
    · cases h
      rw [if_neg h1, if_pos h2]
      rfl

lemma forkedChain_rooted : forkedChain.Rooted := by
  intro x h
  simp only [forkedChain] at h ⊢
  split_ifs at h ⊢
  rfl

def forkedElement (x : Bytes) : Element := ⟨x, 5, []⟩

def forkedBlock (x : Bytes) : Block := ⟨forkedChain.height x, x, (forkedChain.parent x).getD [], []⟩

def forkedEnvironment : Environment where
  isJoined := true
  index := Table.init [forkedElement [1], forkedElement [0]]
  writeFullBlock := fun _ => true
  writeTerm := true

def joinEvent : Event :=
  ⟨forkedEnvironment, .join 1 [forkedElement [1], forkedElement [0]] [forkedBlock [1], forkedBlock [0]], none⟩

/-- A tip above the old one. -/
def extension (crash : Option Nat) : Event :=
  ⟨forkedEnvironment, .addTipBlock (forkedBlock [2]) [forkedElement [2], forkedElement [1]], crash⟩

/-- A tip as high as the old one. -/
def replacement : Event :=
  ⟨forkedEnvironment, .addTipBlock (forkedBlock [3]) [forkedElement [3], forkedElement [0]], none⟩

def removal : Event := ⟨forkedEnvironment, .removeBlock 1, none⟩

lemma known_forkedBlock (hx : x ∈ forkedChain.path [1]) : Known forkedChain forkedElement forkedEnvironment [1] (forkedBlock x) where
  le := Ancestry.height_le_of_mem_path hx
  old _ := ⟨hx, rfl⟩
  new hle _ := by
    have hheight : forkedChain.height x ≤ 1 := Ancestry.height_le_of_mem_path hx
    have hle : Fork.height_2_0 ≤ forkedChain.height x := hle
    rw [Fork.height_2_0] at hle
    omega

lemma promised_joinEvent (s : State) : Promised forkedChain forkedElement s joinEvent.env joinEvent.message := by
  have hindex : Represents forkedEnvironment.index ((forkedChain.path [1]).reverse.map forkedElement) :=
    init_represents (show Nondecreasing [forkedElement [1], forkedElement [0]].reverse by decide)
  refine ⟨[1], [1], ⟨1, by decide⟩, by decide, ?_, Ancestry.self_mem_path, hindex, min_le_left _ _⟩
  intro b hb
  simp only [List.mem_cons, List.not_mem_nil, or_false] at hb
  obtain rfl | rfl := hb
  · exact known_forkedBlock Ancestry.self_mem_path
  · exact known_forkedBlock (by decide)

/-- A crash after the header of the new tip has been put, and the tip once more. -/
theorem recorded_headers_present_extension :
    Covered forkedChain (run [joinEvent, extension (some 1), extension none]).disk.headers
        (run [joinEvent, extension (some 1), extension none]).state.stored ∧
      ∀ stored ∈ (run [joinEvent, extension (some 1), extension none]).disk.stored,
        Covered forkedChain (run [joinEvent, extension (some 1), extension none]).disk.headers stored := by
  apply recorded_headers_present forkedChain forkedChain_rooted forkedElement fun _ => rfl
  intro before event after heq
  match before, heq with
  | [], heq =>
    obtain ⟨rfl, -⟩ := List.cons.inj heq
    exact ⟨promised_joinEvent _, trivial⟩
  | [first], heq =>
    obtain ⟨hfirst, heq⟩ := List.cons.inj heq
    obtain ⟨rfl, -⟩ := List.cons.inj heq
    rw [← hfirst]
    exact ⟨⟨⟨1, by decide⟩, by decide⟩, fun _ => Or.inl (by decide)⟩
  | [first, second], heq =>
    obtain ⟨hfirst, heq⟩ := List.cons.inj heq
    obtain ⟨hsecond, heq⟩ := List.cons.inj heq
    obtain ⟨rfl, -⟩ := List.cons.inj heq
    rw [← hfirst, ← hsecond]
    exact ⟨⟨⟨1, by decide +kernel⟩, by decide +kernel⟩, fun _ => Or.inl (by decide +kernel)⟩
  | first :: second :: third :: before, heq =>
    have hlength := congrArg List.length heq
    simp at hlength

/-- After a switch to a tip of the same height the record has a height whose header has been removed with
the old branch. A removed block stays in the stored record. -/
theorem not_covered_after_replacement_and_removal :
    ((∀ before event after, [joinEvent, replacement] = before ++ event :: after →
        Promised forkedChain forkedElement (run before).state event.env event.message) ∧
      ¬ Covered forkedChain (run [joinEvent, replacement]).disk.headers (run [joinEvent, replacement]).state.stored) ∧
    ((∀ before event after, [joinEvent, removal] = before ++ event :: after →
        Promised forkedChain forkedElement (run before).state event.env event.message) ∧
      ∃ stored ∈ (run [joinEvent, removal]).disk.stored,
        ¬ Covered forkedChain (run [joinEvent, removal]).disk.headers stored) := by
  have hpair : ∀ later : Event, (∀ s, Promised forkedChain forkedElement s later.env later.message) →
      ∀ before event after, [joinEvent, later] = before ++ event :: after →
        Promised forkedChain forkedElement (run before).state event.env event.message := by
    intro later hlater before event after heq
    match before, heq with
    | [], heq =>
      obtain ⟨rfl, -⟩ := List.cons.inj heq
      exact promised_joinEvent _
    | [first], heq =>
      obtain ⟨-, heq⟩ := List.cons.inj heq
      obtain ⟨rfl, -⟩ := List.cons.inj heq
      exact hlater _
    | first :: second :: before, heq =>
      have hlength := congrArg List.length heq
      simp at hlength
  refine ⟨⟨hpair _ fun s => ⟨⟨1, by decide⟩, by decide⟩, fun hcovered => ?_⟩, hpair _ fun s => trivial, ?_⟩
  · obtain ⟨h, prevH, hlookup, -⟩ := hcovered 1 (by decide +kernel)
    have hmissing : (run [joinEvent, replacement]).disk.headers.lookup 1 = none := by decide +kernel
    rw [hmissing] at hlookup
    cases hlookup
  · refine ⟨(run [joinEvent]).state.stored, rfl, fun hcovered => ?_⟩
    obtain ⟨h, prevH, hlookup, -⟩ := hcovered 1 (by decide)
    have hmissing : (run [joinEvent, removal]).disk.headers.lookup 1 = none := by decide
    rw [hmissing] at hlookup
    cases hlookup

end Arweave.HeaderSync
