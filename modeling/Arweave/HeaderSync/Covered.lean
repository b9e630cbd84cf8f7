import Arweave.BlockIndex.Intersections
import Arweave.HeaderSync.Server
import Arweave.Lib.Ancestry
import Arweave.Lib.Crashes

/-!
# Recorded heights have headers

A height of the record must have the header of its block in the key-value store, whether the record is
the one in memory or the stored one. The blocks are identified by their hashes, and the block at a
height is the one on the chain that ends with the newest element of the block index. The order of the
writes keeps the property wherever a crash cuts them off.
-/

namespace Arweave.HeaderSync
open Arweave.Lib Arweave.BlockIndex Arweave.Intervals

variable {A : Ancestry Bytes} {element : Bytes → Element} {headers headers' : SortedMap Int (Bytes × Bytes)}
  {stored stored' : Stored} {bi recentBI : List Element} {h tip : Bytes} {height : Int} {d : Disk} {s s' : State}
  {env : Environment} {b : Block} {writes : List Write}

section Heights

variable {I J : IntervalSet} {n c : Int}

lemma add_height (hI : Canonical I) (hadd : add I n (n - 1) = some J) :
    Canonical J ∧ ∀ m, isInside J m = true ↔ isInside I m = true ∨ m = n := by
  obtain ⟨J', hJ', hcanonical, hpoints⟩ := add_spec hI (show n - 1 < n by omega)
  rw [hadd, Option.some.injEq] at hJ'
  subst hJ'
  refine ⟨hcanonical, fun m => ?_⟩
  rw [isInside_iff hcanonical, isInside_iff hI, hpoints, Set.mem_union, Set.mem_Ioc]
  refine or_congr_right ?_
  omega

lemma delete_height (hI : Canonical I) (hdelete : delete I n (n - 1) = some J) :
    Canonical J ∧ ∀ m, isInside J m = true ↔ isInside I m = true ∧ m ≠ n := by
  obtain ⟨J', hJ', hcanonical, hpoints⟩ := delete_spec hI (show n - 1 < n by omega)
  rw [hdelete, Option.some.injEq] at hJ'
  subst hJ'
  refine ⟨hcanonical, fun m => ?_⟩
  rw [isInside_iff hcanonical, isInside_iff hI, hpoints, Set.mem_sdiff, Set.mem_Ioc]
  refine and_congr_right fun _ => ?_
  omega

lemma isInside_cut (hI : Canonical I) (m : Int) : isInside (cut I c) m = true ↔ isInside I m = true ∧ m ≤ c := by
  obtain ⟨hcanonical, hpoints⟩ := cut_spec (c := c) hI
  rw [isInside_iff hcanonical, isInside_iff hI, hpoints, Set.mem_sdiff, Set.mem_Ioi, not_lt]

end Heights

/-- Every height of the record has the header of the block that the chain has at the height. -/
def Covered (A : Ancestry Bytes) (headers : SortedMap Int (Bytes × Bytes)) (stored : Stored) : Prop :=
  ∀ height, isInside stored.syncRecord height = true → ∃ h prevH, headers.lookup height = some (h, prevH) ∧
    ∃ e ∈ stored.blockIndex.head?, h ∈ A.path e.h ∧ (A.height h : Int) = height

/-- The newest elements of the chain of the tip. -/
def IsRecent (A : Ancestry Bytes) (element : Bytes → Element) (tip : Bytes) (bi : List Element) : Prop :=
  ∃ n, bi = ((A.path tip).take (n + 1)).map element

/-- A record with the block index of a tip. -/
structure Sound (A : Ancestry Bytes) (element : Bytes → Element) (headers : SortedMap Int (Bytes × Bytes))
    (stored : Stored) : Prop where
  canonical : Canonical stored.syncRecord
  covered : Covered A headers stored
  recent : stored.blockIndex = [] ∨ ∃ tip, IsRecent A element tip stored.blockIndex ∧ stored.height = A.height tip

/-- The process can start over from the disk. -/
def Disk.Sound (A : Ancestry Bytes) (element : Bytes → Element) (d : Disk) : Prop :=
  ∀ stored ∈ d.stored, HeaderSync.Sound A element d.headers stored

/-- The record in memory and the stored one are sound, with the same block index. -/
structure Server.Sound (A : Ancestry Bytes) (element : Bytes → Element) (s : Server) : Prop where
  disk : s.disk.Sound A element
  memory : HeaderSync.Sound A element s.disk.headers s.state.stored
  agree : ∀ stored ∈ s.disk.stored, stored.height = s.state.height ∧ stored.blockIndex = s.state.blockIndex

/-- The writes keep the disk sound wherever they are cut off. -/
abbrev Safe (A : Ancestry Bytes) (element : Bytes → Element) (d : Disk) (writes : List Write) : Prop :=
  Survives Disk.apply (fun _ => False) (Disk.Sound A element) d writes

lemma IsRecent.head? (hh : ∀ x, (element x).h = x) (hrecent : IsRecent A element tip bi) :
    ∃ e ∈ bi.head?, e.h = tip := by
  obtain ⟨n, rfl⟩ := hrecent
  obtain ⟨l, hl⟩ := A.exists_path_eq tip
  rw [hl, List.take_succ_cons, List.map_cons]
  exact ⟨element tip, rfl, hh tip⟩

lemma Covered.le_height (hcovered : Covered A headers stored) (hin : isInside stored.syncRecord height = true) :
    ∃ e ∈ stored.blockIndex.head?, height ≤ A.height e.h := by
  obtain ⟨h, prevH, -, e, he, hmem, rfl⟩ := hcovered height hin
  exact ⟨e, he, by exact_mod_cast Ancestry.height_le_of_mem_path hmem⟩

lemma Covered.of_lookup (hcovered : Covered A headers stored)
    (heq : ∀ height, isInside stored.syncRecord height = true → headers'.lookup height = headers.lookup height) :
    Covered A headers' stored := by
  intro height hin
  obtain ⟨h, prevH, hlookup, hchain⟩ := hcovered height hin
  exact ⟨h, prevH, by rw [heq height hin, hlookup], hchain⟩

lemma Covered.put {prevH : Bytes} (hcovered : Covered A headers stored) (hheight : (A.height h : Int) = height)
    (hchain : isInside stored.syncRecord height = true → ∀ e ∈ stored.blockIndex.head?, h ∈ A.path e.h) :
    Covered A (headers.insert height (h, prevH)) stored := by
  intro n hin
  rw [SortedMap.lookup_insert]
  split_ifs with hn
  · subst hn
    obtain ⟨-, -, -, e, he, -⟩ := hcovered n hin
    exact ⟨h, prevH, rfl, e, he, hchain hin e he, hheight⟩
  · exact hcovered n hin

lemma lookup_deleteRange_of_not {start stop : Int} (hnot : ¬(start ≤ height ∧ height < stop)) :
    (headers.deleteRange start stop).lookup height = headers.lookup height := by
  ext v
  rw [SortedMap.lookup_deleteRange]
  exact and_iff_left hnot

lemma Sound.cut {c : Int} (hsound : Sound A element headers stored)
    (hrecent : stored'.blockIndex = [] ∨ ∃ tip, IsRecent A element tip stored'.blockIndex ∧ stored'.height = A.height tip)
    (hrecord : stored'.syncRecord = Intervals.cut stored.syncRecord c)
    (hcommon : ∀ e ∈ stored.blockIndex.head?, ∃ e' ∈ stored'.blockIndex.head?, ∀ h ∈ A.path e.h,
      (A.height h : Int) ≤ c → h ∈ A.path e'.h) : Sound A element headers stored' := by
  refine ⟨hrecord ▸ (cut_spec hsound.canonical).1, fun height hin => ?_, hrecent⟩
  rw [hrecord, isInside_cut hsound.canonical] at hin
  obtain ⟨h, prevH, hlookup, e, he, hmem, hheight⟩ := hsound.covered height hin.1
  obtain ⟨e', he', hbelow⟩ := hcommon e he
  exact ⟨h, prevH, hlookup, e', he', hbelow h hmem (by omega), hheight⟩

/-- The header of the block is put unless its height is recorded. -/
def Records (env : Environment) (s : State) (b : Block) : Prop :=
  checkFork env b = some true ∧ s.isDiskSpaceSufficient = true ∧ env.writeFullBlock b = true

lemma addBlock_cases (h : addBlock env b s = some (writes, s')) :
    writes = [] ∧ s' = s ∨
      Records env s b ∧ writes = [.put b.height b.indepHash b.previousBlock] ∧ s'.height = s.height ∧
        s'.blockIndex = s.blockIndex ∧ add s.syncRecord b.height (b.height - 1) = some s'.syncRecord := by
  rw [addBlock, Option.bind_eq_bind, Option.bind_eq_some_iff] at h
  obtain ⟨fork, hfork, h⟩ := h
  unfold addBlock2 at h
  split_ifs at h with htrue hspace hwritten hin
  all_goals try exact Or.inl ⟨by cases h; rfl, by cases h; rfl⟩
  simp only [Option.bind_eq_bind, Option.bind_eq_some_iff] at h
  obtain ⟨syncRecord2, hadd, retryRecord2, -, h⟩ := h
  cases h
  rw [htrue] at hfork
  exact Or.inr ⟨⟨hfork, by simpa using hspace, hwritten⟩, rfl, rfl, rfl, hadd⟩

/-- A block that is recorded is on the chain in memory, and on the stored one if its height is stored. -/
structure Fits (A : Ancestry Bytes) (term : Option Stored) (bi : List Element) (b : Block) : Prop where
  height : A.height b.indepHash = b.height
  memory : ∃ e ∈ bi.head?, b.indepHash ∈ A.path e.h
  disk : ∀ stored ∈ term, isInside stored.syncRecord b.height = true →
    ∀ e ∈ stored.blockIndex.head?, b.indepHash ∈ A.path e.h

lemma addBlock_sound (h : addBlock env b s = some (writes, s')) (hdisk : d.Sound A element)
    (hmemory : Sound A element d.headers s.stored) (hfits : Records env s b → Fits A d.stored s.blockIndex b) :
    Safe A element d writes ∧ (writes.foldl Disk.apply d).stored = d.stored ∧
      Sound A element (writes.foldl Disk.apply d).headers s'.stored ∧ s'.height = s.height ∧
      s'.blockIndex = s.blockIndex := by
  obtain ⟨rfl, rfl⟩ | ⟨hrecords, rfl, hheight, hindex, hadd⟩ := addBlock_cases h
  · exact ⟨survives_nil hdisk, rfl, hmemory, rfl, rfl⟩
  obtain ⟨hb, ⟨e, he, hmem⟩, hstored⟩ := hfits hrecords
  have hb : (A.height b.indepHash : Int) = b.height := by rw [hb]
  obtain ⟨hcanonical, hinside⟩ := add_height hmemory.canonical hadd
  have hchain : ∀ e' ∈ s.blockIndex.head?, b.indepHash ∈ A.path e'.h := by
    intro e' he'
    rw [Option.mem_unique he' he]
    exact hmem
  refine ⟨survives_singleton hdisk fun stored hin => ⟨(hdisk stored hin).canonical,
    (hdisk stored hin).covered.put hb (hstored stored hin), (hdisk stored hin).recent⟩, rfl,
    ⟨hcanonical, fun height hin => ?_, ?_⟩, hheight, hindex⟩
  · change ∃ h prevH, (d.headers.insert _ _).lookup height = _ ∧ ∃ e ∈ s'.blockIndex.head?, _
    rw [hindex]
    by_cases heq : height = b.height
    · exact ⟨b.indepHash, b.previousBlock, by rw [SortedMap.lookup_insert, if_pos heq], e, he, hmem, by rw [hb, heq]⟩
    · have hold := ((hinside height).mp hin).resolve_right heq
      exact hmemory.covered.put hb (fun _ => hchain) height hold
  · change s'.blockIndex = [] ∨ ∃ tip, IsRecent A element tip s'.blockIndex ∧ s'.height = A.height tip
    rw [hindex, hheight]
    exact hmemory.recent

lemma Safe.sound (hsafe : Safe A element d writes) : (writes.foldl Disk.apply d).Sound A element := by
  simpa using hsafe writes.length

lemma addBlocks_sound {blocks : List Block} (h : addBlocks env blocks s = some (writes, s')) (hdisk : d.Sound A element)
    (hmemory : Sound A element d.headers s.stored)
    (hfits : ∀ b ∈ blocks, checkFork env b = some true → Fits A d.stored s.blockIndex b) :
    Safe A element d writes ∧ Sound A element (writes.foldl Disk.apply d).headers s'.stored := by
  induction blocks generalizing d s writes with
  | nil =>
    cases h
    exact ⟨survives_nil hdisk, hmemory⟩
  | cons b blocks ih =>
    simp only [addBlocks, Option.bind_eq_bind, Option.bind_eq_some_iff, Prod.exists] at h
    obtain ⟨writes1, s2, hfirst, writes2, s3, hrest, h⟩ := h
    cases h
    obtain ⟨hsafe, hstored, hmemory2, -, hindex⟩ := addBlock_sound hfirst hdisk hmemory fun hrecords =>
      hfits b List.mem_cons_self hrecords.1
    obtain ⟨hsafe2, hmemory3⟩ := ih hrest (Safe.sound hsafe) hmemory2 fun b hb hfork => by
      rw [hstored, hindex]
      exact hfits b (List.mem_cons_of_mem _ hb) hfork
    rw [List.foldl_append]
    exact ⟨hsafe.append hsafe2, hmemory3⟩

end Arweave.HeaderSync
