import Arweave.Mempool.Evictions

/-!
# Clashing transactions

Transactions that are anchored in the last transaction of their wallet clash when they name
the same one. On a joined node the one with the greatest utility and identifier survives, in
whatever order they arrive.
-/

namespace Arweave.Mempool
open Arweave.Lib Arweave.Tx Arweave.Ledger

/-- The last transaction of the wallet is the anchor. -/
def WalletAnchored (node : Node) (tx : TX) : Prop := checkLastTx (node.wallets [tx.address, tx.target]) tx = true

/-- A transaction with a property that none of the others exceeds. -/
def Greatest (P : TX → Prop) (tx : TX) : Prop := P tx ∧ ∀ other, P other → unconfirmedTx other ≤ unconfirmedTx tx

lemma greatest_or_eq {P Q : TX → Prop} {top tx : TX} (htop : Greatest P top)
    (hinj : ∀ x y, P x → P y → unconfirmedTx x = unconfirmedTx y → x = y) :
    Greatest (fun t => Q t ∨ t = top) tx ↔ Greatest (fun t => Q t ∨ P t) tx := by
  constructor
  · rintro ⟨hmem, hle⟩
    constructor
    · refine hmem.imp_right ?_
      rintro rfl
      exact htop.1
    · rintro other (hother | hother)
      · exact hle other (.inl hother)
      · exact (htop.2 other hother).trans (hle top (.inr rfl))
  · rintro ⟨hmem, hle⟩
    constructor
    · refine hmem.imp_right fun htx => ?_
      exact hinj tx top htx htop.1 (le_antisymm (htop.2 tx htx) (hle top (.inr htop.1)))
    · rintro other (hother | rfl)
      · exact hle other (.inl hother)
      · exact hle other (.inr htop.1)

section Steps

variable {σ : Type} [LinearOrder σ] {m m' : Pool σ} {tx : TX} {node : Node} {a : Addition σ}

/-- All the transactions with the anchor but the greatest are found. -/
lemma findClashingTxs_spec (h : Indexed m) (htx : Holds m tx) (hanchor : tx.lastTx ≠ [])
    (hwallet : WalletAnchored node tx) :
    ∃ clashing top, findClashingTxs node m tx = some clashing ∧ Found m clashing ∧ clashing.Nodup ∧
      Greatest (fun other => Holds m other ∧ other.lastTx = tx.lastTx) top ∧
      ∀ other, Holds m other → (other ∈ clashing ↔ other.lastTx = tx.lastTx ∧ other ≠ top) := by
  have hmem : unconfirmedTx tx ∈ m.lastTxMap.group tx.lastTx := (mem_group_lastTxMap h).mpr ⟨tx, htx, rfl, rfl⟩
  obtain ⟨e, hlast⟩ : ∃ e, (m.lastTxMap.group tx.lastTx).last = some e :=
    ⟨_, List.getLast?_eq_some_getLast (List.ne_nil_of_mem hmem)⟩
  have he : e ∈ m.lastTxMap.group tx.lastTx := List.mem_of_getLast? hlast
  obtain ⟨top, htop, htopAnchor, rfl⟩ := (mem_group_lastTxMap h).mp he
  have hids : ∀ e' ∈ ((m.lastTxMap.group tx.lastTx).erase (unconfirmedTx top)).elems,
      ∃ tx, Holds m tx ∧ unconfirmedTx tx = e' := by
    intro e' he'
    obtain ⟨other, hother, -, heq⟩ := (mem_group_lastTxMap h).mp (OrdSet.mem_erase.mp he').2
    exact ⟨other, hother, heq⟩
  obtain ⟨clashing, hfound, hmap⟩ := exists_found hids
  refine ⟨clashing, top, ?_, hfound, ?_, ⟨⟨htop, htopAnchor⟩, ?_⟩, ?_⟩
  · unfold WalletAnchored at hwallet
    unfold findClashingTxs filterClashingTxs
    rw [if_neg hanchor, if_pos hwallet, hlast]
    dsimp only
    rw [← hmap, toTxs_map hfound]
  · apply List.Nodup.of_map unconfirmedTx
    rw [hmap]
    exact OrdSet.nodup _
  · rintro other ⟨hother, heq⟩
    exact OrdSet.le_last hlast ((mem_group_lastTxMap h).mpr ⟨other, hother, heq, rfl⟩)
  · intro other hother
    rw [← mem_of_mem_map hfound hother, hmap, OrdSet.mem_elems, OrdSet.mem_erase, mem_group_lastTxMap h]
    constructor
    · rintro ⟨hne, tx', htx', hlastTx, heq⟩
      rw [htx'.eq hother (unconfirmedTx_id heq)] at hlastTx
      exact ⟨hlastTx, fun htop => hne (by rw [htop])⟩
    · rintro ⟨hlastTx, hne⟩
      exact ⟨fun heq => hne (hother.eq htop (unconfirmedTx_id heq)), other, hother, hlastTx, rfl⟩

/-- Nothing but the clashing transactions is dropped. -/
def OnlyClashes (m : Pool σ) (a : Addition σ) : Prop :=
  ∀ m1 clashing m2, storeTx m a.time a.tx a.status = some m1 → findClashingTxs a.node m1 a.tx = some clashing →
    dropTxs m1 clashing = some m2 → findOverspentTxs a.node m2 a.tx = some [] ∧ findLowPriorityTxs m2 = some []

/-- The greatest of a new transaction and the ones with its anchor is left. -/
structure Leaves (m m' : Pool σ) (tx top : TX) : Prop where
  greatest : Greatest (fun other => other = tx ∨ Holds m other ∧ other.lastTx = tx.lastTx) top
  holds : ∀ other, Holds m' other ↔ other = top ∨ Holds m other ∧ other.lastTx ≠ tx.lastTx

lemma Leaves.lastTx {top : TX} (h : Leaves m m' tx top) : top.lastTx = tx.lastTx := by
  obtain rfl | ⟨-, heq⟩ := h.greatest.1
  · rfl
  · exact heq

lemma Leaves.anchored_iff {top other : TX} (h : Leaves m m' tx top) :
    Holds m' other ∧ other.lastTx = tx.lastTx ↔ other = top := by
  rw [h.holds]
  constructor
  · rintro ⟨htop | ⟨-, hne⟩, heq⟩
    · exact htop
    · exact absurd heq hne
  · rintro rfl
    exact ⟨.inl rfl, h.lastTx⟩

lemma Leaves.elsewhere_iff {top other : TX} (h : Leaves m m' tx top) :
    Holds m' other ∧ other.lastTx ≠ tx.lastTx ↔ Holds m other ∧ other.lastTx ≠ tx.lastTx := by
  rw [h.holds]
  constructor
  · rintro ⟨rfl | ⟨hother, -⟩, hne⟩
    · exact absurd h.lastTx hne
    · exact ⟨hother, hne⟩
  · rintro ⟨hother, hne⟩
    exact ⟨.inr ⟨hother, hne⟩, hne⟩

lemma Leaves.came {top other : TX} (h : Leaves m m' tx top) (hother : Holds m' other) : other = tx ∨ Holds m other := by
  obtain rfl | ⟨hother, -⟩ := (h.holds other).mp hother
  · exact h.greatest.1.imp_right And.left
  · exact .inr hother

lemma add_clashing (h : Indexed m) (hnew : ∀ other, Holds m other → other.id ≠ a.tx.id)
    (hformat : a.tx.format = 1 ∨ a.tx.format = 2) (hjoined : a.node.joined = true) (hanchor : a.tx.lastTx ≠ [])
    (hwallet : WalletAnchored a.node a.tx) (honly : OnlyClashes m a) :
    ∃ m' top, add m a = some m' ∧ Indexed m' ∧ Leaves m m' a.tx top := by
  obtain ⟨m1, hstore, h1, hholds1, -⟩ := storeTx_new h hnew hformat a.time a.status
  obtain ⟨clashing, top, hclashing, hfound, hnodup, htop, hmem⟩ :=
    findClashingTxs_spec h1 ((hholds1 a.tx).mpr (.inl rfl)) hanchor hwallet
  obtain ⟨m2, hdrop, h2, hholds2, -⟩ := dropTxs_found h1 hfound hnodup
  obtain ⟨hoverspent, hlow⟩ := honly m1 clashing m2 hstore hclashing hdrop
  have hcandidate : ∀ other, Holds m1 other ∧ other.lastTx = a.tx.lastTx ↔
      other = a.tx ∨ Holds m other ∧ other.lastTx = a.tx.lastTx := by
    intro other
    rw [hholds1]
    constructor
    · rintro ⟨rfl | hother, heq⟩
      · exact .inl rfl
      · exact .inr ⟨hother, heq⟩
    · rintro (rfl | ⟨hother, heq⟩)
      · exact ⟨.inl rfl, rfl⟩
      · exact ⟨.inr hother, heq⟩
  refine ⟨m2, top, ?_, h2, ?_, ?_⟩
  · exact add_of_joined hjoined hstore hclashing hdrop hoverspent rfl hlow rfl
  · exact ⟨(hcandidate top).mp htop.1, fun other hother => htop.2 other ((hcandidate other).mpr hother)⟩
  · intro other
    rw [hholds2]
    constructor
    · rintro ⟨hother, hnot⟩
      rw [hmem other hother, not_and, not_not] at hnot
      by_cases heq : other.lastTx = a.tx.lastTx
      · exact .inl (hnot heq)
      · rcases (hholds1 other).mp hother with rfl | hother
        · exact absurd rfl heq
        · exact .inr ⟨hother, heq⟩
    · rintro (rfl | ⟨hother, hne⟩)
      · exact ⟨htop.1.1, fun hmem' => ((hmem other htop.1.1).mp hmem').2 rfl⟩
      · have hother1 := (hholds1 other).mpr (.inr hother)
        exact ⟨hother1, fun hmem' => hne ((hmem other hother1).mp hmem').1⟩

lemma storeTx_holds {time : Int} {status : σ} (hstore : storeTx m time tx status = some m') (other : TX) :
    Holds m' other ↔ Holds m other ∨ other = tx := by
  have hinsert : ∀ m1 : Pool σ, ∀ timestamp, m1.txs = m.txs.insert tx.id ⟨tx, status, timestamp⟩ →
      (Holds m1 other ↔ if other.id = tx.id then other = tx else Holds m other) := by
    intro m1 timestamp htxs
    rw [Holds, getTx, htxs, SortedMap.lookup_insert]
    split_ifs
    · rw [Option.map_some, Option.some.injEq, eq_comm]
    · exact Iff.rfl
  rcases storeTx_cases hstore with ⟨hnone, -, rfl⟩ | ⟨prevStatus, timestamp, hsome, rfl⟩
  · rw [hinsert _ _ rfl]
    split_ifs with heq
    · have hnot : ¬Holds m other := by
        rw [Holds, getTx, heq, hnone, Option.map_none]
        exact Option.some_ne_none other ∘ Eq.symm
      rw [or_iff_right hnot]
    · exact (or_iff_left fun h => heq (by rw [h])).symm
  · rw [hinsert _ _ rfl]
    split_ifs with heq
    · -- the same transaction is stored with another status
      rw [Holds, getTx, heq, hsome, Option.map_some, Option.some.injEq, eq_comm, or_self]
    · exact (or_iff_left fun h => heq (by rw [h])).symm

lemma add_of_not_joined (hjoined : a.node.joined = false) : add m a = storeTx m a.time a.tx a.status := by
  cases hstore : storeTx m a.time a.tx a.status <;> simp [add, addTx, hstore, hjoined]

end Steps

section Runs

variable {σ : Type} [LinearOrder σ] {m : Pool σ} {anchor : Bytes} {adds : List (Addition σ)}

/-- After additions with an anchor, the greatest of the ones that came and of the one that was
there is left. -/
lemma foldlM_add_clashing (h : Indexed m) (hanchor : anchor ≠ []) (hnodup : (adds.map (·.tx.id)).Nodup)
    (hadds : ∀ a ∈ adds, a.tx.lastTx = anchor ∧ (a.tx.format = 1 ∨ a.tx.format = 2) ∧ a.node.joined = true ∧
      WalletAnchored a.node a.tx)
    (hnew : ∀ a ∈ adds, ∀ other, Holds m other → other.id ≠ a.tx.id) (honly : Along add OnlyClashes m adds)
    (hsingle : ∀ tx tx', Holds m tx → tx.lastTx = anchor → Holds m tx' → tx'.lastTx = anchor → tx = tx') :
    ∃ m', adds.foldlM add m = some m' ∧ ∀ other, Holds m' other ↔ (Holds m other ∧ other.lastTx ≠ anchor) ∨
      Greatest (fun tx => tx ∈ adds.map Addition.tx ∨ Holds m tx ∧ tx.lastTx = anchor) other := by
  induction adds generalizing m with
  | nil =>
    refine ⟨m, rfl, ?_⟩
    intro other
    constructor
    · intro hother
      by_cases heq : other.lastTx = anchor
      · refine .inr ⟨.inr ⟨hother, heq⟩, ?_⟩
        rintro tx (htx | ⟨htx, htxAnchor⟩)
        · cases htx
        · rw [hsingle tx other htx htxAnchor hother heq]
      · exact .inl ⟨hother, heq⟩
    · rintro (⟨hother, -⟩ | ⟨hother | ⟨hother, -⟩, -⟩)
      · exact hother
      · cases hother
      · exact hother
  | cons a adds ih =>
    obtain ⟨hid, hnodup⟩ := List.nodup_cons.mp hnodup
    obtain ⟨hlastTx, hformat, hjoined, hwallet⟩ := hadds a List.mem_cons_self
    obtain ⟨hfirst, honly⟩ := along_cons.mp honly
    have hnewFirst := hnew a List.mem_cons_self
    obtain ⟨m1, top, hadd, h1, hleaves⟩ :=
      add_clashing h hnewFirst hformat hjoined (hlastTx ▸ hanchor) hwallet hfirst
    have hanchored : ∀ tx, Holds m1 tx ∧ tx.lastTx = anchor ↔ tx = top := fun tx => hlastTx ▸ hleaves.anchored_iff
    have hinj : ∀ x y, (x = a.tx ∨ Holds m x ∧ x.lastTx = anchor) → (y = a.tx ∨ Holds m y ∧ y.lastTx = anchor) →
        unconfirmedTx x = unconfirmedTx y → x = y := by
      rintro x y (rfl | ⟨hx, -⟩) (rfl | ⟨hy, -⟩) heq
      · rfl
      · exact absurd (unconfirmedTx_id heq).symm (hnewFirst y hy)
      · exact absurd (unconfirmedTx_id heq) (hnewFirst x hx)
      · exact hx.eq hy (unconfirmedTx_id heq)
    have hnewRest : ∀ b ∈ adds, ∀ other, Holds m1 other → other.id ≠ b.tx.id := by
      intro b hb other hother heq
      obtain rfl | hother := hleaves.came hother
      · exact hid (List.mem_map.mpr ⟨b, hb, heq.symm⟩)
      · exact hnew b (List.mem_cons_of_mem a hb) other hother heq
    obtain ⟨m', hrun, hholds⟩ := ih h1 hnodup (fun b hb => hadds b (List.mem_cons_of_mem a hb)) hnewRest
      (honly m1 hadd) fun tx tx' htx heq htx' heq' =>
        ((hanchored tx).mp ⟨htx, heq⟩).trans ((hanchored tx').mp ⟨htx', heq'⟩).symm
    refine ⟨m', ?_, ?_⟩
    · rw [List.foldlM_cons, hadd]
      exact hrun
    · intro other
      rw [hholds]
      refine or_congr (hlastTx ▸ hleaves.elsewhere_iff) ?_
      have hsplit : (fun tx => tx ∈ (a :: adds).map Addition.tx ∨ Holds m tx ∧ tx.lastTx = anchor) =
          fun tx => tx ∈ adds.map Addition.tx ∨ tx = a.tx ∨ Holds m tx ∧ tx.lastTx = anchor := by
        funext tx
        rw [List.map_cons, List.mem_cons, or_assoc, or_left_comm]
      simp only [hanchored]
      rw [hsplit]
      exact greatest_or_eq (hlastTx ▸ hleaves.greatest) hinj

/-- Additions before joining store what comes and drop nothing. -/
lemma foldlM_add_not_joined (h : Indexed m) (hnodup : (adds.map (·.tx.id)).Nodup)
    (hadds : ∀ a ∈ adds, (a.tx.format = 1 ∨ a.tx.format = 2) ∧ a.node.joined = false)
    (hnew : ∀ a ∈ adds, ∀ other, Holds m other → other.id ≠ a.tx.id) :
    ∃ m', adds.foldlM add m = some m' ∧ ∀ other, Holds m' other ↔ Holds m other ∨ other ∈ adds.map Addition.tx := by
  induction adds generalizing m with
  | nil => exact ⟨m, rfl, by simp⟩
  | cons a adds ih =>
    obtain ⟨hid, hnodup⟩ := List.nodup_cons.mp hnodup
    obtain ⟨⟨hformat, hjoined⟩, hadds⟩ := List.forall_mem_cons.mp hadds
    obtain ⟨hnewFirst, hnew⟩ := List.forall_mem_cons.mp hnew
    obtain ⟨m1, hstore, h1, hholds1, -⟩ := storeTx_new h hnewFirst hformat a.time a.status
    have hnewRest : ∀ b ∈ adds, ∀ other, Holds m1 other → other.id ≠ b.tx.id := by
      intro b hb other hother heq
      obtain rfl | hother := (hholds1 other).mp hother
      · exact hid (List.mem_map.mpr ⟨b, hb, heq.symm⟩)
      · exact hnew b hb other hother heq
    obtain ⟨m', hrun, hholds⟩ := ih h1 hnodup hadds hnewRest
    refine ⟨m', ?_, ?_⟩
    · rw [List.foldlM_cons, add_of_not_joined hjoined, hstore]
      exact hrun
    · intro other
      rw [hholds, hholds1, List.map_cons, List.mem_cons, or_assoc, or_left_comm]

omit [LinearOrder σ] in
lemma additions_of_perm {txs : List TX} (hperm : (adds.map Addition.tx).Perm txs) (hnodup : (txs.map TX.id).Nodup) :
    (∀ a ∈ adds, a.tx ∈ txs) ∧ (adds.map (·.tx.id)).Nodup := by
  constructor
  · intro a ha
    exact hperm.mem_iff.mp (List.mem_map_of_mem ha)
  · have := (hperm.map TX.id).nodup_iff.mpr hnodup
    rwa [List.map_map] at this

/-- The greatest of the transactions with an anchor is the one that a joined node keeps, for
every order of arrival. A node that has not joined drops nothing at any addition and keeps all of them. -/
theorem clashes_resolved (m : Pool σ) (h : Indexed m) (anchor : Bytes) (hanchor : anchor ≠ []) (txs : List TX)
    (hne : txs ≠ []) (hnodup : (txs.map TX.id).Nodup)
    (htxs : ∀ tx ∈ txs, tx.lastTx = anchor ∧ (tx.format = 1 ∨ tx.format = 2))
    (hfresh : ∀ other, Holds m other → other.lastTx ≠ anchor ∧ ∀ tx ∈ txs, other.id ≠ tx.id) :
    (∃ survivor, Greatest (· ∈ txs) survivor ∧ ∀ adds : List (Addition σ), (adds.map Addition.tx).Perm txs →
      (∀ a ∈ adds, a.node.joined = true ∧ WalletAnchored a.node a.tx) → Along add OnlyClashes m adds →
      ∃ m', adds.foldlM add m = some m' ∧ ∀ tx, Holds m' tx ↔ Holds m tx ∨ tx = survivor) ∧
    (∀ adds : List (Addition σ), (adds.map Addition.tx).Perm txs → (∀ a ∈ adds, a.node.joined = false) →
      ∃ m', adds.foldlM add m = some m' ∧ ∀ tx, Holds m' tx ↔ Holds m tx ∨ tx ∈ txs) ∧
    ∀ (before after : Pool σ) (a : Addition σ), a.node.joined = false → add before a = some after →
      ∀ tx, Holds after tx ↔ Holds before tx ∨ tx = a.tx := by
  refine ⟨?_, ?_, ?_⟩
  · obtain ⟨survivor, hsurvivor, hle⟩ :=
      txs.toFinset.exists_max_image unconfirmedTx ((List.toFinset_nonempty_iff txs).mpr hne)
    simp only [List.mem_toFinset] at hsurvivor hle
    refine ⟨survivor, ⟨hsurvivor, hle⟩, ?_⟩
    intro adds hperm hadds honly
    obtain ⟨htx, hids⟩ := additions_of_perm hperm hnodup
    obtain ⟨m', hrun, hholds⟩ := foldlM_add_clashing h hanchor hids
      (fun a ha => ⟨(htxs a.tx (htx a ha)).1, (htxs a.tx (htx a ha)).2, hadds a ha⟩)
      (fun a ha other hother => (hfresh other hother).2 a.tx (htx a ha)) honly
      (fun tx _ htx heq _ _ => absurd heq (hfresh tx htx).1)
    refine ⟨m', hrun, ?_⟩
    intro tx
    simp only [hholds, hperm.mem_iff]
    refine or_congr ?_ ?_
    · exact ⟨And.left, fun htx => ⟨htx, (hfresh tx htx).1⟩⟩
    · -- two transactions with the same identifier are one
      constructor
      · rintro ⟨htx | ⟨htx, heq⟩, hgreatest⟩
        · have heq := le_antisymm (hle tx htx) (hgreatest survivor (.inl hsurvivor))
          exact List.inj_on_of_nodup_map hnodup htx hsurvivor (unconfirmedTx_id heq)
        · exact absurd heq (hfresh tx htx).1
      · rintro rfl
        refine ⟨.inl hsurvivor, ?_⟩
        rintro other (hother | ⟨hother, heq⟩)
        · exact hle other hother
        · exact absurd heq (hfresh other hother).1
  · intro adds hperm hadds
    obtain ⟨htx, hids⟩ := additions_of_perm hperm hnodup
    obtain ⟨m', hrun, hholds⟩ := foldlM_add_not_joined h hids
      (fun a ha => ⟨(htxs a.tx (htx a ha)).2, hadds a ha⟩)
      (fun a ha other hother => (hfresh other hother).2 a.tx (htx a ha))
    refine ⟨m', hrun, ?_⟩
    intro tx
    rw [hholds, hperm.mem_iff]
  · intro before after a hjoined hadd tx
    rw [add_of_not_joined hjoined] at hadd
    exact storeTx_holds hadd tx

end Runs

/-- What is found after the clashing transactions are dropped. -/
def otherDrops (m : Pool Status) (a : Addition Status) : Option (List TX × List TX) := do
  let m1 ← storeTx m a.time a.tx a.status
  let clashing ← findClashingTxs a.node m1 a.tx
  let m2 ← dropTxs m1 clashing
  let overspent ← findOverspentTxs a.node m2 a.tx
  let low ← findLowPriorityTxs m2
  some (overspent, low)

lemma onlyClashes_of_otherDrops {m : Pool Status} {a : Addition Status} (h : otherDrops m a = some ([], [])) :
    OnlyClashes m a := by
  intro m1 clashing m2 hstore hclashing hdrop
  simp only [otherDrops, hstore, hclashing, hdrop, bind, Option.bind_some, Option.bind_eq_some_iff,
    Option.some.injEq, Prod.mk.injEq] at h
  obtain ⟨overspent, hoverspent, low, hlow, rfl, rfl⟩ := h
  exact ⟨hoverspent, hlow⟩

/-- An account with a last transaction. -/
def anchoredNode (joined : Bool) : Node := ⟨joined, SortedMap.empty.insert sampleAddress (.pair 100 [9]), 1⟩

def clashingTx (id : UInt8) (reward : Int) : TX := { sampleTx id reward [4, 2] with lastTx := [9] }

def clashingAddition (joined : Bool) (id : UInt8) (reward : Int) : Addition Status :=
  ⟨anchoredNode joined, 5, clashingTx id reward, .waiting⟩

theorem clashes_resolved_sample :
    (∃ survivor, Greatest (· ∈ [clashingTx 1 3, clashingTx 2 4]) survivor ∧
      ∃ m', [clashingAddition true 2 4, clashingAddition true 1 3].foldlM add {} = some m' ∧
        ∀ tx, Holds m' tx ↔ Holds ({} : Pool Status) tx ∨ tx = survivor) ∧
    (∃ m', [clashingAddition false 2 4, clashingAddition false 1 3].foldlM add {} = some m' ∧
      ∀ tx, Holds m' tx ↔ Holds ({} : Pool Status) tx ∨ tx ∈ [clashingTx 1 3, clashingTx 2 4]) ∧
    ∃ after, add {} (clashingAddition false 2 4) = some after ∧
      ∀ tx, Holds after tx ↔ Holds ({} : Pool Status) tx ∨ tx = clashingTx 2 4 := by
  obtain ⟨⟨survivor, hgreatest, hall⟩, hkept, hadd⟩ := clashes_resolved ({} : Pool Status) indexed_empty [9]
    (by decide) [clashingTx 1 3, clashingTx 2 4] (by decide) (by decide) (by decide) (by
      intro other hother
      cases hother)
  refine ⟨⟨survivor, hgreatest, hall _ (List.Perm.swap ..) ?_ ?_⟩, hkept _ (List.Perm.swap ..) (by decide), ?_⟩
  · unfold WalletAnchored
    decide
  · refine along_cons.mpr ⟨onlyClashes_of_otherDrops (by decide), fun r hr =>
      along_cons.mpr ⟨onlyClashes_of_otherDrops ?_, fun _ _ => along_nil⟩⟩
    have hdrops : (add {} (clashingAddition true 2 4)).bind (otherDrops · (clashingAddition true 1 3)) =
        some ([], []) := by decide
    rwa [hr] at hdrops
  · obtain ⟨after, hafter⟩ := Option.isSome_iff_exists.mp
      (by decide : (add {} (clashingAddition false 2 4)).isSome = true)
    exact ⟨after, hafter, hadd {} after (clashingAddition false 2 4) rfl hafter⟩

/-- A node that has not joined keeps all of them. -/
theorem clashes_kept_before_joining :
    WalletAnchored (anchoredNode false) (clashingTx 1 3) ∧ WalletAnchored (anchoredNode false) (clashingTx 2 4) ∧
      ∃ m', [clashingAddition false 2 4, clashingAddition false 1 3].foldlM add {} = some m' ∧
        Holds m' (clashingTx 1 3) ∧ Holds m' (clashingTx 2 4) := by
  refine ⟨by unfold WalletAnchored; decide, by unfold WalletAnchored; decide, ?_⟩
  have hrun : ([clashingAddition false 2 4, clashingAddition false 1 3].foldlM add {}).map
      (fun m => (getTx m [1], getTx m [2])) = some (some (clashingTx 1 3), some (clashingTx 2 4)) := by decide
  obtain ⟨m', hm', heq⟩ := Option.map_eq_some_iff.mp hrun
  obtain ⟨hfirst, hsecond⟩ := Prod.mk.inj heq
  exact ⟨m', hm', hfirst, hsecond⟩

end Arweave.Mempool
