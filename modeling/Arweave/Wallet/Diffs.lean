import Arweave.Wallet.Account
import Arweave.DiffDag.Runs

/-!
# Account diffs

A block changes some accounts and may remove others. The changes are applied to the account tree
one address after another, in any order. The reverse of a diff has the former account of each of
its addresses, or a removal where there was none, so that it undoes the diff.
-/

namespace Arweave.Wallet

open Lib Patricia

/-- The accounts after a block by their addresses, `none` for `remove`. -/
abbrev AccountDiff := SortedMap Bytes (Option Account)

def applyDiffAt (diff : AccountDiff) (tree : Patricia.Tree Account) (addr : Bytes) : Option (Patricia.Tree Account) :=
  match diff.lookup addr with
  | some none => Patricia.delete addr tree
  | some (some account) => Patricia.insert addr account tree
  | none => none

def applyDiff (ord : DiffDag.Order Bytes) (diff : AccountDiff) (tree : Patricia.Tree Account) :
    Option (Patricia.Tree Account) :=
  (ord.order (diff.entries.map Prod.fst)).foldlM (applyDiffAt diff) tree

def reverseDiff (diff : AccountDiff) (tree : Patricia.Tree Account) : AccountDiff :=
  diff.mapKeys fun addr => get addr tree

/-- The account map with one account changed or removed. -/
def changeAccount (M : SortedMap Bytes Account) (e : Bytes × Option Account) : SortedMap Bytes Account :=
  match e.2 with
  | none => M.erase e.1
  | some account => M.insert e.1 account

/-- The account map after a diff. -/
def applyMap (diff : AccountDiff) (M : SortedMap Bytes Account) : SortedMap Bytes Account :=
  diff.entries.foldl changeAccount M

/-- The addresses have at most the given length. -/
def Fits (L : Nat) (diff : AccountDiff) : Prop := ∀ e ∈ diff.entries, e.1.length ≤ L

instance (L : Nat) (diff : AccountDiff) : Decidable (Fits L diff) :=
  inferInstanceAs (Decidable (∀ e ∈ diff.entries, e.1.length ≤ L))

variable {H : Digest 48} {ord : DiffDag.Order Bytes} {diff : AccountDiff} {tree tree' : Patricia.Tree Account}
  {M M' : SortedMap Bytes Account} {L : Nat} {addr : Bytes}

lemma lookup_changeAccount {e : Bytes × Option Account} :
    (changeAccount M e).lookup addr = if addr = e.1 then e.2 else M.lookup addr := by
  obtain ⟨a, v⟩ := e
  cases v with
  | none => exact SortedMap.lookup_erase
  | some account => exact SortedMap.lookup_insert

lemma lookup_foldl_of_forall_ne {l : List (Bytes × Option Account)} (hl : ∀ e ∈ l, e.1 ≠ addr) :
    (l.foldl changeAccount M).lookup addr = M.lookup addr := by
  induction l generalizing M with
  | nil => rfl
  | cons e l ih =>
    rw [List.foldl_cons, ih fun e' he' => hl e' (by simp [he']), lookup_changeAccount, if_neg]
    exact Ne.symm (hl e (by simp))

lemma lookup_foldl_of_mem {l : List (Bytes × Option Account)} (hl : l.Pairwise fun a b => a.1 < b.1)
    {e : Bytes × Option Account} (he : e ∈ l) : (l.foldl changeAccount M).lookup e.1 = e.2 := by
  induction l generalizing M with
  | nil => cases he
  | cons e' l ih =>
    rw [List.pairwise_cons] at hl
    rw [List.foldl_cons]
    rcases List.mem_cons.mp he with rfl | he
    · rw [lookup_foldl_of_forall_ne fun e' he' => (hl.1 e' he').ne', lookup_changeAccount, if_pos rfl]
    · exact ih hl.2 he

lemma lookup_applyMap : (applyMap diff M).lookup addr = (diff.lookup addr).getD (M.lookup addr) := by
  cases hv : diff.lookup addr with
  | none =>
    apply lookup_foldl_of_forall_ne
    rintro e he rfl
    rw [SortedMap.lookup_eq_some.mpr he] at hv
    cases hv
  | some v => exact lookup_foldl_of_mem diff.sorted (SortedMap.lookup_eq_some.mp hv)

lemma applyMap_mapKeys : applyMap (diff.mapKeys M.lookup) (applyMap diff M) = M := by
  apply SortedMap.ext_lookup
  intro addr
  rw [lookup_applyMap, SortedMap.lookup_mapKeys, lookup_applyMap]
  cases diff.lookup addr <;> rfl

lemma fits_mapKeys (f : Bytes → Option Account) (h : Fits L diff) : Fits L (diff.mapKeys f) := by
  intro e he
  obtain ⟨e', he', rfl⟩ := List.mem_map.mp he
  exact h e' he'

lemma foldlM_applyDiffAt {l : List Bytes} (h : Sound H (accountHash H) tree M L) (hnodup : l.Nodup)
    (hl : ∀ addr ∈ l, (∃ v, diff.lookup addr = some v) ∧ addr.length ≤ L) :
    ∃ tree' M', l.foldlM (applyDiffAt diff) tree = some tree' ∧ Sound H (accountHash H) tree' M' L ∧
      ∀ addr, M'.lookup addr = if addr ∈ l then (diff.lookup addr).getD none else M.lookup addr := by
  induction l generalizing tree M with
  | nil => exact ⟨tree, M, rfl, h, by simp⟩
  | cons a l ih =>
    rw [List.nodup_cons] at hnodup
    obtain ⟨⟨v, hv⟩, hlen⟩ := hl a (by simp)
    have hstep : ∃ tree1 M1, applyDiffAt diff tree a = some tree1 ∧ Sound H (accountHash H) tree1 M1 L ∧
        ∀ addr, M1.lookup addr = if addr = a then v else M.lookup addr := by
      cases v with
      | none =>
        obtain ⟨tree1, hdelete, h1⟩ := h.delete hlen
        exact ⟨tree1, M.erase a, by rw [applyDiffAt, hv]; exact hdelete, h1, fun _ => SortedMap.lookup_erase⟩
      | some account =>
        obtain ⟨tree1, hinsert, h1⟩ := h.insert hlen account
        exact ⟨tree1, M.insert a account, by rw [applyDiffAt, hv]; exact hinsert, h1, fun _ => SortedMap.lookup_insert⟩
    obtain ⟨tree1, M1, hstep, h1, hM1⟩ := hstep
    obtain ⟨tree', M', hfold, h', hM'⟩ := ih h1 hnodup.2 fun addr haddr => hl addr (by simp [haddr])
    refine ⟨tree', M', ?_, h', fun addr => ?_⟩
    · rw [List.foldlM_cons, hstep]
      exact hfold
    · rw [hM', hM1]
      by_cases ha : addr = a
      · rw [ha, if_neg hnodup.1, if_pos rfl, if_pos (by simp), hv]
        rfl
      · by_cases hmem : addr ∈ l <;> simp [ha, hmem]

variable (ord) in
lemma applyDiff_sound (h : Sound H (accountHash H) tree M L) (hfits : Fits L diff) :
    ∃ tree', applyDiff ord diff tree = some tree' ∧ Sound H (accountHash H) tree' (applyMap diff M) L := by
  have hmem : ∀ addr, addr ∈ ord.order (diff.entries.map Prod.fst) ↔ ∃ v, diff.lookup addr = some v := by
    intro addr
    rw [(ord.perm _).mem_iff, List.mem_map]
    constructor
    · rintro ⟨e, he, rfl⟩
      exact ⟨e.2, SortedMap.lookup_eq_some.mpr he⟩
    · rintro ⟨v, hv⟩
      exact ⟨(addr, v), SortedMap.lookup_eq_some.mp hv, rfl⟩
  have hnodup : (ord.order (diff.entries.map Prod.fst)).Nodup := by
    rw [(ord.perm _).nodup_iff, List.Nodup, List.pairwise_map]
    exact diff.sorted.imp fun hlt => hlt.ne
  obtain ⟨tree', M', hfold, h', hM'⟩ := foldlM_applyDiffAt h hnodup fun addr haddr => by
    obtain ⟨v, hv⟩ := (hmem addr).mp haddr
    exact ⟨⟨v, hv⟩, hfits _ (SortedMap.lookup_eq_some.mp hv)⟩
  have heq : M' = applyMap diff M := by
    apply SortedMap.ext_lookup
    intro addr
    rw [hM', lookup_applyMap]
    cases hv : diff.lookup addr with
    | none =>
      rw [if_neg]
      · rfl
      · rw [hmem, hv]
        simp
    | some v => rw [if_pos ((hmem addr).mpr ⟨v, hv⟩), Option.getD_some, Option.getD_some]
  exact ⟨tree', hfold, heq ▸ h'⟩

lemma Sound.map_unique (h : Sound H (accountHash H) tree M L) (h' : Sound H (accountHash H) tree M' L) : M = M' := by
  apply SortedMap.ext_lookup
  intro addr
  rw [← h.represents.get_eq, h'.represents.get_eq]

lemma reverseDiff_eq (h : Sound H (accountHash H) tree M L) : reverseDiff diff tree = diff.mapKeys M.lookup := by
  have hget : (fun addr => get addr tree) = M.lookup := by
    funext addr
    exact h.represents.get_eq addr
  rw [reverseDiff, hget]

lemma applyDiff_reverseDiff (h : Sound H (accountHash H) tree M L) (hfits : Fits L diff)
    (happly : applyDiff ord diff tree = some tree') :
    ∃ tree'', applyDiff ord (reverseDiff diff tree) tree' = some tree'' ∧ Sound H (accountHash H) tree'' M L := by
  obtain ⟨tree1, happly1, h1⟩ := applyDiff_sound ord h hfits
  rw [happly, Option.some.injEq] at happly1
  subst happly1
  rw [reverseDiff_eq h]
  obtain ⟨tree'', hback, h''⟩ := applyDiff_sound ord h1 (fits_mapKeys M.lookup hfits)
  rw [applyMap_mapKeys] at h''
  exact ⟨tree'', hback, h''⟩

/-- Trees with the same accounts. -/
def SameAccounts (H : Digest 48) (L : Nat) (tree tree' : Patricia.Tree Account) : Prop :=
  ∃ M, Sound H (accountHash H) tree M L ∧ Sound H (accountHash H) tree' M L

lemma SameAccounts.sound (h : SameAccounts H L tree tree') (hM : Sound H (accountHash H) tree M L) :
    Sound H (accountHash H) tree' M L := by
  obtain ⟨M', h1, h2⟩ := h
  exact Sound.map_unique hM h1 ▸ h2

lemma undoes_diffs (H : Digest 48) (L : Nat) (ord : DiffDag.Order Bytes) :
    DiffDag.Undoes (SameAccounts H L) (Fits L) (applyDiff ord) reverseDiff where
  symm := fun ⟨M, h, h'⟩ => ⟨M, h', h⟩
  trans := fun ⟨M, h, h'⟩ hR => ⟨M, h, hR.sound h'⟩
  congr := by
    rintro diff tree tree' hfits ⟨M, h, h'⟩
    obtain ⟨tree1, happly, h1⟩ := applyDiff_sound ord h hfits
    obtain ⟨tree1', happly', h1'⟩ := applyDiff_sound ord h' hfits
    exact ⟨tree1, tree1', happly, happly', _, h1, h1'⟩
  reverseOk := fun hfits _ => fits_mapKeys _ hfits
  undo := by
    rintro diff tree tree' hfits ⟨M, h, -⟩ happly
    obtain ⟨tree'', hback, h''⟩ := applyDiff_reverseDiff h hfits happly
    exact ⟨tree'', hback, M, h'', h⟩

end Arweave.Wallet
