import Arweave.Lib.Runs
import Arweave.TxBlacklist.Takedown

/-!
# The blacklisted bytes

The table of intervals has the bytes of the entries whose data has been taken down, as long as no entry is restored that
shares bytes with another one.
-/

namespace Arweave.TxBlacklist

open Lib Intervals

section States

variable {s t : State} {item : Item} {range : Range} {items : List Item}

/-- The bytes of an entry, when its offsets are known. -/
def State.rangeOf (s : State) (item : Item) : Option Range :=
  (s.blacklist.lookup item).bind fun offsets => match item with
    | .tx _ => offsets
    | .range range => some range

def State.bytesOf (s : State) (items : List Item) : Set Int :=
  {n | ∃ item ∈ items, ∃ range, s.rangeOf item = some range ∧ n ∈ range.bytes}

def State.blacklisted (s : State) : Set Int := points (EtsIntervals.family s.offsets)

/-- What the server relies on: an entry whose data is to be taken down is in the table. -/
structure State.Sound (s : State) : Prop where
  separated : Separated (EtsIntervals.family s.offsets)
  pending : ∀ item ∈ s.pendingData, s.blacklist.lookup item ≠ none

lemma rangeOf_congr (h : t.blacklist.lookup item = s.blacklist.lookup item) : t.rangeOf item = s.rangeOf item := by
  rw [State.rangeOf, h, State.rangeOf]

lemma lookup_ne_none_of_rangeOf (h : s.rangeOf item = some range) : s.blacklist.lookup item ≠ none := by
  intro hnone
  rw [State.rangeOf, hnone] at h
  cases h

lemma bytesOf_congr (h : ∀ item ∈ items, t.rangeOf item = s.rangeOf item) : t.bytesOf items = s.bytesOf items := by
  ext n
  constructor
  · rintro ⟨item, hitem, range, hrange, hn⟩
    exact ⟨item, hitem, range, (h item hitem).symm.trans hrange, hn⟩
  · rintro ⟨item, hitem, range, hrange, hn⟩
    exact ⟨item, hitem, range, (h item hitem).trans hrange, hn⟩

lemma bytesOf_cons (s : State) (item : Item) (items : List Item) : s.bytesOf (item :: items) = s.bytesOf [item] ∪ s.bytesOf items := by
  ext n
  simp [State.bytesOf, or_and_right, exists_or]

lemma bytesOf_nil : s.bytesOf [] = ∅ := by
  ext n
  simp [State.bytesOf]

lemma bytesOf_singleton_of_none (h : s.rangeOf item = none) : s.bytesOf [item] = ∅ := by
  ext n
  simp [State.bytesOf, h]

lemma bytesOf_singleton (h : s.rangeOf item = some range) : s.bytesOf [item] = range.bytes := by
  ext n
  simp [State.bytesOf, h]

end States

section Takedown

/-- The entry whose data is taken down. -/
def Effect.item : Effect → Item
  | .requestDataRemoval range _ => .range range
  | .requestTxDataRemoval id _ => .tx id

variable {s t : State} {item : Item} {range : Range}

lemma item_requestRemoval (ref : Nat) : (requestRemoval ref item).item = item := by cases item <;> rfl

/-- The data of some entries is taken down. -/
structure Takes (s : State) (r : State × List Effect) : Prop where
  sound : r.1.Sound
  blacklisted : r.1.blacklisted = s.blacklisted ∪ r.1.bytesOf (r.2.map Effect.item)
  known : ∀ item ∈ r.2.map Effect.item, r.1.rangeOf item ≠ none
  same : ∀ item range, s.rangeOf item = some range → r.1.rangeOf item = some range

lemma takes_nothing (ht : t.Sound) (hoffsets : t.offsets = s.offsets)
    (hsame : ∀ item range, s.rangeOf item = some range → t.rangeOf item = some range) : Takes s (t, []) := by
  refine ⟨ht, ?_, fun item hitem => ?_, hsame⟩
  · rw [List.map_nil, bytesOf_nil, Set.union_empty, State.blacklisted, State.blacklisted, hoffsets]
  · cases hitem

lemma blacklistOffsets_takes (ht : t.Sound) (hoffsets : t.offsets = s.offsets) (hrange : t.rangeOf item = some range)
    (hsame : ∀ item range, s.rangeOf item = some range → t.rangeOf item = some range) :
    ∃ r, blacklistOffsets item range t = some r ∧ Takes s r := by
  obtain ⟨offsets, hadd, hseparated, hpoints⟩ := EtsIntervals.add_spec ht.separated range.lt
  simp only [blacklistOffsets, hadd, Option.map_some]
  refine ⟨_, rfl, ⟨hseparated, ht.pending⟩, ?_, ?_, hsame⟩
  all_goals simp only [List.map_cons, List.map_nil, item_requestRemoval]
  · refine hpoints.trans ?_
    rw [State.blacklisted, ← hoffsets]
    congr 1
    exact (bytesOf_singleton (s := t) hrange).symm
  · intro item' hitem'
    rw [List.mem_singleton.mp hitem']
    change t.rangeOf item ≠ none
    rw [hrange]
    exact Option.some_ne_none _

lemma etsFirst_mem {first : Item} {table : OrdSet Item} (h : etsFirst first table = some item) : item ∈ table := by
  unfold etsFirst at h
  split_ifs at h with hfirst
  · exact Option.some.inj h ▸ hfirst
  · exact OrdSet.smallest_mem h

lemma rangeOf_insert {id : Bytes} {offsets : Option Range} (ht : t.blacklist = s.blacklist.insert (.tx id) offsets)
    (hitem : item ≠ .tx id) : t.rangeOf item = s.rangeOf item := by
  refine rangeOf_congr ?_
  rw [ht, SortedMap.lookup_insert, if_neg hitem]

lemma rangeOf_insert_self {id : Bytes} {offsets : Option Range} (ht : t.blacklist = s.blacklist.insert (.tx id) offsets) :
    t.rangeOf (.tx id) = offsets := by
  rw [State.rangeOf, ht, SortedMap.lookup_insert, if_pos rfl]
  rfl

lemma requestDataTakedown_takes (answers : Answers) (hs : s.Sound) : ∃ r, requestDataTakedown answers s = some r ∧ Takes s r := by
  unfold requestDataTakedown
  cases hfirst : etsFirst answers.first s.pendingData with
  | none => exact ⟨_, rfl, takes_nothing hs rfl fun _ _ h => h⟩
  | some item =>
    have hpending := hs.pending item (etsFirst_mem hfirst)
    cases item with
    | range range =>
      refine blacklistOffsets_takes hs rfl ?_ fun _ _ h => h
      obtain ⟨offsets, hlookup⟩ := Option.ne_none_iff_exists'.mp hpending
      rw [State.rangeOf, hlookup]
      rfl
    | tx id =>
      obtain ⟨offsets, hlookup⟩ := Option.ne_none_iff_exists'.mp hpending
      have hrange : s.rangeOf (.tx id) = offsets := by
        rw [State.rangeOf, hlookup]
        rfl
      have hother : ∀ item range, s.rangeOf item = some range → offsets = none → item ≠ .tx id := by
        rintro item range hitem rfl rfl
        rw [hrange] at hitem
        cases hitem
      simp only [hlookup]
      cases offsets with
      | some range => exact blacklistOffsets_takes hs rfl hrange fun _ _ h => h
      | none =>
        dsimp only
        cases answers.txOffset id with
        | some range =>
          refine blacklistOffsets_takes ⟨hs.separated, fun item hitem => ?_⟩ rfl (rangeOf_insert_self rfl) fun item range' h => ?_
          · rw [SortedMap.lookup_insert]
            split_ifs
            · exact Option.some_ne_none _
            · exact hs.pending item hitem
          · rw [rangeOf_insert rfl (hother item range' h rfl)]
            exact h
        | none =>
          refine ⟨_, rfl, takes_nothing ⟨hs.separated, fun item hitem => ?_⟩ rfl fun item range h => ?_⟩
          · obtain ⟨hne, hitem⟩ := OrdSet.mem_erase.mp hitem
            rw [SortedMap.lookup_erase, if_neg hne]
            exact hs.pending item hitem
          · rw [rangeOf_congr (s := s) (by rw [SortedMap.lookup_erase, if_neg (hother item range h rfl)])]
            exact h

end Takedown

section Restoring

variable {s t : State} {item item' : Item} {range : Range} {items : List Item}

/-- The offsets of some entries are restored, and the other entries stay. -/
structure Restores (s : State) (items : List Item) (t : State) : Prop where
  sound : t.Sound
  blacklisted : t.blacklisted = s.blacklisted \ s.bytesOf items
  same : ∀ item, item ∉ items → ∀ range, s.rangeOf item = some range → t.rangeOf item = some range

lemma restores_nothing (ht : t.Sound) (hoffsets : t.offsets = s.offsets) (hnone : s.bytesOf items = ∅)
    (hsame : ∀ item, item ∉ items → ∀ range, s.rangeOf item = some range → t.rangeOf item = some range) :
    Restores s items t := by
  refine ⟨ht, ?_, hsame⟩
  rw [hnone, Set.sdiff_empty, State.blacklisted, State.blacklisted, hoffsets]

lemma restoreOffsets_spec (range : Range) (hs : s.Sound) : ∃ t, restoreOffsets range s = some t ∧ t.Sound ∧
    t.blacklisted = s.blacklisted \ range.bytes ∧ t.blacklist = s.blacklist ∧ t.pendingData = s.pendingData := by
  obtain ⟨offsets, hdelete, hseparated, hpoints⟩ := EtsIntervals.delete_spec hs.separated range.lt
  exact ⟨{ s with offsets := offsets }, by rw [restoreOffsets, hdelete, Option.map_some], ⟨hseparated, hs.pending⟩, hpoints,
    rfl, rfl⟩

lemma removeItem_lookup : (removeItem s item).blacklist.lookup item' =
    if item' = item then some none else s.blacklist.lookup item' := by
  cases item <;> exact SortedMap.lookup_insert

lemma mem_removeItem_pending : item' ∈ (removeItem s item).pendingData ↔ item' = item ∨ item' ∈ s.pendingData := by
  cases item <;> exact OrdSet.mem_add

lemma foldl_removeItem (items : List Item) (hs : s.Sound) : (items.foldl removeItem s).Sound ∧ (items.foldl removeItem s).offsets = s.offsets ∧
    ∀ item, (items.foldl removeItem s).blacklist.lookup item = if item ∈ items then some none else s.blacklist.lookup item := by
  induction items generalizing s with
  | nil => exact ⟨hs, rfl, fun item => rfl⟩
  | cons item items ih =>
    have hoffsets : (removeItem s item).offsets = s.offsets := by cases item <;> rfl
    have hsound : (removeItem s item).Sound := by
      refine ⟨hoffsets ▸ hs.separated, fun item' hitem' => ?_⟩
      rw [removeItem_lookup]
      split_ifs with heq
      · exact Option.some_ne_none _
      · exact hs.pending item' ((mem_removeItem_pending.mp hitem').resolve_left heq)
    obtain ⟨ht, hsame, hlookup⟩ := ih hsound
    refine ⟨ht, hsame.trans hoffsets, fun item' => ?_⟩
    rw [List.foldl_cons, hlookup, removeItem_lookup]
    by_cases heq : item' = item
    · simp [heq]
    · simp [heq]

lemma restoreItem_spec (hs : s.Sound) (hitem : s.blacklist.lookup item ≠ none) : ∃ t, restoreItem s item = some t ∧
    t.Sound ∧ t.blacklisted = s.blacklisted \ s.bytesOf [item] ∧
    ∀ item', t.blacklist.lookup item' = if item' = item then none else s.blacklist.lookup item' := by
  have hdrop : ∀ t u : State, t.Sound → t.blacklist = s.blacklist → u.offsets = t.offsets →
      u.blacklist = t.blacklist.erase item → u.pendingData = t.pendingData.erase item → u.Sound ∧
        u.blacklisted = t.blacklisted ∧
        ∀ item', u.blacklist.lookup item' = if item' = item then none else s.blacklist.lookup item' := by
    intro t u ht hblacklist hoffsets herase hpending
    refine ⟨⟨hoffsets ▸ ht.separated, fun item' hitem' => ?_⟩, ?_, fun item' => ?_⟩
    · rw [hpending, OrdSet.mem_erase] at hitem'
      rw [herase, SortedMap.lookup_erase, if_neg hitem'.1]
      exact ht.pending item' hitem'.2
    · rw [State.blacklisted, hoffsets, State.blacklisted]
    · rw [herase, SortedMap.lookup_erase, hblacklist]
  obtain ⟨offsets, hlookup⟩ := Option.ne_none_iff_exists'.mp hitem
  cases item with
  | range range =>
    have hrange : s.rangeOf (.range range) = some range := by
      rw [State.rangeOf, hlookup]
      rfl
    obtain ⟨t, ht, hsound, hblacklisted, hblacklist, -⟩ := restoreOffsets_spec range hs
    obtain ⟨h1, h2, h3⟩ := hdrop t { t with
      blacklist := t.blacklist.erase (.range range)
      pendingData := t.pendingData.erase (.range range) } hsound hblacklist rfl rfl rfl
    refine ⟨_, by rw [restoreItem, ht, Option.map_some], h1, ?_, h3⟩
    rw [h2, hblacklisted, bytesOf_singleton hrange]
  | tx id =>
    have hrange : s.rangeOf (.tx id) = offsets := by
      rw [State.rangeOf, hlookup]
      rfl
    simp only [restoreItem, hlookup, Option.bind_eq_bind]
    cases offsets with
    | none =>
      obtain ⟨h1, h2, h3⟩ := hdrop s { s with
        blacklist := s.blacklist.erase (.tx id)
        pendingData := s.pendingData.erase (.tx id)
        pendingHeaders := s.pendingHeaders.erase id
        pendingRestoreHeaders := s.pendingRestoreHeaders.add id } hs rfl rfl rfl rfl
      refine ⟨_, rfl, h1, ?_, h3⟩
      rw [h2, bytesOf_singleton_of_none hrange, Set.sdiff_empty]
    | some range =>
      obtain ⟨t, ht, hsound, hblacklisted, hblacklist, -⟩ := restoreOffsets_spec range
        (s := { s with pendingRestoreHeaders := s.pendingRestoreHeaders.add id }) ⟨hs.separated, hs.pending⟩
      obtain ⟨h1, h2, h3⟩ := hdrop t { t with
        blacklist := t.blacklist.erase (.tx id)
        pendingData := t.pendingData.erase (.tx id)
        pendingHeaders := t.pendingHeaders.erase id } hsound hblacklist rfl rfl rfl
      refine ⟨_, by dsimp only; rw [ht, Option.bind_some], h1, ?_, h3⟩
      rw [h2, hblacklisted, bytesOf_singleton hrange]
      rfl

lemma foldlM_restoreItem (hs : s.Sound) (hnodup : items.Nodup) (hitems : ∀ item ∈ items, s.blacklist.lookup item ≠ none) :
    ∃ t, items.foldlM restoreItem s = some t ∧ t.Sound ∧ t.blacklisted = s.blacklisted \ s.bytesOf items ∧
      ∀ item, t.blacklist.lookup item = if item ∈ items then none else s.blacklist.lookup item := by
  induction items generalizing s with
  | nil => exact ⟨s, rfl, hs, by rw [bytesOf_nil, Set.sdiff_empty], fun item => rfl⟩
  | cons item items ih =>
    rw [List.nodup_cons] at hnodup
    obtain ⟨t, ht, hsound, hblacklisted, hlookup⟩ := restoreItem_spec hs (hitems item List.mem_cons_self)
    have hsame : ∀ item' ∈ items, t.blacklist.lookup item' = s.blacklist.lookup item' := by
      intro item' hitem'
      rw [hlookup, if_neg]
      rintro rfl
      exact hnodup.1 hitem'
    obtain ⟨u, hu, husound, hublacklisted, hulookup⟩ := ih hsound hnodup.2
      fun item' hitem' => hsame item' hitem' ▸ hitems item' (List.mem_cons_of_mem _ hitem')
    refine ⟨u, by rw [List.foldlM_cons, ht]; exact hu, husound, ?_, fun item' => ?_⟩
    · rw [hublacklisted, hblacklisted, bytesOf_cons s item items, Set.sdiff_sdiff,
        bytesOf_congr fun item' hitem' => rangeOf_congr (hsame item' hitem')]
    · rw [hulookup, hlookup]
      by_cases heq : item' = item
      · simp [heq]
      · simp [heq]

lemma refreshBlacklist_restores (whitelist blacklist : OrdSet Item) (hs : s.Sound) : ∃ t, refreshBlacklist whitelist blacklist s = some t ∧
    Restores s (restored whitelist blacklist s) t := by
  obtain ⟨hsound, hoffsets, hlookup⟩ := foldl_removeItem (removed whitelist blacklist s) hs
  have hnew : ∀ item, s.blacklist.lookup item ≠ none → item ∉ removed whitelist blacklist s := by
    intro item hitem hremoved
    have hnone := (List.mem_filter.mp hremoved).2
    cases item <;> simp at hnone <;> simp [hnone] at hitem
  have hrestored : ∀ item ∈ restored whitelist blacklist s, s.blacklist.lookup item ≠ none := by
    intro item hitem
    obtain ⟨⟨item', offsets⟩, hmem, rfl⟩ := List.mem_map.mp (List.mem_filter.mp hitem).1
    rw [SortedMap.lookup_eq_some.mpr hmem]
    exact Option.some_ne_none _
  have hsame : ∀ item, s.blacklist.lookup item ≠ none →
      ((removed whitelist blacklist s).foldl removeItem s).blacklist.lookup item = s.blacklist.lookup item := by
    intro item hitem
    rw [hlookup, if_neg (hnew item hitem)]
  have hnodup : (restored whitelist blacklist s).Nodup :=
    (List.pairwise_map.mpr (s.blacklist.sorted.imp fun hlt => hlt.ne)).filter _
  obtain ⟨t, ht, htsound, hblacklisted, htlookup⟩ := foldlM_restoreItem hsound hnodup
    fun item hitem => hsame item (hrestored item hitem) ▸ hrestored item hitem
  refine ⟨t, ht, htsound, ?_, fun item hitem range hrange => ?_⟩
  · rw [hblacklisted, State.blacklisted, hoffsets,
      bytesOf_congr fun item hitem => rangeOf_congr (hsame item (hrestored item hitem))]
    rfl
  · have hpresent := lookup_ne_none_of_rangeOf hrange
    rw [rangeOf_congr (s := s) (by rw [htlookup, if_neg hitem, hsame item hpresent])]
    exact hrange

end Restoring

section Messages

variable {s t : State} {message : Message} {id : Bytes} {range : Range}

/-- The entries that a message takes out of the table or whose offsets it forgets. -/
def State.restores (s : State) : Message → List Item
  | .refreshBlacklist whitelist blacklist => restored whitelist blacklist s
  | .orphanedTx id => [.tx id]
  | .addedTx id _ _ => [.tx id]
  | _ => []

lemma restores_insert {offsets : Option Range} (hs : s.Sound) (hoffsets : t.offsets = s.offsets)
    (hblacklist : t.blacklist = s.blacklist.insert (.tx id) offsets)
    (hpending : ∀ item ∈ t.pendingData, item = .tx id ∨ item ∈ s.pendingData) (hrange : s.rangeOf (.tx id) = none) :
    Restores s [.tx id] t := by
  refine restores_nothing ⟨hoffsets ▸ hs.separated, fun item hitem => ?_⟩ hoffsets (bytesOf_singleton_of_none hrange)
    fun item hitem range h => ?_
  · rw [hblacklist, SortedMap.lookup_insert]
    split_ifs with heq
    · exact Option.some_ne_none _
    · exact hs.pending item ((hpending item hitem).resolve_left heq)
  · rw [rangeOf_insert hblacklist fun heq => hitem (List.mem_singleton.mpr heq)]
    exact h

lemma restores_replace {offsets : Option Range} {u : State} (hs : s.Sound) (hrange : s.rangeOf (.tx id) = some range)
    (hrestore : restoreOffsets range s = some u) (hoffsets : t.offsets = u.offsets)
    (hblacklist : t.blacklist = u.blacklist.insert (.tx id) offsets)
    (hpending : ∀ item ∈ t.pendingData, item = .tx id ∨ item ∈ u.pendingData) : Restores s [.tx id] t := by
  obtain ⟨u', hu', hsound, hblacklisted, hsame, -⟩ := restoreOffsets_spec range hs
  obtain rfl : u' = u := Option.some.inj (hu'.symm.trans hrestore)
  refine ⟨⟨hoffsets ▸ hsound.separated, fun item hitem => ?_⟩, ?_, fun item hitem range' h => ?_⟩
  · rw [hblacklist, SortedMap.lookup_insert]
    split_ifs with heq
    · exact Option.some_ne_none _
    · exact hsound.pending item ((hpending item hitem).resolve_left heq)
  · rw [State.blacklisted, hoffsets, bytesOf_singleton hrange]
    exact hblacklisted
  · rw [rangeOf_insert (hsame ▸ hblacklist) fun heq => hitem (List.mem_singleton.mpr heq)]
    exact h

lemma restores_none (hs : s.Sound) : Restores s [] s := restores_nothing hs rfl bytesOf_nil fun _ _ _ h => h

/-- A message restores the offsets of some entries and then takes the data of others down. It does not fail. -/
lemma handle_spec (message : Message) (hs : s.Sound) : ∃ t r, handle s message = some r ∧ Restores s (s.restores message) t ∧ Takes t r := by
  have hnothing : ∀ t : State, t.Sound → Takes t (t, []) := fun t ht => takes_nothing ht rfl fun _ _ h => h
  cases message with
  | refreshBlacklist whitelist blacklist =>
    obtain ⟨t, ht, hrestores⟩ := refreshBlacklist_restores whitelist blacklist hs
    exact ⟨t, (t, []), by rw [handle, ht, Option.map_some], hrestores, hnothing t hrestores.sound⟩
  | requestDataTakedown answers =>
    obtain ⟨r, hr, htakes⟩ := requestDataTakedown_takes answers hs
    exact ⟨s, r, hr, restores_none hs, htakes⟩
  | removedRange ref answers =>
    simp only [handle]
    cases hrequest : s.requests.lookup ref with
    | none => exact ⟨s, _, rfl, restores_none hs, hnothing s hs⟩
    | some request =>
      obtain ⟨item, range⟩ := request
      have hforgets : Restores s [] { s with requests := s.requests.erase ref } :=
        restores_nothing ⟨hs.separated, hs.pending⟩ rfl bytesOf_nil fun _ _ _ h => h
      have htakenDown : Restores s [] { s with
          requests := s.requests.erase ref
          pendingData := s.pendingData.erase item } :=
        restores_nothing ⟨hs.separated, fun item hitem => hs.pending item (OrdSet.mem_erase.mp hitem).2⟩ rfl bytesOf_nil
          fun _ _ _ h => h
      dsimp only
      split_ifs
      · obtain ⟨r, hr, htakes⟩ := requestDataTakedown_takes answers htakenDown.sound
        exact ⟨_, r, hr, htakenDown, htakes⟩
      · exact ⟨_, _, rfl, hforgets, hnothing _ hforgets.sound⟩
  | orphanedTx id =>
    simp only [handle]
    cases hlookup : s.blacklist.lookup (.tx id) with
    | none =>
      refine ⟨s, _, rfl, restores_nothing hs rfl (bytesOf_singleton_of_none ?_) fun _ _ _ h => h, hnothing s hs⟩
      rw [State.rangeOf, hlookup]
      rfl
    | some offsets =>
      have hrange : s.rangeOf (.tx id) = offsets := by
        rw [State.rangeOf, hlookup]
        rfl
      cases offsets with
      | none => exact ⟨s, _, rfl, restores_nothing hs rfl (bytesOf_singleton_of_none hrange) fun _ _ _ h => h, hnothing s hs⟩
      | some range =>
        obtain ⟨u, hu, -⟩ := restoreOffsets_spec range hs
        have hrestores := restores_replace (t := { u with blacklist := u.blacklist.insert (.tx id) none }) hs hrange hu rfl rfl
          fun item hitem => Or.inr hitem
        exact ⟨_, _, by dsimp only; rw [hu, Option.map_some], hrestores, hnothing _ hrestores.sound⟩
  | addedTx id range answers =>
    simp only [handle]
    cases hlookup : s.blacklist.lookup (.tx id) with
    | none =>
      refine ⟨s, _, rfl, restores_nothing hs rfl (bytesOf_singleton_of_none ?_) fun _ _ _ h => h, hnothing s hs⟩
      rw [State.rangeOf, hlookup]
      rfl
    | some offsets =>
      have hrange : s.rangeOf (.tx id) = offsets := by
        rw [State.rangeOf, hlookup]
        rfl
      cases offsets with
      | none =>
        have hrestores := restores_insert (t := { s with
            blacklist := s.blacklist.insert (.tx id) (some range)
            pendingData := s.pendingData.add (.tx id) }) hs rfl rfl (fun item hitem => OrdSet.mem_add.mp hitem) hrange
        obtain ⟨r, hr, htakes⟩ := requestDataTakedown_takes answers hrestores.sound
        exact ⟨_, r, hr, hrestores, htakes⟩
      | some current =>
        obtain ⟨u, hu, -⟩ := restoreOffsets_spec current hs
        have hrestores := restores_replace (t := { u with
            blacklist := u.blacklist.insert (.tx id) (some range)
            pendingData := u.pendingData.add (.tx id) }) hs hrange hu rfl rfl fun item hitem => OrdSet.mem_add.mp hitem
        obtain ⟨r, hr, htakes⟩ := requestDataTakedown_takes answers hrestores.sound
        exact ⟨_, r, by dsimp only; rw [hu, Option.bind_some]; exact hr, hrestores, htakes⟩

end Messages

section Runs

/-- The server with the entries whose offsets are among the blacklisted bytes, which it does not store. -/
structure System where
  state : State := {}
  applied : OrdSet Item := OrdSet.empty

def System.step (s : System) (message : Message) : Option System :=
  (handle s.state message).map fun (t, effects) =>
    { state := t
      applied := OrdSet.ofList (s.applied.elems.filter (· ∉ s.state.restores message) ++ effects.map Effect.item) }

variable {s : System} {message : Message}

/-- The blacklisted bytes are those of the entries whose offsets have been applied. -/
structure System.Exact (s : System) : Prop where
  sound : s.state.Sound
  known : ∀ item ∈ s.applied, s.state.rangeOf item ≠ none
  blacklisted : s.state.blacklisted = s.state.bytesOf s.applied.elems

/-- An entry whose offsets are restored shares no bytes with an applied one that stays. -/
def System.Apart (s : System) (message : Message) : Prop :=
  ∀ item ∈ s.state.restores message, ∀ range ∈ s.state.rangeOf item,
    ∀ item' ∈ s.applied.elems, item' ∉ s.state.restores message → ∀ range' ∈ s.state.rangeOf item',
      range.endOffset ≤ range'.start ∨ range'.endOffset ≤ range.start

instance (s : System) (message : Message) : Decidable (s.Apart message) := by
  unfold System.Apart
  infer_instance

lemma bytesOf_append (t : State) (items items' : List Item) : t.bytesOf (items ++ items') = t.bytesOf items ∪ t.bytesOf items' := by
  ext n
  simp [State.bytesOf, or_and_right, exists_or]

lemma bytesOf_ofList (t : State) (items : List Item) : t.bytesOf (OrdSet.ofList items).elems = t.bytesOf items := by
  ext n
  simp [State.bytesOf]

lemma System.Exact.sdiff (hs : s.Exact) (hapart : s.Apart message) :
    s.state.blacklisted \ s.state.bytesOf (s.state.restores message) =
      s.state.bytesOf (s.applied.elems.filter (· ∉ s.state.restores message)) := by
  rw [hs.blacklisted]
  ext n
  constructor
  · rintro ⟨⟨item, hitem, range, hrange, hn⟩, hnot⟩
    refine ⟨item, List.mem_filter.mpr ⟨hitem, decide_eq_true fun hrestored => ?_⟩, range, hrange, hn⟩
    exact hnot ⟨item, hrestored, range, hrange, hn⟩
  · rintro ⟨item, hitem, range, hrange, hn⟩
    obtain ⟨hitem, hkept⟩ := List.mem_filter.mp hitem
    refine ⟨⟨item, hitem, range, hrange, hn⟩, ?_⟩
    rintro ⟨item', hitem', range', hrange', hn'⟩
    obtain h | h := hapart item' hitem' range' hrange' item hitem (of_decide_eq_true hkept) range hrange
    · exact (hn'.2.trans h).not_gt hn.1
    · exact (hn.2.trans h).not_gt hn'.1

lemma System.Exact.step (hs : s.Exact) (hapart : s.Apart message) : ∃ t, s.step message = some t ∧ t.Exact := by
  obtain ⟨u, r, hr, hrestores, htakes⟩ := handle_spec message hs.sound
  have hkept : ∀ item ∈ s.applied.elems.filter (· ∉ s.state.restores message), r.1.rangeOf item = s.state.rangeOf item := by
    intro item hitem
    obtain ⟨hitem, hkept⟩ := List.mem_filter.mp hitem
    obtain ⟨range, hrange⟩ := Option.ne_none_iff_exists'.mp (hs.known item hitem)
    rw [hrange]
    exact htakes.same item range (hrestores.same item (of_decide_eq_true hkept) range hrange)
  refine ⟨_, by rw [System.step, hr, Option.map_some], htakes.sound, fun item hitem => ?_, ?_⟩
  · obtain hitem | hitem := List.mem_append.mp (OrdSet.mem_ofList.mp hitem)
    · dsimp only
      rw [hkept item hitem]
      exact hs.known item (List.mem_filter.mp hitem).1
    · exact htakes.known item hitem
  · dsimp only
    rw [bytesOf_ofList, bytesOf_append, bytesOf_congr hkept, htakes.blacklisted, hrestores.blacklisted, hs.sdiff hapart]

lemma exact_start : System.Exact {} := by
  have hempty : EtsIntervals.family SortedMap.empty = ∅ := by
    ext p
    simp [SortedMap.empty]
  refine ⟨⟨?_, fun item hitem => ?_⟩, fun item hitem => ?_, ?_⟩
  · change Separated (EtsIntervals.family SortedMap.empty)
    rw [hempty]
    exact Separated.empty
  · cases hitem
  · cases hitem
  · refine Eq.trans ?_ bytesOf_nil.symm
    rw [State.blacklisted]
    change points (EtsIntervals.family SortedMap.empty) = ∅
    rw [hempty, points_empty]

lemma System.Exact.run {messages : List Message} (hs : s.Exact) (hapart : Along System.step System.Apart s messages) :
    ∃ t, messages.foldlM System.step s = some t ∧ t.Exact := by
  induction messages generalizing s with
  | nil => exact ⟨s, rfl, hs⟩
  | cons message messages ih =>
    obtain ⟨hfirst, hrest⟩ := along_cons.mp hapart
    obtain ⟨t, ht, hexact⟩ := hs.step hfirst
    obtain ⟨u, hu, huexact⟩ := ih hexact (hrest t ht)
    exact ⟨u, by rw [List.foldlM_cons, ht]; exact hu, huexact⟩

/-- As long as no entry is restored that shares bytes with another one, no message fails, and the blacklisted bytes are
those of the entries whose offsets have been applied. -/
theorem offsets_exact {messages : List Message} (hapart : Along System.step System.Apart {} messages) :
    ∃ s, messages.foldlM System.step {} = some s ∧ s.Exact :=
  exact_start.run hapart

/-- A list with two ranges. -/
def lists (r r' : Range) : OrdSet Item := OrdSet.ofList [.range r, .range r']

/-- The first range is taken down, its removal brings the second one down, and the second one leaves the lists. -/
def twoRanges (r r' : Range) : List Message :=
  [.refreshBlacklist OrdSet.empty (lists r r'), .requestDataTakedown ⟨.range r, fun _ => none⟩,
    .removedRange 0 ⟨.range r', fun _ => none⟩, .refreshBlacklist OrdSet.empty (OrdSet.ofList [.range r])]

theorem offsets_exact_twoRanges : ∃ s, (twoRanges ⟨10, 0, by decide⟩ ⟨20, 10, by decide⟩).foldlM System.step {} = some s ∧
    s.Exact :=
  offsets_exact (along_of_checkAlong (fun _ _ => of_decide_eq_true) (by decide +kernel))

/-- Byte 6 is in a range that is still on the lists, and no longer blacklisted. -/
theorem offsets_not_exact : ∃ s, (twoRanges ⟨10, 0, by decide⟩ ⟨15, 5, by decide⟩).foldlM System.step {} = some s ∧
    Item.range ⟨10, 0, by decide⟩ ∈ s.applied ∧ s.state.rangeOf (.range ⟨10, 0, by decide⟩) = some ⟨10, 0, by decide⟩ ∧
    EtsIntervals.isInside s.state.offsets 6 = false := by
  have hrun : ((twoRanges ⟨10, 0, by decide⟩ ⟨15, 5, by decide⟩).foldlM System.step {}).map (fun s : System =>
      (decide (Item.range ⟨10, 0, by decide⟩ ∈ s.applied), s.state.rangeOf (.range ⟨10, 0, by decide⟩),
        EtsIntervals.isInside s.state.offsets 6)) = some (true, some ⟨10, 0, by decide⟩, false) := by
    decide +kernel
  obtain ⟨s, hs, hresult⟩ := Option.map_eq_some_iff.mp hrun
  obtain ⟨happlied, hresult⟩ := Prod.mk.inj hresult
  obtain ⟨hrange, hinside⟩ := Prod.mk.inj hresult
  exact ⟨s, hs, of_decide_eq_true happlied, hrange, hinside⟩

end Runs

end Arweave.TxBlacklist
