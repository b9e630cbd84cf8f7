import Arweave.Wallet.StoreInvariant

/-!
# Reading account trees back

`Reads` is a finite derivation of the lookups that lead from a hash and a prefix to a list of
entries. Both readers follow such a derivation to its end. A store that keeps the invariant has
a derivation for everything that it holds, by induction on the number of entries and, along
lists with a single reference, on the length of the prefix.
-/

namespace Arweave.Wallet
open Arweave.Lib Arweave.Patricia

section Find

variable {addr : Bytes} {keys : List (Bytes × Bytes)}

/-- A reference with the longest non-empty prefix of the address. -/
def LongestMatch (addr : Bytes) (keys : List (Bytes × Bytes)) : Option (Bytes × Bytes) → Prop
  | none => ∀ r ∈ keys, r.2 ≠ [] → ¬r.2 <+: addr
  | some r => r ∈ keys ∧ r.2 ≠ [] ∧ r.2 <+: addr ∧
    ∀ r' ∈ keys, r'.2 <+: addr → r'.2.length ≤ r.2.length

lemma LongestMatch.skip {r : Option (Bytes × Bytes)} {x : Bytes × Bytes} {l l' : List (Bytes × Bytes)}
    (h : LongestMatch addr (l ++ l') r)
    (hx : x.2 <+: addr → x.2 = [] ∨ ∃ y ∈ l ++ l', y.2 ≠ [] ∧ y.2 <+: addr ∧ x.2.length ≤ y.2.length) :
    LongestMatch addr (l ++ x :: l') r := by
  have hmem : ∀ y, y ∈ l ++ x :: l' ↔ y = x ∨ y ∈ l ++ l' := by
    intro y
    simp only [List.mem_append, List.mem_cons]
    tauto
  cases r with
  | none =>
    intro y hy hne hpre
    rcases (hmem y).mp hy with rfl | hy
    · rcases hx hpre with hnil | ⟨z, hz, hzne, hzpre, -⟩
      · exact hne hnil
      · exact h z hz hzne hzpre
    · exact h y hy hne hpre
  | some r =>
    obtain ⟨hr, hne, hpre, hmax⟩ := h
    refine ⟨(hmem r).mpr (.inr hr), hne, hpre, fun y hy hypre => ?_⟩
    rcases (hmem y).mp hy with rfl | hy
    · rcases hx hypre with hnil | ⟨z, hz, -, hzpre, hle⟩
      · rw [hnil]
        exact Nat.zero_le _
      · exact hle.trans (hmax z hz hzpre)
    · exact hmax y hy hypre

lemma findKeyFrom_longestMatch (best : Option (Bytes × Bytes))
    (hbest : ∀ r ∈ best, r.1 ≠ [] ∧ r.2 ≠ [] ∧ r.2 <+: addr) (hkeys : ∀ r ∈ keys, r.1 ≠ []) :
    LongestMatch addr (best.toList ++ keys)
      (findKeyFrom addr keys ((best.map Prod.fst).getD [], best.map Prod.snd)) := by
  induction keys generalizing best with
  | nil =>
    cases best with
    | none => simp [findKeyFrom, LongestMatch]
    | some r =>
      obtain ⟨h1, h2, h3⟩ := hbest r rfl
      simp [findKeyFrom, LongestMatch, h1, h2, h3]
  | cons x keys ih =>
    obtain ⟨h, p⟩ := x
    have hkeys' : ∀ r ∈ keys, r.1 ≠ [] := fun r hr => hkeys r (by simp [hr])
    rw [findKeyFrom]
    split_ifs with hskip hpre
    · apply (ih best hbest hkeys').skip
      intro _
      rcases hskip with hnil | ⟨q, hq, hle⟩
      · exact .inl hnil
      · obtain ⟨r, hr, rfl⟩ := Option.map_eq_some_iff.mp hq
        obtain ⟨-, h2, h3⟩ := hbest r hr
        exact .inr ⟨r, by simp [hr], h2, h3, hle⟩
    · rw [not_or, not_exists] at hskip
      have hih := ih (some (h, p)) (by simpa using ⟨hkeys (h, p) (by simp), hskip.1, hpre⟩) hkeys'
      cases best with
      | none => exact hih
      | some r =>
        apply LongestMatch.skip (l := []) hih
        intro _
        have hlt : p.length > r.2.length := by simpa using hskip.2 r.2
        exact .inr ⟨(h, p), by simp, hskip.1, hpre, hlt.le⟩
    · apply (ih best hbest hkeys').skip
      intro h'
      exact absurd h' hpre

lemma findKey_longestMatch (hkeys : ∀ r ∈ keys, r.1 ≠ []) :
    LongestMatch addr keys (findKeyByMatchingLongestPrefix addr keys) :=
  findKeyFrom_longestMatch none (by simp) hkeys

end Find

section Reads

variable {V : Type}

/-- The reference that is chosen for an address leads to its entry, if there is one. -/
def Routes (subs : List ((Bytes × Bytes) × List (Bytes × V))) : Prop :=
  ∀ addr, match findKeyByMatchingLongestPrefix addr (subs.map Prod.fst) with
    | none => ∀ s ∈ subs, ∀ e ∈ s.2, e.1 ≠ addr
    | some r => ∃ s ∈ subs, s.1 = r ∧ ∀ t ∈ subs, ∀ e ∈ t.2, e.1 = addr → e ∈ s.2

/-- The lookups from a hash and a prefix end at the given entries. -/
inductive Reads (store : Store V) : Bytes → Bytes → List (Bytes × V) → Prop
  | leaf (h p found key : Bytes) (v : V)
      (hfound : getAccountTreeValue store h p = some (found, .leaf key v)) (hmatch : MatchesKey found h) :
      Reads store h p [(key, v)]
  | list (h p found : Bytes) (subs : List ((Bytes × Bytes) × List (Bytes × V))) (hne : subs ≠ [])
      (hfound : getAccountTreeValue store h p = some (found, .list (subs.map Prod.fst)))
      (hmatch : MatchesKey found h) (hroutes : Routes subs)
      (hsubs : ∀ s ∈ subs, Reads store s.1.1 s.1.2 s.2) : Reads store h p (subs.flatMap Prod.snd)

def insertAll (es : List (Bytes × V)) (tree : Patricia.Tree V) : Option (Patricia.Tree V) :=
  es.foldlM (fun tree e => insert e.1 e.2 tree) tree

/-- The loop of `readWalletListFrom`, from its pending references. -/
def readPending (store : Store V) (rootHash : Bytes) (fuel : Nat) (tree : Patricia.Tree V) :
    List (Bytes × Bytes) → Option (ReadResult (Patricia.Tree V))
  | [] => some (.ok tree)
  | (h, p) :: keys => readWalletListFrom store rootHash fuel (getAccountTreeValue store h p) tree keys h

/-- The loop inserts the entries that a reference leads to, and goes on. -/
lemma Reads.readPending {store : Store V} {h p : Bytes} {es : List (Bytes × V)} (hr : Reads store h p es)
    (rootHash : Bytes) : ∃ n, ∀ fuel tree tree' keys, insertAll es tree = some tree' →
      readPending store rootHash (fuel + n) tree ((h, p) :: keys) =
        readPending store rootHash fuel tree' keys := by
  induction hr with
  | leaf h p found key v hfound hmatch =>
    refine ⟨1, fun fuel tree tree' keys hins => ?_⟩
    rw [Wallet.readPending, hfound, readWalletListFrom, if_pos hmatch]
    have hins : insert key v tree = some tree' := by simpa [insertAll] using hins
    rw [hins]
    cases keys <;> rfl
  | list h p found subs hne hfound hmatch _ _ ih =>
    have hall : ∀ l : List ((Bytes × Bytes) × List (Bytes × V)), (∀ s ∈ l, s ∈ subs) →
        ∃ n, ∀ fuel tree tree' keys, insertAll (l.flatMap Prod.snd) tree = some tree' →
          Wallet.readPending store rootHash (fuel + n) tree (l.map Prod.fst ++ keys) =
            Wallet.readPending store rootHash fuel tree' keys := by
      intro l hl
      induction l with
      | nil =>
        refine ⟨0, fun fuel tree tree' keys hins => ?_⟩
        cases hins
        rfl
      | cons s l ihl =>
        obtain ⟨n1, h1⟩ := ih s (hl s (by simp))
        obtain ⟨n2, h2⟩ := ihl fun t ht => hl t (by simp [ht])
        refine ⟨n2 + n1, fun fuel tree tree' keys hins => ?_⟩
        rw [List.flatMap_cons, insertAll, List.foldlM_append] at hins
        obtain ⟨tree1, hins1, hins2⟩ := Option.bind_eq_some_iff.mp hins
        rw [List.map_cons, List.cons_append, ← Nat.add_assoc, h1 _ tree tree1 _ hins1,
          h2 fuel tree1 tree' keys hins2]
    obtain ⟨n, hn⟩ := hall subs fun s hs => hs
    refine ⟨n + 1, fun fuel tree tree' keys hins => ?_⟩
    obtain ⟨s0, subs0, rfl⟩ := List.exists_cons_of_ne_nil hne
    rw [← hn fuel tree tree' keys hins, Wallet.readPending, hfound, ← Nat.add_assoc, List.map_cons,
      readWalletListFrom, if_pos hmatch]
    rfl

/-- The search for an address ends at its entry, or finds that there is none. -/
lemma Reads.readAccount {store : Store Account} {h p : Bytes} {es : List (Bytes × Account)}
    (hr : Reads store h p es) (addr : Bytes) : ∃ n acc,
      (∀ fuel, readAccountFrom store addr (fuel + n) h p = some (.ok acc)) ∧
      ((addr, acc) ∈ es ∨ acc = .v1 0 [] ∧ ∀ e ∈ es, e.1 ≠ addr) := by
  induction hr with
  | leaf h p found key v hfound hmatch =>
    refine ⟨1, if key = addr then v else .v1 0 [], fun fuel => ?_, ?_⟩
    · rw [readAccountFrom, hfound]
      simp only [if_pos hmatch]
    · split_ifs with hk
      · exact .inl (by simp [hk])
      · exact .inr ⟨rfl, by simpa using hk⟩
  | list h p found subs hne hfound hmatch hroutes _ ih =>
    obtain ⟨s0, subs0, rfl⟩ := List.exists_cons_of_ne_nil hne
    have hroute := hroutes addr
    cases hfind : findKeyByMatchingLongestPrefix addr ((s0 :: subs0).map Prod.fst) with
    | none =>
      rw [hfind] at hroute
      refine ⟨1, .v1 0 [], fun fuel => ?_, .inr ⟨rfl, fun e he => ?_⟩⟩
      · rw [readAccountFrom, hfound]
        simp only [if_pos hmatch]
        rw [List.map_cons] at hfind ⊢
        simp only [hfind]
      · obtain ⟨s, hs, he⟩ := List.mem_flatMap.mp he
        exact hroute s hs e he
    | some r =>
      rw [hfind] at hroute
      obtain ⟨s, hs, rfl, hrest⟩ := hroute
      obtain ⟨n, acc, hread, hacc⟩ := ih s hs
      refine ⟨n + 1, acc, fun fuel => ?_, ?_⟩
      · rw [← Nat.add_assoc, readAccountFrom, hfound]
        simp only [if_pos hmatch]
        rw [List.map_cons] at hfind ⊢
        simp only [hfind]
        exact hread fuel
      · rcases hacc with hmem | ⟨hzero, hnone⟩
        · exact .inl (List.mem_flatMap.mpr ⟨s, hs, hmem⟩)
        · refine .inr ⟨hzero, fun e he heq => ?_⟩
          obtain ⟨t, ht, he⟩ := List.mem_flatMap.mp he
          exact hnone e (hrest t ht e he heq) heq

end Reads

section Subs

variable {V : Type} (H : Digest 48) (hashFun : Bytes → V → Bytes)

/-- The references of a list, each with the entries that it leads to. -/
def referred (N : SortedMap Bytes V) (p f : Bytes) : List ((Bytes × Bytes) × List (Bytes × V)) :=
  (N.lookup f).toList.map (fun v => ((hashFun f v, p), [(f, v)])) ++
    (branches N f).map fun b => ((trieHash H hashFun N (f ++ [b]), f ++ [b]), below N (f ++ [b]))

variable {H hashFun} {N : SortedMap Bytes V} {p f : Bytes}

lemma map_fst_referred : (referred H hashFun N p f).map Prod.fst = references H hashFun N p f := by
  rw [referred, references, List.map_append, List.map_map, List.map_map]
  rfl

lemma flatMap_snd_referred : (referred H hashFun N p f).flatMap Prod.snd = below N f := by
  rw [below_eq f, referred, List.flatMap_append, List.flatMap_map, List.flatMap_map]
  cases N.lookup f <;> simp

lemma mem_referred {s : (Bytes × Bytes) × List (Bytes × V)} (hs : s ∈ referred H hashFun N p f) :
    (∃ v, N.lookup f = some v ∧ s = ((hashFun f v, p), [(f, v)])) ∨
      ∃ b ∈ branches N f, s = ((trieHash H hashFun N (f ++ [b]), f ++ [b]), below N (f ++ [b])) := by
  rcases List.mem_append.mp hs with hs | hs
  · obtain ⟨v, hv, rfl⟩ := List.mem_map.mp hs
    exact .inl ⟨v, Option.mem_toList.mp hv, rfl⟩
  · obtain ⟨b, hb, rfl⟩ := List.mem_map.mp hs
    exact .inr ⟨b, hb, rfl⟩

lemma below_branch_ne_nil {b : UInt8} (hb : b ∈ branches N f) : below N (f ++ [b]) ≠ [] := by
  obtain ⟨e, he, hpre⟩ := mem_branches.mp hb
  exact List.ne_nil_of_mem (mem_below.mpr ⟨he, hpre⟩)

lemma referred_spec (hpre : p <+: f) (hown : N.lookup f ≠ none → p ≠ [])
    {s : (Bytes × Bytes) × List (Bytes × V)} (hs : s ∈ referred H hashFun N p f) :
    s.2 ≠ [] ∧ s.1.2 ≠ [] ∧ (∀ e ∈ s.2, s.1.2 <+: e.1) ∧
      Commits H hashFun (· ∈ N.entries) (· ∈ innerLists H hashFun N) s.2 s.1.1 := by
  rcases mem_referred hs with ⟨v, hv, rfl⟩ | ⟨b, hb, rfl⟩
  · refine ⟨by simp, hown (by simp [hv]), by simpa using hpre, ?_⟩
    exact .leaf (f, v) (SortedMap.lookup_eq_some.mp hv)
  · have hne := below_branch_ne_nil hb
    refine ⟨hne, by simp, fun e he => (mem_below.mp he).2, trieHash_commits _ hne⟩

/-- The longest matching prefix is the right one. -/
lemma routes_referred (hlen : ∀ key v, (hashFun key v).length = 48) (hpre : p <+: f)
    (hown : N.lookup f ≠ none → p ≠ []) : Routes (referred H hashFun N p f) := by
  have hhash : ∀ r ∈ (referred H hashFun N p f).map Prod.fst, r.1 ≠ [] := by
    intro r hr hnil
    obtain ⟨s, hs, rfl⟩ := List.mem_map.mp hr
    have hlength : s.1.1.length = 48 := by
      rcases mem_referred hs with ⟨v, -, rfl⟩ | ⟨b, hb, rfl⟩
      · exact hlen _ _
      · exact length_trieHash hlen _ (below_branch_ne_nil hb)
    rw [hnil] at hlength
    cases hlength
  intro addr
  have hmatch := @findKey_longestMatch addr _ hhash
  cases hfind : findKeyByMatchingLongestPrefix addr ((referred H hashFun N p f).map Prod.fst) with
  | none =>
    rw [hfind] at hmatch
    rintro s hs e he rfl
    obtain ⟨-, hne, hbelow, -⟩ := referred_spec hpre hown hs
    exact hmatch s.1 (List.mem_map_of_mem hs) hne (hbelow e he)
  | some r =>
    rw [hfind] at hmatch
    obtain ⟨hr, -, hraddr, hmax⟩ := hmatch
    obtain ⟨s, hs, rfl⟩ := List.mem_map.mp hr
    refine ⟨s, hs, rfl, ?_⟩
    rintro t ht e he rfl
    have hte := (referred_spec hpre hown ht).2.2.1 e he
    have hle := hmax t.1 (List.mem_map_of_mem ht) hte
    have hp := hpre.length_le
    -- the reference to the own entry has a shorter prefix than the others
    rcases mem_referred hs with ⟨v, hv, rfl⟩ | ⟨b, hb, rfl⟩ <;>
      rcases mem_referred ht with ⟨w, hw, rfl⟩ | ⟨c, hc, rfl⟩
    · rw [hv] at hw
      cases hw
      exact he
    · simp only [List.length_append, List.length_singleton] at hle
      omega
    · obtain rfl := List.mem_singleton.mp he
      have := hraddr.length_le
      simp at this
    · exact mem_below.mpr ⟨(mem_below.mp he).1, hraddr⟩

end Subs

section Derive

variable {V : Type} (H : Digest 48) (hashFun : Bytes → V → Bytes) (maps : List (SortedMap Bytes V))

/-- The hashes of the nodes of some maps do not collide. -/
def NoCollisions : Prop :=
  Binding H hashFun (fun e => ∃ N ∈ maps, e ∈ N.entries) (fun l => ∃ N ∈ maps, l ∈ innerLists H hashFun N)

/-- The hash stands for the entries, in one of the maps. -/
def Bound (es : List (Bytes × V)) (h : Bytes) : Prop :=
  Commits H hashFun (fun e => ∃ N ∈ maps, e ∈ N.entries) (fun l => ∃ N ∈ maps, l ∈ innerLists H hashFun N)
    es h

variable {H hashFun maps} {store : Store V} {N : SortedMap Bytes V} {h p q : Bytes} {entry : Entry V}
  {es : List (Bytes × V)}

lemma bound_of_commits (hN : N ∈ maps)
    (hc : Commits H hashFun (· ∈ N.entries) (· ∈ innerLists H hashFun N) es h) : Bound H hashFun maps es h :=
  hc.mono (fun _ he => ⟨N, hN, he⟩) fun _ hl => ⟨N, hN, hl⟩

lemma below_ne_nil_of_branches (hne : branches N p ≠ []) : below N p ≠ [] := by
  obtain ⟨b, hb⟩ := List.exists_mem_of_ne_nil _ hne
  obtain ⟨e, he, hpre⟩ := mem_branches.mp hb
  exact List.ne_nil_of_mem (mem_below.mpr ⟨he, (List.prefix_append _ _).trans hpre⟩)

lemma Describes.bound (hd : Describes H hashFun N h p entry es) (hN : N ∈ maps) :
    Bound H hashFun maps es h ∧ ∀ e ∈ es, p <+: e.1 := by
  cases hd with
  | leaf _ key v hmem hpre => exact ⟨bound_of_commits hN (.leaf (key, v) hmem), by simpa using hpre⟩
  | list _ f hne hpre hown =>
    refine ⟨bound_of_commits hN (trieHash_commits f (below_ne_nil_of_branches hne)), fun e he => ?_⟩
    exact hpre.trans (mem_below.mp he).2

lemma Describes.cases_list (hd : Describes H hashFun N h p entry es) :
    (∃ key v, entry = .leaf key v ∧ es = [(key, v)]) ∨
      ∃ f, p <+: f ∧ (N.lookup f ≠ none → p ≠ []) ∧ entry = .list ((referred H hashFun N p f).map Prod.fst) ∧
        es = (referred H hashFun N p f).flatMap Prod.snd := by
  cases hd with
  | leaf _ key v => exact .inl ⟨key, v, rfl, rfl⟩
  | list _ f hne hpre hown => exact .inr ⟨f, hpre, hown, by rw [map_fst_referred], flatMap_snd_referred.symm⟩

lemma length_lt_flatMap {α β : Type} {l : List (α × List β)} {s : α × List β} (hs : s ∈ l)
    (htwo : 2 ≤ l.length) (hne : ∀ t ∈ l, t.2 ≠ []) : s.2.length < (l.flatMap Prod.snd).length := by
  obtain ⟨a, b, rfl⟩ := List.append_of_mem hs
  have hpos : ∀ c : List (α × List β), (∀ t ∈ c, t.2 ≠ []) → c ≠ [] → 0 < (c.flatMap Prod.snd).length := by
    intro c hc hcne
    obtain ⟨t, c, rfl⟩ := List.exists_cons_of_ne_nil hcne
    have := List.length_pos_iff.mpr (hc t (by simp))
    rw [List.flatMap_cons, List.length_append]
    omega
  simp only [List.flatMap_append, List.flatMap_cons, List.length_append]
  by_cases ha : a = []
  · have hb : b ≠ [] := by
      rintro rfl
      simp [ha] at htwo
    have := hpos b (fun t ht => hne t (by simp [ht])) hb
    omega
  · have := hpos a (fun t ht => hne t (by simp [ht])) ha
    omega

lemma eq_of_between {h' p' : Bytes} (hlen : h.length = h'.length) (hle : h ++ p ≤ h' ++ p')
    (hge : h' ++ p' ≤ h ++ q) : h' = h ∧ p ≤ p' := by
  obtain rfl : h' = h := by
    rcases lt_trichotomy h' h with hlt | heq | hlt
    · have := lt_of_prefixes hlen.symm hlt (List.prefix_append h' p') (List.prefix_append h p)
      exact absurd hle (not_le.mpr this)
    · exact heq
    · have := lt_of_prefixes hlen hlt (List.prefix_append h q) (List.prefix_append h' p')
      exact absurd hge (not_le.mpr this)
  exact ⟨rfl, not_lt.mp fun hlt => absurd hle (not_le.mpr (List.append_left_lt hlt))⟩

section Persisted

variable (hlen : ∀ key v, (hashFun key v).length = 48) (hP : Persisted H hashFun maps store)
  (hb : NoCollisions H hashFun maps)
include hlen hP hb

lemma Persisted.exists_found (hst : Stored store h p) (hpq : p <+: q) (hes : es ≠ [])
    (hbound : Bound H hashFun maps es h) (hq : ∀ e ∈ es, q <+: e.1) :
    ∃ p' entry, ∃ N ∈ maps, getAccountTreeValue store h q = some (h ++ p', entry) ∧
      (h ++ p', entry) ∈ store.entries ∧ p.length ≤ p'.length ∧ h.length = 48 ∧
      Describes H hashFun N h p' entry es := by
  obtain ⟨entry0, hmem0⟩ := hst
  have hle : h ++ p ≤ h ++ q := le_of_isPrefix ((List.prefix_append_right_inj h).mpr hpq)
  obtain ⟨⟨key, entry⟩, hmem, hprev, hkey, hge⟩ := SortedMap.exists_prev hmem0 hle
  obtain ⟨N, hN, h', p', es', rfl, hd⟩ := hP.described _ hmem
  have hlength : h.length = 48 := by
    cases hbound with
    | leaf e _ => exact hlen _ _
    | node subs _ _ => exact DeepHash.length_hash _
  obtain ⟨rfl, hpp'⟩ := eq_of_between (hlength.trans (length_of_describes hlen hd).symm) hge hkey
  obtain ⟨hbound', hpre'⟩ := hd.bound hN
  obtain rfl := Commits.unique hb hbound' hbound
  refine ⟨p', entry, N, hN, hprev, hmem, ?_, hlength, hd⟩
  obtain ⟨e, he⟩ := List.exists_mem_of_ne_nil _ hes
  by_contra hlt
  have hsub : p' <+: p :=
    List.prefix_of_prefix_length_le (hpre' e he) (hpq.trans (hq e he)) (not_le.mp hlt).le
  have hne : p' ≠ p := by
    rintro rfl
    exact hlt le_rfl
  exact absurd hpp' (not_le.mpr (lt_of_prefix_of_ne hsub hne))

/-- Everything that a persisted store holds can be read. -/
theorem Persisted.reads (hst : Stored store h p) (hpq : p <+: q) (hes : es ≠ [])
    (hbound : Bound H hashFun maps es h) (hq : ∀ e ∈ es, q <+: e.1) : Reads store h q es := by
  induction hm : es.length using Nat.strong_induction_on generalizing es h p q with
  | _ m ih =>
    obtain ⟨e0, he0⟩ := List.exists_mem_of_ne_nil _ hes
    induction hd : e0.1.length - p.length using Nat.strong_induction_on generalizing h p q with
    | _ d ihd =>
      obtain ⟨p', entry, N, hN, hfound, hmem, hpp', hlength, hdescribes⟩ :=
        hP.exists_found hlen hb hst hpq hes hbound hq
      have hmatch : MatchesKey (h ++ p') h := by simp [MatchesKey, hlength]
      rcases hdescribes.cases_list with ⟨key, v, rfl, rfl⟩ | ⟨f, hpre, hown, rfl, rfl⟩
      · exact .leaf h q _ key v hfound hmatch
      · have hne : referred H hashFun N p' f ≠ [] := by
          intro hnil
          exact hes (by rw [hnil]; rfl)
        refine .list h q _ _ hne hfound hmatch (routes_referred hlen hpre hown) fun s hs => ?_
        obtain ⟨hs2, -, hqs, hcommits⟩ := referred_spec hpre hown hs
        obtain ⟨p2, hst2, hp2, hlt⟩ := hP.resolved h p' _ hlength hmem s.1 (List.mem_map_of_mem hs)
        have hbound2 := bound_of_commits hN hcommits
        by_cases htwo : 2 ≤ (referred H hashFun N p' f).length
        · -- the entries are spread over several references
          refine ih _ ?_ hst2 hp2 hs2 hbound2 hqs rfl
          rw [← hm]
          exact length_lt_flatMap hs htwo fun t ht => (referred_spec hpre hown ht).1
        · -- a single reference leads to a longer prefix
          obtain ⟨t, ht⟩ := List.length_eq_one_iff.mp
            (show (referred H hashFun N p' f).length = 1 by have := List.length_pos_iff.mpr hne; omega)
          obtain rfl : s = t := by rwa [ht, List.mem_singleton] at hs
          have hflat : (referred H hashFun N p' f).flatMap Prod.snd = s.2 := by rw [ht]; simp
          have hlt := hlt (by rw [ht]; rfl)
          rw [hflat] at he0 ihd
          have hle := (hp2.trans (hqs e0 he0)).length_le
          exact ihd _ (by omega) hst2 hp2 hbound2 hqs rfl

end Persisted

end Derive

section Run

variable {V : Type} {H : Digest 48} {hashFun : Bytes → V → Bytes}

lemma exists_insertAll (H : Digest 48) (hashFun : Bytes → V → Bytes) (M : SortedMap Bytes V) {L : Nat}
    (hM : ∀ e ∈ M.entries, e.1.length ≤ L) :
    ∃ tree, insertAll M.entries new = some tree ∧ Sound H hashFun tree M L := by
  have hgen : ∀ (es : List (Bytes × V)) (tree : Patricia.Tree V) (N : SortedMap Bytes V),
      (∀ e ∈ es, e.1.length ≤ L) → Sound H hashFun tree N L →
      ∃ tree', insertAll es tree = some tree' ∧
        Sound H hashFun tree' (es.foldl (fun m e => m.insert e.1 e.2) N) L := by
    intro es
    induction es with
    | nil =>
      intro tree N _ h
      exact ⟨tree, rfl, h⟩
    | cons e es ih =>
      intro tree N hes h
      obtain ⟨tree1, hins, h1⟩ := h.insert (hes e (by simp)) e.2
      obtain ⟨tree2, hrest, h2⟩ := ih tree1 _ (fun e he => hes e (by simp [he])) h1
      refine ⟨tree2, ?_, h2⟩
      rw [insertAll, List.foldlM_cons, hins]
      exact hrest
  obtain ⟨tree, hins, h⟩ := hgen M.entries new .empty hM (sound_new L)
  rw [SortedMap.foldl_insert_entries] at h
  exact ⟨tree, hins, h⟩

lemma Sound.length_le {tree : Patricia.Tree V} {M : SortedMap Bytes V} {L : Nat}
    (h : Sound H hashFun tree M L) {e : Bytes × V} (he : e ∈ M.entries) : e.1.length ≤ L := by
  obtain ⟨k, n, hk, hfull, -⟩ := h.represents.mem_iff.mp he
  rw [← hfull]
  exact h.bounded k n hk

lemma Invariant.reads_root {s : State V} {M : SortedMap Bytes V} {maps : List (SortedMap Bytes V)} {L : Nat}
    (hi : Invariant H hashFun s M maps L) (hlen : ∀ key v, (hashFun key v).length = 48)
    (hb : NoCollisions H hashFun maps) (hM : M ∈ maps) (hsize : M.size ≠ 0)
    (hst : Stored s.store (trieHash H hashFun M []) []) :
    Reads s.store (trieHash H hashFun M []) [] M.entries := by
  have hne : below M [] ≠ [] := by
    rw [below_nil]
    intro hnil
    exact hsize (by rw [SortedMap.size, hnil]; rfl)
  rw [← below_nil]
  exact hi.persisted.reads hlen hb hst (List.prefix_refl _) hne (bound_of_commits hM (trieHash_commits _ hne))
    fun e _ => List.nil_prefix

/-- Persisted account trees read back, in every run whose trees are covered when they are
stored. After each hash-and-store step, the wallet list under the root hash is the map of the
tree, and the account under an address is its value, or the empty account. -/
theorem read_back (H : Digest 48) (order : UpdateMap Account → UpdateMap Account) (ops : List (Op Account))
    (L fuel : Nat) (horder : ∀ updates, (order updates).Perm updates) (hops : ∀ op ∈ ops, op.Fits L)
    (hfuel : L + 2 ≤ fuel) (hkeys : ∀ key acc, .insert key acc ∈ ops → key ≠ [])
    (hcov : ∀ before after s, ops ++ [.computeHash] = before ++ .computeHash :: after →
      State.initial.run H (accountHash H) order fuel before = some s → s.Covered)
    (hcol : NoCollisions H (accountHash H) (history (ops ++ [.computeHash])).2) :
    ∃ s rootHash s', State.initial.run H (accountHash H) order fuel ops = some s ∧
      s.persist H (accountHash H) order fuel = some (rootHash, s') ∧
      (∃ tree n, (∀ readFuel, n ≤ readFuel → readWalletList s'.store readFuel rootHash = some (.ok tree)) ∧
        tree.size = s'.tree.size ∧ ∀ key, get key tree = get key s'.tree) ∧
      (s'.tree.size ≠ 0 → ∀ addr, ∃ n, ∀ readFuel, n ≤ readFuel →
        readAccount s'.store readFuel addr rootHash = some (.ok ((get addr s'.tree).getD (.v1 0 [])))) := by
  obtain ⟨s, hrun, hi⟩ := (invariant_initial L).run length_accountHash horder hfuel hops hkeys
    (x := (.empty, [])) fun before after s heq hrun =>
      hcov before (after ++ [.computeHash]) s (by rw [heq, List.append_assoc]; rfl) hrun
  have hcovered : s.Covered := hcov ops [] s rfl hrun
  obtain ⟨rootHash, s', hpersist, hi', hzero, hroot⟩ := hi.persist length_accountHash horder hfuel hcovered
  have hmaps : (history (ops ++ [.computeHash])).2 =
      (ops.foldl record (.empty, [])).1 :: (ops.foldl record (.empty, [])).2 := by
    rw [history, List.foldl_append]
    rfl
  rw [hmaps] at hcol
  set M := (ops.foldl record (.empty, [])).1 with hM
  refine ⟨s, rootHash, s', hrun, hpersist, ?_, fun hsize addr => ?_⟩
  · by_cases hsize : M.size = 0
    · have hempty : M = .empty := SortedMap.ext (List.length_eq_zero_iff.mp hsize)
      refine ⟨new, 0, fun readFuel _ => ?_, ?_, fun key => ?_⟩
      · rw [hzero hsize]
        rfl
      · rw [hi'.sound.represents.size, hsize]
        rfl
      · have hnew : Represents (new : Patricia.Tree Account) .empty :=
          (@sound_new _ H (accountHash H) L).represents
        rw [hi'.sound.represents.get_eq, hempty, hnew.get_eq]
    · obtain ⟨rfl, hst⟩ := hroot hsize
      have hreads := hi'.reads_root length_accountHash hcol (by simp) hsize hst
      obtain ⟨tree, hins, hsound⟩ :=
        exists_insertAll H (accountHash H) M fun e he => Sound.length_le hi'.sound he
      obtain ⟨n, hn⟩ := hreads.readPending (trieHash H (accountHash H) M [])
      refine ⟨tree, n, fun readFuel hle => ?_, ?_, fun key => ?_⟩
      · have hne : trieHash H (accountHash H) M [] ≠ [] := by
          intro hnil
          have hlength : (trieHash H (accountHash H) M []).length = 48 := by
            apply length_trieHash length_accountHash
            rw [below_nil]
            intro hnil
            exact hsize (by rw [SortedMap.size, hnil]; rfl)
          rw [hnil] at hlength
          cases hlength
        obtain ⟨d, rfl⟩ := Nat.exists_eq_add_of_le' hle
        rw [readWalletList, if_neg hne]
        exact hn d new tree [] hins
      · rw [hsound.represents.size, hi'.sound.represents.size]
      · rw [hsound.represents.get_eq, hi'.sound.represents.get_eq]
  · have hsize : M.size ≠ 0 := hi'.sound.represents.size ▸ hsize
    obtain ⟨rfl, hst⟩ := hroot hsize
    have hreads := hi'.reads_root length_accountHash hcol (by simp) hsize hst
    obtain ⟨n, acc, hread, hacc⟩ := hreads.readAccount addr
    have hvalue : acc = (get addr s'.tree).getD (.v1 0 []) := by
      rw [hi'.sound.represents.get_eq]
      rcases hacc with hmem | ⟨rfl, hnone⟩
      · rw [SortedMap.lookup_eq_some.mpr hmem]
        rfl
      · rw [lookup_eq_none_of_forall hnone]
        rfl
    refine ⟨n, fun readFuel hle => ?_⟩
    obtain ⟨d, rfl⟩ := Nat.exists_eq_add_of_le' hle
    rw [Wallet.readAccount, hread d, hvalue]

end Run

def sampleAddr (c : UInt8) : Bytes := 97 :: c :: List.replicate 30 99

def sampleAccount (balance : Nat) : Account := .v2 balance [] 1 true

/-- An account is stored, and another one is created and deleted by an orphaned block. -/
def orphanOps : List (Op Account) :=
  [.insert (sampleAddr 97) (sampleAccount 1), .computeHash, .insert (sampleAddr 98) (sampleAccount 2),
    .computeHash, .delete (sampleAddr 98)]

lemma run_tree {V : Type} {H : Digest 48} {hashFun : Bytes → V → Bytes} {order : UpdateMap V → UpdateMap V}
    {fuel : Nat} {ops : List (Op V)} {s s' : State V} (h : s.run H hashFun order fuel ops = some s') :
    Patricia.run H hashFun fuel ops s.tree = some s'.tree := by
  induction ops generalizing s with
  | nil =>
    cases h
    rfl
  | cons op ops ih =>
    rw [State.run, List.foldlM_cons] at h
    obtain ⟨s1, hstep, hrest⟩ := Option.bind_eq_some_iff.mp h
    have htree : op.step H hashFun fuel s.tree = some s1.tree := by
      cases op with
      | insert key v =>
        obtain ⟨tree, htree, rfl⟩ := Option.map_eq_some_iff.mp hstep
        exact htree
      | delete key =>
        obtain ⟨tree, htree, rfl⟩ := Option.map_eq_some_iff.mp hstep
        exact htree
      | computeHash =>
        obtain ⟨⟨r, s2⟩, hpersist, rfl⟩ := Option.map_eq_some_iff.mp hstep
        obtain ⟨⟨r', tree, updates⟩, hcompute, heq⟩ := Option.bind_eq_some_iff.mp hpersist
        cases heq
        rw [Op.step, hcompute]
        rfl
    rw [Patricia.run, List.foldlM_cons, htree]
    exact ih hrest

lemma covered_of_contents {V : Type} {H : Digest 48} {hashFun : Bytes → V → Bytes}
    {order : UpdateMap V → UpdateMap V} {L fuel : Nat} (hfuel : L + 2 ≤ fuel) {ops : List (Op V)}
    (hops : ∀ op ∈ ops, op.Fits L) {s : State V}
    (hrun : State.initial.run H hashFun order fuel ops = some s)
    (h : ∀ e ∈ (contents ops).entries, ∀ k ∈ e.1.inits, s.CoveredAt k) : s.Covered := by
  obtain ⟨tree, htree, hsound⟩ := sound_run H hashFun hfuel hops
  have heq : tree = s.tree := Option.some.inj (htree.symm.trans (run_tree hrun))
  subst heq
  intro k n hn
  obtain ⟨e, he⟩ := List.exists_mem_of_ne_nil _
    (hsound.represents.entriesUnder_ne_nil hsound.bounded (Option.mem_def.mp hn))
  obtain ⟨he, hpre, -⟩ := mem_entriesUnder.mp he
  exact h e he k ((List.mem_inits _ _).mpr hpre) n hn

set_option maxRecDepth 10000 in
theorem read_back_orphanOps :
    ∃ s rootHash s',
      State.initial.run Sha2.sha384 (accountHash Sha2.sha384) id 34 orphanOps = some s ∧
      s.persist Sha2.sha384 (accountHash Sha2.sha384) id 34 = some (rootHash, s') ∧
      (∃ tree n, (∀ readFuel, n ≤ readFuel → readWalletList s'.store readFuel rootHash = some (.ok tree)) ∧
        tree.size = s'.tree.size ∧ ∀ key, get key tree = get key s'.tree) ∧
      (s'.tree.size ≠ 0 → ∀ addr, ∃ n, ∀ readFuel, n ≤ readFuel →
        readAccount s'.store readFuel addr rootHash = some (.ok ((get addr s'.tree).getD (.v1 0 [])))) := by
  have hfits : ∀ n < 6, ∀ op ∈ (orphanOps ++ [Op.computeHash]).take n, op.Fits 32 := by decide
  have hcheck : ∀ n ∈ [1, 3, 5], ∀ s ∈ State.initial.run Sha2.sha384 (accountHash Sha2.sha384) id 34
      ((orphanOps ++ [Op.computeHash]).take n),
      ∀ e ∈ (contents ((orphanOps ++ [Op.computeHash]).take n)).entries, ∀ k ∈ e.1.inits, s.CoveredAt k := by
    decide +kernel
  have hleaf : ∀ N ∈ (history (orphanOps ++ [Op.computeHash])).2, ∀ e ∈ N.entries,
      ∀ N' ∈ (history (orphanOps ++ [Op.computeHash])).2, ∀ e' ∈ N'.entries,
      accountHash Sha2.sha384 e.1 e.2 = accountHash Sha2.sha384 e'.1 e'.2 → e = e' := by
    decide
  have hlist : ∀ N ∈ (history (orphanOps ++ [Op.computeHash])).2,
      ∀ l ∈ innerLists Sha2.sha384 (accountHash Sha2.sha384) N,
      ∀ N' ∈ (history (orphanOps ++ [Op.computeHash])).2,
      ∀ l' ∈ innerLists Sha2.sha384 (accountHash Sha2.sha384) N',
      DeepHash.hash Sha2.sha384 (l.map .blob) = DeepHash.hash Sha2.sha384 (l'.map .blob) → l = l' := by
    decide +kernel
  have hseparate : ∀ N ∈ (history (orphanOps ++ [Op.computeHash])).2, ∀ e ∈ N.entries,
      ∀ N' ∈ (history (orphanOps ++ [Op.computeHash])).2,
      ∀ l ∈ innerLists Sha2.sha384 (accountHash Sha2.sha384) N',
      accountHash Sha2.sha384 e.1 e.2 ≠ DeepHash.hash Sha2.sha384 (l.map .blob) := by
    decide +kernel
  apply read_back Sha2.sha384 id orphanOps 32 34 (fun _ => List.Perm.refl _) (hfits 5 (by decide))
    (by decide)
  · intro key acc hmem
    simp only [orphanOps, List.mem_cons, Op.insert.injEq, reduceCtorEq, false_or, or_false, List.not_mem_nil] at hmem
    rcases hmem with ⟨rfl, -⟩ | ⟨rfl, -⟩ <;> decide
  · intro before after s heq hrun
    have hlen : before.length < 6 := by
      have := congrArg List.length heq
      simp only [orphanOps, List.length_append, List.length_cons, List.length_nil] at this
      omega
    have htake : before = (orphanOps ++ [Op.computeHash]).take before.length := by rw [heq]; simp
    have hget : (orphanOps ++ [Op.computeHash])[before.length]? = some .computeHash := by rw [heq]; simp
    have hmem : before.length ∈ [1, 3, 5] := by
      generalize before.length = n at hlen hget
      interval_cases n <;> first | decide | cases hget
    rw [htake] at hrun
    exact covered_of_contents (by decide) (hfits _ hlen) hrun (hcheck _ hmem s hrun)
  · rw [NoCollisions]
    refine ⟨?_, ?_, ?_⟩
    · rintro e e' ⟨N, hN, he⟩ ⟨N', hN', he'⟩
      exact hleaf N hN e he N' hN' e' he'
    · rintro l l' ⟨N, hN, hl⟩ ⟨N', hN', hl'⟩
      exact hlist N hN l hl N' hN' l' hl'
    · rintro e l ⟨N, hN, he⟩ ⟨N', hN', hl⟩
      exact hseparate N hN e he N' hN' l hl

section Diverge

variable {V : Type} {store : Store V} {rootHash found h p : Bytes} {r : Bytes × Bytes}
  {hs : List (Bytes × Bytes)}

lemma readWalletListFrom_none (hfound : getAccountTreeValue store h p = some (found, .list (r :: hs)))
    (hmatch : MatchesKey found h) (hnext : ∀ fuel tree keys,
      readWalletListFrom store rootHash fuel (getAccountTreeValue store r.1 r.2) tree keys r.1 = none)
    (fuel : Nat) (tree : Patricia.Tree V) (keys : List (Bytes × Bytes)) :
    readWalletListFrom store rootHash fuel (getAccountTreeValue store h p) tree keys h = none := by
  cases fuel with
  | zero => rw [readWalletListFrom]
  | succ fuel =>
    rw [hfound, readWalletListFrom, if_pos hmatch]
    exact hnext fuel tree _

lemma readWalletListFrom_self (hmatch : MatchesKey found r.1)
    (hfound : getAccountTreeValue store r.1 r.2 = some (found, .list [r])) (rootHash : Bytes) (fuel : Nat)
    (tree : Patricia.Tree V) (keys : List (Bytes × Bytes)) :
    readWalletListFrom store rootHash fuel (getAccountTreeValue store r.1 r.2) tree keys r.1 = none := by
  induction fuel with
  | zero => rw [readWalletListFrom]
  | succ fuel ih =>
    rw [hfound, readWalletListFrom, if_pos hmatch]
    exact ih

variable {accounts : Store Account} {addr : Bytes}

lemma readAccountFrom_none (hfound : getAccountTreeValue accounts h p = some (found, .list (r :: hs)))
    (hmatch : MatchesKey found h) {r' : Bytes × Bytes}
    (hfind : findKeyByMatchingLongestPrefix addr (r :: hs) = some r')
    (hnext : ∀ fuel, readAccountFrom accounts addr fuel r'.1 r'.2 = none) (fuel : Nat) :
    readAccountFrom accounts addr fuel h p = none := by
  cases fuel with
  | zero => rw [readAccountFrom]
  | succ fuel =>
    rw [readAccountFrom, hfound]
    simp only [if_pos hmatch, hfind]
    exact hnext fuel

lemma readAccountFrom_self (hmatch : MatchesKey found r.1)
    (hfound : getAccountTreeValue accounts r.1 r.2 = some (found, .list [r]))
    (hfind : findKeyByMatchingLongestPrefix addr [r] = some r) (fuel : Nat) :
    readAccountFrom accounts addr fuel r.1 r.2 = none := by
  induction fuel with
  | zero => rw [readAccountFrom]
  | succ fuel ih =>
    rw [readAccountFrom, hfound]
    simp only [if_pos hmatch, hfind]
    exact ih

end Diverge

def keptAddr : Bytes := List.replicate 32 97

/-- A stored account moves down twice before the next hash, and the fork in between is gone by
then. -/
def forgottenForkOps : List (Op Account) :=
  [.insert keptAddr (sampleAccount 1), .computeHash, .insert (sampleAddr 98) (sampleAccount 2),
    .insert (sampleAddr 97) (sampleAccount 3), .delete (sampleAddr 97)]

/-- The state after the operations and one more hash-and-store step, with the root hash. -/
def forgottenFork : Option (Bytes × State Account) := do
  let s ← State.initial.run Sha2.sha384 (accountHash Sha2.sha384) id 34 forgottenForkOps
  s.persist Sha2.sha384 (accountHash Sha2.sha384) id 34

set_option maxRecDepth 10000 in
/-- Neither reader returns after the operations: the account is stored under one byte of its
address, and the list that is stored under two bytes refers to three bytes, where the lookup
finds this list again. -/
theorem read_back_forgottenFork : ∃ s rootHash s',
    State.initial.run Sha2.sha384 (accountHash Sha2.sha384) id 34 forgottenForkOps = some s ∧
    s.persist Sha2.sha384 (accountHash Sha2.sha384) id 34 = some (rootHash, s') ∧
    get keptAddr s'.tree = some (sampleAccount 1) ∧
    ∀ fuel, readWalletList s'.store fuel rootHash = none ∧
      readAccount s'.store fuel keptAddr rootHash = none := by
  set h := accountHash Sha2.sha384 keptAddr (sampleAccount 1) with hh
  set h2 := accountHash Sha2.sha384 (sampleAddr 98) (sampleAccount 2) with hh2
  have hsome : forgottenFork.isSome := by decide +kernel
  have hlookups : ∀ x ∈ forgottenFork, x.1.length = 48 ∧
      get keptAddr x.2.tree = some (sampleAccount 1) ∧
      getAccountTreeValue x.2.store x.1 [] = some (x.1, .list [(x.1, [97])]) ∧
      getAccountTreeValue x.2.store x.1 [97] =
        some (x.1 ++ [97], .list [(h, [97, 97]), (h2, [97, 98])]) ∧
      getAccountTreeValue x.2.store h [97, 97] = some (h ++ [97, 97], .list [(h, [97, 97, 97])]) ∧
      getAccountTreeValue x.2.store h [97, 97, 97] = some (h ++ [97, 97], .list [(h, [97, 97, 97])]) := by
    decide +kernel
  obtain ⟨⟨rootHash, s'⟩, hfork⟩ := Option.isSome_iff_exists.mp hsome
  obtain ⟨s, hrun, hpersist⟩ := Option.bind_eq_some_iff.mp hfork
  obtain ⟨hlen, hget, hroot, hbranch, hlist, hself⟩ := hlookups _ hfork
  have hmroot : ∀ p, MatchesKey (rootHash ++ p) rootHash := fun p => by simp [MatchesKey, hlen]
  have hmself : ∀ p, MatchesKey (h ++ p) h := fun p => by simp [MatchesKey, hh]
  have hne : rootHash ≠ [] := by
    rintro rfl
    cases hlen
  refine ⟨s, rootHash, s', hrun, hpersist, hget, fun fuel => ⟨?_, ?_⟩⟩
  · rw [readWalletList, if_neg hne]
    -- the root, its only child and the fork lead to the list
    apply readWalletListFrom_none hroot (by simpa using hmroot [])
    apply readWalletListFrom_none hbranch (hmroot _)
    apply readWalletListFrom_none hlist (hmself _)
    exact readWalletListFrom_self (hmself _) hself rootHash
  · have hfind : findKeyByMatchingLongestPrefix keptAddr [(rootHash, [97])] = some (rootHash, [97]) := by
      simp [findKeyByMatchingLongestPrefix, findKeyFrom, keptAddr, hne]
    have hfind2 : findKeyByMatchingLongestPrefix keptAddr [(h, [97, 97]), (h2, [97, 98])] =
        some (h, [97, 97]) := by decide
    have hfind3 : findKeyByMatchingLongestPrefix keptAddr [(h, [97, 97, 97])] = some (h, [97, 97, 97]) := by
      decide
    apply readAccountFrom_none hroot (by simpa using hmroot []) hfind
    apply readAccountFrom_none hbranch (hmroot _) hfind2
    apply readAccountFrom_none hlist (hmself _) hfind3
    exact readAccountFrom_self (hmself _) hself hfind3

end Arweave.Wallet
