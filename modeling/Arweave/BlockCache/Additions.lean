import Arweave.BlockCache.Expiry

/-!
# Adding blocks

A block that is added on top of a cached one, and a cached block that is written again, leave
tables that agree, if the expired blocks with its solution are apart from the other blocks that
the insertion writes back.
-/

namespace Arweave.BlockCache
open Arweave.Lib

variable {cfg : Config} {hidden : Option Bytes} {c c' : Cache} {h x y : Bytes} {e prev : Entry} {b : Block}
  {s : Status} {K : Block → Prop} {clock : Bytes → Nat} {stamp : Nat}

lemma exists_info_update {P : Block → Prop} (hnew : c.info b.indepHash = none)
    (hinfo : c'.info = Function.update c.info b.indepHash (some (b, s))) :
    (∃ d r, c'.info x = some (d, r) ∧ P d) ↔ (x = b.indepHash ∧ P b) ∨ ∃ d r, c.info x = some (d, r) ∧ P d := by
  rw [hinfo]
  by_cases hx : x = b.indepHash
  · rw [hx, Function.update_self, hnew]
    constructor
    · rintro ⟨d, r, heq, hd⟩
      cases heq
      exact .inl ⟨rfl, hd⟩
    · rintro (⟨-, hb⟩ | ⟨d, r, heq, -⟩)
      · exact ⟨b, s, rfl, hb⟩
      · cases heq
  · rw [Function.update_of_ne hx]
    exact (or_iff_right fun h => hx h.1).symm

lemma info_of_lookup_insert (hprev : c.blocks.lookup b.previousBlock = some prev)
    (hblocks : ∀ x, c'.blocks.lookup x = if x = b.indepHash then some ⟨b, s, stamp, .empty⟩ else
      if x = b.previousBlock then some { prev with children := prev.children.add b.indepHash }
      else c.blocks.lookup x) : c'.info = Function.update c.info b.indepHash (some (b, s)) := by
  funext x
  rw [Cache.info, hblocks]
  by_cases hx : x = b.indepHash
  · rw [if_pos hx, hx, Function.update_self]
    rfl
  · rw [if_neg hx, Function.update_of_ne hx]
    split_ifs with hxp
    · rw [hxp, info_of_lookup hprev]
      rfl
    · rfl

lemma Indexed.insert (hi : Indexed none c) (set : OrdSet Bytes) (hnew : c.info b.indepHash = none)
    (hinfo : c'.info = Function.update c.info b.indepHash (some (b, s)))
    (hset : ∀ x, x ∈ set ↔ x = b.indepHash ∨ x ∈ c.solutionSet b.hash)
    (hlinks : c'.links = c.links.add (toLex (b.height, b.indepHash)))
    (hsolutions : c'.solutions = c.solutions.insert b.hash set) : Indexed none c' where
  links n x := by
    have hkey : toLex (n, x) = toLex (b.height, b.indepHash) ↔ x = b.indepHash ∧ b.height = n := by
      rw [EmbeddingLike.apply_eq_iff_eq, Prod.mk.injEq, and_comm, @eq_comm _ n]
    rw [hlinks, OrdSet.mem_add, hi.links, exists_info_update hnew hinfo, hkey]
    simp only [ne_eq, reduceCtorEq, not_false_eq_true, true_and]
  solutions solutionH x := by
    rw [Cache.solutionSet, hsolutions, SortedMap.lookup_insert, exists_info_update hnew hinfo, ← hi.solutions]
    split_ifs with hsol
    · rw [Option.getD_some, hset, hsol]
      exact or_congr_left (and_iff_left rfl).symm
    · exact (or_iff_right fun h => hsol h.2.symm).symm
  nonempty solutionH set' hset' := by
    rw [hsolutions, SortedMap.lookup_insert] at hset'
    split_ifs at hset'
    · cases hset'
      exact ⟨b.indepHash, (hset _).mpr (.inl rfl)⟩
    · exact hi.nonempty solutionH set' hset'

/-- A new entry, with its link, its solution and its place among the children of the previous
block. -/
lemma Coherent.insert (c' : Cache) (set : OrdSet Bytes) (hK : Headers K) (hb : K b) (hc : Coherent K none c)
    (hnew : c.blocks.lookup b.indepHash = none) (hprev : c.blocks.lookup b.previousBlock = some prev)
    (hs : s ≠ .onChain) (hvalid : s.Valid → prev.status.Valid)
    (hset : ∀ x, x ∈ set ↔ x = b.indepHash ∨ x ∈ c.solutionSet b.hash)
    (hblocks : ∀ x, c'.blocks.lookup x = if x = b.indepHash then some ⟨b, s, stamp, .empty⟩ else
      if x = b.previousBlock then some { prev with children := prev.children.add b.indepHash }
      else c.blocks.lookup x)
    (hlinks : c'.links = c.links.add (toLex (b.height, b.indepHash)))
    (hsolutions : c'.solutions = c.solutions.insert b.hash set) :
    Coherent K none c' ∧ c'.info = Function.update c.info b.indepHash (some (b, s)) := by
  have hnew' : c.info b.indepHash = none := info_eq_none.mpr hnew
  have hprev' := info_of_lookup hprev
  have hinfo := info_of_lookup_insert hprev hblocks
  have hfits := hc.fits hK hb
  refine ⟨⟨hc.toIndexed.insert set hnew' hinfo hset hlinks hsolutions, ?_, ?_, ?_⟩, hinfo⟩
  · rw [hinfo]
    exact hc.tree.insert hfits hnew' hprev' hs hvalid
  · intro x d r hx
    rw [hinfo] at hx
    by_cases hxb : x = b.indepHash
    · rw [hxb, Function.update_self] at hx
      cases hx
      exact hb
    · rw [Function.update_of_ne hxb] at hx
      exact hc.known x d r hx
  · intro x e' he' y
    rw [hblocks] at he'
    rw [exists_info_update hnew' hinfo]
    split_ifs at he' with hx hxp
    · -- the new block has no children
      cases he'
      rw [hx]
      refine iff_of_false OrdSet.not_mem_empty ?_
      rintro (⟨-, heq⟩ | ⟨d, r, hy, heq⟩)
      · rw [heq, hnew] at hprev
        cases hprev
      · exact hc.tree.not_previousBlock hfits hnew' (by simp [hprev']) hy heq
    · cases he'
      rw [hxp, OrdSet.mem_add, hc.children _ prev hprev]
      exact or_congr_left (and_iff_left rfl).symm
    · rw [hc.children x e' he']
      exact (or_iff_right fun h => hxp h.2.symm).symm

lemma MaxOf.insert (hmax : MaxOf none c) (hnew : c.info b.indepHash = none)
    (hinfo : c'.info = Function.update c.info b.indepHash (some (b, s)))
    (hcdiff : c'.maxCdiff = if c.maxCdiff.1 < b.cumulativeDiff then (b.cumulativeDiff, b.indepHash) else c.maxCdiff) :
    MaxOf none c' := by
  obtain ⟨-, d, r, hd, hmaxd⟩ := hmax.cached
  have hne : c.maxCdiff.2 ≠ b.indepHash := by
    intro heq
    rw [heq, hnew] at hd
    cases hd
  by_cases hlt : c.maxCdiff.1 < b.cumulativeDiff
  · rw [if_pos hlt] at hcdiff
    constructor
    · rw [hcdiff, hinfo]
      exact ⟨by simp, b, s, Function.update_self .., rfl⟩
    · intro x p q hx _
      rw [hcdiff]
      rw [hinfo] at hx
      by_cases hxb : x = b.indepHash
      · rw [hxb, Function.update_self] at hx
        cases hx
        exact le_rfl
      · rw [Function.update_of_ne hxb] at hx
        exact (hmax.le x p q hx (by simp)).trans hlt.le
  · rw [if_neg hlt] at hcdiff
    constructor
    · rw [hcdiff, hinfo]
      exact ⟨by simp, d, r, by rw [Function.update_of_ne hne, hd], hmaxd⟩
    · intro x p q hx _
      rw [hcdiff]
      rw [hinfo] at hx
      by_cases hxb : x = b.indepHash
      · rw [hxb, Function.update_self] at hx
        cases hx
        exact not_lt.mp hlt
      · rw [Function.update_of_ne hxb] at hx
        exact hmax.le x p q hx (by simp)

/-- Entries with other statuses and the same headers. -/
structure Relabeled (K : Block → Prop) (c c' : Cache) : Prop where
  absent : ∀ x, c.blocks.lookup x = none → c'.blocks.lookup x = none
  present : ∀ x e, c.blocks.lookup x = some e → ∃ b s,
    c'.blocks.lookup x = some ⟨b, s, e.timestamp, e.children⟩ ∧ b.SameHeader e.block ∧ K b
  links : c'.links = c.links
  solutions : c'.solutions = c.solutions
  maxCdiff : c'.maxCdiff = c.maxCdiff

lemma Relabeled.relabels (hr : Relabeled K c c') : Relabels c.info c'.info where
  absent x hx := info_eq_none.mpr (hr.absent x (info_eq_none.mp hx))
  present x b s hx := by
    obtain ⟨e, he, rfl, rfl⟩ := exists_entry hx
    obtain ⟨b', s', he', hsame, -⟩ := hr.present x e he
    exact ⟨b', s', info_of_lookup he', hsame⟩

lemma Relabeled.back (hr : Relabeled K c c') {e' : Entry} (he' : c'.blocks.lookup x = some e') :
    ∃ e, c.blocks.lookup x = some e ∧ e'.block.SameHeader e.block ∧ K e'.block ∧ e'.children = e.children := by
  cases he : c.blocks.lookup x with
  | none =>
    rw [hr.absent x he] at he'
    cases he'
  | some e =>
    obtain ⟨b, s, hb, hsame, hK⟩ := hr.present x e he
    rw [he'] at hb
    cases hb
    exact ⟨e, rfl, hsame, hK, rfl⟩

lemma Coherent.relabel (hc : Coherent K hidden c) (hr : Relabeled K c c') (ht : Rooted c'.info) :
    Coherent K hidden c' := by
  -- a field of the header has the same value before and after
  have hfield : ∀ (x : Bytes) (P : Block → Prop), (∀ b b', b.SameHeader b' → P b' → P b) →
      ((∃ b s, c.info x = some (b, s) ∧ P b) ↔ ∃ b s, c'.info x = some (b, s) ∧ P b) := by
    intro x P hP
    constructor
    · rintro ⟨b, s, hx, hb⟩
      obtain ⟨b', s', hx', hsame⟩ := hr.relabels.present x b s hx
      exact ⟨b', s', hx', hP b' b hsame hb⟩
    · rintro ⟨b, s, hx, hb⟩
      obtain ⟨b', s', hx', hsame⟩ := hr.relabels.back hx
      exact ⟨b', s', hx', hP b' b hsame.symm hb⟩
  refine ⟨⟨?_, ?_, ?_⟩, ht, ?_, ?_⟩
  · intro n x
    rw [hr.links, hc.links, hfield x (fun b => b.height = n)]
    intro b b' hsame hb'
    exact hsame.2.2.2.2.trans hb'
  · intro solutionH x
    rw [Cache.solutionSet, hr.solutions]
    change x ∈ c.solutionSet solutionH ↔ _
    rw [hc.solutions, hfield x (fun b => b.hash = solutionH)]
    intro b b' hsame hb'
    exact hsame.2.1.trans hb'
  · rw [hr.solutions]
    exact hc.nonempty
  · intro x b s hx
    obtain ⟨e', he', rfl, -⟩ := exists_entry hx
    obtain ⟨e, -, -, hK, -⟩ := hr.back he'
    exact hK
  · intro x e' he' y
    obtain ⟨e, he, -, -, hchildren⟩ := hr.back he'
    rw [hchildren, hc.children x e he, hfield y (fun b => b.previousBlock = x)]
    intro b b' hsame hb'
    exact hsame.2.2.1.trans hb'

lemma MaxOf.relabel (hmax : MaxOf hidden c) (hr : Relabeled K c c') : MaxOf hidden c' := by
  constructor
  · obtain ⟨hhidden, b, s, hb, hcdiff⟩ := hmax.cached
    obtain ⟨b', s', hb', -, -, -, hsame, -⟩ := hr.relabels.present _ b s hb
    rw [hr.maxCdiff]
    exact ⟨hhidden, b', s', hb', hsame.trans hcdiff⟩
  · intro x b s hx hhidden
    obtain ⟨b', s', hx', -, -, -, hsame, -⟩ := hr.relabels.back hx
    rw [hr.maxCdiff, hsame]
    exact hmax.le x b' s' hx' hhidden

lemma relabeled_insert (c' : Cache) (s : Status) (hc : Coherent K hidden c) (he : c.blocks.lookup h = some e) (hb : K b)
    (hsame : b.SameHeader e.block)
    (hblocks : c'.blocks = c.blocks.insert h ⟨b, s, e.timestamp, e.children⟩) (hlinks : c'.links = c.links)
    (hsolutions : c'.solutions = c.solutions) (hcdiff : c'.maxCdiff = c.maxCdiff) :
    Relabeled K c c' ∧ c'.info = Function.update c.info h (some (b, s)) := by
  have hlookup : ∀ x, c'.blocks.lookup x =
      if x = h then some ⟨b, s, e.timestamp, e.children⟩ else c.blocks.lookup x := by
    intro x
    rw [hblocks, SortedMap.lookup_insert]
  refine ⟨⟨?_, ?_, hlinks, hsolutions, hcdiff⟩, ?_⟩
  · intro x hx
    rw [hlookup, if_neg, hx]
    rintro rfl
    rw [he] at hx
    cases hx
  · intro x e' he'
    rw [hlookup]
    by_cases hx : x = h
    · subst hx
      rw [he] at he'
      cases he'
      exact ⟨b, s, if_pos rfl, hsame, hb⟩
    · refine ⟨e'.block, e'.status, ?_, .rfl, hc.known x _ _ (info_of_lookup he')⟩
      rw [if_neg hx, he']
  · funext x
    rw [Cache.info, hlookup]
    by_cases hx : x = h
    · rw [if_pos hx, hx, Function.update_self]
      rfl
    · rw [if_neg hx, Function.update_of_ne hx]
      rfl

/-- The cache after blocks were added, or removed off chain. -/
structure Extended (cfg : Config) (K : Block → Prop) (c c' : Cache) : Prop where
  coherent : Coherent K none c'
  growth : Growth cfg.height26 c.info c'.info
  tip : c'.tip = c.tip
  max : MaxOf none c → MaxOf none c'
  fresh : c' = c ∨ ∃ c2, updateLongestChainCache cfg c2 = some c'

lemma Extended.self (hc : Coherent K none c) : Extended cfg K c c := ⟨hc, .refl, rfl, id, .inl rfl⟩

lemma extended_of_rewrite (hc : Coherent K none c) (he : c.blocks.lookup b.indepHash = some e) (hb : K b)
    (hK : Headers K)
    (hs : s = e.status ∨ e.status ≠ .onChain ∧ s = .validated ∧
      ∀ p r, c.info b.previousBlock = some (p, r) → r.Valid)
    {blocks : SortedMap Bytes Entry}
    (hblocks : blocks = c.blocks.insert b.indepHash ⟨b, s, e.timestamp, e.children⟩)
    (hupdate : updateLongestChainCache cfg { c with blocks } = some c') : Extended cfg K c c' := by
  obtain ⟨r, hr⟩ := updateLongestChainCache_eq hupdate
  have hsame : b.SameHeader e.block := (hc.fits hK hb).same _ _ (info_of_lookup he)
  obtain ⟨hrel, hinfo⟩ := relabeled_insert c' s hc he hb hsame (by rw [hr, hblocks])
    (by rw [hr]) (by rw [hr]) (by rw [hr])
  have hgrows : Grows cfg.height26 c.info c'.info := by
    rw [hinfo]
    exact .rewrite b e.block e.status s (info_of_lookup he) hsame hs
  exact ⟨hc.relabel hrel (hgrows.rooted hc.tree), .single hgrows, by rw [hr], fun hmax => hmax.relabel hrel,
    .inr ⟨_, hupdate⟩⟩

lemma Expired.lookup_none {solutionH : Bytes} {remaining : List Bytes}
    (hexpired : Expired cfg K c solutionH clock c' remaining) (hnew : c.blocks.lookup h = none) :
    c'.blocks.lookup h = none := by
  rw [← info_eq_none] at hnew ⊢
  by_contra hcached
  obtain ⟨v, hv⟩ := Option.ne_none_iff_exists'.mp hcached
  rw [(hexpired.removed.removes.some_iff.mp hv).2] at hnew
  cases hnew

lemma extended_of_insert {c2 : Cache} {remaining : List Bytes} (s : Status) (stamp : Nat) (hK : Headers K) (hb : K b)
    (hexpired : Expired cfg K c b.hash clock c2 remaining) (hnew : c.blocks.lookup b.indepHash = none)
    (hprev : c2.blocks.lookup b.previousBlock = some prev) (hs : Arrives cfg.height26 b s prev.status)
    {blocks : SortedMap Bytes Entry}
    (hblocks : ∀ x, blocks.lookup x = if x = b.indepHash then some ⟨b, s, stamp, .empty⟩ else
      if x = b.previousBlock then some { prev with children := prev.children.add b.indepHash }
      else c2.blocks.lookup x)
    (hupdate : updateLongestChainCache cfg
      { c2 with
        blocks
        maxCdiff := if c2.maxCdiff.1 < b.cumulativeDiff then (b.cumulativeDiff, b.indepHash) else c2.maxCdiff
        links := c2.links.add (toLex (b.height, b.indepHash))
        solutions := c2.solutions.insert b.hash (.ofList (b.indepHash :: remaining)) } = some c') :
    Extended cfg K c c' := by
  obtain ⟨r, hr⟩ := updateLongestChainCache_eq hupdate
  have hnone : c2.info b.indepHash = none := info_eq_none.mpr (hexpired.lookup_none hnew)
  obtain ⟨hc', hinfo⟩ := hexpired.coherent.insert c' (.ofList (b.indepHash :: remaining)) hK hb (info_eq_none.mp hnone) hprev hs.ne_onChain
    hs.valid (by
      intro x
      rw [OrdSet.mem_ofList, List.mem_cons, hexpired.remaining]) (by rw [hr]; exact hblocks) (by rw [hr])
      (by rw [hr])
  have hgrows : Grows cfg.height26 c2.info c'.info := by
    rw [hinfo]
    exact .insert b s prev.block prev.status (hexpired.coherent.fits hK hb) hnone (info_of_lookup hprev) hs
  refine ⟨hc', .head hexpired.grows (.single hgrows), ?_, ?_, .inr ⟨_, hupdate⟩⟩
  · rw [hr]
    exact hexpired.removed.tip
  · intro hmax
    exact (hexpired.max hmax).insert hnone hinfo (by rw [hr])

lemma not_mem_links (hc : Coherent K none c) (hnew : c.blocks.lookup h = none) (n : Nat) :
    toLex (n, h) ∉ c.links := by
  rw [hc.links]
  rintro ⟨-, b, s, hb, -⟩
  rw [info_eq_none.mpr hnew] at hb
  cases hb

theorem add_spec (hK : Headers K) (hb : K b) (hc : Coherent K none c)
    (hapart : c.blocks.lookup b.indepHash = none → Apart c b.hash clock)
    (hadd : add cfg c b clock stamp = some c') : Extended cfg K c c' := by
  rw [add] at hadd
  cases hlookup : c.blocks.lookup b.indepHash with
  | none =>
    rw [hlookup] at hadd
    obtain ⟨⟨c2, remaining⟩, hrun, hadd⟩ := Option.bind_eq_some_iff.mp hadd
    have hexpired := expired_spec hc (hapart hlookup) hrun
    obtain ⟨prev, hprev, hadd⟩ := Option.bind_eq_some_iff.mp hadd
    have hnew := hexpired.lookup_none hlookup
    rw [OrdSet.insert_eq_some (not_mem_links hexpired.coherent hnew _)] at hadd
    have hne : b.indepHash ≠ b.previousBlock := by
      intro heq
      rw [← heq, hnew] at hprev
      cases hprev
    refine extended_of_insert (if cfg.height26 ≤ b.height then .notValidated .awaitingNonceLimiterValidation
      else .notValidated .awaitingValidation) stamp hK hb hexpired hlookup hprev ?_ ?_ hadd
    · refine .inr ?_
      split_ifs with hfork
      · exact ⟨_, rfl, by simp [hfork, Status.Pending]⟩
      · exact ⟨_, rfl, by simp [hfork, Status.Pending]⟩
    · intro x
      rw [SortedMap.lookup_insert, SortedMap.lookup_insert]
      by_cases hx : x = b.indepHash
      · simp [hx, hne]
      · simp [hx]
  | some e =>
    obtain ⟨d, status, timestamp, children⟩ := e
    rw [hlookup] at hadd
    cases status with
    | notValidated stage => exact extended_of_rewrite hc hlookup hb hK (.inl rfl) rfl hadd
    | onChain =>
      cases hadd
      exact .self hc
    | validated =>
      cases hadd
      exact .self hc

/-- No expired block is below the previous block, or directly on top of it. -/
def Clear (c : Cache) (b : Block) (clock : Bytes → Nat) : Prop :=
  ∀ y, Expires c b.hash clock y → ¬Under c.info y b.previousBlock ∧
    ∀ d r, c.info y = some (d, r) → d.previousBlock ≠ b.previousBlock

lemma Expired.lookup_previousBlock {remaining : List Bytes} (hc : Coherent K none c)
    (hexpired : Expired cfg K c b.hash clock c' remaining) (hclear : Clear c b clock)
    (hprev : c.blocks.lookup b.previousBlock = some prev) : c'.blocks.lookup b.previousBlock = some prev := by
  have hrem := hexpired.removed.removes
  have hinfo : c'.info b.previousBlock = some (prev.block, prev.status) := by
    apply hrem.some_iff.mpr ⟨_, info_of_lookup hprev⟩
    rintro ⟨y, hy, hu⟩
    exact (hclear y hy).1 hu
  obtain ⟨e', he', hblock, hstatus⟩ := exists_entry hinfo
  obtain ⟨e, he, htime⟩ := hexpired.removed.timestamp _ e' he'
  rw [hprev] at he
  cases he
  have hchildren : e'.children = prev.children := by
    apply OrdSet.ext_mem
    intro k
    rw [hexpired.coherent.children _ e' he', hc.children _ prev hprev]
    simp only [hrem.some_iff]
    constructor
    · rintro ⟨d, r, ⟨-, hk⟩, hd⟩
      exact ⟨d, r, hk, hd⟩
    · rintro ⟨d, r, hk, hd⟩
      refine ⟨d, r, ⟨?_, hk⟩, hd⟩
      rintro ⟨y, hy, hu⟩
      by_cases hky : k = y
      · exact (hclear y hy).2 d r (hky ▸ hk) hd
      · obtain ⟨d', r', hk', hu'⟩ := hu.cached hky
        rw [hk] at hk'
        cases hk'
        exact (hclear y hy).1 (hd ▸ hu')
  rw [he', Entry.ext hblock hstatus htime hchildren]

lemma addAbove_spec (hK : Headers K) (hb : K b) (hc : Coherent K none c)
    (hapart : c.blocks.lookup b.indepHash = none → Apart c b.hash clock ∧ Clear c b clock)
    (hprev : c.blocks.lookup b.previousBlock = some prev) (hvalid : prev.status.Valid)
    (hadd : addAbove cfg c b prev clock stamp = some c') : Extended cfg K c c' := by
  rw [addAbove] at hadd
  cases hlookup : c.blocks.lookup b.indepHash with
  | none =>
    rw [hlookup] at hadd
    obtain ⟨⟨c2, remaining⟩, hrun, hadd⟩ := Option.bind_eq_some_iff.mp hadd
    have hexpired := expired_spec hc (hapart hlookup).1 hrun
    have hnew := hexpired.lookup_none hlookup
    have hprev2 := hexpired.lookup_previousBlock hc (hapart hlookup).2 hprev
    obtain ⟨links2, hlinks, hadd⟩ := Option.bind_eq_some_iff.mp hadd
    rw [OrdSet.insert_eq_some (not_mem_links hexpired.coherent hnew _)] at hlinks
    cases hlinks
    refine extended_of_insert .validated stamp hK hb hexpired hlookup hprev2 (.inl ⟨rfl, hvalid⟩) ?_ hadd
    intro x
    rw [SortedMap.lookup_insert, SortedMap.lookup_insert]
  | some e =>
    have hinfo := info_of_lookup hlookup
    -- the block is already among the children of the previous one
    have hsame : b.SameHeader e.block := (hc.fits hK hb).same _ _ hinfo
    have hchild : prev.children.add b.indepHash = prev.children := by
      apply OrdSet.ext_mem
      intro k
      rw [OrdSet.mem_add]
      constructor
      · rintro (rfl | hk)
        · exact (hc.children _ prev hprev _).mpr ⟨_, _, hinfo, hsame.2.2.1.symm⟩
        · exact hk
      · exact .inr
    rw [hlookup, hchild, SortedMap.insert_of_lookup_eq_some hprev] at hadd
    have hvalid' : ∀ p r, c.info b.previousBlock = some (p, r) → r.Valid := by
      intro p r hp
      rw [info_of_lookup hprev] at hp
      cases hp
      exact hvalid
    obtain ⟨d, status, timestamp, children⟩ := e
    cases status with
    | onChain => exact extended_of_rewrite hc hlookup hb hK (.inl rfl) rfl hadd
    | validated => exact extended_of_rewrite hc hlookup hb hK (.inl rfl) rfl hadd
    | notValidated stage =>
      exact extended_of_rewrite hc hlookup hb hK (.inr ⟨by simp, rfl, hvalid'⟩) rfl hadd

theorem addValidated_spec (hK : Headers K) (hb : K b) (hc : Coherent K none c)
    (hapart : c.blocks.lookup b.indepHash = none → Apart c b.hash clock ∧ Clear c b clock)
    (hadd : addValidated cfg c b clock stamp = some c') : Extended cfg K c c' := by
  obtain ⟨prev, hprev, hadd⟩ := Option.bind_eq_some_iff.mp hadd
  cases hstatus : prev.status with
  | notValidated stage =>
    rw [hstatus] at hadd
    cases hadd
  | onChain =>
    rw [hstatus] at hadd
    exact addAbove_spec hK hb hc hapart hprev (by rw [hstatus]; trivial) hadd
  | validated =>
    rw [hstatus] at hadd
    exact addAbove_spec hK hb hc hapart hprev (by rw [hstatus]; trivial) hadd

lemma setStage_spec (hc : Coherent K none c) {expected stage : Stage}
    (hset : setStage cfg c h expected stage = some c') :
    c' = c ∨ ∃ b, c.info h = some (b, .notValidated expected) ∧
      c'.info = Function.update c.info h (some (b, .notValidated stage)) ∧ Relabeled K c c' ∧
      Coherent K none c' ∧ c'.tip = c.tip ∧ ∃ c2, updateLongestChainCache cfg c2 = some c' := by
  rw [setStage] at hset
  cases he : c.blocks.lookup h with
  | none =>
    rw [he] at hset
    cases hset
    exact .inl rfl
  | some e =>
    rw [he] at hset
    simp only at hset
    split_ifs at hset with hstatus
    · obtain ⟨r, hr⟩ := updateLongestChainCache_eq hset
      have hinfo : c.info h = some (e.block, .notValidated expected) := hstatus ▸ info_of_lookup he
      obtain ⟨hrel, hinfo'⟩ := relabeled_insert c' (.notValidated stage) hc he (hc.known _ _ _ hinfo)
        .rfl (by rw [hr]) (by rw [hr]) (by rw [hr]) (by rw [hr])
      refine .inr ⟨e.block, hinfo, hinfo', hrel, hc.relabel hrel ?_, by rw [hr], _, hset⟩
      rw [hinfo']
      exact hc.tree.rewrite hinfo .rfl (by simp) False.elim False.elim
    · cases hset
      exact .inl rfl

end Arweave.BlockCache
