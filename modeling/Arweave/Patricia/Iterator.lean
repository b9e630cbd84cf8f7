import Arweave.Patricia.Contents

/-!
# Iterators

`get_range` walks over the tree with an iterator that points at a node with a value. The next
node is the smallest child, or the next sibling, or the next sibling of an ancestor; from
there the walk descends to the first node with a value. `Rest` is the list of entries from
the position of an iterator on.
-/

namespace Arweave.Patricia
open Arweave.Lib

variable {V : Type}

/-- A node with its key, or the end. The tree, which the iterator of the source carries along, is
an argument of the functions. -/
abbrev Iterator (V : Type) := Option (Key × Node V)

/-- `iterator/2` -/
def iteratorAt (tree : Tree V) : Nat → Key → Option (Iterator V)
  | 0, _ => none
  | fuel + 1, key => do
    let n ← tree.node key
    match n.value with
    | some _ => some (some (key, n))
    | none =>
      match n.children.smallest with
      | none => some none
      | some child => iteratorAt tree fuel (.bin child)

/-- `iterator/1` -/
def iterator (fuel : Nat) (tree : Tree V) : Option (Iterator V) := iteratorAt tree fuel .root

def iteratorFrom (start : Bytes) (tree : Tree V) : Iterator V :=
  (getFrom start tree 1).map fun x => (.bin x.1, x.2)

/-- The next element of an ordered set after a key: the set is iterated from the key on, and
the key itself is skipped. -/
def nextSibling (key : Bytes) (children : OrdSet Bytes) : Option Bytes :=
  match children.elems.filter (key ≤ ·) with
  | [] => none
  | first :: rest => if first = key then rest.head? else some first

mutual

def getNextStartFromChildren (tree : Tree V) :
    Nat → Key → Option Key → OrdSet Bytes → Option (Iterator V)
  | 0, _, _, _ => none
  | fuel + 1, key, parent, children =>
    match children.smallest with
    | none => getNextStartFromSibling tree fuel key parent
    | some child => do
      let n ← tree.node (.bin child)
      match n.value with
      | none => getNextStartFromChildren tree fuel (.bin child) (some key) n.children
      | some _ => some (some (.bin child, n))

def getNextStartFromSibling (tree : Tree V) : Nat → Key → Option Key → Option (Iterator V)
  | 0, _, _ => none
  | fuel + 1, key, parent =>
    match key, parent with
    | .root, none => some none
    | key, parent => do
      let parent ← parent
      let p ← tree.node parent
      let bytes ← key.bytes
      match nextSibling bytes p.children with
      | none => getNextStartFromSibling tree fuel parent p.parent
      | some sibling => do
        let n ← tree.node (.bin sibling)
        match n.value with
        | none => getNextStartFromChildren tree fuel (.bin sibling) (some key) n.children
        | some _ => some (some (.bin sibling, n))

end

/-- The entry at the iterator and the iterator behind it. -/
def next (fuel : Nat) (tree : Tree V) : Iterator V → Option (Option ((Bytes × V) × Iterator V))
  | none => some none
  | some (pos, n) => do
    let bytes ← pos.bytes
    let value ← n.value
    let updated ← getNextStartFromChildren tree fuel pos n.parent n.children
    some (some ((bytes ++ n.suffix, value), updated))

/-- `get_range/4`, with the number of entries that are still to come. -/
def getRangeFrom (fuel : Nat) (tree : Tree V) :
    Nat → Iterator V → List (Bytes × V) → Option (List (Bytes × V))
  | 0, _, list => some list
  | count + 1, it, list => do
    match ← next fuel tree it with
    | none => some list
    | some (entry, updated) => getRangeFrom fuel tree count updated (entry :: list)

/-- `get_range/2` -/
def getRange (fuel count : Nat) (tree : Tree V) : Option (List (Bytes × V)) := do
  let it ← iterator fuel tree
  getRangeFrom fuel tree count it []

/-- `get_range/3` -/
def getRangeStart (fuel : Nat) (start : Bytes) (count : Nat) (tree : Tree V) :
    Option (List (Bytes × V)) :=
  getRangeFrom fuel tree count (iteratorFrom start tree) []

/-- The entries after all those below a key. -/
def beyond (M : SortedMap Bytes V) : Key → List (Bytes × V)
  | .root => []
  | .bin k => M.entries.filter fun e => k < e.1 ∧ ¬(Key.bin k).Above (.bin e.1)

/-- The entries from a key on. -/
def onward (M : SortedMap Bytes V) (k : Key) : List (Bytes × V) := entriesUnder M k ++ beyond M k

variable {tree : Tree V} {M : SortedMap Bytes V}

@[simp] lemma mem_beyond {k : Bytes} {e : Bytes × V} :
    e ∈ beyond M (.bin k) ↔ e ∈ M.entries ∧ k < e.1 ∧ ¬(Key.bin k).Above (.bin e.1) := by
  simp [beyond]

lemma sorted_beyond (k : Key) : (beyond M k).Pairwise fun a b => a.1 < b.1 := by
  cases k with
  | root => exact List.Pairwise.nil
  | bin k => exact M.sorted.filter _

lemma lt_of_beyond {k x : Bytes} {e : Bytes × V} (he : e ∈ beyond M (.bin k))
    (hx : (Key.bin k).Above (.bin x)) : x < e.1 := by
  obtain ⟨-, hlt, hnot⟩ := mem_beyond.mp he
  by_cases hk : k = []
  · rw [hx.2 hk, ← hk]
    exact hlt
  · exact lt_of_not_prefix hlt (fun hpre => hnot ⟨hpre, fun h => absurd h hk⟩) hx.1

lemma nextSibling_eq {key : Bytes} {children : OrdSet Bytes} (h : key ∈ children) :
    nextSibling key children = (children.elems.filter (key < ·)).head? := by
  have hfilter : children.elems.filter (key ≤ ·) = key :: children.elems.filter (key < ·) := by
    apply (children.sorted.filter _).eq_of_mem_iff
    · rw [List.pairwise_cons]
      refine ⟨fun x hx => by simpa using (List.mem_filter.mp hx).2, children.sorted.filter _⟩
    · intro x
      simp only [List.mem_filter, decide_eq_true_eq, List.mem_cons, OrdSet.mem_elems]
      constructor
      · rintro ⟨hx, hle⟩
        rcases hle.eq_or_lt with rfl | hlt
        · exact .inl rfl
        · exact .inr ⟨hx, hlt⟩
      · rintro (rfl | ⟨hx, hlt⟩)
        · exact ⟨h, le_refl _⟩
        · exact ⟨hx, hlt.le⟩
  rw [nextSibling, hfilter]
  simp

namespace Represents

variable (h : Represents tree M)
include h

/-- What comes after a child: the entries below its later siblings, then those after the
parent. -/
lemma beyond_child {p : Key} {pn : Node V} {c : Bytes} (hp : tree.node p = some pn)
    (hc : c ∈ pn.children) : beyond M (.bin c) =
      (pn.children.elems.filter (c < ·)).flatMap (fun d => entriesUnder M (.bin d)) ++ beyond M p := by
  have hanti : Std.Antisymm fun a b : Bytes × V => a.1 < b.1 := ⟨fun _ _ h h' => absurd h h'.asymm⟩
  have hirrefl : Std.Irrefl fun a b : Bytes × V => a.1 < b.1 := ⟨fun _ => lt_irrefl _⟩
  have hl := h.toLinked
  have hpc := hl.above_child hp hc
  apply (sorted_beyond _).eq_of_mem_iff
  · rw [List.pairwise_append, List.pairwise_flatMap]
    refine ⟨⟨fun d _ => sorted_entriesUnder _, ?_⟩, sorted_beyond _, ?_⟩
    · apply (pn.children.sorted.filter _).imp_of_mem
      intro x y hx hy hxy a ha e he
      exact h.child_lt hp (List.mem_filter.mp hx).1 (List.mem_filter.mp hy).1 hxy ha he
    · intro a ha e he
      obtain ⟨d, hd, ha⟩ := List.mem_flatMap.mp ha
      cases p with
      | root => cases he
      | bin p =>
        apply lt_of_beyond he
        exact (hl.above_child hp (List.mem_filter.mp hd).1).trans (mem_entriesUnder.mp ha).2
  · intro e
    rw [mem_beyond, List.mem_append, List.mem_flatMap]
    constructor
    · rintro ⟨he, hlt, hnot⟩
      by_cases hpe : p.Above (.bin e.1)
      · left
        rcases (h.mem_entriesUnder_iff hp).mp (mem_entriesUnder.mpr ⟨he, hpe⟩) with hown | ⟨d, hd, hde⟩
        · -- the entry of the parent comes before its children
          obtain ⟨cn, hcn, -⟩ := hl.child_node hp hc
          cases p with
          | root => cases hown
          | bin p =>
            simp only [ownEntry, List.mem_map] at hown
            obtain ⟨v, -, rfl⟩ := hown
            obtain ⟨b, rfl⟩ := hl.childKey hp hc
            exact absurd hlt (not_lt.mpr (le_of_isPrefix (List.prefix_append _ _)))
        · refine ⟨d, List.mem_filter.mpr ⟨hd, ?_⟩, hde⟩
          rw [decide_eq_true_eq]
          rcases lt_trichotomy c d with hcd | rfl | hdc
          · exact hcd
          · exact absurd (mem_entriesUnder.mp hde).2 hnot
          · exact absurd hlt (hl.lt_child hp hd hc hdc (mem_entriesUnder.mp hde).2).asymm
      · right
        cases p with
        | root => exact absurd trivial hpe
        | bin p => exact mem_beyond.mpr ⟨he, (le_of_isPrefix hpc.1).trans_lt hlt, hpe⟩
    · rintro (⟨d, hd, hde⟩ | hbe)
      · obtain ⟨hd, hcd⟩ := List.mem_filter.mp hd
        rw [decide_eq_true_eq] at hcd
        obtain ⟨he, hab⟩ := mem_entriesUnder.mp hde
        refine ⟨he, hcd.trans_le (le_of_isPrefix hab.1), fun hce => ?_⟩
        exact hl.children_disjoint hp hc hd hcd.ne hce hab
      · cases p with
        | root => cases hbe
        | bin p =>
          have hlt := lt_of_beyond hbe hpc
          obtain ⟨he, -, hnot⟩ := mem_beyond.mp hbe
          exact ⟨he, hlt, fun hce => hnot (hpc.trans hce)⟩

lemma onward_eq {k : Key} {n : Node V} (hk : tree.node k = some n) : onward M k =
    ownEntry k n ++ (n.children.elems.flatMap (fun c => entriesUnder M (.bin c)) ++ beyond M k) := by
  rw [onward, h.entriesUnder_eq hk, List.append_assoc]

lemma onward_smallest {k : Key} {n : Node V} (hk : tree.node k = some n) {c : Bytes}
    (hc : n.children.smallest = some c) :
    n.children.elems.flatMap (fun c => entriesUnder M (.bin c)) ++ beyond M k = onward M (.bin c) := by
  obtain ⟨l, hl⟩ : ∃ l, n.children.elems = c :: l := by
    rw [OrdSet.smallest] at hc
    cases hel : n.children.elems with
    | nil => simp [hel] at hc
    | cons d l => exact ⟨l, by simpa [hel] using hc⟩
  have hsorted := n.children.sorted
  rw [hl, List.pairwise_cons] at hsorted
  have hmem : c ∈ n.children := by
    rw [← OrdSet.mem_elems, hl]
    simp
  have hfilter : n.children.elems.filter (c < ·) = l := by
    rw [hl, List.filter_cons_of_neg (by simp), List.filter_eq_self]
    intro x hx
    simpa using hsorted.1 x hx
  rw [onward, h.beyond_child hk hmem, hfilter, hl, List.flatMap_cons, List.append_assoc]

lemma beyond_sibling {p : Key} {pn : Node V} (hp : tree.node p = some pn) {c : Bytes}
    (hc : c ∈ pn.children) : beyond M (.bin c) =
      match nextSibling c pn.children with
      | none => beyond M p
      | some d => onward M (.bin d) := by
  rw [nextSibling_eq hc, h.beyond_child hp hc]
  cases hl : pn.children.elems.filter (c < ·) with
  | nil => rfl
  | cons d l =>
    have hdmem : d ∈ pn.children.elems.filter (c < ·) := by
      rw [hl]
      simp
    obtain ⟨hd, hcd⟩ := List.mem_filter.mp hdmem
    rw [decide_eq_true_eq] at hcd
    have hsorted := pn.children.sorted.filter (fun x => decide (c < x))
    rw [hl, List.pairwise_cons] at hsorted
    have hfilter : pn.children.elems.filter (d < ·) = l := by
      have hsub : pn.children.elems.filter (d < ·) =
          (pn.children.elems.filter (c < ·)).filter (d < ·) := by
        rw [List.filter_filter]
        apply List.filter_congr
        intro x _
        by_cases hx : d < x
        · simp [hx, hcd.trans hx]
        · simp [hx]
      rw [hsub, hl, List.filter_cons_of_neg (by simp), List.filter_eq_self]
      intro x hx
      simpa using hsorted.1 x hx
    simp only [List.head?_cons]
    rw [onward, h.beyond_child hp hd, hfilter, List.flatMap_cons, List.append_assoc]

lemma onward_eq_filter {k : Bytes} {n : Node V} (hk : tree.node (.bin k) = some n) :
    onward M (.bin k) = M.entries.filter fun e => k ++ n.suffix ≤ e.1 := by
  have hanti : Std.Antisymm fun a b : Bytes × V => a.1 < b.1 := ⟨fun _ _ h h' => absurd h h'.asymm⟩
  have hirrefl : Std.Irrefl fun a b : Bytes × V => a.1 < b.1 := ⟨fun _ => lt_irrefl _⟩
  have hself : (Key.bin k).Above (.bin (k ++ n.suffix)) :=
    (h.toLinked.above_full_iff hk hk).mpr (Key.Above.refl _)
  refine List.Pairwise.eq_of_mem_iff ?_ (M.sorted.filter _) fun e => ?_
  · rw [onward, List.pairwise_append]
    refine ⟨sorted_entriesUnder _, sorted_beyond _, fun a ha e he => ?_⟩
    exact lt_of_beyond he (mem_entriesUnder.mp ha).2
  · rw [onward, List.mem_append, List.mem_filter, decide_eq_true_eq]
    constructor
    · rintro (he | he)
      · exact ⟨(mem_entriesUnder.mp he).1, le_of_isPrefix (h.full_prefix hk he)⟩
      · exact ⟨(mem_beyond.mp he).1, (lt_of_beyond he hself).le⟩
    · rintro ⟨he, hle⟩
      by_cases hab : (Key.bin k).Above (.bin e.1)
      · exact .inl (mem_entriesUnder.mpr ⟨he, hab⟩)
      · refine .inr (mem_beyond.mpr ⟨he, ?_, hab⟩)
        refine lt_of_le_of_ne ((le_of_isPrefix hself.1).trans hle) ?_
        intro heq
        rw [← heq] at hab
        exact hab (Key.Above.refl _)

end Represents

/-- The iterator is at the first of the given entries. -/
def Rest (tree : Tree V) (M : SortedMap Bytes V) (it : Iterator V) (l : List (Bytes × V)) : Prop :=
  match it with
  | none => l = []
  | some (k, n) => ∃ b v, k = .bin b ∧ tree.node (.bin b) = some n ∧ n.value = some v ∧
      l = onward M (.bin b)

section Next

variable {L : Nat} (h : Represents tree M) (hb : Bounded tree L)
include h hb

lemma getNextStartFromChildren_eq (fuel : Nat) {k : Key} {n : Node V} (hk : tree.node k = some n)
    (hne : n.children.isEmpty = false) (hfuel : k.height L ≤ fuel) (parent : Option Key) :
    ∃ it, getNextStartFromChildren tree fuel k parent n.children = some it ∧
      Rest tree M it (n.children.elems.flatMap (fun c => entriesUnder M (.bin c)) ++ beyond M k) := by
  induction fuel generalizing k n parent with
  | zero =>
    have := hb.height_pos hk
    omega
  | succ fuel ih =>
    obtain ⟨c, hc⟩ : ∃ c, n.children.smallest = some c := by
      rw [OrdSet.smallest]
      cases hel : n.children.elems with
      | nil => simp [OrdSet.isEmpty, hel] at hne
      | cons c l => exact ⟨c, rfl⟩
    have hmem : c ∈ n.children := List.mem_of_mem_head? hc
    obtain ⟨cn, hcn, -⟩ := h.toLinked.child_node hk hmem
    have hheight := hb.height_child h.toLinked hk hmem
    rw [h.onward_smallest hk hc, getNextStartFromChildren, hc]
    simp only [hcn, Option.bind_eq_bind, Option.bind_some]
    cases hv : cn.value with
    | some v => exact ⟨_, rfl, c, v, rfl, hcn, hv, rfl⟩
    | none =>
      have hcne : cn.children.isEmpty = false := by
        rw [← Bool.not_eq_true]
        intro hempty
        have := h.inner c cn hcn hempty
        simp [hv] at this
      obtain ⟨it, hit, hrest⟩ := ih hcn hcne (by omega) (some k)
      refine ⟨it, hit, ?_⟩
      rw [h.onward_eq hcn]
      simpa [ownEntry, hv] using hrest

/-- The way up to the next sibling, and down from there. -/
lemma getNextStartFromSibling_eq (fuel : Nat) {k : Key} {n : Node V} (hk : tree.node k = some n)
    (hfuel : k.depth + L + 2 ≤ fuel) :
    ∃ it, getNextStartFromSibling tree fuel k n.parent = some it ∧ Rest tree M it (beyond M k) := by
  induction fuel generalizing k n with
  | zero => omega
  | succ fuel ih =>
    cases k with
    | root =>
      obtain ⟨r, hr, hp, -⟩ := h.root
      rw [hr] at hk
      cases hk
      rw [hp, getNextStartFromSibling]
      exact ⟨none, rfl, rfl⟩
    | bin k =>
      obtain ⟨p, pn, hp, hpn, -⟩ := h.parent k n hk
      have hmem : k ∈ pn.children := (h.children p pn k hpn).mpr ⟨n, hk, hp⟩
      have hdepth : p.depth < (Key.bin k).depth := by
        rcases h.toLinked.parent_cases hk with ⟨hroot, -⟩ | ⟨q, qn, b, hq, -, -, rfl⟩
        · rw [hroot] at hp
          cases hp
          simp [Key.depth]
        · rw [hq] at hp
          cases hp
          simp only [Key.depth, List.length_append, List.length_singleton]
          omega
      rw [hp, getNextStartFromSibling]
      · simp only [Option.bind_eq_bind, Option.bind_some, hpn, Key.bytes]
        rw [h.beyond_sibling hpn hmem]
        cases hs : nextSibling k pn.children with
        | none => exact ih hpn (by omega)
        | some d =>
          have hd : d ∈ pn.children := by
            rw [nextSibling_eq hmem] at hs
            exact (List.mem_filter.mp (List.mem_of_mem_head? hs)).1
          obtain ⟨dn, hdn, -⟩ := h.toLinked.child_node hpn hd
          simp only [hdn, Option.bind_some]
          cases hv : dn.value with
          | some v => exact ⟨_, rfl, d, v, rfl, hdn, hv, rfl⟩
          | none =>
            -- the walk passes the former key as the parent, which is not looked at below
            have hdne : dn.children.isEmpty = false := by
              rw [← Bool.not_eq_true]
              intro hempty
              have := h.inner d dn hdn hempty
              simp [hv] at this
            have hheight : (Key.bin d).height L ≤ fuel := by
              simp only [Key.height]
              omega
            obtain ⟨it, hit, hrest⟩ := getNextStartFromChildren_eq h hb fuel hdn hdne hheight (some (.bin k))
            refine ⟨it, hit, ?_⟩
            rw [h.onward_eq hdn]
            simpa [ownEntry, hv] using hrest
      · simp

lemma iteratorAt_eq (fuel : Nat) {k : Key} {n : Node V} (hk : tree.node k = some n)
    (hfuel : k.height L ≤ fuel) :
    ∃ it, iteratorAt tree fuel k = some it ∧ Rest tree M it (onward M k) := by
  induction fuel generalizing k n with
  | zero =>
    have := hb.height_pos hk
    omega
  | succ fuel ih =>
    rw [iteratorAt]
    simp only [hk, Option.bind_eq_bind, Option.bind_some]
    cases hv : n.value with
    | some v =>
      cases k with
      | root =>
        obtain ⟨r, hr, -, hrv⟩ := h.root
        rw [hr] at hk
        cases hk
        simp [hrv] at hv
      | bin k => exact ⟨_, rfl, k, v, rfl, hk, hv, rfl⟩
    | none =>
      have hown : ownEntry k n = [] := by cases k <;> simp [ownEntry, hv]
      rw [h.onward_eq hk, hown, List.nil_append]
      cases hc : n.children.smallest with
      | none =>
        have hnil : n.children.elems = [] := List.head?_eq_none_iff.mp hc
        cases k with
        | root => exact ⟨none, rfl, by simp [Rest, hnil, beyond]⟩
        | bin k =>
          have := h.inner k n hk (by simp [OrdSet.isEmpty, hnil])
          simp [hv] at this
      | some c =>
        have hmem : c ∈ n.children := List.mem_of_mem_head? hc
        obtain ⟨cn, hcn, -⟩ := h.toLinked.child_node hk hmem
        have hheight := hb.height_child h.toLinked hk hmem
        rw [h.onward_smallest hk hc]
        exact ih hcn (by omega)

lemma next_eq {fuel : Nat} (hfuel : 2 * L + 6 ≤ fuel) {it : Iterator V} {l : List (Bytes × V)}
    (hrest : Rest tree M it l) :
    (l = [] ∧ next fuel tree it = some none) ∨
    ∃ e l' it', l = e :: l' ∧ next fuel tree it = some (some (e, it')) ∧ Rest tree M it' l' := by
  cases it with
  | none => exact .inl ⟨hrest, rfl⟩
  | some x =>
    obtain ⟨pos, n⟩ := x
    obtain ⟨k, v, rfl, hk, hv, rfl⟩ := hrest
    have hlen := hb k n hk
    rw [List.length_append] at hlen
    have hstep : ∃ it', getNextStartFromChildren tree fuel (.bin k) n.parent n.children = some it' ∧
        Rest tree M it'
          (n.children.elems.flatMap (fun c => entriesUnder M (.bin c)) ++ beyond M (.bin k)) := by
      by_cases hempty : n.children.isEmpty = true
      · have hnil : n.children.elems = [] := List.isEmpty_iff.mp hempty
        obtain ⟨fuel, rfl⟩ : ∃ f, fuel = f + 1 := ⟨fuel - 1, by omega⟩
        rw [getNextStartFromChildren, OrdSet.smallest, hnil]
        exact getNextStartFromSibling_eq h hb fuel hk (by simp only [Key.depth]; omega)
      · apply getNextStartFromChildren_eq h hb fuel hk (by simpa using hempty)
        simp only [Key.height]
        omega
    obtain ⟨it', hit', hrest'⟩ := hstep
    refine .inr ⟨(k ++ n.suffix, v), _, it', ?_, ?_, hrest'⟩
    · rw [h.onward_eq hk]
      simp [ownEntry, hv]
    · simp [next, Key.bytes, hv, hit']

lemma getRangeFrom_eq {fuel : Nat} (hfuel : 2 * L + 6 ≤ fuel) (count : Nat) {it : Iterator V}
    {l : List (Bytes × V)} (hrest : Rest tree M it l) (list : List (Bytes × V)) :
    getRangeFrom fuel tree count it list = some ((l.take count).reverse ++ list) := by
  induction count generalizing it l list with
  | zero => simp [getRangeFrom]
  | succ count ih =>
    rw [getRangeFrom]
    rcases next_eq h hb hfuel hrest with ⟨rfl, hnext⟩ | ⟨e, l', it', rfl, hnext, hrest'⟩
    · simp [hnext]
    · simp [hnext, ih hrest']

/-- `get_range/2` returns the first entries, the last of them in front. -/
theorem getRange_eq {fuel : Nat} (hfuel : 2 * L + 6 ≤ fuel) (count : Nat) :
    getRange fuel count tree = some (M.entries.take count).reverse := by
  obtain ⟨r, hr, -⟩ := h.root
  obtain ⟨it, hit, hrest⟩ := iteratorAt_eq h hb fuel hr (by simp only [Key.height]; omega)
  rw [onward, entriesUnder_root, beyond, List.append_nil] at hrest
  rw [getRange, iterator, hit, Option.bind_eq_bind, Option.bind_some, getRangeFrom_eq h hb hfuel count hrest,
    List.append_nil]

/-- `get_range/3` from a key returns the first entries from this key on. -/
theorem getRangeStart_eq {fuel : Nat} (hfuel : 2 * L + 6 ≤ fuel) {start : Bytes} {v : V}
    (hstart : M.lookup start = some v) (count : Nat) :
    getRangeStart fuel start count tree =
      some ((M.entries.filter fun e => start ≤ e.1).take count).reverse := by
  rw [SortedMap.lookup_eq_some, ← h.holds] at hstart
  obtain ⟨k, n, hget, hk, hfull, hv⟩ := getFrom_of_holds h.toLinked hstart
  have hrest : Rest tree M (iteratorFrom start tree) (M.entries.filter fun e => start ≤ e.1) := by
    rw [iteratorFrom, hget]
    refine ⟨k, v, rfl, hk, hv, ?_⟩
    rw [h.onward_eq_filter hk, hfull]
  rw [getRangeStart, getRangeFrom_eq h hb hfuel count hrest, List.append_nil]

end Next

end Arweave.Patricia
