import Arweave.Intervals.Joins
import Arweave.Lib.Bytes

/-!
# Sets of intervals on the wire

Peers exchange their sync records in the external term format, as lists of pairs of ends and starts
of 32 bytes each, the highest interval first. What is received is checked while the set is built: the
set of a list that is accepted is canonical.
-/

namespace Arweave.Intervals

open Lib

section Code

/-- The terms that the decoder tells apart. -/
inductive ExternalTerm
  | nil
  | cons (head tail : ExternalTerm)
  | pair (fst snd : ExternalTerm)
  | binary (b : Bytes)
  | other
  deriving DecidableEq

/-- A list of pairs of binaries. -/
def rows (l : List (Bytes × Bytes)) : ExternalTerm :=
  l.foldr (fun r t => .cons (.pair (.binary r.1) (.binary r.2)) t) .nil

/-- `term_to_binary/1` and `binary_to_term/2`. What is written is read back. -/
structure ExternalTermFormat where
  termToBinary : ExternalTerm → Bytes
  binaryToTerm : Bytes → Option ExternalTerm
  reads_back : ∀ l : List (Bytes × Bytes), (∀ r ∈ l, r.1.length = 32 ∧ r.2.length = 32) →
    binaryToTerm (termToBinary (rows l)) = some (rows l)

/-- `<< N:256 >>` -/
def field256 (n : Int) : Bytes := Bytes.ofNat 32 (n % 2 ^ 256).toNat

def serializeItem (e s : Int) : ExternalTerm := .pair (.binary (field256 e)) (.binary (field256 s))

variable (format : ExternalTermFormat)

def serializeSubsetFrom (limit : Nat) : List (Int ×ₗ Int) → ExternalTerm → Nat → Bytes
  | [], l, _ => format.termToBinary l
  | p :: iter, l, count =>
    if count = limit then format.termToBinary l
    else
      let (e, s) := ofLex p
      serializeSubsetFrom limit iter (.cons (serializeItem e s) l) (count + 1)

def serialize (start : Int) (limit : Nat) (I : IntervalSet) : Bytes :=
  if I.isEmpty then format.termToBinary .nil
  else serializeSubsetFrom format limit (iteratorFrom (start, 0) I) .nil 0

/-- The atom `infinity` is above all numbers. -/
def exceeds : Option Int → Int → Bool
  | none, _ => true
  | some r, e => r > e

/-- The bound is the start of the interval before, at first `infinity`. -/
def fromEtf : ExternalTerm → Option Int → IntervalSet → Option IntervalSet
  | .nil, _, I => some I
  | .cons (.pair (.binary b1) (.binary b2)) list, r, I =>
    let e : Int := Bytes.toNat b1
    let s : Int := Bytes.toNat b2
    if b1.length = 32 ∧ b2.length = 32 ∧ e > s ∧ exceeds r e ∧ s ≥ 0 then
      fromEtf list (some s) (I.add (toLex (e, s)))
    else none
  | _, _, _ => none

/-- Whatever goes wrong, the binary is invalid. -/
def safeFromEtf (binary : Bytes) : Option IntervalSet := do
  let l ← format.binaryToTerm binary
  fromEtf l none new

end Code

variable {format : ExternalTermFormat} {I J : IntervalSet} {iter : List (Int ×ₗ Int)} {l : List (Bytes × Bytes)}

/-- The interval of a row. -/
def unfield (r : Bytes × Bytes) : Int × Int := (Bytes.toNat r.1, Bytes.toNat r.2)

/-- Intervals with bytes from the highest one down, without two that touch. -/
structure Falling (r : Option Int) (l : List (Int × Int)) : Prop where
  lt : ∀ p ∈ l, p.2 < p.1
  bound : ∀ p ∈ l, exceeds r p.1 = true
  apart : l.Pairwise fun p q => q.1 < p.2

lemma exceeds_of_le {r : Option Int} {m n : Int} (h : exceeds r n = true) (hle : m ≤ n) : exceeds r m = true := by
  cases r with
  | none => rfl
  | some r =>
    rw [exceeds, decide_eq_true_eq] at h ⊢
    omega

lemma falling_cons {p : Int × Int} {l : List (Int × Int)} {r : Option Int} :
    Falling r (p :: l) ↔ p.2 < p.1 ∧ exceeds r p.1 = true ∧ Falling (some p.2) l := by
  constructor
  · intro h
    obtain ⟨hhead, htail⟩ := List.pairwise_cons.mp h.apart
    exact ⟨h.lt p List.mem_cons_self, h.bound p List.mem_cons_self, fun q hq => h.lt q (List.mem_cons_of_mem p hq),
      fun q hq => decide_eq_true (hhead q hq), htail⟩
  · rintro ⟨hlt, hbound, h⟩
    have hbelow : ∀ q ∈ l, q.1 < p.2 := fun q hq => of_decide_eq_true (h.bound q hq)
    refine ⟨?_, ?_, List.pairwise_cons.mpr ⟨hbelow, h.apart⟩⟩
    · intro q hq
      obtain rfl | hq := List.mem_cons.mp hq
      · exact hlt
      · exact h.lt q hq
    · intro q hq
      obtain rfl | hq := List.mem_cons.mp hq
      · exact hbound
      · exact exceeds_of_le hbound ((hbelow q hq).trans hlt).le

/-- What is accepted is a list of rows of 32 bytes whose intervals fall. -/
lemma fromEtf_eq_some {t : ExternalTerm} {r : Option Int} :
    fromEtf t r I = some J ↔ ∃ l, t = rows l ∧ (∀ r ∈ l, r.1.length = 32 ∧ r.2.length = 32) ∧
      Falling r (l.map unfield) ∧ J = (l.map unfield).foldl (fun I p => I.add (toLex p)) I := by
  fun_induction fromEtf t r I with
  | case1 r I =>
    constructor
    · intro h
      cases h
      exact ⟨[], rfl, by simp, ⟨by simp, by simp, by simp⟩, rfl⟩
    · rintro ⟨l, hl, -, -, rfl⟩
      cases l with
      | nil => rfl
      | cons p l => cases hl
  | case2 b1 b2 list r I e s hrow ih =>
    obtain ⟨h1, h2, hlt, hbound, -⟩ := hrow
    rw [ih]
    constructor
    · rintro ⟨l, rfl, hlen, hfall, rfl⟩
      refine ⟨(b1, b2) :: l, rfl, ?_, falling_cons.mpr ⟨hlt, hbound, hfall⟩, rfl⟩
      rw [List.forall_mem_cons]
      exact ⟨⟨h1, h2⟩, hlen⟩
    · rintro ⟨l, hl, hlen, hfall, rfl⟩
      cases l with
      | nil => cases hl
      | cons p l =>
        cases hl
        exact ⟨l, rfl, fun r hr => hlen r (List.mem_cons_of_mem _ hr), (falling_cons.mp hfall).2.2, rfl⟩
  | case3 b1 b2 list r I e s hrow =>
    simp only [reduceCtorEq, false_iff]
    rintro ⟨l, hl, hlen, hfall, -⟩
    cases l with
    | nil => cases hl
    | cons p l =>
      cases hl
      obtain ⟨hlt, hbound, -⟩ := falling_cons.mp hfall
      obtain ⟨h1, h2⟩ := hlen p List.mem_cons_self
      exact hrow ⟨h1, h2, hlt, hbound, Int.natCast_nonneg _⟩
  | case4 t r I hnil hcons =>
    simp only [reduceCtorEq, false_iff]
    rintro ⟨l, rfl, -⟩
    cases l with
    | nil => exact hnil rfl
    | cons p l => exact hcons p.1 p.2 (rows l) rfl

lemma mem_foldl_add {l : List (Int × Int)} {p : Int × Int} :
    p ∈ family (l.foldl (fun I p => I.add (toLex p)) I) ↔ p ∈ l ∨ p ∈ family I := by
  induction l generalizing I with
  | nil => simp
  | cons q l ih =>
    rw [List.foldl_cons, ih, family_add, Set.mem_insert_iff, List.mem_cons]
    tauto

lemma Falling.canonical {l : List (Int × Int)} {r : Option Int} (h : Falling r l) :
    Canonical (l.foldl (fun I p => I.add (toLex p)) new) := by
  have hmem : ∀ p, p ∈ family (l.foldl (fun I p => I.add (toLex p)) new) ↔ p ∈ l := fun p => by
    rw [mem_foldl_add, family_new]
    simp
  refine ⟨fun p hp => h.lt p ((hmem p).mp hp), fun p hp q hq hne => ?_⟩
  have hapart : l.Pairwise fun p q => p.1 < q.2 ∨ q.1 < p.2 := h.apart.imp Or.inr
  have hsymm : Std.Symm fun p q : Int × Int => p.1 < q.2 ∨ q.1 < p.2 := ⟨fun _ _ => Or.symm⟩
  exact hapart.forall ((hmem p).mp hp) ((hmem q).mp hq) hne

/-- The set fits into fields of 256 bits. -/
def Fits (I : IntervalSet) : Prop := ∀ p ∈ family I, 0 ≤ p.2 ∧ p.1 < 2 ^ 256

lemma length_field256 (n : Int) : (field256 n).length = 32 := Bytes.length_ofNat 32 _

lemma toNat_field256 {n : Int} (h0 : 0 ≤ n) (hlt : n < 2 ^ 256) : ((Bytes.toNat (field256 n) : Nat) : Int) = n := by
  rw [field256, Int.emod_eq_of_lt h0 hlt, Bytes.toNat_ofNat_of_lt (by omega), Int.toNat_of_nonneg h0]

/-- The rows of some intervals, the last one first. -/
def fields (iter : List (Int ×ₗ Int)) : List (Bytes × Bytes) :=
  (iter.map fun p => (field256 (ofLex p).1, field256 (ofLex p).2)).reverse

lemma serializeSubsetFrom_eq (iter : List (Int ×ₗ Int)) (l : List (Bytes × Bytes)) {limit count : Nat}
    (hcount : count ≤ limit) : serializeSubsetFrom format limit iter (rows l) count =
      format.termToBinary (rows (fields (iter.take (limit - count)) ++ l)) := by
  induction iter generalizing l count with
  | nil => rw [List.take_nil]; rfl
  | cons p iter ih =>
    rw [serializeSubsetFrom]
    split_ifs with hlimit
    · rw [hlimit, Nat.sub_self, List.take_zero]
      rfl
    · obtain ⟨rest, hrest⟩ : ∃ rest, limit - count = rest + 1 := ⟨limit - count - 1, by omega⟩
      have hcount' : count + 1 ≤ limit := by omega
      have hstep := ih ((field256 (ofLex p).1, field256 (ofLex p).2) :: l) hcount'
      have hnext : limit - (count + 1) = rest := by omega
      rw [hnext] at hstep
      rw [hrest, List.take_succ_cons, fields, List.map_cons, List.reverse_cons, List.append_assoc]
      exact hstep

/-- The first intervals that end at the start or later. -/
def firstFrom (start : Int) (limit : Nat) (I : IntervalSet) : List (Int ×ₗ Int) :=
  (I.elems.filter fun p => start ≤ (ofLex p).1).take limit

lemma serialize_eq {start : Int} {limit : Nat} (hfits : Fits I) :
    serialize format start limit I = format.termToBinary (rows (fields (firstFrom start limit I))) := by
  rw [serialize]
  split_ifs with hempty
  · rw [firstFrom, List.isEmpty_iff.mp hempty, List.filter_nil, List.take_nil]
    rfl
  · have hfrom : iteratorFrom (start, 0) I = I.elems.filter fun p => start ≤ (ofLex p).1 := by
      rw [iteratorFrom]
      apply List.filter_congr
      intro p hp
      have hnonneg := (hfits (ofLex p) hp).1
      rw [decide_eq_decide, ← toLex_ofLex p, Prod.Lex.toLex_le_toLex]
      dsimp only [ofLex_toLex]
      omega
    have heq : serializeSubsetFrom format limit (iteratorFrom (start, 0) I) (rows []) 0 = _ :=
      serializeSubsetFrom_eq (iteratorFrom (start, 0) I) [] (Nat.zero_le limit)
    rw [List.append_nil, Nat.sub_zero, hfrom] at heq
    rw [hfrom]
    exact heq

lemma map_unfield_fields (hiter : ∀ p ∈ iter, 0 ≤ (ofLex p).2 ∧ (ofLex p).2 < (ofLex p).1 ∧ (ofLex p).1 < 2 ^ 256) :
    (fields iter).map unfield = (iter.map ofLex).reverse := by
  rw [fields, List.map_reverse, List.map_map]
  congr 1
  apply List.map_congr_left
  intro p hp
  obtain ⟨h0, hlt, hfit⟩ := hiter p hp
  exact Prod.ext (toNat_field256 (by omega) hfit) (toNat_field256 h0 (by omega))

/-- A set that fits is read back as its first intervals from the start on. What is read is canonical,
and of the lists of rows exactly those with falling intervals are read. -/
theorem etf_round_trip (format : ExternalTermFormat) (start : Int) (limit : Nat) (I : IntervalSet) (hI : Canonical I)
    (hfits : Fits I) :
    (∃ J, safeFromEtf format (serialize format start limit I) = some J ∧ J.elems = firstFrom start limit I) ∧
      (∀ binary J, safeFromEtf format binary = some J → Canonical J) ∧
      ∀ binary t, format.binaryToTerm binary = some t → ((safeFromEtf format binary).isSome = true ↔
        ∃ l, t = rows l ∧ (∀ r ∈ l, r.1.length = 32 ∧ r.2.length = 32) ∧ Falling none (l.map unfield)) := by
  refine ⟨?_, fun binary J h => ?_, fun binary t ht => ?_⟩
  · have hsub : (firstFrom start limit I).Sublist I.elems := (List.take_sublist _ _).trans List.filter_sublist
    obtain ⟨hlt, hapart⟩ := canonical_iff.mp hI
    have hbounds : ∀ p ∈ firstFrom start limit I, 0 ≤ (ofLex p).2 ∧ (ofLex p).2 < (ofLex p).1 ∧ (ofLex p).1 < 2 ^ 256 :=
      fun p hp => ⟨(hfits (ofLex p) (hsub.subset hp)).1, hlt p (hsub.subset hp), (hfits (ofLex p) (hsub.subset hp)).2⟩
    have hlengths : ∀ r ∈ fields (firstFrom start limit I), r.1.length = 32 ∧ r.2.length = 32 := by
      intro r hr
      rw [fields, List.mem_reverse, List.mem_map] at hr
      obtain ⟨p, -, rfl⟩ := hr
      exact ⟨length_field256 _, length_field256 _⟩
    have hfall : Falling none ((fields (firstFrom start limit I)).map unfield) := by
      rw [map_unfield_fields hbounds]
      refine ⟨?_, fun _ _ => rfl, ?_⟩
      · intro p hp
        rw [List.mem_reverse, List.mem_map] at hp
        obtain ⟨q, hq, rfl⟩ := hp
        exact (hbounds q hq).2.1
      · rw [List.pairwise_reverse, List.pairwise_map]
        exact hapart.sublist hsub
    refine ⟨((fields (firstFrom start limit I)).map unfield).foldl (fun I p => I.add (toLex p)) new, ?_, ?_⟩
    · rw [safeFromEtf, serialize_eq hfits, format.reads_back _ hlengths]
      exact fromEtf_eq_some.mpr ⟨_, rfl, hlengths, hfall, rfl⟩
    · -- both lists are sorted and have the same elements
      refine (OrdSet.sorted _).eq_of_mem_iff (I.sorted.sublist hsub) fun p => ?_
      change ofLex p ∈ family _ ↔ _
      rw [mem_foldl_add, family_new, map_unfield_fields hbounds, List.mem_reverse, List.mem_map]
      constructor
      · rintro (⟨q, hq, heq⟩ | hnone)
        · rwa [← ofLex_inj.mp heq]
        · exact hnone.elim
      · exact fun hp => Or.inl ⟨p, hp, rfl⟩
  · obtain ⟨t, -, ht⟩ := Option.bind_eq_some_iff.mp h
    obtain ⟨l, -, -, hfall, rfl⟩ := fromEtf_eq_some.mp ht
    exact hfall.canonical
  · rw [safeFromEtf, ht, Option.bind_eq_bind, Option.bind_some, Option.isSome_iff_exists]
    simp only [fromEtf_eq_some]
    constructor
    · rintro ⟨J, l, hl, hlengths, hfall, -⟩
      exact ⟨l, hl, hlengths, hfall⟩
    · rintro ⟨l, hl, hlengths, hfall⟩
      exact ⟨_, l, hl, hlengths, hfall, rfl⟩

-- The tags are those of the external term format.

def writeBinary (b : Bytes) : Bytes := 109 :: (Bytes.ofNat 4 b.length ++ b)

def writeRow (r : Bytes × Bytes) : Bytes := [104, 2] ++ (writeBinary r.1 ++ writeBinary r.2)

/-- A list with more elements than its header can count is written as lists of one element, each with
the next one as its tail. -/
def writeRows (l : List (Bytes × Bytes)) : Bytes :=
  if l.length = 0 then [106]
  else if l.length < 256 ^ 4 then 108 :: (Bytes.ofNat 4 l.length ++ (l.flatMap writeRow ++ [106]))
  else l.flatMap (fun r => 108 :: (Bytes.ofNat 4 1 ++ writeRow r)) ++ [106]

def readBinary : Bytes → Option (Bytes × Bytes)
  | 109 :: b =>
    let n := Bytes.toNat (b.take 4)
    some ((b.drop 4).take n, (b.drop 4).drop n)
  | _ => none

def readRow : Bytes → Option ((Bytes × Bytes) × Bytes)
  | 104 :: 2 :: b => do
    let (b1, rest) ← readBinary b
    let (b2, rest2) ← readBinary rest
    some ((b1, b2), rest2)
  | _ => none

def readBlock : Nat → Bytes → Option (List (Bytes × Bytes) × Bytes)
  | 0, b => some ([], b)
  | n + 1, b => do
    let (r, rest) ← readRow b
    let (l, rest2) ← readBlock n rest
    some (r :: l, rest2)

def readRows : Nat → Bytes → Option (List (Bytes × Bytes))
  | 0, _ => none
  | _ + 1, 106 :: _ => some []
  | fuel + 1, 108 :: b => do
    let (l, rest) ← readBlock (Bytes.toNat (b.take 4)) (b.drop 4)
    let l2 ← readRows fuel rest
    some (l ++ l2)
  | _, _ => none

def rowsOf : ExternalTerm → Option (List (Bytes × Bytes))
  | .nil => some []
  | .cons (.pair (.binary b1) (.binary b2)) list => (rowsOf list).map ((b1, b2) :: ·)
  | _ => none

lemma rowsOf_rows : rowsOf (rows l) = some l := by
  induction l with
  | nil => rfl
  | cons r l ih =>
    change (rowsOf (rows l)).map _ = _
    rw [ih]
    rfl

lemma readBinary_writeBinary {b rest : Bytes} (hlen : b.length = 32) :
    readBinary (writeBinary b ++ rest) = some (b, rest) := by
  rw [writeBinary, List.cons_append, readBinary, List.append_assoc, hlen]
  have htake : (Bytes.ofNat 4 32 ++ (b ++ rest)).take 4 = Bytes.ofNat 4 32 :=
    List.take_left' (Bytes.length_ofNat 4 32)
  have hdrop : (Bytes.ofNat 4 32 ++ (b ++ rest)).drop 4 = b ++ rest :=
    List.drop_left' (Bytes.length_ofNat 4 32)
  rw [htake, hdrop, Bytes.toNat_ofNat_of_lt (by decide), ← hlen, List.take_left, List.drop_left]

lemma readRow_writeRow {r : Bytes × Bytes} {rest : Bytes} (hlen : r.1.length = 32 ∧ r.2.length = 32) :
    readRow (writeRow r ++ rest) = some (r, rest) := by
  rw [writeRow, List.append_assoc, List.append_assoc]
  change (do
    let (b1, rest) ← readBinary (writeBinary r.1 ++ (writeBinary r.2 ++ rest))
    let (b2, rest2) ← readBinary rest
    some ((b1, b2), rest2)) = _
  rw [readBinary_writeBinary hlen.1, Option.bind_eq_bind, Option.bind_some]
  dsimp only
  rw [readBinary_writeBinary hlen.2]
  rfl

lemma readBlock_flatMap {rest : Bytes} (hlen : ∀ r ∈ l, r.1.length = 32 ∧ r.2.length = 32) :
    readBlock l.length (l.flatMap writeRow ++ rest) = some (l, rest) := by
  induction l with
  | nil => rfl
  | cons r l ih =>
    rw [List.forall_mem_cons] at hlen
    rw [List.length_cons, readBlock, List.flatMap_cons, List.append_assoc, readRow_writeRow hlen.1,
      Option.bind_eq_bind, Option.bind_some]
    dsimp only
    rw [ih hlen.2]
    rfl

lemma readRows_block (fuel : Nat) (l : List (Bytes × Bytes)) (rest : Bytes)
    (hlen : ∀ r ∈ l, r.1.length = 32 ∧ r.2.length = 32) (hlt : l.length < 256 ^ 4) :
    readRows (fuel + 1) (108 :: (Bytes.ofNat 4 l.length ++ (l.flatMap writeRow ++ rest))) =
      (readRows fuel rest).map (l ++ ·) := by
  have htake : (Bytes.ofNat 4 l.length ++ (l.flatMap writeRow ++ rest)).take 4 = Bytes.ofNat 4 l.length := by
    rw [List.take_left' (Bytes.length_ofNat 4 _)]
  have hdrop : (Bytes.ofNat 4 l.length ++ (l.flatMap writeRow ++ rest)).drop 4 = l.flatMap writeRow ++ rest := by
    rw [List.drop_left' (Bytes.length_ofNat 4 _)]
  rw [readRows, htake, hdrop, Bytes.toNat_ofNat_of_lt hlt, readBlock_flatMap hlen, Option.bind_eq_bind, Option.bind_some]
  dsimp only
  cases readRows fuel rest with
  | none => rfl
  | some l2 => rfl

lemma readRows_writeRows {k : Nat} (hlen : ∀ r ∈ l, r.1.length = 32 ∧ r.2.length = 32) :
    readRows (l.length + k + 2) (writeRows l) = some l := by
  rw [writeRows]
  split_ifs with hzero hlt
  · rw [List.length_eq_zero_iff.mp hzero]
    rfl
  · rw [readRows_block _ l [106] hlen hlt]
    change some (l ++ []) = _
    rw [List.append_nil]
  · clear hzero hlt
    induction l with
    | nil => rfl
    | cons r l ih =>
      rw [List.forall_mem_cons] at hlen
      have hfirst : ∀ r' ∈ [r], r'.1.length = 32 ∧ r'.2.length = 32 := by simpa using hlen.1
      have hblock := readRows_block (l.length + k + 2) [r]
        (l.flatMap (fun r => 108 :: (Bytes.ofNat 4 1 ++ writeRow r)) ++ [106]) hfirst
        (by rw [List.length_singleton]; decide)
      rw [ih hlen.2] at hblock
      have hfuel : (r :: l).length + k + 2 = l.length + k + 2 + 1 := by
        rw [List.length_cons]
        omega
      rw [List.flatMap_cons, hfuel]
      simpa using hblock

lemma length_le_length_flatMap {f : Bytes × Bytes → Bytes} (hf : ∀ r, 0 < (f r).length) :
    l.length ≤ (l.flatMap f).length := by
  induction l with
  | nil => exact Nat.le_refl 0
  | cons r l ih =>
    have := hf r
    rw [List.flatMap_cons, List.length_append, List.length_cons]
    omega

lemma length_le_length_writeRows : l.length ≤ (writeRows l).length := by
  rw [writeRows]
  split_ifs with hzero hlt
  · omega
  · have hle := length_le_length_flatMap (l := l) (f := writeRow) fun r => Nat.zero_lt_succ _
    simp only [List.length_cons, List.length_append]
    omega
  · have hle := length_le_length_flatMap (l := l) (f := fun r => 108 :: (Bytes.ofNat 4 1 ++ writeRow r))
      fun r => Nat.zero_lt_succ _
    simp only [List.length_append]
    omega

/-- The format, as far as lists of rows need it. -/
def rowFormat : ExternalTermFormat where
  termToBinary t := 131 :: ((rowsOf t).map writeRows).getD []
  binaryToTerm
    | 131 :: b => (readRows (b.length + 2) b).map rows
    | _ => none
  reads_back l hlen := by
    obtain ⟨k, hk⟩ := Nat.exists_eq_add_of_le (length_le_length_writeRows (l := l))
    rw [rowsOf_rows]
    change (readRows ((writeRows l).length + 2) (writeRows l)).map rows = _
    rw [hk, readRows_writeRows hlen]
    rfl

/-- The first two of three intervals, from a point inside of the lowest one on. -/
theorem etf_round_trip_sample :
    let I : IntervalSet := OrdSet.ofList [toLex (5, 2), toLex (9, 7), toLex (2 ^ 256 - 1, 300)]
    Canonical I ∧ Fits I ∧ (serialize rowFormat 3 2 I).length = 159 ∧
      ∃ J, safeFromEtf rowFormat (serialize rowFormat 3 2 I) = some J ∧ J.elems = [toLex (5, 2), toLex (9, 7)] := by
  intro I
  have hI : Canonical I := canonical_iff.mpr (by decide)
  have hbounds : ∀ p ∈ I.elems, 0 ≤ (ofLex p).2 ∧ (ofLex p).1 < 2 ^ 256 := by decide
  have hfits : Fits I := fun p hp => hbounds (toLex p) hp
  obtain ⟨⟨J, hJ, hread⟩, -, -⟩ := etf_round_trip rowFormat 3 2 I hI hfits
  have hfirst : firstFrom 3 2 I = [toLex (5, 2), toLex (9, 7)] := by decide
  exact ⟨hI, hfits, by decide +kernel, J, hJ, hread.trans hfirst⟩

/-- An end that does not fit into 256 bits. -/
theorem etf_not_round_trip :
    let I : IntervalSet := OrdSet.ofList [toLex (2 ^ 256, 7)]
    Canonical I ∧ firstFrom 0 10 I = [toLex (2 ^ 256, 7)] ∧
      safeFromEtf rowFormat (serialize rowFormat 0 10 I) = none := by
  refine ⟨canonical_iff.mpr ⟨by decide, by simp [OrdSet.ofList, OrdSet.add, OrdSet.empty]⟩, by decide, by decide⟩

end Arweave.Intervals
