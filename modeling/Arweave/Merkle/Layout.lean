import Arweave.Merkle.Tree

/-!
# The layout of a Merkle tree

A `Layout` is the binary tree that the flat list of nodes encodes, with the rebase flags
of its nodes. `Spans t lo hi` says that the leaves of `t` cover the offsets from `lo` to
`hi`, in the coordinates of the list that `t` belongs to; below a rebased node the
coordinates restart at zero. `honestPath` opens the leaf that covers a destination, with
rebase marks where a given flag function puts them. When these are the flags of the layout,
except possibly for subtrees that start at offset zero anyway, the validator accepts it.
-/

namespace Arweave.Merkle
open Arweave.Lib

inductive Layout where
  | leaf (rebased : Bool) (data : Bytes) (note : Nat)
  | branch (rebased : Bool) (left right : Layout) (note : Nat)
  deriving DecidableEq, Repr

namespace Layout

def rebased : Layout → Bool
  | .leaf b _ _ => b
  | .branch b _ _ _ => b

def note : Layout → Nat
  | .leaf _ _ note => note
  | .branch _ _ _ note => note

/-- The same layout as the root of a nested list. -/
def mark : Layout → Layout
  | .leaf _ data note => .leaf true data note
  | .branch _ l r note => .branch true l r note

/-- The end of the layout, in its own coordinates. -/
def maxNote : Layout → Nat
  | .leaf _ _ note => note
  | .branch _ _ r note => if r.rebased then note + r.maxNote else r.maxNote

/-- The origin of the coordinates of a layout that starts at `lo`. -/
def base (t : Layout) (lo : Nat) : Nat := if t.rebased then lo else 0

def id (H : Digest 32) : Layout → Bytes
  | .leaf _ data note => leafHash H data note
  | .branch _ l r note => nodeHash H (l.id H) (r.id H) note

/-- The record that the generator keeps for the root of the layout. -/
def toNode (H : Digest 32) : Layout → Node
  | .leaf b data note => ⟨leafHash H data note, .leaf data, note, note, b⟩
  | .branch b l r note =>
    ⟨nodeHash H (l.id H) (r.id H) note, .branch (l.id H) (r.id H), note,
      (Layout.branch b l r note).maxNote, b⟩

/-- The layout and everything below it. -/
def subtrees : Layout → List Layout
  | t@(.leaf _ _ _) => [t]
  | t@(.branch _ l r _) => t :: (l.subtrees ++ r.subtrees)

def height : Layout → Nat
  | .leaf _ _ _ => 1
  | .branch _ l r _ => 1 + max l.height r.height

/-- The leaves cover the offsets from `lo` to `hi`. -/
def Spans : Layout → Nat → Nat → Prop
  | .leaf _ _ note, lo, hi => note = hi ∧ lo ≤ hi
  | .branch _ l r note, lo, hi => lo ≤ note ∧ note ≤ hi ∧
      l.Spans (lo - l.base lo) (note - l.base lo) ∧ r.Spans (note - r.base note) (hi - r.base note)

@[simp] lemma rebased_mark (t : Layout) : t.mark.rebased = true := by cases t <;> rfl

@[simp] lemma maxNote_mark (t : Layout) : t.mark.maxNote = t.maxNote := by
  cases t <;> simp [mark, maxNote]

@[simp] lemma note_mark (t : Layout) : t.mark.note = t.note := by cases t <;> rfl

@[simp] lemma id_mark (H : Digest 32) (t : Layout) : t.mark.id H = t.id H := by cases t <;> rfl

@[simp] lemma height_mark (t : Layout) : t.mark.height = t.height := by cases t <;> rfl

lemma spans_mark {t : Layout} {lo hi : Nat} : t.mark.Spans lo hi ↔ t.Spans lo hi := by
  cases t <;> rfl

@[simp] lemma toNode_id (H : Digest 32) (t : Layout) : (t.toNode H).id = t.id H := by
  cases t <;> rfl

@[simp] lemma toNode_isRebased (H : Digest 32) (t : Layout) :
    (t.toNode H).isRebased = t.rebased := by
  cases t <;> rfl

@[simp] lemma toNode_note (H : Digest 32) (t : Layout) : (t.toNode H).note = t.note := by
  cases t <;> rfl

@[simp] lemma toNode_max (H : Digest 32) (t : Layout) : (t.toNode H).max = t.maxNote := by
  cases t <;> rfl

@[simp] lemma length_id (H : Digest 32) (t : Layout) : (t.id H).length = 32 := by
  cases t <;> simp [id]

lemma mem_subtrees_self (t : Layout) : t ∈ t.subtrees := by
  cases t <;> simp [subtrees]

lemma subtrees_trans {t u v : Layout} (hu : u ∈ t.subtrees) (hv : v ∈ u.subtrees) :
    v ∈ t.subtrees := by
  induction t with
  | leaf b data note =>
    simp only [subtrees, List.mem_singleton] at hu
    subst hu
    exact hv
  | branch b l r note ihl ihr =>
    simp only [subtrees, List.mem_cons, List.mem_append] at hu ⊢
    rcases hu with rfl | hu | hu
    · simpa [subtrees] using hv
    · exact .inr (.inl (ihl hu))
    · exact .inr (.inr (ihr hu))

lemma Spans.maxNote_eq {t : Layout} {lo hi : Nat} (h : t.Spans lo hi) : t.maxNote = hi := by
  induction t generalizing lo hi with
  | leaf b data note => exact h.1
  | branch b l r note ihl ihr =>
    obtain ⟨-, hle, -, hr⟩ := h
    have hmax := ihr hr
    simp only [maxNote]
    unfold base at hmax
    split_ifs at hmax ⊢ <;> omega

lemma Spans.note_le {t u : Layout} {lo hi : Nat} (h : t.Spans lo hi) (hu : u ∈ t.subtrees) :
    u.note ≤ hi := by
  induction t generalizing lo hi with
  | leaf b data note =>
    simp only [subtrees, List.mem_singleton] at hu
    subst hu
    exact h.1.le
  | branch b l r note ihl ihr =>
    obtain ⟨-, hle, hl, hr⟩ := h
    simp only [subtrees, List.mem_cons, List.mem_append] at hu
    rcases hu with rfl | hu | hu
    · exact hle
    · exact (ihl hl hu).trans ((Nat.sub_le _ _).trans hle)
    · exact (ihr hr hu).trans (Nat.sub_le _ _)

end Layout

/-- A chunk at offsets relative to some origin. -/
structure Chunk where
  data : Bytes
  start : Nat
  stop : Nat
  deriving DecidableEq, Repr

def Chunk.shift (base : Nat) (x : Chunk) : Chunk := ⟨x.data, base + x.start, base + x.stop⟩

@[simp] lemma Chunk.shift_zero (x : Chunk) : x.shift 0 = x := by simp [Chunk.shift]

@[simp] lemma Chunk.map_shift_zero (l : List Chunk) : l.map (Chunk.shift 0) = l := by
  simp [show Chunk.shift 0 = fun x => x from funext Chunk.shift_zero]

namespace Layout

/-- The leaves in order, as the chunks they stand for. -/
def chunks : Layout → Nat → Nat → List Chunk
  | .leaf _ data _, lo, hi => [⟨data, lo, hi⟩]
  | .branch _ l r note, lo, hi =>
    (l.chunks (lo - l.base lo) (note - l.base lo)).map (Chunk.shift (l.base lo)) ++
      (r.chunks (note - r.base note) (hi - r.base note)).map (Chunk.shift (r.base note))

/-- The chunk that a destination is routed to. -/
def covering : Layout → Nat → Nat → Int → Chunk
  | .leaf _ data _, lo, hi, _ => ⟨data, lo, hi⟩
  | .branch _ l r note, lo, hi, dest =>
    if dest < note then
      (l.covering (lo - l.base lo) (note - l.base lo) (dest - l.base lo)).shift (l.base lo)
    else
      (r.covering (note - r.base note) (hi - r.base note) (dest - r.base note)).shift (r.base note)

/-- The path to that chunk, marked where `flag` says so. -/
def honestPath (H : Digest 32) (flag : Layout → Bool) : Layout → Nat → Int → Bytes
  | .leaf _ data note, _, _ => data ++ noteToBinary note
  | .branch _ l r note, lo, dest =>
    if dest < note then
      (if flag l then rebaseMark else []) ++ l.id H ++ r.id H ++ noteToBinary note ++
        l.honestPath H flag (lo - l.base lo) (dest - l.base lo)
    else
      (if flag r then rebaseMark else []) ++ l.id H ++ r.id H ++ noteToBinary note ++
        r.honestPath H flag (note - r.base note) (dest - r.base note)

/-- Below the root, the flags are those of the layout, except where a subtree starts at
offset zero and rebasing it changes nothing. -/
def FlagsFit (flag : Layout → Bool) : Layout → Nat → Prop
  | .leaf _ _ _, _ => True
  | .branch _ l r note, lo => (flag l = l.rebased ∨ lo = 0) ∧ (flag r = r.rebased ∨ note = 0) ∧
      FlagsFit flag l (lo - l.base lo) ∧ FlagsFit flag r (note - r.base note)

instance decidableFlagsFit (flag : Layout → Bool) : (t : Layout) → (lo : Nat) →
    Decidable (FlagsFit flag t lo)
  | .leaf _ _ _, _ => isTrue trivial
  | .branch _ l r note, lo =>
    have := decidableFlagsFit flag l (lo - l.base lo)
    have := decidableFlagsFit flag r (note - r.base note)
    inferInstanceAs (Decidable (_ ∧ _ ∧ _ ∧ _))

lemma base_le (t : Layout) (lo : Nat) : t.base lo ≤ lo := by
  unfold base
  split_ifs <;> omega

lemma chunks_mark (t : Layout) (lo hi : Nat) : t.mark.chunks lo hi = t.chunks lo hi := by
  cases t <;> rfl

lemma covering_mem {t : Layout} {lo hi : Nat} {dest : Int} (h : t.Spans lo hi) (hlo : lo ≤ dest)
    (hhi : dest < hi) :
    t.covering lo hi dest ∈ t.chunks lo hi ∧ (t.covering lo hi dest).start ≤ dest ∧
      dest < (t.covering lo hi dest).stop := by
  induction t generalizing lo hi dest with
  | leaf b data note => exact ⟨by simp [covering, chunks], hlo, hhi⟩
  | branch b l r note ihl ihr =>
    obtain ⟨h1, h2, hl, hr⟩ := h
    have hbl := l.base_le lo
    have hbr := r.base_le note
    by_cases hd : dest < note
    · obtain ⟨hm, hs, he⟩ := @ihl _ _ (dest - l.base lo) hl (by omega) (by omega)
      simp only [covering, chunks, if_pos hd, List.mem_append, List.mem_map]
      refine ⟨.inl ⟨_, hm, rfl⟩, ?_, ?_⟩ <;> simp only [Chunk.shift] <;> omega
    · obtain ⟨hm, hs, he⟩ := @ihr _ _ (dest - r.base note) hr (by omega) (by omega)
      simp only [covering, chunks, if_neg hd, List.mem_append, List.mem_map]
      refine ⟨.inr ⟨_, hm, rfl⟩, ?_, ?_⟩ <;> simp only [Chunk.shift] <;> omega

end Layout

lemma segment_leafPath (allowRebase : Bool) {data : Bytes} {note : Nat} (hd : data.length = 32)
    (hn : note < 256 ^ noteSize) :
    segment allowRebase (data ++ noteToBinary note) = .leaf data note := by
  have hlen : (data ++ noteToBinary note).length = 64 := by simp [hd]
  have hnote : Bytes.toNat (noteToBinary note) = note := Bytes.toNat_ofNat_of_lt hn
  simp [segment, hlen, hd, hnote]

lemma splitNode_append {l r rest : Bytes} {note : Nat} (hl : l.length = 32) (hr : r.length = 32)
    (hn : note < 256 ^ noteSize) :
    splitNode (l ++ r ++ noteToBinary note ++ rest) = (l, r, note, rest) := by
  have hnote : Bytes.toNat (noteToBinary note) = note := Bytes.toNat_ofNat_of_lt hn
  have h64 : (l ++ r).length = 64 := by simp [hl, hr]
  have h96 : (l ++ r ++ noteToBinary note).length = 96 := by simp [hl, hr]
  have htake : (l ++ r ++ noteToBinary note ++ rest).take 32 = l := by
    rw [List.append_assoc, List.append_assoc, ← hl, List.take_left]
  have hmid : (l ++ r ++ noteToBinary note ++ rest).drop 32 = r ++ noteToBinary note ++ rest := by
    rw [List.append_assoc, List.append_assoc, ← hl, List.drop_left, List.append_assoc]
  have hdrop : (l ++ r ++ noteToBinary note ++ rest).drop 64 = noteToBinary note ++ rest := by
    rw [List.append_assoc, ← h64, List.drop_left]
  have hrest : (l ++ r ++ noteToBinary note ++ rest).drop 96 = rest := by
    rw [← h96, List.drop_left]
  have hr' : (r ++ noteToBinary note ++ rest).take 32 = r := by
    rw [List.append_assoc, ← hr, List.take_left]
  have hn' : (noteToBinary note ++ rest).take 32 = noteToBinary note := by
    rw [← length_noteToBinary note, List.take_left]
  simp only [splitNode, htake, hmid, hdrop, hrest, hr', hn', hnote]

lemma segment_nodePath {allowRebase marked : Bool} {l r rest : Bytes} {note : Nat}
    (hl : l.length = 32) (hr : r.length = 32) (hn : note < 256 ^ noteSize)
    (hrest : 64 ≤ rest.length) (hmarked : marked = true → allowRebase = true)
    (hzero : allowRebase = true → l ≠ rebaseMark) :
    segment allowRebase
      ((if marked then rebaseMark else []) ++ l ++ r ++ noteToBinary note ++ rest) =
      .ofNode marked l r note rest := by
  have hsplit : splitNode (l ++ r ++ noteToBinary note ++ rest) = (l, r, note, rest) :=
    splitNode_append hl hr hn
  cases marked with
  | true =>
    have hassoc : rebaseMark ++ l ++ r ++ noteToBinary note ++ rest =
        rebaseMark ++ (l ++ r ++ noteToBinary note ++ rest) := by simp
    have htake : (rebaseMark ++ (l ++ r ++ noteToBinary note ++ rest)).take 32 = rebaseMark := by
      rw [← length_rebaseMark, List.take_left]
    have hdrop : (rebaseMark ++ (l ++ r ++ noteToBinary note ++ rest)).drop 32 =
        l ++ r ++ noteToBinary note ++ rest := by
      rw [← length_rebaseMark, List.drop_left]
    have hlen : (rebaseMark ++ (l ++ r ++ noteToBinary note ++ rest)).length = 128 + rest.length := by
      simp [hl, hr]
      omega
    simp only [if_true, hassoc, segment, htake, hdrop, hsplit, hlen, hmarked rfl, Segment.ofNode]
    rw [if_neg (by omega), if_pos ⟨trivial, by omega, trivial⟩]
  | false =>
    have htake : (l ++ r ++ noteToBinary note ++ rest).take 32 = l := by
      rw [List.append_assoc, List.append_assoc, ← hl, List.take_left]
    have hlen : (l ++ r ++ noteToBinary note ++ rest).length = 96 + rest.length := by
      simp [hl, hr]
      omega
    simp only [Bool.false_eq_true, if_false, List.nil_append, segment, htake, hsplit, hlen,
      Segment.ofNode]
    rw [if_neg (by omega), if_neg (fun h => hzero h.1 h.2.2), if_pos (by omega)]

namespace Layout

lemma length_honestPath_ge (H : Digest 32) (flag : Layout → Bool) {t : Layout} {lo hi : Nat} {dest : Int}
    (hdata : (t.covering lo hi dest).data.length = 32) : 64 ≤ (t.honestPath H flag lo dest).length := by
  cases t with
  | leaf b data note =>
    have hlen : data.length = 32 := hdata
    simp [honestPath, hlen]
  | branch b l r note =>
    simp only [honestPath]
    split_ifs <;> simp <;> omega

lemma step_cursor_left {c : Cursor} {lo note : Nat} {u : Layout} {m : Bool} (hm : m = u.rebased ∨ lo = 0)
    (hleft : c.leftBound = lo) (hright : note ≤ c.rightBound) (hle : lo ≤ note) (hd : c.dest < note) :
    (c.step m note).leftBound = ((lo - u.base lo : Nat) : Int) ∧
    (c.step m note).rightBound = ((note - u.base lo : Nat) : Int) ∧
    (c.step m note).dest = c.dest - u.base lo ∧
    (c.step m note).leftBoundShift = c.leftBoundShift + u.base lo := by
  rcases hm with rfl | rfl
  · cases hb : u.rebased <;> simp [Cursor.step, Cursor.rebase, Cursor.descend, hd, base, hb] <;> omega
  · cases m <;> simp [Cursor.step, Cursor.rebase, Cursor.descend, hd, base] <;> omega

lemma step_cursor_right {c : Cursor} {lo note hi : Nat} {u : Layout} {m : Bool}
    (hm : m = u.rebased ∨ note = 0) (hleft : c.leftBound = lo)
    (hright : c.rightBound = hi) (hlo : lo ≤ note) (hhi : note ≤ hi) (hd : ¬c.dest < note) :
    (c.step m note).leftBound = ((note - u.base note : Nat) : Int) ∧
    (c.step m note).rightBound = ((hi - u.base note : Nat) : Int) ∧
    (c.step m note).dest = c.dest - u.base note ∧
    (c.step m note).leftBoundShift = c.leftBoundShift + u.base note := by
  rcases hm with rfl | rfl
  · cases hb : u.rebased <;> simp [Cursor.step, Cursor.rebase, Cursor.descend, hd, base, hb] <;> omega
  · rw [Nat.cast_zero] at hd
    cases m <;> simp [Cursor.step, Cursor.rebase, Cursor.descend, hd, base] <;> omega

lemma length_covering_data {t : Layout} {lo hi : Nat} {dest : Int}
    (hdata : ∀ b data note, .leaf b data note ∈ t.subtrees → data.length = 32) :
    (t.covering lo hi dest).data.length = 32 := by
  induction t generalizing lo hi dest with
  | leaf b data note => exact hdata b data note (mem_subtrees_self _)
  | branch b l r note ihl ihr =>
    simp only [covering]
    split_ifs
    · exact ihl fun b data note hm => hdata b data note (by simp [subtrees, hm])
    · exact ihr fun b data note hm => hdata b data note (by simp [subtrees, hm])

/-- The validator accepts the honest path and returns the covering chunk, when the chunk has an
identifier and passes the checks of the ruleset. -/
theorem validatePathFrom_covered (H : Digest 32) (checks : Checks) (dataSize : Int)
    {flag : Layout → Bool} {t : Layout} {lo hi : Nat} {c : Cursor} (hspan : t.Spans lo hi)
    (hlt : hi < 256 ^ noteSize) (hdata : (t.covering lo hi c.dest).data.length = 32)
    (hfit : FlagsFit flag t lo)
    (hflags : checks.allowRebase = false → ∀ u ∈ t.subtrees, u.rebased = false ∧ flag u = false)
    (hzero : checks.allowRebase = true → ∀ u ∈ t.subtrees, u.id H ≠ rebaseMark)
    (hleft : c.leftBound = lo) (hright : c.rightBound = hi) (hlo : lo ≤ c.dest) (hhi : c.dest < hi)
    (hok : ∀ d : Cursor,
      d.leftBoundShift + d.leftBound = c.leftBoundShift + (t.covering lo hi c.dest).start →
      d.leftBoundShift + d.rightBound = c.leftBoundShift + (t.covering lo hi c.dest).stop →
      (checks.allowRebase = false → d.leftBoundShift = c.leftBoundShift) →
      areBordersValid checks d d.rightBound = true ∧
        isSplitValid checks dataSize d d.rightBound = true) :
    validatePathFrom H checks dataSize (t.id H) c (t.honestPath H flag lo c.dest) =
      some ⟨(t.covering lo hi c.dest).data, c.leftBoundShift + (t.covering lo hi c.dest).start,
        c.leftBoundShift + (t.covering lo hi c.dest).stop⟩ := by
  induction t generalizing lo hi c with
  | leaf b data note =>
    obtain ⟨rfl, -⟩ := hspan
    obtain ⟨hb, hs⟩ := hok c (by rw [hleft]; rfl) (by rw [hright]; rfl) (fun _ => rfl)
    have hlen : data.length = 32 := hdata
    rw [hright] at hb hs
    rw [honestPath, validatePathFrom_leaf (segment_leafPath _ hlen hlt), hb, hs]
    have hend : max (min (note : Int) note) (lo + 1) = note := by omega
    simp only [Bool.and_self, if_true, validateLeaf, id, covering, hleft, hright, hend]
  | branch b l r note ihl ihr =>
    obtain ⟨h1, h2, hl, hr⟩ := hspan
    obtain ⟨hfl, hfr, hfitl, hfitr⟩ := hfit
    have hbl := l.base_le lo
    have hbr := r.base_le note
    have hnote : note < 256 ^ noteSize := h2.trans_lt hlt
    have hsubl : ∀ u ∈ l.subtrees, u ∈ (Layout.branch b l r note).subtrees := fun u hu => by
      simp [subtrees, hu]
    have hsubr : ∀ u ∈ r.subtrees, u ∈ (Layout.branch b l r note).subtrees := fun u hu => by
      simp [subtrees, hu]
    have hzl : checks.allowRebase = true → l.id H ≠ rebaseMark := fun h =>
      hzero h l (hsubl l l.mem_subtrees_self)
    have hmark : ∀ u ∈ (Layout.branch b l r note).subtrees,
        flag u = true → checks.allowRebase = true := by
      intro u hu hb
      by_contra hf
      have := (hflags (by simpa using hf) u hu).2
      simp [this] at hb
    have hshift : ∀ u : Layout, ∀ x : Nat, u ∈ (Layout.branch b l r note).subtrees →
        checks.allowRebase = false → u.base x = 0 := fun u x hu hf => by
      simp [base, (hflags hf u hu).1]
    have hml := hsubl l l.mem_subtrees_self
    have hmr := hsubr r r.mem_subtrees_self
    by_cases hd : c.dest < note
    · obtain ⟨e1, e2, e3, e4⟩ := step_cursor_left hfl hleft (by omega) h1 hd
      have hdatal : (l.covering (lo - l.base lo) (note - l.base lo) (c.dest - l.base lo)).data.length = 32 := by
        simpa only [covering, if_pos hd, Chunk.shift] using hdata
      have hrec := @ihl _ _ (c.step (flag l) note) hl (by omega) (by rw [e3]; exact hdatal) hfitl
        (fun hf u hu => hflags hf u (hsubl u hu)) (fun hf u hu => hzero hf u (hsubl u hu))
        e1 e2 (by omega) (by omega)
      rw [e3, e4] at hrec
      simp only [honestPath, covering, if_pos hd, Chunk.shift] at hok ⊢
      rw [validatePathFrom_node (segment_nodePath (by simp) (by simp) hnote
        (length_honestPath_ge H _ hdatal)
        (hmark l hml) hzl), id, if_pos rfl]
      simp only [Cursor.child, if_pos hd]
      rw [hrec]
      · simp only [Nat.cast_add, add_assoc]
      · intro d hd1 hd2 hd3
        refine hok d (by push_cast; omega) (by push_cast; omega) fun hf => ?_
        rw [hd3 hf, hshift l lo hml hf]
        simp
    · obtain ⟨e1, e2, e3, e4⟩ := step_cursor_right hfr hleft hright h1 h2 hd
      have hdatar : (r.covering (note - r.base note) (hi - r.base note) (c.dest - r.base note)).data.length = 32 := by
        simpa only [covering, if_neg hd, Chunk.shift] using hdata
      have hrec := @ihr _ _ (c.step (flag r) note) hr (by omega) (by rw [e3]; exact hdatar) hfitr
        (fun hf u hu => hflags hf u (hsubr u hu)) (fun hf u hu => hzero hf u (hsubr u hu))
        e1 e2 (by omega) (by omega)
      rw [e3, e4] at hrec
      simp only [honestPath, covering, if_neg hd, Chunk.shift] at hok ⊢
      rw [validatePathFrom_node (segment_nodePath (by simp) (by simp) hnote
        (length_honestPath_ge H _ hdatar)
        (hmark r hmr) hzl), id, if_pos rfl]
      simp only [Cursor.child, if_neg hd]
      rw [hrec]
      · simp only [Nat.cast_add, add_assoc]
      · intro d hd1 hd2 hd3
        refine hok d (by push_cast; omega) (by push_cast; omega) fun hf => ?_
        rw [hd3 hf, hshift r note hmr hf]
        simp

/-- The validator accepts the honest path and returns the covering chunk, when the chunk
passes the checks of the ruleset. -/
theorem validatePathFrom_honestPath (H : Digest 32) (checks : Checks) (dataSize : Int)
    {flag : Layout → Bool} {t : Layout} {lo hi : Nat} {c : Cursor} (hspan : t.Spans lo hi)
    (hlt : hi < 256 ^ noteSize)
    (hdata : ∀ b data note, .leaf b data note ∈ t.subtrees → data.length = 32)
    (hfit : FlagsFit flag t lo)
    (hflags : checks.allowRebase = false → ∀ u ∈ t.subtrees, u.rebased = false ∧ flag u = false)
    (hzero : checks.allowRebase = true → ∀ u ∈ t.subtrees, u.id H ≠ rebaseMark)
    (hleft : c.leftBound = lo) (hright : c.rightBound = hi) (hlo : lo ≤ c.dest) (hhi : c.dest < hi)
    (hok : ∀ d : Cursor,
      d.leftBoundShift + d.leftBound = c.leftBoundShift + (t.covering lo hi c.dest).start →
      d.leftBoundShift + d.rightBound = c.leftBoundShift + (t.covering lo hi c.dest).stop →
      (checks.allowRebase = false → d.leftBoundShift = c.leftBoundShift) →
      areBordersValid checks d d.rightBound = true ∧
        isSplitValid checks dataSize d d.rightBound = true) :
    validatePathFrom H checks dataSize (t.id H) c (t.honestPath H flag lo c.dest) =
      some ⟨(t.covering lo hi c.dest).data, c.leftBoundShift + (t.covering lo hi c.dest).start,
        c.leftBoundShift + (t.covering lo hi c.dest).stop⟩ :=
  validatePathFrom_covered H checks dataSize hspan hlt (length_covering_data hdata) hfit hflags hzero hleft hright hlo
    hhi hok

end Layout

end Arweave.Merkle
