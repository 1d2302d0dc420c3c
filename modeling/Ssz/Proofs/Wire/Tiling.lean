-- SUMMARY: When an input splits into parts, where each part lies, and that the parts tile it.
import Ssz.Proofs.Wire.Ranged

/-!
# Tilings

The offsets of an input are what stands at the places that the slots leave for
them. They decide alone whether the input can be split: the first of them ends
the prefix, and from there they never go back and never leave the input. The
parts then reach from one offset to the next, so that each byte belongs to one
place of an offset or to one part, and to nothing else.

A machine splits by ranges of the input, at places that it counts in words. If the
prefix fits a word, no run asks for a range that is reversed or goes past the end,
not even a run that fails. If it does not fit, one may.
-/

namespace Ssz.OffsetTable

/-! ## Ranges -/

namespace Span

/-- Whether the position is one of them. -/
def covers (i : Nat) (span : Span) : Bool := span.start ≤ i && i < span.stop

end Span

/-! ## Places and parts -/

/-- The places of the offsets, if the slots start at `position`. -/
def offsetPlaces : (position : Nat) → List Slot → List Span
  | _, [] => []
  | position, some size :: slots => offsetPlaces (position + size) slots
  | position, none :: slots =>
    ⟨position, position + bytesPerOffset⟩ :: offsetPlaces (position + bytesPerOffset) slots

/-- The offsets that the input has there. -/
def offsets (bytes : Bytes) (position : Nat) (slots : List Slot) : List Nat :=
  (offsetPlaces position slots).map fun place => ofLittleEndian (place.read bytes)

/-- The ranges of the parts. A part of fixed size stands at the place of its slot; any other reaches
    from its offset to the next one, or to the end of the input. -/
def partSpans (bytes : Bytes) : (position : Nat) → List Slot → List Span
  | _, [] => []
  | position, some size :: slots =>
    ⟨position, position + size⟩ :: partSpans bytes (position + size) slots
  | position, none :: slots =>
    let place : Span := ⟨position, position + bytesPerOffset⟩
    let next := offsets bytes (position + bytesPerOffset) slots
    ⟨ofLittleEndian (place.read bytes), next.headD bytes.length⟩
      :: partSpans bytes (position + bytesPerOffset) slots

/-- The first offset ends the prefix, and from there on they do not decrease and stay within the
    input. Without offsets the input ends where the prefix does. -/
structure InOrder (prefixLength length : Nat) (offsets : List Nat) : Prop where
  first : offsets.headD length = prefixLength
  ordered : (offsets ++ [length]).IsChain (· ≤ ·)

theorem offsets_fixed (bytes : Bytes) (position size : Nat) (slots : List Slot) :
    offsets bytes position (some size :: slots) = offsets bytes (position + size) slots := rfl

theorem offsets_variable (bytes : Bytes) (position : Nat) (slots : List Slot) :
    offsets bytes position (none :: slots)
      = ofLittleEndian ((bytes.drop position).take bytesPerOffset)
        :: offsets bytes (position + bytesPerOffset) slots := by
  rw [← read_place]
  rfl

/-! ## Reading the prefix -/

theorem le_of_isChain {offset length : Nat} {offsets : List Nat}
    (h : (offset :: (offsets ++ [length])).IsChain (· ≤ ·)) : offset ≤ length :=
  List.rel_of_pairwise_cons (List.isChain_iff_pairwise.1 h) (by simp)

section Prefix

variable {bytes : Bytes} {prefixLength position : Nat} {slots : List Slot}

/-- A slot of fixed size has no say in whether the prefix is read. -/
theorem exists_readHeads_fixed {length size : Nat} {rest : Bytes} {previous : Option Nat} :
    (∃ heads, readHeads length prefixLength (some size :: slots) rest previous = .ok heads) ↔
      ∃ heads, readHeads length prefixLength slots (rest.drop size) previous = .ok heads := by
  simp only [readHeads_fixed]
  constructor
  · rintro ⟨_, tail, htail, -⟩
    exact ⟨tail, htail⟩
  · rintro ⟨tail, htail⟩
    exact ⟨_, tail, htail, rfl⟩

/-- Behind the first offset, the others must not decrease nor leave the input. -/
theorem exists_readHeads_next {previous : Nat} (hprevious : previous ≤ bytes.length) :
    (∃ heads, readHeads bytes.length prefixLength slots (bytes.drop position) (some previous)
        = .ok heads) ↔
      (previous :: (offsets bytes position slots ++ [bytes.length])).IsChain (· ≤ ·) := by
  induction slots generalizing position previous with
  | nil => simpa [readHeads, offsets, offsetPlaces] using hprevious
  | cons slot slots ih =>
    cases slot with
    | some size =>
      rw [exists_readHeads_fixed, List.drop_drop, offsets_fixed]
      exact ih hprevious
    | none =>
      simp only [readHeads_variable, List.drop_drop, offsets_variable, checkOffset_next,
        List.cons_append, List.isChain_cons_cons]
      generalize ofLittleEndian ((bytes.drop position).take bytesPerOffset) = offset
      constructor
      · rintro ⟨_, ⟨horder, hlength⟩, tail, htail, _⟩
        exact ⟨horder, (ih hlength).1 ⟨tail, htail⟩⟩
      · rintro ⟨horder, hrest⟩
        have hlength := le_of_isChain hrest
        obtain ⟨tail, htail⟩ := (ih hlength).2 hrest
        exact ⟨_, ⟨horder, hlength⟩, tail, htail, rfl⟩

/-- The whole prefix is read exactly if its offsets are in order. -/
theorem exists_readHeads_first :
    ((∃ heads, readHeads bytes.length prefixLength slots (bytes.drop position) none = .ok heads) ∧
        (slots.all Option.isSome → bytes.length = prefixLength)) ↔
      InOrder prefixLength bytes.length (offsets bytes position slots) := by
  induction slots generalizing position with
  | nil =>
    constructor
    · rintro ⟨-, hend⟩
      exact ⟨hend rfl, .singleton _⟩
    · rintro ⟨hend, -⟩
      exact ⟨⟨[], rfl⟩, fun _ => hend⟩
  | cons slot slots ih =>
    cases slot with
    | some size =>
      rw [exists_readHeads_fixed, List.drop_drop, offsets_fixed]
      exact ih
    | none =>
      simp only [readHeads_variable, List.drop_drop, offsets_variable, checkOffset_first]
      generalize ofLittleEndian ((bytes.drop position).take bytesPerOffset) = offset
      constructor
      · rintro ⟨⟨_, ⟨hfirst, hlength⟩, tail, htail, _⟩, -⟩
        exact ⟨hfirst, (exists_readHeads_next hlength).1 ⟨tail, htail⟩⟩
      · rintro ⟨hfirst, hrest⟩
        have hlength := le_of_isChain hrest
        obtain ⟨tail, htail⟩ := (exists_readHeads_next hlength).2 hrest
        exact ⟨⟨_, ⟨hfirst, hlength⟩, tail, htail, rfl⟩, Bool.noConfusion⟩

/-- The parts that are cut out are the bytes of their ranges. -/
theorem cut_eq_map_read {previous : Option Nat} {heads : List Head}
    (h : readHeads bytes.length prefixLength slots (bytes.drop position) previous = .ok heads) :
    cut bytes heads = (partSpans bytes position slots).map (Span.read bytes) ∧
      nextOffset bytes.length heads = (offsets bytes position slots).headD bytes.length := by
  induction slots generalizing position previous heads with
  | nil =>
    cases h
    exact ⟨rfl, rfl⟩
  | cons slot slots ih =>
    cases slot with
    | some size =>
      obtain ⟨tail, htail, rfl⟩ := readHeads_fixed.1 h
      rw [List.drop_drop] at htail
      obtain ⟨hcut, hnext⟩ := ih htail
      rw [cut, partSpans, List.map_cons, read_place, hcut]
      exact ⟨rfl, hnext⟩
    | none =>
      obtain ⟨-, tail, htail, rfl⟩ := readHeads_variable.1 h
      rw [List.drop_drop] at htail
      obtain ⟨hcut, hnext⟩ := ih htail
      rw [cut, partSpans, List.map_cons, read_place, hcut, hnext, offsets_variable]
      exact ⟨rfl, rfl⟩

end Prefix

/-! ## Covering the input -/

namespace Span

/-- How many of the ranges a position lies in. -/
def count (i : Nat) (spans : List Span) : Nat := spans.countP (covers i)

theorem count_cons (i : Nat) (span : Span) (spans : List Span) :
    count i (span :: spans) = count i [span] + count i spans := by
  rw [count, count, count, ← List.countP_append, List.singleton_append]

theorem count_append (i : Nat) (spans others : List Span) :
    count i (spans ++ others) = count i spans + count i others := List.countP_append

theorem count_singleton (i start stop : Nat) :
    count i [⟨start, stop⟩] = if start ≤ i ∧ i < stop then 1 else 0 := by
  simp [count, covers, List.countP_cons]

/-- Two ranges that meet are as good as the range from the first to the last of them. -/
theorem count_join (i : Nat) {start middle stop : Nat} (hleft : start ≤ middle)
    (hright : middle ≤ stop) :
    count i [⟨start, middle⟩] + count i [⟨middle, stop⟩] = count i [⟨start, stop⟩] := by
  simp only [count_singleton]
  split_ifs <;> omega

end Span

/-- The next offset, or else the end of the input, is not before the one that is followed by it. -/
theorem headD_bounds {offset length : Nat} {offsets : List Nat}
    (h : (offset :: (offsets ++ [length])).IsChain (· ≤ ·)) :
    offset ≤ offsets.headD length ∧ offsets.headD length ≤ length := by
  cases offsets with
  | nil => exact ⟨le_of_isChain h, Nat.le_refl _⟩
  | cons next offsets =>
    obtain ⟨horder, hrest⟩ := List.isChain_cons_cons.1 h
    exact ⟨horder, le_of_isChain hrest⟩

section Spans

variable {bytes : Bytes} {position : Nat} {slots : List Slot}

/-- Places and parts cover the prefix, and all from the first offset on, each position once. -/
theorem count_spans (h : (offsets bytes position slots ++ [bytes.length]).IsChain (· ≤ ·))
    (i : Nat) :
    Span.count i (offsetPlaces position slots ++ partSpans bytes position slots)
      = Span.count i [⟨position, position + slotsLength slots⟩]
        + Span.count i [⟨(offsets bytes position slots).headD bytes.length, bytes.length⟩] := by
  rw [Span.count_append]
  induction slots generalizing position with
  | nil =>
    have hempty (n : Nat) : Span.count i [⟨n, n⟩] = 0 := by
      rw [Span.count_singleton, if_neg (by omega)]
    exact (congrArg₂ (· + ·) (hempty position) (hempty bytes.length)).symm
  | cons slot slots ih =>
    cases slot with
    | some size =>
      rw [offsets_fixed] at h ⊢
      have hfront := Span.count_join i (Nat.le_add_right position size)
        (Nat.le_add_right (position + size) (slotsLength slots))
      have hrest := ih h
      rw [offsetPlaces, partSpans, Span.count_cons i ⟨position, position + size⟩, slotsLength_cons,
        size_some, ← Nat.add_assoc position, ← hfront]
      omega
    | none =>
      rw [offsets_variable] at h ⊢
      have hfront := Span.count_join i (Nat.le_add_right position bytesPerOffset)
        (Nat.le_add_right (position + bytesPerOffset) (slotsLength slots))
      obtain ⟨horder, hlength⟩ := headD_bounds h
      have hbody := Span.count_join i horder hlength
      have hrest := ih (List.isChain_of_isChain_cons h)
      rw [offsetPlaces, partSpans, Span.count_cons i ⟨position, position + bytesPerOffset⟩,
        Span.count_cons i ⟨ofLittleEndian _, _⟩, slotsLength_cons, size_none,
        ← Nat.add_assoc position, ← hfront, read_place, List.headD_cons, ← hbody]
      omega

/-- No range is reversed, and none leaves the input. -/
theorem within_of_mem_partSpans (hfront : position + slotsLength slots ≤ bytes.length)
    (h : (offsets bytes position slots ++ [bytes.length]).IsChain (· ≤ ·)) {span : Span}
    (hspan : span ∈ partSpans bytes position slots) : span.Within bytes.length := by
  induction slots generalizing position with
  | nil => cases hspan
  | cons slot slots ih =>
    rw [slotsLength_cons, ← Nat.add_assoc] at hfront
    cases slot with
    | some size =>
      rcases List.mem_cons.1 hspan with rfl | hspan
      · exact ⟨Nat.le_add_right _ _, Nat.le_trans (Nat.le_add_right _ _) hfront⟩
      · exact ih hfront h hspan
    | none =>
      rw [offsets_variable] at h
      rcases List.mem_cons.1 hspan with rfl | hspan
      · rw [read_place]
        exact headD_bounds h
      · exact ih hfront (List.isChain_of_isChain_cons h) hspan

/-- A part of fixed size stands behind all that the slots before its own take up. -/
theorem partSpans_fixed {i size : Nat} (h : slots[i]? = some (some size)) :
    (partSpans bytes position slots)[i]? =
      some ⟨position + slotsLength (slots.take i),
        position + slotsLength (slots.take i) + size⟩ := by
  induction slots generalizing position i with
  | nil => cases h
  | cons slot slots ih =>
    cases i with
    | zero =>
      cases h
      rfl
    | succ i =>
      cases slot with
      | some n =>
        rw [List.getElem?_cons_succ] at h
        rw [List.take_succ_cons, slotsLength_cons, size_some, ← Nat.add_assoc]
        exact ih h
      | none =>
        rw [List.getElem?_cons_succ] at h
        rw [List.take_succ_cons, slotsLength_cons, size_none, ← Nat.add_assoc]
        exact ih h

end Spans

/-! ## The law -/

/-- How an input is made up of the parts that it splits into. -/
structure Tiled (slots : List Slot) (bytes : Bytes) (parts : List Bytes) : Prop where
  count : parts.length = slots.length
  ranges : parts = (partSpans bytes 0 slots).map (Span.read bytes)
  within : ∀ span ∈ partSpans bytes 0 slots, span.Within bytes.length
  fixed : ∀ (i size : Nat), slots[i]? = some (some size) →
    parts[i]? = some ((bytes.drop (slotsLength (slots.take i))).take size)
  /-- The parts of variable size, one after the other, are all that follows the prefix. -/
  deferred : bodies (segments slots parts) = bytes.drop (slotsLength slots)
  /-- Each byte belongs to the place of one offset or to one part, and to nothing else. -/
  once : ∀ i < bytes.length, Span.count i (offsetPlaces 0 slots ++ partSpans bytes 0 slots) = 1

theorem exists_split_iff {slots : List Slot} {bytes : Bytes} :
    (∃ parts, split slots bytes = .ok parts) ↔
      slotsLength slots ≤ bytes.length ∧
        InOrder (slotsLength slots) bytes.length (offsets bytes 0 slots) := by
  simp only [split_eq_ok_iff_readHeads, ← exists_readHeads_first, List.drop_zero]
  constructor
  · rintro ⟨_, hle, heads, hheads, hend, rfl⟩
    exact ⟨hle, ⟨heads, hheads⟩, hend⟩
  · rintro ⟨hle, ⟨heads, hheads⟩, hend⟩
    exact ⟨_, hle, heads, hheads, hend, rfl⟩

theorem tiled_of_split {slots : List Slot} {bytes : Bytes} {parts : List Bytes}
    (h : split slots bytes = .ok parts) : Tiled slots bytes parts := by
  obtain ⟨hle, hinOrder⟩ := exists_split_iff.1 ⟨parts, h⟩
  obtain ⟨-, htiles⟩ := split_eq_ok_iff_tiles.1 h
  obtain ⟨-, heads, hheads, -, hcut⟩ := split_eq_ok_iff_readHeads.1 h
  have hranges : parts = (partSpans bytes 0 slots).map (Span.read bytes) := by
    rw [← hcut]
    exact (@cut_eq_map_read bytes _ 0 _ _ _ hheads).1
  constructor
  case count => exact htiles.fit.length_eq.symm
  case ranges => exact hranges
  case within =>
    intro span hspan
    exact within_of_mem_partSpans (by rwa [Nat.zero_add]) hinOrder.ordered hspan
  case fixed =>
    intro i size hslot
    rw [hranges, List.getElem?_map, partSpans_fixed hslot, Nat.zero_add, Option.map_some,
      read_place]
  case deferred => exact htiles.bodies
  case once =>
    intro i hi
    have hjoin := Span.count_join i (Nat.zero_le _) hle
    rw [count_spans hinOrder.ordered, hinOrder.first, Nat.zero_add, hjoin, Span.count_singleton,
      if_pos ⟨Nat.zero_le i, hi⟩]

/-- An input splits exactly if it has the whole prefix and the offsets in it are in order. The parts
    then tile the input. Whether it splits or not, no range is taken that it does not have. All this
    as long as the prefix fits a word. -/
theorem split_tiles {shapes : List Shape}
    (h : (shapes.map Shape.wordPrefixSize).sum < wordBound) (bytes : Bytes) :
    let slots := shapes.map Shape.wordSize?
    let prefixLength := (shapes.map Shape.wordPrefixSize).sum
    ((∃ parts, Ranged.split slots bytes = .ofExcept (.ok parts)) ↔
      prefixLength ≤ bytes.length ∧ InOrder prefixLength bytes.length (offsets bytes 0 slots)) ∧
    (∀ parts, Ranged.split slots bytes = .ofExcept (.ok parts) → Tiled slots bytes parts) ∧
    Ranged.split slots bytes ≠ .missing := by
  intro slots prefixLength
  have hfront : slotsLength slots = prefixLength := by
    rw [slotsLength_eq_sum, List.map_map]
    rfl
  rw [Ranged.split_eq (hfront ▸ h), ← hfront]
  simp only [Ranged.ofExcept_inj]
  exact ⟨exists_split_iff, fun parts => tiled_of_split, Ranged.ofExcept_ne_missing _⟩

/-- A part in the prefix on either side of an offset, and two parts behind it. -/
theorem split_tiles_record :
    let shapes : List Shape := [.uint .u16, .byteList 4, .bool, .byteList 4]
    let slots := shapes.map Shape.wordSize?
    let bytes : Bytes := [7, 0, 11, 0, 0, 0, 1, 13, 0, 0, 0, 5, 6, 9]
    let parts : List Bytes := [[7, 0], [5, 6], [1], [9]]
    (shapes.map Shape.wordPrefixSize).sum < wordBound ∧
      Ranged.split slots bytes = .ofExcept (.ok parts) ∧ Tiled slots bytes parts := by
  intro shapes slots bytes parts
  have hword : (shapes.map Shape.wordPrefixSize).sum < wordBound := by decide
  have hsplit : Ranged.split slots bytes = .ofExcept (.ok parts) := by rfl
  exact ⟨hword, hsplit, (split_tiles hword bytes).2.1 parts hsplit⟩

/-- Two parts of `2 ^ 63` bytes have a prefix that wraps to no bytes at all. An empty input then
    passes as long enough, and the range of the first part is missing from it. -/
theorem split_missing :
    let shapes : List Shape := [.byteVector (2 ^ 63), .byteVector (2 ^ 63)]
    ¬ (shapes.map Shape.wordPrefixSize).sum ≤ ([] : Bytes).length ∧
      Ranged.split (shapes.map Shape.wordSize?) [] = .missing :=
  ⟨by decide, by rfl⟩

end Ssz.OffsetTable
