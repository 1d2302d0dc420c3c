-- SUMMARY: Splitting a composite undoes joining its parts, and only that.
import Ssz.Proofs.Except
import Ssz.Wire.OffsetTable

/-!
# Offset tables

`split_eq_ok` is the law of this module: an input splits into some parts exactly
if these have the sizes that the schema fixes and joining them gives the input
back. Both directions go from left to right over the prefix. What holds there of
the slots that are left to read is `Tiles`: the parts from the next offset on
fill the rest of the input.
-/

namespace Ssz.OffsetTable

/-- Bytes of a prefix with these slots. -/
def slotsLength (slots : List Slot) : Nat := slots.foldr (fun slot size => slot.size + size) 0

/-- Each part has the size that its slot fixes. -/
abbrev Fit (slots : List Slot) (parts : List Bytes) : Prop :=
  List.Forall₂ (fun slot part => ∀ size ∈ slot, part.length = size) slots parts

/-- The parts as they are joined, one for each slot. -/
def segments (slots : List Slot) (parts : List Bytes) : List Segment :=
  List.zipWith (fun slot part => ⟨slot.isSome, part⟩) slots parts

@[simp] theorem slotsLength_nil : slotsLength [] = 0 := rfl

@[simp] theorem slotsLength_cons (slot : Slot) (slots : List Slot) :
    slotsLength (slot :: slots) = slot.size + slotsLength slots := rfl

@[simp] theorem size_some (n : Nat) : Slot.size (some n) = n := rfl

@[simp] theorem size_none : Slot.size none = bytesPerOffset := rfl

@[simp] theorem segments_nil (parts : List Bytes) : segments [] parts = [] := rfl

@[simp] theorem segments_cons (slot : Slot) (slots : List Slot) (part : Bytes)
    (parts : List Bytes) :
    segments (slot :: slots) (part :: parts) = ⟨slot.isSome, part⟩ :: segments slots parts := rfl

/-! ## Joining -/

@[simp] theorem bodies_nil : bodies [] = [] := rfl

@[simp] theorem bodies_fixed (body : Bytes) (parts : List Segment) :
    bodies (⟨true, body⟩ :: parts) = bodies parts := rfl

@[simp] theorem bodies_variable (body : Bytes) (parts : List Segment) :
    bodies (⟨false, body⟩ :: parts) = body ++ bodies parts := rfl

@[simp] theorem prefixLength_nil : prefixLength [] = 0 := rfl

@[simp] theorem prefixLength_fixed (body : Bytes) (parts : List Segment) :
    prefixLength (⟨true, body⟩ :: parts) = body.length + prefixLength parts := rfl

@[simp] theorem prefixLength_variable (body : Bytes) (parts : List Segment) :
    prefixLength (⟨false, body⟩ :: parts) = bytesPerOffset + prefixLength parts := rfl

theorem heads_fixed {start : Nat} {body : Bytes} {parts : List Segment} {front : Bytes} :
    heads start (⟨true, body⟩ :: parts) = .ok front ↔
      ∃ rest, heads start parts = .ok rest ∧ body ++ rest = front := by
  simp [heads]

theorem heads_variable {start : Nat} {body : Bytes} {parts : List Segment} {front : Bytes} :
    heads start (⟨false, body⟩ :: parts) = .ok front ↔
      start < Nat.pow 256 bytesPerOffset ∧
        ∃ rest, heads (start + body.length) parts = .ok rest ∧
          littleEndian bytesPerOffset start ++ rest = front := by
  by_cases h : start < Nat.pow 256 bytesPerOffset
  · rw [heads, if_pos h]
    simp only [bind_eq_ok, pure_eq_ok, h, true_and]
  · rw [heads, if_neg h]
    simp only [h, false_and, reduceCtorEq]

theorem length_of_heads {start : Nat} {parts : List Segment} {front : Bytes}
    (h : heads start parts = .ok front) : front.length = prefixLength parts := by
  induction parts generalizing start front with
  | nil =>
    cases h
    rfl
  | cons part parts ih =>
    obtain ⟨_ | _, body⟩ := part
    · obtain ⟨-, rest, hrest, rfl⟩ := heads_variable.1 h
      simp [ih hrest]
    · obtain ⟨rest, hrest, rfl⟩ := heads_fixed.1 h
      simp [ih hrest]

theorem join_eq_ok {parts : List Segment} {bytes : Bytes} :
    join parts = .ok bytes ↔
      ∃ front, heads (prefixLength parts) parts = .ok front ∧ front ++ bodies parts = bytes := by
  simp [join]

theorem prefixLength_segments {slots : List Slot} {parts : List Bytes} (h : Fit slots parts) :
    prefixLength (segments slots parts) = slotsLength slots := by
  induction h with
  | nil => rfl
  | @cons slot part slots parts hpart _ ih =>
    cases slot with
    | none => simp [ih]
    | some size => simp [ih, hpart size rfl]

theorem bodies_segments_of_all_fixed {slots : List Slot} (parts : List Bytes)
    (h : slots.all Option.isSome) : bodies (segments slots parts) = [] := by
  induction slots generalizing parts with
  | nil => rfl
  | cons slot slots ih =>
    obtain ⟨hslot, hslots⟩ : slot.isSome = true ∧ slots.all Option.isSome = true := by
      simpa using h
    cases parts with
    | nil => rfl
    | cons part parts => rw [segments_cons, hslot, bodies_fixed, ih parts hslots]

/-! ## Filling the input -/

/-- The slots of a prefix that are left to read, at the front of `rest`, describe these parts: the
    parts that offsets point at fill the input from `start` to its end. -/
structure Tiles (bytes rest : Bytes) (slots : List Slot) (parts : List Bytes) (start : Nat) :
    Prop where
  fit : Fit slots parts
  heads : heads start (segments slots parts) = .ok (rest.take (slotsLength slots))
  bodies : bodies (segments slots parts) = bytes.drop start
  start_le : start ≤ bytes.length

theorem tiles_nil {bytes rest : Bytes} {start : Nat} :
    Tiles bytes rest [] [] start ↔ start = bytes.length := by
  constructor
  · rintro ⟨-, -, hbodies, hle⟩
    have hge : bytes.length ≤ start := List.drop_eq_nil_iff.1 hbodies.symm
    exact Nat.le_antisymm hle hge
  · rintro rfl
    exact ⟨.nil, rfl, by simp, Nat.le_refl _⟩

theorem tiles_fixed {bytes rest : Bytes} {size : Nat} {slots : List Slot} {part : Bytes}
    {parts : List Bytes} {start : Nat} (hrest : size ≤ rest.length) :
    Tiles bytes rest (some size :: slots) (part :: parts) start ↔
      part = rest.take size ∧ Tiles bytes (rest.drop size) slots parts start := by
  constructor
  · rintro ⟨hfit, hheads, hbodies, hle⟩
    obtain ⟨hpart, hfit⟩ := List.forall₂_cons.1 hfit
    have hsize : part.length = size := hpart size rfl
    obtain ⟨front, hfront, heq⟩ := heads_fixed.1 hheads
    rw [slotsLength_cons, size_some, List.take_add] at heq
    have hlength : part.length = (rest.take size).length := by simp [hsize, hrest]
    obtain ⟨hpart, rfl⟩ := List.append_inj heq hlength
    exact ⟨hpart, hfit, hfront, hbodies, hle⟩
  · rintro ⟨rfl, hfit, hheads, hbodies, hle⟩
    refine ⟨.cons (fun n hn => ?_) hfit, heads_fixed.2 ⟨_, hheads, ?_⟩, hbodies, hle⟩
    · cases hn
      exact List.length_take_of_le hrest
    · rw [slotsLength_cons, size_some, List.take_add]

theorem tiles_variable {bytes rest : Bytes} {slots : List Slot} {part : Bytes}
    {parts : List Bytes} {start : Nat} (hrest : bytesPerOffset ≤ rest.length) :
    Tiles bytes rest (none :: slots) (part :: parts) start ↔
      start = ofLittleEndian (rest.take bytesPerOffset) ∧
        part = (bytes.drop start).take part.length ∧ start + part.length ≤ bytes.length ∧
        Tiles bytes (rest.drop bytesPerOffset) slots parts (start + part.length) := by
  have hoffset : (rest.take bytesPerOffset).length = bytesPerOffset := List.length_take_of_le hrest
  constructor
  · rintro ⟨hfit, hheads, hbodies, hle⟩
    obtain ⟨hlt, front, hfront, heq⟩ := heads_variable.1 hheads
    rw [slotsLength_cons, size_none, List.take_add] at heq
    obtain ⟨hstart, rfl⟩ := List.append_inj heq (by rw [length_littleEndian, hoffset])
    change part ++ OffsetTable.bodies (segments slots parts) = bytes.drop start at hbodies
    have hlength : part.length ≤ bytes.length - start := by
      rw [← List.length_drop, ← hbodies]
      simp
    refine ⟨?_, ?_, by omega, (List.forall₂_cons.1 hfit).2, hfront, ?_, by omega⟩
    · rw [← hstart, ofLittleEndian_littleEndian hlt]
    · rw [← hbodies, List.take_left]
    · rw [← List.drop_drop, ← hbodies, List.drop_left]
  · rintro ⟨hstart, hpart, hle, hfit, hheads, hbodies, -⟩
    have hlt : start < Nat.pow 256 bytesPerOffset := by
      have hbound := ofLittleEndian_lt (rest.take bytesPerOffset)
      rwa [← hstart, hoffset] at hbound
    refine ⟨.cons (fun _ h => nomatch h) hfit, heads_variable.2 ⟨hlt, _, hheads, ?_⟩, ?_, by omega⟩
    · have hdigits := littleEndian_ofLittleEndian (rest.take bytesPerOffset)
      rw [hoffset, ← hstart] at hdigits
      rw [hdigits, slotsLength_cons, size_none, List.take_add]
    · change part ++ OffsetTable.bodies (segments slots parts) = bytes.drop start
      rw [hbodies, ← List.drop_drop]
      calc part ++ (bytes.drop start).drop part.length
        _ = (bytes.drop start).take part.length ++ (bytes.drop start).drop part.length := by
          rw [← hpart]
        _ = bytes.drop start := List.take_append_drop _ _

/-- The part from one offset to the next, in front of parts that fill the input after it. -/
theorem tiles_cut {bytes rest : Bytes} {slots : List Slot} {parts : List Bytes} {start next : Nat}
    (hrest : bytesPerOffset ≤ rest.length)
    (hstart : start = ofLittleEndian (rest.take bytesPerOffset)) (horder : start ≤ next)
    (h : Tiles bytes (rest.drop bytesPerOffset) slots parts next) :
    Tiles bytes rest (none :: slots) ((bytes.drop start).take (next - start) :: parts) start := by
  have hle := h.start_le
  have hlength : ((bytes.drop start).take (next - start)).length = next - start := by
    simp
    omega
  have hnext : start + (next - start) = next := by omega
  refine (tiles_variable hrest).2 ⟨hstart, ?_, ?_, ?_⟩
  · rw [hlength]
  · rw [hlength, hnext]
    exact hle
  · rw [hlength, hnext]
    exact h

theorem tiles_of_join {slots : List Slot} {parts : List Bytes} {bytes : Bytes}
    (hfit : Fit slots parts) (hjoin : join (segments slots parts) = .ok bytes) :
    slotsLength slots ≤ bytes.length ∧ Tiles bytes bytes slots parts (slotsLength slots) := by
  obtain ⟨front, hfront, rfl⟩ := join_eq_ok.1 hjoin
  have hlength := length_of_heads hfront
  rw [prefixLength_segments hfit] at hfront hlength
  have hle : slotsLength slots ≤ (front ++ bodies (segments slots parts)).length := by
    simp [hlength]
  refine ⟨hle, hfit, ?_, ?_, hle⟩
  · rw [← hlength, List.take_left, hlength, hfront]
  · rw [← hlength, List.drop_left]

theorem join_of_tiles {slots : List Slot} {parts : List Bytes} {bytes : Bytes}
    (h : Tiles bytes bytes slots parts (slotsLength slots)) :
    join (segments slots parts) = .ok bytes := by
  refine join_eq_ok.2 ⟨bytes.take (slotsLength slots), ?_, ?_⟩
  · rw [prefixLength_segments h.fit]
    exact h.heads
  · rw [h.bodies]
    exact List.take_append_drop _ _

/-! ## Reading the prefix -/

theorem checkOffset_first {length prefixLength offset : Nat} :
    checkOffset length prefixLength none offset = .ok () ↔
      offset = prefixLength ∧ offset ≤ length := by
  unfold checkOffset
  grind

theorem checkOffset_next {length prefixLength previous offset : Nat} :
    checkOffset length prefixLength (some previous) offset = .ok () ↔
      previous ≤ offset ∧ offset ≤ length := by
  unfold checkOffset
  grind

theorem readHeads_fixed {length prefixLength size : Nat} {slots : List Slot} {rest : Bytes}
    {previous : Option Nat} {heads : List Head} :
    readHeads length prefixLength (some size :: slots) rest previous = .ok heads ↔
      ∃ tail, readHeads length prefixLength slots (rest.drop size) previous = .ok tail ∧
        .inPlace (rest.take size) :: tail = heads := by
  simp [readHeads]

theorem readHeads_variable {length prefixLength : Nat} {slots : List Slot} {rest : Bytes}
    {previous : Option Nat} {heads : List Head} :
    readHeads length prefixLength (none :: slots) rest previous = .ok heads ↔
      checkOffset length prefixLength previous (ofLittleEndian (rest.take bytesPerOffset)) = .ok ()
        ∧ ∃ tail, readHeads length prefixLength slots (rest.drop bytesPerOffset)
          (some (ofLittleEndian (rest.take bytesPerOffset))) = .ok tail ∧
          .startsAt (ofLittleEndian (rest.take bytesPerOffset)) :: tail = heads := by
  simp [readHeads]

@[simp] theorem nextOffset_inPlace (length : Nat) (body : Bytes) (heads : List Head) :
    nextOffset length (.inPlace body :: heads) = nextOffset length heads := rfl

@[simp] theorem nextOffset_startsAt (length offset : Nat) (heads : List Head) :
    nextOffset length (.startsAt offset :: heads) = offset := rfl

/-- Where the heads have an offset next, it lies between the one before and the end. -/
theorem nextOffset_bounds {length prefixLength : Nat} {slots : List Slot} {rest : Bytes}
    {previous : Option Nat} {heads : List Head}
    (h : readHeads length prefixLength slots rest previous = .ok heads) :
    (∀ offset ∈ previous, offset ≤ length → offset ≤ nextOffset length heads) ∧
      nextOffset length heads ≤ length := by
  induction slots generalizing rest heads with
  | nil =>
    cases h
    exact ⟨fun _ _ hle => hle, Nat.le_refl _⟩
  | cons slot slots ih =>
    cases slot with
    | some size =>
      obtain ⟨tail, htail, rfl⟩ := readHeads_fixed.1 h
      rw [nextOffset_inPlace]
      exact ih htail
    | none =>
      obtain ⟨hcheck, tail, -, rfl⟩ := readHeads_variable.1 h
      cases previous with
      | none => exact ⟨by simp, (checkOffset_first.1 hcheck).2⟩
      | some previous =>
        obtain ⟨hprevious, hle⟩ := checkOffset_next.1 hcheck
        exact ⟨fun _ h _ => by cases h; exact hprevious, hle⟩

theorem nextOffset_eq_prefixLength {length prefixLength : Nat} {slots : List Slot} {rest : Bytes}
    {heads : List Head} (h : readHeads length prefixLength slots rest none = .ok heads)
    (hvariable : slots.all Option.isSome = false) : nextOffset length heads = prefixLength := by
  induction slots generalizing rest heads with
  | nil => cases hvariable
  | cons slot slots ih =>
    cases slot with
    | some size =>
      obtain ⟨tail, htail, rfl⟩ := readHeads_fixed.1 h
      rw [nextOffset_inPlace]
      exact ih htail (by simpa using hvariable)
    | none =>
      obtain ⟨hcheck, tail, -, rfl⟩ := readHeads_variable.1 h
      exact (checkOffset_first.1 hcheck).1

theorem tiles_of_readHeads {bytes rest : Bytes} {prefixLength : Nat} {slots : List Slot}
    {previous : Option Nat} {heads : List Head} (hrest : slotsLength slots ≤ rest.length)
    (h : readHeads bytes.length prefixLength slots rest previous = .ok heads) :
    Tiles bytes rest slots (cut bytes heads) (nextOffset bytes.length heads) := by
  induction slots generalizing rest previous heads with
  | nil =>
    cases h
    exact tiles_nil.2 rfl
  | cons slot slots ih =>
    rw [slotsLength_cons] at hrest
    cases slot with
    | some size =>
      rw [size_some] at hrest
      obtain ⟨tail, htail, rfl⟩ := readHeads_fixed.1 h
      exact (tiles_fixed (by omega)).2 ⟨rfl, ih (by rw [List.length_drop]; omega) htail⟩
    | none =>
      rw [size_none] at hrest
      have hle := (nextOffset_bounds h).2
      obtain ⟨-, tail, htail, rfl⟩ := readHeads_variable.1 h
      exact tiles_cut (by omega) rfl ((nextOffset_bounds htail).1 _ rfl hle)
        (ih (by rw [List.length_drop]; omega) htail)

/-- Reading never fails on parts that fill the input, and cuts it into these parts. -/
theorem readHeads_of_tiles {bytes rest : Bytes} {prefixLength start : Nat} {slots : List Slot}
    {parts : List Bytes} {previous : Option Nat} (hrest : slotsLength slots ≤ rest.length)
    (hfirst : previous = none → start = prefixLength)
    (hnext : ∀ offset ∈ previous, offset ≤ start) (h : Tiles bytes rest slots parts start) :
    ∃ heads, readHeads bytes.length prefixLength slots rest previous = .ok heads ∧
      cut bytes heads = parts ∧ nextOffset bytes.length heads = start := by
  induction slots generalizing rest previous parts start with
  | nil =>
    cases h.fit
    exact ⟨[], rfl, rfl, (tiles_nil.1 h).symm⟩
  | cons slot slots ih =>
    rw [slotsLength_cons] at hrest
    obtain ⟨part, parts, -, -, rfl⟩ := List.forall₂_cons_left_iff.1 h.fit
    cases slot with
    | some size =>
      rw [size_some] at hrest
      obtain ⟨rfl, htiles⟩ := (tiles_fixed (by omega)).1 h
      obtain ⟨tail, htail, hcut, hstart⟩ :=
        ih (by rw [List.length_drop]; omega) hfirst hnext htiles
      exact ⟨_, readHeads_fixed.2 ⟨tail, htail, rfl⟩, by rw [cut, hcut], hstart⟩
    | none =>
      rw [size_none] at hrest
      obtain ⟨hstart, hpart, hle, htiles⟩ := (tiles_variable (by omega)).1 h
      have horder : ∀ offset ∈ some start, offset ≤ start + part.length := by simp
      obtain ⟨tail, htail, hcut, hend⟩ :=
        ih (by rw [List.length_drop]; omega) (by simp) horder htiles
      refine ⟨.startsAt start :: tail, readHeads_variable.2 ⟨?_, tail, ?_, ?_⟩, ?_, rfl⟩
      · rw [← hstart]
        cases previous with
        | none => exact checkOffset_first.2 ⟨hfirst rfl, by omega⟩
        | some previous => exact checkOffset_next.2 ⟨hnext _ rfl, by omega⟩
      · rw [← hstart]
        exact htail
      · rw [← hstart]
      · rw [cut, hcut, hend, Nat.add_sub_cancel_left, ← hpart]

/-! ## Splitting -/

theorem split_eq_ok_iff_readHeads {slots : List Slot} {bytes : Bytes} {parts : List Bytes} :
    split slots bytes = .ok parts ↔
      slotsLength slots ≤ bytes.length ∧
        ∃ heads, readHeads bytes.length (slotsLength slots) slots bytes none = .ok heads ∧
          (slots.all Option.isSome → bytes.length = slotsLength slots) ∧
          cut bytes heads = parts := by
  unfold split
  simp only [slotsLength]
  split
  · rename_i h
    simp [Nat.not_le.2 h]
  · rename_i h
    simp only [bind_eq_ok, Nat.not_lt.1 h, true_and]
    refine exists_congr fun heads => and_congr_right fun _ => ?_
    split
    · rename_i hend
      simp_all
    · rename_i hend
      simp_all

theorem split_eq_ok_iff_tiles {slots : List Slot} {bytes : Bytes} {parts : List Bytes} :
    split slots bytes = .ok parts ↔
      slotsLength slots ≤ bytes.length ∧ Tiles bytes bytes slots parts (slotsLength slots) := by
  rw [split_eq_ok_iff_readHeads]
  constructor
  · rintro ⟨hle, heads, hheads, hend, rfl⟩
    have htiles := tiles_of_readHeads hle hheads
    have hstart : nextOffset bytes.length heads = slotsLength slots := by
      cases hall : slots.all Option.isSome with
      | false => exact nextOffset_eq_prefixLength hheads hall
      | true =>
        -- Without offsets nothing follows the prefix, so it ends where the input does.
        have hbodies := htiles.bodies
        rw [bodies_segments_of_all_fixed _ hall, eq_comm, List.drop_eq_nil_iff] at hbodies
        exact (Nat.le_antisymm htiles.start_le hbodies).trans (hend hall)
    exact ⟨hle, hstart ▸ htiles⟩
  · rintro ⟨hle, htiles⟩
    have hnone : ∀ offset ∈ none, offset ≤ slotsLength slots := by simp
    obtain ⟨heads, hheads, hcut, -⟩ := readHeads_of_tiles hle (fun _ => rfl) hnone htiles
    refine ⟨hle, heads, hheads, fun hall => ?_, hcut⟩
    have hbodies := htiles.bodies
    rw [bodies_segments_of_all_fixed _ hall, eq_comm, List.drop_eq_nil_iff] at hbodies
    exact Nat.le_antisymm hbodies hle

/-- An input splits into parts exactly if these fit their slots and join to the input. -/
theorem split_eq_ok {slots : List Slot} {bytes : Bytes} {parts : List Bytes} :
    split slots bytes = .ok parts ↔
      Fit slots parts ∧ join (segments slots parts) = .ok bytes := by
  rw [split_eq_ok_iff_tiles]
  constructor
  · rintro ⟨-, htiles⟩
    exact ⟨htiles.fit, join_of_tiles htiles⟩
  · rintro ⟨hfit, hjoin⟩
    exact tiles_of_join hfit hjoin

/-! ## Sequences

The parts of a sequence all have the same slot. Where that is of fixed size, joining them is
concatenation. -/

theorem fit_replicate {count : Nat} {slot : Slot} {parts : List Bytes} :
    Fit (List.replicate count slot) parts ↔
      parts.length = count ∧ ∀ part ∈ parts, ∀ size ∈ slot, part.length = size := by
  induction count generalizing parts with
  | zero => cases parts <;> simp
  | succ count ih =>
    cases parts with
    | nil => simp [List.replicate_succ]
    | cons part parts =>
      simp only [List.replicate_succ, List.forall₂_cons, ih, List.length_cons, Nat.succ.injEq,
        List.forall_mem_cons]
      exact and_left_comm

theorem slotsLength_replicate (count : Nat) (slot : Slot) :
    slotsLength (List.replicate count slot) = slot.size * count := by
  induction count with
  | zero => rfl
  | succ count ih => rw [List.replicate_succ, slotsLength_cons, ih, Nat.mul_succ, Nat.add_comm]

theorem segments_replicate (slot : Slot) (parts : List Bytes) :
    segments (List.replicate parts.length slot) parts = parts.map (Segment.mk slot.isSome) := by
  induction parts with
  | nil => rfl
  | cons part parts ih =>
    rw [List.length_cons, List.replicate_succ, segments_cons, ih, List.map_cons]

theorem heads_map_fixed (start : Nat) (parts : List Bytes) :
    heads start (parts.map (Segment.mk true)) = .ok parts.flatten := by
  induction parts with
  | nil => rfl
  | cons part parts ih => exact heads_fixed.2 ⟨_, ih, rfl⟩

theorem bodies_map_fixed (parts : List Bytes) : bodies (parts.map (Segment.mk true)) = [] := by
  induction parts with
  | nil => rfl
  | cons part parts ih => rw [List.map_cons, bodies_fixed, ih]

theorem join_map_fixed (parts : List Bytes) :
    join (parts.map (Segment.mk true)) = .ok parts.flatten :=
  join_eq_ok.2 ⟨_, heads_map_fixed _ _, by rw [bodies_map_fixed, List.append_nil]⟩

/-- The parts of a sequence, of the size that their slot fixes, and what they are joined to. -/
structure Sequence (slot : Slot) (parts : List Bytes) (bytes : Bytes) : Prop where
  sizes : ∀ part ∈ parts, ∀ size ∈ slot, part.length = size
  join : join (parts.map (Segment.mk slot.isSome)) = .ok bytes

theorem split_replicate_eq_ok {count : Nat} {slot : Slot} {bytes : Bytes} {parts : List Bytes} :
    split (List.replicate count slot) bytes = .ok parts ↔
      parts.length = count ∧ Sequence slot parts bytes := by
  rw [split_eq_ok, fit_replicate, and_assoc]
  refine and_congr_right fun hlength => ?_
  rw [← hlength, segments_replicate]
  exact ⟨fun ⟨hsizes, hjoin⟩ => ⟨hsizes, hjoin⟩, fun ⟨hsizes, hjoin⟩ => ⟨hsizes, hjoin⟩⟩

theorem sequence_nil {slot : Slot} {bytes : Bytes} : Sequence slot [] bytes ↔ bytes = [] := by
  constructor
  · rintro ⟨-, hjoin⟩
    cases hjoin
    rfl
  · rintro rfl
    exact ⟨by simp, rfl⟩

theorem sequence_fixed {size : Nat} {parts : List Bytes} {bytes : Bytes} :
    Sequence (some size) parts bytes ↔
      (∀ part ∈ parts, part.length = size) ∧ parts.flatten = bytes := by
  constructor
  · rintro ⟨hsizes, hjoin⟩
    refine ⟨fun part hpart => hsizes part hpart size rfl, ?_⟩
    exact Except.ok.inj ((join_map_fixed parts).symm.trans hjoin)
  · rintro ⟨hsizes, rfl⟩
    refine ⟨fun part hpart n hn => ?_, join_map_fixed parts⟩
    cases hn
    exact hsizes part hpart

/-- The first offset of a sequence counts its parts. -/
theorem Sequence.firstOffset {parts : List Bytes} {bytes : Bytes} (h : Sequence none parts bytes)
    (hparts : parts ≠ []) :
    bytesPerOffset * parts.length ≤ bytes.length ∧
      ofLittleEndian (bytes.take bytesPerOffset) = bytesPerOffset * parts.length := by
  have hsplit := split_replicate_eq_ok.2 ⟨rfl, h⟩
  obtain ⟨hle, htiles⟩ := split_eq_ok_iff_tiles.1 hsplit
  rw [slotsLength_replicate, size_none] at hle htiles
  obtain ⟨part, parts, rfl⟩ := List.exists_cons_of_ne_nil hparts
  rw [List.length_cons, List.replicate_succ] at htiles
  have hoffset : bytesPerOffset ≤ bytes.length := by
    rw [List.length_cons, Nat.mul_succ] at hle
    omega
  exact ⟨hle, ((tiles_variable hoffset).1 htiles).1.symm⟩

end Ssz.OffsetTable
