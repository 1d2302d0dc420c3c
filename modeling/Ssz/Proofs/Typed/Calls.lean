-- SUMMARY: Typed values stay well-formed through every call, and a refused call leaves them.
import Ssz.Proofs.Bits
import Ssz.Proofs.Typed.Lawful

/-!
# Programs over typed values

A program starts from the default of a type and makes one call after the other on
the value it holds. A call builds a value anew, or changes a part of the one that is
there; what it needs for that, such as the element to append, comes from programs of
its own. Each call either does what it should, or is refused and changes nothing.
-/

namespace Ssz

open Ty (FieldsCarrier)

/-! ## Programs -/

mutual

/-- A public operation on a value of the type. -/
inductive Call : Ty → Type
  /-- Start again from the default. -/
  | reset {t : Ty} : Call t
  /-- Assign a value that was built elsewhere. -/
  | assign {t : Ty} (source : Program t) : Call t
  /-- Rebuild the value from a value tree. -/
  | rebuild {t : Ty} (v : Value) : Call t
  | bool (b : Bool) : Call .bool
  | uint {width : UintWidth} (n : BitVec width.bits) : Call (.uint width)
  /-- Copy bytes, as many as there is room for. -/
  | byteArray {length : Nat} (bytes : Bytes) : Call (.byteArray length)
  | fixedBytes {name : String} {length : Nat} (bytes : Bytes) : Call (.fixedBytes name length)
  /-- Take over bytes, at most as many as there is room for. -/
  | byteList {max : Nat} (bytes : Bytes) : Call (.byteList max)
  /-- Wrap bits, as many as there is room for. -/
  | bitVector {length : Nat} (bits : Bits) : Call (.bitVector length)
  /-- Wrap bits, at most as many as there is room for. -/
  | bitList {max : Nat} (bits : Bits) : Call (.bitList max)
  /-- Take a number of clear bits. -/
  | withLength {max : Nat} (length : Nat) : Call (.bitList max)
  | setVector {length : Nat} (i : Nat) (b : Bool) : Call (.bitVector length)
  | setList {max : Nat} (i : Nat) (b : Bool) : Call (.bitList max)
  /-- Take over elements, as many as there is room for. -/
  | vector {element : Ty} {length : Nat} (items : Programs element) : Call (.vector element length)
  /-- Take over elements, at most as many as there is room for. -/
  | list {element : Ty} {max : Nat} (items : Programs element) : Call (.list element max)
  /-- Append an element. -/
  | push {element : Ty} {max : Nat} (item : Program element) : Call (.list element max)
  /-- A call on one of the fields, in place. -/
  | field {name : String} {fields : List (Field Ty)} (c : FieldCall fields) :
    Call (.record name fields)

/-- A call on one of the fields of a record. -/
inductive FieldCall : List (Field Ty) → Type
  | here {name label : String} {t : Ty} {fields : List (Field Ty)} (c : Call t) :
    FieldCall (⟨name, label, t⟩ :: fields)
  | there {name label : String} {t : Ty} {fields : List (Field Ty)} (c : FieldCall fields) :
    FieldCall (⟨name, label, t⟩ :: fields)

/-- A finite sequence of calls. -/
inductive Program : Ty → Type
  | start {t : Ty} : Program t
  | andThen {t : Ty} (p : Program t) (c : Call t) : Program t

/-- Programs for the elements of a sequence. -/
inductive Programs : Ty → Type
  | nil {t : Ty} : Programs t
  | cons {t : Ty} (p : Program t) (ps : Programs t) : Programs t

end

/-! ## Running them -/

/-- Why a call is refused. -/
inductive Refusal where
  | capacity (cause : CapacityError)
  | shape (cause : ShapeMismatch)
  | length
  | outOfRange
  deriving DecidableEq, Repr

/-- Replace the value held by one that was built, unless building it failed. -/
def replace {α : Type} (x : α) : Except Refusal α → Option Refusal × α
  | .ok y => (none, y)
  | .error cause => (some cause, x)

/-- A change in place that says whether it was in range. -/
def ranged {α : Type} : Bool × α → Option Refusal × α
  | (true, y) => (none, y)
  | (false, y) => (some .outOfRange, y)

/-- Copy bytes of exactly the given length. -/
def copyBytes (length : Nat) (bytes : Bytes) : Except Refusal (ByteVector length) :=
  match ByteVector.ofList? length bytes with
  | some x => .ok x
  | none => .error .length

mutual

/-- Make a call on the value held: why it is refused, if it is, and the value held afterwards. -/
def Call.run {t : Ty} (c : Call t) : t.Carrier → Option Refusal × t.Carrier :=
  match c with
  | .reset => fun _ => (none, t.default)
  | .assign source => fun _ => (none, source.result)
  | .rebuild v => fun x => replace x ((t.schema.ofValue v).mapError .shape)
  | .bool b => fun _ => (none, b)
  | .uint n => fun _ => (none, n)
  | .byteArray bytes => fun x => replace x (copyBytes _ bytes)
  | .fixedBytes bytes => fun x => replace x (copyBytes _ bytes)
  | .byteList bytes => fun x => replace x ((ByteList.ofList bytes).mapError .capacity)
  | .bitVector bits => fun x => replace x ((BitVector.ofBits bits).mapError .capacity)
  | .bitList bits => fun x => replace x ((BitList.ofBits bits).mapError .capacity)
  | .withLength length => fun x => replace x ((BitList.withLength length).mapError .capacity)
  | .setVector i b => fun x => ranged (BitVector.set x i b)
  | .setList i b => fun x => ranged (BitList.set x i b)
  | .vector items => fun x => replace x ((FixedList.ofList items.results).mapError .capacity)
  | .list items => fun x => replace x ((BoundedList.ofList items.results).mapError .capacity)
  | .push item => fun x => replace x ((BoundedList.push x item.result).mapError .capacity)
  | .field c => fun x => c.run x
termination_by structural c

def FieldCall.run {fields : List (Field Ty)} (c : FieldCall fields) :
    FieldsCarrier fields → Option Refusal × FieldsCarrier fields :=
  match c with
  | .here c => fun x => let (refusal, y) := c.run x.1; (refusal, y, x.2)
  | .there c => fun x => let (refusal, y) := c.run x.2; (refusal, x.1, y)
termination_by structural c

/-- The value that a program ends with. -/
def Program.result {t : Ty} (p : Program t) : t.Carrier :=
  match p with
  | .start => t.default
  | .andThen p c => (c.run p.result).2
termination_by structural p

def Programs.results {t : Ty} (ps : Programs t) : List t.Carrier :=
  match ps with
  | .nil => []
  | .cons p ps => p.result :: ps.results
termination_by structural ps

end

/-! ## What calls are to do -/

mutual

/-- When a call has to succeed. -/
def Call.Allowed {t : Ty} (c : Call t) : t.Carrier → Prop :=
  match c with
  | .rebuild v => fun _ => t.shape.check v = .ok ()
  | @Call.byteArray length bytes => fun _ => bytes.length = length
  | @Call.fixedBytes _ length bytes => fun _ => bytes.length = length
  | @Call.byteList max bytes => fun _ => bytes.length ≤ max
  | @Call.bitVector length bits => fun _ => bits.length = length
  | @Call.bitList max bits => fun _ => bits.length ≤ max
  | @Call.withLength max length => fun _ => length ≤ max
  | @Call.setVector length i _ => fun _ => i < length
  | .setList i _ => fun x => i < (BitList.bits x).length
  | @Call.vector _ length items => fun _ => items.results.length = length
  | @Call.list _ max items => fun _ => items.results.length ≤ max
  | @Call.push _ max _ => fun x => (BoundedList.toList x).length < max
  | .field c => fun x => c.Allowed x
  | _ => fun _ => True
termination_by structural c

def FieldCall.Allowed {fields : List (Field Ty)} (c : FieldCall fields) :
    FieldsCarrier fields → Prop :=
  match c with
  | .here c => fun x => c.Allowed x.1
  | .there c => fun x => c.Allowed x.2
termination_by structural c

end

mutual

/-- The value `y` that a call has to put in the place of `x`. -/
def Call.Yields {t : Ty} (c : Call t) : (x y : t.Carrier) → Prop :=
  match c with
  | .reset => fun _ y => y = t.default
  | .assign source => fun _ y => y = source.result
  | .rebuild v => fun _ y => t.schema.toValue y = v
  | .bool b => fun _ y => y = b
  | .uint n => fun _ y => y = n
  | .byteArray bytes => fun _ y => ByteVector.toList y = bytes
  | .fixedBytes bytes => fun _ y => ByteVector.toList y = bytes
  | .byteList bytes => fun _ y => ByteList.toList y = bytes
  | .bitVector bits => fun _ y => BitVector.bits y = bits
  | .bitList bits => fun _ y => BitList.bits y = bits
  | .withLength length => fun _ y => (BitList.bits y).toList = List.replicate length false
  | .setVector i b => fun x y => (BitVector.bits y).toList = (BitVector.bits x).toList.set i b
  | .setList i b => fun x y => (BitList.bits y).toList = (BitList.bits x).toList.set i b
  | .vector items => fun _ y => FixedList.toList y = items.results
  | .list items => fun _ y => BoundedList.toList y = items.results
  | .push item => fun x y => BoundedList.toList y = BoundedList.toList x ++ [item.result]
  | .field c => fun x y => c.Yields x y
termination_by structural c

/-- The other fields stay as they are. -/
def FieldCall.Yields {fields : List (Field Ty)} (c : FieldCall fields) :
    (x y : FieldsCarrier fields) → Prop :=
  match c with
  | .here c => fun x y => c.Yields x.1 y.1 ∧ y.2 = x.2
  | .there c => fun x y => y.1 = x.1 ∧ c.Yields x.2 y.2
termination_by structural c

end

/-- A call on `x` that is allowed yields a value as it should. One that is not is refused, and `x`
    is held as before. -/
inductive Outcome {α : Type} (allowed : Prop) (yields : α → Prop) (x : α) :
    Option Refusal × α → Prop
  | done {y : α} (hallowed : allowed) (hyields : yields y) : Outcome allowed yields x (none, y)
  | refused {cause : Refusal} (hallowed : ¬ allowed) : Outcome allowed yields x (some cause, x)

namespace Outcome

variable {α : Type} {allowed : Prop} {yields : α → Prop} {x : α}

theorem eq_none_iff {result : Option Refusal × α} (h : Outcome allowed yields x result) :
    result.1 = none ↔ allowed := by
  cases h with
  | done hallowed _ => exact iff_of_true rfl hallowed
  | refused hallowed => exact iff_of_false (by simp) hallowed

theorem map {β : Type} {yields' : β → Prop} {result : Option Refusal × α} (f : α → β)
    (h : Outcome allowed yields x result) (hf : ∀ y, yields y → yields' (f y)) :
    Outcome allowed yields' (f x) (result.1, f result.2) := by
  cases h with
  | done hallowed hyields => exact .done hallowed (hf _ hyields)
  | refused hallowed => exact .refused hallowed

theorem of_guard {p : Prop} {_ : Decidable p} {build : Except CapacityError α} {wrap : p → α}
    {e : CapacityError} (hbuild : build = if hp : p then .ok (wrap hp) else .error e)
    (h : ∀ hp, yields (wrap hp)) :
    Outcome p yields x (replace x (build.mapError .capacity)) := by
  rw [hbuild]
  by_cases hp : p
  · rw [dif_pos hp]
    exact .done hp (h hp)
  · rw [dif_neg hp]
    exact .refused hp

theorem of_copyBytes {length : Nat} {x : ByteVector length} (bytes : Bytes) :
    Outcome (bytes.length = length) (fun y : ByteVector length => y.toList = bytes) x
      (replace x (copyBytes length bytes)) := by
  unfold copyBytes ByteVector.ofList?
  by_cases h : bytes.length = length
  · rw [dif_pos h]
    exact .done h rfl
  · rw [dif_neg h]
    exact .refused h

theorem of_ranged [Decidable allowed] {result : Bool × α} (h : result.1 = decide allowed)
    (hyields : yields result.2) (hkept : ¬ allowed → result.2 = x) :
    Outcome allowed yields x (ranged result) := by
  obtain ⟨_ | _, y⟩ := result
  · have hallowed := of_decide_eq_false h.symm
    rw [← hkept hallowed]
    exact .refused hallowed
  · exact .done (of_decide_eq_true h.symm) hyields

theorem of_setVector {n : Nat} (x : BitVector n) (i : Nat) (b : Bool) :
    Outcome (i < n) (fun y : BitVector n => y.bits.toList = x.bits.toList.set i b) x
      (ranged (x.set i b)) := by
  apply of_ranged (x.fst_set i b)
  · exact Bits.toList_set x.bits i b
  · exact fun hrange => BitVector.snd_set_of_ge (Nat.not_lt.1 hrange) b

theorem of_setList {n : Nat} (x : BitList n) (i : Nat) (b : Bool) :
    Outcome (i < x.bits.length) (fun y : BitList n => y.bits.toList = x.bits.toList.set i b) x
      (ranged (x.set i b)) := by
  apply of_ranged (x.fst_set i b)
  · exact Bits.toList_set x.bits i b
  · exact fun hrange => BitList.snd_set_of_ge (Nat.not_lt.1 hrange) b

theorem of_ofValue {s : Schema α} (h : s.Lawful) (v : Value) :
    Outcome (s.shape.check v = .ok ()) (fun y => s.toValue y = v) x
      (replace x ((s.ofValue v).mapError .shape)) := by
  cases hv : s.ofValue v with
  | ok y =>
    have hy := h.ofValue_eq_ok.1 hv
    exact .done (h.check_eq_ok.2 ⟨y, hy⟩) hy
  | error cause =>
    apply refused
    intro hcheck
    obtain ⟨y, hy⟩ := h.check_eq_ok.1 hcheck
    rw [h.ofValue_eq_ok.2 hy] at hv
    cases hv

end Outcome

mutual

theorem Call.run_outcome {t : Ty} (c : Call t) (x : t.Carrier) :
    Outcome (c.Allowed x) (c.Yields x) x (c.run x) := by
  cases c with
  | reset => exact .done trivial rfl
  | assign source => exact .done trivial rfl
  | rebuild v => exact .of_ofValue t.lawful_schema v
  | bool b => exact .done trivial rfl
  | uint n => exact .done trivial rfl
  | byteArray bytes => exact .of_copyBytes bytes
  | fixedBytes bytes => exact .of_copyBytes bytes
  | byteList bytes => exact .of_guard (ByteList.ofList_eq bytes) fun _ => rfl
  | bitVector bits => exact .of_guard (BitVector.ofBits_eq bits) fun _ => rfl
  | bitList bits => exact .of_guard (BitList.ofBits_eq bits) fun _ => rfl
  | withLength length =>
    exact .of_guard (BitList.ofBits_eq (Bits.zeros length)) fun _ => Bits.toList_zeros length
  | setVector i b => exact .of_setVector x i b
  | setList i b => exact .of_setList x i b
  | vector items => exact .of_guard (FixedList.ofList_eq items.results) fun _ => rfl
  | list items => exact .of_guard (BoundedList.ofList_eq items.results) fun _ => rfl
  | push item => exact .of_guard rfl fun _ => rfl
  | field c => exact c.run_outcome x

theorem FieldCall.run_outcome {fields : List (Field Ty)} (c : FieldCall fields)
    (x : FieldsCarrier fields) : Outcome (c.Allowed x) (c.Yields x) x (c.run x) := by
  cases c with
  | here c =>
    have h := c.run_outcome x.1
    exact h.map (fun y => (y, x.2)) fun y hy => ⟨hy, rfl⟩
  | there c =>
    have h := c.run_outcome x.2
    exact h.map (fun y => (x.1, y)) fun y hy => ⟨rfl, hy⟩

end

/-! ## Lengths -/

namespace Ty

mutual

/-- Each collection in a value, however deep, is as long as its type says. -/
def Sized : (t : Ty) → t.Carrier → Prop
  | .byteArray length, x => (ByteVector.toList x).length = length
  | .fixedBytes _ length, x => (ByteVector.toList x).length = length
  | .byteList max, x => (ByteList.toList x).length ≤ max
  | .bitVector length, x => (BitVector.bits x).toList.length = length
  | .bitList max, x => (BitList.bits x).toList.length ≤ max
  | .vector element length, x =>
    (FixedList.toList x).length = length ∧ ∀ item ∈ FixedList.toList x, element.Sized item
  | .list element max, x =>
    (BoundedList.toList x).length ≤ max ∧ ∀ item ∈ BoundedList.toList x, element.Sized item
  | .record _ fields, x => FieldsSized fields x
  | _, _ => True
termination_by structural t => t

def FieldsSized : (fields : List (Field Ty)) → FieldsCarrier fields → Prop
  | [], _ => True
  | ⟨_, _, t⟩ :: fields, x => t.Sized x.1 ∧ FieldsSized fields x.2
termination_by structural fields => fields

end

theorem sized_fields {fields : List (Field Ty)}
    (h : ∀ field ∈ fields, ∀ x : field.shape.Carrier, field.shape.Sized x)
    (x : FieldsCarrier fields) : FieldsSized fields x := by
  induction fields with
  | nil => exact trivial
  | cons field fields ih =>
    refine ⟨h field List.mem_cons_self x.1, ?_⟩
    exact ih (fun other hother => h other (List.mem_cons_of_mem _ hother)) x.2

theorem sized (t : Ty) (x : t.Carrier) : t.Sized x := by
  induction t with
  | bool => exact trivial
  | uint width => exact trivial
  | byteArray length => exact ByteVector.length_toList x
  | fixedBytes name length => exact ByteVector.length_toList x
  | byteList max => exact ByteList.length_le x
  | bitVector length => exact (Bits.length_toList _).trans (BitVector.length_eq x)
  | bitList max => exact (Bits.length_toList _).trans_le (BitList.length_le x)
  | vector element length ih => exact ⟨FixedList.length_eq x, fun item _ => ih item⟩
  | list element max ih => exact ⟨BoundedList.length_le x, fun item _ => ih item⟩
  | record name fields ih => exact sized_fields ih x

end Ty

/-- Whatever program it comes from, a value is well-formed, and so is each part of it as long as its
    type says. A call is refused exactly if it is not allowed, and then the value held is the one
    that was held before. In particular an element is appended exactly if there is room for it. -/
theorem Program.wellFormed :
    (∀ (t : Ty) (p : Program t),
      t.shape.check (t.schema.toValue p.result) = .ok () ∧ t.Sized p.result) ∧
      (∀ (t : Ty) (x : t.Carrier) (c : Call t),
        Outcome (c.Allowed x) (c.Yields x) x (c.run x)) ∧
      ∀ (element : Ty) (max : Nat) (l : BoundedList element.Carrier max) (item : Program element),
        ((Call.push item).run l).1 = none ↔ l.toList.length < max := by
  refine ⟨fun t p => ⟨?_, t.sized p.result⟩, fun t x c => c.run_outcome x,
    fun element max l item => ?_⟩
  · exact t.lawful_schema.check_eq_ok.2 ⟨p.result, rfl⟩
  · exact (Call.run_outcome (.push item) l).eq_none_iff

/-- The second element finds no room, and the fourth bit of the first is out of range. -/
theorem Program.wellFormed_full_list :
    let t : Ty := .list (.bitList 5) 1
    let flags : Program (.bitList 5) :=
      ((Program.start.andThen (.withLength 3)).andThen (.setList 1 true)).andThen (.setList 3 true)
    let p : Program t := (Program.start.andThen (.push flags)).andThen (.push .start)
    t.schema.toValue p.result = .list [.bits (.ofList [false, true, false])] ∧
      t.shape.check (t.schema.toValue p.result) = .ok () := by
  intro t flags p
  exact ⟨by rfl, (Program.wellFormed.1 t p).1⟩

end Ssz
