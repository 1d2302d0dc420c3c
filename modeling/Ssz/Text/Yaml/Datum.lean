-- SUMMARY: Data: what the nodes of a YAML document mean, and the text trees of data.
import Ssz.Text.Error
import Ssz.Text.Yaml.Core
import Ssz.Text.Yaml.Node

/-!
# Data

A datum is a node whose scalars have been resolved. The keys of a mapping are
pairwise different. A text tree has no tags and only strings for keys, and its
numbers are finite.

There is a second way to a text tree that knows no tags at all: keys are taken
as they are spelled, and a number that is not finite is null.
-/

namespace Ssz.Text.Yaml

inductive Datum where
  | scalar (s : Scalar)
  | sequence (items : List Datum)
  | mapping (entries : List (Datum × Datum))
  | tagged (tag : Bytes) (inner : Datum)
  deriving Repr

namespace Datum

/-! ## Sameness of keys -/

/-- Whether two scalars are the same key. The two zeros are. -/
def sameScalar (a b : Scalar) : Bool :=
  match a, b with
  | .number (.float x), .number (.float y) => x == y || (x.mantissa == 0 && y.mantissa == 0)
  | a, b => a == b

mutual

/-- Whether two data are the same key. The order of the entries of a mapping does not matter. -/
def same : Datum → Datum → Bool
  | .scalar a, .scalar b => sameScalar a b
  | .sequence a, .sequence b => sameItems a b
  | .mapping a, .mapping b => a.length == b.length && sameEntries a b
  | .tagged tag a, .tagged tag' b => tag == tag' && same a b
  | _, _ => false
termination_by structural d => d

def sameItems : List Datum → List Datum → Bool
  | [], [] => true
  | a :: as, b :: bs => same a b && sameItems as bs
  | _, _ => false
termination_by structural ds => ds

/-- Whether each entry is among the others. -/
def sameEntries : List (Datum × Datum) → List (Datum × Datum) → Bool
  | [], _ => true
  | (k, v) :: entries, others =>
    (others.any fun (k', v') => same k k' && same v v') && sameEntries entries others
termination_by structural entries => entries

end

/-- Whether no two entries have the same key. -/
def distinctKeys : List (Datum × Datum) → Bool
  | [] => true
  | (k, _) :: entries => !(entries.any fun (k', _) => same k k') && distinctKeys entries

/-! ## From nodes -/

/-- A tag without the mark in front of it. A mark that stands alone is kept. -/
def dropMark (tag : Bytes) : Bytes :=
  if tag.head? = some Node.localMark && 1 < tag.length then tag.tail else tag

/-- The name of a local tag, before which there may be two marks. -/
def tagName (tag : Bytes) : Bytes := dropMark (dropMark tag)

/-- Keep a local tag on a datum. -/
def withTag (tag : Option Bytes) (d : Datum) : Datum :=
  match tag with
  | some t => if Node.isLocal tag then .tagged (tagName t) d else d
  | none => d

/-- The meaning of a scalar without a tag of the schema. -/
def ofUntagged? (style : Style) (text : List Char) : Option Scalar :=
  match style with
  | .plain => Core.resolve text
  | .quoted => some (.string text)

/-- The meaning of a scalar. A tag with a mark says nothing about it; one that is no text is none
    of the schema. -/
def ofScalar? (tag : Option Bytes) (style : Style) (text : List Char) : Option Scalar :=
  match tag with
  | none => ofUntagged? style text
  | some tag =>
    if tag.head? = some Node.localMark then ofUntagged? style text
    else Core.resolveTagged ((Node.tagText? tag).getD "") text

mutual

/-- The meaning of a node, unless a scalar has none or two keys are the same. -/
def ofNode? : Node → Option Datum
  | .scalar tag style text => (ofScalar? tag style text).map fun s => withTag tag (.scalar s)
  | .sequence tag items => do return withTag tag (.sequence (← ofItems? items))
  | .mapping tag entries => do
    let entries ← ofEntries? entries
    if distinctKeys entries then return withTag tag (.mapping entries) else none
termination_by structural node => node

def ofItems? : List Node → Option (List Datum)
  | [] => some []
  | node :: nodes => do return (← ofNode? node) :: (← ofItems? nodes)
termination_by structural nodes => nodes

def ofEntries? : List (Node × Node) → Option (List (Datum × Datum))
  | [] => some []
  | (key, value) :: entries => do
    return (← ofNode? key, ← ofNode? value) :: (← ofEntries? entries)
termination_by structural entries => entries

end

/-! ## To text trees -/

/-- A datum without its tags at the top. -/
def untag : Datum → Datum
  | .tagged _ d => untag d
  | d => d

def isNull (d : Datum) : Bool :=
  match d.untag with
  | .scalar .null => true
  | _ => false

def treeOfScalar : Scalar → Except Misfit Tree
  | .null => .ok .null
  | .bool b => .ok (.bool b)
  | .number n => .ok (.number n)
  | .special spelling => .error (.unrepresentable spelling)
  | .string s => .ok (.string (String.ofList s))

mutual

/-- The text tree of a datum. Tags are dropped. -/
def toTree : Datum → Except Misfit Tree
  | .scalar s => treeOfScalar s
  | .sequence items => do return .array (← toTrees items)
  | .mapping entries => do return .object (Tree.ofEntries (← toEntries entries))
  | .tagged _ d => toTree d
termination_by structural d => d

def toTrees : List Datum → Except Misfit (List Tree)
  | [] => .ok []
  | d :: ds => do
    let t ← toTree d
    return t :: (← toTrees ds)
termination_by structural ds => ds

def toEntries : List (Datum × Datum) → Except Misfit (List (String × Tree))
  | [] => .ok []
  | (key, value) :: entries =>
    match key with
    | .scalar (.string s) => do
      let t ← toTree value
      return (String.ofList s, t) :: (← toEntries entries)
    | _ => .error .keyNotString
termination_by structural entries => entries

end

end Datum

/-! ## Trees without tags -/

namespace Node

def plainTreeOfScalar : Scalar → Tree
  | .null | .special _ => .null
  | .bool b => .bool b
  | .number n => .number n
  | .string s => .string (String.ofList s)

mutual

/-- The text tree of a node in which no value has a local tag and every key is a scalar. -/
def toTree? : Node → Option Tree
  | .scalar tag style text =>
    if isLocal tag then none else (Datum.ofScalar? tag style text).map plainTreeOfScalar
  | .sequence tag items => if isLocal tag then none else (toTrees? items).map .array
  | .mapping tag entries =>
    if isLocal tag then none
    else (toEntries? entries).map fun entries => .object (Tree.ofEntries entries)
termination_by structural node => node

def toTrees? : List Node → Option (List Tree)
  | [] => some []
  | node :: nodes => do return (← toTree? node) :: (← toTrees? nodes)
termination_by structural nodes => nodes

def toEntries? : List (Node × Node) → Option (List (String × Tree))
  | [] => some []
  | (key, value) :: entries =>
    match key with
    | .scalar _ _ text => do return (String.ofList text, ← toTree? value) :: (← toEntries? entries)
    | _ => none
termination_by structural entries => entries

end

end Node

end Ssz.Text.Yaml
