-- SUMMARY: The operations on typed values, with what they log.
import Ssz.Log
import Ssz.Schema

/-!
# Codec

Each operation goes through the schema of the type and logs how it went: what is
refused is logged for debugging, and what succeeds is traced.
-/

namespace Ssz

/-! ## Text formats -/

inductive TextFormat where
  /-- Compact JSON, with numbers as strings. -/
  | json
  /-- One YAML line in flow style. -/
  | yaml
  deriving DecidableEq, Repr

namespace TextFormat

/-- The format that is used unless another one is asked for. -/
instance : Inhabited TextFormat := ⟨.json⟩

def name : TextFormat → String
  | .json => "json"
  | .yaml => "yaml"

/-- A text with the capital letters of ASCII made small. -/
def lowercase (s : String) : String :=
  String.ofList (s.toList.map fun c => if 'A' ≤ c ∧ c ≤ 'Z' then Char.ofNat (c.toNat + 32) else c)

/-- The format of a name, in capital or small letters, or else a message. -/
def ofName (s : String) : Except String TextFormat :=
  let small := lowercase s
  if small = "json" then .ok .json
  else if small = "yaml" ∨ small = "yml" then .ok .yaml
  else .error s!"unknown text format: {small}"

end TextFormat

/-! ## Errors -/

/-- Why an operation failed. -/
inductive CodecError where
  | encode (cause : EncodeError)
  | decode (cause : DecodeError)
  | text (cause : TextError)
  deriving DecidableEq, Repr

def CodecError.message : CodecError → String
  | .encode cause => cause.message
  | .decode cause => cause.message
  | .text cause => cause.message

/-! ## Operations -/

namespace Codec

variable {α β : Type}

/-- Log an outcome: the fields of a success after the name of the shape, or the refusal. -/
def logged (s : Schema α) (op success : String) (fields : β → List (String × String))
    (outcome : Except CodecError β) : Logged (Except CodecError β) := do
  match outcome with
  | .ok b => Logged.log .trace success (("shape", s.shape.name) :: fields b)
  | .error e =>
    Logged.log .debug "input rejected"
      [("shape", s.shape.name), ("op", op), ("error", e.message)]
  return outcome

def lengthField (n : Nat) : String × String := ("len", toString n)

def formatField (format : TextFormat) : String × String := ("format", format.name)

/-- The canonical encoding of a value. -/
def encode (s : Schema α) (x : α) : Logged (Except CodecError Bytes) :=
  logged s "encode" "encoded" (fun bytes => [lengthField bytes.length])
    ((s.encode x).mapError .encode)

/-- The value of an encoding. -/
def decode (s : Schema α) (bytes : Bytes) : Logged (Except CodecError α) :=
  logged s "decode" "decoded" (fun _ => [lengthField bytes.length])
    ((s.decode bytes).mapError .decode)

/-- The hash tree root of a value. -/
def digest (s : Schema α) (x : α) : Logged (Except CodecError Chunk) :=
  logged s "digest" "digested" (fun root => [("root", Hex.renderMarked root.toList)])
    ((s.hashTreeRoot x).mapError .encode)

/-- A value as text. -/
def render (s : Schema α) (x : α) (format : TextFormat) : Logged (Except CodecError String) :=
  let text := match format with
    | .json => s.toJson x
    | .yaml => s.toYaml x
  logged s "to_text" "rendered" (fun t => [formatField format, lengthField t.utf8ByteSize])
    (text.mapError .encode)

/-- The value of a text. -/
def parse (s : Schema α) (text : String) (format : TextFormat) : Logged (Except CodecError α) :=
  let value := match format with
    | .json => s.fromJson text
    | .yaml => s.fromYaml text
  logged s "from_text" "parsed" (fun _ => [formatField format]) (value.mapError .text)

/-! ## Round trips -/

/-- Whether an outcome is the value that was there before, seen as a value tree. -/
def isSame (s : Schema α) (x : α) : Except CodecError α → Bool
  | .ok y => s.toValue y = s.toValue x
  | .error _ => false

/-- Whether a value comes back from its encoding. -/
def survivesEncoding (s : Schema α) (x : α) : Logged Bool := do
  match ← encode s x with
  | .ok bytes => return isSame s x (← decode s bytes)
  | .error _ => return false

/-- Whether a value comes back from its text. -/
def survivesText (s : Schema α) (x : α) (format : TextFormat) : Logged Bool := do
  match ← render s x format with
  | .ok text => return isSame s x (← parse s text format)
  | .error _ => return false

end Codec

end Ssz
