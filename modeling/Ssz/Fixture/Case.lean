-- SUMMARY: Fixture cases: writing the files of a value, and checking the files of a case.
import Ssz.Codec
import Ssz.Fixture.Config

/-!
# Fixture cases

A case is a directory of three files: the value as YAML, its compressed
encoding, and its root. A directory is a list of named entries, and a file may be
blocked by a directory of its name. How encodings are compressed is up to a format
of blocks, which cases are written and checked with.
-/

namespace Ssz.Fixture

/-! ## Blocks -/

/-- A format of compressed blocks. Its writer may refuse contents and its reader a block; then they
    say why. -/
structure BlockFormat where
  compress : Bytes → Except String Bytes
  decompress : Bytes → Except String Bytes

/-- These bytes can be compressed, and decompressing the block gives them back. -/
def BlockFormat.Keeps (format : BlockFormat) (bytes : Bytes) : Prop :=
  ∃ block, format.compress bytes = .ok block ∧ format.decompress block = .ok bytes

/-! ## Errors -/

/-- Why a case could not be read or written, or does not conform. -/
inductive FixtureError where
  /-- A file or directory could not be accessed. -/
  | access (path : String)
  /-- The format of blocks refused what it was given. -/
  | snappy (cause : String)
  | text (file : String) (cause : TextError)
  | decode (cause : DecodeError)
  | encode (cause : EncodeError)
  | mismatch (what expected actual : String)
  deriving DecidableEq, Repr

def FixtureError.message : FixtureError → String
  | .access path => s!"failed to access {path}"
  | .snappy cause => s!"snappy: {cause}"
  | .text file cause => s!"{file}: {cause.message}"
  | .decode cause => s!"decode failed: {cause.message}"
  | .encode cause => s!"encode failed: {cause.message}"
  | .mismatch what expected actual => s!"{what} mismatch: expected {expected}, got {actual}"

/-! ## Directories -/

def valueFile : String := "value.yaml"
def serializedFile : String := "serialized.ssz_snappy"
def rootsFile : String := "roots.yaml"

/-- What a name in a directory stands for. -/
inductive Entry where
  | file (contents : Bytes)
  | directory
  deriving DecidableEq, Repr

/-- The entries of a case directory by name. -/
abbrev Directory := List (String × Entry)

namespace Directory

/-- The contents of a file. -/
def read (dir : Directory) (name : String) : Except FixtureError Bytes :=
  match dir.lookup name with
  | some (.file contents) => .ok contents
  | _ => .error (.access name)

/-- The contents of a file that holds text. -/
def readText (dir : Directory) (name : String) : Except FixtureError String := do
  match String.fromUTF8? ⟨(← dir.read name).toArray⟩ with
  | some text => return text
  | none => throw (.access name)

/-- Set the contents of a file, which must not be blocked. -/
def write (dir : Directory) (name : String) (contents : Bytes) : Except FixtureError Directory :=
  if dir.lookup name = some .directory then .error (.access name)
  else .ok ((name, .file contents) :: dir.filter (·.1 ≠ name))

end Directory

/-! ## Files of a value -/

variable {α : Type}

/-- The text of the roots file for this root. -/
def rootsText (root : Chunk) : String := s!"\x7broot: '{Hex.renderMarked root.toList}'\x7d\n"

/-- The text of the roots file of a value. -/
def rootsOf (s : Schema α) (x : α) : Except FixtureError String :=
  match s.hashTreeRoot x with
  | .ok root => .ok (rootsText root)
  | .error e => .error (.encode e)

def encodeValue (s : Schema α) (x : α) : Except FixtureError Bytes := (s.encode x).mapError .encode

/-- The block and the text of a value, which are made before any file is written. -/
def prepare (format : BlockFormat) (s : Schema α) (x : α) :
    Except FixtureError (Bytes × String) := do
  let block ← (format.compress (← encodeValue s x)).mapError .snappy
  return (block, ← (s.toYaml x).mapError .encode)

/-- Write the files of a case. A value that cannot be encoded leaves the directory as it was; after
    a fault of access the files before it have been written. -/
def writeCase (format : BlockFormat) (s : Schema α) (x : α) (dir : Directory) :
    Except FixtureError Unit × Directory :=
  match prepare format s x with
  | .error e => (.error e, dir)
  | .ok (block, yaml) =>
    match dir.write valueFile yaml.toUTF8.toList with
    | .error e => (.error e, dir)
    | .ok dir =>
      match dir.write serializedFile block with
      | .error e => (.error e, dir)
      | .ok dir =>
        match rootsOf s x with
        | .error e => (.error e, dir)
        | .ok roots =>
          match dir.write rootsFile roots.toUTF8.toList with
          | .error e => (.error e, dir)
          | .ok dir => (.ok (), dir)

/-- What lies at the path of a case. -/
inductive CaseEntry where
  | case (dir : Directory)
  | plainFile
  deriving DecidableEq, Repr

/-- Write a case at a path. Where nothing lies a directory is made; a plain file is in the way. -/
def writeCaseAt (format : BlockFormat) (s : Schema α) (x : α) (path : String) :
    Option CaseEntry → Except FixtureError Unit × Directory
  | some .plainFile => (.error (.access path), [])
  | some (.case dir) => writeCase format s x dir
  | none => writeCase format s x []

/-! ## Checking a case -/

/-- Two byte strings that have to be the same. -/
def sameBytes (what : String) (expected actual : Bytes) : Except FixtureError Unit :=
  if actual = expected then .ok ()
  else .error (.mismatch what (Hex.render expected) (Hex.render actual))

/-- Check the files of a case. The encoding has to survive decoding, the YAML value has to have
    the same encoding, and its root has to be the one on file. Gives the encoding. -/
def checkCase (format : BlockFormat) (s : Schema α) (dir : Directory) :
    Except FixtureError Bytes := do
  let yaml ← dir.readText valueFile
  let compressed ← dir.read serializedFile
  let ssz ← (format.decompress compressed).mapError .snappy
  let decoded ← (s.decode ssz).mapError .decode
  sameBytes "re-encoded bytes" ssz (← encodeValue s decoded)
  let value ← (s.fromYaml yaml).mapError (.text valueFile)
  sameBytes "YAML value encoding" ssz (← encodeValue s value)
  let expected ← dir.readText rootsFile
  let actual ← rootsOf s value
  if actual = expected then return ssz else throw (.mismatch "root" expected actual)

/-- Check a case at a path, and log if it passes. -/
def runCase (format : BlockFormat) (s : Schema α) (path : String) (dir : Directory) :
    Logged (Except FixtureError Unit) :=
  match checkCase format s dir with
  | .ok ssz => do
    Logged.log .debug "fixture case passed" [("case", path), ("bytes", toString ssz.length)]
    return .ok ()
  | .error e => return .error e

end Ssz.Fixture
