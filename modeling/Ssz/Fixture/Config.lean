-- SUMMARY: Where the fixtures of conformance tests are found.

/-!
# Configuration

Fixtures lie in a directory tree by preset, fork, handler, type and suite.
-/

namespace Ssz.Fixture

/-- A path below another one. An absolute path stands for itself, and no separator is doubled. -/
def joinPath (base part : String) : String :=
  if part.startsWith "/" then part
  else if base.isEmpty || base.endsWith "/" then base ++ part
  else base ++ "/" ++ part

structure Config where
  /-- The directory of all fixtures. -/
  root : String
  preset : String
  forks : List String
  handler : String
  suite : String
  deriving DecidableEq, Repr

namespace Config

/-- The environment variable that names the directory of all fixtures. -/
def environmentVariable : String := "ETH2_SPEC_TESTS_DIR"

def standard : Config where
  root := "consensus-spec-tests"
  preset := "mainnet"
  forks := ["phase0", "altair"]
  handler := "ssz_static"
  suite := "ssz_random"

/-- The standard configuration at the directory that the environment names. Without a name the
    tests are to be skipped. -/
def ofEnvironment (value : Option String) : Option Config :=
  match value with
  | none | some "" => none
  | some root => some { standard with root }

/-- The directory of the cases of one type. -/
def typeDir (config : Config) (fork typeName : String) : String :=
  ["tests", config.preset, fork, config.handler, typeName, config.suite].foldl joinPath config.root

end Config

end Ssz.Fixture
