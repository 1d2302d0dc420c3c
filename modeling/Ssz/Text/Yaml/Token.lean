-- SUMMARY: Tokens of YAML texts.
import Ssz.Bytes

/-!
# Tokens

Indentation is made explicit: where a block collection begins or ends there is a
token for it. A key that is not announced by a question mark is marked once its
colon is found. Tags are bytes, because the escapes in them need not make text.
-/

namespace Ssz.Text.Yaml

/-- How a scalar is written, as far as it bears on its meaning. -/
inductive Style where
  | plain
  | quoted
  deriving DecidableEq, Repr

inductive Token where
  | versionDirective (major minor : Nat)
  | tagDirective (handle : List Char) (uri : Bytes)
  | documentStart
  | documentEnd
  | blockSequenceStart
  | blockMappingStart
  | blockEnd
  | flowSequenceStart
  | flowSequenceEnd
  | flowMappingStart
  | flowMappingEnd
  | blockEntry
  | flowEntry
  | key
  | value
  | alias (name : List Char)
  | anchor (name : List Char)
  | tag (handle : List Char) (suffix : Bytes)
  | scalar (style : Style) (text : List Char)
  | streamEnd
  deriving DecidableEq, Repr

end Ssz.Text.Yaml
