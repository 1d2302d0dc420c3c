-- SUMMARY: Values as JSON and YAML texts.
import Ssz.Text.Blank
import Ssz.Text.Json.Parser
import Ssz.Text.Json.Printer
import Ssz.Text.Read
import Ssz.Text.Yaml.Datum
import Ssz.Text.Yaml.FlowLine
import Ssz.Text.Yaml.Lexer

/-!
# The textual codec

A value is written as compact JSON or as one flow line of YAML, and read from any
text of either format. A text that holds nothing, or that stops early, is an
unexpected end.
-/

namespace Ssz

open Text

/-! ## Writing -/

/-- Write a value as compact JSON. -/
def toJson (shape : Shape) (v : Value) : Except EncodeError String := do
  return Json.print (← toTree shape v)

/-- Write a value as one YAML line. -/
def toYaml (shape : Shape) (v : Value) : Except EncodeError String := do
  return Yaml.FlowLine.print (← toTree shape v)

/-! ## Reading -/

namespace Text

/-- Read the tree of a JSON text. -/
def treeOfJson (text : List Char) : Except TextError Tree :=
  if isBlank text then .error .unexpectedEnd
  else
    match Json.parse text with
    | .ok t => .ok t
    | .error .incomplete => .error .unexpectedEnd
    | .error .invalid => .error (.notWellFormed .json)

/-- The node of a YAML text, or nothing if the text holds no document. -/
def Yaml.nodeOf (text : List Char) : Option (Option Yaml.Node) := do
  let events ← Yaml.Event.ofTokens? (← Yaml.tokens? text)
  if events.isEmpty then return none
  else return some (← Yaml.Node.ofEvents? events)

/-- Read the tree of a YAML text. -/
def treeOfYaml (text : List Char) : Except TextError Tree :=
  if isBlank text then .error .unexpectedEnd
  else
    match Yaml.nodeOf text with
    | none => .error (.notWellFormed .yaml)
    | some none => .error .unexpectedEnd
    | some (some node) =>
      match Yaml.Datum.ofNode? node with
      | none => .error (.notWellFormed .yaml)
      | some d =>
        if d.isNull then .error .unexpectedEnd
        else
          match d.toTree with
          | .ok t => .ok t
          | .error cause => .error (.misfit .yaml cause)

/-- Read a YAML text as a tree without tags, or nothing if it is not well-formed. -/
def plainTreeOfYaml (text : List Char) : Option Tree :=
  match Yaml.nodeOf text with
  | none => none
  | some none => some .null
  | some (some node) => node.toTree?

end Text

/-- Read a value from JSON text. -/
def fromJson (shape : Shape) (text : String) : Except TextError Value := do
  ofTree .json shape (← treeOfJson text.toList)

/-- Read a value from YAML text. -/
def fromYaml (shape : Shape) (text : String) : Except TextError Value := do
  ofTree .yaml shape (← treeOfYaml text.toList)

end Ssz
