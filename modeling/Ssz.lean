import Ssz.Bits
import Ssz.Bytes
import Ssz.Catalogue.Altair
import Ssz.Catalogue.Phase0
import Ssz.Codec
import Ssz.Error
import Ssz.Fixture.Case
import Ssz.Fixture.Config
import Ssz.Fixture.Report
import Ssz.Golden
import Ssz.Hash.Sha256
import Ssz.Log
import Ssz.Merkle.Chunk
import Ssz.Merkle.Root
import Ssz.Merkle.Tree
import Ssz.Preset
import Ssz.Sampling
import Ssz.Proofs.Except
import Ssz.Proofs.Shape
import Ssz.Proofs.WellFormed
import Ssz.Schema
import Ssz.Shape
import Ssz.Snappy
import Ssz.Text.Binary64
import Ssz.Text.Blank
import Ssz.Text.Codec
import Ssz.Text.Decimal
import Ssz.Text.Error
import Ssz.Text.Hex
import Ssz.Text.Json.Numeral
import Ssz.Text.Json.Parser
import Ssz.Text.Json.Printer
import Ssz.Text.Read
import Ssz.Text.Render
import Ssz.Text.Tree
import Ssz.Text.Yaml.Character
import Ssz.Text.Yaml.Core
import Ssz.Text.Yaml.Datum
import Ssz.Text.Yaml.Event
import Ssz.Text.Yaml.FlowLine
import Ssz.Text.Yaml.Lexer
import Ssz.Text.Yaml.Lexer.Scalar
import Ssz.Text.Yaml.Lexer.Tag
import Ssz.Text.Yaml.Node
import Ssz.Text.Yaml.Token
import Ssz.Ty
import Ssz.Typed.Collection
import Ssz.Typed.FixedBytes
import Ssz.Value
import Ssz.WellFormed
import Ssz.Wire.Decode
import Ssz.Wire.Encode
import Ssz.Wire.OffsetTable
import Ssz.Wire.Ranged
import Ssz.Proofs.Wire.OffsetTable
import Ssz.Proofs.Bytes
import Ssz.Proofs.Bits
import Ssz.Proofs.Wire.Parts
import Ssz.Proofs.Wire.Encodes
import Ssz.Proofs.Wire.Canonical
import Ssz.Proofs.Wire.RoundTrip
import Ssz.Proofs.Wire.Layout
import Ssz.Proofs.Merkle.Dense
import Ssz.Proofs.Merkle.Chunk
import Ssz.Proofs.Merkle.Digest
import Ssz.Proofs.Merkle.Trace
import Ssz.Proofs.Merkle.Binding
import Ssz.Proofs.Producers
import Ssz.Proofs.Text.Reads
import Ssz.Proofs.Text.Json
import Ssz.Proofs.Text.Yaml.Lexer
import Ssz.Proofs.Text.Yaml.Tokens
import Ssz.Proofs.Text.Yaml.Composition
import Ssz.Proofs.Text.Yaml.Parsing
import Ssz.Proofs.Text.Yaml.Schema
import Ssz.Proofs.Text.Yaml
import Ssz.Proofs.Merkle.Room
import Ssz.Proofs.Text.Accepts
import Ssz.Proofs.Text.Inputs
import Ssz.Proofs.Typed.Collection
import Ssz.Proofs.Typed.Lawful
import Ssz.Proofs.Typed.Codecs
import Ssz.Proofs.Typed.Calls
import Ssz.Proofs.Text.Dialects
import Ssz.Proofs.Text.BareNumbers
import Ssz.Proofs.Text.Edits
import Ssz.Proofs.Text.Hex
import Ssz.Proofs.Text.Nesting
import Ssz.Proofs.Golden
import Ssz.Proofs.Fixture.Directory
import Ssz.Proofs.Fixture.Case
import Ssz.Proofs.Snappy
import Ssz.Proofs.Fixture.Writing
import Ssz.Proofs.Merkle.Sparse
import Ssz.Proofs.Wire.Ranged
import Ssz.Proofs.Wire.Tiling
import Ssz.Proofs.Wire.FixedSize
import Ssz.Proofs.Octets
import Ssz.Proofs.UniformRecord
import Ssz.Proofs.Bits.Runs
import Ssz.Proofs.Wire.Faults
import Ssz.Proofs.Merkle.Capacity
import Ssz.Proofs.Wire.Slices
import Ssz.Proofs.Fixture.Report
import Ssz.Proofs.Text.HexReaders
import Ssz.Proofs.Text.Numerals
import Ssz.Proofs.Text.ExactNumbers
import Ssz.Proofs.Bits.Sentinel
import Ssz.Proofs.Wire.Sizes
import Ssz.Proofs.Sampling.Values
import Ssz.Proofs.Sampling.Shapes
