import TypeLang.Command.Arguments
import TypeLang.Command.FileTree
import TypeLang.Command.Host
import TypeLang.Command.Run
import TypeLang.Command.Targets
import TypeLang.Crc32
import TypeLang.Emit.Code
import TypeLang.Emit.Debug
import TypeLang.Emit.Handler
import TypeLang.Emit.Instances
import TypeLang.Emit.Request
import TypeLang.Emit.Stream
import TypeLang.Emit.Struct
import TypeLang.Emit.Values
import TypeLang.Generation.Config
import TypeLang.Generation.Generated
import TypeLang.Generation.Round
import TypeLang.Generation.Selection
import TypeLang.Json.Data
import TypeLang.Json.Node
import TypeLang.Json.Numeral
import TypeLang.Json.Quoted
import TypeLang.Json.Token
import TypeLang.Main
import TypeLang.Model.Baking
import TypeLang.Model.Basic
import TypeLang.Model.Distinct
import TypeLang.Model.Indirection
import TypeLang.Model.OfDefinitions
import TypeLang.Model.Order
import TypeLang.Model.Reach
import TypeLang.Naming.Case
import TypeLang.Naming.Entity
import TypeLang.Naming.Target
import TypeLang.Number.Binary64
import TypeLang.Number.Shortest
import TypeLang.Proofs.Success
import TypeLang.Proofs.Text.Lines
import TypeLang.Proofs.Wire.Reading
import TypeLang.Region.Basic
import TypeLang.Region.Marker
import TypeLang.Region.Prior
import TypeLang.Region.Section
import TypeLang.Schema.Definition
import TypeLang.Schema.Document
import TypeLang.Schema.Error
import TypeLang.Schema.Listing
import TypeLang.Schema.Parameter
import TypeLang.Schema.TypeExpr
import TypeLang.Text.Blank
import TypeLang.Text.Hex
import TypeLang.Text.Indentation
import TypeLang.Text.Integer
import TypeLang.Text.Lines
import TypeLang.Text.Split
import TypeLang.Text.Utf8
import TypeLang.Wire.Decode
import TypeLang.Wire.Encode
import TypeLang.Wire.Error
import TypeLang.Wire.Primitive
import TypeLang.Wire.Value
import TypeLang.Proofs.Schema.Statement
import TypeLang.Proofs.Schema.Gates
import TypeLang.Proofs.Model.Derived
import TypeLang.Proofs.Model.Gates
import TypeLang.Proofs.Model.Order
import TypeLang.Proofs.Wire.Canonical
import TypeLang.Proofs.Wire.Flags
import TypeLang.Proofs.Wire.RoundTrip
import TypeLang.Proofs.Wire.Consumption
import TypeLang.Proofs.Emit.Running
import TypeLang.Proofs.Model.Tags
import TypeLang.Proofs.Emit.Operators
import TypeLang.Proofs.Wire.Layout
import TypeLang.Proofs.Naming.Unbroken
import TypeLang.Proofs.Text.Trimming
import TypeLang.Proofs.Schema.Unbroken
import TypeLang.Proofs.Model.Unbroken
import TypeLang.Proofs.Emit.Punctuated
import TypeLang.Proofs.Region.Cut
import TypeLang.Proofs.Region.Patching
import TypeLang.Proofs.Emit.Functions
import TypeLang.Proofs.Emit.Lines
import TypeLang.Proofs.Emit.Handlers
import TypeLang.Proofs.Emit.Instances
import TypeLang.Proofs.Generation.Rounds
import TypeLang.Proofs.Generation.Idempotence
import TypeLang.Proofs.Generation.Survival
import TypeLang.Proofs.Model.Cycles
import TypeLang.Proofs.Model.Baking
import TypeLang.Proofs.Model.Redraft
import TypeLang.Proofs.Wire.Agreement
import TypeLang.Proofs.Model.Merging
import TypeLang.Proofs.Model.Origin
import TypeLang.Proofs.Wire.Received
import TypeLang.Proofs.Wire.Finding
import TypeLang.Proofs.Wire.NormalForm
import TypeLang.Proofs.Wire.Decodable
import TypeLang.Proofs.Wire.Congruence
import TypeLang.Proofs.Wire.Depth
import TypeLang.Proofs.Wire.Delimited
import TypeLang.Proofs.Naming.Template
import TypeLang.Proofs.Wire.Dispatch
import TypeLang.Proofs.Schema.Layout
import TypeLang.Proofs.Schema.Segments
import TypeLang.Proofs.Text.Numerals
import TypeLang.Proofs.Text.Tokens
import TypeLang.Proofs.Schema.Spelling
import TypeLang.Proofs.Schema.Row
import TypeLang.Proofs.Schema.Legible
import TypeLang.Proofs.Schema.OneLine
import TypeLang.Proofs.Schema.Printing
import TypeLang.Proofs.Schema.Dialects
import TypeLang.Proofs.Model.Reach
import TypeLang.Proofs.Generation.Operators
import TypeLang.Proofs.Emit.Constants
import TypeLang.Proofs.Model.Regrouping
import TypeLang.Proofs.Generation.Tags
import TypeLang.Proofs.Wire.Termination
import TypeLang.Proofs.Wire.Alignment
import TypeLang.Proofs.Region.Lens
import TypeLang.Proofs.Region.Independence
import TypeLang.Proofs.Generation.Separation
import TypeLang.Proofs.Command.FileTree
import TypeLang.Proofs.Command.Separation
import TypeLang.Proofs.Model.Indirection
import TypeLang.Proofs.Emit.Declarations
import TypeLang.Proofs.Emit.Occurrences
import TypeLang.Proofs.Emit.Accessors
import TypeLang.Proofs.Wire.Payloads
import TypeLang.Proofs.Emit.Merging
import TypeLang.Proofs.Schema.Ids
import TypeLang.Proofs.Naming.Written
import TypeLang.Proofs.Crc32
import TypeLang.Proofs.Text.Respacing
import TypeLang.Proofs.Schema.DerivedId
import TypeLang.Proofs.Json.Entries
import TypeLang.Proofs.Json.Numerals
import TypeLang.Proofs.Json.Quoted
import TypeLang.Proofs.Json.Tokens
import TypeLang.Proofs.Json.Written
import TypeLang.Proofs.Schema.Reformatted
