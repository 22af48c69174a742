import LuaChunk.Assoc
import LuaChunk.Cache
import LuaChunk.Code.Instruction
import LuaChunk.Code.Listing
import LuaChunk.Code.Opcode
import LuaChunk.Code.Prototype
import LuaChunk.CommandLine.Flags
import LuaChunk.CommandLine.Run
import LuaChunk.CommandLine.Sources
import LuaChunk.Compile.Chunk
import LuaChunk.Compile.ConstantPool
import LuaChunk.Compile.Discharge
import LuaChunk.Compile.Emit
import LuaChunk.Compile.Exp
import LuaChunk.Compile.Expression
import LuaChunk.Compile.Function
import LuaChunk.Compile.Goto
import LuaChunk.Compile.JumpList
import LuaChunk.Compile.LineTable
import LuaChunk.Compile.Operator
import LuaChunk.Compile.Scope
import LuaChunk.Compile.State
import LuaChunk.Compile.Statement
import LuaChunk.Doctest
import LuaChunk.Editor.Feature
import LuaChunk.Editor.Workspace
import LuaChunk.Files.Glob
import LuaChunk.Files.Path
import LuaChunk.Files.Tree
import LuaChunk.Hash.Fingerprint
import LuaChunk.Hash.Sha256
import LuaChunk.Interactive
import LuaChunk.Interner
import LuaChunk.Main
import LuaChunk.Markdown.Block
import LuaChunk.Markdown.Cursor
import LuaChunk.Markdown.Document
import LuaChunk.Markdown.Html
import LuaChunk.Number.Arith
import LuaChunk.Number.Basic
import LuaChunk.Number.Binary64
import LuaChunk.Number.Decimal
import LuaChunk.Number.Numeral
import LuaChunk.Project.Build
import LuaChunk.Project.Git
import LuaChunk.Project.Lock
import LuaChunk.Project.Manifest
import LuaChunk.Project.ModuleName
import LuaChunk.Project.Resolve
import LuaChunk.Proofs.Action.Built
import LuaChunk.Proofs.Action.Emit
import LuaChunk.Proofs.Action.Expression
import LuaChunk.Proofs.Action.Floats
import LuaChunk.Proofs.Action.Nesting
import LuaChunk.Proofs.Action.Reader
import LuaChunk.Proofs.Action.Regular
import LuaChunk.Proofs.Action.Scope
import LuaChunk.Proofs.Action.Statement
import LuaChunk.Proofs.Action.Stores
import LuaChunk.Proofs.Action.Value
import LuaChunk.Proofs.Code.Bounds
import LuaChunk.Proofs.Code.Cert
import LuaChunk.Proofs.Code.CertEdit
import LuaChunk.Proofs.Code.Final
import LuaChunk.Proofs.Code.Visits
import LuaChunk.Proofs.Compile.Access
import LuaChunk.Proofs.Compile.Binary
import LuaChunk.Proofs.Compile.Block
import LuaChunk.Proofs.Compile.Chunk
import LuaChunk.Proofs.Compile.Constructor
import LuaChunk.Proofs.Compile.Emit
import LuaChunk.Proofs.Compile.JumpLists
import LuaChunk.Proofs.Compile.Lines
import LuaChunk.Proofs.Compile.Locals
import LuaChunk.Proofs.Compile.Primary
import LuaChunk.Proofs.Compile.References
import LuaChunk.Proofs.Compile.Sharing
import LuaChunk.Proofs.Compile.Value
import LuaChunk.Proofs.Editor.History
import LuaChunk.Proofs.Files.Reading
import LuaChunk.Proofs.Files.Writing
import LuaChunk.Proofs.Hash.Serialize
import LuaChunk.Proofs.Machine.Access
import LuaChunk.Proofs.Machine.Assignment
import LuaChunk.Proofs.Machine.Emission
import LuaChunk.Proofs.Machine.Execution
import LuaChunk.Proofs.Machine.Location
import LuaChunk.Proofs.Machine.Names
import LuaChunk.Proofs.Machine.Targets
import LuaChunk.Proofs.Machine.Terms
import LuaChunk.Proofs.Machine.Values
import LuaChunk.Proofs.Number.Arithmetic
import LuaChunk.Proofs.Number.Exact
import LuaChunk.Proofs.Number.Integer
import LuaChunk.Proofs.Number.Unsigned
import LuaChunk.Proofs.Parallel.Chunk
import LuaChunk.Proofs.Project.Effects
import LuaChunk.Proofs.Project.Identifier
import LuaChunk.Proofs.Project.Output
import LuaChunk.Proofs.Project.Placement
import LuaChunk.Proofs.Project.Resolution
import LuaChunk.Proofs.Project.Transparency
import LuaChunk.Proofs.Project.Traversal
import LuaChunk.Proofs.Source.Extension
import LuaChunk.Proofs.Source.Lines
import LuaChunk.Proofs.Source.LongBracket
import LuaChunk.Proofs.Source.Lookahead
import LuaChunk.Proofs.Source.Printing
import LuaChunk.Proofs.Source.Quoted
import LuaChunk.Proofs.Source.Shebang
import LuaChunk.Proofs.Source.Spacing
import LuaChunk.Proofs.Source.Words
import LuaChunk.Proofs.Syntax.Acceptance
import LuaChunk.Proofs.Syntax.Coding
import LuaChunk.Proofs.Syntax.Control
import LuaChunk.Proofs.Syntax.Declarations
import LuaChunk.Proofs.Syntax.Expressions
import LuaChunk.Proofs.Syntax.Grammar
import LuaChunk.Proofs.Syntax.Grouping
import LuaChunk.Proofs.Syntax.Operands
import LuaChunk.Proofs.Syntax.Operations
import LuaChunk.Proofs.Syntax.Precedence
import LuaChunk.Proofs.Syntax.Reading
import LuaChunk.Proofs.Syntax.Results
import LuaChunk.Proofs.Syntax.Scope
import LuaChunk.Proofs.Syntax.Statements
import LuaChunk.Proofs.Syntax.Tree
import LuaChunk.Proofs.Text.Utf8
import LuaChunk.Proofs.Wire.Items
import LuaChunk.Proofs.Wire.RoundTrip
import LuaChunk.Proofs.Wire.Safety
import LuaChunk.Source.Error
import LuaChunk.Source.Lexer
import LuaChunk.Source.Reader
import LuaChunk.Source.Token
import LuaChunk.Text.Blank
import LuaChunk.Text.Bytes
import LuaChunk.Text.Printable
import LuaChunk.Text.Quoted
import LuaChunk.Text.Utf8
import LuaChunk.Toml.Document
import LuaChunk.Toml.Scalar
import LuaChunk.Toml.Statement
import LuaChunk.Value
import LuaChunk.Wire.Cbor
import LuaChunk.Wire.Form
