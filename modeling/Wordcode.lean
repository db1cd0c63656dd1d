import Wordcode.Arithmetic
import Wordcode.BigEndian
import Wordcode.Binary.Basic
import Wordcode.Binary.Shortest
import Wordcode.Binary.Text
import Wordcode.CommandLine
import Wordcode.Config
import Wordcode.Config.Text
import Wordcode.Digits
import Wordcode.Directory
import Wordcode.Engine
import Wordcode.Instruction
import Wordcode.Json.Document
import Wordcode.Json.Numeral
import Wordcode.Json.Quoted
import Wordcode.Json.Token
import Wordcode.Kind
import Wordcode.Listing
import Wordcode.Lowering
import Wordcode.Machine
import Wordcode.Main
import Wordcode.Opcode
import Wordcode.Proofs.Assembly
import Wordcode.Proofs.Commutation
import Wordcode.Proofs.Compilation
import Wordcode.Proofs.Concatenation
import Wordcode.Proofs.Cuts
import Wordcode.Proofs.Decompilation
import Wordcode.Proofs.Documents
import Wordcode.Proofs.Dump
import Wordcode.Proofs.Encoding
import Wordcode.Proofs.Evaluation
import Wordcode.Proofs.Exactness
import Wordcode.Proofs.Execution
import Wordcode.Proofs.Expr
import Wordcode.Proofs.Fields
import Wordcode.Proofs.Flattening
import Wordcode.Proofs.Folding
import Wordcode.Proofs.Forecast
import Wordcode.Proofs.Grammar
import Wordcode.Proofs.Headroom
import Wordcode.Proofs.Height
import Wordcode.Proofs.History
import Wordcode.Proofs.Leaves
import Wordcode.Proofs.Lexing
import Wordcode.Proofs.Limits
import Wordcode.Proofs.LiteralText
import Wordcode.Proofs.Lockstep
import Wordcode.Proofs.Magnitude
import Wordcode.Proofs.Nesting
import Wordcode.Proofs.Offences
import Wordcode.Proofs.Operands
import Wordcode.Proofs.Places
import Wordcode.Proofs.Reading
import Wordcode.Proofs.Respelling
import Wordcode.Proofs.Results
import Wordcode.Proofs.Statements
import Wordcode.Proofs.Stripping
import Wordcode.Proofs.TreeText
import Wordcode.Proofs.Views
import Wordcode.Proofs.Visits
import Wordcode.Proofs.Wrapping
import Wordcode.Stream
import Wordcode.Toml.Document
import Wordcode.Toml.Lexeme
import Wordcode.Toml.Table
import Wordcode.Tree
import Wordcode.Tree.Document
import Wordcode.Tree.Shape
import Wordcode.Word
