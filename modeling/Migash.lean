import Migash.Arithmetic.Climbing
import Migash.Arithmetic.Constants
import Migash.Arithmetic.Evaluate
import Migash.Arithmetic.Exact
import Migash.Arithmetic.Expression
import Migash.Arithmetic.Grammar
import Migash.Arithmetic.Operations
import Migash.Arithmetic.Parse
import Migash.Arithmetic.ShortCircuit
import Migash.Arithmetic.Spelling
import Migash.Arithmetic.Token
import Migash.Arithmetic.Trial
import Migash.Arithmetic.Unbounded
import Migash.Ast
import Migash.AstClone
import Migash.BuiltinStore
import Migash.EnvpCache
import Migash.EnvpCache.Mapping
import Migash.Exec.Agreement
import Migash.Exec.AliasSessions
import Migash.Exec.Assignments
import Migash.Exec.Basename
import Migash.Exec.CasePatterns
import Migash.Exec.Command
import Migash.Exec.Coverage
import Migash.Exec.Dispatch
import Migash.Exec.DotScript
import Migash.Exec.Drivers
import Migash.Exec.EvalString
import Migash.Exec.Exit
import Migash.Exec.Exported
import Migash.Exec.ForLoop
import Migash.Exec.ForWords
import Migash.Exec.Frame
import Migash.Exec.FrameFds
import Migash.Exec.FrameScopes
import Migash.Exec.FrameStack
import Migash.Exec.FreshSession
import Migash.Exec.Getopt
import Migash.Exec.OptionBuiltins
import Migash.Exec.PendingTraps
import Migash.Exec.PipelineFds
import Migash.Exec.PipelineStatus
import Migash.Exec.Policy
import Migash.Exec.PositionalParams
import Migash.Exec.Printf
import Migash.Exec.PrintfVar
import Migash.Exec.Prompt
import Migash.Exec.Session
import Migash.Exec.State
import Migash.Exec.Stores
import Migash.Exec.StreamCore
import Migash.Exec.StreamRepl
import Migash.Exec.Streams
import Migash.Exec.Tracking
import Migash.Exec.TrapRecords
import Migash.Exec.Visibility
import Migash.Exec.WhileLoop
import Migash.Expander.CommandSubst
import Migash.Expander.FieldSplit
import Migash.Expander.Heredoc
import Migash.Expander.Modifiers
import Migash.Expander.Numerals
import Migash.Expander.Operands
import Migash.Expander.Parameters
import Migash.Expander.Quoting
import Migash.Expander.Segments
import Migash.Expander.Words
import Migash.FdTable
import Migash.FdTable.Runs
import Migash.FuncMap
import Migash.FuncStore
import Migash.Glob
import Migash.Glob.Backtracking
import Migash.Glob.Elements
import Migash.Glob.Literal
import Migash.Glob.Meaning
import Migash.Glob.Segments
import Migash.Gnode
import Migash.HashTable
import Migash.JobStore
import Migash.JobStore.Iterator
import Migash.JobStore.Pointers
import Migash.JobStore.Summary
import Migash.Lexer.Alike
import Migash.Lexer.ArithExp
import Migash.Lexer.Assignments
import Migash.Lexer.Bodies
import Migash.Lexer.Braced
import Migash.Lexer.CmdSubst
import Migash.Lexer.Contracts
import Migash.Lexer.Documents
import Migash.Lexer.DoubleQuotes
import Migash.Lexer.Escapes
import Migash.Lexer.Expansions
import Migash.Lexer.Lead
import Migash.Lexer.Lexemes
import Migash.Lexer.LibQuote
import Migash.Lexer.LineNumbers
import Migash.Lexer.Lines
import Migash.Lexer.Modes
import Migash.Lexer.Normal
import Migash.Lexer.NormalTotal
import Migash.Lexer.ParamExp
import Migash.Lexer.PlainWord
import Migash.Lexer.Quoted
import Migash.Lexer.Reading
import Migash.Lexer.Sound
import Migash.Lexer.Spelling
import Migash.Lexer.Stable
import Migash.Lexer.State
import Migash.Lexer.Tokenize
import Migash.Lexer.Total
import Migash.Lexer.Trace
import Migash.Lexer.Traps
import Migash.Lexer.WordTexts
import Migash.Library.Blocks
import Migash.Library.Brackets
import Migash.Library.Descriptors
import Migash.Library.Follows
import Migash.Library.Forward
import Migash.Library.ForwardTriple
import Migash.Library.Gives
import Migash.Library.Heap
import Migash.Library.Probing
import Migash.Library.Runs
import Migash.Library.Stateful
import Migash.Library.Tombstones
import Migash.Library.While
import Migash.Lower
import Migash.Lower.Clone
import Migash.Lower.Order
import Migash.Lower.Redirections
import Migash.Lower.Separators
import Migash.Lower.Shape
import Migash.Numeric
import Migash.Parser.BraceGroup
import Migash.Parser.CaseItems
import Migash.Parser.CommandStart
import Migash.Parser.Compound
import Migash.Parser.FirstToken
import Migash.Parser.ForClause
import Migash.Parser.Leftover
import Migash.Parser.Payload
import Migash.Parser.Program
import Migash.Parser.Progress
import Migash.Parser.Simple
import Migash.Parser.State
import Migash.Parser.Stops
import Migash.Parser.Totality
import Migash.PatternRemoval
import Migash.Redirect.Apply
import Migash.Redirect.Clone
import Migash.Redirect.Failure
import Migash.Redirect.FdTarget
import Migash.Redirect.Nesting
import Migash.Redirect.Rest
import Migash.StringT
import Migash.StringT.Canonicalize
import Migash.StringT.Contents
import Migash.StringT.Operations
import Migash.StringT.Runs
import Migash.StringT.Split
import Migash.Token
import Migash.Tokenizer.Chunks
import Migash.Tokenizer.FollowingWord
import Migash.Tokenizer.Order
import Migash.Tokenizer.Ownership
import Migash.Tokenizer.Process
import Migash.Tokenizer.Termination
import Migash.VariableMap
import Migash.VariableMap.EraseMultiple
import Migash.VariableStore
