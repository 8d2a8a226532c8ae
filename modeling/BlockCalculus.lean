import BlockCalculus.Block.Comparison
import BlockCalculus.Block.Composition
import BlockCalculus.Bytecode.Destination
import BlockCalculus.Bytecode.Reader
import BlockCalculus.Main
import BlockCalculus.Names.Definitions
import BlockCalculus.Workbench.InPlace
import BlockCalculus.Proofs.Block.Atoms
import BlockCalculus.Proofs.Block.Equality
import BlockCalculus.Proofs.Block.NormalForm
import BlockCalculus.Proofs.Bytecode.RoundTrip
import BlockCalculus.Proofs.Bytecode.Written
import BlockCalculus.Proofs.Bytes
import BlockCalculus.Proofs.Names.Resolution
import BlockCalculus.Proofs.Names.Substitution
import BlockCalculus.Proofs.Reduction.Continuation
import BlockCalculus.Proofs.Reduction.Invariant
import BlockCalculus.Proofs.Reduction.Structure
import BlockCalculus.Proofs.Reduction.Memory
import BlockCalculus.Proofs.Reduction.Replay
import BlockCalculus.Proofs.Reduction.Turn
import BlockCalculus.Proofs.Reduction.Word
import BlockCalculus.Proofs.Reduction.Tame
import BlockCalculus.Proofs.Reduction.Lazy
import BlockCalculus.Proofs.Reduction.Budget
import BlockCalculus.Proofs.Reduction.Segments
import BlockCalculus.Proofs.Reduction.Balance
import BlockCalculus.Proofs.Reduction.Bytecode
import BlockCalculus.Proofs.Names.Glossary
import BlockCalculus.Proofs.Names.Determined
import BlockCalculus.Proofs.Names.Inlining
import BlockCalculus.Proofs.Workbench.Session
import BlockCalculus.Proofs.Workbench.Edits
import BlockCalculus.Proofs.Workbench.Links
import BlockCalculus.Proofs.Notation.Token
import BlockCalculus.Proofs.Number.Digits
import BlockCalculus.Proofs.Number.Shortest
import BlockCalculus.Proofs.Notation.Leaf
import BlockCalculus.Proofs.Notation.RoundTrip
import BlockCalculus.Proofs.Names.Cache
import BlockCalculus.Proofs.Names.Access
import BlockCalculus.Proofs.Reduction.Asking
import BlockCalculus.Proofs.Names.Sharing
import BlockCalculus.Proofs.Names.Library
import BlockCalculus.Proofs.Reduction.Relevance
import BlockCalculus.Proofs.Names.Agreement
import BlockCalculus.Proofs.Names.Site
import BlockCalculus.Proofs.CommandLine.Arguments
import BlockCalculus.Proofs.CommandLine.Commands
import BlockCalculus.Proofs.Block.Composition
import BlockCalculus.Proofs.Block.Cell
import BlockCalculus.Proofs.Block.Comparison
import BlockCalculus.Proofs.Block.Sharing
import BlockCalculus.Proofs.Bytecode.Identity
import BlockCalculus.Proofs.Bytecode.Truncation
import BlockCalculus.Proofs.Bytecode.Destination
import BlockCalculus.Proofs.Bytecode.Reader
import BlockCalculus.Proofs.Reduction.Resumption
import BlockCalculus.Proofs.Reduction.ExactBudget
import BlockCalculus.Proofs.Reduction.Conservation
import BlockCalculus.Proofs.Notation.Word
import BlockCalculus.Proofs.Notation.Grammar
import BlockCalculus.Proofs.Block.Marker
import BlockCalculus.Proofs.Block.Joining
import BlockCalculus.Proofs.Names.Replacement
import BlockCalculus.Proofs.Workbench.Pass
import BlockCalculus.Proofs.Workbench.Line
