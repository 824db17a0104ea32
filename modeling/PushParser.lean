import PushParser.NameMap
import PushParser.Queue.Family
import PushParser.Text.Capital
import PushParser.Text.Letter
import PushParser.Grammar.Build
import PushParser.Grammar.First
import PushParser.Parser.Action
import PushParser.Parser.Basic
import PushParser.Parser.Tree
import PushParser.Arithmetic.Kit
import PushParser.Proofs.Soundness
import PushParser.Proofs.WellFormed
import PushParser.Proofs.Language
import PushParser.Proofs.Nullable
import PushParser.Proofs.LeftRecursion
import PushParser.Proofs.Building
import PushParser.Proofs.Cycles
import PushParser.Proofs.Awaited
import PushParser.Proofs.Termination
import PushParser.Proofs.Completeness
import PushParser.Proofs.EmptyWord
import PushParser.Proofs.Prediction
import PushParser.Proofs.Tables
import PushParser.Proofs.GroupNames
import PushParser.Proofs.Reading
import PushParser.Proofs.Meaning
import PushParser.Proofs.Acceptance
import PushParser.Proofs.Rebuilding
import PushParser.Proofs.Rejection
import PushParser.Proofs.Representation
import PushParser.Proofs.InProgress
import PushParser.Proofs.Outline
import PushParser.Proofs.Traversal
import PushParser.Proofs.Viable
import PushParser.Proofs.FirstSets
import PushParser.Proofs.RenamedRules
import PushParser.Proofs.RenamedParsers
import PushParser.Proofs.PlainNames
import PushParser.Proofs.Templates
import PushParser.Proofs.Spelling
import PushParser.Proofs.Recognition
import PushParser.Proofs.Expressions
import PushParser.Proofs.FirstQueries
import PushParser.Proofs.FragmentClosure
import PushParser.Proofs.Repetitions
import PushParser.Proofs.StackEffect
import PushParser.Proofs.Ledgers
import PushParser.Proofs.Identifiers
import PushParser.Proofs.BreadthFirst
import PushParser.Proofs.Words
import PushParser.Proofs.ProductionOrder
import PushParser.Proofs.EbnfText
import PushParser.Proofs.Verification
import PushParser.Proofs.SharedMemory
import PushParser.Proofs.InPlace
import PushParser.Parser.Machine
import PushParser.Proofs.Packages
