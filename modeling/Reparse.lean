import Reparse.Rope.Description
import Reparse.Edit.Log
import Reparse.Pattern.Compile
import Reparse.Parsing.Document
import Reparse.Parsing.Snapshot
import Reparse.Languages.Words
import Reparse.Languages.Calculator
import Reparse.Languages.Scripted.Grammar
import Reparse.Proofs.Rope.Following
import Reparse.Proofs.Rope.Navigating
import Reparse.Proofs.Parsing.History
import Reparse.Proofs.Parsing.Tandem
import Reparse.Proofs.Languages.Calculator.Reparsing
import Reparse.Proofs.Edit.Drafts
import Reparse.Proofs.Pattern.Compiling
import Reparse.Proofs.Pattern.Expansion
import Reparse.Proofs.Languages.Calculator.Expressions
import Reparse.Proofs.Languages.Calculator.Precedence
import Reparse.Proofs.Rope.Ending
import Reparse.Proofs.Rope.Meeting
import Reparse.Proofs.Rope.Bystanders
import Reparse.Proofs.Parsing.Refusals
import Reparse.Proofs.Languages.Words.Derivations
import Reparse.Proofs.Languages.Words.Promises
import Reparse.Proofs.Languages.Words.Rules
import Reparse.Proofs.Languages.Words.Reparsing
import Reparse.Proofs.Languages.Words.Leftovers
import Reparse.Proofs.Pattern.Ropes
import Reparse.Proofs.Lexing.Skipping
import Reparse.Proofs.Rope.Guarding
import Reparse.Proofs.Parsing.Sweeping
import Reparse.Proofs.Parsing.Lookups
import Reparse.Proofs.Pattern.Repetition
import Reparse.Proofs.Parsing.Tallies
import Reparse.Proofs.Languages.Words.Tiling
import Reparse.Proofs.Parsing.Adopting
import Reparse.Proofs.Parsing.Backtracking
import Reparse.Proofs.Pattern.Extents
import Reparse.Proofs.Pattern.Progress
import Reparse.Proofs.Rope.Lineage
import Reparse.Proofs.Rope.Handles
