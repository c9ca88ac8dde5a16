import MiniSql.Lexeme.Cover
import MiniSql.Main
import MiniSql.Session
import MiniSql.Proofs.Phrase
import MiniSql.Proofs.Recognition
import MiniSql.Proofs.Parsing
import MiniSql.Proofs.Acceptance
import MiniSql.Proofs.Derivation
import MiniSql.Proofs.Layout
import MiniSql.Proofs.Scanning
import MiniSql.Proofs.RoundTrip
import MiniSql.Proofs.Rounding
import MiniSql.Proofs.Restoring
import MiniSql.Proofs.Effects
import MiniSql.Proofs.Plain
import MiniSql.Proofs.Compilation
import MiniSql.Proofs.Execution
import MiniSql.Proofs.Frame
import MiniSql.Proofs.Stages
import MiniSql.Proofs.FailedRun
import MiniSql.Proofs.Fitting
import MiniSql.Proofs.Insertion
import MiniSql.Proofs.Filtering
import MiniSql.Proofs.Grouping
import MiniSql.Proofs.Results
import MiniSql.Proofs.FirstError
import MiniSql.Proofs.Decision
import MiniSql.Proofs.HookProtocol
import MiniSql.Proofs.Transparency
import MiniSql.Proofs.Requests
import MiniSql.Proofs.Appending
import MiniSql.Proofs.ColumnOrder
import MiniSql.Proofs.Agreement
import MiniSql.Proofs.Substitution
import MiniSql.Proofs.Guard
import MiniSql.Proofs.Reordering
import MiniSql.Proofs.Composition
import MiniSql.Proofs.Relocation
import MiniSql.Proofs.Opening
import MiniSql.Proofs.LineBreak
import MiniSql.Proofs.Placing
import MiniSql.Proofs.Joining
import MiniSql.Proofs.Lexical
import MiniSql.Proofs.Munch
import MiniSql.Proofs.Locating
import MiniSql.Proofs.ReadBack
import MiniSql.Proofs.RowHistory
import MiniSql.Proofs.Projection
import MiniSql.Proofs.Coherence
import MiniSql.Proofs.LongestMatch
import MiniSql.Proofs.Equality
import MiniSql.Proofs.BadNumber
import MiniSql.Proofs.Literals
