import FieldSelection.Checker
import FieldSelection.CommandLine
import FieldSelection.Filtering
import FieldSelection.Main
import FieldSelection.Recorder
import FieldSelection.Tree.Equality
import FieldSelection.Tree.Outline
import FieldSelection.Proofs.Graph.Children
import FieldSelection.Proofs.Search
import FieldSelection.Proofs.Tree.Simulation
import FieldSelection.Proofs.Filtering.Projection
import FieldSelection.Proofs.Filtering.Streaming
import FieldSelection.Proofs.Filtering.Copying
import FieldSelection.Proofs.Context
import FieldSelection.Proofs.Graph.Growth
import FieldSelection.Proofs.Tree.Trie
import FieldSelection.Proofs.Expression.Pruning
import FieldSelection.Proofs.Schema.Walk
import FieldSelection.Proofs.Tree.Walk
import FieldSelection.Proofs.Schema.Compiling
import FieldSelection.Proofs.Schema.Validation
import FieldSelection.Proofs.Json.Record
import FieldSelection.Proofs.Schema.Reading
import FieldSelection.Proofs.Tree.Overlap
import FieldSelection.Proofs.Json.Events
import FieldSelection.Proofs.Json.Document
import FieldSelection.Proofs.Expression.Requesting
import FieldSelection.Proofs.Selection.Grammar
import FieldSelection.Proofs.Selection.Reading
import FieldSelection.Proofs.Graph.Ownership
import FieldSelection.Proofs.Schema.Survey
import FieldSelection.Proofs.Schema.Asking
import FieldSelection.Proofs.Tree.Pairing
import FieldSelection.Proofs.Schema.Pairing
import FieldSelection.Proofs.Schema.History
import FieldSelection.Proofs.Schema.Integrity
import FieldSelection.Proofs.Graph.Operations
import FieldSelection.Proofs.Graph.Siblings
import FieldSelection.Proofs.Tree.Equality
import FieldSelection.Proofs.Schema.Sameness
import FieldSelection.Proofs.Schema.Inlining
import FieldSelection.Proofs.Json.Acceptance
import FieldSelection.Proofs.Filtering.Forwarding
import FieldSelection.Proofs.Filtering.Sorting
import FieldSelection.Proofs.Json.Agreement
import FieldSelection.Proofs.Json.Layout
import FieldSelection.Proofs.Json.Lexeme
import FieldSelection.Proofs.Json.ReadBack
import FieldSelection.Proofs.Json.Encoding
import FieldSelection.Proofs.Json.RoundTrip
import FieldSelection.Proofs.Json.Collecting
import FieldSelection.Proofs.Filtering.Texts
import FieldSelection.Proofs.Context.Place
import FieldSelection.Proofs.Tree.PathTrie
import FieldSelection.Proofs.Filtering.Lockstep
import FieldSelection.Proofs.Expression.Trimming
import FieldSelection.Proofs.Filtering.Refusals
import FieldSelection.Proofs.Tree.Acceptance
import FieldSelection.Proofs.Context.Repetition
import FieldSelection.Proofs.Selection.Refusal
import FieldSelection.Proofs.Expression.Writing
import FieldSelection.Proofs.Expression.Comparison
import FieldSelection.Proofs.Filtering.Idempotence
import FieldSelection.Proofs.Filtering.Cutoff
import FieldSelection.Proofs.Filtering.Matches
import FieldSelection.Proofs.FieldPath
import FieldSelection.Proofs.Expression.Retaining
import FieldSelection.Proofs.Graph.Collecting
import FieldSelection.Proofs.Graph.Owners
import FieldSelection.Proofs.Graph.Merging
import FieldSelection.Proofs.Tree.Comparing
import FieldSelection.Proofs.Tree.Termination
import FieldSelection.Proofs.Schema.Agenda
import FieldSelection.Proofs.Schema.Effort
import FieldSelection.Proofs.Json.Compact
import FieldSelection.Proofs.Json.Rereading
import FieldSelection.Proofs.Schema.Rereading
import FieldSelection.Proofs.Context.Walks
