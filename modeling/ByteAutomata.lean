import ByteAutomata.Automaton
import ByteAutomata.Automaton.Difference
import ByteAutomata.Automaton.Merge
import ByteAutomata.Byte
import ByteAutomata.Dfa
import ByteAutomata.Dfa.Build
import ByteAutomata.Dfa.Length
import ByteAutomata.Dfa.Memo
import ByteAutomata.Dfa.Parser
import ByteAutomata.Dfa.Printer
import ByteAutomata.Dfa.Query
import ByteAutomata.Dfa.Table
import ByteAutomata.Dfa.Words
import ByteAutomata.Dialogue
import ByteAutomata.Learner.Boundary
import ByteAutomata.Learner.ByteClasses
import ByteAutomata.Learner.Learn
import ByteAutomata.Learner.Observations
import ByteAutomata.Learner.Oracle
import ByteAutomata.Proofs.Boundary
import ByteAutomata.Proofs.ByteClasses
import ByteAutomata.Proofs.Canonical
import ByteAutomata.Proofs.Dialogue
import ByteAutomata.Proofs.Learner.Closing
import ByteAutomata.Proofs.Learner.Table
import ByteAutomata.Proofs.Minimal
import ByteAutomata.Proofs.Nerode
import ByteAutomata.Proofs.Reachable
import ByteAutomata.Proofs.Search
import ByteAutomata.Proofs.SearchOrder
import ByteAutomata.Proofs.Text
import ByteAutomata.Random.Objects
import ByteAutomata.Random.Source
import ByteAutomata.Registry
import ByteAutomata.Registry.Catalogue
import ByteAutomata.Registry.Naming
import ByteAutomata.Registry.Store
import ByteAutomata.Run
import ByteAutomata.Search
import ByteAutomata.Shrink.Divergence
import ByteAutomata.Shrink.Engine
import ByteAutomata.Shrink.Session
import ByteAutomata.Text.Blank
import ByteAutomata.Text.Grid
import ByteAutomata.Text.Lines
import ByteAutomata.Text.Sha256
import ByteAutomata.Word
import ByteAutomata.Word.Quoted
import ByteAutomata.Proofs.Learner.Progress
import ByteAutomata.Proofs.Learner.Learning
import ByteAutomata.Proofs.Learner.Session
import ByteAutomata.Proofs.Counting
import ByteAutomata.Proofs.WordList
import ByteAutomata.Proofs.Learner.Convergence
import ByteAutomata.Proofs.LengthBounds
import ByteAutomata.Proofs.WordOrder
import ByteAutomata.Proofs.Learner.Stable
import ByteAutomata.Proofs.Shrink.Learning
import ByteAutomata.Proofs.Shrink.Steps
import ByteAutomata.Proofs.Shrink.Tally
import ByteAutomata.Proofs.Shrink.Registering
import ByteAutomata.Proofs.Shrink.Cores
import ByteAutomata.Proofs.Shrink.Divergence
import ByteAutomata.Proofs.Grammar
import ByteAutomata.Proofs.Listing
import ByteAutomata.Proofs.Reading
import ByteAutomata.Proofs.RoundTrip
import ByteAutomata.Proofs.Lines
import ByteAutomata.Proofs.Registry.Preamble
import ByteAutomata.Proofs.Registry.Entries
import ByteAutomata.Proofs.Registry.Reopening
import ByteAutomata.Proofs.Shrink.Reopening
import ByteAutomata.Proofs.Learner.Hypothesis
import ByteAutomata.Proofs.Provider
import ByteAutomata.Proofs.Enumeration
import ByteAutomata.Proofs.Memory.Tables
import ByteAutomata.Proofs.Memory.Exact
import ByteAutomata.Proofs.Memory.Places
import ByteAutomata.Proofs.Memory.Comparing
import ByteAutomata.Proofs.Memory.Answers
import ByteAutomata.Proofs.Memory.Usage
import ByteAutomata.Proofs.Memory.Transparent
import ByteAutomata.Proofs.Memory.Iterators
import ByteAutomata.Proofs.Difference
import ByteAutomata.Proofs.Trimmed
import ByteAutomata.Proofs.Memory.Meaning
import ByteAutomata.Proofs.Disjoint
import ByteAutomata.Proofs.Building
import ByteAutomata.Proofs.Readable
import ByteAutomata.Proofs.Rounds
import ByteAutomata.Proofs.Learner.Termination
import ByteAutomata.Proofs.Learner.Generation
import ByteAutomata.Proofs.Splitting
import ByteAutomata.Proofs.Lookup
import ByteAutomata.Proofs.Described
import ByteAutomata.Proofs.MaximalRuns
import ByteAutomata.Proofs.RandomAutomata
import ByteAutomata.Proofs.Learner.Labels
import ByteAutomata.Proofs.Partition
import ByteAutomata.Proofs.DeadStates
import ByteAutomata.Proofs.FinerClasses
import ByteAutomata.Proofs.FirstAnswers
