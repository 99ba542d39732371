import SequentCalculus.Text.Blank
import SequentCalculus.Text.Lines
import SequentCalculus.Text.Decimal
import SequentCalculus.SumBy
import SequentCalculus.Connective
import SequentCalculus.Formula
import SequentCalculus.Policy
import SequentCalculus.RuleName
import SequentCalculus.Fault
import SequentCalculus.Expr
import SequentCalculus.InputError
import SequentCalculus.Token
import SequentCalculus.Reading
import SequentCalculus.Store
import SequentCalculus.Store.Tree
import SequentCalculus.Cedent.Tables
import SequentCalculus.Cedent
import SequentCalculus.Sequent
import SequentCalculus.Rule
import SequentCalculus.Rule.Weight
import SequentCalculus.Strategy
import SequentCalculus.Search.Statistics
import SequentCalculus.Search
import SequentCalculus.Replay
import SequentCalculus.Log
import SequentCalculus.GoalId
import SequentCalculus.Address
import SequentCalculus.ProofState
import SequentCalculus.Problem
import SequentCalculus.Session
import SequentCalculus.CommandLine.Options
import SequentCalculus.CommandLine.Report
import SequentCalculus.CommandLine
import SequentCalculus.Main
import SequentCalculus.Proofs.Expr
import SequentCalculus.Proofs.Store.Reachable
import SequentCalculus.Proofs.Sequent
import SequentCalculus.Proofs.Semantics
import SequentCalculus.Proofs.Calculus
import SequentCalculus.Proofs.Search.Invariant
import SequentCalculus.Proofs.Search.Verdict
import SequentCalculus.Proofs.Search.CounterModel
import SequentCalculus.Proofs.Replay
import SequentCalculus.Proofs.Search.Replay
import SequentCalculus.Proofs.ProofState.Invariant
import SequentCalculus.Proofs.ProofState.Course
import SequentCalculus.Proofs.ProofState.Confluence
import SequentCalculus.Proofs.Reading.Blank
import SequentCalculus.Proofs.Session.Reachable
import SequentCalculus.Proofs.Session.Auto
import SequentCalculus.Proofs.Store.Representation
import SequentCalculus.Proofs.Search.Policy
import SequentCalculus.Proofs.Reading.Grammar
import SequentCalculus.Proofs.Reading.Exact
import SequentCalculus.Proofs.Reading.Language
import SequentCalculus.Proofs.Reading.RoundTrip
import SequentCalculus.Proofs.Search.Limit
import SequentCalculus.Proofs.Search.Step
import SequentCalculus.Proofs.Search.Recursion
import SequentCalculus.Proofs.Search.Counters
import SequentCalculus.Proofs.Search.Effort
import SequentCalculus.Proofs.ProofState.Calls
import SequentCalculus.Proofs.ProofState.Visible
import SequentCalculus.Proofs.Address
import SequentCalculus.Proofs.Session.Rules
import SequentCalculus.Proofs.Store.Canonical
import SequentCalculus.Proofs.Store.Meaning
import SequentCalculus.Proofs.ProofState.Interning
import SequentCalculus.Proofs.Search.OpenBranch
import SequentCalculus.Proofs.CommandLine.Report
import SequentCalculus.Proofs.Sequent.Multiset
import SequentCalculus.Proofs.Sequent.Applicable
import SequentCalculus.Proofs.ProofState.Commute
import SequentCalculus.Proofs.Replay.Numbering
import SequentCalculus.Proofs.Reading.Injective
import SequentCalculus.Proofs.Problem
import SequentCalculus.Proofs.Sequent.Weight
import SequentCalculus.Proofs.Store.Connectives
import SequentCalculus.Proofs.Sequent.AxiomTest
