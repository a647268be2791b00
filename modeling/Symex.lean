import Symex.Config
import Symex.Error
import Symex.Expr.Basic
import Symex.Expr.Draft
import Symex.Expr.Encoding
import Symex.Expr.Mint
import Symex.Expr.Printer
import Symex.Memory.Event
import Symex.Memory.FirstUses
import Symex.Memory.Instr
import Symex.Memory.Order
import Symex.Memory.Relation
import Symex.Memory.Session
import Symex.Memory.Symbols
import Symex.Memory.Values
import Symex.Memory.Zone
import Symex.Operator
import Symex.Path
import Symex.Proofs.Interleaving
import Symex.Proofs.JoinSoundness
import Symex.Refusal
import Symex.Scalar
import Symex.Scope.Conditional
import Symex.Scope.Loop
import Symex.Scope.Phase
import Symex.Session.Eval
import Symex.Session.Form
import Symex.Session.Run
import Symex.Session.State
import Symex.Smt.Model
import Symex.Smt.Script
import Symex.Smt.Solver
import Symex.Smt.Sort
import Symex.Smt.Term
import Symex.Smt.Term.Equality
import Symex.Smt.Text
import Symex.Smt.Value
import Symex.Smt.Word
import Symex.Store
import Symex.Table
import Symex.Tracked
import Symex.Ty
import Symex.Proofs.SequentialTerms
import Symex.Proofs.Agreement
import Symex.Proofs.SessionRuns
import Symex.Proofs.Coherence
import Symex.Proofs.Pruning
import Symex.Proofs.WriteBack
import Symex.Proofs.SessionFrames
import Symex.Proofs.SessionVersions
import Symex.Proofs.SessionSharing
import Symex.Proofs.LoopEquivalence
import Symex.Proofs.WellSorted
import Symex.Proofs.PathConstraints
import Symex.Proofs.EncoderAgreement
import Symex.Proofs.ClosedScripts
import Symex.Proofs.EventSets
import Symex.Proofs.AtomPartition
import Symex.Proofs.Candidates
import Symex.Proofs.Conflicts
import Symex.Proofs.SortPreservation
import Symex.Proofs.ArrayEquality
import Symex.Proofs.SortSoundness
import Symex.Proofs.Typing
import Symex.Proofs.Flattening
import Symex.Proofs.ArmIsolation
import Symex.Proofs.TypeTags
import Symex.Proofs.SessionTyping
import Symex.Proofs.VersionBounds
import Symex.Proofs.Fragment
import Symex.Proofs.Support
import Symex.Proofs.FreeVariables
import Symex.Proofs.Dependencies
import Symex.Proofs.ScopeFrames
import Symex.Proofs.ConditionalCalls
import Symex.Proofs.ScopeLifecycle
import Symex.Proofs.TermReading
import Symex.Proofs.SymbolTokens
import Symex.Proofs.InfixReading
import Symex.Proofs.SymbolRequests
import Symex.Proofs.TwosComplement
import Symex.Proofs.ScriptFormula
import Symex.Proofs.ZoneAlgebra
