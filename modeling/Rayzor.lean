import Rayzor.Library.OrdMap
import Rayzor.Library.Transition
import Rayzor.Library.Binary
import Rayzor.Library.Graph
import Rayzor.Interp.Locality
import Rayzor.Passes.ConstantFolding
import Rayzor.Passes.ValueNumbering
import Rayzor.Passes.ControlFlow
import Rayzor.Passes.GlobalLoadCaching
import Rayzor.Bundle.KeepsReachable
import Rayzor.Osr.Continues
import Rayzor.Parser.LineNumbers
import Rayzor.Parser.Partition
import Rayzor.Json.Printed
import Rayzor.Tiering.Exclusion
import Rayzor.Channels.Wakeups
import Rayzor.Pool.Disjoint
import Rayzor.Arrays.Refinement
import Rayzor.Parser.Ladder
import Rayzor.Strings.Runs
import Rayzor.Strings.Joined
import Rayzor.Closures.Identity
import Rayzor.Json.Delivered
import Rayzor.Views.Agreement
import Rayzor.Library.Discovery
import Rayzor.Dependencies.Analysis
import Rayzor.Gguf.Files
import Rayzor.Moves.Exact
import Rayzor.Quant.Agreement
import Rayzor.Lifetimes.Runs
import Rayzor.Captures.Exact
import Rayzor.Captures.Reported
import Rayzor.Analysis.ExactTree
import Rayzor.Recursion.Components
import Rayzor.Library.Acyclic
import Rayzor.Inits.DependenciesFirst
import Rayzor.Parser.ConditionGrammar
import Rayzor.Parser.LexedLiterals
import Rayzor.Scopes.Runs
import Rayzor.Rpkg.Total
import Rayzor.Switches.Exhaustiveness
import Rayzor.CStructs.Faithful
import Rayzor.Interp.Renaming
import Rayzor.Library.Rounding
import Rayzor.Passes.IntQuotient
import Rayzor.Passes.Quotients
import Rayzor.Ssa.Reads
import Rayzor.Library.Saturation
import Rayzor.Passes.TripCounts
import Rayzor.Passes.CountedLoops
import Rayzor.Passes.EscapeAnalysis
import Rayzor.Passes.CopyPropagation
import Rayzor.Passes.Renamings
import Rayzor.Passes.DeadCode
import Rayzor.Passes.Folded
import Rayzor.Passes.Cleanups
