import Bluespec.Checker
import Bluespec.Config.Text
import Bluespec.Proofs.Termination
import Bluespec.Proofs.ScopeFrame
import Bluespec.Proofs.UniverseSync
import Bluespec.Proofs.Exposure
import Bluespec.Proofs.TypeNames
import Bluespec.Proofs.FunctionTypes
import Bluespec.Proofs.Constraints
import Bluespec.Proofs.FailedAnalysis
import Bluespec.Proofs.Blocks
import Bluespec.Proofs.ImportPolicy
import Bluespec.Proofs.FreshNames
import Bluespec.Proofs.Trackers
import Bluespec.Proofs.Diagnosis
import Bluespec.Proofs.Calls
import Bluespec.Proofs.Visibility
import Bluespec.Proofs.Synonyms
import Bluespec.Proofs.Expansion
import Bluespec.Proofs.Constructors
import Bluespec.Proofs.Sorts
import Bluespec.Proofs.Encoding
import Bluespec.Proofs.Reporting
import Bluespec.Proofs.Kinds
import Bluespec.Proofs.SynonymCycles
import Bluespec.Proofs.Merging
import Bluespec.Proofs.Recognizers
import Bluespec.Proofs.MergeOrder
import Bluespec.Proofs.Reindexing
import Bluespec.Proofs.SpecPaths
import Bluespec.Proofs.Storage
import Bluespec.Proofs.TablesAgree
import Bluespec.Proofs.VisitOrder
import Bluespec.Proofs.UniqueReading
import Bluespec.Proofs.Numerals
