import Surmise.Graph.Bundled
import Surmise.Log
import Surmise.Project.Settings
import Surmise.Proofs.ArgumentFlows
import Surmise.Proofs.CallChain.PassCount
import Surmise.Proofs.Cancellation
import Surmise.Proofs.ClassHierarchy
import Surmise.Proofs.Comparison
import Surmise.Proofs.Declarations
import Surmise.Proofs.EvaluatedTexts
import Surmise.Proofs.Graph.Document
import Surmise.Proofs.MemberNames
import Surmise.Proofs.Project.Contents
import Surmise.Proofs.Project.DeepestFile
import Surmise.Proofs.Project.ModuleListing
import Surmise.Proofs.Receivers
import Surmise.Proofs.Reevaluation
import Surmise.Proofs.SearchBudget
import Surmise.Proofs.Surface.Nesting
import Surmise.Proofs.Surface.Numeral
import Surmise.Proofs.Text.Escape
import Surmise.Proofs.UniqueAddresses
import Surmise.Proofs.ValueInvariant
import Surmise.Store.Document
import Surmise.Tree.Reader
import Surmise.Tree.Writer
