import JointModel.Workbench
import JointModel.Proofs.Registry.Materialization
import JointModel.Proofs.Registry.Agreement
import JointModel.Proofs.Registry.IntegerDomains
import JointModel.Proofs.Registry.Retries
import JointModel.Proofs.Equalities
import JointModel.Proofs.Session.WellUsed
import JointModel.Proofs.Session.LeakCheck
import JointModel.Proofs.Session.Rejections
import JointModel.Proofs.Session.Aliases
import JointModel.Proofs.Listing.Comments
import JointModel.Proofs.Model.Ownership
import JointModel.Proofs.Model.Releases
import JointModel.Proofs.Model.FailedCreation
import JointModel.Proofs.Model.Mirroring
import JointModel.Proofs.Model.Interleaving
import JointModel.Proofs.Model.Constancy
import JointModel.Proofs.Model.Reports
import JointModel.Proofs.Registry.Indicators
import JointModel.Proofs.Model.Outcomes
import JointModel.Proofs.Model.Values
import JointModel.Proofs.Model.Dispatch
import JointModel.Proofs.Model.MethodNames
import JointModel.Proofs.Session.Untouched
import JointModel.Proofs.Formulation.Cycles
