import Introspect.Fingerprint
import Introspect.Workspace
import Introspect.Proofs.Grouping
import Introspect.Proofs.Choice
import Introspect.Proofs.Recording
import Introspect.Proofs.Consistency
import Introspect.Proofs.Execution
import Introspect.Proofs.Acyclicity
import Introspect.Proofs.Reachability
import Introspect.Proofs.Lineage
import Introspect.Proofs.Routes
import Introspect.Proofs.Completeness
import Introspect.Proofs.Runs
import Introspect.Proofs.Assignability
import Introspect.Proofs.Search
import Introspect.Proofs.Covariance
import Introspect.Proofs.Substitution
import Introspect.Proofs.Composition
import Introspect.Proofs.Scoping
import Introspect.Proofs.Refinement
import Introspect.Proofs.Erasure
import Introspect.Proofs.FieldRoundTrip
import Introspect.Proofs.Visits
import Introspect.Proofs.Sifting
import Introspect.Proofs.Upcasts
import Introspect.Proofs.Signatures
import Introspect.Proofs.MemberTypes
import Introspect.Proofs.Capture
import Introspect.Proofs.TypeAgreement
import Introspect.Proofs.Inheritance
import Introspect.Proofs.Extension
import Introspect.Proofs.Transparency
import Introspect.Proofs.Effects
import Introspect.Proofs.NameIndex
import Introspect.Proofs.Reopening
import Introspect.Proofs.Congruence
import Introspect.Proofs.Stops
import Introspect.Proofs.Listing
import Introspect.Proofs.Agreement
import Introspect.Proofs.Independence
import Introspect.Proofs.Scripts
import Introspect.Proofs.Ordering
import Introspect.Proofs.Confinement
import Introspect.Proofs.Outcomes
import Introspect.Proofs.Reporting
import Introspect.Proofs.Arguments
import Introspect.Proofs.FailedUse
import Introspect.Proofs.Options
import Introspect.Proofs.LetterCase
import Introspect.Proofs.Lookups
import Introspect.Proofs.Rivals
import Introspect.Proofs.GetterChoice
import Introspect.Proofs.SetterChoice
import Introspect.Proofs.DiscoveryOrder
import Introspect.Proofs.Traversal
import Introspect.Proofs.Specificity
import Introspect.Proofs.Stability
import Introspect.Proofs.CaseFolding
import Introspect.Proofs.AccessorNames
import Introspect.Proofs.Mixing
import Introspect.Proofs.Termination
import Introspect.Proofs.Validity
import Introspect.Proofs.Mismatch
