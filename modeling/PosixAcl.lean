import PosixAcl.Main
import PosixAcl.Host.Backend
import PosixAcl.Settings
import PosixAcl.Proofs.Text.Utf8
import PosixAcl.Proofs.Entry.Reader
import PosixAcl.Proofs.Acl.Table
import PosixAcl.Proofs.Acl.Completion
import PosixAcl.Proofs.Acl.WellFormed
import PosixAcl.Proofs.Acl.Inheritance
import PosixAcl.Proofs.Acl.Merging
import PosixAcl.Proofs.Store.Location
import PosixAcl.Proofs.Store.Tree
import PosixAcl.Proofs.Namespace.Calls
import PosixAcl.Proofs.Namespace.Reachable
import PosixAcl.Proofs.Namespace.Legible
import PosixAcl.Proofs.Namespace.Merging
import PosixAcl.Proofs.Namespace.Shape
import PosixAcl.Proofs.Namespace.Changes
import PosixAcl.Proofs.Output.Unlimited
import PosixAcl.Proofs.Tool.Session
import PosixAcl.Proofs.Tool.Invariants
import PosixAcl.Proofs.Tool.RecursiveChange
import PosixAcl.Proofs.Tool.Restore
import PosixAcl.Proofs.Entry.Grammar
import PosixAcl.Proofs.Entry.RoundTrip
import PosixAcl.Proofs.Acl.Repetition
import PosixAcl.Proofs.Namespace.Repetition
import PosixAcl.Proofs.Acl.Mode
import PosixAcl.Proofs.Host.Locate
import PosixAcl.Proofs.Tool.Repetition
import PosixAcl.Proofs.Host.Agreement
import PosixAcl.Proofs.Tool.Visits
import PosixAcl.Proofs.Walk.PreOrder
import PosixAcl.Proofs.Tool.CommandLine
import PosixAcl.Proofs.Tool.Calls
import PosixAcl.Proofs.Tool.Failures
import PosixAcl.Proofs.Namespace.Walk
import PosixAcl.Proofs.Tool.RecursiveListing
import PosixAcl.Proofs.Namespace.Locality
import PosixAcl.Proofs.Tool.Ownership
import PosixAcl.Proofs.Output.Limit
import PosixAcl.Proofs.Tool.Steps
import PosixAcl.Proofs.Tool.Limit
import PosixAcl.Proofs.Tool.Truncation
import PosixAcl.Proofs.Tool.Silence
import PosixAcl.Proofs.Walk.Trees
import PosixAcl.Proofs.Host.Descent
import PosixAcl.Proofs.Host.Files
import PosixAcl.Proofs.Host.Walk
import PosixAcl.Proofs.Host.Containment
import PosixAcl.Proofs.Acl.Candidate
import PosixAcl.Proofs.Acl.Verdict
import PosixAcl.Proofs.Acl.Effect
import PosixAcl.Proofs.Namespace.Headers
import PosixAcl.Proofs.Tool.Listing
import PosixAcl.Proofs.Acl.Relations
import PosixAcl.Proofs.Namespace.Removal
import PosixAcl.Proofs.Acl.Rearrangement
import PosixAcl.Proofs.Text.Decoding
import PosixAcl.Proofs.Tool.Invocation
import PosixAcl.Proofs.Tool.Arguments
import PosixAcl.Proofs.Walk.Cursors
import PosixAcl.Proofs.Walk.Recursion
import PosixAcl.Proofs.Acl.PermissionBits
import PosixAcl.Proofs.Output.Messages
import PosixAcl.Proofs.Store.Spelling
import PosixAcl.Proofs.Namespace.Spelling
import PosixAcl.Proofs.Namespace.Propagation
import PosixAcl.Proofs.Settings
import PosixAcl.Proofs.Text.Escapes
import PosixAcl.Proofs.Tool.Error
