import FlowLint.Main
import FlowLint.Path.Encoding
import FlowLint.Diagnostic.Encoding
import FlowLint.Proofs.Diagnostic.Lint
import FlowLint.Proofs.Conformance.Machines
import FlowLint.Proofs.Conformance.Anchors
import FlowLint.Proofs.Conformance.Parts
import FlowLint.Proofs.Conformance.Differences
import FlowLint.Proofs.Machine.Fields
import FlowLint.Proofs.Machine.Scopes
import FlowLint.Proofs.Machine.Isolation
import FlowLint.Proofs.Machine.References
import FlowLint.Proofs.Diagnostic.Placement
import FlowLint.Proofs.Machine.Runs
import FlowLint.Proofs.Diagnostic.Positions
import FlowLint.Proofs.Diagnostic.Output
import FlowLint.Proofs.CommandLine.Runs
import FlowLint.Proofs.Machine.Order
import FlowLint.Proofs.Json.Faults
import FlowLint.Proofs.Text.Reader
import FlowLint.Proofs.Diagnostic.Malformed
import FlowLint.Proofs.Conformance.Exact
import FlowLint.Proofs.Diagnostic.Messages
import FlowLint.Proofs.Text.Lines
import FlowLint.Proofs.CommandLine.Lines
import FlowLint.Proofs.Machine.ChoiceRules
import FlowLint.Proofs.Locate.Descent
import FlowLint.Proofs.Locate.Locality
import FlowLint.Proofs.Locate.Safety
import FlowLint.Proofs.Text.Boundaries
import FlowLint.Proofs.Machine.Blocks
import FlowLint.Proofs.Machine.Untyped
import FlowLint.Proofs.Machine.Distinct
import FlowLint.Proofs.Conformance.Unrolled
import FlowLint.Proofs.Path.Encoding
