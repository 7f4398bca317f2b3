import LightWire.BlockView
import LightWire.Buffer
import LightWire.Proofs.Run
import LightWire.Proofs.Stepwise
import LightWire.Sha256
import LightWire.Proofs.Items
import LightWire.Proofs.Layout
import LightWire.Proofs.Acceptance
import LightWire.Proofs.RoundTrip
import LightWire.Proofs.Stream
import LightWire.Proofs.Sequential
import LightWire.Proofs.Stability
import LightWire.Proofs.Cuts
import LightWire.Proofs.Limit
import LightWire.Proofs.Asking
import LightWire.Proofs.Binding
import LightWire.Proofs.Inclusion
import LightWire.Proofs.Commitment
import LightWire.Proofs.Progress
import LightWire.Proofs.Noninterference
import LightWire.Proofs.BufferRuns
import LightWire.Proofs.DecoderRuns
import LightWire.Proofs.Refusals
import LightWire.Proofs.Fields
import LightWire.Proofs.CursorRuns
import LightWire.Proofs.Tags
import LightWire.Proofs.Bytewise
import LightWire.Proofs.Completion
import LightWire.Proofs.Places
import LightWire.Proofs.Reconstruction
import LightWire.Proofs.Composition
import LightWire.Proofs.HeaderLayouts
import LightWire.Proofs.References
import LightWire.Proofs.Stops
import LightWire.Proofs.Mirror
import LightWire.Proofs.TextOrder
