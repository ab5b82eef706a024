import Arena0.Negotiation
import Arena0.Activation
import Arena0.Binding
import Arena0.Trace
import Arena0.Effects
import Arena0.Status
import Arena0.Agreement
import Arena0.OrdMap
import Arena0.Receipt
import Arena0.State
import Arena0.Dispatch
import Arena0.Lanes
import Arena0.Recovery
import Arena0.Reserve
import Arena0.Encoding
import Arena0.ExecError
import Arena0.Actor
import Arena0.Host
import Arena0.Chain
import Arena0.Committed
import Arena0.Ledger
import Arena0.HostInvariant
import Arena0.Publication
import Arena0.ReferenceHost
import Arena0.Signing
import Arena0.Session
import Arena0.StepAgreement
import Arena0.Acknowledgement
import Arena0.DirectDelivery
import Arena0.Handshake
import Arena0.Catchup
import Arena0.BorshCanonical
import Arena0.ReceiptBytes
import Arena0.Conclusion
import Arena0.Emission
import Arena0.Noninterference
import Arena0.BorshBounds
import Arena0.DurableState
import Arena0.Envelope
import Arena0.Projection
import Arena0.Records
import Arena0.Reopening
import Arena0.Admission
import Arena0.Requests
import Arena0.RequestInvariant
import Arena0.Replay
import Arena0.HonestReplay
import Arena0.ReceiptConsistency
import Arena0.FrameCodec
import Arena0.Callouts
import Arena0.Timers
import Arena0.TimerCommit
import Arena0.OwnMessages
import Arena0.ReceiptIdentity
import Arena0.ReceiptImports
import Arena0.Blobs
import Arena0.BlobStaging
import Arena0.BlobFiles
import Arena0.Ballots
import Arena0.TreeHash
import Arena0.VerifiedTransfer
import Arena0.Certificates
import Arena0.ParticipantOrder
import Arena0.CommitReveal
import Arena0.JointRandomness
import Arena0.WireCodec
import Arena0.FetchFrames
import Arena0.Announcements
import Arena0.LastWriter
import Arena0.Books
import Arena0.CumulativeSum
import Arena0.Permutation
import Arena0.PrefixResolution
import Arena0.StateMemory
import Arena0.VickreyAuction
import Arena0.Sanitize
