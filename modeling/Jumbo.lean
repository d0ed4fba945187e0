import Jumbo.Lib.Machine
import Jumbo.Lib.Quorum
import Jumbo.Lib.LeaderLoops
import Jumbo.Lib.BroadcastLog
import Jumbo.Lib.Threshold
import Jumbo.Lib.SortedBuffer
import Jumbo.Lib.MerkleTree
import Jumbo.Lib.MerklePath
import Jumbo.Lib.ByteStream
import Jumbo.Lib.Gathering
import Jumbo.Lib.RouterChain
import Jumbo.Lib.RouterRounds
import Jumbo.Lib.RouterProgress
import Jumbo.Lib.RouterDrains
import Jumbo.Lib.RouterBounds
import Jumbo.Lib.RelayVotes
import Jumbo.Lib.Shots
import Jumbo.Crypto.Signature
import Jumbo.Crypto.Batch
import Jumbo.Struct
import Jumbo.BinaryAgreement.BiasedValidity
import Jumbo.BinaryAgreement.Speaking
import Jumbo.BinaryAgreement.Progress
import Jumbo.ReliableBroadcast.Completion
import Jumbo.WeakBroadcast.Sequencing
import Jumbo.WeakBroadcast.Validity
import Jumbo.SignatureFreeMVBA.Agreement
import Jumbo.CommonSubset.Validity
import Jumbo.CommonSubset.Bitmaps
import Jumbo.CertifiedBroadcast.Arrival
import Jumbo.CertifiedBroadcast.Consistency
import Jumbo.CertifiedBroadcast.Buffering
import Jumbo.CertifiedBroadcast.CallHelp
import Jumbo.CertifiedBroadcast.Paybacks
import Jumbo.SimpleHotStuff.Arrival
import Jumbo.SimpleHotStuff.Commits
import Jumbo.Ordering.Forward
import Jumbo.Ordering.Soundness
import Jumbo.Ordering.Arrivals
import Jumbo.Ordering.Aggregate
import Jumbo.Ordering.Proposal
import Jumbo.Ordering.WakeUp
import Jumbo.Ordering.Consistency
import Jumbo.DumboMVBA.Availability
import Jumbo.DumboMVBA.Reconstruction
import Jumbo.DumboMVBA.Paths
import Jumbo.DumboMVBA.RoundTrip
import Jumbo.CodedBroadcast.Decoding
import Jumbo.CodedBroadcast.RoundChange
import Jumbo.CodedBroadcast.Payloads
import Jumbo.SpeedingMVBA.Network
import Jumbo.SpeedingMVBA.Labels
import Jumbo.SpeedingMVBA.NextLoop
import Jumbo.SpeedingMVBA.Certificates
import Jumbo.SpeedingMVBA.Binding
import Jumbo.SpeedingMVBA.Abandon
import Jumbo.SpeedingMVBA.Halts
import Jumbo.SpeedingMVBA.Checked
import Jumbo.SpeedingMVBA.Liveness
import Jumbo.MultiShot.Speeding
import Jumbo.MultiShot.SignatureFree
import Jumbo.Network.Framing
import Jumbo.Network.Sender
import Jumbo.Network.Link
import Jumbo.Routing.Rounds
import Jumbo.Routing.Loops
import Jumbo.Routing.Node
import Jumbo.Routing.Lossless
import Jumbo.TxPool.Blocks
import Jumbo.Thresholds
