import SoundLink.Command.Memory
import SoundLink.Device
import SoundLink.Device.Network
import SoundLink.Mac.Dispatch
import SoundLink.Mac.Script
import SoundLink.Main
import SoundLink.Progress
import SoundLink.Proofs.FixedPoint
import SoundLink.Proofs.Correlation
import SoundLink.Proofs.PreambleShape
import SoundLink.Proofs.PeakOffset
import SoundLink.Proofs.CleanLink
import SoundLink.Proofs.LineCode
import SoundLink.Proofs.Slicing
import SoundLink.Proofs.PreambleSearch
import SoundLink.Proofs.FrameReading
import SoundLink.Proofs.Chunks
import SoundLink.Proofs.LinkRoundTrip
import SoundLink.Proofs.Resynchronization
import SoundLink.Proofs.Reassembly
import SoundLink.Proofs.Arrivals
import SoundLink.Proofs.LossyChannel
import SoundLink.Proofs.Acknowledgement
import SoundLink.Proofs.Delivery
import SoundLink.Proofs.Abandonment
import SoundLink.Proofs.ExactlyOnce
import SoundLink.Proofs.RetryBudget
import SoundLink.Proofs.Interleaving
import SoundLink.Proofs.Traffic
import SoundLink.Proofs.Pacing
import SoundLink.Proofs.Provenance
import SoundLink.Proofs.Reference
import SoundLink.Proofs.SelfContained
import SoundLink.Proofs.Recovery
import SoundLink.Proofs.WindowedPower
import SoundLink.Proofs.CarrierSense
import SoundLink.Proofs.Echo
import SoundLink.Proofs.PeakEstimate
import SoundLink.Proofs.Headroom
import SoundLink.Proofs.OutputStream
import SoundLink.Proofs.Intake
import SoundLink.Proofs.Integration
import SoundLink.Proofs.Alignment
import SoundLink.Proofs.PolynomialDivision
import SoundLink.Proofs.DamageDetection
import SoundLink.Proofs.BitErrors
import SoundLink.Proofs.FrameLayout
import SoundLink.Proofs.RunLength
import SoundLink.Proofs.Squelch
import SoundLink.Proofs.WaveRoundTrip
import SoundLink.Proofs.SampleDepth
import SoundLink.Proofs.RegisterBounds
import SoundLink.Proofs.Replay
import SoundLink.Proofs.Mixing
import SoundLink.Proofs.SavedConfig
import SoundLink.Proofs.Overrides
