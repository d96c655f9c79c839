import Gait.Session
import Gait.Proofs.World.OrderIndependence
import Gait.Proofs.World.LifeCycle
import Gait.Proofs.World.Placing
import Gait.Proofs.Sampling.LastSample
import Gait.Proofs.Features.Finite
import Gait.Proofs.Features.Idle
import Gait.Proofs.Clips.Fallback
import Gait.Proofs.Exact.Retargeting
import Gait.Proofs.Skeletons.Growth
import Gait.Proofs.Tracks.Keys
import Gait.Proofs.Tracks.Missing
import Gait.Proofs.Exact.Cubics
import Gait.Proofs.Features.Slope
import Gait.Proofs.Sampling.Times
import Gait.Proofs.Features.Zero
import Gait.Proofs.Features.Telescoping
import Gait.Proofs.Features.Flips
import Gait.Proofs.Clips.Ends
import Gait.Proofs.Axes.Bounds
import Gait.Proofs.World.Resolution
import Gait.Proofs.World.Logging
