import IoTFS.Core.Machine
import IoTFS.Core.Progress
import IoTFS.Core.Registers
import IoTFS.Core.DirTree
import IoTFS.Core.Exec
import IoTFS.Core.PathText
import IoTFS.Oic.Resource
import IoTFS.Oic.Conversion
import IoTFS.Oic.File
import IoTFS.Oic.Directory
import IoTFS.Oic.Discovery
import IoTFS.Oic.Walk
import IoTFS.Oic.Moves
import IoTFS.Oic.Mount
import IoTFS.Oic.FileThreads
import IoTFS.Oic.StubProtocol
import IoTFS.Oic.ResourceLock
import IoTFS.Oic.SharedStub
import IoTFS.Oic.Network
import IoTFS.Oic.Configuration
import IoTFS.Oic.Lifecycle
import IoTFS.Demo.LightResource
import IoTFS.Discovery.Routing
import IoTFS.Discovery.Layout
import IoTFS.Discovery.Demand
import IoTFS.Discovery.Refinement
import IoTFS.Discovery.CastSafety
import IoTFS.Discovery.OrderIndependence
import IoTFS.Discovery.Frame
import IoTFS.Discovery.AllOrNothing
import IoTFS.Discovery.Names
import IoTFS.Discovery.Additions
import IoTFS.Discovery.CalmRuns
import IoTFS.Discovery.PathBuild
import IoTFS.Discovery.Readd
import IoTFS.Discovery.Predicted
import IoTFS.Files.Calls
import IoTFS.Files.Permission
import IoTFS.Files.ReturnCodes
import IoTFS.Files.Coherence
import IoTFS.Files.Race
import IoTFS.Files.Encoding
import IoTFS.Files.Isolation
import IoTFS.Files.Conversions
import IoTFS.Files.LatestType
import IoTFS.Files.RoundTrip
import IoTFS.Files.Numerals
import IoTFS.Files.Secrecy
import IoTFS.Files.Linear
import IoTFS.Devices.Placement
import IoTFS.Devices.Refinement
import IoTFS.Devices.Light
import IoTFS.Devices.Lamp
import IoTFS.Requests.Matching
import IoTFS.Requests.Wakeup
import IoTFS.Requests.Refusal
import IoTFS.Requests.Standing
import IoTFS.Requests.Serial
import IoTFS.Requests.Completion
import IoTFS.Requests.Jobs
import IoTFS.Requests.Sharing
import IoTFS.Requests.Returns
import IoTFS.Plugins.Manager
import IoTFS.Plugins.FaultIsolation
import IoTFS.Plugins.Singleton
import IoTFS.Startup.Configuration
import IoTFS.Startup.Lifecycle
