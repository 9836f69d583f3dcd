import ServalMesh.Route.Visits
import ServalMesh.Route.ScoreRuns
import ServalMesh.Overlay.Enumeration
import ServalMesh.Overlay.HeaderRoundTrip
import ServalMesh.Overlay.FixedWidth
import ServalMesh.Overlay.PacketAddresses
import ServalMesh.Msp.FlowControl
import ServalMesh.Msp.Closing
import ServalMesh.Rhizome.ManifestRoundTrip
import ServalMesh.Rhizome.ManifestInspect
import ServalMesh.Rhizome.SyncNotice
import ServalMesh.Rhizome.SyncSafety
import ServalMesh.Rhizome.SyncRuns
import ServalMesh.Util.Strbuf
import ServalMesh.Radio.Reassembly
import ServalMesh.Util.AlarmQueues
import ServalMesh.Rhizome.JournalFetch
import ServalMesh.Rhizome.FetchBlocks
import ServalMesh.Keyring.RoundTrip
import ServalMesh.Keyring.RotbufPlain
import ServalMesh.Meshms.Iteration
import ServalMesh.Meshms.ReadBack
import ServalMesh.Meshms.PackedNumbers
import ServalMesh.Mdp.Isolation
import ServalMesh.Mdp.Receive
import ServalMesh.Keyring.Mapping
import ServalMesh.Keyring.Locking
import ServalMesh.Conf.File
import ServalMesh.Conf.Match
import ServalMesh.Rhizome.Interest
import ServalMesh.Vomp.CallTable
import ServalMesh.Vomp.Audio
import ServalMesh.Http.Ranges
import ServalMesh.Util.Numbers
import ServalMesh.Util.Limit
