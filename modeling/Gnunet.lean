import Gnunet.Lockmanager.Exclusion
import Gnunet.Core.KeyAge
import Gnunet.Core.TypeMap
import Gnunet.Util.ListedNetworks
import Gnunet.Util.SchedulerRuns
import Gnunet.Stream.Acknowledgement
import Gnunet.Stream.HostileData
import Gnunet.Regex.Strides
import Gnunet.Regex.Construction
import Gnunet.Util.MessageTokenizer
import Gnunet.Util.HeapWalk
import Gnunet.Util.MetaDataEquality
import Gnunet.Util.PeerRuns
import Gnunet.Util.BandwidthCarry
import Gnunet.Fragmentation.Renaming
import Gnunet.Fragmentation.Acknowledgement
import Gnunet.Fragmentation.AckDelay
import Gnunet.Fs.TreeEncoder
import Gnunet.Fs.UriEquality
import Gnunet.Fs.DirectoryListing
import Gnunet.Fs.DownloadProgress
import Gnunet.Fs.RequestPlan
import Gnunet.Mesh.TreeRuns
import Gnunet.Dht.RoutingTable
import Gnunet.Dht.FindPeer
import Gnunet.Hello.Expiration
import Gnunet.Ats.Addresses
import Gnunet.Datastore.SpaceManagement
