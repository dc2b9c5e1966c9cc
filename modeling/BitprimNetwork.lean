import BitprimNetwork.Basic
import BitprimNetwork.Connections
import BitprimNetwork.ConnectionsThreads
import BitprimNetwork.Linearizability
import BitprimNetwork.ConnectionsProgress
import BitprimNetwork.Wire
import BitprimNetwork.ReadCycle
import BitprimNetwork.Segmentation
import BitprimNetwork.Frames
import BitprimNetwork.ProxyThreads
import BitprimNetwork.Lifecycle
import BitprimNetwork.StopSequence
import BitprimNetwork.Sends
import BitprimNetwork.SerialSends
import BitprimNetwork.Connection
