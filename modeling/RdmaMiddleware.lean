import RdmaMiddleware.TransitionSystem
import RdmaMiddleware.CircularMemory
import RdmaMiddleware.CInt
import RdmaMiddleware.MidHashmap
import RdmaMiddleware.MidHashmapRefinement
import RdmaMiddleware.UnlockQueue
import RdmaMiddleware.UnlockQueueRuns
import RdmaMiddleware.LogBuffer
import RdmaMiddleware.RingReservation
import RdmaMiddleware.ReservationRuns
import RdmaMiddleware.Chain
import RdmaMiddleware.ReaderQueues
import RdmaMiddleware.StoredLogs
import RdmaMiddleware.Delivery
import RdmaMiddleware.DirtyTable
import RdmaMiddleware.Forwarding
import RdmaMiddleware.Connection
import RdmaMiddleware.ConnectionLists
import RdmaMiddleware.ClientWork
import RdmaMiddleware.HeadThreads
import RdmaMiddleware.Loops
import RdmaMiddleware.ReaderCalls
import RdmaMiddleware.HeadCalls
import RdmaMiddleware.RoundTrip
import RdmaMiddleware.AddressTable
import RdmaMiddleware.Bookkeeping
import RdmaMiddleware.ByteStream
import RdmaMiddleware.Handshake
import RdmaMiddleware.OneSided
import RdmaMiddleware.Framing
import RdmaMiddleware.TwoSided
import RdmaMiddleware.RemoteWrites
import RdmaMiddleware.ReadOneLog
import RdmaMiddleware.RingCursor
import RdmaMiddleware.FrameBounds
import RdmaMiddleware.ConfigParsing
import RdmaMiddleware.CallResults
import RdmaMiddleware.Publication
import RdmaMiddleware.CallThreads
import RdmaMiddleware.RegionBounds
import RdmaMiddleware.TableRuns
import RdmaMiddleware.RemovedKeys
import RdmaMiddleware.RingReads
import RdmaMiddleware.LinkedLists
import RdmaMiddleware.WorkQueue
import RdmaMiddleware.WorkList
import RdmaMiddleware.BitMixing
import RdmaMiddleware.MurmurHash
import RdmaMiddleware.CompletionChannels
import RdmaMiddleware.ReceivePool
import RdmaMiddleware.CompletionFlow
import RdmaMiddleware.CompletionRuns
import RdmaMiddleware.TransportResources
import RdmaMiddleware.ConnectRounds
import RdmaMiddleware.LateConnections
