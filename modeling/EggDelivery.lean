import EggDelivery.Library.Fips180
import EggDelivery.Hash.Sha256
import EggDelivery.Hash.Transform
import EggDelivery.Hash.Streaming
import EggDelivery.Chunk.Codec
import EggDelivery.Manager.Session
import EggDelivery.Manager.FileManager
import EggDelivery.Manager.Runs
import EggDelivery.Manager.Completion
import EggDelivery.Chunk.ReadAndChunk
import EggDelivery.Manager.EndToEnd
import EggDelivery.Protocol.OuterPacket
import EggDelivery.Protocol.Discovery
import EggDelivery.Network.TransferLogic
import EggDelivery.Network.LoopStep
import EggDelivery.Network.Family
import EggDelivery.Network.ReceiveLoop
import EggDelivery.Library.Segments
import EggDelivery.Network.Stream
import EggDelivery.Library.LexicalPath
import EggDelivery.Network.Containment
import EggDelivery.Library.CrcDivision
import EggDelivery.Chunk.Crc32
import EggDelivery.Chunk.Corruption
import EggDelivery.Chunk.Partition
import EggDelivery.Manager.SessionRuns
import EggDelivery.Manager.Progress
import EggDelivery.Manager.Cache
import EggDelivery.Library.Independent
import EggDelivery.Manager.Independence
import EggDelivery.Manager.Frames
import EggDelivery.Manager.Directories
import EggDelivery.Chunk.WordSize
import EggDelivery.Chunk.ReusedObject
import EggDelivery.Chunk.ChunkCount
import EggDelivery.Chunk.ReadPasses
import EggDelivery.Network.Sending
import EggDelivery.Protocol.DeviceStrings
import EggDelivery.Library.OrderedWalk
import EggDelivery.Manager.Cleanup
import EggDelivery.Manager.Activity
import EggDelivery.Network.Bookkeeping
import EggDelivery.Library.Collector
import EggDelivery.Manager.Tray
import EggDelivery.Network.Assemblers
import EggDelivery.Library.Rounds
import EggDelivery.Network.LoopWrites
import EggDelivery.Network.AtLeastOnce
import EggDelivery.Network.MixedStream
import EggDelivery.Network.StreamSafety
import EggDelivery.Network.Connection
import EggDelivery.Library.Refinement
import EggDelivery.Manager.Store
import EggDelivery.Library.Register
import EggDelivery.Protocol.DeviceTable
import EggDelivery.Chunk.PayloadErrors
import EggDelivery.Library.PrefixCode
import EggDelivery.Network.Decodable
import EggDelivery.Network.Completing
import EggDelivery.Network.Damage
import EggDelivery.Network.Restarts
import EggDelivery.Library.Vacancies
import EggDelivery.Network.Recovery
