import FishRpc.Lib.LittleEndian
import FishRpc.Lib.Decimal
import FishRpc.Lib.SizeT
import FishRpc.Lib.CString
import FishRpc.Lib.Run
import FishRpc.Lib.Ownership
import FishRpc.Lib.Sorted
import FishRpc.Lib.Coder
import FishRpc.Lib.Interleaving
import FishRpc.Lib.Monitor
import FishRpc.Lib.Framing
import FishRpc.Lib.EraseWalk
import FishRpc.Lib.Layout
import FishRpc.Lib.PrefixCode
import FishRpc.Lib.SelfDelimiting
import FishRpc.Lib.Noise
import FishRpc.Lib.NodeList
import FishRpc.Rpc.Impl.SeriBuf
import FishRpc.Rpc.Impl.CppType
import FishRpc.Rpc.Impl.Serializer
import FishRpc.Rpc.Lemmas.SeriBuf
import FishRpc.Rpc.Lemmas.CppType
import FishRpc.Rpc.Lemmas.Serializer
import FishRpc.Rpc.Lemmas.SerializerStream
import FishRpc.Rpc.Lemmas.SerializerReencode
import FishRpc.Rpc.Lemmas.SerializerOrder
import FishRpc.Rpc.Lemmas.SerializerSet
import FishRpc.Rpc.Lemmas.SerializerString
import FishRpc.Rpc.Lemmas.SerializerReplace
import FishRpc.Rpc.Impl.SerializerChecked
import FishRpc.Rpc.Lemmas.SerializerChecked
import FishRpc.Rpc.Lemmas.SerializerBound
import FishRpc.Rpc.Lemmas.SerializerStack
import FishRpc.Rpc.Lemmas.SerializerUnique
import FishRpc.Rpc.Impl.FindType
import FishRpc.Rpc.Lemmas.FindType
import FishRpc.Provider.Impl.RpcProvider
import FishRpc.Provider.Lemmas.RpcProvider
import FishRpc.Provider.Lemmas.RpcProviderNames
import FishRpc.Provider.Lemmas.RpcProviderSession
import FishRpc.Rpc.Impl.Protocol
import FishRpc.Rpc.Lemmas.Protocol
import FishRpc.Rpc.Lemmas.ProtocolExit
import FishRpc.Rpc.Lemmas.ProtocolDelivery
import FishRpc.Rpc.Lemmas.ProtocolReturn
import FishRpc.Rpc.Lemmas.ProtocolLength
import FishRpc.Rpc.Lemmas.ProtocolFactory
import FishRpc.Rpc.Lemmas.ProtocolSharing
import FishRpc.Rpc.Lemmas.ProtocolRecovery
import FishRpc.Rpc.Lemmas.ProtocolRoundTrip
import FishRpc.Rpc.Lemmas.ProtocolFraming
import FishRpc.Rpc.Lemmas.ProtocolStream
import FishRpc.Rpc.Impl.ProtocolAccess
import FishRpc.Rpc.Impl.ProtocolFactory
import FishRpc.Rpc.Lemmas.ProtocolAccess
import FishRpc.Net.Impl.Buffer
import FishRpc.Net.Lemmas.Buffer
import FishRpc.Net.Lemmas.BufferReceive
import FishRpc.Net.Lemmas.BufferSend
import FishRpc.Net.Lemmas.BufferResult
import FishRpc.Rpc.Impl.ProtocolManager
import FishRpc.Rpc.Lemmas.ProtocolManager
import FishRpc.Rpc.Lemmas.ProtocolMemory
import FishRpc.Rpc.Impl.SharedManager
import FishRpc.Rpc.Lemmas.SharedManager
import FishRpc.Rpc.Impl.Server
import FishRpc.Rpc.Lemmas.Interleaving
import FishRpc.Rpc.Lemmas.ReadingThreads
import FishRpc.Rpc.Lemmas.ServerErase
import FishRpc.Rpc.Lemmas.Server
import FishRpc.Rpc.Lemmas.Reception
import FishRpc.Rpc.Impl.HeartManager
import FishRpc.Rpc.Lemmas.HeartManager
import FishRpc.Rpc.Lemmas.HeartStatistics
import FishRpc.Net.Impl.Channel
import FishRpc.Net.Impl.Uring
import FishRpc.Net.Lemmas.UringInv
import FishRpc.Net.Lemmas.UringCompletion
import FishRpc.Net.Lemmas.UringStep
import FishRpc.Net.Lemmas.Uring
import FishRpc.Net.Lemmas.UringEffects
import FishRpc.Net.Lemmas.UringSlots
import FishRpc.Net.Lemmas.RecvLength
import FishRpc.Net.Lemmas.UringQueue
import FishRpc.Net.Impl.RequestQueue
import FishRpc.Net.Lemmas.RequestQueue
import FishRpc.Net.Lemmas.UringBudget
import FishRpc.Net.Lemmas.UringTask
import FishRpc.Net.Lemmas.UringSend
import FishRpc.Net.Lemmas.UringClosed
import FishRpc.Net.Lemmas.UringResult
import FishRpc.Net.Lemmas.UringAwaited
import FishRpc.Net.Lemmas.UringTurn
import FishRpc.Base.Impl.Mutex
import FishRpc.Base.Lemmas.Mutex
import FishRpc.Base.Impl.Timer
import FishRpc.Base.Lemmas.Timer
import FishRpc.Base.Lemmas.TimerOnce
import FishRpc.Base.Lemmas.TimerPeriod
import FishRpc.Base.Lemmas.TimerTick
import FishRpc.Base.Lemmas.TimerGap
import FishRpc.Base.Lemmas.TimerFate
import FishRpc.Base.Lemmas.TimerWaiting
import FishRpc.Base.Impl.TimerLoop
import FishRpc.Base.Lemmas.TimerPacing
import FishRpc.Base.Impl.TimerObject
import FishRpc.Base.Lemmas.TimerObject
import FishRpc.Base.Impl.LogThread
import FishRpc.Base.Lemmas.LogThread
import FishRpc.Base.Lemmas.LogOrder
import FishRpc.Base.Impl.LogLoop
import FishRpc.Base.Lemmas.LogLoop
import FishRpc.Base.Lemmas.LogOverflow
import FishRpc.Base.Impl.LogMutex
import FishRpc.Base.Lemmas.LogMutex
import FishRpc.Base.Impl.SafeQueue
import FishRpc.Base.Lemmas.SafeQueue
import FishRpc.Base.Impl.LogWaiter
import FishRpc.Base.Lemmas.LogWaiter
import FishRpc.Base.Impl.LogSignal
import FishRpc.Base.Lemmas.LogSignal
import FishRpc.Base.Lemmas.LogSignalAlone
import FishRpc.Base.Impl.LogStream
import FishRpc.Base.Lemmas.LogConvert
import FishRpc.Base.Lemmas.LogStream
import FishRpc.Base.Impl.LogFile
import FishRpc.Base.Lemmas.LogFileName
import FishRpc.Base.Lemmas.LogFile
import FishRpc.Base.Impl.LogPipeline
import FishRpc.Base.Lemmas.LogPipeline
import FishRpc.Base.Impl.Logger
import FishRpc.Base.Lemmas.Logger
import FishRpc.Base.Lemmas.LoggerHeader
import FishRpc.Base.Impl.LocalMessage
import FishRpc.Base.Lemmas.LocalMessage
import FishRpc.Base.Lemmas.LocalMessageLines
import FishRpc.Base.Impl.Loop
import FishRpc.Base.Lemmas.Loop
import FishRpc.Base.Lemmas.LoopClosing
import FishRpc.Net.Impl.TcpAddr
import FishRpc.Net.Lemmas.TcpAddr
import FishRpc.Net.Lemmas.TcpAddrText
import FishRpc.Net.Lemmas.TcpAddrPeer
import FishRpc.Registry.Impl.RpcRegistry
import FishRpc.Registry.Lemmas.RpcRegistry
import FishRpc.Registry.Lemmas.RpcRegistryIds
import FishRpc.Registry.Lemmas.RpcRegistryServes
import FishRpc.Net.Lemmas.UringWindow
import FishRpc.Rpc.Lemmas.ServerLoop
import FishRpc.Registry.Lemmas.RpcRegistryRefines
import FishRpc.Registry.Impl.ProviderTable
import FishRpc.Registry.Lemmas.ProviderTable
import FishRpc.Provider.Impl.ProviderServer
import FishRpc.Provider.Lemmas.ProviderServer
