import CppPlayground.AddressHandles
import CppPlayground.AppMain
import CppPlayground.BufferLayout
import CppPlayground.EchoServer
import CppPlayground.EpollServer
import CppPlayground.GidText
import CppPlayground.HelloAgreement
import CppPlayground.HelloBounds
import CppPlayground.HelloForm
import CppPlayground.HelloRestart
import CppPlayground.HelloStorm
import CppPlayground.NeighborTable
import CppPlayground.PingPongResults
import CppPlayground.PingPongTimes
import CppPlayground.RdmaDemoResult
import CppPlayground.RdmaHandler
import CppPlayground.RdmaResources
import CppPlayground.RecordExchange
import CppPlayground.Rot13Capacity
import CppPlayground.Rot13Descriptors
import CppPlayground.Rot13Framing
import CppPlayground.Rot13Isolation
import CppPlayground.SyncTermination
import CppPlayground.Vectors
import CppPlayground.XsrqConnect
import CppPlayground.XsrqResults
