import DumaisLib.Lib.CircularBuffer
import DumaisLib.Lib.Machine
import DumaisLib.Lib.BigEndian
import DumaisLib.Lib.SizeT
import DumaisLib.Lib.Search
import DumaisLib.Lib.Regex
import DumaisLib.Lib.Chunks
import DumaisLib.Lib.Quoting
import DumaisLib.Lib.Text
import DumaisLib.Lib.StreamReader
import DumaisLib.Lib.HeaderBlock
import DumaisLib.Lib.Rfc6455
import DumaisLib.Lib.Digest
import DumaisLib.Lib.Sha
import DumaisLib.Lib.Md5
import DumaisLib.Lib.Rfc4648
import DumaisLib.Lib.Wakeups
import DumaisLib.Lib.Transmission
import DumaisLib.Lib.SendPass
import DumaisLib.Lib.SendPassRuns
import DumaisLib.Utils.MPSCRingBuffer
import DumaisLib.Utils.MPSCRingBufferFifo
import DumaisLib.Utils.SendQueue
import DumaisLib.Utils.MPSCInterleaving
import DumaisLib.Utils.ThreadOrder
import DumaisLib.Utils.RetryInterleaving
import DumaisLib.Utils.Hash
import DumaisLib.Utils.SHA1
import DumaisLib.Utils.SHA256
import DumaisLib.Utils.MD5
import DumaisLib.Utils.Digests
import DumaisLib.Utils.Base64
import DumaisLib.WebSocket.WSProtocolParser
import DumaisLib.WebSocket.PayloadLength
import DumaisLib.WebSocket.ParserInvariant
import DumaisLib.WebSocket.ParserRuns
import DumaisLib.WebSocket.HTTPProtocolParser
import DumaisLib.WebSocket.RequestChunks
import DumaisLib.WebSocket.HeaderLines
import DumaisLib.WebSocket.Accept
import DumaisLib.WebSocket.WebSocket
import DumaisLib.WebSocket.SendStream
import DumaisLib.WebSocket.FrameStream
import DumaisLib.WebSocket.ReceiveLoop
import DumaisLib.WebSocket.Progress
import DumaisLib.WebSocket.Delivery
import DumaisLib.WebSocket.Session
import DumaisLib.WebSocket.Callbacks
import DumaisLib.WebSocket.Closing
import DumaisLib.WebSocket.ControlFrames
import DumaisLib.WebSocket.ServerFrames
import DumaisLib.WebSocket.SentFrames
import DumaisLib.WebSocket.ConcurrentSends
import DumaisLib.WebSocket.WebSocketServer
import DumaisLib.WebSocket.AcceptPasses
import DumaisLib.WebSocket.Conversation
import DumaisLib.WebSocket.Answers
import DumaisLib.WebSocket.ConversationRuns
import DumaisLib.WebServer.HTTPFramingStrategy
import DumaisLib.WebServer.TcpClient
import DumaisLib.WebServer.FramingInvariant
import DumaisLib.WebServer.RequestStream
import DumaisLib.WebServer.Pipelining
import DumaisLib.WebServer.HTTPRequest
import DumaisLib.WebServer.OverReads
import DumaisLib.WebServer.HeaderEnds
import DumaisLib.WebServer.HTTPResponse
import DumaisLib.WebServer.ResponseStream
import DumaisLib.WebServer.ResponseChunks
import DumaisLib.WebServer.TcpServer
import DumaisLib.WebServer.WebServer
import DumaisLib.WebServer.Authentication
import DumaisLib.WebServer.CapturedDigests
import DumaisLib.WebServer.SessionExpiry
import DumaisLib.WebServer.AuthFields
import DumaisLib.WebServer.DigestHandshake
import DumaisLib.WebServer.Exchange
import DumaisLib.WebServer.ExchangeRuns
import DumaisLib.WebServer.SessionSweep
import DumaisLib.WebServer.AsyncResponses
import DumaisLib.WebServer.Reactor
import DumaisLib.WebServer.ReactorWakeups
import DumaisLib.JSON.Parser
import DumaisLib.JSON.Value
import DumaisLib.JSON.Tree
import DumaisLib.JSON.Scanning
import DumaisLib.JSON.Compact
import DumaisLib.JSON.RoundTrip
import DumaisLib.JSON.Building
import DumaisLib.Lib.Ownership
import DumaisLib.Lib.Forest
import DumaisLib.JSON.Handles
import DumaisLib.JSON.Owners
import DumaisLib.JSON.Documents
import DumaisLib.JSON.Instances
import DumaisLib.JSON.Sentinel
import DumaisLib.JSON.Printing
import DumaisLib.JSON.Levels
import DumaisLib.JSON.Reading
import DumaisLib.JSON.ReadTrees
import DumaisLib.JSON.Mirroring
import DumaisLib.JSON.Meanings
import DumaisLib.JSON.CutTexts
import DumaisLib.JSON.Literals
import DumaisLib.JSON.Overruns
import DumaisLib.JSON.Paths
import DumaisLib.JSON.ParsedKeys
import DumaisLib.JSON.GeneratedKeys
import DumaisLib.JSON.StoredStrings
import DumaisLib.JSON.UnnamedMembers
import DumaisLib.JSON.DistinctKeys
import DumaisLib.JSON.Memory
import DumaisLib.JSON.Changes
import DumaisLib.JSON.Contents
import DumaisLib.JSON.DocumentOperations
import DumaisLib.JSON.Programs
import DumaisLib.JSON.PathQuery
import DumaisLib.JSON.QueryChains
import DumaisLib.Rest.RESTParameters
import DumaisLib.Rest.QueryStrings
import DumaisLib.Rest.RESTCallBack
import DumaisLib.Rest.RESTEngine
import DumaisLib.Rest.Registry
import DumaisLib.Rest.Dispatch
import DumaisLib.Rest.Swagger
