import OxlensSfu.Lib.Machine
import OxlensSfu.Lib.Serial
import OxlensSfu.Floor.Core
import OxlensSfu.Floor.Agreement
import OxlensSfu.Floor.Queue
import OxlensSfu.Floor.Holder
import OxlensSfu.Floor.Release
import OxlensSfu.Floor.Bind
import OxlensSfu.Floor.Sequence
import OxlensSfu.Floor.Timers
import OxlensSfu.Ops.Gate
import OxlensSfu.Ops.Clock
import OxlensSfu.Ops.Fence
import OxlensSfu.Forward.Rewriter
import OxlensSfu.Forward.Reuse
import OxlensSfu.Sub.Table
import OxlensSfu.Sub.Moves
import OxlensSfu.Sub.Sync
import OxlensSfu.Sub.Invariant
import OxlensSfu.Sub.Lists
import OxlensSfu.Sub.Ext
import OxlensSfu.Forward.Packet
import OxlensSfu.Room.Core
import OxlensSfu.Room.Snapshot
import OxlensSfu.Lib.Threads
import OxlensSfu.Room.Threads
import OxlensSfu.Room.Capacity
import OxlensSfu.Room.Life
import OxlensSfu.Media.Publish
import OxlensSfu.Floor.Seats
import OxlensSfu.Media.Atomic
import OxlensSfu.Peer.Core
import OxlensSfu.Peer.Coherence
import OxlensSfu.Bus.Tokens
import OxlensSfu.Lib.Slots
import OxlensSfu.Link.DataChannel
import OxlensSfu.Link.Creds
import OxlensSfu.Link.Queue
import OxlensSfu.Link.Index
import OxlensSfu.Link.Framing
import OxlensSfu.Peer.Workers
import OxlensSfu.Peer.Sessions
import OxlensSfu.Lib.Maps
import OxlensSfu.Mesh.Wire
import OxlensSfu.Mesh.Core
import OxlensSfu.Mesh.Index
import OxlensSfu.Mesh.Pending
import OxlensSfu.Mesh.Works
import OxlensSfu.Mesh.Query
import OxlensSfu.Mesh.Books
import OxlensSfu.Mesh.Declare
import OxlensSfu.Mesh.Talk
import OxlensSfu.Mesh.Client
import OxlensSfu.Mesh.Net
import OxlensSfu.Mesh.Shed
import OxlensSfu.Mesh.Pair
import OxlensSfu.Mesh.Arbiter
import OxlensSfu.Mesh.Sync
import OxlensSfu.Mesh.Listing
import OxlensSfu.Mesh.Puts
import OxlensSfu.Mesh.Once
import OxlensSfu.Mesh.Refuse
import OxlensSfu.Lib.Reader
import OxlensSfu.Wire.Codec
import OxlensSfu.Wire.Lanes
import OxlensSfu.Hub.View
import OxlensSfu.Hub.Places
import OxlensSfu.Hub.Ses
import OxlensSfu.Hub.Sessions
import OxlensSfu.Hub.Interest
import OxlensSfu.Rtcp.Twcc
import OxlensSfu.Rtcp.Feedback
import OxlensSfu.Rtcp.Nack
import OxlensSfu.Rtcp.Stats
import OxlensSfu.Media.NackUp
import OxlensSfu.Forward.Ingress
import OxlensSfu.Lib.Best
import OxlensSfu.Sub.Uses
import OxlensSfu.Sub.Talk
import OxlensSfu.Sub.Targets
import OxlensSfu.Sub.Idem
import OxlensSfu.Sub.Rank
import OxlensSfu.Hub.Placement
import OxlensSfu.Lib.Glob
import OxlensSfu.Lib.Feed
import OxlensSfu.Mesh.KeyExpr
import OxlensSfu.Wire.Mbcp
import OxlensSfu.Link.Stun
import OxlensSfu.Hub.Conn
import OxlensSfu.Forward.Simulcast
import OxlensSfu.Media.Registry
import OxlensSfu.Wire.Text
import OxlensSfu.Floor.Wire
import OxlensSfu.Floor.Position
import OxlensSfu.Floor.Fit
import OxlensSfu.Floor.Delivery
import OxlensSfu.Mesh.News
import OxlensSfu.Mesh.Tracks
import OxlensSfu.Mesh.Follow
import OxlensSfu.Mesh.Ends
import OxlensSfu.Mesh.Upstream
import OxlensSfu.Mesh.Inclusion
import OxlensSfu.Mesh.Lookup
import OxlensSfu.Log.Line
import OxlensSfu.Media.Slicing
import OxlensSfu.Bus.Interest
import OxlensSfu.Log.Sender
import OxlensSfu.Hub.Supervisor
import OxlensSfu.Wire.Direct
import OxlensSfu.Lib.Tally
import OxlensSfu.Forward.Worker
import OxlensSfu.Lib.Rate
import OxlensSfu.Link.Demux
import OxlensSfu.Rtcp.Pli
import OxlensSfu.Rtcp.Rtx
import OxlensSfu.Bus.Keyspace
import OxlensSfu.Rtcp.Compound
import OxlensSfu.Sub.Seed
import OxlensSfu.Sub.Shared
import OxlensSfu.Rtcp.Grammar
