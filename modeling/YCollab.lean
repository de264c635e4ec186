import YCollab.Auth.Cache
import YCollab.Auth.Cancel
import YCollab.Auth.Verify
import YCollab.Blob.Sigv4
import YCollab.Bus.Redis
import YCollab.Crdt.Chains
import YCollab.Crdt.Exact
import YCollab.Crdt.Exchange
import YCollab.Crdt.Limits
import YCollab.Crdt.Losses
import YCollab.Crdt.Memory
import YCollab.Crdt.Missing
import YCollab.Crdt.PrefixFree
import YCollab.Crdt.RoundTrip
import YCollab.Crdt.Sections
import YCollab.Crdt.Snapshot
import YCollab.Crdt.Splitting
import YCollab.Crdt.Strict
import YCollab.Crdt.Tombstones
import YCollab.Crdt.Varint
import YCollab.Crdt.Version
import YCollab.Gateway.ClientIP
import YCollab.Lib0.Stream
import YCollab.Protocol.Merge
import YCollab.Room.AntiEntropy
import YCollab.Room.Clients
import YCollab.Room.Cursors
import YCollab.Room.Import
import YCollab.Room.Release
import YCollab.Room.Shutdown
import YCollab.Room.Tenancy
import YCollab.Room.Versions
import YCollab.Store.Compaction
import YCollab.Store.Listing
import YCollab.Store.Load
import YCollab.Store.Reading
import YCollab.Store.Spacing
