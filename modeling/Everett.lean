import Everett.Library.Outcome
import Everett.Library.Sampling
import Everett.Library.Word
import Everett.Library.StableMerge
import Everett.Bits
import Everett.Policy
import Everett.Profile.Frame
import Everett.Profile.Context
import Everett.Cola.Lookup
import Everett.Redundant.Runtime
import Everett.Cola.Assembly
import Everett.Redundant.History
import Everett.Redundant.Objects
import Everett.Redundant.Slots
import Everett.Redundant.Root
import Everett.Redundant.Visibility
import Everett.Native.Union
import Everett.Native.Tombstones
import Everett.Native.MergeTree
import Everett.Library.SortedTable
import Everett.World.Pins
import Everett.World.Reference
import Everett.World.Round
import Everett.Session.Queue
import Everett.Session.Contract
import Everett.Connection.Install
import Everett.Transaction.Contract
import Everett.Binary.Contract
import Everett.Sort.Contract
import Everett.File.Canonical
import Everett.Redundant.Begin
import Everett.Catalog.ExactlyOnce
import Everett.Catalog.Hints
import Everett.Catalog.Effects
import Everett.Catalog.Histories
import Everett.Catalog.Sessions
import Everett.Catalog.SessionHistory
import Everett.Durability.Protocol
import Everett.Registry.Contract
import Everett.Object.Contract
import Everett.Nursery.Persistence
import Everett.Profile.Comparison
import Everett.Rank.Directory
import Everett.Rank.Populations
import Everett.EliasFano.Cursor
import Everett.Library.BigEndian
import Everett.Library.Reflected
import Everett.Library.Loop
import Everett.Packed.Memory
import Everett.Packed.BitView
import Everett.Packed.Copy
import Everett.Packed.Compare
import Everett.World.Maintenance
import Everett.Cola.First
import Everett.FixedSearch.Bounds
import Everett.Sort.Typed
import Everett.Sampling.Coding
import Everett.Sampling.Contract
import Everett.Library.Delimited
import Everett.SortProfile.Consuming
import Everett.SortProfile.Codecs
import Everett.SortProfile.Selector
import Everett.SortProfile.Encoder
import Everett.SortProfile.View
import Everett.SortProfile.Frames
import Everett.SortProfile.Reading
import Everett.Native.Predecessor
import Everett.Cola.Work
import Everett.Redundant.Preparation
import Everett.Cola.LocalJob
import Everett.Cola.LocalMerge
import Everett.Object.Checksum
