import Briefs.Lib.Bytes
import Briefs.Lib.Codec
import Briefs.Lib.Call
import Briefs.Lib.Run
import Briefs.Lib.Cyclic
import Briefs.Lib.Layered
import Briefs.Lib.Program
import Briefs.Lib.Post
import Briefs.Lib.Bitmap
import Briefs.Lib.Interval
import Briefs.Lib.Search
import Briefs.Lib.Pieces
import Briefs.Lib.Maximal
import Briefs.Lib.Packed
import Briefs.Lib.LastWriter
import Briefs.Journal.Format
import Briefs.Journal.Write
import Briefs.Journal.Ring
import Briefs.Journal.Refine
import Briefs.Journal.Window
import Briefs.Journal.Calls
import Briefs.Journal.Overwrite
import Briefs.Journal.CommitPoint
import Briefs.Journal.Log
import Briefs.Journal.Tape
import Briefs.Journal.Read
import Briefs.Journal.Pack
import Briefs.Journal.Content
import Briefs.Journal.Kept
import Briefs.Journal.Logged
import Briefs.Journal.RoundTrip
import Briefs.Alloc.Pyramid
import Briefs.Alloc.Free
import Briefs.Alloc.Runs
import Briefs.Alloc.Consistent
import Briefs.Alloc.Walk
import Briefs.Alloc.Pool
import Briefs.Alloc.Taken
import Briefs.Alloc.Exact
import Briefs.Alloc.Stale
import Briefs.Alloc.Search
import Briefs.Mkfs.Layout
import Briefs.Alloc.Image
import Briefs.Alloc.Sync
import Briefs.Bridge.RunList
import Briefs.Bridge.Deferred
import Briefs.Bridge.DirtyView
import Briefs.Bridge.World
import Briefs.Bridge.Retire
import Briefs.Bridge.WriteAhead
import Briefs.Bridge.Writeback
import Briefs.Bridge.DataDrain
import Briefs.Bridge.FreshSlot
import Briefs.Disk.Inode
import Briefs.Btree.Walk
import Briefs.Btree.Build
import Briefs.Btree.Shape
import Briefs.Btree.Descent
import Briefs.Trie.Page
import Briefs.Trie.Store
import Briefs.Trie.Node
import Briefs.Trie.Walk
import Briefs.Trie.Mutate
import Briefs.Trie.Names
import Briefs.Trie.Heap
import Briefs.Trie.Forest
import Briefs.Trie.Chain
import Briefs.Trie.Insert
import Briefs.Trie.Remove
import Briefs.Trie.Map
import Briefs.Trie.History
import Briefs.Trie.Links
import Briefs.Trie.WithoutSpace
import Briefs.Trie.Listing
import Briefs.Trie.Walker
import Briefs.Trie.Buffer
import Briefs.Dir.State
import Briefs.Dir.Ops
import Briefs.Dir.Rename
import Briefs.Dir.Quiet
import Briefs.File.Extents
import Briefs.File.State
import Briefs.File.Frame
import Briefs.File.Index
import Briefs.File.LeafChain
import Briefs.File.Data
import Briefs.File.Volume
import Briefs.File.Commit
import Briefs.File.Write
import Briefs.File.Preallocate
import Briefs.File.Truncate
import Briefs.File.Punch
import Briefs.File.Shift
import Briefs.File.ZeroRange
import Briefs.File.Fallocate
import Briefs.File.Contents
import Briefs.File.Shield
import Briefs.Replay.Apply
import Briefs.Disk.Checksum
import Briefs.Xattr.Acl
import Briefs.Xattr.Read
import Briefs.Replay.Mount
import Briefs.Replay.Agree
import Briefs.Replay.Reconcile
import Briefs.Replay.Invisible
import Briefs.Replay.Bitmaps
import Briefs.Lib.Pieces
import Briefs.Lib.Maximal
import Briefs.Lib.Packed
import Briefs.Lib.LastWriter
import Briefs.Lib.Window
import Briefs.Lib.Crc
import Briefs.Fsck.Scan
import Briefs.Fsck.Links
import Briefs.Fsck.Recount
import Briefs.Fsck.BlockSet
