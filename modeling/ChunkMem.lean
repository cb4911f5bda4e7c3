import ChunkMem.Foundation.Exec
import ChunkMem.Foundation.Bits
import ChunkMem.Foundation.Sums
import ChunkMem.Foundation.Cover
import ChunkMem.Foundation.Rings
import ChunkMem.Foundation.SortedUnion
import ChunkMem.Memory.Layout
import ChunkMem.Memory.World
import ChunkMem.Memory.View
import ChunkMem.Memory.Calls
import ChunkMem.Memory.Memalign
import ChunkMem.Chunk.Metadata
import ChunkMem.Chunk.SList
import ChunkMem.Chunk.MemMgr
import ChunkMem.Index.Table
import ChunkMem.Index.Compress
import ChunkMem.Index.Alloc
import ChunkMem.Arena.Content
import ChunkMem.Arena.Tiling
import ChunkMem.Arena.Accounts
import ChunkMem.Arena.Blocks
import ChunkMem.Arena.Operations
import ChunkMem.Arena.Room
import ChunkMem.Refinement.Image
import ChunkMem.Refinement.Layout
import ChunkMem.Refinement.Access
import ChunkMem.Refinement.Pool
import ChunkMem.Refinement.Blocks
import ChunkMem.Refinement.Fresh
import ChunkMem.Refinement.Growth
import ChunkMem.Refinement.Resize
import ChunkMem.Refinement.Alloc
import ChunkMem.Refinement.Destruct
import ChunkMem.Refinement.Split
import ChunkMem.Refinement.Stream
import ChunkMem.Refinement.Compress
import ChunkMem.Refinement.Uncompress
import ChunkMem.Refinement.Stored
import ChunkMem.Session.Calls
import ChunkMem.Session.Runs
import ChunkMem.Session.Regions
import ChunkMem.Session.Contents
import ChunkMem.Session.Plain
import ChunkMem.Session.Programs
import ChunkMem.Session.Spots
import ChunkMem.Structures.Str
import ChunkMem.Structures.StrContents
import ChunkMem.Structures.DoubleList
import ChunkMem.Structures.Links
import ChunkMem.Structures.ListOperations
import ChunkMem.Structures.Merge
import ChunkMem.Structures.HashList
import ChunkMem.Structures.Chains
import ChunkMem.Structures.Moves
import ChunkMem.Structures.Buckets
import ChunkMem.Structures.Dictionary
import ChunkMem.Properties.Overlap
import ChunkMem.Properties.Accounting
import ChunkMem.Properties.Ownership
import ChunkMem.Properties.Release
import ChunkMem.Properties.Reuse
import ChunkMem.Properties.SizedFree
import ChunkMem.Properties.Classes
import ChunkMem.Properties.Continuity
import ChunkMem.Properties.Room
import ChunkMem.Properties.Need
import ChunkMem.Properties.RoundTrip
import ChunkMem.Properties.Failure
import ChunkMem.Properties.Maintenance
import ChunkMem.Properties.Stack
import ChunkMem.Properties.ChunkPool
import ChunkMem.Properties.PoolPieces
import ChunkMem.Properties.Source
import ChunkMem.Properties.Oversized
import ChunkMem.Properties.Strings
import ChunkMem.Properties.Encoding
import ChunkMem.Properties.Boot
import ChunkMem.Properties.StringEquality
import ChunkMem.Properties.SelfCopy
import ChunkMem.Properties.Lists
import ChunkMem.Properties.SafeWalk
import ChunkMem.Properties.Merge
import ChunkMem.Properties.Owner
import ChunkMem.Properties.Rehash
import ChunkMem.Properties.Dictionary
import ChunkMem.Foundation.Residents
import ChunkMem.Session.Areas
import ChunkMem.Structures.ListsInStore
import ChunkMem.Structures.StringsInStore
import ChunkMem.Structures.HashInStore
import ChunkMem.Structures.StacksInStore
import ChunkMem.Properties.Workspace
import ChunkMem.Session.Addresses
import ChunkMem.Properties.Addresses
import ChunkMem.Structures.StrNode
import ChunkMem.Properties.StrTable
import ChunkMem.Structures.StrInPlace
import ChunkMem.Properties.HeldNodes
import ChunkMem.Foundation.Clients
import ChunkMem.Memory.PoolMemory
import ChunkMem.Properties.PooledChunks
import ChunkMem.Properties.HashLife
import ChunkMem.Properties.LostUnits
import ChunkMem.Properties.Pointers
import ChunkMem.Structures.StrBlocks
import ChunkMem.Structures.TextNodes
import ChunkMem.Structures.TextSteps
import ChunkMem.Properties.TextSet
import ChunkMem.Memory.DefaultMemAlloc
import ChunkMem.Properties.Ledger
import ChunkMem.Structures.TextsInStore
import ChunkMem.Properties.TextLife
