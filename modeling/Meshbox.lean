import Meshbox.Library.Outcome
import Meshbox.Library.BigEndian
import Meshbox.Library.Loop
import Meshbox.Library.Ledger
import Meshbox.Library.Lru
import Meshbox.Library.Radix
import Meshbox.Library.RadixUpdate
import Meshbox.Common.Types
import Meshbox.Common.Hexutil
import Meshbox.Params.Config
import Meshbox.Rlp.Raw
import Meshbox.Rlp.RoundTrip
import Meshbox.Trie.Encoding
import Meshbox.Trie.Node
import Meshbox.Trie.Proof
import Meshbox.Trie.Trie
import Meshbox.Trie.Hasher
import Meshbox.Tribe.Difficulty
import Meshbox.State.World
import Meshbox.State.StateDB
import Meshbox.Vm.EVM
import Meshbox.Core.StateTransition
import Meshbox.Core.StateProcessor
import Meshbox.Vm.Interpreter
import Meshbox.Vm.MemoryGas
import Meshbox.Trie.Canonical
import Meshbox.Trie.Expands
import Meshbox.Trie.Resolve
import Meshbox.Trie.Operations
import Meshbox.Trie.Hashing
import Meshbox.Trie.EntryPoints
import Meshbox.Trie.RandTest
import Meshbox.Compression.Rle
import Meshbox.Chief.Service
import Meshbox.Bitutil.Compress
import Meshbox.Library.Heap
import Meshbox.Library.HeapUp
import Meshbox.Library.KeySorted
import Meshbox.Library.Merge
import Meshbox.Types.Transaction
import Meshbox.Abi.Codec
import Meshbox.Rlp.Encbuf
import Meshbox.Rlp.Stream
import Meshbox.Rlp.StreamRoundTrip
import Meshbox.Rlp.SplitStream
import Meshbox.Bmt.Hasher
import Meshbox.Library.GoMap
import Meshbox.Core.TxList
import Meshbox.Core.TxSortedMap
import Meshbox.Core.StrictList
import Meshbox.Core.TxPool
import Meshbox.Les.FlowControl
import Meshbox.Bloombits.Matcher
import Meshbox.Bloombits.Generator
import Meshbox.Bloombits.Matches
import Meshbox.Library.SortSearch
import Meshbox.Library.BoundedInsert
import Meshbox.Discover.Table
import Meshbox.Swarm.Chunker
import Meshbox.Event.Feed
import Meshbox.Event.FeedRuns
import Meshbox.Vm.Analysis
import Meshbox.Rlp.Decode
import Meshbox.Trie.Sync
import Meshbox.State.Sync
import Meshbox.Trie.Proving
import Meshbox.Light.NodeSet
import Meshbox.Les.TrieProofs
import Meshbox.Library.UndoLog
import Meshbox.State.Journal
import Meshbox.State.Revert
