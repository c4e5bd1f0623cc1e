import Fbz.Lib.Transition
import Fbz.Error
import Fbz.Pipeline.Progress
import Fbz.Lib.Lz
import Fbz.History
import Fbz.Bytes
import Fbz.Options
import Fbz.Lz4.Frame
import Fbz.Lz4.Decode
import Fbz.Lz4.Independent
import Fbz.Lz4.Hash
import Fbz.Pipeline.Sweep
import Fbz.Pipeline.Room
import Fbz.Pipeline.Returns
import Fbz.Crc
import Fbz.Bzip2.Assemble
import Fbz.Bzip2.Candidates
import Fbz.MatchFinder
import Fbz.EncodeOptions
import Fbz.Pipeline.Streaming
import Fbz.Lz4.Encode
import Fbz.Lz4.Stream
import Fbz.Lz4.BlockRoundTrip
import Fbz.Lz4.RoundTrip
import Fbz.Deflate.Bits
import Fbz.Deflate.Huffman
import Fbz.Deflate.Block
import Fbz.Crc32
import Fbz.Deflate.Trace
import Fbz.Deflate.Output
import Fbz.Deflate.Segment
import Fbz.Deflate.Resolve
import Fbz.Deflate.Boundary
import Fbz.Deflate.Parallel
import Fbz.Deflate.Simulation
import Fbz.Deflate.Chain
import Fbz.Deflate.Pieces
import Fbz.Pipeline.Exact
import Fbz.Pipeline.Panics
import Fbz.Reader
import Fbz.Lib.FileTree
import Fbz.Extract.Commit
import Fbz.Lib.FileSystem
import Fbz.Extract.Zip
import Fbz.Extract.Order
import Fbz.Zip.Create
import Fbz.Zip.Directory
import Fbz.Zip.ReadBack
import Fbz.Bzip2.Bits
import Fbz.Bzip2.Huffman
import Fbz.Bzip2.Block
import Fbz.Bzip2.Levels
import Fbz.Bzip2.Index
import Fbz.Bzip2.Layout
import Fbz.Bzip2.IndexedReader
import Fbz.Pipeline.Session
import Fbz.Deflate.Tokens
import Fbz.Deflate.CodeLengths
import Fbz.Deflate.Encode
import Fbz.Deflate.Session
import Fbz.Pipeline.Intake
import Fbz.Lz4.Session
import Fbz.Bzip2.BitWriter
import Fbz.Bzip2.Rle1
import Fbz.Bzip2.Mtf
import Fbz.Bzip2.Bwt
import Fbz.Bzip2.Coding
import Fbz.Bzip2.Encode
import Fbz.Bzip2.Session
import Fbz.Encoders
import Fbz.Lib.CanonicalCode
import Fbz.Lib.BitOrder
import Fbz.Deflate.HuffmanCodes
import Fbz.Bzip2.HuffmanCodes
import Fbz.Deflate.CompleteCode
import Fbz.Lib.CoinCollector
import Fbz.Bzip2.PackageMerge
import Fbz.Bzip2.IndexRoundTrip
import Fbz.Bzip2.StreamBits
import Fbz.Bzip2.Scan
import Fbz.Bzip2.ScanExact
import Fbz.Lib.BurrowsWheeler
import Fbz.Bzip2.InverseTransform
import Fbz.Embedded
import Fbz.Lz4.Locality
import Fbz.Deflate.Gzip
import Fbz.Deflate.Locality
import Fbz.Bzip2.Serial
import Fbz.Bzip2.Locality
import Fbz.Concatenation
import Fbz.Lib.Checked
import Fbz.Lib.SuffixOrder
import Fbz.Lib.InducedSort
import Fbz.Deflate.HeaderGrammar
import Fbz.Deflate.HeldBack
import Fbz.Deflate.Expand
import Fbz.Lz4.Sequences
import Fbz.Lz4.Linked
import Fbz.Bzip2.Accepted
import Fbz.Bzip2.FailedRead
import Fbz.Deflate.Ordered
import Fbz.Lib.Tiling
import Fbz.Deflate.Decoder
import Fbz.Deflate.Layout
import Fbz.Lz4.Decoder
import Fbz.Lz4.Layout
import Fbz.Reports
import Fbz.Lib.Ascending
import Fbz.Progress
import Fbz.Lz4.Progress
import Fbz.Lz4.Wrapping
import Fbz.Deflate.Progress
import Fbz.Bzip2.Decoder
import Fbz.Bzip2.Progress
import Fbz.Deflate.Keys
import Fbz.Deflate.Schedule
import Fbz.Deflate.Unfailing
import Fbz.Deflate.RunsDry
import Fbz.Deflate.Agreement
import Fbz.Lib.ShiftRegister
import Fbz.Bzip2.RunExpansion
import Fbz.BitReaders
import Fbz.Bzip2.WrittenBits
import Fbz.MatchChains
import Fbz.Bzip2.SymbolRoundTrip
import Fbz.Deflate.EncodedSize
import Fbz.Zip.Entries
import Fbz.Lib.Program
import Fbz.Bzip2.CheckedHuffman
import Fbz.Bzip2.CheckedBlock
import Fbz.Deflate.CheckedHuffman
import Fbz.Deflate.CheckedBlock
import Fbz.Deflate.CheckedSegment
import Fbz.Deflate.CheckedBoundary
import Fbz.Lib.BitStrings
import Fbz.Deflate.WrittenBits
import Fbz.Deflate.BlockRoundTrip
import Fbz.Deflate.HeaderRoundTrip
import Fbz.Pipeline.Coverage
import Fbz.Deflate.SegmentRoundTrip
import Fbz.Deflate.RoundTrip
import Fbz.Lib.SuffixKeys
import Fbz.Bzip2.InducedPasses
import Fbz.Bzip2.Seeding
import Fbz.Bzip2.Naming
import Fbz.Bzip2.SuffixArray
import Fbz.Bzip2.Rotations
import Fbz.Bzip2.BlockRoundTrip
import Fbz.Bzip2.RoundTrip
