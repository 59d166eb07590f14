import Reel.Library.Bytes
import Reel.Library.StableSort
import Reel.Library.Partition
import Reel.Library.SortedMap
import Reel.Library.Runs
import Reel.Library.Merge
import Reel.Library.Threads
import Reel.Library.Stretches
import Reel.Library.Varint
import Reel.Library.Loop
import Reel.Library.Bisect
import Reel.Format.Key
import Reel.Format.Journal
import Reel.Format.Record
import Reel.Format.Frame
import Reel.Index.Cover
import Reel.Index.Entry
import Reel.Index.Column
import Reel.Index.Spot
import Reel.Index.SpotColumn
import Reel.Index.Sealed
import Reel.Index.Volume
import Reel.Index.Playback
import Reel.Index.Walk
import Reel.Index.Table
import Reel.Index.Ledger
import Reel.Index.Lookup
import Reel.Index.Sound
import Reel.Index.Drawn
import Reel.Index.Keeps
import Reel.Index.Sweeps
import Reel.Index.Writes
import Reel.Index.HandOver
import Reel.Index.Agreement
import Reel.Index.SealedReads
import Reel.Index.Tally
import Reel.Index.Booked
import Reel.Index.Settled
import Reel.Index.Counters
import Reel.Index.Flights
import Reel.Index.Forward
import Reel.Index.Onward
import Reel.Recovery.RangeEnds
import Reel.Recovery.Numbers
import Reel.Store.DeleteRange
import Reel.Store.RangeRead
import Reel.Store.Epochs
import Reel.Library.Files
import Reel.Format.Groups
import Reel.Format.Prefix
import Reel.Format.InRange
import Reel.Format.PackedRows
import Reel.Format.Readers
import Reel.Format.Cursors
import Reel.Format.Filter
import Reel.Format.Footer
import Reel.Format.FooterRows
import Reel.Format.FooterSort
import Reel.Format.FooterBytes
import Reel.Format.FooterParse
import Reel.Format.FooterPack
import Reel.Append.Journal
import Reel.Append.Seal
import Reel.Append.Resume
import Reel.Append.Tail
import Reel.Append.Spans
import Reel.Append.Admission
import Reel.Append.Barrier
import Reel.Append.Publish
import Reel.Cue.Deck
import Reel.Cue.AsOf
import Reel.Cue.Filed
import Reel.Cue.Closed
import Reel.Io.Slots
import Reel.Io.Claims
import Reel.Append.Codec
import Reel.Store.Capacity
import Reel.Library.Text
import Reel.Recovery.Manifest
import Reel.Io.Transfers
import Reel.Io.Deliveries
import Reel.Io.Waits
import Reel.Store.PutGet
import Reel.Recovery.Tailer
import Reel.Index.Segments
import Reel.Index.Floors
import Reel.Index.Repoint
import Reel.Index.Moves
import Reel.Index.SealedRanges
import Reel.Index.Shards
import Reel.Store.Stripes
import Reel.Store.Hold
