import ShredStream.Library.Loop
import ShredStream.Library.SelfDelimiting
import ShredStream.Library.OrderedMap
import ShredStream.Library.FirstByKey
import ShredStream.Library.Runs
import ShredStream.Wire.Recovery
import ShredStream.Wire.Reconstruct
import ShredStream.Decoder.LegacyWire
import ShredStream.Decoder.Batch
import ShredStream.Decoder.Streaming
import ShredStream.Decoder.Chunks
import ShredStream.Decoder.Corruption
import ShredStream.Accumulator.Calls
import ShredStream.Accumulator.Salvage
import ShredStream.Accumulator.Flush
import ShredStream.Accumulator.Harvest
import ShredStream.Accumulator.LostShreds
import ShredStream.Accumulator.Bounded
import ShredStream.Slot.Basic
import ShredStream.Slot.Tracks
import ShredStream.Slot.Delivery
import ShredStream.Slot.Tail
import ShredStream.Slot.Build
import ShredStream.Slot.LedgerOrder
import ShredStream.Slot.ArrivalOrder
import ShredStream.Slot.FinalBatch
import ShredStream.Slot.Forgery
import ShredStream.Listener.Basic
import ShredStream.Listener.Requests
import ShredStream.Listener.Returns
import ShredStream.Listener.Outcome
import ShredStream.Listener.Retention
import ShredStream.Listener.Queue
import ShredStream.Accumulator.Parsed
import ShredStream.Accumulator.Steps
import ShredStream.Accumulator.Represents
import ShredStream.Listener.Moves
import ShredStream.Listener.Live
import ShredStream.Listener.Buffers
import ShredStream.Listener.Totals
import ShredStream.Accumulator.Filed
import ShredStream.Listener.Filed
import ShredStream.Accumulator.Additions
import ShredStream.Listener.Additions
import ShredStream.Accumulator.Refills
import ShredStream.Accumulator.Gaps
import ShredStream.Decoder.Concatenated
import ShredStream.Wire.Cache
import ShredStream.Accumulator.Capacity
import ShredStream.Listener.Rejected
import ShredStream.Listener.Fallback
import ShredStream.Accumulator.Completions
import ShredStream.Listener.Completed
import ShredStream.Accumulator.InStep
import ShredStream.Slot.Protected
import ShredStream.Slot.Swallowed
import ShredStream.Slot.HeldBack
import ShredStream.Accumulator.AnyCache
import ShredStream.Library.Keyed
import ShredStream.Listener.Isolation
import ShredStream.Listener.Honest
import ShredStream.Library.Pull
import ShredStream.Listener.Iterator
import ShredStream.Listener.AnyQueue
import ShredStream.Wire.Format
import ShredStream.Listener.Accounting
import ShredStream.Slot.FecLedger
import ShredStream.Slot.Retained
import ShredStream.Slot.LossTolerance
import ShredStream.Listener.LossTolerance
import ShredStream.Listener.FirstArrival
import ShredStream.Listener.Signatures
import ShredStream.Listener.Retirements
