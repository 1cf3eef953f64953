import Cryptochan.Lib.Run
import Cryptochan.Lib.Circular
import Cryptochan.Lib.CreditRing
import Cryptochan.Lib.Radix
import Cryptochan.Lib.Lock
import Cryptochan.Lib.Bits
import Cryptochan.Lib.While
import Cryptochan.Lib.Tally
import Cryptochan.Lib.Resource
import Cryptochan.Machine
import Cryptochan.Random
import Cryptochan.Random.Seed
import Cryptochan.Random.Fill
import Cryptochan.XorRegion
import Cryptochan.XorAccess
import Cryptochan.Buffer.Model
import Cryptochan.Buffer.Refine
import Cryptochan.Buffer.ReadRecode
import Cryptochan.Buffer.Pool
import Cryptochan.Buffer.Checked
import Cryptochan.Buffer.Threads
import Cryptochan.Buffer.Ledger
import Cryptochan.Buffer.Stream
import Cryptochan.Buffer.System
import Cryptochan.Buffer.Interleaved
import Cryptochan.Buffer.RecodeNone
import Cryptochan.Buffer.XorBuf
import Cryptochan.Buffer.Keystream
import Cryptochan.Buffer.Received
import Cryptochan.Buffer.Clients
import Cryptochan.Buffer.RoundTrip
import Cryptochan.Buffer.Wired
import Cryptochan.Buffer.Progress
import Cryptochan.Buffer.SimpleTest
import Cryptochan.Buffer.Lifetime
import Cryptochan.Config.Load
import Cryptochan.Config.Accept
import Cryptochan.Keys.Base58
import Cryptochan.Keys.EcHelper
import Cryptochan.Keys.Canonical
import Cryptochan.Keys.Keygen
import Cryptochan.Keys.Draw
import Cryptochan.Config.KeyPair
import Cryptochan.Program.Arguments
import Cryptochan.Program.Dispatcher
import Cryptochan.Program.Main
import Cryptochan.Queue.Model
import Cryptochan.Queue.Counted
import Cryptochan.Queue.Inv
import Cryptochan.Queue.Steps
import Cryptochan.Queue.Kept
import Cryptochan.Queue.Safe
import Cryptochan.Queue.Fifo
import Cryptochan.Queue.Progress
import Cryptochan.Queue.Sequential
import Cryptochan.Queue.Intact
import Cryptochan.Queue.Failing
import Cryptochan.Queue.Growing
import Cryptochan.Queue.Memory
import Cryptochan.Queue.Clients
import Cryptochan.Queue.Delivery
import Cryptochan.Queue.Returns
import Cryptochan.Queue.Advance
import Cryptochan.Queue.Finish
