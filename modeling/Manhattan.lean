import Manhattan.Library.ExecRules
import Manhattan.Library.CStrings
import Manhattan.Vm.Machine
import Manhattan.Vm.StackHelpers
import Manhattan.Vm.StorageHelpers
import Manhattan.Vm.Cases
import Manhattan.Vm.Execute
import Manhattan.Vm.Shape
import Manhattan.Vm.StackSafety
import Manhattan.Vm.Frame
import Manhattan.Vm.StorageMap
import Manhattan.Vm.Quiet
import Manhattan.Vm.Boundaries
import Manhattan.Vm.StorageWalk
import Manhattan.Vm.StorageHistory
import Manhattan.Vm.StorageRuns
import Manhattan.Vm.CaseRules
import Manhattan.Vm.Postfix
import Manhattan.Chain.Block
import Manhattan.Chain.Agreement
import Manhattan.Chain.Mining
import Manhattan.Chain.MiningRules
import Manhattan.Chain.Validation
import Manhattan.Chain.LinearChain
import Manhattan.Chain.Transactions
import Manhattan.Vm.MemorySafety
import Manhattan.Chain.Preimage
import Manhattan.Vm.Halting
import Manhattan.Library.KeyedTables
import Manhattan.Nodes.Table
import Manhattan.Nodes.Addresses
import Manhattan.Library.Streams
import Manhattan.Nodes.Exchange
import Manhattan.Library.Runs
import Manhattan.Nodes.Threads
import Manhattan.Propagation.Messages
import Manhattan.Chain.CreateTransaction
import Manhattan.Chain.Admission
import Manhattan.Chain.Inclusion
import Manhattan.Library.FixedPoint
import Manhattan.Chain.SignedData
import Manhattan.Chain.Bundles
import Manhattan.Chain.InsertText
import Manhattan.Chain.StoredRow
import Manhattan.Chain.Txid
import Manhattan.Vm.Fetching
import Manhattan.Vm.StorageBounds
import Manhattan.Library.SquareMultiply
import Manhattan.Vm.Exponent
import Manhattan.Vm.Push
import Manhattan.Vm.DupSwap
import Manhattan.Library.Yields
import Manhattan.Vm.Rewrites
import Manhattan.Vm.Comparison
import Manhattan.Vm.Bitwise
import Manhattan.Vm.Branching
import Manhattan.Vm.Shifts
import Manhattan.Vm.Division
import Manhattan.Vm.Unsigned
import Manhattan.Vm.Operands
import Manhattan.Vm.Trapping
import Manhattan.Vm.Modulo
import Manhattan.Vm.MemoryBits
import Manhattan.Vm.Logging
import Manhattan.Library.CountedLoops
import Manhattan.Vm.Termination
import Manhattan.Chain.Exhaustion
import Manhattan.Chain.BundleSize
import Manhattan.Chain.KeyHex
import Manhattan.Chain.HexDecoding
import Manhattan.Chain.Base58
import Manhattan.Chain.DigestFields
import Manhattan.Chain.WalletRounds
import Manhattan.Library.FedLoops
import Manhattan.Nodes.PublicIp
import Manhattan.Nodes.TableReceiving
import Manhattan.Propagation.Receiving
import Manhattan.Propagation.NodeArray
import Manhattan.Propagation.Listening
import Manhattan.Library.Limbs
import Manhattan.Chain.Base58Decoding
import Manhattan.Chain.Base58Check
import Manhattan.Library.Matching
import Manhattan.Nodes.Ipv4Pattern
import Manhattan.Nodes.Tasks
import Manhattan.Library.Gossip
import Manhattan.Nodes.Network
import Manhattan.Nodes.Discovery
import Manhattan.Chain.BlockTree
import Manhattan.Library.Triples
import Manhattan.Vm.Heights
import Manhattan.Vm.Balanced
import Manhattan.Vm.Countdown
import Manhattan.Library.InputLeft
import Manhattan.Chain.Menu
import Manhattan.Library.Snapshots
import Manhattan.Chain.Sessions
import Manhattan.Propagation.Reports
import Manhattan.Chain.Coinbase
import Manhattan.Library.Labelled
import Manhattan.Chain.PrintTable
import Manhattan.Vm.Calls
