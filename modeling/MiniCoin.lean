import MiniCoin.ByteStrings
import MiniCoin.QuotedText
import MiniCoin.Sha256
import MiniCoin.Transactions
import MiniCoin.Blocks
import MiniCoin.Chains
import MiniCoin.Wallets
import MiniCoin.Protocol
import MiniCoin.Nodes
import MiniCoin.Runs
import MiniCoin.Transitions
import MiniCoin.MinedBlocks
import MiniCoin.GenesisBlock
import MiniCoin.FieldLookup
import MiniCoin.SerializedTexts
import MiniCoin.TxCodec
import MiniCoin.Nesting
import MiniCoin.BlockCodec
import MiniCoin.PayloadScan
import MiniCoin.ChainCodec
import MiniCoin.TextBytes
import MiniCoin.MessageCodec
import MiniCoin.ChainSafety
import MiniCoin.Ownership
import MiniCoin.Residues
import MiniCoin.Balances
import MiniCoin.Tampering
import MiniCoin.EconomicValidity
import MiniCoin.Networks
import MiniCoin.Contents
import MiniCoin.PlainRuns
import MiniCoin.Supply
import MiniCoin.ReadTexts
import MiniCoin.AcceptancePaths
import MiniCoin.Affordability
import MiniCoin.Overdrafts
import MiniCoin.PendingPayments
import MiniCoin.HistoryCommitment
import MiniCoin.OptimisticMining
import MiniCoin.ChainSync
import MiniCoin.Relay
import MiniCoin.Replays
import MiniCoin.Forks
import MiniCoin.Wirings
import MiniCoin.Spreading
import MiniCoin.Flooding
import MiniCoin.JoinedTexts
import MiniCoin.HashInputs
import MiniCoin.Signatures
import MiniCoin.JsonTexts
import MiniCoin.ParsedBlocks
import MiniCoin.ParsedNumbers
import MiniCoin.Framing
import MiniCoin.Envelopes
import MiniCoin.CheckedStrings
import MiniCoin.Pointers
import MiniCoin.ParserBounds
import MiniCoin.PeerSlots
import MiniCoin.Connecting
import MiniCoin.Encodings
import MiniCoin.CheckedPrints
import MiniCoin.SerializerBounds
import MiniCoin.MiningLoop
import MiniCoin.CutTexts
import MiniCoin.CutRecords
import MiniCoin.CutLines
import MiniCoin.ChainLimits
import MiniCoin.Sha256Lanes
import MiniCoin.WrittenChains
import MiniCoin.Traffic
import MiniCoin.BlockTrees
import MiniCoin.Histories
import MiniCoin.OrderedRelay
import MiniCoin.Convergence
import MiniCoin.PaymentOrigins
import MiniCoin.Words
import MiniCoin.Commands
import MiniCoin.Processes
import MiniCoin.DescriptorTables
import MiniCoin.Custody
import MiniCoin.Threads
import MiniCoin.Descriptors
import MiniCoin.Exclusion
import MiniCoin.PeersLock
