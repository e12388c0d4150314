import Sidestr.Lib.Outcome
import Sidestr.Lib.Method
import Sidestr.Lib.Map
import Sidestr.Lib.Word
import Sidestr.Lib.Lines
import Sidestr.Lib.Matching
import Sidestr.Lib.Pairing
import Sidestr.Core.Tx
import Sidestr.Core.Marker
import Sidestr.Core.Text
import Sidestr.Core.Block
import Sidestr.Core.Document
import Sidestr.Core.Rules
import Sidestr.Core.State
import Sidestr.Core.Sample
import Sidestr.Core.Accept
import Sidestr.Core.Spending
import Sidestr.Core.Supply
import Sidestr.Core.Claims
import Sidestr.Core.Records
import Sidestr.Core.RecordReaders
import Sidestr.Core.Assets
import Sidestr.Core.Pool
import Sidestr.Core.PoolValue
import Sidestr.Core.Markets
import Sidestr.Core.Overlays
import Sidestr.Core.Resolved
import Sidestr.Core.OverlayState
import Sidestr.Core.Traceless
import Sidestr.Core.NoPanic
import Sidestr.Core.Fresh
import Sidestr.Core.AssetTotals
import Sidestr.Core.PoolBacking
import Sidestr.Core.AssetSupply
import Sidestr.Core.Sequence
import Sidestr.Core.MarketSolvency
import Sidestr.Evm.World
import Sidestr.Evm.State
import Sidestr.Evm.Backing
import Sidestr.Evm.Replay
import Sidestr.Evm.Snapshot
import Sidestr.Evm.Paid
import Sidestr.Evm.Produce
import Sidestr.Parent.Pegin
import Sidestr.Parent.Reorg
import Sidestr.Parent.Check
import Sidestr.Hitch.Types
import Sidestr.Hitch.Channel
import Sidestr.Hitch.Machine
import Sidestr.Hitch.Closing
import Sidestr.Hitch.Run
import Sidestr.Hitch.Moves
import Sidestr.Hitch.Sample
import Sidestr.Hitch.Conservation
import Sidestr.Hitch.Secrets
import Sidestr.Hitch.Signed
import Sidestr.Hitch.Recognition
import Sidestr.Hitch.Restart
import Sidestr.Hitch.Finality
import Sidestr.Hitch.Route
import Sidestr.Hitch.Protective
import Sidestr.Hitch.Enforce
import Sidestr.Hitch.Words
import Sidestr.Hitch.Refusal
import Sidestr.Teller.Account
import Sidestr.Teller.Ledger
import Sidestr.Teller.Books
import Sidestr.Core.Produce
import Sidestr.Core.Mempool
import Sidestr.Core.BlockFile
import Sidestr.Core.ChainFile
import Sidestr.Core.Mirror
import Sidestr.Core.Sealing
import Sidestr.Core.Heights
import Sidestr.Core.ChannelLeaf
import Sidestr.Core.MultiA
import Sidestr.Core.PegTweak
import Sidestr.Core.HeaderV2
import Sidestr.Core.Eviction
import Sidestr.Lib.Median
import Sidestr.Core.HeaderTimes
import Sidestr.Parent.Pegout
import Sidestr.Round.Ledger
import Sidestr.Round.Event
import Sidestr.Round.Psbt
import Sidestr.Lib.Vote
import Sidestr.Round.Pegout
import Sidestr.Round.Sample
import Sidestr.Round.PegoutVote
import Sidestr.Reserve.Attest
import Sidestr.Round.Block
import Sidestr.Round.BlockVote
import Sidestr.Round.BlockTurn
import Sidestr.Round.Journal
import Sidestr.Round.JournalSplit
import Sidestr.Round.PaidBurns
import Sidestr.Round.Payout
import Sidestr.Round.PegoutCoins
import Sidestr.Wallet.Asset
import Sidestr.Wallet.Pegin
import Sidestr.Wallet.Spend
import Sidestr.Wallet.Coins
import Sidestr.Wallet.Escape
import Sidestr.Wallet.Request
import Sidestr.Nostr.Relay
import Sidestr.Nostr.Tags
import Sidestr.Nostr.Record
import Sidestr.Nostr.Tip
import Sidestr.Nostr.Chain
import Sidestr.Hitch.Follow
import Sidestr.Parent.Slices
import Sidestr.Teller.Payout
import Sidestr.Teller.Requests
import Sidestr.Core.Isqrt
import Sidestr.Keys.Secp
import Sidestr.Keys.CoreKeys
import Sidestr.Keys.TellerKeys
import Sidestr.Keys.Agree
import Sidestr.Keys.Deposit
import Sidestr.Lib.Prefix
import Sidestr.Core.UnifiedSighash
import Sidestr.Agent.Faucet
import Sidestr.Hitch.Altered
import Sidestr.Hitch.PayFinal
import Sidestr.Hitch.Opening
import Sidestr.Agent.Handshake
import Sidestr.Core.Compact
import Sidestr.Core.Serde
import Sidestr.Hitch.Wire
import Sidestr.Hitch.WireAccept
import Sidestr.Nostr.EventText
import Sidestr.Agent.Envelope
import Sidestr.Lib.FileSystem
import Sidestr.Agent.Store
import Sidestr.Agent.Saved
