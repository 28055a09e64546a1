import Zinc.Base.Base128
import Zinc.Base.Blocks
import Zinc.Base.Cfb8
import Zinc.Base.Endian
import Zinc.Base.Fifo
import Zinc.Base.Throw
import Zinc.Base.Arguments
import Zinc.Base.Simulation
import Zinc.Base.Layout
import Zinc.Base.Trace
import Zinc.Base.Pacing
import Zinc.Base.Sextet
import Zinc.Base.Radix
import Zinc.Buffer.Internal
import Zinc.Buffer.Memory
import Zinc.Buffer.Queue
import Zinc.Buffer.Table
import Zinc.Buffer.Codec
import Zinc.Buffer.View
import Zinc.Buffer.Access
import Zinc.Buffer.Canonical
import Zinc.Buffer.Prefixed
import Zinc.Buffer.Vectors
import Zinc.Nbt.Tree
import Zinc.Nbt.Element
import Zinc.Nbt.RoundTrip
import Zinc.Nbt.Flat
import Zinc.Nbt.Following
import Zinc.Nbt.Bounded
import Zinc.Nbt.Tagged
import Zinc.Nbt.Prefixes
import Zinc.Nbt.LittleEndian
import Zinc.Nbt.Drift
import Zinc.Network.Crypto
import Zinc.Network.Connection
import Zinc.Network.Frame
import Zinc.Network.Sizes
import Zinc.Network.Framing
import Zinc.Network.Inflation
import Zinc.Network.Stream
import Zinc.Base.History
import Zinc.Network.Config
import Zinc.Network.Message
import Zinc.Network.Ban
import Zinc.Network.Handler
import Zinc.Network.Server
import Zinc.Network.Effect
import Zinc.Network.Send
import Zinc.Network.Compression
import Zinc.Buffer.Sequence
import Zinc.Network.Run
import Zinc.Network.Login
import Zinc.Network.Session
import Zinc.Network.Encryption
import Zinc.Network.Refusal
import Zinc.Network.BanCheck
import Zinc.Text.Component
import Zinc.Base.Pieces
import Zinc.Text.Members
import Zinc.Text.RoundTrip
import Zinc.Network.Players
import Zinc.Network.BanFile
import Zinc.Network.CookieCheck
import Zinc.Network.CookieReturn
import Zinc.Text.Small
import Zinc.Base.WordSet
import Zinc.Bits.BitSet
import Zinc.Bits.Refinement
import Zinc.Bits.Reachable
import Zinc.Network.Chunks
import Zinc.Base.Mailbox
import Zinc.Base.PartialMap
import Zinc.Loader.Bridge
import Zinc.Loader.Delivery
import Zinc.Loader.ServerMessenger
import Zinc.Network.Standing
import Zinc.Network.Drain
import Zinc.Network.Accounts
import Zinc.Network.Admission
import Zinc.Network.Address
import Zinc.Network.Release
import Zinc.Network.SrvCtl
import Zinc.Util.Wiping
import Zinc.Util.Base64
import Zinc.Util.MCSHA1
import Zinc.Network.Lookup
import Zinc.Network.Correlation
import Zinc.Bits.NextClear
import Zinc.Bits.Bytes
import Zinc.Base.Fields
import Zinc.Base.Taken
import Zinc.Buffer.RoundTrip
import Zinc.Buffer.Sparing
import Zinc.Buffer.Position
import Zinc.Buffer.Containers
import Zinc.Buffer.IDSet
import Zinc.Text.Codec
import Zinc.Game.Sound
import Zinc.Game.PotionEffect
import Zinc.Game.Registry
import Zinc.Game.ConsumeEffect
import Zinc.Game.SlotDisplay
import Zinc.Game.Recipe
import Zinc.Game.ChatType
import Zinc.Network.BanText
import Zinc.Network.SessionLookup
import Zinc.Base.JsonReader
import Zinc.Base.JsonWriter
import Zinc.Base.JsonSpelling
import Zinc.Network.Printed
import Zinc.Nbt.Equality
import Zinc.Text.Distinct
import Zinc.Text.Equality
import Zinc.Text.Survival
import Zinc.Game.ChunkData
import Zinc.Bits.Longs
import Zinc.Game.LightData
import Zinc.Game.TrimMaterial
import Zinc.Game.Predicates
import Zinc.Base.Indexed
import Zinc.Base.Process
import Zinc.Game.LiveRegistry
import Zinc.Game.FailedEncode
import Zinc.Game.Lookups
import Zinc.Base.ShiftRegister
import Zinc.Util.CRC32
import Zinc.Buffer.Parsing
import Zinc.Nbt.Navigation
import Zinc.Nbt.Forgetting
import Zinc.Loader.Readiness
import Zinc.Loader.Reply
import Zinc.Loader.Workers
import Zinc.Game.Registration
import Zinc.Network.CoreConfig
import Zinc.Network.Equality
import Zinc.Nbt.Accepted
import Zinc.Base.Duplex
import Zinc.Network.Link
import Zinc.Network.Transcript
import Zinc.Buffer.Alike
import Zinc.Base.Interleaving
import Zinc.Network.Heartbeat
import Zinc.Network.Independence
import Zinc.Base.PrefixCode
import Zinc.Game.ItemStack
import Zinc.Network.Completion
import Zinc.Network.BanHistory
import Zinc.Network.ControlServer
import Zinc.Network.Dialogue
import Zinc.Game.BlockPredicate
import Zinc.Base.Overwriting
import Zinc.Text.Builder
import Zinc.Util.CommandLine
