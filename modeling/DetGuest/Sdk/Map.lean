import DetGuest.Sdk.Channel

/-!
# Mapping the channel

The workload maps the channel page, checks its header and takes its halves of rings W and I.
-/

namespace Sdk

open Wire

/-- Read the header at the start of the page and check it. -/
def readAndValidateHeader (bytes : Bytes) : Res InitError ChannelHeader := do
  let header ← (ChannelHeader.readFrom bytes).mapErr mapDecodeError
  Res.failIf (header.magic ≠ channelMagic) (.badChannelHeader header.magic)
  Res.failIf (header.protoVersion ≠ protoVersion)
    (.protocolVersionMismatch protoVersion header.protoVersion)
  header.validate.mapErr mapDecodeError
  pure header

/-- The halves of the workload: the producer of ring W, whose next record has the number
`nextSeq`, and the consumer of ring I. -/
structure MappedChannel where
  ringW : RawRing
  nextSeq : UInt32
  ringI : RawRing
  deriving DecidableEq, Repr

/-- A ring of the page at `ptr`. -/
def rawRing (ptr : Nat) (ring : RingId) (d : RingDesc) : RawRing :=
  { data := ptr + d.offset.toNat
    size := d.size
    prod := ptr + ring.prodOffset
    cons := ptr + ring.consOffset }

/-- Take the halves of the page at `ptr` with the given content. -/
def MappedChannel.map (ptr : Nat) (page : Bytes) : Res InitError MappedChannel := do
  let header ← readAndValidateHeader page
  let producerW ← fromRaw (rawRing ptr .W (header.ringDesc .W))
  let consumerI ← fromRaw (rawRing ptr .I (header.ringDesc .I))
  pure { ringW := producerW, nextSeq := 0, ringI := consumerI }

end Sdk
