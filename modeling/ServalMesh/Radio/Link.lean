import ServalMesh.Overlay.Buffer

/-!
# The packet radio link

A packet is sent in fragments, which have a sequence number of six bits and say whether they are the
first or the last one. The receiver puts them together again; a length that no packet can have
stands for a packet that is to be discarded.
-/

namespace ServalMesh.Radio

open Overlay

def fecLength : ℕ := 32

def radioHeaderLength : ℕ := 6

def radioUsedHeaderLength : ℕ := 4

def radioCrcLength : ℕ := 2

def linkMtu : ℕ := 255

def linkPayloadMtu : ℕ := linkMtu - fecLength - radioHeaderLength - radioCrcLength

def mavlinkMsgIdDatastream : Byte := 67#8

/-- The error correcting codes: what was encoded is decoded again. -/
structure LinkCodec where
  golayEncode : List Byte → List Byte
  golayDecode : List Byte → ℤ
  encodeRs8 : List Byte → List Byte
  decodeRs8 : List Byte → Option (List Byte)
  length_golayEncode : ∀ bytes, (golayEncode bytes).length = bytes.length
  length_encodeRs8 : ∀ data, (encodeRs8 data).length = fecLength
  decodeRs8_encodeRs8 : ∀ data, decodeRs8 (data ++ encodeRs8 data) = some (data ++ encodeRs8 data)

/-- What `struct radio_link_state` has for sending: the next sequence number, and the packet with
the position in it. -/
structure TxLink where
  txSeq : ℕ
  txPacket : Option (List Byte × ℕ)
deriving DecidableEq

/-- What it has for reassembly. Of `dst` only what was copied matters. -/
structure RxLink where
  seq : ℕ
  packetLength : ℕ
  dst : List Byte
deriving DecidableEq

/-- `radio_link_init`. -/
def RxLink.init : RxLink := ⟨0, 0, []⟩

section Sender

variable (codec : LinkCodec)

/-- The sequence number with the marks for the first and the last fragment. -/
def fragmentFlags (seq : ℕ) (startP endP : Bool) : Byte :=
  BitVec.ofNat 8 (seq % 64) ||| (if startP then 0x40#8 else 0#8) |||
    (if endP then 0x80#8 else 0#8)

/-- A frame with its header and its parity bytes. -/
def linkFrame (flags : Byte) (data : List Byte) : List Byte :=
  let len := data.length + fecLength - radioCrcLength
  let body := flags :: mavlinkMsgIdDatastream :: data
  0xfe#8 :: codec.golayEncode [BitVec.ofNat 8 len, BitVec.ofNat 8 (len % 16), 0#8] ++ body ++
    codec.encodeRs8 body

/-- `radio_link_encode_packet`. -/
def radioLinkEncodePacket (tx : TxLink) : TxLink × Option (List Byte) :=
  match tx.txPacket with
  | none => (tx, none)
  | some (packet, position) =>
    let remaining := packet.length - position
    let count := if linkPayloadMtu < remaining then linkPayloadMtu else remaining
    let endP := decide ¬linkPayloadMtu < remaining
    let data := (packet.drop position).take count
    ({ txSeq := tx.txSeq + 1, txPacket := if endP then none else some (packet, position + count) },
      some (linkFrame codec (fragmentFlags tx.txSeq (position = 0) endP) data))

/-- `radio_link_queue_packet`: there is one packet at a time. -/
def radioLinkQueuePacket (tx : TxLink) (packet : List Byte) : TxLink :=
  match tx.txPacket with
  | some _ => tx
  | none => { tx with txPacket := some (packet, 0) }

/-- `build_heartbeat`. -/
def buildHeartbeat : List Byte :=
  0xfe#8 :: codec.golayEncode [9#8, 9#8, 0#8] ++ [0xf1#8, 0#8] ++ List.replicate 8 0#8 ++
    codec.golayEncode [0x55#8, 0x05#8, 0#8]

end Sender

section Receiver

variable (codec : LinkCodec)

/-- What happens to a fragment, with the packet that is passed to `packetOkOverlay`. -/
def reassemble (rx : RxLink) (flags : Byte) (data : List Byte) : RxLink × Option (List Byte) :=
  let seq := (flags &&& 0x3f#8).toNat
  let packetLength := if seq ≠ (rx.seq + 1) % 64 then mdpMtu + 1 else rx.packetLength
  let packetLength := if flags &&& 0x40#8 ≠ 0#8 then 0 else packetLength
  if mdpMtu < packetLength + data.length then
    ({ rx with seq, packetLength := mdpMtu + 1 }, none)
  else
    let dst := rx.dst.take packetLength ++ data
    if flags &&& 0x80#8 ≠ 0#8 then ({ seq, packetLength := mdpMtu + 1, dst }, some dst)
    else ({ seq, packetLength := packetLength + data.length, dst }, none)

/-- `radio_link_parse`, with the packet that it passes on and whether the frame was accepted. -/
def radioLinkParse (rx : RxLink) (payload : List Byte) : RxLink × Option (List Byte) × Bool :=
  if payload.length = 17 then (rx, none, codec.golayDecode (payload.drop 14) = 0x555)
  else
    let dataBytes := payload.length - (radioUsedHeaderLength + fecLength)
    match codec.decodeRs8 (payload.drop radioUsedHeaderLength) with
    | none => (rx, none, false)
    | some corrected =>
      let data := (corrected.drop 2).take (dataBytes - 2)
      let (rx, packet) := reassemble rx (corrected.headD 0#8) data
      (rx, packet, true)

end Receiver

section System

/-- Two ends of a link, the packets that were queued and those that were passed on, the number of
frames that were lost in a row, and whether one was received. -/
structure RadioSystem where
  tx : TxLink
  rx : RxLink
  queued : List (List Byte)
  delivered : List (List Byte)
  lost : ℕ
  heard : Bool
deriving DecidableEq

def RadioSystem.start (txSeq : ℕ) : RadioSystem := ⟨⟨txSeq, none⟩, .init, [], [], 0, false⟩

/-- A packet is queued, the next fragment or a heartbeat is sent; frames may be lost. -/
inductive RadioOp where
  | queue (packet : List Byte)
  | send (lost : Bool)
  | heartbeat

def radioStep (codec : LinkCodec) (sys : RadioSystem) : RadioOp → RadioSystem
  | .queue packet =>
    { sys with
      tx := radioLinkQueuePacket sys.tx packet
      queued := if sys.tx.txPacket.isNone then sys.queued ++ [packet] else sys.queued }
  | .send lost =>
    match radioLinkEncodePacket codec sys.tx with
    | (_, none) => sys
    | (tx, some frame) =>
      if lost then { sys with tx, lost := sys.lost + 1 }
      else
        let (rx, packet, _) := radioLinkParse codec sys.rx frame
        { sys with tx, rx, delivered := sys.delivered ++ packet.toList, lost := 0, heard := true }
  | .heartbeat => { sys with rx := (radioLinkParse codec sys.rx (buildHeartbeat codec)).1 }

def runRadio (codec : LinkCodec) (sys : RadioSystem) (ops : List RadioOp) : RadioSystem :=
  ops.foldl (radioStep codec) sys

/-- Fewer than 64 frames are lost in a row. -/
def fewLost (codec : LinkCodec) (sys : RadioSystem) : List RadioOp → Bool
  | [] => true
  | op :: ops =>
    (radioStep codec sys op).lost < 64 && fewLost codec (radioStep codec sys op) ops

/-- The first frame that is received starts a packet, or does not have the number that follows the
one of a new state. -/
def joins (sys : RadioSystem) : RadioOp → Bool
  | .send false =>
    sys.heard || sys.tx.txPacket.all fun (_, position) => position = 0 || sys.tx.txSeq % 64 ≠ 1
  | _ => true

def joinsRun (codec : LinkCodec) (sys : RadioSystem) : List RadioOp → Bool
  | [] => true
  | op :: ops => joins sys op && joinsRun codec (radioStep codec sys op) ops

end System

end ServalMesh.Radio
