/-
The vendor protocol of `proto/vendor_proto.h` and its header codec in
`proto/vendor_proto_codec.c`: the 24-byte frame header, the enumerations of
its fields, the CRC over the header, and the two directions of the codec.

`VpHdr.bytes` is the header as a list of bytes; every serializer of the
firmware writes it (`VP.serializeHeader_eq`).
-/
import Mathlib.Logic.Function.Iterate
import UsbMux.Lib.Block
import UsbMux.Lib.Endian

namespace UsbMux

open Endian

/-! ## Constants and enumerations -/

namespace VP

abbrev magic : UInt16 := 0xA55A
abbrev version : UInt8 := 0x01
abbrev irqHintVersion : UInt8 := 0x01
abbrev headerLen : Nat := 24

/-! The offset table of the header, which the codec, the receiver and the
transmitter each repeat. -/

abbrev magicOffset : Nat := 0
abbrev versionOffset : Nat := 2
abbrev headerLenOffset : Nat := 3
abbrev totalLenOffset : Nat := 4
abbrev seqOffset : Nat := 6
abbrev refSeqOffset : Nat := 8
abbrev chTypeOffset : Nat := 10
abbrev chIdOffset : Nat := 11
abbrev msgTypeOffset : Nat := 12
abbrev opcodeOffset : Nat := 13
abbrev flagsOffset : Nat := 14
abbrev statusOffset : Nat := 16
abbrev payloadLenOffset : Nat := 18
abbrev crc16Offset : Nat := 20
abbrev reservedOffset : Nat := 22

end VP

abbrev appUsbMaxFrameLen : Nat := 512

@[simp] theorem VP.headerLen_eq : VP.headerLen = 24 := rfl
@[simp] theorem appUsbMaxFrameLen_eq : appUsbMaxFrameLen = 512 := rfl

/-- `vp_channel_type_t`. -/
inductive VpChannelType
  | sys | uartCtrl | uartData | bleMgmt | bleConn | netMgmt | netData
deriving DecidableEq, Repr

def VpChannelType.code : VpChannelType → UInt8
  | .sys => 0x00
  | .uartCtrl => 0x01
  | .uartData => 0x02
  | .bleMgmt => 0x10
  | .bleConn => 0x11
  | .netMgmt => 0x20
  | .netData => 0x21

/-- `vp_msg_type_t`. -/
inductive VpMsgType
  | cmd | rsp | evt | data
deriving DecidableEq, Repr

def VpMsgType.code : VpMsgType → UInt8
  | .cmd => 0x01
  | .rsp => 0x02
  | .evt => 0x03
  | .data => 0x04

/-- `vp_uart_opcode_t`. -/
inductive VpUartOpcode
  | getPortCap | getPortMap | openPort | close | setLineCoding | setFlowCtrl | setModemSignals
  | getModemStatus | sendBreak | flushRx | flushTx | getStats
deriving DecidableEq, Repr

def VpUartOpcode.code : VpUartOpcode → UInt8
  | .getPortCap => 0x01
  | .getPortMap => 0x02
  | .openPort => 0x03
  | .close => 0x04
  | .setLineCoding => 0x05
  | .setFlowCtrl => 0x06
  | .setModemSignals => 0x07
  | .getModemStatus => 0x08
  | .sendBreak => 0x09
  | .flushRx => 0x0A
  | .flushTx => 0x0B
  | .getStats => 0x0C

/-- The opcode a byte stands for. -/
def VpUartOpcode.ofCode (c : UInt8) : Option VpUartOpcode :=
  [getPortCap, getPortMap, openPort, close, setLineCoding, setFlowCtrl, setModemSignals, getModemStatus,
    sendBreak, flushRx, flushTx, getStats].find? (·.code == c)

/-- `vp_ble_opcode_t`: the commands, then the events. -/
inductive VpBleOpcode
  | getCap | setScanParam | scanStart | scanStop | connect | disconnect | getConnState | discoverServices
  | discoverCharacteristics | discoverDescriptors | read | writeReq | writeCmd | subscribe | unsubscribe
  | exchangeMtu | readRssi | updateConnParam
  | evtScanRsp | evtConnState | evtServiceFound | evtCharFound | evtDescFound | evtReadResult
  | evtWriteResult | evtNotifyData | evtIndicateData | evtRssiResult
deriving DecidableEq, Repr

def VpBleOpcode.code : VpBleOpcode → UInt8
  | .getCap => 0x01
  | .setScanParam => 0x02
  | .scanStart => 0x03
  | .scanStop => 0x04
  | .connect => 0x05
  | .disconnect => 0x06
  | .getConnState => 0x07
  | .discoverServices => 0x08
  | .discoverCharacteristics => 0x09
  | .discoverDescriptors => 0x0A
  | .read => 0x0B
  | .writeReq => 0x0C
  | .writeCmd => 0x0D
  | .subscribe => 0x0E
  | .unsubscribe => 0x0F
  | .exchangeMtu => 0x10
  | .readRssi => 0x11
  | .updateConnParam => 0x12
  | .evtScanRsp => 0x80
  | .evtConnState => 0x81
  | .evtServiceFound => 0x82
  | .evtCharFound => 0x83
  | .evtDescFound => 0x84
  | .evtReadResult => 0x85
  | .evtWriteResult => 0x86
  | .evtNotifyData => 0x87
  | .evtIndicateData => 0x88
  | .evtRssiResult => 0x89

/-- The command a byte stands for. -/
def VpBleOpcode.ofCode (c : UInt8) : Option VpBleOpcode :=
  [getCap, setScanParam, scanStart, scanStop, connect, disconnect, getConnState, discoverServices,
    discoverCharacteristics, discoverDescriptors, read, writeReq, writeCmd, subscribe, unsubscribe,
    exchangeMtu, readRssi, updateConnParam].find? (·.code == c)

/-- `vp_status_t`. -/
inductive VpStatus
  | ok | errBadMagic | errBadVersion | errBadLen | errBadHdrCrc | errBadPayloadCrc
  | errUnsupportedCh | errUnsupportedOpcode | errInvalidParam | errInvalidState | errBusy
  | errNoResource | errTimeout | errOverflow | errUartMapInvalid | errUartNotOpen
  | errBleSlotInvalid | errBleNotConnected | errBleDiscNotReady | errBleAtt | errInternal
deriving DecidableEq, Repr

def VpStatus.code : VpStatus → UInt16
  | .ok => 0x0000
  | .errBadMagic => 0x0001
  | .errBadVersion => 0x0002
  | .errBadLen => 0x0003
  | .errBadHdrCrc => 0x0004
  | .errBadPayloadCrc => 0x0005
  | .errUnsupportedCh => 0x0006
  | .errUnsupportedOpcode => 0x0007
  | .errInvalidParam => 0x0008
  | .errInvalidState => 0x0009
  | .errBusy => 0x000A
  | .errNoResource => 0x000B
  | .errTimeout => 0x000C
  | .errOverflow => 0x000D
  | .errUartMapInvalid => 0x0010
  | .errUartNotOpen => 0x0011
  | .errBleSlotInvalid => 0x0020
  | .errBleNotConnected => 0x0021
  | .errBleDiscNotReady => 0x0022
  | .errBleAtt => 0x0023
  | .errInternal => 0x0030

/-! ## The header -/

/-- `vp_hdr_t`. -/
structure VpHdr where
  magic : UInt16
  version : UInt8
  headerLen : UInt8
  totalLen : UInt16
  seq : UInt16
  refSeq : UInt16
  chType : UInt8
  chId : UInt8
  msgType : UInt8
  opcode : UInt8
  flags : UInt16
  status : UInt16
  payloadLen : UInt16
  headerCrc16 : UInt16
  reserved : UInt16
deriving DecidableEq, Repr

/-- `memset(&hdr, 0, sizeof(hdr))`. -/
def VpHdr.zero : VpHdr := ⟨0, 0, 0, 0, 0, 0, 0, 0, 0, 0, 0, 0, 0, 0, 0⟩

/-- `vp_irq_hint_t`. -/
structure VpIrqHint where
  version : UInt8
  urgentFlags : UInt8
  pendingBitmap : UInt16
  droppedBitmap : UInt16
  reserved : UInt16
deriving DecidableEq, Repr

/-- The eight bytes of the packed structure. -/
def VpIrqHint.bytes (h : VpIrqHint) : List UInt8 :=
  [h.version, h.urgentFlags, lo h.pendingBitmap, hi h.pendingBitmap, lo h.droppedBitmap,
    hi h.droppedBitmap, lo h.reserved, hi h.reserved]

/-- The 24 bytes of a header whose CRC field holds `crc`. -/
def VpHdr.bytes (h : VpHdr) (crc : UInt16) : List UInt8 :=
  [lo h.magic, hi h.magic, h.version, h.headerLen, lo h.totalLen, hi h.totalLen, lo h.seq, hi h.seq,
    lo h.refSeq, hi h.refSeq, h.chType, h.chId, h.msgType, h.opcode, lo h.flags, hi h.flags,
    lo h.status, hi h.status, lo h.payloadLen, hi h.payloadLen, lo crc, hi crc, lo h.reserved,
    hi h.reserved]

@[simp] theorem VpHdr.length_bytes (h : VpHdr) (crc : UInt16) : (h.bytes crc).length = VP.headerLen := rfl

namespace VP

/-- `VP_SerializeHeader` over the array `buf`. -/
def serializeHeader (buf : List UInt8) (hdr : VpHdr) (headerCrc16 : UInt16) : List UInt8 :=
  let buf := writeLe16 buf magicOffset hdr.magic
  let buf := buf.set versionOffset hdr.version
  let buf := buf.set headerLenOffset hdr.headerLen
  let buf := writeLe16 buf totalLenOffset hdr.totalLen
  let buf := writeLe16 buf seqOffset hdr.seq
  let buf := writeLe16 buf refSeqOffset hdr.refSeq
  let buf := buf.set chTypeOffset hdr.chType
  let buf := buf.set chIdOffset hdr.chId
  let buf := buf.set msgTypeOffset hdr.msgType
  let buf := buf.set opcodeOffset hdr.opcode
  let buf := writeLe16 buf flagsOffset hdr.flags
  let buf := writeLe16 buf statusOffset hdr.status
  let buf := writeLe16 buf payloadLenOffset hdr.payloadLen
  let buf := writeLe16 buf crc16Offset headerCrc16
  writeLe16 buf reservedOffset hdr.reserved

/-- `VP_DeserializeHeader` from the array `buf`. -/
def deserializeHeader (buf : List UInt8) : VpHdr where
  magic := readLe16 buf magicOffset
  version := buf.getD versionOffset 0
  headerLen := buf.getD headerLenOffset 0
  totalLen := readLe16 buf totalLenOffset
  seq := readLe16 buf seqOffset
  refSeq := readLe16 buf refSeqOffset
  chType := buf.getD chTypeOffset 0
  chId := buf.getD chIdOffset 0
  msgType := buf.getD msgTypeOffset 0
  opcode := buf.getD opcodeOffset 0
  flags := readLe16 buf flagsOffset
  status := readLe16 buf statusOffset
  payloadLen := readLe16 buf payloadLenOffset
  headerCrc16 := readLe16 buf crc16Offset
  reserved := readLe16 buf reservedOffset

/-- `VP_CheckHeaderShape` of a header that is there. The sum is cut to 16
bits before it is compared. -/
def checkHeaderShape (hdr : VpHdr) : Bool :=
  hdr.magic == magic && hdr.version == version && hdr.headerLen == UInt8.ofNat headerLen &&
    hdr.totalLen == hdr.headerLen.toUInt16 + hdr.payloadLen

/-- One turn of the inner loop of `VP_Crc16`. -/
def crcBit (crc : UInt16) : UInt16 :=
  if crc &&& 0x8000 ≠ 0 then (crc <<< 1) ^^^ 0x1021 else crc <<< 1

/-- One turn of the outer loop of `VP_Crc16`. -/
def crcByte (crc : UInt16) (b : UInt8) : UInt16 := crcBit^[8] (crc ^^^ (b.toUInt16 <<< 8))

/-- `VP_Crc16` over all bytes of `data`. -/
def crc16 (data : List UInt8) : UInt16 := data.foldl crcByte 0xFFFF

/-- The fields `VP_EncodeHeader` derives before it computes the CRC. -/
def fillHeader (hdr : VpHdr) : VpHdr :=
  { hdr with
    magic := magic
    version := version
    headerLen := UInt8.ofNat headerLen
    totalLen := (UInt8.ofNat headerLen).toUInt16 + hdr.payloadLen
    headerCrc16 := 0 }

/-- `VP_EncodeHeader` of a header that is there. -/
def encodeHeader (hdr : VpHdr) : VpHdr :=
  let headerBytes := serializeHeader (List.replicate headerLen 0) (fillHeader hdr) 0
  { fillHeader hdr with headerCrc16 := crc16 headerBytes }

def checkFrameBounds (hdr : VpHdr) (maxLen : UInt16) : Bool :=
  checkHeaderShape hdr && !(hdr.totalLen > maxLen)

/-- `VP_DecodeHeader` with both pointers set, over the caller's `*hdr`: what it
leaves there, and whether it answers 0. -/
def decodeHeader (buf : List UInt8) (len : UInt16) (hdr : VpHdr) : VpHdr × Bool :=
  if len < UInt16.ofNat headerLen then (hdr, false)
  else
    let localHdr := deserializeHeader buf
    if !checkFrameBounds localHdr len then (hdr, false)
    else
      let expectedCrc := localHdr.headerCrc16
      let headerBytes := serializeHeader (List.replicate headerLen 0) localHdr 0
      if crc16 headerBytes ≠ expectedCrc then (hdr, false)
      else ({ localHdr with headerCrc16 := expectedCrc }, true)

end VP

/-! ## Headers as bytes -/

namespace VP

@[simp] theorem length_serializeHeader (buf : List UInt8) (hdr : VpHdr) (crc : UInt16) :
    (serializeHeader buf hdr crc).length = buf.length := by simp [serializeHeader]

/-- Serializing writes the header's bytes over the first 24 of the array. -/
theorem serializeHeader_eq {buf : List UInt8} (h : headerLen ≤ buf.length) (hdr : VpHdr) (crc : UInt16) :
    serializeHeader buf hdr crc = hdr.bytes crc ++ buf.drop headerLen := by
  have h0 : serializeHeader buf hdr crc = serializeHeader ([] ++ buf.drop 0) hdr crc := rfl
  rw [h0, serializeHeader]
  -- the fields stand in the order of their offsets, so each write goes on where the last one ended
  rw [writeLe16_next, set_next, set_next, writeLe16_next, writeLe16_next, writeLe16_next, set_next, set_next,
    set_next, set_next, writeLe16_next, writeLe16_next, writeLe16_next, writeLe16_next, writeLe16_next]
  · simp [VpHdr.bytes, le16]
  all_goals first | exact Nat.lt_of_lt_of_le (by decide) h | simp

theorem deserializeHeader_bytes (hdr : VpHdr) (crc : UInt16) (t : List UInt8) :
    deserializeHeader (hdr.bytes crc ++ t) = { hdr with headerCrc16 := crc } := by
  simp [deserializeHeader, VpHdr.bytes, readLe16]

theorem deserializeHeader_own (hdr : VpHdr) (t : List UInt8) :
    deserializeHeader (hdr.bytes hdr.headerCrc16 ++ t) = hdr := deserializeHeader_bytes ..

@[simp] theorem encodeHeader_payloadLen (hdr : VpHdr) : (encodeHeader hdr).payloadLen = hdr.payloadLen := rfl
@[simp] theorem encodeHeader_totalLen (hdr : VpHdr) :
    (encodeHeader hdr).totalLen = 24 + hdr.payloadLen := rfl

/-- The CRC an encoded header carries is the CRC of its bytes with the CRC
field cleared. -/
theorem encodeHeader_crc (hdr : VpHdr) :
    (encodeHeader hdr).headerCrc16 = crc16 ((encodeHeader hdr).bytes 0) := by
  have h := serializeHeader_eq (show headerLen ≤ (List.replicate headerLen (0 : UInt8)).length by simp)
    (fillHeader hdr) 0
  simp only [encodeHeader, h, List.drop_replicate, Nat.sub_self, List.replicate_zero, List.append_nil]
  rfl

end VP

end UsbMux
