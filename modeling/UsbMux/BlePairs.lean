/-
The results in a discovery response, pair by pair. Three handlers walk a list
of bytes, two of them with a stride that the peer chooses; each pair becomes
one event with what `decode` says of its bytes alone (`response_decoded`).

The handlers are here once more as computations that read the list cell by
cell, as the payload readers of the router are: they read nothing behind the
last pair.
-/
import Mathlib.Data.List.GetD
import UsbMux.Lib.Access
import UsbMux.BleDiscovery
import UsbMux.BleUnused

namespace UsbMux

open Endian UsbTx

variable {β : Type}

namespace BleLink

/-! ## What a pair says -/

/-- The sixteen bytes for a UUID: what is there of it, and zeros. -/
def uuidField (uuid : List UInt8) : List UInt8 := (uuid ++ List.replicate bleLinkUuidMaxLen 0).take bleLinkUuidMaxLen

/-- How many of them are the UUID's. -/
def uuidLen (uuid : List UInt8) : UInt8 := UInt8.ofNat (min bleLinkUuidMaxLen uuid.length)

namespace Discovery

/-- The payload of the event for a pair: handles and properties where they
stand in it, the message's status, and the UUID behind them. -/
def decode (status : UInt8) (pair : List UInt8) : Discovery → List UInt8
  | .services =>
    let uuid := pair.drop 4
    pair.take 4 ++ [status, 0, uuidLen uuid, 0] ++ uuidField uuid
  | .chars =>
    let uuid := pair.drop 5
    pair.take 2 ++ (pair.drop 3).take 2 ++ [status, 0, pair.getD 2 0, uuidLen uuid] ++ uuidField uuid
  | .descs =>
    let uuid := pair.drop 2
    pair.take 2 ++ [status, 0, uuidLen uuid, 0] ++ uuidField uuid

def eventOpcode : Discovery → VpBleOpcode
  | .services => .evtServiceFound
  | .chars => .evtCharFound
  | .descs => .evtDescFound

def eventLen : Discovery → UInt16
  | .services => 24
  | .chars => 24
  | .descs => 22

end Discovery

/-- Pair `k` of a list. -/
def pairAt (bytes : List UInt8) (pairLen k : Nat) : List UInt8 := (bytes.drop (k * pairLen)).take pairLen

theorem shift_pair (pair rest : List UInt8) {k : Nat} (h : k ≤ pair.length) :
    Ptr.shift (some (pair ++ rest)) k = some (pair.drop k ++ rest) := by
  rw [Ptr.shift, Option.map_some, List.drop_append_of_le_length h]

theorem cells_pair (pair rest : List UInt8) {n : Nat} (h : n ≤ pair.length) :
    Ptr.cells (some (pair ++ rest)) n = pair.take n := by
  rw [Ptr.cells_some (by simp; omega), List.take_append_of_le_length h]

theorem le16_buildUint16 (pair rest : List UInt8) {k : Nat} (h : k + 2 ≤ pair.length) :
    le16 (buildUint16 (some (pair ++ rest)) k) = (pair.drop k).take 2 := by
  rw [← cells_pair (pair.drop k) rest (by simp; omega), ← shift_pair pair rest (by omega)]
  simp [le16, buildUint16, Ptr.cells, List.range_succ, Ptr.cell_shift]

theorem le16_status (status : UInt8) : le16 status.toUInt16 = [status, 0] := by
  have hbytes : status.toUInt16 = ofBytes status 0 := by simp [ofBytes]
  rw [hbytes, le16, lo_ofBytes, hi_ofBytes]

theorem toNat_min (a b : UInt16) : (min a b).toNat = min a.toNat b.toNat := by
  have hle : a ≤ b ↔ a.toNat ≤ b.toNat := UInt16.le_iff_toNat_le
  rw [show min a b = if a ≤ b then a else b from rfl]
  split
  · next hab => exact (Nat.min_eq_left (hle.mp hab)).symm
  · next hab => exact (Nat.min_eq_right (Nat.le_of_not_le (mt hle.mpr hab))).symm

theorem copyUuid_some (uuid rest : List UInt8) {len : UInt16} (h : uuid.length = len.toNat) :
    (copyUuid (some (uuid ++ rest)) len).1 = uuidField uuid ∧
      (copyUuid (some (uuid ++ rest)) len).2.toUInt8 = uuidLen uuid := by
  have hmin : (min len (UInt16.ofNat bleLinkUuidMaxLen)).toNat = min 16 uuid.length := by
    rw [toNat_min, h, Nat.min_comm]
    rfl
  have hcopied : (if (some (uuid ++ rest)).isSome ∧ min len (UInt16.ofNat bleLinkUuidMaxLen) > 0 then
      Ptr.cells (some (uuid ++ rest)) (min len (UInt16.ofNat bleLinkUuidMaxLen)).toNat else []) = uuid.take 16 := by
    rw [hmin, cells_pair uuid rest (Nat.min_le_right ..), ← List.take_eq_take_min]
    split
    · rfl
    · next hzero =>
      have hlen : ¬ 0 < min 16 uuid.length := fun hpos =>
        hzero ⟨rfl, UInt16.lt_iff_toNat_lt.mpr (by rw [hmin]; exact hpos)⟩
      rw [List.eq_nil_of_length_eq_zero (by omega : uuid.length = 0), List.take_nil]
  constructor
  · simp only [copyUuid, hcopied, uuidField, List.take_append, List.take_replicate, List.length_take]
    have hmax : bleLinkUuidMaxLen = 16 := rfl
    congr 2
    omega
  · rw [copyUuid, uuidLen, ← UInt8.toNat_inj]
    simp [hmin]

/-- The length of the UUID behind the first `k` bytes of a pair. -/
theorem length_uuid {pair : List UInt8} {len k : UInt16} (hp : pair.length = len.toNat) (hk : k ≤ len) :
    (pair.drop k.toNat).length = (if len > k then len - k else 0).toNat := by
  have hle := UInt16.le_iff_toNat_le.mp hk
  rw [List.length_drop, hp]
  split
  · exact (UInt16.toNat_sub_of_le _ _ hk).symm
  · next hlt =>
    have := UInt16.le_iff_toNat_le.mp (UInt16.not_lt.mp hlt)
    simp
    omega

/-- **One pair**, whatever stands behind it. -/
theorem found_decode (d : Discovery) (msg : GattMsgEvent) (hr : d.Regular msg) (slot : UInt8) {pair : List UInt8}
    (hp : pair.length = (d.pairLen msg).toNat) (rest : List UInt8) :
    d.found msg slot (some (pair ++ rest)) =
      [.evt VpChannelType.bleConn.code slot d.eventOpcode.code (some (d.decode msg.status pair)) d.eventLen] := by
  have htwo {k : Nat} (h : k + 2 ≤ pair.length) := le16_buildUint16 pair rest h
  cases d with
  | services =>
    have hlen : 4 ≤ pair.length := hp ▸ UInt16.le_iff_toNat_le.mp hr
    have huuid : (pair.drop 4).length =
      (if msg.readByGrpTypeRsp.len > 4 then msg.readByGrpTypeRsp.len - 4 else 0).toNat := length_uuid hp hr
    obtain ⟨hfield, hcount⟩ := copyUuid_some (pair.drop 4) rest huuid
    have hboth : pair.take 4 = (pair.drop 0).take 2 ++ (pair.drop 2).take 2 := by
      rw [List.drop_zero, ← List.take_add]
    simp only [Discovery.found, reportServiceFound, shift_pair pair rest hlen, hfield, hcount, le16_status,
      htwo (show 0 + 2 ≤ _ by omega), htwo (show 2 + 2 ≤ _ by omega), Discovery.decode, hboth]
    simp [Discovery.eventOpcode, Discovery.eventLen]
  | chars =>
    have hlen : 5 ≤ pair.length := hp ▸ UInt16.le_iff_toNat_le.mp hr
    have huuid : (pair.drop 5).length =
      (if msg.readByTypeRsp.len > 5 then msg.readByTypeRsp.len - 5 else 0).toNat := length_uuid hp hr
    obtain ⟨hfield, hcount⟩ := copyUuid_some (pair.drop 5) rest huuid
    have hprops : Ptr.cell (some (pair ++ rest)) 2 = pair.getD 2 0 := List.getD_append pair rest 0 2 (by omega)
    simp only [Discovery.found, reportCharFound, shift_pair pair rest hlen, hfield, hcount, hprops, le16_status,
      htwo (show 0 + 2 ≤ _ by omega), htwo (show 3 + 2 ≤ _ by omega), Discovery.decode]
    simp [Discovery.eventOpcode, Discovery.eventLen]
  | descs =>
    have hlong : 2 ≤ Discovery.descs.pairLen msg := by
      rw [Discovery.pairLen]
      split <;> decide
    have hlen : 2 ≤ pair.length := hp ▸ UInt16.le_iff_toNat_le.mp hlong
    have huuid : (pair.drop 2).length = (Discovery.descs.pairLen msg - 2).toNat := by
      rw [List.length_drop, hp, UInt16.toNat_sub_of_le _ _ hlong]
      rfl
    obtain ⟨hfield, hcount⟩ := copyUuid_some (pair.drop 2) rest huuid
    simp only [Discovery.found, reportDescFound, shift_pair pair rest hlen, hfield, hcount, le16_status,
      htwo (show 0 + 2 ≤ _ by omega), Discovery.decode]
    simp [Discovery.eventOpcode, Discovery.eventLen]

/-- The event for pair `k`. -/
def Discovery.event (d : Discovery) (slot status : UInt8) (bytes : List UInt8) (pairLen k : Nat) : Enqueue :=
  .evt VpChannelType.bleConn.code slot d.eventOpcode.code (some (d.decode status (pairAt bytes pairLen k))) d.eventLen

theorem results_decode (d : Discovery) (msg : GattMsgEvent) (hr : d.Regular msg) (slot : UInt8) {bytes : List UInt8}
    (hlist : d.list msg = some bytes) (hlen : (d.count msg).toNat * (d.pairLen msg).toNat ≤ bytes.length) :
    d.results slot msg =
      (List.range (d.count msg).toNat).map (d.event slot msg.status bytes (d.pairLen msg).toNat) := by
  have hpair {k : Nat} (hk : k < (d.count msg).toNat) :
      d.found msg slot (d.pair msg k) = [d.event slot msg.status bytes (d.pairLen msg).toNat k] := by
    have hend : (k + 1) * (d.pairLen msg).toNat ≤ bytes.length := (Nat.mul_le_mul_right _ hk).trans hlen
    rw [Nat.succ_mul] at hend
    have hsplit : d.pair msg k = some (pairAt bytes (d.pairLen msg).toNat k ++
        (bytes.drop (k * (d.pairLen msg).toNat)).drop (d.pairLen msg).toNat) := by
      rw [Discovery.pair, hlist, pairAt, List.take_append_drop]
      rfl
    rw [hsplit, found_decode d msg hr slot (by simp [pairAt]; omega)]
    rfl
  rw [Discovery.results, List.map_eq_flatMap]
  exact List.flatMap_congr fun k hk => hpair (List.mem_range.mp hk)

end BleLink

/-! ## What is read of the list -/

namespace PairReads

open Access

abbrev Reads (α : Type) := Access UInt8 α

def buildUint16 (k : Nat) : Reads UInt16 := do
  let l ← read k
  let h ← read (k + 1)
  pure (ofBytes l h)

/-- `BleLink_CopyUuid` of what is at index `off`. -/
def copyUuid (off : Nat) (len : UInt16) : Reads (List UInt8 × UInt16) := do
  let copyLen := min len (UInt16.ofNat BleLink.bleLinkUuidMaxLen)
  let null ← isNull
  if null = false ∧ copyLen > 0 then
    let copied ← copy off copyLen.toNat
    pure (copied ++ List.replicate (BleLink.bleLinkUuidMaxLen - copied.length) 0, copyLen)
  else pure (List.replicate BleLink.bleLinkUuidMaxLen 0, copyLen)

def reportServices (slot : UInt8) (status pairLen uuidLen : UInt16) : Nat → Nat → Reads (List Enqueue)
  | 0, _ => pure []
  | n + 1, off => do
    let startHandle ← buildUint16 off
    let endHandle ← buildUint16 (off + 2)
    let u ← copyUuid (off + 4) uuidLen
    let evts ← reportServices slot status pairLen uuidLen n (off + pairLen.toNat)
    pure (.evt VpChannelType.bleConn.code slot VpBleOpcode.evtServiceFound.code
      (some (le16 startHandle ++ le16 endHandle ++ le16 status ++ [u.2.toUInt8, 0] ++ u.1)) 24 :: evts)

def reportChars (slot : UInt8) (status pairLen uuidLen : UInt16) :
    Nat → Nat → UInt16 → Reads (UInt16 × List Enqueue)
  | 0, _, last => pure (last, [])
  | n + 1, off, _ => do
    let declHandle ← buildUint16 off
    let valueHandle ← buildUint16 (off + 3)
    let properties ← read (off + 2)
    let u ← copyUuid (off + 5) uuidLen
    let r ← reportChars slot status pairLen uuidLen n (off + pairLen.toNat) valueHandle
    pure (r.1, .evt VpChannelType.bleConn.code slot VpBleOpcode.evtCharFound.code
      (some (le16 declHandle ++ le16 valueHandle ++ le16 status ++ [properties, u.2.toUInt8] ++ u.1)) 24 :: r.2)

def reportDescs (slot : UInt8) (status pairLen : UInt16) : Nat → Nat → UInt16 → Reads (UInt16 × List Enqueue)
  | 0, _, last => pure (last, [])
  | n + 1, off, _ => do
    let handle ← buildUint16 off
    let u ← copyUuid (off + 2) (pairLen - 2)
    let r ← reportDescs slot status pairLen n (off + pairLen.toNat) handle
    pure (r.1, .evt VpChannelType.bleConn.code slot VpBleOpcode.evtDescFound.code
      (some (le16 handle ++ le16 status ++ [u.2.toUInt8, 0] ++ u.1)) 22 :: r.2)

theorem buildUint16_computes {k n : Nat} (h : k + 2 ≤ n) :
    Computes n (buildUint16 k) fun p => BleLink.buildUint16 p k := by
  refine .bind (.read (by omega)) fun _ => .bind (.read (by omega)) fun _ => .pure _

theorem copyUuid_computes {off n : Nat} {len : UInt16} (h : off + len.toNat ≤ n) :
    Computes n (copyUuid off len) fun p => BleLink.copyUuid (p.shift off) len := by
  have hcopy : off + (min len (UInt16.ofNat BleLink.bleLinkUuidMaxLen)).toNat ≤ n := by
    rw [BleLink.toNat_min]
    omega
  refine .congr (.bind .isNull fun _ => .ite (fun _ => .bind (.copy hcopy) fun _ => .pure _) fun _ => .pure _)
    fun p => ?_
  simp only [BleLink.copyUuid]
  cases p with
  | none => simp [Ptr.shift]
  | some l =>
    have hsome : (Ptr.shift (some l) off).isSome := rfl
    simp only [hsome, Option.isNone_some, true_and]
    split
    · rfl
    · simp

theorem buildUint16_shift (p : Ptr UInt8) (off k : Nat) :
    BleLink.buildUint16 (p.shift off) k = BleLink.buildUint16 p (off + k) := by
  simp only [BleLink.buildUint16, Ptr.cell_shift, Nat.add_assoc]

theorem reportServices_computes (slot : UInt8) (status : UInt16) {pairLen uuidLen : UInt16} {total : Nat}
    (hu : 4 + uuidLen.toNat ≤ pairLen.toNat) (n off : Nat) (h : off + n * pairLen.toNat ≤ total) :
    Computes total (reportServices slot status pairLen uuidLen n off) fun p =>
      BleLink.reportServices slot status pairLen uuidLen n (p.shift off) := by
  induction n generalizing off with
  | zero => exact .pure _
  | succ n ih =>
    rw [Nat.succ_mul] at h
    have hrest := ih (off + pairLen.toNat) (by omega)
    refine .congr (.bind (buildUint16_computes (by omega)) fun _ => .bind (buildUint16_computes (by omega)) fun _ =>
      .bind (copyUuid_computes (by omega)) fun _ => .bind hrest fun _ => .pure _) fun p => ?_
    simp only [BleLink.reportServices, BleLink.reportServiceFound, buildUint16_shift, Ptr.shift_shift, Nat.add_zero,
      List.singleton_append]

theorem reportChars_computes (slot : UInt8) (status : UInt16) {pairLen uuidLen : UInt16} {total : Nat}
    (hu : 5 + uuidLen.toNat ≤ pairLen.toNat) (n off : Nat) (last : UInt16) (h : off + n * pairLen.toNat ≤ total) :
    Computes total (reportChars slot status pairLen uuidLen n off last) fun p =>
      BleLink.reportChars slot status pairLen uuidLen n (p.shift off) last := by
  induction n generalizing off last with
  | zero => exact .pure _
  | succ n ih =>
    rw [Nat.succ_mul] at h
    have hrest (last : UInt16) := ih (off + pairLen.toNat) last (by omega)
    refine .congr (.bind (buildUint16_computes (by omega)) fun _ => .bind (buildUint16_computes (by omega)) fun _ =>
      .bind (.read (by omega)) fun _ => .bind (copyUuid_computes (by omega)) fun _ => .bind (hrest _) fun _ => .pure _)
      fun p => ?_
    simp only [BleLink.reportChars, BleLink.reportCharFound, buildUint16_shift, Ptr.shift_shift, Ptr.cell_shift,
      Nat.add_zero, List.singleton_append]

theorem reportDescs_computes (slot : UInt8) (status : UInt16) {pairLen : UInt16} {total : Nat}
    (hu : 2 ≤ pairLen) (n off : Nat) (last : UInt16) (h : off + n * pairLen.toNat ≤ total) :
    Computes total (reportDescs slot status pairLen n off last) fun p =>
      BleLink.reportDescs slot status pairLen n (p.shift off) last := by
  have huuid : (pairLen - 2).toNat = pairLen.toNat - 2 := UInt16.toNat_sub_of_le _ _ hu
  have hlen := UInt16.le_iff_toNat_le.mp hu
  simp only [UInt16.reduceToNat] at hlen
  induction n generalizing off last with
  | zero => exact .pure _
  | succ n ih =>
    rw [Nat.succ_mul] at h
    have hrest (last : UInt16) := ih (off + pairLen.toNat) last (by omega)
    refine .congr (.bind (buildUint16_computes (by omega)) fun _ => .bind (copyUuid_computes (by omega)) fun _ =>
      .bind (hrest _) fun _ => .pure _) fun p => ?_
    simp only [BleLink.reportDescs, BleLink.reportDescFound, buildUint16_shift, Ptr.shift_shift, Nat.add_zero,
      List.singleton_append]

/-- The message with another list for the results of a discovery. -/
abbrev withList (msg : GattMsgEvent) (list : Ptr UInt8) : BleLink.Discovery → GattMsgEvent
  | .services => { msg with readByGrpTypeRsp := { msg.readByGrpTypeRsp with pDataList := list } }
  | .chars => { msg with readByTypeRsp := { msg.readByTypeRsp with pDataList := list } }
  | .descs => { msg with findInfoRsp := { msg.findInfoRsp with pInfo := list } }

section Handlers

variable (lib : AttLib β) (s : BleLink.State β) (i : Fin BleLink.bleMaxLinks) (msg : GattMsgEvent)

def handleDiscoverServices : Reads (BleLink.State β × List Enqueue) :=
  let rsp := msg.readByGrpTypeRsp
  if msg.method = attReadByGrpTypeRsp ∧ rsp.numGrps > 0 ∧ rsp.len ≥ 4 then do
    let uuidLen := if rsp.len > 4 then rsp.len - 4 else 0
    let evts ← reportServices (s.links i).slotId msg.status.toUInt16 rsp.len uuidLen rsp.numGrps.toNat 0
    pure (if msg.status = bleProcedureComplete ∨ msg.status = bleTimeout then BleLink.endProc s i .ready else s, evts)
  else pure (BleLink.handleDiscoverServices s i (withList msg none .services))

def handleDiscoverChars : Reads (BleLink.State β × List Enqueue) :=
  let rsp := msg.readByTypeRsp
  if msg.method = attReadByTypeRsp ∧ rsp.numPairs > 0 ∧ rsp.len ≥ 5 then do
    let uuidLen := if rsp.len > 5 then rsp.len - 5 else 0
    let r ← reportChars (s.links i).slotId msg.status.toUInt16 rsp.len uuidLen rsp.numPairs.toNat 0 0
    pure (BleLink.continueRange lib s i msg r.1 .discAllChars, r.2)
  else pure (BleLink.handleDiscoverChars lib s i (withList msg none .chars))

def handleDiscoverDescs : Reads (BleLink.State β × List Enqueue) :=
  let rsp := msg.findInfoRsp
  if (msg.method = attFindInfoRsp ∧ rsp.numInfo > 0) ∧ (rsp.format = 0x01 ∨ rsp.format = 0x02) then do
    let pairLen := if rsp.format = 0x01 then 4 else 18
    let r ← reportDescs (s.links i).slotId msg.status.toUInt16 pairLen rsp.numInfo.toNat 0 0
    pure (BleLink.continueRange lib s i msg r.1 .discAllCharDescs, r.2)
  else pure (BleLink.handleDiscoverDescs lib s i (withList msg none .descs))

/-- The handler of a running discovery. -/
def handle : BleLink.Discovery → Reads (BleLink.State β × List Enqueue)
  | .services => handleDiscoverServices s i msg
  | .chars => handleDiscoverChars lib s i msg
  | .descs => handleDiscoverDescs lib s i msg

/-- The length of what stands behind the first `k` bytes of a pair. -/
theorem uuidLen_le {len k : UInt16} (h : k ≤ len) : k.toNat + (if len > k then len - k else 0).toNat ≤ len.toNat := by
  have hle := UInt16.le_iff_toNat_le.mp h
  split
  · rw [UInt16.toNat_sub_of_le _ _ h]
    omega
  · simp
    omega

/-- What a handler computes that takes a response with results, and otherwise looks at no list. -/
theorem handler_computes {total : Nat} {response : Prop} [Decidable response] {α : Type} {m : Reads α} {other : α}
    {f : Ptr UInt8 → α} (hm : response → Computes total m f) (hother : ¬ response → ∀ p, other = f p) :
    Computes total (if response then m else pure other) f := by
  split
  · next h => exact hm h
  · next h => exact .congr (.pure other) (hother h)

theorem handle_computes (d : BleLink.Discovery) :
    Computes ((d.count msg).toNat * (d.pairLen msg).toNat) (handle lib s i msg d) fun p =>
      d.handle lib s i (withList msg p d) := by
  have htotal {n len : Nat} : 0 + n * len ≤ n * len := by omega
  cases d with
  | services =>
    refine handler_computes (fun h => ?_) fun h p => ?_
    · refine .congr (.bind (reportServices_computes _ _ (uuidLen_le h.2.2) _ _ htotal) fun _ => .pure _) fun p => ?_
      simp only [BleLink.Discovery.handle, BleLink.handleDiscoverServices, Ptr.shift_zero]
      rw [if_pos h]
    · simp only [BleLink.Discovery.handle, BleLink.handleDiscoverServices]
      rw [if_neg h, if_neg h]
  | chars =>
    refine handler_computes (fun h => ?_) fun h p => ?_
    · refine .congr (.bind (reportChars_computes _ _ (uuidLen_le h.2.2) _ _ _ htotal) fun _ => .pure _) fun p => ?_
      simp only [BleLink.Discovery.handle, BleLink.handleDiscoverChars, withList, Ptr.shift_zero]
      rw [if_pos h]
      rfl
    · simp only [BleLink.Discovery.handle, BleLink.handleDiscoverChars, withList]
      rw [if_neg h, if_neg h]
  | descs =>
    refine handler_computes (fun h => ?_) fun h p => ?_
    · have hlen : (2 : UInt16) ≤ BleLink.Discovery.descs.pairLen msg := by
        rw [BleLink.Discovery.pairLen]
        split <;> decide
      have hformat : ¬ (msg.findInfoRsp.format ≠ 0x01 ∧ msg.findInfoRsp.format ≠ 0x02) := fun hne => not_or.mpr hne h.2
      refine .congr (.bind (reportDescs_computes _ _ hlen _ _ _ htotal) fun _ => .pure _) fun p => ?_
      simp only [BleLink.Discovery.handle, BleLink.handleDiscoverDescs, withList, Ptr.shift_zero]
      rw [if_pos h.1, if_neg hformat]
      rfl
    · simp only [BleLink.Discovery.handle, BleLink.handleDiscoverDescs, withList]
      by_cases hn : msg.method = attFindInfoRsp ∧ msg.findInfoRsp.numInfo > 0
      · have hformat : msg.findInfoRsp.format ≠ 0x01 ∧ msg.findInfoRsp.format ≠ 0x02 := not_or.mp fun hf => h ⟨hn, hf⟩
        rw [if_pos hn, if_pos hformat, if_pos hn, if_pos hformat]
      · rw [if_neg hn, if_neg hn]

end Handlers

end PairReads

namespace BleLink

/-- **Discovery responses are decoded pair by pair.** In every state the
manager reaches, a response to a running discovery, with results and a list
that is all there: each pair becomes one event of the slot, and it is read no
further than to the end of the last pair. -/
theorem response_decoded (lib : AttLib β) (taskId : UInt8) (b : β) (is : List BleHost.Input) (i : Fin bleMaxLinks)
    (d : Discovery) (msg : GattMsgEvent) (bytes : List UInt8) :
    let s := (Mealy.run (BleHost.step lib) (BleHost.init taskId b) is).link
    let n := (d.count msg).toNat
    let pairLen := (d.pairLen msg).toNat
    (s.links i).procBusy ≠ 0 → (s.links i).proc = d.proc → msg.method = d.response → n > 0 → d.Regular msg →
      d.list msg = some bytes → n * pairLen ≤ bytes.length →
      let r := handleGattMsg lib s (BleHost.slotByte i) msg
      r.2 = (List.range n).map (d.event (BleHost.slotByte i) msg.status bytes pairLen) ∧
        (PairReads.handle lib s i msg d).value (d.list msg) = r ∧
        ∀ j ∈ (PairReads.handle lib s i msg d).touched (d.list msg), j < n * pairLen := by
  intro s n pairLen hb hp hm _ hr hlist hlen r
  have hi := BleHost.getCtx_slotByte i
  have hslot : (s.links i).slotId = BleHost.slotByte i := (BleHost.run_unused lib taskId b is).slot_id i
  have hreads := PairReads.handle_computes lib s i msg d
  refine ⟨?_, ?_, hreads.within _⟩
  · rw [show r.2 = _ from handleGattMsg_results lib hi hb hp hm, if_pos hr, hslot]
    exact results_decode d msg hr _ hlist hlen
  · rw [hreads.value, show r = _ from handleGattMsg_running hi hb hp (.inl hm)]
    cases d <;> rfl

/-- Three services of a peer that has just connected. -/
theorem response_decoded_services :
    let is : List BleHost.Input := [BleHost.connectFirst, .gap (.linkEstablished 0 1 0 (Block.fill _ 0)),
      .mgmt { VpHdr.zero with opcode := VpBleOpcode.discoverServices.code } (some [0]) 1]
    let bytes : List UInt8 := [1, 0, 9, 0, 0, 24, 10, 0, 12, 0, 1, 24, 13, 0, 20, 0, 10, 24]
    let s := (Mealy.run (BleHost.step willing) (BleHost.init 0 ()) is).link
    (handleGattMsg willing s 0 (serviceRsp bleSuccess 3 (some bytes))).2 =
        (List.range 3).map (Discovery.services.event 0 bleSuccess bytes 6) ∧
      ∀ j ∈ (PairReads.handle willing s 0 (serviceRsp bleSuccess 3 (some bytes)) .services).touched (some bytes),
        j < 18 := by
  intro is bytes s
  have hdecoded := response_decoded willing 0 () is 0 .services (serviceRsp bleSuccess 3 (some bytes)) bytes
    (by decide) (by decide) rfl (by decide) (by decide) rfl (by decide)
  exact ⟨hdecoded.1, hdecoded.2.2⟩

end BleLink

end UsbMux
