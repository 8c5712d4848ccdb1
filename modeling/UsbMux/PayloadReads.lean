/-
What the handlers of a message read of its payload. Each function that takes
the payload is here once more as a computation that reads it cell by cell
(`Access`), with the reads where the source has them. It comes to what the
function itself comes to and reads no cell behind the payload's length, by
the lemma after it (`payload_reads_within` for the dispatch).

A function keeps its name. Branches in which the source does not look at the
payload are those of the function itself with no payload.
-/
import UsbMux.Lib.Access
import UsbMux.Router

namespace UsbMux.PayloadReads

open Access Endian UsbTx

/-- A computation on the payload. -/
abbrev Reads (α : Type) := Access UInt8 α

variable {η β : Type}

theorem length_of_checked {null : Prop} {payloadLen n : UInt16} (h : ¬ (null ∨ payloadLen < n)) :
    n.toNat ≤ payloadLen.toNat := by
  rw [not_or, UInt16.not_lt] at h
  exact UInt16.le_iff_toNat_le.mp h.2

/-! ## Values of several bytes -/

def readLe16 (off : Nat) : Reads UInt16 := do
  let l ← read off
  let h ← read (off + 1)
  pure (ofBytes l h)

theorem readLe16_computes {off n : Nat} (h : off + 2 ≤ n) :
    Computes n (readLe16 off) fun p => BleHost.readLe16 (p.shift off) := by
  refine Computes.congr (.bind (.read (by omega)) fun _ => .bind (.read (by omega)) fun _ => .pure _) ?_
  intro p
  simp only [BleHost.readLe16, Ptr.cell_shift, Nat.add_zero]

def readLe32 (off : Nat) : Reads UInt32 := do
  let b0 ← read off
  let b1 ← read (off + 1)
  let b2 ← read (off + 2)
  let b3 ← read (off + 3)
  pure (ofBytes32 b0 b1 b2 b3)

theorem readLe32_computes {n : Nat} (h : 4 ≤ n) : Computes n (readLe32 0) UartMgr.readLe32 := by
  have byte {i : Nat} (hi : i < 4) : Computes n (read i) fun p : Ptr UInt8 => p.cell i :=
    .read (Nat.lt_of_lt_of_le hi h)
  exact Computes.congr (.bind (byte (by decide)) fun _ => .bind (byte (by decide)) fun _ =>
    .bind (byte (by decide)) fun _ => .bind (byte (by decide)) fun _ => .pure _) fun _ => rfl

/-- A byte that a payload of at least `len` bytes has. -/
def readOptional (payloadLen len : UInt16) (i : Nat) (absent : UInt8) : Reads UInt8 :=
  if payloadLen ≥ len then read i else pure absent

theorem readOptional_computes (payloadLen len : UInt16) (i : Nat) (absent : UInt8) (h : i < len.toNat) :
    Computes payloadLen.toNat (readOptional payloadLen len i absent) fun p =>
      if payloadLen ≥ len then p.cell i else absent :=
  .ite (fun hl => .read (Nat.lt_of_lt_of_le h (UInt16.le_iff_toNat_le.mp hl))) fun _ => .pure _

/-! ## UART -/

def parseLineCoding (payloadLen : UInt16) : Reads (Except VpStatus UartMgr.LineCoding) := do
  let null ← isNull
  if null = true ∨ payloadLen < 4 then pure (.error .errInvalidParam)
  else
    let baudrate ← readLe32 0
    let dataBits ← readOptional payloadLen 5 4 8
    let parity ← readOptional payloadLen 6 5 0
    let stopBits ← readOptional payloadLen 7 6 1
    if baudrate = 0 ∨ dataBits < 8 ∨ dataBits > 9 ∨ parity > 2 then pure (.error .errInvalidParam)
    else if stopBits ≠ 1 ∧ stopBits ≠ 2 then pure (.error .errInvalidParam)
    else
      let reserved ← readOptional payloadLen 8 7 0
      if reserved ≠ 0 then pure (.error .errUnsupportedOpcode) else pure (.ok ⟨baudrate, dataBits, parity, stopBits⟩)

theorem parseLineCoding_computes (payloadLen : UInt16) :
    Computes payloadLen.toNat (parseLineCoding payloadLen) fun p => UartMgr.parseLineCoding p payloadLen where
  value p := by
    have hreserved : (if payloadLen ≥ 8 then p.cell 7 else 0) ≠ 0 ↔ payloadLen ≥ 8 ∧ p.cell 7 ≠ 0 := by
      by_cases h : payloadLen ≥ 8 <;> simp [h]
    simp only [parseLineCoding, UartMgr.parseLineCoding, readOptional, value_bind, value_isNull, ↓value_ite, value_pure,
      value_read, (readLe32_computes (Nat.le_refl 4)).value, hreserved]
  within := by
    refine within_bind (within_isNull _) fun _ => within_ite (fun _ => within_pure _ _) fun hlong => ?_
    have h4 : 4 ≤ payloadLen.toNat := length_of_checked hlong
    refine within_bind (readLe32_computes h4).within fun _ => ?_
    refine within_bind (readOptional_computes payloadLen 5 4 _ (by decide)).within fun _ => ?_
    refine within_bind (readOptional_computes payloadLen 6 5 _ (by decide)).within fun _ => ?_
    refine within_bind (readOptional_computes payloadLen 7 6 _ (by decide)).within fun _ => ?_
    refine within_ite (fun _ => within_pure _ _) fun _ => within_ite (fun _ => within_pure _ _) fun _ => ?_
    refine within_bind (readOptional_computes payloadLen 8 7 _ (by decide)).within fun _ => ?_
    exact within_ite (fun _ => within_pure _ _) fun _ => within_pure _ _

def handleCtrl (drv : UartMgr.UartPort η) (map : UartMgr.Map) (s : UartMgr.State η) (hdr : VpHdr)
    (payloadLen : UInt16) : Reads (UartMgr.State η × List Enqueue) :=
  match UartMgr.validateCtrlPort s hdr with
  | .error status => pure (s, UartMgr.queueStatusRsp hdr status)
  | .ok p =>
    match VpUartOpcode.ofCode hdr.opcode with
    | some .openPort => do
      match ← parseLineCoding payloadLen with
      | .error status => pure (s, UartMgr.queueStatusRsp hdr status)
      | .ok c =>
        if (s.ports p).state ≠ .closed ∧ (s.ports p).state ≠ .error then
          pure (s, UartMgr.queueStatusRsp hdr .errInvalidState)
        else
          let r := UartMgr.openPort drv s p c
          pure (r.1, UartMgr.queueStatusRsp hdr r.2)
    | some .setLineCoding => do
      match ← parseLineCoding payloadLen with
      | .error status => pure (s, UartMgr.queueStatusRsp hdr status)
      | .ok c =>
        if (s.ports p).state ≠ .opened then pure (s, UartMgr.queueStatusRsp hdr .errUartNotOpen)
        else
          let r := UartMgr.callOpen drv s p c
          pure (if r.2 = .ok then r.1.modify p (·.setLineCoding c) else r.1, UartMgr.queueStatusRsp hdr r.2)
    | _ => pure (UartMgr.handleCtrl drv map s hdr none payloadLen)

theorem handleCtrl_computes (drv : UartMgr.UartPort η) (map : UartMgr.Map) (s : UartMgr.State η) (hdr : VpHdr)
    (payloadLen : UInt16) :
    Computes payloadLen.toNat (handleCtrl drv map s hdr payloadLen) fun p =>
      UartMgr.handleCtrl drv map s hdr p payloadLen := by
  have hparse := parseLineCoding_computes payloadLen
  unfold handleCtrl UartMgr.handleCtrl
  cases UartMgr.validateCtrlPort s hdr with
  | error status => exact .pure _
  | ok i =>
    cases VpUartOpcode.ofCode hdr.opcode with
    | none => exact .pure _
    | some op =>
      cases op
      case openPort | setLineCoding =>
        refine ⟨fun p => ?_, within_bind hparse.within fun r => ?_⟩
        · simp only [value_bind, hparse.value]
          cases UartMgr.parseLineCoding p payloadLen with
          | error status => rfl
          | ok c => exact value_ite _ _ p
        · cases r with
          | error status => exact within_pure _ _
          | ok c => exact within_ite (fun _ => within_pure _ _) fun _ => within_pure _ _
      all_goals exact .pure _

/-- The loop of `RingBuffer_Write`, `n` bytes at most still to be written. -/
def writeLoop (rb : RingBuffer) : Nat → UInt16 → Reads (RingBuffer × UInt16)
  | 0, written => pure (rb, written)
  | n + 1, written => do
    let b ← read written.toNat
    match rb.pushByte b with
    | none => pure (rb, written)
    | some rb' => writeLoop rb' n (written + 1)

/-- The loop reads on where it writes on, within the `len` bytes. -/
theorem writeLoop_computes {len : Nat} (hlen : len < UInt16.size) (rb : RingBuffer) (n : Nat) (written : UInt16)
    (h : written.toNat + n = len) :
    Computes len (writeLoop rb n written) fun p =>
      rb.writeLoop ((List.range' written.toNat n).map p.cell) written := by
  induction n generalizing rb written with
  | zero => exact .pure _
  | succ n ih =>
    have hnext : (written + 1).toNat = written.toNat + 1 := by
      rw [UInt16.toNat_add, UInt16.toNat_one, Nat.mod_eq_of_lt]
      have : UInt16.size = 2 ^ 16 := rfl
      omega
    simp only [writeLoop, List.range'_succ, List.map_cons, RingBuffer.writeLoop]
    refine ⟨fun p => ?_, within_bind (within_read (by omega)) fun b => ?_⟩
    · simp only [value_bind, value_read]
      cases rb.pushByte (p.cell written.toNat) with
      | none => rfl
      | some rb' =>
        have := (ih rb' (written + 1) (by omega)).value p
        rwa [hnext] at this
    · cases rb.pushByte b with
      | none => exact within_pure _ _
      | some rb' => exact (ih rb' (written + 1) (by omega)).within

/-- `RingBuffer_Write`. -/
def write (rb : RingBuffer) (len : UInt16) : Reads (RingBuffer × UInt16) := do
  let null ← isNull
  if null = true then pure (rb, 0) else writeLoop rb len.toNat 0

theorem write_computes (rb : RingBuffer) (len : UInt16) :
    Computes len.toNat (write rb len) fun p => rb.write p len := by
  have hloop := writeLoop_computes len.toNat_lt rb len.toNat 0 (Nat.zero_add _)
  refine .congr (.bind .isNull fun _ => .ite (fun _ => .pure _) fun _ => hloop) fun p => ?_
  rw [RingBuffer.write, Ptr.cells, List.range_eq_range']
  rfl

def writeFromHost (drv : UartMgr.UartPort η) (s : UartMgr.State η) (logicPort : UInt8) (payloadLen : UInt16) :
    Reads (UartMgr.State η × VpStatus) :=
  match UartMgr.getPort logicPort with
  | none => pure (s, .errUartMapInvalid)
  | some p =>
    if (s.ports p).state = .disabled then pure (s, .errUartMapInvalid)
    else if (s.ports p).state ≠ .opened then pure (s, .errUartNotOpen)
    else do
      let w ← write (s.ports p).txRb payloadLen
      let s := s.modify p fun port =>
        { port with
          txRb := w.1
          dropTxBytes := if w.2 < payloadLen then port.dropTxBytes + (payloadLen - w.2).toUInt32
            else port.dropTxBytes }
      pure ({ s with hw := drv.tryKickTx s.hw logicPort }, if w.2 = payloadLen then .ok else .errOverflow)

theorem writeFromHost_computes (drv : UartMgr.UartPort η) (s : UartMgr.State η) (logicPort : UInt8)
    (payloadLen : UInt16) :
    Computes payloadLen.toNat (writeFromHost drv s logicPort payloadLen) fun p =>
      UartMgr.writeFromHost drv s logicPort p payloadLen := by
  unfold writeFromHost UartMgr.writeFromHost
  cases UartMgr.getPort logicPort with
  | none => exact .pure _
  | some i =>
    refine .ite (fun _ => .pure _) fun _ => .ite (fun _ => .pure _) fun _ => ?_
    exact .congr (.bind (write_computes _ payloadLen) fun _ => .pure _) fun _ => rfl

/-! ## BLE -/

section Ble

variable (lib : BleLib β)

def allocWriteReq (b : β) (connHandle : UInt16) (opcode : UInt8) (attrHandle : UInt16) (off : Nat) (len : UInt16)
    (cmd : UInt8) : Reads (β × WriteReq × UInt8) :=
  let r := lib.bmAlloc b connHandle opcode len
  let req : WriteReq := { handle := attrHandle, len := len, pValue := r.2, sig := 0, cmd := cmd }
  match r.2 with
  | none => pure (r.1, req, if len > 0 then bleMemAllocError else bleSuccess)
  | some addr => do
    let null ← isNull
    if null = false ∧ len > 0 then
      let bytes ← copy off len.toNat
      pure (lib.bmWrite r.1 addr bytes, req, bleSuccess)
    else pure (r.1, req, bleSuccess)

theorem allocWriteReq_computes {n off : Nat} {len : UInt16} (h : off + len.toNat ≤ n) (b : β) (connHandle : UInt16)
    (opcode : UInt8) (attrHandle : UInt16) (cmd : UInt8) :
    Computes n (allocWriteReq lib b connHandle opcode attrHandle off len cmd) fun p =>
      BleLink.allocWriteReq lib b connHandle opcode attrHandle (p.shift off) len cmd := by
  simp only [allocWriteReq, BleLink.allocWriteReq]
  cases (lib.bmAlloc b connHandle opcode len).2 with
  | none => exact .pure _
  | some addr =>
    refine .congr (.bind .isNull fun null => .ite (fun _ => .bind (.copy h) fun _ => .pure _)
      fun _ => .pure _) fun p => ?_
    have hsome : (p.shift off).isSome ∧ len > 0 ↔ p.isNone = false ∧ len > 0 := by cases p <;> simp [Ptr.shift]
    simp only [hsome]
    split <;> rfl

/-- A request of an operation that reads what it sends. -/
abbrev Submit (β : Type) := β → UInt16 → UInt8 → Reads (β × UInt8)

def submitWrite (call : UInt16 → WriteReq → UInt8 → LibCall) (attrHandle : UInt16) (off : Nat) (len : UInt16)
    (cmd : UInt8) : Submit β := fun b connHandle taskId => do
  let a ← allocWriteReq lib b connHandle attWriteReq attrHandle off len cmd
  if a.2.2 ≠ bleSuccess then pure (a.1, a.2.2)
  else
    let r := lib.call a.1 (call connHandle a.2.1 taskId)
    pure (if r.2 ≠ bleSuccess then (lib.bmFree r.1 a.2.1 attWriteReq, r.2) else r)

theorem submitWrite_computes {n off : Nat} {len : UInt16} (h : off + len.toNat ≤ n)
    (call : UInt16 → WriteReq → UInt8 → LibCall) (attrHandle : UInt16) (cmd : UInt8) (b : β) (connHandle : UInt16)
    (taskId : UInt8) :
    Computes n (submitWrite lib call attrHandle off len cmd b connHandle taskId) fun p =>
      BleLink.submitWrite lib call attrHandle (p.shift off) len cmd b connHandle taskId :=
  .congr (.bind (allocWriteReq_computes lib h b connHandle attWriteReq attrHandle cmd) fun _ =>
    .ite (fun _ => .pure _) fun _ => .pure _) fun _ => rfl

def startProc (s : BleLink.State β) (slot : UInt8) (invalid : Prop) [Decidable invalid] (submit : Submit β)
    (proc : BleLink.LinkProc) (procHandle rangeStart rangeEnd : UInt16) : Reads (BleLink.State β × VpStatus) :=
  match BleLink.requireReadyCtx s slot with
  | .error status => pure (s, status)
  | .ok i =>
    if invalid then pure (s, .errInvalidParam)
    else match BleLink.requireIdleProc s i with
      | .error status => pure (s, status)
      | .ok s => do
        let r ← submit s.lib (s.links i).connHandle s.taskId
        let s := { s with lib := r.1 }
        pure (if r.2 ≠ bleSuccess then (s.modify i ({ · with procBusy := 0 }), BleLink.mapBleStatus r.2)
          else (BleLink.beginProc s i proc procHandle rangeStart rangeEnd, .ok))

theorem startProc_computes {n : Nat} (s : BleLink.State β) (slot : UInt8) (invalid : Prop) [Decidable invalid]
    {submit : Submit β} {submit' : Ptr UInt8 → BleLink.Submit β} (proc : BleLink.LinkProc)
    (procHandle rangeStart rangeEnd : UInt16)
    (h : ∀ b connHandle taskId, Computes n (submit b connHandle taskId) fun p => submit' p b connHandle taskId) :
    Computes n (startProc s slot invalid submit proc procHandle rangeStart rangeEnd) fun p =>
      BleLink.startProc s slot invalid (submit' p) proc procHandle rangeStart rangeEnd := by
  unfold startProc BleLink.startProc
  cases BleLink.requireReadyCtx s slot with
  | error status => exact .pure _
  | ok i =>
    refine .ite (fun _ => .pure _) fun _ => ?_
    cases BleLink.requireIdleProc s i with
    | error status => exact .pure _
    | ok s => exact .congr (.bind (h _ _ _) fun _ => .pure _) fun _ => rfl

/-- `BleLink_WriteReq` of what stands at index `off`. -/
def writeReq (s : BleLink.State β) (slot : UInt8) (attrHandle : UInt16) (off : Nat) (len : UInt16) :
    Reads (BleLink.State β × VpStatus) :=
  startProc s slot (attrHandle = 0) (submitWrite lib .writeCharValue attrHandle off len 0) .writeReq attrHandle 0 0

theorem writeReq_computes {n off : Nat} {len : UInt16} (h : off + len.toNat ≤ n) (s : BleLink.State β) (slot : UInt8)
    (attrHandle : UInt16) :
    Computes n (writeReq lib s slot attrHandle off len) fun p =>
      BleLink.writeReq lib s slot attrHandle (p.shift off) len :=
  startProc_computes s slot _ _ attrHandle 0 0 fun b connHandle taskId =>
    submitWrite_computes lib h _ attrHandle 0 b connHandle taskId

/-- `BleLink_WriteCmd` of what stands at index `off`. -/
def writeCmd (s : BleLink.State β) (slot : UInt8) (attrHandle : UInt16) (off : Nat) (len : UInt16) :
    Reads (BleLink.State β × VpStatus × List Enqueue) :=
  match BleLink.requireReadyCtx s slot with
  | .error status => pure (s, status, [])
  | .ok i =>
    if attrHandle = 0 then pure (s, .errInvalidParam, [])
    else if (s.links i).procBusy ≠ 0 then pure (s, .errBusy, [])
    else do
      let r ← submitWrite lib (fun connHandle req _ => .writeNoRsp connHandle req) attrHandle off len 1 s.lib
        (s.links i).connHandle s.taskId
      let s := { s with lib := r.1 }
      pure (if r.2 ≠ bleSuccess then (s, BleLink.mapBleStatus r.2, [])
        else (s, .ok, BleLink.reportWriteResult slot attrHandle 0 VpBleOpcode.writeCmd.code))

theorem writeCmd_computes {n off : Nat} {len : UInt16} (h : off + len.toNat ≤ n) (s : BleLink.State β) (slot : UInt8)
    (attrHandle : UInt16) :
    Computes n (writeCmd lib s slot attrHandle off len) fun p =>
      BleLink.writeCmd lib s slot attrHandle (p.shift off) len := by
  unfold writeCmd BleLink.writeCmd
  cases BleLink.requireReadyCtx s slot with
  | error status => exact .pure _
  | ok i =>
    refine .ite (fun _ => .pure _) fun _ => .ite (fun _ => .pure _) fun _ => ?_
    exact .congr (.bind (submitWrite_computes lib h _ attrHandle 1 s.lib _ s.taskId) fun _ => .pure _)
      fun _ => rfl

def validateSlotPayload (payloadLen : UInt16) : Reads (Except VpStatus (Fin BleLink.bleMaxLinks)) := do
  let null ← isNull
  if null = true ∨ payloadLen < 1 then pure (.error .errInvalidParam)
  else
    let slot ← read 0
    match BleLink.getCtx slot with
    | none => pure (.error .errBleSlotInvalid)
    | some i => pure (.ok i)

theorem validateSlotPayload_computes (payloadLen : UInt16) :
    Computes payloadLen.toNat (validateSlotPayload payloadLen) fun p =>
      BleHost.validateSlotPayload p payloadLen where
  value p := by
    simp only [validateSlotPayload, BleHost.validateSlotPayload, value_bind, value_isNull, ↓value_ite, value_pure,
      value_read]
    cases BleLink.getCtx (p.cell 0) <;> rfl
  within := by
    refine within_bind (within_isNull _) fun _ => within_ite (fun _ => within_pure _ _) fun hlong => ?_
    refine within_bind (within_read (length_of_checked hlong)) ?_
    intro slot
    cases BleLink.getCtx slot <;> exact within_pure _ _

def validateConnectedSlot (s : BleHost.State β) (payloadLen : UInt16) :
    Reads (Except VpStatus (Fin BleLink.bleMaxLinks)) := do
  match ← validateSlotPayload payloadLen with
  | .error status => pure (.error status)
  | .ok i => pure (if (s.mgr.slots i).state ≠ .connected then .error .errBleNotConnected else .ok i)

theorem validateConnectedSlot_computes (s : BleHost.State β) (payloadLen : UInt16) :
    Computes payloadLen.toNat (validateConnectedSlot s payloadLen) fun p =>
      BleHost.validateConnectedSlot s p payloadLen where
  value p := by
    simp only [validateConnectedSlot, BleHost.validateConnectedSlot, value_bind,
      (validateSlotPayload_computes payloadLen).value]
    cases BleHost.validateSlotPayload p payloadLen <;> rfl
  within := by
    refine within_bind (validateSlotPayload_computes payloadLen).within fun r => ?_
    cases r <;> exact within_pure _ _

def withConnectedSlot (s : BleHost.State β) (hdr : VpHdr) (payloadLen minLen : UInt16)
    (op : Fin BleLink.bleMaxLinks → Reads (BleHost.State β × VpStatus × List Enqueue)) :
    Reads (BleHost.State β × List Enqueue) := do
  match ← validateConnectedSlot s payloadLen with
  | .error status => pure (s, BleHost.queueStatusRsp hdr status)
  | .ok i =>
    if payloadLen ≥ minLen then
      let r ← op i
      pure (r.1, r.2.2 ++ BleHost.queueStatusRsp hdr r.2.1)
    else pure (s, BleHost.queueStatusRsp hdr .errInvalidParam)

theorem withConnectedSlot_computes (s : BleHost.State β) (hdr : VpHdr) (payloadLen minLen : UInt16)
    {op : Fin BleLink.bleMaxLinks → Reads (BleHost.State β × VpStatus × List Enqueue)}
    {op' : Ptr UInt8 → Fin BleLink.bleMaxLinks → BleHost.State β × VpStatus × List Enqueue}
    (h : payloadLen ≥ minLen → ∀ i, Computes payloadLen.toNat (op i) fun p => op' p i) :
    Computes payloadLen.toNat (withConnectedSlot s hdr payloadLen minLen op) fun p =>
      BleHost.withConnectedSlot s hdr p payloadLen minLen (op' p) := by
  have hslot := validateConnectedSlot_computes s payloadLen
  have hop (i) : Computes payloadLen.toNat
      (if payloadLen ≥ minLen then do
        let r ← op i
        pure (r.1, r.2.2 ++ BleHost.queueStatusRsp hdr r.2.1)
      else pure (s, BleHost.queueStatusRsp hdr .errInvalidParam)) fun p =>
      if payloadLen ≥ minLen then
        let r := op' p i
        (r.1, r.2.2 ++ BleHost.queueStatusRsp hdr r.2.1)
      else (s, BleHost.queueStatusRsp hdr .errInvalidParam) :=
    .ite (fun hmin => .bind (h hmin i) fun _ => .pure _) fun _ => .pure _
  refine ⟨fun p => ?_, within_bind hslot.within fun r => ?_⟩
  · simp only [withConnectedSlot, BleHost.withConnectedSlot, value_bind, hslot.value]
    cases BleHost.validateConnectedSlot s p payloadLen with
    | error status => rfl
    | ok i => exact (hop i).value p
  · cases r with
    | error status => exact within_pure _ _
    | ok i => exact (hop i).within

def setScanParam (s : BleHost.State β) (hdr : VpHdr) (payloadLen : UInt16) :
    Reads (BleHost.State β × List Enqueue) := do
  let null ← isNull
  if null = true ∨ payloadLen < 8 then pure (s, BleHost.queueStatusRsp hdr .errInvalidParam)
  else
    let scanInterval ← readLe16 0
    let scanWindow ← readLe16 2
    let scanDuration ← readLe16 4
    let scanMode ← read 6
    let scanActive ← read 7
    let scanWhiteList ← readOptional payloadLen 9 8 0
    let s := { s with mgr := { s.mgr with
      scanInterval := scanInterval
      scanWindow := scanWindow
      scanDuration := scanDuration
      scanMode := scanMode
      scanActive := scanActive
      scanWhiteList := scanWhiteList } }
    let s := (BleHost.callLib lib s (.setParamValue 5 scanInterval)).1
    let s := (BleHost.callLib lib s (.setParamValue 6 scanWindow)).1
    let s := (BleHost.callLib lib s (.setParamValue 2 scanDuration)).1
    pure (s, BleHost.queueStatusRsp hdr .ok)

theorem setScanParam_computes (s : BleHost.State β) (hdr : VpHdr) (payloadLen : UInt16) :
    Computes payloadLen.toNat (setScanParam lib s hdr payloadLen) fun p =>
      BleHost.setScanParam lib s hdr p payloadLen where
  value p := by
    have hword (off) := (readLe16_computes (Nat.le_refl (off + 2))).value p
    simp only [setScanParam, BleHost.setScanParam, readOptional, value_bind, value_isNull, ↓value_ite, value_pure,
      value_read, hword, Ptr.shift_zero]
  within := by
    refine within_bind (within_isNull _) fun _ => within_ite (fun _ => within_pure _ _) fun hlong => ?_
    have h8 : 8 ≤ payloadLen.toNat := length_of_checked hlong
    refine within_bind (readLe16_computes (by omega)).within fun _ => ?_
    refine within_bind (readLe16_computes (by omega)).within fun _ => ?_
    refine within_bind (readLe16_computes (by omega)).within fun _ => ?_
    refine within_bind (within_read (by omega)) fun _ => within_bind (within_read (by omega)) fun _ => ?_
    exact within_bind (readOptional_computes payloadLen 9 8 0 (by decide)).within fun _ => within_pure _ _

def connect (s : BleHost.State β) (hdr : VpHdr) (payloadLen : UInt16) : Reads (BleHost.State β × List Enqueue) := do
  let null ← isNull
  if null = true ∨ payloadLen < 8 then pure (s, BleHost.queueStatusRsp hdr .errInvalidParam)
  else
    let slot ← read 0
    match BleLink.getCtx slot with
    | none => pure (s, BleHost.queueStatusRsp hdr .errBleSlotInvalid)
    | some i =>
      if s.mgr.pendingConnectSlot < UInt8.ofNat BleLink.bleMaxLinks ∨ (s.mgr.slots i).state ≠ .idle then
        pure (s, BleHost.queueStatusRsp hdr .errBusy)
      else
        let addrType ← read 1
        let peer ← copy 2 BleHost.bAddrLen
        let addr := (s.mgr.slots i).addr.write 0 peer
        let s : BleHost.State β :=
          { link := BleLink.reset s.link (BleHost.slotByte i)
            mgr := { s.mgr with pendingConnectSlot := BleHost.slotByte i }.modify i
              ({ · with state := .connecting, addrType := addrType, addr := addr }) }
        let r := BleHost.callLib lib s (.centralEstablishLink 0 0 addrType addr.toList)
        if r.2 ≠ bleSuccess then
          pure ({ r.1 with mgr := { r.1.mgr with pendingConnectSlot := 0xFF }.modify i ({ · with state := .idle }) },
            BleHost.queueStatusRsp hdr .errBusy)
        else pure ({ r.1 with mgr := BleHost.updateState r.1.mgr }, BleHost.queueStatusRsp hdr .ok)

theorem connect_computes (s : BleHost.State β) (hdr : VpHdr) (payloadLen : UInt16) :
    Computes payloadLen.toNat (connect lib s hdr payloadLen) fun p =>
      BleHost.connect lib s hdr p payloadLen where
  value p := by
    simp only [connect, BleHost.connect, value_bind, value_isNull, ↓value_ite, value_pure, value_read]
    cases BleLink.getCtx (p.cell 0) with
    | none => rfl
    | some i =>
      refine ite_congr rfl (fun _ => rfl) fun _ => ?_
      refine (value_ite _ _ p).trans (ite_congr rfl (fun _ => rfl) fun _ => ?_)
      simp only [value_bind, value_read, value_copy]
      exact value_ite _ _ p
  within := by
    refine within_bind (within_isNull _) fun _ => within_ite (fun _ => within_pure _ _) fun hlong => ?_
    have h8 : 8 ≤ payloadLen.toNat := length_of_checked hlong
    refine within_bind (within_read (by omega)) fun slot => ?_
    cases BleLink.getCtx slot with
    | none => exact within_pure _ _
    | some i =>
      refine within_ite (fun _ => within_pure _ _) fun _ => within_bind (within_read (by omega)) fun _ => ?_
      refine within_bind (within_copy h8) fun _ => ?_
      exact within_ite (fun _ => within_pure _ _) fun _ => within_pure _ _

def handleMgmt (s : BleHost.State β) (hdr : VpHdr) (payloadLen : UInt16) : Reads (BleHost.State β × List Enqueue) :=
  let handleOf := fun i => (s.mgr.slots i).connHandle
  match VpBleOpcode.ofCode hdr.opcode with
  | some .setScanParam => setScanParam lib s hdr payloadLen
  | some .connect => connect lib s hdr payloadLen
  | some .disconnect =>
    withConnectedSlot s hdr payloadLen 0 fun i =>
      pure (BleHost.libOp (BleHost.callLib lib s (.terminateLink (handleOf i))))
  | some .getConnState => do
    match ← validateSlotPayload payloadLen with
    | .error status => pure (s, BleHost.queueStatusRsp hdr status)
    | .ok i => pure (s, BleHost.replyConnState s hdr i)
  | some .discoverServices =>
    withConnectedSlot s hdr payloadLen 0 fun i =>
      pure (BleHost.linkOp s (BleLink.startDiscoverServices lib s.link (BleHost.slotByte i)))
  | some .discoverCharacteristics =>
    withConnectedSlot s hdr payloadLen 5 fun i => do
      let startHdl ← readLe16 1
      let endHdl ← readLe16 3
      pure (BleHost.linkOp s (BleLink.startDiscoverChars lib s.link (BleHost.slotByte i) startHdl endHdl))
  | some .discoverDescriptors =>
    withConnectedSlot s hdr payloadLen 5 fun i => do
      let startHdl ← readLe16 1
      let endHdl ← readLe16 3
      pure (BleHost.linkOp s (BleLink.startDiscoverDescs lib s.link (BleHost.slotByte i) startHdl endHdl))
  | some .read =>
    withConnectedSlot s hdr payloadLen 3 fun i => do
      let attrHandle ← readLe16 1
      pure (BleHost.linkOp s (BleLink.read lib s.link (BleHost.slotByte i) attrHandle))
  | some .writeReq =>
    withConnectedSlot s hdr payloadLen 3 fun i => do
      let attrHandle ← readLe16 1
      let r ← writeReq lib s.link (BleHost.slotByte i) attrHandle 3 (payloadLen - 3)
      pure (BleHost.linkOp s r)
  | some .writeCmd =>
    withConnectedSlot s hdr payloadLen 3 fun i => do
      let attrHandle ← readLe16 1
      let r ← writeCmd lib s.link (BleHost.slotByte i) attrHandle 3 (payloadLen - 3)
      pure ({ s with link := r.1 }, r.2)
  | some .subscribe =>
    withConnectedSlot s hdr payloadLen 3 fun i => do
      let cccdHandle ← readLe16 1
      pure (BleHost.linkOp s (BleLink.subscribe lib s.link (BleHost.slotByte i) cccdHandle))
  | some .unsubscribe =>
    withConnectedSlot s hdr payloadLen 3 fun i => do
      let cccdHandle ← readLe16 1
      pure (BleHost.linkOp s (BleLink.unsubscribe lib s.link (BleHost.slotByte i) cccdHandle))
  | some .exchangeMtu =>
    withConnectedSlot s hdr payloadLen 3 fun i => do
      let mtu ← readLe16 1
      pure (BleHost.linkOp s (BleLink.exchangeMtu lib s.link (BleHost.slotByte i) mtu))
  | some .readRssi =>
    withConnectedSlot s hdr payloadLen 0 fun i =>
      pure (BleHost.libOp (BleHost.callLib lib s (.readRssiCmd (handleOf i))))
  | some .updateConnParam =>
    withConnectedSlot s hdr payloadLen 9 fun i => do
      let connIntervalMin ← readLe16 1
      let connIntervalMax ← readLe16 3
      let connLatency ← readLe16 5
      let connTimeout ← readLe16 7
      pure (BleHost.libOp (BleHost.callLib lib s
        (.updateLink (handleOf i) connIntervalMin connIntervalMax connLatency connTimeout)))
  | _ => pure (BleHost.handleMgmt lib s hdr none payloadLen)

theorem handleMgmt_computes (s : BleHost.State β) (hdr : VpHdr) (payloadLen : UInt16) :
    Computes payloadLen.toNat (handleMgmt lib s hdr payloadLen) fun p =>
      BleHost.handleMgmt lib s hdr p payloadLen := by
  have onSlot := withConnectedSlot_computes s hdr payloadLen
  have arg {k : Nat} {minLen : UInt16} (hmin : payloadLen ≥ minLen) (hk : k + 2 ≤ minLen.toNat) :
      Computes payloadLen.toNat (readLe16 k) fun p => BleHost.readLe16 (p.shift k) :=
    readLe16_computes (Nat.le_trans hk (UInt16.le_iff_toNat_le.mp hmin))
  have rest (hmin : payloadLen ≥ 3) : 3 + (payloadLen - 3).toNat ≤ payloadLen.toNat := by
    rw [UInt16.toNat_sub_of_le _ _ hmin]
    exact Nat.le_of_eq (Nat.add_sub_cancel' (UInt16.le_iff_toNat_le.mp hmin))
  have hslot := validateSlotPayload_computes payloadLen
  unfold handleMgmt BleHost.handleMgmt
  cases VpBleOpcode.ofCode hdr.opcode with
  | none => exact .pure _
  | some op =>
    cases op
    case setScanParam => exact setScanParam_computes lib s hdr payloadLen
    case connect => exact connect_computes lib s hdr payloadLen
    case getConnState =>
      refine ⟨fun p => ?_, within_bind hslot.within fun r => ?_⟩
      · simp only [value_bind, hslot.value]
        cases BleHost.validateSlotPayload p payloadLen <;> rfl
      · cases r <;> exact within_pure _ _
    case disconnect | discoverServices | readRssi => exact onSlot 0 fun _ _ => .pure _
    case discoverCharacteristics | discoverDescriptors =>
      exact onSlot 5 fun hmin _ => .congr (.bind (arg hmin (by decide)) fun _ => .bind (arg hmin (by decide)) fun _ =>
        .pure _) fun _ => rfl
    case read | subscribe | unsubscribe | exchangeMtu =>
      exact onSlot 3 fun hmin _ => .congr (.bind (arg hmin (by decide)) fun _ => .pure _) fun _ => rfl
    case writeReq =>
      exact onSlot 3 fun hmin i => .congr (.bind (arg hmin (by decide)) fun attrHandle =>
        .bind (writeReq_computes lib (rest hmin) s.link (BleHost.slotByte i) attrHandle) fun _ => .pure _) fun _ => rfl
    case writeCmd =>
      exact onSlot 3 fun hmin i => .congr (.bind (arg hmin (by decide)) fun attrHandle =>
        .bind (writeCmd_computes lib (rest hmin) s.link (BleHost.slotByte i) attrHandle) fun _ => .pure _) fun _ => rfl
    case updateConnParam =>
      exact onSlot 9 fun hmin _ => .congr (.bind (arg hmin (by decide)) fun _ => .bind (arg hmin (by decide)) fun _ =>
        .bind (arg hmin (by decide)) fun _ => .bind (arg hmin (by decide)) fun _ => .pure _) fun _ => rfl
    all_goals exact .pure _

end Ble

/-! ## Transmit queues and router -/

def writeFrame (frame : Frame) (hdr : VpHdr) (payloadLen : UInt16) : Reads Frame := do
  let data := serializeHeader frame.data hdr
  let null ← isNull
  if null = false ∧ payloadLen > 0 then
    let bytes ← copy 0 payloadLen.toNat
    pure ⟨hdr.totalLen, data.write VP.headerLen bytes⟩
  else pure ⟨hdr.totalLen, data⟩

theorem writeFrame_computes (frame : Frame) (hdr : VpHdr) (payloadLen : UInt16) :
    Computes payloadLen.toNat (writeFrame frame hdr payloadLen) fun p => UsbTx.writeFrame frame hdr p payloadLen := by
  refine .congr (.bind .isNull fun _ => .ite (fun _ => .bind (.copy (Nat.le_of_eq (Nat.zero_add _))) fun _ => .pure _)
    fun _ => .pure _) fun p => ?_
  have hsome : p.isSome ∧ payloadLen > 0 ↔ p.isNone = false ∧ payloadLen > 0 := by cases p <;> simp
  simp only [UsbTx.writeFrame, hsome, Ptr.shift_zero]
  split <;> rfl

theorem not_full {c : Ctx} {queue : UsbTx.Class} (h : ¬ (c.queue queue).count ≥ UInt8.ofNat queueDepth) :
    (c.queue queue).count < UInt8.ofNat queueDepth := UInt8.not_le.mp h

def queueFrame (c : Ctx) (queue : UsbTx.Class) (droppedBit : UInt16) (chType chId : UInt8) (msgType : VpMsgType)
    (opcode : UInt8) (refSeq : UInt16) (status : VpStatus) (payloadLen : UInt16) : Reads (Ctx × Option Frame) :=
  if payloadLen > UInt16.ofNat (appUsbMaxFrameLen - VP.headerLen) then pure (dropFrame c droppedBit, none)
  else if h : (c.queue queue).count ≥ UInt8.ofNat queueDepth then pure (dropFrame c droppedBit, none)
  else do
    let hdr := requestHdr c.seq chType chId msgType opcode refSeq status payloadLen
    let frame ← writeFrame (c.queue queue).slot (VP.encodeHeader hdr) payloadLen
    let c := { c with seq := c.seq + 1 }.setQueue queue ((c.queue queue).push frame (not_full h))
    pure (updatePendingBitmap c, some frame)

theorem queueFrame_computes (c : Ctx) (queue : UsbTx.Class) (droppedBit : UInt16) (chType chId : UInt8)
    (msgType : VpMsgType) (opcode : UInt8) (refSeq : UInt16) (status : VpStatus) (payloadLen : UInt16) :
    Computes payloadLen.toNat (queueFrame c queue droppedBit chType chId msgType opcode refSeq status payloadLen)
      fun p => UsbTx.queueFrame c queue droppedBit chType chId msgType opcode refSeq status p payloadLen := by
  unfold queueFrame UsbTx.queueFrame
  split
  · exact .pure _
  split
  · exact .pure _
  · exact .congr (.bind (writeFrame_computes _ _ payloadLen) fun _ => .pure _) fun _ => rfl

def queueRsp (c : Ctx) (reqHdr : VpHdr) (status : VpStatus) (payloadLen : UInt16) : Reads (Ctx × Option Frame) :=
  queueFrame c .rsp UsbTx.Class.rsp.bit reqHdr.chType reqHdr.chId .rsp reqHdr.opcode reqHdr.seq status payloadLen

/-- The system channel, with the calls it makes. -/
def handleSys (c : Ctx) (hdr : VpHdr) (payloadLen : UInt16) : Reads (Ctx × List Event) :=
  match Router.VpSysOpcode.ofCode hdr.opcode with
  | some .heartbeat => do
    let r ← queueRsp c hdr .ok payloadLen
    pure (r.1, [enqueued .rsp r.2])
  | _ => pure (enqueueAll c (Router.handleSys hdr none payloadLen))

theorem handleSys_computes (c : Ctx) (hdr : VpHdr) (payloadLen : UInt16) :
    Computes payloadLen.toNat (handleSys c hdr payloadLen) fun p =>
      enqueueAll c (Router.handleSys hdr p payloadLen) := by
  unfold handleSys Router.handleSys
  cases Router.VpSysOpcode.ofCode hdr.opcode with
  | none => exact .pure _
  | some op =>
    cases op
    case heartbeat => exact .congr (.bind (queueFrame_computes _ _ _ _ _ _ _ _ _ _) fun _ => .pure _) fun _ => rfl
    all_goals exact .pure _

/-- `VendorRouter_Dispatch`, with the calls it makes: the managers, the
transmit queues and what these answered. -/
def dispatch (P : Router.Platform η β) (s : Router.Fw η β) (c : Ctx) (hdr : VpHdr) (payloadLen : UInt16) :
    Reads (Router.Fw η β × Ctx × List Event) :=
  if hdr.chType = VpChannelType.uartCtrl.code then
    if hdr.msgType ≠ VpMsgType.cmd.code then pure (s, enqueueAll c (Router.queueStatusRsp hdr .errInvalidParam))
    else do
      let r ← handleCtrl P.drv P.map s.uart hdr payloadLen
      pure ({ s with uart := r.1 }, enqueueAll c r.2)
  else if hdr.chType = VpChannelType.uartData.code then
    if hdr.msgType ≠ VpMsgType.data.code then pure (s, enqueueAll c (Router.queueStatusRsp hdr .errInvalidParam))
    else do
      let r ← writeFromHost P.drv s.uart hdr.chId payloadLen
      pure ({ s with uart := r.1 }, c, [])
  else if hdr.chType = VpChannelType.bleMgmt.code then
    if hdr.msgType ≠ VpMsgType.cmd.code then pure (s, enqueueAll c (Router.queueStatusRsp hdr .errInvalidParam))
    else do
      let r ← handleMgmt P.lib s.ble hdr payloadLen
      pure ({ s with ble := r.1 }, enqueueAll c r.2)
  else if hdr.chType ≠ VpChannelType.sys.code ∨ hdr.chId ≠ 0 then
    pure (s, enqueueAll c (Router.queueStatusRsp hdr .errUnsupportedCh))
  else if hdr.msgType ≠ VpMsgType.cmd.code then pure (s, enqueueAll c (Router.queueStatusRsp hdr .errInvalidParam))
  else do
    let r ← handleSys c hdr payloadLen
    pure (s, r)

theorem dispatch_computes (P : Router.Platform η β) (s : Router.Fw η β) (c : Ctx) (hdr : VpHdr) (payloadLen : UInt16) :
    Computes payloadLen.toNat (dispatch P s c hdr payloadLen) fun p =>
      let r := Router.dispatch P s hdr p payloadLen
      (r.1, enqueueAll c r.2) := by
  have hctrl := handleCtrl_computes P.drv P.map s.uart hdr payloadLen
  have hdata := writeFromHost_computes P.drv s.uart hdr.chId payloadLen
  have hmgmt := handleMgmt_computes P.lib s.ble hdr payloadLen
  have hsys := handleSys_computes c hdr payloadLen
  unfold dispatch Router.dispatch
  split
  · split
    · exact .pure _
    · exact .congr (.bind hctrl fun _ => .pure _) fun _ => rfl
  split
  · split
    · exact .pure _
    · exact .congr (.bind hdata fun _ => .pure _) fun _ => rfl
  split
  · split
    · exact .pure _
    · exact .congr (.bind hmgmt fun _ => .pure _) fun _ => rfl
  split
  · exact .pure _
  split
  · exact .pure _
  · exact .congr (.bind hsys fun _ => .pure _) fun _ => rfl

/-- What stands behind the payload, such as the bytes of an earlier frame, changes nothing. -/
theorem dispatch_eq_of_agree (P : Router.Platform η β) (s : Router.Fw η β) (c : Ctx) (hdr : VpHdr)
    (payloadLen : UInt16) {p q : Ptr UInt8} (hnull : p.isNone = q.isNone)
    (h : ∀ i < payloadLen.toNat, p.cell i = q.cell i) :
    let a := Router.dispatch P s hdr p payloadLen
    let b := Router.dispatch P s hdr q payloadLen
    (b.1, enqueueAll c b.2) = (a.1, enqueueAll c a.2) :=
  (dispatch_computes P s c hdr payloadLen).eq_of_agree hnull h

/-- **Handlers read inside the payload.** Whatever the header, the state of the
managers and of the transmit queues, and whatever the payload holds: the
dispatch, read cell by cell, comes to what `Router.dispatch` and the enqueue
calls come to, and the cells it reads have indices below the payload's length. -/
theorem payload_reads_within (P : Router.Platform η β) (s : Router.Fw η β) (c : Ctx) (hdr : VpHdr)
    (payload : Ptr UInt8) (payloadLen : UInt16) :
    let r := Router.dispatch P s hdr payload payloadLen
    (dispatch P s c hdr payloadLen).value payload = (r.1, enqueueAll c r.2) ∧
      ∀ i ∈ (dispatch P s c hdr payloadLen).touched payload, i < payloadLen.toNat :=
  have h := dispatch_computes P s c hdr payloadLen
  ⟨h.value payload, h.within payload⟩

end UsbMux.PayloadReads
