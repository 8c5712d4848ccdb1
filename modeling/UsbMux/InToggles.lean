/-
The data toggles of the two IN data endpoints. The controller sends an IN
packet with the data PID its endpoint's `T_TOG` bit gives, and flips the bit
after the packet only where the endpoint's automatic toggle is on.

The driver keeps the automatic toggle on for EP2, whose PIDs alternate. It
leaves EP1 without one and never writes its `T_TOG` bit, so that every EP1
packet is a DATA0: the PIDs alternate exactly in the runs in which no second
EP1 packet is acknowledged before a reset of the bus.
-/
import UsbMux.DevFacts
import UsbMux.Lib.Mealy

namespace UsbMux.InToggles

open UsbDev

/-! ## The machine of the IN data endpoints -/

/-- The driver, the receive path its interrupts push into, and the PIDs of the
packets acknowledged on each endpoint since the last reset, `true` for DATA1. -/
structure State where
  dev : UsbDev.Ctx
  rx : UsbRx.Ctx
  acked1 : List Bool
  acked2 : List Bool

/-- An interrupt, or a call of one of the two senders. -/
inductive Input
  | irq (i : Irq)
  | sendHint (hint : VpIrqHint)
  | sendFrame (data : Ptr UInt8) (len : UInt16)
deriving DecidableEq

/-- The state a reset of the bus leads to. -/
def afterReset (d : UsbDev.Ctx) (rx : UsbRx.Ctx) : State :=
  let r := interrupt d rx .busReset
  ⟨r.1, r.2, [], []⟩

/-- One input. An IN packet is acknowledged only where the endpoint is armed. -/
def step : Mealy.Step State Input Empty
  | s, .irq i =>
    let r := interrupt s.dev s.rx i
    match i with
    | .busReset => (afterReset s.dev s.rx, [])
    | .ep1In =>
      if armed s.dev.regs.uep1TxCtrl then
        ({ s with dev := r.1, rx := r.2, acked1 := s.acked1 ++ [pidOf s.dev.regs.uep1TxCtrl] }, [])
      else (s, [])
    | .ep2In =>
      if armed s.dev.regs.uep2TxCtrl then
        ({ s with dev := r.1, rx := r.2, acked2 := s.acked2 ++ [pidOf s.dev.regs.uep2TxCtrl] }, [])
      else (s, [])
    | _ => ({ s with dev := r.1, rx := r.2 }, [])
  | s, .sendHint hint => ({ s with dev := (sendHint s.dev hint).1 }, [])
  | s, .sendFrame data len => ({ s with dev := (sendFrame s.dev data len).1 }, [])

/-! ## Alternation -/

/-- The packets come with DATA0 and DATA1 in turn. -/
def Alternates (pids : List Bool) : Prop := ∀ n, (h : n < pids.length) → pids.get ⟨n, h⟩ = decide (n % 2 = 1)

theorem alternates_nil : Alternates [] := fun _ h => absurd h (Nat.not_lt_zero _)

theorem alternates_concat {pids : List Bool} {pid : Bool} :
    Alternates (pids ++ [pid]) ↔ Alternates pids ∧ pid = decide (pids.length % 2 = 1) := by
  constructor
  · intro h
    constructor
    · intro n hn
      have := h n (by simp; omega)
      simpa [List.getElem_append_left hn] using this
    · simpa using h pids.length (by simp)
  · rintro ⟨h, rfl⟩ n hn
    simp only [List.length_append, List.length_singleton] at hn
    rcases Nat.lt_or_eq_of_le (Nat.le_of_lt_succ hn) with hn | rfl
    · simpa [List.getElem_append_left hn] using h n hn
    · simp

/-- Packets that are all DATA0 alternate as long as there is one at most. -/
theorem alternates_replicate {k : Nat} : Alternates (List.replicate k false) ↔ k ≤ 1 := by
  constructor
  · intro h
    by_contra hk
    have := h 1 (by simp; omega)
    simp at this
  · intro hk n hn
    simp only [List.length_replicate] at hn
    obtain rfl : n = 0 := by omega
    simp

/-! ## What the driver keeps -/

/-- EP1 has neither its toggle bit nor the automatic toggle set, so all its
packets were DATA0; EP2 has the automatic toggle, and its toggle bit says how
many packets there were. -/
structure Toggles (s : State) : Prop where
  auto1 : s.dev.regs.uep1TxCtrl &&& uepTAutoTog = 0
  tog1 : pidOf s.dev.regs.uep1TxCtrl = false
  acked1 : s.acked1 = List.replicate s.acked1.length false
  auto2 : s.dev.regs.uep2TxCtrl &&& uepTAutoTog ≠ 0
  tog2 : pidOf s.dev.regs.uep2TxCtrl = decide (s.acked2.length % 2 = 1)
  acked2 : Alternates s.acked2

theorem toggles_afterReset (d : UsbDev.Ctx) (rx : UsbRx.Ctx) : Toggles (afterReset d rx) := by
  obtain ⟨h1, h2⟩ := ep_busReset d rx
  have c1 : (afterReset d rx).dev.regs.uep1TxCtrl = uepTResNak := congrArg Ep1In.txCtrl h1
  have c2 : (afterReset d rx).dev.regs.uep2TxCtrl = uepTAutoTog ||| uepTResNak := congrArg Ep2In.txCtrl h2
  exact ⟨by rw [c1]; rfl, by rw [c1]; rfl, rfl, by rw [c2]; decide, by rw [c2]; rfl, alternates_nil⟩

/-- The two control registers and the histories are all the invariant is about. -/
theorem Toggles.congr {s s' : State} (h : Toggles s) (h1 : s'.dev.regs.uep1TxCtrl = s.dev.regs.uep1TxCtrl)
    (h2 : s'.dev.regs.uep2TxCtrl = s.dev.regs.uep2TxCtrl) (ha1 : s'.acked1 = s.acked1)
    (ha2 : s'.acked2 = s.acked2) : Toggles s' := by
  obtain ⟨a, b, c, d, e, f⟩ := h
  exact ⟨h1 ▸ a, h1 ▸ b, ha1 ▸ c, h2 ▸ d, by rw [h2, ha2, e], ha2 ▸ f⟩

theorem rearm_ctrl (ctrl : UInt8) :
    let c := (ctrl &&& ~~~uepTResMask) ||| uepTResAck
    c &&& uepTAutoTog = ctrl &&& uepTAutoTog ∧ pidOf c = pidOf ctrl := by
  obtain ⟨v⟩ := ctrl
  revert v
  decide

/-- So does the write that leaves EP2 idle, with the automatic toggle on. -/
theorem idle_ctrl (ctrl : UInt8) :
    let c := (ctrl &&& uepTTog) ||| uepTAutoTog ||| uepTResNak
    c &&& uepTAutoTog ≠ 0 ∧ pidOf c = pidOf ctrl := by
  obtain ⟨v⟩ := ctrl
  revert v
  decide

theorem autoToggle_ctrl {ctrl : UInt8} (h : ctrl &&& uepTAutoTog ≠ 0) :
    autoToggle ctrl &&& uepTAutoTog ≠ 0 ∧ pidOf (autoToggle ctrl) = !pidOf ctrl := by
  obtain ⟨v⟩ := ctrl
  revert v
  decide

theorem toggles_sendHint {s : State} (h : Toggles s) (hint : VpIrqHint) :
    Toggles { s with dev := (sendHint s.dev hint).1 } := by
  rcases sendHint_cases s.dev hint with he | ⟨h1, h2⟩
  · rw [he]; exact h
  · have c1 : (sendHint s.dev hint).1.regs.uep1TxCtrl = uepTResAck := congrArg Ep1In.txCtrl h1
    have c2 : (sendHint s.dev hint).1.regs.uep2TxCtrl = s.dev.regs.uep2TxCtrl := congrArg Ep2In.txCtrl h2
    exact ⟨by rw [c1]; rfl, by rw [c1]; rfl, h.acked1, by rw [c2]; exact h.auto2, by rw [c2]; exact h.tog2, h.acked2⟩

theorem toggles_sendFrame {s : State} (h : Toggles s) (data : Ptr UInt8) (len : UInt16) :
    Toggles { s with dev := (sendFrame s.dev data len).1 } := by
  obtain ⟨ha, ht⟩ := rearm_ctrl s.dev.regs.uep2TxCtrl
  simp only [sendFrame]
  split
  · exact h
  · exact ⟨h.auto1, h.tog1, h.acked1, fun h0 => h.auto2 (ha ▸ h0), ht.trans h.tog2, h.acked2⟩

/-- A packet acknowledged on EP1 is a DATA0, and the next one will be. -/
theorem toggles_ep1In {s : State} (h : Toggles s) :
    Toggles { s with
      dev := (interrupt s.dev s.rx .ep1In).1
      rx := (interrupt s.dev s.rx .ep1In).2
      acked1 := s.acked1 ++ [pidOf s.dev.regs.uep1TxCtrl] } := by
  obtain ⟨h1, h2⟩ := ep_ep1In s.dev s.rx
  have c1 : (interrupt s.dev s.rx .ep1In).1.regs.uep1TxCtrl = uepTResNak := congrArg Ep1In.txCtrl h1
  have c2 : (interrupt s.dev s.rx .ep1In).1.regs.uep2TxCtrl = s.dev.regs.uep2TxCtrl :=
    congrArg Ep2In.txCtrl h2
  refine ⟨by rw [c1]; rfl, by rw [c1]; rfl, ?_, by rw [c2]; exact h.auto2, by rw [c2]; exact h.tog2, h.acked2⟩
  rw [h.tog1, List.length_append, List.length_singleton, List.replicate_succ', ← h.acked1]

/-- A packet acknowledged on EP2 has the other PID than the one before. -/
theorem toggles_ep2In {s : State} (h : Toggles s) :
    Toggles { s with
      dev := (interrupt s.dev s.rx .ep2In).1
      rx := (interrupt s.dev s.rx .ep2In).2
      acked2 := s.acked2 ++ [pidOf s.dev.regs.uep2TxCtrl] } := by
  obtain ⟨ha, ht⟩ := autoToggle_ctrl h.auto2
  have hflip : (!pidOf s.dev.regs.uep2TxCtrl) = decide ((s.acked2.length + 1) % 2 = 1) := by
    rw [h.tog2, ← decide_not]
    exact decide_eq_decide.mpr (by omega)
  have hacked := alternates_concat.mpr ⟨h.acked2, h.tog2⟩
  rw [interrupt_ep2In]
  simp only [handleEp2In]
  split
  · obtain ⟨ra, rt⟩ := rearm_ctrl (autoToggle s.dev.regs.uep2TxCtrl)
    exact ⟨h.auto1, h.tog1, h.acked1, fun h0 => ha (ra ▸ h0), by
      rw [List.length_append, List.length_singleton, ← hflip, ← ht]; exact rt, hacked⟩
  · obtain ⟨ra, rt⟩ := idle_ctrl (autoToggle s.dev.regs.uep2TxCtrl)
    exact ⟨h.auto1, h.tog1, h.acked1, ra, by
      rw [List.length_append, List.length_singleton, ← hflip, ← ht]; exact rt, hacked⟩

theorem toggles_step {s : State} (i : Input) (h : Toggles s) : Toggles (step s i).1 := by
  have same {i : Irq} (hr : i ≠ .busReset) (h1 : i ≠ .ep1In) (h2 : i ≠ .ep2In) :
      Toggles { s with dev := (interrupt s.dev s.rx i).1, rx := (interrupt s.dev s.rx i).2 } := by
    obtain ⟨e1, e2⟩ := sameIn_interrupt s.dev s.rx hr h1 h2
    exact h.congr (congrArg Ep1In.txCtrl e1) (congrArg Ep2In.txCtrl e2) rfl rfl
  cases i with
  | sendHint hint => exact toggles_sendHint h hint
  | sendFrame data len => exact toggles_sendFrame h data len
  | irq i =>
    cases i with
    | busReset => exact toggles_afterReset ..
    | ep1In =>
      simp only [step]
      split
      · exact toggles_ep1In h
      · exact h
    | ep2In =>
      simp only [step]
      split
      · exact toggles_ep2In h
      · exact h
    | setup packet => exact same (by simp) (by simp) (by simp)
    | ep0In => exact same (by simp) (by simp) (by simp)
    | ep0Out data => exact same (by simp) (by simp) (by simp)
    | ep3Out data pid => exact same (by simp) (by simp) (by simp)

/-! ## Runs -/

/-- The input acknowledges no second EP1 packet since the last reset. -/
def NoSecondHint (s : State) (i : Input) : Prop :=
  i = .irq .ep1In → armed s.dev.regs.uep1TxCtrl = true → s.acked1 = []

/-- Both endpoints have sent DATA0 and DATA1 in turn since the last reset. -/
def BothAlternate (s : State) : Prop := Alternates s.acked1 ∧ Alternates s.acked2

theorem acked1_step (s : State) (i : Input) :
    (step s i).1.acked1.length ≤ s.acked1.length ∧ (i = .irq .ep1In → armed s.dev.regs.uep1TxCtrl = false) ∨
      i = .irq .ep1In ∧ armed s.dev.regs.uep1TxCtrl = true ∧
        (step s i).1.acked1.length = s.acked1.length + 1 := by
  cases i with
  | sendHint | sendFrame => exact .inl ⟨Nat.le_refl _, nofun⟩
  | irq i =>
    cases i with
    | busReset => exact .inl ⟨Nat.zero_le _, nofun⟩
    | setup | ep0In | ep0Out | ep3Out => exact .inl ⟨Nat.le_refl _, nofun⟩
    | ep1In =>
      simp only [step]
      split
      · next ha => exact .inr ⟨trivial, ha, by simp⟩
      · next ha => exact .inl ⟨Nat.le_refl _, fun _ => by simpa using ha⟩
    | ep2In =>
      simp only [step]
      split <;> exact .inl ⟨Nat.le_refl _, nofun⟩

theorem bothAlternate_step {s : State} (i : Input) (h : Toggles s) (hs : BothAlternate s) :
    BothAlternate (step s i).1 ↔ NoSecondHint s i := by
  have h' := toggles_step i h
  have hle : s.acked1.length ≤ 1 := by
    have := hs.1
    rwa [h.acked1, alternates_replicate] at this
  have hiff : BothAlternate (step s i).1 ↔ (step s i).1.acked1.length ≤ 1 := by
    rw [BothAlternate, h'.acked1, alternates_replicate, List.length_replicate]
    exact and_iff_left h'.acked2
  rw [hiff]
  rcases acked1_step s i with ⟨hlen, ha⟩ | ⟨hi, ha, hlen⟩
  · exact iff_of_true (hlen.trans hle) fun hi h1 => by rw [ha hi] at h1; cases h1
  · rw [hlen]
    constructor
    · intro h1 _ _
      exact List.length_eq_zero_iff.mp (by omega)
    · intro h1
      rw [h1 hi ha]
      exact Nat.le_refl 1

/-- **Toggles.** From a reset of the bus in any state on, both endpoints send
DATA0 and DATA1 in turn in every state of a run if and only if no second EP1
packet is acknowledged between two resets. -/
theorem toggles_alternate_iff (d : UsbDev.Ctx) (rx : UsbRx.Ctx) (is : List Input) :
    (∀ js, js <+: is → BothAlternate (Mealy.run step (afterReset d rx) js)) ↔
      Mealy.Along step NoSecondHint (afterReset d rx) is :=
  Mealy.forall_prefix_iff (I := Toggles) (fun _ i h => toggles_step i h) (fun _ i h hs => bothAlternate_step i h hs)
    (toggles_afterReset d rx) ⟨alternates_nil, alternates_nil⟩ is

theorem ep2_alternates (d : UsbDev.Ctx) (rx : UsbRx.Ctx) (is : List Input) :
    Alternates (Mealy.run step (afterReset d rx) is).acked2 :=
  (Mealy.inv_run (I := Toggles) (fun _ i h => toggles_step i h) (toggles_afterReset d rx) is).acked2

/-- The second hint is sent with DATA0 like the first. -/
theorem second_hint_data0 :
    ¬ ∀ is, BothAlternate (Mealy.run step (afterReset UsbDev.init UsbRx.init) is) := by
  intro h
  let hint : VpIrqHint := ⟨1, 0, 1, 0, 0⟩
  have hr := h [.irq (.setup [0x00, 0x09, 1, 0, 0, 0, 0, 0]), .sendHint hint, .irq .ep1In, .sendHint hint, .irq .ep1In]
  have ht := hr.1 1 (by decide +kernel)
  revert ht
  decide +kernel

end UsbMux.InToggles
