/-
The default control pipe of a USB device as its host sees it: the requests a
device of one configuration without alternate settings answers, the state
they change, and what an IN token is answered with.

The data stage of a request is one packet here. A device whose descriptors
do not fit into one needs a state in between.
-/
import UsbMux.Lib.Mealy
import UsbMux.Lib.Recent

namespace UsbMux.ControlPipe

/-- A request, with the length the host asks for where it bounds the answer. -/
inductive Request
  | getDescriptor (value : UInt16) (length : Nat)
  | setAddress (address : UInt8)
  | setConfiguration (value : UInt8)
  | getConfiguration
  | getStatus
  | unsupported
deriving DecidableEq

/-- What an IN token is answered with; a packet has a data PID, `true` for DATA1. -/
inductive Reply
  | nak
  | stall
  | data (pid : Bool) (bytes : List UInt8)
deriving DecidableEq

/-- What the host can find out about the device. -/
structure Device where
  address : UInt8
  /-- The address that takes effect once the status stage is over. -/
  pending : Option UInt8
  configuration : UInt8
  reply : Reply
deriving DecidableEq

/-- What reaches the pipe: a reset, a SETUP packet, the acknowledgement of an
IN packet, an OUT packet. -/
inductive Event
  | reset
  | setup (request : Request)
  | inAcked
  | out (data : List UInt8)
deriving DecidableEq

def start : Device := ⟨0, none, 0, .nak⟩

/-- The buffer of the endpoint serves both directions: an OUT packet
overwrites the beginning of a packet that waits to be sent. -/
def Reply.overwrite (r : Reply) (data : List UInt8) : Reply :=
  match r with
  | .data pid bytes => .data pid ((data ++ bytes.drop data.length).take bytes.length)
  | r => r

/-- What a request does, with the descriptors of the device. -/
def Device.request (descriptor : UInt16 → Option (List UInt8)) (d : Device) : Request → Device
  | .getDescriptor value length =>
    match descriptor value with
    | none => { d with reply := .stall }
    | some desc => { d with reply := .data true (desc.take length) }
  | .setAddress address => { d with pending := some address, reply := .data true [] }
  | .setConfiguration value => { d with configuration := value, reply := .data true [] }
  | .getConfiguration => { d with reply := .data true [d.configuration] }
  | .getStatus => { d with reply := .data true [0, 0] }
  | .unsupported => { d with reply := .stall }

/-- One event; what is seen is the device after it. -/
def step (descriptor : UInt16 → Option (List UInt8)) : Mealy.Step Device Event Device := fun d e =>
  let d := match e with
    | .reset => start
    | .setup request => d.request descriptor request
    | .inAcked => { d with address := d.pending.getD d.address, pending := none, reply := .nak }
    | .out data => { d with reply := d.reply.overwrite data }
  (d, [d])

variable {descriptor : UInt16 → Option (List UInt8)}

/-! ## The configuration -/

/-- With these behind it, a reset or a SET_CONFIGURATION is the last of both. -/
def Event.Passes : Event → Prop
  | .reset | .setup (.setConfiguration _) => False
  | _ => True

theorem request_configuration (d : Device) (r : Request) :
    (d.request descriptor r).configuration =
      match r with
      | .setConfiguration value => value
      | _ => d.configuration := by
  cases r with
  | getDescriptor value length =>
    simp only [Device.request]
    split <;> rfl
  | setAddress | setConfiguration | getConfiguration | getStatus | unsupported => rfl

theorem step_configuration (d : Device) {e : Event} (h : e.Passes) :
    (step descriptor d e).1.configuration = d.configuration := by
  cases e with
  | reset => exact h.elim
  | inAcked => rfl
  | out data => rfl
  | setup r =>
    refine (request_configuration d r).trans ?_
    cases r with
    | setConfiguration value => exact h.elim
    | _ => rfl

/-- **The configuration** is the value of the last SET_CONFIGURATION with no
reset behind it, and 0 where there is none. -/
theorem configuration_run (es : List Event) (value : UInt8) :
    (Mealy.run (step descriptor) start es).configuration = value ↔
      Recent Event.Passes (.setup (.setConfiguration value)) es ∨
        value = 0 ∧ ∀ w, ¬ Recent Event.Passes (.setup (.setConfiguration w)) es := by
  induction es using List.reverseRecOn generalizing value with
  | nil =>
    have hnil : (Mealy.run (step descriptor) start []).configuration = 0 := rfl
    rw [hnil]
    constructor
    · rintro rfl
      exact .inr ⟨rfl, fun _ => Recent.not_nil⟩
    · rintro (h | ⟨rfl, -⟩)
      · exact absurd h Recent.not_nil
      · rfl
  | append_singleton es e ih =>
    rw [Mealy.run_append, Mealy.run_cons, Mealy.run_nil]
    simp only [Recent.concat_iff]
    by_cases he : e.Passes
    · have hne (w : UInt8) : Event.setup (.setConfiguration w) ≠ e := by
        rintro rfl
        exact he
      simp only [step_configuration _ he, ih, hne, he, false_or, true_and]
    · cases e with
      | reset =>
        have hr (d : Device) : (step descriptor d .reset).1.configuration = 0 := rfl
        simp only [hr, reduceCtorEq, he, false_and, or_self, not_false_eq_true, implies_true, and_true, false_or]
        exact eq_comm
      | setup r =>
        cases r with
        | setConfiguration w =>
          have hr (d : Device) : (step descriptor d (.setup (.setConfiguration w))).1.configuration = w := rfl
          simp only [hr, he, false_and, or_false, Event.setup.injEq, Request.setConfiguration.injEq]
          constructor
          · rintro rfl
            exact .inl rfl
          · rintro (rfl | ⟨-, h⟩)
            · rfl
            · exact absurd rfl (h w)
        | _ => exact absurd trivial he
      | inAcked => exact absurd trivial he
      | out data => exact absurd trivial he

end UsbMux.ControlPipe
