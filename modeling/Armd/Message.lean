import Mathlib.Data.Nat.Basic

/-!
Messages of the daemon: `armd_msg_t` and `set_message`, and the event numbers.
-/
namespace Armd.Message

def maxMsgPayloadSize : ℕ := 256

inductive MsgDirection
  | init
  | inner
  | outer
  deriving DecidableEq

/-- `armd_msg_t`; the two names are nullable C strings. -/
structure ArmdMsg where
  src : Option String
  dst : Option String
  dir : MsgDirection
  event : UInt32
  payloadLen : UInt32
  payload : Fin maxMsgPayloadSize → UInt8

/-- Zeroed memory. -/
def zeroMsg : ArmdMsg := ⟨none,none,.init,0,0,fun _ => 0⟩

def evTypeSystem : UInt32 := 0x00000000
def evMonitorAlive : UInt32 := evTypeSystem + 0x0001

/-- `n` bytes copied from `bytes` over the front of a payload. -/
def memcpy (payload : Fin maxMsgPayloadSize → UInt8) (bytes : ℕ → UInt8) (n : ℕ) : Fin maxMsgPayloadSize → UInt8 :=
  fun i => if i.val < n then bytes i.val else payload i

/-- Fills `msgIn`, whose old bytes stay wherever nothing is copied over them. -/
def setMessage (msgIn : ArmdMsg) (src dst : Option String) (dir : MsgDirection) (event : UInt32)
    (payload : Option (ℕ → UInt8)) (payloadLen : UInt32) : ArmdMsg :=
  let msgIn := { msgIn with
    src := src
    dst := dst
    dir := dir
    event := event
    payloadLen := if payloadLen.toNat > maxMsgPayloadSize then UInt32.ofNat maxMsgPayloadSize else payloadLen }
  match payload with
  | some bytes =>
    if payloadLen > 0 then { msgIn with payload := memcpy msgIn.payload bytes msgIn.payloadLen.toNat } else msgIn
  | none => msgIn

end Armd.Message
