import ServalMesh.Mdp.Frame

/-!
# Bindings

Services and clients bind ports in a table of slots, where a slot with port zero is free. A frame is
handed to the slot that has its destination and port, else to one that has the port for any
destination.
-/

namespace ServalMesh.Mdp

open Lib Overlay

def mdpMaxBindings : ℕ := 100

/-- The size of `mdp.out.payload`. -/
def mdpLegacyPayloadSize : ℕ := mdpMtu - 100

variable {α η : Type}

/-- `struct mdp_binding`, with addresses of clients and internal handlers of some types. An address
is missing as long as it is zero. -/
structure Binding (α η : Type) where
  subscriber : Option Sid
  port : MdpPort
  version : ℕ
  internal : Option η
  client : Option α
deriving DecidableEq

/-- A slot that was never used. -/
def Binding.zero : Binding α η := ⟨none, 0#32, 0, none, none⟩

/-- Who is handed a frame. -/
inductive Delivery (α η : Type) where
  | refused
  | legacy (client : Option α) (header : InternalMdpHeader) (payload : List Byte)
  | internal (handler : η) (header : InternalMdpHeader) (payload : List Byte)
  | client (client : Option α) (header : InternalMdpHeader) (payload : List Byte)
  | unbound
  | ignored
deriving DecidableEq

/-- Somebody is handed the frame. -/
def Delivery.Handed : Delivery α η → Prop
  | .legacy .. | .internal .. | .client .. => True
  | .refused | .unbound | .ignored => False

/-- The loop of `overlay_saw_mdp_frame` over the bindings. -/
def matchLoop (header : InternalMdpHeader) :
    List (Binding α η) → Option (Binding α η) → Option (Binding α η)
  | [], found => found
  | b :: bindings, found =>
    if b.port ≠ header.destinationPort then matchLoop header bindings found
    else if header.destination = none ∨ b.subscriber = header.destination then some b
    else if b.subscriber = none then matchLoop header bindings (some b)
    else matchLoop header bindings found

def matchBinding (bindings : List (Binding α η)) (header : InternalMdpHeader) :
    Option (Binding α η) :=
  matchLoop header bindings none

/-- `overlay_mdp_fill_legacy` copies the payload into the frame for the client. -/
def overlayMdpFillLegacy (payload : List Byte) : Except Abort (List Byte) :=
  let payloadLength := payload.length % 2 ^ 16
  if mdpLegacyPayloadSize < payloadLength then .error .outOfBounds
  else .ok (payload.take payloadLength)

/-- `overlay_saw_mdp_frame`, with what `allow_inbound_packet` says. -/
def overlaySawMdpFrame (allowInbound : InternalMdpHeader → Bool) (bindings : List (Binding α η))
    (header : InternalMdpHeader) (payload : List Byte) : Except Abort (Delivery α η) :=
  if !allowInbound header then .ok .refused
  else
    match matchBinding bindings header with
    | none => .ok .unbound
    | some b =>
      if b.version = 0 then
        match overlayMdpFillLegacy payload with
        | .error e => .error e
        | .ok payload => .ok (.legacy b.client header payload)
      else if b.version = 1 then
        match b.internal with
        | some internal => .ok (.internal internal header payload)
        | none => .ok (.client b.client header payload)
      else .ok .ignored

end ServalMesh.Mdp
