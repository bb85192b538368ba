import Mathlib.Data.UInt
import NuLab.Lib.Bytes

/-! # Receiving messages: `tcp_client.c` and `bc_client.c`

The socket is what `recv` has not returned yet of the peer's bytes, and a kernel
that decides how many of the requested bytes a call returns.  The payload buffer
is served by the allocator.  The callback may change what its context points to;
the messages it sends leave the socket's receiving side as it is.
-/

namespace NuLab.Client

open NuLab.Bytes

/-! ## The socket -/

structure Network where
  stream : List UInt8
  calls : Nat
deriving DecidableEq

/-- The answer of `recv`: at most so many bytes, or -1 and `errno`. -/
inductive Reply where
  | upTo (limit : Nat)
  | failed (errno : Int)
deriving DecidableEq

/-- The answer depends on how many `recv` calls came before and on the size asked for. -/
abbrev Kernel := Nat → Nat → Reply

def recv (kernel : Kernel) (net : Network) (num : Nat) : Except Int (List UInt8) × Network :=
  match kernel net.calls num with
  | .upTo limit =>
    (.ok (net.stream.take (min limit num)), ⟨net.stream.drop (min limit num), net.calls + 1⟩)
  | .failed errno => (.error errno, ⟨net.stream, net.calls + 1⟩)

/-- `nu_tcp_client_t` -/
structure NuTcpClient where
  sd : Int
  ec : Int
deriving DecidableEq

/-- The bytes written to `buf`, whose number the function returns. -/
def nuTcpClientRecv (kernel : Kernel) (cli : NuTcpClient) (net : Network) (num : Nat) :
    List UInt8 × NuTcpClient × Network :=
  if cli.ec ≠ 0 ∨ cli.sd < 0 then ([], cli, net)
  else
    match recv kernel net num with
    | (.error errno, net) => ([], { cli with ec := errno }, net)
    | (.ok bytes, net) => (bytes, cli, net)

/-! ## Messages -/

/-- `bc_message_header_t` -/
structure BcMessageHeader where
  magic : Vector UInt8 4
  command : Vector UInt8 12
  size : UInt32
  checksum : Vector UInt8 4
deriving DecidableEq

def BcMessageHeader.bytes (hdr : BcMessageHeader) : List UInt8 :=
  hdr.magic.toList ++ (hdr.command.toList ++ (toLE 4 hdr.size.toNat ++ hdr.checksum.toList))

def bytesAt (image : List UInt8) (start count : Nat) : Vector UInt8 count :=
  Vector.ofFn fun i => image.getD (start + i) 0

/-- The header whose 24 bytes in memory are `image`. -/
def BcMessageHeader.ofImage (image : List UInt8) : BcMessageHeader where
  magic := bytesAt image 0 4
  command := bytesAt image 4 12
  size := UInt32.ofNat (ofLE (bytesAt image 16 4).toList)
  checksum := bytesAt image 20 4

def overwrite (image : List UInt8) (start : Nat) (bytes : List UInt8) : List UInt8 :=
  image.take start ++ (bytes ++ image.drop (start + bytes.length))

inductive BcClientStatus where
  | ok
  | error
  | magicMismatch
  | checksumMismatch
  | tcpError
deriving DecidableEq

/-- What `on_msg` is called with: the header and `data`, which is NULL without a payload. -/
abbrev Delivery := BcMessageHeader × Option (List UInt8)

/-- `bc_client_t` -/
structure BcClient (σ : Type) where
  tcp : NuTcpClient
  magic : Vector UInt8 4
  sbuf : List UInt8
  status : BcClientStatus
  onMsgCtx : σ
  onMsg : Option (σ → Delivery → Int × σ)

structure Session (σ : Type) where
  cli : BcClient σ
  net : Network

variable {σ : Type}

/-- The result, `*hdr` and the session after the call. -/
def bcClientRecvMessageHeader (kernel : Kernel) (s : Session σ) (hdr : List UInt8) :
    Int × List UInt8 × Session σ :=
  let (bytes, tcp, net) := nuTcpClientRecv kernel s.cli.tcp s.net 4
  let hdr := overwrite hdr 0 bytes
  -- fewer bytes are out of the stream, too, and are not asked for again
  if bytes.length ≠ 4 then (1, hdr, ⟨{ s.cli with tcp := tcp, status := .tcpError }, net⟩)
  else if bytesAt hdr 0 4 ≠ s.cli.magic
    then (1, hdr, ⟨{ s.cli with tcp := tcp, status := .magicMismatch }, net⟩)
  else
    let (bytes, tcp, net) := nuTcpClientRecv kernel tcp net 20
    let hdr := overwrite hdr 4 bytes
    if bytes.length ≠ 20 then (1, hdr, ⟨{ s.cli with tcp := tcp, status := .tcpError }, net⟩)
    else (0, hdr, ⟨{ s.cli with tcp := tcp }, net⟩)

/-- What `bc_client_next_message` returns and the call it makes to `on_msg`. -/
structure Outcome (σ : Type) where
  ret : Int
  delivered : Option Delivery
  session : Session σ

/-- The end of `bc_client_next_message`. -/
def deliver (s : Session σ) (delivery : Delivery) : Outcome σ :=
  match s.cli.onMsg with
  | none => ⟨0, none, s⟩
  | some onMsg =>
    let (ec, ctx) := onMsg s.cli.onMsgCtx delivery
    ⟨ec, some delivery, { s with cli.onMsgCtx := ctx }⟩

def bcClientNextMessage (kernel : Kernel) (s : Session σ) : Outcome σ :=
  match bcClientRecvMessageHeader kernel s (List.replicate 24 0) with
  | (0, image, s) =>
    let hdr := BcMessageHeader.ofImage image
    -- `nu_buffer_clean`; the consumed bytes are kept as far as `recv` fills them
    let s := { s with cli.sbuf := [] }
    if hdr.size ≠ 0 then
      let (data, tcp, net) := nuTcpClientRecv kernel s.cli.tcp s.net hdr.size.toNat
      let cli := { s.cli with tcp := tcp, sbuf := data }
      if data.length ≠ hdr.size.toNat then ⟨1, none, ⟨{ cli with status := .tcpError }, net⟩⟩
      else deliver ⟨cli, net⟩ (hdr, some data)
    else deliver s (hdr, none)
  | (ec, _, s) => ⟨ec, none, s⟩

/-- The calls to `on_msg` that so many calls of `bc_client_next_message` make. -/
def deliveries (kernel : Kernel) : Nat → Session σ → List Delivery
  | 0, _ => []
  | calls + 1, s =>
    let out := bcClientNextMessage kernel s
    out.delivered.toList ++ deliveries kernel calls out.session

end NuLab.Client
