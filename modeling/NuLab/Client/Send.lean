import NuLab.Client.Message

/-! # Sending messages: `tcp_client.c` and `bc_client.c`

The kernel decides how many of the bytes of a `send` it takes.  `none` is a read
behind the end of what is hashed.
-/

namespace NuLab.Client

open NuLab.Bytes NuLab.CString NuLab.Transaction NuLab.Sha256

/-! ## The socket -/

/-- What the peer is sent, and how many `send` calls there were. -/
structure Outgoing where
  stream : List UInt8
  calls : Nat
deriving DecidableEq

/-- The answer of `send`: so many bytes are taken, or -1 and `errno`. -/
inductive SendReply where
  | sent (count : Nat)
  | failed (errno : Int)
deriving DecidableEq

/-- The answer depends on how many `send` calls came before and on the size of the message. -/
abbrev SendKernel := Nat → Nat → SendReply

def send (kernel : SendKernel) (out : Outgoing) (msg : List UInt8) : Except Int Nat × Outgoing :=
  match kernel out.calls msg.length with
  | .sent count => (.ok (min count msg.length), ⟨out.stream ++ msg.take count, out.calls + 1⟩)
  | .failed errno => (.error errno, ⟨out.stream, out.calls + 1⟩)

def nuTcpClientSend (kernel : SendKernel) (cli : NuTcpClient) (out : Outgoing) (msg : List UInt8) :
    Nat × NuTcpClient × Outgoing :=
  if cli.ec ≠ 0 ∨ cli.sd < 0 then (0, cli, out)
  else
    match send kernel out msg with
    | (.error errno, out) => (0, { cli with ec := errno }, out)
    | (.ok ns, out) => (ns, cli, out)

/-- What the system answers to `nu_tcp_client_connect`. -/
inductive Connection where
  | noAddress (ec : Int)
  | refused (errno : Int)
  | opened (sd : Int)

def nuTcpClientConnect (cli : NuTcpClient) : Connection → Int × NuTcpClient
  | .noAddress ec => (ec, cli)
  | .refused errno => (errno, { cli with ec := errno })
  | .opened sd => (0, ⟨sd, 0⟩)

/-! ## Messages -/

variable {σ : Type}

def bcMassageHeaderMakeWithData (cli : BcClient σ) (command : List UInt8)
    (data : Option (List UInt8)) (size : UInt32) :
    Option BcMessageHeader := do
  let (_, hash) ← hash256Digest (data.getD []) size (Vector.replicate 32 0)
  some
    { magic := cli.magic
      -- the last of the twelve characters stays NUL
      command := bytesAt (strncpy command 11) 0 12
      size := size
      checksum := bytesAt hash.toList 0 4 }

def bcMassageHeaderMake (cli : BcClient σ) (command : List UInt8) : Option BcMessageHeader :=
  bcMassageHeaderMakeWithData cli command none 0

def bcClientProtocolVersion : Int32 := 70014

/-- The payload of `bc_client_send_version`. -/
def msgVerData (time : Int64) : BcVersionMessagePayload where
  version := bcClientProtocolVersion
  serviceFlags := 0
  time := time
  addrRecv := BcNetAddr.zero
  addrFrom := BcNetAddr.zero
  nonce := 0
  userAgentSize := 0
  userAgentData := []
  startHeight := 0

/-- The two sends of `bc_client_send_version`, which do not look at how much is sent. -/
def sendBoth (kernel : SendKernel) (cli : BcClient σ) (out : Outgoing) (header : BcMessageHeader) :
    Int × BcClient σ × Outgoing :=
  let (_, tcp, out) := nuTcpClientSend kernel cli.tcp out header.bytes
  let cli := { cli with tcp := tcp }
  if tcp.ec ≠ 0 then (1, { cli with status := .tcpError }, out)
  else
    let (_, tcp, out) := nuTcpClientSend kernel cli.tcp out cli.sbuf
    let cli := { cli with tcp := tcp }
    if tcp.ec ≠ 0 then (1, { cli with status := .tcpError }, out)
    else (if cli.status = .ok then 0 else 1, cli, out)

/-- `time` is what `time(NULL)` returns. -/
def bcClientSendVersion (mem : Allocator) (kernel : SendKernel) (time : Int64) (cli : BcClient σ)
    (out : Outgoing) :
    Option (Int × BcClient σ × Outgoing) := do
  let (_, sbuf) ← bcAppendVersionMessagePayload (msgVerData time) mem ⟨[], 0⟩
  let cli := { cli with sbuf := sbuf.bytes }
  let dataSize := UInt32.ofNat cli.sbuf.length
  let header ← bcMassageHeaderMakeWithData cli (text "version") (some cli.sbuf) dataSize
  some (sendBoth kernel cli out header)

/-- A message without payload; the error of the socket is the result. -/
def sendEmpty (command : List UInt8) (kernel : SendKernel) (cli : BcClient σ) (out : Outgoing) :
    Option (Int × BcClient σ × Outgoing) := do
  let hdr ← bcMassageHeaderMake cli command
  let (_, tcp, out) := nuTcpClientSend kernel cli.tcp out hdr.bytes
  some (tcp.ec, { cli with tcp := tcp }, out)

def bcClientSendVerack (kernel : SendKernel) (cli : BcClient σ) (out : Outgoing) :
    Option (Int × BcClient σ × Outgoing) :=
  sendEmpty (text "verack") kernel cli out

def bcClientSendPong (kernel : SendKernel) (cli : BcClient σ) (out : Outgoing) :
    Option (Int × BcClient σ × Outgoing) :=
  sendEmpty (text "pong") kernel cli out

def bcHandshake (mem : Allocator) (kernel : SendKernel) (time : Int64) (cli : BcClient σ)
    (out : Outgoing) :
    Option (Int × BcClient σ × Outgoing) := bcClientSendVersion mem kernel time cli out

def bcClientConnect (mem : Allocator) (kernel : SendKernel) (time : Int64) (answer : Connection)
    (cli : BcClient σ) (out : Outgoing) : Option (Int × BcClient σ × Outgoing) :=
  let (ec, tcp) := nuTcpClientConnect cli.tcp answer
  if ec ≠ 0 then some (ec, { cli with tcp := tcp, status := .tcpError }, out)
  else bcHandshake mem kernel time { cli with tcp := tcp, status := .ok } out

/-! ## Headers -/

/-- The first four bytes of the double hash. -/
def checksum (payload : List UInt8) : Vector UInt8 4 := bytesAt (hash256 payload).toList 0 4

/-- The header for a payload. -/
def headerFor (magic : Vector UInt8 4) (command payload : List UInt8) : BcMessageHeader where
  magic := magic
  command := bytesAt (strncpy command 11) 0 12
  size := UInt32.ofNat payload.length
  checksum := checksum payload

theorem bcMassageHeaderMakeWithData_eq (cli : BcClient σ) (command payload : List UInt8)
    (short : payload.length < 2 ^ 32) :
    bcMassageHeaderMakeWithData cli command (some payload) (UInt32.ofNat payload.length) =
      some (headerFor cli.magic command payload) := by
  have size : (UInt32.ofNat payload.length).toNat = payload.length :=
    UInt32.toNat_ofNat_of_lt' short
  obtain ⟨sum, run, value⟩ :=
    hash256Digest_spec payload (UInt32.ofNat payload.length) (Vector.replicate 32 0)
    (Nat.le_of_eq size)
  rw [size, List.take_length] at value
  simp only [bcMassageHeaderMakeWithData, Option.getD_some, run, Option.bind_eq_bind,
    Option.bind_some, eq_hash256 value]
  rfl

theorem bcMassageHeaderMake_eq (cli : BcClient σ) (command : List UInt8) :
    bcMassageHeaderMake cli command = some (headerFor cli.magic command []) :=
  bcMassageHeaderMakeWithData_eq cli command [] (by decide)

/-- The message with this payload. -/
def messageFor (magic : Vector UInt8 4) (command payload : List UInt8)
    (short : payload.length < 2 ^ 32) : Message where
  header := headerFor magic command payload
  payload := payload
  sized := (UInt32.toNat_ofNat_of_lt' short).symm

theorem messageFor_wire (magic : Vector UInt8 4) (command payload : List UInt8)
    (short : payload.length < 2 ^ 32) :
    (messageFor magic command payload short).wire =
      (headerFor magic command payload).bytes ++ payload := rfl

/-- A message without payload. -/
def emptyMessage (magic : Vector UInt8 4) (command : List UInt8) : Message :=
  messageFor magic command [] (by decide)

theorem emptyMessage_wire (magic : Vector UInt8 4) (command : List UInt8) :
    (emptyMessage magic command).wire = (headerFor magic command []).bytes := by
  rw [emptyMessage, messageFor_wire, List.append_nil]

theorem msgVerData_length (time : Int64) : (msgVerData time).bytes.length = 85 :=
  BcVersionMessagePayload.bytes_length _

/-- The message that `bc_client_send_version` sends at this time. -/
def versionMessage (magic : Vector UInt8 4) (time : Int64) : Message :=
  messageFor magic (text "version") (msgVerData time).bytes (by rw [msgVerData_length]; decide)

theorem versionMessage_wire (magic : Vector UInt8 4) (time : Int64) :
    (versionMessage magic time).wire =
      (headerFor magic (text "version") (msgVerData time).bytes).bytes ++ (msgVerData time).bytes :=
  rfl

theorem bcClientSendVersion_eq (fresh : Nat → Nat → UInt8) (kernel : SendKernel) (time : Int64)
    (cli : BcClient σ) (out : Outgoing) :
    bcClientSendVersion (served fresh) kernel time cli out =
      some (sendBoth kernel { cli with sbuf := (msgVerData time).bytes } out
        (versionMessage cli.magic time).header) := by
  obtain ⟨calls, run⟩ := writes_bcAppendVersionMessagePayload (msgVerData time) rfl fresh ⟨[], 0⟩
  have short : (msgVerData time).bytes.length < 2 ^ 32 := by rw [msgVerData_length]; decide
  have header := bcMassageHeaderMakeWithData_eq { cli with sbuf := (msgVerData time).bytes }
    (text "version") _ short
  simp only [bcClientSendVersion, run, Option.map_some, Option.bind_eq_bind, Option.bind_some,
    List.nil_append, header]
  rfl

theorem sendEmpty_eq (command : List UInt8) (kernel : SendKernel) (cli : BcClient σ)
    (out : Outgoing) :
    sendEmpty command kernel cli out =
      let (_, tcp, out) := nuTcpClientSend kernel cli.tcp out (headerFor cli.magic command []).bytes
      some (tcp.ec, { cli with tcp := tcp }, out) := by
  rw [sendEmpty, bcMassageHeaderMake_eq]
  rfl

end NuLab.Client
