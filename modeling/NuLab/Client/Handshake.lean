import Mathlib.Data.Bool.Count
import NuLab.Client.Talks

/-! # The handshake of two clients

Each of the two connects, sends its version and then handles messages, and every
interleaving of their steps comes to the same: one version and one verack from
each of them, the verack in answer to the other's version, and then both wait.
-/

namespace NuLab.Client

open NuLab.Bytes NuLab.CString NuLab.Talk
open NuLab.Transaction (served)

/-- Two clients with the same magic, and what the system has for each of them. -/
structure Pair where
  magic : Vector UInt8 4
  client : Bool → BcClient Unit
  sameMagic : ∀ b, (client b).magic = magic
  sd : Bool → Nat
  time : Bool → Int64
  fresh : Bool → Nat → Nat → UInt8
  handlerReturns : Bool

namespace Pair

variable (p : Pair)

/-- `bc_client_connect` is still to be run. -/
def start (b : Bool) : Party UInt8 Ended :=
  ⟨some (talkConnect (served (p.fresh b)) (p.time b) (.opened (p.sd b)) (p.client b)),
    [], [], 0, true⟩

/-- The client `mover` sends, receives or makes its next call. -/
def step : (Bool → Party UInt8 Ended) → Bool → Option (Bool → Party UInt8 Ended) :=
  Talk.step (nextCall p.handlerReturns)

def version (b : Bool) : Message := versionMessage p.magic (p.time b)

def verack : Message := emptyMessage p.magic (text "verack")

/-- What a client sends until both of them wait. -/
def stream (b : Bool) : List UInt8 := (p.version b).wire ++ p.verack.wire

end Pair

/-! ## Receiving a message -/

variable {handlerReturns : Bool} {cli : BcClient Unit}

theorem talkRecv_connected (connected : cli.tcp.Connected) (num : Nat)
    (rest : List UInt8 → ClientTalk) :
    talkRecv cli num rest = .recv num rest := by
  rw [talkRecv, if_neg connected.usable]

theorem talkSend_connected (connected : cli.tcp.Connected) (msg : List UInt8) (rest : ClientTalk) :
    talkSend cli msg rest = .send msg rest := by
  rw [talkSend, if_neg connected.usable]

/-- The header with only its magic read. -/
def begun (hdr : BcMessageHeader) : List UInt8 :=
  overwrite (List.replicate 24 0) 0 (hdr.bytes.take 4)

theorem talkMagic_header (connected : cli.tcp.Connected) {hdr : BcMessageHeader}
    (magic : hdr.magic = cli.magic) :
    talkMagic handlerReturns cli (hdr.bytes.take 4) =
      .recv 20 (talkRest handlerReturns cli (begun hdr)) := by
  have taken : (hdr.bytes.take 4).length = 4 := by simp
  have found : bytesAt (begun hdr) 0 4 = cli.magic := by
    apply Vector.toList_inj.mp
    rw [begun, magic_overwrite taken, ← magic, BcMessageHeader.bytes, List.take_left' (by simp)]
  unfold begun at found
  simp only [talkMagic, taken, ne_eq, not_true_eq_false, if_false, found,
    talkRecv_connected connected]
  rfl

theorem talkRest_header (connected : cli.tcp.Connected) (hdr : BcMessageHeader) :
    talkRest handlerReturns cli (begun hdr) (hdr.bytes.drop 4) =
      if hdr.size ≠ 0
        then .recv hdr.size.toNat (talkPayload handlerReturns { cli with sbuf := [] } hdr)
      else talkOnMsg handlerReturns { cli with sbuf := [] } (hdr, none) := by
  have whole : overwrite (begun hdr) 4 (hdr.bytes.drop 4) = hdr.bytes := by
    rw [begun, overwrite_twice (by simp) (by simp), List.take_append_drop]
  have rest : (hdr.bytes.drop 4).length = 20 := by simp
  have connected' : ({ cli with sbuf := [] } : BcClient Unit).tcp.Connected := connected
  simp only [talkRest, rest, ne_eq, not_true_eq_false, if_false, whole,
    BcMessageHeader.ofImage_bytes, talkRecv_connected connected']

theorem talkPayload_message (message : Message) :
    talkPayload handlerReturns cli message.header message.payload =
      talkOnMsg handlerReturns { cli with sbuf := message.payload }
        (message.header, some message.payload) := by
  simp [talkPayload, message.sized]

section

variable {again : List Ended → Option ClientTalk} {incoming front back : List UInt8}
  {message : Message} {taken : Nat}
  (results : List Ended) (sent : List UInt8) (idle : Bool)

theorem step_magic (connected : cli.tcp.Connected)
    (split : incoming = front ++ (message.wire ++ back)) (position : front.length = taken) :
    Party.step again incoming ⟨some (talkNextMessage handlerReturns cli), results,
      sent, taken, idle⟩ =
      some ⟨some (talkMagic handlerReturns cli (message.header.bytes.take 4)), results, sent,
        taken + 4, false⟩ := by
  have talk : talkNextMessage handlerReturns cli = .recv 4 (talkMagic handlerReturns cli) :=
    talkRecv_connected connected 4 _
  have wire : message.wire = message.header.bytes.take 4 ++
      (message.header.bytes.drop 4 ++ message.payload) := by
    rw [Message.wire, ← List.append_assoc, List.take_append_drop]
  rw [talk]
  rw [wire, List.append_assoc] at split
  exact Party.step_recv rfl split position (by simp)

theorem step_header (connected : cli.tcp.Connected) (magic : message.header.magic = cli.magic)
    (split : incoming = front ++ (message.wire ++ back)) (position : front.length = taken) :
    Party.step again incoming
        ⟨some (talkMagic handlerReturns cli (message.header.bytes.take 4)), results, sent,
          taken + 4, idle⟩ =
      some ⟨some (talkRest handlerReturns cli (begun message.header) (message.header.bytes.drop 4)),
        results, sent, taken + 4 + 20, false⟩ := by
  have wire : front ++ message.wire =
      (front ++ message.header.bytes.take 4) ++
        (message.header.bytes.drop 4 ++ message.payload) := by
    rw [Message.wire, List.append_assoc, ← List.append_assoc (message.header.bytes.take 4),
      List.take_append_drop]
  have position' : (front ++ message.header.bytes.take 4).length = taken + 4 := by simp [position]
  rw [talkMagic_header connected magic]
  rw [← List.append_assoc, wire, List.append_assoc,
    List.append_assoc (message.header.bytes.drop 4)] at split
  exact Party.step_recv rfl split position' (by simp)

theorem step_payload (connected : cli.tcp.Connected) (nonempty : message.header.size ≠ 0)
    (split : incoming = front ++ (message.wire ++ back)) (position : front.length = taken)
    {size : Nat} (sized : message.header.size.toNat = size) :
    Party.step again incoming
        ⟨some (talkRest handlerReturns cli (begun message.header) (message.header.bytes.drop 4)),
          results, sent, taken + 4 + 20, idle⟩ =
      some ⟨some
        (talkPayload handlerReturns { cli with sbuf := [] } message.header message.payload),
          results, sent,
        taken + 4 + 20 + size, false⟩ := by
  subst sized
  have position' : (front ++ message.header.bytes).length = taken + 4 + 20 := by simp [position]
  rw [talkRest_header connected, if_pos nonempty]
  rw [Message.wire, List.append_assoc, ← List.append_assoc front] at split
  exact Party.step_recv rfl split position' message.sized

end

/-- After calls that have returned 0 the loop of `main` goes on. -/
theorem nextCall_ok {results : List Ended} {last : Ended}
    (fine : ∀ result ∈ results ++ [last], failed result = false)
    (returned : last = some (.returned 0, cli)) (connected : cli.tcp.Connected) :
    nextCall handlerReturns (results ++ [last]) = some (talkNextMessage handlerReturns cli) := by
  have noneFailed : ((results ++ [last]).tail.reverse.takeWhile failed) = [] := by
    cases found : (results ++ [last]).tail.reverse with
    | nil => rfl
    | cons latest before =>
      have member : latest ∈ (results ++ [last]).tail.reverse := by simp [found]
      rw [List.takeWhile_cons, fine latest (List.mem_of_mem_tail (List.mem_reverse.mp member))]
      rfl
  rw [nextCall, noneFailed, List.getLast?_concat, returned]
  simp [connected.noError]

/-! ## The two messages of the handshake -/

theorem bcClientVerifyVersion_accepts (time : Int64) :
    bcClientVerifyVersion (some (msgVerData time).bytes) = some 0 := by
  have first : (msgVerData time).bytes.take 4 = toLE 4 70014 := by
    rw [BcVersionMessagePayload.bytes, List.take_left' (by simp)]
    rfl
  have long : 0 + 4 ≤ (msgVerData time).bytes.length := by
    rw [msgVerData_length]
    decide
  simp only [bcClientVerifyVersion, readAt, Option.bind_some, long, if_true, List.drop_zero, first,
    Option.bind_eq_bind]
  decide

theorem sendEmpty_connected (connected : cli.tcp.Connected) (command : List UInt8) :
    sendEmpty command wholeSends cli ⟨[], 0⟩ =
      some (0, cli, ⟨(emptyMessage cli.magic command).wire, 1⟩) := by
  have sent := wholeSends_send cli.tcp ⟨[], 0⟩ (headerFor cli.magic command []).bytes
  rw [if_neg connected.usable, ← emptyMessage_wire] at sent
  rw [sendEmpty_eq, ← emptyMessage_wire, sent]
  simp only [connected.noError, List.nil_append, Nat.zero_add]

/-- The other's version is answered with the verack. -/
theorem talkOnMsg_version (connected : cli.tcp.Connected) {magic : Vector UInt8 4}
    (same : cli.magic = magic) (time : Int64) :
    talkOnMsg handlerReturns cli ((versionMessage magic time).header,
      some (versionMessage magic time).payload) =
      .send (emptyMessage magic (text "verack")).wire (.done (some (.returned 0, cli))) := by
  subst same
  have nonzero : (versionMessage cli.magic time).header.size ≠ 0 := by
    intro empty
    have sized := (versionMessage cli.magic time).sized
    rw [empty, versionMessage, messageFor, msgVerData_length] at sized
    exact absurd sized (by decide)
  have delivery : (versionMessage cli.magic time).delivery =
      ((versionMessage cli.magic time).header, some (versionMessage cli.magic time).payload) := by
    rw [Message.delivery, if_pos nonzero]
  have passes : passesChecks cli.magic (versionMessage cli.magic time).delivery = some true :=
    messageFor_passes cli.magic (text "version") (msgVerData time).bytes _
  have named : strncmpEq (versionMessage cli.magic time).header.command.toList (text "version") 12 =
      true := by
    show strncmpEq (bytesAt (strncpy (text "version") 11) 0 12).toList (text "version") 12 = true
    decide
  have accepted : bcClientVerifyVersion (some (versionMessage cli.magic time).payload) = some 0 :=
    bcClientVerifyVersion_accepts time
  rw [talkOnMsg, ← delivery, onMsg_passed passes, delivery, onCommand]
  simp [named, accepted, bcClientSendVerack, sendEmpty_connected connected]

/-- A verack is not answered. -/
theorem talkOnMsg_verack {magic : Vector UInt8 4} (same : cli.magic = magic) :
    talkOnMsg handlerReturns cli ((emptyMessage magic (text "verack")).header, none) =
      .done (some (.returned 0, cli)) := by
  subst same
  have passes : passesChecks cli.magic (emptyMessage cli.magic (text "verack")).delivery =
    some true :=
    messageFor_passes cli.magic (text "verack") [] _
  have delivery : (emptyMessage cli.magic (text "verack")).delivery =
      ((emptyMessage cli.magic (text "verack")).header, none) := rfl
  have other :
      strncmpEq (emptyMessage cli.magic (text "verack")).header.command.toList (text "version") 12 =
        false := by
    show strncmpEq (bytesAt (strncpy (text "verack") 11) 0 12).toList (text "version") 12 = false
    decide
  have named : strncmpEq (emptyMessage cli.magic (text "verack")).header.command.toList
      (text "verack") 12 = true := by
    show strncmpEq (bytesAt (strncpy (text "verack") 11) 0 12).toList (text "verack") 12 = true
    decide
  rw [talkOnMsg, ← delivery, onMsg_passed passes, delivery, onCommand]
  simp [other, named]

/-! ## One client alone -/

namespace Pair

variable (p : Pair) (b : Bool)

/-- The client once `bc_client_connect` has returned. -/
def connected : BcClient Unit :=
  { p.client b with tcp := ⟨p.sd b, 0⟩, status := .ok, sbuf := (msgVerData (p.time b)).bytes }

/-- The client once it has handled the other's version. -/
def greeted : BcClient Unit := { p.connected b with sbuf := (p.version !b).payload }

/-- The client once it has handled the other's verack. -/
def settled : BcClient Unit := { p.connected b with sbuf := [] }

/-- A call has returned 0. -/
def ok (cli : BcClient Unit) : Ended := some (.returned 0, cli)

/-- The states after `start`. -/
def later : List (Party UInt8 Ended) :=
  let h := p.handlerReturns
  let first := ok (p.connected b)
  let second := ok (p.greeted b)
  let version := p.version b
  let theirs := p.version !b
  let both := p.stream b
  -- both halves of the version are sent
  [⟨some (.send version.payload (.done first)), [], version.header.bytes, 0, false⟩,
    ⟨some (.done first), [], version.wire, 0, false⟩,
    -- the other's version is received and answered
    ⟨some (talkNextMessage h (p.connected b)), [first], version.wire, 0, true⟩,
    ⟨some (talkMagic h (p.connected b) (theirs.header.bytes.take 4)), [first], version.wire, 4,
      false⟩,
    ⟨some (talkRest h (p.connected b) (begun theirs.header) (theirs.header.bytes.drop 4)), [first],
      version.wire, 24, false⟩,
    ⟨some (talkPayload h (p.settled b) theirs.header theirs.payload), [first], version.wire, 109,
      false⟩,
    ⟨some (.done second), [first], both, 109, false⟩,
    -- the other's verack is received
    ⟨some (talkNextMessage h (p.greeted b)), [first, second], both, 109, true⟩,
    ⟨some (talkMagic h (p.greeted b) (p.verack.header.bytes.take 4)), [first, second], both, 113,
      false⟩,
    ⟨some (talkRest h (p.greeted b) (begun p.verack.header) (p.verack.header.bytes.drop 4)),
      [first, second], both, 133, false⟩,
    ⟨some (talkNextMessage h (p.settled b)), [first, second, ok (p.settled b)], both, 133, true⟩]

theorem connected_tcp : (p.connected b).tcp.Connected := ⟨rfl, Int.natCast_nonneg _⟩

theorem talkSendBoth_connected (connected : cli.tcp.Connected) (ok : cli.status = .ok)
    (header : BcMessageHeader) :
    talkSendBoth cli header =
      .send header.bytes (.send cli.sbuf (.done (some (.returned 0, cli)))) := by
  simp [talkSendBoth, talkSend_connected connected, connected.noError, ok]

theorem start_talk :
    (p.start b).talk =
      some (.send (p.version b).header.bytes
        (.send (p.version b).payload (.done (ok (p.connected b))))) := by
  obtain ⟨calls, run⟩ := writes_bcAppendVersionMessagePayload (msgVerData (p.time b)) rfl
    (p.fresh b) ⟨[], 0⟩
  have short : (msgVerData (p.time b)).bytes.length < 2 ^ 32 := by rw [msgVerData_length]; decide
  have header := bcMassageHeaderMakeWithData_eq (p.connected b) (text "version") _ short
  have magic : (p.connected b).magic = p.magic := p.sameMagic b
  have both := talkSendBoth_connected (p.connected_tcp b) rfl (p.version b).header
  rw [magic] at header
  simp only [start, talkConnect, nuTcpClientConnect, ne_eq, not_true_eq_false, if_false,
    talkSendVersion, run, Option.map_some, List.nil_append]
  unfold connected at header both
  rw [header]
  exact congrArg some both

theorem version_wire_length : (p.version b).wire.length = 109 := by
  rw [version, versionMessage_wire, List.length_append, BcMessageHeader.bytes_length,
    msgVerData_length]

theorem verack_wire_length : p.verack.wire.length = 24 := by
  rw [verack, emptyMessage_wire, BcMessageHeader.bytes_length]

theorem version_size : (p.version b).header.size.toNat = 85 := by
  rw [← (p.version b).sized]
  exact msgVerData_length _

/-- What `on_msg` does with the other's version. -/
theorem version_answered :
    talkPayload p.handlerReturns (p.settled b) (p.version !b).header (p.version !b).payload =
      .send p.verack.wire (.done (ok (p.greeted b))) := by
  have connected : (p.greeted b).tcp.Connected := p.connected_tcp b
  have sameMagic : (p.greeted b).magic = p.magic := p.sameMagic b
  rw [talkPayload_message]
  exact talkOnMsg_version connected sameMagic (p.time !b)

theorem verack_ends :
    talkRest p.handlerReturns (p.greeted b) (begun p.verack.header) (p.verack.header.bytes.drop 4) =
      .done (ok (p.settled b)) := by
  have connected : (p.greeted b).tcp.Connected := p.connected_tcp b
  have sameMagic : (p.settled b).magic = p.magic := p.sameMagic b
  have empty : ¬ p.verack.header.size ≠ 0 := not_not.mpr rfl
  rw [talkRest_header connected, if_neg empty]
  exact talkOnMsg_verack sameMagic

theorem failed_ok (cli : BcClient Unit) : failed (ok cli) = false := rfl

theorem later_chain :
    (p.start b :: p.later b).IsChain fun party next =>
      party.step (nextCall p.handlerReturns) (p.stream !b) = some next := by
  have connected := p.connected_tcp b
  have sameMagic : (p.connected b).magic = p.magic := p.sameMagic b
  have magic : (p.version !b).header.magic = (p.connected b).magic := sameMagic.symm
  have magic' : p.verack.header.magic = (p.greeted b).magic := sameMagic.symm
  have size := p.version_size !b
  have nonempty : (p.version !b).header.size ≠ 0 := by
    intro empty
    rw [empty] at size
    exact absurd size (by decide)
  have versionFirst : p.stream (!b) = [] ++ ((p.version !b).wire ++ p.verack.wire) := by
    rw [List.nil_append, stream]
  have verackNext : p.stream (!b) = (p.version !b).wire ++ (p.verack.wire ++ []) := by
    rw [List.append_nil, stream]
  have length := p.version_wire_length !b
  simp only [later, List.isChain_cons_cons, List.isChain_singleton, and_true]
  refine ⟨?_, ?_, ?_, ?_, ?_, ?_, ?_, ?_, ?_, ?_, ?_⟩
  · have results : (p.start b).results = [] := rfl
    have sent : (p.start b).sent = [] := rfl
    have taken : (p.start b).taken = 0 := rfl
    rw [Party.step_send (p.start_talk b), results, sent, taken, List.nil_append]
  · rw [Message.wire]
    exact Party.step_send rfl
  · have fine : ∀ result ∈ [] ++ [ok (p.connected b)], failed result = false := by simp [failed_ok]
    rw [Party.step_done rfl, nextCall_ok fine rfl connected]
    rfl
  · exact step_magic _ _ _ connected versionFirst rfl
  · exact step_header _ _ _ connected magic versionFirst rfl
  · exact step_payload _ _ _ connected nonempty versionFirst rfl size
  · rw [version_answered, stream]
    exact Party.step_send rfl
  · have fine : ∀ result ∈ [ok (p.connected b)] ++ [ok (p.greeted b)], failed result = false := by
      simp [failed_ok]
    rw [Party.step_done rfl, nextCall_ok fine rfl connected]
    rfl
  · exact step_magic _ _ _ connected verackNext length
  · exact step_header _ _ _ connected magic' verackNext length
  · have fine : ∀ result ∈ [ok (p.connected b), ok (p.greeted b)] ++ [ok (p.settled b)],
        failed result = false := by
      simp [failed_ok]
    rw [verack_ends, Party.step_done rfl, nextCall_ok fine rfl connected]
    rfl

/-- Alone, a client ends up waiting for the next message. -/
theorem start_alone (count : Nat) :
    (p.start b).alone (nextCall p.handlerReturns) (p.stream !b) count =
      (p.start b :: p.later b)[count]? := by
  have length : (p.stream !b).length = 133 := by
    rw [stream, List.length_append, version_wire_length, verack_wire_length]
  have waits : talkNextMessage p.handlerReturns (p.settled b) =
    .recv 4 (talkMagic p.handlerReturns (p.settled b)) :=
    talkRecv_connected (p.connected_tcp b) 4 _
  apply Party.alone_eq (p.later_chain b)
  simp [later, Party.step, waits, length]

/-! ## What holds in every state -/

/-- Calls return 0, nothing but the version and the verack is sent, and the verack
answers the other's version. -/
structure Orderly (party : Party UInt8 Ended) : Prop where
  accepted : ∀ result ∈ party.results, ∃ cli, result = some (.returned 0, cli)
  sent : party.sent <+: p.stream b
  answers : (p.version b).wire.length < party.sent.length → (p.version !b).wire.length ≤ party.taken

theorem later_orderly : ∀ party ∈ p.start b :: p.later b, p.Orderly b party := by
  have whole : (p.version b).wire <+: p.stream b := List.prefix_append _ _
  have half : (p.version b).header.bytes <+: p.stream b := (List.prefix_append _ _).trans whole
  have length := p.version_wire_length b
  have length' := p.version_wire_length !b
  have header := (p.version b).header.bytes_length
  intro party member
  simp only [later, List.mem_cons, List.not_mem_nil, or_false] at member
  rcases member with rfl | rfl | rfl | rfl | rfl | rfl | rfl | rfl | rfl | rfl | rfl | rfl
  all_goals
    constructor
    · simp [start, ok]
    · first | exact List.nil_prefix | exact half | exact whole | exact List.prefix_rfl
    · simp [start, length, length', header]

/-- `bc_client_connect` has returned, and the next message has not begun to arrive. -/
def betweenCalls (party : Party UInt8 Ended) : Bool := party.idle && !party.results.isEmpty

/-! ## How far a client is after so many steps -/

def sentSizes : List Nat := [0, 24, 109, 109, 109, 109, 109, 133, 133, 133, 133, 133]

def takenSizes : List Nat := [0, 0, 0, 0, 4, 24, 109, 109, 109, 113, 133, 133]

def callEnds : List Bool :=
  [false, false, false, true, false, false, false, false, true, false, false, true]

theorem later_sizes :
    (p.start b :: p.later b).map (fun party => party.sent.length) = sentSizes ∧
      (p.start b :: p.later b).map (fun party => party.taken) = takenSizes ∧
      (p.start b :: p.later b).map betweenCalls = callEnds := by
  have version := p.version_wire_length b
  have verack := p.verack_wire_length
  have header := (p.version b).header.bytes_length
  have length : (p.stream b).length = 133 := by rw [stream, List.length_append, version, verack]
  simp [later, start, sentSizes, takenSizes, callEnds, betweenCalls, version, header, length]

/-- Two clients that both wait have come to the end. -/
theorem waiting_sizes :
    ∀ i ∈ List.range 12, ∀ j ∈ List.range 12, (i < 11 → sentSizes[j]! < takenSizes[i + 1]!) →
    (j < 11 → sentSizes[i]! < takenSizes[j + 1]!) → i = 11 ∧ j = 11 := by decide

/-- Between calls nothing is under way at the end only. -/
theorem empty_sizes : ∀ i ∈ List.range 12, ∀ j ∈ List.range 12, callEnds[i]! → callEnds[j]! →
    takenSizes[i]! = sentSizes[j]! → takenSizes[j]! = sentSizes[i]! → i = 11 ∧ j = 11 := by decide

section

variable {p} {schedule : List Bool} {parties : Bool → Party UInt8 Ended}

/-- What a client sends alone is the beginning of its stream. -/
theorem consistent : Consistent (nextCall p.handlerReturns) p.stream p.start := by
  intro b count party reached
  rw [start_alone] at reached
  exact (p.later_orderly b party (List.mem_of_getElem? reached)).sent

/-- In every interleaving a client goes through the states of its run alone. -/
theorem reached (ran : Run.run p.step id p.start schedule = some parties) (b : Bool) :
    (p.start b :: p.later b)[schedule.count b]? = some (parties b) := by
  rw [← start_alone]
  exact run_alone consistent ran b

theorem count_bound (ran : Run.run p.step id p.start schedule = some parties) (b : Bool) :
    schedule.count b < 12 := by
  obtain ⟨bound, -⟩ := List.getElem?_eq_some_iff.mp (reached ran b)
  simpa [later] using bound

theorem sizes (ran : Run.run p.step id p.start schedule = some parties) (b : Bool) :
    (parties b).sent.length = sentSizes[schedule.count b]! ∧
      (parties b).taken = takenSizes[schedule.count b]! ∧
      betweenCalls (parties b) = callEnds[schedule.count b]! := by
  obtain ⟨sent, taken, between⟩ := p.later_sizes b
  rw [← sent, ← taken, ← between]
  simp only [getElem!_def, List.getElem?_map, reached ran b, Option.map_some, and_self]

/-- A client that cannot move before the end waits for what the other one has not sent. -/
theorem waits (ran : Run.run p.step id p.start schedule = some parties) {b : Bool}
    (stuck : p.step parties b = none) (early : schedule.count b < 11) :
    sentSizes[schedule.count !b]! < takenSizes[schedule.count b + 1]! := by
  have inside : schedule.count b + 1 < (p.start b :: p.later b).length := by
    simp [later]
    omega
  obtain ⟨_, here⟩ := List.getElem?_eq_some_iff.mp (reached ran b)
  have possible := List.isChain_iff_getElem.mp (p.later_chain b) _ inside
  rw [here] at possible
  have short := waits_of_stuck stuck possible
  obtain ⟨-, taken, -⟩ := p.later_sizes b
  rw [(sizes ran !b).1] at short
  have inside' : schedule.count b + 1 < takenSizes.length := by
    rw [← taken, List.length_map]
    exact inside
  rw [getElem!_pos takenSizes _ inside']
  simp only [← taken, List.getElem_map]
  exact short

/-- Where both clients wait both have received everything. -/
theorem ends_of_stuck (ran : Run.run p.step id p.start schedule = some parties)
    (stuck : ∀ b, p.step parties b = none) (b : Bool) : schedule.count b = 11 := by
  have ended := waiting_sizes _ (List.mem_range.mpr (count_bound ran true)) _
    (List.mem_range.mpr (count_bound ran false)) (waits ran (stuck true)) (waits ran (stuck false))
  cases b with
  | true => exact ended.1
  | false => exact ended.2

/-- At the end neither client moves. -/
theorem stuck_of_ends (ran : Run.run p.step id p.start schedule = some parties)
    (ended : ∀ b, schedule.count b = 11) (b : Bool) : p.step parties b = none := by
  cases moved : p.step parties b with
  | none => rfl
  | some next =>
    have beyond := step_alone consistent (run_alone consistent ran) moved b
    rw [start_alone, ended b, List.count_singleton_self] at beyond
    cases beyond

end

theorem schedule_length (p : Pair) {schedule : List Bool} {parties : Bool → Party UInt8 Ended}
    (ran : Run.run p.step id p.start schedule = some parties) : schedule.length ≤ 22 := by
  have first := count_bound ran true
  have second := count_bound ran false
  have total := List.count_true_add_count_false schedule
  omega

/-- In every interleaving both clients complete the handshake, and then nothing more is sent. -/
theorem handshake_completes (p : Pair) {schedule : List Bool} {parties : Bool → Party UInt8 Ended}
    (ran : Run.run p.step id p.start schedule = some parties) :
    (∀ b, p.Orderly b (parties b)) ∧ schedule.length ≤ 22 ∧
      ((∀ b, p.step parties b = none) →
        ∀ b, (parties b).sent = p.stream b ∧ (parties b).taken = (p.stream !b).length) ∧
      ((∀ b, betweenCalls (parties b)) → (∀ b, (parties b).taken = (parties !b).sent.length) →
        ∀ more final, Run.run p.step id parties more = some final →
          ∀ b, (final b).sent = (parties b).sent) := by
  have first := count_bound ran true
  have second := count_bound ran false
  refine ⟨?_, p.schedule_length ran, ?_, ?_⟩
  · intro b
    exact p.later_orderly b _ (List.mem_of_getElem? (reached ran b))
  · intro stuck b
    have last := reached ran b
    rw [ends_of_stuck ran stuck b] at last
    have final := Option.some.inj last
    have length : (p.stream !b).length = 133 := by
      rw [stream, List.length_append, version_wire_length, verack_wire_length]
    rw [← final, length]
    exact ⟨rfl, rfl⟩
  · intro between empty more final rest b
    have calls : ∀ b, callEnds[schedule.count b]! := fun b => by
      rw [← (sizes ran b).2.2]; exact between b
    have drained : ∀ b, takenSizes[schedule.count b]! = sentSizes[schedule.count !b]! := by
      intro b
      rw [← (sizes ran b).2.1, ← (sizes ran !b).1]
      exact empty b
    have ended := empty_sizes _ (List.mem_range.mpr first) _ (List.mem_range.mpr second)
      (calls true) (calls false)
      (drained true) (drained false)
    have stuck := stuck_of_ends ran fun b => by
      cases b with | true => exact ended.1 | false => exact ended.2
    cases more with
    | nil =>
      obtain rfl : parties = final := Option.some.inj rest
      rfl
    | cons mover more => simp [Run.run, stuck mover] at rest

/-- Two clients of the fourth test network. -/
def twoClients : Pair where
  magic := verackSession.cli.magic
  client _ := ⟨⟨-1, 0⟩, verackSession.cli.magic, [], .ok, (), none⟩
  sameMagic _ := rfl
  sd _ := 3
  time b := if b then 1700000000 else 0
  fresh _ _ _ := 0
  handlerReturns := false

/-- Some schedule goes on until both wait. -/
theorem handshake_completes_twoClients :
    ∃ schedule parties, Run.run twoClients.step id twoClients.start schedule = some parties ∧
      ∀ b, twoClients.Orderly b (parties b) ∧ (parties b).sent = twoClients.stream b ∧
        (parties b).taken = (twoClients.stream !b).length := by
  obtain ⟨schedule, parties, ran, stuck⟩ :=
    Run.exists_stuck_run 22 twoClients.start fun _ _ ran => twoClients.schedule_length ran
  obtain ⟨orderly, -, complete, -⟩ := handshake_completes twoClients ran
  exact ⟨schedule, parties, ran, fun b => ⟨orderly b, complete stuck b⟩⟩

end Pair

end NuLab.Client
