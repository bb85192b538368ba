import NuLab.Client.Handshake
import NuLab.Transaction.Segwit

/-! # What becomes of `inv` and `ping`

`nu_expect` is 1 if what is expected holds, and `on_inv` takes 1 for a failure: every
announcement counts as one, and eleven in a row end the loop of `main`.  A pong is
made without payload, whatever the nonce of the ping is.
-/

namespace NuLab.Client

open NuLab.Bytes NuLab.CString NuLab.Talk
open NuLab.Transaction (compactSize)

/-! ## Announcements -/

/-- The number of the entries, and the entries. -/
def invPayload (entries : List (List UInt8)) : List UInt8 :=
  compactSize (UInt64.ofNat entries.length) ++ entries.flatten

/-- What a valid `inv` is made of. -/
structure Announcement where
  entries : List (List UInt8)
  nonempty : entries ≠ []
  sized : ∀ entry ∈ entries, entry.length = 36
  short : (invPayload entries).length < 2 ^ 32

namespace Announcement

variable (a : Announcement)

def payload : List UInt8 := invPayload a.entries

def size : UInt32 := UInt32.ofNat a.payload.length

def message (magic : Vector UInt8 4) : Message := messageFor magic (text "inv") a.payload a.short

end Announcement

def typeId (entry : List UInt8) : UInt32 := UInt32.ofNat (ofLE (entry.take 4))

/-- All entries are read, each at its place, and nothing behind them. -/
def Examines (handlerReturns : Bool) (a : Announcement) : Prop :=
  onInv handlerReturns (some a.payload) a.size = some (.returned 0, a.entries.map typeId)

variable (handlerReturns : Bool)

/-- The results with those of the next `count` calls of `main`; `none` if the loop ends before. -/
def mainCalls : Nat → List Ended → List UInt8 → Option (List Ended)
  | 0, results, _ => some results
  | count + 1, results, incoming => (nextCall handlerReturns results).bind fun talk =>
    let (ended, _, left) := talk.play incoming
    mainCalls count (results ++ [ended]) left

/-! ## One announcement -/

variable {handlerReturns : Bool} {cli : BcClient Unit}

theorem compactSize_nonempty (val : UInt64) : 0 < (compactSize val).length := by
  unfold compactSize
  split
  · exact Nat.zero_lt_one
  · split
    · exact Nat.succ_pos _
    · split
      · exact Nat.succ_pos _
      · exact Nat.succ_pos _

theorem Announcement.size_toNat (a : Announcement) : a.size.toNat = a.payload.length :=
  UInt32.toNat_ofNat_of_lt' a.short

theorem Announcement.size_pos (a : Announcement) : 0 < a.size := by
  have positive := compactSize_nonempty (UInt64.ofNat a.entries.length)
  rw [UInt32.lt_iff_toNat_lt, a.size_toNat, Announcement.payload, invPayload, List.length_append]
  exact Nat.lt_of_lt_of_le positive (Nat.le_add_right _ _)

/-- The expectation holds, which is taken for a failure. -/
theorem onInv_announcement (a : Announcement) :
    onInv handlerReturns (some a.payload) a.size = some (.returned 1, []) :=
  if_pos ⟨a.size_pos, rfl⟩

theorem Announcement.delivery (a : Announcement) (magic : Vector UInt8 4) :
    (a.message magic).delivery = ((a.message magic).header, some a.payload) := by
  have nonzero : (a.message magic).header.size ≠ 0 := UInt32.pos_iff_ne_zero.mp a.size_pos
  rw [Message.delivery, if_pos nonzero]
  rfl

/-- `on_msg` accepts the announcement, sends nothing and fails. -/
theorem talkOnMsg_announcement (a : Announcement) {magic : Vector UInt8 4}
    (same : cli.magic = magic) :
    talkOnMsg handlerReturns cli ((a.message magic).header, some a.payload) =
      .done (some (.returned 1, cli)) := by
  subst same
  have passes : passesChecks cli.magic (a.message cli.magic).delivery = some true :=
    messageFor_passes cli.magic (text "inv") a.payload a.short
  have named : strncmpEq (a.message cli.magic).header.command.toList (text "inv") 12 = true := by
    show strncmpEq (bytesAt (strncpy (text "inv") 11) 0 12).toList (text "inv") 12 = true
    decide
  have noVersion := strncmpEq_other named (text "version") (by decide)
  have noVerack := strncmpEq_other named (text "verack") (by decide)
  have noPing := strncmpEq_other named (text "ping") (by decide)
  have examined : onInv handlerReturns (some a.payload) (a.message cli.magic).header.size =
    some (.returned 1, []) :=
    onInv_announcement a
  rw [talkOnMsg, ← a.delivery, onMsg_passed passes, a.delivery, onCommand]
  simp [named, noVersion, noVerack, noPing, examined]

/-- Played against the announcement, `bc_client_next_message` fails and leaves
the rest of the stream. -/
theorem talkNextMessage_announcement (connected : cli.tcp.Connected) (a : Announcement)
    (rest : List UInt8) :
    (talkNextMessage handlerReturns cli).play ((a.message cli.magic).wire ++ rest) =
      (some (.returned 1, { cli with sbuf := a.payload }), [], rest) := by
  let header := (a.message cli.magic).header
  have magic : header.magic = cli.magic := rfl
  have nonzero : header.size ≠ 0 := UInt32.pos_iff_ne_zero.mp a.size_pos
  have size : header.size.toNat = a.payload.length := a.size_toNat
  have length : header.bytes.length = 24 := header.bytes_length
  have wire : (a.message cli.magic).wire ++ rest =
      header.bytes.take 4 ++ (header.bytes.drop 4 ++ (a.payload ++ rest)) := by
    rw [← List.append_assoc, List.take_append_drop, Message.wire, List.append_assoc]
    rfl
  have first : (header.bytes.take 4).length = 4 := by rw [List.length_take, length]; rfl
  have second : (header.bytes.drop 4).length = 20 := by rw [List.length_drop, length]
  have received : talkPayload handlerReturns { cli with sbuf := [] } header a.payload =
      talkOnMsg handlerReturns { cli with sbuf := a.payload } (header, some a.payload) :=
    talkPayload_message (a.message cli.magic)
  have handled : talkOnMsg handlerReturns { cli with sbuf := a.payload } (header, some a.payload) =
      .done (some (.returned 1, { cli with sbuf := a.payload })) := talkOnMsg_announcement a rfl
  rw [talkNextMessage, talkRecv_connected connected, Talk.play, wire, List.take_left' first,
    List.drop_left' first, talkMagic_header connected magic, Talk.play, List.take_left' second,
    List.drop_left' second, talkRest_header connected, if_pos nonzero, Talk.play, size,
    List.take_left' rfl, List.drop_left' rfl]
  exact congrArg (fun talk => Talk.play talk rest) (received.trans handled)

/-! ## Announcements in a row -/

/-- The last call returned with this client, and so many calls of
`bc_client_next_message` before have failed. -/
structure FailsInRow (results : List Ended) (cli : BcClient Unit) (fails : Nat) : Prop where
  last : ∃ ec, results.getLast? = some (some (.returned ec, cli)) ∧ (results.length = 1 → ec = 0)
  count : (results.tail.reverse.takeWhile failed).length = fails
  connected : cli.tcp.Connected
  status : cli.status = .ok

theorem FailsInRow.again {results : List Ended} {fails : Nat} (row : FailsInRow results cli fails)
    (few : fails ≤ 10) :
    nextCall handlerReturns results = some (talkNextMessage handlerReturns cli) := by
  obtain ⟨ec, last, first⟩ := row.last
  have notFirst : ¬ (results.length = 1 ∧ ec ≠ 0) := fun both => both.2 (first both.1)
  have noError : ¬ (ec ≠ 0 ∧ cli.status = .tcpError) := by
    rw [row.status]
    simp
  have notMore : ¬ (results.tail.reverse.takeWhile failed).length > 10 := by
    rw [row.count]
    omega
  simp only [nextCall, last, if_neg notFirst, if_neg noError, if_neg notMore,
    if_pos row.connected.noError]

theorem FailsInRow.stops {results : List Ended} {fails : Nat} (row : FailsInRow results cli fails)
    (many : 10 < fails) : nextCall handlerReturns results = none := by
  obtain ⟨ec, last, first⟩ := row.last
  have more : (results.tail.reverse.takeWhile failed).length > 10 := by rw [row.count]; exact many
  simp only [nextCall, last, if_pos more]
  split
  · rfl
  · split
    · rfl
    · rfl

theorem FailsInRow.next {results : List Ended} {fails : Nat} (row : FailsInRow results cli fails)
    (sbuf : List UInt8) :
    FailsInRow (results ++ [some (.returned 1, { cli with sbuf := sbuf })])
      { cli with sbuf := sbuf } (fails + 1) where
  last := by
    refine ⟨1, List.getLast?_concat, fun length => ?_⟩
    obtain ⟨ec, last, -⟩ := row.last
    rw [List.length_append, List.length_singleton, Nat.succ_inj, List.length_eq_zero_iff] at length
    rw [length] at last
    cases last
  count := by
    obtain ⟨ec, last, -⟩ := row.last
    cases results with
    | nil => cases last
    | cons first later =>
      have counted : (later.reverse.takeWhile failed).length = fails := row.count
      rw [List.cons_append, List.tail_cons, List.reverse_append, List.reverse_singleton,
        List.singleton_append, List.takeWhile_cons, if_pos (by rfl), List.length_cons, counted]
  connected := row.connected
  status := row.status

def announced (magic : Vector UInt8 4) (as : List Announcement) : List UInt8 :=
  as.flatMap fun a => (a.message magic).wire

/-- Eleven failures are reached with these announcements. -/
theorem mainCalls_announcements {results : List Ended} {fails : Nat}
    (row : FailsInRow results cli fails) (as : List Announcement) (eleven : fails + as.length = 11)
    (rest : List UInt8) :
    mainCalls handlerReturns (as.length + 1) results (announced cli.magic as ++ rest) = none := by
  induction as generalizing results cli fails with
  | nil =>
    rw [mainCalls, row.stops (by rw [List.length_nil] at eleven; omega)]
    rfl
  | cons a as inductionHypothesis =>
    rw [List.length_cons] at eleven
    rw [List.length_cons, mainCalls, row.again (by omega), announced, List.flatMap_cons,
      List.append_assoc, Option.bind_some, talkNextMessage_announcement row.connected]
    have later := inductionHypothesis (row.next a.payload) (by omega)
    exact later

/-- No announcement is examined, and after the connection any eleven of them
end the loop of `main`. -/
theorem onInv_examines_never (handlerReturns : Bool) :
    (∀ a, ¬ Examines handlerReturns a) ∧
      ∀ (cli : BcClient Unit) (as : List Announcement) (rest : List UInt8), cli.tcp.Connected →
        cli.status = .ok → as.length = 11 →
        mainCalls handlerReturns 12 [some (.returned 0, cli)] (announced cli.magic as ++ rest) =
          none := by
  refine ⟨fun a examines => ?_, fun cli as rest connected status eleven => ?_⟩
  · rw [Examines, onInv_announcement] at examines
    simp at examines
  · have row : FailsInRow [some (.returned 0, cli)] cli 0 :=
      ⟨⟨0, rfl, fun _ => rfl⟩, rfl, connected, status⟩
    have stopped : mainCalls handlerReturns (as.length + 1) _ _ = none :=
      mainCalls_announcements row as (by omega) rest
    rwa [eleven] at stopped

/-- One transaction is announced, with a hash of zeros. -/
def oneTransaction : Announcement where
  entries := [[1, 0, 0, 0] ++ List.replicate 32 0]
  nonempty := List.cons_ne_nil _ _
  sized entry member := by
    rw [List.mem_singleton.mp member]
    rfl
  short := by decide

/-- A client of the fourth test network that has connected. -/
def connectedClient : BcClient Unit := ⟨⟨3, 0⟩, verackSession.cli.magic, [], .ok, (), none⟩

theorem connectedClient_connected : connectedClient.tcp.Connected := ⟨rfl, by decide⟩

theorem onInv_examines_never_eleven :
    mainCalls false 12 [some (.returned 0, connectedClient)]
      (announced connectedClient.magic (List.replicate 11 oneTransaction) ++ []) = none :=
  (onInv_examines_never false).2 connectedClient _ [] connectedClient_connected rfl
    List.length_replicate

theorem onInv_fails : ¬ ∀ handlerReturns a, Examines handlerReturns a := by
  intro always
  have examines := always false oneTransaction
  rw [Examines, onInv_announcement] at examines
  simp at examines

/-! ## Pings -/

/-- A ping that `on_msg` accepts, with a nonce of eight bytes. -/
structure Ping (magic : Vector UInt8 4) where
  message : Message
  named : strncmpEq message.header.command.toList (text "ping") 12 = true
  passes : passesChecks magic message.delivery = some true
  nonce : message.payload.length = 8

/-- The pong with the same nonce. -/
def Ping.pong {magic : Vector UInt8 4} (ping : Ping magic) : Message :=
  messageFor magic (text "pong") ping.message.payload (by rw [ping.nonce]; decide)

variable {σ : Type}

/-- What is sent is the pong. -/
def AnswersPing (handlerReturns : Bool) (kernel : SendKernel) (cli : BcClient σ) (out : Outgoing)
    (ping : Ping cli.magic) : Prop :=
  ∃ reaction cli' out',
    onMsg handlerReturns kernel cli out ping.message.delivery = some (reaction, cli', out') ∧
    out'.stream = out.stream ++ ping.pong.wire

/-- The nonce is not looked at. -/
theorem onMsg_ping (kernel : SendKernel) (cli : BcClient σ) (out : Outgoing)
    (ping : Ping cli.magic) :
    onMsg handlerReturns kernel cli out ping.message.delivery =
      let (_, tcp, out) :=
  nuTcpClientSend kernel cli.tcp out (emptyMessage cli.magic (text "pong")).wire
      some (.returned 0, { cli with tcp := tcp }, out) := by
  have noVersion := strncmpEq_other ping.named (text "version") (by decide)
  have noVerack := strncmpEq_other ping.named (text "verack") (by decide)
  have header : ping.message.delivery.1 = ping.message.header := rfl
  rw [onMsg_passed ping.passes, onCommand]
  simp only [header, noVersion, noVerack, ping.named, if_true, Bool.false_eq_true, if_false,
    bcClientSendPong, sendEmpty_eq, emptyMessage_wire]
  rfl

theorem nuTcpClientSend_length (kernel : SendKernel) (tcp : NuTcpClient) (out : Outgoing)
    (msg : List UInt8) :
    (nuTcpClientSend kernel tcp out msg).2.2.stream.length ≤ out.stream.length + msg.length := by
  unfold nuTcpClientSend send
  by_cases unusable : tcp.ec ≠ 0 ∨ tcp.sd < 0
  · rw [if_pos unusable]
    exact Nat.le_add_right _ _
  · rw [if_neg unusable]
    cases kernel out.calls msg.length with
    | sent count => simp
    | failed errno => exact Nat.le_add_right _ _

/-- Whatever the client and its connection are like, the pong is not sent; over a working
connection, the answer to every ping is one without payload. -/
theorem onMsg_pong_never (handlerReturns : Bool) (cli : BcClient σ) (out : Outgoing)
    (ping : Ping cli.magic) :
    (∀ kernel, ¬ AnswersPing handlerReturns kernel cli out ping) ∧
      (cli.tcp.Connected → onMsg handlerReturns wholeSends cli out ping.message.delivery =
        some (.returned 0, cli,
          ⟨out.stream ++ (emptyMessage cli.magic (text "pong")).wire, out.calls + 1⟩)) := by
  constructor
  · intro kernel answers
    obtain ⟨reaction, cli', out', run, sent⟩ := answers
    rw [onMsg_ping, Option.some.injEq, Prod.mk.injEq, Prod.mk.injEq] at run
    obtain ⟨-, -, rfl⟩ := run
    -- the pong has eight bytes more than what can have been sent
    have most := nuTcpClientSend_length kernel cli.tcp out
      (emptyMessage cli.magic (text "pong")).wire
    rw [sent, List.length_append, emptyMessage_wire, BcMessageHeader.bytes_length, Ping.pong,
      messageFor_wire, List.length_append, BcMessageHeader.bytes_length, ping.nonce] at most
    omega
  · intro connected
    rw [onMsg_ping, wholeSends_send, if_neg connected.usable]

/-- A ping with the nonce 1. -/
def firstPing : Ping connectedClient.magic where
  message := messageFor connectedClient.magic (text "ping") [1, 0, 0, 0, 0, 0, 0, 0] (by decide)
  named := by
    show strncmpEq (bytesAt (strncpy (text "ping") 11) 0 12).toList (text "ping") 12 = true
    decide
  passes := messageFor_passes _ _ _ _
  nonce := rfl

theorem onMsg_pong_never_first :
    onMsg false wholeSends connectedClient ⟨[], 0⟩ firstPing.message.delivery =
      some (.returned 0, connectedClient,
        ⟨[] ++ (emptyMessage connectedClient.magic (text "pong")).wire, 0 + 1⟩) :=
  (onMsg_pong_never false connectedClient ⟨[], 0⟩ firstPing).2 connectedClient_connected

theorem onMsg_pong_empty :
    ¬ ∀ (handlerReturns : Bool) (cli : BcClient Unit) (out : Outgoing) (ping : Ping cli.magic),
    cli.tcp.Connected → AnswersPing handlerReturns wholeSends cli out ping := by
  intro always
  obtain ⟨reaction, cli', out', run, sent⟩ :=
    always false connectedClient ⟨[], 0⟩ firstPing connectedClient_connected
  rw [onMsg_ping, wholeSends_send] at run
  cases run
  have lengths := congrArg List.length sent
  rw [Ping.pong, messageFor_wire, emptyMessage_wire] at lengths
  simp [connectedClient, firstPing, messageFor] at lengths

end NuLab.Client
