import NuLab.Client.OnMsg
import NuLab.Lib.Talk

/-! # The client step by step

On channels where sends complete and receives return the full count, the client can
be interrupted at every channel operation.  Its calls are talks here, and a talk
played without interruption is the call itself.
-/

namespace NuLab.Client

open NuLab.Bytes NuLab.CString

/-- What a call ends with, and the client after it; `none` is a read behind the end of a message. -/
abbrev Ended := Option (Reaction × BcClient Unit)

abbrev ClientTalk := Talk UInt8 Ended

/-- Every `send` takes all the bytes. -/
def wholeSends : SendKernel := fun _ num => .sent num

def talkSend (cli : BcClient Unit) (msg : List UInt8) (rest : ClientTalk) : ClientTalk :=
  if cli.tcp.ec ≠ 0 ∨ cli.tcp.sd < 0 then rest else .send msg rest

def talkRecv (cli : BcClient Unit) (num : Nat) (rest : List UInt8 → ClientTalk) : ClientTalk :=
  if cli.tcp.ec ≠ 0 ∨ cli.tcp.sd < 0 then rest [] else .recv num rest

/-! ## `bc_client_connect` -/

def talkSendBoth (cli : BcClient Unit) (header : BcMessageHeader) : ClientTalk :=
  talkSend cli header.bytes
    (if cli.tcp.ec ≠ 0 then .done (some (.returned 1, { cli with status := .tcpError }))
    else talkSend cli cli.sbuf
      (if cli.tcp.ec ≠ 0 then .done (some (.returned 1, { cli with status := .tcpError }))
      else .done (some (.returned (if cli.status = .ok then 0 else 1), cli))))

def talkSendVersion (mem : Transaction.Allocator) (time : Int64) (cli : BcClient Unit) :
    ClientTalk :=
  match bcAppendVersionMessagePayload (msgVerData time) mem ⟨[], 0⟩ with
  | none => .done none
  | some (_, sbuf) =>
    let cli := { cli with sbuf := sbuf.bytes }
    match bcMassageHeaderMakeWithData cli (text "version") (some cli.sbuf)
      (UInt32.ofNat cli.sbuf.length) with
    | none => .done none
    | some header => talkSendBoth cli header

def talkConnect (mem : Transaction.Allocator) (time : Int64) (answer : Connection)
    (cli : BcClient Unit) : ClientTalk :=
  let (ec, tcp) := nuTcpClientConnect cli.tcp answer
  if ec ≠ 0 then .done (some (.returned ec, { cli with tcp := tcp, status := .tcpError }))
  else talkSendVersion mem time { cli with tcp := tcp, status := .ok }

/-! ## `bc_client_next_message` with `on_msg` -/

variable (handlerReturns : Bool)

/-- The message that `on_msg` sends, if it sends one, is the last thing it does. -/
def talkOnMsg (cli : BcClient Unit) (delivery : Delivery) : ClientTalk :=
  match onMsg handlerReturns wholeSends cli ⟨[], 0⟩ delivery with
  | none => .done none
  | some (reaction, cli, out) =>
    if out.calls = 0 then .done (some (reaction, cli))
    else .send out.stream (.done (some (reaction, cli)))

/-- From the payload on. -/
def talkPayload (cli : BcClient Unit) (hdr : BcMessageHeader) (data : List UInt8) : ClientTalk :=
  let cli := { cli with sbuf := data }
  if data.length ≠ hdr.size.toNat then .done (some (.returned 1, { cli with status := .tcpError }))
  else talkOnMsg handlerReturns cli (hdr, some data)

/-- From the header's remaining 20 bytes on. -/
def talkRest (cli : BcClient Unit) (image bytes : List UInt8) : ClientTalk :=
  let image := overwrite image 4 bytes
  if bytes.length ≠ 20 then .done (some (.returned 1, { cli with status := .tcpError }))
  else
    let hdr := BcMessageHeader.ofImage image
    let cli := { cli with sbuf := [] }
    if hdr.size ≠ 0 then talkRecv cli hdr.size.toNat (talkPayload handlerReturns cli hdr)
    else talkOnMsg handlerReturns cli (hdr, none)

/-- From the magic on. -/
def talkMagic (cli : BcClient Unit) (bytes : List UInt8) : ClientTalk :=
  let image := overwrite (List.replicate 24 0) 0 bytes
  if bytes.length ≠ 4 then .done (some (.returned 1, { cli with status := .tcpError }))
  else if bytesAt image 0 4 ≠ cli.magic
    then .done (some (.returned 1, { cli with status := .magicMismatch }))
  else talkRecv cli 20 (talkRest handlerReturns cli image)

def talkNextMessage (cli : BcClient Unit) : ClientTalk :=
  talkRecv cli 4 (talkMagic handlerReturns cli)

/-! ## `main` -/

def failed : Ended → Bool
  | some (.returned ec, _) => decide (ec ≠ 0)
  | _ => true

/-- The loop of `main`: the call that follows the results of `bc_client_connect` and
`bc_client_next_message`. -/
def nextCall (results : List Ended) : Option ClientTalk :=
  match results.getLast? with
  | some (some (.returned ec, cli)) =>
    if results.length = 1 ∧ ec ≠ 0 then none
    else if ec ≠ 0 ∧ cli.status = .tcpError then none
    -- failures in a row, where `bc_client_connect` does not count
    else if (results.tail.reverse.takeWhile failed).length > 10 then none
    else if cli.tcp.ec = 0 then some (talkNextMessage handlerReturns cli)
    else none
  | _ => none

/-! ## Without interruption -/

/-- What a call of the sending half comes to. -/
def sendEnded : Option (Int × BcClient Unit × Outgoing) → Ended × List UInt8
  | none => (none, [])
  | some (ec, cli, out) => (some (.returned ec, cli), out.stream)

theorem wholeSends_send (cli : NuTcpClient) (out : Outgoing) (msg : List UInt8) :
    nuTcpClientSend wholeSends cli out msg =
      if cli.ec ≠ 0 ∨ cli.sd < 0 then (0, cli, out)
        else (msg.length, cli, ⟨out.stream ++ msg, out.calls + 1⟩) := by
  simp [nuTcpClientSend, send, wholeSends]

theorem talkSendBoth_play (cli : BcClient Unit) (header : BcMessageHeader) (incoming : List UInt8) :
    (talkSendBoth cli header).play incoming =
      let (ended, sent) := sendEnded (some (sendBoth wholeSends cli ⟨[], 0⟩ header))
      (ended, sent, incoming) := by
  unfold talkSendBoth talkSend sendBoth
  simp only [wholeSends_send]
  by_cases error : cli.tcp.ec = 0
  · by_cases closed : cli.tcp.sd < 0
    · simp [error, closed, Talk.play, sendEnded]
    · simp [error, closed, Talk.play, sendEnded]
  · simp [error, Talk.play, sendEnded]

/-- Without interruption, what the talk does is the call. -/
theorem talkConnect_play (mem : Transaction.Allocator) (time : Int64) (answer : Connection)
    (cli : BcClient Unit) (incoming : List UInt8) :
    (talkConnect mem time answer cli).play incoming =
      let (ended, sent) := sendEnded (bcClientConnect mem wholeSends time answer cli ⟨[], 0⟩)
      (ended, sent, incoming) := by
  unfold talkConnect bcClientConnect
  dsimp only
  by_cases error : (nuTcpClientConnect cli.tcp answer).1 ≠ 0
  · rw [if_pos error, if_pos error]
    rfl
  · rw [if_neg error, if_neg error]
    unfold talkSendVersion bcHandshake bcClientSendVersion
    cases bcAppendVersionMessagePayload (msgVerData time) mem ⟨[], 0⟩ with
    | none => rfl
    | some appended =>
      simp only [Option.bind_eq_bind, Option.bind_some]
      cases bcMassageHeaderMakeWithData _ (text "version") _ _ with
      | none => rfl
      | some header => exact talkSendBoth_play _ header incoming

/-- Either nothing has been sent, or one `send` was called. -/
theorem sendEmpty_once {command : List UInt8} {kernel : SendKernel} {cli cli' : BcClient Unit}
    {out : Outgoing} {ec : Int}
    (run : sendEmpty command kernel cli ⟨[], 0⟩ = some (ec, cli', out)) :
    out = ⟨[], 0⟩ ∨ out.calls = 1 := by
  rw [sendEmpty_eq] at run
  simp only [Option.some.injEq, Prod.mk.injEq] at run
  obtain ⟨-, -, rfl⟩ := run
  unfold nuTcpClientSend
  split
  · exact .inl rfl
  · right
    unfold send
    cases kernel 0 (headerFor cli.magic command []).bytes.length with
    | sent count => rfl
    | failed errno => rfl

/-- `on_msg` sends nothing, or one message without payload. -/
theorem onCommand_sends {kernel : SendKernel} {cli cli' : BcClient Unit} {out out' : Outgoing}
    {delivery : Delivery} {reaction : Reaction}
    (run : onCommand handlerReturns kernel cli out delivery = some (reaction, cli', out')) :
    out' = out ∨ ∃ command ec, sendEmpty command kernel cli out = some (ec, cli', out') := by
  unfold onCommand at run
  dsimp only at run
  split_ifs at run with version verack ping inv cmpct filter
  · obtain ⟨ec, -, run⟩ := Option.bind_eq_some_iff.mp run
    split_ifs at run with accepted
    · obtain ⟨⟨ec', cli'', out''⟩, sent, run⟩ := Option.bind_eq_some_iff.mp run
      cases run
      exact .inr ⟨text "verack", ec', sent⟩
    · cases run
      exact .inl rfl
  · cases run
    exact .inl rfl
  · obtain ⟨⟨ec', cli'', out''⟩, sent, run⟩ := Option.bind_eq_some_iff.mp run
    cases run
    exact .inr ⟨text "pong", ec', sent⟩
  · obtain ⟨_, -, run⟩ := Option.bind_eq_some_iff.mp run
    cases run
    exact .inl rfl
  · obtain ⟨_, -, run⟩ := Option.bind_eq_some_iff.mp run
    obtain ⟨_, -, run⟩ := Option.bind_eq_some_iff.mp run
    cases run
    exact .inl rfl
  · cases run
    exact .inl rfl
  · cases run
    exact .inl rfl

theorem onMsg_once {kernel : SendKernel} {cli cli' : BcClient Unit} {out : Outgoing}
    {delivery : Delivery} {reaction : Reaction}
    (run : onMsg handlerReturns kernel cli ⟨[], 0⟩ delivery = some (reaction, cli', out)) :
    out = ⟨[], 0⟩ ∨ out.calls = 1 := by
  obtain ⟨passes, -, run⟩ := Option.bind_eq_some_iff.mp run
  cases passes with
  | false =>
    cases run
    exact .inl rfl
  | true =>
    cases onCommand_sends handlerReturns run with
    | inl same => exact .inl same
    | inr sent =>
      obtain ⟨command, ec, sent⟩ := sent
      exact sendEmpty_once sent

/-- A callback that returns, so that `Outcome.delivered` is what it has been called with. -/
def noted : Unit → Delivery → Int × Unit := fun _ _ => (0, ())

/-- What a call of `bc_client_next_message` comes to if the message it delivers goes to `on_msg`. -/
def reacted (out : Outcome Unit) : Ended × List UInt8 :=
  match out.delivered with
  | none => (some (.returned out.ret, out.session.cli), [])
  | some delivery =>
    match onMsg handlerReturns wholeSends out.session.cli ⟨[], 0⟩ delivery with
    | none => (none, [])
    | some (reaction, cli, sent) => (some (reaction, cli), sent.stream)

theorem deliver_noted {cli : BcClient Unit} (callback : cli.onMsg = some noted)
    (delivery : Delivery) (net : Network) :
    deliver ⟨cli, net⟩ delivery = ⟨0, some delivery, ⟨cli, net⟩⟩ := by
  cases cli with
  | mk tcp magic sbuf status ctx onMsg =>
    obtain rfl : onMsg = some noted := callback
    rfl

theorem talkOnMsg_play (cli : BcClient Unit) (callback : cli.onMsg = some noted)
    (delivery : Delivery) (net : Network) :
    (talkOnMsg handlerReturns cli delivery).play net.stream =
      let out := deliver ⟨cli, net⟩ delivery
      let (ended, sent) := reacted handlerReturns out
      (ended, sent, out.session.net.stream) := by
  unfold talkOnMsg
  simp only [deliver_noted callback, reacted]
  cases run : onMsg handlerReturns wholeSends cli ⟨[], 0⟩ delivery with
  | none => rfl
  | some result =>
    obtain ⟨reaction, cli', out⟩ := result
    dsimp only
    cases onMsg_once handlerReturns run with
    | inl nothing =>
      subst nothing
      rfl
    | inr once => simp [once, Talk.play]

theorem wholeReceives_recv (cli : NuTcpClient) (net : Network) (num : Nat) :
    nuTcpClientRecv Segmentation.whole.kernel cli net num =
      if cli.ec ≠ 0 ∨ cli.sd < 0 then ([], cli, net)
      else (net.stream.take num, cli, ⟨net.stream.drop num, net.calls + 1⟩) := by
  simp [nuTcpClientRecv, recv, Segmentation.kernel, Segmentation.whole]

/-- Without interruption, what the talk does is the call, and `on_msg` with
the message it delivers. -/
theorem talkNextMessage_play {cli : BcClient Unit} (callback : cli.onMsg = some noted)
    (net : Network) :
    (talkNextMessage handlerReturns cli).play net.stream =
      let out := bcClientNextMessage Segmentation.whole.kernel ⟨cli, net⟩
      let (ended, sent) := reacted handlerReturns out
      (ended, sent, out.session.net.stream) := by
  unfold talkNextMessage talkRecv bcClientNextMessage bcClientRecvMessageHeader
  simp only [wholeReceives_recv]
  by_cases unusable : cli.tcp.ec ≠ 0 ∨ cli.tcp.sd < 0
  · simp [unusable, talkMagic, reacted, Talk.play]
  · simp only [if_neg unusable, Talk.play, talkMagic]
    by_cases first : (net.stream.take 4).length ≠ 4
    · simp only [if_pos first]
      rfl
    · simp only [if_neg first]
      by_cases magic : bytesAt (overwrite (List.replicate 24 0) 0 (net.stream.take 4)) 0 4 ≠
        cli.magic
      · simp only [if_pos magic]
        rfl
      · simp only [if_neg magic, talkRecv, if_neg unusable, Talk.play, talkRest]
        by_cases second : ((net.stream.drop 4).take 20).length ≠ 20
        · simp only [if_pos second]
          rfl
        · simp only [if_neg second]
          generalize BcMessageHeader.ofImage _ = hdr
          by_cases size : hdr.size ≠ 0
          · simp only [if_pos size, if_neg unusable, Talk.play, talkPayload]
            by_cases third : (((net.stream.drop 4).drop 20).take hdr.size.toNat).length ≠
              hdr.size.toNat
            · simp only [if_pos third]
              rfl
            · simp only [if_neg third]
              generalize ((net.stream.drop 4).drop 20).take hdr.size.toNat = data
              exact talkOnMsg_play handlerReturns { cli with sbuf := data } callback _
                ⟨_, net.calls + 1 + 1 + 1⟩
          · simp only [if_neg size]
            exact talkOnMsg_play handlerReturns { cli with sbuf := [] } callback _
              ⟨_, net.calls + 1 + 1⟩

end NuLab.Client
