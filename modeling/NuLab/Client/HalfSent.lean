import NuLab.Client.Send

/-! # Sends that take a part of the message

`nu_tcp_client_send` passes on how many bytes `send` took, and nobody looks at the
number.  A message is complete whenever the call returns 0 exactly if no `send`
takes a part, unless something else makes the call fail.
-/

namespace NuLab.Client

open NuLab.CString NuLab.Transaction

/-- How the system answers `send`: it takes some of the bytes, or it fails with an error number. -/
structure Sending where
  reply : SendKernel
  takes : ∀ call num count, 0 < num → reply call num = .sent count → 0 < count ∧ count ≤ num
  numbers : ∀ call num errno, reply call num = .failed errno → errno ≠ 0

/-- From the given `send` call on, one of these requests fails. -/
def AnyFails (sending : Sending) : Nat → List Nat → Prop
  | _, [] => False
  | call, num :: requests =>
    (∃ errno, sending.reply call num = .failed errno) ∨ AnyFails sending (call + 1) requests

/-- From the given `send` call on, each of these requests is taken whole. -/
def AllWhole (sending : Sending) : Nat → List Nat → Prop
  | _, [] => True
  | call, num :: requests =>
    sending.reply call num = .sent num ∧ AllWhole sending (call + 1) requests

/-- The socket already has an error, or it is open and the requests fail or are taken whole. -/
def Noticed (sending : Sending) (tcp : NuTcpClient) (call : Nat) (requests : List Nat) : Prop :=
  tcp.ec ≠ 0 ∨ 0 ≤ tcp.sd ∧ (AnyFails sending call requests ∨ AllWhole sending call requests)

variable {σ : Type}

/-- A call that returns 0 has put the whole message on the connection, and nothing else. -/
def SendsWhole (message : Message) (out : Outgoing)
    (result : Option (Int × BcClient σ × Outgoing)) : Prop :=
  ∃ ret cli' out', result = some (ret, cli', out') ∧
    (ret = 0 → out'.stream = out.stream ++ message.wire)

theorem sendsWhole_some {message : Message} {out out' : Outgoing} {ret : Int} {cli' : BcClient σ} :
    SendsWhole message out (some (ret, cli', out')) ↔
      (ret = 0 → out'.stream = out.stream ++ message.wire) := by
  constructor
  · rintro ⟨_, _, _, same, whole⟩
    cases same
    exact whole
  · intro whole
    exact ⟨ret, cli', out', rfl, whole⟩

/-! ## One `send` -/

/-- What a request does: nothing, or it fails, or a part of the message is taken. -/
inductive Requested (sending : Sending) (tcp : NuTcpClient) (out : Outgoing) (msg : List UInt8) :
    Nat × NuTcpClient × Outgoing → Prop where
  | blocked (unusable : tcp.ec ≠ 0 ∨ tcp.sd < 0) : Requested sending tcp out msg (0, tcp, out)
  | failed (connected : tcp.Connected) (errno : Int) (number : errno ≠ 0)
      (reply : sending.reply out.calls msg.length = .failed errno) :
      Requested sending tcp out msg (0, { tcp with ec := errno }, ⟨out.stream, out.calls + 1⟩)
  | sent (connected : tcp.Connected) (count : Nat) (most : count ≤ msg.length)
      (reply : sending.reply out.calls msg.length = .sent count) :
      Requested sending tcp out msg (count, tcp, ⟨out.stream ++ msg.take count, out.calls + 1⟩)

theorem nuTcpClientSend_requested (sending : Sending) (tcp : NuTcpClient) (out : Outgoing)
    (msg : List UInt8) (nonempty : 0 < msg.length) :
    Requested sending tcp out msg (nuTcpClientSend sending.reply tcp out msg) := by
  by_cases unusable : tcp.ec ≠ 0 ∨ tcp.sd < 0
  · rw [nuTcpClientSend, if_pos unusable]
    exact .blocked unusable
  · have connected : tcp.Connected := ⟨by omega, by omega⟩
    rw [nuTcpClientSend, if_neg unusable]
    cases reply : sending.reply out.calls msg.length with
    | failed errno =>
      simp only [send, reply]
      exact .failed connected errno (sending.numbers _ _ _ reply) reply
    | sent count =>
      obtain ⟨-, most⟩ := sending.takes _ _ _ nonempty reply
      simp only [send, reply, Nat.min_eq_left most]
      exact .sent connected count most reply

theorem nothing_sent {stream : List UInt8} (message : Message) :
    stream ≠ stream ++ message.wire := by
  intro same
  have length := congrArg List.length same
  rw [List.length_append, Message.wire_length] at length
  omega

/-- Two requests put a message on the connection if each is taken whole. -/
theorem taken_whole (stream : List UInt8) {header payload : List UInt8} {count count' : Nat}
    (most : count ≤ header.length) (most' : count' ≤ payload.length) :
    stream ++ header.take count ++ payload.take count' = stream ++ (header ++ payload) ↔
      count = header.length ∧ count' = payload.length := by
  constructor
  · intro same
    have total := congrArg List.length same
    simp only [List.length_append, List.length_take] at total
    omega
  · rintro ⟨rfl, rfl⟩
    simp

section

variable {sending : Sending} {tcp : NuTcpClient} {call num count : Nat} {requests : List Nat}

theorem noticed_blocked (unusable : tcp.ec ≠ 0 ∨ tcp.sd < 0) :
    Noticed sending tcp call requests ↔ tcp.ec ≠ 0 := by
  constructor
  · intro noticed
    cases noticed with
    | inl error => exact error
    | inr usable => exact unusable.resolve_right (Int.not_lt.mpr usable.1)
  · exact Or.inl

theorem noticed_failed {errno : Int} (connected : tcp.Connected)
    (reply : sending.reply call num = .failed errno) :
    Noticed sending tcp call (num :: requests) :=
  Or.inr ⟨connected.isOpen, Or.inl (Or.inl ⟨errno, reply⟩)⟩

theorem noticed_sent (connected : tcp.Connected) (reply : sending.reply call num = .sent count) :
    Noticed sending tcp call (num :: requests) ↔
      AnyFails sending (call + 1) requests ∨
        (count = num ∧ AllWhole sending (call + 1) requests) := by
  simp [Noticed, AnyFails, AllWhole, reply, connected.noError, connected.isOpen]

end

/-! ## Messages without payload -/

theorem sendEmpty_whole_iff (sending : Sending) (command : List UInt8) (cli : BcClient σ)
    (out : Outgoing) :
    SendsWhole (emptyMessage cli.magic command) out (sendEmpty command sending.reply cli out) ↔
      Noticed sending cli.tcp out.calls [24] := by
  have length := (headerFor cli.magic command []).bytes_length
  have requested := nuTcpClientSend_requested sending cli.tcp out
    (headerFor cli.magic command []).bytes
    (by rw [length]; decide)
  rw [sendEmpty_eq]
  dsimp only
  rw [sendsWhole_some]
  generalize nuTcpClientSend sending.reply cli.tcp out _ = result at requested
  cases requested with
  | blocked unusable =>
    rw [noticed_blocked unusable]
    constructor
    · intro whole zero
      exact nothing_sent _ (whole zero)
    · intro error zero
      exact absurd zero error
  | failed connected errno number reply =>
    rw [length] at reply
    exact iff_of_true (fun zero => absurd zero number) (noticed_failed connected reply)
  | sent connected count most reply =>
    have whole := taken_whole out.stream most (Nat.le_refl ([] : List UInt8).length)
    rw [length] at reply
    rw [List.take_nil, List.append_nil, List.append_nil, length] at whole
    simp only [noticed_sent connected reply, AnyFails, AllWhole, emptyMessage_wire,
      connected.noError, whole]
    simp

/-! ## `version` -/

theorem bcClientSendVersion_whole_iff (sending : Sending) (fresh : Nat → Nat → UInt8) (time : Int64)
    (cli : BcClient σ) (out : Outgoing) :
    SendsWhole (versionMessage cli.magic time) out
      (bcClientSendVersion (served fresh) sending.reply time cli out) ↔
      cli.status ≠ .ok ∨ Noticed sending cli.tcp out.calls [24, 85] := by
  have length := (versionMessage cli.magic time).header.bytes_length
  have payloadLength := msgVerData_length time
  have first := nuTcpClientSend_requested sending cli.tcp out
    (versionMessage cli.magic time).header.bytes
    (by rw [length]; decide)
  have returns : (if cli.status = .ok then 0 else 1 : Int) = 0 ↔ cli.status = .ok := by
    split <;> simp_all
  rw [bcClientSendVersion_eq]
  unfold sendBoth
  dsimp only
  generalize nuTcpClientSend sending.reply cli.tcp out _ = result at first
  cases first with
  | blocked unusable =>
    rw [noticed_blocked unusable]
    by_cases error : cli.tcp.ec ≠ 0
    · rw [if_pos error, sendsWhole_some]
      exact iff_of_true (fun impossible => absurd impossible one_ne_zero) (Or.inr error)
    · -- the second request is not made, either
      have second : nuTcpClientSend sending.reply cli.tcp out (msgVerData time).bytes =
        (0, cli.tcp, out) :=
        if_pos unusable
      simp only [if_neg error, second, sendsWhole_some, returns, imp_iff_not_or]
      exact or_congr_right (iff_of_false (nothing_sent _) error)
  | failed connected errno number reply =>
    rw [length] at reply
    simp only [if_pos number, sendsWhole_some]
    exact iff_of_true (fun impossible => absurd impossible one_ne_zero)
      (Or.inr (noticed_failed connected reply))
  | sent connected count most reply =>
    rw [length] at reply
    have noError : ¬ cli.tcp.ec ≠ 0 := not_not.mpr connected.noError
    have second := nuTcpClientSend_requested sending cli.tcp
      ⟨out.stream ++ (versionMessage cli.magic time).header.bytes.take count, out.calls + 1⟩
      (msgVerData time).bytes (by rw [payloadLength]; decide)
    rw [noticed_sent connected reply]
    simp only [if_neg noError]
    generalize nuTcpClientSend sending.reply cli.tcp _ (msgVerData time).bytes = result at second
    cases second with
    | blocked unusable =>
      exact absurd (unusable.resolve_left noError) (Int.not_lt.mpr connected.isOpen)
    | failed _ errno number reply' =>
      rw [payloadLength] at reply'
      simp only [if_pos number, sendsWhole_some]
      exact iff_of_true (fun impossible => absurd impossible one_ne_zero)
        (Or.inr (Or.inl (Or.inl ⟨errno, reply'⟩)))
    | sent _ count' most' reply' =>
      rw [payloadLength] at reply'
      have whole := taken_whole out.stream most most'
      rw [length, payloadLength] at whole
      simp only [if_neg noError, sendsWhole_some, returns, imp_iff_not_or]
      apply or_congr_right
      rw [Message.wire]
      exact whole.trans (by simp [AnyFails, AllWhole, reply'])

/-! ## All three -/

/-- A call that returns 0 has sent its message exactly if its requests fail or are taken whole. -/
theorem sends_whole_iff (sending : Sending) (fresh : Nat → Nat → UInt8) (time : Int64)
    (cli : BcClient σ) (out : Outgoing) :
    (SendsWhole (versionMessage cli.magic time) out
      (bcClientSendVersion (served fresh) sending.reply time cli out) ↔
      cli.status ≠ .ok ∨ Noticed sending cli.tcp out.calls [24, 85]) ∧
    (SendsWhole (emptyMessage cli.magic (text "verack")) out
      (bcClientSendVerack sending.reply cli out) ↔
      Noticed sending cli.tcp out.calls [24]) ∧
    (SendsWhole (emptyMessage cli.magic (text "pong")) out
      (bcClientSendPong sending.reply cli out) ↔
      Noticed sending cli.tcp out.calls [24]) :=
  ⟨bcClientSendVersion_whole_iff sending fresh time cli out,
    sendEmpty_whole_iff sending (text "verack") cli out,
    sendEmpty_whole_iff sending (text "pong") cli out⟩

/-- Every `send` takes at most three bytes. -/
def Sending.threeBytes : Sending where
  reply _ num := .sent (min num 3)
  takes _ num count positive sent := by
    cases sent
    omega
  numbers _ _ _ failed := by cases failed

/-- Three bytes of a `verack` are sent, and the result is 0. -/
theorem sends_half :
    ¬ ∀ (sending : Sending) (cli : BcClient Nat) (out : Outgoing),
      SendsWhole (emptyMessage cli.magic (text "verack")) out
        (bcClientSendVerack sending.reply cli out) := by
  intro always
  have whole := (sendEmpty_whole_iff .threeBytes (text "verack") verackSession.cli ⟨[], 0⟩).mp
    (always .threeBytes verackSession.cli ⟨[], 0⟩)
  have connected : verackSession.cli.tcp.Connected := ⟨rfl, by decide⟩
  have three : Sending.threeBytes.reply 0 24 = .sent 3 := rfl
  simp [noticed_sent connected three, AnyFails] at whole

end NuLab.Client
