import NuLab.Client.Send

/-! # Handling messages: `on_msg` of `main_client.c`

`data` can be read up to the payload's end; `none` is a read behind it or through
NULL.  A failed expectation calls a handler, which ends the program unless another
one has been installed.
-/

namespace NuLab.Client

open NuLab.Bytes NuLab.CString NuLab.Sha256

/-- A handler returns, or the program has ended. -/
inductive Reaction where
  | returned (ec : Int)
  | exited
deriving DecidableEq

/-- The `count` bytes at `data + offset`. -/
def readAt (data : Option (List UInt8)) (offset count : Nat) : Option (List UInt8) :=
  data.bind fun bytes => if offset + count ≤ bytes.length then
    some ((bytes.drop offset).take count) else none

variable {σ : Type}

def bcClientVerifyVersion (data : Option (List UInt8)) : Option Int := do
  let version ← readAt data 0 4
  some (if (UInt32.ofNat (ofLE version)).toInt32 < bcClientProtocolVersion then 1 else 0)

/-- The loop of `on_inv`, from entry `i` on; the type ids it finds. -/
def readInvs (data : Option (List UInt8)) : (left i : Nat) → Option (List UInt32)
  | 0, _ => some []
  | left + 1, i => do
    let tid ← readAt data (i * 36 + 1) 4
    -- the hash is printed, too, if it is not the one of a transaction
    let _ ← if ofLE tid ≠ 1 then readAt data (i * 36 + 5) 32 else some []
    let tids ← readInvs data left (i + 1)
    some (UInt32.ofNat (ofLE tid) :: tids)

/-- `handlerReturns` is said of the handler for failed expectations. -/
def onInv (handlerReturns : Bool) (data : Option (List UInt8)) (size : UInt32) :
    Option (Reaction × List UInt32) :=
  -- `nu_expect` is 1 if what is expected holds, and 1 is taken for a failure here
  if size > 0 ∧ data.isSome then some (.returned 1, [])
  else if ¬ handlerReturns then some (.exited, [])
  else do
    let nids ← readAt data 0 1
    let tids ← readInvs data (ofLE nids) 0
    some (.returned 0, tids)

/-- Magic and checksum. -/
def passesChecks (magic : Vector UInt8 4) (delivery : Delivery) : Option Bool :=
  let (hdr, data) := delivery
  if hdr.magic ≠ magic then some false
  else do
    let (_, hash) ← hash256Digest (data.getD []) hdr.size (Vector.replicate 32 0)
    some (decide (hdr.checksum = bytesAt hash.toList 0 4))

/-- What `on_msg` does with a message that has passed its checks. -/
def onCommand (handlerReturns : Bool) (kernel : SendKernel) (cli : BcClient σ) (out : Outgoing)
    (delivery : Delivery) : Option (Reaction × BcClient σ × Outgoing) :=
  let (hdr, data) := delivery
  let cmd := hdr.command.toList
  if strncmpEq cmd (text "version") 12 then do
    let ec ← bcClientVerifyVersion data
    if ec = 0 then
      let (_, cli, out) ← bcClientSendVerack kernel cli out
      some (.returned 0, cli, out)
    else some (.returned 0, cli, out)
  else if strncmpEq cmd (text "verack") 12 then some (.returned 0, cli, out)
  else if strncmpEq cmd (text "ping") 12 then do
    let (_, cli, out) ← bcClientSendPong kernel cli out
    some (.returned 0, cli, out)
  else if strncmpEq cmd (text "inv") 12 then do
    let (reaction, _) ← onInv handlerReturns data hdr.size
    some (reaction, cli, out)
  else if strncmpEq cmd (text "sendcmpct") 12 then do
    let _ ← readAt data 0 1
    let _ ← readAt data 1 8
    some (.returned 0, cli, out)
  else if strncmpEq cmd (text "feefilter") 12 then some (.returned 0, cli, out)
  else some (.returned 1, cli, out)

def onMsg (handlerReturns : Bool) (kernel : SendKernel) (cli : BcClient σ) (out : Outgoing)
    (delivery : Delivery) :
    Option (Reaction × BcClient σ × Outgoing) := do
  let passes ← passesChecks cli.magic delivery
  if passes then onCommand handlerReturns kernel cli out delivery else some (.returned 1, cli, out)

/-! ## The checks -/

theorem Message.delivery_data (message : Message) :
    message.delivery.2.getD [] = message.payload := by
  unfold Message.delivery
  by_cases empty : message.header.size = 0
  · have sized := message.sized
    rw [empty] at sized
    rw [if_neg (not_not.mpr empty)]
    exact (List.length_eq_zero_iff.mp sized).symm
  · rw [if_pos empty]
    rfl

/-- The checks read the payload and nothing else. -/
theorem passesChecks_delivery (magic : Vector UInt8 4) (message : Message) :
    passesChecks magic message.delivery =
      some (decide (message.header.magic = magic ∧ message.header.checksum =
        checksum message.payload)) := by
  have readable : message.header.size.toNat ≤ message.payload.length :=
    Nat.le_of_eq message.sized.symm
  obtain ⟨sum, run, value⟩ :=
    hash256Digest_spec message.payload message.header.size (Vector.replicate 32 0) readable
  rw [← message.sized, List.take_length] at value
  have data := message.delivery_data
  unfold passesChecks
  by_cases same : message.header.magic = magic
  · have found : message.delivery.1.magic = magic := same
    simp only [found, ne_eq, not_true_eq_false, if_false, data]
    show ((hash256Digest message.payload message.header.size _).bind _) = _
    rw [run, Option.bind_some, eq_hash256 value]
    simp [same, checksum, Message.delivery]
  · have differs : message.delivery.1.magic ≠ magic := same
    simp [differs, same]

/-- A message made for a client passes the checks of every client with the same magic. -/
theorem messageFor_passes (magic : Vector UInt8 4) (command payload : List UInt8)
    (short : payload.length < 2 ^ 32) :
    passesChecks magic (messageFor magic command payload short).delivery = some true := by
  rw [passesChecks_delivery]
  simp [messageFor, headerFor]

/-! ## Reads inside of the payload -/

theorem readAt_isSome (message : Message) (offset count : Nat) (positive : 0 < count) :
    (readAt message.delivery.2 offset count).isSome ↔
      offset + count ≤ message.header.size.toNat := by
  have sized := message.sized
  unfold Message.delivery readAt
  by_cases empty : message.header.size = 0
  · rw [if_neg (not_not.mpr empty), empty]
    have tooShort : ¬ offset + count ≤ (0 : UInt32).toNat := by
      rw [UInt32.toNat_zero]
      omega
    exact iff_of_false (by simp) tooShort
  · rw [if_pos empty, Option.bind_some, sized]
    split <;> simp [*]

/-- What the handlers take for granted about the size of a payload. -/
def LongEnough (handlerReturns : Bool) (message : Message) : Prop :=
  (strncmpEq message.header.command.toList (text "version") 12 → 4 ≤ message.header.size.toNat) ∧
  (strncmpEq message.header.command.toList (text "sendcmpct") 12 → 9 ≤ message.header.size.toNat) ∧
  (strncmpEq message.header.command.toList (text "inv") 12 → handlerReturns →
    0 < message.header.size.toNat)

instance (handlerReturns : Bool) (message : Message) :
    Decidable (LongEnough handlerReturns message) :=
  inferInstanceAs (Decidable (_ ∧ _ ∧ _))

theorem sendEmpty_isSome (command : List UInt8) (kernel : SendKernel) (cli : BcClient σ)
    (out : Outgoing) : ∃ result, sendEmpty command kernel cli out = some result := by
  rw [sendEmpty_eq]
  exact ⟨_, rfl⟩

theorem onVersion_isSome (kernel : SendKernel) (cli : BcClient σ) (out : Outgoing)
    (message : Message) :
    ((bcClientVerifyVersion message.delivery.2).bind fun ec =>
      if ec = 0 then
        (bcClientSendVerack kernel cli out).bind fun result =>
          some (Reaction.returned 0, result.2.1, result.2.2)
      else some (Reaction.returned 0, cli, out)).isSome ↔ 4 ≤ message.header.size.toNat := by
  have readable := readAt_isSome message 0 4 (by decide)
  rw [Nat.zero_add] at readable
  rw [← readable]
  unfold bcClientVerifyVersion
  cases found : readAt message.delivery.2 0 4 with
  | none => exact Iff.rfl
  | some version =>
    obtain ⟨result, run⟩ := sendEmpty_isSome (text "verack") kernel cli out
    simp only [Option.bind_eq_bind, Option.bind_some, bcClientSendVerack, run]
    split <;> exact Iff.rfl

theorem onInv_isSome (handlerReturns : Bool) (message : Message) :
    (onInv handlerReturns message.delivery.2 message.header.size).isSome ↔
      (handlerReturns → 0 < message.header.size.toNat) := by
  unfold onInv
  by_cases empty : message.header.size = 0
  · -- the expectation fails, and the first byte cannot be read
    have nothing : message.delivery.2 = none := if_neg (not_not.mpr empty)
    rw [nothing, empty]
    cases handlerReturns with
    | false => simp
    | true => simp [readAt]
  · have given : message.delivery.2 = some message.payload := if_pos empty
    have positive : message.header.size > 0 := UInt32.pos_iff_ne_zero.mpr empty
    have positive' : 0 < message.header.size.toNat := UInt32.lt_iff_toNat_lt.mp positive
    rw [given, if_pos ⟨positive, rfl⟩]
    simp [positive']

theorem onSendcmpct_isSome (cli : BcClient σ) (out : Outgoing) (message : Message) :
    ((readAt message.delivery.2 0 1).bind fun _ => (readAt message.delivery.2 1 8).bind fun _ =>
      some (Reaction.returned 0, cli, out)).isSome ↔ 9 ≤ message.header.size.toNat := by
  have first := readAt_isSome message 0 1 (by decide)
  have second := readAt_isSome message 1 8 (by decide)
  cases found : readAt message.delivery.2 0 1 with
  | none =>
    rw [found] at first
    have short : ¬ 0 + 1 ≤ message.header.size.toNat := mt first.mpr (by simp)
    exact iff_of_false (by simp) (by omega)
  | some _ =>
    rw [Option.bind_some, ← second]
    cases readAt message.delivery.2 1 8 with
    | none => exact Iff.rfl
    | some _ => exact Iff.rfl

theorem onCommand_isSome (handlerReturns : Bool) (kernel : SendKernel) (cli : BcClient σ)
    (out : Outgoing) (message : Message) :
    (onCommand handlerReturns kernel cli out message.delivery).isSome ↔
      LongEnough handlerReturns message := by
  unfold onCommand LongEnough
  have header : message.delivery.1 = message.header := rfl
  dsimp only
  rw [header]
  cases version : strncmpEq message.header.command.toList (text "version") 12 with
  | true =>
    have noCmpct := strncmpEq_other version (text "sendcmpct") (by decide)
    have noInv := strncmpEq_other version (text "inv") (by decide)
    simp only [noCmpct, noInv, if_true, Bool.false_eq_true, false_implies, and_true, true_implies]
    exact onVersion_isSome kernel cli out message
  | false =>
    cases verack : strncmpEq message.header.command.toList (text "verack") 12 with
    | true =>
      have noCmpct := strncmpEq_other verack (text "sendcmpct") (by decide)
      have noInv := strncmpEq_other verack (text "inv") (by decide)
      simp [noCmpct, noInv]
    | false =>
      cases ping : strncmpEq message.header.command.toList (text "ping") 12 with
      | true =>
        have noCmpct := strncmpEq_other ping (text "sendcmpct") (by decide)
        have noInv := strncmpEq_other ping (text "inv") (by decide)
        obtain ⟨result, run⟩ := sendEmpty_isSome (text "pong") kernel cli out
        simp [noCmpct, noInv, bcClientSendPong, run]
      | false =>
        cases inv : strncmpEq message.header.command.toList (text "inv") 12 with
        | true =>
          have noCmpct := strncmpEq_other inv (text "sendcmpct") (by decide)
          have inside := onInv_isSome handlerReturns message
          simp only [noCmpct, if_true, Bool.false_eq_true, false_implies, true_and,
            true_implies, if_false]
          rw [← inside]
          cases onInv handlerReturns message.delivery.2 message.header.size with
          | none => exact Iff.rfl
          | some _ => exact Iff.rfl
        | false =>
          cases cmpct : strncmpEq message.header.command.toList (text "sendcmpct") 12 with
          | true =>
            simp only [if_true, Bool.false_eq_true, false_implies, true_and, and_true,
              true_implies, if_false]
            exact onSendcmpct_isSome cli out message
          | false =>
            simp only [Bool.false_eq_true, false_implies, and_true, if_false, iff_true]
            split <;> rfl

theorem onMsg_passed {handlerReturns : Bool} {kernel : SendKernel} {cli : BcClient σ}
    {out : Outgoing} {delivery : Delivery} (passes : passesChecks cli.magic delivery = some true) :
    onMsg handlerReturns kernel cli out delivery =
      onCommand handlerReturns kernel cli out delivery := by
  rw [onMsg, passes]
  rfl

/-- What follows the checks is inside of the payload exactly if the payload has the size
the handlers count on. -/
theorem onMsg_inside_iff (handlerReturns : Bool) (kernel : SendKernel) (cli : BcClient σ)
    (out : Outgoing) (message : Message)
    (passes : passesChecks cli.magic message.delivery = some true) :
    (onMsg handlerReturns kernel cli out message.delivery).isSome ↔
      LongEnough handlerReturns message := by
  rw [onMsg_passed passes]
  exact onCommand_isSome handlerReturns kernel cli out message

/-- A `version` message with its four bytes and nothing else, and a `sendcmpct` message
with all of its nine. -/
theorem onMsg_inside_version :
    let magic := verackSession.cli.magic
    let version := messageFor magic (text "version") [0x80, 0x11, 0x01, 0x00] (by decide)
    let sendcmpct := messageFor magic (text "sendcmpct") [1, 2, 0, 0, 0, 0, 0, 0, 0] (by decide)
    ∀ message ∈ [version, sendcmpct], passesChecks magic message.delivery = some true ∧
      (onMsg false (fun _ num => .sent num) verackSession.cli ⟨[], 0⟩ message.delivery).isSome := by
  intro magic version sendcmpct message member
  simp only [List.mem_cons, List.not_mem_nil, or_false] at member
  rcases member with rfl | rfl
  · have passes := messageFor_passes magic (text "version") [0x80, 0x11, 0x01, 0x00] (by decide)
    exact ⟨passes, (onMsg_inside_iff false _ verackSession.cli ⟨[], 0⟩ _ passes).mpr (by decide)⟩
  · have passes :=
      messageFor_passes magic (text "sendcmpct") [1, 2, 0, 0, 0, 0, 0, 0, 0] (by decide)
    exact ⟨passes, (onMsg_inside_iff false _ verackSession.cli ⟨[], 0⟩ _ passes).mpr (by decide)⟩

/-- The version is read from a `version` message without payload. -/
theorem onMsg_reads_behind :
    ¬ ∀ (kernel : SendKernel) (cli : BcClient Nat) (out : Outgoing) (message : Message),
      passesChecks cli.magic message.delivery = some true →
      (onMsg false kernel cli out message.delivery).isSome := by
  intro always
  have passes := messageFor_passes verackSession.cli.magic (text "version") [] (by decide)
  have inside := always (fun _ num => .sent num) verackSession.cli ⟨[], 0⟩ _ passes
  rw [onMsg_passed passes] at inside
  have long := ((onCommand_isSome false _ verackSession.cli ⟨[], 0⟩ _).mp inside).1 (by decide)
  exact absurd long (by decide)

end NuLab.Client
