import Mathlib.Data.List.Basic
import NuLab.Client.Code

/-! # How TCP splits the stream of messages

A segmentation answers every `recv` with at least one and at most the requested
number of bytes.  `bc_client_next_message` reads a message with two or three
requests and takes a shorter answer for a broken connection.  What it delivers is
therefore independent of the segmentation exactly when no request is split.
-/

namespace NuLab.Client

open NuLab.Bytes

/-! ## Headers in memory -/

theorem bytesAt_toList {image : List UInt8} {start count : Nat}
    (inside : start + count ≤ image.length) :
    (bytesAt image start count).toList = (image.drop start).take count := by
  apply List.ext_getElem
  · simp only [Vector.length_toList, List.length_take, List.length_drop]
    omega
  · intro i left right
    rw [Vector.length_toList] at left
    have within : start + i < image.length := by omega
    simp [bytesAt, List.getElem?_eq_getElem within]

@[simp] theorem BcMessageHeader.bytes_length (hdr : BcMessageHeader) : hdr.bytes.length = 24 := by
  simp [BcMessageHeader.bytes]

theorem BcMessageHeader.bytes_ofImage {image : List UInt8} (length : image.length = 24) :
    (BcMessageHeader.ofImage image).bytes = image := by
  have width : ((image.drop 16).take 4).length = 4 := by
    rw [List.length_take, List.length_drop]; omega
  have bound := ofLE_lt ((image.drop 16).take 4)
  have size : toLE 4 (UInt32.ofNat (ofLE ((image.drop 16).take 4))).toNat =
      (image.drop 16).take 4 := by
    rw [width] at bound
    rw [UInt32.toNat_ofNat_of_lt' bound]
    simpa only [width] using toLE_ofLE ((image.drop 16).take 4)
  have checksum : (image.drop 20).take 4 = image.drop 20 :=
    List.take_of_length_le (by rw [List.length_drop]; omega)
  simp only [BcMessageHeader.bytes, BcMessageHeader.ofImage]
  rw [bytesAt_toList (by omega), bytesAt_toList (by omega), bytesAt_toList (by omega),
    bytesAt_toList (by omega), size, checksum]
  calc (image.drop 0).take 4 ++
      ((image.drop 4).take 12 ++ ((image.drop 16).take 4 ++ image.drop 20))
      = image.take 4 ++ ((image.drop 4).take 12 ++ image.drop 16) := by
        rw [List.drop_zero, ← List.drop_drop (i := 4) (j := 16), List.take_append_drop]
    _ = image.take 4 ++ image.drop 4 := by
      rw [← List.drop_drop (i := 12) (j := 4), List.take_append_drop]
    _ = image := List.take_append_drop 4 image

theorem BcMessageHeader.bytes_injective {a b : BcMessageHeader} (same : a.bytes = b.bytes) :
    a = b := by
  obtain ⟨magic, same⟩ := List.append_inj same (by simp)
  obtain ⟨command, same⟩ := List.append_inj same (by simp)
  obtain ⟨size, checksum⟩ := List.append_inj same (by simp)
  have value := congrArg ofLE size
  rw [ofLE_toLE_of_lt a.size.toNat_lt, ofLE_toLE_of_lt b.size.toNat_lt] at value
  cases a with
  | mk magicA commandA sizeA checksumA =>
    cases b with
    | mk magicB commandB sizeB checksumB =>
      obtain rfl := Vector.toList_inj.mp magic
      obtain rfl := Vector.toList_inj.mp command
      obtain rfl := UInt32.toNat_inj.mp value
      obtain rfl := Vector.toList_inj.mp checksum
      rfl

theorem BcMessageHeader.ofImage_bytes (hdr : BcMessageHeader) :
    BcMessageHeader.ofImage hdr.bytes = hdr :=
  bytes_injective (bytes_ofImage hdr.bytes_length)

theorem magic_overwrite {first : List UInt8} (length : first.length = 4) :
    (bytesAt (overwrite (List.replicate 24 0) 0 first) 0 4).toList = first := by
  rw [bytesAt_toList (by simp [overwrite, length]), List.drop_zero, overwrite, List.take_zero,
    List.nil_append, List.take_left' length]

theorem overwrite_twice {first second : List UInt8} (lengthFirst : first.length = 4)
    (lengthSecond : second.length = 20) :
    overwrite (overwrite (List.replicate 24 0) 0 first) 4 second = first ++ second := by
  simp only [overwrite, List.take_zero, List.nil_append]
  rw [List.take_left' lengthFirst, lengthSecond, List.drop_of_length_le (i := 4 + 20),
    List.append_nil]
  simp [lengthFirst]

/-! ## Messages on the wire -/

/-- A complete message: the payload has the size that the header states. -/
structure Message where
  header : BcMessageHeader
  payload : List UInt8
  sized : payload.length = header.size.toNat

def Message.wire (message : Message) : List UInt8 := message.header.bytes ++ message.payload

def Message.delivery (message : Message) : Delivery :=
  (message.header, if message.header.size ≠ 0 then some message.payload else none)

/-- The sizes asked for while this message is read. -/
def Message.requests (message : Message) : List Nat :=
  4 :: 20 :: if message.header.size ≠ 0 then [message.header.size.toNat] else []

theorem Message.wire_length (message : Message) :
    message.wire.length = 24 + message.header.size.toNat := by
  simp [Message.wire, message.sized]

theorem Message.wire_prefix {a b : Message} {restA restB : List UInt8}
    (same : a.wire ++ restA = b.wire ++ restB) :
    a = b ∧ restA = restB := by
  simp only [Message.wire, List.append_assoc] at same
  obtain ⟨header, same⟩ := List.append_inj same (by simp)
  have header := BcMessageHeader.bytes_injective header
  obtain ⟨payload, rest⟩ := List.append_inj same (by rw [a.sized, b.sized, header])
  cases a with
  | mk headerA payloadA sizedA =>
    cases b with
    | mk headerB payloadB sizedB =>
      subst header payload
      exact ⟨rfl, rest⟩

/-! ## Segmentations -/

/-- How many bytes each `recv` call returns while the stream lasts. -/
structure Segmentation where
  reply : Nat → Nat → Nat
  positive : ∀ call num, 0 < num → 0 < reply call num
  atMost : ∀ call num, reply call num ≤ num

def Segmentation.kernel (seg : Segmentation) : Kernel := fun call num => .upTo (seg.reply call num)

/-- Every `recv` returns all the bytes asked for. -/
def Segmentation.whole : Segmentation where
  reply _ num := num
  positive _ _ positive := positive
  atMost _ _ := Nat.le_refl _

/-- From the given `recv` call on, none of these requests is split. -/
def Unsplit (seg : Segmentation) : Nat → List Nat → Prop
  | _, [] => True
  | call, num :: requests => seg.reply call num = num ∧ Unsplit seg (call + 1) requests

theorem unsplit_append (seg : Segmentation) (call : Nat) (front back : List Nat) :
    Unsplit seg call (front ++ back) ↔ Unsplit seg call front ∧
      Unsplit seg (call + front.length) back := by
  induction front generalizing call with
  | nil => simp [Unsplit]
  | cons num front inductionHypothesis =>
    simp only [List.cons_append, Unsplit, inductionHypothesis, and_assoc, List.length_cons]
    rw [Nat.add_assoc call 1, Nat.add_comm 1]

theorem unsplit_whole (call : Nat) (requests : List Nat) :
    Unsplit Segmentation.whole call requests := by
  induction requests generalizing call with
  | nil => trivial
  | cons num requests inductionHypothesis => exact ⟨rfl, inductionHypothesis (call + 1)⟩

/-! ## One request -/

variable {σ : Type}

/-- The socket is open and no error has been seen on it. -/
structure NuTcpClient.Connected (tcp : NuTcpClient) : Prop where
  noError : tcp.ec = 0
  isOpen : 0 ≤ tcp.sd

theorem NuTcpClient.Connected.usable {tcp : NuTcpClient} (connected : tcp.Connected) :
    ¬ (tcp.ec ≠ 0 ∨ tcp.sd < 0) := by
  have := connected.noError
  have := connected.isOpen
  omega

theorem nuTcpClientRecv_connected (seg : Segmentation) {tcp : NuTcpClient} (net : Network)
    (num : Nat) (connected : tcp.Connected) :
    nuTcpClientRecv seg.kernel tcp net num =
      (net.stream.take (seg.reply net.calls num), tcp,
        ⟨net.stream.drop (seg.reply net.calls num), net.calls + 1⟩) := by
  rw [nuTcpClientRecv, if_neg connected.usable]
  simp only [recv, Segmentation.kernel, Nat.min_eq_left (seg.atMost net.calls num)]

theorem answered {seg : Segmentation} (net : Network) {num : Nat}
    (length : (net.stream.take (seg.reply net.calls num)).length = num) :
    seg.reply net.calls num = num ∧ num ≤ net.stream.length := by
  have := seg.atMost net.calls num
  rw [List.length_take] at length
  omega

theorem unanswered {seg : Segmentation} {call num : Nat} {stream front rest : List UInt8}
    (length : (stream.take (seg.reply call num)).length ≠ num) (frontLength : front.length = num)
    (split : stream = front ++ rest) : seg.reply call num ≠ num := by
  intro full
  apply length
  rw [full, split, List.take_left' frontLength, frontLength]

theorem shrinks (seg : Segmentation) (call num : Nat) (stream : List UInt8) (positive : 0 < num) :
    (stream.drop (seg.reply call num)).length ≤ stream.length - 1 := by
  have := seg.positive call num positive
  rw [List.length_drop]
  omega

/-! ## One message -/

/-- What one call of `bc_client_next_message` does with the stream it finds. -/
inductive Received (seg : Segmentation) (s : Session σ) (out : Outcome σ) : Prop where
  | message (message : Message) (stream : s.net.stream = message.wire ++ out.session.net.stream)
      (unsplit : Unsplit seg s.net.calls message.requests)
      (delivered : out.delivered = some message.delivery)
      (calls : out.session.net.calls = s.net.calls + message.requests.length)
  | lost (delivered : out.delivered = none)
      (progress : out.session.net.stream.length ≤ s.net.stream.length - 1)
      (split : ∀ message rest, s.net.stream = Message.wire message ++ rest →
        message.header.magic = s.cli.magic →
        ¬ Unsplit seg s.net.calls message.requests)

/-- What stays the same of the client from call to call. -/
structure Kept (s s' : Session σ) : Prop where
  tcp : s'.cli.tcp = s.cli.tcp
  magic : s'.cli.magic = s.cli.magic
  callback : s'.cli.onMsg = s.cli.onMsg

/-- What `bc_client_recv_message_header` does with the stream it finds. -/
inductive HeaderReceived (seg : Segmentation) (s : Session σ) :
    Int × List UInt8 × Session σ → Prop where
  | header (hdr : BcMessageHeader) (s' : Session σ) (kept : Kept s s')
      (stream : s.net.stream = hdr.bytes ++ s'.net.stream)
      (unsplit : Unsplit seg s.net.calls [4, 20])
      (calls : s'.net.calls = s.net.calls + 2) : HeaderReceived seg s (0, hdr.bytes, s')
  | lost (image : List UInt8) (s' : Session σ) (kept : Kept s s')
      (progress : s'.net.stream.length ≤ s.net.stream.length - 1)
      (split : ∀ hdr rest, s.net.stream = BcMessageHeader.bytes hdr ++ rest →
        hdr.magic = s.cli.magic →
        ¬ Unsplit seg s.net.calls [4, 20]) : HeaderReceived seg s (1, image, s')

theorem bcClientRecvMessageHeader_received (seg : Segmentation) (s : Session σ)
    (connected : s.cli.tcp.Connected) :
    HeaderReceived seg s (bcClientRecvMessageHeader seg.kernel s (List.replicate 24 0)) := by
  have progress := shrinks seg s.net.calls 4 s.net.stream (by decide)
  simp only [bcClientRecvMessageHeader, nuTcpClientRecv_connected seg _ _ connected]
  by_cases first : (s.net.stream.take (seg.reply s.net.calls 4)).length ≠ 4
  · -- the magic is split or the stream has ended, and what was read of it is lost
    rw [if_pos first]
    refine .lost _ _ ⟨rfl, rfl, rfl⟩ progress fun hdr rest split _ unsplit => ?_
    have start : s.net.stream = hdr.bytes.take 4 ++ (hdr.bytes.drop 4 ++ rest) := by
      rw [split, ← List.append_assoc, List.take_append_drop]
    exact unanswered first (by simp) start unsplit.1
  · rw [if_neg first]
    obtain ⟨full, enough⟩ := answered s.net (not_not.mp first)
    rw [full] at progress ⊢
    have taken : (s.net.stream.take 4).length = 4 := List.length_take_of_le enough
    have image : bytesAt (overwrite (List.replicate 24 0) 0 (s.net.stream.take 4)) 0 4 =
        bytesAt s.net.stream 0 4 := by
      apply Vector.toList_inj.mp
      rw [magic_overwrite taken, bytesAt_toList (by omega), List.drop_zero]
    rw [image]
    by_cases magic : bytesAt s.net.stream 0 4 ≠ s.cli.magic
    · -- the call began inside of a message, or the message is for another network
      rw [if_pos magic]
      refine .lost _ _ ⟨rfl, rfl, rfl⟩ progress fun hdr rest split agrees _ => magic ?_
      apply Vector.toList_inj.mp
      rw [bytesAt_toList (by omega), ← agrees, split, BcMessageHeader.bytes, List.append_assoc,
        List.drop_zero, List.take_left' (by simp)]
    · rw [if_neg magic]
      by_cases second : ((s.net.stream.drop 4).take (seg.reply (s.net.calls + 1) 20)).length ≠ 20
      · rw [if_pos second]
        refine .lost _ _ ⟨rfl, rfl, rfl⟩ (Nat.le_trans ?_ progress)
          fun hdr rest split _ unsplit => ?_
        · simp only [List.length_drop]
          omega
        · have start : s.net.stream.drop 4 = hdr.bytes.drop 4 ++ rest := by
            rw [split, List.drop_append_of_le_length (by simp)]
          exact unanswered second (by simp) start unsplit.2.1
      · rw [if_neg second]
        obtain ⟨full2, enough2⟩ :=
          answered ⟨s.net.stream.drop 4, s.net.calls + 1⟩ (not_not.mp second)
        rw [List.length_drop] at enough2
        rw [full2]
        have whole : overwrite (overwrite (List.replicate 24 0) 0 (s.net.stream.take 4)) 4
            ((s.net.stream.drop 4).take 20) = s.net.stream.take 24 := by
          rw [overwrite_twice taken (List.length_take_of_le (by rw [List.length_drop]; omega)),
            show (24 : Nat) = 4 + 20 from rfl, List.take_add]
        have length : (s.net.stream.take 24).length = 24 := by rw [List.length_take]; omega
        have header :=
          @HeaderReceived.header σ seg s (BcMessageHeader.ofImage (s.net.stream.take 24))
          ⟨s.cli, ⟨(s.net.stream.drop 4).drop 20, s.net.calls + 1 + 1⟩⟩ ⟨rfl, rfl, rfl⟩
        rw [BcMessageHeader.bytes_ofImage length] at header
        rw [whole]
        exact header (by simp) ⟨full, full2, trivial⟩ rfl

theorem deliver_received (s : Session σ) (delivery : Delivery) (callback : s.cli.onMsg.isSome) :
    (deliver s delivery).delivered = some delivery ∧ (deliver s delivery).session.net = s.net ∧
      Kept s (deliver s delivery).session := by
  unfold deliver
  cases found : s.cli.onMsg with
  | none => simp [found] at callback
  | some onMsg => exact ⟨rfl, rfl, rfl, rfl, found.symm ▸ rfl⟩

theorem Kept.trans {s s' s'' : Session σ} (first : Kept s s') (second : Kept s' s'') : Kept s s'' :=
  ⟨second.tcp.trans first.tcp, second.magic.trans first.magic, second.callback.trans first.callback⟩

theorem requests_header {seg : Segmentation} {call : Nat} {message : Message}
    (unsplit : Unsplit seg call message.requests) : Unsplit seg call [4, 20] :=
  ⟨unsplit.1, unsplit.2.1, trivial⟩

/-- What is delivered from the stream behind a complete message. -/
theorem deliver_message {seg : Segmentation} {s s' : Session σ} (message : Message)
    (callback : s'.cli.onMsg.isSome) (kept : Kept s s')
    (stream : s.net.stream = message.wire ++ s'.net.stream)
    (unsplit : Unsplit seg s.net.calls message.requests)
    (calls : s'.net.calls = s.net.calls + message.requests.length) :
    Received seg s (deliver s' message.delivery) ∧
      Kept s (deliver s' message.delivery).session := by
  obtain ⟨delivered, net, kept'⟩ := deliver_received s' message.delivery callback
  refine ⟨.message message ?_ unsplit delivered ?_, kept.trans kept'⟩
  · rw [net]
    exact stream
  · rw [net]
    exact calls

theorem bcClientNextMessage_received (seg : Segmentation) (s : Session σ)
    (connected : s.cli.tcp.Connected) (callback : s.cli.onMsg.isSome) :
    Received seg s (bcClientNextMessage seg.kernel s) ∧
      Kept s (bcClientNextMessage seg.kernel s).session := by
  have received := bcClientRecvMessageHeader_received seg s connected
  unfold bcClientNextMessage
  generalize bcClientRecvMessageHeader seg.kernel s (List.replicate 24 0) = result at received
  cases received with
  | lost image s' kept progress split =>
    refine ⟨.lost rfl progress fun message rest stream magic unsplit => ?_, kept⟩
    refine split message.header (message.payload ++ rest) ?_ magic (requests_header unsplit)
    rw [stream, Message.wire, List.append_assoc]
  | header hdr s' kept stream unsplit calls =>
    have connected' : s'.cli.tcp.Connected := kept.tcp.symm ▸ connected
    have callback' : s'.cli.onMsg.isSome := kept.callback.symm ▸ callback
    simp only [BcMessageHeader.ofImage_bytes, nuTcpClientRecv_connected seg _ _ connected']
    by_cases empty : hdr.size ≠ 0
    · rw [if_pos empty]
      by_cases payload : (s'.net.stream.take (seg.reply s'.net.calls hdr.size.toNat)).length ≠
        hdr.size.toNat
      · -- header and a part of the payload are out of the stream
        rw [if_pos payload]
        refine ⟨.lost rfl ?_ ?_, kept.tcp, kept.magic, kept.callback⟩
        · simp only [stream, List.length_append, List.length_drop, BcMessageHeader.bytes_length]
          omega
        · intro message rest whole _ full
          rw [stream, Message.wire, List.append_assoc] at whole
          obtain ⟨header, payloadFirst⟩ := List.append_inj whole (by simp)
          obtain rfl := BcMessageHeader.bytes_injective header
          rw [Message.requests, if_pos empty] at full
          exact unanswered payload message.sized payloadFirst (calls ▸ full.2.2.1)
      · rw [if_neg payload]
        obtain ⟨full, _⟩ := answered s'.net (not_not.mp payload)
        rw [full] at payload ⊢
        have sized := not_not.mp payload
        have same : Message.delivery ⟨hdr, _, sized⟩ =
            (hdr, some (s'.net.stream.take hdr.size.toNat)) := by
          rw [Message.delivery, if_pos empty]
        have requests : Message.requests ⟨hdr, _, sized⟩ = [4, 20, hdr.size.toNat] := by
          rw [Message.requests, if_pos empty]
        rw [← same]
        apply deliver_message ⟨hdr, _, sized⟩
        · exact callback'
        · exact ⟨kept.tcp, kept.magic, kept.callback⟩
        · rw [Message.wire, List.append_assoc, List.take_append_drop, stream]
        · rw [requests]
          exact ⟨unsplit.1, unsplit.2.1, calls ▸ full, trivial⟩
        · rw [requests, calls]
          rfl
    · rw [if_neg empty]
      have none : hdr.size.toNat = 0 := by rw [not_not.mp empty]; rfl
      have same : Message.delivery ⟨hdr, [], none.symm⟩ = (hdr, Option.none) := by
        rw [Message.delivery, if_neg empty]
      have requests : Message.requests ⟨hdr, [], none.symm⟩ = [4, 20] := by
        rw [Message.requests, if_neg empty]
      rw [← same]
      apply deliver_message ⟨hdr, [], none.symm⟩
      · exact callback'
      · exact ⟨kept.tcp, kept.magic, kept.callback⟩
      · rw [Message.wire, List.append_nil, stream]
      · rw [requests]
        exact unsplit
      · rw [requests, calls]
        rfl

/-! ## All messages -/

def Delivery.wireSize (delivery : Delivery) : Nat := 24 + delivery.1.size.toNat

theorem sum_wireSize (messages : List Message) :
    ((messages.map Message.delivery).map Delivery.wireSize).sum =
      (messages.flatMap Message.wire).length := by
  induction messages with
  | nil => rfl
  | cons message messages inductionHypothesis =>
    simp only [List.map_cons, List.sum_cons, List.flatMap_cons, List.length_append,
      Message.wire_length, Delivery.wireSize, Message.delivery, inductionHypothesis]

/-- A call delivers at most one message, and takes its bytes out of the stream. -/
theorem deliveries_bound (seg : Segmentation) (calls : Nat) (s : Session σ)
    (connected : s.cli.tcp.Connected) (callback : s.cli.onMsg.isSome) :
    (deliveries seg.kernel calls s).length ≤ calls ∧
      ((deliveries seg.kernel calls s).map Delivery.wireSize).sum ≤ s.net.stream.length := by
  induction calls generalizing s with
  | zero => simp [deliveries]
  | succ calls inductionHypothesis =>
    obtain ⟨received, kept⟩ := bcClientNextMessage_received seg s connected callback
    obtain ⟨count, bytes⟩ := inductionHypothesis (bcClientNextMessage seg.kernel s).session
      (kept.tcp.symm ▸ connected) (kept.callback.symm ▸ callback)
    rw [deliveries]
    cases received with
    | message message stream unsplit delivered _ =>
      rw [delivered, stream]
      simp only [Option.toList_some, List.singleton_append, List.length_cons, List.map_cons,
        List.sum_cons, List.length_append, Message.wire_length, Delivery.wireSize, Message.delivery]
      omega
    | lost delivered progress _ =>
      rw [delivered, Option.toList_none, List.nil_append]
      omega

/-- As long as no request is split, every call delivers the next message. -/
theorem deliveries_of_unsplit (seg : Segmentation) (calls : Nat) (s : Session σ)
    (messages : List Message) (connected : s.cli.tcp.Connected) (callback : s.cli.onMsg.isSome)
    (magic : ∀ message ∈ messages, message.header.magic = s.cli.magic)
    (stream : s.net.stream = messages.flatMap Message.wire)
    (unsplit : Unsplit seg s.net.calls ((messages.take calls).flatMap Message.requests)) :
    deliveries seg.kernel calls s = (messages.take calls).map Message.delivery := by
  induction calls generalizing s messages with
  | zero => rfl
  | succ calls inductionHypothesis =>
    cases messages with
    | nil =>
      -- a delivery takes 24 bytes at least, and the stream is empty
      have bytes := (deliveries_bound seg (calls + 1) s connected callback).2
      cases found : deliveries seg.kernel (calls + 1) s with
      | nil => rfl
      | cons delivery rest =>
        rw [found, stream, List.map_cons, List.sum_cons, Delivery.wireSize, List.flatMap_nil,
          List.length_nil] at bytes
        omega
    | cons message messages =>
      rw [List.flatMap_cons] at stream
      rw [List.take_succ_cons, List.flatMap_cons, unsplit_append] at unsplit
      obtain ⟨received, kept⟩ := bcClientNextMessage_received seg s connected callback
      rw [deliveries, List.take_succ_cons, List.map_cons]
      cases received with
      | lost _ _ split =>
        exact absurd unsplit.1 (split message _ stream (magic message List.mem_cons_self))
      | message received stream' _ delivered counted =>
        obtain ⟨rfl, rest⟩ := Message.wire_prefix (stream'.symm.trans stream)
        rw [delivered, Option.toList_some, List.singleton_append]
        congr 1
        refine inductionHypothesis _ messages (kept.tcp.symm ▸ connected)
          (kept.callback.symm ▸ callback) ?_ rest ?_
        · intro other member
          exact (magic other (List.mem_cons_of_mem _ member)).trans kept.magic.symm
        · exact counted.symm ▸ unsplit.2

/-- A call that loses a message loses some of its bytes, too: neither the calls nor the
bytes left suffice then. -/
theorem unsplit_of_deliveries (seg : Segmentation) (calls : Nat) (s : Session σ)
    (messages : List Message) (connected : s.cli.tcp.Connected) (callback : s.cli.onMsg.isSome)
    (stream : s.net.stream = messages.flatMap Message.wire)
    (delivered : deliveries seg.kernel calls s = (messages.take calls).map Message.delivery) :
    Unsplit seg s.net.calls ((messages.take calls).flatMap Message.requests) := by
  induction calls generalizing s messages with
  | zero => trivial
  | succ calls inductionHypothesis =>
    cases messages with
    | nil => trivial
    | cons message messages =>
      obtain ⟨received, kept⟩ := bcClientNextMessage_received seg s connected callback
      have connected' := kept.tcp.symm ▸ connected
      have callback' := kept.callback.symm ▸ callback
      rw [deliveries] at delivered
      cases received with
      | message received stream' unsplit here counted =>
        obtain ⟨rfl, rest⟩ := Message.wire_prefix (stream'.symm.trans stream)
        rw [here, Option.toList_some, List.singleton_append, List.take_succ_cons, List.map_cons,
          List.cons.injEq] at delivered
        rw [List.take_succ_cons, List.flatMap_cons, unsplit_append]
        exact ⟨unsplit, counted ▸ inductionHypothesis _ messages connected'
          callback' rest delivered.2⟩
      | lost nothing progress _ =>
        rw [nothing, Option.toList_none, List.nil_append] at delivered
        obtain ⟨count, bytes⟩ := deliveries_bound seg calls _ connected' callback'
        rw [delivered, List.length_map, List.length_take, List.length_cons] at count
        rw [delivered, List.take_of_length_le (by rw [List.length_cons]; omega), sum_wireSize,
          ← stream] at bytes
        have : 0 < s.net.stream.length := by
          rw [stream, List.flatMap_cons, List.length_append, Message.wire_length]
          omega
        omega

/-- Unsplit requests deliver the messages one by one; a segmentation delivers the same
exactly when it splits none. -/
theorem deliveries_segmentation (seg : Segmentation) (s : Session σ) (messages : List Message)
    (calls : Nat) (connected : s.cli.tcp.Connected) (callback : s.cli.onMsg.isSome)
    (magic : ∀ message ∈ messages, message.header.magic = s.cli.magic)
    (stream : s.net.stream = messages.flatMap Message.wire) :
    deliveries Segmentation.whole.kernel calls s = (messages.take calls).map Message.delivery ∧
      (deliveries seg.kernel calls s = deliveries Segmentation.whole.kernel calls s ↔
        Unsplit seg s.net.calls ((messages.take calls).flatMap Message.requests)) := by
  have whole := deliveries_of_unsplit Segmentation.whole calls s messages connected
    callback magic stream
    (unsplit_whole _ _)
  rw [whole]
  refine ⟨rfl, ?_, ?_⟩
  · intro same
    exact unsplit_of_deliveries seg calls s messages connected callback stream same
  · intro unsplit
    exact deliveries_of_unsplit seg calls s messages connected callback magic stream unsplit

/-! ## A split header -/

/-- A `verack` message of the fourth test network. -/
def verack : Message where
  header :=
    { magic := #v[0x1c, 0x16, 0x3f, 0x28]
      command := #v[118, 101, 114, 97, 99, 107, 0, 0, 0, 0, 0, 0]
      size := 0
      checksum := #v[0x5d, 0xf6, 0xe0, 0xe2] }
  payload := []
  sized := rfl

/-- A client that has received `verack` and counts the calls to its callback. -/
def verackSession : Session Nat where
  cli :=
    { tcp := ⟨3, 0⟩
      magic := #v[0x1c, 0x16, 0x3f, 0x28]
      sbuf := []
      status := .ok
      onMsgCtx := 0
      onMsg := some fun seen _ => (0, seen + 1) }
  net := ⟨verack.wire, 0⟩

/-- Every `recv` returns at most three bytes. -/
def threeBytes : Segmentation where
  reply _ num := min num 3
  positive _ _ positive := by omega
  atMost _ _ := by omega

/-- A `ping` message with a nonce. -/
def ping : Message where
  header :=
    { magic := #v[0x1c, 0x16, 0x3f, 0x28]
      command := #v[112, 105, 110, 103, 0, 0, 0, 0, 0, 0, 0, 0]
      size := 8
      checksum := #v[0x25, 0x02, 0xfa, 0x94] }
  payload := [1, 2, 3, 4, 5, 6, 7, 8]
  sized := rfl

/-- Two messages, of which the second one has a payload. -/
def pingSession : Session Nat := { verackSession with net := ⟨verack.wire ++ ping.wire, 0⟩ }

/-- Every `recv` returns at most 20 bytes. -/
def twentyBytes : Segmentation where
  reply _ num := min num 20
  positive _ _ positive := by omega
  atMost _ _ := by omega

theorem deliveries_segmentation_ping :
    deliveries Segmentation.whole.kernel 2 pingSession = [verack.delivery, ping.delivery] ∧
      deliveries twentyBytes.kernel 2 pingSession =
        deliveries Segmentation.whole.kernel 2 pingSession := by
  have magic : ∀ message ∈ [verack, ping], message.header.magic = pingSession.cli.magic := by decide
  have split := deliveries_segmentation twentyBytes pingSession [verack, ping] 2
    ⟨rfl, by decide⟩ rfl magic rfl
  exact ⟨split.1, split.2.mpr ⟨rfl, rfl, rfl, rfl, rfl, trivial⟩⟩

/-- The first `recv` returns three bytes of the magic, and the message is lost. -/
theorem deliveries_segmentation_fails :
    ¬ ∀ (seg : Segmentation) (s : Session Nat) (messages : List Message) (calls : Nat),
      s.cli.tcp.Connected →
      s.cli.onMsg.isSome → (∀ message ∈ messages, message.header.magic = s.cli.magic) →
      s.net.stream = messages.flatMap Message.wire →
      deliveries seg.kernel calls s = deliveries Segmentation.whole.kernel calls s := by
  intro always
  have same := always threeBytes verackSession [verack] 1 ⟨rfl, by decide⟩ rfl
    (fun message member => by rw [List.mem_singleton.mp member]; rfl) (List.append_nil _).symm
  have lost : deliveries threeBytes.kernel 1 verackSession = [] := by decide
  have arrives : deliveries Segmentation.whole.kernel 1 verackSession =
      [verack.delivery] := by decide
  rw [lost, arrives] at same
  cases same

end NuLab.Client
