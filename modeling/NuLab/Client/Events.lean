import NuLab.Client.Talks

/-! # The events of a stream

For a client with a magic, a stream is a sequence of events: complete messages with this
magic, and words of four bytes in place of the magic.  A call of `bc_client_next_message`
takes the next event, or ends with the status `TcpError`.
-/

namespace NuLab.Client

open NuLab.Bytes NuLab.CString

inductive Event where
  | junk (word : List UInt8)
  | message (message : Message)

/-- The call to `on_msg` that an event makes. -/
def Event.delivery : Event → Option Delivery
  | .junk _ => none
  | .message received => some received.delivery

/-- The first event of a stream, and what is behind it. -/
def nextEvent (magic : Vector UInt8 4) (stream : List UInt8) : Option (Event × List UInt8) :=
  if stream.length < 4 then none
  else if stream.take 4 ≠ magic.toList then some (.junk (stream.take 4), stream.drop 4)
  else
    let hdr := BcMessageHeader.ofImage (stream.take 24)
    if whole : 24 + hdr.size.toNat ≤ stream.length then
      some (.message ⟨hdr, (stream.drop 24).take hdr.size.toNat, by
        rw [List.length_take, List.length_drop]
        omega⟩, stream.drop (24 + hdr.size.toNat))
    else none

theorem nextEvent_shorter {magic : Vector UInt8 4} {stream rest : List UInt8} {event : Event}
    (next : nextEvent magic stream = some (event, rest)) : rest.length + 4 ≤ stream.length := by
  unfold nextEvent at next
  split_ifs at next with short junk
  · cases next
    rw [List.length_drop]
    omega
  · dsimp only at next
    split at next
    · cases next
      rw [List.length_drop]
      omega
    · cases next

def events (magic : Vector UInt8 4) (stream : List UInt8) : List Event :=
  match _next : nextEvent magic stream with
  | none => []
  | some (event, rest) => event :: events magic rest
termination_by stream.length
decreasing_by
  have := nextEvent_shorter _next
  omega

theorem events_none {magic : Vector UInt8 4} {stream : List UInt8}
    (next : nextEvent magic stream = none) :
    events magic stream = [] := by
  rw [events]
  split
  · rfl
  next found => simp [next] at found

theorem events_some {magic : Vector UInt8 4} {stream rest : List UInt8} {event : Event}
    (next : nextEvent magic stream = some (event, rest)) :
    events magic stream = event :: events magic rest := by
  rw [events]
  split
  next found => simp [next] at found
  next found =>
    rw [next] at found
    cases found
    rfl

/-- An event takes four bytes at least. -/
theorem events_length (magic : Vector UInt8 4) (stream : List UInt8) :
    4 * (events magic stream).length ≤ stream.length := by
  cases next : nextEvent magic stream with
  | none =>
    rw [events_none next]
    exact Nat.zero_le _
  | some found =>
    obtain ⟨event, rest⟩ := found
    have shorter := nextEvent_shorter next
    have later := events_length magic rest
    rw [events_some next, List.length_cons]
    omega
termination_by stream.length

theorem nextEvent_junk {magic : Vector UInt8 4} {word : List UInt8} (length : word.length = 4)
    (mismatch : word ≠ magic.toList) (rest : List UInt8) :
    nextEvent magic (word ++ rest) = some (.junk word, rest) := by
  have long : ¬ (word ++ rest).length < 4 := by
    rw [List.length_append, length]
    omega
  rw [nextEvent, if_neg long, List.take_left' length, List.drop_left' length, if_pos mismatch]

theorem nextEvent_message {magic : Vector UInt8 4} (received : Message)
    (same : received.header.magic = magic) (rest : List UInt8) :
    nextEvent magic (received.wire ++ rest) = some (.message received, rest) := by
  have length := received.wire_length
  have long : ¬ (received.wire ++ rest).length < 4 := by
    rw [List.length_append, length]
    omega
  have header : (received.wire ++ rest).take 24 = received.header.bytes := by
    rw [Message.wire, List.append_assoc, List.take_left' received.header.bytes_length]
  have word : (received.wire ++ rest).take 4 = magic.toList := by
    rw [Message.wire, BcMessageHeader.bytes, List.append_assoc, List.append_assoc,
      List.take_left' (by simp), same]
  have whole : 24 + received.header.size.toNat ≤ (received.wire ++ rest).length := by
    rw [List.length_append, length]
    exact Nat.le_add_right _ _
  have payload : ((received.wire ++ rest).drop 24).take received.header.size.toNat =
      received.payload := by
    rw [Message.wire, List.append_assoc, List.drop_left' received.header.bytes_length,
      List.take_left' received.sized]
  have behind : (received.wire ++ rest).drop (24 + received.header.size.toNat) = rest :=
    List.drop_left' length
  rw [nextEvent, if_neg long, if_neg (not_not.mpr word)]
  simp only [header, BcMessageHeader.ofImage_bytes, whole, dif_pos, payload, behind]

/-! ## One call -/

/-- A `recv` that returns all that was asked for, of any kernel. -/
theorem nuTcpClientRecv_full {kernel : Kernel} {cli after : NuTcpClient} {net left : Network}
    {num : Nat} {bytes : List UInt8}
    (ran : nuTcpClientRecv kernel cli net num = (bytes, after, left)) (positive : 0 < num)
    (full : bytes.length = num) :
    num ≤ net.stream.length ∧ bytes = net.stream.take num ∧ after = cli ∧
      left.stream = net.stream.drop num := by
  unfold nuTcpClientRecv recv at ran
  by_cases unusable : cli.ec ≠ 0 ∨ cli.sd < 0
  · rw [if_pos unusable] at ran
    cases ran
    exact absurd positive (by rw [← full]; exact Nat.lt_irrefl 0)
  · rw [if_neg unusable] at ran
    cases answer : kernel net.calls num with
    | failed errno =>
      simp only [answer] at ran
      cases ran
      exact absurd positive (by rw [← full]; exact Nat.lt_irrefl 0)
    | upTo limit =>
      simp only [answer] at ran
      cases ran
      rw [List.length_take] at full
      have all : min limit num = num := by omega
      rw [all] at full ⊢
      exact ⟨by omega, rfl, rfl, rfl⟩

/-- What a call of `bc_client_next_message` comes to. -/
inductive Pulled (s : Session Unit) (out : Outcome Unit) : Prop where
  | event (event : Event) (next : nextEvent s.cli.magic s.net.stream =
      some (event, out.session.net.stream))
      (delivered : out.delivered = event.delivery) (ret : event.delivery = none → out.ret = 1)
      (tcp : out.session.cli.tcp = s.cli.tcp) (magic : out.session.cli.magic = s.cli.magic)
      (callback : out.session.cli.onMsg = s.cli.onMsg)
      (status : s.cli.status ≠ .tcpError → out.session.cli.status ≠ .tcpError)
  | broken (delivered : out.delivered = none) (ret : out.ret = 1)
      (status : out.session.cli.status = .tcpError)

theorem magic_word {word : List UInt8} (length : word.length = 4) (magic : Vector UInt8 4) :
    bytesAt (overwrite (List.replicate 24 0) 0 word) 0 4 = magic ↔ word = magic.toList := by
  rw [← Vector.toList_inj, magic_overwrite length]

/-- What is delivered is the event. -/
theorem deliver_pulled {s : Session Unit} {cli : BcClient Unit} {net : Network} {received : Message}
    (callback : s.cli.onMsg = some noted) (same : cli.onMsg = s.cli.onMsg)
    (tcp : cli.tcp = s.cli.tcp) (magic : cli.magic = s.cli.magic)
    (status : cli.status = s.cli.status)
    (next : nextEvent s.cli.magic s.net.stream = some (.message received, net.stream)) :
    Pulled s (deliver ⟨cli, net⟩ received.delivery) := by
  have ran := deliver_noted (same.trans callback) received.delivery net
  rw [ran]
  exact .event (.message received) next rfl (fun none => by cases none) tcp magic same fun fine =>
    by rwa [status]

/-- The message that starts with the first 24 bytes of a stream. -/
theorem nextEvent_image {magic : Vector UInt8 4} {stream data rest : List UInt8}
    {hdr : BcMessageHeader} (word : stream.take 4 = magic.toList) (room : 24 ≤ stream.length)
    (header : BcMessageHeader.ofImage (stream.take 24) = hdr)
    (behind : stream.drop 24 = data ++ rest) (sized : data.length = hdr.size.toNat) :
    nextEvent magic stream = some (.message ⟨hdr, data, sized⟩, rest) := by
  have image : hdr.bytes = stream.take 24 := by
    rw [← header, BcMessageHeader.bytes_ofImage (List.length_take_of_le room)]
  have same : hdr.magic = magic := by
    have front : hdr.bytes.take 4 = hdr.magic.toList := by simp [BcMessageHeader.bytes]
    rw [image, List.take_take] at front
    exact Vector.toList_inj.mp (front.symm.trans word)
  have whole : stream = Message.wire ⟨hdr, data, sized⟩ ++ rest := by
    rw [Message.wire, image, List.append_assoc, ← behind, List.take_append_drop]
  rw [whole]
  exact nextEvent_message ⟨hdr, data, sized⟩ same rest

theorem bcClientNextMessage_pulled (kernel : Kernel) (s : Session Unit)
    (callback : s.cli.onMsg = some noted) :
    Pulled s (bcClientNextMessage kernel s) := by
  unfold bcClientNextMessage bcClientRecvMessageHeader
  cases first : nuTcpClientRecv kernel s.cli.tcp s.net 4 with
  | mk word after =>
    obtain ⟨tcp, net⟩ := after
    dsimp only
    -- a receive that is short breaks the client, here and twice more below
    by_cases short : word.length ≠ 4
    · simp only [if_pos short]
      exact .broken rfl rfl rfl
    · have length := not_not.mp short
      obtain ⟨enough, taken, rfl, rest⟩ := nuTcpClientRecv_full first (by decide) length
      have long : ¬ s.net.stream.length < 4 := by omega
      simp only [if_neg short]
      by_cases junk : bytesAt (overwrite (List.replicate 24 0) 0 word) 0 4 ≠ s.cli.magic
      · have mismatch : s.net.stream.take 4 ≠ s.cli.magic.toList := by
          rw [← taken]
          exact mt (magic_word length _).mpr junk
        simp only [if_pos junk]
        -- nothing but the word is consumed, so that the next call looks at the following four bytes
        refine .event (.junk word) ?_ rfl (fun _ => rfl) rfl rfl rfl fun _ => by simp
        rw [nextEvent, if_neg long, if_pos mismatch, taken, rest]
      · have magic : word = s.cli.magic.toList := (magic_word length _).mp (not_not.mp junk)
        simp only [if_neg junk]
        cases second : nuTcpClientRecv kernel s.cli.tcp net 20 with
        | mk back after =>
          obtain ⟨tcp, net'⟩ := after
          dsimp only
          by_cases cut : back.length ≠ 20
          · simp only [if_pos cut]
            exact .broken rfl rfl rfl
          · obtain ⟨enough', taken', rfl, rest'⟩ :=
              nuTcpClientRecv_full second (by decide) (not_not.mp cut)
            simp only [if_neg cut, overwrite_twice length (not_not.mp cut)]
            -- the header, which is the first 24 bytes of the stream
            have image : word ++ back = s.net.stream.take 24 := by
              rw [taken, taken', rest, show (24 : Nat) = 4 + 20 from rfl, List.take_add]
            rw [image]
            have behind : net'.stream = s.net.stream.drop 24 := by
              rw [rest', rest, List.drop_drop]
            have room : 24 ≤ s.net.stream.length := by
              rw [rest, List.length_drop] at enough'
              omega
            have front : s.net.stream.take 4 = s.cli.magic.toList := by rw [← taken, magic]
            generalize header : BcMessageHeader.ofImage (s.net.stream.take 24) = hdr
            by_cases size : hdr.size ≠ 0
            · have positive : 0 < hdr.size.toNat :=
                UInt32.lt_iff_toNat_lt.mp (UInt32.pos_iff_ne_zero.mpr size)
              simp only [if_pos size]
              cases third : nuTcpClientRecv kernel s.cli.tcp net' hdr.size.toNat with
              | mk data after =>
                obtain ⟨tcp, net''⟩ := after
                dsimp only
                by_cases lost : data.length ≠ hdr.size.toNat
                · simp only [if_pos lost]
                  exact .broken rfl rfl rfl
                · have sized := not_not.mp lost
                  obtain ⟨-, taken'', rfl, rest''⟩ := nuTcpClientRecv_full third positive sized
                  have split : s.net.stream.drop 24 = data ++ net''.stream := by
                    rw [taken'', rest'', List.take_append_drop, behind]
                  have delivery : Message.delivery ⟨hdr, data, sized⟩ = (hdr, some data) := by
                    rw [Message.delivery, if_pos size]
                  simp only [if_neg lost]
                  rw [← delivery]
                  exact deliver_pulled callback rfl rfl rfl rfl
                    (nextEvent_image front room header split sized)
            · have sized : ([] : List UInt8).length = hdr.size.toNat := by
                rw [not_not.mp size]
                rfl
              have delivery : Message.delivery ⟨hdr, [], sized⟩ = (hdr, none) := by
                rw [Message.delivery, if_neg size]
              have split : s.net.stream.drop 24 = [] ++ net'.stream := behind.symm
              simp only [if_neg size]
              rw [← delivery]
              exact deliver_pulled callback rfl rfl rfl rfl
                (nextEvent_image front room header split sized)

/-! ## Calls that get all they ask for -/

theorem nextEvent_eq_some {magic : Vector UInt8 4} {stream rest : List UInt8} {event : Event}
    (next : nextEvent magic stream = some (event, rest)) :
    (∃ word, event = .junk word ∧ word.length = 4 ∧ word ≠ magic.toList ∧ stream = word ++ rest) ∨
      ∃ received, event = .message received ∧ received.header.magic = magic ∧
        stream = received.wire ++ rest := by
  unfold nextEvent at next
  split_ifs at next with short junk
  · cases next
    exact Or.inl ⟨_, rfl, List.length_take_of_le (Nat.not_lt.mp short), junk,
      (List.take_append_drop 4 stream).symm⟩
  · dsimp only at next
    split at next
    next whole =>
      cases next
      have room : 24 ≤ stream.length := Nat.le_trans (Nat.le_add_right _ _) whole
      have image := BcMessageHeader.bytes_ofImage (List.length_take_of_le room)
      refine Or.inr ⟨_, rfl, ?_, ?_⟩
      · have front : (BcMessageHeader.ofImage (stream.take 24)).bytes.take 4 = magic.toList := by
          rw [image, List.take_take]
          exact not_not.mp junk
        rw [BcMessageHeader.bytes, List.take_left' (by simp)] at front
        exact Vector.toList_inj.mp front
      · rw [Message.wire, image, List.append_assoc, ← List.drop_drop, List.take_append_drop,
          List.take_append_drop]
    · cases next

theorem bcClientNextMessage_junk {s : Session Unit} (connected : s.cli.tcp.Connected)
    {word rest : List UInt8} (length : word.length = 4) (mismatch : word ≠ s.cli.magic.toList)
    (stream : s.net.stream = word ++ rest) :
    (bcClientNextMessage Segmentation.whole.kernel s).session.cli.status = .magicMismatch := by
  have first := nuTcpClientRecv_connected Segmentation.whole s.net 4 connected
  rw [show Segmentation.whole.reply s.net.calls 4 = 4 from rfl, stream,
    List.take_left' length] at first
  unfold bcClientNextMessage bcClientRecvMessageHeader
  simp only [first, length, ne_eq, not_true_eq_false, if_false,
    (magic_word length _).not.mpr mismatch, not_false_eq_true, if_true]

/-- While there is an event, a call whose receives are complete takes it. -/
theorem bcClientNextMessage_whole {s : Session Unit} (connected : s.cli.tcp.Connected)
    (callback : s.cli.onMsg = some noted) {event : Event} {rest : List UInt8}
    (next : nextEvent s.cli.magic s.net.stream = some (event, rest)) :
    (bcClientNextMessage Segmentation.whole.kernel s).delivered ≠ none ∨
      (bcClientNextMessage Segmentation.whole.kernel s).session.cli.status ≠ .tcpError := by
  obtain ⟨word, -, length, mismatch, stream⟩ | ⟨received, -, same, stream⟩ := nextEvent_eq_some next
  · right
    rw [bcClientNextMessage_junk connected length mismatch stream]
    simp
  · left
    obtain ⟨result, -⟩ :=
      bcClientNextMessage_received Segmentation.whole s connected (by rw [callback]; rfl)
    cases result with
    | message other _ _ delivered _ =>
      rw [delivered]
      simp
    | lost _ _ split => exact absurd (unsplit_whole _ _) (split received rest stream same)

end NuLab.Client
