import NuLab.Client.OnMsg

/-! # Framing

What one client frames with `bc_massage_header_make_with_data` another one with the
same magic reads back with `bc_client_next_message`, message by message.
-/

namespace NuLab.Client

open NuLab.Bytes NuLab.CString

variable {σ τ : Type}

/-- A command of 1 to 11 characters and a payload whose size fits into the header. -/
structure Frame where
  command : List UInt8
  payload : List UInt8
  named : 1 ≤ command.length ∧ command.length ≤ 11
  noNul : ∀ char ∈ command, char ≠ 0
  short : payload.length < 2 ^ 32

/-- The header for the payload, and the payload behind it. -/
def framed (sender : BcClient τ) : List Frame → Option (List UInt8)
  | [] => some []
  | frame :: frames => do
    let header ← bcMassageHeaderMakeWithData sender frame.command (some frame.payload)
      (UInt32.ofNat frame.payload.length)
    let rest ← framed sender frames
    some (header.bytes ++ frame.payload ++ rest)

def Frame.message (magic : Vector UInt8 4) (frame : Frame) : Message :=
  messageFor magic frame.command frame.payload frame.short

theorem framed_eq (sender : BcClient τ) (frames : List Frame) :
    framed sender frames =
      some ((frames.map (Frame.message sender.magic)).flatMap Message.wire) := by
  induction frames with
  | nil => rfl
  | cons frame frames inductionHypothesis =>
    rw [framed, bcMassageHeaderMakeWithData_eq sender frame.command frame.payload frame.short]
    simp only [Option.bind_eq_bind, Option.bind_some, inductionHypothesis]
    rfl

/-! ## Commands -/

/-- What lies behind the image counts as NUL. -/
theorem bytesAt_padded (image : List UInt8) {count : Nat} (short : image.length ≤ count) :
    (bytesAt image 0 count).toList = image ++ List.replicate (count - image.length) 0 := by
  apply List.ext_getElem
  · simp only [Vector.length_toList, List.length_append, List.length_replicate]
    omega
  · intro i left right
    rw [Vector.length_toList] at left
    by_cases inside : i < image.length
    · simp [bytesAt, inside]
    · rw [List.getElem_append_right (Nat.le_of_not_lt inside)]
      simp [bytesAt, List.getElem?_eq_none (Nat.le_of_not_lt inside)]

/-- A command that fits comes back as it was. -/
theorem Frame.command_kept (magic : Vector UInt8 4) (frame : Frame) :
    cString (frame.message magic).header.command.toList = frame.command := by
  have whole : cString frame.command = frame.command := cString_whole frame.noNul
  have copied : strncpy frame.command 11 = frame.command ++
      List.replicate (11 - frame.command.length) 0 := by
    rw [strncpy, whole, List.take_of_length_le frame.named.2]
  have length : (strncpy frame.command 11).length = 11 := by
    have := frame.named.2
    rw [copied, List.length_append, List.length_replicate]
    omega
  have field : (frame.message magic).header.command = bytesAt (strncpy frame.command 11) 0 12 := rfl
  rw [field, bytesAt_padded _ (by omega), copied, List.append_assoc,
    List.replicate_append_replicate]
  exact cString_padded frame.noNul _

/-! ## The round trip -/

/-- What the callback gets to see: command, size and payload. -/
def received (delivery : Delivery) : List UInt8 × Nat × List UInt8 :=
  (cString delivery.1.command.toList, delivery.1.size.toNat, delivery.2.getD [])

theorem Frame.received_eq (magic : Vector UInt8 4) (frame : Frame) :
    received (frame.message magic).delivery =
      (frame.command, frame.payload.length, frame.payload) := by
  have data := (frame.message magic).delivery_data
  have size : (frame.message magic).header.size.toNat = frame.payload.length :=
    (frame.message magic).sized.symm
  have header : (frame.message magic).delivery.1 = (frame.message magic).header := rfl
  rw [received, header, data, frame.command_kept, size]
  rfl

/-- Calls of `bc_client_next_message` deliver the framed messages one by one, and all of
them pass the checks. -/
theorem framing_round_trip (sender : BcClient τ) (frames : List Frame) :
    ∃ stream, framed sender frames = some stream ∧
      ∀ s : Session σ, s.cli.tcp.Connected → s.cli.onMsg.isSome → s.cli.magic = sender.magic →
        s.net.stream = stream → ∀ calls,
        (deliveries Segmentation.whole.kernel calls s).map received =
          (frames.take calls).map
            (fun frame => (frame.command, frame.payload.length, frame.payload)) ∧
        ∀ delivery ∈ deliveries Segmentation.whole.kernel calls s,
          passesChecks s.cli.magic delivery = some true := by
  refine ⟨_, framed_eq sender frames, ?_⟩
  intro s connected callback magic stream calls
  have same : ∀ message ∈ frames.map (Frame.message sender.magic),
      message.header.magic = s.cli.magic := by
    intro message member
    obtain ⟨frame, -, rfl⟩ := List.mem_map.mp member
    exact magic.symm
  have delivered := deliveries_of_unsplit Segmentation.whole calls s
    (frames.map (Frame.message sender.magic)) connected
    callback same stream (unsplit_whole _ _)
  rw [delivered, ← List.map_take, List.map_map, List.map_map]
  constructor
  · apply List.map_congr_left
    intro frame _
    exact frame.received_eq sender.magic
  · intro delivery member
    obtain ⟨message, inner, rfl⟩ := List.mem_map.mp member
    obtain ⟨frame, -, rfl⟩ := List.mem_map.mp inner
    rw [magic]
    exact messageFor_passes sender.magic frame.command frame.payload frame.short

/-- A `ping` with a nonce. -/
def pingFrame : Frame where
  command := text "ping"
  payload := [1, 2, 3, 4, 5, 6, 7, 8]
  named := by decide
  noNul := all_chars (by decide)
  short := by decide

/-- A `verack`, which has no payload. -/
def verackFrame : Frame where
  command := text "verack"
  payload := []
  named := by decide
  noNul := all_chars (by decide)
  short := Nat.two_pow_pos 32

theorem framing_round_trip_three :
    ∃ stream, framed verackSession.cli [pingFrame, verackFrame, pingFrame] = some stream ∧
      (deliveries Segmentation.whole.kernel 3 { verackSession with net := ⟨stream, 0⟩ }).map
        received =
        [(text "ping", 8, [1, 2, 3, 4, 5, 6, 7, 8]), (text "verack", 0, []),
          (text "ping", 8, [1, 2, 3, 4, 5, 6, 7, 8])] := by
  have connected : verackSession.cli.tcp.Connected := ⟨rfl, by decide⟩
  obtain ⟨stream, made, delivered⟩ :=
    framing_round_trip (σ := Nat) verackSession.cli [pingFrame, verackFrame, pingFrame]
  exact ⟨stream, made,
    (delivered { verackSession with net := ⟨stream, 0⟩ } connected rfl rfl rfl 3).1⟩

end NuLab.Client
