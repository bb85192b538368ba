import NuLab.Client.Events

/-! # The loop of `main_client.c`

The loop calls `bc_client_next_message` until the socket has an error, a read fails, or more
than ten calls in a row have failed.  Whatever `recv` and `send` return, it ends, and
what it hands to `on_msg` are the messages of the stream, in their order.
-/

namespace NuLab.Client

open NuLab.Bytes NuLab.CString NuLab.Transaction

/-! ## The loop -/

/-- The variables of `main`, and what `on_msg` has been called with so far. -/
structure ClientMain where
  cli : BcClient Unit
  net : Network
  out : Outgoing
  numFails : Nat
  calls : List Delivery

/-- Why the loop ends: its condition, one of its two `break`s, a handler that ends the program, or a
read behind the end of a message. -/
inductive LoopEnd where
  | socketError
  | readMessage
  | numFails
  | exited
  | outside
deriving DecidableEq

/-- The part of a round behind `bc_client_next_message`, which has returned `ec`. -/
def ClientMain.count (m : ClientMain) (ec : Int) : ClientMain × Option LoopEnd :=
  if ec ≠ 0 ∧ m.cli.status = .tcpError then (m, some .readMessage)
  else
    let m := { m with numFails := if ec ≠ 0 then m.numFails + 1 else 0 }
    if m.numFails > 10 then (m, some .numFails) else (m, none)

/-- A round of the loop, and how the loop ends in it. -/
def mainRound (handlerReturns : Bool) (kernel : Kernel) (sends : SendKernel) (m : ClientMain) :
    ClientMain × Option LoopEnd :=
  let out := bcClientNextMessage kernel ⟨m.cli, m.net⟩
  let m := { m with cli := out.session.cli, net := out.session.net }
  match out.delivered with
  -- nothing has been handed over, and the result is that of the receives
  | none => m.count out.ret
  | some delivery =>
    let m := { m with calls := m.calls ++ [delivery] }
    match onMsg handlerReturns sends m.cli m.out delivery with
    | none => (m, some .outside)
    | some (.exited, cli, sent) => ({ m with cli := cli, out := sent }, some .exited)
    | some (.returned ec, cli, sent) => { m with cli := cli, out := sent }.count ec

/-- `none`: given up after so many tests of the condition. -/
def mainLoop (handlerReturns : Bool) (kernel : Kernel) (sends : SendKernel) :
    Nat → ClientMain → Option (LoopEnd × ClientMain)
  | 0, _ => none
  | fuel + 1, m =>
    if m.cli.tcp.ec = 0 then
      match mainRound handlerReturns kernel sends m with
      | (m, none) => mainLoop handlerReturns kernel sends fuel m
      | (m, some stop) => some (stop, m)
    else some (.socketError, m)

/-! ## What `on_msg` does -/

/-- The result of `on_msg` and the command of its answer, if there is one.  Neither
depends on the connection. -/
def verdict (handlerReturns : Bool) (magic : Vector UInt8 4) (delivery : Delivery) :
    Option (Reaction × Option (List UInt8)) := do
  let passes ← passesChecks magic delivery
  let cmd := delivery.1.command.toList
  if ¬ passes then some (.returned 1, none)
  else if strncmpEq cmd (text "version") 12 then do
    let ec ← bcClientVerifyVersion delivery.2
    some (.returned 0, if ec = 0 then some (text "verack") else none)
  else if strncmpEq cmd (text "verack") 12 then some (.returned 0, none)
  else if strncmpEq cmd (text "ping") 12 then some (.returned 0, some (text "pong"))
  else if strncmpEq cmd (text "inv") 12 then do
    let (reaction, _) ← onInv handlerReturns delivery.2 delivery.1.size
    some (reaction, none)
  else if strncmpEq cmd (text "sendcmpct") 12 then do
    let _ ← readAt delivery.2 0 1
    let _ ← readAt delivery.2 1 8
    some (.returned 0, none)
  else if strncmpEq cmd (text "feefilter") 12 then some (.returned 0, none)
  else some (.returned 1, none)

/-- The answer is sent, whatever becomes of it. -/
def answer (sends : SendKernel) (cli : BcClient Unit) (out : Outgoing) :
    Option (List UInt8) → BcClient Unit × Outgoing
  | none => (cli, out)
  | some command =>
    let (_, tcp, out) := nuTcpClientSend sends cli.tcp out (emptyMessage cli.magic command).wire
    ({ cli with tcp := tcp }, out)

variable {handlerReturns : Bool}

theorem onMsg_verdict (sends : SendKernel) (cli : BcClient Unit) (out : Outgoing)
    (delivery : Delivery) :
    onMsg handlerReturns sends cli out delivery =
      (verdict handlerReturns cli.magic delivery).map fun (reaction, command) =>
        (reaction, answer sends cli out command) := by
  unfold onMsg verdict
  cases passesChecks cli.magic delivery with
  | none => rfl
  | some passes =>
    cases passes with
    | false => rfl
    | true =>
      simp only [Option.bind_eq_bind, Option.bind_some, if_true, not_true_eq_false,
        if_false, onCommand]
      split_ifs with version verack ping inv cmpct filter
      · cases bcClientVerifyVersion delivery.2 with
        | none => rfl
        | some ec =>
          simp only [Option.bind_some, Option.map_some]
          split_ifs with accepted
          · rw [bcClientSendVerack, sendEmpty_eq]
            simp only [answer, emptyMessage_wire, Option.bind_some]
          · rfl
      · rfl
      · rw [bcClientSendPong, sendEmpty_eq]
        simp only [answer, emptyMessage_wire, Option.bind_some, Option.map_some]
      · cases onInv handlerReturns delivery.2 delivery.1.size with
        | none => rfl
        | some result => rfl
      · cases readAt delivery.2 0 1 with
        | none => rfl
        | some _ =>
          cases readAt delivery.2 1 8 with
          | none => rfl
          | some _ => rfl
      · rfl
      · rfl

theorem answer_keeps (sends : SendKernel) (cli : BcClient Unit) (out : Outgoing)
    (command : Option (List UInt8)) :
    (answer sends cli out command).1.magic = cli.magic ∧
      (answer sends cli out command).1.onMsg = cli.onMsg ∧
      (answer sends cli out command).1.status = cli.status := by
  cases command with
  | none => exact ⟨rfl, rfl, rfl⟩
  | some command => exact ⟨rfl, rfl, rfl⟩

theorem answer_whole {cli : BcClient Unit} (connected : cli.tcp.Connected) (out : Outgoing)
    (command : Option (List UInt8)) :
    (answer wholeSends cli out command).1.tcp = cli.tcp ∧
      (answer wholeSends cli out command).2.stream =
      out.stream ++ (command.map fun command => (emptyMessage cli.magic command).wire).getD [] := by
  cases command with
  | none => exact ⟨rfl, (List.append_nil _).symm⟩
  | some command =>
    simp [answer, wholeSends_send, connected.usable]

/-! ## Events -/

/-- What `on_msg` makes of an event; junk does not get there, and is a failure. -/
def Event.verdict (handlerReturns : Bool) (magic : Vector UInt8 4) :
    Event → Option (Reaction × Option (List UInt8))
  | .junk _ => some (.returned 1, none)
  | .message received => Client.verdict handlerReturns magic received.delivery

/-- The message that answers an event. -/
def Event.answer (handlerReturns : Bool) (magic : Vector UInt8 4) (event : Event) : List UInt8 :=
  match event.verdict handlerReturns magic with
  | none => []
  | some (_, command) => (command.map fun command => (emptyMessage magic command).wire).getD []

/-- The events that a loop handles after so many failures in a row, and how it ends; behind the
last one a read fails. -/
def attend (handlerReturns : Bool) (magic : Vector UInt8 4) :
    Nat → List Event → LoopEnd × List Event
  | _, [] => (.readMessage, [])
  | numFails, event :: rest =>
    match event.verdict handlerReturns magic with
    | none => (.outside, [event])
    | some (.exited, _) => (.exited, [event])
    | some (.returned ec, _) =>
      let numFails := if ec ≠ 0 then numFails + 1 else 0
      if numFails > 10 then (.numFails, [event])
      else
        let (stop, handled) := attend handlerReturns magic numFails rest
        (stop, event :: handled)

theorem attend_outside {magic : Vector UInt8 4} {event : Event}
    (decided : event.verdict handlerReturns magic = none) (numFails : Nat) (rest : List Event) :
    attend handlerReturns magic numFails (event :: rest) = (.outside, [event]) := by
  rw [attend, decided]

theorem attend_exited {magic : Vector UInt8 4} {event : Event} {command : Option (List UInt8)}
    (decided : event.verdict handlerReturns magic = some (.exited, command)) (numFails : Nat)
    (rest : List Event) :
    attend handlerReturns magic numFails (event :: rest) = (.exited, [event]) := by
  rw [attend, decided]

theorem attend_returned {magic : Vector UInt8 4} {event : Event} {ec : Int}
    {command : Option (List UInt8)}
    (decided : event.verdict handlerReturns magic = some (.returned ec, command))
    {numFails later : Nat} (counted : later = if ec ≠ 0 then numFails + 1 else 0)
    (rest : List Event) :
    attend handlerReturns magic numFails (event :: rest) =
      if later > 10 then (.numFails, [event])
      else ((attend handlerReturns magic later rest).1,
        event :: (attend handlerReturns magic later rest).2) := by
  rw [attend, decided, counted]

/-! ## One round -/

/-- The state of a loop that goes on. -/
structure Running (m : ClientMain) : Prop where
  callback : m.cli.onMsg = some noted
  status : m.cli.status ≠ .tcpError

/-- An event has been handled in a round. -/
structure Attended (handlerReturns : Bool) (sends : SendKernel) (m : ClientMain) (event : Event)
    (after : ClientMain) : Prop where
  next : nextEvent m.cli.magic m.net.stream = some (event, after.net.stream)
  calls : after.calls = m.calls ++ event.delivery.toList
  magic : after.cli.magic = m.cli.magic
  running : Running after
  sent : sends = wholeSends → m.cli.tcp.Connected → after.cli.tcp = m.cli.tcp ∧
    after.out.stream = m.out.stream ++ event.answer handlerReturns m.cli.magic

/-- What a round does. -/
inductive MainStep (handlerReturns : Bool) (kernel : Kernel) (sends : SendKernel) (m : ClientMain) :
    ClientMain × Option LoopEnd → Prop where
  | broken {after : ClientMain} (calls : after.calls = m.calls) (out : after.out = m.out)
      (starved : kernel = Segmentation.whole.kernel → m.cli.tcp.Connected →
        nextEvent m.cli.magic m.net.stream = none) :
      MainStep handlerReturns kernel sends m (after, some .readMessage)
  | outside {event : Event} {after : ClientMain}
      (attended : Attended handlerReturns sends m event after)
      (verdict : event.verdict handlerReturns m.cli.magic = none) :
      MainStep handlerReturns kernel sends m (after, some .outside)
  | exited {event : Event} {after : ClientMain} {command : Option (List UInt8)}
      (attended : Attended handlerReturns sends m event after)
      (verdict : event.verdict handlerReturns m.cli.magic = some (.exited, command)) :
      MainStep handlerReturns kernel sends m (after, some .exited)
  | returned {event : Event} {after : ClientMain} {ec : Int} {command : Option (List UInt8)}
      (attended : Attended handlerReturns sends m event after)
      (verdict : event.verdict handlerReturns m.cli.magic = some (.returned ec, command))
      (numFails : after.numFails = if ec ≠ 0 then m.numFails + 1 else 0) :
      MainStep handlerReturns kernel sends m
        (after, if after.numFails > 10 then some .numFails else none)

variable {kernel : Kernel} {sends : SendKernel}

theorem count_running {m : ClientMain} (running : Running m) (ec : Int) :
    m.count ec = ({ m with numFails := if ec ≠ 0 then m.numFails + 1 else 0 },
      if (if ec ≠ 0 then m.numFails + 1 else 0) > 10 then some .numFails else none) := by
  unfold ClientMain.count
  rw [if_neg (fun both => running.status both.2)]
  dsimp only
  split_ifs <;> rfl

theorem mainRound_step (m : ClientMain) (running : Running m) :
    MainStep handlerReturns kernel sends m (mainRound handlerReturns kernel sends m) := by
  have pulled := bcClientNextMessage_pulled kernel ⟨m.cli, m.net⟩ running.callback
  have whole := @bcClientNextMessage_whole ⟨m.cli, m.net⟩
  unfold mainRound
  generalize called : bcClientNextMessage kernel ⟨m.cli, m.net⟩ = out at pulled
  cases pulled with
  | broken delivered ret status =>
    simp only [delivered, ret]
    unfold ClientMain.count
    rw [if_pos ⟨by decide, status⟩]
    -- with complete receives this happens only where no event is left
    refine .broken rfl rfl fun same connected => ?_
    cases next : nextEvent m.cli.magic m.net.stream with
    | none => rfl
    | some found =>
      subst same
      obtain taken | fine := whole connected running.callback next
      · exact absurd (by rw [called, delivered]) taken
      · exact absurd (by rw [called, status]) fine
  | event event next delivered ret tcp magic callback status =>
    have taken := callback.trans running.callback
    have fine := status running.status
    cases event with
    | junk word =>
      have after : Running { m with cli := out.session.cli, net := out.session.net } :=
        ⟨taken, fine⟩
      simp only [delivered, Event.delivery, ret rfl]
      rw [count_running after]
      have failed : (Event.junk word).verdict handlerReturns m.cli.magic =
          some (.returned 1, none) := rfl
      refine .returned ⟨next, (List.append_nil _).symm, magic, ⟨taken, fine⟩, fun _ _ => ⟨tcp, ?_⟩⟩
        failed rfl
      exact (List.append_nil _).symm
    | message received =>
      simp only [delivered, Event.delivery]
      rw [onMsg_verdict, magic]
      cases decided : verdict handlerReturns m.cli.magic received.delivery with
      | none =>
        refine .outside ⟨next, rfl, magic, ⟨taken, fine⟩, fun _ _ => ⟨tcp, ?_⟩⟩ decided
        simp [Event.answer, Event.verdict, decided]
      | some result =>
        obtain ⟨reaction, command⟩ := result
        obtain ⟨sameMagic, sameCallback, sameStatus⟩ :=
          answer_keeps sends out.session.cli m.out command
        -- the answer goes out behind what has been sent, if `send` takes all of it
        have sent : sends = wholeSends → m.cli.tcp.Connected →
            (answer sends out.session.cli m.out command).1.tcp = m.cli.tcp ∧
            (answer sends out.session.cli m.out command).2.stream =
              m.out.stream ++ (Event.message received).answer handlerReturns m.cli.magic := by
          rintro rfl connected
          have same : out.session.cli.tcp.Connected := tcp ▸ connected
          obtain ⟨sameTcp, stream⟩ := answer_whole same m.out command
          refine ⟨sameTcp.trans tcp, ?_⟩
          rw [stream, magic]
          simp [Event.answer, Event.verdict, decided]
        have after : Running { m with
            cli := (answer sends out.session.cli m.out command).1
            net := out.session.net
            out := (answer sends out.session.cli m.out command).2
            calls := m.calls ++ [received.delivery] } :=
              ⟨sameCallback.trans taken, sameStatus ▸ fine⟩
        cases reaction with
        | exited => exact .exited ⟨next, rfl, sameMagic.trans magic, after, sent⟩ decided
        | returned ec =>
          simp only [Option.map_some]
          rw [count_running after]
          exact .returned ⟨next, rfl, sameMagic.trans magic, ⟨after.callback, after.status⟩, sent⟩
            decided rfl

/-! ## All rounds -/

/-- What the loop would handle of its stream if nothing was cut. -/
def ClientMain.attended (handlerReturns : Bool) (m : ClientMain) : LoopEnd × List Event :=
  attend handlerReturns m.cli.magic m.numFails (events m.cli.magic m.net.stream)

/-- The loop has handled the first events of its stream: all that it should, unless its socket
failed.  If `recv` and `send` do all they are asked for, every event is answered, too. -/
structure Serves (handlerReturns : Bool) (kernel : Kernel) (sends : SendKernel) (m : ClientMain)
    (stop : LoopEnd) (after : ClientMain) (handled : List Event) : Prop where
  initial : handled <+: (m.attended handlerReturns).2
  calls : after.calls = m.calls ++ handled.filterMap Event.delivery
  whole : stop ≠ .readMessage → stop ≠ .socketError → (stop, handled) = m.attended handlerReturns
  unbroken : kernel = Segmentation.whole.kernel → sends = wholeSends → m.cli.tcp.Connected →
    (stop, handled) = m.attended handlerReturns ∧
    after.out.stream = m.out.stream ++ handled.flatMap (Event.answer handlerReturns m.cli.magic)

theorem filterMap_delivery (event : Event) (rest : List Event) :
    (event :: rest).filterMap Event.delivery = event.delivery.toList ++
      rest.filterMap Event.delivery := by
  cases event with
  | junk word => rfl
  | message received => rfl

theorem serves_last {m after : ClientMain} {event : Event} {stop : LoopEnd}
    (attended : Attended handlerReturns sends m event after)
    (last : m.attended handlerReturns = (stop, [event])) :
    Serves handlerReturns kernel sends m stop after [event] where
  initial := by rw [last]
  calls := by rw [attended.calls, filterMap_delivery, List.filterMap_nil, List.append_nil]
  whole _ _ := last.symm
  unbroken _ complete connected := by
    refine ⟨last.symm, ?_⟩
    rw [(attended.sent complete connected).2, List.flatMap_singleton]

/-- An event that the loop goes on behind. -/
theorem serves_next {m after last : ClientMain} {event : Event} {stop : LoopEnd}
    {handled : List Event} (attended : Attended handlerReturns sends m event after)
    (later : m.attended handlerReturns =
      ((after.attended handlerReturns).1, event :: (after.attended handlerReturns).2))
    (serves : Serves handlerReturns kernel sends after stop last handled) :
    Serves handlerReturns kernel sends m stop last (event :: handled) where
  initial := by
    rw [later]
    exact (List.prefix_cons_inj event).mpr serves.initial
  calls := by rw [serves.calls, attended.calls, filterMap_delivery, List.append_assoc]
  whole noRead noError := by rw [later, ← serves.whole noRead noError]
  unbroken whole complete connected := by
    obtain ⟨tcp, sent⟩ := attended.sent complete connected
    obtain ⟨same, stream⟩ := serves.unbroken whole complete (tcp ▸ connected)
    refine ⟨by rw [later, ← same], ?_⟩
    rw [stream, sent, attended.magic, List.flatMap_cons, List.append_assoc]

theorem mainLoop_serves (fuel : Nat) (m : ClientMain) (running : Running m)
    (enough : (events m.cli.magic m.net.stream).length < fuel) :
    ∃ stop after handled, mainLoop handlerReturns kernel sends fuel m = some (stop, after) ∧
      Serves handlerReturns kernel sends m stop after handled := by
  -- every round that goes on takes one event, and `enough` counts those that are left
  induction fuel generalizing m with
  | zero => exact absurd enough (Nat.not_lt_zero _)
  | succ fuel inductionHypothesis =>
    rw [mainLoop]
    by_cases guard : m.cli.tcp.ec = 0
    · rw [if_pos guard]
      have step : MainStep handlerReturns kernel sends m _ := mainRound_step m running
      generalize mainRound handlerReturns kernel sends m = result at step
      cases step with
      | broken calls out starved =>
        refine ⟨_, _, [], rfl, List.nil_prefix, by simp [calls], fun wrong => absurd rfl wrong, ?_⟩
        intro whole _ connected
        rw [ClientMain.attended, events_none (starved whole connected), out]
        exact ⟨rfl, (List.append_nil _).symm⟩
      | outside attended decided =>
        refine ⟨_, _, _, rfl, serves_last attended ?_⟩
        rw [ClientMain.attended, events_some attended.next, attend_outside decided]
      | exited attended decided =>
        refine ⟨_, _, _, rfl, serves_last attended ?_⟩
        rw [ClientMain.attended, events_some attended.next, attend_exited decided]
      | @returned event after ec command attended decided numFails =>
        have found := events_some attended.next
        have shape : m.attended handlerReturns = _ :=
          (congrArg (attend handlerReturns m.cli.magic m.numFails) found).trans
            (attend_returned decided numFails _)
        by_cases many : after.numFails > 10
        · rw [if_pos many] at shape
          simp only [if_pos many]
          exact ⟨_, _, _, rfl, serves_last attended shape⟩
        · rw [if_neg many] at shape
          simp only [if_neg many]
          rw [found, List.length_cons] at enough
          obtain ⟨stop, last, handled, ran, serves⟩ :=
            inductionHypothesis after attended.running (by rw [attended.magic]; omega)
          refine ⟨stop, last, event :: handled, ran, serves_next attended ?_ serves⟩
          rw [shape, ClientMain.attended, attended.magic]
    · rw [if_neg guard]
      refine ⟨_, _, [], rfl, List.nil_prefix,
        by simp, fun _ wrong => absurd rfl wrong, fun _ _ connected => ?_⟩
      exact absurd connected.noError guard

/-- A loop that has ended does not do more with more fuel. -/
theorem mainLoop_more {fuel more : Nat} {m : ClientMain} {result : LoopEnd × ClientMain}
    (ran : mainLoop handlerReturns kernel sends fuel m = some result) (order : fuel ≤ more) :
    mainLoop handlerReturns kernel sends more m = some result := by
  induction fuel generalizing m more with
  | zero => cases ran
  | succ fuel inductionHypothesis =>
    obtain ⟨more, rfl⟩ :=
      Nat.exists_eq_add_of_le' (Nat.le_trans (Nat.succ_le_succ (Nat.zero_le fuel)) order)
    rw [mainLoop] at ran ⊢
    split_ifs at ran ⊢ with guard
    · cases round : mainRound handlerReturns kernel sends m with
      | mk after stop =>
        cases stop with
        | none =>
          simp only [round] at ran ⊢
          exact inductionHypothesis ran (Nat.le_of_succ_le_succ order)
        | some stop =>
          simp only [round] at ran ⊢
          exact ran
    · exact ran

theorem events_fuel (m : ClientMain) :
    (events m.cli.magic m.net.stream).length < m.net.stream.length / 4 + 1 := by
  have few := events_length m.cli.magic m.net.stream
  omega

/-- The loop ends, whatever `recv` and `send` return, and serves its stream. -/
theorem mainLoop_ends (handlerReturns : Bool) (kernel : Kernel) (sends : SendKernel)
    (m : ClientMain) (running : Running m) :
    ∃ stop after handled,
      (∀ fuel, m.net.stream.length / 4 < fuel → mainLoop handlerReturns kernel sends fuel m =
        some (stop, after)) ∧
      Serves handlerReturns kernel sends m stop after handled := by
  obtain ⟨stop, after, handled, ran, serves⟩ := mainLoop_serves _ m running (events_fuel m)
  exact ⟨stop, after, handled, fun fuel enough => mainLoop_more ran enough, serves⟩

/-- A client that finds three messages, one of them with a payload. -/
def threeMessages : ClientMain where
  cli := ⟨⟨3, 0⟩, verack.header.magic, [], .ok, (), some noted⟩
  net := ⟨verack.wire ++ ping.wire ++ verack.wire, 0⟩
  out := ⟨[], 0⟩
  numFails := 0
  calls := []

theorem threeMessages_running : Running threeMessages := ⟨rfl, by decide⟩

theorem mainLoop_ends_three :
    ∃ stop after handled,
      mainLoop false Segmentation.whole.kernel wholeSends 21 threeMessages = some (stop, after) ∧
      Serves false Segmentation.whole.kernel wholeSends threeMessages stop after handled := by
  obtain ⟨stop, after, handled, ends, serves⟩ :=
    mainLoop_ends false Segmentation.whole.kernel wholeSends threeMessages threeMessages_running
  exact ⟨stop, after, handled, ends 21 (by decide), serves⟩

/-! ## Junk -/

/-- Words in place of the magic. -/
def Junk (magic : Vector UInt8 4) (words : List (List UInt8)) : Prop :=
  ∀ word ∈ words, word.length = 4 ∧ word ≠ magic.toList

theorem events_junk {magic : Vector UInt8 4} {words : List (List UInt8)} (junk : Junk magic words)
    (rest : List UInt8) :
    events magic (words.flatten ++ rest) = words.map Event.junk ++ events magic rest := by
  induction words with
  | nil => rfl
  | cons word words inductionHypothesis =>
    obtain ⟨length, mismatch⟩ := junk word List.mem_cons_self
    have later := inductionHypothesis fun other member =>
      junk other (List.mem_cons_of_mem word member)
    rw [List.flatten_cons, List.append_assoc, events_some (nextEvent_junk length mismatch _), later]
    rfl

theorem attend_junk (handlerReturns : Bool) (magic : Vector UInt8 4) {numFails : Nat}
    (few : numFails ≤ 10) (words : List (List UInt8)) (rest : List Event) :
    attend handlerReturns magic numFails (words.map Event.junk ++ rest) =
      if 10 < numFails + words.length then (.numFails, (words.take (11 - numFails)).map Event.junk)
      else ((attend handlerReturns magic (numFails + words.length) rest).1,
        words.map Event.junk ++
          (attend handlerReturns magic (numFails + words.length) rest).2) := by
  induction words generalizing numFails with
  | nil =>
    rw [List.length_nil, if_neg (by omega)]
    rfl
  | cons word words inductionHypothesis =>
    have failed : (Event.junk word).verdict handlerReturns magic = some (.returned 1, none) := rfl
    have counted : numFails + 1 = if (1 : Int) ≠ 0 then numFails + 1 else 0 := rfl
    rw [List.map_cons, List.cons_append, attend_returned failed counted, List.length_cons]
    by_cases many : numFails + 1 > 10
    · rw [if_pos many, if_pos (by omega), show 11 - numFails = 1 by omega]
      rfl
    · have length : numFails + 1 + words.length = numFails + (words.length + 1) := by omega
      have left : 11 - numFails = 11 - (numFails + 1) + 1 := by omega
      rw [if_neg many, inductionHypothesis (by omega), length, left, List.take_succ_cons]
      split_ifs
      · rfl
      · rfl

/-- The loop at a later place of its stream, after so many failures in a row. -/
def ClientMain.behind (m : ClientMain) (numFails : Nat) (rest : List UInt8) : ClientMain :=
  { m with net := { m.net with stream := rest }, numFails := numFails }

theorem attended_junk {m : ClientMain} (first : m.numFails = 0) {words : List (List UInt8)}
    (junk : Junk m.cli.magic words) {rest : List UInt8}
    (stream : m.net.stream = words.flatten ++ rest) :
    m.attended handlerReturns =
      if 10 < words.length then (.numFails, (words.take 11).map Event.junk)
      else (((m.behind words.length rest).attended handlerReturns).1,
        words.map Event.junk ++ ((m.behind words.length rest).attended handlerReturns).2) := by
  have shape := attend_junk handlerReturns m.cli.magic (Nat.zero_le 10) words
    (events m.cli.magic rest)
  rw [Nat.zero_add] at shape
  rw [ClientMain.attended, stream, events_junk junk, first, shape]
  rfl

/-- Junk is neither handed to `on_msg` nor answered. -/
theorem filterMap_junk {handled : List Event} {words : List (List UInt8)}
    (inside : handled ⊆ words.map Event.junk) : handled.filterMap Event.delivery = [] := by
  rw [List.filterMap_eq_nil_iff]
  intro event member
  obtain ⟨word, -, rfl⟩ := List.mem_map.mp (inside member)
  rfl

theorem flatMap_junk {magic : Vector UInt8 4} {handled : List Event} {words : List (List UInt8)}
    (inside : handled ⊆ words.map Event.junk) :
    handled.flatMap (Event.answer handlerReturns magic) = [] := by
  rw [List.flatMap_eq_nil_iff]
  intro event member
  obtain ⟨word, -, rfl⟩ := List.mem_map.mp (inside member)
  rfl

/-- A loop that has served its stream has served the part behind the junk, too. -/
theorem serves_behind {m after : ClientMain} {stop : LoopEnd} {handled : List Event}
    (serves : Serves handlerReturns kernel sends m stop after handled) {words : List (List UInt8)}
    {rest : List UInt8}
    (shape : m.attended handlerReturns = (((m.behind words.length rest).attended handlerReturns).1,
      words.map Event.junk ++ ((m.behind words.length rest).attended handlerReturns).2)) :
    Serves handlerReturns kernel sends (m.behind words.length rest) stop after
      (handled.drop words.length) := by
  have length : (words.map Event.junk).length = words.length := List.length_map Event.junk
  have initial := serves.initial
  rw [shape] at initial
  -- the loop may have ended within the junk: then nothing is handled behind it
  have front : handled.take words.length ⊆ words.map Event.junk := by
    have taken := (initial.take words.length).subset
    rwa [List.take_left' length] at taken
  have cut {stop : LoopEnd} (all : (stop, handled) = m.attended handlerReturns) :
      (stop, handled.drop words.length) = (m.behind words.length rest).attended handlerReturns := by
    rw [shape] at all
    obtain ⟨rfl, rfl⟩ := Prod.mk.inj all
    rw [List.drop_left' length]
  refine ⟨?_, ?_, fun noRead noError => cut (serves.whole noRead noError),
    fun whole complete connected => ?_⟩
  · have dropped := initial.drop words.length
    rwa [List.drop_left' length] at dropped
  · have split := congrArg (List.filterMap Event.delivery)
      (List.take_append_drop words.length handled)
    rw [List.filterMap_append, filterMap_junk front, List.nil_append] at split
    rw [split]
    exact serves.calls
  · obtain ⟨all, sent⟩ := serves.unbroken whole complete connected
    have split := congrArg (List.flatMap (Event.answer handlerReturns m.cli.magic))
      (List.take_append_drop words.length handled)
    rw [List.flatMap_append, flatMap_junk front, List.nil_append] at split
    exact ⟨cut all, by rw [sent, ← split]; rfl⟩

/-- Behind up to ten words of junk in a row the loop serves the rest of the stream, with
their number as its count of failures; behind eleven of them nothing is handled, whatever
the stream has to offer. -/
theorem mainLoop_junk (handlerReturns : Bool) (kernel : Kernel) (sends : SendKernel)
    (m : ClientMain) (running : Running m) (first : m.numFails = 0) (words : List (List UInt8))
    (junk : Junk m.cli.magic words) (rest : List UInt8)
    (stream : m.net.stream = words.flatten ++ rest) :
    ∃ stop after handled,
      (∀ fuel, m.net.stream.length / 4 < fuel → mainLoop handlerReturns kernel sends fuel m =
        some (stop, after)) ∧
      (words.length ≤ 10 → Serves handlerReturns kernel sends (m.behind words.length rest)
        stop after handled) ∧
      (10 < words.length → after.calls = m.calls) := by
  have shape : m.attended handlerReturns = _ := attended_junk first junk stream
  obtain ⟨stop, after, handled, ran, serves⟩ := mainLoop_serves _ m running (events_fuel m)
  refine ⟨stop, after, handled.drop words.length, fun fuel enough => mainLoop_more ran enough,
    fun few => ?_, fun many => ?_⟩
  · rw [if_neg (Nat.not_lt.mpr few)] at shape
    exact serves_behind serves shape
  · have inside := serves.initial.subset
    rw [shape, if_pos many] at inside
    rw [serves.calls, filterMap_junk inside, List.append_nil]

/-- Eleven words of zeros in front of a `verack`. -/
theorem mainLoop_junk_zeros :
    ∃ stop after, mainLoop false Segmentation.whole.kernel wholeSends 18
      { threeMessages with
        net := ⟨(List.replicate 11 (List.replicate 4 0)).flatten ++ verack.wire, 0⟩ } =
        some (stop, after) ∧ after.calls = [] := by
  have junk : Junk verack.header.magic (List.replicate 11 (List.replicate 4 0)) := by
    intro word member
    rw [List.eq_of_mem_replicate member]
    decide
  obtain ⟨stop, after, _, ends, -, calls⟩ :=
    mainLoop_junk false Segmentation.whole.kernel wholeSends
      { threeMessages with
        net := ⟨(List.replicate 11 (List.replicate 4 0)).flatten ++ verack.wire, 0⟩ }
      ⟨rfl, by decide⟩ rfl _ junk verack.wire rfl
  exact ⟨stop, after, ends 18 (by decide), calls (by decide)⟩

end NuLab.Client
