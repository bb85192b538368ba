import Mathlib.Data.Finset.Basic
import Mathlib.Data.Fintype.Card
import NuLab.Client.MainLoop

/-! # A run of `main_client.c`

From `nu_tcp_client_connect`, which tries one address after the other, to
`nu_tcp_client_disconnect`.  A descriptor that a run has opened is closed when it ends.
Without a connection it closes descriptor 0, which it has not opened.
-/

namespace NuLab.Client

open NuLab.CString NuLab.Transaction

/-! ## Descriptors -/

/-- The descriptors that are open in the process. -/
abbrev Descriptors := Finset Nat

/-- `socket` returns the lowest descriptor that is not open. -/
def lowest (fds : Descriptors) : Nat := Nat.find (Infinite.exists_notMem_finset fds)

theorem lowest_notMem (fds : Descriptors) : lowest fds ∉ fds :=
  Nat.find_spec (Infinite.exists_notMem_finset fds)

/-- `errno` behind a call that failed. -/
abbrev Errno := { errno : Int // errno ≠ 0 }

/-- What comes of an address: no socket, no connection, or a connection. -/
inductive Attempt where
  | noSocket (errno : Errno)
  | unreachable (errno : Errno)
  | reached
deriving DecidableEq

/-- The answer of `getaddrinfo`: an error, or a list that is not empty. -/
inductive Resolution where
  | failed (ec : Errno)
  | addresses (first : Attempt) (others : List Attempt)

def Resolution.attempts : Resolution → List Attempt
  | .failed _ => []
  | .addresses first others => first :: others

/-! ## `tcp_client.c` -/

/-- The loop of `nu_tcp_client_connect` over the addresses that are left. -/
def connectLoop (cli : NuTcpClient) :
    List Attempt → Int → Descriptors → Int × NuTcpClient × Descriptors
  | [], ec, fds => (ec, { cli with ec := ec }, fds)
  | .noSocket errno :: addrs, _, fds => connectLoop cli addrs errno fds
  | .unreachable errno :: addrs, _, fds =>
    let sd := lowest fds
    let fds := insert sd fds
    connectLoop cli addrs errno (fds.erase sd)
  | .reached :: _, _, fds =>
    let sd := lowest fds
    (0, { sd := sd, ec := 0 }, insert sd fds)

def connectAny (cli : NuTcpClient) (resolution : Resolution) (fds : Descriptors) :
    Int × NuTcpClient × Descriptors :=
  match resolution with
  | .failed ec => (ec, cli, fds)
  | .addresses first others => connectLoop cli (first :: others) 0 fds

/-- Closing a descriptor that is not open has no effect. -/
def nuTcpClientDisconnect (cli : NuTcpClient) (fds : Descriptors) : NuTcpClient × Descriptors :=
  if cli.sd ≥ 0 then ({ cli with sd := -1 }, fds.erase cli.sd.toNat) else (cli, fds)

/-! ## `main` -/

/-- How the loop of `main` has ended, if it was reached, and the descriptors that are left open; a
program that was ended in the loop does not disconnect. -/
def clientMain (handlerReturns : Bool) (kernel : Kernel) (sends : SendKernel) (mem : Allocator)
    (time : Int64) (magic : Vector UInt8 4) (resolution : Resolution) (stream : List UInt8)
    (fds : Descriptors) (fuel : Nat) :
    Option (Option LoopEnd × Descriptors) :=
  -- `.tcp = {0}`
  let cli : BcClient Unit := ⟨⟨0, 0⟩, magic, [], .ok, (), some noted⟩
  let (ec, tcp, fds) := connectAny cli.tcp resolution fds
  if ec ≠ 0 then some (none, (nuTcpClientDisconnect tcp fds).2)
  else do
    let (ec, cli, out) ← bcHandshake mem sends time { cli with tcp := tcp } ⟨[], 0⟩
    if ec ≠ 0 then some (none, (nuTcpClientDisconnect cli.tcp fds).2)
    else
      let (stop, m) ← mainLoop handlerReturns kernel sends fuel ⟨cli, ⟨stream, 0⟩, out, 0, []⟩
      if stop = .exited ∨ stop = .outside then some (some stop, fds)
      else some (some stop, (nuTcpClientDisconnect m.cli.tcp fds).2)

/-! ## Connecting -/

/-- What the addresses come to together. -/
def connection (fds : Descriptors) : List Attempt → Int → Connection
  | [], ec => .refused ec
  | .noSocket errno :: addrs, _ => connection fds addrs errno
  | .unreachable errno :: addrs, _ => connection fds addrs errno
  | .reached :: _, _ => .opened (lowest fds)

/-- A socket that is not kept is closed again. -/
theorem connectLoop_eq (cli : NuTcpClient) (addrs : List Attempt) (ec : Int) (fds : Descriptors) :
    connectLoop cli addrs ec fds =
      ((nuTcpClientConnect cli (connection fds addrs ec)).1,
        (nuTcpClientConnect cli (connection fds addrs ec)).2,
        if .reached ∈ addrs then insert (lowest fds) fds else fds) := by
  induction addrs generalizing ec with
  | nil => rfl
  | cons addr addrs inductionHypothesis =>
    cases addr with
    | noSocket errno => simp [connectLoop, connection, inductionHypothesis]
    | unreachable errno =>
      -- the descriptor was not open before, so that closing it leaves the others
      have closed : (insert (lowest fds) fds).erase (lowest fds) = fds :=
        Finset.erase_insert (lowest_notMem fds)
      simp [connectLoop, connection, closed, inductionHypothesis]
    | reached => simp [connectLoop, connection, nuTcpClientConnect]

theorem connection_reached {fds : Descriptors} {addrs : List Attempt} (reached : .reached ∈ addrs)
    (ec : Int) : connection fds addrs ec = .opened (lowest fds) := by
  induction addrs generalizing ec with
  | nil => cases reached
  | cons addr addrs inductionHypothesis =>
    cases addr with
    | reached => rfl
    | noSocket errno =>
      exact inductionHypothesis ((List.mem_cons.mp reached).resolve_left (by simp)) errno
    | unreachable errno =>
      exact inductionHypothesis ((List.mem_cons.mp reached).resolve_left (by simp)) errno

/-- The error of the last address. -/
theorem connection_refused {fds : Descriptors} {addrs : List Attempt} (unreached : .reached ∉ addrs)
    (some : addrs ≠ []) (ec : Int) : ∃ errno : Errno, connection fds addrs ec = .refused errno := by
  induction addrs generalizing ec with
  | nil => exact absurd rfl some
  | cons addr addrs inductionHypothesis =>
    rw [List.mem_cons, not_or] at unreached
    cases addr with
    | reached => exact absurd rfl unreached.1
    | noSocket errno =>
      by_cases last : addrs = []
      · subst last
        exact ⟨errno, rfl⟩
      · exact inductionHypothesis unreached.2 last errno
    | unreachable errno =>
      by_cases last : addrs = []
      · subst last
        exact ⟨errno, rfl⟩
      · exact inductionHypothesis unreached.2 last errno

/-- With a connection, the one more descriptor is that of the client; else there is an
error, and nothing changes. -/
theorem connectAny_cases (cli : NuTcpClient) (resolution : Resolution) (fds : Descriptors) :
    (.reached ∈ resolution.attempts ∧
        connectAny cli resolution fds = (0, ⟨lowest fds, 0⟩, insert (lowest fds) fds)) ∨
      (.reached ∉ resolution.attempts ∧ ∃ (ec : Errno) (after : NuTcpClient),
        connectAny cli resolution fds = (ec.val, after, fds) ∧ after.sd = cli.sd) := by
  cases resolution with
  | failed ec => exact Or.inr ⟨List.not_mem_nil, ec, cli, rfl, rfl⟩
  | addresses first others =>
    by_cases reached : .reached ∈ first :: others
    · refine Or.inl ⟨reached, ?_⟩
      rw [connectAny, connectLoop_eq, connection_reached reached, if_pos reached]
      rfl
    · obtain ⟨errno, refused⟩ := @connection_refused fds _ reached (List.cons_ne_nil _ _) 0
      refine Or.inr ⟨reached, errno, { cli with ec := errno }, ?_, rfl⟩
      rw [connectAny, connectLoop_eq, refused, if_neg reached]
      rfl

/-! ## The descriptor of the client -/

theorem nuTcpClientRecv_sd (kernel : Kernel) (cli : NuTcpClient) (net : Network) (num : Nat) :
    (nuTcpClientRecv kernel cli net num).2.1.sd = cli.sd := by
  unfold nuTcpClientRecv
  split
  · rfl
  · split
    · rfl
    · rfl

theorem nuTcpClientSend_sd (sends : SendKernel) (cli : NuTcpClient) (out : Outgoing)
    (msg : List UInt8) : (nuTcpClientSend sends cli out msg).2.1.sd = cli.sd := by
  unfold nuTcpClientSend
  split
  · rfl
  · split
    · rfl
    · rfl

theorem bcClientRecvMessageHeader_sd (kernel : Kernel) (s : Session Unit) (hdr : List UInt8) :
    (bcClientRecvMessageHeader kernel s hdr).2.2.cli.tcp.sd = s.cli.tcp.sd ∧
      (bcClientRecvMessageHeader kernel s hdr).2.2.cli.onMsg = s.cli.onMsg := by
  unfold bcClientRecvMessageHeader
  have first := nuTcpClientRecv_sd kernel s.cli.tcp s.net 4
  generalize nuTcpClientRecv kernel s.cli.tcp s.net 4 = received at first
  obtain ⟨word, tcp, net⟩ := received
  dsimp only at first ⊢
  have second := nuTcpClientRecv_sd kernel tcp net 20
  generalize nuTcpClientRecv kernel tcp net 20 = received at second
  obtain ⟨back, tcp', net'⟩ := received
  dsimp only at first second ⊢
  split_ifs
  · exact ⟨first, rfl⟩
  · exact ⟨first, rfl⟩
  · exact ⟨second.trans first, rfl⟩
  · exact ⟨second.trans first, rfl⟩

theorem deliver_sd {s : Session Unit} (callback : s.cli.onMsg = some noted) (delivery : Delivery) :
    (deliver s delivery).session.cli.tcp.sd = s.cli.tcp.sd := by
  rw [deliver_noted callback]

theorem bcClientNextMessage_sd (kernel : Kernel) (s : Session Unit)
    (callback : s.cli.onMsg = some noted) :
    (bcClientNextMessage kernel s).session.cli.tcp.sd = s.cli.tcp.sd := by
  unfold bcClientNextMessage
  obtain ⟨first, same⟩ := bcClientRecvMessageHeader_sd kernel s (List.replicate 24 0)
  generalize bcClientRecvMessageHeader kernel s (List.replicate 24 0) = received at first same
  obtain ⟨ec, image, s'⟩ := received
  dsimp only at first same ⊢
  have taken := same.trans callback
  split
  next image' s'' header =>
    cases header
    have second := nuTcpClientRecv_sd kernel s'.cli.tcp s'.net
      (BcMessageHeader.ofImage image).size.toNat
    generalize nuTcpClientRecv kernel s'.cli.tcp s'.net (BcMessageHeader.ofImage image).size.toNat =
      received at second
    obtain ⟨data, tcp, net⟩ := received
    dsimp only at second ⊢
    split_ifs
    · exact second.trans first
    · rw [deliver_sd]
      · exact second.trans first
      · exact taken
    · rw [deliver_sd]
      · exact first
      · exact taken
  next ec' image' s'' header =>
    cases header
    exact first

theorem answer_sd (sends : SendKernel) (cli : BcClient Unit) (out : Outgoing)
    (command : Option (List UInt8)) :
    (answer sends cli out command).1.tcp.sd = cli.tcp.sd := by
  cases command with
  | none => rfl
  | some command => exact nuTcpClientSend_sd sends cli.tcp out _

theorem count_sd (m : ClientMain) (ec : Int) : (m.count ec).1.cli.tcp.sd = m.cli.tcp.sd := by
  unfold ClientMain.count
  dsimp only
  split_ifs
  all_goals rfl

theorem mainRound_sd (handlerReturns : Bool) (kernel : Kernel) (sends : SendKernel) (m : ClientMain)
    (callback : m.cli.onMsg = some noted) :
    (mainRound handlerReturns kernel sends m).1.cli.tcp.sd = m.cli.tcp.sd := by
  have received := bcClientNextMessage_sd kernel ⟨m.cli, m.net⟩ callback
  unfold mainRound
  generalize bcClientNextMessage kernel ⟨m.cli, m.net⟩ = out at received
  dsimp only at received ⊢
  cases out.delivered with
  | none => exact (count_sd _ _).trans received
  | some delivery =>
    simp only [onMsg_verdict]
    cases verdict handlerReturns out.session.cli.magic delivery with
    | none => exact received
    | some result =>
      obtain ⟨reaction, command⟩ := result
      have sent := (answer_sd sends out.session.cli m.out command).trans received
      cases reaction with
      | exited => exact sent
      | returned ec => exact (count_sd _ _).trans sent

theorem mainLoop_sd {handlerReturns : Bool} {kernel : Kernel} {sends : SendKernel} {fuel : Nat}
    {m after : ClientMain} {stop : LoopEnd} (running : Running m)
    (ran : mainLoop handlerReturns kernel sends fuel m = some (stop, after)) :
    after.cli.tcp.sd = m.cli.tcp.sd := by
  induction fuel generalizing m with
  | zero => cases ran
  | succ fuel inductionHypothesis =>
    rw [mainLoop] at ran
    split_ifs at ran with guard
    · have same := mainRound_sd handlerReturns kernel sends m running.callback
      have step : MainStep handlerReturns kernel sends m _ := mainRound_step m running
      generalize mainRound handlerReturns kernel sends m = result at same step ran
      cases step with
      | broken calls out starved =>
        cases ran
        exact same
      | outside attended decided =>
        cases ran
        exact same
      | exited attended decided =>
        cases ran
        exact same
      | returned attended decided numFails =>
        split_ifs at ran
        · cases ran
          exact same
        · exact (inductionHypothesis attended.running ran).trans same
    · cases ran
      rfl

/-- With 0 as the result, the loop of `main` can start. -/
theorem sendBoth_keeps (sends : SendKernel) (cli : BcClient Unit) (out : Outgoing)
    (header : BcMessageHeader) :
    (sendBoth sends cli out header).2.1.tcp.sd = cli.tcp.sd ∧
      ((sendBoth sends cli out header).1 = 0 →
        (sendBoth sends cli out header).2.1.onMsg = cli.onMsg ∧
        (sendBoth sends cli out header).2.1.status = .ok) := by
  unfold sendBoth
  have first := nuTcpClientSend_sd sends cli.tcp out header.bytes
  generalize nuTcpClientSend sends cli.tcp out header.bytes = sent at first
  obtain ⟨count, tcp, out⟩ := sent
  dsimp only at first ⊢
  have second := nuTcpClientSend_sd sends tcp out cli.sbuf
  generalize nuTcpClientSend sends tcp out cli.sbuf = sent at second
  obtain ⟨count, tcp', out⟩ := sent
  dsimp only at second ⊢
  split_ifs with headerError payloadError ok
  · exact ⟨first, fun success => absurd success one_ne_zero⟩
  · exact ⟨second.trans first, fun success => absurd success one_ne_zero⟩
  · exact ⟨second.trans first, fun _ => ⟨rfl, ok⟩⟩
  · exact ⟨second.trans first, fun success => absurd success one_ne_zero⟩

/-! ## A whole run -/

/-- The descriptors behind a run that has ended in this way. -/
def left (resolution : Resolution) (fds : Descriptors) (stop : Option LoopEnd) : Descriptors :=
  if .reached ∈ resolution.attempts then
    if stop = some .exited ∨ stop = some .outside then insert (lowest fds) fds else fds
  else fds.erase 0

theorem disconnect_opened {tcp : NuTcpClient} {fds : Descriptors} (sd : tcp.sd = lowest fds) :
    (nuTcpClientDisconnect tcp (insert (lowest fds) fds)).2 = fds := by
  have opened : tcp.sd ≥ 0 := sd ▸ Int.natCast_nonneg _
  rw [nuTcpClientDisconnect, if_pos opened, sd, Int.toNat_natCast]
  exact Finset.erase_insert (lowest_notMem fds)

/-- Every run ends, and closes what it has opened unless it is ended by a handler.  A run without a
connection closes descriptor 0. -/
theorem clientMain_descriptors (handlerReturns : Bool) (kernel : Kernel) (sends : SendKernel)
    (fresh : Nat → Nat → UInt8) (time : Int64) (magic : Vector UInt8 4) (resolution : Resolution)
    (stream : List UInt8) (fds : Descriptors) :
    ∃ stop, ∀ fuel, stream.length / 4 < fuel →
      clientMain handlerReturns kernel sends (served fresh) time magic resolution stream fds fuel =
        some (stop, left resolution fds stop) := by
  obtain ⟨reached, connected⟩ | ⟨unreached, ec, after, refused, same⟩ :=
    connectAny_cases ⟨0, 0⟩ resolution fds
  · let cli : BcClient Unit := ⟨⟨lowest fds, 0⟩, magic, [], .ok, (), some noted⟩
    have handshake := bcClientSendVersion_eq fresh sends time cli ⟨[], 0⟩
    obtain ⟨sd, started⟩ :=
      sendBoth_keeps sends { cli with sbuf := (msgVerData time).bytes } ⟨[], 0⟩
      (versionMessage cli.magic time).header
    generalize sendBoth sends { cli with sbuf := (msgVerData time).bytes } ⟨[], 0⟩
      (versionMessage cli.magic time).header = sent at handshake sd started
    obtain ⟨ec, cli', out⟩ := sent
    have run : ∀ fuel, clientMain handlerReturns kernel sends (served fresh) time magic
      resolution stream fds fuel =
        if ec ≠ 0 then some (none, (nuTcpClientDisconnect cli'.tcp (insert (lowest fds) fds)).2)
        else (mainLoop handlerReturns kernel sends fuel ⟨cli', ⟨stream, 0⟩, out, 0, []⟩).bind
          fun (stop, m) =>
          if stop = .exited ∨ stop = .outside then some (some stop, insert (lowest fds) fds)
          else some (some stop, (nuTcpClientDisconnect m.cli.tcp (insert (lowest fds) fds)).2) := by
      intro fuel
      simp only [clientMain, connected, bcHandshake]
      rw [if_neg (by decide)]
      exact congrArg (Option.bind · _) handshake
    by_cases failed : ec ≠ 0
    · refine ⟨none, fun fuel _ => ?_⟩
      rw [run, if_pos failed, disconnect_opened sd, left, if_pos reached, if_neg (by simp)]
    · obtain ⟨callback, status⟩ := started (not_not.mp failed)
      have running : Running ⟨cli', ⟨stream, 0⟩, out, 0, []⟩ := ⟨callback, by rw [status]; decide⟩
      obtain ⟨stop, m, -, ran, -⟩ := mainLoop_serves _ _ running (events_fuel _)
      refine ⟨some stop, fun fuel enough => ?_⟩
      have ends := mainLoop_more ran enough
      rw [run, if_neg failed, ends, Option.bind_some, left, if_pos reached]
      dsimp only
      by_cases ended : stop = .exited ∨ stop = .outside
      · rw [if_pos ended, if_pos (by simpa using ended)]
      · have kept := (mainLoop_sd running ends).trans sd
        rw [if_neg ended, if_neg (by simpa using ended), disconnect_opened kept]
  · refine ⟨none, fun fuel _ => ?_⟩
    -- `sd` still has the 0 of `.tcp = {0}`, which passes for a descriptor
    have closed : (nuTcpClientDisconnect after fds).2 = fds.erase 0 := by
      have zero : after.sd ≥ 0 := same ▸ le_rfl
      rw [nuTcpClientDisconnect, if_pos zero, same]
      rfl
    simp only [clientMain, refused]
    rw [if_pos ec.property, closed, left, if_neg unreached]

end NuLab.Client
