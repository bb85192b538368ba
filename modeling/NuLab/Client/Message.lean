import NuLab.Client.Segmentation
import NuLab.Lib.CString
import NuLab.Sha256.Digest
import NuLab.Transaction.Writes

/-! # The messages a client makes: `bc_message.h`

The payload of `version`, which `bc_append_version_message_payload` writes.
-/

namespace NuLab.Client

open NuLab.Bytes NuLab.CString NuLab.Transaction

/-! ## The payload of `version` -/

/-- `bc_net_addr_t` -/
structure BcNetAddr where
  services : UInt64
  ip : Vector UInt8 16
  port : UInt16
deriving DecidableEq

def BcNetAddr.zero : BcNetAddr := ⟨0, Vector.replicate 16 0, 0⟩

/-- `bc_version_message_payload_t` -/
structure BcVersionMessagePayload where
  version : Int32
  serviceFlags : UInt64
  time : Int64
  addrRecv : BcNetAddr
  addrFrom : BcNetAddr
  nonce : UInt64
  userAgentSize : UInt32
  userAgentData : List UInt8
  startHeight : Int32
deriving DecidableEq

def bcAppendNetAddr (ptr : BcNetAddr) : Encoder Int := do
  if ← nuBufferExtend 32 then
    let _ ← bcAppendU64 ptr.services
    let _ ← bcAppendBytes ptr.ip.toList 16
    let _ ← bcAppendU16 ptr.port
    return 0
  return -1

def bcAppendVersionMessagePayload (ptr : BcVersionMessagePayload) : Encoder Int := do
  if ← nuBufferExtend (120 + ptr.userAgentSize).toNat then
    let _ ← bcAppendI32 ptr.version
    let _ ← bcAppendU64 ptr.serviceFlags
    let _ ← bcAppendI64 ptr.time
    let _ ← bcAppendNetAddr ptr.addrRecv
    let _ ← bcAppendNetAddr ptr.addrFrom
    let _ ← bcAppendU64 ptr.nonce
    let _ ← bcAppendVarint ptr.userAgentSize.toUInt64
    if ptr.userAgentSize > 0 then
      let _ ← bcAppendBytes ptr.userAgentData ptr.userAgentSize.toUInt64
    let _ ← bcAppendI32 ptr.startHeight
    return 0
  return -1

def BcNetAddr.bytes (addr : BcNetAddr) : List UInt8 :=
  toLE 8 addr.services.toNat ++ (addr.ip.toList ++ toLE 2 addr.port.toNat)

/-- The bytes of a payload without user agent. -/
def BcVersionMessagePayload.bytes (payload : BcVersionMessagePayload) : List UInt8 :=
  toLE 4 payload.version.toUInt32.toNat ++ (toLE 8 payload.serviceFlags.toNat ++
    (toLE 8 payload.time.toUInt64.toNat ++ (payload.addrRecv.bytes ++ (payload.addrFrom.bytes ++
      (toLE 8 payload.nonce.toNat ++ (varint 0 ++ toLE 4 payload.startHeight.toUInt32.toNat))))))

theorem BcNetAddr.bytes_length (addr : BcNetAddr) : addr.bytes.length = 26 := by
  simp [BcNetAddr.bytes]

theorem BcVersionMessagePayload.bytes_length (payload : BcVersionMessagePayload) :
    payload.bytes.length = 85 := by
  have noAgent : (varint 0).length = 1 := rfl
  simp [BcVersionMessagePayload.bytes, BcNetAddr.bytes_length, noAgent]

theorem writes_bcAppendNetAddr (addr : BcNetAddr) :
    Writes (bcAppendNetAddr addr) (some addr.bytes) 0 := by
  have ip : Writes (bcAppendBytes addr.ip.toList 16) (some addr.ip.toList) 1 :=
    writes_counted (by simp)
  have port : Writes (bcAppendU16 addr.port) (some (toLE 2 addr.port.toNat)) 0 :=
    writes_appendInteger 2 addr.port.toNat
  exact (writes_nuBufferExtend 32).append
    ((writes_bcAppendU64 addr.services).append (ip.append (port.last 0)))

theorem writes_bcAppendVersionMessagePayload (payload : BcVersionMessagePayload)
    (noAgent : payload.userAgentSize = 0) :
    Writes (bcAppendVersionMessagePayload payload) (some payload.bytes) 0 := by
  have version := writes_appendInteger 4 payload.version.toUInt32.toNat
  have time := writes_appendInteger 8 payload.time.toUInt64.toNat
  have height := writes_appendInteger 4 payload.startHeight.toUInt32.toNat
  have last : Writes (if payload.userAgentSize > 0 then (do
      let _ ← bcAppendBytes payload.userAgentData payload.userAgentSize.toUInt64
      let _ ← bcAppendI32 payload.startHeight
      return 0) else (do
      let _ ← bcAppendI32 payload.startHeight
      return 0) : Encoder Int) (some (toLE 4 payload.startHeight.toUInt32.toNat)) 0 := by
    rw [if_neg (by rw [noAgent]; decide)]
    exact height.last 0
  have agent : Writes (bcAppendVarint payload.userAgentSize.toUInt64) (some (varint 0)) 0 := by
    rw [noAgent]
    exact writes_bcAppendVarint 0
  exact (writes_nuBufferExtend _).append (version.append
    ((writes_bcAppendU64 payload.serviceFlags).append (time.append
      ((writes_bcAppendNetAddr payload.addrRecv).append
        ((writes_bcAppendNetAddr payload.addrFrom).append
          ((writes_bcAppendU64 payload.nonce).append (agent.append last)))))))

end NuLab.Client
