import Vuma.Ipc.FrameCorruption

/-!
# Checkpoints

`checkpoint_state` and `restore_state` of `ipc.rs`. The eight checksums of the integrity hash are
taken of the same bytes behind different numbers. Whether two strings of one length leave the same
register does not depend on the register before, so that the first checksum tells all that the
eight tell.
-/

namespace Vuma.Ipc

open Lib Crc
open Vuma.Bd (asBytes)

inductive ProtocolState where
  | idle | waitingForSend | waitingForRecv | closed
  deriving DecidableEq, Repr

def ProtocolState.asTag : ProtocolState → String
  | .idle => "idle"
  | .waitingForSend => "waiting_for_send"
  | .waitingForRecv => "waiting_for_recv"
  | .closed => "closed"

structure ChannelState where
  channelId : UInt64
  sequence : UInt64
  protocolState : ProtocolState
  deriving DecidableEq, Repr

structure Checkpoint where
  pid : UInt64
  channels : List ChannelState
  timestamp : UInt64
  integrityHash : Vector UInt8 32

/-- What is hashed of a channel. -/
def ChannelState.hashInput (ch : ChannelState) : Bytes :=
  leBytes 8 ch.channelId.toNat ++ leBytes 8 ch.sequence.toNat ++ asBytes ch.protocolState.asTag ++
    [0xFF]

def hashInput (channels : List ChannelState) : Bytes := channels.flatMap ChannelState.hashInput

def computeIntegrityHash (channels : List ChannelState) : Vector UInt8 32 :=
  ⟨((List.range 8).flatMap fun lane =>
    leBytes 4 (crc32 (UInt8.ofNat lane :: hashInput channels)).toNat).toArray, by
      simp [length_leBytes]⟩

def checkpointState (channels : List (UInt64 × UInt64 × ProtocolState)) : Checkpoint :=
  let channels := channels.map fun (id, seq, state) => ⟨id, seq, state⟩
  ⟨0, channels, 0, computeIntegrityHash channels⟩

/-- The error of `restore_state`. -/
inductive RestoreError where
  | checkpointIntegrityFailed
  deriving DecidableEq, Repr

def restoreState (checkpoint : Checkpoint) : Except RestoreError (List ChannelState) :=
  if computeIntegrityHash checkpoint.channels ≠ checkpoint.integrityHash then
    .error .checkpointIntegrityFailed
  else .ok checkpoint.channels

/-- What comes before two strings of one length does not matter. -/
theorem crc32_append_eq_iff {a b : Bytes} (h : a.length = b.length) (s : Bytes) :
    crc32 (s ++ a) = crc32 (s ++ b) ↔ crc32 a = crc32 b := by
  have hlen : (bitsOf a).length = (bitsOf b).length := by rw [length_bitsOf, length_bitsOf, h]
  have hfold : ∀ w, ~~~foldBits crcPolynomial w (bitsOf a) =
      ~~~foldBits crcPolynomial w (bitsOf b) ↔
      foldBits crcPolynomial 0 (List.zipWith xor (bitsOf a) (bitsOf b)) = 0 := fun w =>
    ⟨fun heq => (foldBits_eq_iff _ hlen w).mp (not_inj heq),
      fun hz => congrArg _ ((foldBits_eq_iff _ hlen w).mpr hz)⟩
  simp only [crc32_eq, bitsOf, List.flatMap_append, foldBits_append]
  exact (hfold _).trans (hfold _).symm

/-- The eight checksums are right or wrong together. -/
theorem computeIntegrityHash_eq_iff {cs cs' : List ChannelState}
    (h : (hashInput cs).length = (hashInput cs').length) :
    computeIntegrityHash cs = computeIntegrityHash cs' ↔
      crc32 (hashInput cs) = crc32 (hashInput cs') := by
  constructor
  · intro heq
    have hword : ∀ cs, UInt32.ofNat (ofLeBytes ((computeIntegrityHash cs).toList.take 4)) =
        crc32 ([0] ++ hashInput cs) := by
      intro cs
      rw [← ofLeBytes_crc32 (crc32 ([0] ++ hashInput cs))]
      exact congrArg _ (congrArg ofLeBytes (List.take_left' (length_leBytes 4 _)))
    rw [← crc32_append_eq_iff h [0], ← hword, ← hword, heq]
  · intro heq
    have hlane : ∀ lane : UInt8, crc32 (lane :: hashInput cs) = crc32 (lane :: hashInput cs') :=
      fun lane => (crc32_append_eq_iff h [lane]).mpr heq
    simp only [computeIntegrityHash, hlane]

/-- Of a stamped checkpoint the channels come back, whatever the kernel fills in. Other channels that
are hashed from as many bytes come back if the checksum of these is the same; it is another one if
they differ by a burst. Under any other hash nothing comes back. -/
theorem restoreState_checkpointState (channels : List (UInt64 × UInt64 × ProtocolState))
    (pid timestamp : UInt64) :
    let cp := { checkpointState channels with pid, timestamp }
    restoreState cp = .ok cp.channels ∧
      (∀ cs, (hashInput cs).length = (hashInput cp.channels).length →
        restoreState { cp with channels := cs } =
          if crc32 (hashInput cs) = crc32 (hashInput cp.channels) then .ok cs
          else .error .checkpointIntegrityFailed) ∧
      (∀ cs e, (hashInput cp.channels).length = e.length → IsBurst (bitsOf e) →
        hashInput cs = xorBytes (hashInput cp.channels) e →
        restoreState { cp with channels := cs } = .error .checkpointIntegrityFailed) ∧
      ∀ integrityHash, integrityHash ≠ cp.integrityHash →
        restoreState { cp with integrityHash } = .error .checkpointIntegrityFailed := by
  intro cp
  have hhash : cp.integrityHash = computeIntegrityHash cp.channels := rfl
  have hother : ∀ cs, (hashInput cs).length = (hashInput cp.channels).length →
      restoreState { cp with channels := cs } =
        if crc32 (hashInput cs) = crc32 (hashInput cp.channels) then .ok cs
        else .error .checkpointIntegrityFailed := by
    intro cs hlen
    simp only [restoreState, hhash, ne_eq, computeIntegrityHash_eq_iff hlen, ite_not]
  refine ⟨if_neg (not_not_intro rfl), hother, fun cs e hlen he hcs => ?_, fun hash hne =>
    if_pos hne.symm⟩
  rw [hother cs (by rw [hcs, length_xorBytes hlen]), hcs, if_neg (crc32_xorBytes_ne hlen he)]

/-- A checkpoint of one channel, whose identifier is changed, and one whose hash is. -/
theorem restoreState_changed :
    let cp := checkpointState [(1, 5, .idle)]
    restoreState cp = .ok [⟨1, 5, .idle⟩] ∧
      restoreState { cp with channels := [⟨0, 5, .idle⟩] } = .error .checkpointIntegrityFailed ∧
      restoreState { cp with integrityHash := Vector.replicate 32 0 } =
        .error .checkpointIntegrityFailed :=
  have h := restoreState_checkpointState [(1, 5, .idle)] 0 0
  ⟨h.1, h.2.2.1 [⟨0, 5, .idle⟩] (1 :: List.replicate 20 0) (by decide) (isBurst_one 20) (by decide),
    h.2.2.2 (Vector.replicate 32 0) (by decide +kernel)⟩

/-- The hash has 32 bytes, and yet for every channel of every checkpoint there are two sequence
numbers that it does not tell apart. -/
theorem exists_restoreState_eq_ok (before after : List ChannelState) (id : UInt64)
    (state : ProtocolState) (pid timestamp : UInt64) :
    ∃ seq seq' : UInt64, seq ≠ seq' ∧
      restoreState ⟨pid, before ++ ⟨id, seq', state⟩ :: after, timestamp,
        computeIntegrityHash (before ++ ⟨id, seq, state⟩ :: after)⟩ =
          .ok (before ++ ⟨id, seq', state⟩ :: after) := by
  have hcard : Fintype.card (Fin (2 ^ 32)) < Fintype.card (Fin (2 ^ 32 + 1)) := by
    rw [Fintype.card_fin, Fintype.card_fin]
    exact Nat.lt_succ_self _
  obtain ⟨m, n, hne, heq⟩ := Fintype.exists_ne_map_eq_of_card_lt (fun n : Fin (2 ^ 32 + 1) =>
    (crc32 (hashInput (before ++ ⟨id, UInt64.ofNat n, state⟩ :: after))).toFin) hcard
  refine ⟨UInt64.ofNat m, UInt64.ofNat n, fun h => hne (Fin.ext ?_), ?_⟩
  · have hnat := congrArg UInt64.toNat h
    rwa [UInt64.toNat_ofNat_of_lt' (m.2.trans (by decide)),
      UInt64.toNat_ofNat_of_lt' (n.2.trans (by decide))] at hnat
  · refine if_neg (not_not_intro ((computeIntegrityHash_eq_iff ?_).mpr
      (UInt32.toFin_inj.mp heq.symm)))
    simp [hashInput, ChannelState.hashInput, length_leBytes]

end Vuma.Ipc
