import Vuma.Lib.Codec

/-!
# The seccomp filter of a worker

`generate_seccomp_filter` writes a classic BPF program as bytes, `install_seccomp_filter_bpf` reads
it back as instructions. The program loads the number of the system call, compares it with the
allowed numbers one after the other, and returns what is to be done with the call.
-/

namespace Vuma.Ipc

open Lib

inductive TrustLevel where
  | kernel | verified | untrusted | sandboxed
  deriving DecidableEq, Repr

structure WorkerConfig where
  trustLevel : TrustLevel
  maxRestarts : UInt32
  timeoutMs : UInt64
  deriving DecidableEq, Repr

def allowedSyscalls : TrustLevel → List UInt32
  | .kernel => (List.range 512).map UInt32.ofNat
  | .verified => [0, 1, 2, 3, 9, 10, 11, 12, 13, 14, 22, 39, 56, 57, 59, 60, 61, 62, 63, 64, 72, 78,
      79, 80, 89, 90, 97, 102, 107, 108, 202, 257]
  | .untrusted => [0, 1, 3, 9, 12, 60]
  | .sandboxed => [60]

def seccompRetAllow : UInt32 := 0x7fff0000

/-- `SECCOMP_RET_KILL_THREAD`. -/
def seccompRetKill : UInt32 := 0

/-- The bytes for one allowed system call. -/
def allowBytes (nr : UInt32) : Bytes :=
  [0x15, 0x00, 0x01, 0x00] ++ leBytes 4 nr.toNat ++
    ([0x06, 0x00, 0x00, 0x00] ++ leBytes 4 seccompRetAllow.toNat)

def generateSeccompFilter (config : WorkerConfig) : Bytes :=
  [0x20, 0x00, 0x00, 0x00, 0x00, 0x00, 0x00, 0x00] ++
    (allowedSyscalls config.trustLevel).flatMap allowBytes ++
    [0x06, 0x00, 0x00, 0x00, 0x00, 0x00, 0x00, 0x00]

/-! ## The installed program -/

structure SockFilter where
  code : UInt16
  jt : UInt8
  jf : UInt8
  k : UInt32
  deriving DecidableEq, Repr

/-- `filter.chunks_exact(8)` of `install_seccomp_filter_bpf`, as instructions. -/
def decodeFilter : Bytes → List SockFilter
  | b₀ :: b₁ :: b₂ :: b₃ :: b₄ :: b₅ :: b₆ :: b₇ :: rest =>
    ⟨UInt16.ofNat (ofLeBytes [b₀, b₁]), b₂, b₃, UInt32.ofNat (ofLeBytes [b₄, b₅, b₆, b₇])⟩ ::
      decodeFilter rest
  | _ => []

/-- Run a program on the system call `nr`, from its first instruction on, with `acc` in the
accumulator. There is no result when a jump leaves the program or an instruction is none of
`BPF_LD | BPF_W | BPF_ABS` at the number, `BPF_JMP | BPF_JEQ | BPF_K` and `BPF_RET | BPF_K`. -/
def runFilter (nr acc : UInt32) : List SockFilter → Option UInt32
  | [] => none
  | i :: rest =>
    if i.code = 0x20 ∧ i.k = 0 then runFilter nr nr rest
    else if i.code = 0x15 then runFilter nr acc (rest.drop (if acc = i.k then i.jt else i.jf).toNat)
    else if i.code = 0x06 then some i.k
    else none
  termination_by prog => prog.length
  decreasing_by
    · simp
    · simp only [List.length_drop, List.length_cons]
      omega

/-- What the installed filter does with a system call. -/
def filterResult (config : WorkerConfig) (nr : UInt32) : Option UInt32 :=
  runFilter nr 0 (decodeFilter (generateSeccompFilter config))

/-! ## What the program does -/

/-- The instructions for one allowed system call. -/
def allowInstrs (nr : UInt32) : List SockFilter := [⟨0x15, 1, 0, nr⟩, ⟨0x06, 0, 0, seccompRetAllow⟩]

theorem ofLeBytes_toNat (nr : UInt32) : UInt32.ofNat (ofLeBytes (leBytes 4 nr.toNat)) = nr := by
  rw [ofLeBytes_leBytes nr.toNat_lt, UInt32.ofNat_toNat]

theorem decodeFilter_allowBytes (nr : UInt32) (rest : Bytes) :
    decodeFilter (allowBytes nr ++ rest) = allowInstrs nr ++ decodeFilter rest := by
  have hnr := ofLeBytes_toNat nr
  have hallow := ofLeBytes_toNat seccompRetAllow
  simp only [leBytes] at hnr hallow
  simp only [allowBytes, leBytes, List.cons_append, List.nil_append, decodeFilter, hnr, hallow]
  rfl

theorem decodeFilter_flatMap (nrs : List UInt32) (rest : Bytes) :
    decodeFilter (nrs.flatMap allowBytes ++ rest) = nrs.flatMap allowInstrs ++ decodeFilter rest := by
  induction nrs with
  | nil => rfl
  | cons nr nrs ih =>
    rw [List.flatMap_cons, List.flatMap_cons, List.append_assoc, List.append_assoc,
      decodeFilter_allowBytes, ih]

theorem runFilter_ret (nr acc k : UInt32) (rest : List SockFilter) :
    runFilter nr acc (⟨0x06, 0, 0, k⟩ :: rest) = some k := by
  rw [runFilter, if_neg (by simp), if_neg (by simp), if_pos rfl]

/-- A number that is not the compared one goes on with the next instruction, which allows the call;
the compared one skips it. -/
theorem runFilter_allowInstrs (nr a : UInt32) (rest : List SockFilter) :
    runFilter nr nr (allowInstrs a ++ rest) =
      if nr = a then runFilter nr nr rest else some seccompRetAllow := by
  rw [allowInstrs, List.cons_append, runFilter, if_neg (by simp), if_pos rfl]
  split
  · rfl
  · exact runFilter_ret nr nr seccompRetAllow rest

theorem runFilter_flatMap (nr : UInt32) (nrs : List UInt32) :
    runFilter nr nr (nrs.flatMap allowInstrs ++ [⟨0x06, 0, 0, seccompRetKill⟩]) =
      some (if ∀ a ∈ nrs, nr = a then seccompRetKill else seccompRetAllow) := by
  induction nrs with
  | nil =>
    have hall : ∀ a ∈ ([] : List UInt32), nr = a := fun _ ha => by cases ha
    rw [List.flatMap_nil, List.nil_append, runFilter_ret, if_pos hall]
  | cons a nrs ih =>
    rw [List.flatMap_cons, List.append_assoc, runFilter_allowInstrs]
    by_cases ha : nr = a
    · rw [if_pos ha, ih]
      simp [ha]
    · rw [if_neg ha, if_neg fun h => ha (h a (List.mem_cons_self ..))]

theorem filterResult_eq (config : WorkerConfig) (nr : UInt32) :
    filterResult config nr = some
      (if ∀ a ∈ allowedSyscalls config.trustLevel, nr = a then seccompRetKill
        else seccompRetAllow) := by
  rw [filterResult, generateSeccompFilter, List.append_assoc]
  simp only [List.cons_append, List.nil_append, decodeFilter, decodeFilter_flatMap]
  rw [runFilter, if_pos ⟨rfl, rfl⟩]
  exact runFilter_flatMap nr _

theorem kill_iff (trust : TrustLevel) (nr : UInt32) :
    (∀ a ∈ allowedSyscalls trust, nr = a) ↔ trust = .sandboxed ∧ nr = 60 := by
  constructor
  · intro h
    cases trust with
    | sandboxed => exact ⟨rfl, h 60 (by decide)⟩
    | kernel =>
      have h0 := h 0 (List.mem_map.mpr ⟨0, by simp, rfl⟩)
      have h1 := h 1 (List.mem_map.mpr ⟨1, by simp, rfl⟩)
      rw [h0] at h1
      cases h1
    | verified | untrusted =>
      have h0 := h 0 (by decide)
      have h1 := h 1 (by decide)
      rw [h0] at h1
      cases h1
  · rintro ⟨rfl, rfl⟩ a ha
    exact (List.mem_singleton.mp ha).symm

/-- The filter does what the list says for the system calls in the list of a worker that is not
sandboxed, and for no others: the comparison jumps when the numbers are equal where it should jump
when they differ. -/
theorem filterResult_iff (config : WorkerConfig) (nr : UInt32) :
    filterResult config nr = some
        (if nr ∈ allowedSyscalls config.trustLevel then seccompRetAllow else seccompRetKill) ↔
      config.trustLevel ≠ .sandboxed ∧ nr ∈ allowedSyscalls config.trustLevel := by
  have hne : seccompRetAllow ≠ seccompRetKill := by decide
  simp only [filterResult_eq, Option.some.injEq, kill_iff]
  by_cases hs : config.trustLevel = .sandboxed
  · rw [hs]
    by_cases hnr : nr = 60
    · simp [hnr, allowedSyscalls, hne.symm]
    · simp [hnr, allowedSyscalls, hne]
  · by_cases hin : nr ∈ allowedSyscalls config.trustLevel
    · simp [hs, hin]
    · simp [hs, hin, hne]

/-- An untrusted worker can open files. -/
theorem filterResult_untrusted_open :
    ¬ ∀ (config : WorkerConfig) (nr : UInt32), filterResult config nr = some
      (if nr ∈ allowedSyscalls config.trustLevel then seccompRetAllow else seccompRetKill) := by
  intro h
  have hopen := h ⟨.untrusted, 3, 10000⟩ 2
  have hother : ¬ ∀ a ∈ allowedSyscalls .untrusted, (2 : UInt32) = a := fun hall =>
    absurd (hall 0 List.mem_cons_self) (by decide)
  have hnot : (2 : UInt32) ∉ allowedSyscalls .untrusted := by decide +kernel
  rw [filterResult_eq, if_neg hother, if_neg hnot] at hopen
  cases hopen

end Vuma.Ipc
