import DagWorker.Memory.Snapshot
import Mathlib.Tactic.Common
import Mathlib.Data.List.Basic

/-!
# The files of the file store

The records of the log and their frames on disk: length, checksum and payload; and the
snapshot file.  The encodings and the checksum are left open in a `Codec`.
-/

namespace DagWorker.File

/-- The mutation a record replays.  Bytes past the last named value are kept as
`unknown`. -/
inductive OpKind
  | setScopeConfig
  | sealScope
  | addNodes
  | addEdges
  | removeEdges
  | removeNode
  | cancel
  | cancelScope
  | claim
  | complete
  | extend
  | sweep
  | unknown (v : ℕ)
deriving DecidableEq, Repr

/-- The nondeterminism one command consumed, in the order it was consumed. -/
structure Readings where
  clock : List Int := []
  jitter : List Int := []
deriving DecidableEq, Repr

/-- One mutation and the nondeterminism it consumed. -/
structure Record where
  op : OpKind
  scope : String
  readings : Readings := {}
  config : Option ScopeConfig := none
  specs : List NodeSpec := []
  edges : List Edge := []
  nodeID : String := ""
  ids : List String := []
  policy : CascadePolicy := .reject
  claim : Option ClaimRequest := none
  done : Option CompleteRequest := none
  extend : Option ExtendRequest := none
  limit : Int := 0

/-! ## Frames -/

def putUint32 (x : UInt32) : Bytes :=
  [UInt8.ofNat (x.toNat % 256), UInt8.ofNat (x.toNat / 256 % 256),
    UInt8.ofNat (x.toNat / 65536 % 256), UInt8.ofNat (x.toNat / 16777216 % 256)]

def uint32 : Bytes → UInt32
  | b₀ :: b₁ :: b₂ :: b₃ :: _ =>
    UInt32.ofNat (b₀.toNat + 256 * b₁.toNat + 65536 * b₂.toNat + 16777216 * b₃.toNat)
  | _ => 0

def frameHeaderSize : ℕ := 8

/-- The encodings of records and snapshots, and the checksum. -/
structure Codec where
  crc : Bytes → UInt32
  encode : Record → Bytes
  decode : Bytes → Option Record
  encodeSnapshot : List Memory.ScopeSnapshot → Bytes
  decodeSnapshot : Bytes → Option (List Memory.ScopeSnapshot)
  /-- The frame of a snapshot: its checksum and its data. -/
  encodeFile : UInt32 → Bytes → Bytes
  decodeFile : Bytes → Option (UInt32 × Bytes)

namespace Codec

variable (cdc : Codec)

def frame (r : Record) : Bytes :=
  let payload := cdc.encode r
  putUint32 (UInt32.ofNat payload.length) ++ putUint32 (cdc.crc payload) ++ payload

/-- The records of the intact frames at the front of the data, and the bytes from the
first frame on that is not intact. -/
def readFrames : ℕ → Bytes → List Record × Bytes
  | 0, data => ([], data)
  | fuel + 1, data =>
    if data.length < frameHeaderSize then ([], data)
    else
      let n := (uint32 (data.take 4)).toNat
      let sum := uint32 ((data.drop 4).take 4)
      let body := data.drop frameHeaderSize
      if body.length < n ∨ cdc.crc (body.take n) ≠ sum then ([], data)
      else match cdc.decode (body.take n) with
        | none => ([], data)
        | some r =>
          let (rs, rest) := readFrames fuel (body.drop n)
          (r :: rs, rest)

/-- Every intact record; the length of what follows is what is cut off. -/
def readAll (data : Bytes) : List Record × ℕ :=
  let (rs, rest) := cdc.readFrames data.length data
  (rs, rest.length)

/-- The encoding of the record is short enough for a frame and decodes to it. -/
def RoundTrips (r : Record) : Prop :=
  (cdc.encode r).length < 2 ^ 32 ∧ cdc.decode (cdc.encode r) = some r

/-- The contents of the snapshot file `writeSnapshot` publishes. -/
def snapshotBytes (snap : List Memory.ScopeSnapshot) : Bytes :=
  let data := cdc.encodeSnapshot snap
  cdc.encodeFile (cdc.crc data) data

/-- The snapshot in the file, if there is a usable one. -/
def readSnapshot (file : Option Bytes) : Option (List Memory.ScopeSnapshot) := do
  let raw ← file
  let (crc, data) ← cdc.decodeFile raw
  if cdc.crc data ≠ crc then none else cdc.decodeSnapshot data

/-- The snapshot is read back from its own file. -/
def RoundTripsSnapshot (snap : List Memory.ScopeSnapshot) : Prop :=
  let data := cdc.encodeSnapshot snap
  cdc.decodeFile (cdc.encodeFile (cdc.crc data) data) = some (cdc.crc data, data) ∧
    cdc.decodeSnapshot data = some snap

end Codec

/-! ## What is read back -/

theorem putUint32_length (x : UInt32) : (putUint32 x).length = 4 := rfl

theorem uint32_putUint32 (x : UInt32) (rest : Bytes) : uint32 (putUint32 x ++ rest) = x := by
  have hx : x.toNat < 2 ^ 32 := x.toNat_lt
  simp only [putUint32, uint32, List.cons_append, List.nil_append, UInt8.toNat_ofNat']
  rw [← UInt32.toNat_inj, UInt32.toNat_ofNat']
  omega

namespace Codec

variable {cdc : Codec} {r : Record}
variable {rs : List Record}

theorem frame_length (cdc : Codec) (r : Record) :
    (cdc.frame r).length = frameHeaderSize + (cdc.encode r).length := by
  simp only [frame, frameHeaderSize, List.length_append, putUint32_length]

theorem frame_take_four (cdc : Codec) (r : Record) (rest : Bytes) :
    uint32 ((cdc.frame r ++ rest).take 4) = UInt32.ofNat (cdc.encode r).length := by
  have h : (cdc.frame r ++ rest).take 4 =
      putUint32 (UInt32.ofNat (cdc.encode r).length) ++ [] := by
    simp [frame, putUint32]
  rw [h, uint32_putUint32]

theorem frame_drop_four (rest : Bytes) :
    uint32 (((cdc.frame r ++ rest).drop 4).take 4) = cdc.crc (cdc.encode r) := by
  have h : ((cdc.frame r ++ rest).drop 4).take 4 = putUint32 (cdc.crc (cdc.encode r)) ++ [] := by
    simp [frame, putUint32]
  rw [h, uint32_putUint32]

theorem frame_drop_header (rest : Bytes) :
    (cdc.frame r ++ rest).drop frameHeaderSize = cdc.encode r ++ rest := by
  simp [frame, frameHeaderSize, putUint32]

/-- The loop takes one intact frame. -/
theorem readFrames_frame (hr : cdc.RoundTrips r) (fuel : ℕ) (rest : Bytes) :
    cdc.readFrames (fuel + 1) (cdc.frame r ++ rest) =
      (r :: (cdc.readFrames fuel rest).1, (cdc.readFrames fuel rest).2) := by
  obtain ⟨hlen, hdec⟩ := hr
  have hn : (UInt32.ofNat (cdc.encode r).length).toNat = (cdc.encode r).length := by
    rw [UInt32.toNat_ofNat', Nat.mod_eq_of_lt hlen]
  have hlong : ¬ (cdc.frame r ++ rest).length < frameHeaderSize := by
    rw [List.length_append, frame_length]
    omega
  rw [readFrames, if_neg hlong]
  simp only [frame_take_four, frame_drop_four, frame_drop_header, hn, List.take_left',
    List.drop_left', List.length_append]
  rw [if_neg (by simp), hdec]

/-- A strict prefix of a frame is not taken. -/
theorem readFrames_torn {part : Bytes} (hr : cdc.RoundTrips r) (hpre : part <+: cdc.frame r)
    (hne : part ≠ cdc.frame r) (fuel : ℕ) : cdc.readFrames fuel part = ([], part) := by
  cases fuel with
  | zero => rfl
  | succ fuel =>
    obtain ⟨rest, hrest⟩ := hpre
    have hn : (UInt32.ofNat (cdc.encode r).length).toNat = (cdc.encode r).length := by
      rw [UInt32.toNat_ofNat', Nat.mod_eq_of_lt hr.1]
    have hshort : part.length < frameHeaderSize + (cdc.encode r).length := by
      rw [← frame_length, ← hrest, List.length_append]
      have : rest ≠ [] := fun h => hne (by rw [← hrest, h, List.append_nil])
      have := List.length_pos_of_ne_nil this
      omega
    rw [readFrames]
    split
    · rfl
    rename_i hlong
    -- the header is whole, so the length it announces is that of the full payload
    have hhead : uint32 (part.take 4) = UInt32.ofNat (cdc.encode r).length := by
      rw [← frame_take_four cdc r [], List.append_nil, ← hrest,
        List.take_append_of_le_length (by unfold frameHeaderSize at hlong; omega)]
    simp only [hhead, hn, List.length_drop]
    rw [if_pos (.inl (by omega))]

/-- The log written by a list of records, and then a frame that may be torn. -/
theorem readFrames_frames (hrs : ∀ r ∈ rs, cdc.RoundTrips r) {tail : Bytes} {fuel : ℕ}
    (hfuel : rs.length ≤ fuel) (htail : ∀ fuel, cdc.readFrames fuel tail = ([], tail)) :
    cdc.readFrames fuel (rs.flatMap cdc.frame ++ tail) = (rs, tail) := by
  induction rs generalizing fuel with
  | nil => exact htail fuel
  | cons r rs ih =>
    obtain ⟨fuel, rfl⟩ : ∃ n, fuel = n + 1 := ⟨fuel - 1, by simp at hfuel; omega⟩
    rw [List.flatMap_cons, List.append_assoc,
      readFrames_frame (hrs r (.head _)),
      ih (fun q hq => hrs q (.tail _ hq)) (by simpa using hfuel)]

theorem length_le_flatMap_frame (cdc : Codec) (rs : List Record) :
    rs.length ≤ (rs.flatMap cdc.frame).length := by
  induction rs with
  | nil => simp
  | cons r rs ih =>
    rw [List.flatMap_cons, List.length_append, frame_length, List.length_cons]
    unfold frameHeaderSize
    omega

/-- A log of whole frames is read back in full, up to a torn frame at its end. -/
theorem readAll_frames (hrs : ∀ r ∈ rs, cdc.RoundTrips r) {tail : Bytes}
    (htail : ∀ fuel, cdc.readFrames fuel tail = ([], tail)) :
    cdc.readAll (rs.flatMap cdc.frame ++ tail) = (rs, tail.length) := by
  have hfuel : rs.length ≤ (rs.flatMap cdc.frame ++ tail).length := by
    have := length_le_flatMap_frame cdc rs
    rw [List.length_append]
    omega
  rw [readAll, readFrames_frames hrs hfuel htail]

theorem readFrames_nil (fuel : ℕ) : cdc.readFrames fuel [] = ([], []) := by
  cases fuel <;> rfl

theorem readAll_whole (hrs : ∀ r ∈ rs, cdc.RoundTrips r) :
    cdc.readAll (rs.flatMap cdc.frame) = (rs, 0) := by
  have hread := readAll_frames hrs readFrames_nil
  rwa [List.append_nil] at hread

theorem readSnapshot_snapshotBytes {snap : List Memory.ScopeSnapshot}
    (h : cdc.RoundTripsSnapshot snap) :
    cdc.readSnapshot (some (cdc.snapshotBytes snap)) = some snap := by
  obtain ⟨hfile, hdata⟩ := h
  simp [readSnapshot, snapshotBytes, hfile, hdata]

end Codec

/-! ## A table of records -/

section Table

variable (rs : List Record) (snap : List Memory.ScopeSnapshot)

/-- A codec that numbers the records of one log, and holds one snapshot. -/
def tableCodec : Codec :=
  { crc := fun _ => 0
    encode := fun r =>
      [UInt8.ofNat (rs.findIdx fun q => q.op = r.op && q.readings = r.readings)]
    decode := fun b =>
      match b with
      | [i] => rs[i.toNat]?
      | _ => none
    encodeSnapshot := fun _ => []
    decodeSnapshot := fun _ => some snap
    encodeFile := fun crc data => putUint32 crc ++ data
    decodeFile := fun raw => if raw.length < 4 then none else some (uint32 raw, raw.drop 4) }

theorem tableCodec_roundTrips (hdistinct : (rs.map fun r => (r.op, r.readings)).Nodup)
    (hlen : rs.length < 256) : ∀ r ∈ rs, (tableCodec rs snap).RoundTrips r := by
  intro r hr
  obtain ⟨i, hi, rfl⟩ := List.mem_iff_getElem.mp hr
  have hidx : (rs.findIdx fun q => q.op = rs[i].op && q.readings = rs[i].readings) = i := by
    rw [List.findIdx_eq hi]
    refine ⟨by simp, fun j hj => ?_⟩
    have hne := (List.pairwise_iff_getElem.mp hdistinct) j i (by simp; omega) (by simpa using hi) hj
    simpa using hne
  have hmod : (UInt8.ofNat i).toNat = i := by
    rw [UInt8.toNat_ofNat', Nat.mod_eq_of_lt (by omega)]
  refine ⟨?_, ?_⟩
  · simp [tableCodec]
  · simp only [tableCodec, hidx, hmod, List.getElem?_eq_getElem hi]

theorem tableCodec_roundTripsSnapshot : (tableCodec rs snap).RoundTripsSnapshot snap := by
  refine ⟨?_, rfl⟩
  simp only [tableCodec, List.append_nil]
  rfl

end Table

/-! ## A torn log -/

structure Disk where
  log : Bytes := []
  snapshot : Option Bytes := none
  /-- The snapshot file before it is renamed into place.  Nothing reads it. -/
  tmp : Option Bytes := none

/-- The log without the frames from the first one on that is not intact. -/
def cutLog (cdc : Codec) (disk : Disk) : Disk :=
  { disk with log := disk.log.take (disk.log.length - (cdc.readAll disk.log).2) }

/-- A log that ends in a part of a frame: the whole frames before it are read, the file is
cut down to them, and what is appended then is read after them.  The checksum may be any
function. -/
theorem torn_log_recovered {disk : Disk} {cdc : Codec} {rs : List Record} {r : Record}
    {part : Bytes}
    (hrs : ∀ q ∈ rs, cdc.RoundTrips q) (hr : cdc.RoundTrips r) (hpre : part <+: cdc.frame r)
    (hne : part ≠ cdc.frame r)
    (hdisk : disk.log = rs.flatMap cdc.frame ++ part) :
    cdc.readAll disk.log = (rs, part.length) ∧
      (cutLog cdc disk).log = rs.flatMap cdc.frame ∧
      ∀ more : List Record, (∀ q ∈ more, cdc.RoundTrips q) →
        cdc.readAll ((cutLog cdc disk).log ++ more.flatMap cdc.frame) = (rs ++ more, 0) := by
  have hread : cdc.readAll disk.log = (rs, part.length) := by
    rw [hdisk]
    exact cdc.readAll_frames hrs (cdc.readFrames_torn hr hpre hne)
  have hcut : (cutLog cdc disk).log = rs.flatMap cdc.frame := by
    change disk.log.take (disk.log.length - (cdc.readAll disk.log).2) = _
    rw [hread, hdisk, List.length_append, Nat.add_sub_cancel, List.take_left]
  refine ⟨hread, hcut, ?_⟩
  intro more hmore
  rw [hcut, ← List.flatMap_append]
  exact cdc.readAll_whole fun q hq => (List.mem_append.mp hq).elim (hrs q) (hmore q)

/-- Two records of which five bytes of the second got to the disk. -/
theorem torn_log_recovered_half :
    let rs : List Record := [{ op := .sweep, scope := "s" }, { op := .claim, scope := "s" }]
    let cdc := tableCodec rs []
    cdc.readAll (cdc.frame rs[0] ++ (cdc.frame rs[1]).take 5) = ([rs[0]], 5) := by
  intro rs cdc
  have hrt : ∀ r ∈ rs, cdc.RoundTrips r := tableCodec_roundTrips rs [] (by decide) (by decide)
  have hpart : (cdc.frame rs[1]).take 5 ≠ cdc.frame rs[1] := by decide
  have hfirst : ∀ q ∈ [rs[0]], cdc.RoundTrips q := fun q hq => hrt q (by simp_all)
  have hdisk : ({ log := cdc.frame rs[0] ++ (cdc.frame rs[1]).take 5 } : Disk).log =
      [rs[0]].flatMap cdc.frame ++ (cdc.frame rs[1]).take 5 := by
    rw [List.flatMap_singleton]
  exact (torn_log_recovered hfirst (hrt rs[1] (by simp)) (List.take_prefix 5 _) hpart hdisk).1

end DagWorker.File
