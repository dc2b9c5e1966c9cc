import BitprimNetwork.Basic

/-!
# The wire: headings, buffers and socket reads

A frame is a 24-byte heading and a payload (spec §6).  `heading::factory_from_data` reads the heading's fields
from fixed offsets, the numbers little-endian; it reads back every heading the serializer writes
(`Heading.fromData_toData`).  A `data_chunk` is a byte vector with a capacity that a `resize`
within it keeps.  `async_read` is asio's composed read: it calls `read_some` until the buffer is full, each call
taking what the transport has delivered up to the room left, and completes with `eof` when the stream ends first.
What it reads depends only on the bytes and not on how the transport cut them into segments (`asyncRead_join`).
-/

namespace BitprimNetwork

/-- The natural number with the given little-endian bytes. -/
def fromLittleEndian : List UInt8 → Nat
  | [] => 0
  | b :: bs => b.toNat + 256 * fromLittleEndian bs

/-- Modelled from the spec: the `n` little-endian bytes of `value` (§6), as the serializer writes the numbers of a
heading. -/
def toLittleEndian : Nat → Nat → List UInt8
  | 0, _ => []
  | n + 1, value => UInt8.ofNat (value % 256) :: toLittleEndian n (value / 256)

@[simp] theorem length_toLittleEndian (n value : Nat) : (toLittleEndian n value).length = n := by
  induction n generalizing value with
  | zero => rfl
  | succ n ih => simp only [toLittleEndian, List.length_cons, ih]

theorem fromLittleEndian_toLittleEndian (n value : Nat) :
    fromLittleEndian (toLittleEndian n value) = value % 256 ^ n := by
  induction n generalizing value with
  | zero => simp [toLittleEndian, fromLittleEndian, Nat.mod_one]
  | succ n ih =>
    have hb : (UInt8.ofNat (value % 256)).toNat = value % 256 := by
      simp [UInt8.toNat, UInt8.ofNat, Fin.ofNat]
    rw [toLittleEndian, fromLittleEndian, ih, hb, pow_succ', Nat.mod_mul]

/-- A 32-bit number survives its four little-endian bytes. -/
theorem fromLittleEndian_uint32 (x : UInt32) : UInt32.ofNat (fromLittleEndian (toLittleEndian 4 x.toNat)) = x := by
  have hx : x.toNat < 256 ^ 4 := x.val.isLt
  rw [fromLittleEndian_toLittleEndian, Nat.mod_eq_of_lt hx]
  exact UInt32.toNat.inj (by simp only [UInt32.toNat, UInt32.ofNat, Fin.ofNat]; exact Nat.mod_eq_of_lt hx)

/-- Modelled from the spec: `message::heading`, the frame prefix (§3, "Heading"). -/
structure Heading where
  magic : UInt32
  command : List UInt8
  payloadSize : UInt32
  checksum : UInt32
  deriving DecidableEq, Repr

namespace Heading

/-- Modelled from the spec: `heading::maximum_size()`, the 24 bytes of the magic, the command, the payload size
and the checksum (§3). -/
def maximumSize : Nat := 4 + 12 + 4 + 4

/-- Modelled from the spec: `heading::factory_from_data`, the fields at offsets 0, 4, 16 and 20 (§6). -/
def fromData (data : List UInt8) : Heading where
  magic := UInt32.ofNat (fromLittleEndian (data.take 4))
  command := (data.drop 4).take 12
  payloadSize := UInt32.ofNat (fromLittleEndian ((data.drop 16).take 4))
  checksum := UInt32.ofNat (fromLittleEndian ((data.drop 20).take 4))

/-- Modelled from the spec: the 24 bytes of a heading as `message::serialize` writes them (§6), the magic, the
command, the payload size and the checksum, the numbers little-endian. -/
def toData (head : Heading) : List UInt8 :=
  toLittleEndian 4 head.magic.toNat ++ head.command ++ toLittleEndian 4 head.payloadSize.toNat ++
    toLittleEndian 4 head.checksum.toNat

theorem toData_length {head : Heading} (h : head.command.length = 12) : head.toData.length = maximumSize := by
  simp [toData, h, maximumSize]

/-- `factory_from_data` reads back every field of a heading written with a twelve-byte command. -/
theorem fromData_toData {head : Heading} (h : head.command.length = 12) : fromData head.toData = head := by
  obtain ⟨magic, command, size, sum⟩ := head
  have hm := length_toLittleEndian 4 magic.toNat
  have hs := length_toLittleEndian 4 size.toNat
  -- each field is read back from the offset it was written at
  have hmagic : (toData ⟨magic, command, size, sum⟩).take 4 = toLittleEndian 4 magic.toNat := by
    rw [toData, List.append_assoc, List.append_assoc, List.take_left' hm]
  have hcommand : ((toData ⟨magic, command, size, sum⟩).drop 4).take 12 = command := by
    rw [toData, List.append_assoc, List.append_assoc, List.drop_left' hm, List.take_left' h]
  have hsize : ((toData ⟨magic, command, size, sum⟩).drop 16).take 4 = toLittleEndian 4 size.toNat := by
    rw [toData, List.append_assoc, List.drop_left' (by simp only [List.length_append, hm, h]), List.take_left' hs]
  have hsum : ((toData ⟨magic, command, size, sum⟩).drop 20).take 4 = toLittleEndian 4 sum.toNat := by
    rw [toData, List.drop_left' (by simp only [List.length_append, hm, h, hs]),
      List.take_of_length_le (length_toLittleEndian 4 _).le]
  simp only [fromData, hmagic, hcommand, hsize, hsum, fromLittleEndian_uint32]

end Heading

/-! ### Payload buffers -/

/-- A `data_chunk`: its bytes and its capacity, which always holds them. -/
structure Chunk where
  data : List UInt8
  capacity : Nat
  fits : data.length ≤ capacity

namespace Chunk

/-- `data_chunk(size)`: `size` zero bytes. -/
def ofSize (size : Nat) : Chunk := ⟨List.replicate size 0, size, by simp⟩

/-- `resize`: truncate, or pad with zero bytes; the capacity grows only when it must. -/
def resize (c : Chunk) (size : Nat) : Chunk :=
  ⟨c.data.take size ++ List.replicate (size - c.data.length) 0, max c.capacity size, by
    simp only [List.length_append, List.length_take, List.length_replicate]; omega⟩

/-- A read into the buffer: the bytes land at its start and its length stays. -/
def fill (c : Chunk) (bytes : List UInt8) : Chunk :=
  ⟨bytes.take c.data.length ++ c.data.drop bytes.length, c.capacity, by
    have := c.fits
    simp only [List.length_append, List.length_take, List.length_drop]; omega⟩

@[simp] theorem resize_data_length (c : Chunk) (size : Nat) : (c.resize size).data.length = size := by
  simp only [resize, List.length_append, List.length_take, List.length_replicate]; omega

theorem resize_capacity_of_le {c : Chunk} {size : Nat} (h : size ≤ c.capacity) :
    (c.resize size).capacity = c.capacity := max_eq_left h

@[simp] theorem fill_capacity (c : Chunk) (bytes : List UInt8) : (c.fill bytes).capacity = c.capacity := rfl

/-- A read of exactly the buffer's length replaces its bytes. -/
theorem fill_data_of_length {c : Chunk} {bytes : List UInt8} (h : bytes.length = c.data.length) :
    (c.fill bytes).data = bytes := by
  simp [fill, ← h]

end Chunk

/-! ### Socket reads -/

/-- The transport's side of the socket: the segments that successive `read_some` calls will find. -/
abbrev Segments := List (List UInt8)

/-- Modelled from the spec: asio's `async_read` of `size` bytes (§4.1.1 S0 and S2, "await exactly"), the bytes
and the segments left, or `none` when the stream ends first (asio completes with `eof`). -/
def asyncRead (size : Nat) : Segments → Option (List UInt8 × Segments)
  | [] => if size = 0 then some ([], []) else none
  | seg :: segs =>
    if size ≤ seg.length then some (seg.take size, seg.drop size :: segs)
    else (asyncRead (size - seg.length) segs).map fun r => (seg ++ r.1, r.2)

/-- Whatever the segmentation, `async_read` takes the next `size` bytes of the stream, or fails exactly when
fewer remain. -/
theorem asyncRead_join (size : Nat) (segs : Segments) :
    (asyncRead size segs).map (fun r => (r.1, r.2.flatten)) =
      if size ≤ segs.flatten.length then some (segs.flatten.take size, segs.flatten.drop size) else none := by
  induction segs generalizing size with
  | nil => by_cases h : size = 0 <;> simp [asyncRead, h]
  | cons seg segs ih =>
    by_cases h : size ≤ seg.length
    · simp [asyncRead, h, List.take_append_of_le_length, List.drop_append_of_le_length, Nat.le_add_right_of_le]
    · have ih' := ih (size - seg.length)
      have hs := List.length_flatten segs
      simp only [asyncRead, h, if_false, List.flatten_cons, List.length_append]
      by_cases h' : size - seg.length ≤ segs.flatten.length
      · rw [if_pos h'] at ih'
        obtain ⟨⟨bytes, rest⟩, hr, hr'⟩ := Option.map_eq_some'.1 ih'
        simp only [Prod.mk.injEq] at hr'
        simp [hr, hr', show size ≤ seg.length + (segs.map List.length).sum by omega, List.take_append_eq_append_take,
          List.drop_append_eq_append_drop, List.take_of_length_le, List.drop_eq_nil_of_le,
          show seg.length ≤ size by omega]
      · rw [if_neg h'] at ih'
        simp [Option.map_eq_none'.1 ih', show ¬size ≤ seg.length + (segs.map List.length).sum by omega]

/-- A completed read returns exactly the bytes asked for. -/
theorem asyncRead_length {size : Nat} {segs rest : Segments} {bytes : List UInt8}
    (h : asyncRead size segs = some (bytes, rest)) : bytes.length = size ∧ segs.flatten = bytes ++ rest.flatten := by
  have hj := asyncRead_join size segs
  rw [h] at hj
  split at hj
  next hle =>
    simp only [Option.map_some', Option.some.injEq, Prod.mk.injEq] at hj
    obtain ⟨rfl, hr⟩ := hj
    exact ⟨List.length_take_of_le hle, by rw [hr, List.take_append_drop]⟩
  next => cases hj

/-- A read fails only when the stream holds fewer bytes than asked for. -/
theorem asyncRead_eq_none {size : Nat} {segs : Segments} (h : asyncRead size segs = none) :
    segs.flatten.length < size := by
  have hj := asyncRead_join size segs
  rw [h] at hj
  split at hj
  · cases hj
  · omega

end BitprimNetwork
