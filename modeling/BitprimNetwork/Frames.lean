import BitprimNetwork.ReadCycle

/-!
# Frames: what `send` writes, the read cycle reads back

`proxy::send` hands `do_send` the frame `message::serialize(version_, message, protocol_magic_)` makes: a heading
with the magic, the command, the payload's size and its checksum, then the payload.  The serializer belongs to
libbitcoin and is modelled from the spec (§6, `serialize`).

The read cycle records every `load` it makes and the messages those loads delivered (`Reader.complete_logs`), so
the messages delivered are those the loads parsed, in load order.  On a stream of serialized frames the spec of the
read loop loads each frame in turn and ends with `eof` (`readSpec_serialize`).  Together with the invariant of
the read cycle this gives the round trip of the wire format through a proxy (`run_serialize`): a proxy whose
transport delivers the frames of a list of messages, cut into any segments, delivers each message once, in the
order sent, and stops with `eof` where the stream ends.
-/

namespace BitprimNetwork

variable {Message : Type} (codec : Codec Message)

/-! ### Serialized frames -/

/-- A message as `proxy::send` hands it to the serializer: its command, zero-padded to twelve bytes, its payload at
the sender's version, and the message the payload encodes. -/
structure Outgoing (Message : Type) where
  command : List UInt8
  payload : List UInt8
  message : Message

namespace Outgoing

variable (magic : UInt32) (m : Outgoing Message)

/-- The heading `message::serialize` writes for the message. -/
def heading : Heading := ⟨magic, m.command, UInt32.ofNat m.payload.length, codec.checksum m.payload⟩

/-- The load a proxy reading the frame makes of it, at its version. -/
def toLoad (version : UInt32) : Load := ⟨codec.messageType (m.heading codec magic), version, m.payload⟩

/-- A message that a proxy with the magic, the payload capacity and the version reads back: a twelve-byte command,
a payload within the capacity, a heading that `is_valid` accepts, and a payload that the codec parses, to its end,
as the message. -/
structure Sound (capacity : Nat) (version : UInt32) : Prop where
  command_length : m.command.length = 12
  payload_le : m.payload.length ≤ capacity
  payload_lt : m.payload.length < 2 ^ 32
  valid : codec.isValid (m.heading codec magic) = true
  parses : load codec (codec.messageType (m.heading codec magic)) version m.payload = (.success, some m.message, true)

end Outgoing

/-- Modelled from the spec: `message::serialize(version, message, magic)` (§6), the frame `send` writes for the
message, its heading and then its payload. -/
def serialize (magic : UInt32) (m : Outgoing Message) : List UInt8 := (m.heading codec magic).toData ++ m.payload

section Sound

variable {magic : UInt32} {capacity : Nat} {version : UInt32}

theorem heading_payloadSize {m : Outgoing Message} (h : m.payload.length < 2 ^ 32) :
    (m.heading codec magic).payloadSize.toNat = m.payload.length := by
  have h' : m.payload.length < 4294967296 := h
  simp [Outgoing.heading, UInt32.toNat, UInt32.ofNat, Nat.mod_eq_of_lt h']

theorem headingOk_serialize {m : Outgoing Message} (hm : m.Sound codec magic capacity version) :
    headingOk codec magic capacity (m.heading codec magic) = true := by
  have hmagic : (m.heading codec magic).magic = magic := rfl
  simp [headingOk, hm.valid, hmagic, heading_payloadSize codec hm.payload_lt, hm.payload_le]

theorem payloadSpec_serialize {m : Outgoing Message} (hm : m.Sound codec magic capacity version) (rest : List UInt8) :
    payloadSpec codec (m.heading codec magic) (m.payload ++ rest) version = .inr (m.toLoad codec magic version, rest) := by
  have hsize : (m.heading codec magic).payloadSize.toNat = m.payload.length := heading_payloadSize codec hm.payload_lt
  have hsum : (m.heading codec magic).checksum = codec.checksum m.payload := rfl
  simp [payloadSpec, hsize, hsum, hm.parses, Outgoing.toLoad]

/-- The read loop's spec on a stream of serialized frames: it loads each frame in turn, at the version given, and
ends with `eof` where the stream ends. -/
theorem readSpec_serialize (ms : List (Outgoing Message)) (hms : ∀ m ∈ ms, m.Sound codec magic capacity version)
    (extra : List UInt32) :
    readSpec codec magic capacity (ms.map (serialize codec magic)).flatten (List.replicate ms.length version ++ extra) =
      (ms.map (·.toLoad codec magic version), .transport .eof) := by
  induction ms with
  | nil => exact readSpec_of_lt codec (by simp [Heading.maximumSize])
  | cons m ms ih =>
    have hm := hms m (List.mem_cons_self _ _)
    rw [List.map_cons, List.flatten_cons, serialize, List.append_assoc,
      readSpec_append codec (Heading.toData_length hm.command_length), Heading.fromData_toData hm.command_length,
      if_pos (headingOk_serialize codec hm), List.length_cons, List.replicate_succ, List.cons_append,
      List.headD_cons, List.tail_cons, payloadSpec_serialize codec hm, readSpec.resume,
      ih (fun m' h => hms m' (List.mem_cons_of_mem _ h)), List.map_cons]

theorem delivers_toLoad {m : Outgoing Message} (hm : m.Sound codec magic capacity version) :
    delivers codec (m.toLoad codec magic version) = some (codec.messageType (m.heading codec magic), m.message) := by
  simp [delivers, Outgoing.toLoad, hm.parses]

theorem filterMap_delivers {ms : List (Outgoing Message)} (hms : ∀ m ∈ ms, m.Sound codec magic capacity version) :
    (ms.map (·.toLoad codec magic version)).filterMap (delivers codec) =
      ms.map fun m => (codec.messageType (m.heading codec magic), m.message) := by
  induction ms with
  | nil => rfl
  | cons m ms ih =>
    rw [List.map_cons, List.filterMap_cons, delivers_toLoad codec (hms m (List.mem_cons_self _ _)),
      ih (fun m' h => hms m' (List.mem_cons_of_mem _ h)), List.map_cons]

end Sound

/-! ### The round trip through a proxy -/

/-- A proxy's read cycle reads back the serialized frames of a list of messages: it delivers each message once, in
order, and stops with `eof` where the stream ends. -/
theorem run_serialize (magic maximum : UInt32) {ms : List (Outgoing Message)}
    (hms : ∀ m ∈ ms, m.Sound codec magic (codec.maximumPayloadSize maximum) maximum)
    {segments : Segments} (hseg : segments.flatten = (ms.map (serialize codec magic)).flatten)
    {n : Nat} (hn : segments.flatten.length < n) {s : Reader Message}
    (hs : Reader.run codec (Reader.start (Reader.construct codec magic maximum segments))
      (List.replicate n .complete) = s) :
    s.stopped = true ∧ s.stops = [.transport .eof] ∧ s.loads = ms.map (·.toLoad codec magic maximum) ∧
      s.delivered = ms.map fun m => (codec.messageType (m.heading codec magic), m.message) := by
  subst hs
  have h0 := Reader.tracks_start codec magic maximum segments
  have hstop := h0.run_stopped codec (List.replicate n .complete)
    (by simp [Reader.weight, Reader.start, Reader.construct, Reader.readHeading] at hn ⊢; omega)
  obtain ⟨-, code, hstops, hspec⟩ := (h0.run codec _).ended hstop
  obtain ⟨-, new, hloads, hdel, hnew⟩ := Reader.run_complete_logs codec
    (Reader.start (Reader.construct codec magic maximum segments)) n
  rw [show (Reader.start (Reader.construct codec magic maximum segments)).loads = [] from rfl,
    List.nil_append] at hloads
  rw [show (Reader.start (Reader.construct codec magic maximum segments)).delivered = [] from rfl,
    List.nil_append] at hdel
  -- every load was made at the maximum, so the spec of the read loop decides the loads and the code
  have hversions : new.map Load.version = List.replicate new.length maximum := List.map_eq_replicate_iff.2 hnew
  have hframes := hspec (List.replicate ms.length maximum)
  rw [hloads, hseg, hversions, List.append_replicate_replicate, Nat.add_comm, ← List.append_replicate_replicate,
    readSpec_serialize codec ms hms, Prod.mk.injEq] at hframes
  refine ⟨hstop, ?_, ?_, ?_⟩
  · rw [hstops, ← hframes.2]
  · rw [hloads, ← hframes.1]
  · rw [hdel, ← hframes.1, filterMap_delivers codec hms]

end BitprimNetwork
