import BitprimNetwork.Frames
import BitprimNetwork.SerialSends

/-!
# A connection: what one proxy sends, the other reads back

Two proxies on the two ends of a connection, on one network's magic.  On one end a caller sends messages through
`proxy::send`, each frame `message::serialize` makes handed to `do_send`, and awaits each send's handler before
it sends again; on the other end the read cycle of a proxy started once reads whatever the transport delivers.

The two halves are characterised apart: the sender's by `World.Awaited.stream_eq_frames` (the stream is the frames
in the order they were sent, once every send has reported success), the receiver's by `run_serialize` (a stream
of frames, however the transport cuts it, is loaded frame by frame and every message delivered).  Composed, they
give `awaited_sends_delivered`: the peer delivers each message sent, once and in order, and stops with `eof`
where the stream ends.
-/

namespace BitprimNetwork

variable {Message : Type} (codec : Codec Message)

open Proxy

/-- Messages one proxy sends, each send awaited and successful, reach the subscribers of a peer proxy once each and
in order, however the transport cuts the stream. -/
theorem awaited_sends_delivered (magic maximum : UInt32) {w : World} (hw : w.Awaited) (hsucc : w.SendsSucceeded)
    {ms : List (Outgoing Message)} (hms : ∀ m ∈ ms, m.Sound codec magic (codec.maximumPayloadSize maximum) maximum)
    (hsends : (w.threads.filter (·.call.isSend)).map (·.call.frame) = ms.map (serialize codec magic))
    {segments : Segments} (hseg : segments.flatten = w.stream) {n : Nat} (hn : w.stream.length < n) :
    let s := Reader.run codec (Reader.start (Reader.construct codec magic maximum segments)) (List.replicate n .complete)
    s.stops = [.transport .eof] ∧ s.loads = ms.map (·.toLoad codec magic maximum) ∧
      s.delivered = ms.map fun m => (codec.messageType (m.heading codec magic), m.message) := by
  have hstream : w.stream = (ms.map (serialize codec magic)).flatten := by
    rw [hw.stream_eq_frames hsucc, flatten_map_frame, hsends]
  exact (run_serialize codec magic maximum hms (hseg.trans hstream) (hseg ▸ hn) rfl).2

/-- `verack` with its empty payload. -/
def verackMessage : Outgoing Unit := ⟨[0x76, 0x65, 0x72, 0x61, 0x63, 0x6b, 0, 0, 0, 0, 0, 0], [], ()⟩

/-- Two `verack` messages sent one after the other on the main network's magic, the second once the first has
reported success; the peer's transport cuts the 48 bytes six bytes into the second heading. -/
theorem awaited_sends_delivered_veracks : ∃ w : World, w.Awaited ∧ w.SendsSucceeded ∧ w.stream.length = 48 ∧
    let s := Reader.run verackCodec
      (Reader.start (Reader.construct verackCodec 0xd9b4bef9 70013 [w.stream.take 30, w.stream.drop 30]))
      (List.replicate 49 .complete)
    s.stops = [.transport .eof] ∧ s.loads = [verackMessage, verackMessage].map (·.toLoad verackCodec 0xd9b4bef9 70013) ∧
      s.delivered = [verackMessage, verackMessage].map fun m =>
        (verackCodec.messageType (m.heading verackCodec 0xd9b4bef9), m.message) := by
  have hsound : verackMessage.Sound verackCodec 0xd9b4bef9 32 70013 := ⟨rfl, by decide, by decide, rfl, rfl⟩
  have hms : ∀ m ∈ [verackMessage, verackMessage], m.Sound verackCodec 0xd9b4bef9 32 70013 := by simpa using hsound
  have h₀ : World.running.Awaited := World.Awaited.init.of_run startRun (by simp [startRun]) World.run_startRun
  have h₁ := h₀.step (.invoke (.send (serialize verackCodec 0xd9b4bef9 verackMessage))) rfl fun _ _ => by decide
  have h₂ := h₁.of_run [.advance 1, .advance 1, .write 0 24] (by simp) rfl
  have h₃ := h₂.step (.invoke (.send (serialize verackCodec 0xd9b4bef9 verackMessage))) rfl fun _ _ => by decide
  have h₄ := h₃.of_run [.advance 2, .advance 2, .write 0 24] (by simp) rfl
  exact ⟨_, h₄, by decide, rfl, awaited_sends_delivered verackCodec 0xd9b4bef9 70013 h₄ (by decide) hms rfl
    (by simp) (by decide)⟩

end BitprimNetwork
