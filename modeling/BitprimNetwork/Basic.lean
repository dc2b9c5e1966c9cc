import Mathlib.Algebra.BigOperators.Group.List
import Mathlib.Algebra.Order.Ring.Nat
import Mathlib.Data.BitVec
import Mathlib.Data.List.Basic
import Mathlib.Data.List.Nodup
import Mathlib.Data.List.Pairwise

/-!
# Error codes and peer identities

The part of `libbitcoin::error` that the channel proxy and the connection registry produce (spec §7), and the
`config::authority` of a peer.  A `code` is an error exactly when it is not `success`; transport failures reach
the proxy as boost codes and are translated by `boost_to_error_code`.
-/

namespace BitprimNetwork

/-- Kinds of transport failure that `boost_to_error_code` distinguishes. -/
inductive TransportError where
  | aborted
  | eof
  | timeout
  | refused
  | unreachable
  deriving DecidableEq, Repr

/-- The error codes of the core (spec §7). -/
inductive Code where
  | success
  | operationFailed
  | channelStopped
  | badStream
  | serviceStopped
  | addressInUse
  | notFound
  | transport (kind : TransportError)
  | parse (kind : Nat)
  deriving DecidableEq, Repr

/-- `boost_to_error_code`: a boost completion code, `none` for success. -/
def boostToErrorCode : Option TransportError → Code
  | none => .success
  | some kind => .transport kind

/-- A peer endpoint: an IP address and a TCP port, compared structurally. -/
structure Authority where
  ip : BitVec 128
  port : UInt16
  deriving DecidableEq, Repr

end BitprimNetwork
