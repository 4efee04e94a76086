-- Addresses (common.c) and datagram sockets (udp.c). The system sends a datagram
-- as a whole or not at all, and cuts off what the reader has no room for.
import Nettle.NtFec

open nettle.nt_fec

namespace nettle.udp

/-! ## Addresses -/

/-- An address with its port, both in network byte order. Nobody looks at the bytes of an IPv6
address. -/
inductive address_t where
  | addr_in (s_addr : UInt32) (port : UInt16)
  | addr_in6 (port : UInt16)
  deriving DecidableEq, Repr

def address_init4 (addr : UInt32) (port : UInt16) : address_t := .addr_in addr port

def address_get_port : address_t → UInt16
  | .addr_in _ port => port
  | .addr_in6 port => port

def address_get_addr4 : address_t → UInt32
  | .addr_in s_addr _ => s_addr
  | .addr_in6 _ => 0

/-! ## Sockets -/

/-- The longest datagram over IPv4. -/
def UDP_MAX : Nat := 65507

/-- A socket: what the system answers to a datagram, given its source if there is one and its
destination, and the datagrams that it was asked to send. -/
structure udp_t where
  sendmsg : Option address_t → address_t → List UInt8 → Except error_t Nat
  sent : List (address_t × List UInt8)

/-- The system sends datagrams as a whole or not at all. -/
def Whole (udp : udp_t) : Prop :=
  ∀ src dst datagram n, udp.sendmsg src dst datagram = .ok n →
    n = datagram.length ∧ n ≤ UDP_MAX

/-- The pieces of `iov` are sent as one datagram. -/
def udp_send_v (udp : udp_t) (iov : List (List UInt8)) (src : Option address_t) (dst : address_t) :
    Except error_t Nat × udp_t :=
  (udp.sendmsg src dst iov.flatten, { udp with sent := udp.sent ++ [(dst, iov.flatten)] })

def udp_sendto (udp : udp_t) (buf : List UInt8) (dst : address_t) : Except error_t Nat × udp_t :=
  (udp.sendmsg none dst buf, { udp with sent := udp.sent ++ [(dst, buf)] })

/-- A datagram is read into the first `len` bytes of a buffer. -/
def udp_recvfrom (buf : List UInt8) (len : Nat) (datagram : List UInt8) : List UInt8 × Nat :=
  (datagram.take len ++ buf.drop (min len datagram.length), min len datagram.length)

/-- A datagram is read into two buffers one after the other. -/
def udp_recv_v (head : List UInt8) (head_len : Nat) (buf : List UInt8) (len : Nat)
    (datagram : List UInt8) : List UInt8 × List UInt8 × Nat :=
  ((udp_recvfrom head head_len datagram).1, (udp_recvfrom buf len (datagram.drop head_len)).1,
    min (head_len + len) datagram.length)

end nettle.udp
