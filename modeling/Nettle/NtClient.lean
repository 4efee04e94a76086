-- The client's side of the tunnel API (nt_client.c).
import Nettle.NtProto
import Nettle.Udp

open nettle.nt_fec nettle.nt_proto nettle.udp

namespace nettle.nt_client

def udp_sendto_tunnel (udp : udp_t) (buf : List UInt8) (dst_addr : address_t) (id : UInt32)
    (tunnel_addr : address_t) : Except error_t Nat × udp_t :=
  let header := nt_api_header_init id 0 0 (address_get_addr4 dst_addr) (address_get_port dst_addr)
    (UInt16.ofNat buf.length)
  udp_send_v udp [nt_api_header_bytes header, buf] none tunnel_addr

def udp_sendto_tunnel2 (udp : udp_t) (buf : List UInt8) (dst_addr : address_t) (id : UInt32)
    (tunnel_addr : address_t) (encrypt_type ttl : UInt8) : Except error_t Nat × udp_t :=
  let header := nt_api2_header_init id 0 0 (address_get_addr4 dst_addr)
    (address_get_port dst_addr) encrypt_type ttl (UInt16.ofNat buf.length)
  udp_send_v udp [nt_api2_header_bytes header, buf] none tunnel_addr

/-- What `udp_recvfrom_tunnel` gives back: the source, the id, the tunnel's address, the size and
the buffer. -/
structure received_t where
  src_addr : address_t
  id : UInt32
  tunnel_addr : address_t
  received : UInt16
  buf : List UInt8

/-- A datagram of the tunnel at this address is read; `head` is what the header variable holds
before. -/
def udp_recvfrom_tunnel (head buf : List UInt8) (len : Nat)
    (incoming : Except error_t (address_t × List UInt8)) : Except error_t received_t :=
  match incoming with
  | .error err => .error err
  | .ok (tunnel_addr, datagram) =>
    let (head, buf, received_raw) := udp_recv_v head 19 buf len datagram
    let header := nt_api_header_at head
    if ¬nt_api_header_is_valid head ∨ received_raw ≠ nt_api_message_size header then
      .error E_API_INVALID_HEADER
    else
      .ok {
        src_addr := address_init4 header.src_ip header.src_port
        id := nt_api_header_id header
        tunnel_addr
        received := nt_api_header_payload_size header
        buf }

end nettle.nt_client
