-- The API side of a tunnel's listener (nt_listener.c): a datagram is read into
-- a buffer of the pool, checked, and handed to an encoder with the address of
-- its sender written into it.
import Nettle.NtProto
import Nettle.Udp

open nettle.nt_fec nettle.nt_proto nettle.udp

namespace nettle.nt_listener

/-- What the listener meets in the worker of an encoder: messages that wait there, and free ones in
its pool. -/
structure encoder_mq_t where
  message_count : Nat
  free : Nat

/-- The encoders, if there are any, and the one that got the last message. -/
structure nt_fec_listener_context_t where
  processors : Option (List encoder_mq_t)
  last_processor : Nat
  perf : perf_t

/-- The checks of `nt_api_handle_read`. Of an accepted message it gives whether it is of version 1,
and the buffer with the sender written into the header. -/
def api_accept (buffer : List UInt8) (src : address_t) (received : Nat) :
    Option (Bool × List UInt8) :=
  let src_ip := address_get_addr4 src
  if src_ip = 0 then none
  else if nt_api_header_is_valid buffer then
    let header := nt_api_header_at buffer
    if nt_api_message_size header ≠ received then none
    else
      let header := { header with src_ip, src_port := address_get_port src }
      some (true, nt_api_header_bytes header ++ nt_api_message_payload buffer)
  else if nt_api2_header_is_valid buffer then
    let header := nt_api2_header_at buffer
    if nt_api2_message_size header ≠ received then none
    else
      let header := { header with src_ip, src_port := address_get_port src }
      some (false, nt_api2_header_bytes header ++ nt_api2_message_payload buffer)
  else none

/-- `buffer` comes out of the pool. An accepted message goes to the encoder that is named, if
there is one with a free message for it. -/
def nt_api_handle_read (context : nt_fec_listener_context_t) (max_buffer_size : Nat)
    (buffer : Option (List UInt8)) (incoming : Except error_t (address_t × List UInt8)) :
    nt_fec_listener_context_t × Option (Nat × List UInt8) :=
  let recv_failure := ({ context with
    perf := perf_inc context.perf .COUNTER_API_RECEIVE_ERROR 1 }, none)
  match buffer, incoming with
  | none, _ => (context, none)
  | some _, .error _ => recv_failure
  | some buffer, .ok (src, datagram) =>
    let (buffer, received) := udp_recvfrom buffer max_buffer_size datagram
    match api_accept buffer src received with
    | none => recv_failure
    | some (v1, message) =>
      let perf := if v1 then perf_inc context.perf .COUNTER_API_RECEIVED_V1 1 else context.perf
      let perf := perf_inc (perf_inc perf .COUNTER_API_RECEIVED 1) .COUNTER_API_RECEIVED_BYTES received
      let context := { context with perf }
      match context.processors with
      | none => (context, none)
      | some processors =>
        -- Messages are dispatched to the last encoder when it is idle, else to the next one.
        let message_count := (processors.getD context.last_processor ⟨0, 0⟩).message_count
        let last_processor := if message_count ≠ 0 then
          (context.last_processor + 1) % processors.length else context.last_processor
        let encoder := processors.getD last_processor ⟨0, 0⟩
        if encoder.free > 0 then
          ({ context with
            last_processor
            processors := some (processors.set last_processor
              ⟨encoder.message_count + 1, encoder.free - 1⟩) },
            some (last_processor, message))
        else
          ({ context with
            last_processor
            perf := perf_inc context.perf .COUNTER_ENCODER_BUSY 1 }, none)

end nettle.nt_listener
