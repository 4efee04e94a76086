-- The echo service (nt_echo_listener.c): what comes in goes back, and a
-- request that comes in twice goes back once. The keys of its cache are
-- pointers to headers in the buffers of a pool, and the functions of the cache
-- read what stands there. The result `none` is a failed `ensure` or a pointer
-- that leads nowhere.
import Nettle.Lrumap
import Nettle.NtProto
import Nettle.Queue
import Nettle.Udp

open nettle.lrumap nettle.nt_fec nettle.nt_proto nettle.queue nettle.udp

namespace nettle.nt_echo_listener

def UDP_BUFFER_SIZE : Nat := 64 * 1024

/-! ## Headers as keys -/

/-- A pointer to a header: in the buffer of a datagram, or in a buffer of the pool. -/
inductive nt_api_header_ptr where
  | buffer
  | cached (i : Nat)
  deriving DecidableEq, Repr

/-- The headers that the pointers lead to. -/
structure memory_t where
  buffer : nt_api_header_t
  cached : Nat → nt_api_header_t

def memory_at (memory : memory_t) : nt_api_header_ptr → nt_api_header_t
  | .buffer => memory.buffer
  | .cached i => memory.cached i

/-- No sum leaves the range of a size_t. -/
def header_hash_func (memory : memory_t) (key : nt_api_header_ptr) : Nat :=
  let header := memory_at memory key
  let h := header.tag.toNat
  let h := 31 * h + header.id_n.toNat
  let h := 31 * h + header.src_ip.toNat
  31 * h + header.src_port.toNat

def header_equal_func (memory : memory_t) (key1 key2 : nt_api_header_ptr) : Bool :=
  let header1 := memory_at memory key1
  let header2 := memory_at memory key2
  header1.tag == header2.tag && header1.id_n == header2.id_n &&
    header1.src_ip == header2.src_ip && header1.src_port == header2.src_port

/-- The cache while its functions read this memory. -/
def reading (memory : memory_t) (cache : lrumap_t nt_api_header_ptr Int) :
    lrumap_t nt_api_header_ptr Int :=
  { cache with map := { cache.map with
      hash_func := header_hash_func memory
      equal_func := header_equal_func memory } }

/-! ## The listener -/

/-- `cached` is what the buffers of the pool hold. -/
structure nt_echo_listener_t where
  cache_pool : pool_t
  cached : Nat → nt_api_header_t
  dedup_cache : lrumap_t nt_api_header_ptr Int
  dedup_timeout : Int

/-- Nothing is known of the memory at first. -/
def nt_echo_listener_init (memory : memory_t) (dedup_cache_size : Nat) (dedup_timeout : Int) :
    Option nt_echo_listener_t := do
  let dedup_cache ← lrumap_init1 dedup_cache_size (header_hash_func memory) (header_equal_func memory)
  return {
    cache_pool := pool_init dedup_cache_size
    cached := memory.cached
    dedup_cache
    dedup_timeout }

/-- A buffer that is given back, with the cache and the pool as they are just before. -/
structure release_t where
  buffer : Nat
  dedup_cache : lrumap_t nt_api_header_ptr Int
  cache_pool : pool_t

/-- A key leaves the cache, and its buffer goes back to the pool. -/
def release_key (listener : nt_echo_listener_t) (key : nt_api_header_ptr) :
    Option (nt_echo_listener_t × release_t) := do
  let (removed, dedup_cache) ← lrumap_remove listener.dedup_cache key
  if removed then
    match key with
    | .buffer => none
    | .cached i =>
      let cache_pool ← pool_free listener.cache_pool i
      return ({ listener with dedup_cache, cache_pool }, ⟨i, dedup_cache, listener.cache_pool⟩)
  else none

/-- A copy of the header becomes a key. -/
def insert_key (listener : nt_echo_listener_t) (header : nt_api_header_t) (current : Int) :
    Option nt_echo_listener_t :=
  match pool_new listener.cache_pool with
  | some (some i, cache_pool) => do
    let cached := Function.update listener.cached i header
    let (put, dedup_cache) ←
      lrumap_put (reading ⟨header, cached⟩ listener.dedup_cache) (.cached i) current
    if put then return { listener with cache_pool, cached, dedup_cache } else none
  | _ => none

/-- Whether the request is to be echoed, and the buffer that is given back, if there is one. -/
def deduplicate (listener : nt_echo_listener_t) (header : nt_api_header_t) (current : Int) :
    Option (Bool × nt_echo_listener_t × Option release_t) :=
  let dedup_cache := reading ⟨header, listener.cached⟩ listener.dedup_cache
  if dedup_cache.capacity > 0 then do
    match ← lrumap_get dedup_cache .buffer with
    | (some (key, value), dedup_cache) =>
      let listener := { listener with dedup_cache }
      if current - value > listener.dedup_timeout then
        let (listener, release) ← release_key listener key
        let listener ← insert_key listener header current
        return (true, listener, some release)
      else return (false, listener, none)
    | (none, dedup_cache) =>
      let listener := { listener with dedup_cache }
      let size ← lrumap_size dedup_cache
      if size = dedup_cache.capacity then
        match ← lrumap_peek dedup_cache with
        | some (key, _) =>
          let (listener, release) ← release_key listener key
          let listener ← insert_key listener header current
          return (true, listener, some release)
        | none => none
      else
        let listener ← insert_key listener header current
        return (true, listener, none)
  else some (true, listener, none)

/-- What is there when a datagram is to be read: what is left in the buffer on the stack, the
datagram with its source and its destination, and the clock. -/
structure event_t where
  stack : List UInt8
  incoming : Except error_t (address_t × address_t × List UInt8)
  current : Int

/-- The header of a request that is well formed. -/
def api_request (buffer : List UInt8) (received : Nat) : Option nt_api_header_t :=
  let header := nt_api_header_at buffer
  if nt_api_header_is_valid buffer && received == nt_api_message_size header then some header
  else none

/-- The datagram that is sent, if there is one, with its source and its destination, and the buffer
that is given back. -/
def handle_read (listener : nt_echo_listener_t) (event : event_t) :
    Option (nt_echo_listener_t × Option (address_t × address_t × List UInt8) × Option release_t) :=
  match event.incoming with
  | .error _ => some (listener, none, none)
  | .ok (src, dst, datagram) =>
    let (buffer, received) := udp_recvfrom event.stack UDP_BUFFER_SIZE datagram
    match api_request buffer received with
    | some header => do
      let (echo, listener, release) ← deduplicate listener header event.current
      if echo then
        let header := { header with
          src_ip := header.dst_ip
          src_port := header.dst_port
          dst_ip := header.src_ip
          dst_port := header.src_port }
        let buffer := nt_api_header_bytes header ++ nt_api_message_payload buffer
        return (listener, some (dst, src, buffer.take received), release)
      else return (listener, none, release)
    | none => some (listener, some (dst, src, buffer.take received), none)

end nettle.nt_echo_listener
