-- SUMMARY: The lease table of the DHCP server and what it does with a message.
import FruitClawApps.Netutils.Dhcpd.Packet
import FruitClawApps.Lib.Mealy
import Mathlib.Data.List.FinRange
import Mathlib.Logic.Function.Basic

/-!
# The DHCP server

The server in `netutils/dhcpd/dhcpd.c` has one entry for each address of its pool. An offer, a lease
and a declined address are entries with a time at which they expire. `dhcpd_run` receives into a
buffer that it keeps. The clock is read once for each message, and seconds are numbers without a
bound.
-/

namespace Netutils.Dhcpd

open Bytes

/-- The configuration. The pool does not reach to the end of the address space, where `ds_endip`
would overflow. -/
structure Config where
  startip : Nat
  maxleases : Nat
  leasetime : Nat
  minleasetime : Nat
  maxleasetime : Nat
  offertime : Nat
  declinetime : Nat
  /-- The address of the interface, in host order. -/
  serverip : UInt32
  /-- 0 if the option is not compiled in. -/
  netmask : Nat
  routerip : Nat
  dnsip : Nat
  ignorebroadcast : Bool
  startip_pos : 0 < startip
  maxleases_pos : 0 < maxleases
  maxleases_lt : maxleases < 2 ^ 31
  pool : startip + maxleases < 2 ^ 32
  leasetime_pos : 0 < leasetime
  maxleasetime_pos : 0 < maxleasetime

/-- `ds_endip`. -/
def Config.endip (c : Config) : Nat := c.startip + c.maxleases - 1

/-- `struct lease_s`. -/
structure Lease where
  mac : List UInt8
  allocated : Bool
  expiry : Nat
deriving DecidableEq

/-- `memset(mac, 0, DHCP_HLEN_ETHERNET)`. -/
def zeroMac : List UInt8 := List.replicate 6 0

/-- `memset(lease, 0, sizeof(struct lease_s))`. -/
def Lease.zero : Lease := ⟨zeroMac, false, 0⟩

/-- `ds_leases`. -/
abbrev Table (c : Config) : Type := Fin c.maxleases → Lease

/-- A message that was parsed. -/
structure Message where
  header : Header
  opts : Options
deriving DecidableEq

/-- The hardware address of the client. -/
def Message.mac (m : Message) : List UInt8 := m.header.mac

/-- What the server sends: an offer and an acknowledgement are of an address and for a time. -/
inductive Answer where
  | offer (ipaddr leasetime : Nat)
  | ack (ipaddr leasetime : Nat)
  | nak
deriving DecidableEq

structure Sent where
  answer : Answer
  dest : Dest
  out : Outpacket
deriving DecidableEq

section Handlers

variable (c : Config)

/-! ## The lease table -/

variable {c} in
/-- `dhcpd_leaseexpired`, which clears an entry that has expired. -/
def leaseexpired (now : Nat) (t : Table c) (l : Fin c.maxleases) : Bool × Table c :=
  if now < (t l).expiry then (false, t) else (true, Function.update t l Lease.zero)

/-- The entry of an address in `dhcpd_setlease`. The difference is a signed integer. -/
def entryOf (ipaddr : Nat) : Option (Fin c.maxleases) :=
  let ndx := Int.bmod (ipaddr - c.startip) (2 ^ 32)
  if h : 0 ≤ ndx ∧ ndx < c.maxleases then some ⟨ndx.toNat, by omega⟩ else none

/-- `dhcpd_setlease`. -/
def setlease (now : Nat) (t : Table c) (mac : List UInt8) (ipaddr expiry : Nat) : Option (Table c) :=
  (entryOf c ipaddr).map fun l => Function.update t l ⟨mac, true, now + expiry⟩

/-- `dhcp_leaseipaddr`. -/
def leaseipaddr (l : Fin c.maxleases) : Nat := l + c.startip

variable (m : Message) (now : Nat) (t : Table c)

variable {c} in
/-- `dhcpd_findbymac`. -/
def findbymac (mac : List UInt8) : Option (Fin c.maxleases) :=
  (List.finRange c.maxleases).find? fun l => (t l).mac = mac

/-- `dhcpd_findbyipaddr`. -/
def findbyipaddr (ipaddr : Nat) : Option (Fin c.maxleases) :=
  if h : c.startip ≤ ipaddr ∧ ipaddr ≤ c.endip then
    let l : Fin c.maxleases := ⟨ipaddr - c.startip, by
      have := c.maxleases_pos
      have := h.2
      rw [Config.endip] at this
      omega⟩
    if (t l).allocated then some l else none
  else none

/-- An address is free if it has no entry that counts, or the entry has expired. -/
def isFree (ipaddr : Nat) : Bool × Table c :=
  match findbyipaddr c t ipaddr with
  | none => (true, t)
  | some l => leaseexpired now t l

/-- The loop of `dhcpd_allocipaddr` over the rest of the pool. -/
def allocFrom (now : Nat) (t : Table c) : List (Fin c.maxleases) → Nat × Table c
  | [] => (0, t)
  | l :: rest =>
    let ipaddr := leaseipaddr c l
    if ipaddr % 256 = 0 ∨ ipaddr % 256 = 255 then allocFrom now t rest
    else
      match isFree c now t ipaddr with
      | (true, t) => (ipaddr, Function.update t l ⟨zeroMac, true, now + c.offertime⟩)
      | (false, t) => allocFrom now t rest

/-- `dhcpd_allocipaddr`. The result 0 means that the pool is used up. -/
def allocipaddr : Nat × Table c := allocFrom c now t (List.finRange c.maxleases)

/-- `dhcpd_verifyreqip`. -/
def verifyreqip (reqip : Nat) : Bool × Table c :=
  if c.startip ≤ reqip ∧ reqip ≤ c.endip then isFree c now t reqip else (false, t)

/-- `dhcpd_verifyreqleasetime`: the time that is granted if the client asks for one. -/
def verifyreqleasetime (opts : Options) : Option Nat :=
  let tmp := opts.leasetime.toNat
  if tmp = 0 then none
  else if c.maxleasetime < tmp then some c.maxleasetime
  else if tmp < c.minleasetime then some c.minleasetime
  else some tmp

/-! ## Answers -/

/-- The options that offers and acknowledgements have. -/
def addlease (out : Outpacket) (leasetime : Nat) : Outpacket :=
  (((out.addoption32 optLeaseTime leasetime).addconfigured optSubnetMask c.netmask).addconfigured
    optRouter c.routerip).addconfigured optDnsServer c.dnsip

/-- `dhcpd_sendoffer`. -/
def sendoffer (ipaddr leasetime : Nat) : Sent :=
  let out := { Outpacket.initpacket c.serverip.toNat m.header dhcpOffer with yiaddr := be32 ipaddr }
  let out := addlease c out leasetime
  ⟨.offer ipaddr leasetime, destination c.ignorebroadcast false out, out⟩

/-- `dhcpd_sendnak`. -/
def sendnak : Sent :=
  let out := { Outpacket.initpacket c.serverip.toNat m.header dhcpNak with ciaddr := m.header.ciaddr }
  ⟨.nak, destination c.ignorebroadcast true out, out⟩

/-- The packet of `dhcpd_sendack`. -/
def ackpacket (ipaddr leasetime : Nat) : Sent :=
  let out := { Outpacket.initpacket c.serverip.toNat m.header dhcpAck with
    ciaddr := m.header.ciaddr, yiaddr := be32 ipaddr }
  let out := addlease c out leasetime
  ⟨.ack ipaddr leasetime, destination c.ignorebroadcast false out, out⟩

/-- `dhcpd_sendack`. The lease is entered if `sendto` succeeds, which `ok` tells. -/
def sendack (ok : Bool) (t : Table c) (ipaddr : Nat) : Option Sent × Table c :=
  let leasetime := (verifyreqleasetime c m.opts).getD c.leasetime
  (some (ackpacket c m ipaddr leasetime),
    if ok then (setlease c now t m.mac ipaddr leasetime).getD t else t)

/-! ## Messages -/

/-- The first part of `dhcpd_discover`: the address to offer, or 0, and the time that is left of an
old lease. -/
def discoverAddress : Nat × Nat × Table c :=
  match findbymac t m.mac with
  | some l =>
    match leaseexpired now t l with
    | (true, t) => (leaseipaddr c l, c.leasetime, t)
    | (false, t) => (leaseipaddr c l, max (((t l).expiry - now) % 2 ^ 32) c.minleasetime, t)
  | none =>
    match verifyreqip c now t m.opts.reqip.toNat with
    | (true, t) => (m.opts.reqip.toNat, c.leasetime, t)
    | (false, t) => ((allocipaddr c now t).1, c.leasetime, (allocipaddr c now t).2)

/-- `dhcpd_discover`. -/
def discover : Option Sent × Table c :=
  match discoverAddress c m now t with
  | (ipaddr, leasetime, t) =>
    if ipaddr = 0 then (none, t)
    else
      match setlease c now t m.mac ipaddr c.offertime with
      | none => (none, t)
      | some t => (some (sendoffer c m ipaddr ((verifyreqleasetime c m.opts).getD leasetime)), t)

/-- How `dhcpd_request` responds to a client that has an entry. -/
def requestHeld (l : Fin c.maxleases) : Bool :=
  let ipaddr := leaseipaddr c l
  if m.opts.serverip ≠ 0 then
    m.opts.serverip = c.serverip ∧ (m.opts.reqip ≠ 0 ∨ m.opts.reqip.toNat = ipaddr)
  else if m.opts.reqip ≠ 0 then ipaddr = m.opts.reqip.toNat
  else be32 ipaddr = m.header.ciaddr

/-- `dhcpd_request`. -/
def request (ok : Bool) (t : Table c) : Option Sent × Table c :=
  match findbymac t m.mac with
  | some l => if requestHeld c m l then sendack c m now ok t (leaseipaddr c l) else (some (sendnak c m), t)
  | none =>
    if m.opts.reqip ≠ 0 ∧ m.opts.serverip = 0 then
      match findbyipaddr c t m.opts.reqip.toNat with
      | some l =>
        match leaseexpired now t l with
        -- the entry is cleared, and the server remains silent
        | (true, t) => (none, t)
        | (false, t) => (some (sendnak c m), t)
      | none =>
        if c.startip ≤ m.opts.reqip.toNat ∧ m.opts.reqip.toNat ≤ c.endip then sendack c m now ok t m.opts.reqip.toNat
        else (some (sendnak c m), t)
    else (none, t)

variable {c}

/-- `dhcpd_decline`. -/
def decline (m : Message) (now : Nat) (t : Table c) : Table c :=
  match findbymac t m.mac with
  | some l => Function.update t l { t l with mac := zeroMac, expiry := now + c.declinetime }
  | none => t

/-- `dhcpd_release`. -/
def release (m : Message) (t : Table c) : Table c :=
  match findbymac t m.mac with
  | some l => Function.update t l Lease.zero
  | none => t

/-- The dispatch on the message type in `dhcpd_run`: the packet that is made, if any, and the
table. -/
def process (m : Message) (now : Nat) (ok : Bool) (t : Table c) : Option Sent × Table c :=
  if m.opts.msgtype = dhcpDiscover then discover c m now t
  else if m.opts.msgtype = dhcpRequest then request c m now ok t
  else if m.opts.msgtype = dhcpDecline then (none, decline m now t)
  else if m.opts.msgtype = dhcpRelease then (none, release m t)
  else (none, t)

end Handlers

/-- A message, when it is handled, and whether `sendto` succeeds. -/
structure Event where
  message : Message
  now : Nat
  ok : Bool
deriving DecidableEq

/-- What the message types do with the table: what is sent, and the table. -/
def receive {c : Config} (t : Table c) (e : Event) : Option Sent × Table c :=
  (if e.ok then (process e.message e.now e.ok t).1 else none, (process e.message e.now e.ok t).2)

/-! ## The daemon -/

/-- `g_state`. -/
structure State (c : Config) where
  /-- `ds_inpacket`. -/
  inpacket : List UInt8
  /-- `ds_outpacket.op`, the byte behind it. -/
  outop : UInt8
  opts : Options
  leases : Table c
  size : inpacket.length = packetSize

variable {c : Config}

/-- The state of a daemon that has just started. -/
def State.init (c : Config) : State c :=
  ⟨List.replicate packetSize 0, 0, {}, fun _ => Lease.zero, List.length_replicate⟩

/-- What `dhcpd_run` receives, when, and whether what it sends then is sent. -/
structure Input where
  datagram : List UInt8
  now : Nat
  ok : Bool
deriving DecidableEq

/-- `recv`: the bytes of the datagram come in front of what was in the buffer. -/
def State.recv (s : State c) (datagram : List UInt8) : State c :=
  { s with
    inpacket := overlay datagram s.inpacket (min datagram.length packetSize)
    size := by rw [length_overlay (Nat.min_le_left _ _) (s.size ▸ Nat.min_le_right _ _), s.size] }

/-- The options of a message that was handled, and what was sent. -/
structure Handled where
  parsed : Option Options
  sent : Option Sent
deriving DecidableEq

/-- One turn of the loop in `dhcpd_run`, behind `recv`. -/
def State.handle (s : State c) (now : Nat) (ok : Bool) : Handled × State c :=
  match parseoptions (s.inpacket ++ [s.outop]) s.opts with
  | (false, opts) => (⟨none, none⟩, { s with opts := opts })
  | (true, opts) =>
    let made := (process ⟨Header.decode s.inpacket, opts⟩ now ok s.leases).1
    match receive s.leases ⟨⟨Header.decode s.inpacket, opts⟩, now, ok⟩ with
    | (sent, leases) =>
      (⟨some opts, sent⟩,
        { s with opts := opts, leases := leases, outop := if made.isSome then 2 else s.outop })

/-- One turn of the loop. -/
def turn (s : State c) (i : Input) : Handled × State c := (s.recv i.datagram).handle i.now i.ok

end Netutils.Dhcpd
