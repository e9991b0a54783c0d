-- SUMMARY: The DHCP server's buffer, the walk over the options, and packets sent.
import FruitClawApps.Lib.Bytes

/-!
# DHCP packets

`dhcpd_parseoptions` in `netutils/dhcpd/dhcpd.c` walks over the options of the packet in
`ds_inpacket`. It goes on in the fields `file` and `sname` if an overload option says so. It is told
nothing about how many bytes were received.
-/

namespace Netutils.Dhcpd

open Bytes

/-! ## The packet -/

/-- `sizeof(struct dhcpmsg_s)`. -/
abbrev packetSize : Nat := 548

/-- Where the field `options` starts, and its size. -/
abbrev optionsOffset : Nat := 236
abbrev optionsSize : Nat := 312

abbrev fileOffset : Nat := 108
abbrev fileSize : Nat := 128

abbrev snameOffset : Nat := 44
abbrev snameSize : Nat := 64

/-- The fields of a packet that the server reads. -/
structure Header where
  htype : UInt8
  hlen : UInt8
  xid : List UInt8
  flags : List UInt8
  ciaddr : List UInt8
  chaddr : List UInt8
deriving DecidableEq

namespace Header

def decode (packet : List UInt8) : Header where
  htype := packet.getD 1 0
  hlen := packet.getD 2 0
  xid := slice packet 4 4
  flags := slice packet 10 2
  ciaddr := slice packet 12 4
  chaddr := slice packet 28 16

/-- The part of `chaddr` that is compared, `DHCP_HLEN_ETHERNET` bytes. -/
def mac (h : Header) : List UInt8 := h.chaddr.take 6

end Header

/-- `g_magiccookie`. -/
def magiccookie : List UInt8 := [99, 130, 83, 99]

/-- `DHCP_OPTION_PAD` and so on. -/
abbrev optPad : UInt8 := 0
abbrev optSubnetMask : UInt8 := 1
abbrev optRouter : UInt8 := 3
abbrev optDnsServer : UInt8 := 6
abbrev optReqIpaddr : UInt8 := 50
abbrev optLeaseTime : UInt8 := 51
abbrev optOverload : UInt8 := 52
abbrev optMsgType : UInt8 := 53
abbrev optServerId : UInt8 := 54
abbrev optEnd : UInt8 := 255

/-- `DHCPDISCOVER` and so on. -/
abbrev dhcpDiscover : UInt8 := 1
abbrev dhcpOffer : UInt8 := 2
abbrev dhcpRequest : UInt8 := 3
abbrev dhcpDecline : UInt8 := 4
abbrev dhcpAck : UInt8 := 5
abbrev dhcpNak : UInt8 := 6
abbrev dhcpRelease : UInt8 := 7

/-! ## Options -/

/-- The parsed options: `ds_optmsgtype`, `ds_optreqip`, `ds_optserverip` and `ds_optleasetime`. An
option that is not there counts as 0. -/
structure Options where
  msgtype : UInt8 := 0
  reqip : UInt32 := 0
  serverip : UInt32 := 0
  leasetime : UInt32 := 0
deriving DecidableEq

/-- `currfield`. -/
inductive Field where
  | options | file | sname
deriving DecidableEq

/-- The variables of the loop in `dhcpd_parseoptions`. -/
structure Walk where
  currfield : Field
  /-- `ptr`, as an offset into the packet. -/
  ptr : Nat
  remaining : Int
  optlen : Nat
  overloaded : UInt8
  opts : Options
deriving DecidableEq

namespace Walk

/-- The loop starts behind the magic cookie. -/
def start : Walk := ⟨.options, optionsOffset + 4, optionsSize - 4, 0, 0, {}⟩

variable (mem : List UInt8) (w : Walk)

/-- `mem` is the packet and the byte behind it, which is the first one of `ds_outpacket`. -/
def code : UInt8 := mem.getD w.ptr 0

/-- The length byte and 2. -/
def length : Nat := (mem.getD (w.ptr + 1) 0).toNat + 2

def data8 : UInt8 := mem.getD (w.ptr + 2) 0

/-- Four bytes of data, in host order. -/
def data32 : UInt32 := .ofNat (beNat (slice mem (w.ptr + 2) 4))

/-- An option with a length, which is read if it has enough data and does not reach to the end of
the field. -/
def take (least : Nat) (read : Walk → Walk) : Walk :=
  let optlen := w.length mem
  let w := { w with optlen := optlen }
  if least ≤ optlen ∧ (optlen : Int) < w.remaining then read w else w

def take8 (set : Walk → UInt8 → Walk) : Walk := w.take mem 3 fun w => set w (w.data8 mem)

def take32 (set : Walk → UInt32 → Walk) : Walk :=
  w.take mem 6 fun w => set w (w.data32 mem)

/-- The `switch`: what one option does, without the step to the next one. There is no result when
the walk is over. -/
def visit : Option Walk :=
  if w.code mem = optPad then some { w with optlen := 1 }
  else if w.code mem = optOverload then some (w.take8 mem fun w value => { w with overloaded := value })
  else if w.code mem = optEnd then
    -- the length of the last option stays, and is stepped over in the new field too
    if w.currfield = .options ∧ w.overloaded &&& 1 ≠ 0 then
      some { w with ptr := fileOffset, remaining := fileSize, currfield := .file }
    else if w.currfield = .file ∧ w.overloaded &&& 2 ≠ 0 then
      some { w with ptr := snameOffset, remaining := snameSize, currfield := .sname }
    else none
  else if w.code mem = optReqIpaddr then some (w.take32 mem fun w value => { w with opts.reqip := value })
  else if w.code mem = optLeaseTime then some (w.take32 mem fun w value => { w with opts.leasetime := value })
  else if w.code mem = optMsgType then some (w.take8 mem fun w value => { w with opts.msgtype := value })
  else if w.code mem = optServerId then some (w.take32 mem fun w value => { w with opts.serverip := value })
  else some { w with optlen := w.length mem }

/-- Advance to the next option. -/
def advance : Walk := { w with ptr := w.ptr + w.optlen, remaining := w.remaining - w.optlen }

/-- The loop. -/
def loop (mem : List UInt8) : Nat → Walk → Bool × Options
  | 0, w => (false, w.opts)
  | fuel + 1, w =>
    match w.visit mem with
    | none => (true, w.opts)
    | some w => if 0 < w.advance.remaining then loop mem fuel w.advance else (false, w.advance.opts)

end Walk

/-- `dhcpd_parseoptions`: whether it succeeds, and the options. They are those of the packet before
if the magic number is bad. -/
def parseoptions (mem : List UInt8) (opts : Options) : Bool × Options :=
  if slice mem optionsOffset 4 ≠ magiccookie then (false, opts)
  else Walk.start.loop mem (packetSize + 1)

/-! ## Sent packets -/

/-- The parts of `ds_outpacket` that are set, and the relay address that is looked at. -/
structure Outpacket where
  htype : UInt8
  hlen : UInt8
  xid : List UInt8
  flags : List UInt8
  ciaddr : List UInt8
  yiaddr : List UInt8
  giaddr : List UInt8
  chaddr : List UInt8
  /-- The options in front of `ds_optend`, where the end option is. -/
  options : List UInt8
deriving DecidableEq

namespace Outpacket

variable (out : Outpacket)

/-- `dhcpd_addoption`. -/
def addoption (option : List UInt8) : Outpacket :=
  if out.options.length + option.length + 1 < optionsSize then { out with options := out.options ++ option } else out

/-- `dhcpd_addoption8`. -/
def addoption8 (code value : UInt8) : Outpacket := out.addoption [code, 1, value]

/-- `dhcpd_addoption32` of a value in network order. -/
def addoption32 (code : UInt8) (value : Nat) : Outpacket := out.addoption ([code, 4] ++ be32 value)

/-- An option that is compiled in if its value is configured and not zero. -/
def addconfigured (code : UInt8) (value : Nat) : Outpacket :=
  if value = 0 then out else out.addoption32 code value

/-- `dhcpd_initpacket`. The packet was filled with zeros, so the flags are never copied. -/
def initpacket (serverip : Nat) (h : Header) (mtype : UInt8) : Outpacket :=
  let zero : List UInt8 := List.replicate 4 0
  let out : Outpacket := {
    htype := h.htype, hlen := h.hlen, xid := h.xid, chaddr := h.chaddr
    flags := [0, 0], ciaddr := zero, yiaddr := zero, giaddr := zero, options := magiccookie }
  let out := if out.giaddr ≠ zero then { out with flags := h.flags } else out
  (out.addoption8 optMsgType mtype).addoption32 optServerId serverip

end Outpacket

/-- Where a packet is sent to. A unicast packet also sets the ARP entry of its address. -/
inductive Dest where
  | broadcast
  | unicast (ipaddr : List UInt8)
deriving DecidableEq

/-- The address that `dhcpd_sendpacket` chooses. -/
def destination (ignorebroadcast bbroadcast : Bool) (out : Outpacket) : Dest :=
  if ignorebroadcast then .broadcast
  else if bbroadcast then .broadcast
  else if out.ciaddr ≠ List.replicate 4 0 then .unicast out.ciaddr
  else if out.flags.getD 0 0 &&& 0x80 ≠ 0 then .broadcast
  else .unicast out.yiaddr

end Netutils.Dhcpd
