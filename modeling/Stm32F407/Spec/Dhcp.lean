import Stm32F407.Lib.Run
import Stm32F407.Spec.Word

/-! The DHCP hand-over of `lwip_comm.c`: the start of the network interface,
`dhcp_start`, and `lwip_dhcp_process_handle` called between steps of the client. -/

namespace Stm32F407

open Lib

def lwipMakeU32 (a b c d : U8) : U32 :=
  a.setWidth 32 <<< 24 ||| b.setWidth 32 <<< 16 ||| c.setWidth 32 <<< 8 ||| d.setWidth 32

/-- `PP_HTONL` on a little-endian machine. -/
def ppHtonl (x : U32) : U32 :=
  (x &&& 0x000000ff) <<< 24 ||| (x &&& 0x0000ff00) <<< 8 |||
    (x &&& 0x00ff0000) >>> 8 ||| (x &&& 0xff000000) >>> 24

/-- `IP4_ADDR` of the four bytes of an array. -/
def ip4Addr (b : Vector U8 4) : U32 := ppHtonl (lwipMakeU32 b[0] b[1] b[2] b[3])

/-- The byte assignments `b[i] = (uint8_t)(addr >> 8 * i)`. -/
def ip4Bytes (addr : U32) : Vector U8 4 :=
  #v[addr.setWidth 8, (addr >>> 8).setWidth 8, (addr >>> 16).setWidth 8, (addr >>> 24).setWidth 8]

inductive ErrT where
  | ok
  | mem
  | arg
  deriving DecidableEq

inductive DhcpState where
  | off
  | requesting
  | init
  | rebooting
  | rebinding
  | renewing
  | selecting
  | informing
  | checking
  | permanent
  | bound
  | releasing
  | backingOff
  deriving DecidableEq

/-- `struct dhcp`; `tries` counts the retries of the current request. -/
structure Dhcp where
  state : DhcpState
  tries : U8
  deriving DecidableEq

def Dhcp.zero : Dhcp := ⟨.off, 0⟩

def Dhcp.dhcpSetState (d : Dhcp) (newState : DhcpState) : Dhcp :=
  if newState ≠ d.state then ⟨newState, 0⟩ else d

/-- `dhcp_discover`, which always returns `ERR_OK`, of a client whose `tries` are below
`LWIP_DHCP_AUTOIP_COOP_TRIES`, as they are in `dhcp_start`. -/
def Dhcp.dhcpDiscover (d : Dhcp) : Dhcp :=
  let d := d.dhcpSetState .selecting
  if d.tries < 255 then { d with tries := d.tries + 1 } else d

/-- `struct netif` with its flags `NETIF_FLAG_UP` and `NETIF_FLAG_LINK_UP`; `dhcp` is
the client attached to it, `netif_dhcp_data`. -/
structure Netif where
  ipAddr : U32
  netmask : U32
  gw : U32
  mtu : U16
  up : Bool
  linkUp : Bool
  dhcp : Option Dhcp
  deriving DecidableEq

/-- What `dhcp_start` asks for: the memory of a new client, and the shared DHCP PCB. -/
structure DhcpResources where
  memMalloc : Bool
  pcb : Bool

namespace Netif

def dhcpStart (n : Netif) (r : DhcpResources) : ErrT × Netif :=
  if n.up = false then (.arg, n)
  else if n.mtu < 576 then (.mem, n)
  else if n.dhcp = none ∧ r.memMalloc = false then (.mem, n)
  else
    let dhcp := Dhcp.zero
    if r.pcb = false then (.mem, { n with dhcp := some dhcp })
    else if n.linkUp = false then (.ok, { n with dhcp := some (dhcp.dhcpSetState .init) })
    else (.ok, { n with dhcp := some dhcp.dhcpDiscover })

/-- What `netif_add` leaves, with `low_level_init` as its init function. -/
def netifAdd (ipaddr netmask gw : U32) : Netif :=
  { ipAddr := ipaddr, netmask := netmask, gw := gw, mtu := 1500, up := false, linkUp := true,
    dhcp := none }

end Netif

structure LwipDev where
  mac : Vector U8 6
  remoteip : Vector U8 4
  ip : Vector U8 4
  netmask : Vector U8 4
  gateway : Vector U8 4
  dhcpstatus : U8
  deriving DecidableEq

def lwipCommDefaultIpSet : LwipDev where
  mac := #v[0xB8, 0xAE, 0x1D, 0x00, 0x07, 0x00]
  remoteip := #v[192, 168, 8, 88]
  ip := #v[192, 168, 8, 100]
  netmask := #v[255, 255, 255, 0]
  gateway := #v[192, 168, 8, 1]
  dhcpstatus := 0

def lwipMaxDhcpTries : U8 := 4

/-- The variables `g_lwip_dev`, `g_lwip_netif` and `gdhcp`. -/
structure LwipComm where
  dev : LwipDev
  netif : Netif
  gdhcp : Dhcp
  deriving DecidableEq

/-- The variables after an `lwip_comm_init` that returned 0. -/
def lwipCommInit (r : DhcpResources) : LwipComm :=
  let netif := Netif.netifAdd 0 0 0
  let netif := { netif with up := netif.linkUp }
  { dev := { lwipCommDefaultIpSet with dhcpstatus := 0 }
    netif := (netif.dhcpStart r).2
    gdhcp := Dhcp.zero }

/-- `gw` is read from the interface but not stored. -/
def LwipComm.lwipDhcpProcessHandle (s : LwipComm) (r : DhcpResources) : LwipComm :=
  if s.dev.dhcpstatus = 0 then
    { s with netif := (s.netif.dhcpStart r).2, dev := { s.dev with dhcpstatus := 1 } }
  else if s.dev.dhcpstatus = 1 then
    let ip := s.netif.ipAddr
    let netmask := s.netif.netmask
    if ip ≠ 0 then
      { s with dev := { s.dev with dhcpstatus := 2, ip := ip4Bytes ip, netmask := ip4Bytes netmask } }
    else if s.gdhcp.tries > lwipMaxDhcpTries then
      { s with
        dev := { s.dev with dhcpstatus := 0xFF }
        netif := { s.netif with
          ipAddr := ip4Addr s.dev.ip
          netmask := ip4Addr s.dev.netmask
          gw := ip4Addr s.dev.gateway } }
    else s
  else s

/-- A call of the handler, or a step of the client and the rest of lwIP, which may
change everything in the interface but which client is attached to it. -/
inductive DhcpEvent where
  | handle (r : DhcpResources)
  | client (netif : Netif)

def LwipComm.next (s : LwipComm) : DhcpEvent → LwipComm
  | .handle r => s.lwipDhcpProcessHandle r
  | .client netif => { s with netif := netif }

def LwipComm.Ready (s : LwipComm) : DhcpEvent → Prop
  | .handle _ => True
  | .client netif => netif.dhcp.isSome = s.netif.dhcp.isSome

instance (s : LwipComm) : (e : DhcpEvent) → Decidable (s.Ready e)
  | .handle _ => inferInstanceAs (Decidable True)
  | .client _ => inferInstanceAs (Decidable (_ = _))

def DhcpStep (s : LwipComm) (e : DhcpEvent) (s' : LwipComm) : Prop := s.Ready e ∧ s' = s.next e

end Stm32F407
