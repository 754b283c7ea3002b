import DpdkFilter.LcoreMain

/-!
# Opening the forward interface

`main` tests the name for the prefix `tun` once, before the packet loop tests it
again for every packet. One of the two descriptors is opened and the other keeps
its initial -1.
-/

namespace ForwardInterface

open CString LcoreMain

/-- What the system calls of the two openers return. -/
structure ForwardEnv where
  openRet : Int
  tunsetiffRet : Int
  socketRet : Int
  ifNametoindexRet : UInt32
  bindRet : Int

def openTunDevice (env : ForwardEnv) : Int :=
  if env.openRet < 0 then -1
  else if env.tunsetiffRet < 0 then env.tunsetiffRet
  else env.openRet

def createRawSocket (env : ForwardEnv) : Int :=
  if env.socketRet < 0 then -1
  else if env.ifNametoindexRet = 0 then -1
  else if env.bindRet < 0 then -1
  else env.socketRet

structure Descriptors where
  tunFd : Int
  rawSock : Int
deriving DecidableEq

/-- `none` where `main` returns 1. -/
def openForward (env : ForwardEnv) (forwardIfname : CStr) : Option Descriptors :=
  if strncmp forwardIfname tun 3 = 0 then
    let tunFd := openTunDevice env
    if tunFd < 0 then none else some ⟨tunFd, -1⟩
  else
    let rawSock := createRawSocket env
    if rawSock < 0 then none else some ⟨-1, rawSock⟩

/-- The global variables as they stand after a successful opening. -/
structure Opened (env : ForwardEnv) (name : CStr) (g : Globals) : Prop where
  ifname : g.forwardIfname = some name
  descriptors : openForward env name = some ⟨g.tunFd, g.rawSock⟩

theorem strncmp_tun_iff (name : CStr) : strncmp name tun 3 = 0 ↔ tun <+: name :=
  strncmp_length_eq_zero name tun (by simp [tun])

theorem Opened.tunFd_nonneg {env : ForwardEnv} {name : CStr} {g : Globals}
    (h : Opened env name g) (hname : tun <+: name) : 0 ≤ g.tunFd := by
  have hd := h.descriptors
  simp only [openForward, (strncmp_tun_iff name).mpr hname, if_true] at hd
  split at hd
  · cases hd
  · simp only [Option.some.injEq, Descriptors.mk.injEq] at hd
    omega

theorem Opened.rawSock_nonneg {env : ForwardEnv} {name : CStr} {g : Globals}
    (h : Opened env name g) (hname : ¬ tun <+: name) : 0 ≤ g.rawSock := by
  have hd := h.descriptors
  have hcmp : ¬ strncmp name tun 3 = 0 := fun he => hname ((strncmp_tun_iff name).mp he)
  simp only [openForward, hcmp, if_false] at hd
  split at hd
  · cases hd
  · simp only [Option.some.injEq, Descriptors.mk.injEq] at hd
    omega

end ForwardInterface
