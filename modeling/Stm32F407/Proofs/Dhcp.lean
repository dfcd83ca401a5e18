import Stm32F407.Spec.Dhcp

/-! The hand-over of the addresses between the DHCP client and `g_lwip_dev`: what a
call of `lwip_dhcp_process_handle` owes, and the calls of a run that give it. -/

namespace Stm32F407

open Lib

variable {s s' : LwipComm} {r r₀ : DhcpResources} {evs : List DhcpEvent}

theorem ip4Addr_mk (a b c d : U8) : ip4Addr #v[a, b, c, d] =
    d.setWidth 32 <<< 24 ||| c.setWidth 32 <<< 16 ||| b.setWidth 32 <<< 8 ||| a.setWidth 32 := by
  apply BitVec.eq_of_getLsbD_eq
  intro i hi
  simp only [ip4Addr, ppHtonl, lwipMakeU32]
  interval_cases i <;> simp

@[simp] theorem ip4Addr_ip4Bytes (addr : U32) : ip4Addr (ip4Bytes addr) = addr := by
  apply BitVec.eq_of_getLsbD_eq
  intro i hi
  rw [ip4Bytes, ip4Addr_mk]
  interval_cases i <;> simp

/-- `gdhcp` is not the client attached to the interface: nothing ever counts in it. -/
structure DhcpInv (s : LwipComm) : Prop where
  gdhcp : s.gdhcp = Dhcp.zero
  gateway : s.dev.gateway = lwipCommDefaultIpSet.gateway
  status : s.dev.dhcpstatus = 0 ∨ s.dev.dhcpstatus = 1 ∨ s.dev.dhcpstatus = 2

theorem dhcpInv_init (r : DhcpResources) : DhcpInv (lwipCommInit r) := ⟨rfl, rfl, Or.inl rfl⟩

theorem DhcpInv.not_timeout (h : DhcpInv s) : ¬ s.gdhcp.tries > lwipMaxDhcpTries := by
  rw [h.gdhcp]
  decide

/-- What a call can do: start the client, take over its addresses, or nothing. -/
theorem DhcpInv.handle_cases (h : DhcpInv s) (r : DhcpResources) :
    (s.dev.dhcpstatus = 0 ∧ s.lwipDhcpProcessHandle r =
      { s with netif := (s.netif.dhcpStart r).2, dev := { s.dev with dhcpstatus := 1 } }) ∨
    (s.dev.dhcpstatus = 1 ∧ s.netif.ipAddr ≠ 0 ∧ s.lwipDhcpProcessHandle r =
      { s with dev := { s.dev with
        dhcpstatus := 2, ip := ip4Bytes s.netif.ipAddr, netmask := ip4Bytes s.netif.netmask } }) ∨
    (s.dev.dhcpstatus = 1 ∧ s.netif.ipAddr = 0 ∧ s.lwipDhcpProcessHandle r = s) ∨
    (s.dev.dhcpstatus = 2 ∧ s.lwipDhcpProcessHandle r = s) := by
  unfold LwipComm.lwipDhcpProcessHandle
  rcases h.status with h0 | h1 | h2
  · exact Or.inl ⟨h0, if_pos h0⟩
  · have h0 : s.dev.dhcpstatus ≠ 0 := by simp [h1]
    rw [if_neg h0, if_pos h1]
    by_cases hip : s.netif.ipAddr = 0
    · exact Or.inr (Or.inr (Or.inl ⟨h1, hip, (if_neg (not_not_intro hip)).trans (if_neg h.not_timeout)⟩))
    · exact Or.inr (Or.inl ⟨h1, hip, if_pos hip⟩)
  · refine Or.inr (Or.inr (Or.inr ⟨h2, ?_⟩))
    simp [h2]

theorem DhcpInv.step (h : DhcpInv s) {e : DhcpEvent} (hs : DhcpStep s e s') : DhcpInv s' := by
  obtain ⟨-, rfl⟩ := hs
  cases e with
  | client netif => exact ⟨h.gdhcp, h.gateway, h.status⟩
  | handle r =>
    have hcases := h.handle_cases r
    rw [LwipComm.next]
    rcases hcases with ⟨-, heq⟩ | ⟨-, -, heq⟩ | ⟨-, -, heq⟩ | ⟨-, heq⟩
    · rw [heq]
      exact ⟨h.gdhcp, h.gateway, Or.inr (Or.inl rfl)⟩
    · rw [heq]
      exact ⟨h.gdhcp, h.gateway, Or.inr (Or.inr rfl)⟩
    · rwa [heq]
    · rwa [heq]

theorem dhcpInv_run (hrun : Run DhcpStep (lwipCommInit r₀) evs s) : DhcpInv s :=
  hrun.invariant (dhcpInv_init r₀) fun _ _ _ h hs => h.step hs

/-- The static addresses are never installed, however often the client has tried. -/
theorem dhcpstatus_ne_timeout (hrun : Run DhcpStep (lwipCommInit r₀) evs s) :
    s.dev.dhcpstatus ≠ 0xFF := by
  rcases (dhcpInv_run hrun).status with h | h | h <;> simp [h]

structure LwipComm.Agrees (s : LwipComm) : Prop where
  ip : ip4Addr s.dev.ip = s.netif.ipAddr
  netmask : ip4Addr s.dev.netmask = s.netif.netmask
  gateway : ip4Addr s.dev.gateway = s.netif.gw

def Netif.TimedOut (n : Netif) : Prop := ∃ d ∈ n.dhcp, d.tries > lwipMaxDhcpTries

/-- The duties of a call that takes `s` to `s'`. -/
structure DhcpContract (s s' : LwipComm) : Prop where
  handOver : s.dev.dhcpstatus = 1 → s'.dev.dhcpstatus = 2 → s'.Agrees
  fallBack : s.dev.dhcpstatus = 1 → s.netif.ipAddr = 0 → s.netif.TimedOut →
    s'.dev.dhcpstatus = 0xFF ∧ s'.netif.ipAddr = ip4Addr s.dev.ip ∧
      s'.netif.netmask = ip4Addr s.dev.netmask ∧ s'.netif.gw = ip4Addr s.dev.gateway
  final : s.dev.dhcpstatus = 2 ∨ s.dev.dhcpstatus = 0xFF → s'.dev.dhcpstatus = s.dev.dhcpstatus

/-- While an address is awaited: one that has come, came with the default gateway
192.168.8.1, and none has come only as long as the client has tries left. -/
def Served (s : LwipComm) : Prop :=
  s.dev.dhcpstatus = 1 →
    (s.netif.ipAddr ≠ 0 → s.netif.gw = 0x0108A8C0) ∧ (s.netif.ipAddr = 0 → ¬ s.netif.TimedOut)

theorem DhcpInv.ip4Addr_gateway (h : DhcpInv s) : ip4Addr s.dev.gateway = 0x0108A8C0 := by
  rw [h.gateway]
  decide

/-- A call that finds no address awaited owes only that 2 and 0xFF stay. -/
theorem dhcpContract_iff_of_ne (hne : s.dev.dhcpstatus ≠ 1)
    (hfinal : s.dev.dhcpstatus = 2 ∨ s.dev.dhcpstatus = 0xFF →
      s'.dev.dhcpstatus = s.dev.dhcpstatus) : DhcpContract s s' ↔ Served s := by
  constructor
  · intro _ h1
    exact absurd h1 hne
  · intro _
    exact ⟨fun h1 => absurd h1 hne, fun h1 => absurd h1 hne, hfinal⟩

theorem DhcpInv.contract_iff (h : DhcpInv s) (r : DhcpResources) :
    DhcpContract s (s.lwipDhcpProcessHandle r) ↔ Served s := by
  have hgate := h.ip4Addr_gateway
  have hcases := h.handle_cases r
  rcases hcases with ⟨h0, heq⟩ | ⟨h1, hip, heq⟩ | ⟨h1, hip, heq⟩ | ⟨h2, heq⟩
  · rw [heq]
    apply dhcpContract_iff_of_ne
    · simp [h0]
    · simp [h0]
  · rw [heq]
    constructor
    · intro hc _
      refine ⟨fun _ => ?_, fun h0 => absurd h0 hip⟩
      exact (hc.handOver h1 rfl).gateway.symm.trans hgate
    · intro hserved
      refine ⟨fun _ _ => ⟨ip4Addr_ip4Bytes _, ip4Addr_ip4Bytes _, ?_⟩, fun _ h0 => absurd h0 hip, ?_⟩
      · exact hgate.trans ((hserved h1).1 hip).symm
      · simp [h1]
  · rw [heq]
    constructor
    · intro hc _
      refine ⟨fun hne => absurd hip hne, fun _ htried => ?_⟩
      have hff := (hc.fallBack h1 hip htried).1
      rw [h1] at hff
      exact absurd hff (by decide)
    · intro hserved
      refine ⟨fun _ h2 => ?_, fun _ _ htried => absurd htried ((hserved h1).2 hip), fun _ => rfl⟩
      rw [h1] at h2
      exact absurd h2 (by decide)
  · rw [heq]
    apply dhcpContract_iff_of_ne
    · simp [h2]
    · exact fun _ => rfl

def EachCall (r₀ : DhcpResources) (evs : List DhcpEvent) (P : LwipComm → DhcpResources → Prop) :
    Prop :=
  ∀ (pre post : List DhcpEvent) (r : DhcpResources) (t : LwipComm),
    evs = pre ++ .handle r :: post → Run DhcpStep (lwipCommInit r₀) pre t → P t r

theorem eachCall_congr {P Q : LwipComm → DhcpResources → Prop}
    (h : ∀ s r, DhcpInv s → (P s r ↔ Q s r)) : EachCall r₀ evs P ↔ EachCall r₀ evs Q := by
  constructor
  · intro hp pre post r t heq hrun
    exact (h t r (dhcpInv_run hrun)).mp (hp pre post r t heq hrun)
  · intro hq pre post r t heq hrun
    exact (h t r (dhcpInv_run hrun)).mpr (hq pre post r t heq hrun)

theorem DhcpStep.eq_next (s : LwipComm) (e : DhcpEvent) (s' : LwipComm) (h : DhcpStep s e s') :
    s' = s.next e := h.2

theorem settled_step {c : U8} (hc : c = 2 ∨ c = 0xFF) (h : s.dev.dhcpstatus = c) {e : DhcpEvent}
    (hs : DhcpStep s e s') : s'.dev.dhcpstatus = c := by
  obtain ⟨-, rfl⟩ := hs
  cases e with
  | client netif => exact h
  | handle r =>
    have hidle : s.lwipDhcpProcessHandle r = s := by
      unfold LwipComm.lwipDhcpProcessHandle
      rcases hc with rfl | rfl <;> simp [h]
    rw [LwipComm.next, hidle, h]

/-- In a run every call keeps the contract just when every call is `Served`; and the
states 2 and 0xFF are final in any case. -/
theorem dhcpContract_iff (r₀ : DhcpResources) (evs : List DhcpEvent) (s : LwipComm)
    (hrun : Run DhcpStep (lwipCommInit r₀) evs s) :
    (EachCall r₀ evs (fun t r => DhcpContract t (t.lwipDhcpProcessHandle r)) ↔
      EachCall r₀ evs fun t _ => Served t) ∧
    ∀ (pre post : List DhcpEvent) (t : LwipComm), evs = pre ++ post →
      Run DhcpStep (lwipCommInit r₀) pre t → t.dev.dhcpstatus = 2 ∨ t.dev.dhcpstatus = 0xFF →
      s.dev.dhcpstatus = t.dev.dhcpstatus := by
  refine ⟨eachCall_congr fun t r h => h.contract_iff r, ?_⟩
  rintro pre post t rfl hpre hfinal
  obtain ⟨t', hpre', hpost⟩ := run_append_iff.mp hrun
  obtain rfl : t' = t :=
    (hpre'.eq_foldl DhcpStep.eq_next).trans (hpre.eq_foldl DhcpStep.eq_next).symm
  obtain ⟨c, hc⟩ : ∃ c, t'.dev.dhcpstatus = c := ⟨_, rfl⟩
  rw [hc] at hfinal ⊢
  exact hpost.invariant hc fun _ _ _ h hs => settled_step hfinal h hs

/-- Between two calls the interface gets the address 192.168.8.20 and the gateway `gw`. -/
def leaseEvents (gw : U32) : List DhcpEvent :=
  [.handle ⟨true, true⟩,
    .client ⟨0x1408A8C0, 0x00FFFFFF, gw, 1500, true, true, some ⟨.bound, 0⟩⟩,
    .handle ⟨true, true⟩]

theorem lease_run (gw : U32) : Run DhcpStep (lwipCommInit ⟨true, true⟩) (leaseEvents gw)
    ((leaseEvents gw).foldl LwipComm.next (lwipCommInit ⟨true, true⟩)) := by
  have hadm : Admitted LwipComm.next LwipComm.Ready (lwipCommInit ⟨true, true⟩) (leaseEvents gw) :=
    ⟨trivial, by rfl, trivial, trivial⟩
  exact Run.of_admitted (fun s e h => ⟨h, rfl⟩) hadm

/-- The default gateway is taken over. -/
theorem dhcpContract_iff_lease : EachCall ⟨true, true⟩ (leaseEvents 0x0108A8C0)
    fun t r => DhcpContract t (t.lwipDhcpProcessHandle r) := by
  refine (dhcpContract_iff ⟨true, true⟩ (leaseEvents 0x0108A8C0) _ (lease_run _)).1.mpr ?_
  intro pre post r t heq hrun
  rw [hrun.eq_foldl DhcpStep.eq_next]
  rcases pre with _ | ⟨a, _ | ⟨b, _ | ⟨c, pre⟩⟩⟩
  · exact fun h1 => absurd h1 (by decide)
  · simp [leaseEvents] at heq
  · simp only [leaseEvents, List.cons_append, List.nil_append, List.cons.injEq] at heq
    obtain ⟨rfl, rfl, -⟩ := heq
    exact fun _ => ⟨fun _ => rfl, fun h0 => absurd h0 (by decide)⟩
  · simp [leaseEvents] at heq

/-- The gateway 192.168.8.254 is not. -/
theorem not_dhcpContract : ¬ ∀ (r₀ : DhcpResources) (evs : List DhcpEvent) (s : LwipComm),
    Run DhcpStep (lwipCommInit r₀) evs s →
      EachCall r₀ evs fun t r => DhcpContract t (t.lwipDhcpProcessHandle r) := by
  intro hall
  have hrun : Run DhcpStep _ ((leaseEvents 0xFE08A8C0).take 2 ++ [.handle ⟨true, true⟩]) _ :=
    lease_run 0xFE08A8C0
  obtain ⟨t, hpre, -⟩ := run_snoc_iff.mp hrun
  have hcall := hall ⟨true, true⟩ _ _ (lease_run 0xFE08A8C0) _ [] ⟨true, true⟩ t rfl hpre
  rw [hpre.eq_foldl DhcpStep.eq_next] at hcall
  exact absurd (hcall.handOver (by decide) (by decide)).gateway (by decide)

end Stm32F407
