import Stm32F407.Lib.Run
import Stm32F407.Proofs.ModbusFunc

/-! The holding registers seen by a master: over every history of requests the
replies and the table are those of a slave that keeps a plain array. -/

namespace Stm32F407

open Lib

inductive HoldingRequest where
  | writeSingle (a v : U16)
  | writeMultiple (a : U16) (vals : List U16)
  | read (a n : U16)
  | readWrite (ra rn wa : U16) (vals : List U16)

def HoldingRequest.encode : HoldingRequest → List U8
  | .writeSingle a v => 6 :: regBytes [a, v]
  | .writeMultiple a vals =>
      (16 :: regBytes [a, BitVec.ofNat 16 vals.length]) ++
        BitVec.ofNat 8 (2 * vals.length) :: regBytes vals
  | .read a n => 3 :: regBytes [a, n]
  | .readWrite ra rn wa vals =>
      (23 :: regBytes [ra, rn, wa, BitVec.ofNat 16 vals.length]) ++
        BitVec.ofNat 8 (2 * vals.length) :: regBytes vals

/-- Quantities within the limits of the protocol, and for function code 23 both
ranges in a table of `size` registers. -/
def HoldingRequest.WellFormed (size : ℕ) : HoldingRequest → Prop
  | .writeSingle _ _ => True
  | .writeMultiple _ vals => 1 ≤ vals.length ∧ vals.length ≤ 120
  | .read _ n => 1 ≤ n.toNat ∧ n.toNat ≤ 125
  | .readWrite ra rn wa vals =>
      (1 ≤ rn.toNat ∧ rn.toNat ≤ 125) ∧ (1 ≤ vals.length ∧ vals.length ≤ 121) ∧
        ra.toNat + rn.toNat ≤ size ∧ wa.toNat + vals.length ≤ size

def registersReply (fc : U8) (vals : List U16) : List U8 :=
  fc :: BitVec.ofNat 8 (2 * vals.length) :: regBytes vals

def illegalAddressReply (fc : U8) : List U8 := [fc ||| 128, 2]

/-- A slave that holds an array of `size` registers: reply and array afterwards. -/
def serve (size : ℕ) (array : ℕ → U16) : HoldingRequest → List U8 × (ℕ → U16)
  | .writeSingle a v =>
      if a.toNat + 1 ≤ size then (6 :: regBytes [a, v], blit array a.toNat [v])
      else (illegalAddressReply 6, array)
  | .writeMultiple a vals =>
      if a.toNat + vals.length ≤ size then
        (16 :: regBytes [a, BitVec.ofNat 16 vals.length], blit array a.toNat vals)
      else (illegalAddressReply 16, array)
  | .read a n =>
      if a.toNat + n.toNat ≤ size then (registersReply 3 (slice array a.toNat n.toNat), array)
      else (illegalAddressReply 3, array)
  | .readWrite ra rn wa vals =>
      if wa.toNat + vals.length ≤ size ∧ ra.toNat + rn.toNat ≤ size then
        let array := blit array wa.toNat vals
        (registersReply 23 (slice array ra.toNat rn.toNat), array)
      else (illegalAddressReply 23, array)

def serveAll (size : ℕ) (array : ℕ → U16) (qs : List HoldingRequest) : List (List U8) × (ℕ → U16) :=
  qs.foldl (fun out q => (out.1 ++ [(serve size out.2 q).1], (serve size out.2 q).2)) ([], array)

theorem serveAll_snoc (size : ℕ) (array : ℕ → U16) (qs : List HoldingRequest) (q : HoldingRequest) :
    serveAll size array (qs ++ [q]) =
      ((serveAll size array qs).1 ++ [(serve size (serveAll size array qs).2 q).1],
        (serve size (serveAll size array qs).2 q).2) := by
  rw [serveAll, List.foldl_append]
  rfl

variable {sz : RegSizes} {s : Slave} {frame : ℕ → U8}

def Serves (sz : RegSizes) (s : Slave) (frame : ℕ → U8) (len : ℕ) (out : List U8 × (ℕ → U16)) : Prop :=
  (execute sz s frame (BitVec.ofNat 16 len)).reply = out.1 ∧
    (execute sz s frame (BitVec.ofNat 16 len)).regs = { s.regs with usRegHoldingBuf := out.2 }

theorem pduWord_of_holds {a : U16} {k : ℕ} (h : Holds frame k (regBytes [a])) : pduWord frame k = a := by
  obtain ⟨hhi, hlo⟩ : frame k = hiByte a ∧ frame (k + 1) = loByte a := by simpa using h
  rw [pduWord, hhi, hlo, be16_split]

theorem serves_illegalAddress {fc : U8} {len : ℕ} {r : HandlerResult} (hfc : frame 0 = fc)
    (hd : dispatch sz s frame (BitVec.ofNat 16 len) = r) (hex : r.eStatus = .illegalDataAddress)
    (hregs : r.regs = s.regs) :
    Serves sz s frame len (illegalAddressReply fc, s.regs.usRegHoldingBuf) := by
  unfold Serves execute
  rw [hd, hfc]
  refine ⟨?_, ?_⟩
  · rw [errorFrame_reply (by rw [hex]; decide), hex]
    rfl
  · rw [errorFrame_regs, hregs]

theorem serves_of_none {len : ℕ} {out : List U8 × (ℕ → U16)} {r : HandlerResult}
    (hd : dispatch sz s frame (BitVec.ofNat 16 len) = r) (hex : r.eStatus = .none)
    (hlen : r.usLen.toNat = out.1.length) (hreply : Holds r.frame 0 out.1)
    (hregs : r.regs = { s.regs with usRegHoldingBuf := out.2 }) : Serves sz s frame len out := by
  unfold Serves execute
  rw [hd, errorFrame_of_none hex, HandlerResult.reply, hlen]
  exact ⟨hreply, hregs⟩

/-- The reply a read builds over the request. -/
theorem holds_registersReply (f : ℕ → U8) (fc : U8) (tbl : ℕ → U16) (a : ℕ) (n : U16) :
    Holds (blit f 0 (fc :: (n * 2).setWidth 8 :: regBytes (slice tbl a n.toNat))) 0
      (registersReply fc (slice tbl a n.toNat)) := by
  rw [registersReply, slice_length, ← byteCount_eq]
  exact holds_blit f 0 _

theorem registersReply_length (fc : U8) (vals : List U16) :
    (registersReply fc vals).length = 2 + 2 * vals.length := by
  simp only [registersReply, List.length_cons, regBytes_length]
  omega

theorem serves_writeSingle {a v : U16} (h : Holds frame 0 (HoldingRequest.writeSingle a v).encode) :
    Serves sz s frame 5 (serve sz.holdingNRegs s.regs.usRegHoldingBuf (.writeSingle a v)) := by
  obtain ⟨hfc, ha, hv⟩ : frame 0 = 6 ∧ Holds frame 1 (regBytes [a]) ∧ Holds frame 3 (regBytes [v]) := by
    simpa [HoldingRequest.encode, and_assoc] using h
  have hvals : regVals frame 3 1 = [v] := (regVals_of_slice hv : regVals frame 3 [v].length = [v])
  have hd := (dispatch_of_find hfc rfl 5).trans (writeHolding_eq sz s frame 5)
  rw [if_pos rfl, pduWord_of_holds ha, hvals] at hd
  rw [serve]
  split_ifs at hd ⊢ with hin
  · exact serves_of_none hd rfl rfl h rfl
  · exact serves_illegalAddress hfc hd rfl rfl

theorem serves_read {a n : U16} (h : Holds frame 0 (HoldingRequest.read a n).encode)
    (hwf : 1 ≤ n.toNat ∧ n.toNat ≤ 125) :
    Serves sz s frame 5 (serve sz.holdingNRegs s.regs.usRegHoldingBuf (.read a n)) := by
  obtain ⟨hfc, ha, hn⟩ : frame 0 = 3 ∧ Holds frame 1 (regBytes [a]) ∧ frame 4 = loByte n := by
    have h' : frame 0 = 3 ∧ Holds frame 1 (regBytes [a]) ∧ frame 3 = hiByte n ∧ frame 4 = loByte n := by
      simpa [HoldingRequest.encode, and_assoc] using h
    exact ⟨h'.1, h'.2.1, h'.2.2.2⟩
  have hcount : readHoldingCount frame = n := by
    apply BitVec.eq_of_toNat_eq
    rw [readHoldingCount, hn, BitVec.toNat_setWidth, loByte_toNat]
    omega
  have hchk : ReadHoldingChecks frame 5 := by
    rw [ReadHoldingChecks, hcount, BitVec.le_def, BitVec.le_def]
    exact ⟨rfl, hwf⟩
  have hd := (dispatch_of_find hfc rfl 5).trans (readHolding_eq sz s frame 5)
  rw [if_pos hchk, hcount, pduWord_of_holds ha] at hd
  rw [serve]
  split_ifs at hd ⊢ with hin
  · refine serves_of_none hd rfl ?_ (holds_registersReply _ _ _ _ _) rfl
    rw [registersReply_length, slice_length, replyLength_eq hwf.2]
  · exact serves_illegalAddress hfc hd rfl rfl

theorem serves_writeMultiple {a : U16} {vals : List U16}
    (h : Holds frame 0 (HoldingRequest.writeMultiple a vals).encode)
    (hwf : 1 ≤ vals.length ∧ vals.length ≤ 120) :
    Serves sz s frame (6 + 2 * vals.length)
      (serve sz.holdingNRegs s.regs.usRegHoldingBuf (.writeMultiple a vals)) := by
  have hn : (BitVec.ofNat 16 vals.length : U16).toNat = vals.length := by
    rw [BitVec.toNat_ofNat]
    omega
  obtain ⟨hhead, hdata⟩ := holds_append.mp h
  obtain ⟨hfc, ha, hcnt⟩ : frame 0 = 16 ∧ Holds frame 1 (regBytes [a]) ∧
      Holds frame 3 (regBytes [BitVec.ofNat 16 vals.length]) := by
    simpa [and_assoc] using hhead
  obtain ⟨hbytes, hvals⟩ : frame 5 = BitVec.ofNat 8 (2 * vals.length) ∧
      Holds frame 6 (regBytes vals) := by
    simpa using hdata
  rw [Holds, regBytes_length] at hvals
  have hchk : WriteMultipleChecks frame (BitVec.ofNat 16 (6 + 2 * vals.length)) := by
    have hlen : (BitVec.ofNat 16 (6 + 2 * vals.length) : U16).toNat = 6 + 2 * vals.length := by
      rw [BitVec.toNat_ofNat]
      omega
    rw [WriteMultipleChecks, pduWord_of_holds hcnt, hbytes, BitVec.mul_comm, byteCount_eq, hn]
    simp only [BitVec.le_def, hlen, hn]
    exact ⟨Nat.le_add_right _ _, hwf.1, hwf.2, trivial⟩
  have hd := (dispatch_of_find hfc rfl _).trans (writeMultiple_eq sz s frame (BitVec.ofNat 16 (6 + 2 * vals.length)))
  rw [if_pos hchk, pduWord_of_holds ha, pduWord_of_holds hcnt, hn, regVals_of_slice hvals] at hd
  rw [serve]
  split_ifs at hd ⊢ with hin
  · exact serves_of_none hd rfl rfl hhead rfl
  · exact serves_illegalAddress hfc hd rfl rfl

theorem serves_readWrite {ra rn wa : U16} {vals : List U16}
    (h : Holds frame 0 (HoldingRequest.readWrite ra rn wa vals).encode)
    (hwf : (HoldingRequest.readWrite ra rn wa vals).WellFormed sz.holdingNRegs) :
    Serves sz s frame (10 + 2 * vals.length)
      (serve sz.holdingNRegs s.regs.usRegHoldingBuf (.readWrite ra rn wa vals)) := by
  obtain ⟨hrn, hlen, hr, hw⟩ := hwf
  have hn : (BitVec.ofNat 16 vals.length : U16).toNat = vals.length := by
    rw [BitVec.toNat_ofNat]
    omega
  obtain ⟨hhead, hdata⟩ := holds_append.mp h
  obtain ⟨hfc, hra, hrc, hwa, hwc⟩ : frame 0 = 23 ∧ Holds frame 1 (regBytes [ra]) ∧
      Holds frame 3 (regBytes [rn]) ∧ Holds frame 5 (regBytes [wa]) ∧
      Holds frame 7 (regBytes [BitVec.ofNat 16 vals.length]) := by
    simpa [and_assoc] using hhead
  obtain ⟨hbytes, hvals⟩ : frame 9 = BitVec.ofNat 8 (2 * vals.length) ∧
      Holds frame 10 (regBytes vals) := by
    simpa using hdata
  rw [Holds, regBytes_length] at hvals
  have hlong : (10 : U16) ≤ BitVec.ofNat 16 (10 + 2 * vals.length) := by
    have h10 : (10 : U16).toNat = 10 := rfl
    rw [BitVec.le_def, BitVec.toNat_ofNat, h10]
    omega
  have hchk : ReadWriteChecks frame := by
    rw [ReadWriteChecks, pduWord_of_holds hrc, pduWord_of_holds hwc, hbytes]
    simp only [BitVec.le_def, hn]
    refine ⟨hrn, hlen, ?_⟩
    rw [BitVec.toNat_ofNat]
    omega
  have htbl : readWriteTable s.regs.usRegHoldingBuf frame =
      blit s.regs.usRegHoldingBuf wa.toNat vals := by
    rw [readWriteTable, pduWord_of_holds hwa, pduWord_of_holds hwc, hn, regVals_of_slice hvals]
  have hd := (dispatch_of_find hfc rfl (BitVec.ofNat 16 (10 + 2 * vals.length))).trans
    (readWrite_eq sz s frame _)
  simp only [if_pos hlong, if_pos hchk, pduWord_of_holds hra, pduWord_of_holds hrc, pduWord_of_holds hwa,
    pduWord_of_holds hwc, hn, if_pos hw, if_pos hr, htbl] at hd
  rw [serve, if_pos ⟨hw, hr⟩]
  refine serves_of_none hd rfl ?_ (holds_registersReply _ _ _ _ _) rfl
  rw [registersReply_length, slice_length, ← replyLength_eq hrn.2, BitVec.mul_comm rn]

/-- Every well-formed request is answered as by the reference slave, whatever
stands in the receive buffer behind it. -/
theorem serves_request (q : HoldingRequest) (h : Holds frame 0 q.encode)
    (hwf : q.WellFormed sz.holdingNRegs) :
    Serves sz s frame q.encode.length (serve sz.holdingNRegs s.regs.usRegHoldingBuf q) := by
  cases q with
  | writeSingle a v => exact serves_writeSingle h
  | writeMultiple a vals =>
    have hlen : (HoldingRequest.writeMultiple a vals).encode.length = 6 + 2 * vals.length := by
      simp only [HoldingRequest.encode, List.length_append, List.length_cons, regBytes_length,
        List.length_nil]
      omega
    rw [hlen]
    exact serves_writeMultiple h hwf
  | read a n => exact serves_read h hwf
  | readWrite ra rn wa vals =>
    have hlen : (HoldingRequest.readWrite ra rn wa vals).encode.length = 10 + 2 * vals.length := by
      simp only [HoldingRequest.encode, List.length_append, List.length_cons, regBytes_length,
        List.length_nil]
      omega
    rw [hlen]
    exact serves_readWrite h hwf

inductive HoldingStep (sz : RegSizes) : Slave → HoldingRequest × List U8 → Slave → Prop
  | poll (s : Slave) (q : HoldingRequest) (frame : ℕ → U8) (h : Holds frame 0 q.encode) :
      HoldingStep sz s (q, (execute sz s frame (BitVec.ofNat 16 q.encode.length)).reply)
        { s with regs := (execute sz s frame (BitVec.ofNat 16 q.encode.length)).regs }

/-- Over every history of well-formed requests the replies are those of the
reference slave, and its array is what the holding registers contain. -/
theorem holding_refines_array (sz : RegSizes) (s s' : Slave) (evs : List (HoldingRequest × List U8))
    (hrun : Run (HoldingStep sz) s evs s') (hwf : ∀ ev ∈ evs, ev.1.WellFormed sz.holdingNRegs) :
    evs.map Prod.snd =
        (serveAll sz.holdingNRegs s.regs.usRegHoldingBuf (evs.map Prod.fst)).1 ∧
      s'.regs = { s.regs with
        usRegHoldingBuf :=
          (serveAll sz.holdingNRegs s.regs.usRegHoldingBuf (evs.map Prod.fst)).2 } := by
  induction hrun with
  | nil => exact ⟨rfl, rfl⟩
  | snoc _ hstep ih =>
    obtain ⟨hreplies, hregs⟩ := ih fun ev hev => hwf ev (List.mem_append_left _ hev)
    have harray := congrArg Regs.usRegHoldingBuf hregs
    cases hstep with
    | poll q frame h =>
      obtain ⟨hreply, hafter⟩ := serves_request q h (hwf _ (List.mem_append_right _ List.mem_cons_self))
      rw [harray] at hreply hafter
      simp only [List.map_append, List.map_cons, List.map_nil, serveAll_snoc]
      refine ⟨by rw [hreplies, hreply], ?_⟩
      rw [hafter, hregs]

/-- Register 7 of the table of `modbus.c`, written and read back. -/
theorem holding_refines_array_eight :
    ∃ r₁ r₂ s', Run (HoldingStep regSizes) Slave.start
        [(.writeSingle 7 0x1234, r₁), (.read 6 2, r₂)] s' ∧
      r₁ = [6, 0, 7, 0x12, 0x34] ∧ r₂ = [3, 4, 0x14, 0x7b, 0x12, 0x34] := by
  obtain ⟨r₁, s₁, hstep₁⟩ : ∃ r s, HoldingStep regSizes Slave.start (.writeSingle 7 0x1234, r) s :=
    ⟨_, _, HoldingStep.poll _ _ _ (holds_blit (fun _ => 0) 0 _)⟩
  obtain ⟨r₂, s₂, hstep₂⟩ : ∃ r s, HoldingStep regSizes s₁ (.read 6 2, r) s :=
    ⟨_, _, HoldingStep.poll _ _ _ (holds_blit (fun _ => 0) 0 _)⟩
  have hrun := (Run.single hstep₁).snoc hstep₂
  have hwf : ∀ ev ∈ [(HoldingRequest.writeSingle 7 0x1234, r₁)] ++ [(.read 6 2, r₂)],
      ev.1.WellFormed regSizes.holdingNRegs := by
    simp [HoldingRequest.WellFormed]
  have hserve := (holding_refines_array regSizes _ _ _ hrun hwf).1
  have heval : (serveAll 8 Regs.start.usRegHoldingBuf [.writeSingle 7 0x1234, .read 6 2]).1 =
      [[6, 0, 7, 0x12, 0x34], [3, 4, 0x14, 0x7b, 0x12, 0x34]] := by decide
  obtain ⟨h₁, h₂⟩ : r₁ = _ ∧ r₂ = _ := by simpa using hserve.trans heval
  exact ⟨r₁, r₂, s₂, hrun, h₁, h₂⟩

end Stm32F407
